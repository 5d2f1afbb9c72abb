import ProbeScript.Proofs.RoundTrip

/-! Trees built by hand and printed. Two comparisons of tiers, made at each operator by itself, are
all that is needed for the text to be grouped into the shape of the tree again. -/
namespace ProbeScript

open Node

/-- What a tree turns into when its text is read. An operand is put between parentheses if it joins
operands by an operator of a lower tier, or on the right of one of the same tier. A single value
between parentheses becomes a tuple where it is an argument. All else stays. -/
structure Normalizes (f : Node → Node) : Prop where
  binary : ∀ op left right span, f (.binary op left right span) = .binary op
    (if left.operator?.any (·.tier < op.tier) then .parenthesized (f left) none else f left)
    (if right.operator?.any (·.tier ≤ op.tier) then .parenthesized (f right) none else f right) span
  call : ∀ name args span, f (.call name args span) = .call name (args.map fun
    | .parenthesized v s =>
      if v.kind ∈ [.identifier, .integer, .string] then .tuple [v] s else .parenthesized (f v) s
    | a => f a) span
  parenthesized : ∀ inner span, f (.parenthesized inner span) = .parenthesized (f inner) span
  assignment : ∀ target value span,
    f (.assignment target value span) = .assignment target (f value) span
  probe : ∀ event predicate body span,
    f (.probe event predicate body span) = .probe event (predicate.map f) (body.map f) span
  script : ∀ probes span, f (.script probes span) = .script (probes.map f) span
  tuple : ∀ values span, f (.tuple values span) = .tuple values span
  leaf : ∀ n, n.kind ∈ [.plain, .identifier, .integer, .string, .spec] → f n = n

private theorem asArgument_normal (a : Node) : Phrase.asArgument a.normal = match a with
    | .parenthesized v s =>
      if v.kind ∈ [.identifier, .integer, .string] then .tuple [v] s else .parenthesized v.normal s
    | a => a.normal := by
  cases a with
  | parenthesized v s => cases v <;> rfl
  | _ => rfl

private theorem normalizes_normal : Normalizes normal where
  binary _ _ _ _ := rfl
  call name args span := by
    rw [normal, normalArguments_eq]
    congr 2
    funext a
    exact asArgument_normal a
  parenthesized _ _ := rfl
  assignment _ _ _ := rfl
  probe event predicate body span := by
    rw [normal, normalAll_eq]
    cases predicate <;> rfl
  script probes span := by rw [normal, normalAll_eq]
  tuple _ _ := rfl
  leaf n h := by cases n <;> first | rfl | simp [kind] at h

namespace Goal
open Phrase

/-- Every tree made of the right parts has a text, which is accepted, and the tree of this text is
the given one but for what printing makes explicit. -/
theorem read_printed (g : Goal) {n : Node} (h : g.Form n) : Normalizes normal ∧
    ∃ text m, n.source = .ok text ∧ g.read text = .ok m ∧ m.same n.normal = true := by
  obtain ⟨text, m, htext, hread, hbare⟩ := h.read_source
  exact ⟨normalizes_normal, text, m, htext, hread, (same_iff m n.normal).2 hbare⟩

/-- A difference on the right of another, with a single value between parentheses inside a call. -/
theorem read_printed_difference : ∃ m, expression.read "a - (b - f((x)))".toList = .ok m ∧
    m.same (.binary .subtract (.identifier ['a'] none) (.parenthesized (.binary .subtract
      (.identifier ['b'] none) (.call ['f'] [.tuple [.identifier ['x'] none] none] none) none)
        none) none) = true := by
  have hname (c : Char) (hc : isNameStart c = true) : Terminal.name.Spells [c] :=
    .named hc (fun d hd => by cases hd)
  have hvalue (c : Char) (hc : isNameStart c = true) : IsExpression (.identifier [c] none) :=
    .value (.identifier none (hname c hc))
  have hcall : IsExpression (.call ['f'] [.parenthesized (.identifier ['x'] none) none] none) :=
    .call none (hname 'f' rfl) (List.forall_mem_singleton.2
      (.expression (.parenthesized none (hvalue 'x' rfl))))
  have hform : expression.Form (.binary .subtract (.identifier ['a'] none) (.binary .subtract
      (.identifier ['b'] none) (.call ['f'] [.parenthesized (.identifier ['x'] none) none] none)
        none) none) :=
    IsExpression.binary _ none (hvalue 'a' rfl) (.binary _ none (hvalue 'b' rfl) hcall)
  obtain ⟨-, text, m, htext, hread, hsame⟩ := read_printed expression hform
  obtain rfl : "a - (b - f((x)))".toList = text := Except.ok.inj htext
  exact ⟨m, hread, hsame⟩

end Goal
end ProbeScript
