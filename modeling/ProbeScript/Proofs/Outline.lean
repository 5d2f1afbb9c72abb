import Mathlib.Algebra.Group.Int.Defs
import ProbeScript.Proofs.Tree.Told

/-! The outline of a tree that was read from a text. It fails only for an integer that is too large
to be written in decimal; otherwise it has a line for each node, and no other tree has it. -/
namespace ProbeScript

open Node Phrase

namespace Node

variable {value base : Int} {span : Option Span}

private theorem pow_le_natAbs_iff {k : Nat} (h : 0 ≤ value) :
    10 ^ k ≤ value.natAbs ↔ (10 : Int) ^ k ≤ value := by
  obtain ⟨v, rfl⟩ := Int.eq_ofNat_of_zero_le h
  exact ⟨fun hle => by exact_mod_cast hle, fun hle => by exact_mod_cast hle⟩

/-- A decimal literal is not too large to be written again. -/
private theorem Shaped.base_mem (h : (integer value base span).Shaped)
    (hle : (10 : Int) ^ Radix.digitLimit ≤ value) : base ∈ [2, 8, 16] := by
  obtain ⟨hvalue, hbase, hdecimal⟩ := h
  have hne : base ≠ 10 := by
    intro hb
    obtain ⟨v, rfl⟩ := Int.eq_ofNat_of_zero_le hvalue
    have hlt : Radix.decimal.value (Radix.decimal.digits v) <
        10 ^ (Radix.decimal.digits v).length :=
      Radix.value_lt (Radix.decimal.isDigit_of_mem_digits v)
    rw [Radix.value_digits] at hlt
    have hlength : (Radix.decimal.digits v).length ≤ Radix.digitLimit := hdecimal hb
    exact absurd ((pow_le_natAbs_iff hvalue).2 hle)
      (Nat.not_le.2 (hlt.trans_le (Nat.pow_le_pow_right (by decide) hlength)))
  simp only [List.mem_cons, List.not_mem_nil, or_false] at hbase ⊢
  omega

/-- The lines of trees that stand at one depth: for each tree a line of its own, indented by four
spaces for each level, and after it the lines of its children, one level deeper. -/
inductive Outlines : Nat → List Node → List Text → Prop
  | nil (depth : Nat) : Outlines depth [] []
  | cons {depth : Nat} {n : Node} {ns : List Node} {d : Text} {below after : List Text} :
    n.details = .ok d → Outlines (depth + 1) n.children below → Outlines depth ns after →
      Outlines depth (n :: ns)
        ((List.replicate (4 * depth) ' ' ++ n.kind.title ++ d) :: (below ++ after))

private theorem outlines_of_forall₂ {depth : Nat} {ns : List Node} {lines : List Text}
    (h : List.Forall₂ (fun x line => outlineLine x.1 x.2 = .ok line) (ns.flatMap (listing depth))
      lines) : Outlines depth ns lines := by
  induction depth, ns using forest_induction generalizing lines with
  | nil depth =>
    cases h
    exact .nil depth
  | cons depth n ns hbelow hafter =>
    rw [List.flatMap_cons, listing_eq, List.cons_append] at h
    obtain ⟨line, ls, hline, hls, rfl⟩ := List.forall₂_cons_left_iff.1 h
    obtain ⟨d, hd, rfl⟩ := outlineLine_eq_ok_iff.1 hline
    have hfirst := (List.forall₂_take_append _ _ _ hls.flip).flip
    have hrest := (List.forall₂_drop_append _ _ _ hls.flip).flip
    have hlines := Outlines.cons hd (hbelow hfirst) (hafter hrest)
    rwa [List.take_append_drop] at hlines

end Node

namespace Goal

private theorem shaped_of_read {g : Goal} {source : Text} {n : Node} (h : g.read source = .ok n) :
    ∀ m ∈ n.nodes, m.Shaped :=
  fun m hm => (wellFormed_of_read h m hm).shaped

theorem outline_eq_error_iff_of_read {g : Goal} {source : Text} {n : Node} {e : PrintError}
    (h : g.read source = .ok n) : n.outline = .error e ↔ e = .tooLarge ∧
      ∃ value base span, .integer value base span ∈ n.nodes ∧ 10 ^ Radix.digitLimit ≤ value := by
  rw [outline_eq_error_iff]
  refine and_congr_right fun _ => exists_congr fun value => exists_congr fun base =>
    exists_congr fun span => and_congr_right fun hmem => ?_
  obtain ⟨hvalue, -⟩ := shaped_of_read h _ hmem
  exact pow_le_natAbs_iff hvalue

/-- The outline of a tree that was read fails only for an integer of more digits than may be
written, which is no decimal literal. Otherwise it has a line for each node, parents before children
and each level indented by four spaces, and trees have the same outline if and only if they are the
same. -/
theorem outline_exact :
    (∀ (g : Goal) source n, g.read source = .ok n →
      (∀ e, n.outline = .error e ↔ e = .tooLarge ∧
        ∃ value base span, .integer value base span ∈ n.nodes ∧ 10 ^ 4300 ≤ value) ∧
      (∀ value base span, .integer value base span ∈ n.nodes → 10 ^ 4300 ≤ value →
        base ∈ [2, 8, 16]) ∧
      ∀ t, n.outline = .ok t → Outlines 0 [n] (Text.pieces '\n' t)) ∧
    ∀ (g h : Goal) source source' a b ta tb, g.read source = .ok a → h.read source' = .ok b →
      a.outline = .ok ta → b.outline = .ok tb → (ta = tb ↔ a.same b = true) := by
  have hlimit : 4300 = Radix.digitLimit := rfl
  rw [hlimit]
  refine ⟨fun g source n hread => ⟨fun e => outline_eq_error_iff_of_read hread,
    fun value base span hmem => (shaped_of_read hread _ hmem).base_mem, fun t ht => ?_⟩,
    fun g h source source' a b ta tb ha hb hta htb => ?_⟩
  · apply outlines_of_forall₂
    rw [List.flatMap_singleton]
    exact outline_lines (shaped_of_read hread) ht
  · rw [same_iff]
    constructor
    · rintro rfl
      exact bare_eq_of_outline (shaped_of_read ha) (shaped_of_read hb) hta htb
    · intro hbare
      rw [← outline_bare, hbare, outline_bare] at hta
      exact Except.ok.inj (hta.symm.trans htb)

/-- A sum with and without white space around its operator. -/
theorem outline_exact_sum : ∃ n m t, expression.read "a+b".toList = .ok n ∧
    expression.read "a + b".toList = .ok m ∧ n.outline = .ok t ∧ m.outline = .ok t ∧
      Text.pieces '\n' t = ["BinaryOp +".toList, "    Identifier a".toList,
        "    Identifier b".toList] := by
  have hkept : Segment.Kept "a+b".toList := .word (Text.forall_mem_of_all (by decide))
  have hkept' : Segment.Kept "a + b".toList := .word (Text.forall_mem_of_all (by decide))
  let sum (i j : Nat) : expression.Phrase :=
    .more (.one (.value (.name ⟨0, ['a']⟩))) ⟨.add, i⟩ (.value (.name ⟨j, ['b']⟩))
  have hread : expression.initial.read 0 0 "a+b".toList = .ok (expression.final (sum 1 2)) := rfl
  have hread' : expression.initial.read 0 0 "a + b".toList = .ok (expression.final (sum 2 4)) := rfl
  let tree (p q r : Option Span) : Node :=
    .binary .add (.identifier ['a'] p) (.identifier ['b'] q) r
  obtain ⟨p, q, r, hn⟩ : ∃ p q r, expression.read "a+b".toList = .ok (tree p q r) :=
    ⟨_, _, _, read_of_kept hkept hread rfl⟩
  obtain ⟨p', q', r', hm⟩ : ∃ p q r, expression.read "a + b".toList = .ok (tree p q r) :=
    ⟨_, _, _, read_of_kept hkept' hread' rfl⟩
  have hlisting (p q r : Option Span) : (tree p q r).listing 0 = [(0, tree p q r),
      (1, .identifier ['a'] p), (1, .identifier ['b'] q)] := by
    simp [tree, listing_eq, children]
  have houtline {source : Text} {p q r : Option Span}
      (h : expression.read source = .ok (tree p q r)) : ∃ t, (tree p q r).outline = .ok t := by
    obtain ⟨herror, -⟩ := outline_exact.1 expression source _ h
    cases houtline : (tree p q r).outline with
    | error e =>
      obtain ⟨-, value, base, span, hmem, -⟩ := (herror e).1 houtline
      rw [nodes, hlisting] at hmem
      simp [tree] at hmem
    | ok t => exact ⟨t, rfl⟩
  obtain ⟨t, ht⟩ := houtline hn
  obtain ⟨t', ht'⟩ := houtline hm
  obtain rfl := (outline_exact.2 _ _ _ _ _ _ _ _ hn hm ht ht').2 rfl
  refine ⟨_, _, t, hn, hm, ht, ht', ?_⟩
  have hlines := (outline_exact.1 expression _ _ hn).2.2 t ht
  generalize Text.pieces '\n' t = lines at hlines
  have hname {c : Char} {s : Option Span} {ns : List Node} {ls : List Text}
      (h : Outlines 1 (.identifier [c] s :: ns) ls) :
      ∃ after, Outlines 1 ns after ∧ ls = ("    Identifier ".toList ++ [c]) :: after := by
    obtain _ | ⟨⟨⟩, ⟨⟩, hafter⟩ := h
    exact ⟨_, hafter, rfl⟩
  obtain _ | ⟨⟨⟩, hbelow, ⟨⟩⟩ := hlines
  obtain ⟨_, hright, rfl⟩ := hname hbelow
  obtain ⟨_, ⟨⟩, rfl⟩ := hname hright
  rfl

end Goal
end ProbeScript
