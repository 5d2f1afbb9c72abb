import ProbeScript.Proofs.Goal

/-! The names that a phrase calls. They are told by the tokens alone: a name is called if a
parenthesis is the token after it, and no other name is. -/
namespace ProbeScript

namespace Phrase

/-! The names called in each kind of phrase, each with the parenthesis that opens its arguments. -/

mutual

def Operand.calls : Operand → List (Lexeme × Lexeme)
  | .value _ => []
  | .group _ inner _ => inner.calls
  | .call c => c.calls

def Chain.calls : Chain → List (Lexeme × Lexeme)
  | .one o => o.calls
  | .more init _ last => init.calls ++ last.calls

def Call.calls : Call → List (Lexeme × Lexeme)
  | .bare name lpar _ => [(name, lpar)]
  | .applied name lpar args _ => (name, lpar) :: args.calls

def Args.calls : Args → List (Lexeme × Lexeme)
  | .one a => a.calls
  | .more init _ last => init.calls ++ last.calls

def Arg.calls : Arg → List (Lexeme × Lexeme)
  | .chain c => c.calls
  | .tuple .. => []

end

def Statement.calls : Statement → List (Lexeme × Lexeme)
  | .assignment _ _ value _ => value.calls
  | .call c _ => c.calls

def Probe.calls (p : Probe) : List (Lexeme × Lexeme) :=
  p.guard.elim [] (·.predicate.calls) ++ p.statements.flatMap Statement.calls

def Script.calls (s : Script) : List (Lexeme × Lexeme) := s.probes.flatMap Probe.calls

/-- The names in a row of tokens that have a parenthesis right after them. -/
def heads : List Token → List (Lexeme × Lexeme)
  | ⟨.name, name⟩ :: ⟨.lpar, lpar⟩ :: ts => (name, lpar) :: heads ts
  | _ :: ts => heads ts
  | [] => []

variable {terminal : Terminal} {l : Lexeme} {ts us : List Token}

private theorem heads_cons (h : terminal ≠ .name) (ts : List Token) :
    heads (⟨terminal, l⟩ :: ts) = heads ts := by
  rw [heads]
  rintro name lpar us he -
  exact h (Token.mk.inj he).1

/-- Rows of tokens have their heads apart, unless the second begins with a parenthesis. -/
private theorem heads_append (h : ∀ x ∈ us.head?, x.terminal ≠ .lpar) :
    heads (ts ++ us) = heads ts ++ heads us := by
  fun_induction heads ts with
  | case1 name lpar ts ih => rw [List.cons_append, List.cons_append, heads, ih, List.cons_append]
  | case2 x ts hx ih =>
    rw [List.cons_append, heads, ih]
    rintro name lpar vs rfl hvs
    cases ts with
    | nil => exact h ⟨.lpar, lpar⟩ (by rw [← List.nil_append us, hvs]; rfl) rfl
    | cons y ts => exact hx name lpar ts rfl (by rw [(List.cons.inj hvs).1])
  | case3 => rfl

/-- A token that is neither name nor parenthesis parts what is before it from what is after it. -/
private theorem heads_between (h : terminal ≠ .lpar ∧ terminal ≠ .name) :
    heads (ts ++ ⟨terminal, l⟩ :: us) = heads ts ++ heads us := by
  rw [heads_append (by simpa using h.1), heads_cons h.2]

private theorem mem_heads_iff {name lpar : Lexeme} : (name, lpar) ∈ heads ts ↔
    ∃ pre post, ts = pre ++ ⟨.name, name⟩ :: ⟨.lpar, lpar⟩ :: post := by
  fun_induction heads ts with
  | case1 name' lpar' ts ih =>
    rw [List.mem_cons, ih]
    constructor
    · rintro (he | ⟨pre, post, rfl⟩)
      · obtain ⟨rfl, rfl⟩ := Prod.mk.inj he
        exact ⟨[], ts, rfl⟩
      · exact ⟨⟨.name, name'⟩ :: ⟨.lpar, lpar'⟩ :: pre, post, rfl⟩
    · rintro ⟨pre, post, he⟩
      match pre, he with
      | [], he =>
        cases he
        exact .inl rfl
      | [y], he => cases he
      | y :: z :: pre, he => exact .inr ⟨pre, post, (List.cons.inj (List.cons.inj he).2).2⟩
  | case2 x ts hx ih =>
    rw [ih]
    constructor
    · rintro ⟨pre, post, rfl⟩
      exact ⟨x :: pre, post, rfl⟩
    · rintro ⟨pre, post, he⟩
      cases pre with
      | nil => exact (hx _ _ _ (List.cons.inj he).1 (List.cons.inj he).2).elim
      | cons y pre => exact ⟨pre, post, (List.cons.inj he).2⟩
  | case3 => simp

private theorem Value.heads_token (v : Value) : heads [v.token] = [] := by
  rw [heads, heads]
  rintro name lpar ts - he
  cases he

private theorem Values.heads_tokens (vs : Values) : heads vs.tokens = [] := by
  induction vs with
  | one v => exact v.heads_token
  | more init comma last ih =>
    rw [Values.tokens, heads_between (by decide), ih, last.heads_token]
    rfl

mutual

private theorem Operand.heads_tokens : (o : Operand) → heads o.tokens = o.calls
  | .value v => v.heads_token
  | .group lpar inner rpar => by
    rw [Operand.tokens, List.cons_append, heads_cons (by decide),
      heads_between (by decide), inner.heads_tokens]
    exact List.append_nil _
  | .call c => c.heads_tokens

private theorem Chain.heads_tokens : (c : Chain) → heads c.tokens = c.calls
  | .one o => o.heads_tokens
  | .more init joint last => by
    rw [Chain.tokens, Joint.token, heads_between (by cases joint.op <;> decide),
      init.heads_tokens, last.heads_tokens, Chain.calls]

private theorem Call.heads_tokens : (c : Call) → heads c.tokens = c.calls
  | .bare name lpar rpar => rfl
  | .applied name lpar args rpar => by
    rw [Call.tokens, List.cons_append, List.cons_append, heads,
      heads_between (by decide), args.heads_tokens]
    exact congrArg _ (List.append_nil _)

private theorem Args.heads_tokens : (as : Args) → heads as.tokens = as.calls
  | .one a => a.heads_tokens
  | .more init comma last => by
    rw [Args.tokens, heads_between (by decide), init.heads_tokens, last.heads_tokens,
      Args.calls]

private theorem Arg.heads_tokens : (a : Arg) → heads a.tokens = a.calls
  | .chain c => c.heads_tokens
  | .tuple lpar init comma last rpar => by
    rw [Arg.tokens, List.cons_append, heads_cons (by decide),
      heads_between (by decide), init.heads_tokens,
      show [last.token, ⟨.rpar, rpar⟩] = [last.token] ++ [⟨.rpar, rpar⟩] from rfl,
      heads_between (by decide), last.heads_token]
    rfl

end

private theorem Statement.heads_tokens (s : Statement) : heads s.tokens = s.calls := by
  cases s with
  | assignment target equal value semicolon =>
    rw [Statement.tokens, List.cons_append, List.cons_append,
      show ∀ ts, (⟨.name, target⟩ :: ⟨.equal, equal⟩ :: ts : List Token) =
        [⟨.name, target⟩] ++ ⟨.equal, equal⟩ :: ts from fun _ => rfl,
      heads_between (by decide), heads_between (by decide), value.heads_tokens]
    exact List.append_nil _
  | call c semicolon =>
    rw [Statement.tokens, heads_between (by decide), c.heads_tokens]
    exact List.append_nil _

/-- Phrases that do not begin with a parenthesis, one after the other. -/
private theorem heads_flatMap {α : Type} {f : α → List Token} {as : List α}
    (h : ∀ a ∈ as, ∃ x ts, f a = x :: ts ∧ x.terminal ≠ .lpar) :
    heads (as.flatMap f) = as.flatMap fun a => heads (f a) := by
  induction as with
  | nil => rfl
  | cons a as ih =>
    obtain ⟨-, has⟩ := List.forall_mem_cons.1 h
    rw [List.flatMap_cons, List.flatMap_cons, heads_append, ih has]
    cases as with
    | nil => simp
    | cons b as =>
      obtain ⟨x, ts, hx, hlpar⟩ := has b List.mem_cons_self
      simpa [hx] using hlpar

private theorem Statement.exists_cons (s : Statement) :
    ∃ x ts, s.tokens = x :: ts ∧ x.terminal ≠ .lpar := by
  rcases s with _ | ⟨_ | _, _⟩ <;> exact ⟨_, _, rfl, by simp⟩

private theorem Guard.heads_tokens (g : Guard) : heads g.tokens = g.predicate.calls := by
  rw [Guard.tokens, List.cons_append, heads_cons (by decide), heads_between (by decide),
    g.predicate.heads_tokens]
  exact List.append_nil _

private theorem Probe.heads_tokens (p : Probe) : heads p.tokens = p.calls := by
  have hguard : heads (p.guard.elim [] Guard.tokens) = p.guard.elim [] (·.predicate.calls) := by
    cases p.guard with
    | none => rfl
    | some g => exact g.heads_tokens
  rw [Probe.tokens, heads_between (by decide), heads_between (by decide), heads_cons (by decide),
    hguard, heads_flatMap fun s _ => s.exists_cons]
  simp only [Statement.heads_tokens]
  exact List.append_nil _

private theorem Script.heads_tokens (s : Script) : heads s.tokens = s.calls := by
  rw [Script.tokens, heads_flatMap fun p _ => ⟨⟨.probeSpec, p.spec⟩, _, rfl, by simp⟩]
  simp only [Probe.heads_tokens]
  rfl

end Phrase

namespace Goal
open Phrase

def calls : (g : Goal) → g.Phrase → List (Lexeme × Lexeme)
  | script, s => Script.calls s
  | expression, c => Chain.calls c

/-- A name is called if a parenthesis is the next token. -/
theorem mem_calls_iff {g : Goal} {d : g.Phrase} {name lpar : Lexeme} :
    (name, lpar) ∈ g.calls d ↔
      ∃ pre post, g.tokens d = pre ++ ⟨.name, name⟩ :: ⟨.lpar, lpar⟩ :: post := by
  rw [← mem_heads_iff]
  cases g with
  | script => exact (Script.heads_tokens d).symm ▸ Iff.rfl
  | expression => exact (Chain.heads_tokens d).symm ▸ Iff.rfl

end Goal
end ProbeScript
