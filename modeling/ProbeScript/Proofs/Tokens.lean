import ProbeScript.Proofs.RoundTrip
import ProbeScript.Proofs.Tree.Alike
import ProbeScript.Proofs.Tree.Words

/-! The tree of a text keeps the tokens of the text and nothing else of it: neither where they
stand, nor what stands between them, nor how their numbers are spelled. -/
namespace ProbeScript.Goal

open Phrase Node
open Segment (Kept)

variable {g : Goal} {source : Text} {n : Node} {ts : List Token}

/-- The tokens of a text: those of its derivation, comments blanked out. -/
def HasTokens (g : Goal) (source : Text) (ts : List Token) : Prop :=
  ∃ text d, Text.blanked source = .ok text ∧ Covers text (g.tokens d) ∧ g.tokens d = ts

theorem hasTokens_iff {text : Text} {d : g.Phrase} (h : Text.blanked source = .ok text)
    (hd : Covers text (g.tokens d)) : g.HasTokens source ts ↔ ts = g.tokens d := by
  constructor
  · rintro ⟨text', d', h', hd', rfl⟩
    obtain rfl := Except.ok.inj (h.symm.trans h')
    rw [covers_unique hd hd']
  · rintro rfl
    exact ⟨text, d, h, hd, rfl⟩

/-- The words of a tree are the tokens of every derivation that has it. -/
theorem words_tree {d : g.Phrase} (h : ∀ x ∈ g.tokens d, x.Spelled)
    (hn : g.tree source d = .ok n) : n.words = (g.tokens d).map Token.canonical := by
  cases g with
  | script => exact Script.words_tree h hn
  | expression => exact Chain.words_tree h hn

/-- Tokens that are alike have a phrase with the same tree. -/
theorem exists_alike {d : g.Phrase} (h : Alike ts (g.tokens d)) (hn : g.tree source d = .ok n) :
    ∃ d' : g.Phrase, g.tokens d' = ts ∧ Forms (fun source => g.tree source) n d' := by
  cases g with
  | script => exact Script.exists_alike h hn
  | expression => exact Chain.exists_alike_tree h hn

/-- Two texts that are accepted have one row of tokens each, and their trees are the same exactly if
these rows are, but for leading zeros and the case of letters in numbers. -/
theorem same_iff_tokens (g : Goal) {a b : Text} {n m : Node} (ha : g.read a = .ok n)
    (hb : g.read b = .ok m) : ∃ ts us, (∀ xs, g.HasTokens a xs ↔ xs = ts) ∧
      (∀ xs, g.HasTokens b xs ↔ xs = us) ∧
        (n.same m = true ↔ ts.map Token.canonical = us.map Token.canonical) := by
  obtain ⟨text, d, hblanked, hcovers, htree⟩ := exists_covers_of_read ha
  obtain ⟨text', d', hblanked', hcovers', htree'⟩ := exists_covers_of_read hb
  refine ⟨g.tokens d, g.tokens d', fun _ => hasTokens_iff hblanked hcovers,
    fun _ => hasTokens_iff hblanked' hcovers', ?_⟩
  rw [same_iff]
  constructor
  · intro h
    rw [← words_tree hcovers.spelled htree, ← words_tree hcovers'.spelled htree', ← words_bare n, h,
      words_bare]
  · intro h
    have halike : Alike (g.tokens d') (g.tokens d) :=
      alike_iff.2 ⟨h.symm, hcovers'.spelled, hcovers.spelled⟩
    obtain ⟨d'', htokens, hforms⟩ := exists_alike halike htree
    -- the second text has no derivation but its own
    obtain rfl : d'' = d' := covers_unique (htokens.symm ▸ hcovers') hcovers'
    obtain ⟨k, hk, hbare⟩ := hforms b
    obtain rfl : k = m := Except.ok.inj (hk.symm.trans htree')
    exact hbare.symm

/-- A number with a leading zero and in other letters, and white space around an operator. -/
theorem same_iff_tokens_hexadecimal : ∃ n m, expression.read "0x0aF-x".toList = .ok n ∧
    expression.read "0xAf - x".toList = .ok m ∧ n.same m = true := by
  have hkept : Kept "0x0aF-x".toList := .word (Text.forall_mem_of_all (by decide))
  have hkept' : Kept "0xAf - x".toList := .word (Text.forall_mem_of_all (by decide))
  let difference (numeral : Text) (i j : Nat) : expression.Phrase :=
    .more (.one (.value (.integer .hexadecimal ⟨0, numeral⟩))) ⟨.subtract, i⟩
      (.value (.name ⟨j, ['x']⟩))
  let d := difference "0x0aF".toList 5 6
  let d' := difference "0xAf".toList 5 7
  have hread : expression.initial.read 0 0 "0x0aF-x".toList = .ok (expression.final d) := rfl
  have hread' : expression.initial.read 0 0 "0xAf - x".toList = .ok (expression.final d') := rfl
  obtain ⟨n, hn⟩ : ∃ n, expression.read "0x0aF-x".toList = .ok n :=
    ⟨_, read_of_kept hkept hread rfl⟩
  obtain ⟨m, hm⟩ : ∃ m, expression.read "0xAf - x".toList = .ok m :=
    ⟨_, read_of_kept hkept' hread' rfl⟩
  obtain ⟨ts, us, hts, hus, hsame⟩ := same_iff_tokens expression hn hm
  have hd := (hts _).1 ⟨_, d, Text.blanked_of_kept hkept, read_eq_ok_iff.1 hread, rfl⟩
  have hd' := (hus _).1 ⟨_, d', Text.blanked_of_kept hkept', read_eq_ok_iff.1 hread', rfl⟩
  refine ⟨n, m, hn, hm, hsame.2 ?_⟩
  rw [← hd, ← hd']
  rfl

end ProbeScript.Goal
