import Mathlib.Data.List.Forall2
import ProbeScript.Proofs.Phrase.Scan
import ProbeScript.Proofs.Text.Digits

/-! Tokens that are alike: they differ in their places and in how numbers are spelled, and in
nothing else. -/
namespace ProbeScript

/-- The word of a numeral with its significant digits alone. -/
def Radix.canonical (r : Radix) (w : Text) : Text :=
  r.marker ++ significant (w.drop r.marker.length)

namespace Phrase

/-- The word without leading zeros and with its letters in capitals if it is a numeral. -/
def Terminal.canonical : Terminal → Text → Text
  | binary, w => Radix.binary.canonical w
  | octal, w => Radix.octal.canonical w
  | decimal, w => Radix.decimal.canonical w
  | hexadecimal, w => Radix.hexadecimal.canonical w
  | _, w => w

/-- The terminal and the word, without the place. -/
def Token.canonical (t : Token) : Terminal × Text :=
  (t.terminal, t.terminal.canonical t.lexeme.text)

theorem Terminal.canonical_ofRadix (r : Radix) (w : Text) :
    (ofRadix r).canonical w = r.canonical w := by
  cases r <;> rfl

theorem Terminal.canonical_ofOperator (op : Operator) (w : Text) :
    (ofOperator op).canonical w = w := by
  cases op <;> rfl

/-- Numerals that are alike are read as the same number. -/
theorem Terminal.Spells.read_eq {r : Radix} {w w' : Text} (h : (Terminal.ofRadix r).Spells w)
    (h' : (Terminal.ofRadix r).Spells w') (he : r.canonical w = r.canonical w') :
    r.read (w.drop r.marker.length) = r.read (w'.drop r.marker.length) := by
  obtain ⟨ds, rfl, hne, hall, hzero⟩ := Terminal.spells_ofRadix h
  obtain ⟨ds', rfl, hne', hall', hzero'⟩ := Terminal.spells_ofRadix h'
  rw [Radix.canonical, Radix.canonical, List.drop_left, List.drop_left] at he
  have he := List.append_cancel_left he
  have hvalue := (Radix.significant_eq_iff hall hall').1 he
  rw [List.drop_left, List.drop_left, Radix.read, Radix.read, hvalue]
  by_cases hr : r = .decimal
  · have hlen : ds.length = ds'.length := by
      rw [Radix.length_significant hne (hzero hr), he, Radix.length_significant hne' (hzero' hr)]
    rw [hlen]
  · rw [if_neg (fun hd => hr hd.1), if_neg (fun hd => hr hd.1)]

/-- Two tokens of one terminal whose words are the same, but that a number may be spelled in
another way. -/
structure Token.Alike (x y : Token) : Prop where
  canonical_eq : x.canonical = y.canonical
  spelled : x.Spelled
  spelled' : y.Spelled

/-- Rows of tokens that are alike one by one. -/
def Alike (us ts : List Token) : Prop := List.Forall₂ Token.Alike us ts

variable {us ts ts' : List Token} {terminal : Terminal} {l l' : Lexeme}

/-- A token that is alike is of the same terminal. -/
theorem Token.Alike.exists_lexeme {x : Token} (h : x.Alike ⟨terminal, l⟩) :
    ∃ l', x = ⟨terminal, l'⟩ := by
  obtain ⟨terminal', l'⟩ := x
  obtain rfl : terminal' = terminal := congrArg Prod.fst h.canonical_eq
  exact ⟨l', rfl⟩

theorem Token.Alike.canonical_text (h : Token.Alike ⟨terminal, l⟩ ⟨terminal, l'⟩) :
    terminal.canonical l.text = terminal.canonical l'.text :=
  (Prod.mk.inj h.canonical_eq).2

theorem alike_iff : Alike us ts ↔ us.map Token.canonical = ts.map Token.canonical ∧
    (∀ x ∈ us, x.Spelled) ∧ ∀ x ∈ ts, x.Spelled := by
  constructor
  · intro h
    induction h with
    | nil => simp
    | @cons x y us ts hx _ ih =>
      obtain ⟨hmap, hus, hts⟩ := ih
      refine ⟨?_, List.forall_mem_cons.2 ⟨hx.spelled, hus⟩,
        List.forall_mem_cons.2 ⟨hx.spelled', hts⟩⟩
      rw [List.map_cons, List.map_cons, hx.canonical_eq, hmap]
  · rintro ⟨hmap, hus, hts⟩
    induction us generalizing ts with
    | nil =>
      obtain rfl := List.map_eq_nil_iff.1 hmap.symm
      exact .nil
    | cons x us ih =>
      obtain ⟨y, ts, rfl, hxy, hmap⟩ := List.map_eq_cons_iff.1 hmap.symm
      obtain ⟨hx, hus⟩ := List.forall_mem_cons.1 hus
      obtain ⟨hy, hts⟩ := List.forall_mem_cons.1 hts
      exact .cons ⟨hxy.symm, hx, hy⟩ (ih hmap.symm hus hts)

namespace Alike

theorem cons_right {y : Token} (h : Alike us (y :: ts)) :
    ∃ x us', us = x :: us' ∧ x.Alike y ∧ Alike us' ts := by
  cases h with
  | @cons x _ us' _ hx h => exact ⟨x, us', rfl, hx, h⟩

theorem mark_right (h : Alike us (⟨terminal, l⟩ :: ts)) : ∃ l' us', us = ⟨terminal, l'⟩ :: us' ∧
    terminal.canonical l'.text = terminal.canonical l.text ∧ Alike us' ts := by
  obtain ⟨x, us', rfl, hx, hts⟩ := h.cons_right
  obtain ⟨l', rfl⟩ := hx.exists_lexeme
  exact ⟨l', us', rfl, hx.canonical_text, hts⟩

theorem append {us' : List Token} (h : Alike us ts) (h' : Alike us' ts') :
    Alike (us ++ us') (ts ++ ts') :=
  List.rel_append h h'

theorem nil_right (h : Alike us []) : us = [] := by
  cases h
  rfl

theorem append_right (h : Alike us (ts ++ ts')) :
    ∃ vs vs', us = vs ++ vs' ∧ Alike vs ts ∧ Alike vs' ts' :=
  ⟨us.take ts.length, us.drop ts.length, (List.take_append_drop _ us).symm,
    List.forall₂_take_append us ts ts' h, List.forall₂_drop_append us ts ts' h⟩

end Alike
end Phrase
end ProbeScript
