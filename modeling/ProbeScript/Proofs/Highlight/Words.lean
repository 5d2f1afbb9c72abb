import ProbeScript.Proofs.Highlight.Run
import ProbeScript.Proofs.Phrase.Letter

/-! The colours of words. The first match knows no grammar; still it takes the very word that a
terminal takes, where no comment begins, no colon comes in what is no event specification, and what
comes next does not run on. The first character rules out all the rules but those of its family. -/
namespace ProbeScript.Highlight

open Phrase

variable {terminal : Terminal} {c : Char} {t u v w : Text}

/-- What the words of a terminal are coloured as. -/
def kinds : Terminal → List Kind
  | .probeSpec => [.probeSpec]
  | .name => [.calledName, .otherName]
  | .hexadecimal => [.hexadecimal]
  | .binary => [.binary]
  | .octal => [.octal]
  | .decimal => [.decimal]
  | .string => [.string]
  | .logical | .relational | .additive | .multiplicative | .equal | .slash => [.operator]
  | .lpar | .rpar | .lbrace | .rbrace | .comma | .semicolon => [.punctuation]

/-- A parenthesis comes next, but for white space. -/
def Opens (v : Text) : Prop := (v.dropWhile Text.isSpace).head? = some '('

theorem opens_iff : Opens v ↔ ∃ gap u, v = gap ++ '(' :: u ∧ ∀ c ∈ gap, Text.isSpace c = true := by
  constructor
  · intro h
    obtain ⟨u, hu⟩ := List.head?_eq_some_iff.1 h
    refine ⟨v.takeWhile Text.isSpace, u, ?_, fun c => List.mem_takeWhile_imp⟩
    rw [← hu, List.takeWhile_append_dropWhile]
  · rintro ⟨gap, u, rfl, hgap⟩
    rw [Opens, List.dropWhile_append_of_pos hgap]
    rfl

/-- A word before the rest of a text, as it may stand in a text that is accepted. -/
structure Standing (terminal : Terminal) (w v : Text) : Prop where
  takes : terminal.Takes (w ++ v) w
  not_line : ∀ r, w ++ v ≠ '/' :: '/' :: r
  not_block : ∀ r, w ++ v ≠ '/' :: '*' :: r
  colon : ':' ∈ Terminal.probeSpec.word (w ++ v) ↔ terminal = .probeSpec
  numeral : ∀ r, terminal = .ofRadix r → ∀ c ∈ v.head?, c.isAlphanum = false
  equal : terminal = .equal → ∀ c ∈ v.head?, c ≠ '='

/-- The first character of a word belongs to one family of terminals only. -/
private theorem word_eq_nil {a b : Terminal} (ha : a.Takes t w) (hspec : a ≠ .probeSpec)
    (hspec' : b ≠ .probeSpec) (hf : a.family ≠ b.family) : b.word t = [] := by
  by_contra hne
  have hb := Terminal.takes_word hne
  obtain ⟨c, w, rfl⟩ := List.exists_cons_of_ne_nil ha.spells.ne_nil
  obtain ⟨d, x, hd⟩ := List.exists_cons_of_ne_nil hne
  obtain ⟨v, rfl⟩ := ha.isPrefix
  rw [hd] at hb
  obtain rfl := (List.cons_prefix_cons.1 hb.isPrefix).1
  exact hf ((ha.spells.familyAt hspec).symm.trans (hb.spells.familyAt hspec'))

private theorem isSpace_of_spells (h : terminal.Spells (c :: w)) : Text.isSpace c = false := by
  by_cases hs : terminal = .string
  · subst hs
    obtain ⟨inner, -, he⟩ := Terminal.spells_string h
    obtain ⟨rfl, -⟩ := List.cons.inj he
    rfl
  · have hc := h.solid hs c List.mem_cons_self
    rw [Terminal.isSolid, Bool.and_eq_true, Bool.not_eq_true'] at hc
    exact Text.isSpace_of_inAlphabet hc.1 hc.2

namespace Standing

/-- No white space and no comment begins where a word stands. -/
private theorem passes_three (h : Standing terminal w v) : Passes 3 (w ++ v) := by
  obtain ⟨c, w, rfl⟩ := List.exists_cons_of_ne_nil h.takes.spells.ne_nil
  have hnil : Passes 0 (c :: w ++ v) := by simp [Passes]
  have hspace : (c :: w ++ v).takeWhile Text.isSpace = [] := by
    rw [List.cons_append, List.takeWhile_cons, if_neg (by simp [isSpace_of_spells h.takes.spells])]
  have hline : lineCommentAt (c :: w ++ v) = [] := lineCommentAt.eq_2 _ h.not_line
  have hblock : ¬ "/*".toList.isPrefixOf (c :: w ++ v) = true := by
    rw [List.isPrefixOf_iff_prefix]
    rintro ⟨r, hr⟩
    exact h.not_block r hr.symm
  exact ((hnil.skip rfl hspace).skip rfl hline).skip rfl (if_neg hblock)

private theorem outside_string (h : Standing .string w v) : outside (w ++ v) = [(.string, w)] := by
  obtain ⟨inner, hinner, rfl⟩ := Terminal.spells_string h.takes.spells
  exact Highlight.outside_string hinner v

private theorem outside_probeSpec (h : Standing .probeSpec w v) :
    outside (w ++ v) = [(.probeSpec, w)] := by
  obtain ⟨hne, hw⟩ := Terminal.takes_iff.1 h.takes
  have hstring : Terminal.string.word (w ++ v) = [] := by
    obtain ⟨-, hall⟩ := Terminal.spells_probeSpec h.takes.spells
    obtain ⟨c, w, rfl⟩ := List.exists_cons_of_ne_nil hne
    by_contra hs
    have htakes := Terminal.takes_word hs
    obtain ⟨inner, -, hinner⟩ := Terminal.spells_string htakes.spells
    have hquote := htakes.isPrefix
    rw [hinner, List.cons_append, List.cons_append, List.cons_prefix_cons] at hquote
    cases hquote.1 ▸ hall c List.mem_cons_self
  have hword : probeSpecAt (w ++ v) = w := by
    have hcolon := h.colon.2 rfl
    rw [hw] at hcolon
    rw [probeSpecAt, hw, if_pos (by simpa using hcolon)]
  exact (h.passes_three.skip rfl hstring).outside_word rfl hword hne

private theorem passes_five (h : Standing terminal w v) (hs : terminal ≠ .string)
    (hp : terminal ≠ .probeSpec) : Passes 5 (w ++ v) := by
  have hstring : Terminal.string.word (w ++ v) = [] :=
    word_eq_nil h.takes hp (by decide) (by cases terminal <;> simp_all [Terminal.family])
  have hcolon : probeSpecAt (w ++ v) = [] := by
    rw [probeSpecAt, if_neg]
    rw [List.contains_iff_mem]
    exact fun hc => hp (h.colon.1 hc)
  exact (h.passes_three.skip rfl hstring).skip rfl hcolon

/-- Where a numeral stands no other begins but a lone zero. -/
private theorem radix_word_eq_nil {r : Radix} (h : Standing (.ofRadix r) w v) (r' : Radix)
    (hne : r ≠ r') (hr' : r' ≠ .decimal) : r'.word (w ++ v) = [] := by
  rw [← Terminal.word_ofRadix]
  by_contra hword
  have htakes := Terminal.takes_word hword
  rcases Terminal.numerals_differ hne h.takes htakes with ⟨rfl, c, z, hz, hc⟩ | ⟨hz, -⟩
  · obtain ⟨v', hv⟩ := htakes.isPrefix
    rw [hz] at hv
    obtain rfl : c :: (z ++ v') = v := (List.cons.inj hv).2
    rw [h.numeral r rfl c rfl] at hc
    cases hc
  · obtain ⟨ds, hds, hne', -⟩ := Terminal.spells_ofRadix htakes.spells
    obtain ⟨d, ds, rfl⟩ := List.exists_cons_of_ne_nil hne'
    rw [hz] at hds
    cases r' <;> cases hds
    exact hr' rfl

private theorem outside_numeral {r : Radix} (h : Standing (.ofRadix r) w v) :
    ∃ kind ∈ kinds (.ofRadix r), outside (w ++ v) = [(kind, w)] := by
  obtain ⟨hne, hw⟩ := Terminal.takes_iff.1 h.takes
  rw [Terminal.word_ofRadix] at hw
  have hfive : Passes 5 (w ++ v) := h.passes_five (by cases r <;> decide) (by cases r <;> decide)
  cases r with
  | hexadecimal => exact ⟨.hexadecimal, by decide, hfive.outside_word rfl hw hne⟩
  | binary =>
    have hsix := hfive.skip rfl (h.radix_word_eq_nil .hexadecimal (by decide) (by decide))
    exact ⟨.binary, by decide, hsix.outside_word rfl hw hne⟩
  | octal =>
    have hsix := hfive.skip rfl (h.radix_word_eq_nil .hexadecimal (by decide) (by decide))
    have hseven := hsix.skip rfl (h.radix_word_eq_nil .binary (by decide) (by decide))
    exact ⟨.octal, by decide, hseven.outside_word rfl hw hne⟩
  | decimal =>
    have hsix := hfive.skip rfl (h.radix_word_eq_nil .hexadecimal (by decide) (by decide))
    have hseven := hsix.skip rfl (h.radix_word_eq_nil .binary (by decide) (by decide))
    have height := hseven.skip rfl (h.radix_word_eq_nil .octal (by decide) (by decide))
    have hdigits : (w ++ v).takeWhile Char.isDigit = w := by
      obtain ⟨ds, hds, -, hall, -⟩ := Terminal.spells_ofRadix h.takes.spells
      obtain rfl : w = ds := hds
      have hall : ∀ d ∈ w, d.isDigit = true := hall
      have hv : v.takeWhile Char.isDigit = [] := by
        cases v with
        | nil => rfl
        | cons c v =>
          have hc := h.numeral .decimal rfl c rfl
          rw [Char.isAlphanum, Bool.or_eq_false_iff] at hc
          rw [List.takeWhile_cons, hc.2]
          rfl
      rw [List.takeWhile_append_of_pos hall, hv, List.append_nil]
    exact ⟨.decimal, by decide, height.outside_word rfl hdigits hne⟩

/-- No numeral begins with a character that begins a word of another family. -/
private theorem passes_nine (h : Standing terminal w v) (hs : terminal ≠ .string)
    (hp : terminal ≠ .probeSpec) (hd : terminal.family ≠ .decimal) : Passes 9 (w ++ v) := by
  have hradix (r : Radix) : r.word (w ++ v) = [] := by
    rw [← Terminal.word_ofRadix]
    exact word_eq_nil h.takes hp (by cases r <;> decide) (by cases r <;> exact hd)
  have hdigits : (w ++ v).takeWhile Char.isDigit = [] := by
    obtain ⟨c, w, rfl⟩ := List.exists_cons_of_ne_nil h.takes.spells.ne_nil
    rw [List.cons_append, List.takeWhile_cons, if_neg]
    intro hc
    have hfamily : Terminal.familyAt c = .decimal := by simp [Terminal.familyAt, hc]
    exact hd ((h.takes.spells.familyAt hp).symm.trans hfamily)
  exact ((((h.passes_five hs hp).skip rfl (hradix .hexadecimal)).skip rfl (hradix .binary)).skip rfl
    (hradix .octal)).skip rfl hdigits

/-- A name is coloured as called if a parenthesis comes next, and the white space before it then
goes with the name. -/
private theorem outside_name (h : Standing .name w v) : Opens v ∧
      outside (w ++ v) = (.calledName, w) :: piece .whitespace (v.takeWhile Text.isSpace) ∨
    ¬ Opens v ∧ outside (w ++ v) = [(.otherName, w)] := by
  obtain ⟨hne, hw⟩ := Terminal.takes_iff.1 h.takes
  have hnine : Passes 9 (w ++ v) := h.passes_nine (by decide) (by decide) (by decide)
  have hrest : (w ++ v).drop (w.length + (v.takeWhile Text.isSpace).length) =
      v.dropWhile Text.isSpace := by
    have hv := List.takeWhile_append_dropWhile (p := Text.isSpace) (l := v)
    rw [← List.drop_drop, List.drop_left]
    conv => lhs; rhs; rw [← hv]
    exact List.drop_left
  by_cases hv : Opens v
  · have hrule : functionAt (w ++ v) =
        (.calledName, w) :: piece .whitespace (v.takeWhile Text.isSpace) := by
      rw [functionAt, hw, List.drop_left]
      rw [hrest, if_pos (beq_iff_eq.2 hv), piece_eq _ hne, if_neg (by simpa using hne)]
      rfl
    exact .inl ⟨hv, (hnine.outside_eq rfl (hrule ▸ List.cons_ne_nil _ _)).trans hrule⟩
  · have hrule : functionAt (w ++ v) = [] := by
      rw [functionAt, hw, List.drop_left]
      rw [hrest, if_neg fun hp => hv (beq_iff_eq.1 hp)]
    exact .inr ⟨hv, (hnine.succ rfl hrule).outside_word rfl hw hne⟩

private theorem passes_eleven (h : Standing terminal w v) (hs : terminal ≠ .string)
    (hp : terminal ≠ .probeSpec) (hd : terminal.family ≠ .decimal) (hn : terminal ≠ .name) :
    Passes 11 (w ++ v) := by
  have hname : Terminal.name.word (w ++ v) = [] :=
    word_eq_nil h.takes hp (by decide) (by cases terminal <;> simp_all [Terminal.family])
  have hcall : functionAt (w ++ v) = [] := by
    rw [functionAt, hname]
    split <;> rfl
  exact ((h.passes_nine hs hp hd).succ rfl hcall).skip rfl hname

private theorem operatorAt_symbol {op : Operator}
    (h : ∀ c ∈ v.head?, (Terminal.ofOperator op).goesOn op.symbol c = false) :
    operatorAt (op.symbol ++ v) = op.symbol := by
  cases op
  case gt | lt =>
    cases v with
    | nil => rfl
    | cons c v =>
      have hc : c ≠ '=' := by simpa [Terminal.ofOperator, Terminal.goesOn, Operator.symbol] using h
      have he : ('=' == c) = false := by simpa using hc.symm
      simp [operatorAt, Operator.all, List.find?, Operator.symbol, List.isPrefixOf, he]
  all_goals rfl

private theorem outside_operator (h : Standing terminal w v)
    (hmem : Kind.operator ∈ kinds terminal) : outside (w ++ v) = [(.operator, w)] := by
  have hcases : (∃ op, terminal = .ofOperator op) ∨ terminal = .slash ∨ terminal = .equal := by
    cases terminal
    case logical => exact .inl ⟨.and, rfl⟩
    case relational => exact .inl ⟨.eq, rfl⟩
    case additive => exact .inl ⟨.add, rfl⟩
    case multiplicative => exact .inl ⟨.divide, rfl⟩
    all_goals simp_all [kinds]
  have hword : operatorAt (w ++ v) = w := by
    obtain ⟨hspells, hstop⟩ := Terminal.takes_append_iff.1 h.takes
    rcases hcases with ⟨op, rfl⟩ | rfl | rfl
    · obtain ⟨op', hop, rfl⟩ := Terminal.spells_ofOperator hspells
      exact operatorAt_symbol (hop ▸ hstop)
    · obtain rfl := Terminal.spells_punctuation rfl hspells
      rfl
    · obtain rfl := Terminal.spells_punctuation rfl hspells
      have hv := h.equal rfl
      cases v with
      | nil => rfl
      | cons c v =>
        have he : ('=' == c) = false := by simpa using (hv c rfl).symm
        simp [operatorAt, Operator.all, List.find?, Operator.symbol, List.isPrefixOf, he,
          Terminal.word, Terminal.mark]
  have heleven : Passes 11 (w ++ v) := by
    refine h.passes_eleven ?_ ?_ ?_ ?_ <;> rcases hcases with ⟨op, rfl⟩ | rfl | rfl
    all_goals first | decide | cases op <;> decide
  exact heleven.outside_word rfl hword h.takes.spells.ne_nil

private theorem outside_punctuation (h : Standing terminal w v)
    (hmem : Kind.punctuation ∈ kinds terminal) : outside (w ++ v) = [(.punctuation, w)] := by
  have hop : operatorAt (w ++ v) = [] := by
    have hfamily : terminal ≠ .probeSpec ∧ terminal.family ≠ .relational ∧
        ∀ op, terminal.family ≠ (Terminal.ofOperator op).family := by
      cases terminal <;> simp [kinds] at hmem
      all_goals exact ⟨by decide, by decide, fun op => by cases op <;> decide⟩
    obtain ⟨hspec, hequal, hop⟩ := hfamily
    have hnone : Operator.all.find? (·.symbol.isPrefixOf (w ++ v)) = none := by
      rw [List.find?_eq_none]
      intro op _ hp
      obtain ⟨r, hr⟩ := List.isPrefixOf_iff_prefix.1 hp
      have hword := word_eq_nil h.takes hspec (by cases op <;> decide) (hop op)
      rw [← hr] at hword
      exact Terminal.Spells.word_ne_nil (.symbol op) r hword
    rw [operatorAt, hnone]
    exact word_eq_nil h.takes hspec (by decide) hequal
  have hmark : oneOf "()\x7b\x7d,;".toList (w ++ v) = w := by
    have hspells := h.takes.spells
    cases terminal <;> simp [kinds] at hmem
    all_goals
      obtain rfl := Terminal.spells_punctuation rfl hspells
      rfl
  have heleven : Passes 11 (w ++ v) := by
    refine h.passes_eleven ?_ ?_ ?_ ?_ <;> cases terminal <;> simp_all [kinds, Terminal.family]
  exact (heleven.skip rfl hop).outside_word rfl hmark h.takes.spells.ne_nil

private theorem exists_kind (h : Standing terminal w v) (hname : terminal ≠ .name) :
    ∃ kind ∈ kinds terminal, outside (w ++ v) = [(kind, w)] := by
  cases terminal
  case name => exact absurd rfl hname
  case string => exact ⟨.string, by decide, h.outside_string⟩
  case probeSpec => exact ⟨.probeSpec, by decide, h.outside_probeSpec⟩
  case hexadecimal => exact h.outside_numeral (r := .hexadecimal)
  case binary => exact h.outside_numeral (r := .binary)
  case octal => exact h.outside_numeral (r := .octal)
  case decimal => exact h.outside_numeral (r := .decimal)
  case logical | relational | additive | multiplicative | equal | slash =>
    exact ⟨.operator, by decide, h.outside_operator (by decide)⟩
  case lpar | rpar | lbrace | rbrace | comma | semicolon =>
    exact ⟨.punctuation, by decide, h.outside_punctuation (by decide)⟩

/-- The first match at a word takes the word, and after the name of a call the white space. -/
theorem exists_outside (h : Standing terminal w v) : ∃ kind ∈ kinds terminal, ∃ gap u,
    outside (w ++ v) = (kind, w) :: piece .whitespace gap ∧ v = gap ++ u ∧
      (∀ c ∈ gap, Text.isSpace c = true) ∧
        (kind = .calledName ↔ terminal = .name ∧ Opens v) := by
  by_cases hname : terminal = .name
  · subst hname
    rcases h.outside_name with ⟨hv, he⟩ | ⟨hv, he⟩
    · exact ⟨.calledName, by decide, v.takeWhile Text.isSpace, v.dropWhile Text.isSpace, he,
        List.takeWhile_append_dropWhile.symm, fun c => List.mem_takeWhile_imp, by simp [hv]⟩
    · exact ⟨.otherName, by decide, [], v, he, rfl, by simp, by simp [hv]⟩
  · obtain ⟨kind, hkind, he⟩ := h.exists_kind hname
    have hne : kind ≠ .calledName := by
      rintro rfl
      cases terminal <;> simp [kinds] at hkind
      exact hname rfl
    exact ⟨kind, hkind, [], v, he, rfl, by simp, by simp [hne, hname]⟩

end Standing

end ProbeScript.Highlight
