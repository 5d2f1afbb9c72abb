import ProbeScript.Proofs.Stop
import ProbeScript.Proofs.Tree.Located

/-! Comments are transparent. A text and what is left of it once its comments are blanked out are
read alike: into the same tree, node for node in the same place, or with the same error. -/
namespace ProbeScript

open Phrase

/-- The messages say the same of the same line and column. The places may differ in bytes. -/
structure Diagnostic.Agrees (d d' : Diagnostic) : Prop where
  message_eq : d.message = d'.message
  line_eq : d.position.line = d'.position.line
  column_eq : d.position.column = d'.position.column
  rule_eq : d.rule = d'.rule
  expected_eq : d.expected = d'.expected

/-- Errors of one kind that say the same. -/
inductive ReadError.Agrees : ReadError → ReadError → Prop
  | lexical {d d' : Diagnostic} : d.Agrees d' → Agrees (.lexical d) (.lexical d')
  | grammatical {d d' : Diagnostic} : d.Agrees d' → Agrees (.grammatical d) (.grammatical d')
  | digits (count : Nat) : Agrees (.digits count) (.digits count)

variable {source text : Text}

/-- Whatever is said of one place in two texts with the same lines agrees. -/
private theorem Diagnostic.agrees_at (h : Text.SameLines source text) (summary : Text) (i : Nat)
    (rule : Option Text) (expected : List Text) :
    Agrees ⟨summary, .at source i, rule, expected⟩ ⟨summary, .at text i, rule, expected⟩ where
  message_eq := by simp only [message, Position.line_eq h, Position.column_eq h]
  line_eq := Position.line_eq h i
  column_eq := Position.column_eq h i
  rule_eq := rfl
  expected_eq := rfl

private theorem Diagnostic.ofStop_agrees (h : Text.SameLines source text) {i : Nat}
    (hc : source[i]? = text[i]?) (waiting : List Item) :
    (ofStop source i waiting).Agrees (ofStop text i waiting) := by
  rw [ofStop, hc]
  exact agrees_at h ..

private theorem ReadError.ofTreeFault_agrees (h : Text.SameLines source text) (fault : TreeFault) :
    (ofTreeFault source fault).Agrees (ofTreeFault text fault) := by
  cases fault with
  | digits count => exact .digits count
  | malformedSpec i spec => exact .grammatical (Diagnostic.agrees_at h ..)

/-- Nothing is read where nothing fits. -/
private theorem Phrase.Partial.Reads.eq_of_stuck {p q : Partial} {i j : Nat} {t u : Text}
    {ls : List Lexeme} (h : Reads p i t ls q j u)
    (ht : ∀ c ∈ t.head?, Text.isLayout c = false ∧ p.next? i t = none) : p = q ∧ i = j := by
  cases h with
  | done => exact ⟨rfl, rfl⟩
  | layout hc =>
    rw [(ht _ rfl).1] at hc
    cases hc
  | word _ hn =>
    rw [(ht _ rfl).2] at hn
    cases hn

namespace Goal
variable {g : Goal} {i j : Nat} {p q : Partial}

private theorem Stops.stuck (h : g.Stops text i p) :
    ∀ c ∈ (text.drop i).head?, Text.isLayout c = false ∧ p.next? i (text.drop i) = none := by
  intro c hc
  rcases h.ending with ⟨rfl, -⟩ | ⟨d, hd, hlayout, hnone⟩
  · simp at hc
  · obtain rfl := Option.mem_unique hc hd
    exact ⟨hlayout, hnone⟩

private theorem Stops.eq_of_le (h : g.Stops text i p) (h' : g.Stops text j q) (hij : i ≤ j) :
    p = q ∧ i = j := by
  obtain ⟨ls, hreads⟩ := h.exists_reads
  obtain ⟨ls', hreads'⟩ := h'.exists_reads
  obtain ⟨ls'', -, hrest⟩ := hreads.comparable hreads' hij
  exact hrest.eq_of_stuck h.stuck

/-- The reader stops in one place of a text. -/
theorem Stops.unique (h : g.Stops text i p) (h' : g.Stops text j q) : p = q ∧ i = j := by
  rcases Nat.le_total i j with hij | hji
  · exact h.eq_of_le h' hij
  · obtain ⟨rfl, rfl⟩ := h'.eq_of_le h hji
    exact ⟨rfl, rfl⟩

/-- The character before which the reader stops is no part of a comment. -/
private theorem Stops.getElem?_eq (h : g.Stops text i p) (hb : Text.blanked source = .ok text) :
    source[i]? = text[i]? := by
  have hlen := Text.blanked_length hb
  rcases h.ending with ⟨hi, -⟩ | ⟨c, hc, hlayout, -⟩
  · rw [List.getElem?_eq_none (by omega), List.getElem?_eq_none (by omega)]
  · have htext : text[i]? = some c := by rwa [List.head?_drop] at hc
    rw [htext, Text.getElem?_of_blanked hb htext (by rintro rfl; cases hlayout)]

/-- Comments are transparent: the text with its comments blanked out is not changed by blanking, and
it is read with the same outcome. -/
theorem read_blanked (g : Goal) {source text : Text} (h : Text.blanked source = .ok text) :
    Text.blanked text = .ok text ∧
      ((∃ n, g.read source = .ok n ∧ g.read text = .ok n) ∨
        ∃ e e', g.read source = .error e ∧ g.read text = .error e' ∧ e.Agrees e') := by
  have hlines := Text.SameLines.of_blanked h
  have htext := Text.blanked_blanked h
  refine ⟨htext, ?_⟩
  by_cases hd : ∃ d, Covers text (g.tokens d)
  · obtain ⟨d, hd⟩ := hd
    have htree : g.tree source d = g.tree text d := by
      cases g with
      | script => exact congrFun (Script.tree_eq hlines) d
      | expression => exact congrFun (Chain.tree_eq hlines) d
    rw [read_of_covers h hd, read_of_covers htext hd, htree]
    cases g.tree text d with
    | ok n => exact .inl ⟨n, rfl, rfl⟩
    | error fault => exact .inr ⟨_, _, rfl, rfl, ReadError.ofTreeFault_agrees hlines fault⟩
  · obtain ⟨i, p, hstop, hread⟩ := read_of_stop h (not_exists.1 hd)
    obtain ⟨j, q, hstop', hread'⟩ := read_of_stop htext (not_exists.1 hd)
    obtain ⟨rfl, rfl⟩ := hstop.unique hstop'
    refine .inr ⟨_, _, hread, hread', .grammatical ?_⟩
    exact Diagnostic.ofStop_agrees hlines (hstop.getElem?_eq h) _

/-- An argument that is missing after a comment, which takes more bytes than the spaces left of
it. -/
theorem read_blanked_call : ∃ e e', expression.read "f(/*é*/,)".toList = .error e ∧
    expression.read "f(     ,)".toList = .error e' ∧ e.Agrees e' := by
  have hrow : Segment.Row "f(/*é*/,)".toList
      [.plain 'f', .plain '(', .blockComment "/*é*/".toList, .plain ',', .plain ')'] [] :=
    .more rfl (.more rfl (.more rfl (.more rfl (.more rfl (.done [])))))
  have hblanked : Text.blanked "f(/*é*/,)".toList = .ok "f(     ,)".toList :=
    Text.blanked_eq_ok_iff.2 ⟨_, hrow, rfl⟩
  obtain ⟨htext, ⟨n, -, hn⟩ | herror⟩ := read_blanked expression hblanked
  · obtain ⟨text, d, hb, hd, -⟩ := exists_covers_of_read hn
    obtain rfl := Except.ok.inj (htext.symm.trans hb)
    cases read_eq_ok_iff.2 hd
  · exact herror

end Goal
end ProbeScript
