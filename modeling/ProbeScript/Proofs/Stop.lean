import ProbeScript.Proofs.Acceptance
import ProbeScript.Proofs.Ending
import ProbeScript.Proofs.Phrase.Boundary

/-! Where reading stops. The text before the place can be gone on with, the terminals named are
those that can come next, and a character that stops the reader is no white space and stands neither
in a comment nor inside a string. -/
namespace ProbeScript

open Phrase

namespace Goal
variable {g : Goal} {source text : Text} {i : Nat} {p : Partial}

/-- The derivation covers the text, a line feed and the other text after it. -/
def Extends (g : Goal) (before after : Text) (d : g.Phrase) : Prop :=
  ∃ text, Text.blanked (before ++ '\n' :: after) = .ok text ∧ Covers text (g.tokens d)

/-- Some text after a line feed makes up a derivation with the text before it, and its first token
is of the terminal. -/
def Continues (g : Goal) (before : Text) (terminal : Terminal) : Prop :=
  ∃ after d ts x us, g.Extends before after d ∧ g.tokens d = ts ++ x :: us ∧
    x.terminal = terminal ∧ (∀ y ∈ ts, y.lexeme.stop ≤ before.length) ∧
      before.length < x.lexeme.start

theorem Stops.exists_scans (h : g.Stops text i p) : ∃ ts, g.initial.run ts = some p ∧
    Scans 0 text ts i (text.drop i) ∧ ∀ w, Scans 0 (text.take i ++ '\n' :: w) ts i ('\n' :: w) := by
  obtain ⟨ls, hreads⟩ := h.exists_reads
  obtain ⟨ts, hscans, hrun, -⟩ := hreads.exists_scans
  obtain ⟨s, hs, hi, hrest⟩ := hscans.exists_read
  have htake : s = text.take i := by
    have hlen : i = s.length := by omega
    rw [hs, hlen, List.take_left']
    rfl
  exact ⟨ts, hrun, hscans, fun w => htake ▸ hrest _ (.inr fun c hc => by
    obtain rfl := Option.some.inj hc
    decide)⟩

theorem Stops.le (h : g.Stops text i p) : i ≤ text.length := by
  obtain ⟨ls, hreads⟩ := h.exists_reads
  have hlen := hreads.length_eq
  omega

private theorem Stops.length_take (h : g.Stops text i p) (hb : Text.blanked source = .ok text) :
    (source.take i).length = i := by
  rw [List.length_take, ← Text.blanked_length hb]
  exact Nat.min_eq_left h.le

/-- The place is between two segments, and no comment comes next unless it is at the end. -/
theorem Stops.boundary {ss : List Segment} (h : g.Stops (ss.flatMap Segment.blanked) i p)
    (hss : ∀ s ∈ ss, s.Sound) : ∃ us vs, ss = us ++ vs ∧ i = (us.flatMap Segment.text).length ∧
      (vs = [] ∨ ∃ s ws c, vs = s :: ws ∧ s.isComment = false ∧ s.blanked.head? = some c ∧
        Text.isLayout c = false) := by
  obtain ⟨ts, -, hscans, -⟩ := h.exists_scans
  rcases h.ending with ⟨hi, -⟩ | ⟨c, hc, hlayout, -⟩
  · rw [Text.flatMap_blanked_length] at hi
    exact ⟨ss, [], (List.append_nil ss).symm, hi, .inl rfl⟩
  · obtain ⟨v, hv⟩ := List.head?_eq_some_iff.1 hc
    rw [hv] at hscans
    obtain ⟨us, s, vs, rfl, hcomment, hi, hs⟩ := boundary_of_scans hscans hss hlayout
    exact ⟨us, s :: vs, rfl, hi, .inr ⟨s, vs, c, rfl, hcomment, hs, hlayout⟩⟩

/-- What has been read of a text is read again when a line feed and a completion come after it. -/
private theorem Stops.covers (h : g.Stops text i p) {terminals : List Terminal} {q : Partial}
    (hq : p.run (Terminal.sampleTokens (i + 1) terminals) = some q) (hcomplete : q.Complete) :
    ∃ d, q = g.final d ∧
      Covers (text.take i ++ '\n' :: Terminal.sampleText terminals) (g.tokens d) := by
  obtain ⟨ts, hrun, hscans, hcut⟩ := h.exists_scans
  have hspelled := Terminal.spelled_sampleTokens (i + 1) terminals
  have hgoal : q.goal = g := by
    rw [Partial.run_goal hspelled hq, Partial.run_goal hscans.spelled hrun, Partial.goal_initial]
  obtain ⟨d, hd⟩ : ∃ d, g.finish q = some d := hgoal ▸ hcomplete.finish
  obtain rfl := finish_eq_some_iff.1 hd
  have hall := (hcut (Terminal.sampleText terminals)).append
    (.layout rfl (Terminal.scans_sampleText (i + 1) terminals))
  have hlen := hall.length_eq
  have hcovers := Partial.run_scans (g.initial_tokens ▸ Scans.done 0 _) hall
    (Partial.run_trans hrun hq)
  rw [tokens_final] at hcovers
  refine ⟨d, rfl, ?_⟩
  rw [Covers]
  convert hcovers using 1
  simpa using hlen

/-- Of the text before the place the same is left when a line feed comes there. -/
private theorem Stops.blanked_iff (h : g.Stops text i p) (hb : Text.blanked source = .ok text)
    {w u : Text} : Text.blanked (source.take i ++ '\n' :: w) = .ok u ↔
      ∃ us, Segment.Row w us [] ∧ u = text.take i ++ '\n' :: us.flatMap Segment.blanked := by
  obtain ⟨ss, hrow, rfl⟩ := Text.blanked_eq_ok_iff.1 hb
  obtain ⟨us, vs, rfl, rfl, -⟩ := h.boundary hrow.sound
  rw [Text.blanked_cut hrow, List.flatMap_append, ← Text.flatMap_blanked_length, List.take_left]

private theorem Stops.blanked_sampleText (h : g.Stops text i p)
    (hb : Text.blanked source = .ok text) (terminals : List Terminal) :
    Text.blanked (source.take i ++ '\n' :: Terminal.sampleText terminals) =
      .ok (text.take i ++ '\n' :: Terminal.sampleText terminals) := by
  obtain ⟨us, hus, hcomment⟩ := Terminal.kept_sampleText terminals []
  rw [List.append_nil] at hus
  refine (h.blanked_iff hb).2 ⟨us, hus, ?_⟩
  rw [Segment.flatMap_blanked_of_plain hcomment, hus.text_eq, List.append_nil]

private theorem Stops.exists_extends (h : g.Stops text i p) (hb : Text.blanked source = .ok text) :
    ∃ after d, g.Extends (source.take i) after d := by
  obtain ⟨q, hq, hcomplete⟩ := p.ends (i + 1)
  obtain ⟨d, -, hd⟩ := h.covers hq hcomplete
  exact ⟨_, d, _, h.blanked_sampleText hb _, hd⟩

/-- The tokens of the phrase end before the place. -/
private theorem Stops.lexeme_stop (h : g.Stops text i p) :
    ∀ l ∈ p.tokens.map Token.lexeme, l.stop ≤ i := by
  obtain ⟨ts, hrun, hscans, -⟩ := h.exists_scans
  rw [Partial.run_lexemes hscans.spelled hrun, initial_tokens, List.map_nil, List.nil_append]
  intro l hl
  obtain ⟨x, hx, rfl⟩ := List.mem_map.1 hl
  exact (hscans.start_bounds x hx).2

/-- What is waited for can come next. -/
private theorem Stops.continues (h : g.Stops text i p) (hb : Text.blanked source = .ok text)
    {terminal : Terminal} (ha : p.Awaits terminal) : g.Continues (source.take i) terminal := by
  obtain ⟨terminals, q, hq, hcomplete, hx⟩ := Partial.exists_endsAfter ha (i + 1)
  obtain ⟨d, rfl, hd⟩ := h.covers hq hcomplete
  have hlexemes := Partial.run_lexemes (Terminal.spelled_sampleTokens _ _) hq
  rw [tokens_final] at hx hlexemes
  have hlen := h.length_take hb
  obtain ⟨hk, hx⟩ := List.getElem?_eq_some_iff.1 hx
  refine ⟨_, d, (g.tokens d).take p.tokens.length, ⟨terminal, i + 1, terminal.sample⟩,
    (g.tokens d).drop (p.tokens.length + 1), ⟨_, h.blanked_sampleText hb _, hd⟩, ?_, rfl, ?_, ?_⟩
  · rw [← hx, List.getElem_cons_drop, List.take_append_drop]
  · intro y hy
    rw [hlen]
    refine h.lexeme_stop _ ?_
    have hmap := congrArg (List.take p.tokens.length) hlexemes
    rw [List.take_left' (by simp), ← List.map_take] at hmap
    rw [← hmap]
    exact List.mem_map_of_mem hy
  · rw [hlen]
    exact Nat.lt_succ_self i

private theorem lt_stop_of_reads {q : Partial} {j : Nat} {t u : Text} {ls : List Lexeme}
    (h : Partial.Reads p i t ls q j u) : ∀ l ∈ ls, i < l.stop := by
  obtain ⟨ts, hscans, -, rfl⟩ := h.exists_scans
  intro l hl
  obtain ⟨x, hx, rfl⟩ := List.mem_map.1 hl
  have hle := (hscans.start_bounds x hx).1
  have hpos := List.length_pos_iff.2 (hscans.spelled x hx).ne_nil
  rw [Lexeme.stop]
  omega

/-- What can come next is waited for. -/
private theorem Stops.awaits (h : g.Stops text i p) (hb : Text.blanked source = .ok text)
    {terminal : Terminal} (hc : g.Continues (source.take i) terminal) : p.Awaits terminal := by
  obtain ⟨after, d, ts, x, us, ⟨u, hu, hd⟩, htokens, rfl, hstop, hstart⟩ := hc
  have hlen := h.length_take hb
  rw [hlen] at hstop hstart
  obtain ⟨ws, -, rfl⟩ := (h.blanked_iff hb).1 hu
  obtain ⟨ts₀, hrun₀, -, hcut⟩ := h.exists_scans
  have hscans₀ := hcut (ws.flatMap Segment.blanked)
  have hreads₀ := Partial.reads_of_scans hscans₀ hrun₀ fun c hc hc' => by
    obtain rfl := Option.some.inj hc
    cases hc'
  -- the reader goes through the whole derivation, so it comes by the place with the same words
  have hend : (g.final d).Fits [] := fun c hc => by cases hc
  have hrun := run_tokens hd.spelled
  have hreads := Partial.reads_of_scans hd hrun hend
  rw [htokens] at hd hrun hreads
  obtain ⟨p', hrun', hx⟩ := Partial.run_append.1 hrun
  obtain ⟨j, v, hscans', hrest⟩ := hd.split
  have hreads' := Partial.reads_of_scans hscans' hrun' (.of_scans hrest hx hend)
  have hlen₀ := hscans₀.length_eq
  obtain ⟨ls, hls, hreads''⟩ := hreads₀.comparable hreads (by omega)
  have hsame : ts.map Token.lexeme = ts₀.map Token.lexeme := by
    rw [List.map_append] at hls
    have hbefore : ∀ l ∈ ts.map Token.lexeme, decide (l.stop ≤ i) = true :=
      List.forall_mem_map.2 fun y hy => decide_eq_true (hstop y hy)
    refine (append_inj_of_stop hls hbefore ?_ ?_ ?_).1
    · exact List.forall_mem_map.2 fun y hy => decide_eq_true (hscans₀.start_bounds y hy).2
    · intro l hl
      obtain rfl := Option.some.inj hl
      exact decide_eq_false (Nat.not_le.2 (Nat.lt_of_lt_of_le hstart (Nat.le_add_right _ _)))
    · intro l hl
      exact decide_eq_false (Nat.not_le.2
        (lt_stop_of_reads hreads'' l (List.mem_of_mem_head? hl)))
  obtain rfl := Partial.Reads.phrase_unique hreads₀ (hsame ▸ hreads')
  obtain ⟨q, hq, -⟩ := Partial.run_cons.1 hx
  exact Partial.awaits_of_advance (hrest.spelled x List.mem_cons_self) hq

private theorem eq_of_unmarked {c c' : Char} (hc : source[i]? = some c)
    (hc' : (Segment.unmarked source)[i]? = some c') (hlayout : Text.isLayout c' = false) :
    c = c' := by
  rw [Text.getElem?_unmarked, hc, Option.map_some, Option.some_inj] at hc'
  split at hc'
  case isTrue =>
    rw [← hc'] at hlayout
    cases hlayout
  case isFalse => exact hc'

/-- A character that stops the reader is the first of a segment that is no comment. -/
private theorem Stops.not_isSpace (h : g.Stops text i p) (hb : Text.blanked source = .ok text)
    {c : Char} (hc : source[i]? = some c) : Text.isSpace c = false ∧
      ∃ us s vs, Segment.ofText source = .ok (us ++ s :: vs) ∧ s.isComment = false ∧
        i = (us.flatMap Segment.text).length := by
  obtain ⟨ss, hrow, rfl⟩ := Text.blanked_eq_ok_iff.1 hb
  obtain ⟨us, vs, rfl, hi, rfl | ⟨s, ws, c', rfl, hcomment, hhead, hlayout⟩⟩ :=
    h.boundary hrow.sound
  · have hlen := congrArg List.length hrow.text_eq
    rw [List.append_nil, List.append_nil, ← hi, Text.unmarked_length] at hlen
    rw [← hlen, List.getElem?_eq_none le_rfl] at hc
    cases hc
  · refine ⟨?_, us, s, ws, Segment.split_eq_ok_iff.2 hrow, hcomment, hi⟩
    have hc' : (Segment.unmarked source)[i]? = some c' := by
      rw [Segment.blanked, if_neg (by simp [hcomment])] at hhead
      obtain ⟨rest, hrest⟩ := List.head?_eq_some_iff.1 hhead
      rw [hrow.text_eq, List.flatMap_append, List.flatMap_cons, hrest, hi]
      simp
    obtain rfl := eq_of_unmarked hc hc' hlayout
    have hs := hrow.sound s (by simp)
    cases s with
    | plain a =>
      obtain rfl := Option.some.inj hhead
      exact Text.isSpace_of_inAlphabet hs hlayout
    | string inner =>
      obtain rfl := Option.some.inj hhead
      decide
    | lineComment body | blockComment body => cases hcomment

/-- A text that has no derivation is reported at the first place where none can be had: what stands
before it is the beginning of a text that has one, the terminals named are those with which such a
text can go on, and a character there begins none of them and is no white space, no part of a
comment and not inside a string. -/
theorem stop_exact (g : Goal) {source text : Text} (h : Text.blanked source = .ok text)
    (hno : ∀ d, ¬ Covers text (g.tokens d)) :
    ∃ i rule expected, i ≤ source.length ∧
      g.read source = .error (.grammatical
        ⟨match source[i]? with
          | some c => "Unexpected ".toList ++ Text.quoted [c]
          | none => "Unexpected end of input".toList,
        .at source i, rule, expected.map Terminal.title⟩) ∧
      (∃ after d, g.Extends (source.take i) after d) ∧
      (∀ terminal, terminal ∈ expected ↔ g.Continues (source.take i) terminal) ∧
      expected ≠ [] ∧
      ∀ c, source[i]? = some c →
        (∀ terminal ∈ expected, ∀ w, ¬ terminal.Takes (text.drop i) w) ∧
        Text.isSpace c = false ∧
        ∃ us s vs, Segment.ofText source = .ok (us ++ s :: vs) ∧ s.isComment = false ∧
          i = (us.flatMap Segment.text).length := by
  obtain ⟨i, p, hstop, hread⟩ := read_of_stop h hno
  have hexpected (terminal : Terminal) :
      terminal ∈ Item.expected p.waiting ↔ p.Awaits terminal := by
    have hall : terminal ∈ Terminal.all := by cases terminal <;> decide
    simp [Item.expected, Partial.Awaits, hall]
  refine ⟨i, _, Item.expected p.waiting, ?_, hread, hstop.exists_extends h, ?_, ?_, ?_⟩
  · rw [← Text.blanked_length h]
    exact hstop.le
  · intro terminal
    rw [hexpected]
    exact ⟨hstop.continues h, hstop.awaits h⟩
  · obtain ⟨terminal, ha⟩ := p.exists_awaits
    exact List.ne_nil_of_mem ((hexpected terminal).2 ha)
  · intro c hc
    obtain ⟨hspace, hboundary⟩ := hstop.not_isSpace h hc
    refine ⟨fun terminal ht w hw => ?_, hspace, hboundary⟩
    rcases hstop.ending with ⟨hi, -⟩ | ⟨_, -, -, hnone⟩
    · rw [hi, Text.blanked_length h, List.getElem?_eq_none le_rfl] at hc
      cases hc
    · exact Partial.next?_eq_none_iff.1 hnone terminal w ((hexpected terminal).1 ht) hw

/-- A probe with an empty body: reading stops before the closing brace. -/
theorem stop_exact_empty_body : ∃ i expected, i ≤ 3 ∧ expected ≠ [] ∧
    ∀ terminal, terminal ∈ expected ↔ script.Continues ("a\x7b\x7d".toList.take i) terminal := by
  have hblanked : Text.blanked "a\x7b\x7d".toList = .ok "a\x7b\x7d".toList :=
    Text.blanked_eq_ok_iff.2 ⟨_, .more rfl (.more rfl (.more rfl (.done _))), rfl⟩
  have hno (d : script.Phrase) : ¬ Covers "a\x7b\x7d".toList (script.tokens d) := by
    intro hd
    have hread := read_eq_ok_iff.2 hd
    cases hread
  obtain ⟨i, rule, expected, hi, -, -, hcontinues, hne, -⟩ := stop_exact script hblanked hno
  exact ⟨i, expected, hi, hne, hcontinues⟩

end Goal
end ProbeScript
