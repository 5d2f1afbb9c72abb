import ProbeScript.Proofs.Highlight.Comments
import ProbeScript.Proofs.Highlight.Words
import ProbeScript.Proofs.Phrase.Follow

/-! Colouring and reading side by side. Of a text that is accepted the first matches come, one after
the other, to white space, to a comment, or to the very next token of the phrase. -/
namespace ProbeScript

namespace Highlight
open Phrase Segment

variable {i j : Nat} {t u v w source text : Text} {ss : List Segment} {ts : List Phrase.Token}
  {p q : Partial} {y : Phrase.Token}

private theorem goesOn_slash (terminal : Terminal) (w : Text) : terminal.goesOn w '/' = false := by
  cases terminal
  case relational => exact Bool.and_false _
  all_goals rfl

/-- Where a word ends in a blanked text it ends in the text. -/
private theorem takes_of_blanked {terminal : Terminal} {vs : List Segment} (hrow : Row v vs [])
    (h : terminal.Takes (w ++ vs.flatMap blanked) w) : terminal.Takes (w ++ v) w := by
  obtain ⟨hspells, hstop⟩ := Terminal.takes_append_iff.1 h
  exact Terminal.takes_append_iff.2 ⟨hspells, hrow.forall_head? (goesOn_slash terminal w) hstop⟩

/-- No comment begins where a segment of another kind does. -/
private theorem not_mark_of_row {s : Segment} (h : Row u (s :: ss) []) (hs : s.isComment = false) :
    (∀ r, u ≠ '/' :: '/' :: r) ∧ ∀ r, u ≠ '/' :: '*' :: r := by
  cases h with
  | @more c rest after _ _ _ hfirst _ =>
    revert hfirst
    fun_cases first 0 c rest with
    | case1 | case4 | case7 => intro h; cases h
    | case3 | case5 => rintro ⟨⟩; cases hs
    | case2 => simp
    | case6 c rest _ hline hblock =>
      intro _
      constructor <;> rintro r he <;> obtain ⟨rfl, rfl⟩ := List.cons.inj he
      · exact hline r rfl rfl
      · exact hblock r rfl rfl

/-- The word of an event specification is the same in a text and in the text blanked. -/
private theorem word_probeSpec_blanked (h : Row u ss []) :
    Terminal.probeSpec.word (ss.flatMap blanked) = Terminal.probeSpec.word u := by
  refine h.takeWhile_blanked rfl fun c hc => ?_
  have hstop : Terminal.probeSpec.goesOn [] c = false :=
    Terminal.goesOn_of_mem_separators (Terminal.mem_separators_of_isLayout hc)
  exact hstop

/-- A place of a text that is accepted, the tokens given that are left from there. What is left of
the text falls into segments and, comments blanked out, into the tokens, with which the reader goes
on to the end. -/
structure Meets (source : Text) (i : Nat) (ts : List Phrase.Token) : Prop where
  exists_scans : ∃ ss j, Row (source.drop i) ss [] ∧ Scans i (ss.flatMap blanked) ts j []
  exists_run : ∃ p q : Partial, p.run ts = some q
  colon : ∀ x ∈ ts, x.terminal = .probeSpec → ':' ∈ x.lexeme.text

theorem drop_of_append (h : source.drop i = w ++ v) : source.drop (i + w.length) = v := by
  rw [← List.drop_drop, h, List.drop_left]

/-- Only an event specification has a colon before anything that ends one. -/
private theorem colon_mem_iff (hrow : Row u ss []) (h : Scans i (ss.flatMap blanked) (y :: ts) j [])
    (hr : p.run (y :: ts) = some q) (hw : y.terminal.Takes u y.lexeme.text)
    (hspec : y.terminal = .probeSpec → ':' ∈ y.lexeme.text) :
    ':' ∈ Terminal.probeSpec.word u ↔ y.terminal = .probeSpec := by
  constructor
  · intro hcolon
    obtain ⟨p', hp', -⟩ := Partial.run_cons.1 hr
    have ha : p.Awaits y.terminal := Partial.awaits_of_advance hw.spells hp'
    by_contra hne
    refine Partial.colon_not_mem_of_scans h hr (fun hp => ?_) (word_probeSpec_blanked hrow ▸ hcolon)
    exact hne (Partial.awaits_probeSpec hp ha)
  · intro he
    rw [he] at hw
    rw [(Terminal.takes_iff.1 hw).2]
    exact hspec he

/-- Neither white space nor comment, nor the byte order mark at the head of the text. -/
def significant (x : Token) : Bool :=
  x.kind != .whitespace && !x.kind.isComment && x != ⟨0, .text, [Text.byteOrderMark]⟩

/-- The token is coloured as the token of the phrase may be. A name is coloured as called if a
parenthesis comes next, but for white space. -/
structure Shows (source : Text) (x : Token) (y : Phrase.Token) : Prop where
  index_eq : x.index = y.lexeme.start
  text_eq : x.text = y.lexeme.text
  kind_mem : x.kind ∈ kinds y.terminal
  called_iff : x.kind = .calledName ↔ y.terminal = .name ∧ Opens (source.drop y.lexeme.stop)

private theorem filter_placed_eq_nil {ps : Pieces}
    (h : ∀ p ∈ ps, p.1 = .whitespace ∨ p.1.isComment = true) (i : Nat) :
    (placed i ps).filter significant = [] := by
  induction ps generalizing i with
  | nil => rfl
  | cons p ps ih =>
    obtain ⟨hp, hps⟩ := List.forall_mem_cons.1 h
    rw [placed, List.filter_cons, if_neg, ih hps]
    rcases hp with hp | hp <;> simp [significant, hp]

private theorem of_mem_kinds {terminal : Terminal} {kind : Kind} (h : kind ∈ kinds terminal) :
    kind ≠ .whitespace ∧ kind.isComment = false ∧ kind ≠ .text := by
  cases terminal <;> simp [kinds] at h
  case name => rcases h with rfl | rfl <;> decide
  all_goals subst h; decide

/-- Matches take pieces at the index. The tokens of the phrase among them are coloured as such. -/
structure Strides (source : Text) (i : Nat) (ps : Pieces) (us : List Phrase.Token) : Prop where
  run : Run 0 (source.drop i) ps 0 (source.drop (i + (spelled ps).length))
  shows : List.Forall₂ (Shows source) ((placed i ps).filter significant) us

private theorem Strides.append {ps qs : Pieces} {us ws : List Phrase.Token}
    (h : Strides source i ps us) (h' : Strides source (i + (spelled ps).length) qs ws) :
    Strides source i (ps ++ qs) (us ++ ws) where
  run := by
    have hrun := h.run.append h'.run
    rwa [Nat.add_assoc, ← List.length_append, ← spelled_append] at hrun
  shows := by
    rw [placed_append, List.filter_append]
    exact List.rel_append h.shows h'.shows

namespace Meets

/-- White space of any kind is white space to the grammar. -/
theorem after_gap {gap : Text} (h : Meets source i ts) (hu : source.drop i = gap ++ v)
    (hgap : ∀ c ∈ gap, Text.isSpace c = true) : Meets source (i + gap.length) ts := by
  obtain ⟨ss, j, hrow, hscans⟩ := h.exists_scans
  have hordinary : ∀ c ∈ gap, c ≠ '/' ∧ c ≠ '"' := by
    intro c hc
    have hspace := hgap c hc
    constructor <;> rintro rfl <;> cases hspace
  rw [hu] at hrow
  obtain ⟨vs, rfl, hvs⟩ := hrow.after_ordinary hordinary
  refine ⟨⟨vs, j, (drop_of_append hu).symm ▸ hvs, ?_⟩, h.exists_run, h.colon⟩
  rw [List.flatMap_append, flatMap_blanked_map_plain] at hscans
  refine hscans.drop_layout fun c hc => ?_
  by_contra hlayout
  have halphabet : inAlphabet c = true :=
    hrow.sound (plain c) (List.mem_append_left _ (List.mem_map_of_mem hc))
  have hspace := Text.isSpace_of_inAlphabet halphabet (by simpa using hlayout)
  rw [hgap c hc] at hspace
  cases hspace

/-- Where neither white space nor a comment comes next a token stands, and as it should. -/
private theorem exists_standing {s : Segment} {c : Char} (h : Meets source i ts)
    (hrow : Row (c :: u) (s :: ss) []) (hscans : Scans i ((s :: ss).flatMap blanked) ts j [])
    (hu : source.drop i = c :: u) (hs : s.isComment = false) (hc : Text.isLayout c = false) :
    ∃ y us v, ts = y :: us ∧ y.lexeme.start = i ∧ c :: u = y.lexeme.text ++ v ∧
      Standing y.terminal y.lexeme.text v ∧ Meets source y.lexeme.stop us := by
  obtain ⟨p, q, hr⟩ := h.exists_run
  have hhead : ((s :: ss).flatMap blanked).head? = some c :=
    hrow.head?_blanked fun s' hs' => Option.some.inj hs' ▸ hs
  obtain ⟨t, ht⟩ := List.head?_eq_some_iff.1 hhead
  obtain ⟨y, us, rfl, rfl, hw, hrest⟩ := (ht ▸ hscans).exists_token hc
  obtain ⟨p', hp', hr'⟩ := Partial.run_cons.1 hr
  rw [← ht] at hw hrest
  obtain ⟨ms, vs, hss, hplain, hms, hdrop⟩ := exists_rest_of_takes hrow.sound hw
  rw [hdrop] at hrest
  rw [hss, List.flatMap_append, hms] at hw
  obtain ⟨v, hms', hvs⟩ := (hss ▸ hrow).split
  have htext := hms'.text_eq
  rw [← flatMap_blanked_of_plain hplain, hms] at htext
  have htakes := takes_of_blanked hvs hw
  have hmark := not_mark_of_row hrow hs
  have hcolon := colon_mem_iff hrow hscans hr (htext ▸ htakes) (h.colon y List.mem_cons_self)
  have hstop : source.drop y.lexeme.stop = v := drop_of_append (hu.trans htext)
  rw [htext] at hmark hcolon
  refine ⟨y, us, v, rfl, rfl, htext, ?_, ?_⟩
  · exact {
      takes := htakes
      not_line := hmark.1
      not_block := hmark.2
      colon := hcolon
      numeral := fun r he =>
        hvs.forall_head? (by decide) (Partial.not_isAlphanum_of_scans hrest hp' hr' he)
      equal := fun he =>
        hvs.forall_head? (by decide) (Partial.ne_equal_of_scans hrest hw.spells hp' hr' he) }
  · exact ⟨⟨vs, j, hstop.symm ▸ hvs, hrest⟩, ⟨p', q, hr'⟩,
      fun x hx => h.colon x (List.mem_cons_of_mem y hx)⟩

/-- A comment comes next. -/
private theorem exists_strides_of_comment {s : Segment} (h : Meets source i ts)
    (hrow : Row (source.drop i) (s :: ss) []) (hscans : Scans i ((s :: ss).flatMap blanked) ts j [])
    (hs : s.isComment = true) :
    ∃ ps, spelled ps ≠ [] ∧ Strides source i ps [] ∧
      Meets source (i + (spelled ps).length) ts := by
  generalize hu : source.drop i = u at hrow
  cases hrow with
  | @more c rest after _ _ _ hfirst hrest =>
    obtain ⟨ps, hrun, hps⟩ := exists_run_of_comment hfirst hs
    have htext : s.text = spelled ps :=
      List.append_cancel_right ((first_append hfirst).symm.trans hrun.text_eq)
    have hafter : source.drop (i + (spelled ps).length) = after :=
      drop_of_append (hu.trans hrun.text_eq)
    have hne : spelled ps ≠ [] := by
      intro hnil
      have hlen := first_length hfirst
      rw [hrun.text_eq, hnil] at hlen
      exact lt_irrefl _ hlen
    refine ⟨ps, hne, ⟨by rwa [hu, hafter], ?_⟩, ?_⟩
    · rw [filter_placed_eq_nil fun p hp => .inr (hps p hp)]
      exact .nil
    · rw [List.flatMap_cons] at hscans
      have hdrop := hscans.drop_layout (isLayout_of_isComment hs)
      rw [blanked_length, htext] at hdrop
      exact ⟨⟨ss, j, hafter.symm ▸ hrest, hdrop⟩, h.exists_run, h.colon⟩

/-- White space comes next. -/
private theorem exists_strides_of_space {c : Char} (h : Meets source i ts)
    (hu : source.drop i = c :: u) (hc : Text.isSpace c = true) :
    ∃ ps, spelled ps ≠ [] ∧ Strides source i ps [] ∧
      Meets source (i + (spelled ps).length) ts := by
  obtain ⟨v, hv⟩ := List.takeWhile_prefix (l := c :: u) Text.isSpace
  have hgap : ∀ d ∈ (c :: u).takeWhile Text.isSpace, Text.isSpace d = true :=
    fun d => List.mem_takeWhile_imp
  have hne : (c :: u).takeWhile Text.isSpace ≠ [] := by
    rw [List.takeWhile_cons, if_pos hc]
    exact List.cons_ne_nil _ _
  have hnil : Passes 0 (c :: u) := by simp [Passes]
  have houtside := hnil.outside_word rfl rfl hne
  have hps : spelled [(Kind.whitespace, (c :: u).takeWhile Text.isSpace)] =
      (c :: u).takeWhile Text.isSpace := List.append_nil _
  have hsource := hu.trans hv.symm
  refine ⟨_, hps.symm ▸ hne, ⟨?_, ?_⟩, hps.symm ▸ h.after_gap hsource hgap⟩
  · rw [hps, drop_of_append hsource, hu]
    exact .outside (List.cons_ne_nil c u) houtside (hps.symm ▸ hv.symm) (by simp)
  · rw [filter_placed_eq_nil (List.forall_mem_singleton.2 (.inl rfl))]
    exact .nil

/-- A token comes next. -/
private theorem exists_strides_of_standing (h : Meets source y.lexeme.stop ts)
    (hu : source.drop y.lexeme.start = y.lexeme.text ++ v)
    (hstanding : Standing y.terminal y.lexeme.text v) :
    ∃ ps, spelled ps ≠ [] ∧ Strides source y.lexeme.start ps [y] ∧
      Meets source (y.lexeme.start + (spelled ps).length) ts := by
  obtain ⟨kind, hkind, gap, u, houtside, rfl, hgap, hcalled⟩ := hstanding.exists_outside
  obtain ⟨hspace, hcomment, htext⟩ := of_mem_kinds hkind
  have hstop : source.drop y.lexeme.stop = gap ++ u := drop_of_append hu
  have hne : y.lexeme.text ++ (gap ++ u) ≠ [] :=
    List.append_ne_nil_of_left_ne_nil hstanding.takes.spells.ne_nil _
  have hps : spelled ((kind, y.lexeme.text) :: piece .whitespace gap) = y.lexeme.text ++ gap := by
    rw [spelled_cons, spelled_piece]
  have hspelled : y.lexeme.text ++ (gap ++ u) =
      spelled ((kind, y.lexeme.text) :: piece .whitespace gap) ++ u := by
    rw [hps, List.append_assoc]
  have hrest : Meets source (y.lexeme.start + (y.lexeme.text ++ gap).length) ts := by
    rw [List.length_append, ← Nat.add_assoc]
    exact h.after_gap hstop hgap
  refine ⟨_, ?_, ⟨?_, ?_⟩, hps.symm ▸ hrest⟩
  · rw [hps]
    exact List.append_ne_nil_of_left_ne_nil hstanding.takes.spells.ne_nil _
  · rw [drop_of_append (hu.trans hspelled), hu]
    refine .outside hne houtside hspelled (List.forall_mem_cons.2 ⟨?_, fun p hp => ?_⟩)
    · rintro rfl
      cases hcomment
    · rw [mem_piece p hp]
      decide
  · have hfilter : (placed y.lexeme.start ((kind, y.lexeme.text) :: piece .whitespace gap)).filter
        significant = [⟨y.lexeme.start, kind, y.lexeme.text⟩] := by
      rw [placed, List.filter_cons, if_pos,
        filter_placed_eq_nil fun p hp => .inl (mem_piece p hp)]
      simp [significant, hspace, hcomment, htext]
    rw [hfilter]
    exact .cons ⟨rfl, rfl, hkind, hstop ▸ hcalled⟩ .nil

/-- From the index on matches come to white space, to a comment or to a token. -/
private theorem exists_strides (h : Meets source i ts) (hne : source.drop i ≠ []) :
    ∃ ps us ws, ts = us ++ ws ∧ spelled ps ≠ [] ∧ Strides source i ps us ∧
      Meets source (i + (spelled ps).length) ws := by
  obtain ⟨ss, j, hrow, hscans⟩ := h.exists_scans
  obtain ⟨c, u, hu⟩ := List.exists_cons_of_ne_nil hne
  by_cases hc : Text.isSpace c = true
  · obtain ⟨ps, hps⟩ := h.exists_strides_of_space hu hc
    exact ⟨ps, [], ts, rfl, hps⟩
  · cases ss with
    | nil =>
      rw [hu] at hrow
      cases hrow
    | cons s ss =>
      by_cases hs : s.isComment = true
      · obtain ⟨ps, hps⟩ := h.exists_strides_of_comment hrow hscans hs
        exact ⟨ps, [], ts, rfl, hps⟩
      · rw [Bool.not_eq_true] at hs
        have hlayout : Text.isLayout c = false :=
          Bool.eq_false_iff.2 fun hl => hc (Text.isSpace_of_isLayout hl)
        rw [hu] at hrow
        obtain ⟨y, us, v, rfl, rfl, htext, hstanding, hmeets⟩ :=
          h.exists_standing hrow hscans hu hs hlayout
        obtain ⟨ps, hps⟩ := hmeets.exists_strides_of_standing (hu.trans htext) hstanding
        exact ⟨ps, [y], us, rfl, hps⟩

/-- Matches come to the end of the text. -/
private theorem exists_strides_to_end (h : Meets source i ts) :
    ∃ ps, Strides source i ps ts ∧ source.drop (i + (spelled ps).length) = [] := by
  generalize hn : (source.drop i).length = n
  induction n using Nat.strong_induction_on generalizing i ts with
  | _ n ih =>
    by_cases hend : source.drop i = []
    · obtain ⟨ss, j, hrow, hscans⟩ := h.exists_scans
      rw [hend] at hrow
      cases hrow
      obtain rfl := hscans.tokens_eq_nil
      exact ⟨[], ⟨.done 0 _, .nil⟩, hend⟩
    · obtain ⟨ps, us, ws, rfl, hne, hstrides, hrest⟩ := h.exists_strides hend
      have hlt : (source.drop (i + (spelled ps).length)).length < n := by
        have hpos := List.length_pos_iff.2 hne
        have hpos' := List.length_pos_iff.2 hend
        rw [List.length_drop] at hn hpos' ⊢
        omega
      obtain ⟨qs, hstrides', hend'⟩ := ih _ hlt hrest rfl
      refine ⟨ps ++ qs, hstrides.append hstrides', ?_⟩
      rwa [spelled_append, List.length_append, ← Nat.add_assoc]

end Meets

/-- The tokens of a text that is accepted are met at its beginning, or after a byte order mark. -/
theorem exists_meets (h : Text.blanked source = .ok text) (hts : Covers text ts)
    (hr : p.run ts = some q) (hspec : ∀ x ∈ ts, x.terminal = .probeSpec → ':' ∈ x.lexeme.text) :
    ∃ ps, Strides source 0 ps [] ∧ Meets source (0 + (spelled ps).length) ts := by
  obtain ⟨ss, hrow, rfl⟩ := Text.blanked_eq_ok_iff.1 h
  rcases Text.marked_or_unmarked source with ⟨rest, rfl⟩ | hsource
  · obtain ⟨us, rfl, hus⟩ := Row.after_ordinary (w := [' ']) hrow (by simp)
    have hfirst : Run 0 (Text.byteOrderMark :: rest) [(.text, [Text.byteOrderMark])] 0 rest :=
      .outside (List.cons_ne_nil _ _) (outside_byteOrderMark rest) rfl (by simp)
    have hscans : Scans (0 + 1) (us.flatMap blanked) ts _ [] := hts.of_layout rfl
    exact ⟨_, ⟨hfirst, .nil⟩, ⟨us, _, hus, hscans⟩, ⟨p, q, hr⟩, hspec⟩
  · exact ⟨[], ⟨.done 0 _, .nil⟩, ⟨ss, _, hsource ▸ hrow, hts⟩, ⟨p, q, hr⟩, hspec⟩

/-- A text that is accepted is coloured token by token. -/
theorem forall₂_shows (h : Text.blanked source = .ok text) (hts : Covers text ts)
    (hr : p.run ts = some q) (hspec : ∀ x ∈ ts, x.terminal = .probeSpec → ':' ∈ x.lexeme.text) :
    List.Forall₂ (Shows source) ((tokens source).filter significant) ts := by
  obtain ⟨ps, hstrides, hmeets⟩ := exists_meets h hts hr hspec
  obtain ⟨qs, hstrides', hend⟩ := hmeets.exists_strides_to_end
  have hall := hstrides.append hstrides'
  have hrun := hall.run
  rw [List.drop_zero, spelled_append, List.length_append, ← Nat.add_assoc, hend] at hrun
  rw [tokens_of_run hrun]
  exact hall.shows

end Highlight
end ProbeScript
