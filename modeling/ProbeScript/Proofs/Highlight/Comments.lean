import ProbeScript.Proofs.Highlight.Run
import ProbeScript.Proofs.Phrase.Letter
import ProbeScript.Proofs.Text.Blanking

/-! What is coloured as comment is what is blanked out. Segments and pieces keep step: a comment is
one segment, of one piece for each of its marks and for each stretch between them, and outside
comments no piece goes past the beginning of a string or a comment. -/
namespace ProbeScript

namespace Segment
variable {c : Char} {s : Segment} {t u w rest after body : Text} {ss : List Segment}

/-- Segments begin with a quotation mark or a slash, but for single characters. -/
private theorem first_ordinary (h : first 0 c rest = .ok (s, after)) (hc : c ≠ '/' ∧ c ≠ '"') :
    s = plain c ∧ after = rest := by
  revert h
  fun_cases first 0 c rest with
  | case1 | case2 => exact absurd rfl hc.2
  | case3 | case4 | case5 => exact absurd rfl hc.1
  | case6 =>
    rintro ⟨⟩
    exact ⟨rfl, rfl⟩
  | case7 => intro h; cases h

theorem Row.after_ordinary (h : Row (w ++ u) ss []) (hw : ∀ c ∈ w, c ≠ '/' ∧ c ≠ '"') :
    ∃ us, ss = w.map plain ++ us ∧ Row u us [] := by
  induction w generalizing ss with
  | nil => exact ⟨ss, rfl, h⟩
  | cons c w ih =>
    obtain ⟨hc, hw⟩ := List.forall_mem_cons.1 hw
    cases h with
    | more hfirst hrest =>
      obtain ⟨rfl, rfl⟩ := first_ordinary hfirst hc
      obtain ⟨us, rfl, hus⟩ := ih hrest hw
      exact ⟨us, rfl, hus⟩

theorem flatMap_blanked_map_plain (w : Text) : (w.map plain).flatMap blanked = w := by
  induction w with
  | nil => rfl
  | cons c w ih => rw [List.map_cons, List.flatMap_cons, ih]; rfl

/-- Within a block comment other characters than the two of the marks are passed over. -/
private theorem closeBlock_run {depth : Nat} (hw : ∀ c ∈ w, c ≠ '*' ∧ c ≠ '/') (u : Text) :
    closeBlock depth (w ++ u) =
      (closeBlock depth u).map fun (body, after) => (w ++ body, after) := by
  induction w with
  | nil => simp
  | cons c w ih =>
    obtain ⟨hc, hw⟩ := List.forall_mem_cons.1 hw
    rw [List.cons_append, closeBlock_cons (fun _ h => absurd h hc.2) (fun _ h => absurd h hc.1),
      ih hw, Option.map_map]
    rfl

end Segment

namespace Highlight
open Segment
variable {c : Char} {t u w rest after body : Text} {depth : Nat} {ss : List Segment} {ps : Pieces}

/-- Within a block comment no mark stands inside a piece that is no mark. -/
theorem inside_other (hopen : ∀ r, c = '/' → rest ≠ '*' :: r)
    (hclose : ∀ r, c = '*' → rest ≠ '/' :: r) :
    ∃ w u, inside (c :: rest) = c :: w ∧ rest = w ++ u ∧ ∀ d ∈ w, d ≠ '*' ∧ d ≠ '/' := by
  have hmark {a b : Char} (hne : ∀ r, c = a → rest ≠ b :: r) : ¬ [a, b] <+: c :: rest := by
    intro hp
    obtain ⟨rfl, r, hr⟩ := List.cons_prefix_cons.1 hp
    exact hne r rfl hr.symm
  rw [inside, if_neg (by simpa using hmark hopen), if_neg (by simpa using hmark hclose)]
  by_cases hc : (c != '*' && c != '/') = true
  · rw [List.takeWhile_cons, if_pos hc]
    refine ⟨_, rest.dropWhile fun c => c != '*' && c != '/', rfl,
      List.takeWhile_append_dropWhile.symm, fun d hd => ?_⟩
    simpa using List.mem_takeWhile_imp hd
  · rw [List.takeWhile_cons, if_neg hc]
    exact ⟨[], rest, rfl, rfl, by simp⟩

theorem depthAfter_other (hw : ∀ d ∈ w, d ≠ '*' ∧ d ≠ '/') :
    depthAfter depth (.blockComment, c :: w) = depth := by
  have hne {a b : Char} (hb : b = '*' ∨ b = '/') : c :: w ≠ [a, b] := by
    intro he
    obtain rfl := (List.cons.inj he).2
    rcases hb with rfl | rfl
    · exact (hw _ List.mem_cons_self).1 rfl
    · exact (hw _ List.mem_cons_self).2 rfl
  have hopen : c :: w ≠ "/*".toList := hne (.inl rfl)
  have hclose : c :: w ≠ "*/".toList := hne (.inr rfl)
  rw [depthAfter, if_pos rfl]
  dsimp only
  rw [if_neg hopen, if_neg hclose]

/-- Within a block comment a mark is a piece, and so is what stands between marks. Where the comment
goes on after the piece, it is the same comment still. -/
private theorem closeBlock_inside (h : closeBlock depth t = some (body, after)) :
    ∃ u, t = inside t ++ u ∧
      (depthAfter (depth + 1) (.blockComment, inside t) = 0 ∧ after = u ∨
        ∃ depth' body', depthAfter (depth + 1) (.blockComment, inside t) = depth' + 1 ∧
          closeBlock depth' u = some (body', after)) := by
  revert h
  fun_cases closeBlock depth t with
  | case5 => intro h; cases h
  | case2 rest =>
    intro h
    obtain ⟨rfl, rfl⟩ := Prod.mk.inj (Option.some.inj h)
    exact ⟨_, rfl, .inl ⟨rfl, rfl⟩⟩
  | case1 | case3 =>
    intro h
    obtain ⟨⟨b, a⟩, hb, he⟩ := Option.map_eq_some_iff.1 h
    obtain ⟨rfl, rfl⟩ := Prod.mk.inj he
    exact ⟨_, rfl, .inr ⟨_, b, rfl, hb⟩⟩
  | case4 depth c rest hopen hclose hclose' =>
    have hclose'' : ∀ r, c = '*' → rest ≠ '/' :: r := by
      rintro r rfl rfl
      cases depth with
      | zero => exact hclose r rfl rfl rfl
      | succ depth => exact hclose' depth r rfl rfl rfl
    obtain ⟨w, u, hw, rfl, hplain⟩ := inside_other hopen hclose''
    intro h
    obtain ⟨⟨b, a⟩, hb, he⟩ := Option.map_eq_some_iff.1 h
    rw [closeBlock_run hplain] at hb
    obtain ⟨⟨b', a'⟩, hb', he'⟩ := Option.map_eq_some_iff.1 hb
    obtain ⟨rfl, rfl⟩ := Prod.mk.inj he'
    obtain ⟨rfl, rfl⟩ := Prod.mk.inj he
    rw [hw]
    exact ⟨u, rfl, .inr ⟨depth, b', depthAfter_other hplain, hb'⟩⟩

/-- A block comment that has been opened is coloured as comment up to the mark that closes it. -/
private theorem run_block (h : closeBlock depth t = some (body, after)) :
    ∃ ps, Run (depth + 1) t ps 0 after ∧ ∀ p ∈ ps, p.1 = .blockComment := by
  generalize hn : t.length = n
  induction n using Nat.strong_induction_on generalizing t depth body with
  | _ n ih =>
    have hne : t ≠ [] := by
      rintro rfl
      cases h
    have hinside := inside_ne_nil hne
    have hpieces : pieces (depth + 1) t = [(.blockComment, inside t)] := piece_eq _ hinside
    obtain ⟨u, ht, hu⟩ := closeBlock_inside h
    have hrun := Run.single hne hpieces (u := u) (by simpa using ht)
    rw [List.foldl_cons, List.foldl_nil] at hrun
    rcases hu with ⟨hdepth, rfl⟩ | ⟨depth', body', hdepth, hbody⟩
    · exact ⟨_, hdepth ▸ hrun, List.forall_mem_singleton.2 rfl⟩
    · have hlt : u.length < n := by
        have hlen := congrArg List.length ht
        have hpos := List.length_pos_iff.2 hinside
        rw [List.length_append] at hlen
        omega
      obtain ⟨ps, hps, hkind⟩ := ih u.length hlt hbody rfl
      rw [hdepth] at hrun
      exact ⟨_, hrun.append hps, List.forall_mem_cons.2 ⟨rfl, hkind⟩⟩

def Kind.isComment : Kind → Bool
  | lineComment | blockComment => true
  | _ => false

/-- Nothing in the pieces is comment, and none of their characters but the first opens anything. -/
structure Ordinary (ps : Pieces) : Prop where
  isComment : ∀ p ∈ ps, p.1.isComment = false
  tail : ∀ d ∈ (spelled ps).tail, d ≠ '/' ∧ d ≠ '"'

namespace Ordinary

private theorem piece {kind : Kind} (hkind : kind.isComment = false)
    (hw : ∀ d ∈ w.tail, d ≠ '/' ∧ d ≠ '"') : Ordinary (piece kind w) := by
  refine ⟨?_, (spelled_piece kind w).symm ▸ hw⟩
  rw [Highlight.piece]
  split
  case isTrue => simp
  case isFalse => exact List.forall_mem_singleton.2 hkind

private theorem nil : Ordinary [] := ⟨by simp, by simp⟩

private theorem word (terminal : Phrase.Terminal) (kind : Kind) (h : terminal ≠ .string)
    (hkind : kind.isComment = false) (t : Text) :
    Ordinary (Highlight.piece kind (terminal.word t)) := by
  by_cases hnil : terminal.word t = []
  · exact .piece hkind (by simp [hnil])
  · have hspells := (Phrase.Terminal.takes_word hnil).spells
    refine .piece hkind fun d hd => ⟨hspells.ne_slash h d hd, ?_⟩
    rintro rfl
    have := hspells.solid h _ (List.mem_of_mem_tail hd)
    cases this

end Ordinary

private theorem ordinary_space {t : Text} : ∀ d ∈ t.takeWhile Text.isSpace, d ≠ '/' ∧ d ≠ '"' := by
  intro d hd
  have hspace := List.mem_takeWhile_imp hd
  constructor <;> rintro rfl <;> cases hspace

private theorem ordinary_whitespace (t : Text) :
    Ordinary (piece .whitespace (t.takeWhile Text.isSpace)) :=
  .piece rfl fun d hd => ordinary_space d (List.mem_of_mem_tail hd)

theorem ordinary_functionAt (t : Text) : Ordinary (functionAt t) := by
  have hname := Ordinary.word .name .calledName (by decide) rfl t
  rw [functionAt]
  split
  case isFalse => exact .nil
  case isTrue =>
    split
    case isTrue => rwa [List.append_nil]
    case isFalse hne =>
      refine ⟨List.forall_mem_append.2 ⟨hname.isComment, (ordinary_whitespace _).isComment⟩,
        fun d hd => ?_⟩
      rw [spelled_append, List.tail_append_of_ne_nil (by simpa using hne)] at hd
      rcases List.mem_append.1 hd with hd | hd
      · exact hname.tail d hd
      · exact ordinary_space d (by rwa [spelled_piece] at hd)

private theorem ordinary_operatorAt (t : Text) : Ordinary (piece .operator (operatorAt t)) := by
  rw [operatorAt]
  split
  case h_1 op hop => exact .piece rfl (Text.forall_mem_of_all (by cases op <;> decide))
  case h_2 => exact .word .equal _ (by decide) rfl t

private theorem ordinary_probeSpecAt (t : Text) : Ordinary (piece .probeSpec (probeSpecAt t)) := by
  rw [probeSpecAt]
  split
  case isTrue => exact .word .probeSpec _ (by decide) rfl t
  case isFalse => exact .nil

/-- Where neither a string nor a comment begins, the first match does not go past where one does. -/
private theorem ordinary_outside (hline : ∀ r, c = '/' → rest ≠ '/' :: r)
    (hblock : ∀ r, c = '/' → rest ≠ '*' :: r) (hquote : c ≠ '"') :
    Ordinary (outside (c :: rest)) := by
  rcases outside_cases (c :: rest) with ⟨rule, hrule, -, he⟩ | ⟨-, he⟩ <;> rw [he]
  · clear he
    revert rule
    simp only [rules, List.forall_mem_cons]
    refine ⟨ordinary_whitespace _, ?lineComment, ?blockComment, ?string, ordinary_probeSpecAt _,
      .word .hexadecimal _ (by decide) rfl _, .word .binary _ (by decide) rfl _,
      .word .octal _ (by decide) rfl _, .piece rfl ?decimal, ordinary_functionAt _,
      .word .name _ (by decide) rfl _, ordinary_operatorAt _, .piece rfl ?punctuation, by simp⟩
    case lineComment =>
      rw [lineCommentAt.eq_2]
      · exact .nil
      · rintro r he
        obtain ⟨hc, hr⟩ := List.cons.inj he
        exact hline r hc hr
    case blockComment =>
      rw [if_neg]
      · exact .nil
      · intro hp
        obtain ⟨hc, r, hr⟩ := List.cons_prefix_cons.1 (List.isPrefixOf_iff_prefix.1 hp)
        exact hblock r hc.symm hr.symm
    case string =>
      rw [show Phrase.Terminal.string.word (c :: rest) = [] from ?_]
      · exact .nil
      · unfold Phrase.Terminal.word
        split <;> simp_all
    case decimal =>
      intro d hd
      have hdigit := List.mem_takeWhile_imp (List.mem_of_mem_tail hd)
      constructor <;> rintro rfl <;> cases hdigit
    case punctuation =>
      rw [oneOf]
      split <;> simp
  · exact .piece rfl (by simp)

/-- What is left of a piece when the comments are blanked out. -/
def cleared (p : Kind × Text) : Text := if p.1.isComment then p.2.map blank else p.2

private theorem flatMap_cleared (h : ∀ p ∈ ps, p.1.isComment = false) :
    ps.flatMap cleared = spelled ps := by
  rw [List.flatMap, spelled, List.flatMap, List.map_congr_left fun p hp => ?_]
  rw [cleared, h p hp]
  rfl

private theorem flatMap_cleared_of_isComment (h : ∀ p ∈ ps, p.1.isComment = true) :
    ps.flatMap cleared = (spelled ps).map blank := by
  induction ps with
  | nil => rfl
  | cons p ps ih =>
    obtain ⟨hp, hps⟩ := List.forall_mem_cons.1 h
    rw [List.flatMap_cons, ih hps, cleared, if_pos hp, spelled_cons, List.map_append]

/-- A comment is coloured as comment from its beginning to its end. -/
theorem exists_run_of_comment {s : Segment} (h : first 0 c rest = .ok (s, after))
    (hs : s.isComment = true) :
    ∃ ps, Run 0 (c :: rest) ps 0 after ∧ ∀ p ∈ ps, p.1.isComment = true := by
  revert h
  fun_cases first 0 c rest with
  | case1 | case4 | case7 => intro h; cases h
  | case2 | case6 => rintro ⟨⟩; cases hs
  | case3 rest =>
    rintro ⟨⟩
    have houtside := outside_lineComment rest
    exact ⟨_, .outside (List.cons_ne_nil _ _) houtside (by simp) (by simp),
      List.forall_mem_singleton.2 rfl⟩
  | case5 rest body tail hbody =>
    rintro ⟨⟩
    obtain ⟨ps, hps, hkind⟩ := run_block hbody
    have hopen : Run 0 ('/' :: '*' :: rest) [(.blockComment, "/*".toList)] 1 rest :=
      .single (List.cons_ne_nil _ _) (outside_blockComment rest) rfl
    refine ⟨_, hopen.append hps, List.forall_mem_cons.2 ⟨rfl, fun p hp => ?_⟩⟩
    rw [hkind p hp]
    rfl

/-- No mark begins where a character stands alone. -/
private theorem ordinary_of_plain (h : first 0 c rest = .ok (plain c, after)) :
    Ordinary (outside (c :: rest)) ∧ after = rest := by
  revert h
  fun_cases first 0 c rest with
  | case1 | case2 | case3 | case4 | case5 | case7 => intro h; cases h
  | case6 c rest hquote hline hblock =>
    intro h
    refine ⟨ordinary_outside ?_ ?_ hquote, ((Prod.mk.inj (Except.ok.inj h)).2).symm⟩
    · rintro r rfl rfl
      exact hline r rfl rfl
    · rintro r rfl rfl
      exact hblock r rfl rfl

/-- One match outside comments takes a character and some of those after it. -/
private theorem exists_spelled_outside (c : Char) (rest : Text) :
    ∃ w u, spelled (outside (c :: rest)) = c :: w ∧ rest = w ++ u := by
  have hne : spelled (outside (c :: rest)) ≠ [] := spelled_pieces_ne_nil 0 (List.cons_ne_nil _ _)
  obtain ⟨u, hu⟩ : spelled (outside (c :: rest)) <+: c :: rest := prefix_pieces 0 _
  obtain ⟨d, w, hw⟩ := List.exists_cons_of_ne_nil hne
  rw [hw] at hu ⊢
  obtain ⟨rfl, rfl⟩ := List.cons.inj hu
  exact ⟨w, u, rfl, rfl⟩

/-- From the beginning of a segment matches come to the beginning of another. -/
private theorem exists_step {s : Segment} (h : Row t (s :: ss) []) :
    ∃ ps ls us u, Run 0 t ps 0 u ∧ s :: ss = ls ++ us ∧ ls ≠ [] ∧ Row u us [] ∧
      ps.flatMap cleared = ls.flatMap Segment.blanked := by
  have hsound := h.sound s List.mem_cons_self
  cases h with
  | @more c rest after _ _ _ hfirst hrest =>
    have ht := first_append hfirst
    cases s with
    | string inner =>
      have houtside := outside_string hsound after
      rw [← text.eq_1, ← ht] at houtside
      exact ⟨_, [string inner], ss, after,
        .outside (List.cons_ne_nil _ _) houtside (by simpa using ht) (by simp), rfl,
        List.cons_ne_nil _ _, hrest, by simp [cleared, Kind.isComment, Segment.blanked, isComment]⟩
    | lineComment body | blockComment body =>
      obtain ⟨ps, hrun, hps⟩ := exists_run_of_comment hfirst rfl
      have hspelled := List.append_cancel_right (ht.symm.trans hrun.text_eq)
      refine ⟨ps, _ :: [], ss, after, hrun, rfl, List.cons_ne_nil _ _, hrest, ?_⟩
      rw [flatMap_cleared_of_isComment hps, ← hspelled, List.flatMap_singleton]
      rfl
    | plain d =>
      obtain rfl := (List.cons.inj ht).1
      obtain ⟨hordinary, rfl⟩ := ordinary_of_plain hfirst
      obtain ⟨w, u, hw, rfl⟩ := exists_spelled_outside c after
      have htail := hordinary.tail
      rw [hw] at htail
      obtain ⟨us, rfl, hus⟩ := hrest.after_ordinary htail
      have hkind : ∀ p ∈ outside (c :: (w ++ u)), p.1 ≠ .blockComment := fun p hp he => by
        have := hordinary.isComment p hp
        rw [he] at this
        cases this
      refine ⟨_, (c :: w).map plain, us, u, .outside (List.cons_ne_nil _ _) rfl (hw ▸ rfl) hkind,
        rfl, List.cons_ne_nil _ _, hus, ?_⟩
      rw [flatMap_cleared hordinary.isComment, hw, flatMap_blanked_map_plain]

/-- Matches come to the end of a row of segments. -/
private theorem exists_run_of_row (h : Row t ss []) :
    ∃ ps, Run 0 t ps 0 [] ∧ ps.flatMap cleared = ss.flatMap Segment.blanked := by
  generalize hn : ss.length = n
  induction n using Nat.strong_induction_on generalizing t ss with
  | _ n ih =>
    cases ss with
    | nil =>
      cases h
      exact ⟨[], .done 0 [], rfl⟩
    | cons s ss =>
      obtain ⟨ps, ls, us, u, hrun, hss, hls, hus, hps⟩ := exists_step h
      have hlt : us.length < n := by
        have hlen := congrArg List.length hss
        have hpos := List.length_pos_iff.2 hls
        rw [List.length_append] at hlen
        omega
      obtain ⟨qs, hrun', hqs⟩ := ih us.length hlt hus rfl
      refine ⟨ps ++ qs, hrun.append hrun', ?_⟩
      rw [hss, List.flatMap_append, List.flatMap_append, hps, hqs]

/-- The pieces of a text that can be blanked, and what blanking makes of them. -/
private theorem exists_run_of_blanked {source text : Text} (h : Text.blanked source = .ok text) :
    ∃ ps, Run 0 source ps 0 [] ∧ text = unmarked (ps.flatMap cleared) := by
  obtain ⟨ss, hrow, rfl⟩ := Text.blanked_eq_ok_iff.1 h
  rcases Text.marked_or_unmarked source with ⟨rest, rfl⟩ | hsource
  · obtain ⟨us, rfl, hus⟩ := Row.after_ordinary (w := [' ']) hrow (by simp)
    obtain ⟨ps, hrun, hps⟩ := exists_run_of_row hus
    have hfirst : Run 0 (Text.byteOrderMark :: rest) [(.text, [Text.byteOrderMark])] 0 rest :=
      .outside (List.cons_ne_nil _ _) (outside_byteOrderMark rest) rfl (by simp)
    refine ⟨_, hfirst.append hrun, ?_⟩
    rw [List.flatMap_append, List.flatMap_append, hps, flatMap_blanked_map_plain]
    rfl
  · rw [hsource] at hrow
    obtain ⟨ps, hrun, hps⟩ := exists_run_of_row hrow
    obtain ⟨ss', hrow', -⟩ := hrow.exists_blanked
    exact ⟨ps, hrun, by rw [hps, Text.unmarked_of_row hrow']⟩

/-- The index is one of a character that is coloured as comment. -/
def Commented (xs : List Token) (k : Nat) : Prop :=
  ∃ x ∈ xs, x.kind.isComment = true ∧ x.index ≤ k ∧ k < x.index + x.text.length

instance (xs : List Token) (k : Nat) : Decidable (Commented xs k) :=
  inferInstanceAs (Decidable (∃ x ∈ xs, _))

private theorem le_index_of_mem_placed {i : Nat} : ∀ x ∈ placed i ps, i ≤ x.index := by
  induction ps generalizing i with
  | nil => simp [placed]
  | cons p ps ih =>
    refine List.forall_mem_cons.2 ⟨le_refl i, fun x hx => ?_⟩
    have := ih x hx
    omega

private theorem cleared_length (p : Kind × Text) : (cleared p).length = p.2.length := by
  rw [cleared]
  split <;> simp

/-- A character is blanked out if its piece is comment. -/
private theorem getElem?_cleared {i k : Nat} (hc : (spelled ps)[k]? = some c) :
    (ps.flatMap cleared)[k]? =
      some (if Commented (placed i ps) (i + k) then blank c else c) := by
  induction ps generalizing i k with
  | nil => cases hc
  | cons p ps ih =>
    have hcommented : Commented (placed i (p :: ps)) (i + k) ↔
        p.1.isComment = true ∧ k < p.2.length ∨ Commented (placed (i + p.2.length) ps) (i + k) := by
      simp only [Commented, placed, List.mem_cons, exists_eq_or_imp]
      simp
    rw [List.flatMap_cons]
    rw [spelled_cons] at hc
    by_cases hk : k < p.2.length
    · rw [List.getElem?_append_left hk] at hc
      rw [List.getElem?_append_left (by rwa [cleared_length])]
      have hrest : ¬ Commented (placed (i + p.2.length) ps) (i + k) := by
        rintro ⟨x, hx, -, hle, -⟩
        have := le_index_of_mem_placed x hx
        omega
      simp only [hcommented, hk, and_true, hrest, or_false]
      rw [cleared]
      split
      · rw [List.getElem?_map, hc]
        rfl
      · exact hc
    · rw [List.getElem?_append_right (by omega)] at hc
      have hle : (cleared p).length ≤ k := by
        rw [cleared_length]
        omega
      have hrest := ih (i := i + p.2.length) hc
      rw [show i + p.2.length + (k - p.2.length) = i + k by omega] at hrest
      rw [List.getElem?_append_right hle, cleared_length, hrest]
      simp only [hcommented, hk, and_false, false_or]

private theorem getElem?_blanked {source text : Text} {k : Nat} (h : Text.blanked source = .ok text)
    (hc : source[k]? = some c) : text[k]? = some (if Commented (tokens source) k then blank c
      else if k = 0 ∧ c = Text.byteOrderMark then ' ' else c) := by
  obtain ⟨ps, hrun, rfl⟩ := exists_run_of_blanked h
  rw [tokens_of_run hrun]
  rw [hrun.text_eq, List.append_nil] at hc
  have hget := getElem?_cleared (i := 0) hc
  rw [Nat.zero_add] at hget
  rw [Text.getElem?_unmarked, hget, Option.map_some]
  by_cases hcommented : Commented (placed 0 ps) k
  · have hmark : ¬ (k = 0 ∧ blank c = Text.byteOrderMark) := by
      rintro ⟨-, he⟩
      rw [Segment.blank_eq] at he
      split at he <;> cases he
    rw [if_pos hcommented, if_pos hcommented, if_neg hmark]
  · rw [if_neg hcommented, if_neg hcommented]

/-- Blanking leaves alone what is not coloured as comment. -/
theorem getElem?_of_not_commented {source text : Text} {k : Nat}
    (h : Text.blanked source = .ok text) (hk : 0 < k) (hcomment : ¬ Commented (tokens source) k) :
    source[k]? = text[k]? := by
  cases hc : source[k]? with
  | none =>
    rw [List.getElem?_eq_none_iff, ← Text.blanked_length h] at hc
    exact (List.getElem?_eq_none hc).symm
  | some c =>
    have hmark : ¬ (k = 0 ∧ c = Text.byteOrderMark) := by omega
    rw [getElem?_blanked h hc, if_neg hcomment, if_neg hmark]

/-- Blanking and colouring agree on what is comment. Blanked, a text is the same but for the
characters coloured as comment, which give way to spaces, line feeds excepted, and for a byte order
mark at its head. -/
theorem blanked_commented {source text : Text} (h : Text.blanked source = .ok text) :
    text.length = source.length ∧ ∀ k c, source[k]? = some c →
      text[k]? = some (if Commented (tokens source) k then if c = '\n' then '\n' else ' '
        else if k = 0 ∧ c = Text.byteOrderMark then ' ' else c) := by
  refine ⟨Text.blanked_length h, fun k c hc => ?_⟩
  rw [getElem?_blanked h hc, Segment.blank_eq]

/-- A byte order mark, a comment within a comment with a quotation mark in it, and a string with the
mark of a comment in it. -/
theorem blanked_commented_nested :
    let source := "\ufeffa/*/*\"*/*/\"//\"//*\nb".toList
    let text := " a         \"//\"   \nb".toList
    Text.blanked source = .ok text ∧ text.length = source.length ∧
      ∀ k c, source[k]? = some c →
        text[k]? = some (if Commented (tokens source) k then if c = '\n' then '\n' else ' '
          else if k = 0 ∧ c = Text.byteOrderMark then ' ' else c) := by
  intro source text
  have hrow : Row (unmarked source) [plain ' ', plain 'a', blockComment "/*/*\"*/*/".toList,
      string "//".toList, lineComment "//*".toList, plain '\n', plain 'b'] [] :=
    .more rfl (.more rfl (.more rfl (.more rfl (.more rfl (.more rfl (.more rfl (.done [])))))))
  have hblanked : Text.blanked source = .ok text := Text.blanked_eq_ok_iff.2 ⟨_, hrow, rfl⟩
  exact ⟨hblanked, blanked_commented hblanked⟩

end Highlight
end ProbeScript
