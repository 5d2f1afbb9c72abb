import ProbeScript.Proofs.Text.Row

/-! A text parted at a line feed. No segment goes on over the line feed if what follows it could end
none: it holds no quotation mark and closes no comment. -/
namespace ProbeScript

namespace Segment
variable {c : Char} {s : Segment} {x u v rest after : Text} {ss : List Segment}

/-- The text could end no string and no block comment that is open before it. -/
structure Inert (v : Text) : Prop where
  quote_not_mem : '"' ∉ v
  not_close : ∀ a b, v ≠ a ++ '*' :: '/' :: b

private theorem closeBlock_ends {depth : Nat} {t body : Text}
    (h : closeBlock depth t = some (body, after)) : ['*', '/'] <:+ body := by
  fun_induction closeBlock depth t generalizing body with
  | case5 => cases h
  | case2 =>
    obtain ⟨rfl, rfl⟩ := Prod.mk.inj (Option.some.inj h)
    exact List.suffix_rfl
  | case1 | case3 =>
    rename_i ih
    obtain ⟨⟨body', after'⟩, hbody, he⟩ := Option.map_eq_some_iff.1 h
    obtain ⟨rfl, rfl⟩ := Prod.mk.inj he
    exact ((ih hbody).trans (List.suffix_cons ..)).trans (List.suffix_cons ..)
  | case4 =>
    rename_i ih
    obtain ⟨⟨body', after'⟩, hbody, he⟩ := Option.map_eq_some_iff.1 h
    obtain ⟨rfl, rfl⟩ := Prod.mk.inj he
    exact (ih hbody).trans (List.suffix_cons ..)

private theorem blockComment_ends {body : Text}
    (h : first 0 c rest = .ok (blockComment body, after)) :
    ['*', '/'] <:+ body := by
  revert h
  fun_cases first 0 c rest with
  | case5 rest body tail hb =>
    rintro ⟨⟩
    exact (closeBlock_ends hb).trans (List.suffix_append ['/', '*'] body)
  | _ => intro h; cases h

private theorem not_mem_of_lineComment {body : Text}
    (h : first 0 c rest = .ok (lineComment body, after)) : '\n' ∉ body := by
  revert h
  fun_cases first 0 c rest with
  | case3 rest =>
    rintro ⟨⟩
    intro hmem
    simp only [List.mem_cons, Char.reduceEq, false_or] at hmem
    exact not_mem_takeWhile '\n' rest hmem
  | _ => intro h; cases h

/-- The first segment of the text before the line feed does not reach over it. -/
private theorem exists_after_first (h : first 0 c (x ++ '\n' :: v) = .ok (s, after))
    (hv : Inert ('\n' :: v)) : ∃ x', after = x' ++ '\n' :: v ∧ c :: x = s.text ++ x' := by
  have happend : s.text ++ after = (c :: x) ++ '\n' :: v := (first_append h).symm
  rcases List.append_eq_append_iff.1 happend with ⟨x', hx, hafter⟩ | ⟨w, hs, hw⟩
  · exact ⟨x', hafter, hx⟩
  cases w with
  | nil => exact ⟨[], hw.symm, by rw [hs, List.append_nil, List.append_nil]⟩
  | cons d w =>
    obtain ⟨rfl, hw⟩ := List.cons.inj hw
    exfalso
    -- what ends the segment would stand behind the line feed
    have hwithin {q : Text} (hq : q <:+ s.text) (hline : '\n' ∉ q) : q <:+ '\n' :: w := by
      rw [hs] at hq
      rcases List.suffix_or_suffix_of_suffix hq (List.suffix_append (c :: x) ('\n' :: w)) with h | h
      · exact h
      · exact absurd (h.subset List.mem_cons_self) hline
    cases s with
    | plain d =>
      have hlen := congrArg List.length hs
      simp [text] at hlen
    | lineComment body =>
      have hbody : body = (c :: x) ++ '\n' :: w := hs
      exact not_mem_of_lineComment h (by simp [hbody])
    | string inner =>
      have hquote := hwithin (List.suffix_append ('"' :: inner) ['"']) (by decide)
      apply hv.quote_not_mem
      rw [hw]
      exact List.mem_append_left _ (hquote.subset List.mem_cons_self)
    | blockComment body =>
      obtain ⟨b, hb⟩ := hwithin (blockComment_ends h) (by decide)
      apply hv.not_close b after
      rw [hw, ← hb, List.append_assoc]
      rfl

private theorem Row.exists_parted_line (h : Row (x ++ '\n' :: v) ss []) (hv : Inert ('\n' :: v)) :
    ∃ as bs, ss = as ++ bs ∧ Row x as [] ∧ Row ('\n' :: v) bs [] := by
  obtain ⟨as, bs, rfl, hx⟩ : ∃ as bs, ss = as ++ bs ∧ as.flatMap text = x := by
    generalize ht : x ++ '\n' :: v = t at h
    generalize hu : ([] : Text) = u at h
    induction h generalizing x with
    | done =>
      subst hu
      exact absurd ht (List.append_ne_nil_of_right_ne_nil _ (List.cons_ne_nil _ _))
    | @more c rest after u s ss hfirst hrest ih =>
      cases x with
      | nil => exact ⟨[], _, rfl, rfl⟩
      | cons d x =>
        obtain ⟨rfl, rfl⟩ := List.cons.inj ht
        obtain ⟨x', rfl, hx⟩ := exists_after_first hfirst hv
        obtain ⟨as, bs, rfl, rfl⟩ := ih rfl hu
        exact ⟨s :: as, bs, rfl, hx.symm⟩
  obtain ⟨w, has, hbs⟩ := h.split
  have htext := has.text_eq
  rw [hx] at htext
  obtain rfl := List.append_cancel_left htext
  have hcut := has.cut (v := []) (.inr fun d hd => by cases hd)
  rw [hx, List.append_nil] at hcut
  exact ⟨as, bs, rfl, hcut, hbs⟩

/-- At the head of a text blanking leaves what is kept as it is. -/
private theorem Kept.exists_rest (hx : Kept x) (h : Row (x ++ u) ss []) :
    ∃ us, Row u us [] ∧ ss.flatMap blanked = x ++ us.flatMap blanked := by
  obtain ⟨xs, hxs, hplain⟩ := hx u
  obtain ⟨us, rfl, hus⟩ := hxs.rest_unique h
  refine ⟨us, hus, ?_⟩
  rw [List.flatMap_append, flatMap_blanked_of_plain hplain,
    ← List.append_cancel_right hxs.text_eq]

end Segment

namespace Text
open Segment

/-- Between texts that are kept, the second of them after a line feed, a text is blanked as it is
blanked alone. -/
theorem exists_blanked_between {p x v u : Text} (hp : Kept p) (hv : Kept ('\n' :: v))
    (hinert : Inert ('\n' :: v)) (hx : unmarked x = x)
    (hmark : unmarked (p ++ (x ++ '\n' :: v)) = p ++ (x ++ '\n' :: v))
    (h : blanked (p ++ (x ++ '\n' :: v)) = .ok u) :
    ∃ b, blanked x = .ok b ∧ u = p ++ (b ++ '\n' :: v) := by
  obtain ⟨ss, hrow, rfl⟩ := blanked_eq_ok_iff.1 h
  rw [hmark] at hrow
  obtain ⟨us, hus, hblanked⟩ := hp.exists_rest hrow
  obtain ⟨as, bs, rfl, has, hbs⟩ := hus.exists_parted_line hinert
  rw [← List.append_nil ('\n' :: v)] at hbs
  obtain ⟨ws, hws, hrest⟩ := hv.exists_rest hbs
  cases hws
  refine ⟨as.flatMap Segment.blanked, blanked_eq_ok_iff.2 ⟨as, hx.symm ▸ has, rfl⟩, ?_⟩
  rw [hblanked, List.flatMap_append, hrest, List.flatMap_nil, List.append_nil]

end Text
end ProbeScript
