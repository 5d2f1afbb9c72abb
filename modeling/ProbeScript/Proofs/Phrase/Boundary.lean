import ProbeScript.Proofs.Phrase.Scan
import ProbeScript.Proofs.Text.Row

/-! Tokens against segments. A token is a whole string or lies outside strings, and what is blanked
out is white space to the grammar, so every token begins and ends with a segment. -/
namespace ProbeScript.Phrase

open Segment
variable {t u v w : Text} {s : Segment} {ss : List Segment} {ts : List Token} {i j : Nat}

/-- A character that is no white space begins a segment that is no comment. -/
private theorem not_isComment (hs : s.Sound) {c : Char} (hc : Text.isLayout c = false)
    (h : s.blanked ++ u = c :: v) : s.isComment = false := by
  by_contra hn
  obtain ⟨a, rest, ha⟩ := exists_cons_of_sound hs
  have hlayout := isLayout_of_isComment (by simpa using hn) a (ha ▸ List.mem_cons_self)
  rw [ha] at h
  obtain rfl := (List.cons.inj h).1
  rw [hc] at hlayout
  cases hlayout

/-- A word of solid characters ends with a segment if it begins with one. -/
private theorem exists_rest_of_solid (hw : ∀ c ∈ w, Terminal.isSolid c = true)
    (hss : ∀ s ∈ ss, s.Sound) (h : ss.flatMap blanked = w ++ v) :
    ∃ us vs, ss = us ++ vs ∧ (∀ s ∈ us, s.isComment = false) ∧ us.flatMap blanked = w ∧
      v = vs.flatMap blanked := by
  induction w generalizing ss with
  | nil => exact ⟨[], ss, rfl, by simp, rfl, h.symm⟩
  | cons c w ih =>
    obtain ⟨hc, hw⟩ := List.forall_mem_cons.1 hw
    rw [Terminal.isSolid, Bool.and_eq_true, Bool.not_eq_true'] at hc
    cases ss with
    | nil => cases h
    | cons s ss =>
      obtain ⟨hs, hss'⟩ := List.forall_mem_cons.1 hss
      rw [List.flatMap_cons] at h
      have hcomment := not_isComment hs hc.2 h
      cases s with
      | plain a =>
        obtain ⟨hac, hrest⟩ := List.cons.inj h
        obtain ⟨us, vs, rfl, hus, hword, hv⟩ := ih hw hss' hrest
        refine ⟨.plain a :: us, vs, rfl, List.forall_mem_cons.2 ⟨rfl, hus⟩, ?_, hv⟩
        rw [List.flatMap_cons, hword, ← hac]
        rfl
      | string inner =>
        obtain rfl : '"' = c := (List.cons.inj h).1
        cases hc.1
      | lineComment body | blockComment body => cases hcomment

/-- A word that is taken is made of whole segments, none of them a comment. -/
theorem exists_rest_of_takes {terminal : Terminal} (hss : ∀ s ∈ ss, s.Sound)
    (hw : terminal.Takes (ss.flatMap blanked) w) :
    ∃ us vs, ss = us ++ vs ∧ (∀ s ∈ us, s.isComment = false) ∧ us.flatMap blanked = w ∧
      (ss.flatMap blanked).drop w.length = vs.flatMap blanked := by
  obtain ⟨v, hv⟩ := hw.isPrefix
  rw [← hv, List.drop_left]
  by_cases hstring : terminal = .string
  · subst hstring
    obtain ⟨inner, hinner, rfl⟩ := Terminal.spells_string hw.spells
    cases ss with
    | nil => cases hv
    | cons s ss =>
      obtain ⟨hs, hss'⟩ := List.forall_mem_cons.1 hss
      rw [List.flatMap_cons] at hv hw
      have hcomment := not_isComment (c := '"') hs rfl hv.symm
      cases s with
      | plain a =>
        obtain rfl : '"' = a := (List.cons.inj hv).1
        cases hs
      | string inner' =>
        have hw' : Terminal.string.Takes (('"' :: inner' ++ ['"']) ++ ss.flatMap blanked)
            ('"' :: inner' ++ ['"']) :=
          Terminal.takes_append_iff.2 ⟨.quoted hs, fun _ _ => rfl⟩
        rw [hw.unique hw'] at hv ⊢
        exact ⟨[.string inner'], ss, rfl, List.forall_mem_singleton.2 hcomment,
          List.flatMap_singleton _ _, List.append_cancel_left hv⟩
      | lineComment body | blockComment body => cases hcomment
  · exact exists_rest_of_solid (hw.spells.solid hstring) hss hv.symm

/-- Reading a row of segments comes to white space before others of them. -/
private theorem exists_rest_of_scans {pre : Text} (h : Scans i (pre ++ ss.flatMap blanked) ts j u)
    (hpre : ∀ c ∈ pre, Text.isLayout c = true) (hss : ∀ s ∈ ss, s.Sound) :
    ∃ pre' us vs, u = pre' ++ vs.flatMap blanked ∧ (∀ c ∈ pre', Text.isLayout c = true) ∧
      ss = us ++ vs := by
  generalize ht : pre ++ ss.flatMap blanked = t at h
  induction h generalizing pre ss with
  | done => exact ⟨pre, [], ss, ht.symm, hpre, rfl⟩
  | @layout _ _ c _ _ _ hc _ ih =>
    cases pre with
    | cons a pre =>
      obtain ⟨rfl, rfl⟩ := List.cons.inj ht
      exact ih (List.forall_mem_cons.1 hpre).2 hss rfl
    | nil =>
      cases ss with
      | nil => cases ht
      | cons s ss =>
        obtain ⟨hs, hss'⟩ := List.forall_mem_cons.1 hss
        rw [List.nil_append, List.flatMap_cons] at ht
        -- what is left of the segment is white space again
        have hrest : ∃ rest, s.blanked = c :: rest ∧ ∀ a ∈ rest, Text.isLayout a = true := by
          obtain ⟨a, rest, ha⟩ := exists_cons_of_sound hs
          rw [ha] at ht
          obtain rfl := (List.cons.inj ht).1
          refine ⟨rest, ha, fun b hb => ?_⟩
          cases hcomment : s.isComment with
          | true => exact isLayout_of_isComment hcomment b (ha ▸ List.mem_cons_of_mem _ hb)
          | false =>
            cases s with
            | plain d =>
              obtain rfl := (List.cons.inj ha).2
              cases hb
            | string inner =>
              obtain rfl : '"' = a := (List.cons.inj ha).1
              cases hc
            | lineComment body | blockComment body => cases hcomment
        obtain ⟨rest, hrest, hlayout⟩ := hrest
        rw [hrest] at ht
        obtain ⟨pre', us, vs, hu, hpre', rfl⟩ := ih hlayout hss' (List.cons.inj ht).2
        exact ⟨pre', s :: us, vs, hu, hpre', rfl⟩
  | @token _ _ terminal _ w _ _ hw _ ih =>
    cases pre with
    | cons a pre =>
      obtain ⟨b, w, rfl⟩ := List.exists_cons_of_ne_nil hw.spells.ne_nil
      have hb := hw.spells.isLayout_head
      have hp := hw.isPrefix
      rw [← ht, List.cons_append, List.cons_prefix_cons] at hp
      rw [hp.1, hpre a List.mem_cons_self] at hb
      cases hb
    | nil =>
      subst ht
      obtain ⟨us, vs, rfl, -, -, hdrop⟩ := exists_rest_of_takes hss hw
      have hnil : ∀ a ∈ ([] : Text), Text.isLayout a = true := by simp
      obtain ⟨pre', us', vs', hu, hpre', rfl⟩ :=
        ih hnil (fun s hs => hss s (List.mem_append_right _ hs)) hdrop.symm
      exact ⟨pre', us ++ us', vs', hu, hpre', by rw [List.append_assoc]⟩

/-- Reading comes to others of the segments where what comes next is no white space. -/
theorem segments_of_scans (h : Scans i (ss.flatMap blanked) ts j u) (hss : ∀ s ∈ ss, s.Sound)
    (hu : ∀ c ∈ u.head?, Text.isLayout c = false) :
    ∃ us vs, ss = us ++ vs ∧ j = i + (us.flatMap text).length ∧ u = vs.flatMap blanked := by
  have hnil : ∀ a ∈ ([] : Text), Text.isLayout a = true := by simp
  obtain ⟨pre, us, vs, rfl, hpre, rfl⟩ := exists_rest_of_scans h hnil hss
  cases pre with
  | cons a pre =>
    have ha := hu a rfl
    rw [hpre a List.mem_cons_self] at ha
    cases ha
  | nil =>
    have hlen := h.length_eq
    rw [List.flatMap_append, List.length_append, Text.flatMap_blanked_length] at hlen
    refine ⟨us, vs, rfl, ?_, rfl⟩
    rw [List.nil_append] at hlen
    omega

/-- Where a character that is no white space comes next, a segment that is no comment begins. -/
theorem boundary_of_scans {c : Char} (h : Scans 0 (ss.flatMap blanked) ts j (c :: v))
    (hss : ∀ s ∈ ss, s.Sound) (hc : Text.isLayout c = false) :
    ∃ us s vs, ss = us ++ s :: vs ∧ s.isComment = false ∧ j = (us.flatMap text).length ∧
      s.blanked.head? = some c := by
  have hhead : ∀ d ∈ (c :: v).head?, Text.isLayout d = false := fun d hd => Option.some.inj hd ▸ hc
  obtain ⟨us, vs, rfl, hj, hu⟩ := segments_of_scans h hss hhead
  cases vs with
  | nil => cases hu
  | cons s vs =>
    rw [List.flatMap_cons] at hu
    have hs := hss s (by simp)
    obtain ⟨a, rest, ha⟩ := exists_cons_of_sound hs
    refine ⟨us, s, vs, rfl, not_isComment hs hc hu.symm, by omega, ?_⟩
    rw [ha] at hu ⊢
    exact congrArg some (List.cons.inj hu).1.symm

end ProbeScript.Phrase
