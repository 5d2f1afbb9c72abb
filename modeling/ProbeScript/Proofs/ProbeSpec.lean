import Mathlib.Data.List.Perm.Basic
import ProbeScript.Proofs.Tree.Spec

/-! The forms of event specifications. A text has one form at most, so the forms may be tried in any
order, and what comes of it are the parts between the colons. -/
namespace ProbeScript.ProbeSpec

open Phrase (isSpecChar)
open Node (IsPart IsSpec specText)

/-- The runs of the right characters that make up a text, a colon between each and the next, if
there are so many. A run without characters is missing. -/
def runs? : (count : Nat) → Text → Option (List (Option Text))
  | 0, _ => none
  | 1, t => if t.all isSpecChar then some [part t] else none
  | count + 2, t =>
    match t.dropWhile isSpecChar with
    | ':' :: rest => (runs? (count + 1) rest).map (part (t.takeWhile isSpecChar) :: ·)
    | _ => none

/-- The parts of a text that has the form of so many. The form of one part requires it. -/
def form? (count : Nat) (t : Text) : Option (List (Option Text)) :=
  if count = 1 ∧ t = [] then none else runs? count t

variable {count : Nat} {t : Text} {parts : List (Option Text)}

private theorem specText_singleton (p : Option Text) : specText [p] = p.getD [] :=
  List.intercalate_singleton

private theorem specText_cons (p : Option Text) (hne : parts ≠ []) :
    specText (p :: parts) = p.getD [] ++ ':' :: specText parts := by
  obtain ⟨q, qs, rfl⟩ := List.exists_cons_of_ne_nil hne
  rw [specText, List.map_cons, List.map_cons, List.intercalate_cons_cons, List.append_assoc]
  rfl

private theorem isSpecChar_of_mem {p : Option Text} (h : IsPart p) :
    ∀ c ∈ p.getD [], isSpecChar c = true := by
  cases p with
  | none => exact List.forall_mem_nil _
  | some t => exact (h t rfl).2

private theorem takeWhile_run {p : Option Text} (h : IsPart p) (u : Text) :
    (p.getD [] ++ ':' :: u).takeWhile isSpecChar = p.getD [] := by
  rw [List.takeWhile_append_of_pos (isSpecChar_of_mem h),
    List.takeWhile_cons_of_neg (by rw [isSpecChar_colon]; decide), List.append_nil]

private theorem dropWhile_run {p : Option Text} (h : IsPart p) (u : Text) :
    (p.getD [] ++ ':' :: u).dropWhile isSpecChar = ':' :: u := by
  rw [List.dropWhile_append_of_pos (isSpecChar_of_mem h),
    List.dropWhile_cons_of_neg (by rw [isSpecChar_colon]; decide)]

/-- The text of two parts at least is the first, a colon and the text of the others. -/
private theorem exists_specText (hlen : parts.length = count + 2) : ∃ p qs, parts = p :: qs ∧
    qs ≠ [] ∧ qs.length = count + 1 ∧ specText parts = p.getD [] ++ ':' :: specText qs := by
  obtain ⟨p, qs, rfl⟩ := List.exists_cons_of_length_eq_add_one hlen
  have hlen' : qs.length = count + 1 := Nat.succ_inj.1 hlen
  have hne : qs ≠ [] := List.ne_nil_of_length_eq_add_one hlen'
  exact ⟨p, qs, rfl, hne, hlen', specText_cons p hne⟩

private theorem runs?_eq_some_iff : runs? count t = some parts ↔
    parts ≠ [] ∧ parts.length = count ∧ (∀ p ∈ parts, IsPart p) ∧ specText parts = t := by
  induction count, t using runs?.induct generalizing parts with
  | case1 t =>
    rw [runs?, List.length_eq_zero_iff]
    exact ⟨nofun, fun ⟨hne, hnil, _⟩ => absurd hnil hne⟩
  | case2 t hall =>
    rw [runs?, if_pos hall, Option.some_inj]
    constructor
    · rintro rfl
      refine ⟨List.cons_ne_nil _ _, rfl, List.forall_mem_singleton.2 ?_, ?_⟩
      · exact isPart_part (List.all_eq_true.1 hall)
      · rw [specText_singleton, getD_part]
    · rintro ⟨-, hlen, hparts, rfl⟩
      obtain ⟨p, rfl⟩ := List.length_eq_one_iff.1 hlen
      rw [specText_singleton, part_getD (List.forall_mem_singleton.1 hparts)]
  | case3 t hall =>
    rw [runs?, if_neg hall]
    refine ⟨nofun, ?_⟩
    rintro ⟨-, hlen, hparts, rfl⟩
    obtain ⟨p, rfl⟩ := List.length_eq_one_iff.1 hlen
    rw [specText_singleton] at hall
    exact absurd (List.all_eq_true.2 (isSpecChar_of_mem (List.forall_mem_singleton.1 hparts))) hall
  | case4 count t rest hrest ih =>
    have hstep : runs? (count + 2) t =
        (runs? (count + 1) rest).map (part (t.takeWhile isSpecChar) :: ·) := by
      rw [runs?, hrest]
      rfl
    rw [hstep, Option.map_eq_some_iff]
    constructor
    · rintro ⟨qs, hqs, rfl⟩
      obtain ⟨hne, hlen, hall, rfl⟩ := ih.1 hqs
      refine ⟨List.cons_ne_nil _ _, congrArg Nat.succ hlen, List.forall_mem_cons.2 ⟨?_, hall⟩, ?_⟩
      · exact isPart_part fun c => List.mem_takeWhile_imp
      · rw [specText_cons _ hne, getD_part, ← hrest, List.takeWhile_append_dropWhile]
    · rintro ⟨-, hlen, hall, rfl⟩
      obtain ⟨p, qs, rfl, hne, hlen', htext⟩ := exists_specText hlen
      obtain ⟨hp, hqs⟩ := List.forall_mem_cons.1 hall
      rw [htext] at hrest ⊢
      rw [dropWhile_run hp] at hrest
      refine ⟨qs, ih.2 ⟨hne, hlen', hqs, (List.cons.inj hrest).2⟩, ?_⟩
      rw [takeWhile_run hp, part_getD hp]
  | case5 count t hrest =>
    have hnone : runs? (count + 2) t = none := by
      rw [runs?]
      split
      case h_1 rest h => exact absurd h (hrest rest)
      case h_2 => rfl
    rw [hnone]
    refine ⟨nofun, ?_⟩
    rintro ⟨-, hlen, hall, rfl⟩
    obtain ⟨p, qs, rfl, -, -, htext⟩ := exists_specText hlen
    rw [htext] at hrest
    exact absurd (dropWhile_run (List.forall_mem_cons.1 hall).1 _) (hrest _)

/-- A form is that of a number of parts: a text has it if it is split into as many. -/
private theorem form?_eq_some_iff (h : count ≤ 4) :
    form? count t = some parts ↔ parts.length = count ∧ split? t = some parts := by
  rw [form?, Option.ite_none_left_eq_some, runs?_eq_some_iff, split?_eq_some_iff]
  constructor
  · rintro ⟨hrequired, hne, rfl, hall, rfl⟩
    refine ⟨rfl, ⟨hne, h, hall, ?_⟩, rfl⟩
    rintro rfl
    exact hrequired ⟨rfl, rfl⟩
  · rintro ⟨rfl, hspec, rfl⟩
    refine ⟨?_, hspec.ne_nil, rfl, hspec.isPart, rfl⟩
    rintro ⟨hlen, hnil⟩
    obtain ⟨p, rfl⟩ := List.length_eq_one_iff.1 hlen
    rw [specText_singleton] at hnil
    rw [← part_getD (hspec.isPart p List.mem_cons_self), hnil] at hspec
    exact hspec.ne_none rfl

private theorem length_mem (h : split? t = some parts) : parts.length ∈ [4, 3, 2, 1] := by
  obtain ⟨hspec, -⟩ := split?_eq_some_iff.1 h
  have hpos := List.length_pos_iff.2 hspec.ne_nil
  have hle := hspec.length_le
  simp only [List.mem_cons, List.not_mem_nil, or_false]
  omega

private theorem le_of_mem_forms : ∀ k ∈ [4, 3, 2, 1], k ≤ 4 := by decide

/-- The first form that fits is the only one. -/
private theorem findSome?_form? {order : List Nat} (h : order.Perm [4, 3, 2, 1]) :
    order.findSome? (form? · t) = split? t := by
  have hle : ∀ k ∈ order, k ≤ 4 := fun k hk => le_of_mem_forms k (h.mem_iff.1 hk)
  cases hfound : order.findSome? (form? · t) with
  | some parts =>
    obtain ⟨k, hk, hform⟩ := List.exists_of_findSome?_eq_some hfound
    exact ((form?_eq_some_iff (hle k hk)).1 hform).2.symm
  | none =>
    cases hsplit : split? t with
    | none => rfl
    | some parts =>
      have hmem := h.mem_iff.2 (length_mem hsplit)
      have hform := (form?_eq_some_iff (hle _ hmem)).2 ⟨rfl, hsplit⟩
      rw [List.findSome?_eq_none_iff.1 hfound _ hmem] at hform
      cases hform

private theorem existsUnique_form (h : split? t = some parts) :
    ∃! k, k ∈ [4, 3, 2, 1] ∧ (form? k t).isSome = true := by
  refine ⟨parts.length, ⟨length_mem h, ?_⟩, ?_⟩
  · rw [(form?_eq_some_iff (le_of_mem_forms _ (length_mem h))).2 ⟨rfl, h⟩]
    rfl
  · rintro k ⟨hk, hsome⟩
    obtain ⟨qs, hqs⟩ := Option.isSome_iff_exists.1 hsome
    obtain ⟨rfl, hsplit⟩ := (form?_eq_some_iff (le_of_mem_forms k hk)).1 hqs
    rw [Option.some.inj (hsplit.symm.trans h)]

/-! The pattern of a specification, which has all four parts. -/

/-- The parts of the pattern. -/
def filled (parts : List (Option Text)) : List (Option Text) :=
  (named parts).map fun p => some (p.getD ['*'])

private theorem specText_filled (parts : List (Option Text)) :
    specText (filled parts) = pattern parts := by
  rw [specText, filled, List.map_map]
  rfl

private theorem pattern_filled (parts : List (Option Text)) :
    pattern (filled parts) = pattern parts := rfl

private theorem isSpec_filled (h : ∀ p ∈ parts, IsPart p) : IsSpec (filled parts) := by
  refine ⟨List.cons_ne_nil _ _, le_refl 4, ?_, fun hnil => nomatch hnil⟩
  have hnamed : ∀ p ∈ named parts, IsPart p := by
    refine List.forall_mem_map.2 fun i _ => ?_
    cases hi : parts[i]? with
    | none => exact nofun
    | some p => exact h p (List.mem_of_getElem? hi)
  refine List.forall_mem_map.2 fun p hp => ?_
  cases p with
  | none =>
    rintro _ ⟨⟩
    exact ⟨List.cons_ne_nil _ _, List.forall_mem_singleton.2 rfl⟩
  | some t => exact hnamed _ hp

/-- A text is split into parts exactly if it has one of the four forms, and then it has only one: it
is not empty and made of the right characters and three colons at most. There is a part more than
there are colons, none is empty, and the text is that of the parts. Conversely the text of any parts
that a specification may have is split into these parts. The pattern is split into four parts, all
of them there, and is the pattern of these. -/
theorem split?_exact :
    (∀ t, ((split? t).isSome = true ↔
        t ≠ [] ∧ (∀ c ∈ t, isSpecChar c = true ∨ c = ':') ∧ t.count ':' ≤ 3) ∧
      (∀ order : List Nat, order.Perm [4, 3, 2, 1] →
        order.findSome? (form? · t) = split? t) ∧
      ∀ parts, split? t = some parts →
        (∃! k, k ∈ [4, 3, 2, 1] ∧ (form? k t).isSome = true) ∧
          parts.length = t.count ':' + 1 ∧ some [] ∉ parts ∧ specText parts = t) ∧
    ∀ parts, 1 ≤ parts.length → parts.length ≤ 4 → (∀ p ∈ parts, IsPart p) →
      (parts ≠ [none] → split? (specText parts) = some parts) ∧
      ∃ qs, split? (pattern parts) = some qs ∧ qs.length = 4 ∧ none ∉ qs ∧
        pattern qs = pattern parts := by
  refine ⟨fun t => ⟨?_, fun order => findSome?_form?, fun parts h => ⟨existsUnique_form h, ?_⟩⟩,
    fun parts hpos hle hparts => ⟨fun hne => ?_, filled parts, ?_, rfl, ?_, pattern_filled parts⟩⟩
  · rw [split?, Option.isSome_ite, List.all_eq_true]
    simp only [Bool.or_eq_true, beq_iff_eq]
  · obtain ⟨hspec, htext⟩ := split?_eq_some_iff.1 h
    rw [split?, Option.ite_none_right_eq_some] at h
    refine ⟨?_, fun hempty => (hspec.isPart _ hempty [] rfl).1 rfl, htext⟩
    rw [← Option.some.inj h.2, List.length_map, Text.length_pieces]
  · exact split?_eq_some_iff.2 ⟨⟨List.length_pos_iff.1 hpos, hle, hparts, hne⟩, rfl⟩
  · exact split?_eq_some_iff.2 ⟨isSpec_filled hparts, specText_filled parts⟩
  · intro hnone
    obtain ⟨p, -, hp⟩ := List.mem_map.1 hnone
    cases hp

/-- A missing package between the provider and the event, and no mode. -/
theorem split?_exact_package :
    split? "a::b*".toList = some [some ['a'], none, some "b*".toList] ∧
      ∃ qs, split? "a:*:b*:*".toList = some qs ∧ qs.length = 4 ∧ none ∉ qs := by
  have hparts : ∀ p ∈ [some ['a'], none, some "b*".toList], IsPart p := by
    rintro p hp t rfl
    simp at hp
    rcases hp with rfl | rfl <;> exact ⟨by decide, Text.forall_mem_of_all (by decide)⟩
  obtain ⟨hsplit, qs, hqs, hlen, hnone, -⟩ :=
    split?_exact.2 _ (by decide) (by decide) hparts
  exact ⟨hsplit (by decide), qs, hqs, hlen, hnone⟩

end ProbeScript.ProbeSpec
