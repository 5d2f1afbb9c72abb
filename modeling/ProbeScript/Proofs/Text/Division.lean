import ProbeScript.Proofs.Phrase.Letter
import ProbeScript.Proofs.Text.Row

/-! How a text divides into segments, said without the scan that finds them. A block comment goes up
to the first place where as many comments are closed as opened in it; a segment that cannot be
formed ends the division, and there is one reason for it. -/
namespace ProbeScript.Segment

variable {c : Char} {s : Segment} {t u p rest after body : Text} {ss : List Segment} {depth i : Nat}

/-- The marks of block comments from left to right, `true` for one that opens. No mark begins within
another. -/
def marks : Text → List Bool
  | '/' :: '*' :: rest => true :: marks rest
  | '*' :: '/' :: rest => false :: marks rest
  | _ :: rest => marks rest
  | [] => []

/-- How many comments are opened in the text. -/
def opened (t : Text) : Nat := (marks t).count true

/-- How many comments are closed in the text. -/
def closed (t : Text) : Nat := (marks t).count false

@[simp] theorem opened_nil : opened [] = 0 := rfl

@[simp] theorem closed_nil : closed [] = 0 := rfl

@[simp] theorem opened_open (t : Text) : opened ('/' :: '*' :: t) = opened t + 1 := by
  simp [opened, marks]

@[simp] theorem closed_open (t : Text) : closed ('/' :: '*' :: t) = closed t := by
  simp [closed, marks]

@[simp] theorem opened_close (t : Text) : opened ('*' :: '/' :: t) = opened t := by
  simp [opened, marks]

@[simp] theorem closed_close (t : Text) : closed ('*' :: '/' :: t) = closed t + 1 := by
  simp [closed, marks]

private theorem marks_cons (hopen : ∀ r, c = '/' → t ≠ '*' :: r)
    (hclose : ∀ r, c = '*' → t ≠ '/' :: r) :
    marks (c :: t) = marks t := by
  rw [marks]
  · rintro r rfl rfl
    exact hopen r rfl rfl
  · rintro r rfl rfl
    exact hclose r rfl rfl

/-- The text closes one comment more than `depth` and those that it opens. -/
def Settles (depth : Nat) (t : Text) : Prop := closed t = opened t + depth + 1

namespace Settles

private theorem open_iff : Settles depth ('/' :: '*' :: t) ↔ Settles (depth + 1) t := by
  simp only [Settles, opened_open, closed_open]
  omega

private theorem close_iff : Settles (depth + 1) ('*' :: '/' :: t) ↔ Settles depth t := by
  simp only [Settles, opened_close, closed_close]
  omega

private theorem cons_iff (hopen : ∀ r, c = '/' → t ≠ '*' :: r)
    (hclose : ∀ r, c = '*' → t ≠ '/' :: r) :
    Settles depth (c :: t) ↔ Settles depth t := by
  simp only [Settles, opened, closed, marks_cons hopen hclose]

private theorem not_nil : ¬ Settles depth [] := by
  simp [Settles]

private theorem not_singleton (c : Char) : ¬ Settles depth [c] := by
  rw [cons_iff (by simp) (by simp)]
  exact not_nil

/-- What opens and closes nothing does so before any part of what follows. -/
private theorem cons_iff_of_isPrefix (hopen : ∀ r, c = '/' → t ≠ '*' :: r)
    (hclose : ∀ r, c = '*' → t ≠ '/' :: r) (hp : p <+: t) :
    Settles depth (c :: p) ↔ Settles depth p := by
  obtain ⟨u, rfl⟩ := hp
  apply cons_iff
  · rintro r hc rfl
    exact hopen (r ++ u) hc rfl
  · rintro r hc rfl
    exact hclose (r ++ u) hc rfl

/-- What is no closing mark at depth zero nor deeper is none. -/
private theorem ne_close (hlast : ∀ r, depth = 0 → c = '*' → rest = '/' :: r → False)
    (hclose : ∀ d r, depth = d + 1 → c = '*' → rest = '/' :: r → False) :
    ∀ r, c = '*' → rest ≠ '/' :: r := by
  intro r hc
  cases depth with
  | zero => exact hlast r rfl hc
  | succ depth => exact hclose depth r rfl hc

private theorem of_closeBlock (h : closeBlock depth t = some (body, after)) :
    Settles depth body := by
  fun_induction closeBlock depth t generalizing body with
  | case5 => cases h
  | case2 =>
    obtain ⟨rfl, rfl⟩ := Prod.mk.inj (Option.some.inj h)
    rfl
  | case1 depth rest ih =>
    obtain ⟨⟨b, a⟩, hb, he⟩ := Option.map_eq_some_iff.1 h
    obtain ⟨rfl, rfl⟩ := Prod.mk.inj he
    exact open_iff.2 (ih hb)
  | case3 depth rest ih =>
    obtain ⟨⟨b, a⟩, hb, he⟩ := Option.map_eq_some_iff.1 h
    obtain ⟨rfl, rfl⟩ := Prod.mk.inj he
    exact close_iff.2 (ih hb)
  | case4 depth c rest hopen hlast hclose ih =>
    obtain ⟨⟨b, a⟩, hb, he⟩ := Option.map_eq_some_iff.1 h
    obtain ⟨rfl, rfl⟩ := Prod.mk.inj he
    have hclose' := ne_close hlast hclose
    exact (cons_iff_of_isPrefix hopen hclose' ⟨a, (closeBlock_append hb).symm⟩).2 (ih hb)

/-- What closes enough is no less than a mark. -/
private theorem exists_of_isPrefix {d : Char} (h : Settles depth p) (hp : p <+: c :: d :: rest) :
    ∃ q, p = c :: d :: q ∧ q <+: rest := by
  obtain rfl | ⟨r, rfl, hr⟩ := List.prefix_cons_iff.1 hp
  · exact absurd h not_nil
  obtain rfl | ⟨q, rfl, hq⟩ := List.prefix_cons_iff.1 hr
  · exact absurd h (not_singleton c)
  · exact ⟨q, rfl, hq⟩

/-- A text that closes enough holds all of the comment. -/
private theorem exists_closeBlock (h : Settles depth p) (hp : p <+: t) :
    ∃ body after, closeBlock depth t = some (body, after) ∧ body <+: p := by
  fun_induction closeBlock depth t generalizing p with
  | case5 =>
    obtain rfl := List.prefix_nil.1 hp
    exact absurd h not_nil
  | case1 depth rest ih =>
    obtain ⟨q, rfl, hq⟩ := h.exists_of_isPrefix hp
    obtain ⟨b, a, hb, hbq⟩ := ih (open_iff.1 h) hq
    refine ⟨'/' :: '*' :: b, a, by rw [hb, Option.map_some], ?_⟩
    simpa using hbq
  | case2 rest =>
    obtain ⟨q, rfl, hq⟩ := h.exists_of_isPrefix hp
    exact ⟨['*', '/'], rest, rfl, List.prefix_append ['*', '/'] q⟩
  | case3 depth rest ih =>
    obtain ⟨q, rfl, hq⟩ := h.exists_of_isPrefix hp
    obtain ⟨b, a, hb, hbq⟩ := ih (close_iff.1 h) hq
    refine ⟨'*' :: '/' :: b, a, by rw [hb, Option.map_some], ?_⟩
    simpa using hbq
  | case4 depth c rest hopen hlast hclose ih =>
    obtain rfl | ⟨q, rfl, hq⟩ := List.prefix_cons_iff.1 hp
    · exact absurd h not_nil
    have hclose' := ne_close hlast hclose
    obtain ⟨b, a, hb, hbq⟩ := ih ((cons_iff_of_isPrefix hopen hclose' hq).1 h) hq
    refine ⟨c :: b, a, by rw [hb, Option.map_some], ?_⟩
    simpa using hbq

end Settles

/-- A comment ends where, for the first time, enough is closed. -/
theorem closeBlock_eq_some_iff : closeBlock depth t = some (body, after) ↔
    t = body ++ after ∧ Settles depth body ∧ ∀ p, p <+: body → p ≠ body → ¬ Settles depth p := by
  constructor
  · intro h
    have ht := closeBlock_append h
    refine ⟨ht, .of_closeBlock h, fun p hp hne hsettles => hne ?_⟩
    obtain ⟨b, a, hb, hbp⟩ := hsettles.exists_closeBlock (hp.trans ⟨after, ht.symm⟩)
    obtain ⟨rfl, rfl⟩ := Prod.mk.inj (Option.some.inj (h.symm.trans hb))
    exact hp.eq_of_length_le hbp.length_le
  · rintro ⟨rfl, hbody, hleast⟩
    obtain ⟨b, a, hb, hprefix⟩ := hbody.exists_closeBlock (List.prefix_append body after)
    have hbody' : b = body := by
      by_contra hne
      exact hleast b hprefix hne (.of_closeBlock hb)
    subst hbody'
    rw [hb, List.append_cancel_left (closeBlock_append hb)]

theorem closeBlock_eq_none_iff : closeBlock depth t = none ↔ ∀ p, p <+: t → ¬ Settles depth p := by
  constructor
  · intro h p hp hsettles
    obtain ⟨b, a, hb, -⟩ := hsettles.exists_closeBlock hp
    rw [h] at hb
    cases hb
  · intro h
    cases hb : closeBlock depth t with
    | none => rfl
    | some found =>
      exact absurd (.of_closeBlock hb) (h found.1 ⟨found.2, (closeBlock_append hb).symm⟩)

/-- A complete block comment, from its first opening mark to the place where as many are closed as
opened, for the first time after that mark. -/
structure IsBlock (body : Text) : Prop where
  opens : "/*".toList <+: body
  settled : closed body = opened body
  first : ∀ p, "/*".toList <+: p → p <+: body → p ≠ body → closed p ≠ opened p

private theorem exists_of_opens (h : "/*".toList <+: t) : ∃ r, t = '/' :: '*' :: r := by
  obtain ⟨r, rfl⟩ := h
  exact ⟨r, rfl⟩

private theorem settled_open_iff :
    closed ('/' :: '*' :: t) = opened ('/' :: '*' :: t) ↔ Settles 0 t := by
  simp [Settles]

private theorem isBlock_iff : IsBlock ('/' :: '*' :: body) ↔
    Settles 0 body ∧ ∀ p, p <+: body → p ≠ body → ¬ Settles 0 p := by
  constructor
  · intro h
    refine ⟨settled_open_iff.1 h.settled, fun p hp hne hsettles => ?_⟩
    apply h.first ('/' :: '*' :: p) ⟨p, rfl⟩ (by simpa using hp) (by simpa using hne)
    exact settled_open_iff.2 hsettles
  · rintro ⟨hbody, hleast⟩
    refine ⟨⟨body, rfl⟩, settled_open_iff.2 hbody, fun p hopens hp hne hsettled => ?_⟩
    obtain ⟨q, rfl⟩ := exists_of_opens hopens
    exact hleast q (by simpa using hp) (by simpa using hne) (settled_open_iff.1 hsettled)

/-- The marks with which a string or a comment begins. -/
def openers : List Text := ["\"".toList, "//".toList, "/*".toList]

/-- What a segment is made of, before the text that follows it. -/
def Stands (after : Text) : Segment → Prop
  | string inner => '"' ∉ inner
  | lineComment body => "//".toList <+: body ∧ '\n' ∉ body ∧ ∀ d ∈ after.head?, d = '\n'
  | blockComment body => IsBlock body
  | plain c => c ∈ alphabet ∧ ∀ mark ∈ openers, ¬ mark <+: c :: after

/-- The segments stand one after the other at the head of the first text; the second is left. -/
inductive Divides : Text → List Segment → Text → Prop
  | done (t : Text) : Divides t [] t
  | more {s : Segment} {ss : List Segment} {after u : Text} :
    s.Stands after → Divides after ss u → Divides (s.text ++ after) (s :: ss) u

/-- No segment can be formed at the head of the text, whose first character stands at the index. -/
inductive Unformed (index : Nat) : Text → Fault → Prop
  | character {c : Char} {rest : Text} : c ≠ '"' → c ∉ alphabet →
    Unformed index (c :: rest) (.invalidCharacter index c)
  | string {rest : Text} : '"' ∉ rest → Unformed index ('"' :: rest) .openString
  | comment {t : Text} : "/*".toList <+: t → (∀ body, body <+: t → ¬ IsBlock body) →
    Unformed index t (.openComment index)

/-- What stands alone opens neither a string nor a comment. -/
private theorem not_opener_iff : (∀ mark ∈ openers, ¬ mark <+: c :: rest) ↔
    c ≠ '"' ∧ (∀ r, c = '/' → rest ≠ '/' :: r) ∧ ∀ r, c = '/' → rest ≠ '*' :: r := by
  simp only [openers, List.forall_mem_cons]
  constructor
  · rintro ⟨hstring, hline, hblock, -⟩
    refine ⟨?_, ?_, ?_⟩
    · rintro rfl
      exact hstring ⟨rest, rfl⟩
    · rintro r rfl rfl
      exact hline ⟨r, rfl⟩
    · rintro r rfl rfl
      exact hblock ⟨r, rfl⟩
  · rintro ⟨hstring, hline, hblock⟩
    refine ⟨?_, ?_, ?_, by simp⟩
    · rintro ⟨r, hr⟩
      exact hstring (List.cons.inj hr).1.symm
    · rintro ⟨r, hr⟩
      obtain ⟨hc, hrest⟩ := List.cons.inj hr
      exact hline r hc.symm hrest.symm
    · rintro ⟨r, hr⟩
      obtain ⟨hc, hrest⟩ := List.cons.inj hr
      exact hblock r hc.symm hrest.symm

private theorem stands_of_first (h : first i c rest = .ok (s, after)) : s.Stands after := by
  revert h
  fun_cases first i c rest with
  | case1 | case4 | case7 => intro h; cases h
  | case2 rest =>
    rintro ⟨⟩
    exact not_mem_takeWhile '"' rest
  | case3 rest =>
    rintro ⟨⟩
    refine ⟨⟨_, rfl⟩, ?_, head?_dropWhile_line rest⟩
    simpa using not_mem_takeWhile '\n' rest
  | case5 rest body tail hb =>
    rintro ⟨⟩
    exact isBlock_iff.2 (closeBlock_eq_some_iff.1 hb).2
  | case6 c rest hstring hline hblock halphabet =>
    rintro ⟨⟩
    exact ⟨inAlphabet_iff.1 halphabet, not_opener_iff.2 ⟨hstring, hline, hblock⟩⟩

private theorem first_of_stands (h : s.Stands after) :
    ∃ c rest, s.text ++ after = c :: rest ∧ first 0 c rest = .ok (s, after) := by
  cases s with
  | string inner => exact ⟨'"', inner ++ '"' :: after, by simp [text], first_string h after⟩
  | lineComment body =>
    obtain ⟨⟨r, rfl⟩, hline, hafter⟩ := h
    have hr : '\n' ∉ r := fun hr => hline (List.mem_append_right _ hr)
    exact ⟨'/', '/' :: r ++ after, rfl, first_line hr hafter⟩
  | blockComment body =>
    obtain ⟨r, rfl⟩ := exists_of_opens (IsBlock.opens h)
    refine ⟨'/', '*' :: r ++ after, rfl, ?_⟩
    rw [List.cons_append, first, closeBlock_eq_some_iff.2 ⟨rfl, isBlock_iff.1 h⟩]
  | plain c =>
    obtain ⟨halphabet, hopeners⟩ := h
    obtain ⟨hstring, hline, hblock⟩ := not_opener_iff.1 hopeners
    refine ⟨c, after, rfl, ?_⟩
    rw [first_other 0 hstring hline hblock, if_pos (inAlphabet_iff.2 halphabet)]

/-- A block comment has an end exactly if some part of the text is one. -/
private theorem forall_not_isBlock_iff :
    (∀ body, body <+: '/' :: '*' :: rest → ¬ IsBlock body) ↔ closeBlock 0 rest = none := by
  constructor
  · intro h
    cases hb : closeBlock 0 rest with
    | none => rfl
    | some found =>
      obtain ⟨hrest, hblock⟩ := closeBlock_eq_some_iff.1 hb
      apply absurd (isBlock_iff.2 hblock)
      apply h
      exact ⟨found.2, by rw [hrest]; rfl⟩
  · intro h body hp hblock
    obtain ⟨r, rfl⟩ := exists_of_opens hblock.opens
    have hr : r <+: rest := by simpa using hp
    exact closeBlock_eq_none_iff.1 h r hr (isBlock_iff.1 hblock).1

theorem first_eq_error_iff {f : Fault} : first i c rest = .error f ↔ Unformed i (c :: rest) f := by
  constructor
  · intro h
    revert h
    fun_cases first i c rest with
    | case2 | case3 | case5 | case6 => intro h; cases h
    | case1 rest hdrop =>
      rintro ⟨⟩
      apply Unformed.string
      simpa using List.dropWhile_eq_nil_iff.1 hdrop '"'
    | case4 rest hb =>
      rintro ⟨⟩
      exact .comment ⟨rest, rfl⟩ (forall_not_isBlock_iff.2 hb)
    | case7 c rest hstring _ _ halphabet =>
      rintro ⟨⟩
      exact .character hstring fun hc => halphabet (inAlphabet_iff.2 hc)
  · intro h
    generalize ht : c :: rest = t at h
    cases h with
    | character hstring halphabet =>
      obtain ⟨rfl, rfl⟩ := List.cons.inj ht
      rw [first_other i hstring, if_neg fun hc => halphabet (inAlphabet_iff.1 hc)]
      · rintro r rfl
        exact absurd (inAlphabet_iff.1 rfl) halphabet
      · rintro r rfl
        exact absurd (inAlphabet_iff.1 rfl) halphabet
    | string hrest =>
      obtain ⟨rfl, rfl⟩ := List.cons.inj ht
      have hdrop : rest.dropWhile (· != '"') = [] := by
        rw [List.dropWhile_eq_nil_iff]
        intro d hd
        simpa using fun he : d = '"' => hrest (he ▸ hd)
      rw [first, hdrop]
    | comment hopens hblock =>
      obtain ⟨r, rfl⟩ := exists_of_opens hopens
      obtain ⟨rfl, rfl⟩ := List.cons.inj ht
      rw [first, forall_not_isBlock_iff.1 hblock]

theorem row_iff_divides : Row t ss u ↔ Divides t ss u := by
  constructor
  · intro h
    induction h with
    | done t => exact .done t
    | more hs _ ih =>
      rw [first_append hs]
      exact .more (stands_of_first hs) ih
  · intro h
    induction h with
    | done t => exact .done t
    | more hs _ ih =>
      obtain ⟨c, rest, ht, hfirst⟩ := first_of_stands hs
      rw [ht]
      exact .more hfirst ih

private theorem Unformed.exists_cons {f : Fault} (h : Unformed i t f) :
    ∃ c rest, t = c :: rest := by
  cases h with
  | character | string => exact ⟨_, _, rfl⟩
  | comment hopens =>
    obtain ⟨r, rfl⟩ := exists_of_opens hopens
    exact ⟨_, _, rfl⟩

/-- The division stops at the first segment that cannot be formed. -/
theorem split_eq_error_iff {f : Fault} : split i t = .error f ↔
    ∃ ss rest, Divides t ss rest ∧ Unformed (i + (ss.flatMap text).length) rest f := by
  constructor
  · intro h
    fun_induction split i t with
    | case1 | case4 => cases h
    | case2 i c rest f' hfirst =>
      cases h
      exact ⟨[], c :: rest, .done _, first_eq_error_iff.1 hfirst⟩
    | case3 i c rest s after hfirst f' hrest ih =>
      cases h
      obtain ⟨ss, u, hss, hu⟩ := ih hrest
      refine ⟨s :: ss, u, ?_, ?_⟩
      · rw [first_append hfirst]
        exact .more (stands_of_first hfirst) hss
      · rwa [List.flatMap_cons, List.length_append, ← Nat.add_assoc]
  · rintro ⟨ss, rest, hss, hrest⟩
    induction hss generalizing i with
    | done t =>
      obtain ⟨c, r, rfl⟩ := hrest.exists_cons
      have hfirst : first i c r = .error f := first_eq_error_iff.2 hrest
      rw [split, hfirst]
    | @more s ss after u hs _ ih =>
      obtain ⟨c, r, ht, hfirst⟩ := first_of_stands hs
      rw [List.flatMap_cons, List.length_append, ← Nat.add_assoc] at hrest
      rw [ht, split, first_index hfirst i]
      dsimp only
      rw [ih hrest]

end ProbeScript.Segment
