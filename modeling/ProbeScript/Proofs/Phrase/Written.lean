import ProbeScript.Proofs.Phrase.Scan
import ProbeScript.Proofs.Text.Row

/-! Texts written so that they can be read: wherever such a text stands before a separator it falls
into the tokens of a phrase, and no comment begins in it. They are put together out of words. -/
namespace ProbeScript.Phrase

open Segment (Kept)

private theorem Terminal.Spells.slash_not_mem {terminal : Terminal} {w : Text}
    (h : terminal.Spells w) (hs : terminal ≠ .string) (hm : terminal.family ≠ .multiplicative) :
    '/' ∉ w := by
  cases h with
  | @numeral r ds hne hall hzero =>
    intro hmem
    rcases List.mem_append.1 hmem with hmem | hmem
    · revert hmem
      cases r <;> decide
    · exact absurd (Radix.isAlphanum_of_isDigit (hall _ hmem)) (by decide)
  | symbol op => cases op <;> first | exact absurd rfl hm | decide
  | quoted => exact absurd rfl hs
  | @named c ds hc hall =>
    intro hmem
    rcases List.mem_cons.1 hmem with rfl | hmem
    · cases hc
    · exact absurd (hall _ hmem) (by decide)
  | spec hne hall => exact fun hmem => absurd (hall _ hmem) (by decide)
  | @mark _ m hm' =>
    intro hmem
    obtain rfl := List.mem_singleton.1 hmem
    cases terminal <;> cases hm'
    exact hm rfl

/-- Comments begin with a slash, which few words hold. -/
theorem Terminal.Spells.kept {terminal : Terminal} {w : Text} (h : terminal.Spells w)
    (hs : terminal ≠ .string) (hm : terminal.family ≠ .multiplicative) : Kept w := by
  refine .word fun c hc => ⟨?_, fun he => h.slash_not_mem hs hm (he ▸ hc)⟩
  have hsolid := h.solid hs c hc
  rw [Terminal.isSolid, Bool.and_eq_true] at hsolid
  exact hsolid.1

/-- After a mark anything may come. -/
theorem Terminal.takes_mark {terminal : Terminal} {m : Char}
    (hm : terminal.punctuation? = some m) (t : Text) : terminal.Takes (m :: t) [m] := by
  have htakes : terminal.Takes ([m] ++ t) [m] := by
    refine Terminal.takes_append_iff.2 ⟨.mark hm, fun c _ => ?_⟩
    cases terminal <;> cases hm <;> rfl
  exact htakes

/-- Nothing that comes after a word is drawn into it if it begins with a separator. -/
def Separated (t : Text) : Prop := ∀ c ∈ t.head?, c ∈ Terminal.separators

theorem separated_cons {c : Char} {t : Text} (h : c ∈ Terminal.separators) : Separated (c :: t) :=
  fun _ hd => Option.some.inj hd ▸ h

theorem Separated.append {t u : Text} (ht : Separated t) (hu : Separated u) :
    Separated (t ++ u) := by
  cases t with
  | nil => exact hu
  | cons c t => exact separated_cons (ht c rfl)

/-- Before a separator the text falls into the tokens of something with the property. -/
structure Written {α : Type} (tokens : α → List Token) (P : α → Prop) (t : Text) : Prop where
  kept : Kept t
  scans : ∀ i rest, Separated rest → ∃ a j, Scans i (t ++ rest) (tokens a) j rest ∧ P a

namespace Written
variable {α β : Type} {tokens : α → List Token} {tokens' : β → List Token} {P : α → Prop}
  {Q : β → Prop} {t u w : Text} {c m : Char}

theorem map (h : Written tokens P t) (f : α → β) (htokens : ∀ a, tokens' (f a) = tokens a)
    (hP : ∀ a, P a → Q (f a)) : Written tokens' Q t := by
  refine ⟨h.kept, fun i rest hrest => ?_⟩
  obtain ⟨a, j, hscans, ha⟩ := h.scans i rest hrest
  exact ⟨f a, j, by rwa [htokens], hP a ha⟩

theorem nil (a : α) (hP : P a) (htokens : tokens a = []) : Written tokens P [] := by
  refine ⟨.nil, fun i rest _ => ⟨a, i, ?_, hP⟩⟩
  rw [htokens]
  exact .done i rest

theorem append (ht : Written tokens P t) (hu : Written tokens' Q u) (hsep : Separated u) :
    Written (fun x : α × β => tokens x.1 ++ tokens' x.2) (fun x => P x.1 ∧ Q x.2) (t ++ u) := by
  refine ⟨ht.kept.append hu.kept, fun i rest hrest => ?_⟩
  obtain ⟨a, j, ha, hP⟩ := ht.scans i (u ++ rest) (hsep.append hrest)
  obtain ⟨b, k, hb, hQ⟩ := hu.scans j rest hrest
  exact ⟨(a, b), k, by rw [List.append_assoc]; exact ha.append hb, hP, hQ⟩

theorem layout (h : Written tokens P t) (hc : Text.isLayout c = true) :
    Written tokens P (c :: t) := by
  have hkept : Kept [c] := .char (by simp [Segment.inAlphabet, hc]) (by rintro rfl; cases hc)
  refine ⟨hkept.append h.kept, fun i rest hrest => ?_⟩
  obtain ⟨a, j, hscans, ha⟩ := h.scans (i + 1) rest hrest
  exact ⟨a, j, .layout hc hscans, ha⟩

/-- A word before a separator. -/
theorem word {terminal : Terminal} (hw : terminal.Spells w) (hk : Kept w) :
    Written (fun l : Lexeme => [⟨terminal, l⟩]) (·.text = w) w := by
  refine ⟨hk, fun i rest hrest => ⟨⟨i, w⟩, i + w.length, ?_, rfl⟩⟩
  have htakes : terminal.Takes (w ++ rest) w := Terminal.takes_append_iff.2
    ⟨hw, fun c hc => Terminal.goesOn_of_mem_separators (hrest c hc)⟩
  refine .token htakes ?_
  rw [List.drop_left]
  exact .done _ rest

theorem name (hw : Terminal.name.Spells w) :
    Written (fun l : Lexeme => [⟨.name, l⟩]) (·.text = w) w :=
  .word hw (hw.kept (by decide) (by decide))

private theorem mark_of_kept (terminal : Terminal) (h : Written tokens P t)
    (hm : terminal.punctuation? = some m) (hk : Kept (m :: t)) :
    Written (fun x : Lexeme × α => ⟨terminal, x.1⟩ :: tokens x.2) (fun x => P x.2) (m :: t) := by
  refine ⟨hk, fun i rest hrest => ?_⟩
  obtain ⟨a, j, hscans, ha⟩ := h.scans (i + 1) rest hrest
  exact ⟨(⟨i, [m]⟩, a), j, .token (Terminal.takes_mark hm _) hscans, ha⟩

/-- After a mark other than a slash anything may come. -/
theorem mark (terminal : Terminal) (h : Written tokens P t) (hm : terminal.punctuation? = some m)
    (hf : terminal.family ≠ .multiplicative) :
    Written (fun x : Lexeme × α => ⟨terminal, x.1⟩ :: tokens x.2) (fun x => P x.2) (m :: t) := by
  have hs : terminal ≠ .string := by
    rintro rfl
    cases hm
  exact h.mark_of_kept terminal hm (((Terminal.Spells.mark hm).kept hs hf).append h.kept)

/-- A slash and a space, which keeps it from opening a comment. -/
theorem slash (h : Written tokens P t) :
    Written (fun x : Lexeme × α => ⟨.slash, x.1⟩ :: tokens x.2) (fun x => P x.2)
      ('/' :: ' ' :: t) := by
  have hspace := h.layout (c := ' ') rfl
  exact hspace.mark_of_kept .slash rfl (hspace.kept.slash (by decide) (by decide))

theorem enclosed (h : Written tokens P t) :
    Written (fun x : Lexeme × α × Lexeme => ⟨.lpar, x.1⟩ :: (tokens x.2.1 ++ [⟨.rpar, x.2.2⟩]))
      (fun x => P x.2.1) ('(' :: t ++ [')']) := by
  have hrpar : Written (fun l : Lexeme => [⟨.rpar, l⟩]) (·.text = [')']) [')'] :=
    .word (.mark rfl) (.char rfl (by decide))
  have hinner := h.append hrpar (separated_cons (by decide))
  exact (hinner.mark .lpar rfl (by decide)).map id (fun _ => rfl) fun _ hx => hx.1

/-- An operator, with a space between it and the rest. -/
theorem symbol (h : Written tokens P t) (op : Operator) :
    Written (fun x : Joint × α => x.1.token :: tokens x.2) (fun x => x.1.op = op ∧ P x.2)
      (op.symbol ++ ' ' :: t) := by
  have hspace : Kept (' ' :: t) := (Kept.char rfl (by decide)).append h.kept
  have hkept : Kept (op.symbol ++ ' ' :: t) := by
    by_cases hop : op = .divide
    · subst hop
      exact hspace.slash (by decide) (by decide)
    · refine .append (.word ?_) hspace
      exact Text.forall_mem_of_all (by revert hop; cases op <;> decide)
  refine ⟨hkept, fun i rest hrest => ?_⟩
  obtain ⟨a, j, hscans, ha⟩ := h.scans (i + op.symbol.length + 1) rest hrest
  have htakes : (Terminal.ofOperator op).Takes (op.symbol ++ (' ' :: t ++ rest)) op.symbol := by
    refine Terminal.takes_append_iff.2 ⟨.symbol op, fun c hc => ?_⟩
    obtain rfl := Option.some.inj hc
    exact Terminal.goesOn_of_mem_separators (by decide)
  refine ⟨(⟨op, i⟩, a), j, ?_, rfl, ha⟩
  rw [List.append_assoc]
  refine .token htakes ?_
  rw [List.drop_left]
  exact .layout rfl hscans

end Written
end ProbeScript.Phrase
