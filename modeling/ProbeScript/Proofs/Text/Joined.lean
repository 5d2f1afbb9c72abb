import Mathlib.Data.String.Basic
import ProbeScript.Proofs.Text.Row

/-! A text behind another one and a line feed. The line feed ends whatever comment the first text
ends with, so the second text falls into the segments that it falls into alone, or has the same
fault, further on. -/
namespace ProbeScript

open Text

/-- The place in a text once the text stands behind another one and a line feed. -/
def Position.after (s : Text) (p : Position) : Position where
  offset := p.offset + (String.ofList s).utf8ByteSize + 1
  line := p.line + s.count '\n' + 1
  column := p.column

/-- Adding up the bytes of the characters counts the bytes of the text. -/
theorem Text.foldr_utf8Size (t : Text) :
    t.foldr (fun c bytes => c.utf8Size + bytes) 0 = (String.ofList t).utf8ByteSize := by
  rw [String.utf8ByteSize_ofList]
  induction t with
  | nil => rfl
  | cons c t ih => rw [List.foldr_cons, ih, String.utf8Len_cons, Nat.add_comm]

/-- A line begins after a line feed. -/
private theorem lastLine_append (s t : Text) : lastLine (s ++ '\n' :: t) = lastLine t := by
  have hfeed : ('\n' :: s.reverse).takeWhile (· != '\n') = [] := rfl
  rw [lastLine, lastLine, List.reverse_append, List.reverse_cons, List.append_assoc,
    List.singleton_append, List.takeWhile_append, hfeed, List.append_nil]
  split
  case isTrue h => rw [(List.takeWhile_prefix _).eq_of_length h]
  case isFalse => rfl

theorem Position.at_append (s t : Text) (i : Nat) :
    Position.at (s ++ '\n' :: t) (s.length + 1 + i) = (Position.at t i).after s := by
  have htake : (s ++ '\n' :: t).take (s.length + 1 + i) = s ++ '\n' :: t.take i := by
    rw [Nat.add_assoc, List.take_length_add_append, Nat.add_comm, List.take_succ_cons]
  have hoffset : (String.ofList (s ++ '\n' :: t.take i)).utf8ByteSize =
      (String.ofList (t.take i)).utf8ByteSize + (String.ofList s).utf8ByteSize + 1 := by
    simp only [String.utf8ByteSize_ofList, String.utf8Len_append, String.utf8Len_cons]
    rw [show Char.utf8Size '\n' = 1 from rfl]
    omega
  have hline : (s ++ '\n' :: t.take i).count '\n' = (t.take i).count '\n' + s.count '\n' + 1 := by
    rw [List.count_append, List.count_cons_self]
    omega
  have hpast : s.length + 1 + i - (s ++ '\n' :: t).length = i - t.length := by
    rw [List.length_append, List.length_cons]
    omega
  simp only [Position.at, after, htake, lastLine_append, foldr_utf8Size, hoffset, hline, hpast,
    mk.injEq, true_and, and_true]
  omega

namespace Segment
variable {c : Char} {s : Segment} {t u v rest after : Text} {ss : List Segment}

/-- The fault of a text that stands further on. -/
def Fault.moved (k : Nat) : Fault → Fault
  | invalidCharacter index c => invalidCharacter (k + index) c
  | openString => openString
  | openComment index => openComment (k + index)

private theorem first_moved (k i : Nat) (c : Char) (rest : Text) :
    first (k + i) c rest = (first i c rest).mapError (Fault.moved k) := by
  fun_cases first i c rest with
  | case1 rest h => simp [first, h, Except.mapError, Fault.moved]
  | case2 rest q after h => simp [first, h, Except.mapError]
  | case3 rest => simp [first, Except.mapError]
  | case4 rest h => simp [first, h, Except.mapError, Fault.moved]
  | case5 rest body after h => simp [first, h, Except.mapError]
  | case6 c rest hstring hline hblock halphabet =>
    rw [first_other (k + i) hstring hline hblock, if_pos halphabet]
    rfl
  | case7 c rest hstring hline hblock halphabet =>
    rw [first_other (k + i) hstring hline hblock, if_neg halphabet]
    rfl

private theorem split_moved (k i : Nat) (t : Text) :
    split (k + i) t = (split i t).mapError (Fault.moved k) := by
  fun_induction split i t with
  | case1 i => rw [split]; rfl
  | case2 i c rest fault h =>
    rw [split, first_moved, h]
    rfl
  | case3 i c rest s after h fault hafter ih =>
    rw [split, first_moved, h]
    simp only [Except.mapError]
    rw [Nat.add_assoc, ih, hafter]
    rfl
  | case4 i c rest s after h ss hafter ih =>
    rw [split, first_moved, h]
    simp only [Except.mapError]
    rw [Nat.add_assoc, ih, hafter]
    rfl

/-- The segments at the head of a text are those of the text, followed by those of the rest. -/
private theorem Row.split_eq (h : Row t ss u) (i : Nat) :
    Segment.split i t = (Segment.split (i + (ss.flatMap text).length) u).map (ss ++ ·) := by
  induction h generalizing i with
  | done t =>
    rw [List.flatMap_nil, List.length_nil, Nat.add_zero]
    cases Segment.split i t with
    | error fault => rfl
    | ok ss => rfl
  | @more c rest after u s ss hfirst _ ih =>
    rw [Segment.split, first_index hfirst i]
    dsimp only
    rw [ih, List.flatMap_cons, List.length_append, Nat.add_assoc]
    cases Segment.split (i + (s.text.length + (ss.flatMap text).length)) u with
    | error fault => rfl
    | ok ss => rfl

end Segment

namespace Text
open Segment

theorem blanked_append {s t b : Text} (h : blanked s = .ok b) (ht : unmarked t = t) :
    blanked (s ++ '\n' :: t) =
      ((blanked t).map (b ++ '\n' :: ·)).mapError (Fault.moved (s.length + 1)) := by
  obtain ⟨ss, hrow, rfl⟩ := blanked_eq_ok_iff.1 h
  have htext := hrow.text_eq
  rw [List.append_nil] at htext
  have hcut := hrow.cut_line t
  have hline : Row ('\n' :: t) [plain '\n'] t := .more rfl (.done t)
  have hall := (hcut.append hline).split_eq 0
  have hunmarked : unmarked (s ++ '\n' :: t) = ss.flatMap Segment.text ++ '\n' :: t := by
    rw [← htext]
    cases s <;> rfl
  have hlength : 0 + ((ss ++ [plain '\n']).flatMap Segment.text).length = s.length + 1 + 0 := by
    rw [List.flatMap_append, List.length_append, ← htext, unmarked_length]
    simp [Segment.text]
  rw [blanked, ofText, hunmarked, hall, hlength, split_moved, blanked, ofText, ht]
  cases Segment.split 0 t with
  | error fault => rfl
  | ok ts => simp [Except.map, Except.mapError, Segment.blanked, isComment, Segment.text]

end Text
end ProbeScript
