import ProbeScript.Proofs.Text.Blanking
import ProbeScript.Proofs.Text.Joined
import ProbeScript.Proofs.Text.Order

/-! Line and column as coordinates. The places of a text are the columns of its lines, each with one
more past the end of the line; every index stands at one of them, and the place gives the index
back. -/
namespace ProbeScript

namespace Text
variable {t l : Text} {i : Nat}

/-- The lines of a text, between its line feeds. -/
def lines (t : Text) : List Text := t.splitOn '\n'

/-- The index at which a line begins, the first line having the number one. The lines before it
stand before that index, each with its line feed. -/
def lineStart (t : Text) (line : Nat) : Nat :=
  ((t.lines.take (line - 1)).flatMap (· ++ ['\n'])).length

/-- A text is its last line, or a line with a line feed and a text behind it. -/
@[elab_as_elim]
theorem line_induction {P : Text → Prop} (last : ∀ l, '\n' ∉ l → P l)
    (line : ∀ l t, '\n' ∉ l → P t → P (l ++ '\n' :: t)) (t : Text) : P t := by
  -- the characters before `t` belong to a line that has not ended
  suffices h : ∀ l, '\n' ∉ l → P (l ++ t) from h [] List.not_mem_nil
  induction t with
  | nil =>
    intro l hl
    rw [List.append_nil]
    exact last l hl
  | cons c t ih =>
    intro l hl
    by_cases hc : c = '\n'
    · subst hc
      exact line l t hl (ih [] List.not_mem_nil)
    · have hlc : '\n' ∉ l ++ [c] :=
        List.not_mem_append hl fun h => hc (List.mem_singleton.1 h).symm
      have hrest := ih (l ++ [c]) hlc
      rwa [List.append_assoc, List.singleton_append] at hrest

private theorem lines_of_notMem (h : '\n' ∉ l) : lines l = [l] := List.splitOn_eq_singleton h

private theorem lines_append (h : '\n' ∉ l) (t : Text) : lines (l ++ '\n' :: t) = l :: lines t :=
  List.splitOn_append_cons_self_of_not_mem h t

private theorem lineStart_one (t : Text) : lineStart t 1 = 0 := rfl

/-- Behind a line the lines of a text begin later by its length and the line feed. -/
private theorem lineStart_append (h : '\n' ∉ l) (t : Text) (n : Nat) :
    lineStart (l ++ '\n' :: t) (n + 2) = l.length + 1 + lineStart t (n + 1) := by
  rw [lineStart, lines_append h, Nat.add_sub_cancel (n := n + 1) (m := 1), List.take_succ_cons,
    List.flatMap_cons, List.length_append, List.length_append, List.length_singleton]
  rfl

/-- Every index of a text stands in a line, or right behind it. -/
private theorem exists_lineStart_add (hi : i ≤ t.length) : ∃ n l k, t.lines[n]? = some l ∧
    k ≤ l.length ∧ i = lineStart t (n + 1) + k := by
  induction t using line_induction generalizing i with
  | last l hl => exact ⟨0, l, i, by rw [lines_of_notMem hl]; rfl, hi, by rw [lineStart_one]; omega⟩
  | line l t hl ih =>
    rw [List.length_append, List.length_cons] at hi
    rcases Nat.lt_or_ge l.length i with hlater | hfirst
    · obtain ⟨j, rfl⟩ := Nat.exists_eq_add_of_le (Nat.succ_le_of_lt hlater)
      obtain ⟨n, w, k, hw, hk, rfl⟩ := ih (i := j) (by omega)
      refine ⟨n + 1, w, k, by rw [lines_append hl]; exact hw, hk, ?_⟩
      rw [lineStart_append hl]
      omega
    · exact ⟨0, l, i, by rw [lines_append hl]; rfl, hfirst, by rw [lineStart_one]; omega⟩

end Text

namespace Position
variable {t l : Text} {i j k n : Nat}

/-- Up to the first line feed the columns count the characters. -/
private theorem at_of_notMem (h : '\n' ∉ t.take i) (hi : i ≤ t.length) :
    (Position.at t i).line = 1 ∧ (Position.at t i).column = i + 1 := by
  have hline : Text.lastLine (t.take i) = t.take i := Text.lastLine_append_of_notMem (t := []) h
  rw [Position.at, List.count_eq_zero_of_not_mem h, hline, List.length_take, Nat.min_eq_left hi,
    Nat.sub_eq_zero_of_le hi]
  exact ⟨rfl, rfl⟩

/-- What stands so many characters into a line is in that line, in the column after as many. -/
private theorem at_lineStart_add (hl : t.lines[n]? = some l) (hk : k ≤ l.length) :
    (Position.at t (t.lineStart (n + 1) + k)).line = n + 1 ∧
      (Position.at t (t.lineStart (n + 1) + k)).column = k + 1 := by
  induction t using Text.line_induction generalizing n with
  | last w hw =>
    rw [Text.lines_of_notMem hw, List.getElem?_singleton, Option.ite_none_right_eq_some] at hl
    obtain ⟨rfl, hl⟩ := hl
    obtain rfl := Option.some.inj hl
    rw [Text.lineStart_one, Nat.zero_add]
    exact at_of_notMem (fun h => hw (List.mem_of_mem_take h)) hk
  | line w t hw ih =>
    rw [Text.lines_append hw] at hl
    cases n with
    | zero =>
      obtain rfl : w = l := Option.some.inj hl
      rw [Text.lineStart_one, Nat.zero_add]
      refine at_of_notMem ?_ (hk.trans (List.length_append ▸ Nat.le_add_right _ _))
      rw [List.take_append_of_le_length hk]
      exact fun h => hw (List.mem_of_mem_take h)
    | succ n =>
      obtain ⟨hline, hcolumn⟩ := ih hl
      rw [Text.lineStart_append hw, Nat.add_assoc, at_append, after, hline, hcolumn,
        List.count_eq_zero_of_not_mem hw]
      exact ⟨rfl, rfl⟩

/-- The line and the column of an index are a line of the text and a column of it, or the one past
its end, and they give the index back. -/
private theorem exists_line (hi : i ≤ t.length) :
    ∃ l, t.lines[(Position.at t i).line - 1]? = some l ∧
    (Position.at t i).column ≤ l.length + 1 ∧
      i = t.lineStart (Position.at t i).line + ((Position.at t i).column - 1) := by
  obtain ⟨n, l, k, hl, hk, hindex⟩ := Text.exists_lineStart_add hi
  obtain ⟨hline, hcolumn⟩ := at_lineStart_add hl hk
  rw [← hindex] at hline hcolumn
  rw [hline, hcolumn]
  exact ⟨l, hl, Nat.succ_le_succ hk, hindex⟩

private theorem offset_eq (t : Text) (i : Nat) :
    (Position.at t i).offset = (String.ofList (t.take i)).toUTF8.size :=
  Text.foldr_utf8Size (t.take i)

/-- A later index of a text, up to its end, is more bytes from the start. -/
private theorem offset_lt_offset (hij : i < j) (hj : j ≤ t.length) :
    (Position.at t i).offset < (Position.at t j).offset := by
  obtain ⟨u, htake, hlen⟩ := Text.exists_take_eq_append hij.le hj
  obtain ⟨c, v, rfl⟩ := List.exists_cons_of_length_pos (l := u) (by omega)
  have hc := c.utf8Size_pos
  simp only [Position.at, Text.foldr_utf8Size, htake, String.utf8ByteSize_ofList,
    String.utf8Len_append, String.utf8Len_cons]
  omega

/-- Positions are coordinates of a text. A later index is at a later place and more bytes from the
start. The place of an index gives it back: the line of that number begins so much before it, and
each column of a line, or the one past its end, is the place of an index. The offset is the number
of bytes of the text before, in UTF-8. Blanking leaves every line and column as it is. -/
theorem at_exact (t : Text) :
    (∀ i j, i < j → j ≤ t.length → (Position.at t i).place < (Position.at t j).place ∧
      (Position.at t i).offset < (Position.at t j).offset) ∧
    (∀ i, i ≤ t.length → ∃ l, t.lines[(Position.at t i).line - 1]? = some l ∧
      (Position.at t i).column ≤ l.length + 1 ∧
        i = t.lineStart (Position.at t i).line + ((Position.at t i).column - 1)) ∧
    (∀ n l k, t.lines[n]? = some l → k ≤ l.length →
      (Position.at t (t.lineStart (n + 1) + k)).line = n + 1 ∧
        (Position.at t (t.lineStart (n + 1) + k)).column = k + 1) ∧
    (∀ i, (Position.at t i).offset = (String.ofList (t.take i)).toUTF8.size) ∧
    ∀ u, Text.blanked t = .ok u → ∀ i, (Position.at u i).line = (Position.at t i).line ∧
      (Position.at u i).column = (Position.at t i).column := by
  refine ⟨fun i j hij hj => ?_, fun i => exists_line, fun n l k => at_lineStart_add, offset_eq t,
    fun u hu i => ?_⟩
  · exact ⟨place_lt_place hij hj, offset_lt_offset hij hj⟩
  · have hlines := Text.SameLines.of_blanked hu
    exact ⟨(line_eq hlines i).symm, (column_eq hlines i).symm⟩

/-- A comment over two lines behind a string, both with a letter of two bytes. -/
theorem at_exact_comment :
    (Position.at "\"é\"\n/*é\n*/x".toList 7).place <
        (Position.at "\"é\"\n/*é\n*/x".toList 10).place ∧
      (Position.at "\"é\"\n/*é\n*/x".toList 7).offset <
        (Position.at "\"é\"\n/*é\n*/x".toList 10).offset ∧
      10 = Text.lineStart "\"é\"\n/*é\n*/x".toList 3 + (3 - 1) ∧
      (Position.at "\"é\"\n   \n  x".toList 10).line = 3 ∧
      (Position.at "\"é\"\n   \n  x".toList 10).column = 3 := by
  have hat : Position.at "\"é\"\n/*é\n*/x".toList 10 = ⟨12, 3, 3⟩ := by decide +kernel
  have hblanked : Text.blanked "\"é\"\n/*é\n*/x".toList = .ok "\"é\"\n   \n  x".toList :=
    Text.blanked_eq_ok_iff.2
      ⟨[.string ['é'], .plain '\n', .blockComment "/*é\n*/".toList, .plain 'x'],
        .more rfl (.more rfl (.more rfl (.more rfl (.done [])))), rfl⟩
  obtain ⟨hlater, hindex, -, -, hsame⟩ := at_exact "\"é\"\n/*é\n*/x".toList
  obtain ⟨hplace, hoffset⟩ := hlater 7 10 (by decide) (by decide)
  obtain ⟨l, -, -, hten⟩ := hindex 10 (by decide)
  obtain ⟨hline, hcolumn⟩ := hsame _ hblanked 10
  rw [hat] at hten hline hcolumn
  exact ⟨hplace, hoffset, hten, hline, hcolumn⟩

end Position
end ProbeScript
