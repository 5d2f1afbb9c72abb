import ProbeScript.CommandLine.Run
import ProbeScript.Proofs.Phrase.Quotes
import ProbeScript.Proofs.Tokens
import ProbeScript.Proofs.Tree.SourceText

/-! Source that is shown is shown again as it is. A file or a line that is accepted is shown as the
text of its tree; this text is read in the same way, and nothing on the way from the tree to the
stream and back to the reader changes a character of it. -/
namespace ProbeScript

/-! Line ends. -/

namespace Text

/-- A file is read without carriage returns. -/
private theorem return_not_mem_unixLines (t : Text) : '\r' ∉ unixLines t := by
  fun_induction unixLines t with
  | case1 => exact List.not_mem_nil
  | case2 rest ih => exact List.not_mem_cons_of_ne_of_not_mem (by decide) ih
  | case3 c rest hc ih =>
    refine List.not_mem_cons_of_ne_of_not_mem ?_ ih
    split
    case isTrue => decide
    case isFalse hne => exact fun he => hne (beq_iff_eq.2 he.symm)

private theorem unixLines_eq_self {t : Text} (h : '\r' ∉ t) : unixLines t = t := by
  fun_induction unixLines t with
  | case1 => rfl
  | case2 rest ih => exact absurd List.mem_cons_self h
  | case3 c rest hc ih =>
    obtain ⟨hne, hrest⟩ := not_or.1 (List.mem_cons.not.1 h)
    rw [ih hrest, if_neg fun he => hne (beq_iff_eq.1 he).symm]

private theorem return_not_mem_blanked {t u : Text} (h : blanked t = .ok u) (ht : '\r' ∉ t) :
    '\r' ∉ u := by
  intro hc
  obtain ⟨i, hi⟩ := List.mem_iff_getElem?.1 hc
  exact ht (List.mem_of_getElem? (getElem?_of_blanked h hi (by decide)))

end Text

private theorem CommandLine.decoded?_toUTF8 (t : Text) :
    decoded? (String.ofList t).toUTF8 = some (Text.unixLines t) := by
  have hdecode : String.fromUTF8? (String.ofList t).toUTF8 = some (String.ofList t) := by
    have hvalid := (String.ofList t).isValidUTF8
    simp only [String.fromUTF8?, String.toUTF8_eq_toByteArray, dif_pos hvalid]
    rfl
  rw [decoded?, hdecode, Option.map_some, String.toList_ofList]

namespace Phrase

private theorem Token.Spelled.return_not_mem_canonical {x : Token} (h : x.Spelled)
    (hx : '\r' ∉ x.lexeme.text) : '\r' ∉ x.canonical.2 := by
  obtain ⟨terminal, l⟩ := x
  have hnumeral : (∃ r, terminal = .ofRadix r) ∨ terminal.canonical l.text = l.text := by
    cases terminal
    case binary => exact .inl ⟨.binary, rfl⟩
    case octal => exact .inl ⟨.octal, rfl⟩
    case decimal => exact .inl ⟨.decimal, rfl⟩
    case hexadecimal => exact .inl ⟨.hexadecimal, rfl⟩
    all_goals exact .inr rfl
  rcases hnumeral with ⟨r, rfl⟩ | hsame
  · obtain ⟨ds, hds, -, hall, -⟩ := Terminal.spells_ofRadix h
    rw [Token.canonical, Terminal.canonical_ofRadix, hds, Radix.canonical, List.drop_left,
      Radix.significant_eq hall, List.mem_append]
    rintro (hc | hc)
    · exact Node.return_not_mem_marker r hc
    · split at hc
      · cases hc
      · exact Node.return_not_mem_digits r _ hc
  · rwa [Token.canonical, hsame]

end Phrase

namespace Goal
open Phrase Node

variable {g : Goal} {source : Text} {n : Node}

/-- The tree of a text without carriage returns has none in its words. -/
private theorem unreturned_of_read (h : g.read source = .ok n) (hs : '\r' ∉ source) :
    Unreturned n.words := by
  obtain ⟨text, d, hblanked, hcovers, htree⟩ := exists_covers_of_read h
  rw [words_tree hcovers.spelled htree]
  refine List.forall_mem_map.2 fun x hx => ?_
  refine (hcovers.spelled x hx).return_not_mem_canonical fun hc => ?_
  obtain ⟨pre, post, htokens⟩ := List.append_of_mem hx
  rw [Covers, htokens] at hcovers
  obtain ⟨u, hpre, hword, -⟩ := hcovers.split_at
  obtain ⟨s, rfl, -⟩ := hpre.exists_read
  exact Text.return_not_mem_blanked hblanked hs
    (List.mem_append_right s (hword.isPrefix.subset hc))

/-- What is shown after the text of a tree: an expression is given a line end, and a script has one
of its own. -/
def ending : Goal → Text
  | script => []
  | expression => ['\n']

private theorem isLayout_ending (g : Goal) : ∀ c ∈ g.ending, Text.isLayout c = true := by
  cases g with
  | script => exact List.forall_mem_nil _
  | expression => exact List.forall_mem_singleton.2 rfl

private theorem Form.shown_eq (h : g.Form n) {t : Text} (ht : n.source = .ok t) :
    shown .source (.ok n) = .ok (t ++ g.ending) ∧ Text.isBlank (t ++ g.ending) = false := by
  have hshown : shown .source (.ok n) = .ok (Text.stripEnd t ++ ['\n']) := by
    simp only [shown, Format.text, ht]
  rw [hshown]
  cases g with
  | script =>
    obtain ⟨s, rfl⟩ := IsScript.closed h ht
    have hend : Text.EndsSolid (s ++ ['\x7d']) := ⟨s, '\x7d', rfl, rfl⟩
    rw [hend.stripEnd_append (List.forall_mem_singleton.2 rfl), ending, List.append_nil]
    exact ⟨rfl, hend.not_isBlank _⟩
  | expression =>
    have hend := IsExpression.endsSolid h ht
    have hstrip := hend.stripEnd_append (List.forall_mem_nil _)
    rw [List.append_nil] at hstrip
    rw [hstrip]
    exact ⟨rfl, hend.not_isBlank _⟩

/-- What is shown of an accepted text is accepted for the same goal and shown again as it is. -/
theorem exists_shown (h : g.read source = .ok n) : ∃ t m, n.source = .ok t ∧
    shown .source (.ok n) = .ok (t ++ g.ending) ∧ Text.isBlank (t ++ g.ending) = false ∧
      g.read (t ++ g.ending) = .ok m ∧ shown .source (.ok m) = .ok (t ++ g.ending) := by
  obtain ⟨hform, hnormal⟩ := form_of_read h
  obtain ⟨t, m, ht, hread, hbare⟩ := hform.read_source_append g.isLayout_ending
  rw [hnormal] at hbare
  obtain ⟨hshown, hblank⟩ := hform.shown_eq ht
  have hm : m.source = .ok t := (source_eq_of_bare hbare).trans ht
  exact ⟨t, m, ht, hshown, hblank, hread, ((form_of_read hread).1.shown_eq hm).1⟩

/-- A text with the tokens of an expression does not follow the grammar of scripts. -/
theorem script_read_of_covers {text : Text} {c : Chain} (h : Text.blanked source = .ok text)
    (hc : Covers text c.tokens) : ∃ d, script.read source = .error (.grammatical d) := by
  obtain ⟨i, p, -, hread⟩ := read_of_stop (g := script) h fun s => hc.not_script s
  exact ⟨_, hread⟩

theorem script_read_of_expression (h : expression.read source = .ok n) :
    ∃ d, script.read source = .error (.grammatical d) := by
  obtain ⟨text, c, hblanked, hcovers, -⟩ := exists_covers_of_read h
  exact script_read_of_covers hblanked hcovers

end Goal

namespace Prompt
variable {line o : Text} {n : Node}

/-- The prompt accepts a line as whichever of the two it is. -/
theorem read_eq_ok_iff : read line = .ok n ↔ ∃ g : Goal, g.read line = .ok n := by
  constructor
  · intro h
    rw [read] at h
    split at h
    case h_1 =>
      split at h
      case h_1 m hread => exact ⟨.expression, hread.trans h⟩
      all_goals cases h
    case h_2 => exact ⟨.script, h⟩
  · rintro ⟨_ | _, hread⟩
    · have hscript : readScript line = .ok n := hread
      rw [read, hscript]
    · obtain ⟨d, hd⟩ := Goal.script_read_of_expression hread
      have hscript : readScript line = .error (.grammatical d) := hd
      have hexpression : readExpression line = .ok n := hread
      rw [read, hscript]
      simp only [hexpression]

/-- A line that something is shown of is blank or accepted. -/
private theorem answer_eq_ok {format : Format} (h : answer format line = .ok o) :
    o = [] ∨ ∃ n, read line = .ok n ∧ shown format (.ok n) = .ok o := by
  rw [answer] at h
  split at h
  case isTrue => exact .inl (Except.ok.inj h).symm
  case isFalse =>
    cases hread : read line with
    | error e => rw [hread] at h; cases h
    | ok n => exact .inr ⟨n, rfl, hread ▸ h⟩

end Prompt

namespace CommandLine

/-- The run ends well and leaves the text on the standard output. -/
def Outcome.Shows (o : Outcome) (t : Text) : Prop := o.ending = .status 0 ∧ o.output = t

private theorem checkFiles_shows {debug : Bool} {format : Format} {files : Files}
    {name source o : Text} {bytes : ByteArray} (hfile : files name = .ok bytes)
    (hdecoded : decoded? bytes = some source) (hshown : shown format (readScript source) = .ok o) :
    (checkFiles debug format files [name]).Shows o := by
  simp only [checkFiles, hfile, hdecoded, hshown]
  exact ⟨rfl, List.append_nil o⟩

end CommandLine

namespace Goal
open CommandLine

/-- What a file is shown as is the text of its script, and a file of this text is shown as the text
again. What a line is shown as is shown as itself too, for a script as for an expression. -/
theorem shown_again :
    (∀ (debug : Bool) (files : Files) (name : Text) (bytes : ByteArray) (source : Text) (n : Node),
      files name = .ok bytes → decoded? bytes = some source → script.read source = .ok n →
        ∃ o, n.source = .ok o ∧ (checkFiles debug .source files [name]).Shows o ∧
          ∀ (debug' : Bool) (files' : Files) (name' : Text),
            files' name' = .ok (String.ofList o).toUTF8 →
              (checkFiles debug' .source files' [name']).Shows o) ∧
    ∀ line o, Prompt.answer .source line = .ok o → Prompt.answer .source o = .ok o := by
  constructor
  · intro debug files name bytes source n hfile hdecoded hread
    obtain ⟨o, m, ho, hshown, -, hread', hshown'⟩ := exists_shown hread
    rw [ending, List.append_nil] at hshown hread' hshown'
    -- a carriage return in the output would not survive the next reading of a file
    have hsource : '\r' ∉ source := by
      obtain ⟨s, -, rfl⟩ := Option.map_eq_some_iff.1 hdecoded
      exact Text.return_not_mem_unixLines s.toList
    have hreturn := Node.return_not_mem_source n (unreturned_of_read hread hsource) ho
    refine ⟨o, ho, checkFiles_shows hfile hdecoded ?_, fun debug' files' name' hfile' => ?_⟩
    · rw [show readScript source = .ok n from hread, hshown]
    · have hdecoded' := decoded?_toUTF8 o
      rw [Text.unixLines_eq_self hreturn] at hdecoded'
      refine checkFiles_shows hfile' hdecoded' ?_
      rw [show readScript o = .ok m from hread', hshown']
  · intro line o h
    rcases Prompt.answer_eq_ok h with rfl | ⟨n, hread, hshown⟩
    · rfl
    · obtain ⟨g, hg⟩ := Prompt.read_eq_ok_iff.1 hread
      obtain ⟨t, m, -, ht, hblank, hm, hagain⟩ := exists_shown hg
      obtain rfl := Except.ok.inj (ht.symm.trans hshown)
      have hread' : Prompt.read (t ++ g.ending) = .ok m := Prompt.read_eq_ok_iff.2 ⟨g, hm⟩
      rw [Prompt.answer, hblank, hread', hagain]
      rfl

/-- A string literal of two lines in a file, and one with a carriage return on a line. -/
theorem shown_again_return :
    ((checkFiles false .source (fun _ => .ok (String.ofList "p\x7bf(\"\r\n\");\x7d".toList).toUTF8)
        [[]]).Shows "p \x7b\n    f(\"\n\");\n\x7d\n".toList ∧
      (checkFiles true .source (fun _ => .ok
          (String.ofList "p \x7b\n    f(\"\n\");\n\x7d\n".toList).toUTF8) [[]]).Shows
        "p \x7b\n    f(\"\n\");\n\x7d\n".toList) ∧
    Prompt.answer .source "\"\r\"".toList = .ok "\"\r\"\n".toList ∧
      Prompt.answer .source "\"\r\"\n".toList = .ok "\"\r\"\n".toList := by
  obtain ⟨hfile, hline⟩ := shown_again
  refine ⟨?_, ?_⟩
  · have hkept : Segment.Kept ("p\x7bf(".toList ++ (('"' :: ['\n'] ++ ['"']) ++ ");\x7d".toList)) :=
      .append (.word (Text.forall_mem_of_all (by decide)))
        (.append (.string (by decide)) (.word (Text.forall_mem_of_all (by decide))))
    let c : Phrase.Call := .applied ⟨2, ['f']⟩ ⟨3, ['(']⟩
      (.one (.chain (.one (.value (.string ⟨4, "\"\n\"".toList⟩))))) ⟨7, [')']⟩
    let s : Phrase.Script :=
      ⟨⟨⟨0, ['p']⟩, none, ⟨1, ['\x7b']⟩, .call c ⟨8, [';']⟩, [], ⟨9, ['\x7d']⟩⟩, []⟩
    have hread : ∃ n, script.read "p\x7bf(\"\n\");\x7d".toList = .ok n ∧
        n.source = .ok "p \x7b\n    f(\"\n\");\n\x7d\n".toList :=
      ⟨_, read_of_kept (g := script) (d := s) hkept rfl rfl, rfl⟩
    obtain ⟨n, hread, hsource⟩ := hread
    obtain ⟨o, ho, hshows, hagain⟩ := hfile false (fun _ => .ok
      (String.ofList "p\x7bf(\"\r\n\");\x7d".toList).toUTF8) [] _ _ n rfl (decoded?_toUTF8 _) hread
    obtain rfl := Except.ok.inj (hsource.symm.trans ho)
    exact ⟨hshows, hagain true _ [] rfl⟩
  · have hkept : Segment.Kept "\"\r\"".toList := .string (t := ['\r']) (by decide)
    have hread : ∃ n, expression.read "\"\r\"".toList = .ok n ∧
        shown .source (.ok n) = .ok "\"\r\"\n".toList :=
      ⟨_, read_of_kept (g := expression) (d := .one (.value (.string ⟨0, "\"\r\"".toList⟩))) hkept
        rfl rfl, rfl⟩
    obtain ⟨n, hread, hshown⟩ := hread
    have hanswer : Prompt.answer .source "\"\r\"".toList = .ok "\"\r\"\n".toList := by
      rw [Prompt.answer, if_neg (by decide), Prompt.read_eq_ok_iff.2 ⟨expression, hread⟩, hshown]
    exact ⟨hanswer, hline _ _ hanswer⟩

end Goal
end ProbeScript
