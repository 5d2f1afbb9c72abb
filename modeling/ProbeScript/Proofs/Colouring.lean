import ProbeScript.Proofs.Ending
import ProbeScript.Proofs.Highlight.Tokens
import ProbeScript.Proofs.Phrase.Calls
import ProbeScript.Proofs.Tokens

/-! An accepted text is coloured token by token, and calls as such. The name of a call is known by
the parenthesis after it, unless a comment hides it. -/
namespace ProbeScript

namespace Highlight
open Phrase Segment

variable {i j : Nat} {v source text : Text} {ts pre post : List Phrase.Token} {x y : Phrase.Token}

/-- After every token there is a place too. -/
private theorem Meets.after_token (h : Meets source i (pre ++ x :: post)) :
    Meets source x.lexeme.stop post := by
  obtain ⟨ss, j, hrow, hscans⟩ := h.exists_scans
  obtain ⟨p, q, hr⟩ := h.exists_run
  obtain ⟨as, ms, bs, rfl, hstart, -, htext, -, -, hpost⟩ := exists_word hscans hrow.sound
  rw [← List.append_assoc] at hrow
  obtain ⟨v, hms, hv⟩ := hrow.split
  have hstop : x.lexeme.stop = i + ((as ++ ms).flatMap Segment.text).length := by
    rw [List.flatMap_append, List.length_append, htext, ← Nat.add_assoc, ← hstart, Lexeme.stop]
  have hdrop : source.drop x.lexeme.stop = v := hstop ▸ drop_of_append hms.text_eq
  obtain ⟨p', -, hr'⟩ := Partial.run_append.1 hr
  obtain ⟨p'', -, hr''⟩ := Partial.run_cons.1 hr'
  exact ⟨⟨bs, j, hdrop.symm ▸ hv, hpost⟩, ⟨p'', q, hr''⟩,
    fun y hy => h.colon y (List.mem_append_right _ (List.mem_cons_of_mem x hy))⟩

private theorem terminal_of_lpar {terminal : Terminal} {w : Text} (h : terminal.Spells ('(' :: w)) :
    terminal = .lpar := by
  by_cases hp : terminal = .probeSpec
  · subst hp
    obtain ⟨-, hall⟩ := Terminal.spells_probeSpec h
    cases hall '(' List.mem_cons_self
  · have hf : Terminal.lpar = terminal.family := h.familyAt hp
    cases terminal <;> cases hf
    rfl

/-- Where a parenthesis comes next, but for white space, it is the next token. -/
private theorem Meets.lpar_of_opens (h : Meets source i ts) (ho : Opens (source.drop i)) :
    ∃ lpar us, ts = ⟨.lpar, lpar⟩ :: us := by
  obtain ⟨gap, u, hu, hgap⟩ := opens_iff.1 ho
  obtain ⟨ss, j, hrow, hscans⟩ := (h.after_gap hu hgap).exists_scans
  rw [drop_of_append hu] at hrow
  have hhead : (ss.flatMap blanked).head? = some '(' := by
    refine hrow.head?_blanked fun s hs => Bool.eq_false_iff.2 fun hcomment => ?_
    obtain ⟨ss, rfl⟩ := List.head?_eq_some_iff.1 hs
    cases hrow.head?_of_isComment hcomment
  obtain ⟨t, ht⟩ := List.head?_eq_some_iff.1 hhead
  obtain ⟨⟨terminal, l⟩, us, rfl, -, hw, -⟩ := (ht ▸ hscans).exists_token (by decide)
  obtain ⟨c, w, hc⟩ := List.exists_cons_of_ne_nil hw.spells.ne_nil
  rw [hc] at hw
  obtain rfl := (List.cons_prefix_cons.1 hw.isPrefix).1
  obtain rfl := terminal_of_lpar hw.spells
  exact ⟨l, us, rfl⟩

/-- A parenthesis that is the next token comes next, but for white space, if it is not hidden by a
comment. -/
private theorem opens_of_lpar {lpar : Lexeme} (h : Text.blanked source = .ok text)
    (hts : Covers text (pre ++ x :: ⟨.lpar, lpar⟩ :: post))
    (hcomment : ∀ k, x.lexeme.stop ≤ k → k < lpar.start → ¬ Commented (tokens source) k) :
    Opens (source.drop x.lexeme.stop) := by
  obtain ⟨gap, r, hdrop, hstart, hlayout⟩ := hts.exists_between
  have hstart : lpar.start = x.lexeme.stop + gap.length := hstart
  have hx : x.Spelled := hts.spelled x (List.mem_append_right pre List.mem_cons_self)
  have hlpar : Token.Spelled ⟨.lpar, lpar⟩ := hts.spelled _ (by simp)
  have hparen : text.drop x.lexeme.stop = gap ++ ['('] ++ r := by
    rw [hdrop, Terminal.spells_punctuation rfl hlpar, ← List.append_assoc]
  have hpos : 0 < x.lexeme.stop := by
    have := List.length_pos_iff.2 hx.ne_nil
    rw [Lexeme.stop]
    omega
  -- the parenthesis is no part of a comment, and what is before it is none either
  have hsame : ∀ k < (gap ++ ['(']).length,
      source[x.lexeme.stop + k]? = text[x.lexeme.stop + k]? := by
    intro k hk
    rw [List.length_append, List.length_singleton] at hk
    rcases Nat.lt_or_eq_of_le (Nat.le_of_lt_succ hk) with hlt | rfl
    · exact getElem?_of_not_commented h (by omega) (hcomment _ (by omega) (by omega))
    · have hget : text[x.lexeme.stop + gap.length]? = some '(' := by
        rw [← List.getElem?_drop, hparen]
        simp
      rw [hget]
      exact Text.getElem?_of_blanked h hget (by decide)
  obtain ⟨v, hv⟩ := Text.prefix_of_getElem? hparen hsame
  refine opens_iff.2 ⟨gap, v, ?_, fun c hc => Text.isSpace_of_isLayout (hlayout c hc)⟩
  rw [← hv, List.append_assoc]
  rfl

end Highlight

namespace Goal
open Phrase Highlight

variable {g : Goal} {source : Text}

/-- The token is coloured as the token of the phrase. -/
structure Colours (source : Text) (calls : List (Lexeme × Lexeme)) (x : Highlight.Token)
    (y : Phrase.Token) : Prop where
  index_eq : x.index = y.lexeme.start
  text_eq : x.text = y.lexeme.text
  kind_mem : x.kind ∈ kinds y.terminal
  called : x.kind = .calledName → ∃ lpar, (y.lexeme, lpar) ∈ calls
  calledName : ∀ lpar, (y.lexeme, lpar) ∈ calls →
    (∀ k, y.lexeme.stop ≤ k → k < lpar.start → ¬ Commented (Highlight.tokens source) k) →
      x.kind = .calledName

/-- A name is coloured as called because it is called, and because of what stands after it. -/
private theorem colours_of_shows {text : Text} {d : g.Phrase} {i : Nat} {x : Highlight.Token}
    {y : Phrase.Token} (h : Text.blanked source = .ok text) (hd : Covers text (g.tokens d))
    (hmeets : Meets source i (g.tokens d)) (hy : y ∈ g.tokens d) (hx : Shows source x y) :
    Colours source (g.calls d) x y where
  index_eq := hx.index_eq
  text_eq := hx.text_eq
  kind_mem := hx.kind_mem
  called := by
    intro hkind
    obtain ⟨terminal, l⟩ := y
    obtain ⟨rfl, ho⟩ := hx.called_iff.1 hkind
    obtain ⟨pre, post, he⟩ := List.append_of_mem hy
    obtain ⟨lpar, us, rfl⟩ := (he ▸ hmeets).after_token.lpar_of_opens ho
    exact ⟨lpar, mem_calls_iff.2 ⟨pre, us, he⟩⟩
  calledName := by
    intro lpar hcall hcomment
    obtain ⟨pre, post, he⟩ := mem_calls_iff.1 hcall
    have hname : y = ⟨.name, y.lexeme⟩ := hd.token_unique hy (by simp [he]) rfl
    rw [he, ← hname] at hd
    exact hx.called_iff.2 ⟨congrArg Token.terminal hname, opens_of_lpar h hd hcomment⟩

/-- A text that is accepted is coloured token by token, but for white space, comments and a byte
order mark at its head. Names are coloured as called if they are called and no comment stands before
the parenthesis, and none are that are not called. Event specifications are known by a colon. -/
theorem read_coloured (g : Goal) {source : Text} {n : Node} (h : g.read source = .ok n)
    (hspec : g = .script → ∀ ts, g.HasTokens source ts → ∀ y ∈ ts, y.terminal = .probeSpec →
      ':' ∈ y.lexeme.text) :
    ∃ text d, Text.blanked source = .ok text ∧ Covers text (g.tokens d) ∧
      g.tree source d = .ok n ∧
        List.Forall₂ (Colours source (g.calls d)) ((Highlight.tokens source).filter significant)
          (g.tokens d) := by
  obtain ⟨text, d, hblanked, hcovers, htree⟩ := exists_covers_of_read h
  have hcolon : ∀ y ∈ g.tokens d, y.terminal = .probeSpec → ':' ∈ y.lexeme.text := by
    intro y hy hterminal
    have hscript := script_of_probeSpec hcovers.spelled hy hterminal
    exact hspec hscript _ ((hasTokens_iff hblanked hcovers).2 rfl) y hy hterminal
  have hrun := run_tokens (g := g) hcovers.spelled
  obtain ⟨ps, -, hmeets⟩ := exists_meets hblanked hcovers hrun hcolon
  have hshows := forall₂_shows hblanked hcovers hrun hcolon
  have hmem := (List.forall₂_and_left (p := (· ∈ g.tokens d)) _ _).2 ⟨fun y hy => hy, hshows.flip⟩
  exact ⟨text, d, hblanked, hcovers, htree, hmem.flip.imp fun x y hxy =>
    colours_of_shows hblanked hcovers hmeets hxy.1 hxy.2⟩

/-- A comment between the name of a call and the parenthesis, after an event specification. -/
theorem read_coloured_hidden :
    let source := "p:q\x7bf/*(*/();\x7d".toList
    ∃ n text d, script.read source = .ok n ∧ Text.blanked source = .ok text ∧
      Covers text (script.tokens d) ∧ script.tree source d = .ok n ∧
        List.Forall₂ (Colours source (script.calls d))
          ((Highlight.tokens source).filter significant) (script.tokens d) := by
  intro source
  have hrow : Segment.Row source [.plain 'p', .plain ':', .plain 'q', .plain '\x7b', .plain 'f',
      .blockComment "/*(*/".toList, .plain '(', .plain ')', .plain ';', .plain '\x7d'] [] :=
    .more rfl (.more rfl (.more rfl (.more rfl (.more rfl (.more rfl (.more rfl (.more rfl
      (.more rfl (.more rfl (.done []))))))))))
  have hblanked : Text.blanked source = .ok "p:q\x7bf     ();\x7d".toList :=
    Text.blanked_eq_ok_iff.2 ⟨_, hrow, rfl⟩
  let call : Call := .bare ⟨4, ['f']⟩ ⟨10, ['(']⟩ ⟨11, [')']⟩
  let probe : Probe := ⟨⟨0, "p:q".toList⟩, none, ⟨3, ['\x7b']⟩, .call call ⟨12, [';']⟩, [],
    ⟨13, ['\x7d']⟩⟩
  let d : script.Phrase := (⟨probe, []⟩ : Script)
  have hcovers : Covers "p:q\x7bf     ();\x7d".toList (script.tokens d) := read_eq_ok_iff.1 rfl
  obtain ⟨n, hn⟩ : ∃ n, script.read source = .ok n := by
    rw [read_of_covers hblanked hcovers]
    exact ⟨_, rfl⟩
  obtain ⟨text, d', h⟩ := read_coloured script hn fun _ ts hts => by
    rw [(hasTokens_iff hblanked hcovers).1 hts]
    decide
  exact ⟨n, text, d', hn, h⟩

end Goal
end ProbeScript
