import ProbeScript.Proofs.Phrase.Follow
import ProbeScript.Proofs.Spans
import ProbeScript.Proofs.Text.Blanking
import ProbeScript.Proofs.Text.Parting

/-! An expression in the places where the grammar has one. On lines of its own it means the same as
a predicate, as an assigned value, in parentheses and as an argument; and a predicate that is read
is an expression. -/
namespace ProbeScript

namespace Text

/-- The text as the predicate of a probe. -/
def inPredicate (t : Text) : Text := "p /\n".toList ++ (t ++ "\n/ \x7b x = 1; \x7d".toList)

/-- The text as the value of an assignment. -/
def inAssignment (t : Text) : Text := "p \x7b x =\n".toList ++ (t ++ "\n; \x7d".toList)

def inParentheses (t : Text) : Text := "(\n".toList ++ (t ++ "\n)".toList)

/-- The text as the only argument of a call. -/
def inCall (t : Text) : Text := "f(\n".toList ++ (t ++ "\n)".toList)

end Text

/-- What an expression is as an argument: a single value in parentheses is a tuple. -/
inductive Node.Argument : Node → Node → Prop
  | tuple {v : Node} (span : Option Span) : v.kind ∈ [.identifier, .integer, .string] →
      Argument (.parenthesized v span) (.tuple [v] span)
  | same {e : Node} : (∀ v span, e = .parenthesized v span →
      v.kind ∉ [.identifier, .integer, .string]) → Argument e e

namespace Phrase
open Segment

variable {t u b : Text} {ts us : List Token}

namespace Excerpt

/-- A text that is read by itself, and behind it a line feed and a stretch. -/
private theorem of_line (hb : Text.blanked t = .ok b) (hmark : unmarked t = t) (hts : Covers b ts)
    (h : Excerpt us u) : Excerpt (ts ++ us) (t ++ '\n' :: u) := by
  obtain ⟨ss, hrow, rfl⟩ := Text.blanked_eq_ok_iff.1 hb
  have htext := hrow.text_eq
  rw [hmark, List.append_nil] at htext
  obtain ⟨b', hb', hus⟩ := h
  refine ⟨ss.flatMap blanked ++ '\n' :: b', fun v hv => ?_, fun i v hv => ?_⟩
  · obtain ⟨ss', hss', rfl⟩ := hb' v hv
    have hline : Row ('\n' :: (u ++ v)) (plain '\n' :: ss') v := .more rfl hss'
    refine ⟨ss ++ plain '\n' :: ss', ?_, by simp [blanked, isComment, text]⟩
    rw [List.append_assoc, htext]
    exact (hrow.cut_line (u ++ v)).append hline
  · obtain ⟨ts', j, hline, halike⟩ := (hts.line (b' ++ v)).moved i
    obtain ⟨us', k, hscans, halike'⟩ := hus (j + 1) v hv
    refine ⟨ts' ++ us', k, ?_, halike.append halike'⟩
    rw [List.append_assoc]
    exact hline.append (.layout rfl hscans)

/-- A slash before white space begins no comment. -/
private theorem slash {c : Char} (h : Excerpt us t) (hc : Text.isLayout c = true) (i : Nat) :
    Excerpt (⟨.slash, i, ['/']⟩ :: us) ('/' :: c :: t) := by
  obtain ⟨b, hb, hus⟩ := h
  have hne : c ≠ '/' ∧ c ≠ '*' := by constructor <;> rintro rfl <;> cases hc
  have hkept : Kept [c] := .char (by simp [inAlphabet, hc]) hne.1
  refine ⟨'/' :: c :: b, hb.after (hkept.slash hne.1 hne.2), fun k v hv => ?_⟩
  obtain ⟨us', j, hscans, halike⟩ := hus (k + 2) v hv
  have hspelled (k : Nat) : Token.Spelled ⟨.slash, k, ['/']⟩ := .mark rfl
  exact ⟨_, j, .token (Terminal.takes_mark rfl _) (.layout hc hscans),
    .cons ⟨rfl, hspelled k, hspelled i⟩ halike⟩

end Excerpt

/-- A number, where nothing else is assigned. -/
def one : Chain := .one (.value (.integer .decimal ⟨0, ['1']⟩))

/-- The statement that gives a chain to the name. -/
def assigned (c : Chain) : Statement := .assignment ⟨0, ['x']⟩ ⟨0, ['=']⟩ c ⟨0, [';']⟩

/-- The probe with one statement. -/
def Statement.probe (s : Statement) (predicate : Option Chain) : Probe where
  spec := ⟨0, ['p']⟩
  guard := predicate.map fun c => ⟨⟨0, ['/']⟩, c, ⟨0, ['/']⟩⟩
  lbrace := ⟨0, ['\x7b']⟩
  first := s
  others := []
  rbrace := ⟨0, ['\x7d']⟩

namespace Excerpt
variable {c : Chain}

private theorem name {d : Char} (hd : isNameStart d = true) (hsep : Separated u)
    (h : Excerpt us u) :
    Excerpt (⟨.name, 0, [d]⟩ :: us) (d :: u) := by
  have hname : Terminal.name.Spells [d] := .named hd (by simp)
  exact (word hname (hname.kept (by decide) (by decide))).append h hsep

private theorem spec (hsep : Separated u) (h : Excerpt us u) :
    Excerpt (⟨.probeSpec, 0, ['p']⟩ :: us) ('p' :: u) := by
  have hspec : Terminal.probeSpec.Spells ['p'] :=
    .spec (List.cons_ne_nil _ _) (List.forall_mem_singleton.2 rfl)
  exact (word hspec (hspec.kept (by decide) (by decide))).append h hsep

private theorem inPredicate (hb : Text.blanked t = .ok b) (hmark : unmarked t = t)
    (hts : Covers b c.tokens) :
    Excerpt ((assigned one).probe (some c)).tokens t.inPredicate := by
  have hone : Terminal.decimal.Spells ['1'] :=
    .numeral .decimal (by decide) (List.forall_mem_singleton.2 rfl) (by simp)
  have hend := ((nil.mark .rbrace rfl (by decide) 0).layout (c := ' ') rfl).mark .semicolon rfl
    (by decide) 0
  have hvalue := (word hone (hone.kept (by decide) (by decide))).append hend
    (separated_cons (by decide))
  have hequal := (hvalue.layout (c := ' ') rfl).mark .equal rfl (by decide) 0
  have htarget := name (d := 'x') rfl (separated_cons (by decide)) (hequal.layout (c := ' ') rfl)
  have hbrace := (htarget.layout (c := ' ') rfl).mark .lbrace rfl (by decide) 0
  have hbody := hbrace.slash (c := ' ') rfl 0
  have hguard := (of_line hb hmark hts hbody).slash (c := '\n') rfl 0
  have hall := spec (separated_cons (by decide)) (hguard.layout (c := ' ') rfl)
  have htokens : ((assigned one).probe (some c)).tokens = ⟨.probeSpec, 0, ['p']⟩ ::
      ⟨.slash, 0, ['/']⟩ :: (c.tokens ++ ⟨.slash, 0, ['/']⟩ :: ⟨.lbrace, 0, ['\x7b']⟩ ::
        ((assigned one).tokens ++ [⟨.rbrace, 0, ['\x7d']⟩])) := by
    simp [Statement.probe, Probe.tokens, Probe.statements, Guard.tokens]
  rw [htokens]
  exact hall

private theorem inAssignment (hb : Text.blanked t = .ok b) (hmark : unmarked t = t)
    (hts : Covers b c.tokens) : Excerpt ((assigned c).probe none).tokens t.inAssignment := by
  have hend := ((nil.mark .rbrace rfl (by decide) 0).layout (c := ' ') rfl).mark .semicolon rfl
    (by decide) 0
  have hequal := ((of_line hb hmark hts hend).layout (c := '\n') rfl).mark .equal rfl (by decide) 0
  have htarget := name (d := 'x') rfl (separated_cons (by decide)) (hequal.layout (c := ' ') rfl)
  have hbody := (htarget.layout (c := ' ') rfl).mark .lbrace rfl (by decide) 0
  have hall := spec (separated_cons (by decide)) (hbody.layout (c := ' ') rfl)
  have htokens : ((assigned c).probe none).tokens = ⟨.probeSpec, 0, ['p']⟩ ::
      ⟨.lbrace, 0, ['\x7b']⟩ :: ⟨.name, 0, ['x']⟩ :: ⟨.equal, 0, ['=']⟩ ::
        (c.tokens ++ [⟨.semicolon, 0, [';']⟩, ⟨.rbrace, 0, ['\x7d']⟩]) := by
    simp [Statement.probe, Probe.tokens, Probe.statements, assigned, Statement.tokens]
  rw [htokens]
  exact hall

private theorem inParentheses (hb : Text.blanked t = .ok b) (hmark : unmarked t = t)
    (hts : Covers b ts) : Excerpt (⟨.lpar, 0, ['(']⟩ :: (ts ++ [⟨.rpar, 0, [')']⟩]))
      t.inParentheses :=
  ((of_line hb hmark hts (nil.mark .rpar rfl (by decide) 0)).layout (c := '\n') rfl).mark .lpar rfl
    (by decide) 0

private theorem inCall (hb : Text.blanked t = .ok b) (hmark : unmarked t = t) (hts : Covers b ts) :
    Excerpt (⟨.name, 0, ['f']⟩ :: ⟨.lpar, 0, ['(']⟩ :: (ts ++ [⟨.rpar, 0, [')']⟩])) t.inCall :=
  name (d := 'f') rfl (separated_cons (by decide)) (inParentheses hb hmark hts)

end Excerpt

end Phrase

namespace Node

/-- The probe with one statement, which gives a value to the name. -/
def assigning (predicate : Option Node) (value : Node) : Node :=
  .probe (.spec [some ['p']] none) predicate [.assignment (.identifier ['x'] none) value none] none

private theorem argument_asArgument (e : Node) : e.Argument (Phrase.asArgument e) := by
  cases e with
  | parenthesized v span =>
    cases v
    case identifier | integer | string => exact .tuple span (by simp [kind])
    all_goals
      refine .same fun w span' he => ?_
      obtain ⟨rfl, -⟩ := Node.parenthesized.inj he
      simp [kind]
  | _ => exact .same fun v span he => by cases he

end Node

namespace Goal
open Phrase Segment

variable {t b : Text} {c : expression.Phrase} {e : Node}

section
variable (hb : Text.blanked t = .ok b) (hmark : unmarked t = t)
  (hc : Covers b (expression.tokens c)) (he : expression.tree t c = .ok e)
include hb hmark hc he

private theorem readsAs_inPredicate :
    script.ReadsAs t.inPredicate (.script [.assigning (some e) (.integer 1 10 none)] none) := by
  have hone : one.tree t = .ok (.integer 1 10 _) := Chain.tree_one rfl
  have hstatement : (assigned one).tree t = .ok _ :=
    Statement.tree_assignment_iff.2 ⟨_, hone, rfl⟩
  let guard : Guard := ⟨⟨0, ['/']⟩, c, ⟨0, ['/']⟩⟩
  have hguard : (some guard).mapM (·.predicate.tree t) = .ok (some e) :=
    Guard.mapM_some_iff.2 ⟨e, he, rfl⟩
  have hprobe : ((assigned one).probe (some c)).tree t = .ok _ :=
    Probe.tree_iff.2 ⟨some e, _, _, hguard, mapM_singleton hstatement, rfl, rfl⟩
  exact Probe.readsAs_of_excerpt (.inPredicate hb hmark hc) hprobe rfl

private theorem readsAs_inAssignment :
    script.ReadsAs t.inAssignment (.script [.assigning none e] none) := by
  have hstatement : (assigned c).tree t = .ok _ := Statement.tree_assignment_iff.2 ⟨e, he, rfl⟩
  have hprobe : ((assigned c).probe none).tree t = .ok _ :=
    Probe.tree_iff.2 ⟨none, _, _, rfl, mapM_singleton hstatement, rfl, rfl⟩
  exact Probe.readsAs_of_excerpt (.inAssignment hb hmark hc) hprobe rfl

private theorem readsAs_inParentheses :
    expression.ReadsAs t.inParentheses (.parenthesized e none) := by
  obtain ⟨g, hg, rfl⟩ := Chain.tree_iff.1 he
  let d : expression.Phrase := .one (.group ⟨0, ['(']⟩ c ⟨0, [')']⟩)
  have htree : expression.tree t d = .ok _ :=
    Chain.tree_one (Operand.tree_group_iff.2 ⟨g, hg, rfl⟩)
  exact readsAs_of_excerpt (d := d) (.inParentheses hb hmark hc) htree rfl

private theorem readsAs_inCall :
    ∃ a, e.Argument a ∧ expression.ReadsAs t.inCall (.call ['f'] [a] none) := by
  obtain ⟨g, hg, rfl⟩ := Chain.tree_iff.1 he
  let call : Call := .applied ⟨0, ['f']⟩ ⟨0, ['(']⟩ (.one (.chain c)) ⟨0, [')']⟩
  let d : expression.Phrase := .one (.call call)
  have harg : (Arg.chain c).tree t = .ok _ := Arg.tree_chain_iff.2 ⟨g, hg, rfl⟩
  have hcall : call.tree t = .ok _ :=
    Call.tree_applied_iff.2 ⟨_, Args.tree_one_iff.2 ⟨_, harg, rfl⟩, rfl⟩
  have htree : expression.tree t d = .ok _ := Chain.tree_one hcall
  exact ⟨_, Node.argument_asArgument g.node,
    readsAs_of_excerpt (d := d) (.inCall hb hmark hc) htree rfl⟩

end

end Goal

/-! Conversely, where a predicate has been read. -/

namespace Phrase
variable {i j : Nat} {t b w : Text} {ts us : List Token}

/-- The first token is the word that its terminal takes. -/
private theorem Scans.of_takes {terminal : Terminal} {l : Lexeme}
    (h : Scans i t (⟨terminal, l⟩ :: us) j []) (hw : terminal.Takes t w) :
    Scans (i + w.length) (t.drop w.length) us j [] := by
  generalize hts : ⟨terminal, l⟩ :: us = ts at h
  cases h with
  | done => cases hts
  | layout hc => rw [hw.isLayout_head _ rfl] at hc; cases hc
  | token hw' h =>
    obtain ⟨hx, rfl⟩ := List.cons.inj hts
    obtain ⟨rfl, -⟩ := Token.mk.inj hx
    rwa [hw.unique hw']

/-- The tokens are those of the text without what follows them. -/
private theorem Scans.exists_alone (h : Scans i t ts j u) :
    ∃ s, t = s ++ u ∧ Scans i s ts j [] := by
  obtain ⟨s, rfl, -, hread⟩ := h.exists_read
  have hall := hread [] (.inr fun c hc => by cases hc)
  rw [List.append_nil] at hall
  exact ⟨s, rfl, hall⟩

/-- Up to the last slash of a text there are the tokens before it. -/
private theorem Scans.before_slash {closing : Lexeme}
    (h : Scans i (b ++ ['\n', '/', ' ']) (ts ++ [⟨.slash, closing⟩]) j []) :
    ∃ k, Scans i b ts k [] := by
  have hspace : b ++ ['\n', '/', ' '] = (b ++ ['\n'] ++ ['/']) ++ [' '] := by simp
  rw [hspace] at h
  obtain ⟨k, hk⟩ := h.drop_last rfl
  obtain ⟨u, hts, hslash, hrest⟩ := hk.split_at
  obtain ⟨s, hs, halone⟩ := hts.exists_alone
  obtain ⟨gap, hgap, -, hlayout⟩ := hrest.exists_gap
  have htext : closing.text = ['/'] := Terminal.spells_punctuation rfl hslash.spells
  obtain ⟨v, rfl⟩ := hslash.isPrefix
  rw [htext] at hs hgap
  obtain rfl : v = gap := by simpa using hgap
  rcases List.eq_nil_or_concat' v with rfl | ⟨v, c, rfl⟩
  · obtain ⟨rfl, -⟩ := List.append_inj' hs rfl
    exact halone.drop_last rfl
  · -- the text ends in the slash, not in white space
    rw [← List.append_assoc, ← List.append_assoc] at hs
    obtain ⟨-, hc⟩ := List.append_inj' hs rfl
    obtain rfl := List.singleton_inj.1 hc
    cases hlayout '/' (List.mem_append_right v List.mem_cons_self)

private theorem Scans.after_spec {spec : Lexeme}
    (h : Scans 0 b.inPredicate (⟨.probeSpec, spec⟩ :: us) j []) :
    Scans 2 ('/' :: '\n' :: (b ++ "\n/ \x7b x = 1; \x7d".toList)) us j [] := by
  have htakes : Terminal.probeSpec.Takes (['p'] ++ (' ' :: "/\n".toList ++ (b ++
      "\n/ \x7b x = 1; \x7d".toList))) ['p'] := by
    refine Terminal.takes_append_iff.2 ⟨.spec (by simp) (List.forall_mem_singleton.2 rfl), ?_⟩
    rintro c ⟨⟩
    rfl
  have hspace := Scans.of_takes h htakes
  exact hspace.of_layout rfl

/-- The brace behind a predicate is the only one, so the slash before it is the last of the
predicate, and the tokens in between are those of the text that stands there. -/
private theorem Scans.before_brace {closing lbrace : Lexeme} (hb : '\x7b' ∉ b)
    (h : Scans i (b ++ "\n/ \x7b x = 1; \x7d".toList)
      (ts ++ [⟨.slash, closing⟩] ++ ⟨.lbrace, lbrace⟩ :: us) j []) : ∃ k, Scans i b ts k [] := by
  obtain ⟨u, hbefore, hlbrace, -⟩ := h.split_at
  obtain ⟨s, hs, halone⟩ := hbefore.exists_alone
  have hbrace : lbrace.text = ['\x7b'] := Terminal.spells_punctuation rfl hlbrace.spells
  obtain ⟨v, rfl⟩ : lbrace.text <+: u := hlbrace.isPrefix
  have ht : b ++ "\n/ \x7b x = 1; \x7d".toList =
      (b ++ ['\n', '/', ' ']) ++ '\x7b' :: " x = 1; \x7d".toList := by
    rw [List.append_assoc]
    rfl
  rw [hbrace, ht] at hs
  have hbefore' : '\x7b' ∉ b ++ ['\n', '/', ' '] := by
    rw [List.mem_append, not_or]
    exact ⟨hb, by decide⟩
  obtain ⟨rfl, -⟩ := (List.append_cons_inj_of_notMem hbefore' (by decide)).1 hs
  exact halone.before_slash

/-- A probe that is read where a predicate was put has one, and its tokens are those of the text
that was put there. -/
private theorem Probe.exists_predicate {p : Probe} (hb : '\x7b' ∉ b)
    (h : Scans 0 b.inPredicate (p.tokens ++ us) j []) :
    ∃ g, p.guard = some g ∧ ∃ k, Scans 4 b g.predicate.tokens k [] := by
  obtain ⟨rest, hrest⟩ : ∃ rest, p.tokens ++ us = ⟨.probeSpec, p.spec⟩ ::
      (p.guard.elim [] Guard.tokens ++ ⟨.lbrace, p.lbrace⟩ :: rest) :=
    ⟨p.statements.flatMap Statement.tokens ++ ⟨.rbrace, p.rbrace⟩ :: us, by simp [Probe.tokens]⟩
  rw [hrest] at h
  have hspace := Scans.after_spec h
  cases hguard : p.guard with
  | none =>
    -- a brace would stand where the slash does
    rw [hguard] at hspace
    obtain ⟨x, ts, he, -, hx, -⟩ := hspace.exists_token rfl
    obtain ⟨rfl, -⟩ := List.cons.inj he
    have hbrace : p.lbrace.text = ['\x7b'] := Terminal.spells_punctuation rfl hx.spells
    have hprefix : p.lbrace.text <+: _ := hx.isPrefix
    rw [hbrace, List.cons_prefix_cons] at hprefix
    cases hprefix.1
  | some g =>
    rw [hguard] at hspace
    have hopening := Scans.of_takes (l := g.opening) hspace (Terminal.takes_mark rfl _)
    have hline : Scans 4 (b ++ "\n/ \x7b x = 1; \x7d".toList)
        (g.predicate.tokens ++ [⟨.slash, g.closing⟩] ++ ⟨.lbrace, p.lbrace⟩ :: rest) j [] :=
      hopening.of_layout rfl
    exact ⟨g, rfl, hline.before_brace hb⟩

end Phrase

namespace Goal
open Phrase Segment

variable {t b : Text} {n : Node}

/-- What stands in the place of a predicate, on lines of its own, is blanked as it is alone. -/
private theorem exists_blanked_of_inPredicate {u : Text} (hmark : unmarked t = t)
    (h : Text.blanked t.inPredicate = .ok u) : ∃ b, Text.blanked t = .ok b ∧ u = b.inPredicate := by
  have hspec : Kept "p ".toList := .word (Text.forall_mem_of_all (by decide))
  have hline : Kept "\n".toList := .char rfl (by decide)
  have hbody : Kept " \x7b x = 1; \x7d".toList := .word (Text.forall_mem_of_all (by decide))
  have hbefore : Kept "p /\n".toList := hspec.append (hline.slash (by decide) (by decide))
  have hbehind : Kept "\n/ \x7b x = 1; \x7d".toList :=
    hline.append (hbody.slash (by decide) (by decide))
  have hinert : Inert "\n/ \x7b x = 1; \x7d".toList := by
    refine ⟨by decide, fun a c he => ?_⟩
    have hstar : '*' ∉ "\n/ \x7b x = 1; \x7d".toList := by decide
    rw [he] at hstar
    exact hstar (List.mem_append_right a List.mem_cons_self)
  exact Text.exists_blanked_between (v := "/ \x7b x = 1; \x7d".toList) hbefore hbehind hinert hmark
    rfl h

private theorem exists_read_of_inPredicate (hmark : unmarked t = t) (ht : '\x7b' ∉ t)
    (h : script.read t.inPredicate = .ok n) : ∃ e, expression.read t = .ok e := by
  obtain ⟨u, d, hblanked, hcovers, htree⟩ := exists_covers_of_read h
  obtain ⟨b, hb, rfl⟩ := exists_blanked_of_inPredicate hmark hblanked
  have hbrace : '\x7b' ∉ b := by
    intro hmem
    obtain ⟨i, hi⟩ := List.mem_iff_getElem?.1 hmem
    exact ht (List.mem_of_getElem? (Text.getElem?_of_blanked hb hi (by decide)))
  obtain ⟨probes, hprobes, -⟩ := Script.tree_iff.1 htree
  obtain ⟨m, ms, hm, -, -⟩ := List.forall₂_cons_left_iff.1 (mapM_eq_ok_iff.1 hprobes)
  obtain ⟨predicate, body, event, hguard, -⟩ := Probe.tree_iff.1 hm
  obtain ⟨g, hg, k, hscans⟩ := Probe.exists_predicate hbrace hcovers
  rw [hg] at hguard
  obtain ⟨e, he, -⟩ := Guard.mapM_some_iff.1 hguard
  obtain ⟨us, j, hus, halike⟩ := hscans.moved 0
  have hlength := hus.length_eq
  have hcovers' : Covers b us := by
    rwa [Covers, show b.length = j by simpa using hlength]
  let d' : expression.Phrase := g.predicate
  obtain ⟨e', he', -⟩ := readsAs_of_alike (d := d') hb hcovers' halike he rfl
  exact ⟨e', he'⟩

/-- An expression means the same in every context, whatever divisions and comments are in it: as a
predicate, as an assigned value, in parentheses, and as an argument, where a single value in
parentheses is a tuple. Conversely what is read as a predicate is an expression, if it holds no
opening brace. -/
theorem read_in_contexts (t : Text) (hmark : t.head? ≠ some Text.byteOrderMark) :
    (∀ e, expression.read t = .ok e →
      script.ReadsAs t.inPredicate (.script [.assigning (some e) (.integer 1 10 none)] none) ∧
      script.ReadsAs t.inAssignment (.script [.assigning none e] none) ∧
      expression.ReadsAs t.inParentheses (.parenthesized e none) ∧
      ∃ a, e.Argument a ∧ expression.ReadsAs t.inCall (.call ['f'] [a] none)) ∧
    ('\x7b' ∉ t → ∀ n, script.read t.inPredicate = .ok n → ∃ e, expression.read t = .ok e) := by
  replace hmark := Text.unmarked_of_head?_ne hmark
  refine ⟨fun e he => ?_, fun ht n hn => exists_read_of_inPredicate hmark ht hn⟩
  obtain ⟨b, c, hb, hc, he⟩ := exists_covers_of_read he
  exact ⟨readsAs_inPredicate hb hmark hc he, readsAs_inAssignment hb hmark hc he,
    readsAs_inParentheses hb hmark hc he, readsAs_inCall hb hmark hc he⟩

/-- A division before a line comment. -/
theorem read_in_contexts_division : ∃ e, expression.read "a/b//c".toList = .ok e ∧
    script.ReadsAs "p /\na/b//c\n/ \x7b x = 1; \x7d".toList
      (.script [.assigning (some e) (.integer 1 10 none)] none) := by
  have hrow : Segment.Row "a/b//c".toList
      [.plain 'a', .plain '/', .plain 'b', .lineComment "//c".toList] [] :=
    .more rfl (.more rfl (.more rfl (.more rfl (.done []))))
  have hblanked : Text.blanked "a/b//c".toList = .ok "a/b   ".toList :=
    Text.blanked_eq_ok_iff.2 ⟨_, hrow, rfl⟩
  let d : expression.Phrase :=
    .more (.one (.value (.name ⟨0, ['a']⟩))) ⟨.divide, 1⟩ (.value (.name ⟨2, ['b']⟩))
  have hcovers : Covers "a/b   ".toList (expression.tokens d) := read_eq_ok_iff.1 rfl
  obtain ⟨e, he⟩ : ∃ e, expression.read "a/b//c".toList = .ok e := by
    rw [read_of_covers hblanked hcovers]
    exact ⟨_, rfl⟩
  exact ⟨e, he, ((read_in_contexts "a/b//c".toList (by decide)).1 e he).1⟩

end Goal
end ProbeScript
