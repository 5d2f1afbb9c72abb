import ProbeScript.Proofs.Layout
import ProbeScript.Proofs.Phrase.Follow
import ProbeScript.Proofs.Phrase.Moved
import ProbeScript.Proofs.Text.Joined

/-! Scripts one after the other. A script ends where its last probe does, so behind a script and a
line feed a text is read as it is read alone: into further probes, or to the same error further
on. -/
namespace ProbeScript

/-- Only white space and comments stand in the text. -/
def Text.Vacant (t : Text) : Prop := ∃ u, blanked t = .ok u ∧ ∀ c ∈ u, isLayout c = true

/-- What is said of a text, said of it once it stands behind another one and a line feed. The
summary may name a line too, and is left out. -/
structure Diagnostic.After (s : Text) (d d' : Diagnostic) : Prop where
  position_eq : d'.position = d.position.after s
  rule_eq : d'.rule = d.rule
  expected_eq : d'.expected = d.expected

/-- The same error of a text that stands behind another one and a line feed. -/
inductive ReadError.After (s : Text) : ReadError → ReadError → Prop
  | lexical {d d' : Diagnostic} : d.After s d' → After s (.lexical d) (.lexical d')
  | grammatical {d d' : Diagnostic} : d.After s d' → After s (.grammatical d) (.grammatical d')
  | digits (count : Nat) : After s (.digits count) (.digits count)

namespace Phrase

variable (k : Nat) {i j : Nat} {t u b : Text} {ts us : List Token} {source : Text} {n : Node}

/-- The tokens of a probe are those of no other. -/
private theorem Probe.tokens_inj {p q : Probe} (h : p.tokens = q.tokens)
    (hspelled : ∀ x ∈ p.tokens, x.Spelled) : p = q := by
  have hp := p.run_tokens [] hspelled
  have hq := q.run_tokens [] (h ▸ hspelled)
  rw [h, hq] at hp
  obtain ⟨rfl, -⟩ := List.cons.inj (Partial.probeDue.inj (Option.some.inj hp))
  rfl

private theorem alike_self (h : ∀ x ∈ ts, x.Spelled) : Alike ts ts := alike_iff.2 ⟨rfl, h, h⟩

private theorem alike_moved (h : ∀ x ∈ ts, x.Spelled) : Alike (ts.map (Token.moved k)) ts := by
  refine alike_iff.2 ⟨?_, ?_, h⟩
  · rw [List.map_map]
    rfl
  · intro x hx
    obtain ⟨y, hy, rfl⟩ := List.mem_map.1 hx
    exact h y hy

/-- A probe with tokens that are alike has the same tree. -/
private theorem Probe.forms_of_alike {p q : Probe} (h : Alike q.tokens p.tokens)
    (hn : p.tree source = .ok n) : Forms Probe.tree n q := by
  obtain ⟨q', hq, hforms⟩ := Probe.exists_alike h hn
  obtain rfl : q = q' := Probe.tokens_inj hq.symm (alike_iff.1 h).2.1
  exact hforms

/-- The probes of a script, and behind them those of a script that stands further on. -/
def Script.append (s s' : Script) : Script := ⟨s.first, s.others ++ s'.probes.map (Probe.moved k)⟩

private theorem Script.tokens_append (s s' : Script) :
    (s.append k s').tokens = s.tokens ++ s'.tokens.map (Token.moved k) := by
  simp [append, tokens, probes, List.map_flatMap, List.flatMap_map, Probe.tokens_moved]

private theorem Covers.append (h : Covers b ts) (h' : Covers u us) :
    Covers (b ++ '\n' :: u) (ts ++ us.map (Token.moved (b.length + 1))) := by
  have hshift := Scans.shift (b.length + 1) h'
  have hall := (h.line u).append (.layout rfl hshift)
  have hlength : (b ++ '\n' :: u).length = b.length + 1 + u.length := by
    rw [List.length_append, List.length_cons]
    omega
  rwa [Covers, hlength]

private theorem Covers.append_layout (h : Covers b ts) (hu : ∀ c ∈ u, Text.isLayout c = true) :
    Covers (b ++ '\n' :: u) ts := by
  have hlayout : Covers u [] := by
    have hdone := Scans.after_layout hu (.done (0 + u.length) [])
    rwa [List.append_nil, Nat.zero_add] at hdone
  have hall := h.append hlayout
  rwa [List.map_nil, List.append_nil] at hall

/-- Behind a script and a line feed the reader does as it does at the start of a text. -/
private theorem Script.read_behind {s : Script} (h : Covers b s.tokens) (u : Text) :
    (Partial.probeDue []).read 0 0 (b ++ '\n' :: u) =
      (((Partial.probeDue []).read 0 0 u).map (Partial.moved (b.length + 1) s.probes)).mapError
        fun (j, q) => (b.length + 1 + j, q.moved (b.length + 1) s.probes) := by
  have hfits : Partial.Fits (.probeDue s.probes) ('\n' :: u) := by
    rintro c ⟨⟩ hc
    cases hc
  have hreads := Partial.reads_of_scans (h.line u) (Script.run_tokens [] h.spelled) hfits
  have hmoved := Partial.read_moved (b.length + 1) s.probes (.probeDue []) 0 0 u
  rw [Partial.moved, List.map_nil, List.append_nil] at hmoved
  rw [hreads.read_eq, Partial.read, if_pos (show Text.isLayout '\n' = true from rfl)]
  exact hmoved

end Phrase

/-! What is reported of a text, and of the text behind another one. -/

variable {s t b u : Text}

private theorem Diagnostic.after_at {s t : Text} {i j : Nat} (h : j = s.length + 1 + i)
    (summary summary' : Text) (rule : Option Text) (expected : List Text) :
    After s ⟨summary, .at t i, rule, expected⟩
      ⟨summary', .at (s ++ '\n' :: t) j, rule, expected⟩ :=
  ⟨h ▸ Position.at_append s t i, rfl, rfl⟩

private theorem length_append_line (s t : Text) :
    (s ++ '\n' :: t).length = s.length + 1 + t.length := by
  rw [List.length_append, List.length_cons]
  omega

private theorem Diagnostic.after_ofFault (s t : Text) (fault : Segment.Fault) :
    (ofFault t fault).After s (ofFault (s ++ '\n' :: t) (fault.moved (s.length + 1))) := by
  cases fault with
  | invalidCharacter => exact after_at rfl ..
  | openString | openComment => exact after_at (length_append_line s t) ..

private theorem Diagnostic.after_ofStop {i j : Nat} (h : j = s.length + 1 + i)
    (waiting : List Phrase.Item) :
    (ofStop t i waiting).After s (ofStop (s ++ '\n' :: t) j waiting) :=
  after_at h ..

private theorem ReadError.after_ofTreeFault (s t : Text) (fault : Phrase.TreeFault) :
    (ofTreeFault t fault).After s (ofTreeFault (s ++ '\n' :: t) (fault.moved (s.length + 1))) := by
  cases fault with
  | digits count => exact .digits count
  | malformedSpec => exact .grammatical (Diagnostic.after_at rfl ..)

namespace Goal
open Phrase Segment

variable {d d' : Script} {n m : Node} {e : ReadError}

/-- The text has an error, and it has the same one behind the other text. -/
def FailsAfter (s t : Text) : Prop :=
  ∃ e e', script.read t = .error e ∧ script.read (s ++ '\n' :: t) = .error e' ∧ e.After s e'

private theorem failsAfter_of_fault (hs : Text.blanked s = .ok b) (hmark : unmarked t = t)
    {fault : Segment.Fault} (h : Text.blanked t = .error fault) : FailsAfter s t := by
  have hall := Text.blanked_append hs hmark
  rw [h] at hall
  exact ⟨_, _, read_of_fault h, read_of_fault hall, .lexical (Diagnostic.after_ofFault s t fault)⟩

/-- No probe has begun in a text of which nothing was read. -/
private theorem isLayout_of_read (h : (Partial.probeDue []).read 0 0 u = .ok (.probeDue [])) :
    ∀ c ∈ u, Text.isLayout c = true := by
  obtain ⟨ls, q, j, v, hreads, hend⟩ := Partial.exists_reads (.probeDue []) 0 u
  rw [hreads.read_eq] at h
  obtain ⟨ts, hscans, hrun, -⟩ := hreads.exists_scans
  rcases hend with rfl | ⟨c, v, rfl, hc, hn⟩
  · obtain rfl := Except.ok.inj h
    have htokens := Partial.run_scans (.done 0 u) hscans hrun
    obtain ⟨gap, rfl, -, hgap⟩ := htokens.exists_gap
    rwa [List.append_nil]
  · rw [Partial.read, if_neg (by simp [hc]), hn] at h
    cases h

private theorem script?_moved {p : Partial} (k : Nat) (ps : List Probe) (h : p.script? = none)
    (hne : p ≠ .probeDue []) : (p.moved k ps).script? = none := by
  cases p with
  | probeDue done =>
    cases done with
    | nil => exact absurd rfl hne
    | cons => cases h
  | _ => rfl

private theorem failsAfter_of_stop (hs : Text.blanked s = .ok b) (hd : Covers b d.tokens)
    (hmark : unmarked t = t) (ht : Text.blanked t = .ok u)
    (hno : ∀ d : Script, ¬ Covers u d.tokens) (hvacant : ¬ Text.Vacant t) : FailsAfter s t := by
  have hlength := Text.blanked_length hs
  have hall : Text.blanked (s ++ '\n' :: t) = .ok (b ++ '\n' :: u) := by
    rw [Text.blanked_append hs hmark, ht]
    rfl
  have hread := Script.read_behind hd u
  cases hp : (Partial.probeDue []).read 0 0 u with
  | error stop =>
    obtain ⟨i, p⟩ := stop
    rw [hp] at hread
    refine ⟨_, _, read_of_error ht hp, read_of_error hall hread, .grammatical ?_⟩
    rw [Partial.waiting_moved, hlength]
    exact Diagnostic.after_ofStop rfl _
  | ok p =>
    have hfinish : p.script? = none := by
      cases hf : p.script? with
      | none => rfl
      | some d' =>
        obtain rfl := (finish_eq_some_iff (g := script)).1 hf
        exact absurd ((read_eq_ok_iff (g := script)).1 hp) (hno d')
    have hne : p ≠ .probeDue [] := by
      rintro rfl
      exact hvacant ⟨u, ht, isLayout_of_read hp⟩
    rw [hp] at hread
    have hmoved := script?_moved (b.length + 1) d.probes hfinish hne
    refine ⟨_, _, read_of_unfinished ht hp hfinish, read_of_unfinished hall hread hmoved,
      .grammatical ?_⟩
    rw [Partial.waiting_moved]
    exact Diagnostic.after_ofStop (length_append_line s t) _

/-- Probes with tokens that are alike have the same trees. -/
private theorem forms_probes {source : Text} {ns : List Node} {ps qs : List Probe}
    (hn : List.Forall₂ (fun p n => p.tree source = .ok n) ps ns)
    (h : List.Forall₂ (fun p q => Alike q.tokens p.tokens) ps qs) :
    List.Forall₂ (Forms Probe.tree) ns qs := by
  induction hn generalizing qs with
  | nil =>
    cases h
    exact .nil
  | cons hp _ ih =>
    cases h with
    | cons hpq h => exact .cons (Probe.forms_of_alike hpq hp) (ih h)

/-- The probes of two scripts one after the other have the trees that they have in either. -/
private theorem forms_append (k : Nat) (hd : Covers b d.tokens) (hd' : Covers u d'.tokens)
    (hn : d.tree s = .ok n) (hm : d'.tree t = .ok m) :
    Forms Script.tree (.script (n.children ++ m.children) none) (d.append k d') := by
  obtain ⟨ns, hns, rfl⟩ := Script.tree_iff.1 hn
  obtain ⟨ms, hms, rfl⟩ := Script.tree_iff.1 hm
  have hself : List.Forall₂ (fun p q => Alike q.tokens p.tokens) d.probes d.probes := by
    refine List.forall₂_same.2 fun p hp => alike_self fun x hx => ?_
    exact hd.spelled x (List.mem_flatMap.2 ⟨p, hp, hx⟩)
  have hmoved : List.Forall₂ (fun p q => Alike q.tokens p.tokens) d'.probes
      (d'.probes.map (Probe.moved k)) := by
    refine List.forall₂_map_right_iff.2 (List.forall₂_same.2 fun p hp => ?_)
    rw [Probe.tokens_moved]
    refine alike_moved k fun x hx => ?_
    exact hd'.spelled x (List.mem_flatMap.2 ⟨p, hp, hx⟩)
  have hforms := forms_probes (mapM_eq_ok_iff.1 hns) hself
  have hforms' := forms_probes (mapM_eq_ok_iff.1 hms) hmoved
  exact Script.forms none (List.rel_append hforms hforms')

private theorem checks_append (k : Nat) (d d' : Script) :
    script.checks (d.append k d') = script.checks d ++ (script.checks d').map (Token.moved k) := by
  simp [checks, Script.append, Script.probes, List.map_flatMap, List.flatMap_map,
    Probe.checks_moved]

section
variable (hs : Text.blanked s = .ok b) (hd : Covers b d.tokens) (hn : d.tree s = .ok n)
  (hmark : unmarked t = t) (ht : Text.blanked t = .ok u)
include hs hd hn hmark ht

/-- Behind a script its probes are followed by those of the text. -/
private theorem readsAs_append (hd' : Covers u d'.tokens) (hm : d'.tree t = .ok m) :
    script.ReadsAs (s ++ '\n' :: t) (.script (n.children ++ m.children) none) := by
  have hall := Text.blanked_append hs hmark
  rw [ht] at hall
  obtain ⟨k, hk, hbare⟩ := forms_append (b.length + 1) hd hd' hn hm (s ++ '\n' :: t)
  have htree : script.tree (s ++ '\n' :: t) (d.append (b.length + 1) d') = .ok k := hk
  refine ⟨k, ?_, (Node.same_iff k _).2 hbare⟩
  rw [read_of_covers hall (Script.tokens_append _ d d' ▸ hd.append hd'), htree]
  rfl

private theorem readsAs_append_vacant (hu : ∀ c ∈ u, Text.isLayout c = true) :
    script.ReadsAs (s ++ '\n' :: t) n := by
  have hall := Text.blanked_append hs hmark
  rw [ht] at hall
  exact readsAs_of_alike (g := script) hall (hd.append_layout hu) (alike_self hd.spelled) hn rfl

private theorem failsAfter_of_fault_token (hd' : Covers u d'.tokens) {fault : TreeFault}
    (hf : (script.checks d').findSome? Token.fault? = some fault) : FailsAfter s t := by
  have hall := Text.blanked_append hs hmark
  rw [ht] at hall
  have hfirst := fault?_of_tree (g := script) hd hn
  have hfault : (script.checks (d.append (s.length + 1) d')).findSome? Token.fault? =
      some (fault.moved (s.length + 1)) := by
    rw [checks_append, List.findSome?_append, hfirst, Option.none_or, findSome?_moved, hf]
    rfl
  have hcovers := hd.append hd'
  rw [← Script.tokens_append, Text.blanked_length hs] at hcovers
  exact ⟨_, _, read_of_fault_token (g := script) ht hd' hf,
    read_of_fault_token (g := script) hall hcovers hfault, ReadError.after_ofTreeFault s t fault⟩

end

/-- Scripts one after the other, with a line feed between them. The probes of the second come after
those of the first; white space and comments add none; and any other text has the error that it has
alone, further on. -/
theorem read_append {s t : Text} {n : Node} (h : script.read s = .ok n)
    (hmark : t.head? ≠ some Text.byteOrderMark) :
    (∀ m, script.read t = .ok m →
      script.ReadsAs (s ++ '\n' :: t) (.script (n.children ++ m.children) none)) ∧
    (Text.Vacant t → script.ReadsAs (s ++ '\n' :: t) n) ∧
    ∀ e, script.read t = .error e → ¬ Text.Vacant t →
      ∃ e', script.read (s ++ '\n' :: t) = .error e' ∧ e.After s e' := by
  obtain ⟨b, d, hs, hd, hn⟩ := exists_covers_of_read h
  replace hmark := Text.unmarked_of_head?_ne hmark
  refine ⟨?_, ?_, ?_⟩
  · intro m hm
    obtain ⟨u, d', ht, hd', hm⟩ := exists_covers_of_read hm
    exact readsAs_append hs hd hn hmark ht hd' hm
  · rintro ⟨u, ht, hu⟩
    exact readsAs_append_vacant hs hd hn hmark ht hu
  · intro e he hvacant
    have hfails : FailsAfter s t := by
      cases ht : Text.blanked t with
      | error fault => exact failsAfter_of_fault hs hmark ht
      | ok u =>
        by_cases hcovers : ∃ d' : Script, Covers u d'.tokens
        · obtain ⟨d', hd'⟩ := hcovers
          cases hf : (script.checks d').findSome? Token.fault? with
          | some fault => exact failsAfter_of_fault_token hs hd hn hmark ht hd' hf
          | none =>
            obtain ⟨m, hm⟩ : ∃ m, script.tree t d' = .ok m := exists_tree hd' hf
            rw [read_of_covers (g := script) ht hd', hm] at he
            cases he
        · exact failsAfter_of_stop hs hd hmark ht (not_exists.1 hcovers) hvacant
    obtain ⟨e₀, e', he₀, he', hafter⟩ := hfails
    obtain rfl := Except.error.inj (he₀.symm.trans he)
    exact ⟨e', he', hafter⟩

/-- A script that ends in a line comment of more bytes than characters, and a stray slash. -/
theorem read_append_comment : ∃ d, script.read "p\x7bf();\x7d//é\n/".toList =
    .error (.grammatical d) ∧ d.position = ⟨12, 2, 1⟩ ∧ d.rule = some "probe_def".toList := by
  have hrow : Segment.Row "p\x7bf();\x7d//é".toList [.plain 'p', .plain '\x7b', .plain 'f',
      .plain '(', .plain ')', .plain ';', .plain '\x7d', .lineComment "//é".toList] [] :=
    .more rfl (.more rfl (.more rfl (.more rfl (.more rfl (.more rfl (.more rfl
      (.more rfl (.done []))))))))
  have hblanked : Text.blanked "p\x7bf();\x7d//é".toList = .ok "p\x7bf();\x7d   ".toList :=
    Text.blanked_eq_ok_iff.2 ⟨_, hrow, rfl⟩
  let call : Statement := .call (.bare ⟨2, ['f']⟩ ⟨3, ['(']⟩ ⟨4, [')']⟩) ⟨5, [';']⟩
  let d : script.Phrase :=
    (⟨⟨⟨0, ['p']⟩, none, ⟨1, ['\x7b']⟩, call, [], ⟨6, ['\x7d']⟩⟩, []⟩ : Script)
  have hcovers : Covers "p\x7bf();\x7d   ".toList (script.tokens d) := read_eq_ok_iff.1 rfl
  have hslash : Text.blanked "/".toList = .ok "/".toList :=
    Text.blanked_eq_ok_iff.2 ⟨[.plain '/'], .more rfl (.done []), rfl⟩
  obtain ⟨n, hn⟩ : ∃ n, script.read "p\x7bf();\x7d//é".toList = .ok n := by
    rw [read_of_covers hblanked hcovers]
    exact ⟨_, rfl⟩
  have hstop := read_of_error (g := script) (i := 0) (p := .probeDue []) hslash rfl
  have hvacant : ¬ Text.Vacant "/".toList := by
    rintro ⟨u, hu, hlayout⟩
    obtain rfl := Except.ok.inj (hslash.symm.trans hu)
    cases hlayout '/' List.mem_cons_self
  obtain ⟨e, he, hafter⟩ := (read_append hn (by decide)).2.2 _ hstop hvacant
  cases hafter with
  | @grammatical _ d' hafter =>
    refine ⟨d', he, hafter.position_eq.trans ?_, hafter.rule_eq⟩
    have hsize : (String.ofList "p\x7bf();\x7d//é".toList).utf8ByteSize = 11 := by
      rw [String.utf8ByteSize_ofList]
      rfl
    rw [Position.after, hsize]
    rfl

end Goal
end ProbeScript
