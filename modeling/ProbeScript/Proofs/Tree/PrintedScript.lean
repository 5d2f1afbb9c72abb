import ProbeScript.Proofs.Tree.Printed

/-! The texts of statements, probes and scripts. The parts of a probe stand on lines of their own; a
line feed between two of them keeps the words apart. -/
namespace ProbeScript.Phrase

open Node

variable {α : Type} {tokens : α → List Token} {tree : Text → α → Fallible Node} {n : Node}
  {ns : List Node} {t : Text} {ts : List Text}

private theorem mapM_of_forms {as : List α} (h : List.Forall₂ (Forms tree) ns as) (source : Text) :
    ∃ ms, as.mapM (tree source) = .ok ms ∧ bareAll ms = bareAll ns := by
  induction h with
  | nil => exact ⟨[], rfl, rfl⟩
  | @cons n a ns as ha _ ih =>
    obtain ⟨m, hm, hbare⟩ := ha source
    obtain ⟨ms, hms, hbares⟩ := ih
    refine ⟨m :: ms, ?_, by rw [bareAll, hbare, hbares, bareAll]⟩
    exact mapM_eq_ok_iff.2 (.cons hm (mapM_eq_ok_iff.1 hms))

/-- Rows that begin with a separator each. -/
private theorem Written.rows (f : Text → Text) (hf : ∀ t, Separated (f t))
    (h : List.Forall₂ (fun t n => Written tokens (Forms tree n.normal) (f t)) ts ns) :
    Separated (ts.flatMap f) ∧ Written (fun as : List α => as.flatMap tokens)
      (fun as => List.Forall₂ (Forms tree) (normalAll ns) as) (ts.flatMap f) := by
  induction h with
  | nil => exact ⟨fun c hc => (by cases hc), .nil [] .nil rfl⟩
  | @cons t n ts ns ht _ ih =>
    obtain ⟨hsep, hrest⟩ := ih
    rw [List.flatMap_cons]
    refine ⟨(hf t).append hsep, ?_⟩
    exact (ht.append hrest hsep).map (fun x => x.1 :: x.2) (fun _ => List.flatMap_cons)
      fun _ hx => .cons hx.1 hx.2

/-- A line feed comes before each row or after it. -/
private theorem newline_flatMap (f : Text → Text) (ts : List Text) (u : Text) :
    '\n' :: (ts.flatMap (fun t => f t ++ ['\n']) ++ u) =
      ts.flatMap (fun t => '\n' :: f t) ++ '\n' :: u := by
  induction ts with
  | nil => rfl
  | cons t ts ih => simp [ih]

/-! Statements. -/

theorem Statement.forms_assignment {target equal semicolon : Lexeme} {c : Chain} {value : Node}
    (h : Forms Chain.tree value c) (span span' : Option Span) :
    Forms Statement.tree (.assignment (.identifier target.text span) value span')
      (.assignment target equal c semicolon) := by
  intro source
  obtain ⟨m, hm, hbare⟩ := h source
  exact ⟨_, tree_assignment_iff.2 ⟨m, hm, rfl⟩, by rw [bare, hbare, bare]; rfl⟩

private theorem statement_written (h : IsStatement n) : ∃ t, n.source = .ok t ∧
    Written Statement.tokens (Forms Statement.tree n.normal) (t ++ [';']) := by
  have hsemicolon : Written (fun l : Lexeme => [⟨.semicolon, l⟩]) (·.text = [';']) [';'] :=
    .word (.mark rfl) (.char rfl (by decide))
  cases h with
  | @assignment name value span span' hname hvalue =>
    obtain ⟨t, ht, hwritten⟩ := expression_written hvalue
    refine ⟨name ++ " = ".toList ++ t, bind_eq_ok_iff.2 ⟨t, ht, rfl⟩, ?_⟩
    have hend := (hwritten.append hsemicolon (separated_cons (by decide))).layout (c := ' ') rfl
    have hequal := (hend.mark .equal rfl (by decide)).layout (c := ' ') rfl
    have hall := (Written.name hname).append hequal (separated_cons (by decide))
    rw [List.append_assoc, List.append_assoc]
    refine hall.map (fun x => .assignment x.1 x.2.1 x.2.2.1 x.2.2.2) (fun _ => rfl) ?_
    rintro ⟨target, equal, c, semicolon⟩ ⟨rfl, hc, -⟩
    exact Statement.forms_assignment hc.forms span span'
  | @call name args span hname hargs =>
    obtain ⟨t, ht, hwritten⟩ := call_written span hname fun a ha => argument_written (hargs a ha)
    refine ⟨t, ht, ?_⟩
    refine (hwritten.append hsemicolon (separated_cons (by decide))).map (fun x => .call x.1 x.2)
      (fun _ => rfl) ?_
    rintro ⟨c, semicolon⟩ ⟨hc, -⟩ source
    exact hc source

/-! Probes. -/

private theorem specNode_forms {parts : List (Option Text)} {l : Lexeme} (h : IsSpec parts)
    (hl : l.text = specText parts) (source : Text) :
    ∃ span, specNode source l = .ok (.spec parts span) := by
  have hsplit := ProbeSpec.split?_eq_some_iff.2 ⟨h, hl.symm⟩
  exact ⟨l.span source, by rw [specNode, hsplit]⟩

/-- The tree of a probe is put together from those of its parts. -/
theorem Probe.forms {parts : List (Option Text)} {predicate : Option Node} {body : List Node}
    {p : Probe} (span span' : Option Span)
    (hspec : ∀ source, ∃ span, specNode source p.spec = .ok (.spec parts span))
    (hguard : ∀ source, ∃ q, p.guard.mapM (·.predicate.tree source) = .ok q ∧
      bareSome q = bareSome predicate)
    (hbody : List.Forall₂ (Forms Statement.tree) body p.statements) :
    Forms Probe.tree (.probe (.spec parts span) predicate body span') p := by
  intro source
  obtain ⟨q, hq, hqbare⟩ := hguard source
  obtain ⟨ms, hms, hmsbare⟩ := mapM_of_forms hbody source
  obtain ⟨span'', hevent⟩ := hspec source
  refine ⟨.probe (.spec parts span'') q ms (p.spec.through source p.rbrace), ?_, ?_⟩
  · exact tree_iff.2 ⟨q, ms, _, hq, hms, hevent, rfl⟩
  · rw [bare, hqbare, hmsbare, bare]
    rfl

/-- The braces around the statements, each on a line of its own. -/
def blockText (body : List Text) : Text :=
  "\x7b\n".toList ++ body.flatMap (fun s => "    ".toList ++ s ++ ";\n".toList) ++ "\x7d\n".toList

private theorem blockText_cons (s : Text) (body : List Text) : blockText (s :: body) =
    '\x7b' :: '\n' :: ("    ".toList ++ (s ++ [';'])) ++
      (body.flatMap (fun s => '\n' :: ("    ".toList ++ (s ++ [';']))) ++ "\n\x7d\n".toList) := by
  have h := newline_flatMap (fun s => "    ".toList ++ (s ++ [';'])) body "\x7d\n".toList
  rw [show "\n\x7d\n".toList = '\n' :: "\x7d\n".toList from rfl, ← h, blockText, List.flatMap_cons]
  simp

private theorem block_written {body : List Node} (hne : body ≠ []) (h : ∀ s ∈ body, IsStatement s) :
    ∃ ts, sources body = .ok ts ∧
      Written (fun x : Lexeme × Statement × List Statement × Lexeme => ⟨.lbrace, x.1⟩ ::
          ((x.2.1 :: x.2.2.1).flatMap Statement.tokens ++ [⟨.rbrace, x.2.2.2⟩]))
        (fun x => List.Forall₂ (Forms Statement.tree) (normalAll body) (x.2.1 :: x.2.2.1))
        (blockText ts) := by
  obtain ⟨ts, hts, hall⟩ := exists_sources fun s hs => statement_written (h s hs)
  refine ⟨ts, hts, ?_⟩
  cases hall with
  | nil => exact absurd rfl hne
  | @cons t s ts body ht hs =>
    have hindent {t : Text} {s : Node}
        (h : Written Statement.tokens (Forms Statement.tree s.normal) (t ++ [';'])) :
        Written Statement.tokens (Forms Statement.tree s.normal)
          ('\n' :: ("    ".toList ++ (t ++ [';']))) :=
      ((((h.layout rfl).layout rfl).layout rfl).layout rfl).layout rfl
    have hempty : Written (fun _ : Unit => []) (fun _ => True) [] := .nil () trivial rfl
    have hbrace := (hempty.layout (c := '\n') rfl).mark .rbrace rfl (by decide)
    have hend := hbrace.layout (c := '\n') rfl
    obtain ⟨hsep, hrows⟩ := Written.rows (fun t => '\n' :: ("    ".toList ++ (t ++ [';'])))
      (fun t => separated_cons (by decide)) (hs.imp fun _ _ h => hindent h)
    have hbody := (hindent ht).append (hrows.append hend (separated_cons (by decide)))
      (hsep.append (separated_cons (by decide)))
    rw [blockText_cons]
    refine (hbody.mark .lbrace rfl (by decide)).map (fun x => (x.1, x.2.1, x.2.2.1, x.2.2.2.1))
      (fun _ => ?_) ?_
    · simp
    · rintro ⟨lbrace, s', ss, rbrace, _⟩ ⟨hs', hss, -⟩
      exact .cons hs' hss

private theorem probe_written (h : IsProbe n) :
    ∃ t, n.source = .ok t ∧ Written Probe.tokens (Forms Probe.tree n.normal) t := by
  obtain ⟨span, span', hparts, hpredicate, hne, hbody⟩ := h
  rename_i parts predicate body
  obtain ⟨ts, hts, hblock⟩ := block_written hne hbody
  have hspells := hparts.spells
  have hspec := Written.word hspells (hspells.kept (by decide) (by decide))
  have hbrace := hblock.layout (c := ' ') rfl
  cases predicate with
  | none =>
    refine ⟨_, bind_eq_ok_iff.2 ⟨_, rfl, bind_eq_ok_iff.2 ⟨_, rfl,
      bind_eq_ok_iff.2 ⟨ts, hts, rfl⟩⟩⟩, ?_⟩
    have htext : probeText (specText parts) none ts = specText parts ++ ' ' :: blockText ts := by
      simp [probeText, blockText]
    rw [htext]
    refine (hspec.append hbrace (separated_cons (by decide))).map
      (fun x => ⟨x.1, none, x.2.1, x.2.2.1, x.2.2.2.1, x.2.2.2.2⟩) (fun _ => rfl) ?_
    rintro ⟨l, lbrace, s, ss, rbrace⟩ ⟨hl, hss⟩
    exact Probe.forms span span' (specNode_forms hparts hl) (fun source => ⟨none, rfl, rfl⟩) hss
  | some q =>
    obtain ⟨t, ht, hwritten⟩ := expression_written (hpredicate q rfl)
    have hsource : sourceSome (some q) = .ok (some t) := bind_eq_ok_iff.2 ⟨t, ht, rfl⟩
    refine ⟨_, bind_eq_ok_iff.2 ⟨_, rfl, bind_eq_ok_iff.2 ⟨_, hsource,
      bind_eq_ok_iff.2 ⟨ts, hts, rfl⟩⟩⟩, ?_⟩
    have htext : probeText (specText parts) (some t) ts =
        specText parts ++ ' ' :: '/' :: ' ' :: (t ++ ' ' :: '/' :: ' ' :: blockText ts) := by
      simp [probeText, blockText]
    rw [htext]
    have hguard := (hwritten.append (hblock.slash.layout (c := ' ') rfl)
      (separated_cons (by decide))).slash.layout (c := ' ') rfl
    refine (hspec.append hguard (separated_cons (by decide))).map
      (fun x => ⟨x.1, some ⟨x.2.1, x.2.2.1, x.2.2.2.1⟩, x.2.2.2.2.1, x.2.2.2.2.2.1, x.2.2.2.2.2.2.1,
        x.2.2.2.2.2.2.2⟩) (fun _ => ?_) ?_
    · simp [Probe.tokens, Guard.tokens, Probe.statements]
    · rintro ⟨l, opening, c, closing, lbrace, s, ss, rbrace⟩ ⟨hl, hc, hss⟩
      refine Probe.forms span span' (specNode_forms hparts hl) (fun source => ?_) hss
      obtain ⟨m, hm, hbare⟩ := hc.forms source
      exact ⟨some m, Guard.mapM_some_iff.2 ⟨m, hm, rfl⟩, by rw [bareSome, hbare]; rfl⟩

/-! Scripts. -/

theorem Script.forms {p : Probe} {ps : List Probe} (span : Option Span)
    (h : List.Forall₂ (Forms Probe.tree) ns (p :: ps)) :
    Forms Script.tree (.script ns span) ⟨p, ps⟩ := by
  intro source
  obtain ⟨ms, hms, hbare⟩ := mapM_of_forms h source
  exact ⟨_, tree_iff.2 ⟨ms, hms, rfl⟩, by rw [bare, hbare, bare]⟩

theorem script_written (h : IsScript n) :
    ∃ t, n.source = .ok t ∧ Written Script.tokens (Forms Script.tree n.normal) t := by
  obtain ⟨span, hne, hprobes⟩ := h
  obtain ⟨ts, hts, hall⟩ := exists_sources fun p hp => probe_written (hprobes p hp)
  refine ⟨_, bind_eq_ok_iff.2 ⟨ts, hts, rfl⟩, ?_⟩
  cases hall with
  | nil => exact absurd rfl hne
  | @cons t p ts ps ht hs =>
    obtain ⟨hsep, hrows⟩ := Written.rows (['\n'] ++ ·) (fun t => separated_cons (by decide))
      (hs.imp fun _ _ h => h.layout rfl)
    rw [intercalate_cons]
    refine (ht.append hrows hsep).map (fun x => ⟨x.1, x.2⟩) (fun _ => rfl) ?_
    rintro ⟨p', ps'⟩ ⟨hp', hps'⟩
    exact Script.forms span (.cons hp' hps')

end ProbeScript.Phrase
