import ProbeScript.Proofs.Message
import ProbeScript.Proofs.Prompt

/-! A session as a loop. Each turn asks for a line and runs it, and what a turn raises is caught:
the loop is left only when the lines end or are interrupted. It comes to its end for every input,
and in each turn it writes what its own line leads to. -/
namespace ProbeScript.Prompt

/-- What stands to be read, and what was written so far. -/
structure Console where
  inputs : List Input
  written : Step

def Console.add (c : Console) (s : Step) : Console :=
  { c with written := ⟨c.written.output ++ s.output, c.written.errors ++ s.errors⟩ }

/-- What stops a turn before it is done. -/
inductive Raised
  | shown (e : ShowError)
  | ended
  | interrupted

/-- A part of a turn. What was written before it is stopped stays. -/
abbrev Action := ExceptT Raised (StateM Console)

def ask : Action Text := do
  match (← get).inputs with
  | [] => throw .ended
  | .interrupt :: rest =>
    modify ({ · with inputs := rest })
    throw .interrupted
  | .line t :: rest =>
    modify ({ · with inputs := rest })
    return t

/-- Reading tells of its course before it gives a tree or fails. -/
def parse (debug : Bool) (events : List Event) (r : Except ReadError Node) : Action Node := do
  if debug then modify (·.add ⟨[], Journal.text events⟩)
  match r with
  | .ok n => return n
  | .error e => throw (.shown (.read e))

/-- A line is tried as an expression if it does not follow the grammar of a script, and of two
complaints that of the script stands. -/
def parseLine (debug : Bool) (line : Text) : Action Node :=
  tryCatch (parse debug (Journal.ofScript line) (readScript line)) fun
    | .shown (.read (.grammatical d)) =>
      tryCatch (parse debug (Journal.ofExpression line) (readExpression line)) fun
        | .shown e => throw (.shown (if e.diagnostic?.isSome then .read (.grammatical d) else e))
        | r => throw r
    | r => throw r

def execute (debug : Bool) (format : Format) (line : Text) : Action Unit := do
  if Text.isBlank line then return
  let n ← parseLine debug line
  match format.text n with
  | .ok t => modify (·.add ⟨Text.stripEnd t ++ ['\n'], []⟩)
  | .error e => throw (.shown (.print e))

/-- What is made of the end of a turn, and whether there is to be another. As in `complaint`, the
trace of the calls that led to an error not about the text is left out. -/
def handle : Except Raised Unit → Console → Bool × Console
  | .ok (), c => (true, c)
  | .error (.shown e), c =>
    match e.diagnostic? with
    | some d => (true, c.add ⟨[], d.message ++ lineEnd⟩)
    | none => (true, c.add ⟨[], "Unexpected Python error:".toList ++ lineEnd⟩)
  | .error .ended, c | .error .interrupted, c => (false, c)

def turn (debug : Bool) (format : Format) (c : Console) : Bool × Console :=
  let (r, c') := (ask >>= execute debug format).run c
  handle r c'

/-- The loop comes to its end, and this is what its turns write, the last one apart. -/
inductive Returns (debug : Bool) (format : Format) : Console → List Step → Console → Prop
  | left {c c' : Console} : turn debug format c = (false, c') → Returns debug format c [] c'
  | again {c c' c'' : Console} {s : Step} {ss : List Step} :
      turn debug format c = (true, c') → c'.written = (c.add s).written →
      Returns debug format c' ss c'' → Returns debug format c (s :: ss) c''

/-- There is no line to be read next. -/
def Stops (inputs : List Input) : Prop := inputs = [] ∨ ∃ later, inputs = .interrupt :: later

variable {debug : Bool} {format : Format} {line : Text} {c c' : Console} {rest : List Input}

private theorem Console.add_add (c : Console) (s s' : Step) : (c.add s).add s' =
    c.add ⟨s.output ++ s'.output, s.errors ++ s'.errors⟩ := by
  simp only [add, List.append_assoc]

private theorem Console.add_nil (c : Console) : c.add ⟨[], []⟩ = c := by
  simp only [add, List.append_nil]

private theorem parse_run (events : List Event) (r : Except ReadError Node) :
    (parse debug events r).run c = (r.mapError (.shown ∘ .read),
      c.add ⟨[], if debug then Journal.text events else []⟩) := by
  cases debug with
  | false =>
    have hnil : c.add ⟨[], if false then Journal.text events else []⟩ = c := c.add_nil
    rw [hnil]
    cases r <;> rfl
  | true => cases r <;> rfl

private theorem tryCatch_run {α : Type} (x : Action α) (handle : Raised → Action α) (c : Console) :
    (tryCatch x handle).run c =
      match x.run c with
      | (.ok a, c') => (.ok a, c')
      | (.error r, c') => (handle r).run c' := by
  rw [ExceptT.run_tryCatch]
  change StateT.bind x.run _ c = _
  rw [StateT.bind]
  rcases x.run c with ⟨_ | _, c'⟩ <;> rfl

private theorem journal_of_grammatical {d : Diagnostic} (h : Text.isBlank line = false)
    (hread : readScript line = .error (.grammatical d)) :
    journal line = Journal.ofScript line ++ Journal.ofExpression line := by
  rw [journal, if_neg (by simp [h]), hread]

private theorem journal_of_ne (h : Text.isBlank line = false)
    (hread : ∀ d, readScript line ≠ .error (.grammatical d)) :
    journal line = Journal.ofScript line := by
  rw [journal, if_neg (by simp [h])]
  split
  case h_1 d hd => exact absurd hd (hread d)
  case h_2 => exact List.append_nil _

/-- A line is read as told before, and what it tells of its course is on the errors. -/
private theorem parseLine_run (h : Text.isBlank line = false) : (parseLine debug line).run c =
    ((read line).mapError (.shown ∘ .read),
      c.add ⟨[], if debug then Journal.text (journal line) else []⟩) := by
  rw [parseLine, tryCatch_run, parse_run, read]
  cases hread : readScript line with
  | ok n =>
    rw [journal_of_ne h (by simp [hread])]
    rfl
  | error e =>
    cases e with
    | lexical d | digits k =>
      rw [journal_of_ne h (by simp [hread])]
      rfl
    | grammatical d =>
      have hcourse : (c.add ⟨[], if debug then Journal.text (Journal.ofScript line) else []⟩).add
            ⟨[], if debug then Journal.text (Journal.ofExpression line) else []⟩ =
          c.add ⟨[], if debug then Journal.text (journal line) else []⟩ := by
        rw [Console.add_add, journal_of_grammatical h hread, Journal.text, Journal.text,
          Journal.text, List.flatMap_append]
        cases debug <;> rfl
      dsimp only [Except.mapError, Function.comp]
      rw [tryCatch_run, parse_run, hcourse]
      cases readExpression line with
      | ok n => rfl
      | error e => cases e <;> rfl

private theorem bind_run {α β : Type} (x : Action α) (f : α → Action β) (c : Console) :
    (x >>= f).run c =
      match x.run c with
      | (.ok a, c') => (f a).run c'
      | (.error r, c') => (.error r, c') := by
  rw [ExceptT.run_bind]
  change StateT.bind x.run _ c = _
  rw [StateT.bind]
  rcases x.run c with ⟨_ | _, c'⟩ <;> rfl

/-- Running a line shows what there is to be shown, after what is told of the course. -/
private theorem execute_run : (execute debug format line).run c =
    let log := if debug then Journal.text (journal line) else []
    match answer format line with
    | .ok t => (.ok (), c.add ⟨t, log⟩)
    | .error e => (.error (.shown e), c.add ⟨[], log⟩) := by
  cases hblank : Text.isBlank line with
  | true =>
    rw [answer, if_pos hblank, journal, if_pos hblank, execute, if_pos hblank]
    cases debug <;> exact congrArg (Prod.mk _) c.add_nil.symm
  | false =>
    rw [answer_of_not_blank hblank, execute, if_neg (by simp [hblank]), bind_run,
      parseLine_run hblank]
    cases read line with
    | error e => rfl
    | ok n =>
      dsimp only [Except.mapError, shown]
      cases format.text n with
      | error e => rfl
      | ok t =>
        have hadd : (c.add ⟨[], if debug then Journal.text (journal line) else []⟩).add
            ⟨Text.stripEnd t ++ ['\n'], []⟩ = c.add ⟨Text.stripEnd t ++ ['\n'],
              if debug then Journal.text (journal line) else []⟩ := by
          rw [Console.add_add, List.append_nil, List.nil_append]
        dsimp only
        rw [← hadd]
        rfl

/-- A line has one turn, whatever was written before. -/
private theorem turn_line (debug : Bool) (format : Format) (line : Text) (rest : List Input)
    (s : Step) :
    turn debug format ⟨.line line :: rest, s⟩ =
      (true, Console.add ⟨rest, s⟩ (step debug format line)) := by
  have hask : ask.run ⟨.line line :: rest, s⟩ = (.ok line, ⟨rest, s⟩) := rfl
  rw [turn, bind_run, hask]
  dsimp only
  rw [execute_run, step]
  cases answer format line with
  | ok t => rfl
  | error e =>
    dsimp only
    rw [handle, complaint]
    cases e.diagnostic? with
    | some d =>
      dsimp only
      rw [Console.add_add, List.append_nil]
    | none =>
      dsimp only
      rw [Console.add_add, List.append_nil]

/-- Neither the end of the lines nor an interrupt writes anything. -/
private theorem turn_left (debug : Bool) (format : Format) (s : Step) (h : Stops rest) :
    turn debug format ⟨rest, s⟩ = (false, ⟨rest.tail, s⟩) := by
  obtain rfl | ⟨later, rfl⟩ := h <;> rfl

private theorem Console.add_cancel {s s' : Step} (h : (c.add s).written = (c.add s').written) :
    s = s' := by
  obtain ⟨houtput, herrors⟩ := Step.mk.inj h
  cases s
  cases s'
  rw [Step.mk.injEq]
  exact ⟨List.append_cancel_left houtput, List.append_cancel_left herrors⟩

theorem Returns.unique {ss ss' : List Step} {c c' c'' : Console} (h : Returns debug format c ss c')
    (h' : Returns debug format c ss' c'') : ss = ss' ∧ c' = c'' := by
  induction h generalizing ss' with
  | left hturn =>
    cases h' with
    | left hturn' => exact ⟨rfl, (Prod.mk.inj (hturn.symm.trans hturn')).2⟩
    | again hturn' => cases hturn.symm.trans hturn'
  | again hturn hwritten _ ih =>
    cases h' with
    | left hturn' => cases hturn.symm.trans hturn'
    | again hturn' hwritten' hrest =>
      obtain ⟨-, rfl⟩ := Prod.mk.inj (hturn.symm.trans hturn')
      obtain rfl := Console.add_cancel (hwritten.symm.trans hwritten')
      obtain ⟨rfl, rfl⟩ := ih hrest
      exact ⟨rfl, rfl⟩

/-- Each line has a turn of its own, up to an interrupt or the end of the lines. -/
private theorem exists_returns (debug : Bool) (format : Format) (lines : List Text) (s : Step)
    (h : Stops rest) :
    ∃ written, Returns debug format ⟨lines.map .line ++ rest, s⟩ (lines.map (step debug format))
      ⟨rest.tail, written⟩ := by
  induction lines generalizing s with
  | nil => exact ⟨s, .left (turn_left debug format s h)⟩
  | cons line lines ih =>
    have hturn := turn_line debug format line (lines.map .line ++ rest) s
    obtain ⟨written, hwritten⟩ := ih (Console.add ⟨lines.map .line ++ rest, s⟩ _).written
    exact ⟨written, .again hturn rfl hwritten⟩

private theorem exists_returns_iff (debug : Bool) (format : Format) (lines : List Text) (s : Step)
    (h : Stops rest) :
    ∃ written, ∀ ss c, Returns debug format ⟨lines.map .line ++ rest, s⟩ ss c ↔
      ss = lines.map (step debug format) ∧ c = ⟨rest.tail, written⟩ := by
  obtain ⟨written, hreturns⟩ := exists_returns debug format lines s h
  refine ⟨written, fun ss c => ?_⟩
  constructor
  · intro hother
    exact hother.unique hreturns
  · rintro ⟨rfl, rfl⟩
    exact hreturns

private theorem session_lines (debug : Bool) (format : Format) (lines : List Text)
    (h : Stops rest) :
    session debug format (lines.map .line ++ rest) = lines.map (step debug format) := by
  induction lines with
  | nil => obtain rfl | ⟨later, rfl⟩ := h <;> rfl
  | cons line lines ih =>
    rw [List.map_cons, List.cons_append, session, ih, List.map_cons]

/-- All inputs are lines up to where they stop. -/
private theorem exists_lines (inputs : List Input) :
    ∃ (lines : List Text) (rest : List Input), inputs = lines.map .line ++ rest ∧ Stops rest := by
  induction inputs with
  | nil => exact ⟨[], [], rfl, .inl rfl⟩
  | cons input inputs ih =>
    cases input with
    | interrupt => exact ⟨[], _, rfl, .inr ⟨inputs, rfl⟩⟩
    | line line =>
      obtain ⟨lines, rest, rfl, hrest⟩ := ih
      exact ⟨line :: lines, rest, rfl, hrest⟩

private theorem Refuses.newline_not_mem {e : ShowError} {d : Diagnostic} (h : Refuses format line e)
    (hd : e.diagnostic? = some d) : '\n' ∉ d.message := by
  cases h with
  | neither hscript => exact Goal.newline_not_mem_message hscript hd
  | numeral | integer => cases hd

private theorem step_of_ok {o : Text} (h : answer format line = .ok o) :
    step false format line = ⟨o, []⟩ := by
  rw [step, h]
  rfl

private theorem step_of_error {e : ShowError} (h : answer format line = .error e) :
    step false format line = ⟨[], complaint e⟩ := by
  rw [step, h]
  rfl

/-- A complaint is a message about the line, or says that there is something else amiss. -/
private theorem Refuses.complaint_cases {e : ShowError} (h : Refuses format line e) :
    (∃ d, e.diagnostic? = some d ∧ '\n' ∉ d.message ∧ complaint e = d.message ++ lineEnd) ∨
      e.diagnostic? = none ∧ complaint e = "Unexpected Python error:".toList ++ lineEnd := by
  rw [complaint]
  cases hd : e.diagnostic? with
  | some d => exact .inl ⟨d, rfl, h.newline_not_mem hd, rfl⟩
  | none => exact .inr ⟨rfl, rfl⟩

private theorem complaint_ne_nil (e : ShowError) : complaint e ≠ [] := by
  rw [complaint]
  split
  all_goals exact List.append_ne_nil_of_right_ne_nil _ (List.cons_ne_nil _ _)

/-- A session survives whatever comes from the keyboard. The loop comes to its end, in one way
only; every line before the first interrupt has a turn of its own, and what follows the interrupt
is left unread. What a turn writes depends on its line alone: nothing for a blank line, or else the
tree, or else one complaint. -/
theorem session_survives (format : Format) :
    (∀ debug inputs s, ∃ (lines : List Text) (rest : List Input),
      inputs = lines.map .line ++ rest ∧ Stops rest ∧
      session debug format inputs = lines.map (step debug format) ∧
      ∃ written, ∀ ss c, Returns debug format ⟨inputs, s⟩ ss c ↔
        ss = session debug format inputs ∧ c = ⟨rest.tail, written⟩) ∧
    ∀ line, let s := step false format line
      (Text.isBlank line = true ∧ s.output = [] ∧ s.errors = []) ∨
      (Text.isBlank line = false ∧ s.output ≠ [] ∧ s.errors = [] ∧
        ∃ (g : Goal) (n : Node) (t : Text), g.read line = .ok n ∧ format.text n = .ok t ∧
          s.output = Text.stripEnd t ++ ['\n']) ∨
      (Text.isBlank line = false ∧ s.output = [] ∧ s.errors ≠ [] ∧ ∃ e, Refuses format line e ∧
        ((∃ d, e.diagnostic? = some d ∧ '\n' ∉ d.message ∧ s.errors = d.message ++ lineEnd) ∨
          (e.diagnostic? = none ∧ s.errors = "Unexpected Python error:".toList ++ lineEnd))) := by
  refine ⟨fun debug inputs s => ?_, fun line => ?_⟩
  case refine_2 =>
    cases hblank : Text.isBlank line with
    | true =>
      have hanswer : answer format line = .ok [] := if_pos hblank
      rw [step_of_ok hanswer]
      exact .inl ⟨rfl, rfl, rfl⟩
    | false =>
      cases hanswer : answer format line with
      | ok o =>
        obtain ⟨g, n, t, hn, ht, rfl⟩ := (answer_eq_ok_iff hblank).1 hanswer
        have hne : Text.stripEnd t ++ ['\n'] ≠ [] :=
          List.append_ne_nil_of_right_ne_nil _ (List.cons_ne_nil _ _)
        rw [step_of_ok hanswer]
        exact .inr (.inl ⟨rfl, hne, rfl, g, n, t, hn, ht, rfl⟩)
      | error e =>
        have hrefuses := (answer_eq_error_iff hblank).1 hanswer
        rw [step_of_error hanswer]
        exact .inr (.inr ⟨rfl, rfl, complaint_ne_nil e, e, hrefuses, hrefuses.complaint_cases⟩)
  obtain ⟨lines, rest, rfl, hrest⟩ := exists_lines inputs
  have hsession := session_lines debug format lines hrest
  refine ⟨lines, rest, rfl, hrest, hsession, ?_⟩
  rw [hsession]
  exact exists_returns_iff debug format lines s hrest

end ProbeScript.Prompt
