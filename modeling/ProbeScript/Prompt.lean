import ProbeScript.Display
import ProbeScript.Journal

/-! The interactive prompt. Each line is read as a script, or else as an expression, and the tree
is shown; an error is shown and the session goes on. -/
namespace ProbeScript.Prompt

/-- The tree of a line that holds a script or an expression. A line that is neither has the error
of a script, which tells more. -/
def read (line : Text) : Except ReadError Node :=
  match readScript line with
  | .error (.grammatical d) =>
    match readExpression line with
    | .ok n => .ok n
    | .error (.digits count) => .error (.digits count)
    | .error _ => .error (.grammatical d)
  | outcome => outcome

/-- What is shown for a line: for a blank one, nothing. -/
def answer (format : Format) (line : Text) : Except ShowError Text :=
  if Text.isBlank line then .ok [] else shown format (read line)

/-- What reading a line tells of its course. -/
def journal (line : Text) : List Event :=
  if Text.isBlank line then []
  else Journal.ofScript line ++
    match readScript line with
    | .error (.grammatical _) => Journal.ofExpression line
    | _ => []

def lineEnd : Text := ['\r', '\n']

/-- What is said of an error. One that is not about the text is only announced: the trace of the
calls that led to it, which is written after the announcement, is left out. -/
def complaint (e : ShowError) : Text :=
  match e.diagnostic? with
  | some d => d.message ++ lineEnd
  | none => "Unexpected Python error:".toList ++ lineEnd

/-- What a line leaves on the two streams. -/
structure Step where
  output : Text
  errors : Text
  deriving DecidableEq, Repr

def step (debug : Bool) (format : Format) (line : Text) : Step :=
  let log := if debug then Journal.text (journal line) else []
  match answer format line with
  | .ok t => ⟨t, log⟩
  | .error e => ⟨[], log ++ complaint e⟩

/-- What comes from the keyboard. -/
inductive Input
  | line (t : Text)
  | interrupt
  deriving DecidableEq, Repr

/-- The steps of a session. An interrupt ends it, and so does the end of the input. -/
def session (debug : Bool) (format : Format) : List Input → List Step
  | .line t :: rest => step debug format t :: session debug format rest
  | _ => []

end ProbeScript.Prompt
