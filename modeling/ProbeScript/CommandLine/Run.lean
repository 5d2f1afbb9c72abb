import ProbeScript.Prompt
import ProbeScript.CommandLine.Arguments
import ProbeScript.CommandLine.Folder

/-! The command line tool: it checks script files and shows their trees, or starts the prompt. -/
namespace ProbeScript.CommandLine

/-- Why a run ends before its time. -/
inductive Escape
  | file (fault : FileFault)
  | undecodable
  /-- A numeral is too long to be read or written. -/
  | unshown (e : ShowError)
  deriving DecidableEq, Repr

inductive Ending
  | status (n : Nat)
  | escape (e : Escape)
  deriving DecidableEq, Repr

/-- How a run ends and what it leaves on the two streams. -/
structure Outcome where
  ending : Ending
  output : Text
  errors : Text
  deriving DecidableEq, Repr

def usage : Text :=
  ("Usage:\n" ++
    "    dscript [--debug] [--format=<fmt>]\n" ++
    "    dscript (-h | --help)\n" ++
    "    dscript [--debug] [--format=<fmt>] <script>...\n").toList

def helpText : Text :=
  "Check dscript probe definitions.\n\n".toList ++ usage ++
    ("\nOptions:\n" ++
      "    -h, --help          Show a brief usage summary.\n" ++
      "    --format=<fmt>      Show parsed scripts as \"tree\" or \"source\". [default: tree]\n" ++
      "    --debug             Log parser activity to standard error.\n" ++
      "\n" ++
      "    <script>            Parse and show a script file. With no scripts, " ++
      "start an interactive\n" ++
      "                        prompt.\n").toList

/-- A file's content as text, each of its line ends a line feed. -/
def decoded? (bytes : ByteArray) : Option Text :=
  (String.fromUTF8? bytes).map fun s => Text.unixLines s.toList

/-- The files in order, up to the first that cannot be shown. -/
def checkFiles (debug : Bool) (format : Format) (files : Files) : List Text → Outcome
  | [] => ⟨.status 0, [], []⟩
  | name :: rest =>
    match files name with
    | .error fault => ⟨.escape (.file fault), [], []⟩
    | .ok bytes =>
      match decoded? bytes with
      | none => ⟨.escape .undecodable, [], []⟩
      | some source =>
        let log := if debug then Journal.text (Journal.ofScript source) else []
        match shown format (readScript source) with
        | .ok t =>
          let others := checkFiles debug format files rest
          ⟨others.ending, t ++ others.output, log ++ others.errors⟩
        | .error e =>
          match e.diagnostic? with
          | some d => ⟨.status 1, [], log ++ name ++ ": ".toList ++ d.message ++ ['\n']⟩
          | none => ⟨.escape (.unshown e), [], log⟩

/-- What a command line leads to. -/
inductive Start
  | finished (outcome : Outcome)
  | files (debug : Bool) (format : Format) (names : List Text)
  | prompt (debug : Bool) (format : Format)

def complaint (e : UsageError) : Text :=
  (if e.message.isEmpty then [] else e.message ++ ['\n']) ++ usage

def start (words : List Text) : Start :=
  match request? words with
  | .error e => .finished ⟨.status 1, [], complaint e⟩
  | .ok none => .finished ⟨.status 0, helpText, []⟩
  | .ok (some r) =>
    match Format.ofTitle? r.format with
    | none => .finished ⟨.status 2, [], "Unknown format: ".toList ++ r.format ++ ['\n']⟩
    | some format =>
      if r.scripts.isEmpty then .prompt r.debug format else .files r.debug format r.scripts

end ProbeScript.CommandLine
