import ProbeScript.Text.Basic

/-! The words of the command line. Options may stand anywhere among the names of scripts; a long
option may be cut short as long as only one begins that way. -/
namespace ProbeScript.CommandLine

/-- An option, known before or met on the command line. -/
structure Flag where
  short : Option Text
  long : Option Text
  takesValue : Bool
  deriving DecidableEq, Repr

namespace Flag

def help : Flag := ⟨some "-h".toList, some "--help".toList, false⟩
def format : Flag := ⟨none, some "--format".toList, true⟩
def debug : Flag := ⟨none, some "--debug".toList, false⟩

def known : List Flag := [help, format, debug]

/-- The name of an option, the long one if it has two. -/
def name (o : Flag) : Text := (o.long <|> o.short).getD []

end Flag

/-- A word of the command line once it is understood. -/
inductive Argument
  | script (name : Text)
  | flag (flag : Flag) (value : Option Text)
  deriving DecidableEq, Repr

inductive UsageError
  | ambiguous (word : Text) (candidates : List Text)
  | needlessValue (name : Text)
  | missingValue (name : Text)
  /-- The words are understood, but do not go together. -/
  | unfitting
  deriving DecidableEq, Repr

def UsageError.message : UsageError → Text
  | ambiguous word candidates =>
    word ++ " is not a unique prefix: ".toList ++ List.intercalate ", ".toList candidates ++ ['?']
  | needlessValue name => name ++ " must not have an argument".toList
  | missingValue name => name ++ " requires argument".toList
  | unfitting => []

/-- The options that a long word may mean: those of that name, or else those that begin so. -/
def matching (flags : List Flag) (word : Text) : List Flag :=
  match flags.filter (·.long == some word) with
  | [] => flags.filter fun o => o.long.any word.isPrefixOf
  | exact => exact

/-- A long word without its value, and the value if it has one. -/
def splitValue (word : Text) : Text × Option Text :=
  (word.takeWhile (· != '='), match word.dropWhile (· != '=') with
    | [] => none
    | _ :: value => some value)

/-- Reads a cluster of one-letter options. A letter that is not known is an option of its own. -/
def readShort (flags : List Flag) : Text → List Flag × List Argument
  | [] => (flags, [])
  | c :: rest =>
    match flags.find? (·.short == some ['-', c]) with
    | some o =>
      let (flags, args) := readShort flags rest
      (flags, .flag o none :: args)
    | none =>
      let o : Flag := ⟨some ['-', c], none, false⟩
      let (flags, args) := readShort (flags ++ [o]) rest
      (flags, .flag o none :: args)

/-- Reads the words with the given options known. An option that is not known takes a value if it
comes with one, and is known from then on. -/
def readWords (flags : List Flag) : List Text → Except UsageError (List Argument)
  | [] => .ok []
  | word :: rest =>
    if word == "--".toList then .ok ((word :: rest).map .script)
    else if "--".toList.isPrefixOf word then
      let (name, value) := splitValue word
      match matching flags name, value with
      | [], _ => do
        let o : Flag := ⟨none, some name, value.isSome⟩
        return .flag o value :: (← readWords (flags ++ [o]) rest)
      | [o], none =>
        if o.takesValue then
          match rest with
          | [] => .error (.missingValue o.name)
          | v :: rest => return .flag o (some v) :: (← readWords flags rest)
        else return .flag o none :: (← readWords flags rest)
      | [o], some v =>
        if o.takesValue then return .flag o (some v) :: (← readWords flags rest)
        else .error (.needlessValue o.name)
      | os, _ => .error (.ambiguous name (os.filterMap (·.long)))
    else if ['-'].isPrefixOf word && word != ['-'] then
      let (flags, args) := readShort flags (word.drop 1)
      return args ++ (← readWords flags rest)
    else return .script word :: (← readWords flags rest)

/-- What the command line asks for. -/
structure Request where
  debug : Bool
  format : Text
  scripts : List Text
  deriving DecidableEq, Repr

namespace Argument

def isHelp : Argument → Bool
  | flag o _ => o == .help
  | _ => false

def script? : Argument → Option Text
  | script name => some name
  | _ => none

/-- The value given to an option, each time that it was given. -/
def values (o : Flag) (args : List Argument) : List (Option Text) :=
  args.filterMap fun
    | flag p v => if p == o then some v else none
    | _ => none

/-- Whether the arguments are scripts and the two options that go with them. -/
def fits (args : List Argument) : Bool :=
  (args.all fun
    | flag o _ => o == .format || o == .debug
    | script _ => true) &&
  (values .format args).length ≤ 1 && (values .debug args).length ≤ 1

end Argument

/-- The request for help, which goes before all others, or else the one for scripts. -/
def request? (words : List Text) : Except UsageError (Option Request) := do
  let args ← readWords Flag.known words
  if args.any (·.isHelp) then return none
  if !Argument.fits args then .error .unfitting
  let format := match Argument.values .format args with
    | some f :: _ => f
    | _ => "tree".toList
  return some ⟨!(Argument.values .debug args).isEmpty, format, args.filterMap (·.script?)⟩

end ProbeScript.CommandLine
