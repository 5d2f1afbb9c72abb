import ProbeScript.Tree.FromText
import ProbeScript.Tree.Outline

/-! Showing what a text holds: its tree as an outline or as source again. -/
namespace ProbeScript

/-- The ways in which a tree can be shown. -/
inductive Format
  | tree | source
  deriving DecidableEq, Repr

namespace Format

def title : Format → Text
  | tree => "tree".toList
  | source => "source".toList

def ofTitle? (t : Text) : Option Format := [tree, source].find? (·.title == t)

def text : Format → Node → Except PrintError Text
  | tree => Node.outline
  | source => Node.source

end Format

/-- Why a text could not be shown. -/
inductive ShowError
  | read (e : ReadError)
  | print (e : PrintError)
  deriving DecidableEq, Repr

namespace ShowError

/-- What to say of the text, if the text is at fault. -/
def diagnostic? : ShowError → Option Diagnostic
  | read e => e.diagnostic?
  | print _ => none

def message : ShowError → Text
  | read e => e.message
  | print e => e.message

end ShowError

/-- The tree in the given format, and one line end after it. -/
def shown (format : Format) : Except ReadError Node → Except ShowError Text
  | .error e => .error (.read e)
  | .ok n =>
    match format.text n with
    | .error e => .error (.print e)
    | .ok t => .ok (Text.stripEnd t ++ ['\n'])

end ProbeScript
