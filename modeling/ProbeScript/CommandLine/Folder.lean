import ProbeScript.Text.Basic

/-! A folder of files and the paths that lead to them. Empty steps of a path and single dots stay
where they are, and two dots lead one folder up. Of what lies outside the folder nothing is known
but that it is not a file. -/
namespace ProbeScript.CommandLine

/-- Why a path leads to no file. -/
inductive FileFault
  | missing
  /-- The path ends at a folder. -/
  | isFolder
  /-- The path goes on after a file. -/
  | notFolder
  deriving DecidableEq, Repr

/-- How a name leads to the content of a file. -/
abbrev Files := Text → Except FileFault ByteArray

/-- The files of a folder and of those below it, each under the steps that lead to it. -/
abbrev Folder := List (List Text × ByteArray)

namespace Folder

/-- How far a path has led. -/
inductive Place
  | inside (path : List Text)
  | outside
  | file (content : ByteArray)

/-- Whether a step names nothing. -/
def isDots (name : Text) : Bool := name == [] || name == ".".toList || name == "..".toList

def step (f : Folder) : Place → Text → Except FileFault Place
  | .file _, _ => .error .notFolder
  | .outside, name => if isDots name then .ok .outside else .error .missing
  | .inside path, name =>
    if name == "..".toList then .ok (if path.isEmpty then .outside else .inside path.dropLast)
    else if isDots name then .ok (.inside path)
    else match f.lookup (path ++ [name]) with
      | some content => .ok (.file content)
      | none =>
        if f.any fun (p, _) => (path ++ [name]).isPrefixOf p then .ok (.inside (path ++ [name]))
        else .error .missing

/-- The file at a path that starts in the folder, or outside of it when it starts with a slash. -/
def files (f : Folder) : Files
  | [] => .error .missing
  | name@(c :: _) => do
    match ← (Text.pieces '/' name).foldlM f.step (if c == '/' then .outside else .inside []) with
    | .file content => .ok content
    | _ => .error .isFolder

/-- The folder of the given files, each with its path. -/
def ofList (fs : List (Text × ByteArray)) : Folder := fs.map fun (name, content) =>
  (Text.pieces '/' name, content)

end Folder
end ProbeScript.CommandLine
