import ProbeScript.CommandLine.Run

/-! The program itself: it hands the words of its command line, the files they name and the lines
of the prompt to the tool, and writes what comes back. -/
namespace ProbeScript.Main
open CommandLine

def put (stream : IO.FS.Stream) (t : Text) : IO Unit := do
  stream.putStr (String.ofList t)
  stream.flush

def readFile (name : Text) : IO (Except FileFault ByteArray) := do
  try
    return .ok (← IO.FS.readBinFile (String.ofList name))
  catch
    | .inappropriateType .. => return .error .isFolder
    | _ => return .error .missing

def escapeText : Escape → Text
  | .file .missing => "No such file\n".toList
  | .file .isFolder => "The path leads to a folder\n".toList
  | .file .notFolder => "The path goes on after a file\n".toList
  | .undecodable => "Not a text in UTF-8\n".toList
  | .unshown e => e.message ++ ['\n']

def finish (o : Outcome) : IO UInt32 := do
  put (← IO.getStdout) o.output
  match o.ending with
  | .status n =>
    put (← IO.getStderr) o.errors
    return n.toUInt32
  | .escape e =>
    put (← IO.getStderr) (o.errors ++ escapeText e)
    return 1

partial def prompt (debug : Bool) (format : Format) : IO UInt32 := do
  put (← IO.getStdout) ['>']
  let line ← (← IO.getStdin).getLine
  if line.isEmpty then return 0
  let s := Prompt.step debug format (Text.dropEnd (· == '\n') line.toList)
  put (← IO.getStdout) s.output
  put (← IO.getStderr) s.errors
  prompt debug format

end ProbeScript.Main

open ProbeScript CommandLine in
def main (args : List String) : IO UInt32 := do
  match start (args.map String.toList) with
  | .finished o => Main.finish o
  | .prompt debug format => Main.prompt debug format
  | .files debug format names =>
    let contents ← names.mapM fun name => return (name, ← Main.readFile name)
    Main.finish (checkFiles debug format (fun name => (contents.lookup name).getD (.error .missing))
      names)
