import IntScript.CommandLine

/-!
# The program

Reads the file at the path given first on the command line, and shows the reply to what it holds.
-/

namespace IntScript.CommandLine

/-- What is found at a path. -/
def readInput (path : String) : IO Input := do
  try
    return .content (← IO.FS.readBinFile path)
  catch e =>
    match e with
    | .noFileOrDirectory .. => return .unreadable .missing
    | .inappropriateType _ 21 _ => return .unreadable .directory
    | e => return .unreadable (.other (toString e))

/-- Shows a reply and gives its exit code. -/
def present (r : Reply) : IO UInt32 := do
  (← IO.getStdout).putStr r.stdout
  (← IO.getStderr).putStr r.stderr
  return r.code.toUInt32

end IntScript.CommandLine

open IntScript.CommandLine in
def main (args : List String) : IO UInt32 := do
  match ← respond IntScript.ampleFuel readInput args with
  | some r => present r
  | none => return 1
