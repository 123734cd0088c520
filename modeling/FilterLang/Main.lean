import FilterLang.CommandLine

/-!
# The program

Reads files and prints; everything else is `CommandLine.runArguments`.  At most one file is read,
and it is the one that the options name.
-/

namespace FilterLang.CommandLine

/-- The text of a file, or why it cannot be read. -/
def loadFile (path : String) : IO (Except String String) := do
  try
    return .ok (← IO.FS.readFile path)
  catch e =>
    match e with
    | .noFileOrDirectory .. => return .error "No such file or directory (os error 2)"
    | _ => return .error (toString e)

end FilterLang.CommandLine

open FilterLang.CommandLine in
/-- Runs the command line. -/
def main (args : List String) : IO UInt32 := do
  let file ← match (Words.read? args).bind fun said => said.schema with
    | some path => loadFile path
    | none => pure (.error "")
  let report := runArguments (fun _ => file) args
  (← IO.getStdout).putStr report.out
  (← IO.getStderr).putStr report.err
  return report.code.toUInt32
