import ImplicitDynamics.CommandLine.Execution

/-!
# The program

Reads the file that the arguments name, executes the command and prints what
it leaves.
-/

open ImplicitDynamics CommandLine

/-- What an error of the system says about a file. -/
def fileFault : IO.Error → FileFault
  | .noFileOrDirectory .. => .missing
  | .permissionDenied .. => .denied
  | .inappropriateType _ code _ => if code = 20 then .notFolder else .isFolder
  | error => .other (toString error)

/-- The text of a file, or why there is none. -/
def readText (path : String) : IO (Except FileFault String) := do
  try
    match String.fromUTF8? (← IO.FS.readBinFile path) with
    | some text => return .ok text
    | none => return .error .notText
  catch error => return .error (fileFault error)

def main (arguments : List String) : IO UInt32 := do
  match ← execute readText arguments with
  | .refused =>
    IO.eprintln "error: the arguments are not understood\n\nFor more information, try '--help'."
    return 2
  | .failed failure =>
    IO.eprint failure.report
    return 1
  | .lines lines =>
    lines.forM IO.println
    return 0
  | .document document =>
    IO.println document.write
    return 0
