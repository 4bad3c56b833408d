import Typecase.CommandLine
set_option autoImplicit false

/-!
# The command

Reads the files that the arguments name and runs on their contents.
-/

/-- Read a file, if that is possible. -/
def readInput (name : String) : IO (Option (String × String)) := do
  try return some (name, ← IO.FS.readFile name)
  catch _ => return none

def main (args : List String) : IO UInt32 := do
  let files ← (Typecase.CommandLine.inputs args).filterMapM readInput
  let out := Typecase.CommandLine.run (fun name => files.lookup name) args
  (← IO.getStdout).putStr out.stdout
  (← IO.getStderr).putStr out.stderr
  return out.status.toUInt32
