import ScriptFront.Command.Run

/-!
# The program

Reads the file, writes the streams and gives the exit code.
-/

open ScriptFront.Command

def readSource (path : String) : IO (Except ReadFailure String) := do
  try
    match String.fromUTF8? (← IO.FS.readBinFile path) with
    | some source => pure (.ok source)
    | none => pure (.error .notUtf8)
  catch
    | .noFileOrDirectory .. => pure (.error .missing)
    | .permissionDenied .. => pure (.error .denied)
    | .inappropriateType _ 21 _ => pure (.error .isDirectory)
    | .inappropriateType .. => pure (.error .notDirectory)
    | .invalidArgument _ code _ => pure (.error (if code = 0 - 40 then .linkLoop else .nameTooLong))
    | e => pure (.error (.other (toString e)))

def main (args : List String) : IO UInt32 := do
  let result ← run args readSource
  (← IO.getStdout).putStr result.stdout
  (← IO.getStderr).putStr result.stderr
  pure result.code.toUInt32
