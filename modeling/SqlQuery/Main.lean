import SqlQuery.CommandLine.Run

/-!
# The program

The outer layer: it fetches the inputs that the arguments name, and writes what comes of them.
-/

namespace SqlQuery.CommandLine

/-- Why the system does not open a file. -/
def openReason : IO.Error → Text
  | .noFileOrDirectory _ _ details | .inappropriateType _ _ details
  | .invalidArgument _ _ details | .permissionDenied _ _ details => details
  | e => toString e

/-- All that can be read of an open file, which is nothing if it is a directory. -/
def readAll (handle : IO.FS.Handle) : IO ByteArray := do
  try handle.readBinToEnd catch _ => pure .empty

/-- The contents of the named file. -/
def fetchFile (name : Text) : IO (Except Text Text) := do
  match String.fromUTF8? ⟨name.toArray⟩ with
  | none => return .error PathError.missing.message
  | some path =>
    try return .ok (← readAll (← IO.FS.Handle.mk path .read)).toList
    catch e => return .error (openReason e)

/-- Everything that the named inputs hold. -/
def fetchInputs (names : List Text) : IO Inputs := do
  let stdin ← if names.contains stdinName then (← IO.getStdin).readBinToEnd else pure .empty
  let files ← (names.filter (· != stdinName)).mapM fun n => return (n, ← fetchFile n)
  return ⟨stdin.toList, fun n => (files.lookup n).getD (.error [])⟩

def writeTo (stream : IO.FS.Stream) (t : Text) : IO Unit := do
  stream.write ⟨t.toArray⟩
  stream.flush

end SqlQuery.CommandLine

open SqlQuery SqlQuery.CommandLine in
/-- Runs the program; a failed internal check ends it as an abort would. -/
def main (arguments : List String) : IO UInt32 := do
  let program := ((← IO.appPath).fileName.getD "")
  let invocation := invocation program (arguments.map Text.ofString)
  match invocation.perform (← fetchInputs invocation.names) with
  | .ok o =>
    writeTo (← IO.getStderr) o.err
    writeTo (← IO.getStdout) o.out
    return o.exitCode
  | .error f =>
    writeTo (← IO.getStderr) (f.message ++ "\n")
    return 134
