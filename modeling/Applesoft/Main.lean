import Applesoft.Command.Outcome

namespace Applesoft.Command

/-- Reads a file, or says why it cannot be read. -/
def readFile (path : Text) : IO (Except Text Bytes) := do
  try
    return .ok (← IO.FS.readBinFile (String.ofList path)).toList
  catch fault =>
    return .error (toString fault).toList

abbrev Files := List (Text × Except Text Bytes)

namespace Files

def bytes? (files : Files) (path : Text) : Option Bytes :=
  match files.lookup path with
  | some (.ok bytes) => some bytes
  | _ => none

def fault (files : Files) (path : Text) : Text :=
  match files.lookup path with
  | some (.error fault) => fault
  | _ => []

end Files

def readFiles (invocation : Invocation) : IO Files :=
  invocation.paths.mapM fun path => return (path, ← readFile path)

def readInput (invocation : Invocation) : IO (Option Bytes) := do
  let stdin ← IO.getStdin
  if invocation.readsInput && !(← stdin.isTty) then
    return some (← stdin.readBinToEnd).toList
  else
    return none

end Applesoft.Command

open Applesoft.Command

def main (arguments : List String) : IO UInt32 := do
  let outcome ←
    match Invocation.parse (arguments.map String.toList) with
    | .ok invocation =>
        let files ← readFiles invocation
        let sources : Sources := { file := files.bytes?, input := ← readInput invocation }
        pure (Outcome.run { Wording.plain with fault := files.fault } sources invocation)
    | .error cause => pure (Outcome.refusal .plain cause)
  (← IO.getStderr).putStr (String.ofList (outcome.errors (Applesoft.Log.usual fun _ => [])))
  (← IO.getStdout).putStr (String.ofList outcome.output)
  return outcome.exitCode
