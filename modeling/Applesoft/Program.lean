import Applesoft.Line
import Applesoft.Symbols

namespace Applesoft

structure Program where
  image : Bytes
  lines : List Line
  deriving DecidableEq, Repr

namespace Program

/-- Decoding never fails. It ends at the first link that does not increase, or where too few bytes
are left for a record. -/
def decode (image : Bytes) : Program where
  image := image
  lines := (records image).map Line.ofRecord

/-- The offset behind the last line, where a zero link is expected. -/
def stop (program : Program) : Nat :=
  (program.lines.getLast?.map fun line => line.record.stop).getD 0

def loadAddress (program : Program) : Nat :=
  ((loadAddress? program.image).map UInt16.toNat).getD 0

/-- The offset of what follows the final link, if it has two bytes or more. -/
def extraData (program : Program) : Option Nat :=
  if program.stop + 3 < program.image.length then some (program.stop + 2) else none

def symbols (program : Program) : Symbols :=
  program.lines.foldl
    (fun tables line => line.findings.foldl (Symbols.addFinding line.number) tables)
    .empty

def anomaly? : Finding → Option Anomaly
  | .anomaly cause => some cause
  | _ => none

/-- What is unusual about a program, in the order of its lines. -/
def diagnostics (program : Program) : List Diagnostic :=
  program.lines.flatMap fun line =>
    (line.findings.filterMap anomaly?).map fun cause => ⟨line.number, cause⟩

end Program

end Applesoft
