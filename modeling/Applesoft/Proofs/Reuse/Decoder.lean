import Applesoft.Program

namespace Applesoft.Reuse

structure Decoder where
  symbols : Symbols := .empty
  diagnostics : List Diagnostic := []
  /-- The line that is being read, or that has been read last. -/
  currentLine : UInt16 := 0

/-- A program, with the tables and the anomalies that have been gathered in the course of decoding
it. -/
structure Decoded where
  program : Program
  symbols : Symbols
  diagnostics : List Diagnostic

namespace Decoder

/-- Enters a finding of the current line. -/
def note (decoder : Decoder) (finding : Finding) : Decoder :=
  match finding with
  | .anomaly cause =>
      { decoder with diagnostics := decoder.diagnostics ++ [⟨decoder.currentLine, cause⟩] }
  | _ => { decoder with symbols := decoder.symbols.addFinding decoder.currentLine finding }

def readRecord (decoder : Decoder) (record : Record) : Decoder × Line :=
  let line := Line.ofRecord record
  (line.findings.foldl note { decoder with currentLine := record.number }, line)

def readRecords (decoder : Decoder) : List Record → Decoder × List Line
  | [] => (decoder, [])
  | record :: rest =>
      let read := decoder.readRecord record
      let further := read.1.readRecords rest
      (further.1, read.2 :: further.2)

def decode (decoder : Decoder) (image : Bytes) : Decoder × Decoded :=
  let cleared : Decoder := { decoder with symbols := .empty, diagnostics := [] }
  let read := cleared.readRecords (records image)
  ({ read.1 with symbols := .empty, diagnostics := [] },
    ⟨⟨image, read.2⟩, read.1.symbols, read.1.diagnostics⟩)

theorem foldl_note (findings : List Finding) (decoder : Decoder) :
    findings.foldl note decoder = {
      decoder with
      symbols := findings.foldl (Symbols.addFinding decoder.currentLine) decoder.symbols
      diagnostics := decoder.diagnostics ++
        (findings.filterMap Program.anomaly?).map fun cause => ⟨decoder.currentLine, cause⟩ } := by
  induction findings generalizing decoder with
  | nil => simp
  | cons finding rest hypothesis =>
      rw [List.foldl_cons, hypothesis, List.foldl_cons, List.filterMap_cons]
      cases finding with
      | anomaly cause => simp [note, Program.anomaly?, Symbols.addFinding]
      | jump kind target => rfl
      | reference name => rfl
      | literal text => rfl

/-- Records are entered behind what the decoder holds, each under its own number. -/
theorem readRecords_eq (records : List Record) (decoder : Decoder) :
    (decoder.readRecords records).2 = records.map Line.ofRecord ∧
      (decoder.readRecords records).1.symbols =
        (records.map Line.ofRecord).foldl
          (fun tables line => line.findings.foldl (Symbols.addFinding line.number) tables)
          decoder.symbols ∧
      (decoder.readRecords records).1.diagnostics =
        decoder.diagnostics ++ (records.map Line.ofRecord).flatMap fun line =>
          (line.findings.filterMap Program.anomaly?).map fun cause => ⟨line.number, cause⟩ := by
  induction records generalizing decoder with
  | nil => exact ⟨rfl, rfl, (List.append_nil _).symm⟩
  | cons record rest hypothesis =>
      obtain ⟨lines, symbols, diagnostics⟩ := hypothesis (decoder.readRecord record).1
      rw [readRecords, lines, symbols, diagnostics, readRecord, foldl_note]
      refine ⟨rfl, rfl, ?_⟩
      rw [List.map_cons, List.flatMap_cons, ← List.append_assoc]
      rfl

/-- A decoder makes the same of an image whatever it holds. -/
theorem decode_eq (decoder : Decoder) (image : Bytes) :
    (decoder.decode image).2 =
      ⟨Program.decode image, (Program.decode image).symbols,
        (Program.decode image).diagnostics⟩ := by
  obtain ⟨lines, symbols, diagnostics⟩ :=
    readRecords_eq (records image) { decoder with symbols := .empty, diagnostics := [] }
  rw [decode, lines, symbols, diagnostics]
  rfl

end Decoder

end Applesoft.Reuse
