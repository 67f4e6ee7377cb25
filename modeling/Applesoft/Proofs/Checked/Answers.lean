import Applesoft.Proofs.Checked.Code
import Applesoft.Proofs.Checked.Dumps
import Applesoft.Proofs.Checked.Layout
import Applesoft.Symbols.Export

/-!
All that is made of an image by operations that can be refused: its program, the tables of that as a
JSON text, its listing, and its dump.

The main statement says that nothing is refused, whatever the bytes of the image and whatever the
options are, as long as the first line can be counted in a word of sixteen bits. The only other
bound is that of the memory.
-/

namespace Applesoft.Checked

open Listing

/-- The rows of what follows the program in its image. -/
def extraRows? (program : Program) (loadAddress : Nat) : Option (List Text) := do
  let extra ← extraData? program
  match extra with
  | some offset =>
      let length ← difference? program.image.length offset
      let address ← sum? wordLimit loadAddress offset
      let rows ← rows? program.image offset length address
      some ([[], "Extra data:".toList, []] ++ rows)
  | none => some []

/-- Renders a program, with the tables that have been made of it. -/
def list? (program : Program) (symbols : Symbols) (options : Options)
    (disassembler? : Nat → Bytes → Option (List Text)) (name : Text) : Option Listing := do
  let loadAddress ← address? program.image
  let header ← shownHeader? program options name
  let body ← layoutLines? ⟨options, disassembler?, symbols, loadAddress, program.lines⟩ 0
    program.lines header {}
  let extra ← extraRows? program loadAddress
  some {
    text := pageText
      ((sections options symbols).foldl addSection (header ++ body.flatMap Prod.fst ++ extra))
    diagnostics := program.diagnostics ++ body.flatMap Prod.snd }

section Listings

variable {image : Bytes}

theorem extraRows?_eq (small : image.length < memoryLimit) :
    extraRows? (Program.decode image) (Program.decode image).loadAddress =
      some (extraRows (Program.decode image)) := by
  have limit : memoryLimit = 2 ^ 59 := rfl
  have words : wordLimit = 2 ^ 64 := rfl
  have row : HexDump.rowSize = 16 := rfl
  have address := loadAddress_lt (Program.decode image)
  have decoded : (Program.decode image).image = image := rfl
  rw [extraRows?, extraData?_eq (by omega), Option.bind_eq_bind, Option.bind_some, extraRows,
    decoded]
  cases extra : (Program.decode image).extraData with
  | none => rfl
  | some offset =>
      have inside : offset + 1 < image.length := by
        rw [Program.extraData, decoded] at extra
        split at extra
        · injection extra with same
          omega
        · cases extra
      have rest : HexDump.extract image offset (image.length - offset) = image.drop offset := by
        rw [HexDump.extract, List.take_of_length_le]
        rw [List.length_drop]
      have rows := @rows?_eq image offset ((Program.decode image).loadAddress + offset)
        (image.length - offset) (by omega) (by omega)
      rw [rest] at rows
      simp only [difference?_eq (show offset ≤ image.length by omega),
        sum?_eq (show (Program.decode image).loadAddress + offset < wordLimit by omega), rows,
        Option.bind_eq_bind, Option.bind_some]

/-- Each fragment of some lines takes up a byte of the image, at least. -/
theorem add_length_flatMap_fragments_le
    {lines : List Line} {start stop : Nat}
    (tiles : Tiles start stop (lines.map fun line => (line.record.start, line.record.stop)))
    (partition : ∀ line ∈ lines, line.IsPartition image) :
    start + (lines.flatMap Line.fragments).length ≤ stop := by
  induction lines generalizing start with
  | nil => exact Nat.le_of_eq tiles
  | cons line rest hypothesis =>
      obtain ⟨begins, -, behind⟩ := tiles
      change line.record.start = start at begins
      rw [List.forall_mem_cons] at partition
      have later := hypothesis behind partition.2
      have within := partition.1.tiled.add_length_le
      have payloadStart : line.record.payloadStart = line.record.start + 4 := rfl
      rw [List.length_map, payloadStart] at within
      have payloadStop : line.payloadStop ≤ line.record.stop := by
        rcases partition.1.ended with ⟨-, stop⟩ | ⟨ended, stop⟩
        · exact stop ▸ Nat.le_succ _
        · exact (ended.trans stop.symm).le
      rw [List.flatMap_cons, List.length_append]
      dsimp only at later
      omega

theorem length_fragments_le (image : Bytes) :
    ((Program.decode image).lines.flatMap Line.fragments).length ≤ image.length := by
  have partition := Program.isPartition_decode image
  have within := add_length_flatMap_fragments_le partition.tiled partition.lines
  rw [Nat.zero_add] at within
  exact within.trans partition.stop_le

/-- Nothing is refused while a program is rendered. -/
theorem list?_eq
    (short : ((image.drop 4).takeWhile isPayloadByte).length ≤ 65530)
    (small : image.length < memoryLimit) (options : Options) (name : Text) :
    list? (Program.decode image) (Program.decode image).symbols options sourceRows? name =
      some ((Program.decode image).list options Machine.listing name) := by
  have fits : image.length < wordLimit := small.trans (by decide)
  have address : address? (Program.decode image).image =
      some (Program.decode image).loadAddress :=
    address?_eq short fits
  have loaded : IsLoaded image ((Program.decode image).setting options Machine.listing)
      sourceRows? :=
    ⟨small, loadAddress_lt _, fun _ _ => sourceRows?_eq⟩
  have decoded : ∀ line ∈ (Program.decode image).lines,
      ∃ record, line = Line.ofRecord record := by
    intro line member
    obtain ⟨record, -, rfl⟩ := List.mem_map.1 member
    exact ⟨record, rfl⟩
  have body (above : List Text) :
      layoutLines?
          ⟨options, sourceRows?, (Program.decode image).symbols,
            (Program.decode image).loadAddress, (Program.decode image).lines⟩
          0 (Program.decode image).lines above {} =
        some (layoutLines ((Program.decode image).setting options Machine.listing)
          (Program.decode image).lines {}) :=
    @layoutLines?_eq _ _ image (Program.decode image).lines [] above {} 0 loaded
      (Program.decode image).lines rfl
      (fun _ lineMember _ member => isHeld_of_mem lineMember member)
      ((Nat.zero_add _).trans_le (length_fragments_le image))
      ⟨Nat.zero_le 0, Nat.zero_le 0, Nat.zero_le 0⟩
      (fun _ member => isBehindRows_of_mem_placeLines decoded member)
  rw [list?, address, shownHeader?_eq short fits]
  simp only [body, extraRows?_eq small, Option.bind_eq_bind, Option.bind_some]
  rfl

end Listings

/-- What is made of an image. -/
structure Answers where
  program : Program
  /-- The tables of the program as a JSON text. -/
  tables : Text
  listing : Listing
  dump : Text

/-- Answers by operations that can be refused. -/
def answers? (image : Bytes) (options : Options) (pretty : Bool) (name : Text) :
    Option Answers := do
  let program ← decode? image
  let symbols ← symbols? program
  let listing ← list? program symbols options sourceRows? name
  let dump ← dump? program options name
  some ⟨program, symbols.jsonText pretty, listing, dump⟩

/-- Nothing is refused. Every image is decoded, listed and dumped for any options, and its tables
are exported: no byte, character or statement is looked for where there is none, no stretch reaches
beyond an end, and no sum or difference leaves its machine word. The first line of the image has at
most as many bytes as its length in sixteen bits allows, and the image leaves room in memory for a
text with sixteen characters for each of its bytes. -/
theorem answers?_eq
    (image : Bytes) (options : Options) (pretty : Bool) (name : Text)
    (short : ((image.drop 4).takeWhile isPayloadByte).length ≤ 65530)
    (small : image.length < memoryLimit) :
    answers? image options pretty name = some {
      program := Program.decode image
      tables := (Program.decode image).symbols.jsonText pretty
      listing := (Program.decode image).list options Machine.listing name
      dump := (Program.decode image).dump options name } := by
  have words : wordLimit = 2 ^ 64 := rfl
  have limit : memoryLimit = 2 ^ 59 := rfl
  have row : HexDump.rowSize = 16 := rfl
  rw [answers?, decode?_eq (by omega)]
  simp only [Option.bind_eq_bind, Option.bind_some]
  rw [symbols?_eq, Option.bind_some, list?_eq short small, Option.bind_some,
    dump?_eq short (by omega), Option.bind_some]

/-- A garbled image: a loop that is closed twice, an IF without THEN, and a literal with a token in
it that nothing ends. -/
theorem answers?_of_garbled :
    let image : Bytes := [0x01, 0x08, 0x0A, 0x00, 0x81, 0x49, 0xD0, 0x31, 0x3A, 0x82, 0x49, 0x2C,
      0x4A, 0x3A, 0xAD, 0x41, 0x3A, 0xBA, 0x22, 0xC1, 0x48, 0x49]
    let options : Options := { showHeader := false }
    ((image.drop 4).takeWhile isPayloadByte).length ≤ 65530 ∧ image.length < memoryLimit ∧
      (answers? image options false []).map (fun answers => answers.listing.text) = some
        "    10  FOR I = 1\n        NEXT I,J\n        IF A\n          PRINT \" TO HI".toList := by
  intro image options
  have short : ((image.drop 4).takeWhile isPayloadByte).length ≤ 65530 := by decide
  have small : image.length < memoryLimit := by decide
  refine ⟨short, small, ?_⟩
  rw [answers?_eq image options false [] short small]
  decide +kernel

end Applesoft.Checked
