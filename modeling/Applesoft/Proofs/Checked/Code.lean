import Applesoft.Proofs.Assembly
import Applesoft.Proofs.Checked.Access

namespace Applesoft.Checked

open Machine

/-- The value of operand bytes from an index on, which go into four bytes, low byte first. -/
def operandFrom? : Nat → Bytes → Option Nat
  | _, [] => some 0
  | index, low :: rest =>
      if index < 4 then
        (operandFrom? (index + 1) rest).map fun higher => low.toNat + 256 * higher
      else
        none

/-- The four bytes of a value, high byte first. -/
def bigEndian (value : Nat) : Bytes :=
  [3, 2, 1, 0].map fun place => UInt8.ofNat (value / 256 ^ place)

/-- The last bytes of a value in hexadecimal. -/
def valueText? (value count : Nat) : Option Text := do
  let start ← difference? 4 count
  let shown ← slice? (bigEndian value) start 4
  some ('$' :: shown.flatMap fun byte => Numeral.hex 2 byte.toNat)

/-- Where a branch goes, in signed words of which sixteen bits are kept. -/
def branchTarget? (address displacement : Nat) : Option Nat := do
  let next ← sum? (2 ^ 63) address 2
  let distance : Int := if displacement < 128 then displacement else displacement - 256
  let reached : Int := next + distance
  if -2 ^ 63 ≤ reached ∧ reached < 2 ^ 63 then some (reached % 65536).toNat else none

theorem operandFrom?_eq {index : Nat} {operand : Bytes} (few : index + operand.length ≤ 4) :
    operandFrom? index operand = some (operandValue operand) := by
  induction operand generalizing index with
  | nil => rfl
  | cons low rest hypothesis =>
      rw [List.length_cons] at few
      rw [operandFrom?, if_pos (by omega), hypothesis (by omega)]
      rfl

theorem hex_two_append_two {value : Nat} (small : value < 65536) :
    Numeral.hex 2 (value / 256) ++ Numeral.hex 2 (value % 256) = Numeral.hex 4 value := by
  have low : ∀ byte < 256, Numeral.hex 2 byte =
        [(byte / 16).digitChar.toUpper, (byte % 16).digitChar.toUpper] ∧
      Numeral.hex 4 byte = '0' :: '0' :: Numeral.hex 2 byte := by
    decide +kernel
  by_cases one : value < 256
  · rw [Nat.div_eq_of_lt one, Nat.mod_eq_of_lt one, (low value one).2]
    rfl
  · have higher : value % 256 / 16 = value / 16 % 16 := by omega
    have lower : value % 256 % 16 = value % 16 := by omega
    have front : value / 16 / 16 = value / 256 := by omega
    have digits : Nat.toDigits 16 value =
        Nat.toDigits 16 (value / 256) ++ [(value / 16 % 16).digitChar, (value % 16).digitChar] := by
      rw [Nat.toDigits_eq_if (by decide), if_neg (by omega), Nat.toDigits_eq_if (by decide),
        if_neg (by omega), front, List.append_assoc]
      rfl
    have zeros (count : Nat) : 2 - count = 4 - (count + 2) := by omega
    rw [(low _ (Nat.mod_lt value (by decide))).1, higher, lower, Numeral.hex, Numeral.hex,
      Text.padLeft, Text.padLeft, digits, List.map_append, List.length_append, zeros,
      ← List.append_assoc]
    rfl

theorem valueText?_one (byte : UInt8) :
    valueText? byte.toNat 1 = some ('$' :: Numeral.hex 2 byte.toNat) := by
  have cut : slice? (bigEndian byte.toNat) (4 - 1) 4 = some [UInt8.ofNat (byte.toNat / 1)] := rfl
  rw [Nat.div_one, UInt8.ofNat_toNat] at cut
  rw [valueText?, difference?_eq (by decide), Option.bind_eq_bind, Option.bind_some, cut]
  exact congrArg (fun shown => some ('$' :: shown)) (List.append_nil _)

theorem valueText?_two {value : Nat} (small : value < 65536) :
    valueText? value 2 = some ('$' :: Numeral.hex 4 value) := by
  have cut : slice? (bigEndian value) (4 - 2) 4 =
      some [UInt8.ofNat (value / 256), UInt8.ofNat (value / 1)] := rfl
  have high : (UInt8.ofNat (value / 256)).toNat = value / 256 := by
    rw [UInt8.toNat_ofNat']
    omega
  have low : (UInt8.ofNat (value / 1)).toNat = value % 256 := by
    rw [UInt8.toNat_ofNat', Nat.div_one]
  rw [valueText?, difference?_eq (by decide), Option.bind_eq_bind, Option.bind_some, cut,
    ← hex_two_append_two small]
  simp only [Option.bind_eq_bind, Option.bind_some, List.flatMap_cons, List.flatMap_nil,
    List.append_nil, high, low]

theorem branchTarget?_eq
    {address displacement : Nat} (byte : displacement < 256) (small : address + 258 < 2 ^ 63) :
    branchTarget? address displacement = some (branchTarget address displacement) := by
  rw [branchTarget?, branchTarget, sum?_eq (by omega)]
  simp only [Option.bind_eq_bind, Option.bind_some]
  by_cases forward : displacement < 128
  · rw [if_pos forward, if_pos forward, if_pos (by omega), Option.some.injEq]
    omega
  · rw [if_neg forward, if_neg forward, if_pos (by omega), Option.some.injEq]
    omega

/-- The value of an operand, or where it branches to. -/
def operandText? (mode : AddressingMode) (address : Nat) (operand : Bytes) : Option Text := do
  let value ← operandFrom? 0 operand
  if mode = .relative then
    let target ← branchTarget? address value
    valueText? target 2
  else
    valueText? value mode.operandSize

theorem operandSize_cases {mode : AddressingMode} (present : mode ≠ .implied) :
    mode.operandSize = 1 ∨ mode.operandSize = 2 := by
  cases mode <;> simp [AddressingMode.operandSize] at present ⊢

theorem operandText?_eq
    {mode : AddressingMode} {address : Nat} {operand : Bytes} (present : mode ≠ .implied)
    (length : operand.length = mode.operandSize) (small : address + 258 < 2 ^ 63) :
    operandText? mode address operand = some (valueText mode address operand) := by
  have few := operandSize_cases present
  have value := @operandFrom?_eq 0 operand (by omega)
  rw [operandText?, value, Option.bind_eq_bind, Option.bind_some, valueText]
  rcases few with one | two
  · rw [one] at length
    obtain ⟨byte, rfl⟩ := List.length_eq_one_iff.1 length
    have single : operandValue [byte] = byte.toNat := rfl
    have target := @branchTarget?_eq address byte.toNat byte.toNat_lt small
    rw [single, one, target, valueText?_one, Option.bind_some]
    by_cases relative : mode = .relative
    · rw [if_pos relative, if_pos relative, valueText?_two]
      rw [branchTarget]
      split <;> exact Nat.mod_lt _ (by decide)
    · rw [if_neg relative, if_neg relative]
  · have small := operandValue_lt operand
    have branches : mode ≠ .relative := by
      rintro rfl
      cases two
    rw [length, two] at small
    rw [if_neg branches, if_neg branches, two, valueText?_two small]

/-- The line of an instruction whose operand is there. -/
def instructionLine? (address : Nat) (code : Bytes) (place : Nat) (instruction : Instruction) :
    Option SourceLine := do
  let size := instruction.mode.operandSize
  let behind ← sum? wordLimit place 1
  let stop ← sum? wordLimit behind size
  let bytes ← slice? code place stop
  if size = 0 then
    some ⟨address, bytes, instruction.mnemonic.toList, []⟩
  else
    let operand ← slice? code behind stop
    let shown ← operandText? instruction.mode address operand
    some ⟨address, bytes, instruction.mnemonic.toList, instruction.mode.operand shown⟩

/-- The line of a byte that does not begin an instruction. -/
def dataLine? (address : Nat) (byte : UInt8) : Option SourceLine :=
  (valueText? byte.toNat 1).map fun shown => ⟨address, [byte], "DFB".toList, shown⟩

/-- The instruction at a place and the place behind it, if its operand is there. -/
def instructionAt? (code : Bytes) (place : Nat) (opcode : UInt8) :
    Option (Option (Instruction × Nat)) :=
  match instruction? opcode with
  | none => some none
  | some instruction => do
      let behind ← sum? wordLimit place 1
      let stop ← sum? wordLimit behind instruction.mode.operandSize
      some (if stop ≤ code.length then some (instruction, stop) else none)

/-- The lines of code from a place on, which take at most some rounds. -/
def sourceFrom? (address : Nat) (code : Bytes) : Nat → Nat → Option (List SourceLine)
  | 0, _ => none
  | rounds + 1, place =>
      if place < code.length then do
        let opcode ← code[place]?
        let here ← sum? wordLimit address place
        match ← instructionAt? code place opcode with
        | some (instruction, stop) =>
            let line ← instructionLine? here code place instruction
            let rest ← sourceFrom? address code rounds stop
            some (line :: rest)
        | none =>
            let line ← dataLine? here opcode
            let next ← sum? wordLimit place 1
            let rest ← sourceFrom? address code rounds next
            some (line :: rest)
      else
        some []

def sourceRows? (address : Nat) (code : Bytes) : Option (List Text) :=
  (sourceFrom? address code (code.length + 1) 0).map (List.map SourceLine.text)

section Instructions

variable {address place rounds : Nat} {code before rest : Bytes} {opcode : UInt8}
  {instruction : Instruction}

theorem dataLine?_eq (address : Nat) (byte : UInt8) :
    dataLine? address byte = some (.ofData address byte) := by
  rw [dataLine?, valueText?_one]
  rfl

theorem instructionLine?_eq
    (found : instruction? opcode = some instruction)
    (shape : code = before ++ opcode :: rest)
    (complete : instruction.mode.operandSize ≤ rest.length)
    (small : code.length < wordLimit) (smallAddress : address + 258 < 2 ^ 63) :
    instructionLine? address code before.length instruction =
      some (.ofInstruction address instruction (rest.take instruction.mode.operandSize)) := by
  have length := congrArg List.length shape
  rw [List.length_append, List.length_cons] at length
  have size : (rest.take instruction.mode.operandSize).length = instruction.mode.operandSize :=
    List.length_take_of_le complete
  have bytes : slice? code before.length (before.length + 1 + instruction.mode.operandSize) =
      some (opcode :: rest.take instruction.mode.operandSize) := by
    have cut := slice?_append_append before (opcode :: rest.take instruction.mode.operandSize)
      (rest.drop instruction.mode.operandSize)
    rwa [List.cons_append, List.take_append_drop, ← shape, List.length_cons, size,
      Nat.add_comm _ 1, ← Nat.add_assoc] at cut
  have operand : slice? code (before.length + 1)
      (before.length + 1 + instruction.mode.operandSize) =
        some (rest.take instruction.mode.operandSize) := by
    have cut := slice?_append_append (before ++ [opcode])
      (rest.take instruction.mode.operandSize) (rest.drop instruction.mode.operandSize)
    rwa [List.take_append_drop, List.append_assoc, List.singleton_append, ← shape, size,
      List.length_append, List.length_singleton] at cut
  have opcodes := (instruction?_eq_some found).2
  rw [instructionLine?, sum?_eq (by omega)]
  simp only [Option.bind_eq_bind, Option.bind_some]
  rw [sum?_eq (by omega), Option.bind_some, bytes, Option.bind_some, operand, Option.bind_some,
    SourceLine.ofInstruction, opcodes]
  by_cases implied : instruction.mode = .implied
  · have noOperand : instruction.mode.operandSize = 0 := by
      rw [implied]
      rfl
    rw [if_pos noOperand, if_pos implied]
  · have sized := operandSize_cases implied
    rw [if_neg (by omega), if_neg implied, operandText?_eq implied size smallAddress,
      Option.bind_some]

theorem instructionAt?_of_complete
    (found : instruction? opcode = some instruction)
    (shape : code = before ++ opcode :: rest)
    (complete : instruction.mode.operandSize ≤ rest.length) (small : code.length < wordLimit) :
    instructionAt? code before.length opcode =
      some (some (instruction, before.length + 1 + instruction.mode.operandSize)) := by
  have length := congrArg List.length shape
  rw [List.length_append, List.length_cons] at length
  rw [instructionAt?, found]
  dsimp only
  rw [sum?_eq (by omega), Option.bind_eq_bind, Option.bind_some, sum?_eq (by omega),
    Option.bind_some, if_pos (by omega)]

theorem instructionAt?_of_truncated
    (truncated : ∀ instruction, instruction? opcode = some instruction →
      rest.length < instruction.mode.operandSize)
    (shape : code = before ++ opcode :: rest) (small : code.length + 2 < wordLimit) :
    instructionAt? code before.length opcode = some none := by
  have length := congrArg List.length shape
  rw [List.length_append, List.length_cons] at length
  rw [instructionAt?]
  cases found : instruction? opcode with
  | none => rfl
  | some instruction =>
      have tooFew := truncated instruction found
      have sized := operandSize_le instruction.mode
      dsimp only
      rw [sum?_eq (by omega), Option.bind_eq_bind, Option.bind_some, sum?_eq (by omega),
        Option.bind_some, if_neg (by omega)]

/-- The lines from a place on are those of the code there. The induction is that of the
disassembly. -/
theorem sourceFrom?_eq
    {here : Nat} (shape : code = before ++ rest) (start : address + before.length = here)
    (enough : rest.length < rounds) (small : address + code.length + 258 < 2 ^ 63) :
    sourceFrom? address code rounds before.length = some (disassemble here rest) := by
  have words : 2 ^ 63 < wordLimit := by decide
  have length := congrArg List.length shape
  rw [List.length_append] at length
  induction rounds generalizing before rest here with
  | zero => omega
  | succ rounds hypothesis =>
      rw [sourceFrom?]
      cases rest with
      | nil =>
          rw [List.length_nil] at length
          rw [if_neg (by omega), disassemble]
      | cons opcode rest =>
          rw [List.length_cons] at length enough
          have read : code[before.length]? = some opcode := by
            rw [shape, List.getElem?_append_right le_rfl, Nat.sub_self]
            rfl
          rw [if_pos (by omega), read, sum?_eq (by omega), start]
          simp only [Option.bind_eq_bind, Option.bind_some]
          by_cases complete : ∃ instruction, instruction? opcode = some instruction ∧
              instruction.mode.operandSize ≤ rest.length
          · obtain ⟨instruction, found, complete⟩ := complete
            have size : (rest.take instruction.mode.operandSize).length =
                instruction.mode.operandSize := List.length_take_of_le complete
            have stop : (before ++ opcode :: rest.take instruction.mode.operandSize).length =
                before.length + 1 + instruction.mode.operandSize := by
              rw [List.length_append, List.length_cons, size]
              omega
            have remaining : (rest.drop instruction.mode.operandSize).length =
                rest.length - instruction.mode.operandSize := List.length_drop
            have line := @instructionLine?_eq here code before rest opcode instruction found shape
              complete (by omega) (by omega)
            have later := @hypothesis (before ++ opcode :: rest.take instruction.mode.operandSize)
              (rest.drop instruction.mode.operandSize) (here + 1 + instruction.mode.operandSize)
              (by simpa using shape) (by omega) (by omega) (by omega)
            rw [instructionAt?_of_complete found shape complete (by omega), Option.bind_some]
            dsimp only
            rw [line, Option.bind_some, ← stop, later, Option.bind_some,
              disassemble_of_complete found complete]
          · have truncated : ∀ instruction, instruction? opcode = some instruction →
                rest.length < instruction.mode.operandSize := fun instruction found =>
              Nat.lt_of_not_le fun fits => complete ⟨instruction, found, fits⟩
            have stop : (before ++ [opcode]).length = before.length + 1 := List.length_append
            have later := @hypothesis (before ++ [opcode]) rest (here + 1) (by simpa using shape)
              (by omega) (by omega) (by omega)
            rw [instructionAt?_of_truncated truncated shape (by omega), Option.bind_some]
            dsimp only
            rw [dataLine?_eq, Option.bind_some, sum?_eq (by omega), Option.bind_some, ← stop, later,
              Option.bind_some, disassemble_of_truncated truncated]

theorem sourceRows?_eq (small : address + code.length + 258 < 2 ^ 63) :
    sourceRows? address code = some (listing address code) := by
  have source := @sourceFrom?_eq address (code.length + 1) code [] code address rfl rfl
    (Nat.lt_succ_self _) small
  rw [sourceRows?, listing]
  exact congrArg (Option.map _) source

end Instructions

end Applesoft.Checked
