import Applesoft.Proofs.Checked.Code

/-!
What a disassembly shows of the code. A line has an address in its first four columns, bytes from
column 7 on and a mnemonic from column 17 on. The lines show the code from its first byte to its
last one, each of them an instruction with its operand where there is one, and else a byte of data.

The main statement says so for the columns of every listing, and that the loop that makes it ends.
-/

namespace Applesoft.Machine

/-- What a line shows of the code. -/
structure ShownLine where
  address : Nat
  bytes : Bytes
  mnemonic : Text
  deriving DecidableEq, Repr

/-- The digits in the column of bytes. -/
def hexColumn (line : Text) : Text :=
  ((line.drop 7).take 9).takeWhile (· ≠ ' ')

/-- The bytes that digits stand for, two for each byte. -/
def readBytes? : Text → Option Bytes
  | [] => some []
  | [_] => none
  | high :: low :: rest =>
      match Numeral.hexDigit? high, Numeral.hexDigit? low, readBytes? rest with
      | some upper, some lower, some bytes => some (UInt8.ofNat (16 * upper + lower) :: bytes)
      | _, _, _ => none

def readLine? (line : Text) : Option ShownLine := do
  let address ← Numeral.readHex? (line.take 4)
  let bytes ← readBytes? (hexColumn line)
  some ⟨address, bytes, (line.drop 17).take 3⟩

def SourceLine.shown (line : SourceLine) : ShownLine where
  address := line.address % 65536
  bytes := line.bytes
  mnemonic := line.mnemonic

theorem readBytes?_hex (bytes : Bytes) :
    readBytes? (bytes.flatMap fun byte => Numeral.hex 2 byte.toNat) = some bytes := by
  induction bytes with
  | nil => rfl
  | cons byte rest hypothesis =>
      obtain ⟨high, low, upper, lower, digits, isUpper, isLower, value⟩ :=
        Numeral.exists_hex_two byte
      rw [List.flatMap_cons, digits, List.cons_append, List.cons_append, List.nil_append,
        readBytes?, isUpper, isLower, hypothesis]
      exact congrArg (fun first => some (first :: rest)) value

section Columns

variable {line : SourceLine}

theorem hexColumn_text (plain : line.IsPlain) :
    hexColumn line.text = line.bytes.flatMap fun byte => Numeral.hex 2 byte.toNat := by
  have few := plain.bytes
  have digits := Numeral.length_flatMap_hex_two line.bytes
  have front : (Numeral.hex 4 (line.address % 65536) ++ ":  ".toList).length = 7 := by
    rw [List.length_append, length_address]
    rfl
  have width :
      (Text.padRight 9 (line.bytes.flatMap fun byte => Numeral.hex 2 byte.toNat)).length =
        9 := by
    rw [Text.length_padRight, digits]
    omega
  obtain ⟨behind, shape⟩ : ∃ behind, line.text =
      (Numeral.hex 4 (line.address % 65536) ++ ":  ".toList) ++
        (Text.padRight 9 (line.bytes.flatMap fun byte => Numeral.hex 2 byte.toNat) ++ behind) := by
    rw [text_eq plain, SourceLine.front]
    simp only [List.append_assoc]
    exact ⟨_, rfl⟩
  rw [hexColumn, shape, List.drop_left' front, List.take_left' width, Text.padRight]
  refine takeWhile_append_of_head? ?_ ?_
  · intro digit member
    obtain ⟨byte, _, own⟩ := List.mem_flatMap.1 member
    refine decide_eq_true ?_
    rintro rfl
    exact absurd (Numeral.isHexDigit_of_mem_hex own) (by decide)
  · intro blank first
    have isBlank := List.eq_of_mem_replicate (List.mem_of_mem_head? first)
    simp [isBlank]

theorem readLine?_text (plain : line.IsPlain) : readLine? line.text = some line.shown := by
  obtain ⟨address, mnemonic, _⟩ := columns_text plain
  rw [readLine?, hexColumn_text plain, readBytes?_hex, address, Numeral.readHex?_hex, mnemonic]
  rfl

end Columns

/-- Whether a line is what is shown of the first bytes of some code at an address. -/
inductive IsLineOf (address : Nat) : Bytes → SourceLine → Prop
  | instruction {opcode : UInt8} {rest : Bytes} {instruction : Instruction} :
      instruction? opcode = some instruction →
      instruction.mode.operandSize ≤ rest.length →
      IsLineOf address (opcode :: rest)
        (.ofInstruction address instruction (rest.take instruction.mode.operandSize))
  | data {opcode : UInt8} {rest : Bytes} :
      (∀ instruction, instruction? opcode = some instruction →
        rest.length < instruction.mode.operandSize) →
      IsLineOf address (opcode :: rest) (.ofData address opcode)

namespace IsLineOf

variable {address : Nat} {code : Bytes} {line : SourceLine}

theorem isPlain (shown : IsLineOf address code line) : line.IsPlain := by
  cases shown with
  | instruction found complete =>
      exact isPlain_ofInstruction address (instruction?_eq_some found).1
        (List.length_take_of_le complete)
  | data => exact isPlain_ofData address _

theorem address_eq (shown : IsLineOf address code line) : line.address = address := by
  cases shown <;> rfl

theorem bytes_ne_nil (shown : IsLineOf address code line) : line.bytes ≠ [] := by
  cases shown <;> exact List.cons_ne_nil _ _

/-- The bytes of a line are the first ones of the code. -/
theorem take_length (shown : IsLineOf address code line) :
    code.take line.bytes.length = line.bytes := by
  cases shown with
  | @instruction opcode rest instruction found complete =>
      simp only [SourceLine.ofInstruction, List.length_cons, List.take_succ_cons,
        List.length_take_of_le complete, (instruction?_eq_some found).2]
  | data => rfl

end IsLineOf

section Lines

variable {address : Nat} {code : Bytes}

theorem exists_isLineOf (address : Nat) (present : code ≠ []) :
    ∃ line, IsLineOf address code line := by
  obtain ⟨opcode, rest, rfl⟩ := List.exists_cons_of_ne_nil present
  by_cases complete : ∃ instruction, instruction? opcode = some instruction ∧
      instruction.mode.operandSize ≤ rest.length
  · obtain ⟨instruction, found, complete⟩ := complete
    exact ⟨_, .instruction found complete⟩
  · exact ⟨_, .data fun instruction found =>
      Nat.lt_of_not_le fun fits => complete ⟨instruction, found, fits⟩⟩

/-- A disassembly goes on behind the bytes of its first line. -/
theorem IsLineOf.disassemble_eq {line : SourceLine} (shown : IsLineOf address code line) :
    disassemble address code =
      line :: disassemble (address + line.bytes.length) (code.drop line.bytes.length) := by
  cases shown with
  | instruction found complete =>
      rw [disassemble_of_complete found complete, SourceLine.ofInstruction, List.length_cons,
        List.length_take_of_le complete, Nat.add_assoc address 1, Nat.add_comm 1]
      rfl
  | data broken => exact disassemble_of_truncated broken

/-- What holds at the end of the code, and before a line if it holds behind it, holds of all
code. -/
@[elab_as_elim]
theorem induction_on_lines
    {motive : Nat → Bytes → Prop}
    (nothing : ∀ address, motive address [])
    (line : ∀ address code line, IsLineOf address code line →
      motive (address + line.bytes.length) (code.drop line.bytes.length) → motive address code)
    (address : Nat) (code : Bytes) : motive address code := by
  induction length : code.length using Nat.strongRecOn generalizing address code with
  | ind size hypothesis =>
      by_cases empty : code = []
      · exact empty ▸ nothing address
      · obtain ⟨first, shown⟩ := exists_isLineOf address empty
        have shorter : (code.drop first.bytes.length).length < size := by
          have some := List.length_pos_iff.2 shown.bytes_ne_nil
          have present := List.length_pos_iff.2 empty
          rw [List.length_drop]
          omega
        exact line address code first shown (hypothesis _ shorter _ _ rfl)

theorem isLineOf_of_disassemble_eq_cons
    {line : SourceLine} {behind : List SourceLine}
    (parts : disassemble address code = line :: behind) :
    IsLineOf address code line ∧
      disassemble (address + line.bytes.length) (code.drop line.bytes.length) = behind := by
  have present : code ≠ [] := by
    rintro rfl
    simp [disassemble] at parts
  obtain ⟨first, shown⟩ := exists_isLineOf address present
  rw [shown.disassemble_eq] at parts
  obtain ⟨rfl, others⟩ := List.cons.inj parts
  exact ⟨shown, others⟩

/-- A line shows the bytes behind those of the lines before it. -/
theorem isLineOf_of_disassemble_eq
    {before behind : List SourceLine} {line : SourceLine}
    (parts : disassemble address code = before ++ line :: behind) :
    let offset := (before.flatMap SourceLine.bytes).length
    IsLineOf (address + offset) (code.drop offset) line := by
  induction before generalizing address code with
  | nil => exact (isLineOf_of_disassemble_eq_cons parts).1
  | cons earlier rest hypothesis =>
      have later := hypothesis (isLineOf_of_disassemble_eq_cons parts).2
      simpa [List.drop_drop, Nat.add_assoc] using later

theorem flatMap_bytes_disassemble (address : Nat) (code : Bytes) :
    (disassemble address code).flatMap SourceLine.bytes = code := by
  induction address, code using induction_on_lines with
  | nothing address => rw [disassemble]; rfl
  | line address code line shown hypothesis =>
      rw [shown.disassemble_eq, List.flatMap_cons, hypothesis]
      nth_rewrite 1 [← shown.take_length]
      exact List.take_append_drop _ _

theorem isPlain_of_mem_disassemble
    {line : SourceLine} (member : line ∈ disassemble address code) : line.IsPlain := by
  obtain ⟨before, behind, parts⟩ := List.append_of_mem member
  exact (isLineOf_of_disassemble_eq parts).isPlain

/-- The lines of a listing can be read. -/
theorem mapM_readLine?_listing (address : Nat) (code : Bytes) :
    (listing address code).mapM readLine? =
      some ((disassemble address code).map SourceLine.shown) := by
  rw [listing, List.mapM_map]
  exact Checked.mapM_eq_some_map fun line member =>
    readLine?_text (isPlain_of_mem_disassemble member)

end Lines

/-- The legal instruction whose opcode stands at an offset. -/
def legalAt? (code : Bytes) (offset : Nat) : Option Instruction :=
  code[offset]?.bind instruction?

/-- Whether a line shows a byte as data. -/
def ShownLine.IsData (line : ShownLine) : Prop :=
  line.mnemonic = "DFB".toList ∧ line.bytes.length = 1

/-- Whether a line tells what stands at an offset of some code, when the code begins at an
address. -/
structure ShownLine.IsRight (address : Nat) (code : Bytes) (offset : Nat)
    (line : ShownLine) : Prop where
  inside : offset < code.length
  address : line.address = (address + offset) % 65536
  data : line.IsData ↔
    ∀ instruction, legalAt? code offset = some instruction →
      code.length < offset + 1 + instruction.mode.operandSize
  lastTwo : line.IsData → legalAt? code offset ≠ none → code.length ≤ offset + 2
  whole : ¬ line.IsData →
    ∃ instruction, legalAt? code offset = some instruction ∧
      line.mnemonic = instruction.mnemonic.toList ∧
      line.bytes = code.extract offset (offset + 1 + instruction.mode.operandSize) ∧
      line.bytes.length = 1 + instruction.mode.operandSize ∧
      instruction.mode.operandSize ≤ 2

/-- Whether lines show some code that begins at an address: the digits of the code in their columns
of bytes, and each line what stands behind the bytes of the lines before it. -/
structure ShowsCode (address : Nat) (code : Bytes) (lines : List Text) : Prop where
  columns : lines.flatMap hexColumn = code.flatMap fun byte => Numeral.hex 2 byte.toNat
  lines : ∃ shown, lines.mapM readLine? = some shown ∧
    shown.flatMap ShownLine.bytes = code ∧
      ∀ before line behind, shown = before ++ line :: behind →
        line.IsRight address code (before.flatMap ShownLine.bytes).length

theorem IsLineOf.isRight
    {address offset : Nat} {code : Bytes} {line : SourceLine}
    (shown : IsLineOf (address + offset) (code.drop offset) line) :
    line.shown.IsRight address code offset := by
  have addressed : line.shown.address = (address + offset) % 65536 := by
    rw [SourceLine.shown, shown.address_eq]
  have taken := shown.take_length
  generalize remaining : code.drop offset = left at shown taken
  have length := congrArg List.length remaining
  rw [List.length_drop] at length
  cases shown with
  | @instruction opcode rest instruction found complete =>
      have read := (Payload.getElem?_of_drop_eq_cons remaining).1
      have legal : legalAt? code offset = some instruction := by rw [legalAt?, read]; exact found
      rw [List.length_cons] at length
      have noData : ¬ (SourceLine.ofInstruction (address + offset) instruction
          (rest.take instruction.mode.operandSize)).shown.IsData :=
        fun isData => (mnemonic_of_mem (instruction?_eq_some found).1).2.2 isData.1
      have size : (instruction.opcode :: rest.take instruction.mode.operandSize).length =
          1 + instruction.mode.operandSize := by
        rw [List.length_cons, List.length_take_of_le complete, Nat.add_comm]
      refine
        { inside := by omega
          address := addressed
          data := ⟨fun isData => absurd isData noData, fun broken => ?_⟩
          lastTwo := fun isData => absurd isData noData
          whole := fun _ => ⟨instruction, legal, rfl, ?_, size, operandSize_le _⟩ }
      · have tooLong := broken instruction legal
        omega
      · have stop : offset + 1 + instruction.mode.operandSize - offset =
            1 + instruction.mode.operandSize := by omega
        rw [List.extract_eq_take_drop, stop, remaining, ← size]
        exact taken.symm
  | @data opcode rest broken =>
      have read := (Payload.getElem?_of_drop_eq_cons remaining).1
      have legal : legalAt? code offset = instruction? opcode := by rw [legalAt?, read]; rfl
      rw [List.length_cons] at length
      have isData : (SourceLine.ofData (address + offset) opcode).shown.IsData := ⟨rfl, rfl⟩
      refine
        { inside := by omega
          address := addressed
          data := ⟨fun _ instruction found => ?_, fun _ => isData⟩
          lastTwo := fun _ some => ?_
          whole := fun noData => absurd isData noData }
      · have tooFew := broken instruction (legal.symm.trans found)
        omega
      · obtain ⟨instruction, found⟩ := Option.ne_none_iff_exists'.1 some
        have tooFew := broken instruction (legal.symm.trans found)
        have small := operandSize_le instruction.mode
        omega

/-- A listing shows all of the code. Its columns of bytes hold the code and nothing else, each line
has the address behind the bytes before it, and it shows a byte as data just if no legal instruction
with its whole operand stands there. So an opcode is data in the last two bytes only, and every
other line takes an opcode and its operand. The loop that makes the lines ends before it has made
more of them than there are bytes, and none of its numbers leaves its word. -/
theorem showsCode_listing
    (address : Nat) (code : Bytes) (fits : address + code.length < 2 ^ 62) :
    Checked.sourceRows? address code = some (listing address code) ∧
      ShowsCode address code (listing address code) := by
  refine ⟨Checked.sourceRows?_eq (by omega), ?_, ?_⟩
  · rw [listing, List.flatMap_map]
    calc
      _ = (disassemble address code).flatMap fun line =>
            line.bytes.flatMap fun byte => Numeral.hex 2 byte.toNat :=
        List.flatMap_congr fun line member => hexColumn_text (isPlain_of_mem_disassemble member)
      _ = ((disassemble address code).flatMap SourceLine.bytes).flatMap fun byte =>
            Numeral.hex 2 byte.toNat := List.flatMap_assoc.symm
      _ = _ := by rw [flatMap_bytes_disassemble]
  · refine ⟨_, mapM_readLine?_listing address code, ?_, ?_⟩
    · rw [List.flatMap_map]
      exact flatMap_bytes_disassemble address code
    · intro before line behind parts
      obtain ⟨earlier, others, split, rfl, rest⟩ := List.map_eq_append_iff.1 parts
      obtain ⟨source, later, rfl, rfl, rfl⟩ := List.map_eq_cons_iff.1 rest
      have shown := (isLineOf_of_disassemble_eq split).isRight
      rwa [List.flatMap_map]

/-- An instruction, a byte that is no opcode, and a call of which the second operand byte is
missing. -/
theorem showsCode_listing_of_cut_call :
    0x300 + ([0xEA, 0xFF, 0x20, 0xED] : Bytes).length < 2 ^ 62 ∧
      Checked.sourceRows? 0x300 [0xEA, 0xFF, 0x20, 0xED] =
          some (listing 0x300 [0xEA, 0xFF, 0x20, 0xED]) ∧
        ShowsCode 0x300 [0xEA, 0xFF, 0x20, 0xED] (listing 0x300 [0xEA, 0xFF, 0x20, 0xED]) :=
  ⟨by decide, showsCode_listing 0x300 [0xEA, 0xFF, 0x20, 0xED] (by decide)⟩

/-- The column of bytes holds the code, whether a line shows it as an instruction or as data. -/
example : listing 0x300 [0xEA, 0xFF, 0x20, 0xED] =
    ["0300:  EA        NOP", "0301:  FF        DFB $FF", "0302:  20        DFB $20",
      "0303:  ED        DFB $ED"].map String.toList := by
  decide +kernel

end Applesoft.Machine
