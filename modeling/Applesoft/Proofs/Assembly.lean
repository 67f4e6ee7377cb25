import Mathlib.Data.List.Nodup
import Applesoft.Machine.Disassembly
import Applesoft.Proofs.Hexadecimal
import Applesoft.Proofs.Targets

/-!
Assembling. A line of a disassembly has its address in the first four columns, a mnemonic from
column 17 on and an operand from column 21 on. These three give back the bytes of the line: the
mnemonic and the form of the operand tell the instruction, and the digits of the operand its value.
The column of bytes is not read.

The main statement is that the lines of a disassembly assemble to the code they were made from.
-/

namespace Applesoft.Machine

/-- The signs of an operand before and behind its value, and the digits that the value has. -/
structure OperandForm where
  before : Text
  digits : Nat
  behind : Text
  deriving DecidableEq, Repr

namespace OperandForm

/-- What stands behind the dollar sign of an operand. -/
def behindDollar (operand : Text) : Text :=
  (operand.dropWhile (· ≠ '$')).drop 1

def digitsOf (operand : Text) : Text :=
  (behindDollar operand).takeWhile Numeral.isHexDigit

def ofOperand (operand : Text) : OperandForm where
  before := operand.takeWhile (· ≠ '$')
  digits := (digitsOf operand).length
  behind := (behindDollar operand).dropWhile Numeral.isHexDigit

/-- The form of a byte of data. -/
def data : OperandForm where
  before := []
  digits := 2
  behind := []

end OperandForm

namespace AddressingMode

/-- The digits of an operand: two for each byte, and four for the address that a branch goes to. -/
def digits (mode : AddressingMode) : Nat :=
  if mode = .relative then 4 else 2 * mode.operandSize

def form (mode : AddressingMode) : OperandForm where
  before := mode.affixes.1.toList
  digits := mode.digits
  behind := mode.affixes.2.toList

end AddressingMode

/-- The first instruction in the table with a mnemonic and a form of its operand. -/
def instructionOf? (mnemonic : Text) (form : OperandForm) : Option Instruction :=
  instructions.find? fun instruction =>
    instruction.mnemonic.toList = mnemonic ∧ instruction.mode.form = form

/-- A number in some bytes, low byte first. -/
def littleEndian : Nat → Nat → Bytes
  | 0, _ => []
  | size + 1, value => UInt8.ofNat value :: littleEndian size (value / 256)

/-- The bytes of an operand with a value. A branch holds its displacement from the next
instruction. -/
def operandBytes (mode : AddressingMode) (address value : Nat) : Bytes :=
  if mode = .relative then
    [UInt8.ofInt ((value : Int) - address - 2)]
  else
    littleEndian mode.operandSize value

/-- The bytes of a line, from its address, its mnemonic and its operand. -/
def assembleLine? (line : Text) : Option Bytes := do
  let address ← Numeral.readHex? (line.take 4)
  let mnemonic := (line.drop 17).take 3
  let operand := line.drop 21
  let value ← Numeral.readHex? (OperandForm.digitsOf operand)
  if mnemonic = "DFB".toList then
    if OperandForm.ofOperand operand = .data then some [UInt8.ofNat value] else none
  else
    let instruction ← instructionOf? mnemonic (.ofOperand operand)
    some (instruction.opcode :: operandBytes instruction.mode address value)

def assemble? (lines : List Text) : Option Bytes :=
  (lines.mapM assembleLine?).map List.flatten

/-- A number for a mnemonic and a form. -/
def rank (mnemonic : Text) (form : OperandForm) : Nat :=
  (mnemonic ++ form.before ++ form.behind).foldl
    (fun value character => 128 * value + character.toNat) form.digits

theorem nodup_rank :
    (instructions.map fun listed => rank listed.mnemonic.toList listed.mode.form).Nodup := by
  decide +kernel

/-- Mnemonic and form tell the instruction. -/
theorem instructionOf?_of_mem
    {instruction : Instruction} (member : instruction ∈ instructions) :
    instructionOf? instruction.mnemonic.toList instruction.mode.form = some instruction := by
  have present :
      (instructionOf? instruction.mnemonic.toList instruction.mode.form).isSome = true :=
    List.find?_isSome.2 ⟨instruction, member, by simp⟩
  obtain ⟨found, isFound⟩ := Option.isSome_iff_exists.1 present
  have agrees := List.find?_some isFound
  rw [decide_eq_true_eq] at agrees
  obtain ⟨sameMnemonic, sameForm⟩ := agrees
  have sameRank :
      rank found.mnemonic.toList found.mode.form =
        rank instruction.mnemonic.toList instruction.mode.form := by
    rw [sameMnemonic, sameForm]
  rw [isFound, List.inj_on_of_nodup_map nodup_rank (List.mem_of_find?_eq_some isFound) member
    sameRank]

/-- A mnemonic has three letters, and none is that of a byte of data. -/
theorem mnemonic_of_mem
    {instruction : Instruction} (member : instruction ∈ instructions) :
    instruction.mnemonic.toList.length = 3 ∧
      (∀ letter ∈ instruction.mnemonic.toList, Text.isBlank letter = false) ∧
      instruction.mnemonic.toList ≠ "DFB".toList := by
  have every : instructions.all (fun listed =>
      listed.mnemonic.toList.length = 3 ∧
        listed.mnemonic.toList.all (fun letter => !Text.isBlank letter) ∧
        listed.mnemonic.toList ≠ "DFB".toList) = true := by
    decide +kernel
  simpa using List.all_eq_true.1 every instruction member

/-- The signs around a value are visible and no part of it. -/
theorem affixes_of_mode (mode : AddressingMode) :
    (∀ sign ∈ mode.affixes.1.toList, Text.isBlank sign = false ∧ (sign ≠ '$')) ∧
      (∀ sign ∈ mode.affixes.2.toList, Text.isBlank sign = false) ∧
      ∀ sign ∈ mode.affixes.2.toList.head?, Numeral.isHexDigit sign = false := by
  have before :
      mode.affixes.1.toList.all (fun sign => !Text.isBlank sign && sign != '$') = true := by
    cases mode <;> decide
  have behind : mode.affixes.2.toList.all (fun sign => !Text.isBlank sign) = true := by
    cases mode <;> decide
  have next : mode.affixes.2.toList.head?.all (fun sign => !Numeral.isHexDigit sign) = true := by
    cases mode <;> decide
  refine ⟨fun sign member => ?_, fun sign member => ?_, fun sign member => ?_⟩
  · simpa using List.all_eq_true.1 before sign member
  · simpa using List.all_eq_true.1 behind sign member
  · rw [Option.mem_def.1 member] at next
    simpa using next

section Operands

variable {before digits behind : Text}

theorem behindDollar_append (noDollar : ∀ sign ∈ before, sign ≠ '$') :
    OperandForm.behindDollar (before ++ '$' :: (digits ++ behind)) = digits ++ behind := by
  rw [OperandForm.behindDollar,
    dropWhile_append_of_head? (fun sign member => decide_eq_true (noDollar sign member))
      (by simp)]
  rfl

theorem digitsOf_append
    (noDollar : ∀ sign ∈ before, sign ≠ '$')
    (allDigits : ∀ digit ∈ digits, Numeral.isHexDigit digit = true)
    (ends : ∀ sign ∈ behind.head?, Numeral.isHexDigit sign = false) :
    OperandForm.digitsOf (before ++ '$' :: (digits ++ behind)) = digits := by
  rw [OperandForm.digitsOf, behindDollar_append noDollar,
    takeWhile_append_of_head? allDigits ends]

theorem ofOperand_append
    (noDollar : ∀ sign ∈ before, sign ≠ '$')
    (allDigits : ∀ digit ∈ digits, Numeral.isHexDigit digit = true)
    (ends : ∀ sign ∈ behind.head?, Numeral.isHexDigit sign = false) :
    OperandForm.ofOperand (before ++ '$' :: (digits ++ behind)) =
      ⟨before, digits.length, behind⟩ := by
  have front :
      (before ++ '$' :: (digits ++ behind)).takeWhile (· ≠ '$') = before :=
    takeWhile_append_of_head? (fun sign member => decide_eq_true (noDollar sign member))
      (by simp)
  rw [OperandForm.ofOperand, front, digitsOf_append noDollar allDigits ends,
    behindDollar_append noDollar, dropWhile_append_of_head? allDigits ends]

end Operands

theorem operandValue_lt (operand : Bytes) :
    operandValue operand < 256 ^ operand.length := by
  induction operand with
  | nil => simp [operandValue]
  | cons low rest hypothesis =>
      have bound := low.toNat_lt
      rw [operandValue, List.length_cons, Nat.pow_succ]
      omega

theorem littleEndian_operandValue (operand : Bytes) :
    littleEndian operand.length (operandValue operand) = operand := by
  induction operand with
  | nil => rfl
  | cons low rest hypothesis =>
      have bound := low.toNat_lt
      have lowByte : UInt8.ofNat (low.toNat + 256 * operandValue rest) = low := by
        apply UInt8.toNat_inj.1
        rw [UInt8.toNat_ofNat']
        omega
      have higher : (low.toNat + 256 * operandValue rest) / 256 = operandValue rest := by omega
      rw [List.length_cons, operandValue, littleEndian, lowByte, higher, hypothesis]

/-- The displacement of a branch is the low byte of the way to its target, though addresses wrap at
16 bits and displacements at eight. -/
theorem displacement_branchTarget (address : Nat) (displacement : UInt8) :
    UInt8.ofInt ((branchTarget address displacement.toNat : Int) - (address % 65536 : Nat) - 2) =
      displacement := by
  have bound := displacement.toNat_lt
  apply UInt8.toNat_inj.1
  rw [UInt8.ofInt, UInt8.toNat_ofNat', branchTarget]
  split <;> omega

section Instructions

variable {mode : AddressingMode} {operand : Bytes}

theorem valueText_eq (address : Nat) (length : operand.length = mode.operandSize) :
    ∃ value, valueText mode address operand = '$' :: Numeral.hex mode.digits value ∧
      value < 16 ^ mode.digits ∧ operandBytes mode (address % 65536) value = operand := by
  rw [valueText, AddressingMode.digits]
  by_cases relative : mode = .relative
  · subst relative
    obtain ⟨displacement, rfl⟩ := List.length_eq_one_iff.1 length
    refine ⟨branchTarget address displacement.toNat, ?_, ?_, ?_⟩
    · simp [operandValue]
    · rw [branchTarget]
      split <;> exact Nat.mod_lt _ (by decide)
    · rw [operandBytes, if_pos rfl, displacement_branchTarget]
  · refine ⟨operandValue operand, ?_, ?_, ?_⟩
    · simp [relative]
    · have bound := operandValue_lt operand
      rw [if_neg relative, Nat.pow_mul, ← length]
      exact bound
    · rw [operandBytes, if_neg relative, ← length, littleEndian_operandValue]

end Instructions

theorem trimEnd_append_of_visible
    {text visible : Text} (nonempty : visible ≠ [])
    (noBlank : ∀ character ∈ visible, Text.isBlank character = false) :
    Text.trimEnd (text ++ visible) = text ++ visible := by
  obtain ⟨front, last, rfl⟩ := List.eq_nil_or_concat visible |>.resolve_left nonempty
  have lastVisible : Text.isBlank last = false := noBlank last (by simp)
  simp [Text.trimEnd, Text.dropTrailing, lastVisible]

theorem trimEnd_append_space (text : Text) :
    Text.trimEnd (text ++ [' ']) = Text.trimEnd text := by
  have blank : Text.isBlank ' ' = true := by decide
  simp [Text.trimEnd, Text.dropTrailing, blank]

/-- Whether a line has room for its bytes and three letters for a mnemonic, and no blanks in it or
in its operand. -/
structure SourceLine.IsPlain (line : SourceLine) : Prop where
  bytes : line.bytes.length ≤ 3
  letters : line.mnemonic.length = 3
  mnemonic : ∀ letter ∈ line.mnemonic, Text.isBlank letter = false
  operand : ∀ character ∈ line.operand, Text.isBlank character = false

section Columns

variable {line : SourceLine}

/-- What a line shows before its mnemonic. -/
def SourceLine.front (line : SourceLine) : Text :=
  Numeral.hex 4 (line.address % 65536) ++
    (":  ".toList ++
      (Text.padRight 9 (line.bytes.flatMap fun byte => Numeral.hex 2 byte.toNat) ++ [' ']))

theorem length_address : (Numeral.hex 4 (line.address % 65536)).length = 4 :=
  Numeral.length_hex (by decide) (Nat.mod_lt _ (by decide))

theorem length_front (bytes : line.bytes.length ≤ 3) :
    line.front.length = 17 := by
  rw [SourceLine.front, List.length_append, List.length_append, List.length_append,
    length_address, Text.length_padRight, Numeral.length_flatMap_hex_two, String.length_toList]
  have separator : ":  ".length = 3 := by decide
  rw [separator, List.length_singleton]
  omega

/-- A line without its blanks at the end. -/
theorem text_eq (plain : line.IsPlain) :
    line.text =
      line.front ++ (line.mnemonic ++ if line.operand = [] then [] else ' ' :: line.operand) := by
  have letters := plain.letters
  have padded : Text.padRight 4 line.mnemonic = line.mnemonic ++ [' '] := by
    rw [Text.padRight, letters]
    rfl
  have whole :
      line.text = Text.trimEnd (line.front ++ line.mnemonic ++ [' '] ++ line.operand) := by
    simp only [SourceLine.text, SourceLine.front, padded, List.append_assoc]
  rw [whole]
  split
  · next none =>
      have nonempty : line.mnemonic ≠ [] := by
        intro empty
        simp [empty] at letters
      rw [none, List.append_nil, trimEnd_append_space,
        trimEnd_append_of_visible nonempty plain.mnemonic, List.append_nil]
  · next some =>
      rw [trimEnd_append_of_visible some plain.operand]
      simp

/-- The address, the mnemonic and the operand of a line stand in their columns. -/
theorem columns_text (plain : line.IsPlain) :
    line.text.take 4 = Numeral.hex 4 (line.address % 65536) ∧
      (line.text.drop 17).take 3 = line.mnemonic ∧ line.text.drop 21 = line.operand := by
  have behindFront :
      line.text.drop 17 =
        line.mnemonic ++ if line.operand = [] then [] else ' ' :: line.operand := by
    rw [text_eq plain, List.drop_left' (length_front plain.bytes)]
  refine ⟨?_, ?_, ?_⟩
  · rw [text_eq plain, SourceLine.front, List.append_assoc, List.take_left' length_address]
  · rw [behindFront, List.take_left' plain.letters]
  · have behindMnemonic : line.text.drop 21 = (line.text.drop 17).drop 4 := by
      rw [List.drop_drop]
    have letters := plain.letters
    rw [behindMnemonic, behindFront, List.drop_append, letters]
    have short : line.mnemonic.drop 4 = [] := List.drop_eq_nil_of_le (by omega)
    rw [short, List.nil_append]
    split
    · next none => rw [none]; rfl
    · rfl

end Columns

theorem isPlain_ofData (address : Nat) (byte : UInt8) :
    (SourceLine.ofData address byte).IsPlain where
  bytes := by simp [SourceLine.ofData]
  letters := rfl
  mnemonic := by
    have all : "DFB".toList.all (fun letter => !Text.isBlank letter) = true := by decide
    intro letter member
    simpa using List.all_eq_true.1 all letter member
  operand := by
    intro character member
    rcases List.mem_cons.1 member with rfl | digit
    · decide
    · have bounds := Numeral.toNat_of_isHexDigit (Numeral.isHexDigit_of_mem_hex digit)
      exact Text.isBlank_eq_false_of_toNat (by omega) (by omega)

theorem assembleLine?_ofData (address : Nat) (byte : UInt8) :
    assembleLine? (SourceLine.ofData address byte).text = some [byte] := by
  have hexDigits :
      ∀ digit ∈ Numeral.hex 2 byte.toNat, Numeral.isHexDigit digit = true :=
    fun _ member => Numeral.isHexDigit_of_mem_hex member
  have shape :
      (SourceLine.ofData address byte).operand =
        [] ++ '$' :: (Numeral.hex 2 byte.toNat ++ []) := by
    simp [SourceLine.ofData]
  obtain ⟨addressRead, mnemonicRead, operandRead⟩ := columns_text (isPlain_ofData address byte)
  have digits : OperandForm.digitsOf ([] ++ '$' :: (Numeral.hex 2 byte.toNat ++ [])) =
      Numeral.hex 2 byte.toNat :=
    digitsOf_append (by simp) hexDigits (by simp)
  have form : OperandForm.ofOperand ([] ++ '$' :: (Numeral.hex 2 byte.toNat ++ [])) = .data := by
    rw [ofOperand_append (by simp) hexDigits (by simp),
      Numeral.length_hex (by decide) byte.toNat_lt]
    rfl
  have isData : (SourceLine.ofData address byte).mnemonic = "DFB".toList := rfl
  simp only [assembleLine?, addressRead, mnemonicRead, operandRead, shape, digits, form,
    Numeral.readHex?_hex, isData]
  simp

/-- The operand of an instruction has the form of its mode, and its digits tell the bytes. -/
theorem operand_ofInstruction
    {instruction : Instruction} {operand : Bytes} (address : Nat)
    (length : operand.length = instruction.mode.operandSize) :
    let shown := (SourceLine.ofInstruction address instruction operand).operand
    (∀ character ∈ shown, Text.isBlank character = false) ∧
      OperandForm.ofOperand shown = instruction.mode.form ∧
      ∃ value, Numeral.readHex? (OperandForm.digitsOf shown) = some value ∧
        operandBytes instruction.mode (address % 65536) value = operand := by
  obtain ⟨opcode, mnemonic, mode⟩ := instruction
  simp only [SourceLine.ofInstruction]
  by_cases implied : mode = .implied
  · subst implied
    rw [if_pos rfl]
    obtain rfl := List.length_eq_zero_iff.1 length
    exact ⟨by simp, by decide, 0, rfl, rfl⟩
  · rw [if_neg implied]
    obtain ⟨value, text, fits, bytes⟩ := valueText_eq address length
    obtain ⟨before, behind, ends⟩ := affixes_of_mode mode
    have hexDigits :
        ∀ digit ∈ Numeral.hex mode.digits value, Numeral.isHexDigit digit = true :=
      fun _ member => Numeral.isHexDigit_of_mem_hex member
    have noDollar : ∀ sign ∈ mode.affixes.1.toList, sign ≠ '$' :=
      fun sign member => (before sign member).2
    have positive : 0 < mode.digits := by
      revert implied
      cases mode <;> decide
    have shape :
        mode.operand (valueText mode address operand) =
          mode.affixes.1.toList ++
            '$' :: (Numeral.hex mode.digits value ++ mode.affixes.2.toList) := by
      simp [AddressingMode.operand, text]
    rw [shape, ofOperand_append noDollar hexDigits ends, digitsOf_append noDollar hexDigits ends,
      Numeral.length_hex positive fits]
    refine ⟨?_, rfl, value, Numeral.readHex?_hex _ _, bytes⟩
    intro character member
    rcases List.mem_append.1 member with front | rest
    · exact (before character front).1
    · rcases List.mem_cons.1 rest with rfl | rest
      · decide
      · rcases List.mem_append.1 rest with digit | rear
        · have bounds := Numeral.toNat_of_isHexDigit (hexDigits character digit)
          exact Text.isBlank_eq_false_of_toNat (by omega) (by omega)
        · exact behind character rear

theorem operandSize_le (mode : AddressingMode) : mode.operandSize ≤ 2 := by
  cases mode <;> decide

theorem isPlain_ofInstruction
    {instruction : Instruction} {operand : Bytes} (address : Nat)
    (member : instruction ∈ instructions)
    (length : operand.length = instruction.mode.operandSize) :
    (SourceLine.ofInstruction address instruction operand).IsPlain where
  bytes := Nat.succ_le_succ (length ▸ operandSize_le instruction.mode)
  letters := (mnemonic_of_mem member).1
  mnemonic := (mnemonic_of_mem member).2.1
  operand := (operand_ofInstruction address length).1

theorem assembleLine?_ofInstruction
    {instruction : Instruction} {operand : Bytes} (address : Nat)
    (member : instruction ∈ instructions)
    (length : operand.length = instruction.mode.operandSize) :
    assembleLine? (SourceLine.ofInstruction address instruction operand).text =
      some (instruction.opcode :: operand) := by
  obtain ⟨_, form, value, read, bytes⟩ := operand_ofInstruction address length
  obtain ⟨_, _, notData⟩ := mnemonic_of_mem member
  obtain ⟨addressRead, mnemonicRead, operandRead⟩ :=
    columns_text (isPlain_ofInstruction address member length)
  have isMnemonic :
      (SourceLine.ofInstruction address instruction operand).mnemonic =
        instruction.mnemonic.toList := rfl
  have isAddress :
      (SourceLine.ofInstruction address instruction operand).address = address := rfl
  simp only [assembleLine?, addressRead, mnemonicRead, operandRead, read, form,
    Numeral.readHex?_hex, isMnemonic, isAddress, Option.bind_eq_bind, Option.bind_some]
  rw [if_neg notData, instructionOf?_of_mem member, Option.bind_some, bytes]

theorem assemble?_cons
    {line : Text} {lines : List Text} {bytes code : Bytes}
    (first : assembleLine? line = some bytes) (others : assemble? lines = some code) :
    assemble? (line :: lines) = some (bytes ++ code) := by
  rw [assemble?, Option.map_eq_some_iff] at others
  obtain ⟨parts, read, rfl⟩ := others
  simp [assemble?, List.mapM_cons, first, read]

theorem instruction?_eq_some
    {opcode : UInt8} {instruction : Instruction}
    (found : instruction? opcode = some instruction) :
    instruction ∈ instructions ∧ instruction.opcode = opcode :=
  ⟨List.mem_of_find?_eq_some found, by simpa using List.find?_some found⟩

section Disassembling

variable {address : Nat} {opcode : UInt8} {rest : Bytes}

theorem disassemble_of_complete
    {instruction : Instruction}
    (found : instruction? opcode = some instruction)
    (complete : instruction.mode.operandSize ≤ rest.length) :
    disassemble address (opcode :: rest) =
      .ofInstruction address instruction (rest.take instruction.mode.operandSize) ::
        disassemble (address + 1 + instruction.mode.operandSize)
          (rest.drop instruction.mode.operandSize) := by
  rw [disassemble, found]
  exact if_pos complete

theorem disassemble_of_truncated
    (truncated : ∀ instruction, instruction? opcode = some instruction →
      rest.length < instruction.mode.operandSize) :
    disassemble address (opcode :: rest) =
      .ofData address opcode :: disassemble (address + 1) rest := by
  rw [disassemble]
  split
  · next instruction found =>
      exact if_neg (Nat.not_le_of_lt (truncated instruction found))
  · rfl

end Disassembling

/-- The lines of a disassembly assemble to the code they were made from. -/
theorem assemble?_listing (address : Nat) (code : Bytes) :
    assemble? (listing address code) = some code := by
  rw [listing]
  induction address, code using disassemble.induct with
  | case1 address => rw [disassemble]; rfl
  | case2 address opcode rest instruction found size complete hypothesis =>
      obtain ⟨member, sameOpcode⟩ := instruction?_eq_some found
      have line :=
        assembleLine?_ofInstruction address member (List.length_take_of_le complete)
      have whole := assemble?_cons line hypothesis
      rw [sameOpcode, List.cons_append, List.take_append_drop] at whole
      rw [disassemble_of_complete found complete, List.map_cons]
      exact whole
  | case3 address opcode rest instruction found size truncated hypothesis =>
      have noRoom :
          ∀ other, instruction? opcode = some other → rest.length < other.mode.operandSize := by
        intro other isOther
        obtain rfl := Option.some.inj (found.symm.trans isOther)
        exact Nat.lt_of_not_le truncated
      rw [disassemble_of_truncated noRoom, List.map_cons]
      exact assemble?_cons (assembleLine?_ofData address opcode) hypothesis
  | case4 address opcode rest missing hypothesis =>
      rw [disassemble_of_truncated (by simp [missing]), List.map_cons]
      exact assemble?_cons (assembleLine?_ofData address opcode) hypothesis

end Applesoft.Machine
