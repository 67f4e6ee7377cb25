import Applesoft.Machine.Instruction
import Applesoft.Text.Blank
import Applesoft.Text.Numeral

/-!
Machine code as assembly source. Each line shows an address, the bytes there, and an instruction. A
byte that does not begin a legal instruction, or one whose operand runs past the end, is shown as
data.
-/

namespace Applesoft.Machine

structure SourceLine where
  address : Nat
  bytes : Bytes
  mnemonic : Text
  operand : Text
  deriving DecidableEq, Repr

def SourceLine.ofData (address : Nat) (byte : UInt8) : SourceLine where
  address := address
  bytes := [byte]
  mnemonic := "DFB".toList
  operand := '$' :: Numeral.hex 2 byte.toNat

/-- The value of operand bytes, low byte first. -/
def operandValue : Bytes → Nat
  | [] => 0
  | low :: rest => low.toNat + 256 * operandValue rest

/-- Where a branch goes: its displacement is a signed byte, counted from the next instruction, and
addresses wrap at 16 bits. -/
def branchTarget (address displacement : Nat) : Nat :=
  if displacement < 128 then
    (address + 2 + displacement) % 65536
  else
    (address + 2 + displacement + (65536 - 256)) % 65536

def valueText (mode : AddressingMode) (address : Nat) (operand : Bytes) : Text :=
  let value := operandValue operand
  if mode = .relative then
    '$' :: Numeral.hex 4 (branchTarget address value)
  else
    '$' :: Numeral.hex (2 * mode.operandSize) value

def SourceLine.ofInstruction (address : Nat) (instruction : Instruction)
    (operand : Bytes) : SourceLine where
  address := address
  bytes := instruction.opcode :: operand
  mnemonic := instruction.mnemonic.toList
  operand :=
    if instruction.mode = .implied then
      []
    else
      instruction.mode.operand (valueText instruction.mode address operand)

def disassemble (address : Nat) : Bytes → List SourceLine
  | [] => []
  | opcode :: rest =>
      match instruction? opcode with
      | some instruction =>
          let size := instruction.mode.operandSize
          if size ≤ rest.length then
            .ofInstruction address instruction (rest.take size) ::
              disassemble (address + 1 + size) (rest.drop size)
          else
            .ofData address opcode :: disassemble (address + 1) rest
      | none => .ofData address opcode :: disassemble (address + 1) rest
termination_by bytes => bytes.length
decreasing_by
  all_goals
    simp only [List.length_drop, List.length_cons]
    omega

/-- The text of a line. The address is shown modulo 65536. -/
def SourceLine.text (line : SourceLine) : Text :=
  Text.trimEnd
    (Numeral.hex 4 (line.address % 65536) ++ ":  ".toList ++
      Text.padRight 9 (line.bytes.flatMap fun byte => Numeral.hex 2 byte.toNat) ++
      [' '] ++ Text.padRight 4 line.mnemonic ++ line.operand)

def listing (address : Nat) (code : Bytes) : List Text :=
  (disassemble address code).map SourceLine.text

end Applesoft.Machine
