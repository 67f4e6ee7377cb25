import Applesoft.Text

namespace Applesoft.Machine

inductive AddressingMode where
  /-- No operand, or the accumulator. -/
  | implied
  | immediate
  | zeroPage
  | zeroPageX
  | zeroPageY
  | absolute
  | absoluteX
  | absoluteY
  | indirect
  | indirectX
  | indirectY
  /-- A displacement from the next instruction. -/
  | relative
  deriving DecidableEq, Repr

namespace AddressingMode

def operandSize : AddressingMode → Nat
  | .implied => 0
  | .absolute | .absoluteX | .absoluteY | .indirect => 2
  | _ => 1

def affixes : AddressingMode → String × String
  | .immediate => ("#", "")
  | .zeroPageX | .absoluteX => ("", ",X")
  | .zeroPageY | .absoluteY => ("", ",Y")
  | .indirect => ("(", ")")
  | .indirectX => ("(", ",X)")
  | .indirectY => ("(", "),Y")
  | _ => ("", "")

/-- The operand of an instruction with a value, in the notation of the mode. -/
def operand (mode : AddressingMode) (value : Text) : Text :=
  mode.affixes.1.toList ++ value ++ mode.affixes.2.toList

end AddressingMode

structure Instruction where
  opcode : UInt8
  mnemonic : String
  mode : AddressingMode
  deriving DecidableEq, Repr

def instructions : List Instruction :=
  [⟨0x69, "ADC", .immediate⟩, ⟨0x65, "ADC", .zeroPage⟩, ⟨0x75, "ADC", .zeroPageX⟩,
    ⟨0x6D, "ADC", .absolute⟩, ⟨0x7D, "ADC", .absoluteX⟩, ⟨0x79, "ADC", .absoluteY⟩,
    ⟨0x61, "ADC", .indirectX⟩, ⟨0x71, "ADC", .indirectY⟩, ⟨0x29, "AND", .immediate⟩,
    ⟨0x25, "AND", .zeroPage⟩, ⟨0x35, "AND", .zeroPageX⟩, ⟨0x2D, "AND", .absolute⟩,
    ⟨0x3D, "AND", .absoluteX⟩, ⟨0x39, "AND", .absoluteY⟩, ⟨0x21, "AND", .indirectX⟩,
    ⟨0x31, "AND", .indirectY⟩, ⟨0x0A, "ASL", .implied⟩, ⟨0x06, "ASL", .zeroPage⟩,
    ⟨0x16, "ASL", .zeroPageX⟩, ⟨0x0E, "ASL", .absolute⟩, ⟨0x1E, "ASL", .absoluteX⟩,
    ⟨0x90, "BCC", .relative⟩, ⟨0xB0, "BCS", .relative⟩, ⟨0xF0, "BEQ", .relative⟩,
    ⟨0x30, "BMI", .relative⟩, ⟨0xD0, "BNE", .relative⟩, ⟨0x10, "BPL", .relative⟩,
    ⟨0x50, "BVC", .relative⟩, ⟨0x70, "BVS", .relative⟩, ⟨0x24, "BIT", .zeroPage⟩,
    ⟨0x2C, "BIT", .absolute⟩, ⟨0x00, "BRK", .implied⟩, ⟨0x18, "CLC", .implied⟩,
    ⟨0xD8, "CLD", .implied⟩, ⟨0x58, "CLI", .implied⟩, ⟨0xB8, "CLV", .implied⟩,
    ⟨0xC9, "CMP", .immediate⟩, ⟨0xC5, "CMP", .zeroPage⟩, ⟨0xD5, "CMP", .zeroPageX⟩,
    ⟨0xCD, "CMP", .absolute⟩, ⟨0xDD, "CMP", .absoluteX⟩, ⟨0xD9, "CMP", .absoluteY⟩,
    ⟨0xC1, "CMP", .indirectX⟩, ⟨0xD1, "CMP", .indirectY⟩, ⟨0xE0, "CPX", .immediate⟩,
    ⟨0xE4, "CPX", .zeroPage⟩, ⟨0xEC, "CPX", .absolute⟩, ⟨0xC0, "CPY", .immediate⟩,
    ⟨0xC4, "CPY", .zeroPage⟩, ⟨0xCC, "CPY", .absolute⟩, ⟨0xC6, "DEC", .zeroPage⟩,
    ⟨0xD6, "DEC", .zeroPageX⟩, ⟨0xCE, "DEC", .absolute⟩, ⟨0xDE, "DEC", .absoluteX⟩,
    ⟨0xCA, "DEX", .implied⟩, ⟨0x88, "DEY", .implied⟩, ⟨0x49, "EOR", .immediate⟩,
    ⟨0x45, "EOR", .zeroPage⟩, ⟨0x55, "EOR", .zeroPageX⟩, ⟨0x4D, "EOR", .absolute⟩,
    ⟨0x5D, "EOR", .absoluteX⟩, ⟨0x59, "EOR", .absoluteY⟩, ⟨0x41, "EOR", .indirectX⟩,
    ⟨0x51, "EOR", .indirectY⟩, ⟨0xE6, "INC", .zeroPage⟩, ⟨0xF6, "INC", .zeroPageX⟩,
    ⟨0xEE, "INC", .absolute⟩, ⟨0xFE, "INC", .absoluteX⟩, ⟨0xE8, "INX", .implied⟩,
    ⟨0xC8, "INY", .implied⟩, ⟨0x4C, "JMP", .absolute⟩, ⟨0x6C, "JMP", .indirect⟩,
    ⟨0x20, "JSR", .absolute⟩, ⟨0xA9, "LDA", .immediate⟩, ⟨0xA5, "LDA", .zeroPage⟩,
    ⟨0xB5, "LDA", .zeroPageX⟩, ⟨0xAD, "LDA", .absolute⟩, ⟨0xBD, "LDA", .absoluteX⟩,
    ⟨0xB9, "LDA", .absoluteY⟩, ⟨0xA1, "LDA", .indirectX⟩, ⟨0xB1, "LDA", .indirectY⟩,
    ⟨0xA2, "LDX", .immediate⟩, ⟨0xA6, "LDX", .zeroPage⟩, ⟨0xB6, "LDX", .zeroPageY⟩,
    ⟨0xAE, "LDX", .absolute⟩, ⟨0xBE, "LDX", .absoluteY⟩, ⟨0xA0, "LDY", .immediate⟩,
    ⟨0xA4, "LDY", .zeroPage⟩, ⟨0xB4, "LDY", .zeroPageX⟩, ⟨0xAC, "LDY", .absolute⟩,
    ⟨0xBC, "LDY", .absoluteX⟩, ⟨0x4A, "LSR", .implied⟩, ⟨0x46, "LSR", .zeroPage⟩,
    ⟨0x56, "LSR", .zeroPageX⟩, ⟨0x4E, "LSR", .absolute⟩, ⟨0x5E, "LSR", .absoluteX⟩,
    ⟨0xEA, "NOP", .implied⟩, ⟨0x09, "ORA", .immediate⟩, ⟨0x05, "ORA", .zeroPage⟩,
    ⟨0x15, "ORA", .zeroPageX⟩, ⟨0x0D, "ORA", .absolute⟩, ⟨0x1D, "ORA", .absoluteX⟩,
    ⟨0x19, "ORA", .absoluteY⟩, ⟨0x01, "ORA", .indirectX⟩, ⟨0x11, "ORA", .indirectY⟩,
    ⟨0x48, "PHA", .implied⟩, ⟨0x08, "PHP", .implied⟩, ⟨0x68, "PLA", .implied⟩,
    ⟨0x28, "PLP", .implied⟩, ⟨0x2A, "ROL", .implied⟩, ⟨0x26, "ROL", .zeroPage⟩,
    ⟨0x36, "ROL", .zeroPageX⟩, ⟨0x2E, "ROL", .absolute⟩, ⟨0x3E, "ROL", .absoluteX⟩,
    ⟨0x6A, "ROR", .implied⟩, ⟨0x66, "ROR", .zeroPage⟩, ⟨0x76, "ROR", .zeroPageX⟩,
    ⟨0x6E, "ROR", .absolute⟩, ⟨0x7E, "ROR", .absoluteX⟩, ⟨0x40, "RTI", .implied⟩,
    ⟨0x60, "RTS", .implied⟩, ⟨0xE9, "SBC", .immediate⟩, ⟨0xE5, "SBC", .zeroPage⟩,
    ⟨0xF5, "SBC", .zeroPageX⟩, ⟨0xED, "SBC", .absolute⟩, ⟨0xFD, "SBC", .absoluteX⟩,
    ⟨0xF9, "SBC", .absoluteY⟩, ⟨0xE1, "SBC", .indirectX⟩, ⟨0xF1, "SBC", .indirectY⟩,
    ⟨0x38, "SEC", .implied⟩, ⟨0xF8, "SED", .implied⟩, ⟨0x78, "SEI", .implied⟩,
    ⟨0x85, "STA", .zeroPage⟩, ⟨0x95, "STA", .zeroPageX⟩, ⟨0x8D, "STA", .absolute⟩,
    ⟨0x9D, "STA", .absoluteX⟩, ⟨0x99, "STA", .absoluteY⟩, ⟨0x81, "STA", .indirectX⟩,
    ⟨0x91, "STA", .indirectY⟩, ⟨0x86, "STX", .zeroPage⟩, ⟨0x96, "STX", .zeroPageY⟩,
    ⟨0x8E, "STX", .absolute⟩, ⟨0x84, "STY", .zeroPage⟩, ⟨0x94, "STY", .zeroPageX⟩,
    ⟨0x8C, "STY", .absolute⟩, ⟨0xAA, "TAX", .implied⟩, ⟨0xA8, "TAY", .implied⟩,
    ⟨0xBA, "TSX", .implied⟩, ⟨0x8A, "TXA", .implied⟩, ⟨0x9A, "TXS", .implied⟩,
    ⟨0x98, "TYA", .implied⟩]

def instruction? (opcode : UInt8) : Option Instruction :=
  instructions.find? fun instruction => instruction.opcode = opcode

def isBranch (mnemonic : Text) : Bool :=
  instructions.any fun instruction =>
    instruction.mode = .relative && instruction.mnemonic.toList = mnemonic

/-- There are 151 legal instructions. -/
example : instructions.length = 151 := by
  decide +kernel

end Applesoft.Machine
