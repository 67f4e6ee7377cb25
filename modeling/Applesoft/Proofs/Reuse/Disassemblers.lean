import Applesoft.Listing.Remark
import Applesoft.Machine.Disassembly

namespace Applesoft.Reuse

open Machine

/-- A kind of disassembler, with what one of it may hold. -/
structure DisassemblerKind where
  Memory : Type
  new : Memory
  /-- Answers for code at an address, with what is held behind that. -/
  respond : Memory → Nat → Bytes → Memory × List Text

namespace DisassemblerKind

/-- Whether answers do not depend on what is held. -/
def AnswersFromArguments (kind : DisassemblerKind) : Prop :=
  ∀ (memory other : kind.Memory) (address : Nat) (code : Bytes),
    (kind.respond memory address code).2 = (kind.respond other address code).2

/-- What a new disassembler answers. -/
def answer (kind : DisassemblerKind) : Listing.Disassembler := fun address code =>
  (kind.respond kind.new address code).2

/-- Disassemblers that hold nothing. -/
def ofFunction (disassembler : Listing.Disassembler) : DisassemblerKind where
  Memory := Unit
  new := ()
  respond := fun _ address code => ((), disassembler address code)

theorem answersFromArguments_ofFunction (disassembler : Listing.Disassembler) :
    (ofFunction disassembler).AnswersFromArguments :=
  fun _ _ _ _ => rfl

end DisassemblerKind

/-- Enters the lines of source of code at an address behind those that are held. -/
def enterSource (held : List SourceLine) (address : Nat) : Bytes → List SourceLine
  | [] => held
  | opcode :: rest =>
      match instruction? opcode with
      | some instruction =>
          let size := instruction.mode.operandSize
          if size ≤ rest.length then
            enterSource (held ++ [.ofInstruction address instruction (rest.take size)])
              (address + 1 + size) (rest.drop size)
          else
            enterSource (held ++ [.ofData address opcode]) (address + 1) rest
      | none => enterSource (held ++ [.ofData address opcode]) (address + 1) rest
termination_by bytes => bytes.length
decreasing_by
  all_goals
    simp only [List.length_drop, List.length_cons]
    omega

theorem enterSource_eq (held : List SourceLine) (address : Nat) (code : Bytes) :
    enterSource held address code = held ++ disassemble address code := by
  fun_induction enterSource held address code with
  | case1 held address => rw [disassemble, List.append_nil]
  | case2 held address opcode rest instruction found size inside hypothesis =>
      rw [hypothesis, disassemble, found]
      simp only [size, if_pos inside, List.append_assoc, List.singleton_append]
  | case3 held address opcode rest instruction found size outside hypothesis =>
      rw [hypothesis, disassemble, found]
      simp only [size, if_neg outside, List.append_assoc, List.singleton_append]
  | case4 held address opcode rest absent hypothesis =>
      rw [hypothesis, disassemble, absent]
      simp only [List.append_assoc, List.singleton_append]

namespace DisassemblerKind

/-- The usual disassemblers hold the lines of source of the code that they have been given last. -/
def usual : DisassemblerKind where
  Memory := List SourceLine
  new := []
  respond := fun _ address code =>
    let lines := enterSource [] address code
    (lines, lines.map SourceLine.text)

theorem respond_usual (held : usual.Memory) (address : Nat) (code : Bytes) :
    (usual.respond held address code).2 = listing address code :=
  congrArg (List.map SourceLine.text) (enterSource_eq [] address code)

theorem answersFromArguments_usual : usual.AnswersFromArguments := by
  intro memory other address code
  rw [respond_usual, respond_usual]

theorem answer_usual : usual.answer = listing := by
  funext address code
  exact respond_usual usual.new address code

end DisassemblerKind

end Applesoft.Reuse
