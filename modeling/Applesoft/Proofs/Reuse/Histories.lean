import Mathlib.Data.List.Induction
import Applesoft.Proofs.Reuse.Decoder
import Applesoft.Proofs.Reuse.Renderer

/-!
A decoder and a renderer that are used again and again: images are decoded, options set,
disassemblers replaced, and programs listed, in any order.

The main statement is that a call is answered as it would be by a new decoder, and by a new renderer
that has been given nothing but the last options and a new disassembler of the last kind. Nothing
from an earlier image or listing comes into a later answer.
-/

namespace Applesoft.Reuse

open Listing

/-- What is asked of a decoder and a renderer. -/
inductive Call where
  | decode (image : Bytes)
  | configure (options : Options)
  /-- A disassembler may have been used before it is handed over. -/
  | disassembleWith (kind : DisassemblerKind) (memory : kind.Memory)
  | list (program : Program) (name : Text)

inductive Answer where
  | decoded (decoded : Decoded)
  | done
  | listing (listing : Listing)

structure Workshop where
  decoder : Decoder
  renderer : Renderer

namespace Workshop

/-- A decoder and a renderer that nothing has been asked of, apart from the options and the kind of
disassembler that the renderer has been given. -/
def fresh (options : Options) (kind : DisassemblerKind) : Workshop where
  decoder := {}
  renderer := .fresh options kind

/-- The usual decoder and renderer in the beginning. -/
def start : Workshop :=
  fresh {} .usual

def respond (workshop : Workshop) : Call → Workshop × Answer
  | .decode image =>
      let decoded := workshop.decoder.decode image
      ({ workshop with decoder := decoded.1 }, .decoded decoded.2)
  | .configure options =>
      ({ workshop with renderer := { workshop.renderer with options := options } }, .done)
  | .disassembleWith kind memory =>
      ({ workshop with
          renderer := { workshop.renderer with kind := kind, memory := memory } },
        .done)
  | .list program name =>
      let listed := workshop.renderer.list program name
      ({ workshop with renderer := listed.1 }, .listing listed.2)

/-- The workshop behind some calls. -/
def after (workshop : Workshop) (calls : List Call) : Workshop :=
  calls.foldl (fun current call => (current.respond call).1) workshop

/-- The answers to some calls, in their order. -/
def answers (workshop : Workshop) : List Call → List Answer
  | [] => []
  | call :: rest =>
      (workshop.respond call).2 :: (workshop.respond call).1.answers rest

end Workshop

namespace Call

def options? : Call → Option Options
  | .configure options => some options
  | _ => none

def kind? : Call → Option DisassemblerKind
  | .disassembleWith kind _ => some kind
  | _ => none

/-- Whether a disassembler that a call hands over answers from its arguments alone. -/
def IsFair (call : Call) : Prop :=
  ∀ kind, call.kind? = some kind → kind.AnswersFromArguments

end Call

/-- The options that have been set last. -/
def lastOptions (calls : List Call) : Options :=
  (calls.reverse.findSome? Call.options?).getD {}

/-- The kind of the disassembler that has been handed over last. -/
def lastKind (calls : List Call) : DisassemblerKind :=
  (calls.reverse.findSome? Call.kind?).getD .usual

theorem lastOptions_concat (calls : List Call) (call : Call) :
    lastOptions (calls ++ [call]) = call.options?.getD (lastOptions calls) := by
  rw [lastOptions, List.reverse_concat, List.findSome?_cons]
  cases call with
  | configure options => rfl
  | _ => rfl

theorem lastKind_concat (calls : List Call) (call : Call) :
    lastKind (calls ++ [call]) = call.kind?.getD (lastKind calls) := by
  rw [lastKind, List.reverse_concat, List.findSome?_cons]
  cases call with
  | disassembleWith kind memory => rfl
  | _ => rfl

theorem answersFromArguments_lastKind
    {calls : List Call} (fair : ∀ call ∈ calls, call.IsFair) :
    (lastKind calls).AnswersFromArguments := by
  rw [lastKind]
  cases found : calls.reverse.findSome? Call.kind? with
  | none => exact DisassemblerKind.answersFromArguments_usual
  | some kind =>
      obtain ⟨call, member, isKind⟩ := List.exists_of_findSome?_eq_some found
      exact fair call (List.mem_reverse.1 member) kind isKind

namespace Workshop

theorem after_concat (workshop : Workshop) (calls : List Call) (call : Call) :
    workshop.after (calls ++ [call]) = ((workshop.after calls).respond call).1 := by
  rw [after, List.foldl_concat]
  rfl

/-- A call leaves the renderer with the options and the kind of disassembler that it sets, or with
those from before. -/
theorem settings_respond
    {workshop : Workshop} (fair : workshop.renderer.kind.AnswersFromArguments) (call : Call) :
    (workshop.respond call).1.renderer.options =
        call.options?.getD workshop.renderer.options ∧
      (workshop.respond call).1.renderer.kind = call.kind?.getD workshop.renderer.kind := by
  cases call with
  | list program name =>
      obtain ⟨behind, last, listed⟩ := workshop.renderer.exists_list_eq program fair name
      rw [respond, listed]
      exact ⟨rfl, rfl⟩
  | _ => exact ⟨rfl, rfl⟩

theorem settings_after
    {calls : List Call} (fair : ∀ call ∈ calls, call.IsFair) :
    (start.after calls).renderer.options = lastOptions calls ∧
      (start.after calls).renderer.kind = lastKind calls := by
  induction calls using List.reverseRecOn with
  | nil => exact ⟨rfl, rfl⟩
  | append_singleton calls call hypothesis =>
      have earlier : ∀ call ∈ calls, call.IsFair := fun other member =>
        fair other (List.mem_append_left _ member)
      obtain ⟨options, kind⟩ := hypothesis earlier
      have kindFair : (start.after calls).renderer.kind.AnswersFromArguments :=
        kind ▸ answersFromArguments_lastKind earlier
      obtain ⟨newOptions, newKind⟩ := settings_respond kindFair call
      rw [after_concat, newOptions, newKind, options, kind, lastOptions_concat, lastKind_concat]
      exact ⟨rfl, rfl⟩

/-- What a workshop answers follows from its options and its kind of disassembler. -/
theorem answer_eq_of_fresh
    {workshop : Workshop} (fair : workshop.renderer.kind.AnswersFromArguments) (call : Call) :
    (workshop.respond call).2 =
      ((fresh workshop.renderer.options workshop.renderer.kind).respond call).2 := by
  cases call with
  | decode image =>
      rw [respond, respond, Decoder.decode_eq, Decoder.decode_eq]
  | configure options => rfl
  | disassembleWith kind memory => rfl
  | list program name =>
      obtain ⟨_, _, listed⟩ := workshop.renderer.exists_list_eq program fair name
      obtain ⟨_, _, freshListed⟩ :=
        (Renderer.fresh workshop.renderer.options workshop.renderer.kind).exists_list_eq program
          fair name
      rw [respond, respond, listed, fresh, freshListed]
      rfl

theorem answers_append (workshop : Workshop) (left right : List Call) :
    workshop.answers (left ++ right) =
      workshop.answers left ++ (workshop.after left).answers right := by
  induction left generalizing workshop with
  | nil => rfl
  | cons call rest hypothesis =>
      rw [List.cons_append, answers, hypothesis]
      rfl

theorem length_answers (workshop : Workshop) (calls : List Call) :
    (workshop.answers calls).length = calls.length := by
  induction calls generalizing workshop with
  | nil => rfl
  | cons call rest hypothesis => rw [answers, List.length_cons, List.length_cons, hypothesis]

/-- The answer to a call in its place among others. -/
theorem getElem?_answers (earlier later : List Call) (call : Call) :
    (start.answers (earlier ++ call :: later))[earlier.length]? =
      some ((start.after earlier).respond call).2 := by
  rw [answers_append, List.getElem?_append_right (Nat.le_of_eq (length_answers start earlier)),
    length_answers, Nat.sub_self]
  rfl

/-- Nothing from an earlier call comes into a later answer. Whatever has been decoded, set, replaced
and listed before, a call is answered as it is by a new decoder, and by a new renderer with the
options that have been set last and a new disassembler of the last kind. So an image is decoded to
what follows from its bytes, and a listing follows from the program, these settings and the name.
Disassemblers that are handed over answer from their arguments alone. -/
theorem answers_eq_of_fresh
    (calls : List Call) (fair : ∀ call ∈ calls, call.IsFair) :
    (start.answers calls).length = calls.length ∧
      ∀ earlier call later, calls = earlier ++ call :: later →
        (start.answers calls)[earlier.length]? =
            some ((fresh (lastOptions earlier) (lastKind earlier)).respond call).2 ∧
          (∀ image, call = .decode image →
            (start.answers calls)[earlier.length]? =
              some (.decoded ⟨Program.decode image, (Program.decode image).symbols,
                (Program.decode image).diagnostics⟩)) ∧
          ∀ program name, call = .list program name →
            (start.answers calls)[earlier.length]? =
              some (.listing
                (program.list (lastOptions earlier) (lastKind earlier).answer name)) := by
  refine ⟨length_answers start calls, ?_⟩
  rintro earlier call later rfl
  have earlierFair : ∀ call ∈ earlier, call.IsFair := fun other member =>
    fair other (List.mem_append_left _ member)
  obtain ⟨options, kind⟩ := settings_after earlierFair
  have kindFair := answersFromArguments_lastKind earlierFair
  have answered : (start.answers (earlier ++ call :: later))[earlier.length]? =
      some ((fresh (lastOptions earlier) (lastKind earlier)).respond call).2 := by
    rw [getElem?_answers, answer_eq_of_fresh (kind ▸ kindFair), options, kind]
  refine ⟨answered, ?_, ?_⟩
  · rintro image rfl
    rw [answered, respond, Decoder.decode_eq]
  · rintro program name rfl
    obtain ⟨_, _, listed⟩ :=
      (Renderer.fresh (lastOptions earlier) (lastKind earlier)).exists_list_eq program kindFair name
    rw [answered, respond, fresh, listed]
    rfl

/-- A disassembler that counts its calls, and calls that leave something behind everywhere: the
anomalies of a garbled image, machine code, and the number of a line. -/
theorem answers_of_counting_disassembler :
    let counting : DisassemblerKind :=
      ⟨Nat, 0, fun count _ code => (count + 1, code.map fun byte => Numeral.hex 2 byte.toNat)⟩
    let garbled : Bytes := [0x01, 0x08, 0x0A, 0x00, 0xAB, 0x41, 0x3A, 0xAD, 0x22, 0xC1, 0x48]
    let remark : Bytes := [0x09, 0x08, 0x14, 0x00, 0xB2, 0xA9, 0x60, 0x00, 0x00, 0x00]
    let options : Options := { showHeader := false }
    let earlier : List Call :=
      [.disassembleWith counting 7, .decode garbled, .list (Program.decode garbled) [],
        .configure options, .list (Program.decode remark) [], .decode remark]
    (∀ call ∈ earlier ++ [.list (Program.decode remark) []], call.IsFair) ∧
      (start.answers (earlier ++ [.list (Program.decode remark) []]))[6]? =
        some (.listing
          ⟨"    20  REM - Inline assembler @ $806 (2054)\n          A9\n          60".toList,
            []⟩) := by
  intro counting garbled remark options earlier
  have fair : ∀ call ∈ earlier ++ [.list (Program.decode remark) []], call.IsFair := by
    simp [earlier, Call.IsFair, Call.kind?, DisassemblerKind.AnswersFromArguments, counting]
  have listed : (Program.decode remark).list options counting.answer [] =
      ⟨"    20  REM - Inline assembler @ $806 (2054)\n          A9\n          60".toList, []⟩ := by
    decide +kernel
  obtain ⟨-, answered⟩ := answers_eq_of_fresh _ fair
  obtain ⟨-, -, listing⟩ := answered earlier _ [] rfl
  refine ⟨fair, ?_⟩
  rw [← listed]
  exact listing _ _ rfl

end Workshop

end Applesoft.Reuse
