import Applesoft.Proofs.Reuse.Histories
import Applesoft.Session

/-!
Sessions that a workshop follows. A session keeps its current program and its settings, and nothing
else. A workshop that is asked for the same things keeps what its decoder and its renderer leave
behind.

The main statement is that both give the same answers, in every run from the beginning. Each request
of a session but a dump is a call of the workshop.
-/

namespace Applesoft

/-- The answers to some requests, in their order. -/
def Session.answers (session : Session) : List Request → List Answer
  | [] => []
  | request :: rest =>
      (session.respond request).2 :: (session.respond request).1.answers rest

namespace Reuse

/-- The call that a request comes down to. A dump takes neither a decoder nor a renderer. -/
def callOf? (session : Session) : Request → Option Call
  | .decode image => some (.decode image)
  | .configure options => some (.configure options)
  | .disassembleWith disassembler => some (.disassembleWith (.ofFunction disassembler) ())
  | .list name => some (.list session.program name)
  | .dump _ => none

/-- The calls that some requests come down to, each for the program that is current then. -/
def callsOf (session : Session) : List Request → List Call
  | [] => []
  | request :: rest =>
      (callOf? session request).toList ++ callsOf (session.respond request).1 rest

/-- What a workshop answers where a session gives an answer. -/
def Answer.ofSession? : Applesoft.Answer → Option Answer
  | .program program => some (.decoded ⟨program, program.symbols, program.diagnostics⟩)
  | .options _ => some .done
  | .done => some .done
  | .listing page => some (.listing page)
  | .dump _ => none

/-- Whether a workshop has the settings of a session. -/
structure Follows (workshop : Workshop) (session : Session) : Prop where
  options : workshop.renderer.options = session.options
  fair : workshop.renderer.kind.AnswersFromArguments
  answer : workshop.renderer.kind.answer = session.disassembler

theorem follows_start : Follows .start .start :=
  ⟨rfl, DisassemblerKind.answersFromArguments_usual, DisassemblerKind.answer_usual⟩

section Steps

variable {workshop : Workshop} {session : Session} {request : Request} {call : Call}

theorem respond_of_callOf?_eq_none (without : callOf? session request = none) :
    (session.respond request).1 = session ∧
      Answer.ofSession? (session.respond request).2 = none := by
  cases request with
  | dump name => exact ⟨rfl, rfl⟩
  | _ => cases without

theorem Follows.respond
    (follows : Follows workshop session) (asked : callOf? session request = some call) :
    Follows (workshop.respond call).1 (session.respond request).1 ∧
      Answer.ofSession? (session.respond request).2 = some (workshop.respond call).2 := by
  cases request with
  | decode image =>
      cases asked
      rw [Workshop.respond, Decoder.decode_eq]
      exact ⟨⟨follows.options, follows.fair, follows.answer⟩, rfl⟩
  | configure options =>
      cases asked
      exact ⟨⟨rfl, follows.fair, follows.answer⟩, rfl⟩
  | disassembleWith disassembler =>
      cases asked
      exact ⟨⟨follows.options, DisassemblerKind.answersFromArguments_ofFunction disassembler, rfl⟩,
        rfl⟩
  | list name =>
      cases asked
      obtain ⟨behind, last, listed⟩ :=
        workshop.renderer.exists_list_eq session.program follows.fair name
      rw [follows.options, follows.answer] at listed
      rw [Workshop.respond, listed]
      exact ⟨⟨rfl, follows.fair, follows.answer⟩, rfl⟩
  | dump name => cases asked

/-- A workshop with the settings of a session answers as the session does. -/
theorem Follows.answers_callsOf (follows : Follows workshop session) (requests : List Request) :
    workshop.answers (callsOf session requests) =
      (session.answers requests).filterMap Answer.ofSession? := by
  induction requests generalizing workshop session with
  | nil => rfl
  | cons request rest hypothesis =>
      rw [callsOf, Session.answers]
      cases asked : callOf? session request with
      | none =>
          obtain ⟨unchanged, unanswered⟩ := respond_of_callOf?_eq_none asked
          rw [List.filterMap_cons_none unanswered, unchanged]
          exact hypothesis follows
      | some call =>
          obtain ⟨further, answered⟩ := follows.respond asked
          rw [List.filterMap_cons_some answered, ← hypothesis further]
          rfl

end Steps

/-- A decoder and a renderer that are used for a whole session answer as the session does, where
they are asked. -/
theorem answers_start_callsOf (requests : List Request) :
    Workshop.start.answers (callsOf .start requests) =
      (Session.start.answers requests).filterMap Answer.ofSession? :=
  follows_start.answers_callsOf requests

end Reuse

end Applesoft
