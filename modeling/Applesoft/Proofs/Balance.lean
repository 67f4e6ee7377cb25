import Applesoft.Proofs.Margins
import Applesoft.Proofs.Nesting

/-!
Balanced loops. A variable of a NEXT closes the innermost of the loops that it stands for, so loops
that are opened and closed well nested are closed as they were meant to be, even where the loops
around them have names that would match too.

The main statement is that well nested loops leave the loops around them as they were, and that a
line among them begins at the depth that counting the loops gives.
-/

namespace Applesoft

namespace Nesting

/-- What a layout comes past. -/
inductive Event where
  /-- The beginning of a line. -/
  | line
  | statement (statement : Statement)
  deriving DecidableEq, Repr

namespace Event

/-- The steps at an event. A statement is come to, shown, and left. -/
def steps : Event → List Step
  | .line => [.startLine]
  | .statement shown => [.enter shown, .leave shown]

/-- How many loops an event opens. -/
def opened : Event → Nat
  | .statement (.forLoop _) => 1
  | _ => 0

/-- How many loops an event closes: one for each variable of a NEXT, and one for a NEXT without
variables. -/
def closed : Event → Nat
  | .statement (.next names) => max 1 names.length
  | _ => 0

end Event

/-- The nesting behind some events. -/
def follow (nesting : Nesting) (events : List Event) : Nesting :=
  (events.flatMap Event.steps).foldl after nesting

def openedIn (events : List Event) : Nat :=
  (events.map Event.opened).sum

def closedIn (events : List Event) : Nat :=
  (events.map Event.closed).sum

theorem follow_append (nesting : Nesting) (left right : List Event) :
    nesting.follow (left ++ right) = (nesting.follow left).follow right := by
  rw [follow, List.flatMap_append, List.foldl_append]
  rfl

theorem follow_cons (nesting : Nesting) (event : Event) (rest : List Event) :
    nesting.follow (event :: rest) = (nesting.follow [event]).follow rest :=
  follow_append nesting [event] rest

theorem follow_statements (nesting : Nesting) (statements : List Statement) :
    nesting.follow (statements.map Event.statement) = nesting.pass statements := by
  induction statements generalizing nesting with
  | nil => rfl
  | cons statement rest hypothesis =>
      rw [List.map_cons, follow_cons, hypothesis]
      rfl

/-- Whether events open and close loops well nested. They begin with some loops open that have been
opened before, and leave some open, both listed innermost first. A NEXT without variables closes the
innermost loop, and each variable of a NEXT stands for the loop that is the innermost one then. -/
inductive Nests : List Text → List Event → List Text → Prop
  | done {loops : List Text} :
      Nests loops [] loops
  | line {loops final : List Text} {rest : List Event} :
      Nests loops rest final →
      Nests loops (.line :: rest) final
  | other {loops final : List Text} {rest : List Event} {statement : Statement} :
      (∀ name, statement ≠ .forLoop name) →
      (∀ names, statement ≠ .next names) →
      Nests loops rest final →
      Nests loops (.statement statement :: rest) final
  | opens {loops final : List Text} {rest : List Event} {name : Text} :
      Nests (name :: loops) rest final →
      Nests loops (.statement (.forLoop name) :: rest) final
  | closesInnermost {loops final : List Text} {rest : List Event} {innermost : Text} :
      Nests loops rest final →
      Nests (innermost :: loops) (.statement (.next []) :: rest) final
  | closesNamed {loops inner final : List Text} {rest : List Event} {names : List Text} :
      names ≠ [] →
      List.Forall₂ (fun name loop => Variable.sameLoop name loop = true) names inner →
      Nests loops rest final →
      Nests (inner ++ loops) (.statement (.next names) :: rest) final

/-- Whether each loop that events open is closed by them, and none besides. -/
def IsBalanced (events : List Event) : Prop :=
  Nests [] events []

/-- Well nested events can be stopped anywhere. -/
theorem Nests.of_append
    {loops final : List Text} {before behind : List Event}
    (nests : Nests loops (before ++ behind) final) :
    ∃ between, Nests loops before between ∧ Nests between behind final := by
  induction before generalizing loops with
  | nil => exact ⟨loops, .done, nests⟩
  | cons event rest hypothesis =>
      rw [List.cons_append] at nests
      cases nests with
      | line later =>
          obtain ⟨between, front, rear⟩ := hypothesis later
          exact ⟨between, .line front, rear⟩
      | other noFor noNext later =>
          obtain ⟨between, front, rear⟩ := hypothesis later
          exact ⟨between, .other noFor noNext front, rear⟩
      | opens later =>
          obtain ⟨between, front, rear⟩ := hypothesis later
          exact ⟨between, .opens front, rear⟩
      | closesInnermost later =>
          obtain ⟨between, front, rear⟩ := hypothesis later
          exact ⟨between, .closesInnermost front, rear⟩
      | closesNamed named matched later =>
          obtain ⟨between, front, rear⟩ := hypothesis later
          exact ⟨between, .closesNamed named matched front, rear⟩

/-- The loops that are open can be counted without looking at names. -/
theorem Nests.length_add_closedIn
    {loops final : List Text} {events : List Event} (nests : Nests loops events final) :
    final.length + closedIn events = loops.length + openedIn events := by
  simp only [closedIn, openedIn]
  induction nests with
  | done => rfl
  | line _ hypothesis => simpa [Event.opened, Event.closed] using hypothesis
  | @other _ _ _ statement noFor noNext _ hypothesis =>
      cases statement with
      | forLoop name => exact absurd rfl (noFor name)
      | next names => exact absurd rfl (noNext names)
      | _ => simpa [Event.opened, Event.closed] using hypothesis
  | opens _ hypothesis =>
      simp only [List.map_cons, List.sum_cons, List.length_cons, Event.opened,
        Event.closed] at hypothesis ⊢
      omega
  | closesInnermost _ hypothesis =>
      simp only [List.map_cons, List.sum_cons, List.length_cons, List.length_nil, Event.opened,
        Event.closed] at hypothesis ⊢
      omega
  | @closesNamed _ _ _ _ names named matched _ hypothesis =>
      have present := List.length_pos_iff.2 named
      have lengths := matched.length_eq
      simp only [List.map_cons, List.sum_cons, List.length_append, Event.opened,
        Event.closed] at hypothesis ⊢
      omega

theorem closeLoop_of_innermost
    {name innermost : Text} (loops : List Text)
    (same : Variable.sameLoop name innermost = true) :
    closeLoop name (innermost :: loops) = loops := by
  simp [closeLoop, same]

/-- Variables that stand for the inner loops, one after the other, close these and no others,
whatever the names of the outer loops are. -/
theorem closeLoops_of_matched
    {names inner : List Text} (loops : List Text) (named : names ≠ [])
    (matched : List.Forall₂ (fun name loop => Variable.sameLoop name loop = true) names inner) :
    closeLoops names (inner ++ loops) = loops := by
  have closes : names.foldl (fun remaining name => closeLoop name remaining) (inner ++ loops) =
      loops := by
    clear named
    induction matched with
    | nil => rfl
    | cons same _ hypothesis =>
        rw [List.cons_append, List.foldl_cons, closeLoop_of_innermost _ same, hypothesis]
  rw [closeLoops, if_neg (by simpa using named), closes]

theorem loops_follow_statement (nesting : Nesting) (statement : Statement) :
    (nesting.follow [.statement statement]).loops =
      ((nesting.enter statement).leave statement).loops :=
  rfl

theorem loops_follow_next (nesting : Nesting) (names : List Text) :
    (nesting.follow [.statement (.next names)]).loops = closeLoops names nesting.loops :=
  loops_enter_next names nesting

/-- Loops that are open around well nested events stay as they are. The induction is on the events
that are left, with the loops that have been opened so far in front of those around. -/
theorem Nests.loops_follow
    {loops final : List Text} {events : List Event} (nests : Nests loops events final)
    {nesting : Nesting} {outer : List Text} (shape : nesting.loops = loops ++ outer) :
    (nesting.follow events).loops = final ++ outer := by
  induction nests generalizing nesting with
  | done => exact shape
  | line _ hypothesis =>
      rw [follow_cons]
      exact hypothesis shape
  | @other _ _ _ statement noFor noNext _ hypothesis =>
      rw [follow_cons]
      apply hypothesis
      rw [loops_follow_statement, enter_of_not_next nesting noNext]
      cases statement with
      | forLoop name => exact absurd rfl (noFor name)
      | _ => exact shape
  | opens _ hypothesis =>
      rw [follow_cons]
      apply hypothesis
      exact congrArg (List.cons _) shape
  | closesInnermost _ hypothesis =>
      rw [follow_cons]
      apply hypothesis
      rw [loops_follow_next, shape]
      rfl
  | closesNamed named matched _ hypothesis =>
      rw [follow_cons]
      apply hypothesis
      rw [loops_follow_next, shape, List.append_assoc]
      exact closeLoops_of_matched _ named matched

end Nesting

/-- What a layout comes past in a line. -/
def Line.events (line : Line) : List Nesting.Event :=
  .line :: line.shownStatements.map .statement

open Listing

/-- The layout of a line follows its events. Remarks that have a form of their own are not left, but
to leave a remark changes nothing. -/
theorem nesting_layoutLine
    (setting : Setting) (line : Line) (following : List Line) (progress : Progress) :
    (layoutLine setting line following progress).nesting = progress.nesting.follow line.events := by
  have statements : (items line).map (fun item => item.fragment.statement) =
      line.shownStatements := by
    rw [Line.shownStatements, ← map_fragment_itemsFrom true false line.visible, List.map_map]
    rfl
  rw [Line.events, Nesting.follow_cons, Nesting.follow_statements, ← statements]
  exact nesting_layoutItems (items line)

namespace Nesting

/-- Balanced loops restore the indentation. From any nesting, events that open and close loops well
nested leave the loops that were open as they were, and each line that begins among them begins at
an indentation of one for each of those loops and one for each loop of the events that is open
there. These are the steps that a listing takes from line to line. -/
theorem loops_follow_of_isBalanced
    (nesting : Nesting) (events : List Event) (balanced : IsBalanced events) :
    (nesting.follow events).loops = nesting.loops ∧
      (∀ before behind, events = before ++ .line :: behind →
        closedIn before ≤ openedIn before ∧
          (nesting.follow (before ++ [.line])).indent =
            nesting.loops.length + (openedIn before - closedIn before)) ∧
      ∀ setting line following progress,
        (layoutLine setting line following progress).nesting =
          progress.nesting.follow line.events := by
  refine ⟨balanced.loops_follow rfl, ?_, nesting_layoutLine⟩
  rintro before behind rfl
  obtain ⟨between, front, _⟩ := Nests.of_append balanced
  have counted := front.length_add_closedIn
  have loops : (nesting.follow before).loops = between ++ nesting.loops := front.loops_follow rfl
  have start : (nesting.follow (before ++ [.line])).indent =
      (nesting.follow before).loops.length := by
    rw [follow_append]
    rfl
  rw [List.length_nil] at counted
  rw [start, loops, List.length_append]
  omega

/-- Two loops that one NEXT closes, inside of a loop whose name matches as well. -/
theorem loops_follow_of_matching_outer_loop :
    let nesting : Nesting := { loops := ["COST".toList], indent := 5, floor := 3 }
    let before : List Event :=
      [.statement (.forLoop "COUNT".toList), .line, .statement .condition,
        .statement (.forLoop "I".toList)]
    let behind : List Event := [.statement (.next ["I".toList, "CO".toList]), .line]
    IsBalanced (before ++ .line :: behind) ∧
      (nesting.follow (before ++ .line :: behind)).loops = ["COST".toList] ∧
      (nesting.follow (before ++ [.line])).indent = 3 := by
  intro nesting before behind
  have matched : List.Forall₂ (fun name loop => Variable.sameLoop name loop = true)
      ["I".toList, "CO".toList] (["I".toList, "COUNT".toList]) :=
    .cons (by decide) (.cons (by decide) .nil)
  have closing : Nests ["I".toList, "COUNT".toList] behind [] :=
    .closesNamed (by simp) matched (.line .done)
  have balanced : IsBalanced (before ++ .line :: behind) :=
    .opens (.line (.other (by simp) (by simp) (.opens (.line closing))))
  obtain ⟨restored, begun, _⟩ := loops_follow_of_isBalanced nesting _ balanced
  exact ⟨balanced, restored, (begun before behind rfl).2⟩

end Nesting

end Applesoft
