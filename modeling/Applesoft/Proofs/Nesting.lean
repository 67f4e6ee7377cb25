import Mathlib.Data.List.Infix
import Applesoft.Nesting

/-!
The nesting along any steps of a layout, in whatever order lines begin and statements are come to
and left. The open loops, the indentation and the floor of the last IF are changed at different
times, and loops are closed several at once.

The main statement says how the three are related after every run of steps.
-/

namespace Applesoft.Nesting

inductive Step where
  | startLine
  | enter (statement : Statement)
  | leave (statement : Statement)
  deriving DecidableEq, Repr

def after (nesting : Nesting) : Step → Nesting
  | .startLine => nesting.startLine
  | .enter statement => nesting.enter statement
  | .leave statement => nesting.leave statement

/-- The nesting behind some steps, from the beginning of a program. -/
def run (steps : List Step) : Nesting :=
  steps.foldl after {}

/-- The steps since the last line has begun. -/
def currentLine (steps : List Step) : List Step :=
  (steps.reverse.takeWhile (· ≠ .startLine)).reverse

theorem run_concat (steps : List Step) (step : Step) :
    run (steps ++ [step]) = (run steps).after step := by
  simp [run]

theorem currentLine_concat (steps : List Step) (step : Step) :
    currentLine (steps ++ [step]) =
      if step = .startLine then [] else currentLine steps ++ [step] := by
  by_cases starts : step = .startLine <;> simp [currentLine, starts]

/-- Whether a NEXT finds no loop to close: it has no variables and no loop is open, or its
variables are none of those of the open loops. -/
def ClosesNothing (names : List Text) (loops : List Text) : Prop :=
  (names = [] → loops = []) ∧
    ∀ name ∈ names, ∀ loop ∈ loops, Variable.sameLoop name loop = false

instance (names loops : List Text) : Decidable (ClosesNothing names loops) :=
  inferInstanceAs (Decidable ((_ → _) ∧ ∀ name ∈ names, ∀ loop ∈ loops, _))

theorem closeLoop_suffix (name : Text) (loops : List Text) :
    closeLoop name loops <:+ loops := by
  unfold closeLoop
  split
  · exact (List.tail_suffix _).trans (List.dropWhile_suffix _)
  · exact List.suffix_rfl

theorem foldl_closeLoop_suffix (names loops : List Text) :
    names.foldl (fun remaining name => closeLoop name remaining) loops <:+ loops := by
  induction names generalizing loops with
  | nil => exact List.suffix_rfl
  | cons name rest hypothesis =>
      exact (hypothesis (closeLoop name loops)).trans (closeLoop_suffix name loops)

/-- The loops that are left open are outer loops of those that were. -/
theorem closeLoops_suffix (names loops : List Text) :
    closeLoops names loops <:+ loops := by
  unfold closeLoops
  split
  · exact List.tail_suffix loops
  · exact foldl_closeLoop_suffix names loops

theorem closeLoop_of_unmatched
    {name : Text} {loops : List Text}
    (unmatched : ∀ loop ∈ loops, Variable.sameLoop name loop = false) :
    closeLoop name loops = loops := by
  have noMatch : loops.any (Variable.sameLoop name) = false :=
    List.any_eq_false.2 fun loop member => by simp [unmatched loop member]
  simp [closeLoop, noMatch]

theorem foldl_closeLoop_of_unmatched
    {names loops : List Text}
    (unmatched : ∀ name ∈ names, ∀ loop ∈ loops, Variable.sameLoop name loop = false) :
    names.foldl (fun remaining name => closeLoop name remaining) loops = loops := by
  induction names with
  | nil => rfl
  | cons name rest hypothesis =>
      rw [List.foldl_cons, closeLoop_of_unmatched (unmatched name List.mem_cons_self)]
      exact hypothesis fun other member => unmatched other (List.mem_cons_of_mem name member)

theorem closeLoops_of_closesNothing
    {names loops : List Text} (nothing : ClosesNothing names loops) :
    closeLoops names loops = loops := by
  obtain ⟨naked, unmatched⟩ := nothing
  unfold closeLoops
  split
  · next noNames => simp [naked (List.isEmpty_iff.1 noNames)]
  · exact foldl_closeLoop_of_unmatched unmatched

theorem enter_of_not_next
    {statement : Statement} (nesting : Nesting)
    (other : ∀ names, statement ≠ .next names) :
    nesting.enter statement = nesting := by
  cases statement with
  | next names => exact absurd rfl (other names)
  | _ => rfl

/-- The nesting with the loops of a NEXT closed and the indentation taken back, even if there were
no loops to close. -/
def takeBack (names : List Text) (nesting : Nesting) : Nesting :=
  { nesting with
    loops := closeLoops names nesting.loops
    indent := max nesting.floor (closeLoops names nesting.loops).length }

theorem length_closeLoops_lt_iff (names loops : List Text) :
    (closeLoops names loops).length < loops.length ↔ closeLoops names loops ≠ loops := by
  have remaining := closeLoops_suffix names loops
  constructor
  · intro fewer same
    rw [same] at fewer
    exact Nat.lt_irrefl _ fewer
  · intro different
    exact Nat.lt_of_le_of_ne remaining.length_le
      fun same => different (remaining.eq_of_length same)

section Next

variable {names : List Text} {nesting : Nesting}

theorem enter_next_of_kept (kept : closeLoops names nesting.loops = nesting.loops) :
    nesting.enter (.next names) = nesting := by
  have noFewer : ¬ (closeLoops names nesting.loops).length < nesting.loops.length :=
    fun fewer => (length_closeLoops_lt_iff names nesting.loops).1 fewer kept
  rw [enter, if_neg noFewer]

theorem enter_next_of_closed (closed : closeLoops names nesting.loops ≠ nesting.loops) :
    nesting.enter (.next names) = nesting.takeBack names := by
  rw [enter, if_pos ((length_closeLoops_lt_iff names nesting.loops).2 closed)]
  rfl

theorem enter_next_of_closesNothing (nothing : ClosesNothing names nesting.loops) :
    nesting.enter (.next names) = nesting :=
  enter_next_of_kept (closeLoops_of_closesNothing nothing)

end Next

theorem loops_enter_next (names : List Text) (nesting : Nesting) :
    (nesting.enter (.next names)).loops = closeLoops names nesting.loops := by
  by_cases kept : closeLoops names nesting.loops = nesting.loops
  · rw [enter_next_of_kept kept, kept]
  · rw [enter_next_of_closed kept]
    rfl

/-- How the loops, the indentation and the floor are related at any time. Without an IF in its line
a statement is indented by its loops alone. -/
structure Agrees (nesting : Nesting) : Prop where
  loops_le : nesting.loops.length ≤ nesting.indent
  floor_le : nesting.floor ≤ nesting.indent
  unconditional : nesting.floor = 0 → nesting.indent = nesting.loops.length

theorem Agrees.enter {nesting : Nesting} (agrees : nesting.Agrees) (statement : Statement) :
    (nesting.enter statement).Agrees := by
  cases statement with
  | next names =>
      by_cases kept : closeLoops names nesting.loops = nesting.loops
      · rw [enter_next_of_kept kept]
        exact agrees
      · rw [enter_next_of_closed kept]
        exact
          { loops_le := Nat.le_max_right _ _
            floor_le := Nat.le_max_left _ _
            unconditional := fun noFloor => by
              change max nesting.floor _ = (closeLoops names nesting.loops).length
              rw [show nesting.floor = 0 from noFloor, Nat.zero_max] }
  | _ => exact agrees

theorem Agrees.leave {nesting : Nesting} (agrees : nesting.Agrees) (statement : Statement) :
    (nesting.leave statement).Agrees := by
  obtain ⟨loops_le, floor_le, unconditional⟩ := agrees
  cases statement with
  | condition =>
      exact
        { loops_le := Nat.le_succ_of_le loops_le
          floor_le := Nat.le_refl _
          unconditional := fun noFloor => absurd noFloor (Nat.succ_ne_zero _) }
  | forLoop name =>
      exact
        { loops_le := Nat.succ_le_succ loops_le
          floor_le := Nat.le_succ_of_le floor_le
          unconditional := fun noFloor => congrArg (· + 1) (unconditional noFloor) }
  | _ => exact ⟨loops_le, floor_le, unconditional⟩

theorem Agrees.after {nesting : Nesting} (agrees : nesting.Agrees) (step : Step) :
    (nesting.after step).Agrees := by
  cases step with
  | startLine => exact ⟨Nat.le_refl _, Nat.zero_le _, fun _ => rfl⟩
  | enter statement => exact agrees.enter statement
  | leave statement => exact agrees.leave statement

theorem agrees_run (steps : List Step) :
    (run steps).Agrees := by
  induction steps using List.reverseRecOn with
  | nil => exact ⟨Nat.le_refl _, Nat.le_refl _, fun _ => rfl⟩
  | append_singleton earlier step hypothesis =>
      rw [run_concat]
      exact hypothesis.after step

theorem floor_enter (nesting : Nesting) (statement : Statement) :
    (nesting.enter statement).floor = nesting.floor := by
  cases statement with
  | next names =>
      by_cases kept : closeLoops names nesting.loops = nesting.loops
      · rw [enter_next_of_kept kept]
      · rw [enter_next_of_closed kept]
        rfl
  | _ => rfl

theorem floor_leave_of_ne
    {statement : Statement} (nesting : Nesting) (different : statement ≠ .condition) :
    (nesting.leave statement).floor = nesting.floor := by
  cases statement with
  | condition => exact absurd rfl different
  | _ => rfl

/-- Only the beginning of a line takes the floor back. -/
theorem floor_le_floor_after
    {nesting : Nesting} {step : Step}
    (agrees : nesting.Agrees) (sameLine : step ≠ .startLine) :
    nesting.floor ≤ (nesting.after step).floor := by
  cases step with
  | startLine => exact absurd rfl sameLine
  | enter statement => exact Nat.le_of_eq (floor_enter nesting statement).symm
  | leave statement =>
      by_cases condition : statement = .condition
      · subst condition
        exact Nat.le_succ_of_le agrees.floor_le
      · exact Nat.le_of_eq (floor_leave_of_ne nesting condition).symm

theorem floor_run_le_floor_run_append
    {earlier later : List Step} (sameLine : .startLine ∉ later) :
    (run earlier).floor ≤ (run (earlier ++ later)).floor := by
  induction later using List.reverseRecOn with
  | nil => simp
  | append_singleton between step hypothesis =>
      simp only [List.mem_append, List.mem_singleton, not_or] at sameLine
      rw [← List.append_assoc, run_concat]
      exact (hypothesis sameLine.1).trans
        (floor_le_floor_after (agrees_run _) (Ne.symm sameLine.2))

/-- Behind the last IF of a line the floor is the indentation that this IF has set. -/
theorem floor_run_of_last_condition
    {earlier later : List Step}
    (sameLine : .startLine ∉ later) (last : .leave .condition ∉ later) :
    (run (earlier ++ .leave .condition :: later)).floor =
      (run (earlier ++ [.leave .condition])).indent := by
  induction later using List.reverseRecOn with
  | nil =>
      rw [run_concat]
      rfl
  | append_singleton between step hypothesis =>
      simp only [List.mem_append, List.mem_singleton, not_or] at sameLine last
      rw [← hypothesis sameLine.1 last.1, ← List.cons_append, ← List.append_assoc, run_concat]
      cases step with
      | startLine => exact absurd rfl sameLine.2
      | enter statement => exact floor_enter _ statement
      | leave statement =>
          exact floor_leave_of_ne _ fun condition => last.2 (by rw [condition])

/-- An IF has been left in the current line, or there is no floor. -/
theorem inCondition_run (steps : List Step) :
    (run steps).inCondition = decide (.leave .condition ∈ currentLine steps) := by
  induction steps using List.reverseRecOn with
  | nil => rfl
  | append_singleton earlier step hypothesis =>
      rw [run_concat, currentLine_concat]
      cases step with
      | startLine => rfl
      | enter statement =>
          have same := floor_enter (run earlier) statement
          simp [inCondition, after, same, ← hypothesis]
      | leave statement =>
          by_cases condition : statement = .condition
          · subst condition
            simp [inCondition, after, leave]
          · have same := floor_leave_of_ne (run earlier) condition
            simp [inCondition, after, same, ← hypothesis, Ne.symm condition]

/-- What holds of the nesting behind some steps. Loops are listed innermost first, so that the
outer ones are at the end. -/
structure IsCoherent (steps : List Step) : Prop where
  loops_le_indent : (run steps).loops.length ≤ (run steps).indent
  floor_le_indent : (run steps).floor ≤ (run steps).indent
  unconditional : .leave .condition ∉ currentLine steps →
    (run steps).inCondition = false ∧ (run steps).indent = (run steps).loops.length
  conditional : .leave .condition ∈ currentLine steps → (run steps).inCondition = true
  /-- The last IF of a line has set the floor, and no statement behind an IF is shown left of the
  indentation that it has set. -/
  latched : ∀ earlier later, steps = earlier ++ .leave .condition :: later →
    .startLine ∉ later →
      (.leave .condition ∉ later →
        (run steps).floor = (run (earlier ++ [.leave .condition])).indent) ∧
      ∀ statement,
        (run (earlier ++ [.leave .condition])).indent ≤ ((run steps).enter statement).indent
  enter_other : ∀ statement, (∀ names, statement ≠ .next names) →
    (run steps).enter statement = run steps
  enter_next : ∀ names, ((run steps).enter (.next names)).loops <:+ (run steps).loops
  enter_unmatched : ∀ names, ClosesNothing names (run steps).loops →
    (run steps).enter (.next names) = run steps

theorem isCoherent_run (steps : List Step) :
    IsCoherent steps := by
  have agrees := agrees_run steps
  have inCondition := inCondition_run steps
  refine
    { loops_le_indent := agrees.loops_le
      floor_le_indent := agrees.floor_le
      unconditional := fun notLeft => ?_
      conditional := fun left => by rw [inCondition, decide_eq_true left]
      latched := ?_
      enter_other := fun _ other => enter_of_not_next _ other
      enter_next := fun names => ?_
      enter_unmatched := fun _ nothing => enter_next_of_closesNothing nothing }
  · rw [decide_eq_false notLeft] at inCondition
    have noFloor : (run steps).floor = 0 := by simpa [Nesting.inCondition] using inCondition
    exact ⟨inCondition, agrees.unconditional noFloor⟩
  · rintro earlier later rfl sameLine
    refine ⟨floor_run_of_last_condition sameLine, fun statement => ?_⟩
    have setFloor :
        (run (earlier ++ [.leave .condition])).indent =
          (run (earlier ++ [.leave .condition])).floor := by
      rw [run_concat]
      rfl
    calc
      _ = (run (earlier ++ [.leave .condition])).floor := setFloor
      _ ≤ (run (earlier ++ [.leave .condition] ++ later)).floor :=
        floor_run_le_floor_run_append sameLine
      _ = (run (earlier ++ .leave .condition :: later)).floor := by simp
      _ = ((run (earlier ++ .leave .condition :: later)).enter statement).floor :=
        (floor_enter _ statement).symm
      _ ≤ _ := (agrees.enter statement).floor_le
  · rw [loops_enter_next]
    exact closeLoops_suffix names _

end Applesoft.Nesting
