import Applesoft.Proofs.Balance

/-!
Variables of a NEXT one by one. A NEXT closes the loops of its variables one after the other, but
takes the indentation back once, when all of them are closed, and only if there was a loop to close.

The main statement is that a list of variables may as well stand in a NEXT for each of them. From
any nesting the loops, the indentation and the floor behind are the same, and so is whatever comes
after them. What carries it is that an indentation once taken back is that of the loops left open,
or of the floor, and closing nothing keeps it so.
-/

namespace Applesoft.Nesting

/-- Whether the indentation is that of the open loops, or of the floor where that is higher. -/
def IsLevel (nesting : Nesting) : Prop :=
  nesting.indent = max nesting.floor nesting.loops.length

section TakeBack

variable {nesting : Nesting} {names left right : List Text}

theorem isLevel_takeBack (names : List Text) (nesting : Nesting) :
    (nesting.takeBack names).IsLevel :=
  rfl

theorem IsLevel.enter_next (level : nesting.IsLevel) (names : List Text) :
    nesting.enter (.next names) = nesting.takeBack names := by
  by_cases kept : closeLoops names nesting.loops = nesting.loops
  · rw [enter_next_of_kept kept, takeBack, kept, ← level]
  · exact enter_next_of_closed kept

theorem closeLoops_append (leftNamed : left ≠ []) (rightNamed : right ≠ []) (loops : List Text) :
    closeLoops (left ++ right) loops = closeLoops right (closeLoops left loops) := by
  have bothNamed : left ++ right ≠ [] := List.append_ne_nil_of_left_ne_nil leftNamed right
  rw [closeLoops, if_neg (by simpa using bothNamed), List.foldl_append, closeLoops,
    if_neg (by simpa using rightNamed), closeLoops, if_neg (by simpa using leftNamed)]

theorem takeBack_append (leftNamed : left ≠ []) (rightNamed : right ≠ []) (nesting : Nesting) :
    nesting.takeBack (left ++ right) = (nesting.takeBack left).takeBack right := by
  rw [takeBack, closeLoops_append leftNamed rightNamed]
  rfl

/-- A list of variables can be cut in two. Only if the first part closes nothing is the nesting
behind it perhaps not level, but then it is the nesting before. -/
theorem enter_next_append (leftNamed : left ≠ []) (rightNamed : right ≠ []) (nesting : Nesting) :
    nesting.enter (.next (left ++ right)) = (nesting.enter (.next left)).enter (.next right) := by
  have cut := closeLoops_append leftNamed rightNamed nesting.loops
  by_cases keptByLeft : closeLoops left nesting.loops = nesting.loops
  · rw [keptByLeft] at cut
    rw [enter_next_of_kept keptByLeft]
    by_cases kept : closeLoops right nesting.loops = nesting.loops
    · rw [enter_next_of_kept kept, enter_next_of_kept (cut.trans kept)]
    · rw [enter_next_of_closed kept, enter_next_of_closed (cut ▸ kept), takeBack, cut]
      rfl
  · have closed : closeLoops (left ++ right) nesting.loops ≠ nesting.loops := by
      intro same
      have back := (closeLoops_suffix right (closeLoops left nesting.loops)).length_le
      rw [← cut, same] at back
      exact keptByLeft ((closeLoops_suffix left nesting.loops).eq_of_length_le back)
    rw [enter_next_of_closed closed, enter_next_of_closed keptByLeft,
      (isLevel_takeBack left nesting).enter_next, takeBack_append leftNamed rightNamed]

end TakeBack

/-- A NEXT for each variable of a list. -/
def singly (names : List Text) : List Statement :=
  names.map fun name => .next [name]

/-- An event with each list of variables taken apart. A NEXT without variables stays as it is. -/
def Event.singly : Event → List Event
  | .statement (.next (first :: rest)) =>
      (Nesting.singly (first :: rest)).map .statement
  | event => [event]

theorem pass_singly (first : Text) (rest : List Text) (nesting : Nesting) :
    nesting.pass (singly (first :: rest)) = nesting.enter (.next (first :: rest)) := by
  induction rest generalizing first nesting with
  | nil => rfl
  | cons second rest hypothesis =>
      calc
        nesting.pass (singly (first :: second :: rest)) =
            (nesting.enter (.next [first])).pass (singly (second :: rest)) := rfl
        _ = (nesting.enter (.next [first])).enter (.next (second :: rest)) := hypothesis _ _
        _ = nesting.enter (.next (first :: second :: rest)) :=
          (enter_next_append (List.cons_ne_nil _ _) (List.cons_ne_nil _ _) nesting).symm

theorem getLast?_indents_singly (first : Text) (rest : List Text) (nesting : Nesting) :
    (nesting.indents (singly (first :: rest))).getLast? =
      some (nesting.enter (.next (first :: rest))).indent := by
  induction rest generalizing first nesting with
  | nil => rfl
  | cons second rest hypothesis =>
      calc
        (nesting.indents (singly (first :: second :: rest))).getLast? =
            ((nesting.enter (.next [first])).indents (singly (second :: rest))).getLast? :=
          List.getLast?_cons_cons
        _ = some ((nesting.enter (.next [first])).enter (.next (second :: rest))).indent :=
          hypothesis _ _
        _ = some (nesting.enter (.next (first :: second :: rest))).indent := by
          rw [← enter_next_append (List.cons_ne_nil _ _) (List.cons_ne_nil _ _)]
          rfl

theorem follow_event_singly (nesting : Nesting) (event : Event) :
    nesting.follow event.singly = nesting.follow [event] := by
  cases event with
  | line => rfl
  | statement statement =>
      cases statement with
      | next names =>
          cases names with
          | nil => rfl
          | cons first rest =>
              exact (follow_statements nesting _).trans (pass_singly first rest nesting)
      | _ => rfl

theorem follow_singly (nesting : Nesting) (events : List Event) :
    nesting.follow (events.flatMap Event.singly) = nesting.follow events := by
  induction events generalizing nesting with
  | nil => rfl
  | cons event rest hypothesis =>
      rw [List.flatMap_cons, follow_append, follow_event_singly, hypothesis, ← follow_cons]

/-- A NEXT with a list of variables is as good as a NEXT for each of them, one after the other. From
any nesting both end in the same one, and the last is shown at the indentation of the whole list,
whatever loops each of the variables closes. So the lists of a program can all be taken apart, and
what comes behind them finds the nesting that it found before. -/
theorem enter_next_eq_singly (nesting : Nesting) (first : Text) (rest : List Text) :
    nesting.enter (.next (first :: rest)) =
        (singly (first :: rest)).foldl (fun before single => before.enter single) nesting ∧
      (nesting.enter (.next (first :: rest))).leave (.next (first :: rest)) =
        nesting.pass (singly (first :: rest)) ∧
      (nesting.indents (singly (first :: rest))).getLast? =
        some (nesting.enter (.next (first :: rest))).indent ∧
      ∀ events : List Event,
        nesting.follow (events.flatMap Event.singly) = nesting.follow events := by
  refine ⟨?_, ?_, getLast?_indents_singly first rest nesting, follow_singly nesting⟩
  · -- Leaving a NEXT changes nothing.
    rw [← pass_singly, pass, singly, List.foldl_map, List.foldl_map]
    rfl
  · exact (pass_singly first rest nesting).symm

/-- The first variable closes two loops, the second one has lost its loop to it. -/
example :
    Nesting.enter (.next [['B'], ['C'], ['A']])
        { loops := [['C'], ['B'], ['A']], indent := 5, floor := 2 } =
      { loops := [], indent := 2, floor := 2 } := by
  decide

end Applesoft.Nesting
