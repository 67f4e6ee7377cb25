import Applesoft.Proofs.Checked.Access
import Applesoft.Proofs.Nesting

namespace Applesoft.Checked

/-- Whether the first two bytes of two names are the same, unless the names are. -/
def sameLoop? (left right : Text) : Option Bool :=
  let leftBytes := Utf8.encode left
  let rightBytes := Utf8.encode right
  if left = right then
    some true
  else if 2 ≤ leftBytes.length ∧ 2 ≤ rightBytes.length then do
    let leftFront ← slice? leftBytes 0 2
    let rightFront ← slice? rightBytes 0 2
    some (leftFront = rightFront)
  else
    some false

/-- The loops around the innermost loop over a variable, if there is one. -/
def outside? (name : Text) : List Text → Option (Option (List Text))
  | [] => some none
  | loop :: others => do
      if ← sameLoop? name loop then some (some others) else outside? name others

def closeLoop? (name : Text) (loops : List Text) : Option (List Text) :=
  (outside? name loops).map fun found => found.getD loops

def closeLoops? (names loops : List Text) : Option (List Text) :=
  if names.isEmpty then
    some loops.tail
  else
    names.foldlM (fun remaining name => closeLoop? name remaining) loops

theorem sameLoop?_eq (left right : Text) :
    sameLoop? left right = some (Variable.sameLoop left right) := by
  rw [sameLoop?, Variable.sameLoop]
  by_cases same : left = right
  · simp [same]
  · by_cases long : 2 ≤ (Utf8.encode left).length ∧ 2 ≤ (Utf8.encode right).length
    · simp [same, long, slice?_zero long.1, slice?_zero long.2]
    · simp [same, long]

theorem outside?_eq (name : Text) (loops : List Text) :
    outside? name loops = some (
      if loops.any (Variable.sameLoop name) then
        some (loops.dropWhile fun loop => !Variable.sameLoop name loop).tail
      else
        none) := by
  induction loops with
  | nil => rfl
  | cons loop others hypothesis =>
      rw [outside?, sameLoop?_eq, Option.bind_eq_bind, Option.bind_some]
      cases same : Variable.sameLoop name loop with
      | true => simp [same]
      | false => simp [same, hypothesis]

theorem closeLoop?_eq (name : Text) (loops : List Text) :
    closeLoop? name loops = some (Nesting.closeLoop name loops) := by
  rw [closeLoop?, outside?_eq, Nesting.closeLoop, Option.map_some]
  split
  · rfl
  · rfl

theorem closeLoops?_eq (names loops : List Text) :
    closeLoops? names loops = some (Nesting.closeLoops names loops) := by
  have closed : names.foldlM (fun remaining name => closeLoop? name remaining) loops =
      some (names.foldl (fun remaining name => Nesting.closeLoop name remaining) loops) := by
    induction names generalizing loops with
    | nil => rfl
    | cons name rest hypothesis =>
        rw [List.foldlM_cons, closeLoop?_eq]
        exact hypothesis _
  rw [closeLoops?, Nesting.closeLoops, closed]
  split
  · rfl
  · rfl

def enter? (statement : Statement) (nesting : Nesting) : Option Nesting :=
  match statement with
  | .next names => do
      let remaining ← closeLoops? names nesting.loops
      if remaining.length < nesting.loops.length then
        some { nesting with loops := remaining, indent := max nesting.floor remaining.length }
      else
        some nesting
  | _ => some nesting

def leave? (statement : Statement) (nesting : Nesting) : Option Nesting :=
  match statement with
  | .condition => do
      let further ← sum? wordLimit nesting.indent 1
      some { nesting with indent := further, floor := further }
  | .forLoop name => do
      let further ← sum? wordLimit nesting.indent 1
      some { nesting with loops := name :: nesting.loops, indent := further }
  | _ => some nesting

/-- Whether neither the loops of a nesting nor its indentations are more than a number. -/
structure IsWithin (bound : Nat) (nesting : Nesting) : Prop where
  loops : nesting.loops.length ≤ bound
  indent : nesting.indent ≤ bound
  floor : nesting.floor ≤ bound

section Indents

variable {bound : Nat} {nesting : Nesting} {statement : Statement}

theorem enter?_eq (statement : Statement) (nesting : Nesting) :
    enter? statement nesting = some (nesting.enter statement) := by
  cases statement with
  | next names =>
      rw [enter?, closeLoops?_eq, Nesting.enter, Option.bind_eq_bind, Option.bind_some]
      exact (apply_ite some _ _ _).symm
  | _ => rfl

theorem leave?_eq (small : nesting.indent + 1 < wordLimit) :
    leave? statement nesting = some (nesting.leave statement) := by
  cases statement with
  | condition =>
      rw [leave?, sum?_eq small]
      rfl
  | forLoop name =>
      rw [leave?, sum?_eq small]
      rfl
  | _ => rfl

theorem IsWithin.mono {most : Nat} (within : IsWithin bound nesting) (le : bound ≤ most) :
    IsWithin most nesting :=
  ⟨within.loops.trans le, within.indent.trans le, within.floor.trans le⟩

theorem IsWithin.startLine (within : IsWithin bound nesting) : IsWithin bound nesting.startLine :=
  ⟨within.loops, within.loops, Nat.zero_le bound⟩

theorem IsWithin.enter (within : IsWithin bound nesting) :
    IsWithin bound (nesting.enter statement) := by
  cases statement with
  | next names =>
      rw [Nesting.enter]
      split
      · next fewer =>
          have remaining := Nat.le_trans fewer.le within.loops
          exact ⟨remaining, Nat.max_le.2 ⟨within.floor, remaining⟩, within.floor⟩
      · exact within
  | _ => exact within

theorem IsWithin.leave (within : IsWithin bound nesting) :
    IsWithin (bound + 1) (nesting.leave statement) := by
  obtain ⟨loops, indent, floor⟩ := within
  cases statement with
  | condition =>
      exact ⟨Nat.le_succ_of_le loops, Nat.succ_le_succ indent, Nat.succ_le_succ indent⟩
  | forLoop name =>
      exact ⟨Nat.succ_le_succ loops, Nat.succ_le_succ indent, Nat.le_succ_of_le floor⟩
  | _ => exact ⟨Nat.le_succ_of_le loops, Nat.le_succ_of_le indent, Nat.le_succ_of_le floor⟩

end Indents

end Applesoft.Checked
