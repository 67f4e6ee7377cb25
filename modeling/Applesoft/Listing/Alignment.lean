import Applesoft.Line
import Applesoft.Options

/-!
Alignment of equals signs. Assignments that follow each other form a run, and all of a run have
their equals sign in the column of the rightmost one. Remarks that are joined to a statement do not
interrupt a run. A run that begins behind an IF ends with its line, as the indentation changes
there.

The main statement is that the run behind a place is read off the fragments of all following lines
together, wherever lines end.
-/

namespace Applesoft.Listing

/-- A fragment that a listing shows, with what its line has before it. -/
structure Item where
  fragment : Fragment
  /-- Whether it is the first fragment of its line that is shown. -/
  leading : Bool
  /-- Whether an IF stands before it in its line. -/
  conditional : Bool
  deriving DecidableEq, Repr

/-- The items of fragments that have the given things before them. -/
def itemsFrom : Bool → Bool → List Fragment → List Item
  | _, _, [] => []
  | leading, conditional, fragment :: rest =>
      ⟨fragment, leading, conditional⟩ ::
        itemsFrom false (conditional || fragment.isCondition) rest

def items (line : Line) : List Item :=
  itemsFrom true false line.visible

namespace Item

/-- Whether an item is a remark shown behind the statement before it. -/
def isJoined (options : Options) (item : Item) : Bool :=
  !options.splitRem && item.fragment.isRemark && !item.leading

/-- Whether an item can stand in a run. -/
def continuesRun (options : Options) (item : Item) : Bool :=
  0 < item.fragment.equalsColumn options || item.isJoined options

end Item

/-- The items at the front of some lines, across the ends of lines, as long as they belong to a
class. -/
def takeAcross (accepted : Item → Bool) : List Line → List Item
  | [] => []
  | line :: rest =>
      let run := (items line).takeWhile accepted
      if run.length = (items line).length then
        run ++ takeAcross accepted rest
      else
        run

theorem takeAcross_eq_takeWhile (accepted : Item → Bool) (lines : List Line) :
    takeAcross accepted lines = (lines.flatMap items).takeWhile accepted := by
  induction lines with
  | nil => rfl
  | cons line rest hypothesis =>
      rw [takeAcross, List.flatMap_cons, List.takeWhile_append, hypothesis]
      split
      · next whole =>
          have same : (items line).takeWhile accepted = items line :=
            (List.takeWhile_sublist accepted).eq_of_length whole
          simp [same]
      · simp

/-- The run that begins with an item, given the items behind it in its line and the lines that
follow. -/
def runFrom (options : Options) (item : Item) (later : List Item)
    (following : List Line) : List Item :=
  let onLine := (item :: later).takeWhile (Item.continuesRun options)
  if item.conditional || onLine.length ≤ later.length then
    onLine
  else
    onLine ++ takeAcross (Item.continuesRun options) following

def rightmost (options : Options) (run : List Item) : Nat :=
  (run.map fun item => item.fragment.equalsColumn options).foldl max 0

/-- The column in effect at an item, given the one before it; zero means none. A run keeps its
column, and anything but an assignment ends it. -/
def columnAt (options : Options) (item : Item) (later : List Item)
    (following : List Line) (current : Nat) : Nat :=
  if item.fragment.equalsColumn options = 0 then 0
  else if current = 0 then rightmost options (runFrom options item later following)
  else current

/-- The text of a fragment with its equals sign moved to a column, if it stands before it. -/
def alignedText (options : Options) (column : Nat) (fragment : Fragment) : Text :=
  let text := fragment.text options
  let own := fragment.equalsColumn options
  if 0 < own ∧ own < column then
    text.take own ++ Text.spaces (column - own) ++ text.drop own
  else
    text

end Applesoft.Listing
