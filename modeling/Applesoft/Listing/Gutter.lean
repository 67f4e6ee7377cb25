import Applesoft.Line
import Applesoft.Options
import Applesoft.Symbols

namespace Applesoft.Listing

/-- The column at which statements begin that are not indented. -/
def baseColumn (options : Options) : Nat :=
  if options.showTargets then 12 else 8

/-- The number of a line in five columns, blank if it is to be hidden. -/
def numberText (options : Options) (symbols : Symbols) (number : UInt16) : Text :=
  if options.onlyShowTargetLineNumbers && !symbols.isTarget number then
    Text.spaces 5
  else
    Text.padLeft 5 ' ' (Numeral.decimal number.toNat)

/-- The left half of the gutter: a jump that leaves from the line, or the shaft of an arrow that
arrives. -/
def sourceMark (jump : Option JumpKind) (isTarget : Bool) : Text :=
  match jump with
  | some .gosub => "<<".toList
  | some .goto => " <".toList
  | none => if isTarget then "--".toList else "  ".toList

/-- The right half of the gutter: a jump that arrives at the line, or the shaft of an arrow that
leaves. -/
def targetMark (jump : Option JumpKind) (isGotoTarget isGosubTarget : Bool) : Text :=
  if isGosubTarget then ">>".toList
  else if isGotoTarget then "> ".toList
  else if jump.isSome then "--".toList
  else "  ".toList

/-- The kind of jump that the first fragment of a line makes. -/
def leadingJump (line : Line) : Option JumpKind :=
  line.fragments.head?.bind fun fragment => fragment.statement.jumpKind

/-- The number of a line, with its gutter if targets are shown. -/
def lineBase (options : Options) (symbols : Symbols) (line : Line) : Text :=
  let number := numberText options symbols line.number
  if options.showTargets then
    let jump := leadingJump line
    sourceMark jump (symbols.isTarget line.number) ++
      targetMark jump (symbols.isGotoTarget line.number)
        (symbols.isGosubTarget line.number) ++
      ' ' :: number
  else
    ' ' :: number

/-- The mark before a jump that is not the first fragment of its line. -/
def jumpMark (options : Options) (fragment : Fragment) : Text :=
  if options.showTargets && !fragment.first then
    match fragment.statement.jumpKind with
    | some .gosub => "<<--".toList
    | some .goto => " <--".toList
    | none => []
  else
    []

theorem length_sourceMark (jump : Option JumpKind) (isTarget : Bool) :
    (sourceMark jump isTarget).length = 2 := by
  unfold sourceMark
  split <;> first | rfl | (split <;> rfl)

theorem length_targetMark
    (jump : Option JumpKind) (isGotoTarget isGosubTarget : Bool) :
    (targetMark jump isGotoTarget isGosubTarget).length = 2 := by
  unfold targetMark
  split
  · rfl
  · split
    · rfl
    · split <;> rfl

end Applesoft.Listing
