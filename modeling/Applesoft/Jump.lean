import Applesoft.Text

namespace Applesoft

/-- A jump for good, or a call that comes back. -/
inductive JumpKind where
  | goto
  | gosub
  deriving DecidableEq, Repr

/-- How a jump with one target is written: with its keyword, or as a bare line number. -/
inductive JumpForm where
  | goto
  | gosub
  | implied
  deriving DecidableEq, Repr

/-- The kind of jump that a form makes; a bare line number is a GOTO. -/
def JumpForm.kind : JumpForm → JumpKind
  | .goto => .goto
  | .gosub => .gosub
  | .implied => .goto

def JumpForm.name : JumpForm → Text
  | .goto => "GOTO".toList
  | .gosub => "GOSUB".toList
  | .implied => "implied GOTO".toList

end Applesoft
