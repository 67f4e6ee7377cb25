import Applesoft.Anomaly

namespace Applesoft

/-- What a line contributes to the tables of the program. -/
inductive Finding where
  | anomaly (anomaly : Anomaly)
  | jump (kind : JumpKind) (target : UInt16)
  | reference (name : Text)
  | literal (text : Text)
  deriving DecidableEq, Repr

end Applesoft
