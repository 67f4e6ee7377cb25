import Applesoft.Jump
import Applesoft.Text.Numeral

namespace Applesoft

inductive WrappedStatement where
  | rem
  | data
  deriving DecidableEq, Repr

/-- The keyword of a statement that is wrapped at a width. -/
def WrappedStatement.name : WrappedStatement → Text
  | .rem => "REM".toList
  | .data => "DATA".toList

/-- The cause of an anomaly. The last two arise in the layout, the others in the program. -/
inductive Anomaly where
  | midLineRem
  /-- An IF is followed by neither THEN nor GOTO in its statement. -/
  | ifWithoutThen
  | onWithoutTarget
  /-- An entry in the target list of an ON is not a line number. -/
  | badOnTarget (entry : Text)
  | missingTarget (form : JumpForm)
  | unterminatedLine
  /-- A piece stays longer than the width, for want of a place to break it. -/
  | noBreakPoint (statement : WrappedStatement)
  /-- The arrays of a DIM statement cannot be told apart. -/
  | dimNotSplit
  deriving DecidableEq, Repr

namespace Anomaly

/-- Whether an anomaly concerns the layout alone. -/
def isRendering : Anomaly → Bool
  | .noBreakPoint _ => true
  | .dimNotSplit => true
  | _ => false

def message : Anomaly → Text
  | .midLineRem => "REM token in the middle of a statement".toList
  | .ifWithoutThen => "IF without THEN or GOTO".toList
  | .onWithoutTarget => "ON without GOTO or GOSUB".toList
  | .badOnTarget entry => "ON target is not a line number: ".toList ++ entry
  | .missingTarget form => form.name ++ " without a line number".toList
  | .unterminatedLine => "line is not terminated".toList
  | .noBreakPoint statement =>
      "no break point for wrapping: ".toList ++ statement.name
  | .dimNotSplit => "DIM statement could not be split".toList

end Anomaly

/-- An anomaly and the number of the line it was found in. -/
structure Diagnostic where
  line : UInt16
  anomaly : Anomaly
  deriving DecidableEq, Repr

def Diagnostic.text (diagnostic : Diagnostic) : Text :=
  "line ".toList ++ Numeral.decimal diagnostic.line.toNat ++ ": ".toList ++
    diagnostic.anomaly.message

end Applesoft
