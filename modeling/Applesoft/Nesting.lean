import Applesoft.Statement
import Applesoft.Variable

/-!
Indentation from the nesting of loops and conditions. A line starts at the depth of the open loops.
A FOR and an IF indent what follows them, a NEXT closes its loops before it is shown. An IF sets a
floor below which no NEXT takes the indentation until the line ends.
-/

namespace Applesoft

structure Nesting where
  /-- The variables of the open loops, innermost first. -/
  loops : List Text := []
  indent : Nat := 0
  /-- The indentation that the last IF of the line has set; zero without one. -/
  floor : Nat := 0
  deriving DecidableEq, Repr

namespace Nesting

/-- Whether an IF has been left in the current line. -/
def inCondition (nesting : Nesting) : Bool :=
  0 < nesting.floor

def startLine (nesting : Nesting) : Nesting :=
  { nesting with indent := nesting.loops.length, floor := 0 }

/-- Closes the innermost loop over a variable, with all loops inside it. A variable without an open
loop closes nothing. -/
def closeLoop (name : Text) (loops : List Text) : List Text :=
  if loops.any (Variable.sameLoop name) then
    (loops.dropWhile fun loop => !Variable.sameLoop name loop).tail
  else
    loops

/-- Closes the loops of a NEXT: one for each variable, or the innermost one without variables. -/
def closeLoops (names : List Text) (loops : List Text) : List Text :=
  if names.isEmpty then
    loops.tail
  else
    names.foldl (fun remaining name => closeLoop name remaining) loops

/-- Comes to a statement. The indentation after this is the one that the statement is shown at. -/
def enter (statement : Statement) (nesting : Nesting) : Nesting :=
  match statement with
  | .next names =>
      let remaining := closeLoops names nesting.loops
      if remaining.length < nesting.loops.length then
        { nesting with
          loops := remaining
          indent := max nesting.floor remaining.length }
      else
        nesting
  | _ => nesting

def leave (statement : Statement) (nesting : Nesting) : Nesting :=
  match statement with
  | .condition =>
      { nesting with indent := nesting.indent + 1, floor := nesting.indent + 1 }
  | .forLoop name =>
      { nesting with loops := name :: nesting.loops, indent := nesting.indent + 1 }
  | _ => nesting

end Nesting

end Applesoft
