import Applesoft.Finding
import Applesoft.Table
import Applesoft.Variable

/-!
The tables of a program: which lines jump to which, where each variable is referred to, which names
the interpreter confuses, and the string literals.

The lines under a jump target or a variable are in the order of the program. A line that comes
several times in a row is entered once.
-/

namespace Applesoft

structure Symbols where
  gotos : Table UInt16 (List UInt16)
  gosubs : Table UInt16 (List UInt16)
  references : Table Text (List UInt16)
  /-- The names that share each collision key, in the order of their first use. -/
  collisions : Table Text (List Text)
  strings : List (UInt16 × Text)

namespace Symbols

def empty : Symbols where
  gotos := .empty
  gosubs := .empty
  references := .empty
  collisions := .empty
  strings := []

/-- Enters a line at the end of a list, unless it is the last one already. -/
def enterLine (line : UInt16) (entered : Option (List UInt16)) : List UInt16 :=
  let lines := entered.getD []
  if lines.getLast? = some line then lines else lines ++ [line]

/-- Enters a name at the end of a list that does not have it. -/
def enterName (name : Text) (entered : Option (List Text)) : List Text :=
  let names := entered.getD []
  if names.contains name then names else names ++ [name]

def addJump (symbols : Symbols) (kind : JumpKind) (target line : UInt16) : Symbols :=
  match kind with
  | .goto => { symbols with gotos := symbols.gotos.alter target (enterLine line) }
  | .gosub => { symbols with gosubs := symbols.gosubs.alter target (enterLine line) }

def addVariable (symbols : Symbols) (name : Text) (line : UInt16) : Symbols :=
  { symbols with
    references := symbols.references.alter name (enterLine line)
    collisions :=
      symbols.collisions.alter (Variable.collisionKey name) (enterName name) }

def addString (symbols : Symbols) (line : UInt16) (text : Text) : Symbols :=
  { symbols with strings := symbols.strings ++ [(line, text)] }

/-- Enters what has been found in a line. Anomalies are kept elsewhere. -/
def addFinding (line : UInt16) (symbols : Symbols) : Finding → Symbols
  | .anomaly _ => symbols
  | .jump kind target => symbols.addJump kind target line
  | .reference name => symbols.addVariable name line
  | .literal text => symbols.addString line text

def isGotoTarget (symbols : Symbols) (line : UInt16) : Bool :=
  symbols.gotos.contains line

def isGosubTarget (symbols : Symbols) (line : UInt16) : Bool :=
  symbols.gosubs.contains line

def isTarget (symbols : Symbols) (line : UInt16) : Bool :=
  symbols.isGotoTarget line || symbols.isGosubTarget line

/-- The collision keys that several names share, with those names. -/
def nonUnique (symbols : Symbols) : List (Text × List Text) :=
  symbols.collisions.entries.filter fun entry => 1 < entry.2.length

end Symbols

end Applesoft
