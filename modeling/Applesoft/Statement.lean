import Applesoft.Finding
import Applesoft.Rendering
import Applesoft.Text.Blank
import Applesoft.Text.Utf8

/-!
Statements. The first byte of a statement decides what it is: a keyword, the digit of a bare line
number, or anything else, which is an assignment if an equals token follows.

A statement holds what the rest of the library asks of it, already read: the targets of jumps, and
the variables of loops. What cannot be read is kept as such and becomes an anomaly.
-/

namespace Applesoft

inductive TargetEntry where
  | line (number : UInt16)
  | unreadable (text : Text)
  deriving DecidableEq, Repr

structure Dispatch where
  kind : JumpKind
  entries : List TargetEntry
  deriving DecidableEq, Repr

inductive Statement where
  | empty
  /-- An assignment, with or without LET. -/
  | assignment
  | forLoop (name : Text)
  /-- A NEXT; one without variables closes the innermost loop. -/
  | next (names : List Text)
  /-- The condition of an IF, with its THEN if there is one. -/
  | condition
  /-- A jump to one line, if its number can be read. -/
  | jump (form : JumpForm) (target : Option UInt16)
  /-- An ON; without a GOTO or GOSUB it has no dispatch. -/
  | on (expression : Text) (dispatch : Option Dispatch)
  | remark
  | data
  | dim
  | print
  | input
  | returnFromCall
  | other
  deriving DecidableEq, Repr

/-- The line number at the front of some bytes, behind any spaces. -/
def lineNumber? (bytes : Bytes) : Option UInt16 :=
  let digits := (bytes.dropWhile (· = Punctuation.space)).takeWhile isDigit
  (Numeral.read? 65535 (digits.map toCharacter)).map UInt16.ofNat

/-- Reads an entry in a target list; white space around the number does not count. -/
def TargetEntry.read (text : Text) : TargetEntry :=
  match Numeral.read? 65535 (Text.trim text) with
  | some number => .line (UInt16.ofNat number)
  | none => .unreadable text

namespace Statement

/-- The loop variable of a FOR: everything before the equals token. -/
def loopVariable (arguments : Bytes) : Text :=
  Text.trim ((arguments.takeWhile (· ≠ Keyword.equalsToken)).map toCharacter)

/-- The variables of a NEXT: what stands between commas, unless it is blank. -/
def nextVariables (arguments : Bytes) : List Text :=
  ((Text.fields ',' (Utf8.decode arguments)).map Text.trim).filter
    fun name => !name.isEmpty

def isDispatchToken (byte : UInt8) : Bool :=
  byte = Keyword.gotoToken || byte = Keyword.gosubToken

/-- Reads an ON: its expression goes up to the first GOTO or GOSUB, its target list follows. -/
def ofOn (arguments : Bytes) : Statement :=
  let expression := arguments.takeWhile fun byte => !isDispatchToken byte
  let dispatch :=
    match arguments.dropWhile fun byte => !isDispatchToken byte with
    | [] => none
    | token :: list =>
        some {
          kind := if token = Keyword.gosubToken then .gosub else .goto
          entries := (Text.fields ',' (Utf8.decode list)).map TargetEntry.read }
  .on (Text.trim (Rendering.render {} expression)) dispatch

def ofKeyword (token : UInt8) (arguments : Bytes) : Statement :=
  if token = Keyword.forToken then .forLoop (loopVariable arguments)
  else if token = Keyword.nextToken then .next (nextVariables arguments)
  else if token = Keyword.letToken then .assignment
  else if token = Keyword.gotoToken then .jump .goto (lineNumber? arguments)
  else if token = Keyword.gosubToken then .jump .gosub (lineNumber? arguments)
  else if token = Keyword.onToken then ofOn arguments
  else if token = Keyword.ifToken then .condition
  else if token = Keyword.remToken then .remark
  else if token = Keyword.dataToken then .data
  else if token = Keyword.dimToken then .dim
  else if token = Keyword.printToken then .print
  else if token = Keyword.inputToken then .input
  else if token = Keyword.returnToken then .returnFromCall
  else .other

def ofBody : Bytes → Statement
  | [] => .empty
  | first :: arguments =>
      if Keyword.isToken first then
        ofKeyword first arguments
      else if isDigit first then
        .jump .implied (lineNumber? (first :: arguments))
      else if arguments.contains Keyword.equalsToken then
        .assignment
      else
        .other

/-- What a statement is follows from its first byte, unless that is no token. -/
theorem ofBody_cons_cases (first : UInt8) (arguments : Bytes) :
    ofBody (first :: arguments) = ofKeyword first arguments ∨
      (∃ target, ofBody (first :: arguments) = .jump .implied target) ∨
      ofBody (first :: arguments) = .assignment ∨ ofBody (first :: arguments) = .other := by
  rw [ofBody]
  by_cases isToken : Keyword.isToken first = true
  · exact Or.inl (if_pos isToken)
  · rw [if_neg isToken]
    by_cases digit : isDigit first = true
    · exact Or.inr (Or.inl ⟨_, if_pos digit⟩)
    · rw [if_neg digit]
      by_cases equals : arguments.contains Keyword.equalsToken = true
      · exact Or.inr (Or.inr (Or.inl (if_pos equals)))
      · exact Or.inr (Or.inr (Or.inr (if_neg equals)))

/-- A body begins with the one keyword that gives its statement, if nothing else gives it. -/
theorem exists_of_ofBody_eq
    {token : UInt8} {statement : Statement} {body : Bytes} (read : ofBody body = statement)
    (keyword : ∀ first, first ≠ token → ∀ arguments, ofKeyword first arguments ≠ statement)
    (noEmpty : .empty ≠ statement) (noJump : ∀ target, .jump .implied target ≠ statement)
    (noAssignment : .assignment ≠ statement) (noOther : .other ≠ statement) :
    ∃ arguments, body = token :: arguments := by
  cases body with
  | nil => exact absurd read noEmpty
  | cons first arguments =>
      rcases ofBody_cons_cases first arguments with named | ⟨target, jump⟩ | assignment | other
      · by_cases same : first = token
        · exact ⟨arguments, by rw [same]⟩
        · exact absurd (named.symm.trans read) (keyword first same arguments)
      · exact absurd (jump.symm.trans read) (noJump target)
      · exact absurd (assignment.symm.trans read) noAssignment
      · exact absurd (other.symm.trans read) noOther

/-- The kind of jump that a statement makes, if it makes one. -/
def jumpKind : Statement → Option JumpKind
  | .jump form _ => some form.kind
  | .on _ dispatch => dispatch.map Dispatch.kind
  | _ => none

def hasVariables : Statement → Bool
  | .remark => false
  | .data => false
  | _ => true

/-- The finding of an entry in the target list of an ON. -/
def findingOfEntry (kind : JumpKind) : TargetEntry → Finding
  | .line number => .jump kind number
  | .unreadable text => .anomaly (.badOnTarget text)

/-- The jumps of a statement, and what is unusual about them, in order. -/
def findings : Statement → List Finding
  | .jump form (some target) => [.jump form.kind target]
  | .jump form none => [.anomaly (.missingTarget form)]
  | .on _ (some dispatch) => dispatch.entries.map (findingOfEntry dispatch.kind)
  | .on _ none => [.anomaly .onWithoutTarget]
  | _ => []

end Statement

end Applesoft
