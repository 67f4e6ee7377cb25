import Applesoft.Statement

namespace Applesoft

/-- A statement of a line, with its place in the image. -/
structure Fragment where
  start : Nat
  /-- Offset behind the last byte, a separating colon included. -/
  stop : Nat
  first : Bool
  /-- The bytes of the statement, without a separating colon. -/
  body : Bytes
  statement : Statement
  deriving DecidableEq, Repr

namespace Fragment

/-- The bytes behind the one that decides what the statement is. -/
def arguments (fragment : Fragment) : Bytes :=
  fragment.body.drop 1

def has (token : UInt8) (fragment : Fragment) : Bool :=
  fragment.arguments.contains token

/-- Whether bytes above 127 stand behind the first byte. In a remark they are machine code. -/
def containsToken (fragment : Fragment) : Bool :=
  fragment.arguments.any Keyword.isToken

/-- Whether control characters stand behind the first byte. -/
def containsControl (fragment : Fragment) : Bool :=
  fragment.arguments.any isControl

/-- Whether the fragment is nothing but a separator, and has no place in a listing. -/
def isEmpty (fragment : Fragment) : Bool :=
  fragment.statement = .empty

def isRemark (fragment : Fragment) : Bool :=
  fragment.statement = .remark

def isCondition (fragment : Fragment) : Bool :=
  fragment.statement = .condition

/-- The keyword put before a bare line number when its THEN is not shown. -/
def impliedKeyword (options : Options) (fragment : Fragment) : Text :=
  match fragment.statement with
  | .jump .implied _ => if options.showThen then [] else "GOTO ".toList
  | _ => []

/-- The text of a fragment. Blanks at its end are part of remarks and of data only. -/
def text (options : Options) (fragment : Fragment) : Text :=
  let rendered :=
    impliedKeyword options fragment ++ Rendering.render options fragment.body
  match fragment.statement with
  | .remark => rendered
  | .data => rendered
  | _ => Text.trimEnd rendered

/-- The index of the first equals sign in a text, zero if there is none. -/
def equalsIndex (text : Text) : Nat :=
  (text.findIdx? (· = '=')).getD 0

/-- Where the equals sign of an assignment stands in its text under the default options, zero if it
has none. -/
def assignPosition (fragment : Fragment) : Nat :=
  if fragment.statement = .assignment ∧ fragment.has Keyword.equalsToken = true then
    equalsIndex (fragment.text {})
  else
    0

/-- Where the equals sign of an assignment stands in its text, zero if it has none. -/
def equalsColumn (options : Options) (fragment : Fragment) : Nat :=
  if fragment.assignPosition = 0 then 0 else equalsIndex (fragment.text options)

end Fragment

end Applesoft
