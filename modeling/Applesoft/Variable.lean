import Applesoft.Lexeme
import Applesoft.Text.Utf8

/-!
Variable names: where a statement refers to them, and which of them the interpreter confuses.

A reference is a maximal run of letters, digits and type suffixes outside of literals that begins
with a letter. A parenthesis directly behind it marks an array and belongs to the name. Only the
first two characters of a name count for the interpreter, beside its suffix and its array mark.
-/

namespace Applesoft.Variable

def isNameByte (byte : UInt8) : Bool :=
  isUpper byte || isDigit byte || byte = Punctuation.dollar ||
    byte = Punctuation.percent

/-- The name in a finished run of name bytes, last byte first: none if the run is empty or does not
begin with a letter. -/
def nameOfRun (run : Bytes) (array : Bool) : List Text :=
  match run.reverse with
  | [] => []
  | first :: rest =>
      if isUpper first then
        [(first :: rest).map toCharacter ++ if array then ['('] else []]
      else
        []

/-- The names referred to after an unfinished run of name bytes, last byte first. -/
def namesFrom : Bytes → List Lexeme → List Text
  | run, [] => nameOfRun run false
  | run, .code byte :: rest =>
      if isNameByte byte then
        namesFrom (byte :: run) rest
      else
        nameOfRun run (byte = Punctuation.leftParenthesis) ++ namesFrom [] rest
  | run, .literal _ :: rest => nameOfRun run false ++ namesFrom [] rest
  | run, .remark _ :: rest => nameOfRun run false ++ namesFrom [] rest

/-- The names that a statement refers to, one for each reference, in order. -/
def names (lexemes : List Lexeme) : List Text :=
  namesFrom [] lexemes

/-- Takes a last character of a class off a text of two characters or more: what is left, and what
was taken. -/
def peel (taken : Char → Bool) (text : Text) : Text × Text :=
  match text.reverse with
  | last :: before =>
      if taken last && !before.isEmpty then
        (before.reverse, [last])
      else
        (text, [])
  | [] => (text, [])

/-- The characters of a stem that the interpreter looks at: its first two bytes. -/
def significant : Text → Text
  | [] => []
  | first :: rest =>
      if first.utf8Size = 1 then
        first :: rest.take 1
      else
        [first]

/-- The name as the interpreter sees it: the significant part of the stem, then the type suffix and
the array mark. A stem of at most two bytes stands as it is. -/
def collisionKey (name : Text) : Text :=
  let (typed, array) := peel (· = '(') name
  let (stem, suffix) := peel (fun last => last = '$' || last = '%') typed
  if (Utf8.encode stem).length ≤ 2 then
    name
  else
    significant stem ++ suffix ++ array

/-- Whether a NEXT with the first name closes a loop over the second: the names are the same, or
both have two bytes and begin with the same two. -/
def sameLoop (left right : Text) : Bool :=
  let leftBytes := Utf8.encode left
  let rightBytes := Utf8.encode right
  left = right ||
    (2 ≤ leftBytes.length && 2 ≤ rightBytes.length &&
      leftBytes.take 2 = rightBytes.take 2)

example :
    ["A", "AB", "ABC", "ABC$", "ABC%(", "AB$(", "X("].map
        (fun name => collisionKey name.toList) =
      ["A", "AB", "AB", "AB$", "AB%(", "AB$(", "X("].map String.toList := by
  decide

end Applesoft.Variable
