import Applesoft.Json.Number

/-!
The tokens of a JSON text: the six punctuation marks and the scalars. A run of characters other than
white space, punctuation and quotes is one scalar, which has to be a literal name or a number.

In a string a character below 32 is refused, and so is half of a surrogate pair.
-/

namespace Applesoft.Json

inductive Token where
  | openArray
  | closeArray
  | openObject
  | closeObject
  | comma
  | colon
  | scalar (value : Json)
  deriving Repr, Inhabited

namespace Token

def isSpace (character : Char) : Bool :=
  character = ' ' || character = '\t' || character = '\n' || character = '\r'

def punctuation? : Char → Option Token
  | '[' => some .openArray
  | ']' => some .closeArray
  | '\x7b' => some .openObject
  | '\x7d' => some .closeObject
  | ',' => some .comma
  | ':' => some .colon
  | _ => none

def word? (text : Text) : Option Json :=
  if text = "null".toList then some .null
  else if text = "true".toList then some (.bool true)
  else if text = "false".toList then some (.bool false)
  else readNumber? text

/-- The character that stands for itself or another one behind a backslash. -/
def escaped? : Char → Option Char
  | '"' => some '"'
  | '\\' => some '\\'
  | '/' => some '/'
  | 'b' => some '\x08'
  | 'f' => some '\x0c'
  | 'n' => some '\n'
  | 'r' => some '\r'
  | 't' => some '\t'
  | _ => none

def hexDigit? (character : Char) : Option Nat :=
  if '0' ≤ character ∧ character ≤ '9' then some (character.toNat - '0'.toNat)
  else if 'a' ≤ character ∧ character ≤ 'f' then some (character.toNat - 'a'.toNat + 10)
  else if 'A' ≤ character ∧ character ≤ 'F' then some (character.toNat - 'A'.toNat + 10)
  else none

inductive StringState where
  | plain
  /-- The character behind a backslash. -/
  | escape
  /-- So many hexadecimal digits of a code unit whose first digits have the given value, behind the
  first half of a surrogate pair if there was one. -/
  | unit (leading : Option Nat) (remaining value : Nat)
  /-- The backslash of the second half of a surrogate pair. -/
  | pairEscape (leading : Nat)
  /-- The letter behind that backslash. -/
  | pairLetter (leading : Nat)
  deriving DecidableEq, Repr

inductive Mode where
  | between
  /-- A run of characters, last one first. -/
  | word (characters : Text)
  /-- A string, with its characters so far, last one first. -/
  | string (contents : Text) (state : StringState)
  deriving DecidableEq, Repr

/-- Ends a code unit: a character, or the first half of a surrogate pair. -/
def endUnit (contents : Text) (leading : Option Nat) (value : Nat) : Option Mode :=
  let isTrailing := 0xDC00 ≤ value && value ≤ 0xDFFF
  match leading with
  | some high =>
      if isTrailing then
        let code := 0x10000 + (high - 0xD800) * 0x400 + (value - 0xDC00)
        some (.string (Char.ofNat code :: contents) .plain)
      else
        none
  | none =>
      if isTrailing then none
      else if 0xD800 ≤ value && value ≤ 0xDBFF then
        some (.string contents (.pairEscape value))
      else
        some (.string (Char.ofNat value :: contents) .plain)

/-- Reads one character in a string: the mode after it, and the token it completes. -/
def stepString (contents : Text) :
    StringState → Char → Option (Mode × Option Token)
  | .plain, character =>
      if character = '"' then
        some (.between, some (.scalar (.string contents.reverse)))
      else if character = '\\' then
        some (.string contents .escape, none)
      else if character.toNat < 0x20 then
        none
      else
        some (.string (character :: contents) .plain, none)
  | .escape, character =>
      if character = 'u' then
        some (.string contents (.unit none 4 0), none)
      else
        (escaped? character).map fun plain => (.string (plain :: contents) .plain, none)
  | .unit leading remaining value, character =>
      match hexDigit? character with
      | none => none
      | some digit =>
          if remaining ≤ 1 then
            (endUnit contents leading (value * 16 + digit)).map fun mode => (mode, none)
          else
            some (.string contents (.unit leading (remaining - 1) (value * 16 + digit)), none)
  | .pairEscape leading, character =>
      if character = '\\' then
        some (.string contents (.pairLetter leading), none)
      else
        none
  | .pairLetter leading, character =>
      if character = 'u' then
        some (.string contents (.unit (some leading) 4 0), none)
      else
        none

/-- Reads one character between tokens: the mode after it, and the token it makes. -/
def stepBetween (character : Char) : Mode × Option Token :=
  if isSpace character then (.between, none)
  else if character = '"' then (.string [] .plain, none)
  else
    match punctuation? character with
    | some mark => (.between, some mark)
    | none => (.word [character], none)

def endsWord (character : Char) : Bool :=
  isSpace character || character = '"' || (punctuation? character).isSome

def scanFrom : Mode → Text → Option (List Token)
  | .between, [] => some []
  | .word characters, [] => (word? characters.reverse).map fun value => [.scalar value]
  | .string _ _, [] => none
  | .between, character :: rest =>
      let (mode, token) := stepBetween character
      (scanFrom mode rest).map (token.toList ++ ·)
  | .word characters, character :: rest =>
      if endsWord character then
        match word? characters.reverse with
        | none => none
        | some value =>
            let (mode, token) := stepBetween character
            (scanFrom mode rest).map (.scalar value :: token.toList ++ ·)
      else
        scanFrom (.word (character :: characters)) rest
  | .string contents state, character :: rest =>
      match stepString contents state character with
      | none => none
      | some (mode, none) => scanFrom mode rest
      | some (mode, some token) => (scanFrom mode rest).map (token :: ·)

def scan (text : Text) : Option (List Token) :=
  scanFrom .between text

end Token

end Applesoft.Json
