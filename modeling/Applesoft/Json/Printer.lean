import Applesoft.Json.Value
import Applesoft.Text.Numeral

namespace Applesoft.Json

/-- Quotes, backslashes and characters below 32 are escaped. -/
def escape (character : Char) : Text :=
  if character = '"' then ['\\', '"']
  else if character = '\\' then ['\\', '\\']
  else if character = '\x08' then ['\\', 'b']
  else if character = '\t' then ['\\', 't']
  else if character = '\n' then ['\\', 'n']
  else if character = '\x0c' then ['\\', 'f']
  else if character = '\r' then ['\\', 'r']
  else if character.toNat < 0x20 then
    '\\' :: 'u' :: Numeral.hexLower 4 character.toNat
  else [character]

def quoted (contents : Text) : Text :=
  '"' :: contents.flatMap escape ++ ['"']

def scalarText : Json → Text
  | .null => "null".toList
  | .bool true => "true".toList
  | .bool false => "false".toList
  | .natural value => Numeral.decimal value
  | .number written => written
  | .string contents => quoted contents
  | _ => []

def enclose (opening closing : Char) (members : List Text) : Text :=
  opening :: Text.join [','] members ++ [closing]

/-- A container around members that are written already, one a row. The margin is that of the row it
begins in. -/
def encloseRows (margin : Nat) (opening closing : Char) (members : List Text) : Text :=
  if members.isEmpty then
    [opening, closing]
  else
    let row (member : Text) : Text := '\n' :: Text.spaces (margin + 2) ++ member
    opening :: Text.join [','] (members.map row) ++
      '\n' :: Text.spaces margin ++ [closing]

mutual

def compact : Json → Text
  | .array items => enclose '[' ']' (compactItems items)
  | .object fields => enclose '\x7b' '\x7d' (compactFields fields)
  | scalar => scalarText scalar

def compactItems : List Json → List Text
  | [] => []
  | item :: rest => compact item :: compactItems rest

def compactFields : List (Text × Json) → List Text
  | [] => []
  | (name, value) :: rest => (quoted name ++ ':' :: compact value) :: compactFields rest

end

mutual

def pretty (margin : Nat) : Json → Text
  | .array items => encloseRows margin '[' ']' (prettyItems (margin + 2) items)
  | .object fields =>
      encloseRows margin '\x7b' '\x7d' (prettyFields (margin + 2) fields)
  | scalar => scalarText scalar

def prettyItems (margin : Nat) : List Json → List Text
  | [] => []
  | item :: rest => pretty margin item :: prettyItems margin rest

def prettyFields (margin : Nat) : List (Text × Json) → List Text
  | [] => []
  | (name, value) :: rest =>
      (quoted name ++ ':' :: ' ' :: pretty margin value) :: prettyFields margin rest

end

end Applesoft.Json
