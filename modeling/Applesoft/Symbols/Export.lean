import Applesoft.Json.Printer
import Applesoft.Symbols

namespace Applesoft.Symbols

def lineJson (line : UInt16) : Json :=
  .natural line.toNat

def jumpsJson (jumps : Table UInt16 (List UInt16)) : Json :=
  .ofFields (jumps.entries.map fun entry =>
    (Numeral.decimal entry.1.toNat, .array (entry.2.map lineJson)))

def referencesJson (references : Table Text (List UInt16)) : Json :=
  .ofFields (references.entries.map fun entry =>
    (entry.1, .array (entry.2.map lineJson)))

def collisionsJson (collisions : List (Text × List Text)) : Json :=
  .ofFields (collisions.map fun entry => (entry.1, .array (entry.2.map Json.string)))

def stringsJson (strings : List (UInt16 × Text)) : Json :=
  .array (strings.map fun entry =>
    .ofFields [("line".toList, lineJson entry.1), ("text".toList, .string entry.2)])

/-- The tables for other tools. Line numbers that are names of fields are written in decimal. Of the
collisions only the names that are not unique are exported; the others follow from the variables. -/
def toJson (symbols : Symbols) : Json :=
  .ofFields [
    ("gosub".toList, jumpsJson symbols.gosubs),
    ("goto".toList, jumpsJson symbols.gotos),
    ("variables".toList, referencesJson symbols.references),
    ("collisions".toList, collisionsJson symbols.nonUnique),
    ("strings".toList, stringsJson symbols.strings)]

def jsonText (pretty : Bool) (symbols : Symbols) : Text :=
  if pretty then symbols.toJson.pretty 0 else symbols.toJson.compact

end Applesoft.Symbols
