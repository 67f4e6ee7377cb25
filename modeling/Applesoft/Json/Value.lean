import Applesoft.Table
import Applesoft.Text

namespace Applesoft

/-- A JSON value. The fields of an object ascend by name, and a name comes once. -/
inductive Json where
  | null
  | bool (value : Bool)
  /-- A number written as a natural, at most `Json.greatestNatural`. -/
  | natural (value : Nat)
  /-- Any other number, as it is written. -/
  | number (written : Text)
  | string (contents : Text)
  | array (items : List Json)
  | object (fields : List (Text × Json))
  deriving Repr, Inhabited

namespace Json

def greatestNatural : Nat :=
  18446744073709551615

/-- The object with the given fields; of several fields with one name the last one counts. -/
def ofFields (fields : List (Text × Json)) : Json :=
  .object (fields.foldl
    (fun entered field => Table.alterEntries field.1 (fun _ => field.2) entered) [])

def field? (name : Text) : Json → Option Json
  | .object fields => fields.lookup name
  | _ => none

def isObject : Json → Bool
  | .object _ => true
  | _ => false

def bool? : Json → Option Bool
  | .bool value => some value
  | _ => none

def natural? : Json → Option Nat
  | .natural value => some value
  | _ => none

/-- What is read from a field, or a given value if the field is not there or holds anything else. -/
def fieldAs {value : Type} (read : Json → Option value) (name : Text) (current : value)
    (json : Json) : value :=
  ((json.field? name).bind read).getD current

def boolField : Text → Bool → Json → Bool :=
  fieldAs bool?

def naturalField : Text → Nat → Json → Nat :=
  fieldAs natural?

end Json

end Applesoft
