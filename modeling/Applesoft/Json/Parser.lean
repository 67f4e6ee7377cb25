import Applesoft.Json.Token

/-!
Reading JSON. The containers that are open form a stack of frames, and one token after the other
takes the reader from state to state. At most 127 containers may be open at a time.
-/

namespace Applesoft.Json

inductive Frame where
  /-- An array with its items so far, last one first. -/
  | array (items : List Json)
  /-- An object with its fields so far, last one first, and the name of the next field. -/
  | object (fields : List (Text × Json)) (name : Text)
  deriving Repr, Inhabited

/-- How far a reader has come; the frames hold the containers that are open, innermost first. -/
inductive ReaderState where
  | value (frames : List Frame)
  | arrayStart (frames : List Frame)
  | arrayNext (items : List Json) (frames : List Frame)
  | objectStart (frames : List Frame)
  | fieldName (fields : List (Text × Json)) (frames : List Frame)
  | fieldColon (fields : List (Text × Json)) (name : Text) (frames : List Frame)
  | objectNext (fields : List (Text × Json)) (frames : List Frame)
  | finished (value : Json)
  deriving Repr, Inhabited

namespace ReaderState

def depthLimit : Nat :=
  127

def complete (json : Json) : List Frame → ReaderState
  | [] => .finished json
  | .array items :: frames => .arrayNext (json :: items) frames
  | .object fields name :: frames => .objectNext ((name, json) :: fields) frames

def beginValue (frames : List Frame) : Token → Option ReaderState
  | .scalar json => some (complete json frames)
  | .openArray => if frames.length < depthLimit then some (.arrayStart frames) else none
  | .openObject => if frames.length < depthLimit then some (.objectStart frames) else none
  | _ => none

def beginField (fields : List (Text × Json)) (frames : List Frame) :
    Token → Option ReaderState
  | .scalar (.string name) => some (.fieldColon fields name frames)
  | _ => none

def step : ReaderState → Token → Option ReaderState
  | .value frames, token => beginValue frames token
  | .arrayStart frames, .closeArray => some (complete (.array []) frames)
  | .arrayStart frames, token => beginValue (.array [] :: frames) token
  | .arrayNext items frames, .closeArray => some (complete (.array items.reverse) frames)
  | .arrayNext items frames, .comma => some (.value (.array items :: frames))
  | .objectStart frames, .closeObject => some (complete (ofFields []) frames)
  | .objectStart frames, token => beginField [] frames token
  | .fieldName fields frames, token => beginField fields frames token
  | .fieldColon fields name frames, .colon => some (.value (.object fields name :: frames))
  | .objectNext fields frames, .closeObject =>
      some (complete (ofFields fields.reverse) frames)
  | .objectNext fields frames, .comma => some (.fieldName fields frames)
  | _, _ => none

end ReaderState

def parse? (text : Text) : Option Json := do
  let tokens ← Token.scan text
  match ← tokens.foldlM ReaderState.step (.value []) with
  | .finished value => some value
  | _ => none

end Applesoft.Json
