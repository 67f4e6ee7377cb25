import Applesoft.Json.Parser
import Applesoft.Options

namespace Applesoft

inductive ConfigError where
  | notJson
  /-- It is JSON, and not an object. -/
  | notObject
  deriving DecidableEq, Repr

/-- What is said of an error. Of a text that is not JSON the reader of JSON has its own to say. -/
def ConfigError.message (cause : ConfigError) (ofReader : Text := []) : Text :=
  match cause with
  | .notJson => ofReader
  | .notObject => "Settings could not be parsed".toList

namespace Options

/-- Each option has the value of the field of its name, or its default if that field is missing or
holds a value of another type. Other fields do not count. -/
def ofJson (json : Json) : Options :=
  let given := fun (name : String) (default : Bool) => json.boolField name.toList default
  let width := fun (name : String) (default : Nat) => json.naturalField name.toList default
  let defaults : Options := {}
  { showHeader := given "showHeader" defaults.showHeader
    showTargets := given "showTargets" defaults.showTargets
    onlyShowTargetLineNumbers :=
      given "onlyShowTargetLineNumbers" defaults.onlyShowTargetLineNumbers
    alignAssign := given "alignAssign" defaults.alignAssign
    splitRem := given "splitRem" defaults.splitRem
    deleteExtraRemSpace := given "deleteExtraRemSpace" defaults.deleteExtraRemSpace
    deleteExtraDataSpace := given "deleteExtraDataSpace" defaults.deleteExtraDataSpace
    splitDim := given "splitDim" defaults.splitDim
    wrapRemAt := width "wrapRemAt" defaults.wrapRemAt
    wrapDataAt := width "wrapDataAt" defaults.wrapDataAt
    wrapPrintAt := width "wrapPrintAt" defaults.wrapPrintAt
    showXref := given "showXref" defaults.showXref
    showSymbols := given "showSymbols" defaults.showSymbols
    listStrings := given "listStrings" defaults.listStrings
    blankAfterReturn := given "blankAfterReturn" defaults.blankAfterReturn
    showThen := given "showThen" defaults.showThen
    showCaret := given "showCaret" defaults.showCaret }

def parse (text : Text) : Except ConfigError Options :=
  match Json.parse? text with
  | none => .error .notJson
  | some json => if json.isObject then .ok (ofJson json) else .error .notObject

end Options

end Applesoft
