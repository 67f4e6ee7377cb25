import Applesoft.Command.Arguments
import Applesoft.Command.Shell
import Applesoft.Command.Switch
import Applesoft.Json.Value

namespace Applesoft.Command

structure Source where
  /-- The path of a file; without one the image comes from standard input. -/
  file : Option Text
  name : Option Text
  deriving DecidableEq, Repr

/-- What the program is asked to do. -/
inductive Invocation where
  /-- Write a listing. Switches and widths take precedence over a configuration file. -/
  | list (source : Source) (config : Option Text) (switches : List Switch)
      (widths : List (Width × Nat))
  | dump (source : Source) (noHeader : Bool)
  | xref (source : Source) (pretty : Bool)
  | completions (shell : Shell)
  | version
  | help
  | nothing
  deriving DecidableEq, Repr

namespace Invocation

def flag (name : String) : OptionName :=
  { long := name }

def fileOption : OptionName :=
  { long := "file", letter := some 'f', value := some .text }

def nameOption : OptionName :=
  { long := "name", letter := some 'n', value := some .text }

def configOption : OptionName :=
  { long := "config", value := some .text }

def shellOption : OptionName :=
  { long := "shell", letter := some 's', value := some (.oneOf Shell.names) }

def widthOption (width : Width) : OptionName :=
  { long := width.name, value := some (.number Json.greatestNatural) }

def source (given : Given) : Source :=
  ⟨given.value? "file", given.value? "name"⟩

def columns? (given : Given) (width : Width) : Option Nat :=
  (given.value? width.name).bind (Numeral.read? Json.greatestNatural)

def ofList (arguments : List Text) : Except Stop Invocation := do
  let given ← readArguments
    ([fileOption, nameOption, configOption] ++
      Switch.all.map (fun switch => flag switch.name) ++ Width.all.map widthOption)
    arguments
  return .list (source given) (given.value? "config")
    (Switch.all.filter fun switch => given.has switch.name)
    (Width.all.filterMap fun width => (columns? given width).map fun columns => (width, columns))

def ofDump (arguments : List Text) : Except Stop Invocation := do
  let given ← readArguments [fileOption, nameOption, flag "no-header"] arguments
  return .dump (source given) (given.has "no-header")

def ofXref (arguments : List Text) : Except Stop Invocation := do
  let given ← readArguments [fileOption, flag "pretty"] arguments
  return .xref (source given) (given.has "pretty")

def ofCompletions (arguments : List Text) : Except Stop Invocation := do
  let given ← readArguments [shellOption] arguments
  match (given.value? "shell").bind Shell.ofName? with
  | some shell => return .completions shell
  | none => .error (.refused (.missingOption "shell".toList))

/-- Reads the arguments before any command, which may ask for the version or for help. -/
def ofOption (argument : Text) : Except Stop Invocation :=
  match ArgumentForm.ofText argument with
  | .long name value =>
      if name = "version".toList ∧ value = none then .ok .version
      else if name = "help".toList ∧ value = none then .ok .help
      else .error (.refused (.unexpectedArgument argument))
  | .short letter _ =>
      if letter = 'V' then .ok .version
      else if letter = 'h' then .ok .help
      else .error (.refused (.unexpectedArgument argument))
  | _ => .error (.refused (.unknownCommand argument))

def commandNames : List String :=
  ["list", "dump", "xref", "completions", "help"]

/-- Reads what help is asked for: for the program, or for one command. -/
def ofHelp : List Text → Except Stop Invocation
  | [] => .ok .help
  | [name] =>
      if commandNames.any fun known => known.toList = name then .ok .help
      else .error (.refused (.unknownCommand name))
  | _ :: name :: _ => .error (.refused (.unknownCommand name))

def ofCommand (name : Text) (arguments : List Text) : Except Stop Invocation :=
  if name = "list".toList then ofList arguments
  else if name = "dump".toList then ofDump arguments
  else if name = "xref".toList then ofXref arguments
  else if name = "completions".toList then ofCompletions arguments
  else if name = "help".toList then ofHelp arguments
  else ofOption name

def parse : List Text → Except Refusal Invocation
  | [] => .ok .nothing
  | [['-', '-']] => .ok .nothing
  | name :: arguments =>
      match ofCommand name arguments with
      | .ok invocation => .ok invocation
      | .error .helpRequested => .ok .help
      | .error (.refused refusal) => .error refusal

def paths : Invocation → List Text
  | .list source config _ _ => config.toList ++ source.file.toList
  | .dump source _ => source.file.toList
  | .xref source _ => source.file.toList
  | _ => []

def readsInput : Invocation → Bool
  | .list source _ _ _ => source.file.isNone
  | .dump source _ => source.file.isNone
  | .xref source _ => source.file.isNone
  | _ => false

end Invocation

end Applesoft.Command
