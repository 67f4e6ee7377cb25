import Applesoft.Text.Numeral

/-!
The arguments of a command: options by long name, with two dashes, or by letter, with one. The value
of an option follows it, or stands in the same argument behind an equals sign or directly behind the
letter. Nothing that begins with a dash is the value of the option before it, but for a single dash.
No option may be given twice, and there are no other arguments. Arguments are read in order: the
first that is refused, or that asks for help, decides, so a value is checked where it stands.
-/

namespace Applesoft.Command

inductive ValueForm where
  | text
  | number (greatest : Nat)
  | oneOf (names : List String)
  deriving DecidableEq, Repr

def ValueForm.admits (value : Text) : ValueForm → Bool
  | .text => true
  | .number greatest => (Numeral.read? greatest value).isSome
  | .oneOf names => names.any fun name => name.toList = value

/-- An option that a command accepts; without the form of a value it is a flag. An option with a
letter has a value. -/
structure OptionName where
  long : String
  letter : Option Char := none
  value : Option ValueForm := none
  deriving DecidableEq, Repr

inductive Refusal where
  | unknownCommand (argument : Text)
  | unexpectedArgument (argument : Text)
  | unexpectedValue (option : Text)
  | missingValue (option : Text)
  | invalidValue (option value : Text)
  | repeatedOption (option : Text)
  | missingOption (option : Text)
  deriving DecidableEq, Repr

inductive Stop where
  | helpRequested
  | refused (refusal : Refusal)
  deriving DecidableEq, Repr

/-- The options given, by long name, with their values; the value of a flag is empty. -/
abbrev Given := List (Text × Text)

namespace Given

def has (option : String) (given : Given) : Bool :=
  given.any fun entry => entry.1 = option.toList

def value? (option : String) (given : Given) : Option Text :=
  given.lookup option.toList

end Given

inductive ArgumentForm where
  | endOfOptions
  /-- A long name, with the value behind its equals sign if there is one. -/
  | long (name : Text) (value : Option Text)
  | short (letter : Char) (rest : Text)
  | plain (argument : Text)
  deriving DecidableEq, Repr

namespace ArgumentForm

def ofText : Text → ArgumentForm
  | ['-', '-'] => .endOfOptions
  | '-' :: '-' :: rest =>
      match rest.dropWhile (· ≠ '=') with
      | [] => .long rest none
      | _ :: value => .long (rest.takeWhile (· ≠ '=')) (some value)
  | '-' :: letter :: rest => .short letter rest
  | argument => .plain argument

end ArgumentForm

def give (option value : Text) (given : Given) : Except Stop Given :=
  if (given.lookup option).isSome then
    .error (.refused (.repeatedOption option))
  else
    .ok (given ++ [(option, value)])

def giveValue (option : OptionName) (value : Text) (given : Given) : Except Stop Given :=
  if option.value.any fun form => form.admits value then
    give option.long.toList value given
  else
    .error (.refused (.invalidValue option.long.toList value))

/-- What an argument amounts to: the options given, and an option whose value has to follow. -/
abbrev ArgumentResult := Except Stop (Given × Option OptionName)

def readLong (accepted : List OptionName) (given : Given) (name : Text)
    (value : Option Text) : ArgumentResult :=
  match accepted.find? fun option => option.long.toList = name with
  | none =>
      if name = "help".toList ∧ value = none then .error .helpRequested
      else .error (.refused (.unexpectedArgument ("--".toList ++ name)))
  | some option =>
      match option.value, value with
      | some _, some text => return (← giveValue option text given, none)
      | some _, none => return (given, some option)
      | none, none => return (← give name [] given, none)
      | none, some _ => .error (.refused (.unexpectedValue name))

def readShort (accepted : List OptionName) (given : Given) (letter : Char)
    (rest : Text) : ArgumentResult :=
  match accepted.find? fun option => option.letter = some letter with
  | none =>
      if letter = 'h' then .error .helpRequested
      else .error (.refused (.unexpectedArgument ['-', letter]))
  | some option =>
      match rest with
      | [] => return (given, some option)
      | '=' :: value => return (← giveValue option value given, none)
      | value => return (← giveValue option value given, none)

/-- Reads arguments behind those that gave some options. The last option given may wait for its
value. -/
def readFrom (accepted : List OptionName) :
    Given → Option OptionName → List Text → Except Stop Given
  | given, none, [] => .ok given
  | _, some option, [] => .error (.refused (.missingValue option.long.toList))
  | given, waiting, argument :: rest =>
      match waiting, ArgumentForm.ofText argument with
      | some option, .plain value => do
          readFrom accepted (← giveValue option value given) none rest
      | some option, _ => .error (.refused (.missingValue option.long.toList))
      | none, .plain text => .error (.refused (.unexpectedArgument text))
      | none, .endOfOptions =>
          match rest with
          | [] => .ok given
          | text :: _ => .error (.refused (.unexpectedArgument text))
      | none, .long name value => do
          let (after, next) ← readLong accepted given name value
          readFrom accepted after next rest
      | none, .short letter text => do
          let (after, next) ← readShort accepted given letter text
          readFrom accepted after next rest

def readArguments (accepted : List OptionName) (arguments : List Text) :
    Except Stop Given :=
  readFrom accepted [] none arguments

end Applesoft.Command
