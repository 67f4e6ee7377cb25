import Applesoft.Command.Invocation
import Applesoft.Dump
import Applesoft.Log
import Applesoft.Machine.Disassembly
import Applesoft.Options.Config
import Applesoft.Symbols.Export

/-!
What a command line leads to: an exit code, a text on standard output, entries in the log, and a
report. The log is written to standard error as well, before the report.

A command that fails has nothing to put out and reports one error. A command that succeeds puts out
its text and reports the diagnostics of the program.
-/

namespace Applesoft.Command

inductive Color where
  | brightCyan
  | brightYellow
  deriving DecidableEq, Repr

/-- The words that are not the program's own: those of the system, of the reader of JSON, and of the
reader of arguments. Colors show on a terminal only. -/
structure Wording where
  /-- Why a file cannot be read. -/
  fault : Text → Text
  /-- What is wrong with a text that is not JSON. -/
  syntaxError : Text → Text
  paint : Color → Text → Text
  help : Text
  refusal : Refusal → Text
  completions : Shell → Text

/-- Words that say no more than that something is wrong. -/
def Wording.plain : Wording where
  fault := fun _ => []
  syntaxError := fun _ => "Json".toList
  paint := fun _ text => text
  help := []
  refusal := fun _ => []
  completions := fun _ => []

inductive Failure where
  | noCommand
  /-- Lines would have to be typed for a command. -/
  | terminal (command : Text)
  /-- There are no bytes for a command. -/
  | noData (command : Text)
  | unreadable (path : Text)
  /-- The file of a configuration is not UTF-8. -/
  | notText (path : Text)
  | notJson (text : Text)
  /-- A configuration is JSON, and not an object. -/
  | notObject
  deriving DecidableEq, Repr

namespace Failure

def text (wording : Wording) : Failure → Text
  | .noCommand => "InvalidCommand".toList
  | .terminal _ => "InvalidCommand".toList
  | .noData _ => "InvalidCommand".toList
  | .unreadable _ => "FileNotFound".toList
  | .notText _ => "FileNotFound".toList
  | .notJson text => wording.syntaxError text
  | .notObject => "Settings".toList

def couldNotRead (path fault : Text) : Log.Entry :=
  ⟨.error, .command, "could not read ".toList ++ path ++ ": ".toList ++ fault⟩

/-- What is logged of a failure. -/
def entries (wording : Wording) : Failure → List Log.Entry
  | .noCommand =>
      [⟨.error, .start, "no subcommand was found, try `a2list --help`".toList⟩]
  | .terminal command =>
      [⟨.error, .command, "line entry is not supported for `".toList ++ command ++
        "`, please pipe something in or use `-f`".toList⟩]
  | .noData command =>
      [⟨.error, .command, command ++ " did not receive any data".toList⟩]
  | .unreadable path => [couldNotRead path (wording.fault path)]
  | .notText path => [couldNotRead path "stream did not contain valid UTF-8".toList]
  | .notJson _ => []
  | .notObject => []

end Failure

structure Outcome where
  exitCode : UInt32
  output : Text
  entries : List Log.Entry
  report : Text
  deriving DecidableEq, Repr

structure Sources where
  file : Text → Option Bytes
  /-- Standard input, unless it is a terminal. -/
  input : Option Bytes

namespace Outcome

/-- The text on standard error. -/
def errors (outcome : Outcome) (writer : Log.Writer := Log.silent) : Text :=
  Log.text writer outcome.entries ++ outcome.report

def failure (wording : Wording) (cause : Failure) : Outcome where
  exitCode := 1
  output := []
  entries := cause.entries wording
  report := "Error: ".toList ++ cause.text wording ++ ['\n']

/-- Arguments that are refused, before anything is logged. -/
def refusal (wording : Wording) (cause : Refusal) : Outcome :=
  ⟨2, [], [], wording.refusal cause⟩

/-- A text that is asked for in place of a command. -/
def information (text : Text) : Outcome :=
  ⟨0, text, [], []⟩

def fileName (path : Text) : Text :=
  ((Text.fields '/' path).getLast?).getD path

/-- Reads an image for a command: its bytes and the name to show for it. -/
def readImage (sources : Sources) (command : Text) (source : Source) :
    Except Failure (Bytes × Text) := do
  let (image, name) ←
    match source.file with
    | some path =>
        match sources.file path with
        | some image => .ok (image, fileName path)
        | none => .error (.unreadable path)
    | none =>
        match sources.input with
        | some image => .ok (image, "STDIN".toList)
        | none => .error (.terminal command)
  if image.isEmpty then
    .error (.noData command)
  else
    .ok (image, source.name.getD name)

/-- Reads the options in a configuration file, or the defaults without one. -/
def readConfig (sources : Sources) : Option Text → Except Failure Options
  | none => .ok {}
  | some path =>
      match sources.file path with
      | none => .error (.unreadable path)
      | some bytes =>
          match Utf8.decode? bytes with
          | none => .error (.notText path)
          | some text =>
              match Options.parse text with
              | .ok options => .ok options
              | .error .notJson => .error (.notJson text)
              | .error .notObject => .error .notObject

/-- The options of a listing: switches and widths change those of the configuration file. -/
def effectiveOptions (config : Options) (switches : List Switch)
    (widths : List (Width × Nat)) : Options :=
  widths.foldl (fun options entry => entry.1.apply entry.2 options)
    (switches.foldl Switch.apply config)

/-- A diagnostic as it is reported: anomalies of the layout are notes, others are warnings. -/
def reportLine (wording : Wording) (diagnostic : Diagnostic) : Text :=
  (if diagnostic.anomaly.isRendering then wording.paint .brightCyan "note".toList
    else wording.paint .brightYellow "warning".toList) ++
    ' ' :: diagnostic.text ++ ['\n']

/-- The report of diagnostics; the warnings are counted if there are any. -/
def reportText (wording : Wording) (diagnostics : List Diagnostic) : Text :=
  let warnings := diagnostics.countP fun diagnostic => !diagnostic.anomaly.isRendering
  diagnostics.flatMap (reportLine wording) ++
    if warnings = 0 then
      []
    else
      "! ".toList ++ wording.paint .brightYellow (Numeral.decimal warnings) ++
        ' ' :: wording.paint .brightYellow "warnings".toList ++ ['\n']

def success (wording : Wording) (text : Text) (entries : List Log.Entry)
    (diagnostics : List Diagnostic) : Outcome where
  exitCode := 0
  output := text ++ ['\n']
  entries := entries
  report := reportText wording diagnostics

def ofResult (wording : Wording) : Except Failure Outcome → Outcome
  | .ok outcome => outcome
  | .error cause => failure wording cause

def versionText : Text :=
  "a2list 1.0.0\n".toList

/-- The entry for an image that has been read. -/
def readEntry (image : Bytes) (name : Text) : Log.Entry :=
  ⟨.debug, .command, "read ".toList ++ Numeral.decimal image.length ++ " bytes for ".toList ++
    name⟩

def run (wording : Wording) (sources : Sources) : Invocation → Outcome
  | .list source config switches widths => ofResult wording do
      let options := effectiveOptions (← readConfig sources config) switches widths
      let (image, name) ← readImage sources "list".toList source
      let program := Program.decode image
      let listing := program.list options Machine.listing name
      return success wording listing.text
        (readEntry image name :: program.entries ++ program.layoutEntries options)
        listing.diagnostics
  | .dump source noHeader => ofResult wording do
      let (image, name) ← readImage sources "dump".toList source
      let program := Program.decode image
      return success wording (program.dump { showHeader := !noHeader } name)
        (readEntry image name :: program.entries) program.diagnostics
  | .xref source pretty => ofResult wording do
      let (image, name) ← readImage sources "xref".toList source
      let program := Program.decode image
      return success wording (program.symbols.jsonText pretty)
        (readEntry image name :: program.entries) program.diagnostics
  | .completions shell => information (wording.completions shell)
  | .version => information versionText
  | .help => information wording.help
  | .nothing => failure wording .noCommand

def ofArguments (sources : Sources) (arguments : List Text)
    (wording : Wording := .plain) : Outcome :=
  match Invocation.parse arguments with
  | .ok invocation => run wording sources invocation
  | .error cause => refusal wording cause

end Outcome

end Applesoft.Command
