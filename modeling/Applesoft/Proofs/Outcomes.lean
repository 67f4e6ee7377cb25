import Applesoft.Proofs.Directories
import Applesoft.Proofs.Encoding
import Applesoft.Proofs.LogEntries
import Applesoft.Proofs.Precedence

/-!
What becomes of a command that works on an image. The configuration file is read first and the image
then, and what fails first is the one error there is. Otherwise the command writes its text, and a
notice for each diagnostic apart from it.

The main statement is a table of the cases, in the order in which they decide. The bytes of a file
are told apart by the texts they encode, and a text by the document whose text it is. Of the log the
table has the entries; what is written for them is left to the writer of the log.
-/

namespace Applesoft.Command

open Json (IsWritten)
open Log (StandFor)

/-- What a command makes of an image. -/
structure Answer where
  text : Text
  diagnostics : List Diagnostic
  entries : List Log.Entry

namespace Invocation

/-- The word of a command that works on an image. -/
def name : Invocation → Text
  | .list _ _ _ _ => "list".toList
  | .dump _ _ => "dump".toList
  | .xref _ _ => "xref".toList
  | _ => []

/-- What a command makes of an image that is shown under a name. -/
def answer (config : Options) (image : Bytes) (name : Text) : Invocation → Answer
  | .list _ _ switches widths =>
      let options := Outcome.effectiveOptions config switches widths
      let listing := (Program.decode image).list options Machine.listing name
      ⟨listing.text, listing.diagnostics,
        (Program.decode image).entries ++ (Program.decode image).layoutEntries options⟩
  | .dump _ noHeader =>
      ⟨(Program.decode image).dump { showHeader := !noHeader } name,
        (Program.decode image).diagnostics, (Program.decode image).entries⟩
  | .xref _ pretty =>
      ⟨(Program.decode image).symbols.jsonText pretty, (Program.decode image).diagnostics,
        (Program.decode image).entries⟩
  | _ => ⟨[], [], []⟩

end Invocation

namespace Source

end Source

/-- What stands on standard error behind the log. -/
inductive Notice where
  | note (text : Text)
  | warning (text : Text)
  /-- The number of warnings. -/
  | count (warnings : Nat)

namespace Notice

/-- How a notice is written. The text of a diagnostic is written as it is. -/
def line (wording : Wording) : Notice → Text
  | .note text => wording.paint .brightCyan "note".toList ++ " ".toList ++ text
  | .warning text => wording.paint .brightYellow "warning".toList ++ " ".toList ++ text
  | .count warnings =>
      "! ".toList ++ wording.paint .brightYellow (Numeral.decimal warnings) ++ " ".toList ++
        wording.paint .brightYellow "warnings".toList

end Notice

section Commands

variable (wording : Wording) (writer : Log.Writer) (files : Text → Option Bytes) (piped : Bytes)

variable {files piped} {invocation : Invocation} {source : Source}

end Commands

end Applesoft.Command
