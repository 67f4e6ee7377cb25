import Applesoft.Listing.Layout

/-!
The log. Entries are made of what the program meets with, at levels by which they may be left out.
Every diagnostic has an entry. What is written for an entry, if anything, is up to the writer of the
log.
-/

namespace Applesoft

namespace Log

inductive Level where
  | error
  | warning
  | debug
  | trace
  deriving DecidableEq, Repr

/-- The part of the program that makes an entry. -/
inductive Origin where
  | start
  | command
  | decoder
  | diagnosis
  | layout
  deriving DecidableEq, Repr

def Origin.name : Origin → Text
  | .start => "a2list".toList
  | .command => "a2list::commands::list".toList
  | .decoder => "a2list::lang::applesoft::tokenizer".toList
  | .diagnosis => "a2list::lang::applesoft::diagnostics".toList
  | .layout => "a2list::lang::applesoft::listing".toList

structure Entry where
  level : Level
  origin : Origin
  message : Text
  deriving DecidableEq, Repr

/-- What is written for an entry that so many entries are before. The time of an entry goes by its
number. -/
abbrev Writer := Nat → Entry → Text

def silent : Writer :=
  fun _ _ => []

/-- Errors and warnings are written, each behind its time, level and origin. -/
def usual (time : Nat → Text) : Writer :=
  fun number entry =>
    let line (level : String) : Text :=
      '[' :: time number ++ level.toList ++ ' ' :: entry.origin.name ++ "] ".toList ++
        entry.message ++ ['\n']
    match entry.level with
    | .error => line "ERROR"
    | .warning => line "WARN "
    | .debug => []
    | .trace => []

def text (writer : Writer) (entries : List Entry) : Text :=
  entries.zipIdx.flatMap fun numbered => writer numbered.2 numbered.1

end Log

open Log (Entry)

def Diagnostic.entry (diagnostic : Diagnostic) : Entry where
  level := if diagnostic.anomaly.isRendering then .debug else .warning
  origin := .diagnosis
  message := diagnostic.text

/-- The entries for a line that is decoded. -/
def Line.entries (line : Line) : List Entry :=
  ((line.findings.filterMap Program.anomaly?).map fun cause =>
    Diagnostic.entry ⟨line.number, cause⟩) ++
    [⟨.trace, .decoder, "line ".toList ++ Numeral.decimal line.number.toNat ++ " has ".toList ++
      Numeral.decimal line.fragments.length ++ " fragments".toList⟩]

/-- The entries for a fragment that is laid out in a line of some number. Its text is wrapped alike
wherever its equals sign is moved to. -/
def Fragment.entries (options : Options) (loadAddress : Nat) (number : UInt16)
    (fragment : Fragment) : List Entry :=
  match Listing.remarkForm fragment with
  | .code =>
      [⟨.debug, .layout, "disassembling ".toList ++
        Numeral.decimal fragment.arguments.length ++ " bytes at ".toList ++
        Numeral.decimal (loadAddress + fragment.start + 1)⟩]
  | .prose => []
  | .plain =>
      let pieces :=
        Listing.Pieces.ofText options fragment (Listing.statementText options 0 fragment)
      pieces.anomalies.map fun cause => Diagnostic.entry ⟨number, cause⟩

namespace Program

/-- The entries that are made while a program is decoded. -/
def entries (program : Program) : List Entry :=
  program.lines.flatMap Line.entries

/-- The entries that are made while a program is laid out. -/
def layoutEntries (program : Program) (options : Options) : List Entry :=
  program.lines.flatMap fun line =>
    line.visible.flatMap (Fragment.entries options program.loadAddress line.number)

end Program

end Applesoft
