import Mathlib.Data.List.DropRight
import Applesoft.Proofs.Decoration
import Applesoft.Proofs.Silence

/-!
A header and sections only decorate a listing. A section is printed below what is there, with a
blank row between unless there is one already, and what it shows depends on the tables of the
program alone.

The main statement tells the text of a listing under any decoration: the header, the program, and
those sections that are asked for and have something to show.
-/

namespace Applesoft.Listing

/-- A section that can be asked for. -/
inductive Appendix where
  | gosubs
  | gotos
  | references
  | strings
  deriving DecidableEq, Repr

namespace Appendix

/-- All sections in their order. -/
def all : List Appendix :=
  [.gosubs, .gotos, .references, .strings]

def isAsked (decoration : Decoration) : Appendix → Bool
  | .gosubs => decoration.xref
  | .gotos => decoration.xref
  | .references => decoration.symbols
  | .strings => decoration.strings

/-- Whether there is something in the table that a section shows. -/
def hasEntries (symbols : Symbols) : Appendix → Bool
  | .gosubs => !symbols.gosubs.entries.isEmpty
  | .gotos => !symbols.gotos.entries.isEmpty
  | .references => !symbols.references.entries.isEmpty
  | .strings => !symbols.strings.isEmpty

def rows (symbols : Symbols) : Appendix → List Text
  | .gosubs => jumpRows "GOSUB:" symbols.gosubs
  | .gotos => jumpRows "GOTO:" symbols.gotos
  | .references => variableRows symbols
  | .strings => stringRows symbols

/-- The sections that a listing has. -/
def present (decoration : Decoration) (symbols : Symbols) : List Appendix :=
  all.filter fun appendix => appendix.isAsked decoration && appendix.hasEntries symbols

section Rows

variable {symbols : Symbols} {appendix : Appendix}

end Rows

end Appendix

/-- A text with a blank row at its end, unless it is empty. -/
def separated (text : Text) : Text :=
  if text = [] ∨ ['\n', '\n'] <:+ text then text else text ++ ['\n']

end Applesoft.Listing

namespace Applesoft.Program

open Listing

end Applesoft.Program
