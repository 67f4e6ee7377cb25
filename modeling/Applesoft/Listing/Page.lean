import Applesoft.HexDump
import Applesoft.Listing.Layout
import Applesoft.Program

/-!
Listings. The rows of the program come between a header and the sections that the options ask for:
what follows the program in its image, cross references, variables, and literals.

A listing has no line feed at its end.
-/

namespace Applesoft

/-- A rendered program, with everything noted while it was decoded and laid out. -/
structure Listing where
  text : Text
  diagnostics : List Diagnostic
  deriving DecidableEq, Repr

namespace Listing

/-- A number in the header, in hexadecimal and in decimal. -/
def headerNumber (number : Nat) : Text :=
  '$' :: Numeral.hex 4 number ++ " (".toList ++ Numeral.withCommas number ++ [')']

/-- The name, the length and the load address of a program, and a blank row. -/
def headerRows (program : Program) (name : Text) : List Text :=
  ["Name    : ".toList ++ name,
    "Length  : ".toList ++ headerNumber program.image.length,
    "Load at : ".toList ++ headerNumber program.loadAddress,
    []]

def extraRows (program : Program) : List Text :=
  match program.extraData with
  | some offset =>
      [[], "Extra data:".toList, []] ++
        HexDump.rows (program.loadAddress + offset) (program.image.drop offset)
  | none => []

def bracketed (members : List Text) : Text :=
  '[' :: Text.join ", ".toList members ++ [']']

def lineNumbers (lines : List UInt16) : Text :=
  bracketed (lines.map fun line => Numeral.decimal line.toNat)

def jumpRows (heading : String) (jumps : Table UInt16 (List UInt16)) : List Text :=
  if jumps.entries.isEmpty then
    []
  else
    heading.toList :: jumps.entries.map fun entry =>
      ' ' :: Text.padLeft 5 ' ' (Numeral.decimal entry.1.toNat) ++ "  ".toList ++
        lineNumbers entry.2

def nonUniqueRows (symbols : Symbols) : List Text :=
  if symbols.nonUnique.isEmpty then
    []
  else
    [] :: "Non-unique Variable Names:".toList :: symbols.nonUnique.map fun entry =>
      Text.padLeft 6 ' ' entry.1 ++ "  ".toList ++ bracketed entry.2

/-- The variables, and the names that are not unique. -/
def variableRows (symbols : Symbols) : List Text :=
  if symbols.references.entries.isEmpty then
    []
  else
    "Variables:".toList ::
      (symbols.references.entries.map fun entry =>
        Text.padLeft 6 ' ' entry.1 ++ "  ".toList ++ lineNumbers entry.2) ++
      nonUniqueRows symbols

def stringRows (symbols : Symbols) : List Text :=
  if symbols.strings.isEmpty then
    []
  else
    "Strings:".toList :: symbols.strings.map fun entry =>
      ' ' :: Text.padLeft 5 ' ' (Numeral.decimal entry.1.toNat) ++ "  ".toList ++ entry.2

/-- The sections that the options ask for, in their order; a section without rows is left out. -/
def sections (options : Options) (symbols : Symbols) : List (List Text) :=
  (if options.showXref then
      [jumpRows "GOSUB:" symbols.gosubs, jumpRows "GOTO:" symbols.gotos]
    else
      []) ++
    (if options.showSymbols then [variableRows symbols] else []) ++
    if options.listStrings then [stringRows symbols] else []

/-- Whether a page ends with a blank row: with an empty row that is not its only one, or with a line
feed inside of its last row. -/
def endsBlank (page : List Text) : Bool :=
  match page.getLast? with
  | some [] => 2 ≤ page.length
  | some row => row.getLast? = some '\n'
  | none => false

/-- Adds a section behind a blank row. No blank row is needed at the top of the page, nor behind
another one. -/
def addSection (page rows : List Text) : List Text :=
  if rows.isEmpty then page
  else if page.isEmpty then rows
  else if endsBlank page then page ++ rows
  else page ++ [] :: rows

/-- The text of rows, without line feeds at its end. -/
def pageText (rows : List Text) : Text :=
  Text.dropTrailing (· = '\n') (rows.flatMap fun row => row ++ ['\n'])

end Listing

/-- Renders a program. The name is only used in the header. -/
def Program.list (program : Program) (options : Options)
    (disassembler : Listing.Disassembler) (name : Text) : Listing :=
  let symbols := program.symbols
  let setting : Listing.Setting := {
    options := options
    disassembler := disassembler
    symbols := symbols
    loadAddress := program.loadAddress }
  let body := Listing.layoutLines setting program.lines {}
  let page :=
    (if options.showHeader then Listing.headerRows program name else []) ++
      body.flatMap Prod.fst ++ Listing.extraRows program
  { text := Listing.pageText
      ((Listing.sections options symbols).foldl Listing.addSection page)
    diagnostics := program.diagnostics ++ body.flatMap Prod.snd }

end Applesoft
