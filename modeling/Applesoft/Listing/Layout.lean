import Applesoft.Listing.Alignment
import Applesoft.Listing.Gutter
import Applesoft.Listing.Remark
import Applesoft.Nesting
import Applesoft.Program
import Applesoft.Text.Wrapping

/-!
The rows of a program. Every statement that is shown begins a row of its own, indented by the
nesting, except for a remark joined to the statement before it. Long statements go on in further
rows, which begin below the text of the statement.
-/

namespace Applesoft.Listing

/-- Replaces the first occurrence of a pattern. -/
def replaceFirst (pattern replacement : Text) : Text → Text
  | [] => []
  | character :: rest =>
      if pattern.isPrefixOf (character :: rest) then
        replacement ++ (character :: rest).drop pattern.length
      else
        character :: replaceFirst pattern replacement rest

/-- Deletes the second of two spaces behind the first occurrence of a keyword with two spaces. -/
def deleteExtraSpace (keyword : String) (text : Text) : Text :=
  replaceFirst (keyword.toList ++ "  ".toList) (keyword.toList ++ " ".toList) text

/-- The text of a statement before it is wrapped, with its equals sign moved to a column. -/
def statementText (options : Options) (column : Nat) (fragment : Fragment) : Text :=
  match fragment.statement with
  | .remark =>
      let text := alignedText options 0 fragment
      if options.deleteExtraRemSpace then deleteExtraSpace "REM" text else text
  | .data =>
      let text := alignedText options column fragment
      if options.deleteExtraDataSpace then deleteExtraSpace "DATA" text else text
  | _ => alignedText options column fragment

/-- The text of a statement in pieces, and what stood in the way of the pieces asked for. -/
structure Pieces where
  first : Text
  others : List Text
  anomalies : List Anomaly
  deriving DecidableEq, Repr

namespace Pieces

def whole (text : Text) : Pieces :=
  ⟨text, [], []⟩

/-- The pieces in a list. An empty list stands for the text as a whole. -/
def ofList (text : Text) (anomalies : List Anomaly) : List Text → Pieces
  | [] => ⟨text, [], anomalies⟩
  | first :: others => ⟨first, others, anomalies⟩

def wrap (width : Nat) (breaker : Char) (wrapped : WrappedStatement) (text : Text) :
    Pieces :=
  let pieces := Wrapping.splitLine width breaker text
  let tooLong := width ≠ 0 ∧ ∃ piece ∈ pieces, width < piece.length
  ofList text (if tooLong then [.noBreakPoint wrapped] else []) pieces

def ofDim (options : Options) (text : Text) : Pieces :=
  if options.splitDim then
    match Wrapping.splitDim text with
    | some pieces => ofList text [] pieces
    | none => ⟨text, [], [.dimNotSplit]⟩
  else
    whole text

/-- Wraps the literal of a PRINT or INPUT that has one literal and no control characters. -/
def ofPrint (options : Options) (fragment : Fragment) (text : Text) : Pieces :=
  if text.count '"' = 2 ∧ fragment.containsControl = false then
    match Wrapping.splitPrint options.wrapPrintAt text with
    | some pieces => ofList text [] pieces
    | none => whole text
  else
    whole text

def ofText (options : Options) (fragment : Fragment) (text : Text) : Pieces :=
  match fragment.statement with
  | .remark => wrap options.wrapRemAt ' ' .rem text
  | .data => wrap options.wrapDataAt ',' .data text
  | .dim => ofDim options text
  | .print => ofPrint options fragment text
  | .input => ofPrint options fragment text
  | _ => whole text

/-- The rows of pieces behind a margin; further rows are indented by its length. -/
def rows (margin : Text) (pieces : Pieces) : List Text :=
  (margin ++ pieces.first) ::
    pieces.others.map fun piece => Text.spaces margin.length ++ piece

/-- Adds pieces behind the last of some rows, with a space between. -/
def join (shown : List Text) (pieces : Pieces) : List Text :=
  shown.dropLast ++ pieces.rows (shown.getLast?.getD [] ++ [' '])

end Pieces

/-- What the rows of a program depend on, beside its lines. -/
structure Setting where
  options : Options
  disassembler : Disassembler
  symbols : Symbols
  loadAddress : Nat

/-- How far the layout has come. -/
structure Progress where
  nesting : Nesting := {}
  /-- The column of the equals sign in the current run of assignments; zero outside of runs. -/
  column : Nat := 0
  /-- The rows of the current line. -/
  rows : List Text := []
  /-- What stood in the way in the current line. -/
  anomalies : List Anomaly := []
  deriving DecidableEq, Repr

def indentSize : Nat :=
  2

/-- The column at which a statement begins at an indentation. -/
def columnOf (options : Options) (indent : Nat) : Nat :=
  indent * indentSize + baseColumn options

/-- What stands before an item in its row: the number of the line before the first one, the mark of
a jump before others, and spaces up to the column. -/
def margin (options : Options) (base : Text) (item : Item) (indent : Nat) : Text :=
  Text.padRight (columnOf options indent)
    ((if item.leading then base ++ "  ".toList else []) ++
      jumpMark options item.fragment)

def layoutText (options : Options) (base : Text) (item : Item) (later : List Item)
    (following : List Line) (progress : Progress) : Progress :=
  let joined := item.isJoined options
  let column :=
    if options.alignAssign && !joined then
      columnAt options item later following progress.column
    else
      progress.column
  let pieces :=
    Pieces.ofText options item.fragment (statementText options column item.fragment)
  { nesting := progress.nesting.leave item.fragment.statement
    column := column
    rows :=
      if joined then
        pieces.join progress.rows
      else
        progress.rows ++
          pieces.rows (margin options base item progress.nesting.indent)
    anomalies := progress.anomalies ++ pieces.anomalies }

/-- Lays out an item behind those before it in its line. -/
def layoutItem (setting : Setting) (base : Text) (item : Item) (later : List Item)
    (following : List Line) (progress : Progress) : Progress :=
  let entered :=
    { progress with nesting := progress.nesting.enter item.fragment.statement }
  let before := margin setting.options base item entered.nesting.indent
  match remarkForm item.fragment with
  | .code =>
      { entered with
        rows := entered.rows ++
          codeRows setting.disassembler setting.loadAddress before item.fragment }
  | .prose =>
      { entered with
        rows := entered.rows ++ proseRows setting.options before item.fragment }
  | .plain => layoutText setting.options base item later following entered

/-- Lays out items behind those before them in their line. -/
def layoutItems (setting : Setting) (base : Text) (following : List Line) :
    List Item → Progress → Progress
  | [], progress => progress
  | item :: later, progress =>
      layoutItems setting base following later
        (layoutItem setting base item later following progress)

def hasReturn (line : Line) : Bool :=
  line.fragments.any fun fragment => fragment.statement = .returnFromCall

/-- Lays out a line. A line without statements shows its number alone. -/
def layoutLine (setting : Setting) (line : Line) (following : List Line)
    (progress : Progress) : Progress :=
  let base := lineBase setting.options setting.symbols line
  let start : Progress := {
    nesting := progress.nesting.startLine
    column := progress.column }
  let finished := layoutItems setting base following (items line) start
  let shown := if (items line).isEmpty then [Text.trimEnd base] else finished.rows
  { finished with
    column := if finished.nesting.inCondition then 0 else finished.column
    rows :=
      if setting.options.blankAfterReturn && hasReturn line then
        shown ++ [[]]
      else
        shown }

/-- The rows of lines and what stood in their way, given the progress before them. -/
def layoutLines (setting : Setting) :
    List Line → Progress → List (List Text × List Diagnostic)
  | [], _ => []
  | line :: following, progress =>
      let finished := layoutLine setting line following progress
      (finished.rows, finished.anomalies.map fun cause => ⟨line.number, cause⟩) ::
        layoutLines setting following finished

end Applesoft.Listing
