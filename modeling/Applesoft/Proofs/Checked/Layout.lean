import Applesoft.Proofs.Checked.Alignment
import Applesoft.Proofs.Checked.Lines
import Applesoft.Proofs.Checked.Nesting
import Applesoft.Proofs.Checked.Pieces
import Applesoft.Proofs.Continuations

namespace Applesoft.Checked

open Listing

/-- What the rows of a program depend on. -/
structure Setup where
  options : Options
  disassembler? : Nat → Bytes → Option (List Text)
  symbols : Symbols
  loadAddress : Nat
  lines : List Line

def setupOf (setting : Setting) (disassembler? : Nat → Bytes → Option (List Text))
    (lines : List Line) : Setup where
  options := setting.options
  disassembler? := disassembler?
  symbols := setting.symbols
  loadAddress := setting.loadAddress
  lines := lines

/-- The rows of the machine code in a remark. -/
def codeRows? (setup : Setup) (margin : Text) (fragment : Fragment) : Option (List Text) := do
  let place ← sum? wordLimit setup.loadAddress fragment.start
  let address ← sum? wordLimit place 1
  let width ← sum? wordLimit margin.length 2
  let _ ← difference? fragment.body.length 1
  let code ← slice? fragment.body 1 fragment.body.length
  let rows ← setup.disassembler? address code
  some ((margin ++ "REM - Inline assembler @ $".toList ++ Numeral.hex 2 address ++
      " (".toList ++ Numeral.decimal address ++ [')']) ::
    rows.map fun row => Text.spaces width ++ row)

/-- Types bytes behind a text, whose last character comes first. -/
def typeBytes? (options : Options) : Text → Bytes → Option Text
  | typed, [] => some typed
  | typed, byte :: rest =>
      if byte = 0x08 then
        typeBytes? options typed.tail rest
      else if byte = 0x0D then
        typeBytes? options ('\n' :: typed) rest
      else if isControl byte then
        if options.showCaret then do
          let shown ← caret? byte
          typeBytes? options (shown.reverse ++ typed) rest
        else
          typeBytes? options typed rest
      else if Keyword.isToken byte then
        typeBytes? options typed rest
      else
        typeBytes? options (toCharacter byte :: typed) rest

/-- The rows of a remark with a layout of its own. -/
def proseRows? (options : Options) (margin : Text) (fragment : Fragment) : Option (List Text) := do
  let contents ← slice? fragment.body 1 fragment.body.length
  let typed ← typeBytes? options (margin ++ "REM ".toList).reverse contents
  some (Text.fields '\n' typed.reverse)

def columnOf? (options : Options) (indent : Nat) : Option Nat := do
  let width ← product? wordLimit indent indentSize
  sum? wordLimit width (baseColumn options)

/-- The column of the run at a place, which a joined remark leaves as it is. -/
def runColumn? (options : Options) (lines : List Line) (number place : Nat) (joined : Bool)
    (current : Nat) : Option Nat :=
  if options.alignAssign && !joined then
    columnAt? options lines number place current
  else
    some current

/-- The rows of pieces, the first one behind a margin and the others behind an inset. -/
def rowsAt (inset : Nat) (margin : Text) (pieces : Pieces) : List Text :=
  (margin ++ pieces.first) :: pieces.others.map fun piece => Text.spaces inset ++ piece

/-- Where a fragment is laid out. -/
structure Site where
  line : Line
  /-- The number of lines before its line. -/
  number : Nat
  /-- What stands before the statements of its line. -/
  base : Text
  /-- The rows above its line. -/
  above : List Text

def layoutText? (setup : Setup) (site : Site) (place : Nat) (margin : Text) (fragment : Fragment)
    (progress : Progress) : Option Progress := do
  let joined ← isJoined? setup.options site.line place
  let column ← runColumn? setup.options setup.lines site.number place joined progress.column
  let text ← statementText? setup.options column fragment
  let pieces ← piecesOf? setup.options fragment text
  let output := printed (site.above ++ progress.rows)
  let reached ← lastLineLength? (if joined then output.dropLast ++ [' '] else output)
  let nesting ← leave? fragment.statement progress.nesting
  some {
    nesting := nesting
    column := column
    rows :=
      if joined then
        progress.rows.dropLast ++
          rowsAt reached (progress.rows.getLast?.getD [] ++ [' ']) pieces
      else
        progress.rows ++ rowsAt (max margin.length reached) margin pieces
    anomalies := progress.anomalies ++ pieces.anomalies }

/-- Lays out the fragment at a place of its line, which may be the first one to be shown. -/
def layoutFragment? (setup : Setup) (site : Site) (place : Nat) (leading : Bool)
    (fragment : Fragment) (progress : Progress) : Option Progress := do
  let nesting ← enter? fragment.statement progress.nesting
  let column ← columnOf? setup.options nesting.indent
  let margin := Text.padRight column
    ((if leading then site.base ++ "  ".toList else []) ++ jumpMark setup.options fragment)
  match remarkForm fragment with
  | .code =>
      let rows ← codeRows? setup margin fragment
      some { progress with nesting := nesting, rows := progress.rows ++ rows }
  | .prose =>
      let rows ← proseRows? setup.options margin fragment
      some { progress with nesting := nesting, rows := progress.rows ++ rows }
  | .plain => layoutText? setup site place margin fragment { progress with nesting := nesting }

/-- Lays out the fragments of a line from a place on. -/
def layoutFragments? (setup : Setup) (site : Site) :
    Nat → Bool → List Fragment → Progress → Option Progress
  | _, _, [], progress => some progress
  | place, leading, fragment :: rest, progress =>
      if fragment.isEmpty then
        layoutFragments? setup site (place + 1) leading rest progress
      else do
        let further ← layoutFragment? setup site place leading fragment progress
        layoutFragments? setup site (place + 1) false rest further

/-- Lays out the line of a number. -/
def layoutLine? (setup : Setup) (number : Nat) (above : List Text) (progress : Progress) :
    Option Progress := do
  let line ← setup.lines[number]?
  let base := lineBase setup.options setup.symbols line
  let finished ← layoutFragments? setup ⟨line, number, base, above⟩ 0 true line.fragments
    progress.startLine
  let shown :=
    if line.fragments.all Fragment.isEmpty then [Text.trimEnd base] else finished.rows
  some { finished with
    column := finished.columnBehindLine
    rows :=
      if setup.options.blankAfterReturn && hasReturn line then shown ++ [[]] else shown }

/-- Lays out lines, given the number of those before them and the rows above. -/
def layoutLines? (setup : Setup) :
    Nat → List Line → List Text → Progress → Option (List (List Text × List Diagnostic))
  | _, [], _, _ => some []
  | number, line :: rest, above, progress => do
      let finished ← layoutLine? setup number above progress
      let later ← layoutLines? setup (number + 1) rest (above ++ finished.rows) finished
      some ((finished.rows, finished.anomalies.map fun cause => ⟨line.number, cause⟩) :: later)

/-- How many bytes an image can have for its texts to fit into memory, where a text has less than
`2 ^ 63` characters and the longest piece is shown for each byte. -/
def memoryLimit : Nat :=
  2 ^ 63 / longestPiece

/-- Whether the bytes of a fragment are inside an image and are those of its statement. -/
structure IsHeld (image : Bytes) (fragment : Fragment) : Prop where
  inside : fragment.start + fragment.body.length ≤ image.length
  statement : fragment.statement = Statement.ofBody fragment.body

theorem IsHeld.body_ne_nil
    {image : Bytes} {fragment : Fragment} (held : IsHeld image fragment)
    (remark : fragment.isRemark = true) : fragment.body ≠ [] := by
  intro empty
  rw [Fragment.isRemark, decide_eq_true_eq, held.statement, empty] at remark
  cases remark

theorem isHeld_of_mem
    {image : Bytes} {line : Line} {fragment : Fragment}
    (lineMember : line ∈ (Program.decode image).lines) (member : fragment ∈ line.fragments) :
    IsHeld image fragment := by
  obtain ⟨record, found, rfl⟩ := List.mem_map.1 lineMember
  obtain ⟨start, stop, placed⟩ := Payload.isStatement_of_mem_fragments member
  have payloadInside := ((follow_records image).isIn found).payloadStop_le
  rw [Record.payloadStop] at payloadInside
  have length := placed.start_add_length_body
  have start := placed.start_eq
  have inPayload := placed.stop_le
  have within : (if Payload.HasCode record.payload Punctuation.colon (stop - 1) then stop - 1
      else stop) ≤ stop := by
    split
    · exact Nat.sub_le stop 1
    · exact le_rfl
  exact ⟨by omega, placed.statement⟩

section Remarks

variable {fragment : Fragment}

theorem arguments_eq (nonempty : fragment.body ≠ []) :
    slice? fragment.body 1 fragment.body.length = some fragment.arguments :=
  slice?_length (List.length_pos_iff.2 nonempty)

theorem typeBytes?_eq (options : Options) (typed : Text) (bytes : Bytes) :
    typeBytes? options typed bytes = some (typeBytes options typed bytes) := by
  induction bytes generalizing typed with
  | nil => rfl
  | cons byte rest hypothesis =>
      rw [typeBytes?, typeBytes]
      split
      · exact hypothesis _
      · split
        · exact hypothesis _
        · split
          · next control =>
              split
              · rw [caret?_eq control]
                exact hypothesis _
              · exact hypothesis _
          · split
            · exact hypothesis _
            · exact hypothesis _

theorem proseRows?_eq (nonempty : fragment.body ≠ []) (options : Options) (margin : Text) :
    proseRows? options margin fragment = some (proseRows options margin fragment) := by
  rw [proseRows?, arguments_eq nonempty, proseRows]
  simp only [Option.bind_eq_bind, Option.bind_some, typeBytes?_eq]

/-- Whether code is disassembled without a refusal, wherever in memory it is. -/
def Disassembles (disassembler? : Nat → Bytes → Option (List Text)) (disassembler : Disassembler) :
    Prop :=
  ∀ address code, address + code.length + 258 < 2 ^ 63 →
    disassembler? address code = some (disassembler address code)

theorem codeRows?_eq
    {setup : Setup} {disassembler : Disassembler} {margin : Text} {image : Bytes}
    (disassembles : Disassembles setup.disassembler? disassembler)
    (held : IsHeld image fragment) (nonempty : fragment.body ≠ [])
    (small : image.length < memoryLimit) (address : setup.loadAddress < 2 ^ 16)
    (short : margin.length + 2 < wordLimit) :
    codeRows? setup margin fragment =
      some (codeRows disassembler setup.loadAddress margin fragment) := by
  have inside := held.inside
  have positive := List.length_pos_iff.2 nonempty
  have limit : memoryLimit = 2 ^ 59 := rfl
  have words : wordLimit = 2 ^ 64 := rfl
  have shorter : fragment.arguments.length ≤ fragment.body.length := by
    rw [Fragment.arguments, List.length_drop]
    exact Nat.sub_le _ _
  have rows := disassembles (setup.loadAddress + fragment.start + 1) fragment.arguments (by omega)
  rw [codeRows?, sum?_eq (by omega)]
  simp only [Option.bind_eq_bind]
  rw [Option.bind_some, sum?_eq (by omega), Option.bind_some, sum?_eq short, Option.bind_some,
    difference?_eq positive, Option.bind_some, arguments_eq nonempty, Option.bind_some, rows,
    Option.bind_some]
  rfl

end Remarks

/-- Whether a program has its place in memory, and code of it can be disassembled. -/
structure IsLoaded (image : Bytes) (setting : Setting)
    (disassembler? : Nat → Bytes → Option (List Text)) : Prop where
  small : image.length < memoryLimit
  address : setting.loadAddress < 2 ^ 16
  disassembles : Disassembles disassembler? setting.disassembler

theorem baseColumn_le (options : Options) : baseColumn options ≤ 12 := by
  unfold baseColumn
  split
  · exact le_rfl
  · decide

theorem columnOf?_eq
    {options : Options} {indent : Nat} (small : indent * indentSize + 12 < wordLimit) :
    columnOf? options indent = some (columnOf options indent) := by
  have base := baseColumn_le options
  rw [columnOf?, product?_eq (by omega), Option.bind_eq_bind, Option.bind_some,
    sum?_eq (by omega)]
  rfl

theorem length_margin_lt
    {options : Options} {image : Bytes} {base : Text} {indent : Nat}
    (small : image.length < memoryLimit) (width : base.length + 2 = baseColumn options)
    (item : Item) (few : indent ≤ image.length) :
    (margin options base item indent).length + 2 < wordLimit := by
  have limit : memoryLimit = 2 ^ 59 := rfl
  have words : wordLimit = 2 ^ 64 := rfl
  have least := baseColumn_le options
  have wide : columnOf options indent = indent * 2 + baseColumn options := rfl
  rw [length_margin width]
  split
  · omega
  · omega

/-- A remark goes on in the row that has been printed last. -/
theorem column_of_isJoined
    {options : Options} {placement : Placement} (whole : placement.IsBehindRows)
    (joined : placement.item.isJoined options = true) :
    Text.column (placement.output.dropLast ++ [' ']) =
      (placement.before.rows.getLast?.getD [] ++ [' ']).length := by
  have behind : placement.item.leading = false := by
    simp only [Item.isJoined, Bool.and_eq_true, Bool.not_eq_true'] at joined
    exact joined.2
  obtain ⟨front, last, shape⟩ :=
    (List.eq_nil_or_concat' placement.before.rows).resolve_left (whole.begun behind)
  have noNewline : '\n' ∉ last ++ [' '] := by
    rw [List.mem_append, not_or]
    refine ⟨?_, by decide⟩
    apply whole.rows
    rw [shape]
    exact List.mem_concat_self
  have reopened : placement.output.dropLast = printed (placement.above ++ front) ++ last := by
    rw [Placement.output, shape, ← List.append_assoc, printed_append, printed_singleton,
      ← List.append_assoc, List.dropLast_concat]
  rw [reopened, List.append_assoc, Text.column_append (endsRow_printed _) noNewline, shape,
    List.getLast?_concat, Option.getD_some]

theorem isEmpty_items (line : Line) :
    (items line).isEmpty = line.fragments.all Fragment.isEmpty := by
  have shown := congrArg List.isEmpty (map_fragment_itemsFrom true false line.visible)
  rw [List.isEmpty_map] at shown
  rw [items, shown, Bool.eq_iff_iff]
  simp [Line.visible, List.isEmpty_iff, List.filter_eq_nil_iff]

theorem length_items_le (line : Line) : (items line).length ≤ line.fragments.length := by
  have shown := congrArg List.length (map_fragment_itemsFrom true false line.visible)
  rw [List.length_map] at shown
  rw [items, shown]
  exact List.length_filter_le _ _

/-- Each statement adds one loop or indentation at most. -/
theorem IsWithin.pass
    {bound : Nat} {nesting : Nesting} (within : IsWithin bound nesting)
    (statements : List Statement) :
    IsWithin (bound + statements.length) (nesting.pass statements) := by
  induction statements generalizing bound nesting with
  | nil => exact within
  | cons statement rest hypothesis =>
      rw [List.length_cons, Nat.add_comm rest.length, ← Nat.add_assoc]
      exact hypothesis within.enter.leave

theorem column_printed (rows : List Text) : Text.column (printed rows) = 0 := by
  have behind := @Text.column_append (printed rows) [] (endsRow_printed rows) List.not_mem_nil
  rwa [List.append_nil] at behind

section Statements

variable {setting : Setting} {disassembler? : Nat → Bytes → Option (List Text)} {image : Bytes}
  {lines linesAbove following : List Line} {line : Line} {before behind : List Fragment}
  {fragment : Fragment} {base : Text} {above : List Text} {progress : Progress} {passed : Nat}

theorem runColumn?_eq
    (lineShape : lines = linesAbove ++ line :: following)
    (shape : line.fragments = before ++ fragment :: behind)
    (options : Options) (joined : Bool) (current : Nat) :
    runColumn? options lines linesAbove.length before.length joined current =
      some (
        if options.alignAssign && !joined then
          columnAt options (itemBehind before fragment)
            (itemsBehind (before ++ [fragment]) behind) following current
        else
          current) := by
  rw [runColumn?, columnAt?_eq lineShape shape]
  exact (apply_ite some _ _ _).symm

theorem layoutText?_eq
    (lineShape : lines = linesAbove ++ line :: following)
    (shape : line.fragments = before ++ fragment :: behind)
    (short : longestPiece * fragment.body.length + 16 < wordLimit)
    (indent : progress.nesting.indent + 1 < wordLimit)
    (whole : Placement.IsBehindRows
      ⟨itemBehind before fragment, itemsBehind (before ++ [fragment]) behind, following, base,
        above, progress⟩) :
    layoutText? (setupOf setting disassembler? lines) ⟨line, linesAbove.length, base, above⟩
        before.length
        (margin setting.options base (itemBehind before fragment) progress.nesting.indent) fragment
        progress =
      some (layoutText setting.options base (itemBehind before fragment)
        (itemsBehind (before ++ [fragment]) behind) following progress) := by
  rw [layoutText?, layoutText]
  simp only [setupOf, isJoined?_eq shape, runColumn?_eq lineShape shape, statementText?_eq,
    piecesOf?_eq short, lastLineLength?_eq, leave?_eq indent, Option.bind_eq_bind, Option.bind_some]
  cases joined : (itemBehind before fragment).isJoined setting.options with
  | true =>
      have reached := column_of_isJoined whole joined
      rw [Placement.output] at reached
      simp only [if_true, reached]
      rfl
  | false =>
      simp only [Bool.false_eq_true, if_false]
      rw [column_printed, Nat.max_eq_left (Nat.zero_le _)]
      rfl

/-- Nothing is refused while a fragment is laid out in its place. -/
theorem layoutFragment?_eq
    (loaded : IsLoaded image setting disassembler?)
    (lineShape : lines = linesAbove ++ line :: following)
    (shape : line.fragments = before ++ fragment :: behind) (held : IsHeld image fragment)
    (width : base.length + 2 = baseColumn setting.options)
    (within : IsWithin passed progress.nesting) (few : passed ≤ image.length)
    (whole : Placement.IsBehindRows
      ⟨itemBehind before fragment, itemsBehind (before ++ [fragment]) behind, following, base,
        above, progress⟩) :
    layoutFragment? (setupOf setting disassembler? lines) ⟨line, linesAbove.length, base, above⟩
        before.length (before.all Fragment.isEmpty) fragment progress =
      some (layoutItem setting base (itemBehind before fragment)
        (itemsBehind (before ++ [fragment]) behind) following progress) := by
  have limit : memoryLimit = 2 ^ 59 := rfl
  have words : wordLimit = 2 ^ 64 := rfl
  have small := loaded.small
  have inside := held.inside
  have indent : (progress.nesting.enter fragment.statement).indent ≤ image.length :=
    within.enter.indent.trans few
  have column : columnOf? (setupOf setting disassembler? lines).options
        (progress.nesting.enter fragment.statement).indent =
      some (columnOf setting.options (progress.nesting.enter fragment.statement).indent) :=
    columnOf?_eq (by rw [indentSize]; omega)
  have remark (notPlain : remarkForm fragment ≠ .plain) : fragment.body ≠ [] := by
    apply held.body_ne_nil
    by_contra noRemark
    exact notPlain (remarkForm_eq_plain_of_not_isRemark (Bool.eq_false_of_not_eq_true noRemark))
  rw [layoutFragment?, enter?_eq, layoutItem, fragment_itemBehind]
  simp only [column, Option.bind_eq_bind, Option.bind_some]
  cases form : remarkForm fragment with
  | code =>
      have short := length_margin_lt small width (itemBehind before fragment) indent
      have rows := @codeRows?_eq fragment (setupOf setting disassembler? lines)
        setting.disassembler _ image loaded.disassembles held (remark (by simp [form])) small
        loaded.address short
      exact congrArg (Option.bind · _) rows
  | prose =>
      have rows := @proseRows?_eq fragment (remark (by simp [form])) setting.options
        (margin setting.options base (itemBehind before fragment)
          (progress.nesting.enter fragment.statement).indent)
      exact congrArg (Option.bind · _) rows
  | plain =>
      have further : (progress.nesting.enter fragment.statement).indent + 1 < wordLimit := by omega
      have room : longestPiece * fragment.body.length + 16 < wordLimit := by
        rw [longestPiece]
        omega
      have behindRows : Placement.IsBehindRows
          ⟨itemBehind before fragment, itemsBehind (before ++ [fragment]) behind, following, base,
            above, { progress with nesting := progress.nesting.enter fragment.statement }⟩ :=
        ⟨whole.base, whole.rows, whole.begun⟩
      exact layoutText?_eq lineShape shape room further behindRows

/-- Nothing is refused while the fragments of a line are laid out. The induction is on the fragments
that are left of it. -/
theorem layoutFragments?_eq
    (loaded : IsLoaded image setting disassembler?)
    (lineShape : lines = linesAbove ++ line :: following)
    (shape : line.fragments = before ++ behind)
    (held : ∀ fragment ∈ line.fragments, IsHeld image fragment)
    (width : base.length + 2 = baseColumn setting.options)
    (within : IsWithin passed progress.nesting) (few : passed + behind.length ≤ image.length)
    (whole : ∀ placement ∈ placeItems setting base following above (itemsBehind before behind)
      progress, placement.IsBehindRows) :
    layoutFragments? (setupOf setting disassembler? lines) ⟨line, linesAbove.length, base, above⟩
        before.length (before.all Fragment.isEmpty) behind progress =
      some (layoutItems setting base following (itemsBehind before behind) progress) := by
  induction behind generalizing before progress passed with
  | nil => rfl
  | cons fragment rest hypothesis =>
      have onward : line.fragments = (before ++ [fragment]) ++ rest := by simpa using shape
      have next : (before ++ [fragment]).length = before.length + 1 := List.length_append
      rw [List.length_cons] at few
      rw [layoutFragments?]
      cases shown : fragment.isEmpty with
      | true =>
          rw [itemsBehind_of_isEmpty shown] at whole ⊢
          have later := hypothesis onward within (by omega) whole
          have leading : (before ++ [fragment]).all Fragment.isEmpty =
              before.all Fragment.isEmpty := by
            simp [shown]
          rw [next, leading] at later
          rw [if_pos rfl]
          exact later
      | false =>
          rw [itemsBehind_of_shown shown] at whole ⊢
          rw [placeItems, List.forall_mem_cons] at whole
          have member : fragment ∈ line.fragments := by simp [shape]
          have step := layoutFragment?_eq loaded lineShape shape (held fragment member) width within
            (by omega) whole.1
          have further : IsWithin (passed + 1) (layoutItem setting base
              (itemBehind before fragment) (itemsBehind (before ++ [fragment]) rest) following
              progress).nesting := by
            rw [nesting_layoutItem]
            exact within.enter.leave
          have later := hypothesis onward further (by omega) whole.2
          have leading : (before ++ [fragment]).all Fragment.isEmpty = false := by
            simp [shown]
          rw [next, leading] at later
          rw [if_neg Bool.false_ne_true, step, Option.bind_eq_bind, Option.bind_some, later,
            layoutItems]

/-- Nothing is refused while a line is laid out. -/
theorem layoutLine?_eq
    (loaded : IsLoaded image setting disassembler?)
    (lineShape : lines = linesAbove ++ line :: following)
    (held : ∀ fragment ∈ line.fragments, IsHeld image fragment)
    (within : IsWithin passed progress.nesting)
    (few : passed + line.fragments.length ≤ image.length)
    (whole : ∀ placement ∈ placeItems setting (lineBase setting.options setting.symbols line)
      following above (items line) progress.startLine, placement.IsBehindRows) :
    layoutLine? (setupOf setting disassembler? lines) linesAbove.length above progress =
      some (layoutLine setting line following progress) := by
  have found : (setupOf setting disassembler? lines).lines[linesAbove.length]? = some line := by
    simp [setupOf, lineShape]
  have fragments := @layoutFragments?_eq setting disassembler? image lines linesAbove following line
    [] line.fragments (lineBase setting.options setting.symbols line) above progress.startLine
    passed loaded lineShape rfl held (length_lineBase _ _ _) within.startLine few whole
  rw [itemsBehind_nil] at fragments
  rw [layoutLine?, layoutLine, found, isEmpty_items]
  exact congrArg (Option.bind · _) fragments

theorem isWithin_layoutLine (within : IsWithin passed progress.nesting) :
    IsWithin (passed + line.fragments.length)
      (layoutLine setting line following progress).nesting := by
  have behind : IsWithin (passed + ((items line).map fun item => item.fragment.statement).length)
      (layoutLine setting line following progress).nesting := by
    have nesting : (layoutLine setting line following progress).nesting =
        progress.nesting.startLine.pass ((items line).map fun item => item.fragment.statement) :=
      nesting_layoutItems (items line)
    rw [nesting]
    exact within.startLine.pass _
  rw [List.length_map] at behind
  exact behind.mono (Nat.add_le_add_left (length_items_le line) passed)

/-- Nothing is refused while lines are laid out. The induction is on the lines that are left. -/
theorem layoutLines?_eq
    (loaded : IsLoaded image setting disassembler?) {rest : List Line}
    (lineShape : lines = linesAbove ++ rest)
    (held : ∀ line ∈ rest, ∀ fragment ∈ line.fragments, IsHeld image fragment)
    (few : passed + (rest.flatMap Line.fragments).length ≤ image.length)
    (within : IsWithin passed progress.nesting)
    (whole : ∀ placement ∈ placeLines setting above rest progress, placement.IsBehindRows) :
    layoutLines? (setupOf setting disassembler? lines) linesAbove.length rest above progress =
      some (layoutLines setting rest progress) := by
  induction rest generalizing linesAbove above progress passed with
  | nil => rfl
  | cons line following hypothesis =>
      rw [List.flatMap_cons, List.length_append] at few
      rw [List.forall_mem_cons] at held
      rw [placeLines, List.forall_mem_append] at whole
      have onward : lines = (linesAbove ++ [line]) ++ following := by simpa using lineShape
      have next : (linesAbove ++ [line]).length = linesAbove.length + 1 := List.length_append
      have laidOut := layoutLine?_eq loaded lineShape held.1 within (by omega) whole.1
      have later := hypothesis onward held.2 (by omega) (isWithin_layoutLine within) whole.2
      rw [next] at later
      rw [layoutLines?, laidOut, layoutLines]
      simp only [Option.bind_eq_bind, Option.bind_some, later]

end Statements

end Applesoft.Checked
