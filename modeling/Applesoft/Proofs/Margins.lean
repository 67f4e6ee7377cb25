import Mathlib.Data.Nat.Digits.Defs
import Applesoft.Proofs.EqualsColumns
import Applesoft.Proofs.Ink

/-!
The columns at which statements begin. A statement that has a row of its own stands behind a margin,
which holds the number of its line or the mark of a jump and is filled with spaces up to the column
of its indentation. A jump that is the first statement to be shown but not the first fragment of its
line has its mark behind the number of the line, and the mark may reach beyond that column.

The main statement says where each statement begins.
-/

namespace Applesoft

namespace Nesting

/-- The indentations at which statements are shown, one after the other. -/
def indents : Nesting → List Statement → List Nat
  | _, [] => []
  | nesting, statement :: rest =>
      let entered := nesting.enter statement
      entered.indent :: indents (entered.leave statement) rest

/-- The nesting behind some statements. -/
def pass (nesting : Nesting) (statements : List Statement) : Nesting :=
  statements.foldl (fun before statement => (before.enter statement).leave statement) nesting

end Nesting

def Line.shownStatements (line : Line) : List Statement :=
  line.visible.map Fragment.statement

/-- The indentations at which the statements of lines are shown. -/
def lineIndents : Nesting → List Line → List Nat
  | _, [] => []
  | nesting, line :: rest =>
      nesting.startLine.indents line.shownStatements ++
        lineIndents (nesting.startLine.pass line.shownStatements) rest

namespace Listing

def Placement.indent (placement : Placement) : Nat :=
  (placement.before.nesting.enter placement.item.fragment.statement).indent

/-- The column of the indentation of an item. -/
def Placement.column (options : Options) (placement : Placement) : Nat :=
  (if options.showTargets then 12 else 8) + 2 * placement.indent

section Indents

variable {setting : Setting} {base : Text} {following : List Line} {above : List Text}
  {progress : Progress}

theorem nesting_layoutItem (item : Item) (later : List Item) :
    (layoutItem setting base item later following progress).nesting =
      (progress.nesting.enter item.fragment.statement).leave item.fragment.statement := by
  by_cases plain : remarkForm item.fragment = .plain
  · rw [layoutItem_of_plain plain]
    rfl
  · have remark : item.fragment.statement = .remark := by
      by_contra other
      exact plain (by simp [remarkForm, Fragment.isRemark, other])
    obtain ⟨rows, shape⟩ := layoutItem_of_not_plain later plain
    rw [shape, remark, Progress.enter, remark]
    rfl

theorem nesting_layoutItems (items : List Item) :
    (layoutItems setting base following items progress).nesting =
      progress.nesting.pass (items.map fun item => item.fragment.statement) := by
  induction items generalizing progress with
  | nil => rfl
  | cons item later hypothesis =>
      rw [layoutItems, hypothesis, nesting_layoutItem]
      rfl

theorem map_indent_placeItems (items : List Item) :
    (placeItems setting base following above items progress).map Placement.indent =
      progress.nesting.indents (items.map fun item => item.fragment.statement) := by
  induction items generalizing progress with
  | nil => rfl
  | cons item later hypothesis =>
      rw [placeItems, List.map_cons, hypothesis, nesting_layoutItem]
      rfl

/-- Statements are placed at the indentations that their nesting gives. -/
theorem map_indent_placeLines (lines : List Line) :
    (placeLines setting above lines progress).map Placement.indent =
      lineIndents progress.nesting lines := by
  induction lines generalizing above progress with
  | nil => rfl
  | cons line following hypothesis =>
      have statements : (items line).map (fun item => item.fragment.statement) =
          line.shownStatements := by
        rw [Line.shownStatements, ← map_fragment_itemsFrom true false line.visible, List.map_map]
        rfl
      have nesting : (layoutLine setting line following progress).nesting =
          progress.nesting.startLine.pass line.shownStatements := by
        rw [← statements]
        exact nesting_layoutItems (items line)
      rw [placeLines, List.map_append, hypothesis, map_indent_placeItems, statements, nesting]
      rfl

end Indents

theorem length_numberText (options : Options) (symbols : Symbols) (number : UInt16) :
    (numberText options symbols number).length = 5 := by
  have digits : (Numeral.decimal number.toNat).length ≤ 5 :=
    Nat.toDigits_length 10 number.toNat 5 (by decide)
      (Nat.lt_of_lt_of_le number.toNat_lt (by decide))
  unfold numberText
  split
  · exact Text.length_spaces 5
  · rw [Text.length_padLeft]
    omega

theorem length_lineBase (options : Options) (symbols : Symbols) (line : Line) :
    (lineBase options symbols line).length + 2 = baseColumn options := by
  unfold lineBase baseColumn
  cases options.showTargets with
  | true =>
      simp only [if_true, List.length_append, List.length_cons, length_sourceMark,
        length_targetMark, length_numberText]
  | false =>
      simp only [Bool.false_eq_true, if_false, List.length_cons, length_numberText]

theorem base_of_mem_placeItems
    {setting : Setting} {base : Text} {following : List Line} {above : List Text}
    {items : List Item} {progress : Progress} {placement : Placement}
    (member : placement ∈ placeItems setting base following above items progress) :
    placement.base = base := by
  induction items generalizing progress with
  | nil => cases member
  | cons item later hypothesis =>
      rw [placeItems, List.mem_cons] at member
      rcases member with rfl | further
      · rfl
      · exact hypothesis further

theorem length_base_of_mem_placeLines
    {setting : Setting} {above : List Text} {lines : List Line} {progress : Progress}
    {placement : Placement} (member : placement ∈ placeLines setting above lines progress) :
    placement.base.length + 2 = baseColumn setting.options := by
  induction lines generalizing above progress with
  | nil => cases member
  | cons line following hypothesis =>
      rw [placeLines, List.mem_append] at member
      rcases member with here | further
      · rw [base_of_mem_placeItems here]
        exact length_lineBase setting.options setting.symbols line
      · exact hypothesis further

/-- Whether a fragment has the mark of a jump before it. -/
def hasJumpMark (options : Options) (fragment : Fragment) : Bool :=
  options.showTargets && !fragment.first && fragment.statement.jumpKind.isSome

/-- Whether the mark of a jump stands behind the number of its line: the jump is not the first
fragment, as separators are before it, but it is the first one to be shown. -/
def Item.marksBehindNumber (options : Options) (item : Item) : Bool :=
  item.leading && hasJumpMark options item.fragment

theorem length_jumpMark (options : Options) (fragment : Fragment) :
    (jumpMark options fragment).length = if hasJumpMark options fragment then 4 else 0 := by
  unfold jumpMark hasJumpMark
  cases options.showTargets && !fragment.first with
  | false => rfl
  | true =>
      cases fragment.statement.jumpKind with
      | none => rfl
      | some kind =>
          cases kind with
          | goto => rfl
          | gosub => rfl

section Margin

variable {options : Options} {base : Text} {item : Item}

theorem showTargets_of_hasJumpMark (marked : hasJumpMark options item.fragment = true) :
    options.showTargets = true := by
  simp only [hasJumpMark, Bool.and_eq_true] at marked
  exact marked.1.1

theorem length_margin
    (width : base.length + 2 = baseColumn options) (indent : Nat) :
    (margin options base item indent).length =
      if item.marksBehindNumber options then max 16 (columnOf options indent)
      else columnOf options indent := by
  have least : baseColumn options ≤ columnOf options indent := Nat.le_add_left _ _
  rw [margin, Text.length_padRight, List.length_append, length_jumpMark, Item.marksBehindNumber]
  by_cases marked : hasJumpMark options item.fragment = true
  · have wide : baseColumn options = 12 := by
      rw [baseColumn, if_pos (showTargets_of_hasJumpMark marked)]
    rw [if_pos marked, marked, Bool.and_true]
    cases item.leading with
    | true =>
        simp only [if_true, List.length_append]
        change max (columnOf options indent) (base.length + 2 + 4) = _
        omega
    | false =>
        simp only [Bool.false_eq_true, if_false, List.length_nil]
        omega
  · rw [Bool.not_eq_true] at marked
    rw [marked, Bool.and_false]
    simp only [Bool.false_eq_true, if_false]
    cases item.leading with
    | true =>
        simp only [if_true, List.length_append]
        change max (columnOf options indent) (base.length + 2) = _
        omega
    | false =>
        simp only [Bool.false_eq_true, if_false, List.length_nil]
        omega

theorem columnOf_indent (options : Options) (placement : Placement) :
    columnOf options placement.indent = placement.column options := by
  rw [Placement.column, Nat.add_comm, Nat.mul_comm]
  rfl

theorem showTargets_of_marksBehindNumber (marked : item.marksBehindNumber options = true) :
    options.showTargets = true := by
  rw [Item.marksBehindNumber, Bool.and_eq_true] at marked
  exact showTargets_of_hasJumpMark marked.2

/-- Nothing but the mark of a jump stands before an item that is not the first one of its line. -/
theorem drop_margin (behind : item.leading = false) (indent : Nat) :
    (margin options base item indent).drop 4 = Text.spaces (columnOf options indent - 4) := by
  have mark := length_jumpMark options item.fragment
  rw [margin, behind]
  simp only [Bool.false_eq_true, if_false, List.nil_append]
  rw [Text.padRight, List.drop_append, mark, List.drop_eq_nil_of_le (by rw [mark]; split <;> omega)]
  split
  · rfl
  · simp [Text.spaces]

/-- The mark of a jump stands in front, or behind the number of the line. -/
theorem take_drop_margin
    (width : base.length + 2 = baseColumn options)
    (marked : hasJumpMark options item.fragment = true) (indent : Nat) :
    ((margin options base item indent).drop (if item.leading then 12 else 0)).take 4 =
      jumpMark options item.fragment := by
  have mark : (jumpMark options item.fragment).length = 4 := by rw [length_jumpMark, if_pos marked]
  have front : (if item.leading then base ++ "  ".toList else []).length =
      if item.leading then 12 else 0 := by
    rw [baseColumn, if_pos (showTargets_of_hasJumpMark marked)] at width
    cases item.leading with
    | true => exact List.length_append.trans width
    | false => rfl
  rw [margin, Text.padRight, List.append_assoc, List.drop_left' front, List.take_left' mark]

theorem lt_mem_jumpMark (marked : hasJumpMark options item.fragment = true) :
    '<' ∈ jumpMark options item.fragment := by
  simp only [hasJumpMark, Bool.and_eq_true] at marked
  obtain ⟨kind, jumps⟩ := Option.isSome_iff_exists.1 marked.2
  simp only [jumpMark, marked.1.1, marked.1.2, jumps, Bool.and_self, if_true]
  cases kind <;> decide

/-- The mark of a jump is in the first four columns, with nothing behind it, unless it stands behind
the number of the line. -/
theorem margin_eq_jumpMark_iff
    (width : base.length + 2 = baseColumn options)
    (marked : hasJumpMark options item.fragment = true) (indent : Nat) :
    (∃ gap, margin options base item indent = jumpMark options item.fragment ++ Text.spaces gap) ↔
      item.leading = false := by
  have mark : (jumpMark options item.fragment).length = 4 := by rw [length_jumpMark, if_pos marked]
  have stands := take_drop_margin width marked indent
  constructor
  · rintro ⟨gap, alone⟩
    by_contra leads
    rw [Bool.not_eq_false] at leads
    rw [alone, leads, if_pos rfl, List.drop_append, List.drop_eq_nil_of_le (by omega),
      List.nil_append] at stands
    have member := lt_mem_jumpMark marked
    rw [← stands] at member
    have space := List.eq_of_mem_replicate (List.mem_of_mem_drop (List.mem_of_mem_take member))
    exact absurd space (by decide)
  · intro behind
    exact ⟨_, by rw [margin, behind, Text.padRight]; rfl⟩

end Margin

/-- Whether a text is at the front of another, and not empty unless that is. -/
def IsFront (front text : Text) : Prop :=
  front <+: text ∧ (front = [] → text = [])

theorem IsFront.refl (text : Text) : IsFront text text :=
  ⟨List.prefix_rfl, id⟩

/-- Whether rows show a fragment with a text behind a margin. -/
inductive BeginsBehind (options : Options) (fragment : Fragment) (margin text : Text) :
    List Text → Prop
  | plain {first : Text} {others : List Text} :
      remarkForm fragment = .plain →
      IsFront first text →
      BeginsBehind options fragment margin text ((margin ++ first) :: others)
  | code {behind : Text} {others : List Text} :
      remarkForm fragment = .code →
      BeginsBehind options fragment margin text ((margin ++ "REM ".toList ++ behind) :: others)
  | prose :
      remarkForm fragment = .prose →
      BeginsBehind options fragment margin text
        (Text.fields '\n'
          (typeBytes options (margin ++ "REM ".toList).reverse fragment.arguments).reverse)

theorem isFront_of_isBrokenInto
    {width floor : Nat} {breaker : Char} {text first : Text} {pieces : List Text}
    (broken : Wrapping.IsBrokenInto width breaker floor text pieces)
    (member : first ∈ pieces.head?) :
    IsFront first text := by
  cases broken with
  | whole _ =>
      obtain rfl := Option.some.inj member
      exact IsFront.refl text
  | broken _ last _ =>
      obtain rfl := Option.some.inj member
      have above := last.1.behind
      refine ⟨List.take_prefix _ text, ?_⟩
      intro empty
      rcases List.take_eq_nil_iff.1 empty with none | nothing
      · omega
      · exact nothing

theorem isFront_of_hangs
    {indent : Nat} {line first : Text} {pieces : List Text}
    (hangs : Wrapping.Hangs indent line pieces) (member : first ∈ pieces.head?) :
    IsFront first line := by
  cases hangs with
  | intro nonempty =>
      obtain rfl := Option.some.inj member
      refine ⟨?_, ?_⟩
      · rw [List.flatten_cons, ← List.append_assoc]
        exact List.prefix_append _ _
      · intro empty
        exact absurd (List.append_eq_nil_iff.1 empty).1 nonempty

namespace Pieces

theorem isFront_first_ofList
    {text : Text} {anomalies : List Anomaly} {list : List Text}
    (front : ∀ first ∈ list.head?, IsFront first text) :
    IsFront (ofList text anomalies list).first text := by
  cases list with
  | nil => exact IsFront.refl text
  | cons first others => exact front first rfl

theorem isFront_first_ofDim (options : Options) (text : Text) :
    IsFront (ofDim options text).first text := by
  unfold ofDim
  split
  · split
    · next pieces found =>
        exact isFront_first_ofList fun _ member =>
          isFront_of_hangs (Wrapping.hangs_of_splitDim found) member
    · exact IsFront.refl text
  · exact IsFront.refl text

theorem isFront_first_ofPrint (options : Options) (fragment : Fragment) (text : Text) :
    IsFront (ofPrint options fragment text).first text := by
  unfold ofPrint
  split
  · split
    · next pieces found =>
        exact isFront_first_ofList fun _ member =>
          isFront_of_hangs (Wrapping.hangs_of_splitPrint found) member
    · exact IsFront.refl text
  · exact IsFront.refl text

/-- Statements in pieces begin with the front of their text. -/
theorem isFront_first_ofText (options : Options) (fragment : Fragment) (text : Text) :
    IsFront (ofText options fragment text).first text := by
  unfold ofText
  split
  · exact isFront_first_ofList fun _ member =>
      isFront_of_isBrokenInto (Wrapping.isBrokenInto_splitLine _ _ _) member
  · exact isFront_first_ofList fun _ member =>
      isFront_of_isBrokenInto (Wrapping.isBrokenInto_splitLine _ _ _) member
  · exact isFront_first_ofDim options text
  · exact isFront_first_ofPrint options fragment text
  · exact isFront_first_ofPrint options fragment text
  · exact IsFront.refl text

end Pieces

/-- Whether a placement is a remark behind a statement in the row of the statement. -/
def Placement.isJoined (options : Options) (placement : Placement) : Bool :=
  remarkForm placement.item.fragment = .plain && placement.item.isJoined options

theorem isJoined_eq_false_of_marksBehindNumber
    {options : Options} {placement : Placement}
    (marked : placement.item.marksBehindNumber options = true) :
    placement.isJoined options = false := by
  simp only [Item.marksBehindNumber, Bool.and_eq_true] at marked
  simp [Placement.isJoined, Item.isJoined, marked.1]

/-- The pieces in which a statement is laid out. -/
def Placement.pieces (setting : Setting) (placement : Placement) : Pieces :=
  Pieces.ofText setting.options placement.item.fragment (placement.text setting)

/-- A statement in a row of its own adds the rows of its pieces. -/
theorem rows_behind_of_not_isJoined
    {setting : Setting} {placement : Placement}
    (plain : remarkForm placement.item.fragment = .plain)
    (apart : placement.isJoined setting.options = false) :
    (placement.behind setting).rows =
      placement.before.rows ++ (placement.pieces setting).rows (placement.margin setting) := by
  have alone : placement.item.isJoined setting.options = false := by
    simpa [Placement.isJoined, plain] using apart
  rw [Placement.pieces, Placement.text, Placement.behind, layoutItem_of_plain plain, layoutText,
    alone]
  rfl

theorem beginsBehind_of_not_isJoined
    {setting : Setting} {placement : Placement}
    (apart : placement.isJoined setting.options = false) :
    ∃ rows, (placement.behind setting).rows = placement.before.rows ++ rows ∧
      BeginsBehind setting.options placement.item.fragment (placement.margin setting)
        (placement.text setting) rows := by
  cases form : remarkForm placement.item.fragment with
  | plain =>
      exact ⟨_, rows_behind_of_not_isJoined form apart,
        .plain form (Pieces.isFront_first_ofText _ _ _)⟩
  | code =>
      have word : "REM - Inline assembler @ $".toList =
          "REM ".toList ++ "- Inline assembler @ $".toList := rfl
      refine ⟨codeRows setting.disassembler setting.loadAddress (placement.margin setting)
        placement.item.fragment, ?_, ?_⟩
      · rw [Placement.behind, layoutItem, form]
        rfl
      · rw [codeRows, word]
        simp only [List.append_assoc]
        rw [← List.append_assoc (placement.margin setting)]
        exact .code form
  | prose =>
      refine ⟨_, ?_, .prose form⟩
      rw [Placement.behind, layoutItem, form]
      rfl

end Listing

open Listing

namespace Program

/-- Whether each statement in a row of its own begins at the column of its indentation. -/
def KeepsColumns (program : Program) (options : Options) (disassembler : Disassembler)
    (name : Text) : Prop :=
  ∀ placement ∈ program.placements options disassembler name,
    placement.isJoined options = false →
      (placement.margin (program.setting options disassembler)).length =
        placement.column options

instance (program : Program) (options : Options) (disassembler : Disassembler) (name : Text) :
    Decidable (program.KeepsColumns options disassembler name) :=
  inferInstanceAs (Decidable (∀ placement ∈ program.placements options disassembler name, _ → _))

/-- Whether the mark of each jump that is not the first fragment of its line stands in the first four
columns, and nothing but spaces between the mark and the statement. -/
def KeepsMarks (program : Program) (options : Options) (disassembler : Disassembler)
    (name : Text) : Prop :=
  ∀ placement ∈ program.placements options disassembler name,
    hasJumpMark options placement.item.fragment = true →
      ∃ gap, placement.margin (program.setting options disassembler) =
        jumpMark options placement.item.fragment ++ Text.spaces gap

theorem length_margin_of_mem_placements
    {program : Program} {options : Options} {disassembler : Disassembler} {name : Text}
    {placement : Placement} (member : placement ∈ program.placements options disassembler name) :
    (placement.margin (program.setting options disassembler)).length =
      if placement.item.marksBehindNumber options then max 16 (placement.column options)
      else placement.column options := by
  have width : placement.base.length + 2 = baseColumn options :=
    length_base_of_mem_placeLines member
  rw [← columnOf_indent]
  exact length_margin width placement.indent

/-- Where the statements of a listing begin. Each statement that is shown has a place in the
listing, at the indentation that the nesting of loops and conditions gives it. In a row of its own
it begins behind a margin up to the column of that indentation, unless the margin is the number of
the line with the mark of a jump behind it, which reaches up to column 16. In the rows behind the
first one of a line, marks have the first four columns only. So all columns are kept if and only if
jumps whose mark is behind a number are indented twice or more, and all marks are in the first
columns if and only if there are no such jumps. -/
theorem columns_of_statements
    (program : Program) (options : Options) (disassembler : Disassembler) (name : Text) :
    let setting := program.setting options disassembler
    let placements := program.placements options disassembler name
    placements.map Placement.item = program.lines.flatMap items ∧
      placements.map Placement.indent = lineIndents {} program.lines ∧
      (∀ placement ∈ placements,
        pageText (placement.above ++ (placement.behind setting).rows) <+:
            (program.list options disassembler name).text ∧
          (placement.isJoined options = false →
            ∃ rows, (placement.behind setting).rows = placement.before.rows ++ rows ∧
              BeginsBehind options placement.item.fragment (placement.margin setting)
                (placement.text setting) rows) ∧
          (placement.margin setting).length =
            (if placement.item.marksBehindNumber options then max 16 (placement.column options)
              else placement.column options) ∧
          (placement.item.leading = false →
            (placement.margin setting).drop 4 =
              Text.spaces (placement.column options - 4)) ∧
          (hasJumpMark options placement.item.fragment = true →
            ((placement.margin setting).drop (if placement.item.leading then 12 else 0)).take 4 =
              jumpMark options placement.item.fragment)) ∧
      (program.KeepsColumns options disassembler name ↔
        ∀ placement ∈ placements,
          placement.item.marksBehindNumber options = true → 2 ≤ placement.indent) ∧
      (program.KeepsMarks options disassembler name ↔
        ∀ placement ∈ placements, placement.item.marksBehindNumber options = false) := by
  intro setting placements
  have width {placement : Placement} (member : placement ∈ placements) :
      placement.base.length + 2 = baseColumn options :=
    length_base_of_mem_placeLines member
  refine ⟨map_item_placeLines program.lines, map_indent_placeLines program.lines, ?_, ?_, ?_⟩
  · intro placement member
    have begins : placement.isJoined setting.options = false → _ := beginsBehind_of_not_isJoined
    refine ⟨pageText_prefix_list_text member, begins, length_margin_of_mem_placements member, ?_,
      fun marked => take_drop_margin (width member) marked placement.indent⟩
    intro behind
    rw [← columnOf_indent]
    exact drop_margin behind placement.indent
  · have column {placement : Placement}
        (marked : placement.item.marksBehindNumber options = true) :
        placement.column options = 12 + 2 * placement.indent := by
      rw [Placement.column, if_pos (showTargets_of_marksBehindNumber marked)]
    constructor
    · intro keeps placement member marked
      have length := length_margin_of_mem_placements member
      rw [keeps placement member (isJoined_eq_false_of_marksBehindNumber marked), if_pos marked,
        column marked] at length
      omega
    · intro indented placement member _
      rw [length_margin_of_mem_placements member]
      by_cases marked : placement.item.marksBehindNumber options = true
      · have enough := indented placement member marked
        rw [if_pos marked, column marked]
        omega
      · rw [if_neg marked]
  · refine forall₂_congr fun placement member => ?_
    rw [Item.marksBehindNumber, Bool.and_eq_false_iff]
    cases marked : hasJumpMark options placement.item.fragment with
    | true =>
        rw [Bool.true_eq_false, or_false]
        exact (forall_prop_of_true rfl).trans
          (margin_eq_jumpMark_iff (width member) marked placement.indent)
    | false => exact iff_of_true nofun (.inr rfl)

/-- A jump behind a separator begins at column 16, although nothing is indented. -/
theorem not_keepsColumns_of_separator :
    let options : Options := { showHeader := false, showTargets := true }
    let program := decode (encode 0x801 [(10, [0x3A, 0xAB, 0x31, 0x30, 0x30])])
    (program.list options Machine.listing []).text = "        10   <--GOTO 100".toList ∧
      ¬ program.KeepsColumns options Machine.listing [] := by
  decide +kernel

end Program

end Applesoft
