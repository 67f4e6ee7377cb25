import Mathlib.Data.List.Basic
import Applesoft.Listing.Page

namespace Applesoft.Listing

/-- Whether rows have only been added to: behind the last one, or below it. -/
def Grows (rows grown : List Text) : Prop :=
  ∀ front last, rows = front ++ [last] →
    ∃ more below, grown = front ++ (last ++ more) :: below

namespace Grows

theorem append (rows below : List Text) : Grows rows (rows ++ below) := by
  intro front last shape
  exact ⟨[], below, by simp [shape]⟩

theorem refl (rows : List Text) : Grows rows rows := by
  simpa using append rows []

theorem trans
    {rows grown more : List Text} (early : Grows rows grown) (late : Grows grown more) :
    Grows rows more := by
  intro front last shape
  obtain ⟨added, below, shapeGrown⟩ := early front last shape
  rcases List.eq_nil_or_concat below with rfl | ⟨between, lowest, rfl⟩
  · obtain ⟨addedLater, belowLater, shapeMore⟩ := late _ _ shapeGrown
    exact ⟨added ++ addedLater, belowLater, by rw [shapeMore, List.append_assoc]⟩
  · obtain ⟨addedLater, belowLater, shapeMore⟩ :=
      late (front ++ (last ++ added) :: between) lowest (by simp [shapeGrown])
    exact ⟨added, between ++ (lowest ++ addedLater) :: belowLater, by simp [shapeMore]⟩

theorem behind
    {rows grown : List Text} (above : List Text) (grows : Grows rows grown) :
    Grows (above ++ rows) (above ++ grown) := by
  intro front last shape
  rcases List.eq_nil_or_concat rows with rfl | ⟨others, lowest, rfl⟩
  · rw [List.append_nil] at shape
    exact ⟨[], grown, by simp [shape]⟩
  · rw [List.concat_eq_append] at grows shape
    obtain ⟨added, below, shapeGrown⟩ := grows others lowest rfl
    rw [← List.append_assoc] at shape
    obtain ⟨rfl, same⟩ := List.append_inj' shape rfl
    injection same with same
    exact ⟨added, below, by simp [shapeGrown, same]⟩

theorem join (rows : List Text) (pieces : Pieces) : Grows rows (pieces.join rows) := by
  rintro front last rfl
  refine ⟨' ' :: pieces.first,
    pieces.others.map fun piece => Text.spaces (last ++ [' ']).length ++ piece, ?_⟩
  simp [Pieces.join, Pieces.rows]

end Grows

theorem prefix_dropTrailing_append
    (dropped : Char → Bool) (front behind : Text) :
    Text.dropTrailing dropped front <+: Text.dropTrailing dropped (front ++ behind) := by
  obtain ⟨ending, whole, _⟩ := Text.exists_dropTrailing_append dropped front
  rw [Text.dropTrailing, Text.dropTrailing, List.reverse_append, List.dropWhile_append]
  split
  · exact List.prefix_rfl
  · rw [List.reverse_append, List.reverse_reverse]
    refine List.IsPrefix.trans ?_ (List.prefix_append front _)
    exact ⟨ending, whole.symm⟩

/-- A page begins with the rows that have grown to it. -/
theorem prefix_pageText_of_grows
    {rows page : List Text} (grows : Grows rows page) : pageText rows <+: pageText page := by
  rcases List.eq_nil_or_concat rows with rfl | ⟨front, last, rfl⟩
  · exact List.nil_prefix
  · rw [List.concat_eq_append] at grows ⊢
    obtain ⟨more, below, rfl⟩ := grows front last rfl
    have upTo : pageText (front ++ [last]) =
        Text.dropTrailing (· = '\n') ((front.flatMap fun row => row ++ ['\n']) ++ last) := by
      rw [pageText, List.flatMap_append, Text.dropTrailing, Text.dropTrailing]
      simp
    have whole : ((front ++ (last ++ more) :: below).flatMap fun row => row ++ ['\n']) =
        (front.flatMap fun row => row ++ ['\n']) ++ last ++
          (more ++ '\n' :: below.flatMap fun row => row ++ ['\n']) := by
      simp
    rw [upTo, pageText, whole]
    exact prefix_dropTrailing_append _ _ _

theorem pageText_concat
    {last : Char} (visible : last ≠ '\n') (above : List Text) (front : Text) :
    pageText (above ++ [front ++ [last]]) =
      (above.flatMap fun row => row ++ ['\n']) ++ (front ++ [last]) := by
  simp [pageText, Text.dropTrailing, visible]

theorem map_fragment_itemsFrom
    (leading conditional : Bool) (fragments : List Fragment) :
    (itemsFrom leading conditional fragments).map Item.fragment = fragments := by
  induction fragments generalizing leading conditional with
  | nil => rfl
  | cons fragment rest hypothesis => rw [itemsFrom, List.map_cons, hypothesis]

theorem mem_fragments_of_mem_items {line : Line} {item : Item} (member : item ∈ items line) :
    item.fragment ∈ line.fragments := by
  have shown : item.fragment ∈ line.visible := by
    rw [← map_fragment_itemsFrom true false line.visible]
    exact List.mem_map_of_mem member
  exact (List.mem_filter.1 shown).1

/-- An item in its place. -/
structure Placement where
  item : Item
  /-- The items behind it in its line. -/
  later : List Item
  /-- The lines behind its line. -/
  following : List Line
  /-- What stands before the statements of its line. -/
  base : Text
  /-- The rows above its line. -/
  above : List Text
  /-- How far the layout has come before it. -/
  before : Progress

namespace Placement

/-- How far the layout has come behind an item. -/
def behind (setting : Setting) (placement : Placement) : Progress :=
  layoutItem setting placement.base placement.item placement.later placement.following
    placement.before

def margin (setting : Setting) (placement : Placement) : Text :=
  Listing.margin setting.options placement.base placement.item
    (placement.before.nesting.enter placement.item.fragment.statement).indent

end Placement

def Progress.startLine (progress : Progress) : Progress where
  nesting := progress.nesting.startLine
  column := progress.column

def Progress.enter (item : Item) (progress : Progress) : Progress :=
  { progress with nesting := progress.nesting.enter item.fragment.statement }

/-- The column that is passed on behind the last item of a line. -/
def Progress.columnBehindLine (progress : Progress) : Nat :=
  if progress.nesting.inCondition then 0 else progress.column

/-- The items of a line in their places, behind those before them. -/
def placeItems (setting : Setting) (base : Text) (following : List Line)
    (above : List Text) : List Item → Progress → List Placement
  | [], _ => []
  | item :: later, progress =>
      ⟨item, later, following, base, above, progress⟩ ::
        placeItems setting base following above later
          (layoutItem setting base item later following progress)

/-- The items of lines in their places, below some rows. -/
def placeLines (setting : Setting) :
    List Text → List Line → Progress → List Placement
  | _, [], _ => []
  | above, line :: following, progress =>
      let finished := layoutLine setting line following progress
      placeItems setting (lineBase setting.options setting.symbols line) following above
          (items line) progress.startLine ++
        placeLines setting (above ++ finished.rows) following finished

section Rows

variable {setting : Setting} {base : Text} {following : List Line} {above : List Text}
  {progress : Progress} {placement : Placement}

theorem layoutItem_of_plain
    {item : Item} {later : List Item} (plain : remarkForm item.fragment = .plain) :
    layoutItem setting base item later following progress =
      layoutText setting.options base item later following (progress.enter item) := by
  rw [layoutItem, plain]
  rfl

/-- A remark that is not shown as a text adds rows, and changes nothing else. -/
theorem layoutItem_of_not_plain
    {item : Item} (later : List Item) (notPlain : remarkForm item.fragment ≠ .plain) :
    ∃ rows, layoutItem setting base item later following progress =
      { progress.enter item with rows := progress.rows ++ rows } := by
  rw [layoutItem]
  cases form : remarkForm item.fragment with
  | code => exact ⟨_, rfl⟩
  | prose => exact ⟨_, rfl⟩
  | plain => exact absurd form notPlain

theorem grows_layoutItem (item : Item) (later : List Item) :
    Grows progress.rows (layoutItem setting base item later following progress).rows := by
  by_cases plain : remarkForm item.fragment = .plain
  · rw [layoutItem_of_plain plain, layoutText]
    cases item.isJoined setting.options with
    | true => exact Grows.join _ _
    | false => exact Grows.append _ _
  · obtain ⟨rows, shape⟩ := layoutItem_of_not_plain later plain
    rw [shape]
    exact Grows.append _ _

theorem grows_layoutItems (items : List Item) :
    Grows progress.rows (layoutItems setting base following items progress).rows := by
  induction items generalizing progress with
  | nil => exact Grows.refl _
  | cons item later hypothesis =>
      exact (grows_layoutItem item later).trans hypothesis

theorem grows_of_mem_placeItems
    {items : List Item}
    (member : placement ∈ placeItems setting base following above items progress) :
    placement.above = above ∧
      Grows (placement.behind setting).rows
        (layoutItems setting base following items progress).rows := by
  induction items generalizing progress with
  | nil => simp [placeItems] at member
  | cons item later hypothesis =>
      rw [placeItems, List.mem_cons] at member
      rcases member with rfl | further
      · exact ⟨rfl, grows_layoutItems later⟩
      · exact hypothesis further

theorem grows_layoutLine (line : Line) (nonempty : items line ≠ []) :
    Grows
      (layoutItems setting (lineBase setting.options setting.symbols line) following
        (items line) progress.startLine).rows
      (layoutLine setting line following progress).rows := by
  have shown : (items line).isEmpty = false := by simpa using nonempty
  rw [layoutLine]
  simp only [shown, Bool.false_eq_true, if_false]
  split
  · exact Grows.append _ _
  · exact Grows.refl _

/-- The rows up to an item are only added to by what comes behind it. -/
theorem grows_of_mem_placeLines
    {lines : List Line}
    (member : placement ∈ placeLines setting above lines progress) :
    Grows (placement.above ++ (placement.behind setting).rows)
      (above ++ (layoutLines setting lines progress).flatMap Prod.fst) := by
  induction lines generalizing above progress with
  | nil => simp [placeLines] at member
  | cons line following hypothesis =>
      rw [placeLines, List.mem_append] at member
      rw [layoutLines, List.flatMap_cons, ← List.append_assoc]
      rcases member with here | further
      · have nonempty : items line ≠ [] := by
          intro none
          simp [none, placeItems] at here
        obtain ⟨same, grows⟩ := grows_of_mem_placeItems here
        rw [same]
        exact ((grows.trans (grows_layoutLine line nonempty)).behind above).trans
          (Grows.append _ _)
      · exact hypothesis further

end Rows

/-- Whether an IF stands in the line of an item, up to the item itself. -/
def Item.endsConditional (item : Item) : Bool :=
  item.conditional || item.fragment.isCondition

/-- Whether placements are what comes behind one of them. -/
structure Placement.IsFollowedBy (setting : Setting) (placement : Placement)
    (rest : List Placement) : Prop where
  items : rest.map item = placement.later ++ placement.following.flatMap Listing.items
  later : ∃ fragments,
    placement.later = itemsFrom false placement.item.endsConditional fragments
  conditional : ∀ next ∈ rest.head?, next.item.conditional =
    (!next.item.leading && placement.item.endsConditional)
  column : ∀ next ∈ rest.head?, next.before.column =
    if next.item.leading && placement.item.endsConditional then 0
    else (placement.behind setting).column

/-- Whether each placement is followed by those behind it. -/
def InOrder (setting : Setting) : List Placement → Prop
  | [] => True
  | placement :: rest => placement.IsFollowedBy setting rest ∧ InOrder setting rest

theorem InOrder.of_append
    {setting : Setting} {front rest : List Placement}
    (inOrder : InOrder setting (front ++ rest)) :
    InOrder setting rest := by
  induction front with
  | nil => exact inOrder
  | cons placement others hypothesis => exact hypothesis inOrder.2

theorem inCondition_enter (statement : Statement) (nesting : Nesting) :
    (nesting.enter statement).inCondition = nesting.inCondition := by
  cases statement with
  | next names =>
      simp only [Nesting.enter]
      split
      · rfl
      · rfl
  | _ => rfl

theorem inCondition_leave (statement : Statement) (nesting : Nesting) :
    (nesting.leave statement).inCondition =
      (nesting.inCondition || decide (statement = .condition)) := by
  cases statement with
  | condition => simp [Nesting.leave, Nesting.inCondition]
  | forLoop name =>
      simp only [reduceCtorEq, decide_false, Bool.or_false]
      rfl
  | _ => simp only [Nesting.leave, reduceCtorEq, decide_false, Bool.or_false]

theorem remarkForm_eq_plain_of_isCondition
    {fragment : Fragment} (condition : fragment.isCondition = true) :
    remarkForm fragment = .plain := by
  have statement : fragment.statement = .condition := by
    simpa [Fragment.isCondition] using condition
  simp [remarkForm, Fragment.isRemark, statement]

section Order

variable {setting : Setting} {base : Text} {following : List Line} {above : List Text}
  {progress : Progress}

theorem inCondition_layoutItem (item : Item) (later : List Item) :
    (layoutItem setting base item later following progress).nesting.inCondition =
      (progress.nesting.inCondition || item.fragment.isCondition) := by
  by_cases plain : remarkForm item.fragment = .plain
  · rw [layoutItem_of_plain plain]
    change (((progress.enter item).nesting).leave item.fragment.statement).inCondition = _
    rw [inCondition_leave, Progress.enter, inCondition_enter, Fragment.isCondition]
  · have noCondition : item.fragment.isCondition = false := by
      cases condition : item.fragment.isCondition with
      | false => rfl
      | true => exact absurd (remarkForm_eq_plain_of_isCondition condition) plain
    obtain ⟨rows, shape⟩ := layoutItem_of_not_plain later plain
    rw [shape, noCondition, Bool.or_false]
    exact inCondition_enter _ _

theorem map_item_placeItems (items : List Item) :
    (placeItems setting base following above items progress).map Placement.item = items := by
  induction items generalizing progress with
  | nil => rfl
  | cons item later hypothesis => rw [placeItems, List.map_cons, hypothesis]

theorem map_item_placeLines (lines : List Line) :
    (placeLines setting above lines progress).map Placement.item = lines.flatMap items := by
  induction lines generalizing above progress with
  | nil => rfl
  | cons line following hypothesis =>
      rw [placeLines, List.map_append, map_item_placeItems, hypothesis, List.flatMap_cons]

theorem inOrder_placeItems
    {leading conditional : Bool} {fragments : List Fragment} {rest : List Placement}
    (inOrder : InOrder setting rest)
    (behind : rest.map Placement.item = following.flatMap items)
    (condition : progress.nesting.inCondition = conditional)
    (first : ∀ next ∈ rest.head?, next.item.leading = true ∧
      next.item.conditional = false ∧
      next.before.column =
        (layoutItems setting base following (itemsFrom leading conditional fragments)
          progress).columnBehindLine) :
    InOrder setting
      (placeItems setting base following above (itemsFrom leading conditional fragments)
        progress ++ rest) := by
  induction fragments generalizing leading conditional progress with
  | nil => exact inOrder
  | cons fragment others hypothesis =>
      rw [itemsFrom] at first ⊢
      rw [placeItems, List.cons_append]
      let item : Item := ⟨fragment, leading, conditional⟩
      let later := itemsFrom false item.endsConditional others
      have conditionBehind :
          (layoutItem setting base item later following progress).nesting.inCondition =
            item.endsConditional := by
        rw [inCondition_layoutItem, condition]
        rfl
      refine ⟨?_, hypothesis conditionBehind first⟩
      refine
        { items := by rw [List.map_append, map_item_placeItems, behind]
          later := ⟨others, rfl⟩
          conditional := ?_
          column := ?_ }
      · cases others with
        | nil =>
            intro next member
            obtain ⟨begins, free, _⟩ := first next member
            rw [begins, free]
            rfl
        | cons other others =>
            rintro next ⟨⟩
            rfl
      · cases others with
        | nil =>
            intro next member
            obtain ⟨begins, _, column⟩ := first next member
            rw [begins, column, Bool.true_and, ← conditionBehind]
            rfl
        | cons other others =>
            rintro next ⟨⟩
            rfl

/-- The first item behind a place begins a line, and the column there is the one before it. -/
theorem first_placeLines
    {lines : List Line} {next : Placement}
    (member : next ∈ (placeLines setting above lines progress).head?) :
    next.item.leading = true ∧ next.item.conditional = false ∧
      next.before.column = progress.column := by
  induction lines generalizing above progress with
  | nil => simp [placeLines] at member
  | cons line following hypothesis =>
      rw [placeLines] at member
      cases visible : line.visible with
      | nil =>
          have none : items line = [] := by rw [items, visible, itemsFrom]
          rw [none, placeItems, List.nil_append] at member
          obtain ⟨begins, free, column⟩ := hypothesis member
          refine ⟨begins, free, column.trans ?_⟩
          rw [layoutLine, none]
          rfl
      | cons fragment others =>
          have some : items line =
              ⟨fragment, true, false⟩ :: itemsFrom false fragment.isCondition others := by
            rw [items, visible, itemsFrom, Bool.false_or]
          rw [some] at member
          cases member
          exact ⟨rfl, rfl, rfl⟩

theorem inOrder_placeLines (lines : List Line) :
    InOrder setting (placeLines setting above lines progress) := by
  induction lines generalizing above progress with
  | nil => trivial
  | cons line following hypothesis =>
      rw [placeLines]
      refine inOrder_placeItems hypothesis (map_item_placeLines following) rfl ?_
      intro next member
      obtain ⟨begins, free, column⟩ := first_placeLines member
      exact ⟨begins, free, column⟩

end Order

theorem grows_addSection (page rows : List Text) : Grows page (addSection page rows) := by
  rw [addSection]
  split
  · exact Grows.refl page
  · split
    · next empty =>
        rw [List.isEmpty_iff] at empty
        intro front last shape
        simp [empty] at shape
    · split
      · exact Grows.append page rows
      · exact Grows.append page ([] :: rows)

theorem grows_foldl_addSection (sections : List (List Text)) (page : List Text) :
    Grows page (sections.foldl addSection page) := by
  induction sections generalizing page with
  | nil => exact Grows.refl page
  | cons rows others hypothesis =>
      exact (grows_addSection page rows).trans (hypothesis (addSection page rows))

end Applesoft.Listing

namespace Applesoft.Program

open Listing

/-- What the rows of a program depend on, for some options. -/
def setting (program : Program) (options : Options) (disassembler : Disassembler) : Setting where
  options := options
  disassembler := disassembler
  symbols := program.symbols
  loadAddress := program.loadAddress

/-- The items of a program in their places in its listing. -/
def placements (program : Program) (options : Options) (disassembler : Disassembler)
    (name : Text) : List Placement :=
  placeLines (program.setting options disassembler)
    (if options.showHeader then headerRows program name else []) program.lines {}

/-- The listing begins with the rows up to an item. -/
theorem pageText_prefix_list_text
    {program : Program} {options : Options} {disassembler : Disassembler} {name : Text}
    {placement : Placement}
    (member : placement ∈ program.placements options disassembler name) :
    pageText (placement.above ++
        (placement.behind (program.setting options disassembler)).rows) <+:
      (program.list options disassembler name).text := by
  refine prefix_pageText_of_grows ((grows_of_mem_placeLines member).trans ?_)
  exact (Grows.append _ (extraRows program)).trans (grows_foldl_addSection _ _)

theorem prefix_list_text
    {program : Program} {options : Options} {disassembler : Disassembler} {name : Text}
    {placement : Placement} {rows : List Text} {front : Text} {last : Char}
    (member : placement ∈ program.placements options disassembler name)
    (shape : (placement.behind (program.setting options disassembler)).rows =
      rows ++ [front ++ [last]])
    (visible : last ≠ '\n') :
    ((placement.above ++ rows).flatMap fun row => row ++ ['\n']) ++ (front ++ [last]) <+:
      (program.list options disassembler name).text := by
  have upTo := pageText_prefix_list_text member
  rwa [shape, ← List.append_assoc, pageText_concat visible] at upTo

end Applesoft.Program
