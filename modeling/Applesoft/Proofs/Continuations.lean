import Applesoft.Proofs.ListingInk
import Applesoft.Proofs.Margins
import Applesoft.Proofs.Partition

/-!
Where statements go on. A statement in pieces has its first piece at some column of its row, and
each other piece in a row of its own below that column.

The column is that of the listing as it is printed, up to the piece. It depends on two facts about
all that has been laid out before. No row of a line has a line feed inside when another statement
follows, since only a remark could have one and a remark ends its line. And a remark is only joined
behind a statement of its own line, which has printed the number of the line.

The main statement gives what each statement adds to the listing, character by character.
-/

namespace Applesoft

namespace Text

/-- The column that is reached behind a text: the length of its last row. -/
def column (text : Text) : Nat :=
  (text.reverse.takeWhile (· ≠ '\n')).length

/-- Behind whole rows, the column is that of the text behind them. -/
theorem column_append
    {above row : Text} (ends : ∀ last ∈ above.getLast?, last = '\n') (noNewline : '\n' ∉ row) :
    column (above ++ row) = row.length := by
  rw [column, List.reverse_append, takeWhile_append_of_head?, List.length_reverse]
  · intro character member
    rw [decide_eq_true_eq]
    rintro rfl
    exact noNewline (List.mem_reverse.1 member)
  · intro last member
    rw [List.head?_reverse] at member
    rw [decide_eq_false_iff_not, not_not]
    exact ends last member

theorem newline_notMem_spaces (count : Nat) : '\n' ∉ spaces count := by
  intro member
  exact absurd (List.eq_of_mem_replicate member) (by decide)

end Text

open Text (newline_notMem_spaces)

namespace Wrapping

theorem IsBrokenInto.newline_notMem
    {width floor : Nat} {breaker : Char} {text : Text} {pieces : List Text}
    (broken : IsBrokenInto width breaker floor text pieces) (noNewline : '\n' ∉ text) :
    ∀ piece ∈ pieces, '\n' ∉ piece := by
  induction broken with
  | whole _ => simpa using noNewline
  | broken _ _ _ hypothesis =>
      rw [List.forall_mem_cons]
      refine ⟨fun member => noNewline (List.mem_of_mem_take member), hypothesis ?_⟩
      rw [List.mem_append, not_or]
      exact ⟨newline_notMem_spaces _, fun member => noNewline (List.mem_of_mem_drop member)⟩

theorem Hangs.newline_notMem
    {indent : Nat} {line : Text} {pieces : List Text} (hangs : Hangs indent line pieces)
    (noNewline : '\n' ∉ line) :
    ∀ piece ∈ pieces, '\n' ∉ piece := by
  cases hangs with
  | @intro lead first others _ =>
      rw [List.flatten_cons, List.mem_append, List.mem_append, not_or, not_or] at noNewline
      obtain ⟨noLead, noFirst, noOthers⟩ := noNewline
      rw [List.forall_mem_cons]
      refine ⟨?_, ?_⟩
      · rw [List.mem_append, not_or]
        exact ⟨noLead, noFirst⟩
      · intro piece member
        obtain ⟨part, partMember, rfl⟩ := List.mem_map.1 member
        rw [List.mem_append, not_or]
        exact ⟨newline_notMem_spaces indent, fun inPart =>
          noOthers (List.mem_flatten.2 ⟨part, partMember, inPart⟩)⟩

end Wrapping

namespace Listing

theorem newline_notMem_replaceFirst
    {pattern replacement text : Text} (newReplacement : '\n' ∉ replacement)
    (noNewline : '\n' ∉ text) :
    '\n' ∉ replaceFirst pattern replacement text := by
  induction text with
  | nil => exact List.not_mem_nil
  | cons character rest hypothesis =>
      rw [replaceFirst]
      split
      · rw [List.mem_append, not_or]
        exact ⟨newReplacement, fun member => noNewline (List.mem_of_mem_drop member)⟩
      · rw [List.mem_cons, not_or] at noNewline ⊢
        exact ⟨noNewline.1, hypothesis noNewline.2⟩

theorem newline_notMem_alignedText (options : Options) (column : Nat) (fragment : Fragment) :
    '\n' ∉ alignedText options column fragment := by
  have text := (fragment.isPlain_text options).newline_notMem
  unfold alignedText
  simp only
  split
  · rw [List.mem_append, List.mem_append, not_or, not_or]
    exact ⟨⟨fun member => text (List.mem_of_mem_take member), newline_notMem_spaces _⟩,
      fun member => text (List.mem_of_mem_drop member)⟩
  · exact text

theorem newline_notMem_statementText (options : Options) (column : Nat) (fragment : Fragment) :
    '\n' ∉ statementText options column fragment := by
  unfold statementText
  split
  · simp only
    split
    · exact newline_notMem_replaceFirst (by decide) (newline_notMem_alignedText _ _ _)
    · exact newline_notMem_alignedText _ _ _
  · simp only
    split
    · exact newline_notMem_replaceFirst (by decide) (newline_notMem_alignedText _ _ _)
    · exact newline_notMem_alignedText _ _ _
  · exact newline_notMem_alignedText _ _ _

namespace Pieces

/-- The pieces of a statement, the first one included. -/
def all (pieces : Pieces) : List Text :=
  pieces.first :: pieces.others

section NoNewline

variable {text : Text} (noNewline : '\n' ∉ text)
include noNewline

theorem newline_notMem_ofList
    {anomalies : List Anomaly} {list : List Text} (free : ∀ piece ∈ list, '\n' ∉ piece) :
    ∀ piece ∈ (ofList text anomalies list).all, '\n' ∉ piece := by
  cases list with
  | nil => simpa [ofList, all] using noNewline
  | cons first others => exact free

theorem newline_notMem_whole : ∀ piece ∈ (whole text).all, '\n' ∉ piece := by
  simpa [whole, all] using noNewline

theorem newline_notMem_ofDim (options : Options) :
    ∀ piece ∈ (ofDim options text).all, '\n' ∉ piece := by
  unfold ofDim
  split
  · split
    · next pieces found =>
        exact newline_notMem_ofList noNewline
          ((Wrapping.hangs_of_splitDim found).newline_notMem noNewline)
    · exact newline_notMem_whole noNewline
  · exact newline_notMem_whole noNewline

theorem newline_notMem_ofPrint (options : Options) (fragment : Fragment) :
    ∀ piece ∈ (ofPrint options fragment text).all, '\n' ∉ piece := by
  unfold ofPrint
  split
  · split
    · next pieces found =>
        exact newline_notMem_ofList noNewline
          ((Wrapping.hangs_of_splitPrint found).newline_notMem noNewline)
    · exact newline_notMem_whole noNewline
  · exact newline_notMem_whole noNewline

theorem newline_notMem_ofText (options : Options) (fragment : Fragment) :
    ∀ piece ∈ (ofText options fragment text).all, '\n' ∉ piece := by
  unfold ofText
  split
  · exact newline_notMem_ofList noNewline
      ((Wrapping.isBrokenInto_splitLine _ _ _).newline_notMem noNewline)
  · exact newline_notMem_ofList noNewline
      ((Wrapping.isBrokenInto_splitLine _ _ _).newline_notMem noNewline)
  · exact newline_notMem_ofDim noNewline options
  · exact newline_notMem_ofPrint noNewline options fragment
  · exact newline_notMem_ofPrint noNewline options fragment
  · exact newline_notMem_whole noNewline

end NoNewline

end Pieces

theorem newline_notMem_padLeft
    {width : Nat} {fill : Char} {text : Text} (noFill : fill ≠ '\n') (noNewline : '\n' ∉ text) :
    '\n' ∉ Text.padLeft width fill text := by
  rw [Text.padLeft, List.mem_append, not_or]
  exact ⟨fun member => noFill (List.eq_of_mem_replicate member).symm, noNewline⟩

theorem newline_notMem_numberText (options : Options) (symbols : Symbols) (number : UInt16) :
    '\n' ∉ numberText options symbols number := by
  unfold numberText
  split
  · exact newline_notMem_spaces 5
  · refine newline_notMem_padLeft (by decide) fun member => ?_
    have digit : '\n'.isDigit = true :=
      Nat.isDigit_of_mem_toDigits (by decide) (by decide) member
    exact absurd digit (by decide)

theorem newline_notMem_lineBase (options : Options) (symbols : Symbols) (line : Line) :
    '\n' ∉ lineBase options symbols line := by
  have source (jump : Option JumpKind) (isTarget : Bool) :
      '\n' ∉ sourceMark jump isTarget := by
    unfold sourceMark
    split
    · decide
    · decide
    · split <;> decide
  have target (jump : Option JumpKind) (isGotoTarget isGosubTarget : Bool) :
      '\n' ∉ targetMark jump isGotoTarget isGosubTarget := by
    unfold targetMark
    split
    · decide
    · split
      · decide
      · split <;> decide
  have number : '\n' ∉ ' ' :: numberText options symbols line.number := by
    rw [List.mem_cons, not_or]
    exact ⟨by decide, newline_notMem_numberText options symbols line.number⟩
  unfold lineBase
  simp only
  split
  · rw [List.mem_append, List.mem_append, not_or, not_or]
    exact ⟨⟨source _ _, target _ _ _⟩, number⟩
  · exact number

theorem newline_notMem_jumpMark (options : Options) (fragment : Fragment) :
    '\n' ∉ jumpMark options fragment := by
  unfold jumpMark
  split
  · split
    · decide
    · decide
    · exact List.not_mem_nil
  · exact List.not_mem_nil

theorem newline_notMem_margin
    {base : Text} (noNewline : '\n' ∉ base) (options : Options) (item : Item) (indent : Nat) :
    '\n' ∉ margin options base item indent := by
  rw [margin, Text.padRight, List.mem_append, List.mem_append, not_or, not_or]
  refine ⟨⟨?_, newline_notMem_jumpMark options item.fragment⟩, newline_notMem_spaces _⟩
  split
  · rw [List.mem_append, not_or]
    exact ⟨noNewline, by decide⟩
  · exact List.not_mem_nil

theorem pairwise_of_tiles
    {start stop : Nat} {fragments : List Fragment} {marked : Fragment → Bool}
    (tiles : Tiles start stop (fragments.map Line.span))
    (ends : ∀ fragment ∈ fragments, marked fragment = true → fragment.stop = stop) :
    fragments.Pairwise fun left _ => marked left = false := by
  induction fragments generalizing start with
  | nil => exact .nil
  | cons fragment rest hypothesis =>
      obtain ⟨_, _, behind⟩ := tiles
      rw [List.forall_mem_cons] at ends
      refine .cons ?_ (hypothesis behind ends.2)
      intro later member
      by_contra isMarked
      rw [Bool.not_eq_false] at isMarked
      -- Nothing fits behind a fragment that reaches the end.
      obtain ⟨next, others, rfl⟩ := List.exists_cons_of_ne_nil (List.ne_nil_of_mem member)
      obtain ⟨begins, forward, further⟩ := behind
      have reaches : fragment.stop = stop := ends.1 isMarked
      have within := further.le
      change next.start = fragment.stop at begins
      change fragment.stop < next.stop at forward
      change next.stop ≤ stop at within
      omega

theorem pairwise_fragments (record : Record) :
    (Line.ofRecord record).fragments.Pairwise fun left _ => left.isRemark = false := by
  have tiles : Tiles record.payloadStart (record.payloadStart + record.payload.length)
      ((Line.ofRecord record).fragments.map Line.span) :=
    tiles_placeSegments (Payload.runBetweenBoundaries_divide record.payload)
  refine pairwise_of_tiles tiles fun fragment member remark => ?_
  obtain ⟨start, stop, placed⟩ := Payload.isStatement_of_mem_fragments member
  rw [placed.stop_eq, placed.stop_eq_length_of_isRemark remark]

/-- Rows as they are printed, each with a line feed behind it. -/
def printed (rows : List Text) : Text :=
  rows.flatMap fun row => row ++ ['\n']

theorem printed_append (above below : List Text) :
    printed (above ++ below) = printed above ++ printed below :=
  List.flatMap_append

theorem printed_singleton (row : Text) : printed [row] = row ++ ['\n'] :=
  List.append_nil _

/-- Whether a text is empty or ends with a line feed. -/
def EndsRow (text : Text) : Prop :=
  ∀ last ∈ text.getLast?, last = '\n'

theorem endsRow_printed (rows : List Text) : EndsRow (printed rows) := by
  rcases List.eq_nil_or_concat' rows with rfl | ⟨front, last, rfl⟩
  · simp [EndsRow, printed]
  · rw [printed_append, printed_singleton, ← List.append_assoc]
    simp [EndsRow]

namespace Pieces

/-- Pieces one below the other, the later ones in rows of their own behind spaces up to a
column. -/
def below (column : Nat) (pieces : Pieces) : Text :=
  pieces.first ++ pieces.others.flatMap fun piece => '\n' :: (Text.spaces column ++ piece)

theorem printed_rows (margin : Text) (pieces : Pieces) :
    printed (pieces.rows margin) = margin ++ pieces.below margin.length ++ ['\n'] := by
  have lines (first : Text) (others : List Text) :
      printed (first :: others) = first ++ others.flatMap (fun row => '\n' :: row) ++ ['\n'] := by
    induction others generalizing first with
    | nil => simp [printed]
    | cons next rest hypothesis =>
        rw [printed, List.flatMap_cons, ← printed, hypothesis]
        simp
  rw [rows, lines, below, List.flatMap_map]
  simp

end Pieces

namespace Placement

/-- What is printed before an item. -/
def output (placement : Placement) : Text :=
  printed (placement.above ++ placement.before.rows)

/-- What is printed up to the end of an item. -/
def outputBehind (setting : Setting) (placement : Placement) : Text :=
  printed (placement.above ++ (placement.behind setting).rows)

/-- What stands before the first piece of a statement: the output and a margin, or the output
without its last line feed and a space. -/
def lead (setting : Setting) (placement : Placement) : Text :=
  if placement.isJoined setting.options then
    placement.output.dropLast ++ [' ']
  else
    placement.output ++ placement.margin setting

/-- Whether the rows of the line before an item are whole: there are some unless the item is the
first of its line, and none has a line feed inside. -/
structure IsBehindRows (placement : Placement) : Prop where
  base : '\n' ∉ placement.base
  rows : ∀ row ∈ placement.before.rows, '\n' ∉ row
  begun : placement.item.leading = false → placement.before.rows ≠ []

theorem leading_of_isJoined
    {options : Options} {placement : Placement} (joined : placement.isJoined options = true) :
    placement.item.leading = false := by
  simp only [Placement.isJoined, Item.isJoined, Bool.and_eq_true, Bool.not_eq_true'] at joined
  exact joined.2.2

end Placement

section Layout

variable {setting : Setting} {base : Text} {following : List Line} {above : List Text}
  {progress : Progress} {placement : Placement}

theorem remarkForm_eq_plain_of_not_isRemark
    {fragment : Fragment} (noRemark : fragment.isRemark = false) :
    remarkForm fragment = .plain := by
  rw [remarkForm, noRemark]
  rfl

theorem rows_behind_of_isJoined
    (joined : placement.isJoined setting.options = true) :
    (placement.behind setting).rows = (placement.pieces setting).join placement.before.rows := by
  simp only [Placement.isJoined, Bool.and_eq_true, decide_eq_true_eq] at joined
  obtain ⟨plain, behind⟩ := joined
  rw [Placement.pieces, Placement.text, Placement.behind, layoutItem_of_plain plain, layoutText,
    behind]
  rfl

theorem newline_notMem_rows
    {margin : Text} {pieces : Pieces} (noMargin : '\n' ∉ margin)
    (noPieces : ∀ piece ∈ pieces.all, '\n' ∉ piece) :
    ∀ row ∈ pieces.rows margin, '\n' ∉ row := by
  rw [Pieces.all, List.forall_mem_cons] at noPieces
  rw [Pieces.rows, List.forall_mem_cons]
  refine ⟨?_, ?_⟩
  · rw [List.mem_append, not_or]
    exact ⟨noMargin, noPieces.1⟩
  · intro row member
    obtain ⟨piece, pieceMember, rfl⟩ := List.mem_map.1 member
    rw [List.mem_append, not_or]
    exact ⟨newline_notMem_spaces _, noPieces.2 piece pieceMember⟩

theorem newline_notMem_pieces (setting : Setting) (placement : Placement) :
    ∀ piece ∈ (placement.pieces setting).all, '\n' ∉ piece :=
  Pieces.newline_notMem_ofText (newline_notMem_statementText _ _ _) _ _

/-- A statement that is no remark adds rows below those before it, none of which has a line feed
inside. -/
theorem exists_rows_layoutItem
    (setting : Setting) (item : Item) (later : List Item) (following : List Line)
    (progress : Progress) (noRemark : item.fragment.isRemark = false) (noBase : '\n' ∉ base) :
    ∃ rows, (layoutItem setting base item later following progress).rows =
        progress.rows ++ rows ∧ rows ≠ [] ∧ ∀ row ∈ rows, '\n' ∉ row := by
  have apart : item.isJoined setting.options = false := by simp [Item.isJoined, noRemark]
  have shape := @rows_behind_of_not_isJoined setting
    ⟨item, later, following, base, [], progress⟩
    (remarkForm_eq_plain_of_not_isRemark noRemark) (by simp [Placement.isJoined, apart])
  exact ⟨_, shape, List.cons_ne_nil _ _, newline_notMem_rows
    (newline_notMem_margin noBase _ _ _) (newline_notMem_pieces setting _)⟩

/-- Items are behind whole rows, as long as those before them in their line are no remarks. The
induction is on the items that have not been laid out. -/
theorem isBehindRows_of_mem_placeItems
    {leading conditional : Bool} {fragments : List Fragment}
    (remarksLast : fragments.Pairwise fun left _ => left.isRemark = false)
    (noBase : '\n' ∉ base) (rows : ∀ row ∈ progress.rows, '\n' ∉ row)
    (begun : leading = false → progress.rows ≠ [])
    (member : placement ∈ placeItems setting base following above
      (itemsFrom leading conditional fragments) progress) :
    placement.IsBehindRows := by
  induction fragments generalizing leading conditional progress with
  | nil => cases member
  | cons fragment rest hypothesis =>
      rw [itemsFrom, placeItems, List.mem_cons] at member
      rcases member with rfl | later
      · exact ⟨noBase, rows, begun⟩
      · obtain ⟨others, restLast⟩ := List.pairwise_cons.1 remarksLast
        cases rest with
        | nil => cases later
        | cons next further =>
            obtain ⟨added, shape, present, free⟩ :=
              exists_rows_layoutItem setting ⟨fragment, leading, conditional⟩
                (itemsFrom false (conditional || fragment.isCondition) (next :: further))
                following progress (others next List.mem_cons_self) noBase
            refine hypothesis restLast ?_ ?_ later
            · rw [shape, List.forall_mem_append]
              exact ⟨rows, free⟩
            · intro _ empty
              rw [shape, List.append_eq_nil_iff] at empty
              exact present empty.2

theorem isBehindRows_of_mem_placeLines
    {lines : List Line}
    (decoded : ∀ line ∈ lines, ∃ record, line = Line.ofRecord record)
    (member : placement ∈ placeLines setting above lines progress) :
    placement.IsBehindRows := by
  induction lines generalizing above progress with
  | nil => cases member
  | cons line following hypothesis =>
      rw [List.forall_mem_cons] at decoded
      rw [placeLines, List.mem_append] at member
      rcases member with here | further
      · obtain ⟨record, rfl⟩ := decoded.1
        exact isBehindRows_of_mem_placeItems ((pairwise_fragments record).filter _)
          (newline_notMem_lineBase _ _ _) (by simp [Progress.startLine]) (by simp) here
      · exact hypothesis decoded.2 further

/-- Whether an item comes right behind another one in the listing, unless it begins a line. -/
def Placement.Continues (setting : Setting) (previous next : Placement) : Prop :=
  next.item.leading = false → next.output = previous.outputBehind setting

theorem isChain_placeItems (items : List Item) :
    (placeItems setting base following above items progress).IsChain
      (Placement.Continues setting) := by
  induction items generalizing progress with
  | nil => exact .nil
  | cons item later hypothesis =>
      rw [placeItems]
      cases later with
      | nil => exact .singleton _
      | cons next further => exact .cons_cons (fun _ => rfl) hypothesis

theorem isChain_placeLines (lines : List Line) :
    (placeLines setting above lines progress).IsChain (Placement.Continues setting) := by
  induction lines generalizing above progress with
  | nil => exact .nil
  | cons line following hypothesis =>
      rw [placeLines, List.isChain_append]
      refine ⟨isChain_placeItems _, hypothesis, ?_⟩
      intro previous _ next first behind
      rw [(first_placeLines first).1] at behind
      contradiction

theorem margin_ne_nil (options : Options) (base : Text) (item : Item) (indent : Nat) :
    margin options base item indent ≠ [] := by
  intro empty
  have length := congrArg List.length empty
  have wide : 8 ≤ baseColumn options := by
    unfold baseColumn
    split <;> decide
  have indented : baseColumn options ≤ columnOf options indent := Nat.le_add_left _ _
  rw [margin, Text.length_padRight, List.length_nil] at length
  omega

/-- A statement that is shown as a text adds the rows of its pieces to some rows, behind what is in
its own row already. -/
theorem exists_front
    (setting : Setting) (whole : placement.IsBehindRows)
    (plain : remarkForm placement.item.fragment = .plain) :
    ∃ rows front, placement.lead setting = printed rows ++ front ∧
      placement.above ++ (placement.behind setting).rows =
        rows ++ (placement.pieces setting).rows front ∧
      '\n' ∉ front ∧ front ≠ [] ∧
      front.length =
        if placement.isJoined setting.options then Text.column placement.output.dropLast + 1
        else (placement.margin setting).length := by
  cases joined : placement.isJoined setting.options with
  | true =>
      have begun := whole.begun (Placement.leading_of_isJoined joined)
      obtain ⟨front, last, shape⟩ :=
        (List.eq_nil_or_concat' placement.before.rows).resolve_left begun
      have noNewline : '\n' ∉ last := by
        apply whole.rows
        rw [shape]
        exact List.mem_concat_self
      have reopened : placement.output.dropLast = printed (placement.above ++ front) ++ last := by
        rw [Placement.output, shape, ← List.append_assoc, printed_append, printed_singleton,
          ← List.append_assoc, List.dropLast_concat]
      refine ⟨placement.above ++ front, last ++ [' '], ?_, ?_, ?_, by simp, ?_⟩
      · rw [Placement.lead, if_pos joined, reopened, List.append_assoc]
      · rw [rows_behind_of_isJoined joined, Pieces.join, shape, List.dropLast_concat,
          List.getLast?_concat, Option.getD_some, List.append_assoc]
      · rw [List.mem_append, not_or]
        exact ⟨noNewline, by decide⟩
      · rw [if_pos rfl, reopened, Text.column_append (endsRow_printed _) noNewline,
          List.length_append]
        rfl
  | false =>
      refine ⟨placement.above ++ placement.before.rows, placement.margin setting, ?_, ?_,
        newline_notMem_margin whole.base _ _ _, margin_ne_nil _ _ _ _, by simp⟩
      · rw [Placement.lead, if_neg (by simp [joined]), Placement.output]
      · rw [rows_behind_of_not_isJoined plain joined, List.append_assoc]

/-- A page ends with its last row if that is not empty. -/
theorem pageText_eq_of_printed
    {rows : List Text} {text : Text} (shape : printed rows = text ++ ['\n'])
    (visible : ∀ row ∈ rows.getLast?, row ≠ [] ∧ '\n' ∉ row) :
    pageText rows = text := by
  rcases List.eq_nil_or_concat' rows with rfl | ⟨above, row, rfl⟩
  · simp [printed] at shape
  · obtain ⟨nonempty, noNewline⟩ := visible row (by simp)
    obtain ⟨front, last, rfl⟩ := (List.eq_nil_or_concat' row).resolve_left nonempty
    have lastVisible : last ≠ '\n' := by
      rintro rfl
      exact noNewline List.mem_concat_self
    rw [printed_append, printed_singleton, ← List.append_assoc] at shape
    rw [pageText_concat lastVisible]
    exact List.append_cancel_right shape

theorem ne_nil_of_mem_rows
    {margin row : Text} {pieces : Pieces} (nonempty : margin ≠ [])
    (member : row ∈ pieces.rows margin) : row ≠ [] := by
  intro empty
  rw [empty, Pieces.rows, List.mem_cons, List.mem_map] at member
  rcases member with first | ⟨piece, _, other⟩
  · exact nonempty (List.append_eq_nil_iff.1 first.symm).1
  · have length := congrArg List.length (List.append_eq_nil_iff.1 other).1
    rw [Text.length_spaces] at length
    exact nonempty (List.length_eq_zero_iff.1 length)

/-- What a statement adds to the listing: its pieces below the column at which the first one
begins. -/
theorem outputBehind_eq
    (setting : Setting) (whole : placement.IsBehindRows)
    (plain : remarkForm placement.item.fragment = .plain) :
    Text.column (placement.lead setting) =
        (if placement.isJoined setting.options then Text.column placement.output.dropLast + 1
          else (placement.margin setting).length) ∧
      placement.outputBehind setting = placement.lead setting ++
        (placement.pieces setting).below (Text.column (placement.lead setting)) ++ ['\n'] ∧
      pageText (placement.above ++ (placement.behind setting).rows) = placement.lead setting ++
        (placement.pieces setting).below (Text.column (placement.lead setting)) := by
  obtain ⟨rows, front, lead, shape, noNewline, nonempty, width⟩ :=
    exists_front setting whole plain
  have column : Text.column (placement.lead setting) = front.length := by
    rw [lead, Text.column_append (endsRow_printed rows) noNewline]
  have output : placement.outputBehind setting = placement.lead setting ++
      (placement.pieces setting).below (Text.column (placement.lead setting)) ++ ['\n'] := by
    rw [Placement.outputBehind, shape, printed_append, Pieces.printed_rows, column, lead]
    simp only [List.append_assoc]
  refine ⟨column.trans width, output, pageText_eq_of_printed output fun row last => ?_⟩
  have member : row ∈ (placement.pieces setting).rows front := by
    have present : (placement.pieces setting).rows front ≠ [] := List.cons_ne_nil _ _
    rw [shape, List.getLast?_append_of_ne_nil _ present] at last
    exact List.mem_of_getLast? last
  exact ⟨ne_nil_of_mem_rows nonempty member,
    newline_notMem_rows noNewline (newline_notMem_pieces setting placement) row member⟩

end Layout

end Listing

open Listing

namespace Program

/-- Statements in pieces hang. In front of each statement the output is empty or ends with a line
feed, and a remark is only joined where the number of its line has been printed. The first piece of
a statement begins at the column that the output has reached with the margin, or with the space of a
joined remark in place of its last line feed. Each other piece stands in a row of its own, with as
many spaces before it. This is what the listing has there, from its beginning up to the end of the
statement, and the next statement of the line goes on from it. -/
theorem pieces_hang
    (image : Bytes) (options : Options) (disassembler : Disassembler) (name : Text) :
    let program := decode image
    let setting := program.setting options disassembler
    let placements := program.placements options disassembler name
    placements.map Placement.item = program.lines.flatMap items ∧
      (∀ first ∈ placements.head?, first.item.leading = true) ∧
      placements.IsChain (Placement.Continues setting) ∧
      ∀ placement ∈ placements,
        EndsRow placement.output ∧
          (placement.isJoined options = true →
            placement.item.leading = false ∧ placement.before.rows ≠ []) ∧
          (remarkForm placement.item.fragment = .plain →
            let pieces := placement.pieces setting
            let lead := placement.lead setting
            (∀ piece ∈ pieces.all, '\n' ∉ piece) ∧
              Text.column lead =
                (if placement.isJoined options then
                    Text.column placement.output.dropLast + 1
                  else (placement.margin setting).length) ∧
              placement.outputBehind setting =
                lead ++ pieces.below (Text.column lead) ++ ['\n'] ∧
              lead ++ pieces.below (Text.column lead) <+:
                (program.list options disassembler name).text) := by
  intro program setting placements
  have decoded : ∀ line ∈ program.lines, ∃ record, line = Line.ofRecord record := by
    intro line member
    obtain ⟨record, _, rfl⟩ := List.mem_map.1 member
    exact ⟨record, rfl⟩
  refine ⟨map_item_placeLines program.lines, ?_, isChain_placeLines program.lines, ?_⟩
  · intro first member
    exact (first_placeLines member).1
  · intro placement member
    have whole : placement.IsBehindRows := isBehindRows_of_mem_placeLines decoded member
    refine ⟨endsRow_printed _, ?_, ?_⟩
    · intro joined
      have behind := Placement.leading_of_isJoined joined
      exact ⟨behind, whole.begun behind⟩
    · intro plain pieces lead
      obtain ⟨column, output, page⟩ := outputBehind_eq setting whole plain
      refine ⟨newline_notMem_pieces setting placement, column, output, ?_⟩
      rw [← page]
      exact pageText_prefix_list_text member

/-- A remark that goes on below itself, behind the statement that it is joined to. -/
example :
    let options : Options := { showHeader := false, wrapRemAt := 9 }
    let program := decode (encode 0x801
      [(10, [0x41, 0xD0, 0x31, 0x3A, 0xB2, 0x4F, 0x4E, 0x45, 0x20, 0x54, 0x57, 0x4F])])
    (program.list options Machine.listing []).text =
      "    10  A = 1 REM ONE\n                  TWO".toList := by
  decide +kernel

end Program

end Applesoft
