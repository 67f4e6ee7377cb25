import Applesoft.Machine.Disassembly
import Applesoft.Proofs.Placement
import Applesoft.Proofs.RoundTrip
import Applesoft.Proofs.Runs

/-!
Columns of equals signs. The column is found by looking ahead at the first assignment of a run, and
then carried from one item to the next until something resets it. A remark that is not shown as a
text ends the run for the one but resets nothing for the other, so that all runs of a chain get the
column of its first run.

The main statement says where each equals sign is shown, and when this is the column of its run.
-/

namespace Applesoft.Listing

section AlignedText

variable {options : Options} {column : Nat} {fragment : Fragment}

theorem findIdx?_insert_spaces
    {text : Text} {own : Nat} (count : Nat)
    (found : text.findIdx? (· = '=') = some own) :
    (text.take own ++ Text.spaces count ++ text.drop own).findIdx? (· = '=') =
      some (own + count) := by
  obtain ⟨inside, sign, before⟩ := List.findIdx?_eq_some_iff_getElem.1 found
  have front : (text.take own).findIdx? (· = '=') = none := by
    rw [List.findIdx?_eq_none_iff]
    intro character member
    obtain ⟨index, bound, rfl⟩ := List.mem_iff_getElem.1 member
    rw [List.length_take] at bound
    rw [List.getElem_take]
    simpa using before index (by omega)
  have padding : (Text.spaces count).findIdx? (· = '=') = none := by
    rw [List.findIdx?_eq_none_iff]
    intro character member
    rw [List.eq_of_mem_replicate member]
    rfl
  have rest : (text.drop own).findIdx? (· = '=') = some 0 := by
    rw [List.drop_eq_getElem_cons inside, List.findIdx?_cons, if_pos sign]
  have length : (text.take own ++ Text.spaces count).length = own + count := by
    rw [List.length_append, List.length_take, Text.length_spaces]
    omega
  rw [List.findIdx?_append, List.findIdx?_append, front, padding, rest, length]
  simp

theorem findIdx?_text
    (assigns : 0 < fragment.equalsColumn options) :
    (fragment.text options).findIdx? (· = '=') = some (fragment.equalsColumn options) := by
  have own : fragment.equalsColumn options = Fragment.equalsIndex (fragment.text options) := by
    rw [Fragment.equalsColumn] at assigns ⊢
    split at assigns
    · cases assigns
    · next assigned => rw [if_neg assigned]
  rw [own] at assigns ⊢
  rw [Fragment.equalsIndex] at assigns ⊢
  cases found : (fragment.text options).findIdx? (· = '=') with
  | none => simp [found] at assigns
  | some index => rfl

/-- The equals sign of an assignment is moved to a column that it stands before, and stays where it
is otherwise. -/
theorem equalsIndex_alignedText
    (assigns : 0 < fragment.equalsColumn options) :
    Fragment.equalsIndex (alignedText options column fragment) =
      max (fragment.equalsColumn options) column := by
  have found := findIdx?_text assigns
  rw [alignedText]
  by_cases before : fragment.equalsColumn options < column
  · rw [if_pos ⟨assigns, before⟩, Fragment.equalsIndex, findIdx?_insert_spaces _ found]
    simp only [Option.getD_some]
    omega
  · rw [if_neg fun both => before both.2, Fragment.equalsIndex, found]
    simp only [Option.getD_some]
    omega

theorem isBlank_of_trimEnd_eq_concat
    {text front : Text} {last : Char} (shape : Text.trimEnd text = front ++ [last]) :
    Text.isBlank last = false := by
  have reversed : text.reverse.dropWhile Text.isBlank = last :: front.reverse := by
    have flipped := congrArg List.reverse shape
    simpa [Text.trimEnd, Text.dropTrailing] using flipped
  have first := List.head?_dropWhile_not Text.isBlank text.reverse
  rw [reversed] at first
  simpa using first

/-- The text of an assignment does not end in a line feed, wherever its equals sign is moved. -/
theorem exists_alignedText_eq_concat
    (assigns : 0 < fragment.equalsColumn options)
    (statement : fragment.statement = .assignment) :
    ∃ front last, alignedText options column fragment = front ++ [last] ∧ last ≠ '\n' := by
  obtain ⟨inside, _, _⟩ := List.findIdx?_eq_some_iff_getElem.1 (findIdx?_text assigns)
  rw [alignedText]
  have trimmed : fragment.text options =
      Text.trimEnd (fragment.impliedKeyword options ++
        Rendering.render options fragment.body) := by
    rw [Fragment.text, statement]
  generalize fragment.equalsColumn options = own at inside ⊢
  rcases List.eq_nil_or_concat (fragment.text options) with none | ⟨front, last, shape⟩
  · simp [none] at inside
  · rw [List.concat_eq_append] at shape
    have visible : last ≠ '\n' := by
      rintro rfl
      have blank := isBlank_of_trimEnd_eq_concat (trimmed.symm.trans shape)
      exact absurd blank (by decide)
    rw [shape, List.length_append, List.length_singleton] at inside
    rw [shape]
    split
    · refine ⟨(front ++ [last]).take own ++ Text.spaces (column - own) ++ front.drop own,
        last, ?_, visible⟩
      rw [List.drop_append_of_le_length (by omega), List.append_assoc, List.append_assoc,
        List.append_assoc]
    · exact ⟨front, last, rfl, visible⟩

end AlignedText

namespace Placement

/-- The text of a statement as it is laid out. -/
def text (setting : Setting) (placement : Placement) : Text :=
  statementText setting.options (placement.behind setting).column placement.item.fragment

/-- Whether a placement is an assignment with an equals sign. -/
def assigns (options : Options) (placement : Placement) : Bool :=
  0 < placement.item.ownColumn options

end Placement

section Rows

variable {setting : Setting} {placement : Placement}

theorem ownColumn_pos_of_assigns
    {options : Options} (assigns : placement.assigns options = true) :
    0 < placement.item.fragment.equalsColumn options :=
  of_decide_eq_true assigns

theorem text_of_assigns (assigns : placement.assigns setting.options = true) :
    placement.text setting =
      alignedText setting.options (placement.behind setting).column placement.item.fragment := by
  have statement := Item.statement_of_ownColumn_pos (ownColumn_pos_of_assigns assigns)
  rw [Placement.text, statementText, statement]

theorem plain_of_assigns (assigns : placement.assigns setting.options = true) :
    remarkForm placement.item.fragment = .plain ∧
      placement.item.isJoined setting.options = false := by
  have statement := Item.statement_of_ownColumn_pos (ownColumn_pos_of_assigns assigns)
  have noRemark : placement.item.fragment.isRemark = false := by
    simp [Fragment.isRemark, statement]
  constructor
  · simp [remarkForm, noRemark]
  · simp [Item.isJoined, noRemark]

theorem rows_of_assigns (assigns : placement.assigns setting.options = true) :
    (placement.behind setting).rows =
      placement.before.rows ++ [placement.margin setting ++ placement.text setting] := by
  have statement := Item.statement_of_ownColumn_pos (ownColumn_pos_of_assigns assigns)
  obtain ⟨plain, apart⟩ := plain_of_assigns assigns
  rw [Placement.text, Placement.behind, layoutItem_of_plain plain, layoutText, apart]
  simp only [Pieces.ofText, statement]
  rfl

theorem prefix_list_text_of_assigns
    {program : Program} {options : Options} {disassembler : Disassembler} {name : Text}
    (member : placement ∈ program.placements options disassembler name)
    (assigns : placement.assigns options = true) :
    let setting := program.setting options disassembler
    ((placement.above ++ placement.before.rows).flatMap fun row => row ++ ['\n']) ++
        (placement.margin setting ++ placement.text setting) <+:
      (program.list options disassembler name).text := by
  intro setting
  have positive := ownColumn_pos_of_assigns assigns
  have moved : placement.text setting =
      alignedText options (placement.behind setting).column placement.item.fragment :=
    text_of_assigns assigns
  obtain ⟨front, last, text, visible⟩ :
      ∃ front last, placement.text setting = front ++ [last] ∧ last ≠ '\n' := by
    rw [moved]
    exact exists_alignedText_eq_concat positive (Item.statement_of_ownColumn_pos positive)
  have rows := rows_of_assigns (show placement.assigns setting.options = true from assigns)
  rw [text, ← List.append_assoc (placement.margin setting) front [last]] at rows ⊢
  exact Program.prefix_list_text member rows visible

end Rows

namespace Placement

def joinsRun (options : Options) (left right : Placement) : Bool :=
  left.item.joinsRun options right.item

def sharesColumn (options : Options) (left right : Placement) : Bool :=
  left.item.sharesColumn options right.item

end Placement

/-- The chains of runs among placements. -/
def chains (options : Options) (placements : List Placement) : List (List Placement) :=
  placements.splitBy (Placement.sharesColumn options)

/-- The runs of assignments among placements, with the remarks joined to them. -/
def runs (options : Options) (placements : List Placement) : List (List Placement) :=
  (placements.splitBy (Placement.joinsRun options)).filter
    fun run => run.any (Placement.assigns options)

def runColumn (options : Options) (run : List Placement) : Nat :=
  rightmost options (run.map Placement.item)

/-- The column of the first run of a chain, zero if it has none. -/
def chainColumn (options : Options) (chain : List Placement) : Nat :=
  ((runs options chain).head?.map (runColumn options)).getD 0

section Columns

variable {options : Options}

theorem flatMap_runs_chains (placements : List Placement) :
    (chains options placements).flatMap (runs options) = runs options placements := by
  have finer :
      (chains options placements).flatMap (List.splitBy (Placement.joinsRun options)) =
        placements.splitBy (Placement.joinsRun options) :=
    flatMap_splitBy_splitBy (fun left right => Item.sharesColumn_of_joinsRun) placements
  rw [runs, ← finer, List.filter_flatMap]
  rfl

/-- The rightmost column is one of a run, or zero, and none of the run is behind it. -/
theorem rightmost_spec (run : List Item) :
    rightmost options run ∈ 0 :: run.map (Item.ownColumn options) ∧
      ∀ column ∈ 0 :: run.map (Item.ownColumn options), column ≤ rightmost options run :=
  List.max?_eq_some_iff.1 List.max?_cons'

theorem ownColumn_le_rightmost
    {run : List Item} {item : Item} (member : item ∈ run) :
    item.ownColumn options ≤ rightmost options run := by
  apply (rightmost_spec run).2
  exact List.mem_cons_of_mem _ (List.mem_map_of_mem member)

theorem ownColumn_le_runColumn
    {run : List Placement} {placement : Placement} (member : placement ∈ run) :
    placement.item.ownColumn options ≤ runColumn options run :=
  ownColumn_le_rightmost (List.mem_map_of_mem member)

theorem exists_ownColumn_eq_runColumn
    {run : List Placement} (assigned : run.any (Placement.assigns options) = true) :
    ∃ placement ∈ run, placement.assigns options = true ∧
      placement.item.ownColumn options = runColumn options run := by
  obtain ⟨some, member, assigns⟩ := List.any_eq_true.1 assigned
  have positive : 0 < some.item.ownColumn options := of_decide_eq_true assigns
  have bound : some.item.ownColumn options ≤ runColumn options run :=
    ownColumn_le_runColumn member
  have attained :
      runColumn options run ∈ 0 :: (run.map Placement.item).map (Item.ownColumn options) :=
    (rightmost_spec (run.map Placement.item)).1
  rcases List.mem_cons.1 attained with none | found
  · omega
  · rw [List.map_map, List.mem_map] at found
    obtain ⟨placement, among, own⟩ := found
    rw [Function.comp_apply] at own
    refine ⟨placement, among, ?_, own⟩
    apply decide_eq_true
    omega

theorem ownColumn_of_not_assigns
    {placement : Placement} (idle : placement.assigns options = false) :
    placement.item.ownColumn options = 0 := by
  have notPositive := of_decide_eq_false idle
  omega

theorem rightmost_cons_of_zero
    {item : Item} (idle : item.ownColumn options = 0) (run : List Item) :
    rightmost options (item :: run) = rightmost options run := by
  have none : item.fragment.equalsColumn options = 0 := idle
  simp [rightmost, none]

theorem chainColumn_cons_of_assigns
    {placement : Placement} (assigns : placement.assigns options = true)
    (rest : List Placement) :
    chainColumn options (placement :: rest) =
      rightmost options
        (stretch (Item.joinsRun options) placement.item (rest.map Placement.item)) := by
  obtain ⟨groups, split⟩ :
      ∃ groups, (placement :: rest).splitBy (Placement.joinsRun options) =
        stretch (Placement.joinsRun options) placement rest :: groups :=
    exists_splitBy_cons placement rest
  have assigned :
      (stretch (Placement.joinsRun options) placement rest).any
        (Placement.assigns options) = true :=
    List.any_eq_true.2 ⟨placement, mem_stretch placement rest, assigns⟩
  have seen :
      (stretch (Placement.joinsRun options) placement rest).map Placement.item =
        stretch (Item.joinsRun options) placement.item (rest.map Placement.item) := by
    apply map_stretch
    intro left right
    rfl
  rw [chainColumn, runs, split, List.filter_cons, if_pos assigned, List.head?_cons,
    Option.map_some, Option.getD_some, runColumn, seen]

theorem chainColumn_ne_zero_of_assigns
    {placement : Placement} (assigns : placement.assigns options = true)
    (rest : List Placement) :
    chainColumn options (placement :: rest) ≠ 0 := by
  have positive : 0 < placement.item.ownColumn options := of_decide_eq_true assigns
  have bound :
      placement.item.ownColumn options ≤
        rightmost options
          (stretch (Item.joinsRun options) placement.item (rest.map Placement.item)) :=
    ownColumn_le_rightmost (mem_stretch _ _)
  rw [chainColumn_cons_of_assigns assigns]
  omega

/-- What stands before the first assignment of a chain has no part in its column. -/
theorem chainColumn_cons_of_not_assigns
    {placement : Placement} (idle : placement.assigns options = false)
    (rest : List Placement) :
    chainColumn options (placement :: rest) = chainColumn options rest := by
  cases rest with
  | nil => simp [chainColumn, runs, List.splitBy, List.splitBy.loop, idle]
  | cons second rest =>
      obtain ⟨groups, split⟩ :
          ∃ groups, (second :: rest).splitBy (Placement.joinsRun options) =
            stretch (Placement.joinsRun options) second rest :: groups :=
        exists_splitBy_cons second rest
      cases linked : placement.joinsRun options second with
      | false =>
          rw [chainColumn, chainColumn, runs, runs, splitBy_cons_of_not_related linked,
            List.filter_cons_of_neg (by simp [idle])]
      | true =>
          rw [chainColumn, chainColumn, runs, runs, split, splitBy_cons_of_related linked split,
            List.filter_cons, List.filter_cons, List.any_cons, idle, Bool.false_or]
          split
          · rw [List.head?_cons, List.head?_cons, Option.map_some, Option.map_some,
              Option.getD_some, Option.getD_some, runColumn, List.map_cons,
              rightmost_cons_of_zero (ownColumn_of_not_assigns idle), runColumn]
          · rfl

end Columns

section Carried

variable {setting : Setting} {placement : Placement}

/-- An assignment keeps the column that it meets, and looks ahead for one if there is none. -/
theorem column_behind_of_assigns
    (aligned : setting.options.alignAssign = true)
    (assigns : placement.assigns setting.options = true) :
    (placement.behind setting).column =
      if placement.before.column = 0 then
        rightmost setting.options
          (runFrom setting.options placement.item placement.later placement.following)
      else
        placement.before.column := by
  have positive := ownColumn_pos_of_assigns assigns
  obtain ⟨plain, apart⟩ := plain_of_assigns assigns
  rw [Placement.behind, layoutItem_of_plain plain, layoutText, aligned, apart]
  simp only [Bool.not_false, Bool.and_true, if_true]
  rw [columnAt, if_neg (by omega)]
  rfl

theorem column_behind_of_carriesColumn
    (carries : placement.item.carriesColumn setting.options = true)
    (idle : placement.assigns setting.options = false) :
    (placement.behind setting).column = placement.before.column := by
  by_cases plain : remarkForm placement.item.fragment = .plain
  · have joined : placement.item.isJoined setting.options = true := by
      have none : ¬ 0 < placement.item.fragment.equalsColumn setting.options :=
        of_decide_eq_false idle
      simpa [Item.carriesColumn, Item.continuesRun, plain, none] using carries
    rw [Placement.behind, layoutItem_of_plain plain, layoutText, joined]
    simp only [Bool.not_true, Bool.and_false, Bool.false_eq_true, if_false]
    rfl
  · obtain ⟨rows, shape⟩ := layoutItem_of_not_plain placement.later plain
    rw [Placement.behind, shape]
    rfl

theorem column_behind_of_not_carriesColumn
    (aligned : setting.options.alignAssign = true)
    (resets : placement.item.carriesColumn setting.options = false) :
    (placement.behind setting).column = 0 := by
  simp only [Item.carriesColumn, Item.continuesRun, Bool.or_eq_false_iff,
    decide_eq_false_iff_not, ne_eq, not_not] at resets
  obtain ⟨⟨none, apart⟩, plain⟩ := resets
  rw [Placement.behind, layoutItem_of_plain plain, layoutText, aligned, apart]
  simp only [Bool.not_false, Bool.and_true, if_true]
  rw [columnAt, if_pos (by omega)]

theorem endsConditional_of_carriesColumn
    {options : Options} {item : Item} (carries : item.carriesColumn options = true) :
    item.endsConditional = item.conditional := by
  rw [Item.endsConditional, Item.isCondition_of_carriesColumn carries, Bool.or_false]

theorem carriesColumn_of_sharesColumn
    {options : Options} {next : Placement}
    (linked : placement.sharesColumn options next = true) :
    placement.item.carriesColumn options = true := by
  simp only [Placement.sharesColumn, Item.sharesColumn, Bool.and_eq_true] at linked
  exact linked.1.1

theorem column_before_of_sharesColumn
    {next : Placement} {rest : List Placement}
    (follows : placement.IsFollowedBy setting (next :: rest))
    (linked : placement.sharesColumn setting.options next = true) :
    next.before.column = (placement.behind setting).column := by
  have carries := carriesColumn_of_sharesColumn linked
  simp only [Placement.sharesColumn, Item.sharesColumn, Bool.and_eq_true,
    Bool.not_eq_true'] at linked
  have sameLine := linked.2
  have kept : (next.item.leading && placement.item.endsConditional) = false := by
    rw [endsConditional_of_carriesColumn carries, Bool.and_comm]
    exact sameLine
  rw [follows.column next rfl, kept]
  rfl

/-- Between chains no column is passed on to an item that would carry it. -/
theorem column_before_of_not_sharesColumn
    {next : Placement} {rest : List Placement}
    (aligned : setting.options.alignAssign = true)
    (follows : placement.IsFollowedBy setting (next :: rest))
    (apart : placement.sharesColumn setting.options next = false)
    (carriesNext : next.item.carriesColumn setting.options = true) :
    next.before.column = 0 := by
  rw [follows.column next rfl]
  cases carries : placement.item.carriesColumn setting.options with
  | false =>
      rw [column_behind_of_not_carriesColumn aligned carries]
      split
      · rfl
      · rfl
  | true =>
      rw [endsConditional_of_carriesColumn carries, if_pos]
      simpa [Placement.sharesColumn, Item.sharesColumn, carries, carriesNext,
        and_comm] using apart

theorem carriesColumn_of_assigns
    {options : Options} (assigns : placement.assigns options = true) :
    placement.item.carriesColumn options = true := by
  apply Item.carriesColumn_of_continuesRun
  rw [Item.continuesRun, Bool.or_eq_true]
  exact Or.inl assigns

/-- What a step in a chain does: the next item meets the column that an item leaves, and an item
that is not an assignment leaves the one that it meets. -/
theorem column_step
    {next : Placement} {rest : List Placement}
    (follows : placement.IsFollowedBy setting (next :: rest))
    (linked : placement.sharesColumn setting.options next = true)
    (idle : placement.assigns setting.options = false) :
    next.before.column = placement.before.column := by
  rw [column_before_of_sharesColumn follows linked]
  exact column_behind_of_carriesColumn (carriesColumn_of_sharesColumn linked) idle

/-- A column that is met at the front of a chain is the one of all its assignments. -/
theorem column_behind_of_entering
    {column : Nat} {chain rest : List Placement}
    (aligned : setting.options.alignAssign = true)
    (positive : column ≠ 0)
    (inOrder : InOrder setting (chain ++ rest))
    (linked : chain.IsChain fun left right =>
      left.sharesColumn setting.options right = true)
    (entering : ∀ first ∈ chain.head?, first.before.column = column)
    (member : placement ∈ chain)
    (assigns : placement.assigns setting.options = true) :
    (placement.behind setting).column = column := by
  induction chain with
  | nil => cases member
  | cons first others hypothesis =>
      obtain ⟨follows, inOrderRest⟩ := inOrder
      have meets := entering first rfl
      have behind : first.assigns setting.options = true →
          (first.behind setting).column = column := by
        intro firstAssigns
        rw [column_behind_of_assigns aligned firstAssigns, meets, if_neg positive]
      rcases List.mem_cons.1 member with rfl | later
      · exact behind assigns
      · refine hypothesis inOrderRest linked.tail ?_ later
        cases others with
        | nil => cases later
        | cons next others =>
            rintro next ⟨⟩
            have link := (List.isChain_cons_cons.1 linked).1
            cases firstAssigns : first.assigns setting.options with
            | true => rw [column_before_of_sharesColumn follows link, behind firstAssigns]
            | false => rw [column_step follows link firstAssigns, meets]

theorem breaks_map_item
    {options : Options} {front rest : List Placement}
    (breaks : Breaks (Placement.sharesColumn options) front rest) :
    Breaks (Item.joinsRun options) (front.map Placement.item) (rest.map Placement.item) := by
  intro last lastMember first firstMember
  rw [List.getLast?_map] at lastMember
  rw [List.head?_map] at firstMember
  obtain ⟨left, leftMember, rfl⟩ := Option.map_eq_some_iff.1 lastMember
  obtain ⟨right, rightMember, rfl⟩ := Option.map_eq_some_iff.1 firstMember
  exact breaks.mono (fun _ _ => Item.sharesColumn_of_joinsRun) left leftMember right rightMember

theorem column_behind_of_front
    {others rest : List Placement}
    (aligned : setting.options.alignAssign = true)
    (follows : placement.IsFollowedBy setting (others ++ rest))
    (breaks : Breaks (Placement.sharesColumn setting.options) (placement :: others) rest)
    (meets : placement.before.column = 0)
    (assigns : placement.assigns setting.options = true) :
    (placement.behind setting).column =
      chainColumn setting.options (placement :: others) := by
  have sameLine := endsConditional_of_carriesColumn (carriesColumn_of_assigns assigns)
  obtain ⟨fragments, later⟩ := follows.later
  rw [sameLine] at later
  have seen :
      itemsFrom false placement.item.conditional fragments ++
          placement.following.flatMap items =
        others.map Placement.item ++ rest.map Placement.item := by
    rw [← later, ← follows.items, List.map_append]
  rw [column_behind_of_assigns aligned assigns, if_pos meets, later,
    runFrom_eq_stretch (ownColumn_pos_of_assigns assigns), seen,
    stretch_append (breaks_map_item breaks), chainColumn_cons_of_assigns assigns]

/-- All assignments of a chain have the column of its first run, if no column is met at the
front. -/
theorem column_behind_of_mem_chain
    {chain rest : List Placement}
    (aligned : setting.options.alignAssign = true)
    (inOrder : InOrder setting (chain ++ rest))
    (linked : chain.IsChain fun left right =>
      left.sharesColumn setting.options right = true)
    (breaks : Breaks (Placement.sharesColumn setting.options) chain rest)
    (entering : ∀ first ∈ chain.head?, first.item.carriesColumn setting.options = true →
      first.before.column = 0)
    (member : placement ∈ chain)
    (assigns : placement.assigns setting.options = true) :
    (placement.behind setting).column = chainColumn setting.options chain := by
  induction chain with
  | nil => cases member
  | cons first others hypothesis =>
      obtain ⟨follows, inOrderRest⟩ := inOrder
      cases firstAssigns : first.assigns setting.options with
      | true =>
          -- The first assignment looks ahead, and those behind it meet the column that it finds.
          have meets := entering first rfl (carriesColumn_of_assigns firstAssigns)
          have behind := column_behind_of_front aligned follows breaks meets firstAssigns
          rcases List.mem_cons.1 member with rfl | later
          · exact behind
          · have positive := chainColumn_ne_zero_of_assigns firstAssigns others
            refine column_behind_of_entering aligned positive inOrderRest linked.tail ?_ later
              assigns
            cases others with
            | nil => cases later
            | cons next others =>
                rintro next ⟨⟩
                have link := (List.isChain_cons_cons.1 linked).1
                rw [column_before_of_sharesColumn follows link, behind]
      | false =>
          rw [chainColumn_cons_of_not_assigns firstAssigns]
          rcases List.mem_cons.1 member with rfl | later
          · rw [assigns] at firstAssigns
            cases firstAssigns
          · cases others with
            | nil => cases later
            | cons next others =>
                refine hypothesis inOrderRest linked.tail breaks.tail ?_ later
                rintro next ⟨⟩ _
                have link := (List.isChain_cons_cons.1 linked).1
                rw [column_step follows link firstAssigns]
                exact entering first rfl (carriesColumn_of_sharesColumn link)

/-- All assignments of a chain have the column of its first run. The induction is on the chains,
and at the front of each there is no column to meet. -/
theorem column_behind_of_separated
    {groups : List (List Placement)} {chain : List Placement}
    (aligned : setting.options.alignAssign = true)
    (separated : Separated (Placement.sharesColumn setting.options) groups)
    (inOrder : InOrder setting groups.flatten)
    (entering : ∀ first ∈ groups.flatten.head?,
      first.item.carriesColumn setting.options = true → first.before.column = 0)
    (among : chain ∈ groups)
    (member : placement ∈ chain)
    (assigns : placement.assigns setting.options = true) :
    (placement.behind setting).column = chainColumn setting.options chain := by
  induction groups with
  | nil => cases among
  | cons group others hypothesis =>
      obtain ⟨linked, breaks, separatedOthers⟩ := separated
      rw [List.flatten_cons] at inOrder entering
      rcases List.mem_cons.1 among with rfl | further
      · refine column_behind_of_mem_chain aligned inOrder linked breaks ?_ member assigns
        intro first front
        apply entering
        rw [List.head?_append, front]
        rfl
      · refine hypothesis separatedOthers inOrder.of_append ?_ further
        intro next nextMember carries
        rcases List.eq_nil_or_concat group with rfl | ⟨front, last, rfl⟩
        · exact entering next nextMember carries
        -- The last item of a chain decides what the first one of the next chain meets.
        · rw [List.concat_eq_append] at inOrder breaks
          obtain ⟨more, shape⟩ := List.head?_eq_some_iff.1 nextMember
          rw [shape, List.append_assoc] at inOrder
          have follows : last.IsFollowedBy setting (next :: more) := inOrder.of_append.1
          have apart := breaks last (by simp) next nextMember
          exact column_before_of_not_sharesColumn aligned follows apart carries

end Carried

/-- Whether the equals signs of a run are shown in the column of its rightmost one. -/
def IsAligned (setting : Setting) (run : List Placement) : Prop :=
  ∀ placement ∈ run, placement.assigns setting.options = true →
    Fragment.equalsIndex (placement.text setting) = runColumn setting.options run

instance (setting : Setting) (run : List Placement) : Decidable (IsAligned setting run) :=
  List.decidableBAll _ run

/-- Whether a column leaves a run aligned: it is that of the run, or it is smaller and the run needs
no alignment. -/
def Suits (options : Options) (column : Nat) (run : List Placement) : Prop :=
  column = runColumn options run ∨
    column < runColumn options run ∧
      ∀ placement ∈ run, placement.assigns options = true →
        placement.item.ownColumn options = runColumn options run

instance (options : Options) (column : Nat) (run : List Placement) :
    Decidable (Suits options column run) :=
  inferInstanceAs (Decidable (_ ∨ _ ∧ ∀ placement ∈ run, _))

theorem isAligned_iff
    {setting : Setting} {column : Nat} {run : List Placement}
    (assigned : run.any (Placement.assigns setting.options) = true)
    (shown : ∀ placement ∈ run, placement.assigns setting.options = true →
      Fragment.equalsIndex (placement.text setting) =
        max (placement.item.ownColumn setting.options) column) :
    IsAligned setting run ↔ Suits setting.options column run := by
  constructor
  · intro isAligned
    obtain ⟨widest, member, assigns, own⟩ := exists_ownColumn_eq_runColumn assigned
    have index := isAligned widest member assigns
    rw [shown widest member assigns, own] at index
    by_cases same : column = runColumn setting.options run
    · exact Or.inl same
    · refine Or.inr ⟨by omega, ?_⟩
      intro placement among placementAssigns
      have indexHere := isAligned placement among placementAssigns
      rw [shown placement among placementAssigns] at indexHere
      omega
  · intro suits placement member assigns
    rw [shown placement member assigns]
    have bound : placement.item.ownColumn setting.options ≤ runColumn setting.options run :=
      ownColumn_le_runColumn member
    rcases suits with same | ⟨smaller, equal⟩
    · omega
    · have own := equal placement member assigns
      omega

end Applesoft.Listing

namespace Applesoft.Program

open Listing

/-- Where a listing shows equals signs. Each assignment is shown in its row, with its equals sign in
the column of its chain or behind it, and the equals signs of a run are in the column of the run if
and only if the column of the chain suits the run. -/
theorem equalsIndex_text
    (program : Program) (options : Options) (disassembler : Disassembler) (name : Text)
    (aligned : options.alignAssign = true) :
    let setting := program.setting options disassembler
    let placements := program.placements options disassembler name
    placements.map Placement.item = program.lines.flatMap items ∧
      (∀ placement ∈ placements, placement.assigns options = true →
        ((placement.above ++ placement.before.rows).flatMap fun row => row ++ ['\n']) ++
            (placement.margin setting ++ placement.text setting) <+:
          (program.list options disassembler name).text) ∧
      (chains options placements).flatMap (runs options) = runs options placements ∧
      ∀ chain ∈ chains options placements,
        (∀ placement ∈ chain, placement.assigns options = true →
          Fragment.equalsIndex (placement.text setting) =
            max (placement.item.ownColumn options) (chainColumn options chain)) ∧
        ∀ run ∈ runs options chain,
          IsAligned setting run ↔ Suits options (chainColumn options chain) run := by
  intro setting placements
  refine ⟨map_item_placeLines program.lines,
    fun placement member assigns => prefix_list_text_of_assigns member assigns,
    flatMap_runs_chains placements, ?_⟩
  intro chain among
  have shown : ∀ placement ∈ chain, placement.assigns options = true →
      Fragment.equalsIndex (placement.text setting) =
        max (placement.item.ownColumn options) (chainColumn options chain) := by
    intro placement member assigns
    have positive := ownColumn_pos_of_assigns assigns
    have inOrder : InOrder setting (chains options placements).flatten := by
      rw [chains, List.flatten_splitBy]
      exact inOrder_placeLines program.lines
    have entering : ∀ first ∈ (chains options placements).flatten.head?,
        first.item.carriesColumn options = true → first.before.column = 0 := by
      intro first front _
      rw [chains, List.flatten_splitBy] at front
      exact (first_placeLines front).2.2
    have column : (placement.behind setting).column = chainColumn options chain :=
      column_behind_of_separated aligned (separated_splitBy placements) inOrder entering among
        member assigns
    have text : placement.text setting =
        alignedText options (placement.behind setting).column placement.item.fragment :=
      text_of_assigns assigns
    rw [text, equalsIndex_alignedText positive, column]
    rfl
  refine ⟨shown, ?_⟩
  intro run member
  obtain ⟨group, assigned⟩ := List.mem_filter.1 member
  refine isAligned_iff assigned ?_
  intro placement placementMember assigns
  refine shown placement ?_ assigns
  rw [← List.flatten_splitBy (Placement.joinsRun options) chain]
  exact List.mem_flatten_of_mem group placementMember

/-- Two assignments in lines that follow each other are aligned. -/
theorem isAligned_of_consecutive_lines :
    let program := Program.decode
      (encode 0x801 [(10, [0x4C, 0x4F, 0x4E, 0x47, 0xD0, 0x31]), (20, [0x41, 0xD0, 0x32])])
    ∃ run ∈ runs {} (program.placements {} Machine.listing []),
      run.length = 2 ∧ IsAligned (program.setting {} Machine.listing) run := by
  intro program
  obtain ⟨_, _, whole, columns⟩ := program.equalsIndex_text {} Machine.listing [] rfl
  obtain ⟨chain, among, run, member, two, suits⟩ :
      ∃ chain ∈ chains {} (program.placements {} Machine.listing []),
        ∃ run ∈ runs {} chain, run.length = 2 ∧ Suits {} (chainColumn {} chain) run := by
    decide +kernel
  refine ⟨run, ?_, two, ((columns chain among).2 run member).2 suits⟩
  rw [← whole]
  exact List.mem_flatMap.2 ⟨chain, among, member⟩

/-- An assignment behind a remark with a control character is moved to the column of the assignment
before the remark, although the remark ends the run. -/
theorem not_isAligned_behind_remark :
    let options : Options := { showHeader := false }
    let program := Program.decode
      (encode 0x801 [(10, [0x4C, 0x4F, 0x4E, 0x47, 0xD0, 0x31]), (20, [0xB2, 0x07]),
        (30, [0x41, 0xD0, 0x32])])
    (program.list options Machine.listing []).text =
        "    10  LONG = 1\n    20  REM \n    30  A    = 2".toList ∧
      ∃ run ∈ runs options (program.placements options Machine.listing []),
        ¬ IsAligned (program.setting options Machine.listing) run := by
  decide +kernel

end Applesoft.Program
