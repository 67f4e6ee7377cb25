import Applesoft.Proofs.Checked.Alignment
import Applesoft.Proofs.EqualsColumns

/-!
Looking ahead through a run of assignments, place by place. From the place of an assignment on, the
run has the assignments, the remarks joined to statements, and the bare separators that follow each
other in the order of the program. It ends with its line if an IF stands before it there.

The main statement is that what is found by looking ahead is the greatest column of this run, and
that no other place of the program has a part in it.
-/

namespace Applesoft.Listing

open Checked (fragmentAt? highest? itemBehind itemsBehind)

/-- A fragment at its place in a line. -/
structure Site where
  line : Line
  index : Nat
  fragment : Fragment

/-- The fragments of a line from a place on, which is given along with them. -/
def sitesBehind (line : Line) (index : Nat) (fragments : List Fragment) : List Site :=
  (fragments.zipIdx index).map fun entry => ⟨line, entry.2, entry.1⟩

def sites (line : Line) : List Site :=
  sitesBehind line 0 line.fragments

/-- All places from one on, in the order of the program. Behind an IF they end with the line. -/
def sitesFrom (lines : List Line) (number index : Nat) : List Site :=
  match lines.drop number with
  | [] => []
  | line :: following =>
      (sites line).drop index ++
        if (line.fragments.take index).any Fragment.isCondition then []
        else following.flatMap sites

namespace Site

def column (options : Options) (site : Site) : Nat :=
  site.fragment.equalsColumn options

/-- What matters of a place: its fragment, and whether that is a remark behind a statement of its
line that is shown. -/
def view (site : Site) : Fragment × Bool :=
  (site.fragment, site.line.isJoinableRemark site.index)

/-- Whether a place can stand in a run. -/
def continuesRun (options : Options) (site : Site) : Bool :=
  site.fragment.isEmpty || 0 < site.column options ||
    (!options.splitRem && site.line.isJoinableRemark site.index)

/-- The item of a fragment that is shown. -/
def item (site : Site) : Item :=
  itemBehind (site.line.fragments.take site.index) site.fragment

end Site

/-- The longest run from a place on. -/
def runAt (options : Options) (lines : List Line) (number index : Nat) : List Site :=
  (sitesFrom lines number index).takeWhile (Site.continuesRun options)

/-- Whether places are such that no run goes on with them. -/
def EndsRun (options : Options) (rest : List Site) : Prop :=
  ∀ site ∈ rest.head?, site.continuesRun options = false

/-- Whether two stretches of places look the same up to where a run ends in both of them. -/
def AgreeThroughRun (options : Options) (left right : List Site) : Prop :=
  ∃ leftRun leftRest rightRun rightRest,
    left = leftRun ++ leftRest ∧ right = rightRun ++ rightRest ∧
      leftRun.map Site.view = rightRun.map Site.view ∧
      EndsRun options leftRest ∧ EndsRun options rightRest

section Sites

variable {options : Options} {line : Line} {before behind : List Fragment} {fragment : Fragment}

theorem sitesBehind_append (line : Line) (index : Nat) (left right : List Fragment) :
    sitesBehind line index (left ++ right) =
      sitesBehind line index left ++ sitesBehind line (index + left.length) right := by
  rw [sitesBehind, List.zipIdx_append, List.map_append]
  rfl

theorem drop_sites (shape : line.fragments = before ++ behind) :
    (sites line).drop before.length = sitesBehind line before.length behind := by
  have length : (sitesBehind line 0 before).length = before.length := by
    simp [sitesBehind]
  rw [sites, shape, sitesBehind_append, ← length, List.drop_left, length, Nat.zero_add]

/-- The items of a line are those of the places that are shown. -/
theorem map_item_sitesBehind (shape : line.fragments = before ++ behind) :
    ((sitesBehind line before.length behind).filter fun site => !site.fragment.isEmpty).map
        Site.item = itemsBehind before behind := by
  induction behind generalizing before with
  | nil => rfl
  | cons fragment rest hypothesis =>
      have onward : line.fragments = (before ++ [fragment]) ++ rest := by simpa using shape
      have later := hypothesis onward
      have next : (before ++ [fragment]).length = before.length + 1 := List.length_append
      rw [next] at later
      have front : line.fragments.take before.length = before := by simp [shape]
      have first : sitesBehind line before.length (fragment :: rest) =
          ⟨line, before.length, fragment⟩ :: sitesBehind line (before.length + 1) rest := rfl
      rw [first]
      cases shown : fragment.isEmpty with
      | true =>
          rw [List.filter_cons_of_neg (by simp [shown]), later,
            Checked.itemsBehind_of_isEmpty shown]
      | false =>
          rw [List.filter_cons_of_pos (by simp [shown]), List.map_cons, later,
            Checked.itemsBehind_of_shown shown, Site.item, front]

theorem map_item_sites (line : Line) :
    ((sites line).filter fun site => !site.fragment.isEmpty).map Site.item = items line :=
  map_item_sitesBehind (List.nil_append line.fragments).symm

theorem getElem?_of_mem_sites {site : Site} (member : site ∈ sites line) :
    site.line.fragments[site.index]? = some site.fragment := by
  obtain ⟨entry, placed, rfl⟩ := List.mem_map.1 member
  exact List.mem_zipIdx_iff_getElem?.1 placed

theorem getElem?_of_mem_sitesFrom
    {lines : List Line} {number index : Nat} {site : Site}
    (member : site ∈ sitesFrom lines number index) :
    site.line.fragments[site.index]? = some site.fragment := by
  rw [sitesFrom] at member
  split at member
  · cases member
  · rcases List.mem_append.1 member with onLine | further
    · exact getElem?_of_mem_sites (List.mem_of_mem_drop onLine)
    · split at further
      · cases further
      · obtain ⟨other, _, there⟩ := List.mem_flatMap.1 further
        exact getElem?_of_mem_sites there

/-- A place that is shown can stand in a run if its item can. -/
theorem continuesRun_eq
    {site : Site} (placed : site.line.fragments[site.index]? = some site.fragment) :
    site.continuesRun options =
      (site.fragment.isEmpty || site.item.continuesRun options) := by
  obtain ⟨inside, found⟩ := List.getElem?_eq_some_iff.1 placed
  have shape : site.line.fragments = site.line.fragments.take site.index ++
      site.fragment :: site.line.fragments.drop (site.index + 1) := by
    rw [← found, List.getElem_cons_drop, List.take_append_drop]
  have joined := isJoined_eq_isJoinableRemark options
    ((site.line.fragments.take site.index).any Fragment.isCondition) shape
  rw [List.length_take_of_le inside.le] at joined
  rw [Site.continuesRun, ← joined, Bool.or_assoc]
  rfl

/-- The run of the items that are shown has the items of the run. -/
theorem takeWhile_continuesRun
    {places : List Site}
    (placed : ∀ site ∈ places, site.line.fragments[site.index]? = some site.fragment) :
    ((places.filter fun site => !site.fragment.isEmpty).map Site.item).takeWhile
        (Item.continuesRun options) =
      ((places.takeWhile (Site.continuesRun options)).filter fun site =>
        !site.fragment.isEmpty).map Site.item := by
  induction places with
  | nil => rfl
  | cons site rest hypothesis =>
      rw [List.forall_mem_cons] at placed
      have later := hypothesis placed.2
      rw [List.takeWhile_cons, continuesRun_eq placed.1]
      cases shown : site.fragment.isEmpty with
      | true => simpa [shown] using later
      | false =>
          rw [List.filter_cons_of_pos (by simp [shown]), List.map_cons, List.takeWhile_cons,
            Bool.false_or]
          cases further : site.item.continuesRun options with
          | true => simpa [shown] using later
          | false => rfl

end Sites

section Columns

variable {options : Options} {lines above following : List Line} {line : Line}
  {before behind : List Fragment} {fragment : Fragment}

theorem sitesFrom_eq
    (lineShape : lines = above ++ line :: following)
    (shape : line.fragments = before ++ behind) :
    sitesFrom lines above.length before.length =
      sitesBehind line before.length behind ++
        if before.any Fragment.isCondition then [] else following.flatMap sites := by
  have left : lines.drop above.length = line :: following := by
    rw [lineShape, List.drop_left]
  have front : line.fragments.take before.length = before := by simp [shape]
  rw [sitesFrom, left]
  simp only [drop_sites shape, front]

theorem runFrom_eq_takeWhile (item : Item) (later : List Item) :
    runFrom options item later following =
      (item :: later ++ if item.conditional then [] else following.flatMap items).takeWhile
        (Item.continuesRun options) := by
  rw [runFrom]
  have onLine := (List.takeWhile_sublist (Item.continuesRun options)
    (l := item :: later)).length_le
  rw [List.length_cons] at onLine
  cases item.conditional with
  | true => rw [Bool.true_or, if_pos rfl, if_pos rfl, List.append_nil]
  | false =>
      rw [Bool.false_or, if_neg Bool.false_ne_true, List.takeWhile_append, List.length_cons]
      by_cases whole : ((item :: later).takeWhile (Item.continuesRun options)).length =
          later.length + 1
      · have same := (List.takeWhile_sublist (Item.continuesRun options)).eq_of_length whole
        rw [if_pos whole, if_neg (by simp [whole]), same, takeAcross_eq_takeWhile]
      · rw [if_neg whole, if_pos (decide_eq_true (by omega))]

/-- The run that is looked ahead through has the items of the run of places. -/
theorem runFrom_eq_map_item
    (lineShape : lines = above ++ line :: following)
    (shape : line.fragments = before ++ fragment :: behind)
    (shown : fragment.isEmpty = false) :
    runFrom options (itemBehind before fragment) (itemsBehind (before ++ [fragment]) behind)
        following =
      ((runAt options lines above.length before.length).filter fun site =>
        !site.fragment.isEmpty).map Site.item := by
  have further :
      ((if before.any Fragment.isCondition then [] else following.flatMap sites).filter
        fun site => !site.fragment.isEmpty).map Site.item =
      if before.any Fragment.isCondition then [] else following.flatMap items := by
    split
    · rfl
    · rw [List.filter_flatMap, List.map_flatMap]
      simp only [map_item_sites]
  rw [runFrom_eq_takeWhile, runAt,
    ← takeWhile_continuesRun fun site => getElem?_of_mem_sitesFrom, sitesFrom_eq lineShape shape,
    List.filter_append, List.map_append, map_item_sitesBehind shape,
    Checked.itemsBehind_of_shown shown, further]
  rfl

theorem column_eq_zero_of_isEmpty {site : Site} (empty : site.fragment.isEmpty = true) :
    site.column options = 0 := by
  have statement : site.fragment.statement = .empty := of_decide_eq_true empty
  simp [Site.column, Fragment.equalsColumn, Fragment.assignPosition, statement]

theorem statement_of_assigns (assigns : 0 < fragment.equalsColumn options) :
    fragment.statement = .assignment := by
  have ofItem : 0 < (itemBehind [] fragment).ownColumn options := assigns
  exact Item.statement_of_ownColumn_pos ofItem

theorem isEmpty_eq_false_of_assigns (assigns : 0 < fragment.equalsColumn options) :
    fragment.isEmpty = false := by
  simp [Fragment.isEmpty, statement_of_assigns assigns]

/-- Separators have no column, so a run has the greatest column of the items in it. -/
theorem max?_map_column
    {run : List Site} {start : Site} (member : start ∈ run)
    (assigns : 0 < start.column options) :
    (run.map (Site.column options)).max? =
      some (rightmost options
        ((run.filter fun site => !site.fragment.isEmpty).map Site.item)) := by
  generalize shape : (run.filter fun site => !site.fragment.isEmpty).map Site.item = shown
  obtain ⟨attained, bound⟩ := @rightmost_spec options shown
  have above (site : Site) (among : site ∈ run) :
      site.column options ≤ rightmost options shown := by
    cases empty : site.fragment.isEmpty with
    | true =>
        rw [column_eq_zero_of_isEmpty empty]
        exact Nat.zero_le _
    | false =>
        apply bound
        apply List.mem_cons_of_mem
        rw [← shape, List.map_map]
        exact List.mem_map.2 ⟨site, List.mem_filter.2 ⟨among, by simp [empty]⟩, rfl⟩
  apply List.max?_eq_some_iff.2
  refine ⟨?_, List.forall_mem_map.2 above⟩
  rcases List.mem_cons.1 attained with zero | ofItem
  · have least := above start member
    omega
  · obtain ⟨item, itemMember, column⟩ := List.mem_map.1 ofItem
    rw [← shape] at itemMember
    obtain ⟨site, among, rfl⟩ := List.mem_map.1 itemMember
    exact List.mem_map.2 ⟨site, List.mem_of_mem_filter among, column⟩

theorem sitesBehind_cons (line : Line) (index : Nat) (fragment : Fragment)
    (rest : List Fragment) :
    sitesBehind line index (fragment :: rest) =
      ⟨line, index, fragment⟩ :: sitesBehind line (index + 1) rest :=
  rfl

/-- Looking ahead from an assignment finds the greatest column of its run. -/
theorem highest?_eq_max?
    (lineShape : lines = above ++ line :: following)
    (shape : line.fragments = before ++ fragment :: behind)
    (assigns : 0 < fragment.equalsColumn options) :
    highest? options lines above.length before.length =
      ((runAt options lines above.length before.length).map (Site.column options)).max? := by
  have first : ⟨line, before.length, fragment⟩ ∈
      runAt options lines above.length before.length := by
    have continues : Site.continuesRun options ⟨line, before.length, fragment⟩ = true := by
      simp [Site.continuesRun, Site.column, assigns]
    rw [runAt, sitesFrom_eq lineShape shape, sitesBehind_cons, List.cons_append,
      List.takeWhile_cons_of_pos continues]
    exact List.mem_cons_self
  rw [Checked.highest?_eq lineShape shape assigns, max?_map_column first assigns,
    runFrom_eq_map_item lineShape shape (isEmpty_eq_false_of_assigns assigns)]

/-- The columns of a run follow from what its places look like. -/
theorem map_column_takeWhile_append
    {run rest : List Site} (ends : EndsRun options rest) :
    ((run ++ rest).takeWhile (Site.continuesRun options)).map (Site.column options) =
      ((run.map Site.view).takeWhile fun seen =>
        seen.1.isEmpty || 0 < seen.1.equalsColumn options || (!options.splitRem && seen.2)).map
          fun seen => seen.1.equalsColumn options := by
  have stops : rest.takeWhile (Site.continuesRun options) = [] := by
    cases rest with
    | nil => rfl
    | cons site others =>
        have ending : site.continuesRun options = false := ends site rfl
        rw [List.takeWhile_cons, ending]
        rfl
  have front : (run ++ rest).takeWhile (Site.continuesRun options) =
      run.takeWhile (Site.continuesRun options) := by
    rw [List.takeWhile_append, stops, List.append_nil]
    split
    · next whole => exact ((List.takeWhile_sublist _).eq_of_length whole).symm
    · rfl
  rw [front, List.takeWhile_map, List.map_map]
  rfl

/-- What is found does not depend on anything but the run and its end. -/
theorem map_column_runAt_of_agree
    {others : List Line} {number index otherNumber otherIndex : Nat}
    (agree : AgreeThroughRun options (sitesFrom lines number index)
      (sitesFrom others otherNumber otherIndex)) :
    (runAt options lines number index).map (Site.column options) =
      (runAt options others otherNumber otherIndex).map (Site.column options) := by
  obtain ⟨leftRun, leftRest, rightRun, rightRest, left, right, same, leftEnds, rightEnds⟩ := agree
  rw [runAt, runAt, left, right, map_column_takeWhile_append leftEnds,
    map_column_takeWhile_append rightEnds, same]

end Columns

theorem exists_shape_of_fragmentAt?
    {lines : List Line} {number index : Nat} {fragment : Fragment}
    (found : fragmentAt? lines number index = some fragment) :
    ∃ above line following before behind,
      lines = above ++ line :: following ∧ above.length = number ∧
        line.fragments = before ++ fragment :: behind ∧ before.length = index := by
  rw [fragmentAt?, Option.bind_eq_bind, Option.bind_eq_some_iff] at found
  obtain ⟨line, lineFound, fragmentFound⟩ := found
  obtain ⟨lineInside, rfl⟩ := List.getElem?_eq_some_iff.1 lineFound
  obtain ⟨inside, rfl⟩ := List.getElem?_eq_some_iff.1 fragmentFound
  refine ⟨lines.take number, lines[number], lines.drop (number + 1),
    lines[number].fragments.take index, lines[number].fragments.drop (index + 1), ?_, ?_, ?_, ?_⟩
  · rw [List.getElem_cons_drop, List.take_append_drop]
  · exact List.length_take_of_le lineInside.le
  · rw [List.getElem_cons_drop, List.take_append_drop]
  · exact List.length_take_of_le inside.le

/-- A line has the items of what stands before a fragment, then its own, then those behind it. -/
theorem exists_items_eq
    {line : Line} {before behind : List Fragment} {fragment : Fragment}
    (shape : line.fragments = before ++ fragment :: behind) (shown : fragment.isEmpty = false) :
    ∃ front, items line =
        front ++ itemBehind before fragment :: itemsBehind (before ++ [fragment]) behind ∧
      front.map Item.fragment = before.filter fun other => !other.isEmpty := by
  have whole : sites line =
      sitesBehind line 0 before ++ sitesBehind line before.length (fragment :: behind) := by
    rw [sites, shape, sitesBehind_append, Nat.zero_add]
  have fragments : (sitesBehind line 0 before).map Site.fragment = before := by
    rw [sitesBehind, List.map_map]
    exact List.zipIdx_map_fst 0 before
  refine ⟨((sitesBehind line 0 before).filter fun site => !site.fragment.isEmpty).map Site.item,
    ?_, ?_⟩
  · rw [← map_item_sites, whole, List.filter_append, List.map_append,
      map_item_sitesBehind shape, Checked.itemsBehind_of_shown shown]
  · calc (((sitesBehind line 0 before).filter fun site => !site.fragment.isEmpty).map
          Site.item).map Item.fragment
        = ((sitesBehind line 0 before).filter fun site => !site.fragment.isEmpty).map
            Site.fragment := List.map_map ..
      _ = ((sitesBehind line 0 before).map Site.fragment).filter fun other => !other.isEmpty :=
          (List.filter_map (p := fun other : Fragment => !other.isEmpty)).symm
      _ = before.filter fun other => !other.isEmpty := by rw [fragments]

/-- Behind a statement that is shown, every remark of its line is joinable. -/
theorem map_view_sitesBehind
    {line : Line} {before behind : List Fragment} (shape : line.fragments = before ++ behind)
    (shown : (before.any fun other => !other.isEmpty) = true) :
    (sitesBehind line before.length behind).map Site.view =
      behind.map fun fragment => (fragment, fragment.isRemark) := by
  induction behind generalizing before with
  | nil => rfl
  | cons fragment rest hypothesis =>
      have onward : line.fragments = (before ++ [fragment]) ++ rest := by simpa using shape
      have later := hypothesis onward (by rw [List.any_append, shown, Bool.true_or])
      rw [List.length_append, List.length_singleton] at later
      have joinable : line.isJoinableRemark before.length = fragment.isRemark := by
        have front : line.fragments.take before.length = before := by simp [shape]
        rw [Line.isJoinableRemark, front, shown, Bool.and_true]
        simp [shape]
      rw [sitesBehind_cons, List.map_cons, List.map_cons, later, Site.view, joinable]

/-- From an assignment on, what stands before it does not show. -/
theorem map_view_sitesBehind_of_assigns
    {options : Options} {line : Line} {before behind : List Fragment} {fragment : Fragment}
    (shape : line.fragments = before ++ fragment :: behind)
    (assigns : 0 < fragment.equalsColumn options) :
    (sitesBehind line before.length (fragment :: behind)).map Site.view =
      (fragment :: behind).map fun other => (other, other.isRemark) := by
  have noRemark : fragment.isRemark = false := by
    simp [Fragment.isRemark, statement_of_assigns assigns]
  have onward : line.fragments = (before ++ [fragment]) ++ behind := by simpa using shape
  have shown : ((before ++ [fragment]).any fun other => !other.isEmpty) = true := by
    simp [isEmpty_eq_false_of_assigns assigns]
  have later := map_view_sitesBehind onward shown
  rw [List.length_append, List.length_singleton] at later
  have joinable : line.isJoinableRemark before.length = false := by
    simp [Line.isJoinableRemark, shape, noRemark]
  rw [sitesBehind_cons, List.map_cons, List.map_cons, later, Site.view, joinable, noRemark]

/-- What is at a place and behind it, as far as looking ahead from the place goes. -/
def remainder? (lines : List Line) (number index : Nat) :
    Option (List Fragment × Bool × List Line) :=
  lines[number]?.map fun line =>
    (line.fragments.drop index, (line.fragments.take index).any Fragment.isCondition,
      lines.drop (number + 1))

theorem remainder?_eq
    {lines above following : List Line} {line : Line} {before behind : List Fragment}
    (lineShape : lines = above ++ line :: following) (shape : line.fragments = before ++ behind) :
    remainder? lines above.length before.length =
      some (behind, before.any Fragment.isCondition, following) := by
  have found : lines[above.length]? = some line := by simp [lineShape]
  have further : lines.drop (above.length + 1) = following := by simp [lineShape]
  rw [remainder?, found, Option.map_some, further]
  simp [shape]

/-- From an assignment on, what stands before it has no part in what is found, except that an IF
ends the run with the line. -/
theorem agreeThroughRun_of_remainder?_eq
    {options : Options} {lines others : List Line} {number index otherNumber otherIndex : Nat}
    {fragment : Fragment}
    (found : fragmentAt? lines number index = some fragment)
    (otherFound : fragmentAt? others otherNumber otherIndex = some fragment)
    (assigns : 0 < fragment.equalsColumn options)
    (same : remainder? lines number index = remainder? others otherNumber otherIndex) :
    AgreeThroughRun options (sitesFrom lines number index)
      (sitesFrom others otherNumber otherIndex) := by
  obtain ⟨above, line, following, before, behind, lineShape, rfl, shape, rfl⟩ :=
    exists_shape_of_fragmentAt? found
  obtain ⟨above', line', following', before', behind', lineShape', rfl, shape', rfl⟩ :=
    exists_shape_of_fragmentAt? otherFound
  rw [remainder?_eq lineShape shape, remainder?_eq lineShape' shape', Option.some.injEq,
    Prod.mk.injEq, Prod.mk.injEq, List.cons.injEq] at same
  obtain ⟨⟨_, rfl⟩, conditions, rfl⟩ := same
  refine ⟨_, [], _, [], (List.append_nil _).symm, (List.append_nil _).symm, ?_, ?_, ?_⟩
  · rw [sitesFrom_eq lineShape shape, sitesFrom_eq lineShape' shape', List.map_append,
      List.map_append, map_view_sitesBehind_of_assigns shape assigns,
      map_view_sitesBehind_of_assigns shape' assigns, conditions]
  · intro site atFront
    cases atFront
  · intro site atFront
    cases atFront

/-- Looking ahead from an assignment finds the greatest column of the run from there on, both when
the program is looked through fragment by fragment and when its lines are laid out. Neither what is
behind the end of the run nor what is before the assignment has a part in it, but for an IF before
it in its line. -/
theorem highest?_is_greatest_of_run
    {options : Options} {lines : List Line} {number index : Nat} {fragment : Fragment}
    (found : fragmentAt? lines number index = some fragment)
    (assigns : 0 < fragment.equalsColumn options) :
    let greatest := ((runAt options lines number index).map (Site.column options)).max?
    highest? options lines number index = greatest ∧
      (∃ line ∈ lines[number]?, ∃ front item later,
        items line = front ++ item :: later ∧ item.fragment = fragment ∧
          front.map Item.fragment =
            (line.fragments.take index).filter (fun other => !other.isEmpty) ∧
          some (columnAt options item later (lines.drop (number + 1)) 0) = greatest) ∧
      ∀ others otherNumber otherIndex,
        fragmentAt? others otherNumber otherIndex = some fragment →
          AgreeThroughRun options (sitesFrom lines number index)
              (sitesFrom others otherNumber otherIndex) ∨
            remainder? lines number index = remainder? others otherNumber otherIndex →
          highest? options others otherNumber otherIndex = greatest := by
  obtain ⟨above, line, following, before, behind, lineShape, rfl, shape, rfl⟩ :=
    exists_shape_of_fragmentAt? found
  intro greatest
  have loop : highest? options lines above.length before.length = greatest :=
    highest?_eq_max? lineShape shape assigns
  refine ⟨loop, ?_, ?_⟩
  · obtain ⟨front, whole, fronts⟩ :=
      exists_items_eq shape (isEmpty_eq_false_of_assigns assigns)
    have lineFound : lines[above.length]? = some line := by simp [lineShape]
    have further : lines.drop (above.length + 1) = following := by simp [lineShape]
    have earlier : line.fragments.take before.length = before := by simp [shape]
    refine ⟨line, lineFound, front, _, _, whole, Checked.fragment_itemBehind .., ?_, ?_⟩
    · rw [earlier, fronts]
    · rw [further, columnAt, Checked.fragment_itemBehind, if_neg assigns.ne', if_pos rfl,
        ← Checked.highest?_eq lineShape shape assigns, loop]
  · intro others otherNumber otherIndex otherFound same
    have agree : AgreeThroughRun options (sitesFrom lines above.length before.length)
        (sitesFrom others otherNumber otherIndex) := by
      cases same with
      | inl agree => exact agree
      | inr remainder =>
          exact agreeThroughRun_of_remainder?_eq found otherFound assigns remainder
    obtain ⟨above', line', following', before', behind', lineShape', rfl, shape', rfl⟩ :=
      exists_shape_of_fragmentAt? otherFound
    rw [highest?_eq_max? lineShape' shape' assigns, ← map_column_runAt_of_agree agree]

/-- A run goes on across a separator, a joined remark and the end of a line. The assignment behind
the statement that ends it would be further to the right. -/
theorem highest?_ends_before_print :
    let lines := (Program.decode
      (encode 0x801 [(10, [0x41, 0xD0, 0x31, 0x3A, 0x3A, 0xB2, 0x58]),
        (20, [0x42, 0x43, 0xD0, 0x32, 0x3A, 0xBA, 0x3A, 0x4C, 0x4F, 0x4E, 0x47, 0xD0,
          0x33])])).lines
    highest? {} lines 0 0 = some 3 ∧ (runAt {} lines 0 0).length = 4 ∧
      ((runAt {} lines 0 0).map (Site.column {})).max? = some 3 := by
  intro lines
  obtain ⟨fragment, found, assigns, looked, length⟩ :
      ∃ fragment, fragmentAt? lines 0 0 = some fragment ∧ 0 < fragment.equalsColumn {} ∧
        highest? {} lines 0 0 = some 3 ∧ (runAt {} lines 0 0).length = 4 := by
    refine ⟨((fragmentAt? lines 0 0).get (by decide +kernel)), Option.eq_some_of_isSome _, ?_⟩
    decide +kernel
  have greatest := (highest?_is_greatest_of_run found assigns).1
  exact ⟨looked, length, greatest.symm.trans looked⟩

end Applesoft.Listing
