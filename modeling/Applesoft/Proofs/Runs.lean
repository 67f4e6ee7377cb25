import Mathlib.Data.List.SplitBy
import Applesoft.Listing.Remark
import Applesoft.Listing.Alignment

/-!
Runs of assignments, and chains of runs. A run is a longest stretch of items that follow each other
and are assignments or joined remarks. A chain is a longer stretch, in which remarks that are not
shown as texts stand between runs.

The main statement is that looking ahead from an assignment sees the rest of its run.
-/

namespace Applesoft.Listing

section Stretch

variable {alpha beta : Type} {related : alpha → alpha → Bool}

/-- The longest stretch from an element on in which neighbours are related. -/
def stretch (related : alpha → alpha → Bool) : alpha → List alpha → List alpha
  | first, [] => [first]
  | first, second :: rest =>
      if related first second then first :: stretch related second rest else [first]

theorem mem_stretch (first : alpha) (rest : List alpha) :
    first ∈ stretch related first rest := by
  cases rest with
  | nil => exact List.mem_cons_self
  | cons second rest =>
      rw [stretch]
      split
      · exact List.mem_cons_self
      · exact List.mem_cons_self

/-- Whether no last element is related to a first one behind it. -/
def Breaks (related : alpha → alpha → Bool) (front rest : List alpha) : Prop :=
  ∀ last ∈ front.getLast?, ∀ first ∈ rest.head?, related last first = false

theorem Breaks.tail
    {first second : alpha} {others rest : List alpha}
    (breaks : Breaks related (first :: second :: others) rest) :
    Breaks related (second :: others) rest := by
  intro last member
  apply breaks last
  rw [List.getLast?_cons_cons]
  exact member

theorem stretch_append
    {first : alpha} {others rest : List alpha}
    (breaks : Breaks related (first :: others) rest) :
    stretch related first (others ++ rest) = stretch related first others := by
  induction others generalizing first with
  | nil =>
      cases rest with
      | nil => rfl
      | cons next rest =>
          have apart : related first next = false := breaks first rfl next rfl
          simp [stretch, apart]
  | cons second others hypothesis =>
      rw [List.cons_append, stretch, stretch, hypothesis breaks.tail]

theorem map_stretch
    {other : beta → beta → Bool} {view : beta → alpha}
    (same : ∀ left right, other left right = related (view left) (view right))
    (first : beta) (rest : List beta) :
    (stretch other first rest).map view = stretch related (view first) (rest.map view) := by
  induction rest generalizing first with
  | nil => rfl
  | cons second rest hypothesis =>
      rw [List.map_cons, stretch, stretch, same]
      split
      · rw [List.map_cons, hypothesis]
      · rfl

theorem splitBy_cons_of_not_related
    {first second : alpha} {rest : List alpha} (apart : related first second = false) :
    (first :: second :: rest).splitBy related =
      [first] :: (second :: rest).splitBy related := by
  have breaks : ∀ last ∈ [first].getLast?, related last second = false := by
    simpa using apart
  exact List.splitBy_append_cons rest breaks

theorem splitBy_cons_of_related
    {first second : alpha} {rest group : List alpha} {groups : List (List alpha)}
    (linked : related first second = true)
    (split : (second :: rest).splitBy related = group :: groups) :
    (first :: second :: rest).splitBy related = (first :: group) :: groups := by
  obtain ⟨whole, nonempty, chains, breaks⟩ := List.splitBy_eq_iff.1 split
  cases group with
  | nil => simp at nonempty
  | cons head others =>
      obtain rfl : second = head := (List.cons.inj whole).1
      refine List.splitBy_eq_iff.2 ⟨?_, ?_, ?_, ?_⟩
      · rw [whole]
        rfl
      · simpa using nonempty
      · intro member among
        rcases List.mem_cons.1 among with rfl | later
        · exact List.IsChain.cons_cons linked (chains _ List.mem_cons_self)
        · exact chains member (List.mem_cons_of_mem _ later)
      · rw [List.isChain_cons] at breaks ⊢
        refine ⟨?_, breaks.2⟩
        intro next member
        obtain ⟨_, nextNonempty, apart⟩ := breaks.1 next member
        exact ⟨by simp, nextNonempty, by simpa using apart⟩

theorem exists_splitBy_cons (first : alpha) (rest : List alpha) :
    ∃ groups, (first :: rest).splitBy related = stretch related first rest :: groups := by
  induction rest generalizing first with
  | nil => exact ⟨[], rfl⟩
  | cons second rest hypothesis =>
      obtain ⟨groups, split⟩ := hypothesis second
      rw [stretch]
      cases linked : related first second with
      | false => exact ⟨_, splitBy_cons_of_not_related linked⟩
      | true => exact ⟨groups, splitBy_cons_of_related linked split⟩

/-- Whether each group is linked, and nothing links it to what comes behind it. -/
def Separated (related : alpha → alpha → Bool) : List (List alpha) → Prop
  | [] => True
  | group :: others =>
      group.IsChain (fun left right => related left right = true) ∧
        Breaks related group others.flatten ∧ Separated related others

theorem separated_splitBy (elements : List alpha) :
    Separated related (elements.splitBy related) := by
  obtain ⟨_, nonempty, chains, breaks⟩ :=
    List.splitBy_eq_iff.1 (rfl : elements.splitBy related = elements.splitBy related)
  generalize elements.splitBy related = groups at nonempty chains breaks ⊢
  induction groups with
  | nil => trivial
  | cons group others hypothesis =>
      rw [List.isChain_cons] at breaks
      rw [List.mem_cons, not_or] at nonempty
      refine ⟨chains group List.mem_cons_self, ?_, hypothesis nonempty.2
        (fun member among => chains member (List.mem_cons_of_mem group among)) breaks.2⟩
      cases others with
      | nil =>
          intro last _ first member
          simp at member
      | cons next more =>
          obtain ⟨groupNonempty, nextNonempty, apart⟩ := breaks.1 next rfl
          intro last lastMember first firstMember
          rw [List.getLast?_eq_some_getLast groupNonempty] at lastMember
          rw [List.flatten_cons, List.head?_append_of_ne_nil _ nextNonempty,
            List.head?_eq_some_head nextNonempty] at firstMember
          cases lastMember
          cases firstMember
          exact apart

theorem Breaks.mono
    {finer : alpha → alpha → Bool} {front rest : List alpha}
    (coarser : ∀ left right, finer left right = true → related left right = true)
    (breaks : Breaks related front rest) :
    Breaks finer front rest := by
  intro last lastMember first firstMember
  have apart := breaks last lastMember first firstMember
  by_contra linked
  rw [Bool.not_eq_false] at linked
  rw [coarser last first linked] at apart
  cases apart

/-- Groups of a coarser relation are divided on their own. -/
theorem flatMap_splitBy_splitBy
    {finer : alpha → alpha → Bool}
    (coarser : ∀ left right, finer left right = true → related left right = true)
    (elements : List alpha) :
    (elements.splitBy related).flatMap (List.splitBy finer) = elements.splitBy finer := by
  have separated : Separated related (elements.splitBy related) :=
    separated_splitBy elements
  have whole := List.flatten_splitBy related elements
  generalize elements.splitBy related = groups at separated whole ⊢
  rw [← whole]
  clear whole
  induction groups with
  | nil => rfl
  | cons group others hypothesis =>
      obtain ⟨_, breaks, separatedOthers⟩ := separated
      rw [List.flatMap_cons, List.flatten_cons, List.splitBy_append (breaks.mono coarser),
        hypothesis separatedOthers]

end Stretch

section Items

variable {line : Line} {before behind : List Fragment} {fragment : Fragment}

/-- The remarks that are joined are the joinable ones, unless remarks are split off. -/
theorem isJoined_eq_isJoinableRemark
    (options : Options) (conditional : Bool)
    (shape : line.fragments = before ++ fragment :: behind) :
    Item.isJoined options ⟨fragment, before.all Fragment.isEmpty, conditional⟩ =
      (!options.splitRem && line.isJoinableRemark before.length) := by
  have index : line.fragments[before.length]? = some fragment := by simp [shape]
  have front : line.fragments.take before.length = before := by simp [shape]
  have shownBefore :
      (before.any fun other => !other.isEmpty) = !before.all Fragment.isEmpty := by
    rw [List.not_all_eq_any_not]
  rw [Item.isJoined, Line.isJoinableRemark, index, front, shownBefore, Option.any_some,
    Bool.and_assoc]

end Items

namespace Item

/-- The column of the equals sign of an assignment; zero for any other item. -/
def ownColumn (options : Options) (item : Item) : Nat :=
  item.fragment.equalsColumn options

/-- Whether two items that follow each other are in one run: none is anything but an assignment or
a joined remark, and no line with an IF before them ends between them. -/
def joinsRun (options : Options) (left right : Item) : Bool :=
  left.continuesRun options && right.continuesRun options &&
    !(left.conditional && right.leading)

/-- Whether an item leaves the column in effect, or sets one: an assignment does, a joined remark,
and a remark that is not shown as a text. -/
def carriesColumn (options : Options) (item : Item) : Bool :=
  item.continuesRun options || remarkForm item.fragment ≠ .plain

/-- Whether two items that follow each other are in one chain of runs. -/
def sharesColumn (options : Options) (left right : Item) : Bool :=
  left.carriesColumn options && right.carriesColumn options &&
    !(left.conditional && right.leading)

theorem sharesColumn_of_joinsRun
    {options : Options} {left right : Item} (joins : left.joinsRun options right = true) :
    left.sharesColumn options right = true := by
  simp only [joinsRun, sharesColumn, carriesColumn, Bool.and_eq_true, Bool.or_eq_true] at joins ⊢
  obtain ⟨⟨leftContinues, rightContinues⟩, sameLine⟩ := joins
  exact ⟨⟨Or.inl leftContinues, Or.inl rightContinues⟩, sameLine⟩

theorem statement_of_ownColumn_pos
    {options : Options} {item : Item} (assigns : 0 < item.ownColumn options) :
    item.fragment.statement = .assignment := by
  by_contra other
  simp [ownColumn, Fragment.equalsColumn, Fragment.assignPosition, other] at assigns

theorem isCondition_of_carriesColumn
    {options : Options} {item : Item} (carries : item.carriesColumn options = true) :
    item.fragment.isCondition = false := by
  by_contra condition
  have statement : item.fragment.statement = .condition := by
    simpa [Fragment.isCondition] using condition
  simp [carriesColumn, continuesRun, isJoined, remarkForm, Fragment.isRemark,
    Fragment.equalsColumn, Fragment.assignPosition, statement] at carries

theorem carriesColumn_of_continuesRun
    {options : Options} {item : Item} (continues : item.continuesRun options = true) :
    item.carriesColumn options = true := by
  simp [carriesColumn, continues]

end Item

section LookAhead

variable {options : Options} {item : Item} {following : List Line}

theorem leading_of_head?_items
    {next : Item} (member : next ∈ (following.flatMap items).head?) :
    next.leading = true := by
  induction following with
  | nil => simp at member
  | cons line following hypothesis =>
      rw [List.flatMap_cons, items] at member
      cases visible : line.visible with
      | nil =>
          rw [visible, itemsFrom, List.nil_append] at member
          exact hypothesis member
      | cons fragment others =>
          rw [visible, itemsFrom] at member
          cases member
          rfl

/-- Behind an IF, a run ends with its line. -/
theorem stretch_conditional
    {fragments : List Fragment} {tail : List Item}
    (conditional : item.conditional = true)
    (continues : item.continuesRun options = true)
    (leading : ∀ next ∈ tail.head?, next.leading = true) :
    stretch (Item.joinsRun options) item (itemsFrom false true fragments ++ tail) =
      item :: (itemsFrom false true fragments).takeWhile (Item.continuesRun options) := by
  induction fragments generalizing item with
  | nil =>
      rw [itemsFrom, List.nil_append, List.takeWhile_nil]
      cases tail with
      | nil => rfl
      | cons next rest =>
          have begins := leading next rfl
          simp [stretch, Item.joinsRun, conditional, begins]
  | cons fragment others hypothesis =>
      rw [itemsFrom, Bool.true_or, List.cons_append, stretch, List.takeWhile_cons]
      cases further : Item.continuesRun options ⟨fragment, false, true⟩ with
      | false => simp [Item.joinsRun, further]
      | true =>
          rw [hypothesis rfl further]
          simp [Item.joinsRun, continues, further]

/-- Without an IF, a run goes on as long as there is nothing but assignments and joined remarks. -/
theorem stretch_unconditional_line
    {leading : Bool} {fragments : List Fragment} {tail : List Item}
    (unconditional : item.conditional = false)
    (continues : item.continuesRun options = true)
    (onward : ∀ last : Item, last.conditional = false → last.continuesRun options = true →
      stretch (Item.joinsRun options) last tail =
        last :: tail.takeWhile (Item.continuesRun options)) :
    stretch (Item.joinsRun options) item (itemsFrom leading false fragments ++ tail) =
      item :: (itemsFrom leading false fragments ++ tail).takeWhile
        (Item.continuesRun options) := by
  induction fragments generalizing item leading with
  | nil => exact onward item unconditional continues
  | cons fragment others hypothesis =>
      rw [itemsFrom, Bool.false_or, List.cons_append, stretch, List.takeWhile_cons]
      cases further : Item.continuesRun options ⟨fragment, leading, false⟩ with
      | false => simp [Item.joinsRun, further]
      | true =>
          have noCondition : fragment.isCondition = false :=
            Item.isCondition_of_carriesColumn (Item.carriesColumn_of_continuesRun further)
          rw [noCondition, hypothesis rfl further]
          simp [Item.joinsRun, continues, further, unconditional]

theorem stretch_unconditional
    (unconditional : item.conditional = false)
    (continues : item.continuesRun options = true) :
    stretch (Item.joinsRun options) item (following.flatMap items) =
      item :: (following.flatMap items).takeWhile (Item.continuesRun options) := by
  induction following generalizing item with
  | nil => rfl
  | cons line following hypothesis =>
      rw [List.flatMap_cons, items]
      exact stretch_unconditional_line unconditional continues
        fun last lastUnconditional lastContinues =>
          hypothesis lastUnconditional lastContinues

/-- Looking ahead from an assignment sees the rest of its run. -/
theorem runFrom_eq_stretch
    (assigns : 0 < item.ownColumn options) (fragments : List Fragment) :
    runFrom options item (itemsFrom false item.conditional fragments) following =
      stretch (Item.joinsRun options) item
        (itemsFrom false item.conditional fragments ++ following.flatMap items) := by
  have continues : item.continuesRun options = true := by
    simp only [Item.continuesRun, Bool.or_eq_true, decide_eq_true_eq]
    exact Or.inl assigns
  rw [runFrom, List.takeWhile_cons_of_pos continues]
  cases conditional : item.conditional with
  | true =>
      rw [stretch_conditional conditional continues fun next => leading_of_head?_items]
      simp
  | false =>
      rw [stretch_unconditional_line conditional continues
        fun last lastUnconditional lastContinues =>
          stretch_unconditional lastUnconditional lastContinues,
        List.takeWhile_append, takeAcross_eq_takeWhile]
      generalize itemsFrom false false fragments = later
      have onLine := List.takeWhile_sublist (Item.continuesRun options) (l := later)
      -- The run goes on in the next line only if it takes up the rest of its own.
      by_cases whole : (later.takeWhile (Item.continuesRun options)).length = later.length
      · rw [if_pos whole, if_neg (by simp [whole]), onLine.eq_of_length whole]
        rfl
      · have shorter := onLine.length_le
        rw [if_neg whole, if_pos]
        simp only [Bool.false_or, List.length_cons, decide_eq_true_eq]
        omega

end LookAhead

end Applesoft.Listing
