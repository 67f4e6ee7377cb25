import Applesoft.Proofs.Checked.Statements
import Applesoft.Proofs.Runs

namespace Applesoft.Checked

open Listing

/-- Whether the fragment at a place is a remark behind a statement that a listing shows. -/
def isJoinableRemark? (line : Line) (place : Nat) : Option Bool := do
  let fragment ← line.fragments[place]?
  if fragment.isRemark then
    let before ← slice? line.fragments 0 place
    some (before.any fun other => !other.isEmpty)
  else
    some false

/-- Whether the fragment at a place is joined to the statement before it. -/
def isJoined? (options : Options) (line : Line) (place : Nat) : Option Bool :=
  if options.splitRem then some false else isJoinableRemark? line place

/-- How far a run has been looked through. -/
structure Search where
  /-- The rightmost column so far. -/
  highest : Nat
  /-- Whether the first fragment of the run has been reached. -/
  started : Bool := false
  /-- Whether an IF is before it in its line. -/
  conditional : Bool := false
  /-- Whether the end of the run has been reached. -/
  finished : Bool := false

/-- Looks at the fragment at a place of a line, which may be the first one of the run. -/
def Search.step? (options : Options) (line : Line) (place : Nat) (isFirst : Bool)
    (fragment : Fragment) (search : Search) : Option Search :=
  if search.started then
    if fragment.isEmpty then
      some search
    else do
      let column ← equalsOffset? options fragment
      let joined ← isJoined? options line place
      if column = 0 && !joined then
        some { search with finished := true }
      else
        some { search with highest := max search.highest column }
  else if isFirst then
    some { search with started := true }
  else
    some { search with conditional := search.conditional || fragment.isCondition }

/-- Looks through the fragments of a line from a place on. -/
def searchFragments? (options : Options) (line : Line) (first : Option Nat) :
    Nat → List Fragment → Search → Option Search
  | _, [], search => some search
  | place, fragment :: rest, search => do
      let further ← search.step? options line place (first = some place) fragment
      if further.finished then
        some further
      else
        searchFragments? options line first (place + 1) rest further

/-- Looks through lines, given the number of the first of them. -/
def searchLines? (options : Options) (firstLine firstPlace : Nat) :
    Nat → List Line → Search → Option Search
  | _, [], search => some search
  | number, line :: rest, search => do
      let first := if number = firstLine then some firstPlace else none
      let further ← searchFragments? options line first 0 line.fragments
        { search with conditional := false }
      if further.finished || (further.started && further.conditional) then
        some further
      else
        searchLines? options firstLine firstPlace (number + 1) rest further

def fragmentAt? (lines : List Line) (number place : Nat) : Option Fragment := do
  let line ← lines[number]?
  line.fragments[place]?

/-- The rightmost column of the run from a fragment on. -/
def highest? (options : Options) (lines : List Line) (number place : Nat) : Option Nat := do
  let fragment ← fragmentAt? lines number place
  let own ← equalsOffset? options fragment
  let search ← searchLines? options number place number (lines.drop number) { highest := own }
  some search.highest

/-- The column in effect at a fragment, given the one before it. -/
def columnAt? (options : Options) (lines : List Line) (number place current : Nat) :
    Option Nat := do
  let fragment ← fragmentAt? lines number place
  let own ← equalsOffset? options fragment
  if own = 0 then
    some 0
  else if current = 0 then
    highest? options lines number place
  else
    some current

/-- The item of a fragment behind some others of its line. -/
def itemBehind (before : List Fragment) (fragment : Fragment) : Item where
  fragment := fragment
  leading := before.all Fragment.isEmpty
  conditional := before.any Fragment.isCondition

/-- The items of fragments behind some others of their line. -/
def itemsBehind (before behind : List Fragment) : List Item :=
  itemsFrom (before.all Fragment.isEmpty) (before.any Fragment.isCondition)
    (behind.filter fun fragment => !fragment.isEmpty)

/-- The column that is rightmost among those of some items and another one. -/
def raised (options : Options) (items : List Item) (column : Nat) : Nat :=
  (items.map fun item => item.fragment.equalsColumn options).foldl max column

section Search

variable {options : Options} {line : Line} {before behind : List Fragment} {fragment : Fragment}
  {search : Search} {first : Option Nat}

theorem isJoinableRemark?_eq (shape : line.fragments = before ++ fragment :: behind) :
    isJoinableRemark? line before.length = some (line.isJoinableRemark before.length) := by
  have found : line.fragments[before.length]? = some fragment := by simp [shape]
  have inside : before.length ≤ line.fragments.length := by
    rw [shape, List.length_append]
    exact Nat.le_add_right _ _
  rw [isJoinableRemark?, Line.isJoinableRemark, found, slice?_zero inside]
  cases remark : fragment.isRemark with
  | true => simp [remark]
  | false => simp [remark]

theorem itemsBehind_of_isEmpty (empty : fragment.isEmpty = true) :
    itemsBehind before (fragment :: behind) = itemsBehind (before ++ [fragment]) behind := by
  have noCondition : fragment.isCondition = false := by
    have statement : fragment.statement = .empty := by simpa [Fragment.isEmpty] using empty
    simp [Fragment.isCondition, statement]
  simp [itemsBehind, empty, noCondition]

@[simp]
theorem fragment_itemBehind (before : List Fragment) (fragment : Fragment) :
    (itemBehind before fragment).fragment = fragment :=
  rfl

@[simp]
theorem conditional_itemBehind (before : List Fragment) (fragment : Fragment) :
    (itemBehind before fragment).conditional = before.any Fragment.isCondition :=
  rfl

theorem itemsBehind_of_shown (shown : fragment.isEmpty = false) :
    itemsBehind before (fragment :: behind) =
      itemBehind before fragment :: itemsBehind (before ++ [fragment]) behind := by
  simp [itemsBehind, itemBehind, shown, itemsFrom]

theorem raised_append (left right : List Item) (column : Nat) :
    raised options (left ++ right) column = raised options right (raised options left column) := by
  rw [raised, List.map_append, List.foldl_append]
  rfl

theorem length_takeWhile_eq_iff (accepted : Item → Bool) (items : List Item) :
    (items.takeWhile accepted).length = items.length ↔ items.all accepted = true := by
  rw [List.all_eq_true, ← List.takeWhile_eq_self_iff]
  exact ⟨(List.takeWhile_sublist accepted).eq_of_length, congrArg List.length⟩

theorem itemsBehind_nil (line : Line) : itemsBehind [] line.fragments = items line :=
  rfl

/-- Whether the fragment at a place is joined, as its item has it. -/
theorem isJoined?_eq (shape : line.fragments = before ++ fragment :: behind) :
    isJoined? options line before.length =
      some ((itemBehind before fragment).isJoined options) := by
  rw [isJoined?, itemBehind, isJoined_eq_isJoinableRemark options _ shape,
    isJoinableRemark?_eq shape]
  cases options.splitRem <;> rfl

/-- A fragment that is shown is taken into the run, or ends it. -/
theorem step?_shown
    (shape : line.fragments = before ++ fragment :: behind) (shown : fragment.isEmpty = false)
    (started : search.started = true) (isFirst : Bool) :
    search.step? options line before.length isFirst fragment =
      some (
        if (itemBehind before fragment).continuesRun options then
          { search with highest := max search.highest (fragment.equalsColumn options) }
        else
          { search with finished := true }) := by
  rw [Search.step?, if_pos started, if_neg (by simp [shown]), equalsOffset?_eq]
  simp only [Option.bind_eq_bind, Option.bind_some, isJoined?_eq shape]
  cases joined : (itemBehind before fragment).isJoined options with
  | true => simp [Item.continuesRun, joined]
  | false =>
      by_cases apart : fragment.equalsColumn options = 0
      · simp [Item.continuesRun, joined, apart]
      · simp [Item.continuesRun, joined, apart, Nat.pos_of_ne_zero apart]

/-- Behind its first fragment, the run is looked through up to its end. The induction is on the
fragments that are left of the line. -/
theorem searchFragments?_started
    {highest : Nat} {conditional : Bool} (shape : line.fragments = before ++ behind) :
    searchFragments? options line first before.length behind ⟨highest, true, conditional, false⟩ =
      some {
        highest := raised options
          ((itemsBehind before behind).takeWhile (Item.continuesRun options)) highest
        started := true
        conditional := conditional
        finished := !(itemsBehind before behind).all (Item.continuesRun options) } := by
  induction behind generalizing before highest with
  | nil => rfl
  | cons fragment rest hypothesis =>
      have onward : line.fragments = (before ++ [fragment]) ++ rest := by simpa using shape
      have next : (before ++ [fragment]).length = before.length + 1 := List.length_append
      rw [searchFragments?]
      cases shown : fragment.isEmpty with
      | true =>
          have later := @hypothesis (before ++ [fragment]) highest onward
          rw [next] at later
          rw [Search.step?, if_pos rfl, if_pos shown, itemsBehind_of_isEmpty shown]
          exact later
      | false =>
          rw [step?_shown shape shown rfl, itemsBehind_of_shown shown]
          cases continues : (itemBehind before fragment).continuesRun options with
          | true =>
              have later := @hypothesis (before ++ [fragment])
                (max highest (fragment.equalsColumn options)) onward
              rw [next] at later
              rw [if_pos rfl, List.takeWhile_cons_of_pos continues, List.all_cons, continues,
                Bool.true_and]
              exact later
          | false =>
              rw [if_neg Bool.false_ne_true, List.takeWhile_cons_of_neg (by simp [continues]),
                List.all_cons, continues, Bool.false_and]
              rfl

/-- The fragments before the first one of the run tell whether an IF is among them. -/
theorem searchFragments?_front
    {highest place firstPlace : Nat} {conditional : Bool}
    (reached : place + before.length = firstPlace) :
    searchFragments? options line (some firstPlace) place (before ++ fragment :: behind)
        ⟨highest, false, conditional, false⟩ =
      searchFragments? options line (some firstPlace) (firstPlace + 1) behind
        ⟨highest, true, conditional || before.any Fragment.isCondition, false⟩ := by
  induction before generalizing place conditional with
  | nil =>
      obtain rfl : place = firstPlace := reached
      rw [List.nil_append, searchFragments?, Search.step?]
      simp
  | cons other rest hypothesis =>
      rw [List.length_cons] at reached
      have apart : ¬ firstPlace = place := by omega
      rw [List.cons_append, searchFragments?, Search.step?]
      simp only [Option.some.injEq, apart, decide_false, Bool.false_eq_true, if_false,
        Option.bind_eq_bind, Option.bind_some]
      rw [hypothesis (by omega), List.any_cons, Bool.or_assoc]

/-- The lines behind that of the first fragment are looked through up to the end of the run. -/
theorem searchLines?_started
    {lines : List Line} {highest firstLine firstPlace number : Nat} {conditional : Bool}
    (behind : firstLine < number) :
    (searchLines? options firstLine firstPlace number lines
        ⟨highest, true, conditional, false⟩).map Search.highest =
      some (raised options (takeAcross (Item.continuesRun options) lines) highest) := by
  induction lines generalizing number highest conditional with
  | nil => rfl
  | cons line rest hypothesis =>
      have through :=
        @searchFragments?_started options line [] line.fragments none highest false rfl
      rw [itemsBehind_nil] at through
      rw [List.length_nil] at through
      rw [searchLines?, if_neg (by omega), takeAcross]
      simp only [Option.bind_eq_bind, through, Option.bind_some, Bool.and_false, Bool.or_false,
        Bool.not_eq_true', length_takeWhile_eq_iff]
      cases whole : (items line).all (Item.continuesRun options) with
      | true =>
          have run : (items line).takeWhile (Item.continuesRun options) = items line :=
            List.takeWhile_eq_self_iff.2 (List.all_eq_true.1 whole)
          rw [if_neg (by decide), if_pos rfl, run, raised_append]
          exact hypothesis (by omega)
      | false =>
          rw [if_pos rfl, if_neg (by decide)]
          rfl

end Search

section Columns

variable {options : Options} {lines above following : List Line} {line : Line}
  {before behind : List Fragment} {fragment : Fragment}

theorem fragmentAt?_eq
    (lineShape : lines = above ++ line :: following)
    (shape : line.fragments = before ++ fragment :: behind) :
    fragmentAt? lines above.length before.length = some fragment := by
  have found : lines[above.length]? = some line := by simp [lineShape]
  rw [fragmentAt?, found, Option.bind_eq_bind, Option.bind_some]
  simp [shape]

/-- Looking ahead from an assignment gives the rightmost column of its run. -/
theorem highest?_eq
    (lineShape : lines = above ++ line :: following)
    (shape : line.fragments = before ++ fragment :: behind)
    (assigns : 0 < fragment.equalsColumn options) :
    highest? options lines above.length before.length =
      some (rightmost options (runFrom options (itemBehind before fragment)
        (itemsBehind (before ++ [fragment]) behind) following)) := by
  have left : lines.drop above.length = line :: following := by
    rw [lineShape, List.drop_left]
  have onward : line.fragments = (before ++ [fragment]) ++ behind := by simpa using shape
  have next : (before ++ [fragment]).length = before.length + 1 := List.length_append
  have front := @searchFragments?_front options line before behind fragment
    (fragment.equalsColumn options) 0 before.length false (Nat.zero_add _)
  have through := @searchFragments?_started options line (before ++ [fragment]) behind
    (some before.length) (fragment.equalsColumn options) (before.any Fragment.isCondition) onward
  rw [next] at through
  rw [← shape, Bool.false_or, through] at front
  have continues : (itemBehind before fragment).continuesRun options = true := by
    simp [Item.continuesRun, assigns]
  have run (rest : List Item) : rightmost options (itemBehind before fragment :: rest) =
      raised options rest (fragment.equalsColumn options) := by
    rw [rightmost, List.map_cons, List.foldl_cons, Nat.zero_max]
    rfl
  rw [highest?, fragmentAt?_eq lineShape shape, left]
  simp only [Option.bind_eq_bind, Option.bind_some, equalsOffset?_eq]
  rw [searchLines?, if_pos rfl, runFrom, List.takeWhile_cons_of_pos continues]
  simp only [Option.bind_eq_bind, Option.bind_some, front]
  generalize itemsBehind (before ++ [fragment]) behind = later
  have ended : (later.takeWhile (Item.continuesRun options)).length + 1 ≤ later.length ↔
      later.all (Item.continuesRun options) = false := by
    have shorter := (List.takeWhile_sublist (Item.continuesRun options) (l := later)).length_le
    have whole := length_takeWhile_eq_iff (Item.continuesRun options) later
    rw [← Bool.not_eq_true, ← whole]
    omega
  simp only [conditional_itemBehind, List.length_cons, ended, Bool.true_and, Bool.or_eq_true,
    Bool.not_eq_true', decide_eq_true_eq]
  by_cases ends : later.all (Item.continuesRun options) = false ∨
      before.any Fragment.isCondition = true
  · rw [if_pos ends, if_pos ends.symm, Option.bind_some, run]
  · have going : later.all (Item.continuesRun options) = true := by simpa using (not_or.1 ends).1
    have onLine : later.takeWhile (Item.continuesRun options) = later :=
      List.takeWhile_eq_self_iff.2 (List.all_eq_true.1 going)
    have further := @searchLines?_started options following
      (raised options later (fragment.equalsColumn options)) above.length before.length
      (above.length + 1) (before.any Fragment.isCondition) (Nat.lt_succ_self _)
    rw [if_neg ends, if_neg (fun other => ends other.symm), onLine, List.cons_append, run,
      raised_append, ← further, going]
    exact Option.map_eq_bind.symm

/-- Whatever is looked at to align an assignment is at its place. -/
theorem columnAt?_eq
    (lineShape : lines = above ++ line :: following)
    (shape : line.fragments = before ++ fragment :: behind) (current : Nat) :
    columnAt? options lines above.length before.length current =
      some (columnAt options (itemBehind before fragment)
        (itemsBehind (before ++ [fragment]) behind) following current) := by
  rw [columnAt?, columnAt, fragmentAt?_eq lineShape shape, fragment_itemBehind]
  simp only [Option.bind_eq_bind, Option.bind_some, equalsOffset?_eq]
  by_cases apart : fragment.equalsColumn options = 0
  · rw [if_pos apart, if_pos apart]
  · rw [if_neg apart, if_neg apart, highest?_eq lineShape shape (Nat.pos_of_ne_zero apart)]
    exact (apply_ite some _ _ _).symm

end Columns

end Applesoft.Checked
