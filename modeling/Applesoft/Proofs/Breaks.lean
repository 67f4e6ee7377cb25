import Mathlib.Data.List.Basic
import Applesoft.Text.Wrapping

/-!
Lines that are broken at a character. While the text that is left is longer than the width, it is
broken at the last place behind its first word that keeps the piece within the width. What follows
goes on behind an indentation and is broken in the same way.

Each break leaves a shorter text, so there are no more of them than characters behind the first
word. The main statements say that the pieces spell the line when they are put together again, and
that each of them goes as far as the width allows: only the last one may be longer, and only if
there is no place for a break in it.
-/

namespace Applesoft.Wrapping

/-- Whether a text may be broken at an index: the breaker stands there, behind the first word, and
the piece that ends with the break is within the width. -/
structure MayBreakAt (width : Nat) (breaker : Char) (floor : Nat) (text : Text) (index : Nat) :
    Prop where
  behind : floor < index
  holds : text[index]? = some breaker
  within : index + kept breaker ≤ width

/-- Whether an index is the last one at which a text may be broken. -/
def IsLastBreak (width : Nat) (breaker : Char) (floor : Nat) (text : Text) (index : Nat) : Prop :=
  MayBreakAt width breaker floor text index ∧
    ∀ later, index < later → ¬MayBreakAt width breaker floor text later

section Places

variable {width floor bound index : Nat} {breaker : Char} {text : Text}

theorem lastIndex?_le (found : lastIndex? text breaker floor bound = some index) :
    index ≤ bound := by
  induction bound with
  | zero => cases found
  | succ bound hypothesis =>
      rw [lastIndex?] at found
      split at found
      · cases found
      · split at found
        · exact Nat.le_of_eq (Option.some.inj found).symm
        · exact Nat.le_succ_of_le (hypothesis found)

/-- The breaker is not passed over on the way back from the bound. -/
theorem ne_of_lastIndex?_lt
    (bound : Nat) {later : Nat} (above : floor < later) (sought : later ≤ bound)
    (passed : ∀ index ∈ lastIndex? text breaker floor bound, index < later) :
    text[later]? ≠ some breaker := by
  induction bound with
  | zero => omega
  | succ bound hypothesis =>
      rw [lastIndex?, if_neg (by omega)] at passed
      split at passed
      · exact absurd (passed (bound + 1) rfl) (by omega)
      · next other =>
          rcases Nat.lt_or_eq_of_le sought with before | same
          · exact hypothesis (Nat.le_of_lt_succ before) passed
          · rwa [same]

theorem isLastBreak_of_lastIndex?
    (found : lastIndex? text breaker floor (width - kept breaker) = some index) :
    IsLastBreak width breaker floor text index := by
  obtain ⟨behind, holds⟩ := floor_lt_lastIndex? found
  have within := lastIndex?_le found
  refine ⟨⟨behind, holds, by omega⟩, fun later after may => ?_⟩
  have fits := may.within
  refine ne_of_lastIndex?_lt (width - kept breaker) may.behind (by omega) ?_ may.holds
  intro other same
  rw [found] at same
  obtain rfl := Option.some.inj same
  exact after

theorem not_mayBreakAt_of_lastIndex?
    (absent : lastIndex? text breaker floor (width - kept breaker) = none) :
    ¬MayBreakAt width breaker floor text index := by
  intro may
  have fits := may.within
  refine ne_of_lastIndex?_lt (width - kept breaker) may.behind (by omega) ?_ may.holds
  intro other same
  rw [absent] at same
  cases same

theorem MayBreakAt.lt_length (may : MayBreakAt width breaker floor text index) :
    index < text.length :=
  (List.getElem?_eq_some_iff.1 may.holds).1

theorem MayBreakAt.length_take_le (may : MayBreakAt width breaker floor text index) :
    (text.take (index + kept breaker)).length ≤ width :=
  Nat.le_trans (List.length_take_le _ _) may.within

theorem not_mayBreakAt_zero : ¬MayBreakAt 0 breaker floor text index := by
  intro may
  have fits := may.within
  have above := may.behind
  omega

end Places

/-- How a text is broken into pieces: it stays whole if it is within the width or has no place for a
break, and otherwise it is broken at the last such place, and so is what follows. -/
inductive IsBrokenInto (width : Nat) (breaker : Char) (floor : Nat) : Text → List Text → Prop
  | whole {text : Text} :
      (text.length ≤ width ∨ ∀ index, ¬MayBreakAt width breaker floor text index) →
      IsBrokenInto width breaker floor text [text]
  | broken {text : Text} {index : Nat} {pieces : List Text} :
      width < text.length →
      IsLastBreak width breaker floor text index →
      IsBrokenInto width breaker floor (Text.spaces (floor + 1) ++ text.drop (index + 1)) pieces →
      IsBrokenInto width breaker floor text (text.take (index + kept breaker) :: pieces)

theorem isBrokenInto_splitFrom (width : Nat) (breaker : Char) (floor : Nat) (text : Text) :
    IsBrokenInto width breaker floor text (splitFrom width breaker floor text) := by
  induction text using splitFrom.induct width breaker floor with
  | case1 text whole =>
      rw [splitFrom, if_pos whole]
      apply IsBrokenInto.whole
      rcases whole with rfl | short
      · exact Or.inr fun index => not_mayBreakAt_zero
      · exact Or.inl short
  | case2 text long absent =>
      rw [splitFrom, if_neg long]
      split
      · exact .whole (Or.inr fun index => not_mayBreakAt_of_lastIndex? absent)
      · next index found =>
          rw [absent] at found
          cases found
  | case3 text long index found hypothesis =>
      rw [splitFrom, if_neg long]
      split
      · next absent =>
          rw [absent] at found
          cases found
      · next other same =>
          obtain rfl := Option.some.inj (found.symm.trans same)
          exact .broken (by omega) (isLastBreak_of_lastIndex? found) hypothesis

/-- What stands in a line between two pieces of it. A space at a break belongs to neither of them,
any other breaker to the first one. -/
def between (breaker : Char) : Text :=
  if breaker = ' ' then [' '] else []

/-- The text that pieces spell together: each later one goes on behind its indentation. -/
def rejoin (breaker : Char) (indent : Nat) : List Text → Text
  | [] => []
  | first :: others =>
      Text.join (between breaker) (first :: others.map fun piece => piece.drop indent)

theorem join_drop
    {separator first : Text} {indent : Nat} (others : List Text) (long : indent ≤ first.length) :
    Text.join separator (first.drop indent :: others) =
      (Text.join separator (first :: others)).drop indent := by
  cases others with
  | nil => simp [Text.join]
  | cons second more =>
      rw [Text.join_cons (List.cons_ne_nil second more),
        Text.join_cons (List.cons_ne_nil second more), List.append_assoc, List.append_assoc,
        List.drop_append_of_le_length long]

theorem rejoin_cons
    {breaker : Char} {indent : Nat} {piece next : Text} (others : List Text)
    (long : indent ≤ next.length) :
    rejoin breaker indent (piece :: next :: others) =
      piece ++ between breaker ++ (rejoin breaker indent (next :: others)).drop indent := by
  rw [rejoin, rejoin, ← join_drop _ long]
  exact Text.join_cons (List.cons_ne_nil _ _)

theorem take_append_between_append_drop
    {text : Text} {breaker : Char} {index : Nat} (holds : text[index]? = some breaker) :
    text.take (index + kept breaker) ++ between breaker ++ text.drop (index + 1) = text := by
  obtain ⟨inside, shape⟩ := List.getElem?_eq_some_iff.1 holds
  by_cases space : breaker = ' '
  · rw [kept, if_pos space, between, if_pos space, ← space, ← shape, List.append_assoc,
      List.singleton_append, List.getElem_cons_drop, Nat.add_zero, List.take_append_drop]
  · rw [kept, if_neg space, between, if_neg space, List.append_nil, List.take_append_drop]

namespace IsBrokenInto

variable {width floor : Nat} {breaker : Char} {text : Text} {pieces : List Text}

theorem ne_nil (broken : IsBrokenInto width breaker floor text pieces) : pieces ≠ [] := by
  cases broken with
  | whole _ => exact List.cons_ne_nil _ _
  | broken _ _ _ => exact List.cons_ne_nil _ _

theorem eq_singleton
    (broken : IsBrokenInto width breaker floor text pieces)
    (whole : text.length ≤ width ∨ ∀ index, ¬MayBreakAt width breaker floor text index) :
    pieces = [text] := by
  cases broken with
  | whole _ => rfl
  | @broken _ index _ long last _ =>
      rcases whole with short | nowhere
      · omega
      · exact absurd last.1 (nowhere index)

/-- The indentation of a text comes before each of its pieces. -/
theorem spaces_prefix
    (broken : IsBrokenInto width breaker floor text pieces)
    (indented : Text.spaces (floor + 1) <+: text) :
    ∀ piece ∈ pieces, Text.spaces (floor + 1) <+: piece := by
  induction broken with
  | whole _ =>
      intro piece member
      rwa [List.mem_singleton.1 member]
  | @broken text index pieces long last rest hypothesis =>
      intro piece member
      rcases List.mem_cons.1 member with first | further
      · have above := last.1.behind
        rw [first]
        apply List.prefix_of_prefix_length_le indented (List.take_prefix _ text)
        have inside := last.1.lt_length
        rw [Text.length_spaces, List.length_take]
        omega
      · exact hypothesis (List.prefix_append _ _) piece further

theorem spaces_prefix_of_mem_tail (broken : IsBrokenInto width breaker floor text pieces) :
    ∀ piece ∈ pieces.tail, Text.spaces (floor + 1) <+: piece := by
  cases broken with
  | whole _ =>
      intro piece member
      cases member
  | broken _ _ rest => exact rest.spaces_prefix (List.prefix_append _ _)

theorem rejoin_eq (broken : IsBrokenInto width breaker floor text pieces) :
    rejoin breaker (floor + 1) pieces = text := by
  induction broken with
  | whole _ => simp [rejoin, Text.join]
  | @broken text index pieces long last rest hypothesis =>
      obtain ⟨next, others, shape⟩ := List.exists_cons_of_ne_nil rest.ne_nil
      have indented := rest.spaces_prefix (List.prefix_append _ _) next (by simp [shape])
      have wide := indented.length_le
      rw [Text.length_spaces] at wide
      rw [shape] at hypothesis ⊢
      rw [rejoin_cons others wide, hypothesis, List.drop_left' (Text.length_spaces _)]
      exact take_append_between_append_drop last.1.holds

/-- A text is broken no more often than it has characters behind the first word and a space. -/
theorem length_le (broken : IsBrokenInto width breaker floor text pieces) :
    pieces.length ≤ 1 + (text.length - (floor + 1)) := by
  induction broken with
  | whole _ => exact Nat.le_add_right _ _
  | @broken text index pieces long last rest hypothesis =>
      have above := last.1.behind
      have inside := last.1.lt_length
      rw [List.length_append, Text.length_spaces, List.length_drop] at hypothesis
      rw [List.length_cons]
      omega

theorem late (broken : IsBrokenInto width breaker floor text pieces) :
    ∀ before piece after, pieces = before ++ piece :: after → after ≠ [] →
      let left := rejoin breaker (floor + 1) (piece :: after)
      width < left.length ∧ piece.length ≤ width ∧
        ∃ index, IsLastBreak width breaker floor left index ∧
          piece = left.take (index + kept breaker) := by
  induction broken with
  | whole _ =>
      intro before piece after shape others
      have lengths := congrArg List.length shape
      have some := List.length_pos_of_ne_nil others
      simp only [List.length_cons, List.length_append, List.length_nil] at lengths
      omega
  | @broken text index pieces long last rest hypothesis =>
      intro before piece after shape others
      cases before with
      | nil =>
          have spelled := (IsBrokenInto.broken long last rest).rejoin_eq
          obtain ⟨rfl, rfl⟩ := List.cons.inj shape
          rw [spelled]
          exact ⟨long, last.1.length_take_le, index, last, rfl⟩
      | cons first before =>
          exact hypothesis before piece after (List.cons.inj shape).2 others

theorem last (broken : IsBrokenInto width breaker floor text pieces) :
    ∀ piece ∈ pieces.getLast?, width < piece.length →
      ∀ index, ¬MayBreakAt width breaker floor piece index := by
  induction broken with
  | @whole text whole =>
      intro piece member long
      obtain rfl : text = piece := by simpa using member
      rcases whole with short | nowhere
      · omega
      · exact nowhere
  | broken _ _ rest hypothesis =>
      intro piece member
      rw [List.getLast?_cons_of_ne_nil rest.ne_nil] at member
      exact hypothesis piece member

theorem length_filter_le (broken : IsBrokenInto width breaker floor text pieces) :
    (pieces.filter fun piece => width < piece.length).length ≤ 1 := by
  induction broken with
  | whole _ => exact List.length_filter_le _ _
  | broken _ last _ hypothesis =>
      have within := Nat.not_lt.2 last.1.length_take_le
      rwa [List.filter_cons_of_neg (by rwa [decide_eq_true_eq])]

end IsBrokenInto

/-- The first word of a line ends at its first space, or with the line. -/
theorem splitLine_eq (width : Nat) (breaker : Char) (line : Text) :
    splitLine width breaker line = splitFrom width breaker (line.idxOf ' ') line := by
  rw [splitLine, ← List.findIdx_eq_getD_findIdx?, List.idxOf]
  rfl

theorem isBrokenInto_splitLine (width : Nat) (breaker : Char) (line : Text) :
    IsBrokenInto width breaker (line.idxOf ' ') line (splitLine width breaker line) := by
  rw [splitLine_eq]
  exact isBrokenInto_splitFrom width breaker (line.idxOf ' ') line

/-- The pieces of a line spell it, with the spaces that are dropped at the breaks. Each later piece
is indented behind the first word. A line that fits or has no space stays whole. -/
theorem rejoin_splitLine (width : Nat) (breaker : Char) (line : Text) :
    let indent := line.idxOf ' ' + 1
    let pieces := splitLine width breaker line
    rejoin breaker indent pieces = line ∧
      (∀ piece ∈ pieces.tail, Text.spaces indent <+: piece) ∧
      pieces.length ≤ 1 + (line.length - indent) ∧
      (width = 0 ∨ line.length ≤ width ∨ ' ' ∉ line → pieces = [line]) := by
  intro indent pieces
  have broken : IsBrokenInto width breaker (line.idxOf ' ') line pieces :=
    isBrokenInto_splitLine width breaker line
  refine ⟨broken.rejoin_eq, broken.spaces_prefix_of_mem_tail, broken.length_le, ?_⟩
  intro whole
  apply broken.eq_singleton
  rcases whole with endless | short | oneWord
  · rw [endless]
    exact Or.inr fun index => not_mayBreakAt_zero
  · exact Or.inl short
  · refine Or.inr fun index may => ?_
    have above := may.behind
    have inside := may.lt_length
    rw [List.idxOf_eq_length oneWord] at above
    omega

/-- Whether pieces of a line go as far as a width allows. What is left of the line when a piece is
cut off is what the piece and those behind it spell. -/
structure IsBrokenLate (width : Nat) (breaker : Char) (line : Text) (pieces : List Text) :
    Prop where
  spelled : rejoin breaker (line.idxOf ' ' + 1) pieces = line
  /-- Each piece but the last one is within the width, and no later break would keep it so. -/
  late : ∀ before piece after, pieces = before ++ piece :: after → after ≠ [] →
    let left := rejoin breaker (line.idxOf ' ' + 1) (piece :: after)
    width < left.length ∧ piece.length ≤ width ∧
      ∃ index, IsLastBreak width breaker (line.idxOf ' ') left index ∧
        piece = left.take (index + kept breaker)
  /-- The last piece is only longer than the width if it may not be broken anywhere. -/
  last : ∀ piece ∈ pieces.getLast?, width < piece.length →
    ∀ index, ¬MayBreakAt width breaker (line.idxOf ' ') piece index
  oversized : (pieces.filter fun piece => width < piece.length).length ≤ 1

theorem isBrokenLate_splitLine (width : Nat) (breaker : Char) (line : Text) :
    IsBrokenLate width breaker line (splitLine width breaker line) where
  spelled := (isBrokenInto_splitLine width breaker line).rejoin_eq
  late := (isBrokenInto_splitLine width breaker line).late
  last := (isBrokenInto_splitLine width breaker line).last
  oversized := (isBrokenInto_splitLine width breaker line).length_filter_le

end Applesoft.Wrapping
