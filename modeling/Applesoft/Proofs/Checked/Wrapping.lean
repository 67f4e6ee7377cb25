import Applesoft.Listing.Layout
import Applesoft.Proofs.Checked.Access

namespace Applesoft.Checked

open Wrapping

/-- Goes back from a place to a character, or to a floor. -/
def seekBack? (text : Text) (wanted : Char) (floor : Nat) : Nat → Option Nat
  | 0 => some 0
  | place + 1 =>
      if floor < place + 1 then do
        let character ← text[place + 1]?
        if character = wanted then some (place + 1) else seekBack? text wanted floor place
      else
        some (place + 1)

/-- Where a text is broken, if the place is above the floor. -/
def breakPlace? (width : Nat) (breaker : Char) (floor : Nat) (text : Text) : Option Nat := do
  let bound ← difference? width (kept breaker)
  let last ← difference? text.length 1
  seekBack? text breaker floor (min bound last)

/-- Breaks a text behind whose first word later pieces are indented, in at most some rounds. -/
def splitFrom? (width : Nat) (breaker : Char) (floor indent : Nat) :
    Nat → Text → Option (List Text)
  | 0, _ => none
  | rounds + 1, text =>
      if 0 < width ∧ width < text.length then do
        let place ← breakPlace? width breaker floor text
        if place ≤ floor then
          some [text]
        else
          let stop ← sum? wordLimit place (kept breaker)
          let piece ← slice? text 0 stop
          let next ← sum? wordLimit place 1
          let behind ← slice? text next text.length
          let pieces ← splitFrom? width breaker floor indent rounds (Text.spaces indent ++ behind)
          some (piece :: pieces)
      else
        some [text]

def splitLine? (width : Nat) (breaker : Char) (line : Text) : Option (List Text) := do
  let floor := (line.findIdx? (· = ' ')).getD line.length
  let indent ← sum? wordLimit floor 1
  splitFrom? width breaker floor indent (line.length + 1) line

section Breaks

variable {width floor bound : Nat} {breaker : Char} {text : Text}

/-- The place gone back to is that of the last character sought, and not above the floor if there is
none. -/
theorem exists_seekBack? (inside : bound < text.length) :
    ∃ place ≤ bound, seekBack? text breaker floor bound = some place ∧
      match lastIndex? text breaker floor bound with
      | none => place ≤ floor
      | some index => place = index := by
  induction bound with
  | zero => exact ⟨0, le_rfl, rfl, Nat.zero_le floor⟩
  | succ bound hypothesis =>
      rw [seekBack?, lastIndex?]
      by_cases above : floor < bound + 1
      · rw [if_pos above, if_neg (by omega), List.getElem?_eq_getElem inside]
        simp only [Option.bind_eq_bind, Option.bind_some, Option.some.injEq]
        by_cases found : text[bound + 1] = breaker
        · rw [if_pos found, if_pos found]
          exact ⟨bound + 1, le_rfl, rfl, rfl⟩
        · rw [if_neg found, if_neg found]
          obtain ⟨place, within, sought⟩ := hypothesis (by omega)
          exact ⟨place, Nat.le_succ_of_le within, sought⟩
      · rw [if_neg above, if_pos (by omega)]
        exact ⟨bound + 1, le_rfl, rfl, Nat.le_of_not_lt above⟩

theorem kept_le_one (breaker : Char) : kept breaker ≤ 1 := by
  unfold kept
  split <;> decide

theorem exists_breakPlace? (positive : 0 < width) (long : width < text.length) :
    ∃ place < text.length, breakPlace? width breaker floor text = some place ∧
      match lastIndex? text breaker floor (width - kept breaker) with
      | none => place ≤ floor
      | some index => place = index := by
  have few := kept_le_one breaker
  obtain ⟨place, within, sought, same⟩ :=
    @exists_seekBack? floor (width - kept breaker) breaker text (by omega)
  refine ⟨place, by omega, ?_, same⟩
  rw [breakPlace?, difference?_eq (by omega), difference?_eq (by omega)]
  simp only [Option.bind_eq_bind, Option.bind_some]
  rw [Nat.min_eq_left (by omega), sought]

/-- A text is broken as far as there are places for it. The induction is that of the breaking. -/
theorem splitFrom?_eq
    {rounds : Nat} (enough : text.length < rounds) (short : text.length < wordLimit) :
    splitFrom? width breaker floor (floor + 1) rounds text =
      some (splitFrom width breaker floor text) := by
  induction text using splitFrom.induct width breaker floor generalizing rounds with
  | case1 text whole =>
      obtain ⟨left, rfl⟩ : ∃ left, rounds = left + 1 := ⟨rounds - 1, by omega⟩
      rw [splitFrom?, if_neg (by omega), splitFrom, if_pos whole]
  | case2 text long absent =>
      obtain ⟨left, rfl⟩ : ∃ left, rounds = left + 1 := ⟨rounds - 1, by omega⟩
      rw [not_or] at long
      obtain ⟨place, -, sought, low⟩ :=
        @exists_breakPlace? width floor breaker text (by omega) (by omega)
      rw [absent] at low
      rw [splitFrom?, if_pos (by omega), sought, splitFrom, if_neg (by omega)]
      simp only [Option.bind_eq_bind, Option.bind_some]
      rw [if_pos low]
      split
      · rfl
      · next index found =>
          rw [absent] at found
          cases found
  | case3 text long index found hypothesis =>
      obtain ⟨left, rfl⟩ : ∃ left, rounds = left + 1 := ⟨rounds - 1, by omega⟩
      rw [not_or] at long
      have few := kept_le_one breaker
      obtain ⟨above, -⟩ := floor_lt_lastIndex? found
      obtain ⟨place, inside, sought, same⟩ :=
        @exists_breakPlace? width floor breaker text (by omega) (by omega)
      rw [found] at same
      obtain rfl : place = index := same
      have rest : (Text.spaces (floor + 1) ++ text.drop (place + 1)).length < text.length := by
        rw [List.length_append, Text.length_spaces, List.length_drop]
        omega
      rw [splitFrom?, if_pos (by omega), sought, splitFrom, if_neg (by omega)]
      simp only [Option.bind_eq_bind, Option.bind_some]
      rw [if_neg (by omega), sum?_eq (by omega), Option.bind_some, slice?_zero (by omega),
        Option.bind_some, sum?_eq (by omega), Option.bind_some, slice?_length (by omega),
        Option.bind_some, hypothesis (by omega) (by omega), Option.bind_some]
      split
      · next absent =>
          rw [found] at absent
          cases absent
      · next other same =>
          obtain rfl := Option.some.inj (found.symm.trans same)
          rfl

theorem splitLine?_eq (short : text.length + 1 < wordLimit) :
    splitLine? width breaker text = some (splitLine width breaker text) := by
  have inside : (text.findIdx? (· = ' ')).getD text.length ≤ text.length := by
    cases found : text.findIdx? (· = ' ') with
    | none => exact le_rfl
    | some index => exact (List.findIdx?_eq_some_iff_getElem.1 found).1.le
  rw [splitLine?, sum?_eq (by omega)]
  exact splitFrom?_eq (Nat.lt_succ_self _) (by omega)

end Breaks

/-- Cuts the front off a text again and again, as long as more than a width remains of it. -/
def cutFrom? (width : Nat) : Nat → Nat → Text → Text → Option (List Text)
  | 0, _, _, _ => none
  | rounds + 1, remaining, padding, text => do
      let count := min width text.length
      let part ← slice? text 0 count
      let behind ← slice? text count text.length
      if width < remaining then
        let left ← difference? remaining width
        let parts ← cutFrom? width rounds left (Text.spaces leadLength) behind
        some ((padding ++ part) :: parts)
      else
        some [padding ++ part ++ behind]

/-- Cuts the literal of a PRINT or INPUT, if there is one that is too long. -/
def splitPrint? (width : Nat) (line : Text) : Option (Option (List Text)) :=
  if width = 0 ∨ ¬ beginsWithLiteral line = true then
    some none
  else do
    let text ← slice? line leadLength line.length
    match text.findIdx? (· = '"') with
    | none => some none
    | some place =>
        let close ← sum? wordLimit place leadLength
        let remaining ← difference? close leadLength
        if remaining ≤ width then
          some none
        else
          let lead ← slice? line 0 leadLength
          let parts ← cutFrom? width (line.length + 1) remaining lead text
          some (some parts)

section Literals

variable {width : Nat} {line : Text}

theorem leadLength_le (begins : beginsWithLiteral line = true) : leadLength ≤ line.length := by
  rw [beginsWithLiteral, Bool.or_eq_true] at begins
  rcases begins with isPrint | isInput
  · exact (List.isPrefixOf_iff_prefix.1 isPrint).length_le
  · exact (List.isPrefixOf_iff_prefix.1 isInput).length_le

theorem cutFrom?_eq
    {rounds : Nat} {literal behind : Text} (positive : 0 < width)
    (enough : literal.length < rounds) (padding : Text) :
    ∃ first others, chunks width literal behind = first :: others ∧
      cutFrom? width rounds literal.length padding (literal ++ behind) =
        some ((padding ++ first) :: others.map fun part => Text.spaces leadLength ++ part) := by
  induction literal using chunks.induct width generalizing rounds padding with
  | case1 literal whole =>
      obtain ⟨left, rfl⟩ : ∃ left, rounds = left + 1 := ⟨rounds - 1, by omega⟩
      refine ⟨literal ++ behind, [], by rw [chunks, if_pos whole], ?_⟩
      rw [cutFrom?, slice?_zero (Nat.min_le_right _ _), slice?_length (Nat.min_le_right _ _)]
      simp only [Option.bind_eq_bind, Option.bind_some]
      rw [if_neg (by omega), List.append_assoc, List.take_append_drop]
      rfl
  | case2 literal long hypothesis =>
      obtain ⟨left, rfl⟩ : ∃ left, rounds = left + 1 := ⟨rounds - 1, by omega⟩
      rw [not_or] at long
      have count : min width (literal ++ behind).length = width := by
        rw [List.length_append]
        omega
      have fewer : (literal.drop width).length < left := by
        rw [List.length_drop]
        omega
      obtain ⟨first, others, shape, cut⟩ := hypothesis fewer (Text.spaces leadLength)
      refine ⟨literal.take width, first :: others, ?_, ?_⟩
      · rw [chunks, if_neg (by omega), shape]
      · rw [List.length_drop, ← List.drop_append_of_le_length (by omega)] at cut
        rw [cutFrom?, slice?_zero (Nat.min_le_right _ _), slice?_length (Nat.min_le_right _ _),
          count]
        simp only [Option.bind_eq_bind, Option.bind_some]
        rw [if_pos (by omega), difference?_eq (by omega), Option.bind_some, cut, Option.bind_some,
          List.take_append_of_le_length (by omega)]
        rfl

theorem splitPrint?_eq (short : line.length + leadLength < wordLimit) :
    splitPrint? width line = some (splitPrint width line) := by
  rw [splitPrint?, splitPrint]
  by_cases asked : width ≠ 0 ∧ beginsWithLiteral line = true
  · have inside := leadLength_le asked.2
    have literal : (line.drop leadLength).takeWhile (· ≠ '"') =
        (line.drop leadLength).take ((line.drop leadLength).findIdx (· = '"')) := by
      rw [List.takeWhile_eq_take_findIdx_not]
      simp
    have behind : (line.drop leadLength).length = line.length - leadLength := List.length_drop
    rw [if_neg (by simpa using asked), if_pos asked, slice?_length inside]
    simp only [Option.bind_eq_bind, Option.bind_some, literal, List.length_take]
    cases found : (line.drop leadLength).findIdx? (· = '"') with
    | none =>
        have whole := List.findIdx?_eq_none_iff_findIdx_eq.1 found
        rw [if_neg (by omega)]
    | some place =>
        obtain ⟨within, first⟩ := List.findIdx?_eq_some_iff_findIdx_eq.1 found
        have length : ((line.drop leadLength).take place).length = place :=
          List.length_take_of_le within.le
        rw [first, Nat.min_eq_left within.le]
        dsimp only
        rw [sum?_eq (by omega), Option.bind_some, difference?_eq (by omega), Option.bind_some,
          Nat.add_sub_cancel]
        by_cases long : place ≤ width
        · rw [if_pos long, if_neg (by omega)]
        · obtain ⟨part, others, shape, cut⟩ := @cutFrom?_eq width (line.length + 1)
            ((line.drop leadLength).take place) ((line.drop leadLength).drop place)
            (by omega) (by omega) (line.take leadLength)
          rw [length, List.take_append_drop] at cut
          rw [if_neg long, if_pos ⟨within, by omega⟩, slice?_zero inside, Option.bind_some, cut,
            shape]
          rfl
  · rw [if_pos (by simpa [or_iff_not_imp_left] using asked), if_neg asked]

end Literals

end Applesoft.Checked
