import Applesoft.Proofs.Arrays

/-!
Texts searched for a pattern. A pattern is a sequence of parts, and each part takes characters of a
class: one, one if there is one, or as many as there are. Where the parts behind it then find no
match, a part gives back what it need not take, so that the matches at a place come in an order of
preference.

A search goes through a text from left to right. It stops at the first place that has a match, takes
the preferred one, and goes on behind it. What stands between matches is passed over.

The main statement is that a search for arrays covers the arguments of a DIM statement exactly if
these are a sequence of arrays, and that it then finds the arrays.
-/

namespace Applesoft.Wrapping

/-- What a pattern takes at one of its places. -/
inductive PatternPart where
  | one (accepted : Char → Bool)
  | optional (accepted : Char → Bool)
  | many (accepted : Char → Bool)

abbrev Pattern := List PatternPart

/-- What a part may leave of a text, in the order of preference. -/
def PatternPart.rests : PatternPart → Text → List Text
  | .one _, [] => []
  | .one accepted, character :: rest => if accepted character then [rest] else []
  | .optional _, [] => [[]]
  | .optional accepted, character :: rest =>
      (if accepted character then [rest] else []) ++ [character :: rest]
  | .many _, [] => [[]]
  | .many accepted, character :: rest =>
      (if accepted character then rests (.many accepted) rest else []) ++ [character :: rest]

/-- What the matches of a pattern at the front of a text leave of it, in the order of preference. -/
def rests : Pattern → Text → List Text
  | [], text => [text]
  | part :: pattern, text => (part.rests text).flatMap (rests pattern)

/-- Whether a search through a text finds the given matches of a pattern, one behind the other. -/
inductive Finds (pattern : Pattern) : Text → List Text → Prop
  | nothing {text : Text} :
      (∀ index ≤ text.length, rests pattern (text.drop index) = []) →
      Finds pattern text []
  | next {passed found rest : Text} {others : List Text} :
      (∀ index < passed.length, rests pattern ((passed ++ (found ++ rest)).drop index) = []) →
      (rests pattern (found ++ rest)).head? = some rest →
      Finds pattern rest others →
      Finds pattern (passed ++ (found ++ rest)) (found :: others)

section Parts

variable {accepted : Char → Bool} {pattern : Pattern}

/-- A part that takes as much as it can gives nothing back if the parts behind it cannot begin with
what it takes. -/
theorem rests_many
    (apart : ∀ character rest, accepted character = true →
      rests pattern (character :: rest) = [])
    (text : Text) :
    rests (.many accepted :: pattern) text = rests pattern (text.dropWhile accepted) := by
  induction text with
  | nil => exact List.flatMap_singleton _ _
  | cons character rest hypothesis =>
      rw [rests, PatternPart.rests]
      by_cases takes : accepted character = true
      · rw [if_pos takes, List.flatMap_append, List.flatMap_singleton, apart _ _ takes,
          List.append_nil, List.dropWhile_cons_of_pos takes, ← hypothesis, rests]
      · rw [if_neg takes, List.nil_append, List.flatMap_singleton,
          List.dropWhile_cons_of_neg takes]

theorem rests_optional
    (apart : ∀ character rest, accepted character = true →
      rests pattern (character :: rest) = [])
    (text : Text) :
    rests (.optional accepted :: pattern) text =
      rests pattern (takeOptional accepted text).2 := by
  cases text with
  | nil => exact List.flatMap_singleton _ _
  | cons character rest =>
      rw [rests, PatternPart.rests, takeOptional]
      by_cases takes : accepted character = true
      · rw [if_pos takes, if_pos takes, List.flatMap_append, List.flatMap_singleton,
          List.flatMap_singleton, apart _ _ takes, List.append_nil]
      · rw [if_neg takes, if_neg takes, List.nil_append, List.flatMap_singleton]

/-- At the end of a pattern a character is taken if there is one. -/
theorem head?_rests_optional (text : Text) :
    (rests [.optional accepted] text).head? = some (takeOptional accepted text).2 := by
  cases text with
  | nil => rfl
  | cons character rest =>
      rw [rests, PatternPart.rests, takeOptional]
      by_cases takes : accepted character = true
      · rw [if_pos takes, if_pos takes]
        rfl
      · rw [if_neg takes, if_neg takes]
        rfl

end Parts

def closingPattern : Pattern :=
  [.one fun taken => taken = ')', .optional fun taken => taken = ',' || taken = ':']

def subscriptPattern : Pattern :=
  .one (fun taken => taken = '(') :: .many (fun inner => !isParenthesis inner) :: closingPattern

/-- An array with what separates it from the next one. -/
def arrayPattern : Pattern :=
  .one isUpperLetter :: .many isStemCharacter ::
    .optional (fun taken => taken = '$' || taken = '%') :: subscriptPattern

theorem rests_closingPattern (behind : Text) :
    rests closingPattern (')' :: behind) =
      rests [.optional fun taken => taken = ',' || taken = ':'] behind :=
  List.flatMap_singleton _ _

theorem rests_closingPattern_of_ne {character : Char} (other : character ≠ ')') (rest : Text) :
    rests closingPattern (character :: rest) = [] := by
  rw [closingPattern, rests, PatternPart.rests, if_neg (by simpa using other)]
  rfl

theorem rests_subscriptPattern (inside : Text) :
    rests subscriptPattern ('(' :: inside) =
      rests closingPattern (inside.dropWhile fun inner => !isParenthesis inner) := by
  refine (List.flatMap_singleton _ _).trans (rests_many ?_ inside)
  intro character rest within
  refine rests_closingPattern_of_ne ?_ rest
  rintro rfl
  cases within

theorem rests_subscriptPattern_of_ne {character : Char} (other : character ≠ '(') (rest : Text) :
    rests subscriptPattern (character :: rest) = [] := by
  rw [subscriptPattern, rests, PatternPart.rests, if_neg (by simpa using other)]
  rfl

theorem rests_suffix (text : Text) :
    rests (.optional (fun taken => taken = '$' || taken = '%') :: subscriptPattern) text =
      rests subscriptPattern
        (takeOptional (fun taken => taken = '$' || taken = '%') text).2 := by
  refine rests_optional ?_ text
  intro character rest suffix
  refine rests_subscriptPattern_of_ne ?_ rest
  rintro rfl
  cases suffix

/-- A letter and the pattern behind it: the stem goes as far as it can. -/
theorem rests_arrayPattern {first : Char} (letter : isUpperLetter first = true) (tail : Text) :
    rests arrayPattern (first :: tail) =
      rests subscriptPattern
        (takeOptional (fun taken => taken = '$' || taken = '%')
          (tail.dropWhile isStemCharacter)).2 := by
  have begun : rests arrayPattern (first :: tail) =
      rests (.many isStemCharacter ::
        .optional (fun taken => taken = '$' || taken = '%') :: subscriptPattern) tail := by
    rw [arrayPattern, rests, PatternPart.rests, if_pos letter, List.flatMap_singleton]
  rw [begun, rests_many, rests_suffix]
  intro character rest stem
  have noSuffix : ¬(decide (character = '$') || decide (character = '%')) = true := by
    rw [Bool.or_eq_true, decide_eq_true_eq, decide_eq_true_eq]
    rintro (rfl | rfl)
    · cases stem
    · cases stem
  rw [rests_suffix, takeOptional, if_neg noSuffix]
  refine rests_subscriptPattern_of_ne ?_ rest
  rintro rfl
  cases stem

/-- The preferred match at the front of a text is the array that is taken off it. -/
theorem head?_rests_arrayPattern (text : Text) :
    (rests arrayPattern text).head? = (takeArray? text).map Prod.snd := by
  cases text with
  | nil => rfl
  | cons first tail =>
      by_cases letter : isUpperLetter first = true
      · rw [rests_arrayPattern letter, takeArray?, if_pos letter]
        simp only
        split
        · next inside named =>
            rw [named, rests_subscriptPattern]
            split
            · next behind closed =>
                rw [closed, rests_closingPattern, head?_rests_optional]
                rfl
            · next open_ =>
                cases remaining : inside.dropWhile fun inner => !isParenthesis inner with
                | nil => rfl
                | cons character rest =>
                    have other : character ≠ ')' := by
                      rintro rfl
                      exact open_ rest remaining
                    rw [rests_closingPattern_of_ne other]
                    rfl
        · next unnamed =>
            cases remaining : (takeOptional (fun taken => taken = '$' || taken = '%')
                (tail.dropWhile isStemCharacter)).2 with
            | nil => rfl
            | cons character rest =>
                have other : character ≠ '(' := by
                  rintro rfl
                  exact unnamed rest remaining
                rw [rests_subscriptPattern_of_ne other]
                rfl
      · rw [arrayPattern, rests, PatternPart.rests, if_neg letter, takeArray?, if_neg letter]
        rfl

theorem head?_rests_eq_some_iff (found rest : Text) :
    (rests arrayPattern (found ++ rest)).head? = some rest ↔
      takeArray? (found ++ rest) = some (found, rest) := by
  rw [head?_rests_arrayPattern]
  constructor
  · intro preferred
    obtain ⟨⟨array, behind⟩, taken, rfl⟩ := Option.map_eq_some_iff.1 preferred
    rw [taken, List.append_cancel_right (append_of_takeArray? taken)]
  · intro taken
    rw [taken, Option.map_some]

theorem rests_eq_nil_iff (text : Text) :
    rests arrayPattern text = [] ↔ takeArray? text = none := by
  rw [← List.head?_eq_none_iff, head?_rests_arrayPattern, Option.map_eq_none_iff]

namespace Finds

variable {text : Text} {arrays : List Text}

theorem length_flatten_le (finds : Finds arrayPattern text arrays) :
    arrays.flatten.length ≤ text.length := by
  induction finds with
  | nothing _ => exact Nat.zero_le _
  | next _ _ _ hypothesis =>
      simp only [List.flatten_cons, List.length_append]
      omega

/-- A search that covers a text passes over nothing, so it takes the text apart. -/
theorem arrays?_eq (finds : Finds arrayPattern text arrays) (covers : arrays.flatten = text) :
    arrays? text = some arrays := by
  induction finds with
  | nothing _ =>
      subst covers
      exact arrays?_nil
  | @next passed found rest others _ preferred further hypothesis =>
      have within := further.length_flatten_le
      have lengths := congrArg List.length covers
      simp only [List.flatten_cons, List.length_append] at lengths
      obtain rfl : passed = [] := List.length_eq_zero_iff.1 (by omega)
      rw [List.flatten_cons, List.nil_append, List.append_cancel_left_eq] at covers
      rw [List.nil_append, arrays?_of_takeArray? ((head?_rests_eq_some_iff _ _).1 preferred),
        hypothesis covers]
      rfl

/-- A search finds the arrays that a text can be taken apart into. -/
theorem eq_of_arrays?
    {others : List Text} (finds : Finds arrayPattern text arrays)
    (apart : arrays? text = some others) : arrays = others := by
  induction finds generalizing others with
  | @nothing text nowhere =>
      have absent := (rests_eq_nil_iff _).1 (nowhere 0 (Nat.zero_le _))
      by_cases empty : text = []
      · subst empty
        rw [arrays?_nil] at apart
        exact Option.some.inj apart
      · rw [List.drop_zero] at absent
        rw [arrays?_of_takeArray?_eq_none (mt List.isEmpty_iff.1 empty) absent] at apart
        cases apart
  | @next passed found rest further skipped preferred finds hypothesis =>
      have taken := (head?_rests_eq_some_iff _ _).1 preferred
      cases passed with
      | nil =>
          rw [List.nil_append, arrays?_of_takeArray? taken] at apart
          obtain ⟨behind, rest, rfl⟩ := Option.map_eq_some_iff.1 apart
          rw [hypothesis rest]
      | cons character passed =>
          have absent := (rests_eq_nil_iff _).1 (skipped 0 (Nat.zero_lt_succ _))
          rw [List.drop_zero] at absent
          rw [arrays?_of_takeArray?_eq_none (by simp) absent] at apart
          cases apart

theorem arrays?_eq_some_iff
    (finds : Finds arrayPattern text arrays) (others : List Text) :
    arrays? text = some others ↔ arrays = others ∧ arrays.flatten = text := by
  constructor
  · intro apart
    obtain rfl := finds.eq_of_arrays? apart
    exact ⟨rfl, flatten_of_arrays? apart⟩
  · rintro ⟨rfl, covers⟩
    exact finds.arrays?_eq covers

end Finds

/-- A sequence of arrays can only be read in one way. -/
theorem eq_of_flatten_eq
    {arrays others : List Text} (areArrays : ∀ array ∈ arrays, IsArray array)
    (areOthers : ∀ array ∈ others, IsArray array) (same : arrays.flatten = others.flatten) :
    arrays = others := by
  have apart := arrays?_flatten areArrays
  rw [same, arrays?_flatten areOthers] at apart
  exact (Option.some.inj apart).symm

/-- Puts each array that a search finds in the arguments of a DIM statement into a piece of its own.
There are no pieces unless the arrays found cover the arguments. -/
def splitDimBy (search : Text → List Text) (line : Text) : Option (List Text) :=
  if "DIM ".toList.isPrefixOf line then
    let found := search (line.drop 4)
    if found.length = 0 ∨ found.flatten ≠ line.drop 4 then
      none
    else
      some (found.mapIdx fun index array =>
        (if index = 0 then "DIM ".toList else Text.spaces 4) ++ array)
  else
    none

theorem splitDim_eq_some_iff (line : Text) (pieces : List Text) :
    splitDim line = some pieces ↔
      ∃ first others, (∀ array ∈ first :: others, IsArray array) ∧
        line = "DIM ".toList ++ (first :: others).flatten ∧
        pieces = ("DIM ".toList ++ first) :: others.map fun array => Text.spaces 4 ++ array := by
  constructor
  · intro split
    unfold splitDim at split
    split at split
    · next begins =>
        obtain ⟨arguments, rfl⟩ := List.isPrefixOf_iff_prefix.1 begins
        split at split
        · next first others found =>
            obtain ⟨areArrays, shape⟩ := (arrays?_eq_some_iff arguments _).1 found
            exact ⟨first, others, areArrays, by rw [shape], (Option.some.inj split).symm⟩
        · cases split
    · cases split
  · rintro ⟨first, others, areArrays, rfl, rfl⟩
    have behind : ("DIM ".toList ++ (first :: others).flatten).drop 4 =
        (first :: others).flatten := rfl
    rw [splitDim, if_pos (by simp), behind, arrays?_flatten areArrays]

section Search

variable {search : Text → List Text} (finds : ∀ text, Finds arrayPattern text (search text))
include finds

/-- A search that may stop anywhere gives the pieces that are read off the front. -/
theorem splitDimBy_eq (line : Text) : splitDimBy search line = splitDim line := by
  unfold splitDimBy splitDim
  split
  · have found := (finds (line.drop 4)).arrays?_eq_some_iff
    generalize search (line.drop 4) = arrays at found
    by_cases covers : arrays.flatten = line.drop 4
    · rw [(found arrays).2 ⟨rfl, covers⟩]
      cases arrays with
      | nil => rfl
      | cons first others =>
          have below : (others.mapIdx fun _ array => Text.spaces 4 ++ array) =
              others.map fun array => Text.spaces 4 ++ array :=
            List.ext_getElem (by simp) fun _ _ _ => by simp
          rw [if_neg (by simp [covers]), List.mapIdx_cons]
          simp [below]
    · rw [if_pos (Or.inr covers)]
      split
      · next first others apart => exact absurd ((found _).1 apart).2 covers
      · rfl
  · rfl

/-- The pieces of a DIM statement are those of a grammar. A statement has pieces exactly if its
arguments are a sequence of arrays, which can only be read in one way, and each piece is an array
behind the keyword or below the first one. A search that may stop anywhere in the arguments, and may
pass over anything, has no other result. -/
theorem splitDimBy_follows_grammar (line : Text) :
    splitDimBy search line = splitDim line ∧
      (∀ pieces, splitDimBy search line = some pieces ↔
        ∃ first others, (∀ array ∈ first :: others, IsArray array) ∧
          line = "DIM ".toList ++ (first :: others).flatten ∧
          pieces =
            ("DIM ".toList ++ first) :: others.map fun array => Text.spaces 4 ++ array) ∧
      (∀ arrays others : List Text, (∀ array ∈ arrays, IsArray array) →
        (∀ array ∈ others, IsArray array) → arrays.flatten = others.flatten →
          arrays = others) ∧
      ∀ pieces, splitDimBy search line = some pieces →
        (pieces.map (List.drop 4)).flatten = line.drop 4 := by
  rw [splitDimBy_eq finds line]
  refine ⟨rfl, splitDim_eq_some_iff line, fun _ _ => eq_of_flatten_eq, ?_⟩
  intro pieces split
  obtain ⟨first, others, -, rfl, rfl⟩ := (splitDim_eq_some_iff line pieces).1 split
  have behind : (others.map fun array => Text.spaces 4 ++ array).map (List.drop 4) = others := by
    rw [List.map_map]
    exact List.map_id'' (fun _ => rfl) others
  rw [List.map_cons, behind]
  rfl

end Search

/-- The arrays that a text has in it, from left to right. -/
def arraysWithin : Text → List Text
  | [] => []
  | character :: rest =>
      match _found : takeArray? (character :: rest) with
      | some (array, behind) => array :: arraysWithin behind
      | none => arraysWithin rest
termination_by text => text.length
decreasing_by
  · exact length_takeArray?_lt _found
  · exact Nat.lt_succ_self rest.length

theorem Finds.behind
    {pattern : Pattern} {character : Char} {text : Text} {found : List Text}
    (passed : rests pattern (character :: text) = []) (finds : Finds pattern text found) :
    Finds pattern (character :: text) found := by
  cases finds with
  | nothing nowhere =>
      refine .nothing fun index inside => ?_
      cases index with
      | zero => exact passed
      | succ index => exact nowhere index (Nat.le_of_succ_le_succ inside)
  | @next front _ _ _ skipped preferred further =>
      refine @Finds.next _ (character :: front) _ _ _ (fun index inside => ?_) preferred further
      cases index with
      | zero => exact passed
      | succ index => exact skipped index (Nat.lt_of_succ_lt_succ inside)

/-- There is such a search. -/
theorem finds_arraysWithin (text : Text) : Finds arrayPattern text (arraysWithin text) := by
  induction text using arraysWithin.induct with
  | case1 =>
      rw [arraysWithin]
      exact .nothing fun index _ => by rw [List.drop_nil]; rfl
  | case2 character rest array behind taken hypothesis =>
      have shape := append_of_takeArray? taken
      have preferred : (rests arrayPattern (array ++ behind)).head? = some behind := by
        rw [head?_rests_eq_some_iff, shape, taken]
      have found : arraysWithin (character :: rest) = array :: arraysWithin behind := by
        rw [arraysWithin]
        split
        · next other others same =>
            obtain ⟨rfl, rfl⟩ := Prod.mk.inj (Option.some.inj (taken.symm.trans same))
            rfl
        · next absent =>
            rw [taken] at absent
            cases absent
      rw [found, ← shape]
      exact @Finds.next _ [] _ _ _ (fun _ inside => absurd inside (Nat.not_lt_zero _)) preferred
        hypothesis
  | case3 character rest absent hypothesis =>
      have passed := (rests_eq_nil_iff _).2 absent
      rw [arraysWithin]
      split
      · next other others taken =>
          rw [absent] at taken
          cases taken
      · exact hypothesis.behind passed

/-- A list of two arrays is split, and one with a name that is no array is not. -/
theorem splitDimBy_arraysWithin_of_two_arrays :
    (∀ text, Finds arrayPattern text (arraysWithin text)) ∧
      splitDimBy arraysWithin "DIM A(10),B$(5,5)".toList =
        some ["DIM A(10),".toList, "    B$(5,5)".toList] ∧
      splitDimBy arraysWithin "DIM X,A(10)".toList = none := by
  refine ⟨finds_arraysWithin, ?_, ?_⟩
  · have first : takeArray? "A(10),".toList = some ("A(10),".toList, []) := by decide +kernel
    have second : takeArray? "B$(5,5)".toList = some ("B$(5,5)".toList, []) := by decide +kernel
    refine ((splitDimBy_follows_grammar finds_arraysWithin _).2.1 _).2
      ⟨"A(10),".toList, ["B$(5,5)".toList], ?_, by decide +kernel, by decide +kernel⟩
    rw [List.forall_mem_cons, List.forall_mem_singleton]
    exact ⟨isArray_of_takeArray? first, isArray_of_takeArray? second⟩
  · exact (splitDimBy_follows_grammar finds_arraysWithin _).1.trans (by decide +kernel)

end Applesoft.Wrapping
