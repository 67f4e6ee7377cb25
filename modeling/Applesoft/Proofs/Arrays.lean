import Applesoft.Proofs.Ink
import Applesoft.Proofs.Targets

/-!
The arrays of a DIM statement. An array is written as a name, an optional type suffix, subscripts in
parentheses that have no parentheses inside, and an optional comma or colon.

The main statement is that a text is taken apart into arrays exactly if it is a sequence of them,
and then into these.
-/

namespace Applesoft.Wrapping

/-- Whether a text is an array with what separates it from the next one. -/
inductive IsArray : Text → Prop
  | intro {first : Char} {stem suffix subscripts separator : Text} :
      isUpperLetter first = true →
      (∀ character ∈ stem, isStemCharacter character = true) →
      (suffix = [] ∨ suffix = ['$'] ∨ suffix = ['%']) →
      (∀ character ∈ subscripts, character ≠ '(' ∧ character ≠ ')') →
      (separator = [] ∨ separator = [','] ∨ separator = [':']) →
      IsArray (first :: stem ++ suffix ++ '(' :: subscripts ++ ')' :: separator)

/-- Whether a text consists of arrays, of one at least. -/
def IsArraySequence (text : Text) : Prop :=
  ∃ arrays, arrays ≠ [] ∧ (∀ array ∈ arrays, IsArray array) ∧ text = arrays.flatten

theorem fst_takeOptional (taken : Char → Bool) (text : Text) :
    (takeOptional taken text).1 = [] ∨
      ∃ character, taken character = true ∧ (takeOptional taken text).1 = [character] := by
  cases text with
  | nil => exact Or.inl rfl
  | cons character rest =>
      rw [takeOptional]
      split
      · next accepted => exact Or.inr ⟨character, accepted, rfl⟩
      · exact Or.inl rfl

theorem takeOptional_of_head?
    {taken : Char → Bool} {text : Text}
    (ends : ∀ character ∈ text.head?, taken character = false) :
    takeOptional taken text = ([], text) := by
  cases text with
  | nil => rfl
  | cons character rest =>
      have left : taken character = false := ends character rfl
      rw [takeOptional, if_neg (by simp [left])]

theorem isArray_of_takeArray?
    {text array rest : Text} (found : takeArray? text = some (array, rest)) :
    IsArray array := by
  unfold takeArray? at found
  split at found
  · cases found
  · next first tail =>
      split at found
      · next letter =>
          have stem : ∀ character ∈ tail.takeWhile isStemCharacter,
              isStemCharacter character = true :=
            List.all_eq_true.1 List.all_takeWhile
          have suffix := fst_takeOptional (fun taken => taken = '$' || taken = '%')
            (tail.dropWhile isStemCharacter)
          simp only at found
          split at found
          · next inside named =>
              split at found
              · next behind closed =>
                  have subscripts :
                      ∀ character ∈ inside.takeWhile fun inner => !isParenthesis inner,
                        character ≠ '(' ∧ character ≠ ')' := by
                    intro character member
                    have within := List.all_eq_true.1 List.all_takeWhile character member
                    simpa [isParenthesis] using within
                  have separator :=
                    fst_takeOptional (fun taken => taken = ',' || taken = ':') behind
                  simp only [Option.some.injEq, Prod.mk.injEq] at found
                  obtain ⟨rfl, -⟩ := found
                  refine .intro letter stem ?_ subscripts ?_
                  · rcases suffix with none | ⟨character, accepted, some⟩
                    · exact Or.inl none
                    · rw [some]
                      simpa using accepted
                  · rcases separator with none | ⟨character, accepted, some⟩
                    · exact Or.inl none
                    · rw [some]
                      simpa using accepted
              · cases found
          · cases found
      · cases found

/-- An array is taken off the front of a text that does not go on with a separator. -/
theorem takeArray?_append
    {array rest : Text} (isArray : IsArray array)
    (ends : ∀ character ∈ rest.head?, character ≠ ',' ∧ character ≠ ':') :
    takeArray? (array ++ rest) = some (array, rest) := by
  cases isArray with
  | @intro first stem suffix subscripts separator letter stemCharacters suffixShape inner
      separatorShape =>
      have noStem :
          ∀ character ∈ (suffix ++ '(' :: (subscripts ++ ')' :: (separator ++ rest))).head?,
            isStemCharacter character = false := by
        rcases suffixShape with rfl | rfl | rfl
        · simp [isStemCharacter, isUpperLetter]
        · simp [isStemCharacter, isUpperLetter]
        · simp [isStemCharacter, isUpperLetter]
      have suffixTaken :
          takeOptional (fun taken => taken = '$' || taken = '%')
              (suffix ++ '(' :: (subscripts ++ ')' :: (separator ++ rest))) =
            (suffix, '(' :: (subscripts ++ ')' :: (separator ++ rest))) := by
        rcases suffixShape with rfl | rfl | rfl
        · rfl
        · rfl
        · rfl
      have within : ∀ character ∈ subscripts, (!isParenthesis character) = true := by
        intro character member
        obtain ⟨noOpening, noClosing⟩ := inner character member
        simp [isParenthesis, noOpening, noClosing]
      have closing : ∀ character ∈ (')' :: (separator ++ rest)).head?,
          (!isParenthesis character) = false := by
        rintro character ⟨⟩
        rfl
      have separatorTaken :
          takeOptional (fun taken => taken = ',' || taken = ':') (separator ++ rest) =
            (separator, rest) := by
        rcases separatorShape with rfl | rfl | rfl
        · apply takeOptional_of_head?
          intro character first
          simpa using ends character first
        · rfl
        · rfl
      have shape : first :: stem ++ suffix ++ '(' :: subscripts ++ ')' :: separator ++ rest =
          first :: (stem ++ (suffix ++ '(' :: (subscripts ++ ')' :: (separator ++ rest)))) := by
        simp
      rw [shape, takeArray?, if_pos letter, takeWhile_append_of_head? stemCharacters noStem,
        dropWhile_append_of_head? stemCharacters noStem, suffixTaken]
      simp only [takeWhile_append_of_head? within closing,
        dropWhile_append_of_head? within closing, separatorTaken]

theorem IsArray.head? {array : Text} (isArray : IsArray array) :
    ∃ first, array.head? = some first ∧ isUpperLetter first = true := by
  cases isArray with
  | intro letter _ _ _ _ => exact ⟨_, rfl, letter⟩

/-- No separator stands before an array. -/
theorem noSeparator_of_arrays
    {arrays : List Text} (areArrays : ∀ array ∈ arrays, IsArray array) :
    ∀ character ∈ arrays.flatten.head?, character ≠ ',' ∧ character ≠ ':' := by
  cases arrays with
  | nil => simp
  | cons array others =>
      obtain ⟨first, begins, letter⟩ := (areArrays array List.mem_cons_self).head?
      have nonempty : array ≠ [] := by
        rintro rfl
        cases begins
      rw [List.flatten_cons, List.head?_append_of_ne_nil _ nonempty, begins]
      rintro character ⟨⟩
      constructor
      · rintro rfl
        exact absurd letter (by decide)
      · rintro rfl
        exact absurd letter (by decide)

theorem isArray_of_arrays?
    {text : Text} {arrays : List Text} (found : arrays? text = some arrays) :
    ∀ array ∈ arrays, IsArray array := by
  induction text using arrays?.induct generalizing arrays with
  | case1 text empty =>
      obtain rfl := List.isEmpty_iff.1 empty
      rw [arrays?_nil] at found
      obtain rfl := Option.some.inj found
      exact List.forall_mem_nil _
  | case2 text nonempty absent =>
      rw [arrays?_of_takeArray?_eq_none nonempty absent] at found
      cases found
  | case3 text nonempty array rest taken hypothesis =>
      rw [arrays?_of_takeArray? taken] at found
      obtain ⟨further, furtherFound, rfl⟩ := Option.map_eq_some_iff.1 found
      exact List.forall_mem_cons.2 ⟨isArray_of_takeArray? taken, hypothesis furtherFound⟩

theorem arrays?_flatten
    {arrays : List Text} (areArrays : ∀ array ∈ arrays, IsArray array) :
    arrays? arrays.flatten = some arrays := by
  induction arrays with
  | nil => exact arrays?_nil
  | cons array others hypothesis =>
      obtain ⟨isArray, areOthers⟩ := List.forall_mem_cons.1 areArrays
      have taken := takeArray?_append isArray (noSeparator_of_arrays areOthers)
      rw [List.flatten_cons, arrays?_of_takeArray? taken, hypothesis areOthers]
      rfl

/-- A text is taken apart into arrays exactly if it is a sequence of them. -/
theorem arrays?_eq_some_iff (text : Text) (arrays : List Text) :
    arrays? text = some arrays ↔
      (∀ array ∈ arrays, IsArray array) ∧ text = arrays.flatten := by
  constructor
  · intro found
    exact ⟨isArray_of_arrays? found, (flatten_of_arrays? found).symm⟩
  · rintro ⟨areArrays, rfl⟩
    exact arrays?_flatten areArrays

theorem splitDim_eq_none_iff (text : Text) :
    splitDim ("DIM ".toList ++ text) = none ↔ ¬IsArraySequence text := by
  have behind : ("DIM ".toList ++ text).drop 4 = text := rfl
  rw [splitDim, if_pos (by simp), behind]
  cases found : arrays? text with
  | none =>
      refine iff_of_true rfl ?_
      rintro ⟨arrays, -, areArrays, shape⟩
      rw [(arrays?_eq_some_iff text arrays).2 ⟨areArrays, shape⟩] at found
      cases found
  | some arrays =>
      obtain ⟨areArrays, shape⟩ := (arrays?_eq_some_iff text arrays).1 found
      cases arrays with
      | nil =>
          refine iff_of_true rfl ?_
          rintro ⟨others, nonempty, areOthers, same⟩
          rw [(arrays?_eq_some_iff text others).2 ⟨areOthers, same⟩] at found
          exact nonempty (Option.some.inj found)
      | cons first others =>
          refine iff_of_false (by simp) ?_
          rw [not_not]
          exact ⟨first :: others, List.cons_ne_nil _ _, areArrays, shape⟩

end Applesoft.Wrapping
