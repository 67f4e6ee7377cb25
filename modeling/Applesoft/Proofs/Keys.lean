import Mathlib.Data.List.TakeDrop
import Applesoft.Proofs.Checked.Names

/-!
What collision keys tell apart. A key keeps the first two characters of the stem of a name, with its
type suffix and its array mark, and so is a name that is not shortened again.

The main statement is that two names of the language have the same key if and only if they agree in
these three, and that the keys of ASCII texts are the texts that are their own keys. What is taken
off such a text is as much as can be taken for a suffix and a mark, unless nothing is left then.
-/

namespace Applesoft.Variable

open Checked (peel_concat)

/-- The text of a stem with a type suffix and an array mark behind it. The stem may have any
characters, or none. -/
def spell (stem : Text) (kind : Kind) (isArray : Bool) : Text :=
  stem ++ kind.suffix.map toCharacter ++ (arrayMark isArray).map toCharacter

/-- Whether all that a text has in front of a type suffix and an array mark is two characters at
most. -/
def HasShortStem (text : Text) : Prop :=
  ∃ stem kind isArray, stem.length ≤ 2 ∧ text = spell stem kind isArray

section Peel

variable {taken : Char → Bool}

theorem exists_peel_eq (taken : Char → Bool) (text : Text) :
    ∃ front ending, text = front ++ ending ∧ peel taken text = (front, ending) ∧
      (ending = [] ∨ ∃ last, taken last = true ∧ ending = [last]) := by
  rcases List.eq_nil_or_concat' text with rfl | ⟨front, last, rfl⟩
  · exact ⟨[], [], rfl, rfl, .inl rfl⟩
  · rw [peel_concat]
    split
    · next both =>
        rw [Bool.and_eq_true] at both
        exact ⟨front, [last], rfl, rfl, .inr ⟨last, both.1, rfl⟩⟩
    · exact ⟨front ++ [last], [], (List.append_nil _).symm, rfl, .inl rfl⟩

theorem length_peel_le (taken : Char → Bool) (text : Text) :
    (peel taken text).1.length ≤ text.length := by
  obtain ⟨front, ending, rfl, peeled, _⟩ := exists_peel_eq taken text
  rw [peeled, List.length_append]
  exact Nat.le_add_right _ _

/-- A last character of the class stays only if it is alone. -/
theorem length_peel_concat_le {last : Char} (ofClass : taken last = true) (front : Text) :
    (peel taken (front ++ [last])).1.length ≤ max front.length 1 := by
  rw [peel_concat, ofClass, Bool.true_and]
  cases front with
  | nil => exact le_rfl
  | cons first rest => exact le_max_left _ _

theorem peel_concat_of_kept {last : Char} (kept : taken last = false) (front : Text) :
    peel taken (front ++ [last]) = (front ++ [last], []) := by
  rw [peel_concat, kept]
  rfl

end Peel

theorem exists_peel_arrayMark_eq (text : Text) :
    ∃ typed isArray, text = typed ++ (arrayMark isArray).map toCharacter ∧
      peel (· = '(') text = (typed, (arrayMark isArray).map toCharacter) := by
  obtain ⟨front, ending, rfl, peeled, rfl | ⟨last, isMark, rfl⟩⟩ := exists_peel_eq (· = '(') text
  · exact ⟨front, false, rfl, peeled⟩
  · obtain rfl := of_decide_eq_true isMark
    exact ⟨front, true, rfl, peeled⟩

theorem exists_peel_suffix_eq (typed : Text) :
    ∃ stem, ∃ kind : Kind, typed = stem ++ kind.suffix.map toCharacter ∧
      peel (fun last => last = '$' || last = '%') typed =
        (stem, kind.suffix.map toCharacter) := by
  obtain ⟨front, ending, rfl, peeled, rfl | ⟨last, isSuffix, rfl⟩⟩ :=
    exists_peel_eq (fun last => last = '$' || last = '%') typed
  · exact ⟨front, .real, rfl, peeled⟩
  · rw [Bool.or_eq_true, decide_eq_true_eq, decide_eq_true_eq] at isSuffix
    rcases isSuffix with rfl | rfl
    · exact ⟨front, .string, rfl, peeled⟩
    · exact ⟨front, .integer, rfl, peeled⟩

theorem Kind.exists_suffix_character {kind : Kind} (typed : kind ≠ .real) :
    ∃ last, kind.suffix.map toCharacter = [last] ∧ (last = '$' || last = '%') = true ∧
      decide (last = '(') = false := by
  cases kind with
  | real => exact absurd rfl typed
  | string => exact ⟨'$', rfl, rfl, rfl⟩
  | integer => exact ⟨'%', rfl, rfl, rfl⟩

/-- Whatever else a text may be the spelling of, the stem that is found in it is no longer, unless
it is a single character. -/
theorem length_peel_spell_le (stem : Text) (kind : Kind) (isArray : Bool) :
    (peel (fun last => last = '$' || last = '%')
      (peel (· = '(') (spell stem kind isArray)).1).1.length ≤ max stem.length 1 := by
  have mark : (arrayMark true).map toCharacter = ['('] := rfl
  have noMark : (arrayMark false).map toCharacter = [] := rfl
  by_cases real : kind = .real
  · refine (length_peel_le _ _).trans ?_
    rw [real, spell, Kind.suffix, List.map_nil, List.append_nil]
    cases isArray with
    | true => exact mark ▸ length_peel_concat_le rfl stem
    | false =>
        rw [noMark, List.append_nil]
        exact (length_peel_le _ _).trans (le_max_left _ _)
  · obtain ⟨last, suffix, ofClass, noParenthesis⟩ := Kind.exists_suffix_character real
    -- With a type suffix in front of it an array mark is not alone.
    have typed : (peel (· = '(') (spell stem kind isArray)).1 = stem ++ [last] := by
      rw [spell, suffix]
      cases isArray with
      | true =>
          rw [mark, peel_concat]
          simp
      | false => rw [noMark, List.append_nil, peel_concat_of_kept noParenthesis]
    rw [typed]
    exact length_peel_concat_le ofClass stem

/-- A text is taken apart into the spelling of a stem that is as short as it can be, and its key is
the spelling of two characters of that. -/
theorem exists_collisionKey_eq {text : Text} (ascii : ∀ character ∈ text, character.toNat ≤ 127) :
    ∃ stem kind isArray, text = spell stem kind isArray ∧
      collisionKey text = spell (stem.take 2) kind isArray ∧
      (HasShortStem text → stem.length ≤ 2) := by
  obtain ⟨typed, isArray, withMark, markPeeled⟩ := exists_peel_arrayMark_eq text
  obtain ⟨stem, kind, withSuffix, suffixPeeled⟩ := exists_peel_suffix_eq typed
  have spelled : text = spell stem kind isArray := by rw [withMark, withSuffix, spell]
  have stemAscii : ∀ character ∈ stem, character.toNat ≤ 127 := by
    intro character member
    refine ascii character ?_
    rw [spelled, spell]
    exact List.mem_append_left _ (List.mem_append_left _ member)
  refine ⟨stem, kind, isArray, spelled, ?_, ?_⟩
  · simp only [collisionKey, markPeeled, suffixPeeled]
    rw [Utf8.length_encode_of_ascii stemAscii, significant_of_ascii stemAscii]
    split
    · next short => rw [List.take_of_length_le short, spelled]
    · rfl
  · rintro ⟨other, otherKind, otherMark, short, same⟩
    have bound := length_peel_spell_le other otherKind otherMark
    rw [← same, markPeeled, suffixPeeled] at bound
    exact bound.trans (max_le short (by decide))

theorem ascii_spell
    {stem : Text} {kind : Kind} {isArray : Bool}
    (ascii : ∀ character ∈ spell stem kind isArray, character.toNat ≤ 127) :
    ∀ character ∈ spell (stem.take 2) kind isArray, character.toNat ≤ 127 := by
  intro character member
  refine ascii character ?_
  rw [spell, List.append_assoc, List.mem_append] at member ⊢
  exact member.imp_left List.mem_of_mem_take

theorem collisionKey_of_hasShortStem
    {text : Text} (ascii : ∀ character ∈ text, character.toNat ≤ 127) (short : HasShortStem text) :
    collisionKey text = text := by
  obtain ⟨stem, kind, isArray, spelled, key, least⟩ := exists_collisionKey_eq ascii
  rw [key, List.take_of_length_le (least short), spelled]

theorem hasShortStem_collisionKey
    {text : Text} (ascii : ∀ character ∈ text, character.toNat ≤ 127) :
    HasShortStem (collisionKey text) := by
  obtain ⟨stem, kind, isArray, _, key, _⟩ := exists_collisionKey_eq ascii
  exact ⟨stem.take 2, kind, isArray, List.length_take_le 2 stem, key⟩

theorem ascii_collisionKey
    {text : Text} (ascii : ∀ character ∈ text, character.toNat ≤ 127) :
    ∀ character ∈ collisionKey text, character.toNat ≤ 127 := by
  obtain ⟨stem, kind, isArray, spelled, key, _⟩ := exists_collisionKey_eq ascii
  rw [spelled] at ascii
  exact key ▸ ascii_spell ascii

namespace Reference

theorem isConfused_iff (left right : Reference) :
    left.IsConfused right ↔
      left.stem.take 2 = right.stem.take 2 ∧ left.kind = right.kind ∧
        left.isArray = right.isArray :=
  Reference.ext_iff

theorem collisionKey_eq_name_iff (reference : Reference) :
    collisionKey reference.name = reference.name ↔ reference.stem.length ≤ 2 := by
  rw [collisionKey_name, name_injective.eq_iff, Reference.ext_iff]
  change reference.stem.take 2 = reference.stem ∧ _ ↔ _
  rw [List.take_eq_self_iff]
  exact and_iff_left ⟨rfl, rfl⟩

end Reference

/-- Two names of the language have one key if and only if they agree in the first two characters of
the stem, in the type suffix and in the array mark, and a name is its own key if and only if its
stem has no more. The key of an ASCII text is a text that is its own key, and the texts that are
their own keys are those with at most two characters in front of a type suffix and an array mark. -/
theorem collisionKey_tells_apart :
    (∀ left right : Reference,
      collisionKey left.name = collisionKey right.name ↔
        left.stem.take 2 = right.stem.take 2 ∧ left.kind = right.kind ∧
          left.isArray = right.isArray) ∧
      (∀ reference : Reference,
        collisionKey reference.name = reference.name ↔ reference.stem.length ≤ 2) ∧
      ∀ text : Text, (∀ character ∈ text, character.toNat ≤ 127) →
        collisionKey (collisionKey text) = collisionKey text ∧
          (collisionKey text = text ↔ HasShortStem text) := by
  refine ⟨fun left right => ?_, Reference.collisionKey_eq_name_iff, fun text ascii => ⟨?_, ?_, ?_⟩⟩
  · rw [collisionKey_eq_iff, Reference.isConfused_iff]
  · exact collisionKey_of_hasShortStem (ascii_collisionKey ascii) (hasShortStem_collisionKey ascii)
  · intro unchanged
    exact unchanged ▸ hasShortStem_collisionKey ascii
  · exact collisionKey_of_hasShortStem ascii

/-- Of two type suffixes the first belongs to the stem, and is lost when that is cut. -/
theorem collisionKey_of_two_suffixes :
    collisionKey (collisionKey "AB%$(".toList) = collisionKey "AB%$(".toList ∧
      collisionKey "AB%$(".toList = "AB$(".toList ∧ ¬ HasShortStem "AB%$(".toList := by
  have ascii : ("AB%$(".toList.all fun character => character.toNat ≤ 127) = true := by decide
  obtain ⟨settled, short⟩ := collisionKey_tells_apart.2.2 "AB%$(".toList fun character member =>
    of_decide_eq_true (List.all_eq_true.1 ascii character member)
  refine ⟨settled, by decide, fun hasShortStem => ?_⟩
  exact absurd (short.2 hasShortStem) (by decide)

end Applesoft.Variable
