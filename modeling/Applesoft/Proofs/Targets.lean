import Mathlib.Data.List.Basic
import Applesoft.Statement

namespace Applesoft

theorem toNat_toCharacter (byte : UInt8) :
    (toCharacter byte).toNat = byte.toNat := by
  have bound := byte.toNat_lt
  have valid : byte.toNat.isValidChar := Or.inl (by omega)
  rw [toCharacter, Char.ofNat, dif_pos valid]
  rfl

theorem toCharacter_injective : Function.Injective toCharacter := by
  intro left right same
  have values := congrArg Char.toNat same
  rwa [toNat_toCharacter, toNat_toCharacter, UInt8.toNat_inj] at values

theorem toCharacter_eq_iff
    (byte : UInt8) {other : UInt8} {character : Char} (same : toCharacter other = character) :
    toCharacter byte = character ↔ byte = other := by
  rw [← same]
  exact toCharacter_injective.eq_iff

theorem isDigit_iff_toNat (character : Char) :
    character.isDigit = true ↔ 48 ≤ character.toNat ∧ character.toNat ≤ 57 := by
  simp only [Char.isDigit, Bool.and_eq_true, decide_eq_true_eq, ge_iff_le,
    UInt32.le_iff_toNat_le]
  rfl

theorem isDigit_toCharacter (byte : UInt8) :
    (toCharacter byte).isDigit = isDigit byte := by
  rw [Bool.eq_iff_iff, isDigit_iff_toNat, toNat_toCharacter, isDigit, Bool.and_eq_true,
    decide_eq_true_eq, decide_eq_true_eq, UInt8.le_iff_toNat_le, UInt8.le_iff_toNat_le]
  rfl

namespace Numeral

/-- Whether a text writes a number with decimal digits; leading zeros are allowed. -/
structure Writes (digits : Text) (number : Nat) : Prop where
  nonempty : digits ≠ []
  allDigits : ∀ digit ∈ digits, digit.isDigit = true
  value : Nat.ofDigitChars 10 digits 0 = number

theorem exists_sign_append_unsigned (text : Text) :
    ∃ sign, text = sign ++ unsigned text ∧ (sign = [] ∨ sign = ['+']) := by
  unfold unsigned
  split
  · next digits => exact ⟨['+'], rfl, Or.inr rfl⟩
  · exact ⟨[], rfl, Or.inl rfl⟩

theorem unsigned_sign_append
    {sign digits : Text} {number : Nat}
    (optional : sign = [] ∨ sign = ['+']) (writes : Writes digits number) :
    unsigned (sign ++ digits) = digits := by
  rcases optional with rfl | rfl
  · unfold unsigned
    split
    · next rest shape =>
        have plus : '+'.isDigit = true := by
          apply writes.allDigits
          rw [← List.nil_append digits, shape]
          exact List.mem_cons_self
        exact absurd plus (by decide)
    · rfl
  · rfl

/-- A number is read from one optional plus sign and the digits that write it. -/
theorem read?_eq_some_iff (bound : Nat) (text : Text) (number : Nat) :
    read? bound text = some number ↔
      number ≤ bound ∧ ∃ sign digits, text = sign ++ digits ∧
        (sign = [] ∨ sign = ['+']) ∧ Writes digits number := by
  constructor
  · intro read
    simp only [read?] at read
    split at read
    · cases read
    · next wellFormed =>
        simp only [Bool.or_eq_true, Bool.not_eq_true', not_or, Bool.not_eq_true,
          Bool.not_eq_false, List.isEmpty_eq_false_iff, List.all_eq_true] at wellFormed
        obtain ⟨sign, shape, optional⟩ := exists_sign_append_unsigned text
        split at read
        · next within =>
            cases read
            exact ⟨within, sign, unsigned text, shape, optional, wellFormed.1, wellFormed.2,
              rfl⟩
        · cases read
  · rintro ⟨within, sign, digits, rfl, optional, writes⟩
    have nonempty : digits.isEmpty = false := by
      rw [List.isEmpty_eq_false_iff]
      exact writes.nonempty
    have allDigits : digits.all Char.isDigit = true := List.all_eq_true.2 writes.allDigits
    simp only [read?, unsigned_sign_append optional writes, nonempty, allDigits, writes.value]
    simp [within]

theorem map_read?_eq_some_iff (text : Text) (number : UInt16) :
    (read? 65535 text).map UInt16.ofNat = some number ↔
      read? 65535 text = some number.toNat := by
  constructor
  · intro found
    obtain ⟨read, shape, rfl⟩ := Option.map_eq_some_iff.1 found
    have within := ((read?_eq_some_iff 65535 text read).1 shape).1
    rw [shape, UInt16.toNat_ofNat_of_lt' (by simpa [UInt16.size] using Nat.lt_succ_of_le within)]
  · intro read
    rw [read, Option.map_some, UInt16.ofNat_toNat]

end Numeral

/-- Whether bytes begin with a line number, behind any spaces. -/
def BeginsWithNumber (bytes : Bytes) (number : UInt16) : Prop :=
  ∃ spaces digits rest, bytes = spaces ++ digits ++ rest ∧
    (∀ byte ∈ spaces, byte = Punctuation.space) ∧
    (∀ byte ∈ rest.head?, isDigit byte = false) ∧
    Numeral.Writes (digits.map toCharacter) number.toNat

theorem dropWhile_append_of_head?
    {alpha : Type} {dropped : alpha → Bool} {front rest : List alpha}
    (all : ∀ element ∈ front, dropped element = true)
    (ends : ∀ element ∈ rest.head?, dropped element = false) :
    (front ++ rest).dropWhile dropped = rest := by
  rw [List.dropWhile_append_of_pos all]
  cases rest with
  | nil => rfl
  | cons first others =>
      have kept : dropped first = false := ends first rfl
      rw [List.dropWhile_cons_of_neg (by simp [kept])]

theorem takeWhile_append_of_head?
    {alpha : Type} {taken : alpha → Bool} {front rest : List alpha}
    (all : ∀ element ∈ front, taken element = true)
    (ends : ∀ element ∈ rest.head?, taken element = false) :
    (front ++ rest).takeWhile taken = front := by
  rw [List.takeWhile_append_of_pos all]
  cases rest with
  | nil => simp
  | cons first others =>
      have left : taken first = false := ends first rfl
      simp [left]

theorem lineNumber?_eq_some_iff (bytes : Bytes) (number : UInt16) :
    lineNumber? bytes = some number ↔ BeginsWithNumber bytes number := by
  rw [lineNumber?, Numeral.map_read?_eq_some_iff, Numeral.read?_eq_some_iff]
  constructor
  · rintro ⟨_, sign, digits, shape, optional, writes⟩
    generalize stripped : bytes.dropWhile (· = Punctuation.space) = others at shape
    have unsigned : sign = [] := by
      rcases optional with rfl | rfl
      · rfl
      · have plus : '+' ∈ (others.takeWhile isDigit).map toCharacter := by
          rw [shape]
          exact List.mem_cons_self
        obtain ⟨byte, member, same⟩ := List.mem_map.1 plus
        have digit := List.all_eq_true.1 List.all_takeWhile byte member
        rw [← isDigit_toCharacter, same] at digit
        exact absurd digit (by decide)
    refine ⟨bytes.takeWhile (· = Punctuation.space), others.takeWhile isDigit,
      others.dropWhile isDigit, ?_, ?_, ?_, ?_⟩
    · rw [List.append_assoc, List.takeWhile_append_dropWhile, ← stripped,
        List.takeWhile_append_dropWhile]
    · intro byte member
      exact of_decide_eq_true (List.all_eq_true.1 List.all_takeWhile byte member)
    · intro byte first
      have stops := List.head?_dropWhile_not isDigit others
      rw [first] at stops
      simpa using stops
    · rw [shape, unsigned]
      exact writes
  · rintro ⟨spaces, digits, rest, rfl, allSpaces, ends, writes⟩
    have allDigits : ∀ byte ∈ digits, isDigit byte = true := by
      intro byte member
      rw [← isDigit_toCharacter]
      exact writes.allDigits _ (List.mem_map_of_mem member)
    have begins : ∀ byte ∈ (digits ++ rest).head?,
        decide (byte = Punctuation.space) = false := by
      cases digits with
      | nil => exact absurd rfl writes.nonempty
      | cons first others =>
          rintro byte ⟨⟩
          have digit := allDigits first List.mem_cons_self
          rw [decide_eq_false_iff_not]
          rintro rfl
          exact absurd digit (by decide)
    have within : number.toNat ≤ 65535 := Nat.le_of_lt_succ number.toNat_lt
    rw [List.append_assoc,
      dropWhile_append_of_head? (fun byte member => decide_eq_true (allSpaces byte member))
        begins,
      takeWhile_append_of_head? allDigits ends]
    exact ⟨within, [], _, rfl, Or.inl rfl, writes⟩

/-- Whether an entry is a line number: digits behind one optional plus sign, with any white space
around them. -/
def IsTargetNumber (entry : Text) (number : UInt16) : Prop :=
  ∃ before sign digits behind, entry = before ++ (sign ++ digits) ++ behind ∧
    (∀ character ∈ before, Text.isBlank character = true) ∧
    (∀ character ∈ behind, Text.isBlank character = true) ∧
    (sign = [] ∨ sign = ['+']) ∧ Numeral.Writes digits number.toNat

namespace Text

theorem fields_eq_splitOn (separator : Char) (text : Text) :
    fields separator text = text.splitOn separator := by
  induction text with
  | nil => rfl
  | cons character rest hypothesis =>
      rw [fields, hypothesis, List.splitOn_eq_splitOnP, List.splitOn_eq_splitOnP,
        List.splitOnP_cons_eq_if_modifyHead]
      split
      · next none => exact absurd none (List.splitOnP_ne_nil _ rest)
      · next part parts shape =>
          rw [shape]
          simp

theorem exists_blanks_append_trim (text : Text) :
    ∃ before behind, text = before ++ trim text ++ behind ∧
      (∀ character ∈ before, isBlank character = true) ∧
      ∀ character ∈ behind, isBlank character = true := by
  obtain ⟨behind, shape, blank⟩ := exists_trimEnd_append (text.dropWhile isBlank)
  refine ⟨text.takeWhile isBlank, behind, ?_, ?_, blank⟩
  · rw [List.append_assoc, trim, ← shape, List.takeWhile_append_dropWhile]
  · intro character member
    exact List.all_eq_true.1 List.all_takeWhile character member

theorem trim_append
    {before core behind : Text}
    (blankBefore : ∀ character ∈ before, isBlank character = true)
    (blankBehind : ∀ character ∈ behind, isBlank character = true)
    (begins : ∀ character ∈ core.head?, isBlank character = false)
    (ends : ∀ character ∈ core.getLast?, isBlank character = false)
    (nonempty : core ≠ []) :
    trim (before ++ core ++ behind) = core := by
  have front : ∀ character ∈ (core ++ behind).head?, isBlank character = false := by
    rw [List.head?_append_of_ne_nil _ nonempty]
    exact begins
  have rear : ∀ character ∈ core.reverse.head?, isBlank character = false := by
    rw [List.head?_reverse]
    exact ends
  have blankReversed : ∀ character ∈ behind.reverse, isBlank character = true := by
    intro character member
    exact blankBehind character (List.mem_reverse.1 member)
  rw [trim, List.append_assoc, dropWhile_append_of_head? blankBefore front, trimEnd,
    dropTrailing, List.reverse_append, dropWhile_append_of_head? blankReversed rear,
    List.reverse_reverse]

end Text

theorem Numeral.Writes.trim_append
    {before sign digits behind : Text} {number : Nat}
    (writes : Writes digits number)
    (optional : sign = [] ∨ sign = ['+'])
    (blankBefore : ∀ character ∈ before, Text.isBlank character = true)
    (blankBehind : ∀ character ∈ behind, Text.isBlank character = true) :
    Text.trim (before ++ (sign ++ digits) ++ behind) = sign ++ digits := by
  have visible : ∀ character ∈ digits, Text.isBlank character = false := by
    intro character member
    have bounds := (isDigit_iff_toNat character).1 (writes.allDigits character member)
    exact Text.isBlank_eq_false_of_toNat (by omega) (by omega)
  apply Text.trim_append blankBefore blankBehind
  · rcases optional with rfl | rfl
    · intro character first
      exact visible character (List.mem_of_head? first)
    · rintro character ⟨⟩
      decide
  · rw [List.getLast?_append_of_ne_nil _ writes.nonempty]
    intro character last
    exact visible character (List.mem_of_getLast? last)
  · exact List.append_ne_nil_of_right_ne_nil _ writes.nonempty

theorem TargetEntry.map_read?_eq_some_iff (entry : Text) (number : UInt16) :
    (Numeral.read? 65535 (Text.trim entry)).map UInt16.ofNat = some number ↔
      IsTargetNumber entry number := by
  rw [Numeral.map_read?_eq_some_iff, Numeral.read?_eq_some_iff]
  constructor
  · rintro ⟨_, sign, digits, shape, optional, writes⟩
    obtain ⟨before, behind, whole, blankBefore, blankBehind⟩ :=
      Text.exists_blanks_append_trim entry
    rw [shape] at whole
    exact ⟨before, sign, digits, behind, whole, blankBefore, blankBehind, optional, writes⟩
  · rintro ⟨before, sign, digits, behind, rfl, blankBefore, blankBehind, optional, writes⟩
    have within : number.toNat ≤ 65535 := Nat.le_of_lt_succ number.toNat_lt
    rw [writes.trim_append optional blankBefore blankBehind]
    exact ⟨within, sign, digits, rfl, optional, writes⟩

theorem TargetEntry.read_eq_line
    {entry : Text} {number : UInt16} (written : IsTargetNumber entry number) :
    TargetEntry.read entry = .line number := by
  rw [← map_read?_eq_some_iff] at written
  obtain ⟨value, found, rfl⟩ := Option.map_eq_some_iff.1 written
  rw [TargetEntry.read, found]

theorem TargetEntry.read_eq_unreadable
    {entry : Text} (unwritten : ∀ number, ¬ IsTargetNumber entry number) :
    TargetEntry.read entry = .unreadable entry := by
  cases found : Numeral.read? 65535 (Text.trim entry) with
  | none => rw [TargetEntry.read, found]
  | some value =>
      apply absurd _ (unwritten (UInt16.ofNat value))
      rw [← map_read?_eq_some_iff, found, Option.map_some]

end Applesoft
