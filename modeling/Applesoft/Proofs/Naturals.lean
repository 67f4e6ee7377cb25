import Mathlib.Data.List.Induction
import Mathlib.Data.List.TakeWhile
import Applesoft.Json.Token
import Applesoft.Proofs.Targets

namespace Applesoft

namespace Numeral

theorem digitChar_sub_eq {character : Char} (digit : character.isDigit = true) :
    Nat.digitChar (character.toNat - 48) = character := by
  obtain ⟨low, high⟩ := (isDigit_iff_toNat character).1 digit
  apply Char.toNat_inj.1
  rw [Nat.toNat_digitChar_of_lt_ten (by omega)]
  omega

/-- Digits without a leading zero are the decimal text of what they are worth. -/
theorem decimal_ofDigitChars
    {first : Char} {rest : Text} (digits : ∀ digit ∈ first :: rest, digit.isDigit = true)
    (leading : first ≠ '0') :
    decimal (Nat.ofDigitChars 10 (first :: rest) 0) = first :: rest ∧
      0 < Nat.ofDigitChars 10 (first :: rest) 0 := by
  induction rest using List.reverseRecOn with
  | nil =>
      have digit := digits first List.mem_cons_self
      have bounds := (isDigit_iff_toNat first).1 digit
      have value : Nat.ofDigitChars 10 [first] 0 = first.toNat - 48 := by
        simp [Nat.ofDigitChars_cons]
      have positive : first.toNat ≠ '0'.toNat := fun same => leading (Char.toNat_inj.1 same)
      have zero : '0'.toNat = 48 := rfl
      rw [value, decimal, Nat.toDigits_of_lt_base (by omega), digitChar_sub_eq digit]
      exact ⟨rfl, by omega⟩
  | append_singleton front last hypothesis =>
      have digit : last.isDigit = true := digits last (by simp)
      have bounds := (isDigit_iff_toNat last).1 digit
      obtain ⟨written, positive⟩ := hypothesis fun other member =>
        digits other (by
          rw [← List.cons_append]
          exact List.mem_append_left [last] member)
      have value : Nat.ofDigitChars 10 (first :: (front ++ [last])) 0 =
          10 * Nat.ofDigitChars 10 (first :: front) 0 + (last.toNat - 48) := by
        rw [← List.cons_append, Nat.ofDigitChars_append]
        simp [Nat.ofDigitChars_cons]
      have small : last.toNat - 48 < 10 := by omega
      rw [decimal] at written
      rw [value, decimal, ← Nat.toDigits_append_toDigits (by decide) positive small, written,
        Nat.toDigits_of_lt_base small, digitChar_sub_eq digit]
      exact ⟨rfl, by omega⟩

/-- Only zero has a decimal text with a zero in front. -/
theorem head?_decimal {number : Nat} (positive : 0 < number) :
    (decimal number).head? ≠ some '0' := by
  rw [decimal]
  induction number using Nat.base_induction 10 (by decide) with
  | single digit small =>
      rw [Nat.toDigits_of_lt_base small, List.head?_cons]
      intro same
      have values := congrArg Char.toNat (Option.some.inj same)
      have zero : '0'.toNat = 48 := rfl
      rw [Nat.toNat_digitChar_of_lt_ten small] at values
      omega
  | digit front last small nonzero hypothesis =>
      rw [← Nat.toDigits_append_toDigits (by decide) nonzero small,
        List.head?_append_of_ne_nil _ Nat.toDigits_ne_nil]
      exact hypothesis nonzero

theorem isDigit_of_mem_decimal {number : Nat} {character : Char}
    (member : character ∈ decimal number) :
    character.isDigit = true :=
  Nat.isDigit_of_mem_toDigits (by decide) (by decide) member

end Numeral

namespace Json.Numeric

theorem accumulate_eq
    {significand : Nat} {digits : Text}
    (fits : Nat.ofDigitChars 10 digits significand ≤ greatestNatural) :
    accumulate significand digits = (Nat.ofDigitChars 10 digits significand, digits.length) := by
  induction digits generalizing significand with
  | nil => rfl
  | cons digit rest hypothesis =>
      rw [Nat.ofDigitChars_cons] at fits
      have reordered : significand * 10 + (digit.toNat - '0'.toNat) =
          10 * significand + (digit.toNat - '0'.toNat) := by omega
      have grows : 10 * significand + (digit.toNat - '0'.toNat) ≤
          Nat.ofDigitChars 10 rest (10 * significand + (digit.toNat - '0'.toNat)) := by
        rw [Nat.ofDigitChars_eq_ofDigitChars_zero]
        exact Nat.le_trans (Nat.le_mul_of_pos_left _ (Nat.pow_pos (by decide)))
          (Nat.le_add_right _ _)
      rw [accumulate, reordered, if_pos (Nat.le_trans grows fits), hypothesis fits,
        Nat.ofDigitChars_cons]
      rfl

/-- Rounding a natural of 64 bits adds at most one unit of the twelve bits that are dropped. -/
theorem roundToDouble_le {number : Nat} (fits : number ≤ greatestNatural) :
    roundToDouble number ≤ number + 4096 := by
  have bits : Nat.log2 number + 1 - 53 ≤ 12 := by
    by_cases zero : number = 0
    · rw [zero, Nat.log2_zero]
      decide
    · have short : Nat.log2 number < 64 :=
        (Nat.log2_lt zero).2 (Nat.lt_succ_of_le fits)
      omega
  rw [roundToDouble]
  generalize Nat.log2 number + 1 - 53 = dropped at bits
  have kept : (number >>> dropped) * 2 ^ dropped ≤ number := by
    rw [Nat.shiftRight_eq_div_pow]
    exact Nat.div_mul_le_self number (2 ^ dropped)
  have unit : 2 ^ dropped ≤ 4096 := Nat.pow_le_pow_right (by decide) bits
  simp only [Nat.shiftLeft_eq]
  split
  · rw [Nat.add_mul, Nat.one_mul]
    exact Nat.add_le_add kept unit
  · exact Nat.le_trans kept (Nat.le_add_right _ _)

theorem isInRange_of_isNatural
    {digits : Text} (fits : value digits ≤ greatestNatural) :
    isInRange ⟨false, digits, none, none⟩ = true := by
  have read : scientific ⟨false, digits, none, none⟩ = (value digits, 0) := by
    rw [scientific]
    simp only [accumulate_eq fits, Option.getD_none, accumulate, value]
    simp
  rw [isInRange, read]
  split
  · rfl
  · next significand power _ shape =>
      obtain ⟨rfl, zero⟩ := Prod.mk.inj shape
      obtain rfl : power = 0 := (Int.ofNat.inj zero).symm
      have rounded := roundToDouble_le fits
      have one : roundToDouble (Nat.pow 10 0) = 1 := by decide
      have bound : greatestNatural + 4096 < leastOverflow := by decide +kernel
      rw [one, Nat.mul_one, Bool.and_eq_true, decide_eq_true_eq, decide_eq_true_eq]
      exact ⟨Nat.zero_le _, by omega⟩
  · rfl

/-- Whether digits are the integer part of a number. -/
def IsWhole (digits : Text) : Prop :=
  areDigits digits = true ∧ (digits.length = 1 ∨ digits.head? ≠ some '0')

theorem isWhole_iff (digits : Text) :
    IsWhole digits ↔ digits = Numeral.decimal (value digits) := by
  constructor
  · intro whole
    obtain ⟨areDigits, leading⟩ := whole
    rw [Numeric.areDigits, Bool.and_eq_true, List.all_eq_true] at areDigits
    cases digits with
    | nil => exact absurd areDigits.1 (by decide)
    | cons first rest =>
        by_cases zero : first = '0'
        · cases rest with
          | nil =>
              rw [zero]
              rfl
          | cons second others => simp [zero] at leading
        · exact (Numeral.decimal_ofDigitChars areDigits.2 zero).1.symm
  · intro written
    rw [written]
    have nonempty : Numeral.decimal (value digits) ≠ [] := Nat.toDigits_ne_nil
    refine ⟨?_, ?_⟩
    · rw [areDigits, Bool.and_eq_true, Bool.not_eq_true', List.isEmpty_eq_false_iff,
        List.all_eq_true]
      exact ⟨nonempty, fun character => Numeral.isDigit_of_mem_decimal⟩
    · by_cases zero : value digits = 0
      · rw [zero]
        exact Or.inl rfl
      · exact Or.inr (Numeral.head?_decimal (Nat.pos_of_ne_zero zero))

theorem isWellFormed_whole (digits : Text) :
    isWellFormed ⟨false, digits, none, none⟩ = true ↔ IsWhole digits := by
  simp [isWellFormed, IsWhole]

theorem takeFraction_none {text behind : Text} (taken : takeFraction text = (none, behind)) :
    behind = text := by
  unfold takeFraction at taken
  split at taken
  · cases taken
  · exact (Prod.mk.inj taken).2.symm

theorem takeExponent_none {text behind : Text} (taken : takeExponent text = (none, behind)) :
    behind = text := by
  unfold takeExponent at taken
  split at taken
  · split at taken
    · split at taken <;> cases taken
    · exact (Prod.mk.inj taken).2.symm
  · exact (Prod.mk.inj taken).2.symm

theorem split_unsigned {text : Text} (noSign : ∀ rest, text ≠ '-' :: rest) :
    split text =
      (⟨false, text.takeWhile Char.isDigit, (takeFraction (text.dropWhile Char.isDigit)).1,
          (takeExponent (takeFraction (text.dropWhile Char.isDigit)).2).1⟩,
        (takeExponent (takeFraction (text.dropWhile Char.isDigit)).2).2) := by
  unfold split
  split
  next negative unsigned shape =>
  split at shape
  · next rest => exact absurd rfl (noSign rest)
  · obtain ⟨rfl, rfl⟩ := Prod.mk.inj shape
    rfl

/-- A number without a sign, a fraction and an exponent is all digits. -/
theorem split_of_isNatural
    {text : Text} {parts : Numeric} (whole : split text = (parts, []))
    (natural : parts.isNatural = true) :
    parts = ⟨false, text, none, none⟩ := by
  rw [isNatural, Bool.and_eq_true, Bool.and_eq_true, Bool.not_eq_true',
    Option.isNone_iff_eq_none, Option.isNone_iff_eq_none] at natural
  obtain ⟨⟨unsigned, noFraction⟩, noExponent⟩ := natural
  have noSign : ∀ rest, text ≠ '-' :: rest := by
    rintro rest rfl
    have negative : (split ('-' :: rest)).1.negative = true := rfl
    rw [whole, unsigned] at negative
    cases negative
  rw [split_unsigned noSign] at whole
  obtain ⟨rfl, nothing⟩ := Prod.mk.inj whole
  have behindExponent := takeExponent_none (Prod.ext noExponent nothing)
  have behindFraction := takeFraction_none (Prod.ext noFraction behindExponent.symm)
  have digits := List.takeWhile_append_dropWhile (p := Char.isDigit) (l := text)
  rw [← behindFraction, List.append_nil] at digits
  rw [digits]
  exact congrArg₂ (Numeric.mk false text) noFraction noExponent

theorem split_whole {digits : Text} (isWhole : IsWhole digits) :
    split digits = (⟨false, digits, none, none⟩, []) := by
  have allDigits : ∀ digit ∈ digits, digit.isDigit = true := by
    have wellFormed := isWhole.1
    rw [areDigits, Bool.and_eq_true, List.all_eq_true] at wellFormed
    exact wellFormed.2
  have noSign : ∀ rest, digits ≠ '-' :: rest := by
    rintro rest rfl
    exact absurd (allDigits '-' List.mem_cons_self) (by decide)
  rw [split_unsigned noSign, List.dropWhile_eq_nil_iff.2 allDigits,
    List.takeWhile_eq_self_iff.2 allDigits]
  rfl

end Json.Numeric

namespace Json

open Numeric

theorem readNumber?_eq_natural_iff (text : Text) (number : Nat) :
    readNumber? text = some (.natural number) ↔
      text = Numeral.decimal number ∧ number ≤ greatestNatural := by
  constructor
  · intro read
    unfold readNumber? at read
    split at read
    · next parts whole =>
        split at read
        · next accepted =>
            split at read
            · next natural =>
                rw [Bool.and_eq_true, decide_eq_true_eq] at natural
                obtain rfl := split_of_isNatural whole natural.1
                obtain rfl := Json.natural.inj (Option.some.inj read)
                rw [Bool.and_eq_true] at accepted
                exact ⟨(isWhole_iff text).1 ((isWellFormed_whole text).1 accepted.1), natural.2⟩
            · cases read
        · cases read
    · cases read
  · intro decimal
    obtain ⟨rfl, fits⟩ := decimal
    have worth : value (Numeral.decimal number) = number := Nat.ofDigitChars_ten_toDigits
    have isWhole : IsWhole (Numeral.decimal number) := (isWhole_iff _).2 (by rw [worth])
    have range : isInRange ⟨false, Numeral.decimal number, none, none⟩ = true :=
      isInRange_of_isNatural (worth.symm ▸ fits)
    rw [readNumber?, split_whole isWhole]
    simp [(isWellFormed_whole _).2 isWhole, range, isNatural, worth, fits]

/-- A word is a natural if and only if it is its decimal text. -/
theorem word?_eq_natural_iff (text : Text) (number : Nat) :
    Token.word? text = some (.natural number) ↔
      text = Numeral.decimal number ∧ number ≤ greatestNatural := by
  rw [← readNumber?_eq_natural_iff, Token.word?]
  split_ifs with isNull isTrue isFalse
  · have refused : readNumber? text = none := by
      rw [isNull]
      rfl
    simp [refused]
  · have refused : readNumber? text = none := by
      rw [isTrue]
      rfl
    simp [refused]
  · have refused : readNumber? text = none := by
      rw [isFalse]
      rfl
    simp [refused]
  · rfl

end Json

end Applesoft
