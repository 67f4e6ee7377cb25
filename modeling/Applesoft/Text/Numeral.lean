import Applesoft.Text

namespace Applesoft.Numeral

def decimal (number : Nat) : Text :=
  Nat.toDigits 10 number

/-- A number in decimal, with a comma before each full group of three digits. -/
def withCommas (number : Nat) : Text :=
  if number < 1000 then
    decimal number
  else
    withCommas (number / 1000) ++
      ',' :: Text.padLeft 3 '0' (decimal (number % 1000))
termination_by number

/-- A number in hexadecimal with upper-case digits, filled with zeros up to a width. -/
def hex (width : Nat) (number : Nat) : Text :=
  Text.padLeft width '0' ((Nat.toDigits 16 number).map Char.toUpper)

/-- A number in hexadecimal with lower-case digits, filled with zeros up to a width. -/
def hexLower (width : Nat) (number : Nat) : Text :=
  Text.padLeft width '0' (Nat.toDigits 16 number)

/-- The digits of an unsigned decimal, after one optional plus sign. -/
def unsigned : Text → Text
  | '+' :: digits => digits
  | digits => digits

/-- Reads an unsigned decimal that is not greater than a bound: one optional plus sign and at
least one digit, and nothing else. Leading zeros are allowed. -/
def read? (bound : Nat) (text : Text) : Option Nat :=
  let digits := unsigned text
  if digits.isEmpty || !digits.all Char.isDigit then
    none
  else
    let number := Nat.ofDigitChars 10 digits 0
    if number ≤ bound then some number else none

theorem unsigned_decimal (number : Nat) :
    unsigned (decimal number) = decimal number := by
  have allDigits : ∀ character ∈ decimal number, character.isDigit = true :=
    fun _ member => Nat.isDigit_of_mem_toDigits (by decide) (by decide) member
  unfold unsigned
  split
  · next digits equality =>
      rw [equality] at allDigits
      exact absurd (allDigits '+' (by simp)) (by decide)
  · rfl

theorem read?_decimal
    {bound number : Nat}
    (within : number ≤ bound) :
    read? bound (decimal number) = some number := by
  have nonempty : (decimal number).isEmpty = false := by
    simp [decimal]
  have allDigits : (decimal number).all Char.isDigit = true :=
    List.all_eq_true.2 fun _ member =>
      Nat.isDigit_of_mem_toDigits (by decide) (by decide) member
  have value : Nat.ofDigitChars 10 (decimal number) 0 = number :=
    Nat.ofDigitChars_ten_toDigits
  simp only [read?, unsigned_decimal, nonempty, allDigits, value, within]
  simp

end Applesoft.Numeral
