import Mathlib.Algebra.Group.Nat.Defs
import Mathlib.Data.List.Basic
import Applesoft.Text.Numeral

namespace Applesoft.Numeral

/-- The value of a hexadecimal digit; letters are upper case. -/
def hexDigit? (character : Char) : Option Nat :=
  if '0' ≤ character ∧ character ≤ '9' then
    some (character.toNat - '0'.toNat)
  else if 'A' ≤ character ∧ character ≤ 'F' then
    some (character.toNat - 'A'.toNat + 10)
  else
    none

def isHexDigit (character : Char) : Bool :=
  (hexDigit? character).isSome

/-- The number that a text goes on to, given the number that stands before it. -/
def readHexFrom? (value : Nat) : Text → Option Nat
  | [] => some value
  | character :: rest =>
      match hexDigit? character with
      | some digit => readHexFrom? (16 * value + digit) rest
      | none => none

/-- Reads a text that consists of hexadecimal digits. -/
def readHex? (text : Text) : Option Nat :=
  readHexFrom? 0 text

theorem toNat_of_isHexDigit
    {character : Char} (digit : isHexDigit character = true) :
    (48 ≤ character.toNat ∧ character.toNat ≤ 57) ∨
      (65 ≤ character.toNat ∧ character.toNat ≤ 70) := by
  unfold isHexDigit hexDigit? at digit
  split at digit
  · next decimal => exact Or.inl decimal
  · split at digit
    · next letter => exact Or.inr letter
    · cases digit

theorem hexDigit?_toUpper_digitChar
    {digit : Nat} (small : digit < 16) :
    hexDigit? digit.digitChar.toUpper = some digit := by
  have every : ∀ value : Fin 16, hexDigit? value.val.digitChar.toUpper = some value.val := by
    decide
  exact every ⟨digit, small⟩

theorem isHexDigit_of_mem_toDigits
    {number : Nat} {character : Char}
    (member : character ∈ (Nat.toDigits 16 number).map Char.toUpper) :
    isHexDigit character = true := by
  induction number using Nat.strongRecOn with
  | ind number hypothesis =>
      rw [Nat.toDigits_eq_if (by decide)] at member
      split at member
      · next small =>
          obtain rfl : character = number.digitChar.toUpper := by simpa using member
          simp [isHexDigit, hexDigit?_toUpper_digitChar small]
      · next large =>
          rw [List.map_append, List.mem_append] at member
          rcases member with higher | last
          · exact hypothesis (number / 16) (by omega) higher
          · have small : number % 16 < 16 := Nat.mod_lt _ (by decide)
            obtain rfl : character = (number % 16).digitChar.toUpper := by simpa using last
            simp [isHexDigit, hexDigit?_toUpper_digitChar small]

theorem isHexDigit_of_mem_hex
    {width number : Nat} {character : Char}
    (member : character ∈ hex width number) :
    isHexDigit character = true := by
  rw [hex, Text.padLeft, List.mem_append] at member
  rcases member with zero | digit
  · rw [List.eq_of_mem_replicate zero]
    decide
  · exact isHexDigit_of_mem_toDigits digit

theorem le_length_hex (width number : Nat) :
    width ≤ (hex width number).length := by
  rw [hex, Text.length_padLeft]
  exact Nat.le_max_left _ _

theorem length_hex
    {width number : Nat}
    (positive : 0 < width) (fits : number < 16 ^ width) :
    (hex width number).length = width := by
  have digits : (Nat.toDigits 16 number).length ≤ width :=
    (Nat.length_toDigits_le_iff (by decide) positive).2 fits
  rw [hex, Text.length_padLeft, List.length_map]
  exact Nat.max_eq_left digits

theorem readHexFrom?_append
    {value middle : Nat} {left : Text} (right : Text)
    (read : readHexFrom? value left = some middle) :
    readHexFrom? value (left ++ right) = readHexFrom? middle right := by
  induction left generalizing value with
  | nil =>
      obtain rfl : value = middle := Option.some.inj read
      rfl
  | cons character rest hypothesis =>
      rw [List.cons_append, readHexFrom?]
      rw [readHexFrom?] at read
      split
      · next digit found =>
          rw [found] at read
          exact hypothesis read
      · next missing =>
          rw [missing] at read
          cases read

theorem readHex?_toDigits (number : Nat) :
    readHex? ((Nat.toDigits 16 number).map Char.toUpper) = some number := by
  induction number using Nat.strongRecOn with
  | ind number hypothesis =>
      rw [Nat.toDigits_eq_if (by decide)]
      split
      · next small => simp [readHex?, readHexFrom?, hexDigit?_toUpper_digitChar small]
      · next large =>
          have higher := hypothesis (number / 16) (by omega)
          have small : number % 16 < 16 := Nat.mod_lt _ (by decide)
          rw [List.map_append, readHex?, readHexFrom?_append _ higher, List.map_cons,
            readHexFrom?, hexDigit?_toUpper_digitChar small]
          exact congrArg some (Nat.div_add_mod number 16)

theorem readHexFrom?_zeros (count : Nat) :
    readHexFrom? 0 (List.replicate count '0') = some 0 := by
  induction count with
  | zero => rfl
  | succ count hypothesis => exact hypothesis

theorem readHex?_hex (width number : Nat) :
    readHex? (hex width number) = some number := by
  rw [hex, Text.padLeft, readHex?, readHexFrom?_append _ (readHexFrom?_zeros _)]
  exact readHex?_toDigits number

theorem length_flatMap_hex_two (bytes : Bytes) :
    (bytes.flatMap fun byte => hex 2 byte.toNat).length = 2 * bytes.length := by
  have each : ∀ byte ∈ bytes, (hex 2 byte.toNat).length = 2 :=
    fun byte _ => length_hex (by decide) byte.toNat_lt
  rw [List.length_flatMap, List.map_congr_left each]
  simp [Nat.mul_comm]

/-- A byte has two digits. -/
theorem exists_hex_two (byte : UInt8) :
    ∃ high low upper lower, hex 2 byte.toNat = [high, low] ∧ hexDigit? high = some upper ∧
      hexDigit? low = some lower ∧ UInt8.ofNat (16 * upper + lower) = byte := by
  have length : (hex 2 byte.toNat).length = 2 := length_hex (by decide) byte.toNat_lt
  have read := readHex?_hex 2 byte.toNat
  obtain ⟨high, low, digits⟩ := List.length_eq_two.1 length
  rw [digits, readHex?, readHexFrom?] at read
  split at read
  · next upper isUpper =>
      rw [readHexFrom?] at read
      split at read
      · next lower isLower =>
          have value : 16 * upper + lower = byte.toNat := by simpa [readHexFrom?] using read
          exact ⟨high, low, upper, lower, digits, isUpper, isLower, by simp [value]⟩
      · cases read
  · cases read

end Applesoft.Numeral
