import Applesoft.Json.Value
import Applesoft.Text.Numeral

/-!
JSON numbers. The grammar is an optional minus sign, an integer without leading zeros, an optional
fraction and an optional exponent. A number beyond the range of a binary64 double is refused.

The range is judged on a significand of 64 bits: digits that do not fit are not read, and those of
the integer part count as powers of ten. Significand and power are each rounded to a double before
they are multiplied.
-/

namespace Applesoft.Json

structure Numeric where
  negative : Bool
  whole : Text
  fraction : Option Text
  exponent : Option (Bool × Text)
  deriving DecidableEq, Repr

namespace Numeric

def takeExponent : Text → Option (Bool × Text) × Text
  | marker :: rest =>
      if marker = 'e' || marker = 'E' then
        match rest with
        | '+' :: digits => (some (false, digits), [])
        | '-' :: digits => (some (true, digits), [])
        | digits => (some (false, digits), [])
      else
        (none, marker :: rest)
  | [] => (none, [])

def takeFraction : Text → Option Text × Text
  | '.' :: rest => (some (rest.takeWhile Char.isDigit), rest.dropWhile Char.isDigit)
  | text => (none, text)

/-- Divides a written number into its parts; what follows the grammar is left over. -/
def split (text : Text) : Numeric × Text :=
  let (negative, unsigned) :=
    match text with
    | '-' :: rest => (true, rest)
    | _ => (false, text)
  let (fraction, behind) := takeFraction (unsigned.dropWhile Char.isDigit)
  let (exponent, rest) := takeExponent behind
  (⟨negative, unsigned.takeWhile Char.isDigit, fraction, exponent⟩, rest)

def areDigits (text : Text) : Bool :=
  !text.isEmpty && text.all Char.isDigit

def isWellFormed (parts : Numeric) : Bool :=
  areDigits parts.whole && (parts.whole.length = 1 || parts.whole.head? != some '0') &&
    parts.fraction.all areDigits &&
    parts.exponent.all fun exponent => areDigits exponent.2

def value (digits : Text) : Nat :=
  Nat.ofDigitChars 10 digits 0

/-- Reads digits behind a significand for as long as it stays a natural of 64 bits: the significand,
and how many digits were read. -/
def accumulate : Nat → Text → Nat × Nat
  | significand, [] => (significand, 0)
  | significand, digit :: rest =>
      let next := significand * 10 + (digit.toNat - '0'.toNat)
      if next ≤ greatestNatural then
        let (total, count) := accumulate next rest
        (total, count + 1)
      else
        (significand, 0)

/-- The significand that is read, and the power of ten it is multiplied by. -/
def scientific (parts : Numeric) : Nat × Int :=
  let (whole, wholeRead) := accumulate 0 parts.whole
  let (significand, fractionRead) := accumulate whole (parts.fraction.getD [])
  let written : Int :=
    match parts.exponent with
    | none => 0
    | some (true, digits) => -(value digits : Int)
    | some (false, digits) => value digits
  (significand, (parts.whole.length - wholeRead : Int) - fractionRead + written)

/-- A natural rounded to 53 significant bits, a tie to the even neighbour. -/
def roundToDouble (number : Nat) : Nat :=
  let dropped := Nat.log2 number + 1 - 53
  let quotient := number >>> dropped
  let unit := 1 <<< dropped
  let twiceRest := 2 * (number % unit)
  let roundsUp := unit < twiceRest || (unit = twiceRest && quotient % 2 = 1)
  (if roundsUp then quotient + 1 else quotient) <<< dropped

/-- The least natural that rounds to a double beyond the finite ones: halfway from the greatest
finite double to the next power of two. -/
def leastOverflow : Nat :=
  (1 <<< 1024) - (1 <<< 970)

def isInRange (parts : Numeric) : Bool :=
  match scientific parts with
  | (0, _) => true
  | (significand, .ofNat power) =>
      power ≤ 308 && roundToDouble significand * roundToDouble (Nat.pow 10 power) < leastOverflow
  | (_, .negSucc _) => true

def isNatural (parts : Numeric) : Bool :=
  !parts.negative && parts.fraction.isNone && parts.exponent.isNone

end Numeric

def readNumber? (text : Text) : Option Json :=
  match Numeric.split text with
  | (parts, []) =>
      if parts.isWellFormed && parts.isInRange then
        if parts.isNatural && Numeric.value parts.whole ≤ greatestNatural then
          some (.natural (Numeric.value parts.whole))
        else
          some (.number text)
      else
        none
  | _ => none

end Applesoft.Json
