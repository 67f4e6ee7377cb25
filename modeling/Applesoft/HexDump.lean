import Applesoft.Text.Numeral
import Applesoft.Keyword

namespace Applesoft.HexDump

def rowSize : Nat :=
  16

/-- A byte read as ASCII; anything but a visible character or a space is a dot. -/
def positive (byte : UInt8) : Char :=
  if 32 ≤ byte ∧ byte < 127 then toCharacter byte else '.'

/-- A byte read as ASCII with the high bit set; anything else is a dot. -/
def negative (byte : UInt8) : Char :=
  if 160 ≤ byte ∧ byte < 255 then toCharacter (byte - 128) else '.'

/-- A byte in hexadecimal with the space behind it. -/
def cell (byte : UInt8) : Text :=
  Numeral.hex 2 byte.toNat ++ [' ']

/-- A row with at most sixteen bytes. The columns of a shorter row are filled with spaces, the last
one excepted. -/
def row (address : Nat) (bytes : Bytes) : Text :=
  Numeral.hex 4 address ++ " : ".toList ++
    bytes.flatMap cell ++ Text.spaces (3 * (rowSize - bytes.length)) ++
    "|+| ".toList ++ bytes.map positive ++ [' '] ++
    Text.spaces (rowSize - bytes.length) ++
    "|-| ".toList ++ bytes.map negative

def rows (address : Nat) (bytes : Bytes) : List Text :=
  if bytes.isEmpty then
    []
  else
    row address (bytes.take rowSize) ::
      rows (address + rowSize) (bytes.drop rowSize)
termination_by bytes.length
decreasing_by
  have nonempty : bytes ≠ [] := by simpa using ‹¬bytes.isEmpty = true›
  have positiveLength := List.length_pos_iff.2 nonempty
  simp only [List.length_drop, rowSize]
  omega

/-- The bytes of an image between an offset and an offset plus a length, clipped at its end. -/
def extract (image : Bytes) (offset length : Nat) : Bytes :=
  (image.drop offset).take length

theorem extract_eq (image : Bytes) (offset length : Nat) :
    image.extract offset (min (offset + length) image.length) = extract image offset length := by
  rw [List.extract_eq_take_drop, extract]
  by_cases within : offset + length ≤ image.length
  · rw [Nat.min_eq_left within, Nat.add_sub_cancel_left]
  · have rest : (image.drop offset).length = image.length - offset := List.length_drop
    rw [List.take_of_length_le (by omega), List.take_of_length_le (by omega)]

/-- The dump of a part of an image, at an address; there is no line feed at its end. -/
def dump (image : Bytes) (offset length address : Nat) : Text :=
  Text.join ['\n'] (rows address (extract image offset length))

end Applesoft.HexDump
