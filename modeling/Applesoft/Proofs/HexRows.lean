import Applesoft.Proofs.Checked.Dumps

namespace Applesoft.HexDump

/-- Whether a line is the row of some bytes at an address. The places of its columns are counted
from the end of its label, so they are the same in all rows with labels of four digits: the signs of
the two columns of characters then begin at 55 and at 76. -/
structure IsRowOf (address : Nat) (bytes : Bytes) (line : Text) : Prop where
  label : HexDump.label line = Numeral.hex 4 address
  digits : 4 ≤ (HexDump.label line).length
  entry : readRow? line = some (address, bytes)
  cells : (line.drop ((HexDump.label line).length + 3)).take 48 =
    Text.padRight 48 (bytes.flatMap cell)
  positive : "|+| ".toList <+: line.drop ((HexDump.label line).length + 51)
  negative : "|-| ".toList <+: line.drop ((HexDump.label line).length + 72)

/-- Whether lines are the rows of some bytes from an address on: sixteen bytes in each of them, the
last one excepted. -/
structure AreRowsOf (address : Nat) (bytes : Bytes) (lines : List Text) : Prop where
  count : lines.length = (bytes.length + 15) / 16
  row : ∀ index line, lines[index]? = some line →
    IsRowOf (address + 16 * index) ((bytes.drop (16 * index)).take 16) line
  full : ∀ index, index + 1 < lines.length → ((bytes.drop (16 * index)).take 16).length = 16
  spelled : readBlock? lines = some bytes

/-- Whether a text is empty, or has rows without a line feed behind the last one. -/
structure IsDumpOf (address : Nat) (bytes : Bytes) (text : Text) : Prop where
  empty : text = [] ↔ bytes = []
  rows : bytes ≠ [] → AreRowsOf address bytes (Text.fields '\n' text)

section Row

variable {address : Nat} {bytes : Bytes}

theorem length_cell (byte : UInt8) : (cell byte).length = 3 := by
  rw [cell, List.length_append, Numeral.length_hex (by decide) byte.toNat_lt]
  rfl

theorem length_flatMap_cell (bytes : Bytes) : (bytes.flatMap cell).length = 3 * bytes.length := by
  simp [List.length_flatMap, length_cell, Nat.mul_comm]

/-- The columns of a row, each as wide as sixteen bytes need. -/
theorem row_eq_columns (few : bytes.length ≤ rowSize) :
    row address bytes =
      (Numeral.hex 4 address ++ " : ".toList) ++ (Text.padRight 48 (bytes.flatMap cell) ++
        ("|+| ".toList ++ (Text.padRight 17 (bytes.map positive) ++
          ("|-| ".toList ++ bytes.map negative)))) := by
  have size : rowSize = 16 := rfl
  have blanks : 48 - (bytes.flatMap cell).length = 3 * (rowSize - bytes.length) := by
    rw [length_flatMap_cell]
    omega
  have gap : 17 - (bytes.map positive).length = rowSize - bytes.length + 1 := by
    rw [List.length_map]
    omega
  rw [Text.padRight, Text.padRight, blanks, gap, Text.spaces, Text.spaces, List.replicate_succ]
  simp [row, Text.spaces]

theorem isRowOf_row (few : bytes.length ≤ rowSize) :
    IsRowOf address bytes (row address bytes) := by
  have front : (Numeral.hex 4 address ++ " : ".toList).length =
      (label (row address bytes)).length + 3 := by
    rw [label_row, List.length_append]
    rfl
  have cells : (Text.padRight 48 (bytes.flatMap cell)).length = 48 := by
    rw [Text.length_padRight, length_flatMap_cell]
    exact Nat.max_eq_left (Nat.mul_le_mul_left 3 few)
  have characters : (Text.padRight 17 (bytes.map positive)).length = 17 := by
    rw [Text.length_padRight, List.length_map]
    exact Nat.max_eq_left (Nat.le_succ_of_le few)
  have behindFront := congrArg (List.drop ((label (row address bytes)).length + 3))
    (@row_eq_columns address bytes few)
  rw [List.drop_left' front] at behindFront
  have behindCells := congrArg (List.drop 48) behindFront
  rw [List.drop_drop, List.drop_left' cells] at behindCells
  have behindCharacters := congrArg (List.drop 21) behindCells
  rw [List.drop_drop, ← List.append_assoc,
    List.drop_left' (by rw [List.length_append, characters]; rfl)] at behindCharacters
  exact
    { label := label_row address bytes
      digits := by rw [label_row]; exact Numeral.le_length_hex 4 address
      entry := readRow?_row address bytes
      cells := by rw [behindFront, List.take_left' cells]
      positive := behindCells ▸ List.prefix_append _ _
      negative := behindCharacters ▸ List.prefix_append _ _ }

end Row

theorem length_rows (address : Nat) (bytes : Bytes) :
    (rows address bytes).length = (bytes.length + 15) / 16 := by
  induction address, bytes using rows.induct with
  | case1 address bytes empty =>
      rw [rows, if_pos empty, List.isEmpty_iff.1 empty]
      rfl
  | case2 address bytes nonempty hypothesis =>
      have present : 0 < bytes.length := by
        rw [List.length_pos_iff]
        simpa using nonempty
      have size : rowSize = 16 := rfl
      rw [rows, if_neg nonempty, List.length_cons, hypothesis, List.length_drop]
      omega

/-- Row by row the bytes go on by sixteen, and so does the address. -/
theorem eq_row_of_getElem?_rows
    {address index : Nat} {bytes : Bytes} {line : Text}
    (found : (rows address bytes)[index]? = some line) :
    line = row (address + 16 * index) ((bytes.drop (16 * index)).take 16) := by
  induction address, bytes using rows.induct generalizing index with
  | case1 address bytes empty =>
      rw [rows, if_pos empty] at found
      cases found
  | case2 address bytes nonempty hypothesis =>
      rw [rows, if_neg nonempty] at found
      cases index with
      | zero => exact (Option.some.inj found).symm
      | succ index =>
          have later := hypothesis found
          have place : rowSize + 16 * index = 16 * (index + 1) := by
            rw [rowSize]
            omega
          rwa [List.drop_drop, Nat.add_assoc, place] at later

theorem areRowsOf_rows (address : Nat) (bytes : Bytes) :
    AreRowsOf address bytes (rows address bytes) where
  count := length_rows address bytes
  row index line found := by
    rw [eq_row_of_getElem?_rows found]
    exact isRowOf_row (List.length_take_le 16 _)
  full index more := by
    rw [length_rows] at more
    rw [List.length_take, List.length_drop]
    omega
  spelled := (shows_rows address bytes).readBlock?

theorem rows_ne_nil {address : Nat} {bytes : Bytes} (present : bytes ≠ []) :
    rows address bytes ≠ [] := by
  intro none
  have count := length_rows address bytes
  have some := List.length_pos_iff.2 present
  rw [none, List.length_nil] at count
  omega

theorem isDumpOf_join_rows (address : Nat) (bytes : Bytes) :
    IsDumpOf address bytes (Text.join ['\n'] (rows address bytes)) where
  empty := by
    constructor
    · intro nothing
      have shown := (shows_rows address bytes).filter_fields
      rw [nothing] at shown
      by_contra present
      exact rows_ne_nil present shown.symm
    · rintro rfl
      rw [Checked.rows_nil]
      rfl
  rows := fun present => by
    rw [fields_join (rows_ne_nil present) fun line member =>
      ((shows_rows address bytes).visible line member).2]
    exact areRowsOf_rows address bytes

/-- The dump of a part of an image has the rows of the part, which is empty if it begins behind the
end. If the last address fits the words of the machine, none of its numbers leaves them, though the
end of the part may lie behind the last of them. -/
theorem isDumpOf_dump (image : Bytes) (offset length address : Nat) :
    IsDumpOf address (image.extract offset (min (offset + length) image.length))
        (dump image offset length address) ∧
      (image.length < 2 ^ 63 →
        address + min (offset + length) image.length < Checked.wordLimit →
          Checked.hexDump? image offset length address =
            some (dump image offset length address)) := by
  have words : Checked.wordLimit = 2 ^ 64 := rfl
  have size : rowSize = 16 := rfl
  refine ⟨?_, fun small reach => Checked.hexDump?_eq (by omega) reach⟩
  rw [extract_eq, dump]
  exact isDumpOf_join_rows address _

/-- Seventeen bytes behind the first one of an image, as far as it goes. The second label has five
digits. -/
theorem isDumpOf_dump_of_five_digits :
    (List.replicate 18 0x41 : Bytes).length < 2 ^ 63 ∧
      0xFFF8 + min (1 + (2 ^ 64 - 1)) (List.replicate 18 0x41 : Bytes).length <
          Checked.wordLimit ∧
        IsDumpOf 0xFFF8 ((List.replicate 18 0x41).extract 1 18)
            (dump (List.replicate 18 0x41) 1 (2 ^ 64 - 1) 0xFFF8) ∧
          Checked.hexDump? (List.replicate 18 0x41) 1 (2 ^ 64 - 1) 0xFFF8 =
            some (dump (List.replicate 18 0x41) 1 (2 ^ 64 - 1) 0xFFF8) :=
  have shown := isDumpOf_dump (List.replicate 18 0x41) 1 (2 ^ 64 - 1) 0xFFF8
  ⟨by decide, by decide, shown.1, shown.2 (by decide) (by decide)⟩

end Applesoft.HexDump
