import Applesoft.Proofs.Checked.Programs
import Applesoft.Proofs.DumpBytes

namespace Applesoft.Checked

/-- The digits from an index on, with a comma before each full group of three behind the first
digit. -/
def commasFrom? (total : Nat) : Nat → Text → Option Text
  | _, [] => some []
  | index, digit :: rest => do
      let left ← difference? total index
      let later ← commasFrom? total (index + 1) rest
      some ((if 0 < index ∧ left % 3 = 0 then [','] else []) ++ digit :: later)

def withCommas? (number : Nat) : Option Text :=
  commasFrom? (Numeral.decimal number).length 0 (Numeral.decimal number)

section Thousands

theorem commasFrom?_group {index : Nat} (behind : 0 < index) (first second third : Char) :
    commasFrom? (index + 3) index [first, second, third] = some [',', first, second, third] := by
  simp [commasFrom?, difference?_eq (show index ≤ index + 3 by omega),
    difference?_eq (show index + 1 ≤ index + 3 by omega),
    difference?_eq (show index + 1 + 1 ≤ index + 3 by omega), behind,
    show index + 3 - (index + 1) = 2 by omega, show index + 3 - (index + 1 + 1) = 1 by omega]

/-- Three digits are not separated. -/
theorem commasFrom?_of_le
    {text : Text} {index total : Nat} (length : index + text.length = total) (few : total ≤ 3) :
    commasFrom? total index text = some text := by
  induction text generalizing index with
  | nil => rfl
  | cons digit rest hypothesis =>
      rw [List.length_cons] at length
      rw [commasFrom?, difference?_eq (by omega), hypothesis (by omega)]
      simp only [Option.bind_eq_bind, Option.bind_some]
      rw [if_neg (by omega)]
      rfl

theorem commasFrom?_append
    {front group grouped shown : Text} {index total : Nat} (length : index + front.length = total)
    (commas : commasFrom? total index front = some shown)
    (last : commasFrom? (total + 3) total group = some grouped) :
    commasFrom? (total + 3) index (front ++ group) = some (shown ++ grouped) := by
  induction front generalizing index shown with
  | nil =>
      obtain rfl : [] = shown := Option.some.inj commas
      obtain rfl : index = total := length
      exact last
  | cons digit rest hypothesis =>
      rw [List.length_cons] at length
      rw [commasFrom?, difference?_eq (by omega)] at commas
      obtain ⟨later, found, rfl⟩ : ∃ later, commasFrom? total (index + 1) rest = some later ∧
          (if 0 < index ∧ (total - index) % 3 = 0 then [','] else []) ++ digit :: later =
            shown := by
        simpa [Option.bind_eq_some_iff] using commas
      have same : (total + 3 - index) % 3 = (total - index) % 3 := by omega
      rw [List.cons_append, commasFrom?, difference?_eq (by omega), hypothesis (by omega) found]
      simp only [Option.bind_eq_bind, Option.bind_some, same, List.append_assoc, List.cons_append]

theorem padLeft_three_decimal {number : Nat} (small : number < 1000) :
    Text.padLeft 3 '0' (Numeral.decimal number) =
      [(number / 100).digitChar, (number / 10 % 10).digitChar, (number % 10).digitChar] := by
  have hundreds : number / 10 / 10 = number / 100 := Nat.div_div_eq_div_mul _ _ _
  rw [Numeral.decimal, Nat.toDigits_eq_if (by decide)]
  by_cases one : number < 10
  · rw [if_pos one, Nat.mod_eq_of_lt one, Nat.div_eq_of_lt one,
      Nat.div_eq_of_lt (one.trans (by decide))]
    rfl
  · rw [if_neg one, Nat.toDigits_eq_if (by decide)]
    by_cases two : number / 10 < 10
    · rw [if_pos two, Nat.mod_eq_of_lt two, ← hundreds, Nat.div_eq_of_lt two]
      rfl
    · rw [if_neg two, Nat.toDigits_of_lt_base (by omega), hundreds]
      rfl

/-- The last three digits of a number stand behind those of its thousands. -/
theorem decimal_of_le {number : Nat} (large : 1000 ≤ number) :
    Numeral.decimal number = Numeral.decimal (number / 1000) ++
      Text.padLeft 3 '0' (Numeral.decimal (number % 1000)) := by
  have hundreds : number / 10 / 10 % 10 = number % 1000 / 100 := by omega
  have tens : number / 10 % 10 = number % 1000 / 10 % 10 := by omega
  have ones : number % 10 = number % 1000 % 10 := by omega
  have thousands : number / 10 / 10 / 10 = number / 1000 := by omega
  rw [padLeft_three_decimal (Nat.mod_lt _ (by decide)), Numeral.decimal, Numeral.decimal,
    Nat.toDigits_eq_if (by decide), if_neg (by omega), Nat.toDigits_eq_if (by decide),
    if_neg (by omega), Nat.toDigits_eq_if (by decide), if_neg (by omega), hundreds, tens, ones,
    thousands, List.append_assoc, List.append_assoc]
  rfl

theorem withCommas?_eq (number : Nat) :
    withCommas? number = some (Numeral.withCommas number) := by
  induction number using Numeral.withCommas.induct with
  | case1 number small =>
      have few : (Numeral.decimal number).length ≤ 3 :=
        Nat.toDigits_length 10 number 3 (by decide) small
      rw [withCommas?, commasFrom?_of_le (Nat.zero_add _) few, Numeral.withCommas, if_pos small]
  | case2 number large hypothesis =>
      have digits := decimal_of_le (Nat.le_of_not_lt large)
      have positive : 0 < (Numeral.decimal (number / 1000)).length :=
        List.length_pos_iff.2 Nat.toDigits_ne_nil
      have three : (Text.padLeft 3 '0' (Numeral.decimal (number % 1000))).length = 3 := by
        rw [Text.length_padLeft, Nat.max_eq_left]
        exact Nat.toDigits_length 10 _ 3 (by decide) (Nat.mod_lt _ (by decide))
      obtain ⟨first, second, third, shape⟩ := List.length_eq_three.1 three
      have length : (Numeral.decimal number).length =
          (Numeral.decimal (number / 1000)).length + 3 := by
        rw [digits, shape, List.length_append]
        rfl
      rw [withCommas?, length, digits, shape, Numeral.withCommas, if_neg large, shape]
      exact commasFrom?_append (Nat.zero_add _) hypothesis (commasFrom?_group positive _ _ _)

end Thousands

/-- A byte read as ASCII with the high bit set. -/
def negative? (byte : UInt8) : Option Char :=
  if 160 ≤ byte ∧ byte < 255 then (difference? byte.toNat 128).map Char.ofNat else some '.'

/-- The row of the bytes between two places. -/
def row? (image : Bytes) (label start stop : Nat) : Option Text := do
  let bytes ← slice? image start stop
  let limit ← sum? wordLimit start HexDump.rowSize
  let shown ← bytes.mapM negative?
  some (Numeral.hex 4 label ++ " : ".toList ++
    bytes.flatMap HexDump.cell ++ Text.spaces (3 * (limit - stop)) ++
    "|+| ".toList ++ bytes.map HexDump.positive ++ [' '] ++ Text.spaces (limit - stop) ++
    "|-| ".toList ++ shown)

/-- The rows from a place up to a stop, which take at most some rounds. The address is that of the
offset. -/
def rowsFrom? (image : Bytes) (offset stop address : Nat) : Nat → Nat → Option (List Text)
  | 0, _ => none
  | rounds + 1, start =>
      if start < stop then do
        let reached ← sum? wordLimit address start
        let label ← difference? reached offset
        let limit ← sum? wordLimit start HexDump.rowSize
        let row ← row? image label start (min limit stop)
        let rows ← rowsFrom? image offset stop address rounds (min limit stop)
        some (row :: rows)
      else
        some []

/-- The rows of a part of an image. A length that does not fit the words of the machine reaches to
the last of them. -/
def rows? (image : Bytes) (offset length address : Nat) : Option (List Text) :=
  rowsFrom? image offset (min (min (offset + length) (wordLimit - 1)) image.length) address
    (image.length + 1) offset

def hexDump? (image : Bytes) (offset length address : Nat) : Option Text :=
  (rows? image offset length address).map (Text.join ['\n'])

section Rows

variable {image : Bytes} {offset start stop address rounds : Nat}

theorem negative?_eq (byte : UInt8) : negative? byte = some (HexDump.negative byte) := by
  unfold negative? HexDump.negative
  by_cases shown : 160 ≤ byte ∧ byte < 255
  · have above : 160 ≤ byte.toNat := UInt8.le_iff_toNat_le.1 shown.1
    have low : (128 : UInt8) ≤ byte := UInt8.le_iff_toNat_le.2 (Nat.le_trans (by decide) above)
    rw [if_pos shown, if_pos shown, difference?_eq (by omega), Option.map_some, toCharacter,
      UInt8.toNat_sub_of_le _ _ low]
    rfl
  · rw [if_neg shown, if_neg shown]

theorem row?_eq
    (forward : start < stop) (inside : stop ≤ image.length) (few : stop ≤ start + HexDump.rowSize)
    (small : image.length + HexDump.rowSize < wordLimit) (label : Nat) :
    row? image label start stop = some (HexDump.row label (image.extract start stop)) := by
  have length : (image.extract start stop).length = stop - start := by
    rw [List.extract_eq_take_drop, List.length_take, List.length_drop]
    omega
  have blanks : start + HexDump.rowSize - stop = HexDump.rowSize - (stop - start) := by omega
  rw [row?, slice?_eq forward.le inside, sum?_eq (by omega)]
  simp only [Option.bind_eq_bind, Option.bind_some]
  rw [mapM_eq_some_map fun byte _ => negative?_eq byte, HexDump.row, length, blanks]
  rfl

theorem rows_nil (address : Nat) : HexDump.rows address [] = [] := by
  rw [HexDump.rows]
  rfl

/-- The rows between two places are those of the bytes there. The induction is on the rounds that
are left. -/
theorem rowsFrom?_eq
    (before : offset ≤ start) (forward : start ≤ stop) (inside : stop ≤ image.length)
    (enough : stop < start + rounds)
    (small : image.length + HexDump.rowSize < wordLimit) (reach : address + stop < wordLimit) :
    rowsFrom? image offset stop address rounds start =
      some (HexDump.rows (address + start - offset) (image.extract start stop)) := by
  induction rounds generalizing start with
  | zero => omega
  | succ rounds hypothesis =>
      have length : (image.extract start stop).length = stop - start := by
        rw [List.extract_eq_take_drop, List.length_take, List.length_drop]
        omega
      rw [rowsFrom?]
      simp only [Option.bind_eq_bind]
      by_cases more : start < stop
      · have positive : 0 < HexDump.rowSize := by decide
        have present : ¬ (image.extract start stop).isEmpty = true := by
          rw [List.isEmpty_iff_length_eq_zero, length]
          omega
        have row := @row?_eq image start (min (start + HexDump.rowSize) stop) (by omega) (by omega)
          (by omega) (by omega) (address + start - offset)
        have rows := @hypothesis (min (start + HexDump.rowSize) stop) (by omega) (by omega)
          (by omega)
        have first : (image.extract start stop).take HexDump.rowSize =
            image.extract start (min (start + HexDump.rowSize) stop) := by
          rw [List.extract_eq_take_drop, List.extract_eq_take_drop, List.take_take]
          congr 1
          omega
        have others : HexDump.rows (address + min (start + HexDump.rowSize) stop - offset)
              (image.extract (min (start + HexDump.rowSize) stop) stop) =
            HexDump.rows (address + start - offset + HexDump.rowSize)
              ((image.extract start stop).drop HexDump.rowSize) := by
          by_cases full : start + HexDump.rowSize ≤ stop
          · rw [Nat.min_eq_left full, List.extract_eq_take_drop, List.extract_eq_take_drop,
              List.drop_take, List.drop_drop]
            congr 1
            omega
          · have last : image.extract stop stop = [] := by
              rw [List.extract_eq_take_drop, Nat.sub_self, List.take_zero]
            rw [Nat.min_eq_right (by omega), last, List.drop_eq_nil_of_le (by omega), rows_nil,
              rows_nil]
        have shown : HexDump.rows (address + start - offset) (image.extract start stop) =
            HexDump.row (address + start - offset)
                (image.extract start (min (start + HexDump.rowSize) stop)) ::
              HexDump.rows (address + start - offset + HexDump.rowSize)
                ((image.extract start stop).drop HexDump.rowSize) := by
          rw [HexDump.rows, if_neg present, first]
        rw [if_pos more, sum?_eq (by omega), Option.bind_some, difference?_eq (by omega),
          Option.bind_some, sum?_eq (by omega), Option.bind_some, row, Option.bind_some, rows,
          Option.bind_some, others, shown]
      · have empty : (image.extract start stop).isEmpty = true := by
          rw [List.isEmpty_iff_length_eq_zero, length]
          omega
        rw [if_neg more, HexDump.rows, if_pos empty]

theorem rows?_eq
    {length : Nat} (small : image.length + HexDump.rowSize < wordLimit)
    (reach : address + min (offset + length) image.length < wordLimit) :
    rows? image offset length address =
      some (HexDump.rows address (HexDump.extract image offset length)) := by
  have clipped : min (min (offset + length) (wordLimit - 1)) image.length =
      min (offset + length) image.length := by omega
  rw [rows?, clipped, ← HexDump.extract_eq]
  by_cases inside : offset ≤ image.length
  · rw [rowsFrom?_eq le_rfl (by omega) (by omega) (by omega) small reach, Nat.add_sub_cancel]
  · have nothing : image.extract offset (min (offset + length) image.length) = [] := by
      rw [HexDump.extract_eq, HexDump.extract, List.drop_eq_nil_of_le (by omega), List.take_nil]
    rw [rowsFrom?, if_neg (by omega), nothing, rows_nil]

theorem hexDump?_eq
    {length : Nat} (small : image.length + HexDump.rowSize < wordLimit)
    (reach : address + min (offset + length) image.length < wordLimit) :
    hexDump? image offset length address = some (HexDump.dump image offset length address) := by
  rw [hexDump?, rows?_eq small reach]
  rfl

end Rows

def headerNumber? (number : Nat) : Option Text :=
  (withCommas? number).map fun decimal =>
    '$' :: Numeral.hex 4 number ++ " (".toList ++ decimal ++ [')']

def headerRows? (program : Program) (name : Text) : Option (List Text) := do
  let address ← address? program.image
  let length ← headerNumber? program.image.length
  let place ← headerNumber? address
  some ["Name    : ".toList ++ name,
    "Length  : ".toList ++ length,
    "Load at : ".toList ++ place,
    []]

/-- The header, if the options ask for one. -/
def shownHeader? (program : Program) (options : Options) (name : Text) : Option (List Text) :=
  if options.showHeader then headerRows? program name else some []

/-- The text of a block of some length from an offset on. -/
def block? (image : Bytes) (loadAddress start length : Nat) : Option Text := do
  let address ← sum? wordLimit loadAddress start
  hexDump? image start length address

/-- The block of a line. -/
def lineBlock? (image : Bytes) (loadAddress : Nat) (line : Line) : Option Text := do
  let length ← difference? line.record.stop line.record.start
  block? image loadAddress line.record.start length

/-- The blocks behind the lines: the final link, and what follows it. -/
def tailBlocks? (image : Bytes) (loadAddress stop : Nat) : Option (List Text) := do
  let left ← difference? image.length stop
  let marker := min 2 left
  let behind ← sum? wordLimit stop marker
  let link ← if 0 < marker then (block? image loadAddress stop marker).map ([·]) else some []
  let rest ←
    if behind < image.length then do
      let length ← difference? left marker
      (block? image loadAddress behind length).map ([·])
    else
      some []
  some (link ++ rest)

def dump? (program : Program) (options : Options) (name : Text) : Option Text :=
  if program.image.length < 2 then
    hexDump? program.image 0 program.image.length 0
  else do
    let loadAddress ← address? program.image
    let header ← shownHeader? program options name
    let lines ← program.lines.mapM (lineBlock? program.image loadAddress)
    let tail ← tailBlocks? program.image loadAddress program.stop
    some ((header.flatMap fun row => row ++ ['\n']) ++ Text.join "\n\n".toList (lines ++ tail))

section Blocks

variable {image : Bytes}

theorem headerNumber?_eq (number : Nat) :
    headerNumber? number = some (Listing.headerNumber number) := by
  rw [headerNumber?, withCommas?_eq]
  rfl

theorem headerRows?_eq
    (short : ((image.drop 4).takeWhile isPayloadByte).length ≤ 65530)
    (small : image.length < wordLimit) (name : Text) :
    headerRows? (Program.decode image) name =
      some (Listing.headerRows (Program.decode image) name) := by
  have address : address? (Program.decode image).image = _ := address?_eq short small
  rw [headerRows?, address, headerNumber?_eq]
  simp only [Option.bind_eq_bind, Option.bind_some, headerNumber?_eq]
  rfl

theorem shownHeader?_eq
    (short : ((image.drop 4).takeWhile isPayloadByte).length ≤ 65530)
    (small : image.length < wordLimit) (options : Options) (name : Text) :
    shownHeader? (Program.decode image) options name =
      some (if options.showHeader then Listing.headerRows (Program.decode image) name else []) := by
  rw [shownHeader?, headerRows?_eq short small]
  exact (apply_ite some _ _ _).symm

/-- The addresses of a machine are words of two bytes. -/
theorem loadAddress_lt (program : Program) : program.loadAddress < 2 ^ 16 := by
  rw [Program.loadAddress]
  cases loadAddress? program.image with
  | none => decide
  | some address => exact address.toNat_lt

theorem block?_eq
    {loadAddress start : Nat} (inside : start ≤ image.length)
    (small : loadAddress + 2 * image.length + HexDump.rowSize < wordLimit) (length : Nat) :
    block? image loadAddress start length =
      some (Dump.blockText image loadAddress ⟨start, length⟩) := by
  rw [block?, sum?_eq (by omega)]
  exact hexDump?_eq (by omega) (by omega)

theorem tailBlocks?_eq
    {loadAddress stop : Nat} (inside : stop ≤ image.length)
    (small : loadAddress + 2 * image.length + HexDump.rowSize < wordLimit) :
    tailBlocks? image loadAddress stop =
      some ((Dump.tailBlocks stop image.length).map (Dump.blockText image loadAddress)) := by
  have remaining : image.length - stop - min 2 (image.length - stop) =
      image.length - (stop + min 2 (image.length - stop)) := Nat.sub_sub _ _ _
  have link := @block?_eq image loadAddress stop inside small (min 2 (image.length - stop))
  have rest := @block?_eq image loadAddress (stop + min 2 (image.length - stop)) (by omega) small
    (image.length - (stop + min 2 (image.length - stop)))
  rw [tailBlocks?, difference?_eq inside, Option.bind_eq_bind, Option.bind_some]
  dsimp only
  rw [sum?_eq (by omega), link, difference?_eq (Nat.min_le_right _ _), remaining, Dump.tailBlocks]
  simp only [Option.bind_eq_bind, Option.bind_some, rest]
  by_cases linked : 0 < min 2 (image.length - stop)
  · by_cases more : stop + min 2 (image.length - stop) < image.length
    · simp [linked, more]
    · simp [linked, more]
  · by_cases more : stop + min 2 (image.length - stop) < image.length
    · simp [linked, more]
    · simp [linked, more]

theorem lineBlock?_eq
    {loadAddress : Nat} {line : Line} (inside : line.record.start ≤ image.length)
    (small : loadAddress + 2 * image.length + HexDump.rowSize < wordLimit) :
    lineBlock? image loadAddress line = some (Dump.blockText image loadAddress
      ⟨line.record.start, line.record.stop - line.record.start⟩) := by
  have forward := Dump.start_add_length line.record
  rw [lineBlock?, difference?_eq (by omega)]
  exact block?_eq inside small _

/-- Nothing is refused while a program is dumped. -/
theorem dump?_eq
    (short : ((image.drop 4).takeWhile isPayloadByte).length ≤ 65530)
    (small : 2 ^ 16 + 2 * image.length + HexDump.rowSize < wordLimit)
    (options : Options) (name : Text) :
    dump? (Program.decode image) options name =
      some ((Program.decode image).dump options name) := by
  have partition := Program.isPartition_decode image
  have address := loadAddress_lt (Program.decode image)
  have smallBlocks :
      (Program.decode image).loadAddress + 2 * image.length + HexDump.rowSize < wordLimit := by
    omega
  have found : address? image = some (Program.decode image).loadAddress :=
    address?_eq short (by omega)
  have header := shownHeader?_eq short (by omega) options name
  have lines : (Program.decode image).lines.mapM
      (lineBlock? image (Program.decode image).loadAddress) = some _ :=
    mapM_eq_some_map fun line member =>
      lineBlock?_eq (Nat.le_of_add_right_le (partition.room line member)) smallBlocks
  have inside : (Program.decode image).stop ≤ image.length := partition.stop_le
  have tail := tailBlocks?_eq inside smallBlocks
  have decoded : (Program.decode image).image = image := rfl
  simp only [dump?, Program.dump, decoded, found, header, lines, tail, Option.bind_eq_bind,
    Option.bind_some]
  by_cases tiny : image.length < 2
  · rw [if_pos tiny, if_pos tiny]
    exact hexDump?_eq (by omega) (by omega)
  · rw [if_neg tiny, if_neg tiny, Dump.blocks_eq, List.map_append, List.map_map, decoded]
    cases options.showHeader with
    | true => rfl
    | false => rfl

end Blocks

end Applesoft.Checked
