import Applesoft.Dump
import Applesoft.Proofs.Continuations
import Applesoft.Proofs.Hexadecimal
import Applesoft.Proofs.Partition

/-!
Reading a dump. A row gives an address, the digits at its front, and the bytes of its cells. The
rows of a dump, without the blank ones between its blocks, give the whole image in order.

The main statement says so for the dump of every image without a header, together with the addresses
of the rows and the bytes of the blocks.
-/

namespace Applesoft

namespace HexDump

/-- The bytes of the cells at the front of a text. -/
def readCells : Text → Bytes
  | high :: low :: ' ' :: rest =>
      match Numeral.hexDigit? high, Numeral.hexDigit? low with
      | some upper, some lower => UInt8.ofNat (16 * upper + lower) :: readCells rest
      | _, _ => []
  | _ => []

def label (row : Text) : Text :=
  row.takeWhile Numeral.isHexDigit

/-- The address and the bytes of a row. The address has four digits or more, and the cells begin
behind the colon. -/
def readRow? (row : Text) : Option (Nat × Bytes) :=
  if 4 ≤ (label row).length then
    (Numeral.readHex? (label row)).map fun address =>
      (address, readCells (row.drop ((label row).length + 3)))
  else
    none

/-- The bytes of the rows of a block. -/
def readBlock? (rows : List Text) : Option Bytes :=
  (rows.mapM readRow?).map fun entries => entries.flatMap Prod.snd

theorem readCells_cell_append (byte : UInt8) (rest : Text) :
    readCells (cell byte ++ rest) = byte :: readCells rest := by
  obtain ⟨high, low, upper, lower, digits, isUpper, isLower, value⟩ := Numeral.exists_hex_two byte
  simp [cell, digits, readCells, isUpper, isLower, value]

theorem readCells_flatMap_cell_append
    (bytes : Bytes) {rest : Text} (ended : readCells rest = []) :
    readCells (bytes.flatMap cell ++ rest) = bytes := by
  induction bytes with
  | nil => exact ended
  | cons byte others hypothesis =>
      rw [List.flatMap_cons, List.append_assoc, readCells_cell_append, hypothesis]

section Row

variable (address : Nat) (bytes : Bytes)

/-- What a row shows behind its cells. -/
def characters : Text :=
  Text.spaces (3 * (rowSize - bytes.length)) ++
    ("|+| ".toList ++ (bytes.map positive ++ (' ' :: (Text.spaces (rowSize - bytes.length) ++
      ("|-| ".toList ++ bytes.map negative)))))

theorem row_eq :
    row address bytes =
      Numeral.hex 4 address ++ (" : ".toList ++ (bytes.flatMap cell ++ characters bytes)) := by
  simp [row, characters]

theorem label_row : label (row address bytes) = Numeral.hex 4 address := by
  have space : Numeral.isHexDigit ' ' = false := by decide
  rw [row_eq]
  exact takeWhile_append_of_head? (fun _ member => Numeral.isHexDigit_of_mem_hex member)
    fun character first => by
      obtain rfl : ' ' = character := by simpa using first
      exact space

/-- The cells of a row are followed by a sign that is no digit. -/
theorem readCells_characters : readCells (characters bytes) = [] := by
  have noDigit : ∀ (sign second : Char) (rest : Text), Numeral.hexDigit? sign = none →
      readCells (sign :: second :: rest) = [] := by
    intro sign second rest missing
    cases rest with
    | nil => rfl
    | cons third others =>
        by_cases space : third = ' '
        · subst space
          simp [readCells, missing]
        · simp [readCells, space]
  rw [characters]
  rcases Nat.eq_zero_or_pos (rowSize - bytes.length) with full | short
  · rw [full]
    exact noDigit '|' '+' _ (by decide)
  · obtain ⟨count, more⟩ : ∃ count, 3 * (rowSize - bytes.length) = count + 2 :=
      ⟨3 * (rowSize - bytes.length) - 2, by omega⟩
    rw [more]
    exact noDigit ' ' ' ' _ (by decide)

theorem readRow?_row : readRow? (row address bytes) = some (address, bytes) := by
  have cells :
      (row address bytes).drop ((Numeral.hex 4 address).length + 3) =
        bytes.flatMap cell ++ characters bytes := by
    rw [row_eq, ← List.append_assoc]
    exact List.drop_left' (by simp)
  rw [readRow?, label_row, if_pos (Numeral.le_length_hex 4 address), Numeral.readHex?_hex,
    Option.map_some, cells, readCells_flatMap_cell_append bytes (readCells_characters bytes)]

theorem newline_notMem_hex (width number : Nat) : '\n' ∉ Numeral.hex width number := by
  intro member
  exact absurd (Numeral.isHexDigit_of_mem_hex member) (by decide)

theorem toCharacter_ne_newline {byte : UInt8} (different : byte ≠ 10) :
    toCharacter byte ≠ '\n' :=
  fun newline => different ((toCharacter_eq_iff byte rfl).1 newline)

theorem positive_ne_newline (byte : UInt8) : '\n' ≠ positive byte := by
  unfold positive
  split
  · next visible =>
      refine (toCharacter_ne_newline ?_).symm
      rintro rfl
      exact absurd visible.1 (by decide)
  · decide

theorem negative_ne_newline (byte : UInt8) : '\n' ≠ negative byte := by
  unfold negative
  split
  · next visible =>
      refine (toCharacter_ne_newline fun control => ?_).symm
      obtain rfl : byte = 138 := by rw [← UInt8.sub_add_cancel byte 128, control]; rfl
      exact absurd visible.1 (by decide)
  · decide

theorem newline_notMem_row : '\n' ∉ row address bytes := by
  have cells : '\n' ∉ bytes.flatMap cell := by
    rw [List.mem_flatMap]
    rintro ⟨byte, _, inCell⟩
    rcases List.mem_append.1 inCell with digit | space
    · exact newline_notMem_hex 2 byte.toNat digit
    · exact absurd (List.mem_singleton.1 space) (by decide)
  have asciis : '\n' ∉ bytes.map positive := by
    rw [List.mem_map]
    rintro ⟨byte, _, newline⟩
    exact positive_ne_newline byte newline.symm
  have negatives : '\n' ∉ bytes.map negative := by
    rw [List.mem_map]
    rintro ⟨byte, _, newline⟩
    exact negative_ne_newline byte newline.symm
  simp [row, newline_notMem_hex, cells, Text.newline_notMem_spaces, asciis, negatives]

end Row

/-- Whether each entry has the address of its first byte, when the first entry of all has a given
one. -/
def AreLabelled : Nat → List (Nat × Bytes) → Prop
  | _, [] => True
  | address, entry :: rest => entry.1 = address ∧ AreLabelled (address + entry.2.length) rest

/-- Whether rows show bytes that begin at an address. -/
def Shows (address : Nat) (rows : List Text) (bytes : Bytes) : Prop :=
  ∃ entries : List (Nat × Bytes),
    rows = entries.map (fun entry => row entry.1 entry.2) ∧
      entries.flatMap Prod.snd = bytes ∧ AreLabelled address entries

theorem AreLabelled.append
    {address : Nat} {left right : List (Nat × Bytes)}
    (first : AreLabelled address left)
    (second : AreLabelled (address + (left.flatMap Prod.snd).length) right) :
    AreLabelled address (left ++ right) := by
  induction left generalizing address with
  | nil => simpa using second
  | cons entry rest hypothesis =>
      refine ⟨first.1, hypothesis first.2 ?_⟩
      rw [List.flatMap_cons, List.length_append, ← Nat.add_assoc] at second
      exact second

theorem AreLabelled.address_eq
    {address : Nat} {before behind : List (Nat × Bytes)} {entry : Nat × Bytes}
    (labelled : AreLabelled address (before ++ entry :: behind)) :
    entry.1 = address + (before.flatMap Prod.snd).length := by
  induction before generalizing address with
  | nil => simpa using labelled.1
  | cons first rest hypothesis =>
      rw [hypothesis labelled.2, List.flatMap_cons, List.length_append, Nat.add_assoc]

theorem Shows.append
    {address : Nat} {upper lower : List Text} {left right : Bytes}
    (first : Shows address upper left) (second : Shows (address + left.length) lower right) :
    Shows address (upper ++ lower) (left ++ right) := by
  obtain ⟨entries, rfl, rfl, labelled⟩ := first
  obtain ⟨others, rfl, rfl, labelledOthers⟩ := second
  exact ⟨entries ++ others, by simp, by simp, labelled.append labelledOthers⟩

theorem shows_rows (address : Nat) (bytes : Bytes) :
    Shows address (rows address bytes) bytes := by
  induction address, bytes using rows.induct with
  | case1 address bytes empty =>
      rw [rows, if_pos empty]
      exact ⟨[], rfl, (List.isEmpty_iff.1 empty).symm, trivial⟩
  | case2 address bytes nonempty hypothesis =>
      have first : Shows address [row address (bytes.take rowSize)] (bytes.take rowSize) :=
        ⟨[(address, bytes.take rowSize)], rfl, by simp, rfl, trivial⟩
      rw [rows, if_neg nonempty]
      rcases Nat.lt_or_ge bytes.length rowSize with short | long
      · have nothing : bytes.drop rowSize = [] := List.drop_eq_nil_of_le (Nat.le_of_lt short)
        have last : rows (address + rowSize) (bytes.drop rowSize) = [] := by
          rw [nothing, rows]
          rfl
        rw [last]
        rwa [List.take_of_length_le (Nat.le_of_lt short)] at first ⊢
      · have whole := first.append (by
          rw [List.length_take_of_le long]
          exact hypothesis)
        rwa [List.take_append_drop] at whole

theorem Shows.mapM_readRow?
    {address : Nat} {shown : List Text} {bytes : Bytes} (shows : Shows address shown bytes) :
    ∃ entries, shown.mapM readRow? = some entries ∧
      entries.flatMap Prod.snd = bytes ∧ AreLabelled address entries := by
  obtain ⟨entries, rfl, spelled, labelled⟩ := shows
  refine ⟨entries, ?_, spelled, labelled⟩
  clear spelled labelled
  induction entries with
  | nil => rfl
  | cons entry rest hypothesis => simp [readRow?_row, hypothesis]

theorem Shows.readBlock?
    {address : Nat} {shown : List Text} {bytes : Bytes} (shows : Shows address shown bytes) :
    readBlock? shown = some bytes := by
  obtain ⟨entries, read, rfl, _⟩ := shows.mapM_readRow?
  rw [HexDump.readBlock?, read, Option.map_some]

/-- Rows are not blank and have no line feeds. -/
theorem Shows.visible
    {address : Nat} {shown : List Text} {bytes : Bytes} (shows : Shows address shown bytes) :
    ∀ line ∈ shown, line ≠ [] ∧ '\n' ∉ line := by
  obtain ⟨entries, rfl, _, _⟩ := shows
  intro line member
  obtain ⟨entry, _, rfl⟩ := List.mem_map.1 member
  exact ⟨by simp [row], newline_notMem_row entry.1 entry.2⟩

end HexDump

theorem Text.join_append
    {separator : Text} {left right : List Text} (present : left ≠ []) (others : right ≠ []) :
    join separator (left ++ right) = join separator left ++ separator ++ join separator right := by
  induction left with
  | nil => exact absurd rfl present
  | cons part rest hypothesis =>
      cases rest with
      | nil => exact (join_cons others).trans (by simp [join])
      | cons second more =>
          rw [List.cons_append, join_cons (by simp), hypothesis (by simp),
            join_cons (List.cons_ne_nil second more)]
          simp

/-- Blocks of rows with a blank row between them, as one text. -/
theorem join_blocks
    {blocks : List (List Text)} (nonempty : ∀ block ∈ blocks, block ≠ []) :
    Text.join "\n\n".toList (blocks.map (Text.join ['\n'])) =
      Text.join ['\n'] (List.intercalate [[]] blocks) := by
  induction blocks with
  | nil => rfl
  | cons block rest hypothesis =>
      have blockPresent := nonempty block List.mem_cons_self
      have others := hypothesis fun other member => nonempty other (List.mem_cons_of_mem _ member)
      cases rest with
      | nil => simp [Text.join]
      | cons second more =>
          have remaining : List.intercalate [[]] (second :: more) ≠ [] := by
            have secondSome : second ≠ [] := nonempty second (by simp)
            cases more with
            | nil => simpa using secondSome
            | cons third behind => simp [List.intercalate_cons_cons, secondSome]
          rw [List.map_cons, Text.join_cons (by simp), others,
            List.intercalate_cons_of_ne_nil (List.cons_ne_nil second more), List.append_assoc block,
            Text.join_append blockPresent (by simp), List.singleton_append,
            Text.join_cons remaining]
          simp

theorem fields_join
    {parts : List Text} (present : parts ≠ []) (noNewline : ∀ part ∈ parts, '\n' ∉ part) :
    Text.fields '\n' (Text.join ['\n'] parts) = parts := by
  rw [Text.fields_eq_splitOn]
  exact List.splitOn_intercalate '\n' noNewline present

theorem mem_intercalate_blank
    {blocks : List (List Text)} {line : Text} (member : line ∈ List.intercalate [[]] blocks) :
    line = [] ∨ ∃ block ∈ blocks, line ∈ block := by
  induction blocks with
  | nil => simp at member
  | cons block rest hypothesis =>
      cases rest with
      | nil => exact Or.inr ⟨block, by simp, by simpa using member⟩
      | cons second more =>
          rw [List.intercalate_cons_cons, List.mem_append, List.mem_append] at member
          rcases member with (inBlock | blank) | later
          · exact Or.inr ⟨block, by simp, inBlock⟩
          · exact Or.inl (List.mem_singleton.1 blank)
          · rcases hypothesis later with blank | ⟨other, among, inside⟩
            · exact Or.inl blank
            · exact Or.inr ⟨other, List.mem_cons_of_mem _ among, inside⟩

theorem filter_intercalate_blank
    {blocks : List (List Text)}
    (visible : ∀ block ∈ blocks, ∀ line ∈ block, line ≠ []) :
    (List.intercalate [[]] blocks).filter (· ≠ []) = blocks.flatten := by
  induction blocks with
  | nil => rfl
  | cons block rest hypothesis =>
      have kept : block.filter (· ≠ []) = block :=
        List.filter_eq_self.2 fun line member =>
          decide_eq_true (visible block List.mem_cons_self line member)
      have others := hypothesis fun other member => visible other (List.mem_cons_of_mem _ member)
      cases rest with
      | nil => rw [List.intercalate_singleton, kept, List.flatten_singleton]
      | cons second more =>
          rw [List.intercalate_cons_cons, List.filter_append, List.filter_append, kept, others,
            List.flatten_cons]
          simp

/-- Text that is laid out in blocks of visible rows, read by rows: without the blank ones, and cut
at them. -/
theorem rows_of_blocks
    {blocks : List (List Text)} (present : blocks ≠ [])
    (nonempty : ∀ block ∈ blocks, block ≠ [])
    (visible : ∀ block ∈ blocks, ∀ line ∈ block, line ≠ [] ∧ '\n' ∉ line) :
    let lines :=
      Text.fields '\n' (Text.join "\n\n".toList (blocks.map (Text.join ['\n'])))
    lines.filter (· ≠ []) = blocks.flatten ∧ lines.splitOn [] = blocks := by
  have noNewline : ∀ line ∈ List.intercalate [[]] blocks, '\n' ∉ line := by
    intro line member
    rcases mem_intercalate_blank member with rfl | ⟨block, among, inside⟩
    · exact List.not_mem_nil
    · exact (visible block among line inside).2
  have lines :
      Text.fields '\n' (Text.join "\n\n".toList (blocks.map (Text.join ['\n']))) =
        List.intercalate [[]] blocks := by
    rw [join_blocks nonempty]
    refine fields_join ?_ noNewline
    obtain ⟨block, rest, rfl⟩ := List.exists_cons_of_ne_nil present
    have blockSome : block ≠ [] := nonempty block List.mem_cons_self
    cases rest with
    | nil => simpa using blockSome
    | cons second more => simp [List.intercalate_cons_cons, blockSome]
  rw [lines]
  refine ⟨filter_intercalate_blank fun block among line inside =>
    (visible block among line inside).1, ?_⟩
  exact List.splitOn_intercalate [] (fun block among blank => (visible block among [] blank).1 rfl)
    present

/-- The bytes of the blocks of a dump: a record for each line, then the final link, or what there
is of it, then the rest of the image. -/
def Program.blockBytes (program : Program) : List Bytes :=
  (program.lines.map fun line =>
      program.image.extract line.record.start line.record.stop) ++
    [(program.image.drop program.stop).take 2, program.image.drop (program.stop + 2)].filter
      (· ≠ [])

namespace Dump

def blockRows (image : Bytes) (loadAddress : Nat) (block : Block) : List Text :=
  HexDump.rows (loadAddress + block.offset)
    (HexDump.extract image block.offset block.length)

theorem start_add_length (record : Record) :
    record.start + (record.stop - record.start) = record.stop := by
  simp only [Record.stop, Record.payloadStart]
  omega

/-- The blocks of the final link and of what follows it. -/
def tailBlocks (stop length : Nat) : List Block :=
  (if 0 < min 2 (length - stop) then [⟨stop, min 2 (length - stop)⟩] else []) ++
    if stop + min 2 (length - stop) < length then
      [⟨stop + min 2 (length - stop), length - (stop + min 2 (length - stop))⟩]
    else
      []

theorem blocks_eq (program : Program) :
    blocks program =
      (program.lines.map fun line =>
        ⟨line.record.start, line.record.stop - line.record.start⟩) ++
        tailBlocks program.stop program.image.length := by
  simp [blocks, tailBlocks]

/-- Nothing, one byte or two bytes are left for the link, and only then more may follow. -/
theorem tailBlocks_cases (stop length : Nat) :
    (length ≤ stop ∧ tailBlocks stop length = []) ∨
      (0 < length - stop ∧ length ≤ stop + 2 ∧
        tailBlocks stop length = [⟨stop, length - stop⟩]) ∨
      (stop + 2 < length ∧
        tailBlocks stop length = [⟨stop, 2⟩, ⟨stop + 2, length - (stop + 2)⟩]) := by
  rcases Nat.lt_or_ge (stop + 2) length with more | few
  · have two : min 2 (length - stop) = 2 := by omega
    exact Or.inr (Or.inr ⟨more, by simp [tailBlocks, two, more]⟩)
  · have all : min 2 (length - stop) = length - stop := by omega
    have noMore : ¬ stop + (length - stop) < length := by omega
    rcases Nat.eq_zero_or_pos (length - stop) with absent | present
    · exact Or.inl ⟨by omega, by simp [tailBlocks, absent, show ¬ stop < length by omega]⟩
    · exact Or.inr (Or.inl ⟨present, few, by simp [tailBlocks, all, present, noMore]⟩)

theorem tiles_tailBlocks {stop length : Nat} (inside : stop ≤ length) :
    Tiles stop length
      ((tailBlocks stop length).map fun block =>
        (block.offset, block.offset + block.length)) := by
  rcases tailBlocks_cases stop length with
    ⟨absent, shape⟩ | ⟨present, few, shape⟩ | ⟨more, shape⟩
  · rw [shape]
    exact Nat.le_antisymm inside absent
  · rw [shape]
    refine ⟨rfl, ?_, ?_⟩
    · change stop < stop + (length - stop)
      omega
    · change stop + (length - stop) = length
      omega
  · rw [shape]
    refine ⟨rfl, ?_, rfl, ?_, ?_⟩
    · change stop < stop + 2
      omega
    · change stop + 2 < stop + 2 + (length - (stop + 2))
      omega
    · change stop + 2 + (length - (stop + 2)) = length
      omega

/-- The blocks of a program cut its image into parts, none of them empty. -/
theorem tiles_blocks (image : Bytes) :
    Tiles 0 image.length
      ((blocks (Program.decode image)).map fun block =>
        (block.offset, block.offset + block.length)) := by
  have partition := Program.isPartition_decode image
  have sameLines :
      (Program.decode image).lines.map
        ((fun block : Block => (block.offset, block.offset + block.length)) ∘ fun line : Line =>
          ⟨line.record.start, line.record.stop - line.record.start⟩) =
        (Program.decode image).lines.map fun line => (line.record.start, line.record.stop) :=
    List.map_congr_left fun line _ => by
      simp only [Function.comp_apply, start_add_length]
  rw [blocks_eq, List.map_append, List.map_map, sameLines]
  exact partition.tiled.append (tiles_tailBlocks partition.stop_le)

theorem map_extract_blocks (program : Program) :
    ((blocks program).map fun block =>
        HexDump.extract program.image block.offset block.length) = program.blockBytes := by
  rw [blocks_eq, List.map_append, List.map_map, Program.blockBytes]
  congr 1
  generalize program.stop = stop
  generalize program.image = image
  rcases tailBlocks_cases stop image.length with
    ⟨absent, shape⟩ | ⟨present, few, shape⟩ | ⟨more, shape⟩
  · have noLink : image.drop stop = [] := List.drop_eq_nil_of_le absent
    have noRest : image.drop (stop + 2) = [] := List.drop_eq_nil_of_le (by omega)
    rw [shape, noLink, noRest]
    rfl
  · have noRest : image.drop (stop + 2) = [] := List.drop_eq_nil_of_le few
    have link : image.drop stop ≠ [] := fun empty => by simp at empty; omega
    have whole : (image.drop stop).take 2 = image.drop stop :=
      List.take_of_length_le (by rw [List.length_drop]; omega)
    rw [shape, noRest, whole]
    simp [HexDump.extract, List.take_of_length_le, link]
  · have link : (image.drop stop).take 2 ≠ [] := fun empty => by simp at empty; omega
    have rest : image.drop (stop + 2) ≠ [] := fun empty => by simp at empty; omega
    rw [shape]
    simp [HexDump.extract, List.take_of_length_le, link, rest]

theorem shows_blockRows
    {image : Bytes} {loadAddress start stop : Nat} {blocks : List Block}
    (tiles : Tiles start stop
      (blocks.map fun block => (block.offset, block.offset + block.length)))
    (inside : stop ≤ image.length) :
    HexDump.Shows (loadAddress + start) (blocks.flatMap (blockRows image loadAddress))
      (image.extract start stop) := by
  induction blocks generalizing start with
  | nil =>
      obtain rfl : start = stop := tiles
      exact ⟨[], rfl, by simp [List.extract_eq_take_drop], trivial⟩
  | cons block rest hypothesis =>
      obtain ⟨begins, forward, remaining⟩ := tiles
      obtain rfl : block.offset = start := begins
      dsimp only at forward remaining
      have reached := remaining.le
      have first :
          HexDump.Shows (loadAddress + block.offset) (blockRows image loadAddress block)
            (image.extract block.offset (block.offset + block.length)) := by
        rw [List.extract_eq_take_drop, Nat.add_sub_cancel_left]
        exact HexDump.shows_rows _ _
      have length :
          (image.extract block.offset (block.offset + block.length)).length = block.length := by
        rw [List.extract_eq_take_drop, List.length_take, List.length_drop]
        omega
      have others := hypothesis remaining
      rw [← Nat.add_assoc] at others
      have whole := first.append (by rwa [length])
      rwa [extract_append_extract image (Nat.le_of_lt forward) reached] at whole

theorem blockRows_ne_nil
    {image : Bytes} {block : Block} (loadAddress : Nat)
    (member : block ∈ blocks (Program.decode image)) :
    blockRows image loadAddress block ≠ [] := by
  obtain ⟨forward, inside⟩ := (tiles_blocks image).of_mem (List.mem_map_of_mem member)
  dsimp only at forward inside
  have present : (HexDump.extract image block.offset block.length).isEmpty = false := by
    rw [← Bool.not_eq_true, List.isEmpty_iff_length_eq_zero, HexDump.extract, List.length_take,
      List.length_drop]
    omega
  rw [blockRows, HexDump.rows, present]
  exact List.cons_ne_nil _ _

end Dump

/-- Whether a text shows all bytes of a program, each in its place. Blank rows separate the blocks
and are skipped. -/
structure Program.IsShown (program : Program) (text : Text) : Prop where
  rows : ∃ entries,
    ((Text.fields '\n' text).filter (· ≠ [])).mapM HexDump.readRow? = some entries ∧
      entries.flatMap Prod.snd = program.image ∧
      ∀ before entry behind, entries = before ++ entry :: behind →
        entry.1 = program.loadAddress + (before.flatMap Prod.snd).length
  blocks : 2 ≤ program.image.length →
    ((Text.fields '\n' text).splitOn []).map HexDump.readBlock? =
      program.blockBytes.map some

theorem Program.loadAddress_decode_of_tiny
    {image : Bytes} (tiny : image.length < 2) :
    (Program.decode image).loadAddress = 0 := by
  rcases image with _ | ⟨first, _ | ⟨second, rest⟩⟩
  · rfl
  · rfl
  · simp only [List.length_cons] at tiny
    omega

/-- The rows of one block without blank rows around it. -/
theorem HexDump.Shows.filter_fields
    {address : Nat} {shown : List Text} {bytes : Bytes} (shows : Shows address shown bytes) :
    (Text.fields '\n' (Text.join ['\n'] shown)).filter (· ≠ []) = shown := by
  rcases Decidable.em (shown = []) with rfl | present
  · rfl
  · rw [fields_join present fun line member => (shows.visible line member).2, List.filter_eq_self]
    exact fun line member => decide_eq_true (shows.visible line member).1

/-- A dump without a header shows the whole image. -/
theorem Program.isShown_dump
    (image : Bytes) {options : Options} (name : Text)
    (noHeader : options.showHeader = false) :
    (Program.decode image).IsShown ((Program.decode image).dump options name) := by
  rcases Nat.lt_or_ge image.length 2 with tiny | long
  · have text :
        (Program.decode image).dump options name = Text.join ['\n'] (HexDump.rows 0 image) := by
      rw [Program.dump, if_pos (show (Program.decode image).image.length < 2 from tiny)]
      change HexDump.dump image 0 image.length 0 = _
      rw [HexDump.dump, HexDump.extract, List.drop_zero, List.take_length]
    have shows := HexDump.shows_rows 0 image
    obtain ⟨entries, read, spelled, labelled⟩ := shows.mapM_readRow?
    refine
      { rows := ⟨entries, ?_, spelled, ?_⟩
        blocks := fun long => absurd tiny (Nat.not_lt_of_le long) }
    · rw [text, shows.filter_fields, read]
    · rintro before entry behind rfl
      rw [Program.loadAddress_decode_of_tiny tiny]
      exact labelled.address_eq
  · have text :
        (Program.decode image).dump options name =
          Text.join "\n\n".toList
            (((Dump.blocks (Program.decode image)).map
              (Dump.blockRows image (Program.decode image).loadAddress)).map
                (Text.join ['\n'])) := by
      have notTiny : ¬ (Program.decode image).image.length < 2 := Nat.not_lt_of_le long
      rw [Program.dump, if_neg notTiny, noHeader, List.map_map]
      rfl
    let load := (Program.decode image).loadAddress
    let blocks := Dump.blocks (Program.decode image)
    have tiles := Dump.tiles_blocks image
    have shows :
        HexDump.Shows (load + 0) (blocks.flatMap (Dump.blockRows image load))
          (image.extract 0 image.length) :=
      Dump.shows_blockRows tiles (Nat.le_refl _)
    obtain ⟨entries, read, spelled, labelled⟩ := shows.mapM_readRow?
    rw [Nat.add_zero] at labelled
    rw [List.extract_eq_take_drop, List.drop_zero, Nat.sub_zero, List.take_length] at spelled
    have someBlocks : blocks ≠ [] := by
      intro none
      rw [show Dump.blocks (Program.decode image) = [] from none] at tiles
      have noBytes : 0 = image.length := tiles
      omega
    have nonempty : ∀ rows ∈ blocks.map (Dump.blockRows image load), rows ≠ [] := by
      intro rows member
      obtain ⟨block, among, rfl⟩ := List.mem_map.1 member
      exact Dump.blockRows_ne_nil load among
    have visible :
        ∀ rows ∈ blocks.map (Dump.blockRows image load), ∀ line ∈ rows,
          line ≠ [] ∧ '\n' ∉ line := by
      intro rows member
      obtain ⟨block, among, rfl⟩ := List.mem_map.1 member
      exact (HexDump.shows_rows _ _).visible
    obtain ⟨allRows, byBlocks⟩ := rows_of_blocks (by simpa using someBlocks) nonempty visible
    refine { rows := ⟨entries, ?_, spelled, ?_⟩, blocks := fun _ => ?_ }
    · rw [text, allRows, ← List.flatMap_def, read]
    · rintro before entry behind rfl
      exact labelled.address_eq
    · rw [text, byBlocks, ← Dump.map_extract_blocks, List.map_map, List.map_map]
      exact List.map_congr_left fun block _ => (HexDump.shows_rows _ _).readBlock?

/-- A line, the final link, and one more byte. -/
theorem Program.isShown_dump_of_trailing_byte :
    ({ showHeader := false } : Options).showHeader = false ∧
      (Program.decode [0x07, 0x08, 0x0A, 0x00, 0x80, 0x00, 0x00, 0x00, 0xAA]).IsShown
        ((Program.decode [0x07, 0x08, 0x0A, 0x00, 0x80, 0x00, 0x00, 0x00, 0xAA]).dump
          { showHeader := false } []) :=
  ⟨rfl, Program.isShown_dump _ [] rfl⟩

end Applesoft
