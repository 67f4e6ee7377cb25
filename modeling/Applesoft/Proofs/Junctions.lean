import Applesoft.Proofs.Coverage

/-!
Code that goes on. How an opcode is shown depends on the end of the code, where its operand may be
missing. So the lines of some code may change when more code comes behind it, but only near the end.

The main statement is that they never change if no line cuts an instruction off, and only then, and
that in any case the lines up to two bytes before the end stay as they are.
-/

namespace Applesoft.Machine

/-- Whether a line shows a legal opcode as data. -/
def ShownLine.CutsInstruction (line : ShownLine) : Prop :=
  line.IsData ∧ ∃ opcode ∈ line.bytes, instruction? opcode ≠ none

/-- Whether some lines show a legal opcode as data, as they do when the code ends inside of an
instruction. -/
def EndInside (lines : List Text) : Prop :=
  ∃ line ∈ lines, ∃ shown, readLine? line = some shown ∧ shown.CutsInstruction

/-- The bytes that a line shows. -/
def bytesOf (line : Text) : Bytes :=
  ((readLine? line).map ShownLine.bytes).getD []

/-- Those lines of which the last byte stands before a limit, when the first one begins at an
offset. -/
def linesBefore (limit : Nat) : Nat → List Text → List Text
  | _, [] => []
  | offset, line :: rest =>
      let stop := offset + (bytesOf line).length
      if stop ≤ limit then line :: linesBefore limit stop rest else linesBefore limit stop rest

theorem linesBefore_eq_nil
    {limit offset : Nat} (past : limit < offset) (lines : List Text) :
    linesBefore limit offset lines = [] := by
  induction lines generalizing offset with
  | nil => rfl
  | cons line rest hypothesis =>
      rw [linesBefore, if_neg (by omega)]
      exact hypothesis (by omega)

theorem endInside_listing_iff {address : Nat} {code : Bytes} :
    EndInside (listing address code) ↔
      ∃ line ∈ disassemble address code, line.shown.CutsInstruction := by
  constructor
  · rintro ⟨_, member, shown, read, cuts⟩
    obtain ⟨line, isLine, rfl⟩ := List.mem_map.1 member
    rw [readLine?_text (isPlain_of_mem_disassemble isLine)] at read
    exact ⟨line, isLine, Option.some.inj read ▸ cuts⟩
  · rintro ⟨line, isLine, cuts⟩
    exact ⟨line.text, List.mem_map_of_mem isLine, line.shown,
      readLine?_text (isPlain_of_mem_disassemble isLine), cuts⟩

theorem shown_eq_of_text_eq
    {line other : SourceLine} (plain : line.IsPlain) (otherPlain : other.IsPlain)
    (same : line.text = other.text) : line.shown = other.shown := by
  have read := readLine?_text plain
  rw [same, readLine?_text otherPlain] at read
  exact (Option.some.inj read).symm

namespace IsLineOf

variable {address : Nat} {left : Bytes} {line : SourceLine}

theorem length_le (shown : IsLineOf address left line) : line.bytes.length ≤ left.length := by
  have taken := congrArg List.length shown.take_length
  rw [List.length_take] at taken
  omega

/-- An opcode lacks two bytes of an operand at the most. -/
theorem not_cutsInstruction
    (shown : IsLineOf address left line) (room : line.bytes.length + 2 ≤ left.length) :
    ¬ line.shown.CutsInstruction := by
  rintro ⟨isData, opcode, member, legal⟩
  cases shown with
  | instruction found => exact (mnemonic_of_mem (instruction?_eq_some found).1).2.2 isData.1
  | data broken =>
      obtain rfl := List.mem_singleton.1 member
      obtain ⟨instruction, found⟩ := Option.ne_none_iff_exists'.1 legal
      have tooFew := broken instruction found
      have small := operandSize_le instruction.mode
      simp only [SourceLine.ofData, List.length_cons, List.length_nil] at room
      omega

theorem append
    (shown : IsLineOf address left line) (whole : ¬ line.shown.CutsInstruction)
    (right : Bytes) : IsLineOf address (left ++ right) line := by
  cases shown with
  | @instruction opcode rest instruction found complete =>
      have operand : (rest ++ right).take instruction.mode.operandSize =
          rest.take instruction.mode.operandSize := List.take_append_of_le_length complete
      rw [← operand]
      exact .instruction found (Nat.le_trans complete (List.prefix_append rest right).length_le)
  | @data opcode rest broken =>
      exact .data fun instruction found =>
        absurd ⟨⟨rfl, rfl⟩, opcode, List.mem_singleton_self opcode, by simp [found]⟩ whole

/-- The code behind a line, when more code follows. -/
theorem disassemble_append_eq
    (shown : IsLineOf address left line) (whole : ¬ line.shown.CutsInstruction)
    (right : Bytes) :
    disassemble address (left ++ right) =
      line :: disassemble (address + line.bytes.length)
        (left.drop line.bytes.length ++ right) := by
  rw [(shown.append whole right).disassemble_eq, List.drop_append_of_le_length shown.length_le]

end IsLineOf

section Junction

variable {address : Nat} {left : Bytes}

theorem disassemble_append
    (whole : ∀ line ∈ disassemble address left, ¬ line.shown.CutsInstruction) (right : Bytes) :
    disassemble address (left ++ right) =
      disassemble address left ++ disassemble (address + left.length) right := by
  induction address, left using induction_on_lines with
  | nothing address => simp [disassemble]
  | line address left line shown hypothesis =>
      have parts := shown.disassemble_eq
      have fits := shown.length_le
      have next : address + line.bytes.length + (left.drop line.bytes.length).length =
          address + left.length := by
        rw [List.length_drop]
        omega
      rw [parts] at whole
      rw [shown.disassemble_append_eq (whole line List.mem_cons_self), parts, List.cons_append,
        hypothesis fun later member => whole later (List.mem_cons_of_mem line member), next]

/-- The lines that leave room for an operand stay the first ones. -/
theorem linesBefore_prefix_listing
    {limit offset : Nat} (room : limit + 2 ≤ offset + left.length) (right : Bytes) :
    linesBefore limit offset (listing address left) <+: listing address (left ++ right) := by
  induction address, left using induction_on_lines generalizing offset with
  | nothing address =>
      rw [List.length_nil] at room
      rw [linesBefore_eq_nil (by omega)]
      exact List.nil_prefix
  | line address left line shown hypothesis =>
      have fits := shown.length_le
      have bytes : bytesOf line.text = line.bytes := by
        rw [bytesOf, readLine?_text shown.isPlain]
        rfl
      rw [listing, shown.disassemble_eq, List.map_cons, linesBefore, bytes]
      by_cases early : offset + line.bytes.length ≤ limit
      · have whole := shown.not_cutsInstruction (by omega)
        rw [if_pos early, listing, shown.disassemble_append_eq whole, List.map_cons,
          List.cons_prefix_cons]
        refine ⟨rfl, hypothesis ?_⟩
        rw [List.length_drop]
        omega
      · rw [if_neg early, linesBefore_eq_nil (by omega)]
        exact List.nil_prefix

/-- Two bytes complete every instruction, so lines that stay the same before them cut none off. -/
theorem not_cutsInstruction_of_listing_append
    {others : List Text}
    (same : listing address (left ++ [0, 0]) = listing address left ++ others) :
    ∀ line ∈ disassemble address left, ¬ line.shown.CutsInstruction := by
  induction address, left using induction_on_lines with
  | nothing address => simp [disassemble]
  | line address left line shown hypothesis =>
      have first : ¬ line.shown.CutsInstruction := by
        intro cuts
        have present : left ++ [0, 0] ≠ [] := by simp
        obtain ⟨longer, isLine⟩ := exists_isLineOf address present
        rw [listing, listing, isLine.disassemble_eq, shown.disassemble_eq] at same
        have shownSame := shown_eq_of_text_eq isLine.isPlain shown.isPlain (List.cons.inj same).1
        have bytes : longer.bytes = line.bytes := congrArg ShownLine.bytes shownSame
        refine isLine.not_cutsInstruction ?_ (shownSame ▸ cuts)
        rw [bytes, List.length_append]
        exact Nat.add_le_add_right shown.length_le 2
      rw [listing, listing, shown.disassemble_append_eq first, shown.disassemble_eq] at same
      rw [shown.disassemble_eq]
      intro later member
      rcases List.mem_cons.1 member with rfl | behind
      · exact first
      · exact hypothesis (List.cons.inj same).2 later behind

end Junction

/-- Some code is listed in the same way before any other code just if it does not end inside of an
instruction, and the other code is then listed as it is alone, from the address behind the first
one on. In any case the lines that end at least two bytes before the end stay as they are. -/
theorem listing_append_at_boundary (address : Nat) (left : Bytes) :
    (¬ EndInside (listing address left) ↔
        ∀ right, listing address (left ++ right) =
          listing address left ++ listing (address + left.length) right) ∧
      ∀ right limit, limit + 2 ≤ left.length →
        linesBefore limit 0 (listing address left) <+: listing address (left ++ right) := by
  refine ⟨⟨fun whole right => ?_, fun stays cut => ?_⟩, fun right limit room => ?_⟩
  · rw [endInside_listing_iff] at whole
    have apart := disassemble_append (fun line member cuts => whole ⟨line, member, cuts⟩) right
    rw [listing, apart, List.map_append]
    rfl
  · obtain ⟨line, member, cuts⟩ := endInside_listing_iff.1 cut
    exact not_cutsInstruction_of_listing_append (stays [0, 0]) line member cuts
  · exact linesBefore_prefix_listing (by omega) right

/-- A whole instruction before a call, and a call of which the second operand byte follows. -/
theorem listing_append_of_call :
    (¬ EndInside (listing 0x300 [0xA9, 0x01]) ∧
        listing 0x300 ([0xA9, 0x01] ++ [0x20, 0xED, 0xFD]) =
          listing 0x300 [0xA9, 0x01] ++ listing 0x302 [0x20, 0xED, 0xFD]) ∧
      2 + 2 ≤ ([0xA9, 0x01, 0x20, 0xED] : Bytes).length ∧
        linesBefore 2 0 (listing 0x300 [0xA9, 0x01, 0x20, 0xED]) <+:
          listing 0x300 ([0xA9, 0x01, 0x20, 0xED] ++ [0xFD]) := by
  have whole : ¬ EndInside (listing 0x300 [0xA9, 0x01]) := by
    have first : IsLineOf 0x300 [0xA9, 0x01]
        (.ofInstruction 0x300 ⟨0xA9, "LDA", .immediate⟩ [0x01]) :=
      .instruction (by decide) (by decide)
    have nothing : ([0xA9, 0x01] : Bytes).drop 2 = [] := rfl
    rw [endInside_listing_iff, first.disassemble_eq, SourceLine.ofInstruction]
    simp only [List.length_cons, List.length_nil, nothing, disassemble, List.mem_singleton]
    rintro ⟨line, rfl, ⟨isData, _⟩, _⟩
    exact absurd isData (by decide)
  exact ⟨⟨whole, (listing_append_at_boundary 0x300 [0xA9, 0x01]).1.1 whole [0x20, 0xED, 0xFD]⟩,
    by decide, (listing_append_at_boundary 0x300 [0xA9, 0x01, 0x20, 0xED]).2 [0xFD] 2 (by decide)⟩

end Applesoft.Machine
