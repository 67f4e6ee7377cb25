import Applesoft.Proofs.Jumps
import Applesoft.Proofs.Margins

/-!
The gutter and the number before a line. The gutter has two halves: the left one tells of the jump
with which the line begins, the right one of the jumps that arrive. Each half has the head of its
arrow, or the shaft of the arrow whose head is in the other half, or nothing.

What arrives at a line depends on the whole program, also on statements far behind the line. The
main statement says that the gutter and the number agree with the statements of the program.
-/

namespace Applesoft

/-- Whether the bytes of a statement are a jump of a kind. No target needs to be readable. -/
inductive IsJump : JumpKind → Bytes → Prop
  | single {form : JumpForm} {body arguments : Bytes} :
      IsSingleJump form body arguments → IsJump form.kind body
  | dispatch {kind : JumpKind} {expression list : Bytes} :
      (∀ byte ∈ expression, ∀ other, byte ≠ dispatchToken other) →
      IsJump kind (Keyword.onToken :: (expression ++ dispatchToken kind :: list))

/-- Whether the bytes of a statement refer to a line by a kind of jump. -/
def RefersTo (kind : JumpKind) (number : UInt16) (body : Bytes) : Prop :=
  ∃ findings, AccountsFor body findings ∧ Finding.jump kind number ∈ findings

/-- Whether some statement of a program refers to a line by a kind of jump. -/
def Program.IsTarget (program : Program) (kind : JumpKind) (number : UInt16) : Prop :=
  ∃ line ∈ program.lines, ∃ fragment ∈ line.fragments, RefersTo kind number fragment.body

/-- Whether the first fragment of a line is a jump of a kind. -/
def Line.LeavesBy (line : Line) (kind : JumpKind) : Prop :=
  ∃ fragment ∈ line.fragments.head?, IsJump kind fragment.body

theorem jumpKind_eq_none_of_goesOn
    {statement : Statement} (plain : statement.goesOn = true) : statement.jumpKind = none := by
  cases statement with
  | jump form target => cases plain
  | on expression dispatch => cases plain
  | _ => rfl

theorem IsJump.jumpKind_eq
    {kind : JumpKind} {body : Bytes} (jump : IsJump kind body) :
    (Statement.ofBody body).jumpKind = some kind := by
  cases jump with
  | single single => rw [single.ofBody_eq, Statement.jumpKind]
  | dispatch passed =>
      obtain ⟨read, shape⟩ := exists_ofOn_dispatch passed
      exact congrArg Statement.jumpKind shape

theorem jumpKind_ofBody_eq_some_iff (kind : JumpKind) (body : Bytes) :
    (Statement.ofBody body).jumpKind = some kind ↔ IsJump kind body := by
  refine ⟨fun jumps => ?_, IsJump.jumpKind_eq⟩
  have same {other : JumpKind} (jump : IsJump other body) : IsJump kind body := by
    obtain rfl := Option.some.inj (jump.jumpKind_eq.symm.trans jumps)
    exact jump
  obtain ⟨findings, accounts⟩ := exists_accountsFor body
  cases accounts with
  | target single _ => exact same (.single single)
  | missing single _ => exact same (.single single)
  | dispatch passed _ => exact same (.dispatch passed)
  | withoutDispatch passed =>
      obtain ⟨read, shape⟩ := exists_ofOn_withoutDispatch passed
      change (Statement.ofOn _).jumpKind = some kind at jumps
      rw [shape] at jumps
      cases jumps
  | silent silent =>
      rw [jumpKind_eq_none_of_goesOn (goesOn_ofBody silent)] at jumps
      cases jumps

theorem refersTo_iff (kind : JumpKind) (number : UInt16) (body : Bytes) :
    RefersTo kind number body ↔ Finding.jump kind number ∈ (Statement.ofBody body).findings := by
  constructor
  · intro refers
    obtain ⟨findings, accounts, member⟩ := refers
    rwa [accounts.findings_eq]
  · intro member
    exact ⟨_, (accountsFor_iff body _).2 rfl, member⟩

namespace Program

variable {image : Bytes}

theorem contains_jumps_iff (kind : JumpKind) (number : UInt16) :
    ((decode image).symbols.jumps kind).contains number = true ↔
      (decode image).IsTarget kind number := by
  rw [Table.contains, Option.isSome_iff_ne_none, ← Table.mem_keys_iff, mem_keys_jumps_iff, jumpLog]
  simp only [List.mem_flatMap, List.mem_map, Prod.mk.injEq]
  constructor
  · intro found
    obtain ⟨_, line, inProgram, fragment, inLine, finding, member, _, rfl⟩ := found
    refine ⟨line, inProgram, fragment, inLine, ?_⟩
    rwa [refersTo_iff, ← statement_of_mem_fragments inProgram inLine]
  · intro target
    obtain ⟨line, inProgram, fragment, inLine, refers⟩ := target
    rw [refersTo_iff, ← statement_of_mem_fragments inProgram inLine] at refers
    exact ⟨line.number, line, inProgram, fragment, inLine, _, refers, rfl, rfl⟩

theorem isGotoTarget_iff (number : UInt16) :
    (decode image).symbols.isGotoTarget number = true ↔ (decode image).IsTarget .goto number :=
  contains_jumps_iff .goto number

theorem isGosubTarget_iff (number : UInt16) :
    (decode image).symbols.isGosubTarget number = true ↔ (decode image).IsTarget .gosub number :=
  contains_jumps_iff .gosub number

theorem isTarget_iff (number : UInt16) :
    (decode image).symbols.isTarget number = true ↔
      ∃ kind, (decode image).IsTarget kind number := by
  rw [Symbols.isTarget, Bool.or_eq_true, isGotoTarget_iff, isGosubTarget_iff]
  constructor
  · intro either
    rcases either with goto | gosub
    · exact ⟨.goto, goto⟩
    · exact ⟨.gosub, gosub⟩
  · intro target
    obtain ⟨kind, target⟩ := target
    cases kind with
    | goto => exact Or.inl target
    | gosub => exact Or.inr target

theorem leadingJump_eq_some_iff
    {line : Line} (inProgram : line ∈ (decode image).lines) (kind : JumpKind) :
    Listing.leadingJump line = some kind ↔ line.LeavesBy kind := by
  rw [Listing.leadingJump, Option.bind_eq_some_iff]
  refine exists_congr fun fragment => and_congr_right fun first => ?_
  rw [statement_of_mem_fragments inProgram (List.mem_of_mem_head? first),
    jumpKind_ofBody_eq_some_iff]

end Program

namespace Listing

/-- Whether a half of a gutter has the head of an arrow for calls, or else for other jumps, or else
the shaft of an arrow with its head in the other half, or else blanks. -/
structure IsHalf (call jump : String) (calls jumps beyond : Prop) (half : Text) : Prop where
  call : half = call.toList ↔ calls
  jump : half = jump.toList ↔ ¬calls ∧ jumps
  shaft : half = "--".toList ↔ ¬calls ∧ ¬jumps ∧ beyond
  blank : half = "  ".toList ↔ ¬calls ∧ ¬jumps ∧ ¬beyond

theorem isHalf_sourceMark (jump : Option JumpKind) (arrives : Bool) :
    IsHalf "<<" " <" (jump = some .gosub) (jump = some .goto) (arrives = true)
      (sourceMark jump arrives) := by
  cases jump with
  | none => cases arrives <;> constructor <;> simp [sourceMark]
  | some kind => cases kind <;> constructor <;> simp [sourceMark]

theorem isHalf_targetMark (jump : Option JumpKind) (goto gosub : Bool) :
    IsHalf ">>" "> " (gosub = true) (goto = true) (jump.isSome = true)
      (targetMark jump goto gosub) := by
  cases gosub with
  | true => constructor <;> simp [targetMark]
  | false =>
      cases goto with
      | true => constructor <;> simp [targetMark]
      | false => cases jump <;> constructor <;> simp [targetMark]

section Base

variable (options : Options) (symbols : Symbols) (line : Line)

theorem take_two_lineBase (shown : options.showTargets = true) :
    (lineBase options symbols line).take 2 =
      sourceMark (leadingJump line) (symbols.isTarget line.number) := by
  rw [lineBase, if_pos shown, List.append_assoc]
  exact List.take_left' (length_sourceMark _ _)

theorem take_two_drop_two_lineBase (shown : options.showTargets = true) :
    ((lineBase options symbols line).drop 2).take 2 =
      targetMark (leadingJump line) (symbols.isGotoTarget line.number)
        (symbols.isGosubTarget line.number) := by
  rw [lineBase, if_pos shown, List.append_assoc, List.drop_left' (length_sourceMark _ _)]
  exact List.take_left' (length_targetMark _ _ _)

/-- The number of a line has the last five columns of its base. -/
theorem drop_lineBase :
    (lineBase options symbols line).drop ((lineBase options symbols line).length - 5) =
      numberText options symbols line.number := by
  obtain ⟨front, shape⟩ : ∃ front,
      lineBase options symbols line = front ++ numberText options symbols line.number := by
    unfold lineBase
    cases options.showTargets with
    | true => exact ⟨_, List.append_cons _ _ _⟩
    | false => exact ⟨[' '], rfl⟩
  have behind : (lineBase options symbols line).length - 5 = front.length := by
    rw [shape, List.length_append, length_numberText, Nat.add_sub_cancel]
  rw [behind, shape, List.drop_left]

theorem padLeft_decimal_ne_spaces (width number : Nat) :
    Text.padLeft width ' ' (Numeral.decimal number) ≠ Text.spaces width := by
  intro same
  obtain ⟨digit, member⟩ := List.exists_mem_of_ne_nil (Numeral.decimal number) Nat.toDigits_ne_nil
  have inText : digit ∈ Text.padLeft width ' ' (Numeral.decimal number) :=
    List.mem_append_right _ member
  rw [same] at inText
  have isDigit := Nat.isDigit_of_mem_toDigits (by decide) (by decide) member
  rw [List.eq_of_mem_replicate inText] at isDigit
  exact absurd isDigit (by decide)

theorem numberText_eq_padLeft_iff (number : UInt16) :
    numberText options symbols number =
        Text.padLeft 5 ' ' (Numeral.decimal number.toNat) ↔
      (options.onlyShowTargetLineNumbers = true → symbols.isTarget number = true) := by
  have visible := padLeft_decimal_ne_spaces 5 number.toNat
  cases hides : options.onlyShowTargetLineNumbers <;> cases target : symbols.isTarget number <;>
    simp [numberText, hides, target, visible.symm]

theorem numberText_eq_spaces_iff (number : UInt16) :
    numberText options symbols number = Text.spaces 5 ↔
      options.onlyShowTargetLineNumbers = true ∧ symbols.isTarget number = false := by
  have visible := padLeft_decimal_ne_spaces 5 number.toNat
  cases hides : options.onlyShowTargetLineNumbers <;> cases target : symbols.isTarget number <;>
    simp [numberText, hides, target, visible]

end Base

/-- Whether a base shows a line of a program as its options ask: the jump it begins with, the jumps
that arrive at it, and its number. -/
structure ShowsLine (options : Options) (program : Program) (line : Line) (base : Text) : Prop where
  /-- The base is as wide for a hidden number as for a shown one. -/
  width : base.length = if options.showTargets then 10 else 6
  left : options.showTargets = true →
    IsHalf "<<" " <" (line.LeavesBy .gosub) (line.LeavesBy .goto)
      (∃ kind, program.IsTarget kind line.number) (base.take 2)
  right : options.showTargets = true →
    IsHalf ">>" "> " (program.IsTarget .gosub line.number) (program.IsTarget .goto line.number)
      (∃ kind, line.LeavesBy kind) ((base.drop 2).take 2)
  shown : base.drop (base.length - 5) = Text.padLeft 5 ' ' (Numeral.decimal line.number.toNat) ↔
    (options.onlyShowTargetLineNumbers = true → ∃ kind, program.IsTarget kind line.number)
  hidden : base.drop (base.length - 5) = Text.spaces 5 ↔
    options.onlyShowTargetLineNumbers = true ∧ ¬∃ kind, program.IsTarget kind line.number

end Listing

open Listing

/-- The gutter and the number of a line agree with the statements of the whole program. -/
theorem Program.lineBase_shows_line
    (image : Bytes) (options : Options) {line : Line} (inProgram : line ∈ (decode image).lines) :
    ShowsLine options (decode image) line (lineBase options (decode image).symbols line) := by
  have leaves := leadingJump_eq_some_iff inProgram
  have leavesAtAll : (leadingJump line).isSome = true ↔ ∃ kind, line.LeavesBy kind := by
    rw [Option.isSome_iff_exists]
    exact exists_congr leaves
  refine { width := ?_, left := ?_, right := ?_, shown := ?_, hidden := ?_ }
  · have width := length_lineBase options (decode image).symbols line
    rw [baseColumn] at width
    cases targets : options.showTargets with
    | true =>
        rw [targets, if_pos rfl] at width
        rw [if_pos rfl]
        omega
    | false =>
        rw [targets, if_neg Bool.false_ne_true] at width
        rw [if_neg Bool.false_ne_true]
        omega
  · intro targets
    rw [take_two_lineBase options _ line targets]
    simpa only [leaves, isTarget_iff] using
      isHalf_sourceMark (leadingJump line) ((decode image).symbols.isTarget line.number)
  · intro targets
    rw [take_two_drop_two_lineBase options _ line targets]
    simpa only [leavesAtAll, isGotoTarget_iff, isGosubTarget_iff] using
      isHalf_targetMark (leadingJump line) ((decode image).symbols.isGotoTarget line.number)
        ((decode image).symbols.isGosubTarget line.number)
  · rw [drop_lineBase, numberText_eq_padLeft_iff, isTarget_iff]
  · rw [drop_lineBase, numberText_eq_spaces_iff, ← isTarget_iff, Bool.not_eq_true]

/-- The lines 10 ON X GOSUB 30, 20 IF X THEN 30 and 30 GOTO 10. -/
theorem Program.lineBase_of_called_line :
    let program := decode [
      0x0B, 0x08, 0x0A, 0x00, 0xB4, 0x58, 0xB0, 0x33, 0x30, 0x00,
      0x15, 0x08, 0x14, 0x00, 0xAD, 0x58, 0xC4, 0x33, 0x30, 0x00,
      0x1D, 0x08, 0x1E, 0x00, 0xAB, 0x31, 0x30, 0x00, 0x00, 0x00]
    let options : Options := { showTargets := true, onlyShowTargetLineNumbers := true }
    ∃ line ∈ program.lines, line.number = 30 ∧
      lineBase options program.symbols line = " <>>    30".toList ∧
      line.LeavesBy .goto ∧ program.IsTarget .gosub 30 := by
  intro program options
  have bases : program.lines.map
      (fun line => (line.number, lineBase options program.symbols line)) =
        [(10, "<<>     10".toList), (20, "          ".toList), (30, " <>>    30".toList)] := by
    decide +kernel
  have last : ((30 : UInt16), " <>>    30".toList) ∈ program.lines.map
      fun line => (line.number, lineBase options program.symbols line) := by
    rw [bases]
    decide
  obtain ⟨line, inProgram, same⟩ := List.mem_map.1 last
  obtain ⟨number, base⟩ := Prod.mk.inj same
  have shows := lineBase_shows_line _ options inProgram
  have left := shows.left rfl
  have right := shows.right rfl
  rw [base] at left right
  rw [number] at right
  exact ⟨line, inProgram, number, base, (left.jump.1 rfl).2, right.call.1 rfl⟩

end Applesoft
