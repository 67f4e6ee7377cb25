import Mathlib.Data.List.Basic
import Applesoft.Keyword

namespace Applesoft.Payload

/-- Whether a position is outside of literals. -/
def isOutside (payload : Bytes) (position : Nat) : Bool :=
  (payload.take position).count Punctuation.quote % 2 = 0

/-- Whether a REM token outside of literals stands at a position. -/
def beginsRemark (payload : Bytes) (position : Nat) : Bool :=
  payload[position]? = some Keyword.remToken && isOutside payload position

/-- The position of the remark; the length of the payload if it has none. -/
def remarkStart (payload : Bytes) : Nat :=
  (List.range payload.length).findIdx (beginsRemark payload)

/-- Whether a byte of code stands at a position. -/
def HasCode (payload : Bytes) (byte : UInt8) (position : Nat) : Prop :=
  position < remarkStart payload ∧ isOutside payload position = true ∧
    payload[position]? = some byte

instance (payload : Bytes) (byte : UInt8) (position : Nat) :
    Decidable (HasCode payload byte position) :=
  inferInstanceAs (Decidable (_ ∧ _ ∧ _))

theorem isOutside_zero (payload : Bytes) :
    isOutside payload 0 = true := by
  simp [isOutside]

/-- A quote changes from one side of literals to the other, and nothing else does. -/
theorem isOutside_succ (payload : Bytes) (position : Nat) :
    isOutside payload (position + 1) =
      if payload[position]? = some Punctuation.quote then
        !isOutside payload position
      else
        isOutside payload position := by
  have step :
      (payload.take (position + 1)).count Punctuation.quote =
        (payload.take position).count Punctuation.quote +
          if payload[position]? = some Punctuation.quote then 1 else 0 := by
    rw [List.take_add_one, List.count_append]
    cases payload[position]? with
    | none => simp
    | some byte =>
        by_cases quote : byte = Punctuation.quote <;>
          simp [quote]
  unfold isOutside
  rw [step]
  split
  · simp only [← decide_not, decide_eq_decide]
    omega
  · simp

theorem remarkStart_le_length (payload : Bytes) :
    remarkStart payload ≤ payload.length := by
  have bound :
      remarkStart payload ≤ (List.range payload.length).length :=
    List.findIdx_le_length
  simpa using bound

theorem not_beginsRemark_of_lt
    {payload : Bytes} {position : Nat}
    (inFront : position < remarkStart payload) :
    beginsRemark payload position = false := by
  have absent := List.not_of_lt_findIdx inFront
  simpa using absent

theorem beginsRemark_remarkStart
    {payload : Bytes} (present : remarkStart payload < payload.length) :
    beginsRemark payload (remarkStart payload) = true := by
  have member :
      (List.range payload.length)[remarkStart payload]? = some (remarkStart payload) :=
    List.getElem?_range present
  exact List.findIdx_of_getElem?_eq_some member

theorem getElem?_remarkStart
    {payload : Bytes} (present : remarkStart payload < payload.length) :
    payload[remarkStart payload]? = some Keyword.remToken := by
  have begins := beginsRemark_remarkStart present
  rw [beginsRemark, Bool.and_eq_true, decide_eq_true_eq] at begins
  exact begins.1

theorem remarkStart_le_of_beginsRemark
    {payload : Bytes} {position : Nat}
    (begins : beginsRemark payload position = true) :
    remarkStart payload ≤ position := by
  by_contra later
  have absent := not_beginsRemark_of_lt (Nat.lt_of_not_le later)
  simp [begins] at absent

theorem succ_le_remarkStart
    {payload : Bytes} {position : Nat}
    (inPayload : position < payload.length)
    (inFront : position ≤ remarkStart payload)
    (absent : beginsRemark payload position = false) :
    position + 1 ≤ remarkStart payload := by
  rcases Nat.lt_or_eq_of_le inFront with before | equality
  · exact before
  · have begins := beginsRemark_remarkStart (equality ▸ inPayload)
    rw [← equality, absent] at begins
    contradiction

theorem HasCode.unique
    {payload : Bytes} {left right : UInt8} {position : Nat}
    (first : HasCode payload left position) (second : HasCode payload right position) :
    left = right := by
  have same := first.2.2.symm.trans second.2.2
  exact Option.some.inj same

/-- Whether an IF before a position is still without its THEN or GOTO. -/
def Awaits (payload : Bytes) (position : Nat) : Prop :=
  ∃ condition < position, HasCode payload Keyword.ifToken condition ∧
    ∀ between < position, condition < between →
      ¬ HasCode payload Punctuation.colon between ∧
      ¬ HasCode payload Keyword.thenToken between ∧
      ¬ HasCode payload Keyword.gotoToken between

instance (payload : Bytes) (position : Nat) : Decidable (Awaits payload position) :=
  inferInstanceAs (Decidable (∃ condition < position, _ ∧ ∀ between < position, _ → _))

/-- Whether a statement ends behind the byte at a position. -/
def DividesBehind (payload : Bytes) (position : Nat) : Prop :=
  HasCode payload Punctuation.colon position ∨
    HasCode payload Keyword.thenToken position ∧ Awaits payload position

instance (payload : Bytes) (position : Nat) : Decidable (DividesBehind payload position) :=
  inferInstanceAs (Decidable (_ ∨ _ ∧ _))

/-- Whether a statement ends before the byte at a position. -/
def DividesBefore (payload : Bytes) (position : Nat) : Prop :=
  position = remarkStart payload ∨
    HasCode payload Keyword.gotoToken position ∧ Awaits payload position

instance (payload : Bytes) (position : Nat) : Decidable (DividesBefore payload position) :=
  inferInstanceAs (Decidable (_ ∨ _ ∧ _))

/-- Whether a position parts two statements: behind a colon, before the remark, behind the THEN or
before the GOTO that an IF waits for. -/
def IsBoundary (payload : Bytes) (position : Nat) : Prop :=
  (0 < position ∧ DividesBehind payload (position - 1)) ∨ DividesBefore payload position

instance (payload : Bytes) (position : Nat) : Decidable (IsBoundary payload position) :=
  inferInstanceAs (Decidable ((_ ∧ _) ∨ _))

theorem not_awaits_zero (payload : Bytes) :
    ¬ Awaits payload 0 := by
  rintro ⟨condition, before, _⟩
  exact Nat.not_lt_zero condition before

/-- An IF begins to wait, and a colon, a THEN or a GOTO ends that. -/
theorem awaits_succ_iff (payload : Bytes) (position : Nat) :
    Awaits payload (position + 1) ↔
      HasCode payload Keyword.ifToken position ∨
        (Awaits payload position ∧
          ¬ HasCode payload Punctuation.colon position ∧
          ¬ HasCode payload Keyword.thenToken position ∧
          ¬ HasCode payload Keyword.gotoToken position) := by
  constructor
  · rintro ⟨condition, before, isCondition, open_⟩
    rcases Nat.lt_succ_iff_lt_or_eq.1 before with earlier | rfl
    · refine Or.inr ⟨⟨condition, earlier, isCondition, ?_⟩, ?_⟩
      · intro between inside
        exact open_ between (Nat.lt_succ_of_lt inside)
      · exact open_ position (Nat.lt_succ_self position) earlier
    · exact Or.inl isCondition
  · rintro (isCondition | ⟨⟨condition, before, isCondition, open_⟩, last⟩)
    · refine ⟨position, Nat.lt_succ_self position, isCondition, ?_⟩
      intro between inside behind
      omega
    · refine ⟨condition, Nat.lt_succ_of_lt before, isCondition, ?_⟩
      intro between inside behind
      rcases Nat.lt_succ_iff_lt_or_eq.1 inside with earlier | rfl
      · exact open_ between earlier behind
      · exact last

theorem le_remarkStart_of_isBoundary
    {payload : Bytes} {position : Nat}
    (boundary : IsBoundary payload position) :
    position ≤ remarkStart payload := by
  rcases boundary with ⟨positive, colon | ⟨thenCode, _⟩⟩ | (rfl | ⟨gotoCode, _⟩)
  · have inFront := colon.1
    omega
  · have inFront := thenCode.1
    omega
  · exact Nat.le_refl _
  · exact Nat.le_of_lt gotoCode.1

theorem not_isBoundary_of_remarkStart_lt
    {payload : Bytes} {position : Nat}
    (behind : remarkStart payload < position) :
    ¬ IsBoundary payload position := by
  intro boundary
  exact Nat.not_le_of_lt behind (le_remarkStart_of_isBoundary boundary)

theorem isOutside_of_isBoundary
    {payload : Bytes} {position : Nat}
    (inPayload : position < payload.length)
    (boundary : IsBoundary payload position) :
    isOutside payload position = true := by
  have outsideBehind :
      ∀ {byte : UInt8} {previous : Nat}, byte ≠ Punctuation.quote →
        HasCode payload byte previous → isOutside payload (previous + 1) = true := by
    intro byte previous different code
    rw [isOutside_succ, code.2.2]
    simpa [different] using code.2.1
  rcases boundary with ⟨positive, divides⟩ | (rfl | ⟨gotoCode, _⟩)
  · have position_eq : position = position - 1 + 1 := by omega
    rw [position_eq]
    rcases divides with colon | ⟨thenCode, _⟩
    · exact outsideBehind (by decide) colon
    · exact outsideBehind (by decide) thenCode
  · have begins := beginsRemark_remarkStart inPayload
    simp only [beginsRemark, Bool.and_eq_true] at begins
    exact begins.2
  · exact gotoCode.2.1

/-- The positions at which statements begin. -/
def starts (payload : Bytes) : List Nat :=
  (List.range payload.length).filter fun position =>
    position = 0 ∨ IsBoundary payload position

/-- The positions behind which statements end. -/
def stops (payload : Bytes) : List Nat :=
  (List.range' 1 payload.length).filter fun position =>
    position = payload.length ∨ IsBoundary payload position

/-- An IF with its THEN, a PRINT of a literal, and a remark. -/
example :
    starts [0xAD, 0x58, 0xC4, 0xBA, 0x22, 0x3A, 0x22, 0x3A, 0xB2, 0x3A] = [0, 3, 8] := by
  decide

end Applesoft.Payload
