import Applesoft.Proofs.Division

namespace Applesoft

namespace Payload

/-- The stretches between a start and a stop that marks part from each other. A mark belongs to no
stretch. -/
def stretchesBetween (start stop : Nat) : List Nat → List (Nat × Nat)
  | [] => [(start, stop)]
  | mark :: rest => (start, mark) :: stretchesBetween (mark + 1) stop rest

/-- The positions of the colons of the code of a payload. -/
def colons (payload : Bytes) : List Nat :=
  (List.range (remarkStart payload)).filter fun position =>
    HasCode payload Punctuation.colon position

/-- The stretches of code between the colons of a payload. The last one ends at the remark, or with
the payload. -/
def stretches (payload : Bytes) : List (Nat × Nat) :=
  stretchesBetween 0 (remarkStart payload) (colons payload)

/-- Whether a stretch has an IF with neither THEN nor GOTO behind it. -/
def IsUnfinished (payload : Bytes) (stretch : Nat × Nat) : Prop :=
  ∃ condition < stretch.2, stretch.1 ≤ condition ∧
    HasCode payload Keyword.ifToken condition ∧
      ∀ later < stretch.2, condition < later →
        ¬ HasCode payload Keyword.thenToken later ∧
          ¬ HasCode payload Keyword.gotoToken later

instance (payload : Bytes) (stretch : Nat × Nat) : Decidable (IsUnfinished payload stretch) :=
  inferInstanceAs (Decidable (∃ condition < stretch.2, _ ∧ _ ∧ ∀ later < stretch.2, _ → _))

/-- Whether a statement begins at a position by the rules that do not concern the remark. -/
def BeginsInCode (payload : Bytes) (position : Nat) : Prop :=
  position = 0 ∨ (0 < position ∧ DividesBehind payload (position - 1)) ∨
    (HasCode payload Keyword.gotoToken position ∧ Awaits payload position)

instance (payload : Bytes) (position : Nat) : Decidable (BeginsInCode payload position) :=
  inferInstanceAs (Decidable (_ ∨ (_ ∧ _) ∨ (_ ∧ _)))

/-- Whether there is a remark that begins inside a statement. -/
def HasStrayRemark (payload : Bytes) : Prop :=
  remarkStart payload < payload.length ∧ ¬ BeginsInCode payload (remarkStart payload)

instance (payload : Bytes) : Decidable (HasStrayRemark payload) :=
  inferInstanceAs (Decidable (_ ∧ ¬ _))

section Stretches

variable {payload : Bytes} {start stop position : Nat}

/-- A stretch is unfinished if an IF still waits at its end. -/
theorem isUnfinished_iff_awaits
    (begins : start = 0 ∨ HasCode payload Punctuation.colon (start - 1))
    (forward : start ≤ stop)
    (unparted : ∀ between, start ≤ between → between < stop →
      ¬ HasCode payload Punctuation.colon between) :
    IsUnfinished payload (start, stop) ↔ Awaits payload stop := by
  constructor
  · rintro ⟨condition, before, inStretch, isCondition, open_⟩
    refine ⟨condition, before, isCondition, fun between inside behind => ?_⟩
    exact ⟨unparted between (Nat.le_trans inStretch (Nat.le_of_lt behind)) inside,
      open_ between inside behind⟩
  · rintro ⟨condition, before, isCondition, open_⟩
    refine ⟨condition, before, ?_, isCondition, fun later inside behind =>
      (open_ later inside behind).2⟩
    -- an IF in front of the stretch does not wait behind the colon that begins it
    by_contra earlier
    have colon := begins.resolve_left (by omega)
    rcases Nat.lt_or_ge condition (start - 1) with inFront | reached
    · exact (open_ (start - 1) (by omega) inFront).1 colon
    · obtain rfl : condition = start - 1 := by omega
      exact absurd (isCondition.unique colon) (by decide)

/-- The colons of the code from a position on. -/
def colonsFrom (payload : Bytes) (position : Nat) : List Nat :=
  (List.range' position (remarkStart payload - position)).filter fun position =>
    HasCode payload Punctuation.colon position

theorem colons_eq (payload : Bytes) : colons payload = colonsFrom payload 0 := by
  rw [colons, colonsFrom, List.range_eq_range', Nat.sub_zero]

theorem colonsFrom_remarkStart : colonsFrom payload (remarkStart payload) = [] := by
  rw [colonsFrom, Nat.sub_self]
  rfl

theorem colonsFrom_eq (inFront : position < remarkStart payload) :
    colonsFrom payload position =
      if HasCode payload Punctuation.colon position then
        position :: colonsFrom payload (position + 1)
      else
        colonsFrom payload (position + 1) := by
  rw [colonsFrom, range'_eq_cons inFront, List.filter_cons]
  simp only [decide_eq_true_eq]
  rfl

/-- The unfinished stretches are those at whose ends an IF still waits. The induction is on the way
from a position in the first stretch to the remark. -/
theorem countP_stretchesBetween
    (inFront : position ≤ remarkStart payload)
    (begins : start = 0 ∨ HasCode payload Punctuation.colon (start - 1))
    (forward : start ≤ position)
    (unparted : ∀ between, start ≤ between → between < position →
      ¬ HasCode payload Punctuation.colon between) :
    (stretchesBetween start (remarkStart payload) (colonsFrom payload position)).countP
        (IsUnfinished payload) =
      (colonsFrom payload position ++ [remarkStart payload]).countP (Awaits payload) := by
  induction left : remarkStart payload - position generalizing start position with
  | zero =>
      obtain rfl : position = remarkStart payload := by omega
      have last := isUnfinished_iff_awaits begins forward unparted
      rw [colonsFrom_remarkStart]
      simp [stretchesBetween, List.countP_singleton, last]
  | succ left hypothesis =>
      have here : position < remarkStart payload := by omega
      rw [colonsFrom_eq here]
      by_cases colon : HasCode payload Punctuation.colon position
      · have stretch := isUnfinished_iff_awaits begins forward unparted
        have others := @hypothesis (position + 1) (position + 1) here (Or.inr colon) (Nat.le_refl _)
          (fun between behind before => by omega) (by omega)
        rw [if_pos colon, stretchesBetween, List.cons_append, List.countP_cons, List.countP_cons,
          others]
        simp [stretch]
      · rw [if_neg colon]
        refine hypothesis here begins (Nat.le_succ_of_le forward) ?_ (by omega)
        intro between behind before
        rcases Nat.lt_succ_iff_lt_or_eq.1 before with earlier | rfl
        · exact unparted between behind earlier
        · exact colon

theorem countP_stretches (payload : Bytes) :
    (stretches payload).countP (IsUnfinished payload) =
      (colons payload ++ [remarkStart payload]).countP (Awaits payload) := by
  rw [stretches, colons_eq]
  exact countP_stretchesBetween (Nat.zero_le _) (Or.inl rfl) (Nat.le_refl _)
    fun between _ before => absurd before (Nat.not_lt_zero between)

/-- A condition before a colon, one with its THEN, and one cut off by a remark. -/
example :
    let payload : Bytes := [0xAD, 0x41, 0x3A, 0xAD, 0xC4, 0x3A, 0xAD, 0xB2, 0x3A]
    (stretches payload).filter (fun stretch => IsUnfinished payload stretch) =
      [(0, 2), (6, 7)] := by
  decide

end Stretches

end Payload

namespace Mark

def fault? : Mark → Option Anomaly
  | .segment _ => none
  | .unfinishedIf => some .ifWithoutThen
  | .strayRemark => some .midLineRem

def faults (marks : List Mark) : List Anomaly :=
  marks.filterMap fault?

theorem faults_append (left right : List Mark) :
    faults (left ++ right) = faults left ++ faults right :=
  List.filterMap_append

theorem faults_segment (stretch : Segment) (rest : List Mark) :
    faults (.segment stretch :: rest) = faults rest :=
  rfl

theorem faults_flush (gathered : List Lexeme) : faults (flush gathered) = [] := by
  cases gathered <;> rfl

theorem faults_unfinished (awaiting : Bool) :
    faults (unfinished awaiting) = if awaiting = true then [.ifWithoutThen] else [] := by
  cases awaiting <;> rfl

theorem faults_stray (gathered : List Lexeme) :
    faults (if gathered.isEmpty then [] else [.strayRemark]) =
      if gathered = [] then [] else [.midLineRem] := by
  cases gathered <;> rfl

end Mark

namespace Payload

/-- The faults of the stretches that colons from a position on end. -/
def unfinishedFrom (payload : Bytes) (position : Nat) : List Anomaly :=
  ((colonsFrom payload position).filter fun colon => Awaits payload colon).map
    fun _ => .ifWithoutThen

/-- The fault of the remark and that of the stretch before it. -/
def faultsAtRemark (payload : Bytes) : List Anomaly :=
  (if HasStrayRemark payload then [.midLineRem] else []) ++
    if Awaits payload (remarkStart payload) then [.ifWithoutThen] else []

section Scan

variable {payload : Bytes} {start position : Nat} {opened : Option Bytes} {awaiting : Bool}
  {gathered : List Lexeme}

theorem unfinishedFrom_remarkStart : unfinishedFrom payload (remarkStart payload) = [] := by
  rw [unfinishedFrom, colonsFrom_remarkStart]
  rfl

theorem unfinishedFrom_of_colon (colon : HasCode payload Punctuation.colon position) :
    unfinishedFrom payload position =
      (if Awaits payload position then [.ifWithoutThen] else []) ++
        unfinishedFrom payload (position + 1) := by
  rw [unfinishedFrom, colonsFrom_eq colon.1, if_pos colon, List.filter_cons]
  by_cases waits : Awaits payload position
  · simp [waits, unfinishedFrom]
  · simp [waits, unfinishedFrom]

theorem unfinishedFrom_of_not_colon
    (inFront : position < remarkStart payload)
    (noColon : ¬ HasCode payload Punctuation.colon position) :
    unfinishedFrom payload position = unfinishedFrom payload (position + 1) := by
  rw [unfinishedFrom, colonsFrom_eq inFront, if_neg noColon, unfinishedFrom]

/-- A remark is stray if the statement before it has begun. -/
theorem Pending.hasStrayRemark_iff
    (pending : Pending payload start (remarkStart payload) none awaiting gathered)
    (begins : BeginsInCode payload start)
    (present : remarkStart payload < payload.length) :
    HasStrayRemark payload ↔ gathered ≠ [] := by
  constructor
  · rintro ⟨_, inside⟩ rfl
    exact inside (pending.start_eq_of_gathered_nil ▸ begins)
  · intro some
    have begun := pending.begun (Or.inl some)
    refine ⟨present, ?_⟩
    rintro (front | ⟨_, behind⟩ | ⟨gotoCode, _⟩)
    · omega
    · exact pending.unfinished begun behind
    · exact Nat.lt_irrefl _ gotoCode.1

theorem Pending.faults_unfinished
    (pending : Pending payload start position opened awaiting gathered) :
    Mark.faults (Mark.unfinished awaiting) =
      if Awaits payload position then [.ifWithoutThen] else [] := by
  rw [Mark.faults_unfinished]
  exact if_congr pending.awaits rfl rfl

/-- The scan meets a byte of code: only a colon can end a stretch. -/
theorem faults_code
    {byte : UInt8} {lexemes : List Lexeme}
    (pending : Pending payload start position none awaiting gathered)
    (begins : BeginsInCode payload start)
    (read : payload[position]? = some byte)
    (noRemark : byte ≠ Keyword.remToken)
    (noQuote : byte ≠ Punctuation.quote)
    (onward : ∀ {startNext : Nat} {awaitingNext : Bool} {gatheredNext : List Lexeme},
      Pending payload startNext (position + 1) none awaitingNext gatheredNext →
        BeginsInCode payload startNext →
          Mark.faults (Mark.divideFrom awaitingNext gatheredNext lexemes) =
            unfinishedFrom payload (position + 1) ++ faultsAtRemark payload) :
    Mark.faults (Mark.divideFrom awaiting gathered (.code byte :: lexemes)) =
      unfinishedFrom payload position ++ faultsAtRemark payload := by
  have code := pending.hasCode read noRemark
  have inFront : position + 1 ≤ remarkStart payload := code.1
  have outside := isOutside_succ_of_hasCode code noQuote
  have beginsBehind :
      DividesBehind payload position → BeginsInCode payload (position + 1) :=
    fun divides => Or.inr (Or.inl ⟨Nat.succ_pos position, divides⟩)
  rw [Mark.divideFrom]
  by_cases isColon : byte = Punctuation.colon
  · subst isColon
    have fresh := Pending.fresh inFront outside (not_awaits_succ code (Or.inl rfl))
    rw [if_pos rfl, Mark.faults_append, pending.faults_unfinished, Mark.faults_segment,
      onward fresh (beginsBehind (Or.inl code)), unfinishedFrom_of_colon code, List.append_assoc]
  · rw [if_neg isColon, unfinishedFrom_of_not_colon code.1 (not_hasCode_of_byte_ne read isColon)]
    split
    · next isIf =>
        refine onward (pending.advanceOutside read noRemark isColon ?_ ?_ (by simp [isIf])
          ?_ (by simp [noQuote])) begins
        · exact fun _ => by rw [isIf]; decide
        · exact fun _ => by rw [isIf]; decide
        · simp [Lexeme.spell, Lexeme.bytes]
    · next noIf =>
        split
        · next isThen =>
            obtain ⟨waits, rfl⟩ : awaiting = true ∧ byte = Keyword.thenToken := by
              simpa using isThen
            have fresh :=
              Pending.fresh inFront outside (not_awaits_succ code (Or.inr (Or.inl rfl)))
            rw [Mark.faults_segment]
            exact onward fresh (beginsBehind (Or.inr ⟨code, pending.awaits.1 waits⟩))
        · next noThen =>
            split
            · next isGoto =>
                obtain ⟨waits, rfl⟩ : awaiting = true ∧ byte = Keyword.gotoToken := by
                  simpa using isGoto
                rw [Mark.faults_append, Mark.faults_flush, List.nil_append]
                exact onward (pending_goto code)
                  (Or.inr (Or.inr ⟨code, pending.awaits.1 waits⟩))
            · next noGoto =>
                simp only [Bool.and_eq_true, decide_eq_true_eq, not_and] at noThen noGoto
                refine onward (pending.advanceOutside read noRemark isColon noThen noGoto
                  (by simp [noIf]) ?_ (by simp [noQuote])) begins
                simp [Lexeme.spell, Lexeme.bytes]

/-- The scan meets the remark: the rest of the line is part of it. -/
theorem faults_remark
    {contents : Bytes}
    (pending : Pending payload start position none awaiting gathered)
    (begins : BeginsInCode payload start)
    (read : payload[position]? = some Keyword.remToken) :
    Mark.faults (Mark.divideFrom awaiting gathered [.remark contents]) =
      unfinishedFrom payload position ++ faultsAtRemark payload := by
  have beginsRemark : beginsRemark payload position = true := by
    simp [beginsRemark, read, pending.outside]
  obtain rfl : position = remarkStart payload :=
    Nat.le_antisymm pending.inFront (remarkStart_le_of_beginsRemark beginsRemark)
  have present : remarkStart payload < payload.length := (List.getElem?_eq_some_iff.1 read).1
  have stray := pending.hasStrayRemark_iff begins present
  rw [Mark.divideFrom, Mark.faults_append, Mark.faults_append, Mark.faults_append,
    Mark.faults_stray, Mark.faults_flush, pending.faults_unfinished, Mark.faults_segment,
    unfinishedFrom_remarkStart, faultsAtRemark]
  by_cases empty : gathered = []
  · simp [stray, empty, Mark.divideFrom, Mark.flush, Mark.unfinished, Mark.faults]
  · simp [stray, empty, Mark.divideFrom, Mark.flush, Mark.unfinished, Mark.faults]

end Scan

/-- The scan meets the faults of the payload from where it has come to. The induction is on the
bytes that it has not read. -/
theorem faults_divideFrom
    (payload rest : Bytes) {start position : Nat} {opened : Option Bytes}
    {awaiting : Bool} {gathered : List Lexeme}
    (remaining : payload.drop position = rest)
    (pending : Pending payload start position opened awaiting gathered)
    (begins : BeginsInCode payload start) :
    Mark.faults (Mark.divideFrom awaiting gathered (Lexeme.scanFrom opened rest)) =
      unfinishedFrom payload position ++ faultsAtRemark payload := by
  induction rest generalizing start position opened awaiting gathered with
  | nil =>
      have beyond := List.drop_eq_nil_iff.1 remaining
      have bound := remarkStart_le_length payload
      obtain rfl : position = remarkStart payload := by
        have inFront := pending.inFront
        omega
      have noRemark : ¬ HasStrayRemark payload := fun stray => by
        have present := stray.1
        omega
      have ending : Mark.faults (Mark.unfinished awaiting) =
          unfinishedFrom payload (remarkStart payload) ++ faultsAtRemark payload := by
        rw [pending.faults_unfinished, unfinishedFrom_remarkStart, faultsAtRemark,
          if_neg noRemark, List.nil_append, List.nil_append]
      cases opened with
      | none =>
          rw [Lexeme.scanFrom, Mark.divideFrom, Mark.faults_append, Mark.faults_flush,
            List.append_nil, ending]
      | some contents =>
          rw [Lexeme.scanFrom, Mark.divideFrom, Mark.divideFrom, Mark.faults_append,
            Mark.faults_flush, List.append_nil, ending]
  | cons byte rest hypothesis =>
      obtain ⟨read, remainingNext⟩ := getElem?_of_drop_eq_cons remaining
      cases opened with
      | some contents =>
          have inside : isOutside payload position = false := pending.outside
          have passed {openedNext : Option Bytes} {gatheredNext : List Lexeme}
              (pendingNext :
                Pending payload start (position + 1) openedNext awaiting gatheredNext) :
              unfinishedFrom payload position = unfinishedFrom payload (position + 1) :=
            unfinishedFrom_of_not_colon pendingNext.inFront (not_hasCode_of_inside inside)
          rw [Lexeme.scanFrom]
          split
          · next quote =>
              have pendingNext : Pending payload start (position + 1) none awaiting
                  (.literal (byte :: contents).reverse :: gathered) :=
                pending.advanceInside inside read
                  (by simp [Lexeme.spell, Lexeme.bytes]; omega) (by simp [quote])
              rw [Mark.divideFrom, passed pendingNext]
              exact hypothesis remainingNext pendingNext begins
          · next noQuote =>
              have pendingNext : Pending payload start (position + 1) (some (byte :: contents))
                  awaiting gathered :=
                pending.advanceInside inside read (by simp; omega) (by simp [noQuote])
              rw [passed pendingNext]
              exact hypothesis remainingNext pendingNext begins
      | none =>
          rw [Lexeme.scanFrom]
          split
          · next isRemark =>
              subst isRemark
              exact faults_remark pending begins read
          · next noRemark =>
              split
              · next quote =>
                  subst quote
                  have code := pending.hasCode read noRemark
                  have noColon := not_hasCode_of_byte_ne read
                    (show Punctuation.quote ≠ Punctuation.colon by decide)
                  have noIf : Punctuation.quote ≠ Keyword.ifToken := by decide
                  rw [unfinishedFrom_of_not_colon code.1 noColon]
                  exact hypothesis remainingNext
                    (pending.advanceOutside read noRemark (by decide) (fun _ => by decide)
                      (fun _ => by decide) (by simp [noIf]) (by simp) (by simp)) begins
              · next noQuote =>
                  exact faults_code pending begins read noRemark noQuote
                    (hypothesis remainingNext)

theorem faults_divide (payload : Bytes) :
    Mark.faults (Mark.divide (Lexeme.scan payload)) =
      unfinishedFrom payload 0 ++ faultsAtRemark payload := by
  have pending : Pending payload 0 0 none false [] :=
    .fresh (Nat.zero_le _) (isOutside_zero payload) (not_awaits_zero payload)
  exact faults_divideFrom payload payload rfl pending (Or.inl rfl)

end Payload

end Applesoft
