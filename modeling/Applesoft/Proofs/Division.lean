import Mathlib.Logic.Basic
import Applesoft.Line
import Applesoft.Proofs.Boundary

/-!
The division of a line follows its boundaries. The scan of a line reads it once, remembering whether
it is inside a literal and whether an IF waits; the boundaries of a payload are told position by
position, from all that stands before. Both give the same statements.

The main statements are that the segments of a payload run from one boundary to the next, and that
the fragments of a line begin and end at its boundaries.
-/

namespace Applesoft.Payload

/-- Whether no statement ends between two positions of which the second is a boundary or the end. -/
structure IsNextStop (payload : Bytes) (start stop : Nat) : Prop where
  start_lt : start < stop
  divided : stop = payload.length ∨ IsBoundary payload stop
  undivided : ∀ position, start < position → position < stop →
    ¬ IsBoundary payload position

/-- Whether segments run from a position to the end of a payload, each up to the next boundary, and
are separated exactly where a colon ends them. -/
def RunBetweenBoundaries (payload : Bytes) : Nat → List Segment → Prop
  | start, [] => start = payload.length
  | start, segment :: rest =>
      IsNextStop payload start (start + segment.span.length) ∧
        (segment.separated = true ↔
          HasCode payload Punctuation.colon (start + segment.span.length - 1)) ∧
        RunBetweenBoundaries payload (start + segment.span.length) rest

/-- What the scan knows at a position: the statement that it is in began at `start`, the lexemes
gathered and the literal still open reach up to the position, and none of the bytes passed divides
anything. -/
structure Pending (payload : Bytes) (start position : Nat) (opened : Option Bytes)
    (awaiting : Bool) (gathered : List Lexeme) : Prop where
  length : start + ((Lexeme.spell gathered.reverse).length + (opened.getD []).length) =
    position
  begun : gathered ≠ [] ∨ opened ≠ none → start < position
  outside : isOutside payload position = opened.isNone
  inFront : position ≤ remarkStart payload
  awaits : awaiting = true ↔ Awaits payload position
  undivided : ∀ earlier, start < earlier → earlier < position →
    ¬ IsBoundary payload earlier
  unfinished : start < position → ¬ DividesBehind payload (position - 1)

namespace Pending

variable {payload : Bytes} {start position : Nat} {opened : Option Bytes}
  {awaiting : Bool} {gathered : List Lexeme}

theorem fresh
    (inFront : position ≤ remarkStart payload)
    (outside : isOutside payload position = true)
    (idle : ¬ Awaits payload position) :
    Pending payload position position none false [] where
  length := by simp [Lexeme.spell]
  begun := by simp
  outside := by simp [outside]
  inFront := inFront
  awaits := by simp [idle]
  undivided := by
    intro earlier behind before
    omega
  unfinished := by simp

theorem advance
    {openedNext : Option Bytes} {awaitingNext : Bool} {gatheredNext : List Lexeme}
    (pending : Pending payload start position opened awaiting gathered)
    (inPayload : position < payload.length)
    (absent : beginsRemark payload position = false)
    (before : ¬ DividesBefore payload position)
    (behind : ¬ DividesBehind payload position)
    (length :
      (Lexeme.spell gatheredNext.reverse).length + (openedNext.getD []).length =
        (Lexeme.spell gathered.reverse).length + (opened.getD []).length + 1)
    (outside : isOutside payload (position + 1) = openedNext.isNone)
    (awaits : awaitingNext = true ↔ Awaits payload (position + 1)) :
    Pending payload start (position + 1) openedNext awaitingNext gatheredNext := by
  have reached := pending.length
  refine
    { length := by omega
      begun := fun _ => by omega
      outside := outside
      inFront := succ_le_remarkStart inPayload pending.inFront absent
      awaits := awaits
      undivided := ?_
      unfinished := fun _ => by simpa using behind }
  intro earlier afterStart notReached
  rcases Nat.lt_succ_iff_lt_or_eq.1 notReached with passed | rfl
  · exact pending.undivided earlier afterStart passed
  · rintro (⟨_, divides⟩ | divides)
    · exact pending.unfinished afterStart divides
    · exact before divides

theorem start_eq_of_gathered_nil
    (pending : Pending payload start position none awaiting []) :
    start = position := by
  have reached := pending.length
  simpa [Lexeme.spell] using reached

/-- What has been read is a segment if the position is a boundary or the end. -/
theorem close
    {lexemes : List Lexeme} {rest : List Segment}
    (pending : Pending payload start position opened awaiting gathered)
    (length : (Lexeme.spell lexemes).length =
      (Lexeme.spell gathered.reverse).length + (opened.getD []).length)
    (begun : start < position)
    (divided : position = payload.length ∨ IsBoundary payload position)
    (remaining : RunBetweenBoundaries payload position rest) :
    RunBetweenBoundaries payload start (⟨lexemes, false⟩ :: rest) := by
  have reached : start + (Lexeme.spell lexemes).length = position := by
    rw [length]
    exact pending.length
  have noColon : ¬ HasCode payload Punctuation.colon (position - 1) := by
    intro colon
    exact pending.unfinished begun (Or.inl colon)
  simp only [RunBetweenBoundaries, Segment.span, Segment.body, Bool.false_eq_true,
    if_false, List.append_nil, reached, false_iff]
  exact ⟨⟨begun, divided, pending.undivided⟩, noColon, remaining⟩

theorem flush
    {rest : List Segment}
    (pending : Pending payload start position none awaiting gathered)
    (divided : position = payload.length ∨ IsBoundary payload position)
    (remaining : RunBetweenBoundaries payload position rest) :
    RunBetweenBoundaries payload start (Mark.segments (Mark.flush gathered) ++ rest) := by
  cases gathered with
  | nil =>
      rw [pending.start_eq_of_gathered_nil]
      simpa [Mark.flush, Mark.segments] using remaining
  | cons lexeme earlier =>
      have begun : start < position := pending.begun (Or.inl (by simp))
      simpa [Mark.flush, Mark.segments] using
        pending.close (by simp) begun divided remaining

theorem closeBehind
    {rest : List Segment} {lexemes : List Lexeme} {separated : Bool}
    (pending : Pending payload start position none awaiting gathered)
    (length : (Segment.mk lexemes separated).span.length =
      (Lexeme.spell gathered.reverse).length + 1)
    (before : start < position → ¬ DividesBefore payload position)
    (behind : DividesBehind payload position)
    (colon : separated = true ↔ HasCode payload Punctuation.colon position)
    (remaining : RunBetweenBoundaries payload (position + 1) rest) :
    RunBetweenBoundaries payload start (⟨lexemes, separated⟩ :: rest) := by
  have reached : start + (Segment.mk lexemes separated).span.length = position + 1 := by
    have soFar := pending.length
    simp only [Option.getD_none, List.length_nil] at soFar
    omega
  have startBound : start ≤ position := by
    have soFar := pending.length
    omega
  simp only [RunBetweenBoundaries, reached, Nat.add_sub_cancel]
  refine ⟨⟨by omega, Or.inr (Or.inl ⟨by omega, by simpa using behind⟩), ?_⟩, colon,
    remaining⟩
  intro earlier afterStart notReached
  rcases Nat.lt_succ_iff_lt_or_eq.1 notReached with passed | rfl
  · exact pending.undivided earlier afterStart passed
  · rintro (⟨_, divides⟩ | divides)
    · exact pending.unfinished afterStart divides
    · exact before afterStart divides

end Pending

section Scan

variable {payload : Bytes} {start position : Nat} {awaiting : Bool}
  {gathered : List Lexeme}

theorem not_hasCode_of_byte_ne
    {byte other : UInt8}
    (read : payload[position]? = some byte) (different : byte ≠ other) :
    ¬ HasCode payload other position := by
  intro code
  exact different (Option.some.inj (read.symm.trans code.2.2))

theorem not_hasCode_of_inside
    {byte : UInt8} (inside : isOutside payload position = false) :
    ¬ HasCode payload byte position := by
  intro code
  have outside := code.2.1
  simp [inside] at outside

/-- A byte that is no code at all divides nothing and leaves every IF as it was. -/
theorem neutral_of_no_code
    (inPayload : position < payload.length)
    (absent : beginsRemark payload position = false)
    (noCode : ∀ byte, byte ∈ [Keyword.ifToken, Punctuation.colon, Keyword.thenToken,
      Keyword.gotoToken] → ¬ HasCode payload byte position) :
    ¬ DividesBefore payload position ∧ ¬ DividesBehind payload position ∧
      (Awaits payload (position + 1) ↔ Awaits payload position) := by
  have noIf := noCode Keyword.ifToken (by simp)
  have noColon := noCode Punctuation.colon (by simp)
  have noThen := noCode Keyword.thenToken (by simp)
  have noGoto := noCode Keyword.gotoToken (by simp)
  refine ⟨?_, ?_, ?_⟩
  · rintro (rfl | ⟨gotoCode, _⟩)
    · rw [beginsRemark_remarkStart inPayload] at absent
      contradiction
    · exact noGoto gotoCode
  · rintro (colon | ⟨thenCode, _⟩)
    · exact noColon colon
    · exact noThen thenCode
  · rw [awaits_succ_iff]
    simp [noIf, noColon, noThen, noGoto]

/-- Inside a literal the scan goes on with the next byte. -/
theorem Pending.advanceInside
    {opened : Option Bytes} {byte : UInt8} {openedNext : Option Bytes}
    {gatheredNext : List Lexeme}
    (pending : Pending payload start position opened awaiting gathered)
    (inside : isOutside payload position = false)
    (read : payload[position]? = some byte)
    (length :
      (Lexeme.spell gatheredNext.reverse).length + (openedNext.getD []).length =
        (Lexeme.spell gathered.reverse).length + (opened.getD []).length + 1)
    (outside : openedNext.isNone = decide (byte = Punctuation.quote)) :
    Pending payload start (position + 1) openedNext awaiting gatheredNext := by
  have inPayload : position < payload.length :=
    (List.getElem?_eq_some_iff.1 read).1
  have absent : beginsRemark payload position = false := by
    simp [beginsRemark, inside]
  obtain ⟨before, behind, awaits⟩ :=
    neutral_of_no_code inPayload absent fun _ _ => not_hasCode_of_inside inside
  have outsideNext : isOutside payload (position + 1) = openedNext.isNone := by
    rw [isOutside_succ, read, inside, outside]
    by_cases quote : byte = Punctuation.quote <;> simp [quote]
  exact pending.advance inPayload absent before behind length outsideNext
    (pending.awaits.trans awaits.symm)

/-- A byte outside of literals that neither ends a statement nor concerns an IF is gathered. -/
theorem Pending.advanceOutside
    {byte : UInt8} {openedNext : Option Bytes} {awaitingNext : Bool}
    {gatheredNext : List Lexeme}
    (pending : Pending payload start position none awaiting gathered)
    (read : payload[position]? = some byte)
    (noRemark : byte ≠ Keyword.remToken)
    (noColon : byte ≠ Punctuation.colon)
    (noThen : awaiting = true → byte ≠ Keyword.thenToken)
    (noGoto : awaiting = true → byte ≠ Keyword.gotoToken)
    (awaits : awaitingNext = true ↔ byte = Keyword.ifToken ∨ awaiting = true)
    (length :
      (Lexeme.spell gatheredNext.reverse).length + (openedNext.getD []).length =
        (Lexeme.spell gathered.reverse).length + 1)
    (outside : openedNext.isNone = !decide (byte = Punctuation.quote)) :
    Pending payload start (position + 1) openedNext awaitingNext gatheredNext := by
  have inPayload : position < payload.length :=
    (List.getElem?_eq_some_iff.1 read).1
  have outsideHere : isOutside payload position = true := pending.outside
  have absent : beginsRemark payload position = false := by
    simp [beginsRemark, read, noRemark]
  have inFront := succ_le_remarkStart inPayload pending.inFront absent
  have waiting := pending.awaits
  have thenFree : Awaits payload position →
      ¬ HasCode payload Keyword.thenToken position := by
    intro stillAwaits
    exact not_hasCode_of_byte_ne read (noThen (waiting.2 stillAwaits))
  have gotoFree : Awaits payload position →
      ¬ HasCode payload Keyword.gotoToken position := by
    intro stillAwaits
    exact not_hasCode_of_byte_ne read (noGoto (waiting.2 stillAwaits))
  have colonFree := not_hasCode_of_byte_ne read noColon
  have before : ¬ DividesBefore payload position := by
    rintro (equality | ⟨gotoCode, stillAwaits⟩)
    · omega
    · exact gotoFree stillAwaits gotoCode
  have behind : ¬ DividesBehind payload position := by
    rintro (colon | ⟨thenCode, stillAwaits⟩)
    · exact colonFree colon
    · exact thenFree stillAwaits thenCode
  have ifCode : HasCode payload Keyword.ifToken position ↔ byte = Keyword.ifToken := by
    constructor
    · intro code
      exact Option.some.inj (read.symm.trans code.2.2)
    · rintro rfl
      exact ⟨inFront, outsideHere, read⟩
  have awaitsNext : awaitingNext = true ↔ Awaits payload (position + 1) := by
    rw [awaits, awaits_succ_iff, waiting, ifCode]
    refine or_congr_right ⟨fun stillAwaits => ?_, And.left⟩
    exact ⟨stillAwaits, colonFree, thenFree stillAwaits, gotoFree stillAwaits⟩
  have outsideNext : isOutside payload (position + 1) = openedNext.isNone := by
    rw [isOutside_succ, read, outsideHere, outside]
    by_cases quote : byte = Punctuation.quote <;> simp [quote]
  exact pending.advance inPayload absent before behind (by simpa using length)
    outsideNext awaitsNext

theorem Pending.hasCode
    {byte : UInt8}
    (pending : Pending payload start position none awaiting gathered)
    (read : payload[position]? = some byte)
    (noRemark : byte ≠ Keyword.remToken) :
    HasCode payload byte position := by
  have inPayload : position < payload.length :=
    (List.getElem?_eq_some_iff.1 read).1
  have absent : beginsRemark payload position = false := by
    simp [beginsRemark, read, noRemark]
  exact ⟨succ_le_remarkStart inPayload pending.inFront absent, pending.outside, read⟩

theorem not_awaits_succ
    {byte : UInt8} (code : HasCode payload byte position)
    (ends : byte = Punctuation.colon ∨ byte = Keyword.thenToken ∨
      byte = Keyword.gotoToken) :
    ¬ Awaits payload (position + 1) := by
  rw [awaits_succ_iff]
  rintro (ifCode | ⟨_, noColon, noThen, noGoto⟩)
  · have same := code.unique ifCode
    subst same
    revert ends
    decide
  · rcases ends with rfl | rfl | rfl
    · exact noColon code
    · exact noThen code
    · exact noGoto code

theorem isOutside_succ_of_hasCode
    {byte : UInt8} (code : HasCode payload byte position)
    (noQuote : byte ≠ Punctuation.quote) :
    isOutside payload (position + 1) = true := by
  rw [isOutside_succ, code.2.2, code.2.1]
  simp [noQuote]

theorem runBetweenBoundaries_remark
    (begins : beginsRemark payload position = true)
    (inFront : position ≤ remarkStart payload)
    {contents : Bytes} (rest : payload.drop position = contents) :
    RunBetweenBoundaries payload position [⟨[.remark contents], false⟩] := by
  have reaches : position = remarkStart payload :=
    Nat.le_antisymm inFront (remarkStart_le_of_beginsRemark begins)
  have inPayload : position < payload.length := by
    simp only [beginsRemark, Bool.and_eq_true, decide_eq_true_eq] at begins
    exact (List.getElem?_eq_some_iff.1 begins.1).1
  have length : position + contents.length = payload.length := by
    rw [← rest, List.length_drop]
    omega
  have noColon : ¬ HasCode payload Punctuation.colon (payload.length - 1) := by
    intro colon
    have inCode := colon.1
    omega
  simp only [RunBetweenBoundaries, Segment.span, Segment.body, Lexeme.spell,
    List.flatMap_cons, List.flatMap_nil, Lexeme.bytes, List.append_nil,
    Bool.false_eq_true, if_false, length, false_iff, and_true]
  refine ⟨⟨inPayload, Or.inl rfl, ?_⟩, noColon⟩
  intro between behind _
  exact not_isBoundary_of_remarkStart_lt (reaches ▸ behind)

theorem getElem?_of_drop_eq_cons
    {byte : UInt8} {rest : Bytes} (remaining : payload.drop position = byte :: rest) :
    payload[position]? = some byte ∧ payload.drop (position + 1) = rest := by
  constructor
  · have first : (payload.drop position)[0]? = payload[position + 0]? :=
      List.getElem?_drop
    simpa [remaining] using first.symm
  · rw [← List.drop_drop, remaining]
    rfl

/-- Behind the GOTO of an IF, the GOTO is what has been gathered. -/
theorem pending_goto (code : HasCode payload Keyword.gotoToken position) :
    Pending payload position (position + 1) none false [.code Keyword.gotoToken] where
  length := by simp [Lexeme.spell, Lexeme.bytes]
  begun := by simp
  outside := isOutside_succ_of_hasCode code (by decide)
  inFront := code.1
  awaits := by simp [not_awaits_succ code (Or.inr (Or.inr rfl))]
  undivided := by
    intro earlier afterStart notReached
    omega
  unfinished := by
    intro _
    rw [Nat.add_sub_cancel]
    rintro (colon | ⟨thenCode, _⟩)
    · exact absurd (code.unique colon) (by decide)
    · exact absurd (code.unique thenCode) (by decide)

/-- The scan meets a byte of code: it ends the statement behind the byte, before it, or not at
all. -/
theorem runBetweenBoundaries_code
    {byte : UInt8} {lexemes : List Lexeme}
    (pending : Pending payload start position none awaiting gathered)
    (read : payload[position]? = some byte)
    (noRemark : byte ≠ Keyword.remToken)
    (noQuote : byte ≠ Punctuation.quote)
    (onward : ∀ {startNext : Nat} {awaitingNext : Bool} {gatheredNext : List Lexeme},
      Pending payload startNext (position + 1) none awaitingNext gatheredNext →
        RunBetweenBoundaries payload startNext
          (Mark.segments (Mark.divideFrom awaitingNext gatheredNext lexemes))) :
    RunBetweenBoundaries payload start
      (Mark.segments (Mark.divideFrom awaiting gathered (.code byte :: lexemes))) := by
  have code := pending.hasCode read noRemark
  have inFront : position + 1 ≤ remarkStart payload := code.1
  have outside := isOutside_succ_of_hasCode code noQuote
  have spelled :
      ∀ earlier : List Lexeme,
        (Lexeme.spell (.code byte :: earlier).reverse).length =
          (Lexeme.spell earlier.reverse).length + 1 := by
    intro earlier
    simp [Lexeme.spell, Lexeme.bytes]
  have before : byte ≠ Keyword.gotoToken → ¬ DividesBefore payload position := by
    rintro noGoto (equality | ⟨gotoCode, _⟩)
    · omega
    · exact noGoto (code.unique gotoCode)
  rw [Mark.divideFrom]
  split
  · next isColon =>
      subst isColon
      rw [Mark.segments_append, Mark.segments_unfinished, List.nil_append,
        Mark.segments_cons]
      exact pending.closeBehind (by simp [Segment.span, Segment.body])
        (fun _ => before (by decide)) (Or.inl code) (by simp [code])
        (onward (.fresh inFront outside (not_awaits_succ code (Or.inl rfl))))
  · next noColon =>
      split
      · next isIf =>
          exact onward (pending.advanceOutside read noRemark noColon
            (fun _ => by rw [isIf]; decide) (fun _ => by rw [isIf]; decide)
            (by simp [isIf]) (spelled gathered) (by simp [noQuote]))
      · next noIf =>
          split
          · next isThen =>
              obtain ⟨waits, rfl⟩ : awaiting = true ∧ byte = Keyword.thenToken := by
                simpa using isThen
              rw [Mark.segments_cons]
              exact pending.closeBehind
                (by simpa [Segment.span, Segment.body] using spelled gathered)
                (fun _ => before (by decide)) (Or.inr ⟨code, pending.awaits.1 waits⟩)
                (by simp [not_hasCode_of_byte_ne read noColon])
                (onward (.fresh inFront outside
                  (not_awaits_succ code (Or.inr (Or.inl rfl)))))
          · next noThen =>
              split
              · next isGoto =>
                  obtain ⟨waits, rfl⟩ : awaiting = true ∧ byte = Keyword.gotoToken := by
                    simpa using isGoto
                  have boundary : IsBoundary payload position :=
                    Or.inr (Or.inr ⟨code, pending.awaits.1 waits⟩)
                  rw [Mark.segments_append]
                  exact pending.flush (Or.inr boundary) (onward (pending_goto code))
              · next noGoto =>
                  simp only [Bool.and_eq_true, decide_eq_true_eq, not_and] at noThen noGoto
                  exact onward (pending.advanceOutside read noRemark noColon noThen noGoto
                    (by simp [noIf]) (spelled gathered) (by simp [noQuote]))

end Scan

/-- The scan goes from boundary to boundary. The induction is on the bytes that it has not read. -/
theorem runBetweenBoundaries_divideFrom
    (payload rest : Bytes) {start position : Nat} {opened : Option Bytes}
    {awaiting : Bool} {gathered : List Lexeme}
    (remaining : payload.drop position = rest)
    (pending : Pending payload start position opened awaiting gathered) :
    RunBetweenBoundaries payload start
      (Mark.segments (Mark.divideFrom awaiting gathered (Lexeme.scanFrom opened rest))) := by
  induction rest generalizing start position opened awaiting gathered with
  | nil =>
      have ended : position = payload.length := by
        have beyond := List.drop_eq_nil_iff.1 remaining
        have inFront := pending.inFront
        have bound := remarkStart_le_length payload
        omega
      cases opened with
      | none =>
          rw [Lexeme.scanFrom, Mark.divideFrom, Mark.segments_append,
            Mark.segments_unfinished, List.nil_append]
          have last : RunBetweenBoundaries payload position [] := ended
          simpa using pending.flush (Or.inl ended) last
      | some contents =>
          rw [Lexeme.scanFrom, Mark.divideFrom, Mark.divideFrom, Mark.segments_append,
            Mark.segments_unfinished, List.nil_append]
          exact pending.close (by simp [Lexeme.spell, Lexeme.bytes])
            (pending.begun (Or.inr (by simp))) (Or.inl ended) ended
  | cons byte rest hypothesis =>
      obtain ⟨read, remainingNext⟩ := getElem?_of_drop_eq_cons remaining
      cases opened with
      | some contents =>
          have inside : isOutside payload position = false := pending.outside
          rw [Lexeme.scanFrom]
          split
          · next quote =>
              rw [Mark.divideFrom]
              exact hypothesis remainingNext
                (pending.advanceInside inside read
                  (by simp [Lexeme.spell, Lexeme.bytes]; omega) (by simp [quote]))
          · next noQuote =>
              exact hypothesis remainingNext
                (pending.advanceInside inside read (by simp; omega)
                  (by simp [noQuote]))
      | none =>
          rw [Lexeme.scanFrom]
          split
          · next isRemark =>
              subst isRemark
              have begins : beginsRemark payload position = true := by
                simp [beginsRemark, read, pending.outside]
              have boundary : IsBoundary payload position :=
                Or.inr (Or.inl (Nat.le_antisymm pending.inFront
                  (remarkStart_le_of_beginsRemark begins)))
              have remark :=
                runBetweenBoundaries_remark begins pending.inFront remaining
              rw [Mark.divideFrom, Mark.segments_append, Mark.segments_append,
                Mark.segments_append, Mark.segments_stray, Mark.segments_unfinished,
                List.nil_append, List.append_nil, Mark.segments_cons]
              exact pending.flush (Or.inr boundary) remark
          · next noRemark =>
              split
              · next quote =>
                  subst quote
                  have noIf : Punctuation.quote ≠ Keyword.ifToken := by decide
                  exact hypothesis remainingNext
                    (pending.advanceOutside read noRemark (by decide)
                      (fun _ => by decide) (fun _ => by decide) (by simp [noIf])
                      (by simp) (by simp))
              · next noQuote =>
                  exact runBetweenBoundaries_code pending read noRemark noQuote
                    (hypothesis remainingNext)

theorem runBetweenBoundaries_divide (payload : Bytes) :
    RunBetweenBoundaries payload 0
      (Mark.segments (Mark.divide (Lexeme.scan payload))) := by
  have pending : Pending payload 0 0 none false [] :=
    .fresh (Nat.zero_le _) (isOutside_zero payload) (not_awaits_zero payload)
  exact runBetweenBoundaries_divideFrom payload payload rfl pending

/-- What a fragment is in the payload that begins at an offset: the bytes from one boundary to the
next, without the colon that ends them. -/
structure IsStatement (payload : Bytes) (offset : Nat) (fragment : Fragment)
    (start stop : Nat) : Prop where
  start_eq : fragment.start = offset + start
  stop_eq : fragment.stop = offset + stop
  begins : start = 0 ∨ IsBoundary payload start
  ends : IsNextStop payload start stop
  stop_le : stop ≤ payload.length
  spelled : payload.extract start stop =
    fragment.body ++
      if HasCode payload Punctuation.colon (stop - 1) then [Punctuation.colon] else []
  statement : fragment.statement = Statement.ofBody fragment.body

section Fragments

variable {payload : Bytes} {offset start : Nat} {first : Bool} {segments : List Segment}

theorem RunBetweenBoundaries.le_length
    (run : RunBetweenBoundaries payload start segments) :
    start ≤ payload.length := by
  induction segments generalizing start with
  | nil => exact Nat.le_of_eq run
  | cons segment rest hypothesis =>
      have bound := hypothesis run.2.2
      omega

theorem RunBetweenBoundaries.eq_nil
    (run : RunBetweenBoundaries payload payload.length segments) :
    segments = [] := by
  cases segments with
  | nil => rfl
  | cons segment rest =>
      have begun := run.1.start_lt
      have bound := run.2.2.le_length
      omega

theorem isStatement_of_mem_placeSegments
    {fragment : Fragment}
    (run : RunBetweenBoundaries payload start segments)
    (begins : start = 0 ∨ IsBoundary payload start)
    (spelled : payload.drop start = segments.flatMap Segment.span)
    (member : fragment ∈ placeSegments (offset + start) first segments) :
    ∃ position stop, IsStatement payload offset fragment position stop := by
  induction segments generalizing start first with
  | nil => simp [placeSegments] at member
  | cons segment rest hypothesis =>
      obtain ⟨ends, separated, remaining⟩ := run
      rw [List.flatMap_cons] at spelled
      rw [placeSegments, List.mem_cons] at member
      rcases member with rfl | later
      · refine ⟨start, start + segment.span.length,
          { start_eq := rfl
            stop_eq := by simp [Nat.add_assoc]
            begins := begins
            ends := ends
            stop_le := remaining.le_length
            spelled := ?_
            statement := rfl }⟩
        rw [List.extract_eq_take_drop, Nat.add_sub_cancel_left, spelled, List.take_left]
        exact congrArg (segment.body ++ ·) (if_congr separated rfl rfl)
      · have spelledNext :
            payload.drop (start + segment.span.length) = rest.flatMap Segment.span := by
          rw [← List.drop_drop, spelled, List.drop_left]
        rcases ends.divided with ended | boundary
        · rw [ended] at remaining
          rw [remaining.eq_nil] at later
          simp [placeSegments] at later
        · rw [Nat.add_assoc] at later
          exact hypothesis remaining (Or.inr boundary) spelledNext later

theorem range'_append_range'
    {start stop bound : Nat} (forward : start ≤ stop) (inside : stop ≤ bound) :
    List.range' start (stop - start) ++ List.range' stop (bound - stop) =
      List.range' start (bound - start) := by
  have reached : start + (stop - start) = stop := by omega
  have whole : stop - start + (bound - stop) = bound - start := by omega
  have parts := List.range'_append_1 (s := start) (m := stop - start) (n := bound - stop)
  rwa [reached, whole] at parts

theorem range'_eq_cons
    {start stop : Nat} (forward : start < stop) :
    List.range' start (stop - start) =
      start :: List.range' (start + 1) (stop - (start + 1)) := by
  rw [← List.range'_succ]
  congr 1
  omega

theorem map_start_placeSegments
    (run : RunBetweenBoundaries payload start segments) :
    (placeSegments (offset + start) first segments).map Fragment.start =
      ((List.range' start (payload.length - start)).filter fun position =>
        position = start ∨ IsBoundary payload position).map (offset + ·) := by
  induction segments generalizing start first with
  | nil =>
      have ended : start = payload.length := run
      simp [placeSegments, ended]
  | cons segment rest hypothesis =>
      obtain ⟨ends, _, remaining⟩ := run
      rw [placeSegments, List.map_cons, Nat.add_assoc, hypothesis remaining]
      generalize start + segment.span.length = stop at ends remaining
      have between :
          (List.range' (start + 1) (stop - (start + 1))).filter
            (fun position => position = start ∨ IsBoundary payload position) = [] := by
        rw [List.filter_eq_nil_iff]
        intro position member
        rw [List.mem_range'_1] at member
        have divides := ends.undivided position (by omega) (by omega)
        have different : position ≠ start := by omega
        simp [divides, different]
      have beyond :
          (List.range' stop (payload.length - stop)).filter
              (fun position => position = start ∨ IsBoundary payload position) =
            (List.range' stop (payload.length - stop)).filter
              (fun position => position = stop ∨ IsBoundary payload position) := by
        apply List.filter_congr
        intro position member
        rw [List.mem_range'_1] at member
        have forward := ends.start_lt
        have different : position ≠ start := by omega
        rcases Nat.lt_or_eq_of_le member.1 with behind | rfl
        · have notStop : position ≠ stop := by omega
          simp [different, notStop]
        · have boundary := ends.divided.resolve_left (by omega)
          simp [boundary]
      rw [← range'_append_range' (Nat.le_of_lt ends.start_lt) remaining.le_length,
        range'_eq_cons ends.start_lt, List.cons_append, List.filter_cons_of_pos (by simp),
        List.filter_append, between, beyond, List.nil_append, List.map_cons]

theorem map_stop_placeSegments
    (run : RunBetweenBoundaries payload start segments) :
    (placeSegments (offset + start) first segments).map Fragment.stop =
      ((List.range' (start + 1) (payload.length - start)).filter fun position =>
        position = payload.length ∨ IsBoundary payload position).map (offset + ·) := by
  induction segments generalizing start first with
  | nil =>
      have ended : start = payload.length := run
      simp [placeSegments, ended]
  | cons segment rest hypothesis =>
      obtain ⟨ends, _, remaining⟩ := run
      rw [placeSegments, List.map_cons, Nat.add_assoc, hypothesis remaining]
      generalize start + segment.span.length = stop at ends remaining
      have forward := ends.start_lt
      have inside := remaining.le_length
      have between :
          (List.range' (start + 1) (stop - (start + 1))).filter
            (fun position => position = payload.length ∨ IsBoundary payload position) =
              [] := by
        rw [List.filter_eq_nil_iff]
        intro position member
        rw [List.mem_range'_1] at member
        have divides := ends.undivided position (by omega) (by omega)
        have different : position ≠ payload.length := by omega
        simp [divides, different]
      have split :
          List.range' (start + 1) (payload.length - start) =
            List.range' (start + 1) (stop - (start + 1)) ++
              stop :: List.range' (stop + 1) (payload.length - stop) := by
        have bound : payload.length - start = payload.length + 1 - (start + 1) := by omega
        rw [bound, ← range'_append_range' forward (Nat.le_succ_of_le inside),
          range'_eq_cons (Nat.lt_succ_of_le inside), Nat.succ_sub_succ]
      rw [split, List.filter_append, between, List.nil_append,
        List.filter_cons_of_pos (by simpa using ends.divided), List.map_cons]

theorem getLast?_placeSegments
    {fragment : Fragment}
    (run : RunBetweenBoundaries payload start segments)
    (member : fragment ∈ placeSegments (offset + start) first segments)
    (reaches : fragment.stop = offset + payload.length) :
    (placeSegments (offset + start) first segments).getLast? = some fragment := by
  induction segments generalizing start first with
  | nil => simp [placeSegments] at member
  | cons segment rest hypothesis =>
      obtain ⟨ends, _, remaining⟩ := run
      rw [placeSegments, List.mem_cons, Nat.add_assoc] at member
      rw [placeSegments, List.getLast?_cons, Nat.add_assoc]
      rcases member with rfl | later
      · have ended : start + segment.span.length = payload.length := by
          simpa using reaches
        rw [ended] at remaining
        simp [remaining.eq_nil, placeSegments]
      · simp [hypothesis remaining later]

end Fragments

theorem ofKeyword_ne_remark
    {token : UInt8} (different : token ≠ Keyword.remToken) (arguments : Bytes) :
    Statement.ofKeyword token arguments ≠ .remark := by
  simp only [Statement.ofKeyword, Statement.ofOn, apply_ite (· ≠ Statement.remark)]
  simp [different]

theorem ofBody_eq_remark_iff (body : Bytes) :
    Statement.ofBody body = .remark ↔ body.head? = some Keyword.remToken := by
  rw [List.head?_eq_some_iff]
  constructor
  · intro remark
    exact Statement.exists_of_ofBody_eq remark (fun _ => ofKeyword_ne_remark) nofun nofun nofun
      nofun
  · rintro ⟨arguments, rfl⟩
    rfl

theorem isStatement_of_mem_fragments
    {record : Record} {fragment : Fragment}
    (member : fragment ∈ (Line.ofRecord record).fragments) :
    ∃ start stop,
      IsStatement record.payload record.payloadStart fragment start stop := by
  have spelled :
      record.payload.drop 0 =
        (Mark.segments (Mark.divide (Lexeme.scan record.payload))).flatMap Segment.span := by
    rw [List.drop_zero, Mark.flatMap_span_divide, Lexeme.spell_scan]
  exact isStatement_of_mem_placeSegments (runBetweenBoundaries_divide record.payload)
    (Or.inl rfl) spelled member

namespace IsStatement

variable {payload : Bytes} {offset start stop : Nat} {fragment : Fragment}

theorem start_lt_length (placed : IsStatement payload offset fragment start stop) :
    start < payload.length :=
  Nat.lt_of_lt_of_le placed.ends.start_lt placed.stop_le

theorem start_le_remarkStart (placed : IsStatement payload offset fragment start stop) :
    start ≤ remarkStart payload := by
  rcases placed.begins with rfl | boundary
  · exact Nat.zero_le _
  · exact le_remarkStart_of_isBoundary boundary

theorem isOutside_start (placed : IsStatement payload offset fragment start stop) :
    isOutside payload start = true := by
  rcases placed.begins with rfl | boundary
  · exact isOutside_zero payload
  · exact isOutside_of_isBoundary placed.start_lt_length boundary

theorem head?_eq_remToken_iff (placed : IsStatement payload offset fragment start stop) :
    fragment.body.head? = some Keyword.remToken ↔
      payload[start]? = some Keyword.remToken := by
  have first : (payload.extract start stop).head? = payload[start]? := by
    have nonempty : stop - start ≠ 0 := by
      have forward := placed.ends.start_lt
      omega
    rw [List.extract_eq_take_drop, List.head?_take, if_neg nonempty, List.head?_drop]
  rw [← first, placed.spelled]
  cases fragment.body with
  | nil =>
      have noColon : Punctuation.colon ≠ Keyword.remToken := by decide
      split <;> simp [noColon]
  | cons byte rest => simp

theorem isRemark_iff (placed : IsStatement payload offset fragment start stop) :
    fragment.isRemark = true ↔ start = remarkStart payload := by
  rw [Fragment.isRemark, decide_eq_true_iff, placed.statement, ofBody_eq_remark_iff,
    placed.head?_eq_remToken_iff]
  constructor
  · intro read
    have begins : beginsRemark payload start = true := by
      simp [beginsRemark, read, placed.isOutside_start]
    exact Nat.le_antisymm placed.start_le_remarkStart
      (remarkStart_le_of_beginsRemark begins)
  · rintro rfl
    have begins := beginsRemark_remarkStart placed.start_lt_length
    simp only [beginsRemark, Bool.and_eq_true, decide_eq_true_eq] at begins
    exact begins.1

theorem stop_eq_length_of_isRemark
    (placed : IsStatement payload offset fragment start stop)
    (remark : fragment.isRemark = true) :
    stop = payload.length := by
  refine placed.ends.divided.resolve_right fun boundary => ?_
  have begins := placed.isRemark_iff.1 remark
  have inFront := le_remarkStart_of_isBoundary boundary
  have forward := placed.ends.start_lt
  omega

/-- No REM token outside of literals stands in a statement that is no remark. -/
theorem isOutside_eq_false_of_remToken
    {position : Nat}
    (placed : IsStatement payload offset fragment start stop)
    (noRemark : fragment.isRemark = false)
    (before : position < stop)
    (read : payload[position]? = some Keyword.remToken) :
    isOutside payload position = false := by
  by_contra outside
  have begins : beginsRemark payload position = true := by
    simpa [beginsRemark, read] using outside
  have reached := remarkStart_le_of_beginsRemark begins
  have inFront := placed.start_le_remarkStart
  have different : start ≠ remarkStart payload := by
    intro equality
    rw [placed.isRemark_iff.2 equality] at noRemark
    contradiction
  exact placed.ends.undivided (remarkStart payload) (by omega) (by omega)
    (Or.inr (Or.inl rfl))

end IsStatement

end Applesoft.Payload

namespace Applesoft.Line

open Payload

/-- The fragments of a line begin and end at the boundaries of its payload and nowhere else. So they
begin outside of literals, a remark is the last of them, and no other fragment has a REM token
outside of literals. -/
theorem fragments_follow_boundaries (record : Record) :
    let fragments := (Line.ofRecord record).fragments
    let payload := record.payload
    fragments.map Fragment.start = (starts payload).map (record.payloadStart + ·) ∧
      fragments.map Fragment.stop = (stops payload).map (record.payloadStart + ·) ∧
      (∀ fragment ∈ fragments,
        isOutside payload (fragment.start - record.payloadStart) = true) ∧
      (∀ fragment ∈ fragments, fragment.isRemark = true →
        fragments.getLast? = some fragment) ∧
      ∀ fragment ∈ fragments, fragment.isRemark = false →
        ∀ position, fragment.start ≤ record.payloadStart + position →
          record.payloadStart + position < fragment.stop →
          payload[position]? = some Keyword.remToken →
            isOutside payload position = false := by
  intro fragments payload
  have run := runBetweenBoundaries_divide payload
  have places :
      fragments = placeSegments (record.payloadStart + 0) true
        (Mark.segments (Mark.divide (Lexeme.scan payload))) := rfl
  refine ⟨?_, ?_, ?_, ?_, ?_⟩
  · rw [places, map_start_placeSegments run, starts, List.range_eq_range', Nat.sub_zero]
  · rw [places, map_stop_placeSegments run, stops, Nat.sub_zero]
  · intro fragment member
    obtain ⟨start, stop, placed⟩ := isStatement_of_mem_fragments member
    rw [placed.start_eq, Nat.add_sub_cancel_left]
    exact placed.isOutside_start
  · intro fragment member remark
    obtain ⟨start, stop, placed⟩ := isStatement_of_mem_fragments member
    have reaches : fragment.stop = record.payloadStart + payload.length := by
      rw [placed.stop_eq, placed.stop_eq_length_of_isRemark remark]
    rw [places] at member ⊢
    exact getLast?_placeSegments run member reaches
  · intro fragment member noRemark position _ before read
    obtain ⟨start, stop, placed⟩ := isStatement_of_mem_fragments member
    rw [placed.stop_eq] at before
    exact placed.isOutside_eq_false_of_remToken noRemark (by omega) read

end Applesoft.Line
