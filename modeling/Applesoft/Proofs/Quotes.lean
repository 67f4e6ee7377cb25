import Applesoft.Proofs.References

/-!
Literals told from the quotes of a line. The quotes before the remark of a line, taken two by two,
open and close its literals. A last quote without another one opens a literal that goes on to the
end of the line.

The main statement is that the table of strings has these literals, line by line, and nothing else.
-/

namespace Applesoft.Payload

/-- The positions of the quotes before the remark of a payload. -/
def quotePositions (payload : Bytes) : List Nat :=
  (List.range (remarkStart payload)).filter fun position =>
    payload[position]? = some Punctuation.quote

/-- The spans from each odd-numbered position up to the next one, which is included, and from a last
position without another one up to a stop. -/
def pairUp (stop : Nat) : List Nat → List (Nat × Nat)
  | [] => []
  | [last] => [(last, stop)]
  | opening :: closing :: rest => (opening, closing + 1) :: pairUp stop rest

/-- The places of the literals of a line, told from its quotes alone. -/
def quotedSpans (payload : Bytes) : List (Nat × Nat) :=
  pairUp payload.length (quotePositions payload)

/-- The positions of the quotes from a position on, up to the remark. -/
def quotesFrom (payload : Bytes) (position : Nat) : List Nat :=
  (List.range' position (remarkStart payload - position)).filter fun position =>
    payload[position]? = some Punctuation.quote

/-- The spans of the literals that open from a position on. -/
def spansFrom (payload : Bytes) (position : Nat) : List (Nat × Nat) :=
  ((List.range' position (remarkStart payload - position)).filter (opensLiteral payload)).map
    fun position => (position, literalStop payload (position + 1))

section Step

variable {payload : Bytes} {position : Nat}

theorem quotesFrom_eq (inFront : position < remarkStart payload) :
    quotesFrom payload position =
      if payload[position]? = some Punctuation.quote then
        position :: quotesFrom payload (position + 1)
      else
        quotesFrom payload (position + 1) := by
  rw [quotesFrom, range'_eq_cons inFront, List.filter_cons]
  simp only [decide_eq_true_eq]
  rfl

theorem spansFrom_eq (inFront : position < remarkStart payload) :
    spansFrom payload position =
      if opensLiteral payload position = true then
        (position, literalStop payload (position + 1)) :: spansFrom payload (position + 1)
      else
        spansFrom payload (position + 1) := by
  rw [spansFrom, range'_eq_cons inFront, List.filter_cons]
  split
  · rfl
  · rfl

theorem opensLiteral_iff (inFront : position < remarkStart payload) :
    opensLiteral payload position = true ↔
      isOutside payload position = true ∧ payload[position]? = some Punctuation.quote := by
  rw [opensLiteral, decide_eq_true_eq]
  exact ⟨And.right, fun code => ⟨inFront, code⟩⟩

/-- A literal that is still open at the remark is one without a remark behind it. -/
theorem literalStop_remarkStart (inside : isOutside payload (remarkStart payload) = false) :
    literalStop payload (remarkStart payload) = payload.length := by
  rcases Nat.lt_or_eq_of_le (remarkStart_le_length payload) with present | absent
  · have begins := beginsRemark_remarkStart present
    rw [beginsRemark, inside, Bool.and_false] at begins
    cases begins
  · rw [absent, literalStop_length]

end Step

/-- The quotes from a position on pair up to the literals that open there. Inside of a literal the
first of them closes the literal that is open. -/
theorem pairUp_quotesFrom
    {payload : Bytes} {position : Nat} (inFront : position ≤ remarkStart payload) :
    (isOutside payload position = true →
      pairUp payload.length (quotesFrom payload position) = spansFrom payload position) ∧
    (isOutside payload position = false → ∀ start,
      pairUp payload.length (start :: quotesFrom payload position) =
        (start, literalStop payload position) :: spansFrom payload position) := by
  induction left : remarkStart payload - position generalizing position with
  | zero =>
      obtain rfl : position = remarkStart payload := by omega
      have noQuotes : quotesFrom payload (remarkStart payload) = [] := by
        rw [quotesFrom, left]
        rfl
      have noSpans : spansFrom payload (remarkStart payload) = [] := by
        rw [spansFrom, left]
        rfl
      rw [noQuotes, noSpans]
      refine ⟨fun _ => rfl, fun inside start => ?_⟩
      rw [literalStop_remarkStart inside, pairUp]
  | succ left hypothesis =>
      have here : position < remarkStart payload := by omega
      obtain ⟨outsideNext, insideNext⟩ := @hypothesis (position + 1) here (by omega)
      have next := isOutside_succ payload position
      have opens := opensLiteral_iff here
      rw [quotesFrom_eq here, spansFrom_eq here]
      by_cases quote : payload[position]? = some Punctuation.quote
      · rw [if_pos quote] at next
        rw [if_pos quote]
        constructor
        · intro outside
          rw [outside] at next
          rw [if_pos (opens.2 ⟨outside, quote⟩), insideNext next]
        · intro inside start
          rw [inside] at next
          rw [if_neg (by simp [opens, inside]), pairUp, outsideNext next, literalStop_of_quote quote]
      · rw [if_neg quote] at next
        rw [if_neg quote, if_neg (by simp [opens, quote])]
        constructor
        · intro outside
          exact outsideNext (next.trans outside)
        · intro inside start
          have inPayload := Nat.lt_of_lt_of_le here (remarkStart_le_length payload)
          have read := List.getElem?_eq_getElem inPayload
          rw [insideNext (next.trans inside), literalStop_succ read]
          rintro same
          exact quote (same ▸ read)

/-- The literals of a payload are those of its pairs of quotes. -/
theorem literalSpans_eq_quotedSpans (payload : Bytes) :
    literalSpans payload = quotedSpans payload := by
  have split := range'_append_range' (Nat.zero_le _) (remarkStart_le_length payload)
  have behind : (List.range' (remarkStart payload) (payload.length - remarkStart payload)).filter
      (opensLiteral payload) = [] := by
    rw [List.filter_eq_nil_iff]
    intro position member
    have beyond := (List.mem_range'_1.1 member).1
    rw [opensLiteral, decide_eq_true_eq]
    exact fun code => absurd code.1 (Nat.not_lt_of_le beyond)
  have whole : literalSpans payload = spansFrom payload 0 := by
    rw [literalSpans, List.range_eq_range', ← Nat.sub_zero payload.length, ← split,
      List.filter_append, behind, List.append_nil]
    rfl
  rw [whole, ← (pairUp_quotesFrom (Nat.zero_le _)).1 (isOutside_zero payload), quotedSpans,
    quotePositions, List.range_eq_range']
  rfl

/-- A literal is not ended by a colon, nor by tokens that divide a line or begin a remark outside of
literals. -/
example :
    literalSpans [0x83, 0x22, 0x3A, 0xB2, 0x22, 0x2C, 0x22, 0x22, 0x3A, 0xB2, 0x22] =
      [(1, 5), (6, 8)] := by
  decide

end Applesoft.Payload

namespace Applesoft.Program

/-- The table of strings has the literals of a program in its order and nothing else: for each line,
whose number and payload are what the image has in its place, the stretches of the payload between
its quotes, read as UTF-8. -/
theorem strings_follow_quotes (image : Bytes) :
    let program := decode image
    program.symbols.strings =
        program.lines.flatMap (fun line =>
          let payload := line.record.payload
          (Payload.quotedSpans payload).map fun span =>
            (line.number, Utf8.decode (payload.extract span.1 span.2))) ∧
      ∀ line ∈ program.lines, line.record.IsIn image := by
  intro program
  constructor
  · rw [Symbols.strings_eq, entriesOf_literal?_log, literals, List.map_flatMap]
    refine List.flatMap_congr fun line _ => ?_
    rw [List.map_map, Payload.literalSpans_eq_quotedSpans]
    rfl
  · intro line member
    obtain ⟨record, recordMember, rfl⟩ := List.mem_map.1 member
    exact (follow_records image).isIn recordMember

end Applesoft.Program
