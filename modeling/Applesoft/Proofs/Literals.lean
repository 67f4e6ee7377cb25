import Applesoft.Proofs.Division
import Applesoft.Proofs.Records

namespace Applesoft.Payload

/-- The position behind the first quote from a position on; the length of the payload if there is
none. -/
def literalStop (payload : Bytes) (position : Nat) : Nat :=
  min payload.length
    (position + ((payload.drop position).takeWhile (· ≠ Punctuation.quote)).length + 1)

def opensLiteral (payload : Bytes) (position : Nat) : Bool :=
  HasCode payload Punctuation.quote position

/-- Where the literals of a payload begin and end. -/
def literalSpans (payload : Bytes) : List (Nat × Nat) :=
  ((List.range payload.length).filter (opensLiteral payload)).map fun position =>
    (position, literalStop payload (position + 1))

/-- The lexeme that begins at a position, if there is one. -/
def lexemeAt (payload : Bytes) (position : Nat) : Option Lexeme :=
  if position = remarkStart payload then
    some (.remark (payload.drop position))
  else if position < remarkStart payload ∧ isOutside payload position = true then
    if payload[position]? = some Punctuation.quote then
      some (.literal (payload.extract position (literalStop payload (position + 1))))
    else
      payload[position]?.map .code
  else
    none

/-- The lexemes that begin at a position or behind it. -/
def lexemesFrom (payload : Bytes) (position : Nat) : List Lexeme :=
  (List.range' position (payload.length - position)).filterMap (lexemeAt payload)

section Step

variable {payload : Bytes} {position : Nat}

theorem lexemesFrom_length : lexemesFrom payload payload.length = [] := by
  rw [lexemesFrom, Nat.sub_self]
  rfl

theorem lexemesFrom_eq (inPayload : position < payload.length) :
    lexemesFrom payload position =
      (lexemeAt payload position).toList ++ lexemesFrom payload (position + 1) := by
  rw [lexemesFrom, range'_eq_cons inPayload, List.filterMap_cons, lexemesFrom]
  cases lexemeAt payload position with
  | none => rfl
  | some lexeme => rfl

theorem lexemesFrom_remarkStart (present : remarkStart payload < payload.length) :
    lexemesFrom payload (remarkStart payload) =
      [.remark (payload.drop (remarkStart payload))] := by
  have nothing : lexemesFrom payload (remarkStart payload + 1) = [] := by
    rw [lexemesFrom, List.filterMap_eq_nil_iff]
    intro later member
    have behind := (List.mem_range'_1.1 member).1
    rw [lexemeAt, if_neg (by omega), if_neg (by omega)]
  rw [lexemesFrom_eq present, nothing, lexemeAt, if_pos rfl]
  rfl

theorem literalStop_succ
    {byte : UInt8} (read : payload[position]? = some byte)
    (noQuote : byte ≠ Punctuation.quote) :
    literalStop payload (position + 1) = literalStop payload position := by
  obtain ⟨inPayload, rfl⟩ := List.getElem?_eq_some_iff.1 read
  rw [literalStop, literalStop, List.drop_eq_getElem_cons inPayload,
    List.takeWhile_cons_of_pos (by simpa using noQuote), List.length_cons]
  omega

theorem literalStop_of_quote (read : payload[position]? = some Punctuation.quote) :
    literalStop payload position = position + 1 := by
  obtain ⟨inPayload, shape⟩ := List.getElem?_eq_some_iff.1 read
  rw [literalStop, List.drop_eq_getElem_cons inPayload, shape,
    List.takeWhile_cons_of_neg (by simp)]
  simp only [List.length_nil]
  omega

theorem literalStop_length : literalStop payload payload.length = payload.length := by
  rw [literalStop]
  omega

end Step

/-- What the scan has gathered of a literal at a position: the bytes from the quote that opened it,
and no other quote. -/
structure Opened (payload : Bytes) (start position : Nat) (contents : Bytes) : Prop where
  before : start < position
  gathered : contents.reverse = payload.extract start position
  stop : literalStop payload (start + 1) = literalStop payload position

theorem extract_succ
    {payload : Bytes} {start position : Nat} {byte : UInt8}
    (before : start ≤ position) (read : payload[position]? = some byte) :
    payload.extract start (position + 1) = payload.extract start position ++ [byte] := by
  have single : payload.extract position (position + 1) = [byte] := by
    obtain ⟨inPayload, rfl⟩ := List.getElem?_eq_some_iff.1 read
    rw [List.extract_eq_take_drop, Nat.add_sub_cancel_left, List.drop_eq_getElem_cons inPayload]
    rfl
  rw [← single, extract_append_extract payload before (Nat.le_succ position)]

section Scan

variable {payload : Bytes} {start position : Nat} {byte : UInt8} {contents : Bytes}

theorem opened_of_quote (read : payload[position]? = some Punctuation.quote) :
    Opened payload position (position + 1) [Punctuation.quote] where
  before := Nat.lt_succ_self position
  gathered := by
    have empty : payload.extract position position = [] := by simp [List.extract_eq_take_drop]
    rw [extract_succ (Nat.le_refl position) read, empty]
    rfl
  stop := rfl

theorem Opened.advance
    (opened : Opened payload start position contents)
    (read : payload[position]? = some byte) (noQuote : byte ≠ Punctuation.quote) :
    Opened payload start (position + 1) (byte :: contents) where
  before := Nat.lt_succ_of_lt opened.before
  gathered := by
    rw [List.reverse_cons, opened.gathered, extract_succ (Nat.le_of_lt opened.before) read]
  stop := by rw [opened.stop, literalStop_succ read noQuote]

theorem Opened.close
    (opened : Opened payload start position contents)
    (read : payload[position]? = some Punctuation.quote) :
    (Punctuation.quote :: contents).reverse =
      payload.extract start (literalStop payload (start + 1)) := by
  rw [List.reverse_cons, opened.gathered, opened.stop, literalStop_of_quote read,
    extract_succ (Nat.le_of_lt opened.before) read]

theorem lexemesFrom_of_inside
    (inPayload : position < payload.length)
    (inFront : position ≤ remarkStart payload)
    (inside : isOutside payload position = false) :
    position + 1 ≤ remarkStart payload ∧
      lexemesFrom payload position = lexemesFrom payload (position + 1) := by
  have absent : beginsRemark payload position = false := by simp [beginsRemark, inside]
  have onward := succ_le_remarkStart inPayload inFront absent
  have nothing : lexemeAt payload position = none := by
    rw [lexemeAt, if_neg (by omega), if_neg (by simp [inside])]
  rw [lexemesFrom_eq inPayload, nothing]
  exact ⟨onward, rfl⟩

theorem lexemesFrom_of_outside
    (read : payload[position]? = some byte)
    (inFront : position ≤ remarkStart payload)
    (outside : isOutside payload position = true)
    (noRemark : byte ≠ Keyword.remToken) :
    position + 1 ≤ remarkStart payload ∧
      lexemesFrom payload position =
        (if byte = Punctuation.quote then
            .literal (payload.extract position (literalStop payload (position + 1)))
          else
            .code byte) :: lexemesFrom payload (position + 1) := by
  have inPayload : position < payload.length := (List.getElem?_eq_some_iff.1 read).1
  have absent : beginsRemark payload position = false := by
    simp [beginsRemark, read, noRemark]
  have onward := succ_le_remarkStart inPayload inFront absent
  have here : lexemeAt payload position = some (if byte = Punctuation.quote then
      .literal (payload.extract position (literalStop payload (position + 1)))
    else
      .code byte) := by
    rw [lexemeAt, if_neg (by omega), if_pos ⟨by omega, outside⟩, read]
    by_cases quote : byte = Punctuation.quote
    · simp [quote]
    · simp [quote]
  rw [lexemesFrom_eq inPayload, here]
  exact ⟨onward, rfl⟩

end Scan

/-- The scan gives the lexemes that begin where it has come to or behind. Inside a literal it first
gives that literal. The induction is on the bytes that it has not read. -/
theorem scanFrom_drop
    (payload rest : Bytes) {position : Nat}
    (remaining : payload.drop position = rest)
    (inFront : position ≤ remarkStart payload) :
    (isOutside payload position = true →
      Lexeme.scanFrom none rest = lexemesFrom payload position) ∧
    ∀ start contents, isOutside payload position = false →
      Opened payload start position contents →
        Lexeme.scanFrom (some contents) rest =
          .literal (payload.extract start (literalStop payload (start + 1))) ::
            lexemesFrom payload position := by
  induction rest generalizing position with
  | nil =>
      have ended : position = payload.length := by
        have beyond := List.drop_eq_nil_iff.1 remaining
        have bound := remarkStart_le_length payload
        omega
      subst ended
      rw [lexemesFrom_length]
      refine ⟨fun _ => rfl, ?_⟩
      intro start contents _ opened
      rw [Lexeme.scanFrom, opened.stop, literalStop_length, opened.gathered]
  | cons byte rest hypothesis =>
      obtain ⟨read, remainingNext⟩ := getElem?_of_drop_eq_cons remaining
      have inPayload : position < payload.length := (List.getElem?_eq_some_iff.1 read).1
      have next := isOutside_succ payload position
      simp only [read, Option.some.injEq] at next
      constructor
      · intro outside
        rw [outside] at next
        rw [Lexeme.scanFrom]
        by_cases remark : byte = Keyword.remToken
        · have begins : beginsRemark payload position = true := by
            simp [beginsRemark, read, remark, outside]
          have reached : position = remarkStart payload :=
            Nat.le_antisymm inFront (remarkStart_le_of_beginsRemark begins)
          rw [if_pos remark, ← remaining, reached,
            lexemesFrom_remarkStart (reached ▸ inPayload)]
        · obtain ⟨onward, unfolded⟩ := lexemesFrom_of_outside read inFront outside remark
          rw [if_neg remark, unfolded]
          by_cases quote : byte = Punctuation.quote
          · subst quote
            rw [if_pos rfl] at next
            rw [if_pos rfl, if_pos rfl]
            exact (hypothesis remainingNext onward).2 position _ next (opened_of_quote read)
          · rw [if_neg quote] at next
            rw [if_neg quote, if_neg quote, (hypothesis remainingNext onward).1 next]
      · intro start contents inside opened
        obtain ⟨onward, unfolded⟩ := lexemesFrom_of_inside inPayload inFront inside
        rw [inside] at next
        rw [Lexeme.scanFrom, unfolded]
        by_cases quote : byte = Punctuation.quote
        · subst quote
          rw [if_pos rfl] at next
          rw [if_pos rfl, opened.close read, (hypothesis remainingNext onward).1 next]
        · rw [if_neg quote] at next
          rw [if_neg quote]
          exact (hypothesis remainingNext onward).2 start _ next (opened.advance read quote)

/-- The scan of a payload gives the lexemes that begin at its positions. -/
theorem scan_eq_lexemesFrom (payload : Bytes) :
    Lexeme.scan payload = lexemesFrom payload 0 :=
  (scanFrom_drop payload payload rfl (Nat.zero_le _)).1 (isOutside_zero payload)

theorem literals_scan (payload : Bytes) :
    Lexeme.literals (Lexeme.scan payload) =
      (literalSpans payload).map fun span => payload.extract span.1 span.2 := by
  rw [scan_eq_lexemesFrom, lexemesFrom, Lexeme.literals, literalSpans, Nat.sub_zero,
    ← List.range_eq_range', List.filterMap_filterMap, List.map_map,
    ← List.filterMap_eq_filter, List.map_filterMap]
  refine List.filterMap_congr fun position member => ?_
  have inPayload : position < payload.length := List.mem_range.1 member
  by_cases opens : HasCode payload Punctuation.quote position
  · have inFront := opens.1
    rw [lexemeAt, if_neg (by omega), if_pos ⟨inFront, opens.2.1⟩, if_pos opens.2.2]
    simp [opensLiteral, Option.guard, opens]
  · have apart : opensLiteral payload position = false := decide_eq_false opens
    simp only [Option.guard, apart, Bool.false_eq_true, if_false, Option.map_none]
    rw [lexemeAt]
    split
    · rfl
    · split
      · next code =>
          have noQuote : payload[position]? ≠ some Punctuation.quote := by
            intro read
            exact opens ⟨code.1, code.2, read⟩
          rw [if_neg noQuote, List.getElem?_eq_getElem inPayload]
          rfl
      · rfl

section Inside

variable {payload : Bytes} {start position : Nat}

theorem exists_opensLiteral_of_inside
    (inPayload : position < payload.length)
    (inFront : position ≤ remarkStart payload)
    (inside : isOutside payload position = false) :
    ∃ start < position, opensLiteral payload start = true ∧
      literalStop payload (start + 1) = literalStop payload position := by
  induction position with
  | zero =>
      rw [isOutside_zero] at inside
      cases inside
  | succ position hypothesis =>
      obtain ⟨byte, read⟩ : ∃ byte, payload[position]? = some byte :=
        ⟨_, List.getElem?_eq_getElem (Nat.lt_of_succ_lt inPayload)⟩
      have before := isOutside_succ payload position
      simp only [read, Option.some.injEq, inside] at before
      by_cases quote : byte = Punctuation.quote
      · subst quote
        have outside : isOutside payload position = true := by simpa using before
        refine ⟨position, Nat.lt_succ_self position, ?_, rfl⟩
        exact decide_eq_true ⟨inFront, outside, read⟩
      · rw [if_neg quote] at before
        obtain ⟨start, earlier, opens, stop⟩ :=
          hypothesis (Nat.lt_of_succ_lt inPayload) (Nat.le_of_succ_le inFront) before.symm
        exact ⟨start, Nat.lt_succ_of_lt earlier, opens,
          stop.trans (literalStop_succ read quote).symm⟩

theorem inside_of_lt_literalStop
    (opens : opensLiteral payload start = true)
    (behind : start < position)
    (before : position < literalStop payload (start + 1)) :
    isOutside payload position = false ∧
      literalStop payload (start + 1) = literalStop payload position := by
  induction behind with
  | refl =>
      have code : HasCode payload Punctuation.quote start := of_decide_eq_true opens
      have next := isOutside_succ payload start
      rw [code.2.2, if_pos rfl, code.2.1] at next
      exact ⟨next, rfl⟩
  | @step position behind hypothesis =>
      obtain ⟨inside, stop⟩ := hypothesis (Nat.lt_of_succ_lt before)
      have inPayload : position < payload.length := by
        have bound : literalStop payload (start + 1) ≤ payload.length := Nat.min_le_left _ _
        omega
      obtain ⟨byte, read⟩ : ∃ byte, payload[position]? = some byte :=
        ⟨_, List.getElem?_eq_getElem inPayload⟩
      have noQuote : byte ≠ Punctuation.quote := by
        rintro rfl
        rw [stop, literalStop_of_quote read] at before
        exact Nat.lt_irrefl _ before
      have next := isOutside_succ payload position
      simp only [read, Option.some.injEq, noQuote, if_false, inside] at next
      exact ⟨next, stop.trans (literalStop_succ read noQuote).symm⟩

/-- A position in front of the remark is inside of literals if it is in the place of one, behind the
quote that opens it. -/
theorem isOutside_eq_false_iff (inFront : position < remarkStart payload) :
    isOutside payload position = false ↔
      ∃ span ∈ literalSpans payload, span.1 < position ∧ position < span.2 := by
  have inPayload : position < payload.length :=
    Nat.lt_of_lt_of_le inFront (remarkStart_le_length payload)
  constructor
  · intro inside
    obtain ⟨start, before, opens, stop⟩ :=
      exists_opensLiteral_of_inside inPayload (Nat.le_of_lt inFront) inside
    refine ⟨(start, literalStop payload (start + 1)), ?_, before, ?_⟩
    · refine List.mem_map.2 ⟨start, List.mem_filter.2 ⟨?_, opens⟩, rfl⟩
      exact List.mem_range.2 (Nat.lt_trans before inPayload)
    · rw [stop, literalStop]
      omega
  · rintro ⟨span, member, behind, before⟩
    obtain ⟨start, filtered, rfl⟩ := List.mem_map.1 member
    exact (inside_of_lt_literalStop (List.mem_filter.1 filtered).2 behind before).1

end Inside

end Applesoft.Payload
