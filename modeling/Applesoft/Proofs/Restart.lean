import Applesoft.Proofs.Division
import Applesoft.Proofs.Records

namespace Applesoft

namespace Lexeme

/-- Whether lexemes are those of a scan: literals begin with their only quote or end with a second
one, and nothing is behind a remark or a literal without a second quote. -/
def IsScanned : List Lexeme → Prop
  | [] => True
  | .code byte :: rest =>
      byte ≠ Keyword.remToken ∧ byte ≠ Punctuation.quote ∧ IsScanned rest
  | .literal contents :: rest =>
      ∃ inner, Punctuation.quote ∉ inner ∧
        (contents = Punctuation.quote :: (inner ++ [Punctuation.quote]) ∧ IsScanned rest ∨
          contents = Punctuation.quote :: inner ∧ rest = [])
  | .remark contents :: rest => contents.head? = some Keyword.remToken ∧ rest = []

theorem IsScanned.of_append
    {left right : List Lexeme} (scanned : IsScanned (left ++ right)) :
    IsScanned left ∧ IsScanned right := by
  induction left with
  | nil => exact ⟨trivial, scanned⟩
  | cons lexeme rest hypothesis =>
      cases lexeme with
      | code byte =>
          obtain ⟨noRemark, noQuote, others⟩ := scanned
          obtain ⟨left, right⟩ := hypothesis others
          exact ⟨⟨noRemark, noQuote, left⟩, right⟩
      | literal contents =>
          obtain ⟨inner, free, ⟨closed, others⟩ | ⟨opened, last⟩⟩ := scanned
          · obtain ⟨left, right⟩ := hypothesis others
            exact ⟨⟨inner, free, Or.inl ⟨closed, left⟩⟩, right⟩
          · obtain ⟨rfl, rfl⟩ := List.append_eq_nil_iff.1 last
            exact ⟨⟨inner, free, Or.inr ⟨opened, rfl⟩⟩, trivial⟩
      | remark contents =>
          obtain ⟨begins, last⟩ := scanned
          obtain ⟨rfl, rfl⟩ := List.append_eq_nil_iff.1 last
          exact ⟨⟨begins, rfl⟩, trivial⟩

theorem IsScanned.of_within
    {part whole : List Lexeme} (scanned : IsScanned whole) (inside : part <:+: whole) :
    IsScanned part := by
  obtain ⟨front, rear, rfl⟩ := inside
  exact scanned.of_append.1.of_append.2

theorem isScanned_scanFrom
    (opened : Option Bytes) (payload : Bytes)
    (begun : ∀ contents ∈ opened, ∃ inner, Punctuation.quote ∉ inner ∧
      contents.reverse = Punctuation.quote :: inner) :
    IsScanned (scanFrom opened payload) := by
  induction payload generalizing opened with
  | nil =>
      cases opened with
      | none => trivial
      | some contents =>
          obtain ⟨inner, free, shape⟩ := begun contents rfl
          exact ⟨inner, free, Or.inr ⟨shape, rfl⟩⟩
  | cons byte rest hypothesis =>
      cases opened with
      | none =>
          rw [scanFrom]
          by_cases remark : byte = Keyword.remToken
          · rw [if_pos remark]
            exact ⟨congrArg some remark, rfl⟩
          · rw [if_neg remark]
            by_cases quote : byte = Punctuation.quote
            · rw [if_pos quote]
              apply hypothesis
              rintro contents ⟨⟩
              exact ⟨[], List.not_mem_nil, by rw [quote]; rfl⟩
            · rw [if_neg quote]
              exact ⟨remark, quote, hypothesis none (by simp)⟩
      | some contents =>
          obtain ⟨inner, free, shape⟩ := begun contents rfl
          rw [scanFrom]
          by_cases quote : byte = Punctuation.quote
          · rw [if_pos quote]
            refine ⟨inner, free, Or.inl ⟨?_, hypothesis none (by simp)⟩⟩
            rw [List.reverse_cons, shape, quote]
            rfl
          · rw [if_neg quote]
            apply hypothesis
            rintro more ⟨⟩
            refine ⟨inner ++ [byte], ?_, ?_⟩
            · rw [List.mem_append, not_or]
              exact ⟨free, by simpa using Ne.symm quote⟩
            · rw [List.reverse_cons, shape]
              rfl

theorem scanFrom_some_append
    (contents inner rest : Bytes) (free : Punctuation.quote ∉ inner) :
    scanFrom (some contents) (inner ++ rest) =
      scanFrom (some (inner.reverse ++ contents)) rest := by
  induction inner generalizing contents with
  | nil => rfl
  | cons byte others hypothesis =>
      rw [List.mem_cons, not_or] at free
      rw [List.cons_append, scanFrom, if_neg (Ne.symm free.1), hypothesis _ free.2,
        List.reverse_cons, List.append_assoc]
      rfl

/-- Lexemes of a scan are those of the bytes that they spell. -/
theorem IsScanned.scan_spell
    {lexemes : List Lexeme} (scanned : IsScanned lexemes) :
    scan (spell lexemes) = lexemes := by
  have quoteNoRemark : Punctuation.quote ≠ Keyword.remToken := by decide
  rw [scan]
  induction lexemes with
  | nil => rfl
  | cons lexeme rest hypothesis =>
      rw [spell_cons]
      cases lexeme with
      | code byte =>
          obtain ⟨noRemark, noQuote, others⟩ := scanned
          rw [bytes, List.singleton_append, scanFrom, if_neg noRemark, if_neg noQuote,
            hypothesis others]
      | literal contents =>
          rw [bytes]
          obtain ⟨inner, free, ⟨rfl, others⟩ | ⟨rfl, rfl⟩⟩ := scanned
          · rw [List.cons_append, scanFrom, if_neg quoteNoRemark, if_pos rfl, List.append_assoc,
              scanFrom_some_append _ _ _ free, List.singleton_append, scanFrom, if_pos rfl,
              hypothesis others]
            simp
          · rw [List.cons_append, scanFrom, if_neg quoteNoRemark, if_pos rfl,
              scanFrom_some_append _ _ _ free]
            simp [spell, scanFrom]
      | remark contents =>
          obtain ⟨begins, rfl⟩ := scanned
          cases contents with
          | nil => cases begins
          | cons first others =>
              obtain rfl := Option.some.inj begins
              rw [bytes, List.cons_append, scanFrom, if_pos rfl]
              simp [spell]

end Lexeme

theorem Mark.eq_of_mem_segments_flush
    {gathered : List Lexeme} {segment : Segment}
    (member : segment ∈ segments (flush gathered)) :
    segment.lexemes = gathered.reverse := by
  cases gathered with
  | nil => cases member
  | cons lexeme rest =>
      obtain rfl := List.mem_singleton.1 member
      rfl

theorem Mark.within_of_mem_segments
    {awaiting : Bool} {gathered lexemes : List Lexeme} {segment : Segment}
    (member : segment ∈ segments (divideFrom awaiting gathered lexemes)) :
    segment.lexemes <:+: gathered.reverse ++ lexemes := by
  induction lexemes generalizing awaiting gathered with
  | nil =>
      rw [divideFrom, segments_append, segments_unfinished, List.nil_append] at member
      rw [eq_of_mem_segments_flush member]
      exact ⟨[], [], by simp⟩
  | cons lexeme rest hypothesis =>
      -- Segments that are still to come have their lexemes behind those that are gathered.
      have later {awaiting : Bool}
          (member : segment ∈ segments (divideFrom awaiting [] rest)) :
          segment.lexemes <:+: gathered.reverse ++ lexeme :: rest := by
        refine (hypothesis member).trans (List.IsSuffix.isInfix ?_)
        exact ⟨gathered.reverse ++ [lexeme], by simp⟩
      have going {awaiting : Bool}
          (member : segment ∈ segments (divideFrom awaiting (lexeme :: gathered) rest)) :
          segment.lexemes <:+: gathered.reverse ++ lexeme :: rest := by
        simpa using hypothesis member
      have closed (shape : segment.lexemes = gathered.reverse) :
          segment.lexemes <:+: gathered.reverse ++ lexeme :: rest := by
        rw [shape]
        exact (List.prefix_append _ _).isInfix
      cases lexeme with
      | literal contents => exact going member
      | remark contents =>
          simp only [divideFrom, segments_append, segments_unfinished, segments_cons,
            segments_stray, List.nil_append, List.append_nil, List.mem_append,
            List.mem_cons] at member
          rcases member with flushed | rfl | rest
          · exact closed (eq_of_mem_segments_flush flushed)
          · exact ⟨gathered.reverse, rest, by simp⟩
          · exact later rest
      | code byte =>
          rw [divideFrom] at member
          split at member
          · rw [segments_append, segments_unfinished, List.nil_append, segments_cons,
              List.mem_cons] at member
            rcases member with rfl | rest
            · exact closed rfl
            · exact later rest
          · split at member
            · exact going member
            · split at member
              · rw [segments_cons, List.mem_cons] at member
                rcases member with rfl | rest
                · exact ⟨[], rest, by simp⟩
                · exact later rest
              · split at member
                · rw [segments_append, List.mem_append] at member
                  rcases member with flushed | rest
                  · exact closed (eq_of_mem_segments_flush flushed)
                  · refine (hypothesis rest).trans (List.IsSuffix.isInfix ?_)
                    exact ⟨gathered.reverse, by simp⟩
                · exact going member

/-- A segment of a line, read on its own, has the lexemes that it has in the line. -/
theorem Segment.scan_body
    {payload : Bytes} {segment : Segment}
    (member : segment ∈ Mark.segments (Mark.divide (Lexeme.scan payload))) :
    Lexeme.scan segment.body = segment.lexemes := by
  have scanned : Lexeme.IsScanned (Lexeme.scan payload) :=
    Lexeme.isScanned_scanFrom none payload (by simp)
  exact (scanned.of_within (Mark.within_of_mem_segments member)).scan_spell

namespace Payload

namespace IsStatement

variable {payload : Bytes} {offset start stop : Nat} {fragment : Fragment}

theorem drop_start (placed : IsStatement payload offset fragment start stop) :
    payload.drop start = fragment.body ++ payload.drop (start + fragment.body.length) := by
  have split : payload.drop start = payload.extract start stop ++ payload.drop stop := by
    have reached : start + (stop - start) = stop := by
      have forward := placed.ends.start_lt
      omega
    rw [List.extract_eq_take_drop, ← reached, Nat.add_sub_cancel_left, ← List.drop_drop,
      List.take_append_drop]
  rw [placed.spelled, List.append_assoc] at split
  rw [drop_add_length split]
  exact split

theorem start_add_length_body (placed : IsStatement payload offset fragment start stop) :
    start + fragment.body.length =
      if HasCode payload Punctuation.colon (stop - 1) then stop - 1 else stop := by
  have lengths := congrArg List.length placed.spelled
  rw [List.length_append, List.extract_eq_take_drop, List.length_take, List.length_drop] at lengths
  have forward := placed.ends.start_lt
  have inside := placed.stop_le
  by_cases colon : HasCode payload Punctuation.colon (stop - 1)
  · rw [if_pos colon, List.length_singleton] at lengths
    rw [if_pos colon]
    omega
  · rw [if_neg colon, List.length_nil] at lengths
    rw [if_neg colon]
    omega

theorem getElem?_body
    {position : Nat}
    (placed : IsStatement payload offset fragment start stop)
    (inBody : position < fragment.body.length) :
    fragment.body[position]? = payload[start + position]? := by
  rw [← List.getElem?_drop, placed.drop_start, List.getElem?_append_left inBody]

/-- The quotes of a statement can be counted from its first byte. -/
theorem isOutside_body
    {position : Nat}
    (placed : IsStatement payload offset fragment start stop)
    (inBody : position ≤ fragment.body.length) :
    isOutside fragment.body position = isOutside payload (start + position) := by
  have split : (payload.take (start + position)).count Punctuation.quote =
      (payload.take start).count Punctuation.quote +
        (fragment.body.take position).count Punctuation.quote := by
    rw [List.take_add, List.count_append, placed.drop_start, List.take_append_of_le_length inBody]
  have before := placed.isOutside_start
  simp only [isOutside, decide_eq_true_eq] at before
  simp only [isOutside, split, decide_eq_decide]
  omega

theorem remarkStart_body
    (placed : IsStatement payload offset fragment start stop)
    (noRemark : fragment.isRemark = false) :
    remarkStart fragment.body = fragment.body.length := by
  by_contra different
  have present : remarkStart fragment.body < fragment.body.length :=
    Nat.lt_of_le_of_ne (remarkStart_le_length _) different
  have begins := beginsRemark_remarkStart present
  rw [beginsRemark, placed.getElem?_body present,
    placed.isOutside_body (Nat.le_of_lt present), Bool.and_eq_true, decide_eq_true_eq] at begins
  have inside := placed.isOutside_eq_false_of_remToken noRemark ?_ begins.1
  · rw [begins.2] at inside
    contradiction
  · have reached := placed.start_add_length_body
    split at reached
    · omega
    · omega

end IsStatement

end Payload

end Applesoft
