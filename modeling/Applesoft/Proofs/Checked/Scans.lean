import Applesoft.Program
import Applesoft.Proofs.Checked.Names
import Applesoft.Proofs.Checked.Statements

namespace Applesoft.Checked

/-- Where the reading of a line has come to. -/
structure Scan where
  /-- Where the fragment begins that is under way. -/
  start : Nat
  position : Nat
  /-- Where the literal begins that is open. -/
  opened : Option Nat := none
  inRemark : Bool := false
  /-- Whether the fragment has an IF whose THEN or GOTO is still to come. -/
  awaiting : Bool := false
  /-- Whether no fragment of the line has been read. -/
  first : Bool := true

/-- What some bytes of a line bring to an end. -/
structure Yield where
  fragments : List Fragment := []
  literals : List Finding := []
  findings : List Finding := []

/-- What a whole line yields, and where it ends. -/
structure Reading extends Yield where
  stop : Nat
  terminated : Bool

def Yield.append (before behind : Yield) : Yield where
  fragments := before.fragments ++ behind.fragments
  literals := before.literals ++ behind.literals
  findings := before.findings ++ behind.findings

/-- The names that a statement is looked through for. -/
def references? (statement : Statement) (body : Bytes) : Option (List Text) :=
  if statement.hasVariables then names? body else some []

/-- A reading with what has been yielded before it. -/
def Reading.behind (reading : Reading) (yielded : Yield) : Reading :=
  { reading with toYield := yielded.append reading.toYield }

theorem Reading.behind_empty (reading : Reading) : reading.behind {} = reading :=
  rfl

/-- Reads the fragment between two places, whose body ends at a third one. A fragment without bytes
is none. -/
def close? (image : Bytes) (first : Bool) (start stop bodyStop : Nat) : Option Yield :=
  if stop ≤ start then
    some {}
  else do
    let body ← slice? image start bodyStop
    let statement ← ofBody? body
    let names ← references? statement body
    some {
      fragments := [⟨start, stop, first, body, statement⟩]
      findings := statement.findings ++ names.map Finding.reference }

def literal? (image : Bytes) (start stop : Nat) : Option Finding :=
  (slice? image start stop).map fun contents => .literal (Utf8.decode contents)

namespace Scan

/-- Begins a fragment at a place, behind what has been read of another one. -/
def begin (scan : Scan) (start : Nat) (closed : Yield) : Scan :=
  { scan with
    start := start
    awaiting := false
    first := scan.first && closed.fragments.isEmpty }

/-- Reads a byte of code. The next position is the one behind the byte. -/
def advanceCode? (image : Bytes) (scan : Scan) (byte : UInt8) (next : Nat) :
    Option (Scan × Yield) := do
  let onward := { scan with position := next }
  if byte = Keyword.ifToken then
    some ({ onward with awaiting := true }, {})
  else if byte = Keyword.thenToken && scan.awaiting then
    let closed ← close? image scan.first scan.start next next
    some (onward.begin next closed, closed)
  else if byte = Keyword.gotoToken && scan.awaiting then
    let place ← difference? next 1
    let closed ← close? image scan.first scan.start place place
    some (onward.begin place closed, closed)
  else if byte = Punctuation.colon then
    let place ← difference? next 1
    let closed ← close? image scan.first scan.start next place
    some (onward.begin next closed,
      { closed with
        findings := (Mark.unfinished scan.awaiting).flatMap Mark.findings ++ closed.findings })
  else if byte = Keyword.remToken then
    let place ← difference? next 1
    if place = scan.start then
      some ({ onward with inRemark := true }, {})
    else
      let closed ← close? image scan.first scan.start place place
      some ({ onward.begin place closed with inRemark := true, awaiting := scan.awaiting },
        { closed with findings := .anomaly .midLineRem :: closed.findings })
  else if byte = Punctuation.quote then
    let place ← difference? next 1
    some ({ onward with opened := some place }, {})
  else
    some (onward, {})

/-- Reads a byte of a line. -/
def advance? (image : Bytes) (scan : Scan) (byte : UInt8) (next : Nat) :
    Option (Scan × Yield) :=
  if scan.inRemark then
    some ({ scan with position := next }, {})
  else
    match scan.opened with
    | some start =>
        if byte = Punctuation.quote then
          (literal? image start next).map fun literal =>
            ({ scan with position := next, opened := none }, { literals := [literal] })
        else
          some ({ scan with position := next }, {})
    | none => scan.advanceCode? image byte next

/-- Reads the end of a line. -/
def finish? (image : Bytes) (scan : Scan) (terminated : Bool) : Option Reading := do
  let literals ←
    match scan.opened with
    | some start => (literal? image start scan.position).map ([·])
    | none => some []
  let closed ← close? image scan.first scan.start scan.position scan.position
  some {
    fragments := closed.fragments
    literals := literals
    findings := (Mark.unfinished scan.awaiting).flatMap Mark.findings ++ closed.findings
    stop := scan.position
    terminated := terminated }

/-- Reads on to the end of a line, which takes at most some rounds. -/
def run? (image : Bytes) : Nat → Scan → Option Reading
  | 0, _ => none
  | rounds + 1, scan =>
      if scan.position < image.length then do
        let byte ← image[scan.position]?
        if byte = 0 then
          scan.finish? image true
        else
          let next ← sum? wordLimit scan.position 1
          let (onward, yielded) ← scan.advance? image byte next
          let reading ← run? image rounds onward
          some (reading.behind yielded)
      else
        scan.finish? image false

end Scan

theorem placeSegments_append (offset : Nat) (first : Bool) (left right : List Segment) :
    placeSegments offset first (left ++ right) =
      placeSegments offset first left ++
        placeSegments (offset + (left.flatMap Segment.span).length) (first && left.isEmpty)
          right := by
  induction left generalizing offset first with
  | nil => simp [placeSegments]
  | cons segment rest hypothesis =>
      simp [placeSegments, hypothesis, Nat.add_assoc]

/-- What some marks yield, whose first segment begins at an offset. -/
def Yield.ofMarks (offset : Nat) (first : Bool) (marks : List Mark) : Yield where
  fragments := placeSegments offset first (Mark.segments marks)
  findings := marks.flatMap Mark.findings

/-- Whether the names in the body of a segment are those of its lexemes, as far as it is looked
through. -/
def HasNames (segment : Segment) : Prop :=
  (Statement.ofBody segment.body).hasVariables = true →
    names? segment.body = some (Variable.names segment.lexemes)

section Closing

variable {image before after : Bytes} {first : Bool} {segment : Segment}

theorem close?_segment
    (shape : image = before ++ (segment.body ++ after)) (nonempty : segment.span ≠ [])
    (named : HasNames segment) :
    close? image first before.length (before.length + segment.span.length)
        (before.length + segment.body.length) =
      some (Yield.ofMarks before.length first [.segment segment]) := by
  have positive := List.length_pos_iff.2 nonempty
  have cut : slice? image before.length (before.length + segment.body.length) =
      some segment.body := by
    rw [shape]
    exact slice?_append_append _ _ _
  have names : references? (Statement.ofBody segment.body) segment.body =
      some (if (Statement.ofBody segment.body).hasVariables then
        Variable.names segment.lexemes else []) := by
    rw [references?]
    by_cases looked : (Statement.ofBody segment.body).hasVariables = true
    · rw [if_pos looked, if_pos looked, named looked]
    · rw [if_neg looked, if_neg looked]
  rw [close?, if_neg (by omega), cut]
  simp only [Option.bind_eq_bind, Option.bind_some, ofBody?_eq, names, Yield.ofMarks,
    Mark.segments, List.filterMap_cons, List.filterMap_nil, placeSegments, List.flatMap_singleton,
    Mark.findings, Segment.findings]
  by_cases looked : (Statement.ofBody segment.body).hasVariables = true
  · rw [if_pos looked, if_pos looked]
  · rw [if_neg looked, if_neg looked]
    rfl

theorem spell_reverse_ne_nil
    {lexeme : Lexeme} (solid : lexeme.bytes ≠ []) (rest : List Lexeme) :
    Lexeme.spell (lexeme :: rest).reverse ≠ [] := by
  rw [List.reverse_cons, Lexeme.spell_append]
  intro empty
  exact solid (by simpa [Lexeme.spell] using (List.append_eq_nil_iff.1 empty).2)

/-- What has been gathered forms a fragment, unless it is nothing. -/
theorem close?_flush
    {gathered : List Lexeme}
    (shape : image = before ++ (Lexeme.spell gathered.reverse ++ after))
    (solid : ∀ lexeme ∈ gathered, lexeme.bytes ≠ [])
    (named : ∀ segment ∈ Mark.segments (Mark.flush gathered), HasNames segment) :
    close? image first before.length (before.length + (Lexeme.spell gathered.reverse).length)
        (before.length + (Lexeme.spell gathered.reverse).length) =
      some (Yield.ofMarks before.length first (Mark.flush gathered)) := by
  cases gathered with
  | nil =>
      rw [close?, if_pos (by simp [Lexeme.spell])]
      rfl
  | cons lexeme rest =>
      have span : (Segment.mk (lexeme :: rest).reverse false).span =
          Lexeme.spell (lexeme :: rest).reverse := List.append_nil _
      have nonempty : (Segment.mk (lexeme :: rest).reverse false).span ≠ [] := by
        rw [span]
        exact spell_reverse_ne_nil (solid lexeme List.mem_cons_self) rest
      have closed := @close?_segment image before after first
        ⟨(lexeme :: rest).reverse, false⟩ shape nonempty (named _ List.mem_cons_self)
      rw [span] at closed
      exact closed

end Closing

/-- What a byte of code brings to an end, the IF that is awaited behind it, and what is gathered
then. -/
def divideCode (awaiting : Bool) (gathered : List Lexeme) (byte : UInt8) :
    List Mark × Bool × List Lexeme :=
  if byte = Punctuation.colon then
    (Mark.unfinished awaiting ++ [.segment ⟨gathered.reverse, true⟩], false, [])
  else if byte = Keyword.ifToken then
    ([], true, .code byte :: gathered)
  else if awaiting && byte = Keyword.thenToken then
    ([.segment ⟨(.code byte :: gathered).reverse, false⟩], false, [])
  else if awaiting && byte = Keyword.gotoToken then
    (Mark.flush gathered, false, [.code byte])
  else
    ([], awaiting, .code byte :: gathered)

theorem divideFrom_code
    (awaiting : Bool) (gathered : List Lexeme) (byte : UInt8) (rest : List Lexeme) :
    Mark.divideFrom awaiting gathered (.code byte :: rest) =
      (divideCode awaiting gathered byte).1 ++
        Mark.divideFrom (divideCode awaiting gathered byte).2.1
          (divideCode awaiting gathered byte).2.2 rest := by
  rw [Mark.divideFrom, divideCode]
  by_cases colon : byte = Punctuation.colon
  · rw [if_pos colon, if_pos colon]
    simp
  rw [if_neg colon, if_neg colon]
  by_cases isIf : byte = Keyword.ifToken
  · rw [if_pos isIf, if_pos isIf]
    rfl
  rw [if_neg isIf, if_neg isIf]
  by_cases isThen : (awaiting && byte = Keyword.thenToken) = true
  · rw [if_pos isThen, if_pos isThen]
    rfl
  rw [if_neg isThen, if_neg isThen]
  by_cases isGoto : (awaiting && byte = Keyword.gotoToken) = true
  · rw [if_pos isGoto, if_pos isGoto]
  · rw [if_neg isGoto, if_neg isGoto]
    rfl

/-- The reading behind a front of the image, some lexemes that have been gathered, and some bytes of
an open literal, all with the last one first. -/
def Scan.behind (before : Bytes) (gathered : List Lexeme) (opened : Option Bytes)
    (awaiting first : Bool) : Scan where
  start := before.length
  position :=
    before.length + (Lexeme.spell gathered.reverse).length + (opened.getD []).length
  opened := opened.map fun _ => before.length + (Lexeme.spell gathered.reverse).length
  awaiting := awaiting
  first := first

theorem isEmpty_placeSegments (offset : Nat) (first : Bool) (segments : List Segment) :
    (placeSegments offset first segments).isEmpty = segments.isEmpty := by
  cases segments <;> rfl

theorem segments_singleton (segment : Segment) : Mark.segments [.segment segment] = [segment] :=
  rfl

theorem segments_unfinished_append (awaiting : Bool) (marks : List Mark) :
    Mark.segments (Mark.unfinished awaiting ++ marks) = Mark.segments marks := by
  rw [Mark.segments_append, Mark.segments_unfinished, List.nil_append]

/-- What a byte of code leaves gathered, behind the segments that it closes. -/
theorem span_divideCode (awaiting : Bool) (gathered : List Lexeme) (byte : UInt8) :
    (Mark.segments (divideCode awaiting gathered byte).1).flatMap Segment.span ++
        Lexeme.spell (divideCode awaiting gathered byte).2.2.reverse =
      Lexeme.spell gathered.reverse ++ [byte] := by
  have whole := Mark.flatMap_span_divideFrom awaiting gathered [.code byte]
  rw [divideFrom_code, Mark.segments_append, List.flatMap_append, Mark.flatMap_span_divideFrom,
    List.append_nil, Lexeme.spell_append] at whole
  exact whole

theorem forall_divideCode
    {accepted : Lexeme → Prop} {awaiting : Bool} {gathered : List Lexeme} {byte : UInt8}
    (own : accepted (.code byte)) (all : ∀ lexeme ∈ gathered, accepted lexeme) :
    ∀ lexeme ∈ (divideCode awaiting gathered byte).2.2, accepted lexeme := by
  have more : ∀ lexeme ∈ .code byte :: gathered, accepted lexeme :=
    List.forall_mem_cons.2 ⟨own, all⟩
  rw [divideCode]
  split
  · simp
  · split
    · exact more
    · split
      · simp
      · split
        · exact List.forall_mem_singleton.2 own
        · exact more

theorem segments_stray_append (gathered : List Lexeme) (marks : List Mark) :
    Mark.segments ((if gathered.isEmpty then [] else [.strayRemark]) ++ marks) =
      Mark.segments marks := by
  rw [Mark.segments_append, Mark.segments_stray, List.nil_append]

theorem divideFrom_remark (awaiting : Bool) (gathered : List Lexeme) (contents : Bytes) :
    Mark.divideFrom awaiting gathered [.remark contents] =
      ((if gathered.isEmpty then [] else [.strayRemark]) ++ Mark.flush gathered) ++
        (Mark.unfinished awaiting ++ [.segment ⟨[.remark contents], false⟩]) := by
  rw [Mark.divideFrom, List.append_assoc]
  rfl

section Bytes

variable {image before after : Bytes} {gathered : List Lexeme} {awaiting first : Bool}
  {byte : UInt8}

theorem length_spell_code (byte : UInt8) (gathered : List Lexeme) :
    (Lexeme.spell (.code byte :: gathered).reverse).length =
      (Lexeme.spell gathered.reverse).length + 1 := by
  rw [List.reverse_cons, Lexeme.spell_append, List.length_append]
  rfl

theorem advanceCode?_colon
    (shape : image = before ++ (Lexeme.spell gathered.reverse ++ Punctuation.colon :: after))
    (named : HasNames ⟨gathered.reverse, true⟩) :
    (Scan.behind before gathered none awaiting first).advanceCode? image Punctuation.colon
        (before.length + (Lexeme.spell gathered.reverse).length + 1) =
      some (
        Scan.behind (before ++ (Segment.mk gathered.reverse true).span) [] none false false,
        Yield.ofMarks before.length first
          (Mark.unfinished awaiting ++ [.segment ⟨gathered.reverse, true⟩])) := by
  have length : (Segment.mk gathered.reverse true).span.length =
      (Lexeme.spell gathered.reverse).length + 1 := List.length_append
  have closed : close? image first before.length
      (before.length + ((Lexeme.spell gathered.reverse).length + 1))
      (before.length + (Lexeme.spell gathered.reverse).length) =
        some (Yield.ofMarks before.length first [.segment ⟨gathered.reverse, true⟩]) := by
    rw [← length]
    exact close?_segment shape (List.ne_nil_of_length_pos (by omega)) named
  have reading (scan : Scan) (next : Nat) :
      scan.advanceCode? image Punctuation.colon next = (do
        let place ← difference? next 1
        let closed ← close? image scan.first scan.start next place
        some ({ scan with position := next }.begin next closed,
          { closed with
            findings :=
              (Mark.unfinished scan.awaiting).flatMap Mark.findings ++ closed.findings })) := by
    simp [Scan.advanceCode?, show Punctuation.colon ≠ Keyword.ifToken by decide,
      show Punctuation.colon ≠ Keyword.thenToken by decide,
      show Punctuation.colon ≠ Keyword.gotoToken by decide]
  rw [reading, difference?_eq (Nat.le_add_left 1 _), Nat.add_sub_cancel]
  simp only [Scan.behind, Option.bind_eq_bind, Option.bind_some, Nat.add_assoc, closed]
  simp [Scan.begin, Yield.ofMarks, length, isEmpty_placeSegments, segments_unfinished_append,
    segments_singleton, Lexeme.spell]

theorem advanceCode?_if :
    (Scan.behind before gathered none awaiting first).advanceCode? image Keyword.ifToken
        (before.length + (Lexeme.spell gathered.reverse).length + 1) =
      some (Scan.behind before (.code Keyword.ifToken :: gathered) none true first, {}) := by
  rw [Scan.advanceCode?, if_pos rfl]
  simp only [Scan.behind, length_spell_code, Option.map_none, Option.getD_none, List.length_nil,
    Nat.add_zero, Nat.add_assoc]

theorem advanceCode?_then
    (shape : image = before ++ (Lexeme.spell gathered.reverse ++ Keyword.thenToken :: after))
    (solid : ∀ lexeme ∈ gathered, lexeme.bytes ≠ [])
    (named : ∀ segment ∈ Mark.segments (Mark.flush (.code Keyword.thenToken :: gathered)),
      HasNames segment) :
    (Scan.behind before gathered none true first).advanceCode? image Keyword.thenToken
        (before.length + (Lexeme.spell gathered.reverse).length + 1) =
      some (
        Scan.behind (before ++ Lexeme.spell (.code Keyword.thenToken :: gathered).reverse) [] none
          false false,
        Yield.ofMarks before.length first (Mark.flush (.code Keyword.thenToken :: gathered))) := by
  have length := length_spell_code Keyword.thenToken gathered
  have shapeThen : image =
      before ++ (Lexeme.spell (.code Keyword.thenToken :: gathered).reverse ++ after) := by
    rw [shape, List.reverse_cons, Lexeme.spell_append, List.append_assoc]
    rfl
  have solidThen : ∀ lexeme ∈ .code Keyword.thenToken :: gathered, lexeme.bytes ≠ [] :=
    List.forall_mem_cons.2 ⟨List.cons_ne_nil _ _, solid⟩
  have closed := @close?_flush image before after first _ shapeThen solidThen named
  rw [length] at closed
  have reading (scan : Scan) (isAwaiting : scan.awaiting = true) (next : Nat) :
      scan.advanceCode? image Keyword.thenToken next = (do
        let closed ← close? image scan.first scan.start next next
        some ({ scan with position := next }.begin next closed, closed)) := by
    simp [Scan.advanceCode?, show Keyword.thenToken ≠ Keyword.ifToken by decide, isAwaiting]
  rw [reading _ rfl]
  simp only [Scan.behind, Option.bind_eq_bind, Option.bind_some, Nat.add_assoc, closed]
  have present :
      (Mark.segments (Mark.flush (.code Keyword.thenToken :: gathered))).isEmpty = false := rfl
  simp only [Scan.begin, Yield.ofMarks, isEmpty_placeSegments, List.length_append, length, present,
    Option.map_none, Option.getD_none, Bool.and_false]
  rfl

theorem advanceCode?_goto
    (shape : image = before ++ (Lexeme.spell gathered.reverse ++ Keyword.gotoToken :: after))
    (solid : ∀ lexeme ∈ gathered, lexeme.bytes ≠ [])
    (named : ∀ segment ∈ Mark.segments (Mark.flush gathered), HasNames segment) :
    (Scan.behind before gathered none true first).advanceCode? image Keyword.gotoToken
        (before.length + (Lexeme.spell gathered.reverse).length + 1) =
      some (
        Scan.behind (before ++ Lexeme.spell gathered.reverse) [.code Keyword.gotoToken] none false
          (first && (Mark.segments (Mark.flush gathered)).isEmpty),
        Yield.ofMarks before.length first (Mark.flush gathered)) := by
  have closed := @close?_flush image before (Keyword.gotoToken :: after) first _ shape solid named
  have reading (scan : Scan) (isAwaiting : scan.awaiting = true) (next : Nat) :
      scan.advanceCode? image Keyword.gotoToken next = (do
        let place ← difference? next 1
        let closed ← close? image scan.first scan.start place place
        some ({ scan with position := next }.begin place closed, closed)) := by
    simp [Scan.advanceCode?, show Keyword.gotoToken ≠ Keyword.ifToken by decide,
      show Keyword.gotoToken ≠ Keyword.thenToken by decide, isAwaiting]
  rw [reading _ rfl, difference?_eq (Nat.le_add_left 1 _), Nat.add_sub_cancel]
  simp only [Scan.behind, Option.bind_eq_bind, Option.bind_some, closed]
  simp [Scan.begin, Yield.ofMarks, isEmpty_placeSegments, Lexeme.spell, Lexeme.bytes]

theorem advanceCode?_gathered
    (plain : byte ≠ Punctuation.colon ∧ byte ≠ Keyword.ifToken)
    (noThen : ¬ (awaiting && byte = Keyword.thenToken) = true)
    (noGoto : ¬ (awaiting && byte = Keyword.gotoToken) = true)
    (noRemark : byte ≠ Keyword.remToken) (noQuote : byte ≠ Punctuation.quote) :
    (Scan.behind before gathered none awaiting first).advanceCode? image byte
        (before.length + (Lexeme.spell gathered.reverse).length + 1) =
      some (Scan.behind before (.code byte :: gathered) none awaiting first, {}) := by
  have reading (scan : Scan) (same : scan.awaiting = awaiting) (next : Nat) :
      scan.advanceCode? image byte next = some ({ scan with position := next }, {}) := by
    rw [Bool.and_comm] at noThen noGoto
    rw [Scan.advanceCode?, if_neg plain.2, same, if_neg noThen, if_neg noGoto, if_neg plain.1,
      if_neg noRemark, if_neg noQuote]
  rw [reading _ rfl]
  simp only [Scan.behind, length_spell_code, Option.map_none, Option.getD_none, List.length_nil,
    Nat.add_zero, Nat.add_assoc]

/-- A byte of code divides the line as its lexeme does. -/
theorem advanceCode?_eq
    (shape : image = before ++ (Lexeme.spell gathered.reverse ++ byte :: after))
    (solid : ∀ lexeme ∈ gathered, lexeme.bytes ≠ [])
    (noRemark : byte ≠ Keyword.remToken) (noQuote : byte ≠ Punctuation.quote)
    (named : ∀ segment ∈ Mark.segments (divideCode awaiting gathered byte).1, HasNames segment) :
    (Scan.behind before gathered none awaiting first).advanceCode? image byte
        (before.length + (Lexeme.spell gathered.reverse).length + 1) =
      some (
        Scan.behind
          (before ++ (Mark.segments (divideCode awaiting gathered byte).1).flatMap Segment.span)
          (divideCode awaiting gathered byte).2.2 none (divideCode awaiting gathered byte).2.1
          (first && (Mark.segments (divideCode awaiting gathered byte).1).isEmpty),
        Yield.ofMarks before.length first (divideCode awaiting gathered byte).1) := by
  have nothing : Mark.segments [] = [] := rfl
  by_cases colon : byte = Punctuation.colon
  · subst colon
    have division : divideCode awaiting gathered Punctuation.colon =
        (Mark.unfinished awaiting ++ [.segment ⟨gathered.reverse, true⟩], false, []) :=
      if_pos rfl
    rw [division, segments_unfinished_append, segments_singleton] at named
    rw [division, advanceCode?_colon shape (named _ List.mem_cons_self), segments_unfinished_append,
      segments_singleton, List.flatMap_singleton, List.isEmpty_cons, Bool.and_false]
  by_cases isIf : byte = Keyword.ifToken
  · subst isIf
    have division : divideCode awaiting gathered Keyword.ifToken =
        ([], true, .code Keyword.ifToken :: gathered) := by
      rw [divideCode, if_neg (by decide), if_pos rfl]
    rw [division, advanceCode?_if, nothing, List.flatMap_nil, List.append_nil, List.isEmpty_nil,
      Bool.and_true]
    rfl
  by_cases isThen : (awaiting && byte = Keyword.thenToken) = true
  · obtain ⟨rfl, rfl⟩ : awaiting = true ∧ byte = Keyword.thenToken := by simpa using isThen
    have division : divideCode true gathered Keyword.thenToken =
        (Mark.flush (.code Keyword.thenToken :: gathered), false, []) := by
      rw [divideCode, if_neg (by decide), if_neg (by decide), if_pos (by decide)]
      rfl
    rw [division] at named
    have present :
        (Mark.segments (Mark.flush (.code Keyword.thenToken :: gathered))).isEmpty = false := rfl
    rw [division, advanceCode?_then shape solid named, Mark.flatMap_span_flush, present,
      Bool.and_false]
  by_cases isGoto : (awaiting && byte = Keyword.gotoToken) = true
  · obtain ⟨rfl, rfl⟩ : awaiting = true ∧ byte = Keyword.gotoToken := by simpa using isGoto
    have division : divideCode true gathered Keyword.gotoToken =
        (Mark.flush gathered, false, [.code Keyword.gotoToken]) := by
      rw [divideCode, if_neg (by decide), if_neg (by decide), if_neg (by decide),
        if_pos (by decide)]
    rw [division] at named
    rw [division, advanceCode?_goto shape solid named, Mark.flatMap_span_flush]
  · have division : divideCode awaiting gathered byte = ([], awaiting, .code byte :: gathered) := by
      rw [divideCode, if_neg colon, if_neg isIf, if_neg isThen, if_neg isGoto]
    rw [division, advanceCode?_gathered ⟨colon, isIf⟩ isThen isGoto noRemark noQuote, nothing,
      List.flatMap_nil, List.append_nil, List.isEmpty_nil, Bool.and_true]
    rfl

end Bytes

end Applesoft.Checked
