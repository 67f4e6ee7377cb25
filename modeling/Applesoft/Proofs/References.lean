import Mathlib.Data.List.TakeWhile
import Applesoft.Proofs.Jumps
import Applesoft.Proofs.Literals
import Applesoft.Proofs.Restart

/-!
The references of a program to variables. A reference begins where a run of name bytes begins in the
line outside of literals, and its name goes on for as long as the run does.

The main statement is that the table of references is a replay of these, statement by statement, for
all statements but remarks and data. Statements are looked through one at a time, but neither their
quotes nor the runs depend on where a statement begins.
-/

namespace Applesoft

namespace Payload

/-- Whether a byte of a name stands at a position, outside of literals. -/
def hasName (payload : Bytes) (position : Nat) : Bool :=
  isOutside payload position && payload[position]?.any Variable.isNameByte

def followsName (payload : Bytes) (position : Nat) : Bool :=
  0 < position && hasName payload (position - 1)

/-- The name in the run of name bytes at the front of some bytes, with the parenthesis behind it. -/
def leadingName? (bytes : Bytes) : Option Text :=
  let run := bytes.takeWhile Variable.isNameByte
  let behind := bytes.dropWhile Variable.isNameByte
  if run.head?.any isUpper then
    some (run.map toCharacter ++
      if behind.head? = some Punctuation.leftParenthesis then ['('] else [])
  else
    none

/-- The name that begins at a position, if a run of name bytes does and its first is a letter. -/
def nameAt? (payload : Bytes) (position : Nat) : Option Text :=
  if hasName payload position && !followsName payload position then
    leadingName? (payload.drop position)
  else
    none

def namesBetween (payload : Bytes) (start stop : Nat) : List Text :=
  (List.range' start (stop - start)).filterMap (nameAt? payload)

theorem followsName_succ (payload : Bytes) (position : Nat) :
    followsName payload (position + 1) = hasName payload position := by
  simp [followsName]

theorem namesBetween_eq
    {payload : Bytes} {start stop : Nat} (forward : start < stop) :
    namesBetween payload start stop =
      (nameAt? payload start).toList ++ namesBetween payload (start + 1) stop := by
  rw [namesBetween, range'_eq_cons forward, List.filterMap_cons, namesBetween]
  cases nameAt? payload start with
  | none => rfl
  | some name => rfl

theorem namesBetween_of_le
    {payload : Bytes} {start stop : Nat} (backward : stop ≤ start) :
    namesBetween payload start stop = [] := by
  rw [namesBetween, Nat.sub_eq_zero_of_le backward]
  rfl

/-- The name in the run that ends in front of some bytes, last byte first. -/
def pendingName? (run rest : Bytes) : Option Text :=
  if run.isEmpty then none else leadingName? (run.reverse ++ rest)

theorem nameOfRun_eq_pendingName?
    {run : Bytes} (rest : Bytes)
    (names : ∀ byte ∈ run, Variable.isNameByte byte = true)
    (ends : ∀ byte ∈ rest.head?, Variable.isNameByte byte = false) :
    Variable.nameOfRun run (rest.head? = some Punctuation.leftParenthesis) =
      (pendingName? run rest).toList := by
  have reversed : ∀ byte ∈ run.reverse, Variable.isNameByte byte = true := by
    simpa using names
  have empty : run.isEmpty = run.reverse.isEmpty := by simp
  rw [Variable.nameOfRun, pendingName?, leadingName?,
    takeWhile_append_of_head? reversed ends, dropWhile_append_of_head? reversed ends, empty]
  cases run.reverse with
  | nil => rfl
  | cons first others =>
      by_cases capital : isUpper first = true
      · simp [capital]
      · simp [capital]

/-- What is known of the run that has been read up to a position: its bytes belong to names, and it
goes back to the last byte that does not. -/
structure Reading (payload : Bytes) (position : Nat) (run : Bytes) : Prop where
  outside : run ≠ [] → isOutside payload position = true
  names : ∀ byte ∈ run, Variable.isNameByte byte = true
  follows : followsName payload position = !run.isEmpty

section Step

variable {payload run : Bytes} {position : Nat} {byte : UInt8}

theorem hasName_of_outside
    (outside : isOutside payload position = true) (read : payload[position]? = some byte) :
    hasName payload position = Variable.isNameByte byte := by
  simp [hasName, outside, read]

theorem nameAt?_of_not_hasName (absent : hasName payload position = false) :
    nameAt? payload position = none := by
  simp [nameAt?, absent]

namespace Reading

/-- Behind a byte that is not of a name, the search for names begins anew. -/
theorem anew (absent : hasName payload position = false) : Reading payload (position + 1) [] where
  outside := by simp
  names := by simp
  follows := by
    rw [followsName_succ, absent]
    rfl

theorem advance
    (reading : Reading payload position run)
    (outside : isOutside payload position = true)
    (read : payload[position]? = some byte)
    (name : Variable.isNameByte byte = true) :
    Reading payload (position + 1) (byte :: run) where
  outside := by
    intro _
    have noQuote : byte ≠ Punctuation.quote := by
      rintro rfl
      exact absurd name (by decide)
    rw [isOutside_succ, read]
    simpa [noQuote] using outside
  names := by
    rw [List.forall_mem_cons]
    exact ⟨name, reading.names⟩
  follows := by
    rw [followsName_succ, hasName_of_outside outside read, name]
    rfl

/-- A byte of a name begins a run or goes on with the one that has been read. -/
theorem nameAt?_append
    (reading : Reading payload position run) (here : hasName payload position = true)
    {rest : Bytes} (remaining : payload.drop position = byte :: rest) :
    (pendingName? run (byte :: rest)).toList ++ (nameAt? payload position).toList =
      (pendingName? (byte :: run) rest).toList := by
  have follows := reading.follows
  cases run with
  | nil => simp [nameAt?, here, follows, remaining, pendingName?]
  | cons last others => simp [nameAt?, follows, pendingName?]

end Reading

end Step

/-- What looking for names gives from a position on: the name of the run that has been read up to
there, and the names behind. The induction is on the bytes that have not been read. -/
theorem namesFrom_lexemesFrom
    (payload rest : Bytes) {position : Nat} {run : Bytes}
    (noRemark : remarkStart payload = payload.length)
    (remaining : payload.drop position = rest)
    (reading : Reading payload position run) :
    Variable.namesFrom run (lexemesFrom payload position) =
      (pendingName? run rest).toList ++ namesBetween payload position payload.length := by
  induction rest generalizing position run with
  | nil =>
      have beyond := List.drop_eq_nil_iff.1 remaining
      have nothing : lexemesFrom payload position = [] := by
        rw [lexemesFrom, Nat.sub_eq_zero_of_le beyond]
        rfl
      have finished := nameOfRun_eq_pendingName? [] reading.names (by simp)
      rw [nothing, namesBetween_of_le beyond, Variable.namesFrom, ← finished, List.append_nil]
      rfl
  | cons byte rest hypothesis =>
      obtain ⟨read, remainingNext⟩ := getElem?_of_drop_eq_cons remaining
      have inPayload : position < payload.length := (List.getElem?_eq_some_iff.1 read).1
      have inFront : position ≤ remarkStart payload := by omega
      rw [namesBetween_eq inPayload]
      have anew (absent : hasName payload position = false) :
          Variable.namesFrom [] (lexemesFrom payload (position + 1)) =
            namesBetween payload (position + 1) payload.length :=
        hypothesis remainingNext (Reading.anew absent)
      cases side : isOutside payload position with
      | false =>
          obtain rfl : run = [] := by
            by_contra nonempty
            rw [reading.outside nonempty] at side
            contradiction
          have absent : hasName payload position = false := by simp [hasName, side]
          rw [(lexemesFrom_of_inside inPayload inFront side).2, anew absent,
            nameAt?_of_not_hasName absent]
          rfl
      | true =>
          have code : byte ≠ Keyword.remToken := by
            rintro rfl
            have begins : beginsRemark payload position = true := by
              simp [beginsRemark, read, side]
            have bound := remarkStart_le_of_beginsRemark begins
            omega
          have here := hasName_of_outside side read
          rw [(lexemesFrom_of_outside read inFront side code).2]
          by_cases name : Variable.isNameByte byte = true
          · have noQuote : byte ≠ Punctuation.quote := by
              rintro rfl
              exact absurd name (by decide)
            rw [if_neg noQuote, Variable.namesFrom, if_pos name,
              hypothesis remainingNext (reading.advance side read name), ← List.append_assoc,
              reading.nameAt?_append (here.trans name) remaining]
          · rw [Bool.not_eq_true] at name
            have absent := here.trans name
            have finished := nameOfRun_eq_pendingName? (byte :: rest) reading.names
              (by simpa using name)
            rw [nameAt?_of_not_hasName absent, Option.toList_none, List.nil_append,
              ← anew absent, ← finished]
            by_cases quote : byte = Punctuation.quote
            · subst quote
              rw [if_pos rfl, Variable.namesFrom]
              rfl
            · rw [if_neg quote, Variable.namesFrom, if_neg (by simp [name])]
              simp

theorem names_scan
    {payload : Bytes} (noRemark : remarkStart payload = payload.length) :
    Variable.names (Lexeme.scan payload) = namesBetween payload 0 payload.length := by
  rw [Variable.names, scan_eq_lexemesFrom]
  exact namesFrom_lexemesFrom payload payload noRemark rfl ⟨by simp, by simp, rfl⟩

/-- Whether no name goes on into some bytes: neither a byte of a name nor a parenthesis is the first
of them. -/
def EndsNames (bytes : Bytes) : Prop :=
  ∀ byte ∈ bytes.head?, Variable.isNameByte byte = false ∧ byte ≠ Punctuation.leftParenthesis

theorem leadingName?_append
    {bytes rest : Bytes}
    (ends : (∃ byte ∈ bytes, Variable.isNameByte byte = false) ∨ EndsNames rest) :
    leadingName? (bytes ++ rest) = leadingName? bytes := by
  by_cases all : ∀ byte ∈ bytes, Variable.isNameByte byte = true
  · have stops : EndsNames rest := by
      rcases ends with ⟨byte, member, other⟩ | stops
      · rw [all byte member] at other
        contradiction
      · exact stops
    have noParenthesis : rest.head? ≠ some Punctuation.leftParenthesis := by
      intro first
      exact (stops _ first).2 rfl
    have whole := takeWhile_append_of_head? all fun byte first => (stops byte first).1
    have behind := dropWhile_append_of_head? all fun byte first => (stops byte first).1
    have wholeAlone := List.takeWhile_eq_self_iff.2 all
    have nothing := List.dropWhile_eq_nil_iff.2 all
    rw [leadingName?, leadingName?, whole, behind, wholeAlone, nothing]
    simp [noParenthesis]
  · have remains : bytes.dropWhile Variable.isNameByte ≠ [] := by
      rwa [ne_eq, List.dropWhile_eq_nil_iff]
    have same : (bytes ++ rest).takeWhile Variable.isNameByte =
        bytes.takeWhile Variable.isNameByte := by
      rw [List.takeWhile_append, if_neg]
      intro length
      have split := List.takeWhile_append_dropWhile (p := Variable.isNameByte) (l := bytes)
      have lengths := congrArg List.length split
      rw [List.length_append, length] at lengths
      exact remains (List.length_eq_zero_iff.1 (by omega))
    have behind : (bytes ++ rest).dropWhile Variable.isNameByte =
        bytes.dropWhile Variable.isNameByte ++ rest := by
      rw [List.dropWhile_append, if_neg (by simpa using remains)]
    rw [leadingName?, leadingName?, same, behind, List.head?_append_of_ne_nil _ remains]

/-- No run of name bytes goes on across a boundary. -/
theorem not_hasName_of_isBoundary
    {payload : Bytes} {position : Nat} (boundary : IsBoundary payload position) :
    ¬ (hasName payload position = true ∧ followsName payload position = true) := by
  have apart {byte : UInt8} {place : Nat}
      (other : Variable.isNameByte byte = false) (read : payload[place]? = some byte) :
      hasName payload place = false := by
    simp [hasName, read, other]
  rintro ⟨here, before⟩
  rw [followsName, Bool.and_eq_true] at before
  rcases boundary with ⟨_, colon | ⟨thenCode, _⟩⟩ | (rfl | ⟨gotoCode, _⟩)
  · rw [apart (by decide) colon.2.2] at before
    exact absurd before.2 (by decide)
  · rw [apart (by decide) thenCode.2.2] at before
    exact absurd before.2 (by decide)
  · have present : remarkStart payload < payload.length := by
      by_contra beyond
      rw [hasName, List.getElem?_eq_none (Nat.le_of_not_lt beyond), Option.any_none,
        Bool.and_false] at here
      contradiction
    rw [apart (by decide) (getElem?_remarkStart present)] at here
    contradiction
  · rw [apart (by decide) gotoCode.2.2] at here
    contradiction

namespace IsStatement

variable {payload : Bytes} {offset start stop : Nat} {fragment : Fragment}

/-- No name goes on behind a statement, unless the statement ends with a THEN. -/
theorem endsNames (placed : IsStatement payload offset fragment start stop) :
    fragment.body.getLast? = some Keyword.thenToken ∨
      EndsNames (payload.drop (start + fragment.body.length)) := by
  have reached := placed.start_add_length_body
  have forward := placed.ends.start_lt
  have inside := placed.stop_le
  have behind {byte : UInt8} (read : payload[start + fragment.body.length]? = some byte)
      (other : Variable.isNameByte byte = false ∧ byte ≠ Punctuation.leftParenthesis) :
      EndsNames (payload.drop (start + fragment.body.length)) := by
    rw [EndsNames, List.head?_drop, read]
    rintro _ ⟨⟩
    exact other
  by_cases colon : HasCode payload Punctuation.colon (stop - 1)
  · rw [if_pos colon] at reached
    exact Or.inr (behind (reached ▸ colon.2.2) (by decide))
  · rw [if_neg colon] at reached
    by_cases ended : stop = payload.length
    · refine Or.inr fun byte first => ?_
      rw [reached, ended, List.drop_length] at first
      cases first
    · rcases placed.ends.divided.resolve_left ended with
        ⟨_, isColon | ⟨thenCode, _⟩⟩ | (remark | ⟨gotoCode, _⟩)
      · exact absurd isColon colon
      · refine Or.inl ?_
        have nonempty : fragment.body.length - 1 < fragment.body.length := by omega
        have last : start + (fragment.body.length - 1) = stop - 1 := by omega
        rw [List.getLast?_eq_getElem?, placed.getElem?_body nonempty, last, thenCode.2.2]
      · have present : remarkStart payload < payload.length := by omega
        have remarkCode := getElem?_remarkStart present
        rw [← remark, ← reached] at remarkCode
        exact Or.inr (behind remarkCode (by decide))
      · exact Or.inr (behind (reached ▸ gotoCode.2.2) (by decide))

theorem hasName_body
    {position : Nat}
    (placed : IsStatement payload offset fragment start stop)
    (inBody : position < fragment.body.length) :
    hasName fragment.body position = hasName payload (start + position) := by
  rw [hasName, hasName, placed.isOutside_body (Nat.le_of_lt inBody), placed.getElem?_body inBody]

theorem followsName_body
    {position : Nat}
    (placed : IsStatement payload offset fragment start stop)
    (inBody : position < fragment.body.length)
    (name : hasName payload (start + position) = true) :
    followsName fragment.body position = followsName payload (start + position) := by
  cases position with
  | zero =>
      have before : followsName payload start = false := by
        rcases placed.begins with rfl | boundary
        · rfl
        · exact Bool.eq_false_iff.2 fun follows =>
            not_hasName_of_isBoundary boundary ⟨name, follows⟩
      rw [Nat.add_zero, before]
      rfl
  | succ position =>
      rw [followsName_succ, ← Nat.add_assoc, followsName_succ,
        placed.hasName_body (Nat.lt_of_succ_lt inBody)]

theorem nameAt?_body
    {position : Nat}
    (placed : IsStatement payload offset fragment start stop)
    (inBody : position < fragment.body.length) :
    nameAt? fragment.body position = nameAt? payload (start + position) := by
  rw [nameAt?, nameAt?, placed.hasName_body inBody]
  cases name : hasName payload (start + position) with
  | false => rfl
  | true =>
      have split : payload.drop (start + position) =
          fragment.body.drop position ++ payload.drop (start + fragment.body.length) := by
        rw [← List.drop_drop, placed.drop_start,
          List.drop_append_of_le_length (Nat.le_of_lt inBody)]
      have same : leadingName? (payload.drop (start + position)) =
          leadingName? (fragment.body.drop position) := by
        rw [split]
        apply leadingName?_append
        refine placed.endsNames.imp_left fun last => ⟨Keyword.thenToken, ?_, by decide⟩
        apply List.mem_of_getLast?
        rw [List.getLast?_drop, if_neg (by omega), last]
      rw [placed.followsName_body inBody name, same]

/-- The names of a statement are the same whether they are looked for in it or in its line. -/
theorem namesBetween_body (placed : IsStatement payload offset fragment start stop) :
    namesBetween fragment.body 0 fragment.body.length = namesBetween payload start stop := by
  have shifted : namesBetween fragment.body 0 fragment.body.length =
      (List.range' start fragment.body.length).filterMap (nameAt? payload) := by
    rw [namesBetween, Nat.sub_zero, ← List.range_eq_range', List.range'_eq_map_range,
      List.filterMap_map]
    refine List.filterMap_congr fun position member => ?_
    exact placed.nameAt?_body (List.mem_range.1 member)
  have reached := placed.start_add_length_body
  have forward := placed.ends.start_lt
  rw [shifted, namesBetween]
  by_cases colon : HasCode payload Punctuation.colon (stop - 1)
  · rw [if_pos colon] at reached
    have nothing : nameAt? payload (stop - 1) = none := by
      have noName : Variable.isNameByte Punctuation.colon = false := by decide
      simp [nameAt?, hasName, colon.2.2, noName]
    have width : stop - start = fragment.body.length + 1 := by omega
    rw [width, List.range'_concat, Nat.one_mul, reached, List.filterMap_append]
    simp [nothing]
  · rw [if_neg colon] at reached
    have width : stop - start = fragment.body.length := by omega
    rw [width]

/-- Looked through on its own, a statement has the names that begin in its place in the line. -/
theorem names_scan_body
    (placed : IsStatement payload offset fragment start stop)
    (noRemark : fragment.isRemark = false) :
    Variable.names (Lexeme.scan fragment.body) = namesBetween payload start stop := by
  rw [names_scan (placed.remarkStart_body noRemark), placed.namesBetween_body]

end IsStatement

end Payload

namespace Line

/-- The statements of a line that are looked through for variables. -/
def lookedThrough (line : Line) : List Fragment :=
  line.fragments.filter fun fragment => fragment.statement ≠ .remark ∧ fragment.statement ≠ .data

def namesOf (line : Line) (fragment : Fragment) : List Text :=
  Payload.namesBetween line.record.payload (fragment.start - line.record.payloadStart)
    (fragment.stop - line.record.payloadStart)

theorem names_scan_body
    {record : Record} {fragment : Fragment}
    (member : fragment ∈ (ofRecord record).fragments)
    (noRemark : fragment.statement ≠ .remark) :
    Variable.names (Lexeme.scan fragment.body) = (ofRecord record).namesOf fragment := by
  obtain ⟨start, stop, placed⟩ := Payload.isStatement_of_mem_fragments member
  have noMark : fragment.isRemark = false := decide_eq_false noRemark
  rw [placed.names_scan_body noMark, namesOf, placed.start_eq, placed.stop_eq]
  simp [ofRecord]

end Line

theorem Segment.filterMap_name?_findings (segment : Segment) :
    segment.findings.filterMap Finding.name? =
      if (Statement.ofBody segment.body).hasVariables then
        Variable.names segment.lexemes
      else
        [] := by
  have own : (Statement.ofBody segment.body).findings.filterMap Finding.name? = [] := by
    rw [List.filterMap_eq_nil_iff]
    intro finding member
    have jump := concernsJump_of_mem_findings member
    cases finding with
    | reference name => cases jump
    | _ => rfl
  rw [findings, List.filterMap_append, own, List.nil_append]
  split
  · rw [List.filterMap_map]
    exact List.filterMap_some
  · rfl

theorem flatMap_filter
    {alpha beta : Type} (kept : alpha → Bool) (expand : alpha → List beta) (elements : List alpha) :
    (elements.filter kept).flatMap expand =
      elements.flatMap fun element => if kept element then expand element else [] := by
  induction elements with
  | nil => rfl
  | cons first rest hypothesis =>
      rw [List.flatMap_cons, ← hypothesis]
      by_cases keep : kept first = true
      · rw [List.filter_cons_of_pos keep, if_pos keep, List.flatMap_cons]
      · rw [List.filter_cons_of_neg keep, if_neg keep, List.nil_append]

theorem Line.filterMap_name?_findings (record : Record) :
    (Line.ofRecord record).findings.filterMap Finding.name? =
      (Line.ofRecord record).lookedThrough.flatMap (Line.ofRecord record).namesOf := by
  have looks (statement : Statement) : statement.hasVariables =
      decide (statement ≠ .remark ∧ statement ≠ .data) := by
    cases statement <;> rfl
  have bodies := map_body_placeSegments record.payloadStart true
    (Mark.segments (Mark.divide (Lexeme.scan record.payload)))
  rw [filterMap_findings_ofRecord Finding.name? (fun _ => rfl) rfl rfl rfl]
  calc
    _ = (Mark.segments (Mark.divide (Lexeme.scan record.payload))).flatMap fun segment =>
          if (Statement.ofBody segment.body).hasVariables then
            Variable.names (Lexeme.scan segment.body)
          else
            [] := by
      refine List.flatMap_congr fun segment member => ?_
      rw [Segment.filterMap_name?_findings, Segment.scan_body member]
    _ = (Line.ofRecord record).fragments.flatMap fun fragment =>
          if (Statement.ofBody fragment.body).hasVariables then
            Variable.names (Lexeme.scan fragment.body)
          else
            [] := by
      rw [← List.flatMap_map Segment.body (fun body =>
        if (Statement.ofBody body).hasVariables then Variable.names (Lexeme.scan body) else []),
        ← bodies, List.flatMap_map]
      rfl
    _ = _ := by
      rw [lookedThrough, flatMap_filter]
      refine List.flatMap_congr fun fragment member => ?_
      obtain ⟨_, _, placed⟩ := Payload.isStatement_of_mem_fragments member
      rw [← placed.statement, looks]
      by_cases looked : fragment.statement ≠ .remark ∧ fragment.statement ≠ .data
      · rw [if_pos (decide_eq_true looked), if_pos (decide_eq_true looked),
          names_scan_body member looked.1]
      · rw [if_neg (by simpa using looked), if_neg (by simpa using looked)]

theorem Segment.filterMap_literal?_findings (segment : Segment) :
    segment.findings.filterMap Finding.literal? = [] := by
  rw [List.filterMap_eq_nil_iff]
  intro finding member
  rcases List.mem_append.1 member with own | reference
  · have jump := concernsJump_of_mem_findings own
    cases finding with
    | literal text => cases jump
    | _ => rfl
  · split at reference
    · obtain ⟨name, _, rfl⟩ := List.mem_map.1 reference
      rfl
    · cases reference

theorem Line.filterMap_literal?_findings (record : Record) :
    (Line.ofRecord record).findings.filterMap Finding.literal? =
      (Lexeme.literals (Lexeme.scan record.payload)).map Utf8.decode := by
  have ending :
      (if record.terminated then [] else [Finding.anomaly .unterminatedLine]).filterMap
        Finding.literal? = [] := by
    split
    · rfl
    · rfl
  rw [ofRecord, List.filterMap_append, List.filterMap_append, ending,
    filterMap_findings_marks Finding.literal? rfl rfl, List.append_nil]
  simp [Segment.filterMap_literal?_findings, Finding.literal?, Function.comp_def]

namespace Program

/-- The references of a program to variables, with the numbers of their lines, in its order. -/
def occurrences (program : Program) : List (UInt16 × Text) :=
  program.lines.flatMap fun line => line.lookedThrough.flatMap fun fragment =>
    (line.namesOf fragment).map fun name => (line.number, name)

/-- The literals of a program, with the numbers of their lines, in its order. -/
def literals (program : Program) : List (UInt16 × Bytes) :=
  program.lines.flatMap fun line => (Payload.literalSpans line.record.payload).map fun span =>
    (line.number, line.record.payload.extract span.1 span.2)

theorem entriesOf_name?_log (image : Bytes) :
    Symbols.entriesOf Finding.name? (decode image).log = (decode image).occurrences := by
  rw [log, occurrences, Symbols.entriesOf, List.filterMap_flatMap]
  refine List.flatMap_congr fun line member => ?_
  obtain ⟨record, _, rfl⟩ := List.mem_map.1 member
  rw [← List.map_flatMap, ← Line.filterMap_name?_findings, List.filterMap_map,
    List.map_filterMap]
  rfl

theorem entriesOf_literal?_log (image : Bytes) :
    Symbols.entriesOf Finding.literal? (decode image).log =
      (decode image).literals.map fun entry => (entry.1, Utf8.decode entry.2) := by
  rw [log, literals, Symbols.entriesOf, List.filterMap_flatMap, List.map_flatMap]
  refine List.flatMap_congr fun line member => ?_
  obtain ⟨record, _, rfl⟩ := List.mem_map.1 member
  have found := Line.filterMap_literal?_findings record
  rw [Payload.literals_scan, List.map_map] at found
  calc
    _ = ((Line.ofRecord record).findings.filterMap Finding.literal?).map
          fun text => ((Line.ofRecord record).number, text) := by
      rw [List.filterMap_map, List.map_filterMap]
      rfl
    _ = _ := by
      rw [found, List.map_map, List.map_map]
      rfl

/-- The table of references is a replay of the names that begin in the statements of a program, but
for remarks and data, outside of the literals in its table of strings. A statement looked through on
its own has the same names, and the same bytes outside of literals, as in its line, and no name goes
on from one statement into the next. -/
theorem references_follow_names (image : Bytes) :
    let program := decode image
    (∀ name, program.symbols.references.get? name =
      Symbols.entered (Symbols.linesUnder name program.occurrences)) ∧
      (∀ name, name ∈ program.symbols.references.keys ↔
        ∃ line, (line, name) ∈ program.occurrences) ∧
      program.symbols.strings =
        program.literals.map (fun entry => (entry.1, Utf8.decode entry.2)) ∧
      ∀ line ∈ program.lines,
        let payload := line.record.payload
        (∀ position < Payload.remarkStart payload,
          Payload.isOutside payload position = true ↔
            ∀ span ∈ Payload.literalSpans payload, ¬ (span.1 < position ∧ position < span.2)) ∧
          (∀ fragment ∈ line.lookedThrough,
            Variable.names (Lexeme.scan fragment.body) = line.namesOf fragment) ∧
          ∀ fragment ∈ line.fragments,
            let start := fragment.start - line.record.payloadStart
            (∀ position ≤ fragment.body.length,
              Payload.isOutside fragment.body position =
                Payload.isOutside payload (start + position)) ∧
              ¬ (Payload.followsName payload start = true ∧
                Payload.hasName payload start = true) := by
  intro program
  have table : ∀ name, program.symbols.references.get? name =
      Symbols.entered (Symbols.linesUnder name program.occurrences) := by
    intro name
    rw [Symbols.get?_references]
    exact congrArg (fun entries => Symbols.entered (Symbols.linesUnder name entries))
      (entriesOf_name?_log image)
  refine ⟨table, ?_, ?_, ?_⟩
  · intro name
    rw [Table.mem_keys_iff, table, ne_eq, Symbols.entered_eq_none_iff, Symbols.linesUnder,
      List.map_eq_nil_iff, List.filter_eq_nil_iff]
    push Not
    simp
  · rw [Symbols.strings_eq]
    exact entriesOf_literal?_log image
  · intro line lineMember payload
    obtain ⟨record, _, rfl⟩ := List.mem_map.1 lineMember
    refine ⟨?_, ?_, ?_⟩
    · intro position inFront
      rw [← Bool.not_eq_false, Payload.isOutside_eq_false_iff inFront]
      push Not
      rfl
    · intro fragment member
      obtain ⟨placed, looked⟩ := List.mem_filter.1 member
      exact Line.names_scan_body placed (of_decide_eq_true looked).1
    · intro fragment member start
      obtain ⟨begins, stop, placed⟩ := Payload.isStatement_of_mem_fragments member
      have start_eq : start = begins := by
        change fragment.start - record.payloadStart = begins
        rw [placed.start_eq, Nat.add_sub_cancel_left]
      rw [start_eq]
      refine ⟨fun position inBody => placed.isOutside_body inBody, ?_⟩
      rintro ⟨follows, name⟩
      rcases placed.begins with rfl | boundary
      · cases follows
      · exact Payload.not_hasName_of_isBoundary boundary ⟨name, follows⟩

end Program

end Applesoft
