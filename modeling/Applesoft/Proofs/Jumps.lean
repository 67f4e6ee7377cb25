import Mathlib.Data.List.TakeWhile
import Applesoft.Proofs.Division
import Applesoft.Proofs.Replay
import Applesoft.Proofs.Targets

/-!
The jumps of a program. What a statement says about jumps is told from its bytes: a target for each
line number that can be read, an anomaly for each one that cannot, and nothing else.

The main statement is that the tables of jumps and the anomalies about targets are those of the
statements, in the order of the program.
-/

namespace Applesoft

/-- Whether bytes are a jump with one target, and where the number of its target is looked for. -/
inductive IsSingleJump : JumpForm → Bytes → Bytes → Prop
  | goto (arguments : Bytes) :
      IsSingleJump .goto (Keyword.gotoToken :: arguments) arguments
  | gosub (arguments : Bytes) :
      IsSingleJump .gosub (Keyword.gosubToken :: arguments) arguments
  | implied {first : UInt8} (rest : Bytes) :
      isDigit first = true → IsSingleJump .implied (first :: rest) (first :: rest)

/-- Whether an entry in the list of an ON is accounted for by a finding. -/
inductive AccountsForEntry (kind : JumpKind) : Text → Finding → Prop
  | line {entry : Text} {number : UInt16} :
      IsTargetNumber entry number → AccountsForEntry kind entry (.jump kind number)
  | unreadable {entry : Text} :
      (∀ number, ¬ IsTargetNumber entry number) →
      AccountsForEntry kind entry (.anomaly (.badOnTarget entry))

def dispatchToken : JumpKind → UInt8
  | .goto => Keyword.gotoToken
  | .gosub => Keyword.gosubToken

/-- Whether findings are all that the bytes of a statement say about jumps. -/
inductive AccountsFor : Bytes → List Finding → Prop
  | target {form : JumpForm} {body arguments : Bytes} {number : UInt16} :
      IsSingleJump form body arguments →
      BeginsWithNumber arguments number →
      AccountsFor body [.jump form.kind number]
  | missing {form : JumpForm} {body arguments : Bytes} :
      IsSingleJump form body arguments →
      (∀ number, ¬ BeginsWithNumber arguments number) →
      AccountsFor body [.anomaly (.missingTarget form)]
  | dispatch {kind : JumpKind} {expression list : Bytes} {findings : List Finding} :
      (∀ byte ∈ expression, ∀ other, byte ≠ dispatchToken other) →
      List.Forall₂ (AccountsForEntry kind) ((Utf8.decode list).splitOn ',') findings →
      AccountsFor (Keyword.onToken :: (expression ++ dispatchToken kind :: list)) findings
  | withoutDispatch {arguments : Bytes} :
      (∀ byte ∈ arguments, ∀ other, byte ≠ dispatchToken other) →
      AccountsFor (Keyword.onToken :: arguments) [.anomaly .onWithoutTarget]
  | silent {body : Bytes} :
      (∀ first ∈ body.head?, isDigit first = false ∧ first ≠ Keyword.onToken ∧
        ∀ kind, first ≠ dispatchToken kind) →
      AccountsFor body []

theorem isDispatchToken_eq_false_iff (byte : UInt8) :
    Statement.isDispatchToken byte = false ↔ ∀ kind, byte ≠ dispatchToken kind := by
  rw [Statement.isDispatchToken, Bool.or_eq_false_iff, decide_eq_false_iff_not,
    decide_eq_false_iff_not]
  constructor
  · rintro ⟨noGoto, noGosub⟩ kind
    cases kind with
    | goto => exact noGoto
    | gosub => exact noGosub
  · intro neither
    exact ⟨neither .goto, neither .gosub⟩

theorem AccountsForEntry.finding_eq
    {kind : JumpKind} {entry : Text} {finding : Finding}
    (accounts : AccountsForEntry kind entry finding) :
    Statement.findingOfEntry kind (TargetEntry.read entry) = finding := by
  cases accounts with
  | line written => rw [TargetEntry.read_eq_line written, Statement.findingOfEntry]
  | unreadable unwritten =>
      rw [TargetEntry.read_eq_unreadable unwritten, Statement.findingOfEntry]

theorem IsSingleJump.ofBody_eq
    {form : JumpForm} {body arguments : Bytes} (single : IsSingleJump form body arguments) :
    Statement.ofBody body = .jump form (lineNumber? arguments) := by
  cases single with
  | goto => rfl
  | gosub => rfl
  | @implied first rest digit =>
      have noToken : Keyword.isToken first = false := by
        simp only [isDigit, Bool.and_eq_true, decide_eq_true_eq] at digit
        simp only [Keyword.isToken, decide_eq_false_iff_not, UInt8.not_lt]
        exact UInt8.le_trans digit.2 (by decide)
      rw [Statement.ofBody, noToken, digit]
      rfl

theorem AccountsForEntry.map_eq
    {kind : JumpKind} {entries : List Text} {findings : List Finding}
    (accounts : List.Forall₂ (AccountsForEntry kind) entries findings) :
    entries.map (fun entry => Statement.findingOfEntry kind (TargetEntry.read entry)) =
      findings := by
  induction accounts with
  | nil => rfl
  | cons first _ hypothesis => rw [List.map_cons, first.finding_eq, hypothesis]

theorem exists_ofOn_dispatch
    {kind : JumpKind} {expression list : Bytes}
    (passed : ∀ byte ∈ expression, ∀ other, byte ≠ dispatchToken other) :
    ∃ read, Statement.ofOn (expression ++ dispatchToken kind :: list) =
      .on read (some ⟨kind, ((Utf8.decode list).splitOn ',').map TargetEntry.read⟩) := by
  have reached : (expression ++ dispatchToken kind :: list).dropWhile
      (fun byte => !Statement.isDispatchToken byte) = dispatchToken kind :: list := by
    refine dropWhile_append_of_head? ?_ ?_
    · intro byte member
      rw [(isDispatchToken_eq_false_iff byte).2 (passed byte member)]
      rfl
    · rintro byte ⟨⟩
      cases kind <;> rfl
  have kept : (if dispatchToken kind = Keyword.gosubToken then JumpKind.gosub else .goto) =
      kind := by
    cases kind <;> rfl
  simp only [Statement.ofOn, reached, kept, Text.fields_eq_splitOn]
  exact ⟨_, rfl⟩

theorem findings_ofOn_dispatch
    {kind : JumpKind} {expression list : Bytes}
    (passed : ∀ byte ∈ expression, ∀ other, byte ≠ dispatchToken other) :
    (Statement.ofOn (expression ++ dispatchToken kind :: list)).findings =
      ((Utf8.decode list).splitOn ',').map fun entry =>
        Statement.findingOfEntry kind (TargetEntry.read entry) := by
  obtain ⟨read, shape⟩ := exists_ofOn_dispatch passed
  rw [shape, Statement.findings, List.map_map]
  rfl

theorem exists_ofOn_withoutDispatch
    {arguments : Bytes}
    (passed : ∀ byte ∈ arguments, ∀ other, byte ≠ dispatchToken other) :
    ∃ read, Statement.ofOn arguments = .on read none := by
  have exhausted : arguments.dropWhile (fun byte => !Statement.isDispatchToken byte) = [] := by
    have whole : ∀ byte ∈ arguments, (!Statement.isDispatchToken byte) = true := by
      intro byte member
      rw [(isDispatchToken_eq_false_iff byte).2 (passed byte member)]
      rfl
    exact List.dropWhile_eq_nil_iff.2 whole
  rw [Statement.ofOn, exhausted]
  exact ⟨_, rfl⟩

/-- Whether a statement is neither a jump nor an ON. -/
def Statement.goesOn : Statement → Bool
  | .jump _ _ => false
  | .on _ _ => false
  | _ => true

theorem Statement.findings_eq_nil_of_goesOn
    {statement : Statement} (plain : statement.goesOn = true) : statement.findings = [] := by
  cases statement with
  | jump form target => cases plain
  | on expression dispatch => cases plain
  | _ => rfl

theorem goesOn_ofKeyword
    {token : UInt8} (noOn : token ≠ Keyword.onToken)
    (noDispatch : ∀ kind, token ≠ dispatchToken kind) (arguments : Bytes) :
    (Statement.ofKeyword token arguments).goesOn = true := by
  have noGoto : token ≠ Keyword.gotoToken := noDispatch .goto
  have noGosub : token ≠ Keyword.gosubToken := noDispatch .gosub
  simp only [Statement.ofKeyword, if_neg noGoto, if_neg noGosub, if_neg noOn,
    apply_ite Statement.goesOn]
  simp [Statement.goesOn]

theorem goesOn_ofBody
    {body : Bytes}
    (silent : ∀ first ∈ body.head?, isDigit first = false ∧ first ≠ Keyword.onToken ∧
      ∀ kind, first ≠ dispatchToken kind) :
    (Statement.ofBody body).goesOn = true := by
  cases body with
  | nil => rfl
  | cons first arguments =>
      obtain ⟨noDigit, noOn, noDispatch⟩ := silent first rfl
      rw [Statement.ofBody]
      split
      · exact goesOn_ofKeyword noOn noDispatch arguments
      · rw [noDigit]
        split
        · contradiction
        · split
          · rfl
          · rfl

theorem AccountsFor.findings_eq
    {body : Bytes} {findings : List Finding} (accounts : AccountsFor body findings) :
    (Statement.ofBody body).findings = findings := by
  cases accounts with
  | target single begins =>
      rw [single.ofBody_eq, (lineNumber?_eq_some_iff _ _).2 begins, Statement.findings]
  | @missing form body arguments single without =>
      have unread : lineNumber? arguments = none := by
        rw [Option.eq_none_iff_forall_ne_some]
        intro number read
        exact without number ((lineNumber?_eq_some_iff arguments number).1 read)
      rw [single.ofBody_eq, unread, Statement.findings]
  | dispatch passed entries =>
      rw [← AccountsForEntry.map_eq entries, ← findings_ofOn_dispatch passed]
      rfl
  | withoutDispatch passed =>
      obtain ⟨read, shape⟩ := exists_ofOn_withoutDispatch passed
      exact congrArg Statement.findings shape
  | silent none => exact Statement.findings_eq_nil_of_goesOn (goesOn_ofBody none)

theorem exists_accountsForEntries (kind : JumpKind) (entries : List Text) :
    ∃ findings, List.Forall₂ (AccountsForEntry kind) entries findings := by
  induction entries with
  | nil => exact ⟨[], .nil⟩
  | cons entry rest hypothesis =>
      obtain ⟨findings, accounts⟩ := hypothesis
      by_cases written : ∃ number, IsTargetNumber entry number
      · obtain ⟨number, isNumber⟩ := written
        exact ⟨_, .cons (.line isNumber) accounts⟩
      · exact ⟨_, .cons (.unreadable (not_exists.1 written)) accounts⟩

theorem IsSingleJump.exists_accountsFor
    {form : JumpForm} {body arguments : Bytes} (single : IsSingleJump form body arguments) :
    ∃ findings, AccountsFor body findings := by
  by_cases begins : ∃ number, BeginsWithNumber arguments number
  · obtain ⟨number, begins⟩ := begins
    exact ⟨_, .target single begins⟩
  · exact ⟨_, .missing single (not_exists.1 begins)⟩

theorem exists_accountsFor_on (arguments : Bytes) :
    ∃ findings, AccountsFor (Keyword.onToken :: arguments) findings := by
  by_cases passed : ∀ byte ∈ arguments, ∀ kind, byte ≠ dispatchToken kind
  · exact ⟨_, .withoutDispatch passed⟩
  · have whole := List.takeWhile_append_dropWhile
      (p := fun byte => !Statement.isDispatchToken byte) (l := arguments)
    have front : ∀ byte ∈ arguments.takeWhile fun byte => !Statement.isDispatchToken byte,
        ∀ kind, byte ≠ dispatchToken kind := by
      intro byte member
      rw [← isDispatchToken_eq_false_iff]
      simpa using List.all_eq_true.1 List.all_takeWhile byte member
    cases shape : arguments.dropWhile fun byte => !Statement.isDispatchToken byte with
    | nil =>
        rw [shape, List.append_nil] at whole
        rw [whole] at front
        exact absurd front passed
    | cons token list =>
        have stops := List.head?_dropWhile_not
          (fun byte => !Statement.isDispatchToken byte) arguments
        rw [shape] at stops
        obtain ⟨kind, rfl⟩ : ∃ kind, token = dispatchToken kind := by
          by_contra other
          have none := (isDispatchToken_eq_false_iff token).2 (not_exists.1 other)
          simp [none] at stops
        obtain ⟨findings, accounts⟩ :=
          exists_accountsForEntries kind ((Utf8.decode list).splitOn ',')
        rw [shape] at whole
        rw [← whole]
        exact ⟨findings, .dispatch front accounts⟩

theorem exists_accountsFor (body : Bytes) :
    ∃ findings, AccountsFor body findings := by
  cases body with
  | nil => exact ⟨[], .silent (by simp)⟩
  | cons first arguments =>
      by_cases goto : first = Keyword.gotoToken
      · exact goto ▸ (IsSingleJump.goto arguments).exists_accountsFor
      by_cases gosub : first = Keyword.gosubToken
      · exact gosub ▸ (IsSingleJump.gosub arguments).exists_accountsFor
      by_cases on : first = Keyword.onToken
      · exact on ▸ exists_accountsFor_on arguments
      by_cases digit : isDigit first = true
      · exact (IsSingleJump.implied arguments digit).exists_accountsFor
      · refine ⟨[], .silent ?_⟩
        rintro other ⟨⟩
        refine ⟨by simpa using digit, on, ?_⟩
        intro kind
        cases kind with
        | goto => exact goto
        | gosub => exact gosub

/-- The findings of a statement are what its bytes say about jumps. -/
theorem accountsFor_iff (body : Bytes) (findings : List Finding) :
    AccountsFor body findings ↔ (Statement.ofBody body).findings = findings := by
  constructor
  · exact AccountsFor.findings_eq
  · rintro rfl
    obtain ⟨findings, accounts⟩ := exists_accountsFor body
    rwa [accounts.findings_eq]

def Anomaly.concernsTarget : Anomaly → Bool
  | .onWithoutTarget => true
  | .badOnTarget _ => true
  | .missingTarget _ => true
  | _ => false

def Finding.concernsJump : Finding → Bool
  | .jump _ _ => true
  | .anomaly cause => cause.concernsTarget
  | _ => false

theorem concernsJump_of_mem_findings
    {statement : Statement} {finding : Finding} (member : finding ∈ statement.findings) :
    finding.concernsJump = true := by
  cases statement with
  | jump form target =>
      cases target with
      | none =>
          rw [List.mem_singleton.1 member]
          rfl
      | some number =>
          rw [List.mem_singleton.1 member]
          rfl
  | on expression dispatch =>
      cases dispatch with
      | none =>
          rw [List.mem_singleton.1 member]
          rfl
      | some dispatch =>
          obtain ⟨entry, _, rfl⟩ := List.mem_map.1 member
          cases entry <;> rfl
  | _ => cases member

/-- The anomalies of a segment concern targets. -/
theorem concernsTarget_of_mem_segment
    {segment : Segment} {cause : Anomaly}
    (member : Finding.anomaly cause ∈ segment.findings) : cause.concernsTarget = true := by
  rw [Segment.findings, List.mem_append] at member
  rcases member with own | reference
  · exact concernsJump_of_mem_findings own
  · split at reference
    · obtain ⟨name, -, same⟩ := List.mem_map.1 reference
      cases same
    · cases reference

theorem Segment.filter_findings (segment : Segment) :
    segment.findings.filter Finding.concernsJump =
      (Statement.ofBody segment.body).findings := by
  have own : (Statement.ofBody segment.body).findings.filter Finding.concernsJump =
      (Statement.ofBody segment.body).findings := by
    rw [List.filter_eq_self]
    intro finding member
    exact concernsJump_of_mem_findings member
  have names (names : List Text) :
      (names.map Finding.reference).filter Finding.concernsJump = [] := by
    rw [List.filter_eq_nil_iff]
    intro finding member
    obtain ⟨name, _, rfl⟩ := List.mem_map.1 member
    simp [Finding.concernsJump]
  simp only [findings, List.filter_append, own]
  split
  · rw [names, List.append_nil]
  · rw [List.filter_nil, List.append_nil]

theorem map_statement_placeSegments
    (offset : Nat) (first : Bool) (segments : List Segment) :
    (placeSegments offset first segments).map Fragment.statement =
      segments.map fun segment => Statement.ofBody segment.body := by
  induction segments generalizing offset first with
  | nil => rfl
  | cons segment rest hypothesis => simp [placeSegments, hypothesis]

/-- What a line has to do with jumps is what its statements have, in their order. -/
theorem Line.filter_findings (record : Record) :
    (Line.ofRecord record).findings.filter Finding.concernsJump =
      (Line.ofRecord record).fragments.flatMap fun fragment => fragment.statement.findings := by
  have segments := filterMap_findings_ofRecord (Option.guard Finding.concernsJump)
    (fun _ => rfl) rfl rfl rfl record
  have statements := map_statement_placeSegments record.payloadStart true
    (Mark.segments (Mark.divide (Lexeme.scan record.payload)))
  simp only [List.filterMap_eq_filter, Segment.filter_findings] at segments
  rw [segments]
  calc
    _ = ((Mark.segments (Mark.divide (Lexeme.scan record.payload))).map
          fun segment => Statement.ofBody segment.body).flatMap Statement.findings :=
      (List.flatMap_map _ _ _).symm
    _ = _ := by rw [← statements, List.flatMap_map]; rfl

namespace Program

/-- What the statements of a program have to do with jumps, with the numbers of their lines, in the
order of the program. -/
def jumpLog (program : Program) : List (UInt16 × Finding) :=
  program.lines.flatMap fun line => line.fragments.flatMap fun fragment =>
    fragment.statement.findings.map fun finding => (line.number, finding)

theorem filter_log (image : Bytes) :
    (decode image).log.filter (fun entry => entry.2.concernsJump) = (decode image).jumpLog := by
  rw [log, jumpLog, List.filter_flatMap]
  refine List.flatMap_congr fun line member => ?_
  obtain ⟨record, _, rfl⟩ := List.mem_map.1 member
  rw [List.filter_map, ← List.map_flatMap, ← Line.filter_findings]
  rfl

theorem linesUnder_target (kind : JumpKind) (target : UInt16) (log : List (UInt16 × Finding)) :
    Symbols.linesUnder target (Symbols.entriesOf (Finding.target? kind) log) =
      Symbols.linesUnder (.jump kind target)
        (log.filter fun entry => entry.2.concernsJump) := by
  rw [Symbols.linesUnder, Symbols.linesUnder, Symbols.entriesOf, List.filter_filterMap,
    List.map_filterMap, List.filter_filter, ← List.filterMap_eq_filter, List.map_filterMap]
  refine List.filterMap_congr fun entry _ => ?_
  by_cases jump : entry.2 = .jump kind target
  · simp [jump, Finding.target?, Finding.concernsJump]
  · have other : entry.2.target? kind ≠ some target := by
      rwa [ne_eq, Finding.target?_eq_some_iff]
    cases found : entry.2.target? kind with
    | none => simp [Option.guard, jump]
    | some number =>
        have different : number ≠ target := by
          rintro rfl
          exact other found
        simp [Option.filter, Option.guard, jump, different]

/-- A table of jumps holds the lines of the statements that jump to a target. -/
theorem get?_jumps_decode (image : Bytes) (kind : JumpKind) (target : UInt16) :
    ((decode image).symbols.jumps kind).get? target =
      Symbols.entered (Symbols.linesUnder (.jump kind target) (decode image).jumpLog) := by
  rw [Symbols.get?_jumps, linesUnder_target]
  exact congrArg (fun log => Symbols.entered (Symbols.linesUnder _ log)) (filter_log image)

theorem mem_keys_jumps_iff (image : Bytes) (kind : JumpKind) (target : UInt16) :
    target ∈ ((decode image).symbols.jumps kind).keys ↔
      ∃ line, (line, .jump kind target) ∈ (decode image).jumpLog := by
  rw [Table.mem_keys_iff, get?_jumps_decode, ne_eq, Symbols.entered_eq_none_iff,
    Symbols.linesUnder, List.map_eq_nil_iff, List.filter_eq_nil_iff]
  push Not
  simp

theorem statement_of_mem_fragments
    {image : Bytes} {line : Line} {fragment : Fragment}
    (inProgram : line ∈ (decode image).lines) (inLine : fragment ∈ line.fragments) :
    fragment.statement = Statement.ofBody fragment.body := by
  obtain ⟨record, _, rfl⟩ := List.mem_map.1 inProgram
  obtain ⟨_, _, placed⟩ := Payload.isStatement_of_mem_fragments inLine
  exact placed.statement

/-- The tables of jumps and the anomalies about targets are those of the statements of a program, in
its order, and each statement says about jumps what its bytes say. -/
theorem jumps_follow_statements (image : Bytes) :
    let program := decode image
    (∀ line ∈ program.lines, ∀ fragment ∈ line.fragments, ∀ findings,
      AccountsFor fragment.body findings ↔ fragment.statement.findings = findings) ∧
      (∀ kind target, (program.symbols.jumps kind).get? target =
        Symbols.entered (Symbols.linesUnder (.jump kind target) program.jumpLog)) ∧
      (∀ kind target, target ∈ (program.symbols.jumps kind).keys ↔
        ∃ line, (line, .jump kind target) ∈ program.jumpLog) ∧
      program.diagnostics.filter (fun diagnostic => diagnostic.anomaly.concernsTarget) =
        program.jumpLog.filterMap fun entry =>
          (anomaly? entry.2).map fun cause => ⟨entry.1, cause⟩ := by
  intro program
  refine ⟨?_, get?_jumps_decode image, mem_keys_jumps_iff image, ?_⟩
  · intro line lineMember fragment member findings
    rw [accountsFor_iff, statement_of_mem_fragments lineMember member]
  · rw [diagnostics_eq, ← filter_log, List.filter_filterMap, List.filterMap_filter]
    refine List.filterMap_congr fun entry _ => ?_
    cases entry.2 with
    | anomaly cause => cases concerns : cause.concernsTarget <;>
        simp [anomaly?, Finding.concernsJump, concerns]
    | _ => simp [anomaly?]

end Program

end Applesoft
