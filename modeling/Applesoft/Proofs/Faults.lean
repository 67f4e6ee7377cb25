import Applesoft.Proofs.Jumps
import Applesoft.Proofs.RoundTrip
import Applesoft.Proofs.Stretches

/-!
Faults in the structure of a program. A line is at fault if a stretch of its code has an IF with
neither THEN nor GOTO behind it, if its remark begins inside a statement, or if the image ends
before its terminating zero.

The main statement is that the anomalies of a program tell these faults, each of them once, and
nothing else under their names.
-/

namespace Applesoft

def Anomaly.concernsStructure : Anomaly → Bool
  | .midLineRem => true
  | .ifWithoutThen => true
  | .unterminatedLine => true
  | _ => false

/-- What is unusual about a line, in the order in which it is noted. -/
def Line.anomalies (line : Line) : List Anomaly :=
  line.findings.filterMap Program.anomaly?

def Finding.fault? (finding : Finding) : Option Anomaly :=
  (Program.anomaly? finding).filter Anomaly.concernsStructure

theorem Segment.filterMap_fault? (segment : Segment) :
    segment.findings.filterMap Finding.fault? = [] := by
  rw [List.filterMap_eq_nil_iff]
  intro finding member
  cases finding with
  | anomaly cause =>
      have target := concernsTarget_of_mem_segment member
      cases cause with
      | midLineRem => cases target
      | ifWithoutThen => cases target
      | unterminatedLine => cases target
      | _ => rfl
  | _ => rfl

theorem Mark.filterMap_fault? (marks : List Mark) :
    (marks.flatMap Mark.findings).filterMap Finding.fault? = faults marks := by
  induction marks with
  | nil => rfl
  | cons mark rest hypothesis =>
      rw [List.flatMap_cons, List.filterMap_append, hypothesis]
      cases mark with
      | segment stretch => rw [Mark.findings, stretch.filterMap_fault?]; rfl
      | unfinishedIf => rfl
      | strayRemark => rfl

/-- The anomalies of a line that concern its structure: those of the stretches up to the last one, a
stray remark, the last stretch, and a missing end. -/
theorem Line.filter_anomalies (record : Record) :
    (Line.ofRecord record).anomalies.filter Anomaly.concernsStructure =
      Payload.unfinishedFrom record.payload 0 ++ Payload.faultsAtRemark record.payload ++
        if record.terminated then [] else [.unterminatedLine] := by
  have ending :
      (if record.terminated then [] else [Finding.anomaly .unterminatedLine]).filterMap
        Finding.fault? = if record.terminated then [] else [.unterminatedLine] := by
    split <;> rfl
  have marks := Mark.filterMap_fault? (Mark.divide (Lexeme.scan record.payload))
  rw [Payload.faults_divide] at marks
  rw [Line.anomalies, List.filter_filterMap]
  change (Line.ofRecord record).findings.filterMap Finding.fault? = _
  rw [Line.ofRecord, List.filterMap_append, List.filterMap_append,
    filterMap_literals _ fun _ => rfl, marks, ending, List.nil_append]

theorem Line.count_anomalies (record : Record) {cause : Anomaly}
    (structural : cause.concernsStructure = true) :
    (Line.ofRecord record).anomalies.count cause =
      (Payload.unfinishedFrom record.payload 0).count cause +
        (Payload.faultsAtRemark record.payload).count cause +
          (if record.terminated then [] else [Anomaly.unterminatedLine]).count cause := by
  rw [← List.count_filter structural, Line.filter_anomalies, List.count_append, List.count_append]

/-- A line has one IF without THEN or GOTO for each unfinished stretch. -/
theorem Line.count_ifWithoutThen (record : Record) :
    (Line.ofRecord record).anomalies.count .ifWithoutThen =
      (Payload.stretches record.payload).countP (Payload.IsUnfinished record.payload) := by
  have behind :
      (Payload.unfinishedFrom record.payload 0).count .ifWithoutThen =
        (Payload.colons record.payload).countP (Payload.Awaits record.payload) := by
    rw [Payload.unfinishedFrom, List.map_const', List.count_replicate_self, Payload.colons_eq,
      List.countP_eq_length_filter]
  rw [count_anomalies record rfl, behind, Payload.countP_stretches, List.countP_append,
    List.countP_singleton, Payload.faultsAtRemark, List.count_append, Nat.add_assoc]
  congr 1
  by_cases stray : Payload.HasStrayRemark record.payload <;>
    by_cases waits : Payload.Awaits record.payload (Payload.remarkStart record.payload) <;>
      cases record.terminated <;> simp [stray, waits]

theorem Line.count_midLineRem (record : Record) :
    (Line.ofRecord record).anomalies.count .midLineRem =
      if Payload.HasStrayRemark record.payload then 1 else 0 := by
  have behind : (Payload.unfinishedFrom record.payload 0).count .midLineRem = 0 := by
    rw [Payload.unfinishedFrom, List.map_const', List.count_replicate]
    rfl
  rw [count_anomalies record rfl, behind, Payload.faultsAtRemark, List.count_append]
  by_cases stray : Payload.HasStrayRemark record.payload <;>
    by_cases waits : Payload.Awaits record.payload (Payload.remarkStart record.payload) <;>
      cases record.terminated <;> simp [stray, waits]

/-- A record ends with a zero unless the image has none behind its number. -/
theorem Record.IsIn.terminated_eq_false_iff
    {image : Bytes} {record : Record} (placed : record.IsIn image) :
    record.terminated = false ↔ (0 : UInt8) ∉ image.drop record.payloadStart := by
  rw [placed.drop_payloadStart, List.mem_append, or_iff_right placed.zeroFree]
  rcases placed.ended with ⟨terminated, zero⟩ | ⟨unterminated, ended⟩
  · have among : (0 : UInt8) ∈ image.drop record.payloadStop :=
      List.mem_of_getElem? (i := 0) (by rw [List.getElem?_drop, Nat.add_zero, zero])
    simp [terminated, among]
  · simp [unterminated, ended]

/-- Only behind the last record can a zero be missing, since a further one needs room. -/
theorem Record.Follow.terminated_of_mem_dropLast
    {image : Bytes} {offset : Nat} {previous : UInt16} {records : List Record} {record : Record}
    (follow : Follow image offset previous records) (member : record ∈ records.dropLast) :
    record.terminated = true := by
  induction records generalizing offset previous with
  | nil => cases member
  | cons first rest hypothesis =>
      obtain ⟨_, _, placed, remaining⟩ := follow
      cases rest with
      | nil => cases member
      | cons second more =>
          rw [List.dropLast_cons_cons, List.mem_cons] at member
          rcases member with rfl | later
          · obtain ⟨begins, _, next, _⟩ := remaining
            have room := next.room
            rcases placed.stop_eq with ⟨zero, _⟩ | ⟨_, ended⟩
            · refine (placed.ended.resolve_right fun unterminated => ?_).1
              rw [unterminated.2, List.getElem?_eq_none (Nat.le_refl _)] at zero
              cases zero
            · omega
          · exact hypothesis remaining later

/-- A missing end is noted behind everything else about its line. -/
theorem Line.exists_anomalies_eq (record : Record) :
    ∃ others, .unterminatedLine ∉ others ∧
      (Line.ofRecord record).anomalies =
        others ++ if record.terminated then [] else [.unterminatedLine] := by
  let marks := Mark.divide (Lexeme.scan record.payload)
  refine ⟨(marks.flatMap Mark.findings).filterMap Program.anomaly?, ?_, ?_⟩
  · intro member
    obtain ⟨finding, among, isCause⟩ := List.mem_filterMap.1 member
    obtain ⟨mark, _, own⟩ := List.mem_flatMap.1 among
    cases finding with
    | anomaly cause =>
        obtain rfl := Option.some.inj isCause
        exact mark.unterminated_notMem_findings own
    | _ => cases isCause
  · rw [Line.anomalies, Line.ofRecord, List.filterMap_append, List.filterMap_append,
      filterMap_literals _ fun _ => rfl, List.nil_append]
    congr 1
    split <;> rfl

/-- An item that does not occur before the last one has nothing behind it. -/
theorem eq_nil_of_append_eq_append_cons
    {Item : Type} {front ending before behind : List Item} {item : Item}
    (few : ending.length ≤ 1) (absent : item ∉ front)
    (parts : front ++ ending = before ++ item :: behind) : behind = [] := by
  rcases List.append_eq_append_iff.1 parts with ⟨others, _, rest⟩ | ⟨others, whole, rest⟩
  · rw [rest, List.length_append, List.length_cons] at few
    exact List.eq_nil_of_length_eq_zero (by omega)
  · cases others with
    | nil =>
        rw [List.nil_append] at rest
        rw [← rest, List.length_cons] at few
        exact List.eq_nil_of_length_eq_zero (by omega)
    | cons first more =>
        obtain ⟨rfl, _⟩ := List.cons.inj rest
        exact absurd (whole ▸ List.mem_append_right before List.mem_cons_self) absent

namespace Program

/-- The anomalies of a program are followed by the missing end of its last line, and by nothing
else of its kind. -/
theorem exists_diagnostics_eq (image : Bytes) :
    ∃ front : List Diagnostic,
      (∀ diagnostic ∈ front, diagnostic.anomaly ≠ .unterminatedLine) ∧
        (decode image).diagnostics =
          front ++ ((decode image).lines.getLast?.toList.filter fun line =>
            !line.record.terminated).map fun line => ⟨line.number, .unterminatedLine⟩ := by
  have complete : ∀ record ∈ (records image).dropLast, record.terminated = true :=
    fun _ member => (follow_records image).terminated_of_mem_dropLast member
  rcases List.eq_nil_or_concat' (records image) with none | ⟨others, last, shape⟩
  · exact ⟨[], by simp, by simp [diagnostics, decode, none]⟩
  · rw [shape, List.dropLast_concat] at complete
    obtain ⟨anomalies, plain, ends⟩ := Line.exists_anomalies_eq last
    let noted (line : Line) (causes : List Anomaly) : List Diagnostic :=
      causes.map fun cause => ⟨line.number, cause⟩
    refine ⟨(others.flatMap fun record =>
      noted (Line.ofRecord record) (Line.ofRecord record).anomalies) ++
        noted (Line.ofRecord last) anomalies, ?_, ?_⟩
    · intro diagnostic member
      rcases List.mem_append.1 member with earlier | inLast
      · obtain ⟨record, among, own⟩ := List.mem_flatMap.1 earlier
        obtain ⟨cause, isCause, rfl⟩ := List.mem_map.1 own
        obtain ⟨causes, absent, shape⟩ := Line.exists_anomalies_eq record
        rw [shape, complete record among, if_pos rfl, List.append_nil] at isCause
        exact fun same => absent (same ▸ isCause)
      · obtain ⟨cause, isCause, rfl⟩ := List.mem_map.1 inLast
        exact fun same => plain (same ▸ isCause)
    · have whole :
          (decode image).diagnostics =
            (others.flatMap fun record =>
              noted (Line.ofRecord record) (Line.ofRecord record).anomalies) ++
              noted (Line.ofRecord last) (Line.ofRecord last).anomalies := by
        rw [diagnostics, decode, shape, List.map_append, List.flatMap_append, List.flatMap_map]
        simp [noted, Line.anomalies]
      have final : (decode image).lines.getLast? = some (Line.ofRecord last) := by
        rw [decode, shape, List.map_append, List.map_singleton, List.getLast?_concat]
      rw [whole, ends, final, List.append_assoc]
      congr 1
      cases terminated : last.terminated with
      | true => simp [noted, Line.ofRecord, terminated]
      | false => simp [noted, Line.ofRecord, terminated]

theorem isIn_of_mem_lines
    {image : Bytes} {line : Line} (member : line ∈ (decode image).lines) :
    line.record.IsIn image := by
  obtain ⟨record, among, rfl⟩ := List.mem_map.1 member
  exact (follow_records image).isIn among

/-- What is unusual about the structure of a program. Its lines are gone through in order, and what
is unusual about a line is noted under its number. There is one IF without THEN or GOTO for each
stretch of code that is unfinished, and one remark inside a statement if the remark of the line does
not begin where a statement does by the other rules. The end is missing at most once: it is if the
image has no zero behind the number of its last line, and nothing is noted after it. -/
theorem diagnostics_follow_structure (image : Bytes) :
    let program := decode image
    program.diagnostics =
        program.lines.flatMap (fun line =>
          line.anomalies.map fun cause => ⟨line.number, cause⟩) ∧
      (∀ line ∈ program.lines,
        let payload := line.record.payload
        line.record.IsIn image ∧
          line.anomalies.count .ifWithoutThen =
            (Payload.stretches payload).countP (Payload.IsUnfinished payload) ∧
          line.anomalies.count .midLineRem =
            if Payload.HasStrayRemark payload then 1 else 0) ∧
      (∀ number, ⟨number, .unterminatedLine⟩ ∈ program.diagnostics ↔
        ∃ line, program.lines.getLast? = some line ∧ line.number = number ∧
          (0 : UInt8) ∉ image.drop line.record.payloadStart) ∧
      ∀ before diagnostic behind, program.diagnostics = before ++ diagnostic :: behind →
        diagnostic.anomaly = .unterminatedLine → behind = [] := by
  intro program
  obtain ⟨front, plain, shape⟩ := exists_diagnostics_eq image
  refine ⟨rfl, ?_, ?_, ?_⟩
  · intro line member payload
    have placed := isIn_of_mem_lines member
    obtain ⟨record, _, rfl⟩ := List.mem_map.1 member
    exact ⟨placed, Line.count_ifWithoutThen record, Line.count_midLineRem record⟩
  · intro number
    have absent : ⟨number, .unterminatedLine⟩ ∉ front := fun member => plain _ member rfl
    rw [shape, List.mem_append, or_iff_right absent]
    constructor
    · intro member
      obtain ⟨line, isLast, same⟩ := List.mem_map.1 member
      rw [List.mem_filter, Option.mem_toList, Bool.not_eq_true'] at isLast
      have placed := isIn_of_mem_lines (List.mem_of_getLast? isLast.1)
      injection same with sameNumber
      exact ⟨line, isLast.1, sameNumber, placed.terminated_eq_false_iff.1 isLast.2⟩
    · rintro ⟨line, isLast, rfl, missing⟩
      have placed := isIn_of_mem_lines (List.mem_of_getLast? isLast)
      refine List.mem_map.2 ⟨line, ?_, rfl⟩
      rw [List.mem_filter, Option.mem_toList, Bool.not_eq_true']
      exact ⟨isLast, placed.terminated_eq_false_iff.2 missing⟩
  · intro before diagnostic behind parts unterminated
    have absent : diagnostic ∉ front := fun member => plain diagnostic member unterminated
    refine eq_nil_of_append_eq_append_cons ?_ absent (shape.symm.trans parts)
    rw [List.length_map]
    refine Nat.le_trans (List.length_filter_le _ _) ?_
    exact Option.length_toList_le

end Program

end Applesoft
