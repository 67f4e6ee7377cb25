import Mathlib.Data.List.Destutter
import Applesoft.Program

namespace Applesoft

section Destutter

variable {alpha : Type} [DecidableEq alpha]

theorem destutter'_concat
    (first last : alpha) (front : List alpha) :
    (front ++ [last]).destutter' (· ≠ ·) first =
      if (front.destutter' (· ≠ ·) first).getLast? = some last then
        front.destutter' (· ≠ ·) first
      else
        front.destutter' (· ≠ ·) first ++ [last] := by
  induction front generalizing first with
  | nil =>
      by_cases same : first = last
      · simp [same]
      · simp [same]
  | cons head rest hypothesis =>
      rw [List.cons_append]
      by_cases different : first ≠ head
      · rw [List.destutter'_cons_pos _ different, List.destutter'_cons_pos _ different,
          hypothesis, List.getLast?_cons_of_ne_nil (List.destutter'_ne_nil _ _)]
        split
        · rfl
        · rfl
      · rw [List.destutter'_cons_neg _ different, List.destutter'_cons_neg _ different,
          hypothesis]

/-- An element comes behind the others unless it repeats the last of them. -/
theorem destutter_concat (front : List alpha) (last : alpha) :
    (front ++ [last]).destutter (· ≠ ·) =
      if (front.destutter (· ≠ ·)).getLast? = some last then
        front.destutter (· ≠ ·)
      else
        front.destutter (· ≠ ·) ++ [last] := by
  cases front with
  | nil => simp
  | cons first rest =>
      rw [List.cons_append, List.destutter_cons', List.destutter_cons']
      exact destutter'_concat first last rest

theorem mem_destutter_iff (elements : List alpha) (element : alpha) :
    element ∈ elements.destutter (· ≠ ·) ↔ element ∈ elements := by
  refine ⟨fun member => (List.destutter_sublist _ elements).subset member, fun member => ?_⟩
  induction elements using List.reverseRecOn with
  | nil => cases member
  | append_singleton front last hypothesis =>
      rw [destutter_concat]
      rcases List.mem_append.1 member with inFront | isLast
      · split
        · exact hypothesis inFront
        · exact List.mem_append_left _ (hypothesis inFront)
      · obtain rfl := List.mem_singleton.1 isLast
        split
        · next repeated => exact List.mem_of_getLast? repeated
        · exact List.mem_concat_self

end Destutter

namespace Symbols

/-- What a table holds under a key that the given lines concern, one after the other. -/
def entered (lines : List UInt16) : Option (List UInt16) :=
  if lines.isEmpty then none else some (lines.destutter (· ≠ ·))

theorem entered_eq_none_iff (lines : List UInt16) :
    entered lines = none ↔ lines = [] := by
  rw [entered]
  split
  · next empty => simpa using empty
  · next nonempty => simpa using nonempty

theorem enterLine_entered (lines : List UInt16) (line : UInt16) :
    some (enterLine line (entered lines)) = entered (lines ++ [line]) := by
  have before : (entered lines).getD [] = lines.destutter (· ≠ ·) := by
    rw [entered]
    split
    · next empty => simp [List.isEmpty_iff.1 empty]
    · rfl
  have nonempty : (lines ++ [line]).isEmpty = false := by simp
  rw [enterLine, before, entered, nonempty, destutter_concat]
  rfl

end Symbols

theorem Table.mem_keys_iff
    {key value : Type} [Ord key] [Std.LawfulEqOrd key]
    (table : Table key value) (wanted : key) :
    wanted ∈ table.keys ↔ table.get? wanted ≠ none := by
  rw [Table.get?, ne_eq, Option.map_eq_none_iff, List.find?_eq_none, Table.keys, List.mem_map]
  push Not
  constructor
  · rintro ⟨entry, member, rfl⟩
    exact ⟨entry, member, by simp⟩
  · rintro ⟨entry, member, same⟩
    exact ⟨entry, member, Std.LawfulEqOrd.eq_of_compare (of_decide_eq_true same)⟩

namespace Symbols

def jumps (symbols : Symbols) : JumpKind → Table UInt16 (List UInt16)
  | .goto => symbols.gotos
  | .gosub => symbols.gosubs

end Symbols

namespace Finding

def target? (kind : JumpKind) : Finding → Option UInt16
  | .jump other target => if other = kind then some target else none
  | _ => none

theorem target?_eq_some_iff (kind : JumpKind) (finding : Finding) (target : UInt16) :
    finding.target? kind = some target ↔ finding = .jump kind target := by
  cases finding with
  | jump other found =>
      by_cases same : other = kind
      · simp [target?, same]
      · simp [target?, same]
  | _ => simp [target?]

def name? : Finding → Option Text
  | .reference name => some name
  | _ => none

def literal? : Finding → Option Text
  | .literal text => some text
  | _ => none

end Finding

/-- What has been found in a program, with the numbers of the lines, in its order. -/
def Program.log (program : Program) : List (UInt16 × Finding) :=
  program.lines.flatMap fun line => line.findings.map fun finding => (line.number, finding)

namespace Symbols

/-- The tables that the findings of a log give, entered one after the other. -/
def ofLog (log : List (UInt16 × Finding)) : Symbols :=
  log.foldl (fun symbols entry => symbols.addFinding entry.1 entry.2) .empty

theorem symbols_eq_ofLog (program : Program) : program.symbols = ofLog program.log := by
  rw [Program.symbols, Program.log, ofLog, List.foldl_flatMap]
  congr 1
  funext symbols line
  rw [List.foldl_map]

/-- The keys that are read in the findings of a log, with the lines. -/
def entriesOf {key : Type} (read : Finding → Option key) (log : List (UInt16 × Finding)) :
    List (UInt16 × key) :=
  log.filterMap fun entry => (read entry.2).map fun found => (entry.1, found)

/-- The lines of the entries with a key. -/
def linesUnder {key : Type} [DecidableEq key] (wanted : key) (entries : List (UInt16 × key)) :
    List UInt16 :=
  (entries.filter fun entry => entry.2 = wanted).map Prod.fst

theorem linesUnder_entriesOf
    {key : Type} [DecidableEq key] (read : Finding → Option key) (wanted : key)
    (log : List (UInt16 × Finding)) :
    linesUnder wanted (entriesOf read log) =
      (log.filter fun entry => read entry.2 = some wanted).map Prod.fst := by
  induction log with
  | nil => rfl
  | cons entry rest hypothesis =>
      rw [entriesOf, List.filterMap_cons, List.filter_cons, ← entriesOf]
      cases found : read entry.2 with
      | none => simpa [found] using hypothesis
      | some other =>
          by_cases same : other = wanted
          · simpa [linesUnder, same] using hypothesis
          · simpa [linesUnder, same] using hypothesis

theorem foldl_enterLine (lines : List UInt16) :
    lines.foldl (fun held line => some (enterLine line held)) none = entered lines := by
  induction lines using List.reverseRecOn with
  | nil => rfl
  | append_singleton front last hypothesis =>
      rw [List.foldl_append, hypothesis]
      exact enterLine_entered front last

section OfLog

variable {key value : Type} [Ord key] [Std.TransOrd key] [Std.LawfulEqOrd key]
  [DecidableEq key]

/-- A table that changes only with the findings in which a key is read holds, under each key, what
these findings have entered. -/
theorem get?_ofLog
    (view : Symbols → Table key value)
    (read : Finding → Option key) (enter : UInt16 × Finding → Option value → value)
    (start : view .empty = .empty)
    (step : ∀ symbols line finding, view (symbols.addFinding line finding) =
      match read finding with
      | some found => (view symbols).alter found (enter (line, finding))
      | none => view symbols)
    (log : List (UInt16 × Finding)) (wanted : key) :
    (view (ofLog log)).get? wanted =
      (log.filter fun entry => read entry.2 = some wanted).foldl
        (fun held entry => some (enter entry held)) none := by
  induction log using List.reverseRecOn with
  | nil =>
      rw [ofLog, List.foldl_nil, start]
      rfl
  | append_singleton front last hypothesis =>
      have further : ofLog (front ++ [last]) = (ofLog front).addFinding last.1 last.2 := by
        rw [ofLog, List.foldl_append]
        rfl
      rw [further, step, List.filter_append, List.foldl_append, ← hypothesis]
      cases found : read last.2 with
      | none => simp [found]
      | some other =>
          by_cases same : other = wanted
          · subst same
            simp [found, Table.get?_alter_self]
          · simp [found, same, Table.get?_alter_of_ne _ _ (Ne.symm same)]

theorem get?_ofLog_lines
    (view : Symbols → Table key (List UInt16)) {read : Finding → Option key}
    (start : view .empty = .empty)
    (step : ∀ symbols line finding, view (symbols.addFinding line finding) =
      match read finding with
      | some found => (view symbols).alter found (enterLine line)
      | none => view symbols)
    (log : List (UInt16 × Finding)) (wanted : key) :
    (view (ofLog log)).get? wanted = entered (linesUnder wanted (entriesOf read log)) := by
  rw [get?_ofLog view read (fun entry => enterLine entry.1) start step, linesUnder_entriesOf,
    ← foldl_enterLine, List.foldl_map]

end OfLog

theorem get?_jumps_ofLog
    (log : List (UInt16 × Finding)) (kind : JumpKind) (target : UInt16) :
    ((ofLog log).jumps kind).get? target =
      entered (linesUnder target (entriesOf (Finding.target? kind) log)) := by
  refine get?_ofLog_lines (fun symbols => symbols.jumps kind) ?_ ?_ _ _
  · cases kind with
    | goto => rfl
    | gosub => rfl
  · intro symbols line finding
    cases finding with
    | jump other found => cases kind <;> cases other <;> rfl
    | _ => rfl

theorem get?_references_ofLog (log : List (UInt16 × Finding)) (name : Text) :
    (ofLog log).references.get? name =
      entered (linesUnder name (entriesOf Finding.name? log)) := by
  refine get?_ofLog_lines Symbols.references rfl ?_ _ _
  intro symbols line finding
  cases finding with
  | jump kind found => cases kind <;> rfl
  | _ => rfl

theorem get?_jumps (program : Program) (kind : JumpKind) (target : UInt16) :
    (program.symbols.jumps kind).get? target =
      entered (linesUnder target (entriesOf (Finding.target? kind) program.log)) := by
  rw [symbols_eq_ofLog, get?_jumps_ofLog]

theorem get?_references (program : Program) (name : Text) :
    program.symbols.references.get? name =
      entered (linesUnder name (entriesOf Finding.name? program.log)) := by
  rw [symbols_eq_ofLog, get?_references_ofLog]

theorem strings_eq (program : Program) :
    program.symbols.strings = entriesOf Finding.literal? program.log := by
  have replay (log : List (UInt16 × Finding)) (symbols : Symbols) :
      (log.foldl (fun symbols entry => symbols.addFinding entry.1 entry.2) symbols).strings =
        symbols.strings ++ entriesOf Finding.literal? log := by
    induction log generalizing symbols with
    | nil => simp [entriesOf]
    | cons entry rest hypothesis =>
        rw [List.foldl_cons, hypothesis, entriesOf, entriesOf, List.filterMap_cons]
        obtain ⟨line, finding⟩ := entry
        cases finding with
        | literal text => simp [addFinding, addString, Finding.literal?]
        | jump kind target => cases kind <;> rfl
        | _ => rfl
  rw [symbols_eq_ofLog, ofLog, replay]
  rfl

end Symbols

theorem Program.diagnostics_eq (program : Program) :
    program.diagnostics =
      program.log.filterMap fun entry =>
        (Program.anomaly? entry.2).map fun cause => ⟨entry.1, cause⟩ := by
  rw [diagnostics, log, List.filterMap_flatMap]
  congr 1
  funext line
  rw [List.map_filterMap, List.filterMap_map]
  rfl

section Segments

variable {alpha : Type} (view : Finding → Option alpha)

theorem filterMap_literals
    (literal : ∀ text, view (.literal text) = none) (contents : List Bytes) :
    (contents.map fun bytes => Finding.literal (Utf8.decode bytes)).filterMap view = [] := by
  rw [List.filterMap_map, List.filterMap_eq_nil_iff]
  intro bytes _
  exact literal (Utf8.decode bytes)

theorem filterMap_findings_marks
    (unfinished : view (.anomaly .ifWithoutThen) = none)
    (stray : view (.anomaly .midLineRem) = none)
    (marks : List Mark) :
    (marks.flatMap Mark.findings).filterMap view =
      (Mark.segments marks).flatMap fun segment => segment.findings.filterMap view := by
  induction marks with
  | nil => rfl
  | cons mark rest hypothesis =>
      rw [List.flatMap_cons, List.filterMap_append, hypothesis]
      cases mark with
      | segment stretch =>
          rw [Mark.segments_cons, List.flatMap_cons]
          rfl
      | unfinishedIf => simp [Mark.findings, Mark.segments, unfinished]
      | strayRemark => simp [Mark.findings, Mark.segments, stray]

/-- Findings of a kind that only segments contribute are those of the segments, in order. -/
theorem filterMap_findings_ofRecord
    (literal : ∀ text, view (.literal text) = none)
    (unfinished : view (.anomaly .ifWithoutThen) = none)
    (stray : view (.anomaly .midLineRem) = none)
    (unterminated : view (.anomaly .unterminatedLine) = none)
    (record : Record) :
    (Line.ofRecord record).findings.filterMap view =
      (Mark.segments (Mark.divide (Lexeme.scan record.payload))).flatMap
        fun segment => segment.findings.filterMap view := by
  have ending :
      (if record.terminated then [] else [Finding.anomaly .unterminatedLine]).filterMap view =
        [] := by
    split
    · rfl
    · simp [unterminated]
  rw [Line.ofRecord, List.filterMap_append, List.filterMap_append,
    filterMap_literals view literal, ending, filterMap_findings_marks view unfinished stray,
    List.nil_append, List.append_nil]

end Segments

end Applesoft
