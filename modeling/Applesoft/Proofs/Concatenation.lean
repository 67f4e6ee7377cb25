import Applesoft.Proofs.Collisions
import Applesoft.Proofs.RoundTrip

/-!
Images that are put together. Nothing that is read in a line depends on the lines before it, so an
image that ends with a line can be read on its own, and so can what follows it.

The main statement says how the programs and the tables of the two parts make up those of the whole.
-/

namespace Applesoft

namespace Record

/-- A record as it is with a number of bytes in front of its image. -/
def moveBy (distance : Nat) (record : Record) : Record :=
  { record with start := record.start + distance }

theorem stop_moveBy (distance : Nat) (record : Record) :
    (record.moveBy distance).stop = record.stop + distance := by
  simp only [moveBy, stop, payloadStart]
  omega

end Record

def Fragment.moveBy (distance : Nat) (fragment : Fragment) : Fragment :=
  { fragment with
    start := fragment.start + distance
    stop := fragment.stop + distance }

def Line.moveBy (distance : Nat) (line : Line) : Line :=
  { line with
    record := line.record.moveBy distance
    fragments := line.fragments.map (Fragment.moveBy distance) }

theorem recordsFrom_moveBy
    (distance offset : Nat) (previous : UInt16) (bytes : Bytes) :
    recordsFrom (offset + distance) previous bytes =
      (recordsFrom offset previous bytes).map (Record.moveBy distance) := by
  induction offset, previous, bytes using recordsFrom.induct with
  | case1 offset previous link₀ link₁ number₀ number₁ first second more link larger
      contents beyond record hypothesis =>
      have moved := record.stop_moveBy distance
      rw [recordsFrom, if_pos larger, recordsFrom, if_pos larger, List.map_cons, ← hypothesis,
        ← moved]
      rfl
  | case2 offset previous link₀ link₁ number₀ number₁ first second more link notLarger =>
      rw [recordsFrom, if_neg notLarger, recordsFrom, if_neg notLarger, List.map_nil]
  | case3 offset previous bytes short =>
      have nothing (offset : Nat) : recordsFrom offset previous bytes = [] := by
        rw [recordsFrom]
        exact short
      rw [nothing, nothing, List.map_nil]

theorem placeSegments_moveBy
    (distance offset : Nat) (first : Bool) (segments : List Segment) :
    placeSegments (offset + distance) first segments =
      (placeSegments offset first segments).map (Fragment.moveBy distance) := by
  induction segments generalizing offset first with
  | nil => rfl
  | cons segment rest hypothesis =>
      have moved : offset + distance + segment.span.length =
          offset + segment.span.length + distance := Nat.add_right_comm _ _ _
      simp only [placeSegments, List.map_cons, moved, hypothesis]
      rfl

theorem Line.ofRecord_moveBy (distance : Nat) (record : Record) :
    Line.ofRecord (record.moveBy distance) = (Line.ofRecord record).moveBy distance := by
  have moved : (record.moveBy distance).payloadStart = record.payloadStart + distance :=
    Nat.add_right_comm _ _ _
  have fragments := placeSegments_moveBy distance record.payloadStart true
    (Mark.segments (Mark.divide (Lexeme.scan record.payload)))
  rw [Line.ofRecord, moved, Record.moveBy]
  simp only [fragments]
  rfl

section Append

variable {offset : Nat} {previous : UInt16}

/-- The link before some bytes matters only as far as the first one of these exceeds it. -/
theorem recordsFrom_of_larger
    {other : UInt16} {bytes : Bytes}
    (begins : bytes.length < 6 ∨ ∀ link ∈ wordAt? bytes 0, previous < link ∧ other < link) :
    recordsFrom offset previous bytes = recordsFrom offset other bytes := by
  rcases bytes with _ | ⟨link₀, _ | ⟨link₁, _ | ⟨number₀, _ | ⟨number₁,
    _ | ⟨first, _ | ⟨second, more⟩⟩⟩⟩⟩⟩
  case cons.cons.cons.cons.cons.cons =>
    rcases begins with short | larger
    · simp only [List.length_cons] at short
      omega
    · obtain ⟨larger, otherLarger⟩ := larger (word link₀ link₁) rfl
      rw [recordsFrom, if_pos larger, recordsFrom, if_pos otherLarger]
  all_goals simp [recordsFrom]

/-- Records that take all of some bytes, with a zero behind the last one, are read in the same way
if others follow. The induction is that of the reading. -/
theorem recordsFrom_append
    {front : Bytes} (behind : Bytes)
    (whole : ((recordsFrom offset previous front).getLast?.map Record.stop).getD offset =
      offset + front.length)
    (closed : ∀ record ∈ (recordsFrom offset previous front).getLast?,
      record.terminated = true) :
    recordsFrom offset previous (front ++ behind) =
      recordsFrom offset previous front ++
        recordsFrom (offset + front.length)
          (((recordsFrom offset previous front).getLast?.map Record.link).getD previous)
          behind := by
  induction offset, previous, front using recordsFrom.induct with
  | case1 offset previous link₀ link₁ number₀ number₁ first second more link larger
      contents beyond record hypothesis =>
      -- Without a zero the record is the last one, and nothing closes it.
      have notEmpty : beyond ≠ [] := by
        intro empty
        have alone : recordsFrom offset previous
            (link₀ :: link₁ :: number₀ :: number₁ :: first :: second :: more) = [record] := by
          have nothing : recordsFrom record.stop link (beyond.drop 1) = [] := by
            simp [empty, recordsFrom]
          rw [recordsFrom, if_pos larger, ← nothing]
        have terminated := closed record (by rw [alone]; rfl)
        simp [record, empty] at terminated
      obtain ⟨zero, later, shape⟩ := List.exists_cons_of_ne_nil notEmpty
      have spelled : first :: second :: more = record.payload ++ 0 :: later := by
        rw [← head?_dropWhile_isPayloadByte shape, ← shape]
        exact List.takeWhile_append_dropWhile.symm
      have closedByZero : record =
          { start := offset
            link := word link₀ link₁
            number := word number₀ number₁
            payload := record.payload
            terminated := true } := by
        simp [record, shape, link]
      have long : record.payload ++ later ≠ [] := by
        intro empty
        simp [List.append_eq_nil_iff.1 empty] at spelled
      have reads (rest : Bytes) (long : record.payload ++ rest ≠ []) :
          recordsFrom offset previous
              (link₀ :: link₁ :: number₀ :: number₁ :: (record.payload ++ 0 :: rest)) =
            record :: recordsFrom record.stop link rest := by
        rw [recordsFrom_of_zero larger (zero_notMem_takeWhile contents) long, closedByZero]
        rfl
      have length : record.stop + later.length =
          offset + (link₀ :: link₁ :: number₀ :: number₁ :: first :: second :: more).length := by
        rw [closedByZero, spelled]
        simp only [Record.stop, Record.payloadStart, Bool.toNat_true, List.length_cons,
          List.length_append]
        omega
      rw [← length] at whole ⊢
      rw [spelled, reads later long, List.getLast?_cons] at whole closed ⊢
      rw [Option.map_some, Option.getD_some] at whole ⊢
      rw [← Option.getD_map Record.stop] at whole
      rw [← Option.getD_map Record.link]
      have remaining : beyond.drop 1 = later := by rw [shape, List.drop_one, List.tail_cons]
      rw [remaining] at hypothesis
      have further := hypothesis whole fun last member =>
        closed last (by rw [Option.mem_def.1 member]; rfl)
      have followed :
          (link₀ :: link₁ :: number₀ :: number₁ :: (record.payload ++ 0 :: later)) ++ behind =
            link₀ :: link₁ :: number₀ :: number₁ ::
              (record.payload ++ 0 :: (later ++ behind)) := by
        simp
      have longer : record.payload ++ (later ++ behind) ≠ [] := by
        rw [← List.append_assoc]
        exact List.append_ne_nil_of_left_ne_nil long behind
      rw [followed, reads (later ++ behind) longer, further]
      rfl
  | case2 offset previous link₀ link₁ number₀ number₁ first second more link notLarger =>
      rw [recordsFrom, if_neg notLarger] at whole
      simp at whole
  | case3 offset previous bytes short =>
      have nothing : recordsFrom offset previous bytes = [] := by
        rw [recordsFrom]
        exact short
      rw [nothing] at whole ⊢
      have empty : bytes = [] := by simpa using whole
      simp [empty]

/-- The bytes behind an image that ends with a line are read as they are on their own. -/
theorem records_append
    (front behind : Bytes)
    (whole : ((records front).getLast?.map Record.stop).getD 0 = front.length)
    (closed : ∀ record ∈ (records front).getLast?, record.terminated = true)
    (begins : behind.length < 6 ∨
      ∀ record ∈ (records front).getLast?, ∀ link ∈ wordAt? behind 0, record.link < link) :
    records (front ++ behind) =
      records front ++ (records behind).map (Record.moveBy front.length) := by
  have apart := recordsFrom_append behind (by rwa [Nat.zero_add]) closed
  have own : recordsFrom (0 + front.length)
      (((recordsFrom 0 0 front).getLast?.map Record.link).getD 0) behind =
        recordsFrom (0 + front.length) 0 behind := by
    rcases begins with short | larger
    · exact recordsFrom_of_larger (Or.inl short)
    · cases last : (records front).getLast? with
      | none =>
          rw [records] at last
          rw [last]
          rfl
      | some record =>
          have less := larger record last
          rw [records] at last
          rw [last]
          refine recordsFrom_of_larger (Or.inr fun link read => ⟨less link read, ?_⟩)
          exact UInt16.lt_of_le_of_lt UInt16.zero_le (less link read)
  rw [records, apart, own, recordsFrom_moveBy]
  rfl

end Append

section Meet

variable {alpha : Type} [DecidableEq alpha]

/-- Lists one behind the other, but an element in which they meet stands once. -/
def meet (front behind : List alpha) : List alpha :=
  front ++ if front.getLast? = behind.head? then behind.tail else behind

theorem meet_nil (front : List alpha) : meet front [] = front := by
  simp [meet]

theorem getLast?_meet (front : List alpha) {behind : List alpha} (nonempty : behind ≠ []) :
    (meet front behind).getLast? = behind.getLast? := by
  obtain ⟨first, others, rfl⟩ := List.exists_cons_of_ne_nil nonempty
  rw [meet, List.head?_cons, List.tail_cons]
  by_cases same : front.getLast? = some first
  · rw [if_pos same, List.getLast?_append, same, List.getLast?_cons]
    cases others.getLast? with
    | none => rfl
    | some last => rfl
  · rw [if_neg same, List.getLast?_append, List.getLast?_cons]
    rfl

theorem meet_concat
    (front : List alpha) {behind : List alpha} (nonempty : behind ≠ []) (last : alpha) :
    meet front (behind ++ [last]) = meet front behind ++ [last] := by
  obtain ⟨first, others, rfl⟩ := List.exists_cons_of_ne_nil nonempty
  rw [meet, meet, List.cons_append, List.head?_cons, List.head?_cons]
  split
  · rw [List.tail_cons, List.tail_cons, List.append_assoc]
  · rw [List.append_assoc, List.cons_append]

theorem destutter_append (front behind : List alpha) :
    (front ++ behind).destutter (· ≠ ·) =
      meet (front.destutter (· ≠ ·)) (behind.destutter (· ≠ ·)) := by
  induction behind using List.reverseRecOn with
  | nil => rw [List.append_nil, List.destutter_nil, meet_nil]
  | append_singleton others last hypothesis =>
      rw [← List.append_assoc, destutter_concat, hypothesis, destutter_concat]
      by_cases first : others = []
      · rw [first, List.destutter_nil, meet_nil, meet]
        simp only [List.getLast?_nil, reduceCtorEq, if_false, List.nil_append, List.head?_cons,
          List.tail_cons]
        split
        · rw [List.append_nil]
        · rfl
      · have nonempty : others.destutter (· ≠ ·) ≠ [] :=
          fun empty => first ((List.destutter_eq_nil _).1 empty)
        rw [getLast?_meet _ nonempty]
        split
        · rfl
        · rw [meet_concat _ nonempty]

end Meet

theorem eraseDups_filter
    {alpha : Type} [BEq alpha] [LawfulBEq alpha] (kept : alpha → Bool) (elements : List alpha) :
    (elements.filter kept).eraseDups = elements.eraseDups.filter kept := by
  induction elements using List.reverseRecOn with
  | nil => rfl
  | append_singleton front last hypothesis =>
      rw [List.filter_append, eraseDups_concat]
      by_cases keep : kept last = true
      · have same : (front.filter kept).contains last = front.contains last := by
          rw [Bool.eq_iff_iff, List.contains_iff_mem, List.contains_iff_mem, List.mem_filter]
          exact and_iff_left keep
        rw [List.filter_cons_of_pos keep, List.filter_nil, eraseDups_concat, same, hypothesis]
        split
        · rfl
        · rw [List.filter_append, List.filter_cons_of_pos keep, List.filter_nil]
      · rw [List.filter_cons_of_neg keep, List.filter_nil, List.append_nil, hypothesis]
        split
        · rfl
        · rw [List.filter_append, List.filter_cons_of_neg keep, List.filter_nil, List.append_nil]

namespace Symbols

/-- Names of a bucket followed by those of another one that are new. -/
def followNames (front behind : List Text) : List Text :=
  front ++ behind.filter fun name => !front.contains name

theorem entered_append (front behind : List UInt16) :
    entered (front ++ behind) = Option.merge meet (entered front) (entered behind) := by
  cases front with
  | nil => cases behind <;> rfl
  | cons first others =>
      cases behind with
      | nil => rw [List.append_nil]; rfl
      | cons next more => exact congrArg some (destutter_append (first :: others) (next :: more))

theorem eraseDups_append_eq (front behind : List Text) :
    (front ++ behind).eraseDups = followNames front.eraseDups behind.eraseDups := by
  have same (name : Text) : front.eraseDups.contains name = front.contains name := by
    rw [Bool.eq_iff_iff, List.contains_iff_mem, List.contains_iff_mem, List.mem_eraseDups]
  rw [List.eraseDups_append, List.removeAll, eraseDups_filter, followNames]
  simp only [same]

theorem bucketOf_append (front behind : List Text) :
    bucketOf (front ++ behind) =
      Option.merge followNames (bucketOf front) (bucketOf behind) := by
  cases front with
  | nil => cases behind <;> rfl
  | cons first others =>
      cases behind with
      | nil => rw [List.append_nil]; rfl
      | cons next more =>
          exact congrArg some (eraseDups_append_eq (first :: others) (next :: more))

section Entries

variable (front behind : List (UInt16 × Finding))

theorem entriesOf_append {key : Type} (read : Finding → Option key) :
    entriesOf read (front ++ behind) = entriesOf read front ++ entriesOf read behind :=
  List.filterMap_append

theorem linesUnder_append
    {key : Type} [DecidableEq key] (wanted : key) (front behind : List (UInt16 × key)) :
    linesUnder wanted (front ++ behind) = linesUnder wanted front ++ linesUnder wanted behind := by
  rw [linesUnder, List.filter_append, List.map_append]
  rfl

theorem get?_jumps_append (kind : JumpKind) (target : UInt16) :
    ((ofLog (front ++ behind)).jumps kind).get? target =
      Option.merge meet (((ofLog front).jumps kind).get? target)
        (((ofLog behind).jumps kind).get? target) := by
  simp only [get?_jumps_ofLog, entriesOf_append, linesUnder_append, entered_append]

theorem get?_references_append (name : Text) :
    (ofLog (front ++ behind)).references.get? name =
      Option.merge meet ((ofLog front).references.get? name)
        ((ofLog behind).references.get? name) := by
  simp only [get?_references_ofLog, entriesOf_append, linesUnder_append, entered_append]

theorem get?_collisions_append (key : Text) :
    (ofLog (front ++ behind)).collisions.get? key =
      Option.merge followNames ((ofLog front).collisions.get? key)
        ((ofLog behind).collisions.get? key) := by
  simp only [get?_collisions_ofLog, namesIn, entriesOf_append, List.map_append, namesUnder,
    List.filter_append, bucketOf_append]

end Entries

end Symbols

namespace Program

/-- Whether decoding takes all of an image, up to the zero at the end of its last line. -/
structure IsWhole (program : Program) : Prop where
  stop : program.stop = program.image.length
  closed : ∀ line ∈ program.lines.getLast?, line.record.terminated = true

/-- Whether some bytes are too few for a line, or begin with a larger link than the last line of a
program. -/
def IsContinuedBy (program : Program) (behind : Bytes) : Prop :=
  behind.length < 6 ∨
    ∀ line ∈ program.lines.getLast?, ∀ link ∈ wordAt? behind 0, line.record.link < link

theorem lines_decode_append
    {front behind : Bytes}
    (whole : (decode front).IsWhole) (continued : (decode front).IsContinuedBy behind) :
    (decode (front ++ behind)).lines =
      (decode front).lines ++ (decode behind).lines.map (Line.moveBy front.length) := by
  have last : (decode front).lines.getLast? = (records front).getLast?.map Line.ofRecord := by
    rw [decode, List.getLast?_map]
  have apart := records_append front behind ?_ ?_ ?_
  · simp only [decode, apart, List.map_append, List.map_map]
    congr 1
    exact List.map_congr_left fun record _ => Line.ofRecord_moveBy front.length record
  · have stop := whole.stop
    rw [Program.stop, last, Option.map_map] at stop
    exact stop
  · intro record member
    exact whole.closed _ (last ▸ Option.mem_map_of_mem _ member)
  · refine continued.imp_right fun larger record member => ?_
    exact larger _ (last ▸ Option.mem_map_of_mem _ member)

theorem log_decode_append
    {front behind : Bytes}
    (whole : (decode front).IsWhole) (continued : (decode front).IsContinuedBy behind) :
    (decode (front ++ behind)).log = (decode front).log ++ (decode behind).log := by
  rw [log, lines_decode_append whole continued, List.flatMap_append, List.flatMap_map]
  rfl

theorem stop_decode_append
    {front behind : Bytes}
    (whole : (decode front).IsWhole) (continued : (decode front).IsContinuedBy behind) :
    (decode (front ++ behind)).stop = front.length + (decode behind).stop := by
  have own := whole.stop
  rw [stop, lines_decode_append whole continued, List.getLast?_append, List.getLast?_map, stop]
  cases last : (decode behind).lines.getLast? with
  | none => exact own
  | some line =>
      have moved := line.record.stop_moveBy front.length
      rw [Nat.add_comm] at moved
      exact moved

/-- An image that is taken whole and what goes on behind it are decoded as they are on their own.
The lines of the second part are moved behind the first one, and the tables of the parts are put
together: a line in which they meet under a key is entered once, and a name that both have in a
bucket keeps its place in the first. -/
theorem decode_append
    (front behind : Bytes)
    (whole : (decode front).IsWhole)
    (continued : (decode front).IsContinuedBy behind) :
    let program := decode (front ++ behind)
    let early := decode front
    let late := decode behind
    program.lines = early.lines ++ late.lines.map (Line.moveBy front.length) ∧
      program.stop = front.length + late.stop ∧
      program.diagnostics = early.diagnostics ++ late.diagnostics ∧
      program.symbols.strings = early.symbols.strings ++ late.symbols.strings ∧
      (∀ kind target, (program.symbols.jumps kind).get? target =
        Option.merge meet ((early.symbols.jumps kind).get? target)
          ((late.symbols.jumps kind).get? target)) ∧
      (∀ name, program.symbols.references.get? name =
        Option.merge meet (early.symbols.references.get? name)
          (late.symbols.references.get? name)) ∧
      ∀ key, program.symbols.collisions.get? key =
        Option.merge Symbols.followNames (early.symbols.collisions.get? key)
          (late.symbols.collisions.get? key) := by
  intro program early late
  have log : program.log = early.log ++ late.log := log_decode_append whole continued
  refine ⟨lines_decode_append whole continued, stop_decode_append whole continued, ?_, ?_, ?_, ?_,
    ?_⟩
  · rw [diagnostics_eq, diagnostics_eq, diagnostics_eq, log, List.filterMap_append]
  · rw [Symbols.strings_eq, Symbols.strings_eq, Symbols.strings_eq, log, Symbols.entriesOf_append]
  · intro kind target
    simp only [Symbols.symbols_eq_ofLog, log, Symbols.get?_jumps_append]
  · intro name
    simp only [Symbols.symbols_eq_ofLog, log, Symbols.get?_references_append]
  · intro key
    simp only [Symbols.symbols_eq_ofLog, log, Symbols.get?_collisions_append]

/-- Two parts of a line 10, each with a GOTO 100. -/
theorem decode_append_of_two_jumps :
    let front : Bytes := [0x0A, 0x08, 0x0A, 0x00, 0xAB, 0x31, 0x30, 0x30, 0x00]
    let behind : Bytes :=
      [0x13, 0x08, 0x0A, 0x00, 0xAB, 0x31, 0x30, 0x30, 0x00, 0x00, 0x00]
    (decode front).IsWhole ∧ (decode front).IsContinuedBy behind ∧
      (decode (front ++ behind)).stop = 18 ∧
      ((decode (front ++ behind)).symbols.jumps .goto).get? 100 = some [10] := by
  intro front behind
  have whole : (decode front).IsWhole := ⟨by decide +kernel, by decide +kernel⟩
  have links : (decode front).lines.getLast?.map (fun line => line.record.link) = some 0x80A ∧
      wordAt? behind 0 = some 0x813 := by decide +kernel
  have continued : (decode front).IsContinuedBy behind := by
    refine Or.inr fun line last link read => ?_
    rw [Option.mem_def.1 last, Option.map_some, Option.some.injEq] at links
    rw [Option.mem_def.1 read, Option.some.injEq] at links
    rw [links.1, links.2]
    decide
  obtain ⟨_, stop, _, _, jumps, _⟩ := decode_append front behind whole continued
  exact ⟨whole, continued, stop.trans (by decide +kernel),
    (jumps .goto 100).trans (by decide +kernel)⟩

end Program

end Applesoft
