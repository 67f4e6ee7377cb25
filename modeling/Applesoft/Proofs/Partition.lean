import Applesoft.Program
import Applesoft.Proofs.Division
import Applesoft.Proofs.Records

/-!
Decoding loses nothing. The lines of a program tile its image up to the place where decoding ends,
and the fragments of a line tile its payload, so that their bytes, with the colons between them,
spell it.
-/

namespace Applesoft

namespace Line

def payloadStop (line : Line) : Nat :=
  line.record.payloadStop

/-- The place of a fragment in the image. -/
def span (fragment : Fragment) : Nat × Nat :=
  (fragment.start, fragment.stop)

/-- The colon that closes a fragment, if there is one: a colon of code as its last byte. -/
def separator (line : Line) (fragment : Fragment) : Bytes :=
  if Payload.HasCode line.record.payload Punctuation.colon
      (fragment.stop - line.record.payloadStart - 1) then
    [Punctuation.colon]
  else
    []

/-- Whether the fragments of a line are what an image has between the number of the line and its
end. -/
structure IsPartition (image : Bytes) (line : Line) : Prop where
  number : wordAt? image (line.record.start + 2) = some line.number
  payload : image.extract line.record.payloadStart line.payloadStop = line.record.payload
  zeroFree : (0 : UInt8) ∉ line.record.payload
  ended :
    (image[line.payloadStop]? = some 0 ∧ line.record.stop = line.payloadStop + 1) ∨
      (line.payloadStop = image.length ∧ line.record.stop = image.length)
  tiled : Tiles line.record.payloadStart line.payloadStop (line.fragments.map span)
  first : ∀ index fragment, line.fragments[index]? = some fragment →
    fragment.first = decide (index = 0)
  bodies : ∀ fragment ∈ line.fragments,
    image.extract fragment.start fragment.stop = fragment.body ++ line.separator fragment
  spelled :
    (line.fragments.flatMap fun fragment => fragment.body ++ line.separator fragment) =
      line.record.payload

end Line

namespace Program

def links (program : Program) : List (Option UInt16) :=
  program.lines.map fun line => wordAt? program.image line.record.start

/-- Whether the lines of a program are what its image holds, up to where no further record
follows. -/
structure IsPartition (program : Program) : Prop where
  tiled : Tiles 0 program.stop
    (program.lines.map fun line => (line.record.start, line.record.stop))
  stop_le : program.stop ≤ program.image.length
  room : ∀ line ∈ program.lines, line.record.start + 6 ≤ program.image.length
  linked : ∃ links : List UInt16,
    program.links = links.map some ∧ (0 :: links).Pairwise (· < ·) ∧
      Record.EndsAt program.image program.stop (links.getLast?.getD 0)
  lines : ∀ line ∈ program.lines, line.IsPartition program.image

end Program

theorem tiles_placeSegments
    {payload : Bytes} {offset start : Nat} {first : Bool} {segments : List Segment}
    (run : Payload.RunBetweenBoundaries payload start segments) :
    Tiles (offset + start) (offset + payload.length)
      ((placeSegments (offset + start) first segments).map Line.span) := by
  induction segments generalizing start first with
  | nil =>
      have ended : start = payload.length := run
      exact congrArg (offset + ·) ended
  | cons segment rest hypothesis =>
      obtain ⟨ends, _, remaining⟩ := run
      have forward := ends.start_lt
      rw [placeSegments, List.map_cons]
      refine ⟨rfl, ?_, ?_⟩
      · change offset + start < offset + start + segment.span.length
        omega
      · change Tiles (offset + start + segment.span.length) _ _
        rw [Nat.add_assoc]
        exact hypothesis remaining

theorem first_of_getElem?_placeSegments
    {offset index : Nat} {first : Bool} {segments : List Segment} {fragment : Fragment}
    (member : (placeSegments offset first segments)[index]? = some fragment) :
    fragment.first = (first && decide (index = 0)) := by
  induction segments generalizing offset index first with
  | nil => simp [placeSegments] at member
  | cons segment rest hypothesis =>
      cases index with
      | zero =>
          simp only [placeSegments, List.getElem?_cons_zero, Option.some.injEq] at member
          simp [← member]
      | succ index =>
          simp only [placeSegments, List.getElem?_cons_succ] at member
          simp [hypothesis member]

theorem extract_of_extract_eq
    {image payload : Bytes} {offset start stop : Nat}
    (slice : image.extract offset (offset + payload.length) = payload)
    (inside : stop ≤ payload.length) :
    image.extract (offset + start) (offset + stop) = payload.extract start stop := by
  have same := congrArg (fun bytes : Bytes => bytes.extract start stop) slice
  have width : min (stop - start) (payload.length - start) = stop - start := by omega
  rw [← same, List.extract_eq_take_drop, List.extract_eq_take_drop,
    List.extract_eq_take_drop, Nat.add_sub_cancel_left, Nat.add_sub_add_left,
    List.drop_take, List.drop_drop, List.take_take, width]

theorem Record.IsIn.stop_eq
    {image : Bytes} {record : Record} (placed : record.IsIn image) :
    (image[record.payloadStop]? = some 0 ∧ record.stop = record.payloadStop + 1) ∨
      (record.payloadStop = image.length ∧ record.stop = image.length) := by
  rcases placed.ended with ⟨terminated, zero⟩ | ⟨unterminated, ended⟩
  · refine Or.inl ⟨zero, ?_⟩
    simp [Record.stop, Record.payloadStop, terminated]
  · refine Or.inr ⟨ended, ?_⟩
    rw [← ended]
    simp [Record.stop, Record.payloadStop, unterminated]

theorem Line.isPartition_ofRecord
    {image : Bytes} {record : Record} (placed : record.IsIn image) :
    (Line.ofRecord record).IsPartition image := by
  have run := Payload.runBetweenBoundaries_divide record.payload
  have tiled :
      Tiles record.payloadStart record.payloadStop
        ((Line.ofRecord record).fragments.map Line.span) :=
    tiles_placeSegments run
  have bodies :
      ∀ fragment ∈ (Line.ofRecord record).fragments,
        image.extract fragment.start fragment.stop =
          fragment.body ++ (Line.ofRecord record).separator fragment := by
    intro fragment member
    obtain ⟨start, stop, statement⟩ := Payload.isStatement_of_mem_fragments member
    rw [Line.separator, statement.start_eq, statement.stop_eq,
      extract_of_extract_eq placed.payload statement.stop_le, statement.spelled]
    simp [Line.ofRecord]
  refine
    { number := placed.number
      payload := placed.payload
      zeroFree := placed.zeroFree
      ended := placed.stop_eq
      tiled := tiled
      first := fun index fragment member => by
        simpa using first_of_getElem?_placeSegments member
      bodies := bodies
      spelled := ?_ }
  have whole := flatMap_extract_of_tiles image tiled
  rw [List.flatMap_map] at whole
  calc
    _ = (Line.ofRecord record).fragments.flatMap fun fragment =>
          image.extract fragment.start fragment.stop :=
      List.flatMap_congr fun fragment member => (bodies fragment member).symm
    _ = record.payload := whole.trans placed.payload

/-- Decoding partitions an image. -/
theorem Program.isPartition_decode (image : Bytes) :
    (Program.decode image).IsPartition := by
  have follow := follow_records image
  have lastStop :
      (Program.decode image).stop = ((records image).getLast?.map Record.stop).getD 0 := by
    simp [Program.stop, Program.decode, Line.ofRecord, Function.comp_def]
  have placed :
      ∀ line ∈ (Program.decode image).lines,
        ∃ record, record.IsIn image ∧ line = Line.ofRecord record := by
    intro line member
    obtain ⟨record, found, rfl⟩ := List.mem_map.1 member
    exact ⟨record, follow.isIn found, rfl⟩
  refine
    { tiled := ?_
      stop_le := lastStop ▸ follow.ends.1
      room := ?_
      linked := ⟨(records image).map Record.link, ?_, follow.increasing, ?_⟩
      lines := ?_ }
  · have tiles := follow.tiles
    rw [← lastStop] at tiles
    simpa [Program.decode, Function.comp_def, Line.ofRecord] using tiles
  · intro line member
    obtain ⟨record, isIn, rfl⟩ := placed line member
    exact isIn.room
  · rw [Program.links, Program.decode, List.map_map, List.map_map]
    exact List.map_congr_left fun record found => (follow.isIn found).link
  · have ends := follow.ends.2
    rw [← lastStop] at ends
    rw [List.getLast?_map]
    exact ends
  · intro line member
    obtain ⟨record, isIn, rfl⟩ := placed line member
    exact Line.isPartition_ofRecord isIn

end Applesoft
