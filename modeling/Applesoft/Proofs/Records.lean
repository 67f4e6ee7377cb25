import Mathlib.Data.List.Basic
import Applesoft.Record

namespace Applesoft

/-- Whether stretches of offsets, none of them empty, lead from one offset to another without a gap
or an overlap. -/
def Tiles : Nat → Nat → List (Nat × Nat) → Prop
  | start, stop, [] => start = stop
  | start, stop, stretch :: rest =>
      stretch.1 = start ∧ start < stretch.2 ∧ Tiles stretch.2 stop rest

theorem Tiles.le
    {start stop : Nat} {stretches : List (Nat × Nat)}
    (tiles : Tiles start stop stretches) :
    start ≤ stop := by
  induction stretches generalizing start with
  | nil => exact Nat.le_of_eq tiles
  | cons stretch rest hypothesis =>
      obtain ⟨_, forward, remaining⟩ := tiles
      have bound := hypothesis remaining
      omega

theorem Tiles.add_length_le
    {start stop : Nat} {stretches : List (Nat × Nat)}
    (tiles : Tiles start stop stretches) :
    start + stretches.length ≤ stop := by
  induction stretches generalizing start with
  | nil => exact Nat.le_of_eq tiles
  | cons stretch rest hypothesis =>
      obtain ⟨_, forward, remaining⟩ := tiles
      have bound := hypothesis remaining
      rw [List.length_cons]
      omega

theorem Tiles.append
    {start middle stop : Nat} {left right : List (Nat × Nat)}
    (first : Tiles start middle left) (second : Tiles middle stop right) :
    Tiles start stop (left ++ right) := by
  induction left generalizing start with
  | nil => exact (show start = middle from first) ▸ second
  | cons stretch rest hypothesis => exact ⟨first.1, first.2.1, hypothesis first.2.2⟩

theorem Tiles.of_mem
    {start stop : Nat} {stretches : List (Nat × Nat)} {stretch : Nat × Nat}
    (tiles : Tiles start stop stretches) (member : stretch ∈ stretches) :
    stretch.1 < stretch.2 ∧ stretch.2 ≤ stop := by
  induction stretches generalizing start with
  | nil => simp at member
  | cons first rest hypothesis =>
      obtain ⟨begins, forward, remaining⟩ := tiles
      rcases List.mem_cons.1 member with rfl | later
      · exact ⟨begins ▸ forward, remaining.le⟩
      · exact hypothesis remaining later

section Slices

variable {bytes left right : Bytes} {offset : Nat}

theorem drop_add_length
    (remaining : bytes.drop offset = left ++ right) :
    bytes.drop (offset + left.length) = right := by
  rw [← List.drop_drop, remaining, List.drop_left]

theorem extract_add_length
    (remaining : bytes.drop offset = left ++ right) :
    bytes.extract offset (offset + left.length) = left := by
  rw [List.extract_eq_take_drop, remaining, Nat.add_sub_cancel_left, List.take_left]

theorem extract_append_extract
    (bytes : Bytes) {start middle stop : Nat}
    (before : start ≤ middle) (behind : middle ≤ stop) :
    bytes.extract start middle ++ bytes.extract middle stop =
      bytes.extract start stop := by
  have whole : stop - start = middle - start + (stop - middle) := by omega
  have reached : start + (middle - start) = middle := by omega
  rw [List.extract_eq_take_drop, List.extract_eq_take_drop, List.extract_eq_take_drop,
    whole, List.take_add, List.drop_drop, reached]

theorem flatMap_extract_of_tiles
    (bytes : Bytes) {start stop : Nat} {stretches : List (Nat × Nat)}
    (tiles : Tiles start stop stretches) :
    (stretches.flatMap fun stretch => bytes.extract stretch.1 stretch.2) =
      bytes.extract start stop := by
  induction stretches generalizing start with
  | nil =>
      have ended : start = stop := tiles
      simp [ended, List.extract_eq_take_drop]
  | cons stretch rest hypothesis =>
      obtain ⟨begins, forward, remaining⟩ := tiles
      rw [List.flatMap_cons, hypothesis remaining, begins]
      exact extract_append_extract bytes (Nat.le_of_lt forward) remaining.le

end Slices

/-- The number in the two bytes at an offset, if the image has them. -/
def wordAt? (image : Bytes) (offset : Nat) : Option UInt16 :=
  match image.drop offset with
  | low :: high :: _ => some (word low high)
  | _ => none

namespace Record

def payloadStop (record : Record) : Nat :=
  record.payloadStart + record.payload.length

/-- Whether a record is what an image holds at its place. -/
structure IsIn (image : Bytes) (record : Record) : Prop where
  room : record.start + 6 ≤ image.length
  link : wordAt? image record.start = some record.link
  number : wordAt? image (record.start + 2) = some record.number
  payload : image.extract record.payloadStart record.payloadStop = record.payload
  zeroFree : (0 : UInt8) ∉ record.payload
  ended : (record.terminated = true ∧ image[record.payloadStop]? = some 0) ∨
    (record.terminated = false ∧ record.payloadStop = image.length)

/-- Whether nothing more follows at an offset: too few bytes are left for a record, or the link
there does not exceed the one before. -/
def EndsAt (image : Bytes) (offset : Nat) (previous : UInt16) : Prop :=
  image.length < offset + 6 ∨
    ∃ link, wordAt? image offset = some link ∧ link ≤ previous

/-- Whether records follow each other in an image from an offset and behind a link, as far as they
go. -/
def Follow (image : Bytes) : Nat → UInt16 → List Record → Prop
  | offset, previous, [] => offset ≤ image.length ∧ EndsAt image offset previous
  | offset, previous, record :: rest =>
      record.start = offset ∧ previous < record.link ∧ record.IsIn image ∧
        Follow image record.stop record.link rest

end Record

theorem isPayloadByte_eq_false_iff (byte : UInt8) :
    isPayloadByte byte = false ↔ byte = 0 := by
  simp [isPayloadByte]

theorem zero_notMem_takeWhile (bytes : Bytes) :
    (0 : UInt8) ∉ bytes.takeWhile isPayloadByte := by
  intro member
  have accepted := List.all_eq_true.1 (List.all_takeWhile (p := isPayloadByte)) 0 member
  simp [isPayloadByte] at accepted

theorem head?_dropWhile_isPayloadByte
    {bytes beyond : Bytes} {byte : UInt8}
    (remaining : bytes.dropWhile isPayloadByte = byte :: beyond) :
    byte = 0 := by
  have first := List.head?_dropWhile_not isPayloadByte bytes
  rw [remaining] at first
  simpa [isPayloadByte] using first

/-- How a payload ends that reaches up to an offset of the image, and where the bytes behind it go
on. -/
theorem ends_of_drop_eq
    {image beyond : Bytes} {offset : Nat}
    (inside : offset ≤ image.length)
    (remaining : image.drop offset = beyond)
    (zero : ∀ byte later, beyond = byte :: later → byte = 0) :
    let terminated := !beyond.isEmpty
    ((terminated = true ∧ image[offset]? = some 0) ∨
        (terminated = false ∧ offset = image.length)) ∧
      offset + terminated.toNat ≤ image.length ∧
      image.drop (offset + terminated.toNat) = beyond.drop 1 := by
  have length := congrArg List.length remaining
  rw [List.length_drop] at length
  cases beyond with
  | nil =>
      simp only [List.length_nil] at length
      have ended : offset = image.length := by omega
      simp [ended]
  | cons byte later =>
      simp only [List.length_cons] at length
      have first : (image.drop offset)[0]? = image[offset + 0]? := List.getElem?_drop
      rw [remaining, zero byte later rfl] at first
      refine ⟨Or.inl ⟨rfl, by simpa using first.symm⟩, ?_, ?_⟩
      · simp only [List.isEmpty_cons, Bool.not_false, Bool.toNat_true]
        omega
      · rw [← List.drop_drop, remaining]
        rfl

/-- The records from an offset on follow each other in the image. The induction is that of the
reading; `remaining` says where it has come to. -/
theorem follow_recordsFrom
    (image : Bytes) {offset : Nat} {previous : UInt16} {bytes : Bytes}
    (inside : offset ≤ image.length)
    (remaining : image.drop offset = bytes) :
    Record.Follow image offset previous (recordsFrom offset previous bytes) := by
  have length := congrArg List.length remaining
  rw [List.length_drop] at length
  induction offset, previous, bytes using recordsFrom.induct with
  | case1 offset previous link₀ link₁ number₀ number₁ first second more link larger
      contents beyond record hypothesis =>
      simp only [List.length_cons] at length
      have contentsLeft :
          image.drop (offset + 4) = contents.takeWhile isPayloadByte ++ beyond := by
        rw [List.takeWhile_append_dropWhile, ← List.drop_drop, remaining]
        rfl
      have payloadInside : record.payloadStop ≤ image.length := by
        have whole := congrArg List.length contentsLeft
        rw [List.length_drop, List.length_append] at whole
        change offset + 4 + (contents.takeWhile isPayloadByte).length ≤ image.length
        omega
      obtain ⟨ended, stopInside, beyondLeft⟩ :=
        ends_of_drop_eq payloadInside (drop_add_length contentsLeft)
          fun byte later behind => head?_dropWhile_isPayloadByte behind
      have placed : record.IsIn image :=
        { room := by
            change offset + 6 ≤ image.length
            omega
          link := by simp [wordAt?, record, remaining, link]
          number := by simp [wordAt?, record, ← List.drop_drop, remaining]
          payload := extract_add_length contentsLeft
          zeroFree := zero_notMem_takeWhile contents
          ended := ended }
      have unfolded :
          recordsFrom offset previous
              (link₀ :: link₁ :: number₀ :: number₁ :: first :: second :: more) =
            record :: recordsFrom record.stop link (beyond.drop 1) := by
        rw [recordsFrom, if_pos larger]
      rw [unfolded]
      have lengthNext := congrArg List.length beyondLeft
      rw [List.length_drop] at lengthNext
      exact ⟨rfl, larger, placed, hypothesis stopInside beyondLeft lengthNext⟩
  | case2 offset previous link₀ link₁ number₀ number₁ first second more link notLarger =>
      rw [recordsFrom, if_neg notLarger]
      refine ⟨inside, Or.inr ⟨link, ?_, UInt16.not_lt.1 notLarger⟩⟩
      simp [wordAt?, remaining, link]
  | case3 offset previous bytes short =>
      have nothing : recordsFrom offset previous bytes = [] := by
        rw [recordsFrom]
        exact short
      have tooFew : bytes.length < 6 := by
        rcases bytes with _ | ⟨link₀, _ | ⟨link₁, _ | ⟨number₀, _ | ⟨number₁,
          _ | ⟨first, _ | ⟨second, more⟩⟩⟩⟩⟩⟩
        · simp
        · simp
        · simp
        · simp
        · simp
        · simp
        · exact (short link₀ link₁ number₀ number₁ first second more rfl).elim
      rw [nothing]
      exact ⟨inside, Or.inl (by omega)⟩

namespace Record.IsIn

variable {image : Bytes} {record : Record}

theorem payloadStart_le (placed : record.IsIn image) : record.payloadStart ≤ image.length := by
  have room := placed.room
  change record.start + 4 ≤ image.length
  omega

theorem payloadStop_le (placed : record.IsIn image) : record.payloadStop ≤ image.length := by
  rcases placed.ended with ⟨-, zero⟩ | ⟨-, ended⟩
  · exact Nat.le_of_lt (List.getElem?_eq_some_iff.1 zero).1
  · exact Nat.le_of_eq ended

theorem drop_payloadStart (placed : record.IsIn image) :
    image.drop record.payloadStart = record.payload ++ image.drop record.payloadStop := by
  have contents := List.take_append_drop record.payload.length (image.drop record.payloadStart)
  have payload := placed.payload
  rw [List.extract_eq_take_drop, payloadStop, Nat.add_sub_cancel_left] at payload
  rw [payload, List.drop_drop] at contents
  exact contents.symm

theorem head?_drop_payloadStop (placed : record.IsIn image) :
    ∀ byte ∈ (image.drop record.payloadStop).head?, byte = 0 := by
  intro byte first
  rw [List.head?_drop] at first
  rcases placed.ended with ⟨-, zero⟩ | ⟨-, ended⟩
  · rw [zero] at first
    exact (Option.some.inj first).symm
  · rw [ended, List.getElem?_eq_none (Nat.le_refl _)] at first
    cases first

theorem isEmpty_drop_payloadStop (placed : record.IsIn image) :
    (image.drop record.payloadStop).isEmpty = !record.terminated := by
  rcases placed.ended with ⟨terminated, zero⟩ | ⟨unterminated, ended⟩
  · obtain ⟨inside, -⟩ := List.getElem?_eq_some_iff.1 zero
    rw [terminated, Bool.not_true, List.isEmpty_eq_false_iff, Ne, List.drop_eq_nil_iff]
    exact Nat.not_le_of_lt inside
  · rw [unterminated, ended, List.drop_length]
    rfl

end Record.IsIn

namespace Record.Follow

variable {image : Bytes} {offset : Nat} {previous : UInt16} {records : List Record}

theorem isIn
    {record : Record}
    (follow : Follow image offset previous records) (member : record ∈ records) :
    record.IsIn image := by
  induction records generalizing offset previous with
  | nil => simp at member
  | cons first rest hypothesis =>
      obtain ⟨_, _, placed, remaining⟩ := follow
      rcases List.mem_cons.1 member with rfl | later
      · exact placed
      · exact hypothesis remaining later

theorem tiles (follow : Follow image offset previous records) :
    Tiles offset ((records.getLast?.map Record.stop).getD offset)
      (records.map fun record => (record.start, record.stop)) := by
  induction records generalizing offset previous with
  | nil => rfl
  | cons first rest hypothesis =>
      obtain ⟨begins, _, _, remaining⟩ := follow
      have tilesRest := hypothesis remaining
      rw [Option.getD_map] at tilesRest
      rw [List.getLast?_cons, Option.map_some, Option.getD_some]
      refine ⟨begins, ?_, tilesRest⟩
      change offset < first.start + 4 + first.payload.length + first.terminated.toNat
      omega

theorem increasing (follow : Follow image offset previous records) :
    (previous :: records.map Record.link).Pairwise (· < ·) := by
  induction records generalizing offset previous with
  | nil => simp
  | cons first rest hypothesis =>
      obtain ⟨_, larger, _, remaining⟩ := follow
      have increasingRest := hypothesis remaining
      rw [List.map_cons, List.pairwise_cons]
      refine ⟨?_, increasingRest⟩
      intro link member
      rcases List.mem_cons.1 member with rfl | later
      · exact larger
      · exact UInt16.lt_trans larger ((List.pairwise_cons.1 increasingRest).1 link later)

theorem ends (follow : Follow image offset previous records) :
    (records.getLast?.map Record.stop).getD offset ≤ image.length ∧
      EndsAt image ((records.getLast?.map Record.stop).getD offset)
        ((records.getLast?.map Record.link).getD previous) := by
  induction records generalizing offset previous with
  | nil => exact follow
  | cons first rest hypothesis =>
      obtain ⟨_, _, _, remaining⟩ := follow
      have endsRest := hypothesis remaining
      rw [Option.getD_map, Option.getD_map] at endsRest
      simpa [List.getLast?_cons] using endsRest

end Record.Follow

theorem follow_records (image : Bytes) :
    Record.Follow image 0 0 (records image) :=
  follow_recordsFrom image (Nat.zero_le _) List.drop_zero

end Applesoft
