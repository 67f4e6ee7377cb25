import Mathlib.Data.Nat.ModEq
import Applesoft.Proofs.Checked.Programs

/-!
Where a program is in memory. The first link is the address behind the first line, so the load
address is that link less the length of the line, which is counted by a loop that only looks for the
zero behind it. The line is read by another loop, which follows its quotes, remarks and tokens.

The main statement is that both find the same length, so that the first line ends where its link
points. The address counts a zero that the image may have lost.
-/

namespace Applesoft

/-- A word less a length and then that length again is the word, up to whole turns of memory. -/
theorem toNat_sub_ofNat_add_modEq (link : UInt16) (length : Nat) :
    (link - UInt16.ofNat length).toNat + length ≡ link.toNat [MOD 2 ^ 16] := by
  have bound := link.toNat_lt
  rw [UInt16.toNat_sub, UInt16.toNat_ofNat', Nat.ModEq]
  omega

section Record

variable {image : Bytes} {record : Record}

/-- The payload of a record is what stands in front of the first zero behind its number. -/
theorem Record.IsIn.takeWhile_drop_payloadStart (placed : record.IsIn image) :
    (image.drop record.payloadStart).takeWhile isPayloadByte = record.payload := by
  rw [placed.drop_payloadStart]
  refine takeWhile_append_of_head? ?_ ?_
  · intro byte member
    exact bne_iff_ne.2 fun zero => placed.zeroFree (zero ▸ member)
  · intro byte first
    rw [isPayloadByte_eq_false_iff]
    exact placed.head?_drop_payloadStop byte first

theorem Record.IsIn.loadAddress?_eq
    (placed : record.IsIn image) (first : record.start = 0) (linked : 0 < record.link) :
    loadAddress? image = some (record.link - UInt16.ofNat (5 + record.payload.length)) := by
  have payload := placed.takeWhile_drop_payloadStart
  have link := placed.link
  have nonzero : record.link ≠ 0 := by
    intro zero
    rw [zero] at linked
    exact absurd linked (by decide)
  rw [first, wordAt?, List.drop_zero] at link
  rw [Record.payloadStart, first, Nat.zero_add] at payload
  split at link
  · next low high rest =>
      rw [← Option.some.inj link] at nonzero ⊢
      rw [loadAddress?, ← payload]
      exact if_neg nonzero
  · cases link

end Record

namespace Program

theorem exists_record_of_head?
    {image : Bytes} {line : Line} (first : (decode image).lines.head? = some line) :
    ∃ record : Record, line = Line.ofRecord record ∧ record.start = 0 ∧ 0 < record.link ∧
      record.IsIn image := by
  have follow := follow_records image
  rw [decode, List.head?_map, Option.map_eq_some_iff] at first
  obtain ⟨record, isFirst, rfl⟩ := first
  obtain ⟨rest, shape⟩ := List.head?_eq_some_iff.1 isFirst
  rw [shape] at follow
  obtain ⟨start, linked, placed, _⟩ := follow
  exact ⟨record, rfl, start, linked, placed⟩

/-- The first line of a program ends at the address that its link gives, up to whole turns of
memory, or one before it if the image ends without the zero of the line. Nothing is asked of the
link, which may be smaller than the line is long. If the line has at most 65,530 bytes, the loop
that counts its length and the loop that reads it come to their ends in machine words, and give this
address and this line. -/
theorem first_line_ends_at_link
    (image : Bytes) (line : Line) (first : (decode image).lines.head? = some line)
    (short : line.record.payload.length ≤ 65530) :
    ∃ link, wordAt? image 0 = some link ∧ 0 < link ∧
      ((line.record.terminated = true ∧ image[line.record.payloadStop]? = some 0 ∧
          (decode image).loadAddress + line.record.stop ≡ link.toNat [MOD 2 ^ 16]) ∨
        (line.record.terminated = false ∧ line.record.payloadStop = image.length ∧
          (decode image).loadAddress + line.record.stop ≡ link.toNat - 1 [MOD 2 ^ 16])) ∧
      (image.length + 6 < Checked.wordLimit →
        Checked.address? image = some (decode image).loadAddress ∧
          Checked.line? image 0 link = some (line, line.record.stop)) := by
  obtain ⟨record, rfl, start, linked, placed⟩ := exists_record_of_head? first
  change record.payload.length ≤ 65530 at short
  have payloadStart : record.payloadStart = 4 := by rw [Record.payloadStart, start]
  have address : (decode image).loadAddress =
      (record.link - UInt16.ofNat (5 + record.payload.length)).toNat := by
    change ((loadAddress? image).map UInt16.toNat).getD 0 = _
    rw [placed.loadAddress?_eq start linked]
    rfl
  have counted := toNat_sub_ofNat_add_modEq record.link (5 + record.payload.length)
  rw [← address] at counted
  refine ⟨record.link, start ▸ placed.link, linked, ?_, fun small => ⟨?_, ?_⟩⟩
  · refine placed.ended.imp ?_ ?_
    · rintro ⟨terminated, zero⟩
      have stop : record.stop = 5 + record.payload.length := by
        rw [Record.stop, payloadStart, terminated, Bool.toNat_true]
        omega
      rw [← stop] at counted
      exact ⟨terminated, zero, counted⟩
    · rintro ⟨unterminated, ended⟩
      -- The length counts one byte more than the line has.
      have stop : record.stop + 1 = 5 + record.payload.length := by
        rw [Record.stop, payloadStart, unterminated, Bool.toNat_false]
        omega
      have positive : 1 ≤ record.link.toNat := UInt16.lt_iff_toNat_lt.1 linked
      rw [← stop] at counted
      refine ⟨unterminated, ended, Nat.ModEq.add_right_cancel' 1 ?_⟩
      rw [Nat.sub_add_cancel positive]
      exact counted
  · apply Checked.address?_eq
    · rw [← payloadStart, placed.takeWhile_drop_payloadStart]
      exact short
    · omega
  · have read := Checked.line?_eq placed small
    rwa [start] at read

/-- An image that ends within a literal of its first line, with a link that is smaller than the line
is long. -/
def cutImage : Bytes :=
  [0x03, 0x00, 0x0A, 0x00, 0xBA, 0x22, 0xB2, 0x3A]

theorem first_line_of_cutImage_ends_before_link :
    ∃ line, (decode cutImage).lines.head? = some line ∧ line.record.stop = 8 ∧
      wordAt? cutImage 0 = some 3 ∧ (decode cutImage).loadAddress = 65530 ∧
        (decode cutImage).loadAddress + 8 ≡ 3 - 1 [MOD 2 ^ 16] := by
  have first : (decode cutImage).lines.head? =
      some (Line.ofRecord ⟨0, 3, 10, [0xBA, 0x22, 0xB2, 0x3A], false⟩) := by
    decide +kernel
  obtain ⟨link, read, _, ends, _⟩ := first_line_ends_at_link cutImage _ first (by decide)
  obtain rfl : link = 3 := Option.some.inj read.symm
  rcases ends with ⟨terminated, _⟩ | ⟨_, _, congruent⟩
  · cases terminated
  · exact ⟨_, first, rfl, rfl, by decide, congruent⟩

end Program

end Applesoft
