import Applesoft.Proofs.Partition

/-!
Encoding and decoding. Numbered payloads are written as records for an address, with a zero link
behind the last one. Decoding gives the payloads back, whatever follows the zero link, and the
decoded lines are written as the same image again.
-/

namespace Applesoft

/-- The address behind a payload whose record begins at an address. -/
def addressBehind (address : UInt16) (payload : Bytes) : UInt16 :=
  address + UInt16.ofNat (payload.length + 5)

/-- The record of a numbered payload at an offset of an image and at an address. It links to what
follows it. -/
def recordOf (offset : Nat) (address : UInt16) (line : UInt16 × Bytes) : Record where
  start := offset
  link := addressBehind address line.2
  number := line.1
  payload := line.2
  terminated := true

/-- The records of numbered payloads, one behind the other. -/
def recordsOf (offset : Nat) (address : UInt16) : List (UInt16 × Bytes) → List Record
  | [] => []
  | line :: rest =>
      recordOf offset address line ::
        recordsOf (offset + (line.2.length + 5)) (addressBehind address line.2) rest

def encode (address : UInt16) (lines : List (UInt16 × Bytes)) : Bytes :=
  (recordsOf 0 address lines).flatMap Record.bytes ++ [0, 0]

/-- The bytes that numbered payloads take in an image. -/
def encodedLength : List (UInt16 × Bytes) → Nat
  | [] => 0
  | line :: rest => line.2.length + 5 + encodedLength rest

theorem word_toUInt8 (value : UInt16) :
    word value.toUInt8 (value >>> 8).toUInt8 = value := by
  apply UInt16.toNat_inj.1
  have bound := value.toNat_lt
  simp [word, Nat.shiftRight_eq_div_pow]
  omega

theorem toNat_addressBehind
    {address : UInt16} {payload : Bytes}
    (fits : address.toNat + (payload.length + 5) ≤ 65535) :
    (addressBehind address payload).toNat = address.toNat + (payload.length + 5) := by
  rw [addressBehind, UInt16.toNat_add, UInt16.toNat_ofNat']
  omega

section RecordOf

variable (offset : Nat) (address : UInt16) (line : UInt16 × Bytes)

theorem stop_recordOf :
    (recordOf offset address line).stop = offset + (line.2.length + 5) := by
  simp only [Record.stop, Record.payloadStart, recordOf, Bool.toNat_true]
  omega

theorem length_bytes_recordOf :
    (recordOf offset address line).bytes.length = line.2.length + 5 := by
  simp [Record.bytes, recordOf]

end RecordOf

section RecordsOf

variable {offset : Nat} {address : UInt16} {lines : List (UInt16 × Bytes)}

theorem map_recordsOf (offset : Nat) (address : UInt16) (lines : List (UInt16 × Bytes)) :
    (recordsOf offset address lines).map (fun record => (record.number, record.payload)) =
      lines := by
  induction lines generalizing offset address with
  | nil => rfl
  | cons line rest hypothesis =>
      rw [recordsOf, List.map_cons, hypothesis]
      rfl

theorem terminated_of_mem_recordsOf
    {record : Record} (member : record ∈ recordsOf offset address lines) :
    record.terminated = true := by
  induction lines generalizing offset address with
  | nil => simp [recordsOf] at member
  | cons line rest hypothesis =>
      rw [recordsOf, List.mem_cons] at member
      rcases member with rfl | later
      · rfl
      · exact hypothesis later

/-- Each link is the address of what follows the record. -/
theorem link_of_mem_recordsOf
    {base : Nat} {record : Record}
    (fits : address.toNat + encodedLength lines ≤ 65535)
    (belongs : base + offset = address.toNat)
    (member : record ∈ recordsOf offset address lines) :
    base + record.stop = record.link.toNat := by
  induction lines generalizing offset address with
  | nil => simp [recordsOf] at member
  | cons line rest hypothesis =>
      rw [encodedLength] at fits
      have next :
          (addressBehind address line.2).toNat = address.toNat + (line.2.length + 5) :=
        toNat_addressBehind (by omega)
      rw [recordsOf, List.mem_cons] at member
      rcases member with rfl | later
      · rw [stop_recordOf]
        change _ = (addressBehind address line.2).toNat
        omega
      · exact hypothesis (by omega) (by omega) later

theorem length_bytes_recordsOf
    (offset : Nat) (address : UInt16) (lines : List (UInt16 × Bytes)) :
    ((recordsOf offset address lines).flatMap Record.bytes).length = encodedLength lines := by
  induction lines generalizing offset address with
  | nil => rfl
  | cons line rest hypothesis =>
      rw [recordsOf, List.flatMap_cons, List.length_append, hypothesis,
        length_bytes_recordOf, encodedLength]

theorem stop_recordsOf
    (offset : Nat) (address : UInt16) (lines : List (UInt16 × Bytes)) :
    ((recordsOf offset address lines).getLast?.map Record.stop).getD offset =
      offset + encodedLength lines := by
  induction lines generalizing offset address with
  | nil => rfl
  | cons line rest hypothesis =>
      have later := hypothesis (offset + (line.2.length + 5)) (addressBehind address line.2)
      rw [← stop_recordOf offset address line, Option.getD_map] at later
      rw [recordsOf, List.getLast?_cons, Option.map_some, Option.getD_some,
        ← stop_recordOf offset address line, later, stop_recordOf, encodedLength,
        Nat.add_assoc]

end RecordsOf

theorem takeWhile_isPayloadByte
    {payload : Bytes} (zeroFree : (0 : UInt8) ∉ payload) (rest : Bytes) :
    (payload ++ 0 :: rest).takeWhile isPayloadByte = payload := by
  have accepted : ∀ byte ∈ payload, isPayloadByte byte = true := by
    intro byte member
    by_contra rejected
    rw [Bool.not_eq_true, isPayloadByte_eq_false_iff] at rejected
    exact zeroFree (rejected ▸ member)
  rw [List.takeWhile_append_of_pos accepted]
  simp [isPayloadByte]

theorem dropWhile_isPayloadByte
    {payload : Bytes} (zeroFree : (0 : UInt8) ∉ payload) (rest : Bytes) :
    (payload ++ 0 :: rest).dropWhile isPayloadByte = 0 :: rest := by
  have whole :=
    List.takeWhile_append_dropWhile (p := isPayloadByte) (l := payload ++ 0 :: rest)
  rw [takeWhile_isPayloadByte zeroFree] at whole
  exact List.append_cancel_left whole

/-- The record in front of a zero is read off its bytes. It may be empty if there are bytes behind
it, for six bytes must be left. -/
theorem recordsFrom_of_zero
    {offset : Nat} {previous : UInt16} {link₀ link₁ number₀ number₁ : UInt8}
    {payload rest : Bytes}
    (larger : previous < word link₀ link₁)
    (zeroFree : (0 : UInt8) ∉ payload)
    (long : payload ++ rest ≠ []) :
    recordsFrom offset previous
        (link₀ :: link₁ :: number₀ :: number₁ :: (payload ++ 0 :: rest)) =
      { start := offset
        link := word link₀ link₁
        number := word number₀ number₁
        payload := payload
        terminated := true } ::
        recordsFrom (offset + 4 + payload.length + 1) (word link₀ link₁) rest := by
  obtain ⟨first, second, more, contents⟩ :
      ∃ first second more, payload ++ 0 :: rest = first :: second :: more := by
    rcases payload with _ | ⟨first, _ | ⟨second, others⟩⟩
    · obtain ⟨byte, later, rfl⟩ := List.exists_cons_of_ne_nil long
      exact ⟨0, byte, later, rfl⟩
    · exact ⟨first, 0, rest, rfl⟩
    · exact ⟨first, second, others ++ 0 :: rest, rfl⟩
  rw [contents, recordsFrom, if_pos larger, ← contents]
  simp only [takeWhile_isPayloadByte zeroFree, dropWhile_isPayloadByte zeroFree]
  rfl

/-- A record with a larger link than the one before is read off its bytes, if there are bytes
behind it. -/
theorem recordsFrom_bytes_append
    {record : Record} {previous : UInt16} {rest : Bytes}
    (terminated : record.terminated = true)
    (zeroFree : (0 : UInt8) ∉ record.payload)
    (larger : previous < record.link)
    (behind : rest ≠ []) :
    recordsFrom record.start previous (record.bytes ++ rest) =
      record :: recordsFrom record.stop record.link rest := by
  have spelled :
      record.bytes ++ rest =
        record.link.toUInt8 :: (record.link >>> 8).toUInt8 ::
          record.number.toUInt8 :: (record.number >>> 8).toUInt8 ::
            (record.payload ++ 0 :: rest) := by
    simp [Record.bytes, terminated]
  have same :
      { start := record.start
        link := record.link
        number := record.number
        payload := record.payload
        terminated := true } = record := by
    rw [← terminated]
  have stop : record.stop = record.start + 4 + record.payload.length + 1 := by
    rw [Record.stop, terminated]
    rfl
  rw [spelled, stop, recordsFrom_of_zero (by rwa [word_toUInt8]) zeroFree (by simp [behind])]
  simp only [word_toUInt8, same]

/-- The records of numbered payloads are read off their bytes up to a zero link, whatever follows
it. -/
theorem recordsFrom_recordsOf
    {offset : Nat} {previous address : UInt16} {lines : List (UInt16 × Bytes)}
    (trailing : Bytes)
    (zeroFree : ∀ line ∈ lines, (0 : UInt8) ∉ line.2)
    (fits : address.toNat + encodedLength lines ≤ 65535)
    (increasing : previous.toNat ≤ address.toNat) :
    recordsFrom offset previous
        ((recordsOf offset address lines).flatMap Record.bytes ++ 0 :: 0 :: trailing) =
      recordsOf offset address lines := by
  induction lines generalizing offset previous address with
  | nil =>
      rw [recordsOf, List.flatMap_nil, List.nil_append]
      unfold recordsFrom
      split
      · next link₀ link₁ number₀ number₁ first second more shape =>
          have zeroLink : word link₀ link₁ = 0 := by
            injection shape with low rest
            injection rest with high
            rw [← low, ← high]
            rfl
          have notLarger : ¬ previous < word link₀ link₁ := by
            rw [zeroLink]
            exact UInt16.not_lt_zero
          exact if_neg notLarger
      · rfl
  | cons line rest hypothesis =>
      rw [encodedLength] at fits
      have next :
          (addressBehind address line.2).toNat = address.toNat + (line.2.length + 5) :=
        toNat_addressBehind (by omega)
      have larger : previous < (recordOf offset address line).link := by
        apply UInt16.lt_iff_toNat_lt.2
        change previous.toNat < (addressBehind address line.2).toNat
        omega
      have tail :
          recordsFrom (offset + (line.2.length + 5)) (addressBehind address line.2)
              ((recordsOf (offset + (line.2.length + 5)) (addressBehind address line.2)
                rest).flatMap Record.bytes ++ 0 :: 0 :: trailing) =
            recordsOf (offset + (line.2.length + 5)) (addressBehind address line.2) rest :=
        hypothesis (fun other member => zeroFree other (List.mem_cons_of_mem line member))
          (by omega) (Nat.le_refl _)
      rw [← stop_recordOf offset address line] at tail
      rw [recordsOf, ← stop_recordOf offset address line, List.flatMap_cons, List.append_assoc]
      refine (recordsFrom_bytes_append rfl ?_ larger ?_).trans (congrArg _ tail)
      · exact zeroFree line List.mem_cons_self
      · simp

theorem records_encode
    {address : UInt16} {lines : List (UInt16 × Bytes)} (trailing : Bytes)
    (zeroFree : ∀ line ∈ lines, (0 : UInt8) ∉ line.2)
    (fits : address.toNat + encodedLength lines ≤ 65535) :
    records (encode address lines ++ trailing) = recordsOf 0 address lines := by
  rw [records, encode, List.append_assoc]
  exact recordsFrom_recordsOf trailing zeroFree fits (Nat.zero_le _)

theorem length_encode (address : UInt16) (lines : List (UInt16 × Bytes)) :
    (encode address lines).length = encodedLength lines + 2 := by
  rw [encode, List.length_append, length_bytes_recordsOf]
  rfl

theorem loadAddress?_encode
    {address : UInt16} {line : UInt16 × Bytes} {rest : List (UInt16 × Bytes)}
    (trailing : Bytes)
    (zeroFree : (0 : UInt8) ∉ line.2)
    (fits : address.toNat + encodedLength (line :: rest) ≤ 65535) :
    loadAddress? (encode address (line :: rest) ++ trailing) = some address := by
  rw [encodedLength] at fits
  have next :
      (addressBehind address line.2).toNat = address.toNat + (line.2.length + 5) :=
    toNat_addressBehind (by omega)
  have notZero : addressBehind address line.2 ≠ 0 := by
    intro zero
    rw [zero] at next
    simp at next
  obtain ⟨behind, spelled⟩ :
      ∃ behind, encode address (line :: rest) ++ trailing =
        (addressBehind address line.2).toUInt8 ::
          (addressBehind address line.2 >>> 8).toUInt8 ::
            line.1.toUInt8 :: (line.1 >>> 8).toUInt8 :: (line.2 ++ 0 :: behind) := by
    refine ⟨(recordsOf (0 + (line.2.length + 5)) (addressBehind address line.2)
      rest).flatMap Record.bytes ++ 0 :: 0 :: trailing, ?_⟩
    simp [encode, recordsOf, recordOf, Record.bytes]
  rw [spelled]
  simp only [loadAddress?, word_toUInt8]
  rw [if_neg notZero, List.drop_succ_cons, List.drop_succ_cons, List.drop_zero,
    takeWhile_isPayloadByte zeroFree, addressBehind, Nat.add_comm 5, UInt16.add_sub_cancel]

/-- The bytes of an image that the fragments of a line take up. -/
def Program.bytesOf (program : Program) (line : Line) : Bytes :=
  line.fragments.flatMap fun fragment => program.image.extract fragment.start fragment.stop

/-- The numbers and the bytes of the lines of a program. -/
def Program.contents (program : Program) : List (UInt16 × Bytes) :=
  program.lines.map fun line => (line.number, program.bytesOf line)

theorem Program.bytesOf_eq_payload
    {image : Bytes} {line : Line} (member : line ∈ (Program.decode image).lines) :
    (Program.decode image).bytesOf line = line.record.payload := by
  have partition := (Program.isPartition_decode image).lines line member
  have whole := flatMap_extract_of_tiles image partition.tiled
  rw [List.flatMap_map] at whole
  exact whole.trans partition.payload

theorem Statement.unterminated_notMem_findings (statement : Statement) :
    .anomaly .unterminatedLine ∉ statement.findings := by
  intro member
  cases statement with
  | jump form target =>
      cases target with
      | none => simp [findings] at member
      | some number => simp [findings] at member
  | on expression dispatch =>
      cases dispatch with
      | none => simp [findings] at member
      | some dispatch =>
          obtain ⟨entry, _, same⟩ := List.mem_map.1 member
          cases entry with
          | line number => cases same
          | unreadable text => cases same
  | _ => simp [findings] at member

theorem Mark.unterminated_notMem_findings (mark : Mark) :
    .anomaly .unterminatedLine ∉ mark.findings := by
  intro member
  cases mark with
  | segment stretch =>
      rcases List.mem_append.1 member with inStatement | inVariables
      · exact (Statement.ofBody stretch.body).unterminated_notMem_findings inStatement
      · split at inVariables
        · simp at inVariables
        · simp at inVariables
  | unfinishedIf => simp [findings] at member
  | strayRemark => simp [findings] at member

theorem Line.unterminated_mem_findings_iff (record : Record) :
    .anomaly .unterminatedLine ∈ (Line.ofRecord record).findings ↔
      record.terminated = false := by
  have unmarked :
      .anomaly .unterminatedLine ∉
        (Mark.divide (Lexeme.scan record.payload)).flatMap Mark.findings := by
    intro member
    obtain ⟨mark, _, found⟩ := List.mem_flatMap.1 member
    exact mark.unterminated_notMem_findings found
  cases terminated : record.terminated with
  | true => simp [Line.ofRecord, terminated, unmarked]
  | false => simp [Line.ofRecord, terminated]

theorem Program.unterminated_of_mem_diagnostics
    {program : Program} {diagnostic : Diagnostic}
    (member : diagnostic ∈ program.diagnostics)
    (unterminated : diagnostic.anomaly = .unterminatedLine) :
    ∃ line ∈ program.lines, .anomaly .unterminatedLine ∈ line.findings := by
  obtain ⟨line, present, found⟩ := List.mem_flatMap.1 member
  obtain ⟨cause, filtered, rfl⟩ := List.mem_map.1 found
  obtain ⟨finding, among, same⟩ := List.mem_filterMap.1 filtered
  cases finding with
  | anomaly anomaly =>
      injection same with same
      refine ⟨line, present, ?_⟩
      rw [← unterminated, ← same]
      exact among
  | _ => simp [anomaly?] at same

namespace Program

section Encoded

variable {address : UInt16} {lines : List (UInt16 × Bytes)} (trailing : Bytes)

theorem wordAt?_encodedLength :
    wordAt? (encode address lines ++ trailing) (encodedLength lines) = some 0 := by
  have front := length_bytes_recordsOf 0 address lines
  rw [← front, wordAt?]
  simp only [encode, List.append_assoc, List.drop_left]
  rfl

variable (zeroFree : ∀ line ∈ lines, (0 : UInt8) ∉ line.2)
  (fits : address.toNat + encodedLength lines ≤ 65535)

include zeroFree fits

theorem lines_decode_encode :
    (decode (encode address lines ++ trailing)).lines =
      (recordsOf 0 address lines).map Line.ofRecord :=
  congrArg (List.map Line.ofRecord) (records_encode trailing zeroFree fits)

theorem payloads_decode_encode :
    (decode (encode address lines ++ trailing)).lines.map
      (fun line => (line.number, line.record.payload)) = lines := by
  rw [lines_decode_encode trailing zeroFree fits, List.map_map]
  exact map_recordsOf 0 address lines

theorem contents_decode_encode :
    (decode (encode address lines ++ trailing)).contents = lines := by
  refine Eq.trans ?_ (payloads_decode_encode trailing zeroFree fits)
  refine List.map_congr_left fun line member => ?_
  rw [bytesOf_eq_payload member]

theorem complete_decode_encode
    {diagnostic : Diagnostic}
    (member : diagnostic ∈ (decode (encode address lines ++ trailing)).diagnostics) :
    diagnostic.anomaly ≠ .unterminatedLine := by
  intro unterminated
  obtain ⟨line, present, found⟩ := unterminated_of_mem_diagnostics member unterminated
  rw [lines_decode_encode trailing zeroFree fits] at present
  obtain ⟨record, placed, rfl⟩ := List.mem_map.1 present
  have terminated := terminated_of_mem_recordsOf placed
  rw [Line.unterminated_mem_findings_iff, terminated] at found
  cases found

theorem stop_decode_encode :
    (decode (encode address lines ++ trailing)).stop = encodedLength lines := by
  have last := stop_recordsOf 0 address lines
  rw [Nat.zero_add] at last
  rw [← last, stop, lines_decode_encode trailing zeroFree fits, List.getLast?_map,
    Option.map_map]
  rfl

theorem extraData_decode_encode :
    (decode (encode address lines ++ trailing)).extraData =
      if 2 ≤ trailing.length then some (encodedLength lines + 2) else none := by
  have length : (encode address lines ++ trailing).length =
      encodedLength lines + 2 + trailing.length := by
    rw [List.length_append, length_encode]
  rw [extraData, stop_decode_encode trailing zeroFree fits]
  change (if encodedLength lines + 3 < (encode address lines ++ trailing).length then _
    else none) = _
  rw [length]
  refine if_congr ?_ rfl rfl
  omega

theorem loadAddress_decode_encode
    (nonempty : lines ≠ []) :
    (decode (encode address lines ++ trailing)).loadAddress = address.toNat := by
  obtain ⟨line, rest, rfl⟩ := List.exists_cons_of_ne_nil nonempty
  rw [loadAddress]
  change ((loadAddress? (encode address (line :: rest) ++ trailing)).map _).getD 0 = _
  rw [loadAddress?_encode trailing (zeroFree line List.mem_cons_self) fits]
  rfl

theorem link_decode_encode
    {line : Line}
    (member : line ∈ (decode (encode address lines ++ trailing)).lines) :
    ∃ link, wordAt? (encode address lines ++ trailing) line.record.start = some link ∧
      address.toNat + line.record.stop = link.toNat := by
  have read := records_encode trailing zeroFree fits
  rw [lines_decode_encode trailing zeroFree fits] at member
  obtain ⟨record, placed, rfl⟩ := List.mem_map.1 member
  have isIn : record.IsIn (encode address lines ++ trailing) :=
    (follow_records _).isIn (read ▸ placed)
  exact ⟨record.link, isIn.link, link_of_mem_recordsOf fits rfl placed⟩

end Encoded

/-- Decoding an encoded program gives it back, and encoding what was decoded gives the image
back. -/
theorem decode_encode
    (address : UInt16) (lines : List (UInt16 × Bytes)) (trailing : Bytes)
    (zeroFree : ∀ line ∈ lines, (0 : UInt8) ∉ line.2)
    (fits : address.toNat + encodedLength lines ≤ 65535) :
    let image := encode address lines ++ trailing
    let program := decode image
    program.lines.map (fun line => (line.number, line.record.payload)) = lines ∧
      program.contents = lines ∧
      (∀ diagnostic ∈ program.diagnostics, diagnostic.anomaly ≠ .unterminatedLine) ∧
      program.stop = encodedLength lines ∧
      wordAt? image program.stop = some 0 ∧
      program.extraData =
        (if 2 ≤ trailing.length then some (program.stop + 2) else none) ∧
      (lines ≠ [] →
        program.loadAddress = address.toNat ∧
          (∀ line ∈ program.lines, ∃ link,
            wordAt? image line.record.start = some link ∧
              program.loadAddress + line.record.stop = link.toNat) ∧
          encode (UInt16.ofNat program.loadAddress) program.contents ++ trailing =
            image) := by
  intro image program
  have contents := contents_decode_encode trailing zeroFree fits
  have stop := stop_decode_encode trailing zeroFree fits
  refine ⟨payloads_decode_encode trailing zeroFree fits, contents,
    fun diagnostic member => complete_decode_encode trailing zeroFree fits member, stop, ?_, ?_,
    ?_⟩
  · rw [stop]
    exact wordAt?_encodedLength trailing
  · rw [stop]
    exact extraData_decode_encode trailing zeroFree fits
  · intro nonempty
    have load := loadAddress_decode_encode trailing zeroFree fits nonempty
    refine ⟨load, ?_, ?_⟩
    · intro line member
      rw [load]
      exact link_decode_encode trailing zeroFree fits member
    · rw [load, contents, UInt16.ofNat_toNat]

/-- A program with an empty line, and behind it bytes that look like a further line. -/
theorem decode_encode_empty_line :
    let lines : List (UInt16 × Bytes) := [(10, [0xBA]), (20, [])]
    let trailing : Bytes := [0x20, 0x08, 30, 0, 0xBA, 0]
    (decode (encode 0x801 lines ++ trailing)).contents = lines :=
  (decode_encode 0x801 [(10, [0xBA]), (20, [])] [0x20, 0x08, 30, 0, 0xBA, 0]
    (by decide) (by decide)).2.1

end Program

end Applesoft
