import Applesoft.Text.Utf8

namespace Applesoft.Utf8

section Sequences

variable {byte least greatest value owed : Nat} {rest : Bytes}

theorem decodeFrom_begin
    {begun : Sequence} (small : byte < 256) (long : 0x80 ≤ byte)
    (begins : Sequence.begin? byte = some begun) :
    decodeFrom none (UInt8.ofNat byte :: rest) = decodeFrom (some begun) rest := by
  have read : (UInt8.ofNat byte).toNat = byte := Nat.mod_eq_of_lt small
  have noAscii : ¬ byte < 0x80 := by omega
  rw [decodeFrom, read, advance, startAt, if_neg noAscii, begins]
  rfl

theorem decodeFrom_continue
    (small : byte < 256) (lower : least ≤ byte) (upper : byte ≤ greatest) :
    decodeFrom (some ⟨value, least, greatest, owed + 1⟩) (UInt8.ofNat byte :: rest) =
      decodeFrom (some ⟨value * 64 + (byte - 0x80), 0x80, 0xBF, owed⟩) rest := by
  have read : (UInt8.ofNat byte).toNat = byte := Nat.mod_eq_of_lt small
  rw [decodeFrom, read, advance, if_pos ⟨lower, upper⟩]
  rfl

theorem decodeFrom_complete
    (small : byte < 256) (lower : least ≤ byte) (upper : byte ≤ greatest) :
    decodeFrom (some ⟨value, least, greatest, 0⟩) (UInt8.ofNat byte :: rest) =
      Char.ofNat (value * 64 + (byte - 0x80)) :: decodeFrom none rest := by
  have read : (UInt8.ofNat byte).toNat = byte := Nat.mod_eq_of_lt small
  rw [decodeFrom, read, advance, if_pos ⟨lower, upper⟩]
  rfl

end Sequences

section LeadBytes

variable {code : Nat}

theorem begin?_two (lower : 0x7F < code) (upper : code ≤ 0x7FF) :
    Sequence.begin? (code / 64 % 32 + 192) = some ⟨code / 64, 0x80, 0xBF, 0⟩ := by
  have lead : code / 64 % 32 + 192 - 0xC0 = code / 64 := by omega
  rw [Sequence.begin?, if_pos (by omega), lead]

/-- The bounds of the second byte keep out overlong forms and surrogates, and nothing else. -/
theorem exists_begin?_three
    (lower : 0x7FF < code) (upper : code ≤ 0xFFFF) (scalar : code < 0xD800 ∨ 0xDFFF < code) :
    ∃ least greatest,
      Sequence.begin? (code / 4096 % 16 + 224) = some ⟨code / 4096, least, greatest, 1⟩ ∧
        least ≤ code / 64 % 64 + 128 ∧ code / 64 % 64 + 128 ≤ greatest := by
  have lead : code / 4096 % 16 + 224 - 0xE0 = code / 4096 := by omega
  rw [Sequence.begin?, if_neg (by omega)]
  by_cases first : code / 4096 = 0
  · rw [if_pos (by omega), first]
    exact ⟨0xA0, 0xBF, rfl, by omega, by omega⟩
  · rw [if_neg (by omega)]
    by_cases surrogate : code / 4096 = 0xD
    · rw [if_pos (by omega), surrogate]
      exact ⟨0x80, 0x9F, rfl, by omega, by omega⟩
    · rw [if_neg (by omega), if_pos (by omega), lead]
      exact ⟨0x80, 0xBF, rfl, by omega, by omega⟩

theorem exists_begin?_four
    (lower : 0xFFFF < code) (upper : code < 0x110000) :
    ∃ least greatest,
      Sequence.begin? (code / 262144 % 8 + 240) = some ⟨code / 262144, least, greatest, 2⟩ ∧
        least ≤ code / 4096 % 64 + 128 ∧ code / 4096 % 64 + 128 ≤ greatest := by
  have lead : code / 262144 % 8 + 240 - 0xF0 = code / 262144 := by omega
  rw [Sequence.begin?, if_neg (by omega), if_neg (by omega), if_neg (by omega), if_neg (by omega)]
  by_cases first : code / 262144 = 0
  · rw [if_pos (by omega), first]
    exact ⟨0x90, 0xBF, rfl, by omega, by omega⟩
  · rw [if_neg (by omega)]
    by_cases last : code / 262144 = 4
    · rw [if_neg (by omega), if_pos (by omega), last]
      exact ⟨0x80, 0x8F, rfl, by omega, by omega⟩
    · rw [if_pos (by omega), lead]
      exact ⟨0x80, 0xBF, rfl, by omega, by omega⟩

end LeadBytes

/-- The bytes of a character are read as that character, whatever comes behind them. The cases are
the lengths of its encoding. -/
theorem decodeFrom_utf8EncodeChar_append (character : Char) (rest : Bytes) :
    decodeFrom none (String.utf8EncodeChar character ++ rest) =
      character :: decodeFrom none rest := by
  have scalar : character.val.toNat < 0xD800 ∨
      0xDFFF < character.val.toNat ∧ character.val.toNat < 0x110000 := character.valid
  have whole : Char.ofNat character.val.toNat = character := Char.ofNat_toNat character
  simp only [String.utf8EncodeChar]
  generalize character.val.toNat = code at scalar whole ⊢
  by_cases one : code ≤ 127
  · have read : (UInt8.ofNat code).toNat = code := Nat.mod_eq_of_lt (by omega)
    rw [if_pos one, List.singleton_append, decodeFrom, read, advance, startAt, if_pos (by omega),
      whole]
    rfl
  rw [if_neg one]
  by_cases two : code ≤ 2047
  · have value : code / 64 * 64 + (code % 64 + 128 - 0x80) = code := by omega
    rw [if_pos two, List.cons_append, List.singleton_append,
      decodeFrom_begin (by omega) (by omega) (begin?_two (by omega) two),
      decodeFrom_complete (by omega) (by omega) (by omega), value, whole]
  rw [if_neg two]
  by_cases three : code ≤ 65535
  · obtain ⟨least, greatest, begins, lower, upper⟩ :=
      exists_begin?_three (by omega) three (by omega)
    have value : (code / 4096 * 64 + (code / 64 % 64 + 128 - 0x80)) * 64 +
        (code % 64 + 128 - 0x80) = code := by omega
    rw [if_pos three, List.cons_append, List.cons_append, List.singleton_append,
      decodeFrom_begin (by omega) (by omega) begins,
      decodeFrom_continue (by omega) lower upper,
      decodeFrom_complete (by omega) (by omega) (by omega), value, whole]
  · obtain ⟨least, greatest, begins, lower, upper⟩ :=
      exists_begin?_four (by omega) (show code < 0x110000 by omega)
    have value : ((code / 262144 * 64 + (code / 4096 % 64 + 128 - 0x80)) * 64 +
        (code / 64 % 64 + 128 - 0x80)) * 64 + (code % 64 + 128 - 0x80) = code := by omega
    rw [if_neg three, List.cons_append, List.cons_append, List.cons_append, List.singleton_append,
      decodeFrom_begin (by omega) (by omega) begins,
      decodeFrom_continue (by omega) lower upper,
      decodeFrom_continue (by omega) (by omega) (by omega),
      decodeFrom_complete (by omega) (by omega) (by omega), value, whole]

/-- What is read from the bytes of a text is that text. -/
theorem decode_encoded (text : Text) : decode (encode text) = text := by
  induction text with
  | nil => rfl
  | cons character rest hypothesis =>
      rw [encode, List.flatMap_cons, decode, decodeFrom_utf8EncodeChar_append]
      exact congrArg (character :: ·) hypothesis

theorem encode_injective : Function.Injective encode :=
  Function.LeftInverse.injective decode_encoded

end Applesoft.Utf8
