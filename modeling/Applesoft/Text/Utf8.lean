import Applesoft.Text

/-!
UTF-8. Decoding never fails: a byte is read in the light of the sequence it may continue, and each
maximal part that cannot be continued becomes one replacement character. A byte string is valid
when encoding the decoded text gives it back.

The main statement is that a text read from valid bytes encodes to those bytes.
-/

namespace Applesoft.Utf8

/-- Stands for a part of the input that is not UTF-8. -/
def replacement : Char := Char.ofNat 0xFFFD

structure Sequence where
  /-- The bits read so far. -/
  value : Nat
  /-- The least byte that continues the sequence. -/
  least : Nat
  /-- The greatest byte that continues the sequence. -/
  greatest : Nat
  /-- How many further bytes the sequence has after the next one. -/
  owed : Nat
  deriving DecidableEq, Repr

/-- The sequence that a byte begins, if it begins a longer one. The bounds of the second byte keep
out overlong forms, surrogates, and values beyond the last code point. -/
def Sequence.begin? (byte : Nat) : Option Sequence :=
  if 0xC2 ≤ byte ∧ byte ≤ 0xDF then some ⟨byte - 0xC0, 0x80, 0xBF, 0⟩
  else if byte = 0xE0 then some ⟨0x0, 0xA0, 0xBF, 1⟩
  else if byte = 0xED then some ⟨0xD, 0x80, 0x9F, 1⟩
  else if 0xE1 ≤ byte ∧ byte ≤ 0xEF then some ⟨byte - 0xE0, 0x80, 0xBF, 1⟩
  else if byte = 0xF0 then some ⟨0x0, 0x90, 0xBF, 2⟩
  else if 0xF1 ≤ byte ∧ byte ≤ 0xF3 then some ⟨byte - 0xF0, 0x80, 0xBF, 2⟩
  else if byte = 0xF4 then some ⟨0x4, 0x80, 0x8F, 2⟩
  else none

/-- Reads a byte that continues no sequence: the characters it yields, and the sequence it
begins. -/
def startAt (byte : Nat) : Text × Option Sequence :=
  if byte < 0x80 then
    ([Char.ofNat byte], none)
  else
    match Sequence.begin? byte with
    | some begun => ([], some begun)
    | none => ([replacement], none)

/-- Reads one byte after the sequence that is open: the characters it yields, and the sequence
that is open after it. -/
def advance : Option Sequence → Nat → Text × Option Sequence
  | none, byte => startAt byte
  | some current, byte =>
      if current.least ≤ byte ∧ byte ≤ current.greatest then
        let value := current.value * 64 + (byte - 0x80)
        match current.owed with
        | 0 => ([Char.ofNat value], none)
        | owed + 1 => ([], some ⟨value, 0x80, 0xBF, owed⟩)
      else
        (replacement :: (startAt byte).1, (startAt byte).2)

/-- Reads bytes after the sequence that is open. A sequence cut off by the end is one invalid
part. -/
def decodeFrom : Option Sequence → Bytes → Text
  | none, [] => []
  | some _, [] => [replacement]
  | current, byte :: rest =>
      (advance current byte.toNat).1 ++ decodeFrom (advance current byte.toNat).2 rest

/-- The text of a byte string; each maximal invalid part becomes one replacement character. -/
def decode (bytes : Bytes) : Text :=
  decodeFrom none bytes

def encode (text : Text) : Bytes :=
  text.flatMap String.utf8EncodeChar

/-- The text of a byte string that is UTF-8 throughout. -/
def decode? (bytes : Bytes) : Option Text :=
  if encode (decode bytes) = bytes then some (decode bytes) else none

theorem utf8Size_eq_one_iff (character : Char) :
    character.utf8Size = 1 ↔ character.toNat ≤ 0x7F :=
  Char.utf8Size_eq_one_iff.trans UInt32.le_iff_toNat_le

theorem length_encode_of_ascii {text : Text} (ascii : ∀ character ∈ text, character.toNat ≤ 0x7F) :
    (encode text).length = text.length := by
  induction text with
  | nil => rfl
  | cons character rest hypothesis =>
      rw [List.forall_mem_cons] at ascii
      rw [encode, List.flatMap_cons, ← encode, List.length_append, hypothesis ascii.2,
        String.length_utf8EncodeChar, (utf8Size_eq_one_iff character).2 ascii.1,
        List.length_cons, Nat.add_comm]

/-- Invalid parts are maximal: a truncated sequence counts once, and the byte that breaks it is
read anew. -/
example :
    decode [0xE2, 0x82, 0x41, 0xF0, 0x9F, 0xC3, 0xA9] =
      [replacement, 'A', replacement, 'é'] := by
  decide

end Applesoft.Utf8
