import Applesoft.Keyword

/-!
The records of a program image. A record holds a link to the next record, a line number, both two
bytes with the low byte first, the payload, and a terminating zero. Records follow each other as
long as six bytes are left and the links increase.

The load address is not part of the image. The first link is the address of the second record, so
the length of the first record tells where the image belongs.
-/

namespace Applesoft

/-- The number in two bytes, low byte first. -/
def word (low high : UInt8) : UInt16 :=
  UInt16.ofNat (low.toNat + 256 * high.toNat)

structure Record where
  /-- Offset of the link. -/
  start : Nat
  link : UInt16
  number : UInt16
  payload : Bytes
  /-- Whether there is a terminating zero before the end of the image. -/
  terminated : Bool
  deriving DecidableEq, Repr

namespace Record

def payloadStart (record : Record) : Nat :=
  record.start + 4

def stop (record : Record) : Nat :=
  record.payloadStart + record.payload.length + record.terminated.toNat

def bytes (record : Record) : Bytes :=
  [record.link.toUInt8, (record.link >>> 8).toUInt8,
    record.number.toUInt8, (record.number >>> 8).toUInt8] ++
    record.payload ++ if record.terminated then [0] else []

end Record

def isPayloadByte (byte : UInt8) : Bool :=
  byte != 0

theorem length_dropWhile_drop_le (bytes : Bytes) :
    ((bytes.dropWhile isPayloadByte).drop 1).length ≤ bytes.length := by
  have removed := (List.dropWhile_sublist isPayloadByte (l := bytes)).length_le
  simp only [List.length_drop]
  omega

/-- The records at the front of some bytes, given their offset and the link before them. -/
def recordsFrom (offset : Nat) (previous : UInt16) : Bytes → List Record
  | link₀ :: link₁ :: number₀ :: number₁ :: first :: second :: more =>
      let link := word link₀ link₁
      if previous < link then
        let contents := first :: second :: more
        let beyond := contents.dropWhile isPayloadByte
        let record : Record := {
          start := offset
          link := link
          number := word number₀ number₁
          payload := contents.takeWhile isPayloadByte
          terminated := !beyond.isEmpty }
        record :: recordsFrom record.stop link (beyond.drop 1)
      else
        []
  | _ => []
termination_by bytes => bytes.length
decreasing_by
  have shorter := length_dropWhile_drop_le (first :: second :: more)
  simp only [List.length_cons] at shorter ⊢
  omega

def records (image : Bytes) : List Record :=
  recordsFrom 0 0 image

/-- Where an image belongs in memory: the first link less the length of the first record, whose
payload is taken to begin at offset four. An image without a first link belongs nowhere. -/
def loadAddress? : Bytes → Option UInt16
  | link₀ :: link₁ :: rest =>
      let link := word link₀ link₁
      if link = 0 then
        some 0
      else
        some (link - UInt16.ofNat (5 + ((rest.drop 2).takeWhile isPayloadByte).length))
  | _ => none

end Applesoft
