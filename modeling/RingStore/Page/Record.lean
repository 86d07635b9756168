import RingStore.Checksum

/-!
# Records

A record is a header of four bytes and a payload: the payload's length, its checksum, and the key as
a little-endian word.  A length byte of `0xFF` is unprogrammed and ends the records of a page.  A
record is dropped by clearing its key to zero, so zero is no key that callers may use; `0xFFFF` is
not either, since an interrupted write leaves it behind.

## Main statements

* `Header.take?_toBytes_append`: a written header is read back, and what follows it is left.
* `Header.toBytes_of_take?`: a header that is read is the bytes it was read from.
-/

namespace RingStore

/-- The bytes a header takes. -/
def headerSize : Nat := 4

/-- The position of the key within a header. -/
def keyOffset : Nat := 2

/-- The length byte that no record has. -/
def endOfLog : UInt8 := 0xFF

/-- The longest payload that a length byte can stand for. -/
def maxPayloadLength : Nat := 254

/-- The smallest record that can be stored, a header and one byte. -/
def minRecordSize : Nat := headerSize + 1

/-- The key of a dropped record. -/
def tombstoneKey : UInt16 := 0

/-- The key of a record whose key bytes were never programmed. -/
def blankKey : UInt16 := 0xFFFF

/-- The bytes that drop a record when they are programmed over its key. -/
def tombstoneBytes : Bytes := littleEndian 2 tombstoneKey.toNat

/-- Callers may use every key but the two with a meaning of their own. -/
def isValidKey (key : UInt16) : Bool := key != tombstoneKey && key != blankKey

/-- What precedes a payload. -/
structure Header where
  length : UInt8
  crc : UInt8
  key : UInt16
  deriving DecidableEq, Repr

namespace Header

/-- The header of a payload. -/
def ofPayload (checksum : Checksum) (key : UInt16) (payload : Bytes) : Header :=
  ⟨UInt8.ofNat payload.length, checksum 0 payload, key⟩

/-- The four bytes of a header. -/
def toBytes (header : Header) : Bytes :=
  header.length :: header.crc :: littleEndian 2 header.key.toNat

/-- Splits off a header in front, if there are enough bytes. -/
def take? : Bytes → Option (Header × Bytes)
  | length :: crc :: keyLow :: keyHigh :: rest =>
    some (⟨length, crc, UInt16.ofNat (ofLittleEndian [keyLow, keyHigh])⟩, rest)
  | _ => none

/-- A dropped record. -/
def isTombstone (header : Header) : Bool := header.key == tombstoneKey

/-- An all-zero header is what an interrupted write leaves behind on some chips; it carries no
value, since empty payloads are never stored. -/
def isVoid (header : Header) : Bool := header.length == 0

/-- Neither dropped nor empty. -/
def carriesValue (header : Header) : Bool := !header.isTombstone && !header.isVoid

/-- The bytes that the header and its payload take. -/
def recordSize (header : Header) : Nat := headerSize + header.length.toNat

/-- The payload is the one that the header was written for, as far as length and checksum tell. -/
def verify (header : Header) (checksum : Checksum) (payload : Bytes) : Bool :=
  payload.length == header.length.toNat && checksum 0 payload == header.crc

@[simp] theorem length_toBytes (header : Header) : header.toBytes.length = headerSize := by
  simp [toBytes, headerSize]

theorem recordSize_pos (header : Header) : 0 < header.recordSize :=
  Nat.lt_of_lt_of_le (by decide) (Nat.le_add_right headerSize _)

theorem take?_toBytes_append (header : Header) (rest : Bytes) :
    take? (header.toBytes ++ rest) = some (header, rest) := by
  have hkey : ofLittleEndian (littleEndian 2 header.key.toNat) = header.key.toNat := by
    rw [ofLittleEndian_littleEndian]
    exact Nat.mod_eq_of_lt header.key.toNat_lt
  have hpair : littleEndian 2 header.key.toNat =
      [UInt8.ofNat header.key.toNat, UInt8.ofNat (header.key.toNat / 256)] := rfl
  rw [hpair] at hkey
  simp only [toBytes, hpair, List.cons_append, List.nil_append, take?, hkey, UInt16.ofNat_toNat]

theorem toBytes_of_take? {bytes rest : Bytes} {header : Header}
    (h : take? bytes = some (header, rest)) : header.toBytes ++ rest = bytes := by
  match bytes with
  | [] | [_] | [_, _] | [_, _, _] => simp [take?] at h
  | length :: crc :: keyLow :: keyHigh :: tail =>
    simp only [take?, Option.some.injEq, Prod.mk.injEq] at h
    obtain ⟨rfl, rfl⟩ := h
    have hkey : (UInt16.ofNat (ofLittleEndian [keyLow, keyHigh])).toNat =
        ofLittleEndian [keyLow, keyHigh] :=
      UInt16.toNat_ofNat_of_lt (ofLittleEndian_lt [keyLow, keyHigh])
    have hpair := littleEndian_ofLittleEndian [keyLow, keyHigh]
    simp only [List.length_cons, List.length_nil, Nat.zero_add, Nat.reduceAdd] at hpair
    rw [toBytes, hkey, hpair]
    rfl

/-- Splitting off a header leaves four bytes less. -/
theorem length_of_take? {bytes rest : Bytes} {header : Header}
    (h : take? bytes = some (header, rest)) : bytes.length = headerSize + rest.length := by
  rw [← toBytes_of_take? h, List.length_append, length_toBytes]

end Header

/-- A header and the payload that follows it. -/
structure Record where
  header : Header
  payload : Bytes
  deriving DecidableEq, Repr

namespace Record

/-- The record that stores a payload under a key. -/
def ofPayload (checksum : Checksum) (key : UInt16) (payload : Bytes) : Record :=
  ⟨Header.ofPayload checksum key payload, payload⟩

/-- The bytes of a record. -/
def toBytes (record : Record) : Bytes := record.header.toBytes ++ record.payload

/-- A live record carries a value under a valid key and passes its checksum. -/
def isLive (checksum : Checksum) (record : Record) : Bool :=
  record.header.carriesValue && record.header.key != blankKey &&
    record.header.verify checksum record.payload

/-- A damaged record claims to carry a value and does not. -/
def isDamaged (checksum : Checksum) (record : Record) : Bool :=
  record.header.carriesValue && !record.isLive checksum

end Record

end RingStore
