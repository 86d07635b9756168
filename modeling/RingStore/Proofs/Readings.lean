import Mathlib.Data.Nat.Digits.Defs
import RingStore.Proofs.Operation

/-!
# What stored bytes read as

A typed lookup is not told the type that was written, it has the bytes.  Every type but that of byte
strings has a width, and bytes of another number are none of its values.  Bytes of its width are one: a
number is little-endian and in two's complement if it has a sign, a byte that is not zero is true, and the
fields of a firmware record stand at fixed offsets.

`ValueType.Reads` says this in terms of the number that the bytes are the digits of, apart from the
decoders.

## Main statements

* `ValueType.decode_of_fits` and `ValueType.decode_of_not_fits`: what the decoders make of any bytes.
* `FirmwareInfo.ofBytes?_of_length` and `FirmwareInfo.ofBytes?_of_length_ne`: which strings are firmware
  records.
-/

namespace RingStore

/-! ## Digits -/

/-- The number whose digits are the bytes, least significant byte first. -/
def number (bytes : Bytes) : Nat := Nat.ofDigits 256 (bytes.map UInt8.toNat)

theorem number_eq (bytes : Bytes) : number bytes = ofLittleEndian bytes := by
  induction bytes with
  | nil => rfl
  | cons byte rest ih =>
    rw [number, List.map_cons, Nat.ofDigits_cons, ofLittleEndian, ← ih]
    rfl

/-- The number in a field of a string. -/
def numberAt (bytes : Bytes) (offset width : Nat) : Nat := number ((bytes.drop offset).take width)

/-! ## Firmware records -/

namespace ImageInfo

/-- The fields of an image stand in a string, from an offset on. -/
structure Reads (bytes : Bytes) (offset : Nat) (image : ImageInfo) : Prop where
  version : image.version.toNat = numberAt bytes offset 4
  size : image.size.toNat = numberAt bytes (offset + 4) 4
  digest : image.digest.toList = (bytes.drop (offset + 8)).take digestSize

theorem toNat_ofLittleEndian {part : Bytes} (h : part.length = 4) :
    (UInt32.ofNat (ofLittleEndian part)).toNat = number part := by
  have hlt := ofLittleEndian_lt part
  rw [h] at hlt
  rw [UInt32.toNat_ofNat_of_lt' hlt, number_eq]

theorem reads_ofBytes {bytes : Bytes} (h : bytes.length = byteSize) :
    (ofBytes bytes h).Reads bytes 0 := by
  have hlength : bytes.length = 24 := h
  refine ⟨toNat_ofLittleEndian ?_, toNat_ofLittleEndian ?_, ?_⟩
  · rw [List.length_take]
    omega
  · rw [List.length_take, List.length_drop]
    omega
  · show bytes.drop 8 = (bytes.drop (0 + 8)).take digestSize
    rw [Nat.zero_add, List.take_of_length_le]
    rw [List.length_drop, hlength]
    decide

/-- An image that a part of a string holds stands in the string where that part does. -/
theorem Reads.of_part {bytes : Bytes} {offset : Nat} {image : ImageInfo}
    (h : image.Reads ((bytes.drop offset).take byteSize) 0) : image.Reads bytes offset := by
  have hpart : ∀ skipped count, skipped + count ≤ byteSize →
      ((((bytes.drop offset).take byteSize).drop skipped).take count) =
        (bytes.drop (offset + skipped)).take count := by
    intro skipped count hle
    rw [List.drop_take, List.take_take, List.drop_drop, Nat.min_eq_left (by omega)]
  refine ⟨?_, ?_, ?_⟩
  · rw [h.version, numberAt, numberAt, hpart 0 4 (by decide)]
    rfl
  · rw [h.size, numberAt, numberAt, Nat.zero_add, hpart 4 4 (by decide)]
  · rw [h.digest, Nat.zero_add, hpart 8 digestSize (by decide)]

end ImageInfo

namespace FirmwareInfo

/-- The fields of a firmware record stand in a string. -/
structure Reads (bytes : Bytes) (info : FirmwareInfo) : Prop where
  installed : info.installed.Reads bytes 0
  staged : info.staged.Reads bytes 24

/-- **A string of 48 bytes is a firmware record**: it has its fields, and is what is written of it. -/
theorem ofBytes?_of_length {bytes : Bytes} (h : bytes.length = 48) :
    ∃ info, ofBytes? bytes = .ok info ∧ info.Reads bytes ∧ info.toBytes = bytes := by
  have hinfo : ofBytes? bytes = .ok _ := dif_pos h
  have hfront : (bytes.take ImageInfo.byteSize).length = ImageInfo.byteSize := by
    rw [List.length_take, h]
    rfl
  have hback : (bytes.drop ImageInfo.byteSize).length = ImageInfo.byteSize := by
    rw [List.length_drop, h]
    rfl
  refine ⟨_, hinfo, ⟨.of_part ?_, .of_part ?_⟩, toBytes_of_ofBytes? hinfo⟩
  · rw [List.drop_zero]
    exact ImageInfo.reads_ofBytes hfront
  · have hall := List.take_of_length_le (Nat.le_of_eq hback)
    rw [show 24 = ImageInfo.byteSize from rfl, hall]
    exact ImageInfo.reads_ofBytes hback

/-- A string of any other length is none. -/
theorem ofBytes?_of_length_ne {bytes : Bytes} (h : bytes.length ≠ 48) :
    ofBytes? bytes = .error .corrupt := dif_neg h

end FirmwareInfo

/-! ## All types -/

/-- The bytes of a width. -/
def Width.byteCount : Width → Nat
  | w8 => 1
  | w16 => 2
  | w32 => 4
  | w64 => 8

namespace ValueType

/-- The number of bytes of every value of a type, if there is such a number. -/
def width? : ValueType → Option Nat
  | boolean => some 1
  | unsigned width => some width.byteCount
  | signed width => some width.byteCount
  | bytes => none
  | firmware => some 48

/-- A string has the width of a type. -/
def Fits (type : ValueType) (stored : Bytes) : Prop :=
  ∀ width, type.width? = some width → stored.length = width

/-- The number that an unsigned value is. -/
def natural : (width : Width) → (unsigned width).Content → Nat
  | .w8, n => UInt8.toNat n
  | .w16, n => UInt16.toNat n
  | .w32, n => UInt32.toNat n
  | .w64, n => UInt64.toNat n

/-- The number that a signed value is. -/
def integer : (width : Width) → (signed width).Content → Int
  | .w8, n => Int8.toInt n
  | .w16, n => Int16.toInt n
  | .w32, n => Int32.toInt n
  | .w64, n => Int64.toInt n

/-- A string stands for a value of a type. -/
def Reads : (type : ValueType) → Bytes → type.Content → Prop
  | boolean, stored, b => b = true ↔ number stored ≠ 0
  | unsigned width, stored, n => natural width n = number stored
  | signed width, stored, n => integer width n = Int.bmod (number stored) (256 ^ stored.length)
  | bytes, stored, content => content = stored
  | firmware, stored, info => FirmwareInfo.Reads stored info

theorem decodeWord_of_length {α : Type} {width : Nat} {stored : Bytes} (h : stored.length = width)
    (ofNat : Nat → α) :
    (Storable.decodeWord width stored).map ofNat = .ok (ofNat (number stored)) := by
  rw [Storable.decodeWord, if_pos h, number_eq]
  rfl

theorem decode_unsigned {width : Width} {stored : Bytes} (h : stored.length = width.byteCount) :
    ∃ n : (unsigned width).Content, Storable.decode stored = .ok n ∧ natural width n = number stored := by
  have hlt := ofLittleEndian_lt stored
  rw [h, ← number_eq] at hlt
  cases width with
  | w8 => exact ⟨_, decodeWord_of_length h _, UInt8.toNat_ofNat_of_lt' hlt⟩
  | w16 => exact ⟨_, decodeWord_of_length h _, UInt16.toNat_ofNat_of_lt' hlt⟩
  | w32 => exact ⟨_, decodeWord_of_length h _, UInt32.toNat_ofNat_of_lt' hlt⟩
  | w64 => exact ⟨_, decodeWord_of_length h _, UInt64.toNat_ofNat_of_lt' hlt⟩

/-- A signed number is the unsigned one of its width, less the number of all of them if it is in the upper
half. -/
theorem decode_signed {width : Width} {stored : Bytes} (h : stored.length = width.byteCount) :
    ∃ n : (signed width).Content, Storable.decode stored = .ok n ∧
      integer width n = Int.bmod (number stored) (256 ^ stored.length) := by
  obtain ⟨n, hdecode, hnumber⟩ := decode_unsigned h
  rw [h, ← hnumber]
  cases width with
  | w8 =>
    exact ⟨UInt8.toInt8 n, congrArg (Except.map UInt8.toInt8) hdecode, BitVec.toInt_eq_toNat_bmod _⟩
  | w16 =>
    exact ⟨UInt16.toInt16 n, congrArg (Except.map UInt16.toInt16) hdecode,
      BitVec.toInt_eq_toNat_bmod _⟩
  | w32 =>
    exact ⟨UInt32.toInt32 n, congrArg (Except.map UInt32.toInt32) hdecode,
      BitVec.toInt_eq_toNat_bmod _⟩
  | w64 =>
    exact ⟨UInt64.toInt64 n, congrArg (Except.map UInt64.toInt64) hdecode,
      BitVec.toInt_eq_toNat_bmod _⟩

theorem decode_boolean {stored : Bytes} (h : stored.length = 1) :
    ∃ b : Bool, Storable.decode stored = .ok b ∧ (b = true ↔ number stored ≠ 0) := by
  obtain ⟨byte, rfl⟩ := List.length_eq_one_iff.mp h
  refine ⟨byte != 0, rfl, ?_⟩
  have hnumber : number [byte] = byte.toNat := by
    rw [number_eq]
    exact Nat.add_zero _
  rw [hnumber, bne_iff_ne, ne_eq, ne_eq, ← UInt8.toNat_inj]
  rfl

/-- **A string of the width of a type is read as the value that it stands for.** -/
theorem decode_of_fits {type : ValueType} {stored : Bytes} (h : type.Fits stored) :
    ∃ content : type.Content, Storable.decode stored = .ok content ∧ type.Reads stored content := by
  cases type with
  | boolean => exact decode_boolean (h 1 rfl)
  | unsigned width => exact decode_unsigned (h _ rfl)
  | signed width => exact decode_signed (h _ rfl)
  | bytes => exact ⟨stored, rfl, rfl⟩
  | firmware =>
    obtain ⟨info, hinfo, hreads, -⟩ := FirmwareInfo.ofBytes?_of_length (h 48 rfl)
    exact ⟨info, hinfo, hreads⟩

/-- A string that is read as a value of a type has its width. -/
theorem fits_of_decode {type : ValueType} {stored : Bytes} {content : type.Content}
    (h : Storable.decode stored = .ok content) : type.Fits stored := by
  have hword : ∀ {width : Nat} {α : Type} {ofNat : Nat → α} {a : α},
      (Storable.decodeWord width stored).map ofNat = .ok a → stored.length = width := by
    intro width α ofNat a hmap
    by_contra hne
    rw [Storable.decodeWord, if_neg hne] at hmap
    cases hmap
  have hbase : ∀ {α β : Type} {x : Except Error α} {f : α → β} {b : β},
      x.map f = .ok b → ∃ a, x = .ok a := by
    rintro α β (error | a) f b hmap
    · cases hmap
    · exact ⟨a, rfl⟩
  intro count hcount
  cases type with
  | boolean =>
    cases hcount
    rcases stored with _ | ⟨byte, _ | ⟨next, rest⟩⟩
    · cases h
    · rfl
    · cases h
  | unsigned width => cases width <;> cases hcount <;> exact hword h
  | signed width =>
    cases width <;> cases hcount <;>
    · obtain ⟨n, hn⟩ := hbase h
      exact hword hn
  | bytes => cases hcount
  | firmware =>
    cases hcount
    by_contra hne
    have hnone := FirmwareInfo.ofBytes?_of_length_ne hne
    cases hnone.symm.trans h

/-- **A string of another width is none of the type.** -/
theorem decode_of_not_fits {type : ValueType} {stored : Bytes} (h : ¬type.Fits stored) :
    (Storable.decode stored : Except Error type.Content) = .error .corrupt := by
  cases hdecode : (Storable.decode stored : Except Error type.Content) with
  | ok content => exact absurd (fits_of_decode hdecode) h
  | error error => rw [type.eq_corrupt_of_decode hdecode]

end ValueType

end RingStore
