import RingStore.Bytes
import RingStore.Error

/-!
# Typed values

A value of a storable type has a byte string, and a byte string is read back as a value or is not one
of the type.  Numbers are stored little-endian at their natural width, signed ones in two's complement;
a truth value is one byte, and any byte but zero reads as true.  Byte strings are stored as they are.

## Main statements

* `Storable.decode_encode`: every stored value is read back; an instance cannot be given without it.
* `Storable.decodeWord_eq_ok_iff`: a number is read from the strings of its width only.
-/

namespace RingStore

/-- Types whose values can be stored. -/
class Storable (α : Type) where
  encode : α → Bytes
  decode : Bytes → Except Error α
  decode_encode : ∀ a, decode (encode a) = .ok a

namespace Storable

instance : Storable Bytes where
  encode bytes := bytes
  decode bytes := .ok bytes
  decode_encode _ := rfl

instance : Storable Bool where
  encode b := [if b then 1 else 0]
  decode
    | [byte] => .ok (byte != 0)
    | _ => .error .corrupt
  decode_encode b := by cases b <;> rfl

/-! ## Numbers -/

/-- Reads a number of a width. -/
def decodeWord (width : Nat) (bytes : Bytes) : Except Error Nat :=
  if bytes.length = width then .ok (ofLittleEndian bytes) else .error .corrupt

theorem decodeWord_eq_ok_iff {width n : Nat} {bytes : Bytes} :
    decodeWord width bytes = .ok n ↔ bytes.length = width ∧ ofLittleEndian bytes = n := by
  unfold decodeWord
  split
  · next h => simp [h]
  · next h => simp [h]

theorem decodeWord_littleEndian {width n : Nat} (h : n < wordBound width) :
    decodeWord width (littleEndian width n) = .ok n := by
  rw [decodeWord_eq_ok_iff, ofLittleEndian_littleEndian]
  exact ⟨length_littleEndian width n, Nat.mod_eq_of_lt h⟩

/-- A type of numbers that fit a width is stored at that width. -/
@[reducible] def ofWord {α : Type} (width : Nat) (toNat : α → Nat) (ofNat : Nat → α)
    (toNat_lt : ∀ a, toNat a < wordBound width) (ofNat_toNat : ∀ a, ofNat (toNat a) = a) :
    Storable α where
  encode a := littleEndian width (toNat a)
  decode bytes := (decodeWord width bytes).map ofNat
  decode_encode a := by rw [decodeWord_littleEndian (toNat_lt a), Except.map, ofNat_toNat]

instance : Storable UInt8 :=
  ofWord 1 UInt8.toNat UInt8.ofNat UInt8.toNat_lt fun _ => UInt8.ofNat_toNat

instance : Storable UInt16 :=
  ofWord 2 UInt16.toNat UInt16.ofNat UInt16.toNat_lt fun _ => UInt16.ofNat_toNat

instance : Storable UInt32 :=
  ofWord 4 UInt32.toNat UInt32.ofNat UInt32.toNat_lt fun _ => UInt32.ofNat_toNat

instance : Storable UInt64 :=
  ofWord 8 UInt64.toNat UInt64.ofNat UInt64.toNat_lt fun _ => UInt64.ofNat_toNat

/-- A type that is another storable type in disguise is stored as that type. -/
@[reducible] def via {α β : Type} [Storable β] (toBase : α → β) (ofBase : β → α)
    (ofBase_toBase : ∀ a, ofBase (toBase a) = a) : Storable α where
  encode a := encode (toBase a)
  decode bytes := (decode bytes).map ofBase
  decode_encode a := by rw [decode_encode, Except.map, ofBase_toBase]

instance : Storable Int8 := via Int8.toUInt8 UInt8.toInt8 fun _ => rfl

instance : Storable Int16 := via Int16.toUInt16 UInt16.toInt16 fun _ => rfl

instance : Storable Int32 := via Int32.toUInt32 UInt32.toInt32 fun _ => rfl

instance : Storable Int64 := via Int64.toUInt64 UInt64.toInt64 fun _ => rfl

end Storable

end RingStore
