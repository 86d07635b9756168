import RingStore.Firmware

/-!
# Values of a named type

`ValueType` names the storable types, `ValueType.Content` is the type that a name stands for, and a
`Value` is a named type together with one of its values.

## Main statements

* `ValueType.encode_injective`: two values of one type with the same bytes are the same value.
-/

namespace RingStore

/-- The widths of numbers, in bits. -/
inductive Width where
  | w8 | w16 | w32 | w64
  deriving DecidableEq, Repr

/-- The storable types. -/
inductive ValueType where
  | boolean
  | unsigned (width : Width)
  | signed (width : Width)
  | bytes
  | firmware
  deriving DecidableEq, Repr

namespace ValueType

/-- The type that a name stands for. -/
@[reducible] def Content : ValueType → Type
  | boolean => Bool
  | unsigned .w8 => UInt8
  | unsigned .w16 => UInt16
  | unsigned .w32 => UInt32
  | unsigned .w64 => UInt64
  | signed .w8 => Int8
  | signed .w16 => Int16
  | signed .w32 => Int32
  | signed .w64 => Int64
  | bytes => Bytes
  | firmware => FirmwareInfo

instance (type : ValueType) : Storable type.Content :=
  match type with
  | boolean => inferInstanceAs (Storable Bool)
  | unsigned .w8 => inferInstanceAs (Storable UInt8)
  | unsigned .w16 => inferInstanceAs (Storable UInt16)
  | unsigned .w32 => inferInstanceAs (Storable UInt32)
  | unsigned .w64 => inferInstanceAs (Storable UInt64)
  | signed .w8 => inferInstanceAs (Storable Int8)
  | signed .w16 => inferInstanceAs (Storable Int16)
  | signed .w32 => inferInstanceAs (Storable Int32)
  | signed .w64 => inferInstanceAs (Storable Int64)
  | bytes => inferInstanceAs (Storable Bytes)
  | firmware => inferInstanceAs (Storable FirmwareInfo)

theorem encode_injective {type : ValueType} {a b : type.Content}
    (h : Storable.encode a = Storable.encode b) : a = b := by
  have hdecode := Storable.decode_encode a
  rw [h, Storable.decode_encode] at hdecode
  exact (Except.ok.inj hdecode).symm

end ValueType

/-- A value of a named type. -/
structure Value where
  type : ValueType
  content : type.Content

end RingStore
