import Mathlib.Logic.Function.Basic
import RingStore.Checksum

/-!
# What the usual checksum tells apart

One step of the shift register of CRC-8/MAXIM can be undone: the top bit tells whether the polynomial
was added.  So no two registers become the same by feeding the same bytes to them, and none by feeding
two different bytes.

## Main statements

* `Checksum.bijective_maxim_byte`: with all other bytes fixed, every checksum is that of exactly one byte.
* `Checksum.maxim_ne_of_ne`: payloads that differ in a single byte differ in their checksums.
-/

namespace RingStore.Checksum

/-- Undoes one step of the shift register. -/
def unshiftBit (register : UInt8) : UInt8 :=
  if register &&& 0x80 = 0 then register <<< 1 else ((register ^^^ 0x8C) <<< 1) ||| 1

theorem unshiftBit_shiftBit (register : UInt8) : unshiftBit (shiftBit register) = register := by
  have h : ∀ n : Fin 256, unshiftBit (shiftBit (UInt8.ofFin n)) = UInt8.ofFin n := by decide +kernel
  exact h register.toFin

theorem shiftBit_unshiftBit (register : UInt8) : shiftBit (unshiftBit register) = register := by
  have h : ∀ n : Fin 256, shiftBit (unshiftBit (UInt8.ofFin n)) = UInt8.ofFin n := by decide +kernel
  exact h register.toFin

theorem bijective_shiftBit : Function.Bijective shiftBit :=
  Function.bijective_iff_has_inverse.mpr ⟨unshiftBit, unshiftBit_shiftBit, shiftBit_unshiftBit⟩

theorem bijective_repeat {f : UInt8 → UInt8} (h : Function.Bijective f) (n : Nat) :
    Function.Bijective (Nat.repeat f n) := by
  induction n with
  | zero => exact Function.bijective_id
  | succ n ih => exact h.comp ih

/-- Addition modulo two undoes itself. -/
theorem bijective_xor (register : UInt8) : Function.Bijective (register ^^^ ·) := by
  have hself : Function.Involutive (register ^^^ ·) := fun byte => by
    dsimp only
    rw [← UInt8.xor_assoc, UInt8.xor_self, UInt8.zero_xor]
  exact hself.bijective

theorem feed_comm (register byte : UInt8) : feed register byte = feed byte register := by
  rw [feed, feed, UInt8.xor_comm]

theorem bijective_feed (register : UInt8) : Function.Bijective (feed register) :=
  (bijective_repeat bijective_shiftBit 8).comp (bijective_xor register)

/-- No two registers become the same by feeding the same bytes. -/
theorem bijective_maxim (payload : Bytes) : Function.Bijective (maxim · payload) := by
  induction payload with
  | nil => exact Function.bijective_id
  | cons byte rest ih =>
    have hfeed : Function.Bijective (feed · byte) := by
      simpa only [feed_comm] using bijective_feed byte
    exact ih.comp hfeed

/-- **Every checksum is that of exactly one byte**, with all other bytes fixed. -/
theorem bijective_maxim_byte (start : UInt8) (before after : Bytes) :
    Function.Bijective fun byte => maxim start (before ++ byte :: after) := by
  have hsplit : (fun byte => maxim start (before ++ byte :: after)) =
      (maxim · after) ∘ feed (maxim start before) := by
    funext byte
    rw [maxim_append]
    rfl
  rw [hsplit]
  exact (bijective_maxim after).comp (bijective_feed _)

/-- **Payloads that differ in a single byte differ in their checksums.** -/
theorem maxim_ne_of_ne (start : UInt8) (before after : Bytes) {byte other : UInt8}
    (h : byte ≠ other) : maxim start (before ++ byte :: after) ≠ maxim start (before ++ other :: after) :=
  (bijective_maxim_byte start before after).injective.ne h

/-- Every byte is the checksum of a payload of a given length, if that is not zero. -/
theorem exists_maxim_eq {length : Nat} (h : 0 < length) (start crc : UInt8) :
    ∃ payload : Bytes, payload.length = length ∧ maxim start payload = crc := by
  obtain ⟨byte, hbyte⟩ :=
    (bijective_maxim_byte start [] (List.replicate (length - 1) 0)).surjective crc
  refine ⟨byte :: List.replicate (length - 1) 0, ?_, hbyte⟩
  rw [List.length_cons, List.length_replicate, Nat.sub_add_cancel h]

end RingStore.Checksum
