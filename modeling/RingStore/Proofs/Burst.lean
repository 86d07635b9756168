import Mathlib.Data.Nat.Init
import RingStore.Proofs.Checksum

/-!
# Short bursts

The shift register is linear, so a byte need not be added to it at once: each of its bits may be added
when its turn to be shifted out comes.  The checksum of a payload is then a run over its bits, and where
a byte begins does not matter.  Eight bits in a row are fed like a byte and can be told apart, and the
bits after them cannot make two different registers the same.

## Main statements

* `Checksum.feed_eq_foldl`: feeding a byte is feeding its bits.
* `Checksum.maxim_eq_foldl`: the checksum is a run over the bits of the payload.
* `Checksum.burst_detected`: payloads that differ inside eight consecutive bits have different checksums.
-/

namespace RingStore.Checksum

/-- A bit of a byte string, those of a byte counted from the least significant one. -/
def bitAt (bytes : Bytes) (i : Nat) : Bool := (bytes.getD (i / 8) 0).toNat.testBit (i % 8)

/-- Feeding one bit adds it to the register and shifts once. -/
def feedBit (register : UInt8) (bit : Bool) : UInt8 := shiftBit (register ^^^ bit.toUInt8)

section Register

theorem and_one_eq_zero_iff (register : UInt8) :
    register &&& 1 = 0 ↔ register.toNat.testBit 0 = false := by
  rw [← UInt8.toNat_inj, UInt8.toNat_and, Nat.testBit_zero, decide_eq_false_iff_not]
  simp only [UInt8.reduceToNat, Nat.and_one_is_mod]
  omega

/-- The polynomial is added if the bit shifted out is set. -/
theorem shiftBit_eq (register : UInt8) :
    shiftBit register = (register >>> 1) ^^^ (if register.toNat.testBit 0 then 0x8C else 0) := by
  simp only [shiftBit, and_one_eq_zero_iff]
  cases register.toNat.testBit 0 <;> simp

/-- **The shift register is linear.** -/
theorem shiftBit_xor (register byte : UInt8) :
    shiftBit (register ^^^ byte) = shiftBit register ^^^ shiftBit byte := by
  have hpolynomial : ∀ bit bit' : Bool,
      (if (bit ^^ bit') = true then 0x8C else 0 : UInt8) =
        (if bit = true then 0x8C else 0) ^^^ (if bit' = true then 0x8C else 0) := by decide
  rw [shiftBit_eq, shiftBit_eq register, shiftBit_eq byte, UInt8.shiftRight_xor, UInt8.toNat_xor,
    Nat.testBit_xor, hpolynomial]
  ac_rfl

/-- All bits but the lowest only move down. -/
theorem shiftBit_xor_testBit (register byte : UInt8) :
    shiftBit (register ^^^ byte) = feedBit register (byte.toNat.testBit 0) ^^^ (byte >>> 1) := by
  have hlow : ∀ bit : Bool, shiftBit bit.toUInt8 = if bit = true then 0x8C else 0 := by decide
  rw [feedBit, shiftBit_xor, shiftBit_xor, hlow, shiftBit_eq byte, UInt8.xor_assoc,
    UInt8.xor_comm (byte >>> 1)]

theorem bijective_feedBit (bit : Bool) : Function.Bijective (feedBit · bit) := by
  have h : (feedBit · bit) = shiftBit ∘ (bit.toUInt8 ^^^ ·) := by
    funext register
    rw [feedBit, UInt8.xor_comm]
    rfl
  rw [h]
  exact bijective_shiftBit.comp (bijective_xor _)

/-- Feeding bits cannot make two registers the same. -/
theorem bijective_foldl_feedBit (bits : List Bool) : Function.Bijective (bits.foldl feedBit) := by
  induction bits with
  | nil => exact Function.bijective_id
  | cons bit rest ih => exact ih.comp (bijective_feedBit bit)

/-- After some shifts the bits fed so far have left the byte, and the others have moved down. -/
theorem repeat_shiftBit_xor (register byte : UInt8) (n : Nat) :
    Nat.repeat shiftBit n (register ^^^ byte) =
      ((List.range n).map byte.toNat.testBit).foldl feedBit register ^^^
        UInt8.ofNat (byte.toNat >>> n) := by
  induction n with
  | zero => simp [Nat.repeat]
  | succ n ih =>
    rw [Nat.repeat, ih, shiftBit_xor_testBit, List.range_succ, List.map_append, List.foldl_append]
    have hlt : byte.toNat >>> n < UInt8.size :=
      Nat.lt_of_le_of_lt (Nat.shiftRight_le _ _) byte.toNat_lt
    have hlt' : byte.toNat >>> (n + 1) < UInt8.size :=
      Nat.lt_of_le_of_lt (Nat.shiftRight_le _ _) byte.toNat_lt
    have hbit : (UInt8.ofNat (byte.toNat >>> n)).toNat.testBit 0 = byte.toNat.testBit n := by
      rw [UInt8.toNat_ofNat_of_lt' hlt, Nat.testBit_shiftRight, Nat.add_zero]
    have hshift : UInt8.ofNat (byte.toNat >>> n) >>> 1 = UInt8.ofNat (byte.toNat >>> (n + 1)) := by
      rw [← UInt8.toNat_inj, UInt8.toNat_shiftRight, UInt8.toNat_ofNat_of_lt' hlt,
        UInt8.toNat_ofNat_of_lt' hlt', Nat.shiftRight_add]
      rfl
    rw [hbit, hshift]
    rfl

/-- **Feeding a byte is feeding its bits**, the least significant one first. -/
theorem feed_eq_foldl (register byte : UInt8) :
    feed register byte = ((List.range 8).map byte.toNat.testBit).foldl feedBit register := by
  have hgone : byte.toNat >>> 8 = 0 := by
    rw [Nat.shiftRight_eq_div_pow]
    exact Nat.div_eq_of_lt byte.toNat_lt
  rw [feed, repeat_shiftBit_xor, hgone]
  exact UInt8.xor_zero

/-- Any eight bits are those of a byte. -/
theorem exists_testBit_eq (bit : Nat → Bool) : ∃ byte : UInt8, ∀ i < 8, byte.toNat.testBit i = bit i := by
  refine ⟨UInt8.ofNat (Nat.ofBits fun i : Fin 8 => bit i), fun i hi => ?_⟩
  rw [UInt8.toNat_ofNat_of_lt' (Nat.ofBits_lt_two_pow _), Nat.testBit_ofBits_lt _ i hi]

/-- **Eight bits are told apart by the register.** -/
theorem foldl_feedBit_eight {register : UInt8} {bit bit' : Nat → Bool}
    (h : ((List.range 8).map bit).foldl feedBit register =
      ((List.range 8).map bit').foldl feedBit register) {i : Nat} (hi : i < 8) : bit i = bit' i := by
  obtain ⟨byte, hbyte⟩ := exists_testBit_eq bit
  obtain ⟨byte', hbyte'⟩ := exists_testBit_eq bit'
  have hmap : ∀ {x : UInt8} {b : Nat → Bool}, (∀ i < 8, x.toNat.testBit i = b i) →
      (List.range 8).map b = (List.range 8).map x.toNat.testBit := fun hx =>
    List.map_congr_left fun j hj => (hx j (List.mem_range.mp hj)).symm
  rw [hmap hbyte, hmap hbyte', ← feed_eq_foldl, ← feed_eq_foldl] at h
  rw [← hbyte i hi, ← hbyte' i hi, (bijective_feed register).injective h]

end Register

section Strings

theorem bitAt_cons_of_lt (byte : UInt8) (rest : Bytes) {i : Nat} (hi : i < 8) :
    bitAt (byte :: rest) i = byte.toNat.testBit i := by
  rw [bitAt, Nat.div_eq_of_lt hi, Nat.mod_eq_of_lt hi]
  rfl

theorem bitAt_cons_add (byte : UInt8) (rest : Bytes) (i : Nat) :
    bitAt (byte :: rest) (8 + i) = bitAt rest i := by
  rw [bitAt, bitAt, Nat.add_mod_left, Nat.add_div_left i (by decide)]
  rfl

/-- Beyond the end there are no bits. -/
theorem bitAt_of_le {bytes : Bytes} {i : Nat} (h : 8 * bytes.length ≤ i) : bitAt bytes i = false := by
  have hlen : bytes.length ≤ i / 8 := (Nat.le_div_iff_mul_le (by decide)).mpr (by omega)
  rw [bitAt, List.getD_eq_getElem?_getD, List.getElem?_eq_none hlen]
  exact Nat.zero_testBit _

/-- **The checksum is a run over the bits of the payload.** -/
theorem maxim_eq_foldl (start : UInt8) (payload : Bytes) :
    maxim start payload =
      ((List.range (8 * payload.length)).map (bitAt payload)).foldl feedBit start := by
  induction payload generalizing start with
  | nil => rfl
  | cons byte rest ih =>
    have hhead : (List.range 8).map (bitAt (byte :: rest)) =
        (List.range 8).map byte.toNat.testBit :=
      List.map_congr_left fun i hi => bitAt_cons_of_lt byte rest (List.mem_range.mp hi)
    have htail : bitAt (byte :: rest) ∘ (8 + ·) = bitAt rest := funext (bitAt_cons_add byte rest)
    rw [List.length_cons, Nat.mul_succ, Nat.add_comm, List.range_add, List.map_append,
      List.foldl_append, hhead, ← feed_eq_foldl, List.map_map, htail, ← ih]
    rfl

/-- Byte strings of one length with the same bits are the same. -/
theorem eq_of_bitAt {a b : Bytes} (hlen : a.length = b.length) (h : ∀ i, bitAt a i = bitAt b i) :
    a = b := by
  refine List.ext_getElem hlen fun j hja hjb => ?_
  rw [← UInt8.toNat_inj]
  apply Nat.eq_of_testBit_eq
  intro k
  by_cases hk : k < 8
  · have hbit := h (8 * j + k)
    rw [bitAt, bitAt, Nat.mul_add_div (by decide), Nat.mul_add_mod, Nat.div_eq_of_lt hk,
      Nat.mod_eq_of_lt hk, Nat.add_zero, List.getD_eq_getElem?_getD, List.getD_eq_getElem?_getD,
      List.getElem?_eq_getElem hja, List.getElem?_eq_getElem hjb] at hbit
    exact hbit
  · have hhigh : ∀ byte : UInt8, byte.toNat.testBit k = false := fun byte =>
      Nat.testBit_lt_two_pow (Nat.lt_of_lt_of_le byte.toNat_lt
        (Nat.pow_le_pow_right (by decide) (by omega)))
    rw [hhigh, hhigh]

/-- A run over bits that agree outside eight of them differs, unless these agree as well. -/
theorem bits_eq_of_foldl_eq {bit bit' : Nat → Bool} {register : UInt8} (first rest : Nat)
    (houtside : ∀ i, bit i ≠ bit' i → first ≤ i ∧ i < first + 8)
    (h : ((List.range (first + (8 + rest))).map bit).foldl feedBit register =
      ((List.range (first + (8 + rest))).map bit').foldl feedBit register) (i : Nat) :
    bit i = bit' i := by
  have hagree : ∀ i, i < first ∨ first + 8 ≤ i → bit i = bit' i := fun i hi => by
    by_contra hne
    have := houtside i hne
    omega
  have hbefore : (List.range first).map bit = (List.range first).map bit' :=
    List.map_congr_left fun i hi => hagree i (.inl (List.mem_range.mp hi))
  have hafter : (List.range rest).map (bit ∘ (first + ·) ∘ (8 + ·)) =
      (List.range rest).map (bit' ∘ (first + ·) ∘ (8 + ·)) :=
    List.map_congr_left fun i _ => hagree _ (.inr (by simp only [Function.comp]; omega))
  simp only [List.range_add, List.map_append, List.foldl_append, List.map_map] at h
  rw [hbefore, hafter] at h
  have hwindow := (bijective_foldl_feedBit _).injective h
  by_cases hi : first ≤ i ∧ i < first + 8
  · have := foldl_feedBit_eight hwindow (i := i - first) (by omega)
    rwa [Function.comp, Function.comp, Nat.add_sub_cancel' hi.1] at this
  · exact hagree i (by omega)

end Strings

/-- **Every short burst is detected.**  Byte strings of one length that differ, but only inside a window
of eight consecutive bits, have different checksums, whatever the start value and wherever the window
begins. -/
theorem burst_detected (start : UInt8) {a b : Bytes} (hlen : a.length = b.length) (hne : a ≠ b)
    (first : Nat) (hwindow : ∀ i, bitAt a i ≠ bitAt b i → first ≤ i ∧ i < first + 8) :
    maxim start a ≠ maxim start b := by
  intro heq
  rw [maxim_eq_foldl, maxim_eq_foldl, ← hlen] at heq
  have hpos : 0 < a.length := by
    rw [Nat.pos_iff_ne_zero]
    intro hzero
    have hempty := List.length_eq_zero_iff.mp (hlen.symm.trans hzero)
    exact hne ((List.length_eq_zero_iff.mp hzero).trans hempty.symm)
  -- A window that begins in the last byte is moved down so that all of its bits exist.
  have hsplit : 8 * a.length =
      min first (8 * a.length - 8) + (8 + (8 * a.length - 8 - min first (8 * a.length - 8))) := by
    omega
  rw [hsplit] at heq
  refine hne (eq_of_bitAt hlen (bits_eq_of_foldl_eq _ _ (fun i hi => ?_) heq))
  have hinside := hwindow i hi
  have hlt : i < 8 * a.length := by
    by_contra hend
    rw [bitAt_of_le (by omega), bitAt_of_le (by omega)] at hi
    exact hi rfl
  omega

/-- A burst of eight bits over the border of two bytes. -/
theorem burst_detected_border :
    ([0x31, 0x32, 0x33] : Bytes).length = ([0x31, 0xC2, 0x3C] : Bytes).length ∧
    (∀ i, bitAt [0x31, 0x32, 0x33] i ≠ bitAt [0x31, 0xC2, 0x3C] i → 12 ≤ i ∧ i < 12 + 8) ∧
    maxim 0 [0x31, 0x32, 0x33] ≠ maxim 0 [0x31, 0xC2, 0x3C] := by
  have hwindow : ∀ i, bitAt [0x31, 0x32, 0x33] i ≠ bitAt [0x31, 0xC2, 0x3C] i →
      12 ≤ i ∧ i < 12 + 8 := by
    intro i hi
    by_cases hlt : i < 24
    · have hall : ∀ i < 24, bitAt [0x31, 0x32, 0x33] i ≠ bitAt [0x31, 0xC2, 0x3C] i →
          12 ≤ i ∧ i < 12 + 8 := by decide
      exact hall i hlt hi
    · rw [bitAt_of_le (by simp; omega), bitAt_of_le (by simp; omega)] at hi
      exact absurd rfl hi
  exact ⟨rfl, hwindow, burst_detected 0 rfl (by decide) 12 hwindow⟩

end RingStore.Checksum
