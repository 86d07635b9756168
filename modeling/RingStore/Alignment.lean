/-!
# Alignment of 64-bit sizes

Flash accesses are widened to multiples of a granularity.  Sizes and granularities are words of
64 bits.  For a power of two the low bits are masked off, for any other granularity the remainder
is dropped by a division.  Rounding up adds `granularity - 1` first and stops at the largest word
instead of wrapping around.

## Main statements

* `alignDown_eq`: mask and division mean the same, the remainder is dropped.
* `alignUp_eq`: the same for rounding up.
-/

namespace RingStore

/-- The largest 64-bit word. -/
def maxWord : Nat := 0xFFFFFFFFFFFFFFFF

/-- A power of two has a single bit set. -/
def isPowerOfTwo (a : Nat) : Bool := a != 0 && a &&& (a - 1) == 0

/-- Rounds a size down to a multiple of a granularity. -/
def alignDown (size granularity : Nat) : Nat :=
  if isPowerOfTwo granularity then size &&& (maxWord ^^^ (granularity - 1))
  else size / granularity * granularity

/-- Rounds a size up to a multiple of a granularity, as far as 64 bits reach. -/
def alignUp (size granularity : Nat) : Nat :=
  alignDown (min (size + (granularity - 1)) maxWord) granularity

theorem isPowerOfTwo_iff {a : Nat} : isPowerOfTwo a = true ↔ a.isPowerOfTwo := by
  rw [isPowerOfTwo, Bool.and_eq_true, bne_iff_ne, beq_iff_eq]
  constructor
  · rintro ⟨hne, hand⟩
    exact (Nat.and_sub_one_eq_zero_iff_isPowerOfTwo hne).mp hand
  · intro hpow
    have hne : a ≠ 0 := Nat.ne_of_gt (Nat.pos_of_isPowerOfTwo hpow)
    exact ⟨hne, (Nat.and_sub_one_eq_zero_iff_isPowerOfTwo hne).mpr hpow⟩

/-- Masking the low bits of a word off is dropping the remainder. -/
theorem and_xor_sub_one {size granularity : Nat} (h : size ≤ maxWord)
    (hpow : granularity.isPowerOfTwo) :
    size &&& (maxWord ^^^ (granularity - 1)) = size / granularity * granularity := by
  obtain ⟨k, rfl⟩ := hpow
  have hword : maxWord = 2 ^ 64 - 1 := rfl
  apply Nat.eq_of_testBit_eq
  intro i
  rw [Nat.testBit_and, Nat.testBit_xor, hword, Nat.testBit_two_pow_sub_one,
    Nat.testBit_two_pow_sub_one, Nat.testBit_mul_two_pow, Nat.testBit_div_two_pow]
  by_cases hk : k ≤ i
  · have hlow : ¬i < k := by omega
    by_cases hi : i < 64
    · simp [hk, hlow, hi]
    · have hsize : size < 2 ^ i := by
        have hpow : 2 ^ 64 ≤ 2 ^ i := Nat.pow_le_pow_right (by decide) (by omega)
        rw [hword] at h
        omega
      simp [hk, Nat.testBit_lt_two_pow hsize]
  · have hlow : i < k := by omega
    by_cases hi : i < 64
    · simp [hk, hlow, hi]
    · have hsize : size < 2 ^ i := by
        have hpow : 2 ^ 64 ≤ 2 ^ i := Nat.pow_le_pow_right (by decide) (by omega)
        rw [hword] at h
        omega
      simp [hk, Nat.testBit_lt_two_pow hsize]

/-- **Rounding down drops the remainder**, for a power of two as for any other granularity. -/
theorem alignDown_eq {size : Nat} (h : size ≤ maxWord) (granularity : Nat) :
    alignDown size granularity = size / granularity * granularity := by
  rw [alignDown]
  split
  · next hpow =>
    exact and_xor_sub_one h (isPowerOfTwo_iff.mp hpow)
  · rfl

theorem alignUp_eq (size granularity : Nat) :
    alignUp size granularity =
      min (size + (granularity - 1)) maxWord / granularity * granularity :=
  alignDown_eq (Nat.min_le_right _ _) granularity

theorem alignDown_le (size granularity : Nat) : alignDown size granularity ≤ size := by
  rw [alignDown]
  split
  · exact Nat.and_le_left
  · exact Nat.div_mul_le_self size granularity

end RingStore
