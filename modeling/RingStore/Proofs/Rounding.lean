import Mathlib.Order.Bounds.Basic
import RingStore.Alignment

/-!
# Rounding is exact

Rounding down gives the greatest multiple of the granularity that is not above the size, rounding up
the least one that is not below it.  That one may be larger than any word.  Then the addition before
the division has stopped at the largest word, and rounding up gives the greatest multiple that is a
word instead.

## Main statements

* `isGreatest_alignDown`, `alignUp_eq_of_isLeast`, `isGreatest_alignUp`: what the two give.
* `alignment_exact`: all of it for every size and granularity, with idempotence and monotonicity.
-/

namespace RingStore

section Multiples

variable {size granularity : Nat}

/-- Dropping the remainder gives the greatest multiple that is not above. -/
theorem isGreatest_div_mul (hpos : 0 < granularity) (size : Nat) :
    IsGreatest {m | granularity ∣ m ∧ m ≤ size} (size / granularity * granularity) := by
  refine ⟨⟨Nat.dvd_mul_left _ _, Nat.div_mul_le_self _ _⟩, ?_⟩
  rintro m ⟨⟨k, rfl⟩, hm⟩
  rw [Nat.mul_comm granularity k] at hm ⊢
  exact Nat.mul_le_mul_right _ ((Nat.le_div_iff_mul_le hpos).mpr hm)

/-- Adding all but one of the granularity first gives the least multiple that is not below. -/
theorem isLeast_div_mul (hpos : 0 < granularity) (size : Nat) :
    IsLeast {m | granularity ∣ m ∧ size ≤ m}
      ((size + (granularity - 1)) / granularity * granularity) := by
  refine ⟨⟨Nat.dvd_mul_left _ _, ?_⟩, ?_⟩
  · have hrest := Nat.div_add_mod' (size + (granularity - 1)) granularity
    have hmod := Nat.mod_lt (size + (granularity - 1)) hpos
    omega
  · rintro m ⟨⟨k, rfl⟩, hm⟩
    rw [Nat.mul_comm granularity k] at hm ⊢
    have hlt : size + (granularity - 1) < (k + 1) * granularity := by
      rw [Nat.succ_mul]
      omega
    exact Nat.mul_le_mul_right _ (Nat.le_of_lt_succ ((Nat.div_lt_iff_lt_mul hpos).mpr hlt))

theorem isGreatest_alignDown (hsize : size ≤ maxWord) (hpos : 0 < granularity) :
    IsGreatest {m | granularity ∣ m ∧ m ≤ size} (alignDown size granularity) := by
  rw [alignDown_eq hsize]
  exact isGreatest_div_mul hpos size

/-- The sum stopped at the largest word, but no multiple lies between the two if one is a word. -/
theorem alignUp_eq_of_isLeast {least : Nat} (hpos : 0 < granularity)
    (h : IsLeast {m | granularity ∣ m ∧ size ≤ m} least) (hword : least ≤ maxWord) :
    alignUp size granularity = least := by
  have hsum := (isLeast_div_mul hpos size).unique h
  have hcap := isGreatest_div_mul hpos (min (size + (granularity - 1)) maxWord)
  rw [alignUp_eq]
  apply Nat.le_antisymm
  · rw [← hsum]
    exact Nat.mul_le_mul_right _ (Nat.div_le_div_right (Nat.min_le_left _ _))
  · refine hcap.2 ⟨h.1.1, Nat.le_min.mpr ⟨?_, hword⟩⟩
    rw [← hsum]
    exact Nat.div_mul_le_self _ _

/-- If the least multiple is not a word, the sum stops at the largest word. -/
theorem maxWord_lt_of_isLeast {least : Nat} (hpos : 0 < granularity)
    (h : IsLeast {m | granularity ∣ m ∧ size ≤ m} least) (hword : maxWord < least) :
    maxWord < size + (granularity - 1) := by
  rw [← (isLeast_div_mul hpos size).unique h] at hword
  exact Nat.lt_of_lt_of_le hword (Nat.div_mul_le_self _ _)

theorem isGreatest_alignUp (hpos : 0 < granularity) (hsum : maxWord < size + (granularity - 1)) :
    IsGreatest {m | granularity ∣ m ∧ m ≤ maxWord} (alignUp size granularity) := by
  rw [alignUp_eq, Nat.min_eq_right (Nat.le_of_lt hsum)]
  exact isGreatest_div_mul hpos maxWord

theorem alignUp_le_maxWord (size granularity : Nat) : alignUp size granularity ≤ maxWord :=
  Nat.le_trans (alignDown_le _ _) (Nat.min_le_right _ _)

theorem dvd_alignUp (size granularity : Nat) : granularity ∣ alignUp size granularity := by
  rw [alignUp_eq]
  exact Nat.dvd_mul_left _ _

/-- A multiple that is a word is not moved by rounding down. -/
theorem alignDown_of_dvd (hsize : size ≤ maxWord) (h : granularity ∣ size) :
    alignDown size granularity = size := by
  rw [alignDown_eq hsize, Nat.div_mul_cancel h]

/-- A multiple that is a word is not moved by rounding up. -/
theorem alignUp_of_dvd (hpos : 0 < granularity) (hsize : size ≤ maxWord) (h : granularity ∣ size) :
    alignUp size granularity = size :=
  alignUp_eq_of_isLeast hpos ⟨⟨h, Nat.le_refl size⟩, fun _ hm => hm.2⟩ hsize

theorem alignDown_alignDown (hsize : size ≤ maxWord) (granularity : Nat) :
    alignDown (alignDown size granularity) granularity = alignDown size granularity := by
  refine alignDown_of_dvd (Nat.le_trans (alignDown_le _ _) hsize) ?_
  rw [alignDown_eq hsize]
  exact Nat.dvd_mul_left _ _

theorem alignUp_alignUp (hpos : 0 < granularity) (size : Nat) :
    alignUp (alignUp size granularity) granularity = alignUp size granularity :=
  alignUp_of_dvd hpos (alignUp_le_maxWord size granularity) (dvd_alignUp size granularity)

theorem alignDown_mono {smaller : Nat} (h : smaller ≤ size) (hsize : size ≤ maxWord)
    (granularity : Nat) : alignDown smaller granularity ≤ alignDown size granularity := by
  rw [alignDown_eq (Nat.le_trans h hsize), alignDown_eq hsize]
  exact Nat.mul_le_mul_right _ (Nat.div_le_div_right h)

theorem alignUp_mono {smaller : Nat} (h : smaller ≤ size) (granularity : Nat) :
    alignUp smaller granularity ≤ alignUp size granularity := by
  refine alignDown_mono ?_ (Nat.min_le_right _ _) granularity
  omega

end Multiples

/-- **Rounding is exact.**  Rounding down gives the greatest multiple not above the size, rounding
up the least one not below it or, if that is not a word, the greatest one that is.  For a power of
two the mask and the division agree, and both ways of rounding are idempotent and monotone. -/
theorem alignment_exact {size granularity : Nat} (hsize : size ≤ maxWord) (hpos : 0 < granularity) :
    IsGreatest {m | granularity ∣ m ∧ m ≤ size} (alignDown size granularity) ∧
    (∃ least, IsLeast {m | granularity ∣ m ∧ size ≤ m} least ∧
      (least ≤ maxWord → alignUp size granularity = least) ∧
      (maxWord < least → maxWord < size + (granularity - 1) ∧
        IsGreatest {m | granularity ∣ m ∧ m ≤ maxWord} (alignUp size granularity))) ∧
    (isPowerOfTwo granularity = true →
      size &&& (maxWord ^^^ (granularity - 1)) = size / granularity * granularity ∧
      min (size + (granularity - 1)) maxWord &&& (maxWord ^^^ (granularity - 1)) =
        min (size + (granularity - 1)) maxWord / granularity * granularity) ∧
    alignDown (alignDown size granularity) granularity = alignDown size granularity ∧
    alignUp (alignUp size granularity) granularity = alignUp size granularity ∧
    ∀ smaller ≤ size, alignDown smaller granularity ≤ alignDown size granularity ∧
      alignUp smaller granularity ≤ alignUp size granularity := by
  refine ⟨isGreatest_alignDown hsize hpos, ?_, ?_, alignDown_alignDown hsize granularity,
    alignUp_alignUp hpos size, ?_⟩
  · have hleast := isLeast_div_mul hpos size
    refine ⟨_, hleast, alignUp_eq_of_isLeast hpos hleast, fun hword => ?_⟩
    have hsum := maxWord_lt_of_isLeast hpos hleast hword
    exact ⟨hsum, isGreatest_alignUp hpos hsum⟩
  · intro hpow
    have hpow' := isPowerOfTwo_iff.mp hpow
    exact ⟨and_xor_sub_one hsize hpow', and_xor_sub_one (Nat.min_le_right _ _) hpow'⟩
  · intro smaller hle
    exact ⟨alignDown_mono hle hsize granularity, alignUp_mono hle granularity⟩

/-- The largest word is rounded up to itself by three, and to the greatest even word by two. -/
theorem alignment_exact_maxWord :
    (maxWord ≤ maxWord ∧ 0 < 3 ∧ 0 < 2) ∧
    alignUp maxWord 3 = maxWord ∧ alignUp maxWord 2 = maxWord - 1 ∧
    alignUp (alignUp maxWord 3) 3 = alignUp maxWord 3 ∧
    IsGreatest {m | 2 ∣ m ∧ m ≤ maxWord} (alignDown maxWord 2) :=
  ⟨by decide, by decide, by decide,
    (alignment_exact (Nat.le_refl maxWord) (Nat.succ_pos 2)).2.2.2.2.1,
    (alignment_exact (Nat.le_refl maxWord) (Nat.succ_pos 1)).1⟩

end RingStore
