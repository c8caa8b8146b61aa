import Mathlib

/-!
# Integers in the binary64 format

A positive integer is representable in the format if it has at most 53 significant bits and
is not too large. `ofNat` rounds an integer to the nearest representable one, and to the
one with an even significand if there are two. This is the result of an arithmetic
operation whose exact result is the integer.
-/

open Nat

namespace Binary64

/-- The bits of a significand. -/
def precision : ℕ := 53

/-- The unit in the last place. -/
def ulp (n : ℕ) : ℕ := 2 ^ (n.log2 + 1 - precision)

/-- Rounding to the nearest multiple of the unit in the last place. -/
def roundNat (n : ℕ) : ℕ :=
  let q := n / ulp n
  let r := n % ulp n
  (if 2 * r < ulp n then q else if ulp n < 2 * r then q + 1 else q + q % 2) * ulp n

def maxFinite : ℕ := (2 ^ 53 - 1) * 2 ^ 971

/-- The nearest number, or none if that is infinity. -/
def ofNat (n : ℕ) : Option ℕ := if roundNat n ≤ maxFinite then some (roundNat n) else none

theorem ulp_pos (n : ℕ) : 0 < ulp n := Nat.two_pow_pos _

/-- Rounding down leaves more than a half. -/
theorem div_ulp_mul_le_roundNat (n : ℕ) : n / ulp n * ulp n ≤ roundNat n := by
  unfold roundNat
  refine Nat.mul_le_mul_right _ ?_
  split
  · exact Nat.le_refl _
  · split
    · exact le_succ _
    · exact Nat.le_add_right _ _

/-- **Rounding does not halve a number.** -/
theorem lt_two_mul_roundNat {n : ℕ} (h : 0 < n) : n < 2 * roundNat n := by
  have hulp : ulp n ≤ n := by
    refine (Nat.pow_le_pow_right Nat.two_pos ?_).trans (log2_self_le h.ne')
    rw [precision]
    omega
  have hdiv : 1 ≤ n / ulp n := (Nat.one_le_div_iff (ulp_pos n)).2 hulp
  have hle := div_ulp_mul_le_roundNat n
  have hmod := mod_lt n (ulp_pos n)
  have hsplit := div_add_mod n (ulp n)
  rw [Nat.mul_comm] at hsplit
  have hone : ulp n ≤ n / ulp n * ulp n := Nat.le_mul_of_pos_left _ hdiv
  omega

theorem ofNat_eq_some {n m : ℕ} (h : ofNat n = some m) : roundNat n = m := by
  rw [ofNat] at h
  split at h
  · exact Option.some.inj h
  · exact nomatch h

/-- **Small integers are exact.** -/
theorem ofNat_of_lt {n : ℕ} (h : n < 2 ^ 53) : ofNat n = some n := by
  have hulp : ulp n = 1 := by
    have hlog : n.log2 < 53 := by
      rcases Nat.eq_zero_or_pos n with rfl | hpos
      · decide
      · exact (log2_lt hpos.ne').2 h
    rw [ulp, precision, Nat.sub_eq_zero_of_le hlog, pow_zero]
  have hround : roundNat n = n := by
    rw [roundNat, hulp, mod_one, Nat.div_one]
    exact Nat.mul_one n
  have hmax : n ≤ maxFinite := by
    rw [maxFinite]
    exact (le_sub_one_of_lt h).trans (Nat.le_mul_of_pos_right _ (Nat.two_pow_pos _))
  rw [ofNat, hround, if_pos hmax]

/-- The result of rounding divides a number only if that is exact. -/
theorem eq_of_dvd_of_ofNat {n m : ℕ} (h : 0 < n) (hm : ofNat n = some m) (hd : m ∣ n) : m = n := by
  have hlt := lt_two_mul_roundNat h
  rw [ofNat_eq_some hm] at hlt
  obtain ⟨k, rfl⟩ := hd
  rw [Nat.mul_comm 2] at hlt
  have hk : k < 2 := Nat.lt_of_mul_lt_mul_left hlt
  have hk' : k ≠ 0 := fun h0 => by rw [h0] at h; exact absurd h (Nat.lt_irrefl 0)
  obtain rfl : k = 1 := by omega
  rw [Nat.mul_one]

end Binary64
