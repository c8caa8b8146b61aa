import Mathlib

/-!
# Division by a reciprocal

To divide by `d`, one multiplies by an `m` with `m * d` a little above a power
of two, and shifts. This file has the arithmetic of that. An error `e` in
`m * d = N + e` does not matter for a number `n` as long as `n * e` is small
against `N` times the distance of `n` to the next multiple of `d`
(`mul_div_eq_div`). How small it must be for all numbers below a bound is known
from a single critical number `nc` (`error_lt`).

The search for the least power of two goes through quotients and remainders of
`2 * x` and `2 * x + 1` from those of `x` (`double_divMod`). That it is the
least bounds the reciprocal (`reciprocal_le`).
-/

open Nat

namespace Reciprocal

/-! ## Doubling -/

/-- Quotient and remainder of a number with one more binary digit. -/
theorem double_divMod (x : ℕ) {b d : ℕ} (hb : b ≤ 1) (hd : 0 < d) :
    (2 * x + b) / d = (if d ≤ 2 * (x % d) + b then 2 * (x / d) + 1 else 2 * (x / d)) ∧
      (2 * x + b) % d = (if d ≤ 2 * (x % d) + b then 2 * (x % d) + b - d else 2 * (x % d) + b) := by
  have hx := div_add_mod x d
  have hlt := mod_lt x hd
  split
  · next h =>
    refine (Nat.div_mod_unique hd).mpr ⟨?_, by omega⟩
    rw [mul_add, mul_one, mul_left_comm]
    omega
  · next h =>
    refine (Nat.div_mod_unique hd).mpr ⟨?_, by omega⟩
    rw [mul_left_comm]
    omega

/-- A quotient that is compared with a number. -/
theorem mul_lt_iff_div {x d k : ℕ} (hd : 0 < d) :
    d * k < x ↔ ¬ (x / d < k ∨ x / d = k ∧ x % d = 0) := by
  have hx := div_add_mod x d
  have hlt := mod_lt x hd
  rcases lt_trichotomy (x / d) k with h | rfl | h
  · have hle : d * (x / d + 1) ≤ d * k := Nat.mul_le_mul_left d h
    rw [mul_add, mul_one] at hle
    exact iff_of_false (by omega) (by simp [h])
  · omega
  · have hle : d * (k + 1) ≤ d * (x / d) := Nat.mul_le_mul_left d h
    rw [mul_add, mul_one] at hle
    exact iff_of_true (by omega) (by omega)

/-! ## The quotient -/

section Quotient

variable {m d N e n : ℕ} (hd : 0 < d) (hm : m * d = N + e)

include hd hm

/-- How far a product with the reciprocal is from the next quotient. -/
theorem mul_mul_add : n * m * d + (d - n % d) * N = (n / d + 1) * N * d + n * e := by
  have hmod := mod_lt n hd
  have hdiv := div_add_mod n d
  have hnext : (n / d + 1) * d = n + (d - n % d) := by
    rw [add_mul, one_mul, mul_comm]
    omega
  calc n * m * d + (d - n % d) * N = (n + (d - n % d)) * N + n * e := by
        rw [mul_assoc, hm]
        ring
    _ = (n / d + 1) * N * d + n * e := by
        rw [← hnext]
        ring

/-- The product is not below the quotient. -/
theorem div_mul_le : n / d * N ≤ n * m := by
  refine Nat.le_of_mul_le_mul_right ?_ hd
  calc n / d * N * d = n / d * d * N := by ring
    _ ≤ n * N := Nat.mul_le_mul_right N (div_mul_le_self n d)
    _ ≤ n * (N + e) := Nat.mul_le_mul_left n (Nat.le_add_right N e)
    _ = n * m * d := by rw [← hm, mul_assoc]

/-- **A small error does not matter.** -/
theorem mul_div_eq_div (h : n * e < (d - n % d) * N) : n * m / N = n / d := by
  have hfar := mul_mul_add (n := n) hd hm
  exact Nat.div_eq_of_lt_le (div_mul_le hd hm) (Nat.lt_of_mul_lt_mul_right (a := d) (by omega))

theorem mul_le_succ_div_mul (h : n * e ≤ (d - n % d) * N) : n * m ≤ (n / d + 1) * N := by
  have hfar := mul_mul_add (n := n) hd hm
  exact Nat.le_of_mul_le_mul_right (by omega) hd

omit hd in
/-- With an error, the product is above the quotient. -/
theorem div_mul_lt (he : 0 < e) (hn : 0 < n) : n / d * N < n * m := by
  refine Nat.lt_of_mul_lt_mul_right (a := d) ?_
  calc n / d * N * d = n / d * d * N := by ring
    _ ≤ n * N := Nat.mul_le_mul_right N (div_mul_le_self n d)
    _ < n * (N + e) := Nat.mul_lt_mul_of_pos_left (Nat.lt_add_of_pos_right he) hn
    _ = n * m * d := by rw [← hm, mul_assoc]

end Quotient

/-! ## The critical number -/

/-- **One number decides.** The numbers just before a multiple of `d` must be at
most `nc`, all others at most twice that. -/
theorem error_lt {d N e n nc : ℕ} (hd : 0 < d) (hlast : n % d + 1 = d → n ≤ nc)
    (hn : n ≤ 2 * nc) (h : nc * e < N) : n * e < (d - n % d) * N := by
  have hmod := mod_lt n hd
  by_cases hr : n % d + 1 = d
  · calc n * e ≤ nc * e := Nat.mul_le_mul_right e (hlast hr)
      _ < N := h
      _ = (d - n % d) * N := by rw [show d - n % d = 1 by omega, one_mul]
  · calc n * e ≤ 2 * nc * e := Nat.mul_le_mul_right e hn
      _ < 2 * N := by rw [mul_assoc]; omega
      _ ≤ (d - n % d) * N := Nat.mul_le_mul_right N (by omega)

/-- A number just before a multiple of `d` is at most the last one below a
bound. -/
theorem le_of_mod_add_one {d n b : ℕ} (hr : n % d + 1 = d) (hb : d ∣ b) (hn : n + 1 < b + d) :
    n + 1 ≤ b := by
  obtain ⟨k, rfl⟩ := hb
  have hn' : n + 1 = d * (n / d + 1) := by
    have := div_add_mod n d
    rw [mul_add, mul_one]
    omega
  rw [hn'] at hn ⊢
  have hlt : d * (n / d + 1) < d * (k + 1) := by rw [mul_add d k 1, mul_one]; exact hn
  exact Nat.mul_le_mul_left d (le_of_lt_succ (Nat.lt_of_mul_lt_mul_left hlt))

/-- The error when `d` divides a power of two and one. -/
theorem error_le_of_dvd_succ {m d e t E : ℕ} (hm : m * d = t * E + e) (he : e ≤ d) (hE : 0 < E)
    (ht : d ∣ t + 1) : e ≤ E := by
  by_contra hlt
  have hdvd : d ∣ e - E := by
    have h₁ : d ∣ t * E + e := ⟨m, by rw [← hm, mul_comm]⟩
    have h₂ : d ∣ (t + 1) * E := ht.mul_right E
    have hsub : t * E + e - (t + 1) * E = e - E := by
      rw [add_mul, one_mul]
      omega
    exact hsub ▸ Nat.dvd_sub h₁ h₂
  have := le_of_dvd (by omega) hdvd
  omega

/-- **The reciprocal is small** where the error is too large: there the search
has to go on. -/
theorem reciprocal_le {m d e N nc : ℕ} (hm : m * d = N + e) (h : N ≤ nc * e) :
    m * d ≤ (nc + 1) * e := by
  rw [hm, add_mul, one_mul]
  omega

end Reciprocal
