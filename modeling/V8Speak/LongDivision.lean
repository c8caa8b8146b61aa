import Mathlib

/-!
# The quotient digit of a long division

Long division in base `b` finds the quotient digit by digit. A digit is the
quotient of the remaining dividend `U` by the divisor `V`, where it is known
that `U < b * V`, and it is estimated from the leading digits of the two
numbers (Knuth, volume 2, section 4.3.1).

`Leads M v V` says that `v` are the leading digits of `V`, those from the
position of weight `M` on. Dividing the leading digits of `U` by the first
digit of `V` never gives too little (`Leads.lt_succ_mul`). An estimate that is
too large for one more digit of both is too large (`Leads.lt_mul`), and can be
decremented; one that is not is too large by at most one
(`Leads.mul_lt_add`). The test of this compares products of digits, if the
remainder of the first division is kept along (`test_iff`); once that
remainder is no digit any more the test can only fail
(`test_of_remainder_ge`). If the first digits of `U` and `V` agree, the
largest digit is an estimate, too large by at most one, if `V` has been scaled
so that its first digit is at least half the base (`Leads.saturated`).
-/

namespace LongDivision

variable {b v u M U V q : ℕ}

/-- `v` is what is left of `V` without the digits below the weight `M`. -/
structure Leads (M v V : ℕ) : Prop where
  le : v * M ≤ V
  lt : V < (v + 1) * M

variable (hV : Leads M v V)
include hV

/-- **Too large for the leading digits is too large.** -/
theorem Leads.lt_mul (hU : Leads M u U) (h : u < q * v) : U < q * V := by
  calc U < (u + 1) * M := hU.lt
    _ ≤ q * v * M := Nat.mul_le_mul_right M h
    _ = q * (v * M) := Nat.mul_assoc _ _ _
    _ ≤ q * V := Nat.mul_le_mul_left q hV.le

/-- **Not too large for the leading digits** is too large by at most one. -/
theorem Leads.mul_lt_add (hU : Leads M u U) (h : q * v ≤ u) (hpos : 0 < V)
    (hq : q * M ≤ V) : q * V < U + V := by
  rcases Nat.eq_zero_or_pos q with rfl | hq0
  · omega
  · calc q * V < q * ((v + 1) * M) := Nat.mul_lt_mul_of_pos_left hV.lt hq0
      _ = q * v * M + q * M := by ring
      _ ≤ u * M + V := Nat.add_le_add (Nat.mul_le_mul_right M h) hq
      _ ≤ U + V := Nat.add_le_add_right hU.le V

/-- **The first estimate** is not too small. -/
theorem Leads.lt_succ_mul (hU : Leads M u U) (hv : 0 < v) : U < (u / v + 1) * V := by
  refine Leads.lt_mul hV hU ?_
  rw [Nat.mul_comm]
  exact Nat.lt_mul_div_succ u hv

/-- The first digit of the dividend is at most that of the divisor. -/
theorem Leads.first_le {u₀ u₁ : ℕ} (hU : Leads M (u₀ * b + u₁) U) (h : U < b * V) : u₀ ≤ v := by
  have hlt : u₀ * (b * M) < (v + 1) * (b * M) :=
    calc u₀ * (b * M) = u₀ * b * M := (Nat.mul_assoc _ _ _).symm
      _ ≤ (u₀ * b + u₁) * M := Nat.mul_le_mul_right M (Nat.le_add_right _ _)
      _ ≤ U := hU.le
      _ < b * V := h
      _ ≤ b * ((v + 1) * M) := Nat.mul_le_mul_left b hV.lt.le
      _ = (v + 1) * (b * M) := Nat.mul_left_comm _ _ _
  exact Nat.lt_succ_iff.1 (Nat.lt_of_mul_lt_mul_right hlt)

/-- A divisor that is at least half a power of the base begins with a digit that is at least half
the base. -/
theorem Leads.half_le (h : b * M ≤ 2 * V) : b ≤ 2 * v + 1 := by
  have hlt : b * M < (2 * v + 2) * M :=
    calc b * M ≤ 2 * V := h
      _ < 2 * ((v + 1) * M) := Nat.mul_lt_mul_of_pos_left hV.lt (by decide)
      _ = (2 * v + 2) * M := by ring
  exact Nat.lt_succ_iff.1 (Nat.lt_of_mul_lt_mul_right hlt)

/-- **Equal first digits.** The largest digit is too large by at most one. -/
theorem Leads.saturated (hU : v * b * M ≤ U) (hb : 2 < b)
    (hv : b ≤ 2 * v + 1) : (b - 1) * V < U + V := by
  obtain ⟨c, rfl⟩ : ∃ c, b = c + 2 := ⟨b - 2, by omega⟩
  have hle : c * (v + 1) ≤ v * (c + 2) := by
    rw [Nat.mul_succ, Nat.mul_add, Nat.mul_comm c v]
    omega
  have hlt : c * V < U :=
    calc c * V < c * ((v + 1) * M) := Nat.mul_lt_mul_of_pos_left hV.lt (by omega)
      _ = c * (v + 1) * M := (Nat.mul_assoc _ _ _).symm
      _ ≤ v * (c + 2) * M := Nat.mul_le_mul_right M hle
      _ ≤ U := hU
  rw [show c + 2 - 1 = c + 1 by omega, Nat.succ_mul]
  omega

omit hV

/-! ## The test -/

variable {v₁ v₂ u₂ r t : ℕ}

/-- **The test of an estimate** with the second digit `v₂` of the divisor and the third digit `u₂`
of the dividend, where `r` is what the estimate leaves of the first two digits `t`. -/
theorem test_iff (h : q * v₁ + r = t) : r * b + u₂ < q * v₂ ↔ t * b + u₂ < q * (v₁ * b + v₂) := by
  rw [← h, show (q * v₁ + r) * b + u₂ = q * v₁ * b + (r * b + u₂) by ring,
    show q * (v₁ * b + v₂) = q * v₁ * b + q * v₂ by ring, Nat.add_lt_add_iff_left]

/-- If the remainder is not a digit, the estimate passes the test. -/
theorem test_of_remainder_ge (h : q * v₁ + r = t) (hr : b ≤ r) (hq : q < b) (hv : v₂ < b) :
    q * (v₁ * b + v₂) ≤ t * b + u₂ := by
  refine not_lt.1 fun hlt => ?_
  have hprod : q * v₂ < b * b := Nat.mul_lt_mul'' hq hv
  have hrem : b * b ≤ r * b := Nat.mul_le_mul_right b hr
  have := (test_iff h).2 hlt
  omega

/-- An estimate that is not too small and too large by at most one. -/
theorem div_le_and_le_of_estimate (hV : 0 < V) (hlow : U < (q + 1) * V) (hhigh : q * V < U + V) :
    U / V ≤ q ∧ q ≤ U / V + 1 := by
  refine ⟨Nat.lt_succ_iff.1 ((Nat.div_lt_iff_lt_mul hV).2 hlow), ?_⟩
  have hU := Nat.lt_mul_div_succ U hV
  have hq : q * V < (U / V + 2) * V := by
    calc q * V < U + V := hhigh
      _ ≤ V * (U / V + 1) + V := by omega
      _ = (U / V + 2) * V := by ring
  exact Nat.lt_succ_iff.1 (Nat.lt_of_mul_lt_mul_right hq)

end LongDivision
