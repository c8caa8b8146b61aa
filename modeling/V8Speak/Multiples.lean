import Mathlib

/-!
# Rounding to a multiple

The multiples of a positive increment that are next to an integer: the greatest one that is
not above it, the least one that is not below it, and the nearest ones. There may be two
nearest ones, of which a rule selects the upper one, the lower one or the even one.

If an integer is between two consecutive multiples, then each of these is one of the two,
and which one is a matter of comparing distances.
-/

namespace Multiples

variable (increment x r : ℤ)

/-- The greatest multiple that is not above. -/
def Floor : Prop := IsGreatest {m | increment ∣ m ∧ m ≤ x} r

/-- The least multiple that is not below. -/
def Ceil : Prop := IsLeast {m | increment ∣ m ∧ x ≤ m} r

/-- A multiple to which there is no nearer one. -/
def Nearest : Prop :=
  increment ∣ r ∧ ∀ m, increment ∣ m → (x - r).natAbs ≤ (x - m).natAbs

/-- The nearest multiple, and the greater one of two. -/
def NearestUp : Prop :=
  Nearest increment x r ∧ ∀ m, Nearest increment x m → m ≤ r

/-- The nearest multiple, and the smaller one of two. -/
def NearestDown : Prop :=
  Nearest increment x r ∧ ∀ m, Nearest increment x m → r ≤ m

/-- The nearest multiple, and the even one of two. -/
def NearestEven : Prop :=
  Nearest increment x r ∧ ∀ m, Nearest increment x m → m = r ∨ 2 * increment ∣ r

/-- **The integer is between two consecutive multiples.** -/
structure Between (increment x q : ℤ) : Prop where
  pos : 0 < increment
  le : increment * q ≤ x
  lt : x < increment * (q + 1)

variable {increment x q r m : ℤ}

namespace Between

/-- There is no multiple in between. -/
theorem le_or_le (h : Between increment x q) (hm : increment ∣ m) :
    m ≤ increment * q ∨ increment * (q + 1) ≤ m := by
  obtain ⟨k, rfl⟩ := hm
  rcases le_or_gt k q with hk | hk
  · exact .inl (mul_le_mul_of_nonneg_left hk h.pos.le)
  · exact .inr (mul_le_mul_of_nonneg_left hk h.pos.le)

variable (h : Between increment x q)
include h

theorem floor_iff : Floor increment x r ↔ r = increment * q := by
  have hq : Floor increment x (increment * q) := by
    refine ⟨⟨dvd_mul_right _ _, h.le⟩, fun m ⟨hm, hle⟩ => ?_⟩
    rcases h.le_or_le hm with hm | hm
    · exact hm
    · exact absurd (hm.trans hle) (not_le.2 h.lt)
  exact ⟨fun hr => hr.unique hq, fun hr => hr ▸ hq⟩

omit h in
theorem ceil_iff_of_eq (hx : x = increment * q) : Ceil increment x r ↔ r = increment * q := by
  have hq : Ceil increment x (increment * q) :=
    ⟨⟨dvd_mul_right _ _, hx.le⟩, fun m ⟨_, hle⟩ => hx ▸ hle⟩
  exact ⟨fun hr => hr.unique hq, fun hr => hr ▸ hq⟩

theorem ceil_iff_of_ne (hx : x ≠ increment * q) : Ceil increment x r ↔ r = increment * (q + 1) := by
  have hq : Ceil increment x (increment * (q + 1)) := by
    refine ⟨⟨dvd_mul_right _ _, h.lt.le⟩, fun m ⟨hm, hle⟩ => ?_⟩
    rcases h.le_or_le hm with hm | hm
    · exact absurd (le_antisymm (hle.trans hm) h.le) hx
    · exact hm
  exact ⟨fun hr => hr.unique hq, fun hr => hr ▸ hq⟩

/-- The nearer one of the two is nearest. -/
theorem nearest_iff :
    Nearest increment x r ↔ r = increment * q ∧ 2 * (x - increment * q) ≤ increment ∨
      r = increment * (q + 1) ∧ increment ≤ 2 * (x - increment * q) := by
  have hnext := mul_add_one increment q
  have hle := h.le
  have hlt := h.lt
  constructor
  · rintro ⟨hr, hmin⟩
    have h₁ := hmin _ (dvd_mul_right _ q)
    have h₂ := hmin _ (dvd_mul_right _ (q + 1))
    rcases h.le_or_le hr with hr | hr <;> omega
  · rintro (⟨rfl, hx⟩ | ⟨rfl, hx⟩)
    · refine ⟨dvd_mul_right _ _, fun m hm => ?_⟩
      rcases h.le_or_le hm with hm | hm <;> omega
    · refine ⟨dvd_mul_right _ _, fun m hm => ?_⟩
      rcases h.le_or_le hm with hm | hm <;> omega

theorem nearest_iff_of_lt (hx : 2 * (x - increment * q) < increment) :
    Nearest increment x r ↔ r = increment * q := by
  rw [h.nearest_iff]
  omega

theorem nearest_iff_of_gt (hx : increment < 2 * (x - increment * q)) :
    Nearest increment x r ↔ r = increment * (q + 1) := by
  rw [h.nearest_iff]
  omega

variable (hx : 2 * (x - increment * q) = increment)
include hx

theorem nearest_iff_of_eq :
    Nearest increment x r ↔ r = increment * q ∨ r = increment * (q + 1) := by
  rw [h.nearest_iff]
  omega

theorem nearestUp_iff_of_eq : NearestUp increment x r ↔ r = increment * (q + 1) := by
  have hnext := mul_add_one increment q
  have hpos := h.pos
  simp only [NearestUp, h.nearest_iff_of_eq hx]
  constructor
  · rintro ⟨hr, hmax⟩
    have := hmax _ (.inr rfl)
    omega
  · rintro rfl
    exact ⟨.inr rfl, fun m hm => by omega⟩

theorem nearestDown_iff_of_eq : NearestDown increment x r ↔ r = increment * q := by
  have hnext := mul_add_one increment q
  have hpos := h.pos
  simp only [NearestDown, h.nearest_iff_of_eq hx]
  constructor
  · rintro ⟨hr, hmin⟩
    have := hmin _ (.inl rfl)
    omega
  · rintro rfl
    exact ⟨.inl rfl, fun m hm => by omega⟩

/-- Of two nearest multiples, the even one is the one with an even factor. -/
theorem nearestEven_iff_of_eq : NearestEven increment x r ↔ r = increment * (q + q % 2) := by
  have hpos := h.pos
  have heven (k : ℤ) : 2 * increment ∣ increment * k ↔ k % 2 = 0 := by
    rw [mul_comm 2, Int.mul_dvd_mul_iff_left hpos.ne']
    omega
  simp only [NearestEven, h.nearest_iff_of_eq hx]
  rcases Int.emod_two_eq_zero_or_one q with hq | hq
  · rw [hq, add_zero]
    constructor
    · rintro ⟨rfl | rfl, htie⟩
      · rfl
      · have := htie _ (.inl rfl)
        rw [heven] at this
        omega
    · rintro rfl
      exact ⟨.inl rfl, fun m _ => .inr ((heven q).2 hq)⟩
  · rw [hq]
    constructor
    · rintro ⟨rfl | rfl, htie⟩
      · have := htie _ (.inr rfl)
        rw [heven] at this
        omega
      · rfl
    · rintro rfl
      exact ⟨.inr rfl, fun m _ => .inr ((heven (q + 1)).2 (by omega))⟩

end Between

variable {a : ℤ} (h : ∀ m, Nearest increment x m ↔ m = a)
include h

/-- If there is one nearest multiple, then no rule is needed. -/
theorem nearestUp_iff_of_unique : NearestUp increment x r ↔ r = a := by
  refine ⟨fun hr => (h r).1 hr.1, fun hr => ⟨(h r).2 hr, fun m hm => ?_⟩⟩
  rw [(h m).1 hm, hr]

theorem nearestDown_iff_of_unique : NearestDown increment x r ↔ r = a := by
  refine ⟨fun hr => (h r).1 hr.1, fun hr => ⟨(h r).2 hr, fun m hm => ?_⟩⟩
  rw [(h m).1 hm, hr]

theorem nearestEven_iff_of_unique : NearestEven increment x r ↔ r = a :=
  ⟨fun hr => (h r).1 hr.1, fun hr => ⟨(h r).2 hr, fun m hm => .inl ((h m).1 hm ▸ hr.symm)⟩⟩

end Multiples
