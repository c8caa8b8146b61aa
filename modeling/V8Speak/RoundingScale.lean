import Mathlib

/-!
# Rounding on a scale

A scale is an increasing sequence of rational numbers whose steps do not get smaller and at
most double from one to the next. The numbers of a floating-point format are such a scale
when they are counted upwards from zero: within one exponent the steps are equal, and they
double where the exponent changes.

A number is rounded to the point nearest to it, and to the even one of two points that are
equally near – even as places of the sequence, which for a floating-point format are the
even significands. The last point that rounding may give is `top`; on the usual formats it
stands for infinity. All of this is decided by comparing with the middles of neighbouring
points: `Rounds` is stated with them, and `Rounds.nearest` and `Rounds.even_of_tie` are what
it is for. Only the middles matter, so numbers that compare alike with every middle are
rounded alike (`Rounds.congr`).
-/

/-- A sequence of points whose steps are positive, do not get smaller and at most double. -/
structure RoundingScale where
  /-- The points. -/
  point : ℕ → ℚ
  step_pos : ∀ b, point b < point (b + 1)
  step_mono : ∀ b, point (b + 1) - point b ≤ point (b + 2) - point (b + 1)
  step_double : ∀ b, point (b + 2) - point (b + 1) ≤ 2 * (point (b + 1) - point b)

namespace RoundingScale

variable (S : RoundingScale)

/-- The distance to the next point. -/
def step (b : ℕ) : ℚ := S.point (b + 1) - S.point b

/-- The middle between a point and the next one. -/
def middle (b : ℕ) : ℚ := S.point b + S.step b / 2

/-- **Rounding.** The number is between the middles on both sides of the point, and on one of
them only if the place of the point is even. Nothing is above the last point. -/
structure Rounds (top : ℕ) (x : ℚ) (b : ℕ) : Prop where
  le_top : b ≤ top
  lower : ∀ c, c + 1 = b → S.middle c ≤ x ∧ (x = S.middle c → Even b)
  upper : b < top → x ≤ S.middle b ∧ (x = S.middle b → Even b)

variable {S} {top b c : ℕ} {x y : ℚ}

theorem point_succ (b : ℕ) : S.point (b + 1) = S.point b + S.step b := by
  rw [step]
  ring

theorem step_pos' (b : ℕ) : 0 < S.step b := sub_pos.2 (S.step_pos b)

theorem strictMono_point : StrictMono S.point := strictMono_nat_of_lt_succ S.step_pos

theorem monotone_step : Monotone S.step := monotone_nat_of_le_succ S.step_mono

theorem middle_lt_point (b : ℕ) : S.middle b < S.point (b + 1) := by
  have := S.step_pos' b
  rw [point_succ, middle]
  linarith

theorem point_lt_middle (b : ℕ) : S.point b < S.middle b := by
  have := S.step_pos' b
  rw [middle]
  linarith

theorem strictMono_middle : StrictMono S.middle :=
  strictMono_nat_of_lt_succ fun b => (S.middle_lt_point b).trans (S.point_lt_middle (b + 1))

/-- The middle below a point is at least a quarter of the step above away from it. -/
theorem middle_le (b : ℕ) : S.middle b ≤ S.point (b + 1) - S.step (b + 1) / 4 := by
  have hdouble : S.step (b + 1) ≤ 2 * S.step b := S.step_double b
  rw [point_succ, middle]
  linarith

namespace Rounds

/-- A number is rounded to one point. -/
theorem unique (hb : S.Rounds top x b) (hc : S.Rounds top x c) : b = c := by
  -- by symmetry there is a middle above the first and below the second
  have key : ∀ {b c : ℕ}, S.Rounds top x b → S.Rounds top x c → ¬b < c := by
    intro b c hb hc hlt
    obtain ⟨d, rfl⟩ : ∃ d, d + 1 = c := ⟨c - 1, by omega⟩
    obtain ⟨hle, heven⟩ := hc.lower d rfl
    obtain ⟨hle', heven'⟩ := hb.upper (hlt.trans_le hc.le_top)
    have hmid : S.middle b ≤ S.middle d := S.strictMono_middle.monotone (by omega)
    have hxd : x = S.middle d := le_antisymm (hle'.trans hmid) hle
    have hxb : x = S.middle b := le_antisymm hle' (hmid.trans hle)
    have hbd : b = d := S.strictMono_middle.injective (hxb.symm.trans hxd)
    subst hbd
    exact (Nat.even_add_one.1 (heven hxd)) (heven' hxb)
  exact le_antisymm (not_lt.1 (key hc hb)) (not_lt.1 (key hb hc))

/-- Numbers that compare alike with all middles are rounded alike. -/
theorem congr (hlt : ∀ c < top, S.middle c < x ↔ S.middle c < y)
    (hgt : ∀ c < top, x < S.middle c ↔ y < S.middle c) (h : S.Rounds top x b) :
    S.Rounds top y b := by
  have heq (c : ℕ) (hc : c < top) (hy : y = S.middle c) : x = S.middle c :=
    le_antisymm (not_lt.1 fun h => ((hlt c hc).1 h).ne hy.symm)
      (not_lt.1 fun h => ((hgt c hc).1 h).ne hy)
  refine ⟨h.le_top, fun c hc => ?_, fun hb => ?_⟩
  · have hct : c < top := by have := h.le_top; omega
    exact ⟨not_lt.1 fun hy => ((hgt c hct).2 hy).not_ge (h.lower c hc).1,
      fun hy => (h.lower c hc).2 (heq c hct hy)⟩
  · exact ⟨not_lt.1 fun hy => ((hlt b hb).2 hy).not_ge (h.upper hb).1,
      fun hy => (h.upper hb).2 (heq b hb hy)⟩

variable (h : S.Rounds top x b)
include h

/-- The distance to a point above is larger. -/
theorem dist_lt_of_lt (hb : b < top) (hc : b < c) :
    |x - S.point b| ≤ |x - S.point c| ∧ (|x - S.point b| = |x - S.point c| → Even b) := by
  obtain ⟨hle, heven⟩ := h.upper hb
  have hpoint : S.point (b + 1) ≤ S.point c := S.strictMono_point.monotone hc
  have hpos := S.step_pos' b
  rw [point_succ] at hpoint
  rw [middle] at hle heven
  have hneg : x - S.point c ≤ 0 := by linarith
  rw [abs_of_nonpos hneg]
  rcases le_total (S.point b) x with hx | hx
  · rw [abs_of_nonneg (sub_nonneg.2 hx)]
    exact ⟨by linarith, fun htie => heven (by linarith)⟩
  · rw [abs_of_nonpos (sub_nonpos.2 hx)]
    exact ⟨by linarith, fun htie => absurd htie (by linarith)⟩

/-- The distance to a point below is larger. -/
theorem dist_lt_of_gt (hc : c < b) :
    |x - S.point b| ≤ |x - S.point c| ∧ (|x - S.point b| = |x - S.point c| → Even b) := by
  obtain ⟨d, rfl⟩ : ∃ d, d + 1 = b := ⟨b - 1, by omega⟩
  obtain ⟨hle, heven⟩ := h.lower d rfl
  have hpoint : S.point c ≤ S.point d := S.strictMono_point.monotone (by omega)
  have hpos := S.step_pos' d
  rw [middle] at hle heven
  have hnonneg : 0 ≤ x - S.point c := by linarith
  rw [abs_of_nonneg hnonneg, point_succ]
  rcases le_total (S.point d + S.step d) x with hx | hx
  · rw [abs_of_nonneg (sub_nonneg.2 hx)]
    exact ⟨by linarith, fun htie => absurd htie (by linarith)⟩
  · rw [abs_of_nonpos (sub_nonpos.2 hx)]
    exact ⟨by linarith, fun htie => heven (by linarith)⟩

/-- **A number is rounded to the nearest point.** -/
theorem nearest (hb : b < top) (c : ℕ) :
    |x - S.point b| ≤ |x - S.point c| := by
  rcases lt_trichotomy b c with hlt | rfl | hgt
  · exact (h.dist_lt_of_lt hb hlt).1
  · exact le_rfl
  · exact (h.dist_lt_of_gt hgt).1

/-- **Of two nearest points it is the even one.** -/
theorem even_of_tie (hb : b < top) (hne : c ≠ b)
    (htie : |x - S.point b| = |x - S.point c|) : Even b := by
  rcases lt_or_gt_of_ne hne with hlt | hgt
  · exact (h.dist_lt_of_gt hlt).2 htie
  · exact (h.dist_lt_of_lt hb hgt).2 htie

end Rounds

/-! ## Numbers near a point -/

/-- What is at least the last middle is rounded to the last point. -/
theorem rounds_top (htop : Even (top + 1)) (h : S.middle top ≤ x) :
    S.Rounds (top + 1) x (top + 1) :=
  ⟨le_rfl, fun c hc => by
    obtain rfl : c = top := by omega
    exact ⟨h, fun _ => htop⟩, fun h => absurd h (lt_irrefl _)⟩

variable (htop : Even top)
include htop

/-- A number between the middles next to a point, or the last point if the scale ends before. -/
theorem rounds_min (hlow : ∀ c, c + 1 = b → S.middle c ≤ x ∧ (x = S.middle c → Even b))
    (hhigh : x ≤ S.middle b ∧ (x = S.middle b → Even b)) : S.Rounds top x (min b top) := by
  rcases lt_or_ge b top with hb | hb
  · rw [min_eq_left hb.le]
    exact ⟨hb.le, hlow, fun _ => hhigh⟩
  · rw [min_eq_right hb]
    refine ⟨le_rfl, ?_, fun h => absurd h (lt_irrefl _)⟩
    rintro c rfl
    have hle := S.strictMono_middle.monotone (show c ≤ b - 1 by omega)
    exact ⟨hle.trans (hlow (b - 1) (by omega)).1, fun _ => htop⟩

/-- **Close to a point.** Less than a quarter of a step below a point or half a step above
it. -/
theorem rounds_of_near (hlow : S.point b - S.step b / 4 < x)
    (hhigh : x < S.middle b) : S.Rounds top x (min b top) := by
  refine rounds_min htop ?_ ⟨hhigh.le, fun h => absurd h hhigh.ne⟩
  rintro c rfl
  have hlt := (S.middle_le c).trans_lt hlow
  exact ⟨hlt.le, fun h => absurd h hlt.ne'⟩

/-- **Above the middle.** The next point is the one that is rounded to. -/
theorem rounds_succ_of_near (hlow : S.middle b < x)
    (hhigh : x < S.middle (b + 1)) : S.Rounds top x (min (b + 1) top) := by
  refine rounds_min htop (fun c hc => ?_) ⟨hhigh.le, fun h => absurd h hhigh.ne⟩
  obtain rfl : c = b := by omega
  exact ⟨hlow.le, fun h => absurd h hlow.ne'⟩

/-- **On the middle, from an even point.** -/
theorem rounds_of_middle_of_even (heven : Even b) (h : x = S.middle b) :
    S.Rounds top x (min b top) := by
  refine rounds_min htop ?_ ⟨h.le, fun _ => heven⟩
  rintro c rfl
  have hlt : S.middle c < x := h.symm ▸ S.strictMono_middle (Nat.lt_succ_self c)
  exact ⟨hlt.le, fun h => absurd h hlt.ne'⟩

/-- **On the middle, from an odd point.** -/
theorem rounds_of_middle_of_odd (hodd : Odd b) (h : x = S.middle b) :
    S.Rounds top x (min (b + 1) top) := by
  have hlt : x < S.middle (b + 1) := h.trans_lt (S.strictMono_middle (Nat.lt_succ_self b))
  refine rounds_min htop (fun c hc => ?_) ⟨hlt.le, fun h => absurd h hlt.ne⟩
  obtain rfl : c = b := by omega
  exact ⟨h.ge, fun _ => hodd.add_one⟩

/-- Between two points one of the two is rounded to. -/
theorem rounds_or_rounds_succ (hlow : S.point b < x) (hhigh : x < S.point (b + 1)) :
    S.Rounds top x (min b top) ∨ S.Rounds top x (min (b + 1) top) := by
  rcases lt_trichotomy x (S.middle b) with hlt | heq | hgt
  · refine .inl (rounds_of_near htop ?_ hlt)
    have := S.step_pos' b
    linarith
  · rcases Nat.even_or_odd b with heven | hodd
    · exact .inl (rounds_of_middle_of_even htop heven heq)
    · exact .inr (rounds_of_middle_of_odd htop hodd heq)
  · exact .inr (rounds_succ_of_near htop hgt (hhigh.trans (S.point_lt_middle (b + 1))))

end RoundingScale
