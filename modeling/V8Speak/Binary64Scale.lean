import V8Speak.RoundingScale

/-!
# The scale of binary64 numbers

The numbers of binary64 that are not negative, counted upwards from zero, are the scale that
decimal numbers are rounded on. The place of a number on the scale is its bit pattern: the
52 bits of the significand without its leading one, and above them the exponent. So the next
number is the next bit pattern, and infinity is the bit pattern above the greatest number.

A place `f + k * 2 ^ 52` is worth `f * 2 ^ k` units of `2 ^ (-1074)` if `f` is a significand
of 53 bits, or any smaller one and `k` is zero (`units_place`). Everything about a place is
read off that form, which each one has (`exists_place`).
-/

open Nat RoundingScale

namespace Binary64

/-- The value of a bit pattern, in units of the smallest number: a significand and a power
of two. The exponents are not bounded here. -/
def units (b : ℕ) : ℕ :=
  if b < 2 ^ 52 then b else (2 ^ 52 + b % 2 ^ 52) * 2 ^ (b / 2 ^ 52 - 1)

/-- The bit pattern of infinity. -/
def infinity : ℕ := 2047 * 2 ^ 52

/-- The significand of a place, as an exponent allows it. -/
def Fits (f k : ℕ) : Prop := f < 2 ^ 53 ∧ (k = 0 ∨ 2 ^ 52 ≤ f)

variable {f k : ℕ}

theorem units_place (hle : f ≤ 2 ^ 53) (hf : k = 0 ∨ 2 ^ 52 ≤ f) :
    units (f + k * 2 ^ 52) = f * 2 ^ k := by
  rcases lt_or_ge f (2 ^ 52) with hsmall | hlarge
  · obtain rfl : k = 0 := by omega
    rw [zero_mul, add_zero, pow_zero, mul_one, units, if_pos hsmall]
  · rw [units, if_neg (by omega)]
    rcases hle.lt_or_eq with hlt | rfl
    · have hdiv : (f + k * 2 ^ 52) / 2 ^ 52 - 1 = k := by omega
      have hmod : 2 ^ 52 + (f + k * 2 ^ 52) % 2 ^ 52 = f := by omega
      rw [hdiv, hmod]
    · have hdiv : (2 ^ 53 + k * 2 ^ 52) / 2 ^ 52 - 1 = k + 1 := by omega
      have hmod : 2 ^ 52 + (2 ^ 53 + k * 2 ^ 52) % 2 ^ 52 = 2 ^ 52 := by omega
      rw [hdiv, hmod, pow_succ]
      ring

variable (b : ℕ)

/-- Each place has a significand and an exponent. -/
theorem exists_place : ∃ f k, b = f + k * 2 ^ 52 ∧ Fits f k := by
  rcases lt_or_ge b (2 ^ 52) with hsmall | hlarge
  · exact ⟨b, 0, by omega, by omega, .inl rfl⟩
  · refine ⟨2 ^ 52 + b % 2 ^ 52, b / 2 ^ 52 - 1, ?_, ?_, .inr ?_⟩ <;> omega

/-- The step at a place is one in the last place of the significand. -/
theorem units_succ (h : Fits f k) :
    units (f + k * 2 ^ 52 + 1) = units (f + k * 2 ^ 52) + 2 ^ k := by
  obtain ⟨hlt, hf⟩ := h
  rw [units_place hlt.le hf, show f + k * 2 ^ 52 + 1 = (f + 1) + k * 2 ^ 52 by omega,
    units_place (by omega) (by omega), add_mul, one_mul]

/-- The next place has the same exponent, or the one above it. -/
theorem exists_next (h : Fits f k) :
    ∃ g l, f + k * 2 ^ 52 + 1 = g + l * 2 ^ 52 ∧ Fits g l ∧ (l = k ∨ l = k + 1) := by
  obtain ⟨hlt, hf⟩ := h
  rcases Nat.lt_or_ge (f + 1) (2 ^ 53) with hnext | hnext
  · exact ⟨f + 1, k, by omega, ⟨hnext, by omega⟩, .inl rfl⟩
  · exact ⟨2 ^ 52, k + 1, by omega, ⟨by omega, .inr le_rfl⟩, .inr rfl⟩

/-- One unit: the smallest positive number. -/
def unit : ℚ := 1 / 2 ^ 1074

theorem unit_pos : 0 < unit := by
  rw [unit]
  positivity

theorem unit_eq_zpow : unit = 2 ^ (-1074 : ℤ) := by
  rw [unit, zpow_neg, one_div]
  rfl

/-- The steps of two neighbouring places. -/
theorem exists_steps : ∃ k l, units (b + 1) = units b + 2 ^ k ∧
    units (b + 2) = units (b + 1) + 2 ^ l ∧ (l = k ∨ l = k + 1) := by
  obtain ⟨f, k, rfl, hfits⟩ := exists_place b
  obtain ⟨g, l, hnext, hfits', hl⟩ := exists_next hfits
  refine ⟨k, l, units_succ hfits, ?_, hl⟩
  have := units_succ hfits'
  rw [← hnext] at this
  exact this

/-- **The scale.** -/
def scale : RoundingScale where
  point b := units b * unit
  step_pos b := by
    obtain ⟨k, l, hk, -, -⟩ := exists_steps b
    rw [hk]
    push_cast
    have : (0 : ℚ) < 2 ^ k * unit := mul_pos (by positivity) unit_pos
    linarith
  step_mono b := by
    obtain ⟨k, l, hk, hl, h⟩ := exists_steps b
    rw [hl, hk]
    push_cast
    have := unit_pos
    have hpow : (0 : ℚ) < 2 ^ k * unit := mul_pos (by positivity) unit_pos
    rcases h with rfl | rfl
    · linarith
    · rw [pow_succ]
      linarith
  step_double b := by
    obtain ⟨k, l, hk, hl, h⟩ := exists_steps b
    rw [hl, hk]
    push_cast
    have hpow : (0 : ℚ) < 2 ^ k * unit := mul_pos (by positivity) unit_pos
    rcases h with rfl | rfl
    · linarith
    · rw [pow_succ]
      linarith

theorem point_eq : scale.point b = units b * unit := rfl

theorem point_place (h : Fits f k) : scale.point (f + k * 2 ^ 52) = f * 2 ^ k * unit := by
  rw [point_eq, units_place h.1.le h.2]
  push_cast
  rfl

theorem step_place (h : Fits f k) : scale.step (f + k * 2 ^ 52) = 2 ^ k * unit := by
  rw [step, point_eq, point_eq, units_succ h]
  push_cast
  ring

theorem middle_place (h : Fits f k) :
    scale.middle (f + k * 2 ^ 52) = (2 * f + 1) / 2 * 2 ^ k * unit := by
  rw [middle, point_place h, step_place h]
  ring

theorem even_infinity : Even infinity := ⟨2047 * 2 ^ 51, by decide⟩

/-- Half of the smallest number is rounded to zero. -/
theorem middle_zero : scale.middle 0 = unit / 2 := by
  have h := middle_place (f := 0) (k := 0) ⟨by decide, .inl rfl⟩
  rw [zero_mul, zero_add] at h
  rw [h]
  norm_num
  ring

/-- A number that is at most half of the smallest one. -/
theorem rounds_zero {x : ℚ} (hx : x ≤ unit / 2) : scale.Rounds infinity x 0 :=
  ⟨Nat.zero_le _, fun c hc => absurd hc (succ_ne_zero c), fun _ =>
    ⟨by rwa [middle_zero], fun _ => ⟨0, rfl⟩⟩⟩

/-- The middle between the greatest number and what would be the next one. -/
theorem middle_last : scale.middle (infinity - 1) = 2 ^ 1024 - 2 ^ 970 := by
  have h := middle_place (f := 2 ^ 53 - 1) (k := 2045) ⟨by decide, .inr (by decide)⟩
  rw [show infinity - 1 = 2 ^ 53 - 1 + 2045 * 2 ^ 52 by decide, h, unit]
  have hpow : (2 : ℚ) ^ 2045 = 2 ^ 1074 * 2 ^ 971 := by rw [← pow_add]
  rw [hpow]
  field_simp
  norm_num

/-! ## Rounding as a computation -/

/-- The bit pattern to which a number that is not negative is rounded. -/
def ofRat (x : ℚ) : ℕ :=
  let t := ⌊x / unit⌋₊
  let k := t.log2 - 52
  let f := t / 2 ^ k
  let rest := x / unit - f * 2 ^ k
  let b := f + k * 2 ^ 52
  min (if 2 ^ k < 2 * rest ∨ (2 ^ k = 2 * rest ∧ b % 2 = 1) then b + 1 else b) infinity

/-- The leading bits of a number are a significand. -/
theorem fits_leading (t : ℕ) : Fits (t / 2 ^ (t.log2 - 52)) (t.log2 - 52) := by
  have hlt : t < 2 ^ (t.log2 + 1) := lt_log2_self
  rcases Nat.lt_or_ge t.log2 53 with hsmall | hlarge
  · rw [show t.log2 - 52 = 0 by omega, pow_zero, Nat.div_one]
    exact ⟨hlt.trans_le (Nat.pow_le_pow_right (by decide) (by omega)), .inl rfl⟩
  · have ht : t ≠ 0 := by
      rintro rfl
      rw [log2_zero] at hlarge
      omega
    refine ⟨(Nat.div_lt_iff_lt_mul (Nat.two_pow_pos _)).2 ?_, .inr ?_⟩
    · rwa [← pow_add, show 53 + (t.log2 - 52) = t.log2 + 1 by omega]
    · rw [Nat.le_div_iff_mul_le (Nat.two_pow_pos _), ← pow_add,
        show 52 + (t.log2 - 52) = t.log2 by omega]
      exact log2_self_le ht

/-- **The computation rounds.** -/
theorem rounds_ofRat {x : ℚ} (hx : 0 ≤ x) : scale.Rounds infinity x (ofRat x) := by
  have hunit := unit_pos
  obtain ⟨X, rfl⟩ : ∃ X : ℚ, x = X * unit := ⟨x / unit, (div_mul_cancel₀ x hunit.ne').symm⟩
  have hX : 0 ≤ X := nonneg_of_mul_nonneg_left hx hunit
  unfold ofRat
  rw [mul_div_cancel_right₀ X hunit.ne']
  dsimp only
  have hfits := fits_leading ⌊X⌋₊
  generalize hk : ⌊X⌋₊.log2 - 52 = k at hfits ⊢
  generalize hf : ⌊X⌋₊ / 2 ^ k = f at hfits ⊢
  -- the number is between the place of its leading bits and the next one
  have hlow : (f * 2 ^ k : ℚ) ≤ X := by
    have h := floor_le hX
    have hle : f * 2 ^ k ≤ ⌊X⌋₊ := by
      rw [← hf]
      exact div_mul_le_self _ _
    calc (f * 2 ^ k : ℚ) = (f * 2 ^ k : ℕ) := by push_cast; rfl
      _ ≤ (⌊X⌋₊ : ℚ) := by exact_mod_cast hle
      _ ≤ X := h
  have hhigh : X < (f + 1) * 2 ^ k := by
    have h := lt_floor_add_one X
    have hle : ⌊X⌋₊ + 1 ≤ (f + 1) * 2 ^ k := by
      have := lt_div_mul_add (Nat.two_pow_pos k) (a := ⌊X⌋₊)
      rw [hf] at this
      rw [add_mul, one_mul]
      omega
    calc X < (⌊X⌋₊ : ℚ) + 1 := h
      _ = ((⌊X⌋₊ + 1 : ℕ) : ℚ) := by push_cast; rfl
      _ ≤ (((f + 1) * 2 ^ k : ℕ) : ℚ) := by exact_mod_cast hle
      _ = (f + 1) * 2 ^ k := by push_cast; rfl
  have hpoint := point_place hfits
  have hstep := step_place hfits
  have hmiddle : scale.middle (f + k * 2 ^ 52) = (f * 2 ^ k + 2 ^ k / 2) * unit := by
    rw [middle, hpoint, hstep]
    ring
  generalize f + k * 2 ^ 52 = b at hpoint hstep hmiddle ⊢
  have hnext : X * unit < scale.middle (b + 1) := by
    refine lt_trans ?_ (scale.point_lt_middle (b + 1))
    rw [point_succ, hpoint, hstep, ← add_mul]
    exact mul_lt_mul_of_pos_right (by linarith) hunit
  rcases lt_trichotomy (2 ^ k) (2 * (X - f * 2 ^ k)) with hup | htie | hdown
  · rw [if_pos (.inl hup)]
    refine rounds_succ_of_near even_infinity ?_ hnext
    rw [hmiddle]
    exact mul_lt_mul_of_pos_right (by linarith) hunit
  · have hmid : X * unit = scale.middle b := by
      rw [hmiddle]
      congr 1
      linarith
    rcases even_or_odd b with heven | hodd
    · rw [if_neg (by rintro (h | ⟨-, h⟩); exacts [h.ne htie, by rw [even_iff.1 heven] at h; omega])]
      exact rounds_of_middle_of_even even_infinity heven hmid
    · rw [if_pos (.inr ⟨htie, odd_iff.1 hodd⟩)]
      exact rounds_of_middle_of_odd even_infinity hodd hmid
  · rw [if_neg (by rintro (h | ⟨h, -⟩); exacts [hdown.not_gt h, hdown.ne' h])]
    refine rounds_of_near even_infinity ?_ ?_
    · rw [hpoint, hstep]
      have : 0 < 2 ^ k * unit := mul_pos (by positivity) hunit
      have := mul_le_mul_of_nonneg_right hlow hunit.le
      linarith
    · rw [hmiddle]
      exact mul_lt_mul_of_pos_right (by linarith) hunit

/-- A point of the scale is rounded to itself, or to infinity. -/
theorem ofRat_point : ofRat (scale.point b) = min b infinity := by
  have hpos := scale.step_pos' b
  have hnonneg : 0 ≤ scale.point b := mul_nonneg (cast_nonneg _) unit_pos.le
  exact (rounds_ofRat hnonneg).unique
    (rounds_of_near even_infinity (by linarith) (scale.point_lt_middle b))

/-- **Rounding an integer by its leading bits.** What is below them decides, and where it is
half a unit the last of them. -/
theorem rounds_leading {q e rest : ℕ} (hq : 2 ^ 52 ≤ q ∧ q < 2 ^ 53) (hrest : rest < 2 ^ e)
    {up : Bool} (hup : up = true ↔ 2 ^ e < 2 * rest ∨ (2 * rest = 2 ^ e ∧ q % 2 = 1)) :
    scale.Rounds infinity (q * 2 ^ e + rest : ℕ) (ofRat ((q + up.toNat) * 2 ^ e : ℕ)) := by
  have hfits : Fits q (e + 1074) := ⟨hq.2, .inr hq.1⟩
  have hscale : (2 : ℚ) ^ (e + 1074) * unit = 2 ^ e := by
    rw [unit, pow_add, mul_assoc, mul_one_div_cancel (by positivity), mul_one]
  have hpoint : scale.point (q + (e + 1074) * 2 ^ 52) = q * 2 ^ e := by
    rw [point_place hfits, mul_assoc, hscale]
  have hstep : scale.step (q + (e + 1074) * 2 ^ 52) = 2 ^ e := by rw [step_place hfits, hscale]
  have hparity : Even (q + (e + 1074) * 2 ^ 52) ↔ q % 2 = 0 := by
    rw [even_add, even_iff, iff_true_right ((by decide : Even (2 ^ 52)).mul_left _)]
  generalize q + (e + 1074) * 2 ^ 52 = b at hpoint hstep hparity
  have hmiddle : scale.middle b = q * 2 ^ e + 2 ^ e / 2 := by
    rw [middle, hpoint, hstep]
  have hx : ((q * 2 ^ e + rest : ℕ) : ℚ) = q * 2 ^ e + rest := by push_cast; rfl
  have hrest' : (rest : ℚ) < 2 ^ e := by exact_mod_cast hrest
  cases up with
  | false =>
    have hdown := mt hup.mpr Bool.false_ne_true
    rw [not_or, not_lt] at hdown
    rw [Bool.toNat_false, add_zero, show ((q * 2 ^ e : ℕ) : ℚ) = scale.point b by
      rw [hpoint]; push_cast; rfl, ofRat_point]
    rcases hdown.1.lt_or_eq with hlt | heq
    · have hlt : (2 * rest : ℚ) < 2 ^ e := by exact_mod_cast hlt
      have hnonneg : (0 : ℚ) ≤ rest := cast_nonneg rest
      have := scale.step_pos' b
      exact rounds_of_near even_infinity (by rw [hpoint]; linarith) (by rw [hmiddle]; linarith)
    · have heq' : (2 * rest : ℚ) = 2 ^ e := by exact_mod_cast heq
      refine rounds_of_middle_of_even even_infinity (hparity.mpr ?_) (by rw [hmiddle]; linarith)
      have := fun h => hdown.2 ⟨heq, h⟩
      omega
  | true =>
    have hsucc : (((q + Bool.toNat true) * 2 ^ e : ℕ) : ℚ) = scale.point (b + 1) := by
      rw [point_succ, hpoint, hstep, Bool.toNat_true]
      push_cast
      ring
    rw [hsucc, ofRat_point]
    rcases hup.mp rfl with hgt | ⟨heq, hodd⟩
    · have hgt : (2 ^ e : ℚ) < 2 * rest := by exact_mod_cast hgt
      refine rounds_succ_of_near even_infinity (by rw [hmiddle]; linarith)
        (lt_trans ?_ (scale.point_lt_middle (b + 1)))
      rw [point_succ, hpoint, hstep]
      linarith
    · have heq' : (2 * rest : ℚ) = 2 ^ e := by exact_mod_cast heq
      refine rounds_of_middle_of_odd even_infinity ?_ (by rw [hmiddle]; linarith)
      rw [← not_even_iff_odd, hparity]
      omega

end Binary64
