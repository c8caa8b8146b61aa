import V8Speak.Strtod

/-!
# The approximation with 64 bits

Why the second of the three algorithms may be believed. A number is approximated by a `DiyFp`
with an error that is counted in eighths of the last place (`Approximates`). Reading the
leading digits makes an error of at most one half; a multiplication adds the errors of the
factors and one half for its own rounding; normalising scales the error with the
significand. What the code adds up is a strict bound of all this (`multiplyPowerOfTen_spec`),
and it is less than two hundred eighths.

Rounding the approximation to a double is right as long as the error does not reach the
middle between two doubles, and otherwise the result is the right one or the one below it
(`roundDiyFp_spec`). There is one exception: a double below the smallest one. There the code
returns zero, which would be wrong for a number that is at least half of the smallest double
but is approximated by less than that. No such number exists: it would have to begin with the
digits 247032822920623272, and the two candidates are approximated well enough
(`le_half_of_order_lt`).
-/

open Double hiding value
open List Nat DiyFp RoundingScale

namespace Strtod

/-! ## Digits -/

variable (digits : List (Fin 10))

theorem foldl_eq (n : ℕ) :
    digits.foldl (fun n d => 10 * n + d.val) n = n * 10 ^ digits.length + decimal digits := by
  induction digits generalizing n with
  | nil => rw [foldl_nil, decimal, foldl_nil, length_nil, pow_zero, mul_one, add_zero]
  | cons d digits ih =>
    rw [decimal, foldl_cons, foldl_cons, ih, ih (10 * 0 + d), length_cons, pow_succ]
    ring

theorem decimal_append (digits more : List (Fin 10)) :
    decimal (digits ++ more) = decimal digits * 10 ^ more.length + decimal more := by
  rw [decimal, foldl_append, foldl_eq]
  rfl

theorem decimal_cons (d : Fin 10) (digits : List (Fin 10)) :
    decimal (d :: digits) = d * 10 ^ digits.length + decimal digits := by
  rw [← singleton_append, decimal_append]
  congr 2
  rw [decimal, foldl_cons, foldl_nil]
  omega

theorem decimal_lt : decimal digits < 10 ^ digits.length := by
  induction digits with
  | nil => exact Nat.one_pos
  | cons d digits ih =>
    rw [decimal_cons, length_cons, pow_succ]
    have : d.val * 10 ^ digits.length ≤ 9 * 10 ^ digits.length :=
      Nat.mul_le_mul_right _ (by omega)
    omega

/-- The first digit that is not zero bounds the number from below. -/
theorem le_decimal {d : Fin 10} (h : d ≠ 0) : 10 ^ digits.length ≤ decimal (d :: digits) := by
  rw [decimal_cons]
  have hd : 1 ≤ d.val := one_le_iff_ne_zero.2 fun h0 => h (Fin.ext h0)
  have := Nat.mul_le_mul_right (10 ^ digits.length) hd
  omega

/-! ## Reading the leading digits -/

/-- The least number that another digit is not appended to, less one. -/
theorem kMaxUint64_div : kMaxUint64 / 10 - 1 = 1844674407370955160 := by decide

/-- **The digits that are read** are as many as are certain to fit. -/
theorem readUint64Loop_spec (buffer head : List (Fin 10)) (hhead : decimal head < 2 ^ 64 - 6) :
    ∃ more tail, buffer = more ++ tail ∧ readUint64Loop (decimal head) head.length buffer =
        (decimal (head ++ more), (head ++ more).length) ∧
      decimal (head ++ more) < 2 ^ 64 - 6 ∧
      (tail ≠ [] → 1844674407370955160 < decimal (head ++ more)) := by
  induction buffer generalizing head with
  | nil =>
    refine ⟨[], [], rfl, ?_, ?_, fun h => absurd rfl h⟩
    · rw [append_nil]
      rfl
    · rwa [append_nil]
  | cons d buffer ih =>
    rw [readUint64Loop, kMaxUint64_div]
    rcases Nat.lt_or_ge 1844674407370955160 (decimal head) with hlt | hge
    · rw [if_neg (by omega)]
      refine ⟨[], d :: buffer, rfl, ?_, ?_, fun _ => ?_⟩
      · rw [append_nil]
      · rwa [append_nil]
      · rwa [append_nil]
    · have hnext : decimal (head ++ [d]) = 10 * decimal head + d := by
        rw [decimal, foldl_append]
        rfl
      obtain ⟨more, tail, hbuffer, hread, hlt, htail⟩ := ih (head ++ [d]) (by omega)
      rw [if_pos hge, uint64_of_lt (by omega), ← hnext]
      rw [length_append, length_singleton] at hread
      refine ⟨d :: more, tail, by rw [hbuffer]; rfl, ?_⟩
      rw [append_assoc, singleton_append] at hread hlt htail
      exact ⟨hread, hlt, htail⟩

theorem readUint64_spec (buffer : List (Fin 10)) :
    ∃ head tail, buffer = head ++ tail ∧ readUint64 buffer = (decimal head, head.length) ∧
      decimal head < 2 ^ 64 - 6 ∧ (tail ≠ [] → 1844674407370955160 < decimal head) :=
  readUint64Loop_spec buffer [] (by decide)

/-- Rounding at a digit. -/
theorem round_digit {H P R d n : ℕ} (hR : R < P) (hd : d < 10)
    (hn : n = if d ≥ 5 then H + 1 else H) :
    2 * (H * (P * 10) + (d * P + R)) ≤ (2 * n + 1) * (P * 10) ∧
      2 * n * (P * 10) ≤ 2 * (H * (P * 10) + (d * P + R)) + P * 10 := by
  have hH : H * (P * 10) = 10 * (H * P) := by ring
  subst hn
  split
  case isTrue h =>
    have hlow := Nat.mul_le_mul_right P h
    have hhigh := Nat.mul_le_mul_right P (show d ≤ 9 by omega)
    rw [show (2 * (H + 1) + 1) * (P * 10) = 20 * (H * P) + 30 * P by ring,
      show 2 * (H + 1) * (P * 10) = 20 * (H * P) + 20 * P by ring]
    omega
  case isFalse h =>
    have hhigh := Nat.mul_le_mul_right P (show d ≤ 4 by omega)
    rw [show (2 * H + 1) * (P * 10) = 20 * (H * P) + 10 * P by ring,
      show 2 * H * (P * 10) = 20 * (H * P) by ring]
    omega

/-- **The leading digits as a number**, off by at most one half if there are more. -/
structure Read (buffer : List (Fin 10)) (n r : ℕ) : Prop where
  read : readDiyFp buffer = ((⟨n, 0⟩ : DiyFp), (r : ℤ))
  lt : n < 2 ^ 64
  lower : 2 * decimal buffer ≤ (2 * n + 1) * 10 ^ r
  upper : 2 * n * 10 ^ r ≤ 2 * decimal buffer + 10 ^ r
  exact : r = 0 → n = decimal buffer
  large : r ≠ 0 → 2 ^ 60 < n
  le_length : r ≤ buffer.length
  short : r ≠ 0 → 18 < buffer.length

theorem exists_read (buffer : List (Fin 10)) : ∃ n r, Read buffer n r := by
  obtain ⟨head, tail, rfl, hread, hlt, htail⟩ := readUint64_spec buffer
  cases tail with
  | nil =>
    rw [append_nil] at hread ⊢
    refine ⟨decimal head, 0, ?_, by omega, ?_, ?_, fun _ => rfl, fun h => absurd rfl h,
      Nat.zero_le _, fun h => absurd rfl h⟩
    · rw [readDiyFp, hread]
      dsimp only
      rw [drop_length]
      rfl
    · omega
    · omega
  | cons d rest =>
    have hlarge := htail (cons_ne_nil d rest)
    have hdecimal : decimal (head ++ d :: rest) =
        decimal head * 10 ^ (rest.length + 1) + (d * 10 ^ rest.length + decimal rest) := by
      rw [decimal_append, decimal_cons, length_cons]
    have hrest := decimal_lt rest
    have hlength : 18 < head.length := by
      by_contra hle
      have := (decimal_lt head).trans_le (Nat.pow_le_pow_right (by decide) (not_lt.1 hle))
      omega
    have hread' : readDiyFp (head ++ d :: rest) =
        (⟨if d ≥ 5 then decimal head + 1 else decimal head, 0⟩, ((rest.length + 1 : ℕ) : ℤ)) := by
      rw [readDiyFp, hread]
      dsimp only
      rw [drop_left, uint64_of_lt (by omega)]
      dsimp only
      rw [length_append, length_cons]
      congr 1
      push_cast
      ring
    have hbounds := round_digit (H := decimal head) hrest d.isLt rfl
    rw [← pow_succ, ← hdecimal] at hbounds
    refine ⟨if d ≥ 5 then decimal head + 1 else decimal head, rest.length + 1, hread', ?_,
      hbounds.1, hbounds.2, fun h => absurd h (succ_ne_zero _), fun _ => ?_, ?_, fun _ => ?_⟩
    · split <;> omega
    · split <;> omega
    · rw [length_append, length_cons]
      omega
    · rw [length_append]
      omega

/-! ## Approximations -/

/-- **An approximation**: the number is at most so many eighths of the last place away. -/
def Approximates (x : ℚ) (d : DiyFp) (error : ℕ) : Prop :=
  ∃ X : ℚ, x = X * 2 ^ d.e ∧ |X - d.f| ≤ error / 8

/-- An approximation that is nearer than that. -/
def ApproximatesBelow (x : ℚ) (d : DiyFp) (error : ℕ) : Prop :=
  ∃ X : ℚ, x = X * 2 ^ d.e ∧ |X - d.f| < error / 8

variable {x y : ℚ} {a c : DiyFp} {error length : ℕ}

/-- The rounding of the product is by at most one half. -/
theorem abs_product_sub_le (A C : ℕ) :
    |(A * C : ℚ) / 2 ^ 64 - ((A * C + 2 ^ 63) / 2 ^ 64 : ℕ)| ≤ 1 / 2 := by
  have hdiv := div_add_mod (A * C + 2 ^ 63) (2 ^ 64)
  have hmod := mod_lt (A * C + 2 ^ 63) (Nat.two_pow_pos 64)
  generalize (A * C + 2 ^ 63) / 2 ^ 64 = q at *
  generalize (A * C + 2 ^ 63) % 2 ^ 64 = r at *
  have hdiv' : (2 ^ 64 * q + r : ℚ) = A * C + 2 ^ 63 := by exact_mod_cast hdiv
  have hmod' : (r : ℚ) < 2 ^ 64 := by exact_mod_cast hmod
  have hr : (0 : ℚ) ≤ r := cast_nonneg r
  rw [show (A * C : ℚ) = 2 ^ 64 * q + r - 2 ^ 63 by linarith, abs_le]
  constructor <;> linarith

/-- **Multiplication.** Each error is weighted with the other factor. -/
theorem multiply_error {X Y : ℚ} {e ε : ℚ} (he : |X - a.f| ≤ e) (hε : |Y - c.f| ≤ ε)
    (ha : a.f < 2 ^ 64) (hc : c.f < 2 ^ 64) :
    |X * Y / 2 ^ 64 - (a.multiply c).f| ≤ (e * c.f + a.f * ε + e * ε) / 2 ^ 64 + 1 / 2 := by
  rw [multiply_f ha hc]
  have hround := abs_product_sub_le a.f c.f
  have hsplit : X * Y - a.f * c.f = (X - a.f) * c.f + a.f * (Y - c.f) + (X - a.f) * (Y - c.f) := by
    ring
  have hprod : |X * Y - a.f * c.f| ≤ e * c.f + a.f * ε + e * ε := by
    rw [hsplit]
    refine (abs_add_le _ _).trans (add_le_add ((abs_add_le _ _).trans (add_le_add ?_ ?_)) ?_)
    · rw [abs_mul, abs_cast]
      exact mul_le_mul_of_nonneg_right he (cast_nonneg _)
    · rw [abs_mul, abs_cast]
      exact mul_le_mul_of_nonneg_left hε (cast_nonneg _)
    · rw [abs_mul]
      exact mul_le_mul he hε (abs_nonneg _) ((abs_nonneg _).trans he)
  have hscaled : |X * Y / 2 ^ 64 - (a.f * c.f : ℚ) / 2 ^ 64| ≤
      (e * c.f + a.f * ε + e * ε) / 2 ^ 64 := by
    rw [← sub_div, abs_div, abs_of_pos (show (0 : ℚ) < 2 ^ 64 by norm_num)]
    exact div_le_div_of_nonneg_right hprod (by norm_num)
  refine (abs_sub_le _ ((a.f * c.f : ℚ) / 2 ^ 64) _).trans (add_le_add hscaled hround)

theorem multiply_value {X Y : ℚ} :
    X * 2 ^ a.e * (Y * 2 ^ c.e) = X * Y / 2 ^ 64 * 2 ^ (a.multiply c).e := by
  rw [multiply_e, zpow_add₀ (by norm_num), zpow_add₀ (by norm_num)]
  have : (2 : ℚ) ^ (64 : ℤ) = 2 ^ 64 := by norm_cast
  rw [this]
  field_simp

variable {X : ℚ}

/-- **Normalising** scales the error. -/
theorem normalize_value {j : ℕ} : X * 2 ^ a.e = X * 2 ^ j * 2 ^ (a.e - (j : ℤ)) := by
  rw [zpow_sub₀ (by norm_num), zpow_natCast]
  field_simp

/-- The powers of ten between two cached ones are exact. -/
theorem adjustmentPowerOfTen_spec {m : ℕ} (h0 : 0 < m) (h8 : m < 8) :
    ∃ t : ℕ, adjustmentPowerOfTen m = some ⟨10 ^ m * 2 ^ t, -t⟩ ∧
      2 ^ 63 ≤ 10 ^ m * 2 ^ t ∧ 10 ^ m * 2 ^ t < 2 ^ 64 := by
  interval_cases m
  exacts [⟨60, by decide⟩, ⟨57, by decide⟩, ⟨54, by decide⟩, ⟨50, by decide⟩, ⟨47, by decide⟩,
    ⟨44, by decide⟩, ⟨40, by decide⟩]

/-- The product of two normalised significands has its leading bit in one of two places. -/
theorem le_multiply_f {k l : ℕ} (ha : a.f < 2 ^ 64) (hc : c.f < 2 ^ 64) (hak : 2 ^ k ≤ a.f)
    (hcl : 2 ^ l ≤ c.f) (hkl : 64 ≤ k + l) : 2 ^ (k + l - 64) ≤ (a.multiply c).f := by
  rw [multiply_f ha hc, Nat.le_div_iff_mul_le (Nat.two_pow_pos _), ← pow_add,
    Nat.sub_add_cancel hkl, pow_add]
  exact (Nat.mul_le_mul hak hcl).trans (Nat.le_add_right _ _)

theorem multiply_f_lt (ha : a.f < 2 ^ 64) (hc : c.f < 2 ^ 64) : (a.multiply c).f < 2 ^ 64 := by
  rw [multiply_f ha hc, Nat.div_lt_iff_lt_mul (Nat.two_pow_pos _)]
  have := Nat.mul_le_mul (show a.f ≤ 2 ^ 64 - 1 by omega) (show c.f ≤ 2 ^ 64 - 1 by omega)
  omega

/-- **An exact product.** A short number times a power of ten that has at most 19 digits in
all loses nothing. -/
theorem multiply_exact {n j m t : ℕ} (hm : 0 < m) (hn : n * 10 ^ m < 2 ^ 64)
    (ha : a.f = n * 2 ^ j) (hlow : 2 ^ 63 ≤ a.f) (hhigh : a.f < 2 ^ 64)
    (hc : c.f = 10 ^ m * 2 ^ t) (hlow' : 2 ^ 63 ≤ c.f) (hhigh' : c.f < 2 ^ 64) :
    (a.f * c.f : ℚ) / 2 ^ 64 = (a.multiply c).f := by
  -- the product is even and has so many bits less than the factors as these were shifted
  have hshift : 63 ≤ j + t := by
    by_contra hlt
    have hprod : 2 ^ 126 ≤ n * 10 ^ m * 2 ^ (j + t) :=
      calc 2 ^ 126 = 2 ^ 63 * 2 ^ 63 := by norm_num
        _ ≤ a.f * c.f := Nat.mul_le_mul hlow hlow'
        _ = n * 10 ^ m * 2 ^ (j + t) := by rw [ha, hc, pow_add]; ring
    have hle : n * 10 ^ m * 2 ^ (j + t) ≤ n * 10 ^ m * 2 ^ 62 :=
      Nat.mul_le_mul_left _ (Nat.pow_le_pow_right (by decide) (by omega))
    omega
  obtain ⟨k, hk⟩ : 2 ^ 64 ∣ a.f * c.f := by
    obtain ⟨m, rfl⟩ := exists_eq_succ_of_ne_zero hm.ne'
    obtain ⟨i, hi⟩ := Nat.exists_eq_add_of_le hshift
    refine ⟨n * (10 ^ m * 5) * 2 ^ i, ?_⟩
    rw [ha, hc, pow_succ, show n * 2 ^ j * (10 ^ m * 10 * 2 ^ t) = n * (10 ^ m * 10) * 2 ^ (j + t) by
      rw [pow_add]; ring, hi, pow_add]
    ring
  rw [multiply_f hhigh hhigh', hk, mul_add_div (Nat.two_pow_pos _),
    div_eq_of_lt (by decide), add_zero, ← cast_mul, hk, cast_mul, cast_pow,
    cast_ofNat, mul_div_cancel_left₀ _ (by norm_num)]

/-- **The adjustment** multiplies by an exact power of ten. -/
theorem adjustPower_spec {n j m : ℕ} (found : ℤ) (hm : m < 8) (ha : a.f = n * 2 ^ j)
    (hlow : 2 ^ 63 ≤ a.f) (hhigh : a.f < 2 ^ 64) (hy : Approximates y a error)
    (hshort : length ≤ 18 → error = 0 ∧ n < 10 ^ length) :
    ∃ b error', adjustPower length a error (found + m) found = some (b, error') ∧
      2 ^ 62 ≤ b.f ∧ b.f < 2 ^ 64 ∧ error' ≤ error + 4 ∧ Approximates (y * 10 ^ m) b error' := by
  rcases Nat.eq_zero_or_pos m with rfl | hpos
  · refine ⟨a, error, ?_, by omega, hhigh, by omega, ?_⟩
    · rw [adjustPower, if_neg (by simp)]
    · rwa [pow_zero, mul_one]
  · obtain ⟨t, hadjust, hlow', hhigh'⟩ := adjustmentPowerOfTen_spec hpos hm
    obtain ⟨Y, rfl, hY⟩ := hy
    have hvalue := multiply_value (a := a) (c := ⟨10 ^ m * 2 ^ t, -t⟩) (X := Y)
      (Y := (10 ^ m * 2 ^ t : ℕ))
    have hpow : ((10 ^ m * 2 ^ t : ℕ) : ℚ) * 2 ^ (-(t : ℤ)) = 10 ^ m := by
      rw [zpow_neg, zpow_natCast]
      push_cast
      field_simp
    rw [hpow] at hvalue
    have hadjust' : adjustPower length a error (found + m) found =
        if (19 : ℤ) - length ≥ m then some (a.multiply ⟨10 ^ m * 2 ^ t, -t⟩, error)
        else some (a.multiply ⟨10 ^ m * 2 ^ t, -t⟩, error + 4) := by
      rw [adjustPower, if_pos (by omega), add_sub_cancel_left]
      dsimp only
      rw [hadjust]
      rfl
    have hlow'' := le_multiply_f (c := ⟨10 ^ m * 2 ^ t, -t⟩) hhigh hhigh' hlow hlow' (by decide)
    have hhigh'' := multiply_f_lt (c := ⟨10 ^ m * 2 ^ t, -t⟩) hhigh hhigh'
    by_cases hfit : (19 : ℤ) - length ≥ m
    · rw [if_pos hfit] at hadjust'
      obtain ⟨rfl, hn⟩ := hshort (by omega)
      refine ⟨_, _, hadjust', hlow'', hhigh'', by omega, _, hvalue, ?_⟩
      have hYa : Y = a.f := by
        rw [cast_zero, zero_div] at hY
        exact sub_eq_zero.1 (abs_eq_zero.1 (le_antisymm hY (abs_nonneg _)))
      have hn' : n * 10 ^ m < 2 ^ 64 :=
        calc n * 10 ^ m < 10 ^ length * 10 ^ m := Nat.mul_lt_mul_of_pos_right hn (by positivity)
          _ = 10 ^ (length + m) := (pow_add _ _ _).symm
          _ ≤ 10 ^ 19 := Nat.pow_le_pow_right (by decide) (by omega)
          _ < 2 ^ 64 := by decide
      have hexact := multiply_exact (c := ⟨10 ^ m * 2 ^ t, -t⟩) hpos hn' ha hlow hhigh rfl hlow' hhigh'
      rw [hYa, hexact, sub_self, abs_zero]
      positivity
    · rw [if_neg hfit] at hadjust'
      refine ⟨_, _, hadjust', hlow'', hhigh'', le_rfl, _, hvalue, ?_⟩
      have herr := multiply_error (c := ⟨10 ^ m * 2 ^ t, -t⟩) (ε := 0) hY (by
        rw [sub_self, abs_zero]) hhigh hhigh'
      refine herr.trans ?_
      have hc : (((10 ^ m * 2 ^ t : ℕ) : ℚ)) ≤ 2 ^ 64 := by exact_mod_cast hhigh'.le
      have hweight : (error / 8 * ((10 ^ m * 2 ^ t : ℕ) : ℚ)) / 2 ^ 64 ≤ error / 8 := by
        rw [div_le_iff₀ (by norm_num)]
        exact mul_le_mul_of_nonneg_left hc (by positivity)
      push_cast at hweight ⊢
      rw [mul_zero, mul_zero, add_zero, add_zero]
      linarith

/-- A significand that is already this large is shifted by few places. -/
theorem shift_le {f j k : ℕ} (hlow : 2 ^ k ≤ f) (hhigh : f * 2 ^ j < 2 ^ 64) : k + j < 64 := by
  refine (Nat.pow_lt_pow_iff_right (show 1 < 2 by decide)).1 ?_
  rw [pow_add]
  exact (Nat.mul_le_mul_right _ hlow).trans_lt hhigh

/-- **The cached power** is off by at most one half, which makes the bound strict. -/
theorem multiplyCachedPower_spec {found : ℤ} (hlow : 2 ^ 62 ≤ a.f) (hhigh : a.f < 2 ^ 64)
    (herror : error ≤ 36) (hx : Approximates x a error) (hlow' : 2 ^ 63 ≤ c.f)
    (hhigh' : c.f < 2 ^ 64) (hc : |(10 : ℚ) ^ found - c.f * 2 ^ c.e| ≤ 2 ^ c.e / 2) :
    ∃ b error', multiplyCachedPower a error c = (b, error') ∧
      2 ^ 63 ≤ b.f ∧ b.f < 2 ^ 64 ∧ error' ≤ 180 ∧ ApproximatesBelow (x * 10 ^ found) b error' := by
  obtain ⟨X, rfl, hX⟩ := hx
  -- the cached power in units of its last place
  obtain ⟨Y, hfound, hY⟩ : ∃ Y, (10 : ℚ) ^ found = Y * 2 ^ c.e ∧ |Y - c.f| ≤ 1 / 2 := by
    have hpos : (0 : ℚ) < 2 ^ c.e := by positivity
    refine ⟨10 ^ found / 2 ^ c.e, (div_mul_cancel₀ _ hpos.ne').symm, ?_⟩
    rw [show (10 : ℚ) ^ found / 2 ^ c.e - c.f = (10 ^ found - c.f * 2 ^ c.e) / 2 ^ c.e by
      rw [sub_div, mul_div_cancel_right₀ _ hpos.ne'], abs_div, abs_of_pos hpos, div_le_iff₀ hpos]
    linarith
  obtain ⟨total, htotal⟩ : ∃ total, total = error + (4 + (if error = 0 then 0 else 1) + 4) := ⟨_, rfl⟩
  have htotal_le : total ≤ 45 := by
    rw [htotal]
    split <;> omega
  -- the error of the product
  have hproduct : |X * Y / 2 ^ 64 - (a.multiply c).f| < (total : ℚ) / 8 := by
    refine (multiply_error hX hY hhigh hhigh').trans_lt ?_
    have haf : (a.f : ℚ) < 2 ^ 64 := by exact_mod_cast hhigh
    have hcf : (c.f : ℚ) ≤ 2 ^ 64 := by exact_mod_cast hhigh'.le
    have hweight : (error : ℚ) / 8 * c.f ≤ error / 8 * 2 ^ 64 :=
      mul_le_mul_of_nonneg_left hcf (by positivity)
    have herror' : (error : ℚ) ≤ 36 := by exact_mod_cast herror
    rw [htotal]
    rcases Nat.eq_zero_or_pos error with rfl | hpos
    · rw [if_pos rfl, div_add' _ _ _ (by norm_num), div_lt_iff₀ (by norm_num)]
      push_cast at hweight ⊢
      linarith
    · rw [if_neg hpos.ne', div_add' _ _ _ (by norm_num), div_lt_iff₀ (by norm_num)]
      push_cast at hweight ⊢
      linarith
  have hlow'' : 2 ^ 61 ≤ (a.multiply c).f := le_multiply_f hhigh hhigh' hlow hlow' (by decide)
  have hhigh'' := multiply_f_lt hhigh hhigh'
  obtain ⟨j, hnormalize, hjlow, hjhigh⟩ := normalize_spec (by omega) hhigh''
  have hj := shift_le hlow'' hjhigh
  have hvalue : X * 2 ^ a.e * 10 ^ found =
      X * Y / 2 ^ 64 * 2 ^ j * 2 ^ ((a.multiply c).e - (j : ℤ)) := by
    rw [hfound, multiply_value, normalize_value]
  refine ⟨(a.multiply c).normalize, total * 2 ^ j, ?_, ?_, ?_, ?_, X * Y / 2 ^ 64 * 2 ^ j, ?_, ?_⟩
  · rw [htotal]
    unfold multiplyCachedPower
    dsimp only
    rw [hnormalize]
    dsimp only
    rw [sub_sub_cancel, Int.toNat_natCast, shiftLeft_eq]
    rfl
  · rwa [hnormalize]
  · rwa [hnormalize]
  · have : total * 2 ^ j ≤ 45 * 2 ^ 2 :=
      Nat.mul_le_mul htotal_le (Nat.pow_le_pow_right (by decide) (by omega))
    omega
  · rw [hvalue, hnormalize]
  · rw [hnormalize]
    have hpos : (0 : ℚ) < 2 ^ j := by positivity
    push_cast
    rw [← sub_mul, abs_mul, abs_of_pos hpos, mul_div_right_comm (total : ℚ)]
    exact mul_lt_mul_of_pos_right hproduct hpos

variable {exponent : ℤ}

/-- **The number times the power of ten.** -/
theorem multiplyPowerOfTen_spec {n j : ℕ} (length : ℕ) (hexp : -348 ≤ exponent)
    (hexp' : exponent < 348) (ha : a.f = n * 2 ^ j) (hlow : 2 ^ 63 ≤ a.f) (hhigh : a.f < 2 ^ 64)
    (herror : error ≤ 32) (hy : Approximates y a error)
    (hshort : length ≤ 18 → error = 0 ∧ n < 10 ^ length) :
    ∃ b error', multiplyPowerOfTen length a error exponent = some (b, error') ∧
      2 ^ 63 ≤ b.f ∧ b.f < 2 ^ 64 ∧ error' ≤ 180 ∧
      ApproximatesBelow (y * 10 ^ exponent) b error' := by
  obtain ⟨power, found, hget, hle, hlt, hplow, hphigh, hpower⟩ :=
    PowersOfTenCache.getCachedPowerForDecimalExponent_spec hexp hexp'
  obtain ⟨m, rfl⟩ : ∃ m : ℕ, exponent = found + m := ⟨(exponent - found).toNat, by omega⟩
  obtain ⟨b, error₁, hadjust, hblow, hbhigh, herror₁, hb⟩ :=
    adjustPower_spec found (show m < 8 by omega) ha hlow hhigh hy hshort
  obtain ⟨d, error₂, hcached, hdlow, hdhigh, herror₂, hd⟩ :=
    multiplyCachedPower_spec hblow hbhigh (by omega) hb hplow hphigh hpower
  refine ⟨d, error₂, ?_, hdlow, hdhigh, herror₂, ?_⟩
  · rw [multiplyPowerOfTen, hget, Option.bind_some]
    rw [hadjust, Option.map_some, hcached]
  · rwa [add_comm found, zpow_add₀ (by norm_num), zpow_natCast, ← mul_assoc]

/-! ## Rounding the approximation -/

open Binary64 (scale infinity Fits unit rounds_zero)

/-- The bits of an approximation that a double does not have are compared with half of them,
in eighths. -/
def keep (input : DiyFp) (p error : ℕ) : Bool × ℕ :=
  let rest := input.f % 2 ^ p * 8
  let half := 2 ^ (p + 2)
  let result := diyFpToUint64
    ⟨if rest ≥ half + error then input.f / 2 ^ p + 1 else input.f / 2 ^ p, input.e + p⟩
  (!decide (half < rest + error ∧ rest < half + error), result)

/-- **The result is right, or it is right or the one below the right one.** -/
structure RoundsOrBelow (x : ℚ) (answer : Bool × ℕ) : Prop where
  le_infinity : answer.2 ≤ infinity
  right : answer.1 = true → scale.Rounds infinity x answer.2
  below : scale.Rounds infinity x answer.2 ∨ scale.Rounds infinity x (min (answer.2 + 1) infinity)

theorem min_succ_infinity (b : ℕ) : min (min b infinity + 1) infinity = min (b + 1) infinity := by
  omega

variable {E : ℤ}

/-- **Rounding to a place of the scale**, where the error is at most a quarter of the step. -/
theorem keep_spec {p k : ℕ} {F : ℕ} (hfits : Fits (F / 2 ^ p) k)
    (hE : E + p = (k : ℤ) - 1074) (herror : error ≤ 2 ^ (p + 1)) (hX : |X - F| < (error : ℚ) / 8) :
    RoundsOrBelow (X * 2 ^ E) (keep ⟨F, E⟩ p error) := by
  -- everything is measured in steps of the scale
  have hS : (0 : ℚ) < 2 ^ k * unit := mul_pos (by positivity) Binary64.unit_pos
  have hP : (0 : ℚ) < 2 ^ p := by positivity
  have hvalue : X * 2 ^ E = X / 2 ^ p * (2 ^ k * unit) := by
    rw [show E = (k : ℤ) + -1074 - p by omega, zpow_sub₀ (by norm_num), zpow_add₀ (by norm_num),
      zpow_natCast, zpow_natCast, Binary64.unit_eq_zpow]
    ring
  have hpoint := Binary64.point_place hfits
  have hstep := Binary64.step_place hfits
  have hresult := diyFpToUint64_place hfits
  have hresult' := diyFpToUint64_succ hfits
  have hdiv : ((2 ^ p : ℕ) * (F / 2 ^ p : ℕ) + (F % 2 ^ p : ℕ) : ℚ) = F := by
    exact_mod_cast div_add_mod F (2 ^ p)
  have hmod : ((F % 2 ^ p : ℕ) : ℚ) < 2 ^ p := by exact_mod_cast mod_lt F (Nat.two_pow_pos p)
  unfold keep
  dsimp only
  rw [hE]
  generalize F / 2 ^ p = q at *
  generalize F % 2 ^ p = r at *
  generalize q + k * 2 ^ 52 = b at *
  -- the number and the rest in steps
  obtain ⟨Xp, hXp⟩ : ∃ Xp, Xp = X / 2 ^ p := ⟨_, rfl⟩
  obtain ⟨R, hR⟩ : ∃ R : ℚ, R = r / 2 ^ p := ⟨_, rfl⟩
  obtain ⟨ε, hε⟩ : ∃ ε : ℚ, ε = error / 8 / 2 ^ p := ⟨_, rfl⟩
  rw [hvalue, ← hXp]
  have hnear : |Xp - (q + R)| < ε := by
    rw [hXp, hR, hε, show X / 2 ^ p - (q + r / 2 ^ p) = (X - F) / 2 ^ p by
      rw [← hdiv]; push_cast; field_simp, abs_div, abs_of_pos hP]
    exact div_lt_div_of_pos_right hX hP
  have hεle : ε ≤ 1 / 4 := by
    have : (error : ℚ) ≤ 2 ^ p * 2 := by exact_mod_cast (pow_succ 2 p ▸ herror)
    rw [hε, div_le_iff₀ hP]
    linarith
  have hR0 : 0 ≤ R := by rw [hR]; positivity
  have hR1 : R < 1 := by rw [hR, div_lt_one hP]; exact hmod
  have hge : r * 8 ≥ 2 ^ (p + 2) + error ↔ 1 / 2 + ε ≤ R := by
    rw [hε, hR, le_div_iff₀ hP, add_mul, div_mul_cancel₀ _ hP.ne', ge_iff_le, ← cast_le (α := ℚ)]
    push_cast
    rw [pow_add]
    constructor <;> intro h <;> linarith
  have hle : r * 8 + error ≤ 2 ^ (p + 2) ↔ R ≤ 1 / 2 - ε := by
    rw [hε, hR, div_le_iff₀ hP, sub_mul, div_mul_cancel₀ _ hP.ne', ← cast_le (α := ℚ)]
    push_cast
    rw [pow_add]
    constructor <;> intro h <;> linarith
  obtain ⟨hlow, hhigh⟩ := abs_lt.1 hnear
  have hmiddle : scale.middle b = (q + 1 / 2) * (2 ^ k * unit) := by
    rw [middle, hpoint, hstep]
    ring
  have hnext : scale.point (b + 1) = (q + 1) * (2 ^ k * unit) := by
    rw [point_succ, hpoint, hstep]
    ring
  by_cases hup : r * 8 ≥ 2 ^ (p + 2) + error
  · -- the number is above the middle
    have hup' := hge.1 hup
    have hrounds : scale.Rounds infinity (Xp * (2 ^ k * unit)) (min (b + 1) infinity) := by
      refine rounds_succ_of_near Binary64.even_infinity ?_ ?_
      · rw [hmiddle]
        exact mul_lt_mul_of_pos_right (by linarith) hS
      · have hmono : scale.step b ≤ scale.step (b + 1) := scale.monotone_step (le_succ b)
        rw [hstep] at hmono
        have : Xp * (2 ^ k * unit) < (q + 1 + 1 / 2) * (2 ^ k * unit) :=
          mul_lt_mul_of_pos_right (by linarith) hS
        rw [middle, hnext]
        linarith
    rw [if_pos hup, hresult']
    exact ⟨min_le_right _ _, fun _ => hrounds, .inl hrounds⟩
  · rw [if_neg hup, hresult]
    by_cases hdown : r * 8 + error ≤ 2 ^ (p + 2)
    · -- the number is below the middle
      have hdown' := hle.1 hdown
      have hrounds : scale.Rounds infinity (Xp * (2 ^ k * unit)) (min b infinity) := by
        refine rounds_of_near Binary64.even_infinity ?_ ?_
        · rw [hpoint, hstep]
          have : (q - 1 / 4) * (2 ^ k * unit) < Xp * (2 ^ k * unit) :=
            mul_lt_mul_of_pos_right (by linarith) hS
          linarith
        · rw [hmiddle]
          exact mul_lt_mul_of_pos_right (by linarith) hS
      exact ⟨min_le_right _ _, fun _ => hrounds, .inl hrounds⟩
    · refine ⟨min_le_right _ _, fun h => ?_, ?_⟩
      · rw [decide_eq_true ⟨by omega, by omega⟩] at h
        exact Bool.noConfusion h
      · rw [hle, not_le] at hdown
        rw [hge, not_le] at hup
        rw [min_succ_infinity]
        refine rounds_or_rounds_succ Binary64.even_infinity ?_ ?_
        · rw [hpoint, mul_assoc]
          exact mul_lt_mul_of_pos_right (by linarith) hS
        · rw [hnext]
          exact mul_lt_mul_of_pos_right (by linarith) hS

variable {input : DiyFp}

/-- The comparison of words is the comparison of numbers. -/
theorem compareHalfWay_eq_keep {p : ℕ} (hp : 1 ≤ p) (hp' : p ≤ 60)
    (hf : input.f < 2 ^ 64) (herror : error ≤ 2 ^ (p + 1)) :
    compareHalfWay input error p = keep input p error := by
  have hpow : 2 ^ p * 4 ≤ 2 ^ 62 := by
    rw [show 4 = 2 ^ 2 by rfl, ← pow_add]
    exact Nat.pow_le_pow_right (by decide) (by omega)
  have hone : uint64 (1 <<< p) - 1 = 2 ^ p - 1 := by
    rw [one_shiftLeft, uint64_of_lt (by omega)]
  have hhalf : uint64 (uint64 (1 <<< (p - 1)) * 8) = 2 ^ (p + 2) := by
    rw [one_shiftLeft, uint64_of_lt (Nat.pow_lt_pow_right (by decide) (by omega)),
      show 2 ^ (p - 1) * 8 = 2 ^ (p + 2) by
        rw [show 8 = 2 ^ 3 by rfl, ← pow_add]; congr 1; omega,
      uint64_of_lt (Nat.pow_lt_pow_right (by decide) (by omega))]
  have hdiv : input.f / 2 ^ p + 1 < 2 ^ 64 := by
    have : input.f / 2 ^ p ≤ input.f / 2 := div_le_div_left (by
      calc 2 = 2 ^ 1 := rfl
        _ ≤ 2 ^ p := Nat.pow_le_pow_right (by decide) hp) (by decide)
    omega
  rw [pow_succ] at herror
  have hquad : 2 ^ (p + 2) = 2 ^ p * 4 := pow_add 2 p 2
  unfold compareHalfWay keep
  dsimp only
  rw [show kDenominator = 8 from rfl, hone, and_two_pow_sub_one_eq_mod, hhalf,
    uint64_of_lt (show input.f % 2 ^ p * 8 < 2 ^ 64 by omega),
    uint64_of_lt (show 2 ^ (p + 2) + error < 2 ^ 64 by omega), uint64_of_lt (show
      input.f >>> p + 1 < 2 ^ 64 by rw [shiftRight_eq_div_pow]; exact hdiv),
    shiftRight_eq_div_pow,
    show uint64 (2 ^ (p + 2) + 2 ^ 64 - error) = 2 ^ (p + 2) - error by
      rw [uint64]; omega]
  by_cases hmiddle : 2 ^ (p + 2) < input.f % 2 ^ p * 8 + error ∧
      input.f % 2 ^ p * 8 < 2 ^ (p + 2) + error
  · rw [if_pos ⟨by omega, hmiddle.2⟩, decide_eq_true hmiddle]
    congr 2
    split <;> rfl
  · rw [if_neg (by omega), decide_eq_false hmiddle]
    congr 2
    split <;> rfl

/-- What is shifted out is covered by the larger error. -/
theorem abs_shift_lt {f : ℕ} (n : ℕ) (hX : |X - f| < (error : ℚ) / 8) :
    |X / 2 ^ n - (f >>> n : ℕ)| < (((error >>> n) + 1 + 8 : ℕ) : ℚ) / 8 := by
  rw [shiftRight_eq_div_pow, shiftRight_eq_div_pow]
  have hpos : (0 : ℚ) < 2 ^ n := by positivity
  have hquotient (m : ℕ) : ((m / 2 ^ n : ℕ) : ℚ) ≤ m / 2 ^ n ∧
      (m : ℚ) / 2 ^ n < (m / 2 ^ n : ℕ) + 1 := by
    rw [le_div_iff₀ hpos, div_lt_iff₀ hpos]
    exact ⟨by exact_mod_cast div_mul_le_self m (2 ^ n),
      by exact_mod_cast lt_mul_of_div_lt (lt_succ_self _) (Nat.two_pow_pos n)⟩
  have hscaled : |X / 2 ^ n - f / 2 ^ n| < (error : ℚ) / 2 ^ n / 8 := by
    rw [← sub_div, abs_div, abs_of_pos hpos, div_right_comm]
    exact div_lt_div_of_pos_right hX hpos
  obtain ⟨hlow, hhigh⟩ := abs_lt.1 hscaled
  obtain ⟨hf, hf'⟩ := hquotient f
  obtain ⟨herror, herror'⟩ := hquotient error
  push_cast
  rw [abs_lt]
  constructor <;> linarith

/-- **Rounding the approximation.** -/
theorem roundDiyFp_spec (hlow : 2 ^ 63 ≤ input.f) (hhigh : input.f < 2 ^ 64)
    (herror : error ≤ 180) (hx : ApproximatesBelow x input error)
    (hsmall : 64 + input.e < -1074 → x ≤ unit / 2) :
    RoundsOrBelow x (roundDiyFp input error) := by
  obtain ⟨f, e⟩ := input
  obtain ⟨X, rfl, hX⟩ := hx
  dsimp only at *
  have hsize : significandSizeForOrderOfMagnitude (64 + e) =
      if 64 + e ≥ -1021 then 53 else if 64 + e ≤ -1074 then 0 else 64 + e - -1074 := rfl
  unfold roundDiyFp
  dsimp only
  rw [show (kDenominatorLog : ℤ) = 3 from rfl, show kDenominator = 8 from rfl]
  rcases le_or_gt (-1085) e with hnormal | hdenormal
  · -- a normal number
    rw [if_pos (by omega)] at hsize
    rw [hsize, if_neg (by decide), show ((64 : ℤ) - 53).toNat = 11 by decide,
      compareHalfWay_eq_keep (by decide) (by decide) hhigh (by omega)]
    refine keep_spec (k := (e + 1085).toNat) ⟨?_, .inr ?_⟩ (by omega) (by omega) hX
    · omega
    · omega
  · rw [if_neg (by omega)] at hsize
    rcases lt_or_ge (-1135) e with hbits | hfew
    · -- a denormal number of more than three bits
      obtain ⟨p, hp⟩ : ∃ p : ℕ, e = -1074 - p := ⟨(-1074 - e).toNat, by omega⟩
      have hpow : 2 ^ 12 ≤ 2 ^ p := Nat.pow_le_pow_right (by decide) (by omega)
      rw [if_neg (by omega)] at hsize
      rw [hsize, if_neg (by omega), show (64 - (64 + e - -1074)).toNat = p by omega,
        compareHalfWay_eq_keep (by omega) (by omega) hhigh (by rw [pow_succ]; omega)]
      refine keep_spec ⟨?_, .inl rfl⟩ (by omega) (by rw [pow_succ]; omega) hX
      exact (div_le_div_left hpow (by decide)).trans_lt (by omega)
    · -- the half way does not fit otherwise
      obtain ⟨n, hn, hsize'⟩ : ∃ n : ℕ, 1 ≤ n ∧ n ≤ 4 ∧ (64 + e < -1074 ∨ e + n = -1134) ∧
          significandSizeForOrderOfMagnitude (64 + e) = 4 - n := by
        rcases le_or_gt (64 + e) (-1074) with h | h
        · rw [if_pos h] at hsize
          exact ⟨4, by decide, le_rfl, by omega, hsize⟩
        · rw [if_neg (by omega)] at hsize
          exact ⟨(-e - 1134).toNat, by omega, by omega, by omega, by omega⟩
      obtain ⟨hn', hcases, hsize'⟩ := hsize'
      have herror' : (error >>> n) + 1 + 8 ≤ 2 ^ (60 + 1) := by
        rw [shiftRight_eq_div_pow]
        have := Nat.div_le_self error (2 ^ n)
        omega
      have hF : f >>> n < 2 ^ 64 := by
        rw [shiftRight_eq_div_pow]
        exact (Nat.div_le_self _ _).trans_lt hhigh
      rw [hsize', if_pos (by omega), show (64 - (4 - (n : ℤ)) + 3 - 64 + 1).toNat = n by omega,
        show (64 - (4 - (n : ℤ)) - n).toNat = 60 by omega,
        compareHalfWay_eq_keep (by decide) le_rfl hF herror']
      rcases hcases with htiny | hdenorm
      · have hzero (q : ℕ) (hq : q < 2 ^ 53) : diyFpToUint64 ⟨q, e + n + (60 : ℕ)⟩ = 0 := by
          rw [diyFpToUint64, cutSignificand_of_le hq]
          dsimp only
          rw [if_neg (by rw [kMaxExponent_eq]; omega), if_pos (by rw [kDenormalExponent_eq]; omega)]
        have hresult : (keep ⟨f >>> n, e + n⟩ 60 ((error >>> n) + 1 + 8)).2 = 0 := by
          unfold keep
          dsimp only
          refine hzero _ ?_
          split <;> omega
        have hrounds := rounds_zero (hsmall htiny)
        refine ⟨?_, fun _ => ?_, .inl ?_⟩
        · rw [hresult]
          exact Nat.zero_le _
        · rwa [hresult]
        · rwa [hresult]
      · have hvalue : X * 2 ^ e = X / 2 ^ n * 2 ^ (e + n) := by
          rw [zpow_add₀ (by norm_num), zpow_natCast]
          field_simp
        rw [hvalue]
        refine keep_spec ⟨by omega, .inl rfl⟩ ?_ herror' (abs_shift_lt n hX)
        omega

/-! ## Half of the smallest double -/

variable {b : DiyFp} {error' : ℕ}

/-- The significand and the exponent of the product do not depend on the errors. -/
theorem multiplyPowerOfTen_tiny (h : multiplyPowerOfTen length a error (-342) = some (b, error')) :
    b = ((a.multiply ⟨0xF424000000000000, -44⟩).multiply ⟨0xFA8FD5A0081C0288, -1220⟩).normalize := by
  rw [multiplyPowerOfTen, show PowersOfTenCache.getCachedPowerForDecimalExponent (-342) =
    some (⟨0xFA8FD5A0081C0288, -1220⟩, -348) by decide, Option.bind_some, adjustPower,
    if_pos (by decide)] at h
  dsimp only at h
  rw [show adjustmentPowerOfTen (-342 - -348) = some ⟨0xF424000000000000, -44⟩ by decide,
    Option.bind_some] at h
  obtain ⟨adjusted, hadjusted, hb⟩ := Option.map_eq_some_iff.1 h
  have hfst : adjusted.1 = a.multiply ⟨0xF424000000000000, -44⟩ := by
    split at hadjusted <;> rw [← Option.some.inj hadjusted]
  rw [← hfst]
  exact (congrArg Prod.fst hb).symm

/-- The numbers next to half of the smallest double are approximated by at least that. -/
theorem multiplyPowerOfTen_next {error' n : ℕ}
    (hn : 2470328229206232721 ≤ n ∧ n ≤ 2470328229206232724)
    (h : multiplyPowerOfTen length (DiyFp.normalize ⟨n, 0⟩) error (-342) = some (b, error')) :
    b.e = -1138 := by
  rw [multiplyPowerOfTen_tiny h]
  obtain ⟨i, rfl⟩ := Nat.exists_eq_add_of_le hn.1
  have hi : i < 4 := by omega
  interval_cases i <;> decide +kernel

/-- Half of the smallest double, in units of `10 ^ (-342)`. -/
theorem half_unit_bounds : (2470328229206232720 + 8 / 10 : ℚ) * 2 ^ 1075 < 10 ^ 342 ∧
    (10 : ℚ) ^ 342 * (2 ^ 64 + 23) < 2470328229206232724 * 2 ^ 1139 := by
  have hlow : 24703282292062327208 * 2 ^ 1075 < 10 * 10 ^ 342 := by decide +kernel
  have hhigh : 10 ^ 342 * (2 ^ 64 + 23) < 2470328229206232724 * 2 ^ 1139 := by decide +kernel
  have hlow' : (24703282292062327208 : ℚ) * 2 ^ 1075 < 10 * 10 ^ 342 := by exact_mod_cast hlow
  refine ⟨?_, by exact_mod_cast hhigh⟩
  generalize (2 : ℚ) ^ 1075 = A at *
  generalize (10 : ℚ) ^ 342 = B at *
  linarith

/-- The leading digits of a number that is near half of the smallest double. -/
theorem digits_of_near {n : ℕ} (hn : n < 2 ^ 64) (hy : |y - n| ≤ 1 / 2)
    (hexact : y = n ∨ 2 ^ 60 < n) (hlow : 2470328229206232720 + 8 / 10 < y * 10 ^ (E + 342))
    (hhigh : y * 10 ^ (E + 342) < 2470328229206232724) :
    E = -342 ∧ 2470328229206232721 ≤ n ∧ n ≤ 2470328229206232724 := by
  obtain ⟨hylow, hyhigh⟩ := abs_le.1 hy
  have hn' : (n : ℚ) < 2 ^ 64 := by exact_mod_cast hn
  rcases lt_or_ge (E + 342) 0 with hneg | hpos
  · exfalso
    have hpow : (10 : ℚ) ^ (E + 342) ≤ 10 ^ (-1 : ℤ) := zpow_le_zpow_right₀ (by norm_num) (by omega)
    have hnonneg : 0 ≤ y := by
      by_contra hneg
      have := mul_nonpos_of_nonpos_of_nonneg (not_le.1 hneg).le
        (show (0 : ℚ) ≤ 10 ^ (E + 342) by positivity)
      linarith
    have := mul_le_mul_of_nonneg_left hpow hnonneg
    rw [zpow_neg_one] at this
    linarith
  · obtain ⟨m, hm⟩ := Int.eq_ofNat_of_zero_le hpos
    rw [hm, zpow_natCast] at hlow hhigh
    have hm0 : m = 0 := by
      by_contra hne
      obtain ⟨l, rfl⟩ := exists_eq_add_one_of_ne_zero hne
      rcases hexact with rfl | hlarge
      · have hlow' : 2470328229206232720 < n * 10 ^ (l + 1) := by
          have : (2470328229206232720 : ℚ) < ((n * 10 ^ (l + 1) : ℕ) : ℚ) := by
            push_cast
            linarith
          exact_mod_cast this
        have hhigh' : n * 10 ^ (l + 1) < 2470328229206232724 := by exact_mod_cast hhigh
        rw [pow_succ, ← mul_assoc] at hlow' hhigh'
        omega
      · have hlarge' : (2 ^ 60 : ℚ) < n := by exact_mod_cast hlarge
        have hpow : (10 : ℚ) ≤ 10 ^ (l + 1) := by
          rw [pow_succ]
          exact le_mul_of_one_le_left (by norm_num) (one_le_pow₀ (by norm_num))
        have := mul_le_mul_of_nonneg_left hpow (show 0 ≤ y by linarith)
        linarith
    rw [hm0, pow_zero, mul_one] at hlow hhigh
    have hnlow : 2470328229206232720 < n := by
      have : (2470328229206232720 : ℚ) < n := by linarith
      exact_mod_cast this
    have hnhigh : n < 2470328229206232725 := by
      have : (n : ℚ) < 2470328229206232725 := by linarith
      exact_mod_cast this
    omega

/-- **Below the smallest double.** An approximation that is less than half of the smallest
double does not approximate more than that. -/
theorem le_half_of_order_lt {n : ℕ} (hn : n < 2 ^ 64)
    (hy : |y - n| ≤ 1 / 2) (hexact : y = n ∨ 2 ^ 60 < n)
    (hprod : multiplyPowerOfTen length (DiyFp.normalize ⟨n, 0⟩) error E = some (b, error'))
    (hbf : b.f < 2 ^ 64) (herror : error' ≤ 180) (hx : ApproximatesBelow (y * 10 ^ E) b error')
    (horder : 64 + b.e < -1074) : y * 10 ^ E ≤ unit / 2 := by
  by_contra hgt
  rw [not_le, unit] at hgt
  obtain ⟨hbound, hbound'⟩ := half_unit_bounds
  have hscale : y * 10 ^ (E + 342) = y * 10 ^ E * 10 ^ 342 := by
    rw [zpow_add₀ (by norm_num), ← mul_assoc]
    rfl
  have hhalf : 1 < y * 10 ^ E * 2 ^ 1075 := by
    have h2 : (2 : ℚ) ^ 1075 = 2 ^ 1074 * 2 := pow_succ 2 1074
    have hpos : (0 : ℚ) < 2 ^ 1074 := by positivity
    rw [h2]
    generalize (2 : ℚ) ^ 1074 = A at *
    rw [div_div, div_lt_iff₀ (by positivity)] at hgt
    exact hgt
  have hupper : y * 10 ^ E * 2 ^ 1139 < 2 ^ 64 + 23 := by
    obtain ⟨X, hvalue, hX⟩ := hx
    have hbf' : (b.f : ℚ) ≤ 2 ^ 64 := by exact_mod_cast hbf.le
    have herror'' : (error' : ℚ) ≤ 180 := by exact_mod_cast herror
    have hX' : X < 2 ^ 64 + 23 := by
      have := (abs_lt.1 hX).2
      linarith
    have hpow : (2 : ℚ) ^ b.e * 2 ^ 1139 ≤ 1 := by
      rw [← zpow_natCast, ← zpow_add₀ (by norm_num)]
      exact zpow_le_one_of_nonpos₀ (by norm_num) (by push_cast; omega)
    have hpos : 0 < (2 : ℚ) ^ b.e * 2 ^ 1139 := by positivity
    rw [hvalue, mul_assoc]
    generalize (2 : ℚ) ^ b.e * 2 ^ 1139 = c at *
    calc X * c < (2 ^ 64 + 23) * c := mul_lt_mul_of_pos_right hX' hpos
      _ ≤ (2 ^ 64 + 23) * 1 := mul_le_mul_of_nonneg_left hpow (by norm_num)
      _ = 2 ^ 64 + 23 := mul_one _
  have hlow : 2470328229206232720 + 8 / 10 < y * 10 ^ (E + 342) := by
    rw [hscale]
    refine lt_of_mul_lt_mul_right (hbound.trans ?_) (by positivity)
    have hpos : (0 : ℚ) < 10 ^ 342 := by positivity
    generalize (10 : ℚ) ^ 342 = B at *
    generalize (2 : ℚ) ^ 1075 = A at *
    have := mul_lt_mul_of_pos_right hhalf hpos
    linarith
  have hhigh : y * 10 ^ (E + 342) < 2470328229206232724 := by
    rw [hscale]
    refine lt_of_mul_lt_mul_right (lt_trans ?_ hbound') (by positivity)
    have hpos : (0 : ℚ) < 10 ^ 342 := by positivity
    generalize (10 : ℚ) ^ 342 = B at *
    generalize (2 : ℚ) ^ 1139 = A at *
    have := mul_lt_mul_of_pos_right hupper hpos
    linarith
  obtain ⟨rfl, hdigits⟩ := digits_of_near hn hy hexact hlow hhigh
  have := multiplyPowerOfTen_next hdigits hprod
  omega

/-! ## The algorithm -/

/-- The number that a decimal denotes. -/
def value (buffer : List (Fin 10)) (exponent : ℤ) : ℚ := decimal buffer * 10 ^ exponent

/-- **The second algorithm.** If it is sure of its result, the result is right, and otherwise
it is right or the one below the right one. -/
theorem diyFpStrtod_spec {buffer : List (Fin 10)} (hpos : 0 < decimal buffer)
    (hexp : exponent + buffer.length < 348) :
    ∃ answer, diyFpStrtod buffer exponent = some answer ∧
      RoundsOrBelow (value buffer exponent) answer := by
  obtain ⟨n, r, hread⟩ := exists_read buffer
  have hr := hread.le_length
  -- the number with the decimal point after the digits that were read
  have hten : (0 : ℚ) < 10 ^ r := by positivity
  obtain ⟨y, hy⟩ : ∃ y : ℚ, y = decimal buffer / 10 ^ r := ⟨_, rfl⟩
  have hvalue : value buffer exponent = y * 10 ^ (exponent + r) := by
    rw [value, hy, zpow_add₀ (by norm_num), zpow_natCast]
    field_simp
  have hyn : |y - n| ≤ 1 / 2 := by
    have hlow : (2 * decimal buffer : ℚ) ≤ (2 * n + 1) * 10 ^ r := by exact_mod_cast hread.lower
    have hhigh : (2 * n * 10 ^ r : ℚ) ≤ 2 * decimal buffer + 10 ^ r := by exact_mod_cast hread.upper
    rw [hy, div_sub' hten.ne', abs_div, abs_of_pos hten, div_le_iff₀ hten, abs_le]
    constructor <;> linarith
  have hyexact : r = 0 → y = n := by
    rintro rfl
    rw [hy, pow_zero, div_one, hread.exact rfl]
  have hn0 : 0 < n := by
    rcases Nat.eq_zero_or_pos r with hr0 | hrpos
    · rw [hread.exact hr0]
      exact hpos
    · exact (Nat.two_pow_pos 60).trans (hread.large hrpos.ne')
  obtain ⟨j, hnormalize, hlow, hhigh⟩ := normalize_spec (x := ⟨n, 0⟩) hn0 hread.lt
  dsimp only at hnormalize hlow hhigh
  rw [zero_sub] at hnormalize
  obtain ⟨error, herror⟩ : ∃ error, error = (if (r : ℤ) = 0 then 0 else 4) * 2 ^ j := ⟨_, rfl⟩
  have herror_le : error ≤ 32 := by
    rw [herror]
    split
    · omega
    · next h =>
      have hj := shift_le (hread.large (by omega)).le hhigh
      have : 2 ^ j ≤ 2 ^ 3 := Nat.pow_le_pow_right (by decide) (by omega)
      omega
  have hstrtod : diyFpStrtod buffer exponent = if exponent + r < -348 then some (true, 0)
      else (multiplyPowerOfTen buffer.length (DiyFp.normalize ⟨n, 0⟩) error (exponent + r)).map
        fun product => roundDiyFp product.1 product.2 := by
    unfold diyFpStrtod
    rw [hread.read]
    dsimp only
    rw [hnormalize]
    dsimp only
    rw [zero_sub, neg_neg, Int.toNat_natCast, shiftLeft_eq, herror]
    rfl
  rcases lt_or_ge (exponent + r) (-348) with htiny | hlarge
  · refine ⟨(true, 0), by rw [hstrtod, if_pos htiny], ?_⟩
    have hrounds : scale.Rounds infinity (value buffer exponent) 0 := by
      refine rounds_zero ?_
      have hpow : (10 : ℚ) ^ (exponent + r) ≤ 10 ^ (-349 : ℤ) :=
        zpow_le_zpow_right₀ (by norm_num) (by omega)
      have hn' : (n : ℚ) + 1 ≤ 2 ^ 64 := by exact_mod_cast hread.lt
      have hy' : y ≤ 2 ^ 64 := by
        have := (abs_le.1 hyn).2
        linarith
      have hsmall : (2 ^ 64 * 2 ^ 1075 : ℚ) ≤ 10 ^ 349 := by
        have : 2 ^ 64 * 2 ^ 1075 ≤ 10 ^ 349 := by decide +kernel
        exact_mod_cast this
      rw [hvalue, unit, div_div, ← pow_succ, le_div_iff₀ (by positivity)]
      calc y * 10 ^ (exponent + r) * 2 ^ (1074 + 1) ≤
        2 ^ 64 * 10 ^ (-349 : ℤ) * 2 ^ (1074 + 1) := by
            refine mul_le_mul_of_nonneg_right (mul_le_mul hy' hpow ?_ ?_) ?_ <;> positivity
        _ = 2 ^ 64 * 2 ^ 1075 / 10 ^ 349 := by
            rw [zpow_neg, show (10 : ℚ) ^ (349 : ℤ) = 10 ^ 349 from rfl]
            ring
        _ ≤ 1 := (div_le_one (by positivity)).2 hsmall
    exact ⟨Nat.zero_le _, fun _ => hrounds, .inl hrounds⟩
  · have happrox : Approximates y (DiyFp.normalize ⟨n, 0⟩) error := by
      rw [hnormalize]
      refine ⟨y * 2 ^ j, ?_, ?_⟩
      · dsimp only
        rw [zpow_neg, zpow_natCast]
        field_simp
      · have htwo : (0 : ℚ) < 2 ^ j := by positivity
        push_cast
        rw [← sub_mul, abs_mul, abs_of_pos htwo, herror]
        rcases Nat.eq_zero_or_pos r with hr0 | hrpos
        · rw [hyexact hr0, sub_self, abs_zero, zero_mul]
          positivity
        · rw [if_neg (by omega)]
          have := mul_le_mul_of_nonneg_right hyn htwo.le
          push_cast
          linarith
    obtain ⟨b, error', hprod, hblow, hbhigh, herror', hb⟩ := multiplyPowerOfTen_spec
      buffer.length hlarge (by omega) (by rw [hnormalize])
      (by rwa [hnormalize]) (by rwa [hnormalize]) herror_le happrox (fun hshort => by
        have hr0 : r = 0 := by
          by_contra hne
          exact absurd (hread.short hne) (by omega)
        refine ⟨by rw [herror, if_pos (by omega), zero_mul], ?_⟩
        rw [hread.exact hr0]
        exact decimal_lt buffer)
    refine ⟨roundDiyFp b error', by rw [hstrtod, if_neg (by omega), hprod]; rfl, ?_⟩
    rw [hvalue]
    refine roundDiyFp_spec hblow hbhigh herror' hb fun horder => ?_
    refine le_half_of_order_lt hread.lt hyn ?_ hprod hbhigh herror' hb horder
    rcases Nat.eq_zero_or_pos r with hr0 | hrpos
    · exact .inl (hyexact hr0)
    · exact .inr (hread.large hrpos.ne')

end Strtod
