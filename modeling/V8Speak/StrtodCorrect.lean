import V8Speak.StrtodDiyFp

/-!
# Decimal numbers are rounded correctly

The conversion of `Strtod` yields the double nearest to the decimal number, the one with the
even significand if there are two, and infinity from `2 ^ 1024 - 2 ^ 970` on.

The first of the three algorithms is right because the doubles that it computes with are
exact (`doubleStrtod_spec`), the second one is the subject of `StrtodDiyFp`, and the third one
decides between its result and the next double by comparing with the middle between them
(`bignumStrtod_spec`). What is dropped of a number with more than 780 digits does not matter:
the middle between two doubles has fewer digits than that, so none of them lies between two
numbers that agree in so many (`rounds_of_truncated`).
-/

open Double List

namespace Strtod

open Binary64

variable {x : ℚ} {buffer : List (Fin 10)} {exponent : ℤ}

/-! ## Exact doubles -/

/-- A number with at most 53 significant bits is a double. -/
theorem exists_point {q : ℕ} (hq : q < 2 ^ 53) (k : ℕ) : ∃ b, scale.point b = q * 2 ^ k * unit := by
  induction k generalizing q with
  | zero => exact ⟨q + 0 * 2 ^ 52, point_place ⟨hq, .inl rfl⟩⟩
  | succ k ih =>
    rcases Nat.lt_or_ge q (2 ^ 52) with hsmall | hlarge
    · obtain ⟨b, hb⟩ := ih (q := q * 2) (by omega)
      refine ⟨b, hb.trans ?_⟩
      push_cast
      ring
    · exact ⟨q + (k + 1) * 2 ^ 52, point_place ⟨hq, .inr hlarge⟩⟩

theorem point_infinity : scale.point infinity = 2 ^ 1024 := by
  have h := point_place (k := 2046) ⟨by decide, .inr le_rfl⟩
  rw [show infinity = 2 ^ 52 + 2046 * 2 ^ 52 by decide, h, unit]
  have hpow : (2 : ℚ) ^ 2046 = 2 ^ 1074 * 2 ^ 972 := by rw [← pow_add]
  rw [hpow]
  push_cast
  field_simp
  norm_num

theorem rounds_point {b : ℕ} (hb : b < infinity) : scale.Rounds infinity (scale.point b) b := by
  have h := RoundingScale.rounds_of_near even_infinity
    (sub_lt_self (scale.point b) (div_pos (scale.step_pos' b) (by norm_num)))
    (scale.point_lt_middle b)
  rwa [min_eq_left hb.le] at h

/-- **Exact results.** A number with at most 53 significant bits is not changed by rounding. -/
theorem value_ofRat {q k : ℕ} (hq : q < 2 ^ 53) (hx : x = q * 2 ^ k * unit) (hlt : x < 2 ^ 1024) :
    Double.value (Binary64.ofRat x) = x := by
  obtain ⟨b, hb⟩ := exists_point hq k
  rw [← hx] at hb
  have hlt' : b < infinity := by
    refine scale.strictMono_point.lt_iff_lt.1 ?_
    calc scale.point b = x := hb
      _ < 2 ^ 1024 := hlt
      _ = scale.point infinity := point_infinity.symm
  have hnonneg : 0 ≤ x := by
    rw [hx]
    exact mul_nonneg (mul_nonneg (Nat.cast_nonneg q) (pow_nonneg (by norm_num) k)) unit_pos.le
  have hrounds := rounds_point hlt'
  rw [hb] at hrounds
  rw [(rounds_ofRat hnonneg).unique hrounds]
  exact hb

/-- Integers of at most 53 bits are doubles. -/
theorem value_ofUint64 {n : ℕ} (hn : n < 2 ^ 53) : Double.value (ofUint64 n) = n := by
  have hlt : (n : ℚ) < 2 ^ 53 := by exact_mod_cast hn
  refine value_ofRat (k := 1074) hn ?_ (hlt.trans (pow_lt_pow_right₀ (by norm_num) (by norm_num)))
  rw [unit]
  field_simp

/-- The powers of the table are doubles. -/
theorem value_exactPowersOfTen {n : ℕ} (hn : n < 23) :
    Double.value (exactPowersOfTen n) = 10 ^ n := by
  have h5 : 5 ^ n < 2 ^ 53 :=
    (Nat.pow_le_pow_right (by decide) (show n ≤ 22 by omega)).trans_lt (by decide)
  refine value_ofRat (k := n + 1074) h5 ?_ ?_
  · rw [unit, pow_add, show (10 : ℚ) = 5 * 2 by norm_num, mul_pow]
    push_cast
    field_simp
  · calc (10 : ℚ) ^ n ≤ 10 ^ 22 := pow_le_pow_right₀ (by norm_num) (by omega)
      _ < 2 ^ 74 := by norm_num
      _ < 2 ^ 1024 := pow_lt_pow_right₀ (by norm_num) (by norm_num)

variable {guess : ℕ}

/-- **The first algorithm.** -/
theorem doubleStrtod_spec {wide : Bool} (h : doubleStrtod wide buffer exponent = some guess) :
    scale.Rounds infinity (value buffer exponent) guess := by
  unfold doubleStrtod at h
  split at h
  · exact nomatch h
  split at h
  case isFalse => exact nomatch h
  case isTrue hlength =>
  -- all digits are read, and the number is a double
  have hdecimal : decimal buffer < 10 ^ 15 :=
    (decimal_lt buffer).trans_le (Nat.pow_le_pow_right (by decide) hlength)
  have hread : (readUint64 buffer).1 = decimal buffer := by
    obtain ⟨head, tail, rfl, hread, -, htail⟩ := readUint64_spec buffer
    have hnil : tail = [] := by
      by_contra hne
      have hlt := htail hne
      have hle := decimal_append head tail
      have := Nat.le_mul_of_pos_right (decimal head) (show 0 < 10 ^ tail.length by positivity)
      omega
    rw [hread, hnil, append_nil]
  have hvalue := value_ofUint64 (n := decimal buffer) (by omega)
  have hsize : kExactPowersOfTenSize = 23 := rfl
  have hmax : kMaxExactDoubleIntegerDecimalDigits = 15 := rfl
  dsimp only at h
  rw [hread] at h
  split at h
  · next hneg =>
    obtain ⟨n, hn⟩ := Int.eq_ofNat_of_zero_le (show 0 ≤ -exponent by omega)
    rw [← Option.some.inj h, hn, Int.toNat_natCast, div, hvalue,
      value_exactPowersOfTen (by omega), value, show exponent = -n by omega, zpow_neg, zpow_natCast,
      ← div_eq_mul_inv]
    exact rounds_ofRat (by positivity)
  split at h
  · next hsmall =>
    obtain ⟨n, rfl⟩ := Int.eq_ofNat_of_zero_le hsmall.1
    rw [← Option.some.inj h, Int.toNat_natCast, mul, hvalue,
      value_exactPowersOfTen (by omega), value, zpow_natCast]
    exact rounds_ofRat (by positivity)
  split at h
  · next hlarge hshort =>
    obtain ⟨m, hm⟩ := Nat.exists_eq_add_of_le hlength
    obtain ⟨n, hn⟩ := Int.eq_ofNat_of_zero_le
      (show 0 ≤ exponent - (kMaxExactDoubleIntegerDecimalDigits - buffer.length) by omega)
    rw [← Option.some.inj h, hn, Int.toNat_natCast,
      show ((kMaxExactDoubleIntegerDecimalDigits : ℤ) - buffer.length).toNat = m by omega]
    -- the number of at most 15 digits that the short one is made
    have hlong : decimal buffer * 10 ^ m < 10 ^ 15 := by
      rw [← hmax, hm, pow_add]
      exact Nat.mul_lt_mul_of_pos_right (decimal_lt buffer) (by positivity)
    have hfirst : Double.value (mul (ofUint64 (decimal buffer)) (exactPowersOfTen m)) =
        decimal buffer * 10 ^ m := by
      have := value_ofUint64 (n := decimal buffer * 10 ^ m) (by omega)
      rw [ofUint64] at this
      push_cast at this
      rw [mul, hvalue, value_exactPowersOfTen (by omega), this]
    rw [mul, hfirst, value_exactPowersOfTen (by omega), value,
      show exponent = (m : ℤ) + n by omega, zpow_add₀ (by norm_num), zpow_natCast, zpow_natCast,
      ← mul_assoc]
    exact rounds_ofRat (by positivity)
  · exact nomatch h

/-! ## The comparison with the middle -/

section Bignum

open Bignum

theorem readUInt64_eq {digits : List (Fin 10)} (h : digits.length ≤ 19) :
    readUInt64 digits = decimal digits := by
  induction digits using List.reverseRecOn with
  | nil => rfl
  | append_singleton digits digit ih =>
    rw [length_append, length_singleton] at h
    have hlt : decimal digits < 10 ^ 18 :=
      (decimal_lt digits).trans_le (Nat.pow_le_pow_right (by norm_num) (by omega))
    rw [readUInt64, foldl_append, ← readUInt64, ih (by omega), decimal_append, length_singleton,
      pow_one, foldl_cons, foldl_nil, uint64_of_lt (n := decimal digits * 10) (by omega),
      uint64_of_lt (by omega), decimal_cons, length_nil, pow_zero, mul_one]
    rfl

theorem appendDigits_of {m : ℕ} {digits : List (Fin 10)} (h : digits.length ≤ 19)
    (hroom : m * 10 ^ digits.length + decimal digits < 10 ^ 780) :
    (of m 0).appendDigits digits = some (of (m * 10 ^ digits.length + decimal digits) 0) := by
  have hmax : 10 ^ 780 < (2 ^ 28) ^ 127 := by decide +kernel
  have hdecimal : decimal digits < 2 ^ 64 :=
    (decimal_lt digits).trans_le ((Nat.pow_le_pow_right (by norm_num) h).trans (by norm_num))
  have hproduct : (of m 0).multiplyByPowerOfTen digits.length =
      some (of (m * 10 ^ digits.length) 0) := by
    rcases m.eq_zero_or_pos with rfl | hm
    · rw [multiplyByPowerOfTen, Nat.zero_mul, of, Nat.digits_zero, if_pos List.length_nil, ite_self]
    · have hfive : 5 ^ digits.length * m ≤ m * 10 ^ digits.length := by
        rw [Nat.mul_comm]
        exact Nat.mul_le_mul_left m (Nat.pow_le_pow_left (by norm_num) _)
      rw [multiplyByPowerOfTen_of hm 0 digits.length (by omega), Nat.mod_eq_of_lt (by omega),
        Nat.div_eq_of_lt (by omega), ← mul_assoc, ← mul_pow, Nat.mul_comm]
      rfl
  rw [appendDigits, hproduct, Option.bind_some, readUInt64_eq h,
    addUInt64_of hdecimal (hroom.trans hmax)]

theorem assignDigits_of {m : ℕ} {digits : List (Fin 10)}
    (hroom : m * 10 ^ digits.length + decimal digits < 10 ^ 780) :
    (of m 0).assignDigits digits = some (of (m * 10 ^ digits.length + decimal digits) 0) := by
  induction hn : digits.length using Nat.strong_induction_on generalizing m digits with
  | _ n ih =>
    subst hn
    rw [assignDigits]
    split_ifs with hlong
    · rw [show Bignum.kMaxUint64DecimalDigits = 19 from rfl] at hlong ⊢
      have htake : (digits.take 19).length = 19 := by
        rw [length_take]
        omega
      -- the number so far, followed by the digits that are left
      have hsplit : m * 10 ^ digits.length + decimal digits =
          (m * 10 ^ 19 + decimal (digits.take 19)) * 10 ^ (digits.drop 19).length +
            decimal (digits.drop 19) := by
        conv_lhs => rw [← take_append_drop 19 digits, decimal_append, length_append, htake]
        ring
      rw [hsplit] at hroom
      have hfirst : m * 10 ^ 19 + decimal (digits.take 19) < 10 ^ 780 :=
        (Nat.le_mul_of_pos_right _ (by positivity)).trans_lt ((Nat.le_add_right ..).trans_lt hroom)
      have happend := appendDigits_of (m := m) htake.le (by rwa [htake])
      rw [htake] at happend
      rw [happend, Option.bind_some, ih _ (by rw [length_drop]; omega) hroom rfl, hsplit]
    · have hshort : digits.length ≤ 19 := (not_le.1 hlong).le
      rw [appendDigits_of hshort hroom, Option.map_some]
      dsimp only [of]
      rw [clamp_eq_of fun bigit => Nat.digits_lt_base (by norm_num), Nat.ofDigits_digits]
      rfl

/-- The decimal digits are assigned as they are. -/
theorem assignDecimalString_eq (h : buffer.length ≤ 780) :
    assignDecimalString buffer = some (of (decimal buffer) 0) := by
  have hdecimal := (decimal_lt buffer).trans_le (Nat.pow_le_pow_right (by norm_num) h)
  have hassign := @assignDigits_of 0 buffer (by rwa [Nat.zero_mul, Nat.zero_add])
  rw [Nat.zero_mul, Nat.zero_add] at hassign
  rw [← hassign, of, Nat.digits_zero]
  rfl

/-- A decimal number that is neither very large nor very small, with at most 780 digits. -/
structure InRange (buffer : List (Fin 10)) (exponent : ℤ) : Prop where
  pos : 0 < decimal buffer
  length_le : buffer.length ≤ 780
  order_le : exponent + buffer.length ≤ 309
  lt_order : -324 < exponent + buffer.length

/-- **There is room** for the decimal number times its power of ten. -/
theorem InRange.exists_input (h : InRange buffer exponent) :
    ∃ input, (if exponent ≥ 0 then (of (decimal buffer) 0).multiplyByPowerOfTen exponent.toNat
        else some (of (decimal buffer) 0)) = some input ∧
      input.Represents (10 ^ exponent.toNat * decimal buffer) 127 := by
  have hlength := h.length_le
  have horder := h.order_le
  have hroom : 5 ^ exponent.toNat * decimal buffer < (2 ^ 28) ^ 126 := by
    calc 5 ^ exponent.toNat * decimal buffer
        < 10 ^ exponent.toNat * 10 ^ buffer.length :=
          Nat.mul_lt_mul_of_le_of_lt (Nat.pow_le_pow_left (by norm_num) _) (decimal_lt buffer)
            (by positivity)
      _ = 10 ^ (exponent.toNat + buffer.length) := (pow_add ..).symm
      _ ≤ 10 ^ 780 := Nat.pow_le_pow_right (by norm_num) (by omega)
      _ ≤ (2 ^ 28) ^ 126 := by decide +kernel
  split_ifs with hneg
  · exact exists_multiplyByPowerOfTen h.pos hroom
  · rw [show exponent.toNat = 0 by omega, pow_zero, one_mul] at hroom ⊢
    exact ⟨_, rfl, (represents_of h.pos hroom).mono (by norm_num)⟩

/-- **There is room** for the middle times the power of ten of a negative exponent. -/
theorem InRange.exists_boundary (h : InRange buffer exponent) {f : ℕ} (hpos : 0 < f)
    (hf : f < 2 ^ 64) :
    ∃ boundary, (if exponent ≥ 0 then some (of f 0)
        else (of f 0).multiplyByPowerOfTen (-exponent).toNat) = some boundary ∧
      boundary.Represents (10 ^ (-exponent).toNat * f) 127 := by
  have hlength := h.length_le
  have horder := h.lt_order
  have hroom : 5 ^ (-exponent).toNat * f < (2 ^ 28) ^ 126 := by
    calc 5 ^ (-exponent).toNat * f
        < 5 ^ (-exponent).toNat * 2 ^ 64 := Nat.mul_lt_mul_of_pos_left hf (by positivity)
      _ ≤ 5 ^ 1103 * 2 ^ 64 :=
        Nat.mul_le_mul_right _ (Nat.pow_le_pow_right (by norm_num) (by omega))
      _ ≤ (2 ^ 28) ^ 126 := by decide +kernel
  split_ifs with hnonneg
  · rw [show (-exponent).toNat = 0 by omega, pow_zero, one_mul] at hroom ⊢
    exact ⟨_, rfl, (represents_of hpos hroom).mono (by norm_num)⟩
  · exact exists_multiplyByPowerOfTen hpos hroom

/-- One of the two numbers is shifted, by a distance that is not negative. -/
theorem exists_shifted {c : Prop} [Decidable c] {x : Bignum} {n s : ℕ} (h : x.Represents n 127)
    (hc : ¬c → s = 0) :
    ∃ y, (if c then x.shiftLeft s else some x) = some y ∧ y.Represents (2 ^ s * n) 128 := by
  split_ifs with hshift
  · exact h.exists_shiftLeft s
  · rw [hc hshift, pow_zero, one_mul]
    exact ⟨x, rfl, h.mono (by norm_num)⟩

end Bignum

/-- The numbers that are compared, as multiples of the decimal number and of the middle. -/
theorem bignumStrtod_eq {f k : ℕ} (hrange : InRange buffer exponent) (hfits : Fits f k)
    (hlt : f + k * 2 ^ 52 < infinity) :
    ∃ input boundary : ℕ, ∃ scaling, 0 < scaling ∧ (input : ℚ) = value buffer exponent * scaling ∧
      (boundary : ℚ) = scale.middle (f + k * 2 ^ 52) * scaling ∧
      bignumStrtod buffer exponent (f + k * 2 ^ 52) = some (match compare input boundary with
        | .lt => f + k * 2 ^ 52
        | .gt => f + k * 2 ^ 52 + 1
        | .eq => if f % 2 = 0 then f + k * 2 ^ 52 else f + k * 2 ^ 52 + 1) := by
  have hk : k ≤ 2046 := by
    dsimp only [infinity] at hlt
    omega
  have hmiddle : scale.middle (f + k * 2 ^ 52) = (2 * f + 1) * 2 ^ ((k : ℤ) - 1074 - 1) := by
    rw [middle_place hfits, sub_sub, zpow_sub₀ (by norm_num), zpow_natCast, unit,
      show (2 : ℚ) ^ ((1074 : ℤ) + 1) = 2 ^ 1074 * 2 by rw [zpow_add₀ (by norm_num)]; rfl]
    field_simp
  have hbound : upperBoundary (f + k * 2 ^ 52) = ⟨f * 2 + 1, (k : ℤ) - 1074 - 1⟩ := by
    rw [upperBoundary, significand_place hfits hk, exponent_place hfits hk]
  have hf := hfits.1
  generalize hb : f + k * 2 ^ 52 = b at *
  generalize (k : ℤ) - 1074 - 1 = e at *
  obtain ⟨input, hinput, hin⟩ := hrange.exists_input
  obtain ⟨boundary, hboundary, hbo⟩ :=
    hrange.exists_boundary (f := f * 2 + 1) (Nat.succ_pos _) (by omega)
  obtain ⟨shifted, hshifted, hsh⟩ := exists_shifted (c := ¬e > 0) (s := (-e).toNat) hin (by omega)
  rw [ite_not] at hshifted
  obtain ⟨raised, hraised, hra⟩ := exists_shifted (c := e > 0) (s := e.toNat) hbo (by omega)
  refine ⟨2 ^ (-e).toNat * (10 ^ exponent.toNat * decimal buffer),
    2 ^ e.toNat * (10 ^ (-exponent).toNat * (f * 2 + 1)),
    10 ^ (-exponent).toNat * 2 ^ (-e).toNat, by positivity, ?_, ?_, ?_⟩
  · rw [value, CachedPower.zpow_eq_div]
    push_cast
    field_simp
  · rw [hmiddle, CachedPower.zpow_eq_div]
    push_cast
    field_simp
  · have hsignificand : significand b &&& 1 = 0 ↔ f % 2 = 0 := by
      rw [← hb, significand_place hfits hk, Nat.and_one_is_mod]
    unfold bignumStrtod
    rw [if_neg (show b ≠ kInfinity from hlt.ne), hbound, nextDouble_of_lt hlt]
    dsimp only
    rw [assignDecimalString_eq hrange.length_le, Option.bind_some,
      Bignum.assignUInt64_eq (by omega), Option.bind_some, hinput, Option.bind_some, hboundary,
      Option.bind_some, hraised, Option.bind_some, hshifted, Option.map_some, hsh.compare hra]
    cases compare (2 ^ (-e).toNat * (10 ^ exponent.toNat * decimal buffer))
      (2 ^ e.toNat * (10 ^ (-exponent).toNat * (f * 2 + 1))) with
    | lt => rfl
    | gt => rfl
    | eq => exact congrArg some (if_congr hsignificand rfl rfl)

/-- **The third algorithm** decides between its guess and the next double. -/
theorem bignumStrtod_spec (hrange : InRange buffer exponent) (hle : guess ≤ infinity)
    (hguess : scale.Rounds infinity (value buffer exponent) guess ∨
      scale.Rounds infinity (value buffer exponent) (min (guess + 1) infinity)) :
    ∃ result, bignumStrtod buffer exponent guess = some result ∧
      scale.Rounds infinity (value buffer exponent) result := by
  rcases hle.lt_or_eq with hlt | rfl
  · obtain ⟨f, k, rfl, hfits⟩ := exists_place guess
    obtain ⟨input, boundary, scaling, hpos, hinput, hboundary, heq⟩ :=
      bignumStrtod_eq hrange hfits hlt
    rw [min_eq_left (by omega)] at hguess
    have heven : Even (f + k * 2 ^ 52) ↔ f % 2 = 0 := by
      rw [Nat.even_iff]
      omega
    -- the comparison of the integers is that of the numbers
    have hcmp (h : (input : ℚ) < boundary) : value buffer exponent <
        scale.middle (f + k * 2 ^ 52) := by
      rw [hinput, hboundary] at h
      exact lt_of_mul_lt_mul_right h hpos.le
    have hcmp' (h : (boundary : ℚ) < input) : scale.middle (f + k * 2 ^ 52) <
        value buffer exponent := by
      rw [hinput, hboundary] at h
      exact lt_of_mul_lt_mul_right h hpos.le
    refine ⟨_, heq, ?_⟩
    rcases lt_trichotomy input boundary with hless | hsame | hmore
    · rw [compare_lt_iff_lt.2 hless]
      refine hguess.resolve_right fun h => ?_
      exact absurd (h.lower _ rfl).1 (not_le.2 (hcmp (by exact_mod_cast hless)))
    · rw [compare_eq_iff_eq.2 hsame]
      have hmid : value buffer exponent = scale.middle (f + k * 2 ^ 52) := by
        rw [hsame, hboundary] at hinput
        exact (mul_right_cancel₀ hpos.ne' hinput).symm
      by_cases hf : f % 2 = 0
      · rw [if_pos hf]
        refine hguess.resolve_right fun h => ?_
        exact absurd ((h.lower _ rfl).2 hmid) (Nat.not_even_iff_odd.2 (heven.2 hf).add_one)
      · rw [if_neg hf]
        exact hguess.resolve_left fun h => hf (heven.1 ((h.upper hlt).2 hmid))
    · rw [compare_gt_iff_gt.2 hmore]
      refine hguess.resolve_left fun h => ?_
      exact absurd (h.upper hlt).1 (not_le.2 (hcmp' (by exact_mod_cast hmore)))
  · rw [min_eq_right (by omega)] at hguess
    exact ⟨_, if_pos (show infinity = kInfinity from rfl), hguess.elim id id⟩

/-! ## Many digits -/

/-- **A middle between two doubles has less than 779 digits.** So it is not strictly between
two neighbours that have so many. -/
theorem middle_not_between {c m : ℕ} {j : ℤ} (hc : c < infinity) (hm : 10 ^ 778 ≤ m) :
    scale.middle c ≤ m * 10 ^ j ∨ (m + 1) * 10 ^ j ≤ scale.middle c := by
  by_contra hbetween
  rw [not_or, not_le, not_le] at hbetween
  obtain ⟨hlow, hhigh⟩ := hbetween
  have hm' : (10 : ℚ) ^ 778 ≤ m := by exact_mod_cast hm
  have hlow' : (10 : ℚ) ^ 778 * 10 ^ j < scale.middle c :=
    (mul_le_mul_of_nonneg_right hm' (by positivity)).trans_lt hlow
  -- the decimal point is within the digits
  have hneg : j < 0 := by
    by_contra hnonneg
    have hone : (1 : ℚ) ≤ 10 ^ j := one_le_zpow₀ (by norm_num) (not_lt.1 hnonneg)
    have hlt : scale.middle c < 2 ^ 1024 := by
      rw [← point_infinity]
      exact (scale.middle_lt_point c).trans_le (scale.strictMono_point.monotone hc)
    have hpow : (2 : ℚ) ^ 1024 ≤ 10 ^ 778 := by
      have : 2 ^ 1024 ≤ 10 ^ 778 := by decide +kernel
      exact_mod_cast this
    have := mul_le_mul_of_nonneg_left hone (show (0 : ℚ) ≤ 10 ^ 778 by positivity)
    rw [mul_one] at this
    exact absurd (hlow'.trans hlt) (not_lt.2 (hpow.trans this))
  obtain ⟨s, rfl⟩ : ∃ s : ℕ, j = -s := ⟨(-j).toNat, by omega⟩
  obtain ⟨f, k, rfl, hfits⟩ := exists_place c
  have hmiddle : scale.middle (f + k * 2 ^ 52) * 2 ^ 1075 = (2 * f + 1) * 2 ^ k := by
    rw [middle_place hfits, unit, pow_succ]
    field_simp
  have hten : (0 : ℚ) < 10 ^ s := by positivity
  rw [zpow_neg, zpow_natCast, ← div_eq_mul_inv] at hlow hhigh hlow'
  rw [div_lt_iff₀ hten] at hlow hlow'
  rw [lt_div_iff₀ hten] at hhigh
  rcases Nat.lt_or_ge (k + s) 1075 with hfew | hmany
  · -- the middle is too small
    have hf : (2 * f + 1 : ℚ) < 2 ^ 54 := by
      have := hfits.1
      exact_mod_cast (by omega)
    have hbound : (2 : ℚ) ^ 54 * 2 ^ k * 10 ^ s ≤ 10 ^ 778 * 2 ^ 1075 := by
      have hfive : 2 ^ 54 * 5 ^ 1075 ≤ 10 ^ 778 := by decide +kernel
      have : 2 ^ 54 * 2 ^ k * 10 ^ s ≤ 10 ^ 778 * 2 ^ 1075 :=
        calc 2 ^ 54 * 2 ^ k * 10 ^ s = 2 ^ 54 * 5 ^ s * 2 ^ (k + s) := by
              rw [show 10 = 5 * 2 by rfl, mul_pow, pow_add]
              ring
          _ ≤ 2 ^ 54 * 5 ^ 1075 * 2 ^ 1075 := by
              refine Nat.mul_le_mul (Nat.mul_le_mul_left _ ?_) ?_
              · exact Nat.pow_le_pow_right (by decide) (by omega)
              · exact Nat.pow_le_pow_right (by decide) hfew.le
          _ ≤ 10 ^ 778 * 2 ^ 1075 := Nat.mul_le_mul_right _ hfive
      exact_mod_cast this
    have hcontra : (10 : ℚ) ^ 778 * 2 ^ 1075 < 10 ^ 778 * 2 ^ 1075 :=
      calc (10 : ℚ) ^ 778 * 2 ^ 1075 < scale.middle (f + k * 2 ^ 52) * 10 ^ s * 2 ^ 1075 :=
            mul_lt_mul_of_pos_right hlow' (by positivity)
        _ = (2 * f + 1) * 2 ^ k * 10 ^ s := by rw [← hmiddle]; ring
        _ ≤ 2 ^ 54 * 2 ^ k * 10 ^ s := by
            refine mul_le_mul_of_nonneg_right (mul_le_mul_of_nonneg_right hf.le ?_) ?_ <;> positivity
        _ ≤ 10 ^ 778 * 2 ^ 1075 := hbound
    exact lt_irrefl _ hcontra
  · -- the middle is an integer in units of the last digit
    obtain ⟨i, hi⟩ := Nat.exists_eq_add_of_le hmany
    have hinteger : scale.middle (f + k * 2 ^ 52) * 10 ^ s = ((2 * f + 1) * 5 ^ s * 2 ^ i : ℕ) := by
      refine mul_right_cancel₀ (show (2 : ℚ) ^ 1075 ≠ 0 by positivity) ?_
      rw [mul_right_comm, hmiddle]
      push_cast
      rw [show (10 : ℚ) = 5 * 2 by norm_num, mul_pow]
      have : (2 : ℚ) ^ k * 2 ^ s = 2 ^ i * 2 ^ 1075 := by rw [← pow_add, hi, pow_add, mul_comm]
      linear_combination (2 * (f : ℚ) + 1) * 5 ^ s * this
    rw [hinteger] at hlow hhigh
    have hlow'' : m < (2 * f + 1) * 5 ^ s * 2 ^ i := by exact_mod_cast hlow
    have hhigh'' : (2 * f + 1) * 5 ^ s * 2 ^ i < m + 1 := by exact_mod_cast hhigh
    omega

/-- **Truncation.** Numbers that agree in 779 digits and are not at the end of the interval of
such numbers are rounded alike. -/
theorem rounds_of_truncated {y : ℚ} {b m : ℕ} {j : ℤ} (hm : 10 ^ 778 ≤ m)
    (hx : m * 10 ^ j < x ∧ x < (m + 1) * 10 ^ j) (hy : m * 10 ^ j < y ∧ y < (m + 1) * 10 ^ j)
    (h : scale.Rounds infinity y b) : scale.Rounds infinity x b := by
  refine RoundingScale.Rounds.congr (fun c hc => ?_) (fun c hc => ?_) h
  · rcases middle_not_between hc hm with hle | hge
    · exact iff_of_true (hle.trans_lt hy.1) (hle.trans_lt hx.1)
    · exact iff_of_false (not_lt.2 (hy.2.le.trans hge)) (not_lt.2 (hx.2.le.trans hge))
  · rcases middle_not_between hc hm with hle | hge
    · exact iff_of_false (not_lt.2 (hle.trans hy.1.le)) (not_lt.2 (hle.trans hx.1.le))
    · exact iff_of_true (hy.2.trans_le hge) (hx.2.trans_le hge)

/-! ## Trimming -/

theorem decimal_replicate_append (z : ℕ) (digits : List (Fin 10)) :
    decimal (List.replicate z 0 ++ digits) = decimal digits := by
  induction z with
  | zero => rfl
  | succ z ih =>
    rw [replicate_succ, cons_append, decimal_cons, ih, Fin.val_zero, Nat.zero_mul, Nat.zero_add]

theorem exists_trimLeadingZeros (buffer : List (Fin 10)) :
    ∃ z, buffer = List.replicate z 0 ++ trimLeadingZeros buffer ∧
      ∀ d ∈ (trimLeadingZeros buffer).head?, d ≠ 0 := by
  induction buffer with
  | nil => exact ⟨0, rfl, fun d hd => nomatch hd⟩
  | cons d buffer ih =>
    obtain ⟨z, hz, hhead⟩ := ih
    rw [trimLeadingZeros]
    by_cases hd : d ≠ 0
    · rw [if_pos hd]
      refine ⟨0, rfl, fun e he => ?_⟩
      rw [head?_cons, Option.mem_some_iff] at he
      exact he ▸ hd
    · rw [if_neg hd]
      refine ⟨z + 1, ?_, hhead⟩
      rw [replicate_succ, cons_append, ← hz, not_not.1 hd]

/-- What is left of the digits begins and ends with a digit other than zero. -/
structure Trimmed (digits : List (Fin 10)) : Prop where
  head : ∀ d ∈ digits.head?, d ≠ 0
  last : ∀ d ∈ digits.getLast?, d ≠ 0

/-- **Trimming** at both ends. -/
theorem exists_trimmed (buffer : List (Fin 10)) : ∃ z,
    (trimLeadingZeros buffer).length = (trimTrailingZeros (trimLeadingZeros buffer)).length + z ∧
    (∀ exponent, value buffer exponent =
      value (trimTrailingZeros (trimLeadingZeros buffer)) (exponent + z)) ∧
    Trimmed (trimTrailingZeros (trimLeadingZeros buffer)) := by
  obtain ⟨y, hy, hhead⟩ := exists_trimLeadingZeros buffer
  obtain ⟨z, hz, hlast⟩ := exists_trimLeadingZeros (trimLeadingZeros buffer).reverse
  have hsplit : trimLeadingZeros buffer =
      trimTrailingZeros (trimLeadingZeros buffer) ++ List.replicate z 0 := by
    rw [trimTrailingZeros, ← reverse_replicate, ← reverse_append, ← hz, reverse_reverse]
  refine ⟨z, ?_, ?_, ?_, ?_⟩
  · conv_lhs => rw [hsplit, length_append, length_replicate]
  · intro exponent
    have hzeros := decimal_replicate_append z []
    rw [append_nil] at hzeros
    have hdecimal : decimal buffer =
        decimal (trimTrailingZeros (trimLeadingZeros buffer)) * 10 ^ z := by
      conv_lhs => rw [hy, decimal_replicate_append, hsplit, decimal_append, length_replicate]
      rw [hzeros]
      rfl
    rw [value, hdecimal, value, zpow_add₀ (by norm_num), zpow_natCast]
    push_cast
    ring
  · intro d hd
    refine hhead d ?_
    rw [hsplit]
    cases htrim : trimTrailingZeros (trimLeadingZeros buffer) with
    | nil => rw [htrim] at hd; simp at hd
    | cons e digits => rw [htrim] at hd; exact hd
  · intro d hd
    refine hlast d ?_
    rwa [trimTrailingZeros, getLast?_reverse] at hd

/-! ## The conversion -/

variable {digits : List (Fin 10)}

theorem Trimmed.pow_le (h : Trimmed digits) (hne : digits ≠ []) :
    10 ^ (digits.length - 1) ≤ decimal digits := by
  obtain ⟨d, digits, rfl⟩ := exists_cons_of_ne_nil hne
  exact le_decimal _ (h.head d rfl)

/-- What is at least half a step above the largest double is rounded to infinity. -/
theorem rounds_infinity_of_le (h : 2 ^ 1024 - 2 ^ 970 ≤ x) : scale.Rounds infinity x infinity := by
  rw [← middle_last] at h
  have heven : Even (infinity - 1 + 1) := even_infinity
  exact RoundingScale.rounds_top heven h

/-- A number of at least `10 ^ 309`. -/
theorem rounds_infinity (h : Trimmed digits) (hne : digits ≠ [])
    (hlarge : 309 ≤ exponent + digits.length - 1) :
    scale.Rounds infinity (value digits exponent) infinity := by
  have hdecimal : (10 : ℚ) ^ (digits.length - 1) ≤ decimal digits := by exact_mod_cast h.pow_le hne
  refine rounds_infinity_of_le ?_
  have hpow : (2 : ℚ) ^ 1024 ≤ 10 ^ (309 : ℤ) := by
    have : 2 ^ 1024 ≤ 10 ^ 309 := by decide +kernel
    exact_mod_cast this
  calc (2 : ℚ) ^ 1024 - 2 ^ 970 ≤ 2 ^ 1024 := sub_le_self _ (by positivity)
    _ ≤ 10 ^ (309 : ℤ) := hpow
    _ ≤ 10 ^ (((digits.length - 1 : ℕ) : ℤ) + exponent) :=
        zpow_le_zpow_right₀ (by norm_num) (by omega)
    _ = 10 ^ (digits.length - 1) * 10 ^ exponent := by rw [zpow_add₀ (by norm_num), zpow_natCast]
    _ ≤ value digits exponent := mul_le_mul_of_nonneg_right hdecimal (by positivity)

/-- A number below `10 ^ (-324)`. -/
theorem rounds_zero_of_order (hsmall : exponent + digits.length ≤ -324) :
    scale.Rounds infinity (value digits exponent) 0 := by
  have hdecimal : (decimal digits : ℚ) ≤ 10 ^ digits.length := by exact_mod_cast (decimal_lt digits).le
  refine rounds_zero ?_
  have hpow : (2 : ℚ) ^ 1075 ≤ 10 ^ 324 := by
    have : 2 ^ 1075 ≤ 10 ^ 324 := by decide +kernel
    exact_mod_cast this
  calc value digits exponent ≤ 10 ^ digits.length * 10 ^ exponent :=
        mul_le_mul_of_nonneg_right hdecimal (by positivity)
    _ = 10 ^ ((digits.length : ℤ) + exponent) := by rw [zpow_add₀ (by norm_num), zpow_natCast]
    _ ≤ 10 ^ (-324 : ℤ) := zpow_le_zpow_right₀ (by norm_num) (by omega)
    _ = 1 / 10 ^ 324 := by rw [zpow_neg, one_div]; rfl
    _ ≤ 1 / 2 ^ 1075 := one_div_le_one_div_of_le (by positivity) hpow
    _ = unit / 2 := by rw [unit, div_div, ← pow_succ]

/-- The dropped digits are replaced by a one: both numbers are in the same interval. -/
theorem truncated_bounds (exponent : ℤ) (h : Trimmed digits) (hlong : 780 < digits.length) :
    ∃ (m : ℕ) (j : ℤ), 10 ^ 778 ≤ m ∧
      (m * 10 ^ j < value digits exponent ∧ value digits exponent < (m + 1) * 10 ^ j) ∧
      let significant := trimToMaxSignificantDigits digits exponent
      m * 10 ^ j < value significant.1 significant.2 ∧
        value significant.1 significant.2 < (m + 1) * 10 ^ j := by
  obtain ⟨head, tail, hsplit, hhead⟩ : ∃ head tail, digits = head ++ tail ∧ head.length = 779 :=
    ⟨digits.take 779, digits.drop 779, (take_append_drop 779 digits).symm, by
      rw [length_take]; omega⟩
  subst hsplit
  rw [length_append] at hlong
  have htail : 0 < decimal tail := by
    obtain ⟨init, d, htail⟩ := (eq_nil_or_concat tail).resolve_left
      (fun h => by rw [h, length_nil] at hlong; omega)
    rw [concat_eq_append] at htail
    subst htail
    have hd : d ≠ 0 := h.last d (by rw [← append_assoc, getLast?_concat]; rfl)
    rw [decimal_append]
    have : 0 < d.val := Nat.pos_of_ne_zero fun h0 => hd (Fin.ext h0)
    have hsingle : decimal [d] = d.val := by
      rw [decimal_cons, length_nil, pow_zero, mul_one]
      rfl
    omega
  have hpow : (0 : ℚ) < 10 ^ exponent := by positivity
  have hsignificant : value (trimToMaxSignificantDigits (head ++ tail) exponent).1
      (trimToMaxSignificantDigits (head ++ tail) exponent).2 =
      (decimal head + 1 / 10) * 10 ^ (exponent + tail.length) := by
    rw [trimToMaxSignificantDigits, take_append_of_le_length (by rw [hhead]; decide),
      take_of_length_le (by rw [hhead]; decide), value, decimal_append, length_append, hhead,
      show exponent + (((779 + tail.length : ℕ) : ℤ) - kMaxSignificantDecimalDigits) =
        exponent + tail.length - 1 by dsimp only [kMaxSignificantDecimalDigits]; push_cast; ring,
      zpow_sub_one₀ (by norm_num), show decimal [1] = 1 by decide, length_singleton]
    push_cast
    ring
  refine ⟨decimal head, exponent + tail.length, ?_, ⟨?_, ?_⟩, ?_, ?_⟩
  · obtain ⟨d, rest, rfl⟩ := exists_cons_of_ne_nil (ne_nil_of_length_eq_add_one hhead)
    have := le_decimal rest (h.head d rfl)
    rwa [show rest.length = 778 by rw [length_cons] at hhead; omega] at this
  · rw [value, decimal_append, zpow_add₀ (by norm_num), zpow_natCast,
      mul_comm _ ((10 : ℚ) ^ tail.length), ← mul_assoc]
    refine mul_lt_mul_of_pos_right ?_ hpow
    exact_mod_cast Nat.lt_add_of_pos_right htail
  · rw [value, decimal_append, zpow_add₀ (by norm_num), zpow_natCast,
      mul_comm _ ((10 : ℚ) ^ tail.length), ← mul_assoc]
    refine mul_lt_mul_of_pos_right ?_ hpow
    rw [add_mul, one_mul]
    exact_mod_cast Nat.add_lt_add_left (decimal_lt tail) _
  · rw [hsignificant]
    exact mul_lt_mul_of_pos_right (by linarith) (by positivity)
  · rw [hsignificant]
    exact mul_lt_mul_of_pos_right (by linarith) (by positivity)

variable (wide : Bool)

/-- **The conversion of at most 780 digits.** -/
theorem strtod_of_short (hexp : -2 ^ 31 ≤ exponent) (hsum : exponent + buffer.length < 2 ^ 31)
    (hshort : (trimTrailingZeros (trimLeadingZeros buffer)).length ≤ 780) :
    ∃ result, strtod wide buffer exponent = some result ∧
      scale.Rounds infinity (value buffer exponent) result := by
  obtain ⟨z, hlength, hvalue, htrimmed⟩ := exists_trimmed buffer
  have hleft := length_trimLeadingZeros_le buffer
  rw [strtod, hlength, hvalue]
  generalize trimTrailingZeros (trimLeadingZeros buffer) = trimmed at *
  dsimp only
  rw [show exponent + (((trimmed.length + z : ℕ) : ℤ) - trimmed.length) = exponent + z by
    push_cast; ring, checkedInt_of_fits (by omega), Option.bind_some]
  by_cases hempty : trimmed.length = 0
  · refine ⟨0, if_pos hempty, ?_⟩
    rw [eq_nil_of_length_eq_zero hempty]
    refine rounds_zero ?_
    rw [value, show decimal [] = 0 from rfl, Nat.cast_zero, zero_mul]
    exact (half_pos unit_pos).le
  · have hne : trimmed ≠ [] := fun h => hempty (by rw [h]; rfl)
    rw [if_neg hempty, dif_neg (by dsimp only [kMaxSignificantDecimalDigits]; omega),
      checkedInt_of_fits (by omega), Option.bind_some]
    by_cases hlarge : exponent + z + trimmed.length - 1 ≥ kMaxDecimalPower
    · exact ⟨_, if_pos hlarge, rounds_infinity htrimmed hne hlarge⟩
    rw [if_neg hlarge]
    by_cases hsmall : exponent + z + trimmed.length ≤ kMinDecimalPower
    · exact ⟨_, if_pos hsmall, rounds_zero_of_order hsmall⟩
    rw [if_neg hsmall]
    cases hdouble : doubleStrtod wide trimmed (exponent + z) with
    | some guess => exact ⟨guess, rfl, doubleStrtod_spec hdouble⟩
    | none =>
      dsimp only [kMaxDecimalPower] at hlarge
      have hpos : 0 < decimal trimmed :=
        lt_of_lt_of_le (by positivity) (htrimmed.pow_le hne)
      obtain ⟨answer, hdiyFp, hanswer⟩ := diyFpStrtod_spec hpos
        (show exponent + z + trimmed.length < 348 by omega)
      rw [hdiyFp, Option.bind_some]
      cases hsure : answer.1 with
      | true => exact ⟨_, if_pos rfl, hanswer.right hsure⟩
      | false =>
        dsimp only [kMinDecimalPower] at hsmall
        exact bignumStrtod_spec ⟨hpos, hshort, by omega, by omega⟩ hanswer.le_infinity
          hanswer.below

/-- **The conversion rounds.** -/
theorem strtod_rounds (hexp : -2 ^ 31 ≤ exponent) (hsum : exponent + buffer.length < 2 ^ 31) :
    ∃ result, strtod wide buffer exponent = some result ∧
      scale.Rounds infinity (value buffer exponent) result := by
  rcases Nat.lt_or_ge 780 (trimTrailingZeros (trimLeadingZeros buffer)).length with hlong | hshort
  · obtain ⟨z, hlength, hvalue, htrimmed⟩ := exists_trimmed buffer
    have hleft := length_trimLeadingZeros_le buffer
    obtain ⟨m, j, hm, hbounds, hbounds'⟩ := truncated_bounds (exponent + z) htrimmed hlong
    rw [strtod, hlength, hvalue]
    generalize trimTrailingZeros (trimLeadingZeros buffer) = trimmed at *
    have hsignificant : (trimToMaxSignificantDigits trimmed (exponent + z)).1.length = 780 := by
      rw [trimToMaxSignificantDigits, length_append, length_take, length_singleton]
      dsimp only [kMaxSignificantDecimalDigits]
      omega
    have hexponent : (trimToMaxSignificantDigits trimmed (exponent + z)).2 =
        exponent + z + (trimmed.length - 780) := rfl
    have hlow : -2 ^ 31 ≤ (trimToMaxSignificantDigits trimmed (exponent + z)).2 := by omega
    have hhigh : (trimToMaxSignificantDigits trimmed (exponent + z)).2 +
        (trimToMaxSignificantDigits trimmed (exponent + z)).1.length < 2 ^ 31 := by omega
    obtain ⟨result, hresult, hrounds⟩ := strtod_of_short wide hlow hhigh
      (((length_trimTrailingZeros_le _).trans (length_trimLeadingZeros_le _)).trans hsignificant.le)
    refine ⟨result, ?_, rounds_of_truncated hm hbounds hbounds' hrounds⟩
    dsimp only
    rw [show exponent + (((trimmed.length + z : ℕ) : ℤ) - trimmed.length) = exponent + z by
      push_cast; ring, checkedInt_of_fits (by omega), Option.bind_some, if_neg (by omega),
      dif_pos (show kMaxSignificantDecimalDigits < trimmed.length from hlong),
      checkedInt_of_fits (by omega), Option.bind_some]
    exact hresult
  · exact strtod_of_short wide hexp hsum hshort

/-! ## What is a correctly rounded double -/

/-- **Correct rounding** of a number that is not negative: the nearest double, the one with
the even significand of two, infinity from the middle after the greatest double on. -/
structure CorrectlyRounded (x : ℚ) (d64 : ℕ) : Prop where
  overflow : 2 ^ 1024 - 2 ^ 970 ≤ x → d64 = kInfinity
  finite : x < 2 ^ 1024 - 2 ^ 970 → d64 < kInfinity
  nearest : d64 < kInfinity → ∀ other < kInfinity,
    |x - Double.value d64| ≤ |x - Double.value other|
  even : d64 < kInfinity → ∀ other < kInfinity, other ≠ d64 →
    |x - Double.value d64| = |x - Double.value other| → Even (significand d64)
  underflow : x ≤ 1 / 2 ^ 1075 → d64 = 0

theorem even_significand {b : ℕ} (hb : b < infinity) (h : Even b) : Even (significand b) := by
  obtain ⟨f, k, rfl, hfits⟩ := exists_place b
  have hk : k ≤ 2046 := by
    dsimp only [infinity] at hb
    omega
  rw [significand_place hfits hk]
  rw [Nat.even_iff] at h ⊢
  omega

/-- Rounding on the scale is correct rounding. -/
theorem correctlyRounded_of_rounds {result : ℕ} (h : scale.Rounds infinity x result) :
    CorrectlyRounded x result := by
  refine ⟨fun hx => ?_, fun hx => ?_, fun hlt other _ => h.nearest hlt other,
    fun hlt other _ hne htie => even_significand hlt (h.even_of_tie hlt hne htie), fun hx => ?_⟩
  · exact h.unique (rounds_infinity_of_le hx)
  · refine lt_of_le_of_ne h.le_top fun heq => ?_
    have hlast := (h.lower (infinity - 1) (by rw [heq]; rfl)).1
    rw [middle_last] at hlast
    exact absurd hx (not_lt.2 hlast)
  · refine h.unique (rounds_zero (hx.trans (le_of_eq ?_)))
    rw [unit, div_div, ← pow_succ]

/-- **The conversion is correctly rounded**, for every sequence of digits and every exponent for
which the sums of `int`s do not overflow. The approximation of the second algorithm is correct
when it says so, and otherwise it is correct or the double below the correct one. -/
theorem strtod_correctlyRounded (wide : Bool) (buffer : List (Fin 10)) (exponent : ℤ)
    (hexp : -2 ^ 31 ≤ exponent ∧ exponent < 2 ^ 31)
    (hsum : -2 ^ 31 ≤ exponent + buffer.length ∧ exponent + buffer.length < 2 ^ 31) :
    (∃ result, strtod wide buffer exponent = some result ∧
      CorrectlyRounded (value buffer exponent) result) ∧
    ∀ (trimmed : List (Fin 10)) (order : ℤ), Trimmed trimmed → trimmed ≠ [] →
      trimmed.length ≤ kMaxSignificantDecimalDigits → kMinDecimalPower < order + trimmed.length →
      order + trimmed.length - 1 < kMaxDecimalPower →
      ∃ sure guess, diyFpStrtod trimmed order = some (sure, guess) ∧
        (sure = true → CorrectlyRounded (value trimmed order) guess) ∧
        (sure = false → CorrectlyRounded (value trimmed order) guess ∨
          CorrectlyRounded (value trimmed order) (nextDouble guess)) := by
  obtain ⟨result, hresult, hrounds⟩ := strtod_rounds wide hexp.1 hsum.2
  refine ⟨⟨result, hresult, correctlyRounded_of_rounds hrounds⟩, ?_⟩
  intro trimmed order htrimmed hne _ _ hhigh
  have hpos : 0 < decimal trimmed := lt_of_lt_of_le (by positivity) (htrimmed.pow_le hne)
  dsimp only [kMaxDecimalPower] at hhigh
  obtain ⟨⟨sure, guess⟩, hdiyFp, hle, hright, hbelow⟩ := diyFpStrtod_spec hpos
    (show order + trimmed.length < 348 by omega)
  refine ⟨sure, guess, hdiyFp, fun hsure => correctlyRounded_of_rounds (hright hsure), fun _ => ?_⟩
  have hnext : nextDouble guess = min (guess + 1) infinity := by
    rcases (show guess ≤ infinity from hle).lt_or_eq with hlt | rfl
    · rw [nextDouble_of_lt hlt, min_eq_left hlt]
    · rw [min_eq_right (Nat.le_succ _), nextDouble]
      exact if_pos rfl
  rw [hnext]
  exact hbelow.imp correctlyRounded_of_rounds correctlyRounded_of_rounds

theorem strtod_correctlyRounded_fifteen :
    ∃ result, strtod false [1, 5] (-1) = some result ∧ CorrectlyRounded
    (value [1, 5] (-1)) result :=
  (strtod_correctlyRounded false [1, 5] (-1) (by decide) (by decide)).1

end Strtod
