import V8Speak.RightShift

/-!
# Truncation to a number of bits

`BigInt.asIntN(n, x)` and `BigInt.asUintN(n, x)` are the representatives of
`x` modulo `2 ^ n` in `[-2 ^ (n-1), 2 ^ (n-1))` and in `[0, 2 ^ n)`. The
library (`bigint/bitwise.cc`) works on the magnitude of `x`, whatever its
sign, and has two ways to truncate it: keep its `n` lowest bits
(`TruncateToNBits`), or subtract these from `2 ^ n`
(`TruncateAndSubFromPowerOfTwo`, where `0` stands for `2 ^ n`). For `asIntN`
the bit `n - 1` of the magnitude decides which of them is right, and the sign
of the result follows, except that both signs have the magnitude
`2 ^ (n-1)` in question: the result is then the least number with `n` bits.

The length functions return `-1` if the operation would return `x`
unchanged.
-/

open Nat hiding pow_succ'
open List Option

namespace Digits

/-! ## The functions -/

/-- `DIV_CEIL`, for `n` at least one. -/
def divCeil (n y : ℕ) : ℕ := (n - 1) / y + 1

/-- `msd = (msd << drop) >> drop`, where only some of the bits are wanted. -/
def dropBits (msd : Digit) (bits : ℕ) : Digit :=
  if bits ≠ 0 then
    let drop := UInt64.ofNat (kDigitBits - bits)
    (msd <<< drop) >>> drop
  else msd

variable (Z X : Digits)

/-- `TruncateToNBits`: `Z := (least significant n bits of X)`. -/
def truncateToNBits (n : ℕ) : Option Digits := do
  let digits := divCeil n kDigitBits
  let bits := n % kDigitBits
  let last := digits - 1
  let msd ← X[last]?
  dcheck (last < Z.length)
  return X.take last ++ [dropBits msd bits] ++ Z.drop digits

/-- `TruncateAndSubFromPowerOfTwo`: `Z := 2**n - (least significant n bits of X)`. -/
def truncateAndSubFromPowerOfTwo (n : ℕ) : Option Digits := do
  let digits := divCeil n kDigitBits
  let bits := n % kDigitBits
  let last := digits - 1
  -- the digits of `X`, then leading zeros, each subtracted from zero
  let haveX := min last X.length
  let (low, borrow) ← subLoop (List.replicate haveX 0) (X.take haveX) 0
  let (mid, borrow) := subBorrow (List.replicate (last - haveX) 0) borrow
  let msd := X[last]?.getD 0
  dcheck (last < Z.length)
  if bits = 0 then
    return low ++ mid ++ [(digitSub2 0 msd borrow).1] ++ Z.drop digits
  let minuendMsd : Digit := 1 <<< UInt64.ofNat bits
  let (resultMsd, borrow) := digitSub2 minuendMsd (dropBits msd bits) borrow
  dcheck (borrow = 0)
  return low ++ mid ++ [resultMsd &&& (minuendMsd - 1)] ++ Z.drop digits

def asIntNResultLength (X : Digits) (xNegative : Bool) (n : ℕ) : Option ℤ := do
  let neededDigits := divCeil n kDigitBits
  if X.length < neededDigits then return -1
  if neededDigits < X.length then return neededDigits
  let topDigit ← X[neededDigits - 1]?
  let compareDigit : Digit := 1 <<< UInt64.ofNat ((n - 1) % kDigitBits)
  if topDigit < compareDigit then return -1
  if compareDigit < topDigit then return neededDigits
  if !xNegative then return neededDigits
  if (X.take (neededDigits - 1)).any (· ≠ 0) then return neededDigits
  return -1

/-- `AsIntN`: the magnitude, and whether the result is negative. -/
def asIntN (xNegative : Bool) (n : ℕ) : Option (Digits × Bool) := do
  let resultLength ← asIntNResultLength X xNegative n
  dcheck (0 < resultLength)
  let neededDigits := divCeil n kDigitBits
  let topDigit ← X[neededDigits - 1]?
  let compareDigit : Digit := 1 <<< UInt64.ofNat ((n - 1) % kDigitBits)
  if topDigit &&& compareDigit ≠ compareDigit then
    let Z ← truncateToNBits Z X n
    return (Z, xNegative)
  let Z ← truncateAndSubFromPowerOfTwo Z X n
  if !xNegative then return (Z, true)
  if topDigit &&& (compareDigit - 1) ≠ 0 then return (Z, false)
  if (X.take (neededDigits - 1)).any (· ≠ 0) then return (Z, false)
  return (Z, true)

def asUintNPosResultLength (X : Digits) (n : ℕ) : Option ℤ := do
  let neededDigits := divCeil n kDigitBits
  if X.length < neededDigits then return -1
  if neededDigits < X.length then return neededDigits
  let bitsInTopDigit := n % kDigitBits
  if bitsInTopDigit = 0 then return -1
  let topDigit ← X[neededDigits - 1]?
  if topDigit >>> UInt64.ofNat bitsInTopDigit = 0 then return -1
  return neededDigits

def asUintNPos (n : ℕ) : Option Digits := do
  let resultLength ← asUintNPosResultLength X n
  dcheck (0 < resultLength)
  truncateToNBits Z X n

def asUintNNegResultLength (n : ℕ) : ℕ := (n - 1) / kDigitBits + 1

def asUintNNeg (n : ℕ) : Option Digits := truncateAndSubFromPowerOfTwo Z X n

/-! ## The two truncations -/

variable {X Z : Digits} {n : ℕ}

/-- The index of the digit with the highest of `n` bits. -/
def lastDigit (n : ℕ) : ℕ := (n - 1) / kDigitBits

/-- The number of bits that are wanted of that digit, at least one. -/
def lastBits (n : ℕ) : ℕ := (n - 1) % kDigitBits + 1

theorem divCeil_eq (n : ℕ) : divCeil n kDigitBits = lastDigit n + 1 := rfl

theorem lastBits_le (n : ℕ) : lastBits n ≤ kDigitBits := mod_lt _ (by decide)

theorem lastBits_pos (n : ℕ) : 0 < lastBits n := succ_pos _

theorem two_pow_pred (n : ℕ) : 2 ^ (n - 1) = digitBase ^ lastDigit n * 2 ^ (lastBits n - 1) := by
  rw [digitBase, ← pow_mul, ← pow_add, lastBits, Nat.add_sub_cancel, lastDigit, div_add_mod]

theorem two_pow_bits (hn : 0 < n) : 2 ^ n = digitBase ^ lastDigit n * 2 ^ lastBits n := by
  have h := two_pow_pred n
  calc 2 ^ n = 2 ^ (n - 1) * 2 := by rw [← pow_succ, Nat.sub_add_cancel hn]
    _ = digitBase ^ lastDigit n * (2 ^ (lastBits n - 1) * 2) := by rw [h, mul_assoc]
    _ = digitBase ^ lastDigit n * 2 ^ lastBits n := by
        rw [← pow_succ, Nat.sub_add_cancel (lastBits_pos n)]

/-- The bits of the last digit, as the source has them: zero stands for all. -/
theorem mod_kDigitBits (hn : 0 < n) :
    n % kDigitBits = if lastBits n = kDigitBits then 0 else lastBits n := by
  rw [lastBits, kDigitBits]
  split <;> omega

theorem toNat_dropBits (hn : 0 < n) (d : Digit) :
    (dropBits d (n % kDigitBits)).toNat = d.toNat % 2 ^ lastBits n := by
  have hle := lastBits_le n
  rw [mod_kDigitBits hn]
  by_cases h : lastBits n = kDigitBits
  · rw [if_pos h, h, dropBits, if_neg (not_not.2 rfl)]
    exact (mod_eq_of_lt (digit_lt d)).symm
  · have hlt : kDigitBits - lastBits n < kDigitBits := sub_lt (by decide) (lastBits_pos n)
    have hsplit : digitBase = 2 ^ lastBits n * 2 ^ (kDigitBits - lastBits n) := by
      rw [digitBase, ← pow_add, Nat.add_sub_cancel' hle]
    rw [if_neg h, dropBits, if_pos (lastBits_pos n).ne', toNat_digit_shiftRight _ hlt,
      toNat_digit_shiftLeft _ hlt,
      hsplit, mul_mod_mul_right, Nat.mul_div_cancel _ (Nat.two_pow_pos _)]

/-- The lowest `n` bits, digit by digit. -/
theorem value_mod_two_pow (hn : 0 < n) (X : Digits) :
    value X % 2 ^ n = value (X.take (lastDigit n)) +
      digitBase ^ lastDigit n * ((X[lastDigit n]?.getD 0).toNat % 2 ^ lastBits n) := by
  rw [two_pow_bits hn, value_mod X (lastBits_le n)]

/-- **`TruncateToNBits`.** -/
theorem truncateToNBits_spec (hn : 0 < n) (hX : lastDigit n < X.length)
    (hZ : Z.length = divCeil n kDigitBits) :
    ∃ Z', truncateToNBits Z X n = some Z' ∧ Z'.length = Z.length ∧ value Z' = value X % 2 ^ n := by
  obtain ⟨d, hd⟩ : ∃ d, X[lastDigit n]? = some d := ⟨_, getElem?_eq_getElem hX⟩
  have hlast : divCeil n kDigitBits - 1 = lastDigit n := rfl
  have htake : (X.take (lastDigit n)).length = lastDigit n := length_take_of_le hX.le
  have hlt : lastDigit n < Z.length := by rw [hZ, divCeil_eq]; exact lt_succ_self _
  refine ⟨X.take (lastDigit n) ++ [dropBits d (n % kDigitBits)] ++ Z.drop (divCeil n kDigitBits),
    ?_, ?_, ?_⟩
  · rw [truncateToNBits, hlast, hd, Option.bind_eq_bind, Option.bind_some, dcheck_pos hlt]
    rfl
  · rw [length_append, length_append, length_drop, htake, hZ, divCeil_eq,
      length_singleton]
    omega
  · rw [← hZ, drop_length, append_nil, value_append, htake, value_cons, value_nil,
      Nat.mul_zero, Nat.add_zero, toNat_dropBits hn, value_mod_two_pow hn, hd, getD_some]

/-- The digits below the last one, subtracted from zero. -/
theorem negated_digits (X : Digits) (last : ℕ) :
    ∃ low borrow, subLoop (List.replicate (min last X.length) 0) (X.take (min last X.length)) 0 =
        some (low, borrow) ∧
      let run := subBorrow (List.replicate (last - min last X.length) 0) borrow
      (low ++ run.1).length = last ∧ run.2.toNat ≤ 1 ∧
        value (low ++ run.1) + value (X.take last) = digitBase ^ last * run.2.toNat := by
  set k := min last X.length with hk
  have htake : (X.take k).length = k := length_take_of_le (Nat.min_le_right _ _)
  obtain ⟨low, c, hrun, hlow, hc, hval⟩ := subLoop_spec (List.replicate k 0) (X.take k) 0
    (by rw [htake, length_replicate]) (by decide)
  have hspec := subBorrow_spec (List.replicate (last - k) 0) c
  have hpow : digitBase ^ last = digitBase ^ k * digitBase ^ (last - k) := by
    rw [← pow_add, Nat.add_sub_cancel' (Nat.min_le_left _ _)]
  rw [htake] at hlow hval
  rw [take_replicate, value_replicate_zero, UInt64.toNat_zero] at hval
  rw [length_replicate, value_replicate_zero] at hspec
  refine ⟨low, c, hrun, ?_, subBorrow_borrow _ hc, ?_⟩
  · rw [length_append, hlow, length_subBorrow, length_replicate]
    omega
  · rw [value_append, hlow, hpow, take_eq_take_min, ← hk]
    linear_combination hval + digitBase ^ k * hspec

/-- The last digit of `TruncateAndSubFromPowerOfTwo` if not all its bits are wanted: nothing is
borrowed, and the power itself is cut off again if nothing was subtracted from it. -/
theorem sub_from_power {bits : ℕ} (h : bits < kDigitBits) {m borrow : Digit}
    (hm : m.toNat < 2 ^ bits) (hborrow : borrow.toNat ≤ 1) :
    (digitSub2 (1 <<< UInt64.ofNat bits) m borrow).2 = 0 ∧
      ((digitSub2 (1 <<< UInt64.ofNat bits) m borrow).1 &&& ((1 <<< UInt64.ofNat bits) - 1)).toNat =
        (2 ^ bits - m.toNat - borrow.toNat) % 2 ^ bits := by
  have hspec := digitSub2_spec (1 <<< UInt64.ofNat bits) m borrow hborrow
  have hlt := digit_lt (digitSub2 (1 <<< UInt64.ofNat bits) m borrow).1
  rw [toNat_one_shiftLeft h] at hspec
  have hc : (digitSub2 (1 <<< UInt64.ofNat bits) m borrow).2.toNat = 0 := by
    refine Nat.lt_one_iff.mp (Nat.lt_of_mul_lt_mul_left (a := digitBase) ?_)
    omega
  refine ⟨UInt64.toNat_inj.mp hc, ?_⟩
  rw [toNat_and_mask _ h, show (digitSub2 (1 <<< UInt64.ofNat bits) m borrow).1.toNat =
    2 ^ bits - m.toNat - borrow.toNat by rw [hc] at hspec; omega]

/-- **`TruncateAndSubFromPowerOfTwo`**: the negative of the number modulo `2 ^ n`. -/
theorem truncateAndSubFromPowerOfTwo_spec (hn : 0 < n) (X : Digits)
    (hZ : Z.length = divCeil n kDigitBits) :
    ∃ Z', truncateAndSubFromPowerOfTwo Z X n = some Z' ∧ Z'.length = Z.length ∧
      value Z' < 2 ^ n ∧ ∃ e ≤ 1, value Z' + value X % 2 ^ n = 2 ^ n * e := by
  obtain ⟨low, c, hlow, hlen, hborrow, hval⟩ := negated_digits X (lastDigit n)
  have hlast : divCeil n kDigitBits - 1 = lastDigit n := rfl
  have hlt : lastDigit n < Z.length := by rw [hZ, divCeil_eq]; exact lt_succ_self _
  have hdrop : Z.drop (divCeil n kDigitBits) = [] := by rw [← hZ, drop_length]
  rw [value_mod_two_pow hn, two_pow_bits hn]
  rw [truncateAndSubFromPowerOfTwo, hlast, hlow, Option.bind_eq_bind, Option.bind_some]
  dsimp only at hlen hborrow hval ⊢
  generalize subBorrow (List.replicate (lastDigit n - min (lastDigit n) X.length) 0) c = run at *
  obtain ⟨mid, borrow⟩ := run
  generalize X[lastDigit n]?.getD 0 = msd
  dsimp only at hlen hborrow hval ⊢
  have hlowlt := value_lt (low ++ mid)
  rw [hlen] at hlowlt
  -- the whole result from its last digit
  have hresult (d : Digit) : (low ++ mid ++ [d] ++ Z.drop (divCeil n kDigitBits)).length =
      Z.length ∧ value (low ++ mid ++ [d] ++ Z.drop (divCeil n kDigitBits)) =
        value (low ++ mid) + digitBase ^ lastDigit n * d.toNat := by
    rw [hdrop, append_nil, length_append, hlen, hZ, value_append, hlen]
    exact ⟨rfl, rfl⟩
  have hbound (d : Digit) (hd : d.toNat < 2 ^ lastBits n) :
      value (low ++ mid) + digitBase ^ lastDigit n * d.toNat <
        digitBase ^ lastDigit n * 2 ^ lastBits n := by
    have := Nat.mul_le_mul_left (digitBase ^ lastDigit n) (succ_le_of_lt hd)
    rw [mul_succ] at this
    omega
  by_cases h : lastBits n = kDigitBits
  · have h0 : n % kDigitBits = 0 := by rw [mod_kDigitBits hn, if_pos h]
    have hspec := digitSub2_spec 0 msd borrow hborrow
    obtain ⟨hl, hv⟩ := hresult (digitSub2 0 msd borrow).1
    refine ⟨_, by simp only [dcheck_pos hlt, Option.bind_eq_bind, Option.bind_some,
      if_pos h0]; rfl, hl,
      ?_, (digitSub2 0 msd borrow).2.toNat, digitSub2_borrow _ _ _, ?_⟩
    · rw [hv]
      exact hbound _ (h ▸ digit_lt _)
    · have hpow : 2 ^ lastBits n = digitBase := by rw [h]; rfl
      rw [hv, hpow, mod_eq_of_lt (digit_lt msd)]
      rw [UInt64.toNat_zero] at hspec
      linear_combination hval + digitBase ^ lastDigit n * hspec
  · have hbits : n % kDigitBits = lastBits n := by rw [mod_kDigitBits hn, if_neg h]
    have h0 : ¬n % kDigitBits = 0 := hbits ▸ (lastBits_pos n).ne'
    have hdrop := toNat_dropBits hn msd
    have hmlt : (dropBits msd (n % kDigitBits)).toNat < 2 ^ lastBits n := by
      rw [hdrop]
      exact mod_lt _ (Nat.two_pow_pos _)
    obtain ⟨hc, hd⟩ := sub_from_power (lt_of_le_of_ne (lastBits_le n) h) hmlt hborrow
    rw [← hbits] at hc hd
    obtain ⟨hl, hv⟩ := hresult ((digitSub2 (1 <<< UInt64.ofNat (n % kDigitBits))
      (dropBits msd (n % kDigitBits)) borrow).1 &&& ((1 <<< UInt64.ofNat (n % kDigitBits)) - 1))
    refine ⟨_, by simp only [dcheck_pos hlt, dcheck_pos hc, Option.bind_eq_bind, Option.bind_some,
      if_neg h0]; rfl, hl, ?_, ?_⟩
    · rw [hv]
      refine hbound _ ?_
      rw [hd, hbits]
      exact mod_lt _ (Nat.two_pow_pos _)
    · rw [hv, hd, ← hdrop, hbits]
      rw [hbits] at hmlt
      generalize (dropBits msd (lastBits n)).toNat = m at hmlt ⊢
      rcases Nat.eq_zero_or_pos (m + borrow.toNat) with hzero | hpos
      · -- nothing was subtracted, and the power is cut off
        obtain ⟨rfl, hborrow0⟩ := Nat.add_eq_zero_iff.1 hzero
        refine ⟨0, Nat.zero_le _, ?_⟩
        rw [hborrow0, Nat.sub_zero, Nat.sub_zero, mod_self, Nat.mul_zero, Nat.add_zero,
          Nat.add_zero, Nat.mul_zero, hval, hborrow0, Nat.mul_zero]
      · refine ⟨1, le_rfl, ?_⟩
        rw [mod_eq_of_lt (by omega)]
        have hsum : 2 ^ lastBits n - m - borrow.toNat + m + borrow.toNat = 2 ^ lastBits n := by omega
        linear_combination hval + digitBase ^ lastDigit n * hsum

/-! ## The sign bit -/

/-- A number of `n` bits, with its sign: `-2 ^ (n-1) ≤ x < 2 ^ (n-1)`. -/
def FitsIntN (n : ℕ) (x : ℤ) : Prop := -2 ^ (n - 1) ≤ x ∧ x < 2 ^ (n - 1)

theorem fitsIntN_signedValue (n : ℕ) (negative : Bool) (X : Digits) :
    FitsIntN n (signedValue negative X) ↔
      if negative then value X ≤ 2 ^ (n - 1) else value X < 2 ^ (n - 1) := by
  have hpos : (0 : ℤ) < 2 ^ (n - 1) := by positivity
  have hcast : ((2 ^ (n - 1) : ℕ) : ℤ) = 2 ^ (n - 1) := by push_cast; rfl
  rw [FitsIntN, ← hcast]
  cases negative
  · rw [signedValue_false, if_neg Bool.false_ne_true]
    omega
  · rw [signedValue_true, if_pos rfl]
    omega

theorem toNat_compareDigit (n : ℕ) :
    (1 <<< UInt64.ofNat ((n - 1) % kDigitBits) : Digit).toNat = 2 ^ (lastBits n - 1) :=
  toNat_one_shiftLeft (mod_lt _ (by decide))

/-- The comparison of two numbers by their last digit, if the rest of the one is zero. -/
theorem mul_le_add_mul_iff {M a p q : ℕ} (ha : a < M) : M * p ≤ a + M * q ↔ p ≤ q := by
  refine ⟨fun h => ?_, fun h => (Nat.mul_le_mul_left M h).trans (Nat.le_add_left _ _)⟩
  by_contra hlt
  have := Nat.mul_le_mul_left M (succ_le_of_lt (not_le.1 hlt))
  rw [mul_succ] at this
  omega

theorem add_mul_le_mul_iff {M a p q : ℕ} (ha : a < M) :
    a + M * q ≤ M * p ↔ q < p ∨ q = p ∧ a = 0 := by
  rcases Nat.lt_trichotomy q p with h | rfl | h
  · have := Nat.mul_le_mul_left M (succ_le_of_lt h)
    rw [mul_succ] at this
    omega
  · omega
  · have := Nat.mul_le_mul_left M (succ_le_of_lt h)
    rw [mul_succ] at this
    omega

/-- The bit of a digit. -/
theorem and_compareDigit_iff (n : ℕ) (d : Digit) :
    d &&& (1 <<< UInt64.ofNat ((n - 1) % kDigitBits)) = 1 <<< UInt64.ofNat ((n - 1) % kDigitBits) ↔
      2 ^ (lastBits n - 1) ≤ d.toNat % 2 ^ lastBits n := by
  have hpow : 2 ^ lastBits n = 2 ^ (lastBits n - 1) * 2 := by
    rw [← pow_succ, Nat.sub_add_cancel (lastBits_pos n)]
  rw [← UInt64.toNat_inj, UInt64.toNat_and, toNat_compareDigit, and_two_pow, hpow, mod_mul,
    testBit_eq_decide_div_mod_eq]
  rcases mod_two_eq_zero_or_one (d.toNat / 2 ^ (lastBits n - 1)) with h | h
  · rw [h]
    simp
    omega
  · rw [h]
    simp

/-- A vector with a last digit of `n` bits. -/
theorem value_eq_of_length (h : X.length = divCeil n kDigitBits) : ∃ d, X[lastDigit n]? = some d ∧
      value X = value (X.take (lastDigit n)) + digitBase ^ lastDigit n * d.toNat := by
  have hlt : lastDigit n < X.length := by rw [h, divCeil_eq]; exact lt_succ_self _
  refine ⟨_, getElem?_eq_getElem hlt, ?_⟩
  have hdrop : X.drop (lastDigit n + 1) = [] := drop_eq_nil_of_le (by rw [h, divCeil_eq])
  rw [← value_take_add_drop X (lastDigit n), drop_eq_getElem_cons hlt, hdrop, value_cons, value_nil,
    Nat.mul_zero, Nat.add_zero]

theorem value_take_lt (X : Digits) (k : ℕ) : value (X.take k) < digitBase ^ k :=
  value_lt_of_length_le (length_take_le k X)

/-- A normalized vector that is longer than needed is not small. -/
theorem pow_lastDigit_succ_le (hX : X.Normalized) (h : divCeil n kDigitBits < X.length) :
    digitBase ^ lastDigit n * digitBase ≤ value X := by
  calc digitBase ^ lastDigit n * digitBase = digitBase ^ (lastDigit n + 1) := (pow_succ _ _).symm
    _ ≤ digitBase ^ (X.length - 1) :=
        Nat.pow_le_pow_right digitBase_pos (by rw [divCeil_eq] at h; omega)
    _ ≤ value X := pow_le_value hX (ne_nil_of_length_pos (zero_lt_of_lt h))

/-- **`AsIntNResultLength`** returns `-1` exactly for the numbers that `asIntN` leaves alone. -/
theorem asIntNResultLength_spec (hX : X.Normalized) (xNegative : Bool) (n : ℕ) :
    asIntNResultLength X xNegative n = some (-1) ∧ FitsIntN n (signedValue xNegative X) ∨
      asIntNResultLength X xNegative n = some ((divCeil n kDigitBits : ℕ) : ℤ) ∧
        ¬FitsIntN n (signedValue xNegative X) ∧ lastDigit n < X.length := by
  rw [fitsIntN_signedValue, asIntNResultLength, two_pow_pred]
  have hpos := Nat.two_pow_pos (lastBits n - 1)
  rcases Nat.lt_trichotomy X.length (divCeil n kDigitBits) with hlt | heq | hgt
  · -- too short to reach the sign bit
    refine .inl ⟨if_pos hlt, ?_⟩
    have hsmall : value X < digitBase ^ lastDigit n * 2 ^ (lastBits n - 1) :=
      (value_lt_of_length_le (le_of_lt_succ hlt)).trans_le (Nat.le_mul_of_pos_right _ hpos)
    cases xNegative
    · exact hsmall
    · exact hsmall.le
  · obtain ⟨d, hd, hvalue⟩ := value_eq_of_length heq
    have hlow := value_take_lt X (lastDigit n)
    have hlast : lastDigit n < X.length := by rw [heq, divCeil_eq]; exact lt_succ_self _
    have hindex : divCeil n kDigitBits - 1 = lastDigit n := rfl
    have hcompare := toNat_compareDigit n
    rw [if_neg heq.not_lt, if_neg heq.symm.not_lt, hindex, hd, Option.bind_eq_bind,
      Option.bind_some, hvalue]
    rcases Nat.lt_trichotomy d.toNat (2 ^ (lastBits n - 1)) with hcmp | hcmp | hcmp
    · refine .inl ⟨if_pos (UInt64.lt_iff_toNat_lt.2 (hcompare ▸ hcmp)), ?_⟩
      have hle := (add_mul_le_mul_iff hlow).2 (.inl hcmp)
      have hne : ¬digitBase ^ lastDigit n * 2 ^ (lastBits n - 1) ≤
          value (X.take (lastDigit n)) + digitBase ^ lastDigit n * d.toNat := by
        rw [mul_le_add_mul_iff hlow]
        exact not_le.2 hcmp
      cases xNegative
      · exact not_le.1 hne
      · exact hle
    · -- the magnitude is that of the least number, or above it
      have hdigit : d = 1 <<< UInt64.ofNat ((n - 1) % kDigitBits) :=
        UInt64.toNat_inj.mp (hcmp.trans hcompare.symm)
      rw [if_neg (by rw [hdigit]; exact UInt64.lt_irrefl _),
        if_neg (by rw [hdigit]; exact UInt64.lt_irrefl _), hcmp]
      cases xNegative with
      | false => exact .inr ⟨rfl, not_lt.2 (Nat.le_add_left _ _), hlast⟩
      | true =>
        rw [if_neg (by decide), if_pos rfl]
        by_cases hzero : value (X.take (lastDigit n)) = 0
        · refine .inl ⟨?_, by rw [hzero, Nat.zero_add]⟩
          rw [if_neg (by rw [any_ne_zero_iff]; exact not_not.2 hzero)]
          rfl
        · refine .inr ⟨?_, ?_, hlast⟩
          · rw [if_pos ((any_ne_zero_iff _).2 hzero)]
            rfl
          · omega
    · refine .inr ⟨?_, ?_, hlast⟩
      · rw [if_neg (by rw [UInt64.lt_iff_toNat_lt, hcompare]; exact hcmp.not_gt),
          if_pos (UInt64.lt_iff_toNat_lt.2 (hcompare ▸ hcmp))]
        rfl
      · have hnle : ¬value (X.take (lastDigit n)) + digitBase ^ lastDigit n * d.toNat ≤
            digitBase ^ lastDigit n * 2 ^ (lastBits n - 1) := by
          rw [add_mul_le_mul_iff hlow]
          omega
        cases xNegative
        · exact fun h => hnle h.le
        · exact hnle
  · refine .inr ⟨?_, ?_, ?_⟩
    · grind
    · have hlarge : digitBase ^ lastDigit n * 2 ^ (lastBits n - 1) < value X := by
        have hbits : 2 ^ (lastBits n - 1) < digitBase := toNat_compareDigit n ▸ digit_lt _
        exact (Nat.mul_lt_mul_of_pos_left hbits (digitBase_pow_pos _)).trans_le
          (pow_lastDigit_succ_le hX hgt)
      cases xNegative
      · exact not_lt.2 hlarge.le
      · exact not_le.2 hlarge
    · rw [divCeil_eq] at hgt
      omega

/-! ## The results -/

/-- Subtracting the lowest bits from zero or from `2 ^ n` changes the sign of the number. -/
theorem signedValue_modEq {v : ℕ} {Z : Digits} {p e : ℕ} (hZ : value Z + v % p = p * e)
    (negative : Bool) :
    signedValue (!negative) Z ≡ (if negative then -(v : ℤ) else v) [ZMOD p] := by
  have hdiv : ((v % p : ℕ) : ℤ) + p * (v / p : ℕ) = v := by exact_mod_cast mod_add_div v p
  have hZ' : (value Z : ℤ) + (v % p : ℕ) = p * e := by exact_mod_cast hZ
  rw [Int.modEq_iff_dvd]
  cases negative with
  | false =>
    refine ⟨e + (v / p : ℕ), ?_⟩
    rw [Bool.not_false, signedValue_true, if_neg Bool.false_ne_true]
    linear_combination hZ' - hdiv
  | true =>
    refine ⟨-e - (v / p : ℕ), ?_⟩
    rw [Bool.not_true, signedValue_false, if_pos rfl]
    linear_combination -hZ' + hdiv

theorem modEq_of_value_eq {v p : ℕ} {Z : Digits} (h : value Z = v % p) :
    (value Z : ℤ) ≡ v [ZMOD p] := by
  rw [h, Int.natCast_mod]
  exact Int.mod_modEq _ _

/-- The special case of the least number: of the lowest bits only the sign bit is set. -/
theorem least_iff (n : ℕ) (d : Digit) {low : ℕ} (hlow : low < digitBase ^ lastDigit n)
    (hbit : d &&& (1 <<< UInt64.ofNat ((n - 1) % kDigitBits)) =
      1 <<< UInt64.ofNat ((n - 1) % kDigitBits)) :
    low + digitBase ^ lastDigit n * (d.toNat % 2 ^ lastBits n) =
        digitBase ^ lastDigit n * 2 ^ (lastBits n - 1) ↔
      d &&& ((1 <<< UInt64.ofNat ((n - 1) % kDigitBits)) - 1) = 0 ∧ low = 0 := by
  have hle := (and_compareDigit_iff n d).1 hbit
  have hpow : 2 ^ lastBits n = 2 ^ (lastBits n - 1) * 2 := by
    rw [← pow_succ, Nat.sub_add_cancel (lastBits_pos n)]
  have hmask : (d &&& ((1 <<< UInt64.ofNat ((n - 1) % kDigitBits)) - 1)).toNat =
      d.toNat % 2 ^ (lastBits n - 1) := toNat_and_mask d (mod_lt _ (by decide))
  have hsplit : d.toNat % 2 ^ lastBits n = 2 ^ (lastBits n - 1) + d.toNat % 2 ^ (lastBits n - 1) := by
    have hmul := mod_mul (x := d.toNat) (a := 2 ^ (lastBits n - 1)) (b := 2)
    rw [← hpow] at hmul
    rcases mod_two_eq_zero_or_one (d.toNat / 2 ^ (lastBits n - 1)) with h | h
    · rw [h] at hmul
      omega
    · grind
  rw [← UInt64.toNat_inj, hmask, UInt64.toNat_zero, hsplit]
  have hpos := digitBase_pow_pos (lastDigit n)
  constructor
  · intro h
    have hboth : low + digitBase ^ lastDigit n * (d.toNat % 2 ^ (lastBits n - 1)) = 0 := by grind
    rw [Nat.add_eq_zero_iff, Nat.mul_eq_zero] at hboth
    exact ⟨hboth.2.resolve_left hpos.ne', hboth.1⟩
  · rintro ⟨hd, rfl⟩
    rw [hd, Nat.zero_add, Nat.add_zero]

/-- **`AsIntN`** is the representative of the number modulo `2 ^ n` that has `n` bits with its
sign. -/
theorem asIntN_spec (hn : 0 < n) {xNegative : Bool}
    (hlen : asIntNResultLength X xNegative n = some ((divCeil n kDigitBits : ℕ) : ℤ))
    (hX : lastDigit n < X.length) (hZ : Z.length = divCeil n kDigitBits) :
    ∃ Z' negative, asIntN Z X xNegative n = some (Z', negative) ∧ Z'.length = Z.length ∧
      FitsIntN n (signedValue negative Z') ∧
      signedValue negative Z' ≡ signedValue xNegative X [ZMOD (2 ^ n : ℕ)] := by
  obtain ⟨d, hd⟩ : ∃ d, X[lastDigit n]? = some d := ⟨_, getElem?_eq_getElem hX⟩
  have hlow := value_take_lt X (lastDigit n)
  have hindex : divCeil n kDigitBits - 1 = lastDigit n := rfl
  have hpow : 2 ^ n = 2 * 2 ^ (n - 1) := by rw [← pow_succ', Nat.sub_add_cancel hn]
  have hhalf := Nat.two_pow_pos (n - 1)
  have hmod := value_mod_two_pow hn X
  rw [hd, getD_some] at hmod
  -- the bit decides whether the lowest bits are at least `2 ^ (n-1)`
  have hbit := and_compareDigit_iff n d
  rw [← mul_le_add_mul_iff hlow, ← two_pow_pred, ← hmod] at hbit
  have hneeded : (0 : ℤ) < (divCeil n kDigitBits : ℕ) := by rw [divCeil_eq]; omega
  simp only [asIntN, hlen, hindex, hd, dcheck_pos hneeded, bind_eq_bind, bind_some]
  by_cases hhas : 2 ^ (n - 1) ≤ value X % 2 ^ n
  · obtain ⟨W, hrun, hW, hWlt, e, he, hsum⟩ := truncateAndSubFromPowerOfTwo_spec hn X hZ
    have hsigned := signedValue_modEq hsum
    rw [if_neg (not_not.2 (hbit.2 hhas)), hrun, bind_some]
    have hvalue : value W + value X % 2 ^ n = 2 ^ n := by
      rcases le_one_iff_eq_zero_or_eq_one.1 he with rfl | rfl
      · omega
      · rw [hsum, Nat.mul_one]
    cases xNegative with
    | false =>
      refine ⟨W, true, rfl, hW, ?_, hsigned false⟩
      rw [fitsIntN_signedValue, if_pos rfl]
      omega
    | true =>
      have hleast := least_iff n d hlow (hbit.2 hhas)
      rw [← two_pow_pred, ← hmod] at hleast
      rw [if_neg (by decide)]
      by_cases heq : value X % 2 ^ n = 2 ^ (n - 1)
      · obtain ⟨hmask, hzero⟩ := hleast.1 heq
        refine ⟨W, true, ?_, hW, ?_, ?_⟩
        · rw [if_neg (not_not.2 hmask), if_neg (by rw [any_ne_zero_iff]; exact not_not.2 hzero)]
          rfl
        · rw [fitsIntN_signedValue, if_pos rfl]
          omega
        · exact (modEq_of_value_eq (by omega)).neg
      · refine ⟨W, false, ?_, hW, ?_, hsigned true⟩
        · by_cases hmask : d &&& ((1 <<< UInt64.ofNat ((n - 1) % kDigitBits)) - 1) = 0
          · rw [if_neg (not_not.2 hmask),
              if_pos ((any_ne_zero_iff _).2 fun hzero => heq (hleast.2 ⟨hmask, hzero⟩))]
            rfl
          · rw [if_pos hmask]
            rfl
        · rw [fitsIntN_signedValue, if_neg Bool.false_ne_true]
          omega
  · obtain ⟨W, hrun, hW, hvalue⟩ := truncateToNBits_spec hn hX hZ
    rw [if_pos (mt hbit.1 hhas), hrun, bind_some]
    refine ⟨W, xNegative, rfl, hW, ?_, ?_⟩
    · rw [fitsIntN_signedValue, hvalue]
      cases xNegative
      · exact not_le.1 hhas
      · exact (not_le.1 hhas).le
    · cases xNegative
      · exact modEq_of_value_eq hvalue
      · exact (modEq_of_value_eq hvalue).neg

/-- **`AsUintN_Pos`**, with its length function. -/
theorem asUintNPos_spec (hX : X.Normalized) (hn : 0 < n) :
    asUintNPosResultLength X n = some (-1) ∧ value X < 2 ^ n ∨
      asUintNPosResultLength X n = some ((divCeil n kDigitBits : ℕ) : ℤ) ∧ 2 ^ n ≤ value X ∧
        ∀ Z : Digits, Z.length = divCeil n kDigitBits → ∃ Z', asUintNPos Z X n = some Z' ∧
          Z'.length = Z.length ∧ value Z' = value X % 2 ^ n := by
  -- once the length is known to be that of the result, so is the result
  have hresult (hlen : asUintNPosResultLength X n = some ((divCeil n kDigitBits : ℕ) : ℤ))
      (hlast : lastDigit n < X.length) (Z : Digits) (hZ : Z.length = divCeil n kDigitBits) :
      ∃ Z', asUintNPos Z X n = some Z' ∧ Z'.length = Z.length ∧ value Z' = value X % 2 ^ n := by
    have hneeded : (0 : ℤ) < (divCeil n kDigitBits : ℕ) := by rw [divCeil_eq]; omega
    simp only [asUintNPos, hlen, dcheck_pos hneeded, Option.bind_eq_bind, Option.bind_some]
    exact truncateToNBits_spec hn hlast hZ
  rcases Nat.lt_trichotomy X.length (divCeil n kDigitBits) with hlt | heq | hgt
  · refine .inl ⟨by rw [asUintNPosResultLength, if_pos hlt]; rfl, ?_⟩
    rw [two_pow_bits hn]
    exact (value_lt_of_length_le (le_of_lt_succ hlt)).trans_le
      (Nat.le_mul_of_pos_right _ (Nat.two_pow_pos _))
  · obtain ⟨d, hd, hvalue⟩ := value_eq_of_length heq
    have hlast : lastDigit n < X.length := by rw [heq, divCeil_eq]; exact lt_succ_self _
    have hindex : divCeil n kDigitBits - 1 = lastDigit n := rfl
    have hcmp := mul_le_add_mul_iff (p := 2 ^ lastBits n) (q := d.toNat) (value_take_lt X (lastDigit n))
    rw [← two_pow_bits hn, ← hvalue] at hcmp
    by_cases h : lastBits n = kDigitBits
    · -- all the bits of the digit are wanted
      have h0 : n % kDigitBits = 0 := by rw [mod_kDigitBits hn, if_pos h]
      refine .inl ⟨?_, not_le.1 (mt hcmp.1 (not_le.2 (h ▸ digit_lt d)))⟩
      rw [asUintNPosResultLength, if_neg heq.not_lt, if_neg heq.symm.not_lt, if_pos h0]
      rfl
    · have hbits : n % kDigitBits = lastBits n := by rw [mod_kDigitBits hn, if_neg h]
      have h0 : ¬n % kDigitBits = 0 := hbits ▸ (lastBits_pos n).ne'
      have hshift : d >>> UInt64.ofNat (n % kDigitBits) = 0 ↔ d.toNat < 2 ^ lastBits n := by
        rw [← UInt64.toNat_inj, hbits, toNat_digit_shiftRight d (lt_of_le_of_ne (lastBits_le n) h),
          UInt64.toNat_zero, div_eq_zero_iff_lt (Nat.two_pow_pos _)]
      have hrun : asUintNPosResultLength X n =
          if d >>> UInt64.ofNat (n % kDigitBits) = 0 then some (-1)
          else some ((divCeil n kDigitBits : ℕ) : ℤ) := by
        rw [asUintNPosResultLength, if_neg heq.not_lt, if_neg heq.symm.not_lt, if_neg h0, hindex, hd]
        rfl
      by_cases hsmall : d.toNat < 2 ^ lastBits n
      · exact .inl ⟨by rw [hrun, if_pos (hshift.2 hsmall)], not_le.1 (mt hcmp.1 (not_le.2 hsmall))⟩
      · have hlen : asUintNPosResultLength X n = some ((divCeil n kDigitBits : ℕ) : ℤ) := by
          rw [hrun, if_neg (mt hshift.1 hsmall)]
        exact .inr ⟨hlen, hcmp.2 (not_lt.1 hsmall), hresult hlen hlast⟩
  · have hlen : asUintNPosResultLength X n = some ((divCeil n kDigitBits : ℕ) : ℤ) := by
      rw [asUintNPosResultLength, if_neg (by omega), if_pos hgt]
      rfl
    refine .inr ⟨hlen, ?_, hresult hlen (by rw [divCeil_eq] at hgt; omega)⟩
    rw [two_pow_bits hn]
    exact (Nat.mul_le_mul_left _ (Nat.pow_le_pow_right (by decide) (lastBits_le n))).trans
      (pow_lastDigit_succ_le hX hgt)

/-- **`AsUintN_Neg`**, with its length function. -/
theorem asUintNNeg_spec (hn : 0 < n) (X : Digits) (hZ : Z.length = asUintNNegResultLength n) :
    ∃ Z', asUintNNeg Z X n = some Z' ∧ Z'.length = Z.length ∧
      (value Z' : ℤ) = -(value X : ℤ) % (2 ^ n : ℕ) := by
  obtain ⟨Z', hrun, hlen, hlt, e, -, hsum⟩ := truncateAndSubFromPowerOfTwo_spec hn X hZ
  refine ⟨Z', hrun, hlen, ?_⟩
  have hmod : (value Z' : ℤ) ≡ -(value X : ℤ) [ZMOD (2 ^ n : ℕ)] := signedValue_modEq hsum true
  rw [← hmod, Int.emod_eq_of_lt (Int.natCast_nonneg _) (by exact_mod_cast hlt)]

/-! ## The whole -/

/-- What `AsIntNResultLength` and `AsIntN` owe their caller. -/
def AsIntNCorrect (X : Digits) (xNegative : Bool) (n : ℕ) : Prop :=
  ∃ len, asIntNResultLength X xNegative n = some len ∧
    (len = -1 ↔ FitsIntN n (signedValue xNegative X)) ∧
    (len ≠ -1 → ∀ Z : Digits, Z.length = len →
      ∃ Z' negative, asIntN Z X xNegative n = some (Z', negative) ∧ Z'.length = Z.length ∧
        FitsIntN n (signedValue negative Z') ∧
        signedValue negative Z' ≡ signedValue xNegative X [ZMOD (2 ^ n : ℕ)])

/-- What `AsUintN_Pos` and `AsUintN_Neg` owe it, for the number and for its negative. -/
def AsUintNCorrect (X : Digits) (n : ℕ) : Prop :=
  (∃ len, asUintNPosResultLength X n = some len ∧ (len = -1 ↔ value X < 2 ^ n) ∧
    (len ≠ -1 → ∀ Z : Digits, Z.length = len →
      ∃ Z', asUintNPos Z X n = some Z' ∧ Z'.length = Z.length ∧ value Z' = value X % 2 ^ n)) ∧
  ∀ Z : Digits, Z.length = asUintNNegResultLength n →
    ∃ Z', asUintNNeg Z X n = some Z' ∧ Z'.length = Z.length ∧
      (value Z' : ℤ) = -(value X : ℤ) % (2 ^ n : ℕ)

/-- What `RightShift_ResultLength` and `RightShift` owe it. A length of zero says that no digit
stays; the quotient is then `0` or `-1`. -/
def RightShiftCorrect (X : Digits) (xSign : Bool) (shift : Digit) : Prop :=
  ∃ len state, rightShiftResultLength X xSign shift = some (len, state) ∧
    (len = 0 ↔ X.length ≤ shift.toNat / kDigitBits) ∧
    (len = 0 → (signedValue xSign X).fdiv (2 ^ shift.toNat : ℕ) = if xSign then -1 else 0) ∧
    (len ≠ 0 → ∀ Z : Digits, Z.length = len →
      ∃ Z', rightShift Z X shift state = some Z' ∧ Z'.length = Z.length ∧
        signedValue xSign Z' = (signedValue xSign X).fdiv (2 ^ shift.toNat : ℕ))

theorem asIntN_correct (hX : X.Normalized) (xNegative : Bool) (hn : 0 < n) :
    AsIntNCorrect X xNegative n := by
  obtain ⟨hlen, hfits⟩ | ⟨hlen, hfits, hlast⟩ := asIntNResultLength_spec hX xNegative n
  · exact ⟨-1, hlen, iff_of_true rfl hfits, fun h => absurd rfl h⟩
  · refine ⟨_, hlen, iff_of_false (by omega) hfits, fun _ Z hZ => ?_⟩
    exact asIntN_spec hn hlen hlast (Int.ofNat_inj.1 hZ)

theorem asUintN_correct (hX : X.Normalized) (hn : 0 < n) : AsUintNCorrect X n := by
  refine ⟨?_, fun Z hZ => asUintNNeg_spec hn X hZ⟩
  obtain ⟨hlen, hsmall⟩ | ⟨hlen, hlarge, hrun⟩ := asUintNPos_spec hX hn
  · exact ⟨-1, hlen, iff_of_true rfl hsmall, fun h => absurd rfl h⟩
  · exact ⟨_, hlen, iff_of_false (by omega) (not_lt.2 hlarge),
      fun _ Z hZ => hrun Z (Int.ofNat_inj.1 hZ)⟩

theorem rightShift_correct (hX : X.Normalized) {xSign : Bool} (hne : xSign = true → X ≠ [])
    {shift : Digit} (hshift : shift.toNat / kDigitBits < 2 ^ 31) :
    RightShiftCorrect X xSign shift := by
  rcases Nat.lt_or_ge (shift.toNat / kDigitBits) X.length with h | h
  · obtain ⟨len, state, hlen, hpos, hrun⟩ := rightShift_spec xSign hshift h
    exact ⟨len, state, hlen, iff_of_false hpos.ne' (not_le.2 h), fun h0 => absurd h0 hpos.ne',
      fun _ Z hZ => hrun Z hZ⟩
  · obtain ⟨hlen, hquotient⟩ := rightShiftResultLength_of_le hX hne hshift h
    exact ⟨0, {}, hlen, iff_of_true rfl h, fun _ => hquotient, fun h0 => absurd rfl h0⟩

/-- **Truncation and right shift are exact** for every BigInt: a normalized magnitude and a sign,
which a zero does not have. -/
theorem truncation_and_rightShift (X : Digits) (xNegative : Bool) (n : ℕ) (shift : Digit)
    (hX : X.Normalized) (hne : xNegative = true → X ≠ []) (hn : 0 < n)
    (hshift : shift.toNat / kDigitBits < 2 ^ 31) :
    AsIntNCorrect X xNegative n ∧ AsUintNCorrect X n ∧ RightShiftCorrect X xNegative shift :=
  ⟨asIntN_correct hX xNegative hn, asUintN_correct hX hn, rightShift_correct hX hne hshift⟩

theorem truncation_and_rightShift_neg_twelve :
    AsIntNCorrect [12] true 3 ∧ AsUintNCorrect [12] 3 ∧ RightShiftCorrect [12] true 2 :=
  truncation_and_rightShift [12] true 3 2 (by decide) (by decide) (by decide) (by decide)

/-- The length zero is not that of a result: with it, and with the state that the length function
leaves, `-1 >> 64` would be `0`. -/
theorem rightShift_of_length_zero :
    rightShiftResultLength [1] true 64 = some (0, {}) ∧ rightShift [] [1] 64 {} = some [] ∧
      signedValue true [] ≠ (signedValue true [1]).fdiv (2 ^ 64 : ℕ) := by
  decide +kernel

end Digits
