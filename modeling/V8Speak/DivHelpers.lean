import V8Speak.RightShift

/-!
# Helpers of the division algorithms

`bigint/div-helpers.h` and `bigint/div-helpers.cc`: shifts by less than a
digit, and `ShiftedDigits`, a vector shifted to the left so that its first bit
is set. The shifts keep a `carry` of the bits that move from one digit to the
next. An in-place shift has the same result as one into fresh storage, and is
not distinguished from it.

The division of two digits by one is the instruction of the x64 processor,
which requires that the quotient is a digit.
-/

open Nat Option TwoDigit List

namespace Digits

/-! ## Digits -/

/-- `digit_div`: the quotient and the remainder. -/
def digitDiv (high low divisor : Digit) : Option (Digit × Digit) := do
  dcheck (high < divisor)
  dcheck (divisor ≠ 0)
  let dividend : TwoDigit := (ofDigit high <<< kDigitBits) ||| ofDigit low
  return (toDigit (dividend / ofDigit divisor), toDigit (dividend % ofDigit divisor))

theorem toNat_twoDigits (high low : Digit) :
    BitVec.toNat ((ofDigit high <<< kDigitBits) ||| ofDigit low) =
      high.toNat * digitBase + low.toNat := by
  have hhigh := high.toNat_lt
  rw [BitVec.toNat_or, BitVec.toNat_shiftLeft, toNat_ofDigit, toNat_ofDigit,
    shiftLeft_eq, mod_eq_of_lt (by rw [kDigitBits]; omega), Nat.mul_comm,
    ← two_pow_add_eq_or_of_lt (digit_lt low), Nat.mul_comm]
  rfl

/-- **Two digits by one.** -/
theorem digitDiv_spec {high low divisor : Digit} (h : high.toNat < divisor.toNat) :
    ∃ q r, digitDiv high low divisor = some (q, r) ∧ r.toNat < divisor.toNat ∧
      q.toNat = (high.toNat * digitBase + low.toNat) / divisor.toNat ∧
      q.toNat * divisor.toNat + r.toNat = high.toNat * digitBase + low.toNat := by
  have hpos : 0 < divisor.toNat := zero_lt_of_lt h
  have hlow := digit_lt low
  have hdivisor := digit_lt divisor
  have hquot : (high.toNat * digitBase + low.toNat) / divisor.toNat < 2 ^ 64 := by
    rw [Nat.div_lt_iff_lt_mul hpos]
    have := Nat.mul_le_mul_right digitBase (succ_le_of_lt h)
    rw [succ_mul] at this
    calc high.toNat * digitBase + low.toNat < high.toNat * digitBase + digitBase := by omega
      _ ≤ divisor.toNat * digitBase := this
      _ = 2 ^ 64 * divisor.toNat := Nat.mul_comm _ _
  have hrem : (high.toNat * digitBase + low.toNat) % divisor.toNat < 2 ^ 64 :=
    (mod_lt _ hpos).trans hdivisor
  have hne : divisor ≠ 0 := by
    rintro rfl
    exact absurd hpos (lt_irrefl _)
  refine ⟨_, _, by
    simp only [digitDiv, dcheck_pos (UInt64.lt_iff_toNat_lt.2 h), dcheck_pos hne,
      Option.bind_eq_bind, Option.bind_some]
    rfl, ?_⟩
  rw [toNat_toDigit, toNat_toDigit, BitVec.toNat_umod, BitVec.toNat_udiv,
    toNat_ofDigit, toNat_twoDigits, mod_eq_of_lt hquot, mod_eq_of_lt hrem]
  exact ⟨mod_lt _ hpos, rfl, div_add_mod' _ _⟩

def countLeadingZeros (d : Digit) : ℕ := kDigitBits - Nat.size d.toNat

/-- Shifted by its leading zeros a digit is at least half the base, and still a digit. -/
theorem countLeadingZeros_spec {d : Digit} (hd : d ≠ 0) :
    countLeadingZeros d < kDigitBits ∧ d.toNat < 2 ^ (kDigitBits - countLeadingZeros d) ∧
      digitBase ≤ 2 * (d.toNat * 2 ^ countLeadingZeros d) := by
  have hpos : 0 < d.toNat := by
    rw [Nat.pos_iff_ne_zero, Ne, ← UInt64.toNat_zero, UInt64.toNat_inj]
    exact hd
  have hsize : Nat.size d.toNat ≤ kDigitBits := size_le.2 (digit_lt d)
  have hsize0 : 0 < Nat.size d.toNat := size_pos.2 hpos
  have hle : 2 ^ (Nat.size d.toNat - 1) ≤ d.toNat := lt_size.1 (by omega)
  refine ⟨sub_lt (by decide) hsize0, ?_, ?_⟩
  · rw [countLeadingZeros, Nat.sub_sub_self hsize]
    exact lt_size_self _
  · calc digitBase = 2 * (2 ^ (Nat.size d.toNat - 1) * 2 ^ (kDigitBits - Nat.size d.toNat)) := by
          rw [← pow_add, ← pow_succ', digitBase]
          congr 1
          omega
      _ ≤ 2 * (d.toNat * 2 ^ countLeadingZeros d) :=
          Nat.mul_le_mul_left 2 (Nat.mul_le_mul_right _ hle)

end Digits

namespace DivHelpers

open Digits

/-! ## Shifts -/

/-- The loop of `LeftShift`: the digits stored, and the last carry. -/
def leftShiftLoop (shift : ℕ) : Digits → Digit → Digits × Digit
  | [], carry => ([], carry)
  | d :: X, carry =>
    let (Z, last) := leftShiftLoop shift X (d >>> UInt64.ofNat (kDigitBits - shift))
    (((d <<< UInt64.ofNat shift) ||| carry) :: Z, last)

/-- `LeftShift`: `Z := X << shift`. -/
def leftShift (Z X : Digits) (shift : ℕ) : Option Digits := do
  dcheck (shift < kDigitBits)
  dcheck (X.length ≤ Z.length)
  if shift = 0 then store Z X
  else
    let (digits, carry) := leftShiftLoop shift X 0
    if X.length < Z.length then store Z (digits ++ [carry])
    else
      dcheck (carry = 0)
      store Z digits

/-- `RightShift`: `Z := X >> shift`. -/
def rightShift (Z X : Digits) (shift : ℕ) : Option Digits := do
  dcheck (shift < kDigitBits)
  let X := normalize X
  dcheck (X.length ≤ Z.length)
  if shift = 0 then store Z X
  else
    match X with
    | [] => store Z []
    | d :: X => store Z (shiftRightLoop shift X (d >>> UInt64.ofNat shift))

/-- The constructor of `ShiftedDigits`: the shifted digits, and the shift, which is that of the
leading zeros if none is given. -/
def shiftedDigits (original : Digits) (shift : Option ℕ) : Option (Digits × ℕ) := do
  let msd ← original.getLast?
  let leadingZeros := countLeadingZeros msd
  let shift := shift.getD leadingZeros
  if shift = 0 then return (original, 0)
  let len := if leadingZeros < shift then original.length + 1 else original.length
  let digits ← leftShift (replicate len 0) original shift
  return (digits, shift)

theorem length_leftShiftLoop (shift : ℕ) (X : Digits) (carry : Digit) :
    (leftShiftLoop shift X carry).1.length = X.length := by
  induction X generalizing carry with
  | nil => rfl
  | cons d X ih => rw [leftShiftLoop, length_cons, length_cons, ih]

/-- **The bits that leave one digit enter the next.** -/
theorem value_leftShiftLoop {shift : ℕ} (h0 : 0 < shift) (h : shift < kDigitBits) (X : Digits)
    {carry : Digit} (hcarry : carry.toNat < 2 ^ shift) :
    value (leftShiftLoop shift X carry).1 +
        digitBase ^ X.length * (leftShiftLoop shift X carry).2.toNat =
      value X * 2 ^ shift + carry.toNat := by
  induction X generalizing carry with
  | nil =>
    rw [leftShiftLoop, value_nil, length_nil, pow_zero, Nat.one_mul, Nat.zero_mul]
  | cons d X ih =>
    have hlt : kDigitBits - shift < kDigitBits := sub_lt (by decide) h0
    have hsub : kDigitBits - (kDigitBits - shift) = shift := Nat.sub_sub_self h.le
    have hhigh := toNat_digit_shiftRight d hlt
    have hcarry' : (d >>> UInt64.ofNat (kDigitBits - shift)).toNat < 2 ^ shift := by
      rw [hhigh, Nat.div_lt_iff_lt_mul (Nat.two_pow_pos _), ← pow_add, Nat.add_sub_cancel' h.le]
      exact digit_lt d
    -- the lower bits of the digit, and the carry below them
    have hdigit : ((d <<< UInt64.ofNat shift) ||| carry).toNat =
        2 ^ shift * (d.toNat % 2 ^ (kDigitBits - shift)) + carry.toNat := by
      rw [← hsub] at hcarry
      have hor := toNat_shiftLeft_or d (Nat.sub_pos_of_lt h) hlt hcarry
      rwa [hsub] at hor
    have hsplit : digitBase = 2 ^ shift * 2 ^ (kDigitBits - shift) := by
      rw [digitBase, ← pow_add, Nat.add_sub_cancel' h.le]
    have hdiv := mod_add_div d.toNat (2 ^ (kDigitBits - shift))
    have hrest := ih hcarry'
    rw [leftShiftLoop, value_cons, length_cons, value_cons, hdigit]
    rw [hhigh] at hrest
    linear_combination digitBase * hrest + 2 ^ shift * hdiv +
      (d.toNat / 2 ^ (kDigitBits - shift) : ℕ) * hsplit

/-- **`LeftShift`**, into a vector that has room for the product. -/
theorem leftShift_spec {Z X : Digits} {shift : ℕ} (h : shift < kDigitBits)
    (hlen : X.length ≤ Z.length) (hroom : value X * 2 ^ shift < digitBase ^ Z.length) :
    ∃ Z', leftShift Z X shift = some Z' ∧ Z'.length = Z.length ∧
      value Z' = value X * 2 ^ shift := by
  rw [leftShift, dcheck_pos h, Option.bind_eq_bind, Option.bind_some, dcheck_pos hlen,
    Option.bind_some]
  rcases Nat.eq_zero_or_pos shift with rfl | h0
  · rw [if_pos rfl, pow_zero, Nat.mul_one]
    exact store_of_le hlen
  · have hspec := value_leftShiftLoop h0 h X (show (0 : Digit).toNat < 2 ^ shift from Nat.two_pow_pos _)
    have hlength := length_leftShiftLoop shift X 0
    rw [if_neg h0.ne']
    generalize leftShiftLoop shift X 0 = run at *
    obtain ⟨digits, carry⟩ := run
    rw [UInt64.toNat_zero, Nat.add_zero] at hspec
    dsimp only at hspec hlength ⊢
    by_cases hlt : X.length < Z.length
    · rw [if_pos hlt, ← hspec]
      obtain ⟨Z', hstore, hZ', hvalue⟩ := store_of_le (show (digits ++ [carry]).length ≤ Z.length by
        rw [length_append, hlength]; exact hlt)
      refine ⟨Z', hstore, hZ', ?_⟩
      rw [hvalue, value_append, hlength, value_cons, value_nil, Nat.mul_zero, Nat.add_zero]
    · rw [show Z.length = X.length by omega] at hroom
      have hcarry : carry.toNat = 0 := by
        refine Nat.lt_one_iff.mp (Nat.lt_of_mul_lt_mul_left (a := digitBase ^ X.length) ?_)
        omega
      rw [if_neg hlt, dcheck_pos (UInt64.toNat_inj.mp hcarry), ← hspec, hcarry, Nat.mul_zero,
        Nat.add_zero]
      exact store_of_le (hlength.trans_le hlen)

/-- **`RightShift`**, into a vector that has room for the operand. -/
theorem rightShift_spec {Z X : Digits} {shift : ℕ} (h : shift < kDigitBits)
    (hlen : (normalize X).length ≤ Z.length) :
    ∃ Z', rightShift Z X shift = some Z' ∧ Z'.length = Z.length ∧
      value Z' = value X / 2 ^ shift := by
  rw [rightShift, dcheck_pos h, bind_eq_bind, bind_some, ← value_normalize X]
  dsimp only
  rw [dcheck_pos hlen, bind_some]
  rcases Nat.eq_zero_or_pos shift with rfl | h0
  · rw [if_pos rfl, pow_zero, Nat.div_one]
    exact store_of_le hlen
  · rw [if_neg h0.ne']
    generalize normalize X = Y at hlen ⊢
    cases Y with
    | nil =>
      rw [value_nil, Nat.zero_div]
      exact store_of_le hlen
    | cons d Y =>
      have hfits : (shiftRightLoop shift Y (d >>> UInt64.ofNat shift)).length ≤ Z.length := by
        rwa [length_shiftRightLoop]
      obtain ⟨Z', hstore, hZ', hvalue⟩ := store_of_le hfits
      exact ⟨Z', hstore, hZ', by rw [hvalue, value_shiftRight_cons h0 h]⟩

/-- **A vector without leading zero bits.** -/
theorem shiftedDigits_spec {B : Digits} (hB : B.Normalized) (hne : B ≠ []) :
    ∃ V shift, shiftedDigits B none = some (V, shift) ∧ shift < kDigitBits ∧ V.length = B.length ∧
      value V = value B * 2 ^ shift ∧ digitBase ^ B.length ≤ 2 * value V := by
  obtain ⟨init, d, rfl⟩ : ∃ init d, B = init ++ [d] :=
    ⟨B.dropLast, B.getLast hne, (dropLast_append_getLast hne).symm⟩
  have hlast : (init ++ [d]).getLast? = some d := getLast?_concat
  have hd : d ≠ 0 := fun h0 => hB (by rw [hlast, h0])
  obtain ⟨hlt, hsmall, hlarge⟩ := countLeadingZeros_spec hd
  have hinit := value_lt init
  have hvalue : value (init ++ [d]) = value init + digitBase ^ init.length * d.toNat := by
    rw [value_append, value_cons, value_nil, Nat.mul_zero, Nat.add_zero]
  have hlength : digitBase ^ (init ++ [d]).length = digitBase ^ init.length * digitBase := by
    rw [length_append, length_singleton, pow_succ]
  have hroom : value (init ++ [d]) * 2 ^ countLeadingZeros d <
      digitBase ^ (init ++ [d]).length := by
    have hsucc : value (init ++ [d]) < digitBase ^ init.length * (d.toNat + 1) := by
      rw [hvalue, mul_succ]
      omega
    calc value (init ++ [d]) * 2 ^ countLeadingZeros d
        < digitBase ^ init.length * (d.toNat + 1) * 2 ^ countLeadingZeros d :=
          Nat.mul_lt_mul_of_pos_right hsucc (Nat.two_pow_pos _)
      _ ≤ digitBase ^ init.length * 2 ^ (kDigitBits - countLeadingZeros d) * 2 ^ countLeadingZeros d :=
          Nat.mul_le_mul_right _ (Nat.mul_le_mul_left _ hsmall)
      _ = digitBase ^ (init ++ [d]).length := by
          rw [hlength, Nat.mul_assoc, ← pow_add, Nat.sub_add_cancel hlt.le]
          rfl
  have hhalf : digitBase ^ (init ++ [d]).length ≤
      2 * (value (init ++ [d]) * 2 ^ countLeadingZeros d) := by
    calc digitBase ^ (init ++ [d]).length
        ≤ digitBase ^ init.length * (2 * (d.toNat * 2 ^ countLeadingZeros d)) := by
          rw [hlength]
          exact Nat.mul_le_mul_left _ hlarge
      _ = 2 * (digitBase ^ init.length * d.toNat * 2 ^ countLeadingZeros d) := by ring
      _ ≤ 2 * (value (init ++ [d]) * 2 ^ countLeadingZeros d) := by
          refine Nat.mul_le_mul_left 2 (Nat.mul_le_mul_right _ ?_)
          rw [hvalue]
          exact Nat.le_add_left _ _
  rw [shiftedDigits, hlast, Option.bind_eq_bind, Option.bind_some]
  dsimp only [getD_none]
  by_cases h0 : countLeadingZeros d = 0
  · rw [h0, pow_zero, Nat.mul_one] at hhalf
    exact ⟨init ++ [d], 0, if_pos h0, by decide, rfl, by rw [pow_zero, Nat.mul_one], hhalf⟩
  · obtain ⟨V, hrun, hV, hval⟩ := leftShift_spec (Z := replicate (init ++ [d]).length 0) hlt
      (length_replicate).ge (by rwa [length_replicate])
    refine ⟨V, countLeadingZeros d, ?_, hlt, hV.trans length_replicate, hval, ?_⟩
    · rw [if_neg h0, if_neg (lt_irrefl _), hrun]
      rfl
    · rw [hval]
      exact hhalf

end DivHelpers
