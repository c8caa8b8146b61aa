import V8Speak.VectorArithmetic

/-!
# The signed right shift

`x >> s` is `⌊x / 2 ^ s⌋` for a BigInt of either sign. The library
(`bigint/bitwise.cc`) shifts the magnitude, which rounds towards zero, and
corrects a negative number by adding one to the result if a bit that is set
was shifted out. `RightShift_ResultLength` finds that out before the result is
allocated, as the correction may need one more digit: it does so only if the
shift is by whole digits and all the digits that stay are at their maximum,
of which the function looks at the first one.

If no digit stays, the length is zero, also for a negative number, whose
result is `-1`. `RightShift` is not called then: its caller
`MutableBigInt::RightShiftByAbsolute` (`objects/bigint.cc`) knows the result.

The number of digits to drop is `static_cast<int>(shift / kDigitBits)`. The
conversion is kept in the model; it changes nothing up to shifts by `2 ^ 37`,
far above `kMaxLengthBits`.
-/

open List Nat Option

namespace Digits

/-! ## The functions -/

/-- `static_cast<int>(shift / kDigitBits)`. -/
def digitShift (shift : Digit) : ℤ := (BitVec.ofNat 32 (shift.toNat / kDigitBits)).toInt

/-- `static_cast<int>(shift % kDigitBits)`. -/
def bitsShift (shift : Digit) : ℕ := shift.toNat % kDigitBits

/-- An `int` as the index of a digit. -/
def index (i : ℤ) : Option ℕ := if 0 ≤ i then some i.toNat else none

structure RightShiftState where
  mustRoundDown : Bool := false
  deriving DecidableEq, Repr

/-- Whether a bit that is set is shifted out: in the digit `X[digit_shift]`, under the mask, or in
one of the digits below it. -/
def shiftsOut (X : Digits) (shift : Digit) : Option Bool := do
  let i ← index (digitShift shift)
  let d ← X[i]?
  let mask : Digit := (1 <<< UInt64.ofNat (bitsShift shift)) - 1
  if d &&& mask ≠ 0 then return true
  return (X.take i).any (· ≠ 0)

/-- Whether the result has to be rounded: only that of a negative number. -/
def mustRoundDown (X : Digits) (xSign : Bool) (shift : Digit) : Option Bool :=
  if xSign then shiftsOut X shift else some false

def rightShiftResultLength (X : Digits) (xSign : Bool) (shift : Digit) :
    Option (ℤ × RightShiftState) := do
  let resultLength : ℤ := X.length - digitShift shift
  if resultLength ≤ 0 then return (0, {})
  let roundDown ← mustRoundDown X xSign shift
  if roundDown = true ∧ bitsShift shift = 0 then
    let msd ← X.getLast?
    -- `digit_ismax(X.msd())`: the most significant digit has no unset bit
    return (if ~~~msd = 0 then resultLength + 1 else resultLength, ⟨roundDown⟩)
  return (resultLength, ⟨roundDown⟩)

/-- The loop of `RightShift` over the digits above the first one that stays, with its bits in
`carry`, and the last store `Z[i++] = carry`. -/
def shiftRightLoop (bits : ℕ) : Digits → Digit → Digits
  | [], carry => [carry]
  | d :: X, carry =>
    ((d <<< UInt64.ofNat (kDigitBits - bits)) ||| carry) ::
      shiftRightLoop bits X (d >>> UInt64.ofNat bits)

/-- The digits that `RightShift` stores before it rounds. -/
def shiftedDigits (X : Digits) (shift : Digit) : Option Digits := do
  let i ← index (digitShift shift)
  if bitsShift shift = 0 then return X.drop i
  match X.drop i with
  | [] => none
  | d :: X => return shiftRightLoop (bitsShift shift) X (d >>> UInt64.ofNat (bitsShift shift))

def rightShift (Z X : Digits) (shift : Digit) (state : RightShiftState) : Option Digits := do
  let digits ← shiftedDigits X shift
  let Z ← store Z digits
  if state.mustRoundDown then addDigit Z 1 else return Z

/-! ## The magnitude -/

theorem bitsShift_lt (shift : Digit) : bitsShift shift < kDigitBits := mod_lt _ (by decide)

theorem digitShift_eq {shift : Digit} (h : shift.toNat / kDigitBits < 2 ^ 31) :
    digitShift shift = (shift.toNat / kDigitBits : ℕ) := by
  rw [digitShift]
  generalize shift.toNat / kDigitBits = i at h ⊢
  rw [BitVec.toInt_ofNat', Int.bmod_eq_of_le] <;> omega

theorem index_digitShift {shift : Digit} (h : shift.toNat / kDigitBits < 2 ^ 31) :
    index (digitShift shift) = some (shift.toNat / kDigitBits) := by
  rw [digitShift_eq h, index, if_pos (Int.natCast_nonneg _), Int.toNat_natCast]

/-- A shift is by whole digits and by some bits. -/
theorem two_pow_shift (shift : Digit) :
    2 ^ shift.toNat = digitBase ^ (shift.toNat / kDigitBits) * 2 ^ bitsShift shift := by
  rw [digitBase, ← pow_mul, ← pow_add, bitsShift, div_add_mod]

/-- One step of the loop: the lower bits of the digit move up, and the bits of the digit before are
below them. -/
theorem toNat_shiftLeft_or (d : Digit) {carry : Digit} {bits : ℕ} (h0 : 0 < bits)
    (h : bits < kDigitBits) (hcarry : carry.toNat < 2 ^ (kDigitBits - bits)) :
    ((d <<< UInt64.ofNat (kDigitBits - bits)) ||| carry).toNat =
      2 ^ (kDigitBits - bits) * (d.toNat % 2 ^ bits) + carry.toNat := by
  have hsplit : digitBase = 2 ^ (kDigitBits - bits) * 2 ^ bits := by
    rw [digitBase, ← pow_add, Nat.sub_add_cancel h.le]
  rw [UInt64.toNat_or, toNat_digit_shiftLeft _ (by omega), hsplit, mul_comm d.toNat,
    mul_mod_mul_left, two_pow_add_eq_or_of_lt hcarry]

theorem value_shiftRightLoop {bits : ℕ} (h0 : 0 < bits) (h : bits < kDigitBits) (X : Digits)
    {carry : Digit} (hcarry : carry.toNat < 2 ^ (kDigitBits - bits)) :
    value (shiftRightLoop bits X carry) = carry.toNat + 2 ^ (kDigitBits - bits) * value X := by
  induction X generalizing carry with
  | nil => rw [shiftRightLoop, value_cons]; rfl
  | cons d X ih =>
    have hd : (d >>> UInt64.ofNat bits).toNat = d.toNat / 2 ^ bits := toNat_digit_shiftRight d h
    have hlt : (d >>> UInt64.ofNat bits).toNat < 2 ^ (kDigitBits - bits) := by
      rw [hd, Nat.div_lt_iff_lt_mul (Nat.two_pow_pos _), ← pow_add, Nat.sub_add_cancel h.le]
      exact digit_lt d
    have hsplit : digitBase = 2 ^ (kDigitBits - bits) * 2 ^ bits := by
      rw [digitBase, ← pow_add, Nat.sub_add_cancel h.le]
    have hdiv := mod_add_div d.toNat (2 ^ bits)
    rw [shiftRightLoop, value_cons, ih hlt, toNat_shiftLeft_or d h0 h hcarry, value_cons, hd]
    linear_combination 2 ^ (kDigitBits - bits) * hdiv + (d.toNat / 2 ^ bits : ℕ) * hsplit

/-- The whole of a vector, with its first digit as the first carry. -/
theorem value_shiftRight_cons {bits : ℕ} (h0 : 0 < bits) (h : bits < kDigitBits) (d : Digit)
    (X : Digits) :
    value (shiftRightLoop bits X (d >>> UInt64.ofNat bits)) = value (d :: X) / 2 ^ bits := by
  have hd := toNat_digit_shiftRight d h
  have hsplit : digitBase = 2 ^ (kDigitBits - bits) * 2 ^ bits := by
    rw [digitBase, ← pow_add, Nat.sub_add_cancel h.le]
  rw [value_shiftRightLoop h0 h, hd, value_cons, hsplit, mul_right_comm,
    add_mul_div_right _ _ (Nat.two_pow_pos _)]
  rw [hd, Nat.div_lt_iff_lt_mul (Nat.two_pow_pos _), ← pow_add, Nat.sub_add_cancel h.le]
  exact digit_lt d

theorem length_shiftRightLoop (bits : ℕ) (X : Digits) (carry : Digit) :
    (shiftRightLoop bits X carry).length = X.length + 1 := by
  induction X generalizing carry with
  | nil => rfl
  | cons d X ih => rw [shiftRightLoop, length_cons, ih, length_cons]

variable {X Z : Digits} {shift : Digit}

/-- **The magnitude is shifted.** -/
theorem shiftedDigits_spec (hshift : shift.toNat / kDigitBits < 2 ^ 31)
    (h : shift.toNat / kDigitBits < X.length) :
    ∃ digits, shiftedDigits X shift = some digits ∧
      digits.length = X.length - shift.toNat / kDigitBits ∧
      value digits = value X / 2 ^ shift.toNat := by
  have hvalue : value X / 2 ^ shift.toNat =
      value (X.drop (shift.toNat / kDigitBits)) / 2 ^ bitsShift shift := by
    rw [two_pow_shift, ← Nat.div_div_eq_div_mul, value_drop]
  rw [shiftedDigits, index_digitShift hshift, Option.bind_eq_bind, Option.bind_some, hvalue,
    ← length_drop]
  by_cases h0 : bitsShift shift = 0
  · exact ⟨_, if_pos h0, rfl, by rw [h0, pow_zero, Nat.div_one]⟩
  · rw [if_neg h0]
    obtain ⟨d, rest, hdrop⟩ := exists_cons_of_ne_nil
      (ne_nil_of_length_pos (by rw [length_drop]; omega :
        0 < (X.drop (shift.toNat / kDigitBits)).length))
    have hlt := bitsShift_lt shift
    rw [hdrop]
    exact ⟨_, rfl, length_shiftRightLoop _ _ _,
      value_shiftRight_cons (Nat.pos_of_ne_zero h0) hlt d rest⟩

/-! ## The rounding -/

theorem any_ne_zero_iff (X : Digits) : X.any (· ≠ 0) = true ↔ value X ≠ 0 := by
  refine ⟨fun h h0 => ?_, fun h => ?_⟩
  · obtain ⟨d, hd, hne⟩ := any_eq_true.mp h
    exact absurd (eq_zero_of_value_eq_zero h0 d hd) (by simpa using hne)
  · by_contra hnot
    refine h ?_
    rw [eq_replicate_of_mem (l := X) fun d hd => ?_, value_replicate_zero]
    by_contra hne
    exact hnot (any_eq_true.mpr ⟨d, hd, by simpa using hne⟩)

theorem toNat_one_shiftLeft {bits : ℕ} (h : bits < kDigitBits) :
    (1 <<< UInt64.ofNat bits : Digit).toNat = 2 ^ bits := by
  rw [toNat_digit_shiftLeft 1 h, UInt64.toNat_one, Nat.one_mul]
  exact mod_eq_of_lt (Nat.pow_lt_pow_right (by decide) h)

/-- The bits under the mask are the remainder. -/
theorem toNat_and_mask (d : Digit) {bits : ℕ} (h : bits < kDigitBits) :
    (d &&& ((1 <<< UInt64.ofNat bits) - 1)).toNat = d.toNat % 2 ^ bits := by
  have hone := toNat_one_shiftLeft h
  have hmask : ((1 <<< UInt64.ofNat bits) - 1 : Digit).toNat = 2 ^ bits - 1 := by
    rw [UInt64.toNat_sub_of_le _ _ (by
      rw [UInt64.le_iff_toNat_le, hone]; exact Nat.one_le_two_pow), hone]
    rfl
  rw [UInt64.toNat_and, hmask, and_two_pow_sub_one_eq_mod]

/-- **The lower bits of a vector** are its lower digits and some bits of the next one. -/
theorem value_mod (X : Digits) {i bits : ℕ} (h : bits ≤ kDigitBits) :
    value X % (digitBase ^ i * 2 ^ bits) =
      value (X.take i) + digitBase ^ i * ((X[i]?.getD 0).toNat % 2 ^ bits) := by
  have hdvd : digitBase = 2 ^ bits * 2 ^ (kDigitBits - bits) := by
    rw [digitBase, ← pow_add, Nat.add_sub_cancel' h]
  rw [mod_mul, ← value_drop, ← value_take]
  congr 2
  rcases Nat.lt_or_ge i X.length with hi | hi
  · rw [drop_eq_getElem_cons hi, value_cons, getElem?_eq_getElem hi, getD_some, hdvd,
      mul_assoc, add_mul_mod_self_left]
  · rw [drop_eq_nil_of_le hi, getElem?_eq_none hi]
    rfl

/-- **A bit is shifted out** if the number is not a multiple of the power. -/
theorem shiftsOut_spec (hshift : shift.toNat / kDigitBits < 2 ^ 31)
    (h : shift.toNat / kDigitBits < X.length) :
    shiftsOut X shift = some (decide (value X % 2 ^ shift.toNat ≠ 0)) := by
  have hbits := bitsShift_lt shift
  set i := shift.toNat / kDigitBits with hi
  obtain ⟨d, hd⟩ : ∃ d, X[i]? = some d := ⟨_, getElem?_eq_getElem h⟩
  have hmod : value X % 2 ^ shift.toNat =
      value (X.take i) + digitBase ^ i * (d.toNat % 2 ^ bitsShift shift) := by
    rw [two_pow_shift, value_mod X hbits.le, hd, getD_some]
  rw [shiftsOut, index_digitShift hshift, Option.bind_eq_bind, Option.bind_some, ← hi, hd,
    Option.bind_eq_bind, Option.bind_some, hmod]
  have hmask : d &&& ((1 <<< UInt64.ofNat (bitsShift shift)) - 1) = 0 ↔
      d.toNat % 2 ^ bitsShift shift = 0 := by
    rw [← UInt64.toNat_inj, toNat_and_mask d hbits, UInt64.toNat_zero]
  by_cases hd0 : d.toNat % 2 ^ bitsShift shift = 0
  · rw [if_neg (not_not.2 (hmask.2 hd0)), hd0, Nat.mul_zero, Nat.add_zero]
    exact congrArg some (Bool.eq_iff_iff.2 ((any_ne_zero_iff _).trans decide_eq_true_iff.symm))
  · rw [if_pos (mt hmask.1 hd0)]
    refine congrArg some (decide_eq_true ?_).symm
    have := Nat.mul_pos (digitBase_pow_pos i) (Nat.pos_of_ne_zero hd0)
    omega

/-- A negative number is rounded away from zero unless the division is exact. -/
theorem fdiv_signedValue (negative : Bool) (X : Digits) {p : ℕ} (hp : 0 < p) :
    (signedValue negative X).fdiv p =
      if negative then -((value X / p + if value X % p ≠ 0 then 1 else 0 : ℕ) : ℤ)
      else (value X / p : ℕ) := by
  rw [Int.fdiv_eq_ediv_of_nonneg _ (Int.natCast_nonneg p)]
  cases negative with
  | false => exact (Int.natCast_ediv (value X) p).symm
  | true =>
    have hp' : (0 : ℤ) < p := Int.natCast_pos.2 hp
    have hdiv : ((value X % p : ℕ) : ℤ) + p * (value X / p : ℕ) = value X := by
      exact_mod_cast mod_add_div (value X) p
    have hlt : ((value X % p : ℕ) : ℤ) < p := by exact_mod_cast mod_lt _ hp
    rw [signedValue_true, if_pos rfl]
    by_cases h0 : value X % p = 0
    · rw [if_neg (not_not.2 h0), Nat.add_zero]
      rw [h0] at hdiv
      refine ((Int.ediv_emod_unique hp').2 ⟨?_, le_rfl, hp'⟩).1
      linear_combination -hdiv
    · rw [if_pos h0]
      refine ((Int.ediv_emod_unique (r := p - (value X % p : ℕ)) hp').2 ⟨?_, ?_, ?_⟩).1
      · push_cast at hdiv ⊢
        linear_combination -hdiv
      · omega
      · omega

/-- A vector whose first digit is not at its maximum has room for a carry. -/
theorem value_add_one_lt {X : Digits} {d : Digit} (hlast : X.getLast? = some d) (hd : ~~~d ≠ 0) :
    value X + 1 < digitBase ^ X.length := by
  obtain ⟨init, rfl⟩ := getLast?_eq_some_iff.1 hlast
  have hmax : d.toNat + 1 < digitBase := by
    refine lt_of_le_of_ne (digit_lt d) fun heq => hd (UInt64.toNat_inj.mp ?_)
    have hnot : (~~~d).toNat = digitBase - 1 - d.toNat := by
      rw [← UInt64.toNat_toBitVec, UInt64.toBitVec_not, BitVec.toNat_not, UInt64.toNat_toBitVec]
      rfl
    rw [hnot, UInt64.toNat_zero]
    omega
  have hinit := value_lt init
  have hpos := digitBase_pow_pos init.length
  calc value (init ++ [d]) + 1 = value init + 1 + digitBase ^ init.length * d.toNat := by
        rw [value_append, value_cons, value_nil, Nat.mul_zero]
        ring
    _ ≤ digitBase ^ init.length * 1 + digitBase ^ init.length * d.toNat := by omega
    _ = digitBase ^ init.length * (d.toNat + 1) := by rw [← Nat.mul_add, Nat.add_comm]
    _ < digitBase ^ init.length * digitBase := Nat.mul_lt_mul_of_pos_left hmax hpos
    _ = digitBase ^ (init ++ [d]).length := by
        rw [length_append, length_singleton, pow_succ]

/-- A shift that is not by whole digits frees a bit. -/
theorem div_add_one_lt {v k bits : ℕ} (h : v < digitBase ^ k) (hbits : bits ≠ 0) (hk : k ≠ 0) :
    v / 2 ^ bits + 1 < digitBase ^ k := by
  have hle : v / 2 ^ bits ≤ v / 2 := by
    refine div_le_div_left ?_ (by decide)
    calc 2 = 2 ^ 1 := rfl
      _ ≤ 2 ^ bits := Nat.pow_le_pow_right (by decide) (one_le_iff_ne_zero.2 hbits)
  obtain ⟨c, hc⟩ : 2 ∣ digitBase ^ k := dvd_pow ⟨2 ^ 63, rfl⟩ hk
  have hpos := digitBase_pow_pos k
  omega

/-- **The predicted length and state**: whether the magnitude has to be rounded up, and a length
that leaves room for that. -/
theorem rightShiftResultLength_spec (xSign : Bool) (hshift : shift.toNat / kDigitBits < 2 ^ 31)
    (h : shift.toNat / kDigitBits < X.length) :
    ∃ (len : ℕ) (roundDown : Bool),
      rightShiftResultLength X xSign shift = some ((len : ℤ), ⟨roundDown⟩) ∧
      X.length - shift.toNat / kDigitBits ≤ len ∧
      roundDown = (xSign && decide (value X % 2 ^ shift.toNat ≠ 0)) ∧
      (roundDown = true → value X / 2 ^ shift.toNat + 1 < digitBase ^ len) := by
  have hlt : value (X.drop (shift.toNat / kDigitBits)) <
      digitBase ^ (X.length - shift.toNat / kDigitBits) := by
    rw [← length_drop]
    exact value_lt _
  have hvalue : value X / 2 ^ shift.toNat =
      value (X.drop (shift.toNat / kDigitBits)) / 2 ^ bitsShift shift := by
    rw [two_pow_shift, ← Nat.div_div_eq_div_mul, value_drop]
  have hround : mustRoundDown X xSign shift =
      some (xSign && decide (value X % 2 ^ shift.toNat ≠ 0)) := by
    cases xSign
    · rfl
    · exact shiftsOut_spec hshift h
  have hstays : ¬((X.length : ℤ) - (shift.toNat / kDigitBits : ℕ) ≤ 0) :=
    not_le.2 (sub_pos.2 (Int.ofNat_lt.2 h))
  rw [rightShiftResultLength, digitShift_eq hshift, if_neg hstays, hround, Option.bind_eq_bind,
    Option.bind_some, hvalue]
  generalize (xSign && decide (value X % 2 ^ shift.toNat ≠ 0)) = roundDown
  have hlength : (X.length : ℤ) - (shift.toNat / kDigitBits : ℕ) =
      ((X.length - shift.toNat / kDigitBits : ℕ) : ℤ) := (cast_sub h.le).symm
  rw [hlength]
  by_cases hcheck : roundDown = true ∧ bitsShift shift = 0
  · obtain ⟨msd, hmsd⟩ : ∃ msd, X.getLast? = some msd :=
      ⟨_, getLast?_eq_some_getLast (ne_nil_of_length_pos (zero_lt_of_lt h))⟩
    rw [if_pos hcheck, hmsd, Option.bind_eq_bind, Option.bind_some, hcheck.2, pow_zero, Nat.div_one]
    by_cases hmax : ~~~msd = 0
    · refine ⟨X.length - shift.toNat / kDigitBits + 1, roundDown, ?_, le_succ _, rfl, fun _ => ?_⟩
      · rw [if_pos hmax]; rfl
      · exact lt_of_le_of_lt hlt (Nat.pow_lt_pow_succ one_lt_digitBase)
    · refine ⟨X.length - shift.toNat / kDigitBits, roundDown, ?_, le_rfl, rfl, fun _ => ?_⟩
      · rw [if_neg hmax]; rfl
      · rw [← length_drop]
        exact value_add_one_lt (by rw [getLast?_drop, if_neg (by omega), hmsd]) hmax
  · rw [if_neg hcheck]
    refine ⟨X.length - shift.toNat / kDigitBits, roundDown, rfl, le_rfl, rfl, fun hdown => ?_⟩
    exact div_add_one_lt hlt (fun h0 => hcheck ⟨hdown, h0⟩) (by omega)

/-- **The signed right shift.** With the length and the state that `RightShift_ResultLength`
predicts, `RightShift` stores the magnitude of the quotient rounded towards minus infinity, if a
digit stays. -/
theorem rightShift_spec (xSign : Bool) (hshift : shift.toNat / kDigitBits < 2 ^ 31)
    (h : shift.toNat / kDigitBits < X.length) :
    ∃ len state, rightShiftResultLength X xSign shift = some (len, state) ∧ 0 < len ∧
      ∀ Z : Digits, Z.length = len → ∃ Z', rightShift Z X shift state = some Z' ∧
        Z'.length = Z.length ∧
        signedValue xSign Z' = (signedValue xSign X).fdiv (2 ^ shift.toNat : ℕ) := by
  obtain ⟨len, roundDown, hrun, hlen, hdown, hroom⟩ := rightShiftResultLength_spec xSign hshift h
  obtain ⟨digits, hdigits, hlength, hvalue⟩ := shiftedDigits_spec hshift h
  refine ⟨len, ⟨roundDown⟩, hrun, by omega, fun Z hZ => ?_⟩
  obtain ⟨W, hstore, hW, hWvalue⟩ := store_of_le (show digits.length ≤ Z.length by omega)
  rw [hvalue] at hWvalue
  rw [fdiv_signedValue _ _ (Nat.two_pow_pos _), rightShift, hdigits, Option.bind_eq_bind,
    Option.bind_some, hstore, Option.bind_some]
  cases hcase : roundDown with
  | false =>
    refine ⟨W, rfl, hW, ?_⟩
    cases xSign with
    | false => rw [signedValue_false, hWvalue]; rfl
    | true =>
      have hexact : value X % 2 ^ shift.toNat = 0 := by simpa [hcase] using hdown
      rw [signedValue_true, hWvalue, if_pos rfl, if_neg (not_not.2 hexact), Nat.add_zero]
  | true =>
    obtain ⟨rfl, hrest⟩ : xSign = true ∧ value X % 2 ^ shift.toNat ≠ 0 := by
      simpa [hcase] using hdown
    have hroom' : value W + (1 : Digit).toNat < digitBase ^ W.length := by
      rw [hWvalue, UInt64.toNat_one, hW, show Z.length = len by omega]
      exact hroom hcase
    obtain ⟨Z', hadd, hlen', hZ'⟩ := addDigit_of_lt (ne_nil_of_length_pos (by omega)) hroom'
    refine ⟨Z', hadd, hlen'.trans hW, ?_⟩
    rw [signedValue_true, hZ', hWvalue, UInt64.toNat_one, if_pos rfl, if_pos hrest]

/-- **No digit stays.** The predicted length is zero, and the quotient is `0` or `-1`. -/
theorem rightShiftResultLength_of_le (hX : X.Normalized) {xSign : Bool}
    (hne : xSign = true → X ≠ []) (hshift : shift.toNat / kDigitBits < 2 ^ 31)
    (h : X.length ≤ shift.toNat / kDigitBits) :
    rightShiftResultLength X xSign shift = some (0, {}) ∧
      (signedValue xSign X).fdiv (2 ^ shift.toNat : ℕ) = if xSign then -1 else 0 := by
  have hlt : value X < 2 ^ shift.toNat := by
    rw [two_pow_shift]
    exact (value_lt_of_length_le h).trans_le (Nat.le_mul_of_pos_right _ (Nat.two_pow_pos _))
  refine ⟨?_, ?_⟩
  · rw [rightShiftResultLength, digitShift_eq hshift, if_pos (sub_nonpos.2 (Int.ofNat_le.2 h))]
    rfl
  · rw [fdiv_signedValue _ _ (Nat.two_pow_pos _), div_eq_of_lt hlt, mod_eq_of_lt hlt]
    cases xSign with
    | false => rfl
    | true => rw [if_pos rfl, if_pos (hX.value_pos (hne rfl)).ne', if_pos rfl]; rfl

end Digits
