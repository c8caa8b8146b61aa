import Mathlib
import V8Speak.Digits

/-!
# Arithmetic on vectors of digits

The loops of `bigint/vector-arithmetic.cc`. A function that writes to a
vector `Z` takes the old contents and returns the new ones, together with the
carry or borrow where the source returns one. Reading or writing past the end
of a vector, and a failed assertion, have no result: a theorem that the result
is `some …` contains that every access is in range and that every assertion
holds.

All the functions are made of two loops: one over the digits that both
operands have (`addLoop`, `subLoop`) and one that carries on through the
longer operand (`addCarry`, `subBorrow`). Each is specified once, by the
equation between the values before and after it; the specifications of the
functions are sums of these equations.
-/

open List

/-- An assertion (`DCHECK`). -/
def dcheck (p : Prop) [Decidable p] : Option Unit := if p then some () else none

@[simp] theorem dcheck_pos {p : Prop} [Decidable p] (h : p) : dcheck p = some () := if_pos h

namespace Digits

/-! ## The loops -/

/-- `for (; i < Y.len(); i++) Z[i] = digit_add3(X[i], Y[i], carry, &carry);`
the digits stored and the last carry. -/
def addLoop : Digits → Digits → Digit → Option (Digits × Digit)
  | _, [], carry => some ([], carry)
  | [], _ :: _, _ => none
  | x :: X, y :: Y, carry => do
    let (z, carry) := digitAdd3 x y carry
    let (Z, carry) ← addLoop X Y carry
    return (z :: Z, carry)

/-- `for (; i < X.len(); i++) Z[i] = digit_add2(X[i], carry, &carry);` -/
def addCarry : Digits → Digit → Digits × Digit
  | [], carry => ([], carry)
  | x :: X, carry =>
    let (z, carry) := digitAdd2 x carry
    let (Z, carry) := addCarry X carry
    (z :: Z, carry)

/-- The same loop with the additional condition `carry != 0`. -/
def addCarryWhile : Digits → Digit → Digits × Digit
  | [], carry => ([], carry)
  | z :: Z, carry =>
    if carry = 0 then (z :: Z, carry) else
      let (z, carry) := digitAdd2 z carry
      let (Z, carry) := addCarryWhile Z carry
      (z :: Z, carry)

/-- `for (; i < Y.len(); i++) Z[i] = digit_sub2(X[i], Y[i], borrow, &borrow);` -/
def subLoop : Digits → Digits → Digit → Option (Digits × Digit)
  | _, [], borrow => some ([], borrow)
  | [], _ :: _, _ => none
  | x :: X, y :: Y, borrow => do
    let (z, borrow) := digitSub2 x y borrow
    let (Z, borrow) ← subLoop X Y borrow
    return (z :: Z, borrow)

/-- `for (; i < X.len(); i++) Z[i] = digit_sub(X[i], borrow, &borrow);` -/
def subBorrow : Digits → Digit → Digits × Digit
  | [], borrow => ([], borrow)
  | x :: X, borrow =>
    let (z, borrow) := digitSub x borrow
    let (Z, borrow) := subBorrow X borrow
    (z :: Z, borrow)

/-- The same loop with the additional condition `borrow != 0`. -/
def subBorrowWhile : Digits → Digit → Digits × Digit
  | [], borrow => ([], borrow)
  | z :: Z, borrow =>
    if borrow = 0 then (z :: Z, borrow) else
      let (z, borrow) := digitSub z borrow
      let (Z, borrow) := subBorrowWhile Z borrow
      (z :: Z, borrow)

theorem addLoop_spec (X Y : Digits) (c : Digit) (hlen : Y.length ≤ X.length) (hc : c.toNat ≤ 1) :
    ∃ Z c', addLoop X Y c = some (Z, c') ∧ Z.length = Y.length ∧ c'.toNat ≤ 1 ∧
      value Z + digitBase ^ Y.length * c'.toNat = value (X.take Y.length) + value Y + c.toNat := by
  induction Y generalizing X c with
  | nil => exact ⟨[], c, by rw [addLoop], rfl, hc, by simp⟩
  | cons y Y ih =>
    obtain _ | ⟨x, X⟩ := X
    · simp at hlen
    have h := digitAdd3_spec x y c
    obtain ⟨Z, c', hrun, hZ, hc', hval⟩ :=
      ih X (digitAdd3 x y c).2 (by simpa using hlen) (digitAdd3_carry x y c hc)
    refine ⟨(digitAdd3 x y c).1 :: Z, c', by simp only [addLoop, hrun]; rfl, by simp [hZ], hc', ?_⟩
    rw [length_cons, take_succ_cons, value_cons, value_cons, value_cons]
    linear_combination h + digitBase * hval

theorem subLoop_spec (X Y : Digits) (c : Digit) (hlen : Y.length ≤ X.length) (hc : c.toNat ≤ 1) :
    ∃ Z c', subLoop X Y c = some (Z, c') ∧ Z.length = Y.length ∧ c'.toNat ≤ 1 ∧
      value Z + value Y + c.toNat = value (X.take Y.length) + digitBase ^ Y.length * c'.toNat := by
  induction Y generalizing X c with
  | nil => exact ⟨[], c, by rw [subLoop], rfl, hc, by simp⟩
  | cons y Y ih =>
    obtain _ | ⟨x, X⟩ := X
    · simp at hlen
    have h := digitSub2_spec x y c hc
    obtain ⟨Z, c', hrun, hZ, hc', hval⟩ :=
      ih X (digitSub2 x y c).2 (by simpa using hlen) (digitSub2_borrow x y c)
    refine ⟨(digitSub2 x y c).1 :: Z, c', by simp only [subLoop, hrun]; rfl, by simp [hZ], hc', ?_⟩
    rw [length_cons, take_succ_cons, value_cons, value_cons, value_cons]
    linear_combination h + digitBase * hval

variable (X : Digits) (c : Digit)

@[simp] theorem length_addCarry : (addCarry X c).1.length = X.length := by
  induction X generalizing c with
  | nil => rfl
  | cons x X ih => simp [addCarry, ih]

@[simp] theorem length_subBorrow : (subBorrow X c).1.length = X.length := by
  induction X generalizing c with
  | nil => rfl
  | cons x X ih => simp [subBorrow, ih]

theorem addCarry_spec : value (addCarry X c).1 + digitBase ^ X.length * (addCarry X c).2.toNat
      = value X + c.toNat := by
  induction X generalizing c with
  | nil => simp [addCarry]
  | cons x X ih =>
    have h := digitAdd2_spec x c
    simp only [addCarry, length_cons, value_cons]
    linear_combination h + digitBase * ih (digitAdd2 x c).2

theorem subBorrow_spec : value (subBorrow X c).1 + c.toNat
      = value X + digitBase ^ X.length * (subBorrow X c).2.toNat := by
  induction X generalizing c with
  | nil => simp [subBorrow]
  | cons x X ih =>
    have h := digitSub_spec x c
    simp only [subBorrow, length_cons, value_cons]
    linear_combination h + digitBase * ih (digitSub x c).2

variable {c : Digit}

theorem addCarry_carry (hc : c.toNat ≤ 1) : (addCarry X c).2.toNat ≤ 1 := by
  induction X generalizing c with
  | nil => exact hc
  | cons x X ih => exact ih (digitAdd2_carry x c)

theorem subBorrow_borrow (hc : c.toNat ≤ 1) : (subBorrow X c).2.toNat ≤ 1 := by
  induction X generalizing c with
  | nil => exact hc
  | cons x X ih => exact ih (digitSub_borrow x c)

/-- A carry that is less than one is none. -/
theorem eq_of_carry_lt {r : Digit × Digit} {x : Digit} (hc : digitBase * r.2.toNat < digitBase)
    (h : r.2.toNat = 0 → r.1.toNat = x.toNat) : r = (x, 0) := by
  have hzero : r.2.toNat = 0 :=
    Nat.lt_one_iff.mp (Nat.lt_of_mul_lt_mul_left (a := digitBase) (by omega))
  exact Prod.ext (UInt64.toNat_inj.mp (h hzero)) (UInt64.toNat_inj.mp hzero)

theorem digitAdd2_zero (x : Digit) : digitAdd2 x 0 = (x, 0) := by
  have h := digitAdd2_spec x 0
  have hx := digit_lt x
  rw [UInt64.toNat_zero] at h
  refine eq_of_carry_lt (by omega) fun hc => ?_
  rwa [hc] at h

theorem digitSub_zero (x : Digit) : digitSub x 0 = (x, 0) := by
  have h := digitSub_spec x 0
  have hx := digit_lt (digitSub x 0).1
  rw [UInt64.toNat_zero] at h
  refine eq_of_carry_lt (by omega) fun hc => ?_
  rwa [hc] at h

@[simp] theorem addCarry_zero : addCarry X 0 = (X, 0) := by
  induction X with
  | nil => rfl
  | cons x X ih => simp only [addCarry, digitAdd2_zero, ih]

@[simp] theorem subBorrow_zero : subBorrow X 0 = (X, 0) := by
  induction X with
  | nil => rfl
  | cons x X ih => simp only [subBorrow, digitSub_zero, ih]

/-- Stopping as soon as nothing is carried makes no difference. -/
theorem addCarryWhile_eq : addCarryWhile X c = addCarry X c := by
  induction X generalizing c with
  | nil => rfl
  | cons x X ih =>
    by_cases hc : c = 0
    · rw [addCarryWhile, if_pos hc, hc, addCarry_zero]
    · simp only [addCarryWhile, if_neg hc, ih, addCarry]

theorem subBorrowWhile_eq : subBorrowWhile X c = subBorrow X c := by
  induction X generalizing c with
  | nil => rfl
  | cons x X ih =>
    by_cases hc : c = 0
    · rw [subBorrowWhile, if_pos hc, hc, subBorrow_zero]
    · simp only [subBorrowWhile, if_neg hc, ih, subBorrow]

/-! ## Addition and subtraction in place -/

variable (Z X : Digits)

/-- `AddAndReturnOverflow`: `Z += X`. -/
def addAndReturnOverflow : Option (Digits × Digit) := do
  let X := normalize X
  if X.length = 0 then return (Z, 0)
  let (low, carry) ← addLoop Z X 0
  let (high, carry) := addCarryWhile (Z.drop X.length) carry
  return (low ++ high, carry)

/-- `SubAndReturnBorrow`: `Z -= X`. -/
def subAndReturnBorrow : Option (Digits × Digit) := do
  let X := normalize X
  if X.length = 0 then return (Z, 0)
  let (low, borrow) ← subLoop Z X 0
  let (high, borrow) := subBorrowWhile (Z.drop X.length) borrow
  return (low ++ high, borrow)

theorem pow_length_drop {Z : Digits} {n : ℕ} (h : n ≤ Z.length) :
    digitBase ^ Z.length = digitBase ^ n * digitBase ^ (Z.drop n).length := by
  rw [← pow_add, length_drop, Nat.add_sub_cancel' h]

/-- The loop over both operands, and the loop over the rest of the longer one. -/
theorem subBorrow_append {X Y low : Digits} (hlen : Y.length ≤ X.length)
    (hlow : low.length = Y.length) (hval : value low + value Y + (0 : Digit).toNat =
      value (X.take Y.length) + digitBase ^ Y.length * c.toNat) :
    (low ++ (subBorrow (X.drop Y.length) c).1).length = X.length ∧
      value (low ++ (subBorrow (X.drop Y.length) c).1) + value Y
        = value X + digitBase ^ X.length * (subBorrow (X.drop Y.length) c).2.toNat := by
  have hhigh := subBorrow_spec (X.drop Y.length) c
  rw [UInt64.toNat_zero, Nat.add_zero] at hval
  constructor
  · rw [length_append, length_subBorrow, length_drop, hlow]
    omega
  · rw [value_append, hlow, pow_length_drop hlen, ← value_take_add_drop X Y.length]
    linear_combination hval + digitBase ^ Y.length * hhigh

theorem addAndReturnOverflow_spec (h : (normalize X).length ≤ Z.length) :
    ∃ Z' c, addAndReturnOverflow Z X = some (Z', c) ∧ Z'.length = Z.length ∧ c.toNat ≤ 1 ∧
      value Z' + digitBase ^ Z.length * c.toNat = value Z + value X := by
  rw [← value_normalize X]
  by_cases h0 : (normalize X).length = 0
  · refine ⟨Z, 0, by rw [addAndReturnOverflow, if_pos h0]; rfl, rfl, by simp, ?_⟩
    rw [eq_nil_of_length_eq_zero h0]
    simp
  · obtain ⟨low, c, hrun, hlow, hc, hval⟩ := addLoop_spec Z (normalize X) 0 h (by simp)
    refine ⟨low ++ (addCarry (Z.drop (normalize X).length) c).1,
      (addCarry (Z.drop (normalize X).length) c).2, ?_, ?_, addCarry_carry _ hc, ?_⟩
    · simp only [addAndReturnOverflow, if_neg h0, hrun, addCarryWhile_eq]
      rfl
    · rw [length_append, length_addCarry, length_drop]
      omega
    · have hhigh := addCarry_spec (Z.drop (normalize X).length) c
      rw [value_append, hlow, pow_length_drop h, ← value_take_add_drop Z (normalize X).length]
      rw [UInt64.toNat_zero, Nat.add_zero] at hval
      linear_combination hval + digitBase ^ (normalize X).length * hhigh

theorem subAndReturnBorrow_spec (h : (normalize X).length ≤ Z.length) :
    ∃ Z' c, subAndReturnBorrow Z X = some (Z', c) ∧ Z'.length = Z.length ∧ c.toNat ≤ 1 ∧
      value Z' + value X = value Z + digitBase ^ Z.length * c.toNat := by
  rw [← value_normalize X]
  by_cases h0 : (normalize X).length = 0
  · refine ⟨Z, 0, by rw [subAndReturnBorrow, if_pos h0]; rfl, rfl, by simp, ?_⟩
    rw [eq_nil_of_length_eq_zero h0]
    simp
  · obtain ⟨low, c, hrun, hlow, hc, hval⟩ := subLoop_spec Z (normalize X) 0 h (by simp)
    obtain ⟨hlen, htotal⟩ := subBorrow_append h hlow hval
    refine ⟨_, _, ?_, hlen, subBorrow_borrow _ hc, htotal⟩
    simp only [subAndReturnBorrow, if_neg h0, hrun, subBorrowWhile_eq]
    rfl

/-- `AddAndReturnOverflow(Z + offset, X)`, with the whole of `Z` as the result. -/
def addAt (Z : Digits) (offset : ℕ) (X : Digits) : Option (Digits × Digit) := do
  let (high, carry) ← addAndReturnOverflow (Z.drop offset) X
  return (Z.take offset ++ high, carry)

/-- `SubAndReturnBorrow(Z + offset, X)`, with the whole of `Z` as the result. -/
def subAt (Z : Digits) (offset : ℕ) (X : Digits) : Option (Digits × Digit) := do
  let (high, borrow) ← subAndReturnBorrow (Z.drop offset) X
  return (Z.take offset ++ high, borrow)

theorem addAt_spec (off : ℕ) (h : off + (normalize X).length ≤ Z.length) :
    ∃ Z' c, addAt Z off X = some (Z', c) ∧ Z'.length = Z.length ∧ c.toNat ≤ 1 ∧
      value Z' + digitBase ^ Z.length * c.toNat = value Z + digitBase ^ off * value X := by
  obtain ⟨high, c, hrun, hlen, hc, hval⟩ := addAndReturnOverflow_spec (Z.drop off) X
    (by rw [length_drop]; omega)
  refine ⟨Z.take off ++ high, c, by simp only [addAt, hrun]; rfl, ?_, hc, ?_⟩
  · rw [length_append, length_take_of_le (by omega), hlen, length_drop]
    omega
  · rw [value_append, length_take_of_le (by omega), pow_length_drop (n := off) (by omega),
      ← value_take_add_drop Z off]
    linear_combination digitBase ^ off * hval

theorem subAt_spec (off : ℕ) (h : off + (normalize X).length ≤ Z.length) :
    ∃ Z' c, subAt Z off X = some (Z', c) ∧ Z'.length = Z.length ∧ c.toNat ≤ 1 ∧
      value Z' + digitBase ^ off * value X = value Z + digitBase ^ Z.length * c.toNat := by
  obtain ⟨high, c, hrun, hlen, hc, hval⟩ := subAndReturnBorrow_spec (Z.drop off) X
    (by rw [length_drop]; omega)
  refine ⟨Z.take off ++ high, c, by simp only [subAt, hrun]; rfl, ?_, hc, ?_⟩
  · rw [length_append, length_take_of_le (by omega), hlen, length_drop]
    omega
  · rw [value_append, length_take_of_le (by omega), pow_length_drop (n := off) (by omega),
      ← value_take_add_drop Z off]
    linear_combination digitBase ^ off * hval

/-- **Adding what fits does not overflow.** -/
theorem addAt_of_lt (off : ℕ) (hoff : off ≤ Z.length)
    (h : value Z + digitBase ^ off * value X < digitBase ^ Z.length) :
    ∃ Z', addAt Z off X = some (Z', 0) ∧ Z'.length = Z.length ∧
      value Z' = value Z + digitBase ^ off * value X := by
  have hfit : (normalize X).length ≤ Z.length - off := by
    refine length_normalize_le_of_lt (Nat.lt_of_mul_lt_mul_left (a := digitBase ^ off) ?_)
    rw [← pow_add, Nat.add_sub_cancel' hoff]
    omega
  obtain ⟨Z', c, hrun, hlen, -, hval⟩ := addAt_spec Z X off (by omega)
  have hc : c.toNat = 0 :=
    Nat.lt_one_iff.mp (Nat.lt_of_mul_lt_mul_left (a := digitBase ^ Z.length) (by omega))
  obtain rfl : c = 0 := UInt64.toNat_inj.mp hc
  exact ⟨Z', hrun, hlen, by simpa using hval⟩

/-! ## Subtraction into a vector -/

variable (Z X Y : Digits)

/-- The part that `Subtract` and `KaratsubaSubtractionHelper` share: the
difference of two normalized vectors, with zeros up to the length of `Z`. -/
def subtractNormalized : Option Digits := do
  dcheck (X.length ≤ Z.length)
  let (low, borrow) ← subLoop X Y 0
  let (high, borrow) := subBorrow (X.drop Y.length) borrow
  dcheck (borrow = 0)
  return low ++ high ++ List.replicate (Z.length - X.length) 0

theorem subtractNormalized_spec (hZ : X.length ≤ Z.length)
    (hlen : Y.length ≤ X.length) (hle : value Y ≤ value X) :
    ∃ Z', subtractNormalized Z X Y = some Z' ∧ Z'.length = Z.length ∧
      value Z' + value Y = value X := by
  obtain ⟨low, c, hrun, hlow, hc, hval⟩ := subLoop_spec X Y 0 hlen (by simp)
  obtain ⟨hlenD, htotal⟩ := subBorrow_append hlen hlow hval
  -- nothing is borrowed at the end, as the difference is not negative
  have hlt := value_lt (low ++ (subBorrow (X.drop Y.length) c).1)
  rw [hlenD] at hlt
  have hb : (subBorrow (X.drop Y.length) c).2.toNat = 0 := by
    refine Nat.lt_one_iff.mp (Nat.lt_of_mul_lt_mul_left (a := digitBase ^ X.length) ?_)
    omega
  have hb' : (subBorrow (X.drop Y.length) c).2 = 0 := UInt64.toNat_inj.mp hb
  refine ⟨low ++ (subBorrow (X.drop Y.length) c).1 ++ List.replicate (Z.length - X.length) 0,
    ?_, ?_, ?_⟩
  · simp only [subtractNormalized, dcheck_pos hZ, hrun, Option.bind_eq_bind, Option.bind_some,
      dcheck_pos hb']
    rfl
  · rw [length_append, length_replicate, hlenD]
    omega
  · rw [value_append, value_replicate_zero, Nat.mul_zero, Nat.add_zero, htotal, hb,
      Nat.mul_zero, Nat.add_zero]

/-- `Subtract`: `Z := X - Y`. -/
def subtract : Option Digits := do
  let X := normalize X
  let Y := normalize Y
  dcheck (Y.length ≤ X.length)
  subtractNormalized Z X Y

theorem length_normalize_mono {X Y : Digits} (h : value Y ≤ value X) :
    (normalize Y).length ≤ (normalize X).length := by
  refine length_normalize_le_of_lt (h.trans_lt ?_)
  rw [← value_normalize X]
  exact value_lt _

theorem subtract_spec (hZ : (normalize X).length ≤ Z.length) (hle : value Y ≤ value X) :
    ∃ Z', subtract Z X Y = some Z' ∧ Z'.length = Z.length ∧ value Z' + value Y = value X := by
  have hlen := length_normalize_mono hle
  obtain ⟨Z', hrun, hZ', hval⟩ := subtractNormalized_spec Z (normalize X) (normalize Y) hZ hlen
    (by simpa using hle)
  refine ⟨Z', ?_, hZ', by simpa using hval⟩
  simp only [subtract, dcheck_pos hlen]
  exact hrun

/-! ## A vector and a digit -/

/-- `Add(X, y)`: `X += y`. The loop runs at least once, and until nothing is carried. -/
def addDigit : Digits → Digit → Option Digits
  | [], _ => none
  | x :: X, carry =>
    let (z, carry) := digitAdd2 x carry
    if carry = 0 then some (z :: X) else (addDigit X carry).map (z :: ·)

/-- **Adding a digit that fits does not leave the vector.** -/
theorem addDigit_of_lt {X : Digits} {y : Digit} (hne : X ≠ [])
    (h : value X + y.toNat < digitBase ^ X.length) :
    ∃ Z, addDigit X y = some Z ∧ Z.length = X.length ∧ value Z = value X + y.toNat := by
  induction X generalizing y with
  | nil => exact absurd rfl hne
  | cons x X ih =>
    have hspec := digitAdd2_spec x y
    rw [value_cons] at h ⊢
    by_cases hc : (digitAdd2 x y).2 = 0
    · refine ⟨(digitAdd2 x y).1 :: X, by simp only [addDigit, if_pos hc], rfl, ?_⟩
      rw [hc, UInt64.toNat_zero] at hspec
      rw [value_cons]
      omega
    · rw [length_cons, pow_succ'] at h
      have hlt : value X + (digitAdd2 x y).2.toNat < digitBase ^ X.length := by
        refine Nat.lt_of_mul_lt_mul_left (a := digitBase) ?_
        rw [Nat.mul_add]
        omega
      have hX : X ≠ [] := by
        rintro rfl
        refine hc (UInt64.toNat_inj.mp ?_)
        rw [value_nil, Nat.zero_add, length_nil, pow_zero] at hlt
        exact Nat.lt_one_iff.mp hlt
      obtain ⟨Z, hrun, hlen, hval⟩ := ih hX hlt
      refine ⟨(digitAdd2 x y).1 :: Z, by simp only [addDigit, if_neg hc, hrun]; rfl,
        by rw [length_cons, hlen, length_cons], ?_⟩
      rw [value_cons, hval]
      linear_combination hspec

/-! ## The digits of one operand -/

/-- `AddAndReturnCarry`: adds exactly the digits of `Y` to the matching digits of `X`. -/
def addAndReturnCarry : Option (Digits × Digit) := do
  dcheck (Y.length ≤ Z.length ∧ Y.length ≤ X.length)
  let (low, carry) ← addLoop X Y 0
  return (low ++ Z.drop Y.length, carry)

/-- `SubtractAndReturnBorrow`: subtracts exactly the digits of `Y` from the matching digits
of `X`. -/
def subtractAndReturnBorrow : Option (Digits × Digit) := do
  dcheck (Y.length ≤ Z.length ∧ Y.length ≤ X.length)
  let (low, borrow) ← subLoop X Y 0
  return (low ++ Z.drop Y.length, borrow)

variable {W Y : Digits}

/-- `AddAndReturnCarry` in place: a window of the digits of `Y` in a longer vector. -/
theorem addAndReturnCarry_window (hi : Digits) (h : Y.length = W.length) :
    ∃ W' c, addAndReturnCarry (W ++ hi) (W ++ hi) Y = some (W' ++ hi, c) ∧ W'.length = W.length ∧
      c.toNat ≤ 1 ∧ value W' + digitBase ^ W.length * c.toNat = value W + value Y := by
  have hle : Y.length ≤ (W ++ hi).length := by rw [length_append]; omega
  obtain ⟨W', c, hrun, hlen, hc, hval⟩ := addLoop_spec (W ++ hi) Y 0 hle (by decide)
  rw [h, take_left, UInt64.toNat_zero, Nat.add_zero] at hval
  refine ⟨W', c, ?_, hlen.trans h, hc, hval⟩
  rw [addAndReturnCarry, dcheck_pos ⟨hle, hle⟩]
  simp only [hrun, h, Option.bind_eq_bind, Option.bind_some, drop_left]
  rfl

/-- `SubtractAndReturnBorrow` in place: a window of the digits of `Y` in a longer vector. -/
theorem subtractAndReturnBorrow_window (hi : Digits) (h : Y.length = W.length) :
    ∃ W' c, subtractAndReturnBorrow (W ++ hi) (W ++ hi) Y = some (W' ++ hi, c) ∧
      W'.length = W.length ∧ c.toNat ≤ 1 ∧
      value W' + value Y = value W + digitBase ^ W.length * c.toNat := by
  have hle : Y.length ≤ (W ++ hi).length := by rw [length_append]; omega
  obtain ⟨W', c, hrun, hlen, hc, hval⟩ := subLoop_spec (W ++ hi) Y 0 hle (by decide)
  rw [h, take_left, UInt64.toNat_zero, Nat.add_zero] at hval
  refine ⟨W', c, ?_, hlen.trans h, hc, hval⟩
  rw [subtractAndReturnBorrow, dcheck_pos ⟨hle, hle⟩]
  simp only [hrun, h, Option.bind_eq_bind, Option.bind_some, drop_left]
  rfl

/-! ## Storing a result -/

/-- The digits from position `0` on are stored, and `for (; i < Z.len(); i++) Z[i] = 0;` fills the
rest. There is no result if a digit has no place in `Z`. -/
def store (Z digits : Digits) : Option Digits :=
  if digits.length ≤ Z.length then
    some (digits ++ List.replicate (Z.length - digits.length) 0)
  else none

theorem store_of_le {Z digits : Digits} (h : digits.length ≤ Z.length) :
    ∃ Z', store Z digits = some Z' ∧ Z'.length = Z.length ∧ value Z' = value digits := by
  refine ⟨digits ++ List.replicate (Z.length - digits.length) 0, if_pos h, ?_, ?_⟩
  · rw [length_append, length_replicate, Nat.add_sub_cancel' h]
  · rw [value_append, value_replicate_zero, Nat.mul_zero, Nat.add_zero]

/-! ## Signs -/

/-- The number that a sign and a magnitude denote. -/
def signedValue (negative : Bool) (X : Digits) : ℤ :=
  if negative then -(value X : ℤ) else value X

@[simp] theorem signedValue_false : signedValue false X = value X := rfl

@[simp] theorem signedValue_true : signedValue true X = -(value X : ℤ) := rfl

theorem signedValue_not (negative : Bool) : signedValue (!negative) X = -signedValue negative X := by
  cases negative <;> simp

/-! ## Signed sums and differences -/

/-- The loops of `Add`, for `Y` not longer than `X`. The last carry is lost if `Z` has no place
for it. -/
def addOrdered (Z X Y : Digits) : Option Digits := do
  let (low, carry) ← addLoop X Y 0
  let (high, carry) := addCarry (X.drop Y.length) carry
  store Z (low ++ high ++ if X.length < Z.length then [carry] else [])

/-- `Add`: `Z := X + Y`. -/
def add (Z X Y : Digits) : Option Digits :=
  if X.length < Y.length then addOrdered Z Y X else addOrdered Z X Y

/-- What `AddSigned` and `SubtractSigned` do, which differ in when they add the magnitudes. -/
def combineSigned (sum : Bool) (Z X : Digits) (xNegative : Bool) (Y : Digits) :
    Option (Digits × Bool) :=
  if sum then (add Z X Y).map (·, xNegative)
  else if greaterThanOrEqual X Y then (subtract Z X Y).map (·, xNegative)
  else (subtract Z Y X).map (·, !xNegative)

/-- `AddSigned`: the digits of the sum and its sign. -/
def addSigned (Z X : Digits) (xNegative : Bool) (Y : Digits) (yNegative : Bool) :
    Option (Digits × Bool) :=
  combineSigned (xNegative = yNegative) Z X xNegative Y

def subtractSigned (Z X : Digits) (xNegative : Bool) (Y : Digits) (yNegative : Bool) :
    Option (Digits × Bool) :=
  combineSigned (xNegative ≠ yNegative) Z X xNegative Y

def addSignedResultLength (xLength yLength : ℕ) (sameSign : Bool) : ℕ :=
  if sameSign then max xLength yLength + 1 else max xLength yLength

def subtractSignedResultLength (xLength yLength : ℕ) (sameSign : Bool) : ℕ :=
  if sameSign then max xLength yLength else max xLength yLength + 1

theorem addOrdered_spec {Z X Y : Digits} (hXY : Y.length ≤ X.length) (hZ : X.length < Z.length) :
    ∃ Z', addOrdered Z X Y = some Z' ∧ Z'.length = Z.length ∧ value Z' = value X + value Y := by
  obtain ⟨low, c, hrun, hlow, -, hval⟩ := addLoop_spec X Y 0 hXY (by simp)
  have hcarry := addCarry_spec (X.drop Y.length) c
  have hlen := length_addCarry (X.drop Y.length) c
  have hsplit := value_take_add_drop X Y.length
  simp only [addOrdered, hrun, Option.bind_eq_bind, Option.bind_some, if_pos hZ]
  generalize addCarry (X.drop Y.length) c = r at *
  rw [length_drop] at hlen hcarry
  obtain ⟨Z', hstore, hZ', hvalue⟩ := store_of_le
    (by simp only [length_append, length_singleton]; omega : (low ++ r.1 ++ [r.2]).length ≤ Z.length)
  refine ⟨Z', hstore, hZ', ?_⟩
  rw [UInt64.toNat_zero, Nat.add_zero] at hval
  rw [hvalue, value_append, value_append, length_append, hlow, hlen, pow_add, value_cons, value_nil]
  linear_combination digitBase ^ Y.length * hcarry + hval + hsplit

theorem add_spec {Z X Y : Digits} (hZ : max X.length Y.length < Z.length) :
    ∃ Z', add Z X Y = some Z' ∧ Z'.length = Z.length ∧ value Z' = value X + value Y := by
  unfold add
  split
  · rw [Nat.add_comm]
    exact addOrdered_spec (by omega) (by omega)
  · exact addOrdered_spec (by omega) (by omega)

/-- **The signed sum**, where `Y` has the sign of `X` if the magnitudes are added and the other one
otherwise. -/
theorem combineSigned_spec (sum : Bool) {Z X Y : Digits} (xNegative : Bool)
    (hZ : max X.length Y.length + sum.toNat ≤ Z.length) :
    ∃ Z' negative, combineSigned sum Z X xNegative Y = some (Z', negative) ∧
      Z'.length = Z.length ∧
      signedValue negative Z' = signedValue xNegative X + signedValue (xNegative == sum) Y := by
  have hX := length_normalize_le X
  have hY := length_normalize_le Y
  unfold combineSigned
  cases sum with
  | true =>
    obtain ⟨Z', hrun, hlen, hval⟩ := add_spec (Z := Z) (X := X) (Y := Y) hZ
    refine ⟨Z', xNegative, by rw [if_pos rfl, hrun]; rfl, hlen, ?_⟩
    cases xNegative <;> simp [hval, add_comm]
  | false =>
    rw [if_neg Bool.false_ne_true, beq_false, signedValue_not]
    change max X.length Y.length ≤ Z.length at hZ
    split
    · next hge =>
      obtain ⟨Z', hrun, hlen, hval⟩ := subtract_spec Z X Y (by omega)
        ((greaterThanOrEqual_iff X Y).mp hge)
      refine ⟨Z', xNegative, by rw [hrun]; rfl, hlen, ?_⟩
      cases xNegative <;> simp [← hval]
    · next hge =>
      obtain ⟨Z', hrun, hlen, hval⟩ := subtract_spec Z Y X (by omega)
        (Nat.le_of_not_le fun h => hge ((greaterThanOrEqual_iff X Y).mpr h))
      refine ⟨Z', !xNegative, by rw [hrun]; rfl, hlen, ?_⟩
      cases xNegative <;> simp [← hval]

/-- **A sum less one of its summands is the other one**: for all combinations of signs, `AddSigned`
and `SubtractSigned` compute the signed sum and difference in the lengths predicted for them. -/
theorem subtractSigned_addSigned {Z X Y : Digits} (xNegative yNegative : Bool)
    (hZ : addSignedResultLength X.length Y.length (xNegative = yNegative) ≤ Z.length) :
    ∃ Z' negative, addSigned Z X xNegative Y yNegative = some (Z', negative) ∧
      Z'.length = Z.length ∧
      signedValue negative Z' = signedValue xNegative X + signedValue yNegative Y ∧
      ∀ W : Digits, subtractSignedResultLength Z'.length Y.length (negative = yNegative) ≤ W.length →
        ∃ W' negative', subtractSigned W Z' negative Y yNegative = some (W', negative') ∧
          W'.length = W.length ∧ signedValue negative' W' = signedValue xNegative X := by
  obtain ⟨Z', negative, hrun, hlen, hval⟩ := combineSigned_spec (xNegative = yNegative)
    (Z := Z) (X := X) (Y := Y) xNegative
    (by cases xNegative <;> cases yNegative <;> exact hZ)
  have hsign : (xNegative == decide (xNegative = yNegative)) = yNegative := by
    cases xNegative <;> cases yNegative <;> rfl
  rw [hsign] at hval
  refine ⟨Z', negative, hrun, hlen, hval, fun W hW => ?_⟩
  obtain ⟨W', negative', hrun', hlen', hval'⟩ := combineSigned_spec (negative ≠ yNegative)
    (Z := W) (X := Z') (Y := Y) negative
    (by cases negative <;> cases yNegative <;> exact hW)
  have hsign' : (negative == decide (negative ≠ yNegative)) = !yNegative := by
    cases negative <;> cases yNegative <;> rfl
  refine ⟨W', negative', hrun', hlen', ?_⟩
  rw [hval', hsign', signedValue_not, hval, add_neg_cancel_right]

/-- Three less five, and back. -/
theorem subtractSigned_addSigned_three :
    ∃ Z' negative, addSigned [0] [3] false [5] true = some (Z', negative) ∧
      signedValue negative Z' = -2 := by
  obtain ⟨Z', negative, hrun, -, hval, -⟩ :=
    subtractSigned_addSigned (Z := [0]) (X := [3]) (Y := [5]) false true (by decide)
  exact ⟨Z', negative, hrun, hval.trans (by decide)⟩

end Digits
