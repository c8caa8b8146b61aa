import V8Speak.Processor

/-!
# Schoolbook multiplication

`MultiplySingle` and `MultiplySchoolbook` (`bigint/mul-schoolbook.cc`).

The schoolbook method computes the result digit by digit: digit `i` is a sum
over a column of products `X[j] * Y[i - j]`, whose halves and carries are
collected in `zi`, `next`, `carry` and `next_carry`. The pending amount
`Columns.pending`, what the columns up to `i` leave for the digits above
them, is the invariant: one column turns `pending` and the sum of its
products into one digit and a new `pending` (`column_spec`), and so do any
number of columns (`columns_yields`). That the columns sum up to the product is
multiplication of polynomials, which Mathlib has.
-/

open List hiding cons mem_range sum_eq_zero sum_range_succ sum_range_succ'
open Digits Finset Interruption Processor Polynomial

namespace Digits

/-! ## A product as a sum over columns -/

/-- The digit at a position, zero past the end. -/
def digitAt (X : Digits) (j : ℕ) : ℕ := (X.getD j 0).toNat

theorem digitAt_of_length_le {X : Digits} {j : ℕ} (h : X.length ≤ j) : digitAt X j = 0 := by
  rw [digitAt, getD_eq_getElem?_getD, getElem?_eq_none h]
  rfl

/-- The polynomial with the digits as its coefficients. -/
noncomputable def poly : Digits → Polynomial ℕ
  | [] => 0
  | d :: X => Polynomial.C d.toNat + Polynomial.X * poly X

theorem poly_eval (X : Digits) : (poly X).eval digitBase = value X := by
  induction X with
  | nil => simp [poly]
  | cons d X ih => simp [poly, ih]

theorem poly_coeff (X : Digits) (j : ℕ) : (poly X).coeff j = digitAt X j := by
  induction X generalizing j with
  | nil => simp [poly, digitAt]
  | cons d X ih =>
    obtain _ | j := j
    · simp [poly, digitAt]
    · rw [poly, coeff_add, coeff_C_succ, coeff_X_mul, ih,
        Nat.zero_add]
      rfl

/-- The sum of the products in column `i`. -/
def columnSum (X Y : Digits) (i : ℕ) : ℕ :=
  ∑ j ∈ Finset.range (i + 1), digitAt X j * digitAt Y (i - j)

theorem poly_mul_coeff (X Y : Digits) (i : ℕ) : (poly X * poly Y).coeff i = columnSum X Y i := by
  rw [coeff_mul, Finset.Nat.sum_antidiagonal_eq_sum_range_succ_mk, columnSum]
  simp only [poly_coeff]

theorem columnSum_eq_zero {X Y : Digits} {i : ℕ} (h : X.length + Y.length ≤ i + 1) :
    columnSum X Y i = 0 := by
  refine sum_eq_zero fun j hj => ?_
  by_cases hjX : X.length ≤ j
  · rw [digitAt_of_length_le hjX, Nat.zero_mul]
  · rw [digitAt_of_length_le (X := Y) (by omega), Nat.mul_zero]

/-- **The product of two vectors is the sum over the columns.** -/
theorem value_mul_value (X Y : Digits) (n : ℕ) (h : X.length + Y.length ≤ n + 1) :
    ∑ i ∈ Finset.range n, digitBase ^ i * columnSum X Y i = value X * value Y := by
  have hdeg : (poly X * poly Y).natDegree < n + 1 := by
    refine Nat.lt_succ_of_le (natDegree_le_iff_coeff_eq_zero.mpr fun i hi => ?_)
    rw [poly_mul_coeff, columnSum_eq_zero (by omega)]
  rw [← poly_eval X, ← poly_eval Y, ← eval_mul, eval_eq_sum_range' hdeg,
    sum_range_succ, poly_mul_coeff, columnSum_eq_zero (by omega), Nat.zero_mul,
    Nat.add_zero]
  refine sum_congr rfl fun i _ => ?_
  rw [poly_mul_coeff, Nat.mul_comm]

/-- A column may be summed over the positions where both vectors have a
digit. -/
theorem columnSum_eq {X Y : Digits} {i lo n : ℕ} (hhi : lo + n ≤ i + 1)
    (hlo : ∀ j < lo, Y.length ≤ i - j) (hX : ∀ j, lo + n ≤ j → j ≤ i → X.length ≤ j) :
    columnSum X Y i = ∑ k ∈ Finset.range n, digitAt X (lo + k) * digitAt Y (i - (lo + k)) := by
  have hsplit : i + 1 = lo + n + (i + 1 - (lo + n)) := by omega
  have hlow : ∑ j ∈ Finset.range lo, digitAt X j * digitAt Y (i - j) = 0 :=
    sum_eq_zero fun j hj => by
      rw [digitAt_of_length_le (hlo j (mem_range.mp hj)), Nat.mul_zero]
  have hhigh : ∑ k ∈ Finset.range (i + 1 - (lo + n)),
      digitAt X (lo + n + k) * digitAt Y (i - (lo + n + k)) = 0 :=
    sum_eq_zero fun k hk => by
      rw [mem_range] at hk
      rw [digitAt_of_length_le (hX _ (by omega) (by omega)), Nat.zero_mul]
  rw [columnSum, hsplit, sum_range_add, sum_range_add, hlow, hhigh, Nat.zero_add, Nat.add_zero]

end Digits

/-! ## Multiplication by one digit -/

/-- An addition of digits that does not wrap around. -/
theorem toNat_add_of_lt {a b : Digit} (h : a.toNat + b.toNat < digitBase) :
    (a + b).toNat = a.toNat + b.toNat := by
  rw [UInt64.toNat_add]
  exact Nat.mod_eq_of_lt h

namespace Processor

/-- The loop of `MultiplySingle`: the digits stored, and the last `high` and
`carry`. -/
def multiplySingleLoop : Digits → Digit → Digit → Digit → Digits × Digit × Digit
  | [], _, high, carry => ([], high, carry)
  | x :: X, y, high, carry =>
    let (low, newHigh) := digitMul x y
    let (z, carry) := digitAdd3 low high carry
    let (Z, high, carry) := multiplySingleLoop X y newHigh carry
    (z :: Z, high, carry)

/-- `MultiplySingle`: `Z := X * y`. -/
def multiplySingle (Z X : Digits) (y : Digit) : ProcessorM Digits := do
  dcheck (y ≠ 0)
  let (low, high, carry) := multiplySingleLoop X y 0 0
  addWorkEstimate X.length
  dcheck (X.length < Z.length)
  return low ++ (carry + high) :: replicate (Z.length - (X.length + 1)) 0

theorem length_multiplySingleLoop (X : Digits) (y high carry : Digit) :
    (multiplySingleLoop X y high carry).1.length = X.length := by
  induction X generalizing high carry with
  | nil => rfl
  | cons x X ih => simp [multiplySingleLoop, ih]

theorem multiplySingleLoop_spec (X : Digits) (y high carry : Digit) :
    (multiplySingleLoop X y high carry).1.value
      + digitBase ^ X.length * ((multiplySingleLoop X y high carry).2.1.toNat
        + (multiplySingleLoop X y high carry).2.2.toNat)
      = X.value * y.toNat + high.toNat + carry.toNat := by
  induction X generalizing high carry with
  | nil => simp [multiplySingleLoop]
  | cons x X ih =>
    have hmul := digitMul_spec x y
    have hadd := digitAdd3_spec (digitMul x y).1 high carry
    have ih := ih (digitMul x y).2 (digitAdd3 (digitMul x y).1 high carry).2
    simp only [multiplySingleLoop, length_cons, value_cons]
    linear_combination hmul + hadd + digitBase * ih

/-- **`MultiplySingle` multiplies.** -/
theorem multiplySingle_yields (Z X : Digits) (y : Digit) (hy : y ≠ 0) (hZ : X.length < Z.length) :
    Yields Live (multiplySingle Z X y)
      (fun Z' => Z'.length = Z.length ∧ Z'.value = X.value * y.toNat) := by
  refine Yields.lift_bind (dcheck_pos hy) ?_
  refine Yields.bind (addWorkEstimate_yields _) fun _ _ => ?_
  refine Yields.lift_bind (dcheck_pos hZ) (Yields.pure ?_)
  have hspec := multiplySingleLoop_spec X y 0 0
  have hlen := length_multiplySingleLoop X y 0 0
  generalize multiplySingleLoop X y 0 0 = r at *
  obtain ⟨low, high, carry⟩ := r
  simp only [UInt64.toNat_zero, Nat.add_zero] at hspec hlen
  -- the last digit does not overflow, as the product has one digit more than `X`
  have hlast : high.toNat + carry.toNat < digitBase := by
    refine Nat.lt_of_mul_lt_mul_left (a := digitBase ^ X.length) ?_
    have : X.value * y.toNat < digitBase ^ X.length * digitBase :=
      Nat.mul_lt_mul'' (value_lt X) (digit_lt y)
    omega
  show (low ++ (carry + high) :: replicate _ 0).length = _
    ∧ Digits.value (low ++ (carry + high) :: replicate _ 0) = _
  constructor
  · simp only [length_append, length_cons, length_replicate]
    omega
  · rw [value_append, value_cons, value_replicate_zero,
      toNat_add_of_lt (by omega), hlen]
    linear_combination hspec

/-! ## Columns -/

/-- The variables that carry from one column to the next. -/
structure Columns where
  next : Digit
  carry : Digit
  nextCarry : Digit

/-- What the columns so far leave for the digits above them. -/
def Columns.pending (c : Columns) : ℕ :=
  c.next.toNat + c.carry.toNat + digitBase * c.nextCarry.toNat

/-- One product of a column: the statements in the loop of `BODY`. -/
def Columns.accumulate (c : Columns) (zi x y : Digit) : Digit × Columns :=
  let (low, high) := digitMul x y
  let (zi, carrybit) := digitAdd2 zi low
  let carry := c.carry + carrybit
  let (next, carrybit) := digitAdd2 c.next high
  (zi, { next, carry, nextCarry := c.nextCarry + carrybit })

/-- The loop of `BODY(min, max)`, with `n` iterations left at `j`. -/
def body (X Y : Digits) (i : ℕ) : ℕ → ℕ → Digit → Columns → Option (Digit × Columns)
  | 0, _, zi, c => some (zi, c)
  | n + 1, j, zi, c => do
    let x ← X[j]?
    let y ← Y[i - j]?
    let (zi, c) := c.accumulate zi x y
    body X Y i n (j + 1) zi c

variable (X Y : Digits)

/-- One column from `min` to `max`. -/
def column (i min max : ℕ) (c : Columns) : Option (Digit × Columns) :=
  let (zi, carry) := digitAdd2 c.next c.carry
  let next := c.nextCarry + carry
  body X Y i (max + 1 - min) min zi { next, carry := 0, nextCarry := 0 }

/-- A loop over `n` columns from `i` on, with the bounds of the column and the
work estimate as functions of `i`. -/
def columns (X Y : Digits) (min max work : ℕ → ℕ) : ℕ → ℕ → Columns → ProcessorM (Digits × Columns)
  | 0, _, c => return ([], c)
  | n + 1, i, c => do
    let (zi, c) ← column X Y i (min i) (max i) c
    addWorkEstimate (work i)
    let (Z, c) ← columns X Y min max work n (i + 1) c
    return (zi :: Z, c)

/-- The first two digits, unrolled: the digits, the next `i` and the
variables. -/
def firstColumns : Option (Digits × ℕ × Columns) := do
  let x ← X[0]?
  let y ← Y[0]?
  let (z, next) := digitMul x y
  if 1 < Y.length then
    let (zi, c) ← body X Y 1 2 0 next { next := 0, carry := 0, nextCarry := 0 }
    return ([z, zi], 2, c)
  else
    return ([z], 1, { next, carry := 0, nextCarry := 0 })

/-- `MultiplySchoolbook`: `Z := X * Y`. -/
def multiplySchoolbook (Z X Y : Digits) : ProcessorM Digits := do
  dcheck X.Normalized
  dcheck Y.Normalized
  dcheck (Y.length ≤ X.length)
  dcheck (X.length + Y.length ≤ Z.length)
  if X.length = 0 ∨ Y.length = 0 then
    return replicate Z.length 0
  let (Z₀, i, c) ← firstColumns X Y
  let (Z₁, c) ← columns X Y (fun _ => 0) (fun i => i) (fun i => i) (Y.length - i) i c
  let i := i + (Y.length - i)
  let maxX := fun i => min i (X.length - 1)
  let minX := fun i => i - (Y.length - 1)
  let (Z₂, c) ← columns X Y minX maxX (fun i => maxX i - minX i)
    (X.length + Y.length - 1 - i) i c
  let (last, carry) := digitAdd2 c.next c.carry
  dcheck (carry = 0)
  return Z₀ ++ Z₁ ++ Z₂ ++ [last] ++ replicate (Z.length - (X.length + Y.length)) 0

theorem Columns.accumulate_spec (c : Columns) (zi x y : Digit)
    (hc : c.carry.toNat + 1 < digitBase) (hn : c.nextCarry.toNat + 1 < digitBase) :
    let r := c.accumulate zi x y
    r.1.toNat + digitBase * r.2.pending = zi.toNat + digitBase * c.pending + x.toNat * y.toNat
      ∧ r.2.carry.toNat ≤ c.carry.toNat + 1 ∧ r.2.nextCarry.toNat ≤ c.nextCarry.toNat + 1 := by
  have hmul := digitMul_spec x y
  have hlow := digitAdd2_spec zi (digitMul x y).1
  have hlow1 := digitAdd2_carry zi (digitMul x y).1
  have hhigh := digitAdd2_spec c.next (digitMul x y).2
  have hhigh1 := digitAdd2_carry c.next (digitMul x y).2
  simp only [accumulate, pending]
  rw [toNat_add_of_lt (by omega), toNat_add_of_lt (by omega)]
  refine ⟨?_, by omega, by omega⟩
  linear_combination hmul + hlow + digitBase * hhigh

/-- **What a column adds**: the pending amount of the variables grows by the
products, as long as the carries cannot overflow. -/
theorem body_spec (i n j : ℕ) (zi : Digit) (c : Columns)
    (hX : j + n ≤ X.length) (hi : j + n ≤ i + 1) (hY : i < Y.length + j)
    (hc : c.carry.toNat + n < digitBase) (hn : c.nextCarry.toNat + n < digitBase) :
    ∃ zi' c', body X Y i n j zi c = some (zi', c') ∧
      zi'.toNat + digitBase * c'.pending = zi.toNat + digitBase * c.pending
        + ∑ k ∈ Finset.range n, X.digitAt (j + k) * Y.digitAt (i - (j + k)) ∧
      c'.carry.toNat ≤ c.carry.toNat + n ∧ c'.nextCarry.toNat ≤ c.nextCarry.toNat + n := by
  induction n generalizing j zi c with
  | zero => exact ⟨zi, c, rfl, by simp, by omega, by omega⟩
  | succ n ih =>
    have hx : X[j]? = some (X.getD j 0) := by
      rw [getD_eq_getElem?_getD, getElem?_eq_getElem (by omega)]
      rfl
    have hy : Y[i - j]? = some (Y.getD (i - j) 0) := by
      rw [getD_eq_getElem?_getD, getElem?_eq_getElem (by omega)]
      rfl
    obtain ⟨hval, hcarry, hnext⟩ :=
      c.accumulate_spec zi (X.getD j 0) (Y.getD (i - j) 0) (by omega) (by omega)
    obtain ⟨zi', c', hrun, hval', hcarry', hnext'⟩ :=
      ih (j + 1) (c.accumulate zi (X.getD j 0) (Y.getD (i - j) 0)).1
        (c.accumulate zi (X.getD j 0) (Y.getD (i - j) 0)).2
        (by omega) (by omega) (by omega) (by omega) (by omega)
    refine ⟨zi', c', ?_, ?_, by omega, by omega⟩
    · rw [body, hx, hy]
      exact hrun
    · have hsum : ∑ k ∈ Finset.range n, X.digitAt (j + (k + 1)) * Y.digitAt (i - (j + (k + 1)))
          = ∑ k ∈ Finset.range n, X.digitAt (j + 1 + k) * Y.digitAt (i - (j + 1 + k)) :=
        sum_congr rfl fun k _ => by rw [Nat.add_comm k 1, ← Nat.add_assoc]
      have hprod : (X.getD j 0).toNat * (Y.getD (i - j) 0).toNat
          = X.digitAt j * Y.digitAt (i - j) := rfl
      rw [hval', hval, sum_range_succ', hsum, hprod, Nat.add_zero j]
      omega

/-- **One column** turns the pending amount and its products into a digit and
a new pending amount. -/
theorem column_spec (i lo hi : ℕ) (c : Columns)
    (hle : lo ≤ hi) (hX : hi < X.length) (hi' : hi ≤ i) (hY : i < Y.length + lo)
    (hlo : ∀ j < lo, Y.length ≤ i - j) (htop : ∀ j, hi < j → j ≤ i → X.length ≤ j)
    (hlen : Y.length + 1 < digitBase) (hc : c.nextCarry.toNat ≤ Y.length) :
    ∃ zi c', column X Y i lo hi c = some (zi, c') ∧ c'.nextCarry.toNat ≤ Y.length ∧
      zi.toNat + digitBase * c'.pending = c.pending + X.columnSum Y i := by
  have hadd := digitAdd2_spec c.next c.carry
  have hadd1 := digitAdd2_carry c.next c.carry
  have hnext : (c.nextCarry + (digitAdd2 c.next c.carry).2).toNat
      = c.nextCarry.toNat + (digitAdd2 c.next c.carry).2.toNat := toNat_add_of_lt (by omega)
  obtain ⟨zi, c', hrun, hval, -, hn⟩ := body_spec X Y i (hi + 1 - lo) lo
    (digitAdd2 c.next c.carry).1
    { next := c.nextCarry + (digitAdd2 c.next c.carry).2, carry := 0, nextCarry := 0 }
    (by omega) (by omega) hY (by simp only [UInt64.toNat_zero]; omega)
    (by simp only [UInt64.toNat_zero]; omega)
  refine ⟨zi, c', hrun, by simp only [UInt64.toNat_zero] at hn; omega, ?_⟩
  rw [hval, columnSum_eq (n := hi + 1 - lo) (by omega) hlo (fun j hj hji => htop j (by omega) hji)]
  simp only [Columns.pending, hnext, UInt64.toNat_zero]
  linear_combination hadd

/-- **Any number of columns** turns the pending amount and the products into
digits and a new pending amount. -/
theorem columns_yields (lo hi work : ℕ → ℕ) (n i : ℕ) (c : Columns)
    (hcol : ∀ k, i ≤ k → k < i + n → lo k ≤ hi k ∧ hi k < X.length ∧ hi k ≤ k ∧
      k < Y.length + lo k ∧ (∀ j < lo k, Y.length ≤ k - j) ∧
      ∀ j, hi k < j → j ≤ k → X.length ≤ j)
    (hlen : Y.length + 1 < digitBase) (hc : c.nextCarry.toNat ≤ Y.length) :
    Yields Live (columns X Y lo hi work n i c) (fun r =>
      r.1.length = n ∧ r.2.nextCarry.toNat ≤ Y.length ∧
      r.1.value + digitBase ^ n * r.2.pending
        = c.pending + ∑ k ∈ Finset.range n, digitBase ^ k * X.columnSum Y (i + k)) := by
  induction n generalizing i c with
  | zero => exact Yields.pure ⟨rfl, hc, by simp⟩
  | succ n ih =>
    obtain ⟨h1, h2, h3, h4, h5, h6⟩ := hcol i le_rfl (by omega)
    obtain ⟨zi, c', hrun, hc', hval⟩ := column_spec X Y i (lo i) (hi i) c h1 h2 h3 h4 h5 h6 hlen hc
    refine Yields.lift_bind hrun (Yields.bind (addWorkEstimate_yields _) fun _ _ => ?_)
    refine Yields.bind (ih (i + 1) c' (fun k hk hk' => hcol k (by omega) (by omega)) hc') ?_
    rintro ⟨Z, c''⟩ ⟨hZ, hc'', hval'⟩
    refine Yields.pure ⟨by simpa using hZ, hc'', ?_⟩
    have hsum : ∑ k ∈ Finset.range n, digitBase ^ (k + 1) * X.columnSum Y (i + (k + 1))
        = digitBase * ∑ k ∈ Finset.range n, digitBase ^ k * X.columnSum Y (i + 1 + k) := by
      rw [mul_sum]
      refine sum_congr rfl fun k _ => ?_
      rw [Nat.add_comm k 1, ← Nat.add_assoc, pow_add, pow_one, Nat.mul_assoc]
    rw [sum_range_succ', hsum]
    simp only [value_cons, pow_zero, Nat.one_mul, Nat.add_zero] at hval' ⊢
    linear_combination hval + digitBase * hval'

/-- The bounds of a column, in the main part and in the last part. -/
def ColumnBounds (i lo hi : ℕ) : Prop :=
  (lo = 0 ∧ hi = i ∧ i < Y.length) ∨ (lo = i - (Y.length - 1) ∧ hi = min i (X.length - 1) ∧
    Y.length ≤ i ∧ i + 1 < X.length + Y.length)

variable {X Y} in
/-- Within the bounds are all positions where both vectors have a digit. -/
theorem ColumnBounds.spec {i lo hi : ℕ} (h : ColumnBounds X Y i lo hi) (hY : 0 < Y.length)
    (hXY : Y.length ≤ X.length) : lo ≤ hi ∧ hi < X.length ∧ hi ≤ i ∧ i < Y.length + lo ∧
      (∀ j < lo, Y.length ≤ i - j) ∧ ∀ j, hi < j → j ≤ i → X.length ≤ j := by
  unfold ColumnBounds at h
  exact ⟨by omega, by omega, by omega, by omega, fun j hj => by omega, fun j hj hj' => by omega⟩

/-- What is known after some columns, and what the following ones do, add up. -/
theorem columns_append {X Y Z Z' : Digits} {i n p p' : ℕ} (hZ : Z.length = i)
    (h : Z.value + digitBase ^ i * p = ∑ k ∈ Finset.range i, digitBase ^ k * X.columnSum Y k)
    (h' : Z'.value + digitBase ^ n * p'
      = p + ∑ k ∈ Finset.range n, digitBase ^ k * X.columnSum Y (i + k)) :
    Digits.value (Z ++ Z') + digitBase ^ (i + n) * p'
      = ∑ k ∈ Finset.range (i + n), digitBase ^ k * X.columnSum Y k := by
  have hsum : ∑ k ∈ Finset.range n, digitBase ^ (i + k) * X.columnSum Y (i + k)
      = digitBase ^ i * ∑ k ∈ Finset.range n, digitBase ^ k * X.columnSum Y (i + k) := by
    rw [mul_sum]
    exact sum_congr rfl fun k _ => by rw [pow_add, Nat.mul_assoc]
  rw [sum_range_add, hsum, value_append, hZ, pow_add]
  linear_combination h + digitBase ^ i * h'

/-- The unrolled columns are columns. -/
theorem firstColumns_spec (hY : Y ≠ []) (hXY : Y.length ≤ X.length)
    (hlen : Y.length + 1 < digitBase) :
    ∃ Z i c, firstColumns X Y = some (Z, i, c) ∧ Z.length = i ∧ i ≤ Y.length ∧ 1 ≤ i ∧
      c.nextCarry.toNat ≤ Y.length ∧
      Z.value + digitBase ^ i * c.pending
        = ∑ k ∈ Finset.range i, digitBase ^ k * X.columnSum Y k := by
  obtain ⟨y, Y, rfl⟩ := exists_cons_of_ne_nil hY
  obtain ⟨x, X, rfl⟩ : ∃ x X', X = x :: X' :=
    exists_cons_of_ne_nil (by rintro rfl; simp at hXY)
  have hmul := digitMul_spec x y
  have hcol0 : Digits.columnSum (x :: X) (y :: Y) 0 = x.toNat * y.toNat := by
    simp [Digits.columnSum, Digits.digitAt]
  by_cases h1 : 1 < (y :: Y).length
  · obtain ⟨zi, c, hrun, hval, -, hn⟩ := body_spec (x :: X) (y :: Y) 1 2 0 (digitMul x y).2
      { next := 0, carry := 0, nextCarry := 0 } (by omega) (by omega) (by omega)
      (by simp only [UInt64.toNat_zero]; omega) (by simp only [UInt64.toNat_zero]; omega)
    have hcol1 : Digits.columnSum (x :: X) (y :: Y) 1 = ∑ k ∈ Finset.range 2,
        Digits.digitAt (x :: X) (0 + k) * Digits.digitAt (y :: Y) (1 - (0 + k)) :=
      columnSum_eq (by omega) (fun j hj => by omega) (fun j hj hj' => by omega)
    refine ⟨[(digitMul x y).1, zi], 2, c, ?_, rfl, h1, by omega, ?_, ?_⟩
    · simp only [firstColumns, getElem?_cons_zero, Option.bind_eq_bind, Option.bind_some,
        if_pos h1, hrun]
      rfl
    · simp only [UInt64.toNat_zero] at hn
      omega
    · rw [sum_range_succ, sum_range_one, hcol0, hcol1]
      simp only [value_cons, value_nil, Columns.pending, UInt64.toNat_zero] at hval ⊢
      linear_combination hmul + digitBase * hval
  · refine ⟨[(digitMul x y).1], 1, { next := (digitMul x y).2, carry := 0, nextCarry := 0 },
      ?_, rfl, by simp, le_rfl, by simp, ?_⟩
    · simp only [firstColumns, getElem?_cons_zero, Option.bind_eq_bind, Option.bind_some,
        if_neg h1]
      rfl
    · rw [sum_range_one, hcol0]
      simp only [value_cons, value_nil, Columns.pending, UInt64.toNat_zero]
      linear_combination hmul

/-- If less than the base is pending, it is the last digit. -/
theorem Columns.last_digit (c : Columns) (h : c.pending < digitBase) :
    (digitAdd2 c.next c.carry).1.toNat = c.pending ∧ (digitAdd2 c.next c.carry).2 = 0 := by
  have hadd := digitAdd2_spec c.next c.carry
  rw [pending] at *
  have hn : c.nextCarry.toNat = 0 :=
    Nat.lt_one_iff.mp (Nat.lt_of_mul_lt_mul_left (a := digitBase) (by omega))
  have hc : (digitAdd2 c.next c.carry).2.toNat = 0 :=
    Nat.lt_one_iff.mp (Nat.lt_of_mul_lt_mul_left (a := digitBase) (by omega))
  rw [hn, Nat.mul_zero, Nat.add_zero]
  rw [hc, Nat.mul_zero, Nat.add_zero] at hadd
  exact ⟨hadd, UInt64.toNat_inj.mp hc⟩

/-- **`MultiplySchoolbook` multiplies**, with zeros in the digits of `Z` that
the product does not need. -/
theorem multiplySchoolbook_yields (Z X Y : Digits) (hX : X.Normalized) (hY : Y.Normalized)
    (hXY : Y.length ≤ X.length) (hZ : X.length + Y.length ≤ Z.length)
    (hlen : Y.length + 1 < digitBase) :
    Yields Live (multiplySchoolbook Z X Y)
      (fun Z' => Z'.length = Z.length ∧ Z'.value = X.value * Y.value) := by
  refine Yields.lift_bind (dcheck_pos hX) (Yields.lift_bind (dcheck_pos hY) ?_)
  refine Yields.lift_bind (dcheck_pos hXY) (Yields.lift_bind (dcheck_pos hZ) ?_)
  by_cases h0 : X.length = 0 ∨ Y.length = 0
  · rw [if_pos h0]
    have hY0 : Y = [] := eq_nil_of_length_eq_zero (by omega)
    exact Yields.pure ⟨length_replicate, by simp [hY0]⟩
  rw [if_neg h0]
  have hYne : Y ≠ [] := by rintro rfl; simp at h0
  obtain ⟨Z₀, i, c, hrun, hZ₀, hi, hi1, hc, hval⟩ := firstColumns_spec X Y hYne hXY hlen
  refine Yields.lift_bind hrun ?_
  have hbounds {k lo hi : ℕ} (h : ColumnBounds X Y k lo hi) := h.spec (by omega) hXY
  refine Yields.bind (columns_yields X Y _ _ _ (Y.length - i) i c (fun k hk hk' => ?_) hlen hc) ?_
  · exact hbounds (.inl ⟨rfl, rfl, by omega⟩)
  rintro ⟨Z₁, c₁⟩ ⟨hZ₁, hc₁, hval₁⟩
  refine Yields.bind (columns_yields X Y _ _ _ _ _ c₁ (fun k hk hk' => ?_) hlen hc₁) ?_
  · exact hbounds (.inr ⟨rfl, rfl, by omega, by omega⟩)
  rintro ⟨Z₂, c₂⟩ ⟨hZ₂, hc₂, hval₂⟩
  have hval' : Digits.value (Z₀ ++ Z₁ ++ Z₂) + digitBase ^ _ * c₂.pending = _ :=
    columns_append (by simp [hZ₀, hZ₁]) (columns_append hZ₀ hval hval₁) hval₂
  have hN : i + (Y.length - i) + (X.length + Y.length - 1 - (i + (Y.length - i)))
      = X.length + Y.length - 1 := by omega
  have hN1 : X.length + Y.length - 1 + 1 = X.length + Y.length := by omega
  rw [hN, value_mul_value X Y _ (by omega)] at hval'
  have hprod : X.value * Y.value < digitBase ^ (X.length + Y.length - 1) * digitBase := by
    rw [← pow_succ, hN1, pow_add]
    exact Nat.mul_lt_mul'' X.value_lt Y.value_lt
  -- only one digit is left to be written, so that no carry is
  have hpending : c₂.pending < digitBase :=
    Nat.lt_of_mul_lt_mul_left (a := digitBase ^ (X.length + Y.length - 1)) (by omega)
  obtain ⟨hlast, hcarry⟩ := c₂.last_digit hpending
  refine Yields.lift_bind (dcheck_pos hcarry) (Yields.pure ⟨?_, ?_⟩)
  · simp only [length_append, length_cons, length_nil, length_replicate,
      hZ₀, hZ₁, hZ₂]
    omega
  · rw [value_append, value_replicate_zero, value_append, ← hval']
    simp only [length_append, hZ₀, hZ₁, hZ₂, hN, value_cons, value_nil, hlast]
    ring

/-! ## No carry is lost -/

/-- The states with which a column begins: after the unrolled columns, and after any
column. -/
inductive Arrives : ℕ → Columns → Prop
  | first {Z : Digits} {i : ℕ} {c : Columns} (h : firstColumns X Y = some (Z, i, c)) : Arrives i c
  | next {i lo hi : ℕ} {zi : Digit} {c c' : Columns} (h : Arrives i c)
      (hbounds : ColumnBounds X Y i lo hi) (hrun : column X Y i lo hi c = some (zi, c')) :
      Arrives (i + 1) c'

/-- A carry can be added to each of the counters. -/
def Columns.Room (c : Columns) : Prop :=
  c.carry.toNat + 1 < digitBase ∧ c.nextCarry.toNat + 1 < digitBase

variable {X Y}

/-- A column adds no more carries to a counter than it has products. -/
theorem Arrives.nextCarry_le {i : ℕ} {c : Columns} (h : Arrives X Y i c) (hY : 0 < Y.length)
    (hXY : Y.length ≤ X.length) (hlen : Y.length + 1 < digitBase) :
    c.nextCarry.toNat ≤ Y.length := by
  induction h with
  | first h =>
    obtain ⟨Z, i, c, hrun, -, -, -, hc, -⟩ :=
      firstColumns_spec X Y (ne_nil_of_length_pos hY) hXY hlen
    cases h.symm.trans hrun
    exact hc
  | next _ hbounds hrun ih =>
    obtain ⟨h1, h2, h3, h4, h5, h6⟩ := hbounds.spec hY hXY
    obtain ⟨zi, c', hrun', hc', -⟩ := column_spec X Y _ _ _ _ h1 h2 h3 h4 h5 h6 hlen ih
    cases hrun.symm.trans hrun'
    exact hc'

/-- The counters after some products of a column. -/
theorem body_room {i n j : ℕ} (zi next : Digit) (hX : j + n ≤ X.length) (hi : j + n ≤ i + 1)
    (hY : i < Y.length + j) (hlen : Y.length + 1 < digitBase) :
    ∃ zi' c', body X Y i n j zi ⟨next, 0, 0⟩ = some (zi', c') ∧ c'.Room := by
  obtain ⟨zi', c', hrun, -, hcarry, hnext⟩ := body_spec X Y i n j zi ⟨next, 0, 0⟩ hX hi hY
    (by simp only [UInt64.toNat_zero]; omega) (by simp only [UInt64.toNat_zero]; omega)
  simp only [UInt64.toNat_zero] at hcarry hnext
  exact ⟨zi', c', hrun, by omega, by omega⟩

/-- **`MultiplySchoolbook` loses no carry.** It writes the product, with no carry out of the last
digit, which is asserted. In the unrolled column and in all others the counters have room for
one carry more after any number of products, the sum of the counters that the next column begins
with does not wrap around, and each column adds all of its products to what is pending. -/
theorem multiplySchoolbook_exact (Z X Y : Digits) (hX : X.Normalized) (hY : Y.Normalized)
    (hpos : 1 ≤ Y.length) (hXY : Y.length ≤ X.length) (hZ : X.length + Y.length ≤ Z.length)
    (hint : Z.length < 2 ^ 31) :
    (∀ p, ∃ Z' p', (multiplySchoolbook Z X Y).run p = some (Z', p') ∧ Z'.length = Z.length ∧
      Z'.value = X.value * Y.value) ∧
    (1 < Y.length → ∀ n ≤ 2, ∀ zi, ∃ zi' c, body X Y 1 n 0 zi ⟨0, 0, 0⟩ = some (zi', c) ∧ c.Room) ∧
    ∀ i c lo hi, Arrives X Y i c → ColumnBounds X Y i lo hi →
      c.nextCarry.toNat + (digitAdd2 c.next c.carry).2.toNat < digitBase ∧
      (∃ zi c', column X Y i lo hi c = some (zi, c') ∧
        zi.toNat + digitBase * c'.pending = c.pending + X.columnSum Y i) ∧
      ∀ n, lo + n ≤ hi + 1 → ∃ zi c', body X Y i n lo (digitAdd2 c.next c.carry).1
        ⟨c.nextCarry + (digitAdd2 c.next c.carry).2, 0, 0⟩ = some (zi, c') ∧ c'.Room := by
  have hlen : Y.length + 1 < digitBase := by
    have : 2 ^ 31 < digitBase := by decide
    omega
  refine ⟨fun p => ?_, fun h1 n hn zi => ?_, fun i c lo hi harrives hbounds => ?_⟩
  · obtain ⟨Z', p', hrun, hval, -⟩ := multiplySchoolbook_yields Z X Y hX hY hXY hZ hlen p
    exact ⟨Z', p', hrun, hval⟩
  · exact body_room zi 0 (by omega) (by omega) (by omega) hlen
  · have hc := harrives.nextCarry_le hpos hXY hlen
    have hcarry := digitAdd2_carry c.next c.carry
    obtain ⟨h1, h2, h3, h4, h5, h6⟩ := hbounds.spec hpos hXY
    obtain ⟨zi, c', hrun, -, hval⟩ := column_spec X Y i lo hi c h1 h2 h3 h4 h5 h6 hlen hc
    exact ⟨by omega, ⟨zi, c', hrun, hval⟩, fun n hn =>
      body_room _ _ (by omega) (by omega) h4 hlen⟩

/-- Two digits by two, which have a column in the last part. -/
theorem multiplySchoolbook_exact_two_by_two : ∃ Z' p',
    (multiplySchoolbook [7, 7, 7, 7, 7] [9, 9] [9, 9]).run ⟨0, .kOk, fun _ => true, 0⟩ =
      some (Z', p') ∧ Z'.length = 5 ∧ Z'.value = Digits.value [9, 9] * Digits.value [9, 9] :=
  (multiplySchoolbook_exact [7, 7, 7, 7, 7] [9, 9] [9, 9] (by decide) (by decide) (by decide)
    (by decide) (by decide) (by decide)).1 _

end Processor
