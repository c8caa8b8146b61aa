import V8Speak.VectorArithmetic

/-!
# Bitwise operations on signed magnitudes

A BigInt is a sign and a magnitude, and JavaScript defines `&`, `|` and `^` on
the infinite two's-complement representation of the operands. The routines of
`bigint/bitwise.cc` never build that representation. They use that the bits of
`-x` are the complements of the bits of `x - 1`, so that a negative operand is
read as its magnitude less one, with a borrow that travels along the digits,
the operation is replaced by the one that De Morgan's laws give, and one is
added to the result if it is negative.

There are nine routines: three operations, each for two non-negative operands,
for two negative ones, and for a non-negative `X` and a negative `Y`. They
differ in the operation on digits, in how each operand is read, and in which
of the loops over the rest of the longer operand are there (`loops`). Where
such a loop is missing, what is left of the operand – digits and borrow – has
no influence on the result; where it is there, the source asserts that nothing
is borrowed at its end.

The loops are specified by bits (`loops_spec`): they apply a Boolean function
to the bits of the two numbers read. With the length that the matching
`*_ResultLength` function returns, no store is out of range, and neither is
the carry of the final increment.
-/

open Nat List

namespace Digits

/-- **The bits of a vector are those of its digits.** -/
theorem testBit_value_cons (d : Digit) (X : Digits) (k : ℕ) : (value (d :: X)).testBit k =
      if k < kDigitBits then d.toNat.testBit k else (value X).testBit (k - kDigitBits) := by
  rw [value_cons, Nat.add_comm]
  exact testBit_two_pow_mul_add _ (digit_lt d) k

end Digits

namespace Bitwise

open Digits

/-! ## The loops -/

/-- How a routine reads an operand: a non-negative one as it is, the magnitude of a negative one
less one. -/
inductive Operand
  | pos
  | neg
  deriving DecidableEq, Repr

namespace Operand

/-- The sign of the operand. -/
def negative : Operand → Bool
  | pos => false
  | neg => true

theorem negative_iff {o : Operand} : o.negative = true ↔ o = .neg := by cases o <;> decide

/-- The borrow before the first digit: `digit_t borrow = 1`, where there is one. -/
def borrow : Operand → Digit
  | pos => 0
  | neg => 1

/-- The next digit: `X[i]`, or `digit_sub(X[i], borrow, &borrow)`. -/
def read : Operand → Digit → Digit → Digit × Digit
  | pos, x, borrow => (x, borrow)
  | neg, x, borrow => digitSub x borrow

/-- The loop over the rest of an operand, `for (; i < X.len(); i++) Z[i] = …;`. -/
def rest (o : Operand) : Digits → Digit → Digits × Digit
  | [], borrow => ([], borrow)
  | x :: X, borrow =>
    let (z, borrow) := o.read x borrow
    let (Z, borrow) := o.rest X borrow
    (z :: Z, borrow)

/-- The number that is read. -/
def magnitude : Operand → Digits → ℕ
  | pos, X => value X
  | neg, X => value X - 1

end Operand

/-- The loop over the digits that both operands have: the digits stored, and what is left of the
operands, each with its borrow. -/
def pairsLoop (op : Digit → Digit → Digit) (x y : Operand) :
    Digits → Digits → Digit → Digit → Digits × (Digits × Digit) × (Digits × Digit)
  | dx :: X, dy :: Y, xBorrow, yBorrow =>
    let (dx, xBorrow) := x.read dx xBorrow
    let (dy, yBorrow) := y.read dy yBorrow
    let (Z, left) := pairsLoop op x y X Y xBorrow yBorrow
    (op dx dy :: Z, left)
  | X, Y, xBorrow, yBorrow => ([], (X, xBorrow), (Y, yBorrow))

/-- The loops of a routine. `restX` and `restY` say whether there is a loop over what is left of an
operand; after it nothing may be borrowed. -/
def loops (op : Digit → Digit → Digit) (x y : Operand) (restX restY : Bool) (Z X Y : Digits) :
    Option Digits := do
  let (low, (X, xBorrow), (Y, yBorrow)) := pairsLoop op x y X Y x.borrow y.borrow
  let (highX, xBorrow) := if restX then x.rest X xBorrow else ([], 0)
  let (highY, yBorrow) := if restY then y.rest Y yBorrow else ([], 0)
  dcheck (xBorrow = 0)
  dcheck (yBorrow = 0)
  store Z (low ++ highX ++ highY)

/-! ## The routines -/

variable (Z X Y : Digits)

def bitwiseAndPosPos : Option Digits :=
  loops (fun x y => x &&& y) .pos .pos false false Z X Y

/-- `BitwiseAnd_NegNeg`: `(-x) & (-y) == -(((x-1) | (y-1)) + 1)`. -/
def bitwiseAndNegNeg : Option Digits := do
  let Z ← loops (fun x y => x ||| y) .neg .neg true true Z X Y
  addDigit Z 1

/-- `BitwiseAnd_PosNeg`: `x & (-y) == x & ~(y-1)`. -/
def bitwiseAndPosNeg : Option Digits :=
  loops (fun x y => x &&& ~~~y) .pos .neg true false Z X Y

def bitwiseOrPosPos : Option Digits :=
  loops (fun x y => x ||| y) .pos .pos true true Z X Y

/-- `BitwiseOr_NegNeg`: `(-x) | (-y) == -(((x-1) & (y-1)) + 1)`. Leftover borrows don't matter. -/
def bitwiseOrNegNeg : Option Digits := do
  let Z ← loops (fun x y => x &&& y) .neg .neg false false Z X Y
  addDigit Z 1

/-- `BitwiseOr_PosNeg`: `x | (-y) == -(((y-1) &~ x) + 1)`. -/
def bitwiseOrPosNeg : Option Digits := do
  let Z ← loops (fun x y => y &&& ~~~x) .pos .neg false true Z X Y
  addDigit Z 1

/-- `BitwiseXor_PosPos`, which swaps the operands so that `Y` is not the shorter one and needs only
the loop over the rest of `Y`. -/
def bitwiseXorPosPos : Option Digits :=
  if Y.length < X.length then loops (fun x y => x ^^^ y) .pos .pos false true Z Y X
  else loops (fun x y => x ^^^ y) .pos .pos false true Z X Y

/-- `BitwiseXor_NegNeg`: `(-x) ^ (-y) == (x-1) ^ (y-1)`. -/
def bitwiseXorNegNeg : Option Digits :=
  loops (fun x y => x ^^^ y) .neg .neg true true Z X Y

/-- `BitwiseXor_PosNeg`: `x ^ (-y) == -((x ^ (y-1)) + 1)`. -/
def bitwiseXorPosNeg : Option Digits := do
  let Z ← loops (fun x y => x ^^^ y) .pos .neg true true Z X Y
  addDigit Z 1

/-! The lengths of the results (`bigint/bigint.h`). -/

variable (xLength yLength : ℕ)

def bitwiseAndPosPosResultLength : ℕ := min xLength yLength

def bitwiseAndNegNegResultLength : ℕ := max xLength yLength + 1

def bitwiseAndPosNegResultLength (xLength : ℕ) : ℕ := xLength

def bitwiseOrResultLength : ℕ := max xLength yLength

def bitwiseXorPosPosResultLength : ℕ := max xLength yLength

def bitwiseXorNegNegResultLength : ℕ := max xLength yLength

def bitwiseXorPosNegResultLength : ℕ := max xLength yLength + 1

/-- The operations. -/
inductive Operation
  | and
  | or
  | xor
  deriving DecidableEq, Repr

/-- The signs of the operands for which there is a routine. -/
inductive Variant
  | posPos
  | negNeg
  | posNeg
  deriving DecidableEq, Repr

/-- The operation on one bit. -/
def Operation.eval : Operation → Bool → Bool → Bool
  | and, a, b => a && b
  | or, a, b => a || b
  | xor, a, b => a ^^ b

def Variant.x : Variant → Operand
  | posPos => .pos
  | negNeg => .neg
  | posNeg => .pos

def Variant.y : Variant → Operand
  | posPos => .pos
  | negNeg => .neg
  | posNeg => .neg

/-- The nine routines. -/
def routine : Operation → Variant → Digits → Digits → Digits → Option Digits
  | .and, .posPos => bitwiseAndPosPos
  | .and, .negNeg => bitwiseAndNegNeg
  | .and, .posNeg => bitwiseAndPosNeg
  | .or, .posPos => bitwiseOrPosPos
  | .or, .negNeg => bitwiseOrNegNeg
  | .or, .posNeg => bitwiseOrPosNeg
  | .xor, .posPos => bitwiseXorPosPos
  | .xor, .negNeg => bitwiseXorNegNeg
  | .xor, .posNeg => bitwiseXorPosNeg

/-- The length of the result vector of each. -/
def resultLength : Operation → Variant → ℕ → ℕ → ℕ
  | .and, .posPos, xLength, yLength => bitwiseAndPosPosResultLength xLength yLength
  | .and, .negNeg, xLength, yLength => bitwiseAndNegNegResultLength xLength yLength
  | .and, .posNeg, xLength, _ => bitwiseAndPosNegResultLength xLength
  | .or, _, xLength, yLength => bitwiseOrResultLength xLength yLength
  | .xor, .posPos, xLength, yLength => bitwiseXorPosPosResultLength xLength yLength
  | .xor, .negNeg, xLength, yLength => bitwiseXorNegNegResultLength xLength yLength
  | .xor, .posNeg, xLength, yLength => bitwiseXorPosNegResultLength xLength yLength

/-- The sign of the result: where the callers `BigInt::BitwiseAnd`, `BigInt::BitwiseOr` and
`BigInt::BitwiseXor` (`objects/bigint.cc`) do `result->set_sign(true)`. -/
def resultSign : Operation → Variant → Bool
  | .and, .negNeg => true
  | .or, .negNeg => true
  | .or, .posNeg => true
  | .xor, .posNeg => true
  | _, _ => false

/-! ## What is read -/

theorem Operand.length_rest (o : Operand) (X : Digits) (borrow : Digit) :
    (o.rest X borrow).1.length = X.length := by
  induction X generalizing borrow with
  | nil => rfl
  | cons x X ih => rw [Operand.rest, length_cons, length_cons, ih]

theorem Operand.rest_pos (X : Digits) (borrow : Digit) :
    Operand.pos.rest X borrow = (X, borrow) := by
  induction X with
  | nil => rfl
  | cons x X ih => simp only [Operand.rest, Operand.read, ih]

theorem Operand.rest_neg (X : Digits) (borrow : Digit) :
    Operand.neg.rest X borrow = subBorrow X borrow := by
  induction X generalizing borrow with
  | nil => rfl
  | cons x X ih => simp only [Operand.rest, Operand.read, subBorrow, ih]

/-- **All of an operand.** The digits read are those of its magnitude, and nothing is borrowed at
the end: a negative operand is not zero. -/
theorem Operand.rest_spec {o : Operand} {X : Digits} (h : o.negative = true → 0 < value X) :
    value (o.rest X o.borrow).1 = o.magnitude X ∧ (o.rest X o.borrow).2 = 0 := by
  cases o with
  | pos => rw [Operand.rest_pos]; exact ⟨rfl, rfl⟩
  | neg =>
    have hpos := h rfl
    have hspec := subBorrow_spec X 1
    have hlt := value_lt (subBorrow X 1).1
    have hX := value_lt X
    rw [UInt64.toNat_one] at hspec
    rw [length_subBorrow] at hlt
    have hborrow : (subBorrow X 1).2.toNat = 0 := by
      refine lt_one_iff.mp (Nat.lt_of_mul_lt_mul_left (a := digitBase ^ X.length) ?_)
      omega
    rw [Operand.rest_neg, Operand.magnitude, Operand.borrow]
    rw [hborrow] at hspec
    exact ⟨by omega, UInt64.toNat_inj.mp hborrow⟩

/-- Two vectors combined digit by digit. -/
def combine (op : Digit → Digit → Digit) (restX restY : Bool) : Digits → Digits → Digits
  | x :: X, y :: Y => op x y :: combine op restX restY X Y
  | X, Y => (if restX then X else []) ++ if restY then Y else []

variable {op : Digit → Digit → Digit} {x y : Operand} {restX restY : Bool} {Z X Y : Digits}

/-- **The loops combine what is read of the operands**: a borrow into a digit depends on the digits
below it only. -/
theorem combine_rest (op : Digit → Digit → Digit) (x y : Operand) (restX restY : Bool)
    (X Y : Digits) (xBorrow yBorrow : Digit) :
    let run := pairsLoop op x y X Y xBorrow yBorrow
    run.1 ++ (if restX then (x.rest run.2.1.1 run.2.1.2).1 else []) ++
        (if restY then (y.rest run.2.2.1 run.2.2.2).1 else []) =
      combine op restX restY (x.rest X xBorrow).1 (y.rest Y yBorrow).1 ∧
    (x.rest run.2.1.1 run.2.1.2).2 = (x.rest X xBorrow).2 ∧
    (y.rest run.2.2.1 run.2.2.2).2 = (y.rest Y yBorrow).2 := by
  induction X generalizing Y xBorrow yBorrow with
  | nil => simp only [pairsLoop, Operand.rest, combine, nil_append, and_self]
  | cons dx X ih =>
    cases Y with
    | nil => simp only [pairsLoop, Operand.rest, combine, nil_append, and_self]
    | cons dy Y =>
      obtain ⟨hdigits, hx, hy⟩ := ih Y (x.read dx xBorrow).2 (y.read dy yBorrow).2
      refine ⟨?_, hx, hy⟩
      simp only [pairsLoop, Operand.rest, combine, cons_append]
      rw [← hdigits]

/-- **The loops as a whole**: the operands are read, combined and stored. -/
theorem loops_eq_store (hx : x.negative = true → 0 < value X)
    (hy : y.negative = true → 0 < value Y) :
    loops op x y restX restY Z X Y =
      store Z (combine op restX restY (x.rest X x.borrow).1 (y.rest Y y.borrow).1) := by
  obtain ⟨hdigits, hxlast, hylast⟩ := combine_rest op x y restX restY X Y x.borrow y.borrow
  have hxcheck : (if restX then x.rest (pairsLoop op x y X Y x.borrow y.borrow).2.1.1
      (pairsLoop op x y X Y x.borrow y.borrow).2.1.2 else ([], 0)).2 = 0 := by
    cases restX
    · rfl
    · exact hxlast.trans (Operand.rest_spec hx).2
  have hycheck : (if restY then y.rest (pairsLoop op x y X Y x.borrow y.borrow).2.2.1
      (pairsLoop op x y X Y x.borrow y.borrow).2.2.2 else ([], 0)).2 = 0 := by
    cases restY
    · rfl
    · exact hylast.trans (Operand.rest_spec hy).2
  simp only [loops, dcheck_pos hxcheck, dcheck_pos hycheck, Option.bind_eq_bind, Option.bind_some]
  rw [apply_ite Prod.fst, apply_ite Prod.fst, hdigits]

/-- The shorter operand has no rest. -/
theorem combine_of_length_le {X Y : Digits} (h : X.length ≤ Y.length) :
    combine op false true X Y = combine op true true X Y := by
  induction X generalizing Y with
  | nil => simp [combine]
  | cons dx X ih =>
    cases Y with
    | nil => exact absurd h (by simp)
    | cons dy Y => rw [combine, combine, ih (by simpa using h)]

theorem combine_comm (hcomm : ∀ a b, op a b = op b a) (X Y : Digits) :
    combine op true true X Y = combine op true true Y X := by
  induction X generalizing Y with
  | nil => cases Y <;> simp [combine]
  | cons dx X ih =>
    cases Y with
    | nil => simp [combine]
    | cons dy Y => rw [combine, combine, hcomm, ih]

/-- The number of digits that the loops store. -/
def loopLength (restX restY : Bool) (xLength yLength : ℕ) : ℕ :=
  match restX, restY with
  | true, true => max xLength yLength
  | true, false => xLength
  | false, true => yLength
  | false, false => min xLength yLength

theorem length_combine (op : Digit → Digit → Digit) (restX restY : Bool) (X Y : Digits) :
    (combine op restX restY X Y).length = loopLength restX restY X.length Y.length := by
  induction X generalizing Y with
  | nil => cases restX <;> cases restY <;> simp [combine, loopLength]
  | cons dx X ih =>
    cases Y with
    | nil => cases restX <;> cases restY <;> simp [combine, loopLength]
    | cons dy Y =>
      rw [combine, length_cons, ih]
      cases restX <;> cases restY <;> simp only [loopLength, length_cons] <;> omega

/-! ## The bits of the result -/

/-- An operation on digits that applies a Boolean function to their bits. -/
def ActsBy (op : Digit → Digit → Digit) (f : Bool → Bool → Bool) : Prop :=
  ∀ a b k, k < kDigitBits → (op a b).toNat.testBit k = f (a.toNat.testBit k) (b.toNat.testBit k)

/-- Beyond the shorter operand, the bits of the other one are kept or left out. -/
abbrev KeepsRest (f : Bool → Bool → Bool) (restX restY : Bool) : Prop :=
  (∀ b, f b false = (restX && b)) ∧ ∀ b, f false b = (restY && b)

variable {f : Bool → Bool → Bool}

theorem testBit_combine (hop : ActsBy op f) (hrest : KeepsRest f restX restY) (X Y : Digits)
    (k : ℕ) : (value (combine op restX restY X Y)).testBit k =
      f ((value X).testBit k) ((value Y).testBit k) := by
  induction X generalizing Y k with
  | nil =>
    rw [value_nil, zero_testBit, hrest.2]
    cases restX <;> cases restY <;> simp [combine]
  | cons dx X ih =>
    cases Y with
    | nil =>
      rw [value_nil, zero_testBit, hrest.1]
      cases restX <;> cases restY <;> simp [combine]
    | cons dy Y =>
      rw [combine, testBit_value_cons, testBit_value_cons, testBit_value_cons]
      by_cases hk : k < kDigitBits
      · rw [if_pos hk, if_pos hk, if_pos hk, hop _ _ _ hk]
      · rw [if_neg hk, if_neg hk, if_neg hk, ih]

/-- **The loops of a routine** apply a Boolean function to the bits of the two numbers read. -/
theorem loops_spec (hop : ActsBy op f) (hrest : KeepsRest f restX restY)
    (hx : x.negative = true → 0 < value X) (hy : y.negative = true → 0 < value Y)
    (hlen : loopLength restX restY X.length Y.length ≤ Z.length) :
    ∃ Z', loops op x y restX restY Z X Y = some Z' ∧ Z'.length = Z.length ∧
      value Z' < digitBase ^ loopLength restX restY X.length Y.length ∧
      ∀ k, (value Z').testBit k = f ((x.magnitude X).testBit k) ((y.magnitude Y).testBit k) := by
  have hlength := length_combine op restX restY (x.rest X x.borrow).1 (y.rest Y y.borrow).1
  rw [Operand.length_rest, Operand.length_rest] at hlength
  rw [← hlength] at hlen ⊢
  obtain ⟨Z', hstore, hZ', hvalue⟩ := store_of_le hlen
  refine ⟨Z', (loops_eq_store hx hy).trans hstore, hZ', hvalue ▸ value_lt _, fun k => ?_⟩
  rw [hvalue, testBit_combine hop hrest, (Operand.rest_spec hx).1, (Operand.rest_spec hy).1]

/-- **The loops and the final increment**, where there is a place for the carry: above the digits
that the loops store, or because the result is at most an operand that is not zero. -/
theorem loops_addDigit_spec (hop : ActsBy op f) (hrest : KeepsRest f restX restY)
    (hx : x.negative = true → 0 < value X) (hy : 0 < value Y) (hyneg : y = .neg)
    (hlen : loopLength restX restY X.length Y.length ≤ Z.length) (hYZ : Y.length ≤ Z.length)
    (hroom : loopLength restX restY X.length Y.length < Z.length ∨ ∀ a b, f a b = true → b = true) :
    ∃ Z', (loops op x y restX restY Z X Y >>= (addDigit · 1)) = some Z' ∧ Z'.length = Z.length ∧
      0 < value Z' ∧
      ∀ k, (value Z' - 1).testBit k = f ((x.magnitude X).testBit k) ((y.magnitude Y).testBit k) := by
  obtain ⟨W, hrun, hlength, hlt, hbits⟩ := loops_spec hop hrest hx (fun _ => hy) hlen
  have hfits : value W + (1 : Digit).toNat < digitBase ^ W.length := by
    rw [hlength, UInt64.toNat_one]
    rcases hroom with hroom | hroom
    · have := Nat.pow_lt_pow_right one_lt_digitBase hroom
      omega
    · -- the bits of the result are among those of `y - 1`
      have hand : value W &&& y.magnitude Y = value W := by
        refine eq_of_testBit_eq fun k => ?_
        rw [testBit_and, Bool.and_eq_left_iff_imp, hbits]
        exact hroom _ _
      have hle : value W ≤ y.magnitude Y := hand ▸ and_le_right
      have hYlt := value_lt_of_length_le hYZ
      rw [hyneg, Operand.magnitude] at hle
      omega
  have hne : W ≠ [] := by
    rintro rfl
    have hYnil : Y = [] := eq_nil_of_length_eq_zero (by rw [length_nil] at hlength; omega)
    rw [hYnil] at hy
    exact absurd hy (lt_irrefl _)
  obtain ⟨Z', hadd, hlen', hval⟩ := addDigit_of_lt hne hfits
  rw [UInt64.toNat_one] at hval
  refine ⟨Z', by rw [hrun, Option.bind_eq_bind, Option.bind_some, hadd], hlen'.trans hlength,
    by omega, fun k => ?_⟩
  rw [hval, Nat.add_sub_cancel, hbits]

/-! ## The operations on digits -/

theorem actsBy_and : ActsBy (fun a b => a &&& b) (fun a b => a && b) := fun a b k _ => by
  rw [UInt64.toNat_and, testBit_and]

theorem actsBy_or : ActsBy (fun a b => a ||| b) (fun a b => a || b) := fun a b k _ => by
  rw [UInt64.toNat_or, testBit_or]

theorem actsBy_xor : ActsBy (fun a b => a ^^^ b) (fun a b => a ^^ b) := fun a b k _ => by
  rw [UInt64.toNat_xor, testBit_xor]

theorem testBit_not (a : Digit) {k : ℕ} (hk : k < kDigitBits) :
    (~~~a).toNat.testBit k = !a.toNat.testBit k := by
  rw [← UInt64.toNat_toBitVec, ← UInt64.toNat_toBitVec, UInt64.toBitVec_not, BitVec.testBit_toNat,
    BitVec.testBit_toNat, BitVec.getLsbD_not, decide_eq_true (show k < 64 from hk), Bool.true_and]

theorem actsBy_and_not : ActsBy (fun a b => a &&& ~~~b) (fun a b => a && !b) := fun a b k hk => by
  rw [UInt64.toNat_and, testBit_and, testBit_not b hk]

theorem actsBy_not_and : ActsBy (fun a b => b &&& ~~~a) (fun a b => b && !a) := fun a b k hk => by
  rw [UInt64.toNat_and, testBit_and, testBit_not a hk]

/-! ## Two's complement -/

/-- **The bits of a signed number.** Those of a negative one are the complements of the bits of its
magnitude less one. -/
theorem testBit_signedValue {o : Operand} {X : Digits} (h : o.negative = true → 0 < value X)
    (k : ℕ) : (signedValue o.negative X).testBit k = (o.negative ^^ (o.magnitude X).testBit k) := by
  cases o with
  | pos => exact (Bool.false_xor _).symm
  | neg =>
    obtain ⟨m, hm⟩ : ∃ m, value X = m + 1 := ⟨value X - 1, by have := h rfl; omega⟩
    rw [Operand.negative, Operand.magnitude, signedValue_true, hm, Nat.add_sub_cancel,
      Bool.true_xor]
    rfl

/-- What a routine owes its caller: it stores nothing out of range, no assertion fails, and the
result has in each position of the infinite two's-complement representation the bit that the
operation makes of those of the operands. -/
def Meets (operation : Operation) (variant : Variant) (Z X Y : Digits) : Prop :=
  ∃ Z', routine operation variant Z X Y = some Z' ∧ Z'.length = Z.length ∧
    ∀ k, (signedValue (resultSign operation variant) Z').testBit k =
      operation.eval ((signedValue variant.x.negative X).testBit k)
        ((signedValue variant.y.negative Y).testBit k)

variable {operation : Operation} {variant : Variant}

/-- A routine that only consists of the loops: its result is not negative. -/
theorem meets_of_loops (restX restY : Bool) (hop : ActsBy op f)
    (hroutine : routine operation variant Z X Y = loops op variant.x variant.y restX restY Z X Y)
    (hsign : resultSign operation variant = false)
    (hf : ∀ a b, f a b = operation.eval (variant.x.negative ^^ a) (variant.y.negative ^^ b))
    (hrest : KeepsRest f restX restY) (hx : variant.x.negative = true → 0 < value X)
    (hy : variant.y.negative = true → 0 < value Y)
    (hlen : loopLength restX restY X.length Y.length ≤ Z.length) :
    Meets operation variant Z X Y := by
  obtain ⟨Z', hrun, hlength, -, hbits⟩ := loops_spec hop hrest hx hy hlen
  refine ⟨Z', hroutine.trans hrun, hlength, fun k => ?_⟩
  rw [testBit_signedValue hx, testBit_signedValue hy, hsign, ← hf]
  exact hbits k

/-- A routine that ends with the increment: its result is negative. -/
theorem meets_of_loops_addDigit (restX restY : Bool) (hop : ActsBy op f)
    (hroutine : routine operation variant Z X Y =
      loops op variant.x variant.y restX restY Z X Y >>= (addDigit · 1))
    (hsign : resultSign operation variant = true)
    (hf : ∀ a b, f a b = !operation.eval (variant.x.negative ^^ a) (variant.y.negative ^^ b))
    (hrest : KeepsRest f restX restY) (hx : variant.x.negative = true → 0 < value X)
    (hy : 0 < value Y) (hyneg : variant.y = .neg)
    (hlen : loopLength restX restY X.length Y.length ≤ Z.length) (hYZ : Y.length ≤ Z.length)
    (hroom : loopLength restX restY X.length Y.length < Z.length ∨ ∀ a b, f a b = true → b = true) :
    Meets operation variant Z X Y := by
  obtain ⟨Z', hrun, hlength, hpos, hbits⟩ :=
    loops_addDigit_spec hop hrest hx hy hyneg hlen hYZ hroom
  refine ⟨Z', hroutine.trans hrun, hlength, fun k => ?_⟩
  have hresult := testBit_signedValue (o := .neg) (fun _ => hpos) k
  rw [Operand.negative, Operand.magnitude, hbits, Bool.true_xor, hf, Bool.not_not] at hresult
  rw [testBit_signedValue hx, testBit_signedValue fun _ => hy, hsign, hresult]

/-- The swap in `BitwiseXor_PosPos` saves a loop, and nothing else. -/
theorem bitwiseXorPosPos_eq (Z X Y : Digits) :
    bitwiseXorPosPos Z X Y = loops (fun x y => x ^^^ y) .pos .pos true true Z X Y := by
  have hpos (X : Digits) (h : Operand.pos.negative = true) : 0 < value X := absurd h (by decide)
  have hcomm (a b : Digit) : a ^^^ b = b ^^^ a := UInt64.xor_comm a b
  rw [bitwiseXorPosPos, loops_eq_store (hpos _) (hpos _), loops_eq_store (hpos _) (hpos _),
    loops_eq_store (hpos _) (hpos _)]
  simp only [Operand.rest_pos]
  split
  · next h => rw [combine_of_length_le h.le, combine_comm hcomm]
  · next h => rw [combine_of_length_le (Nat.le_of_not_lt h)]

/-- **The bitwise operations have their two's-complement meaning.** Each of the nine routines, run
with a result vector of the length that its length function returns, stores the magnitude of the
result of the operation on the infinite two's-complement representations of the operands. -/
theorem routine_twosComplement (operation : Operation) (variant : Variant) (Z X Y : Digits)
    (hX : X.Normalized) (hY : Y.Normalized) (hx : variant.x = .neg → X ≠ [])
    (hy : variant.y = .neg → Y ≠ [])
    (hZ : Z.length = resultLength operation variant X.length Y.length) :
    Meets operation variant Z X Y := by
  have hxpos (h : variant.x.negative = true) : 0 < value X :=
    hX.value_pos (hx (Operand.negative_iff.1 h))
  have hypos (h : variant.y.negative = true) : 0 < value Y :=
    hY.value_pos (hy (Operand.negative_iff.1 h))
  cases operation with
  | and =>
    cases variant with
    | posPos =>
      exact meets_of_loops false false actsBy_and rfl rfl (by decide) (by decide) hxpos hypos hZ.ge
    | negNeg =>
      exact meets_of_loops_addDigit true true actsBy_or rfl rfl (by decide) (by decide) hxpos
        (hypos rfl) rfl (by rw [hZ]; exact le_succ _)
        (by rw [hZ]; exact (Nat.le_max_right _ _).trans (le_succ _))
        (.inl (by rw [hZ]; exact lt_succ_self _))
    | posNeg =>
      exact meets_of_loops true false actsBy_and_not rfl rfl (by decide) (by decide)
        hxpos hypos hZ.ge
  | or =>
    cases variant with
    | posPos =>
      exact meets_of_loops true true actsBy_or rfl rfl (by decide) (by decide) hxpos hypos hZ.ge
    | negNeg =>
      exact meets_of_loops_addDigit false false actsBy_and rfl rfl (by decide) (by decide) hxpos
        (hypos rfl) rfl (by rw [hZ]; exact (Nat.min_le_left _ _).trans (Nat.le_max_left _ _))
        (by rw [hZ]; exact Nat.le_max_right _ _) (.inr (by decide))
    | posNeg =>
      exact meets_of_loops_addDigit false true actsBy_not_and rfl rfl (by decide) (by decide) hxpos
        (hypos rfl) rfl (by rw [hZ]; exact Nat.le_max_right _ _)
        (by rw [hZ]; exact Nat.le_max_right _ _) (.inr (by decide))
  | xor =>
    cases variant with
    | posPos =>
      exact meets_of_loops true true actsBy_xor (bitwiseXorPosPos_eq Z X Y) rfl (by decide)
        (by decide) hxpos hypos hZ.ge
    | negNeg =>
      exact meets_of_loops true true actsBy_xor rfl rfl (by decide) (by decide) hxpos hypos hZ.ge
    | posNeg =>
      exact meets_of_loops_addDigit true true actsBy_xor rfl rfl (by decide) (by decide) hxpos
        (hypos rfl) rfl (by rw [hZ]; exact le_succ _)
        (by rw [hZ]; exact (Nat.le_max_right _ _).trans (le_succ _))
        (.inl (by rw [hZ]; exact lt_succ_self _))

/-- `-2 & -3 = -4`, of three bits. -/
theorem routine_twosComplement_neg_two_neg_three :
    routine .and .negNeg [7, 7] [2] [3] = some [4, 0] ∧ Meets .and .negNeg [7, 7] [2] [3] :=
  ⟨by decide +kernel, routine_twosComplement .and .negNeg [7, 7] [2] [3] (by decide) (by decide)
    (by decide) (by decide) rfl⟩

end Bitwise
