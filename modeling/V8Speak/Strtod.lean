import V8Speak.Bignum
import V8Speak.CachedPowers

/-!
# Decimal numbers to doubles

The conversion of `base/numbers/strtod.cc`. A decimal number is a sequence of digits and an
exponent of ten. Zeros at both ends are dropped first. Of more than 780 digits the first 779
are kept, followed by a one for what is missing. Very large and very small numbers are
decided by their order of magnitude. Three algorithms are left for the others, each for what
the one before it could not decide:

* `doubleStrtod` – short numbers whose power of ten is a double, by one multiplication or
  division of doubles;
* `diyFpStrtod` – an approximation with 64 bits which keeps track of its error, in eighths
  of the last place, and gives up if the error reaches across the middle between two doubles;
* `bignumStrtod` – the comparison with that middle, on the numbers of `Bignum`.

A digit is given by its value. A double is given by its bit pattern, and arithmetic on
doubles is exact arithmetic with the result rounded. Exponents are C++ `int`s: a sum that
leaves their range is undefined, which is `none` here, as is a table access out of range and
a number that has no room.
-/

open Binary64 List

/-- A sum of C++ `int`s, which has to fit. -/
def checkedInt (n : ℤ) : Option ℤ := if -2 ^ 31 ≤ n ∧ n < 2 ^ 31 then some n else none

theorem checkedInt_of_fits {n : ℤ} (h : -2 ^ 31 ≤ n ∧ n < 2 ^ 31) : checkedInt n = some n :=
  if_pos h

namespace Double

/-- The value of a double that is not negative. -/
def value (d64 : ℕ) : ℚ := scale.point d64

/-- `static_cast<double>` of an integer. -/
def ofUint64 (n : ℕ) : ℕ := ofRat n

/-- The product of doubles that are not negative. -/
def mul (x y : ℕ) : ℕ := ofRat (value x * value y)

/-- The quotient of doubles that are not negative. -/
def div (x y : ℕ) : ℕ := ofRat (value x / value y)

end Double

namespace Strtod

def kMaxExactDoubleIntegerDecimalDigits : ℕ := 15
def kMaxUint64DecimalDigits : ℤ := 19
def kMaxDecimalPower : ℤ := 309
def kMinDecimalPower : ℤ := -324
def kMaxUint64 : ℕ := 0xFFFFFFFFFFFFFFFF
def kMaxSignificantDecimalDigits : ℕ := 780

/-- The doubles of `exact_powers_of_ten`. -/
def exactPowersOfTen (exponent : ℕ) : ℕ := ofRat (10 ^ exponent)

def kExactPowersOfTenSize : ℤ := 23

/-- The number with these digits. -/
def decimal (digits : List (Fin 10)) : ℕ := digits.foldl (fun n d => 10 * n + d.val) 0

def trimLeadingZeros : List (Fin 10) → List (Fin 10)
  | [] => []
  | d :: buffer => if d ≠ 0 then d :: buffer else trimLeadingZeros buffer

variable (buffer : List (Fin 10))

/-- `TrimTrailingZeros`, which looks for the last digit that is not zero. -/
def trimTrailingZeros : List (Fin 10) :=
  (trimLeadingZeros buffer.reverse).reverse

def trimToMaxSignificantDigits (exponent : ℤ) : List (Fin 10) × ℤ :=
  (buffer.take (kMaxSignificantDecimalDigits - 1) ++ [1],
    exponent + (buffer.length - kMaxSignificantDecimalDigits))

/-- The loop of `ReadUint64`, from the digit at `i` on. -/
def readUint64Loop (result i : ℕ) : List (Fin 10) → ℕ × ℕ
  | [] => (result, i)
  | digit :: buffer =>
    if result ≤ kMaxUint64 / 10 - 1 then
      readUint64Loop (uint64 (10 * result + digit)) (i + 1) buffer
    else (result, i)

/-- `ReadUint64`: the number, and how many digits were read. -/
def readUint64 : ℕ × ℕ := readUint64Loop 0 0 buffer

/-- `ReadDiyFp`: the number, and how many digits are left. -/
def readDiyFp : DiyFp × ℤ :=
  let (significand, readDigits) := readUint64 buffer
  match buffer.drop readDigits with
  | [] => (⟨significand, 0⟩, 0)
  | next :: _ =>
    -- Round the significand.
    let significand := if next ≥ 5 then uint64 (significand + 1) else significand
    (⟨significand, 0⟩, (buffer.length : ℤ) - readDigits)

/-- `DoubleStrtod`. There is no result where it returns false, which it always does where the
floating-point unit has more precision than a double (`wide`). -/
def doubleStrtod (wide : Bool) (trimmed : List (Fin 10)) (exponent : ℤ) : Option ℕ :=
  if wide then none
  else if trimmed.length ≤ kMaxExactDoubleIntegerDecimalDigits then
    let result := Double.ofUint64 (readUint64 trimmed).1
    let remainingDigits : ℤ := kMaxExactDoubleIntegerDecimalDigits - trimmed.length
    if exponent < 0 ∧ -exponent < kExactPowersOfTenSize then
      some (Double.div result (exactPowersOfTen (-exponent).toNat))
    else if 0 ≤ exponent ∧ exponent < kExactPowersOfTenSize then
      some (Double.mul result (exactPowersOfTen exponent.toNat))
    else if 0 ≤ exponent ∧ exponent - remainingDigits < kExactPowersOfTenSize then
      -- The short number is made as long as possible.
      let result := Double.mul result (exactPowersOfTen remainingDigits.toNat)
      some (Double.mul result (exactPowersOfTen (exponent - remainingDigits).toNat))
    else none
  else none

def adjustmentPowerOfTen : ℤ → Option DiyFp
  | 1 => some ⟨0xA000000000000000, -60⟩
  | 2 => some ⟨0xC800000000000000, -57⟩
  | 3 => some ⟨0xFA00000000000000, -54⟩
  | 4 => some ⟨0x9C40000000000000, -50⟩
  | 5 => some ⟨0xC350000000000000, -47⟩
  | 6 => some ⟨0xF424000000000000, -44⟩
  | 7 => some ⟨0x9896800000000000, -40⟩
  | _ => none

def kDenominatorLog : ℕ := 3
def kDenominator : ℕ := 1 <<< kDenominatorLog

/-- The last part of `DiyFpStrtod`: the significand that is left of an approximation with this
error, and whether the error can change it. -/
def compareHalfWay (input : DiyFp) (error precisionDigitsCount : ℕ) : Bool × ℕ :=
  let precisionBitsMask := uint64 (1 <<< precisionDigitsCount) - 1
  let precisionBits := input.f &&& precisionBitsMask
  let halfWay := uint64 (1 <<< (precisionDigitsCount - 1))
  let precisionBits := uint64 (precisionBits * kDenominator)
  let halfWay := uint64 (halfWay * kDenominator)
  let roundedInput : DiyFp := ⟨input.f >>> precisionDigitsCount, input.e + precisionDigitsCount⟩
  let roundedInput : DiyFp :=
    if precisionBits ≥ uint64 (halfWay + error) then
      ⟨uint64 (roundedInput.f + 1), roundedInput.e⟩
    else roundedInput
  let result := Double.diyFpToUint64 roundedInput
  if uint64 (halfWay + 2 ^ 64 - error) < precisionBits ∧
    precisionBits < uint64 (halfWay + error) then
    -- Too imprecise. The caller will have to fall back to a slower version.
    (false, result)
  else (true, result)

/-- The part of `DiyFpStrtod` after the multiplications. -/
def roundDiyFp (input : DiyFp) (error : ℕ) : Bool × ℕ :=
  -- See if the double's significand changes if we add/subtract the error.
  let orderOfMagnitude := 64 + input.e
  let effectiveSignificandSize := Double.significandSizeForOrderOfMagnitude orderOfMagnitude
  let precisionDigitsCount := 64 - effectiveSignificandSize
  if precisionDigitsCount + kDenominatorLog ≥ 64 then
    -- This can only happen for very small denormals. In this case the half-way multiplied by
    -- the denominator exceeds the range of an uint64. Simply shift everything to the right.
    let shiftAmount := (precisionDigitsCount + kDenominatorLog - 64 + 1).toNat
    compareHalfWay ⟨input.f >>> shiftAmount, input.e + shiftAmount⟩
      ((error >>> shiftAmount) + 1 + kDenominator) (precisionDigitsCount - shiftAmount).toNat
  else compareHalfWay input error precisionDigitsCount.toNat

/-- The number times the power of ten that the cached one is below the requested one, with its
error in eighths. -/
def adjustPower (length : ℕ) (input : DiyFp) (error : ℕ) (exponent cachedDecimalExponent : ℤ) :
    Option (DiyFp × ℕ) :=
  if cachedDecimalExponent ≠ exponent then
    let adjustmentExponent := exponent - cachedDecimalExponent
    (adjustmentPowerOfTen adjustmentExponent).bind fun adjustmentPower =>
    let input := input.multiply adjustmentPower
    if kMaxUint64DecimalDigits - length ≥ adjustmentExponent then
      -- The product of input with the adjustment power fits into a 64 bit integer.
      some (input, error)
    else
      -- The adjustment power is exact. There is hence only an error of 0.5.
      some (input, error + kDenominator / 2)
  else some (input, error)

/-- The number times a cached power of ten, with its error in eighths. -/
def multiplyCachedPower (input : DiyFp) (error : ℕ) (cachedPower : DiyFp) : DiyFp × ℕ :=
  let input := input.multiply cachedPower
  let errorB := kDenominator / 2
  let errorAb := if error = 0 then 0 else 1
  let fixedError := kDenominator / 2
  let error := error + (errorB + errorAb + fixedError)
  let oldE := input.e
  let input := input.normalize
  (input, error <<< (oldE - input.e).toNat)

/-- The middle part of `DiyFpStrtod`: the number times the power of ten. -/
def multiplyPowerOfTen (length : ℕ) (input : DiyFp) (error : ℕ) (exponent : ℤ) :
    Option (DiyFp × ℕ) :=
  (PowersOfTenCache.getCachedPowerForDecimalExponent exponent).bind fun cached =>
  (adjustPower length input error exponent cached.2).map fun adjusted =>
  multiplyCachedPower adjusted.1 adjusted.2 cached.1

/-- `DiyFpStrtod`: whether the result is known to be right, and the result. -/
def diyFpStrtod (exponent : ℤ) : Option (Bool × ℕ) :=
  let (input, remainingDecimals) := readDiyFp buffer
  -- Move the remaining decimals into the exponent.
  let exponent := exponent + remainingDecimals
  let error := if remainingDecimals = 0 then 0 else kDenominator / 2
  let oldE := input.e
  let input := input.normalize
  let error := error <<< (oldE - input.e).toNat
  if exponent < PowersOfTenCache.kMinDecimalExponent then some (true, 0)
  else
    (multiplyPowerOfTen buffer.length input error exponent).map fun product =>
    roundDiyFp product.1 product.2

/-- `BignumStrtod`, which has no result where a number has more bigits than there is room for. -/
def bignumStrtod (exponent : ℤ) (guess : ℕ) : Option ℕ :=
  if guess = Double.kInfinity then some guess
  else
    let upperBoundary := Double.upperBoundary guess
    (Bignum.assignDecimalString buffer).bind fun input =>
    (Bignum.assignUInt64 upperBoundary.f).bind fun boundary =>
    -- Either of the two is multiplied by the power of ten, and either of them is shifted.
    (if exponent ≥ 0 then input.multiplyByPowerOfTen exponent.toNat
      else some input).bind fun input =>
    (if exponent ≥ 0 then some boundary
      else boundary.multiplyByPowerOfTen (-exponent).toNat).bind fun boundary =>
    (if upperBoundary.e > 0 then boundary.shiftLeft upperBoundary.e.toNat
      else some boundary).bind fun boundary =>
    (if upperBoundary.e > 0 then some input
      else input.shiftLeft (-upperBoundary.e).toNat).map fun input =>
    match Bignum.compare input boundary with
    | .lt => guess
    | .gt => Double.nextDouble guess
    | .eq =>
      -- Round towards even.
      if Double.significand guess &&& 1 = 0 then guess else Double.nextDouble guess

theorem length_trimLeadingZeros_le : (trimLeadingZeros buffer).length ≤ buffer.length := by
  induction buffer with
  | nil => exact le_rfl
  | cons d buffer ih =>
    rw [trimLeadingZeros]
    split
    · exact le_rfl
    · exact ih.trans (Nat.le_succ _)

theorem length_trimTrailingZeros_le : (trimTrailingZeros buffer).length ≤ buffer.length := by
  rw [trimTrailingZeros, length_reverse]
  exact (length_trimLeadingZeros_le _).trans (length_reverse ..).le

def strtod (wide : Bool) (buffer : List (Fin 10)) (exponent : ℤ) : Option ℕ :=
  let leftTrimmed := trimLeadingZeros buffer
  let trimmed := trimTrailingZeros leftTrimmed
  (checkedInt (exponent + (leftTrimmed.length - trimmed.length))).bind fun exponent =>
  if trimmed.length = 0 then some 0
  else if _h : kMaxSignificantDecimalDigits < trimmed.length then
    let significant := trimToMaxSignificantDigits trimmed exponent
    (checkedInt significant.2).bind fun significantExponent =>
    strtod wide significant.1 significantExponent
  else (checkedInt (exponent + trimmed.length)).bind fun order =>
  if order - 1 ≥ kMaxDecimalPower then some Double.kInfinity
  else if order ≤ kMinDecimalPower then some 0
  else
    match doubleStrtod wide trimmed exponent with
    | some guess => some guess
    | none =>
      (diyFpStrtod trimmed exponent).bind fun guess =>
      if guess.1 then some guess.2 else bignumStrtod trimmed exponent guess.2
termination_by buffer.length
decreasing_by
  have hleft := length_trimLeadingZeros_le buffer
  have hright := length_trimTrailingZeros_le (trimLeadingZeros buffer)
  have hlong : kMaxSignificantDecimalDigits <
      (trimTrailingZeros (trimLeadingZeros buffer)).length := _h
  rw [trimToMaxSignificantDigits, length_append, length_take, length_singleton]
  dsimp only [kMaxSignificantDecimalDigits] at hlong ⊢
  omega

end Strtod
