import V8Speak.BitField
import V8Speak.Binary64Scale

/-!
# Doubles and do-it-yourself floating point

The two representations that the conversion from decimal numbers works with, as they are in
`base/numbers/diy-fp.h`, `base/numbers/diy-fp.cc` and `base/numbers/double.h`. A `DiyFp` is
a significand of 64 bits and an exponent; the multiplication keeps the upper half of the
product, rounded. A double is its bit pattern.

What is proved here is one fact about each of the functions: the product is
`f * g / 2 ^ 64`, rounded half up (`multiply_f`); normalising moves the leading bit to the
top (`normalize_spec`); the significand and the exponent of a bit pattern are those of its
place on the scale of `Binary64` (`significand_place`, `exponent_place`); and the bit pattern
of a `DiyFp` whose significand suits its exponent is that place (`diyFpToUint64_place`).
-/

open Nat BitField

/-- What is left of a number in an unsigned word of 64 bits. -/
def uint64 (n : ℕ) : ℕ := n % 2 ^ 64

theorem uint64_of_lt {n : ℕ} (h : n < 2 ^ 64) : uint64 n = n := mod_eq_of_lt h

structure DiyFp where
  /-- The significand. -/
  f : ℕ
  /-- The exponent. -/
  e : ℤ
  deriving DecidableEq, Repr

namespace DiyFp

def multiply (x other : DiyFp) : DiyFp :=
  let kM32 := 0xFFFFFFFF
  let a := x.f >>> 32
  let b := x.f &&& kM32
  let c := other.f >>> 32
  let d := other.f &&& kM32
  let ac := uint64 (a * c)
  let bc := uint64 (b * c)
  let ad := uint64 (a * d)
  let bd := uint64 (b * d)
  let tmp := uint64 ((bd >>> 32) + (ad &&& kM32) + (bc &&& kM32))
  -- Adding half of the last place of the result rounds it.
  let tmp := uint64 (tmp + 1 <<< 31)
  ⟨uint64 (ac + (ad >>> 32) + (bc >>> 32) + (tmp >>> 32)), x.e + (other.e + 64)⟩

/-- A loop of `DiyFp::Normalize`: shifts as long as the leading bits are zero. The number of
rounds is bounded by `fuel`, which is not reached unless the significand is zero. -/
def shiftWhile (leading : ℕ) (shift : ℕ) : ℕ → DiyFp → DiyFp
  | 0, x => x
  | fuel + 1, x =>
    if x.f &&& leading = 0 then
      shiftWhile leading shift fuel ⟨uint64 (x.f <<< shift), x.e - shift⟩
    else x

def normalize (x : DiyFp) : DiyFp :=
  let k10MSBits := 0x3FF <<< 54
  let kUint64MSB := 1 <<< 63
  shiftWhile kUint64MSB 1 64 (shiftWhile k10MSBits 10 64 x)

/-- **The upper half of the product.** The four partial products add up without overflow. -/
theorem multiply_f {x y : DiyFp} (hx : x.f < 2 ^ 64) (hy : y.f < 2 ^ 64) :
    (x.multiply y).f = (x.f * y.f + 2 ^ 63) / 2 ^ 64 := by
  have hmask (n : ℕ) : n &&& 0xFFFFFFFF = n % 2 ^ 32 := and_two_pow_sub_one_eq_mod n 32
  have hprod : x.f * y.f = x.f / 2 ^ 32 * (y.f / 2 ^ 32) * 2 ^ 64 +
      (x.f % 2 ^ 32 * (y.f / 2 ^ 32) + x.f / 2 ^ 32 * (y.f % 2 ^ 32)) * 2 ^ 32 +
      x.f % 2 ^ 32 * (y.f % 2 ^ 32) := by
    conv_lhs => rw [← div_add_mod x.f (2 ^ 32), ← div_add_mod y.f (2 ^ 32)]
    ring
  have hbound {m n : ℕ} (hm : m < 2 ^ 32) (hn : n < 2 ^ 32) : m * n ≤ (2 ^ 32 - 1) * (2 ^ 32 - 1) :=
    Nat.mul_le_mul (by omega) (by omega)
  have hac := hbound (show x.f / 2 ^ 32 < 2 ^ 32 by omega) (show y.f / 2 ^ 32 < 2 ^ 32 by omega)
  have hbc := hbound (show x.f % 2 ^ 32 < 2 ^ 32 by omega) (show y.f / 2 ^ 32 < 2 ^ 32 by omega)
  have had := hbound (show x.f / 2 ^ 32 < 2 ^ 32 by omega) (show y.f % 2 ^ 32 < 2 ^ 32 by omega)
  have hbd := hbound (show x.f % 2 ^ 32 < 2 ^ 32 by omega) (show y.f % 2 ^ 32 < 2 ^ 32 by omega)
  unfold multiply uint64
  dsimp only
  simp only [hmask, shiftRight_eq_div_pow, shiftLeft_eq]
  rw [hprod]
  generalize x.f / 2 ^ 32 * (y.f / 2 ^ 32) = ac at *
  generalize x.f % 2 ^ 32 * (y.f / 2 ^ 32) = bc at *
  generalize x.f / 2 ^ 32 * (y.f % 2 ^ 32) = ad at *
  generalize x.f % 2 ^ 32 * (y.f % 2 ^ 32) = bd at *
  omega

theorem multiply_e (x y : DiyFp) : (x.multiply y).e = x.e + y.e + 64 := by
  show x.e + (y.e + 64) = _
  ring

/-- The leading bits of a word are zero if the word is small. -/
theorem and_leading_eq_zero_iff {f n s : ℕ} (hn : f < 2 ^ (n + s)) :
    f &&& (2 ^ s - 1) <<< n = 0 ↔ f < 2 ^ n := by
  have hdecode : (f &&& (2 ^ s - 1) <<< n) = f / 2 ^ n * 2 ^ n := by
    rw [shiftLeft_eq]
    apply eq_of_testBit_eq
    intro i
    rw [testBit_and, testBit_mul_two_pow, testBit_mul_two_pow,
      testBit_two_pow_sub_one, testBit_div_two_pow]
    rcases Nat.lt_or_ge i n with hi | hi
    · rw [decide_eq_false (by omega), Bool.false_and, Bool.and_false, Bool.false_and]
    · rw [decide_eq_true hi, Bool.true_and, Bool.true_and, Nat.sub_add_cancel hi]
      rcases Nat.lt_or_ge (i - n) s with hs | hs
      · rw [decide_eq_true hs, Bool.and_true]
      · rw [testBit_lt_two_pow (hn.trans_le (Nat.pow_le_pow_right (by decide) (by omega))),
          Bool.false_and]
  rw [hdecode, Nat.mul_eq_zero, Nat.div_eq_zero_iff]
  have := Nat.two_pow_pos n
  omega

/-- **One loop of normalising.** -/
theorem shiftWhile_spec {s : ℕ} (hs : 0 < s) (hs' : s ≤ 64) {fuel : ℕ} {x : DiyFp}
    (hx : x.f < 2 ^ 64) (hfuel : 2 ^ (64 - s) ≤ x.f * 2 ^ (fuel * s)) :
    ∃ j : ℕ, shiftWhile ((2 ^ s - 1) <<< (64 - s)) s fuel x = ⟨x.f * 2 ^ j, x.e - j⟩ ∧
      2 ^ (64 - s) ≤ x.f * 2 ^ j ∧ x.f * 2 ^ j < 2 ^ 64 := by
  induction fuel generalizing x with
  | zero =>
    rw [zero_mul, pow_zero, mul_one] at hfuel
    refine ⟨0, ?_, by rwa [pow_zero, mul_one], by rwa [pow_zero, mul_one]⟩
    rw [pow_zero, mul_one, cast_zero, sub_zero]
    rfl
  | succ fuel ih =>
    unfold shiftWhile
    rcases Nat.lt_or_ge x.f (2 ^ (64 - s)) with hlt | hge
    · have hshift : x.f * 2 ^ s < 2 ^ 64 := by
        rw [show 64 = 64 - s + s by omega, pow_add]
        exact Nat.mul_lt_mul_of_pos_right hlt (Nat.two_pow_pos s)
      rw [if_pos ((and_leading_eq_zero_iff (by rwa [Nat.sub_add_cancel hs'])).2 hlt),
        shiftLeft_eq x.f, uint64_of_lt hshift]
      obtain ⟨j, hj, hlow, hhigh⟩ := ih (x := ⟨x.f * 2 ^ s, x.e - s⟩) hshift (by
        rw [mul_assoc, ← pow_add, show s + fuel * s = (fuel + 1) * s by ring]
        exact hfuel)
      rw [mul_assoc, ← pow_add] at hj hlow hhigh
      refine ⟨s + j, ?_, hlow, hhigh⟩
      rw [hj, cast_add, sub_sub]
    · rw [if_neg (fun h => absurd ((and_leading_eq_zero_iff (by rwa [Nat.sub_add_cancel hs'])).1 h)
        (not_lt.2 hge))]
      refine ⟨0, ?_, by rwa [pow_zero, mul_one], by rwa [pow_zero, mul_one]⟩
      rw [pow_zero, mul_one, cast_zero, sub_zero]

/-- **Normalising.** -/
theorem normalize_spec {x : DiyFp} (h0 : 0 < x.f) (hx : x.f < 2 ^ 64) :
    ∃ j : ℕ, x.normalize = ⟨x.f * 2 ^ j, x.e - j⟩ ∧ 2 ^ 63 ≤ x.f * 2 ^ j ∧
    x.f * 2 ^ j < 2 ^ 64 := by
  have hfuel {f s : ℕ} (hf : 0 < f) (hs : 0 < s) : 2 ^ (64 - s) ≤ f * 2 ^ (64 * s) :=
    calc 2 ^ (64 - s) ≤ 2 ^ (64 * s) := Nat.pow_le_pow_right (by decide) (by omega)
      _ ≤ f * 2 ^ (64 * s) := Nat.le_mul_of_pos_left _ hf
  obtain ⟨i, hi, hlow, hhigh⟩ := shiftWhile_spec (s := 10) (by decide) (by decide) hx
    (hfuel h0 (by decide))
  obtain ⟨j, hj, hlow', hhigh'⟩ := shiftWhile_spec (s := 1) (x := ⟨x.f * 2 ^ i, x.e - i⟩) (by decide)
    (by decide) hhigh (hfuel (Nat.pos_of_ne_zero fun h => by dsimp only at h; omega) (by decide))
  rw [mul_assoc, ← pow_add] at hj hlow' hhigh'
  refine ⟨i + j, ?_, hlow', hhigh'⟩
  rw [cast_add, ← sub_sub, ← hj, ← hi]
  rfl

end DiyFp

/-! ## Doubles -/

namespace Double

def kSignMask : ℕ := 0x8000000000000000
def kExponentMask : ℕ := 0x7FF0000000000000
def kSignificandMask : ℕ := 0x000FFFFFFFFFFFFF
def kHiddenBit : ℕ := 0x0010000000000000
def kPhysicalSignificandSize : ℕ := 52
def kSignificandSize : ℤ := 53
def kExponentBias : ℤ := 0x3FF + 52
def kDenormalExponent : ℤ := -kExponentBias + 1
def kMaxExponent : ℤ := 0x7FF - kExponentBias
def kInfinity : ℕ := 0x7FF0000000000000

variable (d64 : ℕ)

def isDenormal : Bool := d64 &&& kExponentMask = 0

def exponent : ℤ :=
  if isDenormal d64 then kDenormalExponent
  else ((d64 &&& kExponentMask) >>> kPhysicalSignificandSize : ℕ) - kExponentBias

def significand : ℕ :=
  let significand := d64 &&& kSignificandMask
  if !isDenormal d64 then significand + kHiddenBit else significand

def sign : ℤ := if d64 &&& kSignMask = 0 then 1 else -1

def nextDouble : ℕ :=
  if d64 = kInfinity then kInfinity
  else if sign d64 < 0 ∧ significand d64 = 0 then 0
  else if sign d64 < 0 then d64 - 1
  else d64 + 1

def upperBoundary : DiyFp := ⟨significand d64 * 2 + 1, exponent d64 - 1⟩

def significandSizeForOrderOfMagnitude (order : ℤ) : ℤ :=
  if order ≥ kDenormalExponent + kSignificandSize then kSignificandSize
  else if order ≤ kDenormalExponent then 0
  else order - kDenormalExponent

/-- The first loop of `DiyFpToUint64`: a significand of more than 53 bits is cut off. It has
at most 64 bits, which bounds the number of rounds. -/
def cutSignificand : ℕ → ℕ → ℤ → ℕ × ℤ
  | 0, significand, exponent => (significand, exponent)
  | fuel + 1, significand, exponent =>
    if significand > kHiddenBit + kSignificandMask then
      cutSignificand fuel (significand >>> 1) (exponent + 1)
    else (significand, exponent)

/-- The second loop of `DiyFpToUint64`: as long as the exponent allows it, the leading bit is
moved to the place of the hidden bit. The number of rounds is what is left of the exponent. -/
def raiseSignificand : ℕ → ℕ → ℤ → ℕ × ℤ
  | 0, significand, exponent => (significand, exponent)
  | left + 1, significand, exponent =>
    if significand &&& kHiddenBit = 0 then
      raiseSignificand left (uint64 (significand <<< 1)) (exponent - 1)
    else (significand, exponent)

def diyFpToUint64 (x : DiyFp) : ℕ :=
  let (significand, exponent) := cutSignificand 64 x.f x.e
  if exponent ≥ kMaxExponent then kInfinity
  else if exponent < kDenormalExponent then 0
  else
    let (significand, exponent) :=
      raiseSignificand (exponent - kDenormalExponent).toNat significand exponent
    let biasedExponent : ℕ :=
      if exponent = kDenormalExponent ∧ significand &&& kHiddenBit = 0 then 0
      else (exponent + kExponentBias).toNat
    (significand &&& kSignificandMask) ||| (biasedExponent <<< kPhysicalSignificandSize)

theorem kExponentBias_eq : kExponentBias = 1075 := rfl

theorem kDenormalExponent_eq : kDenormalExponent = -1074 := rfl

theorem kMaxExponent_eq : kMaxExponent = 972 := rfl

open Binary64 (Fits infinity)

variable {f k : ℕ}

theorem place_lt (h : Fits f k) (hk : k ≤ 2046) : f + k * 2 ^ 52 < 2 ^ 63 := by
  have := h.1
  omega

theorem isDenormal_place (h : Fits f k) (hk : k ≤ 2046) :
    isDenormal (f + k * 2 ^ 52) = true ↔ f < 2 ^ 52 := by
  have hand := DiyFp.and_leading_eq_zero_iff (s := 11) (place_lt h hk)
  rw [show (2 ^ 11 - 1) <<< 52 = kExponentMask by decide] at hand
  rw [isDenormal, decide_eq_true_iff, hand]
  have := h.2
  omega

theorem and_kSignificandMask (n : ℕ) : n &&& kSignificandMask = n % 2 ^ 52 :=
  and_two_pow_sub_one_eq_mod n 52

/-- **The significand of a place.** -/
theorem significand_place (h : Fits f k) (hk : k ≤ 2046) : significand (f + k * 2 ^ 52) = f := by
  have hden := isDenormal_place h hk
  obtain ⟨hlt, hf⟩ := h
  unfold significand
  rw [and_kSignificandMask]
  dsimp only [kHiddenBit]
  rcases Nat.lt_or_ge f (2 ^ 52) with hsmall | hlarge
  · rw [hden.2 hsmall, if_neg (by decide)]
    omega
  · rw [if_pos (by rw [Bool.not_eq_true', ← Bool.not_eq_true, hden]; omega)]
    omega

/-- **The exponent of a place.** -/
theorem exponent_place (h : Fits f k) (hk : k ≤ 2046) :
    exponent (f + k * 2 ^ 52) = (k : ℤ) - 1074 := by
  have hden := isDenormal_place h hk
  have hdecode := BitField.decode_eq ⟨52, 11⟩ (f + k * 2 ^ 52)
  rw [decode, show mask ⟨52, 11⟩ = kExponentMask by decide] at hdecode
  dsimp only at hdecode
  obtain ⟨hlt, hf⟩ := h
  unfold exponent
  rcases Nat.lt_or_ge f (2 ^ 52) with hsmall | hlarge
  · rw [if_pos (hden.2 hsmall), show k = 0 by omega]
    rfl
  · rw [if_neg (by rw [hden]; omega), kPhysicalSignificandSize, hdecode, kExponentBias_eq]
    omega

/-- The next bit pattern. -/
theorem nextDouble_of_lt {b : ℕ} (h : b < infinity) : nextDouble b = b + 1 := by
  have hlt : b < 2 ^ 63 := h.trans (by decide)
  have hsign : sign b = 1 := by
    have hand := DiyFp.and_leading_eq_zero_iff (f := b) (n := 63) (s := 1) (by omega)
    rw [show (2 ^ 1 - 1) <<< 63 = kSignMask by decide] at hand
    rw [sign, if_pos (hand.2 hlt)]
  unfold nextDouble
  rw [hsign, if_neg (show b ≠ kInfinity from h.ne), if_neg (by omega), if_neg (by decide)]

/-! ## The bit pattern of a significand and an exponent -/

theorem cutSignificand_of_le {fuel significand : ℕ} {exponent : ℤ} (h : significand < 2 ^ 53) :
    cutSignificand fuel significand exponent = (significand, exponent) := by
  cases fuel with
  | zero => rfl
  | succ fuel =>
    rw [cutSignificand, if_neg]
    rw [show kHiddenBit + kSignificandMask = 2 ^ 53 - 1 by decide]
    omega

/-- One significand more than fits is halved. -/
theorem cutSignificand_top {exponent : ℤ} :
    cutSignificand 64 (2 ^ 53) exponent = (2 ^ 52, exponent + 1) := by
  rw [cutSignificand, if_pos (by decide), show 2 ^ 53 >>> 1 = 2 ^ 52 by decide]
  exact cutSignificand_of_le (by decide)

theorem and_kHiddenBit (h : f < 2 ^ 53) : f &&& kHiddenBit = 0 ↔ f < 2 ^ 52 :=
  DiyFp.and_leading_eq_zero_iff (s := 1) h

/-- There is nothing to raise in a significand that suits its exponent. -/
theorem raiseSignificand_place (exponent : ℤ) (h : Fits f k) :
    raiseSignificand k f exponent = (f, exponent) := by
  cases k with
  | zero => rfl
  | succ k =>
    rw [raiseSignificand, if_neg]
    rw [and_kHiddenBit h.1]
    have := h.2
    omega

/-- **The bit pattern of a significand that suits its exponent.** -/
theorem diyFpToUint64_place (h : Fits f k) :
    diyFpToUint64 ⟨f, (k : ℤ) - 1074⟩ = min (f + k * 2 ^ 52) infinity := by
  have hraise := raiseSignificand_place ((k : ℤ) - 1074) h
  unfold diyFpToUint64
  rw [cutSignificand_of_le h.1]
  dsimp only
  rcases Nat.lt_or_ge k 2046 with hk | hk
  · rw [if_neg (by rw [kMaxExponent_eq]; omega), if_neg (by rw [kDenormalExponent_eq]; omega),
      show ((k : ℤ) - 1074 - kDenormalExponent).toNat = k by rw [kDenormalExponent_eq]; omega,
      hraise]
    dsimp only
    have hbiased : (if (k : ℤ) - 1074 = kDenormalExponent ∧ f &&& kHiddenBit = 0 then 0
        else ((k : ℤ) - 1074 + kExponentBias).toNat) = (f + k * 2 ^ 52) / 2 ^ 52 := by
      have hbit := and_kHiddenBit h.1
      obtain ⟨hlt, hf⟩ := h
      rcases Nat.lt_or_ge f (2 ^ 52) with hsmall | hlarge
      · rw [if_pos ⟨by rw [kDenormalExponent_eq]; omega, hbit.2 hsmall⟩]
        omega
      · rw [if_neg (fun h => absurd (hbit.1 h.2) (by omega)), kExponentBias_eq]
        omega
    rw [hbiased, and_kSignificandMask]
    have hor := or_encode ⟨52, 11⟩ ((f + k * 2 ^ 52) / 2 ^ 52)
      (show f % 2 ^ 52 < 2 ^ 52 from mod_lt _ (by decide))
    rw [encode] at hor
    rw [kPhysicalSignificandSize, hor]
    have := h.1
    dsimp only [infinity]
    omega
  · rw [if_pos (by rw [kMaxExponent_eq]; omega)]
    have := h.2
    dsimp only [infinity, kInfinity]
    omega

/-- **The bit pattern of the next significand**, whether or not it still suits the
exponent. -/
theorem diyFpToUint64_succ (h : Fits f k) :
    diyFpToUint64 ⟨f + 1, (k : ℤ) - 1074⟩ = min (f + k * 2 ^ 52 + 1) infinity := by
  obtain ⟨hlt, hf⟩ := h
  rcases Nat.lt_or_ge (f + 1) (2 ^ 53) with hnext | hnext
  · rw [diyFpToUint64_place ⟨hnext, by omega⟩]
    congr 1
    omega
  · -- the significand is cut to the first one of the next exponent
    have hcut : diyFpToUint64 ⟨2 ^ 53, (k : ℤ) - 1074⟩ =
        diyFpToUint64 ⟨2 ^ 52, ((k + 1 : ℕ) : ℤ) - 1074⟩ := by
      unfold diyFpToUint64
      rw [cutSignificand_top, cutSignificand_of_le (show 2 ^ 52 < 2 ^ 53 by decide),
        show (k : ℤ) - 1074 + 1 = ((k + 1 : ℕ) : ℤ) - 1074 by push_cast; ring]
    rw [show f + 1 = 2 ^ 53 by omega, hcut, diyFpToUint64_place ⟨by decide, .inr le_rfl⟩]
    congr 1
    omega

end Double
