import Mathlib
import V8Speak.Schoolbook

/-!
# Karatsuba multiplication

`bigint/mul-karatsuba.cc`, for a library with the advanced algorithms, where
Karatsuba multiplication is used for chunks so small that it does not check
for termination requests.

The recursion `karatsubaMain` multiplies two vectors of (at most) `n` digits,
`n` being chosen by `karatsubaLength` so that it can be halved until it is
below the threshold (`Halvable`). The pieces of the scratch space are disjoint
slices: `P0`, `P2` (later `P1`), the space for the recursion, and the rest;
they are put together again at the end. `karatsubaStart` multiplies vectors of
any lengths chunk by chunk, and calls itself for the chunks through
`karatsubaChunk`. The recursion is bounded by a counter there; a counter above
the sum of the lengths is never used up.

The source remarks of some additions that they cannot overflow. In the model
this is an assertion like those the source states.
-/

open Nat hiding count
open List Interruption Processor Digits Yields

/-! ## The length of the recursion -/

/-- `RoundUp`, for a power of two `y`. -/
def roundUp (x y : ℕ) : ℕ := (x + y - 1) / y * y

def kKaratsubaThreshold : ℕ := 34

def roundUpLen (len : ℕ) : ℕ :=
  if len ≤ 36 then roundUp len 2 else
    let shift := size len - 5
    let shift := if 0x18 ≤ len >>> shift then shift + 1 else shift
    let additive := 1 <<< shift - 1
    if 2 ≤ shift ∧ len &&& additive < 1 <<< (shift - 2) then len
    else ((len + additive) >>> shift) <<< shift

/-- The loop of `KaratsubaLength`: the halved length and the number of
halvings. -/
def halve (n : ℕ) : ℕ × ℕ :=
  if kKaratsubaThreshold < n then
    let (m, i) := halve (n >>> 1)
    (m, i + 1)
  else (n, 0)
  termination_by n
  decreasing_by
    rw [shiftRight_one]
    unfold kKaratsubaThreshold at *
    omega

def karatsubaLength (n : ℕ) : ℕ :=
  let (m, i) := halve (roundUpLen n)
  m <<< i

/-- Rounding up a length above the first steps: to a multiple of `2 ^ s`,
unless it is only just above one, where `s` leaves four or five bits. -/
theorem roundUpLen_cases {len : ℕ} (h : 36 < len) : ∃ s, 12 * 2 ^ s ≤ len ∧ len < 24 * 2 ^ s ∧
      roundUpLen len = if 2 ≤ s ∧ len % 2 ^ s < 2 ^ (s - 2) then len
        else (len + (2 ^ s - 1)) / 2 ^ s * 2 ^ s := by
  have hsize : 5 < size len := lt_size.mpr (by omega)
  have hlo : 2 ^ (size len - 5) * 16 ≤ len := by
    have := lt_size.mp (sub_one_lt_of_lt hsize)
    rwa [show 16 = 2 ^ 4 by rfl, ← pow_add, show size len - 5 + 4 = size len - 1 by omega]
  have hhi : len < 2 ^ (size len - 5) * 32 := by
    have := lt_size_self len
    rwa [show 32 = 2 ^ 5 by rfl, ← pow_add, Nat.sub_add_cancel hsize.le]
  rw [roundUpLen, if_neg (by omega)]
  simp only [shiftRight_eq_div_pow, shiftLeft_eq, Nat.one_mul, and_two_pow_sub_one_eq_mod]
  generalize size len - 5 = t at *
  by_cases h24 : 0x18 ≤ len / 2 ^ t
  · rw [if_pos h24]
    have := (Nat.le_div_iff_mul_le (Nat.two_pow_pos t)).mp h24
    exact ⟨t + 1, by rw [pow_succ]; omega, by rw [pow_succ]; omega, rfl⟩
  · rw [if_neg h24]
    have := (Nat.div_lt_iff_lt_mul (Nat.two_pow_pos t)).mp (Nat.lt_of_not_le h24)
    exact ⟨t, by omega, by omega, rfl⟩

/-- Rounding up to a multiple of `d`. -/
theorem ceil_mul_bounds {d : ℕ} (hd : 0 < d) (n : ℕ) :
    n ≤ (n + (d - 1)) / d * d ∧ (n + (d - 1)) / d * d ≤ n + (d - 1) := by
  have h := div_add_mod (n + (d - 1)) d
  have hlt := mod_lt (n + (d - 1)) hd
  rw [Nat.mul_comm] at h
  omega

theorem le_roundUpLen (len : ℕ) : len ≤ roundUpLen len := by
  by_cases h : len ≤ 36
  · rw [roundUpLen, if_pos h, roundUp]
    omega
  · obtain ⟨s, -, -, heq⟩ := roundUpLen_cases (Nat.lt_of_not_le h)
    rw [heq]
    split
    · exact le_rfl
    · exact (ceil_mul_bounds (Nat.two_pow_pos s) len).1

theorem roundUpLen_le {len : ℕ} (h : 34 ≤ len) : 12 * roundUpLen len ≤ 13 * len := by
  by_cases h36 : len ≤ 36
  · rw [roundUpLen, if_pos h36, roundUp]
    omega
  · obtain ⟨s, hlo, -, heq⟩ := roundUpLen_cases (Nat.lt_of_not_le h36)
    rw [heq]
    split
    · omega
    · have := (ceil_mul_bounds (Nat.two_pow_pos s) len).2
      omega

/-- The exponent of the rounding is determined by the length. -/
theorem exponent_le {a b s t : ℕ} (ha : 12 * 2 ^ s ≤ a) (hb : b < 24 * 2 ^ t) (h : a ≤ b) :
    s ≤ t := by
  by_contra hlt
  have : 2 ^ (t + 1) ≤ 2 ^ s := Nat.pow_le_pow_right (by decide) (by omega)
  omega

/-- Rounding up is monotone: inside one multiple of `2 ^ s` by the condition
for not rounding, otherwise as it does not go beyond the next multiple. -/
theorem roundUpLen_mono {a b : ℕ} (h : a ≤ b) : roundUpLen a ≤ roundUpLen b := by
  have hb := le_roundUpLen b
  by_cases ha36 : a ≤ 36
  · have ha : roundUpLen a = roundUp a 2 := by rw [roundUpLen, if_pos ha36]
    by_cases hb36 : b ≤ 36
    · rw [ha, roundUpLen, if_pos hb36, roundUp, roundUp]
      omega
    · rw [ha, roundUp]
      omega
  · obtain ⟨s, halo, hahi, haeq⟩ := roundUpLen_cases (Nat.lt_of_not_le ha36)
    obtain ⟨t, hblo, hbhi, hbeq⟩ := roundUpLen_cases (show 36 < b by omega)
    have hs := Nat.two_pow_pos s
    by_cases hnext : (a / 2 ^ s + 1) * 2 ^ s ≤ b
    · -- `b` is not below the next multiple of `2 ^ s` after `a`
      have hup : (a + (2 ^ s - 1)) / 2 ^ s * 2 ^ s ≤ (a / 2 ^ s + 1) * 2 ^ s := by
        refine Nat.mul_le_mul_right _ ?_
        rw [← add_div_right a hs]
        exact Nat.div_le_div_right (by omega)
      rw [haeq]
      split
      · omega
      · omega
    · have hq : a / 2 ^ s < 24 := (Nat.div_lt_iff_lt_mul hs).mpr hahi
      have hb24 : b < 24 * 2 ^ s :=
        (Nat.lt_of_not_le hnext).trans_le (Nat.mul_le_mul_right _ hq)
      obtain rfl : s = t := Nat.le_antisymm (exponent_le halo hbhi h) (exponent_le hblo hb24 le_rfl)
      have hquot : b / 2 ^ s = a / 2 ^ s :=
        Nat.le_antisymm (le_of_lt_succ ((Nat.div_lt_iff_lt_mul hs).mpr (Nat.lt_of_not_le hnext)))
          (Nat.div_le_div_right h)
      have hmod : a % 2 ^ s ≤ b % 2 ^ s := by
        have ha' := div_add_mod a (2 ^ s)
        have hb' := div_add_mod b (2 ^ s)
        rw [hquot] at hb'
        omega
      rw [haeq, hbeq]
      have hmono : (a + (2 ^ s - 1)) / 2 ^ s * 2 ^ s ≤ (b + (2 ^ s - 1)) / 2 ^ s * 2 ^ s :=
        Nat.mul_le_mul_right _ (Nat.div_le_div_right (by omega))
      have hle := (ceil_mul_bounds hs b).1
      split <;> split <;> omega

/-- A length that can be halved until it is below the threshold. -/
inductive Halvable : ℕ → Prop
  | small {n : ℕ} : n < kKaratsubaThreshold → Halvable n
  | double {n : ℕ} : Halvable n → Halvable (2 * n)

/-- The length that the halvings of `n` lead back to. -/
def halvedLength (n : ℕ) : ℕ := (halve n).1 <<< (halve n).2

variable {n : ℕ}

theorem halvedLength_of_le (h : n ≤ kKaratsubaThreshold) : halvedLength n = n := by
  rw [halvedLength, halve, if_neg (by omega)]
  rfl

theorem halvedLength_of_lt (h : kKaratsubaThreshold < n) :
    halvedLength n = 2 * halvedLength (n / 2) := by
  rw [halvedLength, halve, if_pos h, halvedLength, shiftRight_one, shiftLeft_succ]

theorem halvedLength_le (n : ℕ) : halvedLength n ≤ n := by
  induction n using Nat.strong_induction_on with
  | _ n ih =>
    by_cases h : kKaratsubaThreshold < n
    · have := ih (n / 2) (by unfold kKaratsubaThreshold at h; omega)
      rw [halvedLength_of_lt h]
      omega
    · exact (halvedLength_of_le (Nat.le_of_not_lt h)).le

theorem lt_two_mul_halvedLength (hn : 0 < n) : n < 2 * halvedLength n := by
  induction n using Nat.strong_induction_on with
  | _ n ih =>
    by_cases h : kKaratsubaThreshold < n
    · unfold kKaratsubaThreshold at h
      have := ih (n / 2) (by omega) (by omega)
      rw [halvedLength_of_lt h]
      omega
    · rw [halvedLength_of_le (Nat.le_of_not_lt h)]
      omega

theorem halvedLength_halvable (n : ℕ) : Halvable (halvedLength n) := by
  induction n using Nat.strong_induction_on with
  | _ n ih =>
    by_cases h : kKaratsubaThreshold < n
    · rw [halvedLength_of_lt h]
      exact (ih (n / 2) (by unfold kKaratsubaThreshold at h; omega)).double
    · rw [halvedLength_of_le (Nat.le_of_not_lt h)]
      rcases Nat.lt_or_eq_of_le (Nat.le_of_not_lt h) with hlt | rfl
      · exact .small hlt
      · exact (Halvable.small (n := 17) (by decide)).double

theorem halvedLength_mono {a b : ℕ} (hab : a ≤ b) : halvedLength a ≤ halvedLength b := by
  induction b using Nat.strong_induction_on generalizing a with
  | _ b ih =>
    by_cases hb : kKaratsubaThreshold < b
    · have hb2 : b / 2 < b := by unfold kKaratsubaThreshold at hb; omega
      rw [halvedLength_of_lt hb]
      by_cases ha : kKaratsubaThreshold < a
      · rw [halvedLength_of_lt ha]
        have := ih (b / 2) hb2 (Nat.div_le_div_right hab)
        omega
      · -- even the smallest length that is halved leads back to the threshold
        have h17 : halvedLength 17 ≤ halvedLength (b / 2) :=
          ih (b / 2) hb2 (by unfold kKaratsubaThreshold at hb; omega)
        rw [halvedLength_of_le (by decide)] at h17
        rw [halvedLength_of_le (Nat.le_of_not_lt ha)]
        unfold kKaratsubaThreshold at ha
        omega
    · rw [halvedLength_of_le (by omega), halvedLength_of_le (by omega)]
      exact hab

theorem karatsubaLength_eq (n : ℕ) : karatsubaLength n = halvedLength (roundUpLen n) := rfl

theorem karatsubaLength_mono {a b : ℕ} (h : a ≤ b) : karatsubaLength a ≤ karatsubaLength b :=
  halvedLength_mono (roundUpLen_mono h)

/-- **The length of the recursion** for a shorter factor of `n` digits. -/
theorem karatsubaLength_bounds (h : kKaratsubaThreshold ≤ n) :
    Halvable (karatsubaLength n) ∧ kKaratsubaThreshold ≤ karatsubaLength n ∧
      n < 2 * karatsubaLength n ∧ 3 * karatsubaLength n ≤ 4 * n := by
  have hle := le_roundUpLen n
  have hup := roundUpLen_le (show 34 ≤ n from h)
  have hdown := halvedLength_le (roundUpLen n)
  have hlow := halvedLength_mono (h.trans hle)
  have hdouble := lt_two_mul_halvedLength
    (show 0 < roundUpLen n by unfold kKaratsubaThreshold at h; omega)
  rw [halvedLength_of_le le_rfl] at hlow
  exact ⟨halvedLength_halvable _, hlow, by rw [karatsubaLength_eq]; omega,
    by rw [karatsubaLength_eq]; omega⟩

/-! ## The algorithm -/

/-- `KaratsubaSubtractionHelper`: the absolute difference, and the sign, which
is turned around if the difference is negative. -/
def karatsubaSubtractionHelper (result X Y : Digits) (sign : ℤ) : Option (Digits × ℤ) := do
  let X := normalize X
  let Y := normalize Y
  if greaterThanOrEqual X Y then
    return (← subtractNormalized result X Y, sign)
  else
    return (← subtractNormalized result Y X, -sign)

namespace Processor

/-- The base case of `KaratsubaMain`: the longer factor comes first. -/
def karatsubaBase (Z X Y : Digits) : ProcessorM Digits :=
  let X := normalize X
  let Y := normalize Y
  if Y.length ≤ X.length then multiplySchoolbook Z X Y else multiplySchoolbook Z Y X

/-- The last step of `KaratsubaMain`: `P1` is added or subtracted, and
`overflow` is zero afterwards. -/
def karatsubaCorrect (Z P1 : Digits) (n2 : ℕ) (sign : ℤ) (overflow : Digit) : Option Digits := do
  if 0 < sign then
    let (Z, carry) ← addAt Z n2 P1
    dcheck (overflow + carry = 0)
    return Z
  else
    let (Z, borrow) ← subAt Z n2 P1
    dcheck (overflow - borrow = 0)
    return Z

/-- `KaratsubaMain`: the new contents of `Z` and of `scratch`. -/
def karatsubaMain (Z X Y scratch : Digits) (n : ℕ) : ProcessorM (Digits × Digits) := do
  if n < kKaratsubaThreshold then
    let low ← karatsubaBase (slice Z 0 (2 * n)) X Y
    return (putAt Z 0 low, scratch)
  else
    dcheck (4 * n ≤ scratch.length)
    dcheck (n &&& 1 = 0)
    let n2 := n >>> 1
    let X0 := slice X 0 n2
    let X1 := slice X n2 n2
    let Y0 := slice Y 0 n2
    let Y1 := slice Y n2 n2
    let scratchForRecursion := slice scratch (2 * n) (2 * n)
    let (P0, scratchForRecursion) ←
      karatsubaMain (slice scratch 0 n) X0 Y0 scratchForRecursion n2
    dcheck (n ≤ Z.length)
    let Z := putAt Z 0 P0
    let (P2, scratchForRecursion) ←
      karatsubaMain (slice scratch n n) X1 Y1 scratchForRecursion n2
    let stop := min (Z.length - n) P2.length
    let Z := putAt Z n (P2.take stop)
    dcheck (∀ d ∈ P2.drop stop, d = 0)
    let (Z, overflow) ← addAt Z n2 P0
    let (Z, carry) ← addAt Z n2 P2
    let overflow := overflow + carry
    -- `X_diff` and `Y_diff` take the place of `P0`, and `P1` that of `P2`
    let (XDiff, sign) ← karatsubaSubtractionHelper (slice P0 0 n2) X1 X0 1
    let (YDiff, sign) ← karatsubaSubtractionHelper (slice P0 n2 n2) Y0 Y1 sign
    let (P1, scratchForRecursion) ← karatsubaMain P2 XDiff YDiff scratchForRecursion n2
    let Z ← karatsubaCorrect Z P1 n2 sign overflow
    return (Z, XDiff ++ YDiff ++ P1 ++ scratchForRecursion ++ scratch.drop (4 * n))
  termination_by n
  decreasing_by
    all_goals
      rw [shiftRight_one]
      unfold kKaratsubaThreshold at *
      omega

/-- A multiplication of two chunks: from the old contents of `Z` and of the
scratch space, and the factors, to the new contents. -/
abbrev ChunkMul := Digits → Digits → Digits → Digits → ProcessorM (Digits × Digits)

/-- The loop of `KaratsubaStart` over the chunks of `X`, with `count` chunks
left from `i` on: the contents of `Z`, `T` and the scratch space. -/
def karatsubaRows (chunk : ChunkMul) (X Y0 Y1 : Digits) (k : ℕ) :
    ℕ → ℕ → Digits → Digits → Digits → ProcessorM (Digits × Digits × Digits)
  | 0, _, Z, T, scratch => return (Z, T, scratch)
  | count + 1, i, Z, T, scratch => do
    let Xi := slice X i k
    let (T, scratch) ← chunk T Xi Y0 scratch
    let (Z, carry) ← addAt Z i T
    dcheck (carry = 0)
    if 0 < Y1.length then
      let (T, scratch) ← chunk T Xi Y1 scratch
      let (Z, carry) ← addAt Z (i + k) T
      dcheck (carry = 0)
      karatsubaRows chunk X Y0 Y1 k count (i + k) Z T scratch
    else
      karatsubaRows chunk X Y0 Y1 k count (i + k) Z T scratch

variable (chunk : ChunkMul)

/-- The first addition of `KaratsubaStart`: `X0 * Y1 * b`. -/
def karatsubaFirst (X0 Y1 : Digits) (k : ℕ) (Z T scratch : Digits) :
    ProcessorM (Digits × Digits × Digits) := do
  if 0 < Y1.length then
    let (T, scratch) ← chunk T X0 Y1 scratch
    let (Z, carry) ← addAt Z k T
    dcheck (carry = 0)
    return (Z, T, scratch)
  else
    return (Z, T, scratch)

/-- `KaratsubaStart`, with the multiplication of chunks as a parameter. The
loop `for (int i = k; i < X.len(); i += k)` has `(X.len() - 1) / k` rounds. -/
def karatsubaStart (Z X Y scratch : Digits) (k : ℕ) : ProcessorM (Digits × Digits) := do
  let (Z, scratch) ← karatsubaMain Z X Y scratch k
  let Z := Z.take (2 * k) ++ List.replicate (Z.length - 2 * k) 0
  if k < Y.length ∨ X.length ≠ Y.length then
    let T := List.replicate (2 * k) 0
    let X0 := slice X 0 k
    let Y1 := Y.drop (min k Y.length)
    let (Z, T, scratch) ← karatsubaFirst chunk X0 Y1 k Z T scratch
    let Y0 := slice Y 0 k
    let (Z, _, scratch) ← karatsubaRows chunk X Y0 Y1 k ((X.length - 1) / k) k Z T scratch
    return (Z, scratch)
  else
    return (Z, scratch)

/-- `KaratsubaChunk` after the factors have been normalized and ordered. -/
def karatsubaChunkOrdered (Z X Y scratch : Digits) : ProcessorM (Digits × Digits) := do
  if Y.length = 1 then
    let y ← Y[0]?
    return (← multiplySingle Z X y, scratch)
  else if Y.length < kKaratsubaThreshold then
    return (← multiplySchoolbook Z X Y, scratch)
  else
    let k := karatsubaLength Y.length
    dcheck (4 * k ≤ scratch.length)
    karatsubaStart chunk Z X Y scratch k

def karatsubaChunk : ℕ → ChunkMul
  | 0, _, _, _, _ => failure
  | fuel + 1, Z, X, Y, scratch =>
    let X := normalize X
    let Y := normalize Y
    if X.length = 0 ∨ Y.length = 0 then
      return (List.replicate Z.length 0, scratch)
    else if X.length < Y.length then
      karatsubaChunkOrdered (karatsubaChunk fuel) Z Y X scratch
    else
      karatsubaChunkOrdered (karatsubaChunk fuel) Z X Y scratch

/-- `MultiplyKaratsuba`: `Z := X * Y`. -/
def multiplyKaratsuba (Z X Y : Digits) : ProcessorM Digits := do
  dcheck (Y.length ≤ X.length)
  dcheck (kKaratsubaThreshold ≤ Y.length)
  dcheck (X.length + Y.length ≤ Z.length)
  let k := karatsubaLength Y.length
  let scratch := List.replicate (4 * k) 0
  let (Z, _) ← karatsubaStart (karatsubaChunk (X.length + Y.length)) Z X Y scratch k
  return Z

end Processor

/-! ## The pieces of the recursion -/

/-- **The absolute difference and its sign** make up the difference. -/
theorem karatsubaSubtractionHelper_spec (result X Y : Digits) (sign : ℤ)
    (hX : X.length ≤ result.length) (hY : Y.length ≤ result.length) :
    ∃ D s, karatsubaSubtractionHelper result X Y sign = some (D, s) ∧
      D.length = result.length ∧ (s = sign ∨ s = -sign) ∧
      s * (value D : ℤ) = sign * ((value X : ℤ) - value Y) := by
  have hge := greaterThanOrEqual_iff (normalize X) (normalize Y)
  simp only [value_normalize] at hge
  have hXn := length_normalize_le X
  have hYn := length_normalize_le Y
  by_cases h : greaterThanOrEqual (normalize X) (normalize Y) = true
  · obtain ⟨D, hrun, hlen, hval⟩ := subtractNormalized_spec result (normalize X) (normalize Y)
      (by omega) (length_normalize_mono (hge.mp h)) (by simpa using hge.mp h)
    rw [value_normalize, value_normalize] at hval
    refine ⟨D, sign, ?_, hlen, .inl rfl, ?_⟩
    · simp only [karatsubaSubtractionHelper, if_pos h, hrun]
      rfl
    · rw [← hval]
      push_cast
      ring
  · have hlt := Nat.lt_of_not_le (mt hge.mpr h)
    obtain ⟨D, hrun, hlen, hval⟩ := subtractNormalized_spec result (normalize Y) (normalize X)
      (by omega) (length_normalize_mono hlt.le) (by simpa using hlt.le)
    rw [value_normalize, value_normalize] at hval
    refine ⟨D, -sign, ?_, hlen, .inr rfl, ?_⟩
    · simp only [karatsubaSubtractionHelper, if_neg h, hrun]
      rfl
    · rw [← hval]
      push_cast
      ring

namespace Processor

theorem karatsubaBase_yields (Z X Y : Digits) {n : ℕ} (hn : n < kKaratsubaThreshold)
    (hX : X.length ≤ n) (hY : Y.length ≤ n) (hZ : 2 * n ≤ Z.length) :
    Yields Live (karatsubaBase Z X Y)
      (fun Z' => Z'.length = Z.length ∧ Z'.value = X.value * Y.value) := by
  have hXn := length_normalize_le X
  have hYn := length_normalize_le Y
  have hbase : n + 1 < digitBase := by
    unfold kKaratsubaThreshold at hn
    unfold digitBase kDigitBits
    omega
  rw [karatsubaBase, ← value_normalize X, ← value_normalize Y]
  split
  · exact multiplySchoolbook_yields Z _ _ (normalize_normalized X) (normalize_normalized Y)
      (by assumption) (by omega) (by omega)
  · rw [Nat.mul_comm]
    exact multiplySchoolbook_yields Z _ _ (normalize_normalized Y) (normalize_normalized X)
      (by omega) (by omega) (by omega)

/-- **The last step leaves no overflow**, if the result `V` fits. -/
theorem karatsubaCorrect_spec (Z P1 : Digits) (n2 : ℕ) (sign : ℤ) (overflow : Digit) (V : ℕ)
    (hsign : sign = 1 ∨ sign = -1) (hlen : n2 + P1.length ≤ Z.length)
    (hV : V < digitBase ^ Z.length)
    (h : (V : ℤ) = Z.value + digitBase ^ Z.length * overflow.toNat
      + sign * (digitBase ^ n2 * P1.value)) :
    ∃ Z', karatsubaCorrect Z P1 n2 sign overflow = some Z' ∧ Z'.length = Z.length ∧
      Z'.value = V := by
  have hP := length_normalize_le P1
  rcases hsign with rfl | rfl
  · obtain ⟨Z', c, hrun, hZ', hc, hval⟩ := addAt_spec Z P1 n2 (by omega)
    have htotal : V = Z'.value + digitBase ^ Z.length * (overflow.toNat + c.toNat) := by grind
    have h0 : overflow.toNat + c.toNat = 0 :=
      lt_one_iff.mp (Nat.lt_of_mul_lt_mul_left (a := digitBase ^ Z.length) (by omega))
    have hdc : overflow + c = 0 := by
      rw [← UInt64.toNat_inj, toNat_add_of_lt (by rw [h0]; exact digitBase_pos), h0]
      rfl
    refine ⟨Z', ?_, hZ', by rw [htotal, h0, Nat.mul_zero, Nat.add_zero]⟩
    simp only [karatsubaCorrect, hrun, Int.zero_lt_one, if_true, Option.bind_eq_bind,
      Option.bind_some, dcheck_pos hdc]
    rfl
  · obtain ⟨Z', c, hrun, hZ', hc, hval⟩ := subAt_spec Z P1 n2 (by omega)
    have htotal : V + digitBase ^ Z.length * c.toNat
        = Z'.value + digitBase ^ Z.length * overflow.toNat := by
      zify at hval ⊢
      linear_combination h - hval
    have hlt := Z'.value_lt
    rw [hZ'] at hlt
    have heq : overflow.toNat = c.toNat := by
      refine Nat.le_antisymm ?_ ?_
      · refine le_of_lt_succ (Nat.lt_of_mul_lt_mul_left (a := digitBase ^ Z.length) ?_)
        rw [mul_succ]
        omega
      · refine le_of_lt_succ (Nat.lt_of_mul_lt_mul_left (a := digitBase ^ Z.length) ?_)
        rw [mul_succ]
        omega
    have hdc : overflow - c = 0 := by
      rw [UInt64.toNat_inj.mp heq]
      exact UInt64.sub_self c
    refine ⟨Z', ?_, hZ', by rw [heq] at htotal; omega⟩
    simp only [karatsubaCorrect, hrun, Option.bind_eq_bind, Option.bind_some, dcheck_pos hdc]
    rfl

/-- The contents of `Z` after `P0` and what fits of `P2` have been copied. -/
theorem value_copy {Z P0 P2 : Digits} (h0 : P0.length = n) (h2 : P2.length = n)
    (hn : n ≤ Z.length) (hfit : P2.value < digitBase ^ (Z.length - n)) :
    let stop := min (Z.length - n) P2.length
    let Z' := putAt (putAt Z 0 P0) n (P2.take stop)
    (∀ d ∈ P2.drop stop, d = 0) ∧ Z'.length = Z.length ∧
      Z'.value = P0.value + digitBase ^ n * P2.value
        + digitBase ^ (2 * n) * Digits.value (Z.drop (2 * n)) := by
  have hput : ∀ Q : Digits, putAt (putAt Z 0 P0) n Q = P0 ++ (Q ++ Z.drop (n + Q.length)) := by
    intro Q
    rw [putAt, putAt, take_zero, nil_append, Nat.zero_add, ← h0, take_left,
      append_assoc, drop_append, drop_eq_nil_of_le (by omega), nil_append,
      drop_drop, Nat.add_sub_cancel_left]
  simp only [hput, length_take, h2]
  refine ⟨?_, ?_, ?_⟩
  · refine eq_zero_of_value_eq_zero ?_
    rw [value_drop]
    rcases Nat.le_total n (Z.length - n) with hle | hle
    · rw [Nat.min_eq_right hle, div_eq_of_lt (h2 ▸ P2.value_lt)]
    · rw [Nat.min_eq_left hle, div_eq_of_lt hfit]
  · simp only [length_append, length_take, length_drop, h0, h2]
    omega
  · rw [value_append, value_append, length_take, h0, h2]
    rcases Nat.le_total n (Z.length - n) with hle | hle
    · rw [Nat.min_eq_right hle, Nat.min_self, take_of_length_le h2.le, Nat.two_mul, pow_add]
      ring
    · rw [Nat.min_eq_left hle, Nat.min_eq_left hle, Nat.add_sub_cancel' hn, drop_length,
        drop_eq_nil_of_le (show Z.length ≤ 2 * n by omega), value_take,
        mod_eq_of_lt hfit, value_nil]
      ring

/-! ## The recursion -/

/-- What `KaratsubaMain` needs of its arguments. -/
def MainPre (Z X Y scratch : Digits) (n : ℕ) : Prop :=
  (n < kKaratsubaThreshold → X.length ≤ n ∧ Y.length ≤ n ∧ 2 * n ≤ Z.length) ∧
  (kKaratsubaThreshold ≤ n → 4 * n ≤ scratch.length ∧ 3 * n ≤ 2 * Z.length ∧
    Digits.value (X.take n) * Digits.value (Y.take n) < digitBase ^ Z.length)

/-- What `KaratsubaMain` does: the product of the first `n` digits is in the
first `2 * n` digits of `Z`, and the other digits of `Z` are as before. -/
def MainPost (Z X Y scratch : Digits) (n : ℕ) (r : Digits × Digits) : Prop :=
  r.1.length = Z.length ∧ r.2.length = scratch.length ∧
    r.1.value = Digits.value (X.take n) * Digits.value (Y.take n)
      + digitBase ^ (2 * n) * Digits.value (Z.drop (2 * n))

/-- The arguments of the recursive calls: two vectors of `m` digits, a result
of `2 * m` digits and scratch space for them. -/
theorem MainPre.of_lengths {Z X Y scratch : Digits} {m : ℕ} (hZ : Z.length = 2 * m)
    (hX : X.length ≤ m) (hY : Y.length ≤ m) (hs : scratch.length = 4 * m) :
    MainPre Z X Y scratch m := by
  refine ⟨fun _ => ⟨hX, hY, hZ.ge⟩, fun _ => ⟨hs.ge, by omega, ?_⟩⟩
  rw [hZ, Nat.two_mul, pow_add]
  exact Nat.mul_lt_mul'' (value_lt_of_length_le (length_take_le m X))
    (value_lt_of_length_le (length_take_le m Y))

theorem MainPost.of_lengths {Z X Y scratch : Digits} {m : ℕ} {r : Digits × Digits}
    (h : MainPost Z X Y scratch m r) (hZ : Z.length = 2 * m) (hX : X.length ≤ m)
    (hY : Y.length ≤ m) (hs : scratch.length = 4 * m) :
    r.1.length = 2 * m ∧ r.2.length = 4 * m ∧ r.1.value = X.value * Y.value := by
  obtain ⟨h1, h2, h3⟩ := h
  refine ⟨h1.trans hZ, h2.trans hs, ?_⟩
  rw [h3, take_of_length_le hX, take_of_length_le hY,
    drop_eq_nil_of_le hZ.le, value_nil, Nat.mul_zero, Nat.add_zero]

theorem karatsubaMain_base (Z X Y scratch : Digits) {n : ℕ} (hn : n < kKaratsubaThreshold)
    (hpre : MainPre Z X Y scratch n) :
    Yields Live (karatsubaMain Z X Y scratch n) (MainPost Z X Y scratch n) := by
  obtain ⟨hX, hY, hZ⟩ := hpre.1 hn
  rw [karatsubaMain, if_pos hn]
  have hslice : (slice Z 0 (2 * n)).length = 2 * n := by
    rw [length_slice]
    omega
  refine Yields.bind (karatsubaBase_yields _ X Y hn hX hY hslice.ge) ?_
  rintro low ⟨hlen, hval⟩
  rw [hslice] at hlen
  refine Yields.pure ⟨length_putAt (by omega), rfl, ?_⟩
  rw [putAt, take_zero, nil_append, Nat.zero_add, value_append, hlen, hval,
    take_of_length_le hX, take_of_length_le hY]

/-- A product of two vectors of `n` digits, before digits of `Z` that are not
touched, still fits into `Z`. -/
theorem product_add_rest_lt {Z X Y : Digits}
    (h : Digits.value (X.take n) * Digits.value (Y.take n) < digitBase ^ Z.length) :
    Digits.value (X.take n) * Digits.value (Y.take n)
      + digitBase ^ (2 * n) * Digits.value (Z.drop (2 * n)) < digitBase ^ Z.length := by
  rcases Nat.le_total Z.length (2 * n) with hle | hle
  · rwa [drop_eq_nil_of_le hle, value_nil, Nat.mul_zero, Nat.add_zero]
  · have hlow : Digits.value (X.take n) * Digits.value (Y.take n) < digitBase ^ (2 * n) := by
      rw [Nat.two_mul, pow_add]
      exact Nat.mul_lt_mul'' (value_lt_of_length_le (length_take_le n X))
        (value_lt_of_length_le (length_take_le n Y))
    have hhigh : Digits.value (Z.drop (2 * n)) + 1 ≤ digitBase ^ (Z.length - 2 * n) := by
      rw [← length_drop]
      exact value_lt _
    calc _ < digitBase ^ (2 * n) + digitBase ^ (2 * n) * Digits.value (Z.drop (2 * n)) :=
          Nat.add_lt_add_right hlow _
      _ = digitBase ^ (2 * n) * (Digits.value (Z.drop (2 * n)) + 1) := by ring
      _ ≤ digitBase ^ (2 * n) * digitBase ^ (Z.length - 2 * n) := Nat.mul_le_mul_left _ hhigh
      _ = digitBase ^ Z.length := by rw [← pow_add, Nat.add_sub_cancel' hle]

/-- **One step of the recursion**: if products of `m` digits are right, so are
those of `2 * m` digits. -/
theorem karatsubaMain_step {m : ℕ} (hm : kKaratsubaThreshold ≤ 2 * m)
    (ih : ∀ Z X Y scratch, MainPre Z X Y scratch m →
      Yields Live (karatsubaMain Z X Y scratch m) (MainPost Z X Y scratch m))
    (Z X Y scratch : Digits) (hpre : MainPre Z X Y scratch (2 * m)) :
    Yields Live (karatsubaMain Z X Y scratch (2 * m)) (MainPost Z X Y scratch (2 * m)) := by
  obtain ⟨hs, hZ, hfits⟩ := hpre.2 hm
  have hhalf : (2 * m) >>> 1 = m := by omega
  have heven : 2 * m &&& 1 = 0 := by simp
  -- the slices of the factors, their values and lengths
  have hX := value_slice_add_slice X m m
  have hY := value_slice_add_slice Y m m
  rw [← Nat.two_mul] at hX hY
  have hlen : ∀ (W : Digits) (o : ℕ), (slice W o m).length ≤ m := fun W o => by
    rw [length_slice]
    omega
  have hX0 := hlen X 0
  have hX1 := hlen X m
  have hY0 := hlen Y 0
  have hY1 := hlen Y m
  have hrec : (slice scratch (2 * (2 * m)) (2 * (2 * m))).length = 4 * m := by
    rw [length_slice]
    omega
  rw [karatsubaMain, if_neg (Nat.not_lt.mpr hm), hhalf]
  refine lift_bind (dcheck_pos hs) (lift_bind (dcheck_pos heven) ?_)
  -- `P0` and `P2`
  have hP : (slice scratch 0 (2 * m)).length = 2 * m := by
    rw [length_slice]
    omega
  refine Yields.bind (ih _ _ _ _ (.of_lengths hP hX0 hY0 hrec)) ?_
  rintro ⟨P0, rec₀⟩ h0
  obtain ⟨hP0, hrec0, hval0⟩ := h0.of_lengths hP hX0 hY0 hrec
  refine lift_bind (dcheck_pos (show 2 * m ≤ Z.length by omega)) ?_
  have hP' : (slice scratch (2 * m) (2 * m)).length = 2 * m := by
    rw [length_slice]
    omega
  refine Yields.bind (ih _ _ _ _ (.of_lengths hP' hX1 hY1 hrec0)) ?_
  rintro ⟨P2, rec₂⟩ h2
  obtain ⟨hP2, hrec2, hval2⟩ := h2.of_lengths hP' hX1 hY1 hrec0
  simp only at hP0 hrec0 hval0 hP2 hrec2 hval2
  -- the copies and the first two additions
  have hP2fit : P2.value < digitBase ^ (Z.length - 2 * m) := by
    refine Nat.lt_of_mul_lt_mul_left (a := digitBase ^ (2 * m)) ?_
    rw [← pow_add, Nat.add_sub_cancel' (by omega), hval2]
    refine lt_of_le_of_lt ?_ hfits
    rw [← hX, ← hY, Nat.two_mul, pow_add, Nat.mul_mul_mul_comm]
    exact Nat.mul_le_mul (Nat.le_add_left _ _) (Nat.le_add_left _ _)
  obtain ⟨hzero, hlenZ, hvalZ⟩ := value_copy (Z := Z) hP0 hP2 (by omega) hP2fit
  have hlenput : (putAt Z 0 P0).length = Z.length := length_putAt (by omega)
  simp only [hlenput]
  refine lift_bind (dcheck_pos hzero) ?_
  generalize putAt (putAt Z 0 P0) (2 * m) (P2.take (min (Z.length - 2 * m) P2.length)) = Z₁ at *
  have hn0 := length_normalize_le P0
  have hn2 := length_normalize_le P2
  obtain ⟨Z₂, c₀, hrun, hZ₂, hc₀, hadd0⟩ := addAt_spec Z₁ P0 m (by omega)
  refine lift_bind hrun ?_
  obtain ⟨Z₃, c₂, hrun, hZ₃, hc₂, hadd2⟩ := addAt_spec Z₂ P2 m (by omega)
  refine lift_bind hrun ?_
  -- the product of the differences
  have hslices : ∀ o, o ≤ m → (slice P0 o m).length = m := fun o ho => by
    rw [length_slice]
    omega
  obtain ⟨DX, s₁, hrun, hDX, hs₁, hdiffX⟩ := karatsubaSubtractionHelper_spec (slice P0 0 m)
    (slice X m m) (slice X 0 m) 1 (by rw [hslices 0 (by omega)]; exact hX1)
    (by rw [hslices 0 (by omega)]; exact hX0)
  refine lift_bind hrun ?_
  obtain ⟨DY, s₂, hrun, hDY, hs₂, hdiffY⟩ := karatsubaSubtractionHelper_spec (slice P0 m m)
    (slice Y 0 m) (slice Y m m) s₁ (by rw [hslices m le_rfl]; exact hY0)
    (by rw [hslices m le_rfl]; exact hY1)
  refine lift_bind hrun ?_
  rw [hslices 0 (by omega)] at hDX
  rw [hslices m le_rfl] at hDY
  refine Yields.bind (ih _ _ _ _ (.of_lengths hP2 hDX.le hDY.le hrec2)) ?_
  rintro ⟨P1, rec₁⟩ h1
  obtain ⟨hP1, hrec1, hval1⟩ := h1.of_lengths hP2 hDX.le hDY.le hrec2
  simp only at hP1 hrec1 hval1
  -- the last correction
  have hcarry : (c₀ + c₂).toNat = c₀.toNat + c₂.toNat :=
    toNat_add_of_lt (lt_of_le_of_lt (by omega) (show 2 < digitBase by decide))
  have hsign : s₂ = 1 ∨ s₂ = -1 := by omega
  obtain ⟨Z₄, hrun, hZ₄, hval⟩ := karatsubaCorrect_spec Z₃ P1 m s₂ (c₀ + c₂)
    (Digits.value (X.take (2 * m)) * Digits.value (Y.take (2 * m))
      + digitBase ^ (2 * (2 * m)) * Digits.value (Z.drop (2 * (2 * m)))) hsign (by omega)
    (by rw [hZ₃, hZ₂, hlenZ]; exact product_add_rest_lt (hlenZ ▸ hfits)) (by
      rw [hZ₂] at hadd2
      rw [hZ₃, hZ₂, hcarry, ← hX, ← hY, hval1]
      rw [hval0] at hadd0 hvalZ
      rw [hval2] at hadd2 hvalZ
      zify at hadd0 hadd2 hvalZ ⊢
      linear_combination -hadd2 - hadd0 - hvalZ - digitBase ^ m * (DX.value : ℤ) * hdiffY
        - digitBase ^ m * ((slice Y 0 m).value - (slice Y m m).value : ℤ) * hdiffX)
  refine lift_bind hrun (Yields.pure ⟨?_, ?_, hval⟩)
  · grind
  · grind

/-- **`KaratsubaMain` multiplies**, for every length that can be halved. -/
theorem karatsubaMain_yields (hn : Halvable n) (Z X Y scratch : Digits)
    (hpre : MainPre Z X Y scratch n) :
    Yields Live (karatsubaMain Z X Y scratch n) (MainPost Z X Y scratch n) := by
  induction hn generalizing Z X Y scratch with
  | small hn => exact karatsubaMain_base Z X Y scratch hn hpre
  | @double m _ ih =>
    by_cases hm : 2 * m < kKaratsubaThreshold
    · exact karatsubaMain_base Z X Y scratch hm hpre
    · exact karatsubaMain_step (Nat.le_of_not_lt hm) ih Z X Y scratch hpre

/-! ## Chunks -/

/-- What a multiplication of chunks does, given the product `V`. -/
def ChunkPost (Z scratch : Digits) (V : ℕ) (r : Digits × Digits) : Prop :=
  r.1.length = Z.length ∧ r.2.length = scratch.length ∧ r.1.value = V

/-- A multiplication of chunks that is right for chunks whose lengths sum up
to less than `bound`. -/
def ChunkSpec (chunk : ChunkMul) (bound : ℕ) : Prop :=
  ∀ Z X Y scratch, X.length + Y.length < bound → X.length + Y.length ≤ Z.length →
    4 * karatsubaLength (min X.length Y.length) ≤ scratch.length →
    Yields Live (chunk Z X Y scratch) (ChunkPost Z scratch (X.value * Y.value))

variable {chunk : ChunkMul}

theorem ChunkSpec.mono {b b' : ℕ} (h : ChunkSpec chunk b) (hb : b' ≤ b) : ChunkSpec chunk b' :=
  fun Z X Y scratch hlt => h Z X Y scratch (by omega)

section Start

variable {chunk : ChunkMul} {X Y : Digits} {k : ℕ}

/-- The prefix of `X` grows by the chunk at `i`. -/
theorem value_take_add (X : Digits) (i k : ℕ) : Digits.value (X.take (i + k))
      = Digits.value (X.take i) + digitBase ^ i * (slice X i k).value := by
  rw [← value_slice_add_slice, slice_zero]

theorem value_take_le (X : Digits) (i : ℕ) : Digits.value (X.take i) ≤ X.value := by
  rw [← value_take_add_drop X i]
  exact Nat.le_add_right _ _

/-- The parts `Y0` and `Y1` make up `Y`. -/
theorem value_parts (Y : Digits) (k : ℕ) :
    (slice Y 0 k).value + digitBase ^ k * Digits.value (Y.drop (min k Y.length)) = Y.value := by
  rw [slice_zero, ← value_take_add_drop Y k]
  rcases Nat.le_total k Y.length with h | h
  · rw [Nat.min_eq_left h]
  · rw [Nat.min_eq_right h, drop_length, drop_eq_nil_of_le h]

/-- **The rows of the product**: with `X0 * Y, …` for the chunks before `i`
in `Z`, the loop adds those from `i` on. -/
theorem karatsubaRows_yields (hk : 0 < k) (hkY : Y.length ≤ 2 * k)
    (hchunk : ChunkSpec chunk (X.length + Y.length)) (count i : ℕ) (Z T scratch : Digits)
    (hi : k ≤ i) (hcount : i + count * k < X.length + k) (hend : X.length ≤ i + count * k)
    (hZ : X.length + Y.length ≤ Z.length) (hT : T.length = 2 * k)
    (hs : 4 * karatsubaLength Y.length ≤ scratch.length)
    (hval : Z.value = Digits.value (X.take i) * Y.value) :
    Yields Live (karatsubaRows chunk X (slice Y 0 k) (Y.drop (min k Y.length)) k count i Z T
        scratch)
      (fun r => r.1.length = Z.length ∧ r.2.2.length = scratch.length ∧
        r.1.value = X.value * Y.value) := by
  induction count generalizing i Z T scratch with
  | zero =>
    refine Yields.pure ⟨rfl, rfl, ?_⟩
    rw [hval, take_of_length_le (by omega)]
  | succ count ih =>
    rw [succ_mul] at hcount hend
    have hXi : (slice X i k).length ≤ k := by rw [length_slice]; omega
    have hY0 : (slice Y 0 k).length ≤ k ∧ (slice Y 0 k).length ≤ Y.length := by simp
    have hY1' : (Y.drop (min k Y.length)).length = Y.length - k := by
      rw [length_drop]
      omega
    have hparts := value_parts Y k
    have hgrow := value_take_add X i k
    have hfit : Digits.value (X.take (i + k)) * Y.value < digitBase ^ Z.length := by
      refine lt_of_lt_of_le ?_ (Nat.pow_le_pow_right digitBase_pos hZ)
      rw [pow_add]
      exact Nat.mul_lt_mul'' ((value_take_le X _).trans_lt X.value_lt) Y.value_lt
    have hsplit : Digits.value (X.take (i + k)) * Y.value = Z.value
        + digitBase ^ i * ((slice X i k).value * (slice Y 0 k).value)
        + digitBase ^ (i + k) * ((slice X i k).value * Digits.value (Y.drop (min k Y.length))) := by
      rw [hgrow, hval, pow_add, ← hparts]
      ring
    have hmin : ∀ a b, b ≤ Y.length → 4 * karatsubaLength (min a b) ≤ scratch.length :=
      fun a b hb => le_trans (Nat.mul_le_mul_left 4 (karatsubaLength_mono (by omega))) hs
    refine Yields.bind (hchunk T _ _ scratch (by omega) (by omega) (hmin _ _ hY0.2)) ?_
    rintro ⟨T₁, scratch₁⟩ ⟨hT₁, hs₁, hvalT₁⟩
    simp only at hT₁ hs₁ hvalT₁
    obtain ⟨Z₁, hrun, hZ₁, hvalZ₁⟩ := addAt_of_lt Z T₁ i (by omega) (by rw [hvalT₁]; omega)
    refine lift_bind hrun (lift_bind (dcheck_pos rfl) ?_)
    by_cases h1 : 0 < (Y.drop (min k Y.length)).length
    · rw [if_pos h1]
      refine Yields.bind (hchunk T₁ _ _ scratch₁ (by omega) (by omega)
        (hs₁ ▸ hmin _ _ (by omega))) ?_
      rintro ⟨T₂, scratch₂⟩ ⟨hT₂, hs₂, hvalT₂⟩
      simp only at hT₂ hs₂ hvalT₂
      obtain ⟨Z₂, hrun, hZ₂, hvalZ₂⟩ := addAt_of_lt Z₁ T₂ (i + k) (by omega) (by
        rw [hvalZ₁, hvalT₁, hvalT₂, hZ₁]
        omega)
      refine lift_bind hrun (lift_bind (dcheck_pos rfl) ?_)
      refine (ih (i + k) Z₂ T₂ scratch₂ (by omega) (by omega) (by omega) (by omega) (by omega)
        (by omega) ?_).mono fun r hr => ⟨by omega, by omega, hr.2.2⟩
      rw [hvalZ₂, hvalZ₁, hvalT₁, hvalT₂, hsplit]
    · rw [if_neg h1]
      refine (ih (i + k) Z₁ T₁ scratch₁ (by omega) (by omega) (by omega) (by omega) (by omega)
        (by omega) ?_).mono fun r hr => ⟨by omega, by omega, hr.2.2⟩
      rw [hvalZ₁, hvalT₁, hsplit, eq_nil_of_length_eq_zero (Nat.eq_zero_of_not_pos h1), value_nil]
      ring

theorem karatsubaFirst_yields (hk : 0 < k) (hkY : Y.length ≤ 2 * k)
    (hchunk : ChunkSpec chunk (X.length + Y.length)) (Z T scratch : Digits)
    (hZ : X.length + Y.length ≤ Z.length) (hT : T.length = 2 * k)
    (hs : 4 * karatsubaLength Y.length ≤ scratch.length)
    (hval : Z.value = Digits.value (X.take k) * Digits.value (Y.take k)) :
    Yields Live (karatsubaFirst chunk (slice X 0 k) (Y.drop (min k Y.length)) k Z T scratch)
      (fun r => r.1.length = Z.length ∧ r.2.1.length = T.length ∧ r.2.2.length = scratch.length ∧
        r.1.value = Digits.value (X.take k) * Y.value) := by
  have hparts := value_parts Y k
  rw [slice_zero] at hparts
  have hX0 : (slice X 0 k).length ≤ k ∧ (slice X 0 k).length ≤ X.length := by simp
  have hY1 : (Y.drop (min k Y.length)).length = Y.length - k := by rw [length_drop]; omega
  have hsplit : Digits.value (X.take k) * Y.value = Z.value + digitBase ^ k
      * ((slice X 0 k).value * Digits.value (Y.drop (min k Y.length))) := by
    rw [hval, ← hparts, slice_zero]
    ring
  have hfit : Digits.value (X.take k) * Y.value < digitBase ^ Z.length := by
    refine lt_of_lt_of_le ?_ (Nat.pow_le_pow_right digitBase_pos hZ)
    rw [pow_add]
    exact Nat.mul_lt_mul'' ((value_take_le X _).trans_lt X.value_lt) Y.value_lt
  rw [karatsubaFirst]
  by_cases h1 : 0 < (Y.drop (min k Y.length)).length
  · rw [if_pos h1]
    refine Yields.bind (hchunk T _ _ scratch (by omega) (by omega)
      (le_trans (Nat.mul_le_mul_left 4 (karatsubaLength_mono (by omega))) hs)) ?_
    rintro ⟨T₁, scratch₁⟩ ⟨hT₁, hs₁, hvalT₁⟩
    obtain ⟨Z₁, hrun, hZ₁, hvalZ₁⟩ := addAt_of_lt Z T₁ k (by omega)
      (by rw [hvalT₁, ← hsplit]; exact hfit)
    refine lift_bind hrun (lift_bind (dcheck_pos rfl) (Yields.pure ?_))
    exact ⟨hZ₁, hT₁, hs₁, by rw [hvalZ₁, hvalT₁, hsplit]⟩
  · rw [if_neg h1]
    refine Yields.pure ⟨rfl, rfl, rfl, ?_⟩
    rw [hsplit, eq_nil_of_length_eq_zero (Nat.eq_zero_of_not_pos h1), value_nil,
      Nat.mul_zero, Nat.mul_zero, Nat.add_zero]

end Start

/-- **`KaratsubaStart` multiplies**, if chunks that are shorter than its
factors are multiplied. -/
theorem karatsubaStart_yields (Z X Y scratch : Digits)
    (hY : kKaratsubaThreshold ≤ Y.length) (hXY : Y.length ≤ X.length)
    (hZ : X.length + Y.length ≤ Z.length)
    (hs : 4 * karatsubaLength Y.length ≤ scratch.length)
    (hchunk : ChunkSpec chunk (X.length + Y.length)) :
    Yields Live (karatsubaStart chunk Z X Y scratch (karatsubaLength Y.length))
      (ChunkPost Z scratch (X.value * Y.value)) := by
  obtain ⟨hhalv, hkmin, hkY, hkmax⟩ := karatsubaLength_bounds hY
  set k := karatsubaLength Y.length
  have hk0 : 0 < k := lt_of_lt_of_le (by decide) hkmin
  have hlow : Digits.value (X.take k) * Digits.value (Y.take k) < digitBase ^ (2 * k) := by
    rw [Nat.two_mul, pow_add]
    exact Nat.mul_lt_mul'' (value_lt_of_length_le (length_take_le k X))
      (value_lt_of_length_le (length_take_le k Y))
  have hpre : MainPre Z X Y scratch k := by
    refine ⟨fun h => absurd h (Nat.not_lt.mpr hkmin), fun _ => ⟨hs, by omega, ?_⟩⟩
    refine lt_of_lt_of_le ?_ (Nat.pow_le_pow_right digitBase_pos hZ)
    rw [pow_add]
    exact Nat.mul_lt_mul'' ((value_take_le X k).trans_lt X.value_lt)
      ((value_take_le Y k).trans_lt Y.value_lt)
  refine Yields.bind (karatsubaMain_yields hhalv Z X Y scratch hpre) ?_
  rintro ⟨Z₁, scratch₁⟩ ⟨hZ₁, hs₁, hval₁⟩
  simp only at hZ₁ hs₁ hval₁
  -- the digits above the product are cleared
  have hlenC : (Z₁.take (2 * k) ++ List.replicate (Z₁.length - 2 * k) 0).length = Z.length := by
    rw [length_append, length_take, length_replicate]
    omega
  have hvalC : Digits.value (Z₁.take (2 * k) ++ List.replicate (Z₁.length - 2 * k) 0)
      = Digits.value (X.take k) * Digits.value (Y.take k) := by
    rw [value_append, value_replicate_zero, Nat.mul_zero, Nat.add_zero, value_take, hval₁,
      add_mul_mod_self_left, mod_eq_of_lt hlow]
  simp only
  generalize Z₁.take (2 * k) ++ List.replicate (Z₁.length - 2 * k) 0 = Z₂ at *
  by_cases hc : k < Y.length ∨ X.length ≠ Y.length
  · rw [if_pos hc]
    have hrounds := div_add_mod (X.length - 1) k
    have hrest := mod_lt (X.length - 1) hk0
    rw [Nat.mul_comm] at hrounds
    refine Yields.bind (karatsubaFirst_yields hk0 hkY.le hchunk Z₂ (List.replicate (2 * k) 0)
      scratch₁ (by omega) length_replicate (by omega) hvalC) ?_
    rintro ⟨Z₃, T, scratch₂⟩ ⟨hZ₃, hT, hs₂, hval₃⟩
    simp only [length_replicate] at hZ₃ hT hs₂ hval₃
    refine Yields.bind (karatsubaRows_yields hk0 hkY.le hchunk ((X.length - 1) / k) k Z₃ T
      scratch₂ le_rfl (by omega) (by omega) (by omega) hT (by omega) hval₃) ?_
    rintro ⟨Z₄, T', scratch₃⟩ ⟨hZ₄, hs₃, hval₄⟩
    refine Yields.pure ⟨?_, ?_, hval₄⟩
    · grind
    · grind
  · rw [if_neg hc]
    refine Yields.pure ⟨hlenC, hs₁, ?_⟩
    rw [hvalC, take_of_length_le (by omega), take_of_length_le (by omega)]

theorem karatsubaChunkOrdered_yields (Z X Y scratch : Digits)
    (hX : X.Normalized) (hY : Y.Normalized) (hY0 : Y.length ≠ 0) (hXY : Y.length ≤ X.length)
    (hZ : X.length + Y.length ≤ Z.length)
    (hs : 4 * karatsubaLength Y.length ≤ scratch.length)
    (hchunk : ChunkSpec chunk (X.length + Y.length)) :
    Yields Live (karatsubaChunkOrdered chunk Z X Y scratch)
      (ChunkPost Z scratch (X.value * Y.value)) := by
  rw [karatsubaChunkOrdered]
  by_cases h1 : Y.length = 1
  · obtain ⟨y, rfl⟩ := length_eq_one_iff.mp h1
    have hy : y ≠ 0 := by simpa [Normalized] using hY
    refine lift_bind (a := y) rfl ?_
    refine Yields.bind (multiplySingle_yields Z X y hy (by simpa using hZ)) ?_
    rintro Z' ⟨hlen, hval⟩
    exact Yields.pure ⟨hlen, rfl, by simpa using hval⟩
  rw [if_neg h1]
  by_cases h34 : Y.length < kKaratsubaThreshold
  · rw [if_pos h34]
    have hbase : Y.length + 1 < digitBase := by
      unfold kKaratsubaThreshold at h34
      unfold digitBase kDigitBits
      omega
    refine Yields.bind (multiplySchoolbook_yields Z X Y hX hY hXY hZ hbase) ?_
    rintro Z' ⟨hlen, hval⟩
    exact Yields.pure ⟨hlen, rfl, hval⟩
  · rw [if_neg h34]
    refine lift_bind (dcheck_pos hs) ?_
    exact karatsubaStart_yields Z X Y scratch (Nat.le_of_not_lt h34) hXY hZ hs hchunk

/-- **`KaratsubaChunk` multiplies** with a counter above the sum of the
lengths. -/
theorem karatsubaChunk_spec (fuel : ℕ) : ChunkSpec (karatsubaChunk fuel) fuel := by
  induction fuel with
  | zero => exact fun Z X Y scratch h => absurd h (Nat.not_lt_zero _)
  | succ fuel ih =>
    intro Z X Y scratch hlt hZ hs
    have hXn := length_normalize_le X
    have hYn := length_normalize_le Y
    have hmin : ∀ n, n ≤ min X.length Y.length → 4 * karatsubaLength n ≤ scratch.length :=
      fun n hn => le_trans (Nat.mul_le_mul_left 4 (karatsubaLength_mono hn)) hs
    rw [karatsubaChunk, ← value_normalize X, ← value_normalize Y]
    by_cases h0 : (normalize X).length = 0 ∨ (normalize Y).length = 0
    · rw [if_pos h0]
      refine Yields.pure ⟨length_replicate, rfl, ?_⟩
      rw [value_replicate_zero]
      rcases h0 with h | h
      · rw [eq_nil_of_length_eq_zero h, value_nil, Nat.zero_mul]
      · rw [eq_nil_of_length_eq_zero h, value_nil, Nat.mul_zero]
    rw [if_neg h0]
    push Not at h0
    by_cases hswap : (normalize X).length < (normalize Y).length
    · rw [if_pos hswap, Nat.mul_comm]
      exact karatsubaChunkOrdered_yields Z _ _ scratch (normalize_normalized Y)
        (normalize_normalized X) h0.1 hswap.le (by omega) (hmin _ (by omega))
        (ih.mono (by omega))
    · rw [if_neg hswap]
      exact karatsubaChunkOrdered_yields Z _ _ scratch (normalize_normalized X)
        (normalize_normalized Y) h0.2 (by omega) (by omega) (hmin _ (by omega))
        (ih.mono (by omega))

theorem multiplyKaratsuba_yields (Z X Y : Digits) (hY : kKaratsubaThreshold ≤ Y.length)
    (hXY : Y.length ≤ X.length) (hZ : X.length + Y.length ≤ Z.length) :
    Yields Live (multiplyKaratsuba Z X Y)
      (fun Z' => Z'.length = Z.length ∧ Z'.value = X.value * Y.value) := by
  refine lift_bind (dcheck_pos hXY) (lift_bind (dcheck_pos hY) ?_)
  refine lift_bind (dcheck_pos hZ) ?_
  refine Yields.bind (karatsubaStart_yields Z X Y _ hY hXY hZ length_replicate.ge
    (karatsubaChunk_spec _)) ?_
  rintro ⟨Z', scratch⟩ ⟨hlen, -, hval⟩
  exact Yields.pure ⟨hlen, hval⟩

/-- **Karatsuba multiplication is exact.** From every state of the processor,
and whatever the platform answers, `MultiplyKaratsuba` returns: every access
is in range and every assertion holds, among them that the scratch space is
large enough and the length even wherever the recursion splits, that no
addition of a chunk overflows, and that `overflow` is zero in the end. `Z`
holds the product, with zeros in the remaining digits. -/
theorem multiplyKaratsuba_exact (Z X Y : Digits) (hY : kKaratsubaThreshold ≤ Y.length)
    (hXY : Y.length ≤ X.length) (hZ : X.length + Y.length ≤ Z.length) (p : Processor) :
    ∃ Z' p', (multiplyKaratsuba Z X Y).run p = some (Z', p') ∧ Z'.length = Z.length ∧
      Z'.value = X.value * Y.value ∧ ∀ d ∈ Z'.drop (X.length + Y.length), d = 0 := by
  obtain ⟨Z', p', hrun, ⟨hlen, hval⟩, -⟩ := multiplyKaratsuba_yields Z X Y hY hXY hZ p
  refine ⟨Z', p', hrun, hlen, hval, eq_zero_of_value_eq_zero ?_⟩
  rw [value_drop, hval, pow_add]
  exact div_eq_of_lt (Nat.mul_lt_mul'' X.value_lt Y.value_lt)

theorem multiplyKaratsuba_exact_nines :
    ∃ Z' p', (multiplyKaratsuba (List.replicate 100 7) (List.replicate 50 9)
        (List.replicate 35 9)).run ⟨0, .kOk, fun _ => true, 0⟩ = some (Z', p') ∧
      Z'.length = 100 ∧
      Z'.value = Digits.value (List.replicate 50 9) * Digits.value (List.replicate 35 9) ∧
      ∀ d ∈ Z'.drop 85, d = 0 :=
  multiplyKaratsuba_exact (List.replicate 100 7) (List.replicate 50 9) (List.replicate 35 9)
    (by decide) (by decide) (by decide) _

/-- **Karatsuba and schoolbook multiplication write the same digits**, from any two states of the
processor. -/
theorem multiplyKaratsuba_eq_multiplySchoolbook {Z X Y : Digits} (hX : X.Normalized)
    (hY : Y.Normalized) (hlong : kKaratsubaThreshold ≤ Y.length) (hlen : Y.length + 1 < digitBase)
    (hXY : Y.length ≤ X.length) (hZ : X.length + Y.length ≤ Z.length) (p q : Processor) :
    ∃ Z' p' q', (multiplyKaratsuba Z X Y).run p = some (Z', p') ∧
      (multiplySchoolbook Z X Y).run q = some (Z', q') := by
  obtain ⟨Z', p', hrun, ⟨hlen', hval⟩, -⟩ := multiplyKaratsuba_yields Z X Y hlong hXY hZ p
  obtain ⟨Z₂, q', hrun₂, ⟨hlen₂, hval₂⟩, -⟩ := multiplySchoolbook_yields Z X Y hX hY hXY hZ hlen q
  obtain rfl := eq_of_value_eq (hlen'.trans hlen₂.symm) (hval.trans hval₂.symm)
  exact ⟨Z', p', q', hrun, hrun₂⟩

theorem multiplyKaratsuba_eq_multiplySchoolbook_nines :
    let p : Processor := ⟨0, .kOk, fun _ => true, 0⟩
    ∃ Z' p' q', (multiplyKaratsuba (replicate 70 7) (replicate 35 9) (replicate 34 9)).run p =
        some (Z', p') ∧
      (multiplySchoolbook (replicate 70 7) (replicate 35 9) (replicate 34 9)).run p =
        some (Z', q') :=
  multiplyKaratsuba_eq_multiplySchoolbook (by decide) (by decide) (by decide) (by decide)
    (by decide) (by decide) _ _

end Processor
