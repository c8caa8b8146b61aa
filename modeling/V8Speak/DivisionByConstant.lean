import V8Speak.Reciprocal

/-!
# Magic numbers for division

`SignedDivisionByConstant` and `UnsignedDivisionByConstant`
(`base/division-by-constant.cc`) look for the least `p`, from the word size on,
with which the division by a constant can be done as a multiplication and a
shift by `p`. Both are templates over the word; the loops keep the quotients
and remainders of `2 ^ p` by the divisor and by a critical dividend, in words.

In the unsigned search the quotients may not fit into a word. The reciprocal
then has one bit more than a word, which is what `add` says.

The number of rounds is a bound on the loops; both come to an end within it
(`signedDivisionByConstant_spec`, `unsignedDivisionByConstant_spec`).
-/

open Nat hiding pow_succ pow_succ'
open BitVec hiding add_mul mul_add mul_two neg_neg not_not shiftLeft_eq two_mul
open Reciprocal

variable {bits : ℕ}

structure MagicNumbersForDivision (bits : ℕ) where
  multiplier : BitVec bits
  shift : ℕ
  add : Bool
  deriving DecidableEq, Repr

namespace MagicNumbersForDivision

/-! ## Signed division -/

/-- The variables of the loop of `SignedDivisionByConstant`. -/
structure SignedSearch (bits : ℕ) where
  p : ℕ
  q1 : BitVec bits
  r1 : BitVec bits
  q2 : BitVec bits
  r2 : BitVec bits

/-- The update of a quotient and a remainder by `n`. -/
def double (n q r : BitVec bits) : BitVec bits × BitVec bits :=
  let q := 2 * q
  let r := 2 * r
  if r ≥ n then (q + 1, r - n) else (q, r)

/-- A round of the loop of `SignedDivisionByConstant`. -/
def signedRound (anc ad : BitVec bits) (s : SignedSearch bits) : SignedSearch bits :=
  ⟨s.p + 1, (double anc s.q1 s.r1).1, (double anc s.q1 s.r1).2, (double ad s.q2 s.r2).1,
    (double ad s.q2 s.r2).2⟩

/-- The loop of `SignedDivisionByConstant`. -/
def signedLoop (anc ad : BitVec bits) : ℕ → SignedSearch bits → Option (SignedSearch bits)
  | 0, _ => none
  | rounds + 1, s =>
    let s := signedRound anc ad s
    let delta := ad - s.r2
    if s.q1 < delta ∨ s.q1 = delta ∧ s.r1 = 0 then signedLoop anc ad rounds s else some s

def signedDivisionByConstant (d : BitVec bits) : Option (MagicNumbersForDivision bits) :=
  let min := (1 : BitVec bits) <<< (bits - 1)
  let neg := min &&& d ≠ 0
  let ad := if neg then 0 - d else d
  let t := min + (d >>> (bits - 1))
  let anc := t - 1 - t % ad
  let p := bits - 1
  let q1 := min / anc
  let r1 := min - q1 * anc
  let q2 := min / ad
  let r2 := min - q2 * ad
  (signedLoop anc ad bits ⟨p, q1, r1, q2, r2⟩).map fun s =>
    let mul := s.q2 + 1
    ⟨if neg then 0 - mul else mul, s.p - bits, false⟩

/-! ## Unsigned division -/

/-- The variables of the loop of `UnsignedDivisionByConstant`. -/
structure UnsignedSearch (bits : ℕ) where
  a : Bool
  p : ℕ
  q1 : BitVec bits
  r1 : BitVec bits
  q2 : BitVec bits
  r2 : BitVec bits

/-- A round of the loop of `UnsignedDivisionByConstant`. -/
def unsignedRound (min max nc d : BitVec bits) (s : UnsignedSearch bits) : UnsignedSearch bits :=
  let s := if s.r1 ≥ nc - s.r1 then
      { s with p := s.p + 1, q1 := 2 * s.q1 + 1, r1 := 2 * s.r1 - nc }
    else { s with p := s.p + 1, q1 := 2 * s.q1, r1 := 2 * s.r1 }
  if s.r2 + 1 ≥ d - s.r2 then
    { s with a := s.a || s.q2 ≥ max, q2 := 2 * s.q2 + 1, r2 := 2 * s.r2 + 1 - d }
  else { s with a := s.a || s.q2 ≥ min, q2 := 2 * s.q2, r2 := 2 * s.r2 + 1 }

/-- The loop of `UnsignedDivisionByConstant`. -/
def unsignedLoop (min max nc d : BitVec bits) : ℕ → UnsignedSearch bits →
    Option (UnsignedSearch bits)
  | 0, _ => none
  | rounds + 1, s =>
    let s := unsignedRound min max nc d s
    let delta := d - 1 - s.r2
    if s.p < bits * 2 ∧ (s.q1 < delta ∨ s.q1 = delta ∧ s.r1 = 0) then
      unsignedLoop min max nc d rounds s
    else some s

def unsignedDivisionByConstant (d : BitVec bits) (leadingZeros : ℕ) :
    Option (MagicNumbersForDivision bits) :=
  let ones := ~~~(0 : BitVec bits) >>> leadingZeros
  let min := (1 : BitVec bits) <<< (bits - 1)
  let max := ~~~(0 : BitVec bits) >>> 1
  let nc := ones - (ones - d) % d
  let p := bits - 1
  let q1 := min / nc
  let r1 := min - q1 * nc
  let q2 := max / d
  let r2 := max - q2 * d
  (unsignedLoop min max nc d (bits + 1) ⟨false, p, q1, r1, q2, r2⟩).map fun s =>
    ⟨s.q2 + 1, s.p - bits, s.a⟩

example : signedDivisionByConstant (7 : BitVec 32) = some ⟨0x92492493, 2, false⟩ := by decide

example : unsignedDivisionByConstant (7 : BitVec 32) 0 = some ⟨0x24924925, 3, true⟩ := by decide

/-! ## Words -/

theorem two_pow_pred (hbits : 0 < bits) : 2 ^ bits = 2 * 2 ^ (bits - 1) := by
  rw [← pow_succ', Nat.sub_add_cancel hbits]

theorem toNat_one (hbits : 0 < bits) : (1 : BitVec bits).toNat = 1 := by
  rw [ofNat_eq_ofNat, toNat_ofNat, mod_eq_of_lt (Nat.one_lt_two_pow hbits.ne')]

theorem toNat_one_shiftLeft (hbits : 0 < bits) :
    ((1 : BitVec bits) <<< (bits - 1)).toNat = 2 ^ (bits - 1) := by
  rw [toNat_shiftLeft, toNat_one hbits, shiftLeft_eq, one_mul, mod_eq_of_lt]
  exact Nat.pow_lt_pow_right Nat.one_lt_two (sub_lt hbits Nat.one_pos)

theorem one_shiftLeft_and_ne_zero (hbits : 0 < bits) (d : BitVec bits) :
    (1 : BitVec bits) <<< (bits - 1) &&& d ≠ 0 ↔ d.msb = true := by
  have htwo : (1 : BitVec bits) <<< (bits - 1) = BitVec.twoPow bits (bits - 1) := rfl
  rw [htwo, twoPow_and, msb_eq_getLsbD_last]
  split
  · next h =>
    refine iff_of_true (fun hzero => ?_) h
    have hnat := congrArg BitVec.toNat hzero
    rw [← htwo, toNat_one_shiftLeft hbits] at hnat
    exact (Nat.two_pow_pos (bits - 1)).ne' hnat
  · next h => simp [h]

theorem toNat_shiftRight_msb (hbits : 0 < bits) (d : BitVec bits) :
    (d >>> (bits - 1)).toNat = d.msb.toNat := by
  have hlt := d.isLt
  rw [two_pow_pred hbits] at hlt
  rw [toNat_ushiftRight, shiftRight_eq_div_pow, msb_eq_decide]
  by_cases h : 2 ^ (bits - 1) ≤ d.toNat
  · rw [decide_eq_true h]
    refine Nat.div_eq_of_lt_le ?_ ?_ <;> rw [Bool.toNat_true] <;> omega
  · rw [decide_eq_false h]
    exact div_eq_of_lt (not_le.mp h)

theorem toNat_two_mul (r : BitVec bits) : (2 * r).toNat = 2 * r.toNat % 2 ^ bits := by
  rw [toNat_mul, ofNat_eq_ofNat, toNat_ofNat, mod_mul_mod]

/-! ## The signed search -/

variable {anc ad : BitVec bits}

/-- Doubling gives the quotient and the remainder of the next power. -/
theorem double_spec {n q r : BitVec bits} {x : ℕ} (hn : 0 < n.toNat) (hle : 2 * n.toNat ≤ 2 ^ bits)
    (hq : q = BitVec.ofNat bits (x / n.toNat)) (hr : r.toNat = x % n.toNat) :
    (double n q r).1 = BitVec.ofNat bits (2 * x / n.toNat) ∧
      (double n q r).2.toNat = 2 * x % n.toNat := by
  have hlt := mod_lt x hn
  have htwo : (2 * r).toNat = 2 * (x % n.toNat) := by
    rw [toNat_two_mul, hr, mod_eq_of_lt (by omega)]
  obtain ⟨hdiv, hmod⟩ := double_divMod x (Nat.zero_le 1) hn
  rw [add_zero, add_zero] at hdiv hmod
  simp only [double, le_def, ge_iff_le, htwo]
  rw [hdiv, hmod]
  split
  · next h =>
    refine ⟨?_, ?_⟩
    · rw [hq, ofNat_add, ofNat_mul]
      rfl
    · rw [toNat_sub_of_le (by rw [le_def, htwo]; exact h), htwo]
  · refine ⟨?_, htwo⟩
    rw [hq, ofNat_mul]
    rfl

/-- What the variables of the signed search are. -/
structure SignedAt (anc ad : BitVec bits) (p : ℕ) (s : SignedSearch bits) : Prop where
  p_eq : s.p = p
  q1_eq : s.q1 = BitVec.ofNat bits (2 ^ p / anc.toNat)
  r1_eq : s.r1.toNat = 2 ^ p % anc.toNat
  q2_eq : s.q2 = BitVec.ofNat bits (2 ^ p / ad.toNat)
  r2_eq : s.r2.toNat = 2 ^ p % ad.toNat

/-- The error of the reciprocal of `d` for a power of two. -/
def signedError (d p : ℕ) : ℕ := d - 2 ^ p % d

variable {d : ℕ}

theorem signedError_pos (hd : 0 < d) (p : ℕ) : 0 < signedError d p :=
  Nat.sub_pos_of_lt (mod_lt _ hd)

theorem signedError_le (d p : ℕ) : signedError d p ≤ d := sub_le _ _

section SignedLoop

variable (hanc : 0 < anc.toNat) (hanc_le : 2 * anc.toNat ≤ 2 ^ bits) (had : 0 < ad.toNat)
  (had_lt : 2 * ad.toNat < 2 ^ bits)

include hanc hanc_le had had_lt

variable {s : SignedSearch bits} {p : ℕ}

theorem SignedAt.round (h : SignedAt anc ad p s) :
    SignedAt anc ad (p + 1) (signedRound anc ad s) := by
  obtain ⟨hq1, hr1⟩ := double_spec hanc hanc_le h.q1_eq h.r1_eq
  obtain ⟨hq2, hr2⟩ := double_spec had had_lt.le h.q2_eq h.r2_eq
  rw [← pow_succ'] at hq1 hr1 hq2 hr2
  exact ⟨congrArg (· + 1) h.p_eq, hq1, hr1, hq2, hr2⟩

omit hanc_le had_lt in
/-- The condition of the loop, when the quotient fits into a word. -/
theorem SignedAt.continues_iff (h : SignedAt anc ad p s) (hfits : 2 ^ p / anc.toNat < 2 ^ bits) :
    (s.q1 < ad - s.r2 ∨ s.q1 = ad - s.r2 ∧ s.r1 = 0) ↔
      ¬ anc.toNat * signedError ad.toNat p < 2 ^ p := by
  have hq1 : s.q1.toNat = 2 ^ p / anc.toNat := by
    rw [h.q1_eq, toNat_ofNat, mod_eq_of_lt hfits]
  have hdelta : (ad - s.r2).toNat = signedError ad.toNat p := by
    rw [toNat_sub_of_le, h.r2_eq, signedError]
    rw [le_def, h.r2_eq]
    exact (mod_lt _ had).le
  rw [mul_lt_iff_div hanc, not_not, lt_def, ← toNat_inj,
    ← toNat_inj, hq1, hdelta, h.r1_eq]
  rfl

omit had in
theorem mul_signedError_lt :
    anc.toNat * signedError ad.toNat (2 * bits - 2) < 2 ^ (2 * bits - 2) := by
  have hbits : 0 < bits := by grind
  rw [two_pow_pred hbits] at hanc_le had_lt
  calc anc.toNat * signedError ad.toNat (2 * bits - 2)
    _ ≤ anc.toNat * ad.toNat := Nat.mul_le_mul_left _ (signedError_le _ _)
    _ < anc.toNat * 2 ^ (bits - 1) := Nat.mul_lt_mul_of_pos_left (by omega) hanc
    _ ≤ 2 ^ (bits - 1) * 2 ^ (bits - 1) := Nat.mul_le_mul_right _ (by omega)
    _ = 2 ^ (2 * bits - 2) := by rw [← pow_add]; congr 1; omega

omit hanc_le had in
theorem fits_of_continues (h : ¬ anc.toNat * signedError ad.toNat p < 2 ^ p) :
    2 ^ (p + 1) / anc.toNat < 2 ^ bits := by
  refine Nat.div_lt_of_lt_mul ?_
  calc 2 ^ (p + 1) = 2 * 2 ^ p := pow_succ' 2 p
    _ ≤ 2 * (anc.toNat * signedError ad.toNat p) := Nat.mul_le_mul_left 2 (not_lt.mp h)
    _ ≤ 2 * (anc.toNat * ad.toNat) :=
      Nat.mul_le_mul_left 2 (Nat.mul_le_mul_left _ (signedError_le _ _))
    _ = anc.toNat * (2 * ad.toNat) := by ring
    _ < anc.toNat * 2 ^ bits := Nat.mul_lt_mul_of_pos_left had_lt hanc

/-- **The signed search ends** at the least power whose error is small. -/
theorem signedLoop_spec (rounds : ℕ) : ∀ (p : ℕ) (s : SignedSearch bits), SignedAt anc ad p s →
    2 ^ (p + 1) / anc.toNat < 2 ^ bits → p < 2 * bits - 2 → 2 * bits - 2 ≤ p + rounds →
      ∃ p' s', signedLoop anc ad rounds s = some s' ∧ SignedAt anc ad p' s' ∧ p < p' ∧
        p' ≤ 2 * bits - 2 ∧ anc.toNat * signedError ad.toNat p' < 2 ^ p' ∧
        (p' = p + 1 ∨ ¬ anc.toNat * signedError ad.toNat (p' - 1) < 2 ^ (p' - 1)) := by
  induction rounds with
  | zero => exact fun p s _ _ hlt hle => absurd hle (by omega)
  | succ rounds ih =>
    intro p s hs hfits hlt hle
    have hs' := hs.round hanc hanc_le had had_lt
    have hcontinues := hs'.continues_iff hanc had hfits
    by_cases hstop : anc.toNat * signedError ad.toNat (p + 1) < 2 ^ (p + 1)
    · refine ⟨p + 1, _, if_neg fun h => (hcontinues.mp h) hstop, hs', by omega, by omega, hstop,
        .inl rfl⟩
    · have hnext : p + 1 < 2 * bits - 2 := by
        by_contra hge
        have heq : p + 1 = 2 * bits - 2 := by omega
        exact hstop (heq ▸ mul_signedError_lt hanc hanc_le had_lt)
      obtain ⟨p', s', hloop, hat, hp, hp', hstop', hleast⟩ :=
        ih (p + 1) _ hs' (fits_of_continues hanc had_lt hstop) hnext (by omega)
      refine ⟨p', s', (if_pos (hcontinues.mpr hstop)).trans hloop, hat, by omega, hp', hstop', ?_⟩
      rcases hleast with rfl | hleast
      · exact .inr hstop
      · exact .inr hleast

end SignedLoop

/-! ## The signed reciprocal -/

/-- The reciprocal of `d` for a power of two. -/
def signedReciprocal (d p : ℕ) : ℕ := 2 ^ p / d + 1

theorem signedReciprocal_mul (hd : 0 < d) (p : ℕ) :
    signedReciprocal d p * d = 2 ^ p + signedError d p := by
  have hdiv := div_add_mod (2 ^ p) d
  have hmod := mod_lt (2 ^ p) hd
  rw [signedReciprocal, signedError, add_mul, one_mul, mul_comm]
  omega

/-- With one more power, the reciprocal doubles, or almost so. -/
theorem signedReciprocal_succ_le (hd : 0 < d) (p : ℕ) :
    signedReciprocal d (p + 1) ≤ 2 * signedReciprocal d p ∧
      (signedError d p = d → signedReciprocal d (p + 1) + 1 = 2 * signedReciprocal d p) := by
  have hdiv := (double_divMod (2 ^ p) (Nat.zero_le 1) hd).1
  rw [add_zero, add_zero, ← pow_succ'] at hdiv
  unfold signedReciprocal signedError
  rw [hdiv]
  split <;> omega

/-- **The reciprocal fits into a word** at the end of the search. -/
theorem signedReciprocal_lt {d nc t p : ℕ} (hd : 2 ≤ d) (hlt : d < t) (ht : Even t)
    (hdvd : d ∣ nc + 1) (hnc : nc ≤ t)
    (hlarge : ¬ nc * signedError d p < 2 ^ p) : signedReciprocal d (p + 1) < 2 * t := by
  have hpos : 0 < d := by omega
  obtain ⟨k, hk⟩ := hdvd
  have hle := reciprocal_le (signedReciprocal_mul hpos p) (not_lt.mp hlarge)
  have hm : signedReciprocal d p ≤ k * signedError d p := by
    refine Nat.le_of_mul_le_mul_right ?_ hpos
    calc signedReciprocal d p * d ≤ (nc + 1) * signedError d p := hle
      _ = k * signedError d p * d := by rw [hk]; ring
  obtain ⟨hdouble, hexact⟩ := signedReciprocal_succ_le hpos p
  rcases (signedError_le d p).lt_or_eq with herror | herror
  · have hbound : k * signedError d p + k ≤ nc + 1 := by
      calc k * signedError d p + k = k * (signedError d p + 1) := by ring
        _ ≤ k * d := Nat.mul_le_mul_left k herror
        _ = nc + 1 := by rw [hk, mul_comm]
    have hk₀ : k ≠ 0 := by grind
    have hk₁ : k = 1 → nc + 1 = d := by grind
    omega
  · -- then `d` divides a power of two, and no odd number
    have hpow : d ∣ 2 ^ p := by
      unfold signedError at herror
      omega
    have hne : nc ≠ t := by
      rintro rfl
      have hcoprime : Nat.Coprime (2 ^ p) (nc + 1) :=
        Nat.Coprime.pow_left p (Nat.coprime_two_left.mpr ht.add_one)
      have := eq_one_of_dvd_coprimes hcoprime hpow ⟨k, hk⟩
      omega
    have hmul : k * signedError d p = nc + 1 := by rw [herror, hk, mul_comm]
    omega

/-- A quotient and a remainder in words. -/
theorem divMod_word (x n : BitVec bits) : x / n = BitVec.ofNat bits (x.toNat / n.toNat) ∧
      (x - x / n * n).toNat = x.toNat % n.toNat := by
  have hdiv : (x / n).toNat = x.toNat / n.toNat := toNat_udiv
  have hmul : (x / n * n).toNat = x.toNat / n.toNat * n.toNat := by
    rw [toNat_mul, hdiv, mod_eq_of_lt]
    exact (div_mul_le_self _ _).trans_lt x.isLt
  refine ⟨?_, ?_⟩
  · rw [← hdiv, ofNat_toNat, setWidth_eq]
  · rw [toNat_sub_of_le, hmul]
    · have := div_add_mod x.toNat n.toNat
      rw [mul_comm] at this
      omega
    · rw [le_def, hmul]
      exact div_mul_le_self _ _

theorem toNat_ite_msb (d : BitVec bits) :
    (if d.msb = true then 0 - d else d).toNat = d.toInt.natAbs := by
  have hint := toInt_eq_msb_cond d
  split
  · next h =>
    rw [if_pos h] at hint
    have hzero : (0 : BitVec bits) - d = -d := BitVec.zero_sub d
    have hpos : d.toNat ≠ 0 := by grind
    rw [hzero, toNat_neg, mod_eq_of_lt (by omega)]
    omega
  · next h =>
    rw [if_neg h] at hint
    omega

/-- The critical dividend, in words. -/
theorem toNat_critical {t ad : BitVec bits} (hbits : 0 < bits) (ht : 0 < t.toNat)
    (had : ad.toNat ≤ t.toNat)
    (hpos : 0 < ad.toNat) : (t - 1 - t % ad).toNat + 1 = ad.toNat * (t.toNat / ad.toNat) := by
  have hdiv := div_add_mod t.toNat ad.toNat
  have hmod := mod_lt t.toNat hpos
  have hsub : (t - 1).toNat = t.toNat - 1 := by
    rw [toNat_sub_of_le, toNat_one hbits]
    rw [le_def, toNat_one hbits]
    exact ht
  rw [toNat_sub_of_le, hsub, toNat_umod]
  · omega
  · rw [le_def, hsub, toNat_umod]
    omega

/-- What `SignedDivisionByConstant` finds for a divisor of absolute value `D`:
the reciprocal for a power of two with an error that is small for a critical
dividend `nc`. -/
structure SignedMagic (d : BitVec bits) (D p nc : ℕ) : Prop where
  eq : signedDivisionByConstant d = some ⟨if d.msb then 0 - BitVec.ofNat bits (signedReciprocal D p)
    else BitVec.ofNat bits (signedReciprocal D p), p - bits, false⟩
  le_p : bits ≤ p
  p_le : p ≤ 2 * bits - 2
  lt : signedReciprocal D p < 2 ^ bits
  error : nc * signedError D p < 2 ^ p
  dvd : D ∣ nc + 1
  le_nc : D ≤ nc + 1
  critical : 2 ^ (bits - 1) + d.msb.toNat < nc + 1 + D

/-- **`SignedDivisionByConstant` ends.** -/
theorem signedDivisionByConstant_spec (hbits : 3 ≤ bits) {d : BitVec bits} (hd : 2 ≤ d.toInt.natAbs)
    (hlt : d.toInt.natAbs < 2 ^ (bits - 1)) : ∃ p nc, SignedMagic d d.toInt.natAbs p nc := by
  have hpos : 0 < bits := by omega
  have hword := two_pow_pred hpos
  have hfour : 2 ^ 2 ≤ 2 ^ (bits - 1) := Nat.pow_le_pow_right Nat.two_pos (by omega)
  set D := d.toInt.natAbs with hD
  set min := (1 : BitVec bits) <<< (bits - 1) with hmin
  set ad := if min &&& d ≠ 0 then 0 - d else d with had
  set t := min + (d >>> (bits - 1)) with ht
  set anc := t - 1 - t % ad with hanc
  have hmin_nat : min.toNat = 2 ^ (bits - 1) := toNat_one_shiftLeft hpos
  have hmsb : (min &&& d ≠ 0) ↔ d.msb = true := one_shiftLeft_and_ne_zero hpos d
  have had_nat : ad.toNat = D := by
    rw [had, hD, ← toNat_ite_msb d]
    simp only [hmsb]
  have hbit : d.msb.toNat ≤ 1 := Bool.toNat_le d.msb
  have ht_nat : t.toNat = 2 ^ (bits - 1) + d.msb.toNat := by
    rw [ht, toNat_add, hmin_nat, toNat_shiftRight_msb hpos, mod_eq_of_lt (by omega)]
  have hanc_nat : anc.toNat + 1 = D * (t.toNat / D) := by
    have := toNat_critical hpos (by omega : 0 < t.toNat) (by omega : ad.toNat ≤ t.toNat) (by omega)
    rwa [had_nat] at this
  have hdiv := div_add_mod t.toNat D
  have hmod := mod_lt t.toNat (by omega : 0 < D)
  have hle_nc : D * 1 ≤ D * (t.toNat / D) :=
    Nat.mul_le_mul_left D (Nat.div_pos (by omega) (by omega))
  -- the variables before the first round
  obtain ⟨hq1, hr1⟩ := divMod_word min anc
  obtain ⟨hq2, hr2⟩ := divMod_word min ad
  rw [hmin_nat] at hq1 hr1 hq2 hr2
  obtain ⟨p, s, hloop, hs, hp, hp', hstop, hleast⟩ := signedLoop_spec
    (by omega) (by omega) (by omega) (by omega) bits (bits - 1)
    ⟨bits - 1, min / anc, min - min / anc * anc, min / ad, min - min / ad * ad⟩
    ⟨rfl, hq1, hr1, hq2, hr2⟩
    (by
      rw [Nat.sub_add_cancel hpos]
      exact Nat.div_lt_self (Nat.two_pow_pos bits) (by omega))
    (by omega) (by omega)
  rw [had_nat] at hstop hleast
  refine ⟨p, anc.toNat, ?_, by omega, hp', ?_, hstop, ⟨_, hanc_nat⟩, by omega, by omega⟩
  · have hmul : s.q2 + 1 = BitVec.ofNat bits (signedReciprocal D p) := by
      rw [hs.q2_eq, had_nat, signedReciprocal, ofNat_add]
      rfl
    show (signedLoop anc ad bits _).map _ = _
    rw [hloop, Option.map_some, hmul, hs.p_eq]
    simp only [one_shiftLeft_and_ne_zero hpos d]
  · rcases hleast with rfl | hlarge
    · rw [Nat.sub_add_cancel hpos, signedReciprocal, hword]
      have := div_le_div_left hd Nat.two_pos (a := 2 * 2 ^ (bits - 1))
      omega
    · obtain ⟨p, rfl⟩ := exists_eq_succ_of_ne_zero (by omega : p ≠ 0)
      rw [hword]
      refine signedReciprocal_lt hd hlt ?_ ⟨_, hanc_nat⟩ (by omega) hlarge
      exact (Nat.even_pow.mpr ⟨even_two, by omega⟩)

section Quotient

variable {d : BitVec bits} {D p nc : ℕ} (h : SignedMagic d D p nc) (hD : 0 < D)

include h hD

/-- The error is small for the dividends that are not negative. -/
theorem SignedMagic.error_lt {k : ℕ} (hk : k < 2 ^ (bits - 1)) :
    k * signedError D p < (D - k % D) * 2 ^ p := by
  have hcritical := h.critical
  have hle := h.le_nc
  refine Reciprocal.error_lt hD (fun hr => ?_) (by omega) h.error
  have := le_of_mod_add_one hr h.dvd (by omega)
  omega

/-- It is small enough for the negative dividends too. The least dividend may
be just before a multiple of the divisor; then the divisor divides a power of
two and one. -/
theorem SignedMagic.error_le (hbits : 0 < bits) {k : ℕ} (hk : k ≤ 2 ^ (bits - 1)) :
    k * signedError D p ≤ (D - k % D) * 2 ^ p := by
  have hcritical := h.critical
  have hle := h.le_nc
  have hp := h.le_p
  rcases hk.lt_or_eq with hlt | rfl
  · exact (h.error_lt hD hlt).le
  by_cases hlast : 2 ^ (bits - 1) % D + 1 = D
  · have hdvd : D ∣ 2 ^ (bits - 1) + 1 := by
      refine ⟨2 ^ (bits - 1) / D + 1, ?_⟩
      have := div_add_mod (2 ^ (bits - 1)) D
      rw [mul_add, mul_one]
      omega
    have hpower : 2 ^ p = 2 ^ (bits - 1) * 2 ^ (p - (bits - 1)) := by
      rw [← pow_add, Nat.add_sub_cancel' (by omega)]
    have hmul := signedReciprocal_mul hD p
    rw [hpower] at hmul
    have herror : signedError D p ≤ 2 ^ (p - (bits - 1)) :=
      error_le_of_dvd_succ hmul (signedError_le D p) (Nat.two_pow_pos _) hdvd
    calc 2 ^ (bits - 1) * signedError D p ≤ 2 ^ p := by
          rw [hpower]
          exact Nat.mul_le_mul_left _ herror
      _ = (D - 2 ^ (bits - 1) % D) * 2 ^ p := by
          rw [show D - 2 ^ (bits - 1) % D = 1 by omega, one_mul]
  · refine (Reciprocal.error_lt hD (fun hr => absurd hr hlast) ?_ h.error).le
    have hne : 2 ^ (bits - 1) ≠ nc + D := by
      intro heq
      obtain ⟨j, hj⟩ := h.dvd
      have hlast' : 2 ^ (bits - 1) = D - 1 + D * j := by omega
      rw [hlast', add_mul_mod_self_left, mod_eq_of_lt (by omega)] at hlast
      omega
    omega

/-- **The quotient of a signed division.** -/
theorem SignedMagic.mul_div_add (hbits : 0 < bits) {x : ℤ} (hx : -2 ^ (bits - 1) ≤ x)
    (hx' : x < 2 ^ (bits - 1)) :
    x * signedReciprocal D p / 2 ^ p + (if x < 0 then 1 else 0) = x.tdiv D := by
  have hm := signedReciprocal_mul hD p
  by_cases hneg : x < 0
  · obtain ⟨k, rfl⟩ : ∃ k : ℕ, x = -k := ⟨x.natAbs, by omega⟩
    have hk : k ≤ 2 ^ (bits - 1) := by exact_mod_cast neg_le_neg_iff.mp hx
    have hpow : (0 : ℤ) < 2 ^ p := by positivity
    -- the product lies between the two multiples of the power around it
    have hlt : ((k / D : ℕ) : ℤ) * 2 ^ p < k * signedReciprocal D p := by
      exact_mod_cast div_mul_lt hm (signedError_pos hD p) (by omega)
    have hle : (k * signedReciprocal D p : ℤ) ≤ ((k / D : ℕ) + 1) * 2 ^ p := by
      exact_mod_cast mul_le_succ_div_mul hD hm (h.error_le hD hbits hk)
    have hdiv : -(k : ℤ) * signedReciprocal D p / 2 ^ p = -((k / D : ℕ) + 1) := by
      refine le_antisymm (Int.le_of_lt_add_one ?_) ?_
      · rw [Int.ediv_lt_iff_lt_mul hpow]
        linarith
      · rw [Int.le_ediv_iff_mul_le hpow]
        linarith
    rw [if_pos hneg, hdiv, Int.neg_tdiv, ← Int.ofNat_tdiv]
    ring
  · obtain ⟨k, rfl⟩ := Int.eq_ofNat_of_zero_le (not_lt.mp hneg)
    have hk : k < 2 ^ (bits - 1) := by exact_mod_cast hx'
    rw [if_neg hneg, add_zero, ← Int.ofNat_tdiv]
    exact_mod_cast mul_div_eq_div hD hm (h.error_lt hD hk)

/-- With the negated reciprocal, the same correction misses the quotient. -/
theorem SignedMagic.neg_mul_div_add (hbits : 2 ≤ bits) {x : ℤ} (hx : -2 ^ (bits - 1) ≤ x)
    (hx' : x < 2 ^ (bits - 1)) (hne : x ≠ 0) :
    0 < |x * -(signedReciprocal D p : ℤ) / 2 ^ p + (if x < 0 then 1 else 0) - -x.tdiv D| ∧
      |x * -(signedReciprocal D p : ℤ) / 2 ^ p + (if x < 0 then 1 else 0) - -x.tdiv D|
        < 2 ^ bits := by
  have hm := signedReciprocal_mul hD p
  have hle : signedReciprocal D p ≤ 2 ^ p :=
    h.lt.le.trans (Nat.pow_le_pow_right Nat.two_pos h.le_p)
  have hpow : (0 : ℤ) < 2 ^ p := by positivity
  have hword : (2 ^ bits : ℤ) = 2 * 2 ^ (bits - 1) := by
    exact_mod_cast two_pow_pred (by omega : 0 < bits)
  have htwo : (2 : ℤ) ^ 1 ≤ 2 ^ (bits - 1) := pow_le_pow_right₀ (by norm_num) (by omega)
  rcases lt_or_gt_of_ne hne with hneg | hpos
  · obtain ⟨k, rfl⟩ : ∃ k : ℕ, x = -k := ⟨x.natAbs, by omega⟩
    have hlow : k / D ≤ k * signedReciprocal D p / 2 ^ p :=
      (Nat.le_div_iff_mul_le (Nat.two_pow_pos p)).mpr (div_mul_le hD hm)
    have hhigh : k * signedReciprocal D p / 2 ^ p ≤ k := by
      refine Nat.div_le_of_le_mul ?_
      rw [mul_comm]
      exact Nat.mul_le_mul_right k hle
    rw [if_pos hneg, neg_mul_neg, Int.neg_tdiv, neg_neg, ← Int.ofNat_tdiv]
    have hcast : (k * signedReciprocal D p / 2 ^ p : ℤ) =
        ((k * signedReciprocal D p / 2 ^ p : ℕ) : ℤ) := by push_cast; rfl
    have hnonneg : (0 : ℤ) ≤ (k / D : ℕ) := Int.natCast_nonneg _
    rw [hcast, abs_of_pos (by omega)]
    omega
  · obtain ⟨k, rfl⟩ : ∃ k : ℕ, x = k := ⟨x.natAbs, by omega⟩
    have hlow : ((k / D : ℕ) : ℤ) * 2 ^ p < k * signedReciprocal D p := by
      exact_mod_cast div_mul_lt hm (signedError_pos hD p) (by omega)
    have hhigh : (k * signedReciprocal D p : ℤ) ≤ k * 2 ^ p := by
      exact_mod_cast Nat.mul_le_mul_left k hle
    have hdiv : (k : ℤ) * -(signedReciprocal D p : ℤ) / 2 ^ p < -((k / D : ℕ) : ℤ) := by
      rw [Int.ediv_lt_iff_lt_mul hpow]
      linarith
    have hdiv' : -(k : ℤ) ≤ k * -(signedReciprocal D p : ℤ) / 2 ^ p := by
      rw [Int.le_ediv_iff_mul_le hpow]
      linarith
    have hnonneg : (0 : ℤ) ≤ (k / D : ℕ) := Int.natCast_nonneg _
    rw [if_neg (not_lt.mpr hpos.le), add_zero, ← Int.ofNat_tdiv, abs_of_neg (by omega)]
    omega

end Quotient

/-! ## The unsigned search -/

section Digit

variable {n q r : BitVec bits} {x b : ℕ} (hb : b ≤ 1) (hn : 0 < n.toNat)
  (hq : q = BitVec.ofNat bits (x / n.toNat)) (hr : r.toNat = x % n.toNat)

include hb hn hr

/-- The test for the next digit of a quotient, which avoids an overflow. -/
theorem digit_iff : r + BitVec.ofNat bits b ≥ n - r ↔ n.toNat ≤ 2 * (x % n.toNat) + b := by
  have hlt := mod_lt x hn
  rw [ge_iff_le, le_def, toNat_sub_of_le (by rw [le_def]; omega),
    toNat_add, toNat_ofNat, add_mod_mod, mod_eq_of_lt (by omega), hr]
  omega

include hq

theorem digit_one (h : n.toNat ≤ 2 * (x % n.toNat) + b) :
    2 * q + 1 = BitVec.ofNat bits ((2 * x + b) / n.toNat) ∧
      (2 * r + BitVec.ofNat bits b - n).toNat = (2 * x + b) % n.toNat := by
  obtain ⟨hdiv, hmod⟩ := double_divMod x hb hn
  rw [if_pos h] at hdiv hmod
  refine ⟨?_, ?_⟩
  · rw [hdiv, hq, ofNat_add, ofNat_mul]
    rfl
  · have hword : 2 * r + BitVec.ofNat bits b - n = BitVec.ofNat bits ((2 * x + b) % n.toNat) := by
      have hr_eq : r = BitVec.ofNat bits (x % n.toNat) := by grind
      have hn_eq : BitVec.ofNat bits n.toNat = n := by rw [ofNat_toNat, setWidth_eq]
      rw [BitVec.sub_eq_iff_eq_add, hmod]
      calc 2 * r + BitVec.ofNat bits b
        _ = BitVec.ofNat bits (2 * (x % n.toNat) + b) := by
          rw [hr_eq, ofNat_add, ofNat_mul]
          rfl
        _ = BitVec.ofNat bits (2 * (x % n.toNat) + b - n.toNat) + n := by
          conv_lhs => rw [← Nat.sub_add_cancel h, ofNat_add, hn_eq]
    rw [hword, toNat_ofNat, mod_eq_of_lt]
    exact (mod_lt _ hn).trans n.isLt

theorem digit_zero (h : ¬ n.toNat ≤ 2 * (x % n.toNat) + b) :
    2 * q = BitVec.ofNat bits ((2 * x + b) / n.toNat) ∧
      (2 * r + BitVec.ofNat bits b).toNat = (2 * x + b) % n.toNat := by
  obtain ⟨hdiv, hmod⟩ := double_divMod x hb hn
  rw [if_neg h] at hdiv hmod
  refine ⟨?_, ?_⟩
  · rw [hdiv, hq, ofNat_mul]
    rfl
  · rw [toNat_add, toNat_two_mul, toNat_ofNat, ← add_mod, hr, hmod,
      mod_eq_of_lt (by omega)]

end Digit

/-- The reciprocal of `d` for a power of two. -/
def unsignedReciprocal (d p : ℕ) : ℕ := (2 ^ p - 1) / d + 1

/-- The error of the reciprocal. -/
def unsignedError (d p : ℕ) : ℕ := d - 1 - (2 ^ p - 1) % d

theorem unsignedReciprocal_mul (hd : 0 < d) (p : ℕ) :
    unsignedReciprocal d p * d = 2 ^ p + unsignedError d p := by
  have hdiv := div_add_mod (2 ^ p - 1) d
  have hmod := mod_lt (2 ^ p - 1) hd
  have hpow := Nat.two_pow_pos p
  rw [unsignedReciprocal, unsignedError, add_mul, one_mul, mul_comm]
  omega

theorem two_pow_succ_sub_one (p : ℕ) : 2 ^ (p + 1) - 1 = 2 * (2 ^ p - 1) + 1 := by
  have hpow := Nat.two_pow_pos p
  omega

/-- What the variables of the unsigned search are. -/
structure UnsignedAt (nc d : BitVec bits) (p : ℕ) (s : UnsignedSearch bits) : Prop where
  p_eq : s.p = p
  q1_eq : s.q1 = BitVec.ofNat bits (2 ^ p / nc.toNat)
  r1_eq : s.r1.toNat = 2 ^ p % nc.toNat
  q2_eq : s.q2 = BitVec.ofNat bits ((2 ^ p - 1) / d.toNat)
  r2_eq : s.r2.toNat = (2 ^ p - 1) % d.toNat
  a_iff : s.a = true ↔ 2 ^ bits ≤ unsignedReciprocal d.toNat p

section UnsignedLoop

variable {min max nc d : BitVec bits} (hbits : 0 < bits) (hmin : min.toNat = 2 ^ (bits - 1))
  (hmax : max.toNat = 2 ^ (bits - 1) - 1) (hnc : 0 < nc.toNat) (hd : 0 < d.toNat)

include hbits hmin hmax hnc hd

variable {s : UnsignedSearch bits} {p : ℕ}

omit hnc in
theorem UnsignedAt.add_iff (h : UnsignedAt nc d p s) :
    (s.r2 + 1 ≥ d - s.r2 → ((s.a || decide (s.q2 ≥ max)) = true ↔
        2 ^ bits ≤ unsignedReciprocal d.toNat (p + 1))) ∧
      (¬ s.r2 + 1 ≥ d - s.r2 → ((s.a || decide (s.q2 ≥ min)) = true ↔
        2 ^ bits ≤ unsignedReciprocal d.toNat (p + 1))) := by
  have hiff : s.r2 + 1 ≥ d - s.r2 ↔ d.toNat ≤ 2 * ((2 ^ p - 1) % d.toNat) + 1 :=
    digit_iff le_rfl hd h.r2_eq
  have hdiv := (double_divMod (2 ^ p - 1) le_rfl hd).1
  have hword := two_pow_pred hbits
  have ha := h.a_iff
  unfold unsignedReciprocal at ha ⊢
  rw [two_pow_succ_sub_one, hdiv, hiff]
  by_cases hover : 2 ^ bits ≤ (2 ^ p - 1) / d.toNat + 1
  · grind
  · have hq2 : s.q2.toNat = (2 ^ p - 1) / d.toNat := by
      rw [h.q2_eq, toNat_ofNat, mod_eq_of_lt (by omega)]
    simp only [ge_iff_le, le_def, hq2, hmin, hmax]
    constructor <;> intro hdigit
    · grind
    · grind

/-- **A round of the unsigned search.** -/
theorem UnsignedAt.round (h : UnsignedAt nc d p s) :
    UnsignedAt nc d (p + 1) (unsignedRound min max nc d s) := by
  obtain ⟨hadd₁, hadd₀⟩ := h.add_iff hbits hmin hmax hd
  -- the quotient by the critical dividend
  obtain ⟨q1, r1, hfirst, hq1, hr1⟩ : ∃ q1 r1, (if s.r1 ≥ nc - s.r1 then
        { s with p := s.p + 1, q1 := 2 * s.q1 + 1, r1 := 2 * s.r1 - nc }
      else { s with p := s.p + 1, q1 := 2 * s.q1, r1 := 2 * s.r1 }) =
        { s with p := s.p + 1, q1 := q1, r1 := r1 } ∧
      q1 = BitVec.ofNat bits (2 ^ (p + 1) / nc.toNat) ∧ r1.toNat = 2 ^ (p + 1) % nc.toNat := by
    have hiff := digit_iff (Nat.zero_le 1) hnc h.r1_eq
    rw [BitVec.add_zero] at hiff
    rw [pow_succ']
    by_cases hdigit : s.r1 ≥ nc - s.r1
    · obtain ⟨hq, hr⟩ := digit_one (Nat.zero_le 1) hnc h.q1_eq h.r1_eq (hiff.mp hdigit)
      rw [BitVec.add_zero] at hr
      exact ⟨_, _, if_pos hdigit, hq, hr⟩
    · obtain ⟨hq, hr⟩ := digit_zero (Nat.zero_le 1) hnc h.q1_eq h.r1_eq (mt hiff.mpr hdigit)
      rw [BitVec.add_zero] at hr
      exact ⟨_, _, if_neg hdigit, hq, hr⟩
  have hiff : s.r2 + 1 ≥ d - s.r2 ↔ d.toNat ≤ 2 * ((2 ^ p - 1) % d.toNat) + 1 :=
    digit_iff le_rfl hd h.r2_eq
  simp only [unsignedRound, hfirst]
  split
  · next hdigit =>
    obtain ⟨hq, hr⟩ := digit_one le_rfl hd h.q2_eq h.r2_eq (hiff.mp hdigit)
    rw [← two_pow_succ_sub_one] at hq hr
    exact ⟨congrArg (· + 1) h.p_eq, hq1, hr1, hq, hr, hadd₁ hdigit⟩
  · next hdigit =>
    obtain ⟨hq, hr⟩ := digit_zero le_rfl hd h.q2_eq h.r2_eq (mt hiff.mpr hdigit)
    rw [← two_pow_succ_sub_one] at hq hr
    exact ⟨congrArg (· + 1) h.p_eq, hq1, hr1, hq, hr, hadd₀ hdigit⟩

omit hmin hmax in
/-- The condition of the loop, when the quotient fits into a word. -/
theorem UnsignedAt.continues_iff (h : UnsignedAt nc d p s) (hfits : 2 ^ p / nc.toNat < 2 ^ bits) :
    (s.q1 < d - 1 - s.r2 ∨ s.q1 = d - 1 - s.r2 ∧ s.r1 = 0) ↔
      ¬ nc.toNat * unsignedError d.toNat p < 2 ^ p := by
  have hmod := mod_lt (2 ^ p - 1) hd
  have hq1 : s.q1.toNat = 2 ^ p / nc.toNat := by
    rw [h.q1_eq, toNat_ofNat, mod_eq_of_lt hfits]
  have hpred : (d - 1).toNat = d.toNat - 1 := by
    rw [toNat_sub_of_le, toNat_one hbits]
    rw [le_def, toNat_one hbits]
    exact hd
  have hdelta : (d - 1 - s.r2).toNat = unsignedError d.toNat p := by
    rw [toNat_sub_of_le, hpred, h.r2_eq, unsignedError]
    rw [le_def, hpred, h.r2_eq]
    omega
  rw [mul_lt_iff_div hnc, not_not, lt_def, ← toNat_inj,
    ← toNat_inj, hq1, hdelta, h.r1_eq]
  rfl

omit hbits hmin hmax hnc in
theorem unsignedError_lt (p : ℕ) : unsignedError d.toNat p < d.toNat := by
  unfold unsignedError
  omega

omit hbits hmin hmax in
theorem unsigned_fits_of_continues (hsize : 2 ^ (bits - 1) < nc.toNat ∨ 2 * d.toNat ≤ 2 ^ bits)
    (h : ¬ nc.toNat * unsignedError d.toNat p < 2 ^ p) (hp : p + 1 < 2 * bits) :
    2 ^ (p + 1) / nc.toNat < 2 ^ bits := by
  refine Nat.div_lt_of_lt_mul ?_
  rcases hsize with hlarge | hsmall
  · calc 2 ^ (p + 1) ≤ 2 ^ (bits - 1 + bits) := Nat.pow_le_pow_right Nat.two_pos (by omega)
      _ = 2 ^ (bits - 1) * 2 ^ bits := pow_add ..
      _ < nc.toNat * 2 ^ bits := Nat.mul_lt_mul_of_pos_right hlarge (Nat.two_pow_pos bits)
  · calc 2 ^ (p + 1) = 2 * 2 ^ p := pow_succ' 2 p
      _ ≤ 2 * (nc.toNat * unsignedError d.toNat p) := Nat.mul_le_mul_left 2 (not_lt.mp h)
      _ < 2 * (nc.toNat * d.toNat) :=
        Nat.mul_lt_mul_of_pos_left (Nat.mul_lt_mul_of_pos_left (unsignedError_lt hd p) hnc)
          Nat.two_pos
      _ = nc.toNat * (2 * d.toNat) := by ring
      _ ≤ nc.toNat * 2 ^ bits := Nat.mul_le_mul_left _ hsmall

/-- **The unsigned search ends** at the least power whose error is small. -/
theorem unsignedLoop_spec (hsize : 2 ^ (bits - 1) < nc.toNat ∨ 2 * d.toNat ≤ 2 ^ bits)
    (rounds : ℕ) : ∀ (p : ℕ) (s : UnsignedSearch bits), UnsignedAt nc d p s →
    (p + 1 < 2 * bits → 2 ^ (p + 1) / nc.toNat < 2 ^ bits) → p < 2 * bits → 2 * bits ≤ p + rounds →
      ∃ p' s', unsignedLoop min max nc d rounds s = some s' ∧ UnsignedAt nc d p' s' ∧ p < p' ∧
        p' ≤ 2 * bits ∧ nc.toNat * unsignedError d.toNat p' < 2 ^ p' ∧
        (p' = p + 1 ∨ ¬ nc.toNat * unsignedError d.toNat (p' - 1) < 2 ^ (p' - 1)) := by
  induction rounds with
  | zero => exact fun p s _ _ hlt hle => absurd hle (by omega)
  | succ rounds ih =>
    intro p s hs hfits hlt hle
    have hs' := hs.round hbits hmin hmax hnc hd
    have hp := hs'.p_eq
    by_cases hlast : p + 1 < 2 * bits
    · have hcontinues := hs'.continues_iff hbits hnc hd (hfits hlast)
      by_cases hstop : nc.toNat * unsignedError d.toNat (p + 1) < 2 ^ (p + 1)
      · exact ⟨p + 1, _, if_neg fun h => hcontinues.mp h.2 hstop, hs', by omega, by omega, hstop,
          .inl rfl⟩
      · obtain ⟨p', s', hloop, hat, hlt', hle', hstop', hleast⟩ :=
          ih (p + 1) _ hs' (unsigned_fits_of_continues hnc hd hsize hstop) hlast (by omega)
        refine ⟨p', s', (if_pos ⟨by omega, hcontinues.mpr hstop⟩).trans hloop, hat, by omega, hle',
          hstop', ?_⟩
        rcases hleast with rfl | hleast
        · exact .inr hstop
        · exact .inr hleast
    · refine ⟨p + 1, _, if_neg fun h => hlast (by omega), hs', by omega, by omega, ?_, .inl rfl⟩
      calc nc.toNat * unsignedError d.toNat (p + 1)
        _ < 2 ^ bits * 2 ^ bits :=
          Nat.mul_lt_mul'' nc.isLt ((unsignedError_lt hd _).trans d.isLt)
        _ = 2 ^ (p + 1) := by rw [← pow_add]; congr 1; omega

end UnsignedLoop

/-! ## The unsigned reciprocal -/

theorem unsignedReciprocal_succ_le (hd : 0 < d) (p : ℕ) :
    unsignedReciprocal d (p + 1) ≤ 2 * unsignedReciprocal d p := by
  have hdiv := (double_divMod (2 ^ p - 1) le_rfl hd).1
  unfold unsignedReciprocal
  rw [two_pow_succ_sub_one, hdiv]
  split <;> omega

/-- **The reciprocal has at most one bit more than a word** at the end of the
search. -/
theorem unsignedReciprocal_lt {d nc p : ℕ} (hd : 0 < d) (hnc : 0 < nc) (hdvd : d ∣ nc)
    (hlarge : ¬ nc * unsignedError d p < 2 ^ p) : unsignedReciprocal d (p + 1) < 2 * nc := by
  obtain ⟨k, rfl⟩ := hdvd
  have hle := reciprocal_le (unsignedReciprocal_mul hd p) (not_lt.mp hlarge)
  have herror : unsignedError d p + 1 ≤ d := by
    unfold unsignedError
    omega
  have hk : 0 < k := Nat.pos_of_mul_pos_left hnc
  have hm : unsignedReciprocal d p < k * d := by
    refine Nat.lt_of_mul_lt_mul_right (a := d) ?_
    calc unsignedReciprocal d p * d ≤ (d * k + 1) * unsignedError d p := hle
      _ = k * d * unsignedError d p + unsignedError d p := by ring
      _ < k * d * unsignedError d p + k * d := by
        have : d ≤ k * d := Nat.le_mul_of_pos_left d hk
        omega
      _ = k * d * (unsignedError d p + 1) := by ring
      _ ≤ k * d * d := Nat.mul_le_mul_left _ herror
  have := unsignedReciprocal_succ_le hd p
  rw [mul_comm d k]
  omega

/-- What `UnsignedDivisionByConstant` finds for dividends up to `ones`. -/
structure UnsignedMagic (d : BitVec bits) (leadingZeros p nc : ℕ) : Prop where
  eq : unsignedDivisionByConstant d leadingZeros =
    some ⟨BitVec.ofNat bits (unsignedReciprocal d.toNat p), p - bits,
      decide (2 ^ bits ≤ unsignedReciprocal d.toNat p)⟩
  le_p : bits ≤ p
  p_le : p ≤ 2 * bits
  lt : unsignedReciprocal d.toNat p < 2 * 2 ^ bits
  add : 2 ^ bits ≤ unsignedReciprocal d.toNat p → bits < p
  small : unsignedReciprocal d.toNat p < 2 ^ bits → p < 2 * bits
  error : nc * unsignedError d.toNat p < 2 ^ p
  dvd : d.toNat ∣ nc
  le_nc : d.toNat ≤ nc
  critical : 2 ^ (bits - leadingZeros) - 1 < nc + d.toNat

theorem toNat_ones_shiftRight {k : ℕ} (hk : k ≤ bits) :
    (~~~(0 : BitVec bits) >>> k).toNat = 2 ^ (bits - k) - 1 := by
  have hzero : (~~~(0 : BitVec bits)).toNat = 2 ^ bits - 1 := by simp
  rw [toNat_ushiftRight, hzero, shiftRight_eq_div_pow]
  have hsplit : 2 ^ bits = 2 ^ (bits - k) * 2 ^ k := by rw [← pow_add, Nat.sub_add_cancel hk]
  have hpos := Nat.two_pow_pos k
  have hpos' := Nat.two_pow_pos (bits - k)
  refine Nat.div_eq_of_lt_le ?_ ?_
  · rw [Nat.sub_mul, hsplit]
    omega
  · grind

/-- **`UnsignedDivisionByConstant` ends.** -/
theorem unsignedDivisionByConstant_spec (hbits : 0 < bits) {d : BitVec bits} {leadingZeros : ℕ}
    (hlz : leadingZeros ≤ bits) (hd : 2 ≤ d.toNat) (hle : d.toNat < 2 ^ (bits - leadingZeros)) :
    ∃ p nc, UnsignedMagic d leadingZeros p nc := by
  have hword := two_pow_pred hbits
  set ones := ~~~(0 : BitVec bits) >>> leadingZeros with hones
  set min := (1 : BitVec bits) <<< (bits - 1) with hmin
  set max := ~~~(0 : BitVec bits) >>> 1 with hmax
  set nc := ones - (ones - d) % d with hnc
  have hones_nat : ones.toNat = 2 ^ (bits - leadingZeros) - 1 := toNat_ones_shiftRight hlz
  have hmin_nat : min.toNat = 2 ^ (bits - 1) := toNat_one_shiftLeft hbits
  have hmax_nat : max.toNat = 2 ^ (bits - 1) - 1 := toNat_ones_shiftRight hbits
  have hnc_nat : nc.toNat = d.toNat * (ones.toNat / d.toNat) := by
    have hle' : d ≤ ones := by
      rw [le_def]
      omega
    have hrem : ((ones - d) % d).toNat = ones.toNat % d.toNat := by
      rw [toNat_umod, toNat_sub_of_le hle', ← mod_eq_sub_mod (BitVec.le_def.mp hle')]
    have hdiv := div_add_mod ones.toNat d.toNat
    rw [hnc, toNat_sub_of_le, hrem]
    · omega
    · rw [le_def, hrem]
      exact mod_le _ _
  have hdiv := div_add_mod ones.toNat d.toNat
  have hmod := mod_lt ones.toNat (by omega : 0 < d.toNat)
  have hle_nc : d.toNat * 1 ≤ d.toNat * (ones.toNat / d.toNat) :=
    Nat.mul_le_mul_left _ (Nat.div_pos (by omega) (by omega))
  -- the variables before the first round
  obtain ⟨hq1, hr1⟩ := divMod_word min nc
  obtain ⟨hq2, hr2⟩ := divMod_word max d
  rw [hmin_nat] at hq1 hr1
  rw [hmax_nat] at hq2 hr2
  have hfirst : unsignedReciprocal d.toNat (bits - 1) < 2 ^ bits := by
    unfold unsignedReciprocal
    have := Nat.div_le_self (2 ^ (bits - 1) - 1) d.toNat
    omega
  obtain ⟨p, s, hloop, hs, hp, hp', hstop, hleast⟩ := unsignedLoop_spec hbits hmin_nat hmax_nat
    (by omega) (by omega) (by omega) (bits + 1) (bits - 1)
    ⟨false, bits - 1, min / nc, min - min / nc * nc, max / d, max - max / d * d⟩
    ⟨rfl, hq1, hr1, hq2, hr2, iff_of_false Bool.false_ne_true (by omega)⟩
    (fun _ => by
      rw [Nat.sub_add_cancel hbits]
      exact Nat.div_lt_self (Nat.two_pow_pos bits) (by omega))
    (by omega) (by omega)
  refine ⟨p, nc.toNat, ?_, by omega, hp', ?_, ?_, ?_, hstop, ⟨_, hnc_nat⟩, by omega, by omega⟩
  · have hmul : s.q2 + 1 = BitVec.ofNat bits (unsignedReciprocal d.toNat p) := by
      rw [hs.q2_eq, unsignedReciprocal, ofNat_add]
      rfl
    have ha : s.a = decide (2 ^ bits ≤ unsignedReciprocal d.toNat p) := by
      rw [Bool.eq_iff_iff, hs.a_iff, decide_eq_true_iff]
    show (unsignedLoop min max nc d (bits + 1) _).map _ = _
    rw [hloop, Option.map_some, hmul, hs.p_eq, ha]
  · rcases hleast with rfl | hlarge
    · have := unsignedReciprocal_succ_le (by omega : 0 < d.toNat) (bits - 1)
      omega
    · obtain ⟨p, rfl⟩ := exists_eq_succ_of_ne_zero (by omega : p ≠ 0)
      have hlt : unsignedReciprocal d.toNat (p + 1) < 2 * nc.toNat :=
        unsignedReciprocal_lt (by omega) (by omega) ⟨_, hnc_nat⟩ hlarge
      exact hlt.trans (by omega)
  · intro hoverflow
    by_contra hnot
    obtain rfl : p = bits := by omega
    have := div_le_div_left hd Nat.two_pos (a := 2 ^ p - 1)
    unfold unsignedReciprocal at hoverflow
    omega
  · intro hfits
    by_contra hnot
    obtain rfl : p = 2 * bits := by omega
    have hmul := unsignedReciprocal_mul (by omega : 0 < d.toNat) (2 * bits)
    have hlt : unsignedReciprocal d.toNat (2 * bits) * d.toNat < 2 ^ bits * 2 ^ bits :=
      Nat.mul_lt_mul'' hfits d.isLt
    rw [← pow_add, ← two_mul] at hlt
    omega

/-- **The quotient by the odd part of a divisor.** -/
theorem UnsignedMagic.mul_div {d : BitVec bits} {leadingZeros p nc x : ℕ}
    (h : UnsignedMagic d leadingZeros p nc) (hodd : Odd d.toNat) (hd : 2 ≤ d.toNat)
    (hx : x < 2 ^ (bits - leadingZeros)) :
    x * unsignedReciprocal d.toNat p / 2 ^ p = x / d.toNat := by
  have hpos : 0 < d.toNat := by omega
  have hcritical := h.critical
  have hle := h.le_nc
  -- an odd divisor does not divide the number of dividends
  have hne : 2 ^ (bits - leadingZeros) ≠ nc + d.toNat := by
    intro heq
    have hdvd : d.toNat ∣ 2 ^ (bits - leadingZeros) := heq ▸ Nat.dvd_add h.dvd dvd_rfl
    have hcoprime : Nat.Coprime d.toNat (2 ^ (bits - leadingZeros)) :=
      Nat.Coprime.pow_right _ (Nat.coprime_two_right.mpr hodd)
    have := eq_one_of_dvd_coprimes hcoprime dvd_rfl hdvd
    omega
  refine mul_div_eq_div hpos (unsignedReciprocal_mul hpos p)
    (Reciprocal.error_lt hpos (fun hr => ?_) (by omega) h.error)
  have := le_of_mod_add_one hr h.dvd (by omega)
  omega

end MagicNumbersForDivision
