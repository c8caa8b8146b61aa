import V8Speak.DivisionByConstant

/-!
# Division by constants in the machine operator reducer

`MachineOperatorReducer` (`compiler/machine-operator-reducer.cc`) replaces a
division by a constant by a multiplication with a magic number and shifts.
`Int32Div` and `Int64Div`, and `Uint32Div` and `Uint64Div`, are the same but
for the word; here they are functions over the word that build a node, and a
node is evaluated in wrapping arithmetic.

Unsigned division is exact for every divisor that is not a power of two
(`eval_uintDiv`). Signed division is exact for positive divisors
(`eval_intDiv`), and only those are passed on by the reducers, which divide by
the absolute value and negate (`reduceIntDiv`). For a negative divisor the
correction by the sign of the dividend is wrong, whatever the dividend
(`eval_intDiv_neg`).
-/

open Nat hiding pow_succ pow_succ'
open BitVec hiding mul_add neg_neg toNat_one zero_mul
open MagicNumbersForDivision

variable {bits : ℕ}

/-! ## Nodes -/

/-- The nodes that are built for a division, over the dividend. -/
inductive MachineNode (bits : ℕ)
  | parameter
  | constant (value : BitVec bits)
  | intMulHigh (lhs rhs : MachineNode bits)
  | uintMulHigh (lhs rhs : MachineNode bits)
  | intAdd (lhs rhs : MachineNode bits)
  | intSub (lhs rhs : MachineNode bits)
  | wordSar (lhs : MachineNode bits) (shift : ℕ)
  | wordShr (lhs : MachineNode bits) (shift : ℕ)
  deriving DecidableEq, Repr

namespace MachineNode

/-- The value of a node for a dividend. Shifts are by an amount below the word
size. -/
def eval (dividend : BitVec bits) : MachineNode bits → BitVec bits
  | parameter => dividend
  | constant value => value
  | intMulHigh lhs rhs =>
    BitVec.ofInt bits ((lhs.eval dividend).toInt * (rhs.eval dividend).toInt / 2 ^ bits)
  | uintMulHigh lhs rhs =>
    BitVec.ofNat bits ((lhs.eval dividend).toNat * (rhs.eval dividend).toNat / 2 ^ bits)
  | intAdd lhs rhs => lhs.eval dividend + rhs.eval dividend
  | intSub lhs rhs => lhs.eval dividend - rhs.eval dividend
  | wordSar lhs shift => (lhs.eval dividend).sshiftRight (shift % bits)
  | wordShr lhs shift => lhs.eval dividend >>> (shift % bits)

/-- `Word32Sar` and `Word64Sar` of the reducer. -/
def sar (lhs : MachineNode bits) (rhs : ℕ) : MachineNode bits :=
  if rhs = 0 then lhs else wordSar lhs rhs

/-- `Word32Shr` and `Word64Shr` of the reducer. -/
def shr (lhs : MachineNode bits) (rhs : ℕ) : MachineNode bits :=
  if rhs = 0 then lhs else wordShr lhs rhs

/-! ## Divisions -/

variable (dividend : MachineNode bits) (divisor : BitVec bits)

/-- `Int32Div` and `Int64Div`. -/
def intDiv : Option (MachineNode bits) :=
  (signedDivisionByConstant divisor).map fun mag =>
    let quotient := intMulHigh dividend (constant mag.multiplier)
    let quotient := if divisor.toInt > 0 ∧ mag.multiplier.toInt < 0 then intAdd quotient dividend
      else if divisor.toInt < 0 ∧ mag.multiplier.toInt > 0 then intSub quotient dividend
      else quotient
    intAdd (sar quotient mag.shift) (shr dividend (bits - 1))

def countTrailingZeros (value : BitVec bits) : ℕ :=
  ((List.range bits).find? fun i => value.getLsbD i).getD bits

/-- `Uint32Div` and `Uint64Div`. -/
def uintDiv : Option (MachineNode bits) :=
  let shift := countTrailingZeros divisor
  let dividend := shr dividend shift
  let divisor := divisor >>> shift
  (unsignedDivisionByConstant divisor shift).map fun mag =>
    let quotient := uintMulHigh dividend (constant mag.multiplier)
    if mag.add then
      shr (intAdd (shr (intSub dividend quotient) 1) quotient) (mag.shift - 1)
    else shr quotient mag.shift

def isPowerOfTwo (value : BitVec bits) : Bool := value > 0 && value &&& (value - 1) == 0

def abs (value : BitVec bits) : BitVec bits :=
  let y := value.sshiftRight (bits - 1)
  (value ^^^ y) - y

/-- `ReduceInt32Div` and `ReduceInt64Div`, for a constant divisor. -/
def reduceIntDiv : Option (MachineNode bits) :=
  if divisor = 0 then some (constant divisor)
  else if divisor = 1 then some dividend
  else if divisor = -1 then some (intSub (constant 0) dividend)
  else
    let quotient := if isPowerOfTwo (abs divisor) then
        let shift := countTrailingZeros (abs divisor)
        let quotient := if shift > 1 then sar dividend (bits - 1) else dividend
        let quotient := intAdd (shr quotient (bits - shift)) dividend
        some (sar quotient shift)
      else intDiv dividend (abs divisor)
    quotient.map fun quotient =>
      if divisor.toInt < 0 then intSub (constant 0) quotient else quotient

/-- `ReduceUint32Div` and `ReduceUint64Div`, for a constant divisor. -/
def reduceUintDiv : Option (MachineNode bits) :=
  if divisor = 0 then some (constant divisor)
  else if divisor = 1 then some dividend
  else if isPowerOfTwo divisor then some (wordShr dividend (countTrailingZeros divisor))
  else uintDiv dividend divisor

/-! ## Evaluation -/

variable (n : BitVec bits) {k : ℕ}

theorem eval_sar (node : MachineNode bits) (hk : k < bits) :
    (node.sar k).eval n = (node.eval n).sshiftRight k := by
  unfold sar
  split
  · next h => rw [h, sshiftRight_zero]
  · rw [eval, mod_eq_of_lt hk]

theorem eval_shr (node : MachineNode bits) (hk : k < bits) :
    (node.shr k).eval n = node.eval n >>> k := by
  unfold shr
  split
  · next h => rw [h, ushiftRight_zero]
  · rw [eval, mod_eq_of_lt hk]

/-! ## Unsigned division -/

variable {d : BitVec bits}

/-- The trailing zeros of a divisor leave an odd divisor. -/
theorem countTrailingZeros_spec (hd : d ≠ 0) :
    countTrailingZeros d < bits ∧ Odd (d >>> countTrailingZeros d).toNat ∧
      d.toNat = 2 ^ countTrailingZeros d * (d >>> countTrailingZeros d).toNat := by
  unfold countTrailingZeros
  cases hfind : (List.range bits).find? (fun i => d.getLsbD i) with
  | none =>
    refine absurd (eq_of_getLsbD_eq fun i hi => ?_) hd
    have := List.find?_eq_none.mp hfind i (List.mem_range.mpr hi)
    simpa using this
  | some s =>
    obtain ⟨hs, hmem, hlower⟩ := List.find?_range_eq_some.mp hfind
    have hlt : s < bits := List.mem_range.mp hmem
    have hmod : d.toNat % 2 ^ s = 0 := by
      refine eq_of_testBit_eq fun j => ?_
      rw [testBit_mod_two_pow, testBit_toNat, zero_testBit]
      by_cases hj : j < s
      · simpa [hj] using hlower j hj
      · simp [hj]
    rw [Option.getD_some, toNat_ushiftRight, shiftRight_eq_div_pow]
    refine ⟨hlt, ?_, ?_⟩
    · rw [← testBit_toNat, testBit_eq_decide_div_mod_eq, decide_eq_true_iff] at hs
      exact Nat.odd_iff.mpr hs
    · exact (Nat.mul_div_cancel' (dvd_of_mod_eq_zero hmod)).symm

/-- **The shifts and the fix-up of an unsigned division.** -/
theorem toNat_fixup {x q : BitVec bits} (hle : q.toNat ≤ x.toNat) :
    (((x - q) >>> 1) + q).toNat = (x.toNat + q.toNat) / 2 := by
  rw [toNat_add, toNat_ushiftRight, toNat_sub_of_le (BitVec.le_def.mpr hle),
    shiftRight_eq_div_pow, pow_one, mod_eq_of_lt (by omega)]
  omega

variable (x : BitVec bits)

/-- The high product of a word with the low bits of a reciprocal. -/
theorem toNat_uintMulHigh (m : ℕ) :
    (BitVec.ofNat bits (x.toNat * (BitVec.ofNat bits m).toNat / 2 ^ bits)).toNat =
      x.toNat * (m % 2 ^ bits) / 2 ^ bits ∧ x.toNat * (m % 2 ^ bits) / 2 ^ bits ≤ x.toNat := by
  have hle : x.toNat * (m % 2 ^ bits) / 2 ^ bits ≤ x.toNat := by
    refine Nat.div_le_of_le_mul ?_
    rw [mul_comm]
    exact Nat.mul_le_mul_right _ (mod_lt m (Nat.two_pow_pos bits)).le
  rw [toNat_ofNat, toNat_ofNat, mod_eq_of_lt (hle.trans_lt x.isLt)]
  exact ⟨rfl, hle⟩

/-- A divisor that is not a power of two has an odd part. -/
theorem two_le_oddPart (hd : d ≠ 0) (hpow : ∀ k, d.toNat ≠ 2 ^ k) :
    2 ≤ (d >>> countTrailingZeros d).toNat := by
  obtain ⟨-, hodd, hsplit⟩ := countTrailingZeros_spec hd
  have hne : (d >>> countTrailingZeros d).toNat ≠ 1 :=
    fun hone => hpow (countTrailingZeros d) (by rw [hsplit, hone, mul_one])
  have := hodd.pos
  omega

/-- **Unsigned division by a constant is exact**, for every divisor that is not
a power of two. -/
theorem eval_uintDiv (hd : d ≠ 0) (hpow : ∀ k, d.toNat ≠ 2 ^ k) (dividend : MachineNode bits) :
    ∃ node, uintDiv dividend d = some node ∧ ∀ n, node.eval n = dividend.eval n / d := by
  obtain ⟨hlt, hodd, hsplit⟩ := countTrailingZeros_spec hd
  have htwo := two_le_oddPart hd hpow
  set s := countTrailingZeros d with hs
  have hbits : 1 < bits := by
    have := toNat_ushiftRight_lt d _ hlt.le
    by_contra hle
    have : 2 ^ (bits - s) ≤ 2 ^ 1 := Nat.pow_le_pow_right Nat.two_pos (by omega)
    omega
  obtain ⟨p, nc, hmagic⟩ := unsignedDivisionByConstant_spec (by omega) hlt.le htwo
    (toNat_ushiftRight_lt d _ hlt.le)
  set m := unsignedReciprocal (d >>> s).toNat p with hm
  have hpower : 2 ^ p = 2 ^ bits * 2 ^ (p - bits) := by
    rw [← pow_add, Nat.add_sub_cancel' hmagic.le_p]
  have hp := hmagic.p_le
  simp only [uintDiv, ← hs, hmagic.eq, ← hm, Option.map_some]
  refine ⟨_, rfl, fun n => eq_of_toNat_eq ?_⟩
  have hquotient := hmagic.mul_div hodd htwo (toNat_ushiftRight_lt (dividend.eval n) _ hlt.le)
  have hdividend : (shr dividend s).eval n = dividend.eval n >>> s := eval_shr n dividend hlt
  have hfinal : (dividend.eval n >>> s).toNat / (d >>> s).toNat =
      (dividend.eval n).toNat / d.toNat := by
    rw [toNat_ushiftRight (dividend.eval n), shiftRight_eq_div_pow,
      Nat.div_div_eq_div_mul, ← hsplit]
  set x := dividend.eval n >>> s with hx
  obtain ⟨hhigh, hhigh_le⟩ := toNat_uintMulHigh x m
  rw [toNat_udiv, ← hfinal, ← hquotient]
  by_cases hadd : 2 ^ bits ≤ m
  · have hp' := hmagic.add hadd
    have hmod : m % 2 ^ bits + 2 ^ bits = m := by
      rw [mod_eq_sub_mod hadd, mod_eq_of_lt (by have := hmagic.lt; omega)]
      omega
    rw [if_pos (decide_eq_true hadd), eval_shr n _ (by omega), toNat_ushiftRight,
      shiftRight_eq_div_pow]
    simp only [eval, eval_shr n _ hbits, hdividend]
    rw [toNat_fixup (by rw [hhigh]; exact hhigh_le), hhigh, Nat.div_div_eq_div_mul]
    calc (x.toNat + x.toNat * (m % 2 ^ bits) / 2 ^ bits) / (2 * 2 ^ (p - bits - 1))
      _ = x.toNat * m / 2 ^ bits / 2 ^ (p - bits) := by
        rw [← pow_succ', Nat.sub_add_cancel (by omega : 1 ≤ p - bits)]
        congr 1
        conv_rhs => rw [← hmod, mul_add, add_mul_div_right _ _ (Nat.two_pow_pos bits)]
        exact add_comm _ _
      _ = x.toNat * m / 2 ^ p := by rw [Nat.div_div_eq_div_mul, hpower]
  · have hp' := hmagic.small (not_le.mp hadd)
    rw [decide_eq_false hadd, if_neg Bool.false_ne_true, eval_shr n _ (by omega),
      toNat_ushiftRight, shiftRight_eq_div_pow]
    simp only [eval, hdividend]
    rw [hhigh, mod_eq_of_lt (not_le.mp hadd), Nat.div_div_eq_div_mul, hpower]

/-! ## Signed division -/

/-- Adding or subtracting the dividend, where the multiplier does not fit into a
signed word. -/
theorem ofInt_mul_add (y k : ℤ) : BitVec.ofInt bits (x.toInt * (y + k * 2 ^ bits) / 2 ^ bits) =
      BitVec.ofInt bits (x.toInt * y / 2 ^ bits + k * x.toInt) := by
  have hne : (2 ^ bits : ℤ) ≠ 0 := by positivity
  rw [show x.toInt * (y + k * 2 ^ bits) = x.toInt * y + k * x.toInt * 2 ^ bits by ring,
    Int.add_mul_ediv_right _ _ hne]

/-- A product with a word divided by the number of words is in range. -/
theorem mul_div_range {x c : ℤ} {w : ℤ} (hx : -w ≤ x) (hx' : x < w) (hc : -(2 * w) < c)
    (hc' : c < 2 * w) : -w ≤ x * c / (2 * w) ∧ x * c / (2 * w) < w := by
  have hw : 0 < 2 * w := by linarith
  constructor
  · rw [Int.le_ediv_iff_mul_le hw]
    nlinarith
  · rw [Int.ediv_lt_iff_lt_mul hw]
    nlinarith

/-- **The multiplier and its fix-up.** -/
theorem eval_fixup {m : ℕ} {c : ℤ} (hd : d.toInt ≠ 0) (hm : 0 < m)
    (hlt : m < 2 ^ bits) (hc : c = if d.msb then -(m : ℤ) else m) (dividend : MachineNode bits) :
    let multiplier := if d.msb then 0 - BitVec.ofNat bits m else BitVec.ofNat bits m
    let quotient := intMulHigh dividend (constant multiplier)
    (if d.toInt > 0 ∧ multiplier.toInt < 0 then intAdd quotient dividend
      else if d.toInt < 0 ∧ multiplier.toInt > 0 then intSub quotient dividend
      else quotient).eval n = BitVec.ofInt bits ((dividend.eval n).toInt * c / 2 ^ bits) := by
  intro multiplier quotient
  have hnat : (BitVec.ofNat bits m).toNat = m := by
    rw [toNat_ofNat, mod_eq_of_lt hlt]
  have hmsb : d.msb = decide (d.toInt < 0) := msb_eq_toInt
  have hquotient : ∀ k : ℤ, multiplier.toInt = c + k * 2 ^ bits → quotient.eval n =
      BitVec.ofInt bits ((dividend.eval n).toInt * c / 2 ^ bits + k * (dividend.eval n).toInt) := by
    intro k hk
    show BitVec.ofInt bits ((dividend.eval n).toInt * multiplier.toInt / 2 ^ bits) = _
    rw [hk, ofInt_mul_add]
  have hword : ((2 ^ bits : ℕ) : ℤ) = 2 ^ bits := by push_cast; rfl
  have htoInt := toInt_eq_toNat_cond multiplier
  by_cases hneg : d.toInt < 0
  · have hmul : multiplier.toNat = 2 ^ bits - m := by
      show (if d.msb then _ else _ : BitVec bits).toNat = _
      rw [hmsb, decide_eq_true hneg, if_pos rfl, toNat_sub, hnat, ofNat_eq_ofNat,
        toNat_ofNat, zero_mod, add_zero, mod_eq_of_lt (by omega)]
    rw [hmsb, decide_eq_true hneg, if_pos rfl] at hc
    rw [if_neg fun h => by omega]
    by_cases hpos : multiplier.toInt > 0
    · have hk : multiplier.toInt = c + 1 * 2 ^ bits := by
        split at htoInt <;> omega
      rw [if_pos ⟨hneg, hpos⟩, eval, hquotient 1 hk, one_mul, ofInt_add, ofInt_toInt,
        BitVec.add_sub_cancel]
    · have hk : multiplier.toInt = c + 0 * 2 ^ bits := by
        split at htoInt <;> omega
      rw [if_neg fun h => hpos h.2, hquotient 0 hk, zero_mul, add_zero]
  · have hmul : multiplier.toNat = m := by
      show (if d.msb then _ else _ : BitVec bits).toNat = _
      rw [hmsb, decide_eq_false hneg, if_neg Bool.false_ne_true, hnat]
    rw [hmsb, decide_eq_false hneg, if_neg Bool.false_ne_true] at hc
    by_cases hpos : multiplier.toInt < 0
    · have hk : multiplier.toInt = c + -1 * 2 ^ bits := by
        split at htoInt <;> omega
      rw [if_pos ⟨by omega, hpos⟩, eval, hquotient (-1) hk, ofInt_add, neg_one_mul,
        ofInt_neg, ofInt_toInt, BitVec.add_assoc, add_left_neg,
        BitVec.add_zero]
    · have hk : multiplier.toInt = c + 0 * 2 ^ bits := by
        split at htoInt <;> omega
      rw [if_neg fun h => hpos h.2, if_neg fun h => hneg h.1, hquotient 0 hk, zero_mul, add_zero]

theorem shiftRight_eq_ofInt (hbits : 0 < bits) (x : BitVec bits) :
    x >>> (bits - 1) = BitVec.ofInt bits (if x.toInt < 0 then 1 else 0) := by
  refine eq_of_toNat_eq ?_
  rw [toNat_shiftRight_msb hbits, msb_eq_toInt]
  split
  · next h =>
    rw [decide_eq_true h]
    exact (toNat_one hbits).symm
  · next h =>
    rw [decide_eq_false h]
    exact (zero_mod _).symm

/-- **What a signed division evaluates to.** -/
theorem eval_intDiv_eq (hbits : 0 < bits) {p nc : ℕ}
    (hd : 0 < d.toInt.natAbs) (h : SignedMagic d d.toInt.natAbs p nc)
    (dividend : MachineNode bits) :
    ∃ node, intDiv dividend d = some node ∧ ∀ n, node.eval n = BitVec.ofInt bits
      ((dividend.eval n).toInt *
          (if d.msb then -(signedReciprocal d.toInt.natAbs p : ℤ) else signedReciprocal d.toInt.natAbs p)
            / 2 ^ p + if (dividend.eval n).toInt < 0 then 1 else 0) := by
  have hp := h.le_p
  have hp' := h.p_le
  have hlt := h.lt
  set m := signedReciprocal d.toInt.natAbs p with hm
  have hpos : 0 < m := succ_pos _
  simp only [intDiv, h.eq, ← hm, Option.map_some]
  refine ⟨_, rfl, fun n => ?_⟩
  set c : ℤ := if d.msb then -(m : ℤ) else m with hc
  set x := (dividend.eval n).toInt with hx
  have hfixup := eval_fixup n (Int.natAbs_pos.mp hd) hpos hlt hc dividend
  have hword : (2 ^ bits : ℤ) = 2 * 2 ^ (bits - 1) := by
    exact_mod_cast two_pow_pred hbits
  have hlt' : (m : ℤ) < 2 ^ bits := by exact_mod_cast hlt
  have hrange : -2 ^ (bits - 1) ≤ x * c / 2 ^ bits ∧ x * c / 2 ^ bits < 2 ^ (bits - 1) := by
    rw [hword]
    refine mul_div_range (le_toInt _) toInt_lt ?_ ?_ <;> rw [← hword, hc] <;> split <;>
      omega
  have htoInt : (BitVec.ofInt bits (x * c / 2 ^ bits)).toInt = x * c / 2 ^ bits := by
    rw [toInt_ofInt]
    refine Int.bmod_eq_of_le ?_ ?_ <;> push_cast <;> omega
  rw [eval, eval_sar n _ (by omega), hfixup, eval_shr n _ (by omega), shiftRight_eq_ofInt hbits,
    ofInt_add]
  congr 1
  show BitVec.ofInt bits ((BitVec.ofInt bits (x * c / 2 ^ bits)).toInt >>> (p - bits)) = _
  rw [htoInt, Int.shiftRight_eq_div_pow, Int.ediv_ediv_of_nonneg (by positivity)]
  push_cast
  rw [← pow_add, Nat.add_sub_cancel' hp]

theorem sdiv_eq_ofInt (x y : BitVec bits) :
    x.sdiv y = BitVec.ofInt bits (x.toInt.tdiv y.toInt) := by
  refine eq_of_toInt_eq ?_
  rw [toInt_sdiv, toInt_ofInt]

/-- **Signed division by a positive constant is exact.** -/
theorem eval_intDiv (hbits : 3 ≤ bits) (hd : 2 ≤ d.toInt) (dividend : MachineNode bits) :
    ∃ node, intDiv dividend d = some node ∧ ∀ n, node.eval n = (dividend.eval n).sdiv d := by
  have hlt : d.toInt < 2 ^ (bits - 1) := toInt_lt
  have hnat : (d.toInt.natAbs : ℤ) = d.toInt := Int.natAbs_of_nonneg (by omega)
  obtain ⟨p, nc, hmagic⟩ := signedDivisionByConstant_spec hbits (d := d) (by omega)
    (by zify; rw [abs_of_pos (by omega)]; exact hlt)
  obtain ⟨node, hnode, heval⟩ := eval_intDiv_eq (by omega) (by omega) hmagic dividend
  refine ⟨node, hnode, fun n => ?_⟩
  have hmsb : d.msb = false := by
    rw [msb_eq_toInt, decide_eq_false (by omega)]
  rw [heval, hmsb, if_neg Bool.false_ne_true,
    hmagic.mul_div_add (by omega) (by omega) (le_toInt _) toInt_lt, hnat,
    sdiv_eq_ofInt]

theorem ofInt_ne_ofInt {a b : ℤ} (hpos : 0 < |a - b|) (hlt : |a - b| < 2 ^ bits) :
    BitVec.ofInt bits a ≠ BitVec.ofInt bits b := by
  intro heq
  have hpow : (0 : ℤ) < 2 ^ bits := by positivity
  have hmod := congrArg (fun x => (x.toNat : ℤ)) heq
  simp only [toNat_ofInt] at hmod
  push_cast at hmod
  rw [Int.toNat_of_nonneg (Int.emod_nonneg _ hpow.ne'),
    Int.toNat_of_nonneg (Int.emod_nonneg _ hpow.ne')] at hmod
  have hzero := Int.eq_zero_of_abs_lt_dvd (Int.ModEq.dvd hmod.symm) hlt
  rw [hzero, abs_zero] at hpos
  exact lt_irrefl 0 hpos

/-- **Signed division by a negative constant is wrong** for every dividend but
zero: the correction has to be by the sign of the quotient. -/
theorem eval_intDiv_neg (hbits : 3 ≤ bits) (hd : d.toInt ≤ -2)
    (hmin : -2 ^ (bits - 1) < d.toInt) (dividend : MachineNode bits) :
    ∃ node, intDiv dividend d = some node ∧
      ∀ n, node.eval n = (dividend.eval n).sdiv d ↔ dividend.eval n = 0 := by
  obtain ⟨p, nc, hmagic⟩ := signedDivisionByConstant_spec hbits (d := d) (by omega)
    (by zify; rw [abs_of_neg (by omega)]; omega)
  obtain ⟨node, hnode, heval⟩ := eval_intDiv_eq (by omega) (by omega) hmagic dividend
  refine ⟨node, hnode, fun n => ?_⟩
  have hmsb : d.msb = true := by grind
  have hsdiv : (dividend.eval n).sdiv d =
      BitVec.ofInt bits (-(dividend.eval n).toInt.tdiv d.toInt.natAbs) := by
    rw [sdiv_eq_ofInt, Int.ofNat_natAbs_of_nonpos (by omega), Int.tdiv_neg, neg_neg]
  rw [heval, hmsb, if_pos rfl, hsdiv]
  constructor
  · intro heq
    by_contra hne
    obtain ⟨hpos, hlt⟩ := hmagic.neg_mul_div_add (by omega) (by omega)
      (le_toInt (dividend.eval n)) toInt_lt
      (fun hzero => hne (eq_of_toInt_eq (hzero.trans BitVec.toInt_zero.symm)))
    exact ofInt_ne_ofInt hpos hlt heq
  · intro hzero
    rw [hzero]
    simp

/-! ## Powers of two -/

theorem and_sub_one_ne_zero {s o : ℕ} (hodd : Odd o) (hne : o ≠ 1) :
    2 ^ s * o &&& (2 ^ s * o - 1) ≠ 0 := by
  obtain ⟨j, rfl⟩ := hodd
  have hj : j ≠ 0 := by omega
  -- a bit above the last one stays
  obtain ⟨i, hi⟩ := exists_testBit_of_ne_zero hj
  have hpow := Nat.two_pow_pos s
  have hdiv : 2 ^ s * (2 * j + 1) / 2 ^ s = 2 * j + 1 := Nat.mul_div_cancel_left _ hpow
  have hdiv' : (2 ^ s * (2 * j + 1) - 1) / 2 ^ s = 2 * j := by
    refine Nat.div_eq_of_lt_le ?_ ?_
    · grind
    · rw [mul_comm (2 * j + 1)]
      have : 0 < 2 ^ s * (2 * j + 1) := by positivity
      omega
  intro hzero
  have hbit := congrArg (fun x => x.testBit (i + 1 + s)) hzero
  simp only [testBit_and, zero_testBit] at hbit
  rw [testBit_add _ (i + 1) s, testBit_add _ (i + 1) s, hdiv, hdiv', testBit_succ,
    testBit_succ, show (2 * j + 1) / 2 = j by omega, show 2 * j / 2 = j by omega, hi] at hbit
  cases hbit

theorem isPowerOfTwo_iff (hd : d ≠ 0) : isPowerOfTwo d = true ↔ ∃ k, d.toNat = 2 ^ k := by
  obtain ⟨hlt, hodd, hsplit⟩ := countTrailingZeros_spec hd
  have hpos : 0 < d.toNat := Nat.pos_of_ne_zero fun hzero => hd (eq_of_toNat_eq hzero)
  have hpred : (d - 1).toNat = d.toNat - 1 := by
    rw [toNat_sub_of_le, toNat_one (by omega)]
    rw [le_def, toNat_one (by omega)]
    exact hpos
  have hiff : isPowerOfTwo d = true ↔ d.toNat &&& (d.toNat - 1) = 0 := by
    rw [isPowerOfTwo, Bool.and_eq_true, decide_eq_true_iff, beq_iff_eq, ← toNat_inj,
      toNat_and, hpred, gt_iff_lt, lt_def]
    exact and_iff_right hpos
  rw [hiff]
  constructor
  · intro hzero
    refine ⟨countTrailingZeros d, ?_⟩
    by_contra hne
    rw [hsplit] at hzero
    refine and_sub_one_ne_zero hodd (fun hone => hne ?_) hzero
    rw [hsplit, hone, mul_one]
  · rintro ⟨k, hk⟩
    rw [hk, and_two_pow_sub_one_eq_mod, mod_self]

/-- The sign of a word, in all bits. -/
theorem sshiftRight_eq_ofInt :
    x.sshiftRight (bits - 1) = BitVec.ofInt bits (if x.toInt < 0 then -1 else 0) := by
  have hlow := le_toInt x
  have hhigh : x.toInt < 2 ^ (bits - 1) := toInt_lt
  show BitVec.ofInt bits (x.toInt >>> (bits - 1)) = _
  rw [Int.shiftRight_eq_div_pow]
  congr 1
  push_cast
  split
  · refine le_antisymm (Int.le_of_lt_add_one ?_) ?_
    · rw [Int.ediv_lt_iff_lt_mul (by positivity)]
      omega
    · rw [Int.le_ediv_iff_mul_le (by positivity)]
      omega
  · exact Int.ediv_eq_zero_of_lt (by omega) hhigh

theorem abs_eq (d : BitVec bits) : abs d = if d.toInt < 0 then 0 - d else d := by
  rw [abs, sshiftRight_eq_ofInt]
  split
  · have hones : BitVec.ofInt bits (-1) = BitVec.allOnes bits := by
      rw [ofInt_neg, ← neg_one_eq_allOnes]
      rfl
    rw [hones, xor_allOnes, ← neg_one_eq_allOnes, BitVec.sub_neg,
      ofNat_eq_ofNat, BitVec.zero_sub, neg_eq_not_add]
  · simp

theorem toNat_abs (d : BitVec bits) : (abs d).toNat = d.toInt.natAbs := by
  rw [← toNat_ite_msb, msb_eq_toInt, abs_eq]
  simp only [decide_eq_true_iff]

/-- The bias of a division by a power of two. -/
theorem eval_bias (hk : 0 < k) (hlt : k < bits) (dividend : MachineNode bits) :
    (shr (if k > 1 then sar dividend (bits - 1) else dividend) (bits - k)).eval n =
      BitVec.ofInt bits (if (dividend.eval n).toInt < 0 then 2 ^ k - 1 else 0) := by
  rw [eval_shr n _ (by omega)]
  by_cases hone : k > 1
  · have hones : BitVec.ofInt bits (-1) = ~~~(0 : BitVec bits) := by
      rw [ofInt_neg, ofNat_eq_ofNat, not_zero, ← neg_one_eq_allOnes]
      rfl
    rw [if_pos hone, eval_sar n _ (by omega), sshiftRight_eq_ofInt]
    refine eq_of_toNat_eq ?_
    split
    · have hcast : (2 ^ k - 1 : ℤ) = ((2 ^ k - 1 : ℕ) : ℤ) := by
        rw [cast_sub (Nat.one_le_two_pow)]
        rfl
      have hpow : 2 ^ k < 2 ^ bits := Nat.pow_lt_pow_right Nat.one_lt_two hlt
      rw [hones, toNat_ones_shiftRight (by omega), show bits - (bits - k) = k by omega, hcast,
        ofInt_natCast, toNat_ofNat, mod_eq_of_lt ((sub_le _ _).trans_lt hpow)]
    · simp
  · obtain rfl : k = 1 := by omega
    rw [if_neg hone, shiftRight_eq_ofInt (by omega), pow_one]
    rfl

/-- Rounding towards zero by a bias. -/
theorem add_bias_ediv (x : ℤ) {c : ℤ} (hc : 0 < c) :
    (x + if x < 0 then c - 1 else 0) / c = x.tdiv c := by
  split
  · have hmod := Int.emod_nonneg (-x) hc.ne'
    have hmod' := Int.emod_lt_of_pos (-x) hc
    have hdiv := Int.mul_ediv_add_emod (-x) c
    rw [← neg_neg x, Int.neg_tdiv, Int.tdiv_eq_ediv_of_nonneg (by omega), neg_neg]
    exact (Int.ediv_emod_unique hc (r := c - 1 - -x % c)).mpr ⟨by rw [mul_neg]; omega, by omega,
      by omega⟩ |>.1
  · next hneg => rw [add_zero, Int.tdiv_eq_ediv_of_nonneg (not_lt.mp hneg)]

/-- **Signed division by a power of two.** -/
theorem eval_powerOfTwo (hk : 0 < k) (hlt : k < bits) (dividend : MachineNode bits) :
    (sar (intAdd (shr (if k > 1 then sar dividend (bits - 1) else dividend) (bits - k)) dividend)
      k).eval n = BitVec.ofInt bits ((dividend.eval n).toInt.tdiv (2 ^ k)) := by
  have hlow := le_toInt (dividend.eval n)
  have hhigh : (dividend.eval n).toInt < 2 ^ (bits - 1) := toInt_lt
  have hpow : (2 ^ k : ℤ) ≤ 2 ^ (bits - 1) := pow_le_pow_right₀ (by norm_num) (by omega)
  have hword : (2 ^ bits : ℤ) = 2 * 2 ^ (bits - 1) := by
    exact_mod_cast two_pow_pred (by omega : 0 < bits)
  set x := (dividend.eval n).toInt with hx
  have hdividend : dividend.eval n = BitVec.ofInt bits x := BitVec.ofInt_toInt.symm
  rw [eval_sar n _ hlt, eval, eval_bias n hk hlt, ← hx, hdividend, ← ofInt_add, add_comm]
  have htoInt : (BitVec.ofInt bits (x + if x < 0 then 2 ^ k - 1 else 0)).toInt =
      x + if x < 0 then 2 ^ k - 1 else 0 := by
    rw [toInt_ofInt]
    have hpos : (0 : ℤ) < 2 ^ k := by positivity
    refine Int.bmod_eq_of_le ?_ ?_ <;> push_cast <;> split <;> omega
  show BitVec.ofInt bits ((BitVec.ofInt bits _).toInt >>> k) = _
  rw [htoInt, Int.shiftRight_eq_div_pow]
  push_cast
  rw [add_bias_ediv x (by positivity)]

/-! ## The reducers -/

/-- The trailing zeros of a power of two. -/
theorem countTrailingZeros_eq (hd : d.toNat = 2 ^ k) : countTrailingZeros d = k := by
  have hne : d ≠ 0 := by grind
  obtain ⟨-, hodd, hsplit⟩ := countTrailingZeros_spec hne
  rw [hd] at hsplit
  have hone : (d >>> countTrailingZeros d).toNat = 1 :=
    eq_one_of_dvd_coprimes (Nat.Coprime.pow_right k (Nat.coprime_two_right.mpr hodd)) dvd_rfl
      ⟨_, by rw [mul_comm]; exact hsplit⟩
  rw [hone, mul_one] at hsplit
  exact (Nat.pow_right_injective le_rfl hsplit).symm

/-- The quotient by the absolute value of a divisor. -/
theorem eval_absQuotient (hbits : 3 ≤ bits) (hd : 2 ≤ d.toInt.natAbs)
    (dividend : MachineNode bits) :
    ∃ node, (if isPowerOfTwo (abs d) then
        some (sar (intAdd (shr (if countTrailingZeros (abs d) > 1 then sar dividend (bits - 1)
          else dividend) (bits - countTrailingZeros (abs d))) dividend) (countTrailingZeros (abs d)))
      else intDiv dividend (abs d)) = some node ∧
      ∀ n, node.eval n = BitVec.ofInt bits ((dividend.eval n).toInt.tdiv d.toInt.natAbs) := by
  have habs := toNat_abs d
  have hle : d.toInt.natAbs ≤ 2 ^ (bits - 1) := by
    have hlow := le_toInt d
    have hhigh : d.toInt < 2 ^ (bits - 1) := toInt_lt
    zify
    exact abs_le.mpr ⟨hlow, hhigh.le⟩
  have hne : abs d ≠ 0 := by
    intro hzero
    rw [hzero] at habs
    have : (0 : BitVec bits).toNat = 0 := zero_mod _
    omega
  have hiff := isPowerOfTwo_iff hne
  split
  · next hpow =>
    obtain ⟨k, hk⟩ := hiff.mp hpow
    rw [countTrailingZeros_eq hk]
    have hk₀ : 0 < k := by
      rcases Nat.eq_zero_or_pos k with rfl | hk₀
      · omega
      · exact hk₀
    have hk₁ : k ≤ bits - 1 := by
      rw [← habs, hk] at hle
      exact (Nat.pow_le_pow_iff_right Nat.one_lt_two).mp hle
    refine ⟨_, rfl, fun n => ?_⟩
    rw [eval_powerOfTwo n hk₀ (by omega), ← habs, hk]
    rfl
  · next hpow =>
    have hlt : d.toInt.natAbs < 2 ^ (bits - 1) := by
      refine hle.lt_of_ne fun heq => hpow (hiff.mpr ⟨bits - 1, ?_⟩)
      rw [habs, heq]
    have hword := two_pow_pred (by omega : 0 < bits)
    have htoInt : (abs d).toInt = d.toInt.natAbs := by
      rw [toInt_eq_toNat_cond, if_pos (by omega), habs]
    obtain ⟨node, hnode, heval⟩ := eval_intDiv hbits (by omega : 2 ≤ (abs d).toInt) dividend
    refine ⟨node, hnode, fun n => ?_⟩
    rw [heval, sdiv_eq_ofInt, htoInt]

/-- **The reducer divides by every constant as it should.** -/
theorem eval_reduceIntDiv (hbits : 3 ≤ bits) (d : BitVec bits) (dividend : MachineNode bits) :
    ∃ node, reduceIntDiv dividend d = some node ∧ ∀ n, node.eval n = (dividend.eval n).sdiv d := by
  unfold reduceIntDiv
  split
  · next h => exact ⟨_, rfl, fun n => by rw [h]; exact (sdiv_zero).symm⟩
  split
  · next h => exact ⟨_, rfl, fun n => by rw [h]; exact (sdiv_one).symm⟩
  split
  · next h =>
    refine ⟨_, rfl, fun n => ?_⟩
    have hneg : (-1 : BitVec bits).toInt = -1 := by
      rw [ofNat_eq_ofNat, neg_one_eq_allOnes, toInt_allOnes, if_pos (by omega)]
    rw [sdiv_eq_ofInt, h, hneg, Int.tdiv_neg, Int.tdiv_one, ofInt_neg, ofInt_toInt]
    exact BitVec.zero_sub _
  next hzero hone hneg =>
  have hword : ∀ c : ℤ, d.toInt = c → d = BitVec.ofInt bits c :=
    fun c hc => hc ▸ BitVec.ofInt_toInt.symm
  have hd : 2 ≤ d.toInt.natAbs := by
    have h₀ : d.toInt ≠ 0 := fun h => hzero (hword 0 h)
    have h₁ : d.toInt ≠ 1 := fun h => hone (hword 1 h)
    have h₂ : d.toInt ≠ -1 := fun h => hneg ((hword (-1) h).trans (ofInt_neg ..))
    omega
  obtain ⟨q, hq, heval⟩ := eval_absQuotient hbits hd dividend
  refine ⟨_, by rw [hq]; rfl, fun n => ?_⟩
  rw [sdiv_eq_ofInt]
  split
  · next h =>
    rw [eval, heval, eval, Int.ofNat_natAbs_of_nonpos h.le, Int.tdiv_neg, ofInt_neg,
      ofNat_eq_ofNat, BitVec.zero_sub, BitVec.neg_neg]
  · next h => rw [heval, Int.natAbs_of_nonneg (not_lt.mp h)]

theorem eval_reduceUintDiv (d : BitVec bits) (dividend : MachineNode bits) :
    ∃ node, reduceUintDiv dividend d = some node ∧ ∀ n, node.eval n = dividend.eval n / d := by
  unfold reduceUintDiv
  split
  · next h => exact ⟨_, rfl, fun n => by rw [h]; exact (udiv_zero).symm⟩
  split
  · next h => exact ⟨_, rfl, fun n => by rw [h]; exact (udiv_one).symm⟩
  next hzero hone =>
  have hiff := isPowerOfTwo_iff hzero
  split
  · next hpow =>
    obtain ⟨k, hk⟩ := hiff.mp hpow
    have hlt := (countTrailingZeros_spec hzero).1
    refine ⟨_, rfl, fun n => eq_of_toNat_eq ?_⟩
    rw [eval, mod_eq_of_lt hlt, countTrailingZeros_eq hk, toNat_ushiftRight,
      shiftRight_eq_div_pow, toNat_udiv, hk]
  · next hpow => exact eval_uintDiv hzero (fun k hk => hpow (hiff.mpr ⟨k, hk⟩)) dividend

/-! ## Division by constants -/

/-- **Division of `n` by a constant `d`.** The searches end. Signed magic
numbers shift by less than a word; unsigned ones by a word at most, and by less
where the shift is not one less than theirs. Unsigned division is exact, signed
division is for divisors that are positive – and for others only of zero. The
reducers, which divide by the absolute value, are exact for all divisors. -/
structure DivisionByConstant (d n : BitVec bits) : Prop where
  signed : 1 < d.toInt.natAbs → d.toInt ≠ -2 ^ (bits - 1) →
    ∃ mag node, signedDivisionByConstant d = some mag ∧ mag.shift < bits ∧ mag.add = false ∧
      intDiv parameter d = some node ∧ (node.eval n = n.sdiv d ↔ 0 < d.toInt ∨ n = 0)
  unsigned : d ≠ 0 → isPowerOfTwo d = false →
    ∃ mag node, unsignedDivisionByConstant (d >>> countTrailingZeros d) (countTrailingZeros d) =
        some mag ∧ (mag.add = true → 1 ≤ mag.shift ∧ mag.shift ≤ bits) ∧
      (mag.add = false → mag.shift < bits) ∧ uintDiv parameter d = some node ∧ node.eval n = n / d
  reduceInt : ∃ node, reduceIntDiv parameter d = some node ∧ node.eval n = n.sdiv d
  reduceUint : ∃ node, reduceUintDiv parameter d = some node ∧ node.eval n = n / d

/-- **Division by a constant**, for words of at least three bits. -/
theorem divisionByConstant_exact (hbits : 3 ≤ bits) (d n : BitVec bits) :
    DivisionByConstant d n where
  signed hd hmin := by
    have hlow := le_toInt d
    have hhigh : d.toInt < 2 ^ (bits - 1) := toInt_lt
    have hlt : d.toInt.natAbs < 2 ^ (bits - 1) := by
      zify
      exact abs_lt.mpr ⟨by omega, hhigh⟩
    obtain ⟨p, nc, hmagic⟩ := signedDivisionByConstant_spec hbits hd hlt
    have hp := hmagic.p_le
    by_cases hpos : 0 < d.toInt
    · obtain ⟨node, hnode, heval⟩ := eval_intDiv hbits (by omega : 2 ≤ d.toInt) parameter
      exact ⟨_, node, hmagic.eq, by dsimp only; omega, rfl, hnode,
        iff_of_true (heval n) (.inl hpos)⟩
    · obtain ⟨node, hnode, heval⟩ := eval_intDiv_neg hbits (by omega : d.toInt ≤ -2)
        (by omega) parameter
      exact ⟨_, node, hmagic.eq, by dsimp only; omega, rfl, hnode,
        (heval n).trans (or_iff_right hpos).symm⟩
  unsigned hd hpow := by
    have hpow' : ∀ k, d.toNat ≠ 2 ^ k := fun k hk =>
      Bool.eq_false_iff.mp hpow ((isPowerOfTwo_iff hd).mpr ⟨k, hk⟩)
    have hlt := (countTrailingZeros_spec hd).1
    obtain ⟨p, nc, hmagic⟩ := unsignedDivisionByConstant_spec (by omega) hlt.le
      (two_le_oddPart hd hpow') (toNat_ushiftRight_lt d _ hlt.le)
    have hp := hmagic.p_le
    obtain ⟨node, hnode, heval⟩ := eval_uintDiv hd hpow' parameter
    refine ⟨_, node, hmagic.eq, fun hadd => ?_, fun hadd => ?_, hnode, heval n⟩
    · have := hmagic.add (of_decide_eq_true hadd)
      dsimp only
      omega
    · have := hmagic.small (not_le.mp (of_decide_eq_false hadd))
      dsimp only
      omega
  reduceInt := by
    obtain ⟨node, hnode, heval⟩ := eval_reduceIntDiv hbits d parameter
    exact ⟨node, hnode, heval n⟩
  reduceUint := by
    obtain ⟨node, hnode, heval⟩ := eval_reduceUintDiv d parameter
    exact ⟨node, hnode, heval n⟩

/-- Dividing the largest word by seven, signed and unsigned. -/
theorem divisionByConstant_exact_seven :
    3 ≤ 32 ∧ DivisionByConstant (7 : BitVec 32) 0xFFFFFFFF :=
  ⟨by decide, divisionByConstant_exact (by decide) 7 0xFFFFFFFF⟩

/-- Dividing one by minus three gives minus one, and the unsigned magic numbers
of `0xC0000003` shift by a whole word. -/
theorem divisionByConstant_inexact :
    ((intDiv parameter (-3 : BitVec 32)).map (eval 1) = some (-1) ∧
      (1 : BitVec 32).sdiv (-3) = 0) ∧
    unsignedDivisionByConstant (0xC0000003 : BitVec 32) 0 = some ⟨0x55555551, 32, true⟩ := by
  decide +kernel

end MachineNode
