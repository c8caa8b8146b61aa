import V8Speak.DivisionReducer

/-!
# Remainders by constants in the machine operator reducer

`ReduceInt32Mod` and its siblings (`compiler/machine-operator-reducer.cc`) replace the remainder
by a constant: by a power of two it is a mask, with a diamond for the sign of the dividend, and
otherwise the dividend less the product of the quotient and the divisor. As for divisions, the
word is a parameter. The remainder by zero is zero.
-/

open BitVec hiding mul_add neg_neg toNat_one zero_mul
open MachineNode MagicNumbersForDivision

variable {bits : ℕ}

/-- The nodes that are built for a remainder, over those of a division. -/
inductive RemainderNode (bits : ℕ)
  | machine (node : MachineNode bits)
  | wordAnd (lhs : MachineNode bits) (mask : BitVec bits)
  | intSub (lhs rhs : RemainderNode bits)
  | intMul (lhs rhs : RemainderNode bits)
  /-- The `Phi` of a `Diamond` whose condition is that the node is negative. -/
  | phi (condition : MachineNode bits) (ifTrue ifFalse : RemainderNode bits)

namespace RemainderNode

def eval (dividend : BitVec bits) : RemainderNode bits → BitVec bits
  | machine node => node.eval dividend
  | wordAnd lhs mask => lhs.eval dividend &&& mask
  | intSub lhs rhs => lhs.eval dividend - rhs.eval dividend
  | intMul lhs rhs => lhs.eval dividend * rhs.eval dividend
  | phi condition ifTrue ifFalse =>
    if (condition.eval dividend).toInt < 0 then ifTrue.eval dividend else ifFalse.eval dividend

variable (dividend : MachineNode bits) (divisor : BitVec bits)

/-- The dividend less the multiple of the divisor. -/
def minusMultiple (quotient : MachineNode bits) : RemainderNode bits :=
  intSub (machine dividend) (intMul (machine quotient) (machine (constant divisor)))

/-- `ReduceInt32Mod` and `ReduceInt64Mod`, for a constant divisor. -/
def reduceIntMod : Option (RemainderNode bits) :=
  if divisor = 0 then some (machine (constant divisor))
  else if divisor = 1 ∨ divisor = -1 then some (machine (constant 0))
  else
    let divisor := MachineNode.abs divisor
    if isPowerOfTwo divisor then
      let mask := divisor - 1
      let zero := constant 0
      some (phi dividend (intSub (machine zero) (wordAnd (MachineNode.intSub zero dividend) mask))
        (wordAnd dividend mask))
    else (intDiv dividend divisor).map (minusMultiple dividend divisor)

/-- `ReduceUint32Mod` and `ReduceUint64Mod`, for a constant divisor. -/
def reduceUintMod : Option (RemainderNode bits) :=
  if divisor = 0 then some (machine (constant divisor))
  else if divisor = 1 then some (machine (constant 0))
  else if isPowerOfTwo divisor then some (wordAnd dividend (divisor - 1))
  else (uintDiv dividend divisor).map (minusMultiple dividend divisor)

variable {d : BitVec bits} (x : BitVec bits)

/-- The mask of a power of two gives the remainder. -/
theorem and_mask (hd : d ≠ 0) (hpow : isPowerOfTwo d = true) : x &&& (d - 1) = x % d := by
  obtain ⟨k, hk⟩ := (isPowerOfTwo_iff hd).mp hpow
  have hone := toNat_one (Nat.zero_lt_of_lt (countTrailingZeros_spec hd).1)
  have hpred : (d - 1).toNat = d.toNat - 1 := by
    rw [toNat_sub_of_le (by rw [le_def, hone, hk]; exact Nat.one_le_two_pow), hone]
  rw [← toNat_inj, toNat_and, hpred, hk, Nat.and_two_pow_sub_one_eq_mod, toNat_umod, hk]

theorem sub_udiv_mul (d : BitVec bits) : x - x / d * d = x % d := by
  refine (BitVec.eq_sub_iff_add_eq.mpr (eq_of_toNat_eq ?_)).symm
  rw [toNat_add, toNat_mul, toNat_umod, toNat_udiv, Nat.add_mod_mod, Nat.mod_add_div']
  exact Nat.mod_eq_of_lt x.isLt

/-- The signed remainder, by the sign of the dividend and the size of the divisor. -/
theorem srem_eq_abs (d : BitVec bits) :
    x.srem d = if x.toInt < 0 then 0 - (0 - x) % MachineNode.abs d else x % MachineNode.abs d := by
  rw [srem_eq, MachineNode.abs_eq, msb_eq_toInt, msb_eq_toInt]
  by_cases hx : x.toInt < 0 <;> by_cases hd : d.toInt < 0 <;> simp [hx, hd]

theorem sub_tdiv_mul (d : BitVec bits) :
    x - BitVec.ofInt bits (x.toInt.tdiv d.toInt.natAbs) * MachineNode.abs d = x.srem d := by
  have habs : BitVec.ofInt bits d.toInt.natAbs = MachineNode.abs d := by
    rw [ofInt_natCast, ← MachineNode.toNat_abs, ofNat_toNat, setWidth_eq]
  have hmod : x.toInt.tmod d.toInt = x.toInt.tmod d.toInt.natAbs := by
    rw [Int.natCast_natAbs]
    rcases abs_choice d.toInt with h | h <;> simp [h]
  rw [← BitVec.ofInt_toInt (x := x.srem d), toInt_srem, hmod, Int.tmod_def, Int.sub_eq_add_neg,
    ofInt_add, ofInt_neg, ofInt_mul, habs, BitVec.ofInt_toInt, BitVec.mul_comm, BitVec.sub_eq_add_neg]

/-- **Unsigned remainders by every constant are exact.** -/
theorem eval_reduceUintMod (dividend : MachineNode bits) (d : BitVec bits) :
    ∃ node, reduceUintMod dividend d = some node ∧
      ∀ n, node.eval n = if d = 0 then 0 else dividend.eval n % d := by
  unfold reduceUintMod
  split
  · next h => exact ⟨_, rfl, fun n => h⟩
  next hd =>
  split
  · next h => exact ⟨_, rfl, fun n => by rw [h]; exact umod_one.symm⟩
  split
  · next hpow => exact ⟨_, rfl, fun n => and_mask _ hd hpow⟩
  · next hpow =>
    obtain ⟨node, hnode, heval⟩ := eval_uintDiv hd
      (fun k hk => hpow ((isPowerOfTwo_iff hd).mpr ⟨k, hk⟩)) dividend
    refine ⟨_, by rw [hnode]; rfl, fun n => ?_⟩
    simp only [minusMultiple, eval, heval, MachineNode.eval, sub_udiv_mul]

/-- **Signed remainders by every constant are exact**, also where the divisor is the least number
or the quotient is negative. -/
theorem eval_reduceIntMod (hbits : 3 ≤ bits) (dividend : MachineNode bits) (d : BitVec bits) :
    ∃ node, reduceIntMod dividend d = some node ∧
      ∀ n, node.eval n = if d = 0 then 0 else (dividend.eval n).srem d := by
  have hword : ∀ c : ℤ, d.toInt = c → d = BitVec.ofInt bits c :=
    fun c hc => hc ▸ BitVec.ofInt_toInt.symm
  unfold reduceIntMod
  split
  · next h => exact ⟨_, rfl, fun n => h⟩
  next hd =>
  have hne : MachineNode.abs d ≠ 0 := by
    intro h
    have habs := MachineNode.toNat_abs d
    rw [h] at habs
    exact hd (hword 0 (Int.natAbs_eq_zero.mp (habs.symm.trans (Nat.zero_mod _))))
  split
  · next h =>
    have hneg : (-1 : BitVec bits).toInt = -1 := by
      rw [ofNat_eq_ofNat, neg_one_eq_allOnes, toInt_allOnes, if_pos (by omega)]
    refine ⟨_, rfl, fun n => ?_⟩
    rcases h with rfl | rfl
    · exact srem_one.symm
    · rw [srem_eq_abs, MachineNode.abs_eq, hneg]
      simp [eval, MachineNode.eval]
  next hunit =>
  dsimp only
  split
  · next hpow =>
    refine ⟨_, rfl, fun n => ?_⟩
    simp only [eval, MachineNode.eval, and_mask _ hne hpow, srem_eq_abs]
  · next hpow =>
    have hsize : 2 ≤ d.toInt.natAbs := by
      have h₀ : d.toInt ≠ 0 := fun h => hd (hword 0 h)
      have h₁ : d.toInt ≠ 1 := fun h => hunit (.inl (hword 1 h))
      have h₂ : d.toInt ≠ -1 := fun h => hunit (.inr ((hword (-1) h).trans (ofInt_neg ..)))
      omega
    obtain ⟨node, hnode, heval⟩ := eval_absQuotient hbits hsize dividend
    rw [if_neg hpow] at hnode
    refine ⟨_, by rw [hnode]; rfl, fun n => ?_⟩
    simp only [minusMultiple, eval, heval, MachineNode.eval, sub_tdiv_mul]

theorem eval_reduceIntMod_seven :
    ∃ node, reduceIntMod parameter (-7 : BitVec 32) = some node ∧
      node.eval (-100) = -2 := by
  obtain ⟨node, hnode, heval⟩ := eval_reduceIntMod (by decide) parameter (-7 : BitVec 32)
  exact ⟨node, hnode, (heval (-100)).trans (by decide)⟩

end RemainderNode
