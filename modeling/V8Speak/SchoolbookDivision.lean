import V8Speak.DivHelpers
import V8Speak.LongDivision
import V8Speak.Schoolbook

/-!
# Schoolbook division

`DivideSchoolbook` (`bigint/div-schoolbook.cc`), which is Knuth's Algorithm D.
Divisor and dividend are shifted to the left so that the divisor has its first
bit set. `U` holds what remains of the dividend, and one iteration, for the
position `j`, subtracts a multiple of the divisor from the window of `n + 1`
digits of `U` at `j`; the digits above the window are zero by then.

The quotient digit is estimated from the leading digits (`estimate`), which
needs one division of two digits by one, and a loop that looks at one more
digit (`correctEstimate`). `estimate_spec` says that the estimate is exact or
one too large; `reduce_spec`, that a single addition of the divisor corrects
the window if it was too large. The invariant of the iterations is that the
part of `U` from the window on is less than `digitBase` times the divisor,
which is what makes the estimate a digit.

The quotient is optional, and may lack the place of its first digit if that is
zero: the source asserts it. `Modulo` (`bigint/bigint-internal.cc`) asks for the
remainder alone, but has it wrong for a dividend below the divisor.
-/

open Interruption List Nat Processor Yields LongDivision

namespace SchoolbookDivision

open Digits

/-! ## The estimate -/

/-- `ProductGreaterThan`: `factor1 * factor2 > (high << kDigitBits) + low`. -/
def productGreaterThan (factor1 factor2 high low : Digit) : Bool :=
  let (resultLow, resultHigh) := digitMul factor1 factor2
  high < resultHigh || resultHigh = high && low < resultLow

theorem productGreaterThan_iff (factor1 factor2 high low : Digit) :
    productGreaterThan factor1 factor2 high low = true ↔
      high.toNat * digitBase + low.toNat < factor1.toNat * factor2.toNat := by
  have hmul := digitMul_spec factor1 factor2
  have hlow := digit_lt low
  have hlow' := digit_lt (digitMul factor1 factor2).1
  rw [productGreaterThan, ← hmul]
  generalize digitMul factor1 factor2 = result at *
  obtain ⟨resultLow, resultHigh⟩ := result
  dsimp only at hlow' ⊢
  simp only [Bool.or_eq_true, Bool.and_eq_true, decide_eq_true_eq, UInt64.lt_iff_toNat_lt,
    ← UInt64.toNat_inj]
  rcases Nat.lt_trichotomy high.toNat resultHigh.toNat with h | h | h
  · have := Nat.mul_le_mul_right digitBase (succ_le_of_lt h)
    rw [succ_mul, Nat.mul_comm resultHigh.toNat] at this
    exact iff_of_true (.inl h) (by omega)
  · rw [h, Nat.mul_comm digitBase]
    omega
  · have := Nat.mul_le_mul_right digitBase (succ_le_of_lt h)
    rw [succ_mul, Nat.mul_comm resultHigh.toNat] at this
    exact iff_of_false (by omega) (by omega)

theorem ne_zero_of_productGreaterThan {factor1 factor2 high low : Digit}
    (h : productGreaterThan factor1 factor2 high low = true) : factor1.toNat ≠ 0 := fun h0 => by
  rw [productGreaterThan_iff, h0, Nat.zero_mul] at h
  omega

theorem toNat_sub_one {d : Digit} (h : d.toNat ≠ 0) : (d - 1).toNat = d.toNat - 1 := by
  have hle : (1 : Digit).toNat ≤ d.toNat := one_le_iff_ne_zero.2 h
  rw [UInt64.toNat_sub_of_le d 1 (UInt64.le_iff_toNat_le.2 hle)]
  rfl

/-- The loop that decrements the estimate as needed by looking at the next digit. -/
def correctEstimate (vn1 vn2 ujn2 qhat rhat : Digit) : Digit :=
  if productGreaterThan qhat vn2 rhat ujn2 then
    -- the addition `rhat += vn1` is tested for overflow
    if rhat + vn1 < rhat then qhat - 1 else correctEstimate vn1 vn2 ujn2 (qhat - 1) (rhat + vn1)
  else qhat
termination_by qhat.toNat
decreasing_by
  have hne := ne_zero_of_productGreaterThan ‹_›
  rw [toNat_sub_one hne]
  exact sub_lt (Nat.pos_of_ne_zero hne) (by decide)

/-- D3: the estimate of the quotient digit at the position `j`. -/
def estimate (B U : Digits) (j : ℕ) : Option Digit := do
  let n := B.length
  let vn1 ← B[n - 1]?
  let ujn ← U[j + n]?
  if ujn = vn1 then return ~~~0
  let ujn1 ← U[j + n - 1]?
  let (qhat, rhat) ← digitDiv ujn ujn1 vn1
  let vn2 ← B[n - 2]?
  let ujn2 ← U[j + n - 2]?
  return correctEstimate vn1 vn2 ujn2 qhat rhat

/-- `InplaceSub(U + j, X)`, with the whole of `U` as the result. -/
def inplaceSub (U : Digits) (j : ℕ) (X : Digits) : Option (Digits × Digit) := do
  let (high, borrow) ← subtractAndReturnBorrow (U.drop j) (U.drop j) X
  return (U.take j ++ high, borrow)

/-- `InplaceAdd(U + j, X)`, with the whole of `U` as the result. -/
def inplaceAdd (U : Digits) (j : ℕ) (X : Digits) : Option (Digits × Digit) := do
  let (high, carry) ← addAndReturnCarry (U.drop j) (U.drop j) X
  return (U.take j ++ high, carry)

/-- One subtraction of the divisor is undone. -/
def addBack (B U : Digits) (j : ℕ) : Option Digits := do
  let (U, c) ← inplaceAdd U j B
  let top ← U[j + B.length]?
  return U.set (j + B.length) (top + c)

/-- D4: the multiple `qhatv` of the divisor is subtracted from the dividend. If there was a borrow,
the quotient digit was one too high. -/
def reduce (B U qhatv : Digits) (j : ℕ) (qhat : Digit) : Option (Digits × Digit) := do
  let (U, c) ← inplaceSub U j qhatv
  if c = 0 then return (U, qhat)
  let U ← addBack B U j
  return (U, qhat - 1)

/-- The multiple of the divisor, in the scratch space of `n + 1` digits. -/
def multiple (B : Digits) (qhat : Digit) : ProcessorM Digits :=
  if qhat = 0 then return List.replicate (B.length + 1) 0
  else multiplySingle (List.replicate (B.length + 1) 0) B qhat

/-- The quotient digit is stored, if there is a quotient. A digit without a place has to be
zero. -/
def storeDigit (Q : Digits) (j : ℕ) (qhat : Digit) : Option Digits := do
  if Q.length = 0 then return Q
  if Q.length ≤ j then
    dcheck (qhat = 0)
    return Q
  return Q.set j qhat

/-- D2: the iterations for the positions below `j`, from the highest to the lowest. -/
def iterations (B : Digits) : ℕ → Digits → Digits → ProcessorM (Digits × Digits)
  | 0, U, Q => return (U, Q)
  | j + 1, U, Q => do
    let qhat ← estimate B U j
    let qhatv ← multiple B qhat
    let (U, qhat) ← reduce B U qhatv j qhat
    let Q ← storeDigit Q j qhat
    iterations B j U Q

def qLengthOK (Q A B : Digits) : Bool :=
  if greaterThanOrEqual (slice A (A.length - B.length) B.length) B then
    A.length - B.length + 1 ≤ Q.length
  else A.length - B.length ≤ Q.length

/-- The last step, where a remainder was asked for: undoing the shift. -/
def remainder (R U : Digits) (shift : ℕ) : Option Digits :=
  if R.length = 0 then some R else DivHelpers.rightShift R U shift

/-- `DivideSchoolbook`: the quotient and the remainder, of which each is absent if its vector is
empty. -/
def divideSchoolbook (Q R A B : Digits) : ProcessorM (Digits × Digits) := do
  dcheck (2 ≤ B.length)
  dcheck (B.length ≤ A.length)
  dcheck (Q.length = 0 ∨ qLengthOK Q A B = true)
  dcheck (R.length = 0 ∨ B.length ≤ R.length)
  let m := A.length - B.length
  let (B, shift) ← DivHelpers.shiftedDigits B none
  let U ← DivHelpers.leftShift (List.replicate (A.length + 1) 0) A shift
  let (U, Q) ← iterations B (m + 1) U Q
  let R ← remainder R U shift
  return (Q.take (m + 1) ++ List.replicate (Q.length - (m + 1)) 0, R)

/-- The window of an iteration, with the three digits that the estimate reads. -/
theorem getElem?_window (lo w hi : Digits) (u₂ u₁ u₀ : Digit) :
    let U := lo ++ (w ++ [u₂, u₁, u₀]) ++ hi
    U[lo.length + w.length]? = some u₂ ∧ U[lo.length + w.length + 1]? = some u₁ ∧
      U[lo.length + w.length + 2]? = some u₀ := by
  refine ⟨?_, ?_, ?_⟩ <;> simp [Nat.add_assoc]

/-- The test for overflow. -/
theorem add_lt_self_iff (a b : Digit) : a + b < a ↔ digitBase ≤ a.toNat + b.toNat := by
  have ha := digit_lt a
  have hb := digit_lt b
  rw [UInt64.lt_iff_toNat_lt, UInt64.toNat_add]
  change (a.toNat + b.toNat) % digitBase < a.toNat ↔ _
  rcases Nat.lt_or_ge (a.toNat + b.toNat) digitBase with h | h
  · rw [mod_eq_of_lt h]
    omega
  · rw [mod_eq_sub_mod h, mod_eq_of_lt (by omega)]
    omega

/-- One decrement of the estimate. -/
theorem decrement {q v r t : ℕ} (hq : q ≠ 0) (ht : q * v + r = t) : (q - 1) * v + (r + v) = t := by
  obtain ⟨q, rfl⟩ := exists_eq_succ_of_ne_zero hq
  rw [← ht, succ_sub_one, succ_mul]
  omega

/-- **The loop**: the estimate stays at least the quotient digit, and passes the test in the
end. -/
theorem correctEstimate_spec {vn1 vn2 ujn2 : Digit} {V T M t : ℕ}
    (hV : LongDivision.Leads M (vn1.toNat * digitBase + vn2.toNat) V)
    (hT : LongDivision.Leads M (t * digitBase + ujn2.toNat) T) (qhat rhat : Digit)
    (ht : qhat.toNat * vn1.toNat + rhat.toNat = t) (hlow : T < (qhat.toNat + 1) * V) :
    let q := correctEstimate vn1 vn2 ujn2 qhat rhat
    T < (q.toNat + 1) * V ∧
      q.toNat * (vn1.toNat * digitBase + vn2.toNat) ≤ t * digitBase + ujn2.toNat := by
  fun_induction correctEstimate vn1 vn2 ujn2 qhat rhat with
  | case1 qhat rhat h hover =>
    have hne := ne_zero_of_productGreaterThan h
    have hless : T < qhat.toNat * V :=
      hV.lt_mul hT ((test_iff ht).1 ((productGreaterThan_iff _ _ _ _).1 h))
    dsimp only
    rw [toNat_sub_one hne, Nat.sub_add_cancel (one_le_iff_ne_zero.2 hne)]
    refine ⟨hless, test_of_remainder_ge (decrement hne ht)
      ((add_lt_self_iff _ _).1 hover) ?_ (digit_lt _)⟩
    have := digit_lt qhat
    omega
  | case2 qhat rhat h hover ih =>
    have hne := ne_zero_of_productGreaterThan h
    have hless : T < qhat.toNat * V :=
      hV.lt_mul hT ((test_iff ht).1 ((productGreaterThan_iff _ _ _ _).1 h))
    have hsum : (rhat + vn1).toNat = rhat.toNat + vn1.toNat :=
      toNat_add_of_lt (not_le.1 (mt (add_lt_self_iff _ _).2 hover))
    refine ih ?_ ?_
    · rw [toNat_sub_one hne, hsum]
      exact decrement hne ht
    · rwa [toNat_sub_one hne, Nat.sub_add_cancel (one_le_iff_ne_zero.2 hne)]
  | case3 qhat rhat h =>
    refine ⟨hlow, not_lt.1 fun hlt => h ?_⟩
    rw [productGreaterThan_iff]
    exact (test_iff ht).2 hlt

/-- The leading digits of a vector. -/
theorem leads_append (w x : Digits) :
    LongDivision.Leads (digitBase ^ w.length) (value x) (value (w ++ x)) := by
  have hw := value_lt w
  rw [value_append]
  refine ⟨by rw [Nat.mul_comm]; exact Nat.le_add_left _ _, ?_⟩
  rw [succ_mul, Nat.mul_comm (value x)]
  omega

theorem exists_append_of_le {X : Digits} {k : ℕ} (h : k ≤ X.length) :
    ∃ init last : Digits, X = init ++ last ∧ last.length = k :=
  ⟨X.take (X.length - k), X.drop (X.length - k), (take_append_drop _ X).symm, by
    rw [length_drop]
    omega⟩

/-- **The estimate** of the quotient digit is exact or one too large, and no digit is divided that
is not below the divisor. -/
theorem estimate_spec {B W : Digits} (lo hi : Digits) (hn : 2 ≤ B.length)
    (hW : W.length = B.length + 1)
    (hB : digitBase ^ B.length ≤ 2 * value B) (hlt : value W < digitBase * value B) :
    ∃ qhat, estimate B (lo ++ W ++ hi) lo.length = some qhat ∧
      value W < (qhat.toNat + 1) * value B ∧ qhat.toNat * value B < value W + value B := by
  -- the last two digits of the divisor, and the last three of the window
  obtain ⟨bl, last, rfl, hlast⟩ := exists_append_of_le hn
  obtain ⟨v₂, v₁, rfl⟩ := length_eq_two.1 hlast
  obtain ⟨w, last', rfl, hlast'⟩ := exists_append_of_le (show 3 ≤ W.length by omega)
  obtain ⟨u₂, u₁, u₀, rfl⟩ := length_eq_three.1 hlast'
  have hw : w.length = bl.length := by
    simpa using hW
  obtain ⟨hu₂, hu₁, hu₀⟩ := getElem?_window lo w hi u₂ u₁ u₀
  rw [hw] at hu₂ hu₁ hu₀
  -- the leading digits of both, two and one of the divisor, three and two of the window
  have hV₂ := leads_append bl [v₂, v₁]
  have hT₃ := leads_append w [u₂, u₁, u₀]
  have hV₁ := leads_append (bl ++ [v₂]) [v₁]
  have hT₂ := leads_append (w ++ [u₂]) [u₁, u₀]
  rw [hw, show value [u₂, u₁, u₀] = (u₀.toNat * digitBase + u₁.toNat) * digitBase + u₂.toNat by
    simp only [value_cons, value_nil]; ring] at hT₃
  rw [show value [v₂, v₁] = v₁.toNat * digitBase + v₂.toNat by
    simp only [value_cons, value_nil]; ring] at hV₂
  rw [append_assoc, length_append, hw, length_singleton,
    show value [u₁, u₀] = u₀.toNat * digitBase + u₁.toNat by
      simp only [value_cons, value_nil]; ring] at hT₂
  rw [append_assoc, length_append, length_singleton,
    show value [v₁] = v₁.toNat by simp only [value_cons, value_nil]; rfl] at hV₁
  have hlength : (bl ++ [v₂, v₁]).length = bl.length + 2 := by rw [length_append]; rfl
  have hle : u₀.toNat ≤ v₁.toNat := hV₁.first_le hT₂ hlt
  have hhalf : digitBase ≤ 2 * v₁.toNat + 1 := by
    rw [hlength] at hB
    refine hV₁.half_le ?_
    rw [← pow_succ']
    exact hB
  have hbase : 2 < digitBase := by decide
  have hv₁ : (bl ++ [v₂, v₁])[bl.length + 1]? = some v₁ := by simp
  have hv₂ : (bl ++ [v₂, v₁])[bl.length]? = some v₂ := by simp
  have hestimate : estimate (bl ++ [v₂, v₁]) (lo ++ (w ++ [u₂, u₁, u₀]) ++ hi) lo.length =
      if u₀ = v₁ then some (~~~0) else (digitDiv u₀ u₁ v₁).bind fun r =>
        some (correctEstimate v₁ v₂ u₂ r.1 r.2) := by
    rw [estimate, hlength]
    simp only [show bl.length + 2 - 1 = bl.length + 1 by omega,
      show bl.length + 2 - 2 = bl.length by omega, ← Nat.add_assoc,
      show lo.length + bl.length + 2 - 1 = lo.length + bl.length + 1 by omega,
      show lo.length + bl.length + 2 - 2 = lo.length + bl.length by omega, hv₁, hv₂, hu₂, hu₁, hu₀,
      Option.bind_eq_bind, Option.bind_some]
    rfl
  rw [hestimate]
  by_cases heq : u₀ = v₁
  · refine ⟨~~~0, if_pos heq, ?_, ?_⟩
    · exact hlt
    · refine hV₁.saturated ?_ hbase hhalf
      exact (Nat.mul_le_mul_right _ (heq ▸ Nat.le_add_right _ _)).trans hT₂.le
  · have hless : u₀.toNat < v₁.toNat := lt_of_le_of_ne hle (mt UInt64.toNat_inj.1 heq)
    obtain ⟨q, r, hdiv, -, hq, hqr⟩ := digitDiv_spec hless
    obtain ⟨hlow, htest⟩ := correctEstimate_spec hV₂ hT₃ q r hqr
      (hq ▸ hV₁.lt_succ_mul hT₂ (zero_lt_of_lt hless))
    refine ⟨correctEstimate v₁ v₂ u₂ q r, by rw [if_neg heq, hdiv]; rfl, hlow, ?_⟩
    have hpow : digitBase ^ (bl.length + 1) ≤ value (bl ++ [v₂, v₁]) :=
      (Nat.le_mul_of_pos_left _ (zero_lt_of_lt hless)).trans hV₁.le
    refine hV₂.mul_lt_add hT₃ htest ((digitBase_pow_pos _).trans_le hpow) ?_
    calc (correctEstimate v₁ v₂ u₂ q r).toNat * digitBase ^ bl.length
        ≤ digitBase * digitBase ^ bl.length := Nat.mul_le_mul_right _ (digit_lt _).le
      _ = digitBase ^ (bl.length + 1) := (pow_succ' _ _).symm
      _ ≤ value (bl ++ [v₂, v₁]) := hpow

/-! ## One iteration -/

/-- The divisor is added to the window, whose last digit may wrap around. -/
theorem addBack_spec {B W : Digits} (lo hi : Digits) (hW : W.length = B.length + 1) :
    ∃ W' k, addBack B (lo ++ (W ++ hi)) lo.length = some (lo ++ W' ++ hi) ∧
      W'.length = B.length + 1 ∧
      value W' + digitBase ^ (B.length + 1) * k = value W + value B := by
  obtain ⟨low, top, rfl⟩ : ∃ low top, W = low ++ [top] :=
    ⟨W.dropLast, _, (dropLast_append_getLast (ne_nil_of_length_pos (by omega : 0 < W.length))).symm⟩
  have hlen : B.length = low.length := by
    rw [length_append, length_singleton] at hW
    omega
  obtain ⟨low', c, hadd, hlow', hc, hval⟩ := addAndReturnCarry_window (top :: hi) hlen
  have hinplace : inplaceAdd (lo ++ (low ++ [top] ++ hi)) lo.length B =
      some (lo ++ (low' ++ top :: hi), c) := by
    rw [inplaceAdd, drop_left, append_assoc, singleton_append, hadd, take_left]
    rfl
  have hget : (lo ++ (low' ++ top :: hi))[lo.length + B.length]? = some top := by
    rw [hlen, ← hlow']
    simp
  have hset : (lo ++ (low' ++ top :: hi)).set (lo.length + B.length) (top + c) =
      lo ++ (low' ++ [top + c]) ++ hi := by
    rw [hlen, ← hlow']
    simp [set_append_right]
  refine ⟨low' ++ [top + c], (top.toNat + c.toNat) / digitBase, ?_, ?_, ?_⟩
  · rw [addBack, hinplace, Option.bind_eq_bind, Option.bind_some]
    dsimp only
    rw [hget, ← hset]
    rfl
  · rw [length_append, hlow', hlen]
    rfl
  · have hdigit : (top + c).toNat = (top.toNat + c.toNat) % digitBase := UInt64.toNat_add _ _
    have hmod := mod_add_div (top.toNat + c.toNat) digitBase
    rw [value_append, value_append, hlow', hlen, value_cons, value_cons, hdigit, pow_succ]
    linear_combination hval + digitBase ^ low.length * hmod

/-- **The window after an iteration** holds the remainder of the window before, and the digit is
the quotient. One addition of the divisor is enough to correct an estimate that is one too
large. -/
theorem reduce_spec {B W qhatv : Digits} {qhat : Digit} (lo hi : Digits)
    (hW : W.length = B.length + 1)
    (hlen : qhatv.length = B.length + 1) (hvalue : value qhatv = value B * qhat.toNat)
    (hlow : value W < (qhat.toNat + 1) * value B)
    (hhigh : qhat.toNat * value B < value W + value B) :
    ∃ W' q, reduce B (lo ++ W ++ hi) qhatv lo.length qhat = some (lo ++ W' ++ hi, q) ∧
      W'.length = W.length ∧ value W' < value B ∧ value W = value B * q.toNat + value W' := by
  obtain ⟨W₁, c, hsub, hW₁, hc, hsubval⟩ :=
    subtractAndReturnBorrow_window hi (hlen.trans hW.symm)
  have hW₁lt := value_lt W₁
  rw [hW₁] at hW₁lt
  have hinplace : inplaceSub (lo ++ W ++ hi) lo.length qhatv = some (lo ++ (W₁ ++ hi), c) := by
    rw [inplaceSub, append_assoc, drop_left, hsub, take_left]
    rfl
  rw [reduce, hinplace, Option.bind_eq_bind, Option.bind_some]
  dsimp only
  rw [hvalue] at hsubval
  by_cases hc0 : c = 0
  · -- the estimate was exact
    rw [hc0, UInt64.toNat_zero, Nat.mul_zero, Nat.add_zero] at hsubval
    refine ⟨W₁, qhat, by rw [if_pos hc0, append_assoc]; rfl, hW₁, ?_, by omega⟩
    rw [succ_mul, Nat.mul_comm] at hlow
    omega
  · have hc1 : c.toNat = 1 := by
      have : c.toNat ≠ 0 := mt (fun h => UInt64.toNat_inj.1 (h.trans UInt64.toNat_zero.symm)) hc0
      omega
    rw [hc1, Nat.mul_one, Nat.mul_comm] at hsubval
    have hq0 : qhat.toNat ≠ 0 := fun h0 => by
      rw [h0, Nat.zero_mul] at hsubval
      omega
    obtain ⟨q, hq⟩ := exists_eq_succ_of_ne_zero hq0
    rw [hq, succ_mul] at hsubval hhigh
    obtain ⟨W₂, k, hadd, hW₂, haddval⟩ := addBack_spec lo hi (hW₁.trans hW)
    have hW₂lt := value_lt W₂
    rw [hW₂, ← hW] at hW₂lt
    rw [← hW] at haddval
    have hBlt : value B < digitBase ^ W.length := value_lt_of_length_le (by omega)
    -- what was borrowed before is carried now
    have hk : digitBase ^ W.length * k = digitBase ^ W.length := by
      rcases Nat.lt_trichotomy k 1 with hk | rfl | hk
      · rw [lt_one_iff.1 hk, Nat.mul_zero] at haddval
        omega
      · rw [Nat.mul_one]
      · have := Nat.mul_le_mul_left (digitBase ^ W.length) hk
        omega
    refine ⟨W₂, qhat - 1, ?_, hW₂.trans hW.symm, ?_, ?_⟩
    · rw [if_neg hc0, hadd]
      rfl
    · omega
    · rw [toNat_sub_one hq0, hq, succ_sub_one, Nat.mul_comm]
      omega

theorem multiple_yields (B : Digits) (qhat : Digit) : Yields Live (multiple B qhat)
      (fun qhatv => qhatv.length = B.length + 1 ∧ value qhatv = value B * qhat.toNat) := by
  rw [multiple]
  by_cases h0 : qhat = 0
  · rw [if_pos h0]
    refine Yields.pure ⟨length_replicate, ?_⟩
    rw [value_replicate_zero, h0, UInt64.toNat_zero, Nat.mul_zero]
  · rw [if_neg h0]
    have hroom : B.length < (List.replicate (B.length + 1) (0 : Digit)).length := by
      rw [length_replicate]
      exact lt_succ_self _
    exact (multiplySingle_yields _ B qhat h0 hroom).mono fun qhatv h =>
      ⟨h.1.trans length_replicate, h.2⟩

/-- **The stored digits**, where one without a place is zero. -/
theorem storeDigit_spec {Q : Digits} {j : ℕ} {q : Digit} (h : Q ≠ [] → Q.length ≤ j → q = 0) :
    ∃ Q', storeDigit Q j q = some Q' ∧ Q'.length = Q.length ∧ ∀ low : Digits, low.length = j →
        low.take Q'.length ++ Q'.drop j = (low ++ [q]).take Q.length ++ Q.drop (j + 1) := by
  rw [storeDigit]
  by_cases h0 : Q.length = 0
  · refine ⟨Q, if_pos h0, rfl, fun low _ => ?_⟩
    rw [eq_nil_of_length_eq_zero h0]
    simp
  · rw [if_neg h0]
    by_cases hj : Q.length ≤ j
    · have hq := h (fun hnil => h0 (by rw [hnil]; rfl)) hj
      refine ⟨Q, by rw [if_pos hj, dcheck_pos hq]; rfl, rfl, fun low hlow => ?_⟩
      rw [drop_eq_nil_of_le hj, drop_eq_nil_of_le (by omega), take_append_of_le_length (by omega)]
    · refine ⟨Q.set j q, if_neg hj, length_set, fun low hlow => ?_⟩
      have hlt : j < (Q.set j q).length := by rw [length_set]; omega
      rw [length_set, take_of_length_le (by omega), take_of_length_le
        (by rw [length_append, length_singleton]; omega), drop_eq_getElem_cons hlt,
        getElem_set_self, drop_set_of_lt (lt_succ_self j), append_assoc]
      rfl

/-- The window of an iteration: the digits above it are zero. -/
theorem exists_window {B U : Digits} {j : ℕ} (hU : j + 1 + B.length ≤ U.length)
    (hlt : value (U.drop (j + 1)) < value B) :
    ∃ lo W hi, U = lo ++ W ++ hi ∧ lo.length = j ∧ W.length = B.length + 1 ∧ value hi = 0 ∧
      value W < digitBase * value B := by
  have hBlt := value_lt B
  have hsplit : U.drop j = (U.drop j).take (B.length + 1) ++ U.drop (j + (B.length + 1)) := by
    conv_lhs => rw [← take_append_drop (B.length + 1) (U.drop j), drop_drop]
  have hhi : value (U.drop (j + (B.length + 1))) = 0 := by
    rw [show j + (B.length + 1) = j + 1 + B.length by omega, ← drop_drop, value_drop]
    exact div_eq_of_lt (hlt.trans hBlt)
  refine ⟨U.take j, (U.drop j).take (B.length + 1), U.drop (j + (B.length + 1)), ?_, ?_, ?_, hhi, ?_⟩
  · rw [append_assoc, ← hsplit, take_append_drop]
  · exact length_take_of_le (by omega)
  · rw [length_take_of_le]
    rw [length_drop]
    omega
  · have hdrop := drop_eq_getElem_cons (show j < U.length by omega)
    have hvalue := congrArg value hsplit
    rw [value_append, hhi, Nat.mul_zero, Nat.add_zero, hdrop, value_cons] at hvalue
    have hdigit := digit_lt U[j]
    have := Nat.mul_le_mul_left digitBase (succ_le_of_lt hlt)
    rw [mul_succ] at this
    rw [hdrop, ← hvalue]
    omega

/-- **The iterations** divide: what remains of the dividend is less than the divisor, and the digits
stored are those of the quotient. -/
theorem iterations_yields {B : Digits} (hn : 2 ≤ B.length)
    (hB : digitBase ^ B.length ≤ 2 * value B) (j : ℕ) (U Q : Digits)
    (hU : j + B.length ≤ U.length) (hlt : value (U.drop j) < value B)
    (hQ : Q ≠ [] → value U < value B * digitBase ^ Q.length) :
    Yields Live (iterations B j U Q) (fun r => r.1.length = U.length ∧ value r.1 < value B ∧
      ∃ q : Digits, q.length = j ∧ value U = value B * value q + value r.1 ∧
        r.2 = q.take Q.length ++ Q.drop j) := by
  induction j generalizing U Q with
  | zero =>
    refine Yields.pure ⟨rfl, hlt, [], rfl, ?_, ?_⟩
    · rw [value_nil, Nat.mul_zero, Nat.zero_add]
    · rw [take_nil, nil_append, drop_zero]
  | succ j ih =>
    obtain ⟨lo, W, hi, rfl, rfl, hW, hhi, hWlt⟩ := exists_window hU hlt
    obtain ⟨qhat, hestimate, hlow, hhigh⟩ := estimate_spec lo hi hn hW hB hWlt
    refine lift_bind hestimate (Yields.bind (multiple_yields B qhat) fun qhatv hqhatv => ?_)
    obtain ⟨W', q, hreduce, hW', hW'lt, hdiv⟩ :=
      reduce_spec lo hi hW hqhatv.1 hqhatv.2 hlow hhigh
    refine lift_bind hreduce ?_
    have hvalue (W : Digits) :
        value (lo ++ W ++ hi) = value lo + digitBase ^ lo.length * value W := by
      rw [value_append, hhi, Nat.mul_zero, Nat.add_zero, value_append]
    have hlength : (lo ++ W' ++ hi).length = (lo ++ W ++ hi).length := by
      rw [length_append, length_append, length_append, length_append, hW']
    have hle : value (lo ++ W' ++ hi) ≤ value (lo ++ W ++ hi) := by
      rw [hvalue, hvalue]
      exact Nat.add_le_add_left (Nat.mul_le_mul_left _ (by omega)) _
    have hdigit : Q ≠ [] → Q.length ≤ lo.length → q = 0 := by
      intro hne hle
      have hsmall := (hQ hne).trans_le
        (Nat.mul_le_mul_left (value B) (Nat.pow_le_pow_right digitBase_pos hle))
      rw [hvalue, Nat.mul_comm (value B)] at hsmall
      have hWB : value W < value B * 1 := by
        rw [Nat.mul_one]
        exact Nat.lt_of_mul_lt_mul_left ((Nat.le_add_left _ _).trans_lt hsmall)
      rw [hdiv] at hWB
      exact UInt64.toNat_inj.1
        (lt_one_iff.1 (Nat.lt_of_mul_lt_mul_left ((Nat.le_add_right _ _).trans_lt hWB)))
    obtain ⟨Q', hstore, hQ', htake⟩ := storeDigit_spec hdigit
    refine lift_bind hstore ((ih (lo ++ W' ++ hi) Q' ?_ ?_ ?_).mono ?_)
    · rw [hlength]
      omega
    · rw [append_assoc, drop_left, value_append, hhi, Nat.mul_zero, Nat.add_zero]
      exact hW'lt
    · intro hne
      rw [hQ']
      exact hle.trans_lt (hQ (ne_nil_of_length_pos (hQ' ▸ length_pos_of_ne_nil hne)))
    · rintro ⟨U', Q''⟩ ⟨hU', hU'lt, low, hlowlen, hlowval, hQ''⟩
      refine ⟨hU'.trans hlength, hU'lt, low ++ [q], ?_, ?_, ?_⟩
      · rw [length_append, hlowlen, length_singleton]
      · rw [hvalue] at hlowval
        rw [hvalue, value_append, hlowlen, value_cons, value_nil, hdiv]
        linear_combination hlowval
      · exact hQ''.trans (htake low hlowlen)

/-! ## The division -/

/-- **The length of the quotient** is enough for it. -/
theorem lt_of_qLengthOK {Q A B : Digits} (hB : B.Normalized) (hne : B ≠ [])
    (hlen : B.length ≤ A.length) (h : qLengthOK Q A B = true) :
    value A < value B * digitBase ^ Q.length := by
  have hslice : value (slice A (A.length - B.length) B.length) =
      value A / digitBase ^ (A.length - B.length) := by
    rw [slice, take_of_length_le (by rw [length_drop]; omega), value_drop]
  rw [qLengthOK] at h
  by_cases hge : greaterThanOrEqual (slice A (A.length - B.length) B.length) B = true
  · rw [if_pos hge, decide_eq_true_iff] at h
    calc value A < digitBase ^ A.length := value_lt A
      _ = digitBase ^ (B.length - 1) * digitBase ^ (A.length - B.length + 1) := by
          have := length_pos_of_ne_nil hne
          rw [← pow_add]
          congr 1
          omega
      _ ≤ value B * digitBase ^ Q.length :=
          Nat.mul_le_mul (pow_le_value hB hne) (Nat.pow_le_pow_right digitBase_pos h)
  · rw [if_neg hge, decide_eq_true_iff] at h
    rw [greaterThanOrEqual_iff, hslice, not_le, Nat.div_lt_iff_lt_mul (digitBase_pow_pos _)] at hge
    exact hge.trans_le (Nat.mul_le_mul_left _ (Nat.pow_le_pow_right digitBase_pos h))

/-- The quotient vector after the last loop. -/
theorem value_quotient {Q q : Digits} {m : ℕ} (hq : q.length = m + 1)
    (hlt : Q ≠ [] → value q < digitBase ^ Q.length) :
    let Q' := q.take Q.length ++ Q.drop (m + 1)
    let Q'' := Q'.take (m + 1) ++ List.replicate (Q'.length - (m + 1)) 0
    Q''.length = Q.length ∧ (Q ≠ [] → value Q'' = value q) := by
  have hlength : (q.take Q.length ++ Q.drop (m + 1)).length = Q.length := by
    rw [length_append, length_take, length_drop, hq]
    omega
  have htake : (q.take Q.length ++ Q.drop (m + 1)).take (m + 1) = q.take Q.length := by
    rcases Nat.lt_or_ge Q.length (m + 1) with h | h
    · rw [drop_eq_nil_of_le h.le, append_nil, take_of_length_le]
      rw [length_take]
      omega
    · rw [take_of_length_le (hq.trans_le h), ← hq, take_left]
  dsimp only
  rw [htake, hlength, length_append, length_take, length_replicate, hq]
  refine ⟨by omega, fun hne => ?_⟩
  rw [value_append, value_replicate_zero, Nat.mul_zero, Nat.add_zero, value_take,
    mod_eq_of_lt (hlt hne)]

/-- Undoing the shift of dividend and divisor. -/
theorem unshift {a b q u c : ℕ} (hc : 0 < c) (h : a * c = b * c * q + u) (hu : u < b * c) :
    q = a / b ∧ u / c = a % b := by
  have hb : 0 < b := Nat.pos_of_ne_zero fun h0 => by
    rw [h0, Nat.zero_mul] at hu
    omega
  obtain ⟨r, rfl⟩ : c ∣ u := by
    have hdvd : c ∣ b * c * q + u := h ▸ Dvd.intro_left a rfl
    exact (Nat.dvd_add_right ⟨b * q, by ring⟩).1 hdvd
  have hr : r < b := Nat.lt_of_mul_lt_mul_left (by rwa [Nat.mul_comm b c] at hu)
  have ha : a = b * q + r := by
    refine eq_of_mul_eq_mul_right hc ?_
    rw [h]
    ring
  rw [Nat.mul_div_cancel_left r hc, ha, mul_add_div hb, div_eq_of_lt hr, mul_add_mod,
    mod_eq_of_lt hr]
  exact ⟨rfl, rfl⟩

/-- The remainder, of a vector `U` that fits where it goes. -/
theorem remainder_spec {R U : Digits} {shift n : ℕ} (hshift : shift < kDigitBits)
    (hU : value U < digitBase ^ n) (hR : R = [] ∨ n ≤ R.length) :
    ∃ R', remainder R U shift = some R' ∧ R'.length = R.length ∧
      (R ≠ [] → value R' = value U / 2 ^ shift) := by
  rw [remainder]
  rcases hR with rfl | hR
  · exact ⟨[], rfl, rfl, fun h => absurd rfl h⟩
  · split
    · next h0 => exact ⟨R, rfl, rfl, fun h => absurd (length_eq_zero_iff.1 h0) h⟩
    · obtain ⟨R', hrun, hlen, hvalue⟩ := DivHelpers.rightShift_spec hshift
        ((length_normalize_le_of_lt hU).trans hR)
      exact ⟨R', hrun, hlen, fun _ => hvalue⟩

/-- **`DivideSchoolbook` divides.** -/
theorem divideSchoolbook_yields {Q R A B : Digits} (hB : B.Normalized) (hn : 2 ≤ B.length)
    (hlen : B.length ≤ A.length) (hQ : Q = [] ∨ qLengthOK Q A B = true)
    (hR : R = [] ∨ B.length ≤ R.length) :
    Yields Live (divideSchoolbook Q R A B) (fun r =>
      r.1.length = Q.length ∧ r.2.length = R.length ∧
      (Q ≠ [] → value r.1 = value A / value B) ∧ (R ≠ [] → value r.2 = value A % value B)) := by
  have hne : B ≠ [] := ne_nil_of_length_pos (by omega)
  obtain ⟨V, shift, hshifted, hshift, hV, hVvalue, hhalf⟩ := DivHelpers.shiftedDigits_spec hB hne
  have hAlt := value_lt A
  have hpow := Nat.two_pow_pos shift
  have hU : value A * 2 ^ shift <
      digitBase ^ (List.replicate (A.length + 1) (0 : Digit)).length := by
    rw [length_replicate, pow_succ]
    exact Nat.mul_lt_mul'' hAlt (Nat.pow_lt_pow_right (by decide) hshift)
  obtain ⟨U, hleft, hUlen, hUvalue⟩ := DivHelpers.leftShift_spec hshift
    (by rw [length_replicate]; omega) hU
  rw [length_replicate] at hUlen
  refine lift_bind (dcheck_pos hn) (lift_bind (dcheck_pos hlen) ?_)
  refine lift_bind (dcheck_pos (hQ.imp (fun h => by rw [h]; rfl) id)) ?_
  refine lift_bind (dcheck_pos (hR.imp (fun h => by rw [h]; rfl) id)) ?_
  refine lift_bind hshifted (lift_bind hleft ?_)
  refine Yields.bind (iterations_yields (by omega) (by rw [hV]; exact hhalf) (A.length - B.length + 1)
    U Q (by omega) ?_ ?_) ?_
  · -- the top digits of the dividend, shifted
    rw [value_drop, hUvalue, hVvalue, Nat.div_lt_iff_lt_mul (digitBase_pow_pos _)]
    calc value A * 2 ^ shift < digitBase ^ A.length * 2 ^ shift :=
          Nat.mul_lt_mul_of_pos_right hAlt hpow
      _ = digitBase ^ (B.length - 1) * 2 ^ shift * digitBase ^ (A.length - B.length + 1) := by
          rw [Nat.mul_right_comm, ← pow_add]
          congr 2
          omega
      _ ≤ value B * 2 ^ shift * digitBase ^ (A.length - B.length + 1) :=
          Nat.mul_le_mul_right _ (Nat.mul_le_mul_right _ (pow_le_value hB hne))
  · intro hQne
    rw [hUvalue, hVvalue, Nat.mul_right_comm]
    exact Nat.mul_lt_mul_of_pos_right (lt_of_qLengthOK hB hne hlen (hQ.resolve_left hQne)) hpow
  · rintro ⟨U', Q'⟩ ⟨-, hlt, q, hq, heq, rfl⟩
    rw [hUvalue, hVvalue] at heq
    rw [hVvalue] at hlt
    obtain ⟨hquot, hrem⟩ := unshift hpow heq hlt
    obtain ⟨R', hR', hRlen, hRvalue⟩ := remainder_spec hshift
      (hlt.trans (hVvalue ▸ hV ▸ value_lt V)) hR
    have hfit : Q ≠ [] → value q < digitBase ^ Q.length := fun hQne => by
      rw [hquot, Nat.div_lt_iff_lt_mul (hB.value_pos hne), Nat.mul_comm]
      exact lt_of_qLengthOK hB hne hlen (hQ.resolve_left hQne)
    obtain ⟨hQlen, hQvalue⟩ := value_quotient hq hfit
    refine lift_bind hR' (Yields.pure ⟨hQlen, hRlen, fun hne => ?_, fun hne => ?_⟩)
    · rw [hQvalue hne, hquot]
    · rw [hRvalue hne, hrem]

/-- **Knuth's algorithm is exact.** The run passes every check that the model carries: `digit_div`
is called with a high digit below the divisor only, and a quotient digit without a slot is zero.
The second half is about the estimates: in each window that the loop can come to, which is below
the divisor times the base, the corrected estimate is the quotient digit or one more, so that one
addition undoes it. -/
theorem divideSchoolbook_exact (p : Processor) {Q R A B : Digits} (hB : B.Normalized)
    (hn : 2 ≤ B.length) (hlen : B.length ≤ A.length) (hQ : Q = [] ∨ qLengthOK Q A B = true)
    (hR : R = [] ∨ B.length ≤ R.length) :
    (∃ Q' R' p' q r, (divideSchoolbook Q R A B).run p = some ((Q', R'), p') ∧
      Q'.length = Q.length ∧ R'.length = R.length ∧
      value A = q * value B + r ∧ r < value B ∧
      (Q ≠ [] → value Q' = q) ∧ (R ≠ [] → value R' = r)) ∧
    ∃ V shift, DivHelpers.shiftedDigits B none = some (V, shift) ∧
      ∀ lo W hi : Digits, W.length = V.length + 1 → value W < digitBase * value V →
        ∃ qhat, estimate V (lo ++ W ++ hi) lo.length = some qhat ∧
          (qhat.toNat = value W / value V ∨ qhat.toNat = value W / value V + 1) := by
  have hne : B ≠ [] := ne_nil_of_length_pos (by omega)
  refine ⟨?_, ?_⟩
  · obtain ⟨⟨Q', R'⟩, p', hrun, ⟨hQlen, hRlen, hQvalue, hRvalue⟩, -⟩ :=
      divideSchoolbook_yields hB hn hlen hQ hR p
    refine ⟨Q', R', p', value A / value B, value A % value B, hrun, hQlen, hRlen, ?_,
      mod_lt _ (hB.value_pos hne), hQvalue, hRvalue⟩
    rw [Nat.mul_comm, div_add_mod]
  · obtain ⟨V, shift, hshifted, -, hV, -, hhalf⟩ := DivHelpers.shiftedDigits_spec hB hne
    have hpos : 0 < value V := by
      have := digitBase_pow_pos B.length
      omega
    rw [← hV] at hn hhalf
    refine ⟨V, shift, hshifted, fun lo W hi hW hlt => ?_⟩
    obtain ⟨qhat, hrun, hlow, hhigh⟩ := estimate_spec lo hi hn hW hhalf hlt
    have hbounds := div_le_and_le_of_estimate hpos hlow hhigh
    exact ⟨qhat, hrun, by omega⟩

/-- Three digits by two, with room for the quotient and the remainder. -/
theorem divideSchoolbook_exact_three_by_two :
    ∃ Q' R' p' q r, (divideSchoolbook [9, 9] [9, 9] [5, 6, 7] [3, 8]).run
        ⟨0, .kOk, fun _ => true, 0⟩ = some ((Q', R'), p') ∧
      Q'.length = 2 ∧ R'.length = 2 ∧ value [5, 6, 7] = q * value [3, 8] + r ∧
      r < value [3, 8] ∧ value Q' = q ∧ value R' = r := by
  obtain ⟨⟨Q', R', p', q, r, hrun, hQ, hR, heq, hlt, hq, hr⟩, -⟩ :=
    divideSchoolbook_exact ⟨0, .kOk, fun _ => true, 0⟩ (Q := [9, 9]) (R := [9, 9]) (A := [5, 6, 7])
      (B := [3, 8]) (by decide) (by decide) (by decide) (.inr (by decide)) (.inr (by decide))
  exact ⟨Q', R', p', q, r, hrun, hQ, hR, heq, hlt, hq (by decide), hr (by decide)⟩

/-! ## The remainder -/

/-- `for (int i = length - 1; i >= 0; i--) digit_div(*remainder, A[i], b, remainder);` -/
def divideSingleLoop (b : Digit) : Digits → Option Digit
  | [] => some 0
  | a :: A => do return (← digitDiv (← divideSingleLoop b A) a b).2

/-- `DivideSingle` without a quotient. -/
def divideSingle (A : Digits) (b : Digit) : Option Digit := do
  dcheck (b ≠ 0)
  dcheck (0 < A.length)
  divideSingleLoop b A

def kBurnikelThreshold : ℕ := 57

/-- `ProcessorImpl::Modulo`, with the algorithms for long divisors as a parameter. For a dividend
below the divisor, the divisor is copied. -/
def modulo (large : Digits → Digits → Digits → ProcessorM Digits) (R A B : Digits) :
    ProcessorM Digits := do
  let A := normalize A
  let B := normalize B
  dcheck (0 < B.length)
  let cmp := Digits.compare A B
  if cmp < 0 then store R B
  else if cmp = 0 then return List.replicate R.length 0
  else if B.length = 1 then store R [← divideSingle A (B.headD 0)]
  else if B.length < kBurnikelThreshold then return (← divideSchoolbook [] R A B).2
  else large R A B

theorem divideSingleLoop_spec {b : Digit} (hb : b ≠ 0) (A : Digits) :
    ∃ r, divideSingleLoop b A = some r ∧ r.toNat = value A % b.toNat := by
  have hpos : 0 < b.toNat := Nat.pos_of_ne_zero fun h => hb (UInt64.toNat_inj.mp h)
  induction A with
  | nil => exact ⟨0, rfl, (zero_mod _).symm⟩
  | cons a A ih =>
    obtain ⟨r, hrun, hr⟩ := ih
    obtain ⟨q, r', hdiv, hlt, -, heq⟩ := @digitDiv_spec r a b (hr ▸ mod_lt _ hpos)
    have hstep : divideSingleLoop b (a :: A) = some r' := by
      simp only [divideSingleLoop, hrun, hdiv, Option.bind_eq_bind, Option.bind_some]
      rfl
    refine ⟨r', hstep, ?_⟩
    rw [value_cons, ← mod_eq_of_lt hlt, ← Nat.mul_add_mod_self_right q.toNat, heq, hr,
      Nat.add_comm a.toNat, Nat.mul_comm digitBase]
    exact ((mod_modEq _ _).mul_right _).add_right _

theorem store_yields {Z digits : Digits} (h : digits.length ≤ Z.length) :
    Yields Live (liftM (store Z digits) : ProcessorM Digits)
      (fun Z' => Z'.length = Z.length ∧ value Z' = value digits) := by
  obtain ⟨Z', hstore, hZ'⟩ := store_of_le h
  rw [hstore]
  exact Yields.pure hZ'

theorem modulo_yields (large : Digits → Digits → Digits → ProcessorM Digits) {R A B : Digits}
    (hB : 0 < value B) (hshort : (normalize B).length < kBurnikelThreshold)
    (hR : (normalize B).length ≤ R.length) :
    Yields Live (modulo large R A B) (fun R' => R'.length = R.length ∧
      value R' = if value A < value B then value B else value A % value B) := by
  obtain ⟨hlt, heq⟩ := compare_decides (normalize A) (normalize B)
  rw [value_normalize, value_normalize] at hlt heq
  have hpos : 0 < (normalize B).length := by
    refine length_pos_of_ne_nil fun h => hB.ne' ?_
    rw [← value_normalize, h, value_nil]
  refine Yields.lift_bind (dcheck_pos hpos) ?_
  dsimp only
  split
  · next h =>
    rw [if_pos (hlt.mp h), ← value_normalize B]
    exact store_yields hR
  have hge : ¬ value A < value B := by omega
  have hlen := length_normalize_mono (Nat.le_of_not_lt hge)
  rw [if_neg hge]
  split
  · next h => exact Yields.pure ⟨length_replicate, by simp [heq.mp h]⟩
  split
  · next h1 =>
    obtain ⟨b, hb⟩ := length_eq_one_iff.mp h1
    have hval : value B = b.toNat := by rw [← value_normalize, hb]; simp
    have hb0 : b ≠ 0 := by rintro rfl; exact hB.ne' hval
    obtain ⟨r, hloop, hr⟩ := divideSingleLoop_spec hb0 (normalize A)
    have hrun : divideSingle (normalize A) b = some r := by
      simp only [divideSingle, dcheck_pos hb0, dcheck_pos (hpos.trans_le hlen),
        Option.bind_eq_bind, Option.bind_some, hloop]
    rw [value_normalize, ← hval] at hr
    rw [hb, ← hr, show r.toNat = value [r] by simp]
    exact Yields.lift_bind hrun (store_yields (by rw [length_singleton]; omega))
  · refine Yields.bind (divideSchoolbook_yields (normalize_normalized B) (by omega) hlen (.inl rfl)
      (.inr hR)) fun r hr => Yields.pure ⟨hr.2.1, ?_⟩
    rw [hr.2.2.2 (ne_nil_of_length_pos (by omega)), value_normalize, value_normalize]

/-- **`Modulo` gives the remainder exactly for a dividend that is not below the divisor**; for one
that is, it gives the divisor. -/
theorem modulo_remainder_iff (large : Digits → Digits → Digits → ProcessorM Digits)
    {R A B : Digits} (hB : 0 < value B) (hshort : (normalize B).length < kBurnikelThreshold)
    (hR : (normalize B).length ≤ R.length) (p : Processor) :
    ∃ R' p', (modulo large R A B).run p = some (R', p') ∧ R'.length = R.length ∧
      (value R' = value A % value B ↔ value B ≤ value A) ∧
      (value A < value B → value R' = value B) := by
  obtain ⟨R', p', hrun, ⟨hlen, hval⟩, -⟩ := modulo_yields large hB hshort hR p
  refine ⟨R', p', hrun, hlen, ?_, fun h => by rw [hval, if_pos h]⟩
  rw [hval]
  split
  · next h =>
    rw [mod_eq_of_lt h]
    omega
  · next h => exact iff_of_true rfl (Nat.le_of_not_lt h)

/-- Five modulo seven. -/
theorem modulo_remainder_iff_five :
    ∃ R' p', (modulo (fun R _ _ => return R) [0] [5] [7]).run ⟨0, .kOk, fun _ => true, 0⟩ =
      some (R', p') ∧ value R' = 7 := by
  obtain ⟨R', p', hrun, -, -, hval⟩ := modulo_remainder_iff (fun R _ _ => return R) (R := [0])
    (A := [5]) (B := [7]) (by decide) (by decide) (by decide) ⟨0, .kOk, fun _ => true, 0⟩
  exact ⟨R', p', hrun, hval (by decide)⟩

end SchoolbookDivision
