import V8Speak.DiyFp

/-!
# Numbers of many bigits

The class `Bignum` of `base/numbers/bignum.cc`, as far as the conversion of decimal numbers
uses it. A number is a sequence of bigits of 28 bits, the lowest first, followed downwards by
as many bigits zero as the exponent says. There is room for 128 bigits: an operation that
needs more does not return, which is `none` here. A bigit is kept in a word of 32 bits, and
the products are computed in words of 64 bits.

The operations are compared with the numbers themselves. `of m e` is the bignum without
leading zeros whose bigits are those of `m` and whose exponent is `e`, so that it stands for
`m * 2 ^ (28 * e)`. Each operation takes such a bignum to the one of the exact result, as
long as the result has room:

* `assignUInt64_eq` – the bigits of a word of 64 bits;
* `addUInt64_of` – the sum with such a word;
* `multiplyByUInt32_of`, `multiplyByUInt64_of` – the products, whose carry loops are instances
  of `carryLoop_of`;
* `shiftLeft_of`, `multiplyByPowerOfTen_of` – the products with powers of two and of ten;
* `compare_of` – the order of the numbers.

At the end this is said of the numbers alone (`Represents`).
-/

open Nat

/-- What is left of a number in an unsigned word of 32 bits. -/
def uint32 (n : ℕ) : ℕ := n % 2 ^ 32

theorem uint32_of_lt {n : ℕ} (h : n < 2 ^ 32) : uint32 n = n := mod_eq_of_lt h

/-- A number of bigits of 28 bits. -/
structure Bignum where
  /-- The bigits in use, the lowest first. Those of the buffer that are not in use are zero. -/
  bigits : List ℕ
  /-- How many bigits below the lowest one are zero and left out. -/
  exponent : ℕ
  deriving DecidableEq, Repr

namespace Bignum

def kBigitSize : ℕ := 28
def kBigitMask : ℕ := 1 <<< kBigitSize - 1
def kMaxSignificantBits : ℕ := 3584
def kBigitCapacity : ℕ := kMaxSignificantBits / kBigitSize

/-- `EnsureCapacity` does not return if there is no room for so many bigits. -/
def ensureCapacity (size : ℕ) : Option Unit := if size > kBigitCapacity then none else some ()

/-- `Zero`, which is also what a new number is. -/
def zero : Bignum := ⟨[], 0⟩

/-- How many bigits a number has, with those that are left out. -/
def bigitLength (x : Bignum) : ℕ := x.bigits.length + x.exponent

/-- `Clamp` drops the leading zeros. -/
def clamp (x : Bignum) : Bignum :=
  let bigits := x.bigits.rdropWhile (· = 0)
  ⟨bigits, if bigits = [] then 0 else x.exponent⟩

/-- The loop of `AssignUInt64`. -/
def assignLoop (value : ℕ) : ℕ → List ℕ
  | 0 => []
  | n + 1 => (value &&& kBigitMask) :: assignLoop (value >>> kBigitSize) n

def assignUInt64 (value : ℕ) : Option Bignum :=
  if value = 0 then some zero
  else
    let neededBigits := 64 / kBigitSize + 1
    (ensureCapacity neededBigits).map fun _ => clamp ⟨assignLoop value neededBigits, 0⟩

/-- `Align` turns zeros that are left out into bigits, until the exponent is at most that of
the other number. -/
def align (x other : Bignum) : Option Bignum :=
  if x.exponent > other.exponent then
    let zeroDigits := x.exponent - other.exponent
    (ensureCapacity (x.bigits.length + zeroDigits)).map fun _ =>
    ⟨List.replicate zeroDigits 0 ++ x.bigits, x.exponent - zeroDigits⟩
  else some x

/-- What a carry leaves in bigits that were zero. -/
def carryBigits (carry : ℕ) : List ℕ :=
  if _h : carry = 0 then []
  else (carry &&& kBigitMask) :: carryBigits (carry >>> kBigitSize)
termination_by carry
decreasing_by
  rw [shiftRight_eq_div_pow]
  exact div_lt_self (pos_of_ne_zero _h) (by decide)

/-- The second loop of `AddBignum`, which goes on as long as there is a carry. -/
def addCarry (carry : ℕ) : List ℕ → List ℕ
  | [] => carryBigits carry
  | bigit :: bigits =>
    if carry = 0 then bigit :: bigits
    else
      let sum := uint32 (bigit + carry)
      (sum &&& kBigitMask) :: addCarry (sum >>> kBigitSize) bigits

/-- The loops of `AddBignum`, from the lowest bigit of the other number on. -/
def addLoop (carry : ℕ) (bigits : List ℕ) : List ℕ → List ℕ
  | [] => addCarry carry bigits
  | otherBigit :: otherBigits =>
    let sum := uint32 (bigits.headD 0 + otherBigit + carry)
    (sum &&& kBigitMask) :: addLoop (sum >>> kBigitSize) bigits.tail otherBigits

def addBignum (x other : Bignum) : Option Bignum :=
  (x.align other).bind fun x =>
  (ensureCapacity (1 + max x.bigitLength other.bigitLength - x.exponent)).map fun _ =>
  let bigitPos := other.exponent - x.exponent
  let below := (x.bigits ++ List.replicate (bigitPos - x.bigits.length) 0).take bigitPos
  ⟨below ++ addLoop 0 (x.bigits.drop bigitPos) other.bigits, x.exponent⟩

def addUInt64 (x : Bignum) (operand : ℕ) : Option Bignum :=
  if operand = 0 then some x else (assignUInt64 operand).bind x.addBignum

/-- A loop over the bigits in use that replaces each of them and hands on a carry. The last
carry is returned too. -/
def carryLoop (step : ℕ → ℕ → ℕ × ℕ) (carry : ℕ) : List ℕ → List ℕ × ℕ
  | [] => ([], carry)
  | bigit :: bigits =>
    let replaced := step carry bigit
    let rest := carryLoop step replaced.2 bigits
    (replaced.1 :: rest.1, rest.2)

/-- A round of the loop of `BigitsShiftLeft`. -/
def shiftStep (shiftAmount carry bigit : ℕ) : ℕ × ℕ :=
  (uint32 (uint32 (bigit <<< shiftAmount) + carry) &&& kBigitMask,
    bigit >>> (kBigitSize - shiftAmount))

def bigitsShiftLeft (x : Bignum) (shiftAmount : ℕ) : Bignum :=
  let (bigits, carry) := carryLoop (shiftStep shiftAmount) 0 x.bigits
  ⟨if carry ≠ 0 then bigits ++ [carry] else bigits, x.exponent⟩

def shiftLeft (x : Bignum) (shiftAmount : ℕ) : Option Bignum :=
  if x.bigits.length = 0 then some x
  else
    let localShift := shiftAmount % kBigitSize
    (ensureCapacity (x.bigits.length + 1)).map fun _ =>
    bigitsShiftLeft ⟨x.bigits, x.exponent + shiftAmount / kBigitSize⟩ localShift

/-- The loop of the multiplications that appends what is left of the carry. -/
def pushCarry (bigits : List ℕ) (carry : ℕ) : Option (List ℕ) :=
  if _h : carry = 0 then some bigits
  else
    (ensureCapacity (bigits.length + 1)).bind fun _ =>
    pushCarry (bigits ++ [carry &&& kBigitMask]) (carry >>> kBigitSize)
termination_by carry
decreasing_by
  rw [shiftRight_eq_div_pow]
  exact div_lt_self (pos_of_ne_zero _h) (by decide)

/-- The bigits after the loops of a multiplication. -/
def multiplyLoops (step : ℕ → ℕ → ℕ × ℕ) (x : Bignum) : Option Bignum :=
  let (bigits, carry) := carryLoop step 0 x.bigits
  (pushCarry bigits carry).map fun bigits => ⟨bigits, x.exponent⟩

/-- A round of the first loop of `MultiplyByUInt32`. -/
def multiplyStep32 (factor carry bigit : ℕ) : ℕ × ℕ :=
  let product := uint64 (uint64 (factor * bigit) + carry)
  (product &&& kBigitMask, product >>> kBigitSize)

def multiplyByUInt32 (x : Bignum) (factor : ℕ) : Option Bignum :=
  if factor = 1 then some x
  else if factor = 0 then some zero
  else if x.bigits.length = 0 then some x
  else multiplyLoops (multiplyStep32 factor) x

/-- A round of the first loop of `MultiplyByUInt64`, which multiplies with the halves of the
factor. -/
def multiplyStep64 (factor carry bigit : ℕ) : ℕ × ℕ :=
  let low := factor &&& 0xFFFFFFFF
  let high := factor >>> 32
  let productLow := uint64 (low * bigit)
  let productHigh := uint64 (high * bigit)
  let tmp := uint64 ((carry &&& kBigitMask) + productLow)
  (tmp &&& kBigitMask,
    uint64 (uint64 ((carry >>> kBigitSize) + (tmp >>> kBigitSize)) +
      uint64 (productHigh <<< (32 - kBigitSize))))

def multiplyByUInt64 (x : Bignum) (factor : ℕ) : Option Bignum :=
  if factor = 1 then some x
  else if factor = 0 then some zero
  else multiplyLoops (multiplyStep64 factor) x

def kFive27 : ℕ := 0x6765C793FA10079D
def kFive13 : ℕ := 1220703125

def kFive1To12 : List ℕ :=
  [5, 25, 125, 625, 3125, 15625, 78125, 390625, 1953125, 9765625, 48828125, 244140625]

/-- The loops of `MultiplyByPowerOfTen`, which multiply with a power of five. -/
def multiplyByFives (x : Bignum) (remainingExponent : ℕ) : Option Bignum :=
  if remainingExponent ≥ 27 then
    (x.multiplyByUInt64 kFive27).bind fun x => x.multiplyByFives (remainingExponent - 27)
  else if remainingExponent ≥ 13 then
    (x.multiplyByUInt32 kFive13).bind fun x => x.multiplyByFives (remainingExponent - 13)
  else if remainingExponent > 0 then
    (kFive1To12[remainingExponent - 1]?).bind x.multiplyByUInt32
  else some x
termination_by remainingExponent

def multiplyByPowerOfTen (x : Bignum) (exponent : ℕ) : Option Bignum :=
  if exponent = 0 then some x
  else if x.bigits.length = 0 then some x
  else (x.multiplyByFives exponent).bind fun x => x.shiftLeft exponent

/-- `ReadUInt64`: the number with these digits. -/
def readUInt64 (digits : List (Fin 10)) : ℕ :=
  digits.foldl (fun result digit => uint64 (uint64 (result * 10) + digit.val)) 0

def kMaxUint64DecimalDigits : ℕ := 19

/-- What both calls in `AssignDecimalString` do with the next digits. -/
def appendDigits (x : Bignum) (digits : List (Fin 10)) : Option Bignum :=
  (x.multiplyByPowerOfTen digits.length).bind fun x => x.addUInt64 (readUInt64 digits)

/-- The loop of `AssignDecimalString`, and what follows it. -/
def assignDigits (x : Bignum) (value : List (Fin 10)) : Option Bignum :=
  if _h : value.length ≥ kMaxUint64DecimalDigits then
    (x.appendDigits (value.take kMaxUint64DecimalDigits)).bind fun x =>
    x.assignDigits (value.drop kMaxUint64DecimalDigits)
  else (x.appendDigits value).map clamp
termination_by value.length
decreasing_by
  rw [List.length_drop]
  dsimp only [kMaxUint64DecimalDigits] at *
  omega

def assignDecimalString (value : List (Fin 10)) : Option Bignum := zero.assignDigits value

def bigitAt (x : Bignum) (index : ℕ) : ℕ :=
  if index ≥ x.bigitLength then 0
  else if index < x.exponent then 0
  else x.bigits.getD (index - x.exponent) 0

/-- The loop of `Compare` over the bigits from `lowest` on, of which `n` are left. -/
def compareLoop (a b : Bignum) (lowest : ℕ) : ℕ → Ordering
  | 0 => .eq
  | n + 1 =>
    let bigitA := a.bigitAt (lowest + n)
    let bigitB := b.bigitAt (lowest + n)
    if bigitA < bigitB then .lt
    else if bigitA > bigitB then .gt
    else compareLoop a b lowest n

/-- `Compare`, whose results `-1`, `0` and `+1` are the orderings. -/
def compare (a b : Bignum) : Ordering :=
  if a.bigitLength < b.bigitLength then .lt
  else if a.bigitLength > b.bigitLength then .gt
  else
    let lowest := min a.exponent b.exponent
    compareLoop a b lowest (a.bigitLength - lowest)

/-! ## The bignum of a number -/

/-- The bignum of `m * 2 ^ (28 * e)` without leading zeros. -/
def of (m e : ℕ) : Bignum := ⟨digits (2 ^ 28) m, e⟩

/-- The number that the bignum `of m e` stands for. -/
def number (m e : ℕ) : ℕ := (2 ^ 28) ^ e * m

theorem and_kBigitMask (n : ℕ) : n &&& kBigitMask = n % 2 ^ 28 := and_two_pow_sub_one_eq_mod n 28

theorem shiftRight_kBigitSize (n : ℕ) : n >>> kBigitSize = n / 2 ^ 28 :=
  shiftRight_eq_div_pow n 28

theorem ensureCapacity_of_le {size : ℕ} (h : size ≤ 128) : ensureCapacity size = some () :=
  if_neg (not_lt.2 h)

/-- **A number has room** if it is small enough. -/
theorem length_digits_le {k n : ℕ} (h : n < (2 ^ 28) ^ k) : (digits (2 ^ 28) n).length ≤ k :=
  (digits_length_le_iff (by norm_num) n).2 h

theorem digits_of_pos {n : ℕ} (h : 0 < n) :
    digits (2 ^ 28) n = n % 2 ^ 28 :: digits (2 ^ 28) (n / 2 ^ 28) :=
  digits_def' (by norm_num) h

theorem headD_digits (n : ℕ) : (digits (2 ^ 28) n).headD 0 = n % 2 ^ 28 := by
  rcases n.eq_zero_or_pos with rfl | h
  · rw [digits_zero]
    rfl
  · rw [digits_of_pos h]
    rfl

theorem tail_digits (n : ℕ) : (digits (2 ^ 28) n).tail = digits (2 ^ 28) (n / 2 ^ 28) := by
  rcases n.eq_zero_or_pos with rfl | h
  · rw [digits_zero, Nat.zero_div, digits_zero]
    rfl
  · rw [digits_of_pos h]
    rfl

theorem length_digits_pos {n : ℕ} (h : 0 < n) : (digits (2 ^ 28) n).length ≠ 0 := by
  rw [digits_of_pos h]
  exact succ_ne_zero _

/-- The exponent stands for bigits that are zero. -/
theorem digits_number {m : ℕ} (hm : 0 < m) (e : ℕ) :
    digits (2 ^ 28) (number m e) = List.replicate e 0 ++ digits (2 ^ 28) m :=
  digits_base_pow_mul (by norm_num) hm

/-! ## Assignment -/

theorem ofDigits_rdropWhile (b : ℕ) (bigits : List ℕ) :
    ofDigits b (bigits.rdropWhile (· = 0)) = ofDigits b bigits := by
  induction bigits using List.reverseRecOn with
  | nil => rfl
  | append_singleton bigits bigit ih =>
    rw [List.rdropWhile_concat]
    split
    · rename_i hzero
      rw [ih, of_decide_eq_true hzero, ofDigits_append_zero]
    · rfl

theorem rdropWhile_eq_digits {bigits : List ℕ} (h : ∀ bigit ∈ bigits, bigit < 2 ^ 28) :
    bigits.rdropWhile (· = 0) = digits (2 ^ 28) (ofDigits (2 ^ 28) bigits) := by
  rw [← ofDigits_rdropWhile]
  refine (digits_ofDigits _ (by norm_num) _ (fun bigit hbigit => ?_) fun hne => ?_).symm
  · exact h bigit ((List.rdropWhile_prefix _ _).subset hbigit)
  · exact fun hzero => List.rdropWhile_last_not _ _ hne (decide_eq_true hzero)

/-- Without its leading zeros a number is the one of its bigits. -/
theorem clamp_eq_of {bigits : List ℕ} (h : ∀ bigit ∈ bigits, bigit < 2 ^ 28) :
    clamp ⟨bigits, 0⟩ = of (ofDigits (2 ^ 28) bigits) 0 := by
  rw [clamp, of, ← rdropWhile_eq_digits h]
  dsimp only
  rw [ite_self]

/-- The loop takes the lowest bigits off one by one. -/
theorem assignLoop_spec (value n : ℕ) :
    (∀ bigit ∈ assignLoop value n, bigit < 2 ^ 28) ∧
      ofDigits (2 ^ 28) (assignLoop value n) = value % (2 ^ 28) ^ n := by
  induction n generalizing value with
  | zero => exact ⟨nofun, (mod_one _).symm⟩
  | succ n ih =>
    obtain ⟨hlt, hvalue⟩ := ih (value / 2 ^ 28)
    rw [assignLoop, and_kBigitMask, shiftRight_kBigitSize, List.forall_mem_cons, ofDigits_cons,
      hvalue, pow_succ' (2 ^ 28) n, mod_mul]
    exact ⟨⟨mod_lt _ (by norm_num), hlt⟩, rfl⟩

/-- **A word of 64 bits** has room in three bigits. -/
theorem assignUInt64_eq {value : ℕ} (h : value < 2 ^ 64) :
    assignUInt64 value = some (of value 0) := by
  rw [assignUInt64]
  split_ifs with hzero
  · rw [hzero, of, digits_zero]
    rfl
  · obtain ⟨hlt, hvalue⟩ := assignLoop_spec value 3
    dsimp only
    rw [show 64 / kBigitSize + 1 = 3 from rfl, ensureCapacity_of_le (by decide), Option.map_some,
      clamp_eq_of hlt, hvalue, mod_eq_of_lt (h.trans (by norm_num))]

/-! ## Addition -/

/-- What is left of a carry are its bigits. -/
theorem carryBigits_eq (carry : ℕ) : carryBigits carry = digits (2 ^ 28) carry := by
  induction carry using Nat.strong_induction_on with
  | _ carry ih =>
    rw [carryBigits]
    split_ifs with hzero
    · rw [hzero, digits_zero]
    · have hpos : 0 < carry := pos_of_ne_zero hzero
      rw [shiftRight_kBigitSize, ih _ (div_lt_self hpos (by norm_num)), and_kBigitMask,
        digits_of_pos hpos]

/-- A carry runs upwards as long as it has to. -/
theorem addCarry_digits {carry : ℕ} (hcarry : carry ≤ 1) (m : ℕ) :
    addCarry carry (digits (2 ^ 28) m) = digits (2 ^ 28) (m + carry) := by
  induction m using Nat.strong_induction_on generalizing carry with
  | _ m ih =>
    rcases m.eq_zero_or_pos with rfl | hpos
    · rw [digits_zero, addCarry, carryBigits_eq, Nat.zero_add]
    · rw [digits_of_pos hpos, addCarry]
      split_ifs with hzero
      · rw [hzero, Nat.add_zero, digits_of_pos hpos]
      · have hsum : m % 2 ^ 28 + carry < 2 ^ 32 := by omega
        dsimp only
        rw [uint32_of_lt hsum, and_kBigitMask, shiftRight_kBigitSize,
          ih (m / 2 ^ 28) (div_lt_self hpos (by norm_num)) (by omega),
          digits_of_pos (by omega : 0 < m + carry),
          show (m + carry) / 2 ^ 28 = m / 2 ^ 28 + (m % 2 ^ 28 + carry) / 2 ^ 28 by omega,
          mod_add_mod]

/-- **The loops of the addition** add. The carry is at most one. -/
theorem addLoop_digits {carry : ℕ} (hcarry : carry ≤ 1) (m n : ℕ) :
    addLoop carry (digits (2 ^ 28) m) (digits (2 ^ 28) n) = digits (2 ^ 28) (m + n + carry) := by
  induction n using Nat.strong_induction_on generalizing m carry with
  | _ n ih =>
    rcases n.eq_zero_or_pos with rfl | hpos
    · rw [digits_zero, addLoop, addCarry_digits hcarry, Nat.add_zero]
    · have hsum : m % 2 ^ 28 + n % 2 ^ 28 + carry < 2 ^ 32 := by omega
      have hmod : (m % 2 ^ 28 + n % 2 ^ 28 + carry) % 2 ^ 28 = (m + n + carry) % 2 ^ 28 := by omega
      have hdiv : (m + n + carry) / 2 ^ 28 =
          m / 2 ^ 28 + n / 2 ^ 28 + (m % 2 ^ 28 + n % 2 ^ 28 + carry) / 2 ^ 28 := by omega
      rw [digits_of_pos hpos, addLoop, headD_digits, tail_digits, uint32_of_lt hsum,
        and_kBigitMask, shiftRight_kBigitSize,
        ih (n / 2 ^ 28) (div_lt_self hpos (by norm_num)) (by omega) (m / 2 ^ 28), hmod, ← hdiv,
        ← digits_of_pos (by omega : 0 < m + n + carry)]

/-- Aligning keeps the number, whose exponent becomes zero. -/
theorem align_of {m e : ℕ} (hm : m = 0 → e = 0) (n : ℕ) (hroom : number m e < (2 ^ 28) ^ 128) :
    (of m e).align (of n 0) = some (of (number m e) 0) := by
  rcases e.eq_zero_or_pos with rfl | he
  · rw [number, pow_zero, one_mul]
    rfl
  · have hdigits := digits_number (pos_of_ne_zero fun h => he.ne' (hm h)) e
    have hlength := length_digits_le hroom
    rw [hdigits, List.length_append, List.length_replicate, Nat.add_comm] at hlength
    rw [align, if_pos (show (of m e).exponent > (of n 0).exponent from he)]
    dsimp only [of]
    rw [Nat.sub_zero, ensureCapacity_of_le hlength, Option.map_some, hdigits, Nat.sub_self]

/-- **The sum** of a number and one without an exponent. -/
theorem addBignum_of {m e n : ℕ} (hm : m = 0 → e = 0) (hroom : number m e + n < (2 ^ 28) ^ 127) :
    (of m e).addBignum (of n 0) = some (of (number m e + n) 0) := by
  have hroom' : number m e < (2 ^ 28) ^ 127 := (Nat.le_add_right _ n).trans_lt hroom
  have hm' := length_digits_le hroom'
  have hn := length_digits_le ((Nat.le_add_left n _).trans_lt hroom)
  rw [addBignum, align_of hm n (hroom'.trans (Nat.pow_lt_pow_right (by norm_num) (by norm_num))),
    Option.bind_some, ensureCapacity_of_le (by dsimp only [bigitLength, of]; omega),
    Option.map_some]
  dsimp only [of]
  rw [Nat.sub_self, List.take_zero, List.drop_zero, List.nil_append,
    addLoop_digits (Nat.zero_le 1), Nat.add_zero]

/-- **The sum** with a word of 64 bits. -/
theorem addUInt64_of {m n : ℕ} (hn : n < 2 ^ 64) (hroom : m + n < (2 ^ 28) ^ 127) :
    (of m 0).addUInt64 n = some (of (m + n) 0) := by
  have hnumber : number m 0 = m := by rw [number, pow_zero, one_mul]
  rw [addUInt64]
  split_ifs with hzero
  · rw [hzero, Nat.add_zero]
  · rw [assignUInt64_eq hn, Option.bind_some, addBignum_of (fun _ => rfl) (by rwa [hnumber]),
      hnumber]

/-! ## Multiplication -/

/-- A round of a loop that multiplies: the carry stays below the factor. -/
def Multiplies (factor : ℕ) (step : ℕ → ℕ → ℕ × ℕ) : Prop :=
  ∀ carry bigit, carry < factor → bigit < 2 ^ 28 →
    step carry bigit = ((factor * bigit + carry) % 2 ^ 28, (factor * bigit + carry) / 2 ^ 28)

section Loops

variable {factor : ℕ} {step : ℕ → ℕ → ℕ × ℕ} (hstep : Multiplies factor step)

include hstep

/-- **A loop that multiplies**: the bigits of the product are those it leaves, followed by
those of the last carry. -/
theorem carryLoop_of {carry : ℕ} (hcarry : carry < factor) (m : ℕ) :
    (carryLoop step carry (digits (2 ^ 28) m)).1 ++
        digits (2 ^ 28) (carryLoop step carry (digits (2 ^ 28) m)).2 =
      digits (2 ^ 28) (factor * m + carry) ∧
    (carryLoop step carry (digits (2 ^ 28) m)).2 < factor := by
  induction m using Nat.strong_induction_on generalizing carry with
  | _ m ih =>
    rcases m.eq_zero_or_pos with rfl | hpos
    · rw [digits_zero, carryLoop, Nat.mul_zero, Nat.zero_add]
      exact ⟨rfl, hcarry⟩
    · have hbigit : m % 2 ^ 28 < 2 ^ 28 := mod_lt _ (by norm_num)
      -- the carry of a round is below the factor again
      have hnext : (factor * (m % 2 ^ 28) + carry) / 2 ^ 28 < factor := by
        rw [Nat.div_lt_iff_lt_mul (by norm_num)]
        calc factor * (m % 2 ^ 28) + carry < factor * (m % 2 ^ 28) + factor := by omega
          _ = factor * (m % 2 ^ 28 + 1) := by ring
          _ ≤ factor * 2 ^ 28 := Nat.mul_le_mul_left _ hbigit
      have hsplit : factor * m + carry =
          factor * (m % 2 ^ 28) + carry + 2 ^ 28 * (factor * (m / 2 ^ 28)) := by
        conv_lhs => rw [← mod_add_div m (2 ^ 28)]
        ring
      have hproduct : 0 < factor * m + carry :=
        add_pos_of_pos_of_nonneg (Nat.mul_pos (by omega) hpos) (Nat.zero_le _)
      obtain ⟨hbigits, hlast⟩ := ih (m / 2 ^ 28) (div_lt_self hpos (by norm_num)) hnext
      rw [digits_of_pos hpos, carryLoop, hstep _ _ hcarry hbigit]
      dsimp only
      refine ⟨?_, hlast⟩
      rw [List.cons_append, hbigits, digits_of_pos hproduct, hsplit, add_mul_mod_self_left,
        add_mul_div_left _ _ (show 0 < 2 ^ 28 by norm_num),
        Nat.add_comm (_ / _)]

omit hstep in
theorem pushCarry_eq (bigits : List ℕ) (carry : ℕ)
    (hroom : (bigits ++ digits (2 ^ 28) carry).length ≤ 128) :
    pushCarry bigits carry = some (bigits ++ digits (2 ^ 28) carry) := by
  induction carry using Nat.strong_induction_on generalizing bigits with
  | _ carry ih =>
    rw [pushCarry]
    split_ifs with hzero
    · rw [hzero, digits_zero, List.append_nil]
    · have hpos : 0 < carry := pos_of_ne_zero hzero
      rw [digits_of_pos hpos, List.append_cons] at hroom
      have hlength : bigits.length + 1 ≤ 128 := by
        rw [List.length_append, List.length_append, List.length_singleton] at hroom
        omega
      rw [ensureCapacity_of_le hlength, Option.bind_some, and_kBigitMask, shiftRight_kBigitSize,
        ih _ (div_lt_self hpos (by norm_num)) _ hroom, ← List.append_cons, ← digits_of_pos hpos]

/-- **The loops of a multiplication** multiply if the product has room. -/
theorem multiplyLoops_of (hfactor : 0 < factor) {m : ℕ} (e : ℕ)
    (hroom : factor * m < (2 ^ 28) ^ 128) :
    multiplyLoops step (of m e) = some (of (factor * m) e) := by
  obtain ⟨hbigits, -⟩ := carryLoop_of hstep hfactor m
  rw [Nat.add_zero] at hbigits
  have hlength := length_digits_le hroom
  rw [← hbigits] at hlength
  dsimp only [multiplyLoops, of]
  rw [pushCarry_eq _ _ hlength, hbigits, Option.map_some]

end Loops

/-- A shift within a bigit multiplies by a power of two. -/
theorem multiplies_shiftStep {s : ℕ} (hs : s < 28) : Multiplies (2 ^ s) (shiftStep s) := by
  intro carry bigit hcarry hbigit
  have hsize : 2 ^ 28 = 2 ^ s * 2 ^ (28 - s) := by rw [← pow_add, Nat.add_sub_cancel' hs.le]
  dsimp only [shiftStep]
  rw [and_kBigitMask, shiftLeft_eq, shiftRight_eq_div_pow, uint32, uint32, mod_add_mod,
    mod_mod_of_dvd _ (Nat.pow_dvd_pow 2 (by norm_num)), Nat.mul_comm bigit]
  refine Prod.ext rfl ?_
  dsimp only [kBigitSize]
  rw [hsize, ← Nat.div_div_eq_div_mul, Nat.mul_add_div (by positivity), div_eq_of_lt hcarry,
    Nat.add_zero]

/-- The product of a bigit and a word of 32 bits has room in a word of 64 bits. -/
theorem multiplies_multiplyStep32 {factor : ℕ} (h : factor < 2 ^ 32) :
    Multiplies factor (multiplyStep32 factor) := by
  intro carry bigit hcarry hbigit
  have hproduct : factor * bigit ≤ 2 ^ 32 * 2 ^ 28 := Nat.mul_le_mul h.le hbigit.le
  dsimp only [multiplyStep32]
  rw [uint64_of_lt (n := factor * bigit) (by omega), uint64_of_lt (by omega), and_kBigitMask,
    shiftRight_kBigitSize]

/-- The halves of the factor are multiplied apart, and nothing is lost: `2 ^ 32` is
`2 ^ 28 * 2 ^ 4`, so the upper product goes to the carry. -/
theorem multiplies_multiplyStep64 {factor : ℕ} (h : factor < 2 ^ 64) :
    Multiplies factor (multiplyStep64 factor) := by
  intro carry bigit hcarry hbigit
  have hlow : factor &&& 0xFFFFFFFF = factor % 2 ^ 32 := and_two_pow_sub_one_eq_mod factor 32
  have hproductLow : factor % 2 ^ 32 * bigit ≤ 2 ^ 32 * 2 ^ 28 :=
    Nat.mul_le_mul (mod_lt _ (by norm_num)).le hbigit.le
  have hproductHigh : factor / 2 ^ 32 * bigit ≤ (2 ^ 32 - 1) * (2 ^ 28 - 1) :=
    Nat.mul_le_mul (by omega) (by omega)
  have hproduct : factor * bigit =
      factor % 2 ^ 32 * bigit + 2 ^ 32 * (factor / 2 ^ 32 * bigit) := by
    conv_lhs => rw [← mod_add_div factor (2 ^ 32)]
    ring
  have hnext : (factor * bigit + carry) / 2 ^ 28 < 2 ^ 64 := by
    have : factor * bigit ≤ factor * (2 ^ 28 - 1) := Nat.mul_le_mul_left _ (by omega)
    omega
  dsimp only [multiplyStep64]
  rw [hlow, shiftRight_eq_div_pow factor 32, shiftLeft_eq]
  generalize factor % 2 ^ 32 * bigit = low at *
  generalize factor / 2 ^ 32 * bigit = high at *
  rw [hproduct] at hnext ⊢
  rw [uint64_of_lt (n := low) (by omega), uint64_of_lt (n := high) (by omega), and_kBigitMask,
    and_kBigitMask, shiftRight_kBigitSize, shiftRight_kBigitSize,
    uint64_of_lt (n := carry % 2 ^ 28 + low) (by omega),
    uint64_of_lt (n := high * 2 ^ (32 - kBigitSize)) (by dsimp only [kBigitSize]; omega)]
  dsimp only [kBigitSize]
  rw [uint64_of_lt (n := carry / 2 ^ 28 + (carry % 2 ^ 28 + low) / 2 ^ 28) (by omega),
    uint64_of_lt (by omega)]
  refine Prod.ext ?_ ?_ <;> dsimp only <;> omega

theorem of_length_pos {m : ℕ} (hm : 0 < m) (e : ℕ) : (of m e).bigits.length ≠ 0 :=
  length_digits_pos hm

/-- **A shift by less than a bigit.** -/
theorem bigitsShiftLeft_of {s : ℕ} (hs : s < 28) (m e : ℕ) :
    (of m e).bigitsShiftLeft s = of (2 ^ s * m) e := by
  obtain ⟨hbigits, hcarry⟩ := carryLoop_of (multiplies_shiftStep hs) (by positivity) m
  rw [Nat.add_zero] at hbigits
  dsimp only [bigitsShiftLeft, of]
  rw [← hbigits]
  generalize carryLoop (shiftStep s) 0 (digits (2 ^ 28) m) = result at *
  split_ifs with hzero
  · have hlt : result.2 < 2 ^ 28 := hcarry.trans (Nat.pow_lt_pow_right (by norm_num) hs)
    rw [digits_of_lt _ _ hzero hlt]
  · rw [not_not.1 hzero, digits_zero, List.append_nil]

/-- **A shift** adds whole bigits to the exponent. -/
theorem shiftLeft_of {m : ℕ} (hm : 0 < m) (e s : ℕ) (hroom : m < (2 ^ 28) ^ 127) :
    (of m e).shiftLeft s = some (of (2 ^ (s % 28) * m) (e + s / 28)) := by
  have hlength : (of m e).bigits.length + 1 ≤ 128 :=
    Nat.add_le_add_right (length_digits_le hroom) 1
  rw [shiftLeft, if_neg (of_length_pos hm e)]
  dsimp only
  rw [ensureCapacity_of_le hlength, Option.map_some]
  exact congrArg some (bigitsShiftLeft_of (mod_lt s (by norm_num)) m (e + s / 28))

/-- **The product** with a word of 32 bits. -/
theorem multiplyByUInt32_of {m factor : ℕ} (hm : 0 < m) (hfactor : 0 < factor)
    (h : factor < 2 ^ 32) (e : ℕ) (hroom : factor * m < (2 ^ 28) ^ 128) :
    (of m e).multiplyByUInt32 factor = some (of (factor * m) e) := by
  rw [multiplyByUInt32, if_neg hfactor.ne', if_neg (of_length_pos hm e)]
  split_ifs with hone
  · rw [hone, one_mul]
  · exact multiplyLoops_of (multiplies_multiplyStep32 h) hfactor e hroom

/-- **The product** with a word of 64 bits. -/
theorem multiplyByUInt64_of {m factor : ℕ} (hfactor : 0 < factor) (h : factor < 2 ^ 64) (e : ℕ)
    (hroom : factor * m < (2 ^ 28) ^ 128) :
    (of m e).multiplyByUInt64 factor = some (of (factor * m) e) := by
  rw [multiplyByUInt64, if_neg hfactor.ne']
  split_ifs with hone
  · rw [hone, one_mul]
  · exact multiplyLoops_of (multiplies_multiplyStep64 h) hfactor e hroom

/-- The table has the powers of five. -/
theorem getElem?_kFive1To12 {k : ℕ} (hpos : 0 < k) (hlt : k < 13) :
    kFive1To12[k - 1]? = some (5 ^ k) := by
  interval_cases k <;> rfl

/-- **The powers of five** are multiplied by in pieces of 27, 13 and less. -/
theorem multiplyByFives_of {m : ℕ} (hm : 0 < m) (e k : ℕ) (hroom : 5 ^ k * m < (2 ^ 28) ^ 128) :
    (of m e).multiplyByFives k = some (of (5 ^ k * m) e) := by
  induction k using Nat.strong_induction_on generalizing m with
  | _ k ih =>
    -- a piece that is taken off, and what is left
    have hpiece {j : ℕ} (hj : j ≤ k) : 5 ^ (k - j) * (5 ^ j * m) = 5 ^ k * m := by
      rw [← mul_assoc, ← pow_add, Nat.sub_add_cancel hj]
    have hle {j : ℕ} (hj : j ≤ k) : 5 ^ j * m < (2 ^ 28) ^ 128 :=
      (Nat.mul_le_mul_right m (Nat.pow_le_pow_right (by norm_num) hj)).trans_lt hroom
    rw [multiplyByFives]
    split_ifs with h27 h13 hpos
    · rw [show kFive27 = 5 ^ 27 by norm_num [kFive27],
        multiplyByUInt64_of (by norm_num) (by norm_num) e (hle h27), Option.bind_some,
        ih (k - 27) (by omega) (by positivity) (by rwa [hpiece h27]), hpiece h27]
    · rw [show kFive13 = 5 ^ 13 by norm_num [kFive13],
        multiplyByUInt32_of hm (by norm_num) (by norm_num) e (hle h13), Option.bind_some,
        ih (k - 13) (by omega) (by positivity) (by rwa [hpiece h13]), hpiece h13]
    · have hfive : 5 ^ k < 2 ^ 32 :=
        (Nat.pow_le_pow_right (by norm_num) (not_le.1 h13).le).trans_lt
          (by norm_num : 5 ^ 13 < 2 ^ 32)
      rw [getElem?_kFive1To12 hpos (not_le.1 h13), Option.bind_some,
        multiplyByUInt32_of hm (by positivity) hfive e hroom]
    · rw [Nat.eq_zero_of_not_pos hpos, pow_zero, one_mul]

/-- **The product** with a power of ten: a power of five and a shift. -/
theorem multiplyByPowerOfTen_of {m : ℕ} (hm : 0 < m) (e k : ℕ)
    (hroom : 5 ^ k * m < (2 ^ 28) ^ 127) :
    (of m e).multiplyByPowerOfTen k = some (of (2 ^ (k % 28) * (5 ^ k * m)) (e + k / 28)) := by
  rw [multiplyByPowerOfTen]
  split_ifs with hzero hlength
  · rw [hzero, Nat.zero_mod, Nat.zero_div, pow_zero, pow_zero, one_mul, one_mul, Nat.add_zero]
  · exact absurd hlength (of_length_pos hm e)
  · rw [multiplyByFives_of hm e k (hroom.trans (Nat.pow_lt_pow_right (by norm_num) (by norm_num))),
      Option.bind_some, shiftLeft_of (by positivity) e k hroom]

/-- A shift is a product with a power of two. -/
theorem number_shift (m e s : ℕ) : number (2 ^ (s % 28) * m) (e + s / 28) = 2 ^ s * number m e := by
  have hpow : 2 ^ s = 2 ^ (s % 28) * (2 ^ 28) ^ (s / 28) := by
    rw [← pow_mul, ← pow_add, mod_add_div]
  rw [number, number, hpow, pow_add]
  ring

/-! ## Comparison -/

theorem bigitLength_of {m : ℕ} (hm : 0 < m) (e : ℕ) :
    (of m e).bigitLength = (digits (2 ^ 28) (number m e)).length := by
  rw [digits_number hm, List.length_append, List.length_replicate, Nat.add_comm]
  rfl

/-- A bigit is a digit of the number. -/
theorem bigitAt_of {m : ℕ} (hm : 0 < m) (e i : ℕ) :
    (of m e).bigitAt i = number m e / (2 ^ 28) ^ i % 2 ^ 28 := by
  rw [← getD_digits _ _ (by norm_num), bigitAt, bigitLength_of hm]
  split_ifs with hlength hexponent
  · rw [List.getD_eq_default _ _ hlength]
  · rw [digits_number hm, List.getD_append _ _ _ _ (by rwa [List.length_replicate]),
      List.getD_replicate _ (show i < e from hexponent)]
  · rw [digits_number hm, List.getD_append_right _ _ _ _
      (by rw [List.length_replicate]; exact not_lt.1 hexponent), List.length_replicate]
    rfl

theorem pow_dvd_number {lowest e : ℕ} (h : lowest ≤ e) (m : ℕ) :
    number m e % (2 ^ 28) ^ lowest = 0 :=
  mod_eq_zero_of_dvd ((pow_dvd_pow _ h).mul_right m)

/-- **The loop of the comparison** compares what is below the bigit it begins at. -/
theorem compareLoop_of {m n e f lowest : ℕ} (hm : 0 < m) (hn : 0 < n) (he : lowest ≤ e)
    (hf : lowest ≤ f) (k : ℕ) :
    compareLoop (of m e) (of n f) lowest k =
      Ord.compare (number m e % (2 ^ 28) ^ (lowest + k))
        (number n f % (2 ^ 28) ^ (lowest + k)) := by
  induction k with
  | zero =>
    rw [compareLoop, Nat.add_zero, pow_dvd_number he, pow_dvd_number hf]
    rfl
  | succ k ih =>
    have hlow (x : ℕ) : x % (2 ^ 28) ^ (lowest + k) < (2 ^ 28) ^ (lowest + k) :=
      mod_lt _ (by positivity)
    have hsplit (x : ℕ) : x % (2 ^ 28) ^ (lowest + k + 1) = x % (2 ^ 28) ^ (lowest + k) +
        (2 ^ 28) ^ (lowest + k) * (x / (2 ^ 28) ^ (lowest + k) % 2 ^ 28) := mod_pow_succ
    have hm' := hlow (number m e)
    have hn' := hlow (number n f)
    rw [compareLoop, ih, bigitAt_of hm, bigitAt_of hn, ← Nat.add_assoc, hsplit, hsplit]
    generalize number m e % (2 ^ 28) ^ (lowest + k) = x at *
    generalize number n f % (2 ^ 28) ^ (lowest + k) = y at *
    generalize number m e / (2 ^ 28) ^ (lowest + k) % 2 ^ 28 = a
    generalize number n f / (2 ^ 28) ^ (lowest + k) % 2 ^ 28 = b
    generalize (2 ^ 28) ^ (lowest + k) = p at *
    split_ifs with hlt hgt
    · refine (compare_lt_iff_lt.2 ?_).symm
      calc x + p * a < p * (a + 1) := by rw [Nat.mul_add_one]; omega
        _ ≤ p * b := Nat.mul_le_mul_left p hlt
        _ ≤ y + p * b := Nat.le_add_left ..
    · refine (compare_gt_iff_gt.2 ?_).symm
      calc y + p * b < p * (b + 1) := by rw [Nat.mul_add_one]; omega
        _ ≤ p * a := Nat.mul_le_mul_left p hgt
        _ ≤ x + p * a := Nat.le_add_left ..
    · rw [le_antisymm (not_lt.1 hgt) (not_lt.1 hlt)]
      simp only [compare_eq_ite_lt, Nat.add_lt_add_iff_right]

/-- **The comparison** is that of the numbers. -/
theorem compare_of {m n : ℕ} (hm : 0 < m) (hn : 0 < n) (e f : ℕ) :
    compare (of m e) (of n f) = Ord.compare (number m e) (number n f) := by
  have hlength {x y : ℕ} (h : (digits (2 ^ 28) x).length < (digits (2 ^ 28) y).length) : x < y := by
    by_contra hle
    exact absurd (le_length_digits_le _ _ _ (not_lt.1 hle)) (not_le.2 h)
  rw [compare, bigitLength_of hm, bigitLength_of hn]
  split_ifs with hlt hgt
  · exact (compare_lt_iff_lt.2 (hlength hlt)).symm
  · exact (compare_gt_iff_gt.2 (hlength hgt)).symm
  · have hsame := le_antisymm (not_lt.1 hgt) (not_lt.1 hlt)
    have hexponent : min e f ≤ (digits (2 ^ 28) (number m e)).length := by
      rw [← bigitLength_of hm]
      exact (min_le_left e f).trans (Nat.le_add_left ..)
    have hnumber := lt_base_pow_length_digits (b := 2 ^ 28) (m := number m e) (by norm_num)
    have hnumber' := lt_base_pow_length_digits (b := 2 ^ 28) (m := number n f) (by norm_num)
    dsimp only [of]
    rw [← of, ← of, compareLoop_of hm hn (min_le_left e f) (min_le_right e f),
      Nat.add_sub_cancel' hexponent, mod_eq_of_lt hnumber, hsame, mod_eq_of_lt hnumber']

/-! ## Positive numbers with room -/

/-- A bignum that stands for the positive number `n`, has no leading zeros and has at most `k`
bigits. -/
def Represents (x : Bignum) (n k : ℕ) : Prop :=
  ∃ m e, x = of m e ∧ 0 < m ∧ m < (2 ^ 28) ^ k ∧ number m e = n

/-- A number without an exponent. -/
theorem represents_of {m k : ℕ} (hm : 0 < m) (hroom : m < (2 ^ 28) ^ k) :
    (of m 0).Represents m k :=
  ⟨m, 0, rfl, hm, hroom, by rw [number, pow_zero, one_mul]⟩

theorem Represents.mono {x : Bignum} {n k l : ℕ} (h : x.Represents n k) (hle : k ≤ l) :
    x.Represents n l := by
  obtain ⟨m, e, hx, hm, hroom, hnumber⟩ := h
  exact ⟨m, e, hx, hm, hroom.trans_le (Nat.pow_le_pow_right (by norm_num) hle), hnumber⟩

/-- A shift takes one more bigit, however far it is. -/
theorem Represents.shift {m k : ℕ} (hm : 0 < m) (e s : ℕ) (hroom : m < (2 ^ 28) ^ k) :
    (of (2 ^ (s % 28) * m) (e + s / 28)).Represents (2 ^ s * number m e) (k + 1) := by
  refine ⟨_, _, rfl, by positivity, ?_, number_shift m e s⟩
  rw [pow_succ']
  exact Nat.mul_lt_mul_of_le_of_lt
    (Nat.pow_le_pow_right (by norm_num) (mod_lt s (by norm_num)).le) hroom (by norm_num)

/-- **A product with a power of ten.** Only the power of five takes room. -/
theorem exists_multiplyByPowerOfTen {m k : ℕ} (hm : 0 < m) (hroom : 5 ^ k * m < (2 ^ 28) ^ 126) :
    ∃ x, (of m 0).multiplyByPowerOfTen k = some x ∧ x.Represents (10 ^ k * m) 127 := by
  have hshift := Represents.shift (show 0 < 5 ^ k * m by positivity) 0 k hroom
  rw [number, pow_zero, one_mul, show 2 ^ k * (5 ^ k * m) = 10 ^ k * m by
    rw [← mul_assoc, ← mul_pow]; rfl] at hshift
  exact ⟨_, multiplyByPowerOfTen_of hm 0 k
    (hroom.trans (Nat.pow_lt_pow_right (by norm_num) (by norm_num))), hshift⟩

/-- **A product with a power of two.** -/
theorem Represents.exists_shiftLeft {x : Bignum} {n : ℕ} (h : x.Represents n 127) (s : ℕ) :
    ∃ y, x.shiftLeft s = some y ∧ y.Represents (2 ^ s * n) 128 := by
  obtain ⟨m, e, rfl, hm, hroom, rfl⟩ := h
  exact ⟨_, shiftLeft_of hm e s hroom, Represents.shift hm e s hroom⟩

/-- **The comparison** of numbers. -/
theorem Represents.compare {x y : Bignum} {n n' k : ℕ} (hx : x.Represents n k)
    (hy : y.Represents n' k) : Bignum.compare x y = Ord.compare n n' := by
  obtain ⟨m, e, rfl, hm, -, rfl⟩ := hx
  obtain ⟨m', e', rfl, hm', -, rfl⟩ := hy
  exact compare_of hm hm' e e'

end Bignum
