import Mathlib

/-!
# Vectors of digits

A BigInt magnitude is a vector of digits in little-endian order
(`bigint/bigint.h`), a digit being a register-width word: `digit_t` is
`uint64_t` here. `Digits` is the list of the digits of such a vector, and
`value` the number it denotes, by Mathlib's `Nat.ofDigits` in base
`digitBase`.

A slice `Digits(src, offset, len)` is clipped to its source, as `drop` and
`take` are; `operator+` is `drop`. A writable slice is written back with
`putAt`.

The second part are the operations on one and two digits
(`bigint/digit-arithmetic.h`), with 128-bit intermediate results. Each has
one specification lemma over the natural numbers, and is not unfolded
afterwards.
-/

open List Nat

/-- `digit_t`. -/
abbrev Digit := UInt64

def kDigitBits : ℕ := 64

/-- The base of the representation, `2 ^ kDigitBits`. -/
def digitBase : ℕ := 2 ^ kDigitBits

theorem digitBase_pos : 0 < digitBase := Nat.two_pow_pos _

theorem one_lt_digitBase : 1 < digitBase := Nat.one_lt_two_pow (by decide)

theorem digitBase_pow_pos (n : ℕ) : 0 < digitBase ^ n := Nat.pow_pos digitBase_pos

variable (d : Digit)

/-- A digit is below the base. -/
theorem digit_lt : d.toNat < digitBase := d.toNat_lt

/-- `Digits`, and the contents of an `RWDigits`. -/
abbrev Digits := List Digit

namespace Digits

variable (X : Digits)

/-- The number a vector of digits denotes. -/
def value : ℕ := ofDigits digitBase (X.map UInt64.toNat)

@[simp] theorem value_nil : value [] = 0 := rfl

@[simp] theorem value_cons : value (d :: X) = d.toNat + digitBase * value X := by
  rw [value, map_cons, ofDigits_cons]
  rfl

@[simp] theorem value_append (X Y : Digits) :
    value (X ++ Y) = value X + digitBase ^ X.length * value Y := by
  rw [value, map_append, ofDigits_append, length_map]
  rfl

variable (X : Digits)

/-- A vector of `n` digits denotes a number below `digitBase ^ n`. -/
theorem value_lt : value X < digitBase ^ X.length := by
  have h := ofDigits_lt_base_pow_length (l := X.map UInt64.toNat) one_lt_digitBase (fun d hd => by
      obtain ⟨x, -, rfl⟩ := mem_map.mp hd
      exact digit_lt x)
  rwa [length_map] at h

theorem value_lt_of_length_le {X : Digits} {n : ℕ} (h : X.length ≤ n) : value X < digitBase ^ n :=
  (value_lt X).trans_le (Nat.pow_le_pow_right digitBase_pos h)

@[simp] theorem value_replicate_zero (n : ℕ) : value (List.replicate n 0) = 0 := by
  induction n with
  | zero => rfl
  | succ n ih => rw [replicate_succ, value_cons, ih]; rfl

/-- **A vector is split at any position.** -/
theorem value_take_add_drop (k : ℕ) :
    value (X.take k) + digitBase ^ k * value (X.drop k) = value X := by
  by_cases hk : k ≤ X.length
  · conv_rhs => rw [← take_append_drop k X, value_append, length_take_of_le hk]
  · rw [drop_eq_nil_of_le (by omega), take_of_length_le (by omega), value_nil,
      Nat.mul_zero, Nat.add_zero]

theorem value_drop (k : ℕ) : value (X.drop k) = value X / digitBase ^ k := by
  have h := value_take_add_drop X k
  have hlt : value (X.take k) < digitBase ^ k :=
    value_lt_of_length_le (length_take_le k X)
  rw [← h, add_mul_div_left _ _ (digitBase_pow_pos k), div_eq_of_lt hlt, Nat.zero_add]

theorem value_take (k : ℕ) : value (X.take k) = value X % digitBase ^ k := by
  have h := value_take_add_drop X k
  have hlt : value (X.take k) < digitBase ^ k :=
    value_lt_of_length_le (length_take_le k X)
  rw [← h, add_mul_mod_self_left, mod_eq_of_lt hlt]

/-- Only zeros have the value zero. -/
theorem eq_zero_of_value_eq_zero {X : Digits} (h : value X = 0) : ∀ d ∈ X, d = 0 := by
  induction X with
  | nil => simp
  | cons x X ih =>
    rw [value_cons, Nat.add_eq_zero_iff, Nat.mul_eq_zero] at h
    have hX : value X = 0 := h.2.resolve_left digitBase_pos.ne'
    rw [forall_mem_cons]
    exact ⟨UInt64.toNat_inj.mp h.1, ih hX⟩

/-- Vectors of one length with the same value have the same digits. -/
theorem eq_of_value_eq {X Y : Digits} (hlen : X.length = Y.length) (h : value X = value Y) :
    X = Y := by
  refine map_injective_iff.mpr (fun _ _ => UInt64.toNat_inj.mp)
    (ofDigits_inj_of_len_eq one_lt_digitBase (by simpa using hlen) ?_ ?_ h) <;>
  · intro d hd
    obtain ⟨x, -, rfl⟩ := mem_map.mp hd
    exact digit_lt x

/-! ## Slices -/

/-- The slice `Digits(src, offset, len)`, clipped to the source. -/
def slice (offset len : ℕ) : Digits := (X.drop offset).take len

@[simp] theorem length_slice (offset len : ℕ) :
    (slice X offset len).length = min len (X.length - offset) := by
  rw [slice, length_take, length_drop]

@[simp] theorem slice_zero (len : ℕ) : slice X 0 len = X.take len := by
  rw [slice, drop_zero]

/-- A prefix is split into two slices. -/
theorem value_slice_add_slice (k l : ℕ) :
    value (slice X 0 k) + digitBase ^ k * value (slice X k l) = value (X.take (k + l)) := by
  rw [slice_zero, slice, ← value_take_add_drop (X.take (k + l)) k, take_take,
    drop_take, Nat.min_eq_left (by omega), Nat.add_sub_cancel_left]

/-- The vector after the digits from `offset` on have been replaced by those
of a slice. -/
def putAt (offset : ℕ) (Y : Digits) : Digits :=
  X.take offset ++ Y ++ X.drop (offset + Y.length)

theorem length_putAt {X Y : Digits} {offset : ℕ} (h : offset + Y.length ≤ X.length) :
    (putAt X offset Y).length = X.length := by
  rw [putAt, length_append, length_append, length_take, length_drop]
  omega

/-! ## Normalization -/

/-- `Digits::Normalize`: leading zero digits are dropped. -/
def normalize : Digits := X.rdropWhile (· == 0)

/-- No leading digit is zero: `IsDigitNormalized`. -/
def Normalized : Prop := X.getLast? ≠ some 0

instance : Decidable X.Normalized := inferInstanceAs (Decidable (_ ≠ _))

theorem normalize_concat : normalize (X ++ [d]) = if d = 0 then normalize X else X ++ [d] := by
  rw [normalize, rdropWhile_concat]
  by_cases h : d = 0
  · rw [if_pos h, if_pos (by simpa using h)]
    rfl
  · rw [if_neg h, if_neg (by simpa using h)]

/-- Normalizing keeps the value. -/
@[simp] theorem value_normalize : value (normalize X) = value X := by
  induction X using List.reverseRecOn with
  | nil => rfl
  | append_singleton X d ih =>
    rw [normalize_concat]
    split
    · next h => rw [ih, value_append, h]; simp
    · rfl

/-- A normalized vector is the beginning of the original one. -/
theorem normalize_isPrefix : normalize X <+: X := rdropWhile_prefix _ X

theorem length_normalize_le : (normalize X).length ≤ X.length :=
  (normalize_isPrefix X).length_le

theorem normalize_normalized : (normalize X).Normalized := by
  induction X using List.reverseRecOn with
  | nil => simp [Normalized, normalize]
  | append_singleton X d ih =>
    rw [normalize_concat]
    split
    · exact ih
    · next h => simpa [Normalized] using h

/-- **The length of a normalized vector measures its value** from below. -/
theorem pow_le_value {X : Digits} (h : X.Normalized) (h0 : X ≠ []) :
    digitBase ^ (X.length - 1) ≤ value X := by
  induction X using List.reverseRecOn with
  | nil => exact absurd rfl h0
  | append_singleton X d _ =>
    have hd : 1 ≤ d.toNat := by
      rw [one_le_iff_ne_zero]
      intro hz
      have : d = 0 := UInt64.toNat_inj.mp hz
      simp [Normalized, this] at h
    have : digitBase ^ X.length * 1 ≤ digitBase ^ X.length * d.toNat := Nat.mul_le_mul_left _ hd
    simp only [length_append, length_singleton, Nat.add_sub_cancel, value_append,
      value_cons, value_nil, Nat.mul_zero, Nat.add_zero]
    omega

/-- A vector that is normalized and not empty is not zero. -/
theorem Normalized.value_pos {X : Digits} (h : X.Normalized) (hne : X ≠ []) : 0 < value X :=
  (digitBase_pow_pos _).trans_le (pow_le_value h hne)

/-- A vector whose value is small is short once normalized. -/
theorem length_normalize_le_of_lt {X : Digits} {n : ℕ} (h : value X < digitBase ^ n) :
    (normalize X).length ≤ n := by
  by_contra hlt
  push Not at hlt
  have hne : normalize X ≠ [] := by
    intro h0
    rw [h0] at hlt
    simp at hlt
  have hle := pow_le_value (normalize_normalized X) hne
  rw [value_normalize] at hle
  have hpow : digitBase ^ n ≤ digitBase ^ ((normalize X).length - 1) :=
    Nat.pow_le_pow_right digitBase_pos (by omega)
  omega

/-! ## Comparison -/

/-- The loop of `Compare` over two vectors of equal length: the highest
position where they differ decides. -/
def compareFrom : Digits → Digits → ℤ
  | a :: A, b :: B =>
    let above := compareFrom A B
    if above ≠ 0 then above else if b < a then 1 else if a = b then 0 else -1
  | _, _ => 0

variable (A B : Digits)

/-- `Compare`: negative, zero or positive as `A < B`, `A = B` or `A > B`. -/
def compare : ℤ :=
  let A := normalize A
  let B := normalize B
  let diff : ℤ := A.length - B.length
  if diff ≠ 0 then diff else compareFrom A B

def greaterThanOrEqual : Bool := 0 ≤ compare A B

/-- What the sign of a comparison says about two numbers. -/
def Decides (c : ℤ) (a b : ℕ) : Prop :=
  (c < 0 ↔ a < b) ∧ (c = 0 ↔ a = b)

theorem compareFrom_decides (h : A.length = B.length) :
    Decides (compareFrom A B) (value A) (value B) := by
  induction A generalizing B with
  | nil =>
    obtain rfl : B = [] := eq_nil_of_length_eq_zero h.symm
    simp [Decides, compareFrom]
  | cons a A ih =>
    obtain _ | ⟨b, B⟩ := B
    · simp at h
    obtain ⟨hlt, heq⟩ := ih B (by simpa using h)
    have ha := digit_lt a
    have hb := digit_lt b
    have hab : a = b ↔ a.toNat = b.toNat := UInt64.toNat_inj.symm
    rw [Decides, compareFrom, value_cons, value_cons]
    by_cases h0 : compareFrom A B = 0
    · rw [if_neg (by simpa using h0), heq.mp h0]
      simp only [UInt64.lt_iff_toNat_lt, hab]
      split
      · omega
      · split <;> omega
    · rw [if_pos h0]
      -- a difference of the higher parts outweighs the digits `a` and `b`
      rcases Nat.lt_trichotomy (value A) (value B) with hv | hv | hv
      · have : digitBase * (value A + 1) ≤ digitBase * value B := Nat.mul_le_mul_left _ hv
        rw [Nat.mul_add] at this
        omega
      · exact absurd (heq.mpr hv) h0
      · have : digitBase * (value B + 1) ≤ digitBase * value A := Nat.mul_le_mul_left _ hv
        rw [Nat.mul_add] at this
        omega

/-- Of two normalized vectors the longer one is greater. -/
theorem value_lt_of_length_lt {A B : Digits} (hB : B.Normalized) (h : A.length < B.length) :
    value A < value B :=
  (value_lt_of_length_le (le_sub_one_of_lt h)).trans_le (pow_le_value hB (by rintro rfl; simp at h))

/-- **`Compare` compares the values.** -/
theorem compare_decides : Decides (compare A B) (value A) (value B) := by
  rw [← value_normalize A, ← value_normalize B, compare]
  by_cases hd : ((normalize A).length : ℤ) - (normalize B).length = 0
  · rw [if_neg (by simpa using hd)]
    exact compareFrom_decides _ _ (by omega)
  · rw [if_pos hd]
    rcases Nat.lt_or_gt_of_ne (fun h => hd (by omega) :
        (normalize A).length ≠ (normalize B).length) with h | h
    · have := value_lt_of_length_lt (normalize_normalized B) h
      exact ⟨⟨fun _ => this, fun _ => by omega⟩, ⟨fun _ => by omega, fun _ => by omega⟩⟩
    · have := value_lt_of_length_lt (normalize_normalized A) h
      exact ⟨⟨fun _ => by omega, fun _ => by omega⟩, ⟨fun _ => by omega, fun _ => by omega⟩⟩

theorem greaterThanOrEqual_iff : greaterThanOrEqual A B = true ↔ value B ≤ value A := by
  have h := (compare_decides A B).1
  rw [greaterThanOrEqual, decide_eq_true_iff]
  omega

end Digits

/-! ## Operations on digits -/

/-- `twodigit_t`, an unsigned 128-bit integer. -/
abbrev TwoDigit := BitVec 128

/-- The conversion of a digit to `twodigit_t`. -/
def TwoDigit.ofDigit : TwoDigit := d.toBitVec.setWidth 128

variable (t : TwoDigit)

/-- The conversion of a `twodigit_t` to `digit_t`: its lower half. -/
def TwoDigit.toDigit : Digit := ⟨t.setWidth 64⟩

open TwoDigit

@[simp] theorem TwoDigit.toNat_ofDigit : BitVec.toNat (ofDigit d) = d.toNat := by
  have := d.toNat_lt
  rw [ofDigit, BitVec.toNat_setWidth, UInt64.toNat_toBitVec]
  exact mod_eq_of_lt (by omega)

@[simp] theorem TwoDigit.toNat_toDigit : (toDigit t).toNat = t.toNat % 2 ^ 64 := by
  rw [toDigit, ← UInt64.toNat_toBitVec, BitVec.toNat_setWidth]

/-- A result of two digits as a pair: the lower digit, and the upper one
(`carry`, `high`). -/
def TwoDigit.split : Digit × Digit :=
  (toDigit t, toDigit (t >>> kDigitBits))

theorem TwoDigit.split_spec :
    (TwoDigit.split t).1.toNat + digitBase * (TwoDigit.split t).2.toNat = t.toNat := by
  simp only [TwoDigit.split, toNat_toDigit, kDigitBits, digitBase,
    BitVec.toNat_ushiftRight, shiftRight_eq_div_pow]
  omega

variable (a b : Digit)

/-- `digit_add2`: the sum and the carry. -/
def digitAdd2 : Digit × Digit :=
  TwoDigit.split (ofDigit a + ofDigit b)

variable (a b c : Digit)

/-- `digit_add3`: the sum and the carry. -/
def digitAdd3 : Digit × Digit :=
  TwoDigit.split (ofDigit a + ofDigit b + ofDigit c)

/-- A two-digit difference as a pair: the lower digit, and the borrow, which
is the bit above it. -/
def TwoDigit.borrow : Digit × Digit :=
  (toDigit t, toDigit ((t >>> kDigitBits) &&& 1))

/-- `digit_sub`: the difference and the borrow. -/
def digitSub : Digit × Digit :=
  borrow (ofDigit a - ofDigit b)

/-- `digit_sub2`: the difference and the borrow. -/
def digitSub2 (a b borrowIn : Digit) : Digit × Digit :=
  let subtrahend := ofDigit b + ofDigit borrowIn
  borrow (ofDigit a - subtrahend)

/-- `digit_mul`: the lower half of the product, and the upper half `high`. -/
def digitMul : Digit × Digit :=
  TwoDigit.split (ofDigit a * ofDigit b)

theorem digitAdd2_spec :
    (digitAdd2 a b).1.toNat + digitBase * (digitAdd2 a b).2.toNat = a.toNat + b.toNat := by
  have ha := a.toNat_lt
  have hb := b.toNat_lt
  rw [digitAdd2, split_spec, BitVec.toNat_add, toNat_ofDigit, toNat_ofDigit]
  omega

theorem digitAdd3_spec : (digitAdd3 a b c).1.toNat + digitBase * (digitAdd3 a b c).2.toNat
      = a.toNat + b.toNat + c.toNat := by
  have ha := a.toNat_lt
  have hb := b.toNat_lt
  have hc := c.toNat_lt
  rw [digitAdd3, split_spec]
  simp only [BitVec.toNat_add, toNat_ofDigit]
  omega

theorem TwoDigit.toNat_borrow_snd : (borrow t).2.toNat = t.toNat / 2 ^ 64 % 2 := by
  have h1 : BitVec.toNat (1 : TwoDigit) = 1 := rfl
  rw [borrow, toNat_toDigit, BitVec.toNat_and, h1, and_one_is_mod,
    BitVec.toNat_ushiftRight, shiftRight_eq_div_pow, kDigitBits]
  omega

/-- A difference below `- digitBase` does not occur, so that one bit of borrow
is enough. -/
theorem TwoDigit.borrow_sub (x y : TwoDigit) (hx : x.toNat < 2 ^ 64) (hy : y.toNat ≤ 2 ^ 64) :
    (borrow (x - y)).1.toNat + y.toNat = x.toNat + digitBase * (borrow (x - y)).2.toNat := by
  rw [toNat_borrow_snd, borrow, toNat_toDigit, BitVec.toNat_sub, digitBase, kDigitBits]
  omega

theorem digitSub_spec :
    (digitSub a b).1.toNat + b.toNat = a.toNat + digitBase * (digitSub a b).2.toNat := by
  have h := borrow_sub (ofDigit a) (ofDigit b)
    (by simpa using a.toNat_lt) (by simpa using b.toNat_lt.le)
  rwa [toNat_ofDigit, toNat_ofDigit] at h

theorem digitSub2_spec (hc : c.toNat ≤ 1) : (digitSub2 a b c).1.toNat + b.toNat + c.toNat
      = a.toNat + digitBase * (digitSub2 a b c).2.toNat := by
  have hb := b.toNat_lt
  have hsum : BitVec.toNat (ofDigit b + ofDigit c) = b.toNat + c.toNat := by
    rw [BitVec.toNat_add, toNat_ofDigit, toNat_ofDigit]
    omega
  have h := borrow_sub (ofDigit a) (ofDigit b + ofDigit c) (by simpa using a.toNat_lt) (by omega)
  rwa [toNat_ofDigit, hsum, ← Nat.add_assoc] at h

theorem digitMul_spec :
    (digitMul a b).1.toNat + digitBase * (digitMul a b).2.toNat = a.toNat * b.toNat := by
  have h : a.toNat * b.toNat < 2 ^ 64 * 2 ^ 64 :=
    Nat.mul_lt_mul'' a.toNat_lt b.toNat_lt
  rw [digitMul, split_spec, BitVec.toNat_mul, toNat_ofDigit, toNat_ofDigit]
  exact mod_eq_of_lt (by omega)

/-! Shifts by less than the width of a digit. -/

variable {k : ℕ}

theorem toNat_shiftAmount (hk : k < kDigitBits) : (UInt64.ofNat k).toNat % 64 = k := by
  rw [kDigitBits] at hk
  rw [UInt64.toNat_ofNat']
  omega

theorem toNat_digit_shiftLeft (hk : k < kDigitBits) :
    (d <<< UInt64.ofNat k).toNat = d.toNat * 2 ^ k % digitBase := by
  rw [UInt64.toNat_shiftLeft, toNat_shiftAmount hk, shiftLeft_eq]
  rfl

theorem toNat_digit_shiftRight (hk : k < kDigitBits) :
    (d >>> UInt64.ofNat k).toNat = d.toNat / 2 ^ k := by
  rw [UInt64.toNat_shiftRight, toNat_shiftAmount hk, shiftRight_eq_div_pow]

/-! The carries and borrows are single bits. -/

theorem digitAdd2_carry : (digitAdd2 a b).2.toNat ≤ 1 := by
  have h := digitAdd2_spec a b
  have ha := digit_lt a
  have hb := digit_lt b
  exact le_of_lt_succ (Nat.lt_of_mul_lt_mul_left (a := digitBase) (by omega))

theorem digitAdd3_carry (hc : c.toNat ≤ 1) : (digitAdd3 a b c).2.toNat ≤ 1 := by
  have h := digitAdd3_spec a b c
  have ha := digit_lt a
  have hb := digit_lt b
  exact le_of_lt_succ (Nat.lt_of_mul_lt_mul_left (a := digitBase) (by omega))

theorem TwoDigit.borrow_le : (borrow t).2.toNat ≤ 1 := by
  rw [toNat_borrow_snd]
  omega

theorem digitSub_borrow : (digitSub a b).2.toNat ≤ 1 := borrow_le _

theorem digitSub2_borrow : (digitSub2 a b c).2.toNat ≤ 1 := borrow_le _

attribute [irreducible] digitAdd2 digitAdd3 digitSub digitSub2 digitMul
