import Mathlib

/-!
# Variable-length quantities

`base/vlq.h` stores an unsigned number in groups of seven bits, the lowest first, with
the eighth bit set in all bytes but the last. Signed numbers are stored with the sign in
the lowest bit, which leaves out the least one.

A value that has been written is read back wherever it is in the data, and the index
is after it (`vlqDecodeUnsigned_encode`, `vlqDecode_encode`). Where data begins at
an index is said with `List.drop`, so that what is written one after the other is read
one after the other.
-/

open BitVec List

namespace Vlq

abbrev Byte := BitVec 8

def kContinueShift : ℕ := 7

def kContinueBit : Byte := 0x80

def kDataMask : Byte := 0x7f

/-- The loop of `VLQEncodeUnsigned`. A byte that is written is the lowest one of the
value, with the continue bit added if more follows. Five bytes hold 32 bits. -/
def encodeLoop : ℕ → BitVec 32 → List Byte
  | 0, _ => []
  | n + 1, value =>
    if value ≤ kDataMask.setWidth 32 then [value.setWidth 8]
    else (value.setWidth 8 ||| kContinueBit) :: encodeLoop n (value >>> kContinueShift)

def vlqEncodeUnsigned (value : BitVec 32) : List Byte := encodeLoop 5 value

/-- The sign is in the least significant bit. -/
def vlqConvertToUnsigned (value : BitVec 32) : BitVec 32 :=
  ((if value.slt 0 then -value else value) <<< 1) ||| (if value.slt 0 then 1 else 0)

def vlqEncode (value : BitVec 32) : List Byte := vlqEncodeUnsigned (vlqConvertToUnsigned value)

/-- The loop of `VLQDecodeUnsigned`, for the values of `shift`. -/
def decodeLoop (data : List Byte) : List ℕ → ℕ → BitVec 32 → Option (BitVec 32 × ℕ)
  | [], index, bits => some (bits, index)
  | shift :: shifts, index, bits =>
    match data[index]? with
    | none => none
    | some curByte =>
      let bits := bits ||| ((curByte &&& kDataMask).setWidth 32 <<< shift)
      if curByte ≤ kDataMask then some (bits, index + 1)
      else decodeLoop data shifts (index + 1) bits

variable (data : List Byte)

/-- `VLQDecodeUnsigned`: the value, and the index after it. -/
def vlqDecodeUnsigned (index : ℕ) : Option (BitVec 32 × ℕ) :=
  match data[index]? with
  | none => none
  | some curByte =>
    if curByte ≤ kDataMask then some (curByte.setWidth 32, index + 1)
    else decodeLoop data [7, 14, 21, 28] (index + 1) ((curByte &&& kDataMask).setWidth 32)

/-- The value with its sign. -/
def convertToSigned (bits : BitVec 32) : BitVec 32 :=
  if bits &&& 1 = 1 then -(bits >>> 1) else bits >>> 1

def vlqDecode (index : ℕ) : Option (BitVec 32 × ℕ) :=
  (vlqDecodeUnsigned data index).map fun (bits, index) => (convertToSigned bits, index)

/-! ## Groups of seven bits -/

variable {data rest : List Byte} {index n shift : ℕ} {value bits : BitVec 32} {b : Byte}

/-- Data that begins with a byte. -/
theorem getElem?_of_drop (h : data.drop index = b :: rest) :
    data[index]? = some b ∧ data.drop (index + 1) = rest := by
  refine ⟨?_, ?_⟩
  · rw [← head?_drop, h]
    rfl
  · rw [← drop_drop, h]
    rfl

theorem le_kDataMask : b ≤ kDataMask ↔ b.toNat < 128 := by
  rw [le_def]
  exact Nat.lt_succ_iff.symm

theorem setWidth_le_kDataMask (h : value ≤ kDataMask.setWidth 32) :
    value.setWidth 8 ≤ kDataMask ∧ (value.setWidth 8 &&& kDataMask).setWidth 32 = value := by
  have hlt : value.toNat < 128 := Nat.lt_succ_iff.mpr (le_def.mp h)
  refine ⟨?_, eq_of_toNat_eq ?_⟩
  · rw [le_kDataMask, toNat_setWidth]
    omega
  · rw [toNat_setWidth, toNat_and, toNat_setWidth,
      show kDataMask.toNat = 2 ^ 7 - 1 from rfl, Nat.and_two_pow_sub_one_eq_mod]
    omega

/-- The bit that says that more follows. -/
theorem or_kContinueBit (b : Byte) :
    ¬(b ||| kContinueBit) ≤ kDataMask ∧ (b ||| kContinueBit) &&& kDataMask = b &&& kDataMask := by
  revert b
  decide

/-- A group, and the value without it. -/
theorem or_group {w : ℕ} (value : BitVec w) (shift : ℕ) :
    ((value.setWidth 8 &&& kDataMask).setWidth w <<< shift) |||
      (value >>> kContinueShift) <<< (shift + 7) = value <<< shift := by
  have hmask : ∀ j, kDataMask.getLsbD j = decide (j < 7) := fun j => by
    rw [show kDataMask = BitVec.ofNat 8 (2 ^ 7 - 1) from rfl, getLsbD_ofNat,
      Nat.testBit_two_pow_sub_one]
    simp only [Bool.and_eq_right_iff_imp, decide_eq_true_eq]
    omega
  refine eq_of_getLsbD_eq fun i hi => ?_
  rw [getLsbD_or, getLsbD_shiftLeft, getLsbD_shiftLeft,
    getLsbD_shiftLeft, getLsbD_setWidth, getLsbD_and, getLsbD_setWidth,
    hmask, getLsbD_ushiftRight, kContinueShift, decide_eq_true hi, Bool.true_and,
    Bool.true_and]
  rcases lt_or_ge i shift with hlt | hge
  · simp [hlt, show i < shift + 7 by omega]
  rcases lt_or_ge i (shift + 7) with hlt | hge'
  · simp [hlt, not_lt.mpr hge, show i - shift < 7 by omega, show i - shift < 8 by omega,
      show i - shift < w by omega]
  · simp [not_lt.mpr hge, not_lt.mpr hge', show ¬i - shift < 7 by omega,
      show 7 + (i - (shift + 7)) = i - shift by omega]

theorem toNat_shift {w : ℕ} (value : BitVec w) : (value >>> kContinueShift).toNat =
    value.toNat / 128 := by
  rw [toNat_ushiftRight, Nat.shiftRight_eq_div_pow]
  rfl

/-- **The loops fit.** The values of `shift` follow one another by seven. -/
theorem decodeLoop_encodeLoop (hvalue : value.toNat < 2 ^ (7 * n)) (hn : 0 < n)
    (h : data.drop index = encodeLoop n value ++ rest) :
    decodeLoop data (range' shift n 7) index bits =
      some (bits ||| value <<< shift, index + (encodeLoop n value).length) := by
  induction n generalizing index shift value bits with
  | zero => omega
  | succ n ih =>
    rw [encodeLoop] at h ⊢
    rw [range'_succ, decodeLoop]
    split at h
    · next hle =>
      obtain ⟨hbyte, hmask⟩ := setWidth_le_kDataMask hle
      rw [(getElem?_of_drop h).1, if_pos hle]
      dsimp only
      rw [if_pos hbyte, hmask]
      rfl
    · next hgt =>
      obtain ⟨hcont, hmask⟩ := or_kContinueBit (value.setWidth 8)
      obtain ⟨hget, hdrop⟩ := getElem?_of_drop h
      have hge : 128 ≤ value.toNat := by
        rw [le_def, not_le] at hgt
        exact hgt
      have hn : 0 < n := by
        rcases Nat.eq_zero_or_pos n with rfl | hn
        · exact absurd hvalue (not_lt.mpr hge)
        · exact hn
      have hvalue' : (value >>> kContinueShift).toNat < 2 ^ (7 * n) := by
        rw [toNat_shift, Nat.div_lt_iff_lt_mul (by decide), show 128 = 2 ^ 7 from rfl, ← pow_add]
        exact hvalue
      rw [hget, if_neg hgt]
      dsimp only
      rw [if_neg hcont, hmask, ih hvalue' hn hdrop, BitVec.or_assoc, or_group, length_cons,
        Nat.add_assoc, Nat.add_comm 1]

/-- The first byte is read as the others are. -/
theorem vlqDecodeUnsigned_eq (index : ℕ) :
    vlqDecodeUnsigned data index = decodeLoop data (range' 0 5 7) index
    (BitVec.ofNat 32 0) := by
  have hmask : ∀ b : Byte, b ≤ kDataMask → b &&& kDataMask = b := by decide
  rw [vlqDecodeUnsigned, range'_succ, decodeLoop]
  cases data[index]? with
  | none => rfl
  | some b =>
    dsimp only
    rw [shiftLeft_zero, zero_or]
    split
    · next hle => rw [hmask b hle]
    · rfl

/-- **Unsigned values** are read back. -/
theorem vlqDecodeUnsigned_encode (h : data.drop index = vlqEncodeUnsigned value ++ rest) :
    vlqDecodeUnsigned data index = some (value, index + (vlqEncodeUnsigned value).length) := by
  have hvalue : value.toNat < 2 ^ (7 * 5) := value.isLt.trans (by decide)
  rw [vlqDecodeUnsigned_eq, decodeLoop_encodeLoop hvalue (by decide) h, zero_or, shiftLeft_zero]
  rfl

/-! ## Signs -/

/-- A magnitude below `2 ^ 31` with a sign bit below it. -/
theorem convertToSigned_or (hbits : bits.toNat < 2 ^ 31) (negative : Bool) :
    convertToSigned ((bits <<< 1) ||| (if negative then 1 else 0)) =
      if negative then -bits else bits := by
  have htoNat : ((bits <<< 1) ||| (if negative then 1 else 0)).toNat =
      2 * bits.toNat + negative.toNat := by
    have hsign : (if negative then 1 else 0 : BitVec 32).toNat = negative.toNat := by
      cases negative <;> rfl
    have hor := Nat.two_pow_add_eq_or_of_lt (show negative.toNat < 2 ^ 1 from negative.toNat_lt)
      bits.toNat
    rw [toNat_or, toNat_shiftLeft, hsign, Nat.shiftLeft_eq,
      Nat.mod_eq_of_lt (by omega), Nat.mul_comm, ← hor, pow_one]
  have hshift : (((bits <<< 1) ||| (if negative then 1 else 0)) >>> 1) = bits := by
    refine eq_of_toNat_eq ?_
    have := negative.toNat_lt
    rw [toNat_ushiftRight, htoNat, Nat.shiftRight_eq_div_pow]
    omega
  have hlow : ((bits <<< 1) ||| (if negative then 1 else 0)) &&& 1 = 1 ↔ negative = true := by
    rw [← toNat_inj, toNat_and, htoNat, show (1 : BitVec 32).toNat = 1 from rfl,
      Nat.and_one_is_mod]
    cases negative with
    | false => simp
    | true => simp [Nat.add_mod]
  unfold convertToSigned
  rw [hshift]
  exact if_congr hlow rfl rfl

/-- **Signs** are kept, but for the least value. -/
theorem convertToSigned_convertToUnsigned (h : value ≠ BitVec.intMin 32) :
    convertToSigned (vlqConvertToUnsigned value) = value := by
  have hne : value.toNat ≠ 2 ^ 31 := fun heq => h (eq_of_toNat_eq heq)
  have hslt : value.slt 0 = decide (2 ^ 31 ≤ value.toNat) :=
    slt_zero_eq_msb.trans (msb_eq_decide value)
  have hlt := value.isLt
  have hmagnitude : (if value.slt 0 then -value else value).toNat < 2 ^ 31 := by
    split
    · next hneg =>
      rw [hslt, decide_eq_true_iff] at hneg
      rw [toNat_neg]
      omega
    · next hneg =>
      rw [hslt, decide_eq_true_iff] at hneg
      omega
  rw [vlqConvertToUnsigned, convertToSigned_or hmagnitude]
  cases value.slt 0 with
  | false => rfl
  | true => exact BitVec.neg_neg

/-- **Signed values** are read back. -/
theorem vlqDecode_encode (hvalue : value ≠ BitVec.intMin 32)
    (h : data.drop index = vlqEncode value ++ rest) :
    vlqDecode data index = some (value, index + (vlqEncode value).length) := by
  rw [vlqDecode, vlqDecodeUnsigned_encode h, Option.map_some]
  dsimp only
  rw [convertToSigned_convertToUnsigned hvalue]
  rfl

theorem vlqDecode_encode_neg : vlqDecode (7 :: (vlqEncode (-300) ++ [9])) 1 = some (-300, 3) :=
  vlqDecode_encode (by decide) rfl

end Vlq
