import Mathlib

/-!
# Bit fields

A bit field is a range of bits of an unsigned word, given by its position
and its size: `base::BitField` (`base/bit-field.h`). Fields that do not
overlap can be combined with a bitwise or, and each is read back from the
combination; `decode_or_encode_low` and `decode_or_encode_high` say so one
field at a time, and are used from the lowest field up.
-/

open Nat hiding size

/-- A bit field: `BitField<T, shift, size>`. -/
structure BitField where
  /-- The position of the lowest bit. -/
  shift : ℕ
  /-- The number of bits. -/
  size : ℕ

namespace BitField

variable (f : BitField)

/-- The field that begins where this one ends: `BitField::Next`. -/
def next (size : ℕ) : BitField := ⟨f.shift + f.size, size⟩

/-- `BitField::kMask`. -/
def mask : ℕ := ((1 <<< f.shift) <<< f.size) - (1 <<< f.shift)

def encode (value : ℕ) : ℕ := value <<< f.shift

def decode (value : ℕ) : ℕ := (value &&& f.mask) >>> f.shift

variable (f : BitField)

/-- A field is what remains above its position, modulo its size. -/
theorem decode_eq (value : ℕ) : f.decode value = value / 2 ^ f.shift % 2 ^ f.size := by
  have hmask : f.mask >>> f.shift = 2 ^ f.size - 1 := by
    have : f.mask = (2 ^ f.size - 1) * 2 ^ f.shift := by
      rw [mask, shiftLeft_eq, shiftLeft_eq, Nat.sub_mul, one_mul, mul_comm]
    rw [this, shiftRight_eq_div_pow, Nat.mul_div_cancel _ (Nat.two_pow_pos _)]
  rw [decode, shiftRight_and_distrib, hmask, and_two_pow_sub_one_eq_mod, shiftRight_eq_div_pow]

theorem encode_eq (value : ℕ) : f.encode value = value * 2 ^ f.shift :=
  shiftLeft_eq _ _

/-- A word below a field and the field itself do not interfere. -/
theorem or_encode {low : ℕ} (value : ℕ) (hlow : low < 2 ^ f.shift) :
    low ||| f.encode value = low + value * 2 ^ f.shift := by
  rw [encode_eq, Nat.or_comm, mul_comm, ← two_pow_add_eq_or_of_lt hlow, Nat.add_comm]

variable {low value : ℕ}

/-- **The topmost field is read back.** -/
theorem decode_or_encode_high (hlow : low < 2 ^ f.shift) (hvalue : value < 2 ^ f.size) :
    f.decode (low ||| f.encode value) = value := by
  rw [decode_eq, or_encode f value hlow, add_mul_div_right _ _ (Nat.two_pow_pos _),
    div_eq_of_lt hlow, Nat.zero_add, mod_eq_of_lt hvalue]

/-- **A field is not disturbed by the ones above it.** -/
theorem decode_or_encode_low (f g : BitField) (hfg : f.shift + f.size ≤ g.shift) :
    f.decode (low ||| g.encode value) = f.decode low := by
  have hvalue : g.encode value
      = 2 ^ f.shift * (2 ^ f.size * (value * 2 ^ (g.shift - f.shift - f.size))) := by
    rw [encode_eq]
    have : g.shift = f.shift + (f.size + (g.shift - f.shift - f.size)) := by omega
    conv_lhs => rw [this, pow_add, pow_add]
    ring
  rw [decode_eq, decode_eq, hvalue, or_div_two_pow, or_mod_two_pow,
    Nat.mul_div_cancel_left _ (Nat.two_pow_pos _), mul_mod_right, or_zero]

/-- Adding a field on top of a word keeps it within the bits up to the
field's end. -/
theorem or_encode_lt (hlow : low < 2 ^ f.shift) (hvalue : value < 2 ^ f.size) :
    low ||| f.encode value < 2 ^ (f.shift + f.size) := by
  refine or_lt_two_pow (hlow.trans_le (Nat.pow_le_pow_right (by norm_num) (by omega))) ?_
  rw [encode_eq, pow_add, mul_comm]
  exact Nat.mul_lt_mul_of_pos_left hvalue (Nat.two_pow_pos _)

/-- A field of one bit is a boolean. -/
def decodeBool (value : ℕ) : Bool := f.decode value ≠ 0

end BitField
