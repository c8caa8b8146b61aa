import V8Speak.Binary64Scale

/-!
# Parsing integers of a radix that is a power of two

`parseInt` with a radix 2, 4, 8, 16 or 32 (`numbers/conversions.cc`): `DetectRadixInternal`
passes over white space, a sign, a prefix and leading zeros, and `InternalStringToIntDouble`
reads the digits. As long as the number has at most 53 bits it is exact. The digit that takes
it beyond them leaves up to five bits to drop; the digits after it only count for the exponent
and for whether they are all zero, and the dropped bits decide on the rounding.

The exponent is an `int`, and each digit adds the bits of the radix to it. A string has less
than `2 ^ 29` characters, so that with five bits to a digit the exponent can get beyond
`2 ^ 31` and wraps around to a negative one: the result is then zero and not infinity. That
is so exactly for the numbers that are rounded to `2 ^ (2 ^ 31 + 52)` or more
(`RoundsBeyond`), and only radix 32 has such numbers.

Characters are code units, and what white space is, is left open. A result is a sign and the
bits below it, as places on the scale of the format, or nothing for NaN.
-/

open List Nat Option

namespace StringToInt

/-- The arithmetic of `int`. -/
def int32 (x : ℤ) : ℤ := x.bmod (2 ^ 32)

/-- A double: its sign, and its other bits. No number is NaN. -/
abbrev Result := Option (Bool × ℕ)

/-- `static_cast<double>`. -/
def toDouble (number : ℕ) : ℕ := Binary64.ofRat number

/-- `std::ldexp` of a number that has at most 53 bits. -/
def ldexp (number : ℕ) (exponent : ℤ) : ℕ := Binary64.ofRat (number * 2 ^ exponent)

def isDigit (x radix : ℕ) : Bool :=
  (0x30 ≤ x ∧ x ≤ 0x39 ∧ x < 0x30 + radix) ∨ (radix > 10 ∧ 0x61 ≤ x ∧ x < 0x61 + radix - 10) ∨
    (radix > 10 ∧ 0x41 ≤ x ∧ x < 0x41 + radix - 10)

/-! ## The number -/

/-- The digit of a character, by the limits `lim_0`, `lim_a` and `lim_A`. -/
def digitOf (radix x : ℕ) : Option ℕ :=
  if 0x30 ≤ x ∧ x < 0x30 + min radix 10 then some (x - 0x30)
  else if 0x61 ≤ x ∧ x + 10 < 0x61 + radix then some (x - 0x61 + 10)
  else if 0x41 ≤ x ∧ x + 10 < 0x41 + radix then some (x - 0x41 + 10)
  else none

/-- The digits up to the one that takes the number beyond 53 bits: the number, what is left,
and whether there is such a digit. -/
def readNumber (radixLog2 number : ℕ) : List ℕ → ℕ × List ℕ × Bool
  | [] => (number, [], false)
  | current :: text =>
    match digitOf (2 ^ radixLog2) current with
    | none => (number, current :: text, false)
    | some digit =>
      let number := number * 2 ^ radixLog2 + digit
      if number / 2 ^ 53 ≠ 0 then (number, text, true) else readNumber radixLog2 number text

/-- The loop that counts the bits beyond 53. -/
def overflowBitsCount (overflow : ℕ) : ℕ :=
  if overflow > 1 then overflowBitsCount (overflow / 2) + 1 else 1

/-- The digits that are not read: whether they are zero, the exponent, and what is left. -/
def skipTail (radixLog2 : ℕ) (zeroTail : Bool) (exponent : ℤ) : List ℕ → Bool × ℤ × List ℕ
  | [] => (zeroTail, exponent, [])
  | current :: text =>
    if isDigit current (2 ^ radixLog2) then
      skipTail radixLog2 (zeroTail && current = 0x30) (int32 (exponent + radixLog2)) text
    else (zeroTail, exponent, current :: text)

/-- Whether the number is rounded up. -/
def roundsUp (number droppedBits overflowBits : ℕ) (zeroTail : Bool) : Bool :=
  let middleValue := 2 ^ (overflowBits - 1)
  droppedBits > middleValue ∨ (droppedBits = middleValue ∧ (number % 2 ≠ 0 ∨ !zeroTail))

/-- Rounding up may take the number beyond 53 bits again. -/
def normalize (number : ℕ) (exponent : ℤ) : ℕ × ℤ :=
  if number &&& 2 ^ 53 ≠ 0 then (number / 2, int32 (exponent + 1)) else (number, exponent)

/-- The branch for a number of more than 53 bits: the number and the exponent after rounding,
and what is left. -/
def roundNumber (radixLog2 number : ℕ) (text : List ℕ) : ℕ × ℤ × List ℕ :=
  let overflowBits := overflowBitsCount (number / 2 ^ 53)
  let droppedBits := number % 2 ^ overflowBits
  let number := number / 2 ^ overflowBits
  let (zeroTail, exponent, rest) := skipTail radixLog2 true overflowBits text
  let (number, exponent) :=
    normalize (number + (roundsUp number droppedBits overflowBits zeroTail).toNat) exponent
  (number, exponent, rest)

/-- The end of the function. -/
def scaled (number : ℕ) (exponent : ℤ) : ℕ :=
  if exponent = 0 then toDouble number else ldexp number exponent

section

variable (isWhiteSpaceOrLineTerminator : ℕ → Bool)

/-- Whether there is more than white space. -/
def advanceToNonspace (text : List ℕ) : Bool := !text.all isWhiteSpaceOrLineTerminator

def internalStringToIntDouble (radixLog2 : ℕ) (text : List ℕ) (negative allowTrailingJunk : Bool) :
    Result :=
  let text := text.dropWhile (· = 0x30)
  if text = [] then some (negative, 0)
  else
    let (number, rest, overflow) := readNumber radixLog2 0 text
    let (number, exponent, rest) :=
      if overflow then roundNumber radixLog2 number rest else (number, 0, rest)
    if !allowTrailingJunk && advanceToNonspace isWhiteSpaceOrLineTerminator rest then none
    else some (negative, scaled number exponent)

/-! ## The prefix -/

/-- The states `DetectRadixInternal` sets. -/
inductive State where
  | running
  | junk
  | empty
  | zero
  deriving DecidableEq, Repr

/-- After a prefix of two characters. -/
def afterPrefix (radix : ℕ) (text : List ℕ) : State × ℕ × Bool × List ℕ :=
  (if text = [] then .junk else .running, radix, false, text)

variable (allowBinaryAndOctalPrefixes : Bool)

/-- The prefix: the state, the radix, `leading_zero_` and what is left. -/
def detectPrefix (radix : ℕ) : List ℕ → State × ℕ × Bool × List ℕ
  | 0x30 :: text =>
    if radix = 0 ∨ radix = 16 then
      match text with
      | [] => (.zero, if radix = 0 then 10 else radix, false, [])
      | current :: text =>
        if current = 0x78 ∨ current = 0x58 then afterPrefix 16 text
        else if radix = 0 ∧ allowBinaryAndOctalPrefixes ∧ (current = 0x6f ∨ current = 0x4f) then
          afterPrefix 8 text
        else if radix = 0 ∧ allowBinaryAndOctalPrefixes ∧ (current = 0x62 ∨ current = 0x42) then
          afterPrefix 2 text
        else (.running, if radix = 0 then 10 else radix, true, current :: text)
    else (.running, radix, false, 0x30 :: text)
  | text => (.running, if radix = 0 then 10 else radix, false, text)

/-- The leading zeros, and the first digit after them. -/
def skipLeadingZeros (radix : ℕ) (leadingZero : Bool) (text : List ℕ) : State × ℕ × List ℕ :=
  let leadingZero := leadingZero || text.head? = some 0x30
  match text.dropWhile (· = 0x30) with
  | [] => (.zero, radix, [])
  | current :: text =>
    if !leadingZero && !isDigit current radix then (.junk, radix, current :: text)
    else (.running, radix, current :: text)

/-- What is after the sign. -/
def detectUnsigned (radix : ℕ) (text : List ℕ) : State × ℕ × List ℕ :=
  match detectPrefix allowBinaryAndOctalPrefixes radix text with
  | (.running, radix, leadingZero, text) => skipLeadingZeros radix leadingZero text
  | (state, radix, _, text) => (state, radix, text)

/-- `DetectRadixInternal`: whether there is a minus sign, and the rest. -/
def detectRadixInternal (radix : ℕ) (text : List ℕ) : Bool × State × ℕ × List ℕ :=
  match text.dropWhile isWhiteSpaceOrLineTerminator with
  | [] => (false, .empty, radix, [])
  | current :: text =>
    if current = 0x2b ∨ current = 0x2d then
      if text = [] then (false, .junk, radix, [])
      else (current = 0x2d, detectUnsigned allowBinaryAndOctalPrefixes radix text)
    else (false, detectUnsigned allowBinaryAndOctalPrefixes radix (current :: text))

/-- `NumberParseIntHelper::GetResult`, for a radix that is a power of two. -/
def numberParseInt (radixLog2 : ℕ) (text : List ℕ) : Result :=
  match detectRadixInternal isWhiteSpaceOrLineTerminator false (2 ^ radixLog2) text with
  | (_, .junk, _) => none
  | (_, .empty, _) => none
  | (negative, .zero, _) => some (negative, 0)
  | (negative, .running, _, text) =>
    -- the sign is left to the end
    (internalStringToIntDouble isWhiteSpaceOrLineTerminator radixLog2 text false true).map
      fun result => (negative, result.2)

/-! ## What is to be parsed -/

/-- Without white space and a sign: whether there is a minus sign, and the rest. -/
def unsigned (text : List ℕ) : Bool × List ℕ :=
  match text.dropWhile isWhiteSpaceOrLineTerminator with
  | [] => (false, [])
  | current :: text =>
    if current = 0x2b ∨ current = 0x2d then (current = 0x2d, text) else (false, current :: text)

end

/-- Without the prefix of radix 16. -/
def withoutPrefix (radixLog2 : ℕ) : List ℕ → List ℕ
  | 0x30 :: current :: text =>
    if radixLog2 = 4 ∧ (current = 0x78 ∨ current = 0x58) then text else 0x30 :: current :: text
  | text => text

/-- The characters of digits in the order of their values, with small or large letters. -/
def digitChars (firstLetter : Char) : List ℕ :=
  List.range' '0'.toNat 10 ++ List.range' firstLetter.toNat 26

/-- **The value of a character as a digit** of a radix: its place among the characters of digits,
if that is below the radix. -/
def digitValue (radix x : ℕ) : Option ℕ :=
  (((digitChars 'a').take radix).idxOf? x).or (((digitChars 'A').take radix).idxOf? x)

/-- The longest run of digits after white space, a sign and the prefix. -/
def digitsOf (isWhiteSpaceOrLineTerminator : ℕ → Bool) (radixLog2 : ℕ) (text : List ℕ) : List ℕ :=
  (withoutPrefix radixLog2 (unsigned isWhiteSpaceOrLineTerminator text).2).takeWhile
    fun x => (digitValue (2 ^ radixLog2) x).isSome

/-- The integer that digits denote. -/
def integer (radixLog2 : ℕ) (digits : List ℕ) : ℕ :=
  digits.foldl (fun n x => n * 2 ^ radixLog2 + (digitValue (2 ^ radixLog2) x).getD 0) 0

/-- **Parsing.** Without a digit it is NaN, and otherwise the nearest double to the number that
the digits denote, with the sign. -/
def Parses (isWhiteSpaceOrLineTerminator : ℕ → Bool) (radixLog2 : ℕ) (text : List ℕ)
    (result : Result) : Prop :=
  if digitsOf isWhiteSpaceOrLineTerminator radixLog2 text = [] then result = none
  else ∃ b, result = some ((unsigned isWhiteSpaceOrLineTerminator text).1, b) ∧
    Binary64.scale.Rounds Binary64.infinity
      (integer radixLog2 (digitsOf isWhiteSpaceOrLineTerminator radixLog2 text) : ℕ) b

/-! ## Digits -/

/-- The digits in front, by the limits of the code. -/
def digits (radixLog2 : ℕ) (text : List ℕ) : List ℕ := text.takeWhile (isDigit · (2 ^ radixLog2))

/-- The number that is read from digits, after another one. -/
def valueFrom (radixLog2 number : ℕ) (text : List ℕ) : ℕ :=
  text.foldl (fun n x => n * 2 ^ radixLog2 + (digitOf (2 ^ radixLog2) x).getD 0) number

/-- **The limits of the code give the value of a digit.** -/
theorem digitOf_eq {L : ℕ} (hL : L ≤ 5) (x : ℕ) : digitOf (2 ^ L) x = digitValue (2 ^ L) x := by
  rcases Nat.lt_or_ge x 128 with hx | hx
  · have hsmall : ∀ L ≤ 5, ∀ x < 128, digitOf (2 ^ L) x = digitValue (2 ^ L) x := by
      decide +kernel
    exact hsmall L hL x hx
  · have hradix : 2 ^ L ≤ 2 ^ 5 := Nat.pow_le_pow_right (by decide) hL
    have hnot : ∀ c : Char, c.toNat ≤ 97 → x ∉ (digitChars c).take (2 ^ L) := by
      intro c hc hmem
      have hmem := mem_of_mem_take hmem
      rw [digitChars, mem_append, mem_range'_1, mem_range'_1, show '0'.toNat = 48 from rfl] at hmem
      omega
    rw [digitValue, idxOf?_eq_none_iff.mpr (hnot 'a' (by decide)),
      idxOf?_eq_none_iff.mpr (hnot 'A' (by decide)), digitOf, if_neg (by omega), if_neg (by omega),
      if_neg (by omega)]
    rfl

theorem isSome_digitOf (radix x : ℕ) : (digitOf radix x).isSome = isDigit x radix := by
  rw [Bool.eq_iff_iff, isDigit, decide_eq_true_iff, digitOf]
  split_ifs <;> simp <;> omega

variable {L number : ℕ} {text : List ℕ}

theorem digit_lt (x : ℕ) : (digitOf (2 ^ L) x).getD 0 < 2 ^ L := by
  rw [digitOf]
  split_ifs <;> simp <;> omega

/-- Only `0` is zero. -/
theorem digit_eq_zero_iff {x : ℕ} (hx : isDigit x (2 ^ L)) :
    (digitOf (2 ^ L) x).getD 0 = 0 ↔ x = 0x30 := by
  rw [← isSome_digitOf, digitOf] at hx
  rw [digitOf]
  split_ifs at hx ⊢ <;> simp at hx ⊢ <;> omega

theorem isDigit_zero : isDigit 0x30 (2 ^ L) := by
  have hpos := Nat.two_pow_pos L
  rw [isDigit, decide_eq_true_iff]
  omega

theorem integer_eq (hL : L ≤ 5) (ds : List ℕ) : integer L ds = valueFrom L 0 ds := by
  simp only [integer, valueFrom, digitOf_eq hL]

theorem digitsOf_eq (hL : L ≤ 5) (w : ℕ → Bool) (text : List ℕ) :
    digitsOf w L text = digits L (withoutPrefix L (unsigned w text).2) := by
  simp only [digitsOf, digits, ← digitOf_eq hL, isSome_digitOf]

@[simp]
theorem valueFrom_cons (x : ℕ) : valueFrom L number (x :: text) =
    valueFrom L (number * 2 ^ L + (digitOf (2 ^ L) x).getD 0) text := rfl

theorem valueFrom_append (front : List ℕ) :
    valueFrom L number (front ++ text) = valueFrom L (valueFrom L number front) text :=
  foldl_append

theorem valueFrom_eq (number : ℕ) (text : List ℕ) :
    valueFrom L number text = number * 2 ^ (L * text.length) + valueFrom L 0 text := by
  induction text generalizing number with
  | nil => simp [valueFrom]
  | cons x text ih =>
    rw [valueFrom_cons, valueFrom_cons, ih, ih (0 * 2 ^ L + _), length_cons, mul_succ, pow_add]
    ring

theorem valueFrom_zero_lt (text : List ℕ) : valueFrom L 0 text < 2 ^ (L * text.length) := by
  induction text with
  | nil => simp [valueFrom]
  | cons x text ih =>
    rw [valueFrom_cons, valueFrom_eq, length_cons, mul_succ, pow_add, zero_mul, zero_add,
      mul_comm (2 ^ _)]
    exact Nat.lt_of_lt_of_le (Nat.add_lt_add_left ih _)
      (succ_mul _ _ ▸ Nat.mul_le_mul_right _ (digit_lt x))

theorem valueFrom_eq_zero_iff (hall : ∀ x ∈ text, isDigit x (2 ^ L)) :
    valueFrom L 0 text = 0 ↔ ∀ x ∈ text, x = 0x30 := by
  induction text with
  | nil => simp [valueFrom]
  | cons x text ih =>
    rw [forall_mem_cons] at hall ⊢
    rw [valueFrom_cons, valueFrom_eq, Nat.add_eq_zero_iff, ih hall.2, zero_mul, zero_add,
      mul_eq_zero, or_iff_left (Nat.two_pow_pos _).ne', digit_eq_zero_iff hall.1]

@[simp]
theorem digits_cons (x : ℕ) : digits L (x :: text) =
    if isDigit x (2 ^ L) then x :: digits L text else [] := by
  rw [digits, takeWhile_cons]
  rfl

theorem isDigit_of_mem_digits {x : ℕ} (hx : x ∈ digits L text) : isDigit x (2 ^ L) :=
  mem_takeWhile_imp (p := (isDigit · (2 ^ L))) hx

/-- Zeros in front are without meaning. -/
theorem valueFrom_dropWhile_zero (text : List ℕ) :
    valueFrom L 0 (digits L (text.dropWhile (· = 0x30))) = valueFrom L 0 (digits L text) := by
  induction text with
  | nil => rfl
  | cons x text ih =>
    by_cases hx : x = 0x30
    · have hzero := (digit_eq_zero_iff (isDigit_zero (L := L))).mpr rfl
      rw [dropWhile_cons_of_pos (by simpa using hx), ih, hx, digits_cons, if_pos isDigit_zero,
        valueFrom_cons, hzero, zero_mul]
    · rw [dropWhile_cons_of_neg (by simpa using hx)]

/-! ## The loops -/

/-- **Reading the number.** Either all digits are read, or the number is the one of the digits
that are read and has between 54 and 58 bits. -/
theorem readNumber_spec (hnumber : number < 2 ^ 53) (text : List ℕ) :
    (∃ rest, readNumber L number text = (valueFrom L number (digits L text), rest, false) ∧
        valueFrom L number (digits L text) < 2 ^ 53) ∨
      ∃ front rest, text = front ++ rest ∧ (∀ x ∈ front, isDigit x (2 ^ L)) ∧
        readNumber L number text = (valueFrom L number front, rest, true) ∧
        2 ^ 53 ≤ valueFrom L number front ∧ valueFrom L number front < 2 ^ 53 * 2 ^ L := by
  induction text generalizing number with
  | nil => exact .inl ⟨_, rfl, hnumber⟩
  | cons x text ih =>
    have hsome := isSome_digitOf (2 ^ L) x
    cases hdigit : digitOf (2 ^ L) x with
    | none =>
      rw [hdigit, isSome_none] at hsome
      rw [readNumber, hdigit, digits_cons, if_neg (by simp [← hsome])]
      exact .inl ⟨_, rfl, hnumber⟩
    | some digit =>
      rw [hdigit, isSome_some] at hsome
      have hvalue (rest) : valueFrom L number (x :: rest) =
          valueFrom L (number * 2 ^ L + digit) rest := by
        rw [valueFrom_cons, hdigit, getD_some]
      rw [digits_cons, if_pos hsome.symm, hvalue, readNumber, hdigit]
      dsimp only
      split_ifs with hoverflow
      · -- the last digit that is read
        have hlt : number * 2 ^ L + digit < 2 ^ 53 * 2 ^ L := by
          have hdigitLt := digit_lt (L := L) x
          rw [hdigit, getD_some] at hdigitLt
          calc number * 2 ^ L + digit < (number + 1) * 2 ^ L := by rw [succ_mul]; omega
            _ ≤ 2 ^ 53 * 2 ^ L := Nat.mul_le_mul_right _ hnumber
        have hle := (Nat.div_ne_zero_iff.mp hoverflow).2
        refine .inr ⟨[x], text, rfl, by simp [← hsome], ?_, ?_, ?_⟩ <;> rw [hvalue]
        exacts [rfl, hle, hlt]
      · have hlt : number * 2 ^ L + digit < 2 ^ 53 := by
          omega
        obtain hall | ⟨front, rest, htext, hfront, hread, hle, hlt⟩ := ih hlt
        · exact .inl hall
        · refine .inr ⟨x :: front, rest, by rw [htext, cons_append],
            forall_mem_cons.mpr ⟨hsome.symm, hfront⟩, ?_, ?_, ?_⟩ <;> rw [hvalue]
          exacts [hread, hle, hlt]

theorem overflowBitsCount_eq (overflow : ℕ) : overflowBitsCount overflow = overflow.log2 + 1 := by
  fun_induction overflowBitsCount overflow with
  | case1 overflow hgt ih => rw [ih, log2_def overflow, if_pos (show 2 ≤ overflow from hgt)]
  | case2 overflow hle => rw [log2_def, if_neg (show ¬2 ≤ overflow from hle)]

/-- Without the bits beyond 53 the number has 53 bits. -/
theorem leading_bits (hnumber : 2 ^ 53 ≤ number) :
    2 ^ 52 ≤ number / 2 ^ overflowBitsCount (number / 2 ^ 53) ∧
      number / 2 ^ overflowBitsCount (number / 2 ^ 53) < 2 ^ 53 := by
  have hne : number / 2 ^ 53 ≠ 0 := Nat.div_ne_zero_iff.mpr ⟨by norm_num, hnumber⟩
  have hle := log2_self_le hne
  have hlt := lt_log2_self (n := number / 2 ^ 53)
  rw [overflowBitsCount_eq]
  generalize Nat.log2 (number / 2 ^ 53) = k at hle hlt
  rw [Nat.le_div_iff_mul_le (Nat.two_pow_pos _), Nat.div_lt_iff_lt_mul (Nat.two_pow_pos _)]
  rw [Nat.le_div_iff_mul_le (Nat.two_pow_pos _)] at hle
  rw [Nat.div_lt_iff_lt_mul (Nat.two_pow_pos _)] at hlt
  rw [pow_succ] at hlt ⊢
  omega

/-- **The digits that are not read.** -/
theorem skipTail_spec (zeroTail : Bool) (exponent : ℤ) (text : List ℕ) :
    (skipTail L zeroTail (int32 exponent) text).1 = (zeroTail && (digits L text).all (· = 0x30)) ∧
      (skipTail L zeroTail (int32 exponent) text).2.1 =
        int32 (exponent + L * (digits L text).length) := by
  induction text generalizing zeroTail exponent with
  | nil => simp [skipTail, digits]
  | cons x text ih =>
    rw [skipTail, digits_cons]
    split_ifs with hx
    · have hexponent : int32 (int32 exponent + L) = int32 (exponent + L) := Int.bmod_add_bmod
      rw [hexponent, (ih _ _).1, (ih _ _).2, all_cons, Bool.and_assoc, length_cons]
      refine ⟨rfl, congrArg int32 ?_⟩
      push_cast
      ring
    · simp

/-! ## Rounding -/

/-- The number is rounded to `2 ^ (limit + 52)` or more, that is, its exponent gets to the limit
after rounding. -/
def RoundsBeyond (limit number : ℕ) : Prop := 2 ^ (limit + 52) ≤ number + 2 ^ (limit - 2)

theorem not_roundsBeyond_of_lt {limit : ℕ} (hlimit : 2 ≤ limit) (hnumber : number < 2 ^ 53) :
    ¬RoundsBeyond limit number := by
  obtain ⟨k, rfl⟩ := Nat.exists_eq_add_of_le' hlimit
  have hpos := Nat.two_pow_pos k
  rw [RoundsBeyond, Nat.add_sub_cancel, add_assoc, pow_add]
  omega

theorem roundsBeyond_of_le {limit k : ℕ} (hk : limit + 52 ≤ k) (hnumber : 2 ^ k ≤ number) :
    RoundsBeyond limit number :=
  le_add_right_of_le ((Nat.pow_le_pow_right (by decide) hk).trans hnumber)

/-- **The bits that are dropped and the digits that are not read** decide on the rounding. -/
theorem roundsUp_iff {q d c k rest : ℕ} {zeroTail : Bool} (hc : 0 < c) (hrest : rest < 2 ^ k)
    (htail : zeroTail = true ↔ rest = 0) :
    roundsUp q d c zeroTail = true ↔ 2 ^ (c + k) < 2 * (d * 2 ^ k + rest) ∨
      (2 * (d * 2 ^ k + rest) = 2 ^ (c + k) ∧ q % 2 = 1) := by
  obtain ⟨m, rfl⟩ := exists_eq_succ_of_ne_zero hc.ne'
  have hpow : 2 ^ (m.succ + k) = 2 * (2 ^ m * 2 ^ k) := by rw [succ_add, pow_succ', pow_add]
  have htail' : (!zeroTail) = true ↔ rest ≠ 0 := by
    rw [Bool.not_eq_true', ← Bool.not_eq_true, htail]
  rw [roundsUp, decide_eq_true_iff, hpow, htail', succ_sub_one]
  rcases lt_trichotomy d (2 ^ m) with hlt | rfl | hgt
  · have hmul : (d + 1) * 2 ^ k ≤ 2 ^ m * 2 ^ k := Nat.mul_le_mul_right _ hlt
    rw [succ_mul] at hmul
    omega
  · omega
  · have hmul : (2 ^ m + 1) * 2 ^ k ≤ d * 2 ^ k := Nat.mul_le_mul_right _ hgt
    rw [succ_mul] at hmul
    omega

/-- Whether rounding up has taken the number beyond 53 bits, as a number. -/
def carry (number : ℕ) : ℕ := if number = 2 ^ 53 then 1 else 0

theorem normalize_eq (hnumber : number ≤ 2 ^ 53) (exponent : ℤ) :
    normalize number (int32 exponent) =
      (number / 2 ^ carry number, int32 (exponent + carry number)) := by
  have hbit : number &&& 2 ^ 53 ≠ 0 ↔ number = 2 ^ 53 := by
    rcases hnumber.lt_or_eq with hlt | rfl
    · rw [and_two_pow, testBit_lt_two_pow hlt]
      simpa using hlt.ne
    · simp
  rw [normalize, carry]
  by_cases h : number = 2 ^ 53
  · rw [if_pos (hbit.mpr h), if_pos h, pow_one]
    exact congrArg (Prod.mk _) Int.bmod_add_bmod
  · rw [if_neg (mt hbit.mp h), if_neg h]
    simp

theorem div_carry_mul (number : ℕ) : number / 2 ^ carry number * 2 ^ carry number = number := by
  rw [carry]
  split_ifs with h
  · rw [h]
    norm_num
  · simp

/-- The exponent gets to a limit after rounding exactly for the numbers that are rounded beyond
it. -/
theorem roundsBeyond_iff {limit q e rest : ℕ} (hlimit : 2 ≤ limit)
    (hq : 2 ^ 52 ≤ q ∧ q < 2 ^ 53) (hrest : rest < 2 ^ e) {up : Bool}
    (hup : up = true ↔ 2 ^ e < 2 * rest ∨ (2 * rest = 2 ^ e ∧ q % 2 = 1)) :
    RoundsBeyond limit (q * 2 ^ e + rest) ↔ limit ≤ e + carry (q + up.toNat) := by
  have hcarry : carry (q + up.toNat) ≤ 1 := by rw [carry]; split_ifs <;> omega
  rw [RoundsBeyond]
  rcases lt_trichotomy limit (e + 1) with hlt | rfl | hgt
  · have hpow : 2 ^ (limit + 52) ≤ q * 2 ^ e :=
      calc 2 ^ (limit + 52) ≤ 2 ^ (52 + e) := Nat.pow_le_pow_right (by decide) (by omega)
        _ = 2 ^ 52 * 2 ^ e := pow_add 2 52 e
        _ ≤ q * 2 ^ e := Nat.mul_le_mul_right _ hq.1
    exact iff_of_true (hpow.trans (le_add_right_of_le (Nat.le_add_right _ _))) (by omega)
  · obtain ⟨k, rfl⟩ := Nat.exists_eq_add_of_le' (le_of_succ_le_succ hlimit)
    have hpos := Nat.two_pow_pos k
    rw [show k + 1 + 1 + 52 = 54 + k by omega, show k + 1 + 1 - 2 = k by omega, pow_add]
    rw [pow_succ 2 k] at hup hrest ⊢
    by_cases hlast : q = 2 ^ 53 - 1
    · subst hlast
      cases up <;> simp [carry] at hup ⊢ <;> omega
    · have hmul : q * 2 ^ k ≤ (2 ^ 53 - 2) * 2 ^ k := Nat.mul_le_mul_right _ (by omega)
      have hne : q + up.toNat ≠ 2 ^ 53 := by have := up.toNat_le; omega
      rw [carry, if_neg hne, ← mul_assoc]
      omega
  · obtain ⟨k, rfl⟩ := Nat.exists_eq_add_of_le' hlimit
    have hpow : 2 ^ e ≤ 2 ^ k := Nat.pow_le_pow_right (by decide) (by omega)
    have hmul : q * 2 ^ e ≤ (2 ^ 53 - 1) * 2 ^ k := Nat.mul_le_mul (by omega) hpow
    rw [Nat.add_sub_cancel, add_assoc, pow_add]
    omega

/-! ## The double -/

open Binary64

/-- An exponent that is an `int` is as it should be. -/
theorem scaled_of_lt {m e : ℕ} (hpos : 0 < e) (hlt : e < 2 ^ 31) :
    scaled m (int32 e) = ofRat (m * 2 ^ e : ℕ) := by
  have hint : int32 e = e := Int.bmod_eq_of_le (by omega) (by omega)
  rw [scaled, hint, if_neg (by omega), ldexp, zpow_natCast]
  push_cast
  rfl

/-- **An exponent that is not an `int`** is taken as a negative one, and the result is zero. -/
theorem scaled_of_le {m e : ℕ} (hm : m ≤ 2 ^ 53) (hle : 2 ^ 31 ≤ e) (hlt : e < 2 ^ 32 - 2000) :
    scaled m (int32 e) = 0 := by
  have hint : int32 e = e - 2 ^ 32 := by
    rw [int32, ← Int.sub_bmod_right]
    exact Int.bmod_eq_of_le (by omega) (by omega)
  have hsmall : (m : ℚ) * 2 ^ ((e : ℤ) - 2 ^ 32) ≤ unit / 2 := by
    calc (m : ℚ) * 2 ^ ((e : ℤ) - 2 ^ 32) ≤ 2 ^ 53 * 2 ^ (-1128 : ℤ) := by
          refine mul_le_mul (by exact_mod_cast hm) ?_ (zpow_nonneg zero_le_two _) (by positivity)
          exact zpow_le_zpow_right₀ (by norm_num) (by omega)
      _ = unit / 2 := by
          rw [unit_eq_zpow, div_eq_mul_inv, ← zpow_sub_one₀ two_ne_zero, ← zpow_natCast,
            ← zpow_add₀ two_ne_zero]
          norm_num
  have hnonneg : 0 ≤ (m : ℚ) * 2 ^ ((e : ℤ) - 2 ^ 32) :=
    mul_nonneg m.cast_nonneg (zpow_nonneg zero_le_two _)
  rw [scaled, hint, if_neg (by omega), ldexp]
  exact (rounds_ofRat hnonneg).unique (rounds_zero hsmall)

theorem not_rounds_zero (hnumber : 0 < number) : ¬scale.Rounds infinity number 0 := by
  intro h
  have hle := (h.upper (by decide)).1
  have hone : (1 : ℚ) ≤ number := by exact_mod_cast hnumber
  have hunit : unit ≤ 1 := div_le_one_of_le₀ (one_le_pow₀ one_le_two) (by positivity)
  rw [middle_zero] at hle
  linarith

/-- **The end of the function** gives the nearest double, unless the exponent gets beyond `int`
after rounding. -/
theorem rounds_normalize_iff {q e rest : ℕ} (hq : 2 ^ 52 ≤ q ∧ q < 2 ^ 53) (hrest : rest < 2 ^ e)
    {up : Bool} (hup : up = true ↔ 2 ^ e < 2 * rest ∨ (2 * rest = 2 ^ e ∧ q % 2 = 1))
    (hpos : 0 < e) (hlt : e < 2 ^ 32 - 2001) :
    scale.Rounds infinity (q * 2 ^ e + rest : ℕ)
        (scaled (normalize (q + up.toNat) (int32 e)).1 (normalize (q + up.toNat) (int32 e)).2) ↔
      ¬RoundsBeyond (2 ^ 31) (q * 2 ^ e + rest) := by
  have hrounds := rounds_leading hq hrest hup
  have hnumber : q + up.toNat ≤ 2 ^ 53 := by have := up.toNat_le; omega
  have hnonzero : 0 < q * 2 ^ e + rest :=
    Nat.add_pos_left (Nat.mul_pos (by omega) (Nat.two_pow_pos e)) _
  rw [roundsBeyond_iff (by norm_num) hq hrest hup, normalize_eq hnumber]
  generalize q + up.toNat = m at hrounds hnumber
  have hcarry : carry m ≤ 1 := by rw [carry]; split_ifs <;> omega
  have hscaled : m / 2 ^ carry m * 2 ^ (e + carry m) = m * 2 ^ e := by
    rw [add_comm, pow_add, ← mul_assoc, div_carry_mul]
  rw [not_le, ← cast_add]
  rcases Nat.lt_or_ge (e + carry m) (2 ^ 31) with hfits | hwraps
  · rw [scaled_of_lt (by omega) hfits, hscaled]
    exact iff_of_true hrounds hfits
  · rw [scaled_of_le ((Nat.div_le_self _ _).trans hnumber) hwraps (by omega)]
    exact iff_of_false (not_rounds_zero hnonzero) (Nat.not_lt.mpr hwraps)

def kMaxLength : ℕ := 2 ^ 29 - 24

theorem overflowBitsCount_le (hne : number / 2 ^ 53 ≠ 0) (hlt : number < 2 ^ 53 * 2 ^ L) :
    overflowBitsCount (number / 2 ^ 53) ≤ L := by
  rw [overflowBitsCount_eq, succ_le_iff, log2_lt hne]
  exact Nat.div_lt_of_lt_mul hlt

/-- The bits that are kept, the bits that are dropped and the digits that are not read. -/
theorem valueFrom_split (number c : ℕ) (text : List ℕ) :
    valueFrom L number text = number / 2 ^ c * 2 ^ (c + L * text.length) +
      (number % 2 ^ c * 2 ^ (L * text.length) + valueFrom L 0 text) := by
  have hsplit := div_add_mod' number (2 ^ c)
  rw [valueFrom_eq, pow_add]
  nth_rewrite 1 [← hsplit]
  ring

/-- **A number of more than 53 bits** is rounded to the nearest double, unless its exponent gets
beyond `int`. -/
theorem roundNumber_spec (hL : L ≤ 5) (hlength : text.length ≤ kMaxLength)
    (hle : 2 ^ 53 ≤ number) (hlt : number < 2 ^ 53 * 2 ^ L) :
    scale.Rounds infinity (valueFrom L number (digits L text) : ℕ)
        (scaled (roundNumber L number text).1 (roundNumber L number text).2.1) ↔
      ¬RoundsBeyond (2 ^ 31) (valueFrom L number (digits L text)) := by
  have hq := leading_bits hle
  have hc := overflowBitsCount_le (Nat.div_ne_zero_iff.mpr ⟨by norm_num, hle⟩) hlt
  have hpos : 0 < overflowBitsCount (number / 2 ^ 53) := by
    rw [overflowBitsCount_eq]
    exact succ_pos _
  rw [roundNumber]
  generalize overflowBitsCount (number / 2 ^ 53) = c at hq hc hpos
  have hint : int32 c = c := Int.bmod_eq_of_le (by omega) (by omega)
  obtain ⟨htail, hexponent⟩ := skipTail_spec (L := L) true c text
  have ht : (digits L text).length ≤ kMaxLength :=
    (takeWhile_sublist _).length_le.trans hlength
  have hzero := valueFrom_eq_zero_iff fun x (hx : x ∈ digits L text) => isDigit_of_mem_digits hx
  have hrest := valueFrom_zero_lt (L := L) (digits L text)
  rw [hint] at htail hexponent
  rw [valueFrom_split number c]
  generalize skipTail L true c text = tail at htail hexponent
  obtain ⟨zeroTail, exponent, rest⟩ := tail
  dsimp only at htail hexponent
  have hsticky : zeroTail = true ↔ valueFrom L 0 (digits L text) = 0 := by
    rw [hzero]
    simp [htail]
  have hup := roundsUp_iff (q := number / 2 ^ c) (d := number % 2 ^ c) hpos hrest hsticky
  have hdropped : number % 2 ^ c * 2 ^ (L * (digits L text).length) +
      valueFrom L 0 (digits L text) < 2 ^ (c + L * (digits L text).length) := by
    rw [pow_add]
    refine Nat.lt_of_lt_of_le (Nat.add_lt_add_left hrest _) ?_
    rw [← succ_mul]
    exact Nat.mul_le_mul_right _ (mod_lt _ (Nat.two_pow_pos c))
  rw [hexponent]
  have hbits : L * (digits L text).length ≤ 5 * kMaxLength := Nat.mul_le_mul hL ht
  have hmax : kMaxLength = 2 ^ 29 - 24 := rfl
  exact rounds_normalize_iff hq hdropped hup (by omega) (by omega)

variable {w : ℕ → Bool}

/-- **The whole function**, on what is left after the prefix. -/
theorem internalStringToIntDouble_spec (hL : L ≤ 5) (hlength : text.length ≤ kMaxLength)
    (negative : Bool) :
    ∃ b, internalStringToIntDouble w L text negative true = some (negative, b) ∧
      (scale.Rounds infinity (valueFrom L 0 (digits L text) : ℕ) b ↔
        ¬RoundsBeyond (2 ^ 31) (valueFrom L 0 (digits L text))) := by
  rw [← valueFrom_dropWhile_zero, internalStringToIntDouble]
  replace hlength := (length_dropWhile_le (· = 0x30) text).trans hlength
  generalize text.dropWhile (· = 0x30) = text at hlength
  have hsmall {number : ℕ} (h : number < 2 ^ 53) : ¬RoundsBeyond (2 ^ 31) number :=
    not_roundsBeyond_of_lt (by norm_num) h
  by_cases hnil : text = []
  · subst hnil
    refine ⟨0, if_pos rfl, iff_of_true (rounds_zero ?_) (hsmall (Nat.two_pow_pos 53))⟩
    exact div_nonneg unit_pos.le zero_le_two
  · rw [if_neg hnil]
    obtain ⟨rest, hread, hlt⟩ | ⟨front, rest, htext, hfront, hread, hle, hlt⟩ :=
      readNumber_spec (L := L) (Nat.two_pow_pos 53) text
    · rw [hread]
      exact ⟨_, rfl, iff_of_true (rounds_ofRat (cast_nonneg _)) (hsmall hlt)⟩
    · have hdigits : digits L text = front ++ digits L rest := by
        rw [htext, digits, takeWhile_append_of_pos hfront, digits]
      have hrest : rest.length ≤ kMaxLength := by
        rw [htext, length_append] at hlength
        omega
      rw [hread, hdigits, valueFrom_append]
      exact ⟨_, rfl, roundNumber_spec hL hrest hle hlt⟩

/-! ## The prefix and the result -/

/-- What is found before the number is read, where `ds` are the digits and the text has so many
characters. -/
def Detected (L : ℕ) (ds : List ℕ) (length : ℕ) : State × ℕ × List ℕ → Prop
  | (.junk, _) => ds = []
  | (.empty, _) => ds = []
  | (.zero, _) => ds ≠ [] ∧ valueFrom L 0 ds = 0
  | (.running, _, rest) =>
    ds ≠ [] ∧ valueFrom L 0 (digits L rest) = valueFrom L 0 ds ∧ rest.length ≤ length

variable {length : ℕ}

/-- A zero has been read. -/
theorem detected_after_zero (hlength : text.length ≤ length) :
    Detected L (0x30 :: digits L text) length (skipLeadingZeros (2 ^ L) true text) := by
  have hvalue : valueFrom L 0 (0x30 :: digits L text) =
      valueFrom L 0 (digits L (text.dropWhile (· = 0x30))) := by
    rw [valueFrom_cons, (digit_eq_zero_iff isDigit_zero).mpr rfl, zero_mul,
      valueFrom_dropWhile_zero]
  have hle := (length_dropWhile_le (· = 0x30) text).trans hlength
  rw [skipLeadingZeros]
  cases hrest : text.dropWhile (· = 0x30) with
  | nil =>
    rw [hrest] at hvalue
    exact ⟨cons_ne_nil _ _, hvalue⟩
  | cons x rest =>
    rw [hrest] at hvalue hle
    exact ⟨cons_ne_nil _ _, hvalue.symm, hle⟩

theorem detected_skipLeadingZeros (htext : text ≠ []) (hlength : text.length ≤ length) :
    Detected L (digits L text) length (skipLeadingZeros (2 ^ L) false text) := by
  obtain ⟨x, text, rfl⟩ := exists_cons_of_ne_nil htext
  by_cases hx : x = 0x30
  · subst hx
    rw [digits_cons, if_pos isDigit_zero]
    exact detected_after_zero (le_of_succ_le hlength)
  · rw [skipLeadingZeros, dropWhile_cons_of_neg (by simpa using hx)]
    by_cases hdigit : isDigit x (2 ^ L)
    · simpa [hx, hdigit, Detected] using hlength
    · simp [hx, hdigit, Detected]

/-- **The prefix** is passed over, and whether there is a digit is found. -/
theorem detected_detectUnsigned (htext : text ≠ []) (hlength : text.length ≤ length) :
    Detected L (digits L (withoutPrefix L text)) length (detectUnsigned false (2 ^ L) text) := by
  obtain ⟨x, text, rfl⟩ := exists_cons_of_ne_nil htext
  by_cases hx : x = 0x30
  · subst hx
    by_cases hL : L = 4
    · subst hL
      -- only radix 16 has a prefix
      rcases text with _ | ⟨y, text⟩
      · exact ⟨cons_ne_nil _ _, rfl⟩
      · by_cases hy : y = 0x78 ∨ y = 0x58
        · have hplain : withoutPrefix 4 (0x30 :: y :: text) = text := if_pos ⟨rfl, hy⟩
          have hdetect : detectPrefix false (2 ^ 4) (0x30 :: y :: text) = afterPrefix 16 text := by
            simp [detectPrefix, hy]
          rw [hplain, detectUnsigned, hdetect, afterPrefix]
          by_cases hnil : text = []
          · rw [if_pos hnil, hnil]
            rfl
          · rw [if_neg hnil]
            exact detected_skipLeadingZeros hnil (le_of_succ_le (le_of_succ_le hlength))
        · have hplain : withoutPrefix 4 (0x30 :: y :: text) = 0x30 :: y :: text :=
            if_neg (mt And.right hy)
          have hdetect : detectPrefix false (2 ^ 4) (0x30 :: y :: text) =
              (.running, 2 ^ 4, true, y :: text) := by
            simp [detectPrefix, hy]
          rw [hplain, detectUnsigned, hdetect, digits_cons, if_pos isDigit_zero]
          exact detected_after_zero (le_of_succ_le hlength)
    · have hplain : withoutPrefix L (0x30 :: text) = 0x30 :: text := by
        cases text <;> simp [withoutPrefix, hL]
      have hdetect : detectPrefix false (2 ^ L) (0x30 :: text) =
          (.running, 2 ^ L, false, 0x30 :: text) := by
        have hne : 2 ^ L ≠ 16 := fun h => hL (Nat.pow_right_injective le_rfl (h : 2 ^ L = 2 ^ 4))
        simp [detectPrefix, hne]
      rw [hplain, detectUnsigned, hdetect]
      exact detected_skipLeadingZeros htext hlength
  · have hplain : withoutPrefix L (x :: text) = x :: text := by
      simp [withoutPrefix, hx]
    have hdetect : detectPrefix false (2 ^ L) (x :: text) =
        (.running, 2 ^ L, false, x :: text) := by
      simp [detectPrefix, hx]
    rw [hplain, detectUnsigned, hdetect]
    exact detected_skipLeadingZeros htext hlength

theorem detected_detectRadixInternal (hL : L ≤ 5) (text : List ℕ) :
    Detected L (digitsOf w L text) text.length (detectRadixInternal w false (2 ^ L) text).2 ∧
      (digitsOf w L text ≠ [] →
        (detectRadixInternal w false (2 ^ L) text).1 = (unsigned w text).1) := by
  have hle := length_dropWhile_le w text
  rw [digitsOf_eq hL, unsigned, detectRadixInternal]
  cases hrest : text.dropWhile w with
  | nil => exact ⟨rfl, fun _ => rfl⟩
  | cons x rest =>
    rw [hrest] at hle
    dsimp only
    split_ifs with hsign hnil
    · subst hnil
      exact ⟨rfl, fun h => absurd rfl h⟩
    · exact ⟨detected_detectUnsigned hnil (le_of_succ_le hle), fun _ => rfl⟩
    · exact ⟨detected_detectUnsigned (cons_ne_nil _ _) hle, fun _ => rfl⟩

/-- **What is parsed**, whatever the radix. -/
theorem numberParseInt_iff (hL : L ≤ 5) (hlength : text.length ≤ kMaxLength) :
    Parses w L text (numberParseInt w L text) ↔
      ¬RoundsBeyond (2 ^ 31) (integer L (digitsOf w L text)) := by
  obtain ⟨hfound, hsign⟩ := detected_detectRadixInternal (w := w) hL text
  have hzero : ¬RoundsBeyond (2 ^ 31) 0 :=
    not_roundsBeyond_of_lt (by norm_num) (Nat.two_pow_pos 53)
  rw [Parses, numberParseInt, integer_eq hL]
  generalize digitsOf w L text = ds at hfound hsign
  generalize detectRadixInternal w false (2 ^ L) text = found at hfound hsign
  obtain ⟨negative, state, radix, rest⟩ := found
  cases state with
  | junk | empty =>
    obtain rfl : ds = [] := hfound
    rw [if_pos rfl]
    exact iff_of_true rfl hzero
  | zero =>
    obtain ⟨hne, hvalue⟩ := hfound
    rw [if_neg hne, ← hsign hne, hvalue]
    refine iff_of_true ⟨0, rfl, rounds_zero ?_⟩ hzero
    exact div_nonneg unit_pos.le zero_le_two
  | running =>
    obtain ⟨hne, hvalue, hle⟩ := hfound
    obtain ⟨b, hb, hrounds⟩ :=
      internalStringToIntDouble_spec (w := w) hL (hle.trans hlength) false
    rw [if_neg hne, ← hsign hne, ← hvalue, ← hrounds]
    dsimp only
    rw [hb]
    refine ⟨?_, fun h => ⟨b, rfl, h⟩⟩
    rintro ⟨b', hb', h⟩
    rwa [show b = b' from (Prod.mk.inj (Option.some.inj hb')).2]

theorem length_digitsOf_le (text : List ℕ) : (digitsOf w L text).length ≤ text.length := by
  have hle := length_dropWhile_le w text
  refine (takeWhile_sublist _).length_le.trans (le_trans ?_ hle)
  rw [unsigned]
  cases text.dropWhile w with
  | nil => exact le_rfl
  | cons x rest =>
    have hplain (text : List ℕ) : (withoutPrefix L text).length ≤ text.length := by
      rw [withoutPrefix.eq_def]
      split
      · split_ifs
        · exact (le_succ _).trans (le_succ _)
        · exact le_rfl
      · exact le_rfl
    dsimp only
    split_ifs
    · exact (hplain rest).trans (le_succ _)
    · exact hplain (x :: rest)

/-- With at most four bits to a digit no number is that large. -/
theorem not_roundsBeyond_of_radix {limit : ℕ} (hL : L ≤ 4) (hlimit : 4 * text.length ≤ limit)
    (htwo : 2 ≤ limit) : ¬RoundsBeyond limit (integer L (digitsOf w L text)) := by
  have hpow : 2 ^ (L * (digitsOf w L text).length) ≤ 2 ^ limit :=
    Nat.pow_le_pow_right (by decide) ((Nat.mul_le_mul hL (length_digitsOf_le text)).trans hlimit)
  have hlt := (valueFrom_zero_lt (digitsOf w L text)).trans_le hpow
  obtain ⟨k, rfl⟩ := Nat.exists_eq_add_of_le' htwo
  rw [RoundsBeyond, integer_eq (hL.trans (by decide)), Nat.add_sub_cancel, add_assoc, pow_add]
  rw [pow_add] at hlt
  omega

/-- **Parsing is right**, in radix 32 exactly if the exponent is an `int`. -/
theorem numberParseInt_parses_iff (hL : L ≤ 5) (hlength : text.length ≤ kMaxLength) :
    Parses w L text (numberParseInt w L text) ↔
      (L = 5 → ¬RoundsBeyond (2 ^ 31) (integer L (digitsOf w L text))) := by
  rw [numberParseInt_iff hL hlength]
  refine ⟨fun h _ => h, fun h => ?_⟩
  rcases hL.lt_or_eq with hlt | heq
  · rw [kMaxLength] at hlength
    exact not_roundsBeyond_of_radix (le_of_lt_succ hlt) (by omega) (by norm_num)
  · exact h heq

/-- `-0xFf`. -/
theorem numberParseInt_parses_iff_hex :
    Parses (· = 0x20) 4 [0x20, 0x2d, 0x30, 0x78, 0x46, 0x66]
      (numberParseInt (· = 0x20) 4 [0x20, 0x2d, 0x30, 0x78, 0x46, 0x66]) :=
  (numberParseInt_parses_iff (by decide) (by decide)).mpr nofun

/-- A number of ones in radix 32 whose exponent wraps around. -/
theorem not_parses_ones {k : ℕ} (hk : 2 ^ 31 + 52 ≤ 5 * k) (hlength : k + 1 ≤ kMaxLength) :
    ¬Parses (· = 0x20) 5 (List.replicate (k + 1) 0x31)
      (numberParseInt (· = 0x20) 5 (List.replicate (k + 1) 0x31)) := by
  have hds : digitsOf (· = 0x20) 5 (List.replicate (k + 1) 0x31) = List.replicate (k + 1) 0x31 := by
    refine takeWhile_eq_self_iff.mpr fun x (hx : x ∈ List.replicate (k + 1) 0x31) => ?_
    rw [eq_of_mem_replicate hx]
    decide +kernel
  have hvalue : 2 ^ (5 * k) ≤ valueFrom 5 0 (List.replicate (k + 1) 0x31) := by
    rw [replicate_succ, valueFrom_cons, valueFrom_eq, length_replicate]
    exact le_add_right_of_le (Nat.le_mul_of_pos_left _ (by decide))
  have hlength' : (List.replicate (k + 1) 0x31).length ≤ kMaxLength := by
    rwa [length_replicate]
  rw [numberParseInt_iff le_rfl hlength', not_not, hds, integer_eq le_rfl]
  exact roundsBeyond_of_le hk hvalue

/-- **Zero and not infinity.** In radix 32, 429496742 ones. -/
theorem not_parses_radix32 : 429496742 ≤ kMaxLength ∧
    ¬Parses (· = 0x20) 5 (List.replicate 429496742 0x31)
      (numberParseInt (· = 0x20) 5 (List.replicate 429496742 0x31)) :=
  have hle : 429496742 ≤ kMaxLength := by decide
  ⟨hle, not_parses_ones (by norm_num) hle⟩

end StringToInt
