import V8Speak.Utf8Stream

/-!
# Reading a string that is expected

`ReadExpectedString` of the value deserializer tries whether the next key of an object is
the one that is expected. It reads a tag, a length and as many bytes, and compares. If
they are not the expected string, the position is set back, so that the key can be read
as any value.

There is one way out that forgets this: the input may end in the tag or in the length.
All of it has been read then, and the position stays at the end.

A position is given by what is left of the input from it on.
-/

open List Reference

namespace ValueDeserializer

/-! ## The code -/

def kPadding : UInt8 := 0

def kUtf8String : UInt8 := 83

def kOneByteString : UInt8 := 34

def kTwoByteString : UInt8 := 99

def readTag : List UInt8 → Option UInt8 × List UInt8
  | [] => (none, [])
  | tag :: rest => if tag = kPadding then readTag rest else (some tag, rest)

/-- `ReadVarintLoop`, for a type of 32 bits. -/
def readVarintLoop (value : BitVec 32) (shift : ℕ) : List UInt8 → Option (BitVec 32) × List UInt8
  | [] => (none, [])
  | byte :: rest =>
    if shift < 32 then
      let value := value ||| ((byte &&& 0x7F).toBitVec.setWidth 32 <<< shift)
      if byte &&& 0x80 ≠ 0 then readVarintLoop value (shift + 7) rest else (some value, rest)
    else (some value, byte :: rest) -- a byte that is not read

/-- The iterations of the loop unrolled by hand. -/
def readVarintUnrolled : List ℕ → BitVec 32 → List UInt8 → Option (BitVec 32) × List UInt8
  | [], value, rest => (some value, rest)
  | _ :: _, _, [] => (none, [])
  | shift :: shifts, value, byte :: rest =>
    if byte < 0x80 then (some (value ||| (byte.toBitVec.setWidth 32 <<< shift)), rest)
    else
      readVarintUnrolled shifts (value ||| ((byte &&& 0x7F).toBitVec.setWidth 32 <<< shift)) rest

/-- `ReadVarint<uint32_t>`. -/
def readVarint (rest : List UInt8) : Option (BitVec 32) × List UInt8 :=
  if rest.length ≤ 4 + 1 then readVarintLoop 0 0 rest
  else readVarintUnrolled [0, 7, 14, 21, 28] 0 rest

def readRawBytes (size : ℕ) (rest : List UInt8) : Option (List UInt8) × List UInt8 :=
  if size > rest.length then (none, rest) else (some (rest.take size), rest.drop size)

/-- The characters of a string that is flat. -/
inductive FlatContent
  | oneByte (chars : List UInt8)
  | twoByte (chars : List UInt16)

/-- The bytes of characters in memory. -/
def memory (chars : List UInt16) : List UInt8 :=
  chars.flatMap fun c : UInt16 => [c.toUInt8, (c >>> 8).toUInt8]

/-- Whether the bytes are those of the string. -/
def isVerbatim (tag : UInt8) (bytes : List UInt8) : FlatContent → Bool
  | .oneByte chars =>
    tag = kOneByteString ∧ bytes = chars ∨
      tag = kUtf8String ∧ bytes.length = chars.length ∧ (∀ c ∈ chars, c < 0x80) ∧ bytes = chars
  | .twoByte chars => tag = kTwoByteString ∧ bytes.length = chars.length * 2 ∧ bytes = memory chars

/-- `ReadExpectedString`, and what is left after it. -/
def readExpectedString (expected : FlatContent) (input : List UInt8) : Bool × List UInt8 :=
  match readTag input with
  | (none, rest) => (false, rest)
  | (some tag, rest) =>
    match readVarint rest with
    | (none, rest) => (false, rest)
    | (some byteLength, rest) =>
      match readRawBytes byteLength.toNat rest with
      | (none, _) => (false, input)
      | (some bytes, rest) =>
        if isVerbatim tag bytes expected then (true, rest) else (false, input)

/-! ## Tokens -/

def FlatContent.units : FlatContent → List ℕ
  | .oneByte chars => chars.map UInt8.toNat
  | .twoByte chars => chars.map UInt16.toNat

/-- The contents of a string, as UTF-16 code units. -/
inductive Contents : UInt8 → List UInt8 → List ℕ → Prop
  | oneByte (bytes) : Contents kOneByteString bytes (bytes.map UInt8.toNat)
  | twoByte (chars) : Contents kTwoByteString (memory chars) (chars.map UInt16.toNat)
  | utf8 (bytes) : Contents kUtf8String bytes ((decode bytes).flatMap utf16)

/-- The number that bytes stand for in base 128, the lowest seven bits first. -/
def base128 (bytes : List UInt8) : ℕ := Nat.ofDigits 128 (bytes.map fun b => b.toNat % 128)

/-- **The bytes of a length**, and what follows them. All but the last have their high bit set,
and the last has not. Only a fifth byte ends a length in any case, if more input follows. -/
def IsLength (length rest : List UInt8) : Prop :=
  ∃ init last, length = init ++ [last] ∧ (∀ b ∈ init, 0x80 ≤ b) ∧ init.length ≤ 4 ∧
    (last < 0x80 ∨ init.length = 4 ∧ rest ≠ [])

/-- **A string at the beginning of the input**, and what is left after it: padding, a tag, a
length and as many bytes. -/
structure Token (input rest : List UInt8) (units : List ℕ) where
  padding : List UInt8
  tag : UInt8
  length : List UInt8
  bytes : List UInt8
  input_eq : input = padding ++ tag :: (length ++ (bytes ++ rest))
  isPadding : ∀ b ∈ padding, b = kPadding
  tag_ne : tag ≠ kPadding
  isLength : IsLength length (bytes ++ rest)
  /-- The length has 32 bits. -/
  length_eq : base128 length % 2 ^ 32 = bytes.length
  contents : Contents tag bytes units

/-- The string is taken, or the position is where it was. -/
structure TakesOrLeaves (expected : FlatContent) (input : List UInt8) (r : Bool × List UInt8) :
    Prop where
  takes : r.1 = true → Nonempty (Token input r.2 expected.units)
  leaves : r.1 = false → r.2 = input

variable (input : List UInt8)

/-- The input does not end in the tag or in the length: after padding there is a tag, and after
the tag a byte whose high bit is not set, or more than five bytes. -/
def HasLength : Prop :=
  ∃ padding tag rest, input = padding ++ tag :: rest ∧ (∀ b ∈ padding, b = kPadding) ∧
    tag ≠ kPadding ∧ ((∃ b ∈ rest, b < 0x80) ∨ 5 < rest.length)

/-! ## What is read -/

theorem readTag_padding {padding : List UInt8} (h : ∀ b ∈ padding, b = kPadding) :
    readTag (padding ++ input) = readTag input := by
  induction padding with
  | nil => rfl
  | cons b padding ih =>
    obtain ⟨hb, hpadding⟩ := forall_mem_cons.1 h
    rw [cons_append, readTag, if_pos hb, ih hpadding]

theorem readTag_spec : ∃ padding, (∀ b ∈ padding, b = kPadding) ∧
    (input = padding ∧ readTag input = (none, []) ∨
      ∃ tag rest, input = padding ++ tag :: rest ∧ tag ≠ kPadding ∧
        readTag input = (some tag, rest)) := by
  induction input with
  | nil => exact ⟨[], nofun, .inl ⟨rfl, rfl⟩⟩
  | cons b input ih =>
    rw [readTag]
    split
    · next hb =>
      obtain ⟨padding, hpadding, h⟩ := ih
      refine ⟨b :: padding, forall_mem_cons.2 ⟨hb, hpadding⟩, ?_⟩
      rcases h with ⟨rfl, h⟩ | ⟨tag, rest, rfl, h⟩
      · exact .inl ⟨rfl, h⟩
      · exact .inr ⟨tag, rest, rfl, h⟩
    · next hb => exact ⟨[], nofun, .inr ⟨b, input, rfl, hb, rfl⟩⟩

theorem readTag_cons {tag : UInt8} (h : tag ≠ kPadding) :
    readTag (tag :: input) = (some tag, input) := if_neg h

/-! ## The length

Both ways of reading a length keep the value of the bytes read so far, `done`, all of which have
their high bit set. -/

theorem base128_append (done : List UInt8) (b : UInt8) :
    base128 (done ++ [b]) = base128 done + b.toNat % 128 * 2 ^ (7 * done.length) := by
  rw [base128, base128, map_append, Nat.ofDigits_append, length_map, map_singleton,
    Nat.ofDigits_singleton, pow_mul, Nat.mul_comm]
  rfl

theorem base128_lt (done : List UInt8) : base128 done < 2 ^ (7 * done.length) := by
  have hlength : (done.map fun b => b.toNat % 128).length = done.length := length_map _
  rw [pow_mul, ← hlength]
  refine Nat.ofDigits_lt_base_pow_length (by decide) fun x hx => ?_
  obtain ⟨b, -, rfl⟩ := mem_map.1 hx
  exact Nat.mod_lt _ (by decide)

/-- Seven more bits, above those there are. -/
theorem or_shiftLeft_eq (done : List UInt8) (b : UInt8) :
    BitVec.ofNat 32 (base128 done) |||
        BitVec.ofNat 32 (b.toNat % 128) <<< (7 * done.length) =
      BitVec.ofNat 32 (base128 (done ++ [b])) := by
  rw [base128_append, ← Nat.shiftLeft_eq, Nat.add_comm,
    Nat.shiftLeft_add_eq_or_of_lt (base128_lt done), Nat.lor_comm, BitVec.ofNat_or]
  congr 1
  refine BitVec.eq_of_toNat_eq ?_
  rw [BitVec.toNat_shiftLeft, BitVec.toNat_ofNat, BitVec.toNat_ofNat, Nat.shiftLeft_eq,
    Nat.shiftLeft_eq, Nat.mod_mul_mod]

theorem setWidth_and (b : UInt8) :
    (b &&& 0x7F).toBitVec.setWidth 32 = BitVec.ofNat 32 (b.toNat % 128) := by
  refine BitVec.eq_of_toNat_eq ?_
  rw [BitVec.toNat_setWidth, BitVec.toNat_ofNat]
  exact congrArg (· % 2 ^ 32) (Nat.and_two_pow_sub_one_eq_mod b.toNat 7)

theorem setWidth_of_lt {b : UInt8} (h : b < 0x80) :
    b.toBitVec.setWidth 32 = BitVec.ofNat 32 (b.toNat % 128) := by
  refine BitVec.eq_of_toNat_eq ?_
  rw [BitVec.toNat_setWidth, BitVec.toNat_ofNat, Nat.mod_eq_of_lt (show b.toNat < 128 from h)]
  rfl

theorem and_eq_zero_iff (b : UInt8) : b &&& 0x80 = 0 ↔ b < 0x80 := by
  have h : ∀ n < 256, n &&& 128 = 0 ↔ n < 128 := by decide +kernel
  rw [← UInt8.toNat_inj]
  exact h b.toNat b.toNat_lt

/-- The outcome of reading a length whose first bytes are `done`. -/
def ReadsLength (done input : List UInt8) (r : Option (BitVec 32) × List UInt8) : Prop :=
  ∃ length rest, input = length ++ rest ∧ IsLength (done ++ length) rest ∧
    r = (some (BitVec.ofNat 32 (base128 (done ++ length))), rest)

theorem ReadsLength.last {done : List UInt8} (hdone : ∀ b ∈ done, 0x80 ≤ b)
    (hlen : done.length ≤ 4) {b : UInt8} (hb : b < 0x80) (input : List UInt8) :
    ReadsLength done (b :: input) (some (BitVec.ofNat 32 (base128 (done ++ [b]))), input) :=
  ⟨[b], input, rfl, ⟨done, b, rfl, hdone, hlen, .inl hb⟩, rfl⟩

theorem ReadsLength.cons {done input : List UInt8} {b : UInt8} {r}
    (h : ReadsLength (done ++ [b]) input r) : ReadsLength done (b :: input) r := by
  obtain ⟨length, rest, rfl, hlength, rfl⟩ := h
  rw [append_assoc] at hlength ⊢
  exact ⟨b :: length, rest, rfl, hlength, rfl⟩

theorem readVarintLoop_reads {done input : List UInt8} (hdone : ∀ b ∈ done, 0x80 ≤ b)
    (hlen : done.length + input.length ≤ 5) (hends : ∃ b ∈ input, b < 0x80) :
    ReadsLength done input
      (readVarintLoop (BitVec.ofNat 32 (base128 done)) (7 * done.length) input) := by
  induction input generalizing done with
  | nil => exact absurd hends (by simp)
  | cons b input ih =>
    rw [length_cons] at hlen
    rw [readVarintLoop, if_pos (by omega), setWidth_and, or_shiftLeft_eq]
    dsimp only
    split
    · next hb =>
      have hhigh : ¬ b < 0x80 := fun h => hb ((and_eq_zero_iff b).2 h)
      have hmore := @ih (done ++ [b])
        (forall_mem_append.2 ⟨hdone, forall_mem_singleton.2 (UInt8.not_lt.1 hhigh)⟩)
        (by rw [length_append, length_singleton]; omega)
        (by simpa [hhigh] using hends)
      rw [length_append, length_singleton] at hmore
      exact hmore.cons
    · next hb => exact .last hdone (by omega) ((and_eq_zero_iff b).1 (not_not.1 hb)) input

theorem readVarintLoop_none {input : List UInt8} (value : BitVec 32) {shift : ℕ}
    (hlen : shift + 7 * input.length ≤ 35) (h : ∀ b ∈ input, 0x80 ≤ b) :
    readVarintLoop value shift input = (none, []) := by
  induction input generalizing value shift with
  | nil => rfl
  | cons b input ih =>
    obtain ⟨hb, hinput⟩ := forall_mem_cons.1 h
    rw [length_cons] at hlen
    rw [readVarintLoop, if_pos (by omega)]
    dsimp only
    rw [if_pos (fun h0 => UInt8.not_lt.2 hb ((and_eq_zero_iff b).1 h0))]
    exact ih _ (by omega) hinput

theorem readVarintUnrolled_reads {shifts : List ℕ} {done input : List UInt8}
    (hshifts : shifts = [0, 7, 14, 21, 28].drop done.length) (hdone : ∀ b ∈ done, 0x80 ≤ b)
    (hle : done.length ≤ 5) (hlen : 5 < done.length + input.length) :
    ReadsLength done input
      (readVarintUnrolled shifts (BitVec.ofNat 32 (base128 done)) input) := by
  induction shifts generalizing done input with
  | nil =>
    -- five bytes with their high bit set
    have hfive : 5 ≤ done.length := drop_eq_nil_iff.1 hshifts.symm
    obtain ⟨init, last, rfl⟩ :=
      eq_nil_or_concat' done |>.resolve_left (by rintro rfl; simp at hfive)
    rw [length_append, length_singleton] at hle hlen hfive
    refine ⟨[], input, rfl, ⟨init, last, append_nil _, fun b hb => hdone b (mem_append_left _ hb),
      by omega, .inr ⟨by omega, ?_⟩⟩, by rw [append_nil]; rfl⟩
    rintro rfl
    simp at hlen
    omega
  | cons shift shifts ih =>
    have hlt : done.length < 5 := by
      refine lt_of_not_ge fun h => ?_
      rw [drop_eq_nil_of_le (by exact h)] at hshifts
      cases hshifts
    cases input with
    | nil => simp at hlen; omega
    | cons b input =>
      rw [length_cons] at hlen
      have hcut := drop_eq_getElem_cons (l := [0, 7, 14, 21, 28]) hlt
      obtain ⟨hshift, hrest⟩ := cons.inj (hshifts.trans hcut)
      have hseven : [0, 7, 14, 21, 28][done.length] = 7 * done.length := by
        generalize done.length = n at hlt
        interval_cases n <;> rfl
      rw [readVarintUnrolled, hshift, hseven]
      split
      · next hb =>
        rw [setWidth_of_lt hb, or_shiftLeft_eq]
        exact .last hdone (by omega) hb input
      · next hb =>
        rw [setWidth_and, or_shiftLeft_eq]
        refine (ih ?_ ?_ ?_ ?_).cons
        · rw [length_append, length_singleton, hrest]
        · exact forall_mem_append.2 ⟨hdone, forall_mem_singleton.2 (UInt8.not_lt.1 hb)⟩
        · rw [length_append, length_singleton]; omega
        · rw [length_append, length_singleton]; omega

/-- **A length is read where there is one**, up to its last byte and with its value. -/
theorem readVarint_reads {input : List UInt8} (h : (∃ b ∈ input, b < 0x80) ∨ 5 < input.length) :
    ReadsLength [] input (readVarint input) := by
  rw [readVarint]
  split
  · next hlen => exact readVarintLoop_reads nofun (by simpa using hlen) (h.resolve_right (by omega))
  · next hlen => exact readVarintUnrolled_reads rfl nofun (by decide) (by simpa using hlen)

/-- If the input ends in the length, all of it is read. -/
theorem readVarint_none {input : List UInt8} (h : ¬((∃ b ∈ input, b < 0x80) ∨ 5 < input.length)) :
    readVarint input = (none, []) := by
  obtain ⟨hhigh, hlen⟩ := not_or.1 h
  rw [readVarint, if_pos (not_lt.1 hlen)]
  exact readVarintLoop_none 0 (by omega) fun b hb => UInt8.not_lt.1 fun hlt => hhigh ⟨b, hb, hlt⟩

/-- A text of ASCII characters is not changed by decoding. -/
theorem decode_ascii {bytes : List UInt8} (h : ∀ b ∈ bytes, b < 0x80) :
    (decode bytes).flatMap utf16 = bytes.map UInt8.toNat := by
  induction bytes with
  | nil => rfl
  | cons b bytes ih =>
    obtain ⟨hb, hbytes⟩ := forall_mem_cons.1 h
    have hb : b.toNat ≤ 0x7F := Nat.le_of_lt_succ hb
    have hfeed : initial.feed b = ([b.toNat], .initial) := by
      simp [feed, handle, initial, hb]
    have hunit : utf16 b.toNat = [b.toNat] := if_pos (hb.trans (by decide))
    rw [decode, decodeFrom, hfeed, flatMap_append, flatMap_singleton, hunit, map_cons, ← ih hbytes]
    rfl

theorem contents_of_isVerbatim {tag : UInt8} {bytes : List UInt8} {expected : FlatContent}
    (h : isVerbatim tag bytes expected = true) : Contents tag bytes expected.units := by
  cases expected with
  | oneByte chars =>
    rcases of_decide_eq_true h with ⟨rfl, rfl⟩ | ⟨rfl, -, hascii, rfl⟩
    · exact .oneByte bytes
    · rw [FlatContent.units, ← decode_ascii hascii]
      exact .utf8 bytes
  | twoByte chars =>
    obtain ⟨rfl, -, rfl⟩ := of_decide_eq_true h
    exact .twoByte chars

/-- Without a length, nothing is left. -/
theorem takesOrLeaves_nil (expected : FlatContent) (input : List UInt8) :
    TakesOrLeaves expected input (false, []) ↔ input = [] :=
  ⟨fun h => (h.leaves rfl).symm, fun h => ⟨nofun, fun _ => h.symm⟩⟩

theorem hasLength_iff {padding rest : List UInt8} {tag : UInt8}
    (hpadding : ∀ b ∈ padding, b = kPadding) (htag : tag ≠ kPadding) :
    HasLength (padding ++ tag :: rest) ↔ (∃ b ∈ rest, b < 0x80) ∨ 5 < rest.length := by
  refine ⟨?_, fun h => ⟨padding, tag, rest, rfl, hpadding, htag, h⟩⟩
  rintro ⟨padding', tag', rest', heq, hpadding', htag', h⟩
  -- the tag that is read is the one after the padding
  have hread := congrArg readTag heq
  rw [readTag_padding _ hpadding, readTag_padding _ hpadding', readTag_cons _ htag,
    readTag_cons _ htag'] at hread
  rwa [(Prod.mk.inj hread).2]

theorem not_hasLength {padding : List UInt8} (hpadding : ∀ b ∈ padding, b = kPadding) :
    ¬HasLength padding := by
  rintro ⟨padding', tag, rest, rfl, -, htag, -⟩
  exact htag (hpadding tag (mem_append_right _ mem_cons_self))

/-- **`ReadExpectedString` takes the expected string or leaves the position**, unless the
input ends in a tag or in a length. -/
theorem readExpectedString_iff (expected : FlatContent) (input : List UInt8) :
    TakesOrLeaves expected input (readExpectedString expected input) ↔
      input = [] ∨ HasLength input := by
  unfold readExpectedString
  obtain ⟨padding, hpadding, ⟨rfl, hread⟩ | ⟨tag, rest, rfl, htag, hread⟩⟩ := readTag_spec input
  · rw [hread, or_iff_left (not_hasLength hpadding)]
    exact takesOrLeaves_nil expected input
  rw [hread, hasLength_iff hpadding htag, or_iff_right (by simp)]
  dsimp only
  by_cases hlength : (∃ b ∈ rest, b < 0x80) ∨ 5 < rest.length
  swap
  · rw [readVarint_none hlength, iff_false_right hlength]
    exact fun h => absurd ((takesOrLeaves_nil ..).1 h) (by simp)
  obtain ⟨length, rest, rfl, hlen, hvarint⟩ := readVarint_reads hlength
  rw [nil_append] at hlen hvarint
  rw [hvarint, iff_true_right hlength]
  dsimp only [readRawBytes]
  rw [BitVec.toNat_ofNat]
  by_cases hsize : base128 length % 2 ^ 32 > rest.length
  · rw [if_pos hsize]
    exact ⟨nofun, fun _ => rfl⟩
  rw [if_neg hsize]
  dsimp only
  split
  · next hverbatim =>
    refine ⟨fun _ => ⟨⟨padding, tag, length, rest.take (base128 length % 2 ^ 32), ?_, hpadding, htag,
      ?_, ?_, contents_of_isVerbatim hverbatim⟩⟩, nofun⟩
    · rw [take_append_drop]
    · rwa [take_append_drop]
    · rw [length_take_of_le (not_lt.1 hsize)]
  · exact ⟨nofun, fun _ => rfl⟩

/-- The input ends after the tag. -/
theorem readExpectedString_tag :
    readExpectedString (.oneByte [65]) [kOneByteString] = (false, []) ∧
      ¬TakesOrLeaves (.oneByte [65]) [kOneByteString]
        (readExpectedString (.oneByte [65]) [kOneByteString]) := by
  have hread : readExpectedString (.oneByte [65]) [kOneByteString] = (false, []) := by decide
  rw [hread, takesOrLeaves_nil]
  exact ⟨rfl, by decide⟩

end ValueDeserializer
