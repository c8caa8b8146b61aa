import Mathlib
import V8Speak.Lockstep

/-!
# The byte stream of the preparse data

`PreparseDataBuilder::ByteData` writes varints, bytes and *quarters* – two
bits, four of which share a byte – and `BaseConsumedPreparseData::ByteData`
reads them back (`parsing/preparse-data.cc`, `parsing/preparse-data-impl.h`,
release build: the size markers of debug builds are not written).

The quarters are the delicate part. The writer patches the last byte it has
added as long as `free_quarters_in_last_byte_` is positive; the reader
fetches that byte at its first quarter and shifts the others out of
`stored_byte_`. Any varint or byte resets the packing on both sides. The
writer state and the reader state are compared by `quarters`, an instance
of `Lockstep` relative to the bytes the writer finally produces, and every
primitive is shown to correspond to its reading.

`ByteData::Reserve` only grows the vector that `Add` stores into; here the
vector is the list of the bytes added so far.
-/

open Nat

namespace PreparseDataBuilder

/-- `PreparseDataBuilder::ByteData`: the bytes added, and how many quarters
of the last one are still free. -/
structure ByteData where
  /-- The bytes below `index_`. -/
  byteData : List Nat
  freeQuartersInLastByte : Nat
  deriving Repr, DecidableEq

namespace ByteData

/-- The state `ByteData::Start` begins with. -/
def start : ByteData := ⟨[], 0⟩

variable (w : ByteData)

def add (byte : Nat) : ByteData :=
  { w with byteData := w.byteData ++ [byte % 256] }

/-- The loop of `WriteVarint32`: seven bits per byte, the lowest first,
with the continue bit on every byte but the last. -/
def addVarint (w : ByteData) (data : Nat) : ByteData :=
  if h : data >>> 7 = 0 then w.add (data &&& 0x7F)
  else (w.add ((data &&& 0x7F) ||| 0x80)).addVarint (data >>> 7)
termination_by data
decreasing_by
  simp only [shiftRight_eq_div_pow] at h ⊢
  omega

def writeVarint32 (data : UInt32) : ByteData :=
  { w.addVarint data.toNat with freeQuartersInLastByte := 0 }

def writeUint8 (data : Nat) : ByteData :=
  { w.add data with freeQuartersInLastByte := 0 }

/-- The update `(*byte_data_)[index_ - 1] |= bits`. -/
def orLast (bytes : List Nat) (bits : Nat) : List Nat :=
  bytes.modify (bytes.length - 1) (fun b => b ||| bits % 256)

/-- `ByteData::WriteQuarter`: opens a new byte if the last one is full. -/
def writeQuarter (data : Nat) : ByteData :=
  let w := if w.freeQuartersInLastByte = 0 then
      { w.add 0 with freeQuartersInLastByte := 3 }
    else { w with freeQuartersInLastByte := w.freeQuartersInLastByte - 1 }
  { w with byteData := orLast w.byteData (data <<< (w.freeQuartersInLastByte * 2)) }

end ByteData

end PreparseDataBuilder

namespace ConsumedPreparseData

/-- `PreparseDataBuilder::ByteData`: the bytes added, and how many quarters
of the last one are still free. -/
structure ByteData where
  /-- The bytes being read. -/
  data : List Nat
  index : Nat
  storedQuarters : Nat
  storedByte : Nat
  deriving Repr, DecidableEq

/-- A reading action; `none` is a failed `CHECK` or an access outside the
data. -/
abbrev Read (α : Type) := StateT ByteData Option α

namespace ByteData

/-- The reader at the start of its data. -/
def start (data : List Nat) : ByteData := ⟨data, 0, 0, 0⟩

def remainingBytes (r : ByteData) : Nat := r.data.length - r.index

def hasRemainingBytes (r : ByteData) (bytes : Nat) : Bool :=
  r.index ≤ r.data.length && bytes ≤ r.remainingBytes

end ByteData

/-- The access `data_.get(index_++)`. -/
def nextByte : Read Nat := fun r =>
  (r.data[r.index]?).map (fun byte => (byte, { r with index := r.index + 1 }))

/-- The loop of `ReadVarint32`. -/
def readVarintLoop (r : ByteData) (value shift : Nat) : Option (Nat × ByteData) :=
  match h : r.data[r.index]? with
  | none => none
  | some byte =>
    let value := (value ||| ((byte &&& 0x7F) <<< shift)) % 2 ^ 32
    let r := { r with index := r.index + 1 }
    if byte &&& 0x80 ≠ 0 then readVarintLoop r value (shift + 7) else some (value, r)
termination_by r.data.length - r.index
decreasing_by
  have := (List.getElem?_eq_some_iff.mp h).1
  omega

/-- `ByteData::ReadVarint32`, an `int32_t`. -/
def readVarint32 : Read Int32 := fun r =>
  (readVarintLoop r 0 0).map (fun p =>
    (Int32.ofUInt32 (UInt32.ofNat p.1), { p.2 with storedQuarters := 0 }))

def readUint8 : Read Nat := do
  modify (fun r => { r with storedQuarters := 0 })
  nextByte

def readQuarter : Read Nat := do
  if (← get).storedQuarters = 0 then
    let byte ← nextByte
    modify (fun r => { r with storedByte := byte, storedQuarters := 4 })
  let r ← get
  let result := (r.storedByte >>> 6) &&& 3
  set { r with storedQuarters := r.storedQuarters - 1, storedByte := (r.storedByte <<< 2) % 256 }
  return result

end ConsumedPreparseData

/-! ## The two states compared -/

open PreparseDataBuilder ConsumedPreparseData

/-- **Writer and reader in lockstep.** The output agrees with every byte
the writer has added, except that the free quarters of the last one are
still open; the reader stands behind the last byte added, and holds of it
the quarters that are open. -/
def quarters : Lockstep PreparseDataBuilder.ByteData ConsumedPreparseData.ByteData (List Nat) where
  Extends w o := ∀ i x, w.byteData[i]? = some x → ∃ y, o[i]? = some y ∧
    y / 4 ^ (if i + 1 = w.byteData.length then w.freeQuartersInLastByte else 0)
      = x / 4 ^ (if i + 1 = w.byteData.length then w.freeQuartersInLastByte else 0)
  Matched w o r := r.data = o ∧ r.index = w.byteData.length
    ∧ r.storedQuarters = w.freeQuartersInLastByte ∧ w.freeQuartersInLastByte ≤ 3
    ∧ (0 < w.freeQuartersInLastByte → ∃ init last y,
        w.byteData = init ++ [last] ∧ 4 ^ w.freeQuartersInLastByte ∣ last
        ∧ last < 256 ∧ o[init.length]? = some y
        ∧ r.storedByte = y * 4 ^ (4 - w.freeQuartersInLastByte) % 256)

/-- The two sides start in lockstep. -/
theorem quarters_matched_start (o : List Nat) :
    quarters.Matched ByteData.start o (ConsumedPreparseData.ByteData.start o) :=
  ⟨rfl, rfl, rfl, Nat.zero_le 3, fun h => absurd h (Nat.lt_irrefl 0)⟩

/-- What the writer has produced when it stops is an output of its last
state. -/
theorem quarters_extends_self (w : PreparseDataBuilder.ByteData) : quarters.Extends w w.byteData :=
  fun _ x h => ⟨x, h, rfl⟩

variable {w : PreparseDataBuilder.ByteData} {o : List Nat} {byte f : Nat}

/-- **A byte added settles all earlier ones.** -/
theorem extends_of_append
    (h : quarters.Extends ⟨w.byteData ++ [byte], f⟩ o) : quarters.Extends w o := by
  intro i x hx
  have hi : i < w.byteData.length := (List.getElem?_eq_some_iff.mp hx).1
  obtain ⟨y, hy, hyx⟩ := h i x (by rw [List.getElem?_append_left hi]; exact hx)
  have hlast : ¬ i + 1 = (w.byteData ++ [byte]).length := by
    rw [List.length_append, List.length_singleton]
    omega
  rw [if_neg hlast, pow_zero, Nat.div_one, Nat.div_one] at hyx
  exact ⟨y, hy, by rw [hyx]⟩

/-- A byte added last stands in the output, up to its free quarters. -/
theorem getElem?_of_extends_append (h : quarters.Extends ⟨w.byteData ++ [byte], f⟩ o) :
    ∃ y, o[w.byteData.length]? = some y ∧ y / 4 ^ f = byte / 4 ^ f := by
  obtain ⟨y, hy, hyx⟩ := h w.byteData.length byte (by simp)
  rw [if_pos (by simp)] at hyx
  exact ⟨y, hy, hyx⟩

/-! ## The primitives correspond to their reading -/

variable {data : Nat}

/-- **A byte is read back**, and the packing restarts on both sides. -/
theorem writeUint8_corresponds (hdata : data < 256) :
    quarters.Corresponds (fun w => w.writeUint8 data) readUint8 data := by
  have hwrite : ∀ w : PreparseDataBuilder.ByteData,
      w.writeUint8 data = ⟨w.byteData ++ [data], 0⟩ := by
    intro w
    rw [ByteData.writeUint8, ByteData.add, mod_eq_of_lt hdata]
  refine ⟨fun {w o} h => extends_of_append (hwrite w ▸ h), fun {w o r} h hm => ?_⟩
  obtain ⟨hd, hi, -, -, -⟩ := hm
  obtain ⟨y, hy, hyd⟩ := getElem?_of_extends_append (hwrite w ▸ h)
  rw [pow_zero, Nat.div_one, Nat.div_one] at hyd
  subst hyd
  refine ⟨{ r with index := r.index + 1, storedQuarters := 0 }, ?_, ?_⟩
  · have hr : r.data[r.index]? = some y := by rw [hd, hi]; exact hy
    simp [readUint8, nextByte, StateT.run, bind, StateT.bind, modify, modifyGet,
      MonadStateOf.modifyGet, StateT.modifyGet, pure, hr]
  · rw [hwrite]
    refine ⟨hd, ?_, rfl, Nat.zero_le 3, fun h => absurd h (Nat.lt_irrefl 0)⟩
    simp [hi]

/-- The quarters above position `f` and the quarter at `f`, as powers of
two. -/
theorem four_pow (f : Nat) : (4 : Nat) ^ f = 2 ^ (f * 2) := by
  rw [mul_comm, pow_mul]
  norm_num

/-- A quarter at position `f` stays below the next position. -/
theorem quarter_shift_lt (f : Nat) (hdata : data < 4) : data <<< (f * 2) < 2 ^ ((f + 1) * 2) := by
  rw [shiftLeft_eq, add_mul, pow_add, mul_comm (2 ^ (f * 2))]
  exact Nat.mul_lt_mul_of_pos_right (by omega) (Nat.two_pow_pos _)

/-- Or-ing a quarter into a byte leaves the quarters above it alone. -/
theorem or_quarter_div (last f : Nat) (hdata : data < 4) :
    (last ||| data <<< (f * 2) % 256) / 4 ^ (f + 1) = last / 4 ^ (f + 1) := by
  have hlt : data <<< (f * 2) % 256 < 2 ^ ((f + 1) * 2) :=
    (mod_le _ _).trans_lt (quarter_shift_lt f hdata)
  rw [four_pow, or_div_two_pow, div_eq_of_lt hlt, or_zero]

/-- Or-ing a quarter into a byte whose low quarters are free adds it. -/
theorem or_quarter_eq_add {last data f : Nat} (hdvd : 4 ^ (f + 1) ∣ last) (hdata : data < 4) :
    last ||| data <<< (f * 2) = last + data * 4 ^ f := by
  obtain ⟨k, rfl⟩ := hdvd
  rw [four_pow (f + 1), ← two_pow_add_eq_or_of_lt (quarter_shift_lt f hdata),
    shiftLeft_eq, four_pow f]

/-- The last byte of a list, or-ed with some bits. -/
theorem orLast_append (init : List Nat) (last bits : Nat) :
    ByteData.orLast (init ++ [last]) bits = init ++ [last ||| bits % 256] := by
  have hlen : (init ++ [last]).length - 1 = init.length := by simp
  rw [ByteData.orLast, hlen, List.modify_eq_take_cons_drop (by simp)]
  simp

variable {r : ConsumedPreparseData.ByteData}

/-- Reading a quarter when `stored_quarters_` is zero fetches a byte. -/
theorem readQuarter_fresh {y : Nat} (h0 : r.storedQuarters = 0) (hr : r.data[r.index]? = some y) :
    readQuarter.run r = some ((y >>> 6) &&& 3, ⟨r.data, r.index + 1, 3, (y <<< 2) % 256⟩) := by
  simp [readQuarter, nextByte, StateT.run, bind, StateT.bind, modify, modifyGet,
    MonadStateOf.modifyGet, StateT.modifyGet, pure, StateT.pure, get, getThe,
    MonadStateOf.get, StateT.get, set, StateT.set, h0, hr]

/-- Reading a quarter of the byte already stored. -/
theorem readQuarter_stored (h0 : r.storedQuarters ≠ 0) :
    readQuarter.run r = some ((r.storedByte >>> 6) &&& 3,
      ⟨r.data, r.index, r.storedQuarters - 1, (r.storedByte <<< 2) % 256⟩) := by
  simp [readQuarter, StateT.run, bind, StateT.bind, pure, StateT.pure, get, getThe,
    MonadStateOf.get, StateT.get, set, StateT.set, h0]

/-- A quarter that opens a byte. -/
theorem writeQuarter_fresh (hdata : data < 4) (h0 : w.freeQuartersInLastByte = 0) :
    w.writeQuarter data = ⟨w.byteData ++ [data * 64], 3⟩ := by
  have hor : 0 ||| data <<< (3 * 2) % 256 = data * 64 := by
    rw [zero_or, shiftLeft_eq, mod_eq_of_lt (by omega)]
  rw [ByteData.writeQuarter, if_pos h0]
  simp only [ByteData.add, zero_mod, orLast_append]
  rw [hor]

/-- A quarter that goes into the last byte. -/
theorem writeQuarter_stored {init : List Nat} {last f data : Nat} (hdata : data < 4) (hf : f ≤ 2) :
    ByteData.writeQuarter ⟨init ++ [last], f + 1⟩ data
      = ⟨init ++ [last ||| data <<< (f * 2)], f⟩ := by
  have hlt : data <<< (f * 2) < 256 :=
    (quarter_shift_lt f hdata).trans_le (by
      calc 2 ^ ((f + 1) * 2) ≤ 2 ^ 6 := Nat.pow_le_pow_right (by norm_num) (by omega)
        _ ≤ 256 := by norm_num)
  simp only [ByteData.writeQuarter, succ_ne_zero, if_false, Nat.add_sub_cancel,
    orLast_append, mod_eq_of_lt hlt]

/-- A quarter that goes into the last byte leaves the bytes before it and
the quarters above it. -/
theorem extends_of_writeQuarter_stored (hdata : data < 4) (h0 : w.freeQuartersInLastByte ≠ 0)
    (h : quarters.Extends (w.writeQuarter data) o) : quarters.Extends w o := by
  obtain ⟨bytes, free⟩ := w
  obtain ⟨f, rfl⟩ := exists_eq_succ_of_ne_zero h0
  rcases List.eq_nil_or_concat bytes with rfl | ⟨init, last, rfl⟩
  · intro i x hx
    simp at hx
  · intro i x hx
    have hw : (ByteData.writeQuarter ⟨init ++ [last], f + 1⟩ data)
        = ⟨init ++ [last ||| data <<< (f * 2) % 256], f⟩ := by
      rw [ByteData.writeQuarter, if_neg h0]
      simp only [Nat.add_sub_cancel, orLast_append]
    rw [List.concat_eq_append, hw] at h
    rw [List.concat_eq_append] at hx
    by_cases hi : i < init.length
    · obtain ⟨y, hy, hyx⟩ := h i x (by
        rw [List.getElem?_append_left hi] at hx ⊢
        exact hx)
      have hne : ¬ i + 1 = (init ++ [last ||| data <<< (f * 2) % 256]).length := by
        simp
        omega
      rw [if_neg hne, pow_zero, Nat.div_one, Nat.div_one] at hyx
      exact ⟨y, hy, by rw [hyx]⟩
    · have hilt := (List.getElem?_eq_some_iff.mp hx).1
      have hieq : i = init.length := by
        simp at hilt
        omega
      subst hieq
      have hx' : last = x := by simpa using hx
      subst hx'
      obtain ⟨y, hy, hyx⟩ := getElem?_of_extends_append (w := ⟨init, 0⟩) h
      refine ⟨y, hy, ?_⟩
      rw [if_pos (by simp), succ_eq_add_one, ← or_quarter_div last f hdata, pow_succ,
        ← Nat.div_div_eq_div_mul, hyx, Nat.div_div_eq_div_mul]

/-- **A quarter is read back**, whether it opens a byte or fills the last
one, and the two sides keep the same number of quarters in hand. -/
theorem writeQuarter_corresponds (hdata : data < 4) :
    quarters.Corresponds (fun w => w.writeQuarter data) readQuarter data := by
  refine ⟨fun {w o} h => ?_, fun {w o r} h hm => ?_⟩
  · by_cases h0 : w.freeQuartersInLastByte = 0
    · exact extends_of_append (writeQuarter_fresh hdata h0 ▸ h)
    · exact extends_of_writeQuarter_stored hdata h0 h
  · obtain ⟨hd, hi, hs, hf, hlast⟩ := hm
    by_cases h0 : w.freeQuartersInLastByte = 0
    · rw [writeQuarter_fresh hdata h0] at h ⊢
      obtain ⟨y, hy, hyd⟩ := getElem?_of_extends_append h
      have hresult : (y >>> 6) &&& 3 = data := by
        rw [show (3 : Nat) = 2 ^ 2 - 1 from rfl, and_two_pow_sub_one_eq_mod, shiftRight_eq_div_pow]
        omega
      refine ⟨⟨r.data, r.index + 1, 3, (y <<< 2) % 256⟩, ?_, hd, by simp [hi], rfl,
        le_refl 3, fun _ => ⟨w.byteData, data * 64, y, rfl, ⟨data, by ring⟩, by omega, hy, ?_⟩⟩
      · rw [readQuarter_fresh (hs.trans h0) (by rw [hd, hi]; exact hy), hresult]
      · exact congrArg (· % 256) (shiftLeft_eq y 2)
    · obtain ⟨init, last, y, hw, hdvd, hlt, hy, hst⟩ := hlast (Nat.pos_of_ne_zero h0)
      obtain ⟨bytes, free⟩ := w
      obtain ⟨f, rfl⟩ := exists_eq_succ_of_ne_zero h0
      simp only [succ_eq_add_one] at *
      subst hw
      have hf2 : f ≤ 2 := by omega
      rw [writeQuarter_stored hdata hf2] at h ⊢
      obtain ⟨y', hy', hyd⟩ := getElem?_of_extends_append (w := ⟨init, 0⟩) h
      obtain rfl : y = y' := Option.some.inj (hy.symm.trans hy')
      rw [or_quarter_eq_add hdvd hdata] at hyd ⊢
      obtain ⟨k, rfl⟩ := hdvd
      have hresult : (r.storedByte >>> 6) &&& 3 = data := by
        rw [show (3 : Nat) = 2 ^ 2 - 1 from rfl, and_two_pow_sub_one_eq_mod,
          shiftRight_eq_div_pow, hst]
        interval_cases f <;> omega
      refine ⟨⟨r.data, r.index, r.storedQuarters - 1, (r.storedByte <<< 2) % 256⟩, ?_, hd,
        ?_, ?_, ?_, fun hpos => ⟨init, 4 ^ (f + 1) * k + data * 4 ^ f, y, rfl, ?_, ?_, hy, ?_⟩⟩
      · rw [readQuarter_stored (by omega), hresult]
      · simpa using hi
      · simp [hs]
      · simp only
        omega
      · simp only
        exact ⟨4 * k + data, by ring⟩
      · interval_cases f <;> omega
      · show r.storedByte <<< 2 % 256 = y * 4 ^ (4 - f) % 256
        rw [shiftLeft_eq, hst]
        interval_cases f <;> omega

/-- The seven bits of a byte of a varint, or-ed in above the value read so
far, add to it. -/
theorem or_payload {value payload shift : Nat} (hvalue : value < 2 ^ shift)
    (hsum : value + payload * 2 ^ shift < 2 ^ 32) :
    (value ||| payload <<< shift) % 2 ^ 32 = value + payload * 2 ^ shift := by
  rw [Nat.or_comm, shiftLeft_eq, mul_comm payload,
    ← two_pow_add_eq_or_of_lt hvalue, mul_comm (2 ^ shift), Nat.add_comm,
    mod_eq_of_lt hsum]

/-- The payload of a byte of a varint. -/
theorem varint_payload (data : Nat) :
    (data &&& 0x7F) = data % 128 ∧ ((data % 128 ||| 0x80) % 256) &&& 0x7F = data % 128
      ∧ ((data % 128 ||| 0x80) % 256) &&& 0x80 ≠ 0 ∧ data % 128 &&& 0x80 = 0 := by
  have hand : ∀ n : Nat, n &&& 0x7F = n % 128 := fun n => and_two_pow_sub_one_eq_mod n 7
  have hlt : data % 128 < 128 := mod_lt _ (by norm_num)
  refine ⟨hand data, ?_⟩
  generalize data % 128 = d at hlt
  interval_cases d <;> decide

/-- One round of the reading loop. -/
theorem readVarintLoop_of_getElem? {byte : Nat}
    (h : r.data[r.index]? = some byte) (value shift : Nat) :
    readVarintLoop r value shift = if byte &&& 0x80 ≠ 0 then
          readVarintLoop { r with index := r.index + 1 }
            ((value ||| ((byte &&& 0x7F) <<< shift)) % 2 ^ 32) (shift + 7)
        else some ((value ||| ((byte &&& 0x7F) <<< shift)) % 2 ^ 32,
          { r with index := r.index + 1 }) := by
  rw [readVarintLoop]
  split
  · simp_all
  · next byte' hb =>
    obtain rfl : byte = byte' := Option.some.inj (h.symm.trans hb)
    rfl

/-- **The reading loop undoes the writing loop**: the bits of `data` are
collected above the `shift` bits of `value`. -/
theorem readVarintLoop_addVarint (data : Nat) :
    ∀ {w : PreparseDataBuilder.ByteData} {o : List Nat} {r : ConsumedPreparseData.ByteData}
      {value shift : Nat},
      quarters.Extends ⟨(w.addVarint data).byteData, 0⟩ o →
      r.data = o → r.index = w.byteData.length →
      value < 2 ^ shift → value + data * 2 ^ shift < 2 ^ 32 →
      (∀ f, quarters.Extends ⟨w.byteData, f⟩ o) ∧ readVarintLoop r value shift
        = some (value + data * 2 ^ shift,
            { r with index := (w.addVarint data).byteData.length }) := by
  induction data using Nat.strong_induction_on with
  | _ data ih =>
    intro w o r value shift h hd hi hvalue hsum
    obtain ⟨hlow, hmask, hcont, hstop⟩ := varint_payload data
    have hshift : data >>> 7 = data / 128 := shiftRight_eq_div_pow data 7
    rw [ByteData.addVarint, hshift, hlow] at h ⊢
    by_cases h0 : data / 128 = 0
    · -- the last byte: the continue bit is clear
      rw [dif_pos h0, ByteData.add] at h
      rw [dif_pos h0, ByteData.add]
      have hmod : data % 128 % 256 = data % 128 := by omega
      have hdata : data % 128 = data := by omega
      rw [hmod] at h ⊢
      obtain ⟨y, hy, hyd⟩ := getElem?_of_extends_append h
      rw [pow_zero, Nat.div_one, Nat.div_one] at hyd
      subst hyd
      refine ⟨fun f => extends_of_append h, ?_⟩
      rw [readVarintLoop_of_getElem? (by rw [hd, hi]; exact hy), if_neg (by simp [hstop]),
        (varint_payload _).1, mod_mod, hdata, or_payload hvalue hsum]
      simp [hi]
    · -- a byte with the continue bit, and the rest of the data behind it
      rw [dif_neg h0] at h
      rw [dif_neg h0]
      set byte := (data % 128 ||| 0x80) % 256 with hbyte
      have hadd : w.add (data % 128 ||| 0x80) = ⟨w.byteData ++ [byte], w.freeQuartersInLastByte⟩ :=
        rfl
      have hsplit : data * 2 ^ shift = data % 128 * 2 ^ shift + data / 128 * 2 ^ (shift + 7) := by
        nth_rewrite 1 [← mod_add_div data 128]
        ring
      have hlt : data % 128 * 2 ^ shift ≤ 127 * 2 ^ shift :=
        Nat.mul_le_mul_right _ (by omega)
      have hnext : value + data % 128 * 2 ^ shift < 2 ^ (shift + 7) := by
        rw [pow_add]
        omega
      obtain ⟨hext, hread⟩ := ih (data / 128) (by omega)
        (r := { r with index := r.index + 1 }) h hd (by simp [hadd, hi]) hnext (by omega)
      obtain ⟨y, hy, hyd⟩ := getElem?_of_extends_append (hext 0)
      rw [pow_zero, Nat.div_one, Nat.div_one] at hyd
      subst hyd
      refine ⟨fun f => extends_of_append (hext 0), ?_⟩
      rw [readVarintLoop_of_getElem? (by rw [hd, hi]; exact hy), if_pos hcont, hmask,
        or_payload hvalue (by omega), hread, hsplit, Nat.add_assoc]

/-- **A varint is read back**, and the packing restarts on both sides. -/
theorem writeVarint32_corresponds (data : Int32) :
    quarters.Corresponds (fun w => w.writeVarint32 data.toUInt32) readVarint32 data := by
  have hlt : data.toUInt32.toNat < 2 ^ 32 := data.toUInt32.toNat_lt
  have hsum : 0 + data.toUInt32.toNat * 2 ^ 0 < 2 ^ 32 := by omega
  refine ⟨fun {w o} h => ?_, fun {w o r} h hm => ?_⟩
  · exact (readVarintLoop_addVarint (r := ⟨o, w.byteData.length, 0, 0⟩) _ h rfl rfl
      (by norm_num) hsum).1 _
  · obtain ⟨hd, hi, -, -, -⟩ := hm
    have hread := (readVarintLoop_addVarint _ h hd hi (Nat.two_pow_pos 0) hsum).2
    refine ⟨⟨r.data, (w.addVarint data.toUInt32.toNat).byteData.length, 0, r.storedByte⟩,
      ?_, hd, rfl, rfl, Nat.zero_le 3, fun h => absurd h (Nat.lt_irrefl 0)⟩
    show (readVarintLoop r 0 0).map _ = _
    rw [hread, Option.map_some]
    simp
