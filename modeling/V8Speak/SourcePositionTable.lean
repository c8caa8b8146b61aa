import Mathlib
import V8Speak.Vlq

/-!
# The source position table

`codegen/source-position-table.cc` maps offsets in code to positions in the source. The
entries are written one after the other, each as its difference from the one before: the
code offset, which does not go down, so that its sign can say whether the position is one
of a statement, and the source position. Both are zig-zag coded, which moves the sign to
the lowest bit, and then written in groups of seven bits, the first as an `int` and the
second as an `int64_t` (`encodeInt`, at any width).

The iterator adds up what it reads, also where its filter passes over an entry. It stops at
the end of the table and is done then. The table is what is left of it to read.

Zig-zag coding loses the highest bit unless the one below it is the same
(`unzigzag_zigzag`); that is the reason for the bounds on offsets and positions.
-/

open List hiding cons nil
open BitVec

namespace SourcePositionTable

open Vlq (Byte)

/-! ## Integers -/

section Integers

variable {w : ℕ}

/-- The zig-zag coding of `EncodeInt`. -/
def zigzag (value : BitVec w) : BitVec w := (value <<< 1) ^^^ value.sshiftRight (w - 1)

/-- The end of `DecodeInt`. -/
def unzigzag (decoded : BitVec w) : BitVec w := decoded.sshiftRight 1 ^^^ -(decoded &&& 1)

/-- `MoreBit::encode(more) | ValueBits::encode(encoded & ValueBits::kMask)`. -/
def currentByte (encoded : BitVec w) (more : Bool) : Byte :=
  (if more then 0x80 else 0) ||| (encoded &&& 0x7f).setWidth 8

/-- The loop of `EncodeInt`. -/
def encodeLoop (encoded : BitVec w) : List Byte :=
  if 127 < encoded.toNat then currentByte encoded true :: encodeLoop (encoded >>> 7)
  else [currentByte encoded false]
termination_by encoded.toNat
decreasing_by
  rw [toNat_ushiftRight, Nat.shiftRight_eq_div_pow]
  omega

def encodeInt (value : BitVec w) : List Byte := encodeLoop (zigzag value)

/-- The loop of `DecodeInt`: what has been decoded, and the bytes that are left. -/
def decodeLoop (shift : ℕ) (decoded : BitVec w) : List Byte → Option (BitVec w × List Byte)
  | [] => none
  | current :: bytes =>
    let decoded := decoded ||| ((current &&& 0x7f).setWidth w <<< shift)
    if current.getLsbD 7 then decodeLoop (shift + 7) decoded bytes else some (decoded, bytes)

def decodeInt (w : ℕ) (bytes : List Byte) : Option (BitVec w × List Byte) :=
  (decodeLoop 0 (0 : BitVec w) bytes).map fun (decoded, bytes) => (unzigzag decoded, bytes)

theorem currentByte_spec (encoded : BitVec w) (more : Bool) :
    (currentByte encoded more).getLsbD 7 = more ∧
      currentByte encoded more &&& 0x7f = encoded.setWidth 8 &&& Vlq.kDataMask := by
  have hmask : (encoded &&& 0x7f).setWidth 8 = encoded.setWidth 8 &&& 0x7f := by
    refine eq_of_getLsbD_eq fun i hi => ?_
    simp only [getLsbD_setWidth, getLsbD_and, ofNat_eq_ofNat,
      getLsbD_ofNat, hi, decide_true, Bool.true_and]
    by_cases hw : i < w
    · simp [hw]
    · simp [getLsbD_of_ge encoded i (not_lt.mp hw)]
  rw [currentByte, hmask]
  generalize encoded.setWidth 8 = b
  revert b more
  decide

/-- **Groups of seven bits** are read back. -/
theorem decodeLoop_encodeLoop (shift : ℕ) (decoded encoded : BitVec w) (rest : List Byte) :
    decodeLoop shift decoded (encodeLoop encoded ++ rest) =
      some (decoded ||| encoded <<< shift, rest) := by
  fun_induction encodeLoop encoded generalizing shift decoded with
  | case1 encoded hmore ih =>
    obtain ⟨hbit, hvalue⟩ := currentByte_spec encoded true
    rw [List.cons_append, decodeLoop, if_pos hbit, hvalue, ih, BitVec.or_assoc]
    exact congrArg (fun x => some (decoded ||| x, rest)) (Vlq.or_group encoded shift)
  | case2 encoded hmore =>
    obtain ⟨hbit, hvalue⟩ := currentByte_spec encoded false
    -- nothing is left above the group
    have hshift : encoded >>> Vlq.kContinueShift = BitVec.ofNat w 0 := by
      refine eq_of_toNat_eq ?_
      rw [Vlq.toNat_shift, toNat_zero]
      omega
    have hgroup := Vlq.or_group encoded shift
    rw [hshift, zero_shiftLeft, or_zero] at hgroup
    rw [List.cons_append, decodeLoop, if_neg (by rw [hbit]; exact Bool.false_ne_true), hvalue,
      hgroup]
    rfl

/-- The bits of a zig-zag coded value. -/
theorem getLsbD_zigzag (value : BitVec w) {i : ℕ} (hi : i < w) :
    (zigzag value).getLsbD i = if i = 0 then value.msb else (value.getLsbD (i - 1) ^^ value.msb) := by
  have hmsb : value.getLsbD (w - 1) = value.msb := (msb_eq_getLsbD_last value).symm
  rw [zigzag, getLsbD_xor, getLsbD_shiftLeft, getLsbD_sshiftRight]
  rcases Nat.eq_zero_or_pos i with rfl | hpos
  · rw [Nat.add_zero, if_pos (show w - 1 < w by omega), hmsb]
    simp [show ¬w ≤ 0 by omega]
  · simp [hi, show ¬w ≤ i by omega, show ¬w - 1 + i < w by omega, show ¬i < 1 by omega, hpos.ne']

/-- **Zig-zag coding** keeps a value whose two highest bits are the same. -/
theorem unzigzag_zigzag (hw : 2 ≤ w) {value : BitVec w}
    (h : value.getLsbD (w - 2) = value.msb) : unzigzag (zigzag value) = value := by
  have hsign : (-(zigzag value &&& 1)) = if value.msb then BitVec.allOnes w else BitVec.ofNat w 0 := by
    have hlow := getLsbD_zigzag value (show 0 < w by omega)
    rw [if_pos rfl] at hlow
    show -(zigzag value &&& BitVec.ofNat w 1) = _
    rw [and_one_eq_setWidth_ofBool_getLsbD, hlow]
    cases value.msb with
    | false => simp
    | true =>
      have hone : (BitVec.ofBool true).setWidth w = BitVec.ofNat w 1 :=
        eq_of_toNat_eq (by simp)
      rw [hone, if_pos rfl, neg_one_eq_allOnes]
  refine eq_of_getLsbD_eq fun i hi => ?_
  have hbit : (if value.msb then BitVec.allOnes w else BitVec.ofNat w 0).getLsbD i = value.msb := by
    cases value.msb with
    | false => simp
    | true => simp [hi]
  rw [unzigzag, hsign, getLsbD_xor, hbit, getLsbD_sshiftRight]
  rcases Nat.lt_or_ge (1 + i) w with hlt | hge
  · rw [if_pos hlt, getLsbD_zigzag value hlt]
    simp [hi, show ¬w ≤ i by omega]
  · -- the highest bit is filled up with that of the coded value
    obtain rfl : i = w - 1 := by omega
    rw [if_neg (not_lt.mpr hge), msb_eq_getLsbD_last, getLsbD_zigzag value hi,
      if_neg (by omega), show w - 1 - 1 = w - 2 by omega, h, ← msb_eq_getLsbD_last]
    simp [show ¬w ≤ w - 1 by omega]

/-- **Integers** are read back if they, or their complements, are a quarter of all. -/
theorem decodeInt_encodeInt (hw : 2 ≤ w) {value : BitVec w}
    (h : value.toNat < 2 ^ (w - 2) ∨ (~~~value).toNat < 2 ^ (w - 2)) (rest : List Byte) :
    decodeInt w (encodeInt value ++ rest) = some (value, rest) := by
  have hzero : ∀ (u : BitVec w) i, u.toNat < 2 ^ (w - 2) → w - 2 ≤ i → u.getLsbD i = false :=
    fun u i hu hi => Nat.testBit_lt_two_pow (hu.trans_le (Nat.pow_le_pow_right (by decide) hi))
  have hhigh : value.getLsbD (w - 2) = value.msb := by
    rw [msb_eq_getLsbD_last]
    rcases h with h | h
    · rw [hzero value _ h le_rfl, hzero value _ h (by omega)]
    · have hnot : ∀ i, i < w → w - 2 ≤ i → value.getLsbD i = true := fun i hi hle => by
        simpa [hi] using hzero _ i h hle
      rw [hnot _ (by omega) le_rfl, hnot _ (by omega) (by omega)]
  rw [decodeInt, encodeInt, decodeLoop_encodeLoop, Option.map_some]
  simp [unzigzag_zigzag hw hhigh]

end Integers

/-! ## Entries -/

/-- `PositionTableEntry`, with the defaults of its constructor. -/
structure PositionTableEntry where
  sourcePosition : BitVec 64 := 0
  codeOffset : BitVec 32 := -1
  isStatement : Bool := false
  deriving DecidableEq, Repr

def kFunctionEntryBytecodeOffset : BitVec 32 := -1

def addAndSetEntry (value other : PositionTableEntry) : PositionTableEntry where
  codeOffset := value.codeOffset + other.codeOffset
  sourcePosition := value.sourcePosition + other.sourcePosition
  isStatement := other.isStatement

def subtractFromEntry (value other : PositionTableEntry) : PositionTableEntry :=
  { value with
    codeOffset := value.codeOffset - other.codeOffset
    sourcePosition := value.sourcePosition - other.sourcePosition }

def encodeEntry (entry : PositionTableEntry) : List Byte :=
  encodeInt (if entry.isStatement then entry.codeOffset else -entry.codeOffset - 1) ++
    encodeInt entry.sourcePosition

def decodeEntry (bytes : List Byte) : Option (PositionTableEntry × List Byte) := do
  let (tmp, bytes) ← decodeInt 32 bytes
  let (sourcePosition, bytes) ← decodeInt 64 bytes
  if 0 ≤ tmp.toInt then
    some (⟨sourcePosition, tmp, true⟩, bytes)
  else some (⟨sourcePosition, -(tmp + 1), false⟩, bytes)

/-! ## The builder -/

inductive RecordingMode where
  | omitSourcePositions
  | lazySourcePositions
  | recordSourcePositions
  deriving DecidableEq, Repr

structure SourcePositionTableBuilder where
  mode : RecordingMode := .recordSourcePositions
  bytes : List Byte := []
  previous : PositionTableEntry := {}

namespace SourcePositionTableBuilder

variable (b : SourcePositionTableBuilder)

def addEntry (entry : PositionTableEntry) : SourcePositionTableBuilder :=
  { b with
    bytes := b.bytes ++ encodeEntry (subtractFromEntry entry b.previous)
    previous := entry }

/-- `AddPosition`, where the code offset is a `size_t`. -/
def addPosition (codeOffset sourcePosition : BitVec 64)
    (isStatement : Bool) : SourcePositionTableBuilder :=
  if b.mode ≠ .recordSourcePositions then b
  else b.addEntry ⟨sourcePosition, codeOffset.setWidth 32, isStatement⟩

/-- The entries of a list, added one after the other. -/
def addAll (entries : List PositionTableEntry) : SourcePositionTableBuilder :=
  entries.foldl (fun b e => b.addPosition (e.codeOffset.signExtend 64) e.sourcePosition
    e.isStatement) b

end SourcePositionTableBuilder

/-! ## The iterator -/

inductive IterationFilter where
  | javaScriptOnly
  | externalOnly
  | all
  deriving DecidableEq, Repr

/-- `IsExternal`, of a raw position. -/
def isExternal (raw : BitVec 64) : Bool := raw.getLsbD 0

variable (filter : IterationFilter)

/-- Whether `Advance` stops at an entry. -/
def IterationFilter.satisfied (entry : PositionTableEntry) : Bool :=
  filter = .all ∨ (filter = .javaScriptOnly ∧ !isExternal entry.sourcePosition) ∨
    (filter = .externalOnly ∧ isExternal entry.sourcePosition)

/-- The bytes that are left, the end of the table having been seen or not, and the sums. -/
structure SourcePositionTableIterator where
  bytes : List Byte
  done : Bool := false
  current : PositionTableEntry := {}

namespace SourcePositionTableIterator

/-- The loop of `Advance`. -/
def advanceLoop (filter : IterationFilter) : ℕ → SourcePositionTableIterator →
    Option SourcePositionTableIterator
  | 0, _ => none
  | fuel + 1, it =>
    if it.bytes = [] then some { it with done := true }
    else do
      let (tmp, bytes) ← decodeEntry it.bytes
      let it := { it with bytes, current := addAndSetEntry it.current tmp }
      if filter.satisfied it.current then some it else advanceLoop filter fuel it

/-- `Advance`. An entry has at least one byte. -/
def advance (it : SourcePositionTableIterator) : Option SourcePositionTableIterator :=
  if it.done then some it else advanceLoop filter (it.bytes.length + 1) it

/-- `Initialize`, for a table. -/
def initializeTable (skipFunctionEntry : Bool) (bytes : List Byte) :
    Option SourcePositionTableIterator := do
  let it ← advance filter { bytes }
  if skipFunctionEntry ∧ it.current.codeOffset = kFunctionEntryBytecodeOffset ∧ !it.done then
    advance filter it
  else some it

/-- **What an iterator returns**, from where it is until it is done. -/
inductive Returns (filter : IterationFilter) :
    SourcePositionTableIterator → List PositionTableEntry → Prop
  | done {it} (h : it.done = true) : Returns filter it []
  | next {it it' entries} (h : it.done = false) (hadvance : it.advance filter = some it')
      (hrest : Returns filter it' entries) : Returns filter it (it.current :: entries)

end SourcePositionTableIterator

/-! ## The round trip -/

open SourcePositionTableBuilder SourcePositionTableIterator

variable {prev e : PositionTableEntry} {entries : List PositionTableEntry}

/-- What the table can hold: code offsets and positions in their ranges. -/
structure PositionTableEntry.InRange (e : PositionTableEntry) : Prop where
  codeOffset : -1 ≤ e.codeOffset.toInt ∧ e.codeOffset.toInt ≤ 2 ^ 30 - 2
  sourcePosition : 0 ≤ e.sourcePosition.toInt ∧ e.sourcePosition.toInt < 2 ^ 62

/-- **An entry** is read back after the one before it. -/
theorem decodeEntry_encodeEntry (hprev : prev.InRange) (he : e.InRange)
    (hle : prev.codeOffset.toInt ≤ e.codeOffset.toInt) (rest : List Byte) :
    ∃ tmp, decodeEntry (encodeEntry (subtractFromEntry e prev) ++ rest) = some (tmp, rest) ∧
      addAndSetEntry prev tmp = e := by
  obtain ⟨⟨hlow, hhigh⟩, hpos, hpos'⟩ := hprev
  obtain ⟨⟨hlow', hhigh'⟩, hpos₁, hpos₁'⟩ := he
  have hoffset : (e.codeOffset - prev.codeOffset).toNat < 2 ^ (32 - 2) := by
    have h₁ := e.codeOffset.isLt
    have h₂ := prev.codeOffset.isLt
    simp only [toInt_eq_toNat_cond] at hlow hhigh hlow' hhigh' hle
    rw [toNat_sub]
    split at hlow' <;> split at hlow <;> simp_all <;> omega
  have hposition : (e.sourcePosition - prev.sourcePosition).toNat < 2 ^ (64 - 2) ∨
      (~~~(e.sourcePosition - prev.sourcePosition)).toNat < 2 ^ (64 - 2) := by
    rw [toInt_eq_toNat_cond] at hpos hpos' hpos₁ hpos₁'
    rw [toNat_not, toNat_sub]
    split at hpos₁ <;> split at hpos <;> simp_all <;> omega
  have hsum : ∀ isStatement, addAndSetEntry prev ⟨e.sourcePosition - prev.sourcePosition,
      e.codeOffset - prev.codeOffset, isStatement⟩ = { e with isStatement } := fun isStatement => by
    rw [addAndSetEntry]
    rw [BitVec.add_comm, BitVec.sub_add_cancel, BitVec.add_comm, BitVec.sub_add_cancel]
  refine ⟨⟨e.sourcePosition - prev.sourcePosition, e.codeOffset - prev.codeOffset, e.isStatement⟩,
    ?_, hsum e.isStatement⟩
  set offset := e.codeOffset - prev.codeOffset with hdef
  rw [decodeEntry, encodeEntry, subtractFromEntry, List.append_assoc]
  rw [← hdef]
  cases e.isStatement with
  | true =>
    have hnonneg : 0 ≤ offset.toInt := by
      rw [toInt_eq_toNat_of_lt (by omega)]
      exact Int.natCast_nonneg _
    rw [if_pos rfl, decodeInt_encodeInt (by decide) (.inl hoffset)]
    simp only [Option.bind_eq_bind, Option.bind_some, decodeInt_encodeInt (w := 64) (by decide)
      hposition, if_pos hnonneg]
  | false =>
    have hnot : -offset - 1 = ~~~offset := (not_eq_neg_add offset).symm
    have hneg : ¬0 ≤ (~~~offset).toInt := by
      rw [toInt_eq_toNat_cond, toNat_not, if_neg (by omega)]
      omega
    have hoffset' : (~~~~~~offset).toNat < 2 ^ (32 - 2) := by rwa [BitVec.not_not]
    rw [if_neg Bool.false_ne_true, hnot, decodeInt_encodeInt (by decide) (.inr hoffset')]
    simp only [Option.bind_eq_bind, Option.bind_some,
      decodeInt_encodeInt (w := 64) (by decide) hposition, if_neg hneg]
    rw [← hnot, BitVec.sub_add_cancel, BitVec.neg_neg]

/-- The bytes of some entries, after one. -/
def encodeFrom (prev : PositionTableEntry) : List PositionTableEntry → List Byte
  | [] => []
  | e :: entries => encodeEntry (subtractFromEntry e prev) ++ encodeFrom e entries

theorem encodeEntry_ne_nil (e : PositionTableEntry) : encodeEntry e ≠ [] := by
  rw [encodeEntry, encodeInt, encodeLoop]
  split <;> split <;> exact cons_ne_nil _ _

theorem length_le_encodeFrom (prev : PositionTableEntry) (entries : List PositionTableEntry) :
    entries.length ≤ (encodeFrom prev entries).length := by
  induction entries generalizing prev with
  | nil => exact le_rfl
  | cons e entries ih =>
    have := length_pos_iff.mpr (encodeEntry_ne_nil (subtractFromEntry e prev))
    have := ih e
    rw [encodeFrom, length_append, length_cons]
    omega

/-- **The builder** writes each entry after the one before it. -/
theorem addAll_bytes (b : SourcePositionTableBuilder) (hmode : b.mode = .recordSourcePositions)
    (entries : List PositionTableEntry) :
    (b.addAll entries).bytes = b.bytes ++ encodeFrom b.previous entries := by
  induction entries generalizing b with
  | nil => rw [encodeFrom, append_nil]; rfl
  | cons e entries ih =>
    have hwidth : (e.codeOffset.signExtend 64).setWidth 32 = e.codeOffset := by
      refine eq_of_getLsbD_eq fun i hi => ?_
      rw [getLsbD_setWidth, getLsbD_signExtend, if_pos hi, decide_eq_true hi,
        decide_eq_true (show i < 64 by omega), Bool.true_and, Bool.true_and]
    have hadd : b.addPosition (e.codeOffset.signExtend 64) e.sourcePosition e.isStatement =
        b.addEntry e := by
      rw [addPosition, if_neg (not_not.mpr hmode), hwidth]
    rw [addAll, foldl_cons, hadd, ← addAll, ih (b.addEntry e) hmode, encodeFrom]
    exact List.append_assoc ..

/-- The entries may follow one another. -/
def Follow (prev : PositionTableEntry) (entries : List PositionTableEntry) : Prop :=
  (∀ e ∈ prev :: entries, e.InRange) ∧
    (prev :: entries).Pairwise fun d e => d.codeOffset.toInt ≤ e.codeOffset.toInt

/-- **A whole table.** From an entry on, advancing gets to the next entry the filter is
satisfied with, and so on until the iterator is done. -/
theorem advanceLoop_returns (h : Follow prev entries) {fuel : ℕ} (hfuel : entries.length < fuel) :
    ∃ it, advanceLoop filter fuel ⟨encodeFrom prev entries, false, prev⟩ = some it ∧
      Returns filter it (entries.filter filter.satisfied) := by
  induction entries generalizing prev fuel with
  | nil =>
    obtain ⟨fuel, rfl⟩ := Nat.exists_eq_add_of_le' hfuel
    exact ⟨_, rfl, .done rfl⟩
  | cons e entries ih =>
    obtain ⟨fuel, rfl⟩ := Nat.exists_eq_add_of_le' (Nat.one_le_of_lt hfuel)
    obtain ⟨hrange, hsorted⟩ := h
    obtain ⟨hle, hsorted⟩ := pairwise_cons.mp hsorted
    have hnext : Follow e entries := ⟨fun d hd => hrange d (mem_cons_of_mem _ hd), hsorted⟩
    obtain ⟨tmp, hdecode, hadd⟩ := decodeEntry_encodeEntry (hrange prev mem_cons_self)
      (hrange e (by simp)) (hle e mem_cons_self) (encodeFrom e entries)
    have hne : encodeFrom prev (e :: entries) ≠ [] :=
      append_ne_nil_of_left_ne_nil (encodeEntry_ne_nil _) _
    rw [advanceLoop, if_neg hne]
    simp only [encodeFrom, hdecode, Option.bind_eq_bind, Option.bind_some, hadd]
    by_cases hfilter : filter.satisfied e = true
    · obtain ⟨it, hadvance, hreturns⟩ := ih hnext
        (Nat.lt_succ_of_le (length_le_encodeFrom e entries))
      rw [if_pos hfilter, filter_cons_of_pos hfilter]
      exact ⟨_, rfl, .next rfl hadvance hreturns⟩
    · rw [if_neg hfilter, filter_cons_of_neg hfilter]
      exact ih hnext (Nat.lt_of_succ_lt_succ hfuel)

/-- A leading function-entry record, dropped. -/
def dropFunctionEntry : List PositionTableEntry → List PositionTableEntry
  | [] => []
  | e :: entries => if e.codeOffset = kFunctionEntryBytecodeOffset then entries else e :: entries

/-- **The round trip.** What the builder has written is read back: all entries, or those of
one kind, without a leading function-entry record if it is to be skipped. -/
theorem initializeTable_returns (entries : List PositionTableEntry)
    (hrange : ∀ e ∈ entries, e.InRange)
    (hsorted : entries.Pairwise fun d e => d.codeOffset.toInt ≤ e.codeOffset.toInt)
    (filter : IterationFilter) (skipFunctionEntry : Bool) :
    ∃ it, initializeTable filter skipFunctionEntry (addAll {} entries).bytes = some it ∧
      Returns filter it (if skipFunctionEntry then
        dropFunctionEntry (entries.filter filter.satisfied)
      else entries.filter filter.satisfied) := by
  have hfollow : Follow {} entries := by
    refine ⟨forall_mem_cons.mpr ⟨⟨by decide, by decide⟩, hrange⟩,
      pairwise_cons.mpr ⟨fun e he => ?_, hsorted⟩⟩
    exact (hrange e he).codeOffset.1
  rw [addAll_bytes {} rfl]
  obtain ⟨it, hadvance, hreturns⟩ := advanceLoop_returns filter hfollow
    (Nat.lt_succ_of_le (length_le_encodeFrom {} entries))
  have hfirst : advance filter { bytes := [] ++ encodeFrom {} entries } = some it := hadvance
  rw [initializeTable, hfirst]
  simp only [Option.bind_eq_bind, Option.bind_some]
  generalize entries.filter filter.satisfied = selected at hreturns ⊢
  cases skipFunctionEntry with
  | false => exact ⟨it, if_neg (by simp), hreturns⟩
  | true =>
    cases hreturns with
    | done hdone => exact ⟨it, if_neg (by simp [hdone]), .done hdone⟩
    | next hdone hadvance hrest =>
      rw [if_pos rfl, dropFunctionEntry]
      by_cases hentry : it.current.codeOffset = kFunctionEntryBytecodeOffset
      · rw [if_pos hentry]
        exact ⟨_, (if_pos (by simp [hentry, hdone])).trans hadvance, hrest⟩
      · rw [if_neg hentry]
        exact ⟨it, if_neg (by simp [hentry]), .next hdone hadvance hrest⟩

/-- A function entry and two positions, an external one between the others. -/
theorem initializeTable_returns_three : ∃ it,
    initializeTable .javaScriptOnly true (addAll {} [⟨0x2e, -1, false⟩, ⟨0x31, 0, true⟩,
      ⟨0x2c, 7, false⟩]).bytes = some it ∧ Returns .javaScriptOnly it [⟨0x2c, 7, false⟩] := by
  refine initializeTable_returns [⟨0x2e, -1, false⟩, ⟨0x31, 0, true⟩, ⟨0x2c, 7, false⟩]
    (fun e he => ?_) (by decide) .javaScriptOnly true
  simp only [mem_cons, not_mem_nil, or_false] at he
  rcases he with rfl | rfl | rfl <;> exact ⟨by decide, by decide⟩

end SourcePositionTable
