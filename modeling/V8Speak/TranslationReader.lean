import Mathlib
import V8Speak.TranslationArray

/-!
# Reading translations

What a translation array has from a point on is a list of bytes that stand for
instructions, by themselves or by reference to a basis (`StandsFor`). The reader is
described by where its two indices are (`TranslationArrayIterator.At`): the first one
is before the remaining bytes, the second one in the basis, behind by the instructions
since the last run. Each kind of entry is one step of the reader, and the run lemma
`readAll_spec` puts them together: the reader returns the instructions the remaining
bytes stand for.
-/

open List Option TranslationArrayBuilder TranslationInstruction Vlq

variable {buffer rest suffix : List Byte} {k : ℕ}

/-- What comes after data that has been read. -/
theorem drop_add_of_append {data : List Byte} (h : buffer.drop k = data ++ rest) :
    buffer.drop (k + data.length) = rest := by
  rw [← drop_drop, h, drop_left]

namespace TranslationOpcode

variable (opcode : TranslationOpcode)

theorem ofByte_toByte : ofByte opcode.toByte = some opcode := by
  cases opcode <;> rfl

theorem toByte_lt : opcode.toByte.toNat < kNumTranslationOpcodes := by
  cases opcode <;> decide

theorem length_operandTypes : opcode.operandTypes.length = opcode.operandCount := by
  cases opcode <;> rfl

end TranslationOpcode

namespace OperandType

variable {type : OperandType} {value : BitVec 32}

/-- The bits that are written for a value. -/
def unsignedBits : OperandType → BitVec 32 → BitVec 32
  | signed, value => vlqConvertToUnsigned value
  | _, value => value

/-- All operands are written as unsigned values. -/
theorem writeVLQ_eq (h : type.InRange value) :
    type.writeVLQ value = vlqEncodeUnsigned (type.unsignedBits value) := by
  cases type with
  | smallUnsigned => exact (if_pos h).symm
  | unsigned => rfl
  | signed => rfl

/-- The value of the bits that are read. -/
def ofBits : OperandType → BitVec 32 → BitVec 32
  | signed, bits => convertToSigned bits
  | _, bits => bits

theorem ofBits_unsignedBits (h : type.InRange value) :
    type.ofBits (type.unsignedBits value) = value := by
  cases type with
  | smallUnsigned => rfl
  | unsigned => rfl
  | signed => exact convertToSigned_convertToUnsigned h

end OperandType

variable (i : TranslationInstruction)

theorem TranslationInstruction.length_encode :
    i.encode.length = 1 + i.operandBytes.length := Nat.add_comm _ 1

namespace TranslationArrayIterator

variable {it : TranslationArrayIterator} {i : TranslationInstruction}

/-! ## Operands -/

variable (it)

/-- The index that operands are read at. -/
def cursor : ℕ :=
  if it.remainingOpsToUseFromPreviousTranslation ≠ 0 then it.previousIndex else it.index

def moveTo (k : ℕ) : TranslationArrayIterator :=
  if it.remainingOpsToUseFromPreviousTranslation ≠ 0 then { it with previousIndex := k }
  else { it with index := k }

theorem cursor_moveTo (k : ℕ) : (it.moveTo k).cursor = k := by
  unfold moveTo cursor
  by_cases h : it.remainingOpsToUseFromPreviousTranslation ≠ 0
  · rw [if_pos h, if_pos h]
  · rw [if_neg h, if_neg h]

theorem moveTo_moveTo (k l : ℕ) : (it.moveTo k).moveTo l = it.moveTo l := by
  unfold moveTo
  by_cases h : it.remainingOpsToUseFromPreviousTranslation ≠ 0
  · rw [if_pos h, if_pos h, if_pos h]
  · rw [if_neg h, if_neg h, if_neg h]

theorem moveTo_cursor : it.moveTo it.cursor = it := by
  unfold moveTo cursor
  split <;> rfl

/-- Operands of all classes are read in the same way. -/
theorem readOperand_eq (type : OperandType) :
    it.readOperand buffer type = (vlqDecodeUnsigned buffer it.cursor).map
      fun (bits, k) => (type.ofBits bits, it.moveTo k) := by
  have hsigned : it.nextOperand buffer = (vlqDecodeUnsigned buffer it.cursor).map
      fun (bits, k) => (convertToSigned bits, it.moveTo k) := by
    unfold nextOperand cursor moveTo vlqDecode
    split
    · cases vlqDecodeUnsigned buffer it.previousIndex <;> rfl
    · cases vlqDecodeUnsigned buffer it.index <;> rfl
  have hunsigned : it.nextOperandUnsigned buffer = (vlqDecodeUnsigned buffer it.cursor).map
      fun (bits, k) => (bits, it.moveTo k) := by
    unfold nextOperandUnsigned nextUnsignedOperandAtPreviousIndex cursor moveTo
    split
    · cases vlqDecodeUnsigned buffer it.previousIndex <;> rfl
    · cases vlqDecodeUnsigned buffer it.index <;> rfl
  cases type with
  | smallUnsigned => exact hunsigned
  | unsigned => exact hunsigned
  | signed => exact hsigned

variable {it} {type : OperandType} {value : BitVec 32}

theorem readOperand_spec (hvalue : type.InRange value)
    (h : buffer.drop it.cursor = type.writeVLQ value ++ rest) :
    it.readOperand buffer type =
      some (value, it.moveTo (it.cursor + (type.writeVLQ value).length)) := by
  rw [OperandType.writeVLQ_eq hvalue] at h ⊢
  rw [readOperand_eq, vlqDecodeUnsigned_encode h, map_some]
  dsimp only
  rw [OperandType.ofBits_unsignedBits hvalue]

variable {values : List (BitVec 32)} {types : List OperandType}

theorem readOperands_spec (hvalues : List.Forall₂ OperandType.InRange types values)
    (h : buffer.drop it.cursor = (List.zipWith OperandType.writeVLQ types values).flatten ++ rest) :
    it.readOperands buffer types = some (values, it.moveTo
      (it.cursor + (List.zipWith OperandType.writeVLQ types values).flatten.length)) := by
  induction hvalues generalizing it with
  | nil =>
    rw [readOperands]
    exact congrArg (fun it => some ([], it)) (moveTo_cursor it).symm
  | cons hvalue hvalues ih =>
    rw [zipWith_cons_cons, flatten_cons, append_assoc] at h
    rw [readOperands, readOperand_spec hvalue h, Option.bind_eq_bind, Option.bind_some]
    dsimp only
    rw [ih (by rw [cursor_moveTo]; exact drop_add_of_append h), Option.bind_eq_bind,
      Option.bind_some, moveTo_moveTo,
      cursor_moveTo, zipWith_cons_cons, flatten_cons, length_append, Nat.add_assoc]

theorem finishInstruction_spec (hi : i.InRange)
    (h : buffer.drop it.cursor = i.operandBytes ++ rest) :
    it.finishInstruction buffer i.opcode =
      some (i, it.moveTo (it.cursor + i.operandBytes.length)) := by
  rw [finishInstruction, readOperands_spec hi h]
  rfl

/-! ## Skipping -/

theorem nextOpcodeAtPreviousIndex_spec (h : buffer.drop it.previousIndex = i.encode ++ rest) :
    it.nextOpcodeAtPreviousIndex buffer =
      some (i.opcode, { it with previousIndex := it.previousIndex + 1 }) ∧
    buffer.drop (it.previousIndex + 1) = i.operandBytes ++ rest := by
  obtain ⟨hget, hdrop⟩ := getElem?_of_drop h
  refine ⟨?_, hdrop⟩
  rw [nextOpcodeAtPreviousIndex, hget, Option.bind_eq_bind, Option.bind_some,
    TranslationOpcode.ofByte_toByte]
  rfl

theorem skipOperand_spec (hvalue : type.InRange value)
    (h : buffer.drop it.previousIndex = type.writeVLQ value ++ rest) :
    it.nextUnsignedOperandAtPreviousIndex buffer = some (type.unsignedBits value,
      { it with previousIndex := it.previousIndex + (type.writeVLQ value).length }) := by
  rw [OperandType.writeVLQ_eq hvalue] at h ⊢
  rw [nextUnsignedOperandAtPreviousIndex, vlqDecodeUnsigned_encode h]
  rfl

theorem skipOperands_spec (hvalues : List.Forall₂ OperandType.InRange types values)
    (h : buffer.drop it.previousIndex =
      (List.zipWith OperandType.writeVLQ types values).flatten ++ rest) :
    it.skipOperands buffer types.length = some { it with previousIndex :=
      it.previousIndex + (List.zipWith OperandType.writeVLQ types values).flatten.length } := by
  induction hvalues generalizing it with
  | nil => rfl
  | @cons type value types values hvalue hvalues ih =>
    rw [zipWith_cons_cons, flatten_cons, append_assoc] at h
    rw [length_cons, skipOperands, skipOperand_spec hvalue h, Option.bind_eq_bind, Option.bind_some]
    dsimp only
    rw [ih (drop_add_of_append h), zipWith_cons_cons, flatten_cons, length_append, Nat.add_assoc]

theorem skipOpcode_spec (hi : i.InRange) (h : buffer.drop it.previousIndex = i.encode ++ rest) :
    it.skipOpcodeAndItsOperandsAtPreviousIndex buffer =
      some { it with previousIndex := it.previousIndex + i.encode.length } := by
  obtain ⟨hopcode, hdrop⟩ := nextOpcodeAtPreviousIndex_spec h
  rw [skipOpcodeAndItsOperandsAtPreviousIndex, hopcode, Option.bind_eq_bind, Option.bind_some]
  dsimp only
  rw [← TranslationOpcode.length_operandTypes, skipOperands_spec hi hdrop, Nat.add_assoc,
    length_encode, operandBytes]

/-- Moving the second index over instructions. -/
theorem skipOps_spec (it : TranslationArrayIterator) {is : List TranslationInstruction}
    (his : ∀ i ∈ is, i.InRange) (h : buffer.drop it.previousIndex = is.flatMap encode ++ rest) :
    it.skipOps buffer is.length = some { it with previousIndex :=
      it.previousIndex + (is.flatMap encode).length } := by
  induction is generalizing it with
  | nil => rfl
  | cons i is ih =>
    obtain ⟨hi, his⟩ := forall_mem_cons.mp his
    rw [flatMap_cons, append_assoc] at h
    rw [length_cons, skipOps, skipOpcode_spec hi h, Option.bind_eq_bind, Option.bind_some,
      ih _ his (drop_add_of_append h), flatMap_cons, length_append, Nat.add_assoc]

end TranslationArrayIterator

/-! ## What is remaining -/

/-- The bytes of a run of instructions of the basis. -/
def encodeMatch (count : ℕ) : List Byte :=
  if count ≤ kMaxShortenableOperand then
    [BitVec.ofNat 8 (TranslationOpcode.kNumTranslationOpcodes + count)]
  else (matchPrevious count).encode

theorem encodeMatch_ne_nil (count : ℕ) : encodeMatch count ≠ [] := by
  unfold encodeMatch
  split <;> exact cons_ne_nil _ _

/-- An instruction that can be added. -/
def TranslationInstruction.IsPlain : Prop :=
  i.InRange ∧ i.opcode.isBegin = false ∧ i.opcode ≠ .matchPreviousTranslation

/-- A `BEGIN` with a distance. -/
def TranslationInstruction.IsBegin (distance : BitVec 32) : Prop :=
  i.InRange ∧ ∃ frameCount jsframeCount updateFeedback, i =
    beginInstruction distance frameCount jsframeCount updateFeedback

/-- A translation at a position has its basis at a distance before it. There is none if
the distance is zero. -/
def TranslationArrayIterator.BasisAt (buffer : List Byte) (distance : BitVec 32) (position : ℕ)
    (basis : List TranslationInstruction) : Prop :=
  distance = 0 ∧ basis = [] ∨ distance ≠ 0 ∧ (∀ i ∈ basis, i.InRange) ∧
    ∃ start rest, start + distance.toNat = position ∧
      buffer.drop start = basis.flatMap encode ++ rest

/-- **The instructions that the rest of an array stands for.** The basis begins with its
`BEGIN`, and `n` instructions of the current translation, with its `BEGIN`, are before
the rest. The basis of a translation without one is empty. -/
inductive TranslationArrayIterator.StandsFor (buffer : List Byte) :
    List TranslationInstruction → ℕ → List Byte → List TranslationInstruction → Prop
  | nil (basis : List TranslationInstruction) (n : ℕ) : StandsFor buffer basis n [] []
  | explicit {basis is : List TranslationInstruction} {n : ℕ} {rest : List Byte}
      {i : TranslationInstruction} (hi : i.IsPlain) (h : StandsFor buffer basis (n + 1) rest is) :
      StandsFor buffer basis n (i.encode ++ rest) (i :: is)
  | run {basis is : List TranslationInstruction} {n count : ℕ} {rest : List Byte}
      (hpos : 0 < count) (hcount : count < 2 ^ 31) (hle : n + count ≤ basis.length)
      (h : StandsFor buffer basis (n + count) rest is) :
      StandsFor buffer basis n (encodeMatch count ++ rest) ((basis.drop n).take count ++ is)
  | translation {basis basis' is : List TranslationInstruction} {n position : ℕ} {rest : List Byte}
      {distance : BitVec 32} {i : TranslationInstruction} (hi : i.IsBegin distance)
      (hposition : position + (i.encode ++ rest).length = buffer.length)
      (hbasis : BasisAt buffer distance position basis') (h : StandsFor buffer basis' 1 rest is) :
      StandsFor buffer basis n (i.encode ++ rest) (i :: is)

namespace TranslationArrayIterator

/-- **Where a reader is** after `n` instructions of a translation, in the middle of a run
with `more` instructions to come. -/
structure At (buffer : List Byte) (it : TranslationArrayIterator)
    (basis : List TranslationInstruction) (n more : ℕ) (suffix : List Byte) : Prop where
  drop_index : buffer.drop it.index = suffix
  remaining : it.remainingOpsToUseFromPreviousTranslation = more + 1 ∨
    more = 0 ∧ it.remainingOpsToUseFromPreviousTranslation = 0
  ops_le : it.opsSincePreviousIndexWasUpdated ≤ n
  ops_eq : more ≠ 0 → it.opsSincePreviousIndexWasUpdated = 0
  le_length : more ≠ 0 → n + more ≤ basis.length
  basis_inRange : ∀ i ∈ basis, i.InRange
  drop_previous : basis ≠ [] → ∃ rest, buffer.drop it.previousIndex =
    (basis.drop (n - it.opsSincePreviousIndexWasUpdated)).flatMap encode ++
      rest

variable {it : TranslationArrayIterator} {basis : List TranslationInstruction} {n more : ℕ}
  {i : TranslationInstruction}

theorem At.hasNextOpcode (h : it.At buffer basis n more suffix) :
    it.hasNextOpcode buffer = true ↔ more ≠ 0 ∨ suffix ≠ [] := by
  have hindex : it.index < buffer.length ↔ suffix ≠ [] := by
    rw [← h.drop_index, ne_eq, drop_eq_nil_iff, not_le]
  have hmore : it.remainingOpsToUseFromPreviousTranslation > 1 ↔ more ≠ 0 := by
    rcases h.remaining with hr | ⟨rfl, hr⟩ <;> rw [hr] <;> omega
  rw [TranslationArrayIterator.hasNextOpcode, Bool.or_eq_true, decide_eq_true_iff,
    decide_eq_true_iff, hindex, hmore, or_comm]

/-- An instruction of the basis: its opcode has been decided to be there. -/
theorem finishInstruction_previous (it : TranslationArrayIterator)
    (hremaining : it.remainingOpsToUseFromPreviousTranslation = more + 1)
    (hops : it.opsSincePreviousIndexWasUpdated = 0) (hindex : buffer.drop it.index = suffix)
    (hlength : n + (more + 1) ≤ basis.length) (hbasis : ∀ i ∈ basis, i.InRange)
    (hprevious : buffer.drop it.previousIndex = (basis.drop n).flatMap encode ++ rest) :
    ∃ i it₁ it', basis[n]? = some i ∧ it.nextOpcodeAtPreviousIndex buffer = some (i.opcode, it₁) ∧
      it₁.finishInstruction buffer i.opcode = some (i, it') ∧
      it'.At buffer basis (n + 1) more suffix := by
  have hn : n < basis.length := by omega
  have hcons : basis.drop n = basis[n] :: basis.drop (n + 1) := drop_eq_getElem_cons hn
  have hi : (basis[n]).InRange := hbasis _ (getElem_mem hn)
  rw [hcons, flatMap_cons, append_assoc] at hprevious
  obtain ⟨hopcode, hdrop⟩ := nextOpcodeAtPreviousIndex_spec hprevious
  have hne : it.remainingOpsToUseFromPreviousTranslation ≠ 0 := by omega
  have hcursor : ∀ k, cursor { it with previousIndex := k } = k := fun k => if_pos hne
  have hmove : ∀ k l, moveTo { it with previousIndex := k } l = { it with previousIndex := l } :=
    fun k l => if_pos hne
  refine ⟨basis[n], _, _, getElem?_eq_getElem hn, hopcode,
    finishInstruction_spec hi (by rw [hcursor]; exact hdrop), ?_⟩
  rw [hcursor, hmove]
  refine ⟨hindex, .inl hremaining, by rw [hops]; exact Nat.zero_le _, fun _ => hops,
    fun _ => by omega, hbasis, fun _ => ⟨rest, ?_⟩⟩
  rw [hops, Nat.sub_zero, Nat.add_assoc, ← length_encode]
  exact drop_add_of_append hprevious

theorem nextOpcode_of_more (h : it.remainingOpsToUseFromPreviousTranslation = more + 1 + 1) :
    it.nextOpcode buffer = nextOpcodeAtPreviousIndex buffer
      { it with remainingOpsToUseFromPreviousTranslation := more + 1 } := by
  have hdecrement : (if it.remainingOpsToUseFromPreviousTranslation ≠ 0 then
      it.remainingOpsToUseFromPreviousTranslation - 1
      else it.remainingOpsToUseFromPreviousTranslation) = more + 1 := by
    rw [if_pos (by omega), h, add_sub_cancel_right]
  rw [nextOpcode, hdecrement]
  exact if_pos (show (more : ℤ) + 1 ≠ 0 by omega)

/-- Outside of runs, the opcode is at the first index. -/
theorem At.nextOpcode (h : it.At buffer basis n 0 suffix) :
    it.nextOpcode buffer = nextOpcodeAtIndex buffer
      { it with remainingOpsToUseFromPreviousTranslation := 0 } := by
  unfold TranslationArrayIterator.nextOpcode
  rcases h.remaining with hr | ⟨-, hr⟩
  · rw [hr]
    rfl
  · rw [hr]
    rfl

/-- **In the middle of a run.** -/
theorem At.step_more (h : it.At buffer basis n (more + 1) suffix) :
    ∃ i it', basis[n]? = some i ∧ it.readInstruction buffer = some (i, it') ∧
      it'.At buffer basis (n + 1) more suffix := by
  have hremaining : it.remainingOpsToUseFromPreviousTranslation = more + 1 + 1 := by
    rcases h.remaining with hr | ⟨hzero, -⟩
    · exact hr
    · omega
  have hlength := h.le_length (Nat.succ_ne_zero more)
  have hops := h.ops_eq (Nat.succ_ne_zero more)
  have hne : basis ≠ [] := ne_nil_of_length_pos (by omega)
  obtain ⟨rest, hprevious⟩ := h.drop_previous hne
  rw [hops, Nat.sub_zero] at hprevious
  obtain ⟨i, it₁, it', hget, hopcode, hfinish, hat⟩ := finishInstruction_previous
    { it with remainingOpsToUseFromPreviousTranslation := more + 1 } rfl hops h.drop_index hlength
    h.basis_inRange hprevious
  refine ⟨i, it', hget, ?_, hat⟩
  rw [readInstruction, nextOpcode_of_more hremaining, hopcode]
  exact hfinish

/-- An opcode at the first index. -/
theorem decodeOpcode_spec (hi : i.opcode ≠ .matchPreviousTranslation)
    (it : TranslationArrayIterator) :
    it.decodeOpcode buffer i.opcode.toByte = some (i.opcode, it) := by
  rw [decodeOpcode, if_neg (not_le.mpr i.opcode.toByte_lt), TranslationOpcode.ofByte_toByte,
    Option.bind_eq_bind, Option.bind_some, if_neg hi]

theorem nextOpcodeAtIndex_of_encode (it : TranslationArrayIterator)
    (hi : i.opcode ≠ .matchPreviousTranslation) (h : buffer.drop it.index = i.encode ++ rest) :
    it.nextOpcodeAtIndex buffer = (if i.opcode.isBegin then do
        let it ← { it with index := it.index + 1 }.atBegin buffer
        some (i.opcode, it)
      else some (i.opcode, { it with
        index := it.index + 1
        opsSincePreviousIndexWasUpdated := it.opsSincePreviousIndexWasUpdated + 1 })) := by
  rw [nextOpcodeAtIndex, (getElem?_of_drop h).1, Option.bind_eq_bind, Option.bind_some,
    decodeOpcode_spec hi, Option.bind_eq_bind, Option.bind_some]
  dsimp only
  rw [if_neg hi]

/-- **An instruction** that is written out. -/
theorem At.step_explicit (h : it.At buffer basis n 0 (i.encode ++ suffix)) (hi : i.IsPlain) :
    ∃ it', it.readInstruction buffer = some (i, it') ∧ it'.At buffer basis (n + 1) 0 suffix := by
  obtain ⟨hi, hbegin, hmatch⟩ := hi
  have hdrop := (getElem?_of_drop h.drop_index).2
  rw [readInstruction, h.nextOpcode, nextOpcodeAtIndex_of_encode
    { it with remainingOpsToUseFromPreviousTranslation := 0 } hmatch h.drop_index, hbegin,
    bind_eq_bind, if_neg Bool.false_ne_true, bind_some]
  refine ⟨_, finishInstruction_spec hi hdrop, ?_⟩
  refine ⟨?_, .inr ⟨rfl, rfl⟩, Nat.succ_le_succ h.ops_le, fun hne => absurd rfl hne,
    fun hne => absurd rfl hne, h.basis_inRange, fun hne => ?_⟩
  · exact drop_add_of_append hdrop
  · obtain ⟨rest, hprevious⟩ := h.drop_previous hne
    refine ⟨rest, ?_⟩
    rw [← Nat.succ_sub_succ] at hprevious
    exact hprevious

variable {count : ℕ}

/-- The number of instructions of a run, in the opcode byte or after it. -/
theorem decodeOpcode_encodeMatch (it : TranslationArrayIterator)
    (hremaining : it.remainingOpsToUseFromPreviousTranslation = 0) (hcount : count < 2 ^ 31)
    (h : buffer.drop it.index = encodeMatch count ++ rest) :
    ∃ byte, buffer[it.index]? = some byte ∧
      decodeOpcode buffer { it with index := it.index + 1 } byte =
        some (.matchPreviousTranslation, { it with
          index := it.index + (encodeMatch count).length
          remainingOpsToUseFromPreviousTranslation := count }) := by
  have hnum : TranslationOpcode.kNumTranslationOpcodes = 36 := rfl
  unfold encodeMatch at h ⊢
  split at h
  · next hle =>
    have hmax : kMaxShortenableOperand = 219 := rfl
    have hbyte : (BitVec.ofNat 8 (TranslationOpcode.kNumTranslationOpcodes + count)).toNat =
        TranslationOpcode.kNumTranslationOpcodes + count := by
      rw [BitVec.toNat_ofNat, Nat.mod_eq_of_lt (by omega)]
    refine ⟨_, (getElem?_of_drop h).1, ?_⟩
    have hcount : ((TranslationOpcode.kNumTranslationOpcodes + count : ℕ) : ℤ) -
        TranslationOpcode.kNumTranslationOpcodes = count := by omega
    rw [decodeOpcode, hbyte, if_pos (Nat.le_add_right _ _), if_pos hle, hcount]
    rfl
  · next hgt =>
    obtain ⟨hget, hdrop⟩ := getElem?_of_drop h
    refine ⟨_, hget, ?_⟩
    have hvalue : (BitVec.ofNat 32 count).toInt = count := by
      rw [BitVec.toInt_eq_toNat_of_lt] <;> rw [BitVec.toNat_ofNat, Nat.mod_eq_of_lt (by omega)]
      omega
    have hcursor : cursor { it with index := it.index + 1 } = it.index + 1 :=
      if_neg (not_not.mpr hremaining)
    have hmove : ∀ k, moveTo { it with index := it.index + 1 } k = { it with index := k } :=
      fun _ => if_neg (not_not.mpr hremaining)
    have hbytes : (matchPrevious count).operandBytes =
        OperandType.unsigned.writeVLQ (BitVec.ofNat 32 count) := append_nil _
    have hoperand : nextOperandUnsigned buffer { it with index := it.index + 1 } =
        some (BitVec.ofNat 32 count, { it with
          index := it.index + (matchPrevious count).encode.length }) := by
      have hread : readOperand buffer { it with index := it.index + 1 } .unsigned = _ :=
        readOperand_spec trivial (by rw [hcursor, ← hbytes]; exact hdrop)
      rw [hcursor, hmove, ← hbytes, Nat.add_assoc, ← length_encode] at hread
      exact hread
    rw [decodeOpcode, if_neg (not_le.mpr (TranslationOpcode.toByte_lt _)),
      TranslationOpcode.ofByte_toByte, Option.bind_eq_bind, Option.bind_some,
      if_pos (show (matchPrevious count).opcode = .matchPreviousTranslation from rfl), hoperand,
      Option.bind_eq_bind, Option.bind_some, if_neg hgt]
    dsimp only
    rw [hvalue]
    rfl

/-- **The first instruction of a run.** The second index catches up. -/
theorem At.step_run (h : it.At buffer basis n 0 (encodeMatch (count + 1) ++ suffix))
    (hlength : n + (count + 1) ≤ basis.length) (hcount : count + 1 < 2 ^ 31) :
    ∃ i it', basis[n]? = some i ∧ it.readInstruction buffer = some (i, it') ∧
      it'.At buffer basis (n + 1) count suffix := by
  have hne : basis ≠ [] := ne_nil_of_length_pos (by omega)
  obtain ⟨rest, hprevious⟩ := h.drop_previous hne
  obtain ⟨byte, hget, hdecode⟩ := decodeOpcode_encodeMatch
    { it with remainingOpsToUseFromPreviousTranslation := 0 } rfl hcount h.drop_index
  -- the instructions since the last run
  generalize hops : it.opsSincePreviousIndexWasUpdated = ops at hprevious
  have hops_le : ops ≤ n := hops ▸ h.ops_le
  have hsplit : basis.drop (n - ops) = (basis.drop (n - ops)).take ops ++ basis.drop n := by
    conv_lhs => rw [← take_append_drop ops (basis.drop (n - ops)), drop_drop,
      Nat.sub_add_cancel hops_le]
  have hlength_take : ((basis.drop (n - ops)).take ops).length = ops := by
    rw [length_take, length_drop]
    omega
  rw [hsplit, flatMap_append, append_assoc] at hprevious
  have hskip := skipOps_spec { it with
      index := it.index + (encodeMatch (count + 1)).length
      remainingOpsToUseFromPreviousTranslation := (count + 1 : ℕ) }
    (fun i hi => h.basis_inRange i (mem_of_mem_drop (mem_of_mem_take hi))) hprevious
  rw [hlength_take, ← hops] at hskip
  obtain ⟨i, it₁, it', hbasis, hopcode, hfinish, hat⟩ := finishInstruction_previous { it with
      index := it.index + (encodeMatch (count + 1)).length
      remainingOpsToUseFromPreviousTranslation := (count + 1 : ℕ)
      previousIndex := it.previousIndex + (((basis.drop (n - ops)).take ops).flatMap encode).length
      opsSincePreviousIndexWasUpdated := 0 }
    (Int.natCast_succ count) rfl (drop_add_of_append h.drop_index) hlength h.basis_inRange
    (drop_add_of_append hprevious)
  refine ⟨i, it', hbasis, ?_, hat⟩
  have hmatch : it.nextOpcode buffer = some (i.opcode, it₁) := by
    rw [h.nextOpcode, nextOpcodeAtIndex, hget, Option.bind_eq_bind, Option.bind_some, hdecode,
      Option.bind_eq_bind, Option.bind_some]
    dsimp only
    rw [if_neg (by decide), if_pos rfl, atMatch, hskip, Option.bind_eq_bind, Option.bind_some,
      hops, hopcode]
  rw [readInstruction, hmatch]
  exact hfinish

/-- **The beginning of a translation.** The second index is at the basis. -/
theorem At.step_begin {basis' : List TranslationInstruction} {position : ℕ}
    {distance : BitVec 32} (hbuffer : buffer.length < 2 ^ 31)
    (h : it.At buffer basis n 0 (i.encode ++ suffix)) (hi : i.IsBegin distance)
    (hposition : position + (i.encode ++ suffix).length = buffer.length)
    (hbasis : BasisAt buffer distance position basis') :
    ∃ it', it.readInstruction buffer = some (i, it') ∧ it'.At buffer basis' 1 0 suffix := by
  obtain ⟨hi_inRange, frameCount, jsframeCount, updateFeedback, hi⟩ := hi
  have hbegin : i.opcode.isBegin = true := by
    rw [hi]
    cases updateFeedback <;> rfl
  have hmatch : i.opcode ≠ .matchPreviousTranslation := by
    rw [hi]
    cases updateFeedback <;> exact nofun
  have hoperands : ∃ tail, i.operandBytes = vlqEncodeUnsigned distance ++ tail := by
    rw [hi]
    cases updateFeedback <;> exact ⟨_, rfl⟩
  obtain ⟨tail, hoperands⟩ := hoperands
  have hdrop : buffer.drop (it.index + 1) = i.operandBytes ++ suffix :=
    (getElem?_of_drop h.drop_index).2
  have hdistance := hdrop
  rw [hoperands, append_assoc] at hdistance
  rw [readInstruction, h.nextOpcode, nextOpcodeAtIndex_of_encode
    { it with remainingOpsToUseFromPreviousTranslation := 0 } hmatch h.drop_index, hbegin,
    if_pos rfl, atBegin, vlqDecodeUnsigned_encode hdistance]
  refine ⟨_, finishInstruction_spec hi_inRange hdrop, ?_⟩
  refine ⟨drop_add_of_append hdrop, .inr ⟨rfl, rfl⟩, le_rfl, fun hne => absurd rfl hne,
    fun hne => absurd rfl hne, ?_, fun hne => ?_⟩
  · rcases hbasis with ⟨-, rfl⟩ | ⟨-, hbasis, -⟩
    · exact nofun
    · exact hbasis
  · obtain ⟨hne_zero, -, start, rest, hlength, hstart⟩ := hbasis.resolve_left fun hnil => hne hnil.2
    have hindex : it.index + (i.encode ++ suffix).length = buffer.length := by
      have hlength := congrArg List.length h.drop_index
      rw [length_drop] at hlength
      have hpos : 0 < (i.encode ++ suffix).length := Nat.succ_pos _
      omega
    have hprevious : (BitVec.ofNat 32 (it.index + 1) - 1 - distance).toNat = start := by
      rw [show it.index + 1 = start + distance.toNat + 1 by omega, BitVec.ofNat_add,
        BitVec.ofNat_add, BitVec.ofNat_toNat, BitVec.setWidth_eq,
          show BitVec.ofNat 32 1 = 1 from rfl,
        BitVec.add_sub_cancel, BitVec.add_sub_cancel, BitVec.toNat_ofNat,
        Nat.mod_eq_of_lt (by omega)]
    have hdrop_previous : buffer.drop (if distance ≠ 0 then
        (BitVec.ofNat 32 (it.index + 1) - 1 - distance).toNat else it.previousIndex) =
        basis'.flatMap encode ++ rest := by
      rw [if_pos hne_zero, hprevious, hstart]
    exact ⟨rest, hdrop_previous⟩

variable {is : List TranslationInstruction} {fuel : ℕ}

theorem readAll_cons {it' : TranslationArrayIterator}
    (hnext : it.hasNextOpcode buffer = true) (hread : it.readInstruction buffer = some (i, it'))
    (hrest : readAll buffer fuel it' = some is) : readAll buffer (fuel + 1) it = some (i :: is) := by
  rw [readAll, if_pos hnext, hread, Option.bind_eq_bind, Option.bind_some]
  dsimp only
  rw [hrest]
  rfl

/-- The rest of a run, and what comes after it. -/
theorem At.readAll_more
    (hrest : ∀ it' fuel, it'.At buffer basis (n + more) 0 suffix → is.length < fuel →
      readAll buffer fuel it' = some is) (h : it.At buffer basis n more suffix)
    (hfuel : more + is.length < fuel) :
    readAll buffer fuel it = some ((basis.drop n).take more ++ is) := by
  induction more generalizing it n fuel with
  | zero => exact hrest it fuel h (by omega)
  | succ more ih =>
    obtain ⟨i, it', hget, hread, hat⟩ := h.step_more
    obtain ⟨hn, rfl⟩ := List.getElem?_eq_some_iff.mp hget
    cases fuel with
    | zero => omega
    | succ fuel =>
      have htail := ih (fun it' fuel => by rw [Nat.add_right_comm]; exact hrest it' fuel) hat
        (show more + is.length < fuel by omega)
      rw [drop_eq_getElem_cons hn]
      exact readAll_cons (h.hasNextOpcode.mpr (.inl (Nat.succ_ne_zero more))) hread htail

/-- **The run of a reader.** It returns what is remaining, and stops at the end. -/
theorem At.readAll_spec (hbuffer : buffer.length < 2 ^ 31)
    (hremaining : StandsFor buffer basis n suffix is) (h : it.At buffer basis n 0 suffix)
    (hfuel : is.length < fuel) : readAll buffer fuel it = some is := by
  have hne : ∀ i : TranslationInstruction, ∀ rest, i.encode ++ rest ≠ [] := fun i rest => nofun
  induction hremaining generalizing it fuel with
  | nil basis n =>
    cases fuel with
    | zero => omega
    | succ fuel =>
      refine if_neg fun hnext => ?_
      exact (h.hasNextOpcode.mp hnext).elim (fun hne => hne rfl) fun hne => hne rfl
  | explicit hi hremaining ih =>
    cases fuel with
    | zero => omega
    | succ fuel =>
      obtain ⟨it', hread, hat⟩ := h.step_explicit hi
      exact readAll_cons (h.hasNextOpcode.mpr (.inr (hne _ _))) hread
        (ih hat (Nat.lt_of_succ_lt_succ hfuel))
  | @run basis is n count rest hpos hcount hle hremaining ih =>
    obtain ⟨count, rfl⟩ := Nat.exists_eq_succ_of_ne_zero hpos.ne'
    obtain ⟨i, it', hget, hread, hat⟩ := h.step_run hle hcount
    obtain ⟨hn, rfl⟩ := List.getElem?_eq_some_iff.mp hget
    have hlength : ((basis.drop n).take (count + 1)).length = count + 1 := by
      rw [length_take, length_drop]
      omega
    rw [length_append, hlength] at hfuel
    cases fuel with
    | zero => omega
    | succ fuel =>
      have hrest := hat.readAll_more (fun it' fuel hat => ih (by
        rw [Nat.succ_eq_add_one, ← Nat.add_assoc, Nat.add_right_comm]; exact hat))
        (show count + is.length < fuel by omega)
      rw [drop_eq_getElem_cons hn]
      refine readAll_cons (h.hasNextOpcode.mpr (.inr ?_)) hread hrest
      exact fun hnil => encodeMatch_ne_nil _ (append_eq_nil_iff.mp hnil).1
  | translation hi hposition hbasis hremaining ih =>
    cases fuel with
    | zero => omega
    | succ fuel =>
      obtain ⟨it', hread, hat⟩ := h.step_begin hbuffer hi hposition hbasis
      exact readAll_cons (h.hasNextOpcode.mpr (.inr (hne _ _))) hread
        (ih hat (Nat.lt_of_succ_lt_succ hfuel))

end TranslationArrayIterator
