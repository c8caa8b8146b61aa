import V8Speak.StreamingDecoder

/-!
# Decoding a stream byte by byte

A chunk is decoded as if its bytes came one by one. There are two cases for the first byte
of a chunk. If it fills the buffer of the state, then the bytes that come after it are not
read by this state – or, for a number, they are read in vain. If it does not, then the
state goes on with the other bytes from where the first byte has brought it.

That the reading of a number may look at bytes behind the number does not matter, as an
encoding is not changed by what follows it (`consumeU32v_append`), and nothing but
the bytes of the encoding is used when the state is left (`Decoding.next_trim`).
-/

open List

namespace AsyncStreamingDecoder

/-! ## Encodings -/

variable {bytes : List Byte}

theorem readLebTail_spec {n : ℕ} {byteIndex k : ℕ} {r v : BitVec 32}
    (h : readLebTail n bytes byteIndex r = some (v, k)) :
    byteIndex < k ∧ k ≤ byteIndex + n ∧ k ≤ byteIndex + bytes.length ∧
      ∀ more, readLebTail n (bytes.take (k - byteIndex) ++ more) byteIndex r = some (v, k) := by
  induction n generalizing bytes byteIndex r with
  | zero => exact nomatch h
  | succ n ih =>
    cases bytes with
    | nil => exact nomatch h
    | cons b bytes =>
      simp only [readLebTail] at h
      split at h
      · next hc =>
        obtain ⟨h₁, h₂, h₃, h₄⟩ := ih h
        refine ⟨by omega, by omega, by rw [length_cons]; omega, fun more => ?_⟩
        rw [show k - byteIndex = (k - (byteIndex + 1)) + 1 by omega, take_succ_cons,
          cons_append, readLebTail, if_pos hc]
        exact h₄ more
      · next hc =>
        split at h
        · exact nomatch h
        · next hb =>
          split at h
          · exact nomatch h
          · next hl =>
            cases h
            refine ⟨by omega, by omega, by rw [length_cons]; omega, fun more => ?_⟩
            rw [Nat.add_sub_cancel_left, take_succ_cons, cons_append, readLebTail,
              if_neg hc, if_neg hb, if_neg hl]

variable {v : BitVec 32}

/-- **An encoding does not depend on what follows.** -/
theorem consumeU32v_spec {k : ℕ} (h : consumeU32v bytes = some (v, k)) :
    0 < k ∧ k ≤ kMaxVarInt32Size ∧ k ≤ bytes.length ∧
      ∀ more, consumeU32v (bytes.take k ++ more) = some (v, k) := by
  cases bytes with
  | nil => exact nomatch h
  | cons b bytes =>
    rw [consumeU32v] at h
    split at h
    · next hb =>
      cases h
      refine ⟨Nat.one_pos, by decide, by rw [length_cons]; omega, fun more => ?_⟩
      rw [take_succ_cons, cons_append, consumeU32v, if_pos hb]
    · next hb =>
      obtain ⟨h₁, h₂, h₃, h₄⟩ := readLebTail_spec h
      refine ⟨h₁, by omega, by omega, fun more => ?_⟩
      obtain ⟨k, rfl⟩ : ∃ l, k = l + 1 := ⟨k - 1, by omega⟩
      have := h₄ more
      rw [Nat.sub_zero, take_succ_cons, cons_append] at this
      rw [take_succ_cons, cons_append, consumeU32v, if_neg hb, this]

theorem consumeU32v_append {k : ℕ} (h : consumeU32v bytes = some (v, k)) (more : List Byte) :
    consumeU32v (bytes ++ more) = some (v, k) := by
  have := (consumeU32v_spec h).2.2.2 (bytes.drop k ++ more)
  rwa [← append_assoc, take_append_drop] at this

/-- An encoding is longer than a list that it extends and that has none. -/
theorem lt_of_consumeU32v_append {bytes more : List Byte} {k : ℕ}
    (hnone : consumeU32v bytes = none) (h : consumeU32v (bytes ++ more) = some (v, k)) :
    bytes.length < k := by
  refine Nat.lt_of_not_le fun hk => ?_
  have := (consumeU32v_spec h).2.2.2 (bytes.drop k)
  rw [take_append_of_le_length hk, take_append_drop, hnone] at this
  exact nomatch this

/-! ## Reading one byte more -/

namespace VarInt32

/-- The number is not complete. -/
structure Pending (number : VarInt32) : Prop where
  length : number.byteBuffer.length = number.offset
  lt : number.offset < kMaxVarInt32Size
  none : consumeU32v number.byteBuffer = none
  value : number.value = 0
  bytesConsumed : number.bytesConsumed = 0

theorem Pending.init : Pending {} := ⟨rfl, by decide, rfl, rfl, rfl⟩

variable (number : VarInt32)

/-- Forgets the bytes behind the number. -/
def trim : VarInt32 :=
  { number with byteBuffer := number.byteBuffer.take number.bytesConsumed }

theorem value_trim : number.trim.value = number.value := rfl

theorem bytesConsumed_trim : number.trim.bytesConsumed = number.bytesConsumed := rfl

/-- The number with one byte more, if that does not complete it. -/
def push (x : Byte) : VarInt32 :=
  { number with byteBuffer := number.byteBuffer ++ [x], offset := number.offset + 1 }

variable {number : VarInt32} {x : Byte} {v : BitVec 32} {k : ℕ} (h : number.Pending)
include h

theorem Pending.push (hnone : consumeU32v (number.byteBuffer ++ [x]) = .none)
    (hlt : number.offset + 1 < kMaxVarInt32Size) : (number.push x).Pending where
  length := by rw [VarInt32.push, length_append, h.length]; rfl
  lt := hlt
  none := hnone
  value := h.value
  bytesConsumed := h.bytesConsumed

/-- What `ReadBytes` decodes. -/
theorem Pending.buf_cons (x : Byte) (rest : List Byte) : number.byteBuffer.take number.offset ++
        (x :: rest).take (min (x :: rest).length (kMaxVarInt32Size - number.offset)) =
      (number.byteBuffer ++ [x]) ++
        rest.take (min rest.length (kMaxVarInt32Size - (number.offset + 1))) := by
  have hlt := h.lt
  rw [← h.length, take_length, h.length, length_cons,
    show min (rest.length + 1) (kMaxVarInt32Size - number.offset) =
      min rest.length (kMaxVarInt32Size - (number.offset + 1)) + 1 by omega,
    take_succ_cons, append_assoc, singleton_append]

/-- The number is complete: the bytes behind it are not read. -/
theorem Pending.readBytes_some
    (hsome : consumeU32v (number.byteBuffer ++ [x]) = some (v, k)) (rest : List Byte) :
    k = number.offset + 1 ∧ ∃ more, number.readBytes (x :: rest) =
      (⟨number.byteBuffer ++ [x] ++ more, kMaxVarInt32Size, v.toNat, k⟩, 1, false) := by
  have hk : k = number.offset + 1 := by
    have h₁ := lt_of_consumeU32v_append h.none hsome
    have h₂ := (consumeU32v_spec hsome).2.2.1
    rw [length_append, length_singleton] at h₂
    rw [h.length] at h₁ h₂
    omega
  refine ⟨hk, rest.take (min rest.length (kMaxVarInt32Size - (number.offset + 1))), ?_⟩
  rw [readBytes]
  rw [h.buf_cons, consumeU32v_append hsome]
  dsimp only
  rw [hk, Nat.add_sub_cancel_left]

/-- The number is too long. -/
theorem Pending.readBytes_fail (hnone : consumeU32v (number.byteBuffer ++ [x]) = .none)
    (hlast : number.offset + 1 = kMaxVarInt32Size) (rest : List Byte) :
    number.readBytes (x :: rest) = (number.push x, 1, true) := by
  have hone : min (x :: rest).length (kMaxVarInt32Size - number.offset) = 1 := by
    rw [length_cons]
    omega
  rw [readBytes]
  rw [h.buf_cons, show kMaxVarInt32Size - (number.offset + 1) = 0 by omega, Nat.min_zero,
    take_zero, append_nil, hnone, hone]
  rw [VarInt32.push, ← h.value, decide_eq_true (by omega)]

theorem Pending.readBytes_nil : number.readBytes [] = (number, 0, false) := by
  have hlt := h.lt
  rw [readBytes, length_nil, Nat.zero_min, take_nil, append_nil, ← h.length,
    take_length, h.none]
  dsimp only
  rw [Nat.add_zero, h.length, decide_eq_false (by omega), ← h.value]

/-- The number goes on. -/
theorem Pending.readBytes_push (hnone : consumeU32v (number.byteBuffer ++ [x]) = .none)
    (hlt : number.offset + 1 < kMaxVarInt32Size) (rest : List Byte) :
    number.readBytes (x :: rest) =
      (((number.push x).readBytes rest).1, ((number.push x).readBytes rest).2.1 + 1,
        ((number.push x).readBytes rest).2.2) := by
  have hp := h.push hnone hlt
  have hmin : min (x :: rest).length (kMaxVarInt32Size - number.offset) =
      min rest.length (kMaxVarInt32Size - (number.offset + 1)) + 1 := by
    rw [length_cons]
    omega
  have hbuf : (number.push x).byteBuffer.take (number.push x).offset =
      number.byteBuffer ++ [x] := by
    rw [← hp.length, take_length, VarInt32.push]
  rw [readBytes, readBytes]
  rw [h.buf_cons, hbuf, hmin, show (number.push x).offset = number.offset + 1 from rfl]
  cases hc : consumeU32v (number.byteBuffer ++ [x] ++
      rest.take (min rest.length (kMaxVarInt32Size - (number.offset + 1)))) with
  | none =>
    refine Prod.ext ?_ (Prod.ext rfl ?_)
    · show VarInt32.mk _ _ _ _ = VarInt32.mk _ _ _ _
      rw [Nat.add_comm (min _ _) 1, ← Nat.add_assoc]
      rfl
    · refine decide_eq_decide.2 ?_
      show min rest.length (kMaxVarInt32Size - (number.offset + 1)) + 1 =
          kMaxVarInt32Size - number.offset ↔
        min rest.length (kMaxVarInt32Size - (number.offset + 1)) =
          kMaxVarInt32Size - (number.offset + 1)
      omega
  | some r =>
    obtain ⟨v, k⟩ := r
    have hk := lt_of_consumeU32v_append hnone hc
    rw [length_append, length_singleton, h.length] at hk
    dsimp only
    rw [show k - number.offset = k - (number.offset + 1) + 1 by omega]

omit h

end VarInt32

/-- Writing to the end of what has been written. -/
theorem SectionBuffer.write_length (buffer : SectionBuffer) {position : ℕ}
    (h : buffer.bytes.length = position) (data : List Byte) :
    buffer.write position data = { buffer with bytes := buffer.bytes ++ data } := by
  rw [write, ← h, take_length, drop_of_length_le (Nat.le_add_right _ _), append_nil]

namespace DecodingState

/-- The buffer is not full, and what a section buffer holds are the bytes before the
current position. -/
def Valid : DecodingState → Prop
  | decodeModuleHeader offset byteBuffer => byteBuffer.length = offset ∧ offset < kModuleHeaderSize
  | decodeSectionID offset _ _ => offset = 0
  | decodeSectionLength number _ _ => number.Pending
  | decodeSectionPayload offset sectionBuffer =>
    sectionBuffer.bytes.length = sectionBuffer.payloadOffset + offset ∧
      offset < sectionBuffer.payloadLength
  | decodeNumberOfFunctions number sectionBuffer =>
    number.Pending ∧ sectionBuffer.bytes.length = sectionBuffer.payloadOffset
  | decodeFunctionLength number sectionBuffer bufferOffset _ =>
    number.Pending ∧ sectionBuffer.bytes.length = bufferOffset
  | decodeFunctionBody offset sectionBuffer bufferOffset functionBodyLength _ _ =>
    sectionBuffer.bytes.length = bufferOffset + offset ∧ offset < functionBodyLength

/-- Forgets the bytes behind a number. -/
def trim : DecodingState → DecodingState
  | decodeSectionLength number sectionId moduleOffset =>
    decodeSectionLength number.trim sectionId moduleOffset
  | decodeNumberOfFunctions number sectionBuffer =>
    decodeNumberOfFunctions number.trim sectionBuffer
  | decodeFunctionLength number sectionBuffer bufferOffset numRemainingFunctions =>
    decodeFunctionLength number.trim sectionBuffer bufferOffset numRemainingFunctions
  | state => state

variable (state : DecodingState)

@[simp] theorem offset_trim : state.trim.offset = state.offset := by
  cases state <;> rfl

@[simp] theorem bufferSize_trim : state.trim.bufferSize = state.bufferSize := by
  cases state <;> rfl

/-- The byte fills the buffer, and the bytes behind it make no difference. -/
def Completes (x : Byte) : Prop :=
  ∃ (full : DecodingState) (failed : Bool), full.offset = full.bufferSize ∧
    ∀ rest, ∃ ahead : DecodingState, state.readBytes (x :: rest) = (ahead, 1, failed) ∧
    ahead.trim = full.trim

/-- After the byte, the state goes on with the bytes behind it. -/
def GoesOn (x : Byte) : Prop :=
  ∃ state' : DecodingState, state'.offset ≠ state'.bufferSize ∧ state'.Valid ∧
    state.readBytes [x] = (state', 1, false) ∧
    ∀ rest, state.readBytes (x :: rest) =
      ((state'.readBytes rest).1, (state'.readBytes rest).2.1 + 1, (state'.readBytes rest).2.2)

/-- States that only fill a buffer: what they are for the bytes in the buffer. -/
structure Fills (state : List Byte → DecodingState) (size : ℕ) : Prop where
  offset : ∀ w, (state w).offset = w.length
  bufferSize : ∀ w, (state w).bufferSize = size
  valid : ∀ w, w.length < size → (state w).Valid
  readBytes : ∀ w bytes, (state w).readBytes bytes =
    (state (w ++ bytes.take (min bytes.length (size - w.length))),
      min bytes.length (size - w.length), false)

theorem Fills.completes_or_goesOn {state : List Byte → DecodingState} {size : ℕ}
    (h : Fills state size) {w : List Byte} (hw : w.length < size) (x : Byte) :
    (state w).Completes x ∨ (state w).GoesOn x := by
  have hlen : (w ++ [x]).length = w.length + 1 := by simp
  have hmin (rest : List Byte) : min (x :: rest).length (size - w.length) =
      min rest.length (size - (w.length + 1)) + 1 := by
    rw [length_cons]
    omega
  have hread (rest : List Byte) : (state w).readBytes (x :: rest) =
      (state (w ++ [x] ++ rest.take (min rest.length (size - (w.length + 1)))),
        min rest.length (size - (w.length + 1)) + 1, false) := by
    rw [h.readBytes, hmin, take_succ_cons, append_assoc, singleton_append]
  by_cases hfull : w.length + 1 = size
  · refine .inl ⟨state (w ++ [x]), false, ?_, fun rest => ⟨state (w ++ [x]), ?_, rfl⟩⟩
    · rw [h.offset, h.bufferSize, hlen, hfull]
    · rw [hread, hfull, Nat.sub_self, Nat.min_zero, take_zero, append_nil]
  · refine .inr ⟨state (w ++ [x]), ?_, h.valid _ (by omega), ?_, fun rest => ?_⟩
    · rw [h.offset, h.bufferSize, hlen]
      exact hfull
    · rw [hread, length_nil, Nat.zero_min, take_zero, append_nil]
    · rw [hread, h.readBytes, hlen]

theorem fills_decodeModuleHeader :
    Fills (fun w => decodeModuleHeader w.length w) kModuleHeaderSize where
  offset _ := rfl
  bufferSize _ := rfl
  valid _ hw := ⟨rfl, hw⟩
  readBytes w bytes := by
    show (decodeModuleHeader (w.length + min bytes.length (kModuleHeaderSize - w.length))
      (w.take w.length ++ _), _) = _
    rw [take_length, length_append, length_take, Nat.min_eq_left (Nat.min_le_left _ _)]
    rfl

variable (sectionBuffer : SectionBuffer)

theorem fills_decodeSectionPayload {written : List Byte}
    (h : written.length = sectionBuffer.payloadOffset) :
    Fills (fun w => decodeSectionPayload w.length { sectionBuffer with bytes := written ++ w })
      sectionBuffer.payloadLength where
  offset _ := rfl
  bufferSize _ := rfl
  valid w hw := ⟨by rw [length_append, h], hw⟩
  readBytes w bytes := by
    show (decodeSectionPayload (w.length + min bytes.length (sectionBuffer.payloadLength - w.length))
      (SectionBuffer.write _ _ _), _) = _
    rw [SectionBuffer.write_length _ (by rw [length_append, h]), length_append,
      length_take, Nat.min_eq_left (Nat.min_le_left _ _), append_assoc]
    rfl

theorem fills_decodeFunctionBody (functionBodyLength
    numRemainingFunctions : ℕ) (moduleOffset : BitVec 32) (written : List Byte) :
    Fills (fun w => decodeFunctionBody w.length { sectionBuffer with bytes := written ++ w }
      written.length functionBodyLength numRemainingFunctions moduleOffset)
      functionBodyLength where
  offset _ := rfl
  bufferSize _ := rfl
  valid w hw := ⟨by rw [length_append], hw⟩
  readBytes w bytes := by
    show (decodeFunctionBody (w.length + min bytes.length (functionBodyLength - w.length))
      (SectionBuffer.write _ _ _) _ _ _ _, _) = _
    rw [SectionBuffer.write_length _ (by rw [length_append]), length_append,
      length_take, Nat.min_eq_left (Nat.min_le_left _ _), append_assoc]
    rfl

/-- The states that read a number, which are left when the number is complete. -/
structure Reads (state : VarInt32 → DecodingState) : Prop where
  offset : ∀ number, (state number).offset = number.offset
  bufferSize : ∀ number, (state number).bufferSize = kMaxVarInt32Size
  valid : ∀ number : VarInt32, number.Pending → (state number).Valid
  trim : ∀ number : VarInt32, (state number).trim = state number.trim
  readBytes : ∀ number bytes, (state number).readBytes bytes =
    withNumber (number.readBytes bytes) state

theorem Reads.completes_or_goesOn {state : VarInt32 → DecodingState} (h : Reads state)
    {number : VarInt32} (hn : number.Pending) (x : Byte) :
    (state number).Completes x ∨ (state number).GoesOn x := by
  cases hc : consumeU32v (number.byteBuffer ++ [x]) with
  | some r =>
    obtain ⟨v, k⟩ := r
    refine .inl ⟨state ⟨number.byteBuffer ++ [x], kMaxVarInt32Size, v.toNat, k⟩, false, ?_,
      fun rest => ?_⟩
    · rw [h.offset, h.bufferSize]
    · obtain ⟨rfl, more, hr⟩ := hn.readBytes_some hc rest
      refine ⟨_, by rw [h.readBytes, hr]; rfl, ?_⟩
      have htake : (number.byteBuffer ++ [x] ++ more).take (number.offset + 1) =
          (number.byteBuffer ++ [x]).take (number.offset + 1) := by
        refine take_append_of_le_length (Nat.le_of_eq ?_)
        rw [length_append, hn.length, length_singleton]
      rw [h.trim, h.trim, VarInt32.trim, VarInt32.trim]
      rw [htake]
  | none =>
    by_cases hlast : number.offset + 1 = kMaxVarInt32Size
    · refine .inl ⟨state (number.push x), true, ?_, fun rest => ⟨_, ?_, rfl⟩⟩
      · rw [h.offset, h.bufferSize, ← hlast]
        rfl
      · rw [h.readBytes, hn.readBytes_fail hc hlast]
        rfl
    · have hlt : number.offset + 1 < kMaxVarInt32Size := by
        have := hn.lt
        omega
      have hp := hn.push hc hlt
      refine .inr ⟨state (number.push x), ?_, h.valid _ hp, ?_, fun rest => ?_⟩
      · rw [h.offset, h.bufferSize]
        exact hlast
      · rw [h.readBytes, hn.readBytes_push hc hlt, hp.readBytes_nil]
        rfl
      · rw [h.readBytes, hn.readBytes_push hc hlt, h.readBytes]
        rfl

theorem reads_decodeSectionLength (sectionId : Byte) (moduleOffset : BitVec 32) :
    Reads (decodeSectionLength · sectionId moduleOffset) :=
  ⟨fun _ => rfl, fun _ => rfl, fun _ hn => hn, fun _ => rfl, fun _ _ => rfl⟩

variable {sectionBuffer : SectionBuffer}

theorem reads_decodeNumberOfFunctions
    (h : sectionBuffer.bytes.length = sectionBuffer.payloadOffset) :
    Reads (decodeNumberOfFunctions · sectionBuffer) :=
  ⟨fun _ => rfl, fun _ => rfl, fun _ hn => ⟨hn, h⟩, fun _ => rfl, fun _ _ => rfl⟩

theorem reads_decodeFunctionLength {bufferOffset : ℕ}
    (h : sectionBuffer.bytes.length = bufferOffset) (numRemainingFunctions : ℕ) :
    Reads (decodeFunctionLength · sectionBuffer bufferOffset numRemainingFunctions) :=
  ⟨fun _ => rfl, fun _ => rfl, fun _ hn => ⟨hn, h⟩, fun _ => rfl, fun _ _ => rfl⟩

/-- **One byte more**: it fills the buffer, or the state goes on. -/
theorem Valid.completes_or_goesOn {state : DecodingState} (h : state.Valid) (x : Byte) :
    state.Completes x ∨ state.GoesOn x := by
  cases state with
  | decodeModuleHeader offset byteBuffer =>
    obtain ⟨rfl, hlt⟩ := h
    exact fills_decodeModuleHeader.completes_or_goesOn hlt x
  | decodeSectionID offset id moduleOffset =>
    obtain rfl : offset = 0 := h
    refine .inl ⟨decodeSectionID 1 x moduleOffset, false, rfl, fun rest => ⟨_, ?_, rfl⟩⟩
    show (decodeSectionID (0 + min (rest.length + 1) 1)
      (((x :: rest).take (min (rest.length + 1) 1)).headD id) moduleOffset,
      min (rest.length + 1) 1, false) = _
    rw [show min (rest.length + 1) 1 = 1 by omega]
    rfl
  | decodeSectionLength number sectionId moduleOffset =>
    exact (reads_decodeSectionLength sectionId moduleOffset).completes_or_goesOn h x
  | decodeSectionPayload offset sectionBuffer =>
    obtain ⟨hlen, hlt⟩ := h
    have hw : (sectionBuffer.bytes.drop sectionBuffer.payloadOffset).length = offset := by
      rw [length_drop, hlen, Nat.add_sub_cancel_left]
    have ht : (sectionBuffer.bytes.take sectionBuffer.payloadOffset).length =
        sectionBuffer.payloadOffset := by
      rw [length_take, hlen]
      omega
    have := (fills_decodeSectionPayload sectionBuffer ht).completes_or_goesOn (by rwa [hw]) x
    rwa [take_append_drop, hw] at this
  | decodeNumberOfFunctions number sectionBuffer =>
    exact (reads_decodeNumberOfFunctions h.2).completes_or_goesOn h.1 x
  | decodeFunctionLength number sectionBuffer bufferOffset numRemainingFunctions =>
    exact (reads_decodeFunctionLength h.2 numRemainingFunctions).completes_or_goesOn h.1 x
  | decodeFunctionBody offset sectionBuffer bufferOffset functionBodyLength numRemainingFunctions
      moduleOffset =>
    obtain ⟨hlen, hlt⟩ := h
    have hw : (sectionBuffer.bytes.drop bufferOffset).length = offset := by
      rw [length_drop, hlen, Nat.add_sub_cancel_left]
    have ht : (sectionBuffer.bytes.take bufferOffset).length = bufferOffset := by
      rw [length_take, hlen]
      omega
    have := (fills_decodeFunctionBody sectionBuffer functionBodyLength numRemainingFunctions
      moduleOffset (sectionBuffer.bytes.take bufferOffset)).completes_or_goesOn (by rwa [hw]) x
    rwa [take_append_drop, hw, ht] at this

end DecodingState

/-! ## The loop -/

namespace Decoding

variable (env : Environment) (d : Decoding)

theorem next_trim (state : DecodingState) : d.next env state.trim = d.next env state := by
  have htake (number : VarInt32) : number.trim.byteBuffer.take number.bytesConsumed =
      number.byteBuffer.take number.bytesConsumed := by
    rw [VarInt32.trim, take_take, Nat.min_self]
  cases state with
  | decodeSectionLength number sectionId moduleOffset =>
    simp only [DecodingState.trim, next, nextWithValue, nextAfterSectionLength, htake,
      number.value_trim, number.bytesConsumed_trim]
  | decodeNumberOfFunctions number sectionBuffer =>
    simp only [DecodingState.trim, next, nextWithValue, nextAfterNumberOfFunctions, htake,
      number.value_trim, number.bytesConsumed_trim]
  | decodeFunctionLength number sectionBuffer bufferOffset numRemainingFunctions =>
    simp only [DecodingState.trim, next, nextWithValue, nextAfterFunctionLength, htake,
      number.value_trim, number.bytesConsumed_trim]
  | _ => rfl

theorem process_withState (s : Option DecodingState) (call : Call) :
    process env { d with state := s } call = { d.process env call with state := s } := by
  unfold process
  split <;> rfl

theorem continueWith_withState (s : Option DecodingState) (state : DecodingState) :
    continueWith { d with state := s } state = d.continueWith state := rfl

/-- The state that is left does not matter. -/
theorem next_withState (s : Option DecodingState) (state : DecodingState) :
    next env { d with state := s } state = d.next env state := by
  cases state with
  | decodeModuleHeader offset byteBuffer =>
    simp only [next, process_withState, continueWith_withState]
  | decodeSectionID offset id moduleOffset => rfl
  | decodeSectionLength number sectionId moduleOffset =>
    simp only [next, nextWithValue, nextAfterSectionLength, processSection, process_withState,
      continueWith_withState, toErrorState, goTo]
  | decodeSectionPayload offset sectionBuffer =>
    simp only [next, processSection, process_withState, continueWith_withState]
  | decodeNumberOfFunctions number sectionBuffer =>
    simp only [next, nextWithValue, nextAfterNumberOfFunctions, process_withState,
      continueWith_withState, toErrorState]
  | decodeFunctionLength number sectionBuffer bufferOffset numRemainingFunctions => rfl
  | decodeFunctionBody offset sectionBuffer bufferOffset functionBodyLength numRemainingFunctions
      moduleOffset =>
    simp only [next, nextAfterFunctionBody, process_withState, continueWith_withState, toErrorState]

/-- **A decoder that receives one byte.** -/
def step (x : Byte) : Decoding :=
  if d.ok then
    match d.state with
    | none => d
    | some state => (d.readState env state [x]).1
  else d

variable {env} {d : Decoding} {state : DecodingState}

theorem step_of_ok (hok : d.ok) (hs : d.state = some state)
    (x : Byte) : d.step env x = (d.readState env state [x]).1 := by
  rw [step, if_pos hok, hs]

theorem foldl_step_of_not_ok (hok : ¬d.ok) (bytes : List Byte) : bytes.foldl (step env) d = d := by
  induction bytes with
  | nil => rfl
  | cons x bytes ih => rwa [foldl_cons, step, if_neg hok]

/-- A state that is full is left in the same way, whatever has been read behind it. -/
theorem readState_of_completes {x : Byte} (h : state.Completes x) (rest : List Byte) :
    d.readState env state (x :: rest) = ((d.readState env state [x]).1, 1) := by
  obtain ⟨full, failed, hfull, hread⟩ := h
  have key (rest : List Byte) : d.readState env state (x :: rest) = (next env { d with
        ok := d.ok && !failed, moduleOffset := d.moduleOffset + BitVec.ofNat 32 1 } full.trim, 1) := by
    obtain ⟨ahead, hr, htrim⟩ := hread rest
    have hahead : ahead.offset = ahead.bufferSize := by
      rw [← ahead.offset_trim, ← ahead.bufferSize_trim, htrim, full.offset_trim,
        full.bufferSize_trim, hfull]
    rw [readState, hr]
    dsimp only
    rw [if_pos hahead, ← next_trim, htrim]
  rw [key, key]

/-- A state that goes on. -/
theorem readState_of_goesOn (hok : d.ok) {x : Byte} (h : state.GoesOn x) :
    ∃ d' state', (d.readState env state [x]).1 = d' ∧ d'.ok ∧ d'.state = some state' ∧
      state'.Valid ∧ ∀ rest, d.readState env state (x :: rest) =
        ((d'.readState env state' rest).1, (d'.readState env state' rest).2 + 1) := by
  obtain ⟨state', hnot, hvalid, hone, hread⟩ := h
  refine ⟨_, state', rfl, ?_, ?_, hvalid, fun rest => ?_⟩
  · rw [readState, hone]
    dsimp only
    rw [if_neg hnot, goTo, hok]
    rfl
  · rw [readState, hone]
    dsimp only
    rw [if_neg hnot, goTo]
  · have hd : (d.readState env state [x]).1 = { d with
        ok := d.ok && !false, moduleOffset := d.moduleOffset + BitVec.ofNat 32 1,
        state := some state' } := by
      rw [readState, hone]
      dsimp only
      rw [if_neg hnot, goTo]
    have hoff (n : ℕ) : d.moduleOffset + BitVec.ofNat 32 (n + 1) =
        d.moduleOffset + BitVec.ofNat 32 1 + BitVec.ofNat 32 n := by
      rw [Nat.add_comm n 1, BitVec.ofNat_add, BitVec.add_assoc]
    rw [hd, readState, hread, readState]
    dsimp only
    rw [hoff, Bool.not_false, Bool.and_true]
    refine Prod.ext ?_ rfl
    dsimp only
    split
    · rw [← next_withState env _ (some state')]
    · rfl

/-- **A state reads its bytes as if they came one by one.** -/
theorem readState_eq_foldl (hok : d.ok)
    (hs : d.state = some state) (h : state.Valid) {bytes : List Byte} (hne : bytes ≠ []) :
    0 < (d.readState env state bytes).2 ∧
      (bytes.take (d.readState env state bytes).2).foldl (step env) d =
        (d.readState env state bytes).1 := by
  induction bytes generalizing d state with
  | nil => exact absurd rfl hne
  | cons x rest ih =>
    rcases h.completes_or_goesOn x with hc | hg
    · rw [readState_of_completes hc]
      exact ⟨Nat.one_pos, step_of_ok hok hs x⟩
    · obtain ⟨d', state', hd', hok', hs', hv', hread⟩ :
          ∃ d' state', (d.readState env state [x]).1 = d' ∧ _ := readState_of_goesOn hok hg
      rw [hread]
      refine ⟨Nat.succ_pos _, ?_⟩
      rw [take_succ_cons, foldl_cons, step_of_ok hok hs, hd']
      cases rest with
      | nil =>
        rw [hread] at hd'
        rw [take_nil, foldl_nil]
        exact hd'.symm
      | cons y rest => exact (ih hok' hs' hv' (cons_ne_nil _ _)).2

/-- An invariant of receiving a byte under which the decoder is in a valid state. -/
structure Invariant (env : Environment) (I : Decoding → Prop) : Prop where
  valid : ∀ d, I d → d.ok → ∃ state, d.state = some state ∧ state.Valid
  step : ∀ d x, I d → I (d.step env x)

variable {I : Decoding → Prop}

theorem Invariant.foldl (hI : Invariant env I) (h : I d)
    (bytes : List Byte) : I (bytes.foldl (Decoding.step env) d) := by
  induction bytes generalizing d with
  | nil => exact h
  | cons x bytes ih => exact ih (hI.step d x h)

/-- **A chunk is decoded byte by byte.** -/
theorem Invariant.readLoop (hI : Invariant env I) {fuel : ℕ}
    (h : I d) {bytes : List Byte} (hf : bytes.length < fuel) :
    d.readLoop env fuel bytes = some (bytes.foldl (Decoding.step env) d) := by
  induction fuel generalizing d bytes with
  | zero => exact absurd hf (Nat.not_lt_zero _)
  | succ fuel ih =>
    rw [Decoding.readLoop]
    by_cases hok : d.ok
    · by_cases hne : bytes = []
      · rw [if_neg (fun hc => hc.2 hne), hne, foldl_nil]
      · obtain ⟨state, hs, hv⟩ := hI.valid d h hok
        obtain ⟨hpos, hfold⟩ : 0 < (d.readState env state bytes).2 ∧ _ :=
          readState_eq_foldl hok hs hv hne
        rw [if_pos ⟨hok, hne⟩, hs]
        dsimp only
        rw [← hfold, ih (hI.foldl h _) ?_, ← foldl_append, take_append_drop]
        have := length_pos_iff.2 hne
        rw [length_drop]
        omega
    · rw [if_neg (fun hc => hok hc.1), foldl_step_of_not_ok hok]

end Decoding

end AsyncStreamingDecoder
