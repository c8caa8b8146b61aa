import Mathlib

/-!
# Streaming decoding of WebAssembly modules

`AsyncStreamingDecoder` receives the bytes of a module in chunks. It is a state machine.
Each state has a buffer of a known size; bytes are put into the buffer until it is full,
and then the state is left. The states that read a number in LEB128 encoding have
a buffer for the longest encoding. They are left as soon as the bytes in the buffer begin
with a number, even if more bytes have been put there: those are read again by the next
state. What the decoder finds is passed on to a processor, whose answers decide
whether it goes on.

The calls of the processor are recorded, except for `OnFinishedChunk`. The answers of the
processor may depend on the arguments and on the calls before. A buffer that is not
initialized is the list of bytes that have been written to it. A section buffer is part of
the state that fills it. `none` stands for a null pointer that is used, and for running
out of `fuel`. How the capacity of a vector grows is left open. There are no compiled
module bytes, so nothing is deserialized.
-/

namespace AsyncStreamingDecoder

abbrev Byte := BitVec 8

/-! ## LEB128 -/

def kMaxVarInt32Size : ℕ := 5

/-- `read_leb_tail`, with the number of bytes that may come. The value has 32 bits, of
which four are in the last byte. -/
def readLebTail : ℕ → List Byte → ℕ → BitVec 32 → Option (BitVec 32 × ℕ)
  | 0, _, _, _ => none
  | _ + 1, [], _, _ => none
  | n + 1, b :: bytes, byteIndex, intermediateResult =>
    let intermediateResult :=
      intermediateResult ||| ((b &&& 0x7f).setWidth 32 <<< (byteIndex * 7))
    let isLastByte := n = 0
    if ¬isLastByte ∧ b &&& 0x80 ≠ 0 then readLebTail n bytes (byteIndex + 1) intermediateResult
    else if b &&& 0x80 ≠ 0 then none
    else if isLastByte ∧ b &&& 0xf0 ≠ 0 then none
    else some (intermediateResult, byteIndex + 1)

/-- `consume_u32v` on a buffer: the value and the number of bytes, or an error. -/
def consumeU32v : List Byte → Option (BitVec 32 × ℕ)
  | [] => readLebTail kMaxVarInt32Size [] 0 0
  | b :: bytes =>
    if b &&& 0x80 = 0 then some (b.setWidth 32, 1)
    else readLebTail kMaxVarInt32Size (b :: bytes) 0 0

/-! ## States -/

/-- The content of a section, with its id and its length. -/
structure SectionBuffer where
  moduleOffset : BitVec 32
  /-- The bytes that have been written. -/
  bytes : List Byte
  length : ℕ
  payloadOffset : ℕ

namespace SectionBuffer

def new (moduleOffset : BitVec 32) (id : Byte) (payloadLength : ℕ) (lengthBytes : List Byte) :
    SectionBuffer :=
  ⟨moduleOffset, id :: lengthBytes, 1 + lengthBytes.length + payloadLength, 1 + lengthBytes.length⟩

variable (buffer : SectionBuffer)

def sectionCode : Byte := buffer.bytes.headD 0

def payload : List Byte := buffer.bytes.drop buffer.payloadOffset

def payloadLength : ℕ := buffer.length - buffer.payloadOffset

/-- `memcpy` into the buffer. -/
def write (position : ℕ) (data : List Byte) : SectionBuffer :=
  { buffer with
    bytes := buffer.bytes.take position ++ data ++ buffer.bytes.drop (position + data.length) }

end SectionBuffer

/-- `DecodeVarInt32`. -/
structure VarInt32 where
  byteBuffer : List Byte := []
  offset : ℕ := 0
  value : ℕ := 0
  bytesConsumed : ℕ := 0

inductive DecodingState where
  | decodeModuleHeader (offset : ℕ) (byteBuffer : List Byte)
  | decodeSectionID (offset : ℕ) (id : Byte) (moduleOffset : BitVec 32)
  | decodeSectionLength (number : VarInt32) (sectionId : Byte) (moduleOffset : BitVec 32)
  | decodeSectionPayload (offset : ℕ) (sectionBuffer : SectionBuffer)
  | decodeNumberOfFunctions (number : VarInt32) (sectionBuffer : SectionBuffer)
  | decodeFunctionLength (number : VarInt32) (sectionBuffer : SectionBuffer)
      (bufferOffset numRemainingFunctions : ℕ)
  | decodeFunctionBody (offset : ℕ) (sectionBuffer : SectionBuffer)
      (bufferOffset functionBodyLength numRemainingFunctions : ℕ) (moduleOffset : BitVec 32)

namespace DecodingState

def kModuleHeaderSize : ℕ := 8

/-- `buffer().size()`. -/
def bufferSize : DecodingState → ℕ
  | decodeModuleHeader _ _ => kModuleHeaderSize
  | decodeSectionID _ _ _ => 1
  | decodeSectionLength _ _ _ => kMaxVarInt32Size
  | decodeSectionPayload _ sectionBuffer => sectionBuffer.payloadLength
  | decodeNumberOfFunctions _ _ => kMaxVarInt32Size
  | decodeFunctionLength _ _ _ _ => kMaxVarInt32Size
  | decodeFunctionBody _ _ _ functionBodyLength _ _ => functionBodyLength

def offset : DecodingState → ℕ
  | decodeModuleHeader offset _ => offset
  | decodeSectionID offset _ _ => offset
  | decodeSectionLength number _ _ => number.offset
  | decodeSectionPayload offset _ => offset
  | decodeNumberOfFunctions number _ => number.offset
  | decodeFunctionLength number _ _ _ => number.offset
  | decodeFunctionBody offset _ _ _ _ _ => offset

def isFinishingAllowed : DecodingState → Bool
  | decodeSectionID _ _ _ => true
  | _ => false

end DecodingState

/-! ## Reading bytes -/

/-- `DecodeVarInt32::ReadBytes`: the number of bytes that were read, and whether it has
failed. -/
def VarInt32.readBytes (number : VarInt32) (bytes : List Byte) : VarInt32 × ℕ × Bool :=
  let remaining := kMaxVarInt32Size - number.offset
  let newBytes := min bytes.length remaining
  let buf := number.byteBuffer.take number.offset ++ bytes.take newBytes
  match consumeU32v buf with
  | none =>
    -- only an error if all bytes are there
    ({ number with byteBuffer := buf, offset := number.offset + newBytes, value := 0 }, newBytes,
      newBytes = remaining)
  | some (value, bytesConsumed) =>
    (⟨buf, kMaxVarInt32Size, value.toNat, bytesConsumed⟩, bytesConsumed - number.offset, false)

namespace DecodingState

/-- A state that reads a number, after reading. -/
def withNumber (read : VarInt32 × ℕ × Bool) (state : VarInt32 → DecodingState) :
    DecodingState × ℕ × Bool := (state read.1, read.2)

def readBytes (state : DecodingState) (bytes : List Byte) : DecodingState × ℕ × Bool :=
  let numBytes := min bytes.length (state.bufferSize - state.offset)
  match state with
  | decodeModuleHeader offset byteBuffer =>
    (decodeModuleHeader (offset + numBytes) (byteBuffer.take offset ++ bytes.take numBytes),
      numBytes, false)
  | decodeSectionID offset id moduleOffset =>
    (decodeSectionID (offset + numBytes) ((bytes.take numBytes).headD id) moduleOffset, numBytes,
      false)
  | decodeSectionLength number sectionId moduleOffset =>
    withNumber (number.readBytes bytes) (decodeSectionLength · sectionId moduleOffset)
  | decodeSectionPayload offset sectionBuffer =>
    (decodeSectionPayload (offset + numBytes)
      (sectionBuffer.write (sectionBuffer.payloadOffset + offset) (bytes.take numBytes)),
      numBytes, false)
  | decodeNumberOfFunctions number sectionBuffer =>
    withNumber (number.readBytes bytes) (decodeNumberOfFunctions · sectionBuffer)
  | decodeFunctionLength number sectionBuffer bufferOffset numRemainingFunctions =>
    withNumber (number.readBytes bytes)
      (decodeFunctionLength · sectionBuffer bufferOffset numRemainingFunctions)
  | decodeFunctionBody offset sectionBuffer bufferOffset functionBodyLength numRemainingFunctions
      moduleOffset =>
    (decodeFunctionBody (offset + numBytes)
      (sectionBuffer.write (bufferOffset + offset) (bytes.take numBytes)) bufferOffset
      functionBodyLength numRemainingFunctions moduleOffset, numBytes, false)

end DecodingState

/-! ## The processor -/

/-- The calls of a `StreamingProcessor`. The storage of a code section is not an argument
here, the other ones are. -/
inductive Call where
  | processModuleHeader (bytes : List Byte) (offset : BitVec 32)
  | processSection (sectionCode : Byte) (bytes : List Byte) (offset : BitVec 32)
  | processCodeSectionHeader (numFunctions offset codeSectionStart codeSectionLength : BitVec 32)
  | processFunctionBody (bytes : List Byte) (offset : BitVec 32)
  deriving DecidableEq

/-- What is outside of the decoder: flags, and what the processor answers after some
calls. -/
structure Environment where
  maxModuleSize : ℕ
  maxWasmFunctions : ℕ
  answer : List Call → Call → Bool

/-- The decoder without the bytes it keeps. -/
structure Decoding where
  /-- There is a processor that has not failed. -/
  ok : Bool := true
  state : Option DecodingState := some (.decodeModuleHeader 0 [])
  codeSectionProcessed : Bool := false
  moduleOffset : BitVec 32 := 0
  calls : List Call := []

namespace Decoding

variable (env : Environment) (d : Decoding)

/-- `Fail`, and no state. -/
def toErrorState : Decoding := { d with ok := false, state := none }

/-- A call of the processor, which is followed by `Fail` if it answers so. -/
def process (call : Call) : Decoding :=
  if d.ok then { d with calls := d.calls ++ [call], ok := env.answer d.calls call } else d

def processSection (buffer : SectionBuffer) : Decoding :=
  d.process env (.processSection buffer.sectionCode buffer.payload
    (buffer.moduleOffset + BitVec.ofNat 32 buffer.payloadOffset))

def goTo (state : DecodingState) : Decoding := { d with state := some state }

/-- Goes to a state, or to none if the processor has failed. -/
def continueWith (state : DecodingState) : Decoding :=
  if d.ok then d.goTo state else { d with state := none }

/-! ## Leaving a state -/

def kCodeSectionCode : Byte := 10

def kLastKnownModuleSection : Byte := 14

def kV8MaxWasmFunctionSize : ℕ := 7654321

/-- `DecodeSectionID::Next`. -/
def nextAfterSectionID (id : Byte) (moduleOffset : BitVec 32) : Decoding :=
  if ¬id ≤ kLastKnownModuleSection then d.toErrorState
  else if id = kCodeSectionCode then
    if d.codeSectionProcessed then d.toErrorState
    else { d with codeSectionProcessed := true }.goTo (.decodeSectionLength {} id moduleOffset)
  else d.goTo (.decodeSectionLength {} id moduleOffset)

/-- `DecodeSectionLength::NextWithValue`. -/
def nextAfterSectionLength (number : VarInt32) (sectionId : Byte)
    (moduleOffset : BitVec 32) : Decoding :=
  let buf := SectionBuffer.new moduleOffset sectionId number.value
    (number.byteBuffer.take number.bytesConsumed)
  if number.value = 0 then
    if sectionId = kCodeSectionCode then d.toErrorState
    else (d.processSection env buf).continueWith (.decodeSectionID 0 0 d.moduleOffset)
  else if sectionId = kCodeSectionCode then d.goTo (.decodeNumberOfFunctions {} buf)
  else d.goTo (.decodeSectionPayload 0 buf)

/-- `DecodeNumberOfFunctions::NextWithValue`. -/
def nextAfterNumberOfFunctions (number : VarInt32) (sectionBuffer : SectionBuffer) : Decoding :=
  if sectionBuffer.payloadLength < number.bytesConsumed then d.toErrorState
  else
    let buf := sectionBuffer.write sectionBuffer.payloadOffset
      (number.byteBuffer.take number.bytesConsumed)
    let d := d.process env (.processCodeSectionHeader (BitVec.ofNat 32 number.value)
      (d.moduleOffset - 1) (BitVec.ofNat 32 (buf.moduleOffset.toNat + buf.payloadOffset))
      (BitVec.ofNat 32 buf.payloadLength))
    if number.value = 0 then
      if d.ok ∧ buf.payloadLength ≠ number.bytesConsumed then d.toErrorState
      else d.continueWith (.decodeSectionID 0 0 d.moduleOffset)
    else
      d.continueWith (.decodeFunctionLength {} buf (buf.payloadOffset + number.bytesConsumed)
        (number.value - 1))

/-- `DecodeFunctionLength::NextWithValue`. -/
def nextAfterFunctionLength (number : VarInt32) (sectionBuffer : SectionBuffer)
    (bufferOffset numRemainingFunctions : ℕ) : Decoding :=
  if sectionBuffer.length - bufferOffset < number.bytesConsumed then d.toErrorState
  else
    let buf := sectionBuffer.write bufferOffset (number.byteBuffer.take number.bytesConsumed)
    if number.value = 0 then d.toErrorState
    else if bufferOffset + number.bytesConsumed + number.value > buf.length then d.toErrorState
    else
      d.goTo (.decodeFunctionBody 0 buf (bufferOffset + number.bytesConsumed) number.value
        numRemainingFunctions d.moduleOffset)

/-- `DecodeFunctionBody::Next`. -/
def nextAfterFunctionBody (sectionBuffer : SectionBuffer)
    (bufferOffset functionBodyLength numRemainingFunctions : ℕ) (moduleOffset : BitVec 32) :
    Decoding :=
  let d := d.process env (.processFunctionBody
    ((sectionBuffer.bytes.drop bufferOffset).take functionBodyLength) moduleOffset)
  let endOffset := bufferOffset + functionBodyLength
  if numRemainingFunctions > 0 then
    d.continueWith (.decodeFunctionLength {} sectionBuffer endOffset (numRemainingFunctions - 1))
  else if d.ok ∧ endOffset ≠ sectionBuffer.length then d.toErrorState
  else d.continueWith (.decodeSectionID 0 0 d.moduleOffset)

/-- `DecodeVarInt32::Next`. -/
def nextWithValue (number : VarInt32) (maxValue : ℕ) (next : Decoding → Decoding) : Decoding :=
  if ¬d.ok then { d with state := none }
  else if number.value > maxValue then d.toErrorState
  else next d

def next : DecodingState → Decoding
  | .decodeModuleHeader _ byteBuffer =>
    (d.process env (.processModuleHeader byteBuffer 0)).continueWith
      (.decodeSectionID 0 0 d.moduleOffset)
  | .decodeSectionID _ id moduleOffset => d.nextAfterSectionID id moduleOffset
  | .decodeSectionLength number sectionId moduleOffset =>
    d.nextWithValue number env.maxModuleSize
      (nextAfterSectionLength env · number sectionId moduleOffset)
  | .decodeSectionPayload _ sectionBuffer =>
    (d.processSection env sectionBuffer).continueWith (.decodeSectionID 0 0 d.moduleOffset)
  | .decodeNumberOfFunctions number sectionBuffer =>
    d.nextWithValue number env.maxWasmFunctions (nextAfterNumberOfFunctions env · number sectionBuffer)
  | .decodeFunctionLength number sectionBuffer bufferOffset numRemainingFunctions =>
    d.nextWithValue number kV8MaxWasmFunctionSize
      (nextAfterFunctionLength · number sectionBuffer bufferOffset numRemainingFunctions)
  | .decodeFunctionBody _ sectionBuffer bufferOffset functionBodyLength numRemainingFunctions
      moduleOffset =>
    d.nextAfterFunctionBody env sectionBuffer bufferOffset functionBodyLength numRemainingFunctions
      moduleOffset

/-! ## Chunks -/

/-- The body of the loop of `OnBytesReceived`: the number of bytes that were read. -/
def readState (state : DecodingState) (bytes : List Byte) : Decoding × ℕ :=
  let (state, numBytes, failed) := state.readBytes bytes
  let d := { d with
    ok := d.ok && !failed, moduleOffset := d.moduleOffset + BitVec.ofNat 32 numBytes }
  (if state.offset = state.bufferSize then d.next env state else d.goTo state, numBytes)

/-- The loop of `OnBytesReceived`. -/
def readLoop : ℕ → Decoding → List Byte → Option Decoding
  | 0, _, _ => none
  | fuel + 1, d, bytes =>
    if d.ok ∧ bytes ≠ [] then
      match d.state with
      | none => none
      | some state =>
        let (d, numBytes) := d.readState env state bytes
        readLoop fuel d (bytes.drop numBytes)
    else some d

end Decoding

/-- `full_wire_bytes_`: vectors of bytes, of which the last one has a capacity. -/
structure WireBytes where
  front : List (List Byte) := []
  back : List Byte := []
  capacity : ℕ := 0

namespace WireBytes

/-- The last vector is filled first. `grow` says how the capacity of a vector grows, for the
old one and the size that is needed. -/
def insert (grow : ℕ → ℕ → ℕ) (wireBytes : WireBytes) (bytes : List Byte) : WireBytes :=
  let remainingCapacity := max wireBytes.capacity (16 * 1024) - wireBytes.back.length
  let bytesForExistingVector := min remainingCapacity bytes.length
  let back := wireBytes.back ++ bytes.take bytesForExistingVector
  let capacity :=
    if back.length ≤ wireBytes.capacity then wireBytes.capacity
    else max back.length (grow wireBytes.capacity back.length)
  if bytes.length > bytesForExistingVector then
    let newCapacity := max (bytes.length - bytesForExistingVector) (2 * capacity)
    { front := wireBytes.front ++ [back], back := bytes.drop bytesForExistingVector,
      capacity := max newCapacity (grow 0 newCapacity) }
  else { wireBytes with back, capacity }

/-- The copy that `Finish` makes. -/
def copy (wireBytes : WireBytes) : List Byte :=
  if wireBytes.back ≠ [] then (wireBytes.front ++ [wireBytes.back]).flatten else []

end WireBytes

end AsyncStreamingDecoder

structure AsyncStreamingDecoder where
  decoding : AsyncStreamingDecoder.Decoding := {}
  fullWireBytes : AsyncStreamingDecoder.WireBytes := {}

namespace AsyncStreamingDecoder

variable (env : Environment) (grow : ℕ → ℕ → ℕ)

/-- `Finish`: the arguments of `OnFinishedStream`, the bytes and whether decoding has
failed. -/
def finish (d : AsyncStreamingDecoder) : Option (List Byte × Bool) :=
  if d.decoding.ok then
    match d.decoding.state with
    | none => none
    | some state => some (d.fullWireBytes.copy, !state.isFinishingAllowed)
  else some (d.fullWireBytes.copy, true)

end AsyncStreamingDecoder
