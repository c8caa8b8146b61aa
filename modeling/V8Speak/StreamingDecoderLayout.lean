import V8Speak.StreamingDecoderChunks

/-!
# The layout of a module and the calls for it

A module is a header and a sequence of sections. A section announces the length of its
payload. The payload of the code section is a sequence of functions, of which it announces
the number; a function announces the length of its body. `Read` says this of the bytes
of a module up to a position between two of these parts, together with the calls of the
processor for them: each payload and each body is what its announcement says, at the place
where it is in the module, and in this order.

The calls of a decoder belong to a prefix of the bytes that it has received. The decoder
holds the bytes after this prefix in its state, as the state `At` which it is. This is
the invariant of receiving a byte, and by the decoding of chunks byte by byte it holds for
any chunks.
-/

open List Option

namespace AsyncStreamingDecoder

open DecodingState (kModuleHeaderSize)
open Decoding (kCodeSectionCode)

/-! ## The layout -/

/-- The bytes are the encoding of a number, without anything behind it. -/
def Announces (bytes : List Byte) (n : ℕ) : Prop :=
  ∃ v, consumeU32v bytes = some (v, bytes.length) ∧ v.toNat = n

/-- The places between two parts of a module. -/
inductive Position where
  | start
  | sections
  /-- In the code section, with this number of functions and of bytes to come. -/
  | functions (remaining payload : ℕ)

/-- **What has been read of a module**, up to a position, and the calls for it. -/
inductive Read : List Byte → Position → List Call → Prop
  | start : Read [] .start []
  | moduleHeader {bytes} (hlen : bytes.length = kModuleHeaderSize) :
    Read bytes .sections [.processModuleHeader bytes 0]
  | knownSection {before calls code lengthBytes payload} (h : Read before .sections calls)
      (hcode : code ≠ kCodeSectionCode) (hlen : Announces lengthBytes payload.length) :
    Read (before ++ (code :: lengthBytes ++ payload)) .sections
      (calls ++ [.processSection code payload
        (BitVec.ofNat 32 (before.length + (1 + lengthBytes.length)))])
  | codeSection {before calls lengthBytes length countBytes count}
      (h : Read before .sections calls) (hlen : Announces lengthBytes length)
      (hcount : Announces countBytes count) (hle : countBytes.length ≤ length) :
    Read (before ++ (kCodeSectionCode :: lengthBytes ++ countBytes))
      (.functions count (length - countBytes.length))
      (calls ++ [.processCodeSectionHeader (BitVec.ofNat 32 count)
        (BitVec.ofNat 32 (before.length + (1 + lengthBytes.length) + countBytes.length) - 1)
        (BitVec.ofNat 32 (before.length + (1 + lengthBytes.length))) (BitVec.ofNat 32 length)])
  | function {before calls remaining payload lengthBytes body}
      (h : Read before (.functions (remaining + 1) payload) calls)
      (hlen : Announces lengthBytes body.length)
      (hle : lengthBytes.length + body.length ≤ payload) :
    Read (before ++ (lengthBytes ++ body))
      (.functions remaining (payload - (lengthBytes.length + body.length)))
      (calls ++ [.processFunctionBody body (BitVec.ofNat 32 (before.length + lengthBytes.length))])
  | codeSectionEnd {before calls} (h : Read before (.functions 0 0) calls) :
    Read before .sections calls

/-! ## The invariant -/

/-- **Where a state is**: the bytes behind the last position are in its buffers. -/
inductive At (received : List Byte) (calls : List Call) : DecodingState → Prop
  | decodeModuleHeader (hcalls : calls = []) (hlt : received.length < kModuleHeaderSize) :
    At received calls (.decodeModuleHeader received.length received)
  | decodeSectionID {id} (h : Read received .sections calls) :
    At received calls (.decodeSectionID 0 id (BitVec.ofNat 32 received.length))
  | decodeSectionLength {before id number} (h : Read before .sections calls)
      (hr : received = before ++ id :: number.byteBuffer) (hn : number.Pending) :
    At received calls (.decodeSectionLength number id (BitVec.ofNat 32 before.length))
  | decodeSectionPayload {before code lengthBytes length payload}
      (h : Read before .sections calls) (hcode : code ≠ kCodeSectionCode)
      (hlen : Announces lengthBytes length) (hr : received = before ++ (code :: lengthBytes ++ payload))
      (hlt : payload.length < length) :
    At received calls (.decodeSectionPayload payload.length
      ⟨BitVec.ofNat 32 before.length, code :: lengthBytes ++ payload,
        1 + lengthBytes.length + length, 1 + lengthBytes.length⟩)
  | decodeNumberOfFunctions {before lengthBytes length number} (h : Read before .sections calls)
      (hlen : Announces lengthBytes length)
      (hr : received = before ++ (kCodeSectionCode :: lengthBytes ++ number.byteBuffer))
      (hn : number.Pending) :
    At received calls (.decodeNumberOfFunctions number
      ⟨BitVec.ofNat 32 before.length, kCodeSectionCode :: lengthBytes,
        1 + lengthBytes.length + length, 1 + lengthBytes.length⟩)
  | decodeFunctionLength {before remaining payload number buffer}
      (h : Read before (.functions (remaining + 1) payload) calls)
      (hr : received = before ++ number.byteBuffer) (hn : number.Pending)
      (hbuffer : buffer.length = buffer.bytes.length + payload) :
    At received calls (.decodeFunctionLength number buffer buffer.bytes.length remaining)
  | decodeFunctionBody {before remaining payload lengthBytes length body buffer written}
      (h : Read before (.functions (remaining + 1) payload) calls)
      (hlen : Announces lengthBytes length) (hr : received = before ++ (lengthBytes ++ body))
      (hlt : body.length < length) (hle : lengthBytes.length + length ≤ payload)
      (hbytes : buffer.bytes = written ++ body)
      (hbuffer : buffer.length + lengthBytes.length = written.length + payload) :
    At received calls (.decodeFunctionBody body.length buffer written.length length remaining
      (BitVec.ofNat 32 (before.length + lengthBytes.length)))

variable {calls : List Call} {received : List Byte}

theorem At.valid {state : DecodingState} (h : At received calls state) : state.Valid := by
  cases h with
  | decodeModuleHeader hcalls hlt => exact ⟨rfl, hlt⟩
  | decodeSectionID h => rfl
  | decodeSectionLength h hr hn => exact hn
  | @decodeSectionPayload before code lengthBytes length payload h hcode hlen hr hlt =>
    refine ⟨?_, ?_⟩
    · rw [length_append, length_cons, Nat.add_comm 1]
    · show payload.length < 1 + lengthBytes.length + length - (1 + lengthBytes.length)
      rwa [Nat.add_sub_cancel_left]
  | @decodeNumberOfFunctions before lengthBytes length number h hlen hr hn =>
    exact ⟨hn, Nat.add_comm lengthBytes.length 1⟩
  | decodeFunctionLength h hr hn hbuffer => exact ⟨hn, rfl⟩
  | decodeFunctionBody h hlen hr hlt hle hbytes hbuffer =>
    exact ⟨by rw [hbytes, length_append], hlt⟩

/-- What the calls belong to is at the beginning of what has been received. -/
theorem At.exists_read {state : DecodingState}
    (h : At received calls state) : ∃ read position, read <+: received ∧
    Read read position calls := by
  cases h with
  | decodeModuleHeader hcalls hlt => exact ⟨[], .start, nil_prefix, hcalls ▸ .start⟩
  | decodeSectionID h => exact ⟨_, _, prefix_refl _, h⟩
  | decodeSectionLength h hr hn => exact ⟨_, _, hr ▸ prefix_append _ _, h⟩
  | decodeSectionPayload h hcode hlen hr hlt => exact ⟨_, _, hr ▸ prefix_append _ _, h⟩
  | decodeNumberOfFunctions h hlen hr hn => exact ⟨_, _, hr ▸ prefix_append _ _, h⟩
  | decodeFunctionLength h hr hn hbuffer => exact ⟨_, _, hr ▸ prefix_append _ _, h⟩
  | decodeFunctionBody h hlen hr hlt hle hbytes hbuffer => grind

/-- **What is true of a decoder that has received some bytes.** -/
structure Reached (received : List Byte) (d : Decoding) : Prop where
  read : ∃ read position, read <+: received ∧ Read read position d.calls
  moduleOffset : d.ok → d.moduleOffset = BitVec.ofNat 32 received.length
  state : d.ok → ∃ state, d.state = some state ∧ At received d.calls state

theorem Reached.init : Reached [] {} where
  read := ⟨[], .start, prefix_refl _, .start⟩
  moduleOffset _ := rfl
  state _ := ⟨_, rfl, .decodeModuleHeader rfl (by decide)⟩

namespace Decoding

variable {env : Environment} {d : Decoding} {received : List Byte} {position : Position}

variable {state : DecodingState}

variable (hoff : d.moduleOffset = BitVec.ofNat 32 received.length)
include hoff

omit hoff

/-! ## Receiving a byte -/

/-- The decoder after the next byte, before its state is left. -/
def advance (d : Decoding) : Decoding :=
  { d with moduleOffset := d.moduleOffset + BitVec.ofNat 32 1 }

variable {before : List Byte}

variable {id : Byte}
include hoff

variable {bytes : List Byte}

variable {buffer : SectionBuffer}

omit hoff

end Decoding

/-! ## Streams -/

namespace WireBytes

/-- The bytes are kept in order, and the last vector is empty only if there are none. -/
structure Holds (wireBytes : WireBytes) (bytes : List Byte) : Prop where
  flatten : (wireBytes.front ++ [wireBytes.back]).flatten = bytes
  back : wireBytes.back = [] → wireBytes.front = []

variable {wireBytes : WireBytes} {bytes : List Byte}

theorem Holds.insert (h : wireBytes.Holds bytes)
    (grow : ℕ → ℕ → ℕ) (more : List Byte) : (wireBytes.insert grow more).Holds (bytes ++ more) := by
  rw [WireBytes.insert]
  split
  · refine ⟨?_, fun hnil => ?_⟩
    · rw [flatten_append, flatten_append, flatten_singleton, flatten_singleton,
        append_assoc, append_assoc, take_append_drop, ← append_assoc, ← h.flatten,
        flatten_append, flatten_singleton]
    · rw [drop_eq_nil_iff] at hnil
      omega
  · next hle =>
    rw [take_of_length_le (Nat.le_of_not_lt hle)]
    refine ⟨?_, fun hnil => h.back (append_eq_nil_iff.1 hnil).1⟩
    rw [flatten_append, flatten_singleton, ← append_assoc, ← h.flatten,
      flatten_append, flatten_singleton]

theorem Holds.copy (h : wireBytes.Holds bytes) : wireBytes.copy = bytes := by
  rw [WireBytes.copy]
  split
  · exact h.flatten
  · next hnil =>
    have hback := Decidable.not_not.1 hnil
    rw [← h.flatten, hback, h.back hback]
    rfl

end WireBytes

variable {env : Environment} {grow : ℕ → ℕ → ℕ}

/-- Whether the stream has failed when it ends. -/
def failed (d : Decoding) : Bool :=
  !(d.ok && (d.state.any DecodingState.isFinishingAllowed))

end AsyncStreamingDecoder
