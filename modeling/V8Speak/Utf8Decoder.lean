import Mathlib

/-!
# Incremental decoding of UTF-8

`Utf8DfaDecoder::Decode` (`third_party/utf8-decoder/utf8-decoder.h`) and
`Utf8::ValueOfIncremental` (`strings/unicode-inl.h`): a byte is given to a
state machine, which says that a character is incomplete, or gives a
character, or gives the replacement character U+FFFD. In the last case the
byte may have to be given again, since it did not belong to the ill-formed
sequence in front of it.

What this computes is the decoding of the Encoding Standard with replacement
characters (`Reference.decode`), which is stated here on its own, with the
bounds on continuation bytes that the standard uses in place of tables. The
table-driven machine takes the same steps (`valueOfIncremental_reference`),
so that it decodes to the same characters (`decodeFrom_eq_reference`).

A decoder between two bytes carries the proof that its state and its bits
belong together (`Utf8State.InRange`): from them alone one sees how many bytes
of a sequence have been read (`Utf8Decoder.seen`), and hence what the sequence
can still become (`Utf8Decoder.valueOfIncremental_step`).
-/

open List hiding next

/-- `Utf8DfaDecoder::State`. -/
inductive Utf8State
  | kReject
  | kAccept
  | kTwoByte
  | kThreeByte
  | kThreeByteLowMid
  | kFourByte
  | kFourByteLow
  | kThreeByteHigh
  | kFourByteMidHigh
  deriving DecidableEq, Repr

namespace Utf8State

/-- The table `transitions`: the type of a byte. -/
def transition (byte : ℕ) : ℕ :=
  if byte ≤ 0x7F then 0
  else if byte ≤ 0x8F then 1
  else if byte ≤ 0x9F then 2
  else if byte ≤ 0xBF then 3
  else if byte ≤ 0xC1 then 9
  else if byte ≤ 0xDF then 4
  else if byte = 0xE0 then 10
  else if byte ≤ 0xEC then 5
  else if byte = 0xED then 6
  else if byte ≤ 0xEF then 5
  else if byte = 0xF0 then 11
  else if byte ≤ 0xF3 then 7
  else if byte = 0xF4 then 8
  else 9

/-- The table `states`: a row for each state, with an entry for each type. -/
def states : Utf8State → List Utf8State
  | .kReject => replicate 12 .kReject
  | .kAccept => [.kAccept, .kReject, .kReject, .kReject, .kTwoByte, .kThreeByte,
      .kThreeByteLowMid, .kFourByte, .kFourByteLow, .kReject, .kThreeByteHigh, .kFourByteMidHigh]
  | .kTwoByte => .kReject :: replicate 3 .kAccept ++ replicate 8 .kReject
  | .kThreeByte => .kReject :: replicate 3 .kTwoByte ++ replicate 8 .kReject
  | .kThreeByteLowMid => .kReject :: replicate 2 .kTwoByte ++ replicate 9 .kReject
  | .kFourByte => .kReject :: replicate 3 .kThreeByte ++ replicate 8 .kReject
  | .kFourByteLow => .kReject :: replicate 1 .kThreeByte ++ replicate 10 .kReject
  | .kThreeByteHigh => replicate 3 .kReject ++ .kTwoByte :: replicate 8 .kReject
  | .kFourByteMidHigh =>
    replicate 2 .kReject ++ replicate 2 .kThreeByte ++ replicate 8 .kReject

/-- The state after a byte. -/
def next (s : Utf8State) (byte : ℕ) : Utf8State := s.states.getD (transition byte) .kReject

/-- The bits after a byte. -/
def shift (buffer byte : ℕ) : ℕ :=
  (buffer <<< 6) ||| (byte &&& (0x7F >>> (transition byte >>> 1)))

/-! ### The tables as bounds -/

/-- The least continuation byte. -/
def lower : Utf8State → ℕ
  | .kThreeByteHigh => 0xA0
  | .kFourByteMidHigh => 0x90
  | _ => 0x80

/-- The greatest continuation byte. -/
def upper : Utf8State → ℕ
  | .kThreeByteLowMid => 0x9F
  | .kFourByteLow => 0x8F
  | _ => 0xBF

/-- The continuation bytes that are missing. -/
def missing : Utf8State → ℕ
  | .kReject | .kAccept => 0
  | .kTwoByte => 1
  | .kThreeByte | .kThreeByteLowMid | .kThreeByteHigh => 2
  | .kFourByte | .kFourByteLow | .kFourByteMidHigh => 3

variable {s : Utf8State}

theorem missing_ne_zero (haccept : s ≠ .kAccept) (hreject : s ≠ .kReject) : s.missing ≠ 0 := by
  cases s with
  | kReject => exact absurd rfl hreject
  | kAccept => exact absurd rfl haccept
  | _ => exact Nat.succ_ne_zero _

/-- The state after a continuation byte. -/
def continued : Utf8State → Utf8State
  | .kReject => .kReject
  | .kAccept => .kReject
  | .kTwoByte => .kAccept
  | .kThreeByte | .kThreeByteLowMid | .kThreeByteHigh => .kTwoByte
  | .kFourByte | .kFourByteLow | .kFourByteMidHigh => .kThreeByte

/-- Only the first continuation byte has bounds of its own. -/
theorem continued_spec (h : s.missing ≠ 0) (hone : s.missing ≠ 1) :
    s.continued.lower = 0x80 ∧ s.continued.upper = 0xBF ∧ s.continued.missing + 1 = s.missing := by
  cases s with
  | kReject | kAccept => exact absurd rfl h
  | kTwoByte => exact absurd rfl hone
  | _ => decide

/-- Within a sequence the tables say: a byte between the bounds continues it. -/
theorem next_of_missing (hs : s.missing ≠ 0) : ∀ byte < 256,
      s.next byte = if s.lower ≤ byte ∧ byte ≤ s.upper then s.continued else .kReject := by
  cases s with
  | kReject | kAccept => exact absurd rfl hs
  | _ => decide +kernel

/-- The state that a byte leads to from the start of a character. -/
def lead (byte : ℕ) : Utf8State :=
  if byte ≤ 0x7F then .kAccept
  else if byte ≤ 0xC1 then .kReject
  else if byte ≤ 0xDF then .kTwoByte
  else if byte = 0xE0 then .kThreeByteHigh
  else if byte = 0xED then .kThreeByteLowMid
  else if byte ≤ 0xEF then .kThreeByte
  else if byte = 0xF0 then .kFourByteMidHigh
  else if byte ≤ 0xF3 then .kFourByte
  else if byte = 0xF4 then .kFourByteLow
  else .kReject

theorem next_kAccept : ∀ byte < 256, kAccept.next byte = lead byte := by decide +kernel

theorem le_lower (s : Utf8State) : 0x80 ≤ s.lower := by
  cases s <;> decide

theorem upper_le (s : Utf8State) : s.upper ≤ 0xBF := by
  cases s <;> decide

/-- A continuation byte gives six bits. -/
theorem shift_eq (bits : ℕ) {byte : ℕ} (h : 0x80 ≤ byte) (h' : byte ≤ 0xBF) :
    shift bits byte = (bits <<< 6) ||| (byte &&& 0x3F) := by
  have hmask : ∀ b ≤ 0xBF, 0x80 ≤ b → b &&& (0x7F >>> (transition b >>> 1)) = b &&& 0x3F := by
    decide +kernel
  rw [shift, hmask byte h' h]

theorem shift_continuation {bits byte : ℕ} (h : 0x80 ≤ byte) (h' : byte ≤ 0xBF) :
    shift bits byte = bits * 64 + (byte - 0x80) := by
  have hmask : byte &&& 0x3F = byte % 2 ^ 6 := Nat.and_two_pow_sub_one_eq_mod byte 6
  rw [shift_eq bits h h', hmask, ← Nat.shiftLeft_add_eq_or_of_lt (Nat.mod_lt _ (by decide)),
    Nat.shiftLeft_eq]
  omega

/-- The bits that a state can have. -/
def InRange : Utf8State → ℕ → Prop
  | .kReject, _ => False
  | .kAccept, bits => bits = 0
  | .kTwoByte, bits => 0x02 ≤ bits ∧ bits ≤ 0x43FF
  | .kThreeByte, bits => 0x01 ≤ bits ∧ bits ≤ 0x10F
  | .kThreeByteLowMid, bits => bits = 0x0D
  | .kFourByte, bits => 0x01 ≤ bits ∧ bits ≤ 0x03
  | .kFourByteLow, bits => bits = 0x04
  | .kThreeByteHigh, bits => bits = 0
  | .kFourByteMidHigh, bits => bits = 0

instance : (s : Utf8State) → (bits : ℕ) → Decidable (s.InRange bits)
  | .kReject, _ => inferInstanceAs (Decidable False)
  | .kAccept, bits => inferInstanceAs (Decidable (bits = 0))
  | .kTwoByte, bits => inferInstanceAs (Decidable (0x02 ≤ bits ∧ bits ≤ 0x43FF))
  | .kThreeByte, bits => inferInstanceAs (Decidable (0x01 ≤ bits ∧ bits ≤ 0x10F))
  | .kThreeByteLowMid, bits => inferInstanceAs (Decidable (bits = 0x0D))
  | .kFourByte, bits => inferInstanceAs (Decidable (0x01 ≤ bits ∧ bits ≤ 0x03))
  | .kFourByteLow, bits => inferInstanceAs (Decidable (bits = 0x04))
  | .kThreeByteHigh, bits => inferInstanceAs (Decidable (bits = 0))
  | .kFourByteMidHigh, bits => inferInstanceAs (Decidable (bits = 0))

/-- The bytes of a sequence that have been read, by the bits they gave. -/
def seen : Utf8State → ℕ → ℕ
  | .kReject, _ => 0
  | .kAccept, _ => 0
  | .kTwoByte, bits => if bits < 0x20 then 1 else if bits < 0x400 then 2 else 3
  | .kThreeByte, bits => if bits < 0x10 then 1 else 2
  | _, _ => 1

end Utf8State

/-! ## The decoder -/

/-- A decoder between two bytes: the state and the bits of an incomplete
character. -/
structure Utf8Decoder where
  state : Utf8State
  incompleteChar : ℕ
  inRange : state.InRange incompleteChar

namespace Utf8Decoder

open Utf8State

/-- Two decoders with the same state and bits are the same. -/
@[ext]
theorem ext {d d' : Utf8Decoder} (hs : d.state = d'.state)
    (hc : d.incompleteChar = d'.incompleteChar) : d = d' := by
  cases d
  cases d'
  cases hs
  cases hc
  rfl

instance : DecidableEq Utf8Decoder := fun d d' =>
  decidable_of_iff (d.state = d'.state ∧ d.incompleteChar = d'.incompleteChar)
    ⟨fun h => ext h.1 h.2, fun h => h ▸ ⟨rfl, rfl⟩⟩

/-- The decoder at the start of a character. -/
def start : Utf8Decoder := ⟨.kAccept, 0, rfl⟩

variable (d : Utf8Decoder)

/-- The bytes of an incomplete character that have been read. -/
def seen : ℕ := d.state.seen d.incompleteChar

theorem eq_start {d : Utf8Decoder} (h : d.state = .kAccept) : d = start := by
  obtain ⟨s, bits, hrange⟩ := d
  cases h
  exact ext rfl hrange

theorem missing_of_ne_start {d : Utf8Decoder} (h : d ≠ start) : d.state.missing ≠ 0 := by
  refine missing_ne_zero (fun hs => h (eq_start hs)) fun hs => ?_
  have hrange := d.inRange
  rw [hs] at hrange
  exact hrange

/-- A lead byte leaves bits that belong to its state. -/
theorem inRange_lead : ∀ byte < 256, (lead byte).missing ≠ 0 →
    (lead byte).InRange (shift 0 byte) ∧ (lead byte).seen (shift 0 byte) = 1 := by
  decide +kernel

/-- A continuation byte leaves bits that belong to its state. -/
theorem inRange_continued {byte : ℕ} (hlower : d.state.lower ≤ byte)
    (hupper : byte ≤ d.state.upper) (h : d.state.continued.missing ≠ 0) :
    d.state.continued.InRange (shift d.incompleteChar byte) ∧
      d.state.continued.seen (shift d.incompleteChar byte) = d.seen + 1 := by
  obtain ⟨s, bits, hrange⟩ := d
  rw [shift_continuation ((le_lower s).trans hlower) (hupper.trans (upper_le s))]
  cases s with
  | kReject | kAccept | kTwoByte => exact absurd rfl h
  | _ =>
    simp only [lower, upper, InRange] at hlower hupper hrange
    simp only [continued, InRange, seen, Utf8State.seen]
    refine ⟨by omega, ?_⟩
    split_ifs <;> omega

/-- After a byte that neither ends a character nor is refused, the state and
the bits belong together. -/
theorem inRange_next {byte : ℕ} (hbyte : byte < 256)
    (haccept : d.state.next byte ≠ .kAccept) (hreject : d.state.next byte ≠ .kReject) :
    (d.state.next byte).InRange (shift d.incompleteChar byte) := by
  by_cases hd : d = start
  · subst hd
    rw [show start.state = .kAccept from rfl, next_kAccept byte hbyte] at *
    exact (inRange_lead byte hbyte (missing_ne_zero haccept hreject)).1
  · have hnext := next_of_missing (missing_of_ne_start hd) byte hbyte
    split at hnext
    · next hbounds =>
      rw [hnext] at haccept hreject ⊢
      exact (inRange_continued d hbounds.1 hbounds.2 (missing_ne_zero haccept hreject)).1
    · exact absurd hnext hreject

/-- `kBadChar`. -/
def badChar : ℕ := 0xFFFD

/-- `Utf8::ValueOfIncremental`: the character, or `none` for `kIncomplete`;
whether the cursor has moved past the byte; and the decoder after it. -/
def valueOfIncremental (next : UInt8) : Option ℕ × Bool × Utf8Decoder :=
  if next ≤ 0x7F ∧ d.state = .kAccept then (some next.toNat, true, d)
  else
    if haccept : d.state.next next.toNat = .kAccept then
      (some (shift d.incompleteChar next.toNat), true, start)
    else if hreject : d.state.next next.toNat = .kReject then
      -- within a sequence the byte is given again
      (some badChar, d.state = .kAccept, start)
    else
      (none, true, ⟨d.state.next next.toNat, shift d.incompleteChar next.toNat,
        inRange_next d next.toNat_lt haccept hreject⟩)

/-- `Utf8::ValueOfIncrementalFinish`: the character at the end of the data. -/
def valueOfIncrementalFinish : Option ℕ :=
  if d.state = .kAccept then none else some badChar

end Utf8Decoder

namespace Utf8Decoder

open Utf8State

/-! ### What a byte can do -/

/-- The characters of sequences of a length, given how many bytes have been
seen before the last. -/
def InLength (seen t : ℕ) : Prop :=
  (seen = 1 ∧ 0x80 ≤ t ∧ t ≤ 0x7FF) ∨ (seen = 2 ∧ 0x800 ≤ t ∧ t ≤ 0xFFFF) ∨
    (seen = 3 ∧ 0x10000 ≤ t ∧ t ≤ 0x10FFFF)

/-- What a byte can do. -/
inductive Step : Utf8Decoder → Option ℕ × Bool × Utf8Decoder → Prop
  /-- At the start: a character of one byte, or a byte that starts none. -/
  | single {t : ℕ} : t ≤ 0x7F ∨ t = badChar → Step start (some t, true, start)
  /-- At the start: a lead byte. -/
  | lead {d' : Utf8Decoder} : d' ≠ start → d'.seen = 1 → Step start (none, true, d')
  /-- Within a character: a byte that does not continue it. -/
  | broken {d : Utf8Decoder} : d ≠ start → Step d (some badChar, false, start)
  /-- Within a character: its last byte. -/
  | complete {d : Utf8Decoder} {t : ℕ} : d ≠ start → InLength d.seen t → Step d (some t, true, start)
  /-- Within a character: another byte. -/
  | continued {d d' : Utf8Decoder} : d ≠ start → d' ≠ start → d'.seen = d.seen + 1 →
    Step d (none, true, d')

theorem step_start (byte : UInt8) : Step start (start.valueOfIncremental byte) := by
  have hbyte := byte.toNat_lt
  have hle : byte ≤ 0x7F ↔ byte.toNat ≤ 0x7F := UInt8.le_iff_toNat_le
  unfold valueOfIncremental
  split
  · next h => exact .single (.inl (hle.mp h.1))
  · next h =>
    have hnext : start.state.next byte.toNat = Utf8State.lead byte.toNat := next_kAccept _ hbyte
    have hnot : ¬ byte.toNat ≤ 0x7F := fun h' => h ⟨hle.mpr h', rfl⟩
    split
    · next haccept =>
      -- only the bytes below 0x80 are characters by themselves
      rw [hnext, Utf8State.lead, if_neg hnot] at haccept
      split_ifs at haccept
    · split
      · exact .single (.inr rfl)
      · next haccept hreject =>
        have hmissing : (Utf8State.lead byte.toNat).missing ≠ 0 :=
          missing_ne_zero (hnext ▸ haccept) (hnext ▸ hreject)
        refine .lead (fun h => haccept (congrArg Utf8Decoder.state h)) ?_
        show (start.state.next byte.toNat).seen (shift 0 byte.toNat) = 1
        rw [hnext]
        exact (inRange_lead _ hbyte hmissing).2

theorem one_le_seen {d : Utf8Decoder} (hd : d ≠ start) : 1 ≤ d.seen := by
  have hmissing := missing_of_ne_start hd
  rw [seen]
  cases hs : d.state with
  | kReject | kAccept => exact absurd (by rw [hs]; rfl) hmissing
  | kTwoByte | kThreeByte =>
    rw [Utf8State.seen]
    split_ifs <;> omega
  | _ => exact le_rfl

section Within

variable {d : Utf8Decoder} (hd : d ≠ start) {byte : UInt8}
include hd

theorem valueOfIncremental_of_ne_start : d.valueOfIncremental byte =
      if haccept : d.state.next byte.toNat = .kAccept then
        (some (shift d.incompleteChar byte.toNat), true, start)
      else if hreject : d.state.next byte.toNat = .kReject then (some badChar, false, start)
      else
        (none, true, ⟨d.state.next byte.toNat, shift d.incompleteChar byte.toNat,
          inRange_next d byte.toNat_lt haccept hreject⟩) := by
  have hstate : d.state ≠ .kAccept := fun h => hd (eq_start h)
  rw [valueOfIncremental, if_neg fun h => hstate h.2, decide_eq_false hstate]

/-- A byte outside the bounds. -/
theorem valueOfIncremental_broken (h : ¬ (d.state.lower ≤ byte.toNat ∧ byte.toNat ≤ d.state.upper)) :
    d.valueOfIncremental byte = (some badChar, false, start) := by
  have hnext := next_of_missing (missing_of_ne_start hd) _ byte.toNat_lt
  rw [if_neg h] at hnext
  rw [valueOfIncremental_of_ne_start hd, dif_neg (by rw [hnext]; decide), dif_pos hnext]

/-- The last byte of a character. -/
theorem valueOfIncremental_complete (h : d.state.lower ≤ byte.toNat ∧ byte.toNat ≤ d.state.upper)
    (hone : d.state.missing = 1) :
    d.valueOfIncremental byte = (some (shift d.incompleteChar byte.toNat), true, start) := by
  have hnext := next_of_missing (missing_of_ne_start hd) _ byte.toNat_lt
  rw [if_pos h] at hnext
  have hcontinued : d.state.continued = .kAccept := by
    cases hs : d.state <;> simp_all [missing, Utf8State.continued]
  rw [valueOfIncremental_of_ne_start hd, dif_pos (hnext.trans hcontinued)]

/-- A byte of a character that is not the last. -/
theorem valueOfIncremental_continued
    (h : d.state.lower ≤ byte.toNat ∧ byte.toNat ≤ d.state.upper) (hone : d.state.missing ≠ 1) :
    ∃ d' ≠ start, d.valueOfIncremental byte = (none, true, d') ∧ d'.state = d.state.continued ∧
      d'.incompleteChar = shift d.incompleteChar byte.toNat ∧ d'.seen = d.seen + 1 := by
  have hmissing := missing_of_ne_start hd
  have hnext := next_of_missing hmissing _ byte.toNat_lt
  rw [if_pos h] at hnext
  have hcontinued : d.state.continued ≠ .kAccept ∧ d.state.continued ≠ .kReject := by
    cases hs : d.state <;> simp_all [missing, Utf8State.continued]
  rw [← hnext] at hcontinued
  refine ⟨_, fun heq => hcontinued.1 (congrArg Utf8Decoder.state heq),
    by rw [valueOfIncremental_of_ne_start hd, dif_neg hcontinued.1, dif_neg hcontinued.2],
    hnext, rfl, ?_⟩
  show (d.state.next byte.toNat).seen (shift d.incompleteChar byte.toNat) = d.seen + 1
  rw [hnext] at hcontinued ⊢
  exact (inRange_continued d h.1 h.2 (missing_ne_zero hcontinued.1 hcontinued.2)).2

theorem step_of_ne_start : Step d (d.valueOfIncremental byte) := by
  by_cases h : d.state.lower ≤ byte.toNat ∧ byte.toNat ≤ d.state.upper
  · by_cases hone : d.state.missing = 1
    · rw [valueOfIncremental_complete hd h hone]
      refine .complete hd ?_
      obtain ⟨s, bits, hrange⟩ := d
      cases s <;> simp only [missing, OfNat.ofNat_ne_one, zero_ne_one] at hone
      simp only [lower, upper] at h
      simp only [InRange] at hrange
      show InLength (Utf8State.seen .kTwoByte bits) (shift bits byte.toNat)
      rw [shift_continuation h.1 h.2, InLength, Utf8State.seen]
      split_ifs <;> omega
    · obtain ⟨d', hd', hvalue, -, -, hseen⟩ := valueOfIncremental_continued hd h hone
      rw [hvalue]
      exact .continued hd hd' hseen
  · rw [valueOfIncremental_broken hd h]
    exact .broken hd

end Within

/-- **What a byte can do**, by whether it comes at the start of a character. -/
theorem valueOfIncremental_step (d : Utf8Decoder) (byte : UInt8) :
    Step d (d.valueOfIncremental byte) := by
  by_cases hd : d = start
  · rw [hd]
    exact step_start byte
  · exact step_of_ne_start hd

/-! ### Decoding a text -/

/-- A byte, given again where it has to be: the characters and the decoder. -/
def feed (d : Utf8Decoder) (byte : UInt8) : List ℕ × Utf8Decoder :=
  match d.valueOfIncremental byte with
  | (t, true, d') => (t.toList, d')
  | (t, false, d') =>
    (t.toList ++ (d'.valueOfIncremental byte).1.toList, (d'.valueOfIncremental byte).2.2)

/-- The characters of the rest of a text. -/
def decodeFrom : Utf8Decoder → List UInt8 → List ℕ
  | d, [] => d.valueOfIncrementalFinish.toList
  | d, byte :: text => (d.feed byte).1 ++ decodeFrom (d.feed byte).2 text

theorem valueOfIncremental_start_consumes (byte : UInt8) :
    (start.valueOfIncremental byte).2.1 = true := by
  have hstep := step_start byte
  generalize start.valueOfIncremental byte = r at hstep ⊢
  cases hstep with
  | broken h => exact absurd rfl h
  | single | lead | complete | continued => rfl

/-- Decoding by the steps of `ValueOfIncremental`. -/
theorem decodeFrom_cons (d : Utf8Decoder) (byte : UInt8) (text : List UInt8) :
    d.decodeFrom (byte :: text) = (d.valueOfIncremental byte).1.toList ++
      (d.valueOfIncremental byte).2.2.decodeFrom
        (if (d.valueOfIncremental byte).2.1 then text else byte :: text) := by
  have hstart := valueOfIncremental_start_consumes byte
  have hstep := valueOfIncremental_step d byte
  rw [decodeFrom, feed]
  generalize hr : d.valueOfIncremental byte = r at hstep
  cases hstep with
  | broken h =>
    simp only [Bool.false_eq_true, if_false]
    rw [decodeFrom, feed]
    generalize start.valueOfIncremental byte = r' at hstart
    obtain ⟨t, consumed, d'⟩ := r'
    obtain rfl : consumed = true := hstart
    simp
  | single | lead | complete | continued => rfl

end Utf8Decoder

/-! ## The Encoding Standard -/

/-- The variables of the UTF-8 decoder of the Encoding Standard. -/
structure Reference where
  codePoint : ℕ
  bytesSeen : ℕ
  bytesNeeded : ℕ
  lowerBoundary : ℕ
  upperBoundary : ℕ
  deriving DecidableEq

namespace Reference

/-- The variables at the start. -/
def initial : Reference := ⟨0, 0, 0, 0x80, 0xBF⟩

/-- The handler of the standard: a code point, or U+FFFD for an error, or
nothing; whether the byte is put back; and the variables after it. -/
def handle (s : Reference) (byte : ℕ) : Option ℕ × Bool × Reference :=
  if s.bytesNeeded = 0 then
    if byte ≤ 0x7F then (some byte, false, s)
    else if 0xC2 ≤ byte ∧ byte ≤ 0xDF then
      (none, false, { s with bytesNeeded := 1, codePoint := byte &&& 0x1F })
    else if 0xE0 ≤ byte ∧ byte ≤ 0xEF then
      (none, false, { s with
        lowerBoundary := if byte = 0xE0 then 0xA0 else s.lowerBoundary
        upperBoundary := if byte = 0xED then 0x9F else s.upperBoundary
        bytesNeeded := 2
        codePoint := byte &&& 0x0F })
    else if 0xF0 ≤ byte ∧ byte ≤ 0xF4 then
      (none, false, { s with
        lowerBoundary := if byte = 0xF0 then 0x90 else s.lowerBoundary
        upperBoundary := if byte = 0xF4 then 0x8F else s.upperBoundary
        bytesNeeded := 3
        codePoint := byte &&& 0x07 })
    else (some 0xFFFD, false, s)
  else if s.lowerBoundary ≤ byte ∧ byte ≤ s.upperBoundary then
    let codePoint := (s.codePoint <<< 6) ||| (byte &&& 0x3F)
    if s.bytesSeen + 1 = s.bytesNeeded then (some codePoint, false, initial)
    else
      (none, false, { s with
        lowerBoundary := 0x80
        upperBoundary := 0xBF
        codePoint := codePoint
        bytesSeen := s.bytesSeen + 1 })
  else (some 0xFFFD, true, initial)

/-- A byte, given again if it is put back. -/
def feed (s : Reference) (byte : UInt8) : List ℕ × Reference :=
  match s.handle byte.toNat with
  | (t, false, s') => (t.toList, s')
  | (t, true, s') => (t.toList ++ (s'.handle byte.toNat).1.toList, (s'.handle byte.toNat).2.2)

/-- The code points of the rest of a text; at its end an incomplete sequence
is an error. -/
def decodeFrom : Reference → List UInt8 → List ℕ
  | s, [] => if s.bytesNeeded = 0 then [] else [0xFFFD]
  | s, byte :: text => (s.feed byte).1 ++ decodeFrom (s.feed byte).2 text

/-- The code points of a text. -/
def decode (text : List UInt8) : List ℕ := initial.decodeFrom text

end Reference

namespace Utf8Decoder

open Utf8State

/-- The variables of the standard that belong to a decoder. -/
def reference (d : Utf8Decoder) : Reference where
  codePoint := d.incompleteChar
  bytesSeen := d.seen - 1
  bytesNeeded := d.seen - 1 + d.state.missing
  lowerBoundary := d.state.lower
  upperBoundary := d.state.upper

/-- What `ValueOfIncremental` returns, in the terms of the standard. -/
def asHandled (r : Option ℕ × Bool × Utf8Decoder) : Option ℕ × Bool × Reference :=
  (r.1, !r.2.1, r.2.2.reference)

theorem handle_start (byte : UInt8) :
    start.reference.handle byte.toNat = asHandled (start.valueOfIncremental byte) := by
  have hall : ∀ n < 256, start.reference.handle (UInt8.ofNat n).toNat
      = asHandled (start.valueOfIncremental (UInt8.ofNat n)) := by
    decide +kernel
  have h := hall byte.toNat byte.toNat_lt
  rwa [UInt8.ofNat_toNat] at h

theorem handle_of_ne_start {d : Utf8Decoder} (hd : d ≠ start) (byte : UInt8) :
    d.reference.handle byte.toNat = asHandled (d.valueOfIncremental byte) := by
  have hmissing := missing_of_ne_start hd
  have hseen := one_le_seen hd
  have hneeded : d.reference.bytesNeeded ≠ 0 :=
    fun h => hmissing (Nat.eq_zero_of_add_eq_zero_left h)
  rw [Reference.handle, if_neg hneeded]
  show (if d.state.lower ≤ byte.toNat ∧ byte.toNat ≤ d.state.upper then
    if d.seen - 1 + 1 = d.seen - 1 + d.state.missing then _ else _ else _) = _
  by_cases h : d.state.lower ≤ byte.toNat ∧ byte.toNat ≤ d.state.upper
  · have hbits := shift_eq d.incompleteChar
      ((le_lower d.state).trans h.1) (h.2.trans (upper_le d.state))
    rw [if_pos h]
    by_cases hone : d.state.missing = 1
    · rw [valueOfIncremental_complete hd h hone, if_pos (by rw [hone]), hbits]
      rfl
    · obtain ⟨d', -, hvalue, hstate', hbits', hseen'⟩ := valueOfIncremental_continued hd h hone
      obtain ⟨hlower, hupper, hcontinued⟩ := continued_spec hmissing hone
      have hneeded' : d.seen - 1 + d.state.missing = d.seen + d.state.continued.missing := by omega
      have hreference : d'.reference = ⟨(d.incompleteChar <<< 6) ||| (byte.toNat &&& 0x3F), d.seen,
          d.seen - 1 + d.state.missing, 0x80, 0xBF⟩ := by
        rw [reference, hstate', hbits', hseen', hlower, hupper, hbits, Nat.add_sub_cancel, hneeded']
      rw [hvalue, if_neg (by omega)]
      show (none, false, Reference.mk _ (d.seen - 1 + 1) _ _ _) = (none, false, d'.reference)
      rw [hreference, Nat.sub_add_cancel hseen]
      rfl
  · rw [if_neg h, valueOfIncremental_broken hd h]
    rfl

/-- **The tables take the steps of the standard.** -/
theorem valueOfIncremental_reference (d : Utf8Decoder) (byte : UInt8) :
    d.reference.handle byte.toNat = asHandled (d.valueOfIncremental byte) := by
  by_cases hd : d = start
  · rw [hd]
    exact handle_start byte
  · exact handle_of_ne_start hd byte

theorem feed_reference (d : Utf8Decoder) (byte : UInt8) :
    (d.feed byte).1 = (d.reference.feed byte).1 ∧
      (d.feed byte).2.reference = (d.reference.feed byte).2 := by
  rw [feed, Reference.feed, valueOfIncremental_reference]
  obtain ⟨t, consumed, d'⟩ := d.valueOfIncremental byte
  cases consumed with
  | true => exact ⟨rfl, rfl⟩
  | false =>
    simp only [asHandled, Bool.not_false, valueOfIncremental_reference]
    exact ⟨trivial, trivial⟩

/-- **The decoder decodes as the standard does.** -/
theorem decodeFrom_eq_reference (d : Utf8Decoder) (text : List UInt8) :
    d.decodeFrom text = d.reference.decodeFrom text := by
  induction text generalizing d with
  | nil =>
    rw [decodeFrom, Reference.decodeFrom, valueOfIncrementalFinish]
    by_cases hd : d = start
    · rw [hd]
      rfl
    · have hneeded : d.reference.bytesNeeded ≠ 0 :=
        fun h => missing_of_ne_start hd (Nat.eq_zero_of_add_eq_zero_left h)
      rw [if_neg fun h => hd (eq_start h), if_neg hneeded]
      rfl
  | cons byte text ih =>
    obtain ⟨hchars, hnext⟩ := feed_reference d byte
    rw [decodeFrom, Reference.decodeFrom, ih, hchars, hnext]

end Utf8Decoder
