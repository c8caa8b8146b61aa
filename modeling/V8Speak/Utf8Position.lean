import V8Speak.Utf8Stream

/-!
# Positions in a UTF-8 text

What the stream has to deliver is the *text* of the whole data: the code units
of its characters, without one byte order mark in front (`textOf`). A
`StreamPosition` of the stream is right if the decoder it carries, run on the
bytes behind it, gives the rest of the text from the code unit it counts to
(`Sound`). A step of the decoder leads from a sound position to a sound one
and passes the code units in between (`Sound.step`).

The positions the stream can be at are few: for each number of bytes the
position when these bytes have just been consumed (`posAt`), and the one where
a byte has been refused and is going to be given again. `IsAt` says that a
position is one of these. The loops of the stream go from one to another and
pass a part of the text (`skipLoop_spec`, `firstChar_spec`, `fillLoop_spec`).
-/

open List Nat Option

/-! ## The text -/

/-- Characters without a byte order mark at the front. -/
def dropBom : List ℕ → List ℕ
  | [] => []
  | c :: chars => if c = kUtf8Bom then chars else c :: chars

/-- **The text of some data**: what the Encoding Standard decodes it to, with
one byte order mark removed, in UTF-16. -/
def textOf (data : List UInt8) : List ℕ := (dropBom (Reference.decode data)).flatMap utf16

theorem dropBom_append {chars : List ℕ} (h : chars ≠ []) (more : List ℕ) :
    dropBom (chars ++ more) = dropBom chars ++ more := by
  obtain ⟨c, chars, rfl⟩ := exists_cons_of_ne_nil h
  show (if c = kUtf8Bom then chars ++ more else c :: (chars ++ more))
    = (if c = kUtf8Bom then chars else c :: chars) ++ more
  split <;> rfl

/-- A byte order mark is dropped at the front only. -/
theorem dropBom_append_isPrefix (chars more : List ℕ) :
    dropBom chars <+: dropBom (chars ++ more) := by
  by_cases h : chars = []
  · rw [h]
    exact nil_prefix
  · rw [dropBom_append h]
    exact prefix_append _ _

theorem decode_eq (data : List UInt8) : Reference.decode data = Utf8Decoder.start.decodeFrom data :=
  (Utf8Decoder.decodeFrom_eq_reference .start data).symm

theorem utf16_length_pos (t : ℕ) : 0 < (utf16 t).length := by
  unfold utf16
  split <;> exact succ_pos _

theorem getElem?_of_drop_eq {data : List UInt8} {k : ℕ} {byte : UInt8} {rest : List UInt8}
    (h : data.drop k = byte :: rest) : data[k]? = some byte := by
  have hhead := congrArg List.head? h
  rwa [head?_drop] at hhead

theorem drop_eq_of_getElem? {data : List UInt8} {k : ℕ} {byte : UInt8} (h : data[k]? = some byte) :
    data.drop k = byte :: data.drop (k + 1) := by
  obtain ⟨hlt, rfl⟩ := List.getElem?_eq_some_iff.mp h
  exact drop_eq_getElem_cons hlt

/-! ## Steps -/

namespace Utf8Decoder

variable {d : Utf8Decoder} {byte : UInt8}

/-- A byte order mark has three bytes. -/
theorem seen_of_bom (h : (d.valueOfIncremental byte).1 = some kUtf8Bom) :
    d.seen = 2 ∧ (d.valueOfIncremental byte).2.1 = true := by
  have hstep := valueOfIncremental_step d byte
  generalize d.valueOfIncremental byte = r at h hstep ⊢
  cases hstep with
  | single ht =>
    cases h
    exact absurd ht (by decide)
  | broken => cases h
  | complete hd ht =>
    cases h
    obtain ⟨-, -, h⟩ | ⟨h, -⟩ | ⟨-, h, -⟩ := ht
    · exact absurd h (by decide)
    · exact ⟨h, rfl⟩
    · exact absurd h (by decide)
  | lead | continued => cases h

/-- A byte that completes no character is one more of an incomplete one. -/
theorem seen_of_incomplete (h : (d.valueOfIncremental byte).1 = none) :
    (d.valueOfIncremental byte).2.1 = true ∧ (d.valueOfIncremental byte).2.2.seen = d.seen + 1 ∧
      (d.valueOfIncremental byte).2.2 ≠ start := by
  have hstep := valueOfIncremental_step d byte
  generalize d.valueOfIncremental byte = r at h hstep ⊢
  cases hstep with
  | lead hd hseen => exact ⟨rfl, hseen, hd⟩
  | continued _ hd hseen => exact ⟨rfl, hseen, hd⟩
  | single | broken | complete => cases h

/-- After a character the decoder is at the start of the next one. -/
theorem eq_start_of_complete {t : ℕ} (h : (d.valueOfIncremental byte).1 = some t) :
    (d.valueOfIncremental byte).2.2 = start := by
  have hstep := valueOfIncremental_step d byte
  generalize d.valueOfIncremental byte = r at h hstep ⊢
  cases hstep with
  | single | broken | complete => rfl
  | lead | continued => cases h

/-- Instead of a refused byte there is a replacement character, and the byte is
given again at the start of the next one. -/
theorem valueOfIncremental_refused (h : (d.valueOfIncremental byte).2.1 = false) :
    d.valueOfIncremental byte = (some badChar, false, start) := by
  have hstep := valueOfIncremental_step d byte
  generalize d.valueOfIncremental byte = r at h hstep ⊢
  cases hstep with
  | broken => rfl
  | single | lead | complete | continued => cases h

end Utf8Decoder


namespace StreamPosition

open Utf8Decoder Utf8Stream

variable (pos : StreamPosition)

/-- The very start, where a byte order mark is not counted. -/
def AtFront : Prop := pos.bytes < 3 ∧ pos.chars = 0

instance : Decidable pos.AtFront := inferInstanceAs (Decidable (_ ∧ _))

/-- The code units of a step: those of its character, if that is not a byte
order mark at the front. -/
def units (t : Option ℕ) : List ℕ :=
  if pos.AtFront ∧ t = some kUtf8Bom then [] else (t.map utf16).getD []

/-- The position after a step of the decoder. -/
def step (byte : UInt8) : StreamPosition where
  bytes := pos.bytes + if (pos.decoder.valueOfIncremental byte).2.1 then 1 else 0
  chars := pos.chars + (pos.units (pos.decoder.valueOfIncremental byte).1).length
  decoder := (pos.decoder.valueOfIncremental byte).2.2

/-- What a byte gives. -/
abbrev decoded (byte : UInt8) := pos.decoder.valueOfIncremental byte

/-- **A sound position**: some characters are behind it, the decoder gives the
others, and the code units of the former are counted. -/
def Sound (data : List UInt8) (pos : StreamPosition) : Prop :=
  ∃ chars, Reference.decode data = chars ++ pos.decoder.decodeFrom (data.drop pos.bytes) ∧
    pos.chars = ((dropBom chars).flatMap utf16).length ∧
    (chars = [] → pos.bytes = pos.decoder.seen) ∧
    (chars.head? = some kUtf8Bom → 3 ≤ pos.bytes)

variable {data : List UInt8} {pos : StreamPosition}

theorem sound_start (data : List UInt8) : Sound data ⟨0, 0, .start⟩ :=
  ⟨[], decode_eq data, rfl, fun _ => rfl, nofun⟩

variable {chars : List ℕ}

/-- At the front no character is behind the position. -/
theorem eq_nil_of_atFront (hcount : pos.chars = ((dropBom chars).flatMap utf16).length)
    (hbom : chars.head? = some kUtf8Bom → 3 ≤ pos.bytes) (hfront : pos.AtFront) : chars = [] := by
  cases chars with
  | nil => rfl
  | cons c chars =>
    by_cases hc : c = kUtf8Bom
    · have hthree := hbom (by rw [hc]; rfl)
      exact absurd hfront.1 (Nat.not_lt.mpr hthree)
    · rw [dropBom, if_neg hc, hfront.2] at hcount
      have hunit : 0 < (utf16 c).length := utf16_length_pos c
      rw [flatMap_cons, length_append] at hcount
      omega

theorem Sound.seen_of_atFront (h : Sound data pos) (hfront : pos.AtFront) :
    pos.bytes = pos.decoder.seen := by
  obtain ⟨chars, -, hcount, hseen, hbom⟩ := h
  exact hseen (eq_nil_of_atFront hcount hbom hfront)

/-- The code units of the characters behind a position, after a step. -/
theorem units_append (byte : UInt8) (hcount : pos.chars = ((dropBom chars).flatMap utf16).length)
    (hseen : chars = [] → pos.bytes = pos.decoder.seen)
    (hbom : chars.head? = some kUtf8Bom → 3 ≤ pos.bytes) :
    (dropBom (chars ++ (pos.decoded byte).1.toList)).flatMap utf16
      = (dropBom chars).flatMap utf16 ++ pos.units (pos.decoded byte).1 := by
  cases ht : (pos.decoded byte).1 with
  | none => simp [units]
  | some t =>
    by_cases hchars : chars = []
    · subst hchars
      by_cases hc : t = kUtf8Bom
      · subst hc
        have hfront : pos.AtFront := by
          refine ⟨?_, hcount⟩
          rw [hseen rfl, (seen_of_bom ht).1]
          decide
        rw [units, if_pos ⟨hfront, rfl⟩]
        rfl
      · rw [units, if_neg fun h => hc (Option.some.inj h.2)]
        show (dropBom [t]).flatMap utf16 = utf16 t
        rw [dropBom, if_neg hc]
        exact append_nil _
    · have hfront : ¬ pos.AtFront := fun h => hchars (eq_nil_of_atFront hcount hbom h)
      rw [dropBom_append hchars, flatMap_append, units, if_neg fun h => hfront h.1]
      exact congrArg _ (append_nil _)

variable {byte : UInt8}

/-- **A step of the decoder** leads from a sound position to a sound one, past
the code units of the step. -/
theorem Sound.step (h : Sound data pos) (hbyte : data[pos.bytes]? = some byte) :
    Sound data (pos.step byte) ∧ (textOf data).drop pos.chars = pos.units (pos.decoded byte).1 ++
        (textOf data).drop (pos.step byte).chars := by
  obtain ⟨chars, hdecode, hcount, hseen, hbom⟩ := h
  have hunits := units_append byte hcount hseen hbom
  have hdrop : data.drop (pos.step byte).bytes
      = if (pos.decoded byte).2.1 then data.drop (pos.bytes + 1)
        else byte :: data.drop (pos.bytes + 1) := by
    show data.drop (pos.bytes + if _ then 1 else 0) = _
    split
    · rfl
    · exact drop_eq_of_getElem? hbyte
  have hdecode' : Reference.decode data = (chars ++ (pos.decoded byte).1.toList)
      ++ (pos.step byte).decoder.decodeFrom (data.drop (pos.step byte).bytes) := by
    rw [hdecode, drop_eq_of_getElem? hbyte, decodeFrom_cons, hdrop, append_assoc]
    rfl
  refine ⟨⟨_, hdecode', ?_, ?_, ?_⟩, ?_⟩
  · rw [hunits, length_append, ← hcount]
    rfl
  · intro hnil
    obtain ⟨hchars, ht⟩ := append_eq_nil_iff.mp hnil
    obtain ⟨hconsumed, hseen', -⟩ := seen_of_incomplete (toList_eq_nil_iff.mp ht)
    show pos.bytes + (if _ then 1 else 0) = (pos.decoded byte).2.2.seen
    rw [hconsumed, hseen', hseen hchars]
    rfl
  · intro hhead
    show 3 ≤ pos.bytes + if _ then 1 else 0
    cases chars with
    | nil =>
      have hvalue : (pos.decoded byte).1 = some kUtf8Bom := by simpa using hhead
      obtain ⟨htwo, hconsumed⟩ := seen_of_bom hvalue
      rw [hconsumed, hseen rfl, htwo]
      decide
    | cons c chars => exact (hbom hhead).trans (Nat.le_add_right _ _)
  · obtain ⟨more, hmore⟩ := dropBom_append_isPrefix
      (chars ++ (pos.decoded byte).1.toList)
      ((pos.step byte).decoder.decodeFrom (data.drop (pos.step byte).bytes))
    have htext : textOf data = (dropBom chars).flatMap utf16 ++
        (pos.units (pos.decoded byte).1 ++ more.flatMap utf16) := by
      rw [textOf, hdecode', ← hmore, flatMap_append, hunits, append_assoc]
    have hchars : (pos.step byte).chars = ((dropBom chars).flatMap utf16).length +
        (pos.units (pos.decoded byte).1).length := by
      rw [← hcount]
      rfl
    rw [htext, hchars, hcount, drop_left, ← drop_drop, drop_left, drop_left]

/-! ## The positions of a stream -/

/-- A byte, given again where it has to be. -/
def feed (pos : StreamPosition) (byte : UInt8) : StreamPosition :=
  if (pos.decoder.valueOfIncremental byte).2.1 then pos.step byte else (pos.step byte).step byte

/-- The position when a number of bytes have just been consumed. -/
def posAt (data : List UInt8) : ℕ → StreamPosition
  | 0 => ⟨0, 0, .start⟩
  | k + 1 =>
    match data[k]? with
    | some byte => (posAt data k).feed byte
    | none => posAt data k

/-- A refused byte gives a replacement character. -/
theorem step_of_refused (h : (pos.decoded byte).2.1 = false) :
    pos.step byte = ⟨pos.bytes, pos.chars + 1, .start⟩ := by
  have hunits : pos.units (some Utf8Decoder.badChar) = [Utf8Decoder.badChar] :=
    if_neg fun h => absurd (Option.some.inj h.2) (by decide)
  rw [step, valueOfIncremental_refused h, hunits]
  rfl

/-- A refused byte is consumed when it is given again. -/
theorem step_step_bytes (h : (pos.decoded byte).2.1 = false) :
    ((pos.step byte).decoder.valueOfIncremental byte).2.1 = true := by
  rw [step_of_refused h]
  exact valueOfIncremental_start_consumes byte

theorem step_bytes_of_true (h : (pos.decoded byte).2.1 = true) :
    (pos.step byte).bytes = pos.bytes + 1 := by
  rw [step, h]
  rfl

theorem step_bytes_of_false (h : (pos.decoded byte).2.1 = false) :
    (pos.step byte).bytes = pos.bytes := by
  rw [step_of_refused h]

theorem feed_bytes (byte : UInt8) : (pos.feed byte).bytes = pos.bytes + 1 := by
  rw [feed]
  cases h : (pos.decoded byte).2.1 with
  | true => exact step_bytes_of_true h
  | false =>
    rw [if_neg (by decide), step_bytes_of_true (step_step_bytes h), step_bytes_of_false h]

variable {k : ℕ}

theorem posAt_succ (h : data[k]? = some byte) : posAt data (k + 1) = (posAt data k).feed byte := by
  rw [posAt, h]

theorem posAt_bytes (h : k ≤ data.length) : (posAt data k).bytes = k := by
  induction k with
  | zero => rfl
  | succ k ih =>
    rw [posAt_succ (getElem?_eq_getElem h), feed_bytes, ih (le_of_succ_le h)]

/-- **The positions a stream can be at**: where some bytes have just been
consumed, or where the next byte has been refused once. -/
def IsAt (data : List UInt8) (pos : StreamPosition) : Prop :=
  pos = posAt data pos.bytes ∨ ∃ byte, data[pos.bytes]? = some byte ∧
    ((posAt data pos.bytes).decoder.valueOfIncremental byte).2.1 = false ∧
    pos = (posAt data pos.bytes).step byte

theorem sound_posAt (h : k ≤ data.length) : Sound data (posAt data k) := by
  induction k with
  | zero => exact sound_start data
  | succ k ih =>
    have hbyte := getElem?_eq_getElem h
    have hbytes := posAt_bytes (le_of_succ_le h)
    rw [posAt_succ hbyte, feed]
    have hsound := ((ih (le_of_succ_le h)).step (by rw [hbytes]; exact hbyte)).1
    split
    · exact hsound
    · next hrefused =>
      refine (hsound.step ?_).1
      rw [step_bytes_of_false (by simpa using hrefused), hbytes]
      exact hbyte

theorem IsAt.sound (h : IsAt data pos) (hle : pos.bytes ≤ data.length) : Sound data pos := by
  obtain hexact | ⟨byte, hbyte, -, hstep⟩ := h
  · rw [hexact]
    exact sound_posAt hle
  · rw [hstep]
    refine ((sound_posAt hle).step ?_).1
    rw [posAt_bytes hle]
    exact hbyte

/-- A consumed byte was consumed at once or when it was given again. -/
theorem IsAt.step_eq_posAt (h : IsAt data pos) (hbyte : data[pos.bytes]? = some byte)
    (hconsumed : (pos.decoded byte).2.1 = true) :
    pos.step byte = posAt data (pos.bytes + 1) := by
  rw [posAt_succ hbyte, feed]
  obtain hpos | ⟨byte', hbyte', hrefused, hpos⟩ := h
  · rw [← hpos, if_pos hconsumed]
  · grind

/-- A position in some bytes of the data that more bytes follow. At the end of
the bytes it is the one where they have just been consumed. -/
structure Points (data more bytes : List UInt8) (pos : StreamPosition) : Prop where
  drop : data.drop pos.bytes = bytes ++ more
  le : pos.bytes ≤ data.length
  isAt : IsAt data pos
  exact : bytes = [] → pos = posAt data pos.bytes

variable {more bytes : List UInt8}

theorem Points.sound (h : Points data more bytes pos) : Sound data pos := h.isAt.sound h.le

/-- The number of bytes, by those that are left. -/
theorem Points.bytes_eq (h : Points data more bytes pos) :
    pos.bytes + bytes.length + more.length = data.length := by
  have hlen := congrArg List.length h.drop
  have hle := h.le
  rw [length_drop, length_append] at hlen
  omega

/-- **A step of the decoder in some bytes.** -/
theorem Points.step {rest : List UInt8} (h : Points data more (byte :: rest) pos) : Points data more
      (stepBytes (pos.decoded byte).2.1 byte rest) (pos.step byte) := by
  have hbyte := getElem?_of_drop_eq h.drop
  have hlt : pos.bytes < data.length := (List.getElem?_eq_some_iff.mp hbyte).1
  have hdrop : data.drop (pos.bytes + 1) = rest ++ more := by
    rw [← drop_drop, h.drop]
    rfl
  cases hconsumed : (pos.decoded byte).2.1 with
  | true =>
    have hbytes := step_bytes_of_true hconsumed
    have hexact := h.isAt.step_eq_posAt hbyte hconsumed
    rw [← hbytes] at hexact hdrop
    exact ⟨hdrop, hbytes ▸ hlt, .inl hexact, fun _ => hexact⟩
  | false =>
    have hbytes := step_bytes_of_false hconsumed
    refine ⟨by rw [hbytes]; exact h.drop, hbytes ▸ h.le, .inr ⟨byte, ?_⟩, nofun⟩
    obtain hpos | ⟨byte', hbyte', hrefused, hpos⟩ := h.isAt
    · grind
    · obtain rfl : byte = byte' := Option.some.inj (hbyte.symm.trans hbyte')
      have hagain := step_step_bytes hrefused
      rw [← hpos, hconsumed] at hagain
      cases hagain

/-! ## The loops -/

/-- Behind the front, a step counts all its code units. -/
theorem units_of_not_atFront (h : ¬ pos.AtFront) (t : Option ℕ) :
    pos.units t = (t.map utf16).getD [] := if_neg fun h' => h h'.1

theorem step_chars_of_not_atFront (h : ¬ pos.AtFront) (byte : UInt8) :
    (pos.step byte).chars = pos.chars + charsOf (pos.decoded byte).1 := by
  rw [step, units_of_not_atFront h, charsOf]
  cases (pos.decoded byte).1 <;> rfl

theorem step_not_atFront (h : ¬ pos.AtFront) (byte : UInt8) : ¬ (pos.step byte).AtFront := by
  rintro ⟨hbytes, hchars⟩
  exact h ⟨(Nat.le_add_right _ _).trans_lt hbytes, Nat.eq_zero_of_add_eq_zero_right hchars⟩

/-- The steps that some bytes can take at most. -/
def stepsLeft (d : Utf8Decoder) (bytes : List UInt8) : ℕ :=
  2 * bytes.length + if d = .start then 0 else 1

variable (d : Utf8Decoder)

theorem stepsLeft_step (byte : UInt8) (rest : List UInt8) :
    stepsLeft (d.valueOfIncremental byte).2.2 (stepBytes (d.valueOfIncremental byte).2.1 byte rest)
      < stepsLeft d (byte :: rest) := by
  have hstep := valueOfIncremental_step d byte
  generalize d.valueOfIncremental byte = r at hstep ⊢
  cases hstep with
  | broken h => simp [stepsLeft, stepBytes, h]
  | single =>
    show 2 * rest.length + 0 < 2 * (rest.length + 1) + 0
    omega
  | lead | complete | continued =>
    simp only [stepsLeft, stepBytes, if_true, length_cons]
    split_ifs <;> omega

theorem stepsLeft_le (bytes : List UInt8) : stepsLeft d bytes ≤ rounds bytes := by
  unfold stepsLeft rounds
  split <;> omega

theorem length_stepBytes_le (consumed : Bool) (byte : UInt8) (rest : List UInt8) :
    (stepBytes consumed byte rest).length ≤ (byte :: rest).length := by
  cases consumed with
  | true => exact le_succ _
  | false => exact le_rfl

theorem charsOf_of_le {t : ℕ} (h : t ≤ 0xFFFF) : charsOf (some t) = 1 := by
  show (utf16 t).length = 1
  rw [utf16, if_pos h]
  rfl

theorem charsOf_le_two (t : ℕ) : charsOf (some t) ≤ 2 := by
  show (utf16 t).length ≤ 2
  unfold utf16
  split <;> simp

/-- A position between the two halves of a surrogate pair. -/
def BetweenHalves (text : List ℕ) (position : ℕ) : Prop :=
  ∃ lead trail rest, 0 < position ∧ text.drop (position - 1) = lead :: trail :: rest ∧
    (0xD800 ≤ lead ∧ lead ≤ 0xDBFF) ∧ 0xDC00 ≤ trail ∧ trail ≤ 0xDFFF

theorem betweenHalves_of_drop {text rest : List ℕ} {chars t : ℕ} (ht : ¬ t ≤ 0xFFFF)
    (h : text.drop chars = utf16 t ++ rest) : BetweenHalves text (chars + 1) := by
  rw [utf16, if_neg ht] at h
  refine ⟨_, _, rest, succ_pos _, h, ⟨Nat.le_add_right _ _, ?_⟩, Nat.le_add_right _ _, ?_⟩
  · exact Nat.add_le_add_left and_le_right _
  · exact Nat.add_le_add_left and_le_right _

theorem skipLoop_of_le {position n chars : ℕ} (bytes : List UInt8)
    (h : position ≤ chars) : skipLoop position n d bytes chars = (d, bytes, chars) := by
  cases n with
  | zero => rfl
  | succ n =>
    cases bytes with
    | nil => rfl
    | cons byte rest => rw [skipLoop, if_neg (Nat.not_lt.mpr h)]

/-- **The loop of `SkipToPosition`** ends at the position, unless that is
between the halves of a pair, or at the end of the bytes. -/
theorem skipLoop_spec {position n : ℕ} (h : Points data more bytes pos) (hfront : ¬ pos.AtFront)
    (hn : stepsLeft pos.decoder bytes ≤ n) (hle : pos.chars ≤ position) :
    ∃ bytes' pos', skipLoop position n pos.decoder bytes pos.chars
        = (pos'.decoder, bytes', pos'.chars) ∧ Points data more bytes' pos' ∧
      bytes'.length ≤ bytes.length ∧
      (pos'.chars = position ∨ BetweenHalves (textOf data) position ∨
        bytes' = [] ∧ pos'.chars < position) := by
  induction n generalizing bytes pos with
  | zero =>
    obtain rfl : bytes = [] := eq_nil_of_length_eq_zero (by unfold stepsLeft at hn; omega)
    exact ⟨[], pos, rfl, h, le_rfl, (Nat.eq_or_lt_of_le hle).imp id fun hlt => .inr ⟨rfl, hlt⟩⟩
  | succ n ih =>
    cases bytes with
    | nil =>
      exact ⟨[], pos, rfl, h, le_rfl, (Nat.eq_or_lt_of_le hle).imp id fun hlt => .inr ⟨rfl, hlt⟩⟩
    | cons byte rest =>
      obtain heq | hlt := Nat.eq_or_lt_of_le hle
      · exact ⟨_, pos, skipLoop_of_le _ _ heq.ge, h, le_rfl, .inl heq⟩
      · have hsteps := le_of_lt_succ ((stepsLeft_step _ byte rest).trans_le hn)
        have hchars := step_chars_of_not_atFront hfront byte
        have hunfold : skipLoop position (n + 1) pos.decoder (byte :: rest) pos.chars
            = skipLoop position n (pos.step byte).decoder
              (stepBytes (pos.decoded byte).2.1 byte rest)
              (pos.step byte).chars := by
          rw [skipLoop, if_pos hlt, hchars]
          rfl
        rw [hunfold]
        by_cases hle' : (pos.step byte).chars ≤ position
        · obtain ⟨bytes', pos', hrun, hpoints, hlen, hend⟩ :=
            ih h.step (step_not_atFront hfront byte) hsteps hle'
          exact ⟨bytes', pos', hrun, hpoints, hlen.trans (length_stepBytes_le _ _ _), hend⟩
        · -- a pair of which only the first half is in front of the position
          refine ⟨_, pos.step byte, skipLoop_of_le _ _ (Nat.le_of_not_le hle'), h.step,
            length_stepBytes_le _ _ _, .inr (.inl ?_)⟩
          have htext := (h.sound.step (getElem?_of_drop_eq h.drop)).2
          rw [units_of_not_atFront hfront] at htext
          cases ht : (pos.decoded byte).1 with
          | none =>
            rw [ht] at hchars
            exact absurd (hchars.le.trans hle) hle'
          | some t =>
            rw [ht] at hchars htext
            have hwidth : charsOf (some t) = (utf16 t).length := rfl
            have hpair : ¬ t ≤ 0xFFFF := by
              intro h1
              rw [hwidth, utf16, if_pos h1] at hchars
              exact hle' (hchars.le.trans hlt)
            have hposition : position = pos.chars + 1 := by
              rw [hwidth, utf16, if_neg hpair] at hchars
              have hlen : [leadSurrogate t, trailSurrogate t].length = 2 := rfl
              omega
            rw [hposition]
            exact betweenHalves_of_drop hpair htext

theorem firstChar_cons (byte : UInt8) (rest : List UInt8) : firstChar d (byte :: rest) =
      match (d.valueOfIncremental byte).1 with
      | none => firstChar (d.valueOfIncremental byte).2.2 rest
      | some t => (some t, (d.valueOfIncremental byte).2.2,
          stepBytes (d.valueOfIncremental byte).2.1 byte rest) := by
  rw [firstChar]
  obtain ⟨t, consumed, d'⟩ := d.valueOfIncremental byte
  cases t <;> rfl

/-- Before the first character is complete, a step counts its code units
unless it is a byte order mark. -/
theorem units_of_seen (hchars : pos.chars = 0) (hseen : pos.bytes = pos.decoder.seen) :
    pos.units (pos.decoded byte).1 = if (pos.decoded byte).1 = some kUtf8Bom then []
        else ((pos.decoded byte).1.map utf16).getD [] := by
  rw [units]
  by_cases hbom : (pos.decoded byte).1 = some kUtf8Bom
  · have htwo := (seen_of_bom hbom).1
    rw [if_pos hbom, if_pos ⟨⟨by rw [hseen, htwo]; decide, hchars⟩, hbom⟩]
  · rw [if_neg hbom, if_neg fun h => hbom h.2]

/-- The first character of the data, or a part of it. -/
theorem firstChar_spec (h : Points data more bytes pos) (hchars : pos.chars = 0)
    (hseen : pos.bytes = pos.decoder.seen) :
    ∃ t bytes' pos', firstChar pos.decoder bytes = (t, pos'.decoder, bytes') ∧
      Points data more bytes' pos' ∧ bytes'.length ≤ bytes.length ∧
      pos'.chars = (if t = some kUtf8Bom then [] else (t.map utf16).getD []).length ∧
      textOf data = (if t = some kUtf8Bom then [] else (t.map utf16).getD []) ++
        (textOf data).drop pos'.chars ∧
      (bytes' = [] ∨ ¬ pos'.AtFront) := by
  induction bytes generalizing pos with
  | nil => exact ⟨none, [], pos, rfl, h, le_rfl, hchars, by rw [hchars]; rfl, .inl rfl⟩
  | cons byte rest ih =>
    obtain ⟨-, htext⟩ := h.sound.step (getElem?_of_drop_eq h.drop)
    have hnext := h.step
    have hstep : (pos.step byte).chars = (pos.units (pos.decoded byte).1).length := by
      rw [step, hchars, Nat.zero_add]
    rw [hchars, drop_zero] at htext
    rw [units_of_seen hchars hseen] at htext hstep
    rw [firstChar_cons]
    cases ht : (pos.decoded byte).1 with
    | none =>
      obtain ⟨hconsumed, hseen', -⟩ := seen_of_incomplete ht
      rw [hconsumed] at hnext
      rw [ht] at hstep
      obtain ⟨t, bytes', pos', hrun, hpoints, hlen, hspec⟩ := ih hnext hstep
        (by rw [step_bytes_of_true hconsumed, hseen]; exact hseen'.symm)
      exact ⟨t, bytes', pos', hrun, hpoints, le_succ_of_le hlen, hspec⟩
    | some t =>
      rw [ht] at hstep htext
      refine ⟨some t, _, pos.step byte, rfl, hnext, length_stepBytes_le _ _ _, hstep, htext, .inr ?_⟩
      rintro ⟨hbytes, hzero⟩
      by_cases hbom : t = kUtf8Bom
      · subst hbom
        obtain ⟨htwo, hconsumed⟩ := seen_of_bom ht
        rw [step_bytes_of_true hconsumed, hseen, htwo] at hbytes
        exact absurd hbytes (by decide)
      · rw [if_neg fun h => hbom (Option.some.inj h), hzero] at hstep
        exact absurd hstep (Nat.ne_of_lt (utf16_length_pos t))

theorem skipLoop_nil (position n : ℕ) (d : Utf8Decoder) (chars : ℕ) :
    skipLoop position n d [] chars = (d, [], chars) := by
  cases n <;> rfl

/-- **`SkipToPosition` within a chunk** ends at the position or at the end of the
bytes. -/
theorem skip_spec {position : ℕ} (h : Points data more bytes pos) (hlt : pos.chars < position)
    (hhalves : ¬ BetweenHalves (textOf data) position) :
    ∃ d₁ bytes₁ chars₁ bytes' pos', skipFirst pos pos.decoder bytes = (d₁, bytes₁, chars₁) ∧
      skipLoop position (rounds bytes₁) d₁ bytes₁ chars₁ = (pos'.decoder, bytes', pos'.chars) ∧
      Points data more bytes' pos' ∧ bytes'.length ≤ bytes.length ∧
      (pos'.chars = position ∨ bytes' = [] ∧ pos'.chars < position) := by
  by_cases hfront : pos.AtFront
  · obtain ⟨t, bytes₁, pos₁, hrun, hpoints, hlen, hchars, htext, hnext⟩ :=
      firstChar_spec h hfront.2 (h.sound.seen_of_atFront hfront)
    have hcount : pos₁.chars = if t = some kUtf8Bom then 0 else charsOf t := by
      rw [hchars]
      split
      · rfl
      · cases t <;> rfl
    have hskip : skipFirst pos pos.decoder bytes = (pos₁.decoder, bytes₁, pos₁.chars) := by
      unfold skipFirst
      rw [if_pos (show pos.bytes < 3 ∧ pos.chars = 0 from hfront), hrun, hcount]
    have hle : pos₁.chars ≤ position := by
      -- otherwise the first character is a pair with the position in between
      refine Nat.le_of_not_lt fun hgt => hhalves ?_
      split at hcount
      · omega
      · next hbom =>
        rw [if_neg hbom] at htext
        have htwo : 2 ≤ charsOf t := by omega
        obtain ⟨t, rfl, ht⟩ : ∃ t', t = some t' ∧ ¬ t' ≤ 0xFFFF := by
          cases t with
          | none => exact absurd htwo (by decide)
          | some t => exact ⟨t, rfl, fun ht => by rw [charsOf_of_le ht] at htwo; omega⟩
        obtain rfl : position = 0 + 1 := by have := charsOf_le_two t; omega
        exact betweenHalves_of_drop ht htext
    obtain hnil | hback := hnext
    · subst hnil
      exact ⟨_, _, _, [], pos₁, hskip, skipLoop_nil .., hpoints, hlen,
        (Nat.eq_or_lt_of_le hle).imp id fun hlt => ⟨rfl, hlt⟩⟩
    · obtain ⟨bytes', pos', hloop, hpoints', hlen', hend⟩ :=
        skipLoop_spec hpoints hback (stepsLeft_le _ _) hle
      exact ⟨_, _, _, bytes', pos', hskip, hloop, hpoints', hlen'.trans hlen,
        hend.imp id fun hend => hend.resolve_left hhalves⟩
  · have hskip : skipFirst pos pos.decoder bytes = (pos.decoder, bytes, pos.chars) :=
      if_neg hfront
    obtain ⟨bytes', pos', hrun, hpoints, hlen, hend⟩ :=
      skipLoop_spec h hfront (stepsLeft_le _ _) hlt.le
    exact ⟨_, _, _, bytes', pos', hskip, hrun, hpoints, hlen,
      hend.imp id fun hend => hend.resolve_left hhalves⟩

/-- A run of ASCII bytes is a run of code units. -/
theorem ascii_points {ascii rest : List UInt8} (h : Points data more (ascii ++ rest) pos)
    (hstart : pos.decoder = .start) (hfront : ¬ pos.AtFront)
    (hascii : ∀ byte ∈ ascii, byte ≤ 0x7F) :
    ∃ pos', Points data more rest pos' ∧ pos'.decoder = .start ∧ ¬ pos'.AtFront ∧
      pos'.chars = pos.chars + (ascii.map UInt8.toNat).length ∧
      (textOf data).drop pos.chars = ascii.map UInt8.toNat ++ (textOf data).drop pos'.chars := by
  induction ascii generalizing pos with
  | nil => exact ⟨pos, h, hstart, hfront, rfl, rfl⟩
  | cons byte ascii ih =>
    have hvalue : pos.decoded byte = (some byte.toNat, true, .start) := by
      rw [decoded, hstart]
      exact if_pos ⟨hascii byte mem_cons_self, rfl⟩
    have hunits : utf16 byte.toNat = [byte.toNat] :=
      if_pos (byte.toNat_lt.le.trans (by decide))
    have hnext := h.step
    obtain ⟨-, htext⟩ := h.sound.step (getElem?_of_drop_eq h.drop)
    have hchars := step_chars_of_not_atFront hfront byte
    rw [hvalue] at hnext htext hchars
    rw [units_of_not_atFront hfront] at htext
    obtain ⟨pos', hpoints, hstart', hfront', hchars', htext'⟩ := ih hnext
      (congrArg (·.2.2) hvalue) (step_not_atFront hfront byte)
      fun b hb => hascii b (mem_cons_of_mem _ hb)
    refine ⟨pos', hpoints, hstart', hfront', ?_, ?_⟩
    · rw [hchars', hchars, charsOf, map_cons, length_cons]
      simp only [map_some, getD_some, hunits, length_singleton]
      omega
    · rw [htext, htext']
      simp only [map_some, getD_some, hunits]
      rfl

theorem fillLoop_cons (n : ℕ) (d : Utf8Decoder) (byte : UInt8) (rest : List UInt8)
    (output : List ℕ) :
    fillLoop (n + 1) d (byte :: rest) output = if output.length + 1 < kBufferSize then
        match (d.valueOfIncremental byte).1 with
        | none => fillLoop n (d.valueOfIncremental byte).2.2 rest output
        | some t =>
          let bytes := stepBytes (d.valueOfIncremental byte).2.1 byte rest
          let output := output ++ utf16 t
          let ascii := asciiRun bytes (kBufferSize - output.length)
          fillLoop n (d.valueOfIncremental byte).2.2 (bytes.drop ascii.length)
            (output ++ ascii.map UInt8.toNat)
      else (d, byte :: rest, output) := by
  rw [fillLoop]
  obtain ⟨t, consumed, d'⟩ := d.valueOfIncremental byte
  cases t <;> rfl

theorem fillLoop_nil (n : ℕ) (d : Utf8Decoder) (output : List ℕ) :
    fillLoop n d [] output = (d, [], output) := by
  cases n <;> rfl

/-- A run of ASCII bytes is at the front of the bytes. -/
theorem asciiRun_append_drop (bytes : List UInt8) (room : ℕ) :
    asciiRun bytes room ++ bytes.drop (asciiRun bytes room).length = bytes := by
  have h : asciiRun bytes room <+: bytes :=
    ( takeWhile_prefix _).trans ( take_prefix _ _)
  exact prefix_iff_eq_append.mp h

theorem le_of_mem_asciiRun {bytes : List UInt8} {room : ℕ}
    (h : byte ∈ asciiRun bytes room) : byte ≤ 0x7F := by
  simpa using mem_takeWhile_imp h

/-- **The loop of `FillBufferFromCurrentChunk`** puts a part of the text into
the buffer, up to the end of the bytes or until the buffer is full. -/
theorem fillLoop_spec {n : ℕ} (output : List ℕ) (h : Points data more bytes pos)
    (hfront : ¬ pos.AtFront) (hn : stepsLeft pos.decoder bytes ≤ n) :
    ∃ bytes' pos' units, fillLoop n pos.decoder bytes output
        = (pos'.decoder, bytes', output ++ units) ∧ Points data more bytes' pos' ∧
      bytes'.length ≤ bytes.length ∧ pos'.chars = pos.chars + units.length ∧
      (textOf data).drop pos.chars = units ++ (textOf data).drop pos'.chars ∧
      (bytes' = [] ∨ kBufferSize ≤ (output ++ units).length + 1) ∧
      (units = [] → bytes ≠ [] → bytes' = [] → pos'.decoder ≠ .start) := by
  induction n generalizing bytes pos output with
  | zero =>
    obtain rfl : bytes = [] := eq_nil_of_length_eq_zero (by unfold stepsLeft at hn; omega)
    exact ⟨[], pos, [], by rw [append_nil]; rfl, h, le_rfl, rfl, rfl, .inl rfl,
      fun _ hne => absurd rfl hne⟩
  | succ n ih =>
    cases bytes with
    | nil =>
      exact ⟨[], pos, [], by rw [append_nil]; rfl, h, le_rfl, rfl, rfl, .inl rfl,
        fun _ hne => absurd rfl hne⟩
    | cons byte rest =>
      have hsteps := le_of_lt_succ ((stepsLeft_step _ byte rest).trans_le hn)
      have hnext := h.step
      have hfront' := step_not_atFront hfront byte
      have hchars := step_chars_of_not_atFront hfront byte
      obtain ⟨-, htext⟩ := h.sound.step (getElem?_of_drop_eq h.drop)
      rw [units_of_not_atFront hfront] at htext
      rw [fillLoop_cons]
      split
      · cases ht : (pos.decoded byte).1 with
        | none =>
          obtain ⟨hconsumed, -, hpending⟩ := seen_of_incomplete ht
          rw [hconsumed] at hnext hsteps
          rw [ht] at htext hchars
          obtain ⟨bytes', pos', units, hrun, hpoints, hlen, hchars', htext', hend, hlast⟩ :=
            ih output hnext hfront' hsteps
          refine ⟨bytes', pos', units, hrun, hpoints, le_succ_of_le hlen,
            by rw [hchars', hchars]; rfl,
            by rw [htext, htext']; rfl, hend, fun hunits _ hbytes => ?_⟩
          by_cases hrest : rest = []
          · subst hrest
            have hdecoder : pos'.decoder = (pos.step byte).decoder := by
              rw [show stepBytes true byte [] = [] from rfl, fillLoop_nil] at hrun
              exact (congrArg Prod.fst hrun).symm
            rw [hdecoder]
            exact hpending
          · exact hlast hunits hrest hbytes
        | some t =>
          rw [ht] at htext hchars
          have hstart : (pos.step byte).decoder = .start := eq_start_of_complete ht
          simp only
          have hlen₁ := length_stepBytes_le (pos.decoded byte).2.1 byte rest
          generalize stepBytes (pos.decoded byte).2.1 byte rest = bytes₁ at hnext hsteps hlen₁ ⊢
          have hsplit := asciiRun_append_drop bytes₁ (kBufferSize - (output ++ utf16 t).length)
          have hascii : ∀ b ∈ asciiRun bytes₁ (kBufferSize - (output ++ utf16 t).length),
              b ≤ 0x7F := fun b => le_of_mem_asciiRun
          generalize asciiRun bytes₁ (kBufferSize - (output ++ utf16 t).length) = ascii
            at hsplit hascii ⊢
          rw [← hsplit] at hnext
          obtain ⟨pos₂, hpoints₂, hstart₂, hfront₂, hchars₂, htext₂⟩ :=
            ascii_points hnext hstart hfront' hascii
          have hsteps₂ : stepsLeft pos₂.decoder (bytes₁.drop ascii.length) ≤ n := by
            refine le_trans ?_ hsteps
            rw [hstart₂, show (pos.decoded byte).2.2 = .start from hstart,
              stepsLeft, stepsLeft, length_drop]
            omega
          obtain ⟨bytes', pos', units, hrun, hpoints, hlen, hchars', htext', hend, -⟩ :=
            ih (output ++ utf16 t ++ ascii.map UInt8.toNat) hpoints₂ hfront₂ hsteps₂
          have hassoc : output ++ utf16 t ++ ascii.map UInt8.toNat ++ units
              = output ++ (utf16 t ++ (ascii.map UInt8.toNat ++ units)) := by
            rw [append_assoc, append_assoc]
          refine ⟨bytes', pos', utf16 t ++ (ascii.map UInt8.toNat ++ units), ?_, hpoints, ?_, ?_,
            ?_, ?_, fun hnil => ?_⟩
          · rw [show (pos.decoded byte).2.2 = pos₂.decoder from
              hstart.trans hstart₂.symm, hrun, hassoc]
          · grind
          · rw [hchars', hchars₂, hchars, length_append, length_append, charsOf]
            simp only [map_some, getD_some]
            omega
          · rw [htext, htext₂, htext', append_assoc, append_assoc]
            rfl
          · rw [← hassoc]
            exact hend
          · have hpos := utf16_length_pos t
            rw [(append_eq_nil_iff.mp hnil).1] at hpos
            exact absurd hpos (by decide)
      · next hfull =>
        refine ⟨byte :: rest, pos, [], by rw [append_nil], h, le_rfl, rfl, rfl, .inr ?_, nofun⟩
        rw [append_nil]
        exact Nat.le_of_not_lt hfull

/-- **`FillBufferFromCurrentChunk` within a chunk**, with an empty buffer: it
puts a part of the text into the buffer. If that is nothing, then all bytes
belong to an incomplete character or to a byte order mark. -/
theorem fill_spec (h : Points data more bytes pos) (hbytes : bytes ≠ []) :
    ∃ d₁ bytes₁ output₁ bytes' pos' units, fillFirst pos bytes [] = (d₁, bytes₁, output₁) ∧
      fillLoop (rounds bytes₁) d₁ bytes₁ output₁ = (pos'.decoder, bytes', units) ∧
      Points data more bytes' pos' ∧ bytes'.length ≤ bytes.length ∧
      pos'.chars = pos.chars + units.length ∧
      (textOf data).drop pos.chars = units ++ (textOf data).drop pos'.chars ∧
      (units = [] → bytes' = [] ∧ (pos'.decoder ≠ .start ∨ pos'.chars = 0)) := by
  have hroom : ∀ bytes' : List UInt8, (bytes' = [] ∨ kBufferSize ≤ ([] : List ℕ).length + 1) →
      bytes' = [] := fun _ hend => hend.resolve_right (by decide)
  by_cases hfront : pos.AtFront
  · obtain ⟨t, bytes₁, pos₁, hrun, hpoints, hlen, hchars, htext, hnext⟩ :=
      firstChar_spec h hfront.2 (h.sound.seen_of_atFront hfront)
    generalize hunits₁ : (if t = some kUtf8Bom then [] else (t.map utf16).getD []) = units₁
      at hchars htext
    have hfill : fillFirst pos bytes [] = (pos₁.decoder, bytes₁, units₁) := by
      unfold fillFirst
      rw [if_pos (show pos.bytes < 3 ∧ pos.chars = 0 from hfront), hrun]
      simp only [nil_append, hunits₁]
    rw [hfront.2, drop_zero]
    obtain hnil | hback := hnext
    · subst hnil
      exact ⟨_, _, _, [], pos₁, units₁, hfill, fillLoop_nil .., hpoints, hlen,
        hchars.trans (Nat.zero_add _).symm, htext,
          fun hunits => ⟨rfl, .inr (by rw [hchars, hunits]; rfl)⟩⟩
    · obtain ⟨bytes', pos', units, hloop, hpoints', hlen', hchars', htext', hend, -⟩ :=
        fillLoop_spec units₁ hpoints hback (stepsLeft_le _ _)
      have hcount : pos'.chars = 0 + (units₁ ++ units).length := by grind
      refine ⟨_, _, _, bytes', pos', units₁ ++ units, hfill, hloop, hpoints', hlen'.trans hlen,
        hcount, by rw [append_assoc, ← htext', ← htext], fun hunits => ?_⟩
      rw [hunits] at hend hcount
      exact ⟨hroom _ hend, .inr hcount⟩
  · have hfill : fillFirst pos bytes [] = (pos.decoder, bytes, []) := if_neg hfront
    obtain ⟨bytes', pos', units, hloop, hpoints, hlen, hchars, htext, hend, hlast⟩ :=
      fillLoop_spec [] h hfront (stepsLeft_le _ _)
    refine ⟨_, _, _, bytes', pos', units, hfill, hloop, hpoints, hlen, hchars, htext,
      fun hunits => ?_⟩
    have hnil : bytes' = [] := hroom _ (by rwa [hunits] at hend)
    exact ⟨hnil, .inl (hlast hunits hbytes hnil)⟩

/-! ## Counting -/

/-- One for an incomplete character. -/
def pending (d : Utf8Decoder) : ℕ := if d = .start then 0 else 1

theorem pending_of_ne {d : Utf8Decoder} (h : d ≠ .start) : pending d = 1 := if_neg h

theorem units_length_le (pos : StreamPosition) (t : Option ℕ) :
    (pos.units t).length ≤ charsOf t := by
  unfold units
  split
  · exact Nat.zero_le _
  · cases t <;> exact le_rfl

/-- A step gives no more code units than it takes bytes, if an incomplete
character counts for one of them. -/
theorem step_count (pos : StreamPosition) (byte : UInt8) :
    (pos.step byte).chars + pending (pos.step byte).decoder +
        (if (pos.decoded byte).2.1 then 0 else 1)
      ≤ pos.chars + pending pos.decoder + 1 := by
  have hunits := units_length_le pos (pos.decoded byte).1
  have hstep : Step pos.decoder (pos.decoded byte) := valueOfIncremental_step ..
  show pos.chars + (pos.units (pos.decoded byte).1).length + pending (pos.decoded byte).2.2 + _ ≤ _
  generalize pos.decoded byte = r at *
  generalize pos.decoder = d at *
  have hnone : charsOf none = 0 := rfl
  have hstart : pending .start = 0 := if_pos rfl
  cases hstep with
  | @single t ht =>
    have hle : t ≤ 0xFFFF := by
      obtain h | rfl := ht
      · exact h.trans (by decide)
      · decide
    have hone := charsOf_of_le hle
    simp only [if_true] at hunits ⊢
    omega
  | lead hd =>
    have hd' := pending_of_ne hd
    simp only [if_true] at hunits ⊢
    omega
  | broken hd =>
    have hd' := pending_of_ne hd
    have hone : charsOf (some Utf8Decoder.badChar) = 1 := charsOf_of_le (by decide)
    simp only [Bool.false_eq_true, if_false] at hunits ⊢
    omega
  | @complete _ t hd =>
    have hd' := pending_of_ne hd
    have htwo := charsOf_le_two t
    simp only [if_true] at hunits ⊢
    omega
  | continued hd hd' =>
    have hd' := pending_of_ne hd'
    simp only [if_true] at hunits ⊢
    omega

theorem feed_count (pos : StreamPosition) (byte : UInt8) :
    (pos.feed byte).chars + pending (pos.feed byte).decoder
      ≤ pos.chars + pending pos.decoder + 1 := by
  have hcount := step_count pos byte
  rw [feed]
  cases hconsumed : (pos.decoded byte).2.1 with
  | true => grind
  | false =>
    have hcount' := step_count (pos.step byte) byte
    rw [hconsumed, if_neg (by decide)] at hcount
    rw [if_neg (by decide)]
    omega

theorem posAt_count {k n : ℕ} (h : k + n ≤ data.length) :
    (posAt data (k + n)).chars + pending (posAt data (k + n)).decoder
      ≤ (posAt data k).chars + pending (posAt data k).decoder + n := by
  induction n with
  | zero => exact le_rfl
  | succ n ih =>
    have hbyte : data[k + n]? = some data[k + n] := getElem?_eq_getElem h
    rw [← Nat.add_assoc, posAt_succ hbyte]
    have hfeed := feed_count (posAt data (k + n)) data[k + n]
    omega

/-- The second byte of a character that is not refused. -/
theorem step_count_of_seen (hseen : pos.decoder.seen = 1)
    (hconsumed : (pos.decoded byte).2.1 = true) :
    (pos.step byte).chars + pending (pos.step byte).decoder ≤ pos.chars + 1 := by
  have hunits := units_length_le pos (pos.decoded byte).1
  have hstep : Step pos.decoder (pos.decoded byte) := valueOfIncremental_step ..
  show pos.chars + (pos.units (pos.decoded byte).1).length + pending (pos.decoded byte).2.2 ≤ _
  generalize pos.decoded byte = r at *
  generalize pos.decoder = d at *
  have hnone : charsOf none = 0 := rfl
  have hstart : pending .start = 0 := if_pos rfl
  cases hstep with
  | single | lead => cases hseen
  | broken => cases hconsumed
  | @complete _ t _ ht =>
    have hle : t ≤ 0xFFFF := by
      obtain ⟨-, -, h⟩ | ⟨h, -⟩ | ⟨h, -⟩ := ht <;> omega
    have hone := charsOf_of_le hle
    simp only at hunits ⊢
    omega
  | continued _ hd' =>
    have hd' := pending_of_ne hd'
    simp only at hunits ⊢
    omega

/-- **Where there are as many code units as bytes**, each byte is one: the
decoder can start at any of them. -/
theorem isAt_of_count {k n : ℕ} (h : k + n ≤ data.length) (hstart : (posAt data k).decoder = .start)
    (hcount : (posAt data (k + n)).chars = (posAt data k).chars + n) {j : ℕ} (hj : j ≤ n) :
    IsAt data ⟨k + j, (posAt data k).chars + j, .start⟩ := by
  induction j with
  | zero =>
    exact .inl (StreamPosition.ext (posAt_bytes (le_of_add_right_le h)).symm rfl hstart.symm)
  | succ j ih =>
    have hat := ih (le_of_succ_le hj)
    have hlt : k + j < data.length := by omega
    have hbyte : data[k + j]? = some data[k + j] := getElem?_eq_getElem hlt
    have hconsumed := valueOfIncremental_start_consumes data[k + j]
    have hnext := hat.step_eq_posAt hbyte hconsumed
    have hstep := step_start data[k + j]
    have hbytes : (posAt data (k + j + 1)).bytes = k + j + 1 := posAt_bytes hlt
    have hchars : (posAt data (k + j + 1)).chars = (posAt data k).chars + j +
        (units ⟨k + j, (posAt data k).chars + j, .start⟩
          (Utf8Decoder.start.valueOfIncremental data[k + j]).1).length := by rw [← hnext]; rfl
    have hdecoder : (posAt data (k + j + 1)).decoder
        = (Utf8Decoder.start.valueOfIncremental data[k + j]).2.2 := by rw [← hnext]; rfl
    generalize Utf8Decoder.start.valueOfIncremental data[k + j] = r at hstep hchars hdecoder
    cases hstep with
    | broken hd => exact absurd rfl hd
    | @single t ht =>
      have hle : t ≤ 0xFFFF ∧ t ≠ kUtf8Bom := by
        obtain h | rfl := ht
        · exact ⟨h.trans (by decide), fun h' => absurd (h'.symm.trans_le h) (by decide)⟩
        · decide
      refine .inl (StreamPosition.ext hbytes.symm ?_ hdecoder.symm)
      rw [units, if_neg fun h => hle.2 (Option.some.inj h.2)] at hchars
      exact (hchars.trans (congrArg _ (charsOf_of_le hle.1))).symm
    | @lead d hd hseen =>
      -- the next byte is refused, or there would be fewer code units than bytes
      have hchars' : (posAt data (k + j + 1)).chars = (posAt data k).chars + j := by
        rw [hchars, units, if_neg fun h => nomatch h.2]
        rfl
      have hj' : j + 1 < n := by grind
      have hlt' : k + j + 1 < data.length := by omega
      have hbyte' : data[k + j + 1]? = some data[k + j + 1] := getElem?_eq_getElem hlt'
      have hpos : (posAt data (k + j + 1)).bytes = k + j + 1 := hbytes
      cases hrefused : ((posAt data (k + j + 1)).decoder.valueOfIncremental
          data[k + j + 1]).2.1 with
      | true =>
        have hle := step_count_of_seen (by rw [hdecoder]; exact hseen) hrefused
        rw [(IsAt.step_eq_posAt (.inl (by rw [hpos])) (by rw [hpos]; exact hbyte') hrefused),
          hpos] at hle
        have hrest : (posAt data (k + j + 1 + 1 + (n - j - 2))).chars + _ ≤ _ :=
          posAt_count (by omega)
        have hlast : k + j + 1 + 1 + (n - j - 2) = k + n := by omega
        rw [hlast] at hrest
        omega
      | false =>
        refine .inr ⟨data[k + j + 1], hbyte', hrefused, ((step_of_refused hrefused).trans ?_).symm⟩
        rw [hbytes, hchars']
        rfl
    | complete hd => exact absurd rfl hd
    | continued hd => exact absurd rfl hd

/-! ## The end of the data -/

theorem Sound.chars_le (h : Sound data pos) : pos.chars ≤ (textOf data).length := by
  obtain ⟨chars, hdecode, hcount, -, -⟩ := h
  obtain ⟨more, hmore⟩ := dropBom_append_isPrefix chars
    (pos.decoder.decodeFrom (data.drop pos.bytes))
  rw [textOf, hdecode, ← hmore, flatMap_append, length_append, ← hcount]
  exact Nat.le_add_right _ _

/-- At the end of the data an incomplete character is replaced. -/
theorem textOf_drop_posAt_length (data : List UInt8) :
    (textOf data).drop (posAt data data.length).chars
      = (posAt data data.length).decoder.valueOfIncrementalFinish.toList := by
  obtain ⟨chars, hdecode, hcount, -, -⟩ := sound_posAt (le_refl data.length)
  rw [posAt_bytes le_rfl, drop_length] at hdecode
  generalize (posAt data data.length).decoder = d at *
  rw [hcount, textOf, hdecode]
  show List.drop _ ((dropBom (chars ++ d.valueOfIncrementalFinish.toList)).flatMap utf16) = _
  unfold Utf8Decoder.valueOfIncrementalFinish
  split
  · rw [toList_none, append_nil, drop_length]
  · by_cases hchars : chars = []
    · rw [hchars]
      rfl
    · rw [dropBom_append hchars, flatMap_append, drop_left]
      rfl

theorem length_textOf (data : List UInt8) : (textOf data).length = (posAt data data.length).chars
      + pending (posAt data data.length).decoder := by
  have hle := (sound_posAt (le_refl data.length)).chars_le
  have hdrop := congrArg List.length (textOf_drop_posAt_length data)
  rw [length_drop] at hdrop
  have hpending : (posAt data data.length).decoder.valueOfIncrementalFinish.toList.length
      = pending (posAt data data.length).decoder := by
    generalize (posAt data data.length).decoder = d
    unfold Utf8Decoder.valueOfIncrementalFinish pending
    by_cases hd : d = .start
    · rw [hd]
      rfl
    · rw [if_neg fun h => hd (eq_start h), if_neg hd]
      rfl
  omega

/-- A text has no more code units than its data has bytes. -/
theorem length_textOf_le (data : List UInt8) : (textOf data).length ≤ data.length := by
  have hcount : (posAt data (0 + data.length)).chars + _ ≤ _ :=
    posAt_count (by rw [Nat.zero_add])
  rw [Nat.zero_add, ← length_textOf] at hcount
  exact hcount.trans_eq (Nat.zero_add _)

end StreamPosition
