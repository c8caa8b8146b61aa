import V8Speak.Utf8Blocks

/-!
# The chunked stream refines random access

A reader of a text has a position, seeks, and takes the code unit at its
position (`Reader`). The stream is such a reader for the text of the whole
data, however the embedder cuts that into pieces: it delivers at a position
what the reader delivers there (`run_refines_reader`) – as long as each block it has
to read is one it can find.

`Admissible` says which operation needs which block. `Seek`, `Peek` and
`Advance` read one if they leave the buffer. `Back` does so in front of the
buffer, where the scanner has no say in the position: it can be the second
half of a surrogate pair that the last block has ended with, and then the
stream does not find it. `AdvanceUntil` starts with a search in the buffer,
from the cursor on, so that the cursor must not be behind the buffer – where
`Advance` leaves it at the end of the input.
-/

open List StreamPosition

/-! ## The reader -/

namespace Reader

/-- The first code unit from a position on that passes a check, and the
position behind it. -/
def advanceUntil (text : List ℕ) (check : ℕ → Bool) (p : ℕ) : Option ℕ × ℕ :=
  match (text.drop p).find? check with
  | some c => (some c, p + (text.drop p).findIdx check + 1)
  | none => (none, max p text.length + 1)

/-- An operation of a reader: what it returns, and the position after it. -/
def step (text : List ℕ) (p : ℕ) : Utf8Stream.Op → List (Option ℕ) × ℕ
  | .seek position => ([], position)
  | .peek => ([text[p]?], p)
  | .advance => ([text[p]?], p + 1)
  | .advanceUntil check => ([(advanceUntil text check p).1], (advanceUntil text check p).2)
  | .back => ([], p - 1)

/-- A sequence of operations. -/
def run (text : List ℕ) : ℕ → List Utf8Stream.Op → List (Option ℕ) × ℕ
  | p, [] => ([], p)
  | p, op :: ops =>
    ((step text p op).1 ++ (run text (step text p op).2 ops).1, (run text (step text p op).2 ops).2)

/-- A search goes on behind code units that do not pass the check. -/
theorem advanceUntil_of_find?_eq_none {text left : List ℕ} {check : ℕ → Bool} {p : ℕ}
    (hdrop : text.drop p = left ++ text.drop (p + left.length)) (hleft : left.find? check = none)
    (hlt : p + left.length < text.length) :
    advanceUntil text check p = advanceUntil text check (p + left.length) := by
  have hskip : left.findIdx check = left.length :=
    findIdx_eq_length.mpr fun c hc => Bool.eq_false_iff.mpr (find?_eq_none.mp hleft c hc)
  unfold advanceUntil
  rw [hdrop, find?_append, hleft, Option.none_or, findIdx_append, hskip,
    if_neg (Nat.lt_irrefl _), Nat.add_comm (List.findIdx _ _), ← Nat.add_assoc,
    Nat.max_eq_right hlt.le, Nat.max_eq_right ((Nat.le_add_right _ _).trans hlt.le)]

end Reader

namespace Utf8Stream

section Operations

variable {pieces : List (List UInt8)} {s : Utf8Stream}

theorem Holds.getElem? (h : Holds pieces s) (hlt : s.bufferCursor < s.buffer.length) :
    s.buffer[s.bufferCursor]? = (textOf pieces.flatten)[s.pos]? := by
  obtain ⟨rest, hrest⟩ := h.buffer
  rw [pos, ← getElem?_drop, ← hrest, getElem?_append_left hlt]

theorem Holds.drop_pos (h : Holds pieces s) (hle : s.bufferCursor ≤ s.buffer.length) :
    (textOf pieces.flatten).drop s.pos = s.buffer.drop s.bufferCursor ++
      (textOf pieces.flatten).drop (s.bufferPos + s.buffer.length) := by
  obtain ⟨rest, hrest⟩ := h.buffer
  rw [pos, ← drop_drop, ← drop_drop, ← hrest, drop_append_of_le_length hle,
    drop_left]

/-- Moving the cursor. -/
theorem Holds.setCursor (h : Holds pieces s) {cursor : ℕ} (hcursor : cursor ≤ s.buffer.length ∨
      (textOf pieces.flatten).length ≤ s.bufferPos + s.buffer.length) :
    Holds pieces { s with bufferCursor := cursor } :=
  ⟨⟨h.core.length, h.core.source, h.core.chunk, h.core.number, h.core.current, h.core.fresh⟩,
    h.front, h.buffer, hcursor, h.reached⟩

/-- The operations for which the stream has the code units in its buffer, or
can read them. -/
def Admissible (pieces : List (List UInt8)) (s : Utf8Stream) : Op → Prop
  | .seek position =>
    s.bufferPos ≤ position ∧ position < s.bufferPos + s.buffer.length ∨ Readable pieces s position
  | .peek | .advance => s.bufferCursor < s.buffer.length ∨ Readable pieces s s.pos
  | .advanceUntil check =>
    s.bufferCursor ≤ s.buffer.length ∧ ((s.buffer.drop s.bufferCursor).any check = true ∨
      Readable pieces s (s.bufferPos + s.buffer.length))
  | .back => 0 < s.bufferCursor ∨ 0 < s.pos ∧ Readable pieces s (s.pos - 1)

variable (hne : ∀ piece ∈ pieces, piece ≠ []) (hends : EndsVisibly pieces)
include hne hends

/-- **`Peek`** returns the code unit at the position. -/
theorem peek_spec (h : Holds pieces s) (hok : Admissible pieces s .peek) :
    ∃ t, s.peek = some ((textOf pieces.flatten)[s.pos]?, t) ∧ Holds pieces t ∧ t.pos = s.pos ∧
      (t.bufferCursor < t.buffer.length ∨
        (textOf pieces.flatten).length ≤ t.bufferPos + t.buffer.length) := by
  unfold peek
  by_cases hlt : s.bufferCursor < s.buffer.length
  · rw [if_pos hlt, h.getElem? hlt]
    exact ⟨s, rfl, h, rfl, .inl hlt⟩
  · obtain ⟨t, hread, ht, hpos, hcursor, hnil⟩ :=
      readBlock_spec hne hends h.core h.front (hok.resolve_left hlt)
    have hpos' : t.pos = s.pos := by rw [pos, hpos, hcursor, Nat.add_zero]
    rw [if_neg hlt, hread]
    by_cases hbuffer : t.buffer = []
    · have hend := hnil hbuffer
      refine ⟨t, ?_, ht, hpos', .inr ?_⟩
      · show some (t.buffer[t.bufferCursor]?, t) = _
        rw [hbuffer, getElem?_nil, getElem?_eq_none hend]
      · rw [hpos]
        exact hend.trans (Nat.le_add_right _ _)
    · have hlt' : t.bufferCursor < t.buffer.length := by
        rw [hcursor]
        exact length_pos_of_ne_nil hbuffer
      refine ⟨t, ?_, ht, hpos', .inl hlt'⟩
      show some (t.buffer[t.bufferCursor]?, t) = _
      rw [ht.getElem? hlt', hpos']

/-- **`Advance`** returns the code unit at the position and goes on. -/
theorem advance_spec (h : Holds pieces s) (hok : Admissible pieces s .peek) :
    ∃ t, s.advance = some ((textOf pieces.flatten)[s.pos]?, t) ∧ Holds pieces t ∧
      t.pos = s.pos + 1 := by
  obtain ⟨t, hpeek, ht, hpos, hend⟩ := peek_spec hne hends h hok
  refine ⟨{ t with bufferCursor := t.bufferCursor + 1 }, ?_, ht.setCursor hend,
    congrArg Nat.succ hpos⟩
  rw [advance, hpeek]
  rfl

/-- **`Seek`.** -/
theorem seek_spec {position : ℕ} (h : Holds pieces s) (hok : Admissible pieces s (.seek position)) :
    ∃ t, s.seek position = some t ∧ Holds pieces t ∧ t.pos = position := by
  unfold seek
  by_cases hin : s.bufferPos ≤ position ∧ position < s.bufferPos + s.buffer.length
  · rw [if_pos hin]
    exact ⟨_, rfl, h.setCursor (.inl (by omega)), Nat.add_sub_cancel' hin.1⟩
  · obtain ⟨t, hread, ht, hpos, hcursor, -⟩ :=
      readBlock_spec hne hends h.core h.front (hok.resolve_left hin)
    rw [if_neg hin, hread]
    exact ⟨t, rfl, ht, by rw [pos, hpos, hcursor, Nat.add_zero]⟩

/-- **`Back`.** -/
theorem back_spec (h : Holds pieces s) (hok : Admissible pieces s .back) :
    ∃ t, s.back = some t ∧ Holds pieces t ∧ t.pos = s.pos - 1 := by
  unfold back
  by_cases hin : 0 < s.bufferCursor
  · rw [if_pos hin]
    exact ⟨_, rfl, h.setCursor (h.cursor.imp (Nat.sub_le _ _).trans id),
      (Nat.add_sub_assoc hin _).symm⟩
  · obtain ⟨t, hread, ht, hpos, hcursor, -⟩ :=
      readBlock_spec hne hends h.core h.front (hok.resolve_left hin).2
    rw [if_neg hin, hread]
    exact ⟨t, rfl, ht, by rw [pos, hpos, hcursor, Nat.add_zero]⟩

omit hne hends in
theorem Core.map_data (h : Core pieces s) : s.chunks.map (·.data) = pieces.take s.chunks.length ++
      List.replicate (s.chunks.length - pieces.length) [] := by
  refine ext_getElem? fun i => ?_
  rw [getElem?_map]
  obtain hi | hi := Nat.lt_or_ge i s.chunks.length
  · rw [getElem?_eq_getElem hi, Option.map_some,
      (h.chunk i _ (getElem?_eq_getElem hi)).1]
    obtain hi' | hi' := Nat.lt_or_ge i pieces.length
    · rw [getElem?_append_left (by rw [length_take]; omega), getElem?_take_of_lt hi,
        getElem?_eq_getElem hi', Option.getD_some]
    · rw [getElem?_append_right (by rw [length_take]; omega), getElem?_eq_none hi',
        getElem?_replicate, if_pos (by rw [length_take]; omega), Option.getD_none]
  · rw [getElem?_eq_none hi, getElem?_eq_none]
    · rfl
    · rw [length_append, length_take, length_replicate]
      omega

omit hne hends in
theorem Core.dataLength (h : Core pieces s) : s.dataLength = pieces.flatten.length := by
  have hmap : s.chunks.map (·.data.length) = (s.chunks.map (·.data)).map List.length := by
    rw [map_map]
    rfl
  rw [Utf8Stream.dataLength, hmap, h.map_data, h.source, map_append, sum_append,
    map_replicate, length_nil, sum_replicate, smul_zero, Nat.add_zero,
    ← sum_append, ← map_append, take_append_drop, length_flatten]

/-- **The loop of `AdvanceUntil`** finds what the reader finds. -/
theorem advanceUntilLoop_spec {check : ℕ → Bool} {n : ℕ} (h : Holds pieces s)
    (hok : Admissible pieces s (.advanceUntil check))
    (hn : (textOf pieces.flatten).length - (s.bufferPos + s.buffer.length) < n) :
    ∃ t, advanceUntilLoop check n s
        = some ((Reader.advanceUntil (textOf pieces.flatten) check s.pos).1, t) ∧
      Holds pieces t ∧ t.pos = (Reader.advanceUntil (textOf pieces.flatten) check s.pos).2 := by
  induction n generalizing s with
  | zero => exact absurd hn (Nat.not_lt_zero _)
  | succ n ih =>
    have hdrop := h.drop_pos hok.1
    have hpos : s.pos + (s.buffer.drop s.bufferCursor).length = s.bufferPos + s.buffer.length := by
      rw [pos, length_drop]
      have := hok.1
      omega
    rw [advanceUntilLoop]
    generalize hleft : s.buffer.drop s.bufferCursor = left at *
    cases hfind : left.find? check with
    | some c =>
      have hlt : left.findIdx check < left.length :=
        findIdx_lt_length.mpr ⟨c, mem_of_find?_eq_some hfind, find?_some hfind⟩
      have hreader : Reader.advanceUntil (textOf pieces.flatten) check s.pos
          = (some c, s.pos + left.findIdx check + 1) := by
        unfold Reader.advanceUntil
        rw [hdrop, find?_append, hfind, Option.some_or, findIdx_append, if_pos hlt]
      rw [hreader]
      refine ⟨_, rfl, h.setCursor (.inl ?_), ?_⟩
      · have hlength : left.length = s.buffer.length - s.bufferCursor := by
          rw [← hleft, length_drop]
        omega
      · show s.bufferPos + (s.bufferCursor + left.findIdx check + 1) = _
        rw [pos]
        omega
    | none =>
      have hany : left.any check = false := by
        rw [any_eq_false]
        exact find?_eq_none.mp hfind
      have hread := hok.2.resolve_left (by rw [hleft, hany]; exact Bool.false_ne_true)
      obtain ⟨t, hblock, ht, hpost, hcursor, hnil⟩ := readBlock_spec hne hends h.core h.front hread
      simp only [hblock, Option.bind_eq_bind, Option.bind_some]
      by_cases hbuffer : t.buffer = []
      · have hend := hnil hbuffer
        have hrest : (textOf pieces.flatten).drop s.pos = left := by
          rw [hdrop, drop_of_length_le hend, append_nil]
        have hmax : max s.pos (textOf pieces.flatten).length = s.bufferPos + s.buffer.length := by
          have hlength := congrArg List.length hrest
          rw [length_drop] at hlength
          omega
        have hreader : Reader.advanceUntil (textOf pieces.flatten) check s.pos
            = (none, s.bufferPos + s.buffer.length + 1) := by
          unfold Reader.advanceUntil
          rw [hrest, hfind, hmax]
        rw [hreader, decide_eq_false (not_not.mpr hbuffer), if_neg Bool.false_ne_true]
        refine ⟨_, rfl, ht.setCursor (.inr ?_), ?_⟩
        · rw [hpost]
          exact hend.trans (Nat.le_add_right _ _)
        · show t.bufferPos + (t.bufferCursor + 1) = _
          rw [hpost, hcursor]
      · have hlt : s.bufferPos + s.buffer.length < (textOf pieces.flatten).length := by
          refine Nat.lt_of_not_le fun hend => hbuffer ?_
          have hprefix := ht.buffer
          rwa [hpost, drop_of_length_le hend, prefix_nil] at hprefix
        have hlen := length_pos_of_ne_nil hbuffer
        have hpos' : t.pos = s.pos + left.length := by rw [pos, hpost, hcursor, hpos, Nat.add_zero]
        rw [decide_eq_true hbuffer, if_pos rfl, Reader.advanceUntil_of_find?_eq_none
          (by rw [hpos]; exact hdrop) hfind (by rwa [hpos]), ← hpos']
        refine ih ht ⟨by rw [hcursor]; exact Nat.zero_le _, .inr (.inl ?_)⟩ (by omega)
        exact ht.reached.resolve_right fun hend => by omega

/-- **`AdvanceUntil`.** -/
theorem advanceUntil_spec {check : ℕ → Bool} (h : Holds pieces s)
    (hok : Admissible pieces s (.advanceUntil check)) :
    ∃ t, s.advanceUntil check
        = some ((Reader.advanceUntil (textOf pieces.flatten) check s.pos).1, t) ∧
      Holds pieces t ∧ t.pos = (Reader.advanceUntil (textOf pieces.flatten) check s.pos).2 := by
  unfold advanceUntil
  rw [if_pos hok.1, h.core.dataLength]
  refine advanceUntilLoop_spec hne hends h hok ?_
  have hlength := length_textOf_le pieces.flatten
  omega

/-- **An operation of the stream is one of the reader.** -/
theorem step_refines {op : Op} (h : Holds pieces s) (hok : Admissible pieces s op) :
    ∃ t, s.step op = some ((Reader.step (textOf pieces.flatten) s.pos op).1, t) ∧ Holds pieces t ∧
      t.pos = (Reader.step (textOf pieces.flatten) s.pos op).2 := by
  cases op with
  | seek position =>
    obtain ⟨t, hrun, ht⟩ := seek_spec hne hends h hok
    exact ⟨t, by rw [step, hrun]; rfl, ht⟩
  | peek =>
    obtain ⟨t, hrun, ht, hpos, -⟩ := peek_spec hne hends h hok
    exact ⟨t, by rw [step, hrun]; rfl, ht, hpos⟩
  | advance =>
    obtain ⟨t, hrun, ht⟩ := advance_spec hne hends h hok
    exact ⟨t, by rw [step, hrun]; rfl, ht⟩
  | advanceUntil check =>
    obtain ⟨t, hrun, ht⟩ := advanceUntil_spec hne hends h hok
    exact ⟨t, by rw [step, hrun]; rfl, ht⟩
  | back =>
    obtain ⟨t, hrun, ht⟩ := back_spec hne hends h hok
    exact ⟨t, by rw [step, hrun]; rfl, ht⟩

omit hne hends in
/-- Every operation of a run is admissible when it is reached. -/
def AdmissibleRun (pieces : List (List UInt8)) : Utf8Stream → List Op → Prop
  | _, [] => True
  | s, op :: ops => Admissible pieces s op ∧ ∀ r, s.step op = some r → AdmissibleRun pieces r.2 ops

/-- **A run of the stream is one of the reader.** -/
theorem run_of_holds {ops : List Op} (h : Holds pieces s) (hok : AdmissibleRun pieces s ops) :
    ∃ t, s.run ops = some ((Reader.run (textOf pieces.flatten) s.pos ops).1, t) ∧ Holds pieces t ∧
      t.pos = (Reader.run (textOf pieces.flatten) s.pos ops).2 := by
  induction ops generalizing s with
  | nil => exact ⟨s, rfl, h, rfl⟩
  | cons op ops ih =>
    obtain ⟨t, hstep, ht, hpos⟩ := step_refines hne hends h hok.1
    obtain ⟨u, hrun, hu, hposu⟩ := ih ht (hok.2 _ hstep)
    rw [hpos] at hrun hposu
    refine ⟨u, ?_, hu, hposu⟩
    rw [run, hstep, Option.bind_eq_bind, Option.bind_some]
    simp only [hrun]
    rfl

end Operations

/-! ## Admissible runs can be checked -/

instance (text : List ℕ) (position : ℕ) : Decidable (BetweenHalves text position) :=
  match hdrop : text.drop (position - 1) with
  | [] => isFalse fun ⟨_, _, _, _, h, _⟩ => nomatch hdrop.symm.trans h
  | [_] => isFalse fun ⟨_, _, _, _, h, _⟩ => nomatch hdrop.symm.trans h
  | lead :: trail :: rest =>
    decidable_of_iff (0 < position ∧ (0xD800 ≤ lead ∧ lead ≤ 0xDBFF) ∧
        0xDC00 ≤ trail ∧ trail ≤ 0xDFFF)
      ⟨fun ⟨hpos, hpair⟩ => ⟨lead, trail, rest, hpos, hdrop, hpair⟩,
        fun ⟨_, _, _, hpos, h, hpair⟩ => by cases hdrop.symm.trans h; exact ⟨hpos, hpair⟩⟩

instance (s : Utf8Stream) (position : ℕ) : Decidable (AsciiSound s position) :=
  inferInstanceAs (Decidable (∀ r ∈ _, _))

variable (pieces : List (List UInt8))

instance (s : Utf8Stream) (position : ℕ) : Decidable (Readable pieces s position) :=
  inferInstanceAs (Decidable (_ ∨ ¬ _ ∧ (_ ∨ _) ∧ _))

instance : Decidable (EndsVisibly pieces) :=
  inferInstanceAs (Decidable (_ ∨ _))

instance (s : Utf8Stream) (op : Op) : Decidable (Admissible pieces s op) :=
  match op with
  | .seek _ => inferInstanceAs (Decidable (_ ∨ _))
  | .peek | .advance => inferInstanceAs (Decidable (_ ∨ _))
  | .advanceUntil _ => inferInstanceAs (Decidable (_ ∧ (_ ∨ _)))
  | .back => inferInstanceAs (Decidable (_ ∨ _ ∧ _))

instance decidableAdmissibleRun (pieces : List (List UInt8)) :
    ∀ s ops, Decidable (AdmissibleRun pieces s ops)
  | _, [] => isTrue trivial
  | s, op :: ops =>
    match hstep : s.step op with
    | none => decidable_of_iff (Admissible pieces s op)
        ⟨fun h => ⟨h, fun r hr => nomatch hstep.symm.trans hr⟩, And.left⟩
    | some r =>
      have := decidableAdmissibleRun pieces r.2 ops
      decidable_of_iff (Admissible pieces s op ∧ AdmissibleRun pieces r.2 ops)
        (and_congr_right fun _ => ⟨fun h r' hr => by
          obtain rfl := Option.some.inj (hstep.symm.trans hr); exact h, fun h => h r hstep⟩)

/-- **The chunked stream refines random access.** However the data is cut into
pieces, a run of admissible operations returns what the reader of the decoded
text returns: at each position the code unit there, and the end of the input
exactly behind the last. -/
theorem run_refines_reader (hne : ∀ piece ∈ pieces, piece ≠ [])
    (hends : EndsVisibly pieces) (ops : List Op)
    (hok : AdmissibleRun pieces (create pieces) ops) :
    ∃ t, (create pieces).run ops
      = some ((Reader.run (textOf pieces.flatten) 0 ops).1, t) ∧ t.pos =
        (Reader.run (textOf pieces.flatten) 0 ops).2 := by
  obtain ⟨t, hrun, -, hpos⟩ := run_of_holds hne hends (create_holds hne) hok
  exact ⟨t, hrun, hpos⟩

/-- A byte order mark and characters of one, two and four bytes, cut within
three of them; the reader goes forward, back and elsewhere. -/
theorem run_refines_reader_cut :
    ∃ t, (create [[0xEF, 0xBB], [0xBF, 0x41, 0xC3], [0xA9, 0xF0, 0x9F], [0x98, 0x80, 0x42]]).run
        [.advance, .peek, .advance, .back, .advanceUntil (· == 0x42), .advance, .seek 1, .peek]
      = some ([some 0x41, some 0xE9, some 0xE9, some 0x42, none, some 0xE9], t) := by
  obtain ⟨t, hrun, -⟩ := run_refines_reader
    [[0xEF, 0xBB], [0xBF, 0x41, 0xC3], [0xA9, 0xF0, 0x9F], [0x98, 0x80, 0x42]]
    (by decide) (by decide +kernel)
    [.advance, .peek, .advance, .back, .advanceUntil (· == 0x42), .advance, .seek 1, .peek]
    (by decide +kernel)
  refine ⟨t, hrun.trans ?_⟩
  rw [show (Reader.run (textOf _) 0 _).1
    = [some 0x41, some 0xE9, some 0xE9, some 0x42, none, some 0xE9] by decide +kernel]

/-- **Behind the end of truncated data** the stream is not at its end: after
the replacement character and the end of the input it returns the replacement
character once more. -/
theorem run_truncated :
    (∀ piece ∈ [[(0xE1 : UInt8)]], piece ≠ []) ∧
      ((create [[0xE1]]).run [.advance, .advance, .advance]).map Prod.fst
        ≠ some (Reader.run (textOf [[(0xE1 : UInt8)]].flatten) 0
          [.advance, .advance, .advance]).1 := by
  decide +kernel

end Utf8Stream
