import Mathlib
import V8Speak.Utf8Position

/-!
# Blocks of the chunked stream

`ReadBlock` fills the buffer of a stream with code units from a position on:
it searches the position among the chunks, fetches chunks until it is there,
and copies. This file proves that the buffer then has a part of the text of
the whole data, starting at the position, and nothing only behind the end
(`readBlock_spec`), however the embedder cuts the data into pieces.

The invariant is that the chunks are the pieces, each with the position that
decoding everything before it leads to (`Core`). Reading on from the last block
always works. To go elsewhere the stream searches, and there it has three weak
points (`Searchable`). A position between the halves of a surrogate pair is
not found. Behind the end of a text that ends with an incomplete character it
does not notice the end. And it takes a chunk with as many code units as bytes
for ASCII, which is wrong if the chunk starts within a character whose lead
byte has left no bits. For the same reason data must not end with such a byte
(`EndsVisibly`).
-/

open List Option StreamPosition Nat

namespace Utf8Stream

/-! ## The pieces of the data -/

section Pieces

variable (pieces : List (List UInt8))

/-- Where a piece starts. -/
def offset (i : ℕ) : ℕ := (pieces.take i).flatten.length

variable {pieces} {piece : List UInt8} {i : ℕ}

theorem offset_succ (h : pieces[i]? = some piece) :
    offset pieces (i + 1) = offset pieces i + piece.length := by
  obtain ⟨hlt, rfl⟩ := List.getElem?_eq_some_iff.mp h
  rw [offset, offset, take_succ_eq_append_getElem hlt, flatten_append, length_append]
  simp

theorem offset_of_le (h : pieces.length ≤ i) : offset pieces i = pieces.flatten.length := by
  rw [offset, take_of_length_le h]

theorem flatten_take_append_drop (pieces : List (List UInt8)) (i : ℕ) :
    (pieces.take i).flatten ++ (pieces.drop i).flatten = pieces.flatten := by
  rw [← flatten_append, take_append_drop]

theorem drop_offset (pieces : List (List UInt8)) (i : ℕ) :
    pieces.flatten.drop (offset pieces i) = (pieces.drop i).flatten := by
  rw [← flatten_take_append_drop pieces i]
  exact drop_left

theorem offset_le (pieces : List (List UInt8)) (i : ℕ) :
    offset pieces i ≤ pieces.flatten.length := by
  rw [← flatten_take_append_drop pieces i, length_append]
  exact Nat.le_add_right _ _

theorem drop_offset_eq (h : pieces[i]? = some piece) : pieces.flatten.drop (offset pieces i)
      = piece ++ pieces.flatten.drop (offset pieces (i + 1)) := by
  obtain ⟨hlt, rfl⟩ := List.getElem?_eq_some_iff.mp h
  rw [drop_offset, drop_offset, drop_eq_getElem_cons hlt, flatten_cons]

end Pieces

/-! ## The invariant -/

section Invariant

variable {pieces : List (List UInt8)}

/-- A position in a piece of the data, or at the end of the data with the
replacement of an incomplete character still to come or not. -/
def Located (pieces : List (List UInt8)) (i : ℕ) (pos : StreamPosition) : Prop :=
  (∃ piece, pieces[i]? = some piece ∧ offset pieces i ≤ pos.bytes ∧
      pos.bytes < offset pieces (i + 1) ∧ IsAt pieces.flatten pos) ∨
    i = pieces.length ∧ (pos = posAt pieces.flatten pieces.flatten.length ∨
      pos = ⟨pieces.flatten.length, (textOf pieces.flatten).length, .start⟩)

/-- **The invariant of the chunks**: they are pieces of the data, each with the
position at its start; the current position is in the current chunk; and if
that has not been fetched yet, the position is at its start. -/
structure Core (pieces : List (List UInt8)) (s : Utf8Stream) : Prop where
  length : s.chunks.length ≤ pieces.length + 1
  source : s.source = pieces.drop s.chunks.length
  chunk : ∀ i c, s.chunks[i]? = some c →
    c.data = pieces[i]?.getD [] ∧ c.start = posAt pieces.flatten (offset pieces i)
  number : s.chunkNo ≤ s.chunks.length
  current : Located pieces s.chunkNo s.current
  fresh : s.chunkNo = s.chunks.length →
    s.current = posAt pieces.flatten (offset pieces s.chunkNo)

/-- If the next chunk has been fetched and the current position is at the start
of the text, then there are code units in between. -/
def Front (s : Utf8Stream) : Prop :=
  ∀ c, s.chunks[s.chunkNo + 1]? = some c → s.current.chars = 0 → 0 < c.start.chars

variable {s : Utf8Stream} {i : ℕ} {piece bytes : List UInt8} {pos : StreamPosition}

theorem points_of_isAt (hpiece : pieces[i]? = some piece) (hlower : offset pieces i ≤ pos.bytes)
    (hupper : pos.bytes < offset pieces (i + 1)) (hat : IsAt pieces.flatten pos) :
    Points pieces.flatten (pieces.flatten.drop (offset pieces (i + 1)))
      (piece.drop (pos.bytes - offset pieces i)) pos ∧
      piece.drop (pos.bytes - offset pieces i) ≠ [] := by
  have hsucc := offset_succ hpiece
  have hlen : pos.bytes - offset pieces i < piece.length := by omega
  have hne : piece.drop (pos.bytes - offset pieces i) ≠ [] :=
    ne_nil_of_length_pos (by rw [length_drop]; omega)
  refine ⟨⟨?_, hupper.le.trans (offset_le _ _), hat, fun h => absurd h hne⟩, hne⟩
  have hdrop := drop_offset_eq hpiece
  have hbytes : pos.bytes = offset pieces i + (pos.bytes - offset pieces i) := by omega
  conv_lhs => rw [hbytes, ← drop_drop, hdrop]
  exact drop_append_of_le_length hlen.le

variable (hne : ∀ piece ∈ pieces, piece ≠ [])
include hne

theorem offset_lt_succ (hpiece : pieces[i]? = some piece) :
    offset pieces i < offset pieces (i + 1) := by
  have hpos := length_pos_of_ne_nil (hne piece (mem_of_getElem? hpiece))
  rw [offset_succ hpiece]
  omega

/-- The start of a piece. -/
theorem located_posAt_offset (hi : i ≤ pieces.length) :
    Located pieces i (posAt pieces.flatten (offset pieces i)) := by
  have hbytes : (posAt pieces.flatten (offset pieces i)).bytes = offset pieces i :=
    posAt_bytes (offset_le _ _)
  obtain hlt | rfl := Nat.lt_or_eq_of_le hi
  · have hpiece : pieces[i]? = some pieces[i] := getElem?_eq_getElem hlt
    refine .inl ⟨_, hpiece, hbytes.ge, by rw [hbytes]; exact offset_lt_succ hne hpiece, .inl ?_⟩
    rw [hbytes]
  · exact .inr ⟨rfl, .inl (by rw [offset_of_le le_rfl])⟩

/-- **Where the loops over a chunk arrive**: in the same piece, or at the start
of the next one. -/
theorem located_arrive (hpiece : pieces[i]? = some piece)
    (h : Points pieces.flatten (pieces.flatten.drop (offset pieces (i + 1))) bytes pos)
    (hlen : bytes.length ≤ piece.length) :
    pos = ⟨offset pieces i + (piece.length - bytes.length), pos.chars, pos.decoder⟩ ∧
      Located pieces (i + if bytes = [] then 1 else 0) pos ∧
      (bytes = [] → pos = posAt pieces.flatten (offset pieces (i + 1))) := by
  have hsucc := offset_succ hpiece
  have hle := offset_le pieces (i + 1)
  have hcount := h.bytes_eq
  rw [length_drop] at hcount
  have hbytes : pos.bytes = offset pieces i + (piece.length - bytes.length) := by omega
  have hend : bytes = [] → pos = posAt pieces.flatten (offset pieces (i + 1)) := by
    intro hnil
    have hpos := h.exact hnil
    rw [hnil, length_nil, Nat.sub_zero, ← hsucc] at hbytes
    rwa [hbytes] at hpos
  refine ⟨StreamPosition.ext hbytes rfl rfl, ?_, hend⟩
  split
  · next hnil =>
    rw [hend hnil]
    exact located_posAt_offset hne (List.getElem?_eq_some_iff.mp hpiece).1
  · next hcons =>
    have hpos := length_pos_of_ne_nil hcons
    rw [Nat.add_zero]
    exact .inl ⟨piece, hpiece, by omega, by omega, h.isAt⟩

/-- A new stream. -/
theorem create_core : Core pieces (create pieces) where
  length := Nat.zero_le _
  source := rfl
  chunk := nofun
  number := le_rfl
  current := located_posAt_offset hne (Nat.zero_le _)
  fresh _ := rfl

variable (h : Core pieces s)
include h

omit hne in
theorem Core.chunkNo_le : s.chunkNo ≤ pieces.length := by
  obtain ⟨piece, hpiece, -⟩ | ⟨hlast, -⟩ := h.current
  · exact (List.getElem?_eq_some_iff.mp hpiece).1.le
  · exact hlast.le

variable {c : Chunk}

omit hne in
theorem Core.data_of_lt (hc : s.chunks[i]? = some c) (hpiece : pieces[i]? = some piece) :
    c = ⟨piece, posAt pieces.flatten (offset pieces i)⟩ := by
  obtain ⟨hdata, hstart⟩ := h.chunk i c hc
  rw [hpiece, getD_some] at hdata
  rw [← hdata, ← hstart]

omit hne in
theorem fetchChunk_core (hno : s.chunkNo = s.chunks.length) : Core pieces s.fetchChunk.2 := by
  have hle := h.chunkNo_le
  rw [hno] at hle
  refine ⟨?_, ?_, ?_, ?_, h.current, ?_⟩
  · show (s.chunks ++ [_]).length ≤ _
    rw [length_append, length_singleton]
    exact succ_le_succ hle
  · show s.source.tail = pieces.drop (s.chunks ++ [_]).length
    rw [h.source, tail_drop, length_append, length_singleton]
  · intro i c hc
    replace hc : (s.chunks ++ [_])[i]? = some c := hc
    obtain hi | hi := Nat.lt_or_ge i s.chunks.length
    · rw [getElem?_append_left hi] at hc
      exact h.chunk i c hc
    · rw [getElem?_append_right hi, getElem?_singleton] at hc
      split at hc
      · obtain rfl : i = s.chunks.length := by omega
        cases hc
        refine ⟨?_, by rw [h.fresh hno, hno]⟩
        rw [h.source, headD_eq_head?_getD, head?_drop]
      · cases hc
  · show s.chunkNo ≤ (s.chunks ++ [_]).length
    rw [length_append]
    exact h.number.trans (Nat.le_add_right _ _)
  · intro heq
    replace heq : s.chunkNo = (s.chunks ++ [_]).length := heq
    rw [length_append, hno] at heq
    exact absurd heq (Nat.ne_of_lt (lt_succ_self _))

omit hne in
theorem fetchChunk_fst (hno : s.chunkNo = s.chunks.length) :
    s.fetchChunk.1 = decide (pieces[s.chunkNo]?.getD [] ≠ []) := by
  show decide (s.source.headD [] ≠ []) = _
  rw [h.source, headD_eq_head?_getD, head?_drop, hno]

/-- **A loop over a chunk keeps the invariant.** -/
theorem Core.arrive (hc : s.chunks[s.chunkNo]? = some c) (hpiece : pieces[s.chunkNo]? = some piece)
    (hpoints : Points pieces.flatten (pieces.flatten.drop (offset pieces (s.chunkNo + 1))) bytes pos)
    (hlen : bytes.length ≤ piece.length) :
    ⟨c.start.bytes + (c.data.length - bytes.length), pos.chars, pos.decoder⟩ = pos ∧
      Core pieces { s with current := pos, chunkNo := s.chunkNo + if bytes = [] then 1 else 0 } ∧
      (bytes = [] → pos = posAt pieces.flatten (offset pieces (s.chunkNo + 1))) := by
  obtain ⟨hpos, hlocated, hend⟩ := located_arrive hne hpiece hpoints hlen
  have hlt : s.chunkNo < s.chunks.length := (List.getElem?_eq_some_iff.mp hc).1
  refine ⟨?_, ⟨h.length, h.source, h.chunk, ?_, hlocated, fun hfresh => ?_⟩, hend⟩
  · rw [h.data_of_lt hc hpiece]
    simp only [posAt_bytes (offset_le pieces _)]
    exact hpos.symm
  · grind
  · replace hfresh : s.chunkNo + (if bytes = [] then 1 else 0) = s.chunks.length := hfresh
    split at hfresh
    · next hnil => rw [if_pos hnil, hend hnil]
    · omega

variable {position : ℕ}

/-- **`SkipToPosition`** from the start of a chunk finds the position, or comes
to the end of the chunk before it. -/
theorem skipToPosition_spec (hc : s.chunks[s.chunkNo]? = some c)
    (hpiece : pieces[s.chunkNo]? = some piece) (hstart : s.current = c.start)
    (hle : s.current.chars ≤ position) (hhalves : ¬ BetweenHalves (textOf pieces.flatten) position) :
    ∃ pos no, s.skipToPosition position
        = some (decide (pos.chars = position), { s with current := pos, chunkNo := no }) ∧
      Core pieces { s with current := pos, chunkNo := no } ∧
      (pos.chars = position ∧ no = s.chunkNo ∨ pos.chars ≤ position ∧ no = s.chunkNo + 1 ∧
          pos = posAt pieces.flatten (offset pieces (s.chunkNo + 1))) := by
  unfold skipToPosition
  split
  · next heq =>
    exact ⟨s.current, s.chunkNo, by rw [decide_eq_true heq], h, .inl ⟨heq, rfl⟩⟩
  · next hlt =>
    have hchunk := h.data_of_lt hc hpiece
    have hat : s.current = posAt pieces.flatten (offset pieces s.chunkNo) := by rw [hstart, hchunk]
    have hbytes : s.current.bytes = offset pieces s.chunkNo := by
      rw [hat]
      exact posAt_bytes (offset_le _ _)
    obtain ⟨hpoints, -⟩ := points_of_isAt hpiece hbytes.ge
      (hbytes.trans_lt (offset_lt_succ hne hpiece)) (.inl (by rw [hbytes]; exact hat))
    obtain ⟨d₁, bytes₁, chars₁, bytes', pos', hfirst, hloop, hpoints', hlen, hend⟩ :=
      skip_spec hpoints (Nat.lt_of_le_of_ne hle hlt) hhalves
    obtain ⟨hpos, hcore, harrive⟩ := h.arrive hne hc hpiece hpoints'
      (hlen.trans (drop_sublist _ _).length_le)
    have hdrop : c.data.drop (s.current.bytes - c.start.bytes)
        = piece.drop (s.current.bytes - offset pieces s.chunkNo) := by
      rw [hchunk, posAt_bytes (offset_le pieces _)]
    refine ⟨pos', s.chunkNo + if bytes' = [] then 1 else 0, ?_, hcore, ?_⟩
    · rw [hc, Option.bind_eq_bind, Option.bind_some, hdrop, ← hstart, hfirst]
      simp only [hloop]
      rw [hstart, hpos]
      rfl
    · by_cases hnil : bytes' = []
      · grind
      · rw [if_neg hnil]
        exact .inl ⟨hend.resolve_right fun hend => hnil hend.1, rfl⟩

variable {n : ℕ}

omit h in
omit hne in
/-- The search among the chunks finds the last one that starts at or before
the position. -/
theorem chunkBefore_spec (chunks : List Chunk) (position : ℕ)
    (hzero : ∀ c, chunks[0]? = some c → c.start.chars ≤ position) (hn : n < chunks.length) :
    ∃ k c, chunkBefore chunks position n = some k ∧ chunks[k]? = some c ∧
      c.start.chars ≤ position ∧ k ≤ n ∧
      ∀ c', k < n → chunks[k + 1]? = some c' → position < c'.start.chars := by
  induction n with
  | zero =>
    have hc : chunks[0]? = some chunks[0] := getElem?_eq_getElem hn
    exact ⟨0, _, rfl, hc, hzero _ hc, le_rfl, fun _ hlt => absurd hlt (Nat.lt_irrefl _)⟩
  | succ n ih =>
    have hc : chunks[n + 1]? = some chunks[n + 1] := getElem?_eq_getElem hn
    have hstep : chunkBefore chunks position (n + 1)
        = if chunks[n + 1].start.chars > position then chunkBefore chunks position n
          else some (n + 1) := by
      rw [chunkBefore, hc]
      rfl
    rw [hstep]
    split
    · next hgt =>
      obtain ⟨k, c, hrun, hk, hle, hkn, hnext⟩ := ih (lt_of_succ_lt hn)
      refine ⟨k, c, hrun, hk, hle, le_succ_of_le hkn, fun c' _ hc' => ?_⟩
      obtain rfl | hlt := Nat.eq_or_lt_of_le hkn
      · grind
      · exact hnext c' hlt hc'
    · next hle =>
      exact ⟨n + 1, _, rfl, hc, Nat.le_of_not_lt hle, le_rfl,
        fun _ hlt => absurd hlt (Nat.lt_irrefl _)⟩

omit h in
/-- Where a search ends: at the position, or before it with all data read. -/
def Landed (pieces : List (List UInt8)) (s : Utf8Stream) (position : ℕ) : Prop :=
  s.current.chars = position ∨ s.chunkNo = pieces.length ∧ s.chunks.length = pieces.length + 1 ∧
      s.current = posAt pieces.flatten pieces.flatten.length ∧ s.current.chars < position

omit h in
/-- The buffers of two streams are the same. -/
def SameBuffer (s t : Utf8Stream) : Prop :=
  t.buffer = s.buffer ∧ t.bufferPos = s.bufferPos ∧ t.bufferCursor = s.bufferCursor

omit h in
omit hne in
theorem front_of_last (h : s.chunks.length ≤ s.chunkNo + 1) : Front s := fun c hc => by
  rw [getElem?_eq_none h] at hc
  cases hc

omit h in
/-- **The loop of `SearchPosition`.** -/
theorem searchLoop_spec {n position : ℕ} (h : Core pieces s) (hno : s.chunkNo = s.chunks.length)
    (hlt : s.current.chars < position) (hhalves : ¬ BetweenHalves (textOf pieces.flatten) position)
    (hn : s.source.length < n) :
    ∃ t, searchLoop position n s = some t ∧ Core pieces t ∧ Front t ∧ SameBuffer s t ∧
      Landed pieces t position := by
  induction n generalizing s with
  | zero => exact absurd hn (Nat.not_lt_zero _)
  | succ n ih =>
    have hcore := fetchChunk_core h hno
    have hmore := fetchChunk_fst h hno
    have hlength : s.fetchChunk.2.chunks.length = s.chunks.length + 1 := length_append ..
    have hstep : searchLoop position (n + 1) s = if s.fetchChunk.1 then
        (s.fetchChunk.2.skipToPosition position).bind fun r =>
          if r.1 then some r.2 else searchLoop position n r.2
      else some s.fetchChunk.2 := rfl
    rw [hstep, hmore]
    obtain hi | hi := Nat.lt_or_ge s.chunkNo pieces.length
    · have hpiece : pieces[s.chunkNo]? = some pieces[s.chunkNo] := getElem?_eq_getElem hi
      have hc : s.fetchChunk.2.chunks[s.fetchChunk.2.chunkNo]? =
          some ⟨s.source.headD [], s.current⟩ := by
        show (s.chunks ++ [_])[s.chunkNo]? = _
        rw [hno, getElem?_concat_length]
      obtain ⟨pos, no, hskip, hcore', hend⟩ :=
        skipToPosition_spec hne hcore hc hpiece rfl hlt.le hhalves
      rw [hpiece, getD_some, decide_eq_true (hne _ (mem_of_getElem? hpiece)),
        if_pos rfl, hskip, bind_some]
      by_cases hfound : pos.chars = position
      · rw [decide_eq_true hfound, if_pos rfl]
        refine ⟨_, rfl, hcore', front_of_last ?_, ⟨rfl, rfl, rfl⟩, .inl hfound⟩
        rw [hlength, ← hno]
        exact hend.elim (fun hend => hend.2 ▸ le_rfl) fun hend => hend.2.1 ▸ le_succ _
      · rw [decide_eq_false hfound, if_neg Bool.false_ne_true]
        obtain ⟨hle, hno', -⟩ := hend.resolve_left fun hend => hfound hend.1
        obtain ⟨t, hrun, hcoret, hfront, hbuffer, hlanded⟩ := ih hcore'
          (by rw [hno', hlength, ← hno]; rfl) (Nat.lt_of_le_of_ne hle hfound)
          (by
            show s.source.tail.length < n
            rw [h.source, ← hno, drop_eq_getElem_cons hi, length_cons] at hn
            rw [h.source, ← hno, drop_eq_getElem_cons hi, tail_cons]
            exact lt_of_succ_lt_succ hn)
        exact ⟨t, hrun, hcoret, hfront, hbuffer, hlanded⟩
    · have hlast : s.chunkNo = pieces.length := Nat.le_antisymm h.chunkNo_le hi
      rw [hlast, getElem?_eq_none le_rfl, getD_none, decide_eq_false (by simp),
        if_neg Bool.false_ne_true]
      refine ⟨_, rfl, hcore, front_of_last ?_, ⟨rfl, rfl, rfl⟩, .inr ⟨hlast, ?_, ?_, hlt⟩⟩
      · rw [hlength, ← hno]
        rfl
      · rw [hlength, ← hno, hlast]
      · show s.current = _
        rw [h.fresh hno, hlast, offset_of_le le_rfl]

omit h in
/-- The chunk around a position, if the stream takes it for ASCII, does not
start within a character. -/
def AsciiSound (s : Utf8Stream) (position : ℕ) : Prop :=
  ∀ r ∈ s.chunks.zip s.chunks.tail, r.1.start.chars ≤ position → position < r.2.start.chars →
    r.1.start.decoder.incompleteChar = 0 →
    r.2.start.bytes - r.1.start.bytes = r.2.start.chars - r.1.start.chars →
    r.1.start.decoder = .start

omit h in
omit hne in
theorem mem_zip_tail {chunks : List Chunk} {c c' : Chunk} (hc : chunks[i]? = some c)
    (hc' : chunks[i + 1]? = some c') : (c, c') ∈ chunks.zip chunks.tail := by
  refine mem_of_getElem? (getElem?_zip_eq_some.mpr ⟨hc, ?_⟩)
  rw [getElem?_tail]
  exact hc'

/-- Only the last chunk is empty. -/
theorem Core.last (hc : s.chunks[i]? = some c) (hempty : c.data = []) : i = pieces.length := by
  have hlt := (List.getElem?_eq_some_iff.mp hc).1
  have hdata := (h.chunk i c hc).1
  refine Nat.le_antisymm (le_of_lt_succ (hlt.trans_le h.length)) (Nat.le_of_not_lt fun hi => ?_)
  rw [getElem?_eq_getElem hi, getD_some, hempty] at hdata
  exact hne _ (getElem_mem hi) hdata.symm

/-- At the start of a chunk. -/
theorem Core.atStart (hc : s.chunks[i]? = some c) :
    Core pieces { s with chunkNo := i, current := c.start } := by
  have hi : i < s.chunks.length := (List.getElem?_eq_some_iff.mp hc).1
  refine ⟨h.length, h.source, h.chunk, hi.le, ?_, fun hfresh => absurd hfresh hi.ne⟩
  rw [(h.chunk i c hc).2]
  exact located_posAt_offset hne (le_of_lt_succ (hi.trans_le h.length))

omit hne in
/-- **The shortcut for ASCII** goes to the position. -/
theorem Core.ascii {c c' : Chunk} (hc : s.chunks[i]? = some c)
    (hc' : s.chunks[i + 1]? = some c') (hpiece : pieces[i]? = some piece)
    (hstart : c.start.decoder = .start)
    (hcount : c'.start.bytes - c.start.bytes = c'.start.chars - c.start.chars) {skip : ℕ}
    (hskip : skip < c'.start.chars - c.start.chars) :
    Core pieces { s with
      chunkNo := i, current := ⟨c.start.bytes + skip, c.start.chars + skip, .start⟩ } := by
  have hi : i < s.chunks.length := (List.getElem?_eq_some_iff.mp hc).1
  have hat := (h.chunk i c hc).2
  have hat' := (h.chunk (i + 1) c' hc').2
  have hsucc := offset_succ hpiece
  have hle := offset_le pieces (i + 1)
  have hbytes : c.start.bytes = offset pieces i := by rw [hat, posAt_bytes (offset_le _ _)]
  have hbytes' : c'.start.bytes = offset pieces i + piece.length := by
    rw [hat', posAt_bytes (offset_le _ _), hsucc]
  refine ⟨h.length, h.source, h.chunk, hi.le, .inl ⟨piece, hpiece, ?_, ?_, ?_⟩,
    fun hfresh => absurd hfresh hi.ne⟩
  · exact hbytes.ge.trans (Nat.le_add_right _ _)
  · grind
  · rw [hbytes, hat]
    refine isAt_of_count (n := piece.length) (by omega) (by rw [← hat, hstart]) ?_ (by omega)
    rw [← hsucc, ← hat', ← hat]
    omega

/-- **`SearchPosition` among the chunks.** -/
theorem searchChunks_spec (hchunks : s.chunks ≠ [])
    (hhalves : ¬ BetweenHalves (textOf pieces.flatten) position) (hascii : AsciiSound s position) :
    ∃ t, s.searchChunks position = some t ∧ Core pieces t ∧ Front t ∧ SameBuffer s t ∧
      Landed pieces t position := by
  have hpos := length_pos_of_ne_nil hchunks
  obtain ⟨k, c, hbefore, hc, hle, hk, hnext⟩ :=
    chunkBefore_spec s.chunks position (n := s.chunks.length - 1)
      (fun c hc => by rw [(h.chunk 0 c hc).2]; exact Nat.zero_le _) (by omega)
  have hcore := h.atStart hne hc
  have hdata := (h.chunk k c hc).1
  have hstep : s.searchChunks position =
      if c.data = [] then some { s with chunkNo := k, current := c.start }
      else s.chunks[k + 1]?.elim
        ((skipToPosition { s with chunkNo := k, current := c.start } position).bind
          fun r => if r.1 then some r.2 else searchLoop position (r.2.source.length + 1) r.2)
        fun next =>
          if c.start.decoder.incompleteChar = 0 ∧
              next.start.bytes - c.start.bytes = next.start.chars - c.start.chars then
            some { s with chunkNo := k, current := ⟨c.start.bytes + (position - c.start.chars),
              c.start.chars + (position - c.start.chars), .start⟩ }
          else (skipToPosition { s with chunkNo := k, current := c.start } position).bind
            fun r => some r.2 := by
    unfold searchChunks
    simp only [hbefore, hc, Option.bind_eq_bind, Option.bind_some]
    cases s.chunks[k + 1]? <;> rfl
  rw [hstep]
  by_cases hempty : c.data = []
  · have hlast := h.last hne hc hempty
    have hlen := h.length
    rw [if_pos hempty]
    refine ⟨_, rfl, hcore, front_of_last (by simp only; omega), ⟨rfl, rfl, rfl⟩,
      (Nat.eq_or_lt_of_le hle).imp id fun hlt => ⟨hlast, by simp only; omega, ?_, hlt⟩⟩
    rw [(h.chunk k c hc).2, hlast, offset_of_le le_rfl]
  · obtain ⟨piece, hpiece⟩ : ∃ piece, pieces[k]? = some piece := by
      cases hpiece : pieces[k]? with
      | none => exact absurd (hdata.trans (by rw [hpiece, getD_none])) hempty
      | some piece => exact ⟨piece, rfl⟩
    rw [if_neg hempty]
    obtain ⟨pos, no, hskip, hcore', hend⟩ := skipToPosition_spec hne hcore hc hpiece rfl hle hhalves
    simp only at hend
    cases hc' : s.chunks[k + 1]? with
    | some next =>
      have hlt : position < next.start.chars :=
        hnext next (by have := (List.getElem?_eq_some_iff.mp hc').1; omega) hc'
      have hfront : ∀ pos, Front { s with chunkNo := k, current := pos } := fun pos c' hc'' _ => by
        rw [hc'] at hc''
        cases hc''
        exact zero_lt_of_lt hlt
      rw [Option.elim_some]
      split
      · next hshort =>
        refine ⟨_, rfl, h.ascii hc hc' hpiece ?_ hshort.2 (by omega), hfront _, ⟨rfl, rfl, rfl⟩,
          .inl (Nat.add_sub_cancel' hle)⟩
        exact hascii _ (mem_zip_tail hc hc') hle hlt hshort.1 hshort.2
      · obtain ⟨hfound, rfl⟩ := hend.resolve_right fun hend => by
          rw [hend.2.2, ← (h.chunk (k + 1) next hc').2] at hend
          omega
        rw [hskip, bind_some]
        exact ⟨_, rfl, hcore', hfront _, ⟨rfl, rfl, rfl⟩, .inl hfound⟩
    | none =>
      have hlen := List.getElem?_eq_none_iff.mp hc'
      rw [Option.elim_none, hskip, bind_some]
      dsimp only
      by_cases hfound : pos.chars = position
      · rw [decide_eq_true hfound, if_pos rfl]
        refine ⟨_, rfl, hcore', front_of_last ?_, ⟨rfl, rfl, rfl⟩, .inl hfound⟩
        simp only
        omega
      · rw [decide_eq_false hfound, if_neg Bool.false_ne_true]
        obtain ⟨hle', hno, -⟩ := hend.resolve_left fun hend => hfound hend.1
        exact searchLoop_spec hne hcore' (by simp only; omega)
          (Nat.lt_of_le_of_ne hle' hfound) hhalves (lt_succ_self _)

omit h in
/-- The stream can find a position by searching: it is not within a surrogate
pair, not behind a replaced character at the end, and not in a chunk wrongly
taken for ASCII. -/
def Searchable (pieces : List (List UInt8)) (s : Utf8Stream) (position : ℕ) : Prop :=
  ¬ BetweenHalves (textOf pieces.flatten) position ∧
    ((posAt pieces.flatten pieces.flatten.length).decoder = .start ∨
      position < (textOf pieces.flatten).length) ∧
    AsciiSound s position

omit h in
/-- The stream can read a block: it reads on, or finds the position. -/
def Readable (pieces : List (List UInt8)) (s : Utf8Stream) (position : ℕ) : Prop :=
  s.current.chars = position ∨ Searchable pieces s position

omit h in
omit hne in
/-- If a position that can be found is behind the data, then no character is
incomplete there. -/
theorem Landed.complete (h : Landed pieces s position)
    (hbehind : (posAt pieces.flatten pieces.flatten.length).decoder = .start ∨
      position < (textOf pieces.flatten).length) :
    s.current.chars = position ∨ s.current.decoder = .start := by
  refine h.imp id fun ⟨_, _, hcurrent, hlt⟩ => ?_
  rw [hcurrent] at hlt ⊢
  refine hbehind.resolve_right fun hposition => ?_
  have hlength := length_textOf pieces.flatten
  have hpending : pending (posAt pieces.flatten pieces.flatten.length).decoder ≤ 1 := by
    unfold pending
    split <;> decide
  omega

/-- **`SearchPosition`.** -/
theorem searchPosition_spec (hfront : Front s) (hread : Readable pieces s position) :
    ∃ t, s.searchPosition position = some t ∧ Core pieces t ∧ Front t ∧ SameBuffer s t ∧
      Landed pieces t position ∧ (t.current.chars = position ∨ t.current.decoder = .start) := by
  unfold searchPosition
  by_cases hhere : s.current.chars = position
  · rw [if_pos hhere]
    exact ⟨s, rfl, h, hfront, ⟨rfl, rfl, rfl⟩, .inl hhere, .inl hhere⟩
  · rw [if_neg hhere]
    obtain ⟨hhalves, hbehind, hascii⟩ := hread.resolve_left hhere
    by_cases hchunks : s.chunks = []
    · have hno : s.chunkNo = s.chunks.length :=
        Nat.le_antisymm h.number (by rw [hchunks]; exact Nat.zero_le _)
      have hfetched : s.fetchChunk.2.chunks = [⟨s.source.headD [], s.current⟩] := by
        show s.chunks ++ [_] = _
        rw [hchunks, nil_append]
      rw [if_pos hchunks]
      obtain ⟨t, hrun, hcore, hfront, hbuffer, hlanded⟩ :=
        searchChunks_spec hne (fetchChunk_core h hno) (by rw [hfetched]; exact cons_ne_nil _ _)
          hhalves (by unfold AsciiSound; rw [hfetched]; exact nofun)
      exact ⟨t, hrun, hcore, hfront, hbuffer, hlanded, hlanded.complete hbehind⟩
    · rw [if_neg hchunks]
      obtain ⟨t, hrun, hcore, hfront, hbuffer, hlanded⟩ :=
        searchChunks_spec hne h hchunks hhalves hascii
      exact ⟨t, hrun, hcore, hfront, hbuffer, hlanded, hlanded.complete hbehind⟩

omit h in
/-- A part of the text goes into the empty buffer. -/
def Filled (pieces : List (List UInt8)) (s t : Utf8Stream) : Prop :=
  t.current.chars = s.current.chars + t.buffer.length ∧ (textOf pieces.flatten).drop s.current.chars
      = t.buffer ++ (textOf pieces.flatten).drop t.current.chars

omit h in
/-- Filling the buffer does not fetch a chunk, and the cursor stays. -/
def SameChunks (s t : Utf8Stream) : Prop :=
  t.chunks = s.chunks ∧ t.source = s.source ∧ t.bufferPos = s.bufferPos ∧
    t.bufferCursor = s.bufferCursor

/-- **`FillBufferFromCurrentChunk`** with data. -/
theorem fill_piece (hfront : Front s) (hno : s.chunkNo < s.chunks.length)
    (hpiece : pieces[s.chunkNo]? = some piece) (hbuffer : s.buffer = []) :
    ∃ t, s.fillBufferFromCurrentChunk = some t ∧ Core pieces t ∧ Front t ∧ SameChunks s t ∧
      Filled pieces s t ∧ (t.buffer = [] → t.chunkNo = s.chunkNo + 1 ∧
        (t.chunkNo < t.chunks.length → t.current.decoder ≠ .start)) := by
  have hc : s.chunks[s.chunkNo]? = some s.chunks[s.chunkNo] := getElem?_eq_getElem hno
  generalize s.chunks[s.chunkNo] = c at hc
  have hchunk := h.data_of_lt hc hpiece
  obtain ⟨piece', hpiece', hlower, hupper, hat⟩ | ⟨hlast, -⟩ := h.current
  · obtain ⟨hpoints, hbytes⟩ := points_of_isAt hpiece hlower hupper hat
    obtain ⟨d₁, bytes₁, output₁, bytes', pos', units, hfirst, hloop, hpoints', hlen, hchars, htext,
      hnil⟩ := fill_spec hpoints hbytes
    obtain ⟨hpos, hcore, harrive⟩ := h.arrive hne hc hpiece hpoints'
      (hlen.trans (drop_sublist _ _).length_le)
    have hdrop : c.data.drop (s.current.bytes - c.start.bytes)
        = piece.drop (s.current.bytes - offset pieces s.chunkNo) := by
      rw [hchunk, posAt_bytes (offset_le pieces _)]
    have hdata : c.data ≠ [] := by grind
    -- at the start of the text the next chunk has not been fetched
    have hzero : units = [] → s.chunkNo + 1 < s.chunks.length → pos'.chars ≠ 0 := by
      intro hunits hlt hzero
      have hc' : s.chunks[s.chunkNo + 1]? = some s.chunks[s.chunkNo + 1] :=
        getElem?_eq_getElem hlt
      have hpos := hfront _ hc' (by omega)
      rw [(h.chunk _ _ hc').2, ← harrive (hnil hunits).1] at hpos
      exact absurd hzero hpos.ne'
    refine ⟨{ s with
        buffer := units, current := pos', chunkNo := s.chunkNo + if bytes' = [] then 1 else 0 },
      ?_, ⟨hcore.length, hcore.source, hcore.chunk, hcore.number, hcore.current, hcore.fresh⟩,
      ?_, ⟨rfl, rfl, rfl, rfl⟩, ⟨hchars, htext⟩, ?_⟩
    · unfold fillBufferFromCurrentChunk
      rw [hc, Option.bind_eq_bind, Option.bind_some, if_neg hdata, hdrop, hbuffer, hfirst]
      simp only [hloop, length_nil, Nat.sub_zero]
      rw [← hchars, hpos]
      rfl
    · intro c' hc' hchars'
      have hunits : units = [] := eq_nil_of_length_eq_zero (by simp only at hchars'; omega)
      have hlt := (List.getElem?_eq_some_iff.mp hc').1
      simp only [if_pos (hnil hunits).1] at hlt
      exact absurd hchars' (hzero hunits (lt_of_succ_lt hlt))
    · intro hunits
      obtain ⟨hbytes', hstart⟩ := hnil hunits
      simp only [if_pos hbytes']
      exact ⟨trivial, fun hlt => hstart.resolve_right (hzero hunits hlt)⟩
  · rw [hlast, getElem?_eq_none le_rfl] at hpiece
    cases hpiece

omit hne in
theorem Core.current_of_last (hlast : s.chunkNo = pieces.length) :
    s.current = posAt pieces.flatten pieces.flatten.length ∨
      s.current = ⟨pieces.flatten.length, (textOf pieces.flatten).length, .start⟩ :=
  (h.current.resolve_left fun ⟨piece, hpiece, _⟩ => by
    rw [hlast, getElem?_eq_none le_rfl] at hpiece
    cases hpiece).2

omit hne in
/-- With no incomplete character, the end of the data is the end of the text. -/
theorem Core.chars_of_last (hlast : s.chunkNo = pieces.length)
    (hstart : s.current.decoder = .start) : s.current.chars = (textOf pieces.flatten).length := by
  obtain hend | hend := h.current_of_last hlast
  · rw [length_textOf, ← hend, hstart]
    rfl
  · rw [hend]

omit hne in
/-- **`FillBufferFromCurrentChunk`** at the end of the data. -/
theorem fill_last (hno : s.chunkNo < s.chunks.length)
    (hlast : s.chunkNo = pieces.length) (hbuffer : s.buffer = []) :
    ∃ t, s.fillBufferFromCurrentChunk = some t ∧ Core pieces t ∧ Front t ∧ SameChunks s t ∧
      Filled pieces s t ∧
      (t.buffer = [] → s.current.decoder = .start ∧
        (textOf pieces.flatten).length ≤ s.current.chars) := by
  have hc : s.chunks[s.chunkNo]? = some s.chunks[s.chunkNo] := getElem?_eq_getElem hno
  generalize s.chunks[s.chunkNo] = c at hc
  have hdata : c.data = [] := by
    rw [(h.chunk _ c hc).1, hlast, getElem?_eq_none le_rfl, getD_none]
  have hfront : ∀ t : Utf8Stream, t.chunks = s.chunks → t.chunkNo = s.chunkNo → Front t := by
    intro t hchunks hno
    refine front_of_last ?_
    rw [hchunks, hno, hlast]
    exact h.length
  have hstep : s.fillBufferFromCurrentChunk =
      s.current.decoder.valueOfIncrementalFinish.elim (some s) fun t => some { s with
        buffer := s.buffer ++ [t], current := ⟨s.current.bytes, s.current.chars + 1, .start⟩ } := by
    unfold fillBufferFromCurrentChunk
    rw [hc, Option.bind_eq_bind, Option.bind_some, if_pos hdata]
    cases s.current.decoder.valueOfIncrementalFinish <;> rfl
  have hlength := length_textOf pieces.flatten
  by_cases hstart : s.current.decoder = .start
  · have hchars := h.chars_of_last hlast hstart
    rw [hstep, hstart]
    exact ⟨s, rfl, h, hfront s rfl rfl, ⟨rfl, rfl, rfl, rfl⟩,
      ⟨by rw [hbuffer]; rfl, by rw [hbuffer]; rfl⟩, fun _ => ⟨rfl, hchars.ge⟩⟩
  · have hat := (h.current_of_last hlast).resolve_right fun hend => hstart (by rw [hend])
    have hfinish : s.current.decoder.valueOfIncrementalFinish = some Utf8Decoder.badChar :=
      if_neg fun haccept => hstart (Utf8Decoder.eq_start haccept)
    have hdrop := textOf_drop_posAt_length pieces.flatten
    rw [← hat, hfinish, toList_some] at hdrop
    rw [← hat, pending_of_ne hstart] at hlength
    rw [hstep, hfinish, Option.elim_some]
    refine ⟨_, rfl, ⟨h.length, h.source, h.chunk, h.number, .inr ⟨hlast, .inr ?_⟩,
      fun hfresh => absurd hfresh hno.ne⟩, hfront _ rfl rfl, ⟨rfl, rfl, rfl, rfl⟩, ⟨?_, ?_⟩, ?_⟩
    · rw [hlength, hat, posAt_bytes le_rfl]
    · grind
    · rw [hbuffer, hdrop, ← hlength, drop_length, nil_append, append_nil]
    · simp

omit h in
omit hne in
theorem fillBufferLoop_of_ne (hn : n ≠ 0) (h : s.buffer ≠ []) : fillBufferLoop n s = some s := by
  cases n with
  | zero => exact absurd rfl hn
  | succ n => exact if_pos h

/-- The loop of `FillBuffer` fetches the current chunk. -/
theorem fetchCurrent_spec (hfront : Front s)
    (hlast : s.chunkNo = pieces.length → s.chunkNo < s.chunks.length → s.current.decoder ≠ .start) :
    ∃ more t, (if s.chunkNo = s.chunks.length then s.fetchChunk else (true, s)) = (more, t) ∧
      Core pieces t ∧ Front t ∧ SameBuffer s t ∧ t.chunkNo = s.chunkNo ∧ t.current = s.current ∧
      t.chunkNo < t.chunks.length ∧
      (t.chunkNo = pieces.length → more = true → t.current.decoder ≠ .start) ∧
      (more = false → t.chunkNo = pieces.length) := by
  by_cases hno : s.chunkNo = s.chunks.length
  · have hmore := fetchChunk_fst h hno
    have hlength : s.fetchChunk.2.chunks.length = s.chunkNo + 1 := by
      rw [hno]
      exact length_append ..
    refine ⟨s.fetchChunk.1, s.fetchChunk.2, if_pos hno, fetchChunk_core h hno,
      front_of_last hlength.le, ⟨rfl, rfl, rfl⟩, rfl, rfl, hlength.ge, fun hend htrue => ?_,
      fun hfalse => ?_⟩
    · rw [hmore, show s.chunkNo = pieces.length from hend, getElem?_eq_none le_rfl] at htrue
      exact absurd htrue (by decide)
    · refine Nat.le_antisymm h.chunkNo_le (Nat.le_of_not_lt fun hlt => ?_)
      replace hlt : s.chunkNo < pieces.length := hlt
      rw [hmore, getElem?_eq_getElem hlt, getD_some,
        decide_eq_true (hne _ (getElem_mem hlt))] at hfalse
      cases hfalse
  · exact ⟨true, s, if_neg hno, h, hfront, ⟨rfl, rfl, rfl⟩, rfl, rfl,
      Nat.lt_of_le_of_ne h.number hno,
      fun hend _ => hlast hend (Nat.lt_of_le_of_ne h.number hno), nofun⟩

/-- **The loop of `FillBuffer`** puts a part of the text into the buffer, and
nothing only at its end. -/
theorem fillBufferLoop_spec (hfront : Front s) (hbuffer : s.buffer = [])
    (hlast : s.chunkNo = pieces.length → s.chunkNo < s.chunks.length → s.current.decoder ≠ .start)
    (hn : pieces.length + 2 ≤ s.chunkNo + n) :
    ∃ t, fillBufferLoop n s = some t ∧ Core pieces t ∧ Front t ∧
      (t.bufferPos = s.bufferPos ∧ t.bufferCursor = s.bufferCursor) ∧ Filled pieces s t ∧
      (t.buffer = [] → (textOf pieces.flatten).length ≤ s.current.chars) := by
  induction n generalizing s with
  | zero =>
    exact absurd (h.chunkNo_le.trans_lt (Nat.lt_add_of_pos_right (by decide))) (Nat.not_lt.mpr hn)
  | succ n ih =>
    obtain ⟨more, t, hfetch, hcore, hfront, ⟨hb, hp, hcu⟩, hno, hcurrent, hlt, hstart, hend⟩ :=
      fetchCurrent_spec hne h hfront hlast
    have hstep : fillBufferLoop (n + 1) s = if more then
        t.fillBufferFromCurrentChunk.bind (fillBufferLoop n) else t.fillBufferFromCurrentChunk := by
      rw [fillBufferLoop, if_neg (not_not.mpr hbuffer), hfetch]
    have hfilled : ∀ u, Filled pieces t u → Filled pieces s u := fun u hu => by
      unfold Filled at hu ⊢
      rwa [hcurrent] at hu
    rw [hstep]
    by_cases hm : t.chunkNo = pieces.length
    · obtain ⟨u, hfill, hcoreu, hfrontu, ⟨-, -, hpos, hcursor⟩, hfu, hnil⟩ :=
        fill_last hcore hlt hm (hb.trans hbuffer)
      refine ⟨u, ?_, hcoreu, hfrontu, ⟨hpos.trans hp, hcursor.trans hcu⟩, hfilled u hfu,
        fun hu => ?_⟩
      · rw [hfill, bind_some]
        cases more with
        | false => rfl
        | true =>
          exact fillBufferLoop_of_ne (by omega) fun hu => hstart hm rfl (hnil hu).1
      · grind
    · have hi : t.chunkNo < pieces.length := Nat.lt_of_le_of_ne hcore.chunkNo_le hm
      obtain ⟨u, hfill, hcoreu, hfrontu, ⟨-, -, hpos, hcursor⟩, hfu, hnil⟩ :=
        fill_piece hne hcore hfront hlt (getElem?_eq_getElem hi) (hb.trans hbuffer)
      have hmore : more = true := by grind
      rw [hmore, if_pos rfl, hfill, bind_some]
      by_cases hu : u.buffer = []
      · obtain ⟨hno', hpending⟩ := hnil hu
        obtain ⟨v, hrun, hcorev, hfrontv, ⟨hposv, hcursorv⟩, hfv, hnilv⟩ :=
          ih hcoreu hfrontu hu (fun _ => hpending) (by omega)
        -- nothing has been put into the buffer so far
        have hchars : u.current.chars = s.current.chars := by
          rw [hfu.1, hu, hcurrent]
          rfl
        refine ⟨v, hrun, hcorev, hfrontv, ⟨(hposv.trans hpos).trans hp,
          (hcursorv.trans hcursor).trans hcu⟩, ?_, ?_⟩
        · unfold Filled at hfv ⊢
          rwa [hchars] at hfv
        · rwa [hchars] at hnilv
      · exact ⟨u, fillBufferLoop_of_ne (by omega) hu, hcoreu, hfrontu,
          ⟨hpos.trans hp, hcursor.trans hcu⟩, hfilled u hfu, fun hu' => absurd hu' hu⟩

omit h in
/-- An incomplete character at the end of the data shows in the bits that the
decoder has collected. -/
def EndsVisibly (pieces : List (List UInt8)) : Prop :=
  (posAt pieces.flatten pieces.flatten.length).decoder = .start ∨
    (posAt pieces.flatten pieces.flatten.length).decoder.incompleteChar ≠ 0

/-- The stream notices the end of the data at the end of the text only. -/
theorem chars_of_outOfData (hends : EndsVisibly pieces)
    (hout : s.outOfData = true) : s.current.chars = (textOf pieces.flatten).length := by
  unfold outOfData at hout
  cases hc : s.chunks[s.chunkNo]? with
  | none => rw [hc] at hout; cases hout
  | some c =>
    rw [hc] at hout
    obtain ⟨hempty, hbits⟩ := Bool.and_eq_true_iff.mp hout
    have hlast := h.last hne hc (of_decide_eq_true hempty)
    refine h.chars_of_last hlast ?_
    obtain hend | hend := h.current_of_last hlast
    · rw [hend] at hbits ⊢
      exact hends.resolve_right fun hvisible => hvisible (of_decide_eq_true hbits)
    · rw [hend]

omit hne in
theorem outOfData_of_last (hlast : s.chunkNo = pieces.length)
    (hno : s.chunkNo < s.chunks.length) (hstart : s.current.decoder = .start) :
    s.outOfData = true := by
  have hc : s.chunks[s.chunkNo]? = some s.chunks[s.chunkNo] := getElem?_eq_getElem hno
  have hempty : s.chunks[s.chunkNo].data = [] := by
    rw [(h.chunk _ _ hc).1, hlast, getElem?_eq_none le_rfl, getD_none]
  unfold outOfData
  rw [hc]
  simp only [hempty, hstart, decide_true, Bool.true_and]
  rfl

omit h

/-- **The invariant of the stream**: the buffer has a part of the text. Where
reading goes on is behind the buffer, and so is the cursor at most, except at
the end. -/
structure Holds (pieces : List (List UInt8)) (s : Utf8Stream) : Prop where
  core : Core pieces s
  front : Front s
  buffer : s.buffer <+: (textOf pieces.flatten).drop s.bufferPos
  cursor : s.bufferCursor ≤ s.buffer.length ∨
    (textOf pieces.flatten).length ≤ s.bufferPos + s.buffer.length
  reached : s.current.chars = s.bufferPos + s.buffer.length ∨
    (textOf pieces.flatten).length ≤ s.bufferPos

/-- A new stream. -/
theorem create_holds : Holds pieces (create pieces) :=
  ⟨create_core hne, nofun, nil_prefix, .inl le_rfl, .inl rfl⟩

/-- **`ReadBlock`** puts a part of the text into the buffer, starting at the
position, and nothing only behind the end. -/
theorem readBlock_spec (hends : EndsVisibly pieces) (h : Core pieces s)
    (hfront : Front s) (hread : Readable pieces s position) :
    ∃ t, s.readBlock position = some (decide (t.buffer ≠ []), t) ∧ Holds pieces t ∧
      t.bufferPos = position ∧ t.bufferCursor = 0 ∧
      (t.buffer = [] → (textOf pieces.flatten).length ≤ position) := by
  obtain ⟨u, hsearch, hcore, hfrontu, ⟨hbuffer, hpos, hcursor⟩, hlanded, hcomplete⟩ :=
    searchPosition_spec hne (s := { s with bufferPos := position, bufferCursor := 0, buffer := [] })
      ⟨h.length, h.source, h.chunk, h.number, h.current, h.fresh⟩ hfront hread
  have hle : u.current.chars ≤ position := hlanded.elim le_of_eq fun hlanded => hlanded.2.2.2.le
  have hstep : s.readBlock position = (if u.outOfData then some u
      else fillBufferLoop (u.chunks.length + u.source.length + 2) u).bind
        fun t => some (decide (t.buffer ≠ []), t) := by
    unfold readBlock fillBuffer
    rw [hsearch]
    rfl
  rw [hstep]
  by_cases hout : u.outOfData = true
  · have hend : (textOf pieces.flatten).length ≤ position :=
      (chars_of_outOfData hne hcore hends hout).ge.trans hle
    rw [if_pos hout]
    refine ⟨u, rfl, ⟨hcore, hfrontu, ?_, .inl ?_, .inr ?_⟩, hpos, hcursor, fun _ => hend⟩
    · grind
    · grind
    · rwa [hpos]
  · have hstart : u.chunkNo = pieces.length → u.chunkNo < u.chunks.length →
        u.current.decoder ≠ .start := fun hlast hno hstart =>
      hout (outOfData_of_last hcore hlast hno hstart)
    have hhere : u.current.chars = position := hlanded.resolve_right fun hlanded =>
      hstart hlanded.1 (by rw [hlanded.1, hlanded.2.1]; exact lt_succ_self _)
        (hcomplete.resolve_left hlanded.2.2.2.ne)
    obtain ⟨t, hloop, hcoret, hfrontt, ⟨hpost, hcursort⟩, hfilled, hnil⟩ :=
      fillBufferLoop_spec hne hcore hfrontu hbuffer hstart
        (n := u.chunks.length + u.source.length + 2)
        (by rw [hcore.source, length_drop]; omega)
    rw [if_neg hout, hloop]
    unfold Filled at hfilled
    rw [hhere] at hfilled hnil
    replace hpost := hpost.trans hpos
    refine ⟨t, rfl, ⟨hcoret, hfrontt, ?_, .inl ?_, .inl ?_⟩, hpost, hcursort.trans hcursor, hnil⟩
    · grind
    · grind
    · rw [hfilled.1, hpost]

end Invariant

end Utf8Stream
