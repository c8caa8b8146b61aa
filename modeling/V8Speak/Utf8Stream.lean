import V8Speak.Utf8Decoder

/-!
# The chunked UTF-8 stream

`Utf8ExternalStreamingStream` (`parsing/scanner-character-streams.cc`), with
its base classes `BufferedUtf16CharacterStream` and `Utf16CharacterStream`
(`parsing/scanner.h`). The embedder gives the source in chunks of bytes, cut
anywhere, and the scanner reads it as UTF-16 code units at positions it may
seek to. The stream keeps the chunks, each with the position at its first
byte; a position counts bytes and code units and has the decoder of a
character that a cut has left incomplete. A buffer holds the code units at the
reading position.

The loops over the bytes of a chunk take the bytes that are left as a list. A
byte is given twice to the decoder at most, which bounds the rounds of a loop.
Assertions are left out: this is the stream of a release build. So is the
error flag of the parser, which is not set by reading.
-/

/-- The byte order mark. -/
def kUtf8Bom : ℕ := 0xFEFF

def kBufferSize : ℕ := 512

def leadSurrogate (t : ℕ) : ℕ := 0xD800 + (((t - 0x10000) >>> 10) &&& 0x3FF)

def trailSurrogate (t : ℕ) : ℕ := 0xDC00 + (t &&& 0x3FF)

/-- The code units of a character. -/
def utf16 (t : ℕ) : List ℕ :=
  if t ≤ 0xFFFF then [t] else [leadSurrogate t, trailSurrogate t]

/-- `StreamPosition`: bytes, code units, and the decoder of an incomplete
character. -/
@[ext]
structure StreamPosition where
  bytes : ℕ
  chars : ℕ
  decoder : Utf8Decoder
  deriving DecidableEq

structure Chunk where
  data : List UInt8
  start : StreamPosition

/-- The state of a stream: the chunks so far, the current chunk and position,
the data the embedder still has, and the buffer with the position of its first
code unit and the cursor. -/
structure Utf8Stream where
  chunks : List Chunk
  chunkNo : ℕ
  current : StreamPosition
  source : List (List UInt8)
  buffer : List ℕ
  bufferPos : ℕ
  bufferCursor : ℕ

namespace Utf8Stream

/-- A new stream. -/
def create (source : List (List UInt8)) : Utf8Stream where
  chunks := []
  chunkNo := 0
  current := ⟨0, 0, .start⟩
  source := source
  buffer := []
  bufferPos := 0
  bufferCursor := 0

/-- The bytes after a step of the decoder. -/
def stepBytes (consumed : Bool) (byte : UInt8) (rest : List UInt8) : List UInt8 :=
  if consumed then rest else byte :: rest

/-- The code units that a step of the decoder counts for. -/
def charsOf (t : Option ℕ) : ℕ := (t.map fun t => (utf16 t).length).getD 0

/-- The first complete character of some bytes, with the decoder and the bytes
after it. -/
def firstChar : Utf8Decoder → List UInt8 → Option ℕ × Utf8Decoder × List UInt8
  | d, [] => (none, d, [])
  | d, byte :: rest =>
    match d.valueOfIncremental byte with
    | (none, _, d') => firstChar d' rest
    | (some t, consumed, d') => (some t, d', stepBytes consumed byte rest)

/-- The first block of `SkipToPosition`: at the very start the first character
is taken, and not counted if it is a byte order mark. -/
def skipFirst (current : StreamPosition) (d : Utf8Decoder) (bytes : List UInt8) :
    Utf8Decoder × List UInt8 × ℕ :=
  if current.bytes < 3 ∧ current.chars = 0 then
    let (t, d, bytes) := firstChar d bytes
    (d, bytes, if t = some kUtf8Bom then 0 else charsOf t)
  else (d, bytes, current.chars)

/-- The loop of `SkipToPosition`. -/
def skipLoop (position : ℕ) : ℕ → Utf8Decoder → List UInt8 → ℕ → Utf8Decoder × List UInt8 × ℕ
  | 0, d, bytes, chars => (d, bytes, chars)
  | _ + 1, d, [], chars => (d, [], chars)
  | n + 1, d, byte :: rest, chars =>
    if chars < position then
      let (t, consumed, d') := d.valueOfIncremental byte
      skipLoop position n d' (stepBytes consumed byte rest) (chars + charsOf t)
    else (d, byte :: rest, chars)

/-- A bound on the rounds of a loop over some bytes. -/
def rounds (bytes : List UInt8) : ℕ := 2 * bytes.length + 1

variable (s : Utf8Stream) (position : ℕ)

/-- `SkipToPosition`: whether the position was found, and the stream. -/
def skipToPosition : Option (Bool × Utf8Stream) :=
  if s.current.chars = position then some (true, s) else do
    let chunk ← s.chunks[s.chunkNo]?
    let (d, bytes, chars) := skipFirst s.current chunk.start.decoder
      (chunk.data.drop (s.current.bytes - chunk.start.bytes))
    let (d, bytes, chars) := skipLoop position (rounds bytes) d bytes chars
    return (chars = position, { s with
      current := ⟨chunk.start.bytes + (chunk.data.length - bytes.length), chars, d⟩
      chunkNo := s.chunkNo + if bytes = [] then 1 else 0 })

/-- The bytes at the front that `NonAsciiStart` passes. -/
def asciiRun (bytes : List UInt8) (room : ℕ) : List UInt8 :=
  (bytes.take room).takeWhile (· ≤ 0x7F)

/-- The first block of `FillBufferFromCurrentChunk`: at the very start the first
character is taken, and not copied if it is a byte order mark. -/
def fillFirst (current : StreamPosition) (bytes : List UInt8) (output : List ℕ) :
    Utf8Decoder × List UInt8 × List ℕ :=
  if current.bytes < 3 ∧ current.chars = 0 then
    let (t, d, bytes) := firstChar current.decoder bytes
    (d, bytes, output ++ if t = some kUtf8Bom then [] else (t.map utf16).getD [])
  else (current.decoder, bytes, output)

/-- The loop of `FillBufferFromCurrentChunk`, with its fast path for ASCII. -/
def fillLoop : ℕ → Utf8Decoder → List UInt8 → List ℕ → Utf8Decoder × List UInt8 × List ℕ
  | 0, d, bytes, output => (d, bytes, output)
  | _ + 1, d, [], output => (d, [], output)
  | n + 1, d, byte :: rest, output =>
    if output.length + 1 < kBufferSize then
      match d.valueOfIncremental byte with
      | (none, _, d') => fillLoop n d' rest output
      | (some t, consumed, d') =>
        let bytes := stepBytes consumed byte rest
        let output := output ++ utf16 t
        let ascii := asciiRun bytes (kBufferSize - output.length)
        fillLoop n d' (bytes.drop ascii.length) (output ++ ascii.map UInt8.toNat)
    else (d, byte :: rest, output)

def fillBufferFromCurrentChunk : Option Utf8Stream := do
  let chunk ← s.chunks[s.chunkNo]?
  if chunk.data = [] then
    -- the last chunk: an incomplete character is replaced
    match s.current.decoder.valueOfIncrementalFinish with
    | none => return s
    | some t => return { s with
        buffer := s.buffer ++ [t]
        current := ⟨s.current.bytes, s.current.chars + 1, .start⟩ }
  else
    let (d, bytes, output) := fillFirst s.current
      (chunk.data.drop (s.current.bytes - chunk.start.bytes)) s.buffer
    let (d, bytes, output) := fillLoop (rounds bytes) d bytes output
    return { s with
      buffer := output
      current := ⟨chunk.start.bytes + (chunk.data.length - bytes.length),
        s.current.chars + (output.length - s.buffer.length), d⟩
      chunkNo := s.chunkNo + if bytes = [] then 1 else 0 }

/-- `FetchChunk`: the next chunk of the embedder, empty at the end. -/
def fetchChunk : Bool × Utf8Stream :=
  let data := s.source.headD []
  (data ≠ [], { s with chunks := s.chunks ++ [⟨data, s.current⟩], source := s.source.tail })

/-- The search for the last chunk, up to a number, that starts at or before a
position. -/
def chunkBefore (chunks : List Chunk) (position : ℕ) : ℕ → Option ℕ
  | 0 => some 0
  | n + 1 => do
    let chunk ← chunks[n + 1]?
    if chunk.start.chars > position then chunkBefore chunks position n else some (n + 1)

/-- The loop of `SearchPosition` that fetches chunks until the position is
found. -/
def searchLoop (position : ℕ) : ℕ → Utf8Stream → Option Utf8Stream
  | 0, _ => none
  | n + 1, s =>
    let (haveMoreData, s) := s.fetchChunk
    if haveMoreData then do
      let (found, s) ← s.skipToPosition position
      if found then return s else searchLoop position n s
    else some s

/-- `SearchPosition`, in a stream that has a chunk. -/
def searchChunks : Option Utf8Stream := do
  let chunkNo ← chunkBefore s.chunks position (s.chunks.length - 1)
  let chunk ← s.chunks[chunkNo]?
  let atStart := { s with chunkNo := chunkNo, current := chunk.start }
  if chunk.data = [] then return atStart
  else
    match s.chunks[chunkNo + 1]? with
    | some next =>
      -- a chunk with as many code units as bytes is taken to be ASCII
      if chunk.start.decoder.incompleteChar = 0 ∧
          next.start.bytes - chunk.start.bytes = next.start.chars - chunk.start.chars then
        let skip := position - chunk.start.chars
        return { atStart with
          current := ⟨chunk.start.bytes + skip, chunk.start.chars + skip, .start⟩ }
      else
        let (_, s) ← atStart.skipToPosition position
        return s
    | none =>
      let (found, s) ← atStart.skipToPosition position
      if found then return s else searchLoop position (s.source.length + 1) s

def searchPosition : Option Utf8Stream :=
  if s.current.chars = position then some s
  else (if s.chunks = [] then s.fetchChunk.2 else s).searchChunks position

/-- The loop of `FillBuffer`. -/
def fillBufferLoop : ℕ → Utf8Stream → Option Utf8Stream
  | 0, _ => none
  | n + 1, s =>
    if s.buffer ≠ [] then some s
    else
      let (haveMoreData, s) := if s.chunkNo = s.chunks.length then s.fetchChunk else (true, s)
      if haveMoreData then s.fillBufferFromCurrentChunk.bind (fillBufferLoop n)
      else s.fillBufferFromCurrentChunk

/-- Whether the current chunk is the last one and no character is incomplete. -/
def outOfData : Bool :=
  match s.chunks[s.chunkNo]? with
  | none => false
  | some chunk => chunk.data = [] && s.current.decoder.incompleteChar = 0

def fillBuffer : Option Utf8Stream := do
  let s ← { s with buffer := [] }.searchPosition position
  if s.outOfData then return s
  else fillBufferLoop (s.chunks.length + s.source.length + 2) s

/-- `ReadBlock`: whether there is more data, and the stream. -/
def readBlock : Option (Bool × Utf8Stream) := do
  let s ← { s with bufferPos := position, bufferCursor := 0 }.fillBuffer position
  return (s.buffer ≠ [], s)

/-! ## Reading -/

def pos : ℕ := s.bufferPos + s.bufferCursor

/-- `Peek`; `none` is `kEndOfInput`. -/
def peek : Option (Option ℕ × Utf8Stream) :=
  if s.bufferCursor < s.buffer.length then some (s.buffer[s.bufferCursor]?, s)
  else do
    let (_, s) ← s.readBlock s.pos
    return (s.buffer[s.bufferCursor]?, s)

def advance : Option (Option ℕ × Utf8Stream) := do
  let (c, s) ← s.peek
  return (c, { s with bufferCursor := s.bufferCursor + 1 })

/-- The loop of `AdvanceUntil`. -/
def advanceUntilLoop (check : ℕ → Bool) : ℕ → Utf8Stream → Option (Option ℕ × Utf8Stream)
  | 0, _ => none
  | n + 1, s =>
    let left := s.buffer.drop s.bufferCursor
    match left.find? check with
    | some c =>
      some (some c, { s with
        bufferCursor := s.bufferCursor + left.findIdx check + 1 })
    | none => do
      let (success, s) ← s.readBlock (s.bufferPos + s.buffer.length)
      if success then advanceUntilLoop check n s
      else return (none, { s with bufferCursor := s.bufferCursor + 1 })

/-- The bytes of the chunks and of the embedder. -/
def dataLength : ℕ :=
  (s.chunks.map (·.data.length)).sum + (s.source.map List.length).sum

/-- `AdvanceUntil`. A search from behind the end of the buffer would run out of
it. -/
def advanceUntil (check : ℕ → Bool) (s : Utf8Stream) : Option (Option ℕ × Utf8Stream) :=
  if s.bufferCursor ≤ s.buffer.length then advanceUntilLoop check (s.dataLength + 2) s else none

def back : Option Utf8Stream :=
  if 0 < s.bufferCursor then some { s with bufferCursor := s.bufferCursor - 1 }
  else (s.readBlock (s.pos - 1)).map Prod.snd

def seek : Option Utf8Stream :=
  if s.bufferPos ≤ position ∧ position < s.bufferPos + s.buffer.length then
    some { s with bufferCursor := position - s.bufferPos }
  else (s.readBlock position).map Prod.snd

/-- The operations of the scanner. -/
inductive Op
  | seek (position : ℕ)
  | peek
  | advance
  | advanceUntil (check : ℕ → Bool)
  | back

/-- An operation: what it returns, if anything, and the stream. -/
def step : Op → Option (List (Option ℕ) × Utf8Stream)
  | .seek position => (s.seek position).map fun s => ([], s)
  | .peek => s.peek.map fun r => ([r.1], r.2)
  | .advance => s.advance.map fun r => ([r.1], r.2)
  | .advanceUntil check => (s.advanceUntil check).map fun r => ([r.1], r.2)
  | .back => s.back.map fun s => ([], s)

/-- A sequence of operations: everything they return, and the stream. -/
def run : Utf8Stream → List Op → Option (List (Option ℕ) × Utf8Stream)
  | s, [] => some ([], s)
  | s, op :: ops => do
    let (out, s) ← s.step op
    let (outs, s) ← run s ops
    return (out ++ outs, s)

end Utf8Stream
