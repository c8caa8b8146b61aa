import Mathlib

/-!
# String search

`StringSearch` looks for a pattern in subjects, both of one- or two-byte
characters. Short patterns are searched for linearly. Longer ones begin with
`initialSearch`, which is linear too but keeps count of its work (`badness`);
when there has been too much it builds the table of bad characters and goes on
as `boyerMooreHorspoolSearch`, and that, in the same way, builds the table of
good suffixes and goes on as `boyerMooreSearch`. The strategy reached and the
tables are kept for the next search with the same object. The tables belong to
the isolate and have a fixed size; of a pattern longer than `kBMMaxShift` only
the last characters, from `start` on, are in them.

Reading from a vector or a table, and writing to one, is partial: an index out of
range gives `none`. Loops that end only because shifts are positive, and for
uniformity all other `while` loops, take an amount of fuel, and give `none` if it
does not suffice. Integers are unbounded: positions are bounded by the lengths of
the strings, and `badness` only decides when the strategy changes.
-/

/-- The types of characters, `uint8_t` and `base::uc16`. -/
inductive CharWidth where
  | oneByte
  | twoByte
  deriving DecidableEq, Repr

/-- `sizeof`. -/
def CharWidth.size : CharWidth → ℕ
  | oneByte => 1
  | twoByte => 2

/-- Characters of a width. -/
abbrev Character (w : CharWidth) := BitVec (8 * w.size)

namespace StringSearch

variable {α : Type} {p s w : CharWidth}

/-- An element of a vector. -/
def readVector (v : List α) (i : ℤ) : Option α :=
  if 0 ≤ i then v[i.toNat]? else none

/-- The isolate's tables have a fixed size. -/
abbrev Table (n : ℕ) := Vector ℤ n

def Table.read {n : ℕ} (table : Table n) (i : ℤ) : Option ℤ :=
  if 0 ≤ i then table[i.toNat]? else none

def Table.write {n : ℕ} (table : Table n) (i v : ℤ) : Option (Table n) :=
  if h : 0 ≤ i ∧ i.toNat < n then some (table.set i.toNat v h.2) else none

/-- `for (int i = start; i < stop; i++)`. -/
def interval (start stop : ℤ) : List ℤ :=
  (List.range (stop - start).toNat).map fun i : ℕ => start + i

/-- `table[i] = v` for all `i < count`. -/
def Table.fill {n : ℕ} (table : Table n) (count : ℕ) (v : ℤ) : Option (Table n) :=
  (interval 0 count).foldlM (fun table i => table.write i v) table

def kBMMaxShift : ℕ := 250
def kLatin1AlphabetSize : ℕ := 256
def kUC16AlphabetSize : ℕ := 256
def kBMMinPatternLength : ℕ := 7
def kMaxOneByteCharCode : ℕ := 0xFF

/-- The tables of the isolate. -/
structure Tables where
  badCharShiftTable : Table kUC16AlphabetSize
  goodSuffixShiftTable : Table (kBMMaxShift + 1)
  suffixTable : Table (kBMMaxShift + 1)

inductive Strategy where
  | failSearch
  | singleCharSearch
  | linearSearch
  | initialSearch
  | boyerMooreHorspoolSearch
  | boyerMooreSearch
  deriving DecidableEq, Repr

/-- `String::IsOneByte`, and true of one-byte characters. -/
def isOneByteString (string : List (Character w)) : Bool :=
  match w with
  | .oneByte => true
  | .twoByte => string.all fun c => c.toNat ≤ kMaxOneByteCharCode

def exceedsOneByte (c : Character w) : Bool :=
  match w with
  | .oneByte => false
  | .twoByte => c.toNat > kMaxOneByteCharCode

end StringSearch

open StringSearch

/-- A search object, with its isolate's tables. -/
structure StringSearch (p s : CharWidth) where
  isolate : Tables
  pattern : List (Character p)
  strategy : Strategy
  start : ℤ

namespace StringSearch

variable {p s w : CharWidth}

/-- The constructor. -/
def new (isolate : Tables) (pattern : List (Character p)) : StringSearch p s :=
  let start := max 0 (pattern.length - kBMMaxShift : ℤ)
  if p.size > s.size ∧ isOneByteString pattern = false then
    { isolate, pattern, strategy := .failSearch, start }
  else if pattern.length < kBMMinPatternLength then
    if pattern.length = 1 then { isolate, pattern, strategy := .singleCharSearch, start }
    else { isolate, pattern, strategy := .linearSearch, start }
  else { isolate, pattern, strategy := .initialSearch, start }

section

variable (fuel : ℕ) (search : StringSearch p s) (subject : List (Character s))

/-- `pattern_.length()`. -/
def patternLength : ℤ := search.pattern.length

def alphabetSize (p : CharWidth) : ℕ :=
  if p.size = 1 then kLatin1AlphabetSize else kUC16AlphabetSize

/-- The last position of a character in the pattern, as the table of bad
characters has it. -/
def charOccurrence (charCode : Character s) : Option ℤ :=
  let badCharOccurrence := search.isolate.badCharShiftTable
  if s.size = 1 then badCharOccurrence.read charCode.toNat
  else if p.size = 1 then
    if exceedsOneByte charCode then some (-1) else badCharOccurrence.read charCode.toNat
  else badCharOccurrence.read (charCode.toNat % kUC16AlphabetSize : ℕ)

/-! ## The first character -/

/-- The bytes of a character in memory. -/
def bytes (c : Character w) : List (BitVec 8) :=
  match w with
  | .oneByte => [c]
  | .twoByte => [c.setWidth 8, (c >>> 8).setWidth 8]

def getHighestValueByte (c : Character w) : BitVec 8 :=
  match w with
  | .oneByte => c
  | .twoByte =>
    let low := (c &&& 0xFF).setWidth 8
    let high := (c >>> 8).setWidth 8
    if low < high then high else low

/-- The offset of the first byte equal to `byte` among the `count` bytes from
`offset` on. All of them have to be in the memory. -/
def memchr (memory : List (BitVec 8)) (offset : ℤ) (byte : BitVec 8) (count : ℤ) :
    Option (Option ℤ) :=
  if 0 ≤ offset ∧ 0 ≤ count ∧ offset + count ≤ memory.length then
    some ((((memory.drop offset.toNat).take count.toNat).idxOf? byte).map fun i : ℕ => offset + i)
  else none

/-- The loop for the character 0. -/
def findZero (subject : List (Character s)) (maxN : ℤ) : ℕ → ℤ → Option ℤ
  | 0, _ => none
  | fuel + 1, i =>
    if i < maxN then do
      let c ← readVector subject i
      if c = 0 then some i else findZero subject maxN fuel (i + 1)
    else some (-1)

/-- The loop over the positions `memchr` finds. -/
def findByte (subject : List (Character s)) (maxN : ℤ) (searchByte : BitVec 8)
    (searchChar : Character s) : ℕ → ℤ → Option ℤ
  | 0, _ => none
  | fuel + 1, pos => do
    match ← memchr (subject.flatMap bytes) (pos * s.size) searchByte ((maxN - pos) * s.size) with
    | none => some (-1)
    | some charPos =>
      -- `AlignDown`, and the difference of pointers
      let pos := charPos / s.size
      let c ← readVector subject pos
      if c = searchChar then some pos
      else if pos + 1 < maxN then findByte subject maxN searchByte searchChar fuel (pos + 1)
      else some (-1)

def findFirstCharacter (pattern : List (Character p)) (subject : List (Character s))
    (index : ℤ) : Option ℤ := do
  let patternFirstChar ← readVector pattern 0
  let maxN : ℤ := subject.length - pattern.length + 1
  if s.size = 2 ∧ patternFirstChar = 0 then findZero subject maxN fuel index
  else
    let searchByte := getHighestValueByte patternFirstChar
    let searchChar : Character s := patternFirstChar.setWidth (8 * s.size)
    findByte subject maxN searchByte searchChar fuel index

def singleCharSearch (index : ℤ) : Option ℤ := do
  let patternFirstChar ← readVector search.pattern 0
  if p.size > s.size ∧ exceedsOneByte patternFirstChar then some (-1)
  else findFirstCharacter fuel search.pattern subject index

/-! ## Linear search -/

/-- Compares `length` characters from `pattern + i` and `subject + j` on. -/
def charCompare (pattern : List (Character p)) (subject : List (Character s)) (i j length : ℤ) :
    ℕ → ℤ → Option Bool
  | 0, _ => none
  | fuel + 1, pos => do
    let a ← readVector pattern (i + pos)
    let b ← readVector subject (j + pos)
    if a.toNat ≠ b.toNat then some false
    else if pos + 1 < length then charCompare pattern subject i j length fuel (pos + 1)
    else some true

def linearSearchLoop (fuel : ℕ) (pattern : List (Character p)) (subject : List (Character s))
    (n : ℤ) : ℕ → ℤ → Option ℤ
  | 0, _ => none
  | steps + 1, i =>
    if i ≤ n then do
      let i ← findFirstCharacter fuel pattern subject i
      if i = -1 then some (-1)
      else if ← charCompare pattern subject 1 (i + 1) (pattern.length - 1) fuel 0 then some i
      else linearSearchLoop fuel pattern subject n steps (i + 1)
    else some (-1)

def linearSearch (index : ℤ) : Option ℤ :=
  linearSearchLoop fuel search.pattern subject (subject.length - search.patternLength) fuel index

/-! ## Boyer–Moore search -/

/-- The shift for the character `c` read at position `j` of the pattern. -/
def badCharShift (j : ℤ) (c : Character s) : Option ℤ := do
  let occurrence ← search.charOccurrence c
  some (j - occurrence)

def lastChar : Option (Character p) :=
  readVector search.pattern (search.patternLength - 1)

/-- The shift where the last character agrees. -/
def lastCharShift : Option ℤ := do
  let lastChar ← search.lastChar
  search.badCharShift (search.patternLength - 1) (lastChar.setWidth (8 * s.size))

/-- An entry of the table of good suffixes, through the biased pointer. -/
def goodSuffixShift (i : ℤ) : Option ℤ :=
  search.isolate.goodSuffixShiftTable.read (i - search.start)

/-- The shift after a difference at `j`, where the subject has `c`. -/
def boyerMooreShift (j : ℤ) (c : Character s) : Option ℤ :=
  if j < search.start then search.lastCharShift
  else do
    let gsShift ← search.goodSuffixShift (j + 1)
    let shift ← search.badCharShift j c
    if gsShift > shift then some gsShift else some shift

/-- `while (last_char != (c = subject[index + j]))`: the index where the last
character agrees, or none if the subject ends before. -/
def boyerMooreSkip (search : StringSearch p s) (subject : List (Character s)) :
    ℕ → ℤ → Option (Option ℤ)
  | 0, _ => none
  | fuel + 1, index => do
    let j := search.patternLength - 1
    let c ← readVector subject (index + j)
    if (← search.lastChar).toNat ≠ c.toNat then
      let index := index + (← search.badCharShift j c)
      if index > subject.length - search.patternLength then some none
      else boyerMooreSkip search subject fuel index
    else some (some index)

/-- `while (j >= 0 && pattern[j] == subject[index + j]) j--`. -/
def matchBackwards (pattern : List (Character p)) (subject : List (Character s)) (index : ℤ) :
    ℕ → ℤ → Option ℤ
  | 0, _ => none
  | fuel + 1, j =>
    if 0 ≤ j then do
      let a ← readVector pattern j
      let b ← readVector subject (index + j)
      if a.toNat = b.toNat then matchBackwards pattern subject index fuel (j - 1) else some j
    else some j

def boyerMooreLoop (fuel : ℕ) (search : StringSearch p s) (subject : List (Character s)) :
    ℕ → ℤ → Option ℤ
  | 0, _ => none
  | steps + 1, index =>
    if index ≤ subject.length - search.patternLength then do
      match ← search.boyerMooreSkip subject fuel index with
      | none => some (-1)
      | some index =>
        let j ← matchBackwards search.pattern subject index fuel (search.patternLength - 1)
        if j < 0 then some index
        else
          let c ← readVector subject (index + j)
          boyerMooreLoop fuel search subject steps (index + (← search.boyerMooreShift j c))
    else some (-1)

def boyerMooreSearch (startIndex : ℤ) : Option ℤ :=
  boyerMooreLoop fuel search subject fuel startIndex

/-! ## The table of good suffixes -/

/-- The tables through the biased pointers, for a pattern from `start` on. -/
structure SuffixTables where
  shiftTable : Table (kBMMaxShift + 1)
  suffixTable : Table (kBMMaxShift + 1)

/-- `if (shift_table[i] == length) shift_table[i] = v`. -/
def SuffixTables.setShift (tables : SuffixTables) (start length i v : ℤ) : Option SuffixTables := do
  if (← tables.shiftTable.read (i - start)) = length then
    some { tables with shiftTable := ← tables.shiftTable.write (i - start) v }
  else some tables

/-- `suffix_table[i] = v`. -/
def SuffixTables.setSuffix (tables : SuffixTables) (start i v : ℤ) : Option SuffixTables := do
  some { tables with suffixTable := ← tables.suffixTable.write (i - start) v }

/-- `while (suffix <= pattern_length && c != pattern[suffix - 1])`. -/
def followSuffixes (search : StringSearch p s) (length : ℤ) (c : Character p) (i : ℤ) :
    ℕ → ℤ → SuffixTables → Option (ℤ × SuffixTables)
  | 0, _, _ => none
  | fuel + 1, suffix, tables =>
    if suffix ≤ search.patternLength then do
      if c ≠ (← readVector search.pattern (suffix - 1)) then
        let tables ← tables.setShift search.start length suffix (suffix - i)
        let suffix ← tables.suffixTable.read (suffix - search.start)
        followSuffixes search length c i fuel suffix tables
      else some (suffix, tables)
    else some (suffix, tables)

/-- `while ((i > start) && (pattern[i - 1] != last_char))`. -/
def skipToLastChar (search : StringSearch p s) (length : ℤ) (lastChar : Character p) :
    ℕ → ℤ → SuffixTables → Option (ℤ × SuffixTables)
  | 0, _, _ => none
  | fuel + 1, i, tables =>
    if i > search.start then do
      if (← readVector search.pattern (i - 1)) ≠ lastChar then
        let tables ← tables.setShift search.start length search.patternLength
          (search.patternLength - i)
        let tables ← tables.setSuffix search.start (i - 1) search.patternLength
        skipToLastChar search length lastChar fuel (i - 1) tables
      else some (i, tables)
    else some (i, tables)

/-- Finds suffixes. -/
def findSuffixes (fuel : ℕ) (search : StringSearch p s) (length : ℤ) (lastChar : Character p) :
    ℕ → ℤ → ℤ → SuffixTables → Option (ℤ × SuffixTables)
  | 0, _, _, _ => none
  | steps + 1, i, suffix, tables =>
    if i > search.start then do
      let c ← readVector search.pattern (i - 1)
      let (suffix, tables) ← followSuffixes search length c i fuel suffix tables
      let i := i - 1
      let suffix := suffix - 1
      let tables ← tables.setSuffix search.start i suffix
      if suffix = search.patternLength then
        -- no suffix to extend, so only the last character is compared
        let (i, tables) ← skipToLastChar search length lastChar fuel i tables
        if i > search.start then
          let tables ← tables.setSuffix search.start (i - 1) (suffix - 1)
          findSuffixes fuel search length lastChar steps (i - 1) (suffix - 1) tables
        else findSuffixes fuel search length lastChar steps i suffix tables
      else findSuffixes fuel search length lastChar steps i suffix tables
    else some (suffix, tables)

/-- One iteration of the loop that builds the shifts left over. -/
def buildShift (length : ℤ) (state : ℤ × SuffixTables) (i : ℤ) : Option (ℤ × SuffixTables) := do
  let (suffix, tables) := state
  let tables ← tables.setShift search.start length i (suffix - search.start)
  if i = suffix then some (← tables.suffixTable.read (suffix - search.start), tables)
  else some (suffix, tables)

/-- The tables before any suffix has been found. -/
def clearSuffixes (length : ℤ) : Option SuffixTables := do
  let patternLength := search.patternLength
  let start := search.start
  let shiftTable ← (interval start patternLength).foldlM
    (fun (table : Table _) i => table.write (i - start) length)
    search.isolate.goodSuffixShiftTable
  let shiftTable ← shiftTable.write (patternLength - start) 1
  let suffixTable ← search.isolate.suffixTable.write (patternLength - start) (patternLength + 1)
  some { shiftTable, suffixTable }

/-- The search object with the tables written. -/
def setSuffixTables (tables : SuffixTables) : StringSearch p s :=
  { search with
    isolate := { search.isolate with
      goodSuffixShiftTable := tables.shiftTable
      suffixTable := tables.suffixTable } }

def populateBoyerMooreTable : Option (StringSearch p s) := do
  let patternLength := search.patternLength
  let start := search.start
  let length := patternLength - start
  let tables ← search.clearSuffixes length
  if patternLength ≤ start then some (search.setSuffixTables tables)
  else
    let lastChar ← readVector search.pattern (patternLength - 1)
    let (suffix, tables) ← findSuffixes fuel search length lastChar fuel patternLength
      (patternLength + 1) tables
    if suffix < patternLength then
      let (_, tables) ← (interval start (patternLength + 1)).foldlM
        (search.buildShift length) (suffix, tables)
      some (search.setSuffixTables tables)
    else some (search.setSuffixTables tables)

/-! ## Boyer–Moore–Horspool search -/

/-- The bucket of a pattern's character. -/
def bucket (c : Character p) : ℕ :=
  if p.size = 1 then c.toNat else c.toNat % alphabetSize p

/-- The table of bad characters before any character is in it. -/
def clearBadChars : Option (Table kUC16AlphabetSize) :=
  let tableSize := alphabetSize p
  if search.start = 0 then search.isolate.badCharShiftTable.fill tableSize (-1)
  else search.isolate.badCharShiftTable.fill tableSize (search.start - 1)

/-- Registers the character at position `i`. -/
def registerChar (table : Table kUC16AlphabetSize) (i : ℤ) : Option (Table kUC16AlphabetSize) := do
  let c ← readVector search.pattern i
  table.write (bucket c) i

def populateBoyerMooreHorspoolTable : Option (StringSearch p s) := do
  let table ← search.clearBadChars
  -- the last character is not included
  let table ← (interval search.start (search.patternLength - 1)).foldlM search.registerChar table
  some { search with isolate := { search.isolate with badCharShiftTable := table } }

/-- `while (last_char != (subject_char = subject[index + j]))`, with the badness. -/
def boyerMooreHorspoolSkip (search : StringSearch p s) (subject : List (Character s)) :
    ℕ → ℤ → ℤ → Option (Option (ℤ × ℤ))
  | 0, _, _ => none
  | fuel + 1, index, badness => do
    let j := search.patternLength - 1
    let subjectChar ← readVector subject (index + j)
    if (← search.lastChar).toNat ≠ subjectChar.toNat then
      let shift ← search.badCharShift j subjectChar
      let index := index + shift
      let badness := badness + (1 - shift)
      if index > subject.length - search.patternLength then some none
      else boyerMooreHorspoolSkip search subject fuel index badness
    else some (some (index, badness))

def boyerMooreHorspoolLoop (fuel : ℕ) (search : StringSearch p s) (subject : List (Character s))
    (lastCharShift : ℤ) : ℕ → ℤ → ℤ → Option (ℤ × StringSearch p s)
  | 0, _, _ => none
  | steps + 1, index, badness =>
    if index ≤ subject.length - search.patternLength then do
      match ← search.boyerMooreHorspoolSkip subject fuel index badness with
      | none => some (-1, search)
      | some (index, badness) =>
        let j ← matchBackwards search.pattern subject index fuel (search.patternLength - 2)
        if j < 0 then some (index, search)
        else
          let index := index + lastCharShift
          let badness := badness + ((search.patternLength - j) - lastCharShift)
          if badness > 0 then
            let search ← search.populateBoyerMooreTable fuel
            let search := { search with strategy := .boyerMooreSearch }
            some (← search.boyerMooreSearch fuel subject index, search)
          else boyerMooreHorspoolLoop fuel search subject lastCharShift steps index badness
    else some (-1, search)

def boyerMooreHorspoolSearch (startIndex : ℤ) : Option (ℤ × StringSearch p s) := do
  let badness := -search.patternLength
  let lastCharShift ← search.lastCharShift
  boyerMooreHorspoolLoop fuel search subject lastCharShift fuel startIndex badness

/-! ## Initial search -/

/-- The number of characters that agree, from `j` on: `do … while (j < pattern_length)`. -/
def matchForwards (pattern : List (Character p)) (subject : List (Character s)) (i : ℤ) :
    ℕ → ℤ → Option ℤ
  | 0, _ => none
  | fuel + 1, j => do
    let a ← readVector pattern j
    let b ← readVector subject (i + j)
    if a.toNat ≠ b.toNat then some j
    else if j + 1 < pattern.length then matchForwards pattern subject i fuel (j + 1)
    else some (j + 1)

def initialSearchLoop (fuel : ℕ) (search : StringSearch p s) (subject : List (Character s))
    (n : ℤ) : ℕ → ℤ → ℤ → Option (ℤ × StringSearch p s)
  | 0, _, _ => none
  | steps + 1, i, badness =>
    if i ≤ n then do
      let badness := badness + 1
      if badness ≤ 0 then
        let i ← findFirstCharacter fuel search.pattern subject i
        if i = -1 then some (-1, search)
        else
          let j ← matchForwards search.pattern subject i fuel 1
          if j = search.patternLength then some (i, search)
          else initialSearchLoop fuel search subject n steps (i + 1) (badness + j)
      else
        let search ← search.populateBoyerMooreHorspoolTable
        let search := { search with strategy := .boyerMooreHorspoolSearch }
        search.boyerMooreHorspoolSearch fuel subject i
    else some (-1, search)

def initialSearch (index : ℤ) : Option (ℤ × StringSearch p s) :=
  let badness := -10 - search.patternLength * 4
  initialSearchLoop fuel search subject (subject.length - search.patternLength) fuel index badness

end

/-- **`Search`.** -/
def search (fuel : ℕ) (search : StringSearch p s) (subject : List (Character s)) (index : ℤ) :
    Option (ℤ × StringSearch p s) :=
  match search.strategy with
  | .failSearch => some (-1, search)
  | .singleCharSearch => do some (← search.singleCharSearch fuel subject index, search)
  | .linearSearch => do some (← search.linearSearch fuel subject index, search)
  | .initialSearch => search.initialSearch fuel subject index
  | .boyerMooreHorspoolSearch => search.boyerMooreHorspoolSearch fuel subject index
  | .boyerMooreSearch => do some (← search.boyerMooreSearch fuel subject index, search)

/-- Searches with one object, one after the other, no other search in between. -/
def searches (fuel : ℕ) : StringSearch p s → List (List (Character s) × ℕ) →
    Option (List ℤ × StringSearch p s)
  | search, [] => some ([], search)
  | search, (subject, index) :: calls => do
    let (result, search) ← search.search fuel subject index
    let (results, search) ← searches fuel search calls
    some (result :: results, search)

end StringSearch
