import Mathlib

/-!
# Dates and the date cache

`DateCache` breaks times down into dates, and knows the daylight-saving offset of a
time. Both are cached. For dates there is one entry, the last date computed: a day
close to it is in the same month. For daylight-saving offsets there are 32
segments of time within which the offset does not change, filled by asking the
operating system.

Times are milliseconds since 1970 in 64 bits, days, years and all else are of type
`int`. What overflows is undefined, and gives `none`, as does leaving a month
unassigned and writing to a null pointer; conversions wrap around. Division is
that of C++, which rounds towards 0. The daylight-saving part computes with seconds
that are times the operating system knows, with 19 days and with a usage counter
that starts again before it overflows, so there are no overflows to model.
-/

namespace DateCache

/-- A result of type `int`. -/
def int32 (x : ℤ) : Option ℤ := if -2 ^ 31 ≤ x ∧ x < 2 ^ 31 then some x else none

/-- A result of type `int64_t`. -/
def int64 (x : ℤ) : Option ℤ := if -2 ^ 63 ≤ x ∧ x < 2 ^ 63 then some x else none

/-- `static_cast<int>`. -/
def castInt (x : ℤ) : ℤ := x.bmod (2 ^ 32)

def kMaxInt : ℤ := 2 ^ 31 - 1

def kSecPerDay : ℤ := 24 * 60 * 60

def kMsPerDay : ℤ := kSecPerDay * 1000

def kMsPerMonth : ℤ := kMsPerDay * 30

def kMaxEpochTimeInSec : ℤ := kMaxInt

def kMaxEpochTimeInMs : ℤ := kMaxInt * 1000

def kMaxTimeInMs : ℤ := 864000000 * 10000000

def kMaxTimeBeforeUTCInMs : ℤ := kMaxTimeInMs + kMsPerMonth

def kDaysIn4Years : ℤ := 4 * 365 + 1

def kDaysIn100Years : ℤ := 25 * kDaysIn4Years - 1

def kDaysIn400Years : ℤ := 4 * kDaysIn100Years + 1

def kDays1970to2000 : ℤ := 30 * 365 + 7

def kDaysOffset : ℤ := 1000 * kDaysIn400Years + 5 * kDaysIn400Years - kDays1970to2000

def kYearsOffset : ℤ := 400000

def kDaysInMonths : List ℤ := [31, 28, 31, 30, 31, 30, 31, 31, 30, 31, 30, 31]

/-! ## Times, days and years -/

def daysFromTime (timeMs : ℤ) : Option ℤ := do
  let timeMs ← if timeMs < 0 then int64 (timeMs - (kMsPerDay - 1)) else some timeMs
  some (castInt (timeMs.tdiv kMsPerDay))

def timeInDay (timeMs days : ℤ) : Option ℤ := do
  some (castInt (← int64 (timeMs - days * kMsPerDay)))

def weekday (days : ℤ) : Option ℤ := do
  let result := (← int32 (days + 4)).tmod 7
  some (if result ≥ 0 then result else result + 7)

def isLeap (year : ℤ) : Bool :=
  year.tmod 4 = 0 ∧ (year.tmod 100 ≠ 0 ∨ year.tmod 400 = 0)

def dayFromMonth : List ℤ := [0, 31, 59, 90, 120, 151, 181, 212, 243, 273, 304, 334]

def dayFromMonthLeap : List ℤ := [0, 31, 60, 91, 121, 152, 182, 213, 244, 274, 305, 335]

def yearDelta : ℤ := 399999

def baseDay : ℤ :=
  365 * (1970 + yearDelta) + (1970 + yearDelta).tdiv 4 - (1970 + yearDelta).tdiv 100 +
    (1970 + yearDelta).tdiv 400

/-- The year and the month of the year of a month that may be in another year. -/
def normalizeMonth (year month : ℤ) : Option (ℤ × ℤ) := do
  let year ← int32 (year + month.tdiv 12)
  let month := month.tmod 12
  if month < 0 then some (← int32 (year - 1), month + 12) else some (year, month)

/-- The day of the year a month begins with, from the table for the year. -/
def dayFromMonthInYear (year month : ℤ) : Option ℤ :=
  if year.tmod 4 ≠ 0 ∨ year.tmod 100 = 0 ∧ year.tmod 400 ≠ 0 then dayFromMonth[month.toNat]?
  else dayFromMonthLeap[month.toNat]?

def daysFromYearMonth (year month : ℤ) : Option ℤ := do
  let (year, month) ← normalizeMonth year month
  let year1 ← int32 (year + yearDelta)
  let dayFromYear ← int32 (365 * year1)
  let dayFromYear ← int32 (dayFromYear + year1.tdiv 4)
  let dayFromYear ← int32 (dayFromYear - year1.tdiv 100)
  let dayFromYear ← int32 (dayFromYear + year1.tdiv 400)
  let dayFromYear ← int32 (dayFromYear - baseDay)
  int32 (dayFromYear + (← dayFromMonthInYear year month))

def kMinYear : ℤ := -1000000

def kMaxYear : ℤ := -kMinYear

def kMinMonth : ℤ := -10000000

def kMaxMonth : ℤ := -kMinMonth

/-- `MakeDay`, of doubles that are integers, which has the statements of
`DaysFromYearMonth` behind a guard. -/
def makeDay (year month date : ℤ) : Option (Option ℤ) :=
  if (kMinYear ≤ year ∧ year ≤ kMaxYear) ∧ kMinMonth ≤ month ∧ month ≤ kMaxMonth then do
    some (some ((← int32 ((← daysFromYearMonth year month) - 1)) + date))
  else some none -- not a number

/-- The date starting from March: the month and the day of the first month of the
list that the day is in. -/
def dateFromMarch : List ℕ → ℤ → Option (ℤ × ℤ)
  | [], _ => none
  | i :: months, days => do
    let length ← kDaysInMonths[i]?
    if days < length then some (i, days + 1) else dateFromMarch months (days - length)

/-- The month and the day of the month, of a day of the year. -/
def monthDay (days : ℤ) (isLeap : Bool) : Option (ℤ × ℤ) :=
  if days ≥ 31 + 28 + (if isLeap then 1 else 0) then
    dateFromMarch ((List.range 12).drop 2) (days - (31 + 28 + (if isLeap then 1 else 0)))
  else if days < 31 then some (0, days + 1)
  else some (1, days - 31 + 1)

/-- The year, the month and the day, where they are not cached. -/
def computeYearMonthDay (days : ℤ) : Option (ℤ × ℤ × ℤ) := do
  let days ← int32 (days + kDaysOffset)
  let year := 400 * days.tdiv kDaysIn400Years - kYearsOffset
  let days := days.tmod kDaysIn400Years
  let days := days - 1
  let yd1 := days.tdiv kDaysIn100Years
  let days := days.tmod kDaysIn100Years
  let year := year + 100 * yd1
  let days := days + 1
  let yd2 := days.tdiv kDaysIn4Years
  let days := days.tmod kDaysIn4Years
  let year := year + 4 * yd2
  let days := days - 1
  let yd3 := days.tdiv 365
  let days := days.tmod 365
  let year := year + yd3
  let isLeap : Bool := (yd1 = 0 ∨ yd2 ≠ 0) ∧ yd3 = 0
  let days := days + if isLeap then 1 else 0
  let (month, day) ← monthDay days isLeap
  some (year, month, day)

/-- An equivalent year between 2008 and 2035. -/
def equivalentYear (year : ℤ) : Option ℤ := do
  let weekDay ← weekday (← daysFromYearMonth year 0)
  let recentYear := (if isLeap year then 1956 else 1967) + (weekDay * 12).tmod 28
  some (2008 + (recentYear + 3 * 28 - 2008).tmod 28)

end DateCache

/-! ## The cached date -/

/-- The date computed last. -/
structure YmdCache where
  ymdValid : Bool
  ymdDays : ℤ
  ymdYear : ℤ
  ymdMonth : ℤ
  ymdDay : ℤ
  deriving DecidableEq, Repr

namespace YmdCache

open DateCache

/-- What is computed and remembered if the day is not close to the cached one. -/
def yearMonthDayMiss (days : ℤ) : Option ((ℤ × ℤ × ℤ) × YmdCache) := do
  let (year, month, day) ← computeYearMonthDay days
  some ((year, month, day), ⟨true, days, year, month, day⟩)

def yearMonthDayFromDays (c : YmdCache) (days : ℤ) : Option ((ℤ × ℤ × ℤ) × YmdCache) :=
  if c.ymdValid then do
    let newDay ← int32 (c.ymdDay + (← int32 (days - c.ymdDays)))
    if newDay ≥ 1 ∧ newDay ≤ 28 then
      some ((c.ymdYear, c.ymdMonth, newDay), { c with ymdDay := newDay, ymdDays := days })
    else yearMonthDayMiss days
  else yearMonthDayMiss days

/-- The results of `BreakDownTime`. -/
structure Fields where
  year : ℤ
  month : ℤ
  day : ℤ
  weekday : ℤ
  hour : ℤ
  min : ℤ
  sec : ℤ
  ms : ℤ
  deriving DecidableEq, Repr

def breakDownTime (c : YmdCache) (timeMs : ℤ) : Option (Fields × YmdCache) := do
  let days ← daysFromTime timeMs
  let timeInDayMs ← timeInDay timeMs days
  let ((year, month, day), c) ← c.yearMonthDayFromDays days
  let weekday ← weekday days
  some (⟨year, month, day, weekday, timeInDayMs.tdiv (60 * 60 * 1000),
    (timeInDayMs.tdiv (60 * 1000)).tmod 60, (timeInDayMs.tdiv 1000).tmod 60,
    timeInDayMs.tmod 1000⟩, c)

def equivalentTime (c : YmdCache) (timeMs : ℤ) : Option (ℤ × YmdCache) := do
  let days ← daysFromTime timeMs
  let timeWithinDayMs ← timeInDay timeMs days
  let ((year, month, day), c) ← c.yearMonthDayFromDays days
  let newDays ← int32 ((← daysFromYearMonth (← equivalentYear year) month) + day - 1)
  some (newDays * kMsPerDay + timeWithinDayMs, c)

end YmdCache

/-! ## The daylight-saving cache -/

/-- A segment of time in which the daylight-saving offset does not change. -/
structure DST where
  startSec : ℤ
  endSec : ℤ
  offsetMs : ℤ
  lastUsed : ℤ
  deriving DecidableEq, Repr

/-- `InvalidSegment`. -/
def DST.Invalid (segment : DST) : Prop := segment.startSec > segment.endSec

instance (segment : DST) : Decidable segment.Invalid := inferInstanceAs (Decidable (_ < _))

namespace DateCache

def kDefaultDSTDeltaInSec : ℤ := 19 * kSecPerDay

abbrev kDSTSize : ℕ := 32

/-- What `ClearSegment` writes. -/
def clearedSegment : DST := ⟨kMaxEpochTimeInSec, -kMaxEpochTimeInSec, 0, 0⟩

/-- Where `DaylightSavingsOffsetInMs` returns: with an offset, or at its end, where it
returns 0. -/
inductive Answer where
  | offset (offsetMs : ℤ)
  | notFound
  deriving DecidableEq, Repr

end DateCache

structure DstCache where
  dst : Fin DateCache.kDSTSize → DST
  dstUsageCounter : ℤ
  /-- `before_` and `after_` point to segments. -/
  before : Fin DateCache.kDSTSize
  after : Fin DateCache.kDSTSize

namespace DstCache

open DateCache

variable (c : DstCache)

/-- The segment `before_` points to. -/
def beforeSegment : DST := c.dst c.before

/-- The segment `after_` points to. -/
def afterSegment : DST := c.dst c.after

variable (i : Fin kDSTSize)

def set (segment : DST) : DstCache :=
  { c with dst := Function.update c.dst i segment }

def clearSegment : DstCache := c.set i clearedSegment

/-- `segment->last_used = ++dst_usage_counter_`. -/
def use : DstCache :=
  { c.set i { c.dst i with lastUsed := c.dstUsageCounter + 1 } with
    dstUsageCounter := c.dstUsageCounter + 1 }

/-- A segment of one second. -/
def fill (timeSec offsetMs : ℤ) : DstCache :=
  (c.set i ⟨timeSec, timeSec, offsetMs, (c.dst i).lastUsed⟩).use i

def swap : DstCache := { c with before := c.after, after := c.before }

/-- Clears all segments. -/
def restart : DstCache :=
  { c with dstUsageCounter := 0, dst := fun _ => clearedSegment }

/-- The segment used least recently among those seen so far and the next one. -/
def leastRecentlyUsedStep (skip result : Option (Fin kDSTSize))
    (i : Fin kDSTSize) : Option (Fin kDSTSize) :=
  if some i = skip then result
  else match result with
    | none => some i
    | some r => if (c.dst r).lastUsed > (c.dst i).lastUsed then some i else some r

def leastRecentlyUsedDST (skip : Option (Fin kDSTSize)) : Option (Fin kDSTSize × DstCache) := do
  let result ← (List.finRange kDSTSize).foldl (c.leastRecentlyUsedStep skip) none
  some (result, c.clearSegment result)

/-- The segments before and after a time, among those seen so far and the next one. -/
def probeStep (timeSec : ℤ)
    (found : Option (Fin kDSTSize) × Option (Fin kDSTSize)) (i : Fin kDSTSize) :
    Option (Fin kDSTSize) × Option (Fin kDSTSize) :=
  if (c.dst i).startSec ≤ timeSec then
    if ∀ before ∈ found.1, (c.dst before).startSec < (c.dst i).startSec then (some i, found.2)
    else found
  else if timeSec < (c.dst i).endSec then
    if ∀ after ∈ found.2, (c.dst after).endSec > (c.dst i).endSec then (found.1, some i)
    else found
  else found

/-- The segment before the time, or any invalid one. -/
def probeBefore : Option (Fin kDSTSize) × Option (Fin kDSTSize) → Option (Fin kDSTSize × DstCache)
  | (some before, _) => some (before, c)
  | (none, after) =>
    if c.beforeSegment.Invalid then some (c.before, c) else c.leastRecentlyUsedDST after

/-- The segment after the time, or any invalid one. -/
def probeAfter (before : Fin kDSTSize) : Option (Fin kDSTSize) → Option (Fin kDSTSize × DstCache)
  | some after => some (after, c)
  | none =>
    if c.afterSegment.Invalid ∧ before ≠ c.after then some (c.after, c)
    else c.leastRecentlyUsedDST (some before)

def probeDST (timeSec : ℤ) : Option DstCache := do
  let found := (List.finRange kDSTSize).foldl (c.probeStep timeSec) (none, none)
  let (before, c) ← c.probeBefore found
  let (after, c) ← c.probeAfter before found.2
  some { c with before, after }

/-- An `after_` segment to write to: the one there is if it is invalid. -/
def replaceAfter : Option DstCache :=
  if ¬c.afterSegment.Invalid then do
    let (after, c) ← c.leastRecentlyUsedDST (some c.before)
    some { c with after }
  else some c

def extendTheAfterSegment (timeSec offsetMs : ℤ) : Option DstCache :=
  if c.afterSegment.offsetMs = offsetMs ∧
      c.afterSegment.startSec - kDefaultDSTDeltaInSec ≤ timeSec ∧
      timeSec ≤ c.afterSegment.endSec then
    some (c.set c.after { c.afterSegment with startSec := timeSec })
  else do
    let c ← c.replaceAfter
    some (c.fill c.after timeSec offsetMs)

/-- The binary search, for a number of iterations. -/
def bisect (os : ℤ → ℤ) (timeSec : ℤ) : ℕ → DstCache → Answer × DstCache
  | 0, c => (.notFound, c)
  | i + 1, c =>
    let delta := c.afterSegment.startSec - c.beforeSegment.endSec
    let middleSec := if i = 0 then timeSec else c.beforeSegment.endSec + delta.tdiv 2
    let offsetMs := os middleSec
    if c.beforeSegment.offsetMs = offsetMs then
      let c := c.set c.before { c.beforeSegment with endSec := middleSec }
      if timeSec ≤ c.beforeSegment.endSec then (.offset offsetMs, c) else bisect os timeSec i c
    else
      let c := c.set c.after { c.afterSegment with startSec := middleSec }
      if timeSec ≥ c.afterSegment.startSec then (.offset offsetMs, c.swap)
      else bisect os timeSec i c

variable (os : ℤ → ℤ)

/-- An `after_` segment that begins at most `kDefaultDSTDeltaInSec` after the
`before_` segment ends. -/
def closeAfter (c : DstCache) : Option DstCache :=
  let newAfterStartSec :=
    if c.beforeSegment.endSec < kMaxEpochTimeInSec - kDefaultDSTDeltaInSec then
      c.beforeSegment.endSec + kDefaultDSTDeltaInSec
    else kMaxEpochTimeInSec
  if newAfterStartSec ≤ c.afterSegment.startSec then
    c.extendTheAfterSegment newAfterStartSec (os newAfterStartSec)
  else some (c.use c.after)

/-- The offset of a time between the two segments. -/
def offsetBetween (c : DstCache) (timeSec : ℤ) : Answer × DstCache :=
  if c.beforeSegment.offsetMs = c.afterSegment.offsetMs then
    let c := c.set c.before { c.beforeSegment with endSec := c.afterSegment.endSec }
    let c := c.clearSegment c.after
    (.offset c.beforeSegment.offsetMs, c)
  else bisect os timeSec 5 c

/-- The offset of a time that has been probed for. -/
def offsetProbed (c : DstCache) (timeSec : ℤ) : Option (Answer × DstCache) :=
  if c.beforeSegment.Invalid then
    let c := c.fill c.before timeSec (os timeSec)
    some (.offset c.beforeSegment.offsetMs, c)
  else if timeSec ≤ c.beforeSegment.endSec then
    some (.offset c.beforeSegment.offsetMs, c.use c.before)
  else if timeSec - kDefaultDSTDeltaInSec > c.beforeSegment.endSec then do
    let offsetMs := os timeSec
    let c ← c.extendTheAfterSegment timeSec offsetMs
    some (.offset offsetMs, c.swap)
  else do
    let c ← (c.use c.before).closeAfter os
    some (c.offsetBetween os timeSec)

/-- `DaylightSavingsOffsetInMs`, for a time in seconds. The operating system gives
the offset of a time as `os`. -/
def offsetAt (c : DstCache) (timeSec : ℤ) : Option (Answer × DstCache) :=
  let c := if c.dstUsageCounter ≥ kMaxInt - 10 then c.restart else c
  if c.beforeSegment.startSec ≤ timeSec ∧ timeSec ≤ c.beforeSegment.endSec then
    some (.offset c.beforeSegment.offsetMs, c.use c.before)
  else do
    let c ← c.probeDST timeSec
    c.offsetProbed os timeSec

end DstCache

/-! ## The date cache -/

structure DateCache extends YmdCache, DstCache

namespace DateCache

def resetDateCache (c : DateCache) : DateCache :=
  { c with
    dst := fun _ => clearedSegment
    dstUsageCounter := 0
    before := 0
    after := 1
    ymdValid := false }

/-- The time in seconds to ask the operating system about. -/
def osTime (c : YmdCache) (timeMs : ℤ) : Option (ℤ × YmdCache) :=
  if timeMs ≥ 0 ∧ timeMs ≤ kMaxEpochTimeInMs then some (castInt (timeMs.tdiv 1000), c)
  else do
    let (equivalent, c) ← c.equivalentTime timeMs
    some (castInt (equivalent.tdiv 1000), c)

def daylightSavingsOffsetInMs (os : ℤ → ℤ) (c : DateCache) (timeMs : ℤ) :
    Option (Answer × DateCache) := do
  let (timeSec, ymd) ← osTime c.toYmdCache timeMs
  let (answer, dst) ← c.toDstCache.offsetAt os timeSec
  some (answer, { toYmdCache := ymd, toDstCache := dst })

/-- The calls that use or change what is cached. -/
inductive Call where
  | resetDateCache
  | yearMonthDayFromDays (days : ℤ)
  | breakDownTime (timeMs : ℤ)
  | equivalentTime (timeMs : ℤ)
  | daylightSavingsOffsetInMs (timeMs : ℤ)

def Call.run (os : ℤ → ℤ) (c : DateCache) : Call → Option DateCache
  | resetDateCache => some c.resetDateCache
  | yearMonthDayFromDays days => do
    some { c with toYmdCache := (← c.toYmdCache.yearMonthDayFromDays days).2 }
  | breakDownTime timeMs => do
    some { c with toYmdCache := (← c.toYmdCache.breakDownTime timeMs).2 }
  | equivalentTime timeMs => do
    some { c with toYmdCache := (← c.toYmdCache.equivalentTime timeMs).2 }
  | daylightSavingsOffsetInMs timeMs => do
    some (← c.daylightSavingsOffsetInMs os timeMs).2

end DateCache
