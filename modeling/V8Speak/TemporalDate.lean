import V8Speak.DateCache
import V8Speak.TemporalRounding

/-!
# Adding to ISO dates and their difference

`AddISODate` and `DifferenceISODate` of `objects/js-temporal-objects.cc`. Months are counted
from 1. Adding keeps the day of the month where this is possible and takes the last day of
the month where it is not; weeks and days are added afterwards. The difference in years and
months is found by trial: the years between the dates are added, then the months, and if
this goes past the second date then one year or one month less is taken.

Dates are balanced with the date cache, which is passed along. The fields of dates and all
that is computed with them are of type `int`; what overflows is undefined, and gives
`none`. The components of durations are doubles, and as those of a duration have one sign, the
conversion to `int` is only defined where they are exact. An exception is `none` as well.
-/

namespace Temporal

open DateCache

/-! ## Dates -/

structure DateRecord where
  year : ℤ
  month : ℤ
  day : ℤ
  deriving DecidableEq, Repr

structure TimeRecord where
  hour : ℤ
  minute : ℤ
  second : ℤ
  millisecond : ℤ
  microsecond : ℤ
  nanosecond : ℤ

def isoDaysInMonth (year month : ℤ) : ℤ :=
  if month.tmod 2 = if month < 8 then 1 else 0 then 31
  else if month ≠ 2 then 30
  else if isLeap year then 29 else 28

def isoDaysInYear (year : ℤ) : ℤ := if isLeap year then 366 else 365

def isValidISODate (date : DateRecord) : Bool :=
  if date.month < 1 ∨ date.month > 12 then false
  else if date.day < 1 ∨ date.day > isoDaysInMonth date.year date.month then false
  else true

def isoDateTimeWithinLimits (date : DateRecord) (time : TimeRecord) : Bool :=
  if date.year > -271821 ∧ date.year < 275760 then true
  else if date.year < -271821 ∨ date.year > 275760 then false
  else if date.year = -271821 then
    if date.month > 4 then true
    else if date.month < 4 then false
    else if date.day > 19 then true
    else if date.day < 19 then false
    else if time.hour > 0 then true
    else if time.minute > 0 then true
    else if time.second > 0 then true
    else if time.millisecond > 0 then true
    else if time.microsecond > 0 then true
    else time.nanosecond > 0
  else if date.month > 9 then false
  else if date.month < 9 then true
  else date.day < 14

def compareISODate (one two : DateRecord) : ℤ :=
  if one.year > two.year then 1
  else if one.year < two.year then -1
  else if one.month > two.month then 1
  else if one.month < two.month then -1
  else if one.day > two.day then 1
  else if one.day < two.day then -1
  else 0

def toISODayOfYear (date : DateRecord) : Option ℤ := do
  let firstOfMonth ← daysFromYearMonth date.year (date.month - 1)
  let firstOfYear ← daysFromYearMonth date.year 0
  int32 ((← int32 (date.day + firstOfMonth)) - firstOfYear)

/-! ## Durations -/

structure DateDurationRecord where
  years : ℤ
  months : ℤ
  weeks : ℤ
  days : ℤ
  deriving DecidableEq, Repr

namespace DateDurationRecord

def durationSign (dur : DateDurationRecord) : ℤ :=
  if dur.years < 0 then -1
  else if dur.years > 0 then 1
  else if dur.months < 0 then -1
  else if dur.months > 0 then 1
  else if dur.weeks < 0 then -1
  else if dur.weeks > 0 then 1
  else if dur.days < 0 then -1
  else if dur.days > 0 then 1
  else 0

def isValidDuration (dur : DateDurationRecord) : Bool :=
  let sign := dur.durationSign
  !((sign > 0 ∧ (dur.years < 0 ∨ dur.months < 0 ∨ dur.weeks < 0 ∨ dur.days < 0)) ∨
    (sign < 0 ∧ (dur.years > 0 ∨ dur.months > 0 ∨ dur.weeks > 0 ∨ dur.days > 0)) : Bool)

def create (years months weeks days : ℤ) : Option DateDurationRecord :=
  if isValidDuration ⟨years, months, weeks, days⟩ then some ⟨years, months, weeks, days⟩ else none

end DateDurationRecord

/-! ## Balancing -/

inductive ShowOverflow
  | constrain
  | reject

def floorDivid (a b : ℤ) : ℤ := a.tdiv b + if a < 0 ∧ a.tmod b ≠ 0 then -1 else 0

/-- The remainder is computed by a function on doubles, `modulo`. -/
def balanceISOYearMonth (year month : ℤ) : Option (ℤ × ℤ) := do
  let month ← int32 (month - 1)
  let year ← int32 (year + floorDivid month 12)
  some (year, month % 12 + 1)

def regulateISODate (overflow : ShowOverflow) (date : DateRecord) : Option DateRecord :=
  match overflow with
  | .reject => if isValidISODate date then some date else none
  | .constrain =>
    let month := max (min date.month 12) 1
    some { date with month, day := max (min date.day (isoDaysInMonth date.year month)) 1 }

variable (c : YmdCache)

def balanceISODate (date : DateRecord) : Option (DateRecord × YmdCache) := do
  -- a date that is not a number is none here
  let epochDays ← (makeDay date.year (date.month - 1) date.day).join
  let ms ← int64 (epochDays * kMsPerDay)
  let (fields, c) ← c.breakDownTime ms
  some (⟨fields.year, fields.month + 1, fields.day⟩, c)

/-! ## The two operations -/

def addISODate (date : DateRecord) (duration : DateDurationRecord)
    (overflow : ShowOverflow) : Option (DateRecord × YmdCache) := do
  let year ← int32 (date.year + (← int32 duration.years))
  let month ← int32 (date.month + (← int32 duration.months))
  let (year, month) ← balanceISOYearMonth year month
  let intermediate ← regulateISODate overflow ⟨year, month, date.day⟩
  let day ← int32 (intermediate.day + (duration.days + 7 * duration.weeks))
  balanceISODate c { intermediate with day }

/-- The days between a date of a month and the end. -/
def remainingDays (sign : ℤ) (mid fin : DateRecord) : ℤ :=
  if mid.month = fin.month then fin.day - mid.day
  else if sign < 0 then -mid.day - (isoDaysInMonth fin.year fin.month - fin.day)
  else fin.day + (isoDaysInMonth mid.year mid.month - mid.day)

/-- A duration of years and months, or of months only. -/
def createFromYears (largestUnit : Unit) (years months days : ℤ) : Option DateDurationRecord :=
  if largestUnit = .month then DateDurationRecord.create 0 (months + years * 12) 0 days
  else DateDurationRecord.create years months 0 days

/-- One month less, and one year less where there are no months. -/
def decrementMonths (sign years months : ℤ) : ℤ × ℤ :=
  let months := months - sign
  if months = -sign then (years - sign, 11 * sign) else (years, months)

variable (date1 date2 : DateRecord)

/-- The second and the third trial, with years and months. -/
def differenceMonths (largestUnit : Unit)
    (sign years months : ℤ) : Option (DateDurationRecord × YmdCache) := do
  let (mid, c) ← addISODate c date1 ⟨years, months, 0, 0⟩ .constrain
  let midSign := -compareISODate mid date2
  if midSign = 0 then some (← createFromYears largestUnit years months 0, c)
  else if midSign ≠ sign then
    let (years, months) := decrementMonths sign years months
    let (mid, c) ← addISODate c date1 ⟨years, months, 0, 0⟩ .constrain
    some (← createFromYears largestUnit years months (remainingDays sign mid date2), c)
  else some (← createFromYears largestUnit years months (remainingDays sign mid date2), c)

/-- The first trial, with years. -/
def differenceYears (largestUnit : Unit) : Option (DateDurationRecord × YmdCache) := do
  let sign := -compareISODate date1 date2
  if sign = 0 then some (← DateDurationRecord.create 0 0 0 0, c)
  else
    let years ← int32 (date2.year - date1.year)
    let (mid, c) ← addISODate c date1 ⟨years, 0, 0, 0⟩ .constrain
    let midSign := -compareISODate mid date2
    if midSign = 0 then some (← createFromYears largestUnit years 0 0, c)
    else
      let months := date2.month - date1.month
      if midSign ≠ sign then
        differenceMonths c date1 date2 largestUnit sign (years - sign) (months + sign * 12)
      else differenceMonths c date1 date2 largestUnit sign years months

/-- The loop over the years. -/
def addDaysInYears : ℕ → ℤ → ℤ → Option ℤ
  | 0, _, days => some days
  | n + 1, year, days => do addDaysInYears n (year + 1) (← int32 (days + isoDaysInYear year))

def differenceDays (largestUnit : Unit) : Option DateDurationRecord := do
  let (smaller, greater, sign) :=
    if compareISODate date1 date2 < 0 then (date1, date2, 1) else (date2, date1, -1)
  let days ← int32 ((← toISODayOfYear greater) - (← toISODayOfYear smaller))
  let days ← addDaysInYears (greater.year - smaller.year).toNat smaller.year days
  if largestUnit = .week then DateDurationRecord.create 0 0 (days.tdiv 7 * sign) (days.tmod 7 * sign)
  else DateDurationRecord.create 0 0 0 (days * sign)

/-- The other units are unreachable. -/
def differenceISODate (largestUnit : Unit) : Option (DateDurationRecord × YmdCache) :=
  match largestUnit with
  | .year | .month => differenceYears c date1 date2 largestUnit
  | .day | .week => do some (← differenceDays date1 date2 largestUnit, c)
  | _ => none

end Temporal
