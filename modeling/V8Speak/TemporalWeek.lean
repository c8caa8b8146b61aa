import V8Speak.TemporalDateDifference

/-!
# Weeks of the year

`ToISODayOfWeek` and `ToISOWeekOfYear` (`objects/js-temporal-objects.cc`). The week of a date
is counted from the day of the year and the day of the week, and what comes out as week 0 or as
week 53 is put right by looking at the first of January or at the end of the year. A week
belongs to the year its Thursday is in, and this is the day that is counted: the quotient
goes up by one with each Thursday of the year of the date (`toISOWeekOfYear_eq`).
-/

open Option Finset

namespace Gregorian

/-- The first of January. -/
def Date.newYear (year : ℤ) : Date := ⟨year, 0, 1, by decide, le_rfl, show (1 : ℤ) ≤ 31 by decide⟩

theorem Date.dayNumber_newYear (year : ℤ) : (newYear year).dayNumber = firstOfYear year := by
  show firstOfYear year + 0 + 1 - 1 = firstOfYear year
  omega

/-- A year is over when the next one begins. -/
theorem Date.dayNumber_lt_firstOfYear (d : Date) : d.dayNumber < firstOfYear (d.year + 1) := by
  have hm := d.month_lt
  rw [← dayNumber_newYear]
  refine dayNumber_lt_of_monthIndex_lt ?_
  show 12 * d.year + (d.month : ℤ) < 12 * (d.year + 1) + 0
  omega

/-- The number of Thursdays from one day up to another. -/
def thursdays (first last : ℤ) : ℕ :=
  ((range (last - first + 1).toNat).filter fun i : ℕ => weekday (first + i) = 4).card

theorem thursdays_eq {first thursday : ℤ} (h : weekday thursday = 4) (hle : first ≤ thursday) :
    (thursdays first thursday : ℤ) = (thursday - first) / 7 + 1 := by
  have himage : ((range (thursday - first + 1).toNat).filter
      fun i : ℕ => weekday (first + i) = 4) = (range ((thursday - first) / 7 + 1).toNat).image
        fun i => ((thursday - first) % 7).toNat + 7 * i := by
    ext k
    simp only [mem_filter, mem_range, mem_image]
    unfold weekday at *
    constructor
    · rintro ⟨hk, hk'⟩
      exact ⟨k / 7, by omega, by omega⟩
    · rintro ⟨i, hi, rfl⟩
      omega
  have hinj : Function.Injective fun i => ((thursday - first) % 7).toNat + 7 * i := by
    intro i j hij
    dsimp only at hij
    omega
  rw [thursdays, himage, card_image_of_injective _ hinj, card_range]
  omega

end Gregorian

namespace Temporal

open DateCache Gregorian

def toISODayOfWeek (date : DateRecord) : Option ℤ := do
  let firstOfMonth ← daysFromYearMonth date.year (date.month - 1)
  let epochDays ← int32 ((← int32 (firstOfMonth + date.day)) - 1)
  let weekday ← DateCache.weekday epochDays
  some (if weekday = 0 then 7 else weekday)

def kMaxWeekNumber : ℤ := 53

/-- The last week of the year before. -/
def lastWeekOfYear (date : DateRecord) : Option ℤ := do
  let dayOfJan1st ← toISODayOfWeek ⟨date.year, 1, 1⟩
  if dayOfJan1st = 5 then some kMaxWeekNumber
  else if dayOfJan1st = 6 ∧ isLeap (date.year - 1) then some kMaxWeekNumber
  else some (kMaxWeekNumber - 1)

def toISOWeekOfYear (date : DateRecord) : Option ℤ := do
  let dayOfYear ← toISODayOfYear date
  let dayOfWeek ← toISODayOfWeek date
  let week := (dayOfYear + 7 - dayOfWeek + 3).tdiv 7
  if week < 1 then lastWeekOfYear date
  else if week = kMaxWeekNumber then
    let daysLaterInYear := isoDaysInYear date.year - dayOfYear
    let daysAfterThursday := 4 - dayOfWeek
    if daysLaterInYear < daysAfterThursday then some 1 else some week
  else some week

variable {d : Date}

/-- The days of the week are counted from Monday. -/
theorem toISODayOfWeek_ofDate (h : WithinLimits d) :
    toISODayOfWeek (ofDate d) = some ((d.dayNumber + 3) % 7 + 1) := by
  have hlow := h.low
  have hhigh := h.high
  have hnear := h.near.dayNumber
  unfold Date.dayNumber at hnear ⊢
  unfold toISODayOfWeek
  dsimp only [ofDate]
  rw [Int.add_sub_cancel, daysFromYearMonth_date (by omega) (by omega), Option.bind_eq_bind,
    Option.bind_some,
    int32_of_fits (by omega), Option.bind_some, int32_of_fits (by omega), Option.bind_some,
    weekday_eq (by omega) (by omega), Option.bind_some, Gregorian.weekday]
  refine congrArg some ?_
  split <;> omega

/-- The Thursday of a week. -/
def thursdayOfWeek (d : Date) : ℤ := d.dayNumber - (d.dayNumber + 3) % 7 + 3

theorem lastWeekOfYear_eq (h : WithinLimits d) (hlt : thursdayOfWeek d < firstOfYear d.year)
    (hle : firstOfYear d.year ≤ d.dayNumber) : lastWeekOfYear (ofDate d) =
      some ((thursdayOfWeek d - firstOfYear (d.year - 1)) / 7 + 1) := by
  have hjanuary : toISODayOfWeek ⟨(ofDate d).year, 1, 1⟩ = some ((firstOfYear d.year + 3) % 7 + 1) := by
    rw [← Date.dayNumber_newYear]
    exact toISODayOfWeek_ofDate (d := .newYear d.year) ⟨h.low, h.high⟩
  have hyear := firstOfYear_succ (d.year - 1)
  rw [Int.sub_add_cancel, daysInYear_eq] at hyear
  unfold lastWeekOfYear
  rw [hjanuary, Option.bind_eq_bind, Option.bind_some]
  simp only [isLeap_eq_true_iff, kMaxWeekNumber, ofDate]
  unfold thursdayOfWeek at *
  split at hyear
  · next hleap =>
    simp only [hleap, and_true]
    split
    · exact congrArg some (by omega)
    · split <;> exact congrArg some (by omega)
  · next hleap =>
    simp only [hleap, and_false, if_false]
    split <;> exact congrArg some (by omega)

/-- **The week is counted by Thursdays**, from the beginning of the year the Thursday is in. -/
theorem toISOWeekOfYear_eq (h : WithinLimits d) : ∃ year : ℤ,
    firstOfYear year ≤ thursdayOfWeek d ∧ thursdayOfWeek d < firstOfYear (year + 1) ∧
      toISOWeekOfYear (ofDate d) = some ((thursdayOfWeek d - firstOfYear year) / 7 + 1) := by
  have hbounds := YmdCache.dayNumber_bounds d
  have hnext := d.dayNumber_lt_firstOfYear
  have hlast := lastWeekOfYear_eq h
  have hyear := firstOfYear_succ d.year
  have hprevious := firstOfYear_succ (d.year - 1)
  have hfollowing := firstOfYear_succ (d.year + 1)
  rw [Int.sub_add_cancel] at hprevious
  have hlength (year : ℤ) : daysInYear year = 365 ∨ daysInYear year = 366 := by
    rw [daysInYear_eq]
    split <;> simp
  have h₀ := hlength (d.year - 1)
  have h₁ := hlength d.year
  have h₂ := hlength (d.year + 1)
  have hweek : (d.dayNumber - firstOfYear d.year + 1 + 7 - ((d.dayNumber + 3) % 7 + 1) + 3).tdiv 7 =
      (thursdayOfWeek d - firstOfYear d.year) / 7 + 1 := by
    rw [Int.tdiv_eq_ediv_of_nonneg (by omega), thursdayOfWeek]
    omega
  unfold toISOWeekOfYear
  rw [toISODayOfYear_ofDate h, Option.bind_eq_bind, Option.bind_some, toISODayOfWeek_ofDate h,
    Option.bind_some]
  dsimp only
  rw [hweek, isoDaysInYear_eq, show (ofDate d).year = d.year from rfl]
  unfold kMaxWeekNumber
  clear hlength hweek
  by_cases hlt : thursdayOfWeek d < firstOfYear d.year
  · -- the week belongs to the year before
    refine ⟨d.year - 1, ?_, by rwa [Int.sub_add_cancel], ?_⟩
    · unfold thursdayOfWeek
      omega
    · rw [if_pos (by omega), hlast hlt hbounds.1]
  · rw [if_neg (by omega)]
    by_cases hge : firstOfYear (d.year + 1) ≤ thursdayOfWeek d
    · -- the week belongs to the next year
      refine ⟨d.year + 1, hge, ?_, ?_⟩
      · unfold thursdayOfWeek
        omega
      · unfold thursdayOfWeek at *
        rw [if_pos (by omega), if_pos (by omega)]
        exact congrArg some (by omega)
    · refine ⟨d.year, by omega, by omega, ?_⟩
      split
      · unfold thursdayOfWeek at *
        rw [if_neg (by omega)]
      · rfl

/-- **`ToISOWeekOfYear` is the week of ISO 8601**: the number of the Thursday of the week among
the Thursdays of the year it is in. -/
theorem toISOWeekOfYear_thursday {date : DateRecord} {time : TimeRecord}
    (hvalid : isValidISODate date = true) (hlimit : isoDateTimeWithinLimits date time = true) :
    ∃ d : Date, date = ofDate d ∧ ∃ week thursday year : ℤ, toISOWeekOfYear date = some week ∧
      Gregorian.weekday thursday = 4 ∧ thursday - 3 ≤ d.dayNumber ∧ d.dayNumber ≤ thursday + 3 ∧
      firstOfYear year ≤ thursday ∧ thursday < firstOfYear (year + 1) ∧
      week = thursdays (firstOfYear year) thursday := by
  obtain ⟨d, rfl, hd⟩ := exists_withinLimits hvalid hlimit
  obtain ⟨year, hle, hlt, hweek⟩ := toISOWeekOfYear_eq hd
  have hthursday : Gregorian.weekday (thursdayOfWeek d) = 4 := by
    unfold Gregorian.weekday thursdayOfWeek
    omega
  have hnear : thursdayOfWeek d - 3 ≤ d.dayNumber ∧ d.dayNumber ≤ thursdayOfWeek d + 3 := by
    unfold thursdayOfWeek
    omega
  exact ⟨d, rfl, _, _, year, hweek, hthursday, hnear.1, hnear.2, hle, hlt,
    (thursdays_eq hthursday hle).symm⟩

/-- The first of January 2021 is in week 53 of the year before. -/
theorem toISOWeekOfYear_thursday_january : toISOWeekOfYear ⟨2021, 1, 1⟩ = some 53 ∧
    ∃ thursday year : ℤ, Gregorian.weekday thursday = 4 ∧ firstOfYear year ≤ thursday ∧
      (53 : ℤ) = thursdays (firstOfYear year) thursday := by
  have h53 : toISOWeekOfYear ⟨2021, 1, 1⟩ = some 53 := by decide +kernel
  obtain ⟨-, -, week, thursday, year, hweek, hthursday, -, -, hle, -, hcard⟩ :=
    toISOWeekOfYear_thursday (show isValidISODate ⟨2021, 1, 1⟩ = true by decide)
      (show isoDateTimeWithinLimits _ ⟨12, 0, 0, 0, 0, 0⟩ = true by decide)
  obtain rfl := some.inj (h53.symm.trans hweek)
  exact ⟨h53, thursday, year, hthursday, hle, hcard⟩

end Temporal
