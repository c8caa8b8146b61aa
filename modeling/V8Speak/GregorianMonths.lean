import V8Speak.Gregorian

/-!
# Adding months to a date

The months of the calendar are numbered consecutively, twelve to a year. Adding months to
a date adds to the number of its month and keeps the day, or takes the last day of a
month that is too short. This is monotone, and strictly so: a later month is later than any
day of an earlier one. The order of dates is that of their months and then of their
days, and a date is determined by its day number.
-/

namespace Gregorian

/-- The number of the first day of a month, by the number of the month. -/
def firstOfMonthIndex (i : ℤ) : ℤ := firstOfMonth (i / 12) (i % 12).toNat

def daysInMonthIndex (i : ℤ) : ℤ := daysInMonth (i / 12) (i % 12).toNat

theorem daysInMonthIndex_bounds (i : ℤ) : 28 ≤ daysInMonthIndex i ∧ daysInMonthIndex i ≤ 31 :=
  daysInMonth_bounds _ _

/-- A month begins after the one before it. -/
theorem firstOfMonthIndex_succ (i : ℤ) :
    firstOfMonthIndex (i + 1) = firstOfMonthIndex i + daysInMonthIndex i := by
  unfold firstOfMonthIndex daysInMonthIndex firstOfMonth
  by_cases hlast : i % 12 = 11
  · rw [show (i + 1) / 12 = i / 12 + 1 by omega, show ((i + 1) % 12).toNat = 0 by omega,
      firstOfYear_succ, daysInYear, show (i % 12).toNat = 11 by omega, monthStart_succ _ 11]
    show firstOfYear (i / 12) + _ + 0 = _
    omega
  · rw [show (i + 1) / 12 = i / 12 by omega,
      show ((i + 1) % 12).toNat = (i % 12).toNat + 1 by omega, monthStart_succ]
    omega

/-- A month is over when a later one begins. -/
theorem firstOfMonthIndex_le {i j : ℤ} (h : i < j) :
    firstOfMonthIndex i + daysInMonthIndex i ≤ firstOfMonthIndex j := by
  obtain ⟨n, rfl⟩ : ∃ n : ℕ, j = i + 1 + n := ⟨(j - i - 1).toNat, by omega⟩
  clear h
  induction n with
  | zero => rw [Nat.cast_zero, add_zero, firstOfMonthIndex_succ]
  | succ n ih =>
    rw [Nat.cast_succ, ← add_assoc, firstOfMonthIndex_succ]
    have := daysInMonthIndex_bounds (i + 1 + n)
    omega

namespace Date

variable (d : Date)

/-- The number of the month of a date. -/
def monthIndex : ℤ := 12 * d.year + d.month

theorem monthIndex_div : d.monthIndex / 12 = d.year := by
  have := d.month_lt
  unfold monthIndex
  omega

theorem monthIndex_mod : (d.monthIndex % 12).toNat = d.month := by
  have := d.month_lt
  unfold monthIndex
  omega

theorem day_le : d.day ≤ daysInMonthIndex d.monthIndex := by
  rw [daysInMonthIndex, d.monthIndex_div, d.monthIndex_mod]
  exact d.le

theorem dayNumber_eq : d.dayNumber = firstOfMonthIndex d.monthIndex + d.day - 1 := by
  rw [firstOfMonthIndex, d.monthIndex_div, d.monthIndex_mod]
  rfl

variable {d d' : Date}

@[ext] theorem ext_of_day (hm : d.monthIndex = d'.monthIndex) (hd : d.day = d'.day) : d = d' := by
  have hyear : d.year = d'.year := by rw [← d.monthIndex_div, hm, d'.monthIndex_div]
  have hmonth : d.month = d'.month := by rw [← d.monthIndex_mod, hm, d'.monthIndex_mod]
  cases d
  cases d'
  simp_all

theorem dayNumber_lt_of_monthIndex_lt (h : d.monthIndex < d'.monthIndex) :
    d.dayNumber < d'.dayNumber := by
  have hle := firstOfMonthIndex_le h
  have hday := d.day_le
  have hone := d'.one_le
  rw [dayNumber_eq, dayNumber_eq]
  omega

/-- Dates of the same month. -/
theorem dayNumber_sub_of_monthIndex_eq (h : d.monthIndex = d'.monthIndex) :
    d'.dayNumber - d.dayNumber = d'.day - d.day := by
  rw [dayNumber_eq, dayNumber_eq, h]
  omega

/-- Dates of consecutive months. -/
theorem dayNumber_sub_of_monthIndex_succ {d e : Date} (h : e.monthIndex = d.monthIndex + 1) :
    e.dayNumber - d.dayNumber = e.day + (daysInMonth d.year d.month - d.day) := by
  have hlen : daysInMonthIndex d.monthIndex = daysInMonth d.year d.month := by
    rw [daysInMonthIndex, d.monthIndex_div, d.monthIndex_mod]
  rw [dayNumber_eq, dayNumber_eq, h, firstOfMonthIndex_succ, hlen]
  omega

theorem monthIndex_le_of_dayNumber_le (h : d.dayNumber ≤ d'.dayNumber) :
    d.monthIndex ≤ d'.monthIndex :=
  not_lt.1 fun hlt => absurd (dayNumber_lt_of_monthIndex_lt hlt) (not_lt.2 h)

/-- **A date is determined by its day number.** -/
theorem dayNumber_injective (h : d.dayNumber = d'.dayNumber) : d = d' := by
  have hm : d.monthIndex = d'.monthIndex :=
    le_antisymm (monthIndex_le_of_dayNumber_le h.le) (monthIndex_le_of_dayNumber_le h.ge)
  refine ext_of_day hm ?_
  have := dayNumber_sub_of_monthIndex_eq hm
  omega

/-- **The date some months later**, or earlier. -/
def addMonths (k : ℤ) : Date where
  year := (d.monthIndex + k) / 12
  month := ((d.monthIndex + k) % 12).toNat
  day := min d.day (daysInMonthIndex (d.monthIndex + k))
  month_lt := by omega
  one_le := by
    have := d.one_le
    have := daysInMonthIndex_bounds (d.monthIndex + k)
    omega
  le := min_le_right _ _

theorem monthIndex_addMonths (k : ℤ) : (d.addMonths k).monthIndex = d.monthIndex + k := by
  show 12 * ((d.monthIndex + k) / 12) + (((d.monthIndex + k) % 12).toNat : ℤ) = d.monthIndex + k
  omega

theorem addMonths_zero : d.addMonths 0 = d := by
  refine ext_of_day (by rw [monthIndex_addMonths, add_zero]) ?_
  show min d.day (daysInMonthIndex (d.monthIndex + 0)) = d.day
  rw [add_zero]
  exact min_eq_left d.day_le

/-- **Adding more months gives a later date.** -/
theorem dayNumber_addMonths_lt {d : Date} {k l : ℤ} (h : k < l) :
    (d.addMonths k).dayNumber < (d.addMonths l).dayNumber := by
  refine dayNumber_lt_of_monthIndex_lt ?_
  rw [monthIndex_addMonths, monthIndex_addMonths]
  omega

end Date

end Gregorian
