import Mathlib

/-!
# The proleptic Gregorian calendar

The calendar by its rules: which years are leap years, how long the months are,
and, by adding up the lengths of the years and of the months, how many days a date
is after the first of January 1970. Years are integers, also before the calendar
was introduced, and months are counted from 0.

For computing with the calendar, the sum over years has a closed form
(`firstOfYear_eq`).
-/

open Finset

namespace Gregorian

/-- Every fourth year is a leap year, of the centuries only every fourth. -/
def IsLeap (year : ℤ) : Prop := 4 ∣ year ∧ (¬100 ∣ year ∨ 400 ∣ year)

instance (year : ℤ) : Decidable (IsLeap year) := inferInstanceAs (Decidable (_ ∧ _))

def daysInMonth (year : ℤ) : ℕ → ℤ
  | 1 => if IsLeap year then 29 else 28
  | 3 | 5 | 8 | 10 => 30
  | _ => 31

/-- The day of the year a month begins with, counted from 0. -/
def monthStart (year : ℤ) (month : ℕ) : ℤ := ∑ i ∈ range month, daysInMonth year i

def daysInYear (year : ℤ) : ℤ := monthStart year 12

/-- The number of the first day of a year: the days of the years since 1970, or those
of the years before 1970. -/
def firstOfYear (year : ℤ) : ℤ :=
  ∑ i ∈ range (year - 1970).toNat, daysInYear (1970 + i) -
    ∑ i ∈ range (1970 - year).toNat, daysInYear (1969 - i)

/-- The number of the first day of a month. -/
def firstOfMonth (year : ℤ) (month : ℕ) : ℤ := firstOfYear year + monthStart year month

/-- A date of the calendar. -/
structure Date where
  year : ℤ
  month : ℕ
  day : ℤ
  month_lt : month < 12
  one_le : 1 ≤ day
  le : day ≤ daysInMonth year month

/-- The number of a day. -/
def Date.dayNumber (d : Date) : ℤ := firstOfMonth d.year d.month + d.day - 1

/-- The day of the week, counted from Sunday. The first of January 1970 was a
Thursday. -/
def weekday (dayNumber : ℤ) : ℤ := (dayNumber + 4) % 7

/-! ## Closed forms -/

variable {year : ℤ}

theorem monthStart_succ (year : ℤ) (month : ℕ) :
    monthStart year (month + 1) = monthStart year month + daysInMonth year month :=
  sum_range_succ ..

/-- The months of leap years are alike, and so are those of other years. -/
theorem daysInMonth_congr {year' : ℤ} (h : IsLeap year' ↔ IsLeap year) (month : ℕ) :
    daysInMonth year' month = daysInMonth year month := by
  unfold daysInMonth
  simp only [h]

theorem monthStart_congr {year' : ℤ} (h : IsLeap year' ↔ IsLeap year) (month : ℕ) :
    monthStart year' month = monthStart year month :=
  sum_congr rfl fun i _ => daysInMonth_congr h i

theorem daysInMonth_bounds (year : ℤ) (month : ℕ) :
    28 ≤ daysInMonth year month ∧ daysInMonth year month ≤ 31 := by
  unfold daysInMonth
  split
  · split <;> decide
  all_goals decide

theorem daysInYear_eq (year : ℤ) : daysInYear year = if IsLeap year then 366 else 365 := by
  simp only [daysInYear, monthStart_succ, daysInMonth]
  split <;> rfl

theorem firstOfYear_succ (year : ℤ) :
    firstOfYear (year + 1) = firstOfYear year + daysInYear year := by
  unfold firstOfYear
  rcases le_or_gt 1970 year with hle | hlt
  · rw [show (year + 1 - 1970).toNat = (year - 1970).toNat + 1 by omega,
      show (1970 - (year + 1)).toNat = 0 by omega, show (1970 - year).toNat = 0 by omega,
      sum_range_succ, sum_range_zero,
      show 1970 + ((year - 1970).toNat : ℤ) = year by omega]
    ring
  · rw [show (1970 - year).toNat = (1970 - (year + 1)).toNat + 1 by omega,
      show (year + 1 - 1970).toNat = 0 by omega, show (year - 1970).toNat = 0 by omega,
      sum_range_succ, sum_range_zero,
      show 1969 - ((1970 - (year + 1)).toNat : ℤ) = year by omega]
    ring

/-- A day for each year, one more every 4 years, one less every 100 and one more
every 400. -/
def closedForm (year : ℤ) : ℤ :=
  365 * (year - 1970) + (year - 1969) / 4 - (year - 1901) / 100 + (year - 1601) / 400

theorem closedForm_succ (year : ℤ) : closedForm (year + 1) = closedForm year + daysInYear year := by
  rw [daysInYear_eq, closedForm, closedForm]
  split
  · next hleap =>
    unfold IsLeap at hleap
    omega
  · next hleap =>
    unfold IsLeap at hleap
    omega

/-- **The first day of a year**, in closed form. -/
theorem firstOfYear_eq (year : ℤ) : firstOfYear year = closedForm year := by
  induction year using Int.inductionOn' (b := 1970) with
  | zero => simp [firstOfYear, closedForm]
  | succ y _ ih => rw [firstOfYear_succ, closedForm_succ, ih]
  | pred y _ ih =>
    have hfirst := firstOfYear_succ (y - 1)
    have hclosed := closedForm_succ (y - 1)
    rw [Int.sub_add_cancel] at hfirst hclosed
    omega

end Gregorian
