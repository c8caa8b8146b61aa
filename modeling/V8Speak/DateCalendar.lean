import Mathlib
import V8Speak.DateCache
import V8Speak.GregorianMonths

/-!
# Dates are those of the calendar

The code has no calendar in it but numbers: how many days there are in 4, 100 and
400 years and in the months. Here they are held against the calendar
(`Gregorian`). Years are cut into cycles of 400, 100, 4 and 1 years, and the days
within them are counted from -1, 0, -1 in turn, since a cycle of 400 or 4 years
begins with a leap year and one of 100 years may not (`year_of_cycle`).

What is cached is a date and the number of its day (`YmdCache.Valid`). The first 28
days are in every month, so that moving within them is adding to the day. Days are
legal if computing with them does not overflow, which is true of all days of all
times there are (`legalDays_of_legalTime`).

`MakeDay` is given years before all of these. Its divisions round up there, by the
`excess`, and so it may be a day late.
-/

open Int Option

namespace DateCache

open Gregorian

/-! ## Machine integers -/

theorem int32_of_fits {x : ℤ} (h : -2 ^ 31 ≤ x ∧ x < 2 ^ 31) : int32 x = some x :=
  if_pos h

theorem int64_of_fits {x : ℤ} (h : -2 ^ 63 ≤ x ∧ x < 2 ^ 63) : int64 x = some x :=
  if_pos h

theorem castInt_of_fits {x : ℤ} (h : -2 ^ 31 ≤ x ∧ x < 2 ^ 31) : castInt x = x :=
  bmod_eq_of_le (by omega) (by omega)

/-- Division that rounds towards 0. -/
theorem tdiv_tmod_spec (a : ℤ) {b : ℤ} (hb : 0 < b) :
    b * a.tdiv b + a.tmod b = a ∧ (0 ≤ a → 0 ≤ a.tmod b) ∧ (a ≤ 0 → a.tmod b ≤ 0) ∧
      -b < a.tmod b ∧ a.tmod b < b := by
  refine ⟨mul_tdiv_add_tmod a b, tmod_nonneg b, fun ha => ?_, lt_tmod_of_pos a hb,
    tmod_lt_of_pos a hb⟩
  rw [← Int.neg_neg a, neg_tmod]
  exact Int.neg_nonpos_of_nonneg (tmod_nonneg b (by omega))

/-! ## Days of the year -/

variable {year : ℤ}

theorem isLeap_eq_true_iff : isLeap year = true ↔ IsLeap year := by
  rw [isLeap, decide_eq_true_iff, IsLeap, dvd_iff_tmod_eq_zero, dvd_iff_tmod_eq_zero,
    dvd_iff_tmod_eq_zero]

/-- The months of a year begin as in 2000 or as in 2001. -/
theorem exists_monthStart (year : ℤ) : ∃ y ∈ [(2000 : ℤ), 2001], (IsLeap year ↔ IsLeap y) ∧
    monthStart year = monthStart y := by
  by_cases hleap : IsLeap year
  · have hiff : IsLeap year ↔ IsLeap 2000 := iff_of_true hleap (by decide)
    exact ⟨2000, by decide, hiff, funext (monthStart_congr hiff)⟩
  · have hiff : IsLeap year ↔ IsLeap 2001 := iff_of_false hleap (by decide)
    exact ⟨2001, by decide, hiff, funext (monthStart_congr hiff)⟩

/-- The tables of `DaysFromYearMonth`. -/
theorem dayFromMonthInYear_eq (year : ℤ) {month : ℕ} (hmonth : month < 12) :
    dayFromMonthInYear year month = some (monthStart year month) := by
  have htables : ∀ y ∈ [(2000 : ℤ), 2001], ∀ i < 12,
      (if ¬IsLeap y then dayFromMonth[i]? else dayFromMonthLeap[i]?) = some (monthStart y i) := by
    decide
  have hiff : (year.tmod 4 ≠ 0 ∨ year.tmod 100 = 0 ∧ year.tmod 400 ≠ 0) ↔ ¬IsLeap year := by
    rw [IsLeap, dvd_iff_tmod_eq_zero, dvd_iff_tmod_eq_zero, dvd_iff_tmod_eq_zero]
    tauto
  obtain ⟨y, hy, hleap, heq⟩ := exists_monthStart year
  rw [dayFromMonthInYear, toNat_natCast, if_congr (hiff.trans (not_congr hleap)) rfl rfl, heq]
  exact htables y hy month hmonth

theorem monthStart_bounds (year : ℤ) {month : ℕ} (hmonth : month < 12) :
    0 ≤ monthStart year month ∧ monthStart year month ≤ 335 := by
  have hbounds : ∀ y ∈ [(2000 : ℤ), 2001], ∀ i < 12, 0 ≤ monthStart y i ∧ monthStart y i ≤ 335 := by
    decide
  obtain ⟨y, hy, -, heq⟩ := exists_monthStart year
  rw [heq]
  exact hbounds y hy month hmonth

theorem normalizeMonth_eq {month : ℤ} (hlow : -2000000 ≤ year + month / 12)
    (hhigh : year + month / 12 ≤ 5000000) :
    normalizeMonth year month = some (year + month / 12, month % 12) := by
  have hdiv := tdiv_tmod_spec month (show 0 < 12 by decide)
  unfold normalizeMonth
  rw [int32_of_fits (by omega), Option.bind_eq_bind, Option.bind_some]
  dsimp only
  split
  · rw [int32_of_fits (by omega)]
    exact congrArg some (Prod.ext (by dsimp only; omega) (by dsimp only; omega))
  · exact congrArg some (Prod.ext (by dsimp only; omega) (by dsimp only; omega))

/-- How many leap years too many dividing counts if it rounds towards 0. -/
def excess (x : ℤ) : ℤ := if 0 ≤ x ∨ IsLeap x then 0 else 1

theorem tdiv_eq_add_excess (x : ℤ) : x.tdiv 4 - x.tdiv 100 + x.tdiv 400 =
    x / 4 - x / 100 + x / 400 + excess x := by
  have h4 := tdiv_tmod_spec x (show 0 < 4 by decide)
  have h100 := tdiv_tmod_spec x (show 0 < 100 by decide)
  have h400 := tdiv_tmod_spec x (show 0 < 400 by decide)
  unfold excess IsLeap
  split <;> omega

theorem excess_bounds (x : ℤ) : 0 ≤ excess x ∧ excess x ≤ 1 := by
  unfold excess
  split <;> decide

/-- The first day of a month, or the day after it in years before -399999. -/
theorem daysFromYearMonth_eq_add {month : ℤ} (hlow : -2000000 ≤ year + month / 12)
    (hhigh : year + month / 12 ≤ 5000000) :
    daysFromYearMonth year month = some (firstOfMonth (year + month / 12) (month % 12).toNat +
      excess (year + month / 12 + 399999)) := by
  obtain ⟨m, hm⟩ := eq_ofNat_of_zero_le (emod_nonneg month (show (12 : ℤ) ≠ 0 by decide))
  have hmonth : m < 12 := by omega
  unfold daysFromYearMonth
  rw [normalizeMonth_eq hlow hhigh, hm, toNat_natCast]
  generalize year + month / 12 = y at hlow hhigh ⊢
  have hstart := monthStart_bounds y hmonth
  have hy := firstOfYear_eq y
  unfold closedForm at hy
  have hbase : baseDay = 146816162 := by decide
  have hdelta : yearDelta = 399999 := rfl
  have hexcess := tdiv_eq_add_excess (y + 399999)
  have h4 := tdiv_tmod_spec (y + 399999) (show 0 < 4 by decide)
  have h100 := tdiv_tmod_spec (y + 399999) (show 0 < 100 by decide)
  have h400 := tdiv_tmod_spec (y + 399999) (show 0 < 400 by decide)
  simp only [bind_eq_bind, bind_some, dayFromMonthInYear_eq y hmonth, hdelta, hbase]
  rw [int32_of_fits (by omega), bind_some, int32_of_fits (by omega), bind_some,
    int32_of_fits (by omega), bind_some,
    int32_of_fits (by omega), bind_some,
    int32_of_fits (by omega), bind_some,
    int32_of_fits (by omega), bind_some,
    int32_of_fits (by omega)]
  rw [firstOfMonth, hy]
  exact congrArg some (by omega)

/-- **The first day of a month**, for all years up to 400000 before and five million
after the beginning of the calendar. -/
theorem daysFromYearMonth_eq {month : ℤ} (hlow : -399999 ≤ year + month / 12)
    (hhigh : year + month / 12 ≤ 5000000) :
    daysFromYearMonth year month = some (firstOfMonth (year + month / 12) (month % 12).toNat) := by
  rw [daysFromYearMonth_eq_add (by omega) hhigh, excess, if_pos (.inl (by omega)), add_zero]

theorem daysFromYearMonth_zero (hlow : -399999 ≤ year) (hhigh : year ≤ 5000000) :
    daysFromYearMonth year 0 = some (firstOfYear year) := by
  rw [daysFromYearMonth_eq (by omega) (by omega)]
  simp [firstOfMonth, monthStart]

theorem daysFromYearMonth_date {d : Date} (hlow : -399999 ≤ d.year) (hhigh : d.year ≤ 5000000) :
    daysFromYearMonth d.year d.month = some (firstOfMonth d.year d.month) := by
  have hm := d.month_lt
  rw [daysFromYearMonth_eq (by omega) (by omega), show (d.month : ℤ) / 12 = 0 by omega,
    show ((d.month : ℤ) % 12).toNat = d.month by omega, add_zero]

theorem firstOfMonthIndex_eq (year month : ℤ) : firstOfMonthIndex (12 * year + month) =
    firstOfMonth (year + month / 12) (month % 12).toNat := by
  rw [firstOfMonthIndex, show (12 * year + month) / 12 = year + month / 12 by omega,
    show (12 * year + month) % 12 = month % 12 by omega]

theorem makeDay_eq {year month : ℤ} (hyear : kMinYear ≤ year ∧ year ≤ kMaxYear)
    (hmonth : kMinMonth ≤ month ∧ month ≤ kMaxMonth) (date : ℤ) :
    makeDay year month date = some (some (firstOfMonthIndex (12 * year + month) +
      excess (year + month / 12 + 399999) + (date - 1))) := by
  rw [makeDay, if_pos ⟨hyear, hmonth⟩]
  unfold kMinYear kMaxYear kMinYear at hyear
  unfold kMinMonth kMaxMonth kMinMonth at hmonth
  have hfirst := firstOfYear_eq (year + month / 12)
  have hstart := monthStart_bounds (year + month / 12) (show (month % 12).toNat < 12 by omega)
  have hexcess := excess_bounds (year + month / 12 + 399999)
  rw [firstOfMonthIndex_eq, daysFromYearMonth_eq_add (by omega) (by omega), Option.bind_eq_bind,
    Option.bind_some,
    firstOfMonth, hfirst, closedForm, int32_of_fits (by omega)]
  exact congrArg (some <| some ·) (by omega)

/-- **`MakeDay` counts the days of the calendar** from the year -399999 on, and before it in
the years for which dividing does not round. No `int` overflows, and later months begin
later in all years. -/
theorem makeDay_exact_iff {year month : ℤ} (hyear : kMinYear ≤ year ∧ year ≤ kMaxYear)
    (hmonth : kMinMonth ≤ month ∧ month ≤ kMaxMonth) :
    ∃ first, (∀ date, makeDay year month date = some (some (first + (date - 1)))) ∧
      (first = firstOfMonth (year + month / 12) (month % 12).toNat ↔
        0 ≤ year + month / 12 + 399999 ∨ IsLeap (year + month / 12 + 399999)) ∧
      ∀ year' month' first', kMinYear ≤ year' ∧ year' ≤ kMaxYear →
        kMinMonth ≤ month' ∧ month' ≤ kMaxMonth →
        (∀ date, makeDay year' month' date = some (some (first' + (date - 1)))) →
        12 * year + month < 12 * year' + month' → first < first' := by
  refine ⟨_, makeDay_eq hyear hmonth, ?_, fun year' month' first' hyear' hmonth' hmake hlt => ?_⟩
  · rw [firstOfMonthIndex_eq, add_eq_left, excess]
    split
    · next h => exact iff_of_true rfl h
    · next h => exact iff_of_false (by decide) h
  · have heq := (makeDay_eq hyear' hmonth' 1).symm.trans (hmake 1)
    have hle := firstOfMonthIndex_le hlt
    have hdays := daysInMonthIndex_bounds (12 * year + month)
    have hexcess := excess_bounds (year + month / 12 + 399999)
    have hexcess' := excess_bounds (year' + month' / 12 + 399999)
    simp only [some.injEq] at heq
    omega

/-- The first of February 2000. -/
theorem makeDay_exact_iff_february : ∃ first,
    (∀ date, makeDay 2000 1 date = some (some (first + (date - 1)))) ∧
      first = firstOfMonth 2000 1 := by
  obtain ⟨first, hmake, hiff, -⟩ := @makeDay_exact_iff 2000 1 (by decide) (by decide)
  exact ⟨first, hmake, hiff.2 (.inl (by decide))⟩

/-- The first of January of the year -400000 is a day too late. -/
theorem makeDay_too_late :
    makeDay (-400000) 0 1 = some (some (-146816527)) ∧ firstOfMonth (-400000) 0 = -146816528 := by
  refine ⟨by decide, ?_⟩
  rw [firstOfMonth, firstOfYear_eq]
  decide

/-! ## Dates of days -/

variable {days : ℤ}

/-- The loop over the months from March. The first months of the list are over. -/
theorem dateFromMarch_spec (n i : ℕ) (hi : i + n = 12) (hmarch : 2 ≤ i)
    (hlow : monthStart year i ≤ days) (hhigh : days < monthStart year 12) :
    ∃ month : ℕ, ∃ day, dateFromMarch (List.range' i n) (days - monthStart year i) =
      some ((month : ℤ), day) ∧ month < 12 ∧ 1 ≤ day ∧ day ≤ daysInMonth year month ∧
      monthStart year month + day - 1 = days := by
  induction n generalizing i with
  | zero =>
    obtain rfl : i = 12 := by omega
    omega
  | succ n ih =>
    have hlength : kDaysInMonths[i]? = some (daysInMonth year i) := by
      have : i < 12 := by omega
      interval_cases i <;> rfl
    have hsucc := monthStart_succ year i
    rw [List.range'_succ, dateFromMarch, hlength, Option.bind_eq_bind, Option.bind_some]
    split
    · exact ⟨i, _, rfl, by omega, by omega, by omega, by omega⟩
    · rw [show days - monthStart year i - daysInMonth year i = days - monthStart year (i + 1) by omega]
      exact ih (i + 1) (by omega) (by omega) (by omega)

/-- The month and the day of a day of the year. -/
theorem monthDay_spec (hlow : 0 ≤ days) (hhigh : days < daysInYear year) :
    ∃ month : ℕ, ∃ day, monthDay days (decide (IsLeap year)) = some ((month : ℤ), day) ∧
      month < 12 ∧ 1 ≤ day ∧ day ≤ daysInMonth year month ∧
      monthStart year month + day - 1 = days := by
  have hmarch : monthStart year 2 = 31 + 28 + (if decide (IsLeap year) then 1 else 0) := by
    simp only [monthStart, Finset.sum_range_succ, Finset.sum_range_zero, daysInMonth]
    by_cases hleap : IsLeap year <;> simp [hleap]
  unfold monthDay
  rw [← hmarch]
  by_cases hmarch_le : monthStart year 2 ≤ days
  · rw [if_pos hmarch_le]
    exact dateFromMarch_spec 10 2 rfl le_rfl hmarch_le hhigh
  · have hfebruary : monthStart year 1 = 31 := by simp [monthStart, daysInMonth]
    have hsucc : monthStart year 2 = monthStart year 1 + daysInMonth year 1 :=
      monthStart_succ year 1
    rw [if_neg hmarch_le]
    split
    · exact ⟨0, days + 1, rfl, by decide, by omega, by rw [daysInMonth] <;> omega,
        by rw [monthStart, Finset.sum_range_zero]; omega⟩
    · exact ⟨1, days - 31 + 1, rfl, by decide, by omega, by omega, by omega⟩

/-- The years of a cycle of 400 years: leap years, and first days. -/
theorem year_of_cycle {q a b c : ℤ} (ha : 0 ≤ a ∧ a ≤ 3) (hb : 0 ≤ b ∧ b ≤ 24)
    (hc : 0 ≤ c ∧ c ≤ 3) :
    (IsLeap (400 * q + 100 * a + 4 * b + c) ↔ (a = 0 ∨ b ≠ 0) ∧ c = 0) ∧
      firstOfYear (400 * q + 100 * a + 4 * b + c) =
        146097 * q + 36524 * a + 1461 * b + 365 * c - 719528 +
          if 0 < c ∨ b = 0 ∧ 0 < a then 1 else 0 := by
  constructor
  · unfold IsLeap
    omega
  · have h4 : (400 * q + 100 * a + 4 * b + c - 1969) / 4 =
        100 * q + 25 * a + b - 493 + (c + 3) / 4 := by omega
    have h100 : (400 * q + 100 * a + 4 * b + c - 1901) / 100 =
        4 * q + a - 20 + (4 * b + c + 99) / 100 := by omega
    have h400 : (400 * q + 100 * a + 4 * b + c - 1601) / 400 =
        q - 5 + (100 * a + 4 * b + c + 399) / 400 := by omega
    rw [firstOfYear_eq, closedForm, h4, h100, h400]
    split <;> omega

theorem days_constants : kDaysOffset = 146816528 ∧ kDaysIn400Years = 146097 ∧
    kDaysIn100Years = 36524 ∧ kDaysIn4Years = 1461 := by decide

/-- **A date is computed for every day**, up to 146 million days before and 2 billion
days after 1970. -/
theorem computeYearMonthDay_spec (hlow : -kDaysOffset ≤ days)
    (hhigh : days + kDaysOffset < 2 ^ 31) :
    ∃ date : Date, computeYearMonthDay days = some (date.year, (date.month : ℤ), date.day) ∧
      date.dayNumber = days := by
  obtain ⟨hoffset, h400, h100, h4⟩ := days_constants
  rw [hoffset] at hlow hhigh
  unfold computeYearMonthDay
  rw [hoffset, h400, h100, h4, int32_of_fits ⟨by omega, hhigh⟩, Option.bind_eq_bind,
    Option.bind_some,
    show kYearsOffset = 400000 from rfl]
  dsimp only
  -- 400 years, centuries, 4 years and years, each with what is left
  have hq := tdiv_tmod_spec (days + 146816528) (show 0 < 146097 by decide)
  generalize (days + 146816528).tdiv 146097 = q at hq ⊢
  generalize (days + 146816528).tmod 146097 = r₀ at hq ⊢
  have ha := tdiv_tmod_spec (r₀ - 1) (show 0 < 36524 by decide)
  generalize (r₀ - 1).tdiv 36524 = a at ha ⊢
  generalize (r₀ - 1).tmod 36524 = r₁ at ha ⊢
  have hb := tdiv_tmod_spec (r₁ + 1) (show 0 < 1461 by decide)
  generalize (r₁ + 1).tdiv 1461 = b at hb ⊢
  generalize (r₁ + 1).tmod 1461 = r₂ at hb ⊢
  have hc := tdiv_tmod_spec (r₂ - 1) (show 0 < 365 by decide)
  generalize (r₂ - 1).tdiv 365 = c at hc ⊢
  generalize (r₂ - 1).tmod 365 = r₃ at hc ⊢
  have hr₀ : 0 ≤ r₀ ∧ r₀ < 146097 := ⟨hq.2.1 (by omega), hq.2.2.2.2⟩
  have ha' : 0 ≤ a ∧ a ≤ 3 ∧ -1 ≤ r₁ ∧ r₁ < 36524 ∧ (r₁ = -1 → a = 0) := by
    clear hb hc hq
    omega
  have hb' : 0 ≤ b ∧ b ≤ 24 ∧ 0 ≤ r₂ ∧ r₂ < 1461 := by
    clear ha hc hq
    omega
  have hc' : 0 ≤ c ∧ c ≤ 3 ∧ -1 ≤ r₃ ∧ (r₃ = -1 → c = 0) := by
    clear ha hb hq
    omega
  obtain ⟨hq, -⟩ := hq
  obtain ⟨ha, -⟩ := ha
  obtain ⟨hb, -⟩ := hb
  obtain ⟨hc, -, -, -, hr₃⟩ := hc
  obtain ⟨hleap, hfirst⟩ := year_of_cycle ⟨ha'.1, ha'.2.1⟩ ⟨hb'.1, hb'.2.1⟩ ⟨hc'.1, hc'.2.1⟩
  have hbool : decide ((a = 0 ∨ b ≠ 0) ∧ c = 0) =
      decide (IsLeap (400 * (q - 1000) + 100 * a + 4 * b + c)) := decide_eq_decide.mpr hleap.symm
  rw [show 400 * q - 400000 + 100 * a + 4 * b + c = 400 * (q - 1000) + 100 * a + 4 * b + c by omega,
    hbool]
  have hlength := daysInYear_eq (400 * (q - 1000) + 100 * a + 4 * b + c)
  generalize 400 * (q - 1000) + 100 * a + 4 * b + c = y at hleap hfirst hlength hbool ⊢
  -- the days of a leap year have been counted from -1
  obtain ⟨d, hd⟩ : ∃ d, d = r₃ + if decide (IsLeap y) = true then 1 else 0 := ⟨_, rfl⟩
  have hday : firstOfYear y + d = days ∧ 0 ≤ d ∧ d < daysInYear y := by
    rw [hfirst, hlength, hd]
    by_cases hy : IsLeap y
    · simp only [hy, decide_true, if_true]
      have := hleap.mp hy
      split <;> omega
    · simp only [hy, decide_false, Bool.false_eq_true, if_false]
      have := mt hleap.mpr hy
      split <;> omega
  rw [← hd]
  obtain ⟨month, day, hmonthDay, hmonth, hone, hle, hstart⟩ := monthDay_spec hday.2.1 hday.2.2
  refine ⟨⟨y, month, day, hmonth, hone, hle⟩, ?_, ?_⟩
  · rw [hmonthDay]
    rfl
  · show firstOfYear y + monthStart y month + day - 1 = days
    omega

/-! ## Times -/

variable {timeMs : ℤ}

/-- The times before conversion to UTC. -/
def LegalTime (timeMs : ℤ) : Prop := -kMaxTimeBeforeUTCInMs ≤ timeMs ∧
    timeMs ≤ kMaxTimeBeforeUTCInMs

/-- The days whose dates, and whose distances to each other, can be computed without
overflow. -/
def LegalDays (days : ℤ) : Prop := -kDaysOffset ≤ days ∧ days + kDaysOffset + 31 < 2 ^ 31

theorem legalTime_iff : LegalTime timeMs ↔ -8640002592000000 ≤ timeMs ∧ timeMs ≤ 8640002592000000 :=
  Iff.rfl

theorem legalDays_iff : LegalDays days ↔ -146816528 ≤ days ∧ days < 2000667089 := by
  rw [LegalDays, show kDaysOffset = 146816528 by decide]
  omega

theorem daysFromTime_eq (h : LegalTime timeMs) : daysFromTime timeMs = some (timeMs / 86400000) := by
  rw [legalTime_iff] at h
  unfold daysFromTime
  rw [show kMsPerDay = 86400000 from rfl]
  split
  · have hdiv := tdiv_tmod_spec (timeMs - (86400000 - 1)) (show 0 < 86400000 by decide)
    rw [int64_of_fits (by omega), Option.bind_eq_bind, Option.bind_some]
    dsimp only
    rw [castInt_of_fits (by omega)]
    exact congrArg some (by omega)
  · rw [Option.bind_eq_bind, Option.bind_some]
    dsimp only
    rw [tdiv_eq_ediv_of_nonneg (by omega), castInt_of_fits (by omega)]

theorem timeInDay_eq (timeMs : ℤ) :
    timeInDay timeMs (timeMs / 86400000) = some (timeMs % 86400000) := by
  unfold timeInDay
  rw [show kMsPerDay = 86400000 from rfl, int64_of_fits (by omega), Option.bind_eq_bind,
    Option.bind_some,
    castInt_of_fits (by omega)]
  exact congrArg some (by omega)

theorem weekday_eq (hlow : -2 ^ 31 ≤ days) (hhigh : days + 4 < 2 ^ 31) :
    weekday days = some (Gregorian.weekday days) := by
  have hmod := tdiv_tmod_spec (days + 4) (show 0 < 7 by decide)
  unfold weekday Gregorian.weekday
  rw [int32_of_fits ⟨by omega, hhigh⟩, Option.bind_eq_bind, Option.bind_some]
  dsimp only
  refine congrArg some ?_
  split <;> omega

theorem legalDays_of_legalTime (h : LegalTime timeMs) : LegalDays (timeMs / 86400000) := by
  rw [legalTime_iff] at h
  rw [legalDays_iff]
  omega

/-- The equivalent year begins with the same day of the week. -/
theorem equivalentYear_spec {year : ℤ} (hlow : -399999 ≤ year) (hhigh : year ≤ 5000000) :
    ∃ year', equivalentYear year = some year' ∧ 2008 ≤ year' ∧ year' ≤ 2035 ∧
      (IsLeap year' ↔ IsLeap year) ∧
      Gregorian.weekday (firstOfYear year') = Gregorian.weekday (firstOfYear year) := by
  have hclosed := firstOfYear_eq year
  unfold closedForm at hclosed
  unfold equivalentYear
  rw [daysFromYearMonth_zero hlow hhigh, Option.bind_eq_bind, Option.bind_some,
    weekday_eq (by omega) (by omega), Option.bind_some]
  refine ⟨_, rfl, ?_⟩
  have hday : 0 ≤ Gregorian.weekday (firstOfYear year) ∧
      Gregorian.weekday (firstOfYear year) < 7 := by
    unfold Gregorian.weekday
    omega
  generalize Gregorian.weekday (firstOfYear year) = d at hday ⊢
  obtain ⟨hd, hd'⟩ := hday
  simp only [firstOfYear_eq]
  by_cases hleap : IsLeap year
  · simp only [isLeap_eq_true_iff.mpr hleap, if_true, hleap, iff_true]
    interval_cases d <;> decide
  · have hfalse : isLeap year = false := Bool.eq_false_iff.mpr fun h => hleap (isLeap_eq_true_iff.mp h)
    simp only [hfalse, Bool.false_eq_true, if_false, hleap, iff_false]
    interval_cases d <;> decide

end DateCache

/-! ## The cached date -/

namespace YmdCache

open DateCache Gregorian

variable {c : YmdCache} {days timeMs : ℤ}

/-- What is cached is the date of a day. -/
def Valid (c : YmdCache) : Prop :=
  c.ymdValid = true → LegalDays c.ymdDays ∧ ∃ date : Date, c.ymdYear = date.year ∧
    c.ymdMonth = date.month ∧ c.ymdDay = date.day ∧ c.ymdDays = date.dayNumber

/-- **The date of a day**, from the cache or not. -/
theorem yearMonthDayFromDays_spec (h : c.Valid) (hdays : LegalDays days) :
    ∃ (date : Date) (c' : YmdCache), c.yearMonthDayFromDays days =
      some ((date.year, (date.month : ℤ), date.day), c') ∧ date.dayNumber = days ∧ c'.Valid := by
  have hlegal := hdays
  rw [legalDays_iff] at hdays
  have hmiss : ∃ (date : Date) (c' : YmdCache), yearMonthDayMiss days =
      some ((date.year, (date.month : ℤ), date.day), c') ∧ date.dayNumber = days ∧ c'.Valid := by
    obtain ⟨date, hr, hnumber⟩ := computeYearMonthDay_spec hlegal.1 (by have := hlegal.2; omega)
    refine ⟨date, ⟨true, days, date.year, date.month, date.day⟩, ?_, hnumber,
      fun _ => ⟨hlegal, date, rfl, rfl, rfl, hnumber.symm⟩⟩
    rw [yearMonthDayMiss, hr]
    rfl
  unfold yearMonthDayFromDays
  split
  · next hvalid =>
    obtain ⟨hcached, date, hyear, hmonth, hday, hnumber⟩ := h hvalid
    rw [legalDays_iff] at hcached
    have hone := date.one_le
    have hle := date.le
    have hlength := daysInMonth_bounds date.year date.month
    rw [int32_of_fits (by omega), Option.bind_eq_bind, Option.bind_some, int32_of_fits (by omega),
      Option.bind_some]
    split
    · next hnear =>
      -- the first 28 days are in every month
      let date' : Date := ⟨date.year, date.month, c.ymdDay + (days - c.ymdDays), date.month_lt,
        hnear.1, by omega⟩
      have hnumber' : date'.dayNumber = days := by
        rw [Date.dayNumber] at hnumber
        show firstOfMonth date.year date.month + (c.ymdDay + (days - c.ymdDays)) - 1 = days
        omega
      refine ⟨date', { c with ymdDay := date'.day, ymdDays := days }, ?_, hnumber',
        fun _ => ⟨hlegal, date', hyear, hmonth, rfl, hnumber'.symm⟩⟩
      rw [hyear, hmonth]
    · exact hmiss
  · exact hmiss

/-- The fields of a time: a date of the calendar, the day of the week, and the time
of the day. -/
structure Fields.Describes (f : Fields) (date : Date) (timeMs : ℤ) : Prop where
  year : f.year = date.year
  month : f.month = date.month
  day : f.day = date.day
  dayNumber : date.dayNumber = timeMs / 86400000
  weekday : f.weekday = Gregorian.weekday (timeMs / 86400000)
  hour : 0 ≤ f.hour ∧ f.hour < 24
  min : 0 ≤ f.min ∧ f.min < 60
  sec : 0 ≤ f.sec ∧ f.sec < 60
  ms : 0 ≤ f.ms ∧ f.ms < 1000
  timeInDay : ((f.hour * 60 + f.min) * 60 + f.sec) * 1000 + f.ms = timeMs % 86400000

theorem breakDownTime_describes (h : c.Valid) (ht : LegalTime timeMs) :
    ∃ f c' date, c.breakDownTime timeMs = some (f, c') ∧ f.Describes date timeMs ∧ c'.Valid := by
  have hdays := legalDays_of_legalTime ht
  obtain ⟨date, c', hr, hnumber, hvalid⟩ := yearMonthDayFromDays_spec h hdays
  rw [legalDays_iff] at hdays
  unfold breakDownTime
  simp only [daysFromTime_eq ht, timeInDay_eq timeMs, hr,
    weekday_eq (show -2 ^ 31 ≤ timeMs / 86400000 by omega) (by omega), Option.bind_eq_bind,
    Option.bind_some]
  refine ⟨_, c', date, rfl, ?_, hvalid⟩
  -- all that is divided is nonnegative, so that rounding towards 0 is rounding down
  have hlow := emod_nonneg timeMs (show (86400000 : ℤ) ≠ 0 by decide)
  simp only [tdiv_eq_ediv_of_nonneg hlow, tmod_eq_emod_of_nonneg hlow,
    tmod_eq_emod_of_nonneg (ediv_nonneg hlow (show (0 : ℤ) ≤ 60 * 1000 by decide)),
    tmod_eq_emod_of_nonneg (ediv_nonneg hlow (show (0 : ℤ) ≤ 1000 by decide))]
  refine ⟨rfl, rfl, rfl, hnumber, rfl, ?_, ?_, ?_, ?_, ?_⟩ <;> dsimp only <;> omega

/-- A date with the same month, day, day of the week and leap-year status. -/
structure Equivalent (date date' : Date) : Prop where
  leap : IsLeap date'.year ↔ IsLeap date.year
  month : date'.month = date.month
  day : date'.day = date.day
  weekday : Gregorian.weekday date'.dayNumber = Gregorian.weekday date.dayNumber

/-- Dates in years that begin with the same day of the week. -/
theorem exists_equivalent (date : Date) {year' : ℤ} (hleap : IsLeap year' ↔ IsLeap date.year)
    (hday : Gregorian.weekday (firstOfYear year') = Gregorian.weekday (firstOfYear date.year)) :
    ∃ date', date'.year = year' ∧ Equivalent date date' := by
  refine ⟨⟨year', date.month, date.day, date.month_lt, date.one_le, ?_⟩, rfl, hleap, rfl, rfl, ?_⟩
  · rw [daysInMonth_congr hleap]
    exact date.le
  · unfold Gregorian.weekday at hday ⊢
    simp only [Date.dayNumber, firstOfMonth, monthStart_congr hleap]
    omega

theorem dayNumber_bounds (date : Date) :
    firstOfYear date.year ≤ date.dayNumber ∧ date.dayNumber < firstOfYear date.year + 366 := by
  have hstart := monthStart_bounds date.year date.month_lt
  have hone := date.one_le
  have hle := date.le
  have hlength := daysInMonth_bounds date.year date.month
  unfold Date.dayNumber firstOfMonth
  omega

theorem year_bounds {date : Date} (ht : LegalTime timeMs) (h : date.dayNumber = timeMs / 86400000) :
    -399999 ≤ date.year ∧ date.year ≤ 5000000 := by
  have hbounds := dayNumber_bounds date
  rw [firstOfYear_eq, closedForm] at hbounds
  rw [legalTime_iff] at ht
  omega

theorem equivalentTime_equivalent (h : c.Valid) (ht : LegalTime timeMs) :
    ∃ time c' date date', c.equivalentTime timeMs = some (time, c') ∧
      date.dayNumber = timeMs / 86400000 ∧ date'.dayNumber = time / 86400000 ∧
      time % 86400000 = timeMs % 86400000 ∧ Equivalent date date' ∧
      2008 ≤ date'.year ∧ date'.year ≤ 2035 ∧ c'.Valid := by
  have hdays := legalDays_of_legalTime ht
  obtain ⟨date, c', hr, hnumber, hvalid⟩ := yearMonthDayFromDays_spec h hdays
  have hyear := year_bounds ht hnumber
  obtain ⟨year', hyear', hlow, hhigh, hleap, hday⟩ := equivalentYear_spec hyear.1 hyear.2
  obtain ⟨date', rfl, hequiv⟩ := exists_equivalent date hleap hday
  have hfirst := daysFromYearMonth_date (d := date') (by omega) (by omega)
  rw [hequiv.month] at hfirst
  have hnumber' : firstOfMonth date'.year date.month + date.day - 1 = date'.dayNumber := by
    rw [Date.dayNumber, hequiv.month, hequiv.day]
  have hbounds := dayNumber_bounds date'
  rw [firstOfYear_eq, closedForm] at hbounds
  unfold equivalentTime
  simp only [daysFromTime_eq ht, timeInDay_eq timeMs, hr, hyear', hfirst, bind_eq_bind, bind_some]
  rw [hnumber', int32_of_fits (by omega), bind_some]
  refine ⟨_, c', date, date', rfl, hnumber, ?_, ?_, hequiv, hlow, hhigh, hvalid⟩
  · rw [show kMsPerDay = 86400000 from rfl]
    omega
  · rw [show kMsPerDay = 86400000 from rfl]
    omega

end YmdCache

/-! ## Runs -/

namespace DateCache

open Gregorian

variable {os : ℤ → ℤ} {c c' : DateCache} {timeMs : ℤ}

/-- The calls with times and days in the range of the cache. -/
def Call.Legal : Call → Prop
  | resetDateCache => True
  | yearMonthDayFromDays days => LegalDays days
  | breakDownTime timeMs => LegalTime timeMs
  | equivalentTime timeMs => LegalTime timeMs
  | daylightSavingsOffsetInMs timeMs => LegalTime timeMs

/-- The caches calls lead to, from a cache that has been reset. -/
inductive Reachable (os : ℤ → ℤ) : DateCache → Prop
  | reset (c : DateCache) : Reachable os c.resetDateCache
  | call {c c' : DateCache} {call : Call} (h : Reachable os c) (hlegal : call.Legal)
      (hrun : call.run os c = some c') : Reachable os c'

/-- Only times that the operating system cannot be asked about are converted. -/
theorem osTime_valid {c : YmdCache} (h : c.Valid) (ht : LegalTime timeMs) :
    ∃ timeSec c', osTime c timeMs = some (timeSec, c') ∧ c'.Valid := by
  unfold osTime
  split
  · exact ⟨_, c, rfl, h⟩
  · obtain ⟨time, c', date, date', hr, -, -, -, -, -, -, hvalid⟩ :=
      YmdCache.equivalentTime_equivalent h ht
    rw [hr]
    exact ⟨_, c', rfl, hvalid⟩

/-- Every call keeps the cached date valid. -/
theorem run_valid {call : Call} (h : c.toYmdCache.Valid) (hlegal : call.Legal)
    (hrun : call.run os c = some c') : c'.toYmdCache.Valid := by
  cases call with
  | resetDateCache =>
    obtain rfl := Option.some.inj hrun
    exact fun hvalid => nomatch hvalid
  | yearMonthDayFromDays days =>
    obtain ⟨date, ymd, hr, -, hvalid⟩ := YmdCache.yearMonthDayFromDays_spec h hlegal
    rw [Call.run, hr] at hrun
    obtain rfl := Option.some.inj hrun
    exact hvalid
  | breakDownTime timeMs =>
    obtain ⟨f, ymd, date, hr, -, hvalid⟩ := YmdCache.breakDownTime_describes h hlegal
    rw [Call.run, hr] at hrun
    obtain rfl := Option.some.inj hrun
    exact hvalid
  | equivalentTime timeMs =>
    obtain ⟨time, ymd, date, date', hr, -, -, -, -, -, -, hvalid⟩ :=
      YmdCache.equivalentTime_equivalent h hlegal
    rw [Call.run, hr] at hrun
    obtain rfl := Option.some.inj hrun
    exact hvalid
  | daylightSavingsOffsetInMs timeMs =>
    obtain ⟨timeSec, ymd, hr, hvalid⟩ := osTime_valid h hlegal
    simp only [Call.run, daylightSavingsOffsetInMs, hr, bind_eq_bind, bind_some,
      bind_eq_some_iff, Option.some.injEq] at hrun
    obtain ⟨-, ⟨-, -, rfl⟩, rfl⟩ := hrun
    exact hvalid

theorem Reachable.valid (h : Reachable os c) : c.toYmdCache.Valid := by
  induction h with
  | reset c => exact fun hvalid => nomatch hvalid
  | call _ hlegal hrun ih => exact run_valid ih hlegal hrun

/-- **The calendar.** Whatever has been cached, a time is broken down into a date of
the calendar, the day of the week and the time of the day, and its equivalent time
is in an equivalent year; and the first day of a month is that of the calendar. -/
theorem calendar_spec (h : Reachable os c) (ht : LegalTime timeMs) :
    (∃ f ymd date, c.toYmdCache.breakDownTime timeMs = some (f, ymd) ∧
      YmdCache.Fields.Describes f date timeMs ∧
      ∃ first, daysFromYearMonth f.year f.month = some first ∧
        first + f.day - 1 = timeMs / 86400000) ∧
    (∀ year month : ℤ, -399999 ≤ year + month / 12 → year + month / 12 ≤ 5000000 →
      daysFromYearMonth year month = some (firstOfMonth (year + month / 12) (month % 12).toNat)) ∧
    ∃ (time : ℤ) (ymd : YmdCache) (date date' : Date),
      c.toYmdCache.equivalentTime timeMs = some (time, ymd) ∧
      date.dayNumber = timeMs / 86400000 ∧ date'.dayNumber = time / 86400000 ∧
      time % 86400000 = timeMs % 86400000 ∧ YmdCache.Equivalent date date' ∧
      2008 ≤ date'.year ∧ date'.year ≤ 2035 := by
  refine ⟨?_, fun year month => daysFromYearMonth_eq, ?_⟩
  · obtain ⟨f, ymd, date, hr, hf, -⟩ := YmdCache.breakDownTime_describes h.valid ht
    have hyear := YmdCache.year_bounds ht hf.dayNumber
    refine ⟨f, ymd, date, hr, hf, firstOfMonth date.year date.month, ?_, ?_⟩
    · rw [hf.year, hf.month, daysFromYearMonth_date hyear.1 hyear.2]
    · rw [hf.day, ← hf.dayNumber, Date.dayNumber]
  · obtain ⟨time, ymd, date, date', hr, hdate, hdate', hmod, hequiv, hlow, hhigh, -⟩ :=
      YmdCache.equivalentTime_equivalent h.valid ht
    exact ⟨time, ymd, date, date', hr, hdate, hdate', hmod, hequiv, hlow, hhigh⟩

/-- The last millisecond of 1969, after the date of 6 January 1970 has been cached. -/
theorem calendar_spec_last_of_1969 :
    ∃ c : DateCache, c.toYmdCache = ⟨true, 5, 1970, 0, 6⟩ ∧ Reachable (fun _ => 0) c ∧
      ∃ f ymd date, c.toYmdCache.breakDownTime (-1) = some (f, ymd) ∧
        YmdCache.Fields.Describes f date (-1) := by
  let c : DateCache := ⟨⟨false, 0, 0, 0, 0⟩, ⟨fun _ => clearedSegment, 0, 0, 1⟩⟩
  have hlegal : (Call.yearMonthDayFromDays 5).Legal := by
    rw [Call.Legal, legalDays_iff]
    decide
  have hcached : Reachable (fun _ => 0) { c.resetDateCache with
      toYmdCache := ⟨true, 5, 1970, 0, 6⟩ } := (Reachable.reset c).call hlegal rfl
  obtain ⟨⟨f, ymd, date, hr, hf, -⟩, -⟩ := calendar_spec hcached
    (show LegalTime (-1) by rw [legalTime_iff]; decide)
  exact ⟨_, rfl, hcached, f, ymd, date, hr, hf⟩

end DateCache
