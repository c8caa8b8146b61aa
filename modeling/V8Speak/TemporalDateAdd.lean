import V8Speak.DateCalendar
import V8Speak.TemporalDate

/-!
# What adding to an ISO date computes

`AddISODate` adds months in the sense of the calendar and then days, for dates of the
calendar within the limits and durations whose result is within the limits. This has two
directions. If nothing overflows on the way, then the result is the date with the day number
that is asked for (`addISODate_eq`). If the result is a date within the limits, then
nothing has overflowed, and the result is the date with this day number
(`dayNumber_of_addISODate`): the days before the year -400000, for which the computation is
wrong, and those that have wrapped around are not taken for dates within the limits.
-/

open Int YmdCache

namespace Temporal

open DateCache Gregorian Option

/-! ## Dates of the calendar -/

/-- A date of the calendar, with months from 1. -/
def ofDate (d : Date) : DateRecord := ⟨d.year, d.month + 1, d.day⟩

theorem isoDaysInMonth_eq (year : ℤ) {month : ℕ} (h : month < 12) :
    isoDaysInMonth year (month + 1) = daysInMonth year month := by
  have hleap : (if isLeap year then (29 : ℤ) else 28) = if IsLeap year then 29 else 28 := by
    simp only [isLeap_eq_true_iff]
  unfold isoDaysInMonth
  rw [hleap]
  match month, h with
  | 0, _ | 1, _ | 2, _ | 3, _ | 4, _ | 5, _ | 6, _ | 7, _ | 8, _ | 9, _ | 10, _ | 11, _ => rfl

theorem exists_ofDate {date : DateRecord} (h : isValidISODate date = true) :
    ∃ d, date = ofDate d := by
  obtain ⟨year, month, day⟩ := date
  rw [isValidISODate] at h
  split at h
  · exact nomatch h
  · next hmonth =>
    split at h
    · exact nomatch h
    · next hday =>
      dsimp only at hmonth hday
      obtain ⟨m, rfl⟩ : ∃ m : ℕ, month = m + 1 := ⟨(month - 1).toNat, by omega⟩
      have hm : m < 12 := by omega
      rw [isoDaysInMonth_eq year hm] at hday
      exact ⟨⟨year, m, day, hm, by omega, by omega⟩, rfl⟩

/-- **Comparing dates compares day numbers.** -/
theorem compareISODate_ofDate (d d' : Date) :
    compareISODate (ofDate d) (ofDate d') = (d.dayNumber - d'.dayNumber).sign := by
  have hlt {d d' : Date} (h : d.dayNumber < d'.dayNumber) :
      (d.dayNumber - d'.dayNumber).sign = -1 :=
    sign_eq_neg_one_of_neg (by omega)
  have hgt {d d' : Date} (h : d'.dayNumber < d.dayNumber) : (d.dayNumber - d'.dayNumber).sign = 1 :=
    sign_eq_one_of_pos (by omega)
  have hm := d.month_lt
  have hm' := d'.month_lt
  have hindex : d.monthIndex = 12 * d.year + d.month := rfl
  have hindex' : d'.monthIndex = 12 * d'.year + d'.month := rfl
  unfold compareISODate ofDate
  dsimp only
  split
  · rw [hgt (Date.dayNumber_lt_of_monthIndex_lt (by omega))]
  · split
    · rw [hlt (Date.dayNumber_lt_of_monthIndex_lt (by omega))]
    · split
      · rw [hgt (Date.dayNumber_lt_of_monthIndex_lt (by omega))]
      · split
        · rw [hlt (Date.dayNumber_lt_of_monthIndex_lt (by omega))]
        · have heq : d'.monthIndex = d.monthIndex := by omega
          rw [Date.dayNumber_sub_of_monthIndex_eq heq]
          split
          · rw [sign_eq_one_of_pos (by omega)]
          · split
            · rw [sign_eq_neg_one_of_neg (by omega)]
            · rw [show d.day - d'.day = 0 by omega]
              rfl

/-! ## Balancing -/

theorem floorDivid_eq (a : ℤ) : floorDivid a 12 = a / 12 := by
  have := tdiv_tmod_spec a (show 0 < 12 by decide)
  unfold floorDivid
  split <;> omega

theorem int32_eq_some {x y : ℤ} (h : int32 x = some y) : -2 ^ 31 ≤ x ∧ x < 2 ^ 31 ∧ x = y := by
  unfold int32 at h
  split at h
  · next hfits => exact ⟨hfits.1, hfits.2, Option.some.inj h⟩
  · exact nomatch h

theorem bind_int32_eq_some {α : Type*} {x : ℤ} {f : ℤ → Option α} {r : α}
    (h : (int32 x).bind f = some r) : -2 ^ 31 ≤ x ∧ x < 2 ^ 31 ∧ f x = some r := by
  obtain ⟨y, hy, hr⟩ := bind_eq_some_iff.1 h
  obtain ⟨hlow, hhigh, rfl⟩ := int32_eq_some hy
  exact ⟨hlow, hhigh, hr⟩

/-- The months are added, as the calendar does it. -/
theorem regulateISODate_addMonths (d : Date) (k : ℤ) :
    regulateISODate .constrain ⟨(d.monthIndex + k) / 12, (d.monthIndex + k) % 12 + 1, d.day⟩ =
      some (ofDate (d.addMonths k)) := by
  have hday := (d.addMonths k).one_le
  have hmonth : (((d.monthIndex + k) % 12).toNat : ℤ) = (d.monthIndex + k) % 12 := by omega
  have hlen : isoDaysInMonth ((d.monthIndex + k) / 12) ((d.monthIndex + k) % 12 + 1) =
      daysInMonthIndex (d.monthIndex + k) := by
    rw [← hmonth, isoDaysInMonth_eq _ (by omega)]
    rfl
  unfold regulateISODate
  dsimp only
  rw [show max (min ((d.monthIndex + k) % 12 + 1) 12) 1 = (d.monthIndex + k) % 12 + 1 by omega,
    hlen, show max (min d.day (daysInMonthIndex (d.monthIndex + k))) 1 = (d.addMonths k).day from
      max_eq_left hday]
  show some (DateRecord.mk _ _ _) = some (DateRecord.mk _ ((((d.monthIndex + k) % 12).toNat : ℤ) + 1) _)
  rw [hmonth]
  rfl

/-- The months of a duration. -/
def DateDurationRecord.totalMonths (dur : DateDurationRecord) : ℤ := 12 * dur.years + dur.months

/-- The days of a duration. -/
def DateDurationRecord.totalDays (dur : DateDurationRecord) : ℤ := dur.days + 7 * dur.weeks

theorem int32_bind {α : Type} (x : ℤ) (g : ℤ → Option α) :
    (int32 x).bind g = (int32 x).bind fun _ => g x := by
  unfold int32
  split <;> rfl

theorem balanceISOYearMonth_eq {year month : ℤ} (h : -2 ^ 31 ≤ month - 1) (h' : month < 2 ^ 31) :
    balanceISOYearMonth year month = (int32 (year + (month - 1) / 12)).bind fun _ =>
      some (year + (month - 1) / 12, (month - 1) % 12 + 1) := by
  rw [balanceISOYearMonth, int32_of_fits ⟨h, by omega⟩, bind_eq_bind, bind_some,
    floorDivid_eq, int32_bind]

variable {dur : DateDurationRecord} {d : Date}

/-- What is left to balance. -/
theorem addISODate_balance {c : YmdCache} (hy : -2 ^ 31 ≤ dur.years ∧ dur.years < 2 ^ 31)
    (hy' : -2 ^ 31 ≤ d.year + dur.years ∧ d.year + dur.years < 2 ^ 31)
    (hm : -2 ^ 31 ≤ dur.months ∧ dur.months < 2 ^ 31)
    (hm' : -2 ^ 31 ≤ d.month + dur.months ∧ d.month + 1 + dur.months < 2 ^ 31) :
    addISODate c (ofDate d) dur .constrain =
      (int32 (d.addMonths dur.totalMonths).year).bind fun _ =>
        (int32 ((d.addMonths dur.totalMonths).day + dur.totalDays)).bind fun day =>
          balanceISODate c { ofDate (d.addMonths dur.totalMonths) with day } := by
  have hindex : d.monthIndex + dur.totalMonths =
      12 * (d.year + dur.years) + (d.month + dur.months) := by
    rw [Date.monthIndex, DateDurationRecord.totalMonths]
    omega
  have hyear : d.year + dur.years + (d.month + 1 + dur.months - 1) / 12 =
      (d.addMonths dur.totalMonths).year := by
    show _ = (d.monthIndex + dur.totalMonths) / 12
    omega
  have hmonth : (d.month + 1 + dur.months - 1) % 12 + 1 =
      (d.monthIndex + dur.totalMonths) % 12 + 1 := by
    omega
  unfold addISODate
  rw [int32_of_fits hy, bind_eq_bind, bind_some, int32_of_fits hm]
  dsimp only [ofDate]
  rw [int32_of_fits hy', bind_some, bind_some,
    int32_of_fits ⟨by omega, hm'.2⟩, bind_some, balanceISOYearMonth_eq (by omega) hm'.2, hyear,
    hmonth, bind_eq_bind, bind_assoc]
  refine congrArg ((int32 _).bind) (funext fun _ => ?_)
  rw [bind_some]
  rw [show (d.addMonths dur.totalMonths).year = (d.monthIndex + dur.totalMonths) / 12 from rfl,
    regulateISODate_addMonths]
  rfl

/-! ## Days -/

variable {c : YmdCache} {days : ℤ}

/-- The days of a time at the beginning of a day. -/
theorem daysFromTime_mul (h : -2 ^ 33 ≤ days) (h' : days ≤ 2 ^ 33) :
    daysFromTime (days * kMsPerDay) = some (castInt days) := by
  have hms : kMsPerDay = 86400000 := by decide
  unfold daysFromTime
  rw [hms]
  split
  · have hdiv := tdiv_tmod_spec (days * 86400000 - (86400000 - 1)) (show 0 < 86400000 by decide)
    rw [int64_of_fits (by omega), Option.bind_eq_bind, Option.bind_some]
    dsimp only
    rw [show (days * 86400000 - (86400000 - 1)).tdiv 86400000 = days by omega]
  · rw [Option.bind_eq_bind, Option.bind_some]
    dsimp only
    rw [mul_tdiv_cancel _ (by decide)]

variable {year month day : ℤ}

/-- The years of days that are too early are early. -/
theorem year_le_of_computeYearMonthDay (hdays : days < -kDaysOffset)
    (h : computeYearMonthDay days = some (year, month, day)) : year ≤ -400000 := by
  obtain ⟨hoffset, h400, h100, h4⟩ := days_constants
  rw [hoffset] at hdays
  unfold computeYearMonthDay at h
  rw [hoffset, h400, h100, h4, show kYearsOffset = 400000 from rfl] at h
  obtain ⟨-, -, h⟩ := bind_int32_eq_some h
  obtain ⟨⟨m, e⟩, -, h⟩ := bind_eq_some_iff.1 h
  have hyear := congrArg Prod.fst (Option.some.inj h)
  dsimp only at hyear
  rw [← hyear]
  -- what is divided is negative or zero at each step
  have hq := tdiv_tmod_spec (days + 146816528) (show 0 < 146097 by decide)
  generalize (days + 146816528).tdiv 146097 = q at hq ⊢
  generalize (days + 146816528).tmod 146097 = r₀ at hq ⊢
  have ha := tdiv_tmod_spec (r₀ - 1) (show 0 < 36524 by decide)
  generalize (r₀ - 1).tdiv 36524 = a at ha ⊢
  generalize (r₀ - 1).tmod 36524 = r₁ at ha ⊢
  have hb := tdiv_tmod_spec (r₁ + 1) (show 0 < 1461 by decide)
  generalize (r₁ + 1).tdiv 1461 = b at hb ⊢
  generalize (r₁ + 1).tmod 1461 = r₂ at hb ⊢
  have hc := tdiv_tmod_spec (r₂ - 1) (show 0 < 365 by decide)
  generalize (r₂ - 1).tdiv 365 = c at hc ⊢
  clear hyear h
  omega

variable {c' : YmdCache}

/-- A year that is not too far away is that of a day that is not too far away. -/
theorem legalDays_of_year (hc : c.Valid)
    (h : c.yearMonthDayFromDays days = some ((year, month, day), c')) (hlow : -300000 ≤ year)
    (hhigh : year ≤ 1000000) : LegalDays days := by
  have hnear {date : Date} (hy : date.year = year) :
      -111000000 ≤ date.dayNumber ∧ date.dayNumber ≤ 400000000 := by
    have hbounds := dayNumber_bounds date
    rw [firstOfYear_eq, closedForm, hy] at hbounds
    omega
  have hmiss (h : yearMonthDayMiss days = some ((year, month, day), c')) : LegalDays days := by
    obtain ⟨⟨y, m, e⟩, hcompute, h⟩ := bind_eq_some_iff.1 h
    have hyear : y = year := congrArg (fun r => r.1.1) (Option.some.inj h)
    subst hyear
    by_cases hearly : days < -kDaysOffset
    · have := year_le_of_computeYearMonthDay hearly hcompute
      omega
    · have hfits : days + kDaysOffset < 2 ^ 31 := by
        exact (bind_int32_eq_some hcompute).2.1
      obtain ⟨date, hdate, hnumber⟩ := computeYearMonthDay_spec (not_lt.1 hearly) hfits
      rw [hcompute] at hdate
      have := hnear (congrArg (fun r => r.1) (Option.some.inj hdate)).symm
      rw [legalDays_iff]
      omega
  unfold yearMonthDayFromDays at h
  split at h
  · next hvalid =>
    obtain ⟨-, date, hyear, -, hday, hnumber⟩ := hc hvalid
    obtain ⟨-, -, h⟩ := bind_int32_eq_some h
    obtain ⟨-, -, h⟩ := bind_int32_eq_some h
    split at h
    · next hclose =>
      have hy : c.ymdYear = year := congrArg (fun r => r.1.1) (Option.some.inj h)
      have := hnear (hyear.symm.trans hy)
      have hone := date.one_le
      have hle := date.le
      have hlength := daysInMonth_bounds date.year date.month
      rw [legalDays_iff]
      omega
    · exact hmiss h
  · exact hmiss h

/-- The date at the beginning of a day. -/
theorem breakDownTime_mul (hc : c.Valid) (hdays : LegalDays days) :
    ∃ (f : YmdCache.Fields) (c' : YmdCache) (date : Date),
      c.breakDownTime (days * kMsPerDay) = some (f, c') ∧ f.year = date.year ∧
        f.month = date.month ∧ f.day = date.day ∧ date.dayNumber = days ∧ c'.Valid := by
  obtain ⟨date, c', hr, hnumber, hvalid⟩ := yearMonthDayFromDays_spec hc hdays
  rw [legalDays_iff] at hdays
  have htime : timeInDay (days * kMsPerDay) days = some (castInt 0) := by
    rw [timeInDay, Int.sub_self, int64_of_fits (by decide)]
    rfl
  unfold breakDownTime
  simp only [daysFromTime_mul (show -2 ^ 33 ≤ days by omega) (by omega),
    castInt_of_fits (x := days) (by omega), htime, hr,
    weekday_eq (show -2 ^ 31 ≤ days by omega) (by omega), Option.bind_eq_bind, Option.bind_some]
  exact ⟨_, c', date, rfl, rfl, rfl, rfl, hnumber, hvalid⟩

/-- If there is a date at the beginning of a day, it is that of the day, which may have
wrapped around. -/
theorem yearMonthDay_of_breakDownTime {f : YmdCache.Fields} (h : -2 ^ 33 ≤ days)
    (h' : days ≤ 2 ^ 33) (hf : c.breakDownTime (days * kMsPerDay) = some (f, c')) :
    c.yearMonthDayFromDays (castInt days) = some ((f.year, f.month, f.day), c') := by
  unfold breakDownTime at hf
  rw [daysFromTime_mul h h', Option.bind_eq_bind, Option.bind_some] at hf
  obtain ⟨time, -, hf⟩ := bind_eq_some_iff.1 hf
  obtain ⟨⟨⟨year, month, day⟩, c₁⟩, hymd, hf⟩ := bind_eq_some_iff.1 hf
  obtain ⟨weekday, -, hf⟩ := bind_eq_some_iff.1 hf
  cases hf
  exact hymd

/-! ## Balancing days -/

variable {m : Date} {n : ℤ}

/-- The number of a day of a month, or of the day after it in years before -399999. -/
theorem makeDay_date (hlow : -1000000 ≤ m.year) (hhigh : m.year ≤ 1000000) :
    makeDay m.year m.month (m.day + n) =
      some (some (m.dayNumber + excess (m.year + 399999) + n)) := by
  have hm := m.month_lt
  have hstart := monthStart_bounds m.year hm
  have hyear := firstOfYear_eq m.year
  have hexcess := excess_bounds (m.year + 399999)
  have hdiv : (m.month : ℤ) / 12 = 0 := by omega
  have hmod : ((m.month : ℤ) % 12).toNat = m.month := by omega
  rw [closedForm] at hyear
  rw [makeDay, if_pos (by dsimp only [kMaxYear, kMinYear, kMaxMonth, kMinMonth]; omega),
    daysFromYearMonth_eq_add (by omega) (by omega), hdiv, hmod,
    add_zero, Option.bind_eq_bind, Option.bind_some, Date.dayNumber, firstOfMonth,
    int32_of_fits (by omega), Option.bind_some]
  exact congrArg (some ∘ some) (by omega)

/-- **Balancing gives the date with the right number.** -/
theorem balanceISODate_eq (hc : c.Valid) (hlow : -399999 ≤ m.year) (hhigh : m.year ≤ 1000000)
    (hdays : LegalDays (m.dayNumber + n)) :
    ∃ r c', balanceISODate c { ofDate m with day := m.day + n } =
      some (ofDate r, c') ∧ r.dayNumber = m.dayNumber + n ∧ c'.Valid := by
  obtain ⟨f, c', r, hbreak, hy, hm, hd, hnumber, hvalid⟩ := breakDownTime_mul hc hdays
  have hms : kMsPerDay = 86400000 := by decide
  rw [legalDays_iff] at hdays
  refine ⟨r, c', ?_, hnumber, hvalid⟩
  unfold balanceISODate
  dsimp only [ofDate]
  rw [Int.add_sub_cancel, makeDay_date (by omega) hhigh, join_some, excess,
    if_pos (.inl (by omega)), add_zero, Option.bind_eq_bind, Option.bind_some,
    int64_of_fits (by rw [hms]; omega), Option.bind_some,
    hbreak, Option.bind_eq_bind,
    Option.bind_some, hy, hm, hd]

/-- The limits of years that are needed. -/
structure Near (d : Date) : Prop where
  low : -300000 ≤ d.year
  high : d.year ≤ 300000

theorem Near.dayNumber (h : Near d) : -111000000 ≤ d.dayNumber ∧ d.dayNumber ≤ 111000000 := by
  have hbounds := dayNumber_bounds d
  have hlow := h.low
  have hhigh := h.high
  rw [firstOfYear_eq, closedForm] at hbounds
  omega

/-- **If balancing gives a date within the limits, then it is the right one.** -/
theorem dayNumber_of_balanceISODate (hc : c.Valid) {r : Date}
    (hr : Near r) (hearly : m.year < -399999 → n ≤ 0)
    (hn : -2 ^ 31 ≤ m.day + n) (hn' : m.day + n < 2 ^ 31)
    (h : balanceISODate c { ofDate m with day := m.day + n } = some (ofDate r, c')) :
    r.dayNumber = m.dayNumber + n := by
  have hnear := hr.dayNumber
  have hlow := hr.low
  have hhigh := hr.high
  unfold balanceISODate at h
  dsimp only [ofDate] at h
  rw [Int.add_sub_cancel] at h
  obtain ⟨epochDays, hday, h⟩ := bind_eq_some_iff.1 h
  obtain ⟨ms, hms, h⟩ := bind_eq_some_iff.1 h
  have hms' : epochDays * kMsPerDay = ms := by
    unfold int64 at hms
    split at hms
    · exact Option.some.inj hms
    · exact nomatch hms
  rw [← hms'] at h
  obtain ⟨⟨f, c₁⟩, hbreak, h⟩ := bind_eq_some_iff.1 h
  -- the number of days is that of the date, or much too small
  have hepoch : (-2 ^ 31 - 400000000 ≤ epochDays ∧ epochDays ≤ 2 ^ 31 + 400000000) ∧
      (epochDays = m.dayNumber + n ∨ epochDays ≤ -140000000) := by
    have hone := m.one_le
    have hle := m.le.trans (daysInMonth_bounds m.year m.month).2
    have hbounds := dayNumber_bounds m
    rw [firstOfYear_eq, closedForm] at hbounds
    by_cases hrange : -1000000 ≤ m.year ∧ m.year ≤ 1000000
    · have hexcess := excess_bounds (m.year + 399999)
      have hzero : -399999 ≤ m.year → excess (m.year + 399999) = 0 := fun _ =>
        if_pos (.inl (by omega))
      rw [makeDay_date hrange.1 hrange.2, join_some] at hday
      have := Option.some.inj hday
      omega
    · rw [makeDay, if_neg fun h => hrange h.1, join_some] at hday
      cases hday
  have hymd := yearMonthDay_of_breakDownTime (by omega) (by omega) hbreak
  have hrecord := congrArg Prod.fst (Option.some.inj h)
  dsimp only at hrecord
  have hfy : f.year = r.year := congrArg DateRecord.year hrecord
  have hfm : f.month + 1 = r.month + 1 := congrArg DateRecord.month hrecord
  have hfd : f.day = r.day := congrArg DateRecord.day hrecord
  have hlegal := legalDays_of_year hc hymd (by omega) (by omega)
  obtain ⟨date, c₂, hspec, hnumber, -⟩ := yearMonthDayFromDays_spec hc hlegal
  have hdate : date = r := by
    rw [hymd] at hspec
    have heq := congrArg (fun x => x.1) (Option.some.inj hspec)
    dsimp only at heq
    have hdy : f.year = date.year := congrArg (fun x => x.1) heq
    have hdm : f.month = date.month := congrArg (fun x => x.2.1) heq
    have hdd : f.day = date.day := congrArg (fun x => x.2.2) heq
    refine Date.ext_of_day ?_ (hdd.symm.trans hfd)
    unfold Date.monthIndex
    omega
  rw [hdate] at hnumber
  -- a number that has wrapped around is not near
  have hcast : castInt epochDays = epochDays := by
    unfold castInt bmod at hnumber ⊢
    dsimp only at hnumber ⊢
    split at hnumber <;> omega
  omega

/-! ## Adding -/

/-- **Adding a duration gives the date with the right number**, where this is near. -/
theorem addISODate_eq (hc : c.Valid) (hd : Near d) (hy : -1000000 ≤ dur.years ∧ dur.years ≤ 1000000)
    (hm : -10000000 ≤ dur.months ∧ dur.months ≤ 10000000)
    (hmid : Near (d.addMonths dur.totalMonths))
    (hn : -1000000000 ≤ dur.totalDays ∧ dur.totalDays ≤ 1000000000)
    (hdays : LegalDays ((d.addMonths dur.totalMonths).dayNumber + dur.totalDays)) :
    ∃ r c', addISODate c (ofDate d) dur .constrain = some (ofDate r, c') ∧
      r.dayNumber = (d.addMonths dur.totalMonths).dayNumber + dur.totalDays ∧ c'.Valid := by
  have hlow := hd.low
  have hhigh := hd.high
  have hmonth := d.month_lt
  have hlow' := hmid.low
  have hhigh' := hmid.high
  have hone := (d.addMonths dur.totalMonths).one_le
  have hle := (d.addMonths dur.totalMonths).le
  have hlength := daysInMonth_bounds (d.addMonths dur.totalMonths).year
    (d.addMonths dur.totalMonths).month
  rw [addISODate_balance (by omega) (by omega) (by omega) (by omega),
    int32_of_fits (by omega), bind_some, int32_of_fits (by omega),
    bind_some]
  exact balanceISODate_eq hc (by omega) (by omega) hdays

/-- **If adding a duration gives a date that is near, then its number is right.** -/
theorem dayNumber_of_addISODate (hc : c.Valid) {d r : Date} (hd : Near d)
    (hr : Near r) (hneg : dur.totalMonths < 0 → dur.totalDays ≤ 0)
    (h : addISODate c (ofDate d) dur .constrain = some (ofDate r, c')) :
    r.dayNumber = (d.addMonths dur.totalMonths).dayNumber + dur.totalDays := by
  have hfits : ((-2 ^ 31 ≤ dur.years ∧ dur.years < 2 ^ 31) ∧
      (-2 ^ 31 ≤ d.year + dur.years ∧ d.year + dur.years < 2 ^ 31)) ∧
      (-2 ^ 31 ≤ dur.months ∧ dur.months < 2 ^ 31) ∧
      (-2 ^ 31 ≤ d.month + dur.months ∧ d.month + 1 + dur.months < 2 ^ 31) := by
    unfold addISODate at h
    obtain ⟨hlow₁, hhigh₁, h⟩ := bind_int32_eq_some h
    obtain ⟨hlow₂, hhigh₂, h⟩ := bind_int32_eq_some h
    obtain ⟨hlow₃, hhigh₃, h⟩ := bind_int32_eq_some h
    obtain ⟨hlow₄, hhigh₄, h⟩ := bind_int32_eq_some h
    obtain ⟨x, hx, -⟩ := bind_eq_some_iff.1 h
    dsimp only [ofDate] at *
    omega
  rw [addISODate_balance hfits.1.1 hfits.1.2 hfits.2.1 hfits.2.2] at h
  obtain ⟨-, -, h⟩ := bind_eq_some_iff.1 h
  obtain ⟨hlow, hhigh, h⟩ := bind_int32_eq_some h
  refine dayNumber_of_balanceISODate hc hr (fun hearly => hneg ?_) hlow hhigh h
  have hyear : (d.addMonths dur.totalMonths).year = (d.monthIndex + dur.totalMonths) / 12 := rfl
  have hindex : d.monthIndex = 12 * d.year + d.month := rfl
  have := hd.low
  omega

end Temporal
