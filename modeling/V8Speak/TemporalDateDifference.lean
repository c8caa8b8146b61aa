import V8Speak.TemporalDateAdd

/-!
# The difference of ISO dates is inverse to adding

`DifferenceISODate` for years and months splits the way from the first date to the second
into years, months and days, such that one year more, or one month more, would go too far
(`Split`). The trials find this, as adding more months gives a later date: the years
between the dates, or one less, and the months between them, or one less. For weeks and days
the days between the dates are counted year by year.

What leads from one date to another with components of one sign goes beyond the years it has,
so that no such duration has more of the largest unit.
-/

open Option Int

namespace Temporal

open DateCache DateDurationRecord Gregorian

/-- The years of dates within the limits. -/
structure WithinLimits (d : Date) : Prop where
  low : -271821 ≤ d.year
  high : d.year ≤ 275760

variable {d : Date}

theorem WithinLimits.near (h : WithinLimits d) : Near d :=
  ⟨by have := h.low; omega, by have := h.high; omega⟩

theorem withinLimits_iff : WithinLimits d ↔ -3261852 ≤ d.monthIndex ∧ d.monthIndex ≤ 3309131 := by
  have hm := d.month_lt
  unfold Date.monthIndex
  exact ⟨fun ⟨hlow, hhigh⟩ => by omega, fun h => ⟨by omega, by omega⟩⟩

theorem exists_withinLimits {date : DateRecord} {time : TimeRecord}
    (hvalid : isValidISODate date = true) (h : isoDateTimeWithinLimits date time = true) :
    ∃ d, date = ofDate d ∧ WithinLimits d := by
  obtain ⟨d, rfl⟩ := exists_ofDate hvalid
  refine ⟨d, rfl, ?_⟩
  unfold isoDateTimeWithinLimits at h
  by_cases hinner : (ofDate d).year > -271821 ∧ (ofDate d).year < 275760
  · exact ⟨hinner.1.le, hinner.2.le⟩
  · by_cases houter : (ofDate d).year < -271821 ∨ (ofDate d).year > 275760
    · grind
    · dsimp only [ofDate] at houter
      exact ⟨by omega, by omega⟩

/-! ## Durations of one sign -/

/-- All components are zero or have the sign. -/
structure DateDurationRecord.HasSign (s : ℤ) (dur : DateDurationRecord) : Prop where
  years : 0 ≤ s * dur.years
  months : 0 ≤ s * dur.months
  weeks : 0 ≤ s * dur.weeks
  days : 0 ≤ s * dur.days

variable {dur : DateDurationRecord} {s : ℤ}

/-- The sign of a duration of one sign. -/
theorem DateDurationRecord.HasSign.durationSign (hs : s = 1 ∨ s = -1) (h : dur.HasSign s) :
    0 ≤ s * dur.durationSign := by
  obtain ⟨hy, hm, hw, hd⟩ := h
  unfold DateDurationRecord.durationSign
  rcases hs with rfl | rfl
  · split_ifs <;> omega
  · split_ifs <;> omega

theorem DateDurationRecord.create_eq {years months weeks days : ℤ} (hs : s = 1 ∨ s = -1)
    (h : HasSign s ⟨years, months, weeks, days⟩) :
    create years months weeks days = some ⟨years, months, weeks, days⟩ := by
  have hvalid : isValidDuration ⟨years, months, weeks, days⟩ = true := by
    unfold isValidDuration
    rw [Bool.not_eq_true', decide_eq_false_iff_not]
    have hsign := h.durationSign hs
    obtain ⟨hy, hm, hw, hd⟩ := h
    rcases hs with rfl | rfl <;> omega
  rw [create, if_pos hvalid]

/-! ## Years and months -/

/-- **The way from one date to another**, in years, months and days of one sign, with the most
years and the most months. -/
structure Split (s : ℤ) (d₁ d₂ : Date) (years months days : ℤ) : Prop where
  reach : (d₁.addMonths (12 * years + months)).dayNumber + days = d₂.dayNumber
  yearsSign : 0 ≤ s * years
  monthsSign : 0 ≤ s * months
  daysSign : 0 ≤ s * days
  nextYear : 0 < s * ((d₁.addMonths (12 * (years + s))).dayNumber - d₂.dayNumber)
  nextMonth : 0 < s * ((d₁.addMonths (12 * years + months + s)).dayNumber - d₂.dayNumber)

/-- The duration for a largest unit. -/
def fromYears (largestUnit : Unit) (years months days : ℤ) : DateDurationRecord :=
  if largestUnit = .month then ⟨0, months + years * 12, 0, days⟩ else ⟨years, months, 0, days⟩

variable {c : YmdCache} {d₁ d₂ : Date} {largestUnit : Unit} {years months days : ℤ}

theorem fromYears_total (largestUnit : Unit) (years months days : ℤ) :
    (fromYears largestUnit years months days).totalMonths = 12 * years + months ∧
      (fromYears largestUnit years months days).totalDays = days := by
  unfold fromYears totalMonths totalDays
  split <;> dsimp only <;> omega

theorem Split.hasSign (h : Split s d₁ d₂ years months days) :
    (fromYears largestUnit years months days).HasSign s := by
  have hy := h.yearsSign
  have hm := h.monthsSign
  unfold fromYears
  split
  · exact ⟨by rw [mul_zero], by grind, by rw [mul_zero], h.daysSign⟩
  · exact ⟨hy, hm, by rw [mul_zero], h.daysSign⟩

theorem Split.createFromYears (hs : s = 1 ∨ s = -1) (h : Split s d₁ d₂ years months days) :
    createFromYears largestUnit years months days = some (fromYears largestUnit years months days) := by
  have hsign : (fromYears largestUnit years months days).HasSign s := h.hasSign
  unfold Temporal.createFromYears
  unfold fromYears at hsign ⊢
  split
  · next hmonth =>
    rw [if_pos hmonth] at hsign
    exact create_eq hs hsign
  · next hyear =>
    rw [if_neg hyear] at hsign
    exact create_eq hs hsign

/-- A duration that leads to the number of a date leads to it. -/
theorem addISODate_reaches (hc : c.Valid) (h₁ : WithinLimits d₁)
    (hy : -1000000 ≤ dur.years ∧ dur.years ≤ 1000000)
    (hm : -10000000 ≤ dur.months ∧ dur.months ≤ 10000000)
    (hmid : Near (d₁.addMonths dur.totalMonths)) (h₂ : Near d₂)
    (hreach : (d₁.addMonths dur.totalMonths).dayNumber + dur.totalDays = d₂.dayNumber) :
    ∃ c', addISODate c (ofDate d₁) dur .constrain = some (ofDate d₂, c') ∧ c'.Valid := by
  have hnear := hmid.dayNumber
  have hnear₂ := h₂.dayNumber
  obtain ⟨r, c', hadd, hr, hvalid⟩ := addISODate_eq hc h₁.near hy hm hmid (by omega)
    (by rw [legalDays_iff]; omega)
  rw [hreach] at hr
  exact ⟨c', by rw [hadd, Date.dayNumber_injective hr], hvalid⟩

/-- Adding months gives the date that the calendar gives. -/
theorem addISODate_months (hc : c.Valid) (h₁ : WithinLimits d₁) {years months : ℤ}
    (hy : -1000000 ≤ years ∧ years ≤ 1000000) (hm : -100 ≤ months ∧ months ≤ 100)
    (hmid : Near (d₁.addMonths (12 * years + months))) :
    ∃ c', addISODate c (ofDate d₁) ⟨years, months, 0, 0⟩ .constrain =
      some (ofDate (d₁.addMonths (12 * years + months)), c') ∧ c'.Valid :=
  addISODate_reaches hc h₁ hy
    (show -10000000 ≤ months ∧ months ≤ 10000000 by omega) hmid hmid (add_zero _)

/-- The sign of what is missing. -/
theorem neg_compareISODate (d d' : Date) :
    -compareISODate (ofDate d) (ofDate d') = (d'.dayNumber - d.dayNumber).sign := by
  rw [compareISODate_ofDate, ← Int.sign_neg, Int.neg_sub]

variable {mid : Date}

/-- The days that are left in the month of the second date. -/
theorem remainingDays_of_eq (h : mid.monthIndex = d₂.monthIndex) :
    remainingDays s (ofDate mid) (ofDate d₂) = d₂.dayNumber - mid.dayNumber := by
  have hmonth : mid.month = d₂.month := by rw [← mid.monthIndex_mod, h, d₂.monthIndex_mod]
  rw [Date.dayNumber_sub_of_monthIndex_eq h, remainingDays, if_pos]
  · rfl
  · show (mid.month : ℤ) + 1 = d₂.month + 1
    rw [hmonth]

/-- The dates of a month next to the second date are near. -/
theorem WithinLimits.near_of_monthIndex (h₂ : WithinLimits d₂)
    (h : -12 ≤ d.monthIndex - d₂.monthIndex ∧ d.monthIndex - d₂.monthIndex ≤ 12) : Near d := by
  have hlow := h₂.low
  have hhigh := h₂.high
  have hm := d.month_lt
  have hm₂ := d₂.month_lt
  unfold Date.monthIndex at h
  exact ⟨by omega, by omega⟩

variable {k l : ℤ} (hs : s = 1 ∨ s = -1)
include hs

/-- The days that are left from the month next to that of the second date. -/
theorem remainingDays_of_next (h : mid.monthIndex = d₂.monthIndex - s) :
    remainingDays s (ofDate mid) (ofDate d₂) = d₂.dayNumber - mid.dayNumber := by
  have hlt := mid.month_lt
  have hlt₂ := d₂.month_lt
  have hne : (ofDate mid).month ≠ (ofDate d₂).month := by
    unfold Date.monthIndex at h
    dsimp only [ofDate]
    omega
  rw [remainingDays, if_neg hne]
  dsimp only [ofDate]
  rcases hs with rfl | rfl
  · rw [if_neg (by decide), isoDaysInMonth_eq _ hlt,
      Date.dayNumber_sub_of_monthIndex_succ (by omega)]
  · have := Date.dayNumber_sub_of_monthIndex_succ (d := d₂) (e := mid) (by omega)
    rw [if_pos (by decide), isoDaysInMonth_eq _ hlt₂]
    omega

theorem sign_eq_of_pos {x : ℤ} (h : 0 < s * x) : x.sign = s := by
  rcases hs with rfl | rfl
  · exact sign_eq_one_of_pos (by omega)
  · exact sign_eq_neg_one_of_neg (by omega)

theorem sign_eq_of_neg {x : ℤ} (h : s * x < 0) : x.sign = -s := by
  rcases hs with rfl | rfl
  · exact sign_eq_neg_one_of_neg (by omega)
  · exact sign_eq_one_of_pos (by omega)

/-- A date of a month beyond that of another one is beyond it. -/
theorem dayNumber_further {d e : Date}
    (h : s * d.monthIndex < s * e.monthIndex) : s * d.dayNumber < s * e.dayNumber := by
  rcases hs with rfl | rfl
  · have := Date.dayNumber_lt_of_monthIndex_lt (show d.monthIndex < e.monthIndex by omega)
    omega
  · have := Date.dayNumber_lt_of_monthIndex_lt (show e.monthIndex < d.monthIndex by omega)
    omega

/-- Adding more months in the direction of the sign goes further. -/
theorem addMonths_further (h : s * k < s * l) :
    s * (d.addMonths k).dayNumber < s * (d.addMonths l).dayNumber := by
  refine dayNumber_further hs ?_
  rw [d.monthIndex_addMonths, d.monthIndex_addMonths, mul_add, mul_add]
  omega

theorem addMonths_further_le (h : s * k ≤ s * l) :
    s * (d.addMonths k).dayNumber ≤ s * (d.addMonths l).dayNumber := by
  rcases h.lt_or_eq with hlt | heq
  · exact (addMonths_further hs hlt).le
  · grind

/-- **The second and the third trial.** There is a month to take back if the trial with the
months between the dates goes too far. -/
theorem differenceMonths_split (hc : c.Valid) (h₁ : WithinLimits d₁)
    (h₂ : WithinLimits d₂) {years months : ℤ}
    (htotal : d₁.monthIndex + (12 * years + months) = d₂.monthIndex)
    (hy : -1000000 ≤ years ∧ years ≤ 1000000) (hm : -12 ≤ months ∧ months ≤ 12)
    (hyears : 0 ≤ s * years) (hmonths : 0 ≤ s * months)
    (hback : months = 0 → 0 ≤ s * (d₂.dayNumber - (d₁.addMonths (12 * years + months)).dayNumber))
    (hnext : 0 < s * ((d₁.addMonths (12 * (years + s))).dayNumber - d₂.dayNumber)) :
    ∃ y m n c', differenceMonths c (ofDate d₁) (ofDate d₂) largestUnit s years
        months = some (fromYears largestUnit y m n, c') ∧ Split s d₁ d₂ y m n ∧ c'.Valid := by
  have hindex := d₁.monthIndex_addMonths (12 * years + months)
  obtain ⟨c₁, hadd, hc₁⟩ := addISODate_months hc h₁ hy (show -100 ≤ months ∧ months ≤ 100 by omega)
    (h₂.near_of_monthIndex (by omega))
  -- a month more is beyond the month of the second date
  have hbeyond : 0 < s * ((d₁.addMonths (12 * years + months + s)).dayNumber - d₂.dayNumber) := by
    have hi := d₁.monthIndex_addMonths (12 * years + months + s)
    have := dayNumber_further hs (d := d₂) (e := d₁.addMonths (12 * years + months + s))
    rcases hs with rfl | rfl <;> omega
  unfold differenceMonths
  rw [hadd, Option.bind_eq_bind, Option.bind_some]
  dsimp only
  rw [neg_compareISODate]
  rcases lt_trichotomy 0 (s * (d₂.dayNumber - (d₁.addMonths (12 * years + months)).dayNumber)) with
    hbefore | hsame | hafter
  · have hsplit : Split s d₁ d₂ years months
        (d₂.dayNumber - (d₁.addMonths (12 * years + months)).dayNumber) :=
      ⟨by omega, hyears, hmonths, hbefore.le, hnext, hbeyond⟩
    rw [sign_eq_of_pos hs hbefore, if_neg (by omega), if_neg (fun h => h rfl),
      remainingDays_of_eq (hindex.trans htotal), hsplit.createFromYears hs]
    exact ⟨_, _, _, c₁, rfl, hsplit, hc₁⟩
  · have hzero : d₂.dayNumber - (d₁.addMonths (12 * years + months)).dayNumber = 0 := by
      rcases hs with rfl | rfl <;> omega
    have hsplit : Split s d₁ d₂ years months 0 :=
      ⟨by omega, hyears, hmonths, by rw [mul_zero], hnext, hbeyond⟩
    rw [hzero, if_pos Int.sign_zero, hsplit.createFromYears hs]
    exact ⟨_, _, _, c₁, rfl, hsplit, hc₁⟩
  · have hdec : decrementMonths s years months = (years, months - s) := by
      exact if_neg (by omega)
    have hindex' := d₁.monthIndex_addMonths (12 * years + (months - s))
    obtain ⟨c₂, hadd', hc₂⟩ := addISODate_months hc₁ h₁ hy
      (show -100 ≤ months - s ∧ months - s ≤ 100 by omega) (h₂.near_of_monthIndex (by omega))
    have hfurther := dayNumber_further hs (d := d₁.addMonths (12 * years + (months - s))) (e := d₂)
    have hsplit : Split s d₁ d₂ years (months - s)
        (d₂.dayNumber - (d₁.addMonths (12 * years + (months - s))).dayNumber) := by
      refine ⟨by omega, hyears, ?_, ?_, hnext, ?_⟩
      · rcases hs with rfl | rfl <;> omega
      · rcases hs with rfl | rfl <;> omega
      · grind
    rw [sign_eq_of_neg hs hafter, if_neg (by omega), if_pos (by omega), hdec]
    rw [hadd', Option.bind_eq_bind, Option.bind_some]
    rw [remainingDays_of_next hs (by omega), hsplit.createFromYears hs]
    exact ⟨_, _, _, c₂, rfl, hsplit, hc₂⟩

/-- **The difference in years and months.** -/
theorem differenceYears_split (hc : c.Valid) (h₁ : WithinLimits d₁)
    (h₂ : WithinLimits d₂) (hsign : 0 < s * (d₂.dayNumber - d₁.dayNumber)) :
    ∃ y m n c', differenceYears c (ofDate d₁) (ofDate d₂) largestUnit =
        some (fromYears largestUnit y m n, c') ∧ Split s d₁ d₂ y m n ∧ c'.Valid := by
  have hlow₁ := h₁.low
  have hhigh₁ := h₁.high
  have hlow₂ := h₂.low
  have hhigh₂ := h₂.high
  have hm₁ := d₁.month_lt
  have hm₂ := d₂.month_lt
  have hi₁ : d₁.monthIndex = 12 * d₁.year + d₁.month := rfl
  have hi₂ : d₂.monthIndex = 12 * d₂.year + d₂.month := rfl
  obtain ⟨y, hy⟩ : ∃ y, y = d₂.year - d₁.year := ⟨_, rfl⟩
  have hindex := d₁.monthIndex_addMonths (12 * y + 0)
  have hyears : 0 ≤ s * y := by
    by_contra hneg
    have := dayNumber_further hs (d := d₂) (e := d₁) (by rcases hs with rfl | rfl <;> omega)
    rcases hs with rfl | rfl <;> omega
  have hnext : 0 < s * ((d₁.addMonths (12 * (y + s))).dayNumber - d₂.dayNumber) := by
    have hi := d₁.monthIndex_addMonths (12 * (y + s))
    have := dayNumber_further hs (d := d₂) (e := d₁.addMonths (12 * (y + s)))
    rcases hs with rfl | rfl <;> omega
  obtain ⟨c₁, hadd, hc₁⟩ := addISODate_months hc h₁ (show -1000000 ≤ y ∧ y ≤ 1000000 by omega)
    (show -100 ≤ (0 : ℤ) ∧ (0 : ℤ) ≤ 100 by decide) (h₂.near_of_monthIndex (by omega))
  have hmonth : (ofDate d₂).month - (ofDate d₁).month = (d₂.month : ℤ) - d₁.month := by
    dsimp only [ofDate]
    omega
  unfold differenceYears
  dsimp only
  rw [neg_compareISODate, sign_eq_of_pos hs hsign, if_neg (by omega), hmonth,
    show (ofDate d₂).year - (ofDate d₁).year = y from hy.symm, int32_of_fits (by omega),
    Option.bind_eq_bind, Option.bind_some, hadd, Option.bind_eq_bind, Option.bind_some]
  rw [neg_compareISODate]
  rcases lt_trichotomy 0 (s * (d₂.dayNumber - (d₁.addMonths (12 * y + 0)).dayNumber)) with
    hbefore | hsame | hafter
  · have hmonths : 0 ≤ s * ((d₂.month : ℤ) - d₁.month) := by
      have := dayNumber_further hs (d := d₂) (e := d₁.addMonths (12 * y + 0))
      rcases hs with rfl | rfl <;> omega
    rw [sign_eq_of_pos hs hbefore, if_neg (by omega), if_neg (fun h => h rfl)]
    exact differenceMonths_split hs hc₁ h₁ h₂ (by omega) (by omega) (by omega) hyears hmonths
      (fun h0 => by rw [h0]; exact hbefore.le) hnext
  · have hzero : d₂.dayNumber - (d₁.addMonths (12 * y + 0)).dayNumber = 0 := by
      rcases hs with rfl | rfl <;> omega
    have hsplit : Split s d₁ d₂ y 0 0 := by
      refine ⟨by omega, hyears, by rw [mul_zero], by rw [mul_zero], hnext, ?_⟩
      have := addMonths_further hs (d := d₁) (k := 12 * y + 0) (l := 12 * y + 0 + s)
      rcases hs with rfl | rfl <;> omega
    rw [hzero, if_pos Int.sign_zero, hsplit.createFromYears hs]
    exact ⟨_, _, _, c₁, rfl, hsplit, hc₁⟩
  · have hne : y ≠ 0 := by
      rintro rfl
      rw [show 12 * (0 : ℤ) + 0 = 0 from rfl, d₁.addMonths_zero] at hafter
      omega
    have hmonths : s * ((d₂.month : ℤ) - d₁.month) ≤ 0 := by
      have := dayNumber_further hs (d := d₁.addMonths (12 * y + 0)) (e := d₂)
      rcases hs with rfl | rfl <;> omega
    rw [sign_eq_of_neg hs hafter, if_neg (by omega), if_pos (by omega)]
    refine differenceMonths_split hs hc₁ h₁ h₂ ?_ ?_ ?_ ?_ ?_ ?_ ?_
    · omega
    · omega
    · rcases hs with rfl | rfl <;> omega
    · rcases hs with rfl | rfl <;> omega
    · rcases hs with rfl | rfl <;> omega
    · omega
    · grind

omit hs

/-! ## Weeks and days -/

theorem isoDaysInYear_eq (year : ℤ) : isoDaysInYear year = daysInYear year := by
  rw [daysInYear_eq, isoDaysInYear]
  simp only [isLeap_eq_true_iff]

theorem toISODayOfYear_ofDate (h : WithinLimits d) :
    toISODayOfYear (ofDate d) = some (d.dayNumber - firstOfYear d.year + 1) := by
  have hlow := h.low
  have hhigh := h.high
  have hbounds := YmdCache.dayNumber_bounds d
  have hclosed := firstOfYear_eq d.year
  rw [closedForm] at hclosed
  unfold Date.dayNumber at hbounds ⊢
  unfold toISODayOfYear
  dsimp only [ofDate]
  rw [Int.add_sub_cancel, daysFromYearMonth_date (by omega) (by omega), Option.bind_eq_bind,
    Option.bind_some,
    daysFromYearMonth_zero (by omega) (by omega), Option.bind_some, int32_of_fits (by omega),
    Option.bind_some,
    int32_of_fits (by omega)]
  exact congrArg some (by omega)

/-- The loop over the years adds the days of the years. -/
theorem addDaysInYears_eq {n : ℕ} {year days : ℤ} (hdays : -366 ≤ days)
    (hsum : days + (firstOfYear (year + n) - firstOfYear year) < 2 ^ 31) :
    addDaysInYears n year days = some (days + (firstOfYear (year + n) - firstOfYear year)) := by
  induction n generalizing year days with
  | zero => rw [Nat.cast_zero, add_zero, Int.sub_self, add_zero, addDaysInYears]
  | succ n ih =>
    have hsucc := firstOfYear_succ year
    have hyear : 365 ≤ daysInYear year := by
      rw [daysInYear_eq]
      split <;> decide
    have hgrow : firstOfYear (year + 1) ≤ firstOfYear (year + 1 + n) := by
      rw [firstOfYear_eq, firstOfYear_eq, closedForm, closedForm]
      omega
    rw [show year + ((n + 1 : ℕ) : ℤ) = year + 1 + n by omega] at hsum ⊢
    rw [addDaysInYears, isoDaysInYear_eq, int32_of_fits (by omega), Option.bind_eq_bind,
      Option.bind_some,
      ih (by omega) (by omega)]
    exact congrArg some (by omega)

/-- The days from one date to a later one. -/
theorem addDaysInYears_dates {d d' : Date} (h : WithinLimits d) (h' : WithinLimits d')
    (hle : d.dayNumber ≤ d'.dayNumber) :
    ∃ a b, toISODayOfYear (ofDate d') = some a ∧ toISODayOfYear (ofDate d) = some b ∧
      int32 (a - b) = some (a - b) ∧
      addDaysInYears (d'.year - d.year).toNat d.year (a - b) =
        some (d'.dayNumber - d.dayNumber) := by
  have hyear : d.year ≤ d'.year := by
    have := Date.monthIndex_le_of_dayNumber_le hle
    have hm' := d'.month_lt
    unfold Date.monthIndex at this
    omega
  have hnear := h.near.dayNumber
  have hnear' := h'.near.dayNumber
  have hbounds := YmdCache.dayNumber_bounds d
  have hbounds' := YmdCache.dayNumber_bounds d'
  have hcast : d.year + ((d'.year - d.year).toNat : ℤ) = d'.year := by omega
  refine ⟨_, _, toISODayOfYear_ofDate h', toISODayOfYear_ofDate h, int32_of_fits (by omega), ?_⟩
  rw [addDaysInYears_eq (by omega) (by rw [hcast]; omega), hcast]
  exact congrArg some (by omega)

/-- The duration of weeks and days, for a number of days. -/
def fromDays (largestUnit : Unit) (days : ℤ) : DateDurationRecord :=
  if largestUnit = .week then ⟨0, 0, days.tdiv 7, days.tmod 7⟩ else ⟨0, 0, 0, days⟩

theorem fromDays_hasSign (hs : s = 1 ∨ s = -1) {days : ℤ} (h : 0 ≤ s * days) :
    (fromDays largestUnit days).HasSign s := by
  have hdiv := tdiv_tmod_spec days (show 0 < 7 by decide)
  unfold fromDays
  split
  · refine ⟨by rw [mul_zero], by rw [mul_zero], ?_, ?_⟩ <;> dsimp only <;>
      rcases hs with rfl | rfl <;> omega
  · exact ⟨by rw [mul_zero], by rw [mul_zero], by rw [mul_zero], h⟩

/-- **The difference in weeks and days.** -/
theorem differenceDays_eq (h₁ : WithinLimits d₁) (h₂ : WithinLimits d₂) :
    differenceDays (ofDate d₁) (ofDate d₂) largestUnit =
      some (fromDays largestUnit (d₂.dayNumber - d₁.dayNumber)) := by
  have hcreate {s days : ℤ} (hs : s = 1 ∨ s = -1) (hdays : 0 ≤ days) : (if largestUnit = .week then
          create 0 0 (days.tdiv 7 * s) (days.tmod 7 * s)
        else create 0 0 0 (days * s)) =
        some (fromDays largestUnit (days * s)) := by
    have hsign : (fromDays largestUnit (days * s)).HasSign s :=
      fromDays_hasSign hs (by rcases hs with rfl | rfl <;> omega)
    have hdiv : (days * s).tdiv 7 = days.tdiv 7 * s ∧ (days * s).tmod 7 = days.tmod 7 * s := by
      rcases hs with rfl | rfl
      · simp only [mul_one, and_self]
      · simp only [mul_neg, mul_one, Int.neg_tdiv, neg_tmod, and_self]
    unfold fromDays at hsign ⊢
    split
    · next hweek =>
      rw [if_pos hweek, hdiv.1, hdiv.2] at hsign
      rw [hdiv.1, hdiv.2]
      exact create_eq hs hsign
    · next hday =>
      rw [if_neg hday] at hsign
      exact create_eq hs hsign
  unfold differenceDays
  rw [compareISODate_ofDate]
  by_cases hlt : d₁.dayNumber < d₂.dayNumber
  · obtain ⟨a, b, ha, hb, hsub, hdays⟩ := addDaysInYears_dates h₁ h₂ hlt.le
    rw [if_pos (sign_neg_iff.2 (by omega))]
    dsimp only
    rw [ha, hb, Option.bind_eq_bind, Option.bind_some, Option.bind_some, hsub, Option.bind_some,
      show (ofDate d₂).year - (ofDate d₁).year = d₂.year - d₁.year from rfl,
      show (ofDate d₁).year = d₁.year from rfl, hdays, Option.bind_some,
      hcreate (.inl rfl) (by omega),
        mul_one]
  · obtain ⟨a, b, ha, hb, hsub, hdays⟩ := addDaysInYears_dates h₂ h₁ (not_lt.1 hlt)
    rw [if_neg (fun h => absurd (sign_neg_iff.1 h) (by omega))]
    dsimp only
    rw [ha, hb, Option.bind_eq_bind, Option.bind_some, Option.bind_some, hsub, Option.bind_some,
      show (ofDate d₁).year - (ofDate d₂).year = d₁.year - d₂.year from rfl,
      show (ofDate d₂).year = d₂.year from rfl, hdays, Option.bind_some,
      hcreate (.inr rfl) (by omega)]
    exact congrArg (fun n => some (fromDays largestUnit n)) (by omega)

/-! ## The inverse -/

theorem Split.bounds (hs : s = 1 ∨ s = -1) (h₁ : WithinLimits d₁) (h₂ : WithinLimits d₂)
    (h : Split s d₁ d₂ years months days) :
    s * (12 * years + months) ≤ s * (d₂.monthIndex - d₁.monthIndex) ∧
      WithinLimits (d₁.addMonths (12 * years + months)) := by
  have hindex := d₁.monthIndex_addMonths (12 * years + months)
  have hle : s * (12 * years + months) ≤ s * (d₂.monthIndex - d₁.monthIndex) := by
    have := dayNumber_further hs (d := d₂) (e := d₁.addMonths (12 * years + months))
    have hreach := h.reach
    have hdays := h.daysSign
    rcases hs with rfl | rfl <;> omega
  refine ⟨hle, ?_⟩
  have hy := h.yearsSign
  have hm := h.monthsSign
  rw [withinLimits_iff] at h₁ h₂ ⊢
  rcases hs with rfl | rfl <;> omega

namespace DateDurationRecord

/-- The components are zero or have the sign of a comparison. -/
def Signed (sign : ℤ) (dur : DateDurationRecord) : Prop :=
  ∀ x ∈ [dur.years, dur.months, dur.weeks, dur.days], x = 0 ∨ x.sign = sign

/-- There are no units above a largest unit. -/
def UpTo (dur : DateDurationRecord) : Unit → Prop
  | .month => dur.years = 0
  | .week => dur.years = 0 ∧ dur.months = 0
  | .day => dur.years = 0 ∧ dur.months = 0 ∧ dur.weeks = 0
  | _ => True

/-- How much there is of a unit. -/
def amount (dur : DateDurationRecord) : Unit → ℕ
  | .year => dur.years.natAbs
  | .month => dur.months.natAbs
  | .week => dur.weeks.natAbs
  | .day => dur.days.natAbs
  | _ => 0

/-- All components together. -/
theorem signed_iff {P : ℤ → Prop} (h : ∀ x : ℤ, (x = 0 ∨ x.sign = s) ↔ P x) :
    dur.Signed s ↔ P dur.years ∧ P dur.months ∧ P dur.weeks ∧ P dur.days := by
  unfold Signed
  simp only [List.forall_mem_cons, h, List.not_mem_nil, false_imp_iff, implies_true, and_true]

theorem signed_iff_hasSign (hs : s = 1 ∨ s = -1) : dur.Signed s ↔ dur.HasSign s := by
  rw [signed_iff (P := (0 ≤ s * ·)) (by grind)]
  exact ⟨fun ⟨hy, hm, hw, hd⟩ => ⟨hy, hm, hw, hd⟩, fun ⟨hy, hm, hw, hd⟩ => ⟨hy, hm, hw, hd⟩⟩

/-- The months and the days of a duration of one sign have this sign. -/
theorem HasSign.total (hs : s = 1 ∨ s = -1) {dur : DateDurationRecord} (h : dur.HasSign s) :
    0 ≤ s * dur.totalMonths ∧ 0 ≤ s * dur.totalDays := by
  obtain ⟨hy, hm, hw, hd⟩ := h
  unfold totalMonths totalDays
  rcases hs with rfl | rfl <;> omega

end DateDurationRecord

/-- What a duration has to satisfy. -/
structure IsDifference (d₁ d₂ : Date) (largestUnit : Unit) (s : ℤ) (dur : DateDurationRecord) :
    Prop where
  add : ∀ c : YmdCache, c.Valid →
    ∃ c' : YmdCache, addISODate c (ofDate d₁) dur .constrain = some (ofDate d₂, c')
  signed : dur.HasSign s
  most : ∀ dur' : DateDurationRecord, dur'.HasSign s → dur'.UpTo largestUnit →
    d₂.dayNumber = (d₁.addMonths dur'.totalMonths).dayNumber + dur'.totalDays →
      dur'.amount largestUnit ≤ dur.amount largestUnit

/-- What leads to a date does not go beyond it with part of its months. -/
theorem not_beyond_of_leads (hs : s = 1 ∨ s = -1) (hsign : dur.HasSign s)
    (hlead : d₂.dayNumber = (d₁.addMonths dur.totalMonths).dayNumber + dur.totalDays) {k : ℤ}
    (hk : s * k ≤ s * dur.totalMonths) :
    s * ((d₁.addMonths k).dayNumber - d₂.dayNumber) ≤ 0 := by
  have hle := addMonths_further_le (d := d₁) hs hk
  have hdays := (hsign.total hs).2
  rcases hs with rfl | rfl <;> omega

/-- **A split into years, months and days is the difference.** -/
theorem Split.isDifference (hs : s = 1 ∨ s = -1) (h₁ : WithinLimits d₁) (h₂ : WithinLimits d₂)
    (hunit : largestUnit = .year ∨ largestUnit = .month)
    (h : Split s d₁ d₂ years months days) :
    IsDifference d₁ d₂ largestUnit s (fromYears largestUnit years months days) := by
  obtain ⟨hle, hmid⟩ := h.bounds hs h₁ h₂
  obtain ⟨hmonths, hdays⟩ := fromYears_total largestUnit years months days
  refine ⟨fun c hc => ?_, h.hasSign, fun dur' hsign hnone hlead => ?_⟩
  · have hy := h.yearsSign
    have hm := h.monthsSign
    have hi₁ := withinLimits_iff.mp h₁
    have hi₂ := withinLimits_iff.mp h₂
    obtain ⟨c', hadd, -⟩ := addISODate_reaches
      hc h₁ (by grind [fromYears]) (by grind [fromYears]) (hmonths ▸ hmid.near) h₂.near
      (by rw [hmonths, hdays, h.reach])
    exact ⟨c', hadd⟩
  · by_contra hmore
    have hy' := hsign.years
    have hm' := hsign.months
    have hbeyond {k : ℤ} := not_beyond_of_leads (k := k) hs hsign hlead
    rcases hunit with rfl | rfl
    · refine absurd h.nextYear (not_lt.2 (hbeyond ?_))
      replace hmore : ¬dur'.years.natAbs ≤ years.natAbs := hmore
      unfold totalMonths
      rcases hs with rfl | rfl <;> omega
    · refine absurd h.nextMonth (not_lt.2 (hbeyond ?_))
      replace hmore : ¬dur'.months.natAbs ≤ (months + years * 12).natAbs := hmore
      have hzero : dur'.years = 0 := hnone
      unfold totalMonths
      rcases hs with rfl | rfl <;> omega

theorem fromDays_total (largestUnit : Unit) (days : ℤ) :
    (fromDays largestUnit days).totalMonths = 0 ∧ (fromDays largestUnit days).totalDays = days ∧
      (fromDays largestUnit days).years = 0 ∧ (fromDays largestUnit days).months = 0 := by
  have hdiv := tdiv_tmod_spec days (show 0 < 7 by decide)
  unfold fromDays totalMonths totalDays
  split <;> dsimp only <;> omega

/-- **A number of weeks and days is the difference.** -/
theorem isDifference_fromDays (hs : s = 1 ∨ s = -1) (h₁ : WithinLimits d₁) (h₂ : WithinLimits d₂)
    (hunit : largestUnit = .week ∨ largestUnit = .day)
    (hreach : d₁.dayNumber + days = d₂.dayNumber) (hsign : 0 ≤ s * days) :
    IsDifference d₁ d₂ largestUnit s (fromDays largestUnit days) := by
  have hdiv := tdiv_tmod_spec days (show 0 < 7 by decide)
  obtain ⟨hmonths, hdays, hy, hm⟩ := fromDays_total largestUnit days
  refine ⟨fun c hc => ?_, fromDays_hasSign hs hsign, fun dur' hsign' hnone hlead => ?_⟩
  · obtain ⟨c', hadd, -⟩ := addISODate_reaches hc h₁ (by rw [hy]; decide) (by rw [hm]; decide)
      (by rw [hmonths, d₁.addMonths_zero]; exact h₁.near) h₂.near
      (by rw [hmonths, d₁.addMonths_zero, hdays, hreach])
    exact ⟨c', hadd⟩
  have hzero : dur'.totalMonths = 0 := by
    unfold totalMonths
    rcases hunit with rfl | rfl <;> unfold UpTo at hnone <;> omega
  rw [hzero, d₁.addMonths_zero, totalDays] at hlead
  have hw' := hsign'.weeks
  have hd' := hsign'.days
  rcases hunit with rfl | rfl
  · show dur'.weeks.natAbs ≤ (days.tdiv 7).natAbs
    rcases hs with rfl | rfl <;> omega
  · show dur'.days.natAbs ≤ days.natAbs
    rcases hs with rfl | rfl <;> omega

/-- Equal dates. -/
theorem split_self (d : Date) : Split 1 d d 0 0 0 := by
  have hyear := Date.dayNumber_addMonths_lt (d := d) (show (0 : ℤ) < 12 * (0 + 1) by decide)
  have hmonth := Date.dayNumber_addMonths_lt (d := d) (show (0 : ℤ) < 12 * 0 + 0 + 1 by decide)
  rw [d.addMonths_zero] at hyear hmonth
  refine ⟨?_, by decide, by decide, by decide, by omega, by omega⟩
  rw [show 12 * (0 : ℤ) + 0 = 0 from rfl, d.addMonths_zero, add_zero]

/-- A computation gives the difference. -/
def Computes (outcome : Option (DateDurationRecord × YmdCache)) (d₁ d₂ : Date)
    (largestUnit : Unit) (s : ℤ) : Prop :=
  ∃ (dur : DateDurationRecord) (c' : YmdCache), outcome = some (dur, c') ∧ c'.Valid ∧
    IsDifference d₁ d₂ largestUnit s dur

/-- **The difference that is computed**, for the sign of the second date relative to the
first. -/
theorem differenceISODate_isDifference (hc : c.Valid) (h₁ : WithinLimits d₁) (h₂ : WithinLimits d₂)
    (hunit : largestUnit ∈ [Unit.year, .month, .week, .day]) (hs : s = 1 ∨ s = -1)
    (hsign : 0 < s * (d₂.dayNumber - d₁.dayNumber) ∨ (s = 1 ∧ d₁ = d₂)) :
    Computes (differenceISODate c (ofDate d₁) (ofDate d₂) largestUnit) d₁ d₂ largestUnit s := by
  have hyears (hu : largestUnit = .year ∨ largestUnit = .month) :
      Computes (differenceYears c (ofDate d₁) (ofDate d₂) largestUnit) d₁ d₂ largestUnit s := by
    rcases hsign with hlt | ⟨rfl, rfl⟩
    · obtain ⟨y, m, n, c', hdiff, hsplit, hc'⟩ := differenceYears_split hs hc h₁ h₂ hlt
      exact ⟨_, c', hdiff, hc', hsplit.isDifference hs h₁ h₂ hu⟩
    · refine ⟨fromYears largestUnit 0 0 0, c, ?_, hc, (split_self d₁).isDifference hs h₁ h₂ hu⟩
      have hzero : fromYears largestUnit 0 0 0 = ⟨0, 0, 0, 0⟩ := by
        rcases hu with rfl | rfl <;> rfl
      unfold differenceYears
      rw [neg_compareISODate, Int.sub_self, if_pos Int.sign_zero, hzero]
      rfl
  have hdays (hu : largestUnit = .week ∨ largestUnit = .day) :
      Computes (do some (← differenceDays (ofDate d₁) (ofDate d₂) largestUnit, c)) d₁ d₂
        largestUnit s := by
    have hnonneg : 0 ≤ s * (d₂.dayNumber - d₁.dayNumber) := by grind
    rw [differenceDays_eq h₁ h₂]
    exact ⟨_, c, rfl, hc, isDifference_fromDays hs h₁ h₂ hu (by omega) hnonneg⟩
  simp only [List.mem_cons, List.not_mem_nil, or_false] at hunit
  rcases hunit with rfl | rfl | rfl | rfl
  · exact hyears (.inl rfl)
  · exact hyears (.inr rfl)
  · exact hdays (.inl rfl)
  · exact hdays (.inr rfl)

theorem DateDurationRecord.signed_zero_iff : dur.Signed 0 ↔ dur = ⟨0, 0, 0, 0⟩ := by
  rw [signed_iff (P := (· = 0)) (by simp)]
  cases dur
  rw [mk.injEq]

/-- Nothing but nothing leads from a date to itself. -/
theorem eq_zero_of_leads (hsign : dur.HasSign 1)
    (hlead : d₁.dayNumber = (d₁.addMonths dur.totalMonths).dayNumber + dur.totalDays) :
    dur = ⟨0, 0, 0, 0⟩ := by
  obtain ⟨hmonths, hdays⟩ := hsign.total (.inl rfl)
  have hzero : dur.totalMonths = 0 := by
    by_contra hne
    have := Date.dayNumber_addMonths_lt (d := d₁) (show 0 < dur.totalMonths by omega)
    rw [d₁.addMonths_zero] at this
    omega
  rw [hzero, d₁.addMonths_zero] at hlead
  obtain ⟨years, months, weeks, days⟩ := dur
  obtain ⟨hy, hm, hw, hd⟩ := hsign
  unfold totalMonths at hzero
  unfold totalDays at hlead
  dsimp only at *
  rw [DateDurationRecord.mk.injEq]
  omega

/-- **Difference and addition are inverse.** -/
theorem differenceISODate_addISODate (hc : c.Valid) {date1 date2 : DateRecord}
    {time1 time2 : TimeRecord} (hvalid1 : isValidISODate date1 = true)
    (hvalid2 : isValidISODate date2 = true) (hlimit1 : isoDateTimeWithinLimits date1 time1 = true)
    (hlimit2 : isoDateTimeWithinLimits date2 time2 = true)
    (hunit : largestUnit ∈ [Unit.year, .month, .week, .day]) :
    ∃ (dur : DateDurationRecord) (c' : YmdCache),
      differenceISODate c date1 date2 largestUnit = some (dur, c') ∧ c'.Valid ∧
      (∃ c'' : YmdCache, addISODate c' date1 dur .constrain = some (date2, c'')) ∧
      dur.Signed (compareISODate date2 date1) ∧
      ∀ dur' : DateDurationRecord, dur'.Signed (compareISODate date2 date1) →
        dur'.UpTo largestUnit →
        ∀ c₁ c₂ : YmdCache, c₁.Valid → addISODate c₁ date1 dur' .constrain = some (date2, c₂) →
          dur'.amount largestUnit ≤ dur.amount largestUnit := by
  obtain ⟨d₁, rfl, h₁⟩ := exists_withinLimits hvalid1 hlimit1
  obtain ⟨d₂, rfl, h₂⟩ := exists_withinLimits hvalid2 hlimit2
  rw [compareISODate_ofDate]
  -- the dates differ, and the sign is that of the difference
  have hdiffer (s : ℤ) (hs : s = 1 ∨ s = -1) (hsign : 0 < s * (d₂.dayNumber - d₁.dayNumber)) :=
    differenceISODate_isDifference hc h₁ h₂ hunit hs (.inl hsign)
  have hmost {s : ℤ} (hs : s = 1 ∨ s = -1) {dur : DateDurationRecord}
      (hdur : IsDifference d₁ d₂ largestUnit s dur) (dur' : DateDurationRecord)
      (hsign : dur'.Signed s) (hnone : dur'.UpTo largestUnit) (c₁ c₂ : YmdCache) (hc₁ : c₁.Valid)
      (hadd : addISODate c₁ (ofDate d₁) dur' .constrain = some (ofDate d₂, c₂)) :
      dur'.amount largestUnit ≤ dur.amount largestUnit := by
    rw [signed_iff_hasSign hs] at hsign
    have htotal := hsign.total hs
    exact hdur.most dur' hsign hnone (dayNumber_of_addISODate hc₁ h₁.near h₂.near
      (by rcases hs with rfl | rfl <;> omega) hadd)
  rcases lt_trichotomy d₁.dayNumber d₂.dayNumber with hlt | heq | hgt
  · obtain ⟨dur, c', hdiff, hc', hdur⟩ := hdiffer 1 (.inl rfl) (by omega)
    rw [sign_eq_one_of_pos (by omega)]
    exact ⟨dur, c', hdiff, hc', hdur.add c' hc',
      (signed_iff_hasSign (.inl rfl)).2 hdur.signed, hmost (.inl rfl) hdur⟩
  · obtain rfl := Date.dayNumber_injective heq
    obtain ⟨dur, c', hdiff, hc', hdur⟩ := differenceISODate_isDifference hc h₁ h₂ hunit
      (.inl rfl) (.inr ⟨rfl, rfl⟩)
    have hzero : dur = ⟨0, 0, 0, 0⟩ := by
      obtain ⟨c'', hadd⟩ := hdur.add c' hc'
      have htotal := hdur.signed.total (.inl rfl)
      exact eq_zero_of_leads hdur.signed
        (dayNumber_of_addISODate hc' h₁.near h₁.near (by omega) hadd)
    rw [Int.sub_self, Int.sign_zero]
    refine ⟨dur, c', hdiff, hc', hdur.add c' hc', signed_zero_iff.2 hzero,
      fun dur' hsign _ _ _ _ _ => ?_⟩
    rw [signed_zero_iff.1 hsign, hzero]
  · obtain ⟨dur, c', hdiff, hc', hdur⟩ := hdiffer (-1) (.inr rfl) (by omega)
    rw [sign_eq_neg_one_of_neg (by omega)]
    exact ⟨dur, c', hdiff, hc', hdur.add c' hc',
      (signed_iff_hasSign (.inr rfl)).2 hdur.signed, hmost (.inr rfl) hdur⟩

/-- From the end of January to the first of March of the next year. -/
theorem differenceISODate_addISODate_january :
    (differenceISODate ⟨false, 0, 0, 0, 0⟩ ⟨2020, 1, 31⟩ ⟨2021, 3, 1⟩ .year).map Prod.fst =
      some ⟨1, 1, 0, 1⟩ ∧
    ∃ (dur : DateDurationRecord) (c' c'' : YmdCache),
      differenceISODate ⟨false, 0, 0, 0, 0⟩ ⟨2020, 1, 31⟩ ⟨2021, 3, 1⟩ .year = some (dur, c') ∧
      addISODate c' ⟨2020, 1, 31⟩ dur .constrain = some (⟨2021, 3, 1⟩, c'') := by
  refine ⟨by decide +kernel, ?_⟩
  obtain ⟨dur, c', hdiff, -, ⟨c'', hadd⟩, -⟩ := differenceISODate_addISODate
    (c := ⟨false, 0, 0, 0, 0⟩) (fun h => nomatch h)
    (show isValidISODate ⟨2020, 1, 31⟩ = true by decide)
    (show isValidISODate ⟨2021, 3, 1⟩ = true by decide)
    (show isoDateTimeWithinLimits _ ⟨12, 0, 0, 0, 0, 0⟩ = true by decide)
    (show isoDateTimeWithinLimits _ ⟨12, 0, 0, 0, 0, 0⟩ = true by decide)
    (show Unit.year ∈ [Unit.year, .month, .week, .day] by decide)
  exact ⟨dur, c', c'', hdiff, hadd⟩

end Temporal
