import V8Speak.TemporalDate

/-!
# Rounding times of day

`RoundTime` (`objects/js-temporal-objects.cc`) rounds a time of day to a multiple of an
increment, in some unit. It takes the fields from the unit downwards as one quotient,
rounds this, and puts the result in the place of the field of the unit; the fields above it
are carried on as they are. Here its doubles are rational numbers.

Two things come of this. For hours, minutes and seconds the nanoseconds are divided by
`10 ^ 8`, and so they count tenfold (`excess`). And a tie between two multiples is decided
by whether the quotient of the lower fields is even, which says nothing about the quotient
of the whole time if there is an odd number of increments above. Which times are rounded
right all the same is a matter of the remainder of the time of day (`RoundsRight`).
-/

open Int

namespace Temporal

/-! ## The program -/

structure DateTimeRecord where
  date : DateRecord
  time : TimeRecord

/-- `ApplyUnsignedRoundingMode` for doubles. -/
def applyUnsignedRoundingModeDouble (x : ℚ) (r1 r2 : ℤ) (mode : UnsignedRoundingMode) : ℤ :=
  if x = r1 then r1
  else if mode = .zero then r1
  else if mode = .infinity then r2
  else
    let d1 := x - r1
    let d2 := r2 - x
    if d1 < d2 then r1
    else if d2 < d1 then r2
    else if mode = .halfZero then r1
    else if mode = .halfInfinity then r2
    else if r1.tmod 2 = 0 then r1
    else r2

def roundNumberToIncrement (x : ℚ) (increment : ℕ) (mode : RoundingMode) : ℤ :=
  let quotient := x / increment
  let isNegative : Bool := quotient < 0
  let quotient := if isNegative then -quotient else quotient
  let unsignedRoundingMode := getUnsignedRoundingMode mode isNegative
  let r1 := ⌊quotient⌋
  let r2 := ⌊quotient + 1⌋
  let rounded := applyUnsignedRoundingModeDouble quotient r1 r2 unsignedRoundingMode
  (if isNegative then -rounded else rounded) * increment

/-- `BalanceTime`. The fields of an `UnbalancedTimeRecord` are doubles that are integers. -/
def balanceTime (time : TimeRecord) : DateTimeRecord :=
  let microsecond := time.microsecond + time.nanosecond / 1000
  let millisecond := time.millisecond + microsecond / 1000
  let second := time.second + millisecond / 1000
  let minute := time.minute + second / 60
  let hour := time.hour + minute / 60
  ⟨⟨0, 0, hour / 24⟩, ⟨hour % 24, minute % 60, second % 60, millisecond % 1000,
    microsecond % 1000, time.nanosecond % 1000⟩⟩

/-- What `RoundTime` rounds. -/
def quantity (time : TimeRecord) (unit : Unit) (dayLengthNs : ℚ) : ℚ :=
  let fractionalSecond : ℚ := time.nanosecond / 100000000 + time.microsecond / 1000000 +
    time.millisecond / 1000 + time.second
  match unit with
  | .day => (((((time.hour * 60 + time.minute) * 60 + time.second) * 1000 + time.millisecond) *
      1000 + time.microsecond) * 1000 + time.nanosecond) / dayLengthNs
  | .hour => (fractionalSecond / 60 + time.minute) / 60 + time.hour
  | .minute => fractionalSecond / 60 + time.minute
  | .second => fractionalSecond
  | .millisecond => time.nanosecond / 1000000 + time.microsecond / 1000 + time.millisecond
  | .microsecond => time.nanosecond / 1000 + time.microsecond
  | _ => time.nanosecond

def roundTime (time : TimeRecord) (increment : ℕ) (unit : Unit) (mode : RoundingMode)
    (dayLengthNs : ℚ) : DateTimeRecord :=
  let result := roundNumberToIncrement (quantity time unit dayLengthNs) increment mode
  match unit with
  | .day => ⟨⟨0, 0, result⟩, ⟨0, 0, 0, 0, 0, 0⟩⟩
  | .hour => balanceTime ⟨result, 0, 0, 0, 0, 0⟩
  | .minute => balanceTime ⟨time.hour, result, 0, 0, 0, 0⟩
  | .second => balanceTime ⟨time.hour, time.minute, result, 0, 0, 0⟩
  | .millisecond => balanceTime ⟨time.hour, time.minute, time.second, result, 0, 0⟩
  | .microsecond =>
    balanceTime ⟨time.hour, time.minute, time.second, time.millisecond, result, 0⟩
  | _ => balanceTime { time with nanosecond := result }

/-! ## Times of day -/

namespace TimeRecord

structure Valid (time : TimeRecord) : Prop where
  hour : 0 ≤ time.hour ∧ time.hour < 24
  minute : 0 ≤ time.minute ∧ time.minute < 60
  second : 0 ≤ time.second ∧ time.second < 60
  millisecond : 0 ≤ time.millisecond ∧ time.millisecond < 1000
  microsecond : 0 ≤ time.microsecond ∧ time.microsecond < 1000
  nanosecond : 0 ≤ time.nanosecond ∧ time.nanosecond < 1000

/-- The time of day in nanoseconds. -/
def nanoseconds (time : TimeRecord) : ℤ :=
  ((((time.hour * 60 + time.minute) * 60 + time.second) * 1000 + time.millisecond) * 1000 +
    time.microsecond) * 1000 + time.nanosecond

/-- The fields above a unit, in the next larger unit. -/
def above (time : TimeRecord) : Unit → ℤ
  | .minute => time.hour
  | .second => time.hour * 60 + time.minute
  | .millisecond => (time.hour * 60 + time.minute) * 60 + time.second
  | .microsecond =>
    ((time.hour * 60 + time.minute) * 60 + time.second) * 1000 + time.millisecond
  | .nanosecond => (((time.hour * 60 + time.minute) * 60 + time.second) * 1000 +
      time.millisecond) * 1000 + time.microsecond
  | _ => 0

/-- What is counted too much. -/
def excess (time : TimeRecord) : Unit → ℤ
  | .hour | .minute | .second => 9 * time.nanosecond
  | _ => 0

end TimeRecord

/-- How many there are in the next larger unit. -/
def Unit.perLarger : Unit → ℕ
  | .hour => 24
  | .minute | .second => 60
  | _ => 1000

/-- The nanoseconds of a number of days and a time of day. -/
def DateTimeRecord.nanoseconds (r : DateTimeRecord) : ℤ :=
  r.date.day * 86400000000000 + r.time.nanoseconds

variable {time : TimeRecord} {unit : Unit} {mode : RoundingMode} {increment nanoseconds : ℕ}

/-- Carrying keeps the time. -/
theorem balanceTime_spec (time : TimeRecord) :
    (balanceTime time).nanoseconds = time.nanoseconds ∧ (balanceTime time).time.Valid := by
  refine ⟨?_, ?_⟩
  · dsimp only [balanceTime, DateTimeRecord.nanoseconds, TimeRecord.nanoseconds]
    omega
  · constructor <;> dsimp only [balanceTime] <;> omega

/-- The result has the fields above the unit, and the rounded quotient. -/
theorem roundTime_spec (hunit : unit.nanoseconds = some nanoseconds) (time : TimeRecord)
    (increment : ℕ) (mode : RoundingMode) (dayLengthNs : ℚ) :
    (roundTime time increment unit mode dayLengthNs).nanoseconds =
        (time.above unit * unit.perLarger +
          roundNumberToIncrement (quantity time unit dayLengthNs) increment mode) * nanoseconds ∧
      (roundTime time increment unit mode dayLengthNs).time.Valid := by
  cases unit <;> cases hunit <;>
    refine ⟨(balanceTime_spec _).1.trans ?_, (balanceTime_spec _).2⟩ <;>
    dsimp only [TimeRecord.nanoseconds, TimeRecord.above, Unit.perLarger] <;> omega

/-- The quotient of the lower fields, and what is counted too much. -/
theorem quantity_eq (hunit : unit.nanoseconds = some nanoseconds) (time : TimeRecord)
    (dayLengthNs : ℚ) :
    quantity time unit dayLengthNs = ((time.nanoseconds + time.excess unit -
      time.above unit * unit.perLarger * nanoseconds : ℤ) : ℚ) / nanoseconds := by
  cases unit <;> cases hunit <;>
    simp only [quantity, TimeRecord.nanoseconds, TimeRecord.above, TimeRecord.excess,
      Unit.perLarger] <;> push_cast <;> ring

/-! ## The selected multiple -/

/-- Doubles are compared like big integers. -/
theorem applyDouble_eq {g : ℤ} (hg : 0 < g) (x q r : ℤ) (mode : UnsignedRoundingMode) :
    applyUnsignedRoundingModeDouble (x / g) q r mode = applyUnsignedRoundingMode x g q r mode := by
  have hg' : (0 : ℚ) < g := by exact_mod_cast hg
  have heq : (x / g : ℚ) = q ↔ x = g * q := by
    rw [div_eq_iff hg'.ne', mul_comm]
    exact_mod_cast Iff.rfl
  have hlt : (x / g : ℚ) - q < r - x / g ↔ x - g * q < g * r - x := by
    rw [← mul_lt_mul_iff_right₀ hg', mul_sub, mul_sub, mul_div_cancel₀ _ hg'.ne']
    exact_mod_cast Iff.rfl
  have hgt : r - (x / g : ℚ) < x / g - q ↔ g * r - x < x - g * q := by
    rw [← mul_lt_mul_iff_right₀ hg', mul_sub, mul_sub, mul_div_cancel₀ _ hg'.ne']
    exact_mod_cast Iff.rfl
  simp only [applyUnsignedRoundingModeDouble, applyUnsignedRoundingMode, heq, hlt, hgt]

theorem roundNumberToIncrement_eq {x : ℤ} (hx : 0 ≤ x) (hincrement : 0 < increment)
    (hpos : 0 < nanoseconds) (mode : RoundingMode) :
    roundNumberToIncrement (x / nanoseconds) increment mode =
      applyUnsignedRoundingMode x (increment * nanoseconds) (x / (increment * nanoseconds))
        (x / (increment * nanoseconds) + 1) (getUnsignedRoundingMode mode false) * increment := by
  have hg : (0 : ℤ) < increment * nanoseconds := by positivity
  have hquot : (x / nanoseconds / increment : ℚ) = x / (increment * nanoseconds : ℤ) := by
    rw [div_div, mul_comm]
    push_cast
    rfl
  have hfloor : ⌊(x / (increment * nanoseconds : ℤ) : ℚ)⌋ = x / (increment * nanoseconds) := by
    exact_mod_cast Rat.floor_intCast_div_natCast x (increment * nanoseconds)
  have hnonneg : ¬(x / (increment * nanoseconds : ℤ) : ℚ) < 0 := by
    rw [not_lt]
    positivity
  simp only [roundNumberToIncrement, hquot, hnonneg, decide_false, Bool.false_eq_true, if_false,
    floor_add_one, hfloor, applyDouble_eq hg]

open Multiples

theorem between_ediv {g : ℤ} (hg : 0 < g) (x : ℤ) : Between g x (x / g) := by
  refine ⟨hg, mul_ediv_self_le hg.ne', ?_⟩
  rw [mul_add, mul_one]
  exact lt_mul_ediv_self_add hg

/-- **When the selected multiple is returned**, for a time with the quotient `q` and the
remainder `r` by a multiple `g`, of which `e` is counted too much and `n` multiples are in
the fields above the unit. The excess must not take the remainder to the next multiple, or
beyond the middle. Where two multiples are equally near, the even one is returned if `n`
is even, or if it is the upper one and there is an excess. -/
def RoundingMode.RoundsRight (mode : RoundingMode) (g q r e n : ℤ) : Prop :=
  match mode with
  | .floor | .trunc => r + e < g
  | .ceil | .expand => r + e ≤ g ∧ (r = 0 → e = 0)
  | .halfFloor | .halfTrunc => g < 2 * r ∨ 2 * (r + e) ≤ g
  | .halfCeil | .halfExpand => g ≤ 2 * r ∨ 2 * (r + e) < g
  | .halfEven => g < 2 * r ∨ 2 * (r + e) < g ∨ (2 * r = g ∧ if e = 0 then Even n else Odd q) ∨
      (2 * r < g ∧ 2 * (r + e) = g ∧ Even (q - n))

/-- The rounded quotient, by the remainder. -/
theorem apply_mul_add (g q d : ℤ) (mode : UnsignedRoundingMode) :
    applyUnsignedRoundingMode (g * q + d) g q (q + 1) mode =
      if d = 0 ∨ mode = .zero ∨ (mode ≠ .infinity ∧ (2 * d < g ∨ (2 * d = g ∧
        (mode = .halfZero ∨ mode = .halfEven ∧ 2 ∣ q)))) then q else q + 1 := by
  have hupper : g * (q + 1) - (g * q + d) = g - d := by ring
  simp only [applyUnsignedRoundingMode, add_eq_left, hupper, add_sub_cancel_left,
    ← dvd_iff_tmod_eq_zero]
  cases mode <;> simp <;> split_ifs <;> omega

theorem ediv_mul_add {g q d : ℤ} (h : 0 ≤ d) (hd : d < g) : (g * q + d) / g = q := by
  rw [add_comm, add_mul_ediv_left _ _ (h.trans_lt hd).ne', ediv_eq_zero_of_lt h hd, zero_add]

/-- **The quotients agree** on the condition. -/
theorem apply_eq_iff {g q r e n : ℤ} (hr : 0 ≤ r) (hrg : r < g) (he : 0 ≤ e)
    (hsmall : e = 0 ∨ 2 * e < g) (mode : RoundingMode) :
    let x := g * (q - n) + (r + e)
    let unsigned := getUnsignedRoundingMode mode false
    n + applyUnsignedRoundingMode x g (x / g) (x / g + 1) unsigned =
        applyUnsignedRoundingMode (g * q + r) g q (q + 1) unsigned ↔
      mode.RoundsRight g q r e n := by
  intro x unsigned
  rw [apply_mul_add g q r]
  -- the excess may take the remainder to the next multiple
  obtain ⟨q', d, hx, hd, hdg, hcarry⟩ : ∃ q' d, x = g * q' + d ∧ 0 ≤ d ∧ d < g ∧
      (q' = q - n ∧ d = r + e ∨ q' = q - n + 1 ∧ d = r + e - g) := by
    rcases lt_or_ge (r + e) g with h | h
    · exact ⟨q - n, r + e, rfl, by omega, h, .inl ⟨rfl, rfl⟩⟩
    · exact ⟨q - n + 1, r + e - g, by simp only [x]; ring, by omega, by omega, .inr ⟨rfl, rfl⟩⟩
  rw [hx, ediv_mul_add hd hdg, apply_mul_add]
  clear hx
  cases mode with
  | floor | trunc =>
    simp only [unsigned, getUnsignedRoundingMode, RoundingMode.RoundsRight, true_or, or_true,
      if_true]
    omega
  | ceil | expand | halfCeil | halfExpand | halfFloor | halfTrunc | halfEven =>
    simp [unsigned, getUnsignedRoundingMode, RoundingMode.RoundsRight, even_iff, odd_iff]
    split_ifs <;> omega

variable (htime : time.Valid) (hunit : unit.nanoseconds = some nanoseconds)
  (hdvd : increment ∣ unit.perLarger) (dayLengthNs : ℚ)
include htime hunit hdvd

/-- The result: the multiples above the unit, and the rounded quotient of the rest. -/
theorem roundTime_nanoseconds (mode : RoundingMode) {g n x : ℤ}
    (hg : g = increment * nanoseconds)
    (hn : n = time.above unit * (unit.perLarger / increment : ℕ))
    (hx : time.nanoseconds + time.excess unit = g * n + x) :
    (roundTime time increment unit mode dayLengthNs).nanoseconds =
      (n + applyUnsignedRoundingMode x g (x / g) (x / g + 1)
        (getUnsignedRoundingMode mode false)) * g := by
  have hlarger : 0 < unit.perLarger := by cases unit <;> decide
  have hincrement := Nat.pos_of_dvd_of_pos hdvd hlarger
  have hpos : 0 < nanoseconds := by cases unit <;> cases hunit <;> decide
  obtain ⟨k, hk⟩ := hdvd
  rw [hk, Nat.mul_div_cancel_left k hincrement] at hn
  have habove : time.above unit * unit.perLarger * nanoseconds = g * n := by
    rw [hk, hg, hn]
    push_cast
    ring
  have hnonneg : 0 ≤ x := by
    rw [← habove] at hx
    obtain ⟨hhour, hminute, hsecond, hmillisecond, hmicrosecond, hnanosecond⟩ := htime
    cases unit <;> cases hunit <;>
      dsimp only [TimeRecord.nanoseconds, TimeRecord.above, TimeRecord.excess,
        Unit.perLarger] at hx <;> omega
  rw [(roundTime_spec hunit time increment mode dayLengthNs).1, quantity_eq hunit, habove, hx,
    add_sub_cancel_left, roundNumberToIncrement_eq hnonneg hincrement hpos, ← hg, add_mul, habove,
    hg]
  ring

/-- **Which times of day are rounded to the selected multiple**, by the remainder of the
time. -/
theorem roundTime_selects_iff :
    (roundTime time increment unit mode dayLengthNs).time.Valid ∧
      (mode.Selects (increment * nanoseconds) time.nanoseconds
          (roundTime time increment unit mode dayLengthNs).nanoseconds ↔
        mode.RoundsRight (increment * nanoseconds)
          (time.nanoseconds / (increment * nanoseconds))
          (time.nanoseconds % (increment * nanoseconds)) (time.excess unit)
          (time.above unit * (unit.perLarger / increment : ℕ))) := by
  refine ⟨(roundTime_spec hunit ..).2, ?_⟩
  have hincrement := Nat.pos_of_dvd_of_pos hdvd (by cases unit <;> decide)
  have hexcess : 0 ≤ time.excess unit ∧
      (time.excess unit = 0 ∨ 2 * time.excess unit < (increment * nanoseconds : ℤ)) := by
    have hnanosecond := htime.nanosecond
    cases unit <;> cases hunit <;> dsimp only [TimeRecord.excess] <;> omega
  obtain ⟨g, hg⟩ : ∃ g : ℤ, g = increment * nanoseconds := ⟨_, rfl⟩
  have hpos : 0 < g := by
    have : 0 < nanoseconds := by cases unit <;> cases hunit <;> decide
    rw [hg]
    positivity
  rw [← hg] at hexcess ⊢
  generalize hn : time.above unit * ((unit.perLarger / increment : ℕ) : ℤ) = n
  have hquot := mul_ediv_add_emod time.nanoseconds g
  have hresult := roundTime_nanoseconds htime hunit hdvd dayLengthNs mode hg hn.symm
    (x := g * (time.nanoseconds / g - n) + (time.nanoseconds % g + time.excess unit))
    (by linear_combination -hquot)
  have hiff := apply_eq_iff (q := time.nanoseconds / g) (n := n)
    (emod_nonneg time.nanoseconds hpos.ne') (emod_lt_of_pos _ hpos) hexcess.1 hexcess.2 mode
  dsimp only at hiff
  rw [hquot] at hiff
  rw [selects_iff (between_ediv hpos _), hresult, mul_left_inj' hpos.ne', hiff]

omit htime hunit hdvd

/-- One and a half seconds, to the even second. -/
theorem roundTime_selects_iff_second :
    TimeRecord.nanoseconds ⟨0, 0, 1, 500, 0, 0⟩ = 1500000000 ∧
      RoundingMode.Selects .halfEven ((1 : ℕ) * (1000000000 : ℕ))
        (TimeRecord.nanoseconds ⟨0, 0, 1, 500, 0, 0⟩)
        (roundTime ⟨0, 0, 1, 500, 0, 0⟩ 1 .second .halfEven 0).nanoseconds := by
  refine ⟨rfl, (roundTime_selects_iff ?_ rfl (one_dvd _) 0).2.mpr ?_⟩
  · constructor <;> decide
  · exact .inr (.inr (.inl ⟨by decide, by decide⟩))

/-- The nanoseconds take the time over a second. And two minutes past one are rounded to
60 minutes and not to 64, the even multiple of four. -/
theorem roundTime_tenfold :
    ((roundTime ⟨0, 0, 0, 999, 991, 999⟩ 1 .second .trunc 0).nanoseconds = 1000000000 ∧
      ¬RoundingMode.Selects .trunc 1000000000
        (TimeRecord.nanoseconds ⟨0, 0, 0, 999, 991, 999⟩) 1000000000) ∧
    (roundTime ⟨1, 2, 0, 0, 0, 0⟩ 4 .minute .halfEven 0).nanoseconds = 3600000000000 ∧
      ¬RoundingMode.Selects .halfEven 240000000000
        (TimeRecord.nanoseconds ⟨1, 2, 0, 0, 0, 0⟩) 3600000000000 := by
  refine ⟨⟨by decide +kernel, ?_⟩, by decide +kernel, ?_⟩
  · rw [selects_iff (between_ediv (by decide) _)]
    decide
  · rw [selects_iff (between_ediv (by decide) _)]
    decide

end Temporal
