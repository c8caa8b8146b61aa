import V8Speak.Multiples
import V8Speak.Binary64

/-!
# Rounding instants

`RoundTemporalInstant` (`objects/js-temporal-objects.cc`) rounds a number of nanoseconds to
a multiple of an increment, which is given in some unit. It computes the quotient by a
division of big integers, which truncates, and corrects it if the quotient is negative and
there is a remainder.

The quotient of a negative number that is smaller than the increment is zero, which is not
negative, and is not corrected. The number is then taken to be between zero and the
increment, which it is below (`r1_of_neg`). What comes out is right for the modes that
select the nearest multiple if this is zero, and else wrong.

The increment in nanoseconds is a product of doubles. If it is not exact, then the result
is not a multiple of the increment that was asked for.
-/

open Binary64

namespace Temporal

inductive Unit
  | notPresent
  | auto
  | year
  | month
  | week
  | day
  | hour
  | minute
  | second
  | millisecond
  | microsecond
  | nanosecond
  deriving DecidableEq, Repr

inductive RoundingMode
  | ceil
  | floor
  | expand
  | trunc
  | halfCeil
  | halfFloor
  | halfExpand
  | halfTrunc
  | halfEven
  deriving DecidableEq, Repr

inductive UnsignedRoundingMode
  | infinity
  | zero
  | halfInfinity
  | halfZero
  | halfEven
  deriving DecidableEq, Repr

/-! ## The program -/

def getUnsignedRoundingMode : RoundingMode → Bool → UnsignedRoundingMode
  | .ceil, true => .zero
  | .floor, true => .infinity
  | .expand, true => .infinity
  | .trunc, true => .zero
  | .halfCeil, true => .halfZero
  | .halfFloor, true => .halfInfinity
  | .halfExpand, true => .halfInfinity
  | .halfTrunc, true => .halfZero
  | .halfEven, true => .halfEven
  | .ceil, false => .infinity
  | .floor, false => .zero
  | .expand, false => .infinity
  | .trunc, false => .zero
  | .halfCeil, false => .halfInfinity
  | .halfFloor, false => .halfZero
  | .halfExpand, false => .halfInfinity
  | .halfTrunc, false => .halfZero
  | .halfEven, false => .halfEven

/-- `ApplyUnsignedRoundingMode` for big integers. -/
def applyUnsignedRoundingMode (num increment r1 r2 : ℤ) (mode : UnsignedRoundingMode) : ℤ :=
  let rr1 := increment * r1
  let rr2 := increment * r2
  if num = rr1 then r1
  else if mode = .zero then r1
  else if mode = .infinity then r2
  else
    let dd1 := num - rr1
    let dd2 := rr2 - num
    if dd1 < dd2 then r1
    else if dd2 < dd1 then r2
    else if mode = .halfZero then r1
    else if mode = .halfInfinity then r2
    else if r1.tmod 2 = 0 then r1
    else r2

/-- The lower quotient: a division that truncates, and the adjustment for a negative
quotient. -/
def r1 (x increment : ℤ) : ℤ :=
  let r1 := x.tdiv increment
  if r1 < 0 ∧ x.tmod increment ≠ 0 then r1 - 1 else r1

/-- The increment is a double; there is no big integer for infinity. -/
def roundNumberToIncrementAsIfPositive (x : ℤ) (increment : Option ℕ) (mode : RoundingMode) :
    Option ℤ := do
  let unsignedRoundingMode := getUnsignedRoundingMode mode false
  let incrementBigint ← increment
  let r1 := r1 x incrementBigint
  let r2 := r1 + 1
  let rounded := applyUnsignedRoundingMode x incrementBigint r1 r2 unsignedRoundingMode
  some (rounded * incrementBigint)

/-- The number of nanoseconds with which an increment is multiplied. The other units are
unreachable. -/
def Unit.nanoseconds : Unit → Option ℕ
  | .hour => some 3600000000000
  | .minute => some 60000000000
  | .second => some 1000000000
  | .millisecond => some 1000000
  | .microsecond => some 1000
  | .nanosecond => some 1
  | _ => none

def roundTemporalInstant (ns : ℤ) (increment : ℕ) (unit : Unit) (mode : RoundingMode) :
    Option ℤ := do
  let nanoseconds ← unit.nanoseconds
  let incrementNs := ofNat (increment * nanoseconds)
  roundNumberToIncrementAsIfPositive ns incrementNs mode

/-! ## The selected multiple -/

/-- **Which multiple a mode selects.** An instant is rounded as if it were positive, so
that there is no difference between `floor` and `trunc`, or `ceil` and `expand`. -/
def RoundingMode.Selects : RoundingMode → (increment ns r : ℤ) → Prop
  | floor | trunc => Multiples.Floor
  | ceil | expand => Multiples.Ceil
  | halfCeil | halfExpand => Multiples.NearestUp
  | halfFloor | halfTrunc => Multiples.NearestDown
  | halfEven => Multiples.NearestEven

open Multiples

variable {increment x q r : ℤ}

section apply

variable {mode : UnsignedRoundingMode}

theorem apply_zero (h : mode = .zero) : applyUnsignedRoundingMode x increment q r mode = q := by
  rw [applyUnsignedRoundingMode, if_pos h, ite_self]

theorem apply_of_eq (hx : x = increment * q) :
    applyUnsignedRoundingMode x increment q r mode = q := by
  rw [applyUnsignedRoundingMode, if_pos hx]

theorem apply_infinity (hx : x ≠ increment * q) :
    applyUnsignedRoundingMode x increment q r .infinity = r := by
  rw [applyUnsignedRoundingMode, if_neg hx, if_neg (by decide), if_pos rfl]

/-- The modes that compare distances. -/
structure UnsignedRoundingMode.IsHalf (mode : UnsignedRoundingMode) : Prop where
  ne_zero : mode ≠ .zero
  ne_infinity : mode ≠ .infinity

theorem apply_half_of_lt (hm : mode.IsHalf) (hlt : x - increment * q < increment * r - x) :
    applyUnsignedRoundingMode x increment q r mode = q := by
  rw [applyUnsignedRoundingMode, if_neg hm.ne_zero, if_neg hm.ne_infinity, if_pos hlt, ite_self]

theorem apply_half_of_gt (hm : mode.IsHalf) (hx : x ≠ increment * q)
    (hgt : increment * r - x < x - increment * q) :
    applyUnsignedRoundingMode x increment q r mode = r := by
  rw [applyUnsignedRoundingMode, if_neg hx, if_neg hm.ne_zero, if_neg hm.ne_infinity,
    if_neg (not_lt.2 hgt.le), if_pos hgt]

theorem apply_half_of_eq (hm : mode.IsHalf) (hx : x ≠ increment * q)
    (heq : x - increment * q = increment * r - x) :
    applyUnsignedRoundingMode x increment q r mode =
      if mode = .halfZero then q else if mode = .halfInfinity then r
      else if q.tmod 2 = 0 then q else r := by
  rw [applyUnsignedRoundingMode, if_neg hx, if_neg hm.ne_zero, if_neg hm.ne_infinity,
    if_neg heq.not_lt, if_neg heq.symm.not_lt]

end apply

variable (h : Between increment x q)
include h

/-- **A nearest multiple is selected by a rule for ties**, which is the mode. -/
theorem nearest_cases (mode : UnsignedRoundingMode) (hm : mode.IsHalf) :
    (∃ q', applyUnsignedRoundingMode x increment q (q + 1) mode = q' ∧
        ∀ m, Nearest increment x m ↔ m = increment * q') ∨
      (2 * (x - increment * q) = increment ∧ applyUnsignedRoundingMode x increment q (q + 1) mode =
          if mode = .halfZero then q else if mode = .halfInfinity then q + 1
          else if q.tmod 2 = 0 then q else q + 1) := by
  have hnext := mul_add_one increment q
  have hpos := h.pos
  rcases lt_trichotomy (2 * (x - increment * q)) increment with hlt | heq | hgt
  · exact .inl ⟨q, apply_half_of_lt hm (by omega), fun m => h.nearest_iff_of_lt hlt⟩
  · exact .inr ⟨heq, apply_half_of_eq hm (by omega) (by omega)⟩
  · exact .inl ⟨q + 1, apply_half_of_gt hm (by omega) (by omega), fun m => h.nearest_iff_of_gt hgt⟩

theorem selects_nearestUp : NearestUp increment x r ↔
      r = applyUnsignedRoundingMode x increment q (q + 1) .halfInfinity * increment := by
  obtain ⟨q', hq', hn⟩ | ⟨htie, ha⟩ := nearest_cases h .halfInfinity ⟨by decide, by decide⟩
  · rw [hq', nearestUp_iff_of_unique hn, mul_comm]
  · rw [ha, h.nearestUp_iff_of_eq htie, mul_comm]
    rfl

theorem selects_nearestDown : NearestDown increment x r ↔
      r = applyUnsignedRoundingMode x increment q (q + 1) .halfZero * increment := by
  obtain ⟨q', hq', hn⟩ | ⟨htie, ha⟩ := nearest_cases h .halfZero ⟨by decide, by decide⟩
  · rw [hq', nearestDown_iff_of_unique hn, mul_comm]
  · rw [ha, h.nearestDown_iff_of_eq htie, mul_comm]
    rfl

theorem selects_nearestEven : NearestEven increment x r ↔
      r = applyUnsignedRoundingMode x increment q (q + 1) .halfEven * increment := by
  obtain ⟨q', hq', hn⟩ | ⟨htie, ha⟩ := nearest_cases h .halfEven ⟨by decide, by decide⟩
  · rw [hq', nearestEven_iff_of_unique hn, mul_comm]
  · have heven : (if q.tmod 2 = 0 then q else q + 1) = q + q % 2 := by
      have hdvd : 2 ∣ q ↔ q.tmod 2 = 0 := Int.dvd_iff_tmod_eq_zero
      split <;> omega
    rw [ha, if_neg (by decide), if_neg (by decide), heven, h.nearestEven_iff_of_eq htie, mul_comm]

/-- **The selection among the two quotients is right**, for the right quotients. -/
theorem selects_iff (mode : RoundingMode) : mode.Selects increment x r ↔
      r = applyUnsignedRoundingMode x increment q (q + 1) (getUnsignedRoundingMode mode false) *
        increment := by
  have hfloor : Floor increment x r ↔
      r = applyUnsignedRoundingMode x increment q (q + 1) .zero * increment := by
    rw [apply_zero rfl, h.floor_iff, mul_comm]
  have hceil : Ceil increment x r ↔
      r = applyUnsignedRoundingMode x increment q (q + 1) .infinity * increment := by
    by_cases hx : x = increment * q
    · rw [apply_of_eq hx, Between.ceil_iff_of_eq hx, mul_comm]
    · rw [apply_infinity hx, h.ceil_iff_of_ne hx, mul_comm]
  cases mode with
  | ceil | expand => exact hceil
  | floor | trunc => exact hfloor
  | halfCeil | halfExpand => exact selects_nearestUp h
  | halfFloor | halfTrunc => exact selects_nearestDown h
  | halfEven => exact selects_nearestEven h

omit h

/-! ## The quotients -/

/-- The quotient is right unless the number is negative and smaller than the increment. -/
theorem between_r1 (hpos : 0 < increment) (hx : 0 ≤ x ∨ x ≤ -increment) :
    Between increment x (r1 x increment) := by
  rw [r1]
  rcases hx with hx | hx
  · have hquot : 0 ≤ x / increment := Int.ediv_nonneg hx hpos.le
    rw [Int.tdiv_eq_ediv_of_nonneg hx, if_neg (fun hc => absurd hc.1 (not_lt.2 hquot))]
    refine ⟨hpos, Int.mul_ediv_self_le hpos.ne', ?_⟩
    rw [mul_add, mul_one]
    exact Int.lt_mul_ediv_self_add hpos
  · obtain ⟨y, rfl⟩ : ∃ y, x = -y := ⟨-x, by omega⟩
    have hy : 0 ≤ y := by omega
    have hquot : 0 < y / increment := Int.le_ediv_of_mul_le hpos (by omega)
    have hsplit := Int.mul_ediv_add_emod y increment
    have hlt := Int.emod_lt_of_pos y hpos
    have hnonneg := Int.emod_nonneg y hpos.ne'
    rw [Int.neg_tdiv, Int.neg_tmod, Int.tdiv_eq_ediv_of_nonneg hy, Int.tmod_eq_emod_of_nonneg hy]
    split
    · next hrem =>
      refine ⟨hpos, ?_, ?_⟩
      · rw [mul_sub, mul_one, mul_neg]
        omega
      · rw [sub_add_cancel, mul_neg]
        omega
    · next hrem =>
      have hzero : y % increment = 0 := by omega
      refine ⟨hpos, ?_, ?_⟩
      · rw [mul_neg]
        omega
      · rw [mul_add, mul_one, mul_neg]
        omega

/-- For a small negative number the quotient is zero. -/
theorem r1_of_neg (hneg : x < 0) (hx : -increment < x) : r1 x increment = 0 := by
  have hquot : x.tdiv increment = 0 := by
    obtain ⟨y, rfl⟩ : ∃ y, x = -y := ⟨-x, by omega⟩
    rw [Int.neg_tdiv, Int.tdiv_eq_zero_of_lt (by omega) (by omega), neg_zero]
  rw [r1, hquot]
  exact if_neg fun hc => absurd hc.1 (lt_irrefl 0)

/-! ## Which results are right -/

/-- The numbers below zero that are rounded to zero. -/
def RoundingMode.SelectsZero (mode : RoundingMode) (increment ns : ℤ) : Prop :=
  match mode with
  | ceil | floor | expand | trunc => False
  | halfCeil | halfExpand | halfEven => -increment ≤ 2 * ns
  | halfFloor | halfTrunc => -increment < 2 * ns

/-- A small negative number is rounded to zero or to the increment above. -/
theorem selects_of_neg (hneg : x < 0) (hx : -increment < x) (mode : RoundingMode) :
    mode.Selects increment x (applyUnsignedRoundingMode x increment 0 1
      (getUnsignedRoundingMode mode false) * increment) ↔ mode.SelectsZero increment x := by
  have hb : Between increment x (-1) := ⟨by omega, by omega, by omega⟩
  have hx₀ : x ≠ increment * 0 := by omega
  have hx₁ : x ≠ increment * -1 := by omega
  have hhalf {mode : UnsignedRoundingMode} (hm : mode.IsHalf) :
      applyUnsignedRoundingMode x increment 0 1 mode = 0 := apply_half_of_lt hm (by omega)
  rw [selects_iff hb, mul_left_inj' hb.pos.ne', neg_add_cancel]
  have hzero : applyUnsignedRoundingMode x increment 0 1 .zero =
      applyUnsignedRoundingMode x increment (-1) 0 .zero ↔ False := by
    rw [apply_zero rfl, apply_zero rfl]
    decide
  have hinfinity : applyUnsignedRoundingMode x increment 0 1 .infinity =
      applyUnsignedRoundingMode x increment (-1) 0 .infinity ↔ False := by
    rw [apply_infinity hx₀, apply_infinity hx₁]
    decide
  -- below the middle the program should go down, above it up to zero
  have hhalves {mode : UnsignedRoundingMode} (hm : mode.IsHalf) :
      applyUnsignedRoundingMode x increment 0 1 mode =
          applyUnsignedRoundingMode x increment (-1) 0 mode ↔
        -increment < 2 * x ∨ (-increment = 2 * x ∧ mode ≠ .halfZero) := by
    rw [hhalf hm]
    rcases lt_trichotomy (-increment) (2 * x) with hgt | htie | hlt
    · rw [apply_half_of_gt hm hx₁ (by omega)]
      exact iff_of_true rfl (.inl hgt)
    · rw [apply_half_of_eq hm hx₁ (by omega)]
      by_cases hz : mode = .halfZero
      · rw [if_pos hz]
        exact iff_of_false (by decide) fun hc =>
          hc.elim (fun hgt => hgt.ne htie) fun hc => hc.2 hz
      · rw [if_neg hz, if_neg (show ¬(-1 : ℤ).tmod 2 = 0 by decide), ite_self]
        exact iff_of_true rfl (.inr ⟨htie, hz⟩)
    · rw [apply_half_of_lt hm (by omega)]
      exact iff_of_false (by decide) (by omega)
  cases mode with
  | ceil | expand => exact hinfinity
  | floor | trunc => exact hzero
  | halfCeil | halfExpand =>
    refine (hhalves ⟨by decide, by decide⟩).trans ?_
    rw [and_iff_left (by decide), ← le_iff_lt_or_eq]
    rfl
  | halfFloor | halfTrunc =>
    refine (hhalves ⟨by decide, by decide⟩).trans (or_iff_left fun hc => hc.2 rfl)
  | halfEven =>
    refine (hhalves ⟨by decide, by decide⟩).trans ?_
    rw [and_iff_left (by decide), ← le_iff_lt_or_eq]
    rfl

theorem roundNumberToIncrementAsIfPositive_some (ns : ℤ) (increment : ℕ) (mode : RoundingMode) :
    roundNumberToIncrementAsIfPositive ns (some increment) mode =
      some (applyUnsignedRoundingMode ns increment (r1 ns increment) (r1 ns increment + 1)
        (getUnsignedRoundingMode mode false) * increment) := rfl

theorem roundTemporalInstant_eq {unit : Unit} {nanoseconds : ℕ}
    (hunit : unit.nanoseconds = some nanoseconds) (ns : ℤ) (increment : ℕ) (mode : RoundingMode) :
    roundTemporalInstant ns increment unit mode =
      roundNumberToIncrementAsIfPositive ns (ofNat (increment * nanoseconds)) mode := by
  rw [roundTemporalInstant, hunit]
  rfl

/-- The program for an increment that is a double. -/
theorem roundNumberToIncrementAsIfPositive_spec {increment : ℕ} (hpos : 0 < increment) (ns : ℤ)
    (mode : RoundingMode) :
    (∃ r, roundNumberToIncrementAsIfPositive ns (some increment) mode = some r ∧
        mode.Selects increment ns r) ↔
      0 ≤ ns ∨ ns ≤ -increment ∨ mode.SelectsZero increment ns := by
  have hpos' : 0 < (increment : ℤ) := by omega
  rw [roundNumberToIncrementAsIfPositive_some]
  simp only [Option.some.injEq, exists_eq_left']
  by_cases hns : 0 ≤ ns ∨ ns ≤ -increment
  · rw [← or_assoc]
    exact iff_of_true ((selects_iff (between_r1 hpos' hns) mode).2 rfl) (.inl hns)
  · rw [r1_of_neg (by omega) (by omega), zero_add, selects_of_neg (by omega) (by omega), ← or_assoc]
    exact (or_iff_right hns).symm

/-- **Which instants are rounded to the selected multiple.** -/
theorem roundTemporalInstant_selects {unit : Unit} {nanoseconds : ℕ}
    (hunit : unit.nanoseconds = some nanoseconds) {increment : ℕ} (hpos : 0 < increment) :
    (ofNat (increment * nanoseconds) = some (increment * nanoseconds) →
      ∀ ns mode, (∃ r, roundTemporalInstant ns increment unit mode = some r ∧
          mode.Selects (increment * nanoseconds) ns r) ↔
        0 ≤ ns ∨ ns ≤ -(increment * nanoseconds) ∨
          mode.SelectsZero (increment * nanoseconds) ns) ∧
    (ofNat (increment * nanoseconds) ≠ some (increment * nanoseconds) →
      ¬∃ r, roundTemporalInstant (increment * nanoseconds) increment unit .floor = some r ∧
        RoundingMode.Selects .floor (increment * nanoseconds) (increment * nanoseconds) r) := by
  have hpos' : 0 < increment * nanoseconds := by
    refine Nat.mul_pos hpos (Nat.pos_of_ne_zero fun h0 => ?_)
    rw [h0] at hunit
    cases unit <;> exact absurd hunit (by decide)
  rw [← Nat.cast_mul]
  refine ⟨fun hexact ns mode => ?_, ?_⟩
  · rw [roundTemporalInstant_eq hunit, hexact]
    exact roundNumberToIncrementAsIfPositive_spec hpos' ns mode
  · rintro hne ⟨r, hr, hsel⟩
    rw [roundTemporalInstant_eq hunit] at hr
    cases hm : ofNat (increment * nanoseconds) with
    | none =>
      rw [hm] at hr
      exact nomatch hr
    | some m =>
      have hdvd : (m : ℤ) ∣ r := by
        rw [hm] at hr
        exact Option.some.inj hr ▸ dvd_mul_left _ _
      have hb : Between (increment * nanoseconds : ℕ) (increment * nanoseconds : ℕ) 1 := by
        refine ⟨?_, ?_, ?_⟩ <;> omega
      rw [hb.floor_iff.1 hsel, mul_one, Int.natCast_dvd_natCast] at hdvd
      exact hne (hm.trans (congrArg some (eq_of_dvd_of_ofNat hpos' hm hdvd)))

/-- A nanosecond before the epoch, to the second. -/
theorem roundTemporalInstant_before_epoch :
    roundTemporalInstant (-1) 1 .second .floor = some 0 ∧
      ¬RoundingMode.Selects .floor 1000000000 (-1) 0 := by
  refine ⟨?_, fun h => ?_⟩
  · have hunit : Unit.second.nanoseconds = some 1000000000 := rfl
    rw [roundTemporalInstant_eq hunit, Nat.one_mul, ofNat_of_lt (by decide),
      roundNumberToIncrementAsIfPositive_some, getUnsignedRoundingMode, apply_zero rfl,
      r1_of_neg (by decide) (by decide), zero_mul]
  · have hle : (0 : ℤ) ≤ -1 := h.1.2
    exact absurd hle (by decide)

/-- A second and a half after the epoch. -/
theorem roundTemporalInstant_selects_second :
    ∃ r, roundTemporalInstant 1500000000 1 .second .halfEven = some r ∧
      RoundingMode.Selects .halfEven (1 * 1000000000) 1500000000 r :=
  ((roundTemporalInstant_selects rfl Nat.one_pos).1 (ofNat_of_lt (by decide))
    1500000000 .halfEven).2
    (.inl (by decide))

end Temporal
