import Mathlib

/-!
# Character ranges

A character class is a list of ranges of code points (`CharacterRange`,
`regexp/regexp-ast.h` and `regexp/regexp-compiler-tonode.cc`), read as the set
of the code points in them. The list is *canonical* if its ranges are sorted
and neither overlap nor touch, and a set of code points has exactly one
canonical list (`Canonical.ext`).

`canonicalize` makes any list canonical by inserting range after range into a
canonical front of the list, in place. The other operations take canonical
lists: `negate`, `intersect` and `subtract` go through them once, from left to
right, and give a canonical list again. What they compute is the complement,
the intersection and the difference – except that `negate` forgets the last
code point if it has to add just that (`codePoints_negate`): a range is added
at the end if it starts before `kMaxCodePoint`, where it may start at it.
-/

open List

def kMaxCodePoint : ℕ := 0x10FFFF

/-- `CharacterRange`: the code points from the first to the last. -/
structure CharacterRange where
  from_ : ℕ
  to_ : ℕ
  deriving DecidableEq, Repr, Inhabited

namespace CharacterRange

/-- What `Range` asks of its arguments. -/
def Valid (r : CharacterRange) : Prop := r.from_ ≤ r.to_ ∧ r.to_ ≤ kMaxCodePoint

instance (r : CharacterRange) : Decidable r.Valid := inferInstanceAs (Decidable (_ ∧ _))

/-! ## The source -/

variable (list : List CharacterRange)

/-- `list->at(i)`. -/
def rangeAt (i : ℕ) : CharacterRange := list[i]?.getD default

/-- `MoveRanges` to the right, from the last range to the first. -/
def moveRight (list : List CharacterRange) (source target : ℕ) : ℕ → List CharacterRange
  | 0 => list
  | i + 1 => moveRight (list.set (target + i) (rangeAt list (source + i))) source target i

/-- `MoveRanges` to the left, from the first range to the last. -/
def moveLeft (list : List CharacterRange) (source target : ℕ) : ℕ → List CharacterRange
  | 0 => list
  | i + 1 => moveLeft (list.set target (rangeAt list source)) (source + 1) (target + 1) i

def moveRanges (source target count : ℕ) : List CharacterRange :=
  if source < target then moveRight list source target count
  else moveLeft list source target count

/-- The loop of `InsertRangeInCanonicalList`: the positions of the ranges that
overlap or touch the one to insert. -/
def insertPositions (list : List CharacterRange) (insert : CharacterRange) : ℕ → ℕ → ℕ × ℕ
  | 0, endPos => (0, endPos)
  | i + 1, endPos =>
    let current := rangeAt list i
    if current.from_ > insert.to_ + 1 then insertPositions list insert i i
    else if current.to_ + 1 < insert.from_ then (i + 1, endPos)
    else insertPositions list insert i endPos

/-- `InsertRangeInCanonicalList`: the list, and the number of ranges at its
front that are canonical. -/
def insertRangeInCanonicalList (count : ℕ) (insert : CharacterRange) : List CharacterRange × ℕ :=
  let (startPos, endPos) := insertPositions list insert count count
  if startPos = endPos then
    let list := if startPos < count then moveRanges list startPos (startPos + 1) (count - startPos)
      else list
    (list.set startPos insert, count + 1)
  else if startPos + 1 = endPos then
    let toReplace := rangeAt list startPos
    (list.set startPos ⟨min toReplace.from_ insert.from_, max toReplace.to_ insert.to_⟩, count)
  else
    let newFrom := min (rangeAt list startPos).from_ insert.from_
    let newTo := max (rangeAt list (endPos - 1)).to_ insert.to_
    let list := if endPos < count then moveRanges list endPos (startPos + 1) (count - endPos)
      else list
    (list.set startPos ⟨newFrom, newTo⟩, count - (endPos - startPos) + 1)

/-- How many ranges are canonical after one that ends at `max`. -/
def canonicalCount (max : ℕ) : List CharacterRange → ℕ
  | [] => 0
  | current :: ranges =>
    if current.from_ ≤ max + 1 then 0 else canonicalCount current.to_ ranges + 1

/-- The loop of `Canonicalize`: the ranges from `read` on are inserted. -/
def canonicalizeLoop (list : List CharacterRange) (numCanonical read : ℕ) :
    ℕ → List CharacterRange × ℕ
  | 0 => (list, numCanonical)
  | n + 1 =>
    let (list, numCanonical) := insertRangeInCanonicalList list numCanonical (rangeAt list read)
    canonicalizeLoop list numCanonical (read + 1) n

def canonicalize : List CharacterRange → List CharacterRange
  | [] => []
  | [range] => [range]
  | range :: ranges =>
    let list := range :: ranges
    let i := canonicalCount range.to_ ranges + 1
    if i = list.length then list
    else
      let (list, numCanonical) := canonicalizeLoop list i i (list.length - i)
      list.take numCanonical

/-- The loop of `Negate`, with what is added after it. -/
def negateFrom (start : ℕ) : List CharacterRange → List CharacterRange
  | [] => if start < kMaxCodePoint then [⟨start, kMaxCodePoint⟩] else []
  | range :: ranges => ⟨start, range.from_ - 1⟩ :: negateFrom (range.to_ + 1) ranges

def negate : List CharacterRange → List CharacterRange
  | [] => negateFrom 0 []
  | range :: ranges =>
    if range.from_ = 0 then negateFrom (range.to_ + 1) ranges else negateFrom 0 (range :: ranges)

def intersect : List CharacterRange → List CharacterRange → List CharacterRange
  | l :: lhs, r :: rhs =>
    if l.to_ < r.from_ then intersect lhs (r :: rhs)
    else if r.to_ < l.from_ then intersect (l :: lhs) rhs
    else
      let stop := min l.to_ r.to_
      ⟨max l.from_ r.from_, stop⟩ ::
        if stop = l.to_ then intersect lhs (r :: rhs) else intersect (l :: lhs) rhs
  | [], _ => []
  | _, [] => []
termination_by lhs rhs => lhs.length + rhs.length

variable (src : List CharacterRange)

/-- `SafeAdvanceRange`: the ranges from the next one on, and its ends. The
first end lies behind all code points if there is no next range; then the last
end is left as it was. -/
def safeAdvanceRange (stop : ℕ) : List CharacterRange × ℕ × ℕ :=
  match src.tail with
  | [] => ([], kMaxCodePoint + 1, stop)
  | range :: ranges => (range :: ranges, range.from_, range.to_)

theorem length_safeAdvanceRange (stop : ℕ) :
    (safeAdvanceRange src stop).1.length = src.length - 1 := by
  unfold safeAdvanceRange
  rw [← length_tail]
  cases src.tail <;> rfl

/-- `Subtract` from a range on. The current range is what is left of the first
of `src`. -/
def subtractFrom (src : List CharacterRange) (start stop : ℕ) (toRemove : List CharacterRange) :
    List CharacterRange :=
  match src, toRemove with
  | range :: ranges, remove :: removes =>
    if remove.to_ < start then subtractFrom (range :: ranges) start stop removes
    else if stop < remove.from_ then
      ⟨start, stop⟩ :: subtractFrom (safeAdvanceRange (range :: ranges) stop).1
        (safeAdvanceRange (range :: ranges) stop).2.1 (safeAdvanceRange (range :: ranges) stop).2.2
        (remove :: removes)
    else if start ≥ remove.from_ ∧ stop ≤ remove.to_ then
      subtractFrom (safeAdvanceRange (range :: ranges) stop).1
        (safeAdvanceRange (range :: ranges) stop).2.1 (safeAdvanceRange (range :: ranges) stop).2.2
        (remove :: removes)
    else if start < remove.from_ ∧ stop > remove.to_ then
      ⟨start, remove.from_ - 1⟩ :: subtractFrom (range :: ranges) (remove.to_ + 1) stop removes
    else if start < remove.from_ then
      ⟨start, remove.from_ - 1⟩ ::
        subtractFrom (safeAdvanceRange (range :: ranges) (remove.from_ - 1)).1
          (safeAdvanceRange (range :: ranges) (remove.from_ - 1)).2.1
          (safeAdvanceRange (range :: ranges) (remove.from_ - 1)).2.2 (remove :: removes)
    else subtractFrom (range :: ranges) (remove.to_ + 1) stop removes
  | src, _ => (if start ≤ stop then [⟨start, stop⟩] else []) ++ src.tail
termination_by src.length + toRemove.length
decreasing_by all_goals simp only [length_cons, length_safeAdvanceRange]; omega

def subtract (src toRemove : List CharacterRange) : List CharacterRange :=
  match src with
  | [] => []
  | range :: ranges => subtractFrom (range :: ranges) range.from_ range.to_ toRemove

/-! ## Sets of code points -/

/-- The code points in some ranges. -/
def codePoints (ranges : List CharacterRange) : Set ℕ :=
  {c | ∃ r ∈ ranges, r.from_ ≤ c ∧ c ≤ r.to_}

/-- **Canonical lists**: sorted ranges that neither overlap nor touch. -/
structure Canonical (ranges : List CharacterRange) : Prop where
  valid : ∀ r ∈ ranges, r.Valid
  apart : ranges.Pairwise fun r s => r.to_ + 1 < s.from_

/-- All ranges start at or after a code point. -/
def Above (c : ℕ) (ranges : List CharacterRange) : Prop := ∀ r ∈ ranges, c ≤ r.from_

variable {r : CharacterRange} {l l' : List CharacterRange} {c d : ℕ}

theorem not_mem_codePoints_nil : c ∉ codePoints [] := nofun

theorem mem_codePoints_cons :
    c ∈ codePoints (r :: l) ↔ (r.from_ ≤ c ∧ c ≤ r.to_) ∨ c ∈ codePoints l := by
  simp [codePoints]

theorem codePoints_append : codePoints (l ++ l') = codePoints l ∪ codePoints l' := by
  ext c
  simp only [codePoints, mem_append, Set.mem_union, Set.mem_ofPred_eq, or_and_right, exists_or]

theorem Above.nil : Above c [] := nofun

theorem above_cons : Above c (r :: l) ↔ c ≤ r.from_ ∧ Above c l := forall_mem_cons

theorem Above.mono (h : Above d l) (hcd : c ≤ d) : Above c l := fun s hs => hcd.trans (h s hs)

theorem Above.le (h : Above d l) (hc : c ∈ codePoints l) : d ≤ c := by
  obtain ⟨s, hs, hfrom, -⟩ := hc
  exact (h s hs).trans hfrom

theorem Canonical.nil : Canonical [] := ⟨nofun, .nil⟩

theorem canonical_cons : Canonical (r :: l) ↔ r.Valid ∧ Above (r.to_ + 2) l ∧ Canonical l := by
  constructor
  · rintro ⟨hvalid, hapart⟩
    obtain ⟨hr, hl⟩ := forall_mem_cons.mp hvalid
    obtain ⟨habove, hapart⟩ := pairwise_cons.mp hapart
    exact ⟨hr, habove, hl, hapart⟩
  · rintro ⟨hr, habove, hl, hapart⟩
    exact ⟨forall_mem_cons.mpr ⟨hr, hl⟩, pairwise_cons.mpr ⟨habove, hapart⟩⟩

theorem Canonical.le_max (h : Canonical l) (hc : c ∈ codePoints l) : c ≤ kMaxCodePoint := by
  obtain ⟨s, hs, -, hto⟩ := hc
  exact hto.trans (h.valid s hs).2

/-- A canonical list starts with its least code point. -/
theorem Canonical.above_iff (h : Canonical l) : Above c l ↔ ∀ d ∈ codePoints l, c ≤ d :=
  ⟨fun habove _ => habove.le, fun hle r hr => hle r.from_ ⟨r, hr, le_rfl, (h.valid r hr).1⟩⟩

/-- **Where the ranges of a canonical list begin**: at the code points that are there and the
one before is not. -/
theorem Canonical.exists_from_iff (h : Canonical l) :
    (∃ r ∈ l, r.from_ = c + 1) ↔ c + 1 ∈ codePoints l ∧ c ∉ codePoints l := by
  induction l with
  | nil => exact iff_of_false nofun fun hc => not_mem_codePoints_nil hc.1
  | cons r l ih =>
    obtain ⟨⟨hr, -⟩, habove, hl⟩ := canonical_cons.mp h
    have hbelow : ∀ d, d ∈ codePoints l → r.to_ + 2 ≤ d := fun d hd => habove.le hd
    have hc := hbelow c
    have hnext := hbelow (c + 1)
    simp only [mem_cons, exists_eq_or_imp]
    rw [ih hl, mem_codePoints_cons, mem_codePoints_cons]
    grind

/-- A canonical list starts with its least code point, and the first one that
is missing after it ends the first range. -/
theorem Canonical.head_eq {s : CharacterRange} (hl : Canonical (r :: l)) (hl' : Canonical (s :: l'))
    (h : codePoints (r :: l) ⊆ codePoints (s :: l')) : s.from_ ≤ r.from_ ∧
      (s.from_ = r.from_ → r.to_ ≤ s.to_) := by
  obtain ⟨hr, hrl, -⟩ := canonical_cons.mp hl
  obtain ⟨hs, hsl, -⟩ := canonical_cons.mp hl'
  have hfirst : r.from_ ∈ codePoints (s :: l') := h (mem_codePoints_cons.mpr (.inl ⟨le_rfl, hr.1⟩))
  constructor
  · obtain hfirst | hfirst := mem_codePoints_cons.mp hfirst
    · exact hfirst.1
    · have := hsl.le hfirst
      have := hs.1
      omega
  · intro heq
    by_contra hlt
    have hnext : s.to_ + 1 ∈ codePoints (s :: l') := by
      refine h (mem_codePoints_cons.mpr (.inl ⟨?_, by omega⟩))
      have := hs.1
      omega
    obtain hnext | hnext := mem_codePoints_cons.mp hnext
    · omega
    · have := hsl.le hnext
      omega

/-- **A set of code points has one canonical list.** -/
theorem Canonical.ext (hl : Canonical l) (hl' : Canonical l') (h : codePoints l = codePoints l') :
    l = l' := by
  induction l generalizing l' with
  | nil =>
    cases l' with
    | nil => rfl
    | cons s l' =>
      have hs := (canonical_cons.mp hl').1
      have hmem : s.from_ ∈ codePoints (s :: l') := mem_codePoints_cons.mpr (.inl ⟨le_rfl, hs.1⟩)
      exact absurd (h ▸ hmem) not_mem_codePoints_nil
  | cons r l ih =>
    obtain ⟨hr, hrl, hcl⟩ := canonical_cons.mp hl
    cases l' with
    | nil =>
      have hmem : r.from_ ∈ codePoints (r :: l) := mem_codePoints_cons.mpr (.inl ⟨le_rfl, hr.1⟩)
      exact absurd (h ▸ hmem) not_mem_codePoints_nil
    | cons s l' =>
      obtain ⟨hs, hsl, hcl'⟩ := canonical_cons.mp hl'
      obtain ⟨hfrom, hto⟩ := hl.head_eq hl' h.subset
      obtain ⟨hfrom', hto'⟩ := hl'.head_eq hl h.symm.subset
      have heq : r.from_ = s.from_ := le_antisymm hfrom' hfrom
      obtain rfl : r = s := by
        obtain ⟨rf, rt⟩ := r
        obtain ⟨sf, st⟩ := s
        simp only at heq hto hto'
        rw [heq, le_antisymm (hto heq.symm) (hto' heq)]
      refine congrArg (r :: ·) (ih hcl hcl' (Set.ext fun c => ?_))
      -- the rest is what lies behind the first range
      have hrest : ∀ l, Above (r.to_ + 2) l →
          (c ∈ codePoints l ↔ c ∈ codePoints (r :: l) ∧ r.to_ < c) := by
        intro l habove
        rw [mem_codePoints_cons]
        constructor
        · intro hc
          have := habove.le hc
          exact ⟨.inr hc, by omega⟩
        · rintro ⟨hc | hc, hlt⟩
          · omega
          · exact hc
      rw [hrest l hrl, hrest l' hsl, h]

/-! ## Complement -/

/-- **The loop of `Negate`** adds what is missing from a code point on. Only
the last code point is left out, if all before it are there. -/
theorem negateFrom_spec (start : ℕ) (h : Canonical l) (habove : Above (start + 1) l) :
    Canonical (negateFrom start l) ∧
      ∀ c, c ∈ codePoints (negateFrom start l) ↔ start ≤ c ∧ c ≤ kMaxCodePoint ∧
        c ∉ codePoints l ∧ (c = kMaxCodePoint → start ≠ c ∧ c - 1 ∉ codePoints l) := by
  induction l generalizing start with
  | nil =>
    unfold negateFrom
    split
    · next hlt =>
      refine ⟨canonical_cons.mpr ⟨⟨hlt.le, le_rfl⟩, .nil, .nil⟩, fun c => ?_⟩
      rw [mem_codePoints_cons]
      constructor
      · rintro (hc | hc)
        · exact ⟨hc.1, hc.2, not_mem_codePoints_nil,
            fun heq => ⟨by omega, not_mem_codePoints_nil⟩⟩
        · exact absurd hc not_mem_codePoints_nil
      · rintro ⟨hlow, hhigh, -⟩
        exact .inl ⟨hlow, hhigh⟩
    · next hge =>
      refine ⟨.nil, fun c => ⟨fun hc => absurd hc not_mem_codePoints_nil, ?_⟩⟩
      rintro ⟨hlow, hhigh, -, hlast⟩
      have := (hlast (by omega)).1
      omega
  | cons r l ih =>
    obtain ⟨hr, hrl, hl⟩ := canonical_cons.mp h
    obtain ⟨hstart, hstartl⟩ := above_cons.mp habove
    obtain ⟨hcanonical, hmem⟩ := ih (r.to_ + 1) hl hrl
    have hfrom := hcanonical.above_iff.mpr fun d hd => ((hmem d).mp hd).1
    obtain ⟨hvalid, hmax⟩ := hr
    unfold negateFrom
    refine ⟨canonical_cons.mpr ⟨⟨by simp only; omega, by simp only; omega⟩,
      hfrom.mono (by simp only; omega), hcanonical⟩, fun c => ?_⟩
    simp only [mem_codePoints_cons, hmem]
    constructor
    · rintro (⟨hlow, hhigh⟩ | ⟨hlow, hhigh, hnot, hlast⟩)
      · refine ⟨hlow, by omega, ?_, by omega⟩
        rintro (hc | hc)
        · omega
        · have := hrl.le hc
          omega
      · refine ⟨by omega, hhigh, ?_, fun heq => ⟨by omega, ?_⟩⟩
        · rintro (hc | hc)
          · omega
          · exact hnot hc
        · obtain ⟨hne, hprev⟩ := hlast heq
          rintro (hc | hc)
          · omega
          · exact hprev hc
    · rintro ⟨hlow, hhigh, hnot, hlast⟩
      by_cases hc : c < r.from_
      · exact .inl ⟨hlow, by omega⟩
      · refine .inr ⟨?_, hhigh, fun hc => hnot (.inr hc), fun heq => ?_⟩
        · by_contra hle
          exact hnot (.inl ⟨by omega, by omega⟩)
        · obtain ⟨-, hprev⟩ := hlast heq
          refine ⟨fun heq' => hprev (.inl ⟨by omega, by omega⟩), fun hc => hprev (.inr hc)⟩

/-- **`Negate`** gives a canonical list of the complement, but for the last
code point if the one before it is there. -/
theorem negate_spec (h : Canonical l) :
    Canonical (negate l) ∧ ∀ c, c ∈ codePoints (negate l) ↔ c ≤ kMaxCodePoint ∧
      c ∉ codePoints l ∧ (c = kMaxCodePoint → c - 1 ∉ codePoints l) := by
  have hzero : ∀ l, Canonical l → Above 1 l → Canonical (negateFrom 0 l) ∧
      ∀ c, c ∈ codePoints (negateFrom 0 l) ↔ c ≤ kMaxCodePoint ∧
        c ∉ codePoints l ∧ (c = kMaxCodePoint → c - 1 ∉ codePoints l) := by
    intro l hl habove
    obtain ⟨hcanonical, hmem⟩ := negateFrom_spec 0 hl habove
    refine ⟨hcanonical, fun c => (hmem c).trans ?_⟩
    constructor
    · rintro ⟨-, hle, hnot, hlast⟩
      exact ⟨hle, hnot, fun heq => (hlast heq).2⟩
    · rintro ⟨hle, hnot, hlast⟩
      exact ⟨Nat.zero_le c, hle, hnot, fun heq => ⟨by rw [heq]; decide, hlast heq⟩⟩
  cases l with
  | nil => exact hzero [] .nil .nil
  | cons r l =>
    obtain ⟨hr, hrl, hl⟩ := canonical_cons.mp h
    rw [negate]
    split
    · next hfrom =>
      obtain ⟨hcanonical, hmem⟩ := negateFrom_spec (r.to_ + 1) hl hrl
      refine ⟨hcanonical, fun c => (hmem c).trans ?_⟩
      simp only [mem_codePoints_cons, hfrom]
      constructor
      · rintro ⟨hlow, hle, hnot, hlast⟩
        refine ⟨hle, ?_, fun heq => ?_⟩
        · rintro (hc | hc)
          · omega
          · exact hnot hc
        · obtain ⟨hne, hprev⟩ := hlast heq
          rintro (hc | hc)
          · omega
          · exact hprev hc
      · rintro ⟨hle, hnot, hlast⟩
        refine ⟨?_, hle, fun hc => hnot (.inr hc), fun heq => ?_⟩
        · by_contra hlt
          exact hnot (.inl ⟨Nat.zero_le c, by omega⟩)
        · exact ⟨fun heq' => hlast heq (.inl ⟨Nat.zero_le _, by omega⟩),
            fun hc => hlast heq (.inr hc)⟩
    · next hfrom =>
      exact hzero _ h (above_cons.mpr ⟨by omega, hrl.mono (by omega)⟩)

/-! ## Intersection -/

theorem mem_codePoints_cons_of_lt (h : r.to_ < c) : c ∈ codePoints (r :: l) ↔ c ∈ codePoints l := by
  rw [mem_codePoints_cons]
  exact or_iff_right fun hc => by omega

theorem Canonical.above (h : Canonical (r :: l)) : Above r.from_ (r :: l) := by
  obtain ⟨hr, hrl, -⟩ := canonical_cons.mp h
  exact above_cons.mpr ⟨le_rfl, hrl.mono (hr.1.trans (Nat.le_add_right _ _))⟩

/-- **`Intersect`** gives a canonical list of the intersection. -/
theorem intersect_spec {m : List CharacterRange} (hl : Canonical l) (hm : Canonical m) :
    Canonical (intersect l m) ∧
      ∀ c, c ∈ codePoints (intersect l m) ↔ c ∈ codePoints l ∧ c ∈ codePoints m := by
  fun_induction intersect l m with
  | case1 l lhs r rhs hlt ih =>
    obtain ⟨hcanonical, hmem⟩ := ih (canonical_cons.mp hl).2.2 hm
    refine ⟨hcanonical, fun c => (hmem c).trans (and_congr_left fun hc => ?_)⟩
    exact (mem_codePoints_cons_of_lt (hlt.trans_le (hm.above.le hc))).symm
  | case2 l lhs r rhs hge hlt ih =>
    obtain ⟨hcanonical, hmem⟩ := ih hl (canonical_cons.mp hm).2.2
    refine ⟨hcanonical, fun c => (hmem c).trans (and_congr_right fun hc => ?_)⟩
    exact (mem_codePoints_cons_of_lt (hlt.trans_le (hl.above.le hc))).symm
  | case3 l lhs r rhs hge hge' stop ih ih' =>
    obtain ⟨⟨hvl, hmax⟩, hal, hcl⟩ := canonical_cons.mp hl
    obtain ⟨⟨hvr, -⟩, har, hcr⟩ := canonical_cons.mp hm
    have hlhs : ∀ c ∈ codePoints lhs, l.to_ + 2 ≤ c := hcl.above_iff.mp hal
    have hrhs : ∀ c ∈ codePoints rhs, r.to_ + 2 ≤ c := hcr.above_iff.mp har
    have hstop : stop = min l.to_ r.to_ := rfl
    -- in both cases the rest is what the lists have in common behind the first range
    generalize hrest : (if stop = l.to_ then _ else _) = rest
    obtain ⟨hcanonical, hmem⟩ : Canonical rest ∧ ∀ c, c ∈ codePoints rest ↔
        (c ∈ codePoints (l :: lhs) ∧ c ∈ codePoints (r :: rhs)) ∧ stop < c := by
      rw [← hrest]
      split
      · refine ⟨(ih hcl hm).1, fun c => ((ih hcl hm).2 c).trans ?_⟩
        simp only [mem_codePoints_cons]
        grind
      · refine ⟨(ih' hl hcr).1, fun c => ((ih' hl hcr).2 c).trans ?_⟩
        simp only [mem_codePoints_cons]
        grind
    simp only [mem_codePoints_cons] at hmem ⊢
    refine ⟨canonical_cons.mpr ⟨⟨by simp only; omega, by simp only; omega⟩,
      hcanonical.above_iff.mpr fun c hc => ?_, hcanonical⟩, fun c => ?_⟩
    · have := (hmem c).mp hc
      grind
    · rw [hmem]
      grind
  | case4 => exact ⟨.nil, fun c =>
      ⟨fun hc => absurd hc not_mem_codePoints_nil, fun hc => absurd hc.1 not_mem_codePoints_nil⟩⟩
  | case5 => exact ⟨.nil, fun c =>
      ⟨fun hc => absurd hc not_mem_codePoints_nil, fun hc => absurd hc.2 not_mem_codePoints_nil⟩⟩

/-! ## Difference -/

/-- What `Subtract` still has to go through: what is left of the current range,
and the ranges after it. -/
def remaining (start stop : ℕ) : List CharacterRange :=
  (if start ≤ stop then [⟨start, stop⟩] else []) ++ src.tail

/-- There is something left of the current range, as long as there is one. -/
def Pending (start stop : ℕ) : Prop :=
  stop ≤ kMaxCodePoint ∧ (src = [] ∧ stop < start ∨ src ≠ [] ∧ start ≤ stop)

theorem remaining_cons {start stop : ℕ} (h : start ≤ stop) :
    remaining (r :: l) start stop = ⟨start, stop⟩ :: l := by
  rw [remaining, if_pos h]
  rfl

theorem Pending.le {start stop : ℕ} (h : Pending (r :: l) start stop) : start ≤ stop :=
  (h.2.resolve_left fun h => cons_ne_nil _ _ h.1).2

/-- **`SafeAdvanceRange`** goes to the ranges after the current one. -/
theorem safeAdvanceRange_spec {stop : ℕ} (h : Canonical l) (hstop : stop ≤ kMaxCodePoint) :
    remaining (safeAdvanceRange (r :: l) stop).1 (safeAdvanceRange (r :: l) stop).2.1
        (safeAdvanceRange (r :: l) stop).2.2 = l ∧
      Pending (safeAdvanceRange (r :: l) stop).1 (safeAdvanceRange (r :: l) stop).2.1
        (safeAdvanceRange (r :: l) stop).2.2 := by
  cases l with
  | nil =>
    have hlt : stop < kMaxCodePoint + 1 := Nat.lt_succ_of_le hstop
    refine ⟨?_, hstop, .inl ⟨rfl, hlt⟩⟩
    show (if kMaxCodePoint + 1 ≤ stop then _ else _) ++ [] = _
    rw [if_neg (Nat.not_le.mpr hlt), append_nil]
  | cons s l =>
    obtain ⟨hvalid, -, -⟩ := canonical_cons.mp h
    exact ⟨remaining_cons hvalid.1, hvalid.2, .inr ⟨cons_ne_nil _ _, hvalid.1⟩⟩

/-- **`Subtract` from a range on** gives a canonical list of what remains
without what is to be removed. -/
theorem subtractFrom_spec (src : List CharacterRange) (start stop : ℕ)
    {toRemove : List CharacterRange}
    (hpending : Pending src start stop) (hsrc : Canonical (remaining src start stop))
    (hremove : Canonical toRemove) :
    Canonical (subtractFrom src start stop toRemove) ∧
      ∀ c, c ∈ codePoints (subtractFrom src start stop toRemove) ↔
        c ∈ codePoints (remaining src start stop) ∧ c ∉ codePoints toRemove := by
  fun_induction subtractFrom src start stop toRemove with
  | case1 start stop range ranges remove removes hlt ih =>
    obtain ⟨hcanonical, hmem⟩ := ih hpending hsrc (canonical_cons.mp hremove).2.2
    refine ⟨hcanonical, fun c => (hmem c).trans (and_congr_right fun hc => not_congr ?_)⟩
    rw [remaining_cons hpending.le] at hsrc hc
    exact (mem_codePoints_cons_of_lt (hlt.trans_le (hsrc.above.le hc))).symm
  | case2 start stop range ranges remove removes hge hlt ih =>
    rw [remaining_cons hpending.le] at hsrc ⊢
    obtain ⟨hvalid, hranges, hcranges⟩ := canonical_cons.mp hsrc
    obtain ⟨hrest, hpending'⟩ := safeAdvanceRange_spec hcranges hpending.1
    rw [hrest] at ih
    obtain ⟨hcanonical, hmem⟩ := ih hpending' hcranges hremove
    refine ⟨canonical_cons.mpr ⟨hvalid, hcanonical.above_iff.mpr fun c hc =>
      hranges.le ((hmem c).mp hc).1, hcanonical⟩, fun c => ?_⟩
    rw [mem_codePoints_cons, hmem, mem_codePoints_cons (l := ranges), or_and_right]
    refine or_congr_left (iff_self_and.mpr fun hc hc' => ?_)
    have := hremove.above.le hc'
    simp only at hc
    omega
  | case3 start stop range ranges remove removes hge hge' hcover ih =>
    rw [remaining_cons hpending.le] at hsrc ⊢
    obtain ⟨hvalid, hranges, hcranges⟩ := canonical_cons.mp hsrc
    obtain ⟨hrest, hpending'⟩ := safeAdvanceRange_spec hcranges hpending.1
    rw [hrest] at ih
    obtain ⟨hcanonical, hmem⟩ := ih hpending' hcranges hremove
    refine ⟨hcanonical, fun c => ?_⟩
    rw [hmem, mem_codePoints_cons (l := ranges), or_and_right, iff_or_self]
    rintro ⟨hc, hc'⟩
    simp only at hc
    exact absurd (mem_codePoints_cons.mpr (.inl ⟨by omega, by omega⟩)) hc'
  | case4 start stop range ranges remove removes hge hge' hcover hsplit ih =>
    rw [remaining_cons hpending.le] at hsrc ⊢
    rw [remaining_cons hsplit.2] at ih
    obtain ⟨-, hranges, hcranges⟩ := canonical_cons.mp hsrc
    obtain ⟨⟨hfirst, -⟩, hremoves, hcremoves⟩ := canonical_cons.mp hremove
    have hmax := hpending.1
    obtain ⟨hcanonical, hmem⟩ := ih ⟨hmax, .inr ⟨cons_ne_nil _ _, hsplit.2⟩⟩
      (canonical_cons.mpr ⟨⟨hsplit.2, hmax⟩, hranges, hcranges⟩) hcremoves
    have hright : ∀ c ∈ codePoints ranges, stop + 2 ≤ c := fun c => hranges.le
    simp only [mem_codePoints_cons] at hmem ⊢
    refine ⟨canonical_cons.mpr ⟨⟨by simp only; omega, by simp only; omega⟩,
      hcanonical.above_iff.mpr fun c hc => ?_, hcanonical⟩, fun c => ?_⟩
    · have := (hmem c).mp hc
      grind
    · have hremoved : c ∈ codePoints removes → remove.to_ + 2 ≤ c := hremoves.le
      rw [hmem]
      grind
  | case5 start stop range ranges remove removes hge hge' hcover hsplit hend ih =>
    rw [remaining_cons hpending.le] at hsrc ⊢
    obtain ⟨-, hranges, hcranges⟩ := canonical_cons.mp hsrc
    have hmax := hpending.1
    obtain ⟨hrest, hpending'⟩ := safeAdvanceRange_spec hcranges
      (show remove.from_ - 1 ≤ kMaxCodePoint by omega)
    rw [hrest] at ih
    obtain ⟨hcanonical, hmem⟩ := ih hpending' hcranges hremove
    refine ⟨canonical_cons.mpr ⟨⟨by simp only; omega, by simp only; omega⟩,
      hcanonical.above_iff.mpr fun c hc => ?_, hcanonical⟩, fun c => ?_⟩
    · exact (by simp only; omega : _ ≤ stop + 2).trans (hranges.le ((hmem c).mp hc).1)
    · have hremoved : c ∈ codePoints (remove :: removes) → remove.from_ ≤ c := hremove.above.le
      simp only [mem_codePoints_cons, hmem] at hremoved ⊢
      grind
  | case6 start stop range ranges remove removes hge hge' hcover hsplit hend ih =>
    have hlt : remove.to_ + 1 ≤ stop := by omega
    rw [remaining_cons hpending.le] at hsrc ⊢
    rw [remaining_cons hlt] at ih
    obtain ⟨-, hranges, hcranges⟩ := canonical_cons.mp hsrc
    obtain ⟨-, hremoves, hcremoves⟩ := canonical_cons.mp hremove
    have hmax := hpending.1
    obtain ⟨hcanonical, hmem⟩ := ih ⟨hmax, .inr ⟨cons_ne_nil _ _, hlt⟩⟩
      (canonical_cons.mpr ⟨⟨hlt, hmax⟩, hranges, hcranges⟩) hcremoves
    refine ⟨hcanonical, fun c => ?_⟩
    have hright : c ∈ codePoints ranges → stop + 2 ≤ c := hranges.le
    have hremoved : c ∈ codePoints removes → remove.to_ + 2 ≤ c := hremoves.le
    simp only [mem_codePoints_cons, hmem]
    grind
  | case7 start stop toRemove src hnil =>
    refine ⟨hsrc, fun c => iff_self_and.mpr fun hc hc' => ?_⟩
    obtain ⟨rfl, hlt⟩ | ⟨hsrc, -⟩ := hpending.2
    · rw [if_neg (Nat.not_le.mpr hlt)] at hc
      exact not_mem_codePoints_nil hc
    · obtain ⟨range, ranges, rfl⟩ := exists_cons_of_ne_nil hsrc
      cases toRemove with
      | nil => exact not_mem_codePoints_nil hc'
      | cons remove removes => exact hnil _ _ _ _ rfl rfl

/-- **`Subtract`** gives a canonical list of the difference. -/
theorem subtract_spec {m : List CharacterRange} (hl : Canonical l) (hm : Canonical m) :
    Canonical (subtract l m) ∧
      ∀ c, c ∈ codePoints (subtract l m) ↔ c ∈ codePoints l ∧ c ∉ codePoints m := by
  cases l with
  | nil => exact ⟨.nil, fun c => ⟨fun hc => absurd hc not_mem_codePoints_nil, And.left⟩⟩
  | cons r l =>
    have hr := (canonical_cons.mp hl).1
    have hrest : remaining (r :: l) r.from_ r.to_ = r :: l := remaining_cons hr.1
    have hspec := subtractFrom_spec (r :: l) r.from_ r.to_
      ⟨hr.2, .inr ⟨cons_ne_nil _ _, hr.1⟩⟩ (by rw [hrest]; exact hl) hm
    rw [hrest] at hspec
    exact hspec

end CharacterRange
