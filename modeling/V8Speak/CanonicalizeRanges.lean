import V8Speak.CharacterRange

/-!
# Canonicalizing character ranges

`Canonicalize` works in place: the list has a canonical front, and the ranges
behind it are inserted into the front one after the other. An insertion finds
the ranges it overlaps or touches, which are next to each other, replaces them
by one range, and moves the ranges behind them by as many places as that
takes – one place to the right, or some to the left.

Lists are described here by what stands at a place (`rangeAt`): all three
cases of an insertion then have the same description (`inserted_set`), and
that the front is canonical again is a matter of comparing places.
-/

open List

namespace CharacterRange

variable {list : List CharacterRange} {insert : CharacterRange} {count : ℕ}

theorem rangeAt_set {i : ℕ} (h : i < list.length) (r : CharacterRange) (j : ℕ) :
    rangeAt (list.set i r) j = if i = j then r else rangeAt list j := by
  rw [rangeAt, getElem?_set, if_pos h]
  split
  · rw [Option.getD_some]
  · rfl

/-! ## Moving ranges -/

/-- A list after a number of its ranges have been moved from one place to another. -/
structure Moved (list : List CharacterRange) (source target count : ℕ) (l : List CharacterRange) :
    Prop where
  length : l.length = list.length
  place : ∀ j, rangeAt l j =
    if target ≤ j ∧ j < target + count then rangeAt list (source + (j - target)) else rangeAt list j

variable {source target : ℕ}

theorem moveRight_spec (h : source ≤ target) (hlen : target + count ≤ list.length) :
    Moved list source target count (moveRight list source target count) := by
  induction count generalizing list with
  | zero => exact ⟨rfl, fun j => by rw [if_neg (by omega)]; rfl⟩
  | succ n ih =>
    obtain ⟨hlength, hat⟩ := @ih (list.set (target + n) (rangeAt list (source + n)))
      (by rw [length_set]; omega)
    refine ⟨hlength.trans length_set, fun j => ?_⟩
    rw [moveRight, hat, rangeAt_set (by omega), rangeAt_set (by omega)]
    -- the place that has been written is not read again
    by_cases hj : target ≤ j ∧ j < target + n
    · rw [if_pos hj, if_neg (by omega), if_pos (by omega)]
    · rw [if_neg hj]
      by_cases heq : target + n = j
      · rw [if_pos heq, if_pos (by omega), ← heq, Nat.add_sub_cancel_left]
      · rw [if_neg heq, if_neg (by omega)]

theorem moveLeft_spec (h : target < source) (hlen : source + count ≤ list.length) :
    Moved list source target count (moveLeft list source target count) := by
  induction count generalizing list source target with
  | zero => exact ⟨rfl, fun j => by rw [if_neg (by omega)]; rfl⟩
  | succ n ih =>
    obtain ⟨hlength, hat⟩ := @ih (list.set target (rangeAt list source))
      (source + 1) (target + 1) (by omega) (by rw [length_set]; omega)
    refine ⟨hlength.trans length_set, fun j => ?_⟩
    rw [moveLeft, hat, rangeAt_set (by omega), rangeAt_set (by omega)]
    by_cases hj : target + 1 ≤ j ∧ j < target + 1 + n
    · rw [if_pos hj, if_neg (by omega), if_pos (by omega)]
      congr 1
      omega
    · rw [if_neg hj]
      by_cases heq : target = j
      · rw [if_pos heq, if_pos (by omega), ← heq, Nat.sub_self, Nat.add_zero]
      · rw [if_neg heq, if_neg (by omega)]

/-- **`MoveRanges`** moves a number of ranges, although the places may overlap. -/
theorem moveRanges_spec (h : source ≠ target)
    (hsource : source + count ≤ list.length) (htarget : target + count ≤ list.length) :
    Moved list source target count (moveRanges list source target count) := by
  unfold moveRanges
  split
  · next hlt => exact moveRight_spec hlt.le htarget
  · next hge => exact moveLeft_spec (by omega) hsource

/-! ## The front of a list, place by place -/

theorem mem_codePoints_take (h : count ≤ list.length) {c : ℕ} : c ∈ codePoints (list.take count) ↔
      ∃ i < count, (rangeAt list i).from_ ≤ c ∧ c ≤ (rangeAt list i).to_ := by
  constructor
  · rintro ⟨r, hr, hc⟩
    obtain ⟨i, hi, rfl⟩ := mem_take_iff_getElem.mp hr
    refine ⟨i, by omega, ?_⟩
    rwa [rangeAt, getElem?_eq_getElem, Option.getD_some]
  · rintro ⟨i, hi, hc⟩
    rw [rangeAt, getElem?_eq_getElem (hi.trans_le h), Option.getD_some] at hc
    exact ⟨_, mem_take_iff_getElem.mpr ⟨i, by omega, rfl⟩, hc⟩

theorem canonical_take (h : count ≤ list.length) :
    Canonical (list.take count) ↔ (∀ i < count, (rangeAt list i).Valid) ∧
      ∀ i j, i < j → j < count → (rangeAt list i).to_ + 1 < (rangeAt list j).from_ := by
  have hat : ∀ i (hi : i < (list.take count).length), (list.take count)[i] = rangeAt list i := by
    intro i hi
    rw [length_take] at hi
    rw [getElem_take, rangeAt, getElem?_eq_getElem (by omega), Option.getD_some]
  have hlength : (list.take count).length = count := length_take_of_le h
  constructor
  · rintro ⟨hvalid, hapart⟩
    rw [pairwise_iff_getElem] at hapart
    refine ⟨fun i hi => ?_, fun i j hij hj => ?_⟩
    · rw [← hat i (by omega)]
      exact hvalid _ (getElem_mem _)
    · rw [← hat i (by omega), ← hat j (by omega)]
      exact hapart i j _ _ hij
  · rintro ⟨hvalid, hapart⟩
    refine ⟨fun r hr => ?_, pairwise_iff_getElem.mpr fun i j hi hj hij => ?_⟩
    · obtain ⟨i, hi, rfl⟩ := mem_iff_getElem.mp hr
      rw [hat i hi]
      exact hvalid i (by omega)
    · rw [hat i hi, hat j hj]
      exact hapart i j hij (by omega)

/-! ## An insertion -/

/-- The places of the ranges that overlap or touch the one to insert. -/
structure Positions (list : List CharacterRange) (count : ℕ) (insert : CharacterRange)
    (p : ℕ × ℕ) : Prop where
  le : p.1 ≤ p.2
  le_count : p.2 ≤ count
  before : ∀ i < p.1, (rangeAt list i).to_ + 1 < insert.from_
  touching : ∀ i, p.1 ≤ i → i < p.2 →
    insert.from_ ≤ (rangeAt list i).to_ + 1 ∧ (rangeAt list i).from_ ≤ insert.to_ + 1
  after : ∀ i, p.2 ≤ i → i < count → insert.to_ + 1 < (rangeAt list i).from_

theorem insertPositions_spec (h : Canonical (list.take count)) (hcount : count ≤ list.length)
    {i endPos : ℕ} (hi : i ≤ endPos) (hend : endPos ≤ count)
    (htouching : ∀ j, i ≤ j → j < endPos →
      insert.from_ ≤ (rangeAt list j).to_ + 1 ∧ (rangeAt list j).from_ ≤ insert.to_ + 1)
    (hafter : ∀ j, endPos ≤ j → j < count → insert.to_ + 1 < (rangeAt list j).from_) :
    Positions list count insert (insertPositions list insert i endPos) := by
  obtain ⟨hvalid, hapart⟩ := (canonical_take hcount).mp h
  induction i generalizing endPos with
  | zero => exact ⟨Nat.zero_le _, hend, nofun, htouching, hafter⟩
  | succ i ih =>
    have hle := (hvalid i (by omega)).1
    rw [insertPositions]
    split
    · next hgt =>
      -- all later ranges lie behind, too
      refine ih le_rfl (by omega) (fun j _ _ => by omega) fun j hj hjc => ?_
      obtain rfl | hlt := Nat.eq_or_lt_of_le hj
      · exact hgt
      · have hnext := hapart i j hlt hjc
        omega
    · split
      · next hlt =>
        refine ⟨hi, hend, fun j hj => ?_, htouching, hafter⟩
        obtain rfl | hji := Nat.eq_or_lt_of_le (Nat.le_of_lt_succ hj)
        · exact hlt
        · have hnext := hapart j i hji (by omega)
          omega
      · refine ih (by omega) hend (fun j hj hje => ?_) hafter
        obtain rfl | hlt := Nat.eq_or_lt_of_le hj
        · omega
        · exact htouching j hlt hje

/-- The range that an insertion puts in the place of others. -/
def merged (list : List CharacterRange) (insert : CharacterRange) (p : ℕ × ℕ) : CharacterRange :=
  if p.1 = p.2 then insert
  else ⟨min (rangeAt list p.1).from_ insert.from_, max (rangeAt list (p.2 - 1)).to_ insert.to_⟩

/-- **What an insertion does**: the ranges in front stay, the others are moved
next to the new range. Nothing changes behind the place after the front. -/
structure Inserted (list : List CharacterRange) (count : ℕ) (insert : CharacterRange) (p : ℕ × ℕ)
    (r : List CharacterRange × ℕ) : Prop where
  length : r.1.length = list.length
  count_eq : r.2 = count - (p.2 - p.1) + 1
  new : rangeAt r.1 p.1 = merged list insert p
  other : ∀ j < r.2, j ≠ p.1 →
    rangeAt r.1 j = rangeAt list (if j < p.1 then j else j + (p.2 - p.1) - 1)
  rest : ∀ j, count < j → rangeAt r.1 j = rangeAt list j

variable (list insert) in
theorem inserted_set {p : ℕ × ℕ} {l : List CharacterRange} {n : ℕ} (hle : p.1 ≤ p.2)
    (hend : p.2 ≤ count) (hcount : count < list.length)
    (hl : Moved list p.2 (p.1 + 1) (count - p.2) l) (hn : n = count - (p.2 - p.1) + 1) :
    Inserted list count insert p (l.set p.1 (merged list insert p), n) := by
  obtain ⟨hlength, hat⟩ := hl
  have hset := fun j => rangeAt_set (show p.1 < l.length by omega) (merged list insert p) j
  refine ⟨length_set.trans hlength, hn, ?_, fun j hj hne => ?_, fun j hj => ?_⟩
  · rw [hset, if_pos rfl]
  · rw [hset, if_neg hne.symm, hat]
    split_ifs
    · omega
    · congr 1
      omega
    · rfl
    · omega
  · rw [hset, if_neg (by omega), hat, if_neg (by omega)]

variable (list) in
theorem moveRest_spec {source : ℕ} (target : ℕ) (h : source ≠ target) (hsource : source ≤ count)
    (htarget : target ≤ source + 1) (hcount : count < list.length) :
    Moved list source target (count - source)
      (if source < count then moveRanges list source target (count - source) else list) := by
  split
  · exact moveRanges_spec h (by omega) (by omega)
  · exact ⟨rfl, fun j => by rw [if_neg (by omega)]⟩

theorem insert_inserted (hcount : count < list.length) {p : ℕ × ℕ}
    (hp : insertPositions list insert count count = p) (hle : p.1 ≤ p.2) (hend : p.2 ≤ count) :
    Inserted list count insert p (insertRangeInCanonicalList list count insert) := by
  obtain ⟨startPos, endPos⟩ := p
  unfold insertRangeInCanonicalList
  simp only [hp]
  have hset {l : List CharacterRange} {n : ℕ} :=
    inserted_set list insert (p := (startPos, endPos)) (l := l) (n := n) hle hend hcount
  rw [merged] at hset
  split
  · next heq =>
    -- no range is replaced
    subst heq
    rw [if_pos rfl] at hset
    exact hset (moveRest_spec list (startPos + 1) (Nat.succ_ne_self startPos).symm hend le_rfl
      hcount) (by simp only; omega)
  · next hne =>
    rw [if_neg hne] at hset
    split
    · next heq =>
      -- one range is replaced
      subst heq
      refine hset ⟨rfl, fun j => ?_⟩ (by simp only; omega)
      split
      · congr 1
        omega
      · rfl
    · next hne' =>
      -- several ranges are replaced by one
      exact hset (moveRest_spec list (startPos + 1) (fun heq => hne' heq.symm) hend (by omega)
        hcount) rfl

/-- The new range lies between the ranges that stay, and has the code points of
those it replaces and of the one to insert. -/
theorem Positions.merged_spec {p : ℕ × ℕ} (hp : Positions list count insert p)
    (h : Canonical (list.take count)) (hcount : count ≤ list.length) (hinsert : insert.Valid) :
    (merged list insert p).Valid ∧
      (∀ i < p.1, (rangeAt list i).to_ + 1 < (merged list insert p).from_) ∧
      (∀ i, p.2 ≤ i → i < count → (merged list insert p).to_ + 1 < (rangeAt list i).from_) ∧
      ∀ c, (merged list insert p).from_ ≤ c ∧ c ≤ (merged list insert p).to_ ↔
        (insert.from_ ≤ c ∧ c ≤ insert.to_) ∨
          ∃ i, (p.1 ≤ i ∧ i < p.2) ∧ (rangeAt list i).from_ ≤ c ∧ c ≤ (rangeAt list i).to_ := by
  obtain ⟨hvalid, hapart⟩ := (canonical_take hcount).mp h
  obtain ⟨hle, hend, hbefore, htouching, hafter⟩ := hp
  unfold merged
  split
  · exact ⟨hinsert, hbefore, hafter, fun c => ⟨.inl, fun hc => hc.elim id fun ⟨i, hi, _⟩ => by omega⟩⟩
  · next hne =>
    have hlo := fun i (hi : p.1 < i) (hic : i < count) => hapart p.1 i hi hic
    have hhi := fun i (hi : i < p.2 - 1) => hapart i (p.2 - 1) hi (by omega)
    have hvalidlo := hvalid p.1 (by omega)
    have hvalidhi := hvalid (p.2 - 1) (by omega)
    refine ⟨⟨?_, max_le hvalidhi.2 hinsert.2⟩, fun i hi => ?_, fun i hi hic => ?_, fun c => ?_⟩
    · exact (min_le_right _ _).trans (hinsert.1.trans (le_max_right _ _))
    · exact lt_min (hapart i p.1 hi (by omega)) (hbefore i hi)
    · rw [Nat.add_lt_iff_lt_sub_right]
      refine max_lt ?_ ?_
      · have := hapart (p.2 - 1) i (by omega) hic
        omega
      · have := hafter i hi hic
        omega
    · simp only [min_le_iff, le_max_iff]
      constructor
      · rintro ⟨hlow, hhigh⟩
        by_cases hc : c < insert.from_
        · -- in the first of the replaced ranges, which reaches up to the new one
          have := (htouching p.1 le_rfl (by omega)).1
          exact .inr ⟨p.1, ⟨le_rfl, by omega⟩, by omega, by omega⟩
        · by_cases hc' : insert.to_ < c
          · have := (htouching (p.2 - 1) (by omega) (by omega)).2
            exact .inr ⟨p.2 - 1, ⟨by omega, by omega⟩, by omega, by omega⟩
          · exact .inl ⟨by omega, by omega⟩
      · rintro (hc | ⟨i, ⟨hi, hip⟩, hlow, hhigh⟩)
        · exact ⟨.inr hc.1, .inr hc.2⟩
        · refine ⟨.inl ?_, .inl ?_⟩
          · obtain heq | hlt := Nat.eq_or_lt_of_le hi
            · rwa [heq]
            · have := hlo i hlt (by omega)
              have := hvalidlo.1
              omega
          · obtain heq | hlt := Nat.eq_or_lt_of_le (Nat.le_sub_one_of_lt hip)
            · rwa [← heq]
            · have := hhi i hlt
              have := hvalidhi.1
              omega

/-- **An insertion keeps the front canonical** and adds the code points of the
new range. -/
theorem insert_spec (h : Canonical (list.take count)) (hcount : count < list.length)
    (hinsert : insert.Valid) :
    let r := insertRangeInCanonicalList list count insert
    Canonical (r.1.take r.2) ∧ r.2 ≤ count + 1 ∧ r.1.length = list.length ∧
      (∀ j, count < j → rangeAt r.1 j = rangeAt list j) ∧
      ∀ c, c ∈ codePoints (r.1.take r.2) ↔
        c ∈ codePoints (list.take count) ∨ insert.from_ ≤ c ∧ c ≤ insert.to_ := by
  obtain ⟨hvalid, hapart⟩ := (canonical_take hcount.le).mp h
  have hp : Positions list count insert (insertPositions list insert count count) :=
    insertPositions_spec h hcount.le le_rfl le_rfl (fun j _ _ => by omega) fun j _ _ => by omega
  have hi := insert_inserted hcount rfl hp.le hp.le_count
  obtain ⟨hmvalid, hmbefore, hmafter, hmem⟩ := hp.merged_spec h hcount.le hinsert
  generalize insertPositions list insert count count = p at *
  intro r
  change Inserted list count insert p r at hi
  have hle := hp.le
  have hend := hp.le_count
  have hcount' := hi.count_eq
  have hlength : r.2 ≤ r.1.length := by
    rw [hi.length]
    omega
  refine ⟨(canonical_take hlength).mpr ⟨fun j hj => ?_, fun i j hij hj => ?_⟩, by omega, hi.length,
    hi.rest, fun c => ?_⟩
  · by_cases hnew : j = p.1
    · rw [hnew, hi.new]
      exact hmvalid
    · rw [hi.other j hj hnew]
      exact hvalid _ (by split <;> omega)
  · by_cases hinew : i = p.1
    · rw [hinew, hi.new, hi.other j hj (by omega), if_neg (by omega)]
      exact hmafter _ (by omega) (by omega)
    · rw [hi.other i (hij.trans hj) hinew]
      by_cases hjnew : j = p.1
      · rw [hjnew, hi.new, if_pos (by omega)]
        exact hmbefore i (by omega)
      · rw [hi.other j hj hjnew]
        exact hapart _ _ (by split_ifs <;> omega) (by split <;> omega)
  · rw [mem_codePoints_take hlength, mem_codePoints_take hcount.le]
    constructor
    · rintro ⟨j, hj, hc⟩
      by_cases hnew : j = p.1
      · rw [hnew, hi.new] at hc
        obtain hc | ⟨i, hi, hc⟩ := (hmem c).mp hc
        · exact .inr hc
        · exact .inl ⟨i, by omega, hc⟩
      · rw [hi.other j hj hnew] at hc
        exact .inl ⟨_, by split <;> omega, hc⟩
    · rintro (⟨i, hic, hc⟩ | hc)
      · by_cases hlt : i < p.1
        · exact ⟨i, by omega, by rwa [hi.other i (by omega) hlt.ne, if_pos hlt]⟩
        · by_cases hlt' : i < p.2
          · refine ⟨p.1, by omega, ?_⟩
            rw [hi.new]
            exact (hmem c).mpr (.inr ⟨i, ⟨by omega, hlt'⟩, hc⟩)
          · refine ⟨i - (p.2 - p.1) + 1, by omega, ?_⟩
            rwa [hi.other _ (by omega) (by omega), if_neg (by omega),
              show i - (p.2 - p.1) + 1 + (p.2 - p.1) - 1 = i by omega]
      · refine ⟨p.1, by omega, ?_⟩
        rw [hi.new]
        exact (hmem c).mpr (.inl hc)

/-! ## All insertions -/

/-- **The loop of `Canonicalize`** adds the ranges that are read to the front. -/
theorem canonicalizeLoop_spec {numCanonical read n : ℕ}
    (hvalid : ∀ j, read ≤ j → j < list.length → (rangeAt list j).Valid)
    (h : Canonical (list.take numCanonical)) (hnum : numCanonical ≤ read)
    (hn : read + n = list.length) :
    let r := canonicalizeLoop list numCanonical read n
    Canonical (r.1.take r.2) ∧ ∀ c, c ∈ codePoints (r.1.take r.2) ↔
      c ∈ codePoints (list.take numCanonical) ∨ ∃ j, (read ≤ j ∧ j < list.length) ∧
        (rangeAt list j).from_ ≤ c ∧ c ≤ (rangeAt list j).to_ := by
  induction n generalizing list numCanonical read with
  | zero => exact ⟨h, fun c => ⟨.inl, fun hc => hc.elim id fun ⟨j, hj, _⟩ => by omega⟩⟩
  | succ n ih =>
    obtain ⟨hcanonical, hcount, hlength, hrest, hmem⟩ :=
      insert_spec h (by omega) (hvalid read le_rfl (by omega))
    rw [canonicalizeLoop]
    generalize insertRangeInCanonicalList list numCanonical (rangeAt list read) = r at *
    have hrest' : ∀ j, read + 1 ≤ j → rangeAt r.1 j = rangeAt list j :=
      fun j hj => hrest j (by omega)
    obtain ⟨hcanonical', hmem'⟩ := ih (fun j hj hjl => by
      rw [hrest' j hj]
      exact hvalid j (by omega) (by omega)) hcanonical (by omega) (by omega)
    refine ⟨hcanonical', fun c => (hmem' c).trans ?_⟩
    rw [hmem, or_assoc, hlength]
    refine or_congr_right ⟨?_, ?_⟩
    · rintro (hc | ⟨j, hj, hc⟩)
      · exact ⟨read, ⟨le_rfl, by omega⟩, hc⟩
      · rw [hrest' j hj.1] at hc
        exact ⟨j, by omega, hc⟩
    · rintro ⟨j, hj, hc⟩
      obtain rfl | hlt := Nat.eq_or_lt_of_le hj.1
      · exact .inl hc
      · exact .inr ⟨j, ⟨hlt, hj.2⟩, by rwa [hrest' j hlt]⟩

/-- The ranges that are canonical from the start. -/
theorem canonicalCount_spec {r : CharacterRange} {l : List CharacterRange}
    (hvalid : ∀ s ∈ r :: l, s.Valid) :
    canonicalCount r.to_ l ≤ l.length ∧ Canonical ((r :: l).take (canonicalCount r.to_ l + 1)) := by
  obtain ⟨hr, hl⟩ := forall_mem_cons.mp hvalid
  induction l generalizing r with
  | nil => exact ⟨le_rfl, canonical_cons.mpr ⟨hr, .nil, .nil⟩⟩
  | cons s l ih =>
    obtain ⟨hs, hl'⟩ := forall_mem_cons.mp hl
    unfold canonicalCount
    split
    · exact ⟨Nat.zero_le _, canonical_cons.mpr ⟨hr, .nil, .nil⟩⟩
    · next hlt =>
      obtain ⟨hle, hcanonical⟩ := ih hl hs hl'
      refine ⟨Nat.succ_le_succ hle, canonical_cons.mpr ⟨hr, ?_, hcanonical⟩⟩
      exact hcanonical.above.mono (by omega)

/-- **`Canonicalize`** gives the canonical list of a set of code points. -/
theorem canonicalize_spec (hvalid : ∀ r ∈ list, r.Valid) :
    Canonical (canonicalize list) ∧ codePoints (canonicalize list) = codePoints list := by
  match list, hvalid with
  | [], _ => exact ⟨.nil, rfl⟩
  | [r], hvalid => exact ⟨canonical_cons.mpr ⟨hvalid r mem_cons_self, .nil, .nil⟩, rfl⟩
  | r :: s :: l, hvalid =>
    obtain ⟨hle, hcanonical⟩ := canonicalCount_spec hvalid
    unfold canonicalize
    simp only
    generalize hi : canonicalCount r.to_ (s :: l) + 1 = i at *
    split
    · next heq =>
      rw [heq, take_length] at hcanonical
      exact ⟨hcanonical, rfl⟩
    · next hne =>
      have hlength : i ≤ (r :: s :: l).length := by
        rw [length_cons]
        omega
      generalize r :: s :: l = list at *
      have hat : ∀ j, j < list.length → rangeAt list j ∈ list := fun j hj => by
        rw [rangeAt, getElem?_eq_getElem hj]
        exact getElem_mem hj
      obtain ⟨hresult, hmem⟩ := canonicalizeLoop_spec (fun j _ hj => hvalid _ (hat j hj)) hcanonical
        le_rfl (Nat.add_sub_cancel' hlength)
      refine ⟨hresult, Set.ext fun c => (hmem c).trans ?_⟩
      have hall : c ∈ codePoints (list.take list.length) ↔ _ := mem_codePoints_take le_rfl
      rw [take_length] at hall
      rw [mem_codePoints_take hlength, hall]
      constructor
      · rintro (⟨j, hj, hc⟩ | ⟨j, hj, hc⟩)
        · exact ⟨j, by omega, hc⟩
        · exact ⟨j, hj.2, hc⟩
      · rintro ⟨j, hj, hc⟩
        obtain hlt | hge := Nat.lt_or_ge j i
        · exact .inl ⟨j, hlt, hc⟩
        · exact .inr ⟨j, ⟨hge, hj⟩, hc⟩

end CharacterRange
