import V8Speak.DateCalendar

/-!
# The daylight-saving cache is transparent

The offset the operating system gives changes at most once in 19 days
(`ChangesOnce`). Hence if it is the same at two times that are at most 19 days
apart, it is the same between them (`ChangesOnce.eq_of_eq`); and if it is not, then
every time between them is on the side whose offset it has (`ChangesOnce.side`).
The first is why segments may be extended and merged, the second why a binary
search may narrow the gap between them.

Every segment is sound (`DST.Sound`): it is cleared, or the offset is the same in all
of it. A cleared segment begins with the largest time there is, so it is found for
that time, but it is not taken for a segment with times in it, since it ends before
it begins. The two pointers are never to the same segment, and one of them is
replaced only by another segment.
-/

open Option DateCache

/-- **The offset changes at most once** in an interval of `kDefaultDSTDeltaInSec`. -/
def DateCache.ChangesOnce (os : ℤ → ℤ) : Prop :=
  ∀ s t, 0 ≤ s → s ≤ t → t ≤ kMaxEpochTimeInSec → t - s ≤ kDefaultDSTDeltaInSec →
    ∃ change, (∀ x, s ≤ x → x < change → os x = os s) ∧ ∀ x, change ≤ x → x ≤ t → os x = os t

namespace DateCache.ChangesOnce

variable {os : ℤ → ℤ} {s t : ℤ}

theorem eq_of_eq (h : ChangesOnce os) (hs : 0 ≤ s) (hst : s ≤ t) (ht : t ≤ kMaxEpochTimeInSec)
    (hle : t - s ≤ kDefaultDSTDeltaInSec) (heq : os s = os t) {x : ℤ} (hx : s ≤ x) (hx' : x ≤ t) :
    os x = os s := by
  obtain ⟨change, hbefore, hafter⟩ := h s t hs hst ht hle
  rcases lt_or_ge x change with hlt | hge
  · exact hbefore x hx hlt
  · rw [hafter x hge hx', heq]

theorem side (h : ChangesOnce os) (hs : 0 ≤ s) (hst : s ≤ t) (ht : t ≤ kMaxEpochTimeInSec)
    (hle : t - s ≤ kDefaultDSTDeltaInSec) (hne : os s ≠ os t) {m : ℤ} (hm : s ≤ m) (hm' : m ≤ t) :
    (os m = os s ∧ ∀ x, s ≤ x → x ≤ m → os x = os s) ∨
      (os m ≠ os s ∧ ∀ x, m ≤ x → x ≤ t → os x = os t) := by
  obtain ⟨change, hbefore, hafter⟩ := h s t hs hst ht hle
  rcases lt_or_ge m change with hlt | hge
  · exact .inl ⟨hbefore m hm hlt, fun x hx hx' => hbefore x hx (hx'.trans_lt hlt)⟩
  · grind

end DateCache.ChangesOnce

theorem kMaxEpochTimeInSec_eq : kMaxEpochTimeInSec = 2147483647 := rfl

/-! ## Segments -/

variable {os : ℤ → ℤ}

/-- A segment in all of which the offset is the same. -/
structure DST.Constant (os : ℤ → ℤ) (segment : DST) : Prop where
  start_nonneg : 0 ≤ segment.startSec
  start_le : segment.startSec ≤ segment.endSec
  end_le : segment.endSec ≤ kMaxEpochTimeInSec
  offset : ∀ x, segment.startSec ≤ x → x ≤ segment.endSec → os x = segment.offsetMs

/-- A segment is cleared, or the offset is the same in all of it. -/
def DST.Sound (os : ℤ → ℤ) (segment : DST) : Prop :=
  segment.startSec = kMaxEpochTimeInSec ∧ segment.endSec = -kMaxEpochTimeInSec ∨ segment.Constant os

namespace DST

variable {segment : DST}

theorem Constant.not_invalid (h : segment.Constant os) : ¬segment.Invalid := not_lt.mpr h.start_le

theorem Sound.constant (h : segment.Sound os) (hvalid : ¬segment.Invalid) :
    segment.Constant os := by
  rcases h with ⟨hstart, hend⟩ | h
  · rw [Invalid, hstart, hend, kMaxEpochTimeInSec_eq] at hvalid
    omega
  · exact h

theorem Sound.of_invalid (h : segment.Sound os) (hinvalid : segment.Invalid) :
    segment.startSec = kMaxEpochTimeInSec ∧ segment.endSec = -kMaxEpochTimeInSec :=
  h.resolve_right fun hconst => hconst.not_invalid hinvalid

/-- A second that a sound segment has is in a segment with the offset. -/
theorem Sound.offset (h : segment.Sound os) {x : ℤ} (hx : segment.startSec ≤ x)
    (hx' : x ≤ segment.endSec) : os x = segment.offsetMs :=
  (h.constant (not_lt.mpr (hx.trans hx'))).offset x hx hx'

theorem sound_cleared : clearedSegment.Sound os := .inl ⟨rfl, rfl⟩

theorem constant_single {t lastUsed : ℤ} (ht : 0 ≤ t) (ht' : t ≤ kMaxEpochTimeInSec) :
    Constant os ⟨t, t, os t, lastUsed⟩ :=
  ⟨ht, le_rfl, ht', fun x hx hx' => by rw [le_antisymm hx' hx]⟩

end DST

/-! ## Writing to segments -/

namespace DstCache

variable {c c' : DstCache} {i j : Fin kDSTSize} {segment : DST}

/-- All segments are sound. -/
def Sound (os : ℤ → ℤ) (c : DstCache) : Prop := ∀ i, (c.dst i).Sound os

theorem Sound.beforeSegment (h : c.Sound os) : c.beforeSegment.Sound os := h c.before

theorem Sound.afterSegment (h : c.Sound os) : c.afterSegment.Sound os := h c.after

@[simp]
theorem set_self : (c.set i segment).dst i = segment := Function.update_self ..

theorem set_of_ne (h : j ≠ i) : (c.set i segment).dst j = c.dst j := Function.update_of_ne h ..

theorem Sound.set (h : c.Sound os) (hs : segment.Sound os) : (c.set i segment).Sound os :=
    fun j => by
  by_cases hj : j = i
  · rw [hj, set_self]
    exact hs
  · rw [set_of_ne hj]
    exact h j

theorem Sound.clearSegment (h : c.Sound os) : (c.clearSegment i).Sound os := h.set DST.sound_cleared

theorem use_self : (c.use i).dst i = { c.dst i with lastUsed := c.dstUsageCounter + 1 } :=
  set_self

theorem use_of_ne (h : j ≠ i) : (c.use i).dst j = c.dst j := set_of_ne h

theorem Sound.use (h : c.Sound os) : (c.use i).Sound os := by
  refine Sound.set h ?_
  rcases h i with hcleared | hconst
  · exact .inl hcleared
  · exact .inr ⟨hconst.start_nonneg, hconst.start_le, hconst.end_le, hconst.offset⟩

variable {t o : ℤ}

theorem fill_self : ∃ lastUsed, (c.fill i t o).dst i = ⟨t, t, o, lastUsed⟩ := by
  refine ⟨c.dstUsageCounter + 1, ?_⟩
  rw [fill, use_self, set_self]
  rfl

theorem fill_of_ne (h : j ≠ i) : (c.fill i t o).dst j = c.dst j := by
  rw [fill, use_of_ne h, set_of_ne h]

theorem Sound.fill (h : c.Sound os) {t : ℤ} (ht : 0 ≤ t) (ht' : t ≤ kMaxEpochTimeInSec) :
    (c.fill i t (os t)).Sound os :=
  Sound.use (h.set (.inr (DST.constant_single ht ht')))

/-! ## Recycling segments -/

variable (l : List (Fin kDSTSize))

/-- The segment used least recently is not the one to skip. -/
theorem leastRecentlyUsed_foldl {skip result : Option (Fin kDSTSize)}
    (hresult : ∀ r ∈ result, some r ≠ skip)
    (hsome : result.isSome = true ∨ ∃ i ∈ l, some i ≠ skip) :
    ∃ r, l.foldl (c.leastRecentlyUsedStep skip) result = some r ∧ some r ≠ skip := by
  induction l generalizing result with
  | nil =>
    rcases hsome with hsome | ⟨i, hi, -⟩
    · obtain ⟨r, rfl⟩ := isSome_iff_exists.mp hsome
      exact ⟨r, rfl, hresult r rfl⟩
    · exact nomatch hi
  | cons i l ih =>
    rw [List.foldl_cons]
    by_cases hskip : some i = skip
    · have hstep : c.leastRecentlyUsedStep skip result i = result := if_pos hskip
      rw [hstep]
      refine ih hresult (hsome.imp_right ?_)
      rintro ⟨j, hj, hne⟩
      rcases List.mem_cons.mp hj with rfl | hj
      · exact absurd hskip hne
      · exact ⟨j, hj, hne⟩
    · have hstep : ∃ r, c.leastRecentlyUsedStep skip result i = some r ∧ some r ≠ skip := by
        unfold leastRecentlyUsedStep
        rw [if_neg hskip]
        cases result with
        | none => exact ⟨i, rfl, hskip⟩
        | some r => grind
      obtain ⟨r, hr, hne⟩ := hstep
      rw [hr]
      exact ih (fun r' hr' => Option.some.inj hr' ▸ hne) (.inl rfl)

theorem leastRecentlyUsedDST_spec (c : DstCache) (skip : Option (Fin kDSTSize)) :
    ∃ i, c.leastRecentlyUsedDST skip = some (i, c.clearSegment i) ∧ some i ≠ skip := by
  have hother : ∃ i ∈ List.finRange kDSTSize, some i ≠ skip := by
    by_cases h0 : some 0 = skip
    · exact ⟨1, List.mem_finRange _, h0 ▸ by decide⟩
    · exact ⟨0, List.mem_finRange _, h0⟩
  obtain ⟨i, hi, hne⟩ := leastRecentlyUsed_foldl (List.finRange kDSTSize)
    (fun r (hr : r ∈ none) => nomatch hr) (.inr hother)
  exact ⟨i, by rw [leastRecentlyUsedDST, hi]; rfl, hne⟩

/-! ## Probing -/

variable {timeSec : ℤ}

/-- The segments the loop of `ProbeDST` looks for: one that begins before the time,
and one that begins and ends after it. -/
structure Found (c : DstCache) (timeSec : ℤ)
    (found : Option (Fin kDSTSize) × Option (Fin kDSTSize)) : Prop where
  before : ∀ i ∈ found.1, (c.dst i).startSec ≤ timeSec
  after : ∀ i ∈ found.2, timeSec < (c.dst i).startSec ∧ timeSec < (c.dst i).endSec

variable {found : Option (Fin kDSTSize) × Option (Fin kDSTSize)}

theorem Found.probeStep (h : c.Found timeSec found) (i : Fin kDSTSize) :
    c.Found timeSec (c.probeStep timeSec found i) := by
  unfold DstCache.probeStep
  split
  · next hle =>
    split
    · exact ⟨fun j hj => Option.some.inj hj ▸ hle, h.after⟩
    · exact h
  · next hgt =>
    split
    · next hend =>
      split
      · exact ⟨h.before, fun j hj => Option.some.inj hj ▸ ⟨not_le.mp hgt, hend⟩⟩
      · exact h
    · exact h

theorem Found.foldl (h : c.Found timeSec found) :
    c.Found timeSec (l.foldl (c.probeStep timeSec) found) := by
  induction l generalizing found with
  | nil => exact h
  | cons i l ih => exact ih (h.probeStep i)

/-- The two pointers around a time. -/
structure Around (os : ℤ → ℤ) (c : DstCache) (timeSec : ℤ) : Prop where
  sound : c.Sound os
  ne : c.before ≠ c.after
  before : c.beforeSegment.Invalid ∨ c.beforeSegment.startSec ≤ timeSec
  after : timeSec ≤ c.afterSegment.startSec

theorem probeBefore_spec (h : c.Sound os) (ht : 0 ≤ timeSec) (hfound : c.Found timeSec found) :
    ∃ before c', c.probeBefore found = some (before, c') ∧ c'.Sound os ∧
      c'.dstUsageCounter = c.dstUsageCounter ∧
      ((c'.dst before).Invalid ∨ (c'.dst before).startSec ≤ timeSec) ∧
      ∀ i ∈ found.2, before ≠ i ∧ timeSec < (c'.dst i).startSec := by
  obtain ⟨b, after⟩ := found
  cases b with
  | some before =>
    refine ⟨before, c, rfl, h, rfl, .inr (hfound.before before rfl), fun i hi => ⟨?_, ?_⟩⟩
    · rintro rfl
      exact absurd (hfound.before before rfl) (not_le.mpr (hfound.after before hi).1)
    · exact (hfound.after i hi).1
  | none =>
    rw [probeBefore]
    split
    · next hinvalid =>
      refine ⟨c.before, c, rfl, h, rfl, .inl hinvalid, fun i hi => ⟨?_, (hfound.after i hi).1⟩⟩
      -- the segment that was found has a time in it
      rintro rfl
      have hend := ((h c.before).of_invalid hinvalid).2
      have hlt := (hfound.after c.before hi).2
      rw [hend, kMaxEpochTimeInSec_eq] at hlt
      omega
    · obtain ⟨i, hr, hne⟩ := c.leastRecentlyUsedDST_spec after
      have hcleared : ((c.clearSegment i).dst i).Invalid := by
        rw [clearSegment, set_self]
        decide
      refine ⟨i, c.clearSegment i, hr, h.clearSegment, rfl, .inl hcleared, fun j hj => ?_⟩
      have hij : i ≠ j := fun hij => hne (hij ▸ hj.symm)
      rw [clearSegment, set_of_ne hij.symm]
      exact ⟨hij, (hfound.after j hj).1⟩

theorem probeAfter_spec (h : c.Sound os) (ht : timeSec ≤ kMaxEpochTimeInSec)
    {before : Fin kDSTSize} (hbefore : (c.dst before).Invalid ∨ (c.dst before).startSec ≤ timeSec)
    {found : Option (Fin kDSTSize)}
    (hfound : ∀ i ∈ found, before ≠ i ∧ timeSec < (c.dst i).startSec) :
    ∃ after c', c.probeAfter before found = some (after, c') ∧
      Around os { c' with before, after } timeSec ∧ c'.dstUsageCounter = c.dstUsageCounter := by
  cases found with
  | some after =>
    obtain ⟨hne, hlt⟩ := hfound after rfl
    exact ⟨after, c, rfl, ⟨h, hne, hbefore, hlt.le⟩, rfl⟩
  | none =>
    rw [probeAfter]
    split
    · next hinvalid =>
      refine ⟨c.after, c, rfl, ⟨h, hinvalid.2, hbefore, ?_⟩, rfl⟩
      show timeSec ≤ (c.dst c.after).startSec
      rwa [((h c.after).of_invalid hinvalid.1).1]
    · obtain ⟨i, hr, hne⟩ := c.leastRecentlyUsedDST_spec (some before)
      have hib : before ≠ i := fun hib => hne (hib ▸ rfl)
      refine ⟨i, c.clearSegment i, hr, ⟨h.clearSegment, hib, ?_, ?_⟩, rfl⟩
      · show ((c.clearSegment i).dst before).Invalid ∨ ((c.clearSegment i).dst before).startSec ≤ _
        rwa [clearSegment, set_of_ne hib]
      · show timeSec ≤ ((c.clearSegment i).dst i).startSec
        rwa [clearSegment, set_self]

/-- **`ProbeDST`** finds two segments around the time, or clears some. -/
theorem probeDST_spec (h : c.Sound os) (ht : 0 ≤ timeSec) (ht' : timeSec ≤ kMaxEpochTimeInSec) :
    ∃ c', c.probeDST timeSec = some c' ∧ c'.Around os timeSec ∧
      c'.dstUsageCounter = c.dstUsageCounter := by
  have hfound : c.Found timeSec ((List.finRange kDSTSize).foldl (c.probeStep timeSec) (none, none)) :=
    Found.foldl _ ⟨(fun _ hi => nomatch hi), fun _ hi => nomatch hi⟩
  obtain ⟨before, c₁, hr₁, h₁, hcounter₁, hbefore, hafter⟩ := probeBefore_spec h ht hfound
  obtain ⟨after, c₂, hr₂, haround, hcounter₂⟩ := probeAfter_spec h₁ ht' hbefore hafter
  refine ⟨{ c₂ with before, after }, ?_, haround, hcounter₂.trans hcounter₁⟩
  unfold probeDST
  simp only [hr₁, hr₂, Option.bind_eq_bind, Option.bind_some]

/-! ## Extending the segment after -/

/-- What extending does: the segment after begins at the time. -/
structure Extends (os : ℤ → ℤ) (c : DstCache) (timeSec : ℤ) (c' : DstCache) : Prop where
  sound : c'.Sound os
  ne : c'.before ≠ c'.after
  before : c'.before = c.before
  beforeSegment : c'.beforeSegment = c.beforeSegment
  constant : c'.afterSegment.Constant os
  startSec : c'.afterSegment.startSec = timeSec
  counter : c'.dstUsageCounter ≤ c.dstUsageCounter + 1

theorem extends_fill (h : c.Sound os) (hne : c.before ≠ c.after) (ht : 0 ≤ timeSec)
    (ht' : timeSec ≤ kMaxEpochTimeInSec) :
    c.Extends os timeSec (c.fill c.after timeSec (os timeSec)) := by
  obtain ⟨lastUsed, hself⟩ := fill_self (c := c) (i := c.after) (t := timeSec) (o := os timeSec)
  have hafter : (c.fill c.after timeSec (os timeSec)).afterSegment =
      ⟨timeSec, timeSec, os timeSec, lastUsed⟩ := hself
  refine ⟨h.fill ht ht', hne, rfl, fill_of_ne hne, ?_, ?_, le_rfl⟩
  · rw [hafter]
    exact DST.constant_single ht ht'
  · rw [hafter]

/-- A segment to write to. -/
theorem replaceAfter_spec (h : c.Sound os) (hne : c.before ≠ c.after) :
    ∃ c', c.replaceAfter = some c' ∧ c'.Sound os ∧ c'.before ≠ c'.after ∧ c'.before = c.before ∧
      c'.beforeSegment = c.beforeSegment ∧ c'.dstUsageCounter = c.dstUsageCounter := by
  unfold replaceAfter
  split
  · obtain ⟨i, hr, hi⟩ := c.leastRecentlyUsedDST_spec (some c.before)
    have hib : c.before ≠ i := fun hib => hi (hib ▸ rfl)
    rw [hr]
    exact ⟨{ c.clearSegment i with after := i }, rfl, h.clearSegment, hib, rfl, set_of_ne hib, rfl⟩
  · exact ⟨c, rfl, h, hne, rfl, rfl, rfl⟩

/-- **`ExtendTheAfterSegment`**: a segment that begins at most 19 days later with the
same offset is extended, as the offset does not change between. -/
theorem extendTheAfterSegment_spec (hos : ChangesOnce os) (h : c.Sound os)
    (hne : c.before ≠ c.after) (ht : 0 ≤ timeSec) (ht' : timeSec ≤ kMaxEpochTimeInSec)
    (hle : timeSec ≤ c.afterSegment.startSec) :
    ∃ c', c.extendTheAfterSegment timeSec (os timeSec) = some c' ∧ c.Extends os timeSec c' := by
  unfold extendTheAfterSegment
  split
  · next hextend =>
    obtain ⟨hoffset, hnear, hend⟩ := hextend
    have hvalid : ¬c.afterSegment.Invalid := fun hinvalid => by
      rw [(h.afterSegment.of_invalid hinvalid).2, kMaxEpochTimeInSec_eq] at hend
      omega
    have hconst := h.afterSegment.constant hvalid
    have hconst' : DST.Constant os { c.afterSegment with startSec := timeSec } := by
      refine ⟨ht, hend, hconst.end_le, fun x hx hx' => ?_⟩
      rcases le_or_gt x c.afterSegment.startSec with hbefore | hgt
      · rw [hos.eq_of_eq ht hle (hconst.start_le.trans hconst.end_le) (by omega) ?_ hx hbefore,
          ← hoffset]
        rw [← hoffset]
        exact (hconst.offset _ le_rfl hconst.start_le).symm
      · exact hconst.offset x hgt.le hx'
    refine ⟨_, rfl, h.set (.inr hconst'), hne, rfl, set_of_ne hne, ?_, ?_, ?_⟩
    · show ((c.set c.after _).dst c.after).Constant os
      rwa [set_self]
    · show ((c.set c.after _).dst c.after).startSec = timeSec
      rw [set_self]
    · exact Int.le_add_one le_rfl
  · obtain ⟨c₁, hr, h₁, hne₁, hbefore, hsegment, hcounter⟩ := replaceAfter_spec h hne
    rw [hr]
    obtain ⟨hsound, hne', hbefore', hsegment', hconst, hstart, hcounter'⟩ :=
      extends_fill h₁ hne₁ ht ht'
    exact ⟨_, rfl, hsound, hne', hbefore'.trans hbefore, hsegment'.trans hsegment, hconst, hstart,
      hcounter ▸ hcounter'⟩

/-! ## The binary search -/

/-- Both segments have times in them, the time is between them, and they are at most
19 days apart. -/
structure Gap (os : ℤ → ℤ) (c : DstCache) (timeSec : ℤ) : Prop where
  sound : c.Sound os
  ne : c.before ≠ c.after
  before : c.beforeSegment.Constant os
  after : c.afterSegment.Constant os
  lt : c.beforeSegment.endSec < timeSec
  le : timeSec ≤ c.afterSegment.startSec
  near : c.afterSegment.startSec - c.beforeSegment.endSec ≤ kDefaultDSTDeltaInSec

/-- An answer with the offset of the time, and the cache after it. -/
structure Answers (os : ℤ → ℤ) (timeSec : ℤ) (answer : Answer × DstCache) : Prop where
  sound : answer.2.Sound os
  ne : answer.2.before ≠ answer.2.after
  offset : answer.1 = .offset (os timeSec)

theorem Gap.os_before (h : c.Gap os timeSec) :
    os c.beforeSegment.endSec = c.beforeSegment.offsetMs :=
  h.before.offset _ h.before.start_le le_rfl

theorem Gap.os_after (h : c.Gap os timeSec) :
    os c.afterSegment.startSec = c.afterSegment.offsetMs :=
  h.after.offset _ le_rfl h.after.start_le

/-- The segment before is extended up to a time with its offset. -/
theorem Gap.extendBefore (hos : ChangesOnce os) (h : c.Gap os timeSec)
    (hne : c.beforeSegment.offsetMs ≠ c.afterSegment.offsetMs) {m : ℤ}
    (hm : c.beforeSegment.endSec ≤ m) (hm' : m ≤ c.afterSegment.startSec) :
    (c.beforeSegment.offsetMs = os m → DST.Constant os { c.beforeSegment with endSec := m }) ∧
    (c.beforeSegment.offsetMs ≠ os m → DST.Constant os { c.afterSegment with startSec := m }) := by
  have hside := hos.side (h.before.start_nonneg.trans h.before.start_le) (h.lt.le.trans h.le)
    (h.after.start_le.trans h.after.end_le) h.near
    (by rw [h.os_before, h.os_after]; exact hne) hm hm'
  rw [h.os_before, h.os_after] at hside
  constructor
  · intro heq
    obtain ⟨-, hconst⟩ := hside.resolve_right fun hright => hright.1 heq.symm
    refine ⟨h.before.start_nonneg, h.before.start_le.trans hm,
      hm'.trans (h.after.start_le.trans h.after.end_le), fun x hx hx' => ?_⟩
    rcases le_or_gt x c.beforeSegment.endSec with hle | hgt
    · exact h.before.offset x hx hle
    · exact hconst x hgt.le hx'
  · intro hneq
    obtain ⟨-, hconst⟩ := hside.resolve_left fun hleft => hneq hleft.1.symm
    refine ⟨(h.before.start_nonneg.trans h.before.start_le).trans hm, hm'.trans h.after.start_le,
      h.after.end_le, fun x hx hx' => ?_⟩
    rcases le_or_gt x c.afterSegment.startSec with hle | hgt
    · exact hconst x hx hle
    · exact h.after.offset x hgt.le hx'

/-- One end of the gap moves to a time in it. -/
theorem Gap.narrow (h : c.Gap os timeSec) {m : ℤ} (hm : c.beforeSegment.endSec ≤ m)
    (hm' : m ≤ c.afterSegment.startSec) :
    (DST.Constant os { c.beforeSegment with endSec := m } → m < timeSec →
      (c.set c.before { c.beforeSegment with endSec := m }).Gap os timeSec) ∧
    (DST.Constant os { c.afterSegment with startSec := m } → timeSec < m →
      (c.set c.after { c.afterSegment with startSec := m }).Gap os timeSec) := by
  have hnear := h.near
  constructor
  · intro hconst hlt
    have hbefore : (c.set c.before { c.beforeSegment with endSec := m }).beforeSegment =
        { c.beforeSegment with endSec := m } := set_self
    have hafter : (c.set c.before { c.beforeSegment with endSec := m }).afterSegment =
        c.afterSegment := set_of_ne h.ne.symm
    refine ⟨h.sound.set (.inr hconst), h.ne, by rw [hbefore]; exact hconst, hafter ▸ h.after, ?_,
      hafter ▸ h.le, ?_⟩
    · grind
    · grind
  · intro hconst hlt
    have hbefore : (c.set c.after { c.afterSegment with startSec := m }).beforeSegment =
        c.beforeSegment := set_of_ne h.ne
    have hafter : (c.set c.after { c.afterSegment with startSec := m }).afterSegment =
        { c.afterSegment with startSec := m } := set_self
    refine ⟨h.sound.set (.inr hconst), h.ne, hbefore ▸ h.before, by rw [hafter]; exact hconst,
      hbefore ▸ h.lt, ?_, ?_⟩
    · grind
    · grind

variable (hos : ChangesOnce os)
include hos

/-- An iteration of the binary search: an answer, or a smaller gap. -/
theorem bisect_step (i : ℕ) (h : c.Gap os timeSec)
    (hne : c.beforeSegment.offsetMs ≠ c.afterSegment.offsetMs) :
    (Answers os timeSec (bisect os timeSec (i + 1) c) ∧
      (bisect os timeSec (i + 1) c).2.dstUsageCounter = c.dstUsageCounter) ∨
    i ≠ 0 ∧ ∃ c', bisect os timeSec (i + 1) c = bisect os timeSec i c' ∧ c'.Gap os timeSec ∧
      c'.beforeSegment.offsetMs ≠ c'.afterSegment.offsetMs ∧
      c'.dstUsageCounter = c.dstUsageCounter := by
  rw [bisect]
  dsimp only
  have hlt := h.lt
  have hle := h.le
  generalize hmid : (if i = 0 then timeSec else c.beforeSegment.endSec +
    (c.afterSegment.startSec - c.beforeSegment.endSec).tdiv 2) = m
  have hm : c.beforeSegment.endSec ≤ m ∧ m ≤ c.afterSegment.startSec ∧ (i = 0 → m = timeSec) := by
    rw [Int.tdiv_eq_ediv_of_nonneg (by omega)] at hmid
    split at hmid <;> omega
  obtain ⟨hbefore, hafter⟩ := h.extendBefore hos hne hm.1 hm.2.1
  obtain ⟨hnarrow, hnarrow'⟩ := h.narrow hm.1 hm.2.1
  by_cases heq : c.beforeSegment.offsetMs = os m
  · have hconst := hbefore heq
    have hbefore' : (c.set c.before { c.beforeSegment with endSec := m }).beforeSegment =
        { c.beforeSegment with endSec := m } := set_self
    have hafter' : (c.set c.before { c.beforeSegment with endSec := m }).afterSegment =
        c.afterSegment := set_of_ne h.ne.symm
    rw [if_pos heq, hbefore']
    by_cases hle' : timeSec ≤ m
    · rw [if_pos hle']
      refine .inl ⟨⟨h.sound.set (.inr hconst), h.ne, ?_⟩, rfl⟩
      have hstart := h.before.start_le
      rw [hconst.offset timeSec (by dsimp only; omega) hle', ← heq]
    · rw [if_neg hle']
      refine .inr ⟨fun hi => hle' (hm.2.2 hi).ge, _, rfl, hnarrow hconst (not_le.mp hle'), ?_, rfl⟩
      rw [hbefore', hafter']
      exact hne
  · have hconst := hafter heq
    have hbefore' : (c.set c.after { c.afterSegment with startSec := m }).beforeSegment =
        c.beforeSegment := set_of_ne h.ne
    have hafter' : (c.set c.after { c.afterSegment with startSec := m }).afterSegment =
        { c.afterSegment with startSec := m } := set_self
    rw [if_neg heq, hafter']
    by_cases hge : timeSec ≥ m
    · rw [if_pos hge]
      refine .inl ⟨⟨h.sound.set (.inr hconst), h.ne.symm, ?_⟩, rfl⟩
      have hend := h.after.start_le
      rw [hconst.offset timeSec hge (by dsimp only; omega),
        hconst.offset m le_rfl (by dsimp only; omega)]
    · rw [if_neg hge]
      refine .inr ⟨fun hi => hge (hm.2.2 hi).le, _, rfl, hnarrow' hconst (not_le.mp hge), ?_, rfl⟩
      rw [hbefore', hafter']
      exact hne

/-- **The binary search** ends with an answer: in its last iteration it asks for the
time itself. -/
theorem bisect_answers (n : ℕ) (h : c.Gap os timeSec)
    (hne : c.beforeSegment.offsetMs ≠ c.afterSegment.offsetMs) :
    Answers os timeSec (bisect os timeSec (n + 1) c) ∧
      (bisect os timeSec (n + 1) c).2.dstUsageCounter = c.dstUsageCounter := by
  induction n generalizing c with
  | zero => exact (bisect_step hos 0 h hne).resolve_right fun hright => hright.1 rfl
  | succ n ih =>
    rcases bisect_step hos (n + 1) h hne with hanswers | ⟨-, c', hstep, hgap, hne', hcounter⟩
    · exact hanswers
    · grind

/-! ## Queries -/

/-- The segments with the same offset are one. -/
theorem Gap.merge (h : c.Gap os timeSec)
    (heq : c.beforeSegment.offsetMs = c.afterSegment.offsetMs) :
    DST.Constant os { c.beforeSegment with endSec := c.afterSegment.endSec } := by
  have hlt := h.lt
  have hle := h.le
  have hbefore := h.before.start_le
  have hafter := h.after.start_le
  refine ⟨h.before.start_nonneg, by dsimp only; omega, h.after.end_le, fun x hx hx' => ?_⟩
  rcases le_or_gt x c.beforeSegment.endSec with hx₁ | hx₁
  · exact h.before.offset x hx hx₁
  rcases le_or_gt c.afterSegment.startSec x with hx₂ | hx₂
  · exact (h.after.offset x hx₂ hx').trans heq.symm
  · rw [hos.eq_of_eq (h.before.start_nonneg.trans hbefore) (by omega)
      (hafter.trans h.after.end_le) h.near (by rw [h.os_before, h.os_after, heq]) hx₁.le hx₂.le,
      h.os_before]

theorem offsetBetween_answers (h : c.Gap os timeSec) :
    Answers os timeSec (c.offsetBetween os timeSec) ∧
      (c.offsetBetween os timeSec).2.dstUsageCounter = c.dstUsageCounter := by
  unfold offsetBetween
  split
  · next heq =>
    have hconst := h.merge hos heq
    refine ⟨⟨(h.sound.set (.inr hconst)).clearSegment, h.ne, ?_⟩, rfl⟩
    have hbefore : ((c.set c.before { c.beforeSegment with endSec := c.afterSegment.endSec }).clearSegment
        c.after).beforeSegment = { c.beforeSegment with endSec := c.afterSegment.endSec } :=
      (set_of_ne h.ne).trans set_self
    have hlt := h.lt
    have hle := h.le
    have hstart := h.before.start_le
    have hend := h.after.start_le
    rw [hconst.offset timeSec (by dsimp only; omega) (by dsimp only; omega)]
    exact congrArg (fun segment => Answer.offset segment.offsetMs) hbefore
  · next hne => exact bisect_answers hos 4 h hne

/-- The segment after is brought near to the segment before. -/
theorem closeAfter_gap (h : c.Around os timeSec)
    (ht : timeSec ≤ kMaxEpochTimeInSec) (hconst : c.beforeSegment.Constant os)
    (hlt : c.beforeSegment.endSec < timeSec)
    (hle : timeSec ≤ c.beforeSegment.endSec + kDefaultDSTDeltaInSec) :
    ∃ c', c.closeAfter os = some c' ∧ c'.Gap os timeSec ∧
      c'.dstUsageCounter ≤ c.dstUsageCounter + 1 := by
  have hnonneg := hconst.start_nonneg.trans hconst.start_le
  unfold closeAfter
  generalize hnext : (if c.beforeSegment.endSec < kMaxEpochTimeInSec - kDefaultDSTDeltaInSec then
    c.beforeSegment.endSec + kDefaultDSTDeltaInSec else kMaxEpochTimeInSec) = new
  obtain ⟨hnew, hnew_near, hnew_max⟩ : timeSec ≤ new ∧
      new ≤ c.beforeSegment.endSec + kDefaultDSTDeltaInSec ∧ new ≤ kMaxEpochTimeInSec := by
    split at hnext <;> omega
  by_cases hstart : new ≤ c.afterSegment.startSec
  · rw [if_pos hstart]
    obtain ⟨c', hr, hext⟩ := extendTheAfterSegment_spec hos h.sound h.ne (by omega) hnew_max hstart
    refine ⟨c', hr, ⟨hext.sound, hext.ne, ?_, hext.constant, ?_, ?_, ?_⟩, hext.counter⟩
    · rwa [hext.beforeSegment]
    · rwa [hext.beforeSegment]
    · rwa [hext.startSec]
    · rw [hext.startSec, hext.beforeSegment]
      omega
  · rw [if_neg hstart]
    have hafter : c.afterSegment.Constant os := h.sound.afterSegment.constant fun hinvalid =>
      hstart ((h.sound.afterSegment.of_invalid hinvalid).1 ▸ hnew_max)
    have hbefore' : (c.use c.after).beforeSegment = c.beforeSegment := use_of_ne h.ne
    have hafter' : (c.use c.after).afterSegment =
        { c.afterSegment with lastUsed := c.dstUsageCounter + 1 } := use_self
    refine ⟨_, rfl, ⟨h.sound.use, h.ne, ?_, ?_, ?_, ?_, ?_⟩, le_rfl⟩
    · rwa [hbefore']
    · rw [hafter']
      exact ⟨hafter.start_nonneg, hafter.start_le, hafter.end_le, hafter.offset⟩
    · rwa [hbefore']
    · rw [hafter']
      exact h.after
    · grind

/-- **The offset of a time that has been probed for.** -/
theorem offsetProbed_answers (h : c.Around os timeSec) (ht : 0 ≤ timeSec)
    (ht' : timeSec ≤ kMaxEpochTimeInSec) :
    ∃ answer, c.offsetProbed os timeSec = some answer ∧ Answers os timeSec answer ∧
      answer.2.dstUsageCounter ≤ c.dstUsageCounter + 2 := by
  unfold offsetProbed
  by_cases hinvalid : c.beforeSegment.Invalid
  · rw [if_pos hinvalid]
    obtain ⟨lastUsed, hself⟩ :=
      fill_self (c := c) (i := c.before) (t := timeSec) (o := os timeSec)
    refine ⟨_, rfl, ⟨h.sound.fill ht ht', h.ne, ?_⟩, ?_⟩
    · exact congrArg (fun segment => Answer.offset segment.offsetMs) hself
    · show c.dstUsageCounter + 1 ≤ _
      omega
  rw [if_neg hinvalid]
  have hconst := h.sound.beforeSegment.constant hinvalid
  have hstart := h.before.resolve_left hinvalid
  by_cases hhit : timeSec ≤ c.beforeSegment.endSec
  · rw [if_pos hhit]
    refine ⟨_, rfl, ⟨h.sound.use, h.ne, ?_⟩, ?_⟩
    · rw [hconst.offset timeSec hstart hhit]
    · show c.dstUsageCounter + 1 ≤ _
      omega
  rw [if_neg hhit]
  by_cases hfar : timeSec - kDefaultDSTDeltaInSec > c.beforeSegment.endSec
  · rw [if_pos hfar]
    obtain ⟨c', hr, hext⟩ := extendTheAfterSegment_spec hos h.sound h.ne ht ht' h.after
    have hcounter := hext.counter
    refine ⟨(.offset (os timeSec), c'.swap), ?_, ⟨hext.sound, hext.ne.symm, rfl⟩, ?_⟩
    · simp only [hr, Option.bind_eq_bind, Option.bind_some]
    · show c'.dstUsageCounter ≤ _
      omega
  · rw [if_neg hfar]
    have hbefore : (c.use c.before).beforeSegment =
        { c.beforeSegment with lastUsed := c.dstUsageCounter + 1 } := use_self
    have hafter : (c.use c.before).afterSegment = c.afterSegment := use_of_ne h.ne.symm
    have haround : (c.use c.before).Around os timeSec := by
      refine ⟨h.sound.use, h.ne, ?_, ?_⟩
      · grind
      · rw [hafter]
        exact h.after
    obtain ⟨c', hr, hgap, hcounter⟩ := closeAfter_gap hos haround ht'
      (by rw [hbefore]; exact ⟨hconst.start_nonneg, hconst.start_le, hconst.end_le, hconst.offset⟩)
      (by rw [hbefore]; exact not_le.mp hhit) (by rw [hbefore]; dsimp only; omega)
    obtain ⟨hanswers, hcounter'⟩ := offsetBetween_answers hos hgap
    refine ⟨c'.offsetBetween os timeSec, ?_, hanswers, ?_⟩
    · simp only [hr, Option.bind_eq_bind, Option.bind_some]
    · have : (c.use c.before).dstUsageCounter = c.dstUsageCounter + 1 := rfl
      omega

omit hos

/-- What holds between queries. The usage counter does not overflow within one. -/
structure Invariant (os : ℤ → ℤ) (c : DstCache) : Prop where
  sound : c.Sound os
  ne : c.before ≠ c.after
  counter : c.dstUsageCounter ≤ kMaxInt - 9

/-- **A query** is answered with the offset of the time. -/
theorem offsetAt_spec (hos : ChangesOnce os) (h : c.Invariant os) (ht : 0 ≤ timeSec)
    (ht' : timeSec ≤ kMaxEpochTimeInSec) :
    ∃ c', c.offsetAt os timeSec = some (.offset (os timeSec), c') ∧ c'.Invariant os := by
  unfold offsetAt
  dsimp only
  have hrestart : (if c.dstUsageCounter ≥ kMaxInt - 10 then c.restart else c).Sound os ∧
      (if c.dstUsageCounter ≥ kMaxInt - 10 then c.restart else c).before ≠
        (if c.dstUsageCounter ≥ kMaxInt - 10 then c.restart else c).after ∧
      (if c.dstUsageCounter ≥ kMaxInt - 10 then c.restart else c).dstUsageCounter ≤
        kMaxInt - 11 := by
    split
    · exact ⟨fun _ => DST.sound_cleared, h.ne, show (0 : ℤ) ≤ kMaxInt - 11 by decide⟩
    · exact ⟨h.sound, h.ne, by omega⟩
  generalize (if c.dstUsageCounter ≥ kMaxInt - 10 then c.restart else c) = c₀ at hrestart ⊢
  obtain ⟨hsound, hne, hcounter⟩ := hrestart
  split
  · next hhit =>
    refine ⟨c₀.use c₀.before, ?_, hsound.use, hne, ?_⟩
    · rw [hsound.beforeSegment.offset hhit.1 hhit.2]
    · show c₀.dstUsageCounter + 1 ≤ _
      omega
  · obtain ⟨c₁, hr₁, haround, hcounter₁⟩ := probeDST_spec hsound ht ht'
    obtain ⟨⟨answer, c₂⟩, hr₂, ⟨hsound₂, hne₂, hoffset⟩, hcounter₂⟩ :=
      offsetProbed_answers hos haround ht ht'
    dsimp only at hsound₂ hne₂ hoffset hcounter₂
    subst hoffset
    refine ⟨c₂, ?_, hsound₂, hne₂, by omega⟩
    simp only [hr₁, hr₂, Option.bind_eq_bind, Option.bind_some]

end DstCache

/-! ## Runs -/

namespace DateCache

variable {c c' : DateCache} {timeMs : ℤ}

/-- The time a query is for, in seconds: its own, or that of its equivalent. -/
structure QueryTime (c : YmdCache) (timeMs timeSec : ℤ) : Prop where
  nonneg : 0 ≤ timeSec
  le : timeSec ≤ kMaxEpochTimeInSec
  inRange : 0 ≤ timeMs ∧ timeMs ≤ kMaxEpochTimeInMs → timeSec = timeMs / 1000
  outOfRange : ¬(0 ≤ timeMs ∧ timeMs ≤ kMaxEpochTimeInMs) →
    ∃ time ymd, c.equivalentTime timeMs = some (time, ymd) ∧ timeSec = time / 1000

theorem osTime_spec {c : YmdCache} (h : c.Valid) (ht : LegalTime timeMs) :
    ∃ timeSec ymd, osTime c timeMs = some (timeSec, ymd) ∧ QueryTime c timeMs timeSec := by
  have hmax : kMaxEpochTimeInSec = 2147483647 := rfl
  have hmax_ms : kMaxEpochTimeInMs = 2147483647000 := rfl
  unfold osTime
  split
  · next hrange =>
    rw [Int.tdiv_eq_ediv_of_nonneg hrange.1, castInt_of_fits (by omega)]
    exact ⟨_, c, rfl, by omega, by omega, fun _ => rfl, fun hout => absurd hrange (hmax_ms ▸ hout)⟩
  · next hrange =>
    obtain ⟨time, ymd, date, date', hr, -, hnumber, -, -, hlow, hhigh, -⟩ :=
      YmdCache.equivalentTime_equivalent h ht
    -- the seconds of the years from 2008 to 2035
    have hbounds := YmdCache.dayNumber_bounds date'
    rw [Gregorian.firstOfYear_eq, Gregorian.closedForm, hnumber] at hbounds
    rw [hr, Option.bind_eq_bind, Option.bind_some]
    dsimp only
    rw [Int.tdiv_eq_ediv_of_nonneg (by omega), castInt_of_fits (by omega)]
    exact ⟨_, ymd, rfl, by omega, by omega, fun hin => absurd hin hrange,
      fun _ => ⟨time, ymd, hr, rfl⟩⟩

/-- A query keeps the invariant, and is answered with the offset of its time. -/
theorem daylightSavingsOffsetInMs_spec (hos : ChangesOnce os) (hvalid : c.toYmdCache.Valid)
    (h : c.toDstCache.Invariant os) (ht : LegalTime timeMs) :
    ∃ timeSec c', c.daylightSavingsOffsetInMs os timeMs = some (.offset (os timeSec), c') ∧
      QueryTime c.toYmdCache timeMs timeSec ∧ c'.toDstCache.Invariant os := by
  obtain ⟨timeSec, ymd, hr, htime⟩ := osTime_spec hvalid ht
  obtain ⟨dst, hr', h'⟩ := DstCache.offsetAt_spec hos h htime.nonneg htime.le
  refine ⟨timeSec, ⟨ymd, dst⟩, ?_, htime, h'⟩
  unfold daylightSavingsOffsetInMs
  simp only [hr, hr', Option.bind_eq_bind, Option.bind_some]

theorem resetDateCache_invariant (os : ℤ → ℤ) (c : DateCache) :
    c.resetDateCache.toDstCache.Invariant os :=
  ⟨fun _ => DST.sound_cleared, show (0 : Fin kDSTSize) ≠ 1 by decide,
    show (0 : ℤ) ≤ kMaxInt - 9 by decide⟩

/-- Every call keeps the segments sound. -/
theorem run_invariant (hos : ChangesOnce os) {call : Call} (hvalid : c.toYmdCache.Valid)
    (h : c.toDstCache.Invariant os) (hlegal : call.Legal) (hrun : call.run os c = some c') :
    c'.toDstCache.Invariant os := by
  cases call with
  | resetDateCache =>
    obtain rfl := Option.some.inj hrun
    exact resetDateCache_invariant os c
  | yearMonthDayFromDays days =>
    obtain ⟨_, -, hc⟩ := bind_eq_some_iff.mp hrun
    exact Option.some.inj hc ▸ h
  | breakDownTime timeMs =>
    obtain ⟨_, -, hc⟩ := bind_eq_some_iff.mp hrun
    exact Option.some.inj hc ▸ h
  | equivalentTime timeMs =>
    obtain ⟨_, -, hc⟩ := bind_eq_some_iff.mp hrun
    exact Option.some.inj hc ▸ h
  | daylightSavingsOffsetInMs timeMs =>
    obtain ⟨timeSec, c'', hr, -, h''⟩ := daylightSavingsOffsetInMs_spec hos hvalid h hlegal
    rw [Call.run, hr] at hrun
    obtain rfl := Option.some.inj hrun
    exact h''

theorem Reachable.invariant (hos : ChangesOnce os) (h : Reachable os c) :
    c.toDstCache.Invariant os := by
  induction h with
  | reset c => exact resetDateCache_invariant os c
  | call h hlegal hrun ih => exact run_invariant hos h.valid ih hlegal hrun

/-- **The daylight-saving cache is transparent.** In every run each segment with
times in it has the same offset in all of it, the two pointers differ, and every
query is answered with the offset the operating system would give: the end of
`DaylightSavingsOffsetInMs` is not reached. -/
theorem daylightSavings_transparent (hos : ChangesOnce os) (h : Reachable os c) :
    (∀ i, ¬(c.dst i).Invalid → ∀ x, (c.dst i).startSec ≤ x → x ≤ (c.dst i).endSec →
      os x = (c.dst i).offsetMs) ∧
    c.before ≠ c.after ∧
    ∀ timeMs, LegalTime timeMs → ∃ timeSec c',
      c.daylightSavingsOffsetInMs os timeMs = some (.offset (os timeSec), c') ∧
      QueryTime c.toYmdCache timeMs timeSec := by
  have hinv := h.invariant hos
  refine ⟨fun i _ x => (hinv.sound i).offset, hinv.ne, fun timeMs ht => ?_⟩
  obtain ⟨timeSec, c', hr, htime, -⟩ := daylightSavingsOffsetInMs_spec hos h.valid hinv ht
  exact ⟨timeSec, c', hr, htime⟩

/-- Daylight-saving time of one hour from a time on, after queries on both sides of it, which
leave a segment each. -/
theorem daylightSavings_transparent_hour :
    let os : ℤ → ℤ := fun t => if t < 1000000000 then 0 else 3600000
    ∃ c : DateCache, Reachable os c ∧ c.dst c.before = ⟨1000000000, 1001641599, 3600000, 3⟩ ∧
      c.dst c.after = ⟨999999999, 999999999, 0, 2⟩ ∧
      ∃ timeSec c', c.daylightSavingsOffsetInMs os 1000000005000 =
        some (.offset (os timeSec), c') ∧ QueryTime c.toYmdCache 1000000005000 timeSec := by
  intro os
  let c : DateCache := ⟨⟨true, 5, 1970, 0, 6⟩, ⟨fun _ => clearedSegment, 0, 0, 1⟩⟩
  have hos : ChangesOnce os := fun s t _ _ _ _ => by
    refine ⟨1000000000, fun x hx hx' => ?_, fun x hx hx' => ?_⟩
    · exact (if_pos hx').trans (if_pos (hx.trans_lt hx')).symm
    · exact (if_neg hx.not_gt).trans (if_neg (hx.trans hx').not_gt).symm
  have hrun : ((Call.daylightSavingsOffsetInMs 999999999000).run os c.resetDateCache).bind
      (fun c => ((Call.daylightSavingsOffsetInMs 1000000000000).run os c).map
        fun c => (c.dst c.before, c.dst c.after)) =
      some (⟨1000000000, 1001641599, 3600000, 3⟩, ⟨999999999, 999999999, 0, 2⟩) := by
    decide +kernel
  obtain ⟨c₁, h₁, hrun⟩ := Option.bind_eq_some_iff.mp hrun
  obtain ⟨c₂, h₂, hsegments⟩ := Option.map_eq_some_iff.mp hrun
  have hlegal (timeMs : ℤ) (h : 0 ≤ timeMs ∧ timeMs ≤ 1000000005000) :
      (Call.daylightSavingsOffsetInMs timeMs).Legal := by
    rw [Call.Legal, legalTime_iff]
    omega
  have hreachable : Reachable os c₂ :=
    ((Reachable.reset c).call (hlegal _ (by decide)) h₁).call (hlegal _ (by decide)) h₂
  exact ⟨c₂, hreachable, congrArg Prod.fst hsegments, congrArg Prod.snd hsegments,
    (daylightSavings_transparent hos hreachable).2.2 1000000005000 (hlegal _ (by decide))⟩

end DateCache
