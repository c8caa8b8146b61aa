import Mathlib

/-!
# Borders and good-suffix shifts

A word is read at integer positions and ends at `m`. The suffix from `b` is a
*border* of the suffix from `i < b` if it is also a prefix of it. The longest
borders of all suffixes are computed from right to left: a border of the suffix
from `i - 1` is a border of the suffix from `i`, one position longer to the
left, or it is empty; and the borders of a suffix are its longest border and the
borders of that.

A search for the word that has compared from right to left down to position
`k - 1`, and found a difference there, may move on by any amount that leaves out
no *shift* of `k`: no `t` for which the word, moved by `t`, agrees with itself
from `k` on and differs at `k - 1` – as far as it overlaps the positions from
`lo` on. A shift that overlaps position `k - 1` is a border `k` of the suffix
from `k - t` that cannot be extended; one that does not is a border of the
suffix from `lo`.

`GoodSuffix` is what a table of shifts satisfies once the borders of the suffixes
from `i` on have been found, `Walk` what holds while the borders of one suffix
are visited, the longest first. Entries not yet set have the value `m - lo`; a
border that is not visited because a longer one can be extended needs no entry,
since that longer one has given a smaller one (`Walk.pred`).
-/

open Function

namespace Borders

variable {α : Type*} {w : ℤ → α} {lo m i b c k t : ℤ} {f shift : ℤ → ℤ}

/-- The suffix from `b` is a prefix of the suffix from `i`. -/
def IsBorder (w : ℤ → α) (m i b : ℤ) : Prop :=
  i < b ∧ b ≤ m ∧ ∀ q, b ≤ q → q < m → w (q - (b - i)) = w q

namespace IsBorder

theorem last (h : i < m) : IsBorder w m i m :=
  ⟨h, le_rfl, fun _ hq hqm => absurd hqm (not_lt.mpr hq)⟩

theorem trans (hb : IsBorder w m i b) (hc : IsBorder w m b c) : IsBorder w m i c := by
  refine ⟨hb.1.trans hc.1, hc.2.1, fun q hq hqm => ?_⟩
  have hmid := hb.2.2 (q - (c - b)) (by omega) (by have := hc.1; omega)
  rw [← hc.2.2 q hq hqm, ← hmid]
  exact congrArg w (by omega)

/-- Of two borders the shorter is a border of the longer. -/
theorem of_lt (hb : IsBorder w m i b) (hc : IsBorder w m i c) (hbc : b < c) : IsBorder w m b c := by
  refine ⟨hbc, hc.2.1, fun q hq hqm => ?_⟩
  have hmid := hb.2.2 (q - (c - b)) (by omega) (by omega)
  rw [← hc.2.2 q hq hqm, ← hmid]
  exact congrArg w (by omega)

/-- A border is extended to the left where the letters before it agree. -/
theorem pred_iff (hb : b ≤ m) :
    IsBorder w m (i - 1) (b - 1) ↔ IsBorder w m i b ∧ w (i - 1) = w (b - 1) := by
  constructor
  · intro h
    refine ⟨⟨by have := h.1; omega, hb, fun q hq hqm => ?_⟩, ?_⟩
    · rw [← h.2.2 q (by omega) hqm]
      exact congrArg w (by omega)
    · rw [← h.2.2 (b - 1) le_rfl (by omega)]
      exact congrArg w (by omega)
  · intro ⟨h, hw⟩
    refine ⟨by have := h.1; omega, by omega, fun q hq hqm => ?_⟩
    rcases eq_or_lt_of_le hq with rfl | hlt
    · rw [← hw]
      exact congrArg w (by omega)
    · rw [← h.2.2 q (by omega) hqm]
      exact congrArg w (by omega)

end IsBorder

/-- The longest border is the leftmost. -/
def LongestBorder (w : ℤ → α) (m i b : ℤ) : Prop :=
  IsBorder w m i b ∧ ∀ c, IsBorder w m i c → b ≤ c

/-- `t` is a shift of a word that agrees from `k` on and differs at `k - 1`. -/
def IsShift (w : ℤ → α) (lo m k t : ℤ) : Prop :=
  0 < t ∧ (∀ q, k ≤ q → q < m → lo + t ≤ q → w (q - t) = w q) ∧
    (lo + t < k → w (k - 1 - t) ≠ w (k - 1))

/-- A shift that overlaps position `k - 1` makes `k` a border, and one that
cannot be extended. -/
theorem IsShift.border (ht : IsShift w lo m k t) (hkm : k ≤ m) (hfull : lo + t < k) :
    IsBorder w m (k - t) k ∧ w (k - t - 1) ≠ w (k - 1) := by
  refine ⟨⟨by have := ht.1; omega, hkm, fun q hq hqm => ?_⟩, ?_⟩
  · rw [← ht.2.1 q hq hqm (by omega)]
    exact congrArg w (by omega)
  · rw [show k - t - 1 = k - 1 - t by omega]
    exact ht.2.2 hfull

/-- A shift that does not is a border of the whole word. -/
theorem IsShift.border_whole (ht : IsShift w lo m k t) (hpart : k ≤ lo + t) (hm : lo + t ≤ m) :
    IsBorder w m lo (lo + t) := by
  refine ⟨by have := ht.1; omega, hm, fun q hq hqm => ?_⟩
  rw [← ht.2.1 q (by omega) hqm hq]
  exact congrArg w (by omega)

/-- `s` is positive and passes over no shift. -/
def SafeShift (w : ℤ → α) (lo m k s : ℤ) : Prop :=
  1 ≤ s ∧ ∀ t, IsShift w lo m k t → s ≤ t

/-- A table of the longest borders of the suffixes from `i` on. The empty suffix
has none, its entry is past the end. -/
structure Suffixes (w : ℤ → α) (m i : ℤ) (f : ℤ → ℤ) : Prop where
  last : f m = m + 1
  longest : ∀ x, i ≤ x → x < m → LongestBorder w m x (f x)

/-- A table of shifts for the borders of the suffixes past `i`. -/
structure GoodSuffix (w : ℤ → α) (lo m i : ℤ) (shift : ℤ → ℤ) : Prop where
  last : shift m = 1
  pos : ∀ k, lo < k → k ≤ m → 1 ≤ shift k ∧ shift k ≤ m - lo
  set : ∀ k, lo < k → k < m → shift k = m - lo ∨ shift k < k - i
  covers : ∀ k x, lo < k → i < x → IsBorder w m x k → w (x - 1) ≠ w (k - 1) → shift k ≤ k - x

/-- The borders of the suffix from `i` have been visited up to `suffix`. -/
structure Walk (w : ℤ → α) (lo m i suffix : ℤ) (shift : ℤ → ℤ) : Prop where
  last : shift m = 1
  pos : ∀ k, lo < k → k ≤ m → 1 ≤ shift k ∧ shift k ≤ m - lo
  set : ∀ k, lo < k → k < m → shift k = m - lo ∨ shift k ≤ k - i
  covers : ∀ k x, lo < k → i < x → IsBorder w m x k → w (x - 1) ≠ w (k - 1) → shift k ≤ k - x
  border : suffix = m + 1 ∨ IsBorder w m i suffix
  visited : ∀ k, IsBorder w m i k → k < suffix → w (i - 1) ≠ w (k - 1) ∧ shift k ≤ k - i

/-- Entries are set once. -/
def setShift (shift : ℤ → ℤ) (unset k s : ℤ) : ℤ → ℤ :=
  if shift k = unset then update shift k s else shift

theorem setShift_self (shift : ℤ → ℤ) (unset k s : ℤ) :
    setShift shift unset k s k = if shift k = unset then s else shift k := by
  unfold setShift
  split
  · exact update_self ..
  · rfl

theorem setShift_of_ne {x : ℤ} (h : x ≠ k) (unset s : ℤ) :
    setShift shift unset k s x = shift x := by
  unfold setShift
  split
  · exact update_of_ne h ..
  · rfl

theorem Suffixes.start : Suffixes w m m (update f m (m + 1)) where
  last := update_self ..
  longest := fun _ hx hxm => absurd hxm (not_lt.mpr hx)

theorem Suffixes.pred (hf : Suffixes w m i f) (hi : i - 1 < m) (hb : LongestBorder w m (i - 1) b) :
    Suffixes w m (i - 1) (update f (i - 1) b) where
  last := by rw [update_of_ne hi.ne', hf.last]
  longest x hx hxm := by
    rcases eq_or_lt_of_le hx with rfl | hlt
    · rwa [update_self]
    · rw [update_of_ne hlt.ne']
      exact hf.longest x (by omega) hxm

/-- The table before any border has been found. -/
theorem GoodSuffix.start (hlen : 1 < m - lo) (hlast : shift m = 1)
    (hunset : ∀ k, lo < k → k < m → shift k = m - lo) : GoodSuffix w lo m m shift where
  last := hlast
  pos k hk hkm := by
    rcases eq_or_lt_of_le hkm with rfl | hlt
    · omega
    · rw [hunset k hk hlt]
      omega
  set k hk hkm := .inl (hunset k hk hkm)
  covers k x _ hx hb := absurd (hx.trans hb.1) (not_lt.mpr hb.2.1)

/-- A walk begins at the longest border. -/
theorem GoodSuffix.walk (hg : GoodSuffix w lo m i shift) (hf : Suffixes w m i f) (hi : i ≤ m) :
    Walk w lo m i (f i) shift where
  last := hg.last
  pos := hg.pos
  set k hk hkm := (hg.set k hk hkm).imp_right le_of_lt
  covers := hg.covers
  border := by
    rcases eq_or_lt_of_le hi with rfl | hlt
    · exact .inl hf.last
    · exact .inr (hf.longest i le_rfl hlt).1
  visited k hk hlt := by
    have him : i < m := hk.1.trans_le hk.2.1
    exact absurd ((hf.longest i le_rfl him).2 k hk) (not_le.mpr hlt)

/-- **One step of the walk**: a border that cannot be extended gives its entry
of the table, and the walk goes on with the border's longest border. -/
theorem Walk.step (hw : Walk w lo m i b shift) (hf : Suffixes w m i f) (hlo : lo < i)
    (hb : b ≤ m) (hne : w (i - 1) ≠ w (b - 1)) :
    Walk w lo m i (f b) (setShift shift (m - lo) b (b - i)) := by
  have hib : IsBorder w m i b := hw.border.resolve_left (by omega)
  have hlt := hib.1
  have hbpos := hw.pos b (by omega) hb
  -- the entry of `b` after the step
  have hentry : setShift shift (m - lo) b (b - i) b ≤ b - i := by
    rw [setShift_self]
    split
    · exact le_rfl
    · next hset =>
      rcases eq_or_lt_of_le hb with rfl | hbm
      · have := hw.last
        omega
      · exact (hw.set b (by omega) hbm).resolve_left hset
  refine ⟨?_, fun k hk hkm => ?_, fun k hk hkm => ?_, fun k x hk hx hkb hdiff => ?_, ?_,
    fun k hk hkb => ?_⟩
  · by_cases hbm : m = b
    · subst hbm
      rw [setShift_self, if_neg (by rw [hw.last]; omega), hw.last]
    · rw [setShift_of_ne hbm, hw.last]
  · by_cases hkb : k = b
    · subst hkb
      rw [setShift_self]
      split
      · omega
      · exact hbpos
    · rw [setShift_of_ne hkb]
      exact hw.pos k hk hkm
  · by_cases hkb : k = b
    · exact .inr (hkb ▸ hentry)
    · rw [setShift_of_ne hkb]
      exact hw.set k hk hkm
  · by_cases hkb' : k = b
    · subst hkb'
      have hold := hw.covers k x hk hx hkb hdiff
      rw [setShift_self, if_neg (by omega)]
      exact hold
    · rw [setShift_of_ne hkb']
      exact hw.covers k x hk hx hkb hdiff
  · rcases eq_or_lt_of_le hb with rfl | hbm
    · exact .inl hf.last
    · exact .inr (hib.trans (hf.longest b (by omega) hbm).1)
  · rcases lt_trichotomy k b with hkb' | rfl | hkb'
    · rw [setShift_of_ne hkb'.ne]
      exact hw.visited k hk hkb'
    · exact ⟨hne, hentry⟩
    · have hbm : b < m := hkb'.trans_le hk.2.1
      exact absurd ((hf.longest b (by omega) hbm).2 k (hib.of_lt hk hkb')) (not_le.mpr hkb)

/-- **The end of a walk.** It stops at the longest border that can be extended,
or past the empty one; either way one position to the left lies the longest
border of the suffix from `i - 1`. Shorter borders than the one it stopped at
are borders of that one, whose entries are there already. -/
theorem Walk.pred (hw : Walk w lo m i b shift) (him : i ≤ m)
    (hstop : b ≤ m → w (i - 1) = w (b - 1)) :
    GoodSuffix w lo m (i - 1) shift ∧ LongestBorder w m (i - 1) (b - 1) := by
  have hborder : IsBorder w m (i - 1) (b - 1) := by
    rcases hw.border with rfl | hb
    · rw [add_sub_cancel_right]
      exact .last (by omega)
    · exact (IsBorder.pred_iff hb.2.1).mpr ⟨hb, hstop hb.2.1⟩
  refine ⟨⟨hw.last, hw.pos, fun k hk hkm => (hw.set k hk hkm).imp_right (by omega),
    fun k x hk hx hkb hdiff => ?_⟩, hborder, fun c hc => ?_⟩
  · rcases eq_or_lt_of_le (show i ≤ x by omega) with rfl | hix
    · rcases lt_trichotomy k b with hlt | rfl | hgt
      · exact (hw.visited k hkb hlt).2
      · exact absurd (hstop hkb.2.1) hdiff
      · have hb : IsBorder w m i b := hw.border.resolve_left (by have := hkb.2.1; omega)
        have hstop := hstop hb.2.1
        have hold := hw.covers k b hk hb.1 (hb.of_lt hkb hgt) (hstop ▸ hdiff)
        have := hb.1
        omega
    · exact hw.covers k x hk hix hkb hdiff
  · by_contra hlt
    have hcm : c + 1 ≤ m := by
      rcases hw.border with rfl | hb
      · omega
      · have := hb.2.1
        omega
    have hc' : IsBorder w m (i - 1) (c + 1 - 1) := by rwa [add_sub_cancel_right]
    obtain ⟨hi, heq⟩ := (IsBorder.pred_iff hcm).mp hc'
    exact (hw.visited (c + 1) hi (by omega)).1 heq

/-- An entry that has been set is safe. -/
theorem GoodSuffix.safe_of_set (hg : GoodSuffix w lo m lo shift) (hk : lo < k) (hkm : k < m)
    (hset : shift k ≠ m - lo) : SafeShift w lo m k (shift k) := by
  have hlt := (hg.set k hk hkm).resolve_left hset
  refine ⟨(hg.pos k hk hkm.le).1, fun t ht => ?_⟩
  by_cases hfull : lo + t < k
  · obtain ⟨hb, hdiff⟩ := ht.border hkm.le hfull
    have := hg.covers k (k - t) hk (by omega) hb hdiff
    omega
  · omega

/-- An entry that has not been set is safe if it is taken from the borders of
the whole word. -/
theorem GoodSuffix.safe_of_unset (hg : GoodSuffix w lo m lo shift) (hk : lo < k)
    (hunset : shift k = m - lo) (hkb : k ≤ b) (hb : b ≤ m)
    (hmin : ∀ c, IsBorder w m lo c → k ≤ c → b ≤ c) : SafeShift w lo m k (b - lo) := by
  refine ⟨by omega, fun t ht => ?_⟩
  by_cases hfull : lo + t < k
  · obtain ⟨hb, hdiff⟩ := ht.border (hkb.trans hb) hfull
    have := hg.covers k (k - t) hk (by omega) hb hdiff
    omega
  by_cases hlast : lo + t ≤ m
  · have := hmin (lo + t) (ht.border_whole (not_lt.mp hfull) hlast) (not_lt.mp hfull)
    omega
  · omega

end Borders
