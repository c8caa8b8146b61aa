import Mathlib
import V8Speak.RegionAllocator

/-!
# The sets of the region allocator stay in order

What holds of the allocator's state between any two of its steps, also while a
region is being split or merged: the regions tile the whole range, the free
regions are some of them, in order, and `freeSize` is the sum of their sizes
(`Consistent`). Every step keeps this and is defined, so that no set is searched
while it is out of order. Which regions are in the set of free ones, and what the
regions are, each step says for itself.
-/

open Function List Nat

namespace Word

variable {w a b k x : ℕ}

theorem add_of_lt (h : a + b < 2 ^ w) : add w a b = a + b := mod_eq_of_lt h

theorem sub_of_le (h : b ≤ a) (ha : a < 2 ^ w) : sub w a b = a - b := by
  rw [sub, show a + (2 ^ w - b) = a - b + 2 ^ w by omega, add_mod_right, mod_eq_of_lt (by omega)]

theorem sub_of_lt (h : a < b) (hb : b ≤ 2 ^ w) : sub w a b = a + 2 ^ w - b := by
  rw [sub, mod_eq_of_lt (by omega)]
  omega

/-- The sum may wrap around, if the difference does not. -/
theorem sub_add {c : ℕ} (hc : c ≤ a + b) (h : a + b - c < 2 ^ w) (hle : c ≤ 2 ^ w) :
    sub w (add w a b) c = a + b - c := by
  rw [sub, add, mod_add_mod, show a + b + (2 ^ w - c) = a + b - c + 2 ^ w by omega,
    add_mod_right, mod_eq_of_lt h]

theorem sub_two_pow_one (hk : k ≤ w) : sub w (2 ^ k) 1 = 2 ^ k - 1 := by
  have hpos := Nat.two_pow_pos k
  have hle := Nat.pow_le_pow_right (show 0 < 2 by decide) hk
  rw [sub, show 2 ^ k + (2 ^ w - 1) = 2 ^ k - 1 + 2 ^ w by omega, add_mod_right,
    mod_eq_of_lt (by omega)]

theorem isAligned_iff (hk : k ≤ w) : isAligned w x (2 ^ k) = true ↔ 2 ^ k ∣ x := by
  rw [isAligned, decide_eq_true_iff, sub_two_pow_one hk, and_two_pow_sub_one_eq_mod,
    dvd_iff_mod_eq_zero]

/-- Another number with the same highest bit would keep it when 1 is subtracted. -/
theorem isPowerOfTwo_spec (hx : x < 2 ^ w) (h : isPowerOfTwo w x = true) : ∃ k < w, x = 2 ^ k := by
  rw [isPowerOfTwo, decide_eq_true_iff] at h
  obtain ⟨hpos, hand⟩ := h
  rw [sub_of_le hpos hx] at hand
  refine ⟨Nat.log 2 x, log_lt_of_lt_pow hpos.ne' hx, ?_⟩
  have hle := pow_log_le_self 2 hpos.ne'
  have hlt := lt_pow_succ_log_self (show 1 < 2 by decide) x
  generalize Nat.log 2 x = k at hle hlt
  by_contra hne
  have hbit : ∀ y, 2 ^ k ≤ y → y < 2 ^ k * 2 → y.testBit k = true := by
    intro y hle hlt
    rw [testBit_eq_decide_div_mod_eq, decide_eq_true_iff,
      Nat.div_eq_of_lt_le (k := 1) (by omega) (by omega)]
  have hzero := congrArg (Nat.testBit · k) hand
  simp only [testBit_and, zero_testBit, hbit x hle hlt, hbit (x - 1) (by omega) (by omega)] at hzero
  exact nomatch hzero

/-- Rounding down clears the low bits. -/
theorem roundDown_eq (hk : k < w) (hx : x < 2 ^ w) : roundDown w x (2 ^ k) = x / 2 ^ k * 2 ^ k := by
  have hpos := Nat.two_pow_pos k
  have hlt := Nat.pow_lt_pow_right (show 1 < 2 by decide) hk
  rw [roundDown, sub_of_lt hpos hlt.le, Nat.zero_add, ← shiftRight_eq_div_pow,
    ← shiftLeft_eq]
  refine eq_of_testBit_eq fun i => ?_
  have hmask : (2 ^ w - 2 ^ k).testBit i = (decide (i < w) && !decide (i < k)) := by
    have h := testBit_two_pow_sub_succ (show 2 ^ k - 1 < 2 ^ w by omega) i
    rw [show 2 ^ k - 1 + 1 = 2 ^ k by omega, testBit_two_pow_sub_one] at h
    exact h
  rw [testBit_and, hmask, testBit_shiftLeft, testBit_shiftRight]
  by_cases hik : i < k
  · simp [hik]
  · have hadd : k + (i - k) = i := by omega
    by_cases hiw : i < w
    · simp [hik, hiw, hadd, not_lt.mp hik]
    · have hbit : x.testBit i = false := testBit_lt_two_pow
        (hx.trans_le (Nat.pow_le_pow_right (by decide) (not_lt.mp hiw)))
      simp [hbit, hadd]

/-- Rounding up gives the next multiple. -/
theorem roundUp_spec (hk : k < w) (hx : x + 2 ^ k < 2 ^ w) :
    2 ^ k ∣ roundUp w x (2 ^ k) ∧ x ≤ roundUp w x (2 ^ k) ∧ roundUp w x (2 ^ k) < x + 2 ^ k := by
  have hpos := Nat.two_pow_pos k
  rw [roundUp, sub_two_pow_one hk.le, add_of_lt (by omega), roundDown_eq hk (by omega)]
  have hdiv := div_add_mod (x + (2 ^ k - 1)) (2 ^ k)
  rw [Nat.mul_comm] at hdiv
  exact ⟨Nat.dvd_mul_left .., by omega, by omega⟩

end Word

namespace RegionAllocator

open KeyedSet Tiling

variable {w : ℕ} {a a' : RegionAllocator w} {p q : RegionPointer} {l r : List RegionPointer}

/-! ## Consistency -/

/-- The regions, in the order of their addresses. -/
def layout (a : RegionAllocator w) : List Region := a.allRegions.map a.object

/-- The end of the whole region. -/
def wholeEnd (a : RegionAllocator w) : ℕ := a.wholeRegion.begin + a.wholeRegion.size

/-- What holds between any two steps. -/
structure Consistent (a : RegionAllocator w) : Prop where
  fits : a.wholeEnd < 2 ^ w
  tiles : Tiles a.pageSize a.wholeRegion.begin a.wholeEnd a.layout
  nodup : a.allRegions.Nodup
  unused : ∀ p ∈ a.allRegions, p < a.unused
  subset : a.freeRegions ⊆ a.allRegions
  sorted : KeyedSet.Sorted a.sizeAddress a.freeRegions
  sum : a.freeSize = (a.freeRegions.map fun p => (a.object p).size).sum

/-- What no step changes. -/
structure SameRange (a a' : RegionAllocator w) : Prop where
  wholeRegion : a'.wholeRegion = a.wholeRegion
  pageSize : a'.pageSize = a.pageSize
  regionSizeInPages : a'.regionSizeInPages = a.regionSizeInPages

theorem SameRange.rfl : SameRange a a := ⟨.refl _, .refl _, .refl _⟩

theorem SameRange.trans {a'' : RegionAllocator w} (h : SameRange a a') (h' : SameRange a' a'') :
    SameRange a a'' :=
  ⟨h'.wholeRegion.trans h.wholeRegion, h'.pageSize.trans h.pageSize,
    h'.regionSizeInPages.trans h.regionSizeInPages⟩

namespace Consistent

variable (h : a.Consistent)
include h

/-- Where a region is. -/
theorem mem (hp : p ∈ a.allRegions) : a.wholeRegion.begin ≤ (a.object p).begin ∧
      (a.object p).begin + (a.object p).size ≤ a.wholeEnd ∧ 0 < (a.object p).size ∧
      a.pageSize ∣ (a.object p).begin ∧ a.pageSize ∣ (a.object p).size :=
  h.tiles.mem (mem_map_of_mem hp)

theorem endAddress (hp : p ∈ a.allRegions) :
    (a.object p).endAddress w = (a.object p).begin + (a.object p).size :=
  Word.add_of_lt ((h.mem hp).2.1.trans_lt h.fits)

theorem wholeRegion_endAddress : a.wholeRegion.endAddress w = a.wholeEnd := Word.add_of_lt h.fits

/-- The set of all regions is in order. -/
theorem sorted_addressEnd : KeyedSet.Sorted a.addressEnd a.allRegions := by
  refine (pairwise_map.mp h.tiles.pairwise).imp_of_mem fun {p q} hp hq hlt => ?_
  rw [addressEnd, addressEnd, h.endAddress hp, h.endAddress hq]
  omega

/-- No address is in two regions. -/
theorem eq_of_covers {x : ℕ} (hp : p ∈ a.allRegions) (hq : q ∈ a.allRegions)
    (hpx : Covers (a.object p) x) (hqx : Covers (a.object q) x) : p = q := by
  by_contra hne
  have hsymm : Std.Symm fun p q => ¬(Covers (a.object p) x ∧ Covers (a.object q) x) :=
    ⟨fun _ _ h h' => h h'.symm⟩
  have hpair : a.allRegions.Pairwise fun p q => ¬(Covers (a.object p) x ∧ Covers (a.object q) x) :=
    (pairwise_map.mp h.tiles.pairwise).imp fun hlt hcovers => by
      have := hcovers.1.2
      have := hcovers.2.1
      omega
  exact hpair.forall hp hq hne ⟨hpx, hqx⟩

theorem covers_begin (hp : p ∈ a.allRegions) : Covers (a.object p) (a.object p).begin :=
  ⟨le_rfl, Nat.lt_add_of_pos_right (h.mem hp).2.2.1⟩

/-- Regions are told apart by their beginnings. -/
theorem eq_of_begin (hp : p ∈ a.allRegions) (hq : q ∈ a.allRegions)
    (heq : (a.object p).begin = (a.object q).begin) : p = q :=
  h.eq_of_covers hp hq (h.covers_begin hp) (heq ▸ h.covers_begin hq)

theorem ne_of_sizeAddress (hp : p ∈ a.allRegions) (hq : q ∈ a.allRegions) (hne : p ≠ q) :
    a.sizeAddress p ≠ a.sizeAddress q := fun heq =>
  hne (h.eq_of_begin hp hq (congrArg Prod.snd (toLex.injective heq)))

theorem nodup_freeRegions : a.freeRegions.Nodup := h.sorted.nodup

/-- The sizes of some regions are at most the size of the range. -/
theorem sum_le {l : List RegionPointer} (hl : l.Nodup) (hsub : l ⊆ a.allRegions) :
    (l.map fun p => (a.object p).size).sum ≤ a.wholeRegion.size := by
  have hsum := h.tiles.sum
  rw [layout, map_map] at hsum
  have hle : (l.map fun p => (a.object p).size).sum ≤
      (a.allRegions.map fun p => (a.object p).size).sum := by
    obtain ⟨l', hperm, hsub'⟩ := subperm_of_subset hl hsub
    rw [← (hperm.map _).sum_eq]
    exact (hsub'.map _).sum_le_sum fun _ _ => Nat.zero_le _
  unfold wholeEnd at hsum
  exact hle.trans (by
    rw [show (fun p => (a.object p).size) = Tile.size ∘ a.object from rfl]
    omega)

/-- A region is once in the set. -/
theorem notMem (heq : a.allRegions = l ++ p :: r) : p ∉ l ∧ p ∉ r := by
  have hnodup := h.nodup
  rw [heq, nodup_append] at hnodup
  obtain ⟨-, hpr, hdisj⟩ := hnodup
  exact ⟨fun hl => hdisj p hl p mem_cons_self rfl, (nodup_cons.mp hpr).1⟩

/-- Where only the object `p` changes, the regions around it do not. -/
theorem map_object (heq : a.allRegions = l ++ p :: r) {object : RegionPointer → Region}
    (hother : ∀ x ∈ a.allRegions, x ≠ p → object x = a.object x) :
    l.map object = l.map a.object ∧ r.map object = r.map a.object := by
  obtain ⟨hpl, hpr⟩ := h.notMem heq
  constructor
  · exact map_congr_left fun x hx =>
      hother x (heq ▸ mem_append_left _ hx) fun h => hpl (h ▸ hx)
  · exact map_congr_left fun x hx =>
      hother x (heq ▸ mem_append_right _ (mem_cons_of_mem p hx)) fun h => hpr (h ▸ hx)

end Consistent

/-! ## Adding to and removing from the set of free regions -/

variable (h : a.Consistent)
include h

theorem freeListRemoveRegion_spec (hp : p ∈ a.freeRegions) :
    ∃ a', a.freeListRemoveRegion p = some a' ∧ a'.Consistent ∧ SameRange a a' ∧
      a'.object = a.object ∧ a'.allRegions = a.allRegions ∧ a'.unused = a.unused ∧
      ∀ x, x ∈ a'.freeRegions ↔ x ∈ a.freeRegions ∧ x ≠ p := by
  have hperm := perm_cons_erase hp
  have hsum : a.freeSize = (a.object p).size +
      ((a.freeRegions.erase p).map fun p => (a.object p).size).sum := by
    rw [h.sum, (hperm.map _).sum_eq, map_cons, sum_cons]
  have hlt : a.freeSize < 2 ^ w := by
    have hle := h.sum_le h.nodup_freeRegions h.subset
    have := h.fits
    unfold wholeEnd at this
    rw [h.sum]
    omega
  refine ⟨{ a with
    freeSize := a.freeSize - (a.object p).size
    freeRegions := a.freeRegions.erase p }, ?_, ⟨h.fits, h.tiles, h.nodup, h.unused,
      fun x hx => h.subset (mem_of_mem_erase hx), h.sorted.sublist erase_sublist, ?_⟩,
      ⟨rfl, rfl, rfl⟩, rfl, rfl, rfl, fun x => ?_⟩
  · rw [freeListRemoveRegion, find_self h.sorted hp,
      ← Word.sub_of_le (by omega) hlt]
    rfl
  · dsimp only
    omega
  · rw [h.nodup_freeRegions.mem_erase_iff]
    exact and_comm

theorem freeListAddRegion_spec (hp : p ∈ a.allRegions) (hfree : p ∉ a.freeRegions) :
    ∃ a', a.freeListAddRegion p = some a' ∧ a'.Consistent ∧ SameRange a a' ∧
      a'.object = a.object ∧ a'.allRegions = a.allRegions ∧ a'.unused = a.unused ∧
      ∀ x, x ∈ a'.freeRegions ↔ x ∈ a.freeRegions ∨ x = p := by
  have hnew : ∀ y ∈ a.freeRegions, a.sizeAddress y ≠ a.sizeAddress p := fun y hy =>
    h.ne_of_sizeAddress (h.subset hy) hp fun heq => hfree (heq ▸ hy)
  obtain ⟨l, hinsert, hsorted, hperm⟩ := insert_new h.sorted hnew
  have hsub : l ⊆ a.allRegions := by
    intro x hx
    rcases mem_cons.mp (hperm.subset hx) with rfl | hx
    · exact hp
    · exact h.subset hx
  have hsum : (l.map fun p => (a.object p).size).sum = a.freeSize + (a.object p).size := by
    rw [(hperm.map _).sum_eq, map_cons, sum_cons, h.sum, Nat.add_comm]
  have hlt : a.freeSize + (a.object p).size < 2 ^ w := by
    have hle := h.sum_le hsorted.nodup hsub
    have := h.fits
    unfold wholeEnd at this
    omega
  refine ⟨{ a with freeSize := a.freeSize + (a.object p).size, freeRegions := l }, ?_,
    ⟨h.fits, h.tiles, h.nodup, h.unused, hsub, hsorted, hsum.symm⟩, ⟨rfl, rfl, rfl⟩, rfl, rfl,
    rfl, fun x => ?_⟩
  · rw [freeListAddRegion, hinsert, ← Word.add_of_lt hlt]
    rfl
  · rw [hperm.mem_iff, mem_cons]
    exact or_comm

/-! ## Changing regions -/

/-- Other objects in the same places. -/
theorem Consistent.setState (p : RegionPointer) (state : RegionState) :
    (a.setState p state).Consistent := by
  have hobject : ∀ q, ((a.setState p state).object q).begin = (a.object q).begin ∧
      ((a.setState p state).object q).size = (a.object q).size := by
    intro q
    show (Function.update a.object p _ q).begin = _ ∧ (Function.update a.object p _ q).size = _
    by_cases hqp : q = p
    · subst hqp
      rw [update_self]
      exact ⟨rfl, rfl⟩
    · rw [update_of_ne hqp]
      exact ⟨rfl, rfl⟩
  refine ⟨h.fits, Tiles.map_congr h.tiles fun q _ => hobject q, h.nodup, h.unused, h.subset,
    h.sorted.congr fun q _ => ?_, ?_⟩
  · rw [sizeAddress, sizeAddress, (hobject q).1, (hobject q).2]
  · rw [show (a.setState p state).freeSize = a.freeSize from rfl, h.sum]
    exact congrArg List.sum (map_congr_left fun q _ => (hobject q).2.symm)

theorem Consistent.newRegion (region : Region) : (a.newRegion region).2.Consistent ∧
      ∀ q ∈ a.allRegions, (a.newRegion region).2.object q = a.object q := by
  have hobject : ∀ q ∈ a.allRegions, (a.newRegion region).2.object q = a.object q := fun q hq =>
    update_of_ne (h.unused q hq).ne ..
  refine ⟨⟨h.fits, Tiles.map_congr h.tiles fun q hq => ?_, h.nodup, fun q hq => ?_, h.subset,
    h.sorted.congr fun q hq => ?_, ?_⟩, hobject⟩
  · rw [hobject q hq]
    exact ⟨rfl, rfl⟩
  · exact (h.unused q hq).trans (lt_succ_self _)
  · rw [sizeAddress, sizeAddress, hobject q (h.subset hq)]
  · rw [show (a.newRegion region).2.freeSize = a.freeSize from rfl, h.sum]
    exact congrArg List.sum (map_congr_left fun q hq => by rw [hobject q (h.subset hq)])

/-- Cutting a region in two, where the second part is an object already. -/
theorem cutRegion_spec (heq : a.allRegions = l ++ p :: r)
    (hfree : p ∉ a.freeRegions) (hq : q ∉ a.allRegions) (hunused : q < a.unused) {n : ℕ}
    (hpos : 0 < n) (hlt : n < (a.object p).size) (hdvd : a.pageSize ∣ n)
    (hobject : a.object q = ⟨(a.object p).begin + n, (a.object p).size - n, (a.object p).state⟩) :
    ∃ a', a.cutRegion p q n = some a' ∧ a'.Consistent ∧ SameRange a a' ∧
      a'.allRegions = l ++ p :: q :: r ∧ a'.freeRegions = a.freeRegions ∧
      a'.object p = ⟨(a.object p).begin, n, (a.object p).state⟩ ∧
      ∀ x, x ≠ p → a'.object x = a.object x := by
  have hp : p ∈ a.allRegions := heq ▸ mem_append_right l mem_cons_self
  have hself : (a.setSize p n).object p = ⟨(a.object p).begin, n, (a.object p).state⟩ :=
    update_self ..
  have hother : ∀ x, x ≠ p → (a.setSize p n).object x = a.object x := fun x hx =>
    update_of_ne hx ..
  have hnodup := h.nodup
  have htiles := h.tiles
  rw [layout, heq, map_append, map_cons] at htiles
  rw [heq] at hq hnodup
  obtain ⟨hl, hr⟩ := h.map_object heq fun x _ => hother x
  have hqp : q ≠ p := fun h => hq (h ▸ mem_append_right l mem_cons_self)
  have hfreeObject : ∀ x ∈ a.freeRegions, (a.setSize p n).object x = a.object x := fun x hx =>
    hother x fun h => hfree (h ▸ hx)
  have hcons : ((a.setSize p n).setAllRegions (l ++ p :: q :: r)).Consistent := by
    refine ⟨h.fits, ?_, ?_, fun x hx => ?_, fun x hx => ?_, h.sorted.congr fun x hx => ?_, ?_⟩
    · show Tiles a.pageSize _ a.wholeEnd ((l ++ p :: q :: r).map (a.setSize p n).object)
      rw [map_append, map_cons, map_cons, hl, hr, hself, hother q hqp, hobject]
      obtain ⟨m, hl, rfl, -, hbegin, hsize, hr⟩ := tiles_append.mp htiles
      refine tiles_append.mpr ⟨_, hl, rfl, hpos, hbegin, hdvd, rfl, ?_, ?_, ?_, ?_⟩
      · exact Nat.sub_pos_of_lt hlt
      · exact Nat.dvd_add hbegin hdvd
      · exact Nat.dvd_sub hsize hdvd
      · show Tiles _ ((a.object p).begin + n + ((a.object p).size - n)) _ _
        rwa [Nat.add_assoc, Nat.add_sub_cancel' hlt.le]
    · exact (perm_after l r p q).nodup_iff.mpr (nodup_cons.mpr ⟨hq, hnodup⟩)
    · rcases mem_cons.mp ((perm_after l r p q).subset hx) with rfl | hx
      · exact hunused
      · exact h.unused x (heq ▸ hx)
    · exact (perm_after l r p q).symm.subset
        (mem_cons_of_mem q (heq ▸ h.subset hx))
    · show toLex (((a.setSize p n).object x).size, ((a.setSize p n).object x).begin) = _
      rw [hfreeObject x hx]
      rfl
    · show a.freeSize = (a.freeRegions.map fun x => ((a.setSize p n).object x).size).sum
      rw [h.sum]
      exact congrArg List.sum (map_congr_left fun x hx => by rw [hfreeObject x hx])
  have hsorted : KeyedSet.Sorted (a.setSize p n).addressEnd (l ++ p :: q :: r) :=
    hcons.sorted_addressEnd
  refine ⟨_, ?_, hcons, ⟨rfl, rfl, rfl⟩, rfl, rfl, hself, hother⟩
  rw [cutRegion, show (a.setSize p n).allRegions = l ++ p :: r from heq, insert_after hsorted]
  rfl

/-! ## Splitting -/

/-- The region `p`, between `l` and `r`, is split after `n` addresses; `q` is the
second part. -/
structure SplitAt (a : RegionAllocator w) (l : List RegionPointer) (p q : RegionPointer)
    (r : List RegionPointer) (n : ℕ) (a' : RegionAllocator w) : Prop where
  consistent : a'.Consistent
  same : SameRange a a'
  allRegions : a'.allRegions = l ++ p :: q :: r
  first : a'.object p = ⟨(a.object p).begin, n, (a.object p).state⟩
  second : a'.object q =
    ⟨(a.object p).begin + n, (a.object p).size - n, (a.object p).state⟩
  other : ∀ x ∈ a.allRegions, x ≠ p → a'.object x = a.object x
  free : ∀ x, x ∈ a'.freeRegions ↔ x ∈ a.freeRegions ∨ (x = q ∧ (a.object p).state = .free)

theorem splitInto_spec (heq : a.allRegions = l ++ p :: r)
    (hfree : p ∈ a.freeRegions ↔ (a.object p).state = .free) (hq : q ∉ a.allRegions)
    (hunused : q < a.unused) {n : ℕ} (hpos : 0 < n) (hlt : n < (a.object p).size)
    (hdvd : a.pageSize ∣ n)
    (hobject : a.object q = ⟨(a.object p).begin + n, (a.object p).size - n, (a.object p).state⟩) :
    ∃ a', a.splitInto p q n = some a' ∧ a.SplitAt l p q r n a' := by
  have hqp : q ≠ p := fun h => hq (h ▸ heq ▸ mem_append_right l mem_cons_self)
  unfold splitInto
  split
  · next hstate =>
    obtain ⟨a₁, hr, h₁, hsame₁, hobj₁, hall₁, hun₁, hfree₁⟩ :=
      freeListRemoveRegion_spec h (hfree.mpr hstate)
    obtain ⟨a₂, hr₂, h₂, hsame₂, hall₂, hfree₂, hp₂, hother₂⟩ := cutRegion_spec h₁
      (hall₁.trans heq) (fun hp => ((hfree₁ p).mp hp).2 rfl) (hall₁ ▸ hq) (hun₁ ▸ hunused) hpos
      (hobj₁ ▸ hlt) (hsame₁.pageSize ▸ hdvd) (hobj₁ ▸ hobject)
    have hp₂' : p ∈ a₂.allRegions := hall₂ ▸ mem_append_right l mem_cons_self
    obtain ⟨a₃, hr₃, h₃, hsame₃, hobj₃, hall₃, -, hfree₃⟩ := freeListAddRegion_spec h₂ hp₂'
      (fun hp => ((hfree₁ p).mp (hfree₂ ▸ hp)).2 rfl)
    have hq₃ : q ∈ a₃.allRegions := by
      rw [hall₃, hall₂]
      exact mem_append_right l (mem_cons_of_mem p mem_cons_self)
    have hqfree : q ∉ a₃.freeRegions := by
      rw [hfree₃, hfree₂, hfree₁]
      rintro (⟨hmem, -⟩ | hmem)
      · exact hq (h.subset hmem)
      · exact hqp hmem
    obtain ⟨a₄, hr₄, h₄, hsame₄, hobj₄, hall₄, -, hfree₄⟩ := freeListAddRegion_spec h₃ hq₃ hqfree
    refine ⟨a₄, ?_, h₄, hsame₁.trans (hsame₂.trans (hsame₃.trans hsame₄)), ?_, ?_, ?_,
      fun x hx hxp => ?_, fun x => ?_⟩
    · simp only [hr, hr₂, hr₃, hr₄, Option.bind_eq_bind, Option.bind_some]
    · rw [hall₄, hall₃, hall₂]
    · rw [hobj₄, hobj₃, hp₂, hobj₁]
    · rw [hobj₄, hobj₃, hother₂ q hqp, hobj₁, hobject]
    · rw [hobj₄, hobj₃, hother₂ x hxp, hobj₁]
    · rw [hfree₄, hfree₃, hfree₂, hfree₁]
      have hpfree := hfree.mpr hstate
      by_cases hxp : x = p
      · subst hxp
        simp [hpfree]
      · simp [hxp, hstate]
  · next hstate =>
    obtain ⟨a₁, hr, h₁, hsame₁, hall₁, hfree₁, hp₁, hother₁⟩ := cutRegion_spec h heq
      (fun hp => hstate (hfree.mp hp)) hq hunused hpos hlt hdvd hobject
    refine ⟨a₁, hr, h₁, hsame₁, hall₁, hp₁, ?_, fun x _ hxp => hother₁ x hxp, fun x => ?_⟩
    · rw [hother₁ q hqp, hobject]
    · rw [hfree₁]
      simp [hstate]

theorem split_spec (heq : a.allRegions = l ++ p :: r)
    (hfree : p ∈ a.freeRegions ↔ (a.object p).state = .free) {n : ℕ} (hpos : 0 < n)
    (hlt : n < (a.object p).size) (hdvd : a.pageSize ∣ n) :
    ∃ a', a.split p n = some (a.unused, a') ∧ a.SplitAt l p a.unused r n a' := by
  have hp : p ∈ a.allRegions := heq ▸ mem_append_right l mem_cons_self
  have hmem := h.mem hp
  have hfits := h.fits
  have hbegin : Word.add w (a.object p).begin n = (a.object p).begin + n :=
    Word.add_of_lt (by omega)
  have hsize : Word.sub w (a.object p).size n = (a.object p).size - n :=
    Word.sub_of_le hlt.le (by omega)
  have hunused : a.unused ∉ a.allRegions := fun hmem => lt_irrefl _ (h.unused _ hmem)
  obtain ⟨region, hregion⟩ : ∃ region : Region,
      region = ⟨(a.object p).begin + n, (a.object p).size - n, (a.object p).state⟩ := ⟨_, rfl⟩
  -- the new object
  obtain ⟨h₁, hold⟩ := h.newRegion region
  have hrun : a.split p n = ((a.newRegion region).2.splitInto p a.unused n).bind
      fun a' => some (a.unused, a') := by
    rw [hregion, ← hbegin, ← hsize]
    rfl
  have hnew : (a.newRegion region).2.object a.unused = region := update_self ..
  rw [hrun]
  generalize ha₁ : (a.newRegion region).2 = a₁ at h₁ hold hnew ⊢
  obtain ⟨hall₁, hfree₁, hunused₁, hsame₁⟩ : a₁.allRegions = a.allRegions ∧
      a₁.freeRegions = a.freeRegions ∧ a₁.unused = a.unused + 1 ∧ SameRange a a₁ := by
    rw [← ha₁]
    exact ⟨rfl, rfl, rfl, rfl, rfl, rfl⟩
  have hp₁ := hold p hp
  obtain ⟨a', hr, hsplit⟩ := splitInto_spec h₁ (hall₁.trans heq)
    (by rw [hfree₁, hp₁]; exact hfree) (hall₁ ▸ hunused) (by rw [hunused₁]; exact lt_succ_self _)
    hpos (hp₁ ▸ hlt) (hsame₁.pageSize ▸ hdvd) (by rw [hp₁, hnew, hregion])
  rw [hr]
  refine ⟨a', rfl, hsplit.consistent, hsame₁.trans hsplit.same, hsplit.allRegions, ?_, ?_,
    fun x hx hxp => ?_, fun x => ?_⟩
  · rw [hsplit.first, hp₁]
  · rw [hsplit.second, hp₁]
  · rw [hsplit.other x (hall₁ ▸ hx) hxp, hold x hx]
  · rw [hsplit.free x, hfree₁, hp₁]

/-! ## Merging -/

theorem merge_spec (heq : a.allRegions = l ++ p :: q :: r)
    (hp : p ∉ a.freeRegions) (hq : q ∉ a.freeRegions) :
    (a.merge p q).Consistent ∧ SameRange a (a.merge p q) ∧
      (a.merge p q).allRegions = l ++ p :: r ∧ (a.merge p q).freeRegions = a.freeRegions ∧
      (a.merge p q).object p =
        ⟨(a.object p).begin, (a.object p).size + (a.object q).size, (a.object p).state⟩ ∧
      ∀ x, x ≠ p → (a.merge p q).object x = a.object x := by
  have hnodup := h.nodup
  have htiles := h.tiles
  have hfits := h.fits
  rw [heq] at hnodup
  rw [layout, heq, map_append, map_cons, map_cons] at htiles
  have hcons := (perm_after l r p q).nodup_iff.mp hnodup
  obtain ⟨hql, hnodup'⟩ := nodup_cons.mp hcons
  obtain ⟨m, hl, rfl, hpos, hbegin, hsize, hbeginq, -, -, hsizeq, hr⟩ := tiles_append.mp htiles
  have hadd : Word.add w (a.object p).size (a.object q).size =
      (a.object p).size + (a.object q).size := Word.add_of_lt (by have := hr.le; omega)
  have hself : (a.merge p q).object p =
      ⟨(a.object p).begin, (a.object p).size + (a.object q).size, (a.object p).state⟩ := by
    rw [← hadd]
    exact update_self ..
  have hother : ∀ x, x ≠ p → (a.merge p q).object x = a.object x := fun x hx =>
    update_of_ne hx ..
  obtain ⟨hmapl, hmapr⟩ := h.map_object heq fun x _ => hother x
  have hmapr := (List.cons.inj hmapr).2
  have hfreeObject : ∀ x ∈ a.freeRegions, (a.merge p q).object x = a.object x := fun x hx =>
    hother x fun h => hp (h ▸ hx)
  have hall : (a.merge p q).allRegions = l ++ p :: r := by
    show a.allRegions.erase q = _
    rw [heq, erase_append_right _ fun hl => hql (mem_append_left _ hl),
      erase_cons_tail, erase_cons_head]
    simpa using fun h : p = q => hql (h ▸ mem_append_right l mem_cons_self)
  refine ⟨⟨hfits, ?_, hall ▸ hnodup', fun x hx => ?_, fun x hx => ?_,
    h.sorted.congr fun x hx => ?_, ?_⟩, ⟨rfl, rfl, rfl⟩, hall, rfl, hself, hother⟩
  · rw [layout, hall, map_append, map_cons, hmapl, hmapr, hself]
    refine tiles_append.mpr ⟨_, hl, rfl, Nat.add_pos_left hpos _, hbegin, ?_, ?_⟩
    · exact Nat.dvd_add hsize hsizeq
    · show Tiles _ ((a.object p).begin + ((a.object p).size + (a.object q).size)) _ _
      rwa [← Nat.add_assoc]
  · rw [hall] at hx
    refine h.unused x (heq ▸ (perm_after l r p q).symm.subset ?_)
    exact mem_cons_of_mem q hx
  · have hmem := h.subset hx
    rw [heq] at hmem
    rw [hall]
    rcases mem_cons.mp ((perm_after l r p q).subset hmem) with rfl | hmem
    · exact absurd hx hq
    · exact hmem
  · rw [sizeAddress, sizeAddress, hfreeObject x hx]
  · rw [show (a.merge p q).freeSize = a.freeSize from rfl, h.sum]
    exact congrArg List.sum (map_congr_left fun x hx => by rw [hfreeObject x hx])

end RegionAllocator
