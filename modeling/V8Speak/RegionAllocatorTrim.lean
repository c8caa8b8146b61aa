import V8Speak.RegionAllocatorRuns

/-!
# Trimming a region to its own size

The new size a region is trimmed to may be the size it has: so says the comment of
`TrimRegion`, and nothing is to be freed then. The code splits the region all the
same. What it splits off is an object without addresses that ends where the region
ends, so that the set of all regions does not take it, and the iterator that is
moved to it is at the region after. The set of free regions does take it, and so has an
element that is no region (`not_freeListed_of_trimRegion_size`). On the way the wrong
regions are looked at: where the code means to merge what it has split off with its
neighbour, it merges the next two regions, if the second of them is free. A region that
is in use grows then; and if just one region follows, an iterator at the end is followed.

So `TrimRegion` does what it is for exactly if the new size is smaller (`trimRegion_iff`).
-/

open Word Function List

namespace RegionAllocator

open Option hiding or_self
open Tiling

variable {w : ℕ} {a : RegionAllocator w} {p : RegionPointer} {L R : List Region}
  {address size newSize : ℕ}

/-- Splitting off nothing makes an object that is in no set. -/
theorem split_size (h : a.Consistent) (hp : p ∈ a.allRegions)
    (hobject : a.object p = ⟨address, size, .allocated⟩) :
    a.split p size = some (a.unused, (a.newRegion ⟨address + size, 0, .allocated⟩).2) := by
  obtain ⟨h', hold⟩ := h.newRegion ⟨address + size, 0, .allocated⟩
  have hmem := h.mem hp
  have hend := h.endAddress hp
  have hfits := h.fits
  rw [hobject] at hmem hend
  dsimp only at hmem
  have hadd : add w address size = address + size := add_of_lt (by omega)
  have hsub : sub w size size = 0 := by rw [sub_of_le le_rfl (by omega), Nat.sub_self]
  set b := (a.newRegion ⟨address + size, 0, .allocated⟩).2 with hb
  have hpb : b.object p = ⟨address, size, .allocated⟩ := (hold p hp).trans hobject
  have hnew : b.object a.unused = ⟨address + size, 0, .allocated⟩ := update_self ..
  have hset : b.setSize p size = b := by
    have : update b.object p { b.object p with size } = b.object := by
      rw [hpb, ← hpb, update_eq_self]
    rw [setSize, this]
  have hinsert : KeyedSet.insert b.addressEnd b.allRegions a.unused = some b.allRegions := by
    rw [KeyedSet.insert, if_pos h'.sorted_addressEnd, if_pos]
    refine ⟨p, hp, ?_⟩
    rw [addressEnd, addressEnd, hpb, hnew, hend]
    exact (add_of_lt (by dsimp only; omega)).symm
  have hcut : b.splitInto p a.unused size = some b := by
    rw [splitInto, hpb, if_neg (by rintro ⟨⟩), cutRegion, hset, hinsert]
    rfl
  rw [split, hobject]
  simp only [hadd, hsub]
  show (b.splitInto p a.unused size).bind _ = _
  rw [hcut]
  rfl

/-- The allocator with an object that is free and has no addresses. -/
abbrev withEmpty (a : RegionAllocator w) (address : ℕ) : RegionAllocator w :=
  (a.newRegion ⟨address, 0, .free⟩).2

/-- The set of free regions takes an object without addresses, also if it is no region. -/
theorem not_freeListed_of_empty (h : a.Consistent) (hp : p ∉ a.allRegions)
    (hsize : (a.object p).size = 0) {a' : RegionAllocator w}
    (hadd : a.freeListAddRegion p = some a') : ¬a'.FreeListed := by
  have hnew : ∀ q ∈ a.freeRegions, a.sizeAddress q ≠ a.sizeAddress p := by
    intro q hq heq
    have hpos := (h.mem (h.subset hq)).2.2.1
    have := congrArg (fun k => (ofLex k).1) heq
    simp only [sizeAddress, ofLex_toLex, hsize] at this
    omega
  obtain ⟨free, hinsert, -, hperm⟩ := KeyedSet.insert_new h.sorted hnew
  rw [freeListAddRegion, hinsert] at hadd
  obtain rfl := Option.some.inj hadd
  exact fun hfree => hp ((hfree p).mp (hperm.symm.subset mem_cons_self)).1

/-- Trimming to the same size comes down to a misplaced merge. -/
theorem trimRegion_size (h : a.Invariant) (hp : p ∈ a.allRegions)
    (hobject : a.object p = ⟨address, size, .allocated⟩) :
    a.trimRegion address size =
      ((a.withEmpty (address + size)).mergeNext a.unused (KeyedSet.next a.allRegions p)).bind
        fun b => (b.freeListAddRegion a.unused).bind fun b => some (0, b) := by
  have hmem := h.consistent.mem hp
  have hfits := h.consistent.fits
  have hcovers := h.consistent.covers_begin hp
  rw [hobject] at hmem hcovers
  dsimp only at hmem
  have hfind : a.findRegion address = some (some p) := by
    rcases findRegion_spec h.consistent (show address < 2 ^ w by omega) with
      ⟨-, hout⟩ | ⟨q, hq, hfind, hq'⟩
    · exact absurd ⟨hmem.1, by omega⟩ hout
    · rw [hfind, h.consistent.eq_of_covers hp hq (hobject ▸ hcovers) hq']
  have hsplit : a.splitFreed p size = some (a.unused, KeyedSet.next a.allRegions p,
      (a.newRegion ⟨address + size, 0, .allocated⟩).2) := by
    rw [splitFreed, if_pos hmem.2.2.1, split_size h.consistent hp hobject]
    rfl
  have hempty : ((a.newRegion ⟨address + size, 0, .allocated⟩).2.setState a.unused .free) =
      a.withEmpty (address + size) := by
    simp only [withEmpty, setState, newRegion, update_self, update_idem]
  have hsize : ((a.newRegion ⟨address + size, 0, .allocated⟩).2.object a.unused).size = 0 := by
    simp only [newRegion, update_self]
  have hprev : ∀ (b : RegionAllocator w) iter, b.mergePrev a.unused iter size =
      some (a.unused, b) := fun b iter => if_neg fun h => hmem.2.2.1.ne' h.1
  rw [trimRegion, hfind]
  simp only [bind_eq_bind, bind_some, hobject, hsplit, hempty, hsize, hprev, ne_eq,
    not_true_eq_false, or_self, if_false]

theorem Consistent.next_next (h : a.Consistent) {l r : List RegionPointer} {x : RegionPointer}
    (heq : a.allRegions = l ++ p :: x :: r) : KeyedSet.next a.allRegions x = r.head? := by
  have heq' : a.allRegions = (l ++ [p]) ++ x :: r := by rw [heq, append_assoc]; rfl
  rw [heq', KeyedSet.next_append_cons (h.notMem heq').1]

/-- **Trimming to the same size** leaves an element in the set of free regions that is no
region, if it returns at all. -/
theorem not_freeListed_of_trimRegion_size (h : a.Invariant) (hat : a.At p L R)
    (hobject : a.object p = ⟨address, size, .allocated⟩) {res : ℕ × RegionAllocator w}
    (hrun : a.trimRegion address size = some res) : ¬res.2.FreeListed := by
  have hmem := hat.mem
  rw [trimRegion_size h hmem hobject] at hrun
  obtain ⟨b, hmerge, hrun⟩ := Option.bind_eq_some_iff.mp hrun
  obtain ⟨c, hadd, hc⟩ := Option.bind_eq_some_iff.mp hrun
  rw [← Option.some.inj hc]
  obtain ⟨l, r, heq, rfl, rfl⟩ := hat
  obtain ⟨h', hold⟩ := h.consistent.newRegion ⟨address + size, 0, .free⟩
  have hnew : (a.withEmpty (address + size)).object a.unused = ⟨address + size, 0, .free⟩ :=
    update_self ..
  have hunused : a.unused ∉ a.allRegions := fun hp => (h.consistent.unused _ hp).false
  have hsame : b = a.withEmpty (address + size) → ¬c.FreeListed := by
    rintro rfl
    exact not_freeListed_of_empty h' hunused (congrArg Tile.size hnew) hadd
  have hnext : KeyedSet.next a.allRegions p = r.head? := by
    rw [heq, KeyedSet.next_append_cons (h.consistent.notMem heq).1]
  rw [mergeNext, hnext] at hmerge
  split at hmerge
  swap
  · exact hsame (Option.some.inj hmerge).symm
  match r with
  | [] => exact nomatch hmerge
  | [x] =>
    -- `std::next` of the last region is not a region
    have hnone : KeyedSet.next (a.withEmpty (address + size)).allRegions x = none :=
      h.consistent.next_next heq
    simp only [head?_cons, bind_eq_bind, bind_some, hnone, bind_none] at hmerge
    exact nomatch hmerge
  | x :: y :: r =>
    have heq' : a.allRegions = (l ++ [p]) ++ x :: y :: r := by rw [heq]; simp
    have hy : y ∈ a.allRegions := by simp [heq]
    have hsome : KeyedSet.next (a.withEmpty (address + size)).allRegions x = some y :=
      h.consistent.next_next heq
    simp only [head?_cons, bind_eq_bind, bind_some, hsome] at hmerge
    split at hmerge
    swap
    · exact hsame (Option.some.inj hmerge).symm
    next hfree =>
    rw [hold y hy] at hfree
    have hxfree : (a.object x).state ≠ .free := by
      have hcoalesced := h.coalesced
      rw [layout, heq', map_append, map_cons] at hcoalesced
      exact fun hx => (coalesced_append_cons.mp hcoalesced).2.2.2 _ rfl ⟨hx, hfree⟩
    obtain ⟨d, hremove, hd, -, hobj, hall, -, hfree'⟩ := freeListRemoveRegion_spec h'
      ((h.free y).mpr ⟨hy, hfree⟩)
    obtain ⟨hmerged, -, hall', -, -, hother⟩ := merge_spec hd (hall.trans heq')
      (fun hx => hxfree ((h.free x).mp ((hfree' x).mp hx).1).2) fun hy => ((hfree' y).mp hy).2 rfl
    rw [hremove, bind_some] at hmerge
    obtain rfl := Option.some.inj hmerge
    have hne : a.unused ≠ x := fun hx => hunused (by simp [heq, hx])
    refine not_freeListed_of_empty hmerged ?_ (by rw [hother _ hne, hobj, hnew]) hadd
    rw [hall']
    exact fun hp => hunused (heq' ▸ by simp only [mem_append, mem_cons] at hp ⊢; tauto)

/-! ## All sizes -/

theorem exists_at_of_layout {t : Region} (h : a.layout = L ++ t :: R) :
    ∃ p, a.At p L R ∧ a.object p = t := by
  obtain ⟨l, r, heq, rfl, hr⟩ := map_eq_append_iff.mp h
  obtain ⟨p, r, rfl, rfl, rfl⟩ := map_eq_cons_iff.mp hr
  exact ⟨p, ⟨l, r, heq, rfl, rfl⟩, rfl⟩

/-- Regions that begin at the same address are the same. -/
theorem Consistent.eq_of_begin_eq (h : a.Consistent) {t u : Region} (ht : t ∈ a.layout)
    (hu : u ∈ a.layout) (hbegin : t.begin = u.begin) : t = u := by
  obtain ⟨p, hp, rfl⟩ := List.mem_map.mp ht
  obtain ⟨q, hq, rfl⟩ := List.mem_map.mp hu
  rw [h.eq_of_begin hp hq hbegin]

/-- The second page, found by its address. -/
theorem checkRegion_spec_two_pages :
    ∃ a : RegionAllocator 64, a.Reachable ∧ a.checkRegion 0x11000 = some 0x1000 := by
  obtain ⟨a, -, h, -, hlayout, -, -⟩ := exists_two_pages
  obtain ⟨size, hrun, hsize⟩ := checkRegion_spec h.invariant.1 (by decide : 0x11000 < 2 ^ 64)
  rw [(hsize 0x1000 (by decide)).mpr ⟨.allocated, by decide, by rw [hlayout]; decide⟩] at hrun
  exact ⟨a, h, hrun⟩

/-- **`TrimRegion`, for every size up to that of the region**, does what it is for
exactly if the new size is smaller. -/
theorem trimRegion_iff (h : a.Reachable) (hlayout : a.layout = L ++ ⟨address, size, .allocated⟩ :: R)
    (hdvd : a.pageSize ∣ newSize) (hle : newSize ≤ size) :
    (∃ a', a.trimRegion address newSize = some (size - newSize, a') ∧
      a.Trims address size newSize a') ↔ newSize < size := by
  obtain ⟨hinv, -⟩ := h.invariant
  rcases hle.lt_or_eq with hlt | rfl
  · have hallocated : a.AllocatedAt address size := by
      rw [AllocatedAt, hlayout]
      simp
    have hbounds := hinv.consistent.tiles.mem hallocated
    have hfits := hinv.consistent.fits
    dsimp only at hbounds
    have hunique : ∀ size', a.AllocatedAt address size' → size' = size := fun size' h' =>
      congrArg Tile.size (hinv.consistent.eq_of_begin_eq h' hallocated rfl)
    refine iff_of_true ?_ hlt
    rcases trimRegion_spec hinv (by omega) hdvd fun size' h' => (hunique size' h').symm ▸ hlt with
      ⟨-, hnone⟩ | ⟨size', a', h', htrim, -, htrims⟩
    · exact absurd hallocated (hnone size)
    · obtain rfl := hunique size' h'
      exact ⟨a', htrim, htrims⟩
  · obtain ⟨p, hat, hobject⟩ := exists_at_of_layout hlayout
    refine iff_of_false ?_ (lt_irrefl _)
    rintro ⟨a', htrim, htrims⟩
    exact not_freeListed_of_trimRegion_size hinv hat hobject htrim htrims.listed

/-- The first of two pages, freed. -/
theorem trimRegion_iff_two_pages : ∃ a a' : RegionAllocator 64, a.Reachable ∧
    a.trimRegion 0x10000 0 = some (0x1000, a') ∧ a.Trims 0x10000 0x1000 0 a' := by
  obtain ⟨a, -, h, -, hlayout, -, -⟩ := exists_two_pages
  obtain ⟨a', htrim, htrims⟩ := (trimRegion_iff (L := []) h hlayout (Nat.dvd_zero _)
    (Nat.zero_le _)).mpr (by decide)
  exact ⟨a, a', h, htrim, htrims⟩

/-- The first of two pages, trimmed to a page: the other one takes all that is free. -/
theorem not_trims_page : ∃ a a' : RegionAllocator 64, a.Reachable ∧ a.pageSize = 0x1000 ∧
    a.AllocatedAt 0x10000 0x1000 ∧ a.trimRegion 0x10000 0x1000 = some (0, a') ∧
    a'.layout = [⟨0x10000, 0x1000, .allocated⟩, ⟨0x11000, 0xf000, .allocated⟩] ∧
    ¬a.Trims 0x10000 0x1000 0x1000 a' := by
  obtain ⟨a, a', h, hpage, hlayout, htrim, hlayout'⟩ := exists_two_pages
  refine ⟨a, a', h, hpage, ?_, htrim, hlayout', fun htrims => ?_⟩
  · rw [AllocatedAt, hlayout]
    decide
  · have hused := (htrims.used ⟨0x11000, 0x1000, .allocated⟩ nofun).mpr
      (.inl ⟨by rw [hlayout]; decide, by decide⟩)
    rw [hlayout'] at hused
    exact absurd hused (by decide)

end RegionAllocator
