import V8Speak.RegionAllocatorCorrect

/-!
# The region allocator, run by run

Freeing a region, or the end of one, marks it as free and merges it with its free
neighbours before it is added to the set of free regions. Until then it is the one
free region that is not in the set (`Pending`). Merging, like splitting, changes no
state of any address (`SameStates`).

With this every call is accounted for (`Call.Effect`), given that its arguments are
legal (`Call.Legal`): sizes are positive multiples of the page size, alignments are
powers of two, and the sums of sizes and addresses the code computes do not wrap
around. The last condition is one the code has no check for: a size of almost the
whole address space, padded for an alignment, becomes small, and the allocation
succeeds.
-/

open List Option Word

namespace RegionAllocator

open Tiling

variable {w : ℕ} {a a' : RegionAllocator w} {p : RegionPointer} {L R : List Region}

/-! ## Freeing -/

/-- A region that is free, and not yet in the set of free regions. -/
structure Pending (a : RegionAllocator w) (p : RegionPointer) (L R : List Region) : Prop where
  consistent : a.Consistent
  free : ∀ x, x ∈ a.freeRegions ↔ (x ∈ a.allRegions ∧ (a.object x).state = .free) ∧ x ≠ p
  between : a.At p L R
  state : (a.object p).state = .free
  left : Coalesced (· = .free) L
  right : Coalesced (· = .free) R

/-- Nothing but the way the addresses are cut into regions changes. -/
structure SameStates (a a' : RegionAllocator w) : Prop where
  range : SameRange a a'
  states : ∀ x, a'.stateAt x = a.stateAt x

theorem SameStates.rfl : SameStates a a := ⟨.rfl, fun _ => .refl _⟩

/-- Nor do the regions in use change. -/
structure Merges (a a' : RegionAllocator w) : Prop extends SameStates a a' where
  used : ∀ t : Region, t.state ≠ .free → (t ∈ a'.layout ↔ t ∈ a.layout)

theorem Merges.rfl : Merges a a := ⟨.rfl, fun _ _ => .rfl⟩

theorem Merges.of_layout (range : SameRange a a') (h : a'.layout = a.layout) : Merges a a' :=
  ⟨⟨range, fun x => by rw [stateAt, stateAt, h]⟩, fun t _ => by rw [h]⟩

theorem Merges.trans {a'' : RegionAllocator w} (h : Merges a a') (h' : Merges a' a'') :
    Merges a a'' :=
  ⟨⟨h.range.trans h'.range, fun x => (h'.states x).trans (h.states x)⟩,
    fun t ht => (h'.used t ht).trans (h.used t ht)⟩

/-- **Merging a region with the next one**, where both are free, one of them is
pending and the other has been removed from the set of free regions. -/
theorem merge_same (h : a.Consistent) {l r : List RegionPointer} {q : RegionPointer}
    (heq : a.allRegions = l ++ p :: q :: r) (hp : (a.object p).state = .free)
    (hq : (a.object q).state = .free)
    (hfree : ∀ x, x ∈ a.freeRegions ↔
      (x ∈ a.allRegions ∧ (a.object x).state = .free) ∧ x ≠ p ∧ x ≠ q)
    (hleft : Coalesced (· = .free) (l.map a.object))
    (hright : Coalesced (· = .free) (r.map a.object)) :
    (a.merge p q).Pending p (l.map a.object) (r.map a.object) ∧ Merges a (a.merge p q) := by
  obtain ⟨h', hsame, heq', hfree', hself, hother⟩ := merge_spec h heq
    (fun hmem => ((hfree p).mp hmem).2.1 rfl) (fun hmem => ((hfree q).mp hmem).2.2 rfl)
  have hat : (a.merge p q).At p (l.map a.object) (r.map a.object) := by
    obtain ⟨hl, hr⟩ := h'.map_object heq'
      (show ∀ x ∈ (a.merge p q).allRegions, x ≠ p → a.object x = (a.merge p q).object x from
        fun x _ hx => (hother x hx).symm)
    exact ⟨l, r, heq', hl.symm, hr.symm⟩
  have hlayout := hat.layout
  have heq_layout : a.layout = l.map a.object ++ ([a.object p, a.object q] ++ r.map a.object) := by
    rw [layout, heq, map_append]
    rfl
  refine ⟨⟨h', fun x => ?_, hat, by rw [hself, hp], hleft, hright⟩, ⟨hsame, fun x => ?_⟩,
    fun t ht => ?_⟩
  · obtain ⟨hql, hqr⟩ := h.notMem (p := q) (l := l ++ [p]) (r := r) (by rw [heq]; simp)
    rw [hfree', hfree, heq, heq']
    by_cases hxp : x = p
    · simp [hxp]
    by_cases hxq : x = q
    · subst hxq
      rw [mem_append, not_or] at hql
      simp [hql.1, hqr, hxp]
    · rw [hother x hxp]
      simp [hxp, hxq]
  · have htiles := h'.tiles
    have htiles' := h.tiles
    rw [hlayout, wholeEnd, hsame.wholeRegion, hsame.pageSize] at htiles
    rw [heq_layout] at htiles'
    rw [stateAt, stateAt, hlayout, heq_layout]
    refine (stateAt_cut htiles htiles' (fun u hu => ?_) x).symm
    rw [hself, hp]
    rcases mem_pair.mp hu with rfl | rfl
    · exact hp
    · exact hq
  · -- the three regions that differ are free
    have hne : t ≠ (a.merge p q).object p ∧ t ≠ a.object p ∧ t ≠ a.object q :=
      ⟨fun h => ht (by rw [h, hself, hp]), fun h => ht (h ▸ hp), fun h => ht (h ▸ hq)⟩
    rw [hlayout, heq_layout]
    simp [hne]

/-- **Merging two free regions**, one of which is pending: the other one, `y`, is
removed from the set of free regions first. -/
theorem removeMerge_spec (h : a.Consistent) {l r : List RegionPointer} {q y z : RegionPointer}
    (heq : a.allRegions = l ++ p :: q :: r) (hyz : y = q ∧ z = p ∨ y = p ∧ z = q)
    (hp : (a.object p).state = .free) (hq : (a.object q).state = .free)
    (hfree : ∀ x, x ∈ a.freeRegions ↔ (x ∈ a.allRegions ∧ (a.object x).state = .free) ∧ x ≠ z)
    (hleft : Coalesced (· = .free) (l.map a.object))
    (hright : Coalesced (· = .free) (r.map a.object)) :
    ∃ a₁, a.freeListRemoveRegion y = some a₁ ∧
      (a₁.merge p q).Pending p (l.map a.object) (r.map a.object) ∧
      Merges a (a₁.merge p q) := by
  have hpq : p ≠ q := fun hpq => (h.notMem heq).2 (hpq ▸ mem_cons_self)
  have hy : y ∈ a.freeRegions := by
    rw [hfree, heq]
    obtain ⟨rfl, rfl⟩ | ⟨rfl, rfl⟩ := hyz
    · exact ⟨⟨by simp, hq⟩, hpq.symm⟩
    · exact ⟨⟨by simp, hp⟩, hpq⟩
  obtain ⟨a₁, hr, h₁, hsame, hobj, hall, -, hfree₁⟩ := freeListRemoveRegion_spec h hy
  rw [← hobj] at hp hq hleft hright ⊢
  obtain ⟨hpending, hmerges⟩ := merge_same h₁ (hall.trans heq) hp hq (fun x => by
      rw [hfree₁, hfree, hall, hobj]
      obtain ⟨rfl, rfl⟩ | ⟨rfl, rfl⟩ := hyz <;> tauto) hleft hright
  exact ⟨a₁, hr, hpending, (Merges.of_layout hsame (by rw [layout, layout, hall, hobj])).trans hmerges⟩

/-- Merging with the next region. -/
theorem mergeNext_spec (h : a.Pending p L R) :
    ∃ a' R', a.mergeNext p (some p) = some a' ∧ a'.Pending p L R' ∧ Merges a a' ∧
      ∀ t ∈ R'.head?, t.state ≠ .free := by
  obtain ⟨l, r, heq, rfl, rfl⟩ := h.between
  have htiles := h.consistent.tiles
  rw [h.between.layout] at htiles
  unfold mergeNext
  rw [h.consistent.endAddress h.between.mem, h.consistent.wholeRegion_endAddress]
  cases r with
  | nil =>
    rw [if_neg (not_not.mpr (htiles.end_eq_iff.mpr rfl))]
    exact ⟨a, _, rfl, h, .rfl, fun t ht => nomatch ht⟩
  | cons q r =>
    have hnext : KeyedSet.next a.allRegions p = some q := by
      rw [heq, KeyedSet.next_append_cons (h.consistent.notMem heq).1, head?_cons]
    rw [if_pos (mt htiles.end_eq_iff.mp (by simp))]
    simp only [hnext, bind_eq_bind, bind_some]
    by_cases hfree : (a.object q).state = .free
    · obtain ⟨-, hright, -, hhead⟩ := coalesced_append_cons (l := []).mp h.right
      obtain ⟨a₁, hr, hpending, hstates⟩ := removeMerge_spec h.consistent heq (.inl ⟨rfl, rfl⟩)
        h.state hfree h.free h.left hright
      refine ⟨a₁.merge p q, _, ?_, hpending, hstates, fun t ht hstate => hhead t ht ⟨hfree, hstate⟩⟩
      simp only [if_pos hfree, hr, bind_some]
    · refine ⟨a, _, if_neg hfree, h, .rfl, fun t ht => ?_⟩
      obtain rfl := Option.some.inj ht
      exact hfree

/-- Merging with the previous region. -/
theorem mergePrev_spec (h : a.Pending p L R) {newSize : ℕ}
    (hlast : newSize ≠ 0 → ∀ t ∈ L.getLast?, t.state ≠ .free) :
    ∃ p' a' L', a.mergePrev p (some p) newSize = some (p', a') ∧ a'.Pending p' L' R ∧ Merges a a' ∧
      ∀ t ∈ L'.getLast?, t.state ≠ .free := by
  obtain ⟨l, r, heq, rfl, rfl⟩ := h.between
  have htiles := h.consistent.tiles
  rw [h.between.layout] at htiles
  unfold mergePrev
  by_cases hsize : newSize = 0
  swap
  · exact ⟨p, a, _, if_neg fun h => hsize h.1, h, .rfl, hlast hsize⟩
  rcases eq_nil_or_concat' l with rfl | ⟨l, q, rfl⟩
  · rw [if_neg fun h => h.2 (htiles.begin_eq_iff.mpr rfl)]
    exact ⟨p, a, _, rfl, h, .rfl, fun t ht => nomatch ht⟩
  · have hprev : KeyedSet.prev a.allRegions p = some q := by
      rw [heq, KeyedSet.prev_append_cons (heq ▸ h.consistent.nodup), getLast?_concat]
    rw [if_pos ⟨hsize, mt htiles.begin_eq_iff.mp (by simp)⟩]
    simp only [hprev, bind_eq_bind, bind_some]
    by_cases hfree : (a.object q).state = .free
    · have hleft := h.left
      rw [map_append] at hleft
      obtain ⟨hleft, -, hlast', -⟩ := coalesced_append_cons.mp hleft
      rw [append_assoc] at heq
      obtain ⟨a₁, hr, hpending, hstates⟩ := removeMerge_spec h.consistent heq (.inr ⟨rfl, rfl⟩)
        hfree h.state h.free hleft h.right
      refine ⟨q, a₁.merge q p, _, ?_, hpending, hstates,
        fun t ht hstate => hlast' t ht ⟨hstate, hfree⟩⟩
      simp only [if_pos hfree, hr, bind_some]
    · refine ⟨p, a, _, if_neg hfree, h, .rfl, fun t ht => ?_⟩
      rw [map_append, map_singleton, getLast?_concat] at ht
      obtain rfl := Option.some.inj ht
      exact hfree

/-- The merged region is added to the set of free regions. -/
theorem freeListAddRegion_invariant (h : a.Pending p L R)
    (hlast : ∀ t ∈ L.getLast?, t.state ≠ .free) (hhead : ∀ t ∈ R.head?, t.state ≠ .free) :
    ∃ a', a.freeListAddRegion p = some a' ∧ a'.Invariant ∧ Merges a a' := by
  obtain ⟨a', hr, h', hsame, hobj, hall, -, hfree⟩ := freeListAddRegion_spec h.consistent
    h.between.mem fun hmem => ((h.free p).mp hmem).2 rfl
  have hlayout : a'.layout = a.layout := by rw [layout, layout, hall, hobj]
  refine ⟨a', hr, ⟨h', fun x => ?_, ?_⟩, .of_layout hsame hlayout⟩
  · rw [hfree, h.free, hall, hobj]
    by_cases hx : x = p
    · subst hx
      simp [h.between.mem, h.state]
    · simp [hx]
  · rw [hlayout, h.between.layout]
    exact coalesced_append_cons.mpr ⟨h.left, h.right, fun t ht hstate => hlast t ht hstate.1,
      fun t ht hstate => hhead t ht hstate.2⟩

variable {address newSize : ℕ}

/-- What is to be freed becomes a region of its own. -/
theorem splitFreed_spec (h : a.Invariant) (hat : a.At p L R)
    (hp : (a.object p).state = .allocated) (hlt : newSize < (a.object p).size)
    (hdvd : a.pageSize ∣ newSize) :
    ∃ q a' L', a.splitFreed p newSize = some (q, some q, a') ∧ a'.Consistent ∧ a'.FreeListed ∧
      SameStates a a' ∧ a'.At q L' R ∧ Coalesced (· = .free) L' ∧
      (newSize ≠ 0 → ∀ t ∈ L'.getLast?, t.state ≠ .free) ∧
      (L' = if newSize = 0 then L else L ++ [⟨(a.object p).begin, newSize, .allocated⟩]) ∧
      a'.object q = ⟨(a.object p).begin + newSize, (a.object p).size - newSize, .allocated⟩ := by
  have hcoalesced := h.coalesced
  rw [hat.layout] at hcoalesced
  obtain ⟨hleft, -, -, -⟩ := coalesced_append_cons.mp hcoalesced
  unfold splitFreed
  by_cases hsize : newSize = 0
  · subst hsize
    exact ⟨p, a, L, if_neg (by decide), h.consistent, h.free, .rfl, hat, hleft,
      fun h => absurd rfl h, (if_pos rfl).symm, by rw [← hp]; rfl⟩
  have hlayout := hat.layout
  have htiles := h.consistent.tiles
  obtain ⟨l, r, heq, rfl, rfl⟩ := hat
  have hmem : p ∈ a.allRegions := heq ▸ mem_append_right l mem_cons_self
  obtain ⟨a', hr, hsplit⟩ := split_spec h.consistent heq
    ((h.free p).trans (and_iff_right hmem)) (Nat.pos_of_ne_zero hsize) hlt hdvd
  obtain ⟨hl, hr'⟩ := h.consistent.map_object heq hsplit.other
  have hunused : a.unused ∉ a.allRegions := fun hmem => lt_irrefl _ (h.consistent.unused _ hmem)
  have hnext : KeyedSet.next a'.allRegions p = some a.unused := by
    rw [hsplit.allRegions, KeyedSet.next_append_cons (h.consistent.notMem heq).1, head?_cons]
  refine ⟨a.unused, a', l.map a.object ++ [a'.object p], ?_, hsplit.consistent,
    hsplit.freeListed heq hunused h.free, ⟨hsplit.same, fun x => ?_⟩,
    ⟨l ++ [p], r, ?_, ?_, hr'⟩, ?_, fun _ t ht => ?_,
    by rw [if_neg hsize, hsplit.first, hp], by rw [hsplit.second, hp]⟩
  · rw [if_pos (Nat.pos_of_ne_zero hsize)]
    simp only [hr, hnext, Option.bind_eq_bind, Option.bind_some]
  · have htiles' := hsplit.consistent.tiles
    have hlayout' : a'.layout = l.map a.object ++
        ([a'.object p, a'.object a.unused] ++ r.map a.object) := by
      rw [layout, hsplit.allRegions, map_append, map_cons, map_cons, hl, hr']
      rfl
    rw [hlayout] at htiles
    rw [hlayout', wholeEnd, hsplit.same.wholeRegion, hsplit.same.pageSize] at htiles'
    rw [stateAt, stateAt, hlayout, hlayout']
    refine stateAt_cut htiles htiles' (fun u hu => ?_) x
    rcases mem_pair.mp hu with rfl | rfl
    · rw [hsplit.first]
    · rw [hsplit.second]
  · rw [hsplit.allRegions, append_assoc, singleton_append]
  · rw [map_append, map_singleton, hl]
  · refine coalesced_append_cons.mpr ⟨hleft, .nil, fun t _ hstate => ?_, by simp⟩
    rw [hsplit.first, hp] at hstate
    cases hstate.2
  · rw [getLast?_concat] at ht
    obtain rfl := Option.some.inj ht
    rw [hsplit.first, hp]
    decide

/-- A region that is marked as free is pending. -/
theorem setState_free_spec (h : a.Consistent) (hfree : a.FreeListed) (hat : a.At p L R)
    (hp : (a.object p).state ≠ .free) (hleft : Coalesced (· = .free) L)
    (hright : Coalesced (· = .free) R) :
    (a.setState p .free).Pending p L R ∧ SameRange a (a.setState p .free) ∧
      ∀ x, (a.setState p .free).stateAt x =
        if Covers (a.object p) x then some .free else a.stateAt x := by
  have hself : (a.setState p .free).object p =
      ⟨(a.object p).begin, (a.object p).size, .free⟩ := Function.update_self ..
  have hother : ∀ x, x ≠ p → (a.setState p .free).object x = a.object x := fun x hx =>
    Function.update_of_ne hx ..
  have hat' : (a.setState p .free).At p L R := by
    obtain ⟨l, r, heq, rfl, rfl⟩ := hat
    obtain ⟨hl, hr⟩ := h.map_object heq fun x _ => hother x
    exact ⟨l, r, heq, hl, hr⟩
  refine ⟨⟨h.setState p .free, fun x => ?_, hat', by rw [hself], hleft, hright⟩,
    ⟨rfl, rfl, rfl⟩, fun x => ?_⟩
  · show x ∈ a.freeRegions ↔ (x ∈ a.allRegions ∧ _) ∧ _
    rw [hfree x]
    by_cases hx : x = p
    · subst hx
      simp [hp]
    · rw [hother x hx]
      simp [hx]
  · have htiles := h.tiles
    have htiles' : Tiles a.pageSize a.wholeRegion.begin a.wholeEnd (a.setState p .free).layout :=
      (h.setState p .free).tiles
    rw [hat.layout] at htiles
    rw [hat'.layout] at htiles'
    obtain ⟨hmid, hreplace⟩ := stateAt_replace htiles
      (show Tiles _ _ _ (L ++ ([(a.setState p .free).object p] ++ R)) from htiles')
    rw [stateAt, stateAt, hat'.layout, hat.layout]
    refine (hreplace x).trans ?_
    split
    · next hx =>
      rw [stateAt_of_mem hmid mem_cons_self (by rw [hself]; exact hx), hself]
    · rfl

/-- What freeing does: the range was allocated and is free now; everything else is
as it was. -/
structure Frees (a : RegionAllocator w) (begin size : ℕ) (a' : RegionAllocator w) : Prop where
  invariant : a'.Invariant
  same : SameRange a a'
  before : ∀ x, begin ≤ x → x < begin + size → a.stateAt x = some .allocated
  after : ∀ x, a'.stateAt x =
    if begin ≤ x ∧ x < begin + size then some .free else a.stateAt x

/-- An allocated region begins at the address. -/
def AllocatedAt (a : RegionAllocator w) (address size : ℕ) : Prop :=
  ⟨address, size, .allocated⟩ ∈ a.layout

/-- What trimming is for: the allocated region at `address` keeps `newSize` of its
`size` addresses, and exactly the rest becomes free, merged with its free neighbours.
Every other region in use is as before, and the free regions are what is between. The set of
free regions has just these, and the free size is theirs. -/
structure Trims (a : RegionAllocator w) (address size newSize : ℕ) (a' : RegionAllocator w) :
    Prop where
  tiles : Tiles a.pageSize a.wholeRegion.begin a.wholeEnd a'.layout
  merged : Coalesced (· = .free) a'.layout
  after : ∀ x, a'.stateAt x =
    if address + newSize ≤ x ∧ x < address + size then some .free else a.stateAt x
  used : ∀ t : Region, t.state ≠ .free → (t ∈ a'.layout ↔
    (t ∈ a.layout ∧ t.begin ≠ address) ∨ (newSize ≠ 0 ∧ t = ⟨address, newSize, .allocated⟩))
  listed : a'.FreeListed
  freeSize : a'.freeSize = (a'.freeRegions.map fun p => (a'.object p).size).sum

theorem SameRange.tiles (h : SameRange a a') (h' : a'.Consistent) :
    Tiles a.pageSize a.wholeRegion.begin a.wholeEnd a'.layout := by
  have := h'.tiles
  rwa [wholeEnd, h.wholeRegion, h.pageSize] at this

/-- The other regions begin elsewhere. -/
theorem At.begin_ne (h : a.Consistent) (hat : a.At p L R) {t : Region} (ht : t ∈ L ∨ t ∈ R) :
    t.begin ≠ (a.object p).begin := by
  have hpair := h.tiles.pairwise
  have htiles := h.tiles
  rw [hat.layout] at hpair htiles
  have hp := (htiles.mem (t := a.object p) (by simp)).2.2.1
  rw [pairwise_append, pairwise_cons] at hpair
  rcases ht with ht | ht
  · have := (htiles.mem (t := t) (by simp [ht])).2.2.1
    have := (hpair.2.2 t ht _ mem_cons_self).1
    omega
  · have := (hpair.2.1.1 t ht).1
    omega

/-- **`TrimRegion`** frees the end of an allocated region. -/
theorem trimRegion_spec (h : a.Invariant) (hx : address < 2 ^ w) (hdvd : a.pageSize ∣ newSize)
    (hlt : ∀ size, a.AllocatedAt address size → newSize < size) :
    (a.trimRegion address newSize = some (0, a) ∧ ∀ size, ¬a.AllocatedAt address size) ∨
      ∃ size a', a.AllocatedAt address size ∧
        a.trimRegion address newSize = some (size - newSize, a') ∧
        a.Frees (address + newSize) (size - newSize) a' ∧ a.Trims address size newSize a' := by
  have hregion : ∀ size, a.AllocatedAt address size → ∃ q ∈ a.allRegions,
      a.object q = ⟨address, size, .allocated⟩ ∧ Covers (a.object q) address := by
    intro size hmem
    obtain ⟨q, hq, hobj⟩ := mem_map.mp hmem
    have hcovers := h.consistent.covers_begin hq
    exact ⟨q, hq, hobj, hobj ▸ hcovers⟩
  unfold trimRegion
  rcases findRegion_spec h.consistent hx with ⟨hfind, hout⟩ | ⟨p, hp, hfind, hcovers⟩
  · refine .inl ⟨by rw [hfind]; rfl, fun size hmem => ?_⟩
    obtain ⟨q, hq, -, hqx⟩ := hregion size hmem
    have := h.consistent.mem hq
    exact hout ⟨this.1.trans hqx.1, hqx.2.trans_le this.2.1⟩
  simp only [hfind, bind_eq_bind, bind_some]
  split
  · next hfail =>
    refine .inl ⟨rfl, fun size hmem => ?_⟩
    obtain ⟨q, hq, hobj, hqx⟩ := hregion size hmem
    rw [h.consistent.eq_of_covers hp hq hcovers hqx, hobj] at hfail
    exact hfail.elim (fun h => h rfl) fun h => h rfl
  next hok =>
  rw [not_or, not_not, not_not] at hok
  obtain ⟨rfl, hstate⟩ := hok
  have hmem : a.AllocatedAt (a.object p).begin (a.object p).size :=
    mem_map.mpr ⟨p, hp, by rw [← hstate]⟩
  have hsize := hlt _ hmem
  obtain ⟨L, R, hat⟩ := RegionAllocator.exists_at hp
  have hright := h.coalesced
  rw [hat.layout] at hright
  obtain ⟨q, a₁, L₁, hr₁, h₁, hfree₁, hstates₁, hat₁, hleft₁, hlast₁, hL₁, hq₁⟩ :=
    splitFreed_spec h hat hstate hsize hdvd
  obtain ⟨hpending₂, hsame₂, hstates₂⟩ := setState_free_spec h₁ hfree₁ hat₁
    (by rw [hq₁]; exact nofun) hleft₁ (coalesced_append_cons.mp hright).2.1
  obtain ⟨a₃, R₃, hr₃, hpending₃, hmerges₃, hhead₃⟩ := mergeNext_spec hpending₂
  obtain ⟨p₄, a₄, L₄, hr₄, hpending₄, hmerges₄, hlast₄⟩ := mergePrev_spec hpending₃ hlast₁
  obtain ⟨a₅, hr₅, h₅, hmerges₅⟩ := freeListAddRegion_invariant hpending₄ hlast₄ hhead₃
  have hmerges := hmerges₃.trans (hmerges₄.trans hmerges₅)
  have hrange := hstates₁.range.trans (hsame₂.trans hmerges.range)
  have hafter : ∀ x, a₅.stateAt x = if Covers (a₁.object q) x then some .free else a.stateAt x :=
    fun x => by rw [hmerges.states, hstates₂, hstates₁.states]
  refine .inr ⟨_, a₅, hmem, ?_, ⟨h₅, hrange, fun x hx hlt => ?_, fun x => ?_⟩,
    ⟨hrange.tiles h₅.consistent, h₅.coalesced, fun x => ?_, fun t ht => ?_, h₅.free,
      h₅.consistent.sum⟩⟩
  · simp only [hr₁, hr₃, hr₄, hr₅, hq₁, bind_some]
  · rw [stateAt, stateAt_of_mem h.consistent.tiles (mem_map_of_mem hp)
      ⟨by omega, by omega⟩, hstate]
  · rw [hafter, hq₁]
    rfl
  · rw [hafter, hq₁]
    exact if_congr (by simp only [Covers]; omega) rfl rfl
  · -- the region that is pending is free, and what was split off it is in use
    have hne : t ≠ (a₁.setState q .free).object q := fun h => ht (h ▸ hpending₂.state)
    have hbegin := @At.begin_ne w a p L R h.consistent hat t
    rw [hmerges.used t ht, hpending₂.between.layout, hat.layout, hL₁]
    split <;> grind

/-! ## Queries -/

variable {size : ℕ}

/-- `IsFree`, for a range of the allocator with at least one address. -/
theorem isFree_spec (h : a.Invariant) (hpos : 0 < size) (hbegin : a.wholeRegion.begin ≤ address)
    (hend : address + size ≤ a.wholeEnd) :
    ∃ free, a.isFree address size = some free ∧
      (free = true ↔ ∀ x, address ≤ x → x < address + size → a.stateAt x = some .free) := by
  have hfits := h.consistent.fits
  have hcontains : ∀ region : Region, region.begin ≤ address →
      (region.containsRange w address size = true ↔
        address + size ≤ region.begin + region.size) := by
    intro region hle
    rw [Region.containsRange, decide_eq_true_iff, sub_of_le hle (by omega), add_of_lt (by omega)]
    omega
  unfold isFree
  rw [if_pos ((hcontains _ hbegin).mpr hend)]
  rcases findRegion_spec h.consistent (show address < 2 ^ w by omega) with
    ⟨-, hout⟩ | ⟨p, hp, hfind, hcovers⟩
  · exact absurd ⟨hbegin, by omega⟩ hout
  simp only [hfind, Option.bind_eq_bind, Option.bind_some]
  refine ⟨_, rfl, ?_⟩
  rw [decide_eq_true_iff, hcontains _ hcovers.1]
  constructor
  · rintro ⟨hstate, hle⟩ x hx hlt
    rw [stateAt, stateAt_of_mem h.consistent.tiles (mem_map_of_mem hp)
      ⟨hcovers.1.trans hx, by omega⟩, hstate]
  · intro hrun
    -- a run of free addresses is within one region
    obtain ⟨t, ht, hstate, hle, hge⟩ := exists_tile_of_run h.consistent.tiles h.coalesced hpos hbegin
      fun y hy hlt => ⟨_, hrun y hy hlt, rfl⟩
    obtain ⟨q, hq, rfl⟩ := mem_map.mp ht
    obtain rfl := h.consistent.eq_of_covers hp hq hcovers ⟨hle, by omega⟩
    exact ⟨hstate, hge⟩

/-- `CheckRegion`: the size of the used region that begins at the address, or 0. -/
theorem checkRegion_spec (h : a.Invariant) (hx : address < 2 ^ w) :
    ∃ size, a.checkRegion address = some size ∧ ∀ n, 0 < n →
      (size = n ↔ ∃ state, state ≠ .free ∧ (⟨address, n, state⟩ : Region) ∈ a.layout) := by
  unfold checkRegion
  rcases findRegion_spec h.consistent hx with ⟨hfind, hout⟩ | ⟨p, hp, hfind, hcovers⟩
  · refine ⟨0, by rw [hfind]; rfl, fun n hn => iff_of_false hn.ne fun ⟨state, _, hmem⟩ => ?_⟩
    have := h.consistent.tiles.mem hmem
    dsimp only at this
    exact hout ⟨this.1, by omega⟩
  have hregion : ∀ n state, 0 < n → (⟨address, n, state⟩ : Region) ∈ a.layout →
      a.object p = ⟨address, n, state⟩ := by
    intro n state hn hmem
    obtain ⟨q, hq, hobj⟩ := mem_map.mp hmem
    rw [h.consistent.eq_of_covers hp hq hcovers (hobj ▸ ⟨le_rfl, Nat.lt_add_of_pos_right hn⟩), hobj]
  simp only [hfind, Option.bind_eq_bind, Option.bind_some]
  split
  · next hfail =>
    refine ⟨0, rfl, fun n hn => iff_of_false hn.ne fun ⟨state, hstate, hmem⟩ => ?_⟩
    rw [hregion n state hn hmem] at hfail
    exact hfail.elim (fun h => h rfl) hstate
  · next hok =>
    rw [not_or, not_not] at hok
    refine ⟨_, rfl, fun n hn => ⟨?_, fun ⟨state, _, hmem⟩ => by rw [hregion n state hn hmem]⟩⟩
    rintro rfl
    exact ⟨_, hok.2, mem_map.mpr ⟨p, hp, by rw [← hok.1]⟩⟩

/-- **`AllocateRegion` fails only if there is no room.** -/
theorem allocateRegion_fails (h : a.Invariant) (hpos : 0 < size) (hdvd : a.pageSize ∣ size)
    (hfail : a.allocateRegion size = some (none, a)) {begin : ℕ} :
    ¬∀ x, begin ≤ x → x < begin + size → a.stateAt x = some .free := by
  intro hrun
  have hle : a.wholeRegion.begin ≤ begin := by
    by_contra hlt
    have hnone := h.consistent.tiles.stateAt_eq_none fun hin => hlt hin.1
    have := hrun begin le_rfl (by omega)
    rw [stateAt, hnone] at this
    cases this
  obtain ⟨t, ht, hstate, hbegin, hend⟩ := exists_tile_of_run h.consistent.tiles h.coalesced hpos hle
    fun y hy hlt => ⟨_, hrun y hy hlt, rfl⟩
  obtain ⟨q, hq, rfl⟩ := mem_map.mp ht
  have := (allocateRegion_spec h hpos hdvd).2 hfail q ((h.free q).mpr ⟨hq, hstate⟩)
  omega

/-! ## The constructor -/

/-- A fresh allocator has one free region, with all addresses. -/
theorem new_spec {memoryRegionBegin memoryRegionSize pageSize maxLoad : ℕ}
    (hsize : memoryRegionSize < 2 ^ w) (hpage : pageSize < 2 ^ w)
    (hnew : new w memoryRegionBegin memoryRegionSize pageSize maxLoad = some a) :
    a.Invariant ∧ a.Paged ∧ a.wholeRegion = ⟨memoryRegionBegin, memoryRegionSize, .free⟩ ∧
      a.pageSize = pageSize := by
  unfold new at hnew
  dsimp only at hnew
  split at hnew
  swap
  · cases hnew
  next hchecks =>
  obtain ⟨hlt, hpower, hsize_aligned, hbegin_aligned⟩ := hchecks
  obtain ⟨k, hk, rfl⟩ := isPowerOfTwo_spec hpage hpower
  rw [isAligned_iff hk.le] at hsize_aligned hbegin_aligned
  simp only [newRegion, KeyedSet.insert_nil, Option.bind_eq_bind, Option.bind_some] at hnew
  -- the sum would have to wrap around below the beginning
  have hfits : memoryRegionBegin + memoryRegionSize < 2 ^ w := by
    by_contra hge
    rw [Region.endAddress, add, Nat.mod_eq_sub_mod (not_lt.mp hge),
      Nat.mod_eq_of_lt (by omega)] at hlt
    omega
  rw [Region.endAddress, add_of_lt hfits] at hlt
  generalize ha₀ : setAllRegions _ _ = a₀ at hnew
  have hself : a₀.object 0 = ⟨memoryRegionBegin, memoryRegionSize, .free⟩ := by
    rw [← ha₀]
    rfl
  have hlayout : a₀.layout = [⟨memoryRegionBegin, memoryRegionSize, .free⟩] := by
    rw [← hself, ← ha₀]
    rfl
  have hpending : a₀.Pending 0 [] [] := by
    rw [← ha₀] at hlayout hself ⊢
    refine ⟨⟨hfits, ?_, nodup_singleton 0, ?_, nil_subset _, .nil, rfl⟩, fun x => ?_,
      ⟨[], [], rfl, rfl, rfl⟩, by rw [hself], .nil, .nil⟩
    · rw [hlayout]
      exact ⟨rfl, by dsimp only; omega, hbegin_aligned, hsize_aligned, rfl⟩
    · intro p hp
      rw [mem_singleton.mp hp]
      exact Nat.one_pos
    · exact iff_of_false not_mem_nil fun hx => hx.2 (mem_singleton.mp hx.1.1)
  obtain ⟨a', hr, h', hstates⟩ := freeListAddRegion_invariant hpending (by simp) (by simp)
  obtain rfl := Option.some.inj (hr.symm.trans hnew)
  refine ⟨h', ?_⟩
  unfold Paged
  rw [hstates.range.wholeRegion, hstates.range.pageSize, hstates.range.regionSizeInPages, ← ha₀]
  exact ⟨⟨(Nat.mul_div_cancel' hsize_aligned).symm,
    Nat.div_pos (Nat.le_of_dvd (by omega) hsize_aligned) (Nat.two_pow_pos k),
    hbegin_aligned⟩, rfl, rfl⟩

/-! ## Runs -/

variable (a)

/-- Sizes are positive multiples of the page size. -/
def LegalSize (size : ℕ) : Prop := 0 < size ∧ a.pageSize ∣ size

/-- Alignments are powers of two and multiples of the page size, and a size padded
for the alignment does not wrap around. -/
def LegalAlignment (size alignment : ℕ) : Prop :=
  (∃ k < w, alignment = 2 ^ k) ∧ a.pageSize ∣ alignment ∧ size + alignment < 2 ^ w + a.pageSize

/-- The calls with arguments the allocator is meant for. -/
def Call.Legal : Call → Prop
  | allocateRegion size => a.LegalSize size
  | allocateRegionRandom _ size => a.LegalSize size ∧ a.wholeEnd + size ≤ 2 ^ w
  | allocateRegionHint hint size alignment =>
    a.LegalSize size ∧ a.wholeEnd + size ≤ 2 ^ w ∧ a.LegalAlignment size alignment ∧
      hint < 2 ^ w ∧ alignment ∣ hint
  | allocateRegionAt requestedAddress size regionState =>
    a.LegalSize size ∧ a.pageSize ∣ requestedAddress ∧
      a.wholeRegion.begin ≤ requestedAddress ∧ requestedAddress + size ≤ a.wholeEnd ∧
      regionState ≠ .free
  | allocateAlignedRegion size alignment => a.LegalSize size ∧ a.LegalAlignment size alignment
  | freeRegion address => address < 2 ^ w
  | trimRegion address newSize =>
    address < 2 ^ w ∧ a.pageSize ∣ newSize ∧ ∀ size, a.AllocatedAt address size → newSize < size

/-- The size, the alignment and the state an allocation asks for. -/
def Call.request : Call → Option (ℕ × ℕ × RegionState)
  | allocateRegion size => some (size, a.pageSize, .allocated)
  | allocateRegionRandom _ size => some (size, a.pageSize, .allocated)
  | allocateRegionHint _ size alignment => some (size, alignment, .allocated)
  | allocateRegionAt _ size regionState => some (size, a.pageSize, regionState)
  | allocateAlignedRegion size alignment => some (size, alignment, .allocated)
  | freeRegion _ => none
  | trimRegion _ _ => none

/-- The address a call is about and the size it leaves there, if it frees. -/
def Call.release : Call → Option (ℕ × ℕ)
  | freeRegion address => some (address, 0)
  | trimRegion address newSize => some (address, newSize)
  | _ => none

/-- **What a call does.** -/
def Call.Effect (call : Call) (a' : RegionAllocator w) : Outcome → Prop
  | .failed => a' = a
  | .allocated address => ∃ size alignment state, call.request a = some (size, alignment, state) ∧
      alignment ∣ address ∧ a.Allocates address size state a' ∧
      ∀ requested size state, call = .allocateRegionAt requested size state → address = requested
  | .freed size => ∃ address newSize, call.release = some (address, newSize) ∧
      a.AllocatedAt address (newSize + size) ∧ a.Frees (address + newSize) size a'

variable {a}

/-- The allocators calls lead to. -/
inductive Reachable : RegionAllocator w → Prop
  | new {memoryRegionBegin memoryRegionSize pageSize maxLoadForRandomization : ℕ}
      {a : RegionAllocator w} (hsize : memoryRegionSize < 2 ^ w) (hpage : pageSize < 2 ^ w)
      (hnew : new w memoryRegionBegin memoryRegionSize pageSize maxLoadForRandomization = some a) :
      Reachable a
  | call {a a' : RegionAllocator w} {call : Call} {outcome : Outcome} (h : Reachable a)
      (hlegal : call.Legal a) (hrun : call.run a = some (outcome, a')) : Reachable a'

/-- An allocation as an outcome. -/
theorem AllocatesOrFails.effect {outcome : Option (Option ℕ × RegionAllocator w)}
    {size alignment : ℕ} (h : a.AllocatesOrFails size alignment outcome) {call : Call}
    (hrun : call.run a = outcome.bind fun r => some (.ofAddress r.1, r.2))
    (hrequest : call.request a = some (size, alignment, .allocated))
    (hat : ∀ requested size state, call ≠ .allocateRegionAt requested size state) :
    ∃ outcome a', call.run a = some (outcome, a') ∧ call.Effect a a' outcome := by
  obtain rfl | ⟨address, a', rfl, halign, halloc⟩ := h
  · exact ⟨.failed, a, hrun, rfl⟩
  · exact ⟨.allocated address, a', hrun, size, alignment, .allocated, hrequest, halign, halloc,
      fun _ _ _ heq => absurd heq (hat _ _ _)⟩

theorem Frees.effect (h : a.Invariant) (hx : address < 2 ^ w) (hdvd : a.pageSize ∣ newSize)
    (hlt : ∀ size, a.AllocatedAt address size → newSize < size) {call : Call}
    (hrun : call.run a = (a.trimRegion address newSize).bind fun r => some (.ofSize r.1, r.2))
    (hrelease : call.release = some (address, newSize)) :
    ∃ outcome a', call.run a = some (outcome, a') ∧ call.Effect a a' outcome := by
  rcases trimRegion_spec h hx hdvd hlt with
    ⟨htrim, -⟩ | ⟨size, a', hat, htrim, hfrees, -⟩
  · rw [htrim] at hrun
    exact ⟨.failed, a, hrun, rfl⟩
  · have hsize := hlt size hat
    rw [htrim, bind_some, Outcome.ofSize, if_neg (by omega)] at hrun
    refine ⟨.freed (size - newSize), a', hrun, address, newSize, hrelease, ?_, hfrees⟩
    rwa [Nat.add_sub_cancel' hsize.le]

/-- **A legal call is defined and does what it is for.** -/
theorem run_effect (h : a.Invariant) (hpaged : a.Paged) {call : Call} (hlegal : call.Legal a) :
    ∃ outcome a', call.run a = some (outcome, a') ∧ call.Effect a a' outcome := by
  cases call with
  | allocateRegion size =>
    exact (allocateRegion_spec h hlegal.1 hlegal.2).1.effect rfl rfl nofun
  | allocateRegionRandom rng size =>
    obtain ⟨⟨hpos, hdvd⟩, hend⟩ := hlegal
    exact (allocateRegionRandom_spec h hpaged hpos hdvd hend rng).effect rfl rfl nofun
  | allocateRegionHint hint size alignment =>
    obtain ⟨⟨hpos, hdvd⟩, hend, ⟨⟨k, hk, rfl⟩, halign, hlt⟩, hhint, hhint_align⟩ := hlegal
    exact (allocateRegionHint_spec h hhint hpos hdvd hend hk halign hlt hhint_align).effect rfl rfl
      nofun
  | allocateRegionAt requestedAddress size regionState =>
    obtain ⟨⟨hpos, hdvd⟩, halign, hbegin, hend, hstate⟩ := hlegal
    rcases allocateRegionAt_spec h hpos hdvd halign (hend.trans_lt h.consistent.fits) hstate with
      hr | ⟨a', hr, halloc⟩
    · refine ⟨.failed, a, ?_, rfl⟩
      rw [Call.run, hr]
      rfl
    · refine ⟨.allocated requestedAddress, a', ?_, size, a.pageSize, regionState, rfl, halign,
        halloc, fun requested size state heq => ?_⟩
      · rw [Call.run, hr]
        rfl
      · cases heq
        rfl
  | allocateAlignedRegion size alignment =>
    obtain ⟨⟨hpos, hdvd⟩, ⟨k, hk, rfl⟩, halign, hlt⟩ := hlegal
    exact (allocateAlignedRegion_spec h hpos hdvd hk halign hlt).effect rfl rfl nofun
  | freeRegion address =>
    refine Frees.effect h hlegal (Nat.dvd_zero _) (fun size hat => ?_) rfl rfl
    obtain ⟨q, hq, hobj⟩ := mem_map.mp hat
    have := (h.consistent.mem hq).2.2.1
    rwa [hobj] at this
  | trimRegion address newSize =>
    obtain ⟨hx, hdvd, hlt⟩ := hlegal
    exact Frees.effect h hx hdvd hlt rfl rfl

/-- The allocator stays within its range. -/
theorem Paged.same (h : a.Paged) (hsame : SameRange a a') : a'.Paged := by
  unfold Paged
  rwa [hsame.wholeRegion, hsame.pageSize, hsame.regionSizeInPages]

theorem Effect.invariant {call : Call} {outcome : Outcome} (h : a.Invariant) (hpaged : a.Paged)
    (heffect : call.Effect a a' outcome) : a'.Invariant ∧ a'.Paged := by
  cases outcome with
  | failed => exact heffect ▸ ⟨h, hpaged⟩
  | allocated address =>
    obtain ⟨_, _, _, -, -, halloc, -⟩ := heffect
    exact ⟨halloc.invariant, hpaged.same halloc.same⟩
  | freed size =>
    obtain ⟨_, _, -, -, hfrees⟩ := heffect
    exact ⟨hfrees.invariant, hpaged.same hfrees.same⟩

/-- The invariant holds in every run. -/
theorem Reachable.invariant (h : a.Reachable) : a.Invariant ∧ a.Paged := by
  induction h with
  | new hsize hpage hnew =>
    obtain ⟨hinv, hpaged, -⟩ := new_spec hsize hpage hnew
    exact ⟨hinv, hpaged⟩
  | call h hlegal hrun ih =>
    obtain ⟨outcome, a', hrun', heffect⟩ := run_effect ih.1 ih.2 hlegal
    obtain ⟨rfl, rfl⟩ := Prod.mk.inj (Option.some.inj (hrun'.symm.trans hrun))
    exact Effect.invariant ih.1 ih.2 heffect

/-- **The region allocator.** In every run the regions tile the range, the set of
free regions is the set of those that are free, the free size is their total size
and free neighbours are merged; every legal call is defined and does what it is
for; an allocation fails only if there is no room for it; and `IsFree` answers
whether all addresses of a range are free. -/
theorem reachable_spec (h : a.Reachable) :
    a.Invariant ∧
      (∀ call : Call, call.Legal a →
        ∃ outcome a', call.run a = some (outcome, a') ∧ call.Effect a a' outcome) ∧
      (∀ size, a.LegalSize size → a.allocateRegion size = some (none, a) →
        ∀ begin, ¬∀ x, begin ≤ x → x < begin + size → a.stateAt x = some .free) ∧
      ∀ address size, 0 < size → a.wholeRegion.begin ≤ address → address + size ≤ a.wholeEnd →
        ∃ free, a.isFree address size = some free ∧
          (free = true ↔ ∀ x, address ≤ x → x < address + size →
            a.stateAt x ≠ some .allocated ∧ a.stateAt x ≠ some .excluded) := by
  obtain ⟨hinv, hpaged⟩ := h.invariant
  refine ⟨hinv, fun call => run_effect hinv hpaged,
    fun size hsize hfail begin => allocateRegion_fails hinv hsize.1 hsize.2 hfail,
    fun address size hpos hbegin hend => ?_⟩
  obtain ⟨free, hr, hiff⟩ := isFree_spec hinv hpos hbegin hend
  refine ⟨free, hr, hiff.trans (forall₃_congr fun x hx hlt => ?_)⟩
  obtain ⟨t, ht, hcovers⟩ := hinv.consistent.tiles.exists_covers (hbegin.trans hx) (by omega)
  rw [stateAt, stateAt_of_mem hinv.consistent.tiles ht hcovers]
  cases t.state <;> decide

/-- An allocator of 16 pages, two of which have been allocated. -/
theorem exists_two_pages : ∃ a a' : RegionAllocator 64, a.Reachable ∧ a.pageSize = 0x1000 ∧
    a.layout = [⟨0x10000, 0x1000, .allocated⟩, ⟨0x11000, 0x1000, .allocated⟩,
      ⟨0x12000, 0xe000, .free⟩] ∧
    a.trimRegion 0x10000 0x1000 = some (0, a') ∧
    a'.layout = [⟨0x10000, 0x1000, .allocated⟩, ⟨0x11000, 0xf000, .allocated⟩] := by
  have hrun : ((new 64 0x10000 0x10000 0x1000 0).bind fun a =>
      ((Call.allocateRegion 0x1000).run a).bind fun r =>
        ((Call.allocateRegion 0x1000).run r.2).bind fun s => (s.2.trimRegion 0x10000 0x1000).map
          fun t => ((a.pageSize, r.2.pageSize, s.2.pageSize), s.2.layout, t.1, t.2.layout)) =
      some ((0x1000, 0x1000, 0x1000), [⟨0x10000, 0x1000, .allocated⟩,
        ⟨0x11000, 0x1000, .allocated⟩, ⟨0x12000, 0xe000, .free⟩], 0,
        [⟨0x10000, 0x1000, .allocated⟩, ⟨0x11000, 0xf000, .allocated⟩]) := by decide +kernel
  obtain ⟨a, ha, hrun⟩ := Option.bind_eq_some_iff.mp hrun
  obtain ⟨⟨o₁, a₁⟩, ha₁, hrun⟩ := Option.bind_eq_some_iff.mp hrun
  obtain ⟨⟨o₂, a₂⟩, ha₂, hrun⟩ := Option.bind_eq_some_iff.mp hrun
  obtain ⟨⟨n, a'⟩, ha', hrun⟩ := Option.map_eq_some_iff.mp hrun
  simp only [Prod.mk.injEq] at hrun
  obtain ⟨⟨hpage, hpage₁, hpage₂⟩, hlayout, rfl, hlayout'⟩ := hrun
  have hlegal : ∀ b : RegionAllocator 64, b.pageSize = 0x1000 →
      (Call.allocateRegion 0x1000).Legal b := fun b hb => ⟨by decide, by rw [hb]⟩
  have hreachable := (Reachable.new (by decide) (by decide) ha).call (hlegal a hpage) ha₁
  exact ⟨a₂, a', hreachable.call (hlegal a₁ hpage₁) ha₂, hpage₂, hlayout, ha', hlayout'⟩

/-- A third page, after two have been allocated. -/
theorem reachable_spec_page : ∃ a : RegionAllocator 64, a.Reachable ∧
    a.layout = [⟨0x10000, 0x1000, .allocated⟩, ⟨0x11000, 0x1000, .allocated⟩,
      ⟨0x12000, 0xe000, .free⟩] ∧ a.Invariant ∧
      ∃ outcome a', (Call.allocateRegion 0x1000).run a = some (outcome, a') ∧
        (Call.allocateRegion 0x1000).Effect a a' outcome := by
  obtain ⟨a, -, h, hpage, hlayout, -, -⟩ := exists_two_pages
  obtain ⟨hinv, hcalls, -⟩ := reachable_spec h
  refine ⟨a, h, hlayout, hinv, hcalls (.allocateRegion 0x1000) ⟨by decide, ?_⟩⟩
  rw [hpage]

/-- Without the conditions on sizes: the padded size wraps around, and the region
allocated ends beyond the range; and an empty range in an allocated region is not
free. -/
theorem allocateAlignedRegion_wraps :
    ((new 64 0x10000 0x10000 0x1000 0).bind fun a =>
      (a.allocateAlignedRegion (2 ^ 64 - 0x1000) 0x2000).map fun r => (r.1, r.2.layout)) =
        some (some 0x10000, [⟨0x10000, 2 ^ 64 - 0x1000, .allocated⟩, ⟨0xf000, 0x11000, .free⟩]) ∧
      ¬Tiles 0x1000 0x10000 0x20000 [(⟨0x10000, 2 ^ 64 - 0x1000, .allocated⟩ : Region),
        ⟨0xf000, 0x11000, .free⟩] ∧
      ((new 64 0x10000 0x10000 0x1000 0).bind fun a =>
        (a.allocateRegion 0x1000).bind fun r => r.2.isFree 0x10000 0) = some false := by
  refine ⟨by decide +kernel, fun h => ?_, by decide +kernel⟩
  exact absurd h.2.2.2.2.1 (by decide)

end RegionAllocator
