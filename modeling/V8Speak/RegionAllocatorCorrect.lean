import V8Speak.RegionAllocatorInvariant

/-!
# The region allocator hands out free regions

Between calls the set of free regions has all of them, and no two neighbouring
regions are free (`Invariant`). An allocation takes a part of one free region: it
cuts off what is before and after the part (`piece`), and marks the part as used.
Freeing a region, or the end of one, merges it with its free neighbours. A region
is described together with the regions on its left and right (`At`), and every
step says what becomes of the three.

Since free neighbours are merged, consecutive free addresses are within one
region. This is why `allocateRegion` fails only if there is no room, and why
`isFree` may look at a single region.
-/

open List Option Word Nat RegionState

namespace RegionAllocator

open Tiling

variable {w : ℕ} {a a' : RegionAllocator w} {p : RegionPointer} {L R : List Region}

/-! ## The invariant -/

/-- The set of free regions has the regions that are free. -/
def FreeListed (a : RegionAllocator w) : Prop :=
  ∀ p, p ∈ a.freeRegions ↔ p ∈ a.allRegions ∧ (a.object p).state = .free

/-- The state of an address. -/
def stateAt (a : RegionAllocator w) (x : ℕ) : Option RegionState := Tiling.stateAt a.layout x

/-- What holds between calls. -/
structure Invariant (a : RegionAllocator w) : Prop where
  consistent : a.Consistent
  free : a.FreeListed
  coalesced : Coalesced (· = .free) a.layout

/-- The region `p` is between the regions `L` and the regions `R`. -/
def At (a : RegionAllocator w) (p : RegionPointer) (L R : List Region) : Prop :=
  ∃ l r, a.allRegions = l ++ p :: r ∧ l.map a.object = L ∧ r.map a.object = R

theorem At.layout (h : a.At p L R) : a.layout = L ++ a.object p :: R := by
  obtain ⟨l, r, heq, rfl, rfl⟩ := h
  rw [RegionAllocator.layout, heq, map_append, map_cons]

theorem At.mem (h : a.At p L R) : p ∈ a.allRegions := by
  obtain ⟨l, r, heq, -, -⟩ := h
  exact heq ▸ mem_append_right l mem_cons_self

theorem exists_at (hp : p ∈ a.allRegions) : ∃ L R, a.At p L R := by
  obtain ⟨l, r, heq⟩ := append_of_mem hp
  exact ⟨_, _, l, r, heq, rfl, rfl⟩

/-! ## Finding regions -/

variable {address size : ℕ}

theorem Consistent.contains_iff (h : a.Consistent) (hx : address < 2 ^ w) :
    a.wholeRegion.contains w address = true ↔
      a.wholeRegion.begin ≤ address ∧ address < a.wholeEnd := by
  have hfits := h.fits
  unfold wholeEnd at hfits ⊢
  rw [Region.contains, decide_eq_true_iff]
  by_cases hle : a.wholeRegion.begin ≤ address
  · rw [sub_of_le hle hx]
    omega
  · rw [sub_of_lt (not_le.mp hle) (by omega)]
    omega

/-- The region found has the address. -/
theorem findRegion_spec (h : a.Consistent) (hx : address < 2 ^ w) :
    (a.findRegion address = some none ∧ ¬(a.wholeRegion.begin ≤ address ∧ address < a.wholeEnd)) ∨
    ∃ p ∈ a.allRegions, a.findRegion address = some (some p) ∧ Covers (a.object p) address := by
  unfold findRegion
  by_cases hin : a.wholeRegion.begin ≤ address ∧ address < a.wholeEnd
  · obtain ⟨t, ht, hcovers⟩ := h.tiles.exists_covers hin.1 hin.2
    obtain ⟨p, hp, rfl⟩ := mem_map.mp ht
    refine .inr ⟨p, hp, ?_, hcovers⟩
    rw [if_pos ((h.contains_iff hx).mpr hin), KeyedSet.upperBound, if_pos h.sorted_addressEnd]
    obtain ⟨l, r, heq⟩ := append_of_mem hp
    have hpair := h.tiles.pairwise
    rw [layout, heq, map_append, map_cons, pairwise_append] at hpair
    refine congrArg some (find?_eq_some_iff_append.mpr ⟨?_, l, r, heq, fun q hq => ?_⟩)
    · rw [decide_eq_true_iff, addressEnd, h.endAddress hp]
      exact hcovers.2
    · have hle := (hpair.2.2 _ (mem_map_of_mem hq) _ mem_cons_self).1
      have hbegin := hcovers.1
      have hq' : q ∈ a.allRegions := heq ▸ mem_append_left _ hq
      rw [Bool.not_eq_true', decide_eq_false_iff_not, addressEnd, h.endAddress hq']
      omega
  · refine .inl ⟨if_neg fun hc => hin ((h.contains_iff hx).mp hc), hin⟩

/-- The best fit is large enough, and there is none only if no free region is. -/
theorem freeListFindRegion_spec (h : a.Consistent) (size : ℕ) :
    (a.freeListFindRegion size = some none ∧ ∀ p ∈ a.freeRegions, (a.object p).size < size) ∨
    ∃ p ∈ a.freeRegions, a.freeListFindRegion size = some (some p) ∧ size ≤ (a.object p).size := by
  unfold freeListFindRegion KeyedSet.lowerBound
  rw [if_pos h.sorted]
  have hle : ∀ p, toLex (size, 0) ≤ a.sizeAddress p ↔ size ≤ (a.object p).size := by
    intro p
    rw [sizeAddress, Prod.Lex.toLex_le_toLex]
    omega
  cases hfind : a.freeRegions.find? fun p => toLex (size, 0) ≤ a.sizeAddress p with
  | none =>
    refine .inl ⟨rfl, fun p hp => ?_⟩
    have := find?_eq_none.mp hfind p hp
    rw [decide_eq_true_iff, hle] at this
    exact not_le.mp this
  | some p =>
    have hp := find?_some hfind
    rw [decide_eq_true_iff, hle] at hp
    exact .inr ⟨p, mem_of_find?_eq_some hfind, rfl, hp⟩

/-! ## Taking a part of a free region -/

/-- A free region with `n` addresses, if there are any. -/
def piece (b n : ℕ) : List Region := if n = 0 then [] else [⟨b, n, .free⟩]

theorem mem_piece {b n : ℕ} {t : Region} : t ∈ piece b n ↔ n ≠ 0 ∧ t = ⟨b, n, .free⟩ := by
  unfold piece
  split
  · next h => simp [h]
  · next h => simp [h]

variable {b n m : ℕ}

theorem SplitAt.freeListed {l r : List RegionPointer} {q : RegionPointer}
    (hat : a.SplitAt l p q r n a') (heq : a.allRegions = l ++ p :: r) (hq : q ∉ a.allRegions)
    (hfree : a.FreeListed) : a'.FreeListed := by
  have hall : ∀ x, x ∈ a'.allRegions ↔ x = q ∨ x ∈ a.allRegions := fun x => by
    rw [hat.allRegions, (KeyedSet.perm_after l r p q).mem_iff, mem_cons, heq]
  intro x
  rw [hat.free, hall, hfree x]
  by_cases hxq : x = q
  · subst hxq
    rw [hat.second]
    simp [hq]
  · by_cases hxp : x = p
    · subst hxp
      rw [hat.first]
      simp [hxq]
    · by_cases hx : x ∈ a.allRegions
      · rw [hat.other x hx hxp]
        simp [hxq]
      · simp [hxq, hx]

variable {c : Prop} {state : RegionState}

section

variable (h : a.Consistent) (hfree : a.FreeListed) (hat : a.At p L R)
  (hp : (a.object p).state = .free)
include h hfree hat hp

/-- **Cutting off the front** of a free region, if there is any. -/
theorem splitFront_spec [Decidable c] (hc : c ↔ n ≠ 0)
    (hlt : n < (a.object p).size) (hdvd : a.pageSize ∣ n) :
    ∃ p' a', (if c then a.split p n else some (p, a)) = some (p', a') ∧ a'.Consistent ∧
      a'.FreeListed ∧ SameRange a a' ∧ a'.At p' (L ++ piece (a.object p).begin n) R ∧
      a'.object p' = ⟨(a.object p).begin + n, (a.object p).size - n, .free⟩ := by
  by_cases hn : n = 0
  · refine ⟨p, a, if_neg fun h => hc.mp h hn, h, hfree, .rfl, ?_, ?_⟩
    · rwa [piece, if_pos hn, append_nil]
    · rw [hn, ← hp]
      rfl
  · obtain ⟨l, r, heq, rfl, rfl⟩ := hat
    have hmem : p ∈ a.allRegions := heq ▸ mem_append_right l mem_cons_self
    obtain ⟨a', hr, hsplit⟩ := split_spec h heq
      ((hfree p).trans (and_iff_right hmem)) (Nat.pos_of_ne_zero hn) hlt hdvd
    obtain ⟨hl, hr'⟩ := h.map_object heq hsplit.other
    have hunused : a.unused ∉ a.allRegions := fun hmem => lt_irrefl _ (h.unused _ hmem)
    refine ⟨_, a', (if_pos (hc.mpr hn)).trans hr, hsplit.consistent,
      hsplit.freeListed heq hunused hfree, hsplit.same, ⟨l ++ [p], r, ?_, ?_, hr'⟩, ?_⟩
    · rw [hsplit.allRegions, append_assoc, singleton_append]
    · rw [map_append, map_singleton, hl, hsplit.first, hp, piece, if_neg hn]
    · rw [hsplit.second, hp]

/-- **Cutting off the rest** of a free region, if there is any. -/
theorem splitBack_spec [Decidable c] (hc : c ↔ (a.object p).size ≠ n)
    (hpos : 0 < n) (hle : n ≤ (a.object p).size) (hdvd : a.pageSize ∣ n) :
    ∃ a', (if c then do some (← a.split p n).2 else some a) = some a' ∧ a'.Consistent ∧
      a'.FreeListed ∧ SameRange a a' ∧
      a'.At p L (piece ((a.object p).begin + n) ((a.object p).size - n) ++ R) ∧
      a'.object p = ⟨(a.object p).begin, n, .free⟩ := by
  by_cases hn : (a.object p).size = n
  · refine ⟨a, if_neg fun h => hc.mp h hn, h, hfree, .rfl, ?_, ?_⟩
    · rwa [piece, if_pos (by omega), nil_append]
    · rw [← hn, ← hp]
  · obtain ⟨l, r, heq, rfl, rfl⟩ := hat
    have hmem : p ∈ a.allRegions := heq ▸ mem_append_right l mem_cons_self
    obtain ⟨a', hr, hsplit⟩ := split_spec h heq
      ((hfree p).trans (and_iff_right hmem)) hpos (lt_of_le_of_ne hle (Ne.symm hn)) hdvd
    obtain ⟨hl, hr'⟩ := h.map_object heq hsplit.other
    have hunused : a.unused ∉ a.allRegions := fun hmem => lt_irrefl _ (h.unused _ hmem)
    refine ⟨a', ?_, hsplit.consistent, hsplit.freeListed heq hunused hfree, hsplit.same,
      ⟨l, a.unused :: r, hsplit.allRegions, hl, ?_⟩, ?_⟩
    · rw [if_pos (hc.mpr hn), hr]
      rfl
    · rw [map_cons, hr', hsplit.second, hp, piece, if_neg (by omega), singleton_append]
    · rw [hsplit.first, hp]

theorem markUsed_spec (hstate : state ≠ .free) :
    ∃ a', a.markUsed p state = some a' ∧ a'.Consistent ∧ a'.FreeListed ∧ SameRange a a' ∧
      a'.At p L R ∧ a'.object p = ⟨(a.object p).begin, (a.object p).size, state⟩ := by
  obtain ⟨a₁, hr, h₁, hsame, hobj, hall, -, hfree₁⟩ :=
    freeListRemoveRegion_spec h ((hfree p).mpr ⟨hat.mem, hp⟩)
  have hself : (a₁.setState p state).object p = ⟨(a.object p).begin, (a.object p).size, state⟩ := by
    rw [← hobj]
    exact Function.update_self ..
  have hother : ∀ x, x ≠ p → (a₁.setState p state).object x = a.object x := fun x hx => by
    rw [← hobj]
    exact Function.update_of_ne hx ..
  refine ⟨a₁.setState p state, by rw [markUsed, hr]; rfl, h₁.setState p state, fun x => ?_,
    ⟨hsame.wholeRegion, hsame.pageSize, hsame.regionSizeInPages⟩, ?_, hself⟩
  · show x ∈ a₁.freeRegions ↔ x ∈ a₁.allRegions ∧ _
    rw [hfree₁, hall, hfree x]
    by_cases hx : x = p
    · subst hx
      rw [hself]
      simp [hstate]
    · rw [hother x hx]
      simp [hx]
  · obtain ⟨l, r, heq, rfl, rfl⟩ := hat
    obtain ⟨hl, hr⟩ := h.map_object heq fun x _ => hother x
    exact ⟨l, r, hall.trans heq, hl, hr⟩

end

/-! ## Allocation -/

/-- What an allocation does: the range was free and has the state now; everything
else is as it was. -/
structure Allocates (a : RegionAllocator w) (address size : ℕ) (state : RegionState)
    (a' : RegionAllocator w) : Prop where
  invariant : a'.Invariant
  same : SameRange a a'
  aligned : a.pageSize ∣ address
  range : a.wholeRegion.begin ≤ address ∧ address + size ≤ a.wholeEnd
  before : ∀ x, address ≤ x → x < address + size → a.stateAt x = some .free
  after : ∀ x, a'.stateAt x =
    if address ≤ x ∧ x < address + size then some state else a.stateAt x

/-- Around a region that is no longer free there may be free ones. -/
theorem coalesced_pieces {t u : Region} (h : Coalesced (· = .free) (L ++ t :: R))
    (ht : t.state = .free) (hu : u.state ≠ .free) (b₁ n₁ b₂ n₂ : ℕ) :
    Coalesced (· = .free) (L ++ piece b₁ n₁ ++ u :: (piece b₂ n₂ ++ R)) := by
  obtain ⟨hL, hR, hlast, hhead⟩ := coalesced_append_cons.mp h
  refine coalesced_append_cons.mpr ⟨?_, ?_, fun _ _ h => hu h.2, fun _ _ h => hu h.1⟩
  · unfold piece
    split
    · rwa [append_nil]
    · exact coalesced_append_cons.mpr ⟨hL, .nil, fun v hv hfree => hlast v hv ⟨hfree.1, ht⟩,
        fun _ hv => nomatch hv⟩
  · unfold piece
    split
    · rwa [nil_append]
    · exact coalesced_append_cons.mpr ⟨.nil, hR, (fun _ hv => nomatch hv),
        fun v hv hfree => hhead v hv ⟨ht, hfree.2⟩⟩

variable (h : a.Invariant)
include h

/-- **Allocating a part of a free region**: `n` addresses before the part are cut off
and stay free, and so are those after it. -/
theorem allocates_of_pieces (hat : a.At p L R)
    (hp : (a.object p).state = .free) (hstate : state ≠ .free)
    (h' : a'.Consistent) (hfree : a'.FreeListed) (hsame : SameRange a a') {p' : RegionPointer}
    (hat' : a'.At p' (L ++ piece (a.object p).begin n)
      (piece ((a.object p).begin + n + size) ((a.object p).size - n - size) ++ R))
    (hp' : a'.object p' = ⟨(a.object p).begin + n, size, state⟩)
    (hle : n + size ≤ (a.object p).size) :
    a.Allocates ((a.object p).begin + n) size state a' := by
  have hlayout := hat.layout
  have hlayout' := hat'.layout
  have hmem := h.consistent.mem hat.mem
  have hmem' := h'.mem hat'.mem
  rw [hp'] at hlayout' hmem'
  -- all addresses of the region were free
  have hbefore : ∀ x, (a.object p).begin ≤ x → x < (a.object p).begin + (a.object p).size →
      a.stateAt x = some .free := fun x hx hlt => by
    rw [stateAt, stateAt_of_mem h.consistent.tiles (mem_map_of_mem hat.mem) ⟨hx, hlt⟩, hp]
  refine ⟨⟨h', hfree, ?_⟩, hsame, hsame.pageSize ▸ hmem'.2.2.2.1, ⟨by omega, by omega⟩,
    fun x hx hlt => hbefore x (by omega) (by omega), fun x => ?_⟩
  · rw [hlayout']
    exact coalesced_pieces (hlayout ▸ h.coalesced) hp hstate _ _ _ _
  · -- the pieces and the part, in the place of the region
    have htiles := h.consistent.tiles
    have htiles' := h'.tiles
    rw [hlayout] at htiles
    rw [append_assoc, ← cons_append, ← append_assoc (piece _ n)] at hlayout'
    rw [hlayout', wholeEnd, hsame.wholeRegion, hsame.pageSize] at htiles'
    obtain ⟨hmid, hreplace⟩ := stateAt_replace htiles htiles'
    rw [stateAt, hlayout', hreplace x, ← hlayout]
    by_cases hcovers : Covers (a.object p) x
    · rw [if_pos hcovers, hbefore x hcovers.1 hcovers.2]
      obtain ⟨t, ht, htx⟩ := hmid.exists_covers hcovers.1 hcovers.2
      rw [stateAt_of_mem hmid ht htx]
      rcases mem_append.mp ht with ht | ht
      · obtain ⟨-, rfl⟩ := mem_piece.mp ht
        rw [if_neg (fun h => by have := htx.2; dsimp only at this; omega)]
      rcases mem_cons.mp ht with rfl | ht
      · exact (if_pos htx).symm
      · obtain ⟨-, rfl⟩ := mem_piece.mp ht
        rw [if_neg (fun h => by have := htx.1; dsimp only at this; omega)]
    · rw [if_neg hcovers, if_neg (fun h => hcovers ⟨by omega, by omega⟩)]
      rfl

omit h in
/-- An allocation fails and changes nothing, or gives a range with the alignment. -/
def AllocatesOrFails (a : RegionAllocator w) (size alignment : ℕ)
    (outcome : Option (Option ℕ × RegionAllocator w)) : Prop :=
  outcome = some (none, a) ∨ ∃ address a', outcome = some (some address, a') ∧
    alignment ∣ address ∧ a.Allocates address size .allocated a'

/-- Free regions are regions that are free. -/
theorem Invariant.exists_at (hp : p ∈ a.freeRegions) :
    (a.object p).state = .free ∧ ∃ L R, a.At p L R := by
  obtain ⟨hmem, hstate⟩ := (h.free p).mp hp
  exact ⟨hstate, RegionAllocator.exists_at hmem⟩

/-- The steps all allocations end with, for a free region `p` that the front has been
cut off. -/
theorem take_spec (hat : a.At p L R) (hp : (a.object p).state = .free)
    {a₁ : RegionAllocator w} {p₁ : RegionPointer} (h₁ : a₁.Consistent) (hfree₁ : a₁.FreeListed)
    (hsame₁ : SameRange a a₁) (hat₁ : a₁.At p₁ (L ++ piece (a.object p).begin n) R)
    (hp₁ : a₁.object p₁ = ⟨(a.object p).begin + n, (a.object p).size - n, .free⟩)
    (hpos : 0 < size) (hle : n + size ≤ (a.object p).size) (hdvd : a.pageSize ∣ size)
    (hstate : state ≠ .free) [Decidable c] (hc : c ↔ (a₁.object p₁).size ≠ size) :
    ∃ a₂ a₃, (if c then do some (← a₁.split p₁ size).2 else some a₁) = some a₂ ∧
      a₂.markUsed p₁ state = some a₃ ∧ (a₃.object p₁).begin = (a.object p).begin + n ∧
      a.Allocates ((a.object p).begin + n) size state a₃ := by
  have hp₁state : (a₁.object p₁).state = .free := by rw [hp₁]
  have hp₁size : (a₁.object p₁).size = (a.object p).size - n := by rw [hp₁]
  have hp₁begin : (a₁.object p₁).begin = (a.object p).begin + n := by rw [hp₁]
  obtain ⟨a₂, hr₂, h₂, hfree₂, hsame₂, hat₂, hp₂⟩ := splitBack_spec h₁ hfree₁ hat₁ hp₁state hc
    hpos (by omega) (hsame₁.pageSize ▸ hdvd)
  rw [hp₁begin] at hp₂ hat₂
  rw [hp₁size] at hat₂
  obtain ⟨a₃, hr₃, h₃, hfree₃, hsame₃, hat₃, hp₃⟩ := markUsed_spec h₂ hfree₂ hat₂
    (by rw [hp₂]) hstate
  rw [hp₂] at hp₃
  exact ⟨a₂, a₃, hr₂, hr₃, by rw [hp₃], allocates_of_pieces h hat hp hstate h₃ hfree₃
    (hsame₁.trans (hsame₂.trans hsame₃)) hat₃ hp₃ hle⟩

theorem allocateRegion_spec (hpos : 0 < size) (hdvd : a.pageSize ∣ size) :
    a.AllocatesOrFails size a.pageSize (a.allocateRegion size) ∧
      (a.allocateRegion size = some (none, a) → ∀ p ∈ a.freeRegions, (a.object p).size < size) := by
  unfold allocateRegion
  rcases freeListFindRegion_spec h.consistent size with ⟨hfind, hnone⟩ | ⟨p, hp, hfind, hle⟩
  · rw [hfind]
    exact ⟨.inl rfl, fun _ => hnone⟩
  · obtain ⟨hstate, L, R, hat⟩ := h.exists_at hp
    obtain ⟨a₂, a₃, hr₂, hr₃, hbegin, halloc⟩ := take_spec h hat hstate h.consistent h.free
      .rfl (by rwa [piece, if_pos rfl, append_nil]) (by rw [← hstate]; rfl) hpos (by omega) hdvd
      (show allocated ≠ .free by decide) Iff.rfl
    have hrest : a.splitRest p size = some a₂ := hr₂
    simp only [hfind, hrest, hr₃, hbegin, Option.bind_eq_bind, Option.bind_some]
    exact ⟨.inr ⟨_, a₃, rfl, halloc.aligned, halloc⟩, fun hfail => nomatch hfail⟩

/-- `AllocateRegionAt`, for a range that does not wrap around. -/
theorem allocateRegionAt_spec (hpos : 0 < size) (hdvd : a.pageSize ∣ size)
    (haddress : a.pageSize ∣ address) (hlt : address + size < 2 ^ w)
    (hstate : state ≠ .free) :
    a.allocateRegionAt address size state = some (false, a) ∨
      ∃ a', a.allocateRegionAt address size state = some (true, a') ∧
        a.Allocates address size state a' := by
  unfold allocateRegionAt
  rcases findRegion_spec h.consistent (show address < 2 ^ w by omega) with
    ⟨hfind, -⟩ | ⟨p, hp, hfind, hcovers⟩
  · rw [hfind]
    exact .inl rfl
  simp only [hfind, bind_eq_bind, bind_some, add_of_lt hlt, h.consistent.endAddress hp]
  split
  · exact .inl rfl
  next hfree =>
  rw [not_or, not_not, not_lt] at hfree
  obtain ⟨hp_free, hend⟩ := hfree
  obtain ⟨L, R, hat⟩ := RegionAllocator.exists_at hp
  have hmem := h.consistent.mem hp
  have hsub : sub w address (a.object p).begin = address - (a.object p).begin :=
    sub_of_le hcovers.1 (by omega)
  have hoffset : (a.object p).begin + (address - (a.object p).begin) = address :=
    Nat.add_sub_cancel' hcovers.1
  obtain ⟨p₁, a₁, hr₁, h₁, hfree₁, hsame₁, hat₁, hp₁⟩ := splitFront_spec
    (c := (a.object p).begin ≠ address) h.consistent h.free hat
    hp_free (by have := hcovers.1; omega) (by have := hcovers.2; omega)
    (Nat.dvd_sub haddress hmem.2.2.2.1)
  have hbefore : a.splitBefore p address = some (p₁, a₁) := by rw [splitBefore, hsub, hr₁]
  obtain ⟨a₂, a₃, hr₂, hr₃, -, halloc⟩ := take_spec
    (c := (a₁.object p₁).endAddress w ≠ address + size) h hat hp_free h₁ hfree₁ hsame₁ hat₁ hp₁ hpos
    (by omega) hdvd hstate (by
      rw [h₁.endAddress hat₁.mem, hp₁]
      dsimp only
      omega)
  have hafter : a₁.splitAfter p₁ (address + size) size = some a₂ := hr₂
  rw [hoffset] at halloc
  refine .inr ⟨a₃, ?_, halloc⟩
  simp only [hbefore, hafter, hr₃, bind_some]

omit h in
/-- The pages of the range, as the constructor counts them. -/
def Paged (a : RegionAllocator w) : Prop :=
  a.wholeRegion.size = a.pageSize * a.regionSizeInPages ∧ 0 < a.regionSizeInPages ∧
    a.pageSize ∣ a.wholeRegion.begin

/-- Every attempt at a random address leaves the allocator as it was, or succeeds. -/
theorem allocateAtRandom_spec (hpaged : a.Paged) (hpos : 0 < size)
    (hdvd : a.pageSize ∣ size) (hlt : a.wholeEnd + size ≤ 2 ^ w) (randoms : List ℕ) :
    a.allocateAtRandom size randoms = some none ∨
      ∃ address a', a.allocateAtRandom size randoms = some (some (address, a')) ∧
        a.Allocates address size .allocated a' := by
  induction randoms with
  | nil => exact .inl rfl
  | cons random randoms ih =>
    obtain ⟨hsize, hpages, hbegin⟩ := hpaged
    have hoffset : a.pageSize * (random % a.regionSizeInPages) < a.wholeRegion.size := by
      rw [hsize]
      refine Nat.mul_lt_mul_of_pos_left (mod_lt _ hpages) (Nat.pos_of_ne_zero fun h0 => ?_)
      rw [h0, Nat.zero_dvd] at hdvd
      omega
    have hfits := h.consistent.fits
    unfold wholeEnd at hfits hlt
    unfold allocateAtRandom
    dsimp only
    rw [add_of_lt (by omega)]
    rcases allocateRegionAt_spec h hpos hdvd (Nat.dvd_add hbegin (Nat.dvd_mul_right ..))
      (show a.wholeRegion.begin + a.pageSize * (random % a.regionSizeInPages) + size < 2 ^ w by omega)
      (show allocated ≠ .free by decide) with hr | ⟨a', hr, halloc⟩
    · simp only [hr, Option.bind_eq_bind, Option.bind_some]
      exact ih
    · simp only [hr, Option.bind_eq_bind, Option.bind_some]
      exact .inr ⟨_, a', rfl, halloc⟩

theorem allocateRegionRandom_spec (hpaged : a.Paged) (hpos : 0 < size)
    (hdvd : a.pageSize ∣ size) (hlt : a.wholeEnd + size ≤ 2 ^ w) (rng : ℕ → ℕ) :
    a.AllocatesOrFails size a.pageSize (a.allocateRegionRandom rng size) := by
  have hplain := (allocateRegion_spec h hpos hdvd).1
  unfold allocateRegionRandom
  split
  · rcases allocateAtRandom_spec h hpaged hpos hdvd hlt
      ((List.range kMaxRandomizationAttempts).map rng) with hr | ⟨address, a', hr, halloc⟩
    · rw [hr]
      exact hplain
    · rw [hr]
      exact .inr ⟨address, a', rfl, halloc.aligned, halloc⟩
  · exact hplain

variable {k : ℕ}

omit h in
/-- What is before the first aligned address is less than the padding. -/
theorem splitUnaligned_eq (h : a.Consistent) (hp : p ∈ a.allRegions) (hk : k < w)
    (halign : a.pageSize ∣ 2 ^ k) (hle : 2 ^ k ≤ (a.object p).size) :
    ∃ n, 2 ^ k ∣ (a.object p).begin + n ∧ n + a.pageSize ≤ 2 ^ k ∧ a.pageSize ∣ n ∧
      (isAligned w (a.object p).begin (2 ^ k) = false ↔ n ≠ 0) ∧
      a.splitUnaligned p (2 ^ k) =
        if isAligned w (a.object p).begin (2 ^ k) = false then a.split p n
        else some (p, a) := by
  have hmem := h.mem hp
  have hfits := h.fits
  obtain ⟨hup, hge, hlt⟩ := roundUp_spec hk (show (a.object p).begin + 2 ^ k < 2 ^ w by omega)
  generalize hstart : Word.roundUp w (a.object p).begin (2 ^ k) = start at hup hge hlt
  have hdvd : a.pageSize ∣ start - (a.object p).begin :=
    Nat.dvd_sub (halign.trans hup) hmem.2.2.2.1
  refine ⟨start - (a.object p).begin, ?_, ?_, hdvd, ?_, ?_⟩
  · rwa [Nat.add_sub_cancel' hge]
  · have hpos : 0 < 2 ^ k - (start - (a.object p).begin) := by omega
    have := le_of_dvd hpos (Nat.dvd_sub halign hdvd)
    omega
  · rw [← Bool.not_eq_true, isAligned_iff hk.le]
    refine not_congr ⟨fun hbegin => ?_, fun h0 => ?_⟩
    · -- two multiples of the alignment less than that apart
      exact eq_zero_of_dvd_of_lt (Nat.dvd_sub hup hbegin) (by omega)
    · rwa [show (a.object p).begin = start by omega]
  · unfold splitUnaligned
    dsimp only
    rw [hstart, sub_of_le hge (by omega)]

/-- `AllocateAlignedRegion`, for a padded size that does not wrap around. -/
theorem allocateAlignedRegion_spec (hpos : 0 < size) (hdvd : a.pageSize ∣ size)
    (hk : k < w) (halign : a.pageSize ∣ 2 ^ k) (hlt : size + 2 ^ k < 2 ^ w + a.pageSize) :
    a.AllocatesOrFails size (2 ^ k) (a.allocateAlignedRegion size (2 ^ k)) := by
  have hpage : a.pageSize ≤ size := le_of_dvd hpos hdvd
  have hpage' : a.pageSize ≤ 2 ^ k := le_of_dvd (Nat.two_pow_pos k) halign
  have hpow : 2 ^ k < 2 ^ w := Nat.pow_lt_pow_right (by decide) hk
  unfold allocateAlignedRegion
  dsimp only
  rw [Word.sub_add (by omega) (by omega) (by omega)]
  rcases freeListFindRegion_spec h.consistent (size + 2 ^ k - a.pageSize) with
    ⟨hfind, -⟩ | ⟨p, hp, hfind, hle⟩
  · rw [hfind]
    exact .inl rfl
  obtain ⟨hstate, L, R, hat⟩ := h.exists_at hp
  obtain ⟨n, hn, hn_le, hn_dvd, hunaligned⟩ := splitUnaligned_eq h.consistent hat.mem hk halign
    (by omega)
  obtain ⟨p₁, a₁, hr₁, h₁, hfree₁, hsame₁, hat₁, hp₁⟩ := splitFront_spec
    h.consistent h.free hat hstate hunaligned.1 (by omega) hn_dvd
  obtain ⟨a₂, a₃, hr₂, hr₃, hbegin, halloc⟩ := take_spec h hat hstate h₁ hfree₁ hsame₁ hat₁ hp₁ hpos
    (by omega) hdvd (show allocated ≠ .free by decide) Iff.rfl
  have hfront : a.splitUnaligned p (2 ^ k) = some (p₁, a₁) := hunaligned.2.trans hr₁
  have hrest : a₁.splitRest p₁ size = some a₂ := hr₂
  simp only [hfind, hfront, hrest, hr₃, hbegin, Option.bind_eq_bind, Option.bind_some]
  exact .inr ⟨_, a₃, rfl, hn, halloc⟩

/-- `AllocateRegion` with a hint. -/
theorem allocateRegionHint_spec {hint : ℕ} (hhint : hint < 2 ^ w)
    (hpos : 0 < size) (hdvd : a.pageSize ∣ size) (hend : a.wholeEnd + size ≤ 2 ^ w)
    (hk : k < w) (halign : a.pageSize ∣ 2 ^ k) (hlt : size + 2 ^ k < 2 ^ w + a.pageSize)
    (hhint_align : 2 ^ k ∣ hint) :
    a.AllocatesOrFails size (2 ^ k) (a.allocateRegionHint hint size (2 ^ k)) := by
  have hat : a.allocateAtHint hint size = some (false, a) ∨
      ∃ a', a.allocateAtHint hint size = some (true, a') ∧ a.Allocates hint size .allocated a' := by
    unfold allocateAtHint
    split
    · next hcontains =>
      rw [Region.containsRange, decide_eq_true_iff] at hcontains
      have hin := (h.consistent.contains_iff hhint).mp (decide_eq_true hcontains.2.1)
      exact allocateRegionAt_spec h hpos hdvd (halign.trans hhint_align) (by omega) (by decide)
    · exact .inl rfl
  unfold allocateRegionHint
  rcases hat with hat | ⟨a', hat, halloc⟩
  · simp only [hat, Option.bind_eq_bind, Option.bind_some]
    by_cases hle : 2 ^ k ≤ a.pageSize
    · rw [if_neg (by decide), if_pos hle,
        Nat.le_antisymm hle (le_of_dvd (Nat.two_pow_pos k) halign)]
      exact (allocateRegion_spec h hpos hdvd).1
    · rw [if_neg (by decide), if_neg hle]
      exact allocateAlignedRegion_spec h hpos hdvd hk halign hlt
  · simp only [hat, Option.bind_eq_bind, Option.bind_some]
    exact .inr ⟨hint, a', rfl, hhint_align, halloc⟩

end RegionAllocator
