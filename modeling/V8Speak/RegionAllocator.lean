import Mathlib
import V8Speak.KeyedSet
import V8Speak.Tiling

/-!
# The region allocator

`RegionAllocator` hands out page-aligned regions of a range of addresses. The
regions the range is cut into are objects, and two ordered sets have pointers to
them: `allRegions` to all of them, ordered by their ends, and `freeRegions` to
those that are free, ordered by size and then by address. Splitting and merging
changes the size of an object in place, and with it the keys under which both
sets have it.

Addresses and sizes are machine words of `w` bits: sums and differences wrap
around. Searching in a set that is out of order, erasing what is not there and
following a pointer past the end are undefined, and give `none`. The callbacks on
splitting and merging are left out. The checks of debug builds are not part of the
model; those on the arguments are in `Call.Legal`.
-/

open KeyedSet

inductive RegionState where
  | free
  | excluded
  | allocated
  deriving DecidableEq, Repr

/-- A region object. -/
abbrev Region := Tile RegionState

/-- A pointer to a region object. -/
abbrev RegionPointer := ℕ

/-! ## Words -/

namespace Word

/-- The sum of two words of `w` bits. -/
def add (w a b : ℕ) : ℕ := (a + b) % 2 ^ w

/-- The difference of two words of `w` bits. -/
def sub (w a b : ℕ) : ℕ := (a + (2 ^ w - b)) % 2 ^ w

def isAligned (w value alignment : ℕ) : Bool := value &&& sub w alignment 1 = 0

def roundDown (w x m : ℕ) : ℕ := x &&& sub w 0 m

def roundUp (w x m : ℕ) : ℕ := roundDown w (add w x (sub w m 1)) m

def isPowerOfTwo (w value : ℕ) : Bool := value > 0 ∧ value &&& sub w value 1 = 0

end Word

open Word

namespace Region

/-- `end()`. -/
def endAddress (w : ℕ) (region : Region) : ℕ := add w region.begin region.size

def contains (w : ℕ) (region : Region) (address : ℕ) : Bool :=
  sub w address region.begin < region.size

/-- `contains(address, size)`. -/
def containsRange (w : ℕ) (region : Region) (address size : ℕ) : Bool :=
  let offset := sub w address region.begin
  offset < region.size ∧ add w offset size ≤ region.size

end Region

/-- The allocator, with the region objects in memory. -/
structure RegionAllocator (w : ℕ) where
  wholeRegion : Region
  regionSizeInPages : ℕ
  maxLoadForRandomization : ℕ
  freeSize : ℕ
  pageSize : ℕ
  allRegions : List RegionPointer
  freeRegions : List RegionPointer
  object : RegionPointer → Region
  /-- Where the next object will be. -/
  unused : RegionPointer

namespace RegionAllocator

variable {w : ℕ}

/-! ## The two sets -/

variable (a : RegionAllocator w) (p : RegionPointer)

/-- The key of `AddressEndOrder`. -/
def addressEnd : ℕ := (a.object p).endAddress w

/-- The key of `SizeAddressOrder`. -/
def sizeAddress : ℕ ×ₗ ℕ :=
  toLex ((a.object p).size, (a.object p).begin)

def setSize (size : ℕ) : RegionAllocator w :=
  { a with object := Function.update a.object p { a.object p with size } }

def setState (state : RegionState) : RegionAllocator w :=
  { a with object := Function.update a.object p { a.object p with state } }

def setAllRegions (allRegions : List RegionPointer) : RegionAllocator w :=
  { a with allRegions }

/-- The region with the address, or `end()`. -/
def findRegion (address : ℕ) : Option (Option RegionPointer) :=
  if a.wholeRegion.contains w address then
    -- the end of the key is the address
    upperBound a.addressEnd a.allRegions address
  else some none

def freeListAddRegion : Option (RegionAllocator w) := do
  let freeRegions ← insert a.sizeAddress a.freeRegions p
  some { a with freeSize := add w a.freeSize (a.object p).size, freeRegions }

/-- The best fit for a size. -/
def freeListFindRegion (size : ℕ) : Option (Option RegionPointer) :=
  lowerBound a.sizeAddress a.freeRegions (toLex (size, 0))

def freeListRemoveRegion : Option (RegionAllocator w) := do
  let iter ← (← find a.sizeAddress a.freeRegions (a.sizeAddress p))
  some { a with
    freeSize := sub w a.freeSize (a.object p).size
    freeRegions := a.freeRegions.erase iter }

/-- A new object. -/
def newRegion (region : Region) : RegionPointer × RegionAllocator w :=
  (a.unused, { a with
    object := Function.update a.object a.unused region
    unused := a.unused + 1 })

/-- The new size of a region, and the region after it in the set of all regions. -/
def cutRegion (region newRegion : RegionPointer) (newSize : ℕ) : Option (RegionAllocator w) := do
  let a := a.setSize region newSize
  some (a.setAllRegions (← insert a.addressEnd a.allRegions newRegion))

/-- Splits a region, where the second part is an object already. A free region is
not in the set of free regions while its size changes. -/
def splitInto (region newRegion : RegionPointer) (newSize : ℕ) : Option (RegionAllocator w) :=
  if (a.object region).state = .free then do
    let a ← a.freeListRemoveRegion region
    let a ← a.cutRegion region newRegion newSize
    let a ← a.freeListAddRegion region
    a.freeListAddRegion newRegion
  else a.cutRegion region newRegion newSize

variable (region : RegionPointer)

/-- Splits off what is after the first `newSize` addresses, as a new region. -/
def split (newSize : ℕ) : Option (RegionPointer × RegionAllocator w) := do
  let ⟨begin, size, state⟩ := a.object region
  let (newRegion, a) := a.newRegion ⟨add w begin newSize, sub w size newSize, state⟩
  some (newRegion, ← a.splitInto region newRegion newSize)

/-- Merges `next` into `prev`. -/
def merge (prev next : RegionPointer) : RegionAllocator w :=
  let a := a.setSize prev (add w (a.object prev).size (a.object next).size)
  a.setAllRegions (a.allRegions.erase next)

/-! ## The constructor -/

/-- The constructor, with its checks. Up to what load addresses are randomized is
the result of a floating-point product, and given. -/
def new (w memoryRegionBegin memoryRegionSize pageSize maxLoadForRandomization : ℕ) :
    Option (RegionAllocator w) :=
  let wholeRegion : Region := ⟨memoryRegionBegin, memoryRegionSize, .free⟩
  if wholeRegion.begin < wholeRegion.endAddress w ∧ isPowerOfTwo w pageSize ∧
      isAligned w wholeRegion.size pageSize ∧ isAligned w wholeRegion.begin pageSize then do
    let a : RegionAllocator w :=
      { wholeRegion
        regionSizeInPages := wholeRegion.size / pageSize
        maxLoadForRandomization
        freeSize := 0
        pageSize
        allRegions := []
        freeRegions := []
        object := fun _ => wholeRegion
        unused := 0 }
    let (region, a) := a.newRegion wholeRegion
    let a := a.setAllRegions (← insert a.addressEnd a.allRegions region)
    a.freeListAddRegion region
  else none

/-! ## Allocation -/

/-- Splits the rest off, unless the region has the size. -/
def splitRest (size : ℕ) : Option (RegionAllocator w) :=
  if (a.object region).size ≠ size then do some (← a.split region size).2 else some a

/-- Marks a region as used. -/
def markUsed (state : RegionState) : Option (RegionAllocator w) := do
  some ((← a.freeListRemoveRegion region).setState region state)

/-- `AllocateRegion(size)`. -/
def allocateRegion (size : ℕ) : Option (Option ℕ × RegionAllocator w) := do
  match ← a.freeListFindRegion size with
  | none => some (none, a)
  | some region =>
    let a ← a.splitRest region size
    let a ← a.markUsed region .allocated
    some (some (a.object region).begin, a)

/-- Splits the region at the boundary `requestedAddress`. -/
def splitBefore (requestedAddress : ℕ) : Option (RegionPointer × RegionAllocator w) :=
  if (a.object region).begin ≠ requestedAddress then
    a.split region (sub w requestedAddress (a.object region).begin)
  else some (region, a)

/-- Splits the region at the boundary `requestedEnd`. -/
def splitAfter (requestedEnd size : ℕ) : Option (RegionAllocator w) :=
  if (a.object region).endAddress w ≠ requestedEnd then do some (← a.split region size).2
  else some a

def allocateRegionAt (requestedAddress size : ℕ)
    (regionState : RegionState) : Option (Bool × RegionAllocator w) := do
  let requestedEnd := add w requestedAddress size
  match ← a.findRegion requestedAddress with
  | none => some (false, a)
  | some region =>
    if (a.object region).state ≠ .free ∨ (a.object region).endAddress w < requestedEnd then
      some (false, a)
    else
      let (region, a) ← a.splitBefore region requestedAddress
      let a ← a.splitAfter region requestedEnd size
      let a ← a.markUsed region regionState
      some (true, a)

def kMaxRandomizationAttempts : ℕ := 3

/-- The attempts at random addresses. -/
def allocateAtRandom (a : RegionAllocator w) (size : ℕ) :
    List ℕ → Option (Option (ℕ × RegionAllocator w))
  | [] => some none
  | random :: randoms => do
    let randomOffset := a.pageSize * (random % a.regionSizeInPages)
    let address := add w a.wholeRegion.begin randomOffset
    let (success, a') ← a.allocateRegionAt address size .allocated
    if success then some (some (address, a')) else allocateAtRandom a' size randoms

/-- `AllocateRegion(rng, size)`, for a sequence of random numbers. -/
def allocateRegionRandom (rng : ℕ → ℕ) (size : ℕ) : Option (Option ℕ × RegionAllocator w) := do
  if a.freeSize ≥ a.maxLoadForRandomization then
    match ← a.allocateAtRandom size ((List.range kMaxRandomizationAttempts).map rng) with
    | some (address, a) => some (some address, a)
    | none => a.allocateRegion size
  else a.allocateRegion size

/-- Splits off what is before the first aligned address of the region. -/
def splitUnaligned (alignment : ℕ) : Option (RegionPointer × RegionAllocator w) :=
  if isAligned w (a.object region).begin alignment = false then
    let start := roundUp w (a.object region).begin alignment
    a.split region (sub w start (a.object region).begin)
  else some (region, a)

def allocateAlignedRegion (size alignment : ℕ) : Option (Option ℕ × RegionAllocator w) := do
  let paddedSize := sub w (add w size alignment) a.pageSize
  match ← a.freeListFindRegion paddedSize with
  | none => some (none, a)
  | some region =>
    let (region, a) ← a.splitUnaligned region alignment
    let a ← a.splitRest region size
    let a ← a.markUsed region .allocated
    some (some (a.object region).begin, a)

/-- Tries to allocate at the hint. -/
def allocateAtHint (hint size : ℕ) : Option (Bool × RegionAllocator w) :=
  if hint ≠ 0 ∧ a.wholeRegion.containsRange w hint size then
    a.allocateRegionAt hint size .allocated
  else some (false, a)

/-- `AllocateRegion(hint, size, alignment)`. -/
def allocateRegionHint (hint size alignment : ℕ) : Option (Option ℕ × RegionAllocator w) := do
  let (success, a) ← a.allocateAtHint hint size
  if success then some (some hint, a)
  else if alignment ≤ a.pageSize then a.allocateRegion size
  else a.allocateAlignedRegion size alignment

/-! ## Freeing -/

/-- Merges a region with the next one if that is free. An iterator may be at the end
as long as it is not followed. -/
def mergeNext (iter : Option RegionPointer) : Option (RegionAllocator w) :=
  if (a.object region).endAddress w ≠ a.wholeRegion.endAddress w then do
    let iter ← iter
    let next ← KeyedSet.next a.allRegions iter
    if (a.object next).state = .free then
      let a ← a.freeListRemoveRegion next
      some (a.merge iter next)
    else some a
  else some a

/-- Merges a region that is freed as a whole with the previous one if that is free;
the merged region. -/
def mergePrev (iter : Option RegionPointer)
    (newSize : ℕ) : Option (RegionPointer × RegionAllocator w) :=
  if newSize = 0 ∧ (a.object region).begin ≠ a.wholeRegion.begin then do
    let iter ← iter
    let prev ← KeyedSet.prev a.allRegions iter
    if (a.object prev).state = .free then
      let a ← a.freeListRemoveRegion prev
      some (prev, a.merge prev iter)
    else some (region, a)
  else some (region, a)

/-- The region to free, and the iterator to it: what is split off, or all. -/
def splitFreed (newSize : ℕ) : Option (RegionPointer × Option RegionPointer × RegionAllocator w) :=
  if newSize > 0 then do
    let (newRegion, a) ← a.split region newSize
    some (newRegion, KeyedSet.next a.allRegions region, a)
  else some (region, some region, a)

def trimRegion (address newSize : ℕ) : Option (ℕ × RegionAllocator w) := do
  match ← a.findRegion address with
  | none => some (0, a)
  | some region =>
    if (a.object region).begin ≠ address ∨ (a.object region).state ≠ .allocated then some (0, a)
    else
      let (region, iter, a) ← a.splitFreed region newSize
      let size := (a.object region).size
      let a ← (a.setState region .free).mergeNext region iter
      let (region, a) ← a.mergePrev region iter newSize
      let a ← a.freeListAddRegion region
      some (size, a)

def freeRegion (address : ℕ) : Option (ℕ × RegionAllocator w) :=
  a.trimRegion address 0

def checkRegion (address : ℕ) : Option ℕ := do
  match ← a.findRegion address with
  | none => some 0
  | some region =>
    if (a.object region).begin ≠ address ∨ (a.object region).state = .free then some 0
    else some (a.object region).size

def isFree (address size : ℕ) : Option Bool :=
  if a.wholeRegion.containsRange w address size then do
    match ← a.findRegion address with
    | none => some true
    | some region =>
      some ((a.object region).state = .free ∧ (a.object region).containsRange w address size)
  else none

/-! ## Calls -/

inductive Call where
  | allocateRegion (size : ℕ)
  | allocateRegionRandom (rng : ℕ → ℕ) (size : ℕ)
  | allocateRegionHint (hint size alignment : ℕ)
  | allocateRegionAt (requestedAddress size : ℕ) (regionState : RegionState)
  | allocateAlignedRegion (size alignment : ℕ)
  | freeRegion (address : ℕ)
  | trimRegion (address newSize : ℕ)

/-- What a call returns. -/
inductive Outcome where
  | failed
  | allocated (address : ℕ)
  | freed (size : ℕ)
  deriving DecidableEq, Repr

/-- An address, or `kAllocationFailure`, which is no address of a region. -/
def Outcome.ofAddress : Option ℕ → Outcome
  | none => failed
  | some address => allocated address

/-- A size that was freed, or 0. -/
def Outcome.ofSize (size : ℕ) : Outcome := if size = 0 then failed else freed size

def Call.run : Call → Option (Outcome × RegionAllocator w)
  | allocateRegion size => do
    let (address, a) ← a.allocateRegion size
    some (.ofAddress address, a)
  | allocateRegionRandom rng size => do
    let (address, a) ← a.allocateRegionRandom rng size
    some (.ofAddress address, a)
  | allocateRegionHint hint size alignment => do
    let (address, a) ← a.allocateRegionHint hint size alignment
    some (.ofAddress address, a)
  | allocateRegionAt requestedAddress size regionState => do
    let (success, a) ← a.allocateRegionAt requestedAddress size regionState
    some (if success then .allocated requestedAddress else .failed, a)
  | allocateAlignedRegion size alignment => do
    let (address, a) ← a.allocateAlignedRegion size alignment
    some (.ofAddress address, a)
  | freeRegion address => do
    let (size, a) ← a.freeRegion address
    some (.ofSize size, a)
  | trimRegion address newSize => do
    let (size, a) ← a.trimRegion address newSize
    some (.ofSize size, a)

end RegionAllocator
