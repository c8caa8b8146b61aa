import Mathlib

/-!
# The persistent map

`PersistentMap` is a hash tree. A node of the tree is a `FocusedTree`: it has one
key, or all keys with one hash, and instead of children it has an array of the
subtrees that branch off on the way from the root to it. A node that is reached at a
level stands for the whole subtree from there on, so the same node is met at several
levels. Maps are a pointer to a node and a default value. Setting a key makes one
new node, with the path the search has passed, and changes no other.

Nodes are objects in a zone. An array of pointers that is filled level by level is a
list. What is undefined – asking for a bit there is not, looking at what an iterator
past the end points to – gives `none`, and so does running out of `fuel`, which
the loops over all entries have. The array of an iterator is not initialized: its
contents before it is written to are arbitrary, and given. Keys are ordered, values
are compared, and `mayBeUnequal` is the quick comparison of values.
-/

namespace PersistentMap

abbrev Pointer := ℕ

abbrev HashValue := BitVec 32

def kHashBits : ℕ := 32

inductive Bit where
  | kLeft
  | kRight
  deriving DecidableEq, Repr

/-- `operator[]`: the bits starting from the high ones. -/
def HashValue.bit (hash : HashValue) (pos : ℕ) : Bit :=
  if hash.getMsbD pos then .kRight else .kLeft

variable {K V : Type}

/-! ## Maps for collisions -/

namespace ZoneMap

variable [LinearOrder K]

def find (m : List (K × V)) (key : K) : Option (K × V) := m.find? fun e => e.1 = key

def erase (m : List (K × V)) (key : K) : List (K × V) := m.filter fun e => e.1 ≠ key

def emplace (m : List (K × V)) (key : K) (value : V) : List (K × V) :=
  if m.any fun e => e.1 = key then m else m.orderedInsert (fun e e' => e.1 ≤ e'.1) (key, value)

end ZoneMap

/-! ## Nodes -/

structure FocusedTree (K V : Type) where
  key : K
  value : V
  keyHash : HashValue
  /-- Out-of-line storage for hash collisions. -/
  more : Option (List (K × V))
  /-- The pointers outside of the focused path. -/
  path : List (Option Pointer)

/-- The depth of the focused path. -/
def FocusedTree.length (tree : FocusedTree K V) : ℕ := tree.path.length

/-- `path(i)`. -/
def FocusedTree.pathAt (tree : FocusedTree K V) (i : ℕ) : Option Pointer := tree.path[i]?.join

/-- The nodes in memory. -/
structure Zone (K V : Type) where
  object : Pointer → FocusedTree K V
  /-- Where the next object will be. -/
  unused : Pointer

def Zone.new (z : Zone K V) (tree : FocusedTree K V) : Pointer × Zone K V :=
  (z.unused, ⟨Function.update z.object z.unused tree, z.unused + 1⟩)

end PersistentMap

/-- A map. -/
structure PersistentMap (V : Type) where
  tree : Option PersistentMap.Pointer
  defValue : V

namespace PersistentMap

variable {K V : Type} [LinearOrder K] [DecidableEq V]

/-! ## Searching -/

/-- The first level from `level` on at which two hashes differ. -/
def firstDifference (hash keyHash : HashValue) : ℕ → ℕ → Option ℕ
  | 0, _ => none
  | n + 1, level =>
    if (hash ^^^ keyHash).bit level = .kLeft then firstDifference hash keyHash n (level + 1)
    else some level

variable (z : Zone K V)

/-- The subtree that branches off the path of a node at a level. -/
def branch (tree : Pointer) (level : ℕ) : Option Pointer :=
  if level < (z.object tree).length then (z.object tree).pathAt level else none

/-- The loop of `FindHash(hash)`. -/
def findHashLoop (z : Zone K V) (hash : HashValue) :
    ℕ → Option Pointer → ℕ → Option (Option Pointer)
  | 0, _, _ => none
  | _ + 1, none, _ => some none
  | n + 1, some tree, level =>
    if hash ≠ (z.object tree).keyHash then do
      let level ← firstDifference hash (z.object tree).keyHash (kHashBits - level) level
      findHashLoop z hash n (branch z tree level) (level + 1)
    else some (some tree)

/-- `FindHash(hash)`. -/
def findHash (m : PersistentMap V) (hash : HashValue) : Option (Option Pointer) :=
  findHashLoop z hash (kHashBits + 1) m.tree 0

/-- The loop of `FindHash(hash, path, length)` over the levels where a node's hash is
the same, which copies the node's path. -/
def copyPath (z : Zone K V) (hash : HashValue) (tree : Pointer) :
    ℕ → ℕ → List (Option Pointer) → Option (ℕ × List (Option Pointer))
  | 0, _, _ => none
  | n + 1, level, path =>
    if (hash ^^^ (z.object tree).keyHash).bit level = .kLeft then
      copyPath z hash tree n (level + 1) (path ++ [branch z tree level])
    else some (level, path)

/-- The loop of `FindHash(hash, path, length)`. -/
def findHashPathLoop (z : Zone K V) (hash : HashValue) :
    ℕ → Option Pointer → ℕ → List (Option Pointer) → Option (Option Pointer × List (Option Pointer))
  | 0, _, _, _ => none
  | _ + 1, none, _, path => some (none, path)
  | n + 1, some tree, level, path =>
    if hash ≠ (z.object tree).keyHash then do
      let (level, path) ← copyPath z hash tree (kHashBits - level) level path
      findHashPathLoop z hash n (branch z tree level) (level + 1) (path ++ [some tree])
    else
      -- the rest of the path of the node that was found
      some (some tree, path ++ (z.object tree).path.drop level)

/-- `FindHash(hash, path, length)`, where the length is that of the list. -/
def findHashPath (m : PersistentMap V) (hash : HashValue) :
    Option (Option Pointer × List (Option Pointer)) :=
  findHashPathLoop z hash (kHashBits + 1) m.tree 0 []

def getFocusedValue (m : PersistentMap V) (tree : Option Pointer) (key : K) : V :=
  match tree with
  | none => m.defValue
  | some tree =>
    match (z.object tree).more with
    | some more =>
      match ZoneMap.find more key with
      | none => m.defValue
      | some e => e.2
    | none => if key = (z.object tree).key then (z.object tree).value else m.defValue

def get (hasher : K → HashValue) (z : Zone K V) (m : PersistentMap V) (key : K) : Option V := do
  let tree ← findHash z m (hasher key)
  some (getFocusedValue z m tree key)

/-! ## Setting -/

/-- The map for collisions of a new node. -/
def newMore (old : Option Pointer) (key : K) (newValue : V) : Option (List (K × V)) :=
  match old with
  | none => none
  | some old =>
    if (z.object old).more = none ∧ (z.object old).key = key then none
    else
      let more :=
        match (z.object old).more with
        | some more => more
        | none => ZoneMap.emplace (ZoneMap.erase [] (z.object old).key) (z.object old).key
            (z.object old).value
      some (ZoneMap.emplace (ZoneMap.erase more key) key newValue)

def modify (hasher : K → HashValue) (mayBeUnequal : V → V → Bool) (z : Zone K V)
    (m : PersistentMap V) (key : K) (f : V → V) : Option (PersistentMap V × Zone K V) := do
  let keyHash := hasher key
  let (old, path) ← findHashPath z m keyHash
  let oldValue := getFocusedValue z m old key
  let newValue := f oldValue
  if mayBeUnequal oldValue newValue = false then some (m, z)
  else
    let more := newMore z old key newValue
    let (tree, z) := z.new ⟨key, newValue, keyHash, more, path⟩
    some (⟨some tree, m.defValue⟩, z)

def set (hasher : K → HashValue) (mayBeUnequal : V → V → Bool) (z : Zone K V)
    (m : PersistentMap V) (key : K) (newValue : V) : Option (PersistentMap V × Zone K V) :=
  modify hasher mayBeUnequal z m key fun _ => newValue

/-! ## Iterating -/

def getChild (tree : Pointer) (level : ℕ) (bit : Bit) : Option Pointer :=
  if (z.object tree).keyHash.bit level = bit then some tree
  else if level < (z.object tree).length then (z.object tree).pathAt level
  else none

/-- The loop of `FindLeftmost`. -/
def findLeftmost (z : Zone K V) :
    ℕ → Pointer → ℕ → (ℕ → Option Pointer) → Option (Pointer × ℕ × (ℕ → Option Pointer))
  | 0, _, _, _ => none
  | n + 1, current, level, path =>
    if level < (z.object current).length then
      match getChild z current level .kLeft, getChild z current level .kRight with
      | some leftChild, rightChild =>
        findLeftmost z n leftChild (level + 1) (Function.update path level rightChild)
      | none, some rightChild =>
        findLeftmost z n rightChild (level + 1)
          (Function.update path level (getChild z current level .kLeft))
      | none, none => none
    else some (current, level, path)

structure Iterator (K V : Type) where
  level : ℕ
  /-- The rest of the map for collisions, from where the iterator into it points to. -/
  moreIter : List (K × V)
  current : Option Pointer
  path : ℕ → Option Pointer
  defValue : V

namespace Iterator

variable (i : Iterator K V)

def isEnd : Bool := i.current = none

/-- `operator*`. -/
def deref : Option (K × V) :=
  match i.current with
  | none => none
  | some current =>
    match (z.object current).more with
    | some _ => i.moreIter.head?
    | none => some ((z.object current).key, (z.object current).value)

/-- `end(def_value)`. The array is left as it is. -/
def toEnd : Iterator K V := { i with level := 0, current := none }

/-- The highest level below `level` at which there is a subtree to the right of the
path that has not been visited. -/
def rightAlternative (z : Zone K V) (current : Pointer) (path : ℕ → Option Pointer) :
    ℕ → Option (ℕ × Pointer)
  | 0 => none
  | level + 1 =>
    match (z.object current).keyHash.bit level, path level with
    | .kLeft, some right => some (level, right)
    | _, _ => rightAlternative z current path level

/-- An iterator to the first entry of the leftmost node of a subtree. -/
def first (start : Pointer) (level : ℕ) : Option (Iterator K V) := do
  let (current, level, path) ← findLeftmost z (kHashBits + 1) start level i.path
  some { i with level, path, current := some current, moreIter := (z.object current).more.getD [] }

/-- The body of the loop of `operator++` after the entries of the current node. -/
def nextNode (current : Pointer) : Option (Iterator K V) :=
  match rightAlternative z current i.path i.level with
  | none => some i.toEnd
  | some (level, firstRightAlternative) => i.first z firstRightAlternative (level + 1)

/-- The next entry of the current node, if there is one. -/
def nextMore (current : Pointer) : Option (Iterator K V) :=
  match (z.object current).more with
  | some _ =>
    match i.moreIter with
    | _ :: e :: rest => some { i with moreIter := e :: rest }
    | _ => none
  | none => none

/-- `operator++`. -/
def next (z : Zone K V) : ℕ → Iterator K V → Option (Iterator K V)
  | 0, _ => none
  | fuel + 1, i =>
    match i.current with
    | none => some i
    | some current =>
      match i.nextMore z current with
      | some i => some i
      | none => do
        let i ← i.nextNode z current
        if i.isEnd then some i
        else
          let e ← i.deref z
          if e.2 ≠ i.defValue then some i else next z fuel i

/-- Skips entries with default value. -/
def skipDefault (z : Zone K V) : ℕ → Iterator K V → Option (Iterator K V)
  | 0, _ => none
  | fuel + 1, i =>
    if i.isEnd then some i
    else do
      let e ← i.deref z
      if e.2 ≠ i.defValue then some i else skipDefault z fuel (← i.next z fuel)

/-- `begin(tree, def_value)`. -/
def start (fuel : ℕ) (uninitialized : ℕ → Option Pointer) (tree : Pointer)
    (defValue : V) : Option (Iterator K V) := do
  let i ← first z ⟨0, [], none, uninitialized, defValue⟩ tree 0
  i.skipDefault z fuel

/-- `operator==`. -/
def eq (i j : Iterator K V) : Option Bool :=
  match i.current, j.current with
  | none, none => some true
  | none, some _ => some false
  | some _, none => some false
  | some p, some q =>
    if (z.object p).keyHash ≠ (z.object q).keyHash then some false
    else do some (decide ((← i.deref z).1 = (← j.deref z).1))

/-- `operator<`. -/
def lt (i j : Iterator K V) : Option Bool :=
  match i.current, j.current with
  | none, _ => some false
  | some _, none => some true
  | some p, some q =>
    if (z.object p).keyHash = (z.object q).keyHash then do
      some (decide ((← i.deref z).1 < (← j.deref z).1))
    else some ((z.object p).keyHash < (z.object q).keyHash)

end Iterator

/-- The iterator of a map. -/
def begin (fuel : ℕ) (uninitialized : ℕ → Option Pointer) (m : PersistentMap V) :
    Option (Iterator K V) :=
  match m.tree with
  | none => some ⟨0, [], none, uninitialized, m.defValue⟩
  | some tree => Iterator.start z fuel uninitialized tree m.defValue

structure DoubleIterator (K V : Type) where
  first : Iterator K V
  second : Iterator K V
  firstCurrent : Bool
  secondCurrent : Bool

namespace DoubleIterator

def new (first second : Iterator K V) : Option (DoubleIterator K V) := do
  if ← first.eq z second then some ⟨first, second, true, true⟩
  else if ← first.lt z second then some ⟨first, second, true, false⟩
  else some ⟨first, second, false, true⟩

/-- `operator*`. -/
def deref (i : DoubleIterator K V) : Option (K × V × V) :=
  if i.firstCurrent then do
    let e ← i.first.deref z
    if i.secondCurrent then some (e.1, e.2, (← i.second.deref z).2)
    else some (e.1, e.2, i.second.defValue)
  else do
    let e ← i.second.deref z
    some (e.1, i.first.defValue, e.2)

/-- An iterator that is incremented if it is current. -/
def advance (fuel : ℕ) (isCurrent : Bool) (i : Iterator K V) : Option (Iterator K V) :=
  if isCurrent then i.next z fuel else some i

/-- `operator++`. -/
def next (fuel : ℕ) (i : DoubleIterator K V) : Option (DoubleIterator K V) := do
  let first ← advance z fuel i.firstCurrent i.first
  let second ← advance z fuel i.secondCurrent i.second
  new z first second

/-- Both iterators are at the end. -/
def isEnd (i : DoubleIterator K V) : Bool := i.first.isEnd && i.second.isEnd

end DoubleIterator

/-- The loop of `operator==`. An iterator is different from the one past the end
exactly if it is not at the end itself. -/
def equalLoop (z : Zone K V) : ℕ → DoubleIterator K V → Option Bool
  | 0, _ => none
  | fuel + 1, i =>
    if i.isEnd then some true
    else do
      let (_, value, value') ← i.deref z
      if value ≠ value' then some false else equalLoop z fuel (← i.next z fuel)

/-- `operator==`. -/
def equal (fuel : ℕ) (uninitialized uninitialized' : ℕ → Option Pointer)
    (m m' : PersistentMap V) : Option Bool :=
  if m.tree = m'.tree then some true
  else if m.defValue ≠ m'.defValue then some false
  else do
    let first ← begin z fuel uninitialized m
    let second ← begin z fuel uninitialized' m'
    equalLoop z fuel (← DoubleIterator.new z first second)

end PersistentMap
