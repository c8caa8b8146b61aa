import V8Speak.PersistentMapIterator

/-!
# Comparing maps, and all versions of them

`operator==` goes through the entries of both maps in step. At each point the lists of
entries that are left are in order, so that the smaller of the first keys is not in
the other list, which has the default value for it. The maps are the same exactly if
no step finds two values that are different (`equalLoop_spec`).

A program has variables with maps. It makes new ones, copies them, and sets or modifies
keys of a variable, in any order (`Op`). What this means is a list of total
functions (`Op.apply`), where nothing is shared. `Refines.run` is the simulation: the nodes
in memory are never changed, and all variables have the values they should have.

There is one exception to equality. The pointers to the trees are compared before
anything else, the default values included. Two maps in which nothing has been set
have no tree, so that they are equal even if their default values are different.
-/

open List Option

namespace PersistentMap

variable {K V : Type} [LinearOrder K] {hasher : K → HashValue} {z : Zone K V}

/-! ## Entries with a default value -/

/-- The value of a key, by a list of entries. -/
def valueIn (d : V) (l : List (K × V)) (key : K) : V := (lookup l key).getD d

theorem valueIn_cons (d : V) (e : K × V) (l : List (K × V)) (key : K) :
    valueIn d (e :: l) key = if key = e.1 then e.2 else valueIn d l key := by
  unfold valueIn lookup ZoneMap.find
  rw [List.find?_cons]
  by_cases hkey : key = e.1
  · rw [if_pos hkey, decide_eq_true hkey.symm]
    rfl
  · rw [if_neg hkey, decide_eq_false (Ne.symm hkey)]

/-- A key that comes before all entries. -/
def After (hasher : K → HashValue) (key : K) (l : List (K × V)) : Prop :=
  ∀ e ∈ l, rank hasher key < rank hasher e.1

/-- The entries are in order. -/
abbrev Sorted (hasher : K → HashValue) (l : List (K × V)) : Prop :=
  l.Pairwise fun e e' => rank hasher e.1 < rank hasher e'.1

variable {d : V} {key : K} {e : K × V} {l l' : List (K × V)}

theorem After.valueIn (hl : After hasher key l) : valueIn d l key = d := by
  have hnone : l.find? (fun e => e.1 = key) = none := List.find?_eq_none.mpr fun e he => by
    rw [decide_eq_true_iff]
    exact fun heq => (hl e he).ne (by rw [heq])
  unfold PersistentMap.valueIn lookup ZoneMap.find
  rw [hnone]
  rfl

/-- Entries with the default value change nothing. -/
theorem Skips.valueIn (hl : Skips d l l') (hsorted : Sorted hasher l) :
    PersistentMap.valueIn d l = PersistentMap.valueIn d l' := by
  obtain ⟨skipped, rfl, hskipped⟩ := hl
  induction skipped with
  | nil => rfl
  | cons e skipped ih =>
    obtain ⟨he, hskipped⟩ := List.forall_mem_cons.mp hskipped
    rw [cons_append] at hsorted ⊢
    obtain ⟨hafter, hsorted⟩ := List.pairwise_cons.mp hsorted
    rw [← ih hskipped hsorted]
    funext key
    rw [valueIn_cons]
    split
    · next hkey => rw [he, hkey, After.valueIn hafter]
    · rfl

/-! ## Two iterators in step -/

/-- The key comes first in the list, or before all of it. -/
def Leads (hasher : K → HashValue) (key : K) (isCurrent : Bool) (l : List (K × V)) : Prop :=
  if isCurrent then ∃ value tail, l = (key, value) :: tail else After hasher key l

/-- The iterators that are current are at the first of all keys. -/
def InStep (hasher : K → HashValue) (firstCurrent secondCurrent : Bool) (l l' : List (K × V)) :
    Prop :=
  l = [] ∧ l' = [] ∨ ∃ key, Leads hasher key firstCurrent l ∧ Leads hasher key secondCurrent l' ∧
    (firstCurrent = true ∨ secondCurrent = true)

variable {i j : Iterator K V}

theorem After.nil : After hasher key ([] : List (K × V)) := nofun

theorem After.cons (hkey : rank hasher key < rank hasher e.1) (hl : Sorted hasher (e :: l)) :
    After hasher key (e :: l) := fun e' he' => by
  rcases List.mem_cons.mp he' with rfl | he'
  · exact hkey
  · exact hkey.trans ((List.pairwise_cons.mp hl).1 e' he')

theorem rank_lt {key key' : K} : rank hasher key < rank hasher key' ↔
    (hasher key).toNat < (hasher key').toNat ∨
      (hasher key).toNat = (hasher key').toNat ∧ key < key' := Prod.Lex.toLex_lt_toLex

variable {e' : K × V}

theorem Iterator.At.eq (hi : i.At hasher z (e :: l)) (hj : j.At hasher z (e' :: l')) :
    i.eq z j = some (decide (e.1 = e'.1)) := by
  obtain ⟨c, hc, hhash⟩ := hi.hash
  obtain ⟨c', hc', hhash'⟩ := hj.hash
  unfold Iterator.eq
  rw [hc, hc']
  dsimp only
  rw [hhash, hhash', hi.deref, hj.deref]
  split
  · next hne => rw [decide_eq_false fun heq => hne (congrArg hasher heq)]
  · rfl

theorem Iterator.At.lt (hi : i.At hasher z (e :: l)) (hj : j.At hasher z (e' :: l')) :
    i.lt z j = some (decide (rank hasher e.1 < rank hasher e'.1)) := by
  obtain ⟨c, hc, hhash⟩ := hi.hash
  obtain ⟨c', hc', hhash'⟩ := hj.hash
  unfold Iterator.lt
  rw [hc, hc']
  dsimp only
  rw [hhash, hhash', hi.deref, hj.deref]
  split
  · next heq =>
    have hiff : rank hasher e.1 < rank hasher e'.1 ↔ e.1 < e'.1 := by
      rw [rank_lt, heq]
      simp
    simp [hiff]
  · next hne =>
    have hiff : rank hasher e.1 < rank hasher e'.1 ↔ (hasher e.1).toNat < (hasher e'.1).toNat := by
      rw [rank_lt, or_iff_left]
      exact fun h => hne (BitVec.eq_of_toNat_eq h.1)
    simp [hiff, BitVec.lt_def]

/-- **The double iterator** finds the first of both keys. -/
theorem DoubleIterator.new_spec (hi : i.At hasher z l) (hj : j.At hasher z l')
    (hl : Sorted hasher l) (hl' : Sorted hasher l') :
    ∃ firstCurrent secondCurrent, new z i j = some ⟨i, j, firstCurrent, secondCurrent⟩ ∧
      InStep hasher firstCurrent secondCurrent l l' := by
  have hnone : ∀ {i : Iterator K V}, i.At hasher z [] → i.current = none := fun hi => by
    cases hi with
    | pastEnd hcurrent => exact hcurrent
  unfold DoubleIterator.new
  cases l with
  | nil =>
    cases l' with
    | nil =>
      refine ⟨true, true, ?_, .inl ⟨rfl, rfl⟩⟩
      simp [Iterator.eq, hnone hi, hnone hj]
    | cons e' l' =>
      obtain ⟨c', hc', -⟩ := hj.hash
      refine ⟨false, true, ?_, .inr ⟨e'.1, After.nil, ⟨e'.2, l', rfl⟩, .inr rfl⟩⟩
      simp [Iterator.eq, Iterator.lt, hnone hi, hc']
  | cons e l =>
    obtain ⟨c, hc, -⟩ := hi.hash
    cases l' with
    | nil =>
      refine ⟨true, false, ?_, .inr ⟨e.1, ⟨e.2, l, rfl⟩, After.nil, .inl rfl⟩⟩
      simp [Iterator.eq, Iterator.lt, hnone hj, hc]
    | cons e' l' =>
      simp only [hi.eq hj, hi.lt hj, Option.bind_eq_bind, Option.bind_some, decide_eq_true_iff]
      rcases lt_trichotomy (rank hasher e.1) (rank hasher e'.1) with hlt | heq | hgt
      · rw [if_neg fun hkey => hlt.ne (congrArg (rank hasher) hkey), if_pos hlt]
        exact ⟨true, false, rfl, .inr ⟨e.1, ⟨e.2, l, rfl⟩, After.cons hlt hl', .inl rfl⟩⟩
      · have hkey : e.1 = e'.1 := congrArg (fun r => (ofLex r).2) heq
        rw [if_pos hkey]
        exact ⟨true, true, rfl, .inr ⟨e.1, ⟨e.2, l, rfl⟩, ⟨e'.2, l', by rw [hkey]⟩, .inl rfl⟩⟩
      · rw [if_neg fun hkey => hgt.ne' (congrArg (rank hasher) hkey), if_neg hgt.asymm]
        exact ⟨false, true, rfl, .inr ⟨e'.1, After.cons hgt hl, ⟨e'.2, l', rfl⟩, .inr rfl⟩⟩

variable {isCurrent : Bool} {fuel : ℕ}

/-- Going on from the first key: the list loses its entry, if it has one. -/
theorem advance_spec [DecidableEq V] (h : z.Wf hasher) (hi : i.At hasher z l)
    (hl : Sorted hasher l) (hkey : Leads hasher key isCurrent l)
    (hfuel : l.length ≤ fuel) :
    ∃ i' l', DoubleIterator.advance z fuel isCurrent i = some i' ∧ i'.defValue = i.defValue ∧
      i'.At hasher z l' ∧ Sorted hasher l' ∧ l'.length + isCurrent.toNat ≤ l.length ∧
      ∀ k, valueIn i.defValue l' k = if k = key then i.defValue else valueIn i.defValue l k := by
  unfold DoubleIterator.advance
  cases isCurrent with
  | false =>
    refine ⟨i, l, rfl, rfl, hi, hl, le_rfl, fun k => ?_⟩
    split
    · next hk => rw [hk, After.valueIn hkey]
    · rfl
  | true =>
    obtain ⟨value, tail, rfl⟩ := hkey
    obtain ⟨hafter, hl⟩ := List.pairwise_cons.mp hl
    obtain ⟨i', hnext, hdef, hat⟩ := Iterator.next_spec h hi hfuel
    have hskips := unvisited_skips hasher i.defValue (hasher key) tail
    refine ⟨i', _, hnext, hdef, hat, hl.sublist hskips.sublist,
      Nat.succ_le_succ hskips.length_le, fun k => ?_⟩
    rw [← hskips.valueIn hl, valueIn_cons]
    split
    · next hk => rw [hk, After.valueIn hafter]
    · rfl

variable {firstCurrent secondCurrent : Bool}

/-- The values at the first key. -/
theorem deref_spec (hi : i.At hasher z l) (hj : j.At hasher z l') (hdef : j.defValue = i.defValue)
    (hkey : Leads hasher key firstCurrent l) (hkey' : Leads hasher key secondCurrent l')
    (hcurrent : firstCurrent = true ∨ secondCurrent = true) :
    DoubleIterator.deref z ⟨i, j, firstCurrent, secondCurrent⟩ =
      some (key, valueIn i.defValue l key, valueIn i.defValue l' key) := by
  unfold DoubleIterator.deref
  cases firstCurrent with
  | true =>
    obtain ⟨value, tail, rfl⟩ := hkey
    rw [valueIn_cons, if_pos rfl]
    cases secondCurrent with
    | true =>
      obtain ⟨value', tail', rfl⟩ := hkey'
      rw [valueIn_cons, if_pos rfl]
      simp [hi.deref, hj.deref]
    | false =>
      rw [After.valueIn hkey']
      simp [hi.deref, hdef]
  | false =>
    obtain rfl : secondCurrent = true := hcurrent.resolve_left nofun
    obtain ⟨value', tail', rfl⟩ := hkey'
    rw [After.valueIn hkey, valueIn_cons, if_pos rfl]
    simp [hj.deref]

/-- **The loop of `operator==`** ends, and finds out whether all values are the
same. -/
theorem equalLoop_spec [DecidableEq V] (h : z.Wf hasher)
    (hi : i.At hasher z l) (hj : j.At hasher z l') (hl : Sorted hasher l) (hl' : Sorted hasher l')
    (hdef : i.defValue = d) (hdef' : j.defValue = d)
    (hstep : InStep hasher firstCurrent secondCurrent l l')
    (hfuel : l.length + l'.length < fuel) :
    ∃ b, equalLoop z fuel ⟨i, j, firstCurrent, secondCurrent⟩ = some b ∧
      (b = true ↔ ∀ k, valueIn d l k = valueIn d l' k) := by
  induction fuel generalizing i j l l' firstCurrent secondCurrent with
  | zero => omega
  | succ fuel ih =>
    rw [equalLoop]
    rcases hstep with ⟨rfl, rfl⟩ | ⟨key, hkey, hkey', hcurrent⟩
    · have hend : DoubleIterator.isEnd ⟨i, j, firstCurrent, secondCurrent⟩ = true := by
        rw [DoubleIterator.isEnd, hi.isEnd.mpr rfl, hj.isEnd.mpr rfl]
        rfl
      exact ⟨true, if_pos hend, iff_of_true rfl fun _ => rfl⟩
    have hne : l ≠ [] ∨ l' ≠ [] := by
      rcases hcurrent with rfl | rfl
      · obtain ⟨value, tail, rfl⟩ := hkey
        exact .inl (cons_ne_nil _ _)
      · obtain ⟨value, tail, rfl⟩ := hkey'
        exact .inr (cons_ne_nil _ _)
    have hend : ¬DoubleIterator.isEnd ⟨i, j, firstCurrent, secondCurrent⟩ = true := by
      rw [DoubleIterator.isEnd, Bool.and_eq_true, hi.isEnd, hj.isEnd, not_and_or]
      exact hne
    rw [if_neg hend, deref_spec hi hj (hdef'.trans hdef.symm) hkey hkey' hcurrent, hdef,
      Option.bind_eq_bind, Option.bind_some]
    dsimp only
    split
    · next hvalue => exact ⟨false, rfl, iff_of_false nofun fun hall => hvalue (hall key)⟩
    · next hvalue =>
      rw [not_not] at hvalue
      obtain ⟨i', l₁, hfirst, hdef₁, hi', hl₁, hlength, hvalues⟩ :=
        advance_spec h hi hl hkey (show l.length ≤ fuel by omega)
      obtain ⟨j', l₁', hsecond, hdef₁', hj', hl₁', hlength', hvalues'⟩ :=
        advance_spec h hj hl' hkey' (show l'.length ≤ fuel by omega)
      obtain ⟨firstCurrent', secondCurrent', hnew, hstep⟩ :=
        DoubleIterator.new_spec hi' hj' hl₁ hl₁'
      have htoNat : 1 ≤ firstCurrent.toNat + secondCurrent.toNat := by
        rcases hcurrent with rfl | rfl
        · exact Nat.le_add_right _ _
        · exact Nat.le_add_left _ _
      obtain ⟨b, hloop, hb⟩ := ih hi' hj' hl₁ hl₁' (hdef₁.trans hdef) (hdef₁'.trans hdef') hstep
        (by omega)
      have hnext : DoubleIterator.next z fuel ⟨i, j, firstCurrent, secondCurrent⟩ =
          some ⟨i', j', firstCurrent', secondCurrent'⟩ := by
        rw [DoubleIterator.next, hfirst, Option.bind_eq_bind, Option.bind_some, hsecond,
          Option.bind_some, hnew]
      rw [hnext, Option.bind_eq_bind, Option.bind_some]
      refine ⟨b, hloop, hb.trans (forall_congr' fun k => ?_)⟩
      rw [hdef] at hvalues
      rw [hdef'] at hvalues'
      rw [hvalues, hvalues']
      by_cases hk : k = key
      · rw [if_pos hk, if_pos hk, hk]
        exact iff_of_true rfl hvalue
      · rw [if_neg hk, if_neg hk]

variable {m m' : PersistentMap V}

/-- **`operator==`**, for maps with different trees. -/
theorem equal_spec [DecidableEq V] (h : z.Wf hasher) (hm : m.Valid z)
    (hm' : m'.Valid z) (htree : m.tree ≠ m'.tree) (uninitialized uninitialized' : ℕ → Option Pointer) :
    ∃ b, (∃ bound, ∀ fuel > bound, equal z fuel uninitialized uninitialized' m m' = some b) ∧
      (b = true ↔ m.defValue = m'.defValue ∧ ∀ k, value hasher z m k = value hasher z m' k) := by
  unfold equal
  by_cases hdef : m.defValue = m'.defValue
  · have hall : ∀ fuel > (allEntries z m).length + (allEntries z m').length, ∃ b,
        equal z fuel uninitialized uninitialized' m m' = some b ∧
          (b = true ↔ ∀ k, value hasher z m k = value hasher z m' k) := fun fuel hfuel => by
      obtain ⟨i, hfirst, hi_def, hi⟩ :=
        begin_spec h hm (show (allEntries z m).length < fuel by omega) uninitialized
      obtain ⟨j, hsecond, hj_def, hj⟩ :=
        begin_spec h hm' (show (allEntries z m').length < fuel by omega) uninitialized'
      have hskips := skips_dropWhile m.defValue (allEntries z m)
      have hskips' := skips_dropWhile m'.defValue (allEntries z m')
      have hl := (allEntries_sorted h hm).sublist hskips.sublist
      have hl' := (allEntries_sorted h hm').sublist hskips'.sublist
      have hle := hskips.length_le
      have hle' := hskips'.length_le
      obtain ⟨firstCurrent, secondCurrent, hnew, hstep⟩ := DoubleIterator.new_spec hi hj hl hl'
      obtain ⟨b, hloop, hb⟩ := equalLoop_spec h hi hj hl hl' hi_def (hj_def.trans hdef.symm) hstep
        ((Nat.add_le_add hle hle').trans_lt hfuel)
      refine ⟨b, ?_, hb.trans (forall_congr' fun k => ?_)⟩
      · rw [equal, if_neg htree, if_neg (not_not.mpr hdef), hfirst, Option.bind_eq_bind,
          Option.bind_some, hsecond,
          Option.bind_some, hnew]
        exact hloop
      · rw [← hskips.valueIn (allEntries_sorted h hm), hdef,
          ← hskips'.valueIn (allEntries_sorted h hm'), ← hdef, valueIn, lookup_allEntries h hm,
          valueIn, hdef, lookup_allEntries h hm']
    obtain ⟨b, -, hb⟩ := hall _ (Nat.lt_succ_self _)
    refine ⟨b, ⟨(allEntries z m).length + (allEntries z m').length, fun fuel hfuel => ?_⟩,
      hb.trans (and_iff_right hdef).symm⟩
    obtain ⟨b', heq, hb'⟩ := hall fuel hfuel
    exact heq.trans (congrArg some (Bool.eq_iff_iff.mpr (hb'.trans hb.symm)))
  · refine ⟨false, ⟨0, fun fuel _ => ?_⟩, iff_of_false nofun fun hall => hdef hall.1⟩
    rw [if_neg htree, if_pos hdef]

/-! ## Versions -/

/-- What a program does with the maps in its variables. -/
inductive Op (K V : Type) where
  | create (defValue : V)
  | copy (source : ℕ)
  | set (target : ℕ) (key : K) (newValue : V)
  | modify (target : ℕ) (key : K) (f : V → V)

/-- The memory and the variables of a program. -/
structure Versions (K V : Type) where
  zone : Zone K V
  maps : List (PersistentMap V)

/-- Changes the map in a variable. -/
def Versions.assign (s : Versions K V) (target : ℕ)
    (change : PersistentMap V → Option (PersistentMap V × Zone K V)) : Option (Versions K V) :=
  match s.maps[target]? with
  | none => some s
  | some m => do
    let (m, zone) ← change m
    some ⟨zone, s.maps.set target m⟩

def Op.run (hasher : K → HashValue) (mayBeUnequal : V → V → Bool) (s : Versions K V) :
    Op K V → Option (Versions K V)
  | .create defValue => some { s with maps := s.maps ++ [⟨none, defValue⟩] }
  | .copy source => some { s with maps := s.maps ++ s.maps[source]?.toList }
  | .set target key newValue => s.assign target fun m =>
      PersistentMap.set hasher mayBeUnequal s.zone m key newValue
  | .modify target key f => s.assign target fun m =>
      PersistentMap.modify hasher mayBeUnequal s.zone m key f

/-- Runs a program. -/
def run (hasher : K → HashValue) (mayBeUnequal : V → V → Bool) (s : Versions K V)
    (ops : List (Op K V)) : Option (Versions K V) := ops.foldlM (Op.run hasher mayBeUnequal) s

/-- What a map is: a function that is total by its default value. -/
@[ext]
structure TotalFunction (K V : Type) where
  defValue : V
  value : K → V

/-- What a program means, where nothing is shared. -/
def Op.apply (fs : List (TotalFunction K V)) : Op K V → List (TotalFunction K V)
  | .create defValue => fs ++ [⟨defValue, fun _ => defValue⟩]
  | .copy source => fs ++ fs[source]?.toList
  | .set target key newValue => fs.modify target fun f =>
      ⟨f.defValue, Function.update f.value key newValue⟩
  | .modify target key g => fs.modify target fun f =>
      ⟨f.defValue, Function.update f.value key (g (f.value key))⟩

/-- The function that a map stands for. -/
def denote (hasher : K → HashValue) (z : Zone K V) (m : PersistentMap V) : TotalFunction K V :=
  ⟨m.defValue, value hasher z m⟩

/-- The variables have the functions they should have. A tree belongs to one default
value. -/
structure Refines (hasher : K → HashValue) (s : Versions K V) (fs : List (TotalFunction K V)) :
    Prop where
  wf : s.zone.Wf hasher
  valid : ∀ m ∈ s.maps, m.Valid s.zone
  denote : s.maps.map (denote hasher s.zone) = fs
  defValue : ∀ m ∈ s.maps, ∀ m' ∈ s.maps, m.tree = m'.tree → m.tree ≠ none →
    m.defValue = m'.defValue

variable {s : Versions K V} {fs : List (TotalFunction K V)} {mayBeUnequal : V → V → Bool}

variable {z' : Zone K V}

theorem denote_extends (h : z.Wf hasher) (hz : z.Extends z') {m : PersistentMap V}
    (hm : m.Valid z) : denote hasher z' m = denote hasher z m :=
  TotalFunction.ext rfl (funext fun k => value_extends h hz hm k)

variable (h : Refines hasher s fs)
include h

theorem Refines.append (added : List (PersistentMap V))
    (hvalid : ∀ m ∈ added, m.tree = none ∨ m ∈ s.maps) :
    Refines hasher { s with maps := s.maps ++ added }
      (fs ++ added.map (PersistentMap.denote hasher s.zone)) := by
  have hmem : ∀ m ∈ s.maps ++ added, m.tree = none ∨ m ∈ s.maps := fun m hm =>
    (List.mem_append.mp hm).elim .inr (hvalid m)
  refine ⟨h.wf, fun m hm t ht => ?_, ?_, fun m hm m' hm' heq hne => ?_⟩
  · rcases hmem m hm with hnone | hold
    · exact nomatch hnone.symm.trans ht
    · exact h.valid m hold t ht
  · rw [map_append, h.denote]
  · exact h.defValue m ((hmem m hm).resolve_left hne) m'
      ((hmem m' hm').resolve_left fun hnone => hne (heq.trans hnone)) heq hne

/-- Assigning to one variable leaves the others as they are. -/
theorem Refines.assign {target : ℕ}
    (hm : s.maps[target]? = some m) (hwf : z'.Wf hasher) (hz : s.zone.Extends z')
    (hvalid : m'.Valid z') (hdef : m'.defValue = m.defValue)
    (htree : m' = m ∨ m'.tree = some s.zone.unused) {g : TotalFunction K V → TotalFunction K V}
    (hg : PersistentMap.denote hasher z' m' = g (PersistentMap.denote hasher s.zone m)) :
    Refines hasher ⟨z', s.maps.set target m'⟩ (fs.modify target g) := by
  have hmem : m ∈ s.maps := mem_of_getElem? hm
  refine ⟨hwf, fun m₁ hm₁ => ?_, ?_, ?_⟩
  · rcases mem_or_eq_of_mem_set hm₁ with hold | rfl
    · exact fun t ht => (h.valid m₁ hold t ht).trans_le hz.unused
    · exact hvalid
  · rw [← h.denote]
    refine ext_getElem? fun j => ?_
    rw [List.getElem?_map]
    by_cases hj : target = j
    · subst hj
      obtain ⟨hlt, -⟩ := List.getElem?_eq_some_iff.mp hm
      rw [List.getElem?_set_self hlt, List.getElem?_modify_eq, List.getElem?_map, hm]
      exact congrArg some hg
    · rw [List.getElem?_set_ne hj, List.getElem?_modify_ne _ _ hj, List.getElem?_map]
      cases hm₁ : s.maps[j]? with
      | none => rw [map_none, map_none]
      | some m₁ =>
        rw [map_some, map_some, denote_extends h.wf hz (h.valid m₁ (mem_of_getElem? hm₁))]
  · -- a new tree is in no other variable
    have hkind : ∀ m₁ ∈ s.maps.set target m',
        m₁ ∈ s.maps ∨ m₁.tree = some s.zone.unused ∧ m₁.defValue = m.defValue := fun m₁ hm₁ => by
      rcases mem_or_eq_of_mem_set hm₁ with hold | rfl
      · exact .inl hold
      · exact htree.imp (fun heq => by rwa [heq]) fun hnew => ⟨hnew, hdef⟩
    have hfresh : ∀ m₁ ∈ s.maps, m₁.tree ≠ some s.zone.unused := fun m₁ hm₁ heq =>
      lt_irrefl _ (h.valid m₁ hm₁ _ heq)
    intro m₁ hm₁ m₂ hm₂ heq hne
    rcases hkind m₁ hm₁ with hold | ⟨hnew, hdef₁⟩ <;> rcases hkind m₂ hm₂ with hold' | ⟨hnew', hdef₂⟩
    · exact h.defValue m₁ hold m₂ hold' heq hne
    · exact absurd (heq.trans hnew') (hfresh m₁ hold)
    · exact absurd (heq.symm.trans hnew) (hfresh m₂ hold')
    · exact hdef₁.trans hdef₂.symm

theorem Refines.modify
    (hequal : ∀ a b, mayBeUnequal a b = false → a = b) (target : ℕ) (key : K) (f : V → V) :
    ∃ s', (Op.modify target key f).run hasher mayBeUnequal s = some s' ∧
      s.zone.Extends s'.zone ∧ Refines hasher s' ((Op.modify target key f).apply fs) := by
  rw [Op.run, Versions.assign, Op.apply]
  cases hm : s.maps[target]? with
  | none =>
    have hlength : fs.length ≤ target := by
      rw [← h.denote, length_map]
      exact List.getElem?_eq_none_iff.mp hm
    rw [modify_eq_self hlength]
    exact ⟨s, rfl, .refl _, h⟩
  | some m =>
    obtain ⟨m', z', hmodify, hwf, hz, hvalid, hdef, htree, hvalue⟩ :=
      modify_spec h.wf (h.valid m (mem_of_getElem? hm)) hequal key f
    dsimp only
    rw [hmodify, Option.bind_eq_bind, Option.bind_some]
    refine ⟨_, rfl, hz, h.assign hm hwf hz hvalid hdef htree ?_⟩
    exact TotalFunction.ext hdef (funext fun k => (hvalue k).trans (Function.update_apply ..).symm)

/-- **One operation.** -/
theorem Refines.step [DecidableEq V]
    (hequal : ∀ a b, mayBeUnequal a b = false → a = b) (op : Op K V) :
    ∃ s', op.run hasher mayBeUnequal s = some s' ∧ s.zone.Extends s'.zone ∧
      Refines hasher s' (op.apply fs) := by
  cases op with
  | create defValue =>
    exact ⟨_, rfl, .refl _, h.append _ (List.forall_mem_singleton.mpr (.inl rfl))⟩
  | copy source =>
    refine ⟨_, rfl, .refl _, ?_⟩
    have hcopy := h.append s.maps[source]?.toList fun m hm =>
      .inr (mem_of_getElem? (mem_toList.mp hm))
    have hmap : fs[source]? = s.maps[source]?.map (PersistentMap.denote hasher s.zone) := by
      rw [← h.denote, List.getElem?_map]
    rw [Op.apply, hmap, toList_map]
    exact hcopy
  | set target key newValue => exact h.modify hequal target key fun _ => newValue
  | modify target key f => exact h.modify hequal target key f

/-- **Any program.** -/
theorem Refines.run [DecidableEq V]
    (hequal : ∀ a b, mayBeUnequal a b = false → a = b) (ops : List (Op K V)) :
    ∃ s', run hasher mayBeUnequal s ops = some s' ∧ s.zone.Extends s'.zone ∧
      Refines hasher s' (ops.foldl Op.apply fs) := by
  induction ops generalizing s fs with
  | nil => exact ⟨s, rfl, .refl _, h⟩
  | cons op ops ih =>
    obtain ⟨s₁, hrun, hz, h₁⟩ := h.step hequal op
    obtain ⟨s', hrun', hz', h'⟩ := ih h₁
    refine ⟨s', ?_, hz.trans hz', h'⟩
    rw [PersistentMap.run, foldlM_cons, hrun]
    exact hrun'

theorem Refines.get {m : PersistentMap V} (hm : m ∈ s.maps) (key : K) :
    PersistentMap.get hasher s.zone m key = some (value hasher s.zone m key) :=
  get_eq h.wf (h.valid m hm) key

/-- **Equality of two variables.** The exception is two empty maps. -/
theorem Refines.equal [DecidableEq V]
    (hm : m ∈ s.maps) (hm' : m' ∈ s.maps) (uninitialized uninitialized' : ℕ → Option Pointer) :
    ∃ b, (∃ bound, ∀ fuel > bound,
        PersistentMap.equal s.zone fuel uninitialized uninitialized' m m' = some b) ∧
      ((b = true ↔ m.defValue = m'.defValue ∧
          ∀ k, value hasher s.zone m k = value hasher s.zone m' k) ↔
        ¬(m.tree = none ∧ m'.tree = none ∧ m.defValue ≠ m'.defValue)) := by
  by_cases htree : m.tree = m'.tree
  · refine ⟨true, ⟨0, fun fuel _ => if_pos htree⟩, ?_⟩
    by_cases hdef : m.defValue = m'.defValue
    · have heq : m = m' := by
        cases m
        cases m'
        exact congrArg₂ PersistentMap.mk htree hdef
      subst heq
      exact iff_of_true (iff_of_true rfl ⟨rfl, fun _ => rfl⟩) fun hempty => hempty.2.2 rfl
    · -- the same tree with two default values is none
      have hnone : m.tree = none := by
        by_contra hne
        exact hdef (h.defValue m hm m' hm' htree hne)
      refine iff_of_false (fun hiff => hdef (hiff.mp rfl).1) (not_not.mpr ⟨hnone, ?_, hdef⟩)
      exact htree.symm.trans hnone
  · obtain ⟨b, hequal, hb⟩ := equal_spec h.wf (h.valid m hm) (h.valid m' hm') htree uninitialized
      uninitialized'
    exact ⟨b, hequal, iff_of_true hb fun hempty => htree (hempty.1.trans hempty.2.1.symm)⟩

omit h

/-- The memory before anything has been allocated. -/
theorem Refines.start (object : Pointer → FocusedTree K V) : Refines hasher ⟨⟨object, 0⟩, []⟩ [] :=
  ⟨⟨nofun, nofun, nofun⟩, nofun, rfl, nofun⟩

/-- **Persistent maps are total functions.** Every program ends with the functions it
should have; what it does later changes no map it has already made; and maps are equal
exactly if they have the same default value and the same values, unless both are
empty with different default values. -/
theorem versions_spec [DecidableEq V] (hasher : K → HashValue) (mayBeUnequal : V → V → Bool)
    (hequal : ∀ a b, mayBeUnequal a b = false → a = b) (object : Pointer → FocusedTree K V)
    (ops later : List (Op K V)) : ∃ s s', run hasher mayBeUnequal ⟨⟨object, 0⟩, []⟩ ops = some s ∧
      run hasher mayBeUnequal s later = some s' ∧
      (s.maps.map fun m => (m.defValue, fun k => get hasher s.zone m k)) =
        ((ops.foldl Op.apply []).map fun f => (f.defValue, fun k => some (f.value k))) ∧
      (∀ m ∈ s.maps, ∀ k, get hasher s'.zone m k = get hasher s.zone m k) ∧
      ∀ m ∈ s.maps, ∀ m' ∈ s.maps, ∀ uninitialized uninitialized' : ℕ → Option Pointer,
        ∃ b, (∃ bound, ∀ fuel > bound,
            equal s.zone fuel uninitialized uninitialized' m m' = some b) ∧
          ((b = true ↔ m.defValue = m'.defValue ∧
              ∀ k, get hasher s.zone m k = get hasher s.zone m' k) ↔
            ¬(m.tree = none ∧ m'.tree = none ∧ m.defValue ≠ m'.defValue)) := by
  obtain ⟨s, hrun, -, h⟩ := (Refines.start object).run hequal ops
  obtain ⟨s', hrun', hz, h'⟩ := h.run hequal later
  refine ⟨s, s', hrun, hrun', ?_, fun m hm k => ?_, fun m hm m' hm' u u' => ?_⟩
  · rw [← h.denote, List.map_map]
    exact map_congr_left fun m hm => congrArg (Prod.mk m.defValue) (funext (h.get hm))
  · have hvalid : m.Valid s'.zone := fun t ht => (h.valid m hm t ht).trans_le hz.unused
    rw [h.get hm, get_eq h'.wf hvalid, value_extends h.wf hz (h.valid m hm)]
  · obtain ⟨b, hb, hiff⟩ := h.equal hm hm' u u'
    refine ⟨b, hb, ?_⟩
    rw [← hiff]
    have hget : (∀ k, get hasher s.zone m k = get hasher s.zone m' k) ↔
        ∀ k, value hasher s.zone m k = value hasher s.zone m' k := forall_congr' fun k => by
      rw [h.get hm, h.get hm', some_inj]
    rw [hget]

theorem versions_spec_collision : ∃ s,
    run (fun _ : ℕ => 0) (fun a b : ℕ => a ≠ b) ⟨⟨fun _ => ⟨0, 0, 0, none, []⟩, 0⟩, []⟩
      [.create 0, .set 0 1 5, .copy 0, .set 1 2 6] = some s ∧
    (s.maps.map fun m => (get (fun _ => 0) s.zone m 1, get (fun _ => 0) s.zone m 2)) =
      [(some 5, some 0), (some 5, some 6)] := by
  obtain ⟨s, -, hrun, -, hmaps, -⟩ := versions_spec (fun _ : ℕ => 0) (fun a b : ℕ => a ≠ b)
    (fun a b h => by simpa using h) (fun _ => ⟨0, 0, 0, none, []⟩)
    [.create 0, .set 0 1 5, .copy 0, .set 1 2 6] []
  refine ⟨s, hrun, ?_⟩
  have hvalues := congrArg (List.map fun p => (p.2 1, p.2 2)) hmaps
  rw [List.map_map] at hvalues
  exact hvalues

/-- Two empty maps are equal, whatever their default values are. -/
theorem equal_of_empty :
    (run (fun _ : ℕ => 0) (fun a b : ℕ => a ≠ b) ⟨⟨fun _ => ⟨0, 0, 0, none, []⟩, 0⟩, []⟩
      [.create 0, .create 1]).map Versions.maps = some [⟨none, 0⟩, ⟨none, 1⟩] ∧
    (∀ fuel, equal (K := ℕ) (V := ℕ) ⟨fun _ => ⟨0, 0, 0, none, []⟩, 0⟩ fuel (fun _ => none)
      (fun _ => none) ⟨none, 0⟩ ⟨none, 1⟩ = some true) ∧
    get (fun _ : ℕ => 0) ⟨fun _ => ⟨0, 0, 0, none, []⟩, 0⟩ ⟨none, 0⟩ 0 ≠
      get (fun _ : ℕ => 0) ⟨fun _ => ⟨0, 0, 0, none, []⟩, 0⟩ ⟨none, 1⟩ 0 :=
  ⟨rfl, fun _ => rfl, by decide⟩

end PersistentMap
