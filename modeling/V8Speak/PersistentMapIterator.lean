import V8Speak.PersistentMapGet

/-!
# Iterating over the entries

An iterator is at a leaf of the trie and keeps, for each level above it, the subtree
on the other side. The subtrees to the right are what it has still to visit
(`pending`): `findLeftmost` goes down to the first leaf of a subtree and adds what is
right of the way there, so that leaf and pending leaves together are those of the
subtree and what was pending before (`findLeftmost_spec`).

So an iterator stands for the list of entries that are left (`Iterator.At`). The
entries are in the order of hashes, and of keys where hashes collide. `operator++`
drops the first entry, and then some entries with the default value (`unvisited`) – not
all of them, since it stops at every further entry of a node. Dropping those never changes
the value of a key (`Skips`).
-/

open List Option Function

namespace PersistentMap

open HashTrie

variable {K V : Type} {hasher : K → HashValue} {z : Zone K V} {c p q t u : Pointer}
  {level n k : ℕ} {path path' : ℕ → Option Pointer}

/-! ## What is left to visit -/

/-- The leaves to the right of the path to a node, which is met at a level. -/
def pending (z : Zone K V) (path : ℕ → Option Pointer) (c : Pointer) : ℕ → List Pointer
  | 0 => []
  | level + 1 =>
    (if bits z c level = false then
      (path level).elim [] (leaves (child z) (kHashBits - (level + 1)) (level + 1)) else []) ++
      pending z path c level

/-- Only the levels above matter. -/
theorem pending_congr (hpath : ∀ i < level, path' i = path i)
    (hbits : ∀ i < level, bits z u i = bits z c i) :
    pending z path' u level = pending z path c level := by
  induction level with
  | zero => rfl
  | succ level ih =>
    rw [pending, pending, hpath level (Nat.lt_succ_self _), hbits level (Nat.lt_succ_self _),
      ih (fun i hi => hpath i (by omega)) fun i hi => hbits i (by omega)]

/-- The subtrees to the right of the path branch off there. -/
def PathOk (z : Zone K V) (path : ℕ → Option Pointer) (c : Pointer) (level : ℕ) : Prop :=
  ∀ i < level, bits z c i = false → ∀ q, path i = some q →
    q < z.unused ∧ (∀ j < i, bits z q j = bits z c j) ∧ bits z q i = true

theorem PathOk.congr (h : PathOk z path c level) (hpath : ∀ i < level, path' i = path i)
    (hbits : ∀ i < level, bits z u i = bits z c i) : PathOk z path' u level := by
  intro i hi hleft q hq
  rw [hbits i hi] at hleft
  rw [hpath i hi] at hq
  obtain ⟨hlt, hagree, hright⟩ := h i hi hleft q hq
  exact ⟨hlt, fun j hj => (hagree j hj).trans (hbits j (by omega)).symm, hright⟩

/-- A node whose path ends stands for itself alone. -/
theorem leaves_single (hlength : (z.object t).length ≤ level) :
    leaves (child z) n level t = [t] := by
  induction n generalizing level with
  | zero => rfl
  | succ n ih =>
    have hnone : (z.object t).pathAt level = none := by
      rw [FocusedTree.pathAt, getElem?_eq_none hlength]
      rfl
    rw [leaves, child_eq, child_eq, hnone]
    cases bits z t level with
    | false => exact congrArg (· ++ []) (ih (by omega))
    | true => exact ih (by omega)

/-- Going to the right, at the highest level where that is possible. -/
theorem rightAlternative_spec (z : Zone K V) (path : ℕ → Option Pointer) (c : Pointer) (level : ℕ) :
    (Iterator.rightAlternative z c path level = none ∧ pending z path c level = []) ∨
    ∃ k right, Iterator.rightAlternative z c path level = some (k, right) ∧ k < level ∧
      bits z c k = false ∧ path k = some right ∧
      pending z path c level =
        leaves (child z) (32 - (k + 1)) (k + 1) right ++ pending z path c k := by
  induction level with
  | zero => exact .inl ⟨rfl, rfl⟩
  | succ level ih =>
    rw [Iterator.rightAlternative, pending]
    cases hbit : bits z c level with
    | true =>
      rw [bit_eq_kRight.mpr hbit, if_neg (nofun), nil_append]
      exact ih.imp_right fun ⟨k, right, hr, hlt, hspec⟩ => ⟨k, right, hr, by omega, hspec⟩
    | false =>
      rw [bit_eq_kLeft.mpr hbit, if_pos rfl]
      cases hpath : path level with
      | none => exact ih.imp_right fun ⟨k, right, hr, hlt, hspec⟩ => ⟨k, right, hr, by omega, hspec⟩
      | some right => exact .inr ⟨level, right, rfl, Nat.lt_succ_self _, hbit, hpath, rfl⟩

/-! ## Iterators -/

namespace Iterator

/-- The entries of the current node from the iterator on. -/
def bucket (z : Zone K V) (i : Iterator K V) (c : Pointer) : List (K × V) :=
  (z.object c).more.elim [((z.object c).key, (z.object c).value)] fun _ => i.moreIter

/-- **An iterator** before the entries that are left. -/
inductive At (hasher : K → HashValue) (z : Zone K V) : Iterator K V → List (K × V) → Prop
  | pastEnd {i : Iterator K V} (hcurrent : i.current = none) : At hasher z i []
  | node {i : Iterator K V} {c : Pointer} {e : K × V} {rest : List (K × V)}
      (hcurrent : i.current = some c) (hc : c < z.unused) (hlevel : i.level ≤ 32)
      (hpath : PathOk z i.path c i.level) (hbucket : i.bucket z c = e :: rest)
      (hhash : ∀ e' ∈ e :: rest, hasher e'.1 = (z.object c).keyHash) :
      At hasher z i (e :: (rest ++
        (pending z i.path c i.level).flatMap fun u => (z.object u).entries))

variable {i : Iterator K V} {e : K × V} {l : List (K × V)}

theorem At.isEnd (hi : i.At hasher z l) : i.isEnd = true ↔ l = [] := by
  unfold Iterator.isEnd
  cases hi with
  | pastEnd hcurrent => simp [hcurrent]
  | node hcurrent => simp [hcurrent]

theorem At.deref (hi : i.At hasher z (e :: l)) : i.deref z = some e := by
  cases hi with
  | node hcurrent hc hlevel hpath hbucket hhash =>
    unfold Iterator.deref
    rw [hcurrent]
    dsimp only
    unfold bucket at hbucket
    cases hmore : (z.object _).more with
    | none =>
      rw [hmore] at hbucket
      exact congrArg some (List.cons.inj hbucket).1
    | some more =>
      rw [hmore] at hbucket
      rw [show i.moreIter = _ from hbucket]
      rfl

/-- The hash of the current node is that of the entry. -/
theorem At.hash (hi : i.At hasher z (e :: l)) :
    ∃ c, i.current = some c ∧ (z.object c).keyHash = hasher e.1 := by
  cases hi with
  | node hcurrent hc hlevel hpath hbucket hhash =>
    exact ⟨_, hcurrent, (hhash e mem_cons_self).symm⟩

/-- All entries of a node. -/
theorem bucket_eq_entries (hi : i.moreIter = (z.object c).more.getD []) :
    i.bucket z c = (z.object c).entries := by
  unfold bucket FocusedTree.entries
  rw [hi]
  cases (z.object c).more <;> rfl

/-- A further entry of the current node. -/
theorem nextMore_spec {rest : List (K × V)} (hbucket : i.bucket z c = e :: rest) :
    (rest = [] ∧ i.nextMore z c = none) ∨
    ∃ i' e' rest', rest = e' :: rest' ∧ i.nextMore z c = some i' ∧
      i' = { i with moreIter := rest } ∧ i'.bucket z c = rest := by
  unfold nextMore
  unfold bucket at hbucket
  cases hmore : (z.object c).more with
  | none =>
    rw [hmore] at hbucket
    exact .inl ⟨(List.cons.inj hbucket).2.symm, rfl⟩
  | some more =>
    rw [hmore] at hbucket
    rw [show i.moreIter = e :: rest from hbucket]
    cases rest with
    | nil => exact .inl ⟨rfl, rfl⟩
    | cons e' rest' =>
      refine .inr ⟨_, e', rest', rfl, rfl, rfl, ?_⟩
      unfold bucket
      rw [hmore]
      rfl

end Iterator

/-! ## Entries with the default value -/

/-- Entries with the default value are left out in front. -/
def Skips (d : V) (l l' : List (K × V)) : Prop := ∃ skipped, l = skipped ++ l' ∧ ∀ e ∈ skipped, e.2 = d

theorem Skips.refl (d : V) (l : List (K × V)) : Skips d l l := ⟨[], rfl, nofun⟩

variable {d : V} {l l' : List (K × V)}

theorem Skips.cons {e : K × V} (he : e.2 = d) (hl : Skips d l l') : Skips d (e :: l) l' := by
  obtain ⟨skipped, rfl, hskipped⟩ := hl
  exact ⟨e :: skipped, rfl, forall_mem_cons.mpr ⟨he, hskipped⟩⟩

theorem Skips.length_le (hl : Skips d l l') : l'.length ≤ l.length := by
  obtain ⟨skipped, rfl, -⟩ := hl
  rw [length_append]
  exact Nat.le_add_left _ _

theorem Skips.sublist (hl : Skips d l l') : l'.Sublist l := by
  obtain ⟨skipped, rfl, -⟩ := hl
  exact sublist_append_right _ _

theorem Skips.dropWhile [DecidableEq V] {l l' : List (K × V)} (hl : Skips d l l') :
    l.dropWhile (fun e => e.2 = d) = l'.dropWhile fun e => e.2 = d := by
  obtain ⟨skipped, rfl, hskipped⟩ := hl
  exact dropWhile_append_of_pos fun e he => decide_eq_true (hskipped e he)

theorem skips_dropWhile [DecidableEq V] (d : V) (l : List (K × V)) :
    Skips d l (l.dropWhile fun e => e.2 = d) :=
  ⟨_, takeWhile_append_dropWhile.symm, fun _ he => by simpa using mem_takeWhile_imp he⟩

/-- What is left after an entry with a hash: of the entries with the default value, only
those that are the first ones of their nodes are skipped. -/
def unvisited [DecidableEq V] (hasher : K → HashValue) (d : V) :
    HashValue → List (K × V) → List (K × V)
  | _, [] => []
  | hash, e :: l =>
    if hasher e.1 ≠ hash ∧ e.2 = d then unvisited hasher d (hasher e.1) l else e :: l

theorem unvisited_skips [DecidableEq V] (hasher : K → HashValue) (d : V) (hash : HashValue)
    (l : List (K × V)) : Skips d l (unvisited hasher d hash l) := by
  induction l generalizing hash with
  | nil => exact .refl d []
  | cons e l ih =>
    rw [unvisited]
    split
    · next hskip => exact (ih _).cons hskip.2
    · exact .refl d _

/-! ## Going on -/

section

variable [LinearOrder K]

/-- Going down one level. -/
theorem pathOk_child (h : z.Wf hasher) (hc : c < z.unused) (hpath : PathOk z path c level)
    {b : Bool} (hu : child z c level b = some u) (other : Option Pointer)
    (hother : b = false → other = child z c level true) :
    u < z.unused ∧ PathOk z (update path level other) u (level + 1) ∧
      pending z (update path level other) u (level + 1) =
        (if b = false then (child z c level true).elim []
          (leaves (child z) (kHashBits - (level + 1)) (level + 1)) else []) ++
          pending z path c level := by
  obtain ⟨hlt, hagree, hbit⟩ := child_spec h hc hu
  have hupdate : ∀ i < level, update path level other i = path i := fun i hi =>
    update_of_ne (by omega) ..
  refine ⟨hlt, fun i hi hleft q hq => ?_, ?_⟩
  · rcases Nat.lt_succ_iff_lt_or_eq.mp hi with hi | rfl
    · exact hpath.congr hupdate hagree i hi hleft q hq
    · rw [update_self, hother (hbit.symm.trans hleft)] at hq
      obtain ⟨hq_lt, hq_agree, hq_bit⟩ := child_spec h hc hq
      exact ⟨hq_lt, fun j hj => (hq_agree j hj).trans (hagree j hj).symm, hq_bit⟩
  · rw [pending, update_self, hbit, pending_congr hupdate hagree]
    cases b with
    | false => rw [hother rfl]
    | true => rfl

/-- **The leftmost leaf** of a subtree is the first one; what is right of it is
pending. -/
theorem findLeftmost_spec (h : z.Wf hasher) (hc : c < z.unused) (hlevel : level ≤ 32)
    (hn : 33 ≤ n + level) (hpath : PathOk z path c level) :
    ∃ u level' path', findLeftmost z n c level path = some (u, level', path') ∧ u < z.unused ∧
      level' ≤ 32 ∧ PathOk z path' u level' ∧
      u :: pending z path' u level' =
        leaves (child z) (32 - level) level c ++ pending z path c level := by
  induction n generalizing c level path with
  | zero => omega
  | succ n ih =>
    rw [findLeftmost]
    split
    · next hlt =>
      have hlevel' : level < 32 := hlt.trans_le (h.length_le c hc)
      rw [show 32 - level = kHashBits - (level + 1) + 1 by rw [kHashBits]; omega, leaves]
      have hleft_eq : getChild z c level .kLeft = child z c level false := rfl
      have hright_eq : getChild z c level .kRight = child z c level true := rfl
      rw [hleft_eq, hright_eq]
      cases hleft : child z c level false with
      | some v =>
        obtain ⟨hv, hok, hpending⟩ := pathOk_child h hc hpath hleft _ fun _ => rfl
        obtain ⟨u, level', path', hr, hu, hle, hok', heq⟩ := ih hv (by omega) (by omega) hok
        refine ⟨u, level', path', hr, hu, hle, hok', ?_⟩
        rw [heq, hpending, if_pos rfl, elim_some, append_assoc]
        rfl
      | none =>
        -- the node itself is on one of the sides
        have hside : bits z c level = true := by
          by_contra hne
          rw [child_same (Bool.eq_false_of_not_eq_true hne)] at hleft
          cases hleft
        have hright := child_same hside
        obtain ⟨hv, hok, hpending⟩ := pathOk_child h hc hpath hright none (by rintro ⟨⟩)
        obtain ⟨u, level', path', hr, hu, hle, hok', heq⟩ := ih hv (by omega) (by omega) hok
        refine ⟨u, level', path', ?_, hu, hle, hok', ?_⟩
        · rw [hright]
          exact hr
        · rw [heq, hpending, if_neg (by decide), hright]
          rfl
    · next hge =>
      rw [not_lt] at hge
      exact ⟨c, level, path, rfl, hc, hlevel, hpath, by rw [leaves_single hge]; rfl⟩

/-- The hashes of pending nodes are not that of the current one. -/
theorem pending_hash_ne (h : z.Wf hasher) (hpath : PathOk z path c level) :
    ∀ e ∈ (pending z path c level).flatMap fun u => (z.object u).entries,
      hasher e.1 ≠ (z.object c).keyHash := by
  induction level with
  | zero => nofun
  | succ level ih =>
    intro e he
    rw [pending, flatMap_append, mem_append] at he
    rcases he with he | he
    · obtain ⟨u, hu, he⟩ := mem_flatMap.mp he
      split at hu
      · next hleft =>
        cases hright : path level with
        | none => rw [hright] at hu; exact absurd hu not_mem_nil
        | some right =>
          rw [hright] at hu
          obtain ⟨hlt, -, hbit⟩ := hpath level (Nat.lt_succ_self _) hleft right hright
          obtain ⟨f, hwalk⟩ := mem_leaves.mp hu
          obtain ⟨hu_lt, hagree, -⟩ := walk_bits h hlt hwalk
          rw [(h.bucket u hu_lt).hash e he]
          intro heq
          have hbit' := (hagree level (Nat.lt_succ_self _)).trans hbit
          rw [bits, heq] at hbit'
          exact Bool.false_ne_true (hleft.symm.trans hbit')
      · exact absurd hu not_mem_nil
    · exact ih (fun i hi => hpath i (by omega)) e he

namespace Iterator

variable {i : Iterator K V} {e : K × V} {l : List (K × V)}

/-- The first entry of a subtree. -/
theorem first_spec (h : z.Wf hasher) (i : Iterator K V) (hc : c < z.unused) (hlevel : level ≤ 32)
    (hpath : PathOk z i.path c level) :
    ∃ i', i.first z c level = some i' ∧ i'.defValue = i.defValue ∧
      i'.At hasher z ((leaves (child z) (32 - level) level c ++ pending z i.path c level).flatMap
        fun u => (z.object u).entries) := by
  obtain ⟨u, level', path', hr, hu, hle, hok, heq⟩ :=
    findLeftmost_spec h hc hlevel (show 33 ≤ kHashBits + 1 + level by rw [kHashBits]; omega) hpath
  unfold first
  simp only [hr, Option.bind_eq_bind, Option.bind_some]
  refine ⟨_, rfl, rfl, ?_⟩
  obtain ⟨e, rest, hentries⟩ := exists_cons_of_ne_nil (h.bucket u hu).ne_nil
  rw [← heq, flatMap_cons, hentries]
  exact .node rfl hu hle hok ((bucket_eq_entries rfl).trans hentries) fun e' he =>
    (h.bucket u hu).hash e' (hentries ▸ he)

/-- The first entry of the next node. -/
theorem nextNode_spec (h : z.Wf hasher) (hlevel : i.level ≤ 32)
    (hpath : PathOk z i.path c i.level) :
    ∃ i', i.nextNode z c = some i' ∧ i'.defValue = i.defValue ∧
      i'.At hasher z ((pending z i.path c i.level).flatMap fun u => (z.object u).entries) := by
  unfold nextNode
  rcases rightAlternative_spec z i.path c i.level with
    ⟨hr, hpending⟩ | ⟨k, right, hr, hk, hleft, hright, hpending⟩
  · rw [hr, hpending]
    exact ⟨_, rfl, rfl, .pastEnd rfl⟩
  · obtain ⟨hlt, hagree, hbit⟩ := hpath k hk hleft right hright
    have hok : PathOk z i.path right (k + 1) := fun j hj hj_left => by
      rcases Nat.lt_succ_iff_lt_or_eq.mp hj with hj | rfl
      · exact PathOk.congr (fun j hj => hpath j (by omega)) (fun _ _ => rfl) hagree j hj hj_left
      · exact absurd (hj_left.symm.trans hbit) Bool.false_ne_true
    obtain ⟨i', hr', hdef, hat⟩ := first_spec h i hlt (by omega) hok
    rw [hr, hpending]
    refine ⟨i', hr', hdef, ?_⟩
    rwa [pending, hbit, if_neg (nofun), nil_append, pending_congr (fun _ _ => rfl) hagree] at hat

variable [DecidableEq V] {fuel : ℕ}

/-- **`operator++`** drops the entry it is at, and what it skips after it. -/
theorem next_spec (h : z.Wf hasher) (hi : i.At hasher z (e :: l)) (hfuel : l.length < fuel) :
    ∃ i', i.next z fuel = some i' ∧ i'.defValue = i.defValue ∧
      i'.At hasher z (unvisited hasher i.defValue (hasher e.1) l) := by
  induction fuel generalizing i e l with
  | zero => omega
  | succ fuel ih =>
    cases hi with
    | @node c _ rest hcurrent hc hlevel hpath hbucket hhash =>
      rw [next, hcurrent]
      dsimp only
      rcases nextMore_spec hbucket with ⟨rfl, hmore⟩ | ⟨i', e', rest', rfl, hmore, rfl, hbucket'⟩
      · obtain ⟨i', hnode, hdef, hat⟩ := nextNode_spec h hlevel hpath
        have hhash_ne := pending_hash_ne h hpath
        rw [← hhash e mem_cons_self] at hhash_ne
        rw [hmore, nil_append]
        simp only [hnode, bind_eq_bind, bind_some]
        rw [nil_append] at hfuel
        generalize ((pending z i.path c i.level).flatMap fun u => (z.object u).entries) = l
          at hat hfuel hhash_ne ⊢
        cases l with
        | nil => exact ⟨i', if_pos (hat.isEnd.mpr rfl), hdef, hat⟩
        | cons e' l =>
          rw [if_neg fun hend => cons_ne_nil _ _ (hat.isEnd.mp hend), hat.deref,
            bind_some, hdef, unvisited]
          split
          · next hvalue => exact ⟨i', rfl, hdef, by rwa [if_neg fun hskip => hvalue hskip.2]⟩
          · next hdefault =>
            rw [length_cons] at hfuel
            obtain ⟨i'', hnext, hdef', hat'⟩ := ih hat (by omega)
            rw [hdef] at hat'
            refine ⟨i'', hnext, hdef'.trans hdef, ?_⟩
            rwa [if_pos ⟨hhash_ne e' mem_cons_self, not_not.mp hdefault⟩]
      · obtain ⟨hfirst, hsecond, -⟩ := forall_mem_cons.mp hhash |>.imp id forall_mem_cons.mp
        rw [hmore, cons_append, unvisited, if_neg fun hskip => hskip.1 (hsecond.trans hfirst.symm)]
        exact ⟨_, rfl, rfl, .node hcurrent hc hlevel hpath hbucket' fun e he =>
          hhash e (mem_cons_of_mem _ he)⟩

theorem skipDefault_spec (h : z.Wf hasher) (hi : i.At hasher z l) (hfuel : l.length < fuel) :
    ∃ i', i.skipDefault z fuel = some i' ∧ i'.defValue = i.defValue ∧
      i'.At hasher z (l.dropWhile fun e => e.2 = i.defValue) := by
  induction fuel generalizing i l with
  | zero => omega
  | succ fuel ih =>
    rw [skipDefault]
    cases l with
    | nil => exact ⟨i, if_pos (hi.isEnd.mpr rfl), rfl, hi⟩
    | cons e l =>
      rw [if_neg fun hend => cons_ne_nil _ _ (hi.isEnd.mp hend), hi.deref,
        Option.bind_eq_bind, Option.bind_some, dropWhile_cons]
      split
      · next hvalue => exact ⟨i, rfl, rfl, by rwa [if_neg (by simpa using hvalue)]⟩
      · next hdefault =>
        rw [length_cons] at hfuel
        obtain ⟨i', hnext, hdef, hat⟩ := next_spec h hi (show l.length < fuel by omega)
        have hskips := unvisited_skips hasher i.defValue (hasher e.1) l
        have hle := hskips.length_le
        obtain ⟨i'', hskip, hdef', hat'⟩ := ih hat (by omega)
        rw [hdef, ← hskips.dropWhile] at hat'
        rw [hnext, Option.bind_eq_bind, Option.bind_some, if_pos (by simpa using hdefault)]
        exact ⟨i'', hskip, hdef'.trans hdef, hat'⟩

end Iterator

/-! ## All entries -/

theorem hash_lt {hash hash' : HashValue} (hagree : ∀ j < n, hash.getMsbD j = hash'.getMsbD j)
    (hleft : hash.getMsbD n = false) (hright : hash'.getMsbD n = true) :
    hash.toNat < hash'.toNat := by
  have hn : n < 32 := BitVec.lt_of_getMsbD hright
  have hbit : ∀ (x : HashValue) j, j < 32 → x.getMsbD j = x.toNat.testBit (31 - j) :=
      fun x j hj => by
    rw [BitVec.getMsbD_eq_getLsbD, decide_eq_true hj, Bool.true_and]
    rfl
  rw [hbit _ _ hn] at hleft hright
  refine Nat.lt_of_testBit (31 - n) hleft hright fun j hj => ?_
  rcases lt_or_ge j 32 with hlt | hge
  · have := hagree (31 - j) (by omega)
    rwa [hbit _ _ (by omega), hbit _ _ (by omega), show 31 - (31 - j) = j by omega] at this
  · have hpow : 2 ^ 32 ≤ 2 ^ j := Nat.pow_le_pow_right (by decide) hge
    rw [Nat.testBit_eq_false_of_lt (hash.isLt.trans_le hpow),
      Nat.testBit_eq_false_of_lt (hash'.isLt.trans_le hpow)]

/-- The leaves are in the order of their hashes. -/
theorem leaves_keyHash_lt (h : z.Wf hasher) (ht : t < z.unused) :
    (leaves (child z) n level t).Pairwise fun u v =>
      (z.object u).keyHash.toNat < (z.object v).keyHash.toNat := by
  refine leaves_pairwise (child_lt h) (fun t l n ht v hv w hw x hx y hy => ?_) ht
  have hbelow : ∀ {b u x}, child z t l b = some u → x ∈ leaves (child z) n (l + 1) u →
      (∀ j < l, bits z x j = bits z t j) ∧ bits z x l = b := fun hu hx => by
    obtain ⟨hlt, hagree, hbit⟩ := child_spec h ht hu
    obtain ⟨f, hwalk⟩ := mem_leaves.mp hx
    obtain ⟨-, hagree', -⟩ := walk_bits h hlt hwalk
    exact ⟨fun j hj => (hagree' j (by omega)).trans (hagree j hj),
      (hagree' l (Nat.lt_succ_self l)).trans hbit⟩
  obtain ⟨hx_agree, hx_bit⟩ := hbelow hv hx
  obtain ⟨hy_agree, hy_bit⟩ := hbelow hw hy
  exact hash_lt (fun j hj => (hx_agree j hj).trans (hy_agree j hj).symm) hx_bit hy_bit

/-- The entries of a map, in order. -/
def allEntries (z : Zone K V) (m : PersistentMap V) : List (K × V) :=
  m.tree.elim [] fun t =>
    (leaves (child z) kHashBits 0 t).flatMap fun u => (z.object u).entries

variable {m : PersistentMap V}

theorem begin_spec [DecidableEq V] (h : z.Wf hasher) (hm : m.Valid z)
    {fuel : ℕ} (hfuel : (allEntries z m).length < fuel) (uninitialized : ℕ → Option Pointer) :
    ∃ i, begin z fuel uninitialized m = some i ∧ i.defValue = m.defValue ∧
      i.At hasher z ((allEntries z m).dropWhile fun e => e.2 = m.defValue) := by
  unfold begin allEntries at *
  cases htree : m.tree with
  | none => exact ⟨_, rfl, rfl, .pastEnd rfl⟩
  | some t =>
    rw [htree, elim_some] at hfuel
    obtain ⟨i, hfirst, hdef, hat⟩ := Iterator.first_spec h ⟨0, [], none, uninitialized, m.defValue⟩
      (hm t htree) (Nat.zero_le 32) nofun
    rw [pending, append_nil] at hat
    obtain ⟨i', hskip, hdef', hat'⟩ := Iterator.skipDefault_spec h hat hfuel
    dsimp only
    rw [Iterator.start, hfirst, Option.bind_eq_bind, Option.bind_some]
    rw [hdef] at hat'
    exact ⟨i', hskip, hdef'.trans hdef, hat'⟩

/-- The order of entries: that of hashes, and of keys where hashes collide. -/
def rank (hasher : K → HashValue) (key : K) : ℕ ×ₗ K := toLex ((hasher key).toNat, key)

theorem allEntries_sorted (h : z.Wf hasher) (hm : m.Valid z) :
    (allEntries z m).Pairwise fun e e' => rank hasher e.1 < rank hasher e'.1 := by
  unfold allEntries
  cases htree : m.tree with
  | none => exact .nil
  | some t =>
    have hlt : ∀ u ∈ leaves (child z) kHashBits 0 t, u < z.unused := fun u hu => by
      obtain ⟨f, hwalk⟩ := mem_leaves.mp hu
      exact (walk_bits h (hm t htree) hwalk).1
    refine pairwise_flatMap.mpr ⟨fun u hu => ?_, ?_⟩
    · refine (h.bucket u (hlt u hu)).sorted.imp_of_mem fun {e e'} he he' hkey => ?_
      have hhash := (h.bucket u (hlt u hu)).hash
      exact Prod.Lex.toLex_lt_toLex.mpr (.inr ⟨by dsimp only; rw [hhash e he, hhash e' he'], hkey⟩)
    · refine (leaves_keyHash_lt h (hm t htree)).imp_of_mem fun {u v} hu hv hhash e he e' he' => ?_
      refine Prod.Lex.toLex_lt_toLex.mpr (.inl ?_)
      rwa [(h.bucket u (hlt u hu)).hash e he, (h.bucket v (hlt v hv)).hash e' he']

/-- The entries of a key are those of the node for its hash. -/
theorem mem_allEntries (h : z.Wf hasher) (hm : m.Valid z) {e : K × V} :
    e ∈ allEntries z m ↔ e ∈ entriesAt z (locate z m.tree (hasher e.1)) := by
  unfold allEntries locate
  cases htree : m.tree with
  | none => exact Iff.rfl
  | some t =>
    rw [elim_some, bind_some, mem_flatMap]
    constructor
    · rintro ⟨u, hu, he⟩
      obtain ⟨f, hwalk⟩ := mem_leaves.mp hu
      obtain ⟨hlt, -, hbits⟩ := walk_bits h (hm t htree) hwalk
      have hlocate : walk (child z) (hasher e.1).getMsbD kHashBits 0 t = some u := by
        rw [← hwalk, (h.bucket u hlt).hash e he]
        exact walk_congr fun i hi hi' => hbits i hi hi'
      rwa [hlocate]
    · intro he
      cases hwalk : walk (child z) (hasher e.1).getMsbD kHashBits 0 t with
      | none => rw [hwalk] at he; exact absurd he not_mem_nil
      | some u =>
        rw [hwalk] at he
        exact ⟨u, mem_leaves.mpr ⟨_, hwalk⟩, he⟩

/-- **The entries of a map** give the values of all keys. -/
theorem lookup_allEntries (h : z.Wf hasher) (hm : m.Valid z) (key : K) :
    (lookup (allEntries z m) key).getD m.defValue = value hasher z m key := by
  have hdistinct : (allEntries z m).Pairwise fun e e' => e.1 ≠ e'.1 :=
    (allEntries_sorted h hm).imp fun hlt heq => hlt.ne (congrArg (rank hasher) heq)
  have hsorted : (entriesAt z (locate z m.tree (hasher key))).Pairwise fun e e' => e.1 < e'.1 := by
    cases ht : locate z m.tree (hasher key) with
    | none => exact .nil
    | some t => exact (h.bucket t (locate_spec h hm ht).1).sorted
  unfold value
  congr 1
  ext v
  rw [lookup_eq_some hdistinct, lookup_eq_some (hsorted.imp ne_of_lt), mem_allEntries h hm]

end

end PersistentMap
