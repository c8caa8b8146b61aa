import Mathlib
import V8Speak.HashTrie
import V8Speak.KeyedSet
import V8Speak.PersistentMap

/-!
# Looking up and setting keys

The nodes of a map are a trie of the bits of hashes (`HashTrie`), with `child` the
child of a node at a level. `findHash` takes many steps at once where the hash of a
node is the one that is searched; it ends where the bits of the hash lead to
(`findHash_eq`). The path it has passed consists of the other children of all nodes
on the way (`findHashPath_eq`), so that a new node with this path is the old trie with
another focus.

A zone is well-formed (`Zone.Wf`) if the pointers of each node are to nodes whose
hashes branch off there, and each node has keys with its own hash only.
-/

open List Option

namespace PersistentMap

open HashTrie

variable {K V : Type} {hasher : K → HashValue} {z z' : Zone K V}
  {p q t u : Pointer} {hash keyHash : HashValue} {level n i j : ℕ}

/-! ## Bits -/

theorem bit_eq_kLeft : hash.bit i = .kLeft ↔ hash.getMsbD i = false := by
  unfold HashValue.bit
  cases hash.getMsbD i <;> decide

theorem bit_eq_kRight : hash.bit i = .kRight ↔ hash.getMsbD i = true := by
  unfold HashValue.bit
  cases hash.getMsbD i <;> decide

theorem bit_xor : (hash ^^^ keyHash).bit i = .kLeft ↔ hash.getMsbD i = keyHash.getMsbD i := by
  rw [bit_eq_kLeft, BitVec.getMsbD_xor]
  cases hash.getMsbD i <;> cases keyHash.getMsbD i <;> decide

theorem hash_eq_of_bits (h : ∀ i, i < 32 → hash.getMsbD i = keyHash.getMsbD i) :
    hash = keyHash := BitVec.eq_of_getMsbD_eq h

/-! ## The trie -/

/-- The bits of the hash of a node. -/
def bits (z : Zone K V) (p : Pointer) (i : ℕ) : Bool := (z.object p).keyHash.getMsbD i

/-- `GetChild`, for bits as truth values. -/
def child (z : Zone K V) (t : Pointer) (level : ℕ) (b : Bool) : Option Pointer :=
  getChild z t level (if b then .kRight else .kLeft)

theorem branch_eq (z : Zone K V) (t : Pointer) (level : ℕ) :
    branch z t level = (z.object t).pathAt level := by
  unfold branch
  split
  · rfl
  · next h =>
    rw [FocusedTree.pathAt, List.getElem?_eq_none (not_lt.mp h)]
    rfl

theorem child_eq (z : Zone K V) (t : Pointer) (level : ℕ) (b : Bool) :
    child z t level b = if bits z t level = b then some t else (z.object t).pathAt level := by
  have hiff : (z.object t).keyHash.bit level = (if b then .kRight else .kLeft) ↔
      bits z t level = b := by
    cases b with
    | false => exact bit_eq_kLeft
    | true => exact bit_eq_kRight
  have hget : child z t level b = if (z.object t).keyHash.bit level =
      (if b then .kRight else .kLeft) then some t else branch z t level := rfl
  rw [hget, branch_eq]
  by_cases h : bits z t level = b
  · rw [if_pos (hiff.mpr h), if_pos h]
  · rw [if_neg (mt hiff.mp h), if_neg h]

theorem child_same {b : Bool} (h : bits z t level = b) : child z t level b = some t := by
  rw [child_eq, if_pos h]

theorem child_branch {b : Bool} (h : bits z t level ≠ b) :
    child z t level b = (z.object t).pathAt level := by
  rw [child_eq, if_neg h]

/-- Where the bits of a hash lead to. -/
def locate (z : Zone K V) (tree : Option Pointer) (hash : HashValue) : Option Pointer :=
  tree.bind (walk (child z) hash.getMsbD kHashBits 0)

/-- While the bits are those of the node, they lead to the node itself; the first bit
that is not leads to where its path branches off. -/
theorem walk_of_firstDifference {f : ℕ → Bool} {k : ℕ} (hle : level ≤ k) (hk : k < level + n)
    (hagree : ∀ j < k, f j = bits z t j) (hdiff : f k ≠ bits z t k) :
    walk (child z) f n level t =
      ((z.object t).pathAt k).bind (walk (child z) f (level + n - k - 1) (k + 1)) := by
  have hstay : walk (child z) f (k - level) level t = some t :=
    walk_focused fun i hi hi' => child_same (hagree i (by omega)).symm
  rw [show n = k - level + (level + n - k - 1 + 1) by omega, walk_add, hstay, bind_some,
    show level + (k - level) = k by omega, walk, child_branch hdiff.symm]
  congr 2
  omega

theorem walk_same (h : ∀ j, level ≤ j → j < level + n → hash.getMsbD j = bits z t j) :
    walk (child z) hash.getMsbD n level t = some t :=
  walk_focused fun i hi hi' => child_same (h i hi hi').symm

/-- The other child, at level `i`, of the node that a hash passes there. -/
def offPath (z : Zone K V) (tree : Option Pointer) (hash : HashValue) (i : ℕ) : Option Pointer :=
  (tree.bind (walk (child z) hash.getMsbD i 0)).bind fun t => child z t i (!hash.getMsbD i)

/-- An array with the other children of the nodes at all levels. -/
def IsPath (z : Zone K V) (tree : Option Pointer) (hash : HashValue) (n : ℕ)
    (path : List (Option Pointer)) : Prop :=
  ∀ i < n, path[i]?.join = offPath z tree hash i

theorem copyPath_eq {k : ℕ} (hr : firstDifference hash (z.object t).keyHash n level = some k)
    (path : List (Option Pointer)) :
    level ≤ k ∧ copyPath z hash t n level path =
      some (k, path ++ (List.range' level (k - level)).map (z.object t).pathAt) := by
  induction n generalizing level path with
  | zero => exact nomatch hr
  | succ n ih =>
    rw [firstDifference] at hr
    rw [copyPath]
    split at hr
    · next heq =>
      obtain ⟨hle, hcopy⟩ := ih hr (path ++ [branch z t level])
      refine ⟨by omega, ?_⟩
      rw [if_pos heq, hcopy, branch_eq, show k - level = k - (level + 1) + 1 by omega,
        List.range'_succ, map_cons, append_assoc, singleton_append]
    · next hne =>
      obtain rfl := Option.some.inj hr
      rw [if_neg hne, Nat.sub_self]
      exact ⟨le_rfl, by simp⟩

variable {root : Option Pointer}

/-- A walk that goes on. -/
theorem bind_walk_add {f : ℕ → Bool} (hle : level ≤ i) : root.bind (walk (child z) f i 0) =
      (root.bind (walk (child z) f level 0)).bind (walk (child z) f (i - level) level) := by
  rw [bind_assoc]
  refine Option.bind_congr fun t _ => ?_
  rw [← Nat.add_sub_cancel' hle, walk_add, Nat.zero_add, Nat.add_sub_cancel' hle]

/-- While the bits are those of a node that is passed, it is passed again. -/
theorem bind_walk_same (hle : level ≤ i)
    (hpass : root.bind (walk (child z) hash.getMsbD level 0) = some t)
    (hagree : ∀ j, level ≤ j → j < i → hash.getMsbD j = bits z t j) :
    root.bind (walk (child z) hash.getMsbD i 0) = some t := by
  rw [bind_walk_add hle, hpass, bind_some]
  exact walk_same fun j hj hj' => hagree j hj (by omega)

/-- The levels at which the hash is that of a node `t`, and the first one after them. -/
theorem IsPath.append {path : List (Option Pointer)} {k : ℕ}
    (hpath : IsPath z root hash level path) (hlength : path.length = level) (hle : level ≤ k)
    (hpass : ∀ i, level ≤ i → i ≤ k → root.bind (walk (child z) hash.getMsbD i 0) = some t)
    (hagree : ∀ j < k, hash.getMsbD j = bits z t j) (hdiff : hash.getMsbD k ≠ bits z t k) :
    IsPath z root hash (k + 1)
      (path ++ (List.range' level (k - level)).map (z.object t).pathAt ++ [some t]) := by
  intro i hi
  have hlength' : (path ++ (List.range' level (k - level)).map (z.object t).pathAt).length = k := by
    rw [length_append, length_map, length_range']
    omega
  rcases lt_or_ge i level with hlt | hge
  · rw [List.getElem?_append_left (by omega), List.getElem?_append_left (by omega)]
    exact hpath i hlt
  rw [offPath, hpass i hge (by omega), bind_some]
  rcases Nat.lt_succ_iff_lt_or_eq.mp hi with hlt | rfl
  · rw [List.getElem?_append_left (by omega), List.getElem?_append_right (by omega),
      List.getElem?_map, List.getElem?_range' (by omega), map_some, join_some,
      child_branch (by rw [hagree i hlt]; exact Bool.self_ne_not _)]
    congr 1
    omega
  · rw [List.getElem?_append_right (by omega), hlength', Nat.sub_self,
      child_same (Bool.eq_not.mpr hdiff.symm)]
    rfl

/-! ## Growing zones -/

/-- Nodes are added, and none is changed. -/
structure Zone.Extends (z z' : Zone K V) : Prop where
  unused : z.unused ≤ z'.unused
  object : ∀ p < z.unused, z'.object p = z.object p

theorem Zone.Extends.refl (z : Zone K V) : z.Extends z := ⟨le_rfl, fun _ _ => rfl⟩

theorem Zone.Extends.trans {z'' : Zone K V} (h : z.Extends z') (h' : z'.Extends z'') :
    z.Extends z'' :=
  ⟨h.unused.trans h'.unused, fun p hp =>
    (h'.object p (hp.trans_le h.unused)).trans (h.object p hp)⟩

/-- A map of a zone. -/
def Valid (z : Zone K V) (m : PersistentMap V) : Prop := ∀ t ∈ m.tree, t < z.unused

variable {m m' : PersistentMap V}

theorem child_extends (hz : z.Extends z') (ht : t < z.unused) (b : Bool) :
    child z' t level b = child z t level b := by
  rw [child_eq, child_eq, bits, bits, hz.object t ht]

/-! ## Well-formed zones -/

/-- The entries of a node. -/
def FocusedTree.entries (tree : FocusedTree K V) : List (K × V) :=
  tree.more.getD [(tree.key, tree.value)]

/-- A node has keys with its hash, in order. -/
structure Bucket [LinearOrder K] (hasher : K → HashValue) (tree : FocusedTree K V) : Prop where
  ne_nil : tree.entries ≠ []
  hash : ∀ e ∈ tree.entries, hasher e.1 = tree.keyHash
  sorted : tree.entries.Pairwise fun e e' => e.1 < e'.1

/-- What holds of the nodes in memory. -/
structure Zone.Wf [LinearOrder K] (hasher : K → HashValue) (z : Zone K V) : Prop where
  length_le : ∀ p < z.unused, (z.object p).length ≤ kHashBits
  pathAt : ∀ p < z.unused, ∀ i q, (z.object p).pathAt i = some q →
    q < z.unused ∧ (∀ j < i, bits z q j = bits z p j) ∧ bits z q i ≠ bits z p i
  bucket : ∀ p < z.unused, Bucket hasher (z.object p)

section

variable [LinearOrder K] (h : z.Wf hasher)
include h

theorem child_spec (ht : t < z.unused) {b : Bool} (hu : child z t level b = some u) :
    u < z.unused ∧ (∀ j < level, bits z u j = bits z t j) ∧ bits z u level = b := by
  by_cases hb : bits z t level = b
  · rw [child_same hb] at hu
    obtain rfl := Option.some.inj hu
    exact ⟨ht, fun _ _ => rfl, hb⟩
  · rw [child_branch hb] at hu
    obtain ⟨hlt, hagree, hdiff⟩ := h.pathAt t ht level u hu
    exact ⟨hlt, hagree, (Bool.eq_not.mpr hdiff).trans (Bool.eq_not.mpr (Ne.symm hb)).symm⟩

theorem child_lt : ∀ t l b u, t < z.unused → child z t l b = some u →
    u < z.unused := fun _ _ _ _ ht hu => (child_spec h ht hu).1

/-- The node that bits lead to has these bits. -/
theorem walk_bits (ht : t < z.unused) {f : ℕ → Bool} (hu : walk (child z) f n level t = some u) :
    u < z.unused ∧ (∀ j < level, bits z u j = bits z t j) ∧
      ∀ j, level ≤ j → j < level + n → bits z u j = f j := by
  induction n generalizing level t with
  | zero =>
    obtain rfl := Option.some.inj hu
    exact ⟨ht, fun _ _ => rfl, fun j hj hj' => by omega⟩
  | succ n ih =>
    obtain ⟨v, hv, hu⟩ := bind_eq_some_iff.mp hu
    obtain ⟨hlt, hagree, hbit⟩ := child_spec h ht hv
    obtain ⟨hu_lt, hu_agree, hu_bits⟩ := ih hlt hu
    refine ⟨hu_lt, fun j hj => (hu_agree j (by omega)).trans (hagree j hj), fun j hj hj' => ?_⟩
    rcases Nat.eq_or_lt_of_le hj with rfl | hlt
    · exact (hu_agree level (by omega)).trans hbit
    · exact hu_bits j (by omega) (by omega)

/-! ## Searching -/

omit h in
theorem firstDifference_spec (hn : level + n = 32) (hne : hash ≠ keyHash)
    (hagree : ∀ j < level, hash.getMsbD j = keyHash.getMsbD j) :
    ∃ k, firstDifference hash keyHash n level = some k ∧ level ≤ k ∧ k < 32 ∧
      (∀ j < k, hash.getMsbD j = keyHash.getMsbD j) ∧ hash.getMsbD k ≠ keyHash.getMsbD k := by
  induction n generalizing level with
  | zero => exact absurd (hash_eq_of_bits fun i hi => hagree i (by omega)) hne
  | succ n ih =>
    unfold firstDifference
    split
    · next heq =>
      rw [bit_xor] at heq
      obtain ⟨k, hr, hle, hlt, hagree', hdiff⟩ := ih (show level + 1 + n = 32 by omega) fun j hj => by
        rcases Nat.lt_succ_iff_lt_or_eq.mp hj with hj | rfl
        · exact hagree j hj
        · exact heq
      exact ⟨k, hr, by omega, hlt, hagree', hdiff⟩
    · next hdiff =>
      rw [bit_xor] at hdiff
      exact ⟨level, rfl, le_rfl, by omega, hagree, hdiff⟩

theorem findHashLoop_eq {tree : Option Pointer} (hlevel : level ≤ 32) (hn : 33 ≤ n + level)
    (htree : ∀ t ∈ tree, t < z.unused ∧ ∀ j < level, hash.getMsbD j = bits z t j) :
    findHashLoop z hash n tree level =
      some (tree.bind (walk (child z) hash.getMsbD (32 - level) level)) := by
  induction n generalizing tree level with
  | zero => omega
  | succ n ih =>
    cases tree with
    | none => rfl
    | some t =>
      obtain ⟨ht, hagree⟩ := htree t rfl
      rw [findHashLoop]
      split
      · next hne =>
        obtain ⟨k, hr, hle, hk, hagree', hdiff⟩ := firstDifference_spec
          (n := kHashBits - level) (show level + (32 - level) = 32 by omega) hne hagree
        rw [hr, Option.bind_eq_bind, Option.bind_some, branch_eq, ih (by omega) (by omega),
          bind_some,
          walk_of_firstDifference hle (by omega) hagree' hdiff,
          show level + (32 - level) - k - 1 = 32 - (k + 1) by omega]
        intro u hu
        obtain ⟨hlt, hu_agree, hu_diff⟩ := h.pathAt t ht k u hu
        refine ⟨hlt, fun j hj => ?_⟩
        rcases Nat.lt_succ_iff_lt_or_eq.mp hj with hj | rfl
        · exact (hagree' j hj).trans (hu_agree j hj).symm
        · exact (Bool.eq_not.mpr hdiff).trans (Bool.eq_not.mpr hu_diff).symm
      · next heq =>
        rw [not_not] at heq
        rw [bind_some, walk_same fun j _ _ => by rw [heq]; rfl]

/-- **`FindHash`** ends where the bits lead to. -/
theorem findHash_eq {m : PersistentMap V} (hm : ∀ t ∈ m.tree, t < z.unused) :
    findHash z m hash = some (locate z m.tree hash) :=
  findHashLoop_eq h (Nat.zero_le _) le_rfl fun t ht => ⟨hm t ht, fun _ hj => by omega⟩

/-- The path of a search, level by level. -/
theorem findHashPathLoop_eq {root tree : Option Pointer} (hlevel : level ≤ 32)
    (hn : 33 ≤ n + level) (htree : tree = root.bind (walk (child z) hash.getMsbD level 0))
    (hroot : ∀ t ∈ root, t < z.unused) {path : List (Option Pointer)}
    (hlength : path.length = level) (hpath : IsPath z root hash level path) :
    ∃ path', findHashPathLoop z hash n tree level path = some (locate z root hash, path') ∧
      path'.length ≤ 32 ∧ IsPath z root hash 32 path' := by
  induction n generalizing tree level path with
  | zero => omega
  | succ n ih =>
    cases tree with
    | none =>
      have hnone : ∀ i, level ≤ i → root.bind (walk (child z) hash.getMsbD i 0) = none :=
          fun i hi => by
        rw [bind_walk_add hi, ← htree, bind_none]
      refine ⟨path, ?_, by omega, fun i hi => ?_⟩
      · rw [findHashPathLoop, locate, show kHashBits = 32 from rfl, hnone 32 hlevel]
      · rcases lt_or_ge i level with hlt | hge
        · exact hpath i hlt
        · rw [List.getElem?_eq_none (by omega), offPath, hnone i hge]
          rfl
    | some t =>
      have hbits : t < z.unused ∧ ∀ j < level, hash.getMsbD j = bits z t j := by
        obtain ⟨r, hr, hwalk⟩ := bind_eq_some_iff.mp htree.symm
        obtain ⟨hlt, -, hagree⟩ := walk_bits h (hroot r hr) hwalk
        exact ⟨hlt, fun j hj => (hagree j (Nat.zero_le j) (by omega)).symm⟩
      rw [findHashPathLoop]
      split
      · next hne =>
        obtain ⟨k, hr, hle, hk, hagree, hdiff⟩ := firstDifference_spec
          (n := kHashBits - level) (show level + (32 - level) = 32 by omega) hne hbits.2
        have hpass : ∀ i, level ≤ i → i ≤ k →
            root.bind (walk (child z) hash.getMsbD i 0) = some t := fun i hi hi' =>
          bind_walk_same hi htree.symm fun j _ hj => hagree j (by omega)
        rw [(copyPath_eq hr path).2, Option.bind_eq_bind, Option.bind_some]
        dsimp only
        rw [branch_eq]
        refine ih (by omega) (by omega) ?_ ?_ ?_
        · rw [bind_walk_add (Nat.le_succ k), hpass k hle le_rfl, bind_some,
            Nat.succ_sub le_rfl, Nat.sub_self, walk, child_branch (Ne.symm hdiff)]
          exact (bind_fun_some _).symm
        · rw [length_append, length_append, length_map, length_range',
            length_singleton]
          omega
        · exact hpath.append hlength hle hpass hagree hdiff
      · next heq =>
        rw [not_not] at heq
        have hpass : ∀ i, level ≤ i →
            root.bind (walk (child z) hash.getMsbD i 0) = some t := fun i hi =>
          bind_walk_same hi htree.symm fun j _ _ => by rw [heq]; rfl
        refine ⟨path ++ (z.object t).path.drop level, ?_, ?_, fun i hi => ?_⟩
        · rw [locate, show kHashBits = 32 from rfl, hpass 32 hlevel]
        · have hle : (z.object t).path.length ≤ 32 := h.length_le t hbits.1
          rw [length_append, length_drop]
          omega
        · rcases lt_or_ge i level with hlt | hge
          · rw [List.getElem?_append_left (by omega)]
            exact hpath i hlt
          · rw [List.getElem?_append_right (by omega), List.getElem?_drop,
              show level + (i - path.length) = i by omega, offPath, hpass i hge, bind_some,
              child_branch (by rw [heq]; exact Bool.self_ne_not _)]
            rfl

/-- **The path of a search** has the other children of all nodes on the way. -/
theorem findHashPath_eq {m : PersistentMap V} (hm : ∀ t ∈ m.tree, t < z.unused) (hash : HashValue) :
    ∃ path, findHashPath z m hash = some (locate z m.tree hash, path) ∧ path.length ≤ 32 ∧
      IsPath z m.tree hash 32 path := by
  refine findHashPathLoop_eq h (Nat.zero_le _) le_rfl ?_ hm rfl fun i hi => by omega
  cases m.tree <;> rfl

/-! ## Values -/

omit h in
/-- The value of a key in a list of entries. -/
def lookup (l : List (K × V)) (key : K) : Option V := (ZoneMap.find l key).map Prod.snd

variable {l : List (K × V)}

omit h in
theorem lookup_eq_some (hl : l.Pairwise fun e e' => e.1 ≠ e'.1) {key : K}
    {value : V} : lookup l key = some value ↔ (key, value) ∈ l := by
  unfold lookup ZoneMap.find
  rw [map_eq_some_iff]
  constructor
  · rintro ⟨e, he, rfl⟩
    have hkey := List.find?_some he
    rw [decide_eq_true_iff] at hkey
    exact hkey ▸ List.mem_of_find?_eq_some he
  · intro hmem
    cases hfind : l.find? fun e => e.1 = key with
    | none => exact absurd (decide_eq_true rfl) (List.find?_eq_none.mp hfind _ hmem)
    | some e =>
      have hkey := List.find?_some hfind
      rw [decide_eq_true_iff] at hkey
      have hnodup : (l.map Prod.fst).Nodup := List.pairwise_map.mpr hl
      have heq := inj_on_of_nodup_map hnodup (List.mem_of_find?_eq_some hfind) hmem hkey
      exact ⟨e, rfl, by rw [heq]⟩

omit h in
theorem emplace_erase_eq (l : List (K × V)) (key : K) (value : V) :
    ZoneMap.emplace (ZoneMap.erase l key) key value =
      (ZoneMap.erase l key).orderedInsert (fun e e' => e.1 ≤ e'.1) (key, value) := by
  refine if_neg fun hany => ?_
  obtain ⟨e, he, hkey⟩ := List.any_eq_true.mp hany
  have := (List.mem_filter.mp he).2
  rw [decide_eq_true_iff] at this hkey
  exact this hkey

omit h in
theorem mem_emplace_erase {key : K} {value : V} {e : K × V} :
    e ∈ ZoneMap.emplace (ZoneMap.erase l key) key value ↔ e = (key, value) ∨ e ∈ l ∧ e.1 ≠ key := by
  rw [emplace_erase_eq, mem_orderedInsert, ZoneMap.erase, mem_filter, decide_eq_true_iff]

omit h in
theorem sorted_emplace_erase (hl : l.Pairwise fun e e' => e.1 < e'.1) (key : K) (value : V) :
    (ZoneMap.emplace (ZoneMap.erase l key) key value).Pairwise fun e e' => e.1 < e'.1 := by
  have hsorted : KeyedSet.Sorted Prod.fst (ZoneMap.erase l key) := hl.filter _
  rw [emplace_erase_eq]
  refine hsorted.orderedInsert fun e he => ?_
  have := (List.mem_filter.mp he).2
  rwa [decide_eq_true_iff] at this

omit h in
theorem lookup_emplace_erase (hl : l.Pairwise fun e e' => e.1 < e'.1) (key k : K) (value : V) :
    lookup (ZoneMap.emplace (ZoneMap.erase l key) key value) k =
      if k = key then some value else lookup l k := by
  ext v
  rw [lookup_eq_some ((sorted_emplace_erase hl key value).imp ne_of_lt), mem_emplace_erase]
  split
  · next hk =>
    subst hk
    simp [eq_comm]
  · next hk =>
    rw [lookup_eq_some (hl.imp ne_of_lt)]
    simp [hk]

omit h in
/-- The entries of the node for a hash, if there is one. -/
def entriesAt (z : Zone K V) (tree : Option Pointer) : List (K × V) :=
  tree.elim [] fun t => (z.object t).entries

omit h in
theorem getFocusedValue_eq (m : PersistentMap V) (tree : Option Pointer) (key : K) :
    getFocusedValue z m tree key = (lookup (entriesAt z tree) key).getD m.defValue := by
  cases tree with
  | none => rfl
  | some t =>
    unfold getFocusedValue lookup entriesAt FocusedTree.entries
    dsimp only [elim_some]
    cases (z.object t).more with
    | some more =>
      dsimp only [getD_some]
      cases ZoneMap.find more key <;> rfl
    | none =>
      rw [getD_none, ZoneMap.find, List.find?_singleton]
      by_cases hkey : key = (z.object t).key
      · simp [hkey]
      · simp [hkey, Ne.symm hkey]

omit h in
theorem entries_newMore (old : Option Pointer) (key : K) (newValue : V) (hash : HashValue)
    (path : List (Option Pointer)) :
    FocusedTree.entries ⟨key, newValue, hash, newMore z old key newValue, path⟩ =
      ZoneMap.emplace (ZoneMap.erase (entriesAt z old) key) key newValue := by
  cases old with
  | none => rfl
  | some t =>
    unfold newMore FocusedTree.entries entriesAt FocusedTree.entries
    dsimp only [elim_some]
    cases hmore : (z.object t).more with
    | some more => rfl
    | none =>
      by_cases hkey : (z.object t).key = key
      · rw [if_pos ⟨rfl, hkey⟩, getD_none, getD_none, hkey, emplace_erase_eq,
          ZoneMap.erase, filter_singleton]
        simp
      · rw [if_neg fun h => hkey h.2]
        rfl

omit h in
theorem bucket_newMore {old : Option Pointer} {key : K}
    (hold : ∀ t ∈ old, Bucket hasher (z.object t) ∧ (z.object t).keyHash = hasher key)
    (newValue : V) (path : List (Option Pointer)) :
    Bucket hasher ⟨key, newValue, hasher key, newMore z old key newValue, path⟩ := by
  have hentries := entries_newMore (z := z) old key newValue (hasher key) path
  have hsorted : (entriesAt z old).Pairwise fun e e' => e.1 < e'.1 := by
    cases old with
    | none => exact .nil
    | some t => exact (hold t rfl).1.sorted
  refine ⟨?_, fun e he => ?_, ?_⟩
  · rw [hentries, emplace_erase_eq]
    exact ne_nil_of_mem (mem_orderedInsert _ |>.mpr (.inl rfl))
  · rw [hentries, mem_emplace_erase] at he
    rcases he with rfl | ⟨he, -⟩
    · rfl
    · cases old with
      | none => exact nomatch he
      | some t => exact ((hold t rfl).1.hash e he).trans (hold t rfl).2
  · rw [hentries]
    exact sorted_emplace_erase hsorted key newValue

/-! ## Versions -/

theorem bind_walk_extends (hz : z.Extends z') (hm : m.Valid z) (f : ℕ → Bool) :
    m.tree.bind (walk (child z') f n 0) = m.tree.bind (walk (child z) f n 0) :=
  Option.bind_congr fun t ht =>
    walk_extend (child_lt h) (fun _ _ b ht => child_extends hz ht b) (hm t ht)

theorem locate_extends (hz : z.Extends z') (hm : m.Valid z) (hash : HashValue) :
    locate z' m.tree hash = locate z m.tree hash := bind_walk_extends h hz hm _

/-- The node for a hash has this hash. -/
theorem locate_spec (hm : m.Valid z) (ht : locate z m.tree hash = some t) :
    t < z.unused ∧ (z.object t).keyHash = hash := by
  obtain ⟨r, hr, hwalk⟩ := bind_eq_some_iff.mp ht
  obtain ⟨hlt, -, hbits⟩ := walk_bits h (hm r hr) hwalk
  exact ⟨hlt, hash_eq_of_bits fun i hi => hbits i (Nat.zero_le i) (by rw [Nat.zero_add]; exact hi)⟩

theorem offPath_spec (hm : m.Valid z) (hq : offPath z m.tree hash i = some q) :
    q < z.unused ∧ (∀ j < i, bits z q j = hash.getMsbD j) ∧ bits z q i = !hash.getMsbD i := by
  obtain ⟨t, ht, hq⟩ := bind_eq_some_iff.mp hq
  obtain ⟨r, hr, hwalk⟩ := bind_eq_some_iff.mp ht
  obtain ⟨hlt, -, hbits⟩ := walk_bits h (hm r hr) hwalk
  obtain ⟨hq_lt, hq_bits, hq_bit⟩ := child_spec h hlt hq
  exact ⟨hq_lt, fun j hj => (hq_bits j hj).trans (hbits j (Nat.zero_le j) (by omega)), hq_bit⟩

omit h in
/-- The value of a key. -/
def value (hasher : K → HashValue) (z : Zone K V) (m : PersistentMap V) (key : K) : V :=
  (lookup (entriesAt z (locate z m.tree (hasher key))) key).getD m.defValue

/-- **`Get`** is defined, and looks at the node for the hash of the key. -/
theorem get_eq (hm : m.Valid z) (key : K) : get hasher z m key = some (value hasher z m key) := by
  rw [get, findHash_eq h hm, Option.bind_eq_bind, Option.bind_some, getFocusedValue_eq]
  rfl

theorem entriesAt_extends (hz : z.Extends z') (hm : m.Valid z) (hash : HashValue) :
    entriesAt z' (locate z m.tree hash) = entriesAt z (locate z m.tree hash) := by
  cases ht : locate z m.tree hash with
  | none => rfl
  | some t =>
    rw [entriesAt, entriesAt, elim_some, elim_some, hz.object t (locate_spec h hm ht).1]

/-- **Older versions are unchanged.** -/
theorem value_extends (hz : z.Extends z') (hm : m.Valid z) (key : K) :
    value hasher z' m key = value hasher z m key := by
  rw [value, value, locate_extends h hz hm, entriesAt_extends h hz hm]

/-! ## Setting -/

/-- A new node focused on a hash, with the path of the search for it. -/
theorem new_spec (hm : m.Valid z) {tree : FocusedTree K V}
    (hlength : tree.path.length ≤ 32) (hpath : IsPath z m.tree tree.keyHash 32 tree.path)
    (hbucket : Bucket hasher tree) :
    (z.new tree).2.Wf hasher ∧ z.Extends (z.new tree).2 ∧
      ∀ hash, locate (z.new tree).2 (some z.unused) hash =
        if hash = tree.keyHash then some z.unused else locate z m.tree hash := by
  have hself : (z.new tree).2.object z.unused = tree := Function.update_self ..
  have hother : ∀ p < z.unused, (z.new tree).2.object p = z.object p := fun p hp =>
    Function.update_of_ne hp.ne ..
  have hz : z.Extends (z.new tree).2 := ⟨Nat.le_succ _, hother⟩
  have hunused : ∀ p, p < (z.new tree).2.unused ↔ p < z.unused ∨ p = z.unused := fun p =>
    Nat.lt_succ_iff_lt_or_eq
  generalize (z.new tree).2 = z' at hself hother hz hunused ⊢
  have hbits : ∀ q < z.unused, ∀ j, bits z' q j = bits z q j := fun q hq j => by
    rw [bits, bits, hother q hq]
  have hbits_self : ∀ j, bits z' z.unused j = tree.keyHash.getMsbD j := fun j => by
    rw [bits, hself]
  have hpathAt : ∀ i < 32, (z'.object z.unused).pathAt i = offPath z m.tree tree.keyHash i :=
    fun i hi => by
      rw [hself]
      exact hpath i hi
  refine ⟨⟨fun p hp => ?_, fun p hp i q hq => ?_, fun p hp => ?_⟩, hz, fun hash => ?_⟩
  · rcases (hunused p).mp hp with hp | rfl
    · rw [hother p hp]
      exact h.length_le p hp
    · rwa [hself]
  · rcases (hunused p).mp hp with hp | rfl
    · rw [hother p hp] at hq
      obtain ⟨hlt, hagree, hdiff⟩ := h.pathAt p hp i q hq
      refine ⟨(hunused q).mpr (.inl hlt), fun j hj => ?_, ?_⟩
      · rw [hbits q hlt, hbits p hp]
        exact hagree j hj
      · rwa [hbits q hlt, hbits p hp]
    · have hi : i < 32 := by
        by_contra hge
        rw [hself, FocusedTree.pathAt, List.getElem?_eq_none (by omega)] at hq
        exact nomatch hq
      rw [hpathAt i hi] at hq
      obtain ⟨hlt, hagree, hdiff⟩ := offPath_spec h hm hq
      refine ⟨(hunused q).mpr (.inl hlt), fun j hj => ?_, ?_⟩
      · rw [hbits q hlt, hbits_self]
        exact hagree j hj
      · rw [hbits q hlt, hbits_self, hdiff]
        exact (Bool.self_ne_not _).symm
  · rcases (hunused p).mp hp with hp | rfl
    · rw [hother p hp]
      exact h.bucket p hp
    · rwa [hself]
  · -- the old trie, with another focus
    rw [locate, bind_some]
    by_cases heq : hash = tree.keyHash
    · rw [if_pos heq]
      exact walk_same fun j _ _ => by rw [heq, hbits_self]
    · have hne : ∃ i, i < kHashBits ∧ hash.getMsbD i ≠ tree.keyHash.getMsbD i := by
        by_contra hall
        exact heq (hash_eq_of_bits fun i hi => by_contra fun hdiff => hall ⟨i, hi, hdiff⟩)
      rw [if_neg heq, ← locate_extends h hz hm]
      refine walk_refocus (fun i _ => child_same (hbits_self i)) (fun i hi => ?_) hne
      rw [child_branch (by rw [hbits_self]; exact Bool.self_ne_not _), hpathAt i hi, offPath,
        bind_walk_extends h hz hm]
      refine Option.bind_congr fun t ht => ?_
      obtain ⟨r, hr, hwalk⟩ := bind_eq_some_iff.mp ht
      exact (child_extends hz (walk_bits h (hm r hr) hwalk).1 _).symm

/-- **`Modify`** changes the value of the key, and nothing else. A node it makes is new. -/
theorem modify_spec (hm : m.Valid z) {mayBeUnequal : V → V → Bool}
    (hequal : ∀ a b, mayBeUnequal a b = false → a = b) (key : K) (f : V → V) :
    ∃ m' z', modify hasher mayBeUnequal z m key f = some (m', z') ∧ z'.Wf hasher ∧
      z.Extends z' ∧ m'.Valid z' ∧ m'.defValue = m.defValue ∧
      (m' = m ∨ m'.tree = some z.unused) ∧
      ∀ k, value hasher z' m' k = if k = key then f (value hasher z m key) else value hasher z m k := by
  obtain ⟨path, hr, hlength, hpath⟩ := findHashPath_eq h hm (hasher key)
  unfold modify
  simp only [hr, getFocusedValue_eq, Option.bind_eq_bind, Option.bind_some]
  split
  · next hsame =>
    refine ⟨m, z, rfl, h, .refl z, hm, rfl, .inl rfl, fun k => ?_⟩
    split
    · next hk =>
      subst hk
      exact hequal _ _ hsame
    · rfl
  · generalize hnew : f ((lookup (entriesAt z (locate z m.tree (hasher key))) key).getD m.defValue) =
      newValue
    have hold : ∀ t ∈ locate z m.tree (hasher key),
        Bucket hasher (z.object t) ∧ (z.object t).keyHash = hasher key := fun t ht =>
      ⟨h.bucket t (locate_spec h hm ht).1, (locate_spec h hm ht).2⟩
    obtain ⟨hwf, hz, hlocate⟩ := new_spec h hm hlength hpath (bucket_newMore hold newValue path)
    have hentries := entries_newMore (z := z) (locate z m.tree (hasher key)) key newValue
      (hasher key) path
    generalize hnode : (⟨key, newValue, hasher key, newMore z (locate z m.tree (hasher key)) key
      newValue, path⟩ : FocusedTree K V) = node at hwf hz hlocate hentries ⊢
    have hhash : node.keyHash = hasher key := by rw [← hnode]
    refine ⟨⟨some z.unused, m.defValue⟩, (z.new node).2, rfl, hwf, hz, fun t ht => ?_, rfl,
      .inr rfl, fun k => ?_⟩
    · rw [← Option.some.inj ht]
      exact Nat.lt_succ_self _
    · unfold value
      rw [hlocate, hhash]
      by_cases hk : hasher k = hasher key
      · -- a key of the new node
        have hself : (z.new node).2.object z.unused = node := Function.update_self ..
        have hsorted : (entriesAt z (locate z m.tree (hasher key))).Pairwise
            fun e e' => e.1 < e'.1 := by
          cases ht : locate z m.tree (hasher key) with
          | none => exact .nil
          | some t => exact (hold t ht).1.sorted
        rw [if_pos hk, entriesAt, elim_some, hself, hentries, lookup_emplace_erase hsorted, hk]
        split
        · exact hnew.symm
        · rfl
      · rw [if_neg hk, if_neg fun heq => hk (congrArg hasher heq), entriesAt_extends h hz hm]

end

end PersistentMap
