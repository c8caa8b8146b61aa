import V8Speak.PersistentMapEquality

/-!
# What a loop over a map produces

The comment on the iterator promises the entries whose values are not the default
value, and no others. `begin` keeps that promise: it skips what has the default value
until it finds something else. `operator++` looks at the value only after it has gone to
another node. Within a node, where keys collide, it returns the next entry whatever its
value is – and if the first entry of a node was skipped, the second one too.

So a loop over a map produces all entries from the first one that is not default on,
except those with the default value that are the first ones of their nodes
(`visited`). The order is right, and no value that is not the default value is missing.
An entry that was reset to the default value is produced exactly if it is behind another
key with the same hash and `begin` has not passed it (`NoneLingers`).
-/

open List hiding get iterate

namespace PersistentMap

variable {K V : Type} [DecidableEq V]

/-- The loop `for (auto pair : map)`, from an iterator on. -/
def iterateLoop (z : Zone K V) : ℕ → Iterator K V → Option (List (K × V))
  | 0, _ => none
  | fuel + 1, i =>
    if i.isEnd then some []
    else do
      let e ← i.deref z
      let rest ← iterateLoop z fuel (← i.next z fuel)
      some (e :: rest)

/-- What a loop from `begin()` to `end()` produces. -/
def iterate (z : Zone K V) (fuel : ℕ) (uninitialized : ℕ → Option Pointer) (m : PersistentMap V) :
    Option (List (K × V)) := do
  iterateLoop z fuel (← begin z fuel uninitialized m)

variable {hasher : K → HashValue} {z : Zone K V} {i : Iterator K V} {d : V} {hash : HashValue}
  {e : K × V} {l : List (K × V)}

/-! ## From one entry to the next -/

/-- The entries that are produced after an entry with a hash. -/
def visited (hasher : K → HashValue) (d : V) : HashValue → List (K × V) → List (K × V)
  | _, [] => []
  | hash, e :: l =>
    if hasher e.1 ≠ hash ∧ e.2 = d then visited hasher d (hasher e.1) l
    else e :: visited hasher d (hasher e.1) l

theorem visited_eq (hasher : K → HashValue) (d : V) (hash : HashValue) (l : List (K × V)) :
    visited hasher d hash l = match unvisited hasher d hash l with
      | [] => []
      | e :: l => e :: visited hasher d (hasher e.1) l := by
  induction l generalizing hash with
  | nil => rfl
  | cons e l ih =>
    rw [visited, unvisited]
    split
    · exact ih _
    · rfl

theorem visited_sublist (hasher : K → HashValue) (d : V) (hash : HashValue) (l : List (K × V)) :
    (visited hasher d hash l).Sublist l := by
  induction l generalizing hash with
  | nil => exact .slnil
  | cons e l ih =>
    rw [visited]
    split
    · exact (ih _).cons e
    · exact (ih _).cons_cons e

/-- What is not default is produced. -/
theorem mem_visited (he : e.2 ≠ d) : e ∈ visited hasher d hash l ↔ e ∈ l := by
  refine ⟨fun hmem => (visited_sublist hasher d hash l).subset hmem, fun hmem => ?_⟩
  induction l generalizing hash with
  | nil => exact hmem
  | cons e' l ih =>
    rw [visited]
    rcases mem_cons.mp hmem with rfl | hmem
    · rw [if_neg fun hskip => he hskip.2]
      exact mem_cons_self
    · split
      · exact ih hmem
      · exact mem_cons_of_mem _ (ih hmem)

/-- **What has the default value** is produced right after an entry with the same hash. -/
theorem visited_ne_iff : (∀ e' ∈ visited hasher d (hasher e.1) l, e'.2 ≠ d) ↔
    (e :: l).IsChain fun a b => hasher a.1 = hasher b.1 → b.2 ≠ d := by
  induction l generalizing e with
  | nil => exact iff_of_true nofun (.singleton e)
  | cons b l ih =>
    rw [isChain_cons_cons, ← ih, visited]
    split
    · next hskip => exact (and_iff_right fun heq => absurd heq.symm hskip.1).symm
    · next hkeep =>
      rw [forall_mem_cons]
      refine and_congr_left fun _ => ⟨fun hne _ => hne, fun himp hb => ?_⟩
      exact hkeep ⟨fun heq => himp heq.symm hb, hb⟩

variable [LinearOrder K]

theorem iterateLoop_spec (h : z.Wf hasher) (hi : i.At hasher z (unvisited hasher d hash l))
    (hd : i.defValue = d) {fuel : ℕ} (hfuel : l.length < fuel) :
    iterateLoop z fuel i = some (visited hasher d hash l) := by
  induction fuel generalizing i hash l with
  | zero => omega
  | succ fuel ih =>
    have hle := (unvisited_skips hasher d hash l).length_le
    rw [iterateLoop, visited_eq]
    generalize unvisited hasher d hash l = l' at hi hle ⊢
    cases l' with
    | nil => exact if_pos (hi.isEnd.mpr rfl)
    | cons e l' =>
      rw [length_cons] at hle
      obtain ⟨i', hnext, hdef, hat⟩ := Iterator.next_spec h hi (show l'.length < fuel by omega)
      rw [hd] at hat hdef
      rw [if_neg fun hend => cons_ne_nil _ _ (hi.isEnd.mp hend), hi.deref,
        Option.bind_eq_bind, Option.bind_some, hnext, Option.bind_eq_bind, Option.bind_some,
        ih hat hdef (by omega)]
      rfl

/-! ## All entries -/

/-- No entry with the default value comes directly after one with the same hash, from
the first entry that has another value on. -/
def NoneLingers (hasher : K → HashValue) (z : Zone K V) (m : PersistentMap V) : Prop :=
  ((allEntries z m).dropWhile fun e => e.2 = m.defValue).IsChain fun e e' =>
    hasher e.1 = hasher e'.1 → e'.2 ≠ m.defValue

theorem iterate_spec (h : z.Wf hasher) {m : PersistentMap V} (hm : m.Valid z)
    (uninitialized : ℕ → Option Pointer) :
    ∃ l, (∀ fuel > (allEntries z m).length, iterate z fuel uninitialized m = some l) ∧
      l.Sublist (allEntries z m) ∧
      (∀ e, e.2 ≠ m.defValue → (e ∈ l ↔ e ∈ allEntries z m)) ∧
      ((∀ e ∈ l, e.2 ≠ m.defValue) ↔ NoneLingers hasher z m) := by
  have hskips := skips_dropWhile m.defValue (allEntries z m)
  have hrun : ∀ fuel > (allEntries z m).length, ∃ i, i.defValue = m.defValue ∧
      i.At hasher z ((allEntries z m).dropWhile fun e => e.2 = m.defValue) ∧
      iterate z fuel uninitialized m = iterateLoop z fuel i := fun fuel hfuel => by
    obtain ⟨i, hbegin, hdef, hat⟩ := begin_spec h hm hfuel uninitialized
    exact ⟨i, hdef, hat, by rw [iterate, hbegin, Option.bind_eq_bind, Option.bind_some]⟩
  have hmem : ∀ e, e.2 ≠ m.defValue →
      (e ∈ (allEntries z m).dropWhile (fun e => e.2 = m.defValue) ↔ e ∈ allEntries z m) := by
    intro e he
    obtain ⟨skipped, heq, hskipped⟩ := hskips
    nth_rewrite 2 [heq]
    rw [mem_append, or_iff_right fun hmem => he (hskipped e hmem)]
  have hle := hskips.length_le
  have hsublist := hskips.sublist
  unfold NoneLingers
  cases hfirst : (allEntries z m).dropWhile fun e => e.2 = m.defValue with
  | nil =>
    rw [hfirst] at hmem hrun
    refine ⟨[], fun fuel hfuel => ?_, nil_sublist _, hmem, iff_of_true nofun .nil⟩
    obtain ⟨i, hdef, hat, hiterate⟩ := hrun fuel hfuel
    have hloop : _ = some (visited hasher m.defValue 0 []) := iterateLoop_spec h hat hdef hfuel.pos
    exact hiterate.trans hloop
  | cons e l =>
    rw [hfirst] at hmem hrun hle hsublist
    -- the first entry is not skipped, and is not default
    have he : e.2 ≠ m.defValue := fun hdefault => by
      have hhead := head?_dropWhile_not (fun e : K × V => decide (e.2 = m.defValue))
        (allEntries z m)
      rw [hfirst] at hhead
      simp [hdefault] at hhead
    have hunvisited : unvisited hasher m.defValue (hasher e.1) (e :: l) = e :: l :=
      if_neg fun hskip => hskip.1 rfl
    have hvisited : visited hasher m.defValue (hasher e.1) (e :: l) =
        e :: visited hasher m.defValue (hasher e.1) l := if_neg fun hskip => hskip.1 rfl
    refine ⟨visited hasher m.defValue (hasher e.1) (e :: l), fun fuel hfuel => ?_,
      (visited_sublist _ _ _ _).trans hsublist, fun e' he' => (mem_visited he').trans (hmem e' he'),
      ?_⟩
    · obtain ⟨i, hdef, hat, hiterate⟩ := hrun fuel hfuel
      rw [← hunvisited] at hat
      exact hiterate.trans (iterateLoop_spec h hat hdef (by omega))
    · rw [hvisited, forall_mem_cons, and_iff_right he]
      exact visited_ne_iff

/-- **A loop over a map**, for the maps of any program. It ends, and produces each key
whose value is not the default value once, in order. It produces no other entry exactly if
none lingers. -/
theorem iterate_exact_iff (hasher : K → HashValue) (mayBeUnequal : V → V → Bool)
    (hequal : ∀ a b, mayBeUnequal a b = false → a = b) (object : Pointer → FocusedTree K V)
    (ops : List (Op K V)) :
    ∃ s, run hasher mayBeUnequal ⟨⟨object, 0⟩, []⟩ ops = some s ∧
      ∀ m ∈ s.maps, ∀ uninitialized : ℕ → Option Pointer, ∃ l,
        (∃ bound, ∀ fuel > bound, iterate s.zone fuel uninitialized m = some l) ∧
        Sorted hasher l ∧
        (∀ key value, value ≠ m.defValue →
          ((key, value) ∈ l ↔ get hasher s.zone m key = some value)) ∧
        ((∀ e ∈ l, e.2 ≠ m.defValue) ↔ NoneLingers hasher s.zone m) := by
  obtain ⟨s, hrun, -, h⟩ := (Refines.start object).run hequal ops
  refine ⟨s, hrun, fun m hm uninitialized => ?_⟩
  have hsorted := allEntries_sorted h.wf (h.valid m hm)
  obtain ⟨l, hiterate, hsublist, hmem, hdefault⟩ :=
    iterate_spec h.wf (h.valid m hm) uninitialized
  refine ⟨l, ⟨_, hiterate⟩, hsorted.sublist hsublist, fun key value hvalue => ?_, hdefault⟩
  have hdistinct : (allEntries s.zone m).Pairwise fun e e' => e.1 ≠ e'.1 :=
    hsorted.imp fun hlt heq => hlt.ne (congrArg (rank hasher) heq)
  rw [hmem _ hvalue, ← lookup_eq_some hdistinct, h.get hm, ← lookup_allEntries h.wf (h.valid m hm),
    Option.some_inj, Option.getD_eq_iff, or_iff_left fun hnone => hvalue hnone.2.symm]

theorem iterate_exact_iff_collision : ∃ s,
    run (fun _ : ℕ => 0) (fun a b : ℕ => a ≠ b) ⟨⟨fun _ => ⟨0, 0, 0, none, []⟩, 0⟩, []⟩
      [.create 0, .set 0 1 5, .set 0 2 6] = some s ∧
    ∀ m ∈ s.maps, ∃ l, (∃ bound, ∀ fuel > bound, iterate s.zone fuel (fun _ => none) m = some l) ∧
      ∀ value, value ≠ m.defValue →
        ((2, value) ∈ l ↔ get (fun _ => 0) s.zone m 2 = some value) := by
  obtain ⟨s, hrun, hmaps⟩ := iterate_exact_iff (fun _ : ℕ => 0) (fun a b : ℕ => a ≠ b)
    (fun a b h => by simpa using h) (fun _ => ⟨0, 0, 0, none, []⟩)
    [.create 0, .set 0 1 5, .set 0 2 6]
  refine ⟨s, hrun, fun m hm => ?_⟩
  obtain ⟨l, hiterate, -, hmem, -⟩ := hmaps m hm fun _ => none
  exact ⟨l, hiterate, hmem 2⟩

/-- A key that was reset to the default value is produced, behind a key with the same
hash. -/
theorem iterate_default :
    ((run (fun _ : ℕ => 0) (fun a b : ℕ => a ≠ b) ⟨⟨fun _ => ⟨0, 0, 0, none, []⟩, 0⟩, []⟩
      [.create 0, .set 0 1 5, .set 0 2 6, .set 0 2 0]).bind fun s =>
        s.maps.head?.bind (iterate s.zone 9 fun _ => none)) = some [(1, 5), (2, 0)] := by
  decide

end PersistentMap
