import Mathlib

/-!
# Ordered sets of objects

A set of objects ordered by a key that is read from the objects themselves, as
`std::set` of pointers with a comparison of what they point to. The set is the
list of its elements in order. When an object changes, so may its key, and the
set is out of order until the object has been taken out or the others fit again;
searching in it then has no defined outcome. `lowerBound`, `upperBound`, `find`
and `insert` give `none` in that case. Following or erasing an element that is at
hand needs no search, and no order.
-/

open List

namespace KeyedSet

variable {ι κ : Type*} [LinearOrder κ] {key key' : ι → κ} {l r : List ι} {x y : ι} {k : κ}

variable (key)

/-- The elements are in order, no two with the same key. -/
abbrev Sorted (l : List ι) : Prop := l.Pairwise fun x y => key x < key y

/-- The first element whose key is at least `k`. -/
def lowerBound (l : List ι) (k : κ) : Option (Option ι) :=
  if Sorted key l then some (l.find? fun x => k ≤ key x) else none

/-- The first element whose key is greater than `k`. -/
def upperBound (l : List ι) (k : κ) : Option (Option ι) :=
  if Sorted key l then some (l.find? fun x => k < key x) else none

/-- The element with the key `k`. -/
def find (l : List ι) (k : κ) : Option (Option ι) :=
  if Sorted key l then some (l.find? fun x => key x = k) else none

/-- Inserts `x`, unless there is an element with its key. -/
def insert (l : List ι) (x : ι) : Option (List ι) :=
  if Sorted key l then
    some (if ∃ y ∈ l, key y = key x then l else l.orderedInsert (fun x y => key x ≤ key y) x)
  else none

variable {key}

section Neighbours

variable [DecidableEq ι]

/-- The element after `x`. -/
def next : List ι → ι → Option ι
  | [], _ => none
  | y :: l, x => if y = x then l.head? else next l x

/-- The element before `x`. -/
def prev : List ι → ι → Option ι
  | y :: z :: l, x => if z = x then some y else prev (z :: l) x
  | _, _ => none

theorem next_append_cons (hx : x ∉ l) : next (l ++ x :: r) x = r.head? := by
  induction l with
  | nil => exact if_pos rfl
  | cons y l ih =>
    rw [mem_cons, not_or] at hx
    rw [cons_append, next, if_neg (Ne.symm hx.1), ih hx.2]

theorem prev_append_cons (hl : (l ++ x :: r).Nodup) : prev (l ++ x :: r) x = l.getLast? := by
  induction l with
  | nil =>
    rw [nil_append, nodup_cons] at hl
    cases r with
    | nil => rfl
    | cons z r =>
      -- `x` is the first element and does not occur again
      have hnone : ∀ (l : List ι) (z : ι), x ∉ l → prev (z :: l) x = none := by
        intro l
        induction l with
        | nil => exact fun _ _ => rfl
        | cons y l ih =>
          intro z hx
          rw [mem_cons, not_or] at hx
          rw [prev, if_neg (Ne.symm hx.1), ih y hx.2]
      exact hnone (z :: r) x hl.1
  | cons y l ih =>
    rw [cons_append, nodup_cons] at hl
    cases l with
    | nil => exact if_pos rfl
    | cons z l =>
      have hz : z ≠ x := by
        rintro rfl
        exact (nodup_cons.mp hl.2).1 (mem_append_right _ mem_cons_self)
      rw [cons_append, cons_append, prev, if_neg hz, ← cons_append, ih hl.2,
        getLast?_cons_cons]

end Neighbours

/-! ## Order -/

variable (h : Sorted key l)
include h

/-- Only the keys of the elements matter. -/
theorem Sorted.congr (heq : ∀ x ∈ l, key' x = key x) : Sorted key' l :=
  h.imp_of_mem fun hx hy hlt => by rwa [heq _ hx, heq _ hy]

theorem Sorted.nodup : l.Nodup :=
  h.imp fun hlt heq => hlt.ne (congrArg key heq)

theorem Sorted.eq_of_key (hx : x ∈ l) (hy : y ∈ l) (heq : key x = key y) : x = y := by
  have hmap : (l.map key).Nodup := pairwise_map.mpr (h.imp ne_of_lt)
  exact inj_on_of_nodup_map hmap hx hy heq

theorem find_self (hx : x ∈ l) : find key l (key x) = some (some x) := by
  rw [find, if_pos h]
  cases hfind : l.find? fun y => key y = key x with
  | none => exact absurd (decide_eq_true rfl) (find?_eq_none.mp hfind x hx)
  | some y =>
    have hy : key y = key x := by simpa using find?_some hfind
    rw [h.eq_of_key (mem_of_find?_eq_some hfind) hx hy]

theorem Sorted.orderedInsert (hnew : ∀ y ∈ l, key y ≠ key x) :
    Sorted key (l.orderedInsert (fun x y => key x ≤ key y) x) := by
  induction l with
  | nil => exact pairwise_singleton _ _
  | cons y l ih =>
    rw [orderedInsert_cons]
    obtain ⟨hy, hl⟩ := pairwise_cons.mp h
    have hne := hnew y mem_cons_self
    split
    · next hle =>
      have hlt := lt_of_le_of_ne hle hne.symm
      refine pairwise_cons.mpr ⟨fun z hz => ?_, h⟩
      rcases mem_cons.mp hz with rfl | hz
      · exact hlt
      · exact hlt.trans (hy z hz)
    · next hgt =>
      refine pairwise_cons.mpr ⟨fun z hz => ?_, ih hl fun z hz => hnew z (mem_cons_of_mem y hz)⟩
      rcases (mem_orderedInsert _).mp hz with rfl | hz
      · exact lt_of_le_of_ne (not_le.mp hgt).le hne
      · exact hy z hz

omit h in
theorem insert_nil (x : ι) : insert key [] x = some [x] := by
  rw [insert, if_pos .nil, if_neg fun ⟨_, hy, _⟩ => nomatch hy]
  rfl

/-- Inserting an element with a key of its own. -/
theorem insert_new (hnew : ∀ y ∈ l, key y ≠ key x) :
    ∃ l', insert key l x = some l' ∧ Sorted key l' ∧ l'.Perm (x :: l) := by
  refine ⟨_, ?_, h.orderedInsert hnew, perm_orderedInsert _ x l⟩
  rw [insert, if_pos h, if_neg]
  rintro ⟨y, hy, heq⟩
  exact hnew y hy heq

omit h

theorem perm_after (l r : List ι) (x y : ι) : (l ++ x :: y :: r).Perm (y :: (l ++ x :: r)) := by
  have hmid : ((l ++ [x]) ++ y :: r).Perm (y :: ((l ++ [x]) ++ r)) := perm_middle
  rwa [append_assoc, append_assoc] at hmid

/-- Inserting an element whose place is right after `x`. -/
theorem insert_after (h : Sorted key (l ++ x :: y :: r)) :
    insert key (l ++ x :: r) y = some (l ++ x :: y :: r) := by
  have hperm := perm_after l r x y
  have hcons : (y :: (l ++ x :: r)).Nodup := hperm.nodup_iff.mp h.nodup
  have hsub : (l ++ x :: r).Sublist (l ++ x :: y :: r) :=
    (List.Sublist.refl l).append ((sublist_cons_self y r).cons_cons x)
  have hne : ∀ z ∈ l ++ x :: r, key z ≠ key y := fun z hz heq =>
    (nodup_cons.mp hcons).1 (h.eq_of_key (hsub.subset hz)
      (hperm.symm.subset mem_cons_self) heq ▸ hz)
  obtain ⟨l', heq, hsorted, hl'⟩ := insert_new (h.sublist hsub) hne
  rw [heq, (hl'.trans hperm.symm).eq_of_pairwise (fun a b _ _ hab hba => (hab.asymm hba).elim)
    hsorted h]

end KeyedSet
