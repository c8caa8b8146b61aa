import Mathlib

/-!
# Tries of bit strings

A trie is given by its nodes and their children: `child t l b` is the child of the
node `t` for the bit `b`, if there is one, where `t` is met at level `l`. One and the
same node may be met at several levels, so the level is part of the question. A
bit string leads from a node to another one (`walk`), and the nodes at the last
level are the leaves (`leaves`), in the order of their bit strings.

A node is *focused* on a bit string if the string leads from it to itself, at all
levels. `walk_refocus` is about replacing the root by a node that is focused on a
string, and that has the other children of all nodes the string passes in the old
trie: every other string leads to where it led before.
-/

open Option List Function

namespace HashTrie

variable {Node : Type*} {child child' : Node → ℕ → Bool → Option Node} {h h' : ℕ → Bool}
  {l m n : ℕ} {t u : Node}

/-- Where `n` bits lead to, from a node at level `l`. -/
def walk (child : Node → ℕ → Bool → Option Node) (h : ℕ → Bool) : ℕ → ℕ → Node → Option Node
  | 0, _, t => some t
  | n + 1, l, t => (child t l (h l)).bind (walk child h n (l + 1))

/-- The leaves `n` levels below a node at level `l`. -/
def leaves (child : Node → ℕ → Bool → Option Node) : ℕ → ℕ → Node → List Node
  | 0, _, t => [t]
  | n + 1, l, t =>
    (child t l false).elim [] (leaves child n (l + 1)) ++
      (child t l true).elim [] (leaves child n (l + 1))

theorem walk_add (m n l : ℕ) (t : Node) :
    walk child h (m + n) l t = (walk child h m l t).bind (walk child h n (l + m)) := by
  induction m generalizing l t with
  | zero => rw [Nat.zero_add, Nat.add_zero]; rfl
  | succ m ih =>
    rw [Nat.succ_add, walk, walk, bind_assoc]
    refine Option.bind_congr fun u _ => ?_
    rw [ih, Nat.add_right_comm, Nat.add_assoc]

/-- Only the bits that are passed matter. -/
theorem walk_congr (heq : ∀ i, l ≤ i → i < l + n → h i = h' i) :
    walk child h n l t = walk child h' n l t := by
  induction n generalizing l t with
  | zero => rfl
  | succ n ih =>
    rw [walk, walk, heq l le_rfl (by omega)]
    exact Option.bind_congr fun u _ => ih fun i hi hi' => heq i (by omega) (by omega)

/-- Tries with the same nodes below. -/
theorem walk_extend {S : Node → Prop} (hS : ∀ t l b u, S t → child t l b = some u → S u)
    (heq : ∀ t l b, S t → child' t l b = child t l b) (ht : S t) :
    walk child' h n l t = walk child h n l t := by
  induction n generalizing l t with
  | zero => rfl
  | succ n ih =>
    rw [walk, walk, heq t l _ ht]
    exact Option.bind_congr fun u hu => ih (hS t l _ u ht hu)

/-- A node that is focused on a string. -/
theorem walk_focused (hfocus : ∀ i, l ≤ i → i < l + n → child t i (h i) = some t) :
    walk child h n l t = some t := by
  induction n generalizing l with
  | zero => rfl
  | succ n ih =>
    rw [walk, hfocus l le_rfl (by omega), bind_some]
    exact ih fun i hi hi' => hfocus i (by omega) (by omega)

/-- **The leaves are where bit strings lead to.** -/
theorem mem_leaves : u ∈ leaves child n l t ↔ ∃ h, walk child h n l t = some u := by
  induction n generalizing l t with
  | zero => simp [leaves, walk, eq_comm]
  | succ n ih =>
    have hbit : ∀ b, u ∈ (child t l b).elim [] (leaves child n (l + 1)) ↔
        ∃ h, h l = b ∧ walk child h (n + 1) l t = some u := fun b => by
      cases hchild : child t l b with
      | none =>
        refine iff_of_false not_mem_nil ?_
        rintro ⟨h, rfl, hwalk⟩
        rw [walk, hchild] at hwalk
        exact nomatch hwalk
      | some v =>
        refine ih.trans ⟨fun ⟨h, hwalk⟩ => ?_, ?_⟩
        · refine ⟨update h l b, update_self .., ?_⟩
          rw [walk, update_self, hchild, bind_some, ← hwalk]
          exact walk_congr fun i hi _ => update_of_ne (by omega) ..
        · rintro ⟨h, rfl, hwalk⟩
          rw [walk, hchild] at hwalk
          exact ⟨h, hwalk⟩
    rw [leaves, mem_append, hbit, hbit]
    constructor
    · rintro (⟨h, -, hwalk⟩ | ⟨h, -, hwalk⟩) <;> exact ⟨h, hwalk⟩
    · rintro ⟨h, hwalk⟩
      cases hl : h l with
      | false => exact .inl ⟨h, hl, hwalk⟩
      | true => exact .inr ⟨h, hl, hwalk⟩

/-- The leaves are in an order in which what is on the left comes first. -/
theorem leaves_pairwise {S : Node → Prop} {R : Node → Node → Prop}
    (hS : ∀ t l b u, S t → child t l b = some u → S u)
    (hR : ∀ t l n, S t → ∀ v, child t l false = some v → ∀ w, child t l true = some w →
      ∀ x ∈ leaves child n (l + 1) v, ∀ y ∈ leaves child n (l + 1) w, R x y) (ht : S t) :
    (leaves child n l t).Pairwise R := by
  induction n generalizing l t with
  | zero => exact pairwise_singleton _ _
  | succ n ih =>
    have hbit : ∀ b, ((child t l b).elim [] (leaves child n (l + 1))).Pairwise R := fun b => by
      cases hchild : child t l b with
      | none => exact .nil
      | some u => exact ih (hS t l b u ht hchild)
    refine pairwise_append.mpr ⟨hbit false, hbit true, fun x hx y hy => ?_⟩
    cases hv : child t l false with
    | none => rw [hv] at hx; exact absurd hx not_mem_nil
    | some v =>
      cases hw : child t l true with
      | none => rw [hw] at hy; exact absurd hy not_mem_nil
      | some w =>
        rw [hv] at hx
        rw [hw] at hy
        exact hR t l n ht v hv w hw x hx y hy

/-- **Changing the focus.** The node `t` is focused on `h`, and its other children are
those of the nodes `h` passes, from `root`. -/
theorem walk_refocus {root : Option Node} (hfocus : ∀ i, i < n → child t i (h i) = some t)
    (hother : ∀ i, i < n → child t i (!h i) =
      (root.bind (walk child h i 0)).bind fun u => child u i (!h i))
    (hne : ∃ i, i < n ∧ h' i ≠ h i) : walk child h' n 0 t = root.bind (walk child h' n 0) := by
  -- the first bit that differs
  obtain ⟨k, ⟨hk, hdiff⟩, hbefore⟩ : ∃ k, (k < n ∧ h' k ≠ h k) ∧ ∀ i, i < k → h' i = h i := by
    classical
    exact ⟨Nat.find hne, Nat.find_spec hne, fun i hi => by
      by_contra hdiff
      exact Nat.find_min hne hi ⟨hi.trans (Nat.find_spec hne).1, hdiff⟩⟩
  have hbit : h' k = !h k := Bool.eq_not.mpr hdiff
  have hsplit : ∀ v, walk child h' n 0 v = (walk child h k 0 v).bind fun u =>
        (child u k (!h k)).bind (walk child h' (n - k - 1) (k + 1)) := by
    intro v
    have hprefix : walk child h' k 0 v = walk child h k 0 v :=
      walk_congr fun i _ hi => hbefore i (by omega)
    rw [show n = k + (n - k - 1 + 1) by omega, walk_add, hprefix, Nat.zero_add]
    refine Option.bind_congr fun u _ => ?_
    rw [walk, hbit, show k + (n - k - 1 + 1) - k - 1 = n - k - 1 by omega]
  rw [hsplit, walk_focused fun i _ hi => hfocus i (by omega), bind_some, hother k hk,
    bind_assoc, bind_assoc]
  exact Option.bind_congr fun v _ => (hsplit v).symm

end HashTrie
