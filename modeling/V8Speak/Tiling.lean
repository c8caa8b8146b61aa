import Mathlib

/-!
# Tilings of an interval

An interval of addresses cut into consecutive tiles, each with a state. What a
tiling says about single addresses is `stateAt`; splitting a tile or merging two
of the same state changes the tiles and not the states. If no two neighbouring
tiles satisfy `P` – they have been merged – then addresses one after the other
that satisfy `P` are within one tile (`exists_tile_of_run`).
-/

open List

/-- A piece of an interval. -/
structure Tile (S : Type*) where
  begin : ℕ
  size : ℕ
  state : S
  deriving DecidableEq, Repr

namespace Tiling

variable {S : Type*} {unit b m e x n : ℕ} {l r : List (Tile S)} {t : Tile S}

/-- The tile has the address. -/
def Covers (t : Tile S) (x : ℕ) : Prop := t.begin ≤ x ∧ x < t.begin + t.size

instance (t : Tile S) (x : ℕ) : Decidable (Covers t x) := inferInstanceAs (Decidable (_ ∧ _))

/-- The tiles are consecutive, from `b` to `e`, none is empty and their borders are
multiples of `unit`. -/
def Tiles (unit : ℕ) : ℕ → ℕ → List (Tile S) → Prop
  | b, e, [] => b = e
  | b, e, t :: l => t.begin = b ∧ 0 < t.size ∧ unit ∣ t.begin ∧ unit ∣ t.size ∧
    Tiles unit (b + t.size) e l

theorem tiles_append : Tiles unit b e (l ++ r) ↔ ∃ m, Tiles unit b m l ∧ Tiles unit m e r := by
  induction l generalizing b with
  | nil => exact ⟨fun h => ⟨b, rfl, h⟩, fun ⟨_, hm, h⟩ => hm ▸ h⟩
  | cons t l ih =>
    rw [cons_append, Tiles, ih]
    constructor
    · rintro ⟨h₁, h₂, h₃, h₄, m, hl, hr⟩
      exact ⟨m, ⟨h₁, h₂, h₃, h₄, hl⟩, hr⟩
    · rintro ⟨m, ⟨h₁, h₂, h₃, h₄, hl⟩, hr⟩
      exact ⟨h₁, h₂, h₃, h₄, m, hl, hr⟩

/-- Tiles with other states in the same places. -/
theorem Tiles.map_congr {ι : Type*} {ps : List ι} {f g : ι → Tile S} (h : Tiles unit b e (ps.map f))
    (heq : ∀ p ∈ ps, (g p).begin = (f p).begin ∧ (g p).size = (f p).size) :
    Tiles unit b e (ps.map g) := by
  induction ps generalizing b with
  | nil => exact h
  | cons p ps ih =>
    obtain ⟨h₁, h₂, h₃, h₄, hps⟩ := h
    obtain ⟨hbegin, hsize⟩ := heq p mem_cons_self
    rw [map_cons, Tiles, hbegin, hsize]
    exact ⟨h₁, h₂, h₃, h₄, ih hps fun q hq => heq q (mem_cons_of_mem p hq)⟩

theorem Tiles.le (h : Tiles unit b e l) : b ≤ e := by
  induction l generalizing b with
  | nil => exact h.le
  | cons t l ih => exact (Nat.le_add_right b t.size).trans (ih h.2.2.2.2)

/-- Where a tile of the tiling is. -/
theorem Tiles.mem (h : Tiles unit b e l) (ht : t ∈ l) :
    b ≤ t.begin ∧ t.begin + t.size ≤ e ∧ 0 < t.size ∧ unit ∣ t.begin ∧ unit ∣ t.size := by
  obtain ⟨l, r, rfl⟩ := append_of_mem ht
  obtain ⟨m, hl, rfl, hpos, hbegin, hsize, hr⟩ := tiles_append.mp h
  exact ⟨hl.le, hr.le, hpos, hbegin, hsize⟩

/-- The ends of the tiles increase. -/
theorem Tiles.pairwise (h : Tiles unit b e l) :
    l.Pairwise fun t u => t.begin + t.size ≤ u.begin ∧ 0 < u.size := by
  induction l generalizing b with
  | nil => exact .nil
  | cons t l ih =>
    obtain ⟨rfl, -, -, -, hl⟩ := h
    exact pairwise_cons.mpr ⟨fun u hu => ⟨(hl.mem hu).1, (hl.mem hu).2.2.1⟩, ih hl⟩

/-- The sizes add up. -/
theorem Tiles.sum (h : Tiles unit b e l) : b + (l.map Tile.size).sum = e := by
  induction l generalizing b with
  | nil => exact h
  | cons t l ih => rw [map_cons, sum_cons, ← Nat.add_assoc, ih h.2.2.2.2]

theorem Tiles.begin_eq_iff (h : Tiles unit b e (l ++ t :: r)) : t.begin = b ↔ l = [] := by
  obtain ⟨m, hl, rfl, -⟩ := tiles_append.mp h
  cases l with
  | nil => exact iff_of_true hl.symm rfl
  | cons u l =>
    refine iff_of_false (fun heq => ?_) (cons_ne_nil u l)
    have hpos := hl.2.1
    have hle := hl.2.2.2.2.le
    omega

theorem Tiles.end_eq_iff (h : Tiles unit b e (l ++ t :: r)) : t.begin + t.size = e ↔ r = [] := by
  obtain ⟨m, -, rfl, -, -, -, hr⟩ := tiles_append.mp h
  cases r with
  | nil => exact iff_of_true hr rfl
  | cons u r =>
    refine iff_of_false (fun heq => ?_) (cons_ne_nil u r)
    have hpos := hr.2.1
    have hle := hr.2.2.2.2.le
    omega

/-! ## States of addresses -/

/-- The state of an address. -/
def stateAt (l : List (Tile S)) (x : ℕ) : Option S :=
  (l.find? fun t => Covers t x).map Tile.state

theorem stateAt_cons_of_covers (hx : Covers t x) (l : List (Tile S)) :
    stateAt (t :: l) x = some t.state := by
  simp [stateAt, hx]

theorem stateAt_cons_of_not_covers (hx : ¬Covers t x) (l : List (Tile S)) :
    stateAt (t :: l) x = stateAt l x := by
  simp [stateAt, hx]

theorem stateAt_append (h : Tiles unit b m l) (x : ℕ) :
    stateAt (l ++ r) x = if x < m ∧ b ≤ x then stateAt l x else stateAt r x := by
  induction l generalizing b with
  | nil =>
    obtain rfl : b = m := h
    rw [if_neg (by omega), nil_append]
  | cons t l ih =>
    obtain ⟨rfl, hpos, -, -, hl⟩ := h
    have hle := hl.le
    by_cases hx : Covers t x
    · rw [cons_append, stateAt_cons_of_covers hx, stateAt_cons_of_covers hx,
        if_pos ⟨hx.2.trans_le hle, hx.1⟩]
    · rw [cons_append, stateAt_cons_of_not_covers hx, stateAt_cons_of_not_covers hx, ih hl]
      unfold Covers at hx
      by_cases hin : x < m ∧ t.begin + t.size ≤ x
      · rw [if_pos hin, if_pos ⟨hin.1, by omega⟩]
      · rw [if_neg hin, if_neg (by omega)]

/-- The state of an address is that of the tile it is in. -/
theorem stateAt_of_mem (h : Tiles unit b e l) (ht : t ∈ l) (hx : Covers t x) :
    stateAt l x = some t.state := by
  obtain ⟨l, r, rfl⟩ := append_of_mem ht
  obtain ⟨m, hl, hr⟩ := tiles_append.mp h
  have hbegin : t.begin = m := hr.1
  have hx' : m ≤ x := hbegin ▸ hx.1
  rw [stateAt_append hl, if_neg (by omega), stateAt_cons_of_covers hx]

theorem Tiles.stateAt_eq_none (h : Tiles unit b e l) (hx : ¬(b ≤ x ∧ x < e)) :
    stateAt l x = none := by
  rw [stateAt, Option.map_eq_none_iff, find?_eq_none]
  intro t ht
  have hmem := h.mem ht
  rw [decide_eq_true_iff]
  exact fun hcovers => hx ⟨hmem.1.trans hcovers.1, hcovers.2.trans_le hmem.2.1⟩

theorem Tiles.exists_covers (h : Tiles unit b e l) (hb : b ≤ x) (he : x < e) :
    ∃ t ∈ l, Covers t x := by
  induction l generalizing b with
  | nil =>
    obtain rfl : b = e := h
    omega
  | cons t l ih =>
    obtain ⟨rfl, -, -, -, hl⟩ := h
    by_cases hx : x < t.begin + t.size
    · exact ⟨t, mem_cons_self, hb, hx⟩
    · obtain ⟨u, hu, hcovers⟩ := ih hl (not_lt.mp hx)
      exact ⟨u, mem_cons_of_mem t hu, hcovers⟩

/-- **Replacing a tile** by tiles in its place, or the other way round, changes the
states there and nowhere else. -/
theorem stateAt_replace {l' : List (Tile S)} (h : Tiles unit b e (l ++ t :: r))
    (h' : Tiles unit b e (l ++ (l' ++ r))) :
    Tiles unit t.begin (t.begin + t.size) l' ∧ ∀ x, stateAt (l ++ (l' ++ r)) x =
        if Covers t x then stateAt l' x else stateAt (l ++ t :: r) x := by
  obtain ⟨m, hl, rfl, hpos, hbegin, hsize, hr⟩ := tiles_append.mp h
  obtain ⟨m, hl', hmid⟩ := tiles_append.mp h'
  obtain rfl : m = t.begin := by rw [← hl.sum, hl'.sum]
  obtain ⟨m, hmid, hr'⟩ := tiles_append.mp hmid
  obtain rfl : m = t.begin + t.size := by
    have := hr.sum
    have := hr'.sum
    omega
  refine ⟨hmid, fun x => ?_⟩
  rw [stateAt_append hl, stateAt_append hl, stateAt_append hmid]
  by_cases hx : Covers t x
  · rw [if_pos hx, if_neg (by have := hx.1; omega), if_pos ⟨hx.2, hx.1⟩]
  · have hout : ¬(x < t.begin + t.size ∧ t.begin ≤ x) := fun h => hx ⟨h.2, h.1⟩
    rw [if_neg hx, stateAt_cons_of_not_covers hx, if_neg hout]

/-- Cutting a tile into tiles in its state, or merging them, changes no state. -/
theorem stateAt_cut {l' : List (Tile S)} (h : Tiles unit b e (l ++ t :: r))
    (h' : Tiles unit b e (l ++ (l' ++ r))) (hstate : ∀ u ∈ l', u.state = t.state) (x : ℕ) :
    stateAt (l ++ (l' ++ r)) x = stateAt (l ++ t :: r) x := by
  obtain ⟨hmid, hreplace⟩ := stateAt_replace h h'
  rw [hreplace]
  split
  · next hx =>
    obtain ⟨u, hu, hux⟩ := hmid.exists_covers hx.1 hx.2
    rw [stateAt_of_mem hmid hu hux, hstate u hu,
      stateAt_of_mem h (mem_append_right l mem_cons_self) hx]
  · rfl

/-! ## Runs -/

/-- No two neighbouring tiles satisfy `P`. -/
def Coalesced (P : S → Prop) (l : List (Tile S)) : Prop :=
  l.IsChain fun t u => ¬(P t.state ∧ P u.state)

variable {P : S → Prop}

theorem coalesced_append_cons : Coalesced P (l ++ t :: r) ↔ Coalesced P l ∧ Coalesced P r ∧
    (∀ u ∈ l.getLast?, ¬(P u.state ∧ P t.state)) ∧ ∀ u ∈ r.head?, ¬(P t.state ∧ P u.state) := by
  unfold Coalesced
  rw [isChain_append, isChain_cons]
  simp only [head?_cons, Option.mem_some_iff, forall_eq']
  tauto

/-- **Runs are within tiles.** -/
theorem exists_tile_of_run (h : Tiles unit b e l) (hc : Coalesced P l) (hn : 0 < n) (hb : b ≤ x)
    (hrun : ∀ y, x ≤ y → y < x + n → ∃ s, stateAt l y = some s ∧ P s) :
    ∃ t ∈ l, P t.state ∧ t.begin ≤ x ∧ x + n ≤ t.begin + t.size := by
  induction l generalizing b with
  | nil =>
    obtain ⟨s, hs, -⟩ := hrun x le_rfl (by omega)
    exact nomatch hs
  | cons t l ih =>
    have htiles := h
    obtain ⟨rfl, hpos, -, -, hl⟩ := h
    by_cases hx : x < t.begin + t.size
    · -- the run begins in `t`, and ends there: the next tile does not satisfy `P`
      obtain ⟨s, hs, hP⟩ := hrun x le_rfl (by omega)
      rw [stateAt_of_mem htiles mem_cons_self ⟨hb, hx⟩] at hs
      obtain rfl := Option.some.inj hs
      refine ⟨t, mem_cons_self, hP, hb, not_lt.mp fun hlt => ?_⟩
      obtain ⟨s, hs, hP'⟩ := hrun (t.begin + t.size) (by omega) hlt
      cases l with
      | nil =>
        rw [stateAt_cons_of_not_covers fun h => absurd h.2 (lt_irrefl _)] at hs
        exact nomatch hs
      | cons u l =>
        rw [stateAt_of_mem htiles (mem_cons_of_mem t mem_cons_self)
          ⟨hl.1.le, by have := hl.1; have := hl.2.1; omega⟩] at hs
        obtain rfl := Option.some.inj hs
        exact (isChain_cons_cons.mp hc).1 ⟨hP, hP'⟩
    · have hstate : ∀ y, x ≤ y → stateAt (t :: l) y = stateAt l y := by
        intro y hy
        exact stateAt_cons_of_not_covers (fun h => by have := h.2; omega) l
      obtain ⟨u, hu, hrest⟩ := ih hl hc.tail (not_lt.mp hx) fun y hy hyn => by
        rw [← hstate y hy]
        exact hrun y hy hyn
      exact ⟨u, mem_cons_of_mem t hu, hrest⟩

end Tiling
