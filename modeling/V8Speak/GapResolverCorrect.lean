import V8Speak.GapResolverMoves

/-!
# The gap resolver resolves parallel moves

However the operations of the assembler are implemented, the code of a parallel
move leaves in every destination what its source had before, and everything
else as it was (`resolve_correct`).

`PerformMoveHelper` searches for the moves that block a move, with the moves on
its path pending. It comes back in one of three ways (`Result`): the move is
done; it is on a cycle through a pending move, and the part of the cycle below
that is returned (`Path`); or two cycles meet, and a move is returned whose
source interferes with a destination. In the last case the source is pushed.
A source that has been pushed interferes with no destination, so this happens
at most once for each move.
-/

open List InstructionOperand Option Nat MoveOperands MachineRepresentation

namespace GapResolver

variable {config : TargetConfig} {slots : ℕ → InstructionOperand}
  {p : ParallelMove config slots} {P : Finset ℕ} {g g' : GapResolver} {V : Type}

/-! ## Paths -/

variable (p P) in
/-- A move is not pending, and blocked by one move alone. -/
def Follows (g : GapResolver) (j i : ℕ) : Prop :=
  Active g i ∧ i ∉ P ∧ ∀ k, Blocks p g k i ↔ k = j

variable (p P) in
/-- **A part of a cycle**: from a pending move, each move is the only one that
blocks the next. -/
structure Path (g : GapResolver) (c : List ℕ) (last : ℕ) : Prop where
  head : ∃ top ∈ P, c.head? = some top
  chain : c.IsChain (Follows p P g)
  last_eq : c.getLast? = some last

variable {l : List ℕ} {top : ℕ}

/-- Moves that follow a waiting one wait. -/
theorem held_of_isChain (h : (top :: l).IsChain (Follows p P g))
    (htop : Held p P g top) : ∀ i ∈ top :: l, Held p P g i := by
  induction l generalizing top with
  | nil => exact fun i hi => mem_singleton.mp hi ▸ htop
  | cons x rest ih =>
    obtain ⟨hfollows, hrest⟩ := isChain_cons_cons.mp h
    intro i hi
    rcases mem_cons.mp hi with rfl | hi
    · exact htop
    · exact ih hrest (.blocked htop ((hfollows.2.2 top).mpr rfl) hfollows.1) i hi

theorem isChain_extends (hext : Extends p P g g')
    (h : (top :: l).IsChain (Follows p P g)) (htop : Held p P g top) :
    (top :: l).IsChain (Follows p P g') := by
  induction l generalizing top with
  | nil => exact .singleton top
  | cons x rest ih =>
    obtain ⟨⟨hactive, hx, hblocks⟩, hrest⟩ := isChain_cons_cons.mp h
    have hheld : Held p P g x := .blocked htop ((hblocks top).mpr rfl) hactive
    refine isChain_cons_cons.mpr ⟨⟨hext.held x hheld, hx, fun k => ?_⟩, ih hrest hheld⟩
    refine ⟨fun hk => (hblocks k).mp (hext.blocks hk), ?_⟩
    rintro rfl
    exact hext.blocks_of_active ((hblocks k).mpr rfl) (hext.held k htop)

variable {c : List ℕ} {last : ℕ}

theorem Path.held (h : Path p P g c last) : ∀ i ∈ c, Held p P g i := by
  obtain ⟨top, htop, hhead⟩ := h.head
  obtain ⟨l, rfl⟩ := head?_eq_some_iff.mp hhead
  exact held_of_isChain h.chain (.pending htop)

/-- **The search does not break a path.** -/
theorem Path.extends (h : Path p P g c last) (hext : Extends p P g g') : Path p P g' c last := by
  obtain ⟨top, htop, hhead⟩ := h.head
  obtain ⟨l, rfl⟩ := head?_eq_some_iff.mp hhead
  exact ⟨h.head, isChain_extends hext h.chain (.pending htop), h.last_eq⟩

theorem Path.last_mem (h : Path p P g c last) : last ∈ c :=
  mem_of_getLast? h.last_eq

/-- The first move of a path to a blocking move blocks a move. -/
theorem Path.head_blocks {front last move : ℕ} (h : Path p P g (front :: c) last)
    (hlast : Blocks p g last move) : ∃ i, Blocks p g front i := by
  cases c with
  | nil =>
    obtain rfl : front = last := by
      have := h.last_eq
      rwa [getLast?_singleton, some_inj] at this
    exact ⟨move, hlast⟩
  | cons x rest =>
    obtain ⟨hfollows, -⟩ := isChain_cons_cons.mp h.chain
    exact ⟨x, (hfollows.2.2 front).mpr rfl⟩

/-- The moves of a path are different. -/
theorem Path.nodup (h : Path p P g l last) : l.Nodup := by
  obtain ⟨top, htop, hhead⟩ := h.head
  have hchain := isChain_iff_getElem.mp h.chain
  have hne : ∀ i j (hi : i < l.length) (hj : j < l.length), i < j → l[i] ≠ l[j] := by
    intro i
    induction i with
    | zero =>
      intro j hi hj hij heq
      obtain ⟨k, rfl⟩ := exists_eq_succ_of_ne_zero hij.ne'
      have htop' : l[0] = top := by
        rw [head?_eq_getElem?, getElem?_eq_getElem hi, some_inj] at hhead
        exact hhead
      exact (hchain k hj).2.1 (heq ▸ htop'.symm ▸ htop)
    | succ i ih =>
      intro j hi hj hij heq
      obtain ⟨k, rfl⟩ := exists_eq_succ_of_ne_zero (Nat.ne_zero_of_lt hij)
      have hblocks := ((hchain i hi).2.2 l[i]).mpr rfl
      rw [heq] at hblocks
      exact ih k (lt_of_succ_lt hi) (lt_of_succ_lt hj) (lt_of_succ_lt_succ hij)
        (((hchain k hj).2.2 _).mp hblocks)
  exact pairwise_iff_getElem.mpr fun i j hi hj hij => hne i j hi hj hij

/-! ## The search -/

variable (p P V) in
/-- The search keeps what has to be kept. -/
structure Searched (g g' : GapResolver) : Prop where
  ext : Extends p P g g'
  shape : Shape p P g'
  correct : Correct p V g'

theorem Searched.trans {g'' : GapResolver} (h : Searched p P V g g') (h' : Searched p P V g' g'') :
    Searched p P V g g'' :=
  ⟨h.ext.trans h'.ext, h'.shape, h'.correct⟩

variable (p P) in
/-- **How the search for a move comes back.** -/
inductive Result (move : ℕ) : Outcome → Prop
  | blocked {g : GapResolver} {c : List ℕ} {b i : ℕ} (hb : Blocks p g b i)
    (hmove : Active g move) : Result move ⟨g, c, some b⟩
  | done {g : GapResolver} (hmove : ¬ Active g move) : Result move ⟨g, [], none⟩
  | path {g : GapResolver} {c : List ℕ} (hpath : Path p P g c move) : Result move ⟨g, c, none⟩

variable (p P) in
/-- How the loop over the blocking moves of a pending move comes back. -/
inductive Scanned (move : ℕ) : Outcome → Prop
  | blocked {g : GapResolver} {c : List ℕ} {b i : ℕ} (hb : Blocks p g b i) :
    Scanned move ⟨g, c, some b⟩
  | free {g : GapResolver} (hfree : ∀ j, ¬ Blocks p g j move) : Scanned move ⟨g, [], none⟩
  | path {g : GapResolver} {c : List ℕ} {last : ℕ} (hpath : Path p P g c last)
    (hlast : ∀ j, Blocks p g j move ↔ j = last) : Scanned move ⟨g, c, none⟩

variable (p P) in
/-- The loop before the moves of `todo`: besides them, at most the last move of
the path blocks. -/
inductive Scanning (move : ℕ) (todo : List ℕ) (g : GapResolver) : List ℕ → Prop
  | free (htodo : ∀ j, Blocks p g j move → j ∈ todo) : Scanning move todo g []
  | path {c : List ℕ} {last : ℕ} (hpath : Path p P g c last) (hlast : Blocks p g last move)
    (htodo : ∀ j, Blocks p g j move → j = last ∨ j ∈ todo) : Scanning move todo g c

variable {move : ℕ}

theorem Scanning.finish (h : Scanning p P move [] g c) : Scanned p P move ⟨g, c, none⟩ := by
  cases h with
  | free htodo => exact .free fun j hj => not_mem_nil (htodo j hj)
  | path hpath hlast htodo =>
    refine .path hpath fun j => ⟨fun hj => (htodo j hj).resolve_right not_mem_nil, ?_⟩
    rintro rfl
    exact hlast

/-- A move that does not block any more is left. -/
theorem Scanning.next {move i : ℕ} {rest c : List ℕ} (h : Scanning p P move (i :: rest) g c)
    (hext : Extends p P g g') (hi : ¬ Blocks p g' i move) : Scanning p P move rest g' c := by
  have htail : ∀ {j}, Blocks p g' j move → j ∈ i :: rest → j ∈ rest := by grind
  cases h with
  | free htodo => exact .free fun j hj => htail hj (htodo j (hext.blocks hj))
  | @path _ last hpath hlast htodo =>
    have hactive := hext.held last (hpath.held last hpath.last_mem)
    refine .path (hpath.extends hext) (hext.blocks_of_active hlast hactive) fun j hj => ?_
    exact (htodo j (hext.blocks hj)).imp_right (htail hj)

theorem Extends.refl (hshape : Shape p P g) : Extends p P g g :=
  .of_source_eq hshape.pending rfl fun _ => rfl

theorem Scanning.head_blocks {move front : ℕ} {todo c : List ℕ}
    (h : Scanning p P move todo g (front :: c)) : ∃ i, Blocks p g front i := by
  cases h with
  | path hpath hlast _ => exact hpath.head_blocks hlast

variable {i : ℕ}

theorem isEliminated_iff : (g.moveAt i).isEliminated = true ↔ ¬ Active g i := by
  unfold isEliminated Active
  rw [decide_eq_true_iff, not_not]

theorem Shape.isPending_iff (hshape : Shape p P g) (hi : Active g i) :
    (g.moveAt i).isPending = true ↔ i ∈ P := by
  unfold isPending
  rw [decide_eq_true_iff, hshape.destination i hi]
  constructor
  · rintro ⟨hdestination, -⟩
    by_contra hP
    rw [if_neg hP] at hdestination
    exact p.destination_valid _ (original_mem (hshape.lt hi)) hdestination
  · exact fun hP => ⟨if_pos hP, hi⟩

/-- **The loop over the blocking moves**, when the recursive calls come back
as they should. -/
theorem scan_spec {helper : GapResolver → ℕ → Option Outcome}
    (hhelper : ∀ g i, Shape p P g → Correct p V g → Active g i → i ∉ P →
      ∃ r, helper g i = some r ∧ Searched p P V g r.state ∧ Result p P i r)
    (todo : List ℕ) : ∀ g c, Shape p P g → Correct p V g → Scanning p P move todo g c →
      ∃ r, scan config helper move (original p move).destination todo g c = some r ∧
        Searched p P V g r.state ∧ Scanned p P move r := by
  induction todo with
  | nil =>
    intro g c hshape hcorrect hscanning
    exact ⟨_, rfl, ⟨.refl hshape, hshape, hcorrect⟩, hscanning.finish⟩
  | cons i rest ih =>
    intro g c hshape hcorrect hscanning
    simp only [scan]
    split
    · next hskip =>
      refine ih g c hshape hcorrect (hscanning.next (.refl hshape) ?_)
      rintro ⟨hactive, hne, hinterferes⟩
      simp [isEliminated_iff.not_left.mpr hactive, hne, hinterferes] at hskip
    · next hskip =>
      have hblocks : Blocks p g i move := by
        simp only [Bool.or_eq_true, isEliminated_iff, decide_eq_true_eq, Bool.not_eq_true',
          not_or, not_not, Bool.not_eq_false] at hskip
        exact ⟨hskip.1.1, hskip.1.2, hskip.2⟩
      split
      · next hpending =>
        have hi : i ∈ P := (hshape.isPending_iff hblocks.1).mp hpending
        cases c with
        | nil =>
          refine ih g [i] hshape hcorrect (.path ⟨⟨i, hi, rfl⟩, .singleton i, rfl⟩ hblocks ?_)
          cases hscanning with
          | free htodo => exact fun j hj => mem_cons.mp (htodo j hj)
          | path hpath => exact absurd hpath.last_mem not_mem_nil
        | cons front c =>
          obtain ⟨k, hk⟩ := hscanning.head_blocks
          exact ⟨_, rfl, ⟨.refl hshape, hshape, hcorrect⟩, .blocked hk⟩
      · next hpending =>
        have hi : i ∉ P := fun hi => hpending ((hshape.isPending_iff hblocks.1).mpr hi)
        obtain ⟨r, hr, hsearched, hresult⟩ := hhelper g i hshape hcorrect hblocks.1 hi
        rw [hr]
        cases hresult with
        | blocked hb => exact ⟨_, rfl, hsearched, .blocked hb⟩
        | done hdone =>
          have hnext := hscanning.next hsearched.ext (fun hb => hdone hb.1)
          obtain ⟨r', hr', hsearched', hscanned⟩ :=
            ih _ c hsearched.shape hsearched.correct hnext
          refine ⟨r', ?_, hsearched.trans hsearched', hscanned⟩
          cases c <;> exact hr'
        | @path g' cycleRec hpath =>
          have hactive : Active g' i :=
            (hpath.held i hpath.last_mem).active hsearched.shape.pending
          have hblocks' : Blocks p g' i move := hsearched.ext.blocks_of_active hblocks hactive
          obtain ⟨front, rest', rfl⟩ :=
            exists_cons_of_ne_nil (ne_nil_of_mem hpath.last_mem)
          cases c with
          | nil =>
            have hnext : Scanning p P move rest g' (front :: rest') := by
              refine .path hpath hblocks' fun j hj => ?_
              cases hscanning with
              | free htodo => exact mem_cons.mp (htodo j (hsearched.ext.blocks hj))
              | path hpath => exact absurd hpath.last_mem not_mem_nil
            obtain ⟨r', hr', hsearched', hscanned⟩ :=
              ih _ _ hsearched.shape hsearched.correct hnext
            exact ⟨r', hr', hsearched.trans hsearched', hscanned⟩
          | cons _ _ =>
            obtain ⟨k, hk⟩ := hpath.head_blocks hblocks'
            exact ⟨_, rfl, hsearched, .blocked hk⟩

/-! ## A move and its dependencies -/

variable {m : MoveOperands} (hi : Active g i) (hm : m.source = (g.moveAt i).source)
include hi hm

theorem source_setMove (j : ℕ) : ((g.setMove i m).moveAt j).source = (g.moveAt j).source := by
  rw [moveAt_setMove g hi.lt]
  split
  · next hji => rw [hm, hji]
  · rfl

theorem active_setMove (j : ℕ) : Active (g.setMove i m) j ↔ Active g j := by
  unfold Active
  rw [source_setMove hi hm]

theorem blocks_setMove {j k : ℕ} : Blocks p (g.setMove i m) j k ↔ Blocks p g j k := by
  unfold Blocks
  rw [active_setMove hi hm, source_setMove hi hm]

/-- A move becomes pending, or ceases to be. -/
theorem Shape.setMove {Q : Finset ℕ} (h : Shape p P g)
    (hdestination : m.destination = if i ∈ Q then .invalid else (original p i).destination)
    (hQ : ∀ j, j ≠ i → (j ∈ Q ↔ j ∈ P)) : Shape p Q (g.setMove i m) where
  length := (length_set ..).trans h.length
  eliminated j hj := by
    rw [active_setMove hi hm] at hj
    rw [moveAt_setMove g hi.lt, if_neg (fun hji : j = i => hj (hji ▸ hi)), h.eliminated j hj]
  destination j hj := by
    rw [moveAt_setMove g hi.lt]
    split
    · next hji => rw [hdestination, hji]
    · next hji =>
      rw [h.destination j ((active_setMove hi hm j).mp hj)]
      simp only [hQ j hji]
  source j hj := by
    rw [source_setMove hi hm]
    exact h.source j ((active_setMove hi hm j).mp hj)
  pending j hj := by
    rw [active_setMove hi hm]
    by_cases hji : j = i
    · exact hji ▸ hi
    · exact h.pending j ((hQ j hji).mp hj)

/-- A move becoming pending, or ceasing to be, is a step of the search. -/
theorem Searched.setMove {Q R : Finset ℕ} (h : Shape p P g) (hcorrect : Correct p V g)
    (hdestination : m.destination = if i ∈ Q then .invalid else (original p i).destination)
    (hQ : ∀ j, j ≠ i → (j ∈ Q ↔ j ∈ P)) (hR : R ⊆ P) :
    Extends p R g (g.setMove i m) ∧ Shape p Q (g.setMove i m) ∧ Correct p V (g.setMove i m) := by
  refine ⟨?_, h.setMove hi hm hdestination hQ, fun m₀ m' hruns => ?_⟩
  · exact .of_source_eq (fun j hj => h.pending j (hR hj)) rfl (source_setMove hi hm)
  · exact (hcorrect m₀ m' hruns).of_source (source_setMove hi hm)

omit hi hm

variable {E : List ℕ}

/-- Eliminating moves that only each other block is a step of the search. -/
theorem Eliminates.searched (h : Eliminates p P V g E g') (hshape : Shape p P g)
    (hE : ∀ i ∈ E, i ∉ P ∧ ∀ j, Blocks p g j i → j ∈ E) : Searched p P V g g' :=
  ⟨.of_closed hshape.pending h.pushes h.moveAt hE, h.shape, h.correct⟩

theorem Eliminates.not_active (h : Eliminates p P V g E g') (hi : i ∈ E) : ¬ Active g' i := by
  unfold Active
  rw [h.moveAt, if_pos hi]
  exact fun hne => hne rfl

/-- A single move that nothing blocks. -/
theorem assemble_eliminates (hshape : Shape p P g) (hcorrect : Correct p V g)
    (hactive : Active g i) (hi : i ∉ P) (hfree : ∀ j, ¬ Blocks p g j i) :
    Eliminates p P V g [i] (g.assemble i) where
  shape := (hshape.emit _).eliminate hi
  pushes := rfl
  moveAt j := by
    rw [assemble, moveAt_eliminate]
    simp only [mem_singleton]
    rfl
  correct m₀ m' hm' := by
    obtain ⟨m, hm, hexec⟩ := hm'.concat_inv
    exact (hcorrect m₀ m hm).assemble hshape hactive hi hfree hexec

/-- A move of a path after the first follows an earlier one. -/
theorem Path.follows {last i : ℕ} {c pre post : List ℕ} (h : Path p P g c last)
    (hc : c = pre ++ i :: post) (hpre : pre ≠ []) : ∃ k ∈ pre, Follows p P g k i := by
  obtain ⟨init, k, rfl⟩ := (eq_nil_or_concat pre).resolve_left hpre
  have hchain := h.chain
  rw [hc, concat_append, isChain_append_cons_cons] at hchain
  exact ⟨k, concat_eq_append ▸ mem_concat_self, hchain.2.1⟩

/-- **A path that comes back to its first move is a cycle.** -/
theorem Path.closed {move last : ℕ} (hshape : Shape p P g) (hactive : Active g move)
    (hmove : move ∉ P) (h : Path p (insert move P) g (move :: c) last)
    (hlast : ∀ j, Blocks p g j move ↔ j = last) :
    (move :: c).dropLast ++ [last] = move :: c ∧ Closed p P g ((move :: c).dropLast) last := by
  have hsplit : (move :: c).dropLast ++ [last] = move :: c :=
    dropLast_append_getLast? last h.last_eq
  have hpending : ∀ i ∈ insert move P, Active g i := by
    intro i hi
    rcases Finset.mem_insert.mp hi with rfl | hi
    · exact hactive
    · exact hshape.pending i hi
  refine ⟨hsplit, ⟨by rw [hsplit]; exact h.nodup, fun i hi => ?_, fun i hi => ?_,
    fun pre i post heq j hj => ?_⟩⟩
  · exact (h.held i (hsplit ▸ hi)).active hpending
  · rw [hsplit] at hi
    rcases mem_cons.mp hi with rfl | hi
    · exact hmove
    · obtain ⟨pre, post, rfl⟩ := append_of_mem hi
      obtain ⟨k, -, hfollows⟩ := h.follows (cons_append ..).symm (cons_ne_nil move pre)
      exact fun hP => hfollows.2.1 (Finset.mem_insert_of_mem hP)
  · rw [hsplit] at heq
    cases pre with
    | nil => grind
    | cons x pre =>
      obtain ⟨k, hk, hfollows⟩ := h.follows heq (cons_ne_nil _ _)
      exact .inl ((hfollows.2.2 j).mp hj ▸ hk)

/-- A path that does not come back is a path further up. -/
theorem Path.snoc {front move last : ℕ}
    (h : Path p (insert move P) g (front :: c) last) (hfront : front ≠ move)
    (hactive : Active g move) (hmove : move ∉ P) (hlast : ∀ j, Blocks p g j move ↔ j = last) :
    Path p P g (front :: c ++ [move]) move where
  head := by
    obtain ⟨top, htop, hhead⟩ := h.head
    obtain rfl : front = top := Option.some.inj hhead
    exact ⟨front, Finset.mem_of_mem_insert_of_ne htop hfront, rfl⟩
  chain := by
    refine isChain_append.mpr ⟨h.chain.imp fun j i hi => ?_, .singleton move, ?_⟩
    · exact ⟨hi.1, fun hP => hi.2.1 (Finset.mem_insert_of_mem hP), hi.2.2⟩
    · intro j hj i hi
      obtain rfl : move = i := Option.some.inj hi
      obtain rfl : last = j := Option.some.inj (h.last_eq.symm.trans hj)
      exact ⟨hactive, hmove, hlast⟩
  last_eq := getLast?_concat ..

/-- **`PerformMoveHelper` comes back**, in one of the three ways, when its
depth is bounded by the number of moves that are not pending. -/
theorem performMoveHelper_spec (depth : ℕ) : ∀ (P : Finset ℕ) (g : GapResolver) (move : ℕ),
    p.moves.length < depth + P.card → Shape p P g → Correct p V g → Active g move → move ∉ P →
      ∃ r, performMoveHelper config depth g move = some r ∧ Searched p P V g r.state ∧
        Result p P move r := by
  induction depth with
  | zero =>
    intro P g move hdepth hshape
    have hsubset : P ⊆ Finset.range p.moves.length :=
      fun i hi => Finset.mem_range.mpr (hshape.lt (hshape.pending i hi))
    have hcard := Finset.card_le_card hsubset
    rw [Finset.card_range] at hcard
    omega
  | succ depth ih =>
    intro P g move hdepth hshape hcorrect hactive hmove
    have hdestination : (g.moveAt move).destination = (original p move).destination := by
      rw [hshape.destination move hactive, if_neg hmove]
    obtain ⟨hext₁, hshape₁, hcorrect₁⟩ :=
      Searched.setMove (m := ⟨(g.moveAt move).source, .invalid⟩)
        hactive rfl hshape hcorrect (if_pos (Finset.mem_insert_self move P)).symm
        (fun j hj => by simp [hj]) subset_rfl
    set g₁ := g.setMove move ⟨(g.moveAt move).source, .invalid⟩ with hg₁
    have hscanning : Scanning p (insert move P) move (List.range g.moves.length) g₁ [] :=
      .free fun j hj => mem_range.mpr (hext₁.active hj.1).lt
    obtain ⟨r, hr, hsearched, hscanned⟩ := scan_spec (fun g i hg hc hi hP => ih (insert move P) g i
        (by rw [Finset.card_insert_of_notMem hmove]; omega) hg hc hi hP)
      _ g₁ [] hshape₁ hcorrect₁ hscanning
    rw [← hdestination] at hr
    simp only [performMoveHelper, ← hg₁, hr, bind_eq_bind, bind_some]
    have hactive' : Active r.state move := hsearched.shape.pending move (Finset.mem_insert_self ..)
    have hsource : (g.moveAt move).source = (r.state.moveAt move).source :=
      ((hsearched.ext.source move hactive').trans
        (hext₁.source move (hsearched.ext.active hactive'))).symm
    obtain ⟨hext₂, hshape₂, hcorrect₂⟩ :=
      Searched.setMove
        hactive' hsource hsearched.shape hsearched.correct (by rw [hdestination, if_neg hmove])
        (fun j hj => by simp [hj]) subset_rfl
    set g₂ := r.state.setMove move (g.moveAt move) with hg₂
    have hsearched₂ : Searched p P V g g₂ :=
      ⟨(hext₁.trans (hsearched.ext.mono (Finset.subset_insert move P))).trans
        (hext₂.mono (Finset.subset_insert move P)), hshape₂, hcorrect₂⟩
    have hactive₂ : Active g₂ move := (active_setMove hactive' hsource move).mpr hactive'
    have hmove₂ : g₂.moveAt move = g.moveAt move := by
      rw [hg₂, moveAt_setMove _ hactive'.lt, if_pos rfl]
    have hblocks₂ : ∀ {j k}, Blocks p g₂ j k ↔ Blocks p r.state j k :=
      blocks_setMove hactive' hsource
    cases hscanned with
    | blocked hb => exact ⟨_, rfl, hsearched₂, .blocked (hblocks₂.mpr hb) hactive₂⟩
    | free hfree =>
      have heliminates := assemble_eliminates hshape₂ hcorrect₂ hactive₂ hmove
        (fun j hj => hfree j (hblocks₂.mp hj))
      rw [assemble, hmove₂] at heliminates
      refine ⟨_, rfl, hsearched₂.trans (heliminates.searched hshape₂ ?_),
        .done (heliminates.not_active (mem_singleton_self move))⟩
      intro i hi
      obtain rfl := mem_singleton.mp hi
      exact ⟨hmove, fun j hj => absurd (hblocks₂.mp hj) (hfree j)⟩
    | @path g' c last hpath hlast =>
      have hpath₂ : Path p (insert move P) g₂ c last := hpath.extends hext₂
      have hlast₂ : ∀ j, Blocks p g₂ j move ↔ j = last := fun j => hblocks₂.trans (hlast j)
      obtain ⟨front, c, rfl⟩ := exists_cons_of_ne_nil (ne_nil_of_mem hpath.last_mem)
      by_cases hfront : front = move
      · subst hfront
        obtain ⟨hsplit, hclosed⟩ := hpath₂.closed hshape₂ hactive₂ hmove hlast₂
        have hgetLast : (front :: c).getLastD front = last := by grind
        have heliminates := performCycle_spec hshape₂ hclosed hcorrect₂
        rw [hsplit] at heliminates
        refine ⟨_, by dsimp only; rw [if_pos rfl, hgetLast]; rfl,
          hsearched₂.trans (heliminates.searched hshape₂ fun i hi => ?_),
          .done (heliminates.not_active mem_cons_self)⟩
        rw [← hsplit] at hi ⊢
        exact ⟨hclosed.not_pending i hi, fun j hj => hclosed.mem_of_blocks hi hj⟩
      · refine ⟨_, by dsimp only; rw [if_neg hfront]; rfl, hsearched₂, .path ?_⟩
        exact hpath₂.snoc hfront hactive₂ hmove hlast₂

/-! ## Pushing sources -/

theorem eq_invalid_of_interferesWith {op : InstructionOperand}
    (h : op.interferesWith config .invalid = true) : op = .invalid := by
  rcases op with _ | v | ⟨kind, rep, index⟩
  · rfl
  · simp [interferesWith, equalsCanonicalized, canonicalized] at h
  · cases kind <;> simp [interferesWith, equalsCanonicalized, canonicalized] at h

theorem Blocks.lt {b i : ℕ} (h : Blocks p g b i) : i < p.moves.length := by
  by_contra hi
  have hinterferes := h.2.2
  rw [original, getElem?_eq_none (not_lt.mp hi)] at hinterferes
  exact h.1 (eq_invalid_of_interferesWith hinterferes)

/-- A slot blocks nothing. -/
theorem Blocks.source_ne_slot {b i : ℕ} (h : Blocks p g b i) (k : ℕ) :
    (g.moveAt b).source ≠ slots k := by
  intro hslot
  have hinterferes := h.2.2
  rw [hslot, interferesWith_comm, p.destination_slot k _ (original_mem h.lt)] at hinterferes
  cases hinterferes

section Push

variable {b : ℕ} (hb : Active g b)

include hb

theorem moveAt_pushSource (i : ℕ) : (pushSource slots g b).moveAt i =
    if (g.moveAt i).source = (g.moveAt b).source then ⟨slots g.pushes, (g.moveAt i).destination⟩
    else g.moveAt i := by
  show ((g.moves.map _)[i]?).getD MoveOperands.eliminated = _
  rw [getElem?_map, show g.moveAt i = g.moves[i]?.getD .eliminated from rfl]
  cases g.moves[i]? with
  | some m => rfl
  | none => exact (if_neg (Ne.symm hb)).symm

theorem destination_pushSource (i : ℕ) :
    ((pushSource slots g b).moveAt i).destination = (g.moveAt i).destination := by
  rw [moveAt_pushSource hb]
  split <;> rfl

variable (hvalid : ∀ k, slots k ≠ .invalid)

include hvalid

theorem active_pushSource (i : ℕ) : Active (pushSource slots g b) i ↔ Active g i := by
  unfold Active
  rw [moveAt_pushSource hb]
  split
  · next hsource => exact ⟨fun _ => hsource ▸ hb, fun _ => hvalid _⟩
  · rfl

end Push

theorem Shape.pushSource {b : ℕ} (h : Shape p ∅ g) (hb : Active g b) :
    Shape p ∅ (pushSource slots g b) where
  length := (length_map ..).trans h.length
  eliminated i hi := by
    rw [active_pushSource hb p.slot_valid] at hi
    rw [moveAt_pushSource hb, h.eliminated i hi]
    exact if_neg (Ne.symm hb)
  destination i hi := by
    rw [destination_pushSource hb]
    exact h.destination i ((active_pushSource hb p.slot_valid i).mp hi)
  source i hi := by
    rw [moveAt_pushSource hb]
    split
    · exact .inr ⟨g.pushes, lt_succ_self _, rfl⟩
    · refine (h.source i ((active_pushSource hb p.slot_valid i).mp hi)).imp_right ?_
      exact fun ⟨k, hk, hsource⟩ => ⟨k, hk.trans (lt_succ_self _), hsource⟩
  pending i hi := absurd hi (Finset.notMem_empty i)

/-- An active source does not interfere with the next slot. -/
theorem Shape.source_slot (h : Shape p P g) (hi : Active g i) :
    (g.moveAt i).source.interferesWith config (slots g.pushes) = false := by
  rcases h.source i hi with hsource | ⟨k, hk, hsource⟩
  · rw [hsource]
    exact p.source_slot _ _ (original_mem (h.lt hi))
  · rw [hsource]
    exact p.slot_slot k _ hk.ne

theorem Correct.pushSource {b : ℕ} (hcorrect : Correct p V g) (h : Shape p ∅ g)
    (hb : Active g b) : Correct p V (pushSource slots g b) := by
  intro m₀ m' hm'
  obtain ⟨m, hm, hvalue, hkeeps⟩ := hm'.concat_inv
  have hholds := hcorrect m₀ m hm
  refine ⟨fun i hi => ?_, fun i hlt hi hX => ?_, fun x hx => ?_⟩
  · rw [active_pushSource hb p.slot_valid] at hi
    rw [moveAt_pushSource hb, ← hholds.live i hi]
    split
    · next hsource => rw [hvalue, hsource]
    · exact hkeeps _ (h.source_slot hi)
  · rw [active_pushSource hb p.slot_valid] at hi
    rw [hkeeps _ (p.destination_slot _ _ (original_mem hlt)), hholds.done i hlt hi hX]
  · rw [hkeeps _ (hx.2 _), hholds.frame x hx]

/-! ## The moves one after the other -/

variable (p) in
/-- The moves whose sources have not been pushed. -/
def unpushed (g : GapResolver) : Finset ℕ :=
  (Finset.range p.moves.length).filter fun i => (g.moveAt i).source = (original p i).source

theorem Extends.unpushed_subset (h : Extends p P g g') : unpushed p g' ⊆ unpushed p g := by
  intro i hi
  obtain ⟨hlt, hsource⟩ := Finset.mem_filter.mp hi
  refine Finset.mem_filter.mpr ⟨hlt, ?_⟩
  rw [← hsource, h.source i]
  unfold Active
  rw [hsource]
  exact p.source_valid _ (original_mem (Finset.mem_range.mp hlt))

/-- **Each push is of a source that had not been pushed.** -/
theorem unpushed_pushSource {b i : ℕ} (hshape : Shape p ∅ g) (hb : Blocks p g b i) :
    unpushed p (pushSource slots g b) ⊂ unpushed p g := by
  have horiginal : ∀ j, (g.moveAt j).source = (g.moveAt b).source →
      (g.moveAt j).source = (original p j).source := by
    intro j hj
    have hactive : Active g j := fun hinvalid => hb.1 (hj ▸ hinvalid)
    rcases hshape.source j hactive with hsource | ⟨k, -, hsource⟩
    · exact hsource
    · exact absurd (hj ▸ hsource) (hb.source_ne_slot k)
  have hlt : b ∈ Finset.range p.moves.length := Finset.mem_range.mpr (hshape.lt hb.1)
  refine Finset.ssubset_iff_subset_ne.mpr ⟨fun j hj => ?_, fun heq => ?_⟩
  · obtain ⟨hj, hsource'⟩ := Finset.mem_filter.mp hj
    refine Finset.mem_filter.mpr ⟨hj, ?_⟩
    rw [moveAt_pushSource hb.1] at hsource'
    split at hsource'
    · next hsame => exact horiginal j hsame
    · exact hsource'
  · have hmem : b ∈ unpushed p (pushSource slots g b) :=
      heq ▸ Finset.mem_filter.mpr ⟨hlt, horiginal b rfl⟩
    have hslot := (Finset.mem_filter.mp hmem).2
    rw [moveAt_pushSource hb.1, if_pos rfl, ← horiginal b rfl] at hslot
    exact hb.source_ne_slot _ hslot.symm

/-- **`PerformMove` does a move.** -/
theorem performMove_spec (n : ℕ) : ∀ (g : GapResolver) (move : ℕ), (unpushed p g).card < n →
    Shape p ∅ g → Correct p V g → Active g move →
      ∃ g', performMove config slots n g move = some g' ∧ Shape p ∅ g' ∧ Correct p V g' ∧
        ¬ Active g' move ∧ ∀ i, ¬ Active g i → ¬ Active g' i := by
  induction n with
  | zero => exact fun g move hn => absurd hn (Nat.not_lt_zero _)
  | succ n ih =>
    intro g move hn hshape hcorrect hactive
    obtain ⟨r, hr, ⟨hext, hshape', hcorrect'⟩, hresult⟩ := performMoveHelper_spec
      (g.moves.length + 1) ∅ g move (by rw [hshape.length]; exact lt_succ_self _)
      hshape hcorrect hactive (Finset.notMem_empty move)
    unfold performMove
    rw [hr]
    cases hresult with
    | @blocked g' c b i hb hmove =>
      have hcard : (unpushed p (pushSource slots g' b)).card < (unpushed p g').card :=
        Finset.card_lt_card (unpushed_pushSource hshape' hb)
      have hcard' : (unpushed p g').card ≤ (unpushed p g).card :=
        Finset.card_le_card hext.unpushed_subset
      have hpush := active_pushSource hb.1 p.slot_valid
      obtain ⟨g'', hg'', hshape'', hcorrect'', hdone, hmono⟩ := ih (pushSource slots g' b) move
        (by omega) (hshape'.pushSource hb.1) (hcorrect'.pushSource hshape' hb.1)
        ((hpush move).mpr hmove)
      refine ⟨g'', hg'', hshape'', hcorrect'', hdone, fun i hi => hmono i fun hact => hi ?_⟩
      exact hext.active ((hpush i).mp hact)
    | done hdone =>
      exact ⟨_, rfl, hshape', hcorrect', hdone, fun i hi hact => hi (hext.active hact)⟩
    | path hpath =>
      obtain ⟨top, htop, -⟩ := hpath.head
      exact absurd htop (Finset.notMem_empty top)

/-- **All moves are done.** -/
theorem resolveLoop_spec (todo : List ℕ) : ∀ g, Shape p ∅ g → Correct p V g →
    ∃ g', resolveLoop config slots todo g = some g' ∧ Correct p V g' ∧
      ∀ i, (i ∈ todo ∨ ¬ Active g i) → ¬ Active g' i := by
  induction todo with
  | nil =>
    exact fun g _ hcorrect =>
      ⟨g, rfl, hcorrect, fun i hi => hi.resolve_left not_mem_nil⟩
  | cons i rest ih =>
    intro g hshape hcorrect
    unfold resolveLoop
    split
    · next heliminated =>
      obtain ⟨g', hg', hcorrect', hdone⟩ := ih g hshape hcorrect
      refine ⟨g', hg', hcorrect', fun j hj => hdone j ?_⟩
      rcases hj with hj | hj
      · rcases mem_cons.mp hj with rfl | hj
        · exact .inr (isEliminated_iff.mp heliminated)
        · exact .inl hj
      · exact .inr hj
    · next hactive =>
      have hcard : (unpushed p g).card < g.moves.length + 1 := by
        rw [hshape.length, ← Finset.card_range p.moves.length]
        exact lt_succ_of_le (Finset.card_le_card (Finset.filter_subset _ _))
      obtain ⟨g₁, hg₁, hshape₁, hcorrect₁, hdone₁, hmono₁⟩ :=
        performMove_spec _ g i hcard hshape hcorrect (isEliminated_iff.not_left.mp hactive)
      obtain ⟨g', hg', hcorrect', hdone⟩ := ih g₁ hshape₁ hcorrect₁
      refine ⟨g', by rw [hg₁]; exact hg', hcorrect', fun j hj => hdone j ?_⟩
      rcases hj with hj | hj
      · grind
      · exact .inr (hmono₁ j hj)

/-! ## The whole parallel move -/

theorem removeRedundant_perm (moves : List MoveOperands) :
    (removeRedundant config moves).Perm (moves.filter fun m => !m.isRedundant config) := by
  fun_induction removeRedundant config moves with
  | case1 => exact .nil
  | case2 move rest hredundant hlast =>
    rw [getLast?_eq_none_iff.mp hlast]
    simp [hredundant]
  | case3 move rest hredundant last hlast ih =>
    have hrest := dropLast_append_getLast? last hlast
    have hperm : (last :: rest.dropLast).Perm rest := by
      conv_rhs => rw [← hrest]
      exact (perm_append_singleton last _).symm
    refine ih.trans ((hperm.filter _).trans ?_)
    rw [filter_cons_of_neg (by simp [hredundant])]
  | case4 move rest hredundant ih => grind

variable (config slots) in
/-- **What a parallel move is**: the destinations of its moves do not interfere,
and the slots that are pushed interfere with no operand. -/
structure Resolvable (moves : List MoveOperands) : Prop where
  destination_valid : ∀ m ∈ moves, m.isEliminated = false → m.destination ≠ .invalid
  apart : (moves.filter fun m => !m.isEliminated).Pairwise fun m m' =>
    m.destination.interferesWith config m'.destination = false
  slot_valid : ∀ k, slots k ≠ .invalid
  slot_slot : ∀ j k, j ≠ k → (slots j).interferesWith config (slots k) = false
  source_slot : ∀ k, ∀ m ∈ moves, m.isEliminated = false →
    m.source.interferesWith config (slots k) = false
  destination_slot : ∀ k, ∀ m ∈ moves, m.isEliminated = false →
    m.destination.interferesWith config (slots k) = false

variable {moves : List MoveOperands}

theorem mem_removeRedundant :
    m ∈ removeRedundant config moves ↔ m ∈ moves ∧ m.isRedundant config = false := by
  rw [(removeRedundant_perm moves).mem_iff, mem_filter, Bool.not_eq_true']

theorem isEliminated_eq_false_of_not_redundant
    (h : m.isRedundant config = false) : m.isEliminated = false :=
  (Bool.or_eq_false_iff.mp h).1

/-- The moves that are not redundant, as a parallel move. -/
def Resolvable.parallelMove (h : Resolvable config slots moves) : ParallelMove config slots where
  moves := removeRedundant config moves
  source_valid m hm := by
    have := isEliminated_eq_false_of_not_redundant (mem_removeRedundant.mp hm).2
    exact of_decide_eq_false this
  destination_valid m hm := by
    obtain ⟨hm, hredundant⟩ := mem_removeRedundant.mp hm
    exact h.destination_valid m hm (isEliminated_eq_false_of_not_redundant hredundant)
  apart := by
    rw [(removeRedundant_perm moves).pairwise_iff fun hinterferes => by
      rw [interferesWith_comm]; exact hinterferes]
    refine List.Pairwise.sublist ?_ h.apart
    refine monotone_filter_right moves fun m hm => ?_
    rw [Bool.not_eq_true'] at hm ⊢
    exact isEliminated_eq_false_of_not_redundant hm
  slot_valid := h.slot_valid
  slot_slot := h.slot_slot
  source_slot k m hm := by
    obtain ⟨hm, hredundant⟩ := mem_removeRedundant.mp hm
    exact h.source_slot k m hm (isEliminated_eq_false_of_not_redundant hredundant)
  destination_slot k m hm := by
    obtain ⟨hm, hredundant⟩ := mem_removeRedundant.mp hm
    exact h.destination_slot k m hm (isEliminated_eq_false_of_not_redundant hredundant)

variable (p) in
/-- The state in which the search starts. -/
def start : GapResolver := ⟨p.moves, [], 0⟩

theorem active_start : Active (start p) i ↔ i < p.moves.length :=
  ⟨Active.lt, fun hi => p.source_valid _ (original_mem hi)⟩

theorem shape_start : Shape p ∅ (start p) where
  length := rfl
  eliminated _ hi := moveAt_eq_eliminated (not_lt.mp fun hlt => hi (active_start.mpr hlt))
  destination i _ := (if_neg (Finset.notMem_empty i)).symm
  source _ _ := .inl rfl
  pending i hi := absurd hi (Finset.notMem_empty i)

theorem correct_start : Correct p V (start p) := by
  intro m₀ m hm
  obtain rfl := hm.nil_inv
  exact ⟨fun i _ => rfl, fun i hlt hi => absurd (active_start.mpr hlt) hi, fun x _ => rfl⟩

/-- **The code when all moves are eliminated.** -/
theorem Correct.finish {m₀ m : GapMemory V} (hcorrect : Correct p V g)
    (hdone : ∀ i, ¬ Active g i) (hm : Runs config slots g.code m₀ m) :
    (∀ move ∈ p.moves, m.view move.destination = m₀.view move.source) ∧
      ∀ x, Clear p x → m.view x = m₀.view x := by
  have hholds := hcorrect m₀ m hm
  refine ⟨fun move hmove => ?_, hholds.frame⟩
  obtain ⟨i, hi, rfl⟩ := getElem_of_mem hmove
  have hoperands := hholds.done i hi (hdone i) (Set.notMem_empty i)
  rwa [original, getElem?_eq_getElem hi] at hoperands

theorem code_foldl_assemble (l : List ℕ) (hl : l.Nodup) : ∀ g : GapResolver,
    (l.foldl assemble g).code =
      g.code ++ l.map fun i => .assembleMove (g.moveAt i).source (g.moveAt i).destination := by
  induction l with
  | nil => exact fun g => (append_nil _).symm
  | cons i rest ih =>
    intro g
    obtain ⟨hi, hrest⟩ := nodup_cons.mp hl
    have hsame : ∀ j ∈ rest, (g.assemble i).moveAt j = g.moveAt j := fun j hj => by
      rw [assemble, moveAt_eliminate, if_neg fun hji : j = i => hi (hji ▸ hj)]
      rfl
    rw [foldl_cons, ih hrest, map_congr_left fun j hj => by rw [hsame j hj],
      map_cons, ← singleton_append, ← append_assoc]
    rfl

/-- **The fast path**: moves that do not block each other, in their order. -/
theorem fastPath_spec (hfree : ∀ j i, ¬ Blocks p (start p) j i) {m₀ m : GapMemory V}
    (hm : Runs config slots (p.moves.map fun m => .assembleMove m.source m.destination) m₀ m) :
    (∀ move ∈ p.moves, m.view move.destination = m₀.view move.source) ∧
      ∀ x, Clear p x → m.view x = m₀.view x := by
  have hassemblable : Assemblable p ∅ (start p) (List.range p.moves.length) :=
    ⟨nodup_range, fun i hi => active_start.mpr (mem_range.mp hi),
      fun i _ => Finset.notMem_empty i, fun _ i _ _ j hj => absurd hj (hfree j i)⟩
  obtain ⟨-, -, hmoveAt, hruns⟩ := foldl_assemble_spec _ _ shape_start hassemblable
  have hcode : ((List.range p.moves.length).foldl assemble (start p)).code =
      p.moves.map fun m => .assembleMove m.source m.destination := by
    rw [code_foldl_assemble _ nodup_range]
    refine ext_getElem (by simp [start]) fun i hi hi' => ?_
    simp only [start, nil_append, getElem_map, getElem_range, moveAt]
    rw [getElem?_eq_getElem (by simpa using hi')]
    rfl
  have hcorrect : Correct p V ((List.range p.moves.length).foldl assemble (start p)) := by
    intro m₀ m' hm'
    obtain ⟨m, hm, -, hholds⟩ := hruns m₀ m' hm'
    exact hholds ∅ (correct_start m₀ m hm)
  refine hcorrect.finish (fun i => ?_) (hcode ▸ hm)
  unfold Active
  rw [hmoveAt]
  split
  · exact fun hne => hne rfl
  · next hi =>
    rw [mem_range] at hi
    exact fun hne => hi (active_start.mp hne)

/-- Moves without a kind in common between sources and destinations do not
block each other, and less than two moves do not either. -/
theorem not_blocks_start (h : (∀ m ∈ p.moves, ∀ m' ∈ p.moves,
    m.source.getKind ≠ m'.destination.getKind) ∨ p.moves.length < 2) (j i : ℕ) :
    ¬ Blocks p (start p) j i := by
  intro hb
  have hj := active_start.mp hb.1
  rcases h with hkind | hlength
  · exact hkind _ (original_mem hj) _ (original_mem hb.lt) (getKind_eq_of_interferesWith hb.2.2)
  · have := hb.2.1
    have := hb.lt
    omega

/-- **The moves that are not redundant are resolved.** -/
theorem resolve_spec (p : ParallelMove config slots) :
    ∃ code, (if (∀ m ∈ p.moves, ∀ m' ∈ p.moves, m.source.getKind ≠ m'.destination.getKind) ∨
          p.moves.length < 2 then
        some (p.moves.map fun m => GapInstr.assembleMove m.source m.destination)
      else (resolveLoop config slots (List.range p.moves.length) (start p)).map
        fun g => g.code ++ [.popTempStackSlots]) = some code ∧
      ∀ m₀ m : GapMemory V, Runs config slots code m₀ m →
        (∀ move ∈ p.moves, m.view move.destination = m₀.view move.source) ∧
          ∀ x, Clear p x → m.view x = m₀.view x := by
  split
  · next hfast =>
    exact ⟨_, rfl, fun m₀ m hm => fastPath_spec (not_blocks_start hfast) hm⟩
  · obtain ⟨g, hg, hcorrect, hdone⟩ :=
      resolveLoop_spec (List.range p.moves.length) (start p) shape_start correct_start
    have hinactive : ∀ i, ¬ Active g i := by
      refine fun i => hdone i ?_
      rw [mem_range, active_start]
      exact em _
    refine ⟨_, by rw [hg]; rfl, fun m₀ m hm => ?_⟩
    obtain ⟨m₁, hm₁, hpop⟩ := hm.concat_inv
    obtain ⟨hmoves, hframe⟩ := hcorrect.finish hinactive hm₁
    refine ⟨fun move hmove => ?_, fun x hx => ?_⟩
    · rw [hpop _ fun k => p.destination_slot k move hmove, hmoves move hmove]
    · rw [hpop x hx.2, hframe x hx]

/-- **`Resolve` resolves parallel moves.** It comes back for every parallel
move, and however its operations are implemented, every destination then holds
what its source did. A redundant move has one location as its source and
destination, and that is as it was. So is every location that is no
destination. -/
theorem resolve_correct (h : Resolvable config slots moves) :
    ∃ code, resolve config slots moves = some code ∧
      ∀ m₀ : GapMemory V, (∃ m, Runs config slots code m₀ m) ∧
        ∀ m, Runs config slots code m₀ m →
          (∀ move ∈ moves, move.isEliminated = false →
            if move.source.equalsCanonicalized config move.destination then
              m.view move.destination = m₀.view move.destination
            else m.view move.destination = m₀.view move.source) ∧
          ∀ x, (∀ move ∈ moves, move.isEliminated = false →
              x.interferesWith config move.destination = false) →
            (∀ k, x.interferesWith config (slots k) = false) → m.view x = m₀.view x := by
  obtain ⟨code, hcode, hruns⟩ := resolve_spec (V := V) h.parallelMove
  refine ⟨code, hcode, fun m₀ => ⟨exists_runs code m₀, fun m hm => ?_⟩⟩
  obtain ⟨hmoves, hframe⟩ := hruns m₀ m hm
  refine ⟨fun move hmove helim => ?_, fun x hx hslots => ?_⟩
  · split
    · next hequal =>
      -- the destination of a redundant move is none of the others'
      refine hframe _ ⟨fun other hother => ?_, fun k => h.destination_slot k move hmove helim⟩
      obtain ⟨hmem, hredundant⟩ := mem_removeRedundant.mp hother
      have hother' := isEliminated_eq_false_of_not_redundant hredundant
      have hsymm : Std.Symm fun m m' : MoveOperands =>
          m.destination.interferesWith config m'.destination = false :=
        ⟨fun m m' hm => by rw [interferesWith_comm]; exact hm⟩
      refine h.apart.forall ?_ ?_ ?_
      · exact mem_filter.mpr ⟨hmove, by rw [helim]; rfl⟩
      · exact mem_filter.mpr ⟨hmem, by rw [hother']; rfl⟩
      · rintro rfl
        rw [isRedundant, hequal, Bool.or_true] at hredundant
        cases hredundant
    · next hequal =>
      refine hmoves move (mem_removeRedundant.mpr ⟨hmove, ?_⟩)
      rw [isRedundant, helim, Bool.false_or]
      exact Bool.eq_false_of_not_eq_true hequal
  · refine hframe x ⟨fun move hmove => ?_, hslots⟩
    obtain ⟨hmove, hredundant⟩ := mem_removeRedundant.mp hmove
    exact hx move hmove (isEliminated_eq_false_of_not_redundant hredundant)

/-- Two cycles through one register: a register is loaded from two slots, and
stored to each of them. -/
theorem resolve_correct_twoCycles :
    let x64 : TargetConfig := ⟨.kOverlap, 8, 4, by decide, by decide⟩
    let slots : ℕ → InstructionOperand := fun k => .location .stackSlot .kSimd128 (10 + 2 * k)
    let xmm (rep : MachineRepresentation) := InstructionOperand.location .register rep 0
    let stack (rep : MachineRepresentation) (i : ℤ) := InstructionOperand.location .stackSlot rep i
    ∃ code, resolve x64 slots [⟨stack .kSimd128 4, xmm .kSimd128⟩,
        ⟨xmm .kFloat64, stack .kFloat64 4⟩, ⟨xmm .kFloat64, stack .kFloat64 3⟩] = some code ∧
      ∀ m₀ m : GapMemory ℕ, Runs x64 slots code m₀ m →
        m.view (xmm .kSimd128) = m₀.view (stack .kSimd128 4) ∧
          m.view (stack .kFloat64 3) = m₀.view (xmm .kFloat64) := by
  intro x64 slots xmm stack
  have hresolvable : Resolvable x64 slots [⟨stack .kSimd128 4, xmm .kSimd128⟩,
      ⟨xmm .kFloat64, stack .kFloat64 4⟩, ⟨xmm .kFloat64, stack .kFloat64 3⟩] := by
    refine ⟨by decide, by decide, fun k => by simp [slots], fun j k hjk => ?_, fun k => ?_,
      fun k => ?_⟩
    all_goals simp [slots, x64, xmm, stack, interferesWith, numSlots,
      elementSizeInBytes, equalsCanonicalized, canonicalized]
    all_goals omega
  obtain ⟨code, hcode, hruns⟩ := resolve_correct (V := ℕ) hresolvable
  refine ⟨code, hcode, fun m₀ m hm => ?_⟩
  obtain ⟨hmoves, -⟩ := (hruns m₀).2 m hm
  exact ⟨hmoves ⟨stack .kSimd128 4, xmm .kSimd128⟩ (by simp) rfl,
    hmoves ⟨xmm .kFloat64, stack .kFloat64 3⟩ (by simp) rfl⟩

end GapResolver
