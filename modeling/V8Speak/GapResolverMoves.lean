import V8Speak.GapResolver

/-!
# Moves and cycles of the gap resolver

The operations of the assembler are known by what they leave in the locations:
a move puts the value of its source into its destination, and every operand
that does not interfere with the destination keeps its value (`Exec`). Of an
operand that does, nothing is known afterwards.

A move *blocks* another if its source interferes with the destination of the
other. What keeps the search of the resolver right is that it eliminates moves
only in groups that nothing outside blocks: a single move without a blocking
move, or a cycle each of whose moves is blocked by its predecessor alone. So a
move that is blocked, through others, by a pending one is still there when the
search comes back to that (`Held`, `Extends`). In particular the moves of a
cycle are, while the search returns along it.

A group that is eliminated is also done: moves in an order in which each is
blocked by earlier ones only (`foldl_assemble_spec`), and a cycle through the
temporary location or as a swap (`performCycle_spec`).
-/

open List InstructionOperand Function

/-! ## Interference -/

namespace InstructionOperand

variable (config : TargetConfig)

theorem equalsCanonicalized_comm (op other : InstructionOperand) :
    op.equalsCanonicalized config other = other.equalsCanonicalized config op := by
  exact decide_eq_decide.mpr eq_comm

theorem areAliases_comm {rep otherRep : MachineRepresentation} (index otherIndex : ℤ)
    (hrep : rep.isFloatingPoint = true) (hother : otherRep.isFloatingPoint = true) :
    areAliases rep index otherRep otherIndex = areAliases otherRep otherIndex rep index := by
  cases rep <;> cases hrep <;> cases otherRep <;> cases hother <;>
    exact decide_eq_decide.mpr eq_comm

theorem interferesWith_comm (op other : InstructionOperand) :
    op.interferesWith config other = other.interferesWith config op := by
  have hcomm := equalsCanonicalized_comm config
  rcases op with _ | v | ⟨kind, rep, index⟩ <;> rcases other with _ | v' | ⟨kind', rep', index'⟩
  all_goals try exact hcomm _ _
  · cases kind' <;> exact hcomm _ _
  · cases kind' <;> exact hcomm _ _
  · cases kind <;> exact hcomm _ _
  · cases kind <;> exact hcomm _ _
  · have hfp : (config.fpAliasing = .kCombine ∧ rep.isFloatingPoint ∧ rep'.isFloatingPoint) ↔
        (config.fpAliasing = .kCombine ∧ rep'.isFloatingPoint ∧ rep.isFloatingPoint) := by tauto
    cases kind <;> cases kind' <;> simp only [interferesWith, hcomm (location _ rep index), hfp]
    · by_cases h : config.fpAliasing = .kCombine ∧ rep'.isFloatingPoint ∧ rep.isFloatingPoint
      · simp only [if_pos h, areAliases_comm index index' h.2.2 h.2.1, eq_comm (a := rep)]
      · rw [if_neg h, if_neg h]
    · rfl
    · rfl
    · simp [or_comm, and_comm, gt_iff_lt]

theorem interferesWith_self (op : InstructionOperand) : op.interferesWith config op = true := by
  have hself : ∀ op : InstructionOperand, op.equalsCanonicalized config op = true :=
    fun op => decide_eq_true rfl
  rcases op with _ | v | ⟨_ | _, rep, index⟩
  · exact hself _
  · exact hself _
  · simp [interferesWith, hself]
  · grind [interferesWith, decide_eq_true]

variable {op other : InstructionOperand}

theorem getKind_eq_of_equalsCanonicalized {config : TargetConfig}
    (h : op.equalsCanonicalized config other = true) : op.getKind = other.getKind := by
  have heq : op.canonicalized config = other.canonicalized config := of_decide_eq_true h
  have hkind : ∀ op : InstructionOperand, (op.canonicalized config).getKind = op.getKind := by
    rintro (_ | v | ⟨_ | _, rep, index⟩)
    · rfl
    · rfl
    · cases haliasing : config.fpAliasing <;> cases rep <;>
        simp [canonicalized, getKind, haliasing, MachineRepresentation.isFloatingPoint]
    · rfl
  rw [← hkind op, heq, hkind]

/-- **Operands that interfere are of one kind**: constants, registers of a
sort or stack slots. -/
theorem getKind_eq_of_interferesWith {config : TargetConfig}
    (h : op.interferesWith config other = true) : op.getKind = other.getKind := by
  unfold interferesWith at h
  split at h
  · rfl
  · rename_i kind rep index kind' rep' index' _
    split at h
    · rename_i hfp
      split at h
      · cases h
      · rename_i hkind
        obtain rfl : kind = kind' := not_not.mp hkind
        cases kind
        · rw [getKind, getKind, if_pos hfp.2.1, if_pos hfp.2.2]
        · rfl
    · exact getKind_eq_of_equalsCanonicalized h
  · exact getKind_eq_of_equalsCanonicalized h
end InstructionOperand

/-! ## What the operations mean -/

/-- The values of the operands, and that of the temporary location. -/
structure GapMemory (V : Type) where
  view : InstructionOperand → V
  temp : V

section Semantics

variable {V : Type} (config : TargetConfig) (slots : ℕ → InstructionOperand)

/-- Operands that do not interfere with one keep their values. -/
def KeepsOthers (d : InstructionOperand) (m m' : GapMemory V) : Prop :=
  ∀ x, x.interferesWith config d = false → m'.view x = m.view x

/-- **What an operation does.** -/
def Exec : GapInstr → GapMemory V → GapMemory V → Prop
  | .assembleMove source destination, m, m' =>
    m'.view destination = m.view source ∧ KeepsOthers config destination m m' ∧ m'.temp = m.temp
  | .assembleSwap a b, m, m' =>
    m'.view a = m.view b ∧ m'.view b = m.view a ∧
      ∀ x, x.interferesWith config a = false → x.interferesWith config b = false →
        m'.view x = m.view x
  | .setPendingMove _, m, m' => m' = m
  | .moveToTempLocation source _, m, m' => m'.temp = m.view source ∧ m'.view = m.view
  | .moveTempLocationTo destination _, m, m' =>
    m'.view destination = m.temp ∧ KeepsOthers config destination m m'
  | .push source slot, m, m' => m'.view slot = m.view source ∧ KeepsOthers config slot m m'
  | .popTempStackSlots, m, m' =>
    ∀ x, (∀ k, x.interferesWith config (slots k) = false) → m'.view x = m.view x

/-- A sequence of operations. -/
inductive Runs : List GapInstr → GapMemory V → GapMemory V → Prop
  | nil (m) : Runs [] m m
  | concat {code m m₁ m' instr} (hcode : Runs code m m₁) (hinstr : Exec config slots instr m₁ m') :
    Runs (code ++ [instr]) m m'

variable {config slots}

variable {m m' : GapMemory V}

theorem Runs.concat_inv {code : List GapInstr} {instr : GapInstr}
    (h : Runs config slots (code ++ [instr]) m m') :
    ∃ m₁, Runs config slots code m m₁ ∧ Exec config slots instr m₁ m' := by
  generalize heq : code ++ [instr] = all at h
  cases h with
  | nil => exact absurd heq (by simp)
  | concat hcode hinstr => grind [append_inj']

/-- **Every operation can be executed**: what is said of it can be met. -/
theorem exists_exec (instr : GapInstr) (m : GapMemory V) : ∃ m', Exec config slots instr m m' := by
  -- writing one operand alone is a way to do it
  have hwrite : ∀ (d : InstructionOperand) (v : V) (t : V),
      KeepsOthers config d m ⟨update m.view d v, t⟩ := by
    intro d v t x hx
    refine update_of_ne ?_ v m.view
    rintro rfl
    rw [interferesWith_self] at hx
    cases hx
  cases instr with
  | assembleMove source destination =>
    exact ⟨⟨update m.view destination (m.view source), m.temp⟩, update_self .., hwrite _ _ _, rfl⟩
  | assembleSwap a b =>
    refine ⟨⟨fun x => m.view (Equiv.swap a b x), m.temp⟩, ?_, ?_, fun x ha hb => ?_⟩
    · exact congrArg m.view (Equiv.swap_apply_left a b)
    · exact congrArg m.view (Equiv.swap_apply_right a b)
    · refine congrArg m.view (Equiv.swap_apply_of_ne_of_ne ?_ ?_)
      · grind [interferesWith_self]
      · grind [interferesWith_self]
  | setPendingMove move => exact ⟨m, rfl⟩
  | moveToTempLocation source rep => exact ⟨⟨m.view, m.view source⟩, rfl, rfl⟩
  | moveTempLocationTo destination rep =>
    exact ⟨⟨update m.view destination m.temp, m.temp⟩, update_self .., hwrite _ _ _⟩
  | push source slot =>
    exact ⟨⟨update m.view slot (m.view source), m.temp⟩, update_self .., hwrite _ _ _⟩
  | popTempStackSlots => exact ⟨m, fun _ _ => rfl⟩

theorem exists_runs (code : List GapInstr) (m : GapMemory V) :
    ∃ m', Runs config slots code m m' := by
  induction code using List.reverseRecOn with
  | nil => exact ⟨m, .nil m⟩
  | append_singleton code instr ih =>
    obtain ⟨m₁, hm₁⟩ := ih
    obtain ⟨m', hm'⟩ := exists_exec instr m₁
    exact ⟨m', .concat hm₁ hm'⟩

theorem Runs.nil_inv (h : Runs config slots [] m m') : m = m' := by
  generalize heq : [] = all at h
  cases h with
  | nil => rfl
  | concat => exact absurd heq (by simp)

end Semantics

/-! ## Blocking -/

/-- **A parallel move** without redundant moves: no operand is invalid,
destinations do not interfere, and the slots that are pushed interfere with no
operand. -/
structure ParallelMove (config : TargetConfig) (slots : ℕ → InstructionOperand) where
  moves : List MoveOperands
  source_valid : ∀ m ∈ moves, m.source ≠ .invalid
  destination_valid : ∀ m ∈ moves, m.destination ≠ .invalid
  apart : moves.Pairwise fun m m' => m.destination.interferesWith config m'.destination = false
  slot_valid : ∀ k, slots k ≠ .invalid
  slot_slot : ∀ j k, j ≠ k → (slots j).interferesWith config (slots k) = false
  source_slot : ∀ k, ∀ m ∈ moves, m.source.interferesWith config (slots k) = false
  destination_slot : ∀ k, ∀ m ∈ moves, m.destination.interferesWith config (slots k) = false

namespace GapResolver

variable {config : TargetConfig} {slots : ℕ → InstructionOperand}

section Moves

variable (p : ParallelMove config slots)

/-- The move at a place of the parallel move. -/
def original (i : ℕ) : MoveOperands := p.moves[i]?.getD .eliminated

/-- A move that has not been eliminated. -/
def Active (g : GapResolver) (i : ℕ) : Prop := (g.moveAt i).source ≠ .invalid

/-- A move blocks another. -/
def Blocks (g : GapResolver) (j i : ℕ) : Prop :=
  Active g j ∧ j ≠ i ∧ (g.moveAt j).source.interferesWith config (original p i).destination = true

/-- **The form of a state** with some pending moves. -/
structure Shape (P : Finset ℕ) (g : GapResolver) : Prop where
  length : g.moves.length = p.moves.length
  eliminated : ∀ i, ¬ Active g i → g.moveAt i = .eliminated
  destination : ∀ i, Active g i →
    (g.moveAt i).destination = if i ∈ P then .invalid else (original p i).destination
  source : ∀ i, Active g i →
    (g.moveAt i).source = (original p i).source ∨ ∃ k < g.pushes, (g.moveAt i).source = slots k
  pending : ∀ i ∈ P, Active g i

/-- A move that waits, through others, for a pending one. -/
inductive Held (P : Finset ℕ) (g : GapResolver) : ℕ → Prop
  | pending {i} (hi : i ∈ P) : Held P g i
  | blocked {i j} (hj : Held P g j) (hblocks : Blocks p g j i) (hi : Active g i) : Held P g i

/-- **What the search does**: some moves are eliminated, but none that waits
for a pending one. -/
structure Extends (P : Finset ℕ) (g g' : GapResolver) : Prop where
  pushes : g'.pushes = g.pushes
  source : ∀ i, Active g' i → (g'.moveAt i).source = (g.moveAt i).source
  held : ∀ i, Held p P g i → Active g' i

/-! ## Moves and their places -/

variable {p} {P : Finset ℕ} {g g' g'' : GapResolver} {i : ℕ}

theorem moveAt_eq_eliminated (hi : g.moves.length ≤ i) : g.moveAt i = .eliminated := by
  rw [moveAt, getElem?_eq_none hi]
  rfl

theorem Active.lt (hi : Active g i) : i < g.moves.length := by
  by_contra hlt
  exact hi (by rw [moveAt_eq_eliminated (not_lt.mp hlt)]; rfl)

theorem Shape.lt (hshape : Shape p P g) {i : ℕ} (hi : Active g i) : i < p.moves.length :=
  hshape.length ▸ hi.lt

theorem moveAt_setMove (g : GapResolver) {i : ℕ} (hi : i < g.moves.length) (move : MoveOperands)
    (j : ℕ) : (g.setMove i move).moveAt j = if j = i then move else g.moveAt j := by
  unfold moveAt setMove
  rw [getElem?_set]
  by_cases hij : i = j
  · grind
  · rw [if_neg hij, if_neg (Ne.symm hij)]

theorem moveAt_eliminate (g : GapResolver) (i j : ℕ) :
    (g.eliminate i).moveAt j = if j = i then .eliminated else g.moveAt j := by
  by_cases hi : i < g.moves.length
  · exact moveAt_setMove g hi _ j
  · have hset : g.eliminate i = g := by
      rw [eliminate, setMove, set_eq_of_length_le (not_lt.mp hi)]
    rw [hset]
    split
    · next hij => exact moveAt_eq_eliminated (hij ▸ not_lt.mp hi)
    · rfl

theorem active_eliminate (g : GapResolver) (i j : ℕ) :
    Active (g.eliminate i) j ↔ j ≠ i ∧ Active g j := by
  unfold Active
  rw [moveAt_eliminate]
  split
  · next hji => exact ⟨fun h => absurd rfl h, fun h => absurd hji h.1⟩
  · next hji => exact ⟨fun h => ⟨hji, h⟩, fun h => h.2⟩

/-! ## Moves that wait -/

theorem Extends.active (h : Extends p P g g') {i : ℕ} (hi : Active g' i) : Active g i := by
  unfold Active
  rw [← h.source i hi]
  exact hi

theorem Extends.blocks (h : Extends p P g g') {i j : ℕ} (hb : Blocks p g' j i) : Blocks p g j i :=
  ⟨h.active hb.1, hb.2.1, h.source j hb.1 ▸ hb.2.2⟩

theorem Extends.blocks_of_active (h : Extends p P g g') {i j : ℕ} (hb : Blocks p g j i)
    (hj : Active g' j) : Blocks p g' j i :=
  ⟨hj, hb.2.1, (h.source j hj).symm ▸ hb.2.2⟩

variable {Q : Finset ℕ}

theorem Held.mono (hPQ : P ⊆ Q) {i : ℕ} (h : Held p P g i) : Held p Q g i := by
  induction h with
  | pending hi => exact .pending (hPQ hi)
  | blocked _ hblocks hi ih => exact .blocked ih hblocks hi

theorem Extends.mono (hPQ : P ⊆ Q) (h : Extends p Q g g') : Extends p P g g' :=
  ⟨h.pushes, h.source, fun i hi => h.held i (hi.mono hPQ)⟩

theorem Extends.held_held (h : Extends p P g g') {i : ℕ} (hi : Held p P g i) : Held p P g' i := by
  induction hi with
  | pending hi => exact .pending hi
  | @blocked i j hj hblocks hi ih =>
    exact .blocked ih (h.blocks_of_active hblocks (h.held j hj)) (h.held i (.blocked hj hblocks hi))

theorem Extends.trans (h : Extends p P g g') (h' : Extends p P g' g'') : Extends p P g g'' where
  pushes := h'.pushes.trans h.pushes
  source i hi := (h'.source i hi).trans (h.source i (h'.active hi))
  held i hi := h'.held i (h.held_held hi)

theorem Held.active (hP : ∀ i ∈ P, Active g i) {i : ℕ} (h : Held p P g i) : Active g i := by
  cases h with
  | pending hi => exact hP i hi
  | blocked _ _ hi => exact hi

/-- States with the same sources. -/
theorem Extends.of_source_eq (hP : ∀ i ∈ P, Active g i) (hpushes : g'.pushes = g.pushes)
    (hsource : ∀ i, (g'.moveAt i).source = (g.moveAt i).source) : Extends p P g g' where
  pushes := hpushes
  source i _ := hsource i
  held i hi := by
    unfold Active
    rw [hsource]
    exact hi.active hP

/-- **Moves that only each other block can be eliminated.** -/
theorem Extends.of_closed {E : List ℕ} (hP : ∀ i ∈ P, Active g i) (hpushes : g'.pushes = g.pushes)
    (hmoveAt : ∀ i, g'.moveAt i = if i ∈ E then .eliminated else g.moveAt i)
    (hE : ∀ i ∈ E, i ∉ P ∧ ∀ j, Blocks p g j i → j ∈ E) : Extends p P g g' where
  pushes := hpushes
  source i hi := by
    unfold Active at hi
    rw [hmoveAt] at hi ⊢
    split at hi
    · exact absurd rfl hi
    · next hiE => rw [if_neg hiE]
  held i hi := by
    have hiE : i ∉ E := by
      induction hi with
      | pending hi => exact fun hiE => (hE _ hiE).1 hi
      | blocked _ hblocks _ ih => exact fun hiE => ih ((hE _ hiE).2 _ hblocks)
    unfold Active
    rw [hmoveAt, if_neg hiE]
    exact hi.active hP

/-! ## What has been done -/

variable {V : Type}

variable (p) in
/-- An operand that is no destination, and no slot. -/
def Clear (x : InstructionOperand) : Prop :=
  (∀ m ∈ p.moves, x.interferesWith config m.destination = false) ∧
    ∀ k, x.interferesWith config (slots k) = false

variable (p) in
/-- **How far the moves are done** when the memory was `m₀`: the source of an
active move has the value to be moved, the destination of an eliminated move
has it but for some exceptions, and other operands are as they were. -/
structure Holds (g : GapResolver) (m₀ m : GapMemory V) (X : Set ℕ) : Prop where
  live : ∀ i, Active g i → m.view (g.moveAt i).source = m₀.view (original p i).source
  done : ∀ i < p.moves.length, ¬ Active g i → i ∉ X →
    m.view (original p i).destination = m₀.view (original p i).source
  frame : ∀ x, Clear p x → m.view x = m₀.view x

variable (p V) in
/-- The code so far does what the eliminated moves say. -/
def Correct (g : GapResolver) : Prop :=
  ∀ m₀ m : GapMemory V, Runs config slots g.code m₀ m → Holds p g m₀ m ∅

theorem original_mem (hi : i < p.moves.length) : original p i ∈ p.moves := by
  rw [original, getElem?_eq_getElem hi]
  exact getElem_mem hi

/-- Destinations do not interfere. -/
theorem destination_apart {i j : ℕ} (hi : i < p.moves.length) (hj : j < p.moves.length)
    (hij : i ≠ j) : (original p i).destination.interferesWith config
      (original p j).destination = false := by
  have hpair := pairwise_iff_getElem.mp p.apart
  rw [original, original, getElem?_eq_getElem hi, getElem?_eq_getElem hj]
  rcases lt_or_gt_of_ne hij with h | h
  · exact hpair i j hi hj h
  · grind [interferesWith_comm]

/-- An active move that does not block leaves its source alone. -/
theorem interferesWith_eq_false_of_not_blocks {i j : ℕ} (hj : Active g j) (hji : j ≠ i)
    (h : ¬ Blocks p g j i) :
    (g.moveAt j).source.interferesWith config (original p i).destination = false :=
  Bool.eq_false_of_not_eq_true fun htrue => h ⟨hj, hji, htrue⟩

variable {X : Set ℕ} {m₀ m : GapMemory V}

theorem Holds.eliminate (h : Holds p g m₀ m X) (i : ℕ) :
    Holds p (g.eliminate i) m₀ m (insert i X) where
  live j hj := by
    obtain ⟨hji, hj⟩ := (active_eliminate g i j).mp hj
    rw [moveAt_eliminate, if_neg hji]
    exact h.live j hj
  done j hlt hj hX := by
    refine h.done j hlt (fun hact => hj ?_) (fun hmem => hX (Set.mem_insert_of_mem i hmem))
    exact (active_eliminate g i j).mpr ⟨fun heq => hX (heq ▸ Set.mem_insert i X), hact⟩
  frame := h.frame

variable {m₀ m m' : GapMemory V}

/-- **Writing destinations.** When eliminated moves that nothing blocks get
their values, they are done. -/
theorem Holds.write {X I : Set ℕ} (h : Holds p g m₀ m (I ∪ X))
    (hI : ∀ i ∈ I, i < p.moves.length ∧ ¬ Active g i ∧ ∀ j, ¬ Blocks p g j i)
    (hvalue : ∀ i ∈ I, m'.view (original p i).destination = m₀.view (original p i).source)
    (hkeeps : ∀ x, (∀ i ∈ I, x.interferesWith config (original p i).destination = false) →
      m'.view x = m.view x) : Holds p g m₀ m' X where
  live j hj := by
    rw [hkeeps, h.live j hj]
    intro i hi
    exact interferesWith_eq_false_of_not_blocks hj (fun hji => (hI i hi).2.1 (hji ▸ hj))
      ((hI i hi).2.2 j)
  done j hlt hj hX := by
    by_cases hjI : j ∈ I
    · exact hvalue j hjI
    · rw [hkeeps, h.done j hlt hj (fun hmem => hmem.elim hjI hX)]
      intro i hi
      exact destination_apart hlt (hI i hi).1 (fun hji => hjI (hji ▸ hi))
  frame x hx := by
    rw [hkeeps, h.frame x hx]
    exact fun i hi => hx.1 _ (original_mem (hI i hi).1)

theorem Holds.of_source (h : Holds p g m₀ m X)
    (heq : ∀ i, (g'.moveAt i).source = (g.moveAt i).source) : Holds p g' m₀ m X where
  live i hi := by
    unfold Active at hi
    rw [heq] at hi ⊢
    exact h.live i hi
  done i hlt hi hX := by
    unfold Active at hi
    rw [heq] at hi
    exact h.done i hlt hi hX
  frame := h.frame

theorem moveAt_eq_of_moves_eq (h : g'.moves = g.moves) (i : ℕ) : g'.moveAt i = g.moveAt i := by
  rw [moveAt, moveAt, h]

theorem Holds.of_moves (h : Holds p g m₀ m X) (heq : g'.moves = g.moves) : Holds p g' m₀ m X :=
  h.of_source fun i => congrArg MoveOperands.source (moveAt_eq_of_moves_eq heq i)

theorem Holds.of_view (h : Holds p g m₀ m X) (heq : m'.view = m.view) : Holds p g m₀ m' X :=
  ⟨heq ▸ h.live, heq ▸ h.done, heq ▸ h.frame⟩

theorem Shape.of_moves (h : Shape p P g) (hmoves : g'.moves = g.moves)
    (hpushes : g'.pushes = g.pushes) : Shape p P g' := by
  obtain ⟨moves, code, pushes⟩ := g
  obtain ⟨moves', code', pushes'⟩ := g'
  obtain rfl : moves' = moves := hmoves
  obtain rfl : pushes' = pushes := hpushes
  exact ⟨h.length, h.eliminated, h.destination, h.source, h.pending⟩

theorem Shape.emit (h : Shape p P g) (instr : GapInstr) : Shape p P (g.emit instr) :=
  h.of_moves rfl rfl

theorem Shape.eliminate (h : Shape p P g) {i : ℕ} (hi : i ∉ P) : Shape p P (g.eliminate i) where
  length := (length_set ..).trans h.length
  eliminated j hj := by
    rw [moveAt_eliminate]
    split
    · rfl
    · next hji => exact h.eliminated j fun hact => hj ((active_eliminate g i j).mpr ⟨hji, hact⟩)
  destination j hj := by
    obtain ⟨hji, hj⟩ := (active_eliminate g i j).mp hj
    rw [moveAt_eliminate, if_neg hji]
    exact h.destination j hj
  source j hj := by
    obtain ⟨hji, hj⟩ := (active_eliminate g i j).mp hj
    rw [moveAt_eliminate, if_neg hji]
    exact h.source j hj
  pending j hj := (active_eliminate g i j).mpr ⟨fun hji => hi (hji ▸ hj), h.pending j hj⟩

theorem Blocks.of_eliminate {i j k : ℕ} (h : Blocks p (g.eliminate k) j i) :
    j ≠ k ∧ Blocks p g j i := by
  obtain ⟨hj, hji, hinterferes⟩ := h
  obtain ⟨hjk, hj⟩ := (active_eliminate g k j).mp hj
  rw [moveAt_eliminate, if_neg hjk] at hinterferes
  exact ⟨hjk, hj, hji, hinterferes⟩

/-! ## Assembling moves in order -/

variable (p P) in
/-- Moves that can be assembled one after the other: each is blocked by earlier
ones only. -/
structure Assemblable (g : GapResolver) (l : List ℕ) : Prop where
  nodup : l.Nodup
  active : ∀ i ∈ l, Active g i
  not_pending : ∀ i ∈ l, i ∉ P
  blocks : ∀ pre i post, l = pre ++ i :: post → ∀ j, Blocks p g j i → j ∈ pre

theorem Assemblable.of_moves {l : List ℕ} (h : Assemblable p P g l) (heq : g'.moves = g.moves) :
    Assemblable p P g' l := by
  obtain ⟨moves, code, pushes⟩ := g
  obtain ⟨moves', code', pushes'⟩ := g'
  obtain rfl : moves' = moves := heq
  exact ⟨h.nodup, h.active, h.not_pending, h.blocks⟩

theorem Assemblable.tail {rest : List ℕ} (h : Assemblable p P g (i :: rest)) :
    Assemblable p P (g.assemble i) rest where
  nodup := (nodup_cons.mp h.nodup).2
  active j hj := by
    refine (active_eliminate (g.emit _) i j).mpr ⟨?_, h.active j (mem_cons_of_mem i hj)⟩
    rintro rfl
    exact (nodup_cons.mp h.nodup).1 hj
  not_pending j hj := h.not_pending j (mem_cons_of_mem i hj)
  blocks pre j post heq k hk := by
    obtain ⟨hki, hk⟩ := Blocks.of_eliminate hk
    have hmem := h.blocks (i :: pre) j post (by rw [heq]; rfl) k hk
    exact (mem_cons.mp hmem).resolve_left hki

/-- **One move is assembled.** -/
theorem Holds.assemble (hshape : Shape p P g)
    (hactive : Active g i) (hi : i ∉ P) (hblocks : ∀ j, ¬ Blocks p g j i)
    (h : Holds p g m₀ m X)
    (hexec : Exec config slots (.assembleMove (g.moveAt i).source (g.moveAt i).destination) m m') :
    Holds p (g.assemble i) m₀ m' X := by
  obtain ⟨hvalue, hkeeps, -⟩ := hexec
  rw [hshape.destination i hactive, if_neg hi] at hvalue hkeeps
  have heliminated : Holds p (g.eliminate i) m₀ m' X := by
    refine (h.eliminate i).write (I := {i}) ?_ ?_ ?_
    · rintro _ rfl
      refine ⟨hshape.lt hactive, fun hact => ((active_eliminate g _ _).mp hact).1 rfl, ?_⟩
      exact fun j hj => hblocks j hj.of_eliminate.2
    · rintro _ rfl
      rw [hvalue, h.live _ hactive]
    · exact fun x hx => hkeeps x (hx i rfl)
  exact heliminated.of_moves rfl

variable (l : List ℕ)

/-- **Moves are assembled one after the other.** -/
theorem foldl_assemble_spec : ∀ g, Shape p P g → Assemblable p P g l →
    Shape p P (l.foldl assemble g) ∧ (l.foldl assemble g).pushes = g.pushes ∧
      (∀ j, (l.foldl assemble g).moveAt j = if j ∈ l then .eliminated else g.moveAt j) ∧
      ∀ m₀ m' : GapMemory V, Runs config slots (l.foldl assemble g).code m₀ m' →
        ∃ m, Runs config slots g.code m₀ m ∧ m'.temp = m.temp ∧
          ∀ X, Holds p g m₀ m X → Holds p (l.foldl assemble g) m₀ m' X := by
  induction l with
  | nil => exact fun g hshape _ => ⟨hshape, rfl, fun j => rfl,
    fun m₀ m' h => ⟨m', h, rfl, fun _ => id⟩⟩
  | cons i rest ih =>
    intro g hshape hl
    have hi : i ∈ i :: rest := mem_cons_self
    have hshape' : Shape p P (g.assemble i) := (hshape.emit _).eliminate (hl.not_pending i hi)
    obtain ⟨hfinal, hpushes, hmoveAt, hruns⟩ := ih (g.assemble i) hshape' hl.tail
    refine ⟨hfinal, hpushes, fun j => ?_, fun m₀ m' hm' => ?_⟩
    · show (rest.foldl assemble (g.assemble i)).moveAt j = _
      rw [hmoveAt j, assemble, moveAt_eliminate]
      by_cases hji : j = i
      · rw [if_pos hji, ite_self, if_pos (hji ▸ hi)]
      · simp only [mem_cons, hji, false_or]
        rfl
    · obtain ⟨m₁, hm₁, htemp, hholds⟩ := hruns m₀ m' hm'
      obtain ⟨m, hm, hexec⟩ := hm₁.concat_inv
      refine ⟨m, hm, htemp.trans hexec.2.2, fun X hX => hholds X ?_⟩
      exact hX.assemble hshape (hl.active i hi) (hl.not_pending i hi)
        (fun j hj => not_mem_nil (hl.blocks [] i rest rfl j hj)) hexec

/-! ## Cycles -/

variable (p P) in
/-- A cycle: each move is blocked by earlier ones, or by the last. -/
structure Closed (g : GapResolver) (cycle : List ℕ) (last : ℕ) : Prop where
  nodup : (cycle ++ [last]).Nodup
  active : ∀ i ∈ cycle ++ [last], Active g i
  not_pending : ∀ i ∈ cycle ++ [last], i ∉ P
  blocks : ∀ pre i post, cycle ++ [last] = pre ++ i :: post → ∀ j, Blocks p g j i →
    j ∈ pre ∨ j = last

variable {cycle : List ℕ}

theorem Closed.mem_of_blocks {last i j : ℕ} (h : Closed p P g cycle last)
    (hi : i ∈ cycle ++ [last]) (hj : Blocks p g j i) : j ∈ cycle ++ [last] := by
  obtain ⟨pre, post, heq⟩ := append_of_mem hi
  rcases h.blocks pre i post heq j hj with hpre | rfl
  · grind
  · exact mem_concat_self

section Eliminated

variable {cycle : List ℕ} {last i : ℕ}
  (hmoveAt : ∀ j, g'.moveAt j = if j ∈ cycle ++ [last] then .eliminated else g.moveAt j)

include hmoveAt

theorem Closed.not_active (hi : i ∈ cycle ++ [last]) : ¬ Active g' i := by
  unfold Active
  rw [hmoveAt, if_pos hi]
  exact fun hne => hne rfl

theorem Closed.not_blocks (h : Closed p P g cycle last) (hi : i ∈ cycle ++ [last]) (j : ℕ) :
    ¬ Blocks p g' j i := by
  rintro ⟨hactive, hji, hinterferes⟩
  have hj : j ∉ cycle ++ [last] := fun hj => Closed.not_active hmoveAt hj hactive
  have hsame : g'.moveAt j = g.moveAt j := by rw [hmoveAt, if_neg hj]
  unfold Active at hactive
  rw [hsame] at hactive hinterferes
  exact hj (h.mem_of_blocks hi ⟨hactive, hji, hinterferes⟩)

end Eliminated

/-- Without its last move, a cycle can be assembled. -/
theorem Closed.assemblable {last : ℕ} (h : Closed p P g cycle last) :
    Assemblable p P (g.eliminate last) cycle where
  nodup := (nodup_append.mp h.nodup).1
  active i hi := by
    refine (active_eliminate g last i).mpr ⟨?_, h.active i (mem_append_left _ hi)⟩
    exact (nodup_append.mp h.nodup).2.2 i hi last (mem_singleton_self last)
  not_pending i hi := h.not_pending i (mem_append_left _ hi)
  blocks pre i post heq j hj := by
    obtain ⟨hjlast, hj⟩ := hj.of_eliminate
    refine (h.blocks pre i (post ++ [last]) ?_ j hj).resolve_right hjlast
    rw [heq, append_assoc]
    rfl

/-- `SetPendingMove` does nothing. -/
theorem foldl_setPendingMove_spec : ∀ g : GapResolver,
    (l.foldl (fun g i => g.emit (.setPendingMove (g.moveAt i))) g).moves = g.moves ∧
      (l.foldl (fun g i => g.emit (.setPendingMove (g.moveAt i))) g).pushes = g.pushes ∧
      ∀ m₀ m : GapMemory V,
        Runs config slots (l.foldl (fun g i => g.emit (.setPendingMove (g.moveAt i))) g).code m₀ m →
          Runs config slots g.code m₀ m := by
  induction l with
  | nil => exact fun g => ⟨rfl, rfl, fun _ _ => id⟩
  | cons i rest ih =>
    intro g
    obtain ⟨hmoves, hpushes, hruns⟩ := ih (g.emit (.setPendingMove (g.moveAt i)))
    refine ⟨hmoves, hpushes, fun m₀ m hm => ?_⟩
    obtain ⟨m₁, hm₁, rfl⟩ := (hruns m₀ m hm).concat_inv
    exact hm₁

variable (p P V) in
/-- Some moves are done and eliminated. -/
structure Eliminates (g : GapResolver) (E : List ℕ) (g' : GapResolver) : Prop where
  shape : Shape p P g'
  pushes : g'.pushes = g.pushes
  moveAt : ∀ j, g'.moveAt j = if j ∈ E then .eliminated else g.moveAt j
  correct : Correct p V g'

/-- **A cycle through the temporary location.** -/
theorem performGeneric_spec {last : ℕ} (hshape : Shape p P g)
    (hcycle : Closed p P g cycle last) (hcorrect : Correct p V g) :
    Eliminates p P V g (cycle ++ [last])
      (performCycle.performGeneric g cycle last (g.moveAt last)) := by
  simp only [performCycle.performGeneric]
  obtain ⟨hmoves, hpushes, hpending⟩ := @foldl_setPendingMove_spec config slots V cycle g
  generalize cycle.foldl (fun g i => g.emit (.setPendingMove (g.moveAt i))) g = g₀ at *
  have hlast : last ∉ P := hcycle.not_pending last mem_concat_self
  have hactive : Active g last := hcycle.active last mem_concat_self
  set toTemp := GapInstr.moveToTempLocation (g.moveAt last).source
    (g.moveAt last).destination.representation with htoTemp
  have hmoves₁ : ((g₀.emit toTemp).eliminate last).moves = (g.eliminate last).moves :=
    congrArg (fun l => l.set last MoveOperands.eliminated) hmoves
  have hshape₁ : Shape p P ((g₀.emit toTemp).eliminate last) :=
    (hshape.eliminate hlast).of_moves hmoves₁ hpushes
  obtain ⟨hshape₂, hpushes₂, hmoveAt₂, hruns₂⟩ :=
    foldl_assemble_spec (V := V) cycle _ hshape₁ (hcycle.assemblable.of_moves hmoves₁)
  generalize cycle.foldl assemble ((g₀.emit toTemp).eliminate last) = g₂ at *
  have hmoveAt : ∀ j, g₂.moveAt j = if j ∈ cycle ++ [last] then .eliminated else g.moveAt j := by
    intro j
    rw [hmoveAt₂, moveAt_eq_of_moves_eq hmoves₁, moveAt_eliminate]
    by_cases hj : j ∈ cycle
    · rw [if_pos hj, if_pos (mem_append_left _ hj)]
    · simp only [mem_append, mem_singleton, hj, false_or, if_false]
  refine ⟨hshape₂.emit _, hpushes₂.trans hpushes, hmoveAt, fun m₀ m' hm' => ?_⟩
  obtain ⟨m₂, hm₂, hvalue, hkeeps⟩ := hm'.concat_inv
  obtain ⟨m₁, hm₁, htemp₂, hholds₂⟩ := hruns₂ m₀ m₂ hm₂
  obtain ⟨m, hm, htemp, hview⟩ := hm₁.concat_inv
  have hholds := hcorrect m₀ m (hpending m₀ m hm)
  rw [hshape.destination last hactive, if_neg hlast] at hvalue hkeeps
  have hexcept : Holds p g₂ m₀ m₂ ({last} ∪ ∅) :=
    hholds₂ _ (((hholds.eliminate last).of_view hview).of_moves hmoves₁)
  refine (hexcept.write ?_ ?_ ?_).of_moves rfl
  · rintro _ rfl
    exact ⟨hshape.lt hactive, Closed.not_active hmoveAt mem_concat_self,
      Closed.not_blocks hmoveAt hcycle mem_concat_self⟩
  · rintro _ rfl
    rw [hvalue, htemp₂, htemp, hholds.live _ hactive]
  · exact fun x hx => hkeeps x (hx last rfl)

/-- The swap of `PerformCycle`, in either order. -/
theorem exec_swap {a b : InstructionOperand} {m m' : GapMemory V} (inOrder : Bool)
    (h : Exec config slots (if inOrder then .assembleSwap b a else .assembleSwap a b) m m') :
    m'.view a = m.view b ∧ m'.view b = m.view a ∧
      ∀ x, x.interferesWith config a = false → x.interferesWith config b = false →
        m'.view x = m.view x := by
  cases inOrder with
  | false => exact h
  | true => exact ⟨h.2.1, h.1, fun x ha hb => h.2.2 x hb ha⟩

/-- **A cycle of two moves that is a swap.** -/
theorem performSwap_spec {first last : ℕ} (hshape : Shape p P g)
    (hcycle : Closed p P g [first] last) (hcorrect : Correct p V g)
    (hswap : isSwap (g.moveAt first) (g.moveAt last) = true) :
    Eliminates p P V g ([first] ++ [last]) (((g.emit (if (g.moveAt last).source.isAnyStackSlot then
          .assembleSwap (g.moveAt last).destination (g.moveAt last).source
        else .assembleSwap (g.moveAt last).source (g.moveAt last).destination)).eliminate
          last).eliminate first) := by
  obtain ⟨hfirstSource, hlastSource⟩ : (g.moveAt first).source = (g.moveAt last).destination ∧
    (g.moveAt last).source = (g.moveAt first).destination := of_decide_eq_true hswap
  have hfirst : first ∈ [first] ++ [last] := mem_cons_self
  have hlast : last ∈ [first] ++ [last] := mem_concat_self
  have hdestination : ∀ i ∈ [first] ++ [last], (g.moveAt i).destination =
      (original p i).destination :=
    fun i hi => by rw [hshape.destination i (hcycle.active i hi), if_neg (hcycle.not_pending i hi)]
  have hmoveAt : ∀ j, ((g.eliminate last).eliminate first).moveAt j =
      if j ∈ [first] ++ [last] then .eliminated else g.moveAt j := by
    intro j
    rw [moveAt_eliminate, moveAt_eliminate]
    by_cases hj : j = first
    · rw [if_pos hj, if_pos (hj ▸ hfirst)]
    · grind
  refine ⟨((hshape.emit _).eliminate (hcycle.not_pending last hlast)).eliminate
    (hcycle.not_pending first hfirst), rfl, hmoveAt, fun m₀ m' hm' => ?_⟩
  obtain ⟨m, hm, hexec⟩ := hm'.concat_inv
  obtain ⟨hsource, hdest, hkeeps⟩ := exec_swap _ hexec
  have hholds := hcorrect m₀ m hm
  have hexcept : Holds p ((g.eliminate last).eliminate first) m₀ m
      ({i | i ∈ [first] ++ [last]} ∪ ∅) := by
    refine (congrArg (Holds p _ m₀ m) ?_).mp ((hholds.eliminate last).eliminate first)
    ext i
    simp
  refine (hexcept.write ?_ ?_ ?_).of_moves rfl
  · intro i hi
    exact ⟨hshape.lt (hcycle.active i hi), Closed.not_active hmoveAt hi,
      Closed.not_blocks hmoveAt hcycle hi⟩
  · intro i hi
    rw [← hdestination i hi, ← hholds.live i (hcycle.active i hi)]
    rcases mem_pair.mp hi with rfl | rfl
    · rw [hfirstSource, ← hlastSource, hsource]
    · exact hdest
  · intro x hx
    refine hkeeps x ?_ ?_
    · rw [hlastSource, hdestination first hfirst]
      exact hx first hfirst
    · rw [hdestination last hlast]
      exact hx last hlast

/-- **`PerformCycle` does the moves of a cycle.** -/
theorem performCycle_spec {last : ℕ} (hshape : Shape p P g)
    (hcycle : Closed p P g cycle last) (hcorrect : Correct p V g) :
    Eliminates p P V g (cycle ++ [last]) (g.performCycle cycle last) := by
  simp only [performCycle]
  split
  · grind [performSwap_spec, performGeneric_spec]
  · exact performGeneric_spec hshape hcycle hcorrect

end Moves

end GapResolver
