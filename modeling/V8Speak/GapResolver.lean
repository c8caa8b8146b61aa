import Mathlib

/-!
# The gap resolver

Between two instructions the register allocator puts a *parallel move*: a list
of moves that are meant to happen at once. `GapResolver`
(`compiler/backend/gap-resolver.cc`) turns it into a sequence of operations of
the assembler. A move must wait for the moves whose sources its destination
would overwrite, so the moves are emitted in post-order of a depth-first
search; a cycle is emitted through a temporary location, or as a swap. When two
cycles meet, the search gives up, one source is pushed on the stack, and it
starts again.

Operands are those of `compiler/backend/instruction.h` that occur in moves:
constants, registers and stack slots. A stack slot can take several slots, and
floating-point registers alias each other in a way that depends on the
target (`AliasingKind`), so that operands may *interfere* without being equal.

A move is known by its place in the list. A move that has been emitted is
*eliminated*: both of its operands are invalid. A move on the path of the
search is *pending*: its destination is. The operations are collected in the
state; the stack slots that `Push` returns are a parameter.
-/

/-! ## Operands -/

open List

/-- `AliasingKind` of floating-point registers. -/
inductive AliasingKind
  | kOverlap
  | kIndependent
  | kCombine
  deriving DecidableEq, Repr

/-- What the operands of a target depend on. -/
structure TargetConfig where
  fpAliasing : AliasingKind
  systemPointerSize : ℕ
  taggedSize : ℕ
  systemPointerSize_pos : 0 < systemPointerSize
  taggedSize_pos : 0 < taggedSize

/-- `MachineRepresentation`, as far as operands have it. -/
inductive MachineRepresentation
  | kNone
  | kWord32
  | kWord64
  | kTaggedSigned
  | kTaggedPointer
  | kTagged
  | kCompressedPointer
  | kCompressed
  | kSandboxedPointer
  | kFloat32
  | kFloat64
  | kSimd128
  | kSimd256
  deriving DecidableEq, Repr

namespace MachineRepresentation

def isFloatingPoint : MachineRepresentation → Bool
  | kFloat32 | kFloat64 | kSimd128 | kSimd256 => true
  | _ => false

variable (config : TargetConfig)

/-- `ElementSizeInBytes`; there is none for `kNone`. -/
def elementSizeInBytes : MachineRepresentation → ℕ
  | kNone => 1
  | kWord32 | kFloat32 => 4
  | kWord64 | kFloat64 => 8
  | kTaggedSigned | kTaggedPointer | kTagged | kCompressedPointer | kCompressed => config.taggedSize
  | kSandboxedPointer => config.systemPointerSize
  | kSimd128 => 16
  | kSimd256 => 32

/-- `NumSlotsForWidth` of the size. -/
def numSlots (rep : MachineRepresentation) : ℤ :=
  (rep.elementSizeInBytes config + config.systemPointerSize - 1) / config.systemPointerSize

/-- The order of the floating-point representations. -/
def fpOrder : MachineRepresentation → ℕ
  | kFloat64 => 1
  | kSimd128 => 2
  | kSimd256 => 3
  | _ => 0

end MachineRepresentation

inductive LocationKind
  | register
  | stackSlot
  deriving DecidableEq, Repr

/-- `InstructionOperand`, of the kinds that occur in moves. -/
inductive InstructionOperand
  | invalid
  | constant (virtualRegister : ℤ)
  | location (kind : LocationKind) (rep : MachineRepresentation) (index : ℤ)
  deriving DecidableEq, Repr

namespace InstructionOperand

/-- `GetCanonicalizedValue`. -/
def canonicalized (config : TargetConfig) : InstructionOperand → InstructionOperand
  | location .register rep index =>
    location .register (if rep.isFloatingPoint then
        match config.fpAliasing with
        | .kOverlap => .kFloat64
        | .kIndependent => if rep = .kSimd128 then .kSimd128 else .kFloat64
        | .kCombine => rep
      else .kNone) index
  | location .stackSlot _ index => location .stackSlot .kNone index
  | op => op

def equalsCanonicalized (config : TargetConfig) (op other : InstructionOperand) : Bool :=
  op.canonicalized config = other.canonicalized config

def areAliases (rep : MachineRepresentation) (index : ℤ) (otherRep : MachineRepresentation)
    (otherIndex : ℤ) : Bool :=
  if rep = otherRep then index = otherIndex
  else if rep.fpOrder > otherRep.fpOrder then
    index = otherIndex >>> (rep.fpOrder - otherRep.fpOrder)
  else index >>> (otherRep.fpOrder - rep.fpOrder) = otherIndex

def interferesWith (config : TargetConfig) (op other : InstructionOperand) : Bool :=
  match op, other with
  | location .stackSlot rep index, location .stackSlot otherRep otherIndex =>
    if rep.numSlots config > 1 ∨ otherRep.numSlots config > 1 then
      otherIndex ≥ index - rep.numSlots config + 1 ∧
        index ≥ otherIndex - otherRep.numSlots config + 1
    else op.equalsCanonicalized config other
  | location kind rep index, location otherKind otherRep otherIndex =>
    if config.fpAliasing = .kCombine ∧ rep.isFloatingPoint ∧ otherRep.isFloatingPoint then
      if kind ≠ otherKind then false
      else if rep = otherRep then op.equalsCanonicalized config other
      else areAliases rep index otherRep otherIndex
    else op.equalsCanonicalized config other
  | op, other => op.equalsCanonicalized config other

/-- `MoveOperandKind`. -/
inductive Kind
  | kConstant
  | kGpReg
  | kFpReg
  | kStack
  deriving DecidableEq, Repr

def getKind : InstructionOperand → Kind
  | location .stackSlot _ _ => .kStack
  | location .register rep _ => if rep.isFloatingPoint then .kFpReg else .kGpReg
  | _ => .kConstant

def isAnyStackSlot : InstructionOperand → Bool
  | location .stackSlot _ _ => true
  | _ => false

def representation : InstructionOperand → MachineRepresentation
  | location _ rep _ => rep
  | _ => .kNone

end InstructionOperand

/-! ## Moves and operations -/

structure MoveOperands where
  source : InstructionOperand
  destination : InstructionOperand
  deriving DecidableEq, Repr

namespace MoveOperands

/-- What `Eliminate` leaves. -/
def eliminated : MoveOperands := ⟨.invalid, .invalid⟩

def isEliminated (move : MoveOperands) : Bool := move.source = .invalid

def isPending (move : MoveOperands) : Bool :=
  move.destination = .invalid ∧ move.source ≠ .invalid

def isRedundant (config : TargetConfig) (move : MoveOperands) : Bool :=
  move.isEliminated || move.source.equalsCanonicalized config move.destination

end MoveOperands

/-- The operations of the assembler. -/
inductive GapInstr
  | assembleMove (source destination : InstructionOperand)
  | assembleSwap (source destination : InstructionOperand)
  | setPendingMove (move : MoveOperands)
  | moveToTempLocation (source : InstructionOperand) (rep : MachineRepresentation)
  | moveTempLocationTo (destination : InstructionOperand) (rep : MachineRepresentation)
  | push (source slot : InstructionOperand)
  | popTempStackSlots
  deriving DecidableEq, Repr

/-- The state of the resolver: the moves, the operations so far, and how many
of them are pushes. -/
structure GapResolver where
  moves : List MoveOperands
  code : List GapInstr
  pushes : ℕ

namespace GapResolver

variable (g : GapResolver)

/-- The move at a place. -/
def moveAt (i : ℕ) : MoveOperands := g.moves[i]?.getD .eliminated

/-- Changing the move at a place. -/
def setMove (i : ℕ) (move : MoveOperands) : GapResolver :=
  { g with moves := g.moves.set i move }

/-- An operation of the assembler. -/
def emit (instr : GapInstr) : GapResolver := { g with code := g.code ++ [instr] }

def eliminate (i : ℕ) : GapResolver := g.setMove i .eliminated

/-- A move is assembled and eliminated. -/
def assemble (i : ℕ) : GapResolver :=
  (g.emit (.assembleMove (g.moveAt i).source (g.moveAt i).destination)).eliminate i

def isSwap (move1 move2 : MoveOperands) : Bool :=
  move1.source = move2.destination ∧ move2.source = move1.destination

/-- `PerformCycle`: the moves of the cycle but the last, and the last. -/
def performCycle (cycle : List ℕ) (last : ℕ) : GapResolver :=
  let move1 := g.moveAt last
  match cycle with
  | [first] =>
    if isSwap (g.moveAt first) move1 then
      let swap := if move1.source.isAnyStackSlot then
          GapInstr.assembleSwap move1.destination move1.source
        else .assembleSwap move1.source move1.destination
      ((g.emit swap).eliminate last).eliminate first
    else performGeneric g cycle last move1
  | _ => performGeneric g cycle last move1
where
  /-- The generic part of `PerformCycle`. -/
  performGeneric (g : GapResolver) (cycle : List ℕ) (last : ℕ) (move1 : MoveOperands) :
      GapResolver :=
    let rep := move1.destination.representation
    let g := cycle.foldl (fun g i => g.emit (.setPendingMove (g.moveAt i))) g
    let g := (g.emit (.moveToTempLocation move1.source rep)).eliminate last
    let g := cycle.foldl assemble g
    g.emit (.moveTempLocationTo move1.destination rep)

/-- What `PerformMoveHelper` returns: the cycle and the blocking move, if any. -/
structure Outcome where
  state : GapResolver
  cycle : List ℕ
  blocking : Option ℕ

variable (config : TargetConfig)

/-- The loop of `PerformMoveHelper` over the moves, for a move with a
destination. -/
def scan (helper : GapResolver → ℕ → Option Outcome) (move : ℕ)
    (destination : InstructionOperand) : List ℕ → GapResolver → List ℕ → Option Outcome
  | [], g, cycle => some ⟨g, cycle, none⟩
  | i :: rest, g, cycle =>
    let other := g.moveAt i
    if other.isEliminated || i = move || !other.source.interferesWith config destination then
      scan helper move destination rest g cycle
    else if other.isPending then
      match cycle with
      | front :: _ => some ⟨g, cycle, some front⟩
      | [] => scan helper move destination rest g [i]
    else do
      let r ← helper g i
      match r.blocking, cycle, r.cycle with
      | some blocking, _, _ => return ⟨r.state, cycle, some blocking⟩
      | none, _ :: _, front :: _ => return ⟨r.state, cycle, some front⟩
      | none, [], cycleRec => scan helper move destination rest r.state cycleRec
      | none, _, [] => scan helper move destination rest r.state cycle

/-- `PerformMoveHelper`, with a bound on the depth of the search. -/
def performMoveHelper : ℕ → GapResolver → ℕ → Option Outcome
  | 0, _, _ => none
  | depth + 1, g, move => do
    let m := g.moveAt move
    let r ← scan config (performMoveHelper depth) move m.destination (range g.moves.length)
      (g.setMove move ⟨m.source, .invalid⟩) []
    let g := r.state.setMove move m
    match r.blocking, r.cycle with
    | some blocking, cycle => return ⟨g, cycle, some blocking⟩
    | none, [] => return ⟨(g.emit (.assembleMove m.source m.destination)).eliminate move, [], none⟩
    | none, front :: cycle =>
      if front = move then
        return ⟨g.performCycle ((front :: cycle).dropLast) ((front :: cycle).getLastD move), [], none⟩
      else return ⟨g, front :: cycle ++ [move], none⟩

/-- The body of the loop of `PerformMove`: the source of a blocking move is
pushed, and replaced by the slot. -/
def pushSource (slots : ℕ → InstructionOperand) (g : GapResolver) (blocking : ℕ) : GapResolver :=
  let source := (g.moveAt blocking).source
  let slot := slots g.pushes
  { moves := g.moves.map fun m => if m.source = source then ⟨slot, m.destination⟩ else m
    code := g.code ++ [.push source slot]
    pushes := g.pushes + 1 }

/-- `PerformMove`, with a bound on the number of pushes. -/
def performMove (slots : ℕ → InstructionOperand) : ℕ → GapResolver → ℕ → Option GapResolver
  | 0, _, _ => none
  | n + 1, g, move => do
    let r ← performMoveHelper config (g.moves.length + 1) g move
    match r.blocking with
    | none => return r.state
    | some blocking => performMove slots n (pushSource slots r.state blocking) move

/-- The loop of `Resolve` that removes redundant moves: the last move takes
the place of a redundant one. -/
def removeRedundant : List MoveOperands → List MoveOperands
  | [] => []
  | move :: rest =>
    if move.isRedundant config then
      match _h : rest.getLast? with
      | none => []
      | some last => removeRedundant (last :: rest.dropLast)
    else move :: removeRedundant rest
termination_by moves => moves.length
decreasing_by
  · have hne : rest ≠ [] := by
      rintro rfl
      cases _h
    have := length_pos_of_ne_nil hne
    simp only [length_cons, length_dropLast]
    omega
  · exact Nat.lt_succ_self _

/-- The loop of `Resolve` over the moves. -/
def resolveLoop (slots : ℕ → InstructionOperand) : List ℕ → GapResolver → Option GapResolver
  | [], g => some g
  | i :: rest, g =>
    if (g.moveAt i).isEliminated then resolveLoop slots rest g
    else (performMove config slots (g.moves.length + 1) g i).bind (resolveLoop slots rest)

/-- `Resolve`: the operations for a parallel move. -/
def resolve (slots : ℕ → InstructionOperand) (moves : List MoveOperands) : Option (List GapInstr) :=
  let moves := removeRedundant config moves
  if (∀ m ∈ moves, ∀ m' ∈ moves, m.source.getKind ≠ m'.destination.getKind) ∨ moves.length < 2 then
    some (moves.map fun m => .assembleMove m.source m.destination)
  else
    (resolveLoop config slots (range moves.length) ⟨moves, [], 0⟩).map
      fun g => g.code ++ [.popTempStackSlots]

end GapResolver
