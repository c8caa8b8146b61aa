import V8Speak.CanonicalizeRanges

/-!
# Character classes in the experimental regexp compiler

The experimental engine compiles a regexp into the code of a non-deterministic
automaton. A character class becomes a disjunction over the ranges of its canonical
list, or of the complement of that list: for each range but the last a `FORK` to the
next alternative, a `CONSUME_RANGE` and a `JMP` to the end. Targets that are not known
yet are labels: the instructions that refer to one are linked through their payloads,
and binding the label goes through the links (`bindFrom`). What is laid out in the end
are the blocks of `blocks`.

The ends of a range are narrowed to 16 bits, since a thread consumes one code unit.
The last code point is cut off at `kMaxSupportedCodepoint` before; the first one is
not, and the check that it need not be is one of debug builds. A range that begins
above is narrowed to one of code units that have nothing to do with it: the complement
of all code units consumes every one of them.
-/

open CharacterRange List UInt16

/-- An index into the code, where `none` is `-1`. -/
abbrev CodeIndex := Option ℕ

inductive RegExpInstruction where
  | accept
  | assertion (assertionType : ℕ)
  | clearRegister (registerIndex : ℤ)
  | consumeRange (min max : UInt16)
  | fork (pc : CodeIndex)
  | jmp (pc : CodeIndex)
  | setRegisterToCp (registerIndex : ℤ)
  deriving DecidableEq, Repr

namespace RegExpInstruction

/-- An empty range. -/
def fail : RegExpInstruction := consumeRange 0xFFFF 0x0000

/-- `payload.pc`, where there is one. -/
def payloadPc : RegExpInstruction → Option CodeIndex
  | fork pc => some pc
  | jmp pc => some pc
  | _ => none

def setPayloadPc (index : ℕ) : RegExpInstruction → RegExpInstruction
  | fork _ => fork (some index)
  | jmp _ => jmp (some index)
  | inst => inst

end RegExpInstruction

open RegExpInstruction

/-- The code of the assembler. -/
abbrev Code := List RegExpInstruction

/-- A label: the last instruction that refers to it, or where it is. -/
inductive Label where
  | unbound (patchListBegin : CodeIndex)
  | bound (index : ℕ)
  deriving DecidableEq, Repr

namespace Code

/-! ## The assembler -/

/-- `LabelledInstrImpl`. -/
def labelledInstr (op : CodeIndex → RegExpInstruction) (code : Code) : Label → Code × Label
  | .bound index => (code ++ [op (some index)], .bound index)
  | .unbound patchListBegin => (code ++ [op patchListBegin], .unbound (some code.length))

/-- The loop of `Bind`. -/
def bindFrom (index : ℕ) : ℕ → CodeIndex → Code → Option Code
  | _, none, code => some code
  | 0, some _, _ => none
  | fuel + 1, some i, code => do
    let inst ← code[i]?
    let next ← inst.payloadPc
    bindFrom index fuel next (code.set i (inst.setPayloadPc index))

variable (code : Code)

/-- `Bind`, for a label that is not used any more. No instruction is linked twice. -/
def bind : Label → Option Code
  | .unbound patchListBegin => bindFrom code.length code.length patchListBegin code
  | .bound _ => none

/-- The first iterations of the loop of `CompileDisjunction`. -/
def disjunctionLoop (genAlt : ℕ → Code → Code) : ℕ → Code × Label → Option (Code × Label)
  | 0, s => some s
  | i + 1, s => do
    let (code, endLabel) ← disjunctionLoop genAlt i s
    let (code, tail) := labelledInstr .fork code (.unbound none)
    let (code, endLabel) := labelledInstr .jmp (genAlt i code) endLabel
    some (← bind code tail, endLabel)

def compileDisjunction (altNum : ℕ) (genAlt : ℕ → Code → Code) (code : Code) : Option Code :=
  if altNum = 0 then some (code ++ [fail])
  else do
    let (code, endLabel) ← disjunctionLoop genAlt (altNum - 1) (code, .unbound none)
    bind (genAlt (altNum - 1) code) endLabel

def kMaxSupportedCodepoint : ℕ := 0xFFFF

/-- The instruction for a range. -/
def consumeRange (range : CharacterRange) : RegExpInstruction :=
  .consumeRange (.ofNat range.from_) (.ofNat (min range.to_ kMaxSupportedCodepoint))

/-- The ranges `CompileCharacterRanges` compiles. -/
def compiledRanges (ranges : List CharacterRange) (negated : Bool) : List CharacterRange :=
  if negated then negate (canonicalize ranges) else canonicalize ranges

def compileCharacterRanges (ranges : List CharacterRange) (negated : Bool) (code : Code) :
    Option Code :=
  let ranges := compiledRanges ranges negated
  compileDisjunction ranges.length (fun i code => code ++ [consumeRange (rangeAt ranges i)]) code

/-! ## Threads -/

/-- What a thread, or one it forks, does without reading input. -/
def Step (pc pc' : ℕ) : Prop :=
  (∃ target, code[pc]? = some (.fork target) ∧ (pc' = pc + 1 ∨ target = some pc')) ∨
    code[pc]? = some (.jmp (some pc'))

/-- Where threads get from a place in the code before they read input. -/
abbrev Runs : ℕ → ℕ → Prop := Relation.ReflTransGen (Step code)

/-- The instruction lets a code unit pass. -/
def Accepts (c : UInt16) : RegExpInstruction → Prop
  | .consumeRange min max => min ≤ c ∧ c ≤ max
  | _ => False

/-- A thread started at `start` is at `pc` when it consumes `c`. -/
def Consumes (start : ℕ) (c : UInt16) (pc : ℕ) : Prop :=
  Runs code start pc ∧ ∃ inst, code[pc]? = some inst ∧ Accepts c inst

/-! ## The layout of a disjunction -/

variable {b n : ℕ} {alt : ℕ → RegExpInstruction} {jump : ℕ → CodeIndex} {code rest : Code}

/-- The blocks of all alternatives but the last, from the place `b` on. -/
def blocks (b : ℕ) (alt : ℕ → RegExpInstruction) (jump : ℕ → CodeIndex) : ℕ → Code
  | 0 => []
  | i + 1 => blocks b alt jump i ++ [.fork (some (b + 3 * (i + 1))), alt i, .jmp (jump i)]

@[simp] theorem length_blocks : (blocks b alt jump n).length = 3 * n := by
  induction n with
  | zero => rfl
  | succ n ih => rw [blocks, length_append, ih]; rfl

/-- The jump before a block, to which the one in the block is linked. -/
def lastJump (b : ℕ) : ℕ → CodeIndex
  | 0 => none
  | i + 1 => some (b + 3 * i + 2)

/-- **The loop** lays out the blocks, with their jumps linked. -/
theorem disjunctionLoop_eq (n : ℕ) :
    disjunctionLoop (fun i code => code ++ [alt i]) n (code, .unbound none) =
      some (code ++ blocks code.length alt (lastJump code.length) n,
        .unbound (lastJump code.length n)) := by
  induction n with
  | zero => rw [blocks, append_nil]; rfl
  | succ n ih =>
    have hlength : (code ++ blocks code.length alt (lastJump code.length) n).length =
        code.length + 3 * n := by simp
    rw [disjunctionLoop, ih, blocks, ← append_assoc, Nat.mul_succ, ← Nat.add_assoc, lastJump,
      ← hlength]
    generalize code ++ blocks code.length alt (lastJump code.length) n = front
    generalize lastJump code.length n = previous
    -- the fork is the only instruction linked to the label of the next alternative
    simp [labelledInstr, bind, bindFrom, payloadPc, setPayloadPc]

/-- **Binding the end** goes back through the jumps. -/
theorem bindFrom_blocks (hb : code.length = b) (target : ℕ) {fuel : ℕ} (hfuel : n ≤ fuel) :
    bindFrom target fuel (lastJump b n) (code ++ (blocks b alt (lastJump b) n ++ rest)) =
      some (code ++ (blocks b alt (fun _ => some target) n ++ rest)) := by
  induction n generalizing rest fuel with
  | zero => cases fuel <;> rfl
  | succ n ih =>
    obtain ⟨fuel, rfl⟩ := Nat.exists_eq_add_of_le' (Nat.one_le_of_lt hfuel)
    -- the jump of the last block is bound, the links before it are those of `n` blocks
    have hget : (code ++ (blocks b alt (lastJump b) (n + 1) ++ rest))[b + 3 * n + 2]? =
        some (.jmp (lastJump b n)) := by
      simp [blocks, ← hb, Nat.add_assoc]
    have hset : (code ++ (blocks b alt (lastJump b) (n + 1) ++ rest)).set (b + 3 * n + 2)
        (.jmp (some target)) = code ++ (blocks b alt (lastJump b) n ++
          (.fork (some (b + 3 * (n + 1))) :: alt n :: .jmp (some target) :: rest)) := by
      simp [blocks, ← hb, set_append_right, Nat.add_assoc]
    rw [lastJump, bindFrom, hget]
    show bindFrom target fuel (lastJump b n) (set _ _ (.jmp (some target))) = _
    rw [hset, ih (by omega), blocks, append_assoc]
    rfl

/-- The code of a disjunction. -/
def disjunction (b : ℕ) (alt : ℕ → RegExpInstruction) (n : ℕ) : Code :=
  blocks b alt (fun _ => some (b + 3 * n + 1)) n ++ [alt n]

theorem compileDisjunction_succ (n : ℕ) :
    compileDisjunction (n + 1) (fun i code => code ++ [alt i]) code =
      some (code ++ disjunction code.length alt n) := by
  rw [compileDisjunction, if_neg n.succ_ne_zero, Nat.add_sub_cancel, disjunctionLoop_eq]
  show bindFrom _ _ _ (code ++ blocks _ _ _ n ++ [alt n]) = _
  have hlength : (code ++ blocks code.length alt (lastJump code.length) n ++ [alt n]).length =
      code.length + 3 * n + 1 := by simp [Nat.add_assoc]
  rw [hlength, append_assoc, bindFrom_blocks rfl _ (by omega)]
  rfl

/-! ## The threads of a disjunction -/

/-- The block of an alternative that is not the last. -/
theorem exists_block (b : ℕ) (alt : ℕ → RegExpInstruction) (jump : ℕ → CodeIndex) {i : ℕ}
    (hi : i < n) : ∃ front back, front.length = 3 * i ∧ blocks b alt jump n =
      front ++ .fork (some (b + 3 * (i + 1))) :: alt i :: .jmp (jump i) :: back := by
  induction n with
  | zero => exact absurd hi i.not_lt_zero
  | succ n ih =>
    rcases Nat.lt_succ_iff_lt_or_eq.mp hi with hi | rfl
    · obtain ⟨front, back, hlength, heq⟩ := ih hi
      exact ⟨front, back ++ _, hlength, by rw [blocks, heq]; simp; rfl⟩
    · exact ⟨blocks b alt jump i, [], length_blocks, rfl⟩

section Threads

variable (code rest : Code) (alt : ℕ → RegExpInstruction) (n : ℕ)

/-- The code of a disjunction between other code. -/
abbrev installed : Code := code ++ disjunction code.length alt n ++ rest

theorem installed_block {i : ℕ} (hi : i < n) : (installed code rest alt n)[code.length + 3 * i]? =
        some (.fork (some (code.length + 3 * (i + 1)))) ∧
      (installed code rest alt n)[code.length + 3 * i + 1]? = some (alt i) ∧
      (installed code rest alt n)[code.length + 3 * i + 2]? =
        some (.jmp (some (code.length + 3 * n + 1))) := by
  obtain ⟨front, back, hlength, heq⟩ := exists_block code.length alt
    (fun _ => some (code.length + 3 * n + 1)) hi
  rw [installed, disjunction, heq, ← hlength]
  simp [getElem?_append_right, Nat.add_assoc]

theorem installed_last : (installed code rest alt n)[code.length + 3 * n]? = some (alt n) := by
  simp [installed, disjunction]

variable (halt : ∀ i ≤ n, ∃ min max, alt i = .consumeRange min max)
include halt

/-- **Where threads are before they read input**: at a fork or an alternative. -/
theorem runs_cases {pc : ℕ} (h : Runs (installed code rest alt n) code.length pc) :
    (∃ i < n, pc = code.length + 3 * i) ∨ ∃ i ≤ n, (installed code rest alt n)[pc]? = some (alt i) ∧
        Runs (installed code rest alt n) (pc + 1) (code.length + 3 * n + 1) := by
  have hplace : ∀ i ≤ n, (∃ j < n, code.length + 3 * i = code.length + 3 * j) ∨
      ∃ j ≤ n, (installed code rest alt n)[code.length + 3 * i]? = some (alt j) ∧
        Runs (installed code rest alt n) (code.length + 3 * i + 1) (code.length + 3 * n + 1) := by
    intro i hi
    rcases hi.lt_or_eq with hi | rfl
    · exact .inl ⟨i, hi, rfl⟩
    · exact .inr ⟨i, le_rfl, installed_last .., .refl⟩
  induction h with
  | refl => exact hplace 0 (Nat.zero_le n)
  | tail _ hstep ih =>
    rcases ih with ⟨i, hi, rfl⟩ | ⟨i, hi, hinst, -⟩
    · obtain ⟨hfork, hinst, hjmp⟩ := installed_block code rest alt n hi
      rcases hstep with ⟨target, htarget, hpc⟩ | hstep
      · rw [hfork, Option.some_inj, RegExpInstruction.fork.injEq] at htarget
        subst htarget
        rcases hpc with rfl | hpc
        · exact .inr ⟨i, hi.le, hinst, .single (.inr hjmp)⟩
        · obtain rfl := Option.some.inj hpc
          exact hplace (i + 1) hi
      · rw [hfork] at hstep
        exact nomatch hstep
    · obtain ⟨min, max, heq⟩ := halt i hi
      rw [heq] at hinst
      rcases hstep with ⟨_, hstep, -⟩ | hstep
      · exact nomatch hinst.symm.trans hstep
      · exact nomatch hinst.symm.trans hstep

/-- A thread that consumes is at an alternative, and goes on at the end. -/
theorem exists_of_consumes {c : UInt16} {pc : ℕ}
    (h : Consumes (installed code rest alt n) code.length c pc) :
    ∃ i ≤ n, Accepts c (alt i) ∧
      Runs (installed code rest alt n) (pc + 1) (code.length + 3 * n + 1) := by
  obtain ⟨hruns, inst, hinst, haccepts⟩ := h
  rcases runs_cases code rest alt n halt hruns with ⟨i, hi, rfl⟩ | ⟨i, hi, hat, hend⟩
  · rw [(installed_block code rest alt n hi).1] at hinst
    exact (Option.some.inj hinst ▸ haccepts : Accepts c (.fork _)).elim
  · exact ⟨i, hi, Option.some.inj (hat.symm.trans hinst) ▸ haccepts, hend⟩

/-- **A disjunction** consumes what one of its alternatives does. -/
theorem consumes_iff (c : UInt16) :
    (∃ pc, Consumes (installed code rest alt n) code.length c pc) ↔ ∃ i ≤ n, Accepts c (alt i) := by
  constructor
  · rintro ⟨pc, h⟩
    obtain ⟨i, hi, haccepts, -⟩ := exists_of_consumes code rest alt n halt h
    exact ⟨i, hi, haccepts⟩
  · rintro ⟨i, hi, haccepts⟩
    have hfork : ∀ i ≤ n, Runs (installed code rest alt n) code.length (code.length + 3 * i) := by
      intro i
      induction i with
      | zero => exact fun _ => .refl
      | succ i ih =>
        intro hi
        exact (ih (Nat.le_of_succ_le hi)).tail
          (.inl ⟨_, (installed_block code rest alt n hi).1, .inr rfl⟩)
    rcases hi.lt_or_eq with hi | rfl
    · obtain ⟨hinst, halt, -⟩ := installed_block code rest alt n hi
      exact ⟨_, (hfork i hi.le).tail (.inl ⟨_, hinst, .inl rfl⟩), _, halt, haccepts⟩
    · exact ⟨_, hfork i le_rfl, _, installed_last .., haccepts⟩

end Threads

/-! ## Classes -/

variable {ranges : List CharacterRange} {negated : Bool}

variable (ranges)

/-- The code points of a class. -/
def classPoints (negated : Bool) : Set ℕ :=
  if negated then {c | c ≤ kMaxCodePoint ∧ c ∉ codePoints ranges} else codePoints ranges

/-- **The code of a class is exact**, wherever it is: a thread consumes a code unit
exactly if it is in the class, and goes on after the code. -/
def CompilesExactly (negated : Bool) (code : Code) : Prop :=
  ∃ code', compileCharacterRanges ranges negated code = some code' ∧ ∀ (rest : Code) (c : UInt16),
    ((∃ pc, Consumes (code' ++ rest) code.length c pc) ↔ c.toNat ∈ classPoints ranges negated) ∧
      ∀ pc, Consumes (code' ++ rest) code.length c pc → Runs (code' ++ rest) (pc + 1) code'.length

/-- **The code points above the code units at which a range is compiled**: those of the class
whose predecessor is not in it. The complement has no range for the last code point alone. -/
def BeginsAbove (negated : Bool) (x : ℕ) : Prop :=
  kMaxSupportedCodepoint < x ∧ x ∈ classPoints ranges negated ∧ x - 1 ∉ classPoints ranges negated ∧
    (negated = true → x ≠ kMaxCodePoint)

/-- The alternatives of some ranges, or the one that fails. -/
theorem exists_disjunction (code : Code) : ∃ n alt, compileDisjunction ranges.length
      (fun i code => code ++ [consumeRange (rangeAt ranges i)]) code =
        some (code ++ disjunction code.length alt n) ∧
    (∀ i ≤ n, ∃ min max, alt i = .consumeRange min max) ∧
    ∀ c, (∃ i ≤ n, Accepts c (alt i)) ↔ ∃ r ∈ ranges, Accepts c (consumeRange r) := by
  cases ranges with
  | nil =>
    refine ⟨0, fun _ => fail, rfl, fun i _ => ⟨_, _, rfl⟩, fun c => iff_of_false ?_ nofun⟩
    rintro ⟨i, -, hlow, hhigh⟩
    exact absurd (UInt16.le_trans hlow hhigh) (by decide)
  | cons r ranges =>
    refine ⟨ranges.length, fun i => consumeRange (rangeAt (r :: ranges) i),
      compileDisjunction_succ .., fun i _ => ⟨_, _, rfl⟩, fun c => ?_⟩
    have hrange : ∀ i (hi : i < (r :: ranges).length), rangeAt (r :: ranges) i = (r :: ranges)[i] :=
      fun i hi => by rw [rangeAt, getElem?_eq_getElem hi, Option.getD_some]
    constructor
    · rintro ⟨i, hi, haccepts⟩
      exact ⟨_, getElem_mem (Nat.lt_succ_of_le hi), hrange i _ ▸ haccepts⟩
    · rintro ⟨s, hs, haccepts⟩
      obtain ⟨i, hi, rfl⟩ := mem_iff_getElem.mp hs
      exact ⟨i, Nat.le_of_lt_succ hi, by simpa only [hrange i hi] using haccepts⟩

variable {ranges}

/-- What the instruction for a range lets pass. -/
theorem accepts_consumeRange {r : CharacterRange} (hr : r.Valid) (c : UInt16) :
    Accepts c (consumeRange r) ↔ (r.from_ ≤ c.toNat ∧ c.toNat ≤ r.to_) ∨
      (kMaxSupportedCodepoint < r.from_ ∧ r.from_ % 2 ^ 16 ≤ c.toNat) := by
  have hc := c.toNat_lt
  have hle := hr.1
  rw [consumeRange, Accepts, le_iff_toNat_le, le_iff_toNat_le, toNat_ofNat',
    toNat_ofNat', kMaxSupportedCodepoint]
  omega

/-- The ranges that are compiled are those of the class, but for a last code point alone. -/
theorem compiledRanges_spec (hvalid : ∀ r ∈ ranges, r.Valid) (negated : Bool) :
    Canonical (compiledRanges ranges negated) ∧ ∀ c,
      c ∈ codePoints (compiledRanges ranges negated) ↔ c ∈ classPoints ranges negated ∧
        (negated = true → c = kMaxCodePoint → c - 1 ∈ classPoints ranges negated) := by
  obtain ⟨hcanonical, hmem⟩ := canonicalize_spec hvalid
  cases negated with
  | false => exact ⟨hcanonical, fun c => by simp [compiledRanges, classPoints, hmem]⟩
  | true =>
    obtain ⟨hcanonical', hmem'⟩ := negate_spec hcanonical
    refine ⟨hcanonical', fun c => (hmem' c).trans ?_⟩
    rw [hmem, classPoints, if_pos rfl, Set.mem_ofPred_eq, Set.mem_ofPred_eq, and_assoc]
    refine and_congr_right fun hc => and_congr_right fun _ => ⟨fun h _ heq => ?_, fun h heq => ?_⟩
    · exact ⟨(Nat.sub_le c 1).trans hc, h heq⟩
    · exact (h rfl heq).2

theorem mem_compiledRanges (hvalid : ∀ r ∈ ranges, r.Valid) (negated : Bool) {c : ℕ}
    (hc : c < kMaxCodePoint) :
    c ∈ codePoints (compiledRanges ranges negated) ↔ c ∈ classPoints ranges negated :=
  ((compiledRanges_spec hvalid negated).2 c).trans
    (and_iff_left fun _ heq => absurd heq hc.ne)

theorem exists_from_iff_beginsAbove (hvalid : ∀ r ∈ ranges, r.Valid) (negated : Bool) (x : ℕ) :
    (kMaxSupportedCodepoint < x ∧ ∃ r ∈ compiledRanges ranges negated, r.from_ = x) ↔
      BeginsAbove ranges negated x := by
  refine and_congr_right fun hx => ?_
  obtain ⟨y, rfl⟩ := Nat.exists_eq_add_of_le' (Nat.one_le_of_lt hx)
  obtain ⟨hcanonical, hmem⟩ := compiledRanges_spec hvalid negated
  rw [hcanonical.exists_from_iff, Nat.add_sub_cancel]
  constructor
  · rintro ⟨hnext, hnot⟩
    obtain ⟨hclass, hlast⟩ := (hmem _).mp hnext
    have hy := (mem_compiledRanges hvalid negated (hcanonical.le_max hnext)).not.mp hnot
    exact ⟨hclass, hy, fun hneg heq => hy (hlast hneg heq)⟩
  · rintro ⟨hclass, hnot, hlast⟩
    have hnext := (hmem (y + 1)).mpr ⟨hclass, fun hneg heq => absurd heq (hlast hneg)⟩
    exact ⟨hnext, (mem_compiledRanges hvalid negated (hcanonical.le_max hnext)).not.mpr hnot⟩

/-- **Character classes are compiled exactly** if and only if the code units that a
range above them is narrowed to are in the class. -/
theorem compileCharacterRanges_iff (hvalid : ∀ r ∈ ranges, r.Valid) (code : Code) :
    CompilesExactly ranges negated code ↔ ∀ x, BeginsAbove ranges negated x →
      ∀ c : UInt16, x % 2 ^ 16 ≤ c.toNat → c.toNat ∈ classPoints ranges negated := by
  obtain ⟨n, alt, hcode, halt, hiff⟩ := exists_disjunction (compiledRanges ranges negated) code
  have hconsumes : ∀ rest c, (∃ pc, Consumes (installed code rest alt n) code.length c pc) ↔
      c.toNat ∈ classPoints ranges negated ∨
        ∃ x, BeginsAbove ranges negated x ∧ x % 2 ^ 16 ≤ c.toNat := by
    intro rest c
    have hc : c.toNat < kMaxCodePoint := c.toNat_lt.trans (by decide)
    have haccept {r} (hr : r ∈ compiledRanges ranges negated) :=
      accepts_consumeRange ((compiledRanges_spec hvalid negated).1.valid r hr) c
    rw [consumes_iff code rest alt n halt, hiff, ← mem_compiledRanges hvalid negated hc]
    constructor
    · rintro ⟨r, hr, haccepts⟩
      rcases (haccept hr).mp haccepts with h | ⟨hfrom, hle⟩
      · exact .inl ⟨r, hr, h⟩
      · exact .inr ⟨_, (exists_from_iff_beginsAbove hvalid negated _).mp ⟨hfrom, r, hr, rfl⟩, hle⟩
    · rintro (⟨r, hr, h⟩ | ⟨x, hx, hle⟩)
      · exact ⟨r, hr, (haccept hr).mpr (.inl h)⟩
      · obtain ⟨hfrom, r, hr, rfl⟩ := (exists_from_iff_beginsAbove hvalid negated x).mpr hx
        exact ⟨r, hr, (haccept hr).mpr (.inr ⟨hfrom, hle⟩)⟩
  constructor
  · rintro ⟨code', hcode', h⟩ x hx c hc
    obtain rfl := Option.some.inj (hcode.symm.trans hcode')
    exact (h [] c).1.mp ((hconsumes [] c).mpr (.inr ⟨x, hx, hc⟩))
  · refine fun h => ⟨_, hcode, fun rest c => ⟨(hconsumes rest c).trans (or_iff_left_of_imp ?_), ?_⟩⟩
    · rintro ⟨x, hx, hc⟩
      exact h x hx c hc
    · intro pc hpc
      obtain ⟨-, -, -, hend⟩ := exists_of_consumes code rest alt n halt hpc
      rwa [show (code ++ disjunction code.length alt n).length = code.length + 3 * n + 1 by
        simp [disjunction, Nat.add_assoc]]

/-- All but the lower-case letters. No range begins above the code units. -/
theorem compileCharacterRanges_iff_letters : CompilesExactly [⟨0x61, 0x7A⟩] true [] := by
  refine (compileCharacterRanges_iff (by decide) []).mpr ?_
  rintro x ⟨hx, ⟨hmax, -⟩, hnot, -⟩
  rw [kMaxSupportedCodepoint] at hx
  refine absurd ⟨(Nat.sub_le x 1).trans hmax, ?_⟩ hnot
  rintro ⟨r, hr, hle⟩
  obtain rfl := mem_singleton.mp hr
  simp only at hle
  omega

/-- The complement of all code units consumes all of them. -/
theorem not_compilesExactly_complement :
    compileCharacterRanges [⟨0, 0xFFFF⟩] true [] = some [.consumeRange 0 0xFFFF] ∧
      ¬CompilesExactly [⟨0, 0xFFFF⟩] true [] := by
  have hcode : compileCharacterRanges [⟨0, 0xFFFF⟩] true [] = some [.consumeRange 0 0xFFFF] := by
    decide +kernel
  refine ⟨hcode, ?_⟩
  rintro ⟨code', hcode', h⟩
  obtain rfl := Option.some.inj (hcode.symm.trans hcode')
  have hclass : (0x61 : UInt16).toNat ∈ classPoints [⟨0, 0xFFFF⟩] true :=
    (h [] 0x61).1.mp ⟨0, .refl, _, rfl, by decide, by decide⟩
  exact hclass.2 ⟨_, mem_cons_self, by decide, by decide⟩

end Code
