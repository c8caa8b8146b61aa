import V8Speak.CanonicalizeRanges

/-!
# Class set expressions

With the `v` flag a character class is an expression: unions, intersections
and differences of operands, each of them possibly negated
(`RegExpClassSetExpression`, `regexp/regexp-ast.h`). `ComputeExpression`
evaluates it to one operand, that is to ranges and strings
(`regexp/regexp-compiler-tonode.cc`). This file has the evaluation, the set that
an expression denotes, and when the one is the other
(`codePoints_computeExpression_iff`).

The operands of intersections and differences must be canonical where the loop over
them is entered (`Walkable`) – they are put together by the parser, which does not
sort the characters of a string disjunction `\q{…}`; a union sorts its operands
itself. What is then evaluated differs from the denoted set in the last code point
only, which each negation loses if the code point before it is there
(`evalPoints`).

The evaluation replaces the operands of an expression by the result, and keeps
the expression negated. So a negated expression denotes the complement of what
it did, once it has been evaluated (`codePoints_computeExpression_again`).
-/

open CharacterRange Set Option

/-- `RegExpClassSetOperand`: ranges, and strings if there is a map for them. -/
structure ClassSetOperand where
  ranges : List CharacterRange
  strings : Option (Finset (List ℕ))
  deriving DecidableEq

inductive OperationType
  | kUnion
  | kIntersection
  | kSubtraction
  deriving DecidableEq, Repr

/-- A tree of class set expressions. An expression has at least one operand. -/
inductive ClassSetTree
  | operand (op : ClassSetOperand)
  | expression (operation : OperationType) (isNegated : Bool) (first : ClassSetTree)
      (rest : List ClassSetTree)

namespace ClassSetOperand

def hasStrings (op : ClassSetOperand) : Bool := op.strings.getD ∅ ≠ ∅

variable (op other : ClassSetOperand)

def union : ClassSetOperand where
  ranges := op.ranges ++ other.ranges
  strings := if other.hasStrings then some (op.strings.getD ∅ ∪ other.strings.getD ∅)
    else op.strings

def intersect : ClassSetOperand where
  ranges := CharacterRange.intersect op.ranges other.ranges
  strings :=
    if op.hasStrings then
      if other.hasStrings then some (op.strings.getD ∅ ∩ other.strings.getD ∅) else some ∅
    else op.strings

def subtract : ClassSetOperand where
  ranges := CharacterRange.subtract op.ranges other.ranges
  strings :=
    if op.hasStrings && other.hasStrings then some (op.strings.getD ∅ \ other.strings.getD ∅)
    else op.strings

end ClassSetOperand

/-- The step of `ComputeExpression` for an operand after the first. -/
def OperationType.apply : OperationType → ClassSetOperand → ClassSetOperand → ClassSetOperand
  | .kUnion => .union
  | .kIntersection => .intersect
  | .kSubtraction => .subtract

namespace ClassSetTree

mutual

def computeExpression : ClassSetTree → ClassSetOperand
  | .operand op => op
  | .expression operation isNegated first rest =>
    let result := computeRest operation (computeExpression first) rest
    let result := if operation = .kUnion then { result with ranges := canonicalize result.ranges }
      else result
    if isNegated then { result with ranges := negate result.ranges } else result

/-- The loops of `ComputeExpression`. -/
def computeRest (operation : OperationType) (result : ClassSetOperand) :
    List ClassSetTree → ClassSetOperand
  | [] => result
  | tree :: trees => computeRest operation (operation.apply result (computeExpression tree)) trees

end

/-- The tree after an evaluation. -/
def evaluated : ClassSetTree → ClassSetTree
  | .operand op => .operand op
  | .expression operation isNegated first rest =>
    .expression operation isNegated
      (.operand (computeExpression (.expression operation isNegated first rest))) []

end ClassSetTree

/-! ## The set of an expression -/

/-- The operation on sets of code points. -/
def OperationType.sets : OperationType → Set ℕ → Set ℕ → Set ℕ
  | .kUnion, s, t => s ∪ t
  | .kIntersection, s, t => s ∩ t
  | .kSubtraction, s, t => s \ t

/-- The code points that are not in a set. -/
def complement (s : Set ℕ) : Set ℕ := {c | c ≤ kMaxCodePoint ∧ c ∉ s}

/-- A set that `negate` has right: it does not end with the last code point but
one. -/
def Negatable (s : Set ℕ) : Prop := kMaxCodePoint - 1 ∈ s → kMaxCodePoint ∈ s

namespace ClassSetTree

mutual

/-- **The code points of an expression.** -/
def codePoints : ClassSetTree → Set ℕ
  | .operand op => CharacterRange.codePoints op.ranges
  | .expression operation isNegated first rest =>
    if isNegated then complement (codePointsRest operation (codePoints first) rest)
    else codePointsRest operation (codePoints first) rest

def codePointsRest (operation : OperationType) (s : Set ℕ) : List ClassSetTree → Set ℕ
  | [] => s
  | tree :: trees => codePointsRest operation (operation.sets s (codePoints tree)) trees

end

/-- What `negate` makes of a set: the last code point is lost if the one before it
is in the set. -/
def negatedPoints (s : Set ℕ) : Set ℕ :=
  {c | c ≤ kMaxCodePoint ∧ c ∉ s ∧ (c = kMaxCodePoint → c - 1 ∉ s)}

mutual

/-- **The code points that are evaluated**: those of the expression, with the
negation of the code. -/
def evalPoints : ClassSetTree → Set ℕ
  | .operand op => CharacterRange.codePoints op.ranges
  | .expression operation isNegated first rest =>
    if isNegated then negatedPoints (evalPointsRest operation (evalPoints first) rest)
    else evalPointsRest operation (evalPoints first) rest

def evalPointsRest (operation : OperationType) (s : Set ℕ) : List ClassSetTree → Set ℕ
  | [] => s
  | tree :: trees => evalPointsRest operation (operation.sets s (evalPoints tree)) trees

end

/-- Whether ranges are canonical after an operation, if they were before in the case
`sorted`. Only a difference with nothing leaves them as they are. -/
def StaysSorted (operation : OperationType) (sorted : Prop) (t : Set ℕ) : Prop :=
  operation ≠ .kUnion ∧ (operation = .kSubtraction → t = ∅ → sorted)

mutual

/-- The ranges an evaluation ends with are canonical. -/
def Sorted : ClassSetTree → Prop
  | .operand op => Canonical op.ranges
  | .expression operation isNegated first rest =>
    operation = .kUnion ∨ isNegated = true ∨ SortedRest operation (Sorted first) rest

def SortedRest (operation : OperationType) (sorted : Prop) : List ClassSetTree → Prop
  | [] => sorted
  | tree :: trees => SortedRest operation (StaysSorted operation sorted (evalPoints tree)) trees

end

mutual

/-- **What the loops over ranges need**: where an intersection or a difference has
two operands that are not empty, both are canonical, and so is what is negated. -/
def Walkable : ClassSetTree → Prop
  | .operand op => ∀ r ∈ op.ranges, r.Valid
  | .expression operation isNegated first rest =>
    Walkable first ∧ WalkableRest operation (Sorted first) (evalPoints first) rest ∧
      (isNegated = true → operation = .kUnion ∨ SortedRest operation (Sorted first) rest)

def WalkableRest (operation : OperationType) (sorted : Prop) (s : Set ℕ) :
    List ClassSetTree → Prop
  | [] => True
  | tree :: trees =>
    (Walkable tree ∧
      (operation ≠ .kUnion → s = ∅ ∨ evalPoints tree = ∅ ∨ (sorted ∧ Sorted tree))) ∧
      WalkableRest operation (StaysSorted operation sorted (evalPoints tree))
        (operation.sets s (evalPoints tree)) trees

end

/-- Ranges that denote a set, and that are canonical in the case `sorted`. -/
def Denotes (sorted : Prop) (ranges : List CharacterRange) (s : Set ℕ) : Prop :=
  CharacterRange.codePoints ranges = s ∧ (∀ r ∈ ranges, r.Valid) ∧ (sorted → Canonical ranges)

variable {operation : OperationType} {sorted sorted' : Prop}

theorem Denotes.eq_nil {ranges : List CharacterRange} {s : Set ℕ} (h : Denotes sorted ranges s)
    (hs : s = ∅) : ranges = [] := by
  obtain ⟨rfl, hvalid, -⟩ := h
  refine List.eq_nil_iff_forall_not_mem.mpr fun r hr => ?_
  exact eq_empty_iff_forall_notMem.mp hs r.from_ ⟨r, hr, le_rfl, (hvalid r hr).1⟩

theorem subtract_nil {l : List CharacterRange} (hvalid : ∀ r ∈ l, r.Valid) :
    CharacterRange.subtract l [] = l := by
  cases l with
  | nil => rfl
  | cons r l =>
    rw [CharacterRange.subtract, subtractFrom, if_pos (hvalid r List.mem_cons_self).1]
    · rfl
    · simp

/-- A loop that is not entered. -/
theorem Denotes.apply_of_empty {op other : ClassSetOperand} {s t : Set ℕ}
    (hs : Denotes sorted op.ranges s) (ht : Denotes sorted' other.ranges t)
    (hempty : s = ∅ ∨ t = ∅) (hne : operation ≠ .kUnion) :
    Denotes (StaysSorted operation sorted t) (operation.apply op other).ranges
      (operation.sets s t) := by
  have hnone (p : Prop) : Denotes p [] ∅ :=
    ⟨eq_empty_of_forall_notMem fun c => not_mem_codePoints_nil, nofun, fun _ => .nil⟩
  cases operation with
  | kUnion => exact absurd rfl hne
  | kIntersection =>
    show Denotes _ (CharacterRange.intersect op.ranges other.ranges) (s ∩ t)
    rcases hempty with h | h
    · rw [hs.eq_nil h, h, empty_inter, CharacterRange.intersect]
      exact hnone _
    · have hnil : CharacterRange.intersect op.ranges [] = [] := by
        cases op.ranges <;> simp [CharacterRange.intersect]
      rw [ht.eq_nil h, h, inter_empty, hnil]
      exact hnone _
  | kSubtraction =>
    show Denotes _ (CharacterRange.subtract op.ranges other.ranges) (s \ t)
    rcases hempty with h | h
    · rw [hs.eq_nil h, h, empty_sdiff]
      exact hnone _
    · rw [ht.eq_nil h, subtract_nil hs.2.1, h, sdiff_empty]
      exact ⟨hs.1, hs.2.1, fun hsorted => hs.2.2 (hsorted.2 rfl rfl)⟩

theorem Denotes.apply {op other : ClassSetOperand} {s t : Set ℕ}
    (hs : Denotes sorted op.ranges s) (ht : Denotes sorted' other.ranges t)
    (h : operation ≠ .kUnion → s = ∅ ∨ t = ∅ ∨ (sorted ∧ sorted')) :
    Denotes (StaysSorted operation sorted t) (operation.apply op other).ranges
      (operation.sets s t) := by
  by_cases hunion : operation = .kUnion
  · subst hunion
    refine ⟨codePoints_append.trans (by rw [hs.1, ht.1]; rfl), fun r hr => ?_,
      fun hsorted => absurd rfl hsorted.1⟩
    exact (List.mem_append.mp hr).elim (hs.2.1 r) (ht.2.1 r)
  rcases h hunion with h | h | ⟨hsorted, hsorted'⟩
  · exact hs.apply_of_empty ht (.inl h) hunion
  · exact hs.apply_of_empty ht (.inr h) hunion
  obtain ⟨rfl, -, hcanonical⟩ := hs
  obtain ⟨rfl, -, hcanonical'⟩ := ht
  cases operation with
  | kUnion => exact absurd rfl hunion
  | kIntersection =>
    obtain ⟨h, hmem⟩ := intersect_spec (hcanonical hsorted) (hcanonical' hsorted')
    exact ⟨Set.ext hmem, h.valid, fun _ => h⟩
  | kSubtraction =>
    obtain ⟨h, hmem⟩ := subtract_spec (hcanonical hsorted) (hcanonical' hsorted')
    exact ⟨Set.ext hmem, h.valid, fun _ => h⟩

/-- The end of `ComputeExpression`: a union is made canonical, and the result is
negated. -/
theorem Denotes.finish {op : ClassSetOperand} {s : Set ℕ} (h : Denotes sorted op.ranges s)
    {isNegated : Bool} (hnegated : isNegated = true → operation = .kUnion ∨ sorted) :
    let result := if operation = .kUnion then { op with ranges := canonicalize op.ranges } else op
    Denotes (operation = .kUnion ∨ isNegated = true ∨ sorted)
      (if isNegated then { result with ranges := negate result.ranges } else result).ranges
      (if isNegated then negatedPoints s else s) := by
  obtain ⟨rfl, hvalid, hcanonical⟩ := h
  intro result
  have hresult : Denotes (operation = .kUnion ∨ sorted) result.ranges
      (CharacterRange.codePoints op.ranges) := by
    by_cases hunion : operation = .kUnion
    · obtain ⟨h, hmem⟩ := canonicalize_spec hvalid
      rw [show result = { op with ranges := canonicalize op.ranges } from if_pos hunion]
      exact ⟨hmem, h.valid, fun _ => h⟩
    · rw [show result = op from if_neg hunion]
      exact ⟨rfl, hvalid, fun h => hcanonical (h.resolve_left hunion)⟩
  obtain ⟨hmem, hvalid', hcanonical'⟩ := hresult
  cases isNegated with
  | false => exact ⟨hmem, hvalid', fun h => hcanonical' (h.imp_right (Or.resolve_left · nofun))⟩
  | true =>
    obtain ⟨hneg, hmem'⟩ := negate_spec (hcanonical' (hnegated rfl))
    rw [if_pos rfl, if_pos rfl, ← hmem]
    exact ⟨Set.ext hmem', hneg.valid, fun _ => hneg⟩

mutual

/-- **The evaluation**, over the whole tree. -/
theorem denotes_computeExpression : ∀ tree : ClassSetTree, Walkable tree →
    Denotes (Sorted tree) (computeExpression tree).ranges (evalPoints tree)
  | .operand _, h => ⟨rfl, h, id⟩
  | .expression _ _ first rest, ⟨hfirst, hrest, hnegated⟩ =>
    (denotes_computeRest rest (denotes_computeExpression first hfirst) hrest).finish hnegated

theorem denotes_computeRest : ∀ (trees : List ClassSetTree) {operation : OperationType}
    {sorted : Prop} {result : ClassSetOperand} {s : Set ℕ}, Denotes sorted result.ranges s →
      WalkableRest operation sorted s trees →
      Denotes (SortedRest operation sorted trees) (computeRest operation result trees).ranges
        (evalPointsRest operation s trees)
  | [], _, _, _, _, h, _ => h
  | tree :: trees, _, _, _, _, h, ⟨⟨htree, hwalk⟩, htrees⟩ =>
    denotes_computeRest trees (h.apply (denotes_computeExpression tree htree) hwalk) htrees

end

theorem mem_sets {s s' t t' : Set ℕ} {c : ℕ} (hs : c ∈ s ↔ c ∈ s') (ht : c ∈ t ↔ c ∈ t') :
    c ∈ operation.sets s t ↔ c ∈ operation.sets s' t' := by
  cases operation with
  | kUnion => exact or_congr hs ht
  | kIntersection => exact and_congr hs ht
  | kSubtraction => exact and_congr hs (not_congr ht)

mutual

/-- **Only the last code point may be lost** or left. -/
theorem mem_evalPoints_iff {c : ℕ} (hc : c ≠ kMaxCodePoint) :
    ∀ tree : ClassSetTree, c ∈ evalPoints tree ↔ c ∈ codePoints tree
  | .operand _ => Iff.rfl
  | .expression operation isNegated first rest => by
    have hrest := @mem_evalPointsRest_iff c hc rest operation _ _ (mem_evalPoints_iff hc first)
    cases isNegated with
    | false => exact hrest
    | true =>
      refine and_congr_right fun _ => ?_
      rw [hrest, and_iff_left fun h => absurd h hc]

theorem mem_evalPointsRest_iff {c : ℕ} (hc : c ≠ kMaxCodePoint) :
    ∀ (trees : List ClassSetTree) {operation : OperationType} {s s' : Set ℕ}, (c ∈ s ↔ c ∈ s') →
      (c ∈ evalPointsRest operation s trees ↔ c ∈ codePointsRest operation s' trees)
  | [], _, _, _, h => h
  | tree :: trees, _, _, _, h =>
    mem_evalPointsRest_iff hc trees (mem_sets h (mem_evalPoints_iff hc tree))

end

theorem evalPoints_eq_iff (tree : ClassSetTree) : evalPoints tree = codePoints tree ↔
    (kMaxCodePoint ∈ evalPoints tree ↔ kMaxCodePoint ∈ codePoints tree) := by
  refine ⟨fun h => by rw [h], fun h => Set.ext fun c => ?_⟩
  by_cases hc : c = kMaxCodePoint
  · rwa [hc]
  · exact mem_evalPoints_iff hc tree

/-- **When the evaluation gives the denoted set.** -/
theorem codePoints_computeExpression_iff {tree : ClassSetTree} (h : Walkable tree) :
    CharacterRange.codePoints (computeExpression tree).ranges = codePoints tree ↔
      (kMaxCodePoint ∈ evalPoints tree ↔ kMaxCodePoint ∈ codePoints tree) := by
  rw [(denotes_computeExpression tree h).1, evalPoints_eq_iff]

-- the class `[\q{b|a}&&a]`, with the operands as they are parsed, is empty
example : (computeExpression (.expression .kIntersection false
    (.operand ⟨[⟨0x62, 0x62⟩, ⟨0x61, 0x61⟩], none⟩)
    [.operand ⟨[⟨0x61, 0x61⟩], none⟩])).ranges = [] := by
  simp [computeExpression, computeRest, OperationType.apply, ClassSetOperand.intersect,
    CharacterRange.intersect]

theorem negatedPoints_eq_iff {s : Set ℕ} :
    negatedPoints s = complement s ↔ Negatable s := by
  constructor
  · intro heq hprev
    by_contra hlast
    have hmem : kMaxCodePoint ∈ negatedPoints s := heq ▸ ⟨le_rfl, hlast⟩
    exact hmem.2.2 rfl hprev
  · intro h
    refine Set.ext fun c => and_congr_right fun _ => and_iff_left_of_imp fun hc heq hprev => ?_
    rw [heq] at hc hprev
    exact hc (h hprev)

/-- **A negated expression that is evaluated again** gives the complement of what it
denotes, if it was evaluated to that and its complement can be. -/
theorem codePoints_computeExpression_again {first : ClassSetTree}
    {rest : List ClassSetTree} (h : Walkable (.expression operation true first rest))
    (hright : CharacterRange.codePoints
        (computeExpression (.expression operation true first rest)).ranges
      = codePoints (.expression operation true first rest))
    (hagain : Negatable (codePoints (.expression operation true first rest))) :
    CharacterRange.codePoints
        (computeExpression (evaluated (.expression operation true first rest))).ranges
      = complement (codePoints (.expression operation true first rest)) := by
  obtain ⟨-, hvalid, hcanonical⟩ := denotes_computeExpression _ h
  have hsorted := hcanonical (.inr (.inl rfl))
  have hwalkable : Walkable (evaluated (.expression operation true first rest)) :=
    ⟨hvalid, trivial, fun _ => .inr hsorted⟩
  rw [(denotes_computeExpression _ hwalkable).1, ← negatedPoints_eq_iff.mpr hagain, ← hright]
  rfl

theorem codePoints_computeExpression_again_letters :
    let tree := expression .kUnion true (.operand ⟨[⟨97, 122⟩], none⟩) []
    CharacterRange.codePoints (computeExpression (evaluated tree)).ranges =
      complement (codePoints tree) := by
  have hlast : ∀ c, 122 < c → c ∉ CharacterRange.codePoints [⟨97, 122⟩] := by
    intro c hc hmem
    rcases mem_codePoints_cons.mp hmem with h | h
    · exact absurd h.2 (not_le.mpr hc)
    · exact not_mem_codePoints_nil h
  have hmax : kMaxCodePoint ∉ CharacterRange.codePoints [⟨97, 122⟩] := hlast _ (by decide)
  have hwalkable : Walkable (expression .kUnion true (.operand ⟨[⟨97, 122⟩], none⟩) []) :=
    ⟨fun r hr => List.mem_singleton.mp hr ▸ by decide, trivial, fun _ => .inl rfl⟩
  refine codePoints_computeExpression_again hwalkable ?_ fun _ => ⟨le_rfl, hmax⟩
  exact (codePoints_computeExpression_iff hwalkable).mpr
    (iff_of_true ⟨le_rfl, hmax, fun _ => hlast _ (by decide)⟩ ⟨le_rfl, hmax⟩)

end ClassSetTree

/-! ## The strings of an expression -/

/-- The operation on sets of strings. -/
def OperationType.stringSets : OperationType → Finset (List ℕ) → Finset (List ℕ) → Finset (List ℕ)
  | .kUnion, s, t => s ∪ t
  | .kIntersection, s, t => s ∩ t
  | .kSubtraction, s, t => s \ t

theorem OperationType.strings_apply (operation : OperationType) (op other : ClassSetOperand) :
    (operation.apply op other).strings.getD ∅
      = operation.stringSets (op.strings.getD ∅) (other.strings.getD ∅) := by
  have hnone : ∀ op : ClassSetOperand, ¬ op.hasStrings = true → op.strings.getD ∅ = ∅ :=
    fun op h => by simpa [ClassSetOperand.hasStrings] using h
  cases operation with
  | kUnion =>
    show getD (if other.hasStrings = true then _ else _) ∅ = _ ∪ _
    split
    · rfl
    · next h => rw [hnone other h, Finset.union_empty]
  | kIntersection =>
    show getD (if op.hasStrings = true then if other.hasStrings = true then _ else _ else _) ∅
      = _ ∩ _
    split
    · split
      · rfl
      · next h => rw [hnone other h, Finset.inter_empty, getD_some]
    · next h => rw [hnone op h, Finset.empty_inter]
  | kSubtraction =>
    show getD (if (op.hasStrings && other.hasStrings) = true then _ else _) ∅ = _ \ _
    split
    · rfl
    · next h =>
      by_cases hop : op.hasStrings = true
      · rw [hnone other fun hother => h (by rw [hop, hother]; rfl), Finset.sdiff_empty]
      · rw [hnone op hop, Finset.empty_sdiff]

namespace ClassSetTree

mutual

/-- The strings of an expression. -/
def strings : ClassSetTree → Finset (List ℕ)
  | .operand op => op.strings.getD ∅
  | .expression operation _ first rest => stringsRest operation (strings first) rest

def stringsRest (operation : OperationType) (s : Finset (List ℕ)) :
    List ClassSetTree → Finset (List ℕ)
  | [] => s
  | tree :: trees => stringsRest operation (operation.stringSets s (strings tree)) trees

end

mutual

/-- **The evaluation gives the denoted strings.** -/
theorem strings_computeExpression :
    ∀ tree : ClassSetTree, (computeExpression tree).strings.getD ∅ = strings tree
  | .operand op => rfl
  | .expression operation isNegated first rest => by
    have hstep : (computeExpression (.expression operation isNegated first rest)).strings
        = (computeRest operation (computeExpression first) rest).strings := by
      rw [computeExpression]
      split <;> split <;> rfl
    rw [strings, ← strings_computeExpression first, ← strings_computeRest rest operation, hstep]

theorem strings_computeRest : ∀ (trees : List ClassSetTree) (operation : OperationType)
    (result : ClassSetOperand), (computeRest operation result trees).strings.getD ∅
      = stringsRest operation (result.strings.getD ∅) trees
  | [], _, _ => rfl
  | tree :: trees, operation, result => by
    rw [computeRest, strings_computeRest trees operation, operation.strings_apply,
      strings_computeExpression tree, stringsRest]

end

/-- **Evaluating again keeps the strings**, which negation does not touch. -/
theorem strings_computeExpression_evaluated (tree : ClassSetTree) :
    (computeExpression (evaluated tree)).strings.getD ∅ = strings tree := by
  rw [strings_computeExpression]
  cases tree with
  | operand op => rfl
  | expression operation isNegated first rest => exact strings_computeExpression _

end ClassSetTree

/-! ## The algebra of character ranges -/

variable {l m : List CharacterRange}
