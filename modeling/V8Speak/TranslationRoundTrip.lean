import V8Speak.TranslationReader

/-!
# Translations round trip

The builder is described by what the bytes it has written mean to a reader, whatever will
be written after them (`ReadsFrom`): a reader that starts at an index gets the
instructions given so far, and then those that the rest stands for. Instructions that
are the same as in the basis are pending until another one comes, so they are not yet
part of the bytes (`Builds`).

Writing out an instruction, a run and a new translation are one step each
(`ReadsFrom.explicit`, `ReadsFrom.run`, `ReadsFrom.translation`). So however the builder chooses
between them, and whatever basis it takes, a reader returns all instructions that were
given since the index it starts at.
-/

open List TranslationInstruction Vlq TranslationArrayBuilder Translation TranslationArrayIterator

variable {contents : List Byte} {basis basis' given : List TranslationInstruction}
  {written p count : ℕ} {i : TranslationInstruction}

/-! ## What the bytes mean -/

/-- **A reader at `p`** gets what is given, and goes on with what comes after the
contents. -/
def TranslationArrayBuilder.ReadsFrom (contents : List Byte)
    (basis : List TranslationInstruction) (written p : ℕ) (given : List TranslationInstruction) :
    Prop :=
  p ≤ contents.length ∧ ∀ tail is, StandsFor (contents ++ tail) basis written tail is →
    ∀ basis₀ n₀, StandsFor (contents ++ tail) basis₀ n₀ (contents.drop p ++ tail) (given ++ is)

variable {is : List TranslationInstruction}

theorem TranslationArrayBuilder.ReadsFrom.entry {data : List Byte}
    (h : ReadsFrom contents basis written p given) {written' : ℕ}
    (hentry : ∀ tail is', StandsFor (contents ++ (data ++ tail)) basis' written' tail is' →
      StandsFor (contents ++ (data ++ tail)) basis written (data ++ tail) (is ++ is')) :
    ReadsFrom (contents ++ data) basis' written' p (given ++ is) := by
  obtain ⟨hp, h⟩ := h
  refine ⟨hp.trans (length_append ▸ Nat.le_add_right _ _), fun tail is' htail basis₀ n₀ => ?_⟩
  rw [append_assoc] at htail ⊢
  have hall := h (data ++ tail) (is ++ is') (hentry tail is' htail) basis₀ n₀
  rwa [append_assoc given, drop_append_of_le_length hp, append_assoc]

theorem TranslationArrayBuilder.ReadsFrom.explicit (h : ReadsFrom contents basis written p given)
    (hi : i.IsPlain) :
    ReadsFrom (contents ++ i.encode) basis (written + 1) p (given ++ [i]) :=
  h.entry fun _ _ htail => .explicit hi htail

theorem TranslationArrayBuilder.ReadsFrom.run (h : ReadsFrom contents basis written p given)
    (hpos : 0 < count) (hcount : count < 2 ^ 31) (hle : written + count ≤ basis.length) :
    ReadsFrom (contents ++ encodeMatch count) basis (written + count) p
      (given ++ (basis.drop written).take count) :=
  h.entry fun _ _ htail => .run hpos hcount hle htail

variable {distance : BitVec 32} (hi : i.IsBegin distance)
  (hbasis : BasisAt (contents ++ i.encode) distance contents.length basis')
include hi hbasis

/-- A new translation is read from its beginning. -/
theorem TranslationArrayIterator.StandsFor.translation_append {tail : List Byte}
    (h : StandsFor (contents ++ (i.encode ++ tail)) basis' 1 tail is)
    (basis₀ : List TranslationInstruction) (n₀ : ℕ) :
    StandsFor (contents ++ (i.encode ++ tail)) basis₀ n₀ (i.encode ++ tail) (i :: is) := by
  refine .translation hi length_append.symm ?_ h
  refine hbasis.imp_right fun ⟨hne, hin, start, rest, hstart, hdrop⟩ =>
    ⟨hne, hin, start, rest ++ tail, hstart, ?_⟩
  rw [← append_assoc, drop_append_of_le_length, hdrop, append_assoc]
  rw [length_append]
  omega

theorem TranslationArrayBuilder.ReadsFrom.translation
    (h : ReadsFrom contents basis written p given) :
    ReadsFrom (contents ++ i.encode) basis' 1 p (given ++ [i]) :=
  h.entry fun _ _ htail => htail.translation_append hi hbasis _ _

theorem TranslationArrayBuilder.ReadsFrom.start :
    ReadsFrom (contents ++ i.encode) basis' 1 contents.length [i] := by
  refine ⟨length_append ▸ Nat.le_add_right _ _, fun tail is htail basis₀ n₀ => ?_⟩
  rw [drop_left]
  rw [append_assoc] at htail ⊢
  exact htail.translation_append hi hbasis basis₀ n₀

omit hi hbasis

/-! ## The builder -/

namespace TranslationArrayBuilder

variable {b : TranslationArrayBuilder} {first : TranslationInstruction}

theorem finishPendingInstructionIfNeeded_eq (b : TranslationArrayBuilder) :
    b.finishPendingInstructionIfNeeded = { b with
      contents := b.contents ++
        if b.matchingInstructionsCount = 0 then [] else encodeMatch b.matchingInstructionsCount
      matchingInstructionsCount := 0
      totalMatchingInstructionsInCurrentTranslation :=
        b.totalMatchingInstructionsInCurrentTranslation + b.matchingInstructionsCount } := by
  unfold finishPendingInstructionIfNeeded
  by_cases hcount : b.matchingInstructionsCount = 0
  · obtain ⟨contents, basisInstructions, count, total, index, start, allowed⟩ := b
    obtain rfl : count = 0 := hcount
    rw [if_neg (not_not.mpr rfl), if_pos rfl, append_nil]
    rfl
  · rw [if_pos hcount, if_neg hcount, encodeMatch]
    dsimp only
    split <;> rfl

/-- **The state of a builder** in a translation of which `written` instructions have been
written, with its `BEGIN`. The basis of the translation begins with the instruction
`first`. -/
structure Builds (b : TranslationArrayBuilder) (first : TranslationInstruction)
    (basis : List TranslationInstruction) (written : ℕ) : Prop where
  basis_eq : basis = if b.matchPreviousAllowed then first :: b.basisInstructions else []
  index_eq : b.instructionIndexWithinTranslation + 1 = written + b.matchingInstructionsCount
  pending : b.matchingInstructionsCount ≠ 0 → written + b.matchingInstructionsCount ≤ basis.length
  inRange : ∀ i ∈ first :: b.basisInstructions, i.InRange
  location : ∃ rest, b.contents.drop b.indexOfBasisTranslationStart.toNat =
    (first :: b.basisInstructions).flatMap encode ++ rest ∧
      (b.matchPreviousAllowed = false → rest = [])

/-- What is given to the builder from `p` on: what is written, and what is pending. -/
def Given (b : TranslationArrayBuilder) (p : ℕ) (given : List TranslationInstruction) : Prop :=
  ∃ first basis written before, b.Builds first basis written ∧
    ReadsFrom b.contents basis written p before ∧
    given = before ++ (basis.drop written).take b.matchingInstructionsCount

theorem length_le_flatMap_encode (is : List TranslationInstruction) :
    is.length ≤ (is.flatMap encode).length := by
  induction is with
  | nil => exact le_rfl
  | cons i is ih =>
    rw [length_cons, flatMap_cons, length_append, i.length_encode]
    omega

variable (h : b.Builds first basis written)
include h

theorem Builds.start_lt : b.indexOfBasisTranslationStart.toNat < b.contents.length := by
  obtain ⟨rest, hlocation, -⟩ := h.location
  by_contra hge
  rw [drop_eq_nil_of_le (not_lt.mp hge)] at hlocation
  exact nomatch hlocation

/-- There is no instruction of the basis without bytes. -/
theorem Builds.length_le : basis.length ≤ b.contents.length := by
  obtain ⟨rest, hlocation, -⟩ := h.location
  have hlength := congrArg List.length hlocation
  have hle := length_le_flatMap_encode (first :: b.basisInstructions)
  rw [length_drop, length_append] at hlength
  have hbasis : basis.length ≤ (first :: b.basisInstructions).length := by
    rw [h.basis_eq]
    split
    · exact le_rfl
    · exact Nat.zero_le _
  omega

/-- Writing more, but no instruction of the basis. -/
theorem Builds.append {data : List Byte} (hdata : data = [] ∨ b.matchPreviousAllowed = true) :
    ∃ rest, (b.contents ++ data).drop b.indexOfBasisTranslationStart.toNat =
      (first :: b.basisInstructions).flatMap encode ++ rest ∧
        (b.matchPreviousAllowed = false → rest = []) := by
  obtain ⟨rest, hlocation, hrest⟩ := h.location
  refine ⟨rest ++ data, ?_, fun hfalse => ?_⟩
  · rw [drop_append_of_le_length h.start_lt.le, hlocation, append_assoc]
  · rw [hrest hfalse, nil_append]
    exact hdata.resolve_right (Bool.not_eq_true _ ▸ hfalse)

theorem Builds.finish : b.finishPendingInstructionIfNeeded.Builds first basis
      (written + b.matchingInstructionsCount) := by
  rw [finishPendingInstructionIfNeeded_eq]
  refine ⟨h.basis_eq, h.index_eq, fun hne => absurd rfl hne, h.inRange, h.append ?_⟩
  by_cases hcount : b.matchingInstructionsCount = 0
  · exact .inl (if_pos hcount)
  · refine .inr (Bool.not_eq_false _ ▸ fun hfalse => ?_)
    have hpending := h.pending hcount
    rw [h.basis_eq, hfalse] at hpending
    exact hcount (by simpa using hpending : _ ∧ _).2

omit h

theorem Given.finish (h : b.Given p given) (hlength : b.contents.length < 2 ^ 31) :
    ∃ first basis written, b.finishPendingInstructionIfNeeded.Builds first basis written ∧
      ReadsFrom b.finishPendingInstructionIfNeeded.contents basis written p given := by
  obtain ⟨first, basis, written, before, hbuilds, hopens, rfl⟩ := h
  refine ⟨first, basis, _, hbuilds.finish, ?_⟩
  rw [finishPendingInstructionIfNeeded_eq]
  by_cases hcount : b.matchingInstructionsCount = 0
  · rw [if_pos hcount, hcount, append_nil, take_zero, append_nil]
    exact hopens
  · have hle := hbuilds.pending hcount
    have hbasis := hbuilds.length_le
    rw [if_neg hcount]
    exact hopens.run (Nat.pos_of_ne_zero hcount) (by omega) hle

@[simp] theorem finish_matchingInstructionsCount (b : TranslationArrayBuilder) :
    b.finishPendingInstructionIfNeeded.matchingInstructionsCount = 0 := by
  rw [finishPendingInstructionIfNeeded_eq]

theorem addExplicit_eq (b : TranslationArrayBuilder) (i : TranslationInstruction) :
    b.addExplicit i = { b.finishPendingInstructionIfNeeded with
      contents := b.finishPendingInstructionIfNeeded.contents ++ i.encode
      basisInstructions := if b.finishPendingInstructionIfNeeded.matchPreviousAllowed then
          b.finishPendingInstructionIfNeeded.basisInstructions
        else b.finishPendingInstructionIfNeeded.basisInstructions ++ [i] } := by
  unfold addExplicit addRawToContents
  dsimp only
  cases b.finishPendingInstructionIfNeeded.matchPreviousAllowed <;> rfl

/-- An instruction that is written out becomes part of a basis that is being written. -/
theorem Builds.explicit (h : b.Builds first basis written)
    (hcount : b.matchingInstructionsCount = 0) (hi : i.InRange) :
    Builds { b with
      contents := b.contents ++ i.encode
      basisInstructions :=
        if b.matchPreviousAllowed then b.basisInstructions else b.basisInstructions ++ [i]
      instructionIndexWithinTranslation := b.instructionIndexWithinTranslation + 1 }
      first basis (written + 1) := by
  have hindex : b.instructionIndexWithinTranslation + 1 + 1 =
      written + 1 + b.matchingInstructionsCount := by
    rw [h.index_eq, Nat.add_right_comm]
  obtain ⟨contents, basisInstructions, count, total, index, start, allowed⟩ := b
  cases allowed with
  | true =>
    exact ⟨h.basis_eq, hindex, fun hne => absurd hcount hne, h.inRange, h.append (.inr rfl)⟩
  | false =>
    obtain ⟨rest, hlocation, hrest⟩ := h.location
    refine ⟨h.basis_eq, hindex, fun hne => absurd hcount hne, ?_, [], ?_, fun _ => rfl⟩
    · rw [if_neg Bool.false_ne_true, ← cons_append]
      exact forall_mem_append.mpr ⟨h.inRange, forall_mem_singleton.mpr hi⟩
    · rw [if_neg Bool.false_ne_true, ← cons_append, flatMap_append,
        drop_append_of_le_length h.start_lt.le, hlocation, hrest rfl]
      simp

/-- **Adding an instruction.** -/
theorem Given.add (h : b.Given p given) (hi : i.IsPlain) (hlength : b.contents.length < 2 ^ 31) :
    (b.add i).Given p (given ++ [i]) := by
  unfold TranslationArrayBuilder.add
  split
  · next hmatch =>
    -- one more instruction that is the same
    obtain ⟨first, basis, written, before, hbuilds, hopens, rfl⟩ := h
    have hbasis : basis = first :: b.basisInstructions := by
      rw [hbuilds.basis_eq, if_pos hmatch.1]
    have hget : basis[written + b.matchingInstructionsCount]? = some i := by
      rw [hbasis, ← hbuilds.index_eq, getElem?_cons_succ]
      exact hmatch.2
    obtain ⟨hlt, hi_eq⟩ := List.getElem?_eq_some_iff.mp hget
    refine ⟨first, basis, written, before, ⟨hbuilds.basis_eq, ?_, fun _ => hlt, hbuilds.inRange,
      hbuilds.location⟩, hopens, ?_⟩
    · exact congrArg (· + 1) hbuilds.index_eq
    · dsimp only
      rw [append_assoc, take_add_one, getElem?_drop, hget]
      rfl
  · next hmatch =>
    obtain ⟨first, basis, written, hbuilds, hopens⟩ := h.finish hlength
    have hcount := finish_matchingInstructionsCount b
    rw [addExplicit_eq]
    refine ⟨first, basis, written + 1, _, hbuilds.explicit hcount hi.1, hopens.explicit hi, ?_⟩
    rw [hcount, take_zero, append_nil]

/-! ## Beginning a translation -/

/-- A builder that has been used is in a translation. A new one does not reuse a basis. -/
def Ready (b : TranslationArrayBuilder) : Prop :=
  b.matchPreviousAllowed = true ∧ b.totalMatchingInstructionsInCurrentTranslation = 0 ∧
    b.matchingInstructionsCount = 0 ∨ ∃ first basis written, b.Builds first basis written

theorem Ready.finish (h : b.Ready) : b.finishPendingInstructionIfNeeded.Ready := by
  rcases h with ⟨hallowed, htotal, hcount⟩ | ⟨first, basis, written, hbuilds⟩
  · rw [finishPendingInstructionIfNeeded_eq]
    exact .inl ⟨hallowed, by dsimp only; rw [htotal, hcount], rfl⟩
  · exact .inr ⟨first, basis, _, hbuilds.finish⟩

/-- The builder in a translation that has begun. -/
def withBegin (b : TranslationArrayBuilder) (i : TranslationInstruction) :
    TranslationArrayBuilder :=
  { b with
    totalMatchingInstructionsInCurrentTranslation := 0, instructionIndexWithinTranslation := 0,
    contents := b.contents ++ i.encode }

/-- **The basis** of a translation, new or old, is where the distance says. -/
theorem Ready.chooseBasis (h : b.Ready) (hcount : b.matchingInstructionsCount = 0)
    (hlength : b.contents.length < 2 ^ 31) (hi : i.InRange) :
    ∃ first basis, (b.chooseBasis.2.withBegin i).Builds first basis 1 ∧
      (b.chooseBasis.2.withBegin i).contents = b.contents ++ i.encode ∧
      (b.chooseBasis.2.withBegin i).matchingInstructionsCount = 0 ∧
      BasisAt (b.contents ++ i.encode) b.chooseBasis.1 b.contents.length basis := by
  have hsize : b.size.toNat = b.contents.length := by
    rw [size, BitVec.toNat_ofNat, Nat.mod_eq_of_lt (by omega)]
  unfold TranslationArrayBuilder.chooseBasis
  split
  · next hreuses =>
    -- the same basis
    rcases h with ⟨hallowed, htotal, -⟩ | ⟨first, basis, written, hbuilds⟩
    · rw [reusesBasis, hallowed, htotal] at hreuses
      simp at hreuses
    obtain ⟨rest, hlocation, -⟩ := hbuilds.location
    have hstart := hbuilds.start_lt
    have hdrop : (b.contents ++ i.encode).drop b.indexOfBasisTranslationStart.toNat =
        (first :: b.basisInstructions).flatMap encode ++ (rest ++ i.encode) := by
      rw [drop_append_of_le_length hstart.le, hlocation, append_assoc]
    have hdistance : b.indexOfBasisTranslationStart.toNat +
        (b.size - b.indexOfBasisTranslationStart).toNat = b.contents.length := by
      rw [BitVec.toNat_sub, hsize]
      omega
    refine ⟨first, first :: b.basisInstructions, ⟨rfl, ?_, fun hne => absurd hcount hne,
      hbuilds.inRange, _, hdrop, nofun⟩, rfl, hcount,
      .inr ⟨fun hzero => ?_, hbuilds.inRange, _, _, hdistance, hdrop⟩⟩
    · exact congrArg (1 + ·) hcount.symm
    · rw [show b.size - b.indexOfBasisTranslationStart = 0 from hzero] at hdistance
      exact hstart.ne hdistance
  · -- a new basis
    refine ⟨i, [], ⟨rfl, congrArg (1 + ·) hcount.symm, fun hne => absurd hcount hne,
      forall_mem_singleton.mpr hi, [], ?_, fun _ => rfl⟩, rfl, hcount, .inl ⟨rfl, rfl⟩⟩
    have hdrop : (b.contents ++ i.encode).drop b.size.toNat = i.encode := by
      rw [hsize, drop_left]
    have hsingle : [i].flatMap encode ++ [] = i.encode := by simp
    exact hdrop.trans hsingle.symm

theorem Ready.beginTranslation (h : b.Ready)
    (hlength : b.finishPendingInstructionIfNeeded.contents.length < 2 ^ 31) (t : Translation) :
    ∃ (i : TranslationInstruction) (distance : BitVec 32) (first : TranslationInstruction)
      (basis : List TranslationInstruction), i.IsBegin distance ∧
      i.forgetDistance :: t.instructions = t.toInstructions ∧
      (b.beginTranslation t.frameCount t.jsframeCount t.updateFeedback).2.Builds first basis 1 ∧
      (b.beginTranslation t.frameCount t.jsframeCount t.updateFeedback).2.contents =
        b.finishPendingInstructionIfNeeded.contents ++ i.encode ∧
      (b.beginTranslation t.frameCount t.jsframeCount t.updateFeedback).2.matchingInstructionsCount
        = 0 ∧
      BasisAt (b.finishPendingInstructionIfNeeded.contents ++ i.encode) distance
        b.finishPendingInstructionIfNeeded.contents.length basis ∧
      (b.beginTranslation t.frameCount t.jsframeCount t.updateFeedback).1.toNat =
        b.finishPendingInstructionIfNeeded.contents.length := by
  have hcount := finish_matchingInstructionsCount b
  have hready := h.finish
  unfold TranslationArrayBuilder.beginTranslation
  generalize b.finishPendingInstructionIfNeeded = b at *
  have hi : (beginInstruction b.chooseBasis.1 t.frameCount t.jsframeCount
      t.updateFeedback).InRange := by
    have hoperands : List.Forall₂ OperandType.InRange [.unsigned, .signed, .signed]
        [b.chooseBasis.1, t.frameCount, t.jsframeCount] :=
      .cons trivial (.cons t.frameCount_inRange (.cons t.jsframeCount_inRange .nil))
    unfold beginInstruction TranslationInstruction.InRange
    cases t.updateFeedback <;> exact hoperands
  obtain ⟨first, basis, hbuilds, hcontents, hcount', hrefers⟩ :=
    hready.chooseBasis hcount hlength hi
  refine ⟨_, b.chooseBasis.1, first, basis, ⟨hi, _, _, _, rfl⟩, ?_, hbuilds, hcontents, hcount',
    hrefers, ?_⟩
  · unfold beginInstruction forgetDistance toInstructions
    cases t.updateFeedback <;> rfl
  · exact (BitVec.toNat_ofNat ..).trans (Nat.mod_eq_of_lt (by omega))

/-! ## Translations -/

variable (b)

theorem length_le_finish :
    b.contents.length ≤ b.finishPendingInstructionIfNeeded.contents.length := by
  rw [finishPendingInstructionIfNeeded_eq, length_append]
  exact Nat.le_add_right _ _

theorem length_le_add (i : TranslationInstruction) :
    b.contents.length ≤ (b.add i).contents.length := by
  unfold TranslationArrayBuilder.add
  split
  · exact le_rfl
  · rw [addExplicit_eq, length_append]
    exact (length_le_finish b).trans (Nat.le_add_right _ _)

theorem length_le_foldl_add (is : List TranslationInstruction) :
    b.contents.length ≤ (is.foldl TranslationArrayBuilder.add b).contents.length := by
  induction is generalizing b with
  | nil => exact le_rfl
  | cons i is ih => exact (length_le_add b i).trans (ih (b.add i))

variable {b} {is : List TranslationInstruction}

theorem Given.foldl_add (h : b.Given p given) (his : ∀ i ∈ is, i.IsPlain)
    (hlength : (is.foldl TranslationArrayBuilder.add b).contents.length < 2 ^ 31) :
    (is.foldl TranslationArrayBuilder.add b).Given p (given ++ is) := by
  induction is generalizing b given with
  | nil => rwa [append_nil]
  | cons i is ih =>
    obtain ⟨hi, his⟩ := forall_mem_cons.mp his
    have hadd := h.add hi ((length_le_foldl_add b (i :: is)).trans_lt hlength)
    rw [append_cons]
    exact ih hadd his hlength

theorem Given.ready (h : b.Given p given) : b.Ready := by
  obtain ⟨first, basis, written, -, hbuilds, -⟩ := h
  exact .inr ⟨first, basis, written, hbuilds⟩

theorem map_forgetDistance (his : ∀ i ∈ is, i.IsPlain) : is.map forgetDistance = is := by
  refine (map_congr_left fun i hi => ?_).trans (map_id is)
  rw [forgetDistance, (his i hi).2.1]
  rfl

theorem length_le_beginTranslation (b : TranslationArrayBuilder)
    (frameCount jsframeCount : BitVec 32)
    (updateFeedback : Bool) : b.finishPendingInstructionIfNeeded.contents.length ≤
      (b.beginTranslation frameCount jsframeCount updateFeedback).2.contents.length := by
  have hcontents : b.finishPendingInstructionIfNeeded.chooseBasis.2.contents =
      b.finishPendingInstructionIfNeeded.contents := by
    unfold TranslationArrayBuilder.chooseBasis
    split <;> rfl
  rw [← hcontents]
  exact length_append ▸ Nat.le_add_right _ _

/-- **A translation** is added to what is given, and begins where the builder says. -/
theorem Ready.addTranslation (h : b.Ready) (t : Translation)
    (hlength : (b.addTranslation t).2.contents.length < 2 ^ 31) :
    ∃ is, is.map forgetDistance = t.toInstructions ∧
      (b.addTranslation t).2.Given (b.addTranslation t).1.toNat is ∧
      ∀ p given, b.Given p given → (b.addTranslation t).2.Given p (given ++ is) := by
  have hle : (b.beginTranslation t.frameCount t.jsframeCount t.updateFeedback).2.contents.length ≤
      (b.addTranslation t).2.contents.length := length_le_foldl_add _ _
  have hfinish := length_le_beginTranslation b t.frameCount t.jsframeCount t.updateFeedback
  obtain ⟨i, distance, first, basis, hi, hforget, hbuilds, hcontents, hcount, hrefers, hstart⟩ :=
    h.beginTranslation (hfinish.trans_lt (hle.trans_lt hlength)) t
  have hgiven : ∀ p given, ReadsFrom
      (b.finishPendingInstructionIfNeeded.contents ++ i.encode) basis 1 p
      given → (b.addTranslation t).2.Given p (given ++ t.instructions) := fun p given hopens => by
    have hbegin : (b.beginTranslation t.frameCount t.jsframeCount t.updateFeedback).2.Given p
        given := by
      refine ⟨first, basis, 1, given, hbuilds, ?_, ?_⟩
      · rwa [hcontents]
      · rw [hcount, take_zero, append_nil]
    exact hbegin.foldl_add t.instructions_inRange hlength
  refine ⟨i :: t.instructions, ?_, ?_, fun p given h => ?_⟩
  · rw [map_cons, map_forgetDistance t.instructions_inRange, hforget]
  · rw [show (b.addTranslation t).1.toNat = _ from hstart]
    exact hgiven _ [i] (.start hi hrefers)
  · obtain ⟨first₀, basis₀, written₀, -, hopens⟩ :=
      h.finish ((length_le_finish b).trans_lt (hfinish.trans_lt (hle.trans_lt hlength)))
    rw [append_cons]
    exact hgiven p (given ++ [i]) (hopens.translation hi hrefers)

theorem length_le_addTranslations (b : TranslationArrayBuilder) (ts : List Translation) :
    b.contents.length ≤ (b.addTranslations ts).2.contents.length := by
  induction ts generalizing b with
  | nil => exact le_rfl
  | cons t ts ih =>
    have hbegin := length_le_beginTranslation b t.frameCount t.jsframeCount t.updateFeedback
    exact (length_le_finish b).trans (hbegin.trans ((length_le_foldl_add _ _).trans
      (ih (b.addTranslation t).2)))

variable {ts : List Translation}

/-- What is added later follows what is given. -/
theorem Given.addTranslations (h : b.Given p given)
    (hlength : (b.addTranslations ts).2.contents.length < 2 ^ 31) :
    ∃ is, is.map forgetDistance = ts.flatMap toInstructions ∧
      (b.addTranslations ts).2.Given p (given ++ is) := by
  induction ts generalizing b given with
  | nil => exact ⟨[], rfl, by rwa [append_nil]⟩
  | cons t ts ih =>
    have hle := length_le_addTranslations (b.addTranslation t).2 ts
    obtain ⟨is, hforget, -, hadd⟩ := h.ready.addTranslation t (hle.trans_lt hlength)
    obtain ⟨is', hforget', hgiven⟩ := ih (hadd p given h) hlength
    refine ⟨is ++ is', ?_, ?_⟩
    · rw [map_append, hforget, hforget', flatMap_cons]
    · rwa [← append_assoc]

/-- **Every start** has what is given from it on. -/
theorem Ready.addTranslations (h : b.Ready)
    (hlength : (b.addTranslations ts).2.contents.length < 2 ^ 31) {k : ℕ} (hk : k < ts.length) :
    ∃ start is, (b.addTranslations ts).1[k]? = some start ∧ is.map forgetDistance =
        (ts.drop k).flatMap toInstructions ∧
      (b.addTranslations ts).2.Given start.toNat is := by
  induction ts generalizing b k with
  | nil => exact nomatch hk
  | cons t ts ih =>
    have hle := length_le_addTranslations (b.addTranslation t).2 ts
    obtain ⟨is, hforget, hgiven, -⟩ := h.addTranslation t (hle.trans_lt hlength)
    cases k with
    | zero =>
      obtain ⟨is', hforget', hgiven'⟩ := hgiven.addTranslations hlength
      refine ⟨(b.addTranslation t).1, is ++ is', rfl, ?_, hgiven'⟩
      rw [map_append, hforget, hforget', drop_zero, flatMap_cons]
    | succ k => exact ih hgiven.ready hlength (Nat.lt_of_succ_lt_succ hk)

theorem toTranslationArray_eq {buffer : List Byte} (h : b.toTranslationArray = some buffer) :
    buffer = b.finishPendingInstructionIfNeeded.contents ∧ buffer.length < 2 ^ 31 := by
  unfold toTranslationArray at h
  dsimp only at h
  split at h
  · exact nomatch h
  split at h
  · exact nomatch h
  · next hrange hfits =>
    obtain rfl := Option.some.inj h
    refine ⟨rfl, ?_⟩
    rw [not_or, not_lt, not_lt, kMaxLength] at hrange
    omega

end TranslationArrayBuilder

/-- **Translations round trip.** Whatever translations are added, a reader that starts at the
index of any of them, and reads opcode by opcode as long as there is a next one,
gets the instructions of that translation and of all later ones. -/
theorem translations_roundTrip (ts : List Translation) {buffer : List Byte}
    (hbuffer : (addTranslations {} ts).2.toTranslationArray = some buffer) {k : ℕ}
    (hk : k < ts.length) :
    ∃ (start : BitVec 32) (is : List TranslationInstruction),
      (addTranslations {} ts).1[k]? = some start ∧
      is.map forgetDistance =
        (ts.drop k).flatMap toInstructions ∧
      ∀ fuel > is.length,
        readAll buffer fuel { index := start.toNat } = some is := by
  obtain ⟨rfl, hlength⟩ := toTranslationArray_eq hbuffer
  have hcontents := (length_le_finish _).trans_lt hlength
  have hready : Ready {} := .inl ⟨rfl, rfl, rfl⟩
  obtain ⟨start, is, hstart, hforget, hgiven⟩ := hready.addTranslations hcontents hk
  refine ⟨start, is, hstart, hforget, fun fuel hfuel => ?_⟩
  obtain ⟨first, basis, written, -, -, hopens⟩ := hgiven.finish hcontents
  have hremaining := hopens [] [] (.nil basis written) [] 0
  rw [append_nil, append_nil, append_nil] at hremaining
  refine TranslationArrayIterator.At.readAll_spec hlength hremaining ⟨rfl, .inr ⟨rfl, rfl⟩, le_rfl,
    fun _ => rfl, fun hne => absurd rfl hne, nofun, fun hne => absurd rfl hne⟩ hfuel

/-- A translation that is written once, and is a reference the second time. -/
def sharedTranslation : Translation where
  frameCount := 1
  jsframeCount := 1
  updateFeedback := false
  instructions := [⟨.stackSlot, [5]⟩, ⟨.register, [3]⟩]
  frameCount_inRange := by decide
  jsframeCount_inRange := by decide
  instructions_inRange := by
    have hslot : TranslationInstruction.InRange ⟨.stackSlot, [5]⟩ := .cons (by decide) .nil
    have hregister : TranslationInstruction.InRange ⟨.register, [3]⟩ := .cons (by decide) .nil
    exact forall_mem_cons.mpr ⟨⟨hslot, rfl, by decide⟩,
      forall_mem_singleton.mpr ⟨hregister, rfl, by decide⟩⟩

theorem translations_roundTrip_shared : ∃ (start : BitVec 32) (is : List TranslationInstruction),
    (addTranslations {} [sharedTranslation, sharedTranslation]).1[1]? = some start ∧
    is.map forgetDistance = sharedTranslation.toInstructions ∧
    ∀ fuel > is.length, readAll
      [2, 0, 2, 2, 31, 10, 30, 3, 2, 8, 2, 2, 38] fuel { index := start.toNat } = some is := by
  have hbuffer : (addTranslations {} [sharedTranslation, sharedTranslation]).2.toTranslationArray =
      some [2, 0, 2, 2, 31, 10, 30, 3, 2, 8, 2, 2, 38] := rfl
  exact translations_roundTrip [sharedTranslation, sharedTranslation] hbuffer (show 1 < 2 by decide)
