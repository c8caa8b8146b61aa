import V8Speak.PreparseScope

/-!
# The preparse data round trip

What `SaveScopeAllocationData` writes, `GetDataForSkippableFunction` – once
per skippable function, in order – and `RestoreScopeAllocationData` read
back: the records return field by field, the two bits of every serializable
variable reach the same variable of the reparsed tree, no other variable is
touched, and no byte is left over.

The tree being restored need not be the tree that was saved. `Scope.Reparsed`
says that it is a tree of the same shape with the same declared variables, in
which the insides of the skipped functions need not have been built. That the
parser produces such a tree is assumed, not proved. A variable comes out of
the reparse with the flags its declaration gives it, so it has no bit the
saved one lacks; and the flag of a constant or a private name, which
`SetMaybeAssigned` leaves alone, is the declaration's on both sides. An
anonymous class whose class variable was saved may be reparsed without it, in
which case restoring declares it, last among the locals as the preparser had.
-/

open BitField PreparseDataBuilder ConsumedPreparseData List UInt32 Option Lockstep

/-! ## Lengths -/

variable {o : List ℕ}

/-- An output holds all the bytes added so far. -/
theorem length_le_of_extends {w : PreparseDataBuilder.ByteData}
    (h : quarters.Extends w o) : w.byteData.length ≤ o.length := by
  by_contra hlt
  push Not at hlt
  obtain ⟨y, hy, -⟩ := h o.length _ (getElem?_eq_getElem hlt)
  simp at hy

variable (w : PreparseDataBuilder.ByteData)

/-- A varint takes at least one byte. -/
theorem length_addVarint (data : ℕ) :
    w.byteData.length + 1 ≤ (w.addVarint data).byteData.length := by
  induction data using Nat.strong_induction_on generalizing w with
  | _ data ih =>
    rw [ByteData.addVarint]
    split
    · simp [ByteData.add]
    · have hlt : data >>> 7 < data := by
        omega
      have := ih (data >>> 7) hlt (w.add (data &&& 127 ||| 128))
      simp only [ByteData.add, length_append, length_singleton] at this ⊢
      omega

theorem length_writeVarint32 (data : UInt32) :
    w.byteData.length + 1 ≤ (w.writeVarint32 data).byteData.length :=
  length_addVarint w _

/-- The first quarter after a varint takes a byte. -/
theorem length_writeQuarter_writeVarint32 (data : UInt32) {q : ℕ} (hq : q < 4) :
    ((w.writeVarint32 data).writeQuarter q).byteData.length
      = (w.writeVarint32 data).byteData.length + 1 := by
  rw [writeQuarter_fresh hq rfl]
  simp

/-! ## The records of the skippable functions -/

namespace PreparseDataBuilder

/-- What the reader returns for a record. -/
def SkippableFunction.data (f : SkippableFunction) : FunctionData where
  endPosition := f.endPosition
  numParameters := f.numParameters
  functionLength := f.functionLength
  numInnerFunctions := f.numInnerFunctions
  usesSuperProperty := f.usesSuperProperty
  languageMode := f.languageMode
  hasData := f.hasData

theorem toNat_lt_two (b : Bool) : b.toNat < 2 ^ 1 := by cases b <;> decide

theorem decide_toNat_ne_zero (b : Bool) : decide (b.toNat ≠ 0) = b := by cases b <;> decide

/-- The packed parameter word is read back field by field. -/
theorem SkippableFunction.decode_hasDataAndNumParameters (f : SkippableFunction) :
    f.hasDataAndNumParameters < 2 ^ 18
      ∧ PreparseFields.hasData.decodeBool f.hasDataAndNumParameters = f.hasData
      ∧ PreparseFields.lengthEqualsParameters.decodeBool f.hasDataAndNumParameters
        = f.lengthEqualsParameters
      ∧ PreparseFields.numberOfParameters.decode f.hasDataAndNumParameters = f.numParameters := by
  have hle := f.numParameters_le
  have hmod : f.numParameters % 2 ^ 16 = f.numParameters :=
    Nat.mod_eq_of_lt (by rw [kMaxArguments] at hle; omega)
  have hlow : PreparseFields.hasData.encode f.hasData.toNat < 2 ^ 1 := by
    rw [encode_eq]
    exact (Nat.mul_one _).trans_lt (toNat_lt_two _)
  have hmid := or_encode_lt PreparseFields.lengthEqualsParameters hlow
    (toNat_lt_two f.lengthEqualsParameters)
  have hnum : f.numParameters < 2 ^ 16 := by rw [kMaxArguments] at hle; omega
  unfold SkippableFunction.hasDataAndNumParameters
  rw [hmod]
  refine ⟨or_encode_lt PreparseFields.numberOfParameters hmid hnum, ?_, ?_, ?_⟩
  · rw [BitField.decodeBool, decode_or_encode_low _ _ (by decide),
      decode_or_encode_low _ _ (by decide), ← Nat.zero_or (BitField.encode _ _),
      decode_or_encode_high _ (by decide) (toNat_lt_two _), decide_toNat_ne_zero]
  · rw [BitField.decodeBool, decode_or_encode_low _ _ (by decide),
      decode_or_encode_high _ hlow (toNat_lt_two _), decide_toNat_ne_zero]
  · exact decode_or_encode_high _ hmid hnum

/-- The packed language mode and `super` flag are read back. -/
theorem SkippableFunction.decode_languageAndSuper (f : SkippableFunction) : f.languageAndSuper < 4
      ∧ PreparseFields.usesSuper.decodeBool f.languageAndSuper = f.usesSuperProperty
      ∧ LanguageMode.ofBit (PreparseFields.language.decode f.languageAndSuper)
        = f.languageMode := by
  unfold SkippableFunction.languageAndSuper
  cases f.languageMode <;> cases f.usesSuperProperty <;> decide

end PreparseDataBuilder

variable {r : ConsumedPreparseData.ByteData}

/-- A check that passes whatever the state. -/
theorem check_run_of_eq_true {cond : ConsumedPreparseData.ByteData → Bool} (h : cond r = true) :
    (check cond).run r = some ((), r) := by
  show (if cond r = true then some ((), r) else none) = _
  rw [if_pos h]

/-- **A check for remaining bytes passes** if the bytes are still to be
read. -/
theorem hasRemainingBytes_of_matched {w w' : PreparseDataBuilder.ByteData} {n : ℕ}
    (h : quarters.Extends w' o)
    (hm : quarters.Matched w o r) (hn : w.byteData.length + n ≤ w'.byteData.length) :
    r.hasRemainingBytes n = true := by
  obtain ⟨hd, hi, -, -, -⟩ := hm
  have hlen := length_le_of_extends h
  simp only [ConsumedPreparseData.ByteData.hasRemainingBytes,
    ConsumedPreparseData.ByteData.remainingBytes, hd, hi, Bool.and_eq_true, decide_eq_true_eq]
  omega

/-- A record takes at least five bytes. -/
theorem length_saveDataForSkippableFunction
    (f : SkippableFunction) : w.byteData.length + kSkippableFunctionMinDataSize
      ≤ (saveDataForSkippableFunction w f).byteData.length := by
  obtain ⟨hq, -, -⟩ := f.decode_languageAndSuper
  unfold saveDataForSkippableFunction kSkippableFunctionMinDataSize
  dsimp only
  have h1 := length_writeVarint32 w f.startPosition.toUInt32
  generalize w.writeVarint32 f.startPosition.toUInt32 = w₁ at h1 ⊢
  have h2 := length_writeVarint32 w₁ f.endPosition.toUInt32
  generalize w₁.writeVarint32 f.endPosition.toUInt32 = w₂ at h2 ⊢
  have h3 := length_writeVarint32 w₂ (ofNat f.hasDataAndNumParameters)
  generalize w₂.writeVarint32 (ofNat f.hasDataAndNumParameters) = w₃ at h3 ⊢
  have h4 : w₃.byteData.length ≤ (if f.lengthEqualsParameters = true then w₃
      else w₃.writeVarint32 f.functionLength.toUInt32).byteData.length := by
    split
    · exact le_refl _
    · exact Nat.le_of_succ_le (length_writeVarint32 w₃ _)
  generalize (if f.lengthEqualsParameters = true then w₃
      else w₃.writeVarint32 f.functionLength.toUInt32) = w₄ at h4 ⊢
  have h5 := length_writeVarint32 w₄ f.numInnerFunctions.toUInt32
  have h6 := length_writeQuarter_writeVarint32 w₄ f.numInnerFunctions.toUInt32 hq
  omega

/-- The optional length of a record: written unless it equals the number of
parameters, and read unless the flag says so. -/
theorem functionLength_corresponds (f : SkippableFunction) : quarters.Corresponds
      (fun w => if f.lengthEqualsParameters then w else w.writeVarint32 f.functionLength.toUInt32)
      (readFunctionLength f.lengthEqualsParameters f.numParameters) f.functionLength := by
  unfold readFunctionLength
  by_cases h : f.lengthEqualsParameters = true
  · have hlen : Int32.ofNat f.numParameters = f.functionLength := of_decide_eq_true h
    simp only [h, if_true]
    rw [hlen]
    exact Corresponds.pure _
  · simp only [h]
    exact writeVarint32_corresponds _

/-- **The record of a skippable function is read back.** -/
theorem saveDataForSkippableFunction_corresponds (f : SkippableFunction) :
    quarters.Corresponds (fun w => saveDataForSkippableFunction w f)
      (readDataForSkippableFunction f.startPosition) f.data := by
  obtain ⟨hlt, hhas, heq, hnum⟩ := f.decode_hasDataAndNumParameters
  obtain ⟨hq, hsuper, hlang⟩ := f.decode_languageAndSuper
  have hword : (Int32.ofUInt32 (ofNat f.hasDataAndNumParameters)).toUInt32.toNat
      = f.hasDataAndNumParameters := by
    rw [toNat_ofNat', Nat.mod_eq_of_lt (by omega)]
  refine Corresponds.guarded (fun {w o r} h hm => check_run_of_eq_true
    (hasRemainingBytes_of_matched h hm (length_saveDataForSkippableFunction w f))) ?_
  -- what remains to be written after each item
  let tail₅ := fun w : PreparseDataBuilder.ByteData => w.writeQuarter f.languageAndSuper
  let tail₄ := fun w : PreparseDataBuilder.ByteData => tail₅ (w.writeVarint32 f.numInnerFunctions.toUInt32)
  let tail₃ := fun w => tail₄ (if f.lengthEqualsParameters then w
    else w.writeVarint32 f.functionLength.toUInt32)
  let tail₂ := fun w : PreparseDataBuilder.ByteData =>
    tail₃ (w.writeVarint32 (ofNat f.hasDataAndNumParameters))
  let tail₁ := fun w : PreparseDataBuilder.ByteData => tail₂ (w.writeVarint32 f.endPosition.toUInt32)
  refine Corresponds.bind (g := tail₁) (writeVarint32_corresponds f.startPosition) ?_
  refine Corresponds.guarded (fun _ _ => check_run_of_eq_true (decide_eq_true rfl)) ?_
  refine Corresponds.bind (writeVarint32_corresponds f.endPosition) ?_
  refine Corresponds.bind
    (writeVarint32_corresponds (Int32.ofUInt32 (ofNat f.hasDataAndNumParameters))) ?_
  simp only [hword, hhas, heq, hnum]
  refine Corresponds.bind (functionLength_corresponds f) ?_
  refine Corresponds.bind (writeVarint32_corresponds f.numInnerFunctions) ?_
  refine (writeQuarter_corresponds hq).bind_pure ?_
  rw [hsuper, hlang]
  rfl

/-- The results of asking for the given functions in order, when `k` of the
functions before them had data: `Serialize` stores the data of the `k`-th
function that has data as the `k`-th child. -/
def skippableFunctionResults : ℕ → List SkippableFunction → List (FunctionData × Option ℕ)
  | _, [] => []
  | k, f :: fs =>
    (f.data, if f.hasData then some k else none)
      :: skippableFunctionResults (if f.hasData then k + 1 else k) fs

/-- **The records of all skippable functions are read back in order.** -/
theorem getDataForSkippableFunctions_foldl (fs : List SkippableFunction) :
    ∀ {w : PreparseDataBuilder.ByteData} {o : List ℕ} {c : Consumer},
      quarters.Extends (fs.foldl saveDataForSkippableFunction w) o →
      quarters.Matched w o c.scopeData →
      quarters.Extends w o ∧ ∃ c', getDataForSkippableFunctions c (fs.map (·.startPosition))
          = some (skippableFunctionResults c.childIndex fs, c')
        ∧ quarters.Matched (fs.foldl saveDataForSkippableFunction w) o c'.scopeData := by
  induction fs with
  | nil => exact fun {w o c} h hm => ⟨h, c, rfl, hm⟩
  | cons f fs ih =>
    intro w o c h hm
    have hf := saveDataForSkippableFunction_corresponds f
    -- the output of the whole list is one of the first record
    have hext : quarters.Extends (saveDataForSkippableFunction w f) o := by
      have : ∀ (gs : List SkippableFunction) (w : PreparseDataBuilder.ByteData),
          quarters.Extends (gs.foldl saveDataForSkippableFunction w) o → quarters.Extends w o := by
        intro gs
        induction gs with
        | nil => exact fun w h => h
        | cons g gs ihg =>
          exact fun w h => (saveDataForSkippableFunction_corresponds g).extends_of (ihg _ h)
      exact this fs _ h
    obtain ⟨r, hr, hm'⟩ := hf.read_eq hext hm
    have hget : getDataForSkippableFunction c f.startPosition
        = some ((f.data, if f.hasData then some c.childIndex else none),
            ⟨r, if f.hasData then c.childIndex + 1 else c.childIndex⟩) := by
      rw [getDataForSkippableFunction, hr, map_some]
      show some (if f.hasData then _ else _) = _
      cases f.hasData <;> rfl
    obtain ⟨-, c', hc', hm''⟩ := ih (c := ⟨r, if f.hasData then c.childIndex + 1
      else c.childIndex⟩) h hm'
    refine ⟨hf.extends_of hext, c', ?_, hm''⟩
    rw [map_cons, getDataForSkippableFunctions, hget]
    show (getDataForSkippableFunctions _ _).bind _ = _
    rw [hc']
    rfl

/-! ## The tree being restored -/

/-- **A variable as the reparse declares it**: the name and mode of the
saved one, no flag the saved one lacks, and the maybe-assigned flag of a
constant or private name as declared. -/
structure Variable.Reparsed (v u : Variable) : Prop where
  /-- The names agree. -/
  name_eq : u.name = v.name
  /-- The modes agree. -/
  mode_eq : u.mode = v.mode
  /-- An assignment the reparse sees, the preparser saw. -/
  maybeAssigned_of : u.maybeAssigned = true → v.maybeAssigned = true
  /-- A context allocation the reparse forces, the preparser forced. -/
  forced_of : u.hasForcedContextAllocation = true → v.hasForcedContextAllocation = true
  /-- What `SetMaybeAssigned` leaves alone is as declared. -/
  fixed : v.mode = .kConst ∨ v.isPrivateName = true → u.maybeAssigned = v.maybeAssigned

/-- The variable `u` with the two bits recorded of `v`, and a use if they
force it into the context. -/
def Variable.withBits (v u : Variable) : Variable :=
  { u with
    maybeAssigned := v.maybeAssigned
    hasForcedContextAllocation := v.hasForcedContextAllocation
    isUsed := u.isUsed || v.hasForcedContextAllocation }

/-- A local after restoring: its bits are those recorded if it is
serializable, and it is left alone otherwise. -/
def Variable.restored (v u : Variable) : Variable :=
  if v.mode.isSerializable then v.withBits u else u

namespace ScopeData

/-- Whether the flags saved for a scope ask for its class variable. -/
def savesClassVariable (d : ScopeData) : Bool :=
  d.isClassScope && d.shouldSaveClassVariableIndex

/-- The locals of a reparsed scope, together with the class variable that
restoring declares if it is missing. -/
def completedLocals (d e : ScopeData) : List Variable :=
  if d.savesClassVariable && e.classVariable.isNone then
    e.locals ++ [anonymousClassVariable]
  else e.locals

/-- **A scope like the saved one**, `e`, as the parser is assumed to build it. -/
structure Reparsed (d e : ScopeData) : Prop where
  /-- The scopes are of one type. -/
  scopeType_eq : e.scopeType = d.scopeType
  /-- The functions are of one kind. -/
  functionKind_eq : e.functionKind = d.functionKind
  /-- Hidden scopes are hidden. -/
  isHidden_eq : e.isHidden = d.isHidden
  /-- The function variables agree. -/
  functionVar_rel : Option.Rel Variable.Reparsed d.functionVar e.functionVar
  /-- The locals agree, up to the class variable of an anonymous class. -/
  locals_rel : List.Forall₂ Variable.Reparsed d.locals (d.completedLocals e)
  /-- A class variable that was saved is a constant that had been forced
  into the context. -/
  classVariable_forced : d.savesClassVariable = true →
    ∃ v, d.locals[e.classVariable.getD e.locals.length]? = some v
      ∧ v.mode = .kConst ∧ v.hasForcedContextAllocation = true
  /-- The class variable of an anonymous class is saved only if a static
  private method, which is among the locals, may be accessed. -/
  staticPrivateMethod : d.savesClassVariable = true → e.classVariable = none →
    e.locals.any (fun v => v.mode.isPrivateMethodOrAccessor) = true

/-- **What restoring does to a scope**: its variables carry the recorded
bits, and the rest that identifies it is as it was. -/
structure Restored (d e e' : ScopeData) : Prop where
  /-- The locals are restored, one by one. -/
  locals_eq : e'.locals = zipWith Variable.restored d.locals (d.completedLocals e)
  /-- So is the function variable. -/
  functionVar_eq : e'.functionVar
    = if d.isFunctionScope then map₂ Variable.withBits d.functionVar e.functionVar
      else e.functionVar
  /-- The scope is still of its type. -/
  scopeType_eq : e'.scopeType = e.scopeType
  /-- The function is still of its kind. -/
  functionKind_eq : e'.functionKind = e.functionKind
  /-- It is still hidden or not. -/
  isHidden_eq : e'.isHidden = e.isHidden
  /-- Its language mode is unchanged. -/
  languageMode_eq : e'.languageMode = e.languageMode

end ScopeData

/-! ## One scope -/

/-- The two bits of a variable fit a quarter, and are read back. -/
theorem decode_variableData (v : Variable) : variableData v < 4
      ∧ PreparseFields.variableMaybeAssigned.decodeBool (variableData v) = v.maybeAssigned
      ∧ PreparseFields.variableContextAllocated.decodeBool (variableData v)
        = v.hasForcedContextAllocation := by
  unfold variableData
  cases v.maybeAssigned <;> cases v.hasForcedContextAllocation <;> decide

variable {v u : Variable}

/-- Restoring the bits of a variable onto its reparsed counterpart. -/
theorem applyVariableData_eq (h : v.Reparsed u) :
    applyVariableData u (variableData v) = v.withBits u := by
  obtain ⟨-, hm, hf⟩ := decode_variableData v
  have hset : (if v.maybeAssigned then u.setMaybeAssigned else u)
      = { u with maybeAssigned := v.maybeAssigned } := by
    have hprivate : u.isPrivateName = v.isPrivateName := by
      rw [Variable.isPrivateName, Variable.isPrivateName, h.name_eq]
    by_cases hfix : v.mode = .kConst ∨ v.isPrivateName = true
    · have hset : u.setMaybeAssigned = u := by
        rw [Variable.setMaybeAssigned, h.mode_eq, hprivate]
        rcases hfix with hc | hp
        · rw [if_pos hc]
        · split <;> rfl
      rw [hset, ← h.fixed hfix, ite_self]
    · rw [not_or] at hfix
      cases hv : v.maybeAssigned with
      | true =>
        rw [if_pos rfl, Variable.setMaybeAssigned, h.mode_eq, if_neg hfix.1, hprivate,
          if_neg hfix.2]
      | false =>
        have hu : u.maybeAssigned = false := by
          by_contra hne
          rw [h.maybeAssigned_of (Bool.not_eq_false _ ▸ hne)] at hv
          cases hv
        rw [if_neg Bool.false_ne_true, ← hu]
  rw [applyVariableData, hm, hf, hset, Variable.withBits]
  cases hvf : v.hasForcedContextAllocation with
  | true =>
    simp [Variable.setIsUsed, Variable.forceContextAllocation]
  | false =>
    have huf : u.hasForcedContextAllocation = false := by
      by_contra hne
      rw [h.forced_of (Bool.not_eq_false _ ▸ hne)] at hvf
      cases hvf
    simp [huf]

/-- **The bits of a variable are restored.** -/
theorem saveDataForVariable_corresponds (h : v.Reparsed u) :
    quarters.Corresponds (fun w => saveDataForVariable w v) (restoreDataForVariable u)
      (v.withBits u) := by
  obtain ⟨hlt, -, -⟩ := decode_variableData v
  refine (writeQuarter_corresponds hlt).bind_pure ?_
  rw [applyVariableData_eq h]

variable {vs us : List Variable}

/-- **The locals of a scope are restored**, and those that are not
serializable are passed over on both sides. -/
theorem saveDataForLocals_corresponds (h : List.Forall₂ Variable.Reparsed vs us) :
    quarters.Corresponds (fun w => saveDataForLocals w vs) (restoreDataForLocals us)
      (zipWith Variable.restored vs us) := by
  induction h with
  | nil => exact Corresponds.pure _
  | @cons v u vs us hvu _ ih =>
    have hv : quarters.Corresponds
        (fun w => if v.mode.isSerializable then saveDataForVariable w v else w)
        (restoreDataForLocal u) (v.restored u) := by
      rw [restoreDataForLocal, hvu.mode_eq]
      by_cases hs : v.mode.isSerializable = true
      · simp only [hs, if_true, Variable.restored]
        exact saveDataForVariable_corresponds hvu
      · simp only [hs, Variable.restored]
        exact Corresponds.pure _
    refine Corresponds.bind (g := fun w => saveDataForLocals w vs) hv ?_
    exact ih.bind_pure rfl

namespace ScopeData

variable (d : ScopeData)

/-- The fields the variable data depends on; the eval flags are not among
them. -/
def core :=
  (d.scopeType, d.functionKind, d.isHidden, d.languageMode, d.functionVar, d.classVariable,
    d.locals)

theorem core_recordDeclarationScopeEvalCall : d.recordDeclarationScopeEvalCall.core = d.core := by
  unfold recordDeclarationScopeEvalCall
  split <;> rfl

theorem core_recordSuperPropertyUsage : d.recordSuperPropertyUsage.core = d.core := by
  unfold recordSuperPropertyUsage
  split <;> rfl

/-- A record made under a condition. -/
theorem core_ite {f : ScopeData → ScopeData} (hf : ∀ d, (f d).core = d.core) (c : Prop)
    [Decidable c] (d : ScopeData) : (if c then f d else d).core = d.core := by
  split
  · exact hf d
  · rfl

theorem core_recordEvalCall : d.recordEvalCall.1.core = d.core :=
  (core_ite core_recordSuperPropertyUsage _ _).trans
    (core_ite core_recordDeclarationScopeEvalCall _ _)

theorem core_recordNeedsPrivateNameContextChainRecalc :
    d.recordNeedsPrivateNameContextChainRecalc.1.core = d.core := by
  unfold recordNeedsPrivateNameContextChainRecalc
  split <;> rfl

/-- Notes from inner scopes do not reach the variables. -/
theorem core_receive (n : OuterNotes) : (d.receive n).1.core = d.core :=
  (core_ite core_recordSuperPropertyUsage _ _).trans
    (core_ite core_recordDeclarationScopeEvalCall _ _)

/-- Restoring the class variable depends on the core alone. -/
theorem core_restoreClassVariable {d e : ScopeData} (h : d.core = e.core) :
    d.restoreClassVariable.core = e.restoreClassVariable.core := by
  simp only [core, Prod.mk.injEq] at h
  obtain ⟨h1, h2, h3, h4, h5, h6, h7⟩ := h
  simp only [core, restoreClassVariable, h1, h2, h3, h4, h5, h6, h7]

end ScopeData

/-- The flags of a scope fit a byte, and are read back. -/
theorem decode_scopeDataFlags (d : ScopeData) : scopeDataFlags d < 256
      ∧ PreparseFields.shouldSaveClassVariableIndex.decodeBool (scopeDataFlags d)
        = d.savesClassVariable := by
  unfold scopeDataFlags ScopeData.savesClassVariable
  generalize (d.isDeclarationScope && d.sloppyEvalCanExtendVars) = b₀
  generalize d.innerScopeCallsEval = b₁
  generalize (d.isFunctionScope && d.needsPrivateNameContextChainRecalc) = b₂
  generalize (d.isClassScope && d.shouldSaveClassVariableIndex) = b₃
  revert b₀ b₁ b₂ b₃
  decide

/-- **The flags reach the variables only through the class variable.** -/
theorem core_applyScopeDataFlags (e : ScopeData) (flags : ℕ) : (applyScopeDataFlags e flags).1.core
      = (if PreparseFields.shouldSaveClassVariableIndex.decodeBool flags then
          e.restoreClassVariable else e).core := by
  unfold applyScopeDataFlags
  dsimp only
  have h₁ : (if PreparseFields.scopeSloppyEvalCanExtendVars.decodeBool flags then
      e.recordEvalCall else (e, OuterNotes.none)).1.core = e.core := by
    split
    · exact e.core_recordEvalCall
    · rfl
  generalize (if PreparseFields.scopeSloppyEvalCanExtendVars.decodeBool flags then
      e.recordEvalCall else (e, OuterNotes.none)) = p₁ at h₁
  have h₂ : (if PreparseFields.innerScopeCallsEval.decodeBool flags then
      p₁.1.recordInnerScopeEvalCall else (p₁.1, OuterNotes.none)).1.core = e.core := by
    split <;> exact h₁
  generalize (if PreparseFields.innerScopeCallsEval.decodeBool flags then
      p₁.1.recordInnerScopeEvalCall else (p₁.1, OuterNotes.none)) = p₂ at h₂
  have h₃ : (if PreparseFields.needsPrivateNameContextChainRecalc.decodeBool flags then
      p₂.1.recordNeedsPrivateNameContextChainRecalc else (p₂.1, OuterNotes.none)).1.core
        = e.core := by
    split
    · exact (ScopeData.core_recordNeedsPrivateNameContextChainRecalc _).trans h₂
    · exact h₂
  split
  · exact ScopeData.core_restoreClassVariable h₃
  · exact h₃

/-- Forcing a variable into the context that had been forced when it was
saved changes neither what it is a reparse of nor what it is restored to. -/
theorem Variable.Reparsed.force (h : v.Reparsed u) (hc : v.mode = .kConst)
    (hf : v.hasForcedContextAllocation = true) :
    v.Reparsed u.setIsUsed.forceContextAllocation
      ∧ v.restored u.setIsUsed.forceContextAllocation = v.restored u := by
  refine ⟨⟨h.name_eq, h.mode_eq, h.maybeAssigned_of, fun _ => hf, h.fixed⟩, ?_⟩
  have hs : v.mode.isSerializable = true := by rw [hc]; rfl
  rw [restored, restored, if_pos hs, if_pos hs, withBits, withBits, hf]
  simp [setIsUsed, forceContextAllocation]

/-- The same for one variable of a list. -/
theorem reparsed_modify (h : List.Forall₂ Variable.Reparsed vs us) :
    ∀ {i : ℕ} {v : Variable}, vs[i]? = some v → v.mode = .kConst →
      v.hasForcedContextAllocation = true →
      List.Forall₂ Variable.Reparsed vs (us.modify i (fun u => u.setIsUsed.forceContextAllocation))
        ∧ zipWith Variable.restored vs (us.modify i (fun u => u.setIsUsed.forceContextAllocation))
          = zipWith Variable.restored vs us := by
  induction h with
  | nil => intro i v hv; simp at hv
  | @cons v' u vs us hvu hrest ih =>
    intro i v hv hc hf
    cases i with
    | zero =>
      obtain rfl : v' = v := by simpa using hv
      obtain ⟨hrep, heq⟩ := hvu.force hc hf
      rw [modify_zero_cons]
      exact ⟨.cons hrep hrest, by rw [zipWith_cons_cons, zipWith_cons_cons, heq]⟩
    | succ i =>
      obtain ⟨hrep, heq⟩ := ih (by simpa using hv) hc hf
      rw [modify_succ_cons]
      exact ⟨.cons hvu hrep, by rw [zipWith_cons_cons, zipWith_cons_cons, heq]⟩

variable {d e : ScopeData}

/-- **A reparsed scope after its flags have been read**: its locals match
the saved ones, and will be restored as intended. -/
theorem locals_applyScopeDataFlags (h : d.Reparsed e) : List.Forall₂ Variable.Reparsed d.locals
        (applyScopeDataFlags e (scopeDataFlags d)).1.locals
      ∧ zipWith Variable.restored d.locals (applyScopeDataFlags e (scopeDataFlags d)).1.locals
        = zipWith Variable.restored d.locals (d.completedLocals e) := by
  have hlocals : (applyScopeDataFlags e (scopeDataFlags d)).1.locals
      = (if d.savesClassVariable then e.restoreClassVariable else e).locals := by
    have hcore := core_applyScopeDataFlags e (scopeDataFlags d)
    rw [(decode_scopeDataFlags d).2] at hcore
    exact congrArg (fun c => c.2.2.2.2.2.2) hcore
  rw [hlocals]
  have hrel := h.locals_rel
  cases hsave : d.savesClassVariable with
  | false =>
    simp only [ScopeData.completedLocals, hsave, Bool.false_and, Bool.false_eq_true, if_false]
      at hrel ⊢
    exact ⟨hrel, trivial⟩
  | true =>
    obtain ⟨v, hv, hconst, hforced⟩ := h.classVariable_forced hsave
    have hmod : e.restoreClassVariable.locals = (d.completedLocals e).modify
        (e.classVariable.getD e.locals.length)
        (fun u => u.setIsUsed.forceContextAllocation) := by
      unfold ScopeData.restoreClassVariable ScopeData.completedLocals
      rw [hsave]
      cases e.classVariable <;> rfl
    rw [if_pos rfl, hmod]
    exact reparsed_modify hrel hv hconst hforced

/-- **The function variable of a scope is restored.** -/
theorem saveDataForFunctionVar_corresponds (htype : e.scopeType = d.scopeType)
    (hvar : Option.Rel Variable.Reparsed d.functionVar e.functionVar) :
    quarters.Corresponds (fun w => saveDataForFunctionVar w d) (restoreDataForFunctionVar e)
      (if d.isFunctionScope then map₂ Variable.withBits d.functionVar e.functionVar
        else e.functionVar) := by
  have hfun : e.isFunctionScope = d.isFunctionScope := by
    rw [ScopeData.isFunctionScope, htype]
    rfl
  unfold saveDataForFunctionVar restoreDataForFunctionVar
  rw [hfun]
  cases d.isFunctionScope with
  | false => exact Corresponds.pure _
  | true =>
    generalize d.functionVar = v at hvar ⊢
    generalize e.functionVar = u at hvar ⊢
    cases hvar with
    | none => exact Corresponds.pure _
    | some h => exact (saveDataForVariable_corresponds h).bind_pure rfl

/-- **The head of a scope – flags and variables – is restored.** -/
theorem saveDataForScopeHead_corresponds (h : d.Reparsed e) :
    ∃ e' notes, quarters.Corresponds (fun w => saveDataForScopeHead w d)
      (restoreDataForScopeHead e) (e', notes) ∧ d.Restored e e' := by
  obtain ⟨hlt, hsave⟩ := decode_scopeDataFlags d
  obtain ⟨hrel, hzip⟩ := locals_applyScopeDataFlags h
  have hcore := core_applyScopeDataFlags e (scopeDataFlags d)
  rcases hflags : applyScopeDataFlags e (scopeDataFlags d) with ⟨e₁, notes⟩
  rw [hflags] at hrel hzip hcore
  have hsame : e₁.scopeType = e.scopeType ∧ e₁.functionKind = e.functionKind
      ∧ e₁.isHidden = e.isHidden ∧ e₁.languageMode = e.languageMode
      ∧ e₁.functionVar = e.functionVar := by
    rw [hsave] at hcore
    cases hs : d.savesClassVariable <;> rw [hs] at hcore <;>
      simp only [ScopeData.core, Prod.mk.injEq] at hcore <;>
      exact ⟨hcore.1, hcore.2.1, hcore.2.2.1, hcore.2.2.2.1, hcore.2.2.2.2.1⟩
  obtain ⟨htype, hkind, hhidden, hmode, hvar⟩ := hsame
  refine ⟨{ e₁ with
      functionVar := if d.isFunctionScope then
        map₂ Variable.withBits d.functionVar e.functionVar else e.functionVar
      locals := zipWith Variable.restored d.locals e₁.locals }, notes, ?_,
    ⟨hzip, rfl, htype, hkind, hhidden, hmode⟩⟩
  have hfun := saveDataForFunctionVar_corresponds (htype.trans h.scopeType_eq)
    (hvar.symm ▸ h.functionVar_rel)
  have hlocals := saveDataForLocals_corresponds hrel
  refine Corresponds.guarded (fun {w o r} hw hm => check_run_of_eq_true ?_) ?_
  · -- the flags are a byte of their own
    refine hasRemainingBytes_of_matched (hfun.extends_of (hlocals.extends_of hw)) hm ?_
    simp [ByteData.writeUint8, ByteData.add]
  · let tail₂ := fun w => saveDataForLocals w d.locals
    let tail₁ := fun w => tail₂ (saveDataForFunctionVar w d)
    refine Corresponds.bind (g := tail₁) (writeUint8_corresponds hlt) ?_
    rw [hflags]
    refine Corresponds.bind hfun ?_
    rw [hvar]
    exact hlocals.bind_pure rfl

/-! ## The tree of scopes -/

/-- **A tree of the same shape**, as the parser is assumed to build it: the skipped
functions are those the preparser found skippable, and their insides do not matter. -/
inductive Scope.Reparsed : Scope → Scope → Prop where
  /-- The sibling lists end together. -/
  | null : Scope.Reparsed .null .null
  /-- A skippable function has been skipped. -/
  | skipped {d e : ScopeData} {inner sibling inner' sibling' : Scope}
      (hd : d.isSkippableFunctionScope = true)
      (he : (e.isDeclarationScope && e.isSkippedFunction) = true)
      (htype : e.scopeType = d.scopeType) (hkind : e.functionKind = d.functionKind)
      (hsibling : Scope.Reparsed sibling sibling') :
      Scope.Reparsed (.scope d inner sibling) (.scope e inner' sibling')
  /-- Any other scope has been built again. -/
  | scope {d e : ScopeData} {inner sibling inner' sibling' : Scope}
      (hd : d.isSkippableFunctionScope = false)
      (he : (e.isDeclarationScope && e.isSkippedFunction) = false)
      (hdata : d.Reparsed e) (hinner : Scope.Reparsed inner inner')
      (hsibling : Scope.Reparsed sibling sibling') :
      Scope.Reparsed (.scope d inner sibling) (.scope e inner' sibling')

/-- **What restoring does to the tree**: the third tree is the second with
the data recorded of the first. Skipped functions and scopes without data
are left alone. -/
inductive Scope.Restored : Scope → Scope → Scope → Prop where
  /-- The sibling lists end together. -/
  | null : Scope.Restored .null .null .null
  /-- A skipped function is left alone. -/
  | skipped {d e : ScopeData} {inner sibling inner' sibling' sibling'' : Scope}
      (hd : d.isSkippableFunctionScope = true)
      (hsibling : Scope.Restored sibling sibling' sibling'') :
      Scope.Restored (.scope d inner sibling) (.scope e inner' sibling')
        (.scope e inner' sibling'')
  /-- So is a scope for which no data was saved. -/
  | unneeded {d e : ScopeData} {inner sibling inner' sibling' sibling'' : Scope}
      (hneeds : scopeNeedsData d inner = false)
      (hsibling : Scope.Restored sibling sibling' sibling'') :
      Scope.Restored (.scope d inner sibling) (.scope e inner' sibling')
        (.scope e inner' sibling'')
  /-- The variables of any other scope are restored, and its inner scopes. -/
  | scope {d e e' : ScopeData} {inner sibling inner' sibling' inner'' sibling'' : Scope}
      (hd : d.isSkippableFunctionScope = false) (hneeds : scopeNeedsData d inner = true)
      (hdata : d.Restored e e') (hinner : Scope.Restored inner inner' inner'')
      (hsibling : Scope.Restored sibling sibling' sibling'') :
      Scope.Restored (.scope d inner sibling) (.scope e inner' sibling')
        (.scope e' inner'' sibling'')

/-- A list of variables has a serializable one exactly if its reparse
does. -/
theorem any_isSerializable (h : List.Forall₂ Variable.Reparsed vs us) :
    us.any (fun v => v.mode.isSerializable) = vs.any (fun v => v.mode.isSerializable) := by
  induction h with
  | nil => rfl
  | cons hvu _ ih => rw [any_cons, any_cons, hvu.mode_eq, ih]

/-- **Writer and reader agree on which scope needs data.** -/
theorem needsData_of_reparsed (h : d.Reparsed e) (b : Bool) : needsData e b = needsData d b := by
  have hany : e.locals.any (fun v => v.mode.isSerializable)
      = d.locals.any (fun v => v.mode.isSerializable) := by
    have hrel := any_isSerializable h.locals_rel
    unfold ScopeData.completedLocals at hrel
    by_cases hc : (d.savesClassVariable && e.classVariable.isNone) = true
    · -- the class variable is missing, but a static private method is there
      rw [if_pos hc, any_append] at hrel
      rw [Bool.and_eq_true, isNone_iff_eq_none] at hc
      obtain ⟨v, hv, hmode⟩ := any_eq_true.mp (h.staticPrivateMethod hc.1 hc.2)
      have he : e.locals.any (fun v => v.mode.isSerializable) = true :=
        any_eq_true.mpr ⟨v, hv, by rw [VariableMode.isSerializable, hmode, Bool.or_true]⟩
      rw [he, Bool.true_or] at hrel
      rw [he, hrel]
    · grind
  unfold needsData ScopeData.isFunctionScope
  rw [h.scopeType_eq, h.functionKind_eq, h.isHidden_eq, hany]

variable {s t : Scope}

/-- The same for a whole sibling list. -/
theorem anyScopeNeedsData_of_reparsed (h : s.Reparsed t) :
    anyScopeNeedsData t = anyScopeNeedsData s := by
  induction h with
  | null => rfl
  | @skipped d e inner sibling inner' sibling' hd he htype hkind _ ih =>
    have hfun : d.isFunctionScope = true := by
      simp only [ScopeData.isSkippableFunctionScope, Bool.and_eq_true] at hd
      exact hd.1.1
    have hfun' : e.isFunctionScope = true := by
      rw [← hfun, ScopeData.isFunctionScope, htype]
      rfl
    rw [anyScopeNeedsData, anyScopeNeedsData, ih, needsData, needsData, if_pos hfun,
      if_pos hfun', hkind]
  | scope hd he hdata _ _ ihinner ihsibling =>
    rw [anyScopeNeedsData, anyScopeNeedsData, ihinner, ihsibling, needsData_of_reparsed hdata]

/-- What restoring did to a scope is not undone by the notes of its inner
scopes. -/
theorem ScopeData.Restored.receive {d e e' : ScopeData} (h : d.Restored e e')
    (n : OuterNotes) : d.Restored e (e'.receive n).1 := by
  have hcore := e'.core_receive n
  simp only [ScopeData.core, Prod.mk.injEq] at hcore
  obtain ⟨h1, h2, h3, h4, h5, -, h7⟩ := hcore
  exact ⟨h7.trans h.locals_eq, h5.trans h.functionVar_eq, h1.trans h.scopeType_eq,
    h2.trans h.functionKind_eq, h3.trans h.isHidden_eq, h4.trans h.languageMode_eq⟩

variable {notes : OuterNotes}

/-- Restoring a scope that is neither skipped nor without data, from its
head and its inner scopes. -/
theorem restoreDataForScopeWith_corresponds {inner inner'' : Scope}
    (inner' : Scope) {restoreInner : Read (Scope × OuterNotes)}
    (he : (e.isDeclarationScope && e.isSkippedFunction) = false) (hdata : d.Reparsed e)
    (hinner : quarters.Corresponds (fun w => saveDataForInnerScopes w inner) restoreInner
      (inner'', notes)) :
    ∃ e' notes', quarters.Corresponds (fun w => saveDataForScope w d inner)
      (restoreDataForScopeWith e inner' true restoreInner) (e', inner'', notes')
      ∧ d.Restored e e' := by
  obtain ⟨e₁, headNotes, hhead, hrestored⟩ := saveDataForScopeHead_corresponds hdata
  refine ⟨(e₁.receive notes).1, headNotes.or (e₁.receive notes).2, ?_, hrestored.receive notes⟩
  have hunfold : restoreDataForScopeWith e inner' true restoreInner
      = restoreDataForScopeHead e >>= fun p => restoreInner >>= fun q =>
          pure ((p.1.receive q.2).1, q.1, p.2.or (p.1.receive q.2).2) := by
    unfold restoreDataForScopeWith
    rw [if_neg (by rw [he]; exact Bool.false_ne_true)]
    rfl
  rw [hunfold]
  exact Corresponds.bind (g := fun w => saveDataForInnerScopes w inner) hhead (hinner.bind_pure rfl)

/-- A scope that is passed over on both sides. -/
theorem passedOver_corresponds {inner sibling inner' sibling' sibling'' : Scope}
    (hwrite : d.isSkippableFunctionScope = true ∨ scopeNeedsData d inner = false)
    (hread : (e.isDeclarationScope && e.isSkippedFunction) = true ∨ scopeNeedsData e inner' = false)
    (hsibling : quarters.Corresponds (fun w => saveDataForInnerScopes w sibling)
      (restoreDataForInnerScopes sibling') (sibling'', notes)) :
    quarters.Corresponds (fun w => saveDataForInnerScopes w (.scope d inner sibling))
      (restoreDataForInnerScopes (.scope e inner' sibling'))
      (.scope e inner' sibling'', OuterNotes.none.or notes) := by
  have hw : ∀ w, saveDataForInnerScopes w (.scope d inner sibling)
      = saveDataForInnerScopes w sibling := by
    intro w
    rw [saveDataForInnerScopes]
    rcases hwrite with h | h
    · rw [if_pos h]
    · rw [h, Bool.not_false, if_pos rfl, ite_self]
  have hr : restoreDataForScopeWith e inner' (scopeNeedsData e inner')
      (restoreDataForInnerScopes inner') = pure (e, inner', OuterNotes.none) := by
    unfold restoreDataForScopeWith
    rcases hread with h | h
    · rw [if_pos h]
    · rw [h, Bool.not_false, if_pos rfl, ite_self]
  simp only [hw]
  rw [restoreDataForInnerScopes, hr, pure_bind]
  exact hsibling.bind_pure rfl

/-- **The scopes of a tree are restored**: each item read is the item
written, and the data lands where it was recorded. -/
theorem saveDataForInnerScopes_corresponds (h : s.Reparsed t) :
    ∃ t' notes, quarters.Corresponds (fun w => saveDataForInnerScopes w s)
      (restoreDataForInnerScopes t) (t', notes) ∧ Scope.Restored s t t' := by
  induction h with
  | null => exact ⟨.null, OuterNotes.none, Corresponds.pure _, .null⟩
  | @skipped d e inner sibling inner' sibling' hd he htype hkind _ ih =>
    obtain ⟨t', notes, hcorr, hrestored⟩ := ih
    exact ⟨.scope e inner' t', OuterNotes.none.or notes,
      passedOver_corresponds (.inl hd) (.inl he) hcorr, .skipped hd hrestored⟩
  | @scope d e inner sibling inner' sibling' hd he hdata hinner _ ihinner ihsibling =>
    obtain ⟨inner'', innerNotes, hinnerCorr, hinnerRestored⟩ := ihinner
    obtain ⟨sibling'', siblingNotes, hsiblingCorr, hsiblingRestored⟩ := ihsibling
    have hneeds : scopeNeedsData e inner' = scopeNeedsData d inner := by
      rw [scopeNeedsData, scopeNeedsData, anyScopeNeedsData_of_reparsed hinner,
        needsData_of_reparsed hdata]
    cases hb : scopeNeedsData d inner with
    | false =>
      exact ⟨.scope e inner' sibling'', OuterNotes.none.or siblingNotes,
        passedOver_corresponds (.inr hb) (.inr (hneeds.trans hb)) hsiblingCorr,
        .unneeded hb hsiblingRestored⟩
    | true =>
      obtain ⟨e', notes, hcorr, hrestored⟩ :=
        restoreDataForScopeWith_corresponds inner' he hdata hinnerCorr
      refine ⟨.scope e' inner'' sibling'', notes.or siblingNotes, ?_,
        .scope hd hb hrestored hinnerRestored hsiblingRestored⟩
      have hwrite : ∀ w, saveDataForInnerScopes w (.scope d inner sibling)
          = saveDataForInnerScopes (saveDataForScope w d inner) sibling := by
        intro w
        rw [saveDataForInnerScopes, hd, hb]
        rfl
      simp only [hwrite]
      rw [restoreDataForInnerScopes, hneeds, hb]
      exact Corresponds.bind (g := fun w => saveDataForInnerScopes w sibling)
        hcorr (hsiblingCorr.bind_pure rfl)

/-! ## The whole data -/

/-- **The data of a function's scope is restored**, if it was saved. -/
theorem saveDataForScope_corresponds {inner inner' : Scope}
    (he : (e.isDeclarationScope && e.isSkippedFunction) = false)
    (hdata : d.Reparsed e) (hinner : inner.Reparsed inner') :
    ∃ e' inner'' notes, quarters.Corresponds
        (fun w => if scopeNeedsData d inner then saveDataForScope w d inner else w)
        (restoreDataForScope e inner') (e', inner'', notes)
      ∧ (if scopeNeedsData d inner then d.Restored e e' ∧ inner.Restored inner' inner''
          else e' = e ∧ inner'' = inner') := by
  have hneeds : scopeNeedsData e inner' = scopeNeedsData d inner := by
    rw [scopeNeedsData, scopeNeedsData, anyScopeNeedsData_of_reparsed hinner,
      needsData_of_reparsed hdata]
  unfold restoreDataForScope
  rw [hneeds]
  cases scopeNeedsData d inner with
  | false =>
    refine ⟨e, inner', OuterNotes.none, ?_, rfl, rfl⟩
    unfold restoreDataForScopeWith
    rw [he]
    exact Corresponds.pure _
  | true =>
    obtain ⟨inner'', innerNotes, hinnerCorr, hinnerRestored⟩ :=
      saveDataForInnerScopes_corresponds hinner
    obtain ⟨e', notes, hcorr, hrestored⟩ :=
      restoreDataForScopeWith_corresponds inner' he hdata hinnerCorr
    exact ⟨e', inner'', notes, hcorr, hrestored, hinnerRestored⟩

/-- **The preparse data round trip.** The records of the skippable
functions come back in order, each with all its fields and with the index
of its own data among the children. Then the scope data is restored onto
the tree the parser has built: the recorded bits onto the same variables,
and nothing else. All bytes are consumed, and after each of the two phases
the reader holds as many quarters as the writer had left free. -/
theorem preparseData_roundTrip (b : Builder) (hb : b.hasData = true)
    (d e : ScopeData) (inner inner' : Scope)
    (he : (e.isDeclarationScope && e.isSkippedFunction) = false)
    (hdata : d.Reparsed e) (hinner : inner.Reparsed inner') :
    ∃ c e' inner'' notes c',
      getDataForSkippableFunctions
          ⟨.start (saveScopeAllocationData b d inner).byteData, 0⟩
          (b.children.map (·.startPosition))
        = some (skippableFunctionResults 0 b.children, c)
      ∧ c.scopeData.storedQuarters
        = (b.children.foldl saveDataForSkippableFunction
            ByteData.start).freeQuartersInLastByte
      ∧ restoreScopeAllocationData c e inner' = some ((e', inner'', notes), c')
      ∧ (if scopeNeedsData d inner then d.Restored e e' ∧ inner.Restored inner' inner''
          else e' = e ∧ inner'' = inner')
      ∧ c'.scopeData.storedQuarters
        = (saveScopeAllocationData b d inner).freeQuartersInLastByte
      ∧ c'.scopeData.index = (saveScopeAllocationData b d inner).byteData.length := by
  simp only [Builder.hasData, Bool.and_eq_true, Bool.not_eq_true'] at hb
  have hsave : saveScopeAllocationData b d inner
      = (fun w => if scopeNeedsData d inner then saveDataForScope w d inner else w)
          (b.children.foldl saveDataForSkippableFunction ByteData.start) := by
    rw [saveScopeAllocationData, hb.1, hb.2]
    rfl
  obtain ⟨e', inner'', notes, hcorr, hrestored⟩ := saveDataForScope_corresponds he hdata hinner
  have hext := quarters_extends_self (saveScopeAllocationData b d inner)
  rw [hsave] at hext
  obtain ⟨-, c, hget, hm⟩ := getDataForSkippableFunctions_foldl b.children
    (c := ⟨.start (saveScopeAllocationData b d inner).byteData, 0⟩)
    (hcorr.extends_of hext) (hsave ▸ quarters_matched_start _)
  obtain ⟨r, hr, hm'⟩ := hcorr.read_eq hext hm
  refine ⟨c, e', inner'', notes, { c with scopeData := r }, hget, hm.2.2.1, ?_, hrestored,
    ?_, ?_⟩
  · rw [restoreScopeAllocationData, hr]
    rfl
  · rw [hsave]
    exact hm'.2.2.1
  · rw [hsave]
    exact hm'.2.1

/-- A scope with two variables, a `let` and a temporary, for an example. -/
def exampleScopeData (type : ScopeType) (skipped : Bool) (name : ℕ)
    (maybeAssigned forced : Bool) : ScopeData where
  scopeType := type
  isDeclarationScope := type = .functionScope
  functionKind := .kNormalFunction
  isHidden := false
  languageMode := .kSloppy
  hasThisDeclaration := true
  hasPreparseDataBuilder := skipped
  isSkippedFunction := skipped
  functionVar := none
  locals := [⟨[name], .kLet, maybeAssigned, forced, false⟩,
    ⟨[name + 1], .kTemporary, false, false, false⟩]
  classVariable := none
  callsEval := false
  innerScopeCallsEval := false
  sloppyEvalCanExtendVars := false
  usesSuperProperty := false
  needsPrivateNameContextChainRecalc := false
  saveClassVariableIndex := false
  hasExplicitStaticPrivateMethodsAccess := false
  hasStaticPrivateMethods := false

/-- The example scope, reparsed without its bits. -/
theorem exampleScopeData_reparsed (type : ScopeType) (name : ℕ) (m f : Bool) (hname : name ≠ 35) :
    (exampleScopeData type false name m f).Reparsed
      (exampleScopeData type false name false false) where
  scopeType_eq := rfl
  functionKind_eq := rfl
  isHidden_eq := rfl
  functionVar_rel := .none
  locals_rel := by
    have hsave : (exampleScopeData type false name m f).savesClassVariable = false := by
      simp [ScopeData.savesClassVariable, ScopeData.shouldSaveClassVariableIndex, exampleScopeData]
    rw [ScopeData.completedLocals, hsave]
    refine .cons ⟨rfl, rfl, nofun, nofun, ?_⟩ (.cons ⟨rfl, rfl, nofun, nofun, fun _ => rfl⟩ .nil)
    rintro (h | h)
    · cases h
    · simp [Variable.isPrivateName, hname] at h
  classVariable_forced h := by
    simp [ScopeData.savesClassVariable, ScopeData.shouldSaveClassVariableIndex,
      exampleScopeData] at h
  staticPrivateMethod h := by
    simp [ScopeData.savesClassVariable, ScopeData.shouldSaveClassVariableIndex,
      exampleScopeData] at h

/-- A function around a skippable function and a block. -/
theorem preparseData_roundTrip_block :
    let f : SkippableFunction := ⟨10, 300, 2, 1, 0, .kStrict, true, false, by decide⟩
    let b : Builder := ⟨[f], false, true⟩
    let inner : Scope := .scope (exampleScopeData .functionScope true 102 false false) .null
      (.scope (exampleScopeData .blockScope false 98 true true) .null .null)
    let inner' : Scope := .scope (exampleScopeData .functionScope true 102 false false) .null
      (.scope (exampleScopeData .blockScope false 98 false false) .null .null)
    let d := exampleScopeData .functionScope false 97 false true
    let e := exampleScopeData .functionScope false 97 false false
    ∃ c e' inner'' notes c',
      getDataForSkippableFunctions
          ⟨.start (saveScopeAllocationData b d inner).byteData, 0⟩ [10]
        = some ([(f.data, none)], c)
      ∧ restoreScopeAllocationData c e inner' = some ((e', inner'', notes), c')
      ∧ d.Restored e e' ∧ inner.Restored inner' inner''
      ∧ c'.scopeData.index = (saveScopeAllocationData b d inner).byteData.length := by
  intro f b inner inner' d e
  obtain ⟨c, e', inner'', notes, c', hget, -, hrestore, hrestored, -, hindex⟩ :=
    preparseData_roundTrip b rfl d e inner inner' rfl
      (exampleScopeData_reparsed _ _ _ _ (by decide))
      (.skipped rfl rfl rfl rfl (.scope rfl rfl
        (exampleScopeData_reparsed _ _ _ _ (by decide)) .null .null))
  exact ⟨c, e', inner'', notes, c', hget, hrestore, hrestored.1, hrestored.2, hindex⟩
