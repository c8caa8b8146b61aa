import V8Speak.BitField
import V8Speak.PreparseBytes

/-!
# Saving and restoring scope allocation data

The preparser saves, for a function whose inner functions it has skipped,
one record per skippable inner function and, per scope, a byte of flags
followed by two bits per variable. The parser reads the records back when it
skips the inner functions in its turn, and restores the flags and the bits
onto the scopes it has built itself (`parsing/preparse-data.cc`).

The scopes form a tree through the pointers `inner_scope_` and `sibling_`,
and `Scope` is such a pointer. `PreparseDataBuilder::SaveDataForScope` walks
the tree past the *skippable* function scopes, those with a builder of their
own; `RestoreDataForScope` walks it past the *skipped* ones. Both leave out
the scopes for which `ScopeNeedsData` fails.
-/

inductive LanguageMode where
  | kSloppy
  | kStrict
  deriving Repr, DecidableEq

/-- `VariableMode`, in the order of the source. -/
inductive VariableMode where
  | kLet
  | kConst
  | kVar
  | kTemporary
  | kDynamic
  | kDynamicGlobal
  | kDynamicLocal
  | kPrivateMethod
  | kPrivateSetterOnly
  | kPrivateGetterOnly
  | kPrivateGetterAndSetter
  deriving Repr, DecidableEq

namespace VariableMode

/-- `IsDeclaredVariableMode`. -/
def isDeclared : VariableMode → Bool
  | kLet | kConst | kVar => true
  | _ => false

/-- `IsPrivateMethodOrAccessorVariableMode`. -/
def isPrivateMethodOrAccessor : VariableMode → Bool
  | kPrivateMethod | kPrivateSetterOnly | kPrivateGetterOnly | kPrivateGetterAndSetter => true
  | _ => false

/-- `IsSerializableVariableMode`. -/
def isSerializable (m : VariableMode) : Bool := m.isDeclared || m.isPrivateMethodOrAccessor

end VariableMode

/-- The part of a `Variable` that the preparse data is about. The shadowing
link `local_if_not_shadowed_` belongs to the dynamic modes, which are not
serializable. -/
structure Variable where
  /-- The name, as code units. -/
  name : List ℕ
  mode : VariableMode
  /-- `maybe_assigned() == kMaybeAssigned`. -/
  maybeAssigned : Bool
  hasForcedContextAllocation : Bool
  isUsed : Bool
  deriving Repr, DecidableEq

namespace Variable

variable (v : Variable)

/-- `AstRawString::IsPrivateName`: the name begins with a hash sign. -/
def isPrivateName : Bool := v.name.head? = some 35

def setMaybeAssigned : Variable :=
  if v.mode = .kConst then v
  else if v.isPrivateName then v
  else { v with maybeAssigned := true }

def forceContextAllocation : Variable :=
  { v with hasForcedContextAllocation := true }

def setIsUsed : Variable := { v with isUsed := true }

end Variable

inductive ScopeType where
  | classScope
  | evalScope
  | functionScope
  | moduleScope
  | scriptScope
  | catchScope
  | blockScope
  | withScope
  | shadowRealmScope
  deriving Repr, DecidableEq

/-- `FunctionKind`, in the order of the source. -/
inductive FunctionKind where
  | kNormalFunction
  | kModule
  | kAsyncModule
  | kBaseConstructor
  | kDefaultBaseConstructor
  | kDefaultDerivedConstructor
  | kDerivedConstructor
  | kGetterFunction
  | kStaticGetterFunction
  | kSetterFunction
  | kStaticSetterFunction
  | kArrowFunction
  | kAsyncArrowFunction
  | kAsyncFunction
  | kAsyncConciseMethod
  | kStaticAsyncConciseMethod
  | kAsyncConciseGeneratorMethod
  | kStaticAsyncConciseGeneratorMethod
  | kAsyncGeneratorFunction
  | kGeneratorFunction
  | kConciseGeneratorMethod
  | kStaticConciseGeneratorMethod
  | kConciseMethod
  | kStaticConciseMethod
  | kClassMembersInitializerFunction
  | kClassStaticInitializerFunction
  | kInvalid
  deriving Repr, DecidableEq

namespace FunctionKind

def isArrowFunction : FunctionKind → Bool
  | kArrowFunction | kAsyncArrowFunction => true
  | _ => false

def isDefaultConstructor : FunctionKind → Bool
  | kDefaultBaseConstructor | kDefaultDerivedConstructor => true
  | _ => false

/-- `BindsSuper`: concise methods, accessors and class constructors. -/
def bindsSuper : FunctionKind → Bool
  | kBaseConstructor | kDefaultBaseConstructor | kDefaultDerivedConstructor
  | kDerivedConstructor
  | kGetterFunction | kStaticGetterFunction | kSetterFunction | kStaticSetterFunction
  | kAsyncConciseMethod | kStaticAsyncConciseMethod
  | kAsyncConciseGeneratorMethod | kStaticAsyncConciseGeneratorMethod
  | kConciseGeneratorMethod | kStaticConciseGeneratorMethod
  | kConciseMethod | kStaticConciseMethod
  | kClassMembersInitializerFunction | kClassStaticInitializerFunction => true
  | _ => false

end FunctionKind

/-- The fields of a `Scope`, `DeclarationScope` or `ClassScope` that are
saved, restored or consulted on the way. -/
structure ScopeData where
  scopeType : ScopeType
  isDeclarationScope : Bool
  functionKind : FunctionKind
  isHidden : Bool
  languageMode : LanguageMode
  hasThisDeclaration : Bool
  /-- `preparse_data_builder_ != nullptr`. -/
  hasPreparseDataBuilder : Bool
  isSkippedFunction : Bool
  /-- `function_`, the variable of a named function expression. -/
  functionVar : Option Variable
  locals : List Variable
  /-- `class_variable_`, as a position in `locals_`. -/
  classVariable : Option ℕ
  callsEval : Bool
  innerScopeCallsEval : Bool
  sloppyEvalCanExtendVars : Bool
  usesSuperProperty : Bool
  needsPrivateNameContextChainRecalc : Bool
  /-- `should_save_class_variable_index_`. -/
  saveClassVariableIndex : Bool
  hasExplicitStaticPrivateMethodsAccess : Bool
  hasStaticPrivateMethods : Bool
  deriving Repr, DecidableEq

namespace ScopeData

variable (d : ScopeData)

def isFunctionScope : Bool := d.scopeType = .functionScope

def isClassScope : Bool := d.scopeType = .classScope

def isSkippableFunctionScope : Bool :=
  d.isFunctionScope && !d.functionKind.isArrowFunction && d.hasPreparseDataBuilder

def shouldSaveClassVariableIndex : Bool :=
  d.saveClassVariableIndex || d.hasExplicitStaticPrivateMethodsAccess
    || (d.hasStaticPrivateMethods && d.innerScopeCallsEval)

end ScopeData

/-- A scope pointer: null, or a scope with its `inner_scope_` and its
`sibling_`. -/
inductive Scope where
  | null : Scope
  | scope (data : ScopeData) (inner sibling : Scope) : Scope
  deriving Repr, DecidableEq

namespace PreparseDataBuilder

variable (d : ScopeData)

/-- `PreparseDataBuilder::ScopeNeedsData`, given whether some inner scope
needs data. -/
def needsData (innerNeedsData : Bool) : Bool :=
  if d.isFunctionScope then !d.functionKind.isDefaultConstructor
  else if !d.isHidden && d.locals.any (fun v => v.mode.isSerializable) then true
  else innerNeedsData

/-- Whether `ScopeNeedsData` holds of some scope of a sibling list. -/
def anyScopeNeedsData : Scope → Bool
  | .null => false
  | .scope d inner sibling => needsData d (anyScopeNeedsData inner) || anyScopeNeedsData sibling

/-- `PreparseDataBuilder::ScopeNeedsData` of a scope with its inner
scopes. -/
def scopeNeedsData (inner : Scope) : Bool :=
  needsData d (anyScopeNeedsData inner)

end PreparseDataBuilder

/-! ## The fields packed into bytes -/

namespace PreparseFields

/-- `ScopeSloppyEvalCanExtendVarsBit`. -/
def scopeSloppyEvalCanExtendVars : BitField := ⟨0, 1⟩
/-- `InnerScopeCallsEvalField`. -/
def innerScopeCallsEval : BitField := scopeSloppyEvalCanExtendVars.next 1
/-- `NeedsPrivateNameContextChainRecalcField`. -/
def needsPrivateNameContextChainRecalc : BitField := innerScopeCallsEval.next 1
/-- `ShouldSaveClassVariableIndexField`. -/
def shouldSaveClassVariableIndex : BitField := needsPrivateNameContextChainRecalc.next 1

/-- `VariableMaybeAssignedField`. -/
def variableMaybeAssigned : BitField := ⟨0, 1⟩
/-- `VariableContextAllocatedField`. -/
def variableContextAllocated : BitField := variableMaybeAssigned.next 1

/-- `HasDataField`. -/
def hasData : BitField := ⟨0, 1⟩
/-- `LengthEqualsParametersField`. -/
def lengthEqualsParameters : BitField := hasData.next 1
/-- `NumberOfParametersField`. -/
def numberOfParameters : BitField := lengthEqualsParameters.next 16

/-- `LanguageField`. -/
def language : BitField := ⟨0, 1⟩
/-- `UsesSuperField`. -/
def usesSuper : BitField := language.next 1

end PreparseFields

/-- `static_cast<uint8_t>(LanguageMode)`. -/
def LanguageMode.toBit : LanguageMode → ℕ
  | .kSloppy => 0
  | .kStrict => 1

/-- `LanguageMode(n)`. -/
def LanguageMode.ofBit (n : ℕ) : LanguageMode := if n = 0 then .kSloppy else .kStrict

/-! ## Saving -/

namespace PreparseDataBuilder

def kMaxArguments : ℕ := 2 ^ 16 - 2

/-- What the builder of a skippable inner function records: positions,
language mode and use of `super` from its function scope, the rest from the
builder itself. The parameter list of a function is limited to
`kMaxArguments` when it is parsed. -/
structure SkippableFunction where
  /-- `function_scope_->start_position()`. -/
  startPosition : Int32
  /-- `function_scope_->end_position()`. -/
  endPosition : Int32
  /-- `function_scope_->num_parameters()`. -/
  numParameters : ℕ
  functionLength : Int32
  numInnerFunctions : Int32
  /-- `function_scope_->language_mode()`. -/
  languageMode : LanguageMode
  /-- `function_scope_->uses_super_property()`. -/
  usesSuperProperty : Bool
  /-- `HasData()` of its builder. -/
  hasData : Bool
  /-- The limit on the number of parameters. -/
  numParameters_le : numParameters ≤ kMaxArguments
  deriving Repr, DecidableEq

/-- `length_equals_parameters`. -/
def SkippableFunction.lengthEqualsParameters (f : SkippableFunction) : Bool :=
  Int32.ofNat f.numParameters = f.functionLength

/-- `has_data_and_num_parameters`. The field takes a `uint16_t`. -/
def SkippableFunction.hasDataAndNumParameters (f : SkippableFunction) : ℕ :=
  PreparseFields.hasData.encode f.hasData.toNat
    ||| PreparseFields.lengthEqualsParameters.encode f.lengthEqualsParameters.toNat
    ||| PreparseFields.numberOfParameters.encode (f.numParameters % 2 ^ 16)

/-- `language_and_super`. -/
def SkippableFunction.languageAndSuper (f : SkippableFunction) : ℕ :=
  PreparseFields.language.encode f.languageMode.toBit
    ||| PreparseFields.usesSuper.encode f.usesSuperProperty.toNat

variable (w : ByteData)

def saveDataForSkippableFunction (f : SkippableFunction) : ByteData :=
  let w := w.writeVarint32 f.startPosition.toUInt32
  let w := w.writeVarint32 f.endPosition.toUInt32
  let w := w.writeVarint32 (UInt32.ofNat f.hasDataAndNumParameters)
  let w := if f.lengthEqualsParameters then w else w.writeVarint32 f.functionLength.toUInt32
  let w := w.writeVarint32 f.numInnerFunctions.toUInt32
  w.writeQuarter f.languageAndSuper

/-- `variable_data` of a variable. -/
def variableData (v : Variable) : ℕ :=
  PreparseFields.variableMaybeAssigned.encode v.maybeAssigned.toNat
    ||| PreparseFields.variableContextAllocated.encode v.hasForcedContextAllocation.toNat

def saveDataForVariable (v : Variable) : ByteData :=
  w.writeQuarter (variableData v)

/-- `scope_data_flags` of a scope. -/
def scopeDataFlags (d : ScopeData) : ℕ :=
  PreparseFields.scopeSloppyEvalCanExtendVars.encode
      (d.isDeclarationScope && d.sloppyEvalCanExtendVars).toNat
    ||| PreparseFields.innerScopeCallsEval.encode d.innerScopeCallsEval.toNat
    ||| PreparseFields.needsPrivateNameContextChainRecalc.encode
      (d.isFunctionScope && d.needsPrivateNameContextChainRecalc).toNat
    ||| PreparseFields.shouldSaveClassVariableIndex.encode
      (d.isClassScope && d.shouldSaveClassVariableIndex).toNat

/-- The loop over `locals()` in `SaveDataForScope`. -/
def saveDataForLocals (w : ByteData) : List Variable → ByteData
  | [] => w
  | v :: vs => saveDataForLocals (if v.mode.isSerializable then saveDataForVariable w v else w) vs

/-- The function variable in `SaveDataForScope`. -/
def saveDataForFunctionVar (d : ScopeData) : ByteData :=
  match d.isFunctionScope, d.functionVar with
  | true, some v => saveDataForVariable w v
  | _, _ => w

/-- `PreparseDataBuilder::SaveDataForScope` up to the inner scopes. -/
def saveDataForScopeHead (d : ScopeData) : ByteData :=
  saveDataForLocals (saveDataForFunctionVar (w.writeUint8 (scopeDataFlags d)) d) d.locals

/-- `PreparseDataBuilder::SaveDataForInnerScopes`, over a sibling list. -/
def saveDataForInnerScopes (w : ByteData) : Scope → ByteData
  | .null => w
  | .scope d inner sibling =>
    let w :=
      if d.isSkippableFunctionScope then w
      else if !scopeNeedsData d inner then w
      else saveDataForInnerScopes (saveDataForScopeHead w d) inner
    saveDataForInnerScopes w sibling

def saveDataForScope (d : ScopeData) (inner : Scope) : ByteData :=
  saveDataForInnerScopes (saveDataForScopeHead w d) inner

/-- The state of a `PreparseDataBuilder` when its data is saved. -/
structure Builder where
  children : List SkippableFunction
  bailedOut : Bool
  hasData_ : Bool
  deriving Repr, DecidableEq

/-- `PreparseDataBuilder::HasData`. -/
def Builder.hasData (b : Builder) : Bool := !b.bailedOut && b.hasData_

/-- `PreparseDataBuilder::SaveScopeAllocationData`: the records of the
skippable inner functions, then the data of the scope. -/
def saveScopeAllocationData (b : Builder) (d : ScopeData) (inner : Scope) : ByteData :=
  if !b.hasData_ then ByteData.start
  else
    let w := b.children.foldl saveDataForSkippableFunction ByteData.start
    if !b.bailedOut && scopeNeedsData d inner then saveDataForScope w d inner else w

end PreparseDataBuilder

/-! ## Restoring -/

/-- What a scope passes on to the scopes around it while its data is
restored: the effects on outer scopes of `RecordEvalCall` and
`RecordNeedsPrivateNameContextChainRecalc`. -/
structure OuterNotes where
  /-- `RecordInnerScopeEvalCall` has not met a scope that knows yet. -/
  innerScopeEvalCall : Bool
  /-- `RecordDeclarationScopeEvalCall` awaits its declaration scope. -/
  declarationScopeEvalCall : Bool
  /-- `RecordSuperPropertyUsage` awaits the receiver scope. -/
  superPropertyUsage : Bool
  /-- `RecordNeedsPrivateNameContextChainRecalc` has not met a closure
  scope that knows yet. -/
  privateNameContextChainRecalc : Bool
  deriving Repr, DecidableEq

namespace OuterNotes

/-- Nothing to pass on. -/
def none : OuterNotes := ⟨false, false, false, false⟩

/-- The notes of two inner scopes together. -/
def or (m n : OuterNotes) : OuterNotes :=
  ⟨m.innerScopeEvalCall || n.innerScopeEvalCall,
    m.declarationScopeEvalCall || n.declarationScopeEvalCall,
    m.superPropertyUsage || n.superPropertyUsage,
    m.privateNameContextChainRecalc || n.privateNameContextChainRecalc⟩

end OuterNotes

namespace ScopeData

variable (d : ScopeData)

/-- Whether `GetReceiverScope` stops here. -/
def isReceiverScope : Bool :=
  d.isDeclarationScope && (d.scopeType = .scriptScope || d.hasThisDeclaration)

/-- Whether `GetClosureScope` stops here. -/
def isClosureScope : Bool :=
  d.isDeclarationScope && d.scopeType ≠ .blockScope

def recordDeclarationScopeEvalCall : ScopeData :=
  if d.scopeType = .scriptScope ∨ d.scopeType = .evalScope then { d with callsEval := true }
  else { d with callsEval := true, sloppyEvalCanExtendVars := true }

/-- The use of `super` recorded on the receiver scope of an eval call. -/
def recordSuperPropertyUsage : ScopeData :=
  if d.functionKind.bindsSuper then { d with usesSuperProperty := true } else d

/-- An outer scope takes the notes of its inner scopes, and passes on what
concerns the scopes further out. -/
def receive (n : OuterNotes) : ScopeData × OuterNotes :=
  let innerScopeEvalCall := n.innerScopeEvalCall && !d.innerScopeCallsEval
  let recalc := n.privateNameContextChainRecalc &&
    !(d.isClosureScope && d.needsPrivateNameContextChainRecalc)
  let d' := { d with
    innerScopeCallsEval := d.innerScopeCallsEval || n.innerScopeEvalCall
    needsPrivateNameContextChainRecalc := d.needsPrivateNameContextChainRecalc ||
      (d.isClosureScope && n.privateNameContextChainRecalc) }
  let d' := if n.declarationScopeEvalCall && d.isDeclarationScope then
    d'.recordDeclarationScopeEvalCall else d'
  let d' := if n.superPropertyUsage && d.isReceiverScope then
    d'.recordSuperPropertyUsage else d'
  (d', ⟨innerScopeEvalCall, n.declarationScopeEvalCall && !d.isDeclarationScope,
    n.superPropertyUsage && !d.isReceiverScope, recalc⟩)

def recordInnerScopeEvalCall : ScopeData × OuterNotes :=
  ({ d with innerScopeCallsEval := true }, { OuterNotes.none with innerScopeEvalCall := true })

def recordEvalCall : ScopeData × OuterNotes :=
  let d := { d with callsEval := true, innerScopeCallsEval := true }
  let sloppy : Bool := d.languageMode = .kSloppy
  let d' := if sloppy && d.isDeclarationScope then d.recordDeclarationScopeEvalCall else d
  let d' := if d.isReceiverScope then d'.recordSuperPropertyUsage else d'
  (d', ⟨true, sloppy && !d.isDeclarationScope, !d.isReceiverScope, false⟩)

def recordNeedsPrivateNameContextChainRecalc : ScopeData × OuterNotes :=
  if d.needsPrivateNameContextChainRecalc then (d, OuterNotes.none)
  else ({ d with needsPrivateNameContextChainRecalc := true },
    { OuterNotes.none with privateNameContextChainRecalc := true })

/-- The variable `ClassScope::DeclareClassVariable` declares for an
anonymous class, named by `dot_string`. -/
def anonymousClassVariable : Variable := ⟨[46], .kConst, true, false, false⟩

/-- The class variable, created if the reparsed class has none yet, is
marked as used and forced into the context. -/
def restoreClassVariable : ScopeData :=
  let (locals, index) := match d.classVariable with
    | some i => (d.locals, i)
    | none => (d.locals ++ [anonymousClassVariable], d.locals.length)
  { d with
    locals := locals.modify index (fun v => v.setIsUsed.forceContextAllocation)
    classVariable := some index
    saveClassVariableIndex := true }

end ScopeData

namespace ConsumedPreparseData

def kSkippableFunctionMinDataSize : ℕ := 5

/-- A `CHECK` on the reader's state. -/
def check (cond : ByteData → Bool) : Read Unit := fun r =>
  if cond r then some ((), r) else none

/-- What `GetDataForSkippableFunction` returns through its out parameters,
and whether the function has data of its own. -/
structure FunctionData where
  /-- `*end_position`. -/
  endPosition : Int32
  /-- `*num_parameters`. -/
  numParameters : ℕ
  /-- `*function_length`. -/
  functionLength : Int32
  /-- `*num_inner_functions`. -/
  numInnerFunctions : Int32
  /-- `*uses_super_property`. -/
  usesSuperProperty : Bool
  /-- `*language_mode`. -/
  languageMode : LanguageMode
  hasData : Bool
  deriving Repr, DecidableEq

/-- `*function_length` in `GetDataForSkippableFunction`. -/
def readFunctionLength (lengthEqualsParameters : Bool) (numParameters : ℕ) : Read Int32 :=
  if lengthEqualsParameters then pure (Int32.ofNat numParameters) else readVarint32

/-- The reading part of `GetDataForSkippableFunction`. -/
def readDataForSkippableFunction (startPosition : Int32) : Read FunctionData := do
  check (fun r => r.hasRemainingBytes kSkippableFunctionMinDataSize)
  let startPositionFromData ← readVarint32
  check (fun _ => startPosition = startPositionFromData)
  let endPosition ← readVarint32
  let hasDataAndNumParameters ← readVarint32
  let fields := hasDataAndNumParameters.toUInt32.toNat
  let numParameters := PreparseFields.numberOfParameters.decode fields
  let functionLength ← readFunctionLength
    (PreparseFields.lengthEqualsParameters.decodeBool fields) numParameters
  let numInnerFunctions ← readVarint32
  let languageAndSuper ← readQuarter
  return {
    endPosition := endPosition
    numParameters := numParameters
    functionLength := functionLength
    numInnerFunctions := numInnerFunctions
    usesSuperProperty := PreparseFields.usesSuper.decodeBool languageAndSuper
    languageMode := .ofBit (PreparseFields.language.decode languageAndSuper)
    hasData := PreparseFields.hasData.decodeBool fields }

/-- `BaseConsumedPreparseData`: the byte data and `child_index_`. -/
structure Consumer where
  scopeData : ByteData
  childIndex : ℕ
  deriving Repr, DecidableEq

/-- `GetDataForSkippableFunction`; the second component is the index given
to `GetChildData`, if any. -/
def getDataForSkippableFunction (c : Consumer) (startPosition : Int32) :
    Option ((FunctionData × Option ℕ) × Consumer) :=
  ((readDataForSkippableFunction startPosition).run c.scopeData).map (fun p =>
    if p.1.hasData then ((p.1, some c.childIndex), ⟨p.2, c.childIndex + 1⟩)
    else ((p.1, none), ⟨p.2, c.childIndex⟩))

/-- The calls of `GetDataForSkippableFunction` for the functions that start
at the given positions. -/
def getDataForSkippableFunctions (c : Consumer) :
    List Int32 → Option (List (FunctionData × Option ℕ) × Consumer)
  | [] => some ([], c)
  | start :: starts => do
    let (data, c) ← getDataForSkippableFunction c start
    let (datas, c) ← getDataForSkippableFunctions c starts
    return (data :: datas, c)

/-- The update of a variable in `RestoreDataForVariable`. -/
def applyVariableData (v : Variable) (data : ℕ) : Variable :=
  let v := if PreparseFields.variableMaybeAssigned.decodeBool data then v.setMaybeAssigned
    else v
  if PreparseFields.variableContextAllocated.decodeBool data then
    v.setIsUsed.forceContextAllocation else v

def restoreDataForVariable (v : Variable) : Read Variable := do
  let data ← readQuarter
  return applyVariableData v data

/-- One local in `RestoreDataForScope`. -/
def restoreDataForLocal (v : Variable) : Read Variable :=
  if v.mode.isSerializable then restoreDataForVariable v else pure v

/-- The loop over `locals()` in `RestoreDataForScope`. -/
def restoreDataForLocals : List Variable → Read (List Variable)
  | [] => pure []
  | v :: vs => do
    let v ← restoreDataForLocal v
    let vs ← restoreDataForLocals vs
    return v :: vs

variable (d : ScopeData)

/-- The function variable in `RestoreDataForScope`. -/
def restoreDataForFunctionVar : Read (Option Variable) :=
  match d.isFunctionScope, d.functionVar with
  | true, some v => do return some (← restoreDataForVariable v)
  | _, v => pure v

/-- The effect of `scope_data_flags` in `RestoreDataForScope`. -/
def applyScopeDataFlags (flags : ℕ) : ScopeData × OuterNotes :=
  let (d, n₁) := if PreparseFields.scopeSloppyEvalCanExtendVars.decodeBool flags then
    d.recordEvalCall else (d, OuterNotes.none)
  let (d, n₂) := if PreparseFields.innerScopeCallsEval.decodeBool flags then
    d.recordInnerScopeEvalCall else (d, OuterNotes.none)
  let (d, n₃) := if PreparseFields.needsPrivateNameContextChainRecalc.decodeBool flags then
    d.recordNeedsPrivateNameContextChainRecalc else (d, OuterNotes.none)
  let d := if PreparseFields.shouldSaveClassVariableIndex.decodeBool flags then
    d.restoreClassVariable else d
  (d, n₁.or (n₂.or n₃))

/-- `RestoreDataForScope` up to the inner scopes. -/
def restoreDataForScopeHead : Read (ScopeData × OuterNotes) := do
  check (fun r => r.hasRemainingBytes 1)
  let flags ← readUint8
  let (d, notes) := applyScopeDataFlags d flags
  let functionVar ← restoreDataForFunctionVar d
  let locals ← restoreDataForLocals d.locals
  return ({ d with functionVar := functionVar, locals := locals }, notes)

/-- `RestoreDataForScope` of a scope, given whether it needs data and how
its inner scopes are restored. -/
def restoreDataForScopeWith (inner : Scope) (needsData : Bool)
    (restoreInner : Read (Scope × OuterNotes)) : Read (ScopeData × Scope × OuterNotes) := do
  if d.isDeclarationScope && d.isSkippedFunction then
    return (d, inner, OuterNotes.none)
  if !needsData then
    return (d, inner, OuterNotes.none)
  let (d, notes) ← restoreDataForScopeHead d
  let (inner, innerNotes) ← restoreInner
  let (d, outerNotes) := d.receive innerNotes
  return (d, inner, notes.or outerNotes)

/-- `RestoreDataForInnerScopes`, over a sibling list. -/
def restoreDataForInnerScopes : Scope → Read (Scope × OuterNotes)
  | .null => pure (.null, OuterNotes.none)
  | .scope d inner sibling => do
    let (d, inner, notes) ← restoreDataForScopeWith d inner
      (PreparseDataBuilder.scopeNeedsData d inner) (restoreDataForInnerScopes inner)
    let (sibling, notes') ← restoreDataForInnerScopes sibling
    return (.scope d inner sibling, notes.or notes')

def restoreDataForScope (inner : Scope) : Read (ScopeData × Scope × OuterNotes) :=
  restoreDataForScopeWith d inner (PreparseDataBuilder.scopeNeedsData d inner)
    (restoreDataForInnerScopes inner)

def restoreScopeAllocationData (c : Consumer) (d : ScopeData) (inner : Scope) :
    Option ((ScopeData × Scope × OuterNotes) × Consumer) :=
  ((restoreDataForScope d inner).run c.scopeData).map (fun p =>
    (p.1, { c with scopeData := p.2 }))

end ConsumedPreparseData
