import V8Speak.Vlq

/-!
# Translation arrays

A translation is a list of instructions for the deoptimizer. `TranslationArrayBuilder`
writes translations one after the other as bytes, and `TranslationArrayIterator`
reads them, beginning with any of them. Instructions that are the same as in an earlier
translation, the *basis*, are not written again. What is written is the number of
consecutive ones, which is part of the opcode byte if it is small enough. The reader
then goes on in the basis with a second index, `previousIndex`, which it moves only
when such a run begins: by as many instructions as there were since the last one.

Numbers of type `size_t` are natural numbers; `int` and `uint32_t` have 32 bits, and
are converted where the source converts them. An access outside of the bytes, or a
byte that is no opcode, gives `none`. Each opcode is always added with operands of the
same classes, which `operandTypes` lists; they are also those it is read with. There is
no compression.
-/

open Vlq

/-! ## Opcodes -/

inductive TranslationOpcode where
  | argumentsElements
  | argumentsLength
  | beginWithoutFeedback
  | beginWithFeedback
  | boolRegister
  | boolStackSlot
  | builtinContinuationFrame
  | capturedObject
  | constructStubFrame
  | doubleRegister
  | doubleStackSlot
  | duplicatedObject
  | floatRegister
  | floatStackSlot
  | inlinedExtraArguments
  | int32Register
  | int32StackSlot
  | int64Register
  | int64StackSlot
  | signedBigint64Register
  | signedBigint64StackSlot
  | unsignedBigint64Register
  | unsignedBigint64StackSlot
  | interpretedFrameWithReturn
  | interpretedFrameWithoutReturn
  | javaScriptBuiltinContinuationFrame
  | javaScriptBuiltinContinuationWithCatchFrame
  | jsToWasmBuiltinContinuationFrame
  | optimizedOut
  | literal
  | register
  | stackSlot
  | uint32Register
  | uint32StackSlot
  | updateFeedback
  | matchPreviousTranslation
  deriving DecidableEq, Repr

namespace TranslationOpcode

/-- `TRANSLATION_OPCODE_LIST`: all opcodes, with their numbers of operands. -/
def opcodeList : List (TranslationOpcode × ℕ) :=
  [(argumentsElements, 1), (argumentsLength, 0), (beginWithoutFeedback, 3), (beginWithFeedback, 3),
    (boolRegister, 1), (boolStackSlot, 1), (builtinContinuationFrame, 3), (capturedObject, 1),
    (constructStubFrame, 3), (doubleRegister, 1), (doubleStackSlot, 1), (duplicatedObject, 1),
    (floatRegister, 1), (floatStackSlot, 1), (inlinedExtraArguments, 2), (int32Register, 1),
    (int32StackSlot, 1), (int64Register, 1), (int64StackSlot, 1), (signedBigint64Register, 1),
    (signedBigint64StackSlot, 1), (unsignedBigint64Register, 1), (unsignedBigint64StackSlot, 1),
    (interpretedFrameWithReturn, 5), (interpretedFrameWithoutReturn, 3),
    (javaScriptBuiltinContinuationFrame, 3), (javaScriptBuiltinContinuationWithCatchFrame, 3),
    (jsToWasmBuiltinContinuationFrame, 4), (optimizedOut, 0), (literal, 1), (register, 1),
    (stackSlot, 1), (uint32Register, 1), (uint32StackSlot, 1), (updateFeedback, 2),
    (matchPreviousTranslation, 1)]

def kNumTranslationOpcodes : ℕ := opcodeList.length

variable (opcode : TranslationOpcode)

def operandCount : ℕ :=
  (opcodeList.map Prod.snd).getD opcode.ctorIdx 0

/-- The value of the enumeration as a byte. -/
def toByte : Byte := BitVec.ofNat 8 opcode.ctorIdx

def ofByte (byte : Byte) : Option TranslationOpcode := (opcodeList.map Prod.fst)[byte.toNat]?

/-- `TranslationOpcodeIsBegin`. -/
def isBegin : Bool :=
  opcode = beginWithFeedback || opcode = beginWithoutFeedback

end TranslationOpcode

/-- The classes `SmallUnsignedOperand`, `UnsignedOperand` and `SignedOperand`. -/
inductive OperandType where
  | smallUnsigned
  | unsigned
  | signed
  deriving DecidableEq, Repr

namespace OperandType

def writeVLQ : OperandType → BitVec 32 → List Byte
  | smallUnsigned, value => [value.setWidth 8]
  | unsigned, value => vlqEncodeUnsigned value
  | signed, value => vlqEncode value

/-- The values that can be written. -/
def InRange : OperandType → BitVec 32 → Prop
  | smallUnsigned, value => value ≤ kDataMask.setWidth 32
  | unsigned, _ => True
  | signed, value => value ≠ BitVec.intMin 32

instance : (type : OperandType) → (value : BitVec 32) → Decidable (type.InRange value)
  | smallUnsigned, value => inferInstanceAs (Decidable (value ≤ kDataMask.setWidth 32))
  | unsigned, _ => inferInstanceAs (Decidable True)
  | signed, value => inferInstanceAs (Decidable (value ≠ BitVec.intMin 32))

end OperandType

/-- The classes of the operands of an opcode. -/
def TranslationOpcode.operandTypes : TranslationOpcode → List OperandType
  | boolRegister | doubleRegister | floatRegister | int32Register | int64Register
  | signedBigint64Register | unsignedBigint64Register | register | uint32Register =>
    [.smallUnsigned]
  | beginWithFeedback | beginWithoutFeedback => [.unsigned, .signed, .signed]
  | matchPreviousTranslation => [.unsigned]
  | opcode => List.replicate opcode.operandCount .signed

/-- An instruction. Signed operands are kept as they are in memory. -/
structure TranslationInstruction where
  opcode : TranslationOpcode
  operands : List (BitVec 32)
  deriving DecidableEq, Repr

namespace TranslationInstruction

variable (i : TranslationInstruction)

/-- The bytes of the operands. -/
def operandBytes : List Byte :=
  (List.zipWith OperandType.writeVLQ i.opcode.operandTypes i.operands).flatten

/-- The bytes of an instruction. -/
def encode : List Byte := i.opcode.toByte :: i.operandBytes

/-- An instruction with operands in range. -/
def InRange : Prop :=
  List.Forall₂ OperandType.InRange i.opcode.operandTypes i.operands

end TranslationInstruction

/-! ## Writing -/

structure TranslationArrayBuilder where
  contents : List Byte := []
  basisInstructions : List TranslationInstruction := []
  matchingInstructionsCount : ℕ := 0
  totalMatchingInstructionsInCurrentTranslation : ℕ := 0
  instructionIndexWithinTranslation : ℕ := 0
  indexOfBasisTranslationStart : BitVec 32 := 0
  matchPreviousAllowed : Bool := true

namespace TranslationArrayBuilder

variable (b : TranslationArrayBuilder)

def size : BitVec 32 := BitVec.ofNat 32 b.contents.length

variable (i : TranslationInstruction)

def addRawToContents : TranslationArrayBuilder :=
  { b with contents := b.contents ++ i.encode }

/-- The instruction that stands for consecutive instructions of the basis. -/
def matchPrevious (count : ℕ) : TranslationInstruction :=
  ⟨.matchPreviousTranslation, [BitVec.ofNat 32 count]⟩

def kMaxShortenableOperand : ℕ := 255 - TranslationOpcode.kNumTranslationOpcodes

def finishPendingInstructionIfNeeded : TranslationArrayBuilder :=
  if b.matchingInstructionsCount ≠ 0 then
    let b := { b with
      totalMatchingInstructionsInCurrentTranslation :=
        b.totalMatchingInstructionsInCurrentTranslation + b.matchingInstructionsCount }
    let b :=
      if b.matchingInstructionsCount ≤ kMaxShortenableOperand then
        -- the short form has a byte that is no opcode
        { b with contents := b.contents ++ [BitVec.ofNat 8
            (TranslationOpcode.kNumTranslationOpcodes + b.matchingInstructionsCount)] }
      else b.addRawToContents (matchPrevious b.matchingInstructionsCount)
    { b with matchingInstructionsCount := 0 }
  else b

/-- The basis is used again right after it has been written, and if more than three
quarters of the last translation were in it. -/
def reusesBasis : Bool :=
  !b.matchPreviousAllowed ||
    b.totalMatchingInstructionsInCurrentTranslation > b.instructionIndexWithinTranslation / 4 * 3

def beginInstruction (distanceFromLastStart frameCount jsframeCount : BitVec 32)
    (updateFeedback : Bool) : TranslationInstruction :=
  ⟨if updateFeedback then .beginWithFeedback else .beginWithoutFeedback,
    [distanceFromLastStart, frameCount, jsframeCount]⟩

/-- Goes on with the basis, or begins a new one. -/
def chooseBasis : BitVec 32 × TranslationArrayBuilder :=
  if b.reusesBasis then
    (b.size - b.indexOfBasisTranslationStart, { b with matchPreviousAllowed := true })
  else
    (0, { b with
      basisInstructions := [], indexOfBasisTranslationStart := b.size,
      matchPreviousAllowed := false })

/-- `BeginTranslation`, with the index that it returns. -/
def beginTranslation (frameCount jsframeCount : BitVec 32)
    (updateFeedback : Bool) : BitVec 32 × TranslationArrayBuilder :=
  let b := b.finishPendingInstructionIfNeeded
  let startIndex := b.size
  let (distanceFromLastStart, b) := b.chooseBasis
  let b := { b with
    totalMatchingInstructionsInCurrentTranslation := 0, instructionIndexWithinTranslation := 0 }
  (startIndex, b.addRawToContents
    (beginInstruction distanceFromLastStart frameCount jsframeCount updateFeedback))

/-- The branch of `Add` that writes the instruction. -/
def addExplicit : TranslationArrayBuilder :=
  let b := b.finishPendingInstructionIfNeeded.addRawToContents i
  if b.matchPreviousAllowed then b else { b with basisInstructions := b.basisInstructions ++ [i] }

def add : TranslationArrayBuilder :=
  let b :=
    if b.matchPreviousAllowed ∧ b.basisInstructions[b.instructionIndexWithinTranslation]? = some i
    then { b with matchingInstructionsCount := b.matchingInstructionsCount + 1 }
    else b.addExplicit i
  { b with instructionIndexWithinTranslation := b.instructionIndexWithinTranslation + 1 }

/-- `ByteArray::kMaxLength`, for tagged values of eight bytes. -/
def kMaxLength : ℤ := 128 * 8 * 2 ^ 20 - 8 - 16

/-- `ToTranslationArray`. There are no arrays that are longer than `kMaxLength`, and what is
copied has to fit. -/
def toTranslationArray : Option (List Byte) :=
  let b := b.finishPendingInstructionIfNeeded
  if b.size.toInt < 0 ∨ b.size.toInt > kMaxLength then none
  else if b.size.toInt < b.contents.length then none
  else some b.contents

end TranslationArrayBuilder

/-! ## Reading -/

structure TranslationArrayIterator where
  index : ℕ
  remainingOpsToUseFromPreviousTranslation : ℤ := 0
  previousIndex : ℕ := 0
  opsSincePreviousIndexWasUpdated : ℕ := 0

namespace TranslationArrayIterator

variable (buffer : List Byte) (it : TranslationArrayIterator)

def nextOperand : Option (BitVec 32 × TranslationArrayIterator) :=
  if it.remainingOpsToUseFromPreviousTranslation ≠ 0 then do
    let (value, previousIndex) ← vlqDecode buffer it.previousIndex
    some (value, { it with previousIndex })
  else do
    let (value, index) ← vlqDecode buffer it.index
    some (value, { it with index })

def nextOpcodeAtPreviousIndex : Option (TranslationOpcode × TranslationArrayIterator) := do
  let byte ← buffer[it.previousIndex]?
  let opcode ← TranslationOpcode.ofByte byte
  some (opcode, { it with previousIndex := it.previousIndex + 1 })

def nextUnsignedOperandAtPreviousIndex : Option (BitVec 32 × TranslationArrayIterator) := do
  let (value, previousIndex) ← vlqDecodeUnsigned buffer it.previousIndex
  some (value, { it with previousIndex })

def nextOperandUnsigned : Option (BitVec 32 × TranslationArrayIterator) :=
  if it.remainingOpsToUseFromPreviousTranslation ≠ 0 then
    it.nextUnsignedOperandAtPreviousIndex buffer
  else do
    let (value, index) ← vlqDecodeUnsigned buffer it.index
    some (value, { it with index })

/-- The loop of `SkipOpcodeAndItsOperandsAtPreviousIndex`. -/
def skipOperands : ℕ → TranslationArrayIterator → Option TranslationArrayIterator
  | 0, it => some it
  | count + 1, it => do
    let (_, it) ← it.nextUnsignedOperandAtPreviousIndex buffer
    skipOperands count it

def skipOpcodeAndItsOperandsAtPreviousIndex : Option TranslationArrayIterator := do
  let (opcode, it) ← it.nextOpcodeAtPreviousIndex buffer
  it.skipOperands buffer opcode.operandCount

/-- The loop of `NextOpcode` over the instructions since the last run. -/
def skipOps : ℕ → TranslationArrayIterator → Option TranslationArrayIterator
  | 0, it => some it
  | count + 1, it => do
    let it ← it.skipOpcodeAndItsOperandsAtPreviousIndex buffer
    skipOps count it

/-- The branch of `NextOpcode` for `BEGIN`: `previousIndex` is at the basis. -/
def atBegin : Option TranslationArrayIterator := do
  let (lookbackDistance, _) ← vlqDecodeUnsigned buffer it.index
  some { it with
    previousIndex :=
      if lookbackDistance ≠ 0 then (BitVec.ofNat 32 it.index - 1 - lookbackDistance).toNat
      else it.previousIndex
    opsSincePreviousIndexWasUpdated := 1 }

/-- The branch of `NextOpcode` for `MATCH_PREVIOUS_TRANSLATION`. -/
def atMatch : Option (TranslationOpcode × TranslationArrayIterator) := do
  let it ← it.skipOps buffer it.opsSincePreviousIndexWasUpdated
  { it with opsSincePreviousIndexWasUpdated := 0 }.nextOpcodeAtPreviousIndex buffer

/-- The opcode in a byte at `index`. A byte that is greater than any opcode is a run. -/
def decodeOpcode (byte : Byte) : Option (TranslationOpcode × TranslationArrayIterator) :=
  if TranslationOpcode.kNumTranslationOpcodes ≤ byte.toNat then
    some (.matchPreviousTranslation, { it with
      remainingOpsToUseFromPreviousTranslation :=
        byte.toNat - TranslationOpcode.kNumTranslationOpcodes })
  else do
    let opcode ← TranslationOpcode.ofByte byte
    if opcode = .matchPreviousTranslation then do
      let (value, it) ← it.nextOperandUnsigned buffer
      some (opcode, { it with remainingOpsToUseFromPreviousTranslation := value.toInt })
    else some (opcode, it)

/-- The part of `NextOpcode` that reads at `index`. -/
def nextOpcodeAtIndex : Option (TranslationOpcode × TranslationArrayIterator) := do
  let byte ← buffer[it.index]?
  let (opcode, it) ← { it with index := it.index + 1 }.decodeOpcode buffer byte
  if opcode.isBegin then do
    let it ← it.atBegin buffer
    some (opcode, it)
  else if opcode = .matchPreviousTranslation then it.atMatch buffer
  else
    some (opcode, { it with
      opsSincePreviousIndexWasUpdated := it.opsSincePreviousIndexWasUpdated + 1 })

def nextOpcode : Option (TranslationOpcode × TranslationArrayIterator) :=
  let it := { it with
    remainingOpsToUseFromPreviousTranslation :=
      if it.remainingOpsToUseFromPreviousTranslation ≠ 0 then
        it.remainingOpsToUseFromPreviousTranslation - 1
      else it.remainingOpsToUseFromPreviousTranslation }
  if it.remainingOpsToUseFromPreviousTranslation ≠ 0 then it.nextOpcodeAtPreviousIndex buffer
  else it.nextOpcodeAtIndex buffer

def hasNextOpcode : Bool :=
  it.index < buffer.length || it.remainingOpsToUseFromPreviousTranslation > 1

/-! ## Reading everything -/

/-- Reads an operand with the function for its class. -/
def readOperand : OperandType → Option (BitVec 32 × TranslationArrayIterator)
  | .signed => it.nextOperand buffer
  | _ => it.nextOperandUnsigned buffer

def readOperands : List OperandType → TranslationArrayIterator →
    Option (List (BitVec 32) × TranslationArrayIterator)
  | [], it => some ([], it)
  | type :: types, it => do
    let (value, it) ← it.readOperand buffer type
    let (values, it) ← readOperands types it
    some (value :: values, it)

/-- Reads all operands of an opcode. -/
def finishInstruction (opcode : TranslationOpcode) :
    Option (TranslationInstruction × TranslationArrayIterator) := do
  let (operands, it) ← it.readOperands buffer opcode.operandTypes
  some (⟨opcode, operands⟩, it)

/-- Reads an opcode and all its operands. -/
def readInstruction : Option (TranslationInstruction × TranslationArrayIterator) := do
  let (opcode, it) ← it.nextOpcode buffer
  it.finishInstruction buffer opcode

/-- Reads as long as there is a next opcode. -/
def readAll : ℕ → TranslationArrayIterator → Option (List TranslationInstruction)
  | 0, _ => none
  | fuel + 1, it =>
    if it.hasNextOpcode buffer then do
      let (instruction, it) ← it.readInstruction buffer
      let instructions ← readAll fuel it
      some (instruction :: instructions)
    else some []

end TranslationArrayIterator

/-! ## Sequences of translations -/

/-- What a builder is given between two calls of `BeginTranslation`. -/
structure Translation where
  frameCount : BitVec 32
  jsframeCount : BitVec 32
  updateFeedback : Bool
  instructions : List TranslationInstruction
  frameCount_inRange : OperandType.signed.InRange frameCount
  jsframeCount_inRange : OperandType.signed.InRange jsframeCount
  instructions_inRange : ∀ i ∈ instructions, i.InRange ∧ i.opcode.isBegin = false ∧
    i.opcode ≠ .matchPreviousTranslation

/-- What a translation consists of. -/
def Translation.toInstructions (t : Translation) : List TranslationInstruction :=
  ⟨if t.updateFeedback then .beginWithFeedback else .beginWithoutFeedback,
    [t.frameCount, t.jsframeCount]⟩ :: t.instructions

/-- An instruction without the distance to the basis, the first operand of `BEGIN`. It is
not part of what the builder is given. -/
def TranslationInstruction.forgetDistance (i : TranslationInstruction) : TranslationInstruction :=
  if i.opcode.isBegin then { i with operands := i.operands.tail } else i

namespace TranslationArrayBuilder

def addTranslation (b : TranslationArrayBuilder) (t : Translation) :
    BitVec 32 × TranslationArrayBuilder :=
  let (startIndex, b) := b.beginTranslation t.frameCount t.jsframeCount t.updateFeedback
  (startIndex, t.instructions.foldl add b)

/-- Adds translations, and keeps the indices they begin at. -/
def addTranslations : TranslationArrayBuilder → List Translation →
    List (BitVec 32) × TranslationArrayBuilder
  | b, [] => ([], b)
  | b, t :: ts =>
    let (startIndex, b) := b.addTranslation t
    let (startIndices, b) := b.addTranslations ts
    (startIndex :: startIndices, b)

end TranslationArrayBuilder
