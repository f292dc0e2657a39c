/-
  AscendEmulator.Common.Scalar.Memory — loads and stores on a bus (`sim/common/scalar/memory.rs`).

  A bus is any state with the five calls of `ScalarMemoryBus`; a call returns a result and the bus it leaves.
  A read fills the slice it is given: it returns as many bytes as were asked for.
-/

import AscendEmulator.Common.Scalar.Machine

namespace AscendEmulator.Common.Scalar

open AscendEmulator.Lib AscendEmulator.Isa
open AscendEmulator.Memory (Architecture)

structure ScalarMemoryBus (β E : Type) where
  read : β → UInt64 → (n : Nat) → Except E (Vector UInt8 n) × β
  write : β → UInt64 → List UInt8 → Except E Unit × β
  maintainDataCache : β → DcciStep → Except E Bool × β
  synchronizePipeline : β → DsbStep → Except E Bool × β
  synchronizeBarrier : β → PipelineBarrierStep → Except E Bool × β

/-- The bus that refuses every access and synchronizes nothing. -/
def noMemoryBus : ScalarMemoryBus Unit String where
  read b _ _ := (.error "memory read was not expected", b)
  write b _ _ := (.error "memory write was not expected", b)
  maintainDataCache b _ := (.ok false, b)
  synchronizePipeline b _ := (.ok false, b)
  synchronizeBarrier b _ := (.ok false, b)

/-- A bus over the bytes from `base` on, which refuses what lies outside them and synchronizes nothing. -/
def windowBus (base : UInt64) : ScalarMemoryBus (List UInt8) String where
  read bytes address n :=
    if base ≤ address ∧ (address - base).toNat + n ≤ bytes.length then
      (.ok (Vector.ofFn fun i => bytes.getD ((address - base).toNat + i) 0), bytes)
    else (.error "invalid input", bytes)
  write bytes address source :=
    if base ≤ address ∧ (address - base).toNat + source.length ≤ bytes.length then
      (.ok (), bytes.take (address - base).toNat ++ source ++ bytes.drop ((address - base).toNat + source.length))
    else (.error "invalid input", bytes)
  maintainDataCache bytes _ := (.ok false, bytes)
  synchronizePipeline bytes _ := (.ok false, bytes)
  synchronizeBarrier bytes _ := (.ok false, bytes)

inductive ScalarMemoryExecutionError (E : Type) where
  | unsupportedWord (pc : UInt64) (word : UInt32)
  | aliasedPostIndex (pc : UInt64) (word : UInt32) (register : Nat)
  | backend (e : E)
  deriving DecidableEq

structure ScalarMemoryStep where
  pc : UInt64
  word : UInt32
  operation : ScalarLoadStoreOperation
  effectiveAddress : UInt64
  widthBytes : Nat
  dataRegister : Nat
  priorDataValue : UInt64
  dataValue : UInt64
  baseRegister : Nat
  priorBaseValue : UInt64
  updatedBase : Option UInt64
  bytes : List UInt8
  signExtensionRequested : Bool
  deriving DecidableEq

structure ScalarIndexedStoreStep where
  pc : UInt64
  word : UInt32
  effectiveAddress : UInt64
  widthBytes : Nat
  sourceRegister : Nat
  value : UInt64
  baseRegister : Nat
  baseValue : UInt64
  updatedBase : Option UInt64
  offsetRegister : Nat
  offsetValue : UInt64
  bytes : List UInt8
  deriving DecidableEq

structure ScalarIndexedLoadStep where
  pc : UInt64
  word : UInt32
  effectiveAddress : UInt64
  widthBytes : Nat
  destinationRegister : Nat
  priorDestinationValue : UInt64
  value : UInt64
  baseRegister : Nat
  baseValue : UInt64
  updatedBase : Option UInt64
  offsetRegister : Nat
  offsetValue : UInt64
  bytes : List UInt8
  deriving DecidableEq

structure ScalarIndexedImmediateStoreStep where
  pc : UInt64
  word : UInt32
  effectiveAddress : UInt64
  widthBytes : Nat
  baseRegister : Nat
  baseValue : UInt64
  updatedBase : Option UInt64
  offsetRegister : Nat
  offsetValue : UInt64
  value : ScalarStoreImmediateValue
  bytes : List UInt8
  deriving DecidableEq

structure ScalarImmediateStoreStep where
  pc : UInt64
  word : UInt32
  effectiveAddress : UInt64
  widthBytes : Nat
  baseRegister : Nat
  priorBaseValue : UInt64
  updatedBase : Option UInt64
  value : ScalarStoreImmediateValue
  bytes : List UInt8
  deriving DecidableEq

structure ScalarPairLoadStep where
  pc : UInt64
  word : UInt32
  firstAddress : UInt64
  secondAddress : UInt64
  widthBytes : Nat
  baseRegister : Nat
  baseValue : UInt64
  firstDestinationRegister : Nat
  firstPriorValue : UInt64
  firstValue : UInt64
  firstBytes : List UInt8
  secondDestinationRegister : Nat
  secondPriorValue : UInt64
  secondValue : UInt64
  secondBytes : List UInt8
  signExtensionRequested : Bool
  deriving DecidableEq

structure ScalarPairStoreStep where
  pc : UInt64
  word : UInt32
  firstAddress : UInt64
  secondAddress : UInt64
  widthBytes : Nat
  baseRegister : Nat
  baseValue : UInt64
  firstSourceRegister : Nat
  firstValue : UInt64
  firstBytes : List UInt8
  secondSourceRegister : Nat
  secondValue : UInt64
  secondBytes : List UInt8
  deriving DecidableEq

namespace ScalarMachine

variable {β E ε α : Type}

abbrev OnBus (β ε α : Type) := Exec (ScalarMachine × β) ε α

def onMachine (c : Exec ScalarMachine ε α) : OnBus β ε α := Exec.first id c

/-- A call on the bus, with `map_err`. -/
def busCall (f : E → ε) (call : β → Except E α × β) : OnBus β ε α := fun s =>
  match call s.2 with
  | (.ok a, b) => (.ok a, (s.1, b))
  | (.error e, b) => (Outcome.fail (f e), (s.1, b))

/-- `&bytes[..width]`. -/
def slice (bytes : List UInt8) (width : Nat) : Outcome ε (List UInt8) :=
  Outcome.expect (if width ≤ bytes.length then some (bytes.take width) else none)

/-- Eight bytes of zero, with `bytes` over the first of them. -/
def padded (bytes : List UInt8) : List UInt8 := bytes ++ List.replicate (8 - bytes.length) 0

/-- A read into `&mut bytes[..width]` of eight bytes of zero. -/
def busRead (bus : ScalarMemoryBus β E) (address : UInt64) (width : Nat) :
    OnBus β (ScalarMemoryExecutionError E) (List UInt8) := do
  let _ ← Exec.outcome (slice (padded []) width)
  let bytes ← busCall .backend fun b => bus.read b address width
  return padded bytes.toList

def busWrite (bus : ScalarMemoryBus β E) (address : UInt64) (bytes : List UInt8) :
    OnBus β (ScalarMemoryExecutionError E) Unit :=
  busCall .backend fun b => bus.write b address bytes

/-- A loaded value, with its sign from `width` bytes if asked for. -/
def loadedValue (signExtend : Bool) (width : Nat) (bytes : List UInt8) : Outcome ε UInt64 :=
  let raw := Word.fromLeBytes bytes
  if signExtend then do
    let shift ← Word.plainSubNat 64 (width * 8)
    let shifted ← Word.shl raw shift
    Int64.toUInt64 <$> Word.sar shifted.toInt64 shift
  else .ok raw

def immediateBytes : ScalarStoreImmediateValue → List UInt8
  | .zero => List.replicate 8 0
  | .one => 1 :: List.replicate 7 0
  | .ones => List.replicate 8 0xff

def xregOrZero (register : Nat) : Exec ScalarMachine ε UInt64 := Exec.query fun m => (m.xregValue register).getD 0

/-- `if let Some(base) = updated_base { self.xregs[..] = base }`. -/
def updateBase (baseRegister : Nat) : Option UInt64 → OnBus β ε Unit
  | some base => onMachine (putXreg baseRegister base)
  | none => pure ()

/-- The address of an indexed access, and the base after it. -/
def indexedAddress (postIndex : Bool) (widthBytes : Nat) (baseValue offsetValue : UInt64) : UInt64 × Option UInt64 :=
  let indexed := baseValue + offsetValue * UInt64.ofNat widthBytes
  if postIndex then (baseValue, some indexed) else (indexed, none)

def executeMemoryWord (bus : ScalarMemoryBus β E) (pc : UInt64) (word : UInt32) :
    OnBus β (ScalarMemoryExecutionError E) ScalarMemoryStep := do
  match ← onMachine (decode word) with
  | some (.scalarLoadStoreImmediate operation dtypeField widthBytes dataRegister baseRegister signedOffset postIndex
      signExtend) => do
    let hint := ScalarInstruction.scalarLoadStoreImmediate operation dtypeField widthBytes dataRegister baseRegister
      signedOffset postIndex signExtend
    let architecture ← onMachine (Exec.query (·.architecture))
    if architecture ≠ .dav2201 ∧ postIndex = true ∧ operation = .load ∧ dataRegister = baseRegister then
      Exec.fail (.aliasedPostIndex pc word dataRegister) else
    let priorBaseValue ← onMachine (xreg baseRegister)
    let priorDataValue ← onMachine (xreg dataRegister)
    let effect ← Exec.expect (hint.scalarAddressEffect priorBaseValue)
    let signExtensionRequested := signExtend == some true && decide (widthBytes < 8)
    let (bytes, dataValue) ← (match operation with
      | .load => do
        let bytes ← busRead bus effect.effectiveAddress widthBytes
        let value ← Exec.outcome (loadedValue signExtensionRequested widthBytes bytes)
        return (bytes, value)
      | .store => do
        let low ← Exec.outcome (slice (Word.toLeBytes priorDataValue) widthBytes)
        busWrite bus effect.effectiveAddress low
        return (padded low, priorDataValue) : OnBus β (ScalarMemoryExecutionError E) (List UInt8 × UInt64))
    updateBase baseRegister effect.updatedBase
    if operation = .load then onMachine (putXreg dataRegister dataValue)
    return { pc, word, operation, effectiveAddress := effect.effectiveAddress, widthBytes, dataRegister,
             priorDataValue, dataValue, baseRegister, priorBaseValue, updatedBase := effect.updatedBase, bytes,
             signExtensionRequested }
  | _ => Exec.fail (.unsupportedWord pc word)

def executeIndexedStoreWord (bus : ScalarMemoryBus β E) (pc : UInt64) (word : UInt32) :
    OnBus β (ScalarMemoryExecutionError E) ScalarIndexedStoreStep := do
  let some (.scalarIndexedStore widthBytes sourceRegister baseRegister offsetRegister postIndex)
      ← onMachine (decode word)
    | Exec.fail (.unsupportedWord pc word)
  let value ← onMachine (xregOrZero sourceRegister)
  let baseValue ← onMachine (xregOrZero baseRegister)
  let offsetValue ← onMachine (xregOrZero offsetRegister)
  let (effectiveAddress, updatedBase) := indexedAddress postIndex widthBytes baseValue offsetValue
  let bytes := Word.toLeBytes value
  let low ← Exec.outcome (slice bytes widthBytes)
  busWrite bus effectiveAddress low
  match updatedBase with
  | some base => onMachine (writeExistingXreg baseRegister base)
  | none => pure ()
  return { pc, word, effectiveAddress, widthBytes, sourceRegister, value, baseRegister, baseValue, updatedBase,
           offsetRegister, offsetValue, bytes }

def executeIndexedLoadWord (bus : ScalarMemoryBus β E) (pc : UInt64) (word : UInt32) :
    OnBus β (ScalarMemoryExecutionError E) ScalarIndexedLoadStep := do
  let some (.scalarIndexedLoad widthBytes destinationRegister baseRegister offsetRegister postIndex)
      ← onMachine (decode word)
    | Exec.fail (.unsupportedWord pc word)
  let baseValue ← onMachine (xregOrZero baseRegister)
  let offsetValue ← onMachine (xregOrZero offsetRegister)
  let (effectiveAddress, updatedBase) := indexedAddress postIndex widthBytes baseValue offsetValue
  let bytes ← busRead bus effectiveAddress widthBytes
  let value := Word.fromLeBytes bytes
  let priorDestinationValue ← onMachine (xregOrZero destinationRegister)
  match updatedBase with
  | some base => onMachine (writeExistingXreg baseRegister base)
  | none => pure ()
  onMachine (writeExistingXreg destinationRegister value)
  return { pc, word, effectiveAddress, widthBytes, destinationRegister, priorDestinationValue, value, baseRegister,
           baseValue, updatedBase, offsetRegister, offsetValue, bytes }

def executeIndexedImmediateStoreWord (bus : ScalarMemoryBus β E) (pc : UInt64) (word : UInt32) :
    OnBus β (ScalarMemoryExecutionError E) ScalarIndexedImmediateStoreStep := do
  let some (.scalarIndexedImmediateStore widthBytes baseRegister offsetRegister value postIndex)
      ← onMachine (decode word)
    | Exec.fail (.unsupportedWord pc word)
  let baseValue ← onMachine (xreg baseRegister)
  let offsetValue ← onMachine (xreg offsetRegister)
  let (effectiveAddress, updatedBase) := indexedAddress postIndex widthBytes baseValue offsetValue
  let bytes := immediateBytes value
  let low ← Exec.outcome (slice bytes widthBytes)
  busWrite bus effectiveAddress low
  updateBase baseRegister updatedBase
  return { pc, word, effectiveAddress, widthBytes, baseRegister, baseValue, updatedBase, offsetRegister, offsetValue,
           value, bytes }

def executeImmediateStoreWord (bus : ScalarMemoryBus β E) (pc : UInt64) (word : UInt32) :
    OnBus β (ScalarMemoryExecutionError E) ScalarImmediateStoreStep := do
  let some (.scalarStoreImmediate widthBytes baseRegister signedOffset postIndex value) ← onMachine (decode word)
    | Exec.fail (.unsupportedWord pc word)
  let architecture ← onMachine (Exec.query (·.architecture))
  if postIndex = true ∧ architecture ≠ .dav2201 then Exec.fail (.unsupportedWord pc word) else
  let priorBaseValue ← onMachine (xreg baseRegister)
  let adjusted := priorBaseValue + ScalarInstruction.offsetWord signedOffset
  let effectiveAddress := if postIndex then priorBaseValue else adjusted
  let updatedBase := if postIndex then some adjusted else none
  let bytes := immediateBytes value
  let low ← Exec.outcome (slice bytes widthBytes)
  busWrite bus effectiveAddress low
  updateBase baseRegister updatedBase
  return { pc, word, effectiveAddress, widthBytes, baseRegister, priorBaseValue, updatedBase, value, bytes }

/-- Of two equal destinations, Dav2201 leaves the first value and Dav3510 the second. -/
def putPair (architecture : Architecture) (first second : Nat) (firstValue secondValue : UInt64) :
    Exec ScalarMachine ε Unit :=
  if architecture = .dav2201 then do
    putXreg second secondValue
    putXreg first firstValue
  else do
    putXreg first firstValue
    putXreg second secondValue

def executePairLoadWord (bus : ScalarMemoryBus β E) (pc : UInt64) (word : UInt32) :
    OnBus β (ScalarMemoryExecutionError E) ScalarPairLoadStep := do
  let some (.scalarPairLoad _ widthBytes firstDestinationRegister secondDestinationRegister baseRegister signedOffset
      signExtend) ← onMachine (decode word)
    | Exec.fail (.unsupportedWord pc word)
  let baseValue ← onMachine (xreg baseRegister)
  let firstAddress := baseValue + ScalarInstruction.offsetWord signedOffset
  let secondAddress := firstAddress + UInt64.ofNat widthBytes
  let firstBytes ← busRead bus firstAddress widthBytes
  let secondBytes ← busRead bus secondAddress widthBytes
  let signExtensionRequested := signExtend && decide (widthBytes < 8)
  let firstValue ← Exec.outcome (loadedValue signExtensionRequested widthBytes firstBytes)
  let secondValue ← Exec.outcome (loadedValue signExtensionRequested widthBytes secondBytes)
  let firstPriorValue ← onMachine (xreg firstDestinationRegister)
  let secondPriorValue ← onMachine (xreg secondDestinationRegister)
  let architecture ← onMachine (Exec.query (·.architecture))
  onMachine (putPair architecture firstDestinationRegister secondDestinationRegister firstValue secondValue)
  return { pc, word, firstAddress, secondAddress, widthBytes, baseRegister, baseValue, firstDestinationRegister,
           firstPriorValue, firstValue, firstBytes, secondDestinationRegister, secondPriorValue, secondValue,
           secondBytes, signExtensionRequested }

def executePairStoreWord (bus : ScalarMemoryBus β E) (pc : UInt64) (word : UInt32) :
    OnBus β (ScalarMemoryExecutionError E) ScalarPairStoreStep := do
  let some (.scalarPairStore _ widthBytes firstSourceRegister secondSourceRegister baseRegister signedOffset)
      ← onMachine (decode word)
    | Exec.fail (.unsupportedWord pc word)
  let baseValue ← onMachine (xreg baseRegister)
  let firstAddress := baseValue + ScalarInstruction.offsetWord signedOffset
  let secondAddress := firstAddress + UInt64.ofNat widthBytes
  let firstValue ← onMachine (xreg firstSourceRegister)
  let secondValue ← onMachine (xreg secondSourceRegister)
  let firstLow ← Exec.outcome (slice (Word.toLeBytes firstValue) widthBytes)
  let secondLow ← Exec.outcome (slice (Word.toLeBytes secondValue) widthBytes)
  busWrite bus firstAddress firstLow
  busWrite bus secondAddress secondLow
  return { pc, word, firstAddress, secondAddress, widthBytes, baseRegister, baseValue, firstSourceRegister, firstValue,
           firstBytes := padded firstLow, secondSourceRegister, secondValue, secondBytes := padded secondLow }

end ScalarMachine

end AscendEmulator.Common.Scalar
