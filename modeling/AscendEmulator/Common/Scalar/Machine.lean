/-
  AscendEmulator.Common.Scalar.Machine — the scalar machine and its instructions without memory
  (`sim/common/scalar/mod.rs`).

  The machine has the 32 X registers, the SPRs that have been given a value, and on Dav2201 an X32 that only the
  checked accessors (`xregValue`, `setXreg`) know. `xregs[usize::from(register)]` is `xreg`: it panics past X31.
-/

import AscendEmulator.Isa.Flow
import AscendEmulator.Lib.Exec

namespace AscendEmulator.Common.Scalar

open AscendEmulator.Lib AscendEmulator.Isa
open AscendEmulator.Memory (Architecture)

structure ScalarMachine where
  architecture : Architecture
  xregs : XRegs
  c220Xreg32 : UInt64
  spr2 : UInt64
  sprValues : Vector (Option UInt64) 243
  modelTime : Option UInt64
  deriving DecidableEq

inductive ScalarIntegerError where
  | unsupportedHint
  | immediateOutOfRange (immediate : Nat)
  deriving DecidableEq, Repr

inductive ScalarMachineError where
  | registerOutOfRange (register : Nat)
  | sprRegisterOutOfRange (spr : Nat)
  | sprValueUnavailable (pc : UInt64) (spr : Nat)
  | modelTimeUnavailable (pc : UInt64)
  | unsupportedWord (pc : UInt64) (word : UInt32)
  | arithmetic (e : ScalarIntegerError)
  | compare (e : JumpCompareError)
  deriving DecidableEq

structure ScalarStep where
  pc : UInt64
  word : UInt32
  destinationRegister : Nat
  priorDestinationValue : UInt64
  sourceRegister : Option Nat
  sourceValue : Option UInt64
  secondSourceRegister : Option Nat
  secondSourceValue : Option UInt64
  value : UInt64
  signedOverflow : Bool
  priorSpr2 : UInt64
  spr2 : UInt64
  deriving DecidableEq

structure ScalarSprStep where
  pc : UInt64
  word : UInt32
  destinationSpr : Nat
  priorDestinationValue : Option UInt64
  sourceRegister : Option Nat
  sourceValue : UInt64
  value : UInt64
  deriving DecidableEq

inductive ScalarSprReadSource where
  | registerSnapshot
  | programCounter
  | modelTime
  deriving DecidableEq, Repr

structure ScalarSprReadStep where
  pc : UInt64
  word : UInt32
  destinationRegister : Nat
  priorDestinationValue : UInt64
  sourceSpr : Nat
  source : ScalarSprReadSource
  sourceValue : UInt64
  value : UInt64
  deriving DecidableEq

structure ScalarCompareStep where
  pc : UInt64
  word : UInt32
  dtypeField : Nat
  conditionField : Nat
  firstSourceRegister : Nat
  firstSourceValue : UInt64
  secondSourceRegister : Nat
  secondSourceValue : UInt64
  priorSpr11 : Option UInt64
  spr11 : UInt64
  deriving DecidableEq

structure ScalarCompareRegisterStep where
  pc : UInt64
  word : UInt32
  dtypeField : Nat
  conditionField : Nat
  destinationRegister : Nat
  priorDestinationValue : UInt64
  firstSourceRegister : Nat
  firstSourceValue : UInt64
  secondSourceRegister : Nat
  secondSourceValue : UInt64
  value : UInt64
  deriving DecidableEq

structure ScalarCompareImmediateStep where
  pc : UInt64
  word : UInt32
  conditionField : Nat
  sourceRegister : Nat
  sourceValue : UInt64
  encodedImmediate : Nat
  signedImmediate : Int
  priorSpr11 : Option UInt64
  spr11 : UInt64
  deriving DecidableEq

structure ScalarSelectStep where
  pc : UInt64
  word : UInt32
  dtypeField : Nat
  conditionFlag : UInt64
  destinationRegister : Nat
  priorDestinationValue : UInt64
  firstSourceRegister : Nat
  firstSourceValue : UInt64
  secondSourceRegister : Nat
  secondSourceValue : UInt64
  value : UInt64
  deriving DecidableEq

structure ScalarCacheHintStep where
  pc : UInt64
  word : UInt32
  sourceRegister : Nat
  sourceValue : UInt64
  encodedImmediate : Nat
  effectiveAddress : UInt64
  requestedBytes : Nat
  deriving DecidableEq

inductive ScalarFlowStep where
  | nop (step : FlowNop)
  | fin (step : FlowEnd)
  | jump (target : JumpTarget)
  | conditional (target : ConditionalJumpTarget)
  | compare (target : JumpCompareTarget)
  deriving DecidableEq

def ScalarFlowStep.targetPc : ScalarFlowStep → UInt64
  | nop step => step.targetPc
  | fin step => step.sequentialPc
  | jump target => target.targetPc
  | conditional target => target.targetPc
  | compare target => target.targetPc

namespace ScalarMachine

def new (architecture : Architecture) (xregs : XRegs) (spr2 : UInt64) : ScalarMachine :=
  ⟨architecture, xregs, 0, spr2, Vector.replicate 243 none, none⟩

/-- The SPRs of the architecture are those below it. -/
def sprLimit : Architecture → Nat
  | .dav2201 => 187
  | .dav3510 => 243

def xregValue (m : ScalarMachine) (register : Nat) : Option UInt64 :=
  if register = 32 ∧ m.architecture = .dav2201 then some m.c220Xreg32 else m.xregs[register]?

def sprValue (m : ScalarMachine) (index : Nat) : Option UInt64 :=
  if index = 2 then some m.spr2 else (m.sprValues[index]?).join

abbrev Machine (α : Type) := Exec ScalarMachine ScalarMachineError α

variable {ε α : Type}

/-- `ScalarInstruction::from_word(self.architecture, word)`. -/
def decode (word : UInt32) : Exec ScalarMachine ε (Option ScalarInstruction) :=
  fun m => (ScalarInstruction.fromWord m.architecture word, m)

/-- `self.xregs[usize::from(register)]`. -/
def xreg (register : Nat) : Exec ScalarMachine ε UInt64 := fun m => (xregAt m.xregs register, m)

/-- `self.xregs[usize::from(register)] = value`. -/
def putXreg (register : Nat) (value : UInt64) : Exec ScalarMachine ε Unit := fun m =>
  if h : register < 32 then (.ok (), { m with xregs := m.xregs.set register value h }) else (Outcome.panicked, m)

def setSprValue (index : Nat) (value : UInt64) : Machine Unit := fun m =>
  if h : index < 243 ∧ index < sprLimit m.architecture then
    (.ok (), { m with sprValues := m.sprValues.set index (some value) h.1
                      spr2 := if index = 2 then value else m.spr2 })
  else (Outcome.fail (.sprRegisterOutOfRange index), m)

def setXreg (register : Nat) (value : UInt64) : Machine Unit := fun m =>
  if register = 32 ∧ m.architecture = .dav2201 then (.ok (), { m with c220Xreg32 := value })
  else if h : register < 32 then (.ok (), { m with xregs := m.xregs.set register value h })
  else (Outcome.fail (.registerOutOfRange register), m)

/-- What it returns, whether the register exists, is not used by its callers. -/
def writeExistingXreg (register : Nat) (value : UInt64) : Exec ScalarMachine ε Unit := fun m =>
  (.ok (), (setXreg register value m).2)

/-- `evaluate_integer_compare`. -/
def evaluateIntegerCompare (dtypeField conditionField : Nat) (first second : UInt64) :
    Outcome ε (Option Bool) :=
  if 5 < conditionField then .ok none
  else
    match dtypeField with
    | 0 => some <$> compareValues first.toInt64.toInt second.toInt64.toInt conditionField
    | 1 => some <$> compareValues first.toNat second.toNat conditionField
    | _ => .ok none

def flag (b : Bool) : UInt64 := if b then 1 else 0

def executeCompareWord (pc : UInt64) (word : UInt32) : Machine ScalarCompareStep := do
  let some (.scalarCompare dtypeField conditionField firstSourceRegister secondSourceRegister) ← decode word
    | Exec.fail (.unsupportedWord pc word)
  let firstSourceValue ← xreg firstSourceRegister
  let secondSourceValue ← xreg secondSourceRegister
  let result ← Exec.outcome (evaluateIntegerCompare dtypeField conditionField firstSourceValue secondSourceValue)
  let result ← Exec.okOr (.unsupportedWord pc word) result
  let priorSpr11 ← Exec.query (sprValue · 11)
  let spr11 := flag result
  setSprValue 11 spr11
  return { pc, word, dtypeField, conditionField, firstSourceRegister, firstSourceValue, secondSourceRegister,
           secondSourceValue, priorSpr11, spr11 }

def executeCompareRegisterWord (pc : UInt64) (word : UInt32) : Machine ScalarCompareRegisterStep := do
  let some (.scalarCompareRegister dtypeField conditionField destinationRegister firstSourceRegister
      secondSourceRegister) ← decode word
    | Exec.fail (.unsupportedWord pc word)
  let firstSourceValue ← xreg firstSourceRegister
  let secondSourceValue ← xreg secondSourceRegister
  let result ← Exec.outcome (evaluateIntegerCompare dtypeField conditionField firstSourceValue secondSourceValue)
  let result ← Exec.okOr (.unsupportedWord pc word) result
  let value := flag result
  let priorDestinationValue ← xreg destinationRegister
  putXreg destinationRegister value
  return { pc, word, dtypeField, conditionField, destinationRegister, priorDestinationValue, firstSourceRegister,
           firstSourceValue, secondSourceRegister, secondSourceValue, value }

def executeCompareImmediateWord (pc : UInt64) (word : UInt32) : Machine ScalarCompareImmediateStep := do
  let some (.scalarCompareImmediate conditionField sourceRegister encodedImmediate) ← decode word
    | Exec.fail (.unsupportedWord pc word)
  if 5 < conditionField then Exec.fail (.unsupportedWord pc word) else
  let sourceValue ← xreg sourceRegister
  let signedImmediate ← Exec.outcome (ScalarInstruction.signedField 16 encodedImmediate 0x800 4096)
  let result ← Exec.outcome (compareValues sourceValue.toInt64.toInt signedImmediate conditionField)
  let spr11 := flag result
  let priorSpr11 ← Exec.query (sprValue · 11)
  setSprValue 11 spr11
  return { pc, word, conditionField, sourceRegister, sourceValue, encodedImmediate, signedImmediate, priorSpr11, spr11 }

def executeSelectWord (pc : UInt64) (word : UInt32) : Machine ScalarSelectStep := do
  let some (.scalarSelect dtypeField destinationRegister firstSourceRegister secondSourceRegister) ← decode word
    | Exec.fail (.unsupportedWord pc word)
  let conditionFlag ← Exec.query (sprValue · 11)
  let conditionFlag ← Exec.okOr (.sprValueUnavailable pc 11) conditionFlag
  let firstSourceValue ← xreg firstSourceRegister
  let secondSourceValue ← xreg secondSourceRegister
  let priorDestinationValue ← xreg destinationRegister
  let value := if conditionFlag != 0 then firstSourceValue else secondSourceValue
  putXreg destinationRegister value
  return { pc, word, dtypeField, conditionFlag, destinationRegister, priorDestinationValue, firstSourceRegister,
           firstSourceValue, secondSourceRegister, secondSourceValue, value }

/-- What a read of an SPR gives: `X` of the SPR that the model keeps elsewhere, else its supplied value. -/
def sprSource (pc : UInt64) (spr : Nat) (m : ScalarMachine) :
    Outcome ScalarMachineError (ScalarSprReadSource × UInt64) :=
  if spr = 0 then .ok (.programCounter, pc)
  else if m.architecture = .dav3510 ∧ spr = 72 then
    (.modelTime, ·) <$> Outcome.okOr (.modelTimeUnavailable pc) m.modelTime
  else (.registerSnapshot, ·) <$> Outcome.okOr (.sprValueUnavailable pc spr) (m.sprValue spr)

def executeSprReadWord (pc : UInt64) (word : UInt32) : Machine ScalarSprReadStep := do
  let some (.scalarKey2MoveFromSpr destinationRegister encodedSourceSpr) ← decode word
    | Exec.fail (.unsupportedWord pc word)
  let architecture ← Exec.query (·.architecture)
  if sprLimit architecture ≤ encodedSourceSpr then Exec.fail (.sprRegisterOutOfRange encodedSourceSpr) else
  let m ← Exec.query id
  let (source, sourceValue) ← Exec.outcome (sprSource pc encodedSourceSpr m)
  let value := if architecture = .dav2201 ∧ encodedSourceSpr = 7 then sourceValue &&& ~~~1 else sourceValue
  let priorDestinationValue ← xreg destinationRegister
  putXreg destinationRegister value
  return { pc, word, destinationRegister, priorDestinationValue, sourceSpr := encodedSourceSpr, source, sourceValue,
           value }

/-- The SPRs a word can write, and the bits it writes. -/
def sprMask : Architecture → Nat → Option UInt64
  | .dav2201, 3 => some 0xffffffffffffffff
  | .dav3510, 3 => some 0xffffffffffffffff
  | .dav3510, 105 => some 0xffffffffffffffff
  | .dav3510, 112 => some 0xffffffffffffffff
  | .dav3510, 11 => some 1
  | .dav3510, 90 => some 0xff
  | _, _ => none

/-- `self.spr_values[usize::from(spr)] = Some(value)`. -/
def putSpr (spr : Nat) (value : UInt64) : Exec ScalarMachine ε Unit := fun m =>
  if h : spr < 243 then (.ok (), { m with sprValues := m.sprValues.set spr (some value) h }) else (Outcome.panicked, m)

def executeSprWord (pc : UInt64) (word : UInt32) : Machine ScalarSprStep := do
  let some (.scalarKey2MoveToSpr encodedDestinationSpr sourceRegister) ← decode word
    | Exec.fail (.unsupportedWord pc word)
  let architecture ← Exec.query (·.architecture)
  let mask ← Exec.okOr (.unsupportedWord pc word) (sprMask architecture encodedDestinationSpr)
  let sourceValue ← Exec.query (·.xregs[sourceRegister]?)
  let sourceValue ← Exec.okOr (.unsupportedWord pc word) sourceValue
  let slot ← Exec.query (·.sprValues[encodedDestinationSpr]?)
  let priorDestinationValue ← Exec.expect slot
  let value := sourceValue &&& mask
  putSpr encodedDestinationSpr value
  return { pc, word, destinationSpr := encodedDestinationSpr, priorDestinationValue,
           sourceRegister := some sourceRegister, sourceValue, value }

def executeJumpCompareWord (pc : UInt64) (word : UInt32) : Machine JumpCompareTarget := do
  let jump ← Exec.okOr (.unsupportedWord pc word) (JumpCompare.decode word)
  let xregs ← Exec.query (·.xregs)
  let target ← Exec.outcome (Outcome.mapErr .compare (jump.evaluate pc xregs))
  setSprValue 11 target.spr11Value
  return target

def executeCacheHintWord (pc : UInt64) (word : UInt32) : Machine ScalarCacheHintStep := do
  let some (.scalarKey8 .dcPreload none sourceRegister encodedImmediate) ← decode word
    | Exec.fail (.unsupportedWord pc word)
  let sourceValue ← xreg sourceRegister
  return { pc, word, sourceRegister, sourceValue, encodedImmediate,
           effectiveAddress := sourceValue + UInt64.ofNat encodedImmediate, requestedBytes := 64 }

def executeFlowWord (pc : UInt64) (word : UInt32) : Machine ScalarFlowStep :=
  match FlowEnd.decode pc word with
  | some step => return .fin step
  | none =>
  match FlowNop.decode pc word with
  | some step => return .nop step
  | none =>
  match decodeUnconditionalJump word with
  | some source => do
    let xregs ← Exec.query (·.xregs)
    let target ← Exec.outcome (resolveOffset pc word source xregs)
    return .jump target
  | none =>
  match decodeConditionalJump word with
  | some source => do
    let slot ← Exec.query (·.sprValues[11])
    let condition ← Exec.okOr (.sprValueUnavailable pc 11) slot
    let xregs ← Exec.query (·.xregs)
    let target ← Exec.outcome (resolveConditionalJump pc word source xregs condition)
    return .conditional target
  | none =>
    if (JumpCompare.decode word).isSome then ScalarFlowStep.compare <$> executeJumpCompareWord pc word
    else Exec.fail (.unsupportedWord pc word)

end ScalarMachine

end AscendEmulator.Common.Scalar
