/-
  AscendEmulator.Common.Scalar.Stepper — one scalar instruction of any kind, and the stepper that follows the PC
  (`sim/common/scalar/{mod,stepper}.rs`).
-/

import AscendEmulator.Common.Scalar.Integer
import AscendEmulator.Common.Scalar.Memory

namespace AscendEmulator.Common.Scalar

open AscendEmulator.Lib AscendEmulator.Isa

inductive ScalarInstructionError (E : Type) where
  | scalar (e : ScalarMachineError)
  | memory (e : ScalarMemoryExecutionError E)
  | cacheMaintenanceUnsupported (pc : UInt64) (word : UInt32)
  | cacheBackend (e : E)
  | synchronizationUnsupported (pc : UInt64) (word : UInt32)
  | synchronizationBackend (e : E)
  | programEnded (pc : UInt64)
  deriving DecidableEq

inductive ScalarInstructionStep where
  | register (step : ScalarStep)
  | sprRead (step : ScalarSprReadStep)
  | sprWrite (step : ScalarSprStep)
  | memory (step : ScalarMemoryStep)
  | immediateStore (step : ScalarImmediateStoreStep)
  | pairLoad (step : ScalarPairLoadStep)
  | pairStore (step : ScalarPairStoreStep)
  | indexedLoad (step : ScalarIndexedLoadStep)
  | indexedStore (step : ScalarIndexedStoreStep)
  | indexedImmediateStore (step : ScalarIndexedImmediateStoreStep)
  | flow (step : ScalarFlowStep)
  | cacheHint (step : ScalarCacheHintStep)
  | compare (step : ScalarCompareStep)
  | compareRegister (step : ScalarCompareRegisterStep)
  | compareImmediate (step : ScalarCompareImmediateStep)
  | select (step : ScalarSelectStep)
  | dcci (step : DcciStep)
  | dsb (step : DsbStep)
  | barrier (step : PipelineBarrierStep)
  deriving DecidableEq

namespace ScalarMachine

variable {β E α : Type}

abbrev Instruction (β E α : Type) := OnBus β (ScalarInstructionError E) α

/-- A call on the machine alone, as `?` converts its errors. -/
def onRegisters (f : α → ScalarInstructionStep) (c : Machine α) : Instruction β E ScalarInstructionStep :=
  f <$> Exec.first .scalar c

/-- A call on the machine and the bus, as `?` converts its errors. -/
def onMemory (f : α → ScalarInstructionStep) (c : OnBus β (ScalarMemoryExecutionError E) α) :
    Instruction β E ScalarInstructionStep :=
  f <$> Exec.mapErr .memory c

/-- A synchronization of the bus, refused if the bus answers `false`. -/
def synchronize (call : β → Except E Bool × β) (backend : E → ScalarInstructionError E)
    (unsupported : ScalarInstructionError E) (step : ScalarInstructionStep) :
    Instruction β E ScalarInstructionStep := do
  let done ← busCall backend call
  if done then return step else Exec.fail unsupported

def executeControl (bus : ScalarMemoryBus β E) (pc : UInt64) (word : UInt32) :
    Instruction β E ScalarInstructionStep := do
  let m ← onMachine (Exec.query id)
  match PipelineBarrierStep.decode m.architecture pc word with
  | some step =>
    synchronize (bus.synchronizeBarrier · step) .synchronizationBackend (.synchronizationUnsupported pc word) (.barrier step)
  | none =>
  match DcciInstruction.decode word with
  | some instruction => do
    let step ← Exec.outcome (instruction.resolve pc m.xregs)
    synchronize (bus.maintainDataCache · step) .cacheBackend (.cacheMaintenanceUnsupported pc word) (.dcci step)
  | none =>
  match DsbStep.decode pc word with
  | some step =>
    synchronize (bus.synchronizePipeline · step) .synchronizationBackend (.synchronizationUnsupported pc word) (.dsb step)
  | none => onRegisters .flow (executeFlowWord pc word)

def executeInstruction (bus : ScalarMemoryBus β E) (pc : UInt64) (word : UInt32) :
    Instruction β E ScalarInstructionStep :=
  if AicClass.fromWord word = .flowControl then executeControl bus pc word
  else do
    match ← onMachine (decode word) with
    | some (.scalarCompare ..) => onRegisters .compare (executeCompareWord pc word)
    | some (.scalarCompareRegister ..) => onRegisters .compareRegister (executeCompareRegisterWord pc word)
    | some (.scalarCompareImmediate ..) => onRegisters .compareImmediate (executeCompareImmediateWord pc word)
    | some (.scalarSelect ..) => onRegisters .select (executeSelectWord pc word)
    | some (.scalarPairLoad ..) => onMemory .pairLoad (executePairLoadWord bus pc word)
    | some (.scalarPairStore ..) => onMemory .pairStore (executePairStoreWord bus pc word)
    | some (.scalarIndexedLoad ..) => onMemory .indexedLoad (executeIndexedLoadWord bus pc word)
    | some (.scalarIndexedStore ..) => onMemory .indexedStore (executeIndexedStoreWord bus pc word)
    | some (.scalarIndexedImmediateStore ..) =>
      onMemory .indexedImmediateStore (executeIndexedImmediateStoreWord bus pc word)
    | some (.scalarKey8 .dcPreload ..) => onRegisters .cacheHint (executeCacheHintWord pc word)
    | some (.scalarLoadStoreImmediate ..) => onMemory .memory (executeMemoryWord bus pc word)
    | some (.scalarStoreImmediate ..) => onMemory .immediateStore (executeImmediateStoreWord bus pc word)
    | some (.scalarKey2MoveFromSpr ..) => onRegisters .sprRead (executeSprReadWord pc word)
    | some (.scalarKey2MoveToSpr ..) => onRegisters .sprWrite (executeSprWord pc word)
    | _ => onRegisters .register (executeWord pc word)

end ScalarMachine

structure ScalarStepper where
  machine : ScalarMachine
  pc : UInt64
  halted : Bool
  deriving DecidableEq

structure ScalarProgramStep where
  pc : UInt64
  word : UInt32
  nextPc : UInt64
  instruction : ScalarInstructionStep
  haltedAfter : Bool
  deriving DecidableEq

def ScalarInstructionStep.nextPc (pc : UInt64) : ScalarInstructionStep → UInt64
  | .flow step => step.targetPc
  | _ => pc + 4

def ScalarInstructionStep.ends : ScalarInstructionStep → Bool
  | .flow (.fin _) => true
  | _ => false

namespace ScalarStepper

variable {β E α : Type}

/-- A call on the stepper's machine and the bus. -/
def onStepper (c : ScalarMachine.OnBus β (ScalarInstructionError E) α) :
    Exec (ScalarStepper × β) (ScalarInstructionError E) α := fun s =>
  ((c (s.1.machine, s.2)).1, ({ s.1 with machine := (c (s.1.machine, s.2)).2.1 }, (c (s.1.machine, s.2)).2.2))

def stepWord (bus : ScalarMemoryBus β E) (word : UInt32) :
    Exec (ScalarStepper × β) (ScalarInstructionError E) ScalarProgramStep := do
  let s ← Exec.query (·.1)
  if s.halted then Exec.fail (.programEnded s.pc) else
  let instruction ← onStepper (ScalarMachine.executeInstruction bus s.pc word)
  let haltedAfter := instruction.ends
  let nextPc := instruction.nextPc s.pc
  Exec.update fun t => ({ t.1 with pc := nextPc, halted := haltedAfter }, t.2)
  return { pc := s.pc, word, nextPc, instruction, haltedAfter }

end ScalarStepper

end AscendEmulator.Common.Scalar
