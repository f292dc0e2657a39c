/-
  AscendEmulator.C220.Cube.Timing — the uops of a cube instruction and the ticks that are planned for them
  (`cube/uop.rs`, `cube/timing.rs`): `schedule` makes the ticket from which a planner then takes its uops.
-/

import AscendEmulator.C220.Cube.Mmad
import AscendEmulator.Lib.Counter

namespace AscendEmulator.C220.Cube

open Lib Isa

/-! ## Uops -/

inductive CubeL0cAccess where
  | read | write
  deriving DecidableEq, Repr

inductive CubeUnitFlagMode where
  | disabled | check | checkAndUpdate
  deriving DecidableEq, Repr

def CubeUnitFlagMode.fromXtBits (bits : Nat) : CubeUnitFlagMode :=
  match bits % 4 with
  | 2 => .check
  | 3 => .checkAndUpdate
  | _ => .disabled

structure CubeL0cRequest where
  address : Nat
  bytes : Nat
  access : CubeL0cAccess
  unitFlags : CubeUnitFlagMode
  deriving DecidableEq, Repr

structure CubeTileIndices where
  l0a : Nat
  l0b : Nat
  l0c : Nat
  deriving DecidableEq, Repr

structure CubeUop where
  id : Nat
  preIssueBubbles : Nat
  tileIndices : Option CubeTileIndices
  readsL0a : Bool
  readsL0b : Bool
  acquiresL0cWritePort : Bool
  l0cRead : Option CubeL0cRequest
  l0cWrite : Option CubeL0cRequest
  deriving DecidableEq, Repr

/-- The parameters with `xt_bits_55_56`, the unit flags of an instruction. -/
structure MmadPlanParameters extends MmadParameters where
  xtBits5556 : Nat

def l0cRequestBytes : CubeDataType → Nat
  | .f16F16 | .f16U2 => 512
  | _ => 1024

/-! ## Tickets -/

inductive CubeFsmVersion where
  | v0 | v1
  deriving DecidableEq, Repr

inductive CubeV1FrameOrder where
  | nThenM | mThenN
  deriving DecidableEq, Repr

structure CubeConfig where
  cubeSpecNpe : Nat
  cubeStageNum : Nat
  fsmVersion : CubeFsmVersion
  v1N2Mode : Bool
  v1MPriority : Bool

structure CubeIssueDelay where
  enabled : Bool
  previousIssueGuardTicks : Nat
  firstObservationDelayTicks : Nat
  deriving DecidableEq, Repr

structure CubeTimingControl where
  f32Mode : F32MmadMode
  fsmMPriority : Bool
  issueDelay : CubeIssueDelay

structure CubeTicket where
  acceptTick : Nat
  firstUopTick : Option Nat
  lastUopTick : Option Nat
  retireTick : Nat
  geometry : CubeGeometry
  uopCount : Nat
  fsmBubbles : Nat
  sparseBubbles : Nat
  issueDelayWaitTicks : Nat
  issueDelay : CubeIssueDelay
  fsmVersion : CubeFsmVersion
  v1N2Mode : Bool
  v1FrameOrder : CubeV1FrameOrder
  v1DtypeBubblesPerUop : Nat
  biasCheckpointUop : Option Nat
  unitFlagSync : Bool

namespace CubeTicket

/-- `checked_mul` of `u64`. -/
def checkedMul (a b : Nat) : Option Nat := if a * b < u64 then some (a * b) else none

def v1ShapeBubblesThrough (t : CubeTicket) (uopId : Nat) : Option Nat :=
  if t.geometry.mTiles = 1 ∧ t.geometry.nTiles = 1 then checkedAdd uopId 1
  else if !t.v1N2Mode ∨ t.geometry.mTiles % 2 = 0 ∨ t.geometry.nTiles % 2 = 0 then some 0
  else if t.uopCount < t.geometry.kTiles then none
  else (checkedAdd uopId 1).map (· - (t.uopCount - t.geometry.kTiles))

/-- What `planned_uop_tick` adds for the bubbles before a uop. -/
def precedingFsmBubbles (t : CubeTicket) (uopId : Nat) : Option Nat :=
  match t.fsmVersion with
  | .v0 =>
    let tailStart := t.uopCount - t.geometry.kTiles
    some (if t.fsmBubbles ≠ 0 ∧ tailStart < uopId then uopId - tailStart else 0)
  | .v1 => do
    let next ← checkedAdd uopId 1
    let dtype ← checkedMul next t.v1DtypeBubblesPerUop
    let shape ← t.v1ShapeBubblesThrough uopId
    checkedAdd dtype shape

def plannedUopTick (t : CubeTicket) (uopId : Nat) : Option Nat :=
  if t.uopCount ≤ uopId then none
  else do
    let preceding ← t.precedingFsmBubbles uopId
    let tick ← checkedAdd t.acceptTick 1
    let tick ← checkedAdd tick t.sparseBubbles
    let tick ← checkedAdd tick uopId
    checkedAdd tick preceding

end CubeTicket

/-- `C220CubeTimingError::TimeOverflow`, the only error of `schedule`. -/
inductive CubeTimingError where
  | timeOverflow
  deriving DecidableEq

def frameOrder (config : CubeConfig) (control : CubeTimingControl) : CubeV1FrameOrder :=
  if config.v1N2Mode || (config.v1MPriority && control.fsmMPriority) then .mThenN else .nThenM

def dtypeBubblesPerUop (instruction : CubeInstruction) (geometry : CubeGeometry) (control : CubeTimingControl) : Nat :=
  let f32Bubble := instruction.dataType = .f32F32 ∧ control.f32Mode = .fp32
  (if f32Bubble then 1 else 0) + if f32Bubble ∧ geometry.mTiles = 1 ∧ geometry.nTiles = 1 then 1 else 0

/-- The bubbles of the shape, all of the instruction's. -/
def shapeBubbles (config : CubeConfig) (geometry : CubeGeometry) (uopCount : Nat) : Nat :=
  if geometry.mTiles = 1 ∧ geometry.nTiles = 1 then uopCount
  else if config.v1N2Mode ∧ geometry.mTiles % 2 ≠ 0 ∧ geometry.nTiles % 2 ≠ 0 then geometry.kTiles
  else 0

/-- How long the first uop waits behind the guard of the instruction before. -/
def issueDelayWait (control : CubeTimingControl) (firstObservationTick delayStartTick firstAttemptTick : Nat) :
    Option Nat :=
  if control.issueDelay.enabled ∧ delayStartTick ≤ firstAttemptTick then
    (checkedAdd firstObservationTick control.issueDelay.firstObservationDelayTicks).map (· - delayStartTick)
  else some 0

def schedule (config : CubeConfig) (acceptTick : Nat) (instruction : CubeInstruction) (parameters : MmadPlanParameters)
    (control : CubeTimingControl) (previousLastUopTick : Nat) : Except CubeTimingError CubeTicket := do
  let geometry := instruction.geometry parameters.toMmadParameters
  let dtype := dtypeBubblesPerUop instruction geometry control
  let checked (tick : Option Nat) : Except CubeTimingError Nat := tick.elim (.error .timeOverflow) .ok
  let uopCount ← checked (CubeTicket.checkedMul geometry.nativeUopCount (256 / config.cubeSpecNpe))
  let ticket : CubeTicket := {
    acceptTick, firstUopTick := none, lastUopTick := none, retireTick := acceptTick, geometry, uopCount,
    fsmBubbles := 0, sparseBubbles := 0, issueDelayWaitTicks := 0, issueDelay := control.issueDelay,
    fsmVersion := config.fsmVersion, v1N2Mode := config.v1N2Mode, v1FrameOrder := frameOrder config control,
    v1DtypeBubblesPerUop := dtype, biasCheckpointUop := none, unitFlagSync := decide (2 ≤ parameters.xtBits5556) }
  if uopCount = 0 then .ok ticket
  else
    let fsmBubbles ← match config.fsmVersion with
      | .v0 => .ok (if geometry.mTiles % 2 ≠ 0 ∨ geometry.nTiles % 2 ≠ 0 then geometry.kTiles - 1 else 0)
      | .v1 => checked ((CubeTicket.checkedMul uopCount dtype).bind
          (checkedAdd · (shapeBubbles config geometry uopCount)))
    let firstFsmBubbles := match config.fsmVersion with
      | .v0 => 0
      | .v1 => dtype + if geometry.mTiles = 1 ∧ geometry.nTiles = 1 then 1 else 0
    let sparseBubbles := if instruction.operation = .sparseMmad then 1 else 0
    let firstObservationTick ← checked (checkedAdd acceptTick 1)
    let guardTick ← checked (checkedAdd previousLastUopTick control.issueDelay.previousIssueGuardTicks)
    let firstAttemptTick ← checked ((checkedAdd firstObservationTick sparseBubbles).bind
      (checkedAdd · firstFsmBubbles))
    let delayStartTick := max firstObservationTick guardTick
    let issueDelayWaitTicks ← checked (issueDelayWait control firstObservationTick delayStartTick firstAttemptTick)
    let firstUopTick ← checked ((checkedAdd acceptTick 1).bind fun tick => (checkedAdd tick issueDelayWaitTicks).bind
      fun tick => (checkedAdd tick sparseBubbles).bind (checkedAdd · firstFsmBubbles))
    let lastUopTick ← checked ((checkedAdd acceptTick uopCount).bind fun tick =>
      (checkedAdd tick issueDelayWaitTicks).bind fun tick => (checkedAdd tick fsmBubbles).bind
        (checkedAdd · sparseBubbles))
    let retireTick ← checked (checkedAdd lastUopTick (config.cubeStageNum - 1))
    let last := (uopCount - 1) % u32
    .ok { ticket with
      firstUopTick := some firstUopTick, lastUopTick := some lastUopTick, retireTick, fsmBubbles, sparseBubbles,
      issueDelayWaitTicks,
      biasCheckpointUop := if parameters.xtBit62 then
          some (if last = 0 then 0 else Arithmetic.wrapping.sub last geometry.kTiles)
        else none }

end AscendEmulator.C220.Cube
