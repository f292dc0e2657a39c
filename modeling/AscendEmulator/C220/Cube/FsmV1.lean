/-
  AscendEmulator.C220.Cube.FsmV1 — the planner of the second cube FSM (`cube/fsm_v1.rs`), which walks over frames of up
  to four output tiles and stays in a frame until all its K are done.
-/

import AscendEmulator.C220.Cube.Timing
import AscendEmulator.Lib.Cuts

namespace AscendEmulator.C220.Cube

open Lib Isa

structure CubeV1UopPlanner where
  instruction : CubeInstruction
  parameters : MmadPlanParameters
  uopCount : Nat
  dtypeBubblesPerUop : Nat
  nextUopId : Nat
  mTiles : Nat
  kTiles : Nat
  nTiles : Nat
  n2Mode : Bool
  frameOrder : CubeV1FrameOrder
  mFrameStart : Nat
  nFrameStart : Nat
  kIndex : Nat
  frameOffset : Nat

namespace CubeV1UopPlanner

def new (ticket : CubeTicket) (instruction : CubeInstruction) (parameters : MmadPlanParameters) : CubeV1UopPlanner where
  instruction
  parameters
  uopCount := ticket.uopCount
  dtypeBubblesPerUop := ticket.v1DtypeBubblesPerUop
  nextUopId := 0
  mTiles := ticket.geometry.mTiles
  kTiles := ticket.geometry.kTiles
  nTiles := ticket.geometry.nTiles
  n2Mode := ticket.v1N2Mode
  frameOrder := ticket.v1FrameOrder
  mFrameStart := 0
  nFrameStart := 0
  kIndex := 0
  frameOffset := 0

def groupSize (remaining : Nat) : Nat :=
  if remaining % 4 = 1 ∧ remaining ≠ 1 ∧ remaining ≤ 5 then if 2 < remaining then 3 else 2
  else min remaining 4

/-- The rows and the columns of the frame. -/
def frameShape (p : CubeV1UopPlanner) : Nat × Nat :=
  let remainingM := p.mTiles - p.mFrameStart
  let remainingN := p.nTiles - p.nFrameStart
  if p.n2Mode then (if remainingN = 1 then min remainingM 2 else 1, min remainingN 2)
  else if p.nTiles = 1 then (groupSize remainingM, 1)
  else (1, groupSize remainingN)

def advance (p : CubeV1UopPlanner) (frameMTiles frameNTiles : Nat) : CubeV1UopPlanner :=
  if p.frameOffset + 1 < frameMTiles * frameNTiles then { p with frameOffset := p.frameOffset + 1 }
  else if p.kIndex + 1 < p.kTiles then { p with frameOffset := 0, kIndex := p.kIndex + 1 }
  else
    let p := { p with frameOffset := 0, kIndex := 0 }
    match p.frameOrder with
    | .nThenM =>
      if p.nFrameStart + frameNTiles < p.nTiles then { p with nFrameStart := p.nFrameStart + frameNTiles }
      else { p with nFrameStart := 0, mFrameStart := p.mFrameStart + frameMTiles }
    | .mThenN =>
      if p.mFrameStart + frameMTiles < p.mTiles then { p with mFrameStart := p.mFrameStart + frameMTiles }
      else { p with mFrameStart := 0, nFrameStart := p.nFrameStart + frameNTiles }

def l0cRequest (p : CubeV1UopPlanner) (tileIndex : Nat) (access : CubeL0cAccess) : CubeL0cRequest :=
  let bytes := l0cRequestBytes p.instruction.dataType
  { address := (tileIndex + p.parameters.xdLow.toNat / bytes) * bytes
    bytes
    access
    unitFlags := if access = .write then CubeUnitFlagMode.fromXtBits p.parameters.xtBits5556 else .disabled }

/-- The uop of the frame's row and column. -/
def uop (p : CubeV1UopPlanner) : CubeUop :=
  let varyingM := decide (1 < p.frameShape.1)
  let m := p.mFrameStart + if varyingM then p.frameOffset else 0
  let n := p.nFrameStart + if varyingM then 0 else p.frameOffset
  let k := p.kIndex
  let indices : CubeTileIndices := ⟨m * p.kTiles + k, k * p.nTiles + n, m * p.nTiles + n⟩
  let firstInFrame := p.frameOffset == 0
  let readsL0c := k == 0 && !p.parameters.xtBit62 && !p.parameters.xtBit63
  let writesL0c := k + 1 == p.kTiles
  let shapeBubble :=
    if p.n2Mode then p.mTiles % 2 ≠ 0 ∧ p.nTiles % 2 ≠ 0 ∧ indices.l0c = p.mTiles * p.nTiles - 1
    else p.mTiles = 1 ∧ p.nTiles = 1
  { id := p.nextUopId
    preIssueBubbles := p.dtypeBubblesPerUop + if shapeBubble then 1 else 0
    tileIndices := some indices
    readsL0a := varyingM || firstInFrame
    readsL0b := !varyingM || firstInFrame
    acquiresL0cWritePort := p.nextUopId == 0
    l0cRead := if readsL0c then some (p.l0cRequest indices.l0c .read) else none
    l0cWrite := if writesL0c then some (p.l0cRequest indices.l0c .write) else none }

/-- Whether the iterator has ended. -/
def Done (p : CubeV1UopPlanner) : Prop :=
  p.uopCount ≤ p.nextUopId ∨ p.mTiles = 0 ∨ p.kTiles = 0 ∨ p.nTiles = 0 ∨ p.mTiles ≤ p.mFrameStart ∨
    p.nTiles ≤ p.nFrameStart

instance (p : CubeV1UopPlanner) : Decidable p.Done := by
  unfold Done
  infer_instance

/-- The iterator of the uops. -/
def next (p : CubeV1UopPlanner) : Option (CubeUop × CubeV1UopPlanner) :=
  if p.Done then none
  else some (p.uop, { p with nextUopId := p.nextUopId + 1 }.advance p.frameShape.1 p.frameShape.2)

/-- All uops. -/
def uops (p : CubeV1UopPlanner) : List CubeUop := Cuts.pieces next (fun p => p.uopCount - p.nextUopId) p

end CubeV1UopPlanner

end AscendEmulator.C220.Cube
