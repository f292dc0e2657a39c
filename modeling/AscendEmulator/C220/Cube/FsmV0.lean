/-
  AscendEmulator.C220.Cube.FsmV0 — the planner of the first cube FSM (`cube/fsm_v0.rs`), which walks over blocks of two
  by two output tiles and asks for the accumulator tile of each by a cursor in the block and a moving base.

  `nextL0cReadIndex` takes the arithmetic of its counters as an argument: the source's wraps, and a run of the checked
  one is a run in which no counter does.
-/

import AscendEmulator.C220.Cube.Timing
import AscendEmulator.Lib.Cuts

namespace AscendEmulator.C220.Cube

open Lib Isa

structure CubeV0UopPlanner where
  instruction : CubeInstruction
  parameters : MmadPlanParameters
  uopCount : Nat
  nextUopId : Nat
  originalMTiles : Nat
  originalKTiles : Nat
  originalNTiles : Nat
  remainingMTiles : Nat
  remainingKTiles : Nat
  remainingNTiles : Nat
  traversalMode : Nat
  compactN : Nat
  fractionCursor : Nat
  fractionSpan : Nat
  l0cTileBase : Nat
  priorKFold : Bool

namespace CubeV0UopPlanner

def new (ticket : CubeTicket) (instruction : CubeInstruction) (parameters : MmadPlanParameters) : CubeV0UopPlanner where
  instruction
  parameters
  uopCount := ticket.uopCount
  nextUopId := 0
  originalMTiles := ticket.geometry.mTiles
  originalKTiles := ticket.geometry.kTiles
  originalNTiles := ticket.geometry.nTiles
  remainingMTiles := ticket.geometry.mTiles
  remainingKTiles := ticket.geometry.kTiles
  remainingNTiles := ticket.geometry.nTiles
  traversalMode := 1
  compactN := if ticket.geometry.nTiles ≤ 2 then 1 else 0
  fractionCursor := 0
  fractionSpan := 0
  l0cTileBase := 0
  priorKFold := false

section Arithmetic

variable {m : Type → Type} [Monad m] (a : Arithmetic m)

def jumpAColumn (p : CubeV0UopPlanner) : m CubeV0UopPlanner :=
  if p.fractionCursor < p.fractionSpan then pure p
  else if p.priorKFold ∧ p.remainingNTiles ≤ 2 then do
    let remainingMTiles ← a.sub p.remainingMTiles 2
    pure { p with
      remainingNTiles := p.originalNTiles, remainingKTiles := p.originalKTiles, remainingMTiles, traversalMode := 1 }
  else if !p.priorKFold ∧ p.remainingNTiles ≤ 2 then do
    let remainingKTiles ← a.sub p.remainingKTiles 2
    pure { p with remainingKTiles, traversalMode := 1 }
  else do
    let remainingNTiles ← a.sub p.remainingNTiles 2
    pure { p with remainingNTiles, traversalMode := 0 }

def jumpBColumn (p : CubeV0UopPlanner) : m CubeV0UopPlanner :=
  if p.fractionCursor < p.fractionSpan then pure p
  else if p.priorKFold then
    if 2 < p.remainingNTiles then do
      let remainingNTiles ← a.sub p.remainingNTiles 2
      pure { p with remainingKTiles := p.originalKTiles, remainingNTiles, traversalMode := 1 }
    else do
      let remainingMTiles ← a.sub p.remainingMTiles 2
      pure { p with
        remainingKTiles := p.originalKTiles, remainingNTiles := p.originalNTiles, remainingMTiles, traversalMode := 1 }
  else do
    let remainingNTiles ← a.add p.remainingNTiles 2
    let remainingKTiles ← a.sub p.remainingKTiles 2
    pure { p with remainingNTiles, remainingKTiles, traversalMode := 1 }

/-- The tile of the cursor in its block, and whether it is one whose accumulator is read there. -/
def basicL0cMap (mShape kShape nShape : Nat) (p : CubeV0UopPlanner) : m (Nat × Bool) :=
  let twoByTwo : m (Nat × Bool) :=
    match p.fractionCursor with
    | 0 => pure (0, true)
    | 1 => pure (p.originalNTiles, true)
    | 2 => pure (1, true)
    | 3 => do
      let tile ← a.add p.originalNTiles 1
      pure (tile, true)
    | _ => pure (0, false)
  match p.fractionSpan with
  | 1 => pure (0, true)
  | 2 => pure (if kShape = 2 then (0, p.fractionCursor == 0) else (p.fractionCursor, true))
  | 4 =>
    if mShape = 2 ∧ kShape = 2 then
      pure (match p.fractionCursor with
        | 0 => (0, true)
        | 1 => (1, true)
        | _ => (0, false))
    else if kShape = 2 ∧ nShape = 2 then pure (p.fractionCursor, decide (p.fractionCursor ≤ 1))
    else if mShape = 2 ∧ nShape = 2 then twoByTwo
    else pure (0, false)
  | 8 => twoByTwo
  | _ => pure (0, false)

/-- The base moves on when a block of the outermost K is left. -/
def advanceBase (p : CubeV0UopPlanner) : m CubeV0UopPlanner :=
  if p.remainingKTiles = p.originalKTiles ∧ p.fractionSpan ≤ p.fractionCursor then do
    let l0cTileBase ← a.add p.l0cTileBase
      (if p.originalMTiles ≤ 1 ∨ 2 < p.originalNTiles then if p.originalNTiles ≤ 2 then 1 else 2
        else 2 * p.originalNTiles)
    pure { p with l0cTileBase }
  else pure p

def jump (p : CubeV0UopPlanner) : m CubeV0UopPlanner :=
  match p.traversalMode with
  | 0 => jumpBColumn a p
  | 1 => jumpAColumn a p
  | _ => pure p

/-- Behind the end of a block the cursor starts again. -/
def restart (p : CubeV0UopPlanner) : CubeV0UopPlanner :=
  if p.fractionSpan ≤ p.fractionCursor then { p with traversalMode := p.compactN, fractionCursor := 0 } else p

/-- The index of the cursor, if it is one that is read. -/
def readIndex (mShape kShape nShape : Nat) (p : CubeV0UopPlanner) : m (Option Nat × CubeV0UopPlanner) := do
  let (mapped, basicValid) ← basicL0cMap a mShape kShape nShape p
  let index ← a.add mapped p.l0cTileBase
  let tiles ← a.mul p.originalMTiles p.originalNTiles
  let valid := decide (p.remainingKTiles = p.originalKTiles) && decide (index < tiles) && basicValid
  let fractionCursor ← a.add p.fractionCursor 1
  pure (if valid then some index else none, { p with fractionCursor })

def nextL0cReadIndex (p : CubeV0UopPlanner) : m (Option Nat × CubeV0UopPlanner) :=
  if p.originalMTiles = 0 ∨ p.originalKTiles = 0 ∨ p.originalNTiles = 0 then pure (none, p)
  else do
    let mShape := if p.remainingMTiles = 1 then 1 else 2
    let kShape := if p.remainingKTiles = 1 then 1 else 2
    let nShape := if p.originalNTiles = 1 then 1 else 2
    let p ← advanceBase a { p with fractionSpan := kShape * mShape * nShape }
    let p ← jump a p
    let p := restart p
    readIndex a mShape kShape nShape { p with priorKFold := decide (p.remainingKTiles ≤ 2) }

/-- What the next `n` calls answer. -/
def readIndices : Nat → CubeV0UopPlanner → m (List (Option Nat))
  | 0, _ => pure []
  | n + 1, p => do
    let (index, p) ← nextL0cReadIndex a p
    let rest ← readIndices n p
    pure (index :: rest)

end Arithmetic

/-- What the next `n` calls of the source answer. -/
def l0cReadIndices (n : Nat) (p : CubeV0UopPlanner) : List (Option Nat) := readIndices (m := Id) .wrapping n p

/-- Where the accumulator of an output tile is read. -/
def l0cAddress (instruction : CubeInstruction) (parameters : MmadPlanParameters) (index : Nat) : Nat :=
  let bytes := l0cRequestBytes instruction.dataType
  (index + parameters.xdLow.toNat / bytes) * bytes

/-- The iterator of the uops. -/
def next (p : CubeV0UopPlanner) : Option (CubeUop × CubeV0UopPlanner) :=
  if p.uopCount ≤ p.nextUopId then none
  else
    let id := p.nextUopId
    let (readIndex, p) := nextL0cReadIndex (m := Id) .wrapping { p with nextUopId := p.nextUopId + 1 }
    let l0cRead := (readIndex.filter fun _ => !p.parameters.xtBit63).map fun index => ({
      address := l0cAddress p.instruction p.parameters index
      bytes := l0cRequestBytes p.instruction.dataType
      access := .read
      unitFlags := .disabled } : CubeL0cRequest)
    let bubbleStart := p.uopCount - p.originalKTiles
    some ({
      id
      preIssueBubbles :=
        if (p.originalMTiles % 2 = 1 ∨ p.originalNTiles % 2 = 1) ∧ bubbleStart < id then 1 else 0
      tileIndices := none
      readsL0a := true
      readsL0b := true
      acquiresL0cWritePort := id == 0
      l0cRead
      l0cWrite := none }, p)

/-- All uops. -/
def uops (p : CubeV0UopPlanner) : List CubeUop := Cuts.pieces next (fun p => p.uopCount - p.nextUopId) p

end CubeV0UopPlanner

end AscendEmulator.C220.Cube
