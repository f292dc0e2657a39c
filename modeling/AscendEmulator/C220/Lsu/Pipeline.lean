/-
  AscendEmulator.C220.Lsu.Pipeline — the LSU request pipeline (`C220LsuRequestPipeline`):
  requests wait for M0, pass tag lookup into M1, then M2, and leave M2.

  Requests are numbered in admission order (`C220LsuRequestId`, here a `Nat`); `consumed ≤ issued ≤ admitted` are the
  pipeline's three fronts. A stall in M1 or M2 throws away what sits in that stage and
  the stages before it, and moves `issued` back to the stalled request. The caller
  decides when a stage is called and whether it is blocked, so a run is any sequence of
  calls with any ticks and flags (`exec`).
-/

import AscendEmulator.Lib.Run

namespace AscendEmulator.C220.Lsu

open Lib (checkedAdd reply)

inductive Stage where
  | m0
  | m1
  | m2
  deriving DecidableEq, Repr

structure StageEntry where
  request : Nat
  readyTick : Nat
  deriving DecidableEq, Repr

inductive StageProgress where
  | idle
  | advanced (request : Nat)
  | blocked (request : Nat)
  | replayScheduled (request : Nat)
  deriving DecidableEq, Repr

inductive AdmissionBlock where
  | pipeline
  | requestCapacity
  deriving DecidableEq, Repr

inductive PipelineError where
  | invalidCapacity
  | timeReversal (previous requested : Nat)
  | overflow
  deriving DecidableEq, Repr

structure RequestPipeline where
  capacity : Nat
  tick : Nat
  admitted : Nat
  issued : Nat
  consumed : Nat
  admissionBlocked : Bool
  lastEvaluation : Stage → Option Nat
  m0Ready : Option Nat
  m1 : List StageEntry
  m2 : List StageEntry

namespace RequestPipeline

def empty (capacity : Nat) : RequestPipeline :=
  { capacity, tick := 0, admitted := 0, issued := 0, consumed := 0, admissionBlocked := false,
    lastEvaluation := fun _ => none, m0Ready := none, m1 := [], m2 := [] }

def new (capacity : Nat) : Except PipelineError RequestPipeline :=
  if capacity < 2 then .error .invalidCapacity else .ok (empty capacity)

def issuedOccupancy (p : RequestPipeline) : Nat := p.issued - p.consumed

def queuedRequests (p : RequestPipeline) : Nat := p.admitted - p.consumed

def admissionBlock (p : RequestPipeline) (splitPair : Bool) : Option AdmissionBlock :=
  let limit := p.capacity - if splitPair then 2 else 0
  if limit ≤ p.issuedOccupancy then some .requestCapacity
  else if p.admissionBlocked then some .pipeline
  else none

def checkTick (p : RequestPipeline) (tick : Nat) : Except PipelineError Unit :=
  if tick < p.tick then .error (.timeReversal p.tick tick) else .ok ()

def scheduleM0 (p : RequestPipeline) (tick : Nat) : RequestPipeline :=
  { p with m0Ready := some (p.m0Ready.elim tick fun prior => min prior tick) }

def admitRequest (p : RequestPipeline) (tick : Nat) (splitPair : Bool) :
    Except PipelineError (Option (Nat × Option Nat)) × RequestPipeline :=
  match p.checkTick tick with
  | .error e => (.error e, p)
  | .ok () =>
    if (p.admissionBlock splitPair).isSome then (.ok none, p)
    else match checkedAdd tick 1 with
      | none => (.error .overflow, p)
      | some ready =>
        match checkedAdd p.admitted (if splitPair then 2 else 1) with
        | none => (.error .overflow, p)
        | some admitted =>
          (.ok (some (p.admitted, if splitPair then some (admitted - 1) else none)),
            { p with admitted, tick }.scheduleM0 ready)

def head (p : RequestPipeline) : Stage → Option StageEntry
  | .m0 => if p.issued < p.admitted then p.m0Ready.map fun readyTick => ⟨p.issued, readyTick⟩ else none
  | .m1 => p.m1.head?
  | .m2 => p.m2.head?

/-- The head of a stage, once its tick has come. -/
def readyHead (p : RequestPipeline) (stage : Stage) (tick : Nat) : Option StageEntry :=
  (p.head stage).filter fun entry => entry.readyTick ≤ tick

/-- Earliest stage eligibility, not a replacement for event delivery order. -/
def nextReadyTick (p : RequestPipeline) : Option Nat :=
  ([Stage.m0, .m1, .m2].filterMap fun stage => do
    let entry ← p.head stage
    let earliest ← match p.lastEvaluation stage with
      | some tick => checkedAdd tick 1
      | none => some 0
    return max (max entry.readyTick earliest) p.tick).min?

/-- The tick and the evaluation mark that every stage callback leaves behind. -/
def evaluated (p : RequestPipeline) (stage : Stage) (tick : Nat) : RequestPipeline :=
  { p with tick, lastEvaluation := Function.update p.lastEvaluation stage (some tick) }

def advanceM0 (p : RequestPipeline) (tick : Nat) (blocked draining : Bool) :
    Except PipelineError StageProgress × RequestPipeline :=
  match p.checkTick tick with
  | .error e => (.error e, p)
  | .ok () =>
    if p.lastEvaluation .m0 = some tick then (.ok .idle, p)
    else match p.readyHead .m0 tick with
      | none => (.ok .idle, { p with tick })
      | some entry =>
        match checkedAdd tick 1 with
        | none => (.error .overflow, p)
        | some next =>
          let p := { p.evaluated .m0 tick with admissionBlocked := blocked }
          if blocked || draining then (.ok (.blocked entry.request), { p with m0Ready := some next })
          else
            let issued := p.issued + 1
            (.ok (.advanced entry.request),
              { p with
                m1 := p.m1 ++ [⟨entry.request, next⟩]
                issued
                m0Ready := if issued < p.admitted then some next else none })

def advanceDataStage (p : RequestPipeline) (stage : Stage) (tick : Nat) (blocked : Bool) :
    Except PipelineError StageProgress × RequestPipeline :=
  match p.checkTick tick with
  | .error e => (.error e, p)
  | .ok () =>
    if p.lastEvaluation stage = some tick then (.ok .idle, p)
    else match p.readyHead stage tick with
      | none => (.ok .idle, { p with tick })
      | some entry =>
        -- leaving M2 unblocked needs no later tick, so it cannot overflow the clock
        match if blocked || stage = Stage.m1 then checkedAdd tick 1 else some tick with
        | none => (.error .overflow, p)
        | some next =>
          let p := p.evaluated stage tick
          if blocked then
            (.ok (.replayScheduled entry.request),
              { p with m1 := [], m2 := if stage = Stage.m2 then [] else p.m2, issued := entry.request }.scheduleM0 next)
          else if stage = Stage.m1 then
            (.ok (.advanced entry.request),
              { p with m1 := p.m1.tail, m2 := p.m2 ++ [⟨entry.request, next⟩] })
          else
            (.ok (.advanced entry.request), { p with m2 := p.m2.tail, consumed := p.consumed + 1 })

def advanceM1 (p : RequestPipeline) (tick : Nat) (blocked : Bool) :
    Except PipelineError StageProgress × RequestPipeline :=
  p.advanceDataStage .m1 tick blocked

def advanceM2 (p : RequestPipeline) (tick : Nat) (blocked : Bool) :
    Except PipelineError StageProgress × RequestPipeline :=
  p.advanceDataStage .m2 tick blocked

/-! ## Calls -/

inductive PipelineCall where
  | admitRequest (tick : Nat) (splitPair : Bool)
  | advanceM0 (tick : Nat) (blocked draining : Bool)
  | advanceM1 (tick : Nat) (blocked : Bool)
  | advanceM2 (tick : Nat) (blocked : Bool)
  deriving DecidableEq, Repr

/-- What a successful call returns. -/
inductive PipelineReply where
  | admitted (ids : Option (Nat × Option Nat))
  | progress (p : StageProgress)
  deriving DecidableEq, Repr

def exec (c : PipelineCall) (p : RequestPipeline) : Except PipelineError PipelineReply × RequestPipeline :=
  match c with
  | .admitRequest tick splitPair => reply .admitted (p.admitRequest tick splitPair)
  | .advanceM0 tick blocked draining => reply .progress (p.advanceM0 tick blocked draining)
  | .advanceM1 tick blocked => reply .progress (p.advanceM1 tick blocked)
  | .advanceM2 tick blocked => reply .progress (p.advanceM2 tick blocked)

end RequestPipeline

end AscendEmulator.C220.Lsu
