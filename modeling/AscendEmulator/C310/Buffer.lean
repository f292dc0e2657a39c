/-
  AscendEmulator.C310.Buffer — the admission of GET and RELEASE buffers (`c310/buffer.rs`): per buffer id two counters
  on a ring, and the entry of the last release accepted.

  Ring counters are `u32` below the ring size, so their successors fit; the counts of all dispatches and of the GETs
  outstanding wrap. The callback that queues an instruction is its answer.
-/

import AscendEmulator.Lib.Outcome

namespace AscendEmulator.C310

open Lib Outcome

inductive GetBufGateResult where
  | ready
  | awaitReleaseCount (expected observed : Nat)
  | sameTick (tick : Nat)
  deriving DecidableEq

/-- `evaluate_c310_get_buf_gate`. -/
def evaluateGetBufGate (expectedReleaseCount observedReleaseCount lastTick currentTick : Nat) : GetBufGateResult :=
  if expectedReleaseCount ≠ observedReleaseCount then .awaitReleaseCount expectedReleaseCount observedReleaseCount
  else if lastTick = currentTick then .sameTick currentTick
  else .ready

inductive BufferCounterError where
  | invalidBufferCount
  | invalidRingSize
  | invalidBufferId (id count : Nat)
  | invalidPipeCode (code : Nat)
  deriving DecidableEq

/-! ## Counters -/

structure BufferCounter where
  dispatchCount : Nat
  releaseCount : Nat
  totalDispatches : Nat
  outstandingGetBufs : Nat
  lastReleaseTick : Nat
  deriving DecidableEq

structure GetBufDispatch where
  expectedReleaseCount : Nat
  assignedDispatchCount : Nat
  deriving DecidableEq

structure BufferCounters where
  ringSize : Nat
  counters : List BufferCounter
  deriving DecidableEq

/-- `wrapping_add(1)` of `u32`. -/
def wrappingIncrement (n : Nat) : Nat := (n + 1) % u32

/-- `wrapping_sub(1)` of `u32`. -/
def wrappingDecrement (n : Nat) : Nat := (n + (u32 - 1)) % u32

namespace BufferCounters

def new (bufferCount ringSize : Nat) : Outcome BufferCounterError BufferCounters := do
  failIf (!(decide (1 ≤ bufferCount) && decide (bufferCount ≤ 64))) .invalidBufferCount
  failIf (decide (ringSize < 2)) .invalidRingSize
  .ok ⟨ringSize, List.replicate bufferCount ⟨0, 0, 0, 0, 0⟩⟩

variable (c : BufferCounters)

def bufferCount : Nat := c.counters.length % 256

def counter (id : Nat) : Outcome BufferCounterError BufferCounter :=
  okOr (.invalidBufferId id c.bufferCount) c.counters[id]?

/-- The counter after `current` on the ring. -/
def next (current : Nat) : Nat := if current = c.ringSize - 1 then 0 else current + 1

def isFull (id : Nat) : Outcome BufferCounterError Bool := do
  let counter ← c.counter id
  .ok (counter.releaseCount == c.next counter.dispatchCount)

/-- `self.counters[usize::from(id)]`, written. -/
def update (id : Nat) (f : BufferCounter → BufferCounter) : BufferCounters :=
  { c with counters := c.counters.modify id f }

def recordDispatch (id : Nat) (queued : Bool) :
    Call BufferCounters (Fault BufferCounterError) (Option GetBufDispatch) := fun c =>
  match c.isFull id with
  | .error e => (.error e, c)
  | .ok true => (.ok none, c)
  | .ok false =>
    match c.counter id with
    | .error e => (.error e, c)
    | .ok counter =>
      let expected := counter.dispatchCount
      let next := c.next expected
      (.ok (some ⟨expected, next⟩), c.update id fun counter =>
        { counter with
          dispatchCount := next
          totalDispatches := wrappingIncrement counter.totalDispatches
          outstandingGetBufs :=
            if queued then wrappingIncrement counter.outstandingGetBufs else counter.outstandingGetBufs })

def retireRelease (id : Nat) : Call BufferCounters (Fault BufferCounterError) Nat := fun c =>
  match c.counter id with
  | .error e => (.error e, c)
  | .ok counter =>
    let next := c.next counter.releaseCount
    (.ok next, c.update id fun counter => { counter with releaseCount := next })

def recordReleaseTick (id tick : Nat) : Call BufferCounters (Fault BufferCounterError) Unit := fun c =>
  if c.counters.length ≤ id then (fail (.invalidBufferId id c.bufferCount), c)
  else (.ok (), c.update id fun counter => { counter with lastReleaseTick := tick })

def retireQueuedReleaseAt (id modeField tick : Nat) : Call BufferCounters (Fault BufferCounterError) Nat := fun c =>
  match retireRelease id c with
  | (.error e, c) => (.error e, c)
  | (.ok next, c) =>
    if modeField ≠ 1 then
      match recordReleaseTick id tick c with
      | (.error e, c) => (.error e, c)
      | (.ok (), c) => (.ok next, c)
    else (.ok next, c)

def consumeGetBuf (id : Nat) : Call BufferCounters (Fault BufferCounterError) Nat := fun c =>
  match c.counter id with
  | .error e => (.error e, c)
  | .ok counter =>
    let next := wrappingDecrement counter.outstandingGetBufs
    (.ok next, c.update id fun counter => { counter with outstandingGetBufs := next })

def getBufGate (id expectedReleaseCount currentTick : Nat) : Outcome BufferCounterError GetBufGateResult := do
  let counter ← c.counter id
  .ok (evaluateGetBufGate expectedReleaseCount counter.releaseCount counter.lastReleaseTick currentTick)

end BufferCounters

/-! ## Release entries -/

structure ReleaseEntry where
  valid : Bool
  pipeCode : Nat
  deriving DecidableEq

structure ReleaseEntries where
  entries : List ReleaseEntry
  deriving DecidableEq

namespace ReleaseEntries

def new (bufferCount : Nat) : Outcome BufferCounterError ReleaseEntries := do
  failIf (!(decide (1 ≤ bufferCount) && decide (bufferCount ≤ 64))) .invalidBufferCount
  .ok ⟨List.replicate bufferCount ⟨false, 0⟩⟩

variable (e : ReleaseEntries)

def bufferCount : Nat := e.entries.length % 256

def entry (id : Nat) : Outcome BufferCounterError ReleaseEntry :=
  okOr (.invalidBufferId id e.bufferCount) e.entries[id]?

def recordAcceptedRelease (id pipeCode : Nat) : Call ReleaseEntries (Fault BufferCounterError) Unit := fun e =>
  match e.entries[id]? with
  | none => (fail (.invalidBufferId id e.bufferCount), e)
  | some _ => (.ok (), ⟨e.entries.set id ⟨true, pipeCode⟩⟩)

/-- `matches`. -/
def isMatch (id pipeCode : Nat) : Outcome BufferCounterError Bool := do
  let entry ← e.entry id
  .ok (entry.valid && entry.pipeCode == pipeCode)

def takeMatch (id pipeCode : Nat) : Call ReleaseEntries (Fault BufferCounterError) Bool := fun e =>
  match e.isMatch id pipeCode with
  | .error err => (.error err, e)
  | .ok false => (.ok false, e)
  | .ok true => (.ok true, ⟨e.entries.modify id fun entry => { entry with valid := false }⟩)

end ReleaseEntries

/-! ## Admission -/

inductive GetBufAdmission where
  | ringFull
  | pipeStalled
  | direct (dispatch : GetBufDispatch)
  | queued (dispatch : GetBufDispatch)
  deriving DecidableEq

inductive ReleaseAdmission where
  | noPipe
  | pipeStalled
  | queued
  deriving DecidableEq

/-- `is_c310_buffer_issue_pipe`. -/
def isBufferIssuePipe (pipeCode : Nat) : Bool := [1, 2, 3, 4, 5, 10].contains pipeCode

structure BufferAdmissionState where
  counters : BufferCounters
  releaseEntries : ReleaseEntries
  directReleaseEnabled : Bool
  deriving DecidableEq

namespace BufferAdmissionState

def new (bufferCount ringSize : Nat) (directReleaseEnabled : Bool) :
    Outcome BufferCounterError BufferAdmissionState := do
  let counters ← BufferCounters.new bufferCount ringSize
  let releaseEntries ← ReleaseEntries.new bufferCount
  .ok ⟨counters, releaseEntries, directReleaseEnabled⟩

def tryPopQueuedGet (id expectedReleaseCount currentTick : Nat) :
    Call BufferAdmissionState (Fault BufferCounterError) GetBufGateResult := fun s =>
  match s.counters.getBufGate id expectedReleaseCount currentTick with
  | .error e => (.error e, s)
  | .ok .ready =>
    match BufferCounters.consumeGetBuf id s.counters with
    | (.error e, counters) => (.error e, { s with counters })
    | (.ok _, counters) => (.ok .ready, { s with counters })
  | .ok gate => (.ok gate, s)

def retireQueuedReleaseAt (id modeField tick : Nat) :
    Call BufferAdmissionState (Fault BufferCounterError) Nat := fun s =>
  match BufferCounters.retireQueuedReleaseAt id modeField tick s.counters with
  | (r, counters) => (r, { s with counters })

/-- A dispatch of a ring that is not full. -/
def dispatch (id : Nat) (queued : Bool) :
    Call BufferAdmissionState (Fault BufferCounterError) GetBufDispatch := fun s =>
  match BufferCounters.recordDispatch id queued s.counters with
  | (.error e, counters) => (.error e, { s with counters })
  | (.ok none, counters) => (panicked, { s with counters })
  | (.ok (some dispatch), counters) => (.ok dispatch, { s with counters })

/-- `mode_field == 1`, or a release of the same pipe was accepted. -/
def isDirect (s : BufferAdmissionState) (id pipeCode modeField : Nat) : Outcome BufferCounterError Bool :=
  if modeField = 1 then .ok true
  else if s.directReleaseEnabled then s.releaseEntries.isMatch id pipeCode
  else .ok false

/-- The entry that a direct GET uses up; in mode one it uses none. -/
def takeEntry (id pipeCode modeField : Nat) : Call BufferAdmissionState (Fault BufferCounterError) Unit := fun s =>
  if modeField = 1 then (.ok (), s)
  else
    match ReleaseEntries.takeMatch id pipeCode s.releaseEntries with
    | (.error e, releaseEntries) => (.error e, { s with releaseEntries })
    | (.ok _, releaseEntries) => (.ok (), { s with releaseEntries })

def admitGet (id pipeCode modeField : Nat) (tryQueue : Bool) :
    Call BufferAdmissionState (Fault BufferCounterError) GetBufAdmission := fun s =>
  match s.counters.isFull id with
  | .error e => (.error e, s)
  | .ok true => (.ok .ringFull, s)
  | .ok false =>
    match s.isDirect id pipeCode modeField with
    | .error e => (.error e, s)
    | .ok true =>
      match takeEntry id pipeCode modeField s with
      | (.error e, s) => (.error e, s)
      | (.ok (), s) => reply .direct (dispatch id false s)
    | .ok false =>
      if !isBufferIssuePipe pipeCode then (fail (.invalidPipeCode pipeCode), s)
      else if !tryQueue then (.ok .pipeStalled, s)
      else reply .queued (dispatch id true s)

def admitRelease (id pipeCode : Nat) (tryQueue : Bool) :
    Call BufferAdmissionState (Fault BufferCounterError) ReleaseAdmission := fun s =>
  if pipeCode = 0 then (.ok .noPipe, s)
  else if !isBufferIssuePipe pipeCode then (fail (.invalidPipeCode pipeCode), s)
  else
    match s.releaseEntries.entry id with
    | .error e => (.error e, s)
    | .ok _ =>
      if !tryQueue then (.ok .pipeStalled, s)
      else
        match ReleaseEntries.recordAcceptedRelease id pipeCode s.releaseEntries with
        | (.error e, releaseEntries) => (.error e, { s with releaseEntries })
        | (.ok (), releaseEntries) => (.ok .queued, { s with releaseEntries })

end BufferAdmissionState

/-! ## Runs on one buffer id -/

/-- What became of a GET that was dispatched: it waits in its queue, it was dispatched directly or popped, or its
    release has retired. -/
inductive GetStatus where
  | queued
  | running
  | released
  deriving DecidableEq

structure Get where
  dispatch : GetBufDispatch
  status : GetStatus
  deriving DecidableEq

/-- The admission state, with the GETs in the order of their dispatch and the last release tick that was recorded. -/
structure BufferRun where
  state : BufferAdmissionState
  gets : List Get
  lastTick : Nat
  deriving DecidableEq

/-- `tryPop n` pops the `n`-th dispatch by the count that it expects; `retire n` is the release of the `n`-th. -/
inductive BufferCall where
  | admitGet (pipeCode modeField : Nat) (tryQueue : Bool)
  | admitRelease (pipeCode : Nat) (tryQueue : Bool)
  | tryPop (n currentTick : Nat)
  | retire (n modeField tick : Nat)
  deriving DecidableEq

inductive BufferReply where
  | get (admission : GetBufAdmission)
  | release (admission : ReleaseAdmission)
  | gate (result : GetBufGateResult)
  | retired (releaseCount : Nat)
  deriving DecidableEq

namespace BufferRun

def start (state : BufferAdmissionState) : BufferRun := ⟨state, [], 0⟩

def hasStatus (status : GetStatus) (get : Get) : Bool := get.status == status

/-- The releases that have retired. -/
def released (s : BufferRun) : Nat := s.gets.countP (hasStatus .released)

/-- The dispatches that are not released. -/
def unreleased (s : BufferRun) : Nat := s.gets.countP fun get => !hasStatus .released get

/-- The GETs that are queued and not popped. -/
def waiting (s : BufferRun) : Nat := s.gets.countP (hasStatus .queued)

def setStatus (s : BufferRun) (n : Nat) (status : GetStatus) : BufferRun :=
  { s with gets := s.gets.modify n fun get => { get with status } }

/-- A pop is of a GET that waits, a release of one that was dispatched directly or popped, and not released. -/
def allowed (call : BufferCall) (s : BufferRun) : Prop :=
  match call with
  | .tryPop n _ => ∃ get, s.gets[n]? = some get ∧ get.status = .queued
  | .retire n _ _ => ∃ get, s.gets[n]? = some get ∧ get.status = .running
  | _ => True

/-- The GETs after an admission. -/
def dispatched (gets : List Get) : Outcome BufferCounterError GetBufAdmission → List Get
  | .ok (.direct dispatch) => gets ++ [⟨dispatch, .running⟩]
  | .ok (.queued dispatch) => gets ++ [⟨dispatch, .queued⟩]
  | _ => gets

/-- A call on the buffer `id`. -/
def exec (id : Nat) (call : BufferCall) : Call BufferRun (Fault BufferCounterError) BufferReply := fun s =>
  match call with
  | .admitGet pipeCode modeField tryQueue =>
    match BufferAdmissionState.admitGet id pipeCode modeField tryQueue s.state with
    | (r, state) => (r.map .get, { s with state, gets := dispatched s.gets r })
  | .admitRelease pipeCode tryQueue =>
    match BufferAdmissionState.admitRelease id pipeCode tryQueue s.state with
    | (r, state) => (r.map .release, { s with state })
  | .tryPop n currentTick =>
    let expected := (s.gets[n]?.map fun get => get.dispatch.expectedReleaseCount).getD 0
    match BufferAdmissionState.tryPopQueuedGet id expected currentTick s.state with
    | (.ok .ready, state) => (.ok (.gate .ready), { s with state }.setStatus n .running)
    | (r, state) => (r.map .gate, { s with state })
  | .retire n modeField tick =>
    match BufferAdmissionState.retireQueuedReleaseAt id modeField tick s.state with
    | (.ok count, state) =>
      (.ok (.retired count),
        { s with state, lastTick := if modeField ≠ 1 then tick else s.lastTick }.setStatus n .released)
    | (.error e, state) => (.error e, { s with state })

/-- A call that did not go through: no room on the ring or in a queue, no pipe, a gate not ready, or an error. -/
def Stalls : Outcome BufferCounterError BufferReply → Prop
  | .error _ => True
  | .ok (.get .ringFull) | .ok (.get .pipeStalled) => True
  | .ok (.release .pipeStalled) | .ok (.release .noPipe) => True
  | .ok (.gate result) => result ≠ .ready
  | _ => False

end BufferRun

end AscendEmulator.C310
