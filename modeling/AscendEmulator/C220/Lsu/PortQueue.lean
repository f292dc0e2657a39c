/-
  AscendEmulator.C220.Lsu.PortQueue — the read queue (`C220LsuReadQueue`) and the write queue (`C220LsuWriteQueue`).

  Requests for a line wait at the UB or the external port, are in flight, and respond. Both queues age, dispatch and
  account for their requests alike: that is `PortQueue`, over what a request carries besides its line (`ω`). A write
  queue indexes its UB addresses too. Ids, ticks and counts are `Nat`; a call that panics returns `Fault.panicked`.
-/

import AscendEmulator.Lib.OrdMap
import AscendEmulator.Lib.Outcome
import AscendEmulator.C220.Lsu.StoreBuffer

namespace AscendEmulator.C220.Lsu

open Lib

inductive PortState where
  | queued | inFlight | responding
  deriving DecidableEq, Repr

/-- `C220LsuReadError` and `C220LsuWriteError`; only a write queue has `timeOverflow`. -/
inductive PortError where
  | overflow
  | missingRequest
  | invalidState
  | timeReversal (previous requested : Nat)
  | timeOverflow
  deriving DecidableEq, Repr

structure PortRequest (ω : Type) where
  id : Nat
  line : LineKey
  origin : ω
  state : PortState
  queuedTick : Nat
  byteLen : Nat
  deriving DecidableEq

structure PortQueue (ω : Type) where
  capacity : Nat
  lineBytes : Nat
  outstanding : Nat
  nextId : Nat
  queues : LsuMemory → List Nat
  requests : OrdMap Nat (PortRequest ω)
  tick : Nat
  lastDispatch : Option Nat

abbrev PortCallOf (ω α : Type) := Call (PortQueue ω) (Fault PortError) α

namespace PortQueue

variable {ω β : Type}

def new (capacity : UInt32) (lineBytes : Nat) : PortQueue ω where
  capacity := capacity.toNat
  lineBytes
  outstanding := 0
  nextId := 0
  queues := fun _ => []
  requests := .empty
  tick := 0
  lastDispatch := none

def request (q : PortQueue ω) (id : Nat) : Option (PortRequest ω) := q.requests.get? id

def timeReversed (q : PortQueue ω) (tick : Nat) : Option PortError :=
  if tick < q.tick then some (.timeReversal q.tick tick) else none

def advanceTo (tick : Nat) : PortCallOf ω Unit := fun q =>
  match q.timeReversed tick with
  | some e => (Outcome.fail e, q)
  | none => (.ok (), { q with tick })

/-- `check_enqueue`, for `count` requests. The queues name the end of the clock differently (`exhausted`). -/
def enqueueError (q : PortQueue ω) (exhausted : PortError) (count : Nat) : Option PortError :=
  if count ≠ 0 ∧ q.tick = u64 - 1 then some exhausted
  else if checkedAdd q.nextId count = none then some .overflow
  else none

/-- The request that `enqueue` makes. -/
def fresh (q : PortQueue ω) (line : LineKey) (origin : ω) : PortRequest ω where
  id := q.nextId
  line
  origin
  state := .queued
  queuedTick := q.tick
  byteLen := q.lineBytes

def enqueue (exhausted : PortError) (line : LineKey) (origin : ω) : PortCallOf ω Nat := fun q =>
  match q.enqueueError exhausted 1 with
  | some e => (Outcome.fail e, q)
  | none =>
    (.ok q.nextId,
      { q with
        nextId := q.nextId + 1
        requests := q.requests.insert q.nextId (q.fresh line origin)
        queues := Function.update q.queues line.memory (q.queues line.memory ++ [q.nextId]) })

/-! ### Dispatch -/

def ports : List LsuMemory := [.ub, .external]

def heads (q : PortQueue ω) : List Nat := ports.filterMap fun port => (q.queues port).head?

/-- The first tick after the last dispatch, if the clock has one. -/
def nextProcess (q : PortQueue ω) : Option Nat :=
  match q.lastDispatch with
  | none => some 0
  | some tick => checkedAdd tick 1

/-- The tick at which a head can be sent, `none` when there is none. A head without its request panics. -/
def nextReadyTick (q : PortQueue ω) : Outcome PortError (Option Nat) :=
  match q.nextProcess with
  | none => .ok none
  | some next =>
    match q.heads.mapM q.request with
    | none => Outcome.panicked
    | some heads =>
      .ok (heads.filterMap fun r => (checkedAdd r.queuedTick 1).map fun ready => max (max ready next) q.tick).min?

/-- A port's turn: its head is sent, if there is credit and the port accepts it. -/
def sendPort (port : LsuMemory) (accepts : Bool) : PortCallOf ω (List (PortRequest ω)) := fun q =>
  if q.capacity ≤ q.outstanding ∨ accepts = false then (.ok [], q)
  else
    match q.queues port with
    | [] => (.ok [], q)
    | id :: queue =>
      match q.request id with
      | none => (Outcome.panicked, { q with queues := Function.update q.queues port queue })
      | some r =>
        let sent := { r with state := .inFlight }
        (.ok [sent],
          { q with
            queues := Function.update q.queues port queue
            requests := q.requests.insert id sent
            outstanding := q.outstanding + 1 })

/-- Either aged head wakes the process; each port then sends its head, however young. -/
def dispatchClock (tick : Nat) (ubAccepts externalAccepts : Bool) : PortCallOf ω (List (PortRequest ω)) := fun q =>
  match q.timeReversed tick with
  | some e => (Outcome.fail e, q)
  | none =>
    match q.nextReadyTick with
    | .error e => (.error e, q)
    | .ok ready =>
      if ready.any (· ≤ tick) = false ∨ q.lastDispatch = some tick then (.ok [], { q with tick })
      else
        Call.bind (sendPort .ub ubAccepts) (fun ub =>
          Call.bind (sendPort .external externalAccepts) fun external q' => (.ok (ub ++ external), q'))
          { q with tick, lastDispatch := some tick }

/-! ### Responses -/

def beginResponse (id : Nat) : PortCallOf ω (PortRequest ω) := fun q =>
  match q.request id with
  | none => (Outcome.fail .missingRequest, q)
  | some r =>
    if r.state ≠ .inFlight then (Outcome.fail .invalidState, q)
    else
      let begun := { r with state := .responding }
      let requests := q.requests.insert id begun
      if q.outstanding = 0 then (Outcome.panicked, { q with requests })
      else (.ok begun, { q with requests, outstanding := q.outstanding - 1 })

def finishResponse (id : Nat) : PortCallOf ω Unit := fun q =>
  match q.request id with
  | none => (Outcome.fail .missingRequest, q)
  | some r =>
    if r.state ≠ .responding then (Outcome.fail .invalidState, q)
    else (.ok (), { q with requests := q.requests.erase id })

end PortQueue

/-! ### Calls -/

inductive PortCall (ω : Type) where
  | enqueue (line : LineKey) (origin : ω)
  | dispatchClock (tick : Nat) (ubAccepts externalAccepts : Bool)
  | beginResponse (id : Nat)
  | finishResponse (id : Nat)
  | advanceTo (tick : Nat)

/-- `β` is what `begin_response` returns. -/
inductive PortReply (ω β : Type) where
  | enqueued (id : Nat)
  | sent (requests : List (PortRequest ω))
  | begun (request : β)
  | finished
  | advanced

/-- The calls of a queue that returns `view` of a request whose response begins. -/
def PortQueue.exec {ω β : Type} (exhausted : PortError) (view : PortRequest ω → β) :
    PortCall ω → PortCallOf ω (PortReply ω β)
  | .enqueue line origin => fun q => reply .enqueued (enqueue exhausted line origin q)
  | .dispatchClock tick ubAccepts externalAccepts => fun q => reply .sent (dispatchClock tick ubAccepts externalAccepts q)
  | .beginResponse id => fun q => reply (fun r => .begun (view r)) (beginResponse id q)
  | .finishResponse id => fun q => reply (fun _ => .finished) (finishResponse id q)
  | .advanceTo tick => fun q => reply (fun _ => .advanced) (advanceTo tick q)

/-! ## Reads -/

inductive ReadOwner where
  | miss | store
  deriving DecidableEq, Repr

structure ReadOrigin where
  partitionAddress : UInt64
  owner : ReadOwner
  deriving DecidableEq, Repr

abbrev ReadQueue := PortQueue ReadOrigin

namespace ReadQueue

def enqueue (line : LineKey) (partitionAddress : UInt64) (owner : ReadOwner) : PortCallOf ReadOrigin Nat :=
  PortQueue.enqueue .overflow line ⟨partitionAddress, owner⟩

def exec : PortCall ReadOrigin → PortCallOf ReadOrigin (PortReply ReadOrigin (PortRequest ReadOrigin)) :=
  PortQueue.exec .overflow id

end ReadQueue

/-! ## Writes -/

/-- Payload data remains in cache, store, or eviction storage until response handling. -/
structure WriteQueue where
  port : PortQueue Unit
  ubAddresses : OrdMap Nat Nat

abbrev WriteCallOf (α : Type) := Call WriteQueue (Fault PortError) α

namespace WriteQueue

def new (capacity : UInt32) (lineBytes : Nat) : WriteQueue := ⟨.new capacity lineBytes, .empty⟩

def request (w : WriteQueue) (id : Nat) : Option (PortRequest Unit) := w.port.request id

/-- A call on the ports that leaves the index alone. -/
def onPort {α : Type} (c : PortCallOf Unit α) : WriteCallOf α := fun w =>
  let r := c w.port
  (r.1, { w with port := r.2 })

def advanceTo (tick : Nat) : WriteCallOf Unit := onPort (PortQueue.advanceTo tick)

def enqueue (line : LineKey) : WriteCallOf Nat :=
  Call.bind (onPort (PortQueue.enqueue .timeOverflow line ())) fun id w =>
    (.ok id,
      match line.memory with
      | .ub => { w with ubAddresses := w.ubAddresses.insert line.address.toNat id }
      | .external => w)

def hasHazard (w : WriteQueue) (line : LineKey) : Bool :=
  match line.memory with
  | .ub => w.ubAddresses.contains line.address.toNat
  | .external => w.port.requests.entries.any fun e => e.2.line = line

def dispatchClock (tick : Nat) (ubAccepts externalAccepts : Bool) : WriteCallOf (List (PortRequest Unit)) :=
  onPort (PortQueue.dispatchClock tick ubAccepts externalAccepts)

/-- The address remains blocked until `finish_response` is called. -/
def beginResponse (id : Nat) : WriteCallOf LineKey :=
  Call.bind (onPort (PortQueue.beginResponse id)) fun r w => (.ok r.line, w)

def finishResponse (id : Nat) : WriteCallOf Unit := fun w =>
  match w.request id with
  | none => (Outcome.fail .missingRequest, w)
  | some r =>
    if r.state ≠ .responding then (Outcome.fail .invalidState, w)
    else
      (.ok (),
        { port := { w.port with requests := w.port.requests.erase id }
          ubAddresses :=
            match r.line.memory with
            | .ub => w.ubAddresses.erase r.line.address.toNat
            | .external => w.ubAddresses })

def exec : PortCall Unit → WriteCallOf (PortReply Unit LineKey)
  | .enqueue line () => fun w => reply .enqueued (enqueue line w)
  | .dispatchClock tick ubAccepts externalAccepts => fun w => reply .sent (dispatchClock tick ubAccepts externalAccepts w)
  | .beginResponse id => fun w => reply .begun (beginResponse id w)
  | .finishResponse id => fun w => reply (fun _ => .finished) (finishResponse id w)
  | .advanceTo tick => fun w => reply (fun _ => .advanced) (advanceTo tick w)

end WriteQueue

end AscendEmulator.C220.Lsu
