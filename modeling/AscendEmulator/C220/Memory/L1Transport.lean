/-
  AscendEmulator.C220.Memory.L1Transport — the L1 service (`C220L1Pipeline`) between its request and response
  transports (`C220L1Transport`).

  The first nonempty receiver of a tick takes a snapshot: the arbiter decides on all heads, and both receivers use its
  decisions in that tick. `arbitrations` is a ghost: the snapshots so far; nothing reads it.
-/

import AscendEmulator.Lib.Queue
import AscendEmulator.C220.Memory.L1Arbiter

namespace AscendEmulator.C220.Memory

open Lib

structure L1Request where
  id : Nat
  access : L1Access
  deriving DecidableEq, Repr

structure L1Response where
  request : L1Request
  acceptedTick : Nat
  readyTick : Nat
  bankMask : BitVec 64
  deriving DecidableEq

structure L1RequestCycle where
  tick : Nat
  decisions : L1Port → Option L1Decision
  accepted : L1Port → Bool

structure L1ResponseCycle where
  tick : Nat
  responses : L1Port → Option L1Response

structure L1Cycle where
  tick : Nat
  decisions : L1Port → Option L1Decision
  accepted : L1Port → Bool
  responses : L1Port → Option L1Response

/-- A snapshot: when it was taken, the heads, and what the arbiter decided. -/
structure L1Arbitration where
  tick : Nat
  heads : L1Port → Option L1Access
  decisions : L1Port → Option L1Decision

structure L1Pipeline where
  arbiter : L1Arbiter
  pending : L1Port → List L1Response
  observedTick : Option Nat
  receiveTicks : L1Receiver → Option Nat
  responseTicks : L1Receiver → Option Nat
  arbitrationTick : Option Nat
  decisions : L1Port → Option L1Decision
  /-- ghost -/
  arbitrations : List L1Arbitration

namespace L1Pipeline

def new (geometry : L1Geometry) : L1Pipeline :=
  ⟨.new geometry, fun _ => [], none, fun _ => none, fun _ => none, none, fun _ => none, []⟩

def checkCallback (s : L1Pipeline) (tick : Nat) (receiver : L1Receiver) (response : Bool) : Except L1Error Unit :=
  match s.observedTick.filter (tick < ·) with
  | some previous => .error (.timeReversed previous tick)
  | none =>
    if (if response then s.responseTicks else s.receiveTicks) receiver = some tick then
      .error (.repeatedCallback receiver (if response then "respond" else "receive") tick)
    else .ok ()

/-! ## Receive -/

/-- Arbitrate all heads, once a tick: the stamp has the low 32 bits of the tick. -/
def snapshot (tick : Nat) (requests : L1Port → Option L1Request) (s : L1Pipeline) : L1Pipeline :=
  if s.arbitrationTick.getD 0 % u32 < tick then
    let heads := fun p => (requests p).map (·.access)
    let r := s.arbiter.arbitrate heads
    { s with
      arbiter := r.1
      decisions := r.2
      arbitrationTick := some tick
      arbitrations := s.arbitrations ++ [⟨tick, heads, r.2⟩] }
  else s

/-- The state of the loop over the ports in `receive`. -/
structure Receiving where
  service : L1Pipeline
  requests : L1Port → Option L1Request
  decisions : L1Port → Option L1Decision
  accepted : L1Port → Bool

/-- One turn of the loop: the head of a port of the receiver goes if it is granted. -/
def Receiving.port (tick : Nat) (receiver : L1Receiver) (r : Receiving) (port : L1Port) : Receiving :=
  if !receiver.contains port then r
  else
    match r.requests port with
    | none => r
    | some request =>
      let service := r.service.snapshot tick r.requests
      let decisions := Function.update r.decisions port (service.decisions port)
      match service.decisions port with
      | none => { r with service, decisions }
      | some decision =>
        if decision.granted then
          { service := { service with
              pending := Function.update service.pending port
                (service.pending port ++ [⟨request, tick, tick + port.responseTicks, decision.bankMask⟩]) }
            requests := Function.update r.requests port none
            decisions
            accepted := Function.update r.accepted port true }
        else { r with service, decisions }

/-- Whether the response to a head of the receiver would come after the last tick. -/
def responseOverflows (tick : Nat) (receiver : L1Receiver) (requests : L1Port → Option L1Request) : Bool :=
  L1Port.all.any fun p => receiver.contains p && (requests p).isSome && (checkedAdd tick p.responseTicks).isNone

def receive (tick : Nat) (receiver : L1Receiver) (requests : L1Port → Option L1Request) :
    Call L1Pipeline L1Error L1RequestCycle := fun s =>
  match s.checkCallback tick receiver false with
  | .error e => (.error e, s)
  | .ok () =>
    if responseOverflows tick receiver requests then (.error .timeOverflow, s)
    else
      let r := L1Port.all.foldl (Receiving.port tick receiver) ⟨s, requests, fun _ => none, fun _ => false⟩
      let decisions := fun p =>
        if !receiver.contains p && decide (r.service.arbitrationTick = some tick) then r.service.decisions p
        else r.decisions p
      (.ok ⟨tick, decisions, r.accepted⟩,
        { r.service with
          observedTick := some tick
          receiveTicks := Function.update r.service.receiveTicks receiver (some tick) })

/-! ## Respond -/

/-- The eligible response of a port, and the responses that stay. -/
def eligible (tick : Nat) (receiver : L1Receiver) (ready : L1Port → Bool) (s : L1Pipeline) (port : L1Port) :
    Option (L1Response × List L1Response) :=
  if receiver.contains port && ready port then
    popFrontIf (fun head => decide (head.readyTick ≤ tick)) (s.pending port)
  else none

def respond (tick : Nat) (receiver : L1Receiver) (ready : L1Port → Bool) : Call L1Pipeline L1Error L1ResponseCycle :=
  fun s =>
    match s.checkCallback tick receiver true with
    | .error e => (.error e, s)
    | .ok () =>
      (.ok ⟨tick, fun p => (s.eligible tick receiver ready p).map Prod.fst⟩,
        { s with
          pending := fun p => ((s.eligible tick receiver ready p).map Prod.snd).getD (s.pending p)
          observedTick := some tick
          responseTicks := Function.update s.responseTicks receiver (some tick) })

/-! ## Both phases -/

def validateStep (s : L1Pipeline) (tick : Nat) (requests : L1Port → Option L1Request) (notified : L1Port → Bool) :
    Except L1Error Unit :=
  match L1Receiver.all.mapM fun receiver =>
      (s.checkCallback tick receiver false).bind fun () => s.checkCallback tick receiver true with
  | .error e => .error e
  | .ok _ =>
    if L1Port.all.any fun p => (requests p).isSome && notified p && (checkedAdd tick p.responseTicks).isNone then
      .error .timeOverflow
    else .ok ()

/-- The responses of the receivers, in order; a port answers once. -/
def respondAll (tick : Nat) (ready : L1Port → Bool) :
    List L1Receiver → (L1Port → Option L1Response) → Call L1Pipeline L1Error (L1Port → Option L1Response)
  | [], responses => fun s => (.ok responses, s)
  | receiver :: receivers, responses =>
    Call.bind (respond tick receiver ready) fun cycle =>
      respondAll tick ready receivers fun p => (responses p).or (cycle.responses p)

/-- What the receivers have taken so far. -/
structure Taking where
  heads : L1Port → Option L1Request
  decisions : L1Port → Option L1Decision
  accepted : L1Port → Bool

def Taking.merge (receiver : L1Receiver) (a : Taking) (cycle : L1RequestCycle) : Taking where
  heads := fun p => if cycle.accepted p then none else a.heads p
  decisions := fun p => if receiver.contains p || (a.decisions p).isNone then cycle.decisions p else a.decisions p
  accepted := fun p => a.accepted p || cycle.accepted p

/-- The receivers that were notified, in order. -/
def receiveAll (tick : Nat) (notified : L1Port → Bool) : List L1Receiver → Taking → Call L1Pipeline L1Error Taking
  | [], a => fun s => (.ok a, s)
  | receiver :: receivers, a =>
    if L1Port.all.any fun p => receiver.contains p && notified p then
      Call.bind (receive tick receiver a.heads) fun cycle => receiveAll tick notified receivers (a.merge receiver cycle)
    else receiveAll tick notified receivers a

def stepNotified (tick : Nat) (requests : L1Port → Option L1Request) (notified ready : L1Port → Bool) :
    Call L1Pipeline L1Error L1Cycle := fun s =>
  match s.validateStep tick requests notified with
  | .error e => (.error e, s)
  | .ok () =>
    Call.bind (respondAll tick ready L1Receiver.all fun _ => none) (fun responses =>
      Call.bind (receiveAll tick notified L1Receiver.all ⟨requests, fun _ => none, fun _ => false⟩) fun a s =>
        (.ok ⟨tick, a.decisions, a.accepted, responses⟩, s)) s

end L1Pipeline

/-! ## The transports -/

structure L1Transit (α : Type) where
  sentTick : Nat
  readyTick : Nat
  payload : α

inductive L1TransportError where
  | timeReversed (previous requested : Nat)
  | timeOverflow
  | service (e : L1Error)
  deriving DecidableEq, Repr

structure L1Transport where
  service : L1Pipeline
  requests : L1Port → List (L1Transit L1Request)
  responses : L1Port → List (L1Transit L1Response)
  observedTick : Option Nat

abbrev L1CallOf (α : Type) := Call L1Transport L1TransportError α

namespace L1Transport

def capacity : Nat := 2

def transportTicks : Nat := 1

def new (geometry : L1Geometry) : L1Transport := ⟨.new geometry, fun _ => [], fun _ => [], none⟩

def checkTime (s : L1Transport) (tick : Nat) : Except L1TransportError Unit :=
  match s.observedTick.filter (tick < ·) with
  | some previous => .error (.timeReversed previous tick)
  | none => .ok ()

def requestReady (s : L1Transport) (port : L1Port) : Bool := decide ((s.requests port).length < capacity)

def credits (s : L1Transport) (port : L1Port) : Bool := decide ((s.responses port).length < capacity)

def heads (s : L1Transport) (port : L1Port) : Option L1Request := (s.requests port).head?.map (·.payload)

def sendRequest (tick : Nat) (port : L1Port) (request : L1Request) : L1CallOf Bool := fun s =>
  match s.checkTime tick with
  | .error e => (.error e, s)
  | .ok () =>
    if !s.requestReady port then (.ok false, { s with observedTick := some tick })
    else
      match checkedAdd tick transportTicks with
      | none => (.error .timeOverflow, s)
      | some readyTick =>
        (.ok true,
          { s with
            requests := Function.update s.requests port (s.requests port ++ [⟨tick, readyTick, request⟩])
            observedTick := some tick })

def receiveResponse (tick : Nat) (port : L1Port) : L1CallOf (Option L1Response) := fun s =>
  match s.checkTime tick with
  | .error e => (.error e, s)
  | .ok () =>
    match popFrontIf (fun head => decide (head.readyTick ≤ tick)) (s.responses port) with
    | none => (.ok none, { s with observedTick := some tick })
    | some (head, queue) =>
      (.ok (some head.payload),
        { s with responses := Function.update s.responses port queue, observedTick := some tick })

/-- The queues after a cycle of the service: accepted heads leave, and responses enter the transport. -/
def moved (s : L1Transport) (tick readyTick : Nat) (accepted : L1Port → Bool) (responses : L1Port → Option L1Response)
    (service : L1Pipeline) : L1Transport where
  service
  requests := fun p => if accepted p then (s.requests p).tail else s.requests p
  responses := fun p => s.responses p ++ (responses p).toList.map fun payload => ⟨tick, readyTick, payload⟩
  observedTick := some tick

def advance (tick : Nat) : L1CallOf L1Cycle := fun s =>
  match s.checkTime tick with
  | .error e => (.error e, s)
  | .ok () =>
    match checkedAdd tick 1 with
    | none => (.error .timeOverflow, s)
    | some nextServiceTick =>
      let notified : L1Port → Bool := fun p => (s.requests p).head?.any (·.readyTick ≤ tick)
      -- Both write ports wake the same receiver.
      let writeNotified := notified .fixpWrite || notified .mteWrite
      let receivers : L1Port → Bool := fun p => if p = .mteRead then notified .mteRead else writeNotified
      match L1Pipeline.stepNotified tick s.heads receivers s.credits s.service with
      | (.error e, service) => (.error (.service e), { s with service })
      | (.ok cycle, service) => (.ok cycle, s.moved tick nextServiceTick cycle.accepted cycle.responses service)

def receiveRequests (tick : Nat) (receiver : L1Receiver) : L1CallOf L1RequestCycle := fun s =>
  match s.checkTime tick with
  | .error e => (.error e, s)
  | .ok () =>
    match L1Pipeline.receive tick receiver s.heads s.service with
    | (.error e, service) => (.error (.service e), { s with service })
    | (.ok cycle, service) => (.ok cycle, s.moved tick tick cycle.accepted (fun _ => none) service)

def sendResponses (tick : Nat) (receiver : L1Receiver) : L1CallOf L1ResponseCycle := fun s =>
  match s.checkTime tick with
  | .error e => (.error e, s)
  | .ok () =>
    let willSend := L1Port.all.any fun p =>
      receiver.contains p && s.credits p && (s.service.pending p).head?.any (·.readyTick ≤ tick)
    match (if willSend then checkedAdd tick transportTicks else some tick) with
    | none => (.error .timeOverflow, s)
    | some readyTick =>
      match L1Pipeline.respond tick receiver s.credits s.service with
      | (.error e, service) => (.error (.service e), { s with service })
      | (.ok cycle, service) => (.ok cycle, s.moved tick readyTick (fun _ => false) cycle.responses service)

/-! ## Calls -/

inductive L1Call where
  | sendRequest (tick : Nat) (port : L1Port) (request : L1Request)
  | receiveResponse (tick : Nat) (port : L1Port)
  | advance (tick : Nat)
  | receiveRequests (tick : Nat) (receiver : L1Receiver)
  | sendResponses (tick : Nat) (receiver : L1Receiver)

def L1Call.tick : L1Call → Nat
  | sendRequest tick _ _ | receiveResponse tick _ | advance tick | receiveRequests tick _ | sendResponses tick _ => tick

inductive L1Reply where
  | sent (accepted : Bool)
  | response (response : Option L1Response)
  | cycle (cycle : L1Cycle)
  | requests (cycle : L1RequestCycle)
  | responses (cycle : L1ResponseCycle)

def exec : L1Call → L1CallOf L1Reply
  | .sendRequest tick port request => fun s => reply .sent (sendRequest tick port request s)
  | .receiveResponse tick port => fun s => reply .response (receiveResponse tick port s)
  | .advance tick => fun s => reply .cycle (advance tick s)
  | .receiveRequests tick receiver => fun s => reply .requests (receiveRequests tick receiver s)
  | .sendResponses tick receiver => fun s => reply .responses (sendResponses tick receiver s)

end L1Transport

end AscendEmulator.C220.Memory
