/-
  AscendEmulator.C220.Memory.UbService — the Scalar and MTE ports of one UB, serviced after the Vector grants
  (`C220UbService`).

  Each port has an input, a response and a transport queue. Once one head is ready, an arbitration goes over the heads
  of all ports in priority order and grants banks block by block; a head whose blocks are all complete leaves.
-/

import AscendEmulator.Lib.Queue
import AscendEmulator.C220.Memory.UbBlock

namespace AscendEmulator.C220.Memory

open Lib

inductive UbServicePort where
  | scalarWrite | scalarRead | mteWrite0 | mteWrite1 | mteRead
  deriving DecidableEq, Repr

namespace UbServicePort

def all : List UbServicePort := [scalarWrite, scalarRead, mteWrite0, mteWrite1, mteRead]

def responseTicks : UbServicePort → Nat
  | scalarWrite => 0
  | scalarRead | mteWrite0 | mteWrite1 => 3
  | mteRead => 5

def isWrite : UbServicePort → Bool
  | scalarWrite | mteWrite0 | mteWrite1 => true
  | _ => false

end UbServicePort

/-- Vector activity before the arbitration of the same cycle. -/
structure UbVectorActivity where
  bankMask : Nat
  triggered : Bool
  writePending : Bool
  readPending : Bool

structure UbServiceRequest where
  id : Nat
  address : Nat
  bytes : Nat
  deriving DecidableEq, Repr

structure UbServiceBlock where
  block : UbBlock
  partialWrite : Bool
  progress : BlockProgress
  deriving DecidableEq, Repr

structure UbServiceEntry where
  request : UbServiceRequest
  receivedTick : Nat
  readyTick : Nat
  blocks : List UbServiceBlock
  deriving DecidableEq, Repr

structure UbServiceResponse where
  request : UbServiceRequest
  completionTick : Nat
  readyTick : Nat
  deriving DecidableEq, Repr

structure UbServiceDecision where
  port : UbServicePort
  requestId : Nat
  blockIndex : Nat
  bank : Nat
  granted : Bool
  secondGrant : Bool
  deriving DecidableEq, Repr

structure UbServiceCycle where
  tick : Nat
  higherPriorityBanks : Nat
  bankMask : Nat
  scalarWriteBlocked : Bool
  scalarReadBlocked : Bool
  decisions : List UbServiceDecision
  completed : List (UbServicePort × UbServiceResponse)
  deriving DecidableEq, Repr

inductive UbServiceError where
  | access (e : UbRequestError)
  | timeReversed (previous requested : Nat)
  | repeatedCallback (phase : String) (tick : Nat)
  | timeOverflow
  | duplicateRequest (id : Nat)
  deriving DecidableEq, Repr

structure UbService where
  scalarUsesVectorPorts : Bool
  inputs : UbServicePort → List UbServiceEntry
  responses : UbServicePort → List UbServiceResponse
  transport : UbServicePort → List UbServiceResponse
  observedTick : Option Nat
  arbitrationTick : Option Nat
  sendTick : Option Nat
  receiveTicks : UbServicePort → Option Nat
  responseTicks : UbServicePort → Option Nat

abbrev UbCallOf (α : Type) := Call UbService UbServiceError α

namespace UbService

def queueCapacity : Nat := 2

def requestTicks : Nat := 1

def transportTicks : Nat := 1

def new (scalarUsesVectorPorts : Bool) : UbService :=
  ⟨scalarUsesVectorPorts, fun _ => [], fun _ => [], fun _ => [], none, none, none, fun _ => none, fun _ => none⟩

def setScalarUsesVectorPorts (shared : Bool) (s : UbService) : UbService := { s with scalarUsesVectorPorts := shared }

def checkTime (s : UbService) (tick : Nat) : Except UbServiceError Unit :=
  match s.observedTick with
  | some previous => if tick < previous then .error (.timeReversed previous tick) else .ok ()
  | none => .ok ()

def checkCallback (s : UbService) (tick : Nat) (last : Option Nat) (phase : String) : Except UbServiceError Unit :=
  match s.checkTime tick with
  | .error e => .error e
  | .ok () => if last = some tick then .error (.repeatedCallback phase tick) else .ok ()

/-! ## Receive -/

def canReceive (s : UbService) (tick : Nat) (port : UbServicePort) : Bool :=
  decide (s.receiveTicks port ≠ some tick) && decide ((s.inputs port).length < queueCapacity)

def isPending (s : UbService) (port : UbServicePort) (id : Nat) : Bool :=
  (s.inputs port).any (·.request.id == id) || (s.responses port ++ s.transport port).any (·.request.id == id)

/-- The blocks of a request; the address of all ones has none. -/
def requestBlocks (request : UbServiceRequest) : Except UbRequestError (List UbBlock) :=
  if request.address = u64 - 1 then .ok [] else fromAccess request.address request.bytes

/-- Whether a write to the block also reads it. -/
def isPartialWrite (port : UbServicePort) (block : UbBlock) : Bool :=
  port.isWrite && (block.bytes != 32 || block.address % 32 != 0)

def newBlock (port : UbServicePort) (block : UbBlock) : UbServiceBlock := ⟨block, isPartialWrite port block, .waiting⟩

def receive (tick : Nat) (port : UbServicePort) (request : UbServiceRequest) : UbCallOf Bool := fun s =>
  match s.checkTime tick with
  | .error e => (.error e, s)
  | .ok () =>
    if s.isPending port request.id then (.error (.duplicateRequest request.id), s)
    else if !s.canReceive tick port then (.ok false, s)
    else
      match checkedAdd tick requestTicks with
      | none => (.error .timeOverflow, s)
      | some readyTick =>
        match requestBlocks request with
        | .error e => (.error (.access e), s)
        | .ok blocks =>
          (.ok true,
            { s with
              inputs := Function.update s.inputs port
                (s.inputs port ++ [⟨request, tick, readyTick, blocks.map (newBlock port)⟩])
              receiveTicks := Function.update s.receiveTicks port (some tick)
              observedTick := some tick })

/-! ## Arbitrate -/

/-- The head of a queue whose response, or whose second grant, would come after the last tick. -/
def headOverflows (tick : Nat) (port : UbServicePort) (queue : List UbServiceEntry) : Bool :=
  queue.head?.any fun entry => (checkedAdd tick port.responseTicks).isNone ||
    (entry.blocks.any (fun b => b.partialWrite && b.progress == .waiting) && (checkedAdd tick partialWriteTicks).isNone)

/-- The loop over the blocks of a head, from index `index` on, under the banks of `mask`. -/
def grantBlocks (tick : Nat) (port : UbServicePort) (requestId : Nat) :
    Nat → Nat → List UbServiceBlock → List UbServiceBlock × Nat × List UbServiceDecision
  | _, mask, [] => ([], mask, [])
  | index, mask, b :: blocks =>
    match b.progress.pendingGrant with
    | none =>
      let r := grantBlocks tick port requestId (index + 1) mask blocks
      (b :: r.1, r.2.1, r.2.2)
    | some secondGrant =>
      let bit := 1 <<< b.block.bank.id
      let granted := mask &&& bit == 0
      let r := grantBlocks tick port requestId (index + 1) (if granted then mask ||| bit else mask) blocks
      ((if granted then { b with progress := b.progress.grant tick b.partialWrite } else b) :: r.1, r.2.1,
        ⟨port, requestId, index, b.block.bank.id, granted, secondGrant⟩ :: r.2.2)

/-- The loop over the ports: each head that is not blocked asks for its banks. -/
def grantPorts (tick : Nat) (blocked : UbServicePort → Bool) :
    List UbServicePort → (UbServicePort → List UbServiceEntry) → Nat →
      (UbServicePort → List UbServiceEntry) × Nat × List UbServiceDecision
  | [], inputs, mask => (inputs, mask, [])
  | port :: ports, inputs, mask =>
    match inputs port with
    | [] => grantPorts tick blocked ports inputs mask
    | entry :: queue =>
      if blocked port then grantPorts tick blocked ports inputs mask
      else
        let g := grantBlocks tick port entry.request.id 0 mask entry.blocks
        let r := grantPorts tick blocked ports
          (Function.update inputs port ({ entry with blocks := g.1 } :: queue)) g.2.1
        (r.1, r.2.1, g.2.2 ++ r.2.2)

def finishBlock (tick : Nat) (b : UbServiceBlock) : UbServiceBlock := { b with progress := b.progress.finishTick tick }

/-- The check of a head for completion: what stays in the queue, and the response. -/
def completeHead (tick : Nat) (port : UbServicePort) : List UbServiceEntry → List UbServiceEntry × Option UbServiceResponse
  | [] => ([], none)
  | entry :: queue =>
    let blocks := entry.blocks.map (finishBlock tick)
    if blocks.all (·.progress.isComplete) then (queue, some ⟨entry.request, tick, tick + port.responseTicks⟩)
    else ({ entry with blocks } :: queue, none)

def arbitrate (tick : Nat) (vector : UbVectorActivity) : UbCallOf UbServiceCycle := fun s =>
  match s.checkCallback tick s.arbitrationTick "arbitrate" with
  | .error e => (.error e, s)
  | .ok () =>
    let cycle : UbServiceCycle :=
      { tick
        higherPriorityBanks := vector.bankMask
        bankMask := vector.bankMask
        scalarWriteBlocked := s.scalarUsesVectorPorts && vector.writePending
        scalarReadBlocked := s.scalarUsesVectorPorts && vector.readPending
        decisions := []
        completed := [] }
    if vector.triggered || UbServicePort.all.any (fun port => (s.inputs port).head?.any (·.readyTick ≤ tick)) then
      if UbServicePort.all.any fun port => headOverflows tick port (s.inputs port) then (.error .timeOverflow, s)
      else
        let blocked : UbServicePort → Bool := fun port =>
          (port == .scalarWrite && cycle.scalarWriteBlocked) || (port == .scalarRead && cycle.scalarReadBlocked)
        let g := grantPorts tick blocked UbServicePort.all s.inputs cycle.bankMask
        -- Completion checks follow all grants, each on its own port.
        let checked := fun port => completeHead tick port (g.1 port)
        (.ok { cycle with
            bankMask := g.2.1
            decisions := g.2.2
            completed := UbServicePort.all.filterMap fun port => (checked port).2.map fun response => (port, response) },
          { s with
            inputs := fun port => (checked port).1
            responses := fun port => s.responses port ++ (checked port).2.toList
            arbitrationTick := some tick
            observedTick := some tick })
    else (.ok cycle, { s with arbitrationTick := some tick, observedTick := some tick })

/-! ## Send and take -/

/-- The loop over the ports: it stops at the first one whose transport is full. -/
def sendPorts (readyTick : Nat) : List UbServicePort → UbService → List (UbServicePort × UbServiceResponse) × UbService
  | [], s => ([], s)
  | port :: ports, s =>
    match s.responses port with
    | [] => sendPorts readyTick ports s
    | response :: queue =>
      if (s.transport port).length = queueCapacity then ([], s)
      else
        let r := sendPorts readyTick ports
          { s with
            responses := Function.update s.responses port queue
            transport := Function.update s.transport port (s.transport port ++ [{ response with readyTick }]) }
        ((port, { response with readyTick }) :: r.1, r.2)

def sendResponses (tick : Nat) : UbCallOf (List (UbServicePort × UbServiceResponse)) := fun s =>
  match s.checkCallback tick s.sendTick "send" with
  | .error e => (.error e, s)
  | .ok () =>
    if UbServicePort.all.any fun port => (s.responses port).head?.any (·.readyTick ≤ tick) then
      match checkedAdd tick transportTicks with
      | none => (.error .timeOverflow, s)
      | some readyTick =>
        let r := sendPorts readyTick UbServicePort.all s
        (.ok r.1, { r.2 with sendTick := some tick, observedTick := some tick })
    else (.ok [], { s with sendTick := some tick, observedTick := some tick })

def takeResponse (tick : Nat) (port : UbServicePort) : UbCallOf (Option UbServiceResponse) := fun s =>
  match s.checkTime tick with
  | .error e => (.error e, s)
  | .ok () =>
    if s.responseTicks port = some tick then (.ok none, s)
    else
      match popFrontIf (fun head => decide (head.readyTick ≤ tick)) (s.transport port) with
      | none => (.ok none, { s with observedTick := some tick })
      | some (response, queue) =>
        (.ok (some response),
          { s with
            transport := Function.update s.transport port queue
            responseTicks := Function.update s.responseTicks port (some tick)
            observedTick := some tick })

/-! ## Calls -/

inductive UbCall where
  | receive (tick : Nat) (port : UbServicePort) (request : UbServiceRequest)
  | arbitrate (tick : Nat) (vector : UbVectorActivity)
  | sendResponses (tick : Nat)
  | takeResponse (tick : Nat) (port : UbServicePort)
  | setScalarUsesVectorPorts (shared : Bool)

inductive UbReply where
  | received (accepted : Bool)
  | cycle (cycle : UbServiceCycle)
  | sent (responses : List (UbServicePort × UbServiceResponse))
  | response (response : Option UbServiceResponse)
  | done

def exec : UbCall → UbCallOf UbReply
  | .receive tick port request => fun s => reply .received (receive tick port request s)
  | .arbitrate tick vector => fun s => reply .cycle (arbitrate tick vector s)
  | .sendResponses tick => fun s => reply .sent (sendResponses tick s)
  | .takeResponse tick port => fun s => reply .response (takeResponse tick port s)
  | .setScalarUsesVectorPorts shared => fun s => (.ok .done, s.setScalarUsesVectorPorts shared)

end UbService

end AscendEmulator.C220.Memory
