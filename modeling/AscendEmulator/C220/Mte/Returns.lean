/-
  AscendEmulator.C220.Mte.Returns — the returns of BIU reads (`C220BiuReadReturns`): the beats
  of a request are received into the reorder buffer (ROB), and read out in order once all are
  there.

  A request is tracked; its beats are received on two channels, each stored in one of two ROB
  ports; the last one queues the tag for ingress. An ordered request waits in line from when
  it is tracked, another one from its ingress. Selection makes the head of a line active, and
  ROB reads take the beats of the active tags until none is left: the output goes to egress,
  and from there, when its record is dropped, over an adapter to its destination.

  A call that would panic (an `expect`, an index without a record, a counter below 0)
  returns `none`. Ticks are `u64`. Ghosts, which nothing reads: in a record the beats
  accepted and drained, and whether it was read out; in the state the requests tracked, the
  outputs read out and the outputs that left, in order.
-/

import AscendEmulator.Lib.Run
import AscendEmulator.Lib.OrdMap
import AscendEmulator.C220.Mte.WriteAligner

namespace AscendEmulator.C220.Mte

open Lib

structure BiuReadBeat where
  tag : Nat
  transactionId : Nat
  deriving DecidableEq

structure BiuRobBeat where
  beat : BiuReadBeat
  port : Fin 2
  deriving DecidableEq

inductive BiuReturnError where
  | dedicatedEgressRequired
  | invalidNd2NzRequest
  | write (error : BiuWriteError)
  | timeReversed (previous requested : Nat)
  | repeatedCallback (phase : String) (tick : Nat)
  | timeOverflow
  | duplicateTag (tag : Nat)
  | excessResponse (tag : Nat)
  | prefetchUnsupported
  | zeroCapacity
  | emptyRequest
  | invalidPort (port : Nat)

inductive BiuWriteStall where
  | notReady | destinationFull

structure BiuWriteSend where
  tick : Nat
  core : BiuSubcore
  offered : Option BiuWriteFragment
  stall : Option BiuWriteStall
  consumed : Option BiuReadOutput

structure TimedTag where
  tag : Nat
  readyTick : Nat

structure Record where
  request : BiuReadRequest
  expected : Nat
  received : Nat
  transactions : List BiuRobBeat
  ingressReady : Bool
  /-- ghost -/
  accepted : List BiuRobBeat
  /-- ghost -/
  drained : List BiuRobBeat
  /-- ghost -/
  isRead : Bool

structure InstructionRequests where
  remaining : Nat
  tailSent : Bool

structure RoundRobin (n : Nat) where
  next : Fin n

namespace RoundRobin

variable {n : Nat} [NeZero n]

/-- The first eligible index from `next` on; the arbiter goes on behind it. -/
def select (r : RoundRobin n) (eligible : Fin n → Bool) : Option (Fin n × RoundRobin n) :=
  (((List.finRange n).map fun offset => r.next + offset).find? eligible).map fun selected => (selected, ⟨selected + 1⟩)

end RoundRobin

/-- `sort_unstable_by_key`, by transaction id: some sorted arrangement. -/
structure SortUnstable where
  sort : List BiuRobBeat → List BiuRobBeat
  perm : ∀ l, (sort l).Perm l
  sorted : ∀ l, (sort l).Pairwise fun a b => a.beat.transactionId ≤ b.beat.transactionId

/-- An output read out, with its subcore and the beats it was made of. -/
structure ReadOut where
  core : Fin 3
  output : BiuReadOutput
  accepted : List BiuRobBeat
  drained : List BiuRobBeat

structure BiuReadReturns where
  capacity : Nat
  groupVectors : Bool
  occupancy : Fin 2 → Nat
  records : OrdMap Nat Record
  instructions : OrdMap Nat InstructionRequests
  ingress : Fin 2 → List TimedTag
  order : Fin 3 → Fin 2 → List TimedTag
  active : Fin 3 → Option Nat
  activeReadyTick : Option Nat
  egress : Fin 3 → List BiuReadOutput
  adapters : Fin 3 → List BiuReadOutput
  aligners : Fin 5 → WriteAligner
  writePlans : Fin 3 → Option WritePlan
  receiveArbiter : RoundRobin 2
  coreArbiter : RoundRobin 3
  orderArbiters : Fin 3 → RoundRobin 2
  vectorArbiter : RoundRobin 2
  observedTick : Option Nat
  receiveTick : Option Nat
  ingressTicks : Fin 2 → Option Nat
  selectTick : Option Nat
  readTick : Option Nat
  egressTicks : Fin 3 → Option Nat
  sendTicks : Fin 3 → Option Nat
  /-- ghost -/
  tracks : List BiuReadRequest
  /-- ghost -/
  outputs : List ReadOut
  /-- ghost -/
  left : Fin 3 → List BiuReadOutput

abbrev ReturnCallOf (α : Type) := Call BiuReadReturns BiuReturnError α

namespace BiuReadReturns

/-- `outstanding` is a `NonZeroU32`, and `wrapping_shl` drops the bits above. -/
def new (outstanding : Nat) (groupVectors : Bool) (bandwidths : BiuWriteBandwidths) :
    Except BiuReturnError BiuReadReturns :=
  let capacity := outstanding * 2 ^ 9 % u32 / 2 / 2 ^ 7
  if capacity = 0 then .error .zeroCapacity
  else .ok {
    capacity, groupVectors, occupancy := fun _ => 0, records := .empty, instructions := .empty
    ingress := fun _ => [], order := fun _ _ => [], active := fun _ => none, activeReadyTick := none
    egress := fun _ => [], adapters := fun _ => [], aligners := fun i => .new (bandwidths.widths i)
    writePlans := fun _ => none, receiveArbiter := ⟨0⟩, coreArbiter := ⟨0⟩, orderArbiters := fun _ => ⟨0⟩
    vectorArbiter := ⟨0⟩, observedTick := none, receiveTick := none, ingressTicks := fun _ => none
    selectTick := none, readTick := none, egressTicks := fun _ => none, sendTicks := fun _ => none
    tracks := [], outputs := [], left := fun _ => [] }

def isIdle (s : BiuReadReturns) : Bool :=
  s.records.isEmpty && decide (∀ core, (s.adapters core).isEmpty) &&
    decide (∀ i, (s.aligners i).progress.instructionId.isNone)

def hasActiveTags (s : BiuReadReturns) : Bool := decide (∃ core, (s.active core).isSome)

def checkTime (s : BiuReadReturns) (tick : Nat) : Except BiuReturnError Unit :=
  match s.observedTick.filter fun previous => decide (tick < previous) with
  | some previous => .error (.timeReversed previous tick)
  | none => .ok ()

def checkCallback (s : BiuReadReturns) (tick : Nat) (previous : Option Nat) (phase : String) :
    Except BiuReturnError Unit :=
  match s.checkTime tick with
  | .error e => .error e
  | .ok () => if previous = some tick then .error (.repeatedCallback phase tick) else .ok ()

/-! ## Tracking -/

def validNd2Nz (request : BiuReadRequest) : Bool :=
  match request.input.destination with
  | .nd2nz rowSlot =>
    let generated := request.input.generated
    !(rowSlot.any (fun row => decide (8 ≤ row)) || generated.outOfOrder || request.byteOffset != 0 ||
      generated.mode.splitBytes generated.request.sourceAddress generated.request.bytes != generated.request.bytes)
  | _ => true

def track (tick : Nat) (request : BiuReadRequest) : ReturnCallOf Unit := fun s =>
  match s.checkTime tick with
  | .error e => (.error e, s)
  | .ok () =>
    if !validNd2Nz request then (.error .invalidNd2NzRequest, s)
    else if request.input.generated.request.bytes = 0 then (.error .emptyRequest, s)
    else if request.input.prefetch then (.error .prefetchUnsupported, s)
    else if request.input.destination.subcore ≠ request.input.subcore then (.error (.write .wrongSubcore), s)
    else if s.records.contains request.tag then (.error (.duplicateTag request.tag), s)
    else
      match checkedAdd tick 1 with
      | none => (.error .timeOverflow, s)
      | some readyTick =>
        let id := request.instructionId
        let instruction := s.instructions.getD id ⟨0, false⟩
        (.ok (), { s with
          records := s.records.insert request.tag
            { request, expected := request.beats, received := 0, transactions := [], ingressReady := false
              accepted := [], drained := [], isRead := false }
          order :=
            if request.outOfOrder then s.order
            else Function.update s.order request.core
              (Function.update (s.order request.core) 0 (s.order request.core 0 ++ [⟨request.tag, readyTick⟩]))
          instructions := s.instructions.insert id ⟨instruction.remaining + 1, request.input.generated.lastInInstruction⟩
          observedTick := some tick
          tracks := s.tracks ++ [request] })

/-! ## Receiving -/

def parity (beat : BiuReadBeat) : Fin 2 := if beat.transactionId % 2 = 0 then 0 else 1

def free (s : BiuReadReturns) (port : Fin 2) : Bool := decide (s.occupancy port < s.capacity)

/-- The ROB port each channel's head would go to, and the arbiter. -/
def receiveMapping (s : BiuReadReturns) (heads : Fin 2 → Option BiuReadBeat) :
    Option ((Fin 2 → Option (Fin 2)) × RoundRobin 2) :=
  match heads 0, heads 1 with
  | some a, some b =>
    if s.free 0 ∧ s.free 1 then
      if parity a ≠ parity b then some (fun channel => if channel = 0 then some (parity a) else some (parity b), s.receiveArbiter)
      else some (some, s.receiveArbiter)
    else
      match [0, 1].find? s.free with
      | none => some (fun _ => none, s.receiveArbiter)
      | some port =>
        (s.receiveArbiter.select fun _ => true).map fun r => (Function.update (fun _ => none) r.1 (some port), r.2)
  | _, _ =>
    some (fun channel => (heads channel).bind fun beat => [parity beat, parity beat + 1].find? s.free, s.receiveArbiter)

/-- A channel's head is checked against its record; `increments` counts the heads of a tag. -/
def checkHead (s : BiuReadReturns) (tick : Nat) (port : Option (Fin 2)) (head : Option BiuReadBeat)
    (increments : OrdMap Nat Nat) : Except BiuReturnError (OrdMap Nat Nat) :=
  match port, head with
  | some _, some beat =>
    match s.records.get? beat.tag with
    | none => .ok increments
    | some record =>
      let count := increments.getD beat.tag 0 + 1
      if record.expected < record.received + count then .error (.excessResponse beat.tag)
      else if record.request.input.destination.isNd2Nz ∧ checkedAdd tick 18 = none then .error .timeOverflow
      else .ok (increments.insert beat.tag count)
  | _, _ => .ok increments

/-- A channel's head is stored, if it has a port and a record; the last beat of a request
    queues its tag. -/
def acceptHead (sorter : SortUnstable) (tick : Nat) (port : Option (Fin 2)) (head : Option BiuReadBeat)
    (s : BiuReadReturns) : Bool × BiuReadReturns :=
  match port, head with
  | some port, some beat =>
    match s.records.get? beat.tag with
    | none => (false, s)
    | some record =>
      let received := record.received + 1
      let transactions := record.transactions ++ [⟨beat, port⟩]
      let readyTick := if record.request.input.destination.isNd2Nz then tick + 18 else tick + 2
      (true, { s with
        records := s.records.insert beat.tag { record with
          received
          transactions := if received = record.expected then sorter.sort transactions else transactions
          accepted := record.accepted ++ [⟨beat, port⟩] }
        occupancy := Function.update s.occupancy port (s.occupancy port + 1)
        ingress :=
          if received = record.expected then
            Function.update s.ingress port (s.ingress port ++ [⟨beat.tag, readyTick⟩])
          else s.ingress })
  | _, _ => (false, s)

def receive (sorter : SortUnstable) (tick : Nat) (heads : Fin 2 → Option BiuReadBeat) (s : BiuReadReturns) :
    Option (Except BiuReturnError (Fin 2 → Bool) × BiuReadReturns) :=
  match s.checkCallback tick s.receiveTick "receive" with
  | .error e => some (.error e, s)
  | .ok () =>
    match checkedAdd tick 2 with
    | none => some (.error .timeOverflow, s)
    | some _ =>
      (s.receiveMapping heads).map fun (mapping, arbiter) =>
        match (s.checkHead tick (mapping 0) (heads 0) .empty).bind (s.checkHead tick (mapping 1) (heads 1)) with
        | .error e => (.error e, s)
        | .ok _ =>
          let first := acceptHead sorter tick (mapping 0) (heads 0) { s with receiveArbiter := arbiter }
          let second := acceptHead sorter tick (mapping 1) (heads 1) first.2
          (.ok fun channel => if channel = 0 then first.1 else second.1,
            { second.2 with receiveTick := some tick, observedTick := some tick })

/-! ## Ingress -/

/-- The head of a port's queue is ready: an out-of-order request gets in line. -/
def ingressHead (port : Fin 2) (readyTick : Nat) (head : TimedTag) (s : BiuReadReturns) : Option BiuReadReturns := do
  let record ← s.records.get? head.tag
  let core := record.request.core
  some { s with
    records := s.records.insert head.tag { record with ingressReady := true }
    order :=
      if record.request.outOfOrder then
        Function.update s.order core (Function.update (s.order core) 1 (s.order core 1 ++ [⟨head.tag, readyTick⟩]))
      else s.order
    ingress := Function.update s.ingress port (s.ingress port).tail }

def ingressCall (tick port : Nat) (s : BiuReadReturns) : Option (Except BiuReturnError (Option Nat) × BiuReadReturns) :=
  if hp : port < 2 then
    let port : Fin 2 := ⟨port, hp⟩
    let done (s : BiuReadReturns) : BiuReadReturns :=
      { s with ingressTicks := Function.update s.ingressTicks port (some tick), observedTick := some tick }
    match s.checkCallback tick (s.ingressTicks port) "ingress" with
    | .error e => some (.error e, s)
    | .ok () =>
      match (s.ingress port).head?.filter fun head => decide (head.readyTick ≤ tick) with
      | none => some (.ok none, done s)
      | some head =>
        match checkedAdd tick 1 with
        | none => some (.error .timeOverflow, s)
        | some readyTick => (s.ingressHead port readyTick head).map fun s => (.ok (some head.tag), done s)
  else some (.error (.invalidPort port), s)

/-! ## Selection -/

/-- The head of a line may be selected. -/
def headEligible (s : BiuReadReturns) (tick : Nat) (core : Fin 3) (order : Fin 2) : Option Bool :=
  match (s.order core order).head? with
  | none => some false
  | some head =>
    if head.readyTick ≤ tick then (s.records.get? head.tag).map (·.ingressReady) else some false

def eligible (s : BiuReadReturns) (tick : Nat) (core : Fin 3) (order : Fin 2) : Bool :=
  (s.headEligible tick core order).getD false

/-- The requests for the core arbiter; grouped vectors are one. -/
def coreRequests (s : BiuReadReturns) (tick : Nat) (core : Fin 3) : Bool :=
  let cores core := s.eligible tick core 0 || s.eligible tick core 1
  if s.groupVectors then
    match core with
    | 0 => cores 0
    | 1 => cores 1 || cores 2
    | 2 => false
  else cores core

def selectedCore (s : BiuReadReturns) (chosen core : Fin 3) : Bool :=
  if s.groupVectors then decide ((chosen = 0 ∧ core = 0) ∨ (chosen = 1 ∧ 0 < core)) else decide (core = chosen)

/-- The line of a core that is served, and its arbiter. -/
def pick (s : BiuReadReturns) (tick : Nat) (chosen core : Fin 3) : Option (Fin 2 × RoundRobin 2) :=
  if s.selectedCore chosen core then (s.orderArbiters core).select (s.eligible tick core) else none

/-- The heads of the lines served become active. -/
def selectLines (tick readyTick : Nat) (chosen : Fin 3) (arbiter : RoundRobin 3) (s : BiuReadReturns) : BiuReadReturns :=
  { s with
    coreArbiter := arbiter
    orderArbiters := fun core => (s.pick tick chosen core).elim (s.orderArbiters core) (·.2)
    order := fun core => (s.pick tick chosen core).elim (s.order core)
      fun r => Function.update (s.order core) r.1 (s.order core r.1).tail
    active := fun core => (s.pick tick chosen core).bind fun r => (s.order core r.1).head?.map (·.tag)
    activeReadyTick := some readyTick }

def select (tick : Nat) (s : BiuReadReturns) :
    Option (Except BiuReturnError (Fin 3 → Option Nat) × BiuReadReturns) :=
  let done (s : BiuReadReturns) : BiuReadReturns := { s with selectTick := some tick, observedTick := some tick }
  match s.checkCallback tick s.selectTick "selection" with
  | .error e => some (.error e, s)
  | .ok () =>
    if s.hasActiveTags then some (.ok fun _ => none, done s)
    else
      match checkedAdd tick 1 with
      | none => some (.error .timeOverflow, s)
      | some readyTick =>
        if ∃ core order, (s.headEligible tick core order).isNone then none
        else
          match s.coreArbiter.select (s.coreRequests tick) with
          | none => some (.ok fun _ => none, done s)
          | some (chosen, arbiter) =>
            let m := selectLines tick readyTick chosen arbiter s
            some (.ok m.active, done m)

/-! ## ROB reads -/

def popBeat (tag : Nat) (s : BiuReadReturns) : Option (BiuRobBeat × BiuReadReturns) := do
  let record ← s.records.get? tag
  match record.transactions with
  | [] => none
  | beat :: rest =>
    if s.occupancy beat.port = 0 then none
    else
      some (beat, { s with
        records := s.records.insert tag { record with transactions := rest, drained := record.drained ++ [beat] }
        occupancy := Function.update s.occupancy beat.port (s.occupancy beat.port - 1) })

/-- The cube reads a beat, and the next one if it is in the other port. -/
def drainCube (s : BiuReadReturns) : Option (List BiuRobBeat × BiuReadReturns) :=
  match s.active 0 with
  | none => some ([], s)
  | some tag => do
    let (first, s) ← s.popBeat tag
    let record ← s.records.get? tag
    if record.transactions.head?.any fun beat => decide (beat.port ≠ first.port) then
      (s.popBeat tag).map fun r => ([first, r.1], r.2)
    else some ([first], s)

def frontPort (s : BiuReadReturns) (core : Fin 3) : Option (Fin 2) := do
  let tag ← s.active core
  let record ← s.records.get? tag
  record.transactions.head?.map (·.port)

/-- The vector cores that read a beat: on grouped vectors in one port, only one of the two. -/
def enabledVectors (s : BiuReadReturns) : Option ((Bool × Bool) × BiuReadReturns) :=
  if s.groupVectors ∧ (s.active 1).isSome ∧ (s.active 2).isSome then do
    let first ← s.frontPort 1
    let second ← s.frontPort 2
    if first = second then
      (s.vectorArbiter.select fun _ => true).map fun r =>
        ((decide (r.1 = 0), decide (r.1 = 1)), { s with vectorArbiter := r.2 })
    else some ((true, true), s)
  else some (((s.active 1).isSome, (s.active 2).isSome), s)

def drainVector (core : Fin 3) (enabled : Bool) (s : BiuReadReturns) : Option (List BiuRobBeat × BiuReadReturns) :=
  if enabled then do
    let tag ← s.active core
    let (beat, s) ← s.popBeat tag
    some ([beat], s)
  else some ([], s)

/-- An active tag with no beat left is read out. -/
def finishCore (readyTick : Nat) (core : Fin 3) (s : BiuReadReturns) : Option BiuReadReturns :=
  match s.active core with
  | none => some s
  | some tag => do
    let record ← s.records.get? tag
    if record.transactions.isEmpty then
      let id := record.request.instructionId
      let instruction ← s.instructions.get? id
      if instruction.remaining = 0 then none
      else
        let remaining := instruction.remaining - 1
        let lastInInstruction := decide (remaining = 0) && instruction.tailSent
        let output : BiuReadOutput := ⟨readyTick, record.request, lastInInstruction⟩
        some { s with
          instructions :=
            if lastInInstruction then s.instructions.erase id else s.instructions.insert id { instruction with remaining }
          egress := Function.update s.egress core (s.egress core ++ [output])
          active := Function.update s.active core none
          records := s.records.insert tag { record with isRead := true }
          outputs := s.outputs ++ [⟨core, output, record.accepted, record.drained⟩] }
    else some s

def readBeats (readyTick : Nat) (s : BiuReadReturns) : Option (List BiuRobBeat × BiuReadReturns) := do
  let (cube, s) ← s.drainCube
  let (enabled, s) ← s.enabledVectors
  let (vector0, s) ← s.drainVector 1 enabled.1
  let (vector1, s) ← s.drainVector 2 enabled.2
  let s ← s.finishCore readyTick 0
  let s ← s.finishCore readyTick 1
  let s ← s.finishCore readyTick 2
  some (cube ++ vector0 ++ vector1, s)

def read (tick : Nat) (s : BiuReadReturns) : Option (Except BiuReturnError (List BiuRobBeat) × BiuReadReturns) :=
  match s.checkCallback tick s.readTick "ROB read" with
  | .error e => some (.error e, s)
  | .ok () =>
    match checkedAdd tick 1 with
    | none => some (.error .timeOverflow, s)
    | some readyTick =>
      if s.activeReadyTick.any fun ready => decide (tick < ready) then
        some (.ok [], { s with readTick := some tick, observedTick := some tick })
      else
        (s.readBeats readyTick).map fun (drained, s) =>
          (.ok drained, { s with
            readTick := some tick
            activeReadyTick := if s.hasActiveTags then some readyTick else none
            observedTick := some tick })

/-! ## Egress -/

def egressCall (tick : Nat) (core : BiuSubcore) : ReturnCallOf (Option BiuReadOutput) := fun s =>
  let index := core.index
  let done (s : BiuReadReturns) : BiuReadReturns :=
    { s with egressTicks := Function.update s.egressTicks index (some tick), observedTick := some tick }
  match s.checkCallback tick (s.egressTicks index) "egress" with
  | .error e => (.error e, s)
  | .ok () =>
    match s.egress index with
    | [] => (.ok none, done s)
    | output :: rest =>
      if output.request.input.destination.alignerIndex.isNone then (.error .dedicatedEgressRequired, s)
      else if (s.adapters index).length < 2 ∧ output.readyTick ≤ tick then
        match checkedAdd tick 1 with
        | none => (.error .timeOverflow, s)
        | some readyTick =>
          let sent := { output with readyTick }
          (.ok (some sent), done { s with
            egress := Function.update s.egress index rest
            records := s.records.erase output.request.tag
            adapters := Function.update s.adapters index (s.adapters index ++ [sent])
            left := Function.update s.left index (s.left index ++ [output]) })
      else (.ok none, done s)

/-- The packets of the output at the head of an adapter, made when it is first sent. -/
def preparePlan (index : Fin 3) (output : BiuReadOutput) : ReturnCallOf WritePlan := fun s =>
  match s.writePlans index with
  | some plan => (.ok plan, s)
  | none =>
    match output.request.input.destination.alignerIndex with
    | none => (.error .dedicatedEgressRequired, s)
    | some aligner =>
      match (s.aligners aligner).plan output with
      | (.error e, a) => (.error (.write e), { s with aligners := Function.update s.aligners aligner a })
      | (.ok plan, a) =>
        (.ok plan, { s with
          aligners := Function.update s.aligners aligner a
          writePlans := Function.update s.writePlans index (some plan) })

/-- One packet is offered to the destination; the output is consumed with its last. -/
def sendPacket (result : BiuWriteSend) (index : Fin 3) (destinationReady : Bool) (plan : WritePlan) (s : BiuReadReturns) :
    BiuWriteSend × BiuReadReturns :=
  let sent := if plan.front.isSome ∧ destinationReady then plan.advance else plan
  let result := { result with
    offered := plan.front
    stall := if plan.front.isSome ∧ !destinationReady then some .destinationFull else none }
  if sent.front.isNone then
    ({ result with consumed := (s.adapters index).head? }, { s with
      adapters := Function.update s.adapters index (s.adapters index).tail
      writePlans := Function.update s.writePlans index none })
  else (result, { s with writePlans := Function.update s.writePlans index (some sent) })

def sendOutput (tick : Nat) (core : BiuSubcore) (destinationReady : Bool) : ReturnCallOf BiuWriteSend := fun s =>
  let index := core.index
  let result : BiuWriteSend := ⟨tick, core, none, none, none⟩
  let done (s : BiuReadReturns) : BiuReadReturns :=
    { s with sendTicks := Function.update s.sendTicks index (some tick), observedTick := some tick }
  match s.checkCallback tick (s.sendTicks index) "destination send" with
  | .error e => (.error e, s)
  | .ok () =>
    match s.adapters index with
    | [] => (.ok result, done s)
    | output :: _ =>
      if tick < output.readyTick then (.ok { result with stall := some .notReady }, done s)
      else
        (preparePlan index output).bind (fun plan s =>
          let r := sendPacket result index destinationReady plan s
          (.ok r.1, done r.2)) s

/-! ## Calls -/

inductive ReturnCall where
  | track (tick : Nat) (request : BiuReadRequest)
  | receive (tick : Nat) (heads : Fin 2 → Option BiuReadBeat)
  | ingress (tick port : Nat)
  | select (tick : Nat)
  | read (tick : Nat)
  | egress (tick : Nat) (core : BiuSubcore)
  | sendOutput (tick : Nat) (core : BiuSubcore) (destinationReady : Bool)

/-- The state after a call that did not panic, also one that returned an error. -/
def exec (sorter : SortUnstable) : ReturnCall → BiuReadReturns → Option BiuReadReturns
  | .track tick request, s => some (track tick request s).2
  | .receive tick heads, s => (receive sorter tick heads s).map (·.2)
  | .ingress tick port, s => (ingressCall tick port s).map (·.2)
  | .select tick, s => (select tick s).map (·.2)
  | .read tick, s => (read tick s).map (·.2)
  | .egress tick core, s => some (egressCall tick core s).2
  | .sendOutput tick core destinationReady, s => some (sendOutput tick core destinationReady s).2

end BiuReadReturns

end AscendEmulator.C220.Mte
