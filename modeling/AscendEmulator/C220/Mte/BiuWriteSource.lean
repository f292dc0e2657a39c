/-
  AscendEmulator.C220.Mte.BiuWriteSource — the source side of the BIU writes of a vector subcore
  (`C220BiuWriteSource`), connected to its UB read interface.

  A tag whose DBID arrived reads its packets, waits for as many completions, and becomes a data-ready event. Tags and
  ticks are `Nat`, packet and response counts too: they stay below 2³². A call that panics returns `Fault.panicked`.
-/

import AscendEmulator.Lib.Outcome
import AscendEmulator.C220.Mte.BiuWriteCommands
import AscendEmulator.C220.Mte.UbRead

namespace AscendEmulator.C220.Mte

open Lib

structure BiuWriteDataReady where
  readyTick : Nat
  request : BiuWriteSourceRequest
  deriving DecidableEq

inductive BiuWriteSourceEvent where
  | readPacket (fragment : UbReadFragment)
  | readComplete (tag remaining : Nat)
  | dataReady (data : BiuWriteDataReady)
  deriving DecidableEq

inductive BiuWriteSourceError where
  | duplicateTag (tag : Nat)
  | unexpectedDbid (tag : Nat)
  | timeOverflow
  | ubRead (e : UbReadError)
  deriving DecidableEq

/-! ## Packets -/

structure SourcePackets where
  tag : Nat
  address : UInt64
  remainingBytes : UInt32
  remainingPackets : Nat
  width : UInt32
  stride : Option UInt32
  deriving DecidableEq

namespace SourcePackets

def new (request : BiuWriteSourceRequest) (bandwidth : NonZeroU32) (gatherOffset : UInt32) : SourcePackets :=
  match request.gatherStride with
  | some stride =>
    let count := request.bytes >>> 6
    { tag := request.tag
      address := request.sourceAddress + gatherOffset.toUInt64
      remainingBytes := count * 64
      remainingPackets := count.toNat
      width := 64
      stride := some stride }
  | none =>
    let address := request.sourceAddress.toUInt32 &&& ~~~31
    let bytes := request.bytes + request.sourceAddress.toUInt32 - address
    { tag := request.tag
      address := address.toUInt64
      remainingBytes := bytes
      remainingPackets := (bytes.toNat + (bandwidth.val.toNat - 1)) / bandwidth.val.toNat
      width := bandwidth.val
      stride := none }

/-- The size of the next packet. -/
def bytes (p : SourcePackets) : UInt32 := min p.remainingBytes p.width

def head (p : SourcePackets) : UbReadFragment := ⟨p.tag, p.address, p.bytes, true⟩

def front (p : SourcePackets) : Option UbReadFragment := if p.remainingPackets ≠ 0 then some p.head else none

def pop (p : SourcePackets) : SourcePackets :=
  { p with
    remainingBytes := p.remainingBytes - p.bytes
    remainingPackets := p.remainingPackets - 1
    address := p.address + (p.stride.getD p.bytes).toUInt64 }

end SourcePackets

/-! ## The source -/

structure PendingRead where
  request : BiuWriteSourceRequest
  dbidReceived : Bool
  remainingResponses : Nat
  dataSent : Bool

structure BiuWriteSource where
  bandwidth : NonZeroU32
  pending : OrdMap Nat PendingRead
  ingress : List (Nat × Nat)
  egress : List (Nat × Nat)
  dataReady : List BiuWriteDataReady
  packets : Option SourcePackets
  gatherOffset : UInt32

/-- The source with its UB read interface. -/
structure BiuWriteReader where
  source : BiuWriteSource
  ub : UbReadInterface

abbrev BiuWriteSourceCallOf (α : Type) := Call BiuWriteReader (Fault BiuWriteSourceError) α

namespace BiuWriteSource

def new (bandwidth : NonZeroU32) : BiuWriteSource where
  bandwidth
  pending := .empty
  ingress := []
  egress := []
  dataReady := []
  packets := none
  gatherOffset := 0

def isIdle (s : BiuWriteSource) : Bool := s.pending.isEmpty

def register (request : BiuWriteSourceRequest) (s : BiuWriteSource) : Except BiuWriteSourceError BiuWriteSource :=
  if s.pending.contains request.tag then .error (.duplicateTag request.tag)
  else .ok { s with pending := s.pending.insert request.tag ⟨request, false, 0, false⟩ }

def receiveDbid (tick tag : Nat) (s : BiuWriteSource) : Except BiuWriteSourceError BiuWriteSource :=
  match (s.pending.get? tag).filter (!·.dbidReceived) with
  | none => .error (.unexpectedDbid tag)
  | some pending =>
    match checkedAdd tick 1 with
    | none => .error .timeOverflow
    | some readyTick =>
      .ok { s with
        pending := s.pending.insert tag { pending with dbidReceived := true }
        ingress := s.ingress ++ [(readyTick, tag)] }

/-- The packets of `tag` begin: its responses are counted, and a gather goes on from the last one. -/
def start (tag : Nat) (s : BiuWriteSource) : Option BiuWriteSource :=
  (s.pending.get? tag).map fun pending =>
    let packets := SourcePackets.new pending.request s.bandwidth s.gatherOffset
    { s with
      pending := s.pending.insert tag { pending with remainingResponses := packets.remainingPackets }
      gatherOffset :=
        match pending.request.gatherStride with
        | none => s.gatherOffset
        | some stride =>
          if pending.request.lastInInstruction then 0 else s.gatherOffset + stride * packets.remainingPackets.toUInt32
      packets := some packets }

/-- The source with the packets that `tag` has left; without any, the tag goes on to the egress. -/
def passed (next tag : Nat) (ingress : List (Nat × Nat)) (packets : SourcePackets) (s : BiuWriteSource) : BiuWriteSource :=
  if packets.front.isNone then { s with packets := none, ingress, egress := s.egress ++ [(next, tag)] }
  else { s with packets := some packets }

/-- `starting_source`: the tag that begins at `tick`. -/
def startingSource (tick : Nat) (s : BiuWriteSource) : Option Nat :=
  (s.ingress.head?.filter fun head => decide (head.1 ≤ tick) && s.packets.isNone).map (·.2)

def setSourceTail (tag : Nat) (tail : Bool) (s : BiuWriteSource) : Option BiuWriteSource :=
  (s.pending.get? tag).map fun pending =>
    { s with pending := s.pending.insert tag { pending with request := { pending.request with lastInInstruction := tail } } }

end BiuWriteSource

namespace BiuWriteReader

open BiuWriteSource

def new (bandwidth : NonZeroU32) : BiuWriteReader := ⟨.new bandwidth, .empty⟩

/-- The first half of `advance`: a packet of the first tag that waits. -/
def readPacket (tick : Nat) : BiuWriteSourceCallOf (List BiuWriteSourceEvent) := fun x =>
  match x.source.ingress with
  | [] => (.ok [], x)
  | (readyTick, tag) :: ingress =>
    if tick < readyTick then (.ok [], x)
    else
      match checkedAdd tick 1 with
      | none => (Outcome.fail .timeOverflow, x)
      | some next =>
        match (if x.source.packets.isNone then x.source.start tag else some x.source) with
        | none => (Outcome.panicked, x)
        | some source =>
          match source.packets with
          | none => (Outcome.panicked, { x with source })
          | some packets =>
            match packets.front with
            | none => (.ok [], { x with source := source.passed next tag ingress packets })
            | some fragment =>
              match UbReadInterface.push tick fragment x.ub with
              | (.error e, ub) => (Outcome.fail (.ubRead e), ⟨source, ub⟩)
              | (.ok false, ub) => (.ok [], ⟨source, ub⟩)
              | (.ok true, ub) => (.ok [.readPacket fragment], ⟨source.passed next tag ingress packets.pop, ub⟩)

/-- The second half of `advance`: a completion of the first tag that has read. -/
def readComplete (tick : Nat) : BiuWriteSourceCallOf (List BiuWriteSourceEvent) := fun x =>
  match x.source.egress with
  | [] => (.ok [], x)
  | (readyTick, tag) :: egress =>
    if tick < readyTick then (.ok [], x)
    else
      match checkedAdd tick 1 with
      | none => (Outcome.fail .timeOverflow, x)
      | some next =>
        match UbReadInterface.takeCompletion tick tag x.ub with
        | (.error e, ub) => (Outcome.fail (.ubRead e), { x with ub })
        | (.ok none, ub) => (.ok [], { x with ub })
        | (.ok (some _), ub) =>
          match x.source.pending.get? tag with
          | none => (Outcome.panicked, { x with ub })
          | some pending =>
            if pending.remainingResponses = 0 then (Outcome.panicked, { x with ub })
            else
              let remaining := pending.remainingResponses - 1
              let source := { x.source with
                pending := x.source.pending.insert tag { pending with remainingResponses := remaining } }
              if remaining = 0 then
                let data : BiuWriteDataReady := ⟨next, pending.request⟩
                (.ok [.readComplete tag remaining, .dataReady data],
                  ⟨{ source with egress, dataReady := x.source.dataReady ++ [data] }, ub⟩)
              else (.ok [.readComplete tag remaining], ⟨source, ub⟩)

def advance (tick : Nat) : BiuWriteSourceCallOf (List BiuWriteSourceEvent) :=
  Call.bind (readPacket tick) fun packets => Call.bind (readComplete tick) fun completions x =>
    (.ok (packets ++ completions), x)

def takeDataReady (tick : Nat) : BiuWriteSourceCallOf (Option BiuWriteDataReady) := fun x =>
  match popFrontIf (fun head => decide (head.readyTick ≤ tick)) x.source.dataReady with
  | none => (.ok none, x)
  | some (data, dataReady) =>
    match x.source.pending.get? data.request.tag with
    | none => (Outcome.panicked, { x with source := { x.source with dataReady } })
    | some pending =>
      (.ok (some data),
        { x with source := { x.source with
            dataReady
            pending := x.source.pending.insert data.request.tag { pending with dataSent := true } } })

def releaseResponse (tag : Nat) : BiuWriteSourceCallOf Unit := fun x =>
  match x.source.pending.get? tag with
  | none => (Outcome.panicked, x)
  | some pending =>
    let x := { x with source := { x.source with pending := x.source.pending.erase tag } }
    if pending.dataSent then (.ok (), x) else (Outcome.panicked, x)

/-! ## Calls -/

inductive BiuWriteSourceCall where
  | register (request : BiuWriteSourceRequest)
  | receiveDbid (tick tag : Nat)
  | setSourceTail (tick : Nat) (tail : Bool)
  | advance (tick : Nat)
  | takeDataReady (tick : Nat)
  | releaseResponse (tag : Nat)
  | send (tick : Nat)
  | takeRequest (tick : Nat)
  | receiveResponse (tick id : Nat)

inductive BiuWriteSourceReply where
  | done
  | events (events : List BiuWriteSourceEvent)
  | data (data : Option BiuWriteDataReady)
  | moved (request : Option UbReadRequest)
  | answered (request : UbReadRequest)

/-- A call on the source alone. -/
def onSource (r : Except BiuWriteSourceError BiuWriteSource) : BiuWriteSourceCallOf BiuWriteSourceReply := fun x =>
  match r with
  | .error e => (Outcome.fail e, x)
  | .ok source => (.ok .done, { x with source })

/-- A call on the interface alone. -/
def onUb {α : Type} (f : α → BiuWriteSourceReply) (c : UbReadInterface.CallOf α) : BiuWriteSourceCallOf BiuWriteSourceReply :=
  fun x =>
    match c x.ub with
    | (.error e, ub) => (Outcome.fail (.ubRead e), { x with ub })
    | (.ok a, ub) => (.ok (f a), { x with ub })

/-- `set_source_tail` on the tag that begins, if one does. -/
def tail (tick : Nat) (tail : Bool) : BiuWriteSourceCallOf BiuWriteSourceReply := fun x =>
  match x.source.startingSource tick with
  | none => (.ok .done, x)
  | some tag =>
    match x.source.setSourceTail tag tail with
    | none => (Outcome.panicked, x)
    | some source => (.ok .done, { x with source })

def exec : BiuWriteSourceCall → BiuWriteSourceCallOf BiuWriteSourceReply
  | .register request => fun x => onSource (x.source.register request) x
  | .receiveDbid tick tag => fun x => onSource (x.source.receiveDbid tick tag) x
  | .setSourceTail tick last => tail tick last
  | .advance tick => fun x => reply .events (advance tick x)
  | .takeDataReady tick => fun x => reply .data (takeDataReady tick x)
  | .releaseResponse tag => fun x => reply (fun _ => .done) (releaseResponse tag x)
  | .send tick => onUb .moved (UbReadInterface.send tick)
  | .takeRequest tick => onUb .moved (UbReadInterface.takeRequest tick)
  | .receiveResponse tick id => onUb .answered (UbReadInterface.receiveResponse tick id)

end BiuWriteReader

end AscendEmulator.C220.Mte
