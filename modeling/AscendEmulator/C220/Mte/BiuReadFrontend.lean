/-
  AscendEmulator.C220.Mte.BiuReadFrontend — the read requests of the BIU (`C220BiuReadFrontend`).

  Inputs of the subcores go one by one to be split, at the alignment of their source, and a piece is sent with a tag: a
  fresh one as long as there are any. A tag that was reserved for a piece that the transport refused waits for the next
  offer. Tags are `Nat`; a call that panics returns `Fault.panicked`. The prefetch counters are `Nat` too: less than 2^32
  prefetch requests are sent before they stop at half of `outstanding`.
-/

import AscendEmulator.Lib.Cuts
import AscendEmulator.C220.Mte.BiuSplit
import AscendEmulator.C220.Mte.BiuWriteCommands

namespace AscendEmulator.C220.Mte

open Lib
open BiuWriteCommands (cores selectCore)

structure BiuReadConfig where
  outstanding : NonZeroU32
  weights : BiuSubcore → UInt32

inductive BiuReadStall where
  | notReady | noTag | transportFull
  deriving DecidableEq

structure BiuReadSend where
  tick : Nat
  offered : Option BiuReadRequest
  stall : Option BiuReadStall

def BiuReadSend.sent (r : BiuReadSend) : Option BiuReadRequest := r.offered.filter fun _ => r.stall.isNone

structure BiuReadArbitration where
  tick : Nat
  eligible : BiuSubcore → Bool
  selected : Option BiuSubcore
  pendingSplitBlocked : Bool

inductive BiuReadError where
  | invalidNd2NzRequest
  | wrongDestination
  | timeReversed (previous requested : Nat)
  | repeatedCallback (phase : String) (tick : Nat)
  | timeOverflow
  | emptyInput
  | unknownTag (tag : Nat)
  deriving DecidableEq

namespace BiuReadInput

def bytes (i : BiuReadInput) : UInt32 := i.generated.request.bytes

/-- An ND2NZ request that its row slot, its order or its size rules out. -/
def invalidNd2Nz (i : BiuReadInput) : Bool :=
  match i.destination with
  | .nd2nz rowSlot =>
    rowSlot.any (fun row => decide (8 ≤ row)) || i.generated.outOfOrder || i.prefetch ||
      decide (i.generated.mode.splitBytes i.generated.request.sourceAddress i.bytes ≠ i.bytes)
  | _ => false

end BiuReadInput

namespace SplitRequests

def remaining (s : SplitRequests) : UInt32 := s.input.bytes - s.offset

/-- The pieces that are left: each has a byte at least. -/
def pieces (s : SplitRequests) : List (UInt32 × BiuReadInput) := Cuts.pieces next (fun s => s.remaining.toNat) s

end SplitRequests

structure QueuedInput where
  readyTick : Nat
  input : BiuReadInput

structure CurrentSplit where
  readyTick : Nat
  requests : SplitRequests

structure BiuReadFrontend where
  config : BiuReadConfig
  inputs : BiuSubcore → List QueuedInput
  current : List CurrentSplit
  weights : BiuSubcore → Int32
  reserved : Option Nat
  free : List Nat
  nextFresh : Nat
  outstanding : OrdMap Nat BiuReadRequest
  prefetchOutstanding : BiuSubcore → Nat
  observed : Option Nat
  arbitrated : Option Nat
  sendTick : Option Nat

abbrev BiuReadCallOf (α : Type) := Call BiuReadFrontend (Fault BiuReadError) α

namespace BiuReadFrontend

def new (config : BiuReadConfig) : BiuReadFrontend where
  config
  inputs := fun _ => []
  current := []
  weights := fun core => (config.weights core).toInt32
  reserved := none
  free := []
  nextFresh := 1
  outstanding := .empty
  prefetchOutstanding := fun _ => 0
  observed := none
  arbitrated := none
  sendTick := none

/-- `config.outstanding`: the tags are those from 1 up to it. -/
def tags (s : BiuReadFrontend) : Nat := s.config.outstanding.val.toNat

def isIdle (s : BiuReadFrontend) : Bool :=
  cores.all (fun core => (s.inputs core).isEmpty) && s.current.isEmpty && s.outstanding.isEmpty

def canPush (s : BiuReadFrontend) (core : BiuSubcore) : Bool := decide ((s.inputs core).length < 4)

def freeTagCount (s : BiuReadFrontend) : Nat := s.tags + 1 - s.nextFresh + s.free.length

def prefetchAllowed (s : BiuReadFrontend) (core : BiuSubcore) : Bool :=
  decide (s.prefetchOutstanding core < s.tags >>> (if core = .cube then 1 else 2))

def checkTime (s : BiuReadFrontend) (tick : Nat) : Option BiuReadError :=
  (s.observed.filter (tick < ·)).map (.timeReversed · tick)

def checkCallback (s : BiuReadFrontend) (tick : Nat) (previous : Option Nat) (phase : String) : Option BiuReadError :=
  (s.checkTime tick).or (if previous = some tick then some (.repeatedCallback phase tick) else none)

def push (tick : Nat) (input : BiuReadInput) : BiuReadCallOf Bool := fun s =>
  match s.checkTime tick with
  | some e => (Outcome.fail e, s)
  | none =>
    if input.invalidNd2Nz then (Outcome.fail .invalidNd2NzRequest, s)
    else if input.destination.subcore ≠ input.subcore then (Outcome.fail .wrongDestination, s)
    else if input.bytes = 0 then (Outcome.fail .emptyInput, s)
    else if !s.canPush input.subcore then (.ok false, s)
    else
      match checkedAdd tick 3 with
      | none => (Outcome.fail .timeOverflow, s)
      | some ready =>
        (.ok true,
          { s with
            inputs := Function.update s.inputs input.subcore (s.inputs input.subcore ++ [⟨ready, input⟩])
            observed := some tick })

/-! ### Arbitration -/

/-- Two pieces wait already. -/
def pendingSplitBlocked (s : BiuReadFrontend) : Bool :=
  decide (1 < ((s.current.flatMap (·.requests.pieces)).take 2).length)

def eligible (s : BiuReadFrontend) (tick : Nat) (core : BiuSubcore) : Bool :=
  (s.inputs core).head?.any fun entry =>
    decide (entry.readyTick ≤ tick) && (!entry.input.prefetch || s.prefetchAllowed core)

/-- The selected core pays what the eligible ones gain. -/
def reweighted (s : BiuReadFrontend) (eligible : BiuSubcore → Bool) (selected : BiuSubcore) : BiuSubcore → Int32 :=
  let gain := fun core => (s.config.weights core).toInt32
  let total := (cores.filter eligible).foldl (fun sum core => sum + gain core) 0
  let paid := Function.update s.weights selected (s.weights selected - total)
  fun core => if eligible core then paid core + gain core else paid core

/-- The core whose input is the next to be split. -/
def selection (s : BiuReadFrontend) (tick : Nat) : Option BiuSubcore :=
  if s.pendingSplitBlocked then none else selectCore (s.eligible tick) s.weights

/-- The input of the selected core goes on to be split. -/
def accept (tick : Nat) (core : BiuSubcore) : BiuReadCallOf Unit := fun s =>
  match checkedAdd tick 1 with
  | none => (Outcome.fail .timeOverflow, s)
  | some ready =>
    let weights := s.reweighted (s.eligible tick) core
    match s.inputs core with
    | [] => (Outcome.panicked, { s with weights })
    | entry :: queue =>
      (.ok (),
        { s with
          weights
          inputs := Function.update s.inputs core queue
          current := s.current ++ [⟨ready, ⟨entry.input, 0⟩⟩] })

def arbitrate (tick : Nat) : BiuReadCallOf BiuReadArbitration := fun s =>
  match s.checkCallback tick s.arbitrated "arbitration" with
  | some e => (Outcome.fail e, s)
  | none =>
    let accepted : BiuReadCallOf Unit := (s.selection tick).elim (fun s => (.ok (), s)) (accept tick)
    Call.bind accepted (fun _ s' =>
      (.ok ⟨tick, s.eligible tick, s.selection tick, s.pendingSplitBlocked⟩,
        { s' with arbitrated := some tick, observed := some tick })) s

/-! ### Sending -/

/-- The tag for the next piece stays reserved until the piece leaves. -/
def reserve (s : BiuReadFrontend) : BiuReadFrontend :=
  if s.reserved.isSome then s
  else if s.nextFresh ≤ s.tags then { s with reserved := some s.nextFresh, nextFresh := s.nextFresh + 1 }
  else { s with reserved := s.free.head?, free := s.free.tail }

/-- The transport takes a request, and the split goes on behind its piece. -/
def depart (request : BiuReadRequest) (current : List CurrentSplit) (s : BiuReadFrontend) : BiuReadFrontend :=
  let core := request.input.subcore
  { s with
    current
    reserved := none
    outstanding := s.outstanding.insert request.tag request
    prefetchOutstanding :=
      if request.input.prefetch then Function.update s.prefetchOutstanding core (s.prefetchOutstanding core + 1)
      else s.prefetchOutstanding }

/-- The first piece that waits is offered to the transport. -/
def offer (tick : Nat) (transportReady : Bool) : BiuReadCallOf (Option BiuReadRequest × Option BiuReadStall) := fun s =>
  match s.current with
  | [] => (.ok (none, none), s)
  | head :: current =>
    if tick < head.readyTick then (.ok (none, some .notReady), s)
    else
      let s := s.reserve
      match s.reserved with
      | none => (.ok (none, some .noTag), s)
      | some tag =>
        match head.requests.next with
        | none => (Outcome.panicked, s)
        | some ((byteOffset, input), rest) =>
          let request : BiuReadRequest := ⟨tag, byteOffset, input⟩
          if transportReady then
            (.ok (some request, none),
              s.depart request (if rest.next.isNone then current else ⟨head.readyTick, rest⟩ :: current))
          else (.ok (some request, some .transportFull), s)

def send (tick : Nat) (transportReady : Bool) : BiuReadCallOf BiuReadSend := fun s =>
  match s.checkCallback tick s.sendTick "send" with
  | some e => (Outcome.fail e, s)
  | none =>
    Call.bind (offer tick transportReady) (fun r s' =>
      (.ok ⟨tick, r.1, r.2⟩, { s' with sendTick := some tick, observed := some tick })) s

def releaseTag (tick tag : Nat) : BiuReadCallOf BiuReadRequest := fun s =>
  match s.checkTime tick with
  | some e => (Outcome.fail e, s)
  | none =>
    match s.outstanding.get? tag with
    | none => (Outcome.fail (.unknownTag tag), s)
    | some request =>
      (.ok request,
        { s with outstanding := s.outstanding.erase tag, free := s.free ++ [tag], observed := some tick })

/-! ### Calls -/

inductive BiuReadCall where
  | push (tick : Nat) (input : BiuReadInput)
  | arbitrate (tick : Nat)
  | send (tick : Nat) (transportReady : Bool)
  | releaseTag (tick tag : Nat)

inductive BiuReadReply where
  | pushed (accepted : Bool)
  | arbitrated (arbitration : BiuReadArbitration)
  | sent (send : BiuReadSend)
  | released (request : BiuReadRequest)

def exec : BiuReadCall → BiuReadCallOf BiuReadReply
  | .push tick input => fun s => reply .pushed (push tick input s)
  | .arbitrate tick => fun s => reply .arbitrated (arbitrate tick s)
  | .send tick transportReady => fun s => reply .sent (send tick transportReady s)
  | .releaseTag tick tag => fun s => reply .released (releaseTag tick tag s)

end BiuReadFrontend

end AscendEmulator.C220.Mte
