/-
  AscendEmulator.C220.Fixp.ExternalQueue — the output of a FIX instruction to external memory
  (`C220FixpExternalOutput`): bursts wait in a queue, the last of them may still grow, and the first is cut into packets.

  Addresses and offsets are `u64`; byte counts are `Nat` and wrap where the source's do.
-/

import AscendEmulator.C220.Mte.Uop
import AscendEmulator.Lib.Run

namespace AscendEmulator.C220.Fixp

open Lib Mte

def modeOfWord (value : UInt64) : DmaUopMode :=
  if value &&& 1 = 0 then .wide512
  else
    match ((value >>> 1) &&& 3).toNat with
    | 0 => .wide512
    | 1 => .wide256
    | 2 => .fixed128
    | _ => .unbounded

/-! ## Packet sizes -/

/-- `burst_sizes` by name. -/
structure ExternalOutputPolicy where
  large : Nat
  medium : Nat
  small : Nat
  burstControl : UInt64
  rowStrideBytes : Nat
  deriving DecidableEq

namespace ExternalOutputPolicy

def new (burstControl : UInt64) (rowStrideBytes : Nat) : ExternalOutputPolicy := ⟨512, 256, 128, burstControl, rowStrideBytes⟩

variable (p : ExternalOutputPolicy)

def mode : Nat := if p.burstControl &&& 1 = 0 then 0 else ((p.burstControl >>> 1) &&& 3).toNat

/-- The sizes from large to small, each with the last mode that has it. -/
def sizes : List (Nat × Nat) := [(p.large, 0), (p.medium, 1), (p.small, 2)]

def rowPacket (address : UInt64) (remaining : Nat) : Nat :=
  let offset := address.toNat % p.small
  if offset ≠ 0 then min remaining (p.small - offset)
  else
    let size := p.sizes.find? fun s => p.mode ≤ s.2 && s.1 ≤ remaining && address.toNat % s.1 == 0
    (size.map Prod.fst).getD remaining

/-- The size that an open burst must reach before a packet is cut off it. -/
def openLimit (address : UInt64) : Nat :=
  let offset := address.toNat % p.small
  if offset ≠ 0 then min (p.small - offset) 512
  else
    let size := p.sizes.find? fun s => s.1 ≤ 512 && p.mode ≤ s.2 && address.toNat % s.1 == 0
    (size.map Prod.fst).getD 512

def gatheredPacket (address : UInt64) (available : Nat) (closed : Bool) : Option Nat :=
  if closed then some (p.rowPacket address available)
  else if p.openLimit address ≤ available then some (p.openLimit address)
  else none

end ExternalOutputPolicy

/-! ## Stores -/

structure MteOutputFragment where
  instructionId : Nat
  requestId : Nat
  destinationAddress : UInt64
  bytes : Nat
  lastInUop : Bool
  lastInInstruction : Bool
  deriving DecidableEq

structure StoreWrite where
  token : Nat
  fragment : MteOutputFragment
  deriving DecidableEq

/-- `C220FixpStoreBuffer` -/
structure Stores where
  sequence : Nat
  available : Finset Nat
  deriving DecidableEq

/-- Tokens are `NonZeroU32`, one after the other. -/
def Stores.publish (s : Stores) (fragment : MteOutputFragment) : StoreWrite × Stores :=
  let token := max ((s.sequence + 1) % u32) 1
  (⟨token, fragment⟩, ⟨token, insert token s.available⟩)

/-! ## The queue -/

structure ExternalBurst where
  instructionId : Nat
  requestId : Nat
  address : UInt64
  bytes : Nat
  closed : Bool
  lastInInstruction : Bool
  gather : Bool
  rowBytes : Nat
  rowOffset : Nat
  secondChannelOffset : Option UInt64
  policy : ExternalOutputPolicy
  readyTick : Nat
  deriving DecidableEq

inductive ExternalOutputError where
  | timeReversed (previous requested : Nat)
  | repeatedPacket (tick : Nat)
  | timeOverflow
  deriving DecidableEq

structure ExternalWriteBatch where
  secondChannel : Option StoreWrite
  primary : StoreWrite
  deriving DecidableEq

structure ExternalOutput where
  bursts : List ExternalBurst
  observedTick : Option Nat
  packetTick : Option Nat
  deriving DecidableEq

namespace ExternalBurst

/-- An open burst takes in a fragment. -/
def extend (tail burst : ExternalBurst) : ExternalBurst :=
  { tail with
    bytes := (tail.bytes + burst.bytes) % u32
    closed := burst.closed
    lastInInstruction := burst.lastInInstruction }

variable (head : ExternalBurst)

/-- Where the next packet goes. -/
def packetAddress : UInt64 := if head.gather then head.address else head.address + head.rowOffset.toUInt64

/-- The size of the next packet, if there is one to take. -/
def packetBytes : Option Nat :=
  if head.gather then head.policy.gatheredPacket head.packetAddress head.bytes head.closed
  else if head.rowBytes ≤ head.rowOffset then none
  else some (head.policy.rowPacket head.packetAddress (head.rowBytes - head.rowOffset))

/-- The burst after a packet of `bytes`; a row that ends goes on to the next. -/
def taken (bytes : Nat) : ExternalBurst :=
  let left := (head.bytes + u32 - bytes) % u32
  if head.gather then { head with address := head.address + bytes.toUInt64, bytes := left }
  else if head.rowOffset + bytes = head.rowBytes then
    { head with rowOffset := 0, address := head.address + head.policy.rowStrideBytes.toUInt64, bytes := left }
  else { head with rowOffset := head.rowOffset + bytes, bytes := left }

/-- Whether a packet of `bytes` ends the burst. -/
def finishes (bytes : Nat) : Bool := head.closed && (head.taken bytes).bytes == 0

def packet (bytes : Nat) : MteOutputFragment where
  instructionId := head.instructionId
  requestId := head.requestId
  destinationAddress := head.packetAddress
  bytes
  lastInUop := true
  lastInInstruction := head.finishes bytes && head.lastInInstruction

end ExternalBurst

/-- The second channel's packet comes before the first's. -/
def publishBatch (fragment : MteOutputFragment) (second : Option UInt64) (stores : Stores) : ExternalWriteBatch × Stores :=
  match second with
  | none =>
    let (primary, stores) := stores.publish fragment
    (⟨none, primary⟩, stores)
  | some offset =>
    let (secondChannel, stores) := stores.publish { fragment with
      destinationAddress := fragment.destinationAddress + offset
      lastInInstruction := false }
    let (primary, stores) := stores.publish fragment
    (⟨some secondChannel, primary⟩, stores)

namespace ExternalOutput

def empty : ExternalOutput := ⟨[], none, none⟩

def append (bursts : List ExternalBurst) (burst : ExternalBurst) : List ExternalBurst :=
  match bursts.getLast? with
  | some tail => if tail.closed then bursts ++ [burst] else bursts.dropLast ++ [tail.extend burst]
  | none => [burst]

def observe (tick : Nat) : Call ExternalOutput ExternalOutputError Unit := fun s =>
  match s.observedTick with
  | some previous =>
    if tick < previous then (.error (.timeReversed previous tick), s) else (.ok (), { s with observedTick := some tick })
  | none => (.ok (), { s with observedTick := some tick })

/-- `receive` and `receive_columns`, with the burst that what they take from upstream makes, if it makes one. -/
def receive (tick : Nat) (burst : Option ExternalBurst) : Call ExternalOutput ExternalOutputError Unit :=
  (observe tick).bind fun _ s =>
    match checkedAdd tick 1 with
    | none => (.error .timeOverflow, s)
    | some readyTick =>
      match burst with
      | none => (.ok (), s)
      | some burst => (.ok (), { s with bursts := append s.bursts { burst with readyTick } })

/-- The head of the queue gives a packet if it is ready and large enough. -/
def takeHead (tick : Nat) (destinationReady : Bool) (s : ExternalOutput × Stores) :
    Option ExternalWriteBatch × ExternalOutput × Stores :=
  match s.1.bursts with
  | [] => (none, s)
  | head :: rest =>
    if !destinationReady || decide (tick < head.readyTick) then (none, s)
    else
      match head.packetBytes with
      | none => (none, s)
      | some bytes =>
        let (batch, stores) := publishBatch (head.packet bytes) head.secondChannelOffset s.2
        (some batch,
          { s.1 with bursts := if head.finishes bytes then rest else head.taken bytes :: rest }, stores)

def takeWrites (tick : Nat) (destinationReady : Bool) :
    Call (ExternalOutput × Stores) ExternalOutputError (Option ExternalWriteBatch) := fun s =>
  match observe tick s.1 with
  | (.error e, t) => (.error e, t, s.2)
  | (.ok (), t) =>
    if t.packetTick = some tick then (.error (.repeatedPacket tick), t, s.2)
    else
      let (batch, t) := takeHead tick destinationReady ({ t with packetTick := some tick }, s.2)
      (.ok batch, t)

/-! ## Runs -/

inductive Command where
  | receive (tick : Nat) (burst : Option ExternalBurst)
  | takeWrites (tick : Nat) (destinationReady : Bool)
  deriving DecidableEq

inductive Answer where
  | received
  | taken (batch : Option ExternalWriteBatch)
  deriving DecidableEq

def exec : Command → ExternalOutput × Stores → Except ExternalOutputError Answer × ExternalOutput × Stores
  | .receive tick burst, s =>
    let r := receive tick burst s.1
    (r.1.map fun _ => .received, r.2, s.2)
  | .takeWrites tick ready, s => reply .taken (takeWrites tick ready s)

end ExternalOutput

end AscendEmulator.C220.Fixp
