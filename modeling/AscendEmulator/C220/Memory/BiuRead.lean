/-
  AscendEmulator.C220.Memory.BiuRead — the read route through the core BIU
  (`C220BiuBusReads`).

  MTE and cache requests wait in their inputs, are admitted one a tick while `outstanding`
  is below the limit, and leave from the command queue when the memory side takes them.
  Beats come back on two channels and go up to MTE, where beat 0 releases the transaction's
  credit, or to a cache port, where each beat does.

  A call that would hit an `assert!` or `expect` of the source returns `none`. Ticks are
  `u64`; `outstanding` is a `u32` that wraps. `credits` is a ghost: the commands taken and
  the credits released, in order, and nothing reads it.
-/

import AscendEmulator.Lib.Run
import AscendEmulator.Lib.OrdMap
import AscendEmulator.Lib.Queue
import AscendEmulator.C220.Memory.TimedMemory

namespace AscendEmulator.C220.Memory

open Lib

inductive BiuBusReadError where
  | timeOverflow
  | invalidRequest (tag : MemoryReadId)
  | invalidPort
  | invalidResponse (beat : MemoryReadBeat)

namespace BiuRead

structure Transaction where
  expected : Nat
  sent : Bool
  received : Finset Nat
  delivered : Nat

structure CacheConfig where
  requestCapacity : Nat
  responseCapacity : Nat
  requestLatency : Nat
  responseLatency : Nat

structure CachePort where
  config : CacheConfig
  input : List MemoryReadCommand
  returns : List MemoryReadReturn

inductive CacheKind where
  | instruction | data
  deriving DecidableEq, Repr

def CacheKind.index : CacheKind → Fin 2
  | .instruction => 0
  | .data => 1

/-- The cache port a tag belongs to. -/
def endpoint : MemoryReadId → Option (Fin 2 × Nat)
  | .instructionCache port _ => some (0, port)
  | .dataCache port _ => some (1, port)
  | .mte _ => none

inductive Credit where
  | taken | released
  deriving DecidableEq, Repr

end BiuRead

open BiuRead

structure BiuBusReads where
  limit : Nat
  outstanding : Nat
  input : List MemoryReadCommand
  commands : List MemoryReadCommand
  returns : Fin 2 → List MemoryReadReturn
  upstream : Fin 2 → List MemoryReadReturn
  transactions : OrdMap MemoryReadId Transaction
  cachePorts : Fin 2 → List CachePort
  lastCache : Fin 2 → Option Nat
  lastAdmit : Option Nat
  lastReturn : Option Nat
  lastSend : Option Nat
  /-- ghost -/
  credits : List (Credit × MemoryReadId)

abbrev ReadCallOf (α : Type) := Call BiuBusReads BiuBusReadError α

namespace BiuBusReads

def new (limit : Nat) : BiuBusReads :=
  { limit, outstanding := 0, input := [], commands := [], returns := fun _ => [], upstream := fun _ => []
    transactions := .empty, cachePorts := fun _ => [], lastCache := fun _ => none, lastAdmit := none
    lastReturn := none, lastSend := none, credits := [] }

def isIdle (s : BiuBusReads) : Bool := s.transactions.isEmpty

def canPush (s : BiuBusReads) : Bool := decide (s.input.length < 2)

def fresh (bytes : Nat) : Transaction := { expected := (bytes + 127) / 128, sent := false, received := ∅, delivered := 0 }

/-! ## Requests -/

def push (tick : Nat) (request : MemoryReadCommand) (s : BiuBusReads) :
    Option (Except BiuBusReadError Unit × BiuBusReads) :=
  if (endpoint request.tag).isSome ∨ request.bytes = 0 ∨ s.transactions.contains request.tag then
    some (.error (.invalidRequest request.tag), s)
  else
    match checkedAdd tick 1 with
    | none => some (.error .timeOverflow, s)
    | some readyTick =>
      if s.canPush then
        some (.ok (), { s with
          transactions := s.transactions.insert request.tag (fresh request.bytes)
          input := s.input ++ [{ request with readyTick }] })
      else none

def setPort (s : BiuBusReads) (kind : Fin 2) (index : Nat) (port : CachePort) : BiuBusReads :=
  { s with cachePorts := Function.update s.cachePorts kind ((s.cachePorts kind).set index port) }

def cacheCanSend (s : BiuBusReads) (kind : CacheKind) (port : Nat) : Bool :=
  (s.cachePorts kind.index)[port]?.any fun port => decide (port.input.length < port.config.requestCapacity)

def addCachePort (kind : CacheKind) (config : CacheConfig) : ReadCallOf Nat := fun s =>
  if !s.isIdle then (.error .invalidPort, s)
  else
    let index := (s.cachePorts kind.index).length
    if index < u32 then
      (.ok index, { s with
        cachePorts := Function.update s.cachePorts kind.index (s.cachePorts kind.index ++ [⟨config, [], []⟩])
        lastCache := Function.update s.lastCache kind.index none })
    else (.error .invalidPort, s)

def sendCacheCommand (tick : Nat) (command : MemoryReadCommand) : ReadCallOf Bool := fun s =>
  match endpoint command.tag with
  | none => (.error .invalidPort, s)
  | some (kind, index) =>
    match (s.cachePorts kind)[index]? with
    | none => (.error .invalidPort, s)
    | some port =>
      if command.bytes = 0 ∨ s.transactions.contains command.tag then (.error (.invalidRequest command.tag), s)
      else if port.config.requestCapacity ≤ port.input.length then (.ok false, s)
      else
        match checkedAdd tick port.config.requestLatency with
        | none => (.error .timeOverflow, s)
        | some readyTick =>
          (.ok true, { s.setPort kind index { port with input := port.input ++ [{ command with readyTick }] } with
            transactions := s.transactions.insert command.tag (fresh command.bytes) })

/-! ## Admission -/

/-- The first port of a kind, of those at `indices`, whose head is ready. -/
def selectFrom (tick : Nat) (kind : Fin 2) (s : BiuBusReads) : List Nat → Option (MemoryReadCommand × BiuBusReads)
  | [] => none
  | index :: indices =>
    match (s.cachePorts kind)[index]? with
    | none => selectFrom tick kind s indices
    | some port =>
      match popFrontIf (fun head => decide (head.readyTick ≤ tick)) port.input with
      | some (command, input) =>
        some (command, { s.setPort kind index { port with input } with
          lastCache := Function.update s.lastCache kind (some index) })
      | none => selectFrom tick kind s indices

/-- The ports of a kind in round-robin order. -/
def rotation (s : BiuBusReads) (kind : Fin 2) : List Nat :=
  let count := (s.cachePorts kind).length
  let start := (s.lastCache kind).elim 0 fun last => (last + 1) % count
  (List.range count).map fun offset => (start + offset) % count

def selectCache (tick : Nat) (s : BiuBusReads) : Option (MemoryReadCommand × BiuBusReads) :=
  (selectFrom tick 0 s (s.rotation 0)).orElse fun _ => selectFrom tick 1 s (s.rotation 1)

def selectInput (tick : Nat) (s : BiuBusReads) : Option (MemoryReadCommand × BiuBusReads) :=
  (popFrontIf (fun head => decide (head.readyTick ≤ tick)) s.input).map fun r => (r.1, { s with input := r.2 })

def advanceInput (tick : Nat) : ReadCallOf Unit := fun s =>
  match checkedAdd tick 1 with
  | none => (.error .timeOverflow, s)
  | some readyTick =>
    if s.lastAdmit = some tick ∨ s.limit ≤ s.outstanding then (.ok (), s)
    else
      match (s.selectCache tick).orElse fun _ => s.selectInput tick with
      | none => (.ok (), s)
      | some (command, s) =>
        (.ok (), { s with lastAdmit := some tick, commands := s.commands ++ [{ command with readyTick }] })

def takeCommand (tick : Nat) (s : BiuBusReads) : Option (Option MemoryReadCommand × BiuBusReads) :=
  if s.lastSend = some tick then some (none, s)
  else
    match popFrontIf (fun head => decide (head.readyTick ≤ tick)) s.commands with
    | none => some (none, s)
    | some (command, commands) => do
      let transaction ← s.transactions.get? command.tag
      some (some command, { s with
        commands
        transactions := s.transactions.insert command.tag { transaction with sent := true }
        outstanding := wrappingSucc u32 s.outstanding
        lastSend := some tick
        credits := s.credits ++ [(.taken, command.tag)] })

/-! ## Responses -/

/-- The beat belongs to a transaction that was sent and has not had it yet. -/
def accepts (s : BiuBusReads) (beat : MemoryReadBeat) : Bool :=
  (s.transactions.get? beat.tag).any fun transaction =>
    transaction.sent && decide (beat.transactionId < transaction.expected) &&
      decide (beat.transactionId ∉ transaction.received)

/-- Queue an accepted head. -/
def acceptBeat (port : Fin 2) (readyTick : Nat) (beat : MemoryReadBeat) (s : BiuBusReads) : Option BiuBusReads := do
  let transaction ← s.transactions.get? beat.tag
  some { s with
    transactions := s.transactions.insert beat.tag
      { transaction with received := insert beat.transactionId transaction.received }
    returns := Function.update s.returns port (s.returns port ++ [⟨readyTick, beat⟩]) }

def acceptHead (port : Fin 2) (readyTick : Nat) (head : Option MemoryReadBeat) (accepted : Bool) (s : BiuBusReads) :
    Option BiuBusReads :=
  match head, accepted with
  | some beat, true => s.acceptBeat port readyTick beat
  | none, true => none
  | _, false => some s

def receive (tick : Nat) (heads : Fin 2 → Option MemoryReadBeat) (s : BiuBusReads) :
    Option (Except BiuBusReadError (Fin 2 → Bool) × BiuBusReads) :=
  match checkedAdd tick 1 with
  | none => some (.error .timeOverflow, s)
  | some readyTick =>
    let accepted (port : Fin 2) : Bool := (heads port).isSome && decide ((s.returns port).length < 3)
    match (heads 0).filter fun beat => !s.accepts beat with
    | some beat => some (.error (.invalidResponse beat), s)
    | none =>
      match (heads 1).filter fun beat => !s.accepts beat || (accepted 0 && decide (heads 0 = some beat)) with
      | some beat => some (.error (.invalidResponse beat), s)
      | none => do
        let s ← s.acceptHead 0 readyTick (heads 0) (accepted 0)
        let s ← s.acceptHead 1 readyTick (heads 1) (accepted 1)
        some (.ok accepted, s)

/-- One credit comes back: `outstanding` goes down, and wraps at 0. -/
def release (s : BiuBusReads) (tag : MemoryReadId) : BiuBusReads :=
  { s with outstanding := wrappingPred u32 s.outstanding, credits := s.credits ++ [(.released, tag)] }

def popReturn (s : BiuBusReads) (port : Fin 2) : BiuBusReads :=
  { s with returns := Function.update s.returns port (s.returns port).tail }

/-- The head of a channel goes up to MTE. Beat 0 releases the credit. -/
def forwardMteReturn (port : Fin 2) (tick readyTick : Nat) (s : BiuBusReads) : BiuBusReads :=
  if (s.upstream port).length < 2 then
    match popFrontIf (fun head => decide (head.readyTick ≤ tick)) (s.returns port) with
    | none => s
    | some (response, _) =>
      let up := { s.popReturn port with
        upstream := Function.update s.upstream port (s.upstream port ++ [{ response with readyTick }]) }
      if response.beat.transactionId = 0 then up.release response.beat.tag else up
  else s

/-- The head of a channel goes to its cache port, and releases the credit. -/
def forwardCacheReturn (busPort : Fin 2) (tick : Nat) : ReadCallOf Unit := fun s =>
  match (s.returns busPort).head?.filter fun head => decide (head.readyTick ≤ tick) with
  | none => (.ok (), s)
  | some response =>
    match endpoint response.beat.tag with
    | none => (.error .invalidPort, s)
    | some (kind, index) =>
      match (s.cachePorts kind)[index]? with
      | none => (.error .invalidPort, s)
      | some port =>
        if port.config.responseCapacity ≤ port.returns.length then (.ok (), s)
        else
          match checkedAdd tick port.config.responseLatency with
          | none => (.error .timeOverflow, s)
          | some readyTick =>
            (.ok (), ((s.setPort kind index { port with returns := port.returns ++ [{ response with readyTick }] }
              ).popReturn busPort).release response.beat.tag)

def advancePort (port : Fin 2) (tick readyTick : Nat) : ReadCallOf Unit := fun s =>
  if (s.returns port).head?.any fun head => (endpoint head.beat.tag).isSome then forwardCacheReturn port tick s
  else (.ok (), s.forwardMteReturn port tick readyTick)

def advanceReturns (tick : Nat) : ReadCallOf Unit := fun s =>
  match checkedAdd tick 1 with
  | none => (.error .timeOverflow, s)
  | some readyTick =>
    if s.lastReturn = some tick then (.ok (), s)
    else (advancePort 0 tick readyTick).bind (fun _ => advancePort 1 tick readyTick) { s with lastReturn := some tick }

def heads (s : BiuBusReads) (tick : Nat) (port : Fin 2) : Option MemoryReadBeat :=
  ((s.upstream port).head?.filter fun head => decide (head.readyTick ≤ tick)).map (·.beat)

/-! ## Delivery -/

/-- One more beat of the transaction is delivered; the last one ends it. -/
def deliverBeat (s : BiuBusReads) (beat : MemoryReadBeat) : Option BiuBusReads := do
  let transaction ← s.transactions.get? beat.tag
  if transaction.delivered + 1 = transaction.expected then
    some { s with transactions := s.transactions.erase beat.tag }
  else
    some { s with
      transactions := s.transactions.insert beat.tag { transaction with delivered := transaction.delivered + 1 } }

def consumePort (port : Fin 2) (accepted : Bool) (s : BiuBusReads) : Option BiuBusReads :=
  if accepted then
    match s.upstream port with
    | [] => none
    | head :: rest => deliverBeat { s with upstream := Function.update s.upstream port rest } head.beat
  else some s

def consume (accepted : Fin 2 → Bool) (s : BiuBusReads) : Option BiuBusReads :=
  (s.consumePort 0 (accepted 0)).bind fun s => s.consumePort 1 (accepted 1)

def takeCacheReturn (tick : Nat) (kind : CacheKind) (index : Nat) (s : BiuBusReads) :
    Option (Option MemoryReadBeat × BiuBusReads) :=
  match (s.cachePorts kind.index)[index]? with
  | none => some (none, s)
  | some port =>
    match popFrontIf (fun head => decide (head.readyTick ≤ tick)) port.returns with
    | none => some (none, s)
    | some (response, returns) =>
      (deliverBeat (s.setPort kind.index index { port with returns }) response.beat).map fun s => (some response.beat, s)

/-! ## Calls -/

inductive ReadCall where
  | addCachePort (kind : CacheKind) (config : CacheConfig)
  | push (tick : Nat) (request : MemoryReadCommand)
  | sendCacheCommand (tick : Nat) (command : MemoryReadCommand)
  | advanceInput (tick : Nat)
  | takeCommand (tick : Nat)
  | receive (tick : Nat) (heads : Fin 2 → Option MemoryReadBeat)
  | advanceReturns (tick : Nat)
  | consume (accepted : Fin 2 → Bool)
  | takeCacheReturn (tick : Nat) (kind : CacheKind) (port : Nat)

/-- The state after a call that did not panic, also one that returned an error. -/
def exec : ReadCall → BiuBusReads → Option BiuBusReads
  | .addCachePort kind config, s => some (addCachePort kind config s).2
  | .push tick request, s => (push tick request s).map (·.2)
  | .sendCacheCommand tick command, s => some (sendCacheCommand tick command s).2
  | .advanceInput tick, s => some (advanceInput tick s).2
  | .takeCommand tick, s => (takeCommand tick s).map (·.2)
  | .receive tick heads, s => (receive tick heads s).map (·.2)
  | .advanceReturns tick, s => some (advanceReturns tick s).2
  | .consume accepted, s => consume accepted s
  | .takeCacheReturn tick kind port, s => (takeCacheReturn tick kind port s).map (·.2)

end BiuBusReads

end AscendEmulator.C220.Memory
