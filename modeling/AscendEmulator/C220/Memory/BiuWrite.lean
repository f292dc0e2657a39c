/-
  AscendEmulator.C220.Memory.BiuWrite — the write route through the core BIU
  (`C220BiuBusWrites`).

  Cache commands wait in two-slot inputs; one command a tick, cache ports first, is admitted
  while `outstanding` is below the limit. A transaction then goes through its phases: the
  command is sent, the DBID comes back, the data is sent, the completion comes back. Its
  credit is counted from the send of the command to the forwarding of the completion.

  A call that would hit an `unreachable!` of the source returns `none`. Ticks are `u64`;
  `outstanding` is a `u32` that wraps. `credits` is a ghost: the commands taken and the
  credits released, in order, and nothing reads it.
-/

import AscendEmulator.Lib.Run
import AscendEmulator.Lib.OrdMap
import AscendEmulator.Lib.Queue
import AscendEmulator.C220.Memory.TimedMemory

namespace AscendEmulator.C220.Memory

open Lib

namespace BiuWrite

inductive ReturnKind where
  | dbid | completion
  deriving DecidableEq, Repr

def ReturnKind.index : ReturnKind → Fin 2
  | .dbid => 0
  | .completion => 1

inductive Phase where
  | queued | commandSent | dbidQueued | dbidDelivered | dataQueued | dataSent | completionQueued
  deriving DecidableEq, Repr

structure CachePort where
  input : List MemoryWriteCommand
  capacities : Fin 2 → Nat
  returns : Fin 2 → List MemoryWriteTransfer

inductive Credit where
  | taken | released
  deriving DecidableEq, Repr

end BiuWrite

open BiuWrite

inductive BiuBusWriteError where
  | timeOverflow
  | invalidPhase (tag : MemoryWriteId)
  | invalidPort

structure BiuBusWrites where
  limit : Nat
  outstanding : Nat
  commands : List MemoryWriteCommand
  data : List MemoryWriteTransfer
  returns : Fin 2 → List MemoryWriteTransfer
  upstream : Fin 2 → List MemoryWriteTransfer
  phases : OrdMap MemoryWriteId Phase
  cachePorts : List CachePort
  nextCache : Nat
  lastAdmission : Option Nat
  lastReturn : Fin 2 → Option Nat
  lastCacheData : Option Nat
  lastCommandSend : Option Nat
  lastDataSend : Option Nat
  /-- ghost -/
  credits : List (Credit × MemoryWriteId)

abbrev WriteCallOf (α : Type) := Call BiuBusWrites BiuBusWriteError α

namespace BiuBusWrites

def new (limit : Nat) : BiuBusWrites :=
  { limit, outstanding := 0, commands := [], data := [], returns := fun _ => [], upstream := fun _ => []
    phases := .empty, cachePorts := [], nextCache := 0, lastAdmission := none, lastReturn := fun _ => none
    lastCacheData := none, lastCommandSend := none, lastDataSend := none, credits := [] }

def isIdle (s : BiuBusWrites) : Bool := s.phases.isEmpty && s.cachePorts.all fun port => port.input.isEmpty

def canReceiveCommand (s : BiuBusWrites) : Bool := decide (s.outstanding < s.limit)

def canAdmitCommand (s : BiuBusWrites) (tick : Nat) : Bool := s.canReceiveCommand && decide (s.lastAdmission ≠ some tick)

/-- The head of a queue, if it is ready. -/
def readyHead (tick : Nat) (queue : List MemoryWriteTransfer) : Option (MemoryWriteTransfer × List MemoryWriteTransfer) :=
  popFrontIf (fun head => decide (head.readyTick ≤ tick)) queue

/-! ## Admission -/

def pushCommand (tick : Nat) (command : MemoryWriteCommand) : WriteCallOf Unit := fun s =>
  if s.phases.contains command.tag then (.error (.invalidPhase command.tag), s)
  else
    match checkedAdd tick 1 with
    | none => (.error .timeOverflow, s)
    | some readyTick =>
      (.ok (), { s with
        phases := s.phases.insert command.tag .queued
        commands := s.commands ++ [{ command with readyTick }] })

/-- The endpoint head belongs to its port. -/
def ownsHead (port : Nat) (command : MemoryWriteCommand) : Bool :=
  match command.tag with
  | .cache source _ => source == port
  | .mte _ => false

def isMte (command : MemoryWriteCommand) : Bool :=
  match command.tag with
  | .mte _ => true
  | .cache _ _ => false

/-- The first ready cache head in round-robin order. -/
def selectCache (s : BiuBusWrites) (tick : Nat) (caches : List (Option MemoryWriteCommand)) : Option Nat :=
  ((List.range caches.length).map fun offset => (s.nextCache + offset) % caches.length).find? fun port =>
    (caches[port]?.getD none).any fun command => decide (command.readyTick ≤ tick)

def admitCommands (tick : Nat) (caches : List (Option MemoryWriteCommand)) (mte : Option MemoryWriteCommand) :
    WriteCallOf (Option MemoryWriteId) := fun s =>
  if caches.length ≠ s.cachePorts.length ∨ mte.any (fun command => !isMte command) then (.error .invalidPort, s)
  else if (caches.zipIdx.any fun c => c.1.any fun command => !ownsHead c.2 command) then (.error .invalidPort, s)
  else if s.lastAdmission = some tick ∨ !s.canReceiveCommand then (.ok none, s)
  else
    let selected := s.selectCache tick caches
    match (selected.bind fun port => caches[port]?.getD none).or
        (mte.filter fun command => decide (command.readyTick ≤ tick)) with
    | none => (.ok none, { s with lastAdmission := some tick })
    | some command =>
      (pushCommand tick command).bind (fun _ s => (.ok (some command.tag), { s with
        nextCache := selected.elim s.nextCache fun port => (port + 1) % caches.length
        lastAdmission := some tick })) s

def setPort (s : BiuBusWrites) (index : Nat) (port : CachePort) : BiuBusWrites :=
  { s with cachePorts := s.cachePorts.set index port }

def admitInputs (tick : Nat) (mte : Option MemoryWriteCommand) : WriteCallOf (Option MemoryWriteId) := fun s =>
  (admitCommands tick (s.cachePorts.map fun port => port.input.head?) mte).bind (fun selected s =>
    match selected with
    | some (.cache index _) =>
      match s.cachePorts[index]? with
      | none => (.ok selected, s)
      | some port => (.ok selected, s.setPort index { port with input := port.input.tail })
    | _ => (.ok selected, s)) s

def takeCommand (tick : Nat) (s : BiuBusWrites) : Option MemoryWriteCommand × BiuBusWrites :=
  if s.lastCommandSend = some tick then (none, s)
  else
    match popFrontIf (fun head => decide (head.readyTick ≤ tick)) s.commands with
    | none => (none, s)
    | some (command, commands) =>
      (some command, { s with
        commands
        phases := s.phases.insert command.tag .commandSent
        outstanding := wrappingSucc u32 s.outstanding
        lastCommandSend := some tick
        credits := s.credits ++ [(.taken, command.tag)] })

/-! ## Cache ports -/

def cacheCanSend (s : BiuBusWrites) (port : Nat) : Bool := s.cachePorts[port]?.any fun port => decide (port.input.length < 2)

def sendCacheCommand (tick : Nat) (command : MemoryWriteCommand) : WriteCallOf Bool := fun s =>
  match command.tag with
  | .mte _ => (.error .invalidPort, s)
  | .cache index _ =>
    match s.cachePorts[index]? with
    | none => (.error .invalidPort, s)
    | some port =>
      if s.phases.contains command.tag ∨
          (s.cachePorts.any fun port => port.input.any fun head => decide (head.tag = command.tag)) then
        (.error (.invalidPhase command.tag), s)
      else if !s.cacheCanSend index then (.ok false, s)
      else
        match checkedAdd tick 1 with
        | none => (.error .timeOverflow, s)
        | some readyTick =>
          (.ok true, s.setPort index { port with input := port.input ++ [{ command with readyTick }] })

def addCachePort (capacities : Fin 2 → Nat) : WriteCallOf Nat := fun s =>
  if !s.isIdle ∨ capacities 0 = 0 ∨ capacities 1 = 0 then (.error .invalidPort, s)
  else if s.cachePorts.length < u32 then
    (.ok s.cachePorts.length, { s with cachePorts := s.cachePorts ++ [⟨[], capacities, fun _ => []⟩] })
  else (.error .invalidPort, s)

/-! ## Data -/

def pushData (tick : Nat) (data : MemoryWriteTransfer) : WriteCallOf Unit := fun s =>
  if s.phases.get? data.tag ≠ some .dbidDelivered then (.error (.invalidPhase data.tag), s)
  else
    match checkedAdd tick 1 with
    | none => (.error .timeOverflow, s)
    | some readyTick =>
      (.ok (), { s with phases := s.phases.insert data.tag .dataQueued, data := s.data ++ [{ data with readyTick }] })

def takeData (tick : Nat) (s : BiuBusWrites) : Option MemoryWriteTransfer × BiuBusWrites :=
  if s.lastDataSend = some tick then (none, s)
  else
    match readyHead tick s.data with
    | none => (none, s)
    | some (data, rest) =>
      (some data, { s with data := rest, phases := s.phases.insert data.tag .dataSent, lastDataSend := some tick })

/-- Every port's first DBID, ready or not, from port `index` on, becomes queued data. -/
def queueCacheData (readyTick : Nat) : Nat → Nat → BiuBusWrites → BiuBusWrites
  | _, 0, s => s
  | index, ports + 1, s =>
    match s.cachePorts[index]? with
    | none => s
    | some port =>
      match port.returns 0 with
      | [] => queueCacheData readyTick (index + 1) ports s
      | response :: rest =>
        queueCacheData readyTick (index + 1) ports
          { s.setPort index { port with returns := Function.update port.returns 0 rest } with
            phases := s.phases.insert response.tag .dataQueued
            data := s.data ++ [{ response with readyTick }] }

def advanceCacheData (tick : Nat) (mteReady : Bool) : WriteCallOf Unit := fun s =>
  let ready := mteReady || s.cachePorts.any fun port => (port.returns 0).head?.any fun head => decide (head.readyTick ≤ tick)
  if !ready ∨ s.lastCacheData = some tick then (.ok (), s)
  else
    match checkedAdd tick 1 with
    | none => (.error .timeOverflow, s)
    | some readyTick => (.ok (), queueCacheData readyTick 0 s.cachePorts.length { s with lastCacheData := some tick })

/-! ## Returns -/

def expected : ReturnKind → Phase
  | .dbid => .commandSent
  | .completion => .dataSent

def next : ReturnKind → Phase
  | .dbid => .dbidQueued
  | .completion => .completionQueued

def receive (tick : Nat) (kind : ReturnKind) (tag : MemoryWriteId) : WriteCallOf Bool := fun s =>
  if s.phases.get? tag ≠ some (expected kind) then (.error (.invalidPhase tag), s)
  else
    match checkedAdd tick 1 with
    | none => (.error .timeOverflow, s)
    | some readyTick =>
      if (s.returns kind.index).length = 3 then (.ok false, s)
      else
        (.ok true, { s with
          returns := Function.update s.returns kind.index (s.returns kind.index ++ [⟨readyTick, tag⟩])
          phases := s.phases.insert tag (next kind) })

/-- The completion of a transaction is forwarded: its credit comes back. -/
def release (s : BiuBusWrites) (index : Fin 2) (tag : MemoryWriteId) : BiuBusWrites :=
  if index = 1 then
    { s with outstanding := wrappingPred u32 s.outstanding, credits := s.credits ++ [(.released, tag)] }
  else s

def popReturn (s : BiuBusWrites) (index : Fin 2) : BiuBusWrites :=
  { s with returns := Function.update s.returns index (s.returns index).tail }

/-- The ready head of a return channel goes to MTE or to its cache port, if there is room. -/
def forward (index : Fin 2) (readyTick : Nat) (response : MemoryWriteTransfer) : WriteCallOf Unit := fun s =>
  match response.tag with
  | .mte _ =>
    if (s.upstream index).length < 2 then
      (.ok (), ({ s.popReturn index with
        upstream := Function.update s.upstream index (s.upstream index ++ [{ response with readyTick }]) }
        ).release index response.tag)
    else (.ok (), s)
  | .cache port _ =>
    match s.cachePorts[port]? with
    | none => (.error .invalidPort, s)
    | some cache =>
      if (cache.returns index).length < cache.capacities index then
        (.ok (), ((s.popReturn index).setPort port { cache with
          returns := Function.update cache.returns index (cache.returns index ++ [{ response with readyTick }]) }
          ).release index response.tag)
      else (.ok (), s)

def advanceReturn (index : Fin 2) (tick readyTick : Nat) : WriteCallOf Unit := fun s =>
  if s.lastReturn index = some tick then (.ok (), s)
  else
    let s := { s with lastReturn := Function.update s.lastReturn index (some tick) }
    match (s.returns index).head?.filter fun head => decide (head.readyTick ≤ tick) with
    | none => (.ok (), s)
    | some response => forward index readyTick response s

def advance (tick : Nat) : WriteCallOf Unit := fun s =>
  match checkedAdd tick 1 with
  | none => (.error .timeOverflow, s)
  | some readyTick => (advanceReturn 0 tick readyTick).bind (fun _ => advanceReturn 1 tick readyTick) s

/-- The owner takes a response: a DBID is delivered, a completion ends the transaction. -/
def delivered (s : BiuBusWrites) (kind : ReturnKind) (tag : MemoryWriteId) : BiuBusWrites :=
  match kind with
  | .dbid => { s with phases := s.phases.insert tag .dbidDelivered }
  | .completion => { s with phases := s.phases.erase tag }

def takeReturn (tick : Nat) (kind : ReturnKind) (s : BiuBusWrites) : Option (Option Nat × BiuBusWrites) :=
  match readyHead tick (s.upstream kind.index) with
  | none => some (none, s)
  | some (response, rest) =>
    match response.tag with
    | .mte tag =>
      some (some tag, { s with upstream := Function.update s.upstream kind.index rest }.delivered kind response.tag)
    | .cache _ _ => none

def takeCacheReturn (tick index : Nat) (kind : ReturnKind) (s : BiuBusWrites) : Option MemoryWriteId × BiuBusWrites :=
  match s.cachePorts[index]? with
  | none => (none, s)
  | some port =>
    match readyHead tick (port.returns kind.index) with
    | none => (none, s)
    | some (response, rest) =>
      (some response.tag,
        (s.setPort index { port with returns := Function.update port.returns kind.index rest }).delivered kind response.tag)

/-! ## Calls -/

inductive WriteCall where
  | addCachePort (capacities : Fin 2 → Nat)
  | sendCacheCommand (tick : Nat) (command : MemoryWriteCommand)
  | admitInputs (tick : Nat) (mte : Option MemoryWriteCommand)
  | admitCommands (tick : Nat) (caches : List (Option MemoryWriteCommand)) (mte : Option MemoryWriteCommand)
  | takeCommand (tick : Nat)
  | pushData (tick : Nat) (data : MemoryWriteTransfer)
  | takeData (tick : Nat)
  | advanceCacheData (tick : Nat) (mteReady : Bool)
  | receive (tick : Nat) (kind : ReturnKind) (tag : MemoryWriteId)
  | advance (tick : Nat)
  | takeReturn (tick : Nat) (kind : ReturnKind)
  | takeCacheReturn (tick port : Nat) (kind : ReturnKind)

/-- The state after a call that did not panic, also one that returned an error. -/
def exec : WriteCall → BiuBusWrites → Option BiuBusWrites
  | .addCachePort capacities, s => some (addCachePort capacities s).2
  | .sendCacheCommand tick command, s => some (sendCacheCommand tick command s).2
  | .admitInputs tick mte, s => some (admitInputs tick mte s).2
  | .admitCommands tick caches mte, s => some (admitCommands tick caches mte s).2
  | .takeCommand tick, s => some (takeCommand tick s).2
  | .pushData tick data, s => some (pushData tick data s).2
  | .takeData tick, s => some (takeData tick s).2
  | .advanceCacheData tick mteReady, s => some (advanceCacheData tick mteReady s).2
  | .receive tick kind tag, s => some (receive tick kind tag s).2
  | .advance tick, s => some (advance tick s).2
  | .takeReturn tick kind, s => (takeReturn tick kind s).map (·.2)
  | .takeCacheReturn tick port kind, s => some (takeCacheReturn tick port kind s).2

end BiuBusWrites

end AscendEmulator.C220.Memory
