/-
  AscendEmulator.C220.Memory.TimedService — the timed memory behind the bus routes
  (`C220TimedMemory`).

  An advance refills the credits, schedules a DBID for every command that arrived, makes ready what
  is due, admits reads and then write data while fewer than `pendingLimit` responses are pending and
  the credits last, and makes ready once more. What is scheduled waits in groups by due tick.

  Ticks are `u64` and the counters `u32`; a call that panics (an empty pop, a transaction that is
  not there, a counter that leaves its range) returns `none`. `admitted`, `accepted`, `prepared` and
  `responded` are ghosts: what was admitted or scheduled, and what was made ready with the tick it
  was due; nothing reads them.
-/

import AscendEmulator.Lib.Run
import AscendEmulator.Lib.OrdMap
import AscendEmulator.Lib.Queue
import AscendEmulator.C220.Memory.BiuWrite

namespace AscendEmulator.C220.Memory

open Lib BiuWrite

structure MemoryLatency where
  minimum : Nat
  spread : Nat

def MemoryLatency.deterministicTicks (l : MemoryLatency) : Nat := (l.minimum + l.spread / 2) % u32

structure MemoryRegionTiming where
  read : MemoryLatency
  dbid : MemoryLatency
  completion : MemoryLatency

structure MemoryCredits where
  limit : Nat
  refill : Nat

structure MemoryReadAdmission where
  tick : Nat
  request : MemoryReadCommand

structure TimedMemoryConfig where
  pendingLimit : Nat
  creditPeriod : Nat
  ddrCredits : MemoryCredits
  l2ReadCredits : MemoryCredits
  l2WriteCredits : MemoryCredits
  ddr : MemoryRegionTiming
  l2 : MemoryRegionTiming
  l2Start : Nat
  l2Bytes : Nat

inductive TimedMemoryError where
  | timeOverflow
  | invalidCredits
  deriving DecidableEq, Repr

structure Transaction where
  region : Fin 2
  bytes : Nat

structure TimedMemory where
  config : TimedMemoryConfig
  /-- Shared DDR, L2 write, and L2 read byte credits. -/
  credits : Fin 3 → Nat
  creditEpoch : Nat
  pending : Nat
  commands : List MemoryWriteCommand
  data : List MemoryWriteTransfer
  reads : List MemoryReadCommand
  readAdmissions : List MemoryReadAdmission
  scheduledReads : OrdMap Nat (List MemoryReadBeat)
  readyReads : List MemoryReadReturn
  scheduled : Fin 2 → OrdMap Nat (List MemoryWriteId)
  ready : Fin 2 → List MemoryWriteTransfer
  transactions : OrdMap MemoryWriteId Transaction
  /-- ghost -/
  admitted : List MemoryReadAdmission
  /-- ghost -/
  accepted : Fin 2 → List (Nat × MemoryWriteId)
  /-- ghost -/
  prepared : List (Nat × MemoryReadReturn)
  /-- ghost -/
  responded : Fin 2 → List (Nat × MemoryWriteTransfer)

/-- A call that may panic. -/
abbrev ServiceCall := TimedMemory → Option (Except TimedMemoryError Unit × TimedMemory)

/-- Rust's `?` between two such calls. -/
def ServiceCall.andThen (c d : ServiceCall) : ServiceCall := fun m =>
  match c m with
  | none => none
  | some (.error e, m') => some (.error e, m')
  | some (.ok (), m') => d m'

namespace TimedMemory

/-- The pools in the order of `credits`. -/
def pool (config : TimedMemoryConfig) : Fin 3 → MemoryCredits
  | 0 => config.ddrCredits
  | 1 => config.l2WriteCredits
  | 2 => config.l2ReadCredits

def new (config : TimedMemoryConfig) (tick : Nat) : Except TimedMemoryError TimedMemory :=
  if ∃ i, 2 ^ 31 ≤ (pool config i).limit + (pool config i).refill then .error .invalidCredits
  else .ok
    { config, credits := fun i => (pool config i).limit, creditEpoch := tick / config.creditPeriod, pending := 0
      commands := [], data := [], reads := [], readAdmissions := [], scheduledReads := .empty, readyReads := []
      scheduled := fun _ => .empty, ready := fun _ => [], transactions := .empty
      admitted := [], accepted := fun _ => [], prepared := [], responded := fun _ => [] }

def region (m : TimedMemory) : Fin 2 → MemoryRegionTiming
  | 0 => m.config.ddr
  | 1 => m.config.l2

def addressRegion (m : TimedMemory) (address : Nat) : Fin 2 :=
  if m.config.l2Start ≤ address ∧ address < (m.config.l2Start + m.config.l2Bytes) % u32 then 1 else 0

/-- The pool of a region's reads. -/
def readPool : Fin 2 → Fin 3
  | 0 => 0
  | 1 => 2

/-- The pool of a region's writes. -/
def writePool : Fin 2 → Fin 3
  | 0 => 0
  | 1 => 1

/-! ## Pushes -/

def pushRead (tick : Nat) (request : MemoryReadCommand) : Call TimedMemory TimedMemoryError Unit := fun m =>
  match checkedAdd tick 1 with
  | none => (.error .timeOverflow, m)
  | some readyTick => (.ok (), { m with reads := m.reads ++ [{ request with readyTick }] })

def pushCommand (tick : Nat) (command : MemoryWriteCommand) : Call TimedMemory TimedMemoryError Unit := fun m =>
  match checkedAdd tick 1 with
  | none => (.error .timeOverflow, m)
  | some readyTick => (.ok (), { m with commands := m.commands ++ [{ command with readyTick }] })

def pushData (tick : Nat) (data : MemoryWriteTransfer) : Call TimedMemory TimedMemoryError Unit := fun m =>
  match checkedAdd tick 1 with
  | none => (.error .timeOverflow, m)
  | some readyTick => (.ok (), { m with data := m.data ++ [{ data with readyTick }] })

/-! ## Advance -/

/-- Every pool gets its refill for each epoch that passed, up to its limit. -/
def refill (m : TimedMemory) (elapsed epoch : Nat) : TimedMemory :=
  { m with
    credits := fun i => min (m.credits i + elapsed * (pool m.config i).refill) (pool m.config i).limit
    creditEpoch := epoch }

/-- A response of a write is scheduled. -/
def schedule (m : TimedMemory) (channel : Fin 2) (due : Nat) (tag : MemoryWriteId) : TimedMemory :=
  { m with
    scheduled := Function.update m.scheduled channel ((m.scheduled channel).extend due [tag])
    accepted := Function.update m.accepted channel (m.accepted channel ++ [(due, tag)]) }

/-- The commands that arrived, in order; `queue` is what waits. -/
def acceptCommands (tick : Nat) : List MemoryWriteCommand → ServiceCall
  | [], m => some (.ok (), m)
  | command :: rest, m =>
    if tick < command.readyTick then some (.ok (), m)
    else
      let region := m.addressRegion command.address
      match checkedAdd tick (m.region region).dbid.deterministicTicks with
      | none => some (.error .timeOverflow, m)
      | some due =>
        acceptCommands tick rest { m.schedule 0 due command.tag with
          transactions := m.transactions.insert command.tag ⟨region, command.bytes⟩
          commands := rest }

/-- The read groups that are due, in order of due tick. -/
def prepareReads (tick : Nat) : List (Nat × List MemoryReadBeat) → ServiceCall
  | [], m => some (.ok (), m)
  | (due, beats) :: rest, m =>
    if tick < due then some (.ok (), m)
    else
      match checkedAdd tick 1 with
      | none => some (.error .timeOverflow, m)
      | some readyTick =>
        if m.pending < beats.length % u32 then none
        else
          prepareReads tick rest { m with
            scheduledReads := m.scheduledReads.erase due
            pending := m.pending - beats.length % u32
            readyReads := m.readyReads ++ beats.map (⟨readyTick, ·⟩)
            prepared := m.prepared ++ beats.map fun beat => (due, ⟨readyTick, beat⟩) }

/-- The response groups of a channel that are due; only completions are counted as pending. -/
def prepareChannel (tick : Nat) (channel : Fin 2) : List (Nat × List MemoryWriteId) → ServiceCall
  | [], m => some (.ok (), m)
  | (due, tags) :: rest, m =>
    if tick < due then some (.ok (), m)
    else
      match checkedAdd tick 1 with
      | none => some (.error .timeOverflow, m)
      | some readyTick =>
        if channel = 1 ∧ m.pending < tags.length % u32 then none
        else
          prepareChannel tick channel rest { m with
            scheduled := Function.update m.scheduled channel ((m.scheduled channel).erase due)
            pending := if channel = 1 then m.pending - tags.length % u32 else m.pending
            ready := Function.update m.ready channel (m.ready channel ++ tags.map (⟨readyTick, ·⟩))
            responded := Function.update m.responded channel
              (m.responded channel ++ tags.map fun tag => (due, ⟨readyTick, tag⟩)) }

def prepare (tick : Nat) : ServiceCall :=
  ServiceCall.andThen (fun m => prepareReads tick m.scheduledReads.entries m) <|
  ServiceCall.andThen (fun m => prepareChannel tick 0 (m.scheduled 0).entries m)
    (fun m => prepareChannel tick 1 (m.scheduled 1).entries m)

/-- `bytes.div_ceil(128)`. -/
def beatCount (bytes : Nat) : Nat := (bytes + 127) / 128

def beatsOf (request : MemoryReadCommand) : List MemoryReadBeat :=
  (List.range (beatCount request.bytes)).map fun transactionId => ⟨request.tag, transactionId⟩

/-- Reads are admitted in order while responses may be added and the pool has more than they ask for. -/
def admitReads (tick : Nat) : List MemoryReadCommand → ServiceCall
  | [], m => some (.ok (), m)
  | request :: rest, m =>
    if m.config.pendingLimit ≤ m.pending ∨ tick < request.readyTick then some (.ok (), m)
    else
      let region := m.addressRegion request.address
      let pool := readPool region
      if m.credits pool ≤ request.bytes then some (.ok (), m)
      else
        match checkedAdd tick (m.region region).read.deterministicTicks with
        | none => some (.error .timeOverflow, m)
        | some due =>
          if u32 ≤ m.pending + beatCount request.bytes then none
          else
            admitReads tick rest { m with
              scheduledReads := m.scheduledReads.extend due (beatsOf request)
              pending := m.pending + beatCount request.bytes
              credits := Function.update m.credits pool (m.credits pool - request.bytes)
              readAdmissions := m.readAdmissions ++ [⟨tick, request⟩]
              admitted := m.admitted ++ [⟨tick, request⟩]
              reads := rest }

/-- Write data is admitted the same way, from the pool of its transaction. -/
def admitData (tick : Nat) : List MemoryWriteTransfer → ServiceCall
  | [], m => some (.ok (), m)
  | data :: rest, m =>
    if m.config.pendingLimit ≤ m.pending ∨ tick < data.readyTick then some (.ok (), m)
    else
      match m.transactions.get? data.tag with
      | none => none
      | some transaction =>
        let pool := writePool transaction.region
        if m.credits pool ≤ transaction.bytes then some (.ok (), m)
        else
          match checkedAdd tick (m.region transaction.region).completion.deterministicTicks with
          | none => some (.error .timeOverflow, m)
          | some due =>
            if u32 ≤ m.pending + 1 then none
            else
              admitData tick rest { m.schedule 1 due data.tag with
                credits := Function.update m.credits pool (m.credits pool - transaction.bytes)
                pending := m.pending + 1
                data := rest }

def advance (tick : Nat) : ServiceCall := fun m =>
  let epoch := tick / m.config.creditPeriod
  if epoch < m.creditEpoch then none
  else
    (ServiceCall.andThen (fun m => acceptCommands tick m.commands m) <|
      ServiceCall.andThen (prepare tick) <|
      ServiceCall.andThen (fun m => admitReads tick m.reads m) <|
      ServiceCall.andThen (fun m => admitData tick m.data m) (prepare tick))
      (refill { m with readAdmissions := [] } (epoch - m.creditEpoch) epoch)

/-! ## Responses -/

def readFront (m : TimedMemory) (tick : Nat) : Option MemoryReadBeat :=
  (m.readyReads.head?.filter fun head => decide (head.readyTick ≤ tick)).map (·.beat)

def popRead : ServiceCall := fun m =>
  match m.readyReads with
  | [] => none
  | _ :: rest => some (.ok (), { m with readyReads := rest })

def front (m : TimedMemory) (tick : Nat) (kind : ReturnKind) : Option MemoryWriteId :=
  ((m.ready kind.index).head?.filter fun head => decide (head.readyTick ≤ tick)).map (·.tag)

def pop (kind : ReturnKind) : ServiceCall := fun m =>
  match m.ready kind.index with
  | [] => none
  | response :: rest =>
    some (.ok (), { m with
      ready := Function.update m.ready kind.index rest
      transactions := if kind = .completion then m.transactions.erase response.tag else m.transactions })

/-! ## Calls -/

inductive ServiceOp where
  | pushRead (tick : Nat) (request : MemoryReadCommand)
  | pushCommand (tick : Nat) (command : MemoryWriteCommand)
  | pushData (tick : Nat) (data : MemoryWriteTransfer)
  | advance (tick : Nat)
  | popRead
  | pop (kind : ReturnKind)

def exec : ServiceOp → ServiceCall
  | .pushRead tick request, m => some (pushRead tick request m)
  | .pushCommand tick command, m => some (pushCommand tick command m)
  | .pushData tick data, m => some (pushData tick data m)
  | .advance tick, m => advance tick m
  | .popRead, m => popRead m
  | .pop kind, m => pop kind m

end TimedMemory

/-! ## Callers -/

namespace TimedService

open TimedMemory

/-- How far a caller got with a write. -/
inductive Stage where
  | issued | granted | supplied
  deriving DecidableEq, Repr

/-- What the callers pushed, how far they got with each live write, and the tick of the last advance. -/
structure Ledger where
  reads : List MemoryReadCommand
  commands : List MemoryWriteId
  data : List MemoryWriteId
  stages : OrdMap MemoryWriteId Stage
  clock : Nat

def Ledger.new (tick : Nat) : Ledger := { reads := [], commands := [], data := [], stages := .empty, clock := tick }

/-- A write tag is not reused while it is live, its data is pushed once, after its DBID was popped,
    and ticks do not decrease; sizes are `u32`. -/
def Allowed (l : Ledger) : ServiceOp → Prop
  | .pushRead _ request => request.bytes < u32
  | .pushCommand _ command => l.stages.get? command.tag = none
  | .pushData _ data => l.stages.get? data.tag = some .granted
  | .advance tick => l.clock ≤ tick
  | .popRead => True
  | .pop _ => True

instance (l : Ledger) : ∀ op, Decidable (Allowed l op)
  | .pushRead _ request => inferInstanceAs (Decidable (request.bytes < u32))
  | .pushCommand _ command => inferInstanceAs (Decidable (l.stages.get? command.tag = none))
  | .pushData _ data => inferInstanceAs (Decidable (l.stages.get? data.tag = some .granted))
  | .advance tick => inferInstanceAs (Decidable (l.clock ≤ tick))
  | .popRead => .isTrue trivial
  | .pop _ => .isTrue trivial

/-- The tag that a pop takes. -/
def popped (m : TimedMemory) (kind : ReturnKind) : Option MemoryWriteId := (m.ready kind.index).head?.map (·.tag)

/-- The ledger after a call that returned `r`. -/
def Ledger.record (l : Ledger) (m : TimedMemory) (op : ServiceOp) (r : Except TimedMemoryError Unit) : Ledger :=
  match op, r with
  | .advance tick, _ => { l with clock := tick }
  | _, .error _ => l
  | .pushRead tick request, .ok () => { l with reads := l.reads ++ [{ request with readyTick := tick + 1 }] }
  | .pushCommand _ command, .ok () =>
    { l with commands := l.commands ++ [command.tag], stages := l.stages.insert command.tag .issued }
  | .pushData _ data, .ok () => { l with data := l.data ++ [data.tag], stages := l.stages.insert data.tag .supplied }
  | .popRead, .ok () => l
  | .pop .dbid, .ok () => (popped m .dbid).elim l fun tag => { l with stages := l.stages.insert tag .granted }
  | .pop .completion, .ok () => (popped m .completion).elim l fun tag => { l with stages := l.stages.erase tag }

/-- The callers and the memory. -/
abbrev State := Ledger × TimedMemory

def step (op : ServiceOp) (s : State) : Option State :=
  (exec op s.2).map fun out => (s.1.record s.2 op out.1, out.2)

end TimedService

end AscendEmulator.C220.Memory
