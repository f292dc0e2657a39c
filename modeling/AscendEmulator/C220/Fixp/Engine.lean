/-
  AscendEmulator.C220.Fixp.Engine — the command queues of the FIX engine (`C220FixpEngine`): four kinds
  of commands, one retirement order, and the configuration the outstanding FIX commands share.

  The read, conversion and write pipelines are not modelled: what they answer is an argument of the call.
  Ids and ticks are `Nat`; an overflow of a tick is checked where the source checks it.
-/

import AscendEmulator.Lib.OrdMap
import AscendEmulator.Lib.Run

namespace AscendEmulator.C220.Fixp

open Lib (OrdMap checkedAdd reply)

/-! ## Commands -/

inductive Destination where
  | external | l1
  deriving DecidableEq

/-- Captured operand registers. -/
structure Descriptor where
  xt : UInt64
  xm : UInt64
  nd : UInt64
  deriving DecidableEq

namespace Descriptor

def columns (d : Descriptor) : Nat := ((d.xt >>> 4) &&& 4095).toNat

def rows (d : Descriptor) : Nat := (d.xt >>> 16).toUInt16.toNat

def conversionMode (d : Descriptor) : Nat := ((d.xm >>> 34) &&& 31).toNat

def activationMode (d : Descriptor) : Nat := ((d.xm >>> 39) &&& 7).toNat

def nzToNd (d : Descriptor) : Bool := d.xm &&& ((1 : UInt64) <<< 43) != 0

def ndCount (d : Descriptor) : Nat := d.nd.toUInt16.toNat

def isDisabled (d : Descriptor) : Bool := d.rows == 0 || d.columns == 0 || (d.nzToNd && d.ndCount == 0)

end Descriptor

/-- What the engine reads of a FIX command. -/
structure Command where
  descriptor : Descriptor
  control : UInt64
  deriving DecidableEq

/-- Configuration retained until retirement. -/
structure ResourceKey where
  destination : Destination
  conversion : Nat
  activation : Nat
  saturation : Bool
  deriving DecidableEq

def ResourceKey.new (command : Command) (destination : Destination) : ResourceKey where
  destination
  conversion := command.descriptor.conversionMode
  activation := command.descriptor.activationMode
  saturation := command.control &&& ((1 : UInt64) <<< 48) != 0

structure CommandState where
  command : Command
  destination : Destination
  admittedTick : Nat
  executedTick : Option Nat
  writeDispatchedTick : Option Nat
  deriving DecidableEq

/-- `C220FactorRequestCursor`, as far as the engine reads it. -/
structure FactorCursor where
  instructionId : Nat
  remaining : Nat

structure FactorCommandState where
  admittedTick : Nat
  dispatchedTick : Option Nat
  completedTick : Option Nat
  deriving DecidableEq

structure CrossCoreCommand where
  instructionId : Nat
  pc : UInt64
  word : UInt32
  payload : UInt64
  dispatchedTick : Nat
  readyTick : Nat
  deriving DecidableEq

structure CrossCoreReception where
  instructionId : Nat
  pc : UInt64
  tick : Nat
  word : UInt32
  payload : UInt64
  deriving DecidableEq

inductive EngineError where
  | controlTimeOverflow
  | commandOrder (id : Nat)
  | retirementOrder (id : Nat)
  | duplicateCommand (id : Nat)
  | unknownCommand (id : Nat)
  | notExecuted (id : Nat)
  | notDispatched (id : Nat)
  | factorIncomplete (id : Nat)
  | activation (mode : Nat)
  | datapath
  deriving DecidableEq

inductive Admission where
  | resourceConflict | readGenerationBusy | instructionFifoFull | active | disabledReady
  deriving DecidableEq

structure Retirement where
  instructionId : Nat
  tick : Nat
  deriving DecidableEq

/-- The part of the command that is read first, once per column block or per ND: none are left of an empty stream. -/
def Command.readBlocks (command : Command) : Nat :=
  if command.descriptor.isDisabled then 0
  else if command.descriptor.nzToNd then command.descriptor.ndCount
  else (command.descriptor.columns + 15) / 16

def Command.validateActivation (command : Command) : Except EngineError Unit :=
  let limit := match command.descriptor.conversionMode with
    | 1 => some 3
    | 12 | 13 => some 1
    | _ => none
  if !command.descriptor.isDisabled && limit.any (command.descriptor.activationMode > ·) then
    .error (.activation command.descriptor.activationMode)
  else .ok ()

/-! ## The engine -/

structure Engine where
  instructionFifoDepth : Nat
  commands : OrdMap Nat CommandState
  factorCommands : OrdMap Nat FactorCommandState
  controlCommands : OrdMap Nat Nat
  crossCoreCommands : OrdMap Nat CrossCoreCommand
  instructionFifo : List Nat
  retirementFifo : List Nat
  commandRetirement : List Nat
  writeCompletions : OrdMap Nat Nat
  lastRetirement : Option Retirement

/-- What the datapath answers to an admission: its generated batches, and whether it can take the new one. -/
structure Datapath where
  generatedBatches : Nat
  prepared : Except EngineError Unit

/-- A packet that the write pipeline dispatched. -/
inductive DispatchPacket where
  | write (id : Nat) (lastInInstruction : Bool)
  | external (id : Nat) (lastInInstruction : Bool)
  | factorRead (id : Nat) (lastInInstruction : Bool)
  deriving DecidableEq

namespace Engine

def new (depth : Nat) : Engine := ⟨depth, .empty, .empty, .empty, .empty, [], [], [], .empty, none⟩

def containsCommand (s : Engine) (id : Nat) : Bool :=
  s.commands.contains id || s.factorCommands.contains id || s.controlCommands.contains id ||
    s.crossCoreCommands.contains id

def commandRetirementHead (s : Engine) : Option Nat := s.commandRetirement.head?

def canRetireAt (s : Engine) (tick id : Nat) : Bool :=
  s.commandRetirementHead == some id && s.lastRetirement.all fun previous => decide (previous.tick < tick)

/-- The key of the newest unretired FIX command. -/
def activeResourceKey (s : Engine) : Option ResourceKey :=
  s.retirementFifo.getLast?.bind fun id =>
    (s.commands.get? id).map fun state => .new state.command state.destination

def resourceConflictFor (s : Engine) (command : Command) (destination : Destination) : Bool :=
  !command.descriptor.isDisabled &&
    s.activeResourceKey.any fun previous => previous != .new command destination

def admissionBackpressure (s : Engine) (datapath : Datapath) : Option Admission :=
  if datapath.generatedBatches ≠ 0 then some .readGenerationBusy
  else if s.instructionFifo.length ≥ s.instructionFifoDepth then some .instructionFifoFull
  else none

/-! ## Admission -/

def recordCommand (tick id : Nat) (command : Command) (destination : Destination) (s : Engine) : Engine :=
  let s := { s with
    commands := s.commands.insert id ⟨command, destination, tick, none, none⟩
    retirementFifo := s.retirementFifo ++ [id]
    commandRetirement := s.commandRetirement ++ [id] }
  if command.descriptor.isDisabled then { s with writeCompletions := s.writeCompletions.insert id tick }
  else { s with instructionFifo := s.instructionFifo ++ [id] }

/-- `admit_routed`; only `routed` commands have a read stream for NZ2ND. -/
def admitTo (routed : Bool) (tick id : Nat) (command : Command) (destination : Destination) (datapath : Datapath)
    (s : Engine) : Except EngineError Admission × Engine :=
  if s.containsCommand id then (.error (.duplicateCommand id), s)
  else if command.descriptor.isDisabled then (.ok .disabledReady, s.recordCommand tick id command destination)
  else if s.resourceConflictFor command destination then (.ok .resourceConflict, s)
  else
    match s.admissionBackpressure datapath with
    | some blocked => (.ok blocked, s)
    | none =>
      match command.validateActivation with
      | .error e => (.error e, s)
      | .ok () =>
        if command.descriptor.nzToNd ∧ !routed then (.error .datapath, s)
        else
          match datapath.prepared with
          | .error e => (.error e, s)
          | .ok () =>
            if command.readBlocks = 0 then (.ok .disabledReady, s)
            else (.ok .active, s.recordCommand tick id command destination)

/-- `C220FixpEngine::admit`: the destination is L1. -/
def admitFix (tick id : Nat) (command : Command) : Datapath → Engine → Except EngineError Admission × Engine :=
  admitTo false tick id command .l1

/-- `C220FixpRuntime::admit_routed`. -/
def admitRouted (tick id : Nat) (command : Command) (destination : Destination) :
    Datapath → Engine → Except EngineError Admission × Engine :=
  admitTo true tick id command destination

def admitFactorBatch (tick : Nat) (cursor : FactorCursor) (datapath : Datapath) (s : Engine) :
    Except EngineError Admission × Engine :=
  let id := cursor.instructionId
  if s.containsCommand id then (.error (.duplicateCommand id), s)
  else if cursor.remaining = 0 then
    (.ok .disabledReady, { s with
      factorCommands := s.factorCommands.insert id ⟨tick, none, some tick⟩
      commandRetirement := s.commandRetirement ++ [id] })
  else if !s.retirementFifo.isEmpty then (.ok .resourceConflict, s)
  else
    match s.admissionBackpressure datapath with
    | some blocked => (.ok blocked, s)
    | none =>
      match datapath.prepared with
      | .error e => (.error e, s)
      | .ok () =>
        (.ok .active, { s with
          factorCommands := s.factorCommands.insert id ⟨tick, none, none⟩
          instructionFifo := s.instructionFifo ++ [id]
          commandRetirement := s.commandRetirement ++ [id] })

def admitControl (tick id : Nat) (s : Engine) : Except EngineError Unit × Engine :=
  if s.containsCommand id then (.error (.duplicateCommand id), s)
  else
    match checkedAdd tick 1 with
    | none => (.error .controlTimeOverflow, s)
    | some ready => (.ok (), { s with
        controlCommands := s.controlCommands.insert id ready
        commandRetirement := s.commandRetirement ++ [id] })

def admitCrossCore (tick id : Nat) (pc : UInt64) (word : UInt32) (payload : UInt64) (s : Engine) :
    Except EngineError Unit × Engine :=
  if s.containsCommand id then (.error (.duplicateCommand id), s)
  else
    match checkedAdd tick 1 with
    | none => (.error .controlTimeOverflow, s)
    | some readyTick => (.ok (), { s with
        crossCoreCommands := s.crossCoreCommands.insert id ⟨id, pc, word, payload, tick, readyTick⟩
        commandRetirement := s.commandRetirement ++ [id] })

/-! ## Execution, dispatch and completion -/

/-- An accepted read of `id`, with what executing it gave: was it the last of the command? -/
def receiveL0c (tick : Nat) (accepted : Option (Nat × Except EngineError Bool)) (s : Engine) :
    Except EngineError Unit × Engine :=
  match accepted with
  | none => (.ok (), s)
  | some (id, event) =>
    match s.commands.get? id with
    | none => (.error (.unknownCommand id), s)
    | some state =>
      match event with
      | .error e => (.error e, s)
      | .ok false => (.ok (), s)
      | .ok true => (.ok (), { s with commands := s.commands.insert id { state with executedTick := some tick } })

def observeWriteDispatch (tick : Nat) (packet : DispatchPacket) (s : Engine) : Except EngineError Unit × Engine :=
  match packet with
  | .factorRead id true =>
    if s.instructionFifo.head? ≠ some id then (.error (.commandOrder id), s)
    else
      match s.factorCommands.get? id with
      | none => (.error (.unknownCommand id), s)
      | some state => (.ok (), { s with
          factorCommands := s.factorCommands.insert id { state with dispatchedTick := some tick }
          instructionFifo := s.instructionFifo.tail })
  | .write id true | .external id true =>
    if s.instructionFifo.head? ≠ some id then (.error (.commandOrder id), s)
    else
      match s.commands.get? id with
      | none => (.error (.unknownCommand id), s)
      | some state => (.ok (), { s with
          commands := s.commands.insert id { state with writeDispatchedTick := some tick }
          instructionFifo := s.instructionFifo.tail })
  | .factorRead _ false | .write _ false | .external _ false => (.ok (), s)

def completeFactorTransport (tick id : Nat) (s : Engine) : Except EngineError Unit × Engine :=
  match s.factorCommands.get? id with
  | none => (.error (.unknownCommand id), s)
  | some state =>
    if state.dispatchedTick.isNone then (.error (.notDispatched id), s)
    else (.ok (), { s with
      factorCommands := s.factorCommands.insert id { state with completedTick := some (state.completedTick.getD tick) } })

def completeWriteTransport (tick id : Nat) (s : Engine) : Except EngineError Unit × Engine :=
  match s.commands.get? id with
  | none => (.error (.unknownCommand id), s)
  | some state =>
    if state.writeDispatchedTick.isNone then (.error (.notDispatched id), s)
    else (.ok (), { s with
      writeCompletions := if s.writeCompletions.contains id then s.writeCompletions
        else s.writeCompletions.insert id tick })

/-! ## Retirement -/

/-- The head of the command queue leaves it. -/
def popRetired (tick id : Nat) (s : Engine) : Engine :=
  { s with commandRetirement := s.commandRetirement.tail, lastRetirement := some ⟨id, tick⟩ }

def retireReadyCrossCore (tick : Nat) (s : Engine) : Option CrossCoreReception × Engine :=
  match s.commandRetirementHead.bind fun id => (s.crossCoreCommands.get? id).map (id, ·) with
  | none => (none, s)
  | some (id, command) =>
    if tick < command.readyTick ∨ !s.canRetireAt tick id then (none, s)
    else (some ⟨id, command.pc, tick, command.word, command.payload⟩,
      popRetired tick id { s with crossCoreCommands := s.crossCoreCommands.erase id })

def retireReadyControl (tick : Nat) (s : Engine) : Option Nat × Engine :=
  match s.commandRetirementHead.bind fun id => (s.controlCommands.get? id).map (id, ·) with
  | none => (none, s)
  | some (id, ready) =>
    if tick < ready ∨ !s.canRetireAt tick id then (none, s)
    else (some id, popRetired tick id { s with controlCommands := s.controlCommands.erase id })

def retireFactor (tick id : Nat) (s : Engine) : Except EngineError FactorCommandState × Engine :=
  match s.factorCommands.get? id with
  | none => (.error (.unknownCommand id), s)
  | some state =>
    match state.completedTick with
    | none => (.error (.factorIncomplete id), s)
    | some done =>
      if !s.canRetireAt tick id ∨ done ≥ tick then (.error (.retirementOrder id), s)
      else (.ok state, popRetired tick id { s with factorCommands := s.factorCommands.erase id })

/-- The checks of a FIX command that is completed and at the head. -/
def retire (id : Nat) (s : Engine) : Except EngineError CommandState :=
  match s.commands.get? id with
  | none => .error (.unknownCommand id)
  | some state =>
    if !state.command.descriptor.isDisabled ∧ state.executedTick.isNone then .error (.notExecuted id)
    else if !state.command.descriptor.isDisabled ∧ state.writeDispatchedTick.isNone then .error (.notDispatched id)
    else if s.retirementFifo.head? ≠ some id ∨ s.commandRetirementHead ≠ some id then .error (.retirementOrder id)
    else .ok state

def takeReadyWrite (tick : Nat) (s : Engine) : Except EngineError (Option (Nat × CommandState)) × Engine :=
  match s.commandRetirementHead with
  | none => (.ok none, s)
  | some id =>
    if s.canRetireAt tick id ∧ (s.writeCompletions.get? id).any fun done => decide (done < tick) then
      match s.retire id with
      | .error e => (.error e, s)
      | .ok state => (.ok (some (id, state)), popRetired tick id { s with
          retirementFifo := s.retirementFifo.tail
          commands := s.commands.erase id
          writeCompletions := s.writeCompletions.erase id })
    else (.ok none, s)

/-! ## Calls -/

inductive Call where
  | admitFix (tick id : Nat) (command : Command) (datapath : Datapath)
  | admitRouted (tick id : Nat) (command : Command) (destination : Destination) (datapath : Datapath)
  | admitFactorBatch (tick : Nat) (cursor : FactorCursor) (datapath : Datapath)
  | admitControl (tick id : Nat)
  | admitCrossCore (tick id : Nat) (pc : UInt64) (word : UInt32) (payload : UInt64)
  | receiveL0c (tick : Nat) (accepted : Option (Nat × Except EngineError Bool))
  | observeWriteDispatch (tick : Nat) (packet : DispatchPacket)
  | completeFactorTransport (tick id : Nat)
  | completeWriteTransport (tick id : Nat)
  | retireReadyCrossCore (tick : Nat)
  | retireReadyControl (tick : Nat)
  | retireFactor (tick id : Nat)
  | takeReadyWrite (tick : Nat)

inductive Reply where
  | done
  | admission (answer : Admission)
  | crossCore (reception : Option CrossCoreReception)
  | control (id : Option Nat)
  | factor (state : FactorCommandState)
  | write (retired : Option (Nat × CommandState))
  deriving DecidableEq

def exec (c : Call) (s : Engine) : Except EngineError Reply × Engine :=
  match c with
  | .admitFix tick id command datapath => reply .admission (admitFix tick id command datapath s)
  | .admitRouted tick id command destination datapath =>
    reply .admission (admitRouted tick id command destination datapath s)
  | .admitFactorBatch tick cursor datapath => reply .admission (admitFactorBatch tick cursor datapath s)
  | .admitControl tick id => reply (fun _ => .done) (admitControl tick id s)
  | .admitCrossCore tick id pc word payload => reply (fun _ => .done) (admitCrossCore tick id pc word payload s)
  | .receiveL0c tick accepted => reply (fun _ => .done) (receiveL0c tick accepted s)
  | .observeWriteDispatch tick packet => reply (fun _ => .done) (observeWriteDispatch tick packet s)
  | .completeFactorTransport tick id => reply (fun _ => .done) (completeFactorTransport tick id s)
  | .completeWriteTransport tick id => reply (fun _ => .done) (completeWriteTransport tick id s)
  | .retireReadyCrossCore tick => let r := retireReadyCrossCore tick s; (.ok (.crossCore r.1), r.2)
  | .retireReadyControl tick => let r := retireReadyControl tick s; (.ok (.control r.1), r.2)
  | .retireFactor tick id => reply .factor (retireFactor tick id s)
  | .takeReadyWrite tick => reply .write (takeReadyWrite tick s)

end Engine

end AscendEmulator.C220.Fixp
