/-
  AscendEmulator.C220.Mte.BiuWriteCommands — the write commands of the BIU (`C220BiuWriteCommands`).

  Inputs of the subcores go one by one into splits, a split is cut along its destination into commands, and a command
  takes a tag: a fresh one as long as there are any. The retirement record of an instruction counts its commands whose
  source has not started, and says whether the last one issued ends the instruction. Tags are `Nat`; a call that
  panics returns `Fault.panicked`.
-/

import AscendEmulator.Lib.OrdMap
import AscendEmulator.Lib.Outcome
import AscendEmulator.Lib.Queue
import AscendEmulator.C220.Mte.Uop

namespace AscendEmulator.C220.Mte

open Lib

structure BiuWriteConfig where
  outstanding : NonZeroU32
  weights : BiuSubcore → UInt32

structure BiuWriteInput where
  subcore : BiuSubcore
  generated : DmaGenerated
  gatherStride : Option UInt32
  storeToken : Option NonZeroU32
  deriving DecidableEq

namespace BiuWriteInput

def instructionId (i : BiuWriteInput) : Nat := i.generated.instructionId

def bytes (i : BiuWriteInput) : UInt32 := i.generated.request.bytes

def lastInInstruction (i : BiuWriteInput) : Bool := i.generated.lastInInstruction

/-- `bytes` bytes of an input, from `offset` on. -/
def piece (i : BiuWriteInput) (offset bytes : UInt32) : BiuWriteInput :=
  let original := i.generated.request
  let lastInBurst := original.lastInBurst && decide (offset + bytes = original.bytes)
  { i with generated := { i.generated with
      request := { original with
        sourceAddress := original.sourceAddress + offset.toUInt64
        destinationAddress := original.destinationAddress + offset.toUInt64
        bytes
        lastInBurst }
      lastInInstruction := i.generated.lastInInstruction && lastInBurst } }

end BiuWriteInput

structure BiuWriteCommand where
  tag : Nat
  byteOffset : UInt32
  input : BiuWriteInput
  deriving DecidableEq

structure BiuWriteSourceRequest where
  tag : Nat
  instructionId : Nat
  sourceAddress : UInt64
  bytes : UInt32
  gatherStride : Option UInt32
  lastInInstruction : Bool
  deriving DecidableEq

def BiuWriteCommand.sourceRequest (c : BiuWriteCommand) : BiuWriteSourceRequest where
  tag := c.tag
  instructionId := c.input.instructionId
  sourceAddress := c.input.generated.request.sourceAddress
  bytes := c.input.bytes
  gatherStride := c.input.gatherStride
  lastInInstruction := c.input.lastInInstruction

structure BiuWriteCommandTransfer where
  readyTick : Nat
  command : BiuWriteCommand

inductive BiuWriteCommandStall where
  | notReady | noTag | transportFull
  deriving DecidableEq

structure BiuWriteCommandCycle where
  tick : Nat
  eligible : BiuSubcore → Bool
  selected : Option BiuSubcore
  splitBlocked : Bool
  /-- An input that was consumed without a transaction. -/
  emptyInput : Option BiuWriteInput
  sent : Option BiuWriteCommand
  stall : Option BiuWriteCommandStall

inductive BiuWriteCommandError where
  | timeReversed (previous requested : Nat)
  | repeatedTick (tick : Nat)
  | timeOverflow
  | invalidSource
  | unknownTag (tag : Nat)
  deriving DecidableEq

/-! ## Splits -/

structure Split where
  readyTick : Nat
  input : BiuWriteInput
  offset : UInt32

namespace Split

def remaining (s : Split) : UInt32 := s.input.bytes - s.offset

def next (s : Split) : Option ((UInt32 × BiuWriteInput) × Split) :=
  if s.remaining = 0 then none
  else
    let destination := s.input.generated.request.destinationAddress + s.offset.toUInt64
    let bytes := s.input.generated.mode.splitBytes destination s.remaining
    some ((s.offset, s.input.piece s.offset bytes), { s with offset := s.offset + bytes })

/-- The pieces that are left, when there are at most `fuel`. -/
def collect : Nat → Split → List (UInt32 × BiuWriteInput)
  | 0, _ => []
  | fuel + 1, s =>
    match s.next with
    | none => []
    | some (piece, rest) => piece :: collect fuel rest

/-- The pieces that are left: each has a byte at least. -/
def pieces (s : Split) : List (UInt32 × BiuWriteInput) := s.collect s.remaining.toNat

end Split

/-! ## The commands -/

structure Issued where
  command : BiuWriteCommand
  delivered : Bool
  dbidReceived : Bool
  sourceStarted : Bool

/-- The command of `i` as its source starts. -/
def Issued.ended (i : Issued) (last : Bool) : BiuWriteCommand :=
  { i.command with input := { i.command.input with generated := { i.command.input.generated with
      lastInInstruction := last } } }

structure BiuWriteCommands where
  config : BiuWriteConfig
  inputs : BiuSubcore → List (Nat × BiuWriteInput)
  splits : List Split
  weights : BiuSubcore → Int32
  reserved : Option Nat
  free : List Nat
  nextFresh : Nat
  issued : OrdMap Nat Issued
  retirement : OrdMap Nat (Nat × Bool)
  transport : List BiuWriteCommandTransfer
  observed : Option Nat
  advanced : Option Nat

abbrev BiuWriteCallOf (α : Type) := Call BiuWriteCommands (Fault BiuWriteCommandError) α

namespace BiuWriteCommands

def cores : List BiuSubcore := [.cube, .vector0, .vector1]

def new (config : BiuWriteConfig) : BiuWriteCommands where
  config
  inputs := fun _ => []
  splits := []
  weights := fun core => (config.weights core).toInt32
  reserved := none
  free := []
  nextFresh := 1
  issued := .empty
  retirement := .empty
  transport := []
  observed := none
  advanced := none

def outstanding (s : BiuWriteCommands) : Nat := s.config.outstanding.val.toNat

def isIdle (s : BiuWriteCommands) : Bool :=
  cores.all (fun core => (s.inputs core).isEmpty) && s.splits.isEmpty && s.issued.isEmpty && s.retirement.isEmpty

def canPush (s : BiuWriteCommands) (core : BiuSubcore) : Bool := decide ((s.inputs core).length < 4)

def timeReversed (s : BiuWriteCommands) (tick : Nat) : Option BiuWriteCommandError :=
  (s.observed.filter (tick < ·)).map (.timeReversed · tick)

def push (tick : Nat) (input : BiuWriteInput) : BiuWriteCallOf Bool := fun s =>
  match s.timeReversed tick with
  | some e => (Outcome.fail e, s)
  | none =>
    if decide (input.subcore = .cube) ≠ input.storeToken.isSome ∨ (input.storeToken.isSome ∧ input.gatherStride.isSome) then
      (Outcome.fail .invalidSource, s)
    else if !s.canPush input.subcore then (.ok false, s)
    else
      match checkedAdd tick 3 with
      | none => (Outcome.fail .timeOverflow, s)
      | some ready =>
        (.ok true,
          { s with
            inputs := Function.update s.inputs input.subcore (s.inputs input.subcore ++ [(ready, input)])
            observed := some tick })

/-! ### Advance -/

def eligible (s : BiuWriteCommands) (tick : Nat) (core : BiuSubcore) : Bool := (s.inputs core).head?.any (·.1 ≤ tick)

/-- `split_blocked`: two pieces wait already. -/
def splitBlocked (s : BiuWriteCommands) : Bool := decide (1 < ((s.splits.flatMap Split.pieces).take 2).length)

/-- The eligible core of the highest weight, the first of them. -/
def selectCore (eligible : BiuSubcore → Bool) (weights : BiuSubcore → Int32) : Option BiuSubcore :=
  (cores.foldl (fun h core => if eligible core && decide (h.1 < weights core) then (weights core, some core) else h)
    (Int32.minValue, none)).2

/-- The selected core pays what the eligible ones gain. -/
def reweighted (s : BiuWriteCommands) (eligible : BiuSubcore → Bool) (selected : BiuSubcore) : BiuSubcore → Int32 :=
  let gain := fun core => (s.config.weights core).toInt32
  let total := (cores.filter eligible).foldl (fun sum core => sum + gain core) 0
  let paid := Function.update s.weights selected (s.weights selected - total)
  fun core => if eligible core then paid core + gain core else paid core

/-- The first half of `advance`: an input becomes a split, or is consumed if it has no bytes. -/
def acceptInput (tick next : Nat) : BiuWriteCallOf (Option BiuSubcore × Option BiuWriteInput) := fun s =>
  if s.splitBlocked then (.ok (none, none), s)
  else
    match selectCore (s.eligible tick) s.weights with
    | none => (.ok (none, none), s)
    | some core =>
      let weights := s.reweighted (s.eligible tick) core
      match s.inputs core with
      | [] => (Outcome.panicked, { s with weights })
      | (_, input) :: queue =>
        let inputs := Function.update s.inputs core queue
        if input.bytes = 0 then (.ok (some core, some input), { s with weights, inputs })
        else (.ok (some core, none), { s with weights, inputs, splits := s.splits ++ [⟨next, input, 0⟩] })

/-- The tag for the next command stays reserved until the command leaves. -/
def reserve (s : BiuWriteCommands) : BiuWriteCommands :=
  if s.reserved.isSome then s
  else if s.nextFresh ≤ s.outstanding then { s with reserved := some s.nextFresh, nextFresh := s.nextFresh + 1 }
  else { s with reserved := s.free.head?, free := s.free.tail }

/-- The command of a piece leaves with its tag. -/
def send (next tag : Nat) (piece : UInt32 × BiuWriteInput) (splits : List Split) (s : BiuWriteCommands) :
    BiuWriteCommand × BiuWriteCommands :=
  let command : BiuWriteCommand := ⟨tag, piece.1, piece.2⟩
  let count := s.retirement.getD piece.2.instructionId (0, false)
  (command,
    { s with
      splits
      reserved := none
      retirement := s.retirement.insert piece.2.instructionId ((count.1 + 1) % u32, piece.2.lastInInstruction)
      issued := s.issued.insert tag ⟨command, false, false, false⟩
      transport := s.transport ++ [⟨next, command⟩] })

/-- The second half of `advance`: the first piece of the first split becomes a command. -/
def issue (tick next : Nat) : BiuWriteCallOf (Option BiuWriteCommand × Option BiuWriteCommandStall) := fun s =>
  match s.splits with
  | [] => (.ok (none, none), s)
  | head :: splits =>
    if tick < head.readyTick then (.ok (none, some .notReady), s)
    else
      let s := s.reserve
      match s.reserved with
      | none => (.ok (none, some .noTag), s)
      | some tag =>
        if s.transport.length = 2 then (.ok (none, some .transportFull), s)
        else
          match head.next with
          | none => (Outcome.panicked, s)
          | some (piece, rest) =>
            let r := s.send next tag piece (if rest.next.isNone then splits else rest :: splits)
            (.ok (some r.1, none), r.2)

def advance (tick : Nat) : BiuWriteCallOf BiuWriteCommandCycle := fun s =>
  match s.timeReversed tick with
  | some e => (Outcome.fail e, s)
  | none =>
    if s.advanced = some tick then (Outcome.fail (.repeatedTick tick), s)
    else
      match checkedAdd tick 1 with
      | none => (Outcome.fail .timeOverflow, s)
      | some next =>
        Call.bind (acceptInput tick next) (fun a =>
          Call.bind (issue tick next) fun i s' =>
            (.ok ⟨tick, s.eligible tick, a.1, s.splitBlocked, a.2, i.1, i.2⟩,
              { s' with advanced := some tick, observed := some tick })) s

/-! ### The way of a command -/

def takeRequest (tick : Nat) : BiuWriteCallOf (Option BiuWriteCommandTransfer) := fun s =>
  match s.timeReversed tick with
  | some e => (Outcome.fail e, s)
  | none =>
    match popFrontIf (fun head => decide (head.readyTick ≤ tick)) s.transport with
    | none => (.ok none, { s with observed := some tick })
    | some (request, transport) =>
      match s.issued.get? request.command.tag with
      | none => (Outcome.panicked, { s with transport })
      | some i =>
        (.ok (some request),
          { s with
            transport
            issued := s.issued.insert request.command.tag { i with delivered := true }
            observed := some tick })

def markDbid (tag : Nat) : BiuWriteCallOf Unit := fun s =>
  match s.issued.get? tag with
  | none => (Outcome.panicked, s)
  | some i => (.ok (), { s with issued := s.issued.insert tag { i with dbidReceived := true } })

/-- `begin_source`: the end of the instruction goes with the last source to start. -/
def beginSource (tag : Nat) : BiuWriteCallOf BiuWriteSourceRequest := fun s =>
  match s.issued.get? tag with
  | none => (Outcome.panicked, s)
  | some i =>
    if !(i.dbidReceived && !i.sourceStarted) then (Outcome.panicked, s)
    else
      let id := i.command.input.instructionId
      match s.retirement.get? id with
      | none => (Outcome.panicked, { s with issued := s.issued.insert tag { i with sourceStarted := true } })
      | some count =>
        let last := count.2 && decide (count.1 - 1 = 0)
        let command := i.ended last
        (.ok command.sourceRequest,
          { s with
            issued := s.issued.insert tag { i with command, sourceStarted := true }
            retirement := if last then s.retirement.erase id else s.retirement.insert id (count.1 - 1, count.2) })

def releaseTag (tag : Nat) : BiuWriteCallOf BiuWriteCommand := fun s =>
  match s.issued.get? tag with
  | none => (Outcome.fail (.unknownTag tag), s)
  | some i => (.ok i.command, { s with issued := s.issued.erase tag, free := s.free ++ [tag] })

/-! ### Calls -/

inductive BiuWriteCall where
  | push (tick : Nat) (input : BiuWriteInput)
  | advance (tick : Nat)
  | takeRequest (tick : Nat)
  | markDbid (tag : Nat)
  | beginSource (tag : Nat)
  | releaseTag (tag : Nat)

inductive BiuWriteReply where
  | pushed (accepted : Bool)
  | cycle (cycle : BiuWriteCommandCycle)
  | request (transfer : Option BiuWriteCommandTransfer)
  | marked
  | started (request : BiuWriteSourceRequest)
  | released (command : BiuWriteCommand)

def exec : BiuWriteCall → BiuWriteCallOf BiuWriteReply
  | .push tick input => fun s => reply .pushed (push tick input s)
  | .advance tick => fun s => reply .cycle (advance tick s)
  | .takeRequest tick => fun s => reply .request (takeRequest tick s)
  | .markDbid tag => fun s => reply (fun _ => .marked) (markDbid tag s)
  | .beginSource tag => fun s => reply .started (beginSource tag s)
  | .releaseTag tag => fun s => reply .released (releaseTag tag s)

/-- The order of a tag's calls: its DBID after its delivery, its source after its DBID, its release after its source. -/
def inOrder : BiuWriteCall → BiuWriteCommands → Bool
  | .markDbid tag, s => (s.issued.get? tag).any (·.delivered)
  | .beginSource tag, s => (s.issued.get? tag).any fun i => i.dbidReceived && !i.sourceStarted
  | .releaseTag tag, s => (s.issued.get? tag).all (·.sourceStarted)
  | _, _ => true

end BiuWriteCommands

end AscendEmulator.C220.Mte
