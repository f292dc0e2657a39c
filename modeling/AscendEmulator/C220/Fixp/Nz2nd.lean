/-
  AscendEmulator.C220.Fixp.Nz2nd — a FIX transfer from blocks to the rows of matrices (`fixp/nz2nd`): the reads
  (`C220FixpNz2ndReadGenerator`), what is written of a row (`C220FixpNz2ndWritePlanner`), and the writes made of both
  (`C220FixpNz2ndWriteGenerator`).

  A group of eight conversions is written row by row when it is full, or when its rows end. Addresses are `u64`; counters
  are `Nat` and wrap where the source's do.
-/

import AscendEmulator.C220.Fixp.ReadUop

namespace AscendEmulator.C220.Fixp

open Lib C220.Memory

/-! ## Reads -/

inductive Nz2ndReadError where
  | layout (error : LayoutError)
  | notNzToNd
  | bandwidth
  | sourceAlignment
  | incompleteTimingRow (ndIndex row dataBytes : Nat)
  deriving DecidableEq

structure Nz2ndReadGenerator where
  command : TransferCommand
  instructionId : Nat
  nextId : Nat
  bandwidth : Nat
  nd : Nat
  ndCount : Nat
  row : Nat
  column : Nat
  columns : Nat
  part : Nat

namespace Nz2ndReadGenerator

variable (g : Nz2ndReadGenerator)

def position : Nat × Nat × Nat := (g.nd, g.row, g.column)

def sourceAddressAt (nd row column : Nat) : UInt64 :=
  let d := g.command.descriptor
  let sourceRowBytes := 16 * g.command.sourceFormat.laneBytes
  g.command.sourceAddress + (nd * (16 * sourceRowBytes) % u32 * d.sourceNdStride % u32).toUInt64 +
    (row * sourceRowBytes).toUInt64 + (column * sourceRowBytes % u32 * d.sourceStride % u32).toUInt64

/-- The bytes read from a row on: all that is left, up to the next multiple of the bandwidth. -/
def bytesAt (nd row : Nat) : Nat :=
  min ((g.command.descriptor.rows - row) * 64)
    (g.bandwidth - (g.sourceAddressAt nd row 0).toUInt32.toNat % g.bandwidth)

/-- The first read of a matrix, from a row on, that ends inside a row of 64 bytes; a turn is at least one row. -/
def validateFrom (nd : Nat) : Nat → Nat → Option Nz2ndReadError
  | 0, _ => none
  | turns + 1, row =>
    if g.command.descriptor.rows ≤ row then none
    else if g.bytesAt nd row % 64 ≠ 0 then some (.incompleteTimingRow nd row (g.bytesAt nd row))
    else validateFrom nd turns (row + g.bytesAt nd row / 64)

def validateRowProgress : Option Nz2ndReadError :=
  if g.command.sourceFormat.laneBytes = 4 then none
  else (List.range g.ndCount).findSome? fun nd => g.validateFrom nd g.command.descriptor.rows 0

def new (command : TransferCommand) (instructionId firstId bandwidth : Nat) :
    Except Nz2ndReadError Nz2ndReadGenerator :=
  let d := command.descriptor
  match command.layout with
  | .error e => .error (.layout e)
  | .ok _ =>
    if !d.nzToNd then .error .notNzToNd
    else if bandwidth = 0 ∨ bandwidth % 64 ≠ 0 then .error .bandwidth
    else if command.sourceAddress.toNat % (16 * command.sourceFormat.laneBytes) ≠ 0 then .error .sourceAlignment
    else
      let generator : Nz2ndReadGenerator := {
        command
        instructionId
        nextId := firstId
        bandwidth
        nd := 0
        ndCount := if d.isDisabled then 0 else d.ndCount
        row := 0
        column := 0
        columns := (d.columns + 15) / 16
        part := 0 }
      match generator.validateRowProgress with
      | some e => .error e
      | none => .ok generator

def dataBytes : Nat := g.bytesAt g.nd g.row

def rows : Nat := g.dataBytes / 64

/-- Columns of 32 bits are read twice, unless the last has at most 8 lanes. -/
def parts : Nat :=
  let d := g.command.descriptor
  if d.conversionMode ≠ 0 then 1
  else if g.column + 1 = g.columns ∧ d.columns % 16 ≠ 0 then (d.columns % 16 + 7) / 8
  else 2

def address : UInt64 := g.sourceAddressAt g.nd g.row g.column

def beginsUnit : Bool := g.part = 0 ∧ (g.row = 0 ∨ g.address % 1024 = 0)

def endOfBurst : Bool := g.column + 1 = g.columns ∧ g.part + 1 = g.parts

def lastInUop : Bool :=
  let mode := g.command.descriptor.conversionMode
  if mode ∈ [8, 9, 23, 24] then g.column % 2 == 1 || g.column + 1 == g.columns
  else if mode ∈ [21, 22, 25, 26] then g.column % 4 == 3 || g.column + 1 == g.columns
  else true

def operation : L0cReadOperation where
  beginsUnit := g.beginsUnit
  instructionId := g.instructionId
  uopId := g.nextId
  conversionMode := g.command.descriptor.conversionMode
  lastInInstruction :=
    g.endOfBurst && decide (g.row + g.rows = g.command.descriptor.rows) && decide (g.nd + 1 = g.ndCount)
  request := readRequest g.command.descriptor g.nextId g.address g.beginsUnit
  dataBytes := g.dataBytes
  destinationAddress := 0
  outputBytes := 32 * g.rows
  secondChannelOffset := none
  lastInUop := g.lastInUop
  endOfBurst := g.endOfBurst

def advance : Nz2ndReadGenerator :=
  let g' := { g with nextId := (g.nextId + 1) % u32 }
  if g.part + 1 ≠ g.parts then { g' with part := g.part + 1 }
  else if g.column + 1 ≠ g.columns then { g' with part := 0, column := g.column + 1 }
  else if g.row + g.rows ≠ g.command.descriptor.rows then { g' with part := 0, column := 0, row := g.row + g.rows }
  else { g' with part := 0, column := 0, row := 0, nd := g.nd + 1 }

def next : Option (L0cReadOperation × Nz2ndReadGenerator) :=
  if g.nd = g.ndCount then none else some (g.operation, g.advance)

end Nz2ndReadGenerator

/-! ## Rows -/

structure Nz2ndWriteDescriptor where
  destinationAddress : UInt64
  bytes : Nat
  lastInUop : Bool
  endOfBurst : Bool
  gather : Bool
  burstBytes : Nat
  deriving DecidableEq

structure Nz2ndWriteBatch where
  leading : Option Nz2ndWriteDescriptor
  tail : Nz2ndWriteDescriptor
  advancesColumn : Bool
  deriving DecidableEq

inductive Nz2ndWriteError where
  | layout (error : LayoutError)
  | notNzToNd
  | bufferSize
  deriving DecidableEq

structure Nz2ndWritePlanner where
  command : TransferCommand
  format : OutputFormat
  mainSlots : Nat
  gather : Bool
  aligned512 : Bool

namespace Nz2ndWritePlanner

/-- The bytes of a column block that `gather` goes by. -/
def columnBytes (d : Descriptor) (format : OutputFormat) : Nat :=
  if d.conversionMode = 0 ∧ d.channelSplit then 32
  else if d.conversionMode ∈ [19, 20] then 0
  else format.storageBytes 16

/-- A matrix whose rows lie one behind the other, and that one group holds, is gathered to one burst. -/
def gathers (d : Descriptor) (format : OutputFormat) (mainSlots : Nat) : Bool :=
  columnBytes d format * ((d.columns + 15) / 16) ≤ mainSlots * 32 % u32 ∧ d.columns = d.destinationStride

/-- Whether rows are taken to be made of whole lines of 512 bytes. -/
def isAligned512 (d : Descriptor) (format : OutputFormat) (destination : UInt64) : Bool :=
  format.storageBytes d.columns % 512 = 0 ∧ destination.toNat % 512 = 0 ∧
    format.storageBytes d.destinationStride % 512 = 0

def new (command : TransferCommand) (mainSlots : Nat) : Except Nz2ndWriteError Nz2ndWritePlanner :=
  let d := command.descriptor
  match command.layout with
  | .error e => .error (.layout e)
  | .ok l =>
    if !d.nzToNd then .error .notNzToNd
    else if mainSlots = 0 then .error .bufferSize
    else .ok {
      command
      format := l.format
      mainSlots
      gather := gathers d l.format mainSlots
      aligned512 := isAligned512 d l.format command.destinationAddress }

variable (p : Nz2ndWritePlanner)

/-- How often the last column of a group is read. -/
def parts (endOfGroup : Bool) : Nat :=
  let d := p.command.descriptor
  if d.conversionMode = 0 then
    if endOfGroup ∧ d.columns % 16 ≠ 0 then (d.columns % 16 + 7) / 8 else 2
  else 1

def tailLanes (endOfGroup : Bool) : Nat := p.command.descriptor.columns % (16 / p.parts endOfGroup)

/-- The bytes that a row has of a group, by the place of its last conversion (`group_index & 7`). -/
def rowBytes (groupIndex : Nat) (endOfGroup : Bool) : Nat :=
  if !endOfGroup then p.mainSlots * 32 % u32
  else if p.tailLanes endOfGroup ≠ 0 then 32 * (groupIndex % 8) + p.format.storageBytes (p.tailLanes endOfGroup)
  else 32 * (groupIndex % 8 + 1)

/-- The tail's address is rounded down to 512 bytes (`& !511`) where whole lines are written. -/
def planRow (groupIndex : Nat) (endOfGroup : Bool) (destinationAddress : UInt64) : Nz2ndWriteBatch :=
  let bytes := p.rowBytes groupIndex endOfGroup
  let leading : Option Nz2ndWriteDescriptor :=
    if 3 < groupIndex % 8 then
      some {
        destinationAddress
        bytes := 128
        lastInUop := false
        endOfBurst := false
        gather := false
        burstBytes := 0 }
    else none
  let tail : Nz2ndWriteDescriptor :=
    if leading.isSome && !p.gather && p.aligned512 then
      { destinationAddress := (destinationAddress.toNat / 512 * 512).toUInt64
        bytes := 512
        lastInUop := groupIndex % 16 == 15
        endOfBurst := groupIndex % 16 == 15
        gather := p.gather
        burstBytes := 512 }
    else
      { destinationAddress
        bytes
        lastInUop := true
        endOfBurst := !p.gather
        gather := p.gather
        burstBytes := if p.gather then 0 else bytes }
  ⟨leading, tail, !p.gather⟩

end Nz2ndWritePlanner

/-! ## Writes -/

structure Nz2ndWriteUop where
  instructionId : Nat
  requestId : Nat
  descriptor : Nz2ndWriteDescriptor
  lastInInstruction : Bool
  deriving DecidableEq

structure RowGroup where
  nd : Nat
  row : Nat
  endRow : Nat
  column : Nat
  groupIndex : Nat
  endOfGroup : Bool
  endOfNd : Bool

structure Nz2ndWriteGenerator where
  command : TransferCommand
  instructionId : Nat
  nextId : Nat
  reads : Nz2ndReadGenerator
  planner : Nz2ndWritePlanner
  mainSlots : Nat
  format : OutputFormat
  position : Option (Nat × Nat × Nat)
  groupIndex : Nat
  destinationColumn : Nat
  advanceColumn : Option Nat
  rows : Option RowGroup
  tail : Option Nz2ndWriteUop

inductive Nz2ndPlanError where
  | read (error : Nz2ndReadError)
  | write (error : Nz2ndWriteError)
  deriving DecidableEq

namespace Nz2ndWriteGenerator

/-- The writes of `C220FixpNz2ndInstructionPlan::new`, which has the reads too. -/
def new (command : TransferCommand) (instructionId firstReadId firstWriteId bandwidth mainSlots : Nat) :
    Except Nz2ndPlanError Nz2ndWriteGenerator :=
  match Nz2ndReadGenerator.new command instructionId firstReadId bandwidth with
  | .error e => .error (.read e)
  | .ok reads =>
    match Nz2ndWritePlanner.new command mainSlots with
    | .error e => .error (.write e)
    | .ok planner => .ok {
        command
        instructionId
        nextId := firstWriteId
        reads
        planner
        mainSlots
        format := planner.format
        position := none
        groupIndex := 0
        destinationColumn := 0
        advanceColumn := none
        rows := none
        tail := none }

variable (g : Nz2ndWriteGenerator)

def rowAddress (rows : RowGroup) : UInt64 :=
  let d := g.command.descriptor
  g.command.destinationAddress + (g.format.storageBytes (rows.nd * d.destinationNdStride % u32)).toUInt64 +
    (g.format.storageBytes (rows.row * d.destinationStride % u32)).toUInt64 +
    (rows.column * g.format.storageBytes 16).toUInt64

/-- The next row of a group; its leading descriptor comes first, the tail waits. -/
def writeRow (rows : RowGroup) : Nz2ndWriteUop × Nz2ndWriteGenerator :=
  let batch := g.planner.planRow rows.groupIndex rows.endOfGroup (g.rowAddress rows)
  let finalRow : Bool := rows.row + 1 = rows.endRow
  let endOfNd := finalRow && rows.endOfNd
  let leading := if batch.leading.isSome then 1 else 0
  let tail : Nz2ndWriteUop := {
    instructionId := g.instructionId
    requestId := (g.nextId + leading) % u32
    descriptor := if endOfNd then { batch.tail with endOfBurst := true } else batch.tail
    lastInInstruction := endOfNd && decide (rows.nd + 1 = g.command.descriptor.ndCount) }
  let g' := { g with
    nextId := (g.nextId + (1 + leading)) % u32
    rows := if finalRow then none else some { rows with row := rows.row + 1 } }
  match batch.leading with
  | none => (tail, g')
  | some leading => (⟨g.instructionId, g.nextId, leading, false⟩, { g' with tail := some tail })

/-- Other rows begin anew; another column begins where the last group left off. -/
def moveTo (position : Nat × Nat × Nat) : Nz2ndWriteGenerator :=
  let anew := { g with
    position := some position
    groupIndex := 0
    destinationColumn := 0
    advanceColumn := none }
  match g.position with
  | none => anew
  | some old =>
    if (old.1, old.2.1) ≠ (position.1, position.2.1) then anew
    else if old.2.2 ≠ position.2.2 then
      match g.advanceColumn with
      | some next => { g with position := some position, destinationColumn := next, advanceColumn := none }
      | none => { g with position := some position }
    else { g with position := some position }

/-- A read that ends a conversion may close its group. -/
def closeGroup (position : Nat × Nat × Nat) (read : L0cReadOperation) : Nz2ndWriteGenerator :=
  if !read.lastInUop then g
  else
    let g' := { g with groupIndex := g.groupIndex + 1 }
    if g.groupIndex % g.mainSlots ≠ g.mainSlots - 1 ∧ !read.endOfBurst then g'
    else
      let endRow := position.2.1 + read.dataBytes / 64
      { g' with
        rows := some {
          nd := position.1
          row := position.2.1
          endRow
          column := g.destinationColumn
          groupIndex := g.groupIndex
          endOfGroup := read.endOfBurst
          endOfNd := read.endOfBurst && decide (endRow = g.command.descriptor.rows) }
        advanceColumn := if g.planner.gather then g.advanceColumn else some (position.2.2 + 1) }

/-- A turn of the loop in `next`: it yields a write, or takes a read. -/
def turn : Option (Option Nz2ndWriteUop × Nz2ndWriteGenerator) :=
  match g.tail, g.rows with
  | some tail, _ => some (some tail, { g with tail := none })
  | none, some rows => some (some (g.writeRow rows).1, (g.writeRow rows).2)
  | none, none =>
    match g.reads.next with
    | none => none
    | some (read, reads) =>
      let position := g.reads.position
      some (none, (({ g with reads } : Nz2ndWriteGenerator).moveTo position).closeGroup position read)

end Nz2ndWriteGenerator

/-! ## Bursts -/

/-- The burst that `receive` appends for a write, if the write ends a uop. -/
def rowBurst (policy : ExternalOutputPolicy) (readyTick : Nat) (op : Nz2ndWriteUop) : Option ExternalBurst :=
  let d := op.descriptor
  if d.lastInUop then
    some {
      instructionId := op.instructionId
      requestId := op.requestId
      address := d.destinationAddress
      bytes := d.bytes
      closed := d.endOfBurst
      lastInInstruction := op.lastInInstruction
      gather := d.gather
      rowBytes := d.burstBytes
      rowOffset := 0
      secondChannelOffset := none
      policy
      readyTick }
  else none

/-- The bursts of writes that are received one after the other, each at its tick. -/
def rowBursts (policy : ExternalOutputPolicy) (received : List (Nat × Nz2ndWriteUop)) : List ExternalBurst :=
  (received.filterMap fun r => rowBurst policy r.1 r.2).foldl ExternalOutput.append []

end AscendEmulator.C220.Fixp
