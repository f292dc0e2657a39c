/-
  AscendEmulator.C220.Fixp.ReadUop — the reads of L0C for a FIX transfer without matrices (`C220FixpReadGenerator`), a
  column block after the other, and the bursts that `receive_columns` makes of them.

  Addresses are `u64`; byte counts are `Nat` and wrap where the source's do.
-/

import AscendEmulator.C220.Fixp.ExternalQueue
import AscendEmulator.C220.Fixp.Layout
import AscendEmulator.C220.Memory.L0c

namespace AscendEmulator.C220.Fixp

open Lib C220.Memory

/-! ## Operations -/

/-- What the generators of reads use of `C220FixpCommand`. -/
structure TransferCommand where
  descriptor : Descriptor
  sourceFormat : SourceFormat
  sourceAddress : UInt64
  destinationAddress : UInt64

def TransferCommand.layout (c : TransferCommand) : Except LayoutError Layout :=
  Layout.new c.descriptor c.sourceFormat c.sourceAddress c.destinationAddress

def Descriptor.unitFlagMode (d : Descriptor) : Nat := ((d.xm >>> 32) &&& 3).toNat

structure L0cReadRequest where
  id : Nat
  fragments : L0cFragmentRequest
  dataType : Nat
  halfAccumulator : Bool
  deriving DecidableEq

/-- `C220MteL0cReadOperation` -/
structure L0cReadOperation where
  beginsUnit : Bool
  instructionId : Nat
  uopId : Nat
  conversionMode : Nat
  lastInInstruction : Bool
  request : L0cReadRequest
  dataBytes : Nat
  destinationAddress : UInt64
  outputBytes : Nat
  secondChannelOffset : Option UInt64
  lastInUop : Bool
  endOfBurst : Bool
  deriving DecidableEq

/-- A read captures a fragment of 1024 bytes, whatever it transfers; a unit's first read is up to the unit flags. -/
def readRequest (d : Descriptor) (id : Nat) (address : UInt64) (beginsUnit : Bool) : L0cReadRequest where
  id
  fragments :=
    { address := address.toNat
      bytes := 1024
      access := .read
      checkUnitFlags := beginsUnit && decide (d.unitFlagMode ∈ [2, 3])
      updateUnitFlags := beginsUnit && decide (d.unitFlagMode = 3) }
  dataType := 0
  halfAccumulator := false

/-! ## The generator -/

inductive ReadGeneratorError where
  | layout (error : LayoutError)
  | zeroBandwidth
  | nzToNd
  deriving DecidableEq

structure ReadGenerator where
  command : TransferCommand
  instructionId : Nat
  nextId : Nat
  bandwidth : Nat
  columnBlock : Nat
  columnBlocks : Nat
  sourceOffset : Nat
  destinationOffset : Nat

namespace ReadGenerator

def new (command : TransferCommand) (instructionId firstId bandwidth : Nat) :
    Except ReadGeneratorError ReadGenerator :=
  let d := command.descriptor
  match command.layout with
  | .error e => .error (.layout e)
  | .ok _ =>
    let bandwidth := if d.conversionMode = 0 then bandwidth / 2 else bandwidth
    if bandwidth = 0 then .error .zeroBandwidth
    else if d.nzToNd then .error .nzToNd
    else .ok {
      command
      instructionId
      nextId := firstId
      bandwidth
      columnBlock := 0
      columnBlocks := if d.isDisabled then 0 else (d.columns + 15) / 16
      sourceOffset := 0
      destinationOffset := 0 }

variable (g : ReadGenerator)

def split : Bool := g.command.descriptor.conversionMode == 0 && g.command.descriptor.channelSplit

def int4 : Bool := g.command.descriptor.conversionMode ∈ [21, 22, 25, 26]

def groupColumns : Nat := if g.int4 then 4 else 2

def merge : Bool :=
  g.command.descriptor.conversionMode ∈ [8, 9, 23, 24] || g.int4 && g.command.descriptor.columns % 64 == 0

def groupStart : Nat := g.columnBlock / g.groupColumns * g.groupColumns

def singleton : Bool := g.merge && decide (g.groupStart + 1 = g.columnBlocks)

def partialSingleton : Bool := g.singleton && decide (g.command.descriptor.columns % 16 ≠ 0)

def sourceRowBytes : Nat := 16 * g.command.sourceFormat.laneBytes

def columnBytes : Nat :=
  g.command.descriptor.rows * if g.partialSingleton then g.sourceRowBytes / 2 else g.sourceRowBytes

def address : UInt64 :=
  g.command.sourceAddress +
    (g.columnBlock * g.command.descriptor.sourceStride % u32 * g.sourceRowBytes % u32).toUInt64 +
    g.sourceOffset.toUInt64

/-- The bytes up to the next multiple of the bandwidth. -/
def boundary : Nat := g.bandwidth - g.address.toUInt32.toNat % g.bandwidth

def dataBytes : Nat := min (g.columnBytes - g.sourceOffset) g.boundary

def outputBytes : Nat :=
  let mode := g.command.descriptor.conversionMode
  if g.singleton then
    if g.partialSingleton then g.dataBytes / 4 else g.dataBytes * 32 % u32 / g.sourceRowBytes / 2
  else if g.split then g.dataBytes / 2
  else if mode = 0 then g.dataBytes
  else if mode ∈ [17, 18] then g.dataBytes * 16 % u32 / g.sourceRowBytes
  else if mode ∈ [19, 20] then 0
  else if g.int4 && !g.merge then g.dataBytes * 8 % u32 / g.sourceRowBytes
  else g.dataBytes * 32 % u32 / g.sourceRowBytes

def beginsUnit : Bool := g.address % 1024 = 0 ∨ g.sourceOffset = 0

def endOfBurst : Bool := g.sourceOffset + g.dataBytes = g.columnBytes

/-- The bytes from one column of the destination to the next. -/
def columnStride : Nat := g.command.descriptor.destinationStride * 32 % u32

def destinationAddress : UInt64 :=
  if g.merge then g.command.destinationAddress + (g.groupStart / g.groupColumns * g.columnStride).toUInt64
  else
    g.command.destinationAddress + (g.columnBlock * g.columnStride * if g.split then 2 else 1).toUInt64 +
      g.destinationOffset.toUInt64

/-- The offset of the second channel is rounded down to 512 bytes (`& !511`). -/
def secondChannelOffset : Option UInt64 :=
  if g.split && (g.command.descriptor.columns % 16 == 0 || g.columnBlock + 1 != g.columnBlocks) then
    some (g.columnStride / 512 * 512).toUInt64
  else none

def lastInUop : Bool := !g.merge || g.singleton || g.columnBlock % g.groupColumns == g.groupColumns - 1

def operation : L0cReadOperation where
  beginsUnit := g.beginsUnit
  instructionId := g.instructionId
  uopId := g.nextId
  conversionMode := g.command.descriptor.conversionMode
  lastInInstruction := g.endOfBurst && decide (g.columnBlock + 1 = g.columnBlocks)
  request := readRequest g.command.descriptor g.nextId g.address g.beginsUnit
  dataBytes := g.dataBytes
  destinationAddress := g.destinationAddress
  outputBytes := g.outputBytes
  secondChannelOffset := g.secondChannelOffset
  lastInUop := g.lastInUop
  endOfBurst := g.endOfBurst

def advance : ReadGenerator :=
  let g' := { g with nextId := (g.nextId + 1) % u32 }
  if g.endOfBurst then { g' with columnBlock := g.columnBlock + 1, sourceOffset := 0, destinationOffset := 0 }
  else
    { g' with
      sourceOffset := g.sourceOffset + g.dataBytes
      destinationOffset := g.destinationOffset + g.outputBytes }

def next : Option (L0cReadOperation × ReadGenerator) :=
  if g.columnBlock = g.columnBlocks then none else some (g.operation, g.advance)

end ReadGenerator

/-! ## Bursts -/

/-- The burst that `receive_columns` appends for a read, if the read ends a uop. -/
def columnBurst (policy : ExternalOutputPolicy) (readyTick : Nat) (op : L0cReadOperation) : Option ExternalBurst :=
  if op.lastInUop then
    some {
      instructionId := op.instructionId
      requestId := op.request.id
      address := op.destinationAddress
      bytes := op.outputBytes
      closed := op.endOfBurst
      lastInInstruction := op.lastInInstruction
      gather := true
      rowBytes := 0
      rowOffset := 0
      secondChannelOffset := op.secondChannelOffset
      policy
      readyTick }
  else none

/-- The bursts of reads that are received one after the other, each at its tick. -/
def columnBursts (policy : ExternalOutputPolicy) (received : List (Nat × L0cReadOperation)) : List ExternalBurst :=
  (received.filterMap fun r => columnBurst policy r.1 r.2).foldl ExternalOutput.append []

end AscendEmulator.C220.Fixp
