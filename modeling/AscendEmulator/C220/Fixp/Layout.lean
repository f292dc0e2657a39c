/-
  AscendEmulator.C220.Fixp.Layout — the coordinates of a FIX transfer (`C220FixpLayout`, `C220FixpSlice`): which lanes of
  the accumulator a slice reads, and where its bytes go.

  Numbers are `Nat`. Products of 32 bits and addresses wrap as in the source (`% u32`, `% u64`).
-/

import AscendEmulator.C220.Fixp.Engine

namespace AscendEmulator.C220.Fixp

open Lib

namespace Descriptor

def destinationStride (d : Descriptor) : Nat := (d.xt >>> 32).toUInt32.toNat

def sourceStride (d : Descriptor) : Nat := d.xm.toUInt16.toNat

def channelSplit (d : Descriptor) : Bool := d.xm &&& ((1 : UInt64) <<< 42) != 0

def sourceNdStride (d : Descriptor) : Nat := (d.nd >>> 16).toUInt16.toNat

def destinationNdStride (d : Descriptor) : Nat := ((d.nd >>> 32) &&& 0x1ffff).toNat

end Descriptor

/-! ## Formats -/

inductive SourceFormat where
  | fp32 | int32 | fp16
  deriving DecidableEq, Repr

def SourceFormat.laneBytes : SourceFormat → Nat
  | .fp32 | .int32 => 4
  | .fp16 => 2

inductive OutputFormat where
  | int4 | bits8 | int32 | int16 | fp32 | fp16 | bf16
  deriving DecidableEq, Repr

namespace OutputFormat

def fromConversionMode (source : SourceFormat) (mode : Nat) : Option OutputFormat :=
  if mode ∈ [1, 6, 10, 11] then some .fp16
  else if mode ∈ [12, 13] then some .int16
  else if mode = 16 then some .bf16
  else if mode = 0 then
    match source with
    | .int32 => some .int32
    | .fp32 => some .fp32
    | .fp16 => none
  else if mode ∈ [17, 18] then some .bits8
  else if mode ∈ [19, 20] then some .int4
  else if mode ∈ [8, 9, 23, 24] then some .bits8
  else if mode ∈ [21, 22, 25, 26] then some .int4
  else none

/-- The bytes of complete elements; an unpaired `int4` lane is not stored. -/
def storageBytes (format : OutputFormat) (lanes : Nat) : Nat :=
  match format with
  | .int4 => lanes / 2
  | .bits8 => lanes
  | .fp32 | .int32 => lanes * 4 % u32
  | .fp16 | .bf16 | .int16 => lanes * 2 % u32

end OutputFormat

/-! ## Slices -/

structure Slice where
  ndIndex : Nat
  row : Nat
  columnBlock : Nat
  sourceAddress : Nat
  destinationAddress : Nat
  lanes : Nat
  sourceLaneBytes : Nat
  outputFormat : OutputFormat
  deriving DecidableEq, Repr

namespace Slice

def sourceBytes (s : Slice) : Nat := s.lanes * s.sourceLaneBytes

def destinationBytes (s : Slice) : Nat := s.outputFormat.storageBytes s.lanes

end Slice

/-- `C220FixpLayoutError`, with the mode that is not supported. -/
inductive LayoutError where
  | conversionMode (sourceFormat : SourceFormat) (mode : Nat)
  deriving DecidableEq

structure Layout where
  descriptor : Descriptor
  source : Nat
  destination : Nat
  format : OutputFormat
  sourceFormat : SourceFormat

namespace Layout

def new (descriptor : Descriptor) (sourceFormat : SourceFormat) (source destination : UInt64) :
    Except LayoutError Layout :=
  match OutputFormat.fromConversionMode sourceFormat descriptor.conversionMode with
  | none => .error (.conversionMode sourceFormat descriptor.conversionMode)
  | some format => .ok ⟨descriptor, source.toNat, destination.toNat, format, sourceFormat⟩

variable (l : Layout)

def sourceRowBytes : Nat := 16 * l.sourceFormat.laneBytes

def split : Bool :=
  (l.format = .fp32 ∨ l.format = .int32) && l.descriptor.channelSplit && !l.descriptor.nzToNd

def byteMerge : Bool := l.descriptor.conversionMode ∈ [8, 9, 23, 24] && !l.descriptor.nzToNd

def nibbleMerge : Bool :=
  l.descriptor.conversionMode ∈ [21, 22, 25, 26] && !l.descriptor.nzToNd && l.descriptor.columns % 64 == 0

def mergedBlocks : Nat := l.descriptor.columns / 32 * 2

def blocks : Nat :=
  let columns := l.descriptor.columns
  if l.byteMerge then l.mergedBlocks + if columns % 32 = 0 then 0 else 1
  else if l.split then columns / 16 * 2 + if columns % 16 = 8 then 1 else 0
  else (columns + 15) / 16

def ndCount : Nat :=
  if l.descriptor.isDisabled then 0 else if l.descriptor.nzToNd then l.descriptor.ndCount else 1

/-- The offset of a matrix in the accumulator. -/
def sourceNd (ndIndex : Nat) : Nat := ndIndex * (16 * l.sourceRowBytes) % u32 * l.descriptor.sourceNdStride % u32

/-- The offset of a block of 16 columns, or of 8 when channels are split. -/
def sourceBlock (block : Nat) : Nat :=
  ((if l.split then block / 2 else block) * l.sourceRowBytes % u32 * l.descriptor.sourceStride % u32 +
    if l.split then block % 2 * 32 else 0) % u32

def sourceAddress (ndIndex row block : Nat) : Nat :=
  (l.source + (if l.descriptor.nzToNd then l.sourceNd ndIndex else 0) + row * l.sourceRowBytes +
    l.sourceBlock block) % u64

/-- How far a slice's bytes are from the destination. -/
def destinationOffset (ndIndex row block : Nat) : Nat :=
  let d := l.descriptor
  let columnBytes := d.destinationStride * 32 % u32
  if d.nzToNd then
    l.format.storageBytes (ndIndex * d.destinationNdStride % u32) +
      l.format.storageBytes (row * d.destinationStride % u32) + block * l.format.storageBytes 16
  else if l.nibbleMerge then row * 32 + block / 4 * columnBytes + block % 4 * 8
  else if l.byteMerge then
    let tail := block = l.mergedBlocks
    row * (if tail then 16 else 32) + block / 2 * columnBytes + if tail then 0 else block % 2 * 16
  else row * (if l.split then 32 else l.format.storageBytes 16) + block * columnBytes

def lanes (block : Nat) : Nat :=
  let remainder := l.descriptor.columns % 16
  if l.split then 8
  else if l.descriptor.nzToNd ∧ block + 1 = l.blocks ∧ remainder ≠ 0 then remainder
  else 16

def slice (ndIndex row block : Nat) : Slice where
  ndIndex
  row
  columnBlock := block % 2 ^ 16
  sourceAddress := l.sourceAddress ndIndex row block
  destinationAddress := (l.destination + l.destinationOffset ndIndex row block) % u64
  lanes := l.lanes block
  sourceLaneBytes := l.sourceFormat.laneBytes
  outputFormat := l.format

def slices : List Slice :=
  (List.range l.ndCount).flatMap fun ndIndex => (List.range l.descriptor.rows).flatMap fun row =>
    (List.range l.blocks).map fun block => l.slice ndIndex row block

end Layout

end AscendEmulator.C220.Fixp
