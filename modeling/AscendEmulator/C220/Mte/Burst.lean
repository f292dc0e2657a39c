/-
  AscendEmulator.C220.Mte.Burst — what the DMA moves between HBM and the unified buffer copy.

  A descriptor is decoded from the instruction word and the `XM` register; its segments are
  the units copied, in order. Addresses are `u64`; `usize` is `Nat`.
-/

import Mathlib

namespace AscendEmulator.C220.Mte

/-! ## The instruction -/

inductive MovDirection where
  | hbmToUb | ubToHbm
  deriving DecidableEq

structure MovInstruction where
  word : UInt32
  direction : MovDirection
  destinationRegister : UInt8
  sourceRegister : UInt8
  descriptorRegister : UInt8
  deriving DecidableEq

def MovInstruction.decode (word : UInt32) : Option MovInstruction :=
  if word >>> 29 ≠ 3 ∨ (word >>> 27) &&& 3 ≠ 2 then none
  else
    let fields := fun direction => some {
      word
      direction
      destinationRegister := ((word >>> 17) &&& 0x1f).toUInt8
      sourceRegister := ((word >>> 12) &&& 0x1f).toUInt8
      descriptorRegister := ((word >>> 7) &&& 0x1f).toUInt8 }
    if (word >>> 23) &&& 0xf = 2 ∧ (word >>> 3) &&& 0xf = 1 then fields .hbmToUb
    else if (word >>> 23) &&& 0xf = 1 ∧ (word >>> 3) &&& 0xf = 2 then fields .ubToHbm
    else none

/-! ## Bursts -/

structure BurstLayout where
  count : UInt16
  length : UInt16
  sourceGap : UInt16
  destinationGap : UInt16
  deriving DecidableEq

structure BurstSegment where
  burstIndex : UInt16
  unitIndex : UInt16
  source : UInt64
  destination : UInt64
  bytes : UInt32
  deriving DecidableEq

namespace BurstLayout

def decode (xm : UInt64) : BurstLayout :=
  ⟨((xm >>> 4) &&& 0xfff).toUInt16, (xm >>> 16).toUInt16, (xm >>> 32).toUInt16, (xm >>> 48).toUInt16⟩

/-- `u64::checked_add`. -/
def checkedAdd (a b : UInt64) : Option UInt64 := if a.toNat + b.toNat < 2 ^ 64 then some (a + b) else none

def sourceAt (source : UInt64) (unitBytes sourceStride : UInt32) (burst unit : UInt16) : Option UInt64 := do
  let offset := (burst.toUInt32 * sourceStride).toUInt64 + unit.toUInt64 * unitBytes.toUInt64
  let address ← checkedAdd source offset
  let _ ← checkedAdd address unitBytes.toUInt64
  return address

def destinationAt (destination : UInt64) (unitBytes : UInt32) (destinationStride : UInt64) (burst unit : UInt16) :
    Option UInt64 := do
  let offset := burst.toUInt64 * destinationStride + unit.toUInt64 * unitBytes.toUInt64
  let address ← checkedAdd destination offset
  let _ ← checkedAdd address unitBytes.toUInt64
  return address

/-- Every burst's last source unit is in range, and the last burst's last destination unit. -/
def extentsValid (l : BurstLayout) (source destination : UInt64) (unitBytes sourceStride : UInt32)
    (destinationStride : UInt64) : Bool :=
  l.count.toNat * l.length.toNat == 0 ||
    ((List.range l.count.toNat).all fun burst =>
      (sourceAt source unitBytes sourceStride burst.toUInt16 (l.length - 1)).isSome) &&
    (destinationAt destination unitBytes destinationStride (l.count - 1) (l.length - 1)).isSome

/-- The `index`th unit. Its addresses have been validated (`sourceAt_valid`, `destinationAt_valid`). -/
def segment (l : BurstLayout) (source destination : UInt64) (unitBytes sourceStride : UInt32)
    (destinationStride : UInt64) (index : Nat) : BurstSegment :=
  let burstIndex := (index / l.length.toNat).toUInt16
  let unitIndex := (index % l.length.toNat).toUInt16
  { burstIndex
    unitIndex
    source := (sourceAt source unitBytes sourceStride burstIndex unitIndex).getD 0
    destination := (destinationAt destination unitBytes destinationStride burstIndex unitIndex).getD 0
    bytes := unitBytes }

def segmentsWithStrides (l : BurstLayout) (source destination : UInt64) (unitBytes sourceStride : UInt32)
    (destinationStride : UInt64) : Option (List BurstSegment) :=
  if l.extentsValid source destination unitBytes sourceStride destinationStride then
    some ((List.range (l.count.toNat * l.length.toNat)).map
      (l.segment source destination unitBytes sourceStride destinationStride))
  else none

def segments (l : BurstLayout) (source destination : UInt64) : Option (List BurstSegment) :=
  l.segmentsWithStrides source destination 32 ((l.length.toUInt32 + l.sourceGap.toUInt32) * 32)
    ((l.length.toUInt64 + l.destinationGap.toUInt64) * 32)

end BurstLayout

/-! ## HBM to the unified buffer -/

structure MovOutToUbDescriptor where
  instructionWord : UInt32
  xm : UInt64
  burstCount : UInt16
  burstLength : UInt16
  sourceGap : UInt16
  destinationGap : UInt16
  deriving DecidableEq

inductive MovOutToUbError where
  | unsupportedWord (word : UInt32)
  | inconsistentDescriptor
  | addressOverflow
  deriving DecidableEq

namespace MovOutToUbDescriptor

def isWord (word : UInt32) : Bool := (MovInstruction.decode word).any fun i => decide (i.direction = .hbmToUb)

def decode (instructionWord : UInt32) (xm : UInt64) : Except MovOutToUbError MovOutToUbDescriptor :=
  if !isWord instructionWord then .error (.unsupportedWord instructionWord)
  else
    let layout := BurstLayout.decode xm
    .ok ⟨instructionWord, xm, layout.count, layout.length, layout.sourceGap, layout.destinationGap⟩

def sid (d : MovOutToUbDescriptor) : UInt8 := (d.xm &&& 0xf).toUInt8

def layout (d : MovOutToUbDescriptor) : BurstLayout := ⟨d.burstCount, d.burstLength, d.sourceGap, d.destinationGap⟩

def segmentIter (d : MovOutToUbDescriptor) (sourceHbm destinationLocal : UInt64) :
    Except MovOutToUbError (List BurstSegment) := do
  let decoded ← decode d.instructionWord d.xm
  if decoded.layout ≠ d.layout then throw .inconsistentDescriptor
  match d.layout.segments sourceHbm destinationLocal with
  | some segments => return segments
  | none => throw .addressOverflow

end MovOutToUbDescriptor

/-! ## The unified buffer to HBM -/

structure DmaMovDescriptor where
  instructionWord : UInt32
  xm : UInt64
  burstCount : UInt16
  burstLength : UInt16
  sourceGap : UInt16
  destinationGap : UInt16
  deriving DecidableEq

inductive DmaMovError where
  | unsupportedWord (word : UInt32)
  | inconsistentDescriptor
  | addressOverflow
  deriving DecidableEq

namespace DmaMovDescriptor

def sid (d : DmaMovDescriptor) : UInt8 := (d.xm &&& 0xf).toUInt8

def byteMode (d : DmaMovDescriptor) : Bool := d.instructionWord &&& 1 != 0

def unitBytes (d : DmaMovDescriptor) : UInt32 := if d.byteMode then 1 else 32

def burstBytes (d : DmaMovDescriptor) : UInt32 := d.burstLength.toUInt32 * d.unitBytes

def byteCount (d : DmaMovDescriptor) : Nat := d.burstCount.toNat * d.burstBytes.toNat

/-- `burst_bytes().div_ceil(32) * 32`, and the gap: a burst begins at a whole unit of the buffer. -/
def sourceStrideBytes (d : DmaMovDescriptor) : UInt32 :=
  ((d.burstBytes.toNat + 31) / 32).toUInt32 * 32 + d.sourceGap.toUInt32 * 32

def destinationStrideBytes (d : DmaMovDescriptor) : UInt64 :=
  d.burstBytes.toUInt64 + d.destinationGap.toUInt64 * 32

def isWord (word : UInt32) : Bool := (MovInstruction.decode word).any fun i => decide (i.direction = .ubToHbm)

def decode (instructionWord : UInt32) (xm : UInt64) : Except DmaMovError DmaMovDescriptor :=
  if !isWord instructionWord then .error (.unsupportedWord instructionWord)
  else
    let layout := BurstLayout.decode xm
    .ok ⟨instructionWord, xm, layout.count, layout.length, layout.sourceGap, layout.destinationGap⟩

def layout (d : DmaMovDescriptor) : BurstLayout := ⟨d.burstCount, d.burstLength, d.sourceGap, d.destinationGap⟩

def segmentIter (d : DmaMovDescriptor) (sourceLocal destinationHbm : UInt64) :
    Except DmaMovError (List BurstSegment) := do
  let decoded ← decode d.instructionWord d.xm
  if decoded.layout ≠ d.layout then throw .inconsistentDescriptor
  match d.layout.segmentsWithStrides sourceLocal destinationHbm d.unitBytes d.sourceStrideBytes
      d.destinationStrideBytes with
  | some segments => return segments
  | none => throw .addressOverflow

end DmaMovDescriptor

end AscendEmulator.C220.Mte
