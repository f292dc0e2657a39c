/-
  AscendEmulator.C220.Mte.Uop — DMA uops, and the BIU read requests they become.

  Byte counts and addresses are `u32` and `u64`; tags, instruction ids and ticks are `Nat`.
-/

import Mathlib

namespace AscendEmulator.C220.Mte

/-- `NonZeroU32`. -/
abbrev NonZeroU32 := { n : UInt32 // n ≠ 0 }

/-- `NonZeroU32::new`. -/
def nonZero? (n : UInt32) : Option NonZeroU32 := if h : n ≠ 0 then some ⟨n, h⟩ else none

theorem toNat_pos {n : UInt32} : n ≠ 0 ↔ 0 < n.toNat := by
  rw [Nat.pos_iff_ne_zero, ne_eq, ne_eq, ← UInt32.toNat_inj]
  rfl

inductive DmaUopMode where
  | wide512 | wide256 | fixed128 | unbounded
  deriving DecidableEq

def DmaUopMode.splitBytes (mode : DmaUopMode) (address : UInt64) (remaining : UInt32) : UInt32 :=
  if address % 128 ≠ 0 then min remaining (128 - (address % 128).toUInt32)
  else if mode = .wide512 ∧ address % 512 = 0 ∧ 512 ≤ remaining then 512
  else if (mode = .wide512 ∨ mode = .wide256) ∧ address % 256 = 0 ∧ 256 ≤ remaining then 256
  else if mode = .unbounded then remaining
  else min remaining 128

inductive DmaUopRoute where
  | ordinary
  | movPad (paddingBytes : UInt32)
  | movPadBatch (burstBytes : UInt32)
  | movPadDestinationGapCollapse (burstBytes : UInt32)
  | contiguousBatch | destinationGapCollapse | sourceGapGather
  | l1Pad1 | l1Pad2 | l1Pad4 | l1Pad8 | l1Pad16
  | l1Take4 | l1Take8 | l1Take16
  deriving DecidableEq

namespace DmaUopRoute

def paddedUnitBytes : DmaUopRoute → Option UInt32
  | l1Pad1 => some 1
  | l1Pad2 => some 2
  | l1Pad4 => some 4
  | l1Pad8 => some 8
  | l1Pad16 => some 16
  | _ => none

def truncatedUnitBytes : DmaUopRoute → Option UInt32
  | l1Take4 => some 4
  | l1Take8 => some 8
  | l1Take16 => some 16
  | _ => none

end DmaUopRoute

structure DmaUopRequest where
  route : DmaUopRoute
  sourceAddress : UInt64
  destinationAddress : UInt64
  bytes : UInt32
  lastInBurst : Bool
  deriving DecidableEq

structure DmaDestinationLayout where
  base : UInt64
  burstBytes : UInt32
  burstStride : UInt64
  deriving DecidableEq

structure DmaGenerated where
  instructionId : Nat
  request : DmaUopRequest
  destination : DmaDestinationLayout
  mode : DmaUopMode
  outOfOrder : Bool
  lastInInstruction : Bool
  deriving DecidableEq

/-! ## BIU read requests -/

inductive BiuSubcore where
  | cube | vector0 | vector1
  deriving DecidableEq

def BiuSubcore.index : BiuSubcore → Fin 3
  | .cube => 0
  | .vector0 => 1
  | .vector1 => 2

inductive BiuWriteDestination where
  | l1 | l0a | l0b | ub0 | ub1
  | nd2nz (rowSlot : Option Nat)
  deriving DecidableEq

namespace BiuWriteDestination

def subcore : BiuWriteDestination → BiuSubcore
  | l1 | l0a | l0b | nd2nz _ => .cube
  | ub0 => .vector0
  | ub1 => .vector1

def alignerIndex : BiuWriteDestination → Option (Fin 5)
  | l1 => some 0
  | l0a => some 1
  | l0b => some 2
  | ub0 => some 3
  | ub1 => some 4
  | nd2nz _ => none

def isNd2Nz : BiuWriteDestination → Bool
  | nd2nz _ => true
  | _ => false

end BiuWriteDestination

structure BiuReadInput where
  subcore : BiuSubcore
  destination : BiuWriteDestination
  prefetch : Bool
  generated : DmaGenerated
  deriving DecidableEq

structure BiuReadRequest where
  tag : Nat
  byteOffset : UInt32
  input : BiuReadInput
  deriving DecidableEq

structure BiuReadOutput where
  readyTick : Nat
  request : BiuReadRequest
  lastInInstruction : Bool
  deriving DecidableEq

namespace BiuReadRequest

def core (r : BiuReadRequest) : Fin 3 := r.input.subcore.index

def instructionId (r : BiuReadRequest) : Nat := r.input.generated.instructionId

def outOfOrder (r : BiuReadRequest) : Bool := r.input.generated.outOfOrder

/-- `bytes.div_ceil(128)`. -/
def beats (r : BiuReadRequest) : Nat := (r.input.generated.request.bytes.toNat + 127) / 128

end BiuReadRequest

end AscendEmulator.C220.Mte
