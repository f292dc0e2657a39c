/-
  AscendEmulator.C220.Mte.L1ToOut — the reads of a copy from L1 to external memory (`mte/l1_to_out/read_plan.rs`),
  grouped by the transaction that writes them.

  Addresses are `u64`; the counters of the plan are `Nat` and wrap where the source's do.
-/

import AscendEmulator.C220.Mte.Burst
import AscendEmulator.C220.Mte.Uop
import AscendEmulator.Lib.Run

namespace AscendEmulator.C220.Mte

open Lib

structure MovL1ToOutTransfer where
  sourceAddress : UInt64
  destinationAddress : UInt64
  xm : UInt64
  deriving DecidableEq

namespace MovL1ToOutTransfer

def layout (t : MovL1ToOutTransfer) : BurstLayout := BurstLayout.decode t.xm

def segments (t : MovL1ToOutTransfer) : Option (List BurstSegment) :=
  t.layout.segments t.sourceAddress t.destinationAddress

end MovL1ToOutTransfer

inductive L1OutputRoute where
  | perBurst | contiguous | gather
  deriving DecidableEq

structure L1OutputRead where
  sourceAddress : UInt64
  bytes : Nat
  destinationAddress : UInt64
  destinationBytes : Nat
  lastInTransaction : Bool
  lastInInstruction : Bool
  deriving DecidableEq

structure L1OutputReadPlan where
  transfer : MovL1ToOutTransfer
  mode : DmaUopMode
  bandwidth : Nat
  route : L1OutputRoute
  groups : Nat
  groupBytes : Nat
  sourceStride : Nat
  destinationStride : Nat
  group : Nat
  offset : Nat
  transactionBytes : Nat
  readOffset : Nat
  gatherSourceOffset : Nat
  deriving DecidableEq

namespace L1OutputReadPlan

def routeOf (t : MovL1ToOutTransfer) : L1OutputRoute :=
  let l := t.layout
  if l.sourceGap = 0 ∧ l.destinationGap = 0 then .contiguous
  else if t.sourceAddress % 32 = 0 ∧ t.destinationAddress % 64 = 0 ∧ l.sourceGap ≠ 0 ∧ l.destinationGap = 0 ∧
      1 < l.count ∧ l.length = 2 then .gather
  else .perBurst

def new (t : MovL1ToOutTransfer) (mode : DmaUopMode) (bandwidth : NonZeroU32) : L1OutputReadPlan :=
  let l := t.layout
  let flatten := routeOf t ≠ .perBurst
  { transfer := t
    mode
    bandwidth := bandwidth.val.toNat
    route := routeOf t
    groups := if l.count = 0 ∨ l.length = 0 then 0 else if flatten then 1 else l.count.toNat
    groupBytes := l.length.toNat * 32 * (if flatten then l.count.toNat else 1) % u32
    sourceStride := (l.length.toNat + l.sourceGap.toNat) * 32
    destinationStride := (l.length.toNat + l.destinationGap.toNat) * 32
    group := 0
    offset := 0
    transactionBytes := 0
    readOffset := 0
    gatherSourceOffset := 0 }

section Next

variable (p : L1OutputReadPlan)

def destinationAddress : UInt64 :=
  p.transfer.destinationAddress + (p.group * p.destinationStride).toUInt64 + p.offset.toUInt64

/-- The bytes of the transaction that the next read is for: at its first read, what the mode cuts off. -/
def transaction : Nat :=
  if p.transactionBytes = 0 then (p.mode.splitBytes p.destinationAddress (p.groupBytes - p.offset).toUInt32).toNat
  else p.transactionBytes

def sourceOffset : Nat :=
  if p.route = L1OutputRoute.gather then p.gatherSourceOffset
  else p.group * p.sourceStride % u32 + p.offset + p.readOffset

def readBytes : Nat := if p.route = L1OutputRoute.gather then 64 else min (p.transaction - p.readOffset) p.bandwidth

def lastInTransaction : Bool := p.readOffset + p.readBytes = p.transaction

def read : L1OutputRead where
  sourceAddress := p.transfer.sourceAddress + p.sourceOffset.toUInt64
  bytes := p.readBytes
  destinationAddress := p.destinationAddress
  destinationBytes := p.transaction
  lastInTransaction := p.lastInTransaction
  lastInInstruction :=
    p.lastInTransaction && decide (p.offset + p.transaction = p.groupBytes) && decide (p.group + 1 = p.groups)

/-- The plan after a read; a transaction that ends may end its group. -/
def advance : L1OutputReadPlan :=
  let p' := { p with
    gatherSourceOffset :=
      if p.route = L1OutputRoute.gather then (p.gatherSourceOffset + p.sourceStride) % u32 else p.gatherSourceOffset }
  if p.lastInTransaction then
    if p.offset + p.transaction = p.groupBytes then
      { p' with group := p.group + 1, offset := 0, transactionBytes := 0, readOffset := 0 }
    else { p' with offset := p.offset + p.transaction, transactionBytes := 0, readOffset := 0 }
  else { p' with transactionBytes := p.transaction, readOffset := p.readOffset + p.readBytes }

def next : Option (L1OutputRead × L1OutputReadPlan) :=
  if p.groups ≤ p.group ∨ p.groupBytes = 0 then none else some (p.read, p.advance)

end Next

end L1OutputReadPlan

end AscendEmulator.C220.Mte
