/-
  AscendEmulator.C220.Mte.DmaUops — the requests a DMA command is cut into.

  A transfer plan becomes a geometry of bursts and an iterator over it. A burst's source offset
  is a 32-bit product, its destination offset a 64-bit one.
-/

import AscendEmulator.C220.Mte.Burst
import AscendEmulator.C220.Mte.Uop

namespace AscendEmulator.C220.Mte

def DmaUopMode.fromModeWord (value : UInt64) : DmaUopMode :=
  if value &&& 1 = 0 then .wide512
  else if (value >>> 1) &&& 3 = 0 then .wide512
  else if (value >>> 1) &&& 3 = 1 then .wide256
  else if (value >>> 1) &&& 3 = 2 then .fixed128
  else .unbounded

inductive DmaUopError where
  | descriptor (error : MovOutToUbError)
  | outputDescriptor (error : DmaMovError)
  | planSizeMismatch
  | sizeOverflow
  deriving DecidableEq

/-- `Result::map_err`. -/
def mapErr {ε ε' α : Type} (f : ε → ε') : Except ε α → Except ε' α
  | .ok a => .ok a
  | .error e => .error (f e)

/-! ## The request iterator -/

structure DmaRequestGeometry where
  sourceBase : UInt64
  destinationBase : UInt64
  burstCount : UInt16
  burstBytes : UInt64
  sourceStride : UInt64
  destinationStride : UInt64
  splitOnDestination : Bool
  splitEnabled : Bool
  deriving DecidableEq

structure DmaUops where
  sid : UInt8
  destination : DmaDestinationLayout
  geometry : DmaRequestGeometry
  route : DmaUopRoute
  mode : DmaUopMode
  burstIndex : UInt16
  offset : UInt64
  deriving DecidableEq

namespace DmaUops

def outOfOrder (u : DmaUops) : Bool := u.geometry.splitEnabled

def next (u : DmaUops) : Option (DmaUopRequest × DmaUops) :=
  let g := u.geometry
  if u.burstIndex ≥ g.burstCount ∨ g.burstBytes = 0 then none
  else
    let sourceAddress := g.sourceBase + (u.burstIndex.toUInt32 * g.sourceStride.toUInt32).toUInt64 + u.offset
    let destinationAddress := g.destinationBase + u.burstIndex.toUInt64 * g.destinationStride + u.offset
    let alignedAddress := if g.splitOnDestination then destinationAddress else sourceAddress
    let remaining := g.burstBytes - u.offset
    let bytes := if !g.splitEnabled then remaining else (u.mode.splitBytes alignedAddress remaining.toUInt32).toUInt64
    let offset := u.offset + bytes
    let lastInBurst := decide (offset = g.burstBytes)
    some ({ route := u.route, sourceAddress, destinationAddress, bytes := bytes.toUInt32, lastInBurst },
      if lastInBurst then { u with burstIndex := u.burstIndex + 1, offset := 0 } else { u with offset })

/-- The requests, when the iterator ends within `fuel` of them. -/
def collectRecords : Nat → DmaUops → Option (List DmaUopRequest)
  | fuel, u =>
    match u.next with
    | none => some []
    | some (request, rest) =>
      match fuel with
      | 0 => none
      | fuel + 1 => (collectRecords fuel rest).map (request :: ·)

end DmaUops

def splitRequests (geometry : DmaRequestGeometry) (route : DmaUopRoute) (mode : DmaUopMode) :
    Except DmaUopError DmaUops :=
  if geometry.burstBytes > 0xffffffff then .error .sizeOverflow
  else .ok {
    sid := 0
    destination := ⟨geometry.destinationBase, geometry.burstBytes.toUInt32, geometry.destinationStride⟩
    geometry
    route
    mode
    burstIndex := 0
    offset := 0 }

/-! ## MTE2 -/

structure Mte2TransferPlan where
  descriptor : MovOutToUbDescriptor
  sourceAddress : UInt64
  destinationAddress : UInt64
  bytes : Nat
  dmaModeWord : UInt64
  deriving DecidableEq

def checkedDescriptor (transfer : Mte2TransferPlan) : Except DmaUopError MovOutToUbDescriptor := do
  let descriptor ← mapErr .descriptor
    (MovOutToUbDescriptor.decode transfer.descriptor.instructionWord transfer.descriptor.xm)
  if descriptor ≠ transfer.descriptor then throw (.descriptor .inconsistentDescriptor)
  if transfer.bytes ≠ descriptor.burstCount.toNat * descriptor.burstLength.toNat * 32 then throw .planSizeMismatch
  let _ ← mapErr .descriptor (descriptor.segmentIter transfer.sourceAddress transfer.destinationAddress)
  return descriptor

def splitMte2Requests (transfer : Mte2TransferPlan) (descriptor : MovOutToUbDescriptor) (route : DmaUopRoute)
    (mode : DmaUopMode) : Except DmaUopError DmaUops :=
  let batch := decide (route = .contiguousBatch)
  splitRequests {
    sourceBase := transfer.sourceAddress
    destinationBase := transfer.destinationAddress
    burstCount := if batch then 1 else descriptor.burstCount
    burstBytes := if batch then transfer.bytes.toUInt32.toUInt64 else descriptor.burstLength.toUInt64 * 32
    sourceStride := (descriptor.burstLength.toUInt64 + descriptor.sourceGap.toUInt64) * 32
    destinationStride := (descriptor.burstLength.toUInt64 + descriptor.destinationGap.toUInt64) * 32
    splitOnDestination := false
    splitEnabled := transfer.sourceAddress % 32 == 0 } route mode

def mte2RequestStream (transfer : Mte2TransferPlan) : Except DmaUopError DmaUops := do
  let descriptor ← checkedDescriptor transfer
  let mode := DmaUopMode.fromModeWord transfer.dmaModeWord
  if descriptor.sourceGap = 0 ∧ descriptor.destinationGap = 0 then
    splitMte2Requests transfer descriptor .contiguousBatch mode
  else if descriptor.sourceGap = 0 ∧ descriptor.destinationGap ≠ 0 ∧
      1 ≤ descriptor.burstLength ∧ descriptor.burstLength ≤ 2 then
    if transfer.bytes ≥ 2 ^ 32 then throw .sizeOverflow
    else
      splitRequests {
        sourceBase := transfer.sourceAddress
        destinationBase := transfer.destinationAddress
        burstCount := 1
        burstBytes := transfer.bytes.toUInt32.toUInt64
        sourceStride := 0
        destinationStride := 0
        splitOnDestination := false
        splitEnabled := false } .destinationGapCollapse mode
  else splitMte2Requests transfer descriptor .ordinary mode

def mte2Uops (transfer : Mte2TransferPlan) : Except DmaUopError DmaUops := do
  let requests ← mte2RequestStream transfer
  return { requests with
    sid := transfer.descriptor.sid
    destination := {
      base := transfer.destinationAddress
      burstBytes := transfer.descriptor.burstLength.toUInt32 * 32
      burstStride := (transfer.descriptor.burstLength.toUInt64 + transfer.descriptor.destinationGap.toUInt64) * 32 } }

/-! ## MTE2 to L1 -/

inductive L1DmaLayout where
  | copy32 | pad1 | pad2 | pad4 | pad8 | pad16 | take4 | take8 | take16
  deriving DecidableEq

namespace L1DmaLayout

def sourceBytes : L1DmaLayout → UInt32
  | pad1 => 1
  | pad2 => 2
  | pad4 => 4
  | pad8 => 8
  | pad16 => 16
  | _ => 32

def destinationBytes : L1DmaLayout → UInt32
  | take4 => 4
  | take8 => 8
  | take16 => 16
  | _ => 32

/-- The route of a layout that pads or truncates its units. -/
def transform : L1DmaLayout → Option DmaUopRoute
  | pad1 => some .l1Pad1
  | pad2 => some .l1Pad2
  | pad4 => some .l1Pad4
  | pad8 => some .l1Pad8
  | pad16 => some .l1Pad16
  | take4 => some .l1Take4
  | take8 => some .l1Take8
  | take16 => some .l1Take16
  | copy32 => none

end L1DmaLayout

structure L1DmaDescriptor where
  xm : UInt64
  layout : L1DmaLayout
  deriving DecidableEq

namespace L1DmaDescriptor

def burstCount (d : L1DmaDescriptor) : UInt16 := ((d.xm >>> 4) &&& 0xfff).toUInt16

def burstLength (d : L1DmaDescriptor) : UInt16 := (d.xm >>> 16).toUInt16

def sourceGap (d : L1DmaDescriptor) : UInt16 := (d.xm >>> 32).toUInt16

def destinationGap (d : L1DmaDescriptor) : UInt16 := (d.xm >>> 48).toUInt16

def isDisabled (d : L1DmaDescriptor) : Bool := d.burstCount == 0 || d.burstLength == 0

end L1DmaDescriptor

def mte2L1RequestStream (descriptor : L1DmaDescriptor) (sourceAddress destinationAddress dmaModeWord : UInt64) :
    Except DmaUopError DmaUops :=
  let mode := DmaUopMode.fromModeWord dmaModeWord
  let count := descriptor.burstCount
  let length := descriptor.burstLength
  match descriptor.layout.transform with
  | some route =>
    let sourceUnit := descriptor.layout.sourceBytes
    let padding := route.paddedUnitBytes.isSome
    splitRequests {
      sourceBase := sourceAddress
      destinationBase := destinationAddress
      burstCount := if descriptor.isDisabled then 0 else 1
      burstBytes := ((if padding then sourceUnit else length.toUInt32 * sourceUnit) * count.toUInt32).toUInt64
      sourceStride := (length.toUInt64 + descriptor.sourceGap.toUInt64) * sourceUnit.toUInt64
      destinationStride :=
        (length.toUInt64 + descriptor.destinationGap.toUInt64) * descriptor.layout.destinationBytes.toUInt64
      splitOnDestination := false
      splitEnabled := padding && sourceAddress % 32 == 0 } route mode
  | none =>
    let batch := decide (descriptor.sourceGap = 0 ∧ descriptor.destinationGap = 0)
    let collapsed := !batch && decide (descriptor.sourceGap = 0 ∧ 1 ≤ length ∧ length ≤ 2)
    let burstBytes := length.toUInt32 * 32
    let destinationStride := (length.toUInt64 + descriptor.destinationGap.toUInt64) * 32
    let geometry : DmaRequestGeometry := {
      sourceBase := sourceAddress
      destinationBase := destinationAddress
      burstCount := if count = 0 ∨ length = 0 then 0 else if batch || collapsed then 1 else count
      burstBytes := (if batch || collapsed then burstBytes * count.toUInt32 else burstBytes).toUInt64
      sourceStride := (length.toUInt64 + descriptor.sourceGap.toUInt64) * 32
      destinationStride
      splitOnDestination := false
      splitEnabled := !collapsed && sourceAddress % 32 == 0 }
    let route : DmaUopRoute :=
      if batch then .contiguousBatch else if collapsed then .destinationGapCollapse else .ordinary
    match splitRequests geometry route mode with
    | .error e => .error e
    | .ok requests => .ok { requests with destination := ⟨destinationAddress, burstBytes, destinationStride⟩ }

def mte2L1Uops (descriptor : L1DmaDescriptor) (sourceAddress destinationAddress dmaModeWord : UInt64) :
    Except DmaUopError DmaUops := do
  let requests ← mte2L1RequestStream descriptor sourceAddress destinationAddress dmaModeWord
  return { requests with sid := (descriptor.xm &&& 0xf).toUInt8 }

/-! ## MTE3 -/

structure Mte3TransferPlan where
  descriptor : DmaMovDescriptor
  sourceAddress : UInt64
  destinationAddress : UInt64
  bytes : Nat
  dmaModeWord : UInt64
  deriving DecidableEq

def mte3RequestStream (transfer : Mte3TransferPlan) : Except DmaUopError DmaUops := do
  let descriptor ← mapErr .outputDescriptor
    (DmaMovDescriptor.decode transfer.descriptor.instructionWord transfer.descriptor.xm)
  if descriptor ≠ transfer.descriptor then throw (.outputDescriptor .inconsistentDescriptor)
  if transfer.bytes ≠ descriptor.byteCount then throw .planSizeMismatch
  let _ ← mapErr .outputDescriptor (descriptor.segmentIter transfer.sourceAddress transfer.destinationAddress)
  let batch := decide (descriptor.sourceGap = 0 ∧ descriptor.destinationGap = 0 ∧
    (!descriptor.byteMode ∨ descriptor.burstBytes % 32 = 0))
  let gather := !batch && decide (transfer.sourceAddress % 32 = 0 ∧ transfer.destinationAddress % 64 = 0 ∧
    descriptor.sourceGap ≠ 0 ∧ descriptor.destinationGap = 0 ∧ descriptor.burstCount > 1 ∧
    descriptor.burstLength = 2)
  let flatten := batch || gather
  splitRequests {
    sourceBase := transfer.sourceAddress
    destinationBase := transfer.destinationAddress
    burstCount := if flatten then 1 else descriptor.burstCount
    burstBytes := if flatten then transfer.bytes.toUInt32.toUInt64 else descriptor.burstBytes.toUInt64
    sourceStride := descriptor.sourceStrideBytes.toUInt64
    destinationStride := descriptor.destinationStrideBytes
    splitOnDestination := true
    splitEnabled := true }
    (if batch then .contiguousBatch else if gather then .sourceGapGather else .ordinary)
    (DmaUopMode.fromModeWord transfer.dmaModeWord)

def mte3Uops (transfer : Mte3TransferPlan) : Except DmaUopError DmaUops := do
  let requests ← mte3RequestStream transfer
  return { requests with sid := transfer.descriptor.sid }

end AscendEmulator.C220.Mte
