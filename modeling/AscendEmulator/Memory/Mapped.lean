/-
  AscendEmulator.Memory.Mapped — sparse memory bound to absolute addresses (`MappedMemory`).

  `bind` gives every region a base; a transfer belongs to the one region that holds its whole
  range. `Flat` is what the mapped memory is for: one map from addresses to the state last written
  there.
-/

import AscendEmulator.Memory.Sparse

namespace AscendEmulator.Memory

open Lib

structure MemoryMapping where
  regionIndex : Nat
  base : Nat
  allocationBytes : Nat
  deriving DecidableEq, Repr

inductive MemoryMappingError where
  | baseCount (expected actual : Nat)
  | nullBase (region : Nat)
  | zeroSize (region : Nat)
  | addressOverflow (region base bytes : Nat)
  | overlappingRegions (first second : Nat)
  deriving DecidableEq, Repr

inductive MappedMemoryError where
  | zeroLength
  | rangeOverflow (address : Nat)
  | unmapped (address stop : Nat)
  | memory (e : SparseMemoryError)
  deriving DecidableEq, Repr

structure MappedMemory where
  memory : SparseMemory
  bindings : List MemoryMapping

namespace MappedMemory

/-- The mappings of the regions from `index` on, each checked before the next. -/
def mappings : Nat → List MemoryRegion → List Nat → Except MemoryMappingError (List MemoryMapping)
  | index, region :: regions, base :: bases =>
    if base = 0 then .error (.nullBase index)
    else if region.allocationBytes = 0 then .error (.zeroSize index)
    else if checkedAdd base region.allocationBytes = none then
      .error (.addressOverflow index base region.allocationBytes)
    else (mappings (index + 1) regions bases).map (⟨index, base, region.allocationBytes⟩ :: ·)
  | _, _, _ => .ok []

/-- The first two neighbours that overlap. -/
def overlapping : List MemoryMapping → Option (Nat × Nat)
  | first :: second :: rest =>
    if second.base < first.base + first.allocationBytes then some (first.regionIndex, second.regionIndex)
    else overlapping (second :: rest)
  | _ => none

/-- Two mappings of one base overlap, so the order the source's unstable sort leaves them in
    shows in the error alone. -/
def bind (memory : SparseMemory) (regionBases : List Nat) : Except MemoryMappingError MappedMemory :=
  if regionBases.length ≠ memory.regions.length then
    .error (.baseCount memory.regions.length regionBases.length)
  else match mappings 0 memory.regions regionBases with
    | .error e => .error e
    | .ok bindings =>
      let bindings := bindings.mergeSort fun a b => a.base ≤ b.base
      match overlapping bindings with
      | some (first, second) => .error (.overlappingRegions first second)
      | none => .ok { memory, bindings }

/-- The binding holds the whole range. -/
def holds (address stop : Nat) (b : MemoryMapping) : Bool :=
  decide (b.base ≤ address) && decide (stop ≤ b.base + b.allocationBytes)

/-- The region and the offset in it of a transfer. -/
def resolve (m : MappedMemory) (address len : Nat) : Except MappedMemoryError (Nat × Nat) :=
  if len = 0 then .error .zeroLength
  else match checkedAdd address len with
    | none => .error (.rangeOverflow address)
    | some stop =>
      match m.bindings.find? (holds address stop) with
      | none => .error (.unmapped address stop)
      | some b => .ok (b.regionIndex, address - b.base)

def readStatesAt (m : MappedMemory) (address len : Nat) (reserved : Bool) :
    Except MappedMemoryError (List MemoryByteState) :=
  match m.resolve address len with
  | .error e => .error e
  | .ok (region, offset) => (m.memory.readStates region offset len reserved).mapError .memory

/-- A call on the sparse memory. -/
def onMemory (c : Call SparseMemory SparseMemoryError Unit) : Call MappedMemory MappedMemoryError Unit := fun m =>
  ((c m.memory).1.mapError .memory, { m with memory := (c m.memory).2 })

/-- A call on the region and offset that a range resolves to. -/
def resolved (address len : Nat) (c : Nat → Nat → Call SparseMemory SparseMemoryError Unit) :
    Call MappedMemory MappedMemoryError Unit := fun m =>
  match m.resolve address len with
  | .error e => (.error e, m)
  | .ok (region, offset) => onMemory (c region offset) m

def writeKnownAt (address : Nat) (bytes : List UInt8) : Call MappedMemory MappedMemoryError Unit :=
  resolved address bytes.length fun region offset => SparseMemory.writeKnown region offset bytes

def writeStatesAt (address : Nat) (states : List MemoryByteState) : Call MappedMemory MappedMemoryError Unit :=
  resolved address states.length fun region offset => SparseMemory.writeStates region offset states

def writeUnknownAt (address len : Nat) : Call MappedMemory MappedMemoryError Unit :=
  resolved address len fun region offset => SparseMemory.writeUnknown region offset len

/-- The segments of a batch, resolved in order; or the first error. -/
def resolveSegments (m : MappedMemory) :
    List (Nat × List MemoryByteState) → Except MappedMemoryError (List SparseMemory.Segment)
  | [] => .ok []
  | (address, states) :: rest =>
    match m.resolve address states.length with
    | .error e => .error e
    | .ok (region, offset) => (m.resolveSegments rest).map ((region, offset, states) :: ·)

def writeSegmentsAt (segments : List (Nat × List MemoryByteState)) : Call MappedMemory MappedMemoryError Unit := fun m =>
  match m.resolveSegments segments with
  | .error e => (.error e, m)
  | .ok resolved => onMemory (SparseMemory.writeSegments resolved) m

/-! ## Calls -/

inductive MappedCall where
  | writeKnownAt (address : Nat) (bytes : List UInt8)
  | writeStatesAt (address : Nat) (states : List MemoryByteState)
  | writeUnknownAt (address len : Nat)
  | writeSegmentsAt (segments : List (Nat × List MemoryByteState))

def exec : MappedCall → Call MappedMemory MappedMemoryError Unit
  | .writeKnownAt address bytes => MappedMemory.writeKnownAt address bytes
  | .writeStatesAt address states => MappedMemory.writeStatesAt address states
  | .writeUnknownAt address len => MappedMemory.writeUnknownAt address len
  | .writeSegmentsAt segments => MappedMemory.writeSegmentsAt segments

/-- The segments of a batch, each written by itself. -/
def writeEach : List (Nat × List MemoryByteState) → Call MappedMemory MappedMemoryError Unit
  | [] => fun m => (.ok (), m)
  | (address, states) :: rest => (MappedMemory.writeStatesAt address states).bind fun _ => writeEach rest

end MappedMemory

/-! ## The flat map -/

/-- What a mapped memory is for: one map from addresses to the state last written there. -/
abbrev Flat := Nat → Option MemoryByteState

namespace Flat

/-- The states of a range are overwritten. -/
def write (f : Flat) (address : Nat) (states : List MemoryByteState) : Flat := fun a =>
  if address ≤ a then (states[a - address]?).or (f a) else f a

/-- The segments a call writes, in order. -/
def segments : MappedMemory.MappedCall → List (Nat × List MemoryByteState)
  | .writeKnownAt address bytes => [(address, bytes.map .known)]
  | .writeStatesAt address states => [(address, states)]
  | .writeUnknownAt address len => [(address, List.replicate len .unknown)]
  | .writeSegmentsAt segments => segments

/-- A successful call writes its segments; a failed one writes nothing. -/
def apply (f : Flat) (e : MappedMemory.MappedCall × Except MappedMemoryError Unit) : Flat :=
  match e.2 with
  | .ok () => (segments e.1).foldl (fun f g => f.write g.1 g.2) f
  | .error _ => f

end Flat

namespace MappedMemory

/-- The cell of an address. -/
def locate (m : MappedMemory) (a : Nat) : Option Cell :=
  (m.bindings.find? (holds a (a + 1))).map fun b => cell b.regionIndex (a - b.base)

/-- What lies over the initial bytes, by address. -/
def written (m : MappedMemory) : Flat := fun a => (m.locate a).bind m.memory.overlays.get?

/-- The byte an address starts with: one of its region's initial bytes, or unknown. -/
def initial (m : MappedMemory) (a : Nat) : MemoryByteState :=
  (m.locate a).elim .unknown (SparseMemory.initialState m.memory.regions)

end MappedMemory

end AscendEmulator.Memory
