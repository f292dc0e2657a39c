/-
  AscendEmulator.Memory.Sparse — memory regions with overlays (`SparseMemory`): a region keeps its
  initial bytes, and what was written since lies over them.

  The per-region maps of overlaid bytes are one map here, keyed by (region, offset). Offsets and
  lengths are `u64` and `usize` (both 64 bits); whether the host can reserve the result of a read
  is an input of the read.
-/

import AscendEmulator.Lib.Run
import AscendEmulator.Lib.OrdMap

namespace AscendEmulator.Memory

open Lib

inductive MemoryByteState where
  | known (value : UInt8)
  | unknown
  deriving DecidableEq, Repr

/-- The initial bytes of a region fit in it. -/
structure MemoryRegion where
  allocationBytes : Nat
  knownPrefix : List UInt8
  fits : knownPrefix.length ≤ allocationBytes

def MemoryRegion.new (allocationBytes : Nat) (knownPrefix : List UInt8) : Option MemoryRegion :=
  if h : knownPrefix.length ≤ allocationBytes then some ⟨allocationBytes, knownPrefix, h⟩ else none

inductive SparseMemoryError where
  | invalidRegion (region : Nat)
  | rangeOverflow (region : Nat)
  | outOfBounds (region offset «end» allocationBytes : Nat)
  | transferLimitExceeded (requested limit : Nat)
  | overlayLimitExceeded (limit : Nat)
  | hostAllocationFailed (requested : Nat)
  | unknownBytes (region offset : Nat)
  deriving DecidableEq, Repr

/-- A region with an offset in it. -/
abbrev Cell := Nat ×ₗ Nat

def cell (region offset : Nat) : Cell := toLex (region, offset)

structure SparseMemory where
  regions : List MemoryRegion
  overlays : OrdMap Cell MemoryByteState
  overlayBytes : Nat
  maxOverlayBytes : Nat
  maxTransferBytes : Nat

namespace SparseMemory

def new (regions : List MemoryRegion) (maxOverlayBytes maxTransferBytes : Nat) : SparseMemory :=
  { regions, overlays := .empty, overlayBytes := 0, maxOverlayBytes, maxTransferBytes }

/-- The byte a region starts with. -/
def initialState (regions : List MemoryRegion) (c : Cell) : MemoryByteState :=
  match regions[(ofLex c).1]? with
  | none => .unknown
  | some region => (region.knownPrefix[(ofLex c).2]?).elim .unknown .known

def byteState (m : SparseMemory) (region offset : Nat) : MemoryByteState :=
  (m.overlays.get? (cell region offset)).getD (initialState m.regions (cell region offset))

def checkRange (m : SparseMemory) (region offset len : Nat) : Except SparseMemoryError Unit :=
  match m.regions[region]? with
  | none => .error (.invalidRegion region)
  | some r =>
    if m.maxTransferBytes < len then .error (.transferLimitExceeded len m.maxTransferBytes)
    else match checkedAdd offset len with
      | none => .error (.rangeOverflow region)
      | some stop =>
        if r.allocationBytes < stop then .error (.outOfBounds region offset stop r.allocationBytes) else .ok ()

def readStates (m : SparseMemory) (region offset len : Nat) (reserved : Bool) :
    Except SparseMemoryError (List MemoryByteState) :=
  match m.checkRange region offset len with
  | .error e => .error e
  | .ok () =>
    if reserved then .ok ((List.range len).map fun index => m.byteState region (offset + index))
    else .error (.hostAllocationFailed len)

/-- The overlaid byte count after `newly` more bytes, within the limit. -/
def nextCount (m : SparseMemory) (newly : Nat) : Except SparseMemoryError Nat :=
  match (checkedAdd m.overlayBytes newly).filter (· ≤ m.maxOverlayBytes) with
  | none => .error (.overlayLimitExceeded m.maxOverlayBytes)
  | some count => .ok count

/-- The cells of a transfer, with the states written to them. -/
def cells (region offset len : Nat) (value : Nat → MemoryByteState) : List (Cell × MemoryByteState) :=
  (List.range len).map fun index => (cell region (offset + index), value index)

def writeWith (region offset len : Nat) (value : Nat → MemoryByteState) : Call SparseMemory SparseMemoryError Unit :=
  fun m =>
    match m.checkRange region offset len with
    | .error e => (.error e, m)
    | .ok () =>
      let newly := ((List.range len).filter fun index => !m.overlays.contains (cell region (offset + index))).length
      match m.nextCount newly with
      | .error e => (.error e, m)
      | .ok count =>
        (.ok (), { m with overlays := m.overlays.insertAll (cells region offset len value), overlayBytes := count })

def stateAt (states : List MemoryByteState) (index : Nat) : MemoryByteState := states[index]?.getD .unknown

def writeKnown (region offset : Nat) (bytes : List UInt8) : Call SparseMemory SparseMemoryError Unit :=
  writeWith region offset bytes.length (stateAt (bytes.map .known))

def writeStates (region offset : Nat) (states : List MemoryByteState) : Call SparseMemory SparseMemoryError Unit :=
  writeWith region offset states.length (stateAt states)

def writeUnknown (region offset len : Nat) : Call SparseMemory SparseMemoryError Unit :=
  writeWith region offset len fun _ => .unknown

/-- A segment of a batch: a region, an offset in it, and the states to write there. -/
abbrev Segment := Nat × Nat × List MemoryByteState

def Segment.cells (g : Segment) : List (Cell × MemoryByteState) :=
  SparseMemory.cells g.1 g.2.1 g.2.2.length (stateAt g.2.2)

/-- The cells of a batch that are not overlaid yet, each counted once; or the first range error. -/
def newlyOverlaid (m : SparseMemory) : List Segment → Finset Cell → Except SparseMemoryError (Finset Cell)
  | [], newly => .ok newly
  | g :: rest, newly =>
    match m.checkRange g.1 g.2.1 g.2.2.length with
    | .error e => .error e
    | .ok () => m.newlyOverlaid rest
        (newly ∪ ((g.cells.map Prod.fst).filter fun c => !m.overlays.contains c).toFinset)

def writeSegments (segments : List Segment) : Call SparseMemory SparseMemoryError Unit := fun m =>
  match m.newlyOverlaid segments ∅ with
  | .error e => (.error e, m)
  | .ok newly =>
    match m.nextCount newly.card with
    | .error e => (.error e, m)
    | .ok count =>
      (.ok (), { m with overlays := m.overlays.insertAll (segments.flatMap Segment.cells), overlayBytes := count })

/-! ## Calls -/

inductive SparseCall where
  | writeKnown (region offset : Nat) (bytes : List UInt8)
  | writeStates (region offset : Nat) (states : List MemoryByteState)
  | writeUnknown (region offset len : Nat)
  | writeSegments (segments : List Segment)

def exec : SparseCall → Call SparseMemory SparseMemoryError Unit
  | .writeKnown region offset bytes => SparseMemory.writeKnown region offset bytes
  | .writeStates region offset states => SparseMemory.writeStates region offset states
  | .writeUnknown region offset len => SparseMemory.writeUnknown region offset len
  | .writeSegments segments => SparseMemory.writeSegments segments

end SparseMemory

end AscendEmulator.Memory
