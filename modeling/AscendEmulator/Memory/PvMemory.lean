/-
  AscendEmulator.Memory.PvMemory — the paged byte store (`PvMemory`), and the HBM memory that lets the
  allocator decide which of its bytes may be reached (`HbmPvMemory`).

  The bytes of a page are a map from offsets; an index outside the page panics where the source's slice
  does. The chunk loops carry a bound on their turns, and panic if it were too small.
-/

import AscendEmulator.Lib.OrdMap
import AscendEmulator.Lib.Outcome
import AscendEmulator.Memory.Hbm

namespace AscendEmulator.Memory

open Lib Outcome

inductive Architecture where
  | dav2201 | dav3510
  deriving DecidableEq, Repr

/-! ## Pages -/

def pvPageBytes : Nat := 0x100000

/-- `address & PV_PAGE_MASK`. -/
def pageBase (address : Nat) : Nat := address / pvPageBytes * pvPageBytes

inductive PvMemoryError where
  | rangeOverflow
  | pageLimit (limit : Nat)
  deriving DecidableEq, Repr

abbrev PvPage := Nat → UInt8

structure PvMemory where
  defaultByte : UInt8
  maxPages : Nat
  pages : OrdMap Nat PvPage

/-- A part of a transfer that lies in one page. -/
structure Chunk where
  base : Nat
  offset : Nat
  done : Nat
  count : Nat

namespace PvMemory

def new (defaultByte : UInt8) (maxPages : Nat) : PvMemory := ⟨defaultByte, maxPages, .empty⟩

def page (m : PvMemory) (base : Nat) : PvPage := (m.pages.get? base).getD fun _ => m.defaultByte

def readByte (m : PvMemory) (address : Nat) : UInt8 := m.page (pageBase address) (address - pageBase address)

def checkRange (address length : Nat) : Outcome PvMemoryError Unit :=
  if length = 0 then .ok () else (okOr .rangeOverflow (checkedAdd address (length - 1))).map fun _ => ()

/-- The turn of the chunk loop at `done`. -/
def chunkAt (address length done : Nat) : Outcome PvMemoryError Chunk := do
  let at' ← plainAdd address done
  let offset := at' - pageBase at'
  .ok ⟨pageBase at', offset, done, min (pvPageBytes - offset) (length - done)⟩

def chunksFrom (address length : Nat) : Nat → Nat → Outcome PvMemoryError (List Chunk)
  | turns, done =>
    if done < length then
      match turns with
      | 0 => panicked
      | turns + 1 => do
        let chunk ← chunkAt address length done
        let rest ← chunksFrom address length turns (done + chunk.count)
        .ok (chunk :: rest)
    else .ok []

def chunks (address length : Nat) : Outcome PvMemoryError (List Chunk) := chunksFrom address length length 0

/-- The slices of the chunk lie in the page and in the buffer. -/
def Chunk.inBounds (chunk : Chunk) (length : Nat) : Bool :=
  decide (chunk.offset + chunk.count ≤ pvPageBytes) && decide (chunk.done + chunk.count ≤ length)

def readChunk (m : PvMemory) (length : Nat) (chunk : Chunk) : Outcome PvMemoryError (List UInt8) :=
  if Chunk.inBounds chunk length then
    .ok ((List.range chunk.count).map fun i => m.page chunk.base (chunk.offset + i))
  else panicked

/-- `read_into`: what the destination of `length` bytes holds afterwards. -/
def readInto (m : PvMemory) (address length : Nat) : Outcome PvMemoryError (List UInt8) := do
  let _ ← checkRange address length
  let parts ← chunks address length
  let bytes ← parts.mapM (m.readChunk length)
  .ok bytes.flatten

/-- The pages from `base` to `lastBase` that are missing fit in what is left of the limit. -/
def pageBudgetFrom (m : PvMemory) (lastBase : Nat) : Nat → Nat → Nat → Outcome PvMemoryError Unit
  | 0, _, _ => panicked
  | turns + 1, base, missing => do
    let missing := if m.pages.contains base then missing else missing + 1
    let _ ← failIf (!m.pages.contains base && decide (m.maxPages - m.pages.entries.length < missing))
      (.pageLimit m.maxPages)
    if base = lastBase then .ok ()
    else do
      let next ← plainAdd base pvPageBytes
      m.pageBudgetFrom lastBase turns next missing

def checkPageBudget (m : PvMemory) (address length : Nat) : Outcome PvMemoryError Unit :=
  if length = 0 then .ok ()
  else do
    let stop ← plainAdd address length
    let lastBase := pageBase (stop - 1)
    m.pageBudgetFrom lastBase ((lastBase - pageBase address) / pvPageBytes + 1) (pageBase address) 0

/-- Copies a chunk of the source into its page, which is made if it is missing. -/
def copyChunk (source : List UInt8) (chunk : Chunk) (m : PvMemory) : Outcome PvMemoryError PvMemory :=
  if Chunk.inBounds chunk source.length then
    .ok { m with pages := m.pages.insert chunk.base fun i =>
      if chunk.offset ≤ i ∧ i < chunk.offset + chunk.count then source.getD (chunk.done + (i - chunk.offset)) 0
      else m.page chunk.base i }
  else panicked

/-- `write`: the memory afterwards. -/
def write (address : Nat) (source : List UInt8) (m : PvMemory) : Outcome PvMemoryError PvMemory := do
  let _ ← checkRange address source.length
  let _ ← m.checkPageBudget address source.length
  let parts ← chunks address source.length
  parts.foldlM (fun m chunk => copyChunk source chunk m) m

end PvMemory

/-! ## Live ranges -/

inductive HbmResolveError where
  | zeroLength
  | rangeOverflow (address : Nat)
  | unmapped (address stop : Nat)
  deriving DecidableEq, Repr

structure HbmResolvedSpan where
  allocationBase : Nat
  allocationBytes : Nat
  offset : Nat

namespace HbmAllocator

/-- The first allocated span that holds `[address, stop)`. -/
def findLive (address stop : Nat) : List HbmSpan → Outcome HbmResolveError (Option HbmSpan)
  | [] => .ok none
  | span :: rest =>
    if span.allocated && decide (span.base ≤ address) then do
      let last ← plainAdd span.base span.bytes
      if stop ≤ last then .ok (some span) else findLive address stop rest
    else findLive address stop rest

def resolveLive (a : HbmAllocator) (address bytes : Nat) : Outcome HbmResolveError HbmResolvedSpan := do
  let _ ← failIf (bytes == 0) .zeroLength
  let stop ← okOr (.rangeOverflow address) (checkedAdd address bytes)
  let found ← findLive address stop a.spans
  let span ← okOr (.unmapped address stop) found
  .ok ⟨span.base, span.bytes, address - span.base⟩

end HbmAllocator

/-! ## The memory of a device -/

inductive HbmPvMemoryError where
  | allocation (e : HbmAllocationError)
  | resolve (e : HbmResolveError)
  | store (e : PvMemoryError)
  deriving DecidableEq, Repr

/-- The architecture is the allocator's. -/
structure HbmPvMemory where
  architecture : Architecture
  allocator : HbmAllocator
  store : PvMemory

namespace HbmPvMemory

def withRegion (architecture : Architecture) (base bytes : Nat) (defaultByte : UInt8) (maxPages : Nat) :
    Except HbmAllocationError HbmPvMemory :=
  (HbmAllocator.withRegion base bytes).map fun allocator => ⟨architecture, allocator, .new defaultByte maxPages⟩

/-- A call of the allocator. -/
def onAllocator {α : Type} (c : Call HbmAllocator HbmAllocationError α) :
    Call HbmPvMemory (Fault HbmPvMemoryError) α := fun m =>
  match c m.allocator with
  | (.ok a, allocator) => (.ok a, { m with allocator })
  | (.error e, allocator) => (fail (.allocation e), { m with allocator })

def allocate (bytes : Nat) (reserved : Bool) : Call HbmPvMemory (Fault HbmPvMemoryError) Nat :=
  onAllocator (HbmAllocator.allocate bytes reserved)

def free (pointer : Nat) : Call HbmPvMemory (Fault HbmPvMemoryError) Unit := onAllocator (HbmAllocator.free pointer)

def hostToDevice (address : Nat) (source : List UInt8) : Call HbmPvMemory (Fault HbmPvMemoryError) Unit := fun m =>
  if source.length = 0 then (.ok (), m)
  else
    match mapErr .resolve (m.allocator.resolveLive address source.length) with
    | .error e => (.error e, m)
    | .ok _ =>
      match mapErr .store (m.store.write address source) with
      | .error e => (.error e, m)
      | .ok store => (.ok (), { m with store })

/-- What the destination of `length` bytes holds afterwards. -/
def deviceToHost (address length : Nat) (m : HbmPvMemory) : Outcome HbmPvMemoryError (List UInt8) :=
  if length = 0 then .ok []
  else do
    let _ ← mapErr .resolve (m.allocator.resolveLive address length)
    mapErr .store (m.store.readInto address length)

/-! ## Calls -/

inductive MemoryCall where
  | allocate (bytes : Nat) (reserved : Bool)
  | free (pointer : Nat)
  | hostToDevice (address : Nat) (source : List UInt8)
  | deviceToHost (address length : Nat)

inductive MemoryReply where
  | allocated (pointer : Nat)
  | done
  | bytes (l : List UInt8)

def exec (c : MemoryCall) : Call HbmPvMemory (Fault HbmPvMemoryError) MemoryReply := fun m =>
  match c with
  | .allocate bytes reserved => reply .allocated (m.allocate bytes reserved)
  | .free pointer => reply (fun _ => .done) (m.free pointer)
  | .hostToDevice address source => reply (fun _ => .done) (m.hostToDevice address source)
  | .deviceToHost address length => reply .bytes (m.deviceToHost address length, m)

end HbmPvMemory

end AscendEmulator.Memory
