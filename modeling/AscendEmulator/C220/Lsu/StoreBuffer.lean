/-
  AscendEmulator.C220.Lsu.StoreBuffer — the store buffer (`C220LsuStoreBuffer`): stores coalesce by cache line until
  the line is written.

  Every entry has a byte and a valid bit for each byte of the line: the buffer carries that as a field. An operation
  checks before it changes anything, so it returns the new buffer or the error.
-/

import AscendEmulator.C220.Lsu.Commit
import AscendEmulator.Lib.KeyedVec
import AscendEmulator.Lib.Overlay

namespace AscendEmulator.C220.Lsu

open Lib

structure LineKey where
  address : UInt64
  memory : LsuMemory
  deriving DecidableEq

inductive StoreState where
  | idle | fetching | ready
  deriving DecidableEq, Repr

structure StoreConfig where
  lineBytes : Nat
  mainEntries : Nat
  subEntries : Nat
  timeoutTicks : Nat
  deriving DecidableEq, Repr

inductive StoreError where
  | invalidConfig
  | unalignedLine
  | invalidRange
  | missingEntry
  | blocked
  | invalidWriteResponse
  | incompleteLine
  deriving DecidableEq, Repr

inductive Completion where
  | store (request : Nat)
  | load (request : Nat)
  deriving DecidableEq, Repr

def checkedRange (offset bytes lineBytes : Nat) : Except StoreError Unit :=
  if offset + bytes ≤ lineBytes then .ok () else .error .invalidRange

structure StoreEntry where
  state : StoreState
  cacheHit : Bool
  forbidden : Bool
  remainingTicks : Nat
  requests : List Nat
  bytes : List UInt8
  valid : List Bool

namespace StoreEntry

/-- Apply only written bytes to an already allocated cache line. -/
def writeValidBytes (e : StoreEntry) (line : List UInt8) : Except StoreError (List UInt8) :=
  if line.length ≠ e.bytes.length then .error .invalidRange else .ok (overlay line e.bytes e.valid)

def coveredBytes (e : StoreEntry) (offset bytes : Nat) : Except StoreError Nat :=
  (checkedRange offset bytes e.bytes.length).map fun () => ((e.valid.drop offset).take bytes).count true

/-- Copy a prefix whose length equals the number of covered request bytes. -/
def forwardScalar (e : StoreEntry) (offset : Nat) (destination : List UInt8) : Except StoreError (List UInt8 × Nat) :=
  if 8 < destination.length then .error .invalidRange
  else (e.coveredBytes offset destination.length).map fun count =>
    (splice destination 0 ((e.bytes.drop offset).take count), count)

structure Ok (config : StoreConfig) (e : StoreEntry) : Prop where
  bytes : e.bytes.length = config.lineBytes
  valid : e.valid.length = config.lineBytes

end StoreEntry

structure StoreBuffer where
  config : StoreConfig
  entries : KeyedVec LineKey StoreEntry
  ok : ∀ key e, entries.get? key = some e → e.Ok config

namespace StoreBuffer

def lineBytes (b : StoreBuffer) : Nat := b.config.lineBytes

def new (config : StoreConfig) : Except StoreError StoreBuffer :=
  if config.lineBytes = 0 ∨ config.mainEntries = 0 ∨ config.subEntries = 0 then .error .invalidConfig
  else .ok ⟨config, .empty, nofun⟩

def entry (b : StoreBuffer) (key : LineKey) : Option StoreEntry := b.entries.get? key

/-- A matching line consumes a sub-entry, even when all main entries are used. -/
def full (b : StoreBuffer) (key : LineKey) : Bool :=
  match b.entry key with
  | none => decide (b.config.mainEntries ≤ b.entries.length)
  | some e => decide (b.config.subEntries ≤ e.requests.length)

/-- The entry that `insert` pushes for a new line. -/
def fresh (b : StoreBuffer) (cacheHit : Bool) : StoreEntry where
  state := .idle
  cacheHit
  forbidden := false
  remainingTicks := b.config.timeoutTicks
  requests := []
  bytes := List.replicate b.config.lineBytes 0
  valid := List.replicate b.config.lineBytes false

/-- One more store in an entry. -/
def coalesce (request offset : Nat) (bytes : List UInt8) (e : StoreEntry) : StoreEntry :=
  { e with
    bytes := splice e.bytes offset bytes
    valid := splice e.valid offset (List.replicate bytes.length true)
    requests := e.requests ++ [request] }

theorem coalesce_ok {config : StoreConfig} {request offset : Nat} {bytes : List UInt8} {e : StoreEntry}
    (hrange : offset + bytes.length ≤ config.lineBytes) (h : e.Ok config) :
    (coalesce request offset bytes e).Ok config := by
  have hbytes := h.bytes
  have hvalid := h.valid
  constructor
  · rw [← hbytes]
    exact length_splice (by omega)
  · rw [← hvalid]
    exact length_splice (by rw [List.length_replicate]; omega)

/-- The entry a store finds or pushes. -/
theorem getD_ok (b : StoreBuffer) (key : LineKey) (cacheHit : Bool) :
    ((b.entries.get? key).getD (b.fresh cacheHit)).Ok b.config := by
  cases hk : b.entries.get? key with
  | none => exact ⟨List.length_replicate, List.length_replicate⟩
  | some e => exact b.ok _ _ hk

def insert (b : StoreBuffer) (key : LineKey) (request offset : Nat) (bytes : List UInt8)
    (cacheHit allowForbidden : Bool) : Except StoreError StoreBuffer :=
  if key.address.toNat % b.config.lineBytes ≠ 0 then .error .unalignedLine
  else if hrange : offset + bytes.length ≤ b.config.lineBytes then
    if b.full key || (!allowForbidden && (b.entry key).any (·.forbidden)) then .error .blocked
    else .ok ⟨b.config, b.entries.upsert key (b.fresh cacheHit) (coalesce request offset bytes), fun k e he => by
      rw [KeyedVec.get?_upsert] at he
      split at he
      · cases he
        exact coalesce_ok hrange (b.getD_ok key cacheHit)
      · exact b.ok _ _ he⟩
  else .error .invalidRange

def store (b : StoreBuffer) (key : LineKey) (request offset : Nat) (bytes : List UInt8) (cacheHit : Bool) :
    Except StoreError StoreBuffer := b.insert key request offset bytes cacheHit false

/-- Atomic stores may merge into a forbidden entry. -/
def storeAtomic (b : StoreBuffer) (key : LineKey) (request offset : Nat) (bytes : List UInt8) (cacheHit : Bool) :
    Except StoreError StoreBuffer := b.insert key request offset bytes cacheHit true

/-- Every entry goes through `f`, which keeps it well formed. -/
def mapEntries (b : StoreBuffer) (f : StoreEntry → StoreEntry) (hf : ∀ e, e.Ok b.config → (f e).Ok b.config) :
    StoreBuffer :=
  ⟨b.config, b.entries.mapValues f, fun k e he => by
    rw [KeyedVec.get?_mapValues] at he
    obtain ⟨e', he', rfl⟩ := Option.map_eq_some_iff.mp he
    exact hf _ (b.ok _ _ he')⟩

/-- `entry_mut`: the entry of `key` goes through `f`, which keeps it well formed. -/
def modifyEntry (b : StoreBuffer) (key : LineKey) (f : StoreEntry → StoreEntry)
    (hf : ∀ e, e.Ok b.config → (f e).Ok b.config) : Except StoreError StoreBuffer :=
  if (b.entry key).isNone then .error .missingEntry
  else .ok ⟨b.config, b.entries.modify key f, fun k e he => by
    rw [KeyedVec.get?_modify] at he
    split at he
    · obtain ⟨e', he', rfl⟩ := Option.map_eq_some_iff.mp he
      exact hf _ (b.ok _ _ he')
    · exact b.ok _ _ he⟩

/-- Called once at the start of each store-buffer processing tick. -/
def advanceTimeouts (b : StoreBuffer) : StoreBuffer :=
  b.mapEntries (fun e => { e with remainingTicks := e.remainingTicks - 1 }) fun _ h => ⟨h.bytes, h.valid⟩

def triggerIdleFlush (b : StoreBuffer) : StoreBuffer :=
  b.mapEntries (fun e => if e.state = .idle then { e with remainingTicks := 0 } else e) fun e h => by
    split
    · exact ⟨h.bytes, h.valid⟩
    · exact h

def isReady (b : StoreBuffer) (e : StoreEntry) : Bool :=
  e.state = .idle && (e.remainingTicks = 0 || b.config.subEntries ≤ e.requests.length || e.valid.all id)

/-- The lines ready to be flushed, oldest entry first. -/
def readyToFlush (b : StoreBuffer) : List LineKey := (b.entries.entries.filter fun e => b.isReady e.2).map Prod.fst

def setState (b : StoreBuffer) (key : LineKey) (state : StoreState) : Except StoreError StoreBuffer :=
  b.modifyEntry key (fun e => { e with state }) fun _ h => ⟨h.bytes, h.valid⟩

def setForbidden (b : StoreBuffer) (key : LineKey) (forbidden : Bool) : Except StoreError StoreBuffer :=
  b.modifyEntry key (fun e => { e with forbidden }) fun _ h => ⟨h.bytes, h.valid⟩

/-- Unwritten bytes come from the returned line; newer stores take precedence. -/
def filled (line : List UInt8) (e : StoreEntry) : StoreEntry :=
  { e with bytes := overlay line e.bytes e.valid, valid := List.replicate line.length true }

def mergeLine (b : StoreBuffer) (key : LineKey) (bytes : List UInt8) : Except StoreError StoreBuffer :=
  if hline : bytes.length = b.config.lineBytes then
    b.modifyEntry key (filled bytes) fun _ h =>
      ⟨(length_overlay (h.bytes.trans hline.symm) (h.valid.trans hline.symm)).trans hline,
        List.length_replicate.trans hline⟩
  else .error .invalidRange

def remove (b : StoreBuffer) (key : LineKey) : StoreBuffer :=
  ⟨b.config, b.entries.erase key, fun k e he => by
    rw [KeyedVec.get?_erase] at he
    split at he
    · cases he
    · exact b.ok _ _ he⟩

/-- The bytes of a UB write: the live line under the entry's valid bytes. -/
def prepareUbWrite (b : StoreBuffer) (key : LineKey) (writeAllocate : Bool) (backing : List UInt8) :
    Except StoreError (List UInt8) :=
  if backing.length ≠ b.config.lineBytes then .error .invalidRange
  else match b.entry key with
    | none => .error .missingEntry
    | some e =>
      if key.memory ≠ .ub ∨ e.state = .idle then .error .invalidWriteResponse
      else if writeAllocate && e.valid.any (!·) then .error .incompleteLine
      else e.writeValidBytes backing

end StoreBuffer

end AscendEmulator.C220.Lsu
