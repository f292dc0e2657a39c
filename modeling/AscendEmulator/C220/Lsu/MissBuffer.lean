/-
  AscendEmulator.C220.Lsu.MissBuffer — the miss buffer (`C220LsuMissBuffer`): load misses coalesce by cache line
  until the bytes of the line return; and the acknowledgement of a UB write, which releases both entries of a line.
-/

import AscendEmulator.C220.Lsu.StoreBuffer
import AscendEmulator.Lib.Outcome

namespace AscendEmulator.C220.Lsu

open Lib

structure MissConfig where
  lineBytes : Nat
  mainEntries : Nat
  subEntries : Nat
  deriving DecidableEq, Repr

inductive MissState where
  | idle | fetching | ready
  deriving DecidableEq, Repr

inductive MissReadAction where
  | issueRead | joinedRead | waitingForStore
  deriving DecidableEq, Repr

inductive MissError where
  | invalidConfig
  | unalignedLine
  | blocked
  | missingEntry
  | invalidLineSize
  deriving DecidableEq, Repr

structure MissEntry where
  state : MissState
  forbidden : Bool
  requests : List Nat
  data : List UInt8

structure MissBuffer where
  config : MissConfig
  entries : KeyedVec LineKey MissEntry

namespace MissBuffer

def lineBytes (b : MissBuffer) : Nat := b.config.lineBytes

def new (config : MissConfig) : Except MissError MissBuffer :=
  if config.lineBytes = 0 ∨ config.mainEntries = 0 ∨ config.subEntries = 0 then .error .invalidConfig
  else .ok ⟨config, .empty⟩

def entry (b : MissBuffer) (key : LineKey) : Option MissEntry := b.entries.get? key

def full (b : MissBuffer) (key : LineKey) : Bool :=
  match b.entry key with
  | none => decide (b.config.mainEntries ≤ b.entries.length)
  | some e => decide (b.config.subEntries ≤ e.requests.length)

/-- The entry that `push` makes for a new line. -/
def fresh (b : MissBuffer) : MissEntry where
  state := .idle
  forbidden := false
  requests := []
  data := List.replicate b.config.lineBytes 0

/-- One more load in an entry, which is in `state` from then on. -/
def joined (request : Nat) (state : MissState) (e : MissEntry) : MissEntry :=
  { e with requests := e.requests ++ [request], state }

/-- What a new load of a line does, by the states of its miss and store entries: the action, the state of the miss
entry, and whether the store entry starts to fetch. -/
def readAction (miss : MissState) (store : Option StoreState) : MissReadAction × MissState × Bool :=
  if miss ≠ .idle then (.joinedRead, miss, false)
  else match store with
    | some .ready => (.waitingForStore, .idle, false)
    | some .fetching => (.joinedRead, .fetching, false)
    | some .idle => (.issueRead, .fetching, true)
    | none => (.issueRead, .fetching, false)

def push (key : LineKey) (request : Nat) : Call (StoreBuffer × MissBuffer) (Fault MissError) MissReadAction := fun s =>
  if key.address.toNat % s.2.config.lineBytes ≠ 0 then (Outcome.fail .unalignedLine, s)
  else if s.2.full key || (s.2.entry key).any (·.forbidden) then (Outcome.fail .blocked, s)
  else
    let r := readAction ((s.2.entry key).getD s.2.fresh).state ((s.1.entry key).map (·.state))
    let misses : MissBuffer := ⟨s.2.config, s.2.entries.upsert key s.2.fresh (joined request r.2.1)⟩
    if r.2.2 then
      match s.1.setState key .fetching with
      | .ok stores => (.ok r.1, stores, misses)
      | .error _ => (Outcome.panicked, s.1, misses)
    else (.ok r.1, s.1, misses)

def receiveLine (b : MissBuffer) (key : LineKey) (data : List UInt8) : Except MissError MissBuffer :=
  if data.length ≠ b.config.lineBytes then .error .invalidLineSize
  else if (b.entry key).isNone then .error .missingEntry
  else .ok ⟨b.config, b.entries.modify key fun e => { e with data, state := .ready, forbidden := true }⟩

def remove (b : MissBuffer) (key : LineKey) : MissBuffer := ⟨b.config, b.entries.erase key⟩

end MissBuffer

/-! ## UB write acknowledgements -/

/-- Completion notifications in delivery order, with the line used by linked loads. -/
structure WriteCompletion where
  key : LineKey
  line : List UInt8
  notifications : List Completion
  deriving DecidableEq

/-- The loads of the line that wait for the write, once they have received it. -/
def linkedLoads (misses : MissBuffer) (key : LineKey) (line : List UInt8) : Outcome MissError (List Nat) :=
  match misses.entry key with
  | none => .ok []
  | some _ =>
    match misses.receiveLine key line with
    | .error _ => Outcome.panicked
    | .ok misses => (Outcome.expect (misses.entry key)).map (·.requests)

/-- `complete_ub_write`: the completion, and the backing line afterwards. -/
def completeUbWrite (key : LineKey) (writeAllocate : Bool) (backing : List UInt8) :
    Call (StoreBuffer × MissBuffer) (Fault StoreError) (WriteCompletion × List UInt8) := fun s =>
  if backing.length ≠ s.1.config.lineBytes ∨ s.2.lineBytes ≠ s.1.config.lineBytes then
    (Outcome.fail .invalidRange, s)
  else
    match s.1.prepareUbWrite key writeAllocate backing with
    | .error e => (Outcome.fail e, s)
    | .ok bytes =>
      match s.1.mergeLine key bytes with
      | .error e => (Outcome.fail e, s)
      | .ok stores =>
        match stores.entry key with
        | none => (Outcome.panicked, stores, s.2)
        | some e =>
          match linkedLoads s.2 key e.bytes with
          | .error _ => (Outcome.panicked, stores, s.2)
          | .ok loads =>
            (.ok (⟨key, e.bytes, e.requests.map .store ++ loads.map .load⟩, e.bytes),
              stores.remove key, s.2.remove key)

/-! ## Calls -/

inductive BufferCall where
  | store (key : LineKey) (request offset : Nat) (bytes : List UInt8) (cacheHit : Bool)
  | storeAtomic (key : LineKey) (request offset : Nat) (bytes : List UInt8) (cacheHit : Bool)
  | advanceTimeouts
  | triggerIdleFlush
  | setState (key : LineKey) (state : StoreState)
  | setForbidden (key : LineKey) (forbidden : Bool)
  | mergeLine (key : LineKey) (bytes : List UInt8)
  | remove (key : LineKey)
  | push (key : LineKey) (request : Nat)
  | receiveLine (key : LineKey) (data : List UInt8)
  | removeMiss (key : LineKey)
  | completeUbWrite (key : LineKey) (writeAllocate : Bool) (backing : List UInt8)

inductive BufferError where
  | store (e : StoreError)
  | miss (e : MissError)
  deriving DecidableEq, Repr

inductive BufferReply where
  | done
  | action (a : MissReadAction)
  | completed (completion : WriteCompletion) (backing : List UInt8)

abbrev Buffers := StoreBuffer × MissBuffer

/-- A call that changes the store buffer, or nothing. -/
def onStores (f : StoreBuffer → Except StoreError StoreBuffer) : Call Buffers (Fault BufferError) BufferReply := fun s =>
  match f s.1 with
  | .ok stores => (.ok .done, stores, s.2)
  | .error e => (Outcome.fail (.store e), s)

/-- A call that changes the miss buffer, or nothing. -/
def onMisses (f : MissBuffer → Except MissError MissBuffer) : Call Buffers (Fault BufferError) BufferReply := fun s =>
  match f s.2 with
  | .ok misses => (.ok .done, s.1, misses)
  | .error e => (Outcome.fail (.miss e), s)

def exec : BufferCall → Call Buffers (Fault BufferError) BufferReply
  | .store key request offset bytes cacheHit => onStores (·.store key request offset bytes cacheHit)
  | .storeAtomic key request offset bytes cacheHit => onStores (·.storeAtomic key request offset bytes cacheHit)
  | .advanceTimeouts => onStores fun b => .ok b.advanceTimeouts
  | .triggerIdleFlush => onStores fun b => .ok b.triggerIdleFlush
  | .setState key state => onStores (·.setState key state)
  | .setForbidden key forbidden => onStores (·.setForbidden key forbidden)
  | .mergeLine key bytes => onStores (·.mergeLine key bytes)
  | .remove key => onStores fun b => .ok (b.remove key)
  | .push key request => fun s =>
    (Outcome.mapErr .miss ((MissBuffer.push key request s).1.map .action), (MissBuffer.push key request s).2)
  | .receiveLine key data => onMisses (·.receiveLine key data)
  | .removeMiss key => onMisses fun b => .ok (b.remove key)
  | .completeUbWrite key writeAllocate backing => fun s =>
    (Outcome.mapErr .store ((completeUbWrite key writeAllocate backing s).1.map fun r => .completed r.1 r.2),
      (completeUbWrite key writeAllocate backing s).2)

end AscendEmulator.C220.Lsu
