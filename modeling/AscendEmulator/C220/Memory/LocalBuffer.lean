/-
  AscendEmulator.C220.Memory.LocalBuffer — the buffers of a core (`C220LocalBuffer`): bytes that are known, unknown
  or untouched, and the accesses to them that do not wrap at the capacity.

  A linear access reads or writes a few bytes, for which the host has room.
-/

import AscendEmulator.Lib.OrdMap
import AscendEmulator.Lib.Outcome
import AscendEmulator.Memory.PvMemory
import AscendEmulator.Memory.Sparse

namespace AscendEmulator.C220.Memory

open Lib Outcome AscendEmulator.Memory

inductive LocalBufferError where
  | rangeOverflow
  | outOfBounds (address stop capacity : Nat)
  | zeroCapacity
  | hostAllocationFailed (requested : Nat)
  | unknownByte (address : Nat)
  deriving DecidableEq, Repr

structure LocalBuffer where
  capacity : Nat
  bytes : OrdMap Nat MemoryByteState

namespace LocalBuffer

def new (capacity : Nat) : LocalBuffer := ⟨capacity, .empty⟩

def checkLinearRange (address len : Nat) : Outcome LocalBufferError Unit :=
  if len = 0 then .ok () else (okOr .rangeOverflow (checkedAdd address (len - 1))).map fun _ => ()

/-- A byte for a reader to whom untouched bytes are zero. -/
def initializedState (b : LocalBuffer) (address : Nat) : MemoryByteState := (b.bytes.get? address).getD (.known 0)

def readInitializedStatesLinear (b : LocalBuffer) (address len : Nat) :
    Outcome LocalBufferError (List MemoryByteState) := do
  let _ ← checkLinearRange address len
  .ok ((List.range len).map fun offset => b.initializedState (address + offset))

def knownByte (address : Nat) : MemoryByteState → Outcome LocalBufferError UInt8
  | .known byte => .ok byte
  | .unknown => fail (.unknownByte address)

/-- `collect_known`, of a read that starts at `address`. -/
def collectKnown (states : List MemoryByteState) (address : Nat) : Outcome LocalBufferError (List UInt8) :=
  states.zipIdx.mapM fun s => knownByte (address + s.2) s.1

def readInitializedLinear (b : LocalBuffer) (address len : Nat) : Outcome LocalBufferError (List UInt8) := do
  let states ← b.readInitializedStatesLinear address len
  collectKnown states address

/-- `write_known_linear`: the buffer afterwards. -/
def writeKnownLinear (b : LocalBuffer) (address : Nat) (bytes : List UInt8) : Outcome LocalBufferError LocalBuffer := do
  let _ ← checkLinearRange address bytes.length
  .ok { b with bytes := b.bytes.insertAll (bytes.zipIdx.map fun byte => (address + byte.2, .known byte.1)) }

/-! ## What an access comes to -/

variable {b : LocalBuffer} {address len : Nat}

theorem checkLinearRange_ok (h : address + len < u64) : checkLinearRange address len = .ok () := by
  unfold checkLinearRange
  split
  · rfl
  · rw [checkedAdd_eq_some.mpr ⟨by omega, rfl⟩]
    rfl

/-- The byte at an address, where it is known or untouched. -/
def byteAt (b : LocalBuffer) (address : Nat) : UInt8 :=
  match b.initializedState address with
  | .known byte => byte
  | .unknown => 0

/-- The bytes from `address` on are not unknown. -/
def Initialized (b : LocalBuffer) (address len : Nat) : Prop :=
  ∀ i < len, b.initializedState (address + i) ≠ .unknown

theorem initializedState_eq (h : b.initializedState address ≠ .unknown) :
    b.initializedState address = .known (b.byteAt address) := by
  unfold byteAt
  split
  · assumption
  · contradiction

theorem collectKnown_eq {states : List MemoryByteState} {bytes : List UInt8} (h : states = bytes.map .known)
    (start : Nat) : collectKnown states start = .ok bytes := by
  subst h
  unfold collectKnown
  suffices ∀ k, ((bytes.map MemoryByteState.known).zipIdx k).mapM (fun s => knownByte (start + s.2) s.1) =
      (.ok bytes : Outcome LocalBufferError _) from this 0
  induction bytes with
  | nil => exact fun _ => rfl
  | cons byte rest ih =>
    intro k
    rw [List.map_cons, List.zipIdx_cons, List.mapM_cons, ih (k + 1)]
    rfl

theorem readInitializedLinear_eq (hfits : address + len < u64) (h : b.Initialized address len) :
    b.readInitializedLinear address len = .ok ((List.range len).map fun i => b.byteAt (address + i)) := by
  unfold readInitializedLinear readInitializedStatesLinear
  rw [checkLinearRange_ok hfits]
  refine collectKnown_eq ?_ address
  rw [List.map_map]
  exact List.map_congr_left fun i hi => initializedState_eq (h i (List.mem_range.mp hi))

theorem mem_written {bytes : List UInt8} {a : Nat} {s : MemoryByteState} :
    (a, s) ∈ bytes.zipIdx.map (fun byte => (address + byte.2, MemoryByteState.known byte.1)) ↔
      ∃ i byte, bytes[i]? = some byte ∧ a = address + i ∧ s = .known byte := by
  constructor
  · intro h
    obtain ⟨⟨byte, i⟩, hmem, heq⟩ := List.mem_map.mp h
    cases heq
    exact ⟨i, byte, List.mk_mem_zipIdx_iff_getElem?.mp hmem, rfl, rfl⟩
  · rintro ⟨i, byte, hget, rfl, rfl⟩
    exact List.mem_map.mpr ⟨(byte, i), List.mk_mem_zipIdx_iff_getElem?.mpr hget, rfl⟩

theorem written_nodup (bytes : List UInt8) :
    ((bytes.zipIdx.map fun byte => (address + byte.2, MemoryByteState.known byte.1)).map Prod.fst).Nodup := by
  have h : (bytes.zipIdx.map fun byte => (address + byte.2, MemoryByteState.known byte.1)).map Prod.fst =
      (bytes.zipIdx.map Prod.snd).map (address + ·) := by
    rw [List.map_map, List.map_map]
    rfl
  rw [h, List.zipIdx_map_snd]
  exact List.Nodup.map (fun _ _ hxy => Nat.add_left_cancel hxy) List.nodup_range'

/-- A write sets its own bytes and no other. -/
theorem writeKnownLinear_spec {bytes : List UInt8} (hfits : address + bytes.length < u64) :
    ∃ b', b.writeKnownLinear address bytes = .ok b' ∧
      (∀ i byte, bytes[i]? = some byte → b'.bytes.get? (address + i) = some (.known byte)) ∧
      ∀ a, a < address ∨ address + bytes.length ≤ a → b'.bytes.get? a = b.bytes.get? a := by
  refine ⟨{ b with bytes := b.bytes.insertAll (bytes.zipIdx.map fun byte => (address + byte.2, .known byte.1)) },
    ?_, ?_, ?_⟩
  · unfold writeKnownLinear
    rw [checkLinearRange_ok hfits]
    rfl
  · intro i byte hget
    exact OrdMap.get?_insertAll_of_mem (written_nodup bytes) (mem_written.mpr ⟨i, byte, hget, rfl, rfl⟩)
  · intro a ha
    refine OrdMap.get?_insertAll_of_not_mem fun hmem => ?_
    obtain ⟨⟨a', s⟩, hwritten, rfl⟩ := List.mem_map.mp hmem
    obtain ⟨i, byte, hget, rfl, -⟩ := mem_written.mp hwritten
    dsimp only at ha
    have hi := (List.getElem?_eq_some_iff.mp hget).1
    omega

end LocalBuffer

structure LocalMemory where
  l0a : LocalBuffer
  l0b : LocalBuffer
  l0c : LocalBuffer
  bt : PvMemory

end AscendEmulator.C220.Memory
