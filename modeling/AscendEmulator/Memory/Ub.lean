/-
  AscendEmulator.Memory.Ub — the unified buffer (`UbMemory`): the bytes that were written, known or not, and a limit on
  how many there may be.

  A range is checked against the limit of a transfer and against the end of the address space; the buffer has no
  capacity of its own. The host has room for a read.
-/

import AscendEmulator.Lib.OrdMap
import AscendEmulator.Lib.Outcome
import AscendEmulator.Memory.Sparse

namespace AscendEmulator.Memory

open Lib Outcome

inductive UbMemoryError where
  | rangeOverflow
  | transferLimitExceeded (requested limit : Nat)
  | trackedLimitExceeded (limit : Nat)
  | unknownByte (address : Nat)
  deriving DecidableEq, Repr

structure UbMemory where
  bytes : OrdMap Nat MemoryByteState
  maxTrackedBytes : Nat
  maxTransferBytes : Nat

namespace UbMemory

def new (maxTrackedBytes maxTransferBytes : Nat) : UbMemory := ⟨.empty, maxTrackedBytes, maxTransferBytes⟩

def checkRange (ub : UbMemory) (address len : Nat) : Outcome UbMemoryError Unit :=
  if ub.maxTransferBytes < len then fail (.transferLimitExceeded len ub.maxTransferBytes)
  else (okOr .rangeOverflow (checkedAdd address len)).map fun _ => ()

def knownAt (ub : UbMemory) (address : Nat) : Outcome UbMemoryError UInt8 :=
  match ub.bytes.get? address with
  | some (.known value) => .ok value
  | _ => fail (.unknownByte address)

def readKnown (ub : UbMemory) (address len : Nat) : Outcome UbMemoryError (List UInt8) := do
  ub.checkRange address len
  (List.range len).mapM fun offset => ub.knownAt (address + offset)

/-- The addresses of a write, with the states written there. -/
def written (address : Nat) (states : List MemoryByteState) : List (Nat × MemoryByteState) :=
  states.zipIdx.map fun state => (address + state.2, state.1)

/-- `write_states`: the buffer afterwards. -/
def writeStates (ub : UbMemory) (address : Nat) (states : List MemoryByteState) : Outcome UbMemoryError UbMemory := do
  ub.checkRange address states.length
  let newBytes := ((List.range states.length).filter fun offset => !ub.bytes.contains (address + offset)).length
  if ub.maxTrackedBytes < ub.bytes.entries.length + newBytes then fail (.trackedLimitExceeded ub.maxTrackedBytes)
  else .ok { ub with bytes := ub.bytes.insertAll (written address states) }

/-! ## What an access comes to -/

variable {ub ub' : UbMemory} {address len : Nat} {states : List MemoryByteState}

theorem checkRange_ok {u : Unit} : ub.checkRange address len = .ok u ↔
    len ≤ ub.maxTransferBytes ∧ address + len < u64 := by
  unfold checkRange
  split
  · exact iff_of_false nofun fun h => by omega
  · unfold checkedAdd
    split
    · exact iff_of_true rfl (by omega)
    · exact iff_of_false nofun fun h => by omega

/-- The byte at an address where it is known. -/
def byteAt (ub : UbMemory) (address : Nat) : UInt8 :=
  match ub.bytes.get? address with
  | some (.known value) => value
  | _ => 0

def Known (ub : UbMemory) (address : Nat) : Prop := ∃ value, ub.bytes.get? address = some (.known value)

theorem Known.eq (h : ub.Known address) : ub.bytes.get? address = some (.known (ub.byteAt address)) := by
  obtain ⟨value, hvalue⟩ := h
  rw [byteAt, hvalue]

theorem readKnown_eq (hcheck : len ≤ ub.maxTransferBytes ∧ address + len < u64)
    (hknown : ∀ offset < len, ub.Known (address + offset)) :
    ub.readKnown address len = .ok ((List.range len).map fun offset => ub.byteAt (address + offset)) := by
  unfold readKnown
  rw [(checkRange_ok (u := ())).mpr hcheck]
  refine mapM_eq fun offset hoffset => ?_
  unfold knownAt
  rw [(hknown offset (List.mem_range.mp hoffset)).eq]

theorem mem_written {a : Nat} {s : MemoryByteState} :
    (a, s) ∈ written address states ↔ ∃ i, states[i]? = some s ∧ a = address + i := by
  unfold written
  constructor
  · intro h
    obtain ⟨⟨s', i⟩, hmem, heq⟩ := List.mem_map.mp h
    cases heq
    exact ⟨i, List.mk_mem_zipIdx_iff_getElem?.mp hmem, rfl⟩
  · rintro ⟨i, hget, rfl⟩
    exact List.mem_map.mpr ⟨(s, i), List.mk_mem_zipIdx_iff_getElem?.mpr hget, rfl⟩

theorem written_addresses : (written address states).map Prod.fst = (List.range states.length).map (address + ·) := by
  have h : (written address states).map Prod.fst = (states.zipIdx.map Prod.snd).map (address + ·) := by
    rw [written, List.map_map, List.map_map]
    rfl
  rw [h, List.zipIdx_map_snd, List.range_eq_range']

theorem addresses_nodup (address len : Nat) : ((List.range len).map (address + ·)).Nodup :=
  List.nodup_range.map fun _ _ h => Nat.add_left_cancel h

theorem mem_addresses {a : Nat} : a ∈ (List.range len).map (address + ·) ↔ a ∈ Finset.Ico address (address + len) := by
  rw [List.mem_map, Finset.mem_Ico]
  constructor
  · rintro ⟨i, hi, rfl⟩
    have := List.mem_range.mp hi
    omega
  · intro h
    exact ⟨a - address, List.mem_range.mpr (by omega), by omega⟩

/-- A write that succeeds sets its own bytes and no other. -/
structure Writes (ub : UbMemory) (address : Nat) (states : List MemoryByteState) (ub' : UbMemory) : Prop where
  own : ∀ i s, states[i]? = some s → ub'.bytes.get? (address + i) = some s
  frame : ∀ a, a < address ∨ address + states.length ≤ a → ub'.bytes.get? a = ub.bytes.get? a
  dom : ub'.bytes.dom = ub.bytes.dom ∪ Finset.Ico address (address + states.length)
  tracked : ub'.maxTrackedBytes = ub.maxTrackedBytes
  transfer : ub'.maxTransferBytes = ub.maxTransferBytes

theorem writeStates_ok (h : ub.writeStates address states = .ok ub') : Writes ub address states ub' := by
  unfold writeStates at h
  obtain ⟨_, -, h⟩ := bind_ok.mp h
  simp only at h
  split at h
  · cases h
  cases h
  exact {
    own := fun i s hs => by
      refine OrdMap.get?_insertAll_of_mem ?_ (mem_written.mpr ⟨i, hs, rfl⟩)
      rw [written_addresses]
      exact addresses_nodup address _
    frame := fun a ha => by
      refine OrdMap.get?_insertAll_of_not_mem ?_
      rw [written_addresses, mem_addresses, Finset.mem_Ico]
      omega
    dom := by
      rw [OrdMap.dom_insertAll, written_addresses]
      congr 1
      exact Finset.ext fun a => by rw [List.mem_toFinset, mem_addresses]
    tracked := rfl
    transfer := rfl }

/-- The bytes tracked after a write. -/
theorem tracked_card : ub.bytes.entries.length +
    ((List.range len).filter fun offset => !ub.bytes.contains (address + offset)).length =
      (ub.bytes.dom ∪ Finset.Ico address (address + len)).card := by
  have hnew : ((List.range len).filter fun offset => !ub.bytes.contains (address + offset)).length =
      (Finset.Ico address (address + len) \ ub.bytes.dom).card := by
    have hmap : (((List.range len).map (address + ·)).filter fun a => !ub.bytes.contains a).length =
        ((List.range len).filter fun offset => !ub.bytes.contains (address + offset)).length := by
      rw [List.filter_map, List.length_map]
      rfl
    rw [← hmap, ← List.toFinset_card_of_nodup ((addresses_nodup address len).filter _)]
    refine congrArg Finset.card (Finset.ext fun a => ?_)
    rw [List.mem_toFinset, List.mem_filter, mem_addresses, Finset.mem_sdiff, OrdMap.mem_dom]
    simp
  rw [OrdMap.length_entries, hnew, Nat.add_comm, Finset.card_sdiff_add_card, Finset.union_comm]

/-- In range a write fails only where the bytes tracked would be too many. -/
theorem writeStates_error {e : Fault UbMemoryError} (hcheck : states.length ≤ ub.maxTransferBytes ∧
    address + states.length < u64) (h : ub.writeStates address states = .error e) :
    e = .returned (.trackedLimitExceeded ub.maxTrackedBytes) ∧
      ub.maxTrackedBytes < (ub.bytes.dom ∪ Finset.Ico address (address + states.length)).card := by
  unfold writeStates at h
  rw [(checkRange_ok (u := ())).mpr hcheck] at h
  change (if _ then _ else _) = _ at h
  rw [← tracked_card]
  split at h
  · cases h
    exact ⟨rfl, by assumption⟩
  · cases h

end UbMemory

end AscendEmulator.Memory
