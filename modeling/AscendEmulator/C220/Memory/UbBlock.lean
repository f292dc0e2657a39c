/-
  AscendEmulator.C220.Memory.UbBlock — the blocks of a UB access (`C220UbRequest::build`), one bank each, and the
  grants that a block goes through (`C220UbBlockProgress`).
-/

import AscendEmulator.Lib.Run
import AscendEmulator.Lib.Tiling

namespace AscendEmulator.C220.Memory

open Lib

/-! ## Blocks -/

def bankBytes : Nat := 32

structure UbBank where
  group : Nat
  id : Nat
  deriving DecidableEq, Repr

def UbBank.fromAddress (address : Nat) : UbBank :=
  let group := (address >>> 5) &&& 0xf
  ⟨group, group ||| ((address >>> 12) &&& 0x30)⟩

inductive UbRequestError where
  | addressOverflow (address bytes : Nat)
  deriving DecidableEq, Repr

structure UbBlock where
  address : Nat
  bytes : Nat
  bank : UbBank
  deriving DecidableEq, Repr

/-- `u64::saturating_add`. -/
def saturatingAdd (a b : Nat) : Nat := min (a + b) (u64 - 1)

/-- The loop over an access that ends at `stop`: each turn takes a byte at least. -/
def splitBlocks (stop : Nat) : Nat → Nat → List UbBlock
  | 0, _ => []
  | fuel + 1, address =>
    if address < stop then
      let next := min (saturatingAdd address (bankBytes - address % bankBytes)) stop
      ⟨address, (next - address) % 256, .fromAddress address⟩ :: splitBlocks stop fuel next
    else []

/-- `C220UbRequest::from_accesses` of one access. -/
def fromAccess (address bytes : Nat) : Except UbRequestError (List UbBlock) :=
  match checkedAdd address bytes with
  | none => .error (.addressOverflow address bytes)
  | some stop => .ok (splitBlocks stop bytes address)

theorem splitBlocks_tiles {stop fuel address : Nat} (hstop : stop < u64) (hle : address ≤ stop)
    (hfuel : stop - address ≤ fuel) : Tiles UbBlock.address UbBlock.bytes address (splitBlocks stop fuel address) stop := by
  induction fuel generalizing address with
  | zero => exact Nat.le_antisymm hle (by omega)
  | succ fuel ih =>
    unfold splitBlocks saturatingAdd bankBytes
    split
    · rename_i hlt
      generalize hnext : min (min (address + (32 - address % 32)) (u64 - 1)) stop = next
      have hcut : address < next ∧ next ≤ stop ∧ next - address < 256 := by omega
      have hsize : address + (next - address) % 256 = next := by omega
      refine ⟨rfl, ?_, ?_⟩
      · show 0 < (next - address) % 256
        omega
      · show Tiles _ _ (address + (next - address) % 256) _ _
        rw [hsize]
        exact ih hcut.2.1 (by omega)
    · exact Nat.le_antisymm hle (by omega)

/-- A block lies in one line. -/
theorem splitBlocks_line {stop fuel address : Nat} {b : UbBlock} (h : b ∈ splitBlocks stop fuel address) :
    b.address % bankBytes + b.bytes ≤ bankBytes := by
  induction fuel generalizing address with
  | zero => cases h
  | succ fuel ih =>
    unfold splitBlocks saturatingAdd at h
    split at h
    · rcases List.mem_cons.mp h with rfl | h
      · simp only [bankBytes]
        omega
      · exact ih h
    · cases h

/-! ## Grants -/

/-- `PARTIAL_WRITE_TICKS` -/
def partialWriteTicks : Nat := 6

inductive BlockProgress where
  | waiting
  | readModifyWriteDelay (firstGrant : Nat)
  | awaitingWriteGrant (firstGrant : Nat)
  | complete (firstGrant finalGrant : Nat)
  deriving DecidableEq, Repr

namespace BlockProgress

/-- Whether a block needs a bank grant, and whether it is the second pass. -/
def pendingGrant : BlockProgress → Option Bool
  | waiting => some false
  | awaitingWriteGrant _ => some true
  | _ => none

def grant (tick : Nat) (partialWrite : Bool) : BlockProgress → BlockProgress
  | waiting => if partialWrite then readModifyWriteDelay tick else complete tick tick
  | awaitingWriteGrant firstGrant => complete firstGrant tick
  | p => p

/-- Runs after arbitration. Expiring a delay does not grant the second pass. -/
def finishTick (tick : Nat) : BlockProgress → BlockProgress
  | readModifyWriteDelay firstGrant =>
    if partialWriteTicks ≤ tick - firstGrant then awaitingWriteGrant firstGrant else readModifyWriteDelay firstGrant
  | p => p

def isComplete : BlockProgress → Bool
  | complete _ _ => true
  | _ => false

end BlockProgress

end AscendEmulator.C220.Memory
