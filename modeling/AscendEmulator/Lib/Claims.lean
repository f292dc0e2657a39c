/-
  AscendEmulator.Lib.Claims — bits claimed one after the other under a mask (banks of a memory in one cycle).

  A bit is claimed if the mask does not have it, and the mask has it from then on. `Claims.append` joins two rounds:
  over all of them no bit is claimed twice, and none that was in the mask at the start.
-/

import Mathlib.Data.Nat.Bitwise
import Mathlib.Data.List.Nodup

namespace AscendEmulator.Lib

/-- From `mask` to `mask'`, exactly the bits of the list were claimed. -/
structure Claims (mask : Nat) (bits : List Nat) (mask' : Nat) : Prop where
  nodup : bits.Nodup
  free : ∀ b ∈ bits, mask.testBit b = false
  mask : ∀ b, mask'.testBit b = (mask.testBit b || decide (b ∈ bits))

variable {mask mask' mask'' b : Nat} {l r : List Nat}

theorem Claims.nil : Claims mask [] mask := ⟨List.nodup_nil, nofun, by simp⟩

theorem Claims.append (hl : Claims mask l mask') (hr : Claims mask' r mask'') : Claims mask (l ++ r) mask'' where
  nodup := by
    refine List.nodup_append.mpr ⟨hl.nodup, hr.nodup, fun a ha b hb hab => ?_⟩
    subst hab
    have hset : mask'.testBit a = true := by rw [hl.mask, decide_eq_true ha, Bool.or_true]
    exact absurd (hr.free a hb) (by rw [hset]; decide)
  free := by
    intro b hb
    rcases List.mem_append.mp hb with hb | hb
    · exact hl.free b hb
    · have hfree := hr.free b hb
      rw [hl.mask] at hfree
      exact (Bool.or_eq_false_iff.mp hfree).1
  mask := by
    intro b
    simp [hr.mask, hl.mask, Bool.or_assoc]

/-- The test of one bit. -/
theorem and_bit_eq_zero : (mask &&& 1 <<< b == 0) = !mask.testBit b := by
  rw [Nat.one_shiftLeft, Nat.and_two_pow]
  cases mask.testBit b with
  | false => simp
  | true => simp

theorem Claims.single (h : mask.testBit b = false) : Claims mask [b] (mask ||| 1 <<< b) where
  nodup := List.nodup_singleton b
  free := by simpa using h
  mask := by
    intro c
    rw [Nat.one_shiftLeft, Nat.testBit_or, Nat.testBit_two_pow]
    simp [eq_comm]

end AscendEmulator.Lib
