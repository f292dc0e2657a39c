/-
  AscendEmulator.Lib.Word — 64-bit words as a program computes on them: operations that wrap and say so, operations
  that panic outside their domain (a shift by 64 or more, a quotient by zero), counts of bits, little-endian bytes.
-/

import AscendEmulator.Lib.Outcome
import Mathlib.Data.Nat.Sqrt

namespace AscendEmulator.Lib

variable {ε : Type}

namespace Word

/-! ## Operations that wrap -/

/-- `i64::overflowing_add`. -/
def overflowingAdd (a b : Int64) : Int64 × Bool := (a + b, (a + b).toInt != a.toInt + b.toInt)

/-- `i64::overflowing_sub`. -/
def overflowingSub (a b : Int64) : Int64 × Bool := (a - b, (a - b).toInt != a.toInt - b.toInt)

/-- `i64::overflowing_mul`. -/
def overflowingMul (a b : Int64) : Int64 × Bool := (a * b, (a * b).toInt != a.toInt * b.toInt)

/-! ## Operations that panic outside their domain -/

open Outcome

/-- A subtraction of `iN`, with `N = bits`, that is not checked. -/
def plainSub (bits : Nat) (a b : Int) : Outcome ε Int :=
  expect (if -2 ^ (bits - 1) ≤ a - b ∧ a - b < 2 ^ (bits - 1) then some (a - b) else none)

/-- A subtraction of unsigned integers that is not checked. -/
def plainSubNat (a b : Nat) : Outcome ε Nat := expect (if b ≤ a then some (a - b) else none)

/-- A subtraction of `u64` that is not checked. -/
def plainSubWord (a b : UInt64) : Outcome ε UInt64 := expect (if b ≤ a then some (a - b) else none)

/-- A multiplication of `u64` that is not checked. -/
def plainMul (a b : Nat) : Outcome ε Nat := expect (if a * b < 2 ^ 64 then some (a * b) else none)

/-- `x << count` of `u64`. -/
def shl (x : UInt64) (count : Nat) : Outcome ε UInt64 :=
  expect (if count < 64 then some (x <<< UInt64.ofNat count) else none)

/-- `x >> count` of `u64`. -/
def shr (x : UInt64) (count : Nat) : Outcome ε UInt64 :=
  expect (if count < 64 then some (x >>> UInt64.ofNat count) else none)

/-- `x >> count` of `i64`. -/
def sar (x : Int64) (count : Nat) : Outcome ε Int64 :=
  expect (if count < 64 then some (x >>> Int64.ofNat count) else none)

/-- `a / b` of `i64`. -/
def div (a b : Int64) : Outcome ε Int64 :=
  expect (if b = 0 ∨ a = Int64.minValue ∧ b = -1 then none else some (a / b))

/-- `a % b` of `i64`. -/
def rem (a b : Int64) : Outcome ε Int64 :=
  expect (if b = 0 ∨ a = Int64.minValue ∧ b = -1 then none else some (a % b))

theorem safe_plainSub {bits : Nat} {a b : Int} (h : -2 ^ (bits - 1) ≤ a - b ∧ a - b < 2 ^ (bits - 1)) :
    Safe (plainSub bits a b : Outcome ε Int) := safe_expect (by rw [if_pos h]; rfl)

theorem safe_plainSubNat {a b : Nat} (h : b ≤ a) : Safe (plainSubNat a b : Outcome ε Nat) :=
  safe_expect (by rw [if_pos h]; rfl)

theorem plainSubNat_ok {a b n : Nat} (h : (plainSubNat a b : Outcome ε Nat) = .ok n) : n = a - b := by
  unfold plainSubNat at h
  split at h
  · cases h; rfl
  · cases h

theorem safe_plainSubWord {a b : UInt64} (h : b ≤ a) : Safe (plainSubWord a b : Outcome ε UInt64) :=
  safe_expect (by rw [if_pos h]; rfl)

theorem safe_plainMul {a b : Nat} (h : a * b < 2 ^ 64) : Safe (plainMul a b : Outcome ε Nat) :=
  safe_expect (by rw [if_pos h]; rfl)

theorem safe_shl (x : UInt64) {count : Nat} (h : count < 64) : Safe (shl x count : Outcome ε UInt64) :=
  safe_expect (by rw [if_pos h]; rfl)

theorem safe_shr (x : UInt64) {count : Nat} (h : count < 64) : Safe (shr x count : Outcome ε UInt64) :=
  safe_expect (by rw [if_pos h]; rfl)

theorem safe_sar (x : Int64) {count : Nat} (h : count < 64) : Safe (sar x count : Outcome ε Int64) :=
  safe_expect (by rw [if_pos h]; rfl)

theorem safe_div {a b : Int64} (h₀ : b ≠ 0) (h₁ : ¬(a = Int64.minValue ∧ b = -1)) :
    Safe (div a b : Outcome ε Int64) := safe_expect (by rw [if_neg (not_or.mpr ⟨h₀, h₁⟩)]; rfl)

theorem safe_rem {a b : Int64} (h₀ : b ≠ 0) (h₁ : ¬(a = Int64.minValue ∧ b = -1)) :
    Safe (rem a b : Outcome ε Int64) := safe_expect (by rw [if_neg (not_or.mpr ⟨h₀, h₁⟩)]; rfl)

/-! ## Counts of bits -/

/-- `u64::count_ones`. -/
def countOnes (x : UInt64) : Nat := ((List.range 64).filter x.toNat.testBit).length

/-- `u64::leading_zeros`. -/
def leadingZeros (x : UInt64) : Nat := ((List.range 64).find? fun i => x.toNat.testBit (63 - i)).getD 64

/-- `u64::trailing_zeros`. -/
def trailingZeros (x : UInt64) : Nat := ((List.range 64).find? x.toNat.testBit).getD 64

/-- `u64::leading_ones`. -/
def leadingOnes (x : UInt64) : Nat := leadingZeros (~~~x)

/-- `u64::trailing_ones`. -/
def trailingOnes (x : UInt64) : Nat := trailingZeros (~~~x)

/-- `u8::leading_zeros`. -/
def leadingZerosU8 (x : Nat) : Nat := ((List.range 8).find? fun i => x.testBit (7 - i)).getD 8

/-- `u64::isqrt`. -/
def isqrt (x : UInt64) : UInt64 := UInt64.ofNat (Nat.sqrt x.toNat)

/-- A word whose top bit is clear has a leading zero. -/
theorem leadingZeros_pos {x : UInt64} (h : x >>> 63 = 0) : 1 ≤ leadingZeros x := by
  have htop : x.toNat.testBit 63 = false := by
    have h' : x.toNat >>> 63 = 0 := by simpa [UInt64.toNat_shiftRight] using congrArg UInt64.toNat h
    rw [Nat.testBit, h']
    rfl
  unfold leadingZeros
  cases hfind : (List.range 64).find? fun i => x.toNat.testBit (63 - i) with
  | none => decide
  | some i =>
    have hi := List.find?_some hfind
    rcases Nat.eq_zero_or_pos i with rfl | hpos
    · rw [htop] at hi; cases hi
    · exact hpos

/-- A word whose top bit is set has a leading one. -/
theorem leadingOnes_pos {x : UInt64} (h : x >>> 63 ≠ 0) : 1 ≤ leadingOnes x := by
  refine leadingZeros_pos ?_
  have hx : x.toNat / 2 ^ 63 ≠ 0 := by
    intro h'
    refine h (UInt64.toNat_inj.mp ?_)
    rw [UInt64.toNat_shiftRight]
    simpa [Nat.shiftRight_eq_div_pow] using h'
  have hlt := x.toNat_lt
  refine UInt64.toNat_inj.mp ?_
  rw [UInt64.toNat_shiftRight, UInt64.toNat_not]
  show (2 ^ 64 - 1 - x.toNat) >>> 63 = 0
  rw [Nat.shiftRight_eq_div_pow]
  omega

theorem one_le_shl {width : Nat} {bit : UInt64} (h : (shl 1 width : Outcome ε UInt64) = .ok bit) : 1 ≤ bit := by
  have hbits : ∀ w : Fin 64, 1 ≤ (1 : UInt64) <<< UInt64.ofNat w.val := by decide
  unfold shl at h
  split at h
  · cases h
    exact hbits ⟨width, ‹_›⟩
  · cases h

theorem leadingZerosU8_le (x : Nat) : leadingZerosU8 x ≤ 8 := by
  unfold leadingZerosU8
  cases hfind : (List.range 8).find? fun i => x.testBit (7 - i) with
  | none => exact Nat.le_refl 8
  | some i => exact Nat.le_of_lt (List.mem_range.mp (List.mem_of_find?_eq_some hfind))

/-! ## Bytes -/

/-- `u64::to_le_bytes`. -/
def toLeBytes (x : UInt64) : List UInt8 := (List.range 8).map fun i => UInt8.ofNat (x.toNat >>> (8 * i))

/-- `u64::from_le_bytes`. -/
def fromLeBytes (bytes : List UInt8) : UInt64 :=
  UInt64.ofNat (bytes.foldr (fun byte rest => byte.toNat + 256 * rest) 0)

end Word

end AscendEmulator.Lib
