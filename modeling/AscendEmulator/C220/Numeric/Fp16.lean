/-
  AscendEmulator.C220.Numeric.Fp16 — the conversion of binary32 to binary16 (`numeric/fp16/conversion.rs`).

  `f32ToFp16` follows the source: the special operands, the overflow by thresholds before anything is rounded, then
  one shift for the exponents from 113 on, one that grows for those down to 103, and a table below. Over it stands
  `Fp16Rounding.Rounds`, what each of the six modes means for exact numbers.

  - `f32ToFp16_exact`: below 65536 the result is the rounding of the exact operand, and over all operands but NaNs the
    conversion is monotone.
-/

import AscendEmulator.Lib.Directed
import AscendEmulator.C220.Cube.Exact

namespace AscendEmulator.C220.Numeric

open Lib
open Cube (Fp16Mode)

/-! ## The conversion -/

inductive Fp16Rounding where
  | nearestEven | nearestAway | down | up | towardZero | odd
  deriving DecidableEq

structure Fp16Status where
  nanOperand : Bool
  infinityOperand : Bool
  invalid : Bool
  overflow : Bool
  underflow : Bool
  deriving DecidableEq

def Fp16Status.default : Fp16Status := ⟨false, false, false, false, false⟩

structure Fp16Outcome where
  bits : UInt16
  status : Fp16Status
  deriving DecidableEq

/-- The word of a result that is too large, without its sign. -/
def overflowBits : Fp16Mode → UInt16
  | .saturating => 0x7bff
  | .nonSaturating => 0x7c00

def nanBits : Fp16Mode → UInt16
  | .saturating => 0
  | .nonSaturating => 0x7fff

namespace Fp16Rounding

/-- Whether the retained bits are one more for the discarded ones. -/
def increment (retained discarded halfway : UInt32) (negative : Bool) : Fp16Rounding → Bool
  | nearestEven => decide (discarded > halfway) || (discarded == halfway && retained &&& 1 != 0)
  | nearestAway => decide (discarded ≥ halfway)
  | down => negative && discarded != 0
  | up => !negative && discarded != 0
  | towardZero => false
  | odd => discarded != 0 && retained &&& 1 == 0

/-- The fractions of the exponent 142 from which the result is too large. -/
def overflows (fraction : UInt32) (negative : Bool) : Fp16Rounding → Bool
  | nearestEven | nearestAway => decide (fraction ≥ 0x7ff000)
  | down => negative && decide (fraction > 0x7fe000)
  | up => !negative && decide (fraction > 0x7fe000)
  | towardZero | odd => false

/-- Whether a value below the least subnormal becomes that one. -/
def roundsUp (exponent fraction : UInt32) (nonzero negative : Bool) : Fp16Rounding → Bool
  | nearestEven => exponent == 102 && fraction != 0
  | nearestAway => exponent == 102
  | down => negative && nonzero
  | up => !negative && nonzero
  | towardZero => false
  | odd => nonzero

end Fp16Rounding

def roundSignificand (value shift : UInt32) (negative : Bool) (mode : Fp16Rounding) : UInt32 :=
  let retained := value >>> shift
  let discarded := value &&& ((1 <<< shift) - 1)
  let halfway := 1 <<< (shift - 1)
  retained + (mode.increment retained discarded halfway negative).toUInt32

def f32ToFp16 (bits : UInt32) (rounding : Fp16Rounding) (mode : Fp16Mode) : Fp16Outcome :=
  let negative := bits >>> 31 != 0
  let sign := (bits >>> 16).toUInt16 &&& 0x8000
  let exponent := (bits >>> 23) &&& 255
  let fraction := bits &&& 0x7fffff
  if exponent = 255 then
    if fraction ≠ 0 then ⟨nanBits mode, { Fp16Status.default with nanOperand := true }⟩
    else ⟨sign ||| overflowBits mode, { Fp16Status.default with infinityOperand := true }⟩
  else if decide (exponent > 142) || (exponent == 142 && rounding.overflows fraction negative) then
    ⟨sign ||| overflowBits mode, { Fp16Status.default with overflow := true }⟩
  else if exponent > 112 then
    -- a carry out of the significand goes into the exponent
    let rounded := roundSignificand (fraction ||| 0x800000) 13 negative rounding
    ⟨sign ||| (min ((exponent - 113) * 1024 + rounded) 0x7bff).toUInt16, .default⟩
  else if exponent > 102 then
    ⟨sign ||| (roundSignificand (fraction ||| 0x800000) (126 - exponent) negative rounding).toUInt16, .default⟩
  else
    let nonzero := bits &&& 0x7fffffff != 0
    let roundsUp := rounding.roundsUp exponent fraction nonzero negative
    ⟨sign ||| roundsUp.toUInt16, { Fp16Status.default with underflow := nonzero && !roundsUp }⟩

/-! ## What it is to round -/

namespace Fp16Rounding

/-- `y` is the number of binary16, of an exponent without an upper bound, that the mode gives for `x`. -/
def Rounds (x y : ℚ) : Fp16Rounding → Prop
  | nearestEven => NearestEven 11 (-24) x y
  | nearestAway => NearestAway 11 (-24) x y
  | down => RoundsDown 11 (-24) x y
  | up => RoundsUp 11 (-24) x y
  | towardZero => RoundsTowardZero 11 (-24) x y
  | odd => RoundsOdd 11 (-24) x y

/-- Whether an amount of `whole` and `part` of a unit goes up. -/
def goesUp (whole : Nat) (part : ℚ) (negative : Bool) : Fp16Rounding → Bool
  | nearestEven => decide (1 / 2 < part) || (decide (part = 1 / 2) && whole % 2 != 0)
  | nearestAway => decide (1 / 2 ≤ part)
  | down => negative && decide (part ≠ 0)
  | up => !negative && decide (part ≠ 0)
  | towardZero => false
  | odd => decide (part ≠ 0) && whole % 2 == 0

/-- An amount in whole units. -/
def units (mode : Fp16Rounding) (negative : Bool) (t : ℚ) : Nat :=
  ⌊t⌋₊ + (mode.goesUp ⌊t⌋₊ (t - ⌊t⌋₊) negative).toNat

section Units

variable {mode : Fp16Rounding} {negative : Bool} {t t' : ℚ}

theorem floor_le_units : ⌊t⌋₊ ≤ mode.units negative t := Nat.le_add_right _ _

theorem units_le_floor : mode.units negative t ≤ ⌊t⌋₊ + 1 := Nat.add_le_add_left (Bool.toNat_le _) _

theorem goesUp_mono {whole : Nat} {part part' : ℚ} (h0 : 0 ≤ part) (h : part ≤ part')
    (hup : mode.goesUp whole part negative = true) : mode.goesUp whole part' negative = true := by
  have hne : part ≠ 0 → part' ≠ 0 := fun hpart => ((lt_of_le_of_ne h0 hpart.symm).trans_le h).ne'
  cases mode with
  | nearestEven =>
    simp only [goesUp, Bool.or_eq_true, Bool.and_eq_true, decide_eq_true_iff] at hup ⊢
    rcases hup with hup | ⟨hup, hodd⟩
    · exact .inl (hup.trans_le h)
    · rcases h.lt_or_eq with hlt | heq
      · exact .inl (hup ▸ hlt)
      · exact .inr ⟨heq ▸ hup, hodd⟩
  | nearestAway =>
    simp only [goesUp, decide_eq_true_iff] at hup ⊢
    exact hup.trans h
  | down =>
    simp only [goesUp, Bool.and_eq_true, decide_eq_true_iff] at hup ⊢
    exact hup.imp_right hne
  | up =>
    simp only [goesUp, Bool.and_eq_true, decide_eq_true_iff] at hup ⊢
    exact hup.imp_right hne
  | towardZero => exact absurd hup (by simp [goesUp])
  | odd =>
    simp only [goesUp, Bool.and_eq_true, decide_eq_true_iff] at hup ⊢
    exact hup.imp_left hne

theorem units_mono (h0 : 0 ≤ t) (h : t ≤ t') : mode.units negative t ≤ mode.units negative t' := by
  have hfloor : ⌊t⌋₊ ≤ ⌊t'⌋₊ := Nat.floor_mono h
  rcases hfloor.lt_or_eq with hlt | heq
  · exact (units_le_floor.trans hlt).trans floor_le_units
  · have hpart : 0 ≤ t - ⌊t⌋₊ := sub_nonneg.mpr (Nat.floor_le h0)
    have hle : t - ⌊t⌋₊ ≤ t' - ⌊t⌋₊ := sub_le_sub_right h _
    rw [units, units, ← heq]
    refine Nat.add_le_add_left ?_ _
    cases hup : mode.goesUp ⌊t⌋₊ (t - ⌊t⌋₊) negative with
    | false => exact Nat.zero_le _
    | true => rw [goesUp_mono hpart hle hup]

theorem units_eq (h : mode.goesUp ⌊t⌋₊ (t - ⌊t⌋₊) negative = false) : mode.units negative t = ⌊t⌋₊ := by
  rw [units, h, Bool.toNat_false, Nat.add_zero]

theorem units_eq_succ (h : mode.goesUp ⌊t⌋₊ (t - ⌊t⌋₊) negative = true) : mode.units negative t = ⌊t⌋₊ + 1 := by
  rw [units, h, Bool.toNat_true]

theorem units_nearestEven (h0 : 0 ≤ t) : NearestInt t (nearestEven.units negative t) := by
  have hle := Nat.floor_le h0
  have hlt := Nat.lt_floor_add_one t
  cases hup : nearestEven.goesUp ⌊t⌋₊ (t - ⌊t⌋₊) negative with
  | false =>
    rw [units_eq hup]
    simp only [goesUp, Bool.or_eq_false_iff, decide_eq_false_iff_not, not_lt, Bool.and_eq_false_imp,
      decide_eq_true_iff, bne_eq_false_iff_eq] at hup
    push_cast
    rw [NearestInt, Int.cast_natCast, abs_of_nonneg (by linarith)]
    exact ⟨hup.1, fun hhalf => (Int.even_coe_nat _).mpr (Nat.even_iff.mpr (hup.2 hhalf))⟩
  | true =>
    rw [units_eq_succ hup]
    simp only [goesUp, Bool.or_eq_true, decide_eq_true_iff, Bool.and_eq_true, bne_iff_ne] at hup
    have hge : 1 / 2 ≤ t - ⌊t⌋₊ := hup.elim le_of_lt fun h => h.1.ge
    rw [NearestInt, Int.cast_natCast, Nat.cast_add_one, abs_of_nonpos (by linarith)]
    refine ⟨by linarith, fun hhalf => (Int.even_coe_nat _).mpr (Nat.even_iff.mpr ?_)⟩
    have hodd := (hup.resolve_left (by linarith)).2
    omega

theorem units_nearestAway (h0 : 0 ≤ t) : |t - (nearestAway.units negative t : Int)| ≤ 1 / 2 ∧
    (|t - (nearestAway.units negative t : Int)| = 1 / 2 → t ≤ (nearestAway.units negative t : Int)) := by
  have hle := Nat.floor_le h0
  have hlt := Nat.lt_floor_add_one t
  rw [Int.cast_natCast]
  cases hup : nearestAway.goesUp ⌊t⌋₊ (t - ⌊t⌋₊) negative with
  | false =>
    rw [units_eq hup]
    simp only [goesUp, decide_eq_false_iff_not, not_le] at hup
    rw [abs_of_nonneg (by linarith)]
    exact ⟨hup.le, fun hhalf => absurd hhalf hup.ne⟩
  | true =>
    rw [units_eq_succ hup, Nat.cast_add_one]
    simp only [goesUp, decide_eq_true_iff] at hup
    rw [abs_of_nonpos (by linarith)]
    exact ⟨by linarith, fun _ => by linarith⟩

theorem units_odd (h0 : 0 ≤ t) : |t - (odd.units negative t : Int)| < 1 ∧
    (t ≠ (odd.units negative t : Int) → Odd (odd.units negative t : Int)) := by
  have hle := Nat.floor_le h0
  have hlt := Nat.lt_floor_add_one t
  rw [Int.cast_natCast]
  cases hup : odd.goesUp ⌊t⌋₊ (t - ⌊t⌋₊) negative with
  | false =>
    rw [units_eq hup]
    simp only [goesUp, Bool.and_eq_false_imp, decide_eq_true_iff, beq_eq_false_iff_ne] at hup
    rw [abs_of_nonneg (by linarith)]
    refine ⟨by linarith, fun hne => (Int.odd_coe_nat _).mpr (Nat.odd_iff.mpr ?_)⟩
    have := hup (sub_ne_zero.mpr hne)
    omega
  | true =>
    rw [units_eq_succ hup, Nat.cast_add_one]
    simp only [goesUp, Bool.and_eq_true, decide_eq_true_iff, beq_iff_eq] at hup
    have hpos : 0 < t - ⌊t⌋₊ := lt_of_le_of_ne (by linarith) hup.1.symm
    rw [abs_of_nonpos (by linarith)]
    refine ⟨by linarith, fun _ => (Int.odd_coe_nat _).mpr (Nat.odd_iff.mpr ?_)⟩
    omega

/-- What goes up whenever a part is left. -/
theorem units_away (h0 : 0 ≤ t)
    (h : mode.goesUp ⌊t⌋₊ (t - ⌊t⌋₊) negative = decide (t - ⌊t⌋₊ ≠ 0)) :
    t ≤ (mode.units negative t : Int) ∧ (mode.units negative t : Int) < t + 1 := by
  have hle := Nat.floor_le h0
  have hlt := Nat.lt_floor_add_one t
  rw [Int.cast_natCast]
  by_cases hpart : t - ⌊t⌋₊ = 0
  · rw [units_eq (h.trans (decide_eq_false (not_not.mpr hpart)))]
    exact ⟨by linarith, by linarith⟩
  · have hpos : 0 < t - ⌊t⌋₊ := lt_of_le_of_ne (by linarith) (Ne.symm hpart)
    rw [units_eq_succ (h.trans (decide_eq_true hpart)), Nat.cast_add_one]
    exact ⟨by linarith, by linarith⟩

/-- Whole units are the amount, at the scale of its exponent. -/
theorem rounds_units {e : Int} (h0 : 0 ≤ t) (htop : t < 2 ^ 11) (hlow : 2 ^ 10 ≤ t ∨ e = -24) (he : -24 ≤ e) :
    mode.Rounds (Format.sign negative * (t * 2 ^ e)) (Format.sign negative * (mode.units negative t * 2 ^ e)) := by
  have hp : 2 ≤ 11 := by decide
  have hfloor : RoundsDown 11 (-24) (t * 2 ^ e) (((⌊t⌋₊ : Nat) : Int) * 2 ^ e) :=
    roundsDown_scaled hp h0 htop hlow he (by exact_mod_cast Nat.floor_le h0) (by exact_mod_cast Nat.lt_floor_add_one t)
  have hceil (mode : Fp16Rounding) (h : mode.goesUp ⌊t⌋₊ (t - ⌊t⌋₊) negative = decide (t - ⌊t⌋₊ ≠ 0)) :
      RoundsUp 11 (-24) (t * 2 ^ e) ((mode.units negative t : Int) * 2 ^ e) :=
    roundsUp_scaled hp h0 htop hlow he (units_away h0 h).1 (units_away h0 h).2
  cases mode with
  | nearestEven => exact (nearestEven_scaled hp (units_nearestEven h0) h0 htop hlow he).sign negative
  | nearestAway =>
    exact (nearestAway_scaled hp h0 htop hlow he (units_nearestAway h0).1 (units_nearestAway h0).2).sign negative
  | odd => exact (roundsOdd_scaled hp h0 htop hlow he (units_odd h0).1 (units_odd h0).2).sign negative
  | down =>
    cases negative with
    | false =>
      rw [units_eq rfl, Format.sign, if_neg Bool.false_ne_true, one_mul, one_mul]
      exact hfloor
    | true =>
      rw [Format.sign, if_pos rfl, neg_one_mul, neg_one_mul]
      exact (hceil down rfl).neg
  | up =>
    cases negative with
    | false =>
      rw [Format.sign, if_neg Bool.false_ne_true, one_mul, one_mul]
      exact hceil up rfl
    | true =>
      rw [units_eq rfl, Format.sign, if_pos rfl, neg_one_mul, neg_one_mul]
      exact hfloor.neg
  | towardZero =>
    have hnonneg : 0 ≤ t * 2 ^ e := by positivity
    rw [units_eq rfl, Rounds, RoundsTowardZero]
    cases negative with
    | false =>
      rw [Format.sign, if_neg Bool.false_ne_true, one_mul, one_mul, if_pos hnonneg]
      exact hfloor
    | true =>
      rw [Format.sign, if_pos rfl, neg_one_mul, neg_one_mul]
      split_ifs with hx
      · -- a negative zero
        obtain rfl : t = 0 := by
          have hzero : t * 2 ^ e = 0 := by linarith
          exact (mul_eq_zero.mp hzero).resolve_right (by positivity)
        simpa using hfloor
      · exact hfloor.neg

end Units

end Fp16Rounding

/-! ## Words -/

section Words

variable (bits : UInt32)

theorem exponent_toNat : ((bits >>> 23) &&& 255).toNat = Format.binary32.exponent bits.toNat := by
  rw [UInt32.toNat_and, UInt32.toNat_shiftRight, Nat.shiftRight_eq_div_pow]
  exact Nat.and_two_pow_sub_one_eq_mod _ 8

theorem fraction_toNat : (bits &&& 0x7fffff).toNat = Format.binary32.fraction bits.toNat := by
  rw [UInt32.toNat_and]
  exact Nat.and_two_pow_sub_one_eq_mod _ 23

theorem magnitude_toNat : (bits &&& 0x7fffffff).toNat = Format.binary32.magnitude bits.toNat := by
  rw [UInt32.toNat_and]
  exact Nat.and_two_pow_sub_one_eq_mod _ 31

theorem negative_eq : (bits >>> 31 != 0) = Format.binary32.negative bits.toNat := by
  have hlt := bits.toNat_lt
  have hshift : (bits >>> 31).toNat = bits.toNat / 2 ^ 31 := by
    rw [UInt32.toNat_shiftRight, Nat.shiftRight_eq_div_pow]
    rfl
  have htest : Format.binary32.negative bits.toNat = decide (bits.toNat / 2 ^ 31 % 2 = 1) :=
    Nat.testBit_eq_decide_div_mod_eq
  rw [htest, Bool.eq_iff_iff, bne_iff_ne, ne_eq, ← UInt32.toNat_inj, hshift, decide_eq_true_iff, UInt32.toNat_zero]
  omega

theorem sign_toNat :
    ((bits >>> 16).toUInt16 &&& 0x8000).toNat = 2 ^ 15 * (Format.binary32.negative bits.toNat).toNat := by
  have hlt := bits.toNat_lt
  have hshift : (bits >>> 16).toUInt16.toNat = bits.toNat / 2 ^ 16 := by
    rw [UInt32.toNat_toUInt16, UInt32.toNat_shiftRight, Nat.shiftRight_eq_div_pow]
    change bits.toNat / 2 ^ 16 % 2 ^ 16 = _
    exact Nat.mod_eq_of_lt (by omega)
  rw [UInt16.toNat_and, hshift, show (0x8000 : UInt16).toNat = 2 ^ 15 from rfl, Nat.and_two_pow,
    Nat.testBit_div_two_pow, Nat.mul_comm]
  rfl

/-- A magnitude under a sign. -/
theorem sign_or_toNat {magnitude : UInt16} (h : magnitude.toNat < 2 ^ 15) :
    (((bits >>> 16).toUInt16 &&& 0x8000) ||| magnitude).toNat =
      2 ^ 15 * (Format.binary32.negative bits.toNat).toNat + magnitude.toNat := by
  rw [UInt16.toNat_or, sign_toNat, Nat.two_pow_add_eq_or_of_lt h]

theorem significand_toNat :
    ((bits &&& 0x7fffff) ||| 0x800000).toNat = 2 ^ 23 + Format.binary32.fraction bits.toNat := by
  have hlt : Format.binary32.fraction bits.toNat < 2 ^ 23 := Nat.mod_lt _ (by decide)
  rw [UInt32.toNat_or, fraction_toNat, Nat.or_comm]
  exact (Nat.two_pow_add_eq_or_of_lt hlt 1).symm

end Words

section Parts

variable (part : Nat) {half : Nat} (h : 0 < half)

include h

theorem half_lt_iff : 1 / 2 < (part : ℚ) / (2 * half) ↔ half < part := by
  have hpos : (0 : ℚ) < half := by exact_mod_cast h
  rw [div_lt_div_iff₀ (by norm_num) (by linarith), ← @Nat.cast_lt ℚ]
  constructor <;> intro h <;> linarith

theorem half_le_iff : 1 / 2 ≤ (part : ℚ) / (2 * half) ↔ half ≤ part := by
  have hpos : (0 : ℚ) < half := by exact_mod_cast h
  rw [div_le_div_iff₀ (by norm_num) (by linarith), ← @Nat.cast_le ℚ]
  constructor <;> intro h <;> linarith

theorem eq_half_iff : (part : ℚ) / (2 * half) = 1 / 2 ↔ part = half := by
  have hpos : (0 : ℚ) < half := by exact_mod_cast h
  rw [div_eq_div_iff (by linarith) (by norm_num), ← @Nat.cast_inj ℚ]
  constructor <;> intro h <;> linarith

theorem part_eq_zero_iff : (part : ℚ) / (2 * half) = 0 ↔ part = 0 := by
  have hpos : (0 : ℚ) < half := by exact_mod_cast h
  rw [div_eq_zero_iff, or_iff_left (by linarith), Nat.cast_eq_zero]

end Parts

section Significand

variable {mode : Fp16Rounding} {value shift : UInt32} {negative : Bool} (h0 : 0 < shift.toNat) (h : shift.toNat < 32)

theorem one_shiftLeft_toNat {shift : UInt32} (h : shift.toNat < 32) :
    ((1 : UInt32) <<< shift).toNat = 2 ^ shift.toNat := by
  rw [UInt32.toNat_shiftLeft, Nat.mod_eq_of_lt h, Nat.shiftLeft_eq, UInt32.toNat_one, Nat.one_mul]
  exact Nat.mod_eq_of_lt (Nat.pow_lt_pow_right (by decide) h)

include h in
theorem retained_toNat (value : UInt32) : (value >>> shift).toNat = value.toNat / 2 ^ shift.toNat := by
  rw [UInt32.toNat_shiftRight, Nat.mod_eq_of_lt h, Nat.shiftRight_eq_div_pow]

include h in
theorem discarded_toNat (value : UInt32) : (value &&& ((1 <<< shift) - 1)).toNat = value.toNat % 2 ^ shift.toNat := by
  have hone : (1 : UInt32) ≤ 1 <<< shift := by
    rw [UInt32.le_iff_toNat_le, one_shiftLeft_toNat h]
    exact Nat.one_le_two_pow
  rw [UInt32.toNat_and, UInt32.toNat_sub_of_le _ _ hone, one_shiftLeft_toNat h]
  exact Nat.and_two_pow_sub_one_eq_mod _ _

include h0 h

theorem halfway_toNat : ((1 : UInt32) <<< (shift - 1)).toNat = 2 ^ (shift.toNat - 1) := by
  have hone : (1 : UInt32) ≤ shift := by
    rw [UInt32.le_iff_toNat_le]
    exact h0
  have hsub : (shift - 1).toNat = shift.toNat - 1 := UInt32.toNat_sub_of_le _ _ hone
  rw [one_shiftLeft_toNat (by omega), hsub]

/-- The discarded bits are a part of a unit. -/
theorem increment_eq : mode.increment (value >>> shift) (value &&& ((1 <<< shift) - 1)) (1 <<< (shift - 1)) negative =
    mode.goesUp (value.toNat / 2 ^ shift.toNat) ((value.toNat % 2 ^ shift.toNat : Nat) / 2 ^ shift.toNat) negative := by
  have hretained := retained_toNat h value
  have hdiscarded := discarded_toNat h value
  have hhalfway := halfway_toNat h0 h
  have hpow : (2 : ℚ) ^ shift.toNat = 2 * 2 ^ (shift.toNat - 1) := by
    rw [← pow_succ']
    congr 1
    omega
  have hcast : ((2 ^ (shift.toNat - 1) : Nat) : ℚ) = 2 ^ (shift.toNat - 1) := by push_cast; rfl
  have hpos : 0 < 2 ^ (shift.toNat - 1) := Nat.two_pow_pos _
  rw [← hretained, ← hdiscarded]
  generalize value >>> shift = retained at hretained ⊢
  generalize value &&& ((1 <<< shift) - 1) = discarded at hdiscarded ⊢
  generalize (1 : UInt32) <<< (shift - 1) = halfway at hhalfway ⊢
  rw [← hhalfway] at hpos
  rw [hpow, ← hcast, ← hhalfway]
  have hlt := half_lt_iff discarded.toNat hpos
  have hle := half_le_iff discarded.toNat hpos
  have heq := eq_half_iff discarded.toNat hpos
  have hzero := part_eq_zero_iff discarded.toNat hpos
  rw [← UInt32.lt_iff_toNat_lt] at hlt
  rw [← UInt32.le_iff_toNat_le] at hle
  rw [UInt32.toNat_inj] at heq
  rw [← UInt32.toNat_zero, UInt32.toNat_inj] at hzero
  have hbit : retained &&& 1 = 0 ↔ retained.toNat % 2 = 0 := by
    rw [← UInt32.toNat_inj, UInt32.toNat_and, UInt32.toNat_one, Nat.and_one_is_mod, UInt32.toNat_zero]
  rw [Bool.eq_iff_iff]
  cases mode <;>
    simp only [Fp16Rounding.increment, Fp16Rounding.goesUp, Bool.or_eq_true, Bool.and_eq_true, decide_eq_true_iff,
      beq_iff_eq, bne_iff_ne, hlt, hle, heq, hzero, ne_eq, hbit, ge_iff_le, gt_iff_lt]

omit h0 h in
theorem units_div (value shift : Nat) : mode.units negative ((value : ℚ) / 2 ^ shift) =
    value / 2 ^ shift + (mode.goesUp (value / 2 ^ shift) ((value % 2 ^ shift : Nat) / 2 ^ shift) negative).toNat := by
  have hpos : (0 : ℚ) < 2 ^ shift := by positivity
  have hfloor : ⌊(value : ℚ) / 2 ^ shift⌋₊ = value / 2 ^ shift := by
    exact_mod_cast Nat.floor_div_eq_div (K := ℚ) value (2 ^ shift)
  have hsplit : (value : ℚ) = 2 ^ shift * (value / 2 ^ shift : Nat) + (value % 2 ^ shift : Nat) := by
    exact_mod_cast (Nat.div_add_mod value (2 ^ shift)).symm
  have hpart : (value : ℚ) / 2 ^ shift - (value / 2 ^ shift : Nat) = (value % 2 ^ shift : Nat) / 2 ^ shift := by
    rw [eq_div_iff hpos.ne', sub_mul, div_mul_cancel₀ _ hpos.ne']
    linarith
  rw [Fp16Rounding.units, hfloor, hpart]

theorem roundSignificand_toNat (hv : value.toNat < 2 ^ 24) :
    (roundSignificand value shift negative mode).toNat = mode.units negative (value.toNat / 2 ^ shift.toNat) := by
  have hsmall : value.toNat / 2 ^ shift.toNat < 2 ^ 24 := (Nat.div_le_self _ _).trans_lt hv
  have hbool (b : Bool) : b.toUInt32.toNat = b.toNat := by cases b <;> rfl
  rw [roundSignificand, units_div, increment_eq h0 h, UInt32.toNat_add, retained_toNat h, hbool]
  refine Nat.mod_eq_of_lt ?_
  have := Bool.toNat_le (mode.goesUp (value.toNat / 2 ^ shift.toNat)
    ((value.toNat % 2 ^ shift.toNat : Nat) / 2 ^ shift.toNat) negative)
  omega

end Significand

/-! ## The word of a result -/

/-- How many exponents the operand is above those that share the least unit of binary16. -/
def exponentAbove (m : Nat) : Nat := m / 2 ^ 23 - 113

/-- The operand in units of the last place of its result. -/
def inUnits (m : Nat) : ℚ := Format.binary32.amount m * 2 ^ (24 - exponentAbove m : Int)

/-- The magnitude of the result, if exponents had no bound. -/
def resultWord (mode : Fp16Rounding) (negative : Bool) (m : Nat) : Nat :=
  2 ^ 10 * exponentAbove m + mode.units negative (inUnits m)

section Words

variable {mode : Fp16Rounding} {negative : Bool} {m m' : Nat}

theorem emin_binary32 : Format.binary32.emin = -149 := by decide

theorem emin_binary16 : Format.binary16.emin = -24 := by decide

theorem amount_strictMono : StrictMono Format.binary32.amount := Format.amount_strictMono

/-- The least number of an exponent. -/
theorem amount_power (k : Nat) : Format.binary32.amount (2 ^ 23 * (k + 1)) = 2 ^ (k - 126 : Int) := by
  have h := Format.amount_scaled (F := .binary32) (k := k) (n := 2 ^ 23) (by decide) (.inl le_rfl)
  rw [emin_binary32] at h
  rw [Nat.mul_succ]
  refine h.trans ?_
  rw [Nat.cast_pow, Nat.cast_ofNat, ← zpow_natCast, ← zpow_add₀ (by norm_num)]
  congr 1
  push_cast
  ring

theorem inUnits_nonneg : 0 ≤ inUnits m := by
  have := Format.amount_nonneg (F := .binary32) m
  unfold inUnits
  positivity

theorem inUnits_lt : inUnits m < 2 ^ 11 := by
  have hlt : m < 2 ^ 23 * (m / 2 ^ 23 + 1) := by omega
  have hup := amount_strictMono hlt
  rw [amount_power] at hup
  have hscale : (2 : ℚ) ^ ((m / 2 ^ 23 : Nat) - 126 : Int) * 2 ^ (24 - exponentAbove m : Int) ≤ 2 ^ (11 : Int) := by
    rw [← zpow_add₀ (by norm_num)]
    refine zpow_le_zpow_right₀ (by norm_num) ?_
    unfold exponentAbove
    omega
  exact (mul_lt_mul_of_pos_right hup (by positivity)).trans_le (by exact_mod_cast hscale)

theorem le_inUnits (h : exponentAbove m ≠ 0) : 2 ^ 10 ≤ inUnits m := by
  unfold exponentAbove at h
  obtain ⟨k, hk⟩ : ∃ k, m / 2 ^ 23 = k + 1 := ⟨m / 2 ^ 23 - 1, by omega⟩
  have hle : 2 ^ 23 * (k + 1) ≤ m := by omega
  have hlow := amount_strictMono.monotone hle
  rw [amount_power] at hlow
  have hscale : (2 : ℚ) ^ (10 : Int) ≤ 2 ^ (k - 126 : Int) * 2 ^ (24 - exponentAbove m : Int) := by
    rw [← zpow_add₀ (by norm_num)]
    refine zpow_le_zpow_right₀ (by norm_num) ?_
    unfold exponentAbove
    omega
  exact le_trans (by exact_mod_cast hscale) (mul_le_mul_of_nonneg_right hlow (by positivity))

theorem units_le (mode : Fp16Rounding) (negative : Bool) (m : Nat) : mode.units negative (inUnits m) ≤ 2 ^ 11 := by
  have hfloor : ⌊inUnits m⌋₊ < 2 ^ 11 := (Nat.floor_lt inUnits_nonneg).mpr (by exact_mod_cast inUnits_lt)
  exact Fp16Rounding.units_le_floor.trans hfloor

theorem le_units (mode : Fp16Rounding) (negative : Bool) (h : exponentAbove m ≠ 0) :
    2 ^ 10 ≤ mode.units negative (inUnits m) :=
  (Nat.le_floor (by exact_mod_cast le_inUnits h)).trans Fp16Rounding.floor_le_units

theorem resultWord_mono (h : m ≤ m') : resultWord mode negative m ≤ resultWord mode negative m' := by
  have hexp : exponentAbove m ≤ exponentAbove m' := Nat.sub_le_sub_right (Nat.div_le_div_right h) _
  rcases hexp.lt_or_eq with hlt | heq
  · -- a carry reaches at most the least word of the next exponent
    have htop := units_le mode negative m
    have hlow := le_units mode negative (show exponentAbove m' ≠ 0 by omega)
    unfold resultWord
    omega
  · have hunits : inUnits m ≤ inUnits m' := by
      rw [inUnits, inUnits, heq]
      exact mul_le_mul_of_nonneg_right (amount_strictMono.monotone h) (by positivity)
    rw [resultWord, resultWord, heq]
    exact Nat.add_le_add_left (Fp16Rounding.units_mono inUnits_nonneg hunits) _

/-- The word stands for the rounded number. -/
theorem amount_resultWord : Format.binary16.amount (resultWord mode negative m) =
    mode.units negative (inUnits m) * 2 ^ (-24 + exponentAbove m : Int) := by
  have hlow : 2 ^ 10 ≤ mode.units negative (inUnits m) ∨ exponentAbove m = 0 :=
    (em (exponentAbove m = 0)).symm.imp_left (le_units mode negative)
  have h := Format.amount_scaled (F := .binary16) (units_le mode negative m) hlow
  rwa [emin_binary16] at h

theorem resultWord_rounds : mode.Rounds (Format.sign negative * Format.binary32.amount m)
    (Format.sign negative * Format.binary16.amount (resultWord mode negative m)) := by
  have hlow : 2 ^ 10 ≤ inUnits m ∨ -24 + (exponentAbove m : Int) = -24 :=
    (em (exponentAbove m = 0)).symm.imp le_inUnits fun h => by rw [h]; rfl
  have hamount : Format.binary32.amount m = inUnits m * 2 ^ (-24 + exponentAbove m : Int) := by
    rw [inUnits, mul_assoc, ← zpow_add₀ (by norm_num),
      show (24 - exponentAbove m + (-24 + exponentAbove m) : Int) = 0 by ring, zpow_zero, mul_one]
  rw [amount_resultWord, hamount]
  exact Fp16Rounding.rounds_units inUnits_nonneg inUnits_lt hlow (by omega)

/-- By the significand, where there is one. -/
theorem inUnits_normal (shift : Nat) (he : m / 2 ^ 23 ≠ 0)
    (hs : (shift : Int) = 126 + exponentAbove m - (m / 2 ^ 23 : Nat)) :
    inUnits m = (2 ^ 23 + m % 2 ^ 23 : Nat) / 2 ^ shift := by
  have hamount : Format.binary32.amount m =
      (2 ^ 23 + m % 2 ^ 23 : Nat) * 2 ^ (-149 + (m / 2 ^ 23 - 1 : Nat) : Int) := by
    rw [← emin_binary32]
    exact congrArg₂ _ (congrArg _ (if_neg he)) rfl
  rw [inUnits, hamount, mul_assoc, ← zpow_add₀ (by norm_num), div_eq_mul_inv, ← zpow_natCast, ← zpow_neg]
  congr 2
  omega

/-- Below the least subnormal the result is that one or zero. -/
theorem resultWord_tiny (he : m / 2 ^ 23 ≤ 102) :
    resultWord mode negative m = (mode.goesUp 0 (inUnits m) negative).toNat := by
  have habove : exponentAbove m = 0 := by
    unfold exponentAbove
    omega
  have hlt : inUnits m < 1 := by
    have hup := amount_strictMono (show m < 2 ^ 23 * (102 + 1) by omega)
    rw [amount_power] at hup
    rw [inUnits, habove]
    refine (mul_lt_mul_of_pos_right hup (by positivity)).trans_le ?_
    norm_num
  have hfloor : ⌊inUnits m⌋₊ = 0 := Nat.floor_eq_zero.mpr hlt
  rw [resultWord, habove, Fp16Rounding.units, hfloor, Nat.cast_zero, sub_zero, Nat.mul_zero, Nat.zero_add, Nat.zero_add]

/-- The table is the rounding below the least subnormal. -/
theorem roundsUp_eq (mode : Fp16Rounding) (negative : Bool) {exponent fraction : UInt32} {nonzero : Bool}
    (he : exponent.toNat = m / 2 ^ 23) (hf : fraction.toNat = m % 2 ^ 23) (hz : nonzero = decide (m ≠ 0))
    (htiny : m / 2 ^ 23 ≤ 102) :
    mode.roundsUp exponent fraction nonzero negative = mode.goesUp 0 (inUnits m) negative := by
  have habove : exponentAbove m = 0 := by
    unfold exponentAbove
    omega
  have hhalf : inUnits (2 ^ 23 * (101 + 1)) = 1 / 2 := by
    rw [inUnits, amount_power]
    norm_num [exponentAbove]
  have hmono : ∀ a b, exponentAbove a = 0 → exponentAbove b = 0 → (inUnits a < inUnits b ↔ a < b) := by
    intro a b ha hb
    rw [inUnits, inUnits, ha, hb, mul_lt_mul_iff_left₀ (by positivity), amount_strictMono.lt_iff_lt]
  have hlt := hmono (2 ^ 23 * (101 + 1)) m (by decide) habove
  have hgt := hmono m (2 ^ 23 * (101 + 1)) habove (by decide)
  have hpos := hmono 0 m (by decide) habove
  rw [hhalf] at hlt hgt
  have hzero : inUnits 0 = 0 := by
    rw [inUnits, Format.amount_zero, zero_mul]
  rw [hzero] at hpos
  have hne : inUnits m ≠ 0 ↔ m ≠ 0 := by
    rw [← (inUnits_nonneg (m := m)).lt_iff_ne', hpos]
    omega
  have hexponent : exponent = 102 ↔ m / 2 ^ 23 = 102 := by
    rw [← UInt32.toNat_inj, he]
    exact Iff.rfl
  have hfraction : fraction = 0 ↔ m % 2 ^ 23 = 0 := by
    rw [← UInt32.toNat_inj, hf]
    exact Iff.rfl
  rw [hz, Bool.eq_iff_iff]
  cases mode with
  | nearestEven =>
    simp only [Fp16Rounding.roundsUp, Fp16Rounding.goesUp, Bool.or_eq_true, Bool.and_eq_true, decide_eq_true_iff,
      beq_iff_eq, bne_iff_ne, ne_eq, hlt, hexponent, hfraction, Nat.zero_mod, not_true, and_false, or_false]
    omega
  | nearestAway =>
    simp only [Fp16Rounding.roundsUp, Fp16Rounding.goesUp, decide_eq_true_iff, beq_iff_eq, hexponent, ← not_lt, hgt]
    omega
  | down => simp only [Fp16Rounding.roundsUp, Fp16Rounding.goesUp, hne]
  | up => simp only [Fp16Rounding.roundsUp, Fp16Rounding.goesUp, hne]
  | towardZero => rfl
  | odd => simp [Fp16Rounding.roundsUp, Fp16Rounding.goesUp, hne]

/-- The thresholds are those from which the significand rounds up to the next exponent. -/
theorem overflows_iff {fraction : UInt32} (hf : fraction.toNat < 2 ^ 23) : mode.overflows fraction negative = true ↔
    2 ^ 11 ≤ mode.units negative ((2 ^ 23 + fraction.toNat : Nat) / 2 ^ 13) := by
  rw [units_div]
  have hwhole : (2 ^ 23 + fraction.toNat) / 2 ^ 13 = 2 ^ 10 + fraction.toNat / 2 ^ 13 := by omega
  have hpart : (2 ^ 23 + fraction.toNat) % 2 ^ 13 = fraction.toNat % 2 ^ 13 := by omega
  rw [hwhole, hpart]
  have hunit : (2 : ℚ) ^ 13 = 2 * (2 ^ 12 : Nat) := by norm_num
  have hpos : 0 < 2 ^ 12 := by decide
  have hup : (2 ^ 10 + fraction.toNat / 2 ^ 13) % 2 = fraction.toNat / 2 ^ 13 % 2 := by omega
  have hbool (b : Bool) : b.toNat = 1 ↔ b = true := by cases b <;> decide
  have hcarry (b : Bool) : 2 ^ 11 ≤ 2 ^ 10 + fraction.toNat / 2 ^ 13 + b.toNat ↔
      fraction.toNat / 2 ^ 13 = 1023 ∧ b = true := by
    have := Bool.toNat_le b
    rw [← hbool]
    omega
  rw [hcarry]
  have hthreshold (t : UInt32) : fraction ≥ t ↔ t.toNat ≤ fraction.toNat := UInt32.le_iff_toNat_le
  have habove (t : UInt32) : fraction > t ↔ t.toNat < fraction.toNat := UInt32.lt_iff_toNat_lt
  have hnearest : (0x7ff000 : UInt32).toNat = 0x7ff000 := rfl
  have hdirected : (0x7fe000 : UInt32).toNat = 0x7fe000 := rfl
  cases mode <;>
    simp only [Fp16Rounding.overflows, Fp16Rounding.goesUp, hunit, half_lt_iff _ hpos, half_le_iff _ hpos,
      eq_half_iff _ hpos, part_eq_zero_iff _ hpos, hup, hthreshold, habove, hnearest, hdirected, ne_eq, Bool.or_eq_true,
      Bool.and_eq_true, Bool.not_eq_true', decide_eq_true_iff, beq_iff_eq, bne_iff_ne, Bool.false_eq_true, and_false]
  · omega
  · omega
  · rw [and_left_comm]
    refine and_congr_right fun _ => ?_
    omega
  · rw [and_left_comm]
    refine and_congr_right fun _ => ?_
    omega
  · exact iff_of_false id (by omega)

theorem infinity_le_resultWord (h : 143 ≤ m / 2 ^ 23) : Format.binary16.infinity ≤ resultWord mode negative m := by
  have hk : 30 ≤ exponentAbove m := by
    unfold exponentAbove
    omega
  have hlow := le_units mode negative (show exponentAbove m ≠ 0 by omega)
  have hinf : Format.binary16.infinity = 2 ^ 10 * 31 := by decide
  unfold resultWord
  omega

end Words

/-! ## The conversion, by its word -/

section Conversion

variable (rounding : Fp16Rounding) (mode : Fp16Mode) (bits : UInt32)

/-- The word of the result, without its bound. -/
def wordOf : Nat :=
  resultWord rounding (Format.binary32.negative bits.toNat) (Format.binary32.magnitude bits.toNat)

/-- What an operand that is not a NaN gives. -/
structure Yields (outcome : Fp16Outcome) : Prop where
  word : outcome.bits.toNat = 2 ^ 15 * (Format.binary32.negative bits.toNat).toNat +
    if wordOf rounding bits < Format.binary16.infinity then wordOf rounding bits else (overflowBits mode).toNat
  overflow : outcome.status.overflow =
    decide (Format.binary32.Finite bits.toNat ∧ Format.binary16.infinity ≤ wordOf rounding bits)
  underflow : outcome.status.underflow = decide (Format.binary32.magnitude bits.toNat ≠ 0 ∧
    Format.binary32.exponent bits.toNat ≤ 102 ∧ wordOf rounding bits = 0)

variable {rounding mode bits}

theorem overflowBits_lt : (overflowBits mode).toNat < 2 ^ 15 := by cases mode <;> decide

theorem magnitude_div : Format.binary32.magnitude bits.toNat / 2 ^ 23 = Format.binary32.exponent bits.toNat :=
  Format.exponent_eq.symm

theorem magnitude_mod : Format.binary32.magnitude bits.toNat % 2 ^ 23 = Format.binary32.fraction bits.toNat :=
  Format.fraction_eq.symm

theorem exponentAbove_eq :
    exponentAbove (Format.binary32.magnitude bits.toNat) = Format.binary32.exponent bits.toNat - 113 := by
  rw [exponentAbove, magnitude_div]

/-- A shift by as many bits as the operand has below its result. -/
theorem wordOf_eq (rounding : Fp16Rounding) (shift : UInt32) (h0 : 0 < shift.toNat) (h : shift.toNat < 32)
    (he : Format.binary32.exponent bits.toNat ≠ 0)
    (hs : shift.toNat + Format.binary32.exponent bits.toNat = 126 + (Format.binary32.exponent bits.toNat - 113)) :
    wordOf rounding bits = 2 ^ 10 * (Format.binary32.exponent bits.toNat - 113) + (roundSignificand
      ((bits &&& 0x7fffff) ||| 0x800000) shift (Format.binary32.negative bits.toNat) rounding).toNat := by
  have hf : Format.binary32.fraction bits.toNat < 2 ^ 23 := Nat.mod_lt _ (by decide)
  have hunits : inUnits (Format.binary32.magnitude bits.toNat) =
      (2 ^ 23 + Format.binary32.fraction bits.toNat : Nat) / 2 ^ shift.toNat := by
    rw [inUnits_normal shift.toNat (by rwa [magnitude_div]) (by rw [magnitude_div, exponentAbove_eq]; omega),
      magnitude_mod]
  rw [wordOf, resultWord, exponentAbove_eq, hunits, roundSignificand_toNat h0 h (by rw [significand_toNat]; omega),
    significand_toNat]

theorem wordOf_ne_zero (h : 102 < Format.binary32.exponent bits.toNat) : wordOf rounding bits ≠ 0 := by
  have hunit : 1 ≤ inUnits (Format.binary32.magnitude bits.toNat) := by
    by_cases hk : exponentAbove (Format.binary32.magnitude bits.toNat) = 0
    · have hle : 2 ^ 23 * (102 + 1) ≤ Format.binary32.magnitude bits.toNat := by
        rw [← magnitude_div] at h
        omega
      have hlow := amount_strictMono.monotone hle
      rw [amount_power] at hlow
      rw [inUnits, hk]
      refine le_trans ?_ (mul_le_mul_of_nonneg_right hlow (by positivity))
      norm_num
    · exact le_trans (by norm_num) (le_inUnits hk)
  have hfloor : 1 ≤ ⌊inUnits (Format.binary32.magnitude bits.toNat)⌋₊ := Nat.le_floor (by exact_mod_cast hunit)
  have hle : 1 ≤ rounding.units (Format.binary32.negative bits.toNat)
      (inUnits (Format.binary32.magnitude bits.toNat)) := hfloor.trans Fp16Rounding.floor_le_units
  unfold wordOf resultWord
  omega

/-- The overflow, decided by the thresholds, is that of the word. -/
theorem overflow_iff (rounding : Fp16Rounding) (bits : UInt32) : Format.binary16.infinity ≤ wordOf rounding bits ↔
    142 < Format.binary32.exponent bits.toNat ∨ Format.binary32.exponent bits.toNat = 142 ∧
      rounding.overflows (bits &&& 0x7fffff) (Format.binary32.negative bits.toNat) = true := by
  have hinf : Format.binary16.infinity = 2 ^ 10 * 31 := by decide
  have hf : Format.binary32.fraction bits.toNat < 2 ^ 23 := Nat.mod_lt _ (by decide)
  have htop := units_le rounding (Format.binary32.negative bits.toNat) (Format.binary32.magnitude bits.toNat)
  rcases Nat.lt_trichotomy (Format.binary32.exponent bits.toNat) 142 with hlt | heq | hgt
  · refine iff_of_false ?_ (by omega)
    rw [wordOf, resultWord, exponentAbove_eq, hinf]
    omega
  · have hunits := inUnits_normal 13
      (show Format.binary32.magnitude bits.toNat / 2 ^ 23 ≠ 0 by rw [magnitude_div]; omega)
      (by rw [magnitude_div, exponentAbove_eq]; omega)
    rw [overflows_iff (by rwa [fraction_toNat]), fraction_toNat, ← magnitude_mod, ← hunits, wordOf, resultWord,
      exponentAbove_eq, hinf]
    omega
  · exact iff_of_true (infinity_le_resultWord (by rw [magnitude_div]; omega)) (.inl hgt)

theorem yields_word {outcome : Fp16Outcome} {word : UInt16}
    (hword : word.toNat = wordOf rounding bits) (hlt : wordOf rounding bits < Format.binary16.infinity)
    (hbits : outcome.bits = ((bits >>> 16).toUInt16 &&& 0x8000) ||| word) (hoverflow : outcome.status.overflow = false)
    (hunderflow : outcome.status.underflow = decide (Format.binary32.magnitude bits.toNat ≠ 0 ∧
      Format.binary32.exponent bits.toNat ≤ 102 ∧ wordOf rounding bits = 0)) : Yields rounding mode bits outcome := by
  have hinf : Format.binary16.infinity = 2 ^ 10 * 31 := by decide
  refine ⟨?_, ?_, hunderflow⟩
  · rw [hbits, sign_or_toNat _ (by omega), hword, if_pos hlt]
  · rw [hoverflow, decide_eq_false fun h => hlt.not_ge h.2]

theorem yields_overflow {outcome : Fp16Outcome} (hle : Format.binary16.infinity ≤ wordOf rounding bits)
    (hbits : outcome.bits = ((bits >>> 16).toUInt16 &&& 0x8000) ||| overflowBits mode)
    (hoverflow : outcome.status.overflow = decide (Format.binary32.Finite bits.toNat))
    (hunderflow : outcome.status.underflow = false) : Yields rounding mode bits outcome := by
  have hinf : 0 < Format.binary16.infinity := by decide
  refine ⟨?_, ?_, ?_⟩
  · rw [hbits, sign_or_toNat _ overflowBits_lt, if_neg hle.not_gt]
  · rw [hoverflow, decide_eq_decide]
    exact ⟨fun h => ⟨h, hle⟩, fun h => h.1⟩
  · rw [hunderflow, decide_eq_false fun h => by omega]

theorem f32ToFp16_yields (h : Format.binary32.NotNan bits.toNat) :
    Yields rounding mode bits (f32ToFp16 bits rounding mode) := by
  have hexponent := exponent_toNat bits
  have hfraction := fraction_toNat bits
  have hfields : Format.binary32.exponent bits.toNat < 256 := Nat.mod_lt _ (by decide)
  have hover := overflow_iff rounding bits
  have hfinite : Format.binary32.Finite bits.toNat ↔ Format.binary32.exponent bits.toNat < 255 := Iff.rfl
  have heq (t : UInt32) : (bits >>> 23) &&& 255 = t ↔ Format.binary32.exponent bits.toNat = t.toNat := by
    rw [← UInt32.toNat_inj, hexponent]
  have hgt (t : UInt32) : (bits >>> 23) &&& 255 > t ↔ t.toNat < Format.binary32.exponent bits.toNat := by
    rw [gt_iff_lt, UInt32.lt_iff_toNat_lt, hexponent]
  have hcode : (decide ((bits >>> 23) &&& 255 > 142) || ((bits >>> 23) &&& 255 == 142 &&
      rounding.overflows (bits &&& 0x7fffff) (Format.binary32.negative bits.toNat))) = true ↔
        Format.binary16.infinity ≤ wordOf rounding bits := by
    rw [hover, Bool.or_eq_true, Bool.and_eq_true, decide_eq_true_iff, beq_iff_eq, hgt, heq]
    exact Iff.rfl
  have hofNat (n : Nat) (hn : n < Format.binary16.infinity) : (UInt32.ofNat n).toNat = n :=
    Nat.mod_eq_of_lt (hn.trans (by decide))
  have htoUInt16 (t : UInt32) (ht : t.toNat < Format.binary16.infinity) : t.toUInt16.toNat = t.toNat := by
    rw [UInt32.toNat_toUInt16]
    exact Nat.mod_eq_of_lt (ht.trans (by decide))
  unfold f32ToFp16
  simp only [negative_eq]
  split_ifs with h255 hnan hov h112 h102
  · -- a NaN
    have hspecial := (heq 255).mp h255
    refine absurd h (not_or.mpr ⟨?_, ?_⟩)
    · rw [hfinite, hspecial]
      decide
    · rw [← hfraction]
      exact fun h0 => hnan (UInt32.toNat_inj.mp h0)
  · have hspecial := (heq 255).mp h255
    refine yields_overflow (infinity_le_resultWord ?_) rfl ?_ rfl
    · rw [magnitude_div, hspecial]
      decide
    · exact (decide_eq_false (by rw [hfinite, hspecial]; decide)).symm
  · have hnormal : Format.binary32.exponent bits.toNat ≠ 255 := fun h0 => h255 ((heq 255).mpr h0)
    exact yields_overflow (hcode.mp hov) rfl (decide_eq_true (hfinite.mpr (by omega))).symm rfl
  · -- one shift; the bound on the word is never met
    have hlow : 112 < Format.binary32.exponent bits.toNat := (hgt 112).mp h112
    have hlt : wordOf rounding bits < Format.binary16.infinity := not_le.mp fun hle => hov (hcode.mpr hle)
    have hword := wordOf_eq rounding 13 (by decide) (by decide)
      (show Format.binary32.exponent bits.toNat ≠ 0 by omega) (by change 13 + _ = _; omega)
    have hinf : Format.binary16.infinity = 2 ^ 10 * 31 := by decide
    refine yields_word ?_ hlt rfl rfl (decide_eq_false fun h => by omega).symm
    have hsum : (((bits >>> 23) &&& 255) - 113) * 1024 + roundSignificand ((bits &&& 0x7fffff) ||| 0x800000) 13
        (Format.binary32.negative bits.toNat) rounding = UInt32.ofNat (wordOf rounding bits) := by
      rw [← UInt32.toNat_inj, UInt32.toNat_add, UInt32.toNat_mul,
        UInt32.toNat_sub_of_le _ _ (UInt32.le_iff_toNat_le.mpr (by rw [hexponent]; exact hlow)), hexponent, hword]
      change ((Format.binary32.exponent bits.toNat - 113) * 1024 % 2 ^ 32 + _) % 2 ^ 32 = _ % 2 ^ 32
      omega
    have hmin : min (UInt32.ofNat (wordOf rounding bits)) 0x7bff = UInt32.ofNat (wordOf rounding bits) :=
      if_pos (UInt32.le_iff_toNat_le.mpr (by rw [hofNat _ hlt]; change _ ≤ 31743; omega))
    rw [hsum, hmin, htoUInt16 _ (by rw [hofNat _ hlt]; exact hlt), hofNat _ hlt]
  · have hlow : 102 < Format.binary32.exponent bits.toNat := (hgt 102).mp h102
    have htop : ¬ 112 < Format.binary32.exponent bits.toNat := fun h0 => h112 ((hgt 112).mpr h0)
    have hlt : wordOf rounding bits < Format.binary16.infinity := not_le.mp fun hle => hov (hcode.mpr hle)
    have hshift : ((126 : UInt32) - ((bits >>> 23) &&& 255)).toNat = 126 - Format.binary32.exponent bits.toNat := by
      rw [UInt32.toNat_sub_of_le _ _ (UInt32.le_iff_toNat_le.mpr (by rw [hexponent]; change _ ≤ 126; omega)), hexponent]
      rfl
    have hword := wordOf_eq rounding ((126 : UInt32) - ((bits >>> 23) &&& 255)) (by omega) (by omega)
      (show Format.binary32.exponent bits.toNat ≠ 0 by omega) (by omega)
    rw [show Format.binary32.exponent bits.toNat - 113 = 0 by omega, Nat.mul_zero, Nat.zero_add] at hword
    refine yields_word ?_ hlt rfl rfl (decide_eq_false fun h => by omega).symm
    rw [htoUInt16 _ (by rwa [← hword]), hword]
  · have htop : ¬ 102 < Format.binary32.exponent bits.toNat := fun h0 => h102 ((hgt 102).mpr h0)
    have hlt : wordOf rounding bits < Format.binary16.infinity := not_le.mp fun hle => hov (hcode.mpr hle)
    have htiny : Format.binary32.magnitude bits.toNat / 2 ^ 23 ≤ 102 := by
      rw [magnitude_div]
      omega
    have hnonzero : (bits &&& 0x7fffffff != 0) = decide (Format.binary32.magnitude bits.toNat ≠ 0) := by
      rw [Bool.eq_iff_iff, bne_iff_ne, decide_eq_true_iff, ne_eq, ← UInt32.toNat_inj, magnitude_toNat,
        UInt32.toNat_zero]
    have htable := roundsUp_eq rounding (Format.binary32.negative bits.toNat)
      (hexponent.trans magnitude_div.symm) (hfraction.trans magnitude_mod.symm) hnonzero htiny
    have hword : wordOf rounding bits = _ := resultWord_tiny htiny
    rw [← htable] at hword
    refine yields_word ?_ hlt rfl rfl ?_
    · rw [hword]
      cases rounding.roundsUp _ _ _ _ <;> rfl
    · rw [hword, hnonzero]
      cases rounding.roundsUp _ _ _ _ <;> simp [htop] <;> omega

theorem magnitude_signed (negative : Bool) {r : Nat} (h : r < 2 ^ 15) :
    Format.binary16.magnitude (2 ^ 15 * negative.toNat + r) = r := by
  change (2 ^ 15 * negative.toNat + r) % 2 ^ 15 = r
  rw [Nat.mul_add_mod, Nat.mod_eq_of_lt h]

theorem negative_signed (negative : Bool) {r : Nat} (h : r < 2 ^ 15) :
    Format.binary16.negative (2 ^ 15 * negative.toNat + r) = negative := by
  change (2 ^ 15 * negative.toNat + r).testBit 15 = negative
  rw [Nat.testBit_two_pow_mul_add _ h, if_neg (lt_irrefl _), Nat.sub_self]
  cases negative <;> rfl

/-- The magnitude of the result. -/
def boundedWord (rounding : Fp16Rounding) (mode : Fp16Mode) (negative : Bool) (m : Nat) : Nat :=
  if resultWord rounding negative m < Format.binary16.infinity then resultWord rounding negative m
  else (overflowBits mode).toNat

theorem boundedWord_le (rounding : Fp16Rounding) (mode : Fp16Mode) (negative : Bool) (m : Nat) :
    boundedWord rounding mode negative m ≤ Format.binary16.infinity := by
  unfold boundedWord
  split_ifs with h
  · exact h.le
  · cases mode <;> decide

theorem boundedWord_mono (rounding : Fp16Rounding) (mode : Fp16Mode) (negative : Bool) {m m' : Nat} (h : m ≤ m') :
    boundedWord rounding mode negative m ≤ boundedWord rounding mode negative m' := by
  have hmono := @resultWord_mono rounding negative _ _ h
  have htop : Format.binary16.infinity ≤ (overflowBits mode).toNat + 1 := by cases mode <;> decide
  unfold boundedWord
  split_ifs <;> omega

theorem boundedWord_zero (rounding : Fp16Rounding) (mode : Fp16Mode) (negative : Bool) :
    boundedWord rounding mode negative 0 = 0 := by
  have hzero : resultWord rounding negative 0 = 0 := by
    have hunits : inUnits 0 = 0 := by rw [inUnits, Format.amount_zero, zero_mul]
    rw [resultWord_tiny (by decide), hunits]
    cases rounding <;> simp [Fp16Rounding.goesUp]
  rw [boundedWord, hzero, if_pos (by decide)]

theorem magnitude_result (h : Format.binary32.NotNan bits.toNat) :
    Format.binary16.magnitude (f32ToFp16 bits rounding mode).bits.toNat =
      boundedWord rounding mode (Format.binary32.negative bits.toNat) (Format.binary32.magnitude bits.toNat) := by
  rw [(f32ToFp16_yields h).word]
  exact magnitude_signed _ ((boundedWord_le _ mode _ _).trans_lt (by decide))

theorem negative_result (h : Format.binary32.NotNan bits.toNat) :
    Format.binary16.negative (f32ToFp16 bits rounding mode).bits.toNat = Format.binary32.negative bits.toNat := by
  rw [(f32ToFp16_yields h).word]
  exact negative_signed _ ((boundedWord_le _ mode _ _).trans_lt (by decide))

theorem notNan_result (h : Format.binary32.NotNan bits.toNat) :
    Format.binary16.NotNan (f32ToFp16 bits rounding mode).bits.toNat := by
  have hle := boundedWord_le rounding mode (Format.binary32.negative bits.toNat) (Format.binary32.magnitude bits.toNat)
  rw [← magnitude_result h] at hle
  rcases hle.lt_or_eq with hlt | heq
  · exact .inl (Format.finite_iff.mpr hlt)
  · right
    rw [Format.fraction_eq, heq]
    decide

/-- The conversion keeps the order. -/
theorem f32ToFp16_mono {a b : UInt32} (ha : Format.binary32.NotNan a.toNat) (hb : Format.binary32.NotNan b.toNat)
    (h : Format.binary32.extended a.toNat ≤ Format.binary32.extended b.toNat) :
    Format.binary16.extended (f32ToFp16 a rounding mode).bits.toNat ≤
      Format.binary16.extended (f32ToFp16 b rounding mode).bits.toNat := by
  rw [Format.extended_le_iff (by decide) ha hb] at h
  rw [Format.extended_le_iff (by decide) (notNan_result ha) (notNan_result hb)]
  unfold Format.key at h ⊢
  rw [negative_result ha, negative_result hb, magnitude_result ha, magnitude_result hb]
  have hzero := boundedWord_zero rounding mode
  revert h
  cases Format.binary32.negative a.toNat <;> cases Format.binary32.negative b.toNat <;>
    simp only [Bool.false_eq_true, if_false, if_true] <;> intro h
  · have hle : Format.binary32.magnitude a.toNat ≤ Format.binary32.magnitude b.toNat := by omega
    have := boundedWord_mono rounding mode false hle
    omega
  · rw [show Format.binary32.magnitude a.toNat = 0 by omega, show Format.binary32.magnitude b.toNat = 0 by omega, hzero,
      hzero]
    rfl
  · omega
  · have hle : Format.binary32.magnitude b.toNat ≤ Format.binary32.magnitude a.toNat := by omega
    have := boundedWord_mono rounding mode true hle
    omega

/-! ## What the conversion is -/

/-- `y` is the operand as the mode rounds it, and the outcome is `y`, or too large for binary16. -/
structure Converts (rounding : Fp16Rounding) (mode : Fp16Mode) (bits : UInt32) (outcome : Fp16Outcome) (y : ℚ) :
    Prop where
  rounds : rounding.Rounds (Format.binary32.value bits.toNat) y
  sign : Format.binary16.negative outcome.bits.toNat = Format.binary32.negative bits.toNat
  value : |y| < 65536 → Format.binary16.Finite outcome.bits.toNat ∧ Format.binary16.value outcome.bits.toNat = y
  tooLarge : 65536 ≤ |y| → Format.binary16.magnitude outcome.bits.toNat = (overflowBits mode).toNat
  overflow : outcome.status.overflow = true ↔ 65536 ≤ |y|
  underflow : outcome.status.underflow = true ↔
    Format.binary32.value bits.toNat ≠ 0 ∧ Format.binary32.exponent bits.toNat ≤ 102 ∧ y = 0

theorem converts (h : Format.binary32.Finite bits.toNat) :
    Converts rounding mode bits (f32ToFp16 bits rounding mode)
      (Format.sign (Format.binary32.negative bits.toNat) * Format.binary16.amount (wordOf rounding bits)) := by
  have hn : Format.binary32.NotNan bits.toNat := .inl h
  have hyields := @f32ToFp16_yields rounding mode _ hn
  have habs : |Format.sign (Format.binary32.negative bits.toNat) * Format.binary16.amount (wordOf rounding bits)| =
      Format.binary16.amount (wordOf rounding bits) := by
    rw [abs_mul, Format.abs_sign, one_mul, abs_of_nonneg (Format.amount_nonneg _)]
  have hinfinity : Format.binary16.amount Format.binary16.infinity = 65536 := by
    have htop := Format.amount_scaled (F := .binary16) (k := 30) (n := 2 ^ 10) (by decide) (.inl le_rfl)
    rw [emin_binary16] at htop
    refine htop.trans ?_
    norm_num
  have hle : 65536 ≤ Format.binary16.amount (wordOf rounding bits) ↔
      Format.binary16.infinity ≤ wordOf rounding bits := by
    rw [← hinfinity]
    exact Format.amount_strictMono.le_iff_le
  have hmagnitude := @magnitude_result rounding mode _ hn
  have hvalue : Format.binary32.value bits.toNat ≠ 0 ↔ Format.binary32.magnitude bits.toNat ≠ 0 := by
    rw [ne_eq, ne_eq, ← abs_eq_zero, Format.abs_value_eq_amount, ← Format.amount_zero (F := .binary32),
      amount_strictMono.injective.eq_iff]
  refine ⟨?_, negative_result hn, ?_, ?_, ?_, ?_⟩
  · rw [Format.value_eq_amount]
    exact resultWord_rounds
  · intro hlt
    rw [habs, ← not_le, hle, not_le] at hlt
    have hword : boundedWord rounding mode (Format.binary32.negative bits.toNat)
        (Format.binary32.magnitude bits.toNat) = wordOf rounding bits := if_pos hlt
    rw [hword] at hmagnitude
    refine ⟨Format.finite_iff.mpr (hmagnitude ▸ hlt), ?_⟩
    rw [Format.value_eq_amount, negative_result hn, hmagnitude]
  · intro hge
    rw [habs, hle] at hge
    rw [hmagnitude]
    exact if_neg hge.not_gt
  · rw [hyields.overflow, decide_eq_true_iff, habs, hle]
    exact and_iff_right h
  · have hsign : Format.sign (Format.binary32.negative bits.toNat) ≠ 0 := by
      cases Format.binary32.negative bits.toNat <;> norm_num [Format.sign]
    rw [hyields.underflow, decide_eq_true_iff, hvalue, mul_eq_zero, or_iff_right hsign,
      ← Format.amount_zero (F := .binary16), Format.amount_strictMono.injective.eq_iff]

end Conversion

/-- The conversion is the rounding of the exact operand, in each of the six modes, and it is monotone over all operands
    but NaNs. From 65536 on every rounding is too large. -/
theorem f32ToFp16_exact (rounding : Fp16Rounding) (mode : Fp16Mode) :
    (∀ bits : UInt32, Format.binary32.Finite bits.toNat →
      ∃ y, Converts rounding mode bits (f32ToFp16 bits rounding mode) y) ∧
    ∀ a b : UInt32, Format.binary32.NotNan a.toNat → Format.binary32.NotNan b.toNat →
      Format.binary32.extended a.toNat ≤ Format.binary32.extended b.toNat →
        Format.binary16.extended (f32ToFp16 a rounding mode).bits.toNat ≤
          Format.binary16.extended (f32ToFp16 b rounding mode).bits.toNat :=
  ⟨fun _ h => ⟨_, converts h⟩, fun _ _ ha hb h => f32ToFp16_mono ha hb h⟩

/-- Half a unit above one, and the largest finite operand. -/
theorem f32ToFp16_exact_sample :
    (∃ y, Converts .nearestAway .saturating 0x3f801000 ⟨0x3c01, .default⟩ y) ∧
      ∃ y, Converts .up .nonSaturating 0x7f7fffff ⟨0x7c00, { Fp16Status.default with overflow := true }⟩ y := by
  have hone : f32ToFp16 0x3f801000 .nearestAway .saturating = ⟨0x3c01, .default⟩ := by decide
  have htop : f32ToFp16 0x7f7fffff .up .nonSaturating = ⟨0x7c00, { Fp16Status.default with overflow := true }⟩ := by
    decide
  rw [← hone, ← htop]
  exact ⟨(f32ToFp16_exact _ _).1 _ (by decide), (f32ToFp16_exact _ _).1 _ (by decide)⟩

end AscendEmulator.C220.Numeric
