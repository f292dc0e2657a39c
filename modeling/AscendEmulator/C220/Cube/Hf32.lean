/-
  AscendEmulator.C220.Cube.Hf32 — an operand of 32 bits that is rounded to a fraction of 11 bits (`round_hf32_operand`).

  The words of a format are in the order of their magnitudes (`Format.amount`), so to round a fraction is to round the
  magnitude as an integer (`roundHf32_toNat`), at the scale of its exponent (`amount_rounded`).
-/

import AscendEmulator.C220.Cube.ExactProofs
import AscendEmulator.C220.Cube.Slice
import AscendEmulator.Lib.Directed
import AscendEmulator.Lib.Extended

namespace AscendEmulator.C220.Cube

open Lib Outcome

/-- A magnitude without its low twelve bits, rounded from a half up to even or away from zero. -/
def roundedMagnitude : Bool → Nat → Nat
  | false, n => roundedShift n 12
  | true, n => (n + 2048) / 4096

theorem roundedMagnitude_eq (away : Bool) (n : Nat) : roundedMagnitude away n =
    n / 4096 + if 2048 < n % 4096 ∨ n % 4096 = 2048 ∧ (away = true ∨ n / 4096 % 2 = 1) then 1 else 0 := by
  cases away with
  | false =>
    have hbit : n.testBit 11 = decide (2048 ≤ n % 4096) := by
      rw [Nat.testBit_eq_decide_div_mod_eq]
      congr 1
      rw [eq_iff_iff]
      omega
    have hlow : n % 2048 ≠ 0 ↔ n % 4096 ≠ 0 ∧ n % 4096 ≠ 2048 := by omega
    have hodd : n / 4096 % 2 ≠ 0 ↔ n / 4096 % 2 = 1 := by omega
    simp only [roundedMagnitude, roundedShift, show 12 - 1 = 11 from rfl, hbit, show 2 ^ 12 = 4096 from rfl,
      show 2 ^ 11 = 2048 from rfl, hlow, hodd, ← Bool.decide_or, ← Bool.decide_and, Bool.false_eq_true, false_or]
    split_ifs with hup
    · rw [decide_eq_true (by omega), Bool.toNat_true]
    · rw [decide_eq_false (by omega), Bool.toNat_false]
  | true =>
    simp only [roundedMagnitude, true_or, and_true]
    split_ifs <;> omega

theorem roundedMagnitude_away (n : Nat) :
    |(n : ℚ) / 4096 - (roundedMagnitude true n : Int)| ≤ 1 / 2 ∧
      (|(n : ℚ) / 4096 - (roundedMagnitude true n : Int)| = 1 / 2 →
        (n : ℚ) / 4096 ≤ (roundedMagnitude true n : Int)) := by
  have hlow : 4096 * ((n + 2048) / 4096) ≤ n + 2048 := Nat.mul_div_le ..
  have hhigh : n + 2048 < 4096 * ((n + 2048) / 4096) + 4096 := Nat.lt_mul_div_succ _ (by decide)
  rw [roundedMagnitude]
  generalize (n + 2048) / 4096 = k at hlow hhigh ⊢
  have hlowq : (4096 : ℚ) * k ≤ n + 2048 := by exact_mod_cast hlow
  have hhighq : (n : ℚ) + 2048 < 4096 * k + 4096 := by exact_mod_cast hhigh
  push_cast
  have hle : (n : ℚ) / 4096 - k < 1 / 2 := by linarith
  refine ⟨abs_le.mpr ⟨by linarith, hle.le⟩, fun h => ?_⟩
  rcases abs_cases ((n : ℚ) / 4096 - k) with ⟨habs, -⟩ | ⟨-, hneg⟩
  · linarith
  · linarith

theorem sign_toNat (bits : BitVec 32) : (bits &&& f32Sign).toNat = 2 ^ 31 * (bits.toNat / 2 ^ 31) := by
  have hlt := bits.isLt
  rw [BitVec.toNat_and, show f32Sign.toNat = 2 ^ 31 from rfl, Nat.and_two_pow, Nat.testBit_eq_decide_div_mod_eq]
  by_cases hsign : bits.toNat / 2 ^ 31 % 2 = 1
  · rw [decide_eq_true hsign, Bool.toNat_true]
    omega
  · rw [decide_eq_false hsign, Bool.toNat_false]
    omega

theorem fraction_toNat (bits : BitVec 32) : (bits &&& f32Fraction).toNat = bits.toNat % 2 ^ 23 := by
  rw [BitVec.toNat_and, show f32Fraction.toNat = 2 ^ 23 - 1 from rfl, Nat.and_two_pow_sub_one_eq_mod]

theorem exponent_toNat (bits : BitVec 32) : ((bits &&& f32Exponent) >>> 23).toNat = bits.toNat / 2 ^ 23 % 2 ^ 8 :=
  field_eq (n := 8) (by decide)

/-- A multiple of a power of two and what is below it. -/
theorem toNat_or_of_lt {w : Nat} {high low : BitVec w} {a n i : Nat} (hh : high.toNat = 2 ^ i * a) (hl : low.toNat = n)
    (hn : n < 2 ^ i) : (high ||| low).toNat = 2 ^ i * a + n := by
  rw [BitVec.toNat_or, hh, hl, Nat.two_pow_add_eq_or_of_lt hn]

theorem toNat_shiftLeft_of_lt {w : Nat} {x : BitVec w} {n i : Nat} (hx : x.toNat = n) (hn : n * 2 ^ i < 2 ^ w) :
    (x <<< i).toNat = n * 2 ^ i := by
  rw [BitVec.toNat_shiftLeft, hx, Nat.shiftLeft_eq, Nat.mod_eq_of_lt hn]

/-- To round an operand is to round its magnitude as an integer: a carry goes into the exponent. -/
theorem roundHf32_toNat {bits : BitVec 32} (hfinite : bits.toNat / 2 ^ 23 % 2 ^ 8 < 255) (roundTiesAway : Bool) :
    (roundHf32Operand bits roundTiesAway).toNat =
      2 ^ 31 * (bits.toNat / 2 ^ 31) + 4096 * roundedMagnitude roundTiesAway (bits.toNat % 2 ^ 31) := by
  have hlt := bits.isLt
  unfold roundHf32Operand
  extract_lets sign exponent significand retained discarded increment rounded fraction
  have hsign : sign.toNat = 2 ^ 31 * (bits.toNat / 2 ^ 31) := sign_toNat bits
  have hexponent : exponent.toNat = bits.toNat / 2 ^ 23 % 2 ^ 8 := exponent_toNat bits
  have hzero : exponent = 0 ↔ bits.toNat / 2 ^ 23 % 2 ^ 8 = 0 := by
    rw [← BitVec.toNat_inj, hexponent]
    rfl
  have hsignificand : significand.toNat =
      (if bits.toNat / 2 ^ 23 % 2 ^ 8 = 0 then 0 else 2 ^ 23) + bits.toNat % 2 ^ 23 := by
    by_cases he : exponent = 0
    · rw [if_pos (hzero.mp he), show significand = bits &&& f32Fraction from if_neg (not_not.mpr he), fraction_toNat,
        Nat.zero_add]
    · rw [if_neg (fun h => he (hzero.mpr h)),
        show significand = bits &&& f32Fraction ||| 1#32 <<< 23 from if_pos he, BitVec.or_comm,
        toNat_or_of_lt (a := 1) rfl (fraction_toNat bits) (Nat.mod_lt _ (by decide)), Nat.mul_one]
  have hretained : retained.toNat = significand.toNat / 4096 := by
    rw [BitVec.toNat_ushiftRight, Nat.shiftRight_eq_div_pow]
  have hdiscarded : discarded.toNat = significand.toNat % 4096 := by
    rw [BitVec.toNat_and, show (0x0fff : BitVec 32).toNat = 2 ^ 12 - 1 from rfl, Nat.and_two_pow_sub_one_eq_mod]
  have hodd : (retained &&& 1 != 0) = decide (significand.toNat / 4096 % 2 = 1) := by
    rw [Bool.eq_iff_iff, bne_iff_ne, decide_eq_true_iff, ne_eq, ← BitVec.toNat_inj, BitVec.toNat_and, hretained,
      show (1 : BitVec 32).toNat = 2 ^ 1 - 1 from rfl, Nat.and_two_pow_sub_one_eq_mod]
    show ¬_ = 0 ↔ _
    omega
  have hincrement : increment = decide (2048 < significand.toNat % 4096 ∨
      significand.toNat % 4096 = 2048 ∧ (roundTiesAway = true ∨ significand.toNat / 4096 % 2 = 1)) := by
    have hgt : (0x0800#32 < discarded) ↔ 2048 < significand.toNat % 4096 := by
      rw [BitVec.lt_def, hdiscarded]
      rfl
    have heq : (discarded == 0x0800) = decide (significand.toNat % 4096 = 2048) := by
      rw [Bool.eq_iff_iff, beq_iff_eq, decide_eq_true_iff, ← BitVec.toNat_inj, hdiscarded]
      rfl
    rw [show increment = (decide (0x0800#32 < discarded) || (discarded == 0x0800 &&
      (roundTiesAway || retained &&& 1 != 0))) from rfl, hodd, heq, Bool.decide_or, Bool.decide_and, Bool.decide_or,
      decide_eq_decide.mpr hgt, Bool.decide_eq_true]
  have hrounded : rounded.toNat = significand.toNat / 4096 + increment.toNat := by
    have hup : (if increment = true then 1 else 0 : BitVec 32).toNat = increment.toNat := by cases increment <;> rfl
    rw [show rounded = retained + if increment then 1 else 0 from rfl, BitVec.toNat_add, hup, hretained]
    refine Nat.mod_eq_of_lt ?_
    have := significand.isLt
    have := Bool.toNat_le increment
    omega
  have hfraction : fraction.toNat = rounded.toNat * 4096 % 2 ^ 32 % 2 ^ 23 := by
    rw [show fraction = (rounded <<< 12) &&& f32Fraction from rfl, fraction_toNat, BitVec.toNat_shiftLeft,
      Nat.shiftLeft_eq]
  have hgoal : roundedMagnitude roundTiesAway (bits.toNat % 2 ^ 31) =
      bits.toNat / 2 ^ 23 % 2 ^ 8 * 2 ^ 11 + bits.toNat % 2 ^ 23 / 4096 + increment.toNat := by
    have hremainder : bits.toNat % 2 ^ 31 % 4096 = significand.toNat % 4096 := by
      rw [hsignificand]
      split_ifs <;> omega
    have hparity : bits.toNat % 2 ^ 31 / 4096 % 2 = significand.toNat / 4096 % 2 := by
      rw [hsignificand]
      split_ifs <;> omega
    rw [roundedMagnitude_eq, hremainder, hparity, hincrement]
    split_ifs with hup
    · rw [decide_eq_true hup, Bool.toNat_true]
      omega
    · rw [decide_eq_false hup, Bool.toNat_false]
      omega
  rw [hgoal]
  clear hgoal hincrement hodd hdiscarded
  clear_value fraction rounded increment discarded retained significand exponent sign
  have hone := Bool.toNat_le increment
  have heq (k : Nat) (hk : k < 32) : rounded = 1#32 <<< k ↔ rounded.toNat = 2 ^ k := by
    rw [← BitVec.toNat_inj, show (1#32 <<< k).toNat = 2 ^ k from ExactDyadic.toNat_one_shiftLeft hk]
  have hcarried : ((exponent + 1) <<< 23).toNat = (bits.toNat / 2 ^ 23 % 2 ^ 8 + 1) * 2 ^ 23 := by
    refine toNat_shiftLeft_of_lt ?_ (by omega)
    rw [BitVec.toNat_add, hexponent, show (1 : BitVec 32).toNat = 1 from rfl]
    exact Nat.mod_eq_of_lt (by omega)
  have hkept : (exponent <<< 23).toNat = bits.toNat / 2 ^ 23 % 2 ^ 8 * 2 ^ 23 :=
    toNat_shiftLeft_of_lt hexponent (by omega)
  simp only [heq 12 (by decide), heq 11 (by decide), hzero]
  split_ifs with hcarry hnormal
  · -- the carry makes the next exponent
    rw [toNat_or_of_lt hsign hcarried (by omega)]
    split_ifs at hsignificand <;> omega
  · -- a subnormal becomes the least normal number
    rw [toNat_or_of_lt hsign (show (1#32 <<< 23).toNat = 2 ^ 23 from rfl) (by decide)]
    rw [if_pos hnormal.1] at hsignificand
    omega
  · rw [BitVec.or_assoc, toNat_or_of_lt hsign (toNat_or_of_lt (i := 23) (a := bits.toNat / 2 ^ 23 % 2 ^ 8)
      (by rw [hkept, Nat.mul_comm]) hfraction (Nat.mod_lt _ (by decide))) (by omega)]
    split_ifs at hsignificand <;> omega

/-- The numbers of 11 bits of fraction: the least exponent of a unit, and the bits of a significand. -/
def Hf32Nearest (roundTiesAway : Bool) (x y : ℚ) : Prop :=
  if roundTiesAway then NearestAway 12 (-137) x y else NearestEven 12 (-137) x y

/-- A magnitude is rounded at the scale of its exponent. -/
theorem amount_rounded {n : Nat} (hn : n < 2 ^ 23 * 255) (roundTiesAway : Bool) :
    Hf32Nearest roundTiesAway (Format.binary32.amount n)
      (Format.binary32.amount (4096 * roundedMagnitude roundTiesAway n)) := by
  obtain ⟨k, m, rfl, htop, hlow⟩ : ∃ k m, n = 2 ^ 23 * k + m ∧ m < 2 ^ 24 ∧ (2 ^ 23 ≤ m ∨ k = 0) :=
    ⟨n / 2 ^ 23 - 1, n - 2 ^ 23 * (n / 2 ^ 23 - 1), by omega, by omega, by omega⟩
  have hrounded : 4096 * roundedMagnitude roundTiesAway (2 ^ 23 * k + m) =
      2 ^ 23 * k + 4096 * roundedMagnitude roundTiesAway m := by
    have hremainder : (2 ^ 23 * k + m) % 4096 = m % 4096 := by omega
    have hparity : (2 ^ 23 * k + m) / 4096 % 2 = m / 4096 % 2 := by omega
    rw [roundedMagnitude_eq, roundedMagnitude_eq, hremainder, hparity]
    omega
  have hle := roundedMagnitude_eq roundTiesAway m
  have hup : (if 2048 < m % 4096 ∨ m % 4096 = 2048 ∧ (roundTiesAway = true ∨ m / 4096 % 2 = 1) then 1 else 0) ≤ 1 := by
    split_ifs <;> omega
  have hscale {j : Nat} (hj : j ≤ 2 ^ 24) (hlow : 2 ^ 23 ≤ j ∨ k = 0) :
      Format.binary32.amount (2 ^ 23 * k + j) = (j / 4096 : ℚ) * 2 ^ (-137 + (k : Int)) := by
    rw [show (2 : Nat) ^ 23 = 2 ^ Format.binary32.fractionBits from rfl, Format.amount_scaled hj hlow,
      show Format.binary32.emin = -137 + -12 by decide, add_assoc, add_comm (-12), ← add_assoc,
      zpow_add₀ (by norm_num) _ (-12)]
    norm_num
    ring
  rw [hrounded, hscale htop.le hlow, hscale (j := 4096 * roundedMagnitude roundTiesAway m) (by omega) (by omega)]
  push_cast
  rw [mul_div_cancel_left₀ _ (by norm_num)]
  have htopq : (m : ℚ) / 4096 < 2 ^ 12 := by
    rw [div_lt_iff₀ (by norm_num)]
    exact_mod_cast htop
  have hlowq : (2 : ℚ) ^ (12 - 1) ≤ m / 4096 ∨ -137 + (k : Int) = -137 := by
    refine hlow.imp (fun h => ?_) fun h => by omega
    rw [le_div_iff₀ (by norm_num)]
    exact_mod_cast h
  cases roundTiesAway with
  | false =>
    have hnearest : NearestInt ((m : ℚ) / 4096) (roundedMagnitude false m : Nat) := by
      have h := roundedShift_nearest (m := m) (d := 12) (by decide)
      norm_num at h
      exact h
    exact nearestEven_scaled (by decide) hnearest (by positivity) htopq hlowq (by omega)
  | true =>
    obtain ⟨hclose, htie⟩ := roundedMagnitude_away m
    exact nearestAway_scaled (by decide) (by positivity) htopq hlowq (by omega) hclose htie

/-- The magnitude of an operand that is rounded to an infinity. -/
def hf32Overflow : Nat := 0x7f7ff800

theorem negative_eq {n : Nat} (h : n < 2 ^ 32) : Format.binary32.negative n = decide (n / 2 ^ 31 = 1) := by
  rw [Format.negative, Nat.testBit_eq_decide_div_mod_eq]
  congr 1
  rw [eq_iff_iff, show Format.binary32.fractionBits + Format.binary32.exponentBits = 31 from rfl]
  omega

section Operand

variable {bits : BitVec 32} (hfinite : Format.binary32.Finite bits.toNat) (roundTiesAway : Bool)

include hfinite

/-- The sign is kept, and the magnitude is rounded. -/
theorem roundHf32_parts :
    Format.binary32.negative (roundHf32Operand bits roundTiesAway).toNat = Format.binary32.negative bits.toNat ∧
      Format.binary32.magnitude (roundHf32Operand bits roundTiesAway).toNat =
        4096 * roundedMagnitude roundTiesAway (bits.toNat % 2 ^ 31) := by
  have hlt := bits.isLt
  have hmagnitude : bits.toNat % 2 ^ 31 < 2 ^ 23 * 255 := Format.finite_iff.mp hfinite
  have hexponent : bits.toNat / 2 ^ 23 % 2 ^ 8 < 255 := hfinite
  have hrounded := roundHf32_toNat hexponent roundTiesAway
  have hvalue := roundedMagnitude_eq roundTiesAway (bits.toNat % 2 ^ 31)
  generalize roundedMagnitude roundTiesAway (bits.toNat % 2 ^ 31) = r at hrounded hvalue ⊢
  generalize roundHf32Operand bits roundTiesAway = rounded at hrounded ⊢
  have hr : r ≤ 2 ^ 11 * 255 := by split_ifs at hvalue <;> omega
  constructor
  · rw [negative_eq hlt, negative_eq rounded.isLt, show rounded.toNat / 2 ^ 31 = bits.toNat / 2 ^ 31 by omega]
  · show rounded.toNat % 2 ^ 31 = 4096 * r
    omega

/-- From `hf32Overflow` on, a magnitude is rounded to an infinity. -/
theorem roundedMagnitude_overflows :
    if bits.toNat % 2 ^ 31 < hf32Overflow then
      4096 * roundedMagnitude roundTiesAway (bits.toNat % 2 ^ 31) < Format.binary32.infinity
    else 4096 * roundedMagnitude roundTiesAway (bits.toNat % 2 ^ 31) = Format.binary32.infinity := by
  have hmagnitude : bits.toNat % 2 ^ 31 < 2 ^ 23 * 255 := Format.finite_iff.mp hfinite
  have hvalue := roundedMagnitude_eq roundTiesAway (bits.toNat % 2 ^ 31)
  rw [show Format.binary32.infinity = 2 ^ 23 * 255 from rfl]
  unfold hf32Overflow
  split_ifs at hvalue ⊢ <;> omega

theorem roundHf32_finite : Format.binary32.Finite (roundHf32Operand bits roundTiesAway).toNat ↔
    bits.toNat % 2 ^ 31 < hf32Overflow := by
  have hover := roundedMagnitude_overflows hfinite roundTiesAway
  rw [Format.finite_iff, (roundHf32_parts hfinite roundTiesAway).2]
  split_ifs at hover with hlarge
  · exact iff_of_true hover hlarge
  · exact iff_of_false hover.ge.not_gt hlarge

/-- An operand is rounded to the nearest number of 11 bits of fraction; the greatest magnitudes become infinite. -/
theorem roundHf32_nearest :
    if bits.toNat % 2 ^ 31 < hf32Overflow then
      Format.binary32.Finite (roundHf32Operand bits roundTiesAway).toNat ∧
        (roundHf32Operand bits roundTiesAway).toNat % 4096 = 0 ∧
        Format.binary32.negative (roundHf32Operand bits roundTiesAway).toNat = Format.binary32.negative bits.toNat ∧
        Hf32Nearest roundTiesAway (Format.binary32.value bits.toNat)
          (Format.binary32.value (roundHf32Operand bits roundTiesAway).toNat)
    else Format.binary32.datum (roundHf32Operand bits roundTiesAway).toNat =
      .infinite (Format.binary32.negative bits.toNat) := by
  obtain ⟨hsign, hmagnitude⟩ := roundHf32_parts hfinite roundTiesAway
  have hfinite' := roundHf32_finite hfinite roundTiesAway
  have hlow : (roundHf32Operand bits roundTiesAway).toNat % 2 ^ 31 =
      4096 * roundedMagnitude roundTiesAway (bits.toNat % 2 ^ 31) := hmagnitude
  split_ifs with hlarge
  · refine ⟨hfinite'.mpr hlarge, by omega, hsign, ?_⟩
    have hnearest := amount_rounded (Format.finite_iff.mp hfinite) roundTiesAway
    rw [Format.value_eq_amount, Format.value_eq_amount, hsign, hmagnitude]
    unfold Hf32Nearest at hnearest ⊢
    cases roundTiesAway with
    | false => exact hnearest.sign _
    | true => exact hnearest.sign _
  · have hover := roundedMagnitude_overflows hfinite roundTiesAway
    rw [if_neg hlarge, show Format.binary32.infinity = 2 ^ 23 * 255 from rfl] at hover
    have hfraction : Format.binary32.fraction (roundHf32Operand bits roundTiesAway).toNat = 0 := by
      show (roundHf32Operand bits roundTiesAway).toNat % 2 ^ 23 = 0
      omega
    rw [Format.datum, if_neg (mt hfinite'.mp hlarge), if_pos hfraction, hsign]

end Operand

/-- The greatest operand that stays finite, negative; the least magnitude that does not, and a half of a unit. -/
theorem roundHf32_nearest_some :
    Format.binary32.Finite (roundHf32Operand 0xff7ff7ff false).toNat ∧
      Format.binary32.datum (roundHf32Operand 0xff7ff800 false).toNat = .infinite true ∧
      Hf32Nearest true (Format.binary32.value 0x3f800800)
        (Format.binary32.value (roundHf32Operand 0x3f800800 true).toNat) :=
  ⟨(roundHf32_nearest (show Format.binary32.Finite (0xff7ff7ff : BitVec 32).toNat by decide) false).1,
    roundHf32_nearest (show Format.binary32.Finite (0xff7ff800 : BitVec 32).toNat by decide) false,
    (roundHf32_nearest (show Format.binary32.Finite (0x3f800800 : BitVec 32).toNat by decide) true).2.2.2⟩

end AscendEmulator.C220.Cube
