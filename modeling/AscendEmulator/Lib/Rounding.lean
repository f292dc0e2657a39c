/-
  AscendEmulator.Lib.Rounding — binary floating-point formats, and what it is to round to one.

  (1) A format is the widths of its fraction and its exponent; `Format.value` reads a word of it.
  (2) `NearestEven p emin x y`: `y` is the number of `p` significant bits and of exponent at least
      `emin` nearest to `x`, the one with the even significand of two. The exponent has no upper bound.
  (3) `nearestEven_scaled`: to round is to round an integer, at the right scale.
-/

import Mathlib

namespace AscendEmulator.Lib

/-! ## (1) Formats -/

structure Format where
  fractionBits : Nat
  exponentBits : Nat

namespace Format

def binary16 : Format := ⟨10, 5⟩

def bfloat16 : Format := ⟨7, 8⟩

def binary32 : Format := ⟨23, 8⟩

variable (F : Format)

def bias : Nat := 2 ^ (F.exponentBits - 1) - 1

/-- The exponent of the least subnormal. -/
def emin : Int := 1 - F.bias - F.fractionBits

def precision : Nat := F.fractionBits + 1

def fraction (bits : Nat) : Nat := bits % 2 ^ F.fractionBits

def exponent (bits : Nat) : Nat := bits / 2 ^ F.fractionBits % 2 ^ F.exponentBits

def negative (bits : Nat) : Bool := bits.testBit (F.fractionBits + F.exponentBits)

/-- Neither an infinity nor a NaN. -/
def Finite (bits : Nat) : Prop := F.exponent bits < 2 ^ F.exponentBits - 1

instance (bits : Nat) : Decidable (F.Finite bits) := inferInstanceAs (Decidable (_ < _))

def significand (bits : Nat) : Nat :=
  if F.exponent bits = 0 then F.fraction bits else 2 ^ F.fractionBits + F.fraction bits

/-- The exponent of the unit in the last place. -/
def scale (bits : Nat) : Int := F.emin + (F.exponent bits - 1 : Nat)

def sign (negative : Bool) : ℚ := if negative then -1 else 1

/-- The number that a finite word stands for. -/
def value (bits : Nat) : ℚ := sign (F.negative bits) * (F.significand bits * 2 ^ F.scale bits)

def minNormal : ℚ := 2 ^ (F.emin + F.fractionBits)

def maxFinite : ℚ := (2 ^ F.precision - 1) * 2 ^ (F.emin + (2 ^ F.exponentBits - 3 : Nat))

def word (negative : Bool) (exponent fraction : Nat) : Nat :=
  2 ^ (F.fractionBits + F.exponentBits) * negative.toNat + (2 ^ F.fractionBits * exponent + fraction)

theorem fraction_lt (bits : Nat) : F.fraction bits < 2 ^ F.fractionBits := Nat.mod_lt _ (Nat.two_pow_pos _)

theorem significand_lt (bits : Nat) : F.significand bits < 2 ^ F.precision := by
  have := F.fraction_lt bits
  unfold significand precision
  rw [pow_succ]
  split <;> omega

theorem abs_sign (negative : Bool) : |sign negative| = 1 := by
  cases negative <;> simp [sign]

theorem abs_value (bits : Nat) : |F.value bits| = F.significand bits * 2 ^ F.scale bits := by
  rw [value, abs_mul, abs_sign, one_mul]
  exact abs_of_nonneg (by positivity)

theorem abs_value_le {bits : Nat} (h : F.Finite bits) : |F.value bits| ≤ F.maxFinite := by
  have hs := F.significand_lt bits
  have hcast : (F.significand bits : ℚ) ≤ 2 ^ F.precision - 1 := by
    rw [le_sub_iff_add_le]
    exact_mod_cast hs
  have hscale : F.scale bits ≤ F.emin + (2 ^ F.exponentBits - 3 : Nat) := by
    unfold Finite at h
    unfold scale
    omega
  rw [abs_value, maxFinite]
  exact mul_le_mul hcast (zpow_le_zpow_right₀ (by norm_num) hscale) (by positivity)
    (by rw [sub_nonneg]; exact one_le_pow₀ (by norm_num))

theorem minNormal_le {bits : Nat} (h : F.exponent bits ≠ 0) : F.minNormal ≤ |F.value bits| := by
  have hsig : (2 : ℚ) ^ F.fractionBits ≤ F.significand bits := by
    rw [significand, if_neg h]
    push_cast
    exact le_add_of_nonneg_right (by positivity)
  have hscale : F.emin ≤ F.scale bits := by unfold scale; omega
  rw [abs_value, minNormal, zpow_add₀ (by norm_num), mul_comm, zpow_natCast]
  exact mul_le_mul hsig (zpow_le_zpow_right₀ (by norm_num) hscale) (by positivity) (by positivity)

theorem field_lt {exponent fraction : Nat} (he : exponent < 2 ^ F.exponentBits) (hf : fraction < 2 ^ F.fractionBits) :
    2 ^ F.fractionBits * exponent + fraction < 2 ^ (F.fractionBits + F.exponentBits) := by
  have := Nat.mul_le_mul_left (2 ^ F.fractionBits) (Nat.succ_le_of_lt he)
  rw [Nat.succ_eq_add_one, Nat.mul_add, ← pow_add] at this
  omega

section Word

variable {F} {exponent fraction : Nat} (negative : Bool)

theorem negative_word (he : exponent < 2 ^ F.exponentBits) (hf : fraction < 2 ^ F.fractionBits) :
    F.negative (F.word negative exponent fraction) = negative := by
  rw [Format.negative, word, Nat.testBit_two_pow_mul_add _ (F.field_lt he hf), if_neg (lt_irrefl _), Nat.sub_self]
  cases negative <;> rfl

theorem fraction_word (hf : fraction < 2 ^ F.fractionBits) :
    F.fraction (F.word negative exponent fraction) = fraction := by
  rw [Format.fraction, word, pow_add, mul_assoc, Nat.mul_add_mod, Nat.mul_add_mod, Nat.mod_eq_of_lt hf]

theorem exponent_word (he : exponent < 2 ^ F.exponentBits) (hf : fraction < 2 ^ F.fractionBits) :
    F.exponent (F.word negative exponent fraction) = exponent := by
  rw [Format.exponent, word, pow_add, mul_assoc, Nat.mul_add_div (Nat.two_pow_pos _),
    Nat.mul_add_div (Nat.two_pow_pos _), Nat.div_eq_of_lt hf, Nat.add_zero, Nat.mul_add_mod, Nat.mod_eq_of_lt he]

/-- A normal number, by its significand. -/
theorem value_word {significand : Nat} (he : exponent < 2 ^ F.exponentBits) (hpos : exponent ≠ 0)
    (hlow : 2 ^ F.fractionBits ≤ significand) (htop : significand < 2 ^ F.precision) :
    F.value (F.word negative exponent (significand % 2 ^ F.fractionBits)) =
      sign negative * (significand * 2 ^ (F.emin + (exponent - 1 : Nat))) := by
  have hf : significand % 2 ^ F.fractionBits < 2 ^ F.fractionBits := Nat.mod_lt _ (Nat.two_pow_pos _)
  have hs : 2 ^ F.fractionBits + significand % 2 ^ F.fractionBits = significand := by
    rw [precision, pow_succ] at htop
    rw [Nat.mod_eq_sub_mod hlow, Nat.mod_eq_of_lt (by omega)]
    omega
  rw [value, negative_word negative he hf, scale, exponent_word negative he hf, Format.significand,
    exponent_word negative he hf, if_neg hpos, fraction_word negative hf, hs]

end Word

end Format

/-! ## (2) Rounding to the nearest -/

variable {p : Nat} {emin e : Int} {x y z t : ℚ} {n : Int}

def Representable (p : Nat) (emin : Int) (x : ℚ) : Prop := ∃ n e : Int, emin ≤ e ∧ |n| < 2 ^ p ∧ x = n * 2 ^ e

/-- Of the significands of `x`, the one with the most bits is even. -/
def EvenSignificand (p : Nat) (emin : Int) (x : ℚ) : Prop :=
  ∃ n e : Int, emin ≤ e ∧ |n| < 2 ^ p ∧ (2 ^ (p - 1) ≤ |n| ∨ e = emin) ∧ Even n ∧ x = n * 2 ^ e

structure NearestEven (p : Nat) (emin : Int) (x y : ℚ) : Prop where
  representable : Representable p emin y
  nearest : ∀ z, Representable p emin z → |x - y| ≤ |x - z|
  tie : ∀ z, Representable p emin z → z ≠ y → |x - z| = |x - y| → EvenSignificand p emin y

theorem Representable.neg (h : Representable p emin x) : Representable p emin (-x) := by
  obtain ⟨n, e, he, hn, rfl⟩ := h
  exact ⟨-n, e, he, by rwa [abs_neg], by push_cast; ring⟩

theorem EvenSignificand.neg (h : EvenSignificand p emin x) : EvenSignificand p emin (-x) := by
  obtain ⟨n, e, he, hn, hlow, heven, rfl⟩ := h
  exact ⟨-n, e, he, by rwa [abs_neg], by rwa [abs_neg], heven.neg, by push_cast; ring⟩

theorem abs_sub_neg (x z : ℚ) : |x - -z| = |-x - z| := by
  rw [← abs_neg, sub_neg_eq_add, neg_add']

theorem NearestEven.neg (h : NearestEven p emin x y) : NearestEven p emin (-x) (-y) where
  representable := h.representable.neg
  nearest := by
    intro z hz
    rw [← abs_sub_neg, ← abs_sub_neg, neg_neg]
    exact h.nearest (-z) hz.neg
  tie := by
    intro z hz hne heq
    refine (h.tie (-z) hz.neg (fun he => hne (by rw [← he, neg_neg])) ?_).neg
    rw [abs_sub_neg, heq, ← abs_sub_neg, neg_neg]

theorem NearestEven.sign (h : NearestEven p emin x y) (negative : Bool) :
    NearestEven p emin (Format.sign negative * x) (Format.sign negative * y) := by
  cases negative with
  | false => simpa [Format.sign] using h
  | true => simpa [Format.sign] using h.neg

/-! ## (3) Rounding an integer -/

/-- `n` is the integer nearest to `t`, the even one of two. -/
def NearestInt (t : ℚ) (n : Int) : Prop := |t - n| ≤ 1 / 2 ∧ (|t - n| = 1 / 2 → Even n)

theorem one_le_distances {j : Int} (hj : j ≠ n) : 1 ≤ |t - n| + |t - j| := by
  have hone : (1 : ℚ) ≤ |(n : ℚ) - j| := by exact_mod_cast Int.one_le_abs (sub_ne_zero.mpr (Ne.symm hj))
  have htri := abs_sub_le (n : ℚ) t j
  rw [abs_sub_comm (n : ℚ) t] at htri
  exact hone.trans htri

theorem NearestInt.le (h : NearestInt t n) (j : Int) : |t - n| ≤ |t - j| := by
  by_cases hj : j = n
  · rw [hj]
  · have := one_le_distances (t := t) hj
    have := h.1
    linarith

theorem NearestInt.tie (h : NearestInt t n) {j : Int} (hj : j ≠ n) (heq : |t - j| = |t - n|) : Even n := by
  have := one_le_distances (t := t) hj
  have := h.1
  exact h.2 (by linarith)

/-- The integer part, and one more when the part cut off is over a half, or a half after an odd integer. -/
def roundedShift (m d : Nat) : Nat :=
  m / 2 ^ d + (m.testBit (d - 1) && (decide (m % 2 ^ (d - 1) ≠ 0) || decide (m / 2 ^ d % 2 ≠ 0))).toNat

theorem roundedShift_nearest {m d : Nat} (hd : 0 < d) : NearestInt ((m : ℚ) / 2 ^ d) (roundedShift m d) := by
  obtain ⟨k, rfl⟩ : ∃ k, d = k + 1 := ⟨d - 1, by omega⟩
  have hpos : (0 : ℚ) < 2 ^ k := by positivity
  -- `m` is `q` units, a half unit if `b`, and `s`, which is less than a half
  obtain ⟨q, b, s, hs, hb, hm⟩ : ∃ q b s, s < 2 ^ k ∧ b < 2 ∧ m = 2 ^ k * (2 * q + b) + s :=
    ⟨m / 2 ^ k / 2, m / 2 ^ k % 2, m % 2 ^ k, Nat.mod_lt _ (Nat.two_pow_pos _), Nat.mod_lt _ (by decide), by
      rw [Nat.div_add_mod, Nat.div_add_mod]⟩
  have hdiv : m / 2 ^ k = 2 * q + b := by
    rw [hm, Nat.mul_add_div (Nat.two_pow_pos _), Nat.div_eq_of_lt hs, Nat.add_zero]
  have hq : m / 2 ^ (k + 1) = q := by
    rw [pow_succ, ← Nat.div_div_eq_div_mul, hdiv]
    omega
  have hmod : m % 2 ^ k = s := by rw [hm, Nat.mul_add_mod, Nat.mod_eq_of_lt hs]
  have hbit : m.testBit k = decide (b = 1) := by
    rw [Nat.testBit_eq_decide_div_mod_eq, hdiv]
    congr 1
    rw [eq_iff_iff]
    omega
  have ht : (m : ℚ) / 2 ^ (k + 1) = q + (b * 2 ^ k + s) / (2 * 2 ^ k) := by
    rw [hm, pow_succ]
    push_cast
    field_simp
    ring
  have hsq : (s : ℚ) < 2 ^ k := by exact_mod_cast hs
  unfold roundedShift NearestInt
  rw [Nat.add_sub_cancel, hq, hmod, hbit, ht]
  obtain rfl | rfl : b = 0 ∨ b = 1 := by omega
  · -- less than a half
    have hf : (s : ℚ) / (2 * 2 ^ k) < 1 / 2 := by rw [div_lt_div_iff₀ (by positivity) (by norm_num)]; linarith
    have habs : |(q : ℚ) + ((0 : Nat) * 2 ^ k + s) / (2 * 2 ^ k) - ((q + 0 : Nat) : Int)| = s / (2 * 2 ^ k) := by
      push_cast
      rw [zero_mul, zero_add, add_zero, add_sub_cancel_left, abs_of_nonneg (by positivity)]
    simp only [Nat.zero_ne_one, decide_false, Bool.false_and, Bool.toNat_false]
    rw [habs]
    exact ⟨hf.le, fun h => absurd h hf.ne⟩
  · have hf : (((1 : Nat) : ℚ) * 2 ^ k + s) / (2 * 2 ^ k) = 1 / 2 + s / (2 * 2 ^ k) := by
      push_cast
      field_simp
    rw [hf]
    by_cases hs0 : s = 0
    · -- a half: to the even one
      subst hs0
      by_cases hodd : q % 2 = 0
      · simp only [decide_true, Bool.true_and, ne_eq, not_true, decide_false, hodd, Bool.or_false, Bool.toNat_false]
        push_cast
        rw [zero_div, add_zero, add_zero, add_sub_cancel_left, abs_of_nonneg (by norm_num)]
        exact ⟨le_refl _, fun _ => by rw [add_zero, Int.even_coe_nat]; exact Nat.even_iff.mpr hodd⟩
      · simp only [decide_true, Bool.true_and, ne_eq, not_true, decide_false, hodd, not_false_eq_true, Bool.or_true,
          Bool.toNat_true]
        push_cast
        rw [zero_div, add_zero, add_sub_add_left_eq_sub, abs_of_nonpos (by norm_num)]
        exact ⟨by norm_num, fun _ => by exact_mod_cast (Int.even_coe_nat (q + 1)).mpr (Nat.even_iff.mpr (by omega))⟩
    · -- more than a half
      have hspos : (0 : ℚ) < s := by exact_mod_cast Nat.pos_of_ne_zero hs0
      have hlow : (0 : ℚ) < s / (2 * 2 ^ k) := by positivity
      have hhigh : (s : ℚ) / (2 * 2 ^ k) < 1 / 2 := by rw [div_lt_div_iff₀ (by positivity) (by norm_num)]; linarith
      simp only [decide_true, Bool.true_and, ne_eq, hs0, not_false_eq_true, Bool.true_or, Bool.toNat_true]
      push_cast
      rw [add_sub_add_left_eq_sub, abs_of_nonpos (by linarith)]
      exact ⟨by linarith, fun h => by linarith⟩

theorem two_pow_pred (hp : 2 ≤ p) : (2 : ℚ) ^ p = 2 * 2 ^ (p - 1) := by
  rw [← pow_succ']
  congr 1
  omega

/-- A rounded significand is of the format, also when it carries into the next exponent. -/
theorem representable_scaled (hp : 2 ≤ p) (hn : 0 ≤ n) (htop : n ≤ 2 ^ p) (he : emin ≤ e) :
    Representable p emin (n * 2 ^ e) := by
  have hpi : (2 : Int) ^ p = 2 * 2 ^ (p - 1) := by
    rw [← pow_succ']
    congr 1
    omega
  rcases htop.lt_or_eq with hlt | rfl
  · exact ⟨n, e, he, by rwa [abs_of_nonneg hn], rfl⟩
  · refine ⟨2 ^ (p - 1), e + 1, by omega, ?_, ?_⟩
    · rw [abs_of_pos (by positivity), hpi]
      have : (0 : Int) < 2 ^ (p - 1) := by positivity
      omega
    · rw [zpow_add_one₀ (by norm_num)]
      push_cast
      rw [two_pow_pred hp]
      ring

/-- A number of the format is an integer at the scale of a long enough one, or it is below those that long. -/
theorem Representable.grid (hz : Representable p emin z) (hp : 2 ≤ p) (hlow : 2 ^ (p - 1) ≤ t ∨ e = emin) :
    (∃ j : Int, z = j * 2 ^ e) ∨ 2 ^ (p - 1) ≤ t ∧ |z| < 2 ^ (p - 1) * 2 ^ e := by
  obtain ⟨k, f, hf, hk, rfl⟩ := hz
  rcases le_or_gt e f with hle | hlt
  · obtain ⟨d, rfl⟩ := Int.le.dest hle
    refine .inl ⟨k * 2 ^ d, ?_⟩
    rw [zpow_add₀ (by norm_num), zpow_natCast]
    push_cast
    ring
  · refine .inr ⟨hlow.resolve_right (by omega), ?_⟩
    have hkq : |(k : ℚ)| < 2 ^ p := by exact_mod_cast hk
    have hstep : (2 : ℚ) ^ (f + 1) ≤ 2 ^ e := zpow_le_zpow_right₀ (by norm_num) (by omega)
    rw [abs_mul, abs_of_pos (show (0 : ℚ) < 2 ^ f by positivity)]
    calc |(k : ℚ)| * 2 ^ f < 2 ^ p * 2 ^ f := mul_lt_mul_of_pos_right hkq (by positivity)
      _ = 2 ^ (p - 1) * 2 ^ (f + 1) := by rw [two_pow_pred hp, zpow_add_one₀ (by norm_num)]; ring
      _ ≤ 2 ^ (p - 1) * 2 ^ e := mul_le_mul_of_nonneg_left hstep (by positivity)

/-- The distance of two numbers at a scale. -/
theorem abs_sub_scaled (t z : ℚ) (e : Int) : |t * 2 ^ e - z * 2 ^ e| = |t - z| * 2 ^ e := by
  rw [← sub_mul, abs_mul, abs_of_pos (show (0 : ℚ) < 2 ^ e by positivity)]

/-- What is nearest among the integers at the scale is nearest of the format, where it keeps above what is below. -/
theorem nearest_scaled (hp : 2 ≤ p) (hn : ∀ j : Int, |t - n| ≤ |t - j|) (hz : Representable p emin z)
    (hlow : 2 ^ (p - 1) ≤ t ∨ e = emin) :
    (∃ j : Int, z = j * 2 ^ e) ∨ |t * 2 ^ e - n * 2 ^ e| < |t * 2 ^ e - z| := by
  refine (hz.grid hp hlow).imp_right fun ⟨ht, hbelow⟩ => ?_
  have hu : (0 : ℚ) < 2 ^ e := by positivity
  have hbound := hn (2 ^ (p - 1))
  push_cast at hbound
  rw [abs_of_nonneg (sub_nonneg.mpr ht)] at hbound
  have hmul := mul_le_mul_of_nonneg_right hbound hu.le
  rw [sub_mul] at hmul
  have hle := le_abs_self z
  rw [abs_sub_scaled]
  exact (hmul.trans_lt (by linarith)).trans_le (le_abs_self _)

/-- Where the integer is short enough, and long enough or at the least exponent. -/
theorem nearestEven_scaled (hp : 2 ≤ p) (h : NearestInt t n) (h0 : 0 ≤ t) (htop : t < 2 ^ p)
    (hlow : 2 ^ (p - 1) ≤ t ∨ e = emin) (he : emin ≤ e) : NearestEven p emin (t * 2 ^ e) (n * 2 ^ e) := by
  have hu : (0 : ℚ) < 2 ^ e := by positivity
  have hclose := abs_le.mp h.1
  have hn0 : 0 ≤ n := by
    have : (-1 : ℚ) < n := by linarith
    have : (-1 : Int) < n := by exact_mod_cast this
    omega
  have hntop : n ≤ 2 ^ p := by
    have : (n : ℚ) < 2 ^ p + 1 := by linarith
    have : n < 2 ^ p + 1 := by exact_mod_cast this
    omega
  have hnlow : (2 : ℚ) ^ (p - 1) ≤ t → (2 : Int) ^ (p - 1) ≤ n := by
    intro hle
    have : (2 : ℚ) ^ (p - 1) - 1 < n := by linarith
    have : (2 : Int) ^ (p - 1) - 1 < n := by exact_mod_cast this
    omega
  constructor
  · exact representable_scaled hp hn0 hntop he
  · intro z hz
    rcases nearest_scaled hp h.le hz hlow with ⟨j, rfl⟩ | hlt
    · rw [abs_sub_scaled, abs_sub_scaled]
      exact mul_le_mul_of_nonneg_right (h.le j) hu.le
    · exact hlt.le
  · intro z hz hne heq
    rcases nearest_scaled hp h.le hz hlow with ⟨j, rfl⟩ | hlt
    · rw [abs_sub_scaled, abs_sub_scaled] at heq
      have hj : j ≠ n := fun hj => hne (by rw [hj])
      have heven := h.tie hj (mul_right_cancel₀ hu.ne' heq)
      rcases hntop.lt_or_eq with hlt | hn
      · refine ⟨n, e, he, by rwa [abs_of_nonneg hn0], ?_, heven, rfl⟩
        rw [abs_of_nonneg hn0]
        exact hlow.imp_left hnlow
      · have hpi : (2 : Int) ^ p = 2 * 2 ^ (p - 1) := by exact_mod_cast two_pow_pred hp
        have hpos : (0 : Int) < 2 ^ (p - 1) := by positivity
        refine ⟨2 ^ (p - 1), e + 1, by omega, ?_, .inl (le_abs_self _), Int.even_pow.mpr ⟨even_two, by omega⟩, ?_⟩
        · rw [abs_of_pos hpos, hpi]
          omega
        · rw [hn, zpow_add_one₀ (by norm_num)]
          push_cast
          rw [two_pow_pred hp]
          ring
    · exact absurd heq hlt.ne'

theorem le_roundedShift (m d : Nat) : m / 2 ^ d ≤ roundedShift m d := Nat.le_add_right _ _

theorem roundedShift_le (m d : Nat) : roundedShift m d ≤ m / 2 ^ d + 1 :=
  Nat.add_le_add_left (Bool.toNat_le _) _

/-- A number of `2 ^ -u`s without its low `d` bits, rounded, is the number of the format nearest to it. -/
theorem nearestEven_shift {m d u : Nat} (hp : 2 ≤ p) (hd : 0 < d) (htop : m < 2 ^ (p + d))
    (hlow : 2 ^ (p - 1 + d) ≤ m ∨ (d : Int) - u = emin) (he : emin ≤ (d : Int) - u) :
    NearestEven p emin (m / 2 ^ u) (roundedShift m d * 2 ^ ((d : Int) - u)) := by
  have hpos : (0 : ℚ) < 2 ^ d := by positivity
  have hx : (m : ℚ) / 2 ^ u = m / 2 ^ d * 2 ^ ((d : Int) - u) := by
    rw [zpow_sub₀ (by norm_num), zpow_natCast, zpow_natCast]
    field_simp
  have h := nearestEven_scaled (t := m / 2 ^ d) (e := (d : Int) - u) hp (roundedShift_nearest hd) (by positivity)
    (by rw [div_lt_iff₀ hpos, ← pow_add]; exact_mod_cast htop)
    (hlow.imp_left fun hle => by rw [le_div_iff₀ hpos, ← pow_add]; exact_mod_cast hle) he
  rw [hx]
  exact_mod_cast h

end AscendEmulator.Lib
