/-
  AscendEmulator.C220.Vector.SortOrder — the order of the values that a sort compares (`ops/sort.rs`).

  A value above comes first: a positive NaN, the positive infinity, the finite values, the negative infinity, a negative
  NaN. `c220_sort_value_precedes` is this order on binary32. On binary16 it is this order as long as it does not meet
  both a positive and a negative special value: it compares two such words as `i32`, and a word of sixteen bits has no
  sign there.
-/

import AscendEmulator.C220.Vector.SortProofs

namespace AscendEmulator.C220.Vector

open Lib

namespace SortWidth

variable (width : SortWidth) (bits : UInt32)

def format : SortWidth → Format
  | f16 => .binary16
  | f32 => .binary32

/-- The bits below the sign. -/
def magnitudeBits : Nat := width.format.fractionBits + width.format.exponentBits

/-- A bit pattern of the width. -/
def Fits : Prop := bits.toNat < 2 ^ (width.magnitudeBits + 1)

instance : Decidable (width.Fits bits) := inferInstanceAs (Decidable (_ < _))

def negative : Bool := width.format.negative bits.toNat

def fraction : Nat := width.format.fraction bits.toNat

def Finite : Prop := width.format.Finite bits.toNat

instance : Decidable (width.Finite bits) := inferInstanceAs (Decidable (width.format.Finite _))

/-- 4 for a positive NaN, 3 for the positive infinity, 2 for a finite value, 1 for the negative infinity, 0 for a
    negative NaN. -/
def rank : Nat :=
  if width.Finite bits then 2
  else if width.negative bits then if width.fraction bits = 0 then 1 else 0
  else if width.fraction bits = 0 then 3 else 4

/-- Values of one rank: finite ones by their number, so that the zeros are equal, NaNs by their payload. -/
def amount : ℚ :=
  if width.Finite bits then width.format.value bits.toNat
  else Format.sign (width.negative bits) * width.fraction bits

/-- The value in its order. -/
def key : ℕ ×ₗ ℚ := toLex (width.rank bits, width.amount bits)

/-- An infinity or a NaN, of the given sign. -/
structure Special (sign : Bool) : Prop where
  fits : width.Fits bits
  special : ¬ width.Finite bits
  sign : width.negative bits = sign

/-- The words of binary16 that are compared have a positive special value and a negative one among them. -/
def Mixes (values : Set UInt32) : Prop :=
  width = f16 ∧ (∃ p ∈ values, width.Special p false) ∧ ∃ n ∈ values, width.Special n true

end SortWidth

/-- The claimed order of two records: the higher value goes first, and of equal ones that of the lower lane. -/
def Before (width : SortWidth) (x y : SortLaneOutcome) : Prop :=
  width.key y.valueBits < width.key x.valueBits ∨
    width.key x.valueBits = width.key y.valueBits ∧ x.inputLane < y.inputLane

/-- Records of these values and of distinct lanes are sorted, with every index in range. -/
def Sorts (width : SortWidth) (values : Set UInt32) : Prop :=
  ∀ records : List SortLaneOutcome,
    (∀ r ∈ records, r.valueBits ∈ values ∧ width.Fits r.valueBits) → (records.map (·.inputLane)).Nodup →
      ∃ sorted, sortRecords width records = some sorted ∧ sorted.Perm records ∧ sorted.Pairwise (Before width)

/-- `c220_sort_value_precedes` is a strict weak order on these values. -/
def WeaklyOrders (width : SortWidth) (values : Set UInt32) : Prop :=
  IsStrictWeakOrder {bits // bits ∈ values ∧ width.Fits bits} fun l r => sortValuePrecedes width l r = true

/-! ## Bits -/

theorem and_field (x f e : Nat) : x &&& (2 ^ e - 1) * 2 ^ f = x / 2 ^ f % 2 ^ e * 2 ^ f := by
  refine Nat.eq_of_testBit_eq fun i => ?_
  rw [Nat.testBit_and, Nat.testBit_mul_two_pow, Nat.testBit_mul_two_pow, Nat.testBit_mod_two_pow,
    Nat.testBit_two_pow_sub_one, Nat.testBit_div_two_pow]
  by_cases hi : f ≤ i
  · rw [Nat.sub_add_cancel hi]
    grind
  · simp [hi]

theorem and_below {x k : Nat} (hk : k < 32) (hx : x < 2 ^ (k + 1)) : x &&& (2 ^ 32 - (2 ^ k + 1)) = x % 2 ^ k := by
  refine Nat.eq_of_testBit_eq fun i => ?_
  have hlt : 2 ^ k < 2 ^ 32 := Nat.pow_lt_pow_right (by omega) hk
  rw [Nat.testBit_and, Nat.testBit_two_pow_sub_succ hlt, Nat.testBit_mod_two_pow, Nat.testBit_two_pow]
  rcases Nat.lt_trichotomy i k with hi | rfl | hi
  · simp only [hi, show i < 32 by omega, show k ≠ i by omega, decide_true, decide_false, Bool.not_false, Bool.and_true,
      Bool.true_and]
  · simp
  · have hbit : x.testBit i = false :=
      Nat.testBit_lt_two_pow (hx.trans_le (Nat.pow_le_pow_right (by omega) hi))
    rw [hbit, Bool.false_and, Bool.and_false]

namespace SortWidth

variable {width : SortWidth} {bits : UInt32}

theorem fits_f32 : f32.Fits bits := bits.toNat_lt

/-- A word is its sign and its magnitude. -/
theorem toNat_eq (h : width.Fits bits) :
    bits.toNat = 2 ^ width.magnitudeBits * (width.negative bits).toNat + bits.toNat % 2 ^ width.magnitudeBits := by
  have hlt : bits.toNat / 2 ^ width.magnitudeBits < 2 := by
    rw [Nat.div_lt_iff_lt_mul (Nat.two_pow_pos _), Nat.mul_comm, ← pow_succ]
    exact h
  have hbit : (width.negative bits).toNat = bits.toNat / 2 ^ width.magnitudeBits := by
    rw [negative, Format.negative, Nat.toNat_testBit]
    exact Nat.mod_eq_of_lt hlt
  rw [hbit, Nat.div_add_mod]

theorem sign_toNat (width : SortWidth) : width.sign.toNat = 2 ^ width.magnitudeBits := by cases width <;> rfl

theorem and_sign (width : SortWidth) (bits : UInt32) : bits &&& width.sign = 0 ↔ width.negative bits = false := by
  rw [← UInt32.toNat_inj, UInt32.toNat_and, sign_toNat, Nat.and_two_pow]
  change _ = 0 ↔ bits.toNat.testBit width.magnitudeBits = false
  cases bits.toNat.testBit width.magnitudeBits <;> simp

theorem and_not_sign (h : width.Fits bits) : bits &&& ~~~width.sign = 0 ↔ bits.toNat % 2 ^ width.magnitudeBits = 0 := by
  have hlt : width.magnitudeBits < 32 := by cases width <;> decide
  rw [← UInt32.toNat_inj, UInt32.toNat_and, UInt32.toNat_not, sign_toNat, ← and_below hlt h, Nat.add_comm,
    ← Nat.sub_sub]
  exact Iff.rfl

theorem exponentMask_toNat (width : SortWidth) :
    width.exponentMask.toNat = (2 ^ width.format.exponentBits - 1) * 2 ^ width.format.fractionBits := by
  cases width <;> rfl

theorem isSpecial_eq (width : SortWidth) (bits : UInt32) : width.isSpecial bits = !decide (width.Finite bits) := by
  have hlt : width.format.exponent bits.toNat < 2 ^ width.format.exponentBits := Nat.mod_lt _ (Nat.two_pow_pos _)
  have hiff : (bits &&& width.exponentMask = width.exponentMask) ↔ ¬ width.Finite bits := by
    rw [← UInt32.toNat_inj, UInt32.toNat_and, exponentMask_toNat, and_field,
      Nat.mul_left_inj (Nat.two_pow_pos _).ne']
    unfold Finite Format.Finite
    change width.format.exponent bits.toNat = _ ↔ _
    omega
  rw [isSpecial, Bool.eq_iff_iff, beq_iff_eq, hiff]
  simp

/-- `fp16::to_f64` is the number of the word. -/
theorem toF64_eq (h : f16.Fits bits) : toF64 bits.toUInt16 = Format.binary16.value bits.toNat := by
  have hword : bits.toUInt16.toNat = bits.toNat := by
    rw [UInt32.toNat_toUInt16]
    exact Nat.mod_eq_of_lt h
  have hsign : bits.toUInt16 &&& 0x8000 = 0 ↔ Format.binary16.negative bits.toNat = false := by
    rw [← UInt16.toNat_inj, UInt16.toNat_and, hword, show (0x8000 : UInt16).toNat = 2 ^ 15 from rfl, Nat.and_two_pow]
    change _ = 0 ↔ bits.toNat.testBit 15 = false
    cases bits.toNat.testBit 15 <;> simp
  have hexponent : ((bits.toUInt16 &&& 0x7c00) >>> 10).toNat = Format.binary16.exponent bits.toNat := by
    rw [UInt16.toNat_shiftRight, UInt16.toNat_and, hword,
      show (0x7c00 : UInt16).toNat = (2 ^ 5 - 1) * 2 ^ 10 from rfl, and_field, Nat.shiftRight_eq_div_pow]
    exact Nat.mul_div_cancel _ (Nat.two_pow_pos 10)
  have hfraction : (bits.toUInt16 &&& 0x03ff).toNat = Format.binary16.fraction bits.toNat := by
    rw [UInt16.toNat_and, hword]
    exact Nat.and_two_pow_sub_one_eq_mod _ 10
  have hscale : Format.binary16.emin = -24 := by decide
  unfold toF64 Format.value Format.sign Format.significand Format.scale
  simp only [hsign, hexponent, hfraction, hscale]
  have hsigns : (if Format.binary16.negative bits.toNat = false then (1 : ℚ) else -1) =
      if Format.binary16.negative bits.toNat then -1 else 1 := by
    cases Format.binary16.negative bits.toNat <;> rfl
  rw [hsigns]
  congr 1
  by_cases hzero : Format.binary16.exponent bits.toNat = 0
  · rw [if_pos hzero, if_pos hzero, hzero]
    rfl
  · have hexp : (-24 + ((Format.binary16.exponent bits.toNat - 1 : Nat) : ℤ)) =
        (Format.binary16.exponent bits.toNat : ℤ) - 25 := by omega
    rw [if_neg hzero, if_neg hzero, hexp]
    push_cast
    rfl

theorem floatAbove_eq {left right : UInt32} (hl : width.Fits left) (hr : width.Fits right) :
    width.floatAbove left right = decide (width.format.value right.toNat < width.format.value left.toNat) := by
  cases width with
  | f16 => rw [floatAbove, toF64_eq hl, toF64_eq hr]; rfl
  | f32 => rfl

/-! ## The order -/

theorem exponent_eq (width : SortWidth) (bits : UInt32) : width.format.exponent bits.toNat =
    bits.toNat % 2 ^ width.magnitudeBits / 2 ^ width.format.fractionBits := by
  rw [Format.exponent, magnitudeBits, pow_add, Nat.mod_mul_right_div_self]

theorem fraction_eq (width : SortWidth) (bits : UInt32) : width.fraction bits =
    bits.toNat % 2 ^ width.magnitudeBits % 2 ^ width.format.fractionBits := by
  rw [fraction, Format.fraction, magnitudeBits, pow_add, Nat.mod_mul_right_mod]

/-- A word of no magnitude is a zero, of one sign or the other. -/
theorem key_zero (h : bits.toNat % 2 ^ width.magnitudeBits = 0) : width.key bits = toLex (2, 0) := by
  have hexponent := exponent_eq width bits
  have hfraction := fraction_eq width bits
  rw [h, Nat.zero_div] at hexponent
  rw [h, Nat.zero_mod] at hfraction
  have hfinite : width.Finite bits := by
    unfold Finite Format.Finite
    rw [hexponent]
    cases width <;> decide
  have hvalue : width.format.value bits.toNat = 0 := by
    unfold Format.value Format.significand
    rw [if_pos hexponent, show width.format.fraction bits.toNat = 0 from hfraction, Nat.cast_zero, zero_mul, mul_zero]
  rw [key, rank, amount, if_pos hfinite, if_pos hfinite, hvalue]

theorem key_lt_iff {left right : UInt32} : width.key left < width.key right ↔
    width.rank left < width.rank right ∨ width.rank left = width.rank right ∧ width.amount left < width.amount right :=
  Prod.Lex.toLex_lt_toLex

theorem rank_finite (h : width.Finite bits) : width.rank bits = 2 := if_pos h

theorem rank_above (h : ¬ width.Finite bits) (hn : width.negative bits = false) : 2 < width.rank bits := by
  rw [rank, if_neg h, hn]
  split_ifs <;> simp_all

theorem rank_below (h : ¬ width.Finite bits) (hn : width.negative bits = true) : width.rank bits < 2 := by
  rw [rank, if_neg h, hn]
  split_ifs <;> simp_all

/-- The magnitude of a special value, by its fraction. -/
theorem magnitude_special (h : ¬ width.Finite bits) : bits.toNat % 2 ^ width.magnitudeBits =
    2 ^ width.format.fractionBits * (2 ^ width.format.exponentBits - 1) + width.fraction bits := by
  have hexponent : width.format.exponent bits.toNat = 2 ^ width.format.exponentBits - 1 := by
    have hlt : width.format.exponent bits.toNat < 2 ^ width.format.exponentBits := Nat.mod_lt _ (Nat.two_pow_pos _)
    unfold Finite Format.Finite at h
    omega
  rw [← hexponent, exponent_eq, fraction_eq, Nat.div_add_mod]

section Specials

variable {left right : UInt32} (hl : ¬ width.Finite left) (hr : ¬ width.Finite right)

include hl hr

theorem key_lt_above (hnl : width.negative left = false) (hnr : width.negative right = false) :
    width.key right < width.key left ↔ width.fraction right < width.fraction left := by
  have hcast : (width.fraction right : ℚ) < width.fraction left ↔ width.fraction right < width.fraction left :=
    Nat.cast_lt
  simp only [key_lt_iff, rank, amount, if_neg hl, if_neg hr, hnl, hnr, Format.sign, Bool.false_eq_true, if_false,
    one_mul, hcast]
  split_ifs <;> omega

theorem key_lt_below (hnl : width.negative left = true) (hnr : width.negative right = true) :
    width.key right < width.key left ↔ width.fraction left < width.fraction right := by
  have hcast : (width.fraction left : ℚ) < width.fraction right ↔ width.fraction left < width.fraction right :=
    Nat.cast_lt
  simp only [key_lt_iff, rank, amount, if_neg hl, if_neg hr, hnl, hnr, Format.sign, if_true, neg_one_mul,
    neg_lt_neg_iff, hcast]
  split_ifs <;> omega

end Specials

/-- The order of the words of one sign is that of their magnitudes. -/
theorem toNat_lt_iff {left right : UInt32} (hl : width.Fits left) (hr : width.Fits right)
    (hsign : width.negative left = width.negative right) :
    left < right ↔ left.toNat % 2 ^ width.magnitudeBits < right.toNat % 2 ^ width.magnitudeBits := by
  rw [UInt32.lt_iff_toNat_lt]
  have hleft := toNat_eq hl
  have hright := toNat_eq hr
  rw [hsign] at hleft
  omega

theorem toInt32_lt {left right : UInt32} : right.toInt32 < left.toInt32 ↔
    (if right.toNat < 2 ^ 31 then (right.toNat : ℤ) else right.toNat - 2 ^ 32) <
      if left.toNat < 2 ^ 31 then (left.toNat : ℤ) else left.toNat - 2 ^ 32 := by
  have hvalue (bits : UInt32) :
      bits.toInt32.toInt = if bits.toNat < 2 ^ 31 then (bits.toNat : ℤ) else bits.toNat - 2 ^ 32 := by
    change bits.toBitVec.toInt = _
    rw [BitVec.toInt_eq_toNat_cond]
    change (if 2 * bits.toNat < 2 ^ 32 then (bits.toNat : ℤ) else bits.toNat - (2 ^ 32 : Nat)) = _
    split_ifs <;> omega
  rw [Int32.lt_iff_toInt_lt, hvalue, hvalue]

/-- Two special values, when they are not a positive and a negative one of binary16. -/
theorem special_precedes {left right : UInt32} (hl : width.Fits left) (hr : width.Fits right)
    (hsl : ¬ width.Finite left) (hsr : ¬ width.Finite right) (hmix : ¬ width.Mixes {left, right}) :
    (if left &&& width.sign != 0 && right &&& width.sign != 0 then decide (left < right)
      else decide (right.toInt32 < left.toInt32)) = decide (width.key right < width.key left) := by
  have hbit (bits : UInt32) : (bits &&& width.sign != 0) = width.negative bits := by
    have h := and_sign width bits
    cases hn : width.negative bits <;> simp_all
  have hfl := magnitude_special hsl
  have hfr := magnitude_special hsr
  have hlnat := toNat_eq hl
  have hrnat := toNat_eq hr
  have hml : left.toNat % 2 ^ width.magnitudeBits < 2 ^ width.magnitudeBits := Nat.mod_lt _ (Nat.two_pow_pos _)
  have hmr : right.toNat % 2 ^ width.magnitudeBits < 2 ^ width.magnitudeBits := Nat.mod_lt _ (Nat.two_pow_pos _)
  have htop : 2 ^ width.magnitudeBits ≤ 2 ^ 31 := by cases width <;> decide
  rw [hbit, hbit]
  cases hnl : width.negative left <;> cases hnr : width.negative right
  · rw [hnl, Bool.toNat_false, Nat.mul_zero, Nat.zero_add] at hlnat
    rw [hnr, Bool.toNat_false, Nat.mul_zero, Nat.zero_add] at hrnat
    refine decide_eq_decide.mpr (toInt32_lt.trans ?_)
    rw [key_lt_above hsl hsr hnl hnr, if_pos (by omega), if_pos (by omega)]
    omega
  · -- Only words of binary32 are left here: their sign is that of the `i32`.
    cases width with
    | f16 => exact absurd ⟨rfl, ⟨left, .inl rfl, hl, hsl, hnl⟩, right, .inr rfl, hr, hsr, hnr⟩ hmix
    | f32 =>
      have hkey := key_lt_iff.mpr (.inl ((rank_below hsr hnr).trans (rank_above hsl hnl)))
      refine decide_eq_decide.mpr (toInt32_lt.trans (iff_of_true ?_ hkey))
      rw [hnl, Bool.toNat_false, Nat.mul_zero, Nat.zero_add] at hlnat
      rw [hnr, Bool.toNat_true, Nat.mul_one] at hrnat
      have hright := right.toNat_lt
      have hbits : magnitudeBits .f32 = 31 := rfl
      rw [hbits] at hlnat hrnat hml
      rw [if_neg (by omega), if_pos (by omega)]
      omega
  · cases width with
    | f16 => exact absurd ⟨rfl, ⟨right, .inr rfl, hr, hsr, hnr⟩, left, .inl rfl, hl, hsl, hnl⟩ hmix
    | f32 =>
      have hkey := key_lt_iff.mpr (.inl ((rank_below hsl hnl).trans (rank_above hsr hnr)))
      refine decide_eq_decide.mpr (toInt32_lt.trans (iff_of_false ?_ hkey.asymm))
      rw [hnl, Bool.toNat_true, Nat.mul_one] at hlnat
      rw [hnr, Bool.toNat_false, Nat.mul_zero, Nat.zero_add] at hrnat
      have hleft := left.toNat_lt
      have hbits : magnitudeBits .f32 = 31 := rfl
      rw [hbits] at hlnat hrnat hmr
      rw [if_pos (by omega), if_neg (by omega)]
      omega
  · rw [Bool.and_self, if_pos rfl, decide_eq_decide, toNat_lt_iff hl hr (hnl.trans hnr.symm),
      key_lt_below hsl hsr hnl hnr]
    omega

/-- The comparison is that of the keys: of two values the higher goes first. -/
theorem sortValuePrecedes_eq {left right : UInt32} (hl : width.Fits left) (hr : width.Fits right)
    (hmix : ¬ width.Mixes {left, right}) :
    sortValuePrecedes width left right = decide (width.key right < width.key left) := by
  have hpos (bits : UInt32) : (bits &&& width.sign == 0) = !width.negative bits := by
    have h := and_sign width bits
    cases hn : width.negative bits <;> simp_all
  unfold sortValuePrecedes
  simp only
  by_cases hequal : left = right
  · subst hequal
    simp
  by_cases hzeros : left &&& ~~~width.sign = 0 ∧ right &&& ~~~width.sign = 0
  · rw [key_zero ((and_not_sign hl).mp hzeros.1), key_zero ((and_not_sign hr).mp hzeros.2)]
    simp [hzeros.1, hzeros.2]
  rw [if_neg (by simpa [hequal] using hzeros), isSpecial_eq, isSpecial_eq]
  by_cases hfl : width.Finite left <;> by_cases hfr : width.Finite right
  · simp only [hfl, hfr, decide_true, Bool.not_true]
    rw [floatAbove_eq hl hr, decide_eq_decide, key_lt_iff, rank_finite hfl, rank_finite hfr, amount, amount,
      if_pos hfl, if_pos hfr]
    simp
  · simp only [hfl, hfr, decide_true, decide_false, Bool.not_true, Bool.not_false]
    change (right &&& width.sign != 0) = _
    rw [bne, hpos, Bool.not_not]
    cases hn : width.negative right with
    | false => exact (decide_eq_false (key_lt_iff.mpr (.inl ((rank_finite hfl).symm ▸ rank_above hfr hn))).asymm).symm
    | true => exact (decide_eq_true (key_lt_iff.mpr (.inl ((rank_finite hfl).symm ▸ rank_below hfr hn)))).symm
  · simp only [hfl, hfr, decide_true, decide_false, Bool.not_true, Bool.not_false]
    change (left &&& width.sign == 0) = _
    rw [hpos]
    cases hn : width.negative left with
    | false => exact (decide_eq_true (key_lt_iff.mpr (.inl ((rank_finite hfr).symm ▸ rank_above hfl hn)))).symm
    | true => exact (decide_eq_false (key_lt_iff.mpr (.inl ((rank_finite hfr).symm ▸ rank_below hfl hn))).asymm).symm
  · simp only [hfl, hfr, decide_false, Bool.not_false]
    exact special_precedes hl hr hfl hfr hmix

theorem Mixes.mono {values larger : Set UInt32} (h : width.Mixes values) (hsub : values ⊆ larger) :
    width.Mixes larger := by
  obtain ⟨hwidth, ⟨p, hp, hpos⟩, n, hn, hneg⟩ := h
  exact ⟨hwidth, ⟨p, hsub hp, hpos⟩, n, hsub hn, hneg⟩

end SortWidth

section Order

variable {width : SortWidth} {values : Set UInt32}

theorem precedes_iff (hmix : ¬ width.Mixes values) {left right : UInt32} (hl : left ∈ values ∧ width.Fits left)
    (hr : right ∈ values ∧ width.Fits right) :
    sortValuePrecedes width left right = true ↔ width.key right < width.key left := by
  have hpair : ¬ width.Mixes {left, right} := fun h => hmix (h.mono (Set.pair_subset hl.1 hr.1))
  rw [SortWidth.sortValuePrecedes_eq hl.2 hr.2 hpair, decide_eq_true_iff]

theorem weaklyOrders_of_unmixed (hmix : ¬ width.Mixes values) : WeaklyOrders width values := by
  have hiff (l r : {bits // bits ∈ values ∧ width.Fits bits}) := precedes_iff hmix l.2 r.2
  refine { irrefl := fun a h => ?_, trans := fun a b c hab hbc => ?_, incomp_trans := fun a b c hab hbc => ?_ }
  · exact lt_irrefl _ ((hiff a a).mp h)
  · exact (hiff a c).mpr (((hiff b c).mp hbc).trans ((hiff a b).mp hab))
  · rw [hiff, hiff, not_lt, not_lt] at hab hbc ⊢
    exact ⟨hab.1.trans hbc.1, hbc.2.trans hab.2⟩

/-- Records by their value, the higher first, and then by their lane. -/
def recordKey (width : SortWidth) (r : SortLaneOutcome) : (ℕ ×ₗ ℚ)ᵒᵈ ×ₗ ℕ :=
  toLex (OrderDual.toDual (width.key r.valueBits), r.inputLane.toNat)

theorem recordKey_lt_iff {x y : SortLaneOutcome} : recordKey width x < recordKey width y ↔ Before width x y := by
  rw [recordKey, recordKey, Prod.Lex.toLex_lt_toLex, Before, UInt8.lt_iff_toNat_lt]
  exact Iff.rfl

theorem recordPrecedes_iff (hmix : ¬ width.Mixes values) {x y : SortLaneOutcome}
    (hx : x.valueBits ∈ values ∧ width.Fits x.valueBits) (hy : y.valueBits ∈ values ∧ width.Fits y.valueBits) :
    recordPrecedes width x y = true ↔ recordKey width x < recordKey width y := by
  have hxy := precedes_iff hmix hx hy
  have hyx := precedes_iff hmix hy hx
  rw [recordKey_lt_iff, Before, recordPrecedes, compareRecords, beq_iff_eq]
  rcases lt_trichotomy (width.key x.valueBits) (width.key y.valueBits) with hlt | heq | hgt
  · rw [hyx.mpr hlt, Bool.eq_false_iff.mpr fun h => hlt.asymm (hxy.mp h)]
    simp [hlt.asymm, hlt.ne]
  · rw [Bool.eq_false_iff.mpr fun h => (hxy.mp h).ne' heq, Bool.eq_false_iff.mpr fun h => (hyx.mp h).ne heq]
    simp only [heq, lt_irrefl, false_or, true_and, UInt8.lt_iff_toNat_lt]
    exact Nat.compare_eq_lt
  · rw [hxy.mpr hgt, Bool.eq_false_iff.mpr fun h => hgt.asymm (hyx.mp h)]
    simp [hgt]

/-- Without a mix the introsort sorts, as its comparison is that of the keys. -/
theorem sorts_of_unmixed (hmix : ¬ width.Mixes values) : Sorts width values := by
  intro records hvalues hlanes
  have hagrees : Introsort.Agrees (recordPrecedes width) (recordKey width) records := fun x hx y hy =>
    recordPrecedes_iff hmix (hvalues x hx) (hvalues y hy)
  obtain ⟨sorted, hsort, hperm, hsorted⟩ := Introsort.sort_sorts hagrees
  refine ⟨sorted, hsort, hperm, ?_⟩
  have hnodup : (sorted.map (·.inputLane)).Nodup := (hperm.map _).nodup_iff.mpr hlanes
  rw [List.Nodup, List.pairwise_map] at hnodup
  refine (hsorted.and hnodup).imp fun {x y} h => ?_
  refine recordKey_lt_iff.mp (lt_of_le_of_ne h.1 fun heq => h.2 ?_)
  have hlane := congrArg (fun key => (ofLex key).2) heq
  exact UInt8.toNat_inj.mp hlane

/-! ## The slip of binary16 -/

/-- Words of sixteen bits are not negative as `i32`, so a negative special value goes before a positive one. -/
theorem mixed_precedes {p n : UInt32} (hp : SortWidth.f16.Special p false) (hn : SortWidth.f16.Special n true) :
    sortValuePrecedes .f16 n p = true ∧ sortValuePrecedes .f16 p n = false := by
  have hmask (bits : UInt32) (sign : Bool) (h : SortWidth.f16.Special bits sign) :
      SortWidth.f16.isSpecial bits = true := by
    rw [SortWidth.isSpecial_eq, decide_eq_false h.special]
    rfl
  have hsign := (SortWidth.and_sign .f16 p).mpr hp.sign
  have hpnat := SortWidth.toNat_eq hp.fits
  have hnnat := SortWidth.toNat_eq hn.fits
  have hfits := hn.fits
  unfold SortWidth.Fits at hfits
  rw [hp.sign, Bool.toNat_false, Nat.mul_zero, Nat.zero_add] at hpnat
  rw [hn.sign, Bool.toNat_true, Nat.mul_one] at hnnat
  have hbits : SortWidth.magnitudeBits .f16 = 15 := rfl
  rw [hbits] at hpnat hnnat hfits
  have hne : n ≠ p := by
    rintro rfl
    omega
  have hzero (bits : UInt32) (sign : Bool) (h : SortWidth.f16.Special bits sign) :
      ¬ bits &&& ~~~SortWidth.f16.sign = 0 := by
    intro h0
    have hmagnitude := SortWidth.magnitude_special h.special
    rw [(SortWidth.and_not_sign h.fits).mp h0] at hmagnitude
    have hpos : 0 < 2 ^ SortWidth.f16.format.fractionBits * (2 ^ SortWidth.f16.format.exponentBits - 1) := by decide
    omega
  have hlt : p.toInt32 < n.toInt32 := SortWidth.toInt32_lt.mpr (by rw [if_pos (by omega), if_pos (by omega)]; omega)
  have hge : ¬ n.toInt32 < p.toInt32 := fun h => by
    have h' := SortWidth.toInt32_lt.mp h
    rw [if_pos (by omega), if_pos (by omega)] at h'
    omega
  unfold sortValuePrecedes
  simp [hne, hne.symm, hzero p false hp, hzero n true hn, hmask p false hp, hmask n true hn, hsign, hlt, hge]

theorem sort_pair {α : Type} {precedes : α → α → Bool} {x y : α} (h : precedes y x = true) :
    Introsort.sort precedes [x, y] = some [y, x] := by
  have hinsert : Introsort.insert precedes [x, y] 1 = some [y, x] := by
    simp [Introsort.insert, h]
  have hfront : Introsort.finalInsertionSort precedes [x, y] = some [y, x] := by
    simp only [Introsort.finalInsertionSort, List.length_cons, List.length_nil, Introsort.insertionSort]
    simpa [List.range'] using hinsert
  have hloop (depth : Nat) : Introsort.introsortLoop precedes depth [x, y] = some [x, y] := by
    cases depth <;> simp [Introsort.introsortLoop]
  simp [Introsort.sort, hloop, hfront]

theorem not_sorts_of_mixed (h : width.Mixes values) : ¬ Sorts width values := by
  obtain ⟨rfl, ⟨p, hp, hpos⟩, n, hn, hneg⟩ := h
  intro hsorts
  obtain ⟨sorted, hsort, -, hordered⟩ := hsorts [⟨0, p, 0⟩, ⟨1, n, 0⟩]
    (by simp [hp, hn, hpos.fits, hneg.fits]) (by simp)
  have hmixed := mixed_precedes hpos hneg
  have hpair : sortRecords .f16 [⟨0, p, 0⟩, ⟨1, n, 0⟩] = some [⟨1, n, 0⟩, ⟨0, p, 0⟩] :=
    sort_pair (by simp [recordPrecedes, compareRecords, hmixed])
  obtain rfl := Option.some.inj (hpair.symm.trans hsort)
  have hkey := SortWidth.key_lt_iff.mpr
    (.inl ((SortWidth.rank_below hneg.special hneg.sign).trans (SortWidth.rank_above hpos.special hpos.sign)))
  rcases (List.pairwise_cons.mp hordered).1 _ (List.mem_singleton_self _) with hlt | ⟨heq, -⟩
  · exact hlt.asymm hkey
  · exact hkey.ne heq

end Order

end AscendEmulator.C220.Vector
