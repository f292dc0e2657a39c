/-
  AscendEmulator.C220.Cube.ExactProofs — the accumulator holds the exact sum, and rounds it once.

  (1) `finiteParts` reads a word as its format does.
  (2) `addTerm` adds an integer to the total, the sum in units of 2^-298.
  (3) Up to 2^20 terms never overflow (`accumulate_total`), each being less than 2^554 units.
  (4) A rounder gives the word of the number nearest to the total (`roundTo_rounded`).
-/

import AscendEmulator.C220.Cube.Exact
import AscendEmulator.Lib.Rounding

namespace AscendEmulator.C220.Cube

open Lib

/-! ## (1) Words -/

variable {w : Nat}

/-- The code reads a word of the format as the format does. -/
structure Reads (F : Format) (parts : BitVec w → BitVec w × Int) (sign : BitVec w) : Prop where
  significand : ∀ bits, (parts bits).1.toNat = F.significand bits.toNat
  scale : ∀ bits, (parts bits).2 = F.scale bits.toNat
  negative : ∀ bits, (bits &&& sign != 0) = F.negative bits.toNat

theorem bne_zero_eq_testBit {bits sign : BitVec w} {i : Nat} (hs : sign.toNat = 2 ^ i) :
    (bits &&& sign != 0) = bits.toNat.testBit i := by
  have hne : (bits &&& sign != 0) = decide ((bits &&& sign).toNat ≠ 0) := by
    rw [Bool.eq_iff_iff, bne_iff_ne, decide_eq_true_eq, ne_eq, ne_eq, ← BitVec.toNat_inj]
    simp
  rw [hne, BitVec.toNat_and, hs, Nat.and_two_pow]
  cases bits.toNat.testBit i <;> simp

/-- The field of `n` bits above the low `shift` ones. -/
theorem field_eq {bits mask : BitVec w} {shift n : Nat} (hm : mask.toNat = (2 ^ n - 1) * 2 ^ shift) :
    ((bits &&& mask) >>> shift).toNat = bits.toNat / 2 ^ shift % 2 ^ n := by
  rw [BitVec.toNat_ushiftRight, BitVec.toNat_and, hm, Nat.shiftRight_and_distrib, ← Nat.shiftLeft_eq,
    Nat.shiftLeft_shiftRight, Nat.and_two_pow_sub_one_eq_mod, Nat.shiftRight_eq_div_pow]

theorem finiteParts_reads {F : Format} {exponentMask fractionMask hidden sign : BitVec w} {subnormal offset : Int}
    (he : exponentMask.toNat = (2 ^ F.exponentBits - 1) * 2 ^ F.fractionBits)
    (hf : fractionMask.toNat = 2 ^ F.fractionBits - 1) (hh : hidden.toNat = 2 ^ F.fractionBits)
    (hsub : subnormal = F.emin) (hoff : offset = 1 - F.emin)
    (hsign : sign.toNat = 2 ^ (F.fractionBits + F.exponentBits)) :
    Reads F (finiteParts exponentMask fractionMask hidden F.fractionBits subnormal offset) sign := by
  have hexp : ∀ bits : BitVec w, ((bits &&& exponentMask) >>> F.fractionBits).toNat = F.exponent bits.toNat :=
    fun bits => field_eq he
  have hfrac : ∀ bits : BitVec w, (bits &&& fractionMask).toNat = F.fraction bits.toNat := by
    intro bits
    rw [BitVec.toNat_and, hf, Nat.and_two_pow_sub_one_eq_mod]
    rfl
  constructor
  · intro bits
    rw [finiteParts, Format.significand, hexp]
    split
    · exact hfrac bits
    · have := Nat.two_pow_add_eq_or_of_lt (F.fraction_lt bits.toNat) 1
      rw [Nat.mul_one] at this
      rw [BitVec.toNat_or, hh, hfrac, this]
  · intro bits
    rw [finiteParts, Format.scale, hexp]
    split
    · rename_i hz
      rw [hz, hsub]
      simp
    · rw [hoff]
      omega
  · intro bits
    exact bne_zero_eq_testBit hsign

theorem f16_reads : Reads .binary16 finiteF16Parts f16Sign :=
  finiteParts_reads (by decide) (by decide) (by decide) (by decide) (by decide) (by decide)

theorem bf16_reads : Reads .bfloat16 finiteBf16Parts bf16Sign :=
  finiteParts_reads (by decide) (by decide) (by decide) (by decide) (by decide) (by decide)

theorem f32_reads : Reads .binary32 finiteF32Parts f32Sign :=
  finiteParts_reads (by decide) (by decide) (by decide) (by decide) (by decide) (by decide)

/-! ## (2) Adding a term -/

namespace ExactDyadic

/-- The sum held, in units of 2^-298. -/
def total (acc : ExactDyadic) : Int := if acc.negative then -acc.magnitude.value else acc.magnitude.value

/-- Zero has one form. -/
def Canonical (acc : ExactDyadic) : Prop := acc.magnitude.value = 0 → acc.negative = false

variable {acc : ExactDyadic} {negative : Bool}

theorem natAbs_total (acc : ExactDyadic) : acc.total.natAbs = acc.magnitude.value := by
  unfold total
  split <;> omega

theorem isZero_eq (acc : ExactDyadic) : acc.isZero = decide (acc.magnitude.value = 0) := by
  rw [Bool.eq_iff_iff, decide_eq_true_eq, Magnitude.value, Limbs.value_eq_zero, isZero, List.all_eq_true]
  simp

theorem value_zero : Magnitude.zero.value = 0 := Limbs.value_replicate_zero _

/-- One past the largest magnitude. -/
def capacity : Nat := 2 ^ (64 * exactLimbs)

theorem value_injective {m m' : Magnitude} (h : m.value = m'.value) : m = m' := by
  have hlimbs : m.limbs.map UInt64.toNat = m'.limbs.map UInt64.toNat := by
    refine Nat.ofDigits_inj_of_len_eq (b := 2 ^ 64) (by decide) ?_ ?_ ?_ h
    · rw [List.length_map, List.length_map, m.length_limbs, m'.length_limbs]
    all_goals
      intro d hd
      obtain ⟨x, -, rfl⟩ := List.mem_map.mp hd
      exact x.toNat_lt
  obtain ⟨l, hl⟩ := m
  obtain ⟨l', hl'⟩ := m'
  obtain rfl : l = l' := List.map_injective_iff.mpr (fun a b h => UInt64.toNat_inj.mp h) hlimbs
  rfl

/-- The total determines a canonical accumulator. -/
theorem Canonical.ext {acc acc' : ExactDyadic} (h : acc.Canonical) (h' : acc'.Canonical) (ht : acc.total = acc'.total) :
    acc = acc' := by
  have hm : acc.magnitude = acc'.magnitude := value_injective (by rw [← natAbs_total, ← natAbs_total, ht])
  obtain ⟨s, m⟩ := acc
  obtain ⟨s', m'⟩ := acc'
  obtain rfl : m = m' := hm
  unfold Canonical at h h'
  unfold total at ht
  cases s <;> cases s' <;> simp_all

theorem shifted_spec {significand : UInt64} {shift : Nat} (hpos : significand ≠ 0)
    (hfits : significand.toNat * 2 ^ shift < capacity) :
    ∃ term, shifted significand shift = .ok term ∧ term.value = significand.toNat * 2 ^ shift := by
  obtain ⟨limbs, hs, hv⟩ := Limbs.shiftedLeft_spec (n := exactLimbs) hpos hfits
  refine ⟨⟨limbs, Limbs.length_shiftedLeft hs⟩, ?_, hv⟩
  unfold shifted
  split
  · rename_i hnone
    rw [hs] at hnone
    cases hnone
  · rename_i limbs' hsome
    rw [hs] at hsome
    cases hsome
    rfl

theorem addMagnitudes_spec {m m' : Magnitude} (h : m.value + m'.value < capacity) :
    ∃ sum, addMagnitudes m m' = .ok sum ∧ sum.value = m.value + m'.value := by
  have hlen : m.limbs.length = m'.limbs.length := m.length_limbs.trans m'.length_limbs.symm
  have hsum := Limbs.value_add_of_lt hlen (by rw [m.length_limbs]; exact h)
  unfold addMagnitudes
  simp only [hsum.1]
  exact ⟨_, rfl, hsum.2⟩

theorem subtractMagnitudes_value {m m' : Magnitude} (h : m'.value ≤ m.value) :
    (subtractMagnitudes m m').value = m.value - m'.value :=
  Limbs.value_sub_of_le (m.length_limbs.trans m'.length_limbs.symm) h

theorem compareMagnitudes_eq (m m' : Magnitude) : compareMagnitudes m m' = compare m.value m'.value :=
  Limbs.compareLimbs_eq (m.length_limbs.trans m'.length_limbs.symm)

def signed (negative : Bool) (n : Nat) : Int := if negative then -n else n

theorem addTerm_spec {significand : UInt64} {shift : Nat} (hc : acc.Canonical)
    (hfits : acc.total.natAbs + significand.toNat * 2 ^ shift < capacity) :
    ∃ acc', addTerm negative significand shift acc = .ok acc' ∧ acc'.Canonical ∧
      acc'.total = acc.total + signed negative (significand.toNat * 2 ^ shift) := by
  rw [natAbs_total] at hfits
  unfold addTerm
  by_cases hs : significand = 0
  · refine ⟨acc, if_pos hs, hc, ?_⟩
    simp [hs, signed]
  · obtain ⟨term, hterm, hv⟩ := shifted_spec hs (by omega : significand.toNat * 2 ^ shift < capacity)
    have hpos : 0 < term.value := by
      rw [hv]
      exact Nat.mul_pos (Nat.pos_of_ne_zero fun h => hs (UInt64.toNat_inj.mp h)) (Nat.two_pow_pos _)
    rw [if_neg hs, hterm, ← hv]
    rw [← hv] at hfits
    clear hv
    dsimp only
    by_cases hz : acc.magnitude.value = 0
    · rw [isZero_eq, decide_eq_true hz, if_pos rfl]
      refine ⟨_, rfl, fun h => absurd h hpos.ne', ?_⟩
      unfold total signed
      simp only [hz]
      split <;> simp
    · rw [isZero_eq, decide_eq_false hz, if_neg (by decide)]
      by_cases hn : acc.negative = negative
      · obtain ⟨sum, hsum, hsv⟩ := addMagnitudes_spec hfits
        rw [if_pos hn, hsum]
        refine ⟨_, rfl, fun h => ?_, ?_⟩
        · dsimp only at h
          omega
        · unfold total signed
          rw [hn, hsv]
          split <;> push_cast <;> ring
      · rw [if_neg hn, compareMagnitudes_eq]
        rcases lt_trichotomy acc.magnitude.value term.value with hlt | heq | hgt
        · rw [compare_lt_iff_lt.mpr hlt]
          have hsub := subtractMagnitudes_value hlt.le
          refine ⟨_, rfl, fun h => ?_, ?_⟩
          · dsimp only at h
            omega
          · unfold total signed
            dsimp only
            rw [hsub]
            cases hneg : acc.negative <;> cases negative <;> simp_all <;> omega
        · rw [compare_eq_iff_eq.mpr heq]
          refine ⟨_, rfl, fun _ => rfl, ?_⟩
          unfold total signed
          dsimp only
          rw [value_zero, heq]
          cases hneg : acc.negative <;> cases negative <;> simp_all
        · rw [compare_gt_iff_gt.mpr hgt]
          have hsub := subtractMagnitudes_value hgt.le
          refine ⟨_, rfl, fun h => ?_, ?_⟩
          · dsimp only at h
            omega
          · unfold total signed
            dsimp only
            rw [hsub]
            cases hneg : acc.negative <;> cases negative <;> simp_all <;> omega

/-! ## (3) Adding terms -/

/-- One past the largest term. -/
def termBound : Nat := 2 ^ 554

theorem two_pow_le_termBound {n : Nat} (h : n ≤ 554) : 2 ^ n ≤ termBound := by
  unfold termBound
  exact Nat.pow_le_pow_right (by decide) h

theorem terms_fit : 2 ^ 20 * termBound < capacity := by
  unfold termBound capacity
  rw [← pow_add]
  exact Nat.pow_lt_pow_right (by decide) (by decide)

/-- The call adds `x` to the total, if it fits. -/
def Adds (add : ExactDyadic → Except CubeExecutionError ExactDyadic) (x : ℚ) : Prop :=
  ∃ s : Int, (s : ℚ) = x * 2 ^ 298 ∧ s.natAbs < termBound ∧
    ∀ acc : ExactDyadic, acc.Canonical → acc.total.natAbs + s.natAbs < capacity →
      ∃ acc', add acc = .ok acc' ∧ acc'.Canonical ∧ acc'.total = acc.total + s

theorem adds_nothing : Adds .ok 0 := by
  refine ⟨0, by simp, two_pow_le_termBound (Nat.zero_le _), fun acc hc _ => ⟨acc, rfl, hc, by simp⟩⟩

theorem cast_signed (negative : Bool) (n : Nat) : (signed negative n : ℚ) = Format.sign negative * n := by
  cases negative <;> simp [signed, Format.sign]

theorem natAbs_signed (negative : Bool) (n : Nat) : (signed negative n).natAbs = n := by
  cases negative <;> simp [signed]

theorem sign_mul (a b : Bool) : Format.sign a * Format.sign b = Format.sign (a ^^ b) := by
  cases a <;> cases b <;> simp [Format.sign]

theorem addTerm_adds {significand : UInt64} {scale : Int} (hs : 0 ≤ scale + 298)
    (hb : significand.toNat * 2 ^ (scale + 298).toNat < termBound) :
    Adds (addTerm negative significand (scale + 298).toNat)
      (Format.sign negative * (significand.toNat * 2 ^ scale)) := by
  refine ⟨signed negative (significand.toNat * 2 ^ (scale + 298).toNat), ?_, by rwa [natAbs_signed], ?_⟩
  · have hpow : (2 : ℚ) ^ (scale + 298).toNat = 2 ^ scale * 2 ^ 298 := by
      rw [← zpow_natCast, Int.toNat_of_nonneg hs, zpow_add₀ (by norm_num), zpow_ofNat]
    rw [cast_signed]
    push_cast
    simp only [hpow, mul_assoc]
  · intro acc hc hfits
    rw [natAbs_signed] at hfits
    exact addTerm_spec hc hfits

/-- The terms of a format fit: no scale is below the least, and no product reaches the bound. -/
structure Fits (F : Format) : Prop where
  least : 0 ≤ F.emin + F.emin + 298
  emin_nonpos : F.emin ≤ 0
  greatest : F.precision + (F.emin + (2 ^ F.exponentBits - 3 : Nat)) ≤ 128
  precision : F.precision ≤ 32

theorem binary16_fits : Fits .binary16 := ⟨by decide, by decide, by decide, by decide⟩

theorem bfloat16_fits : Fits .bfloat16 := ⟨by decide, by decide, by decide, by decide⟩

theorem binary32_fits : Fits .binary32 := ⟨by decide, by decide, by decide, by decide⟩

section Terms

variable {F : Format} {parts : BitVec w → BitVec w × Int} {sign : BitVec w}

theorem emin_le_scale (F : Format) (bits : Nat) : F.emin ≤ F.scale bits := by
  unfold Format.scale
  omega

theorem Fits.scale_le (h : Fits F) {bits : Nat} (hb : F.Finite bits) : F.precision + F.scale bits ≤ 128 := by
  have := h.greatest
  unfold Format.Finite at hb
  unfold Format.scale
  omega

theorem Fits.significand_lt (h : Fits F) (bits : Nat) : F.significand bits < 2 ^ 32 :=
  (F.significand_lt bits).trans_le (Nat.pow_le_pow_right (by decide) h.precision)

theorem toNat_ofNat_significand (hr : Reads F parts sign) (h : Fits F) (bits : BitVec w) :
    (UInt64.ofNat (parts bits).1.toNat).toNat = F.significand bits.toNat := by
  rw [hr.significand, UInt64.toNat_ofNat']
  exact Nat.mod_eq_of_lt ((h.significand_lt _).trans (by decide))

theorem addFinite_adds (hr : Reads F parts sign) (h : Fits F) {exponent bits : BitVec w}
    (he : exponent.toNat = F.exponent bits.toNat) (hb : F.Finite bits.toNat) :
    Adds (addFinite parts sign exponent bits) (if F.exponent bits.toNat = 0 then 0 else F.value bits.toNat) := by
  have hz : exponent = 0 ↔ F.exponent bits.toNat = 0 := by
    rw [← he, ← BitVec.toNat_inj]
    simp
  by_cases hzero : exponent = 0
  · rw [if_pos (hz.mp hzero)]
    have hadd : addFinite parts sign exponent bits = .ok := by
      funext acc
      exact if_pos hzero
    rw [hadd]
    exact adds_nothing
  · rw [if_neg (fun h0 => hzero (hz.mpr h0))]
    have hadd : addFinite parts sign exponent bits =
        addTerm (F.negative bits.toNat) (UInt64.ofNat (parts bits).1.toNat) (F.scale bits.toNat + 298).toNat := by
      funext acc
      rw [addFinite, if_neg hzero, hr.negative, hr.scale]
      rfl
    have hlow := emin_le_scale F bits.toNat
    have hhigh := h.scale_le hb
    have hleast := h.least
    have hneg := h.emin_nonpos
    rw [hadd, Format.value, ← toNat_ofNat_significand hr h]
    refine addTerm_adds (by omega) ?_
    rw [toNat_ofNat_significand hr h]
    calc F.significand bits.toNat * 2 ^ (F.scale bits.toNat + 298).toNat
        < 2 ^ F.precision * 2 ^ (F.scale bits.toNat + 298).toNat :=
          Nat.mul_lt_mul_of_pos_right (F.significand_lt _) (Nat.two_pow_pos _)
      _ = 2 ^ (F.precision + (F.scale bits.toNat + 298).toNat) := (pow_add ..).symm
      _ ≤ termBound := two_pow_le_termBound (by omega)

theorem addProduct_adds (hr : Reads F parts sign) (h : Fits F) {first second : BitVec w}
    (h1 : F.Finite first.toNat) (h2 : F.Finite second.toNat) :
    Adds (addProduct parts sign first second) (F.value first.toNat * F.value second.toNat) := by
  have hz : ∀ bits : BitVec w, (parts bits).1 = 0 ↔ F.significand bits.toNat = 0 := by
    intro bits
    rw [← hr.significand, ← BitVec.toNat_inj]
    simp
  by_cases hzero : (parts first).1 = 0 ∨ (parts second).1 = 0
  · have hadd : addProduct parts sign first second = .ok := by
      funext acc
      exact if_pos hzero
    have hvalue : F.value first.toNat * F.value second.toNat = 0 := by
      rw [mul_eq_zero]
      refine hzero.imp (fun h0 => ?_) fun h0 => ?_
      all_goals rw [Format.value, (hz _).mp h0]; simp
    rw [hadd, hvalue]
    exact adds_nothing
  · have hlow1 := emin_le_scale F first.toNat
    have hlow2 := emin_le_scale F second.toNat
    have hhigh1 := h.scale_le h1
    have hhigh2 := h.scale_le h2
    have hleast := h.least
    have hsig : (UInt64.ofNat (parts first).1.toNat * UInt64.ofNat (parts second).1.toNat).toNat =
        F.significand first.toNat * F.significand second.toNat := by
      rw [UInt64.toNat_mul, toNat_ofNat_significand hr h, toNat_ofNat_significand hr h]
      refine Nat.mod_eq_of_lt ?_
      calc F.significand first.toNat * F.significand second.toNat
          < 2 ^ 32 * 2 ^ 32 := Nat.mul_lt_mul'' (h.significand_lt _) (h.significand_lt _)
        _ = 2 ^ 64 := by rw [← pow_add]
    have hsign : ((first ^^^ second) &&& sign != 0) = (F.negative first.toNat ^^ F.negative second.toNat) := by
      rw [hr.negative, BitVec.toNat_xor]
      exact Nat.testBit_xor ..
    have hadd : addProduct parts sign first second =
        addTerm (F.negative first.toNat ^^ F.negative second.toNat)
          (UInt64.ofNat (parts first).1.toNat * UInt64.ofNat (parts second).1.toNat)
          (F.scale first.toNat + F.scale second.toNat + 298).toNat := by
      funext acc
      rw [← hsign, ← hr.scale, ← hr.scale]
      exact if_neg hzero
    have hvalue : F.value first.toNat * F.value second.toNat =
        Format.sign (F.negative first.toNat ^^ F.negative second.toNat) *
          ((UInt64.ofNat (parts first).1.toNat * UInt64.ofNat (parts second).1.toNat).toNat *
            2 ^ (F.scale first.toNat + F.scale second.toNat)) := by
      rw [hsig, ← sign_mul, zpow_add₀ (by norm_num), Format.value, Format.value]
      push_cast
      ring
    rw [hadd, hvalue]
    refine addTerm_adds (by omega) ?_
    rw [hsig]
    calc F.significand first.toNat * F.significand second.toNat *
          2 ^ (F.scale first.toNat + F.scale second.toNat + 298).toNat
        < 2 ^ F.precision * 2 ^ F.precision * 2 ^ (F.scale first.toNat + F.scale second.toNat + 298).toNat :=
          Nat.mul_lt_mul_of_pos_right (Nat.mul_lt_mul'' (F.significand_lt _) (F.significand_lt _)) (Nat.two_pow_pos _)
      _ = 2 ^ (F.precision + F.precision + (F.scale first.toNat + F.scale second.toNat + 298).toNat) := by
          rw [pow_add, pow_add]
      _ ≤ termBound := two_pow_le_termBound (by omega)

end Terms

end ExactDyadic

namespace Accumulation

open ExactDyadic

/-- The number that a word of the format adds alone: subnormal words count as zero. -/
def normalValue (F : Format) (bits : Nat) : ℚ := if F.exponent bits = 0 then 0 else F.value bits

/-- The number that a call adds. -/
def value : Accumulation → ℚ
  | .f16 bits => normalValue .binary16 bits.toNat
  | .f32 bits => normalValue .binary32 bits.toNat
  | .f16Product first second => Format.binary16.value first.toNat * Format.binary16.value second.toNat
  | .bf16Product first second => Format.bfloat16.value first.toNat * Format.bfloat16.value second.toNat
  | .f32Product first second => Format.binary32.value first.toNat * Format.binary32.value second.toNat

def Finite : Accumulation → Prop
  | .f16 bits => Format.binary16.Finite bits.toNat
  | .f32 bits => Format.binary32.Finite bits.toNat
  | .f16Product first second => Format.binary16.Finite first.toNat ∧ Format.binary16.Finite second.toNat
  | .bf16Product first second => Format.bfloat16.Finite first.toNat ∧ Format.bfloat16.Finite second.toNat
  | .f32Product first second => Format.binary32.Finite first.toNat ∧ Format.binary32.Finite second.toNat

theorem add_adds {term : Accumulation} (h : term.Finite) : Adds term.add term.value := by
  cases term with
  | f16 bits => exact addFinite_adds f16_reads binary16_fits (field_eq (n := 5) (by decide)) h
  | f32 bits =>
    refine addFinite_adds f32_reads binary32_fits ?_ h
    rw [BitVec.toNat_and, BitVec.toNat_ushiftRight, Nat.shiftRight_eq_div_pow]
    exact Nat.and_two_pow_sub_one_eq_mod _ 8
  | f16Product first second => exact addProduct_adds f16_reads binary16_fits h.1 h.2
  | bf16Product first second => exact addProduct_adds bf16_reads bfloat16_fits h.1 h.2
  | f32Product first second => exact addProduct_adds f32_reads binary32_fits h.1 h.2

end Accumulation

/-- The sum of the terms. -/
def sum (terms : List Accumulation) : ℚ := (terms.map Accumulation.value).sum

/-- A run of additions that fits adds the sum of its terms. -/
theorem foldlM_total (terms : List Accumulation) (hf : ∀ term ∈ terms, term.Finite) {acc : ExactDyadic}
    (hc : acc.Canonical)
    (hfits : acc.total.natAbs + terms.length * ExactDyadic.termBound < ExactDyadic.capacity) :
    ∃ acc', terms.foldlM (fun acc term => term.add acc) acc = .ok acc' ∧ acc'.Canonical ∧
      (acc'.total : ℚ) = acc.total + sum terms * 2 ^ 298 := by
  induction terms generalizing acc with
  | nil => exact ⟨acc, rfl, hc, by simp [sum]⟩
  | cons term terms ih =>
    obtain ⟨s, hs, hsmall, hadd⟩ := Accumulation.add_adds (hf term List.mem_cons_self)
    rw [List.length_cons, Nat.add_mul, Nat.one_mul] at hfits
    obtain ⟨next, hnext, hcn, htotal⟩ := hadd acc hc (by omega)
    have hnatAbs : next.total.natAbs ≤ acc.total.natAbs + s.natAbs := htotal ▸ Int.natAbs_add_le _ _
    obtain ⟨acc', hacc', hc', ht'⟩ := ih (fun t ht => hf t (List.mem_cons_of_mem _ ht)) hcn (by omega)
    refine ⟨acc', ?_, hc', ?_⟩
    · rw [List.foldlM_cons, hnext]
      exact hacc'
    · rw [ht', htotal, sum, sum, List.map_cons, List.sum_cons]
      push_cast
      rw [hs, add_mul, add_assoc]

theorem default_canonical : ExactDyadic.default.Canonical := fun _ => rfl

theorem default_total : ExactDyadic.default.total = 0 := by
  have := ExactDyadic.natAbs_total .default
  rw [ExactDyadic.default, ExactDyadic.value_zero] at this
  exact Int.natAbs_eq_zero.mp this

theorem accumulate_total {terms : List Accumulation} (hn : terms.length ≤ 2 ^ 20) (hf : ∀ term ∈ terms, term.Finite) :
    ∃ acc, accumulate terms = .ok acc ∧ acc.Canonical ∧ (acc.total : ℚ) = sum terms * 2 ^ 298 := by
  have hfits : ExactDyadic.default.total.natAbs + terms.length * ExactDyadic.termBound < ExactDyadic.capacity := by
    rw [default_total, Int.natAbs_zero, Nat.zero_add]
    exact (Nat.mul_le_mul_right _ hn).trans_lt ExactDyadic.terms_fit
  obtain ⟨acc, hacc, hc, ht⟩ := foldlM_total terms hf default_canonical hfits
  refine ⟨acc, hacc, hc, ?_⟩
  rw [ht, default_total, Int.cast_zero, zero_add]

/-! ## (4) Rounding -/

/-- `bits` and `status` are what a rounder to `F` gives for `x`: it flushes what rounds below the smallest normal
number, and gives `overflow` for what rounds above the largest finite one. -/
def Rounded (F : Format) (overflow : Nat) (x : ℚ) (negativeZero : Bool) (bits : Nat) (status : CubeFpStatus) : Prop :=
  if x = 0 then bits = F.word negativeZero 0 0 ∧ status = .default
  else ∃ y, NearestEven F.precision F.emin x y ∧
    if |y| < F.minNormal then
      bits = F.word (decide (x < 0)) 0 0 ∧ status = { CubeFpStatus.default with underflow := true }
    else if F.maxFinite < |y| then
      bits = F.word (decide (x < 0)) 0 0 + overflow ∧ status = { CubeFpStatus.default with overflow := true }
    else F.Finite bits ∧ F.value bits = y ∧ status = .default

/-- The constants of a rounder are those of the format, the magnitude being in units of 2^-298. -/
structure RoundTarget.Of (target : RoundTarget w) (F : Format) : Prop where
  width : w = F.fractionBits + F.exponentBits + 1
  narrow : w ≤ 64
  fraction_pos : 0 < F.fractionBits
  exponent_two : 2 ≤ F.exponentBits
  quantum_pos : 0 < target.subnormalQuantumBit
  fractionBits : target.fractionBits = F.fractionBits
  fractionMask : target.fractionMask.toNat = 2 ^ F.fractionBits - 1
  signBit : target.signBit = F.fractionBits + F.exponentBits
  quantum : (target.subnormalQuantumBit : Int) = F.emin + 298
  minNormal : target.minNormalBit = target.subnormalQuantumBit + F.fractionBits
  offset : target.rawExponentOffset + 1 = target.minNormalBit
  limit : target.rawExponentLimit = 2 ^ F.exponentBits - 1

theorem f32Target_of : f32Target.Of .binary32 :=
  ⟨by decide, by decide, by decide, by decide, by decide, rfl, by decide, rfl, by decide, rfl, rfl, by decide⟩

theorem f16Target_of : f16Target.Of .binary16 :=
  ⟨by decide, by decide, by decide, by decide, by decide, rfl, by decide, rfl, by decide, rfl, rfl, by decide⟩

namespace ExactDyadic

section Rounding

variable {F : Format} {target : RoundTarget w} {overflow : BitVec w} {negativeZero : Bool} {acc : ExactDyadic}

theorem toNat_one (h : 0 < w) : (1 : BitVec w).toNat = 1 := by
  show (BitVec.ofNat w 1).toNat = 1
  rw [BitVec.toNat_ofNat]
  exact Nat.mod_eq_of_lt (Nat.one_lt_two_pow (by omega))

theorem toNat_one_shiftLeft {n : Nat} (h : n < w) : ((1 : BitVec w) <<< n).toNat = 2 ^ n := by
  have hw : 2 ^ n < 2 ^ w := Nat.pow_lt_pow_right (by decide) h
  rw [BitVec.toNat_shiftLeft, toNat_one (by omega), Nat.shiftLeft_eq, Nat.one_mul, Nat.mod_eq_of_lt hw]

theorem roundedPart_toNat {d : Nat} (hw : 0 < w) (hw64 : w ≤ 64) (hd : 0 < d)
    (hlt : acc.magnitude.value / 2 ^ d + 1 < 2 ^ w) :
    (acc.roundedPart w d).toNat = roundedShift acc.magnitude.value d := by
  have hpow : 2 ^ w ≤ 2 ^ 64 := Nat.pow_le_pow_right (by decide) hw64
  have hpart : (BitVec.ofNat w (Limbs.lowAfterShift acc.magnitude.limbs d).toNat).toNat =
      acc.magnitude.value / 2 ^ d := by
    have hv : Limbs.value acc.magnitude.limbs = acc.magnitude.value := rfl
    rw [BitVec.toNat_ofNat, Limbs.lowAfterShift_eq, hv, Nat.mod_eq_of_lt (b := 2 ^ 64) (by omega),
      Nat.mod_eq_of_lt (by omega)]
  have hodd : (BitVec.ofNat w (Limbs.lowAfterShift acc.magnitude.limbs d).toNat &&& 1 != 0) =
      decide (acc.magnitude.value / 2 ^ d % 2 ≠ 0) := by
    rw [bne_zero_eq_testBit (i := 0) (toNat_one hw), hpart, Nat.testBit_zero]
    congr 1
    rw [eq_iff_iff]
    omega
  unfold roundedPart roundedShift
  dsimp only
  rw [hodd, Limbs.bit_eq, Limbs.anyBitsBelow_eq]
  change _ = _ + (acc.magnitude.value.testBit (d - 1) && (decide (acc.magnitude.value % 2 ^ (d - 1) ≠ 0) ||
    decide (acc.magnitude.value / 2 ^ d % 2 ≠ 0))).toNat
  have hround : ∀ round : Bool,
      (if d ≠ 0 ∧ round = true then BitVec.ofNat w (Limbs.lowAfterShift acc.magnitude.limbs d).toNat + 1
        else BitVec.ofNat w (Limbs.lowAfterShift acc.magnitude.limbs d).toNat).toNat =
      acc.magnitude.value / 2 ^ d + round.toNat := by
    intro round
    cases round with
    | false => rw [if_neg (by simp), hpart]; rfl
    | true =>
      rw [if_pos ⟨hd.ne', rfl⟩, BitVec.toNat_add, hpart, toNat_one hw, Nat.mod_eq_of_lt hlt]
      rfl
  exact hround _

/-- A sign bit beside the other fields. -/
theorem toNat_sign_or (ht : target.Of F) (negative : Bool) {fields : BitVec w}
    (hf : fields.toNat < 2 ^ (F.fractionBits + F.exponentBits)) :
    (BitVec.ofNat w negative.toNat <<< target.signBit ||| fields).toNat =
      2 ^ (F.fractionBits + F.exponentBits) * negative.toNat + fields.toNat := by
  have hb : negative.toNat < 2 ^ w := (Bool.toNat_lt negative).trans_le (Nat.le_self_pow (by have := ht.width; omega) 2)
  have hs : 2 ^ (F.fractionBits + F.exponentBits) * negative.toNat < 2 ^ w := by
    rw [ht.width, pow_succ]
    exact Nat.mul_lt_mul_of_pos_left (Bool.toNat_lt negative) (Nat.two_pow_pos _)
  rw [BitVec.toNat_or, BitVec.toNat_shiftLeft, BitVec.toNat_ofNat, Nat.mod_eq_of_lt hb, ht.signBit, Nat.shiftLeft_eq,
    Nat.mul_comm, Nat.mod_eq_of_lt hs, Nat.two_pow_add_eq_or_of_lt hf]

theorem toNat_sign (ht : target.Of F) (negative : Bool) :
    (BitVec.ofNat w negative.toNat <<< target.signBit).toNat = F.word negative 0 0 := by
  have h : (BitVec.ofNat w negative.toNat <<< target.signBit ||| 0#w).toNat = _ := toNat_sign_or ht negative (by simp)
  rw [BitVec.or_zero] at h
  rw [h]
  simp [Format.word]

theorem toNat_fields (ht : target.Of F) (negative : Bool) {exponent : Nat} (significand : BitVec w)
    (he : exponent < 2 ^ F.exponentBits) :
    (BitVec.ofNat w negative.toNat <<< target.signBit ||| BitVec.ofNat w exponent <<< target.fractionBits |||
      significand &&& target.fractionMask).toNat =
    F.word negative exponent (significand.toNat % 2 ^ F.fractionBits) := by
  have hmask : (significand &&& target.fractionMask).toNat = significand.toNat % 2 ^ F.fractionBits := by
    rw [BitVec.toNat_and, ht.fractionMask, Nat.and_two_pow_sub_one_eq_mod]
  have hfrac : significand.toNat % 2 ^ F.fractionBits < 2 ^ F.fractionBits := Nat.mod_lt _ (Nat.two_pow_pos _)
  have hfield := F.field_lt he hfrac
  have hpw : 2 ^ (F.fractionBits + F.exponentBits) < 2 ^ w := Nat.pow_lt_pow_right (by decide) (by have := ht.width; omega)
  have hew : exponent < 2 ^ w := he.trans (Nat.pow_lt_pow_right (by decide) (by have := ht.width; omega))
  have hexp : (BitVec.ofNat w exponent <<< target.fractionBits).toNat = 2 ^ F.fractionBits * exponent := by
    rw [BitVec.toNat_shiftLeft, BitVec.toNat_ofNat, Nat.mod_eq_of_lt hew, ht.fractionBits, Nat.shiftLeft_eq,
      Nat.mul_comm, Nat.mod_eq_of_lt (by omega)]
  have hor : (BitVec.ofNat w exponent <<< target.fractionBits ||| significand &&& target.fractionMask).toNat =
      2 ^ F.fractionBits * exponent + significand.toNat % 2 ^ F.fractionBits := by
    rw [BitVec.toNat_or, hexp, hmask, Nat.two_pow_add_eq_or_of_lt hfrac]
  rw [BitVec.or_assoc, toNat_sign_or ht negative (by rw [hor]; exact hfield), hor]
  rfl

/-- A word of the number nearest to `x`, which is normal. -/
theorem rounded_word {x : ℚ} {bound : Nat} (hx : x ≠ 0) (negative : Bool) {significand exponent : Nat}
    (hlow : 2 ^ F.fractionBits ≤ significand) (htop : significand < 2 ^ F.precision) (hpos : exponent ≠ 0)
    (hfinite : exponent < 2 ^ F.exponentBits - 1)
    (hnear : NearestEven F.precision F.emin x
      (Format.sign negative * (significand * 2 ^ (F.emin + (exponent - 1 : Nat))))) :
    Rounded F bound x negativeZero (F.word negative exponent (significand % 2 ^ F.fractionBits)) .default := by
  have hfrac : significand % 2 ^ F.fractionBits < 2 ^ F.fractionBits := Nat.mod_lt _ (Nat.two_pow_pos _)
  have he : exponent < 2 ^ F.exponentBits := by omega
  have hexp := Format.exponent_word negative he hfrac
  have hvalue := Format.value_word negative he hpos hlow htop
  have hf : F.Finite (F.word negative exponent (significand % 2 ^ F.fractionBits)) := by
    rw [Format.Finite, hexp]
    exact hfinite
  have hnormal := F.minNormal_le (hexp.symm ▸ hpos)
  have hmax := F.abs_value_le hf
  rw [hvalue] at hnormal hmax
  unfold Rounded
  rw [if_neg hx]
  refine ⟨_, hnear, ?_⟩
  rw [if_neg hnormal.not_gt, if_neg hmax.not_gt]
  exact ⟨hf, hvalue, rfl⟩

theorem abs_sign_mul (negative : Bool) (n : Nat) (e : Int) :
    |Format.sign negative * (n * 2 ^ e : ℚ)| = n * 2 ^ e := by
  rw [abs_mul, Format.abs_sign, one_mul, abs_of_nonneg (by positivity)]

theorem minNormal_eq (F : Format) : F.minNormal = 2 ^ F.fractionBits * 2 ^ F.emin := by
  rw [Format.minNormal, zpow_add₀ (by norm_num), mul_comm, zpow_natCast]

/-- What rounds to no less than the smallest normal number. -/
theorem rounded_normal (ht : target.Of F) (ho : overflow.toNat < 2 ^ (F.fractionBits + F.exponentBits)) {x : ℚ}
    (hx : x ≠ 0) {negative : Bool} (hneg : negative = decide (x < 0)) {significand : BitVec w} {rawExponent : Nat}
    (hlow : 2 ^ F.fractionBits ≤ significand.toNat) (htop : significand.toNat < 2 ^ F.precision) (hraw : rawExponent ≠ 0)
    (hnear : NearestEven F.precision F.emin x
      (Format.sign negative * (significand.toNat * 2 ^ (F.emin + (rawExponent - 1 : Nat))))) :
    let sign : BitVec w := BitVec.ofNat w negative.toNat <<< target.signBit
    let r : BitVec w × CubeFpStatus :=
      if target.rawExponentLimit ≤ rawExponent then
        (sign ||| overflow, { CubeFpStatus.default with overflow := true })
      else
        (sign ||| BitVec.ofNat w rawExponent <<< target.fractionBits ||| significand &&& target.fractionMask, .default)
    Rounded F overflow.toNat x negativeZero r.1.toNat r.2 := by
  have htwo : 4 ≤ 2 ^ F.exponentBits := Nat.pow_le_pow_right (n := 2) (by decide) ht.exponent_two
  have hlowq : (2 : ℚ) ^ F.fractionBits ≤ significand.toNat := by exact_mod_cast hlow
  intro sign r
  by_cases hlimit : target.rawExponentLimit ≤ rawExponent
  · have hbig : F.maxFinite < significand.toNat * 2 ^ (F.emin + (rawExponent - 1 : Nat)) := by
      have hstep : (2 : ℚ) ^ (F.emin + (2 ^ F.exponentBits - 3 : Nat) + 1) ≤ 2 ^ (F.emin + (rawExponent - 1 : Nat)) := by
        rw [ht.limit] at hlimit
        exact zpow_le_zpow_right₀ (by norm_num) (by omega)
      calc F.maxFinite < 2 ^ F.precision * 2 ^ (F.emin + (2 ^ F.exponentBits - 3 : Nat)) :=
            mul_lt_mul_of_pos_right (by linarith) (by positivity)
        _ = 2 ^ F.fractionBits * 2 ^ (F.emin + (2 ^ F.exponentBits - 3 : Nat) + 1) := by
            rw [Format.precision, pow_succ, zpow_add_one₀ (by norm_num)]
            ring
        _ ≤ significand.toNat * 2 ^ (F.emin + (rawExponent - 1 : Nat)) :=
            mul_le_mul hlowq hstep (by positivity) (by positivity)
    have hnormal : F.minNormal ≤ significand.toNat * 2 ^ (F.emin + (rawExponent - 1 : Nat)) := by
      rw [minNormal_eq]
      exact mul_le_mul hlowq (zpow_le_zpow_right₀ (by norm_num) (by omega)) (by positivity) (by positivity)
    have hr : r = (sign ||| overflow, { CubeFpStatus.default with overflow := true }) := if_pos hlimit
    unfold Rounded
    rw [if_neg hx]
    refine ⟨_, hnear, ?_⟩
    rw [abs_sign_mul, if_neg hnormal.not_gt, if_pos hbig, hr, ← hneg]
    refine ⟨?_, rfl⟩
    dsimp only
    rw [toNat_sign_or ht negative ho, Format.word]
    simp
  · have hr : r = (sign ||| BitVec.ofNat w rawExponent <<< target.fractionBits ||| significand &&& target.fractionMask,
        .default) := if_neg hlimit
    rw [ht.limit] at hlimit
    rw [hr]
    dsimp only
    rw [toNat_fields ht negative significand (by omega)]
    exact rounded_word hx negative hlow htop hraw (by omega) hnear

/-- What rounds to less than the smallest normal number, or just to it. -/
theorem rounded_subnormal (ht : target.Of F) {x : ℚ} (hx : x ≠ 0) {negative : Bool} (hneg : negative = decide (x < 0))
    {fraction : BitVec w} (htop : fraction.toNat ≤ 2 ^ F.fractionBits)
    (hnear : NearestEven F.precision F.emin x (Format.sign negative * (fraction.toNat * 2 ^ F.emin))) :
    let sign : BitVec w := BitVec.ofNat w negative.toNat <<< target.signBit
    let minNormal := (1 : BitVec w) <<< target.fractionBits
    let r : BitVec w × CubeFpStatus :=
      if fraction = minNormal then (sign ||| minNormal, .default)
      else (sign, { CubeFpStatus.default with underflow := true })
    Rounded F overflow.toNat x negativeZero r.1.toNat r.2 := by
  have hone : ((1 : BitVec w) <<< target.fractionBits).toNat = 2 ^ F.fractionBits := by
    rw [toNat_one_shiftLeft (by rw [ht.fractionBits, ht.width]; omega), ht.fractionBits]
  intro sign minNormal r
  by_cases hcarry : fraction = minNormal
  · have hr : r = (sign ||| minNormal, .default) := if_pos hcarry
    have hn : fraction.toNat = 2 ^ F.fractionBits := by rw [hcarry, hone]
    have htwo : 4 ≤ 2 ^ F.exponentBits := Nat.pow_le_pow_right (n := 2) (by decide) ht.exponent_two
    have hlt : minNormal.toNat < 2 ^ (F.fractionBits + F.exponentBits) := by
      rw [hone]
      exact Nat.pow_lt_pow_right (by decide) (by have := ht.exponent_two; omega)
    have hword : (sign ||| minNormal).toNat = F.word negative 1 (fraction.toNat % 2 ^ F.fractionBits) := by
      rw [toNat_sign_or ht negative hlt, hone, hn, Nat.mod_self, Format.word, Nat.mul_one, Nat.add_zero]
    rw [hr]
    dsimp only
    rw [hword]
    refine rounded_word hx negative hn.ge ?_ (by decide) (by omega) (by simpa using hnear)
    rw [hn]
    exact Nat.pow_lt_pow_right (by decide) (Nat.lt_succ_self _)
  · have hr : r = (sign, { CubeFpStatus.default with underflow := true }) := if_neg hcarry
    have hlt : fraction.toNat < 2 ^ F.fractionBits :=
      lt_of_le_of_ne htop fun h => hcarry (BitVec.toNat_inj.mp (h.trans hone.symm))
    have hsmall : |Format.sign negative * (fraction.toNat * 2 ^ F.emin : ℚ)| < F.minNormal := by
      rw [abs_sign_mul, minNormal_eq]
      exact mul_lt_mul_of_pos_right (by exact_mod_cast hlt) (by positivity)
    unfold Rounded
    rw [if_neg hx]
    refine ⟨_, hnear, ?_⟩
    rw [if_pos hsmall, hr, ← hneg]
    exact ⟨toNat_sign ht negative, rfl⟩

theorem total_eq (acc : ExactDyadic) :
    (acc.total : ℚ) / 2 ^ 298 = Format.sign acc.negative * (acc.magnitude.value / 2 ^ 298) := by
  rw [← mul_div_assoc]
  congr 1
  exact cast_signed acc.negative acc.magnitude.value

theorem negative_eq (hz : acc.magnitude.value ≠ 0) : acc.negative = decide ((acc.total : ℚ) / 2 ^ 298 < 0) := by
  have hpos : (0 : ℚ) < acc.magnitude.value / 2 ^ 298 :=
    div_pos (by exact_mod_cast Nat.pos_of_ne_zero hz) (by positivity)
  rw [total_eq]
  cases acc.negative <;> simp [Format.sign, hpos, hpos.le]

theorem total_ne_zero (hz : acc.magnitude.value ≠ 0) : (acc.total : ℚ) / 2 ^ 298 ≠ 0 := by
  have hne : acc.total ≠ 0 := by
    rw [← Int.natAbs_ne_zero, natAbs_total]
    exact hz
  exact div_ne_zero (by exact_mod_cast hne) (by positivity)

/-- A magnitude is rounded, then given its sign. -/
theorem nearest_total {n : Nat} {e : Int}
    (h : NearestEven F.precision F.emin (acc.magnitude.value / 2 ^ 298) (n * 2 ^ e)) :
    NearestEven F.precision F.emin (acc.total / 2 ^ 298) (Format.sign acc.negative * (n * 2 ^ e)) := by
  rw [total_eq]
  exact h.sign acc.negative

/-- Below the least normal bit, at the scale of the subnormals. -/
theorem subnormal_part (ht : target.Of F) (hbit : acc.magnitude.value.log2 < target.minNormalBit) :
    (acc.roundedPart w target.subnormalQuantumBit).toNat ≤ 2 ^ F.fractionBits ∧
    NearestEven F.precision F.emin (acc.total / 2 ^ 298)
      (Format.sign acc.negative * ((acc.roundedPart w target.subnormalQuantumBit).toNat * 2 ^ F.emin)) := by
  have hquantum := ht.quantum
  have hminNormal := ht.minNormal
  have hwidth := ht.width
  have hprecision : 2 ≤ F.precision := Nat.succ_le_succ ht.fraction_pos
  have hlt : acc.magnitude.value < 2 ^ (F.fractionBits + target.subnormalQuantumBit) :=
    Nat.lt_log2_self.trans_le (Nat.pow_le_pow_right (by decide) (by omega))
  have hpart : acc.magnitude.value / 2 ^ target.subnormalQuantumBit < 2 ^ F.fractionBits := by
    rw [Nat.div_lt_iff_lt_mul (Nat.two_pow_pos _), ← pow_add]
    exact hlt
  have hfits : 2 ^ F.fractionBits < 2 ^ w := Nat.pow_lt_pow_right (by decide) (by omega)
  have hround : (acc.roundedPart w target.subnormalQuantumBit).toNat =
      roundedShift acc.magnitude.value target.subnormalQuantumBit :=
    roundedPart_toNat (by omega) ht.narrow ht.quantum_pos (by omega)
  have hle := roundedShift_le acc.magnitude.value target.subnormalQuantumBit
  have hemin : (target.subnormalQuantumBit : Int) - (298 : Nat) = F.emin := by omega
  have hnear := nearestEven_shift (m := acc.magnitude.value) (u := 298) hprecision ht.quantum_pos
    (hlt.trans (Nat.pow_lt_pow_right (by decide) (by rw [Format.precision]; omega))) (.inr hemin) hemin.ge
  rw [hemin, ← hround] at hnear
  exact ⟨by omega, nearest_total hnear⟩

/-- From the least normal bit on, at the scale of the highest bit, which is `d` above that of the fraction. -/
theorem normal_part (ht : target.Of F) (hz : acc.magnitude.value ≠ 0) {d : Nat}
    (hbit : target.minNormalBit ≤ acc.magnitude.value.log2) (hd : acc.magnitude.value.log2 = F.fractionBits + d) :
    2 ^ F.fractionBits ≤ (acc.roundedPart w d).toNat ∧ (acc.roundedPart w d).toNat ≤ 2 ^ F.precision ∧
    NearestEven F.precision F.emin (acc.total / 2 ^ 298)
      (Format.sign acc.negative * ((acc.roundedPart w d).toNat * 2 ^ ((d : Int) - (298 : Nat)))) := by
  have hquantum := ht.quantum
  have hminNormal := ht.minNormal
  have hquantum_pos := ht.quantum_pos
  have hwidth := ht.width
  have hexponent := ht.exponent_two
  have hprecision : 2 ≤ F.precision := Nat.succ_le_succ ht.fraction_pos
  have hlow : 2 ^ (F.fractionBits + d) ≤ acc.magnitude.value := hd ▸ Nat.log2_self_le hz
  have htop : acc.magnitude.value < 2 ^ (F.precision + d) := by
    have h : acc.magnitude.value < 2 ^ (F.fractionBits + d + 1) := hd ▸ Nat.lt_log2_self
    rwa [show F.fractionBits + d + 1 = F.precision + d by rw [Format.precision]; omega] at h
  have hpartTop : acc.magnitude.value / 2 ^ d < 2 ^ F.precision := by
    rw [Nat.div_lt_iff_lt_mul (Nat.two_pow_pos _), ← pow_add]
    exact htop
  have hpartLow : 2 ^ F.fractionBits ≤ acc.magnitude.value / 2 ^ d := by
    rw [Nat.le_div_iff_mul_le (Nat.two_pow_pos _), ← pow_add]
    exact hlow
  have hfits : 2 ^ F.precision < 2 ^ w := Nat.pow_lt_pow_right (by decide) (by rw [Format.precision]; omega)
  have hround : (acc.roundedPart w d).toNat = roundedShift acc.magnitude.value d :=
    roundedPart_toNat (by omega) ht.narrow (by omega) (by omega)
  have hle := roundedShift_le acc.magnitude.value d
  have hge := le_roundedShift acc.magnitude.value d
  have he : F.emin ≤ (d : Int) - (298 : Nat) := by omega
  have hnear := nearestEven_shift (m := acc.magnitude.value) (u := 298) hprecision (by omega) htop
    (.inl (by rw [Format.precision, Nat.add_sub_cancel]; exact hlow)) he
  rw [← hround] at hnear hle hge
  exact ⟨by omega, by omega, nearest_total hnear⟩

/-- The rounders give the number nearest to the sum. -/
theorem roundTo_rounded (ht : target.Of F) (ho : overflow.toNat < 2 ^ (F.fractionBits + F.exponentBits))
    (acc : ExactDyadic) (negativeZero : Bool) :
    Rounded F overflow.toNat (acc.total / 2 ^ 298) negativeZero (acc.roundTo target overflow negativeZero).1.toNat
      (acc.roundTo target overflow negativeZero).2 := by
  have hlimbs : Limbs.value acc.magnitude.limbs = acc.magnitude.value := rfl
  unfold roundTo
  rw [Limbs.highestBit_eq, isZero_eq, hlimbs]
  by_cases hz : acc.magnitude.value = 0
  · rw [if_pos hz, decide_eq_true hz, if_pos rfl, total_eq, hz]
    unfold Rounded
    rw [if_pos (by simp)]
    exact ⟨toNat_sign ht negativeZero, rfl⟩
  · have hx := total_ne_zero hz
    have hneg := negative_eq hz
    rw [if_neg hz, decide_eq_false hz]
    by_cases hbit : acc.magnitude.value.log2 < target.minNormalBit
    · obtain ⟨hle, hnear⟩ := subnormal_part ht hbit
      simp only [if_pos hbit]
      exact rounded_subnormal ht hx hneg hle hnear
    · have hquantum := ht.quantum
      have hminNormal := ht.minNormal
      have hoffset := ht.offset
      have hfb := ht.fractionBits
      obtain ⟨d, hd⟩ : ∃ d, acc.magnitude.value.log2 = F.fractionBits + d :=
        ⟨acc.magnitude.value.log2 - F.fractionBits, by omega⟩
      have hdiscard : acc.magnitude.value.log2 - target.fractionBits = d := by omega
      obtain ⟨hge, hle, hnear⟩ := normal_part (w := w) ht hz (Nat.not_lt.mp hbit) hd
      simp only [if_neg hbit, hdiscard]
      have hone : ((1 : BitVec w) <<< (target.fractionBits + 1)).toNat = 2 ^ F.precision := by
        have hwidth := ht.width
        have hexponent := ht.exponent_two
        rw [toNat_one_shiftLeft (by omega), hfb, Format.precision]
      by_cases hcarry : acc.roundedPart w d = (1 : BitVec w) <<< (target.fractionBits + 1)
      · -- the significand carries out: half of it, one exponent up
        have hn : (acc.roundedPart w d).toNat = 2 ^ F.precision := by rw [hcarry, hone]
        have hhalf : (acc.roundedPart w d >>> 1).toNat = 2 ^ F.fractionBits := by
          rw [BitVec.toNat_ushiftRight, hn, Nat.shiftRight_eq_div_pow, pow_one, Format.precision, pow_succ,
            Nat.mul_div_cancel _ (by decide)]
        have hexp : F.emin + (acc.magnitude.value.log2 + 1 - target.rawExponentOffset - 1 : Nat) =
            (d : Int) - (298 : Nat) + 1 := by omega
        have hsame : ((acc.roundedPart w d >>> 1).toNat : ℚ) *
            2 ^ (F.emin + (acc.magnitude.value.log2 + 1 - target.rawExponentOffset - 1 : Nat)) =
            (acc.roundedPart w d).toNat * 2 ^ ((d : Int) - (298 : Nat)) := by
          rw [hexp, hhalf, hn, Format.precision, zpow_add_one₀ (by norm_num)]
          push_cast
          ring
        simp only [if_pos hcarry]
        refine rounded_normal ht ho hx hneg hhalf.ge ?_ (by omega) (by rw [hsame]; exact hnear)
        rw [hhalf]
        exact Nat.pow_lt_pow_right (by decide) (Nat.lt_succ_self _)
      · have hn : (acc.roundedPart w d).toNat ≠ 2 ^ F.precision := fun h => hcarry (BitVec.toNat_inj.mp (h.trans hone.symm))
        have hexp : F.emin + (acc.magnitude.value.log2 - target.rawExponentOffset - 1 : Nat) = (d : Int) - (298 : Nat) := by
          omega
        simp only [if_neg hcarry]
        exact rounded_normal ht ho hx hneg hge (by omega) (by omega) (by rw [hexp]; exact hnear)

end Rounding

end ExactDyadic

/-! ## The accumulator -/

theorem sum_perm {terms terms' : List Accumulation} (h : terms'.Perm terms) : sum terms' = sum terms :=
  (h.map Accumulation.value).sum_eq

/-- The clamped result is the largest finite number. -/
theorem f32MaxFinite_value : Format.binary32.value f32MaxFinite.toNat = Format.binary32.maxFinite := by
  have hnegative : Format.binary32.negative f32MaxFinite.toNat = false := by decide
  have hsignificand : Format.binary32.significand f32MaxFinite.toNat = 2 ^ Format.binary32.precision - 1 := by decide
  have hscale : Format.binary32.scale f32MaxFinite.toNat =
      Format.binary32.emin + (2 ^ Format.binary32.exponentBits - 3 : Nat) := by decide
  rw [Format.value, hnegative, hsignificand, hscale, Format.maxFinite, Nat.cast_sub Nat.one_le_two_pow]
  simp [Format.sign]

/-- A run of additions never overflows, holds its exact sum whatever the order, and rounds that sum. -/
theorem accumulate_rounds {terms : List Accumulation} (hn : terms.length ≤ 2 ^ 20) (hf : ∀ term ∈ terms, term.Finite) :
    ∃ acc, accumulate terms = .ok acc ∧
      (acc.magnitude.value : ℚ) = |sum terms| * 2 ^ 298 ∧ (acc.negative = true ↔ sum terms < 0) ∧
      (∀ negativeZero, Rounded .binary32 f32MaxFinite.toNat (sum terms) negativeZero
        (acc.roundF32 negativeZero).1.toNat (acc.roundF32 negativeZero).2) ∧
      Format.binary32.value f32MaxFinite.toNat = Format.binary32.maxFinite ∧
      (∀ negativeZero mode, Rounded .binary16 mode.overflowWord.toNat (sum terms) negativeZero
        (acc.roundF16 negativeZero mode).1.toNat (acc.roundF16 negativeZero mode).2) ∧
      ∀ terms', terms'.Perm terms → accumulate terms' = .ok acc := by
  obtain ⟨acc, hacc, hc, ht⟩ := accumulate_total hn hf
  have hsum : sum terms = acc.total / 2 ^ 298 := by
    rw [ht, mul_div_assoc, div_self (by positivity), mul_one]
  refine ⟨acc, hacc, ?_, ?_, ?_, f32MaxFinite_value, ?_, ?_⟩
  · have hpos : (0 : ℚ) < 2 ^ 298 := by positivity
    rw [hsum, abs_div, abs_of_pos hpos, div_mul_cancel₀ _ hpos.ne', ← ExactDyadic.natAbs_total, Nat.cast_natAbs,
      Int.cast_abs]
  · by_cases hz : acc.magnitude.value = 0
    · have htotal : acc.total = 0 := by rw [← Int.natAbs_eq_zero, ExactDyadic.natAbs_total, hz]
      rw [hsum, htotal, hc hz]
      simp
    · rw [ExactDyadic.negative_eq hz, hsum, decide_eq_true_eq]
  · intro negativeZero
    rw [hsum]
    exact ExactDyadic.roundTo_rounded f32Target_of (by decide) acc negativeZero
  · intro negativeZero mode
    rw [hsum]
    exact ExactDyadic.roundTo_rounded f16Target_of (by cases mode <;> decide) acc negativeZero
  · intro terms' hperm
    obtain ⟨acc', hacc', hc', ht'⟩ := accumulate_total (hperm.length_eq.trans_le hn)
      fun term hterm => hf term (hperm.mem_iff.mp hterm)
    have htotal : acc'.total = acc.total := by
      have h : (acc'.total : ℚ) = acc.total := by rw [ht', ht, sum_perm hperm]
      exact_mod_cast h
    rw [hacc', hc'.ext hc htotal]

instance : DecidablePred Accumulation.Finite := by
  intro term
  cases term <;> unfold Accumulation.Finite <;> infer_instance

/-- 1, then 1.5 * -2, then the least subnormal of binary32 times itself. -/
def mixedTerms : List Accumulation := [.f16 0x3c00, .bf16Product 0x3fc0 0xc000, .f32Product 0x00000001 0x00000001]

theorem accumulate_rounds_mixed :
    ∃ acc, accumulate mixedTerms = .ok acc ∧ (acc.magnitude.value : ℚ) = |sum mixedTerms| * 2 ^ 298 ∧
      accumulate mixedTerms.reverse = .ok acc := by
  have hfinite : ∀ term ∈ mixedTerms, term.Finite := by decide
  obtain ⟨acc, hacc, hmagnitude, -, -, -, -, hperm⟩ := accumulate_rounds (by decide) hfinite
  exact ⟨acc, hacc, hmagnitude, hperm _ (List.reverse_perm _)⟩

end AscendEmulator.C220.Cube
