/-
  AscendEmulator.C220.Cube.SliceProofs — a slice is the exact sum of its accumulator and its products, rounded once.

  A word stands for an extended number (`Format.datum`), and what the loop over unsaturated operands keeps is their sum
  so far (`scan_spec`); the loop over the products adds each once, whatever the order (`addPairs_spec`).
-/

import AscendEmulator.C220.Cube.Hf32

namespace AscendEmulator.C220.Cube

open Lib Outcome

/-! ## Words -/

namespace WordFormat

variable {w : Nat} {f : WordFormat w} {F : Format}

/-- The masks are those of a format. -/
structure Of (f : WordFormat w) (F : Format) : Prop where
  width : w = F.fractionBits + F.exponentBits + 1
  sign : f.sign.toNat = 2 ^ (F.fractionBits + F.exponentBits)
  exponent : f.exponent.toNat = (2 ^ F.exponentBits - 1) * 2 ^ F.fractionBits
  fraction : f.fraction.toNat = 2 ^ F.fractionBits - 1
  exponent_two : 2 ≤ F.exponentBits

theorem f16_of : f16Word.Of .binary16 := ⟨by decide, by decide, by decide, by decide, by decide⟩

theorem bf16_of : bf16Word.Of .bfloat16 := ⟨by decide, by decide, by decide, by decide, by decide⟩

theorem f32_of : f32Word.Of .binary32 := ⟨by decide, by decide, by decide, by decide, by decide⟩

theorem Of.negative (h : f.Of F) (bits : BitVec w) : (bits &&& f.sign != 0) = F.negative bits.toNat :=
  bne_zero_eq_testBit h.sign

theorem Of.exponent_and (h : f.Of F) (bits : BitVec w) :
    (bits &&& f.exponent).toNat = 2 ^ F.fractionBits * F.exponent bits.toNat := by
  have hand : bits.toNat &&& (2 ^ F.exponentBits - 1) * 2 ^ F.fractionBits =
      (bits.toNat >>> F.fractionBits &&& (2 ^ F.exponentBits - 1)) <<< F.fractionBits := by
    refine Nat.eq_of_testBit_eq fun i => ?_
    rw [← Nat.shiftLeft_eq]
    simp only [Nat.testBit_and, Nat.testBit_shiftLeft, Nat.testBit_shiftRight]
    by_cases hi : F.fractionBits ≤ i
    · simp [hi, Nat.add_sub_cancel' hi]
    · simp [hi]
  rw [BitVec.toNat_and, h.exponent, hand, Nat.and_two_pow_sub_one_eq_mod, Nat.shiftLeft_eq, Nat.shiftRight_eq_div_pow,
    Nat.mul_comm]
  rfl

theorem Of.exponent_zero (h : f.Of F) (bits : BitVec w) :
    (bits &&& f.exponent != 0) = decide (F.exponent bits.toNat ≠ 0) := by
  rw [Bool.eq_iff_iff, bne_iff_ne, decide_eq_true_iff, ne_eq, ne_eq, not_iff_not, ← BitVec.toNat_inj, h.exponent_and]
  simp

theorem exponent_le (F : Format) (bits : Nat) : F.exponent bits ≤ 2 ^ F.exponentBits - 1 :=
  Nat.le_sub_one_of_lt (Nat.mod_lt _ (Nat.two_pow_pos _))

theorem Of.special (h : f.Of F) (bits : BitVec w) :
    (bits &&& f.exponent == f.exponent) = decide ¬F.Finite bits.toNat := by
  have hle := exponent_le F bits.toNat
  rw [Bool.eq_iff_iff, beq_iff_eq, decide_eq_true_iff, ← BitVec.toNat_inj, h.exponent_and, h.exponent, Nat.mul_comm,
    Nat.mul_left_inj (Nat.two_pow_pos _).ne', Format.Finite]
  omega

theorem Of.magnitude (h : f.Of F) (bits : BitVec w) :
    (bits &&& ~~~f.sign).toNat = 2 ^ F.fractionBits * F.exponent bits.toNat + F.fraction bits.toNat := by
  have hmask : (~~~f.sign).toNat = 2 ^ (F.fractionBits + F.exponentBits) - 1 := by
    rw [BitVec.toNat_not, h.sign, h.width, pow_succ]
    omega
  rw [BitVec.toNat_and, hmask, Nat.and_two_pow_sub_one_eq_mod, Format.exponent, Format.fraction, pow_add,
    Nat.mod_mul, Nat.add_comm]

theorem Of.isZero (h : f.Of F) (bits : BitVec w) : f.isZero bits = decide (F.datum bits.toNat = .finite 0) := by
  have hpow := Nat.two_pow_pos F.fractionBits
  have htwo : 2 ^ 2 ≤ 2 ^ F.exponentBits := Nat.pow_le_pow_right (by decide) h.exponent_two
  have hzero : f.isZero bits = true ↔ F.exponent bits.toNat = 0 ∧ F.fraction bits.toNat = 0 := by
    rw [WordFormat.isZero, beq_iff_eq, ← BitVec.toNat_inj, h.magnitude]
    simp
  rw [Bool.eq_iff_iff, decide_eq_true_iff, hzero]
  constructor
  · rintro ⟨hexponent, hfraction⟩
    have hfinite : F.Finite bits.toNat := by
      unfold Format.Finite
      omega
    rw [Format.datum_finite hfinite, Format.value_eq_zero.mpr]
    rw [Format.significand, if_pos hexponent, hfraction]
  · intro hdatum
    obtain ⟨-, hvalue⟩ := Format.finite_of_datum hdatum
    rw [Format.value_eq_zero, Format.significand] at hvalue
    split_ifs at hvalue with hexponent
    · exact ⟨hexponent, hvalue⟩
    · omega

theorem Of.isInfinite (h : f.Of F) (bits : BitVec w) :
    f.isInfinite bits = decide (F.datum bits.toNat = .infinite (F.negative bits.toNat)) := by
  have hpow := Nat.two_pow_pos F.fractionBits
  have hfraction := F.fraction_lt bits.toNat
  have hle := exponent_le F bits.toNat
  have hiff : f.isInfinite bits = true ↔ ¬F.Finite bits.toNat ∧ F.fraction bits.toNat = 0 := by
    rw [WordFormat.isInfinite, beq_iff_eq, ← BitVec.toNat_inj, h.magnitude, h.exponent, Format.Finite]
    constructor
    · intro heq
      have hdiv := congrArg (· / 2 ^ F.fractionBits) heq
      have hmod := congrArg (· % 2 ^ F.fractionBits) heq
      rw [Nat.mul_add_div hpow, Nat.div_eq_of_lt hfraction, Nat.mul_div_cancel _ hpow] at hdiv
      rw [Nat.mul_add_mod, Nat.mod_eq_of_lt hfraction, Nat.mul_mod_left] at hmod
      omega
    · rintro ⟨hexponent, hzero⟩
      rw [hzero, Nat.add_zero, Nat.mul_comm, show F.exponent bits.toNat = 2 ^ F.exponentBits - 1 by omega]
  rw [Bool.eq_iff_iff, decide_eq_true_iff, hiff, Format.datum]
  constructor
  · rintro ⟨hfinite, hzero⟩
    rw [if_neg hfinite, if_pos hzero]
  · intro hdatum
    split_ifs at hdatum with hfinite hzero
    · exact ⟨hfinite, hzero⟩

theorem Of.isNan (h : f.Of F) (bits : BitVec w) : f.isNan bits = decide (F.datum bits.toNat = .nan) := by
  have hfraction : (bits &&& f.fraction != 0) = decide (F.fraction bits.toNat ≠ 0) := by
    rw [Bool.eq_iff_iff, bne_iff_ne, decide_eq_true_iff, ne_eq, ne_eq, not_iff_not, ← BitVec.toNat_inj,
      BitVec.toNat_and, h.fraction, Nat.and_two_pow_sub_one_eq_mod]
    exact Iff.rfl
  rw [WordFormat.isNan, h.special, hfraction, Bool.eq_iff_iff, Bool.and_eq_true, decide_eq_true_iff, decide_eq_true_iff,
    decide_eq_true_iff, Format.datum]
  split_ifs with hfinite hzero <;> simp [*]

theorem Of.xor_sign (h : f.Of F) (first second : BitVec w) :
    ((first ^^^ second) &&& f.sign != 0) = (F.negative first.toNat ^^ F.negative second.toNat) := by
  rw [h.negative, BitVec.toNat_xor]
  exact Nat.testBit_xor ..

/-- The word of an infinity. -/
def infinity (f : WordFormat w) (negative : Bool) : BitVec w := if negative then f.sign ||| f.exponent else f.exponent

end WordFormat

/-! ## Specials -/

section Specials

variable {w v : Nat} {a : SliceArithmetic w v} {F G : Format}

/-- The product of a pair of operands. -/
def product (F : Format) (pair : BitVec w × BitVec w) : Extended :=
  (F.datum pair.1.toNat).product (F.datum pair.2.toNat)

/-- What has been added so far, by what the loop keeps. -/
structure SliceSpecials.Holds (s : SliceSpecials) (x : Extended) : Prop where
  sum : ∃ y, x = .ofFlags s.positiveInfinity s.negativeInfinity y
  status : s.status = { CubeFpStatus.default with infinityOperand := s.positiveInfinity || s.negativeInfinity }

/-- An infinite word has its sign; so has a number that is not zero. -/
theorem product_infinite (h : a.operand.Of F) {pair : BitVec w × BitVec w} (hnan : product F pair ≠ .nan)
    (hinfinite : (a.operand.isInfinite pair.1 || a.operand.isInfinite pair.2) = true) :
    product F pair = .infinite (F.negative pair.1.toNat ^^ F.negative pair.2.toNat) := by
  obtain ⟨first, second⟩ := pair
  rw [h.isInfinite, h.isInfinite, Bool.or_eq_true, decide_eq_true_iff, decide_eq_true_iff] at hinfinite
  unfold product at hnan ⊢
  dsimp only at hinfinite hnan ⊢
  have hsign {x : ℚ} {bits : Nat} (hx : F.datum bits = .finite x) (hne : x ≠ 0) : decide (x < 0) = F.negative bits := by
    obtain ⟨-, rfl⟩ := Format.finite_of_datum hx
    exact (Format.negative_eq hne).symm
  cases hfirst : F.datum first.toNat with
  | nan => rw [hfirst] at hnan; exact absurd rfl hnan
  | infinite s =>
    cases hsecond : F.datum second.toNat with
    | nan => rw [hfirst, hsecond] at hnan; exact absurd rfl hnan
    | infinite t => rw [Format.negative_of_datum hfirst, Format.negative_of_datum hsecond, Extended.product]
    | finite y =>
      rw [hfirst, hsecond, Extended.product] at hnan
      have hy : y ≠ 0 := fun hy => hnan (if_pos hy)
      rw [Extended.product, if_neg hy, Format.negative_of_datum hfirst, hsign hsecond hy]
  | finite x =>
    cases hsecond : F.datum second.toNat with
    | nan => rw [hfirst, hsecond] at hnan; exact absurd rfl hnan
    | infinite t =>
      rw [hfirst, hsecond, Extended.product] at hnan
      have hx : x ≠ 0 := fun hx => hnan (if_pos hx)
      rw [Extended.product, if_neg hx, hsign hfirst hx, Format.negative_of_datum hsecond]
    | finite y =>
      rw [hfirst, hsecond] at hinfinite
      rcases hinfinite with hinfinite | hinfinite <;> cases hinfinite

/-- The check for an invalid pair. -/
theorem invalid_iff (h : a.operand.Of F) (pair : BitVec w × BitVec w) :
    (a.operand.isNan pair.1 || a.operand.isNan pair.2 ||
      a.operand.isInfinite pair.1 && a.operand.isZero pair.2 ||
      a.operand.isInfinite pair.2 && a.operand.isZero pair.1) = decide (product F pair = .nan) := by
  obtain ⟨first, second⟩ := pair
  rw [h.isNan, h.isNan, h.isInfinite, h.isInfinite, h.isZero, h.isZero, product]
  dsimp only
  cases hfirst : F.datum first.toNat with
  | nan => simp [Extended.product]
  | infinite s =>
    obtain rfl := Format.negative_of_datum hfirst
    cases hsecond : F.datum second.toNat with
    | nan => simp [Extended.product]
    | infinite t => simp [Extended.product]
    | finite y => by_cases hy : y = 0 <;> simp [Extended.product, hy]
  | finite x =>
    cases hsecond : F.datum second.toNat with
    | nan => simp [Extended.product]
    | infinite t =>
      obtain rfl := Format.negative_of_datum hsecond
      by_cases hx : x = 0 <;> simp [Extended.product, hx]
    | finite y => simp [Extended.product]

/-- A pair is noted: no number ends the loop, and any other product is added. -/
theorem notePair_spec (h : a.operand.Of F) {s : SliceSpecials} {x : Extended} (hs : s.Holds x)
    (pair : BitVec w × BitVec w) :
    if product F pair = .nan then
      ∃ status, a.notePair s pair = .error ⟨a.canonicalNan, status⟩ ∧ status.invalid = true
    else ∃ s', a.notePair s pair = .ok s' ∧ s'.Holds (x + product F pair) := by
  obtain ⟨⟨y, rfl⟩, hstatus⟩ := hs
  unfold SliceArithmetic.notePair
  simp only [invalid_iff h]
  by_cases hnan : product F pair = .nan
  · rw [if_pos hnan, decide_eq_true hnan]
    exact ⟨_, rfl, Bool.or_true _⟩
  · rw [if_neg hnan, decide_eq_false hnan, if_neg Bool.false_ne_true]
    have hnone : (a.operand.isNan pair.1 || a.operand.isNan pair.2) = false := by
      have hinvalid := (invalid_iff h pair).trans (decide_eq_false hnan)
      simp only [Bool.or_eq_false_iff] at hinvalid ⊢
      exact hinvalid.1.1
    rw [hnone]
    by_cases hinfinite : (a.operand.isInfinite pair.1 || a.operand.isInfinite pair.2) = true
    · have hproduct := product_infinite h hnan hinfinite
      have hsign : ((pair.1 ^^^ pair.2) &&& a.operand.sign == 0) =
          !(F.negative pair.1.toNat ^^ F.negative pair.2.toNat) := by
        rw [← h.xor_sign, bne, Bool.not_not]
      rw [hproduct, if_pos hinfinite, hinfinite, hsign]
      cases F.negative pair.1.toNat ^^ F.negative pair.2.toNat with
      | false =>
        refine ⟨_, rfl, ⟨y, Extended.ofFlags_add_positive⟩, ?_⟩
        rw [hstatus]
        simp [CubeFpStatus.default]
      | true =>
        refine ⟨_, rfl, ⟨y, Extended.ofFlags_add_negative⟩, ?_⟩
        rw [hstatus]
        simp [CubeFpStatus.default]
    · rw [if_neg hinfinite, Bool.eq_false_iff.mpr hinfinite]
      have hfinite : ∃ z, product F pair = .finite z := by
        rw [h.isInfinite, h.isInfinite, Bool.or_eq_true, decide_eq_true_iff, decide_eq_true_iff, not_or] at hinfinite
        have hword (bits : BitVec w) (hnan : F.datum bits.toNat ≠ .nan)
            (hinf : F.datum bits.toNat ≠ .infinite (F.negative bits.toNat)) : ∃ z, F.datum bits.toNat = .finite z := by
          unfold Format.datum at hnan hinf ⊢
          split_ifs at hnan hinf ⊢ with hfinite hzero
          · exact ⟨_, rfl⟩
          · exact absurd rfl hinf
          · exact absurd rfl hnan
        rw [h.isNan, h.isNan, Bool.or_eq_false_iff, decide_eq_false_iff_not, decide_eq_false_iff_not] at hnone
        obtain ⟨z, hz⟩ := hword pair.1 hnone.1 hinfinite.1
        obtain ⟨z', hz'⟩ := hword pair.2 hnone.2 hinfinite.2
        exact ⟨z * z', by rw [product, hz, hz', Extended.product]⟩
      obtain ⟨z, hz⟩ := hfinite
      rw [hz]
      refine ⟨_, rfl, ⟨y + z, Extended.ofFlags_add_finite z⟩, ?_⟩
      rw [hstatus]
      simp [CubeFpStatus.default]

/-- The loop over the pairs adds their products. -/
theorem scan_spec (h : a.operand.Of F) (pairs : List (BitVec w × BitVec w)) {s : SliceSpecials} {x : Extended}
    (hs : s.Holds x) :
    (∃ status, pairs.foldlM a.notePair s = .error ⟨a.canonicalNan, status⟩ ∧ status.invalid = true ∧
        x + (pairs.map (product F)).sum = .nan) ∨
      ∃ s', pairs.foldlM a.notePair s = .ok s' ∧ s'.Holds (x + (pairs.map (product F)).sum) := by
  induction pairs generalizing s x with
  | nil => exact .inr ⟨s, rfl, by simpa using hs⟩
  | cons pair pairs ih =>
    have hstep := notePair_spec h hs pair
    rw [List.map_cons, List.sum_cons, ← add_assoc, List.foldlM_cons]
    split_ifs at hstep with hnan
    · obtain ⟨status, hnote, hinvalid⟩ := hstep
      refine .inl ⟨status, by rw [hnote]; rfl, hinvalid, ?_⟩
      rw [hnan, Extended.add_nan, Extended.nan_add]
    · obtain ⟨s', hnote, hs'⟩ := hstep
      rw [hnote]
      exact ih hs'

end Specials

/-! ## Sums -/

/-- A pair of numbers. -/
def FinitePair {w : Nat} (F : Format) (pair : BitVec w × BitVec w) : Prop :=
  F.Finite pair.1.toNat ∧ F.Finite pair.2.toNat

instance {w : Nat} (F : Format) : DecidablePred (FinitePair (w := w) F) := fun _ => inferInstanceAs (Decidable (_ ∧ _))

/-- The sum of the products of pairs of numbers. -/
def productSum {w : Nat} (F : Format) (pairs : List (BitVec w × BitVec w)) : ℚ :=
  (pairs.map fun pair => F.value pair.1.toNat * F.value pair.2.toNat).sum

/-- All terms of a sum are zeros with a sign. -/
def negativeZeros {w : Nat} (F G : Format) (pairs : List (BitVec w × BitVec w)) (accumulator : Nat) : Bool :=
  decide (G.exponent accumulator = 0) && G.negative accumulator && pairs.all fun pair =>
    (decide (F.datum pair.1.toNat = .finite 0) || decide (F.datum pair.2.toNat = .finite 0)) &&
      (F.negative pair.1.toNat ^^ F.negative pair.2.toNat)

/-- The evaluator's words are those of two formats, and what it adds and rounds are their numbers. -/
structure SliceArithmetic.Sound {w v : Nat} (a : SliceArithmetic w v) (F G : Format) (overflow : Fp16Mode → Nat) :
    Prop where
  operand : a.operand.Of F
  accumulator : a.accumulator.Of G
  addAccumulator : ∀ bits, G.Finite bits.toNat →
    (a.addAccumulator bits).Finite ∧ (a.addAccumulator bits).value = Accumulation.normalValue G bits.toNat
  addProduct : ∀ first second, F.Finite first.toNat → F.Finite second.toNat →
    (a.addProduct first second).Finite ∧
      (a.addProduct first second).value = F.value first.toNat * F.value second.toNat
  round : ∀ acc negativeZero mode, Rounded G (overflow mode) (acc.total / 2 ^ 298) negativeZero
    (a.round acc negativeZero mode).1.toNat (a.round acc negativeZero mode).2
  saturate : ∀ bits, F.Finite (a.saturate bits).toNat
  saturateAccumulator : ∀ bits, G.Finite (a.saturateAccumulator bits).toNat

section Sums

variable {w v : Nat} {a : SliceArithmetic w v} {F G : Format} {overflow : Fp16Mode → Nat}

theorem special_iff {f : WordFormat w} (h : f.Of F) (bits : BitVec w) :
    (f.isInfinite bits || f.isNan bits) = decide ¬F.Finite bits.toNat := by
  rw [h.isInfinite, h.isNan, Bool.eq_iff_iff, Bool.or_eq_true, decide_eq_true_iff, decide_eq_true_iff,
    decide_eq_true_iff, Format.datum]
  split_ifs with hfinite hzero <;> simp [hfinite]

theorem unreachable_iff (h : a.operand.Of F) (pair : BitVec w × BitVec w) :
    (a.operand.isInfinite pair.1 || a.operand.isNan pair.1 || a.operand.isInfinite pair.2 || a.operand.isNan pair.2) =
      decide ¬FinitePair F pair := by
  rw [Bool.or_assoc, special_iff h, special_iff h, Bool.eq_iff_iff, Bool.or_eq_true, decide_eq_true_iff,
    decide_eq_true_iff, decide_eq_true_iff, FinitePair]
  tauto

/-- The loop over the products panics at what is no number, and adds the products of numbers. -/
theorem addPairs_spec (h : a.Sound F G overflow) (pairs : List (BitVec w × BitVec w)) {s : SliceSum}
    (hc : s.sum.Canonical)
    (hfits : s.sum.total.natAbs + pairs.length * ExactDyadic.termBound < ExactDyadic.capacity) :
    if ∀ pair ∈ pairs, FinitePair F pair then
      ∃ s', pairs.foldlM a.addPair s = .ok s' ∧ s'.sum.Canonical ∧
        (s'.sum.total : ℚ) = s.sum.total + productSum F pairs * 2 ^ 298 ∧
        s'.allZeroTermsNegative = (s.allZeroTermsNegative &&
          pairs.all fun pair => !a.zeroProduct pair || (pair.1 ^^^ pair.2) &&& a.operand.sign != 0)
    else pairs.foldlM a.addPair s = panicked := by
  induction pairs generalizing s with
  | nil =>
    rw [if_pos (by simp)]
    exact ⟨s, rfl, hc, by simp [productSum], by simp⟩
  | cons pair pairs ih =>
    rw [List.foldlM_cons]
    by_cases hpair : FinitePair F pair
    · obtain ⟨hfinite, hvalue⟩ := h.addProduct pair.1 pair.2 hpair.1 hpair.2
      obtain ⟨t, ht, hsmall, hadd⟩ := Accumulation.add_adds hfinite
      rw [List.length_cons, Nat.add_mul, Nat.one_mul] at hfits
      obtain ⟨sum, hsum, hcn, htotal⟩ := hadd s.sum hc (by omega)
      have hnatAbs : sum.total.natAbs ≤ s.sum.total.natAbs + t.natAbs := htotal ▸ Int.natAbs_add_le _ _
      have hstep : a.addPair s pair = .ok ⟨sum, if a.zeroProduct pair then
          s.allZeroTermsNegative && (pair.1 ^^^ pair.2) &&& a.operand.sign != 0 else s.allZeroTermsNegative⟩ := by
        unfold SliceArithmetic.addPair
        simp only [unreachable_iff h.operand, hpair, not_true_eq_false, decide_false, Bool.false_eq_true, if_false,
          hsum]
      have hrest := ih (s := ⟨sum, if a.zeroProduct pair then
          s.allZeroTermsNegative && (pair.1 ^^^ pair.2) &&& a.operand.sign != 0 else s.allZeroTermsNegative⟩) hcn
        (by dsimp only; omega)
      rw [hstep]
      by_cases hall : ∀ pair ∈ pairs, FinitePair F pair
      · rw [if_pos hall] at hrest
        rw [if_pos (List.forall_mem_cons.mpr ⟨hpair, hall⟩)]
        obtain ⟨s', hs', hc', ht', hzeros⟩ := hrest
        refine ⟨s', hs', hc', ?_, ?_⟩
        · rw [ht', htotal, productSum, productSum, List.map_cons, List.sum_cons, ← hvalue]
          push_cast
          rw [ht, add_mul, add_assoc]
        · rw [hzeros, List.all_cons]
          cases a.zeroProduct pair <;> simp [Bool.and_assoc]
      · rw [if_neg hall] at hrest
        rw [if_neg fun hcons => hall (List.forall_mem_cons.mp hcons).2]
        exact hrest
    · have hstep : a.addPair s pair = panicked := by
        unfold SliceArithmetic.addPair
        simp only [unreachable_iff h.operand, hpair, not_false_eq_true, decide_true, if_true]
      rw [hstep, if_neg fun hcons => hpair (List.forall_mem_cons.mp hcons).1]
      rfl

theorem zeroProduct_eq (h : a.operand.Of F) (pair : BitVec w × BitVec w) : a.zeroProduct pair =
    (decide (F.datum pair.1.toNat = .finite 0) || decide (F.datum pair.2.toNat = .finite 0)) := by
  rw [SliceArithmetic.zeroProduct, h.isZero, h.isZero]

/-- The sign that a zero gets. -/
theorem negativeZeros_eq (h : a.Sound F G overflow) (pairs : List (BitVec w × BitVec w)) (accumulator : BitVec v) :
    (!(accumulator &&& a.accumulator.exponent != 0) && pairs.all a.zeroProduct &&
      (!(accumulator &&& a.accumulator.exponent != 0) && accumulator &&& a.accumulator.sign != 0 &&
        pairs.all fun pair => !a.zeroProduct pair || (pair.1 ^^^ pair.2) &&& a.operand.sign != 0)) =
      negativeZeros F G pairs accumulator.toNat := by
  rw [h.accumulator.exponent_zero, h.accumulator.negative, negativeZeros]
  have hall : (pairs.all a.zeroProduct &&
      pairs.all fun pair => !a.zeroProduct pair || (pair.1 ^^^ pair.2) &&& a.operand.sign != 0) =
      pairs.all fun pair => (decide (F.datum pair.1.toNat = .finite 0) || decide (F.datum pair.2.toNat = .finite 0)) &&
        (F.negative pair.1.toNat ^^ F.negative pair.2.toNat) := by
    induction pairs with
    | nil => rfl
    | cons pair pairs ih =>
      rw [List.all_cons, List.all_cons, List.all_cons, ← ih, h.operand.xor_sign, ← zeroProduct_eq h.operand]
      cases a.zeroProduct pair <;> simp [Bool.and_left_comm]
  rw [← hall]
  by_cases hexponent : G.exponent accumulator.toNat = 0
  · simp [hexponent, Bool.and_left_comm]
  · simp [hexponent]

/-- A slice of numbers is their exact sum, rounded; at an operand that is no number it panics. -/
theorem sumSlice_spec (h : a.Sound F G overflow) {pairs : List (BitVec w × BitVec w)} (hlength : pairs.length < 2 ^ 20)
    {accumulator : BitVec v} (hacc : G.Finite accumulator.toNat) (mode : Fp16Mode) (status : CubeFpStatus) :
    if ∀ pair ∈ pairs, FinitePair F pair then
      ∃ sum : ExactDyadic, sum.Canonical ∧
        (sum.total : ℚ) = (Accumulation.normalValue G accumulator.toNat + productSum F pairs) * 2 ^ 298 ∧
        let rounded := a.round sum (negativeZeros F G pairs accumulator.toNat) mode
        a.sumSlice pairs accumulator mode status = .ok ⟨rounded.1, status.merge rounded.2⟩
    else a.sumSlice pairs accumulator mode status = panicked := by
  obtain ⟨hfinite, hvalue⟩ := h.addAccumulator accumulator hacc
  obtain ⟨t, ht, hsmall, hadd⟩ := Accumulation.add_adds hfinite
  have hbound := ExactDyadic.terms_fit
  have hterms : t.natAbs + pairs.length * ExactDyadic.termBound < ExactDyadic.capacity := by
    have hle : (pairs.length + 1) * ExactDyadic.termBound ≤ 2 ^ 20 * ExactDyadic.termBound :=
      Nat.mul_le_mul_right _ hlength
    rw [Nat.succ_mul] at hle
    omega
  obtain ⟨sum, hsum, hc, htotal⟩ := hadd .default default_canonical (by rw [default_total]; omega)
  rw [default_total, zero_add] at htotal
  have hpairs := addPairs_spec h pairs (s := ⟨sum, !(accumulator &&& a.accumulator.exponent != 0) &&
    accumulator &&& a.accumulator.sign != 0⟩) hc (by dsimp only; rw [htotal]; exact hterms)
  unfold SliceArithmetic.sumSlice
  simp only [hsum]
  split_ifs at hpairs ⊢ with hall
  · obtain ⟨s', hs', hc', ht', hzeros⟩ := hpairs
    refine ⟨s'.sum, hc', ?_, ?_⟩
    · rw [ht', htotal, ht, hvalue, add_mul]
    · rw [hs']
      show Except.ok _ = _
      rw [hzeros, negativeZeros_eq h]
  · rw [hpairs]
    rfl

end Sums

/-! ## Saturated operands -/

/-- What a saturated word stands for. -/
def saturatedValue (largest : ℚ) : Extended → ℚ
  | .nan => 0
  | .infinite negative => Format.sign negative * largest
  | .finite x => x

theorem WordFormat.Of.saturate {w : Nat} {f : WordFormat w} {F : Format} (h : f.Of F) {largest : BitVec w}
    (hl : largest.toNat < F.infinity) (bits : BitVec w) :
    F.Finite (f.saturateNonfinite largest bits).toNat ∧
      F.value (f.saturateNonfinite largest bits).toNat =
        saturatedValue (F.amount largest.toNat) (F.datum bits.toNat) := by
  have hpow : 2 ^ (F.fractionBits + F.exponentBits) = 2 ^ F.fractionBits * 2 ^ F.exponentBits := pow_add ..
  have hbound : F.infinity < 2 ^ (F.fractionBits + F.exponentBits) := by
    rw [Format.infinity, hpow]
    exact Nat.mul_lt_mul_of_pos_left (Nat.sub_lt (Nat.two_pow_pos _) (by decide)) (Nat.two_pow_pos _)
  have hsign : (bits &&& f.sign).toNat = 2 ^ (F.fractionBits + F.exponentBits) * (F.negative bits.toNat).toNat := by
    rw [BitVec.toNat_and, h.sign, Nat.and_two_pow, Nat.mul_comm]
    rfl
  -- a sign and a magnitude that is no infinity
  have hword {magnitude : BitVec w} (hm : magnitude.toNat < F.infinity) :
      F.Finite (bits &&& f.sign ||| magnitude).toNat ∧
        F.value (bits &&& f.sign ||| magnitude).toNat =
          Format.sign (F.negative bits.toNat) * F.amount magnitude.toNat := by
    have htoNat : (bits &&& f.sign ||| magnitude).toNat =
        2 ^ (F.fractionBits + F.exponentBits) * (F.negative bits.toNat).toNat + magnitude.toNat := by
      rw [BitVec.toNat_or, hsign, Nat.two_pow_add_eq_or_of_lt (hm.trans hbound)]
    have hmagnitude : F.magnitude (bits &&& f.sign ||| magnitude).toNat = magnitude.toNat := by
      rw [Format.magnitude, htoNat, Nat.mul_add_mod, Nat.mod_eq_of_lt (hm.trans hbound)]
    have hnegative : F.negative (bits &&& f.sign ||| magnitude).toNat = F.negative bits.toNat := by
      rw [Format.negative, htoNat, Nat.testBit_two_pow_mul_add _ (hm.trans hbound), if_neg (lt_irrefl _), Nat.sub_self]
      cases F.negative bits.toNat <;> rfl
    refine ⟨by rw [Format.finite_iff, hmagnitude]; exact hm, ?_⟩
    rw [Format.value_eq_amount, hmagnitude, hnegative]
  have hzero : (0 : BitVec w).toNat < F.infinity := (Nat.zero_le _).trans_lt ((Nat.zero_le _).trans_lt hl)
  unfold WordFormat.saturateNonfinite
  by_cases hfinite : F.Finite bits.toNat
  · rw [if_pos (by rw [bne, h.special]; simp [hfinite]), Format.datum_finite hfinite]
    exact ⟨hfinite, rfl⟩
  · rw [if_neg (by rw [bne, h.special]; simp [hfinite]), h.isInfinite]
    by_cases hinfinite : F.fraction bits.toNat = 0
    · have hdatum : F.datum bits.toNat = .infinite (F.negative bits.toNat) := by
        rw [Format.datum, if_neg hfinite, if_pos hinfinite]
      rw [hdatum, decide_eq_true rfl, if_pos rfl]
      exact hword hl
    · have hdatum : F.datum bits.toNat = .nan := by rw [Format.datum, if_neg hfinite, if_neg hinfinite]
      rw [hdatum, decide_eq_false (by simp), if_neg Bool.false_ne_true]
      obtain ⟨hf, hv⟩ := hword hzero
      refine ⟨hf, hv.trans ?_⟩
      rw [show (0 : BitVec w).toNat = 0 by simp, Format.amount_zero, mul_zero]
      rfl

/-! ## Totals -/

/-- The accumulator as a term: a subnormal one counts as zero. -/
def flushed (G : Format) (bits : Nat) : Extended := if G.exponent bits = 0 then .finite 0 else G.datum bits

/-- The sum of an accumulator and the products of pairs. -/
def exactTotal {w : Nat} (F G : Format) (pairs : List (BitVec w × BitVec w)) (accumulator : Nat) : Extended :=
  flushed G accumulator + (pairs.map (product F)).sum

section Totals

variable {w v : Nat} {a : SliceArithmetic w v} {F G : Format} {overflow : Fp16Mode → Nat}

theorem flushed_special {bits : Nat} (h : 2 ≤ G.exponentBits) (hfinite : ¬G.Finite bits) :
    flushed G bits = G.datum bits := by
  have htwo : 2 ^ 2 ≤ 2 ^ G.exponentBits := Nat.pow_le_pow_right (by decide) h
  unfold Format.Finite at hfinite
  exact if_neg (by omega)

theorem flushed_finite {bits : Nat} (hfinite : G.Finite bits) :
    flushed G bits = .finite (Accumulation.normalValue G bits) := by
  unfold flushed Accumulation.normalValue
  rw [Format.datum_finite hfinite]
  split_ifs <;> rfl

theorem products_finite {pairs : List (BitVec w × BitVec w)} {y : ℚ}
    (h : (pairs.map (product F)).sum = .finite y) : (∀ pair ∈ pairs, FinitePair F pair) ∧ productSum F pairs = y := by
  induction pairs generalizing y with
  | nil =>
    have hzero : (0 : ℚ) = y := Extended.finite.inj h
    exact ⟨nofun, hzero⟩
  | cons pair pairs ih =>
    rw [List.map_cons, List.sum_cons, Extended.add_finite] at h
    obtain ⟨x, z, hx, hz, rfl⟩ := h
    obtain ⟨first, second, hfirst, hsecond, rfl⟩ := Extended.product_finite.mp hx
    obtain ⟨hpairs, rfl⟩ := ih hz
    obtain ⟨hf, rfl⟩ := Format.finite_of_datum hfirst
    obtain ⟨hs, rfl⟩ := Format.finite_of_datum hsecond
    exact ⟨List.forall_mem_cons.mpr ⟨⟨hf, hs⟩, hpairs⟩, rfl⟩

/-- A total that is a number is one of numbers. -/
theorem exactTotal_finite (hexponent : 2 ≤ G.exponentBits) {pairs : List (BitVec w × BitVec w)} {accumulator : Nat}
    {x : ℚ} (h : exactTotal F G pairs accumulator = .finite x) :
    G.Finite accumulator ∧ (∀ pair ∈ pairs, FinitePair F pair) ∧
      Accumulation.normalValue G accumulator + productSum F pairs = x := by
  obtain ⟨y, z, hy, hz, rfl⟩ := Extended.add_finite.mp h
  obtain ⟨hpairs, rfl⟩ := products_finite hz
  have hfinite : G.Finite accumulator := by
    by_contra hnot
    rw [flushed_special hexponent hnot] at hy
    exact hnot (Format.finite_of_datum hy).1
  rw [flushed_finite hfinite] at hy
  exact ⟨hfinite, hpairs, by rw [Extended.finite.inj hy]⟩

theorem ofFlags_cases (positive negative : Bool) (y : ℚ) :
    (positive && negative) = true ∧ Extended.ofFlags positive negative y = .nan ∨
      (positive && negative) = false ∧ (positive || negative) = true ∧
        Extended.ofFlags positive negative y = .infinite negative ∨
      positive = false ∧ negative = false ∧ Extended.ofFlags positive negative y = .finite y := by
  cases positive <;> cases negative <;> simp [Extended.ofFlags]

/-- The check gives the result of a total that is no number, and is passed by one that is. -/
theorem checkSpecials_spec (h : a.Sound F G overflow) (pairs : List (BitVec w × BitVec w)) (accumulator : BitVec v) :
    (exactTotal F G pairs accumulator.toNat = .nan ∧
      ∃ status, a.checkSpecials pairs accumulator = .error ⟨a.canonicalNan, status⟩ ∧
        (status.nanOperand || status.invalid) = true) ∨
    (∃ negative, exactTotal F G pairs accumulator.toNat = .infinite negative ∧
      a.checkSpecials pairs accumulator =
        .error ⟨a.accumulator.infinity negative, { CubeFpStatus.default with infinityOperand := true }⟩) ∨
    ∃ x, exactTotal F G pairs accumulator.toNat = .finite x ∧ a.checkSpecials pairs accumulator = .ok .default := by
  have hexponent := h.accumulator.exponent_two
  unfold exactTotal SliceArithmetic.checkSpecials
  simp only [h.accumulator.isNan, h.accumulator.isInfinite]
  by_cases hnan : G.datum accumulator.toNat = .nan
  · have hfinite : ¬G.Finite accumulator.toNat := fun hfinite => by
      rw [Format.datum_finite hfinite] at hnan
      cases hnan
    refine .inl ⟨?_, _, if_pos (decide_eq_true hnan), rfl⟩
    rw [flushed_special hexponent hfinite, hnan, Extended.nan_add]
  · rw [decide_eq_false hnan, if_neg Bool.false_ne_true]
    have hstart : SliceSpecials.Holds {
        positiveInfinity := decide (G.datum accumulator.toNat = .infinite (G.negative accumulator.toNat)) &&
          accumulator &&& a.accumulator.sign == 0
        negativeInfinity := decide (G.datum accumulator.toNat = .infinite (G.negative accumulator.toNat)) &&
          accumulator &&& a.accumulator.sign != 0
        status := { CubeFpStatus.default with
          infinityOperand := decide (G.datum accumulator.toNat = .infinite (G.negative accumulator.toNat)) } }
        (flushed G accumulator.toNat) := by
      have hsign : (accumulator &&& a.accumulator.sign == 0) = !G.negative accumulator.toNat := by
        rw [← h.accumulator.negative, bne, Bool.not_not]
      rw [hsign, h.accumulator.negative]
      by_cases hfinite : G.Finite accumulator.toNat
      · have hnot : ¬G.datum accumulator.toNat = .infinite (G.negative accumulator.toNat) := by
          rw [Format.datum_finite hfinite]
          nofun
        rw [decide_eq_false hnot, flushed_finite hfinite]
        exact ⟨⟨_, rfl⟩, rfl⟩
      · have hinfinite : G.datum accumulator.toNat = .infinite (G.negative accumulator.toNat) := by
          unfold Format.datum at hnan ⊢
          rw [if_neg hfinite] at hnan ⊢
          split_ifs at hnan ⊢ with hzero
          · rfl
          · exact absurd rfl hnan
        rw [flushed_special hexponent hfinite, decide_eq_true hinfinite, hinfinite]
        cases G.negative accumulator.toNat <;> exact ⟨⟨0, rfl⟩, rfl⟩
    rcases scan_spec h.operand pairs hstart with ⟨status, hscan, hinvalid, htotal⟩ | ⟨s, hscan, ⟨y, hy⟩, hstatus⟩
    · rw [hscan]
      exact .inl ⟨htotal, status, rfl, by rw [hinvalid, Bool.or_true]⟩
    · rw [hscan, hy]
      dsimp only
      rcases ofFlags_cases s.positiveInfinity s.negativeInfinity y with
        ⟨hboth, hsum⟩ | ⟨hboth, hone, hsum⟩ | ⟨hpositive, hnegative, hsum⟩
      · rw [if_pos hboth]
        exact .inl ⟨hsum, _, rfl, Bool.or_true _⟩
      · rw [hboth, if_neg Bool.false_ne_true, if_pos hone, hstatus, hone]
        exact .inr (.inl ⟨_, hsum, rfl⟩)
      · rw [hstatus, hpositive, hnegative] at *
        exact .inr (.inr ⟨y, hsum, rfl⟩)

end Totals

namespace SliceArithmetic

variable {w v : Nat} {a : SliceArithmetic w v} {left right : List (BitVec w)} {accumulator : BitVec v}

theorem evaluate_error {outcome : SliceOutcome v}
    (h : a.checkSpecials (left.zip right) accumulator = .error outcome) :
    a.evaluate left right accumulator .nonSaturating = .ok outcome := by
  unfold evaluate
  simp only [h]

theorem evaluate_ok {status : CubeFpStatus} (h : a.checkSpecials (left.zip right) accumulator = .ok status) :
    a.evaluate left right accumulator .nonSaturating =
      a.sumSlice ((left.map a.prepare).zip (right.map a.prepare)) accumulator .nonSaturating status := by
  unfold evaluate
  simp only [h]

end SliceArithmetic

/-! ## Evaluators -/

namespace SliceKind

/-- The format of the operands. -/
def operand : SliceKind → Format
  | .f16F16 | .f16F32 => .binary16
  | .bf16F32 => .bfloat16
  | .f32F32 | .hf32F32 _ => .binary32

/-- The format of the accumulator and of the result. -/
def accumulator : SliceKind → Format
  | .f16F16 => .binary16
  | .f16F32 | .bf16F32 | .f32F32 | .hf32F32 _ => .binary32

/-- The magnitude of a result that is too large. -/
def overflow : SliceKind → Fp16Mode → Nat
  | .f16F16, mode => mode.overflowWord.toNat
  | .f16F32, _ | .bf16F32, _ | .f32F32, _ | .hf32F32 _, _ => f32MaxFinite.toNat

/-- An operand that its own rounding makes infinite. -/
def Overflows : (k : SliceKind) → BitVec k.operandWidth → Prop
  | .hf32F32 _, word => hf32Overflow ≤ word.toNat % 2 ^ 31
  | .f16F16, _ | .f16F32, _ | .bf16F32, _ | .f32F32, _ => False

theorem roundF32_rounded (acc : ExactDyadic) (negativeZero : Bool) (mode : Fp16Mode) :
    Rounded .binary32 f32MaxFinite.toNat (acc.total / 2 ^ 298) negativeZero
      (roundingF32 acc negativeZero mode).1.toNat (roundingF32 acc negativeZero mode).2 :=
  ExactDyadic.roundTo_rounded f32Target_of (by decide) acc negativeZero

theorem roundF16_rounded (acc : ExactDyadic) (negativeZero : Bool) (mode : Fp16Mode) :
    Rounded .binary16 mode.overflowWord.toNat (acc.total / 2 ^ 298) negativeZero
      (acc.roundF16 negativeZero mode).1.toNat (acc.roundF16 negativeZero mode).2 :=
  ExactDyadic.roundTo_rounded f16Target_of (by cases mode <;> decide) acc negativeZero

theorem sound (k : SliceKind) : k.arithmetic.Sound k.operand k.accumulator k.overflow := by
  have hf16 (bits : BitVec 16) : Format.binary16.Finite (saturateF16Nonfinite bits).toNat :=
    (WordFormat.f16_of.saturate (by decide) bits).1
  have hbf16 (bits : BitVec 16) : Format.bfloat16.Finite (saturateBf16Nonfinite bits).toNat :=
    (WordFormat.bf16_of.saturate (by decide) bits).1
  have hf32 (bits : BitVec 32) : Format.binary32.Finite (saturateF32Nonfinite bits).toNat :=
    (WordFormat.f32_of.saturate (by decide) bits).1
  have hhf32 (bits : BitVec 32) : Format.binary32.Finite (saturateHf32Nonfinite bits).toNat :=
    (WordFormat.f32_of.saturate (by decide) bits).1
  cases k with
  | f16F16 =>
    exact ⟨WordFormat.f16_of, WordFormat.f16_of, fun _ h => ⟨h, rfl⟩, fun _ _ h h' => ⟨⟨h, h'⟩, rfl⟩, roundF16_rounded,
      hf16, hf16⟩
  | f16F32 =>
    exact ⟨WordFormat.f16_of, WordFormat.f32_of, fun _ h => ⟨h, rfl⟩, fun _ _ h h' => ⟨⟨h, h'⟩, rfl⟩, roundF32_rounded,
      hf16, hf32⟩
  | bf16F32 =>
    exact ⟨WordFormat.bf16_of, WordFormat.f32_of, fun _ h => ⟨h, rfl⟩, fun _ _ h h' => ⟨⟨h, h'⟩, rfl⟩, roundF32_rounded,
      hbf16, hf32⟩
  | f32F32 =>
    exact ⟨WordFormat.f32_of, WordFormat.f32_of, fun _ h => ⟨h, rfl⟩, fun _ _ h h' => ⟨⟨h, h'⟩, rfl⟩, roundF32_rounded,
      hf32, hf32⟩
  | hf32F32 roundTiesAway =>
    exact ⟨WordFormat.f32_of, WordFormat.f32_of, fun _ h => ⟨h, rfl⟩, fun _ _ h h' => ⟨⟨h, h'⟩, rfl⟩, roundF32_rounded,
      fun _ => hhf32 _, hf32⟩

theorem prepare_finite (k : SliceKind) {word : BitVec k.operandWidth} (h : k.operand.Finite word.toNat) :
    k.operand.Finite (k.arithmetic.prepare word).toNat ↔ ¬k.Overflows word := by
  cases k with
  | hf32F32 roundTiesAway =>
    show Format.binary32.Finite (roundHf32Operand word roundTiesAway).toNat ↔ ¬hf32Overflow ≤ word.toNat % 2 ^ 31
    exact (roundHf32_finite h roundTiesAway).trans not_le.symm
  | f16F16 => exact iff_of_true h not_false
  | f16F32 => exact iff_of_true h not_false
  | bf16F32 => exact iff_of_true h not_false
  | f32F32 => exact iff_of_true h not_false

section Evaluate

variable (k : SliceKind) (left right : Vector (BitVec k.operandWidth) k.lanes) (word : BitVec k.accumulatorWidth)

def pairs : List (BitVec k.operandWidth × BitVec k.operandWidth) := left.toList.zip right.toList

/-- The pairs that are multiplied, by what becomes of an operand. -/
def pairsOf (f : BitVec k.operandWidth → BitVec k.operandWidth) :
    List (BitVec k.operandWidth × BitVec k.operandWidth) := (k.pairs left right).map (Prod.map f f)

def total : Extended := exactTotal k.operand k.accumulator (k.pairs left right) word.toNat

/-- The sum of a slice of numbers. -/
def sliceSum (f : BitVec k.operandWidth → BitVec k.operandWidth) (accumulator : BitVec k.accumulatorWidth) : ℚ :=
  Accumulation.normalValue k.accumulator accumulator.toNat + productSum k.operand (k.pairsOf left right f)

/-- What a word and a status are of a slice of numbers: its sum, rounded once. -/
def RoundsSum (f : BitVec k.operandWidth → BitVec k.operandWidth) (accumulator : BitVec k.accumulatorWidth)
    (mode : Fp16Mode) (bits : BitVec k.accumulatorWidth) (status : CubeFpStatus) : Prop :=
  Rounded k.accumulator (k.overflow mode) (k.sliceSum left right f accumulator)
    (negativeZeros k.operand k.accumulator (k.pairsOf left right f) accumulator.toNat) bits.toNat status

/-- The operands that are no numbers, and the infinite ones. -/
def specialStatus : CubeFpStatus :=
  let words := (left.toList ++ right.toList).map fun bits => k.operand.datum bits.toNat
  { CubeFpStatus.default with
    nanOperand := words.any (· = .nan) || k.accumulator.datum word.toNat = .nan
    infinityOperand := words.any (fun x => x = .infinite false ∨ x = .infinite true) ||
      (k.accumulator.datum word.toNat = .infinite false ∨ k.accumulator.datum word.toNat = .infinite true) }

/-- A slice is summed exactly and rounded once. -/
structure RoundsOnce : Prop where
  saturating : ∃ bits status,
    k.evaluate left right word .saturating = .ok ⟨bits, (k.specialStatus left right word).merge status⟩ ∧
      k.RoundsSum left right k.arithmetic.saturate (k.arithmetic.saturateAccumulator word) .saturating bits status
  nan : k.total left right word = .nan → ∃ status,
    k.evaluate left right word .nonSaturating = .ok ⟨k.arithmetic.canonicalNan, status⟩ ∧
      (status.nanOperand || status.invalid) = true
  infinite : ∀ negative, k.total left right word = .infinite negative →
    k.evaluate left right word .nonSaturating =
      .ok ⟨k.arithmetic.accumulator.infinity negative, { CubeFpStatus.default with infinityOperand := true }⟩
  finite : ∀ x, k.total left right word = .finite x → (∀ operand ∈ left.toList ++ right.toList, ¬k.Overflows operand) →
    ∃ bits status, k.evaluate left right word .nonSaturating = .ok ⟨bits, status⟩ ∧
      k.RoundsSum left right k.arithmetic.prepare word .nonSaturating bits status
  panics : ∀ x, k.total left right word = .finite x → (∃ operand ∈ left.toList ++ right.toList, k.Overflows operand) →
    k.evaluate left right word .nonSaturating = panicked

theorem evaluate_eq (mode : Fp16Mode) :
    k.evaluate left right word mode = k.arithmetic.evaluate left.toList right.toList word mode := by
  cases k <;> rfl

theorem zip_map (f : BitVec k.operandWidth → BitVec k.operandWidth) :
    (left.toList.map f).zip (right.toList.map f) = k.pairsOf left right f := List.zip_map

theorem length_pairs : (k.pairs left right).length < 2 ^ 20 := by
  have hlanes : k.lanes ≤ 16 := by
    cases k with
    | f16F16 | f16F32 | bf16F32 => exact le_refl 16
    | f32F32 | hf32F32 => decide +revert
  have hleft : left.toList.length = k.lanes := Vector.length_toList
  rw [pairs, List.length_zip]
  omega

theorem forall_pairs {P : BitVec k.operandWidth → Prop} :
    (∀ pair ∈ k.pairs left right, P pair.1 ∧ P pair.2) ↔ ∀ bits ∈ left.toList ++ right.toList, P bits := by
  have hlength : left.toList.length = right.toList.length := by rw [Vector.length_toList, Vector.length_toList]
  have hfst : (k.pairs left right).map Prod.fst = left.toList := List.map_fst_zip hlength.le
  have hsnd : (k.pairs left right).map Prod.snd = right.toList := List.map_snd_zip hlength.ge
  rw [List.forall_mem_append, ← hfst, ← hsnd, List.forall_mem_map, List.forall_mem_map]
  exact forall₂_and

/-- The pairs that are saturated are numbers. -/
theorem saturated_finite : ∀ pair ∈ k.pairsOf left right k.arithmetic.saturate, FinitePair k.operand pair := by
  rw [pairsOf, List.forall_mem_map]
  exact fun pair _ => ⟨k.sound.saturate _, k.sound.saturate _⟩

theorem prepared_finite {x : ℚ} (h : k.total left right word = .finite x) :
    (∀ pair ∈ k.pairsOf left right k.arithmetic.prepare, FinitePair k.operand pair) ↔
      ∀ operand ∈ left.toList ++ right.toList, ¬k.Overflows operand := by
  obtain ⟨-, hpairs, -⟩ := exactTotal_finite k.sound.accumulator.exponent_two h
  rw [pairsOf, List.forall_mem_map, ← k.forall_pairs]
  exact forall₂_congr fun pair hpair =>
    and_congr (k.prepare_finite (hpairs pair hpair).1) (k.prepare_finite (hpairs pair hpair).2)

theorem roundsSum_of (f : BitVec k.operandWidth → BitVec k.operandWidth) (accumulator : BitVec k.accumulatorWidth)
    (mode : Fp16Mode) {sum : ExactDyadic} (hsum : (sum.total : ℚ) = k.sliceSum left right f accumulator * 2 ^ 298) :
    let rounded := k.arithmetic.round sum
      (negativeZeros k.operand k.accumulator (k.pairsOf left right f) accumulator.toNat) mode
    k.RoundsSum left right f accumulator mode rounded.1 rounded.2 := by
  have hround := k.sound.round sum
    (negativeZeros k.operand k.accumulator (k.pairsOf left right f) accumulator.toNat) mode
  rwa [hsum, mul_div_assoc, div_self (by positivity), mul_one] at hround

theorem merge_default (status : CubeFpStatus) : CubeFpStatus.default.merge status = status := by
  simp [CubeFpStatus.merge, CubeFpStatus.default]

theorem isInfinite_iff {w : Nat} {f : WordFormat w} {F : Format} (h : f.Of F) (bits : BitVec w) :
    f.isInfinite bits = decide (F.datum bits.toNat = .infinite false ∨ F.datum bits.toNat = .infinite true) := by
  rw [h.isInfinite, decide_eq_decide]
  constructor
  · intro hdatum
    rw [hdatum]
    cases F.negative bits.toNat <;> simp
  · rintro (hdatum | hdatum) <;> rw [hdatum, ← Format.negative_of_datum hdatum]

/-- What the saturating loop notes of the operands. -/
theorem saturating_status : ({ CubeFpStatus.default with
    nanOperand := (left.toList ++ right.toList).any k.arithmetic.operand.isNan || k.arithmetic.accumulator.isNan word
    infinityOperand := (left.toList ++ right.toList).any k.arithmetic.operand.isInfinite ||
      k.arithmetic.accumulator.isInfinite word } : CubeFpStatus) = k.specialStatus left right word := by
  have hnan : k.arithmetic.operand.isNan = fun bits => decide (k.operand.datum bits.toNat = .nan) :=
    funext fun bits => k.sound.operand.isNan bits
  have hinfinite : k.arithmetic.operand.isInfinite = fun bits =>
      decide (k.operand.datum bits.toNat = .infinite false ∨ k.operand.datum bits.toNat = .infinite true) :=
    funext fun bits => isInfinite_iff k.sound.operand bits
  rw [hnan, hinfinite, k.sound.accumulator.isNan, isInfinite_iff k.sound.accumulator, specialStatus, List.any_map,
    List.any_map]
  rfl

theorem length_pairsOf (f : BitVec k.operandWidth → BitVec k.operandWidth) :
    (k.pairsOf left right f).length < 2 ^ 20 := by
  rw [pairsOf, List.length_map]
  exact k.length_pairs left right

theorem evaluate_saturating : ∃ bits status,
    k.evaluate left right word .saturating = .ok ⟨bits, (k.specialStatus left right word).merge status⟩ ∧
      k.RoundsSum left right k.arithmetic.saturate (k.arithmetic.saturateAccumulator word) .saturating bits status := by
  have hsum := sumSlice_spec k.sound (k.length_pairsOf left right k.arithmetic.saturate)
    (k.sound.saturateAccumulator word) .saturating (k.specialStatus left right word)
  rw [if_pos (k.saturated_finite left right)] at hsum
  obtain ⟨sum, -, htotal, hevaluate⟩ := hsum
  refine ⟨_, _, ?_, k.roundsSum_of left right k.arithmetic.saturate _ .saturating htotal⟩
  rw [evaluate_eq, ← hevaluate, ← zip_map, ← saturating_status]
  rfl

variable {left right word}

theorem evaluate_error {outcome : SliceOutcome k.accumulatorWidth}
    (h : k.arithmetic.checkSpecials (k.pairs left right) word = .error outcome) :
    k.evaluate left right word .nonSaturating = .ok outcome :=
  (k.evaluate_eq left right word _).trans (SliceArithmetic.evaluate_error h)

/-- A slice of numbers is summed. -/
theorem evaluate_sum {x : ℚ} (htotal : k.total left right word = .finite x) :
    k.evaluate left right word .nonSaturating =
      k.arithmetic.sumSlice (k.pairsOf left right k.arithmetic.prepare) word .nonSaturating .default := by
  rcases checkSpecials_spec k.sound (k.pairs left right) word with ⟨hnan, -⟩ | ⟨negative, hinfinite, -⟩ | ⟨y, -, hok⟩
  · rw [total, hnan] at htotal
    cases htotal
  · rw [total, hinfinite] at htotal
    cases htotal
  · rw [evaluate_eq, ← zip_map]
    exact SliceArithmetic.evaluate_ok hok

theorem evaluate_finite {x : ℚ} (htotal : k.total left right word = .finite x)
    (hnone : ∀ operand ∈ left.toList ++ right.toList, ¬k.Overflows operand) :
    ∃ bits status, k.evaluate left right word .nonSaturating = .ok ⟨bits, status⟩ ∧
      k.RoundsSum left right k.arithmetic.prepare word .nonSaturating bits status := by
  obtain ⟨hacc, -, -⟩ := exactTotal_finite k.sound.accumulator.exponent_two htotal
  have hsum := sumSlice_spec k.sound (k.length_pairsOf left right k.arithmetic.prepare) hacc .nonSaturating .default
  rw [if_pos ((k.prepared_finite left right word htotal).mpr hnone)] at hsum
  obtain ⟨sum, -, hvalue, hevaluate⟩ := hsum
  refine ⟨_, _, ?_, k.roundsSum_of left right k.arithmetic.prepare word .nonSaturating hvalue⟩
  rw [k.evaluate_sum htotal, hevaluate, merge_default]

theorem evaluate_overflows {x : ℚ} (htotal : k.total left right word = .finite x)
    (hover : ∃ operand ∈ left.toList ++ right.toList, k.Overflows operand) :
    k.evaluate left right word .nonSaturating = panicked := by
  obtain ⟨hacc, -, -⟩ := exactTotal_finite k.sound.accumulator.exponent_two htotal
  obtain ⟨operand, hmem, hover⟩ := hover
  have hsum := sumSlice_spec k.sound (k.length_pairsOf left right k.arithmetic.prepare) hacc .nonSaturating .default
  rw [if_neg fun hall => (k.prepared_finite left right word htotal).mp hall operand hmem hover] at hsum
  rw [k.evaluate_sum htotal, hsum]

variable (left right word)

/-- No evaluator returns an error, and only an unsaturated operand that its rounding makes infinite can stop one. -/
theorem evaluate_cases (mode : Fp16Mode) : (∃ outcome, k.evaluate left right word mode = .ok outcome) ∨
    k.evaluate left right word mode = panicked ∧ mode = .nonSaturating ∧
      ∃ operand ∈ left.toList ++ right.toList, k.Overflows operand := by
  cases mode with
  | saturating =>
    obtain ⟨bits, status, heq, -⟩ := k.evaluate_saturating left right word
    exact .inl ⟨_, heq⟩
  | nonSaturating =>
    rcases checkSpecials_spec k.sound (k.pairs left right) word with
      ⟨-, status, hcheck, -⟩ | ⟨negative, -, hcheck⟩ | ⟨x, htotal, -⟩
    · exact .inl ⟨_, k.evaluate_error hcheck⟩
    · exact .inl ⟨_, k.evaluate_error hcheck⟩
    · by_cases hover : ∃ operand ∈ left.toList ++ right.toList, k.Overflows operand
      · exact .inr ⟨k.evaluate_overflows htotal hover, rfl, hover⟩
      · push Not at hover
        obtain ⟨bits, status, heq, -⟩ := k.evaluate_finite htotal hover
        exact .inl ⟨_, heq⟩

theorem evaluate_rounds_once : k.RoundsOnce left right word := by
  have hcheck := checkSpecials_spec k.sound (k.pairs left right) word
  constructor
  · exact k.evaluate_saturating left right word
  · intro htotal
    rcases hcheck with ⟨-, status, hcheck, hflags⟩ | ⟨negative, hinfinite, -⟩ | ⟨y, hfinite, -⟩
    · exact ⟨status, k.evaluate_error hcheck, hflags⟩
    · rw [total, hinfinite] at htotal
      cases htotal
    · rw [total, hfinite] at htotal
      cases htotal
  · intro negative htotal
    rcases hcheck with ⟨hnan, -⟩ | ⟨negative', hinfinite, hcheck⟩ | ⟨y, hfinite, -⟩
    · rw [total, hnan] at htotal
      cases htotal
    · rw [total, hinfinite] at htotal
      cases htotal
      exact k.evaluate_error hcheck
    · rw [total, hfinite] at htotal
      cases htotal
  · exact fun x htotal hnone => k.evaluate_finite htotal hnone
  · exact fun x htotal hover => k.evaluate_overflows htotal hover

/-- The order of the lanes does not matter to a sum of products. -/
theorem sumSlice_perm {pairs pairs' : List (BitVec k.operandWidth × BitVec k.operandWidth)} (h : pairs'.Perm pairs)
    (hlength : pairs.length < 2 ^ 20) {accumulator : BitVec k.accumulatorWidth}
    (hacc : k.accumulator.Finite accumulator.toNat) (mode : Fp16Mode) (status status' : CubeFpStatus) :
    (k.arithmetic.sumSlice pairs' accumulator mode status').map SliceOutcome.bits =
      (k.arithmetic.sumSlice pairs accumulator mode status).map SliceOutcome.bits := by
  have hfinite : (∀ pair ∈ pairs', FinitePair k.operand pair) ↔ ∀ pair ∈ pairs, FinitePair k.operand pair := by
    simp only [h.mem_iff]
  have hproducts : productSum k.operand pairs' = productSum k.operand pairs := (h.map _).sum_eq
  have hzeros : negativeZeros k.operand k.accumulator pairs' accumulator.toNat =
      negativeZeros k.operand k.accumulator pairs accumulator.toNat := by
    unfold negativeZeros
    rw [h.all_eq]
  have hspec := sumSlice_spec k.sound hlength hacc mode status
  have hspec' := sumSlice_spec k.sound (h.length_eq.trans_lt hlength) hacc mode status'
  by_cases hall : ∀ pair ∈ pairs, FinitePair k.operand pair
  · rw [if_pos hall] at hspec
    rw [if_pos (hfinite.mpr hall)] at hspec'
    obtain ⟨sum, hc, ht, hsum⟩ := hspec
    obtain ⟨sum', hc', ht', hsum'⟩ := hspec'
    have htotal : sum'.total = sum.total := by
      rw [hproducts, ← ht] at ht'
      exact_mod_cast ht'
    rw [hsum, hsum', hc'.ext hc htotal, hzeros]
    rfl
  · rw [if_neg hall] at hspec
    rw [if_neg fun h' => hall (hfinite.mp h')] at hspec'
    rw [hspec, hspec']

variable {left right} {left' right' : Vector (BitVec k.operandWidth) k.lanes}

/-- The result of a slice does not depend on the order of its lanes. -/
theorem evaluate_perm (h : (k.pairs left' right').Perm (k.pairs left right)) (mode : Fp16Mode) :
    (k.evaluate left' right' word mode).map SliceOutcome.bits =
      (k.evaluate left right word mode).map SliceOutcome.bits := by
  have hpairs (f : BitVec k.operandWidth → BitVec k.operandWidth) :
      (k.pairsOf left' right' f).Perm (k.pairsOf left right f) := h.map _
  rw [evaluate_eq, evaluate_eq]
  cases mode with
  | saturating =>
    have hsum := k.sumSlice_perm (hpairs k.arithmetic.saturate) (k.length_pairsOf left right _) (k.sound.saturateAccumulator word)
      .saturating (k.specialStatus left right word) (k.specialStatus left' right' word)
    rw [← zip_map, ← zip_map, ← saturating_status, ← saturating_status] at hsum
    exact hsum
  | nonSaturating =>
    have htotal : exactTotal k.operand k.accumulator (k.pairs left' right') word.toNat =
        exactTotal k.operand k.accumulator (k.pairs left right) word.toNat := by
      unfold exactTotal
      rw [(h.map _).sum_eq]
    have hcheck := checkSpecials_spec k.sound (k.pairs left right) word
    have hcheck' := checkSpecials_spec k.sound (k.pairs left' right') word
    rw [htotal] at hcheck'
    rcases hcheck with ⟨hnan, status, hcheck, -⟩ | ⟨negative, hinfinite, hcheck⟩ | ⟨x, hfinite, hcheck⟩
    · rw [hnan] at hcheck'
      obtain ⟨-, status', hcheck', -⟩ | ⟨negative, hsum, -⟩ | ⟨x, hsum, -⟩ := hcheck'
      · rw [SliceArithmetic.evaluate_error hcheck, SliceArithmetic.evaluate_error hcheck']
        rfl
      · cases hsum
      · cases hsum
    · rw [hinfinite] at hcheck'
      obtain ⟨hsum, -⟩ | ⟨negative', hsum, hcheck'⟩ | ⟨x, hsum, -⟩ := hcheck'
      · cases hsum
      · cases hsum
        rw [SliceArithmetic.evaluate_error hcheck, SliceArithmetic.evaluate_error hcheck']
      · cases hsum
    · have hacc := (exactTotal_finite k.sound.accumulator.exponent_two hfinite).1
      rw [hfinite] at hcheck'
      obtain ⟨hsum, -⟩ | ⟨negative, hsum, -⟩ | ⟨y, -, hcheck'⟩ := hcheck'
      · cases hsum
      · cases hsum
      · rw [SliceArithmetic.evaluate_ok hcheck, SliceArithmetic.evaluate_ok hcheck', zip_map, zip_map]
        exact k.sumSlice_perm (hpairs _) (k.length_pairsOf left right _) hacc .nonSaturating _ _

end Evaluate

/-- Lanes of binary16: numbers of both signs, the largest and a subnormal one among them, and a negative zero. -/
def someLanes : Vector (BitVec 16) 16 :=
  #v[0x3c00, 0x1000, 0xbc00, 0x7bff, 0x0001, 0x8000, 0x4200, 0xc200, 0, 0, 0, 0, 0, 0, 0x03ff, 0x3555]

def reversedLanes : Vector (BitVec 16) 16 :=
  #v[0x3555, 0x03ff, 0, 0, 0, 0, 0, 0, 0xc200, 0x4200, 0x8000, 0x0001, 0x7bff, 0xbc00, 0x1000, 0x3c00]

theorem reversed_pairs : SliceKind.f16F32.pairs reversedLanes reversedLanes =
    (SliceKind.f16F32.pairs someLanes someLanes).reverse := by decide

theorem evaluate_perm_reversed :
    (SliceKind.f16F32.evaluate reversedLanes reversedLanes 0x3f800000 .nonSaturating).map SliceOutcome.bits =
      (SliceKind.f16F32.evaluate someLanes someLanes 0x3f800000 .nonSaturating).map SliceOutcome.bits :=
  evaluate_perm .f16F32 0x3f800000 (reversed_pairs ▸ List.reverse_perm _) .nonSaturating

end SliceKind

end AscendEmulator.C220.Cube
