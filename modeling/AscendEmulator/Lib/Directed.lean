/-
  AscendEmulator.Lib.Directed — rounding otherwise than to the nearest even, and the order of the words of a format.

  (1) The numbers of a format that a number is rounded to: the nearest one, the one further from zero of two; the one
      below, above or toward zero; the neighbour whose significand is odd. As in `NearestEven` the exponent has no
      upper bound.
  (2) To round so is to round an integer at the right scale.
  (3) Words in the order of their magnitudes are in the order of their numbers, infinities included.
-/

import AscendEmulator.Lib.Rounding

namespace AscendEmulator.Lib

/-! ## (1) Directions -/

section Predicates

variable (p : Nat) (emin : Int) (x y : ℚ)

/-- Of the significands of `x`, the one with the most bits is odd. -/
def OddSignificand : Prop :=
  ∃ n e : Int, emin ≤ e ∧ |n| < 2 ^ p ∧ (2 ^ (p - 1) ≤ |n| ∨ e = emin) ∧ Odd n ∧ x = n * 2 ^ e

structure NearestAway : Prop where
  representable : Representable p emin y
  nearest : ∀ z, Representable p emin z → |x - y| ≤ |x - z|
  tie : ∀ z, Representable p emin z → z ≠ y → |x - z| = |x - y| → |z| < |y|

def RoundsDown : Prop := IsGreatest {z | Representable p emin z ∧ z ≤ x} y

def RoundsUp : Prop := IsLeast {z | Representable p emin z ∧ x ≤ z} y

def RoundsTowardZero : Prop := if 0 ≤ x then RoundsDown p emin x y else RoundsUp p emin x y

/-- A number of the format stays; any other goes to the one of its two neighbours that is odd. -/
structure RoundsOdd : Prop where
  exact : Representable p emin x → y = x
  neighbour : RoundsDown p emin x y ∨ RoundsUp p emin x y
  odd : ¬ Representable p emin x → OddSignificand p emin y

end Predicates

variable {p : Nat} {emin e : Int} {x y t : ℚ} {n : Int}

theorem OddSignificand.neg (h : OddSignificand p emin x) : OddSignificand p emin (-x) := by
  obtain ⟨n, e, he, hn, hlow, hodd, rfl⟩ := h
  exact ⟨-n, e, he, by rwa [abs_neg], by rwa [abs_neg], hodd.neg, by push_cast; ring⟩

theorem NearestAway.neg (h : NearestAway p emin x y) : NearestAway p emin (-x) (-y) where
  representable := h.representable.neg
  nearest := by
    intro z hz
    rw [← abs_sub_neg, ← abs_sub_neg, neg_neg]
    exact h.nearest (-z) hz.neg
  tie := by
    intro z hz hne heq
    rw [← abs_neg z, abs_neg y]
    refine h.tie (-z) hz.neg (fun he => hne (by rw [← he, neg_neg])) ?_
    rw [abs_sub_neg, heq, ← abs_sub_neg, neg_neg]

theorem RoundsDown.neg (h : RoundsDown p emin x y) : RoundsUp p emin (-x) (-y) := by
  refine ⟨⟨h.1.1.neg, neg_le_neg h.1.2⟩, fun z hz => ?_⟩
  exact neg_le.mp (h.2 ⟨hz.1.neg, neg_le.mp hz.2⟩)

theorem RoundsUp.neg (h : RoundsUp p emin x y) : RoundsDown p emin (-x) (-y) := by
  refine ⟨⟨h.1.1.neg, neg_le_neg h.1.2⟩, fun z hz => ?_⟩
  exact le_neg.mp (h.2 ⟨hz.1.neg, le_neg.mp hz.2⟩)

theorem RoundsOdd.neg (h : RoundsOdd p emin x y) : RoundsOdd p emin (-x) (-y) where
  exact hx := by rw [h.exact (by simpa using hx.neg)]
  neighbour := h.neighbour.symm.imp RoundsUp.neg RoundsDown.neg
  odd hx := (h.odd fun hrep => hx hrep.neg).neg

theorem NearestAway.sign (h : NearestAway p emin x y) (negative : Bool) :
    NearestAway p emin (Format.sign negative * x) (Format.sign negative * y) := by
  cases negative with
  | false => simpa [Format.sign] using h
  | true => simpa [Format.sign] using h.neg

theorem RoundsOdd.sign (h : RoundsOdd p emin x y) (negative : Bool) :
    RoundsOdd p emin (Format.sign negative * x) (Format.sign negative * y) := by
  cases negative with
  | false => simpa [Format.sign] using h
  | true => simpa [Format.sign] using h.neg

/-! ## (2) Rounding an integer -/

theorem int_le_of_lt_add_one {i j : Int} (h : (i : ℚ) < j + 1) : i ≤ j := by
  have : i < j + 1 := by exact_mod_cast h
  omega

section Scaled

variable (hp : 2 ≤ p) (h0 : 0 ≤ t) (htop : t < 2 ^ p) (hlow : 2 ^ (p - 1) ≤ t ∨ e = emin) (he : emin ≤ e)

include hp h0 htop hlow he

theorem roundsDown_scaled (hle : n ≤ t) (hlt : t < n + 1) : RoundsDown p emin (t * 2 ^ e) (n * 2 ^ e) := by
  have hu : (0 : ℚ) < 2 ^ e := by positivity
  have hn0 : 0 ≤ n := int_le_of_lt_add_one (by push_cast; linarith)
  have hntop : n ≤ 2 ^ p := int_le_of_lt_add_one (by push_cast; linarith)
  refine ⟨⟨representable_scaled hp hn0 hntop he, mul_le_mul_of_nonneg_right hle hu.le⟩, ?_⟩
  rintro z ⟨hz, hzt⟩
  rcases hz.grid hp hlow with ⟨j, rfl⟩ | ⟨ht, hbelow⟩
  · have hjn : j ≤ n := int_le_of_lt_add_one ((le_of_mul_le_mul_right hzt hu).trans_lt hlt)
    exact mul_le_mul_of_nonneg_right (by exact_mod_cast hjn) hu.le
  · have hln : (2 : Int) ^ (p - 1) ≤ n := int_le_of_lt_add_one (by push_cast; linarith)
    have hnq : (2 : ℚ) ^ (p - 1) ≤ n := by exact_mod_cast hln
    exact (le_abs_self z).trans (hbelow.le.trans (mul_le_mul_of_nonneg_right hnq hu.le))

theorem roundsUp_scaled (hle : t ≤ n) (hlt : n < t + 1) : RoundsUp p emin (t * 2 ^ e) (n * 2 ^ e) := by
  have hu : (0 : ℚ) < 2 ^ e := by positivity
  have hn0 : 0 ≤ n := by exact_mod_cast h0.trans hle
  have hntop : n ≤ 2 ^ p := int_le_of_lt_add_one (by push_cast; linarith)
  refine ⟨⟨representable_scaled hp hn0 hntop he, mul_le_mul_of_nonneg_right hle hu.le⟩, ?_⟩
  rintro z ⟨hz, hzt⟩
  rcases hz.grid hp hlow with ⟨j, rfl⟩ | ⟨ht, hbelow⟩
  · have htj : t ≤ j := le_of_mul_le_mul_right hzt hu
    have hnj : n ≤ j := int_le_of_lt_add_one (by linarith)
    exact mul_le_mul_of_nonneg_right (by exact_mod_cast hnj) hu.le
  · have hup := mul_le_mul_of_nonneg_right ht hu.le
    exact absurd (hzt.trans (le_abs_self z)) (by linarith)

theorem nearestAway_scaled (hclose : |t - n| ≤ 1 / 2) (htie : |t - n| = 1 / 2 → t ≤ n) :
    NearestAway p emin (t * 2 ^ e) (n * 2 ^ e) := by
  have hu : (0 : ℚ) < 2 ^ e := by positivity
  have hbounds := abs_le.mp hclose
  have hn0 : 0 ≤ n := int_le_of_lt_add_one (by push_cast; linarith)
  have hntop : n ≤ 2 ^ p := int_le_of_lt_add_one (by push_cast; linarith)
  have hnear : ∀ j : Int, |t - n| ≤ |t - j| := by
    intro j
    by_cases hj : j = n
    · rw [hj]
    · have := one_le_distances (t := t) hj
      linarith
  constructor
  · exact representable_scaled hp hn0 hntop he
  · intro z hz
    rcases nearest_scaled hp hnear hz hlow with ⟨j, rfl⟩ | hlt
    · rw [abs_sub_scaled, abs_sub_scaled]
      exact mul_le_mul_of_nonneg_right (hnear j) hu.le
    · exact hlt.le
  · intro z hz hne heq
    rcases nearest_scaled hp hnear hz hlow with ⟨j, rfl⟩ | hlt
    · rw [abs_sub_scaled, abs_sub_scaled] at heq
      have hj : j ≠ n := fun hj => hne (by rw [hj])
      have hdist := mul_right_cancel₀ hu.ne' heq
      have hhalf : |t - n| = 1 / 2 := by
        have := one_le_distances (t := t) hj
        linarith
      have htn := htie hhalf
      have hjhalf := hdist.trans hhalf
      rw [abs_of_nonpos (by linarith)] at hhalf
      -- `t` is the half below `n`, and the other integer as near is `n - 1`
      have hjn : (j : ℚ) = n - 1 := by
        rcases (abs_eq (by norm_num)).mp hjhalf with hright | hleft
        · linarith
        · exact absurd (show (j : ℚ) = n by linarith) (by exact_mod_cast hj)
      have hpos : 1 ≤ n := int_le_of_lt_add_one (by push_cast; linarith)
      have hnq : (1 : ℚ) ≤ n := by exact_mod_cast hpos
      have htj : (j : ℚ) < n := by linarith
      have hj0 : (0 : ℚ) ≤ j := by linarith
      rw [abs_mul, abs_mul, abs_of_nonneg hj0, abs_of_nonneg (hj0.trans htj.le), abs_of_pos hu]
      exact mul_lt_mul_of_pos_right htj hu
    · exact absurd heq hlt.ne'

theorem roundsOdd_scaled (hclose : |t - n| < 1) (hodd : t ≠ n → Odd n) :
    RoundsOdd p emin (t * 2 ^ e) (n * 2 ^ e) := by
  have hu : (0 : ℚ) < 2 ^ e := by positivity
  have hbounds := abs_lt.mp hclose
  have hn0 : 0 ≤ n := int_le_of_lt_add_one (by push_cast; linarith)
  have hntop : n ≤ 2 ^ p := int_le_of_lt_add_one (by push_cast; linarith)
  constructor
  · intro hx
    rcases hx.grid hp hlow with ⟨j, hj⟩ | ⟨ht, hbelow⟩
    · have hjt : t = j := mul_right_cancel₀ hu.ne' hj
      have hjn : n = j := by
        refine le_antisymm ?_ ?_ <;> exact int_le_of_lt_add_one (by rw [hjt] at hbounds; linarith)
      rw [hjt, hjn]
    · rw [abs_of_nonneg (by positivity)] at hbelow
      exact absurd hbelow (not_lt.mpr (mul_le_mul_of_nonneg_right ht hu.le))
  · rcases le_or_gt (n : ℚ) t with hle | hlt
    · exact .inl (roundsDown_scaled hp h0 htop hlow he hle (by linarith))
    · exact .inr (roundsUp_scaled hp h0 htop hlow he hlt.le (by linarith))
  · intro hx
    have hn : Odd n := hodd fun heq => hx (heq ▸ representable_scaled hp hn0 hntop he)
    have hlt : n < 2 ^ p := by
      refine lt_of_le_of_ne hntop ?_
      rintro rfl
      exact Int.not_odd_iff_even.mpr (Int.even_pow.mpr ⟨even_two, by omega⟩) hn
    refine ⟨n, e, he, by rwa [abs_of_nonneg hn0], hlow.imp_left fun ht => ?_, hn, rfl⟩
    rw [abs_of_nonneg hn0]
    exact int_le_of_lt_add_one (by push_cast; linarith)

end Scaled

/-! ## (3) The order of words -/

namespace Format

variable (F : Format)

/-- The number of a positive word, as if the exponent had no bound. -/
def amount (bits : Nat) : ℚ :=
  (if bits / 2 ^ F.fractionBits = 0 then bits else 2 ^ F.fractionBits + bits % 2 ^ F.fractionBits : Nat) *
    2 ^ (F.emin + (bits / 2 ^ F.fractionBits - 1 : Nat))

/-- Without its sign bit. -/
def magnitude (bits : Nat) : Nat := bits % 2 ^ (F.fractionBits + F.exponentBits)

/-- The magnitude of an infinity. -/
def infinity : Nat := 2 ^ F.fractionBits * (2 ^ F.exponentBits - 1)

/-- The number of a word that is not a NaN. -/
noncomputable def extended (bits : Nat) : EReal :=
  if F.Finite bits then ((F.value bits : ℝ) : EReal) else if F.negative bits then ⊥ else ⊤

def NotNan (bits : Nat) : Prop := F.Finite bits ∨ F.fraction bits = 0

instance (bits : Nat) : Decidable (F.NotNan bits) := inferInstanceAs (Decidable (_ ∨ _))

/-- The magnitude with its sign. -/
def key (bits : Nat) : Int := if F.negative bits then -F.magnitude bits else F.magnitude bits

variable {F} {bits a b : Nat}

theorem exponent_eq : F.exponent bits = F.magnitude bits / 2 ^ F.fractionBits := by
  rw [exponent, magnitude, pow_add, Nat.mod_mul_right_div_self]

theorem fraction_eq : F.fraction bits = F.magnitude bits % 2 ^ F.fractionBits := by
  rw [fraction, magnitude, pow_add, Nat.mod_mul_right_mod]

theorem abs_value_eq_amount : |F.value bits| = F.amount (F.magnitude bits) := by
  rw [abs_value, significand, scale, amount, ← exponent_eq, ← fraction_eq]
  split_ifs with h
  · have hm : F.magnitude bits = F.fraction bits := by
      have := Nat.div_add_mod (F.magnitude bits) (2 ^ F.fractionBits)
      rw [← exponent_eq, ← fraction_eq, h, Nat.mul_zero, Nat.zero_add] at this
      exact this.symm
    rw [hm]
  · rfl

theorem value_eq_amount : F.value bits = sign (F.negative bits) * F.amount (F.magnitude bits) := by
  rw [← abs_value_eq_amount, abs_value, value]

/-- A significand that carries is one at the next exponent. -/
theorem amount_scaled {k n : Nat} (htop : n ≤ 2 ^ (F.fractionBits + 1)) (hlow : 2 ^ F.fractionBits ≤ n ∨ k = 0) :
    F.amount (2 ^ F.fractionBits * k + n) = n * 2 ^ (F.emin + k) := by
  have hpos := Nat.two_pow_pos F.fractionBits
  rw [pow_succ] at htop
  have hdiv : (2 ^ F.fractionBits * k + n) / 2 ^ F.fractionBits = k + n / 2 ^ F.fractionBits := by
    rw [Nat.mul_add_div hpos]
  have hmod : (2 ^ F.fractionBits * k + n) % 2 ^ F.fractionBits = n % 2 ^ F.fractionBits := by
    rw [Nat.mul_add_mod]
  rw [amount, hdiv, hmod]
  rcases Nat.lt_or_ge n (2 ^ F.fractionBits) with hlt | hge
  · obtain rfl : k = 0 := hlow.resolve_left (by omega)
    rw [Nat.div_eq_of_lt hlt, Nat.add_zero, if_pos rfl, Nat.mul_zero, Nat.zero_add]
  rcases htop.lt_or_eq with hlt | rfl
  · have hone : n / 2 ^ F.fractionBits = 1 := Nat.div_eq_of_lt_le (by omega) (by omega)
    have hsig : 2 ^ F.fractionBits + n % 2 ^ F.fractionBits = n := by
      rw [Nat.mod_eq_sub_mod hge, Nat.mod_eq_of_lt (by omega)]
      omega
    rw [hone, if_neg (by omega), hsig, Nat.add_sub_cancel]
  · rw [Nat.mul_div_cancel_left _ hpos, if_neg (by omega), Nat.mul_mod_right, Nat.add_zero,
      show k + 2 - 1 = k + 1 by omega, Nat.cast_add_one, ← add_assoc, zpow_add_one₀ (by norm_num)]
    push_cast
    ring

theorem amount_strictMono : StrictMono F.amount := by
  refine strictMono_nat_of_lt_succ fun m => ?_
  have hpos := Nat.two_pow_pos F.fractionBits
  have hmod := Nat.mod_lt m hpos
  have hsplit := Nat.div_add_mod m (2 ^ F.fractionBits)
  by_cases hm : m / 2 ^ F.fractionBits = 0
  · rw [hm, Nat.mul_zero, Nat.zero_add] at hsplit
    have hle : m + 1 ≤ 2 ^ (F.fractionBits + 1) := by rw [pow_succ]; omega
    have h := amount_scaled (F := F) (k := 0) (n := m) (by omega) (.inr rfl)
    have h' := amount_scaled (F := F) (k := 0) (n := m + 1) hle (.inr rfl)
    rw [Nat.mul_zero, Nat.zero_add] at h h'
    rw [h, h']
    exact mul_lt_mul_of_pos_right (by push_cast; linarith) (by positivity)
  · obtain ⟨k, hk⟩ := Nat.exists_eq_succ_of_ne_zero hm
    have hsum : m = 2 ^ F.fractionBits * k + (2 ^ F.fractionBits + m % 2 ^ F.fractionBits) := by
      rw [hk, Nat.mul_succ] at hsplit
      omega
    have htop : 2 ^ F.fractionBits + m % 2 ^ F.fractionBits + 1 ≤ 2 ^ (F.fractionBits + 1) := by rw [pow_succ]; omega
    have h := amount_scaled (F := F) (k := k) (n := 2 ^ F.fractionBits + m % 2 ^ F.fractionBits) (by omega)
      (.inl (by omega))
    have h' := amount_scaled (F := F) (k := k) (n := 2 ^ F.fractionBits + m % 2 ^ F.fractionBits + 1) htop
      (.inl (by omega))
    rw [← hsum] at h
    rw [show 2 ^ F.fractionBits * k + (2 ^ F.fractionBits + m % 2 ^ F.fractionBits + 1) = m + 1 by omega] at h'
    rw [h, h']
    exact mul_lt_mul_of_pos_right (by push_cast; linarith) (by positivity)

theorem amount_zero : F.amount 0 = 0 := by
  simp [amount]

theorem amount_nonneg (m : Nat) : 0 ≤ F.amount m := by
  rw [← amount_zero (F := F)]
  exact amount_strictMono.monotone m.zero_le

theorem finite_iff : F.Finite bits ↔ F.magnitude bits < F.infinity := by
  rw [Finite, exponent_eq, infinity, Nat.mul_comm, Nat.div_lt_iff_lt_mul (Nat.two_pow_pos _)]

theorem magnitude_le (h : F.NotNan bits) : F.magnitude bits ≤ F.infinity := by
  rcases h with h | h
  · exact (finite_iff.mp h).le
  · have he : F.exponent bits < 2 ^ F.exponentBits := Nat.mod_lt _ (Nat.two_pow_pos _)
    have hsplit := Nat.div_add_mod (F.magnitude bits) (2 ^ F.fractionBits)
    rw [← exponent_eq, ← fraction_eq, h, Nat.add_zero] at hsplit
    rw [← hsplit, infinity]
    exact Nat.mul_le_mul_left _ (by omega)

/-- The number of a positive word that is not a NaN. -/
noncomputable def above (F : Format) (m : Nat) : EReal := if m < F.infinity then ((F.amount m : ℝ) : EReal) else ⊤

theorem extended_eq : F.extended bits =
    if F.negative bits then -F.above (F.magnitude bits) else F.above (F.magnitude bits) := by
  simp only [extended, above, finite_iff, value_eq_amount]
  cases F.negative bits <;> split_ifs <;> simp_all [sign]

theorem above_le_iff (ha : a ≤ F.infinity) (hb : b ≤ F.infinity) : F.above a ≤ F.above b ↔ a ≤ b := by
  unfold above
  split_ifs with hla hlb hlb
  · rw [EReal.coe_le_coe_iff, Rat.cast_le, amount_strictMono.le_iff_le]
  · exact iff_of_true le_top (by omega)
  · exact iff_of_false (not_le.mpr (EReal.coe_lt_top _)) (by omega)
  · exact iff_of_true le_rfl (by omega)

theorem above_zero (hF : 0 < F.infinity) : F.above 0 = 0 := by
  rw [above, if_pos hF, amount_zero]
  simp

/-- The order of the numbers is that of the words. -/
theorem extended_le_iff (hF : 0 < F.infinity) (ha : F.NotNan a) (hb : F.NotNan b) :
    F.extended a ≤ F.extended b ↔ F.key a ≤ F.key b := by
  have hla := magnitude_le ha
  have hlb := magnitude_le hb
  have hzero {m : Nat} (hm : m ≤ F.infinity) : 0 ≤ F.above m ∧ (F.above m ≤ 0 ↔ m = 0) := by
    rw [← above_zero hF, above_le_iff hF.le hm, above_le_iff hm hF.le]
    omega
  obtain ⟨hpa, hza⟩ := hzero hla
  obtain ⟨hpb, hzb⟩ := hzero hlb
  rw [extended_eq, extended_eq, key, key]
  cases hna : F.negative a <;> cases hnb : F.negative b
  · simp only [Bool.false_eq_true, if_false, above_le_iff hla hlb]
    omega
  · simp only [Bool.false_eq_true, if_false, if_true]
    constructor
    · intro h
      have hnonpos : -F.above (F.magnitude b) ≤ 0 := by simpa using hpb
      have hma := hza.mp (h.trans hnonpos)
      have hmb := hzb.mp (by simpa using hpa.trans h)
      omega
    · intro h
      refine (hza.mpr (by omega)).trans ?_
      rw [show F.magnitude b = 0 by omega, above_zero hF]
      simp
  · simp only [Bool.false_eq_true, if_false, if_true]
    refine iff_of_true (le_trans ?_ hpb) (by omega)
    simpa using hpa
  · simp only [if_true, EReal.neg_le_neg_iff, above_le_iff hlb hla]
    omega

end Format

end AscendEmulator.Lib
