/-
  AscendEmulator.Lib.Limbs — naturals as lists of 64-bit limbs, the lowest first.

  Each operation on limbs has one lemma that says what it does to the value.
-/

import Mathlib

namespace AscendEmulator.Lib.Limbs

/-- The number that the limbs write in base 2^64. -/
def value (limbs : List UInt64) : Nat := Nat.ofDigits (2 ^ 64) (limbs.map UInt64.toNat)

@[simp] theorem value_nil : value [] = 0 := rfl

@[simp] theorem value_cons (x : UInt64) (xs : List UInt64) : value (x :: xs) = x.toNat + 2 ^ 64 * value xs := by
  simp [value, Nat.ofDigits_cons]

theorem value_append (xs ys : List UInt64) : value (xs ++ ys) = value xs + 2 ^ (64 * xs.length) * value ys := by
  simp [value, Nat.ofDigits_append, pow_mul]

@[simp] theorem value_snoc (xs : List UInt64) (x : UInt64) :
    value (xs ++ [x]) = value xs + 2 ^ (64 * xs.length) * x.toNat := by
  simp [value_append]

theorem value_lt (xs : List UInt64) : value xs < 2 ^ (64 * xs.length) := by
  have h := Nat.ofDigits_lt_base_pow_length (b := 2 ^ 64) (l := xs.map UInt64.toNat) (by decide) (by
    intro d hd
    obtain ⟨x, -, rfl⟩ := List.mem_map.mp hd
    exact x.toNat_lt)
  rwa [List.length_map, ← pow_mul] at h

theorem two_pow_limbs (n : Nat) : 2 ^ (64 * (n + 1)) = 2 ^ 64 * 2 ^ (64 * n) := by
  rw [← pow_add]
  congr 1
  omega

theorem value_replicate_zero (n : Nat) : value (List.replicate n 0) = 0 := by
  induction n with
  | zero => rfl
  | succ n ih => simp [List.replicate_succ, ih]

/-- A zero number has only zero limbs. -/
theorem value_eq_zero {xs : List UInt64} : value xs = 0 ↔ ∀ x ∈ xs, x = 0 := by
  induction xs with
  | nil => simp
  | cons x xs ih =>
    rw [value_cons, Nat.add_eq_zero_iff, List.forall_mem_cons, ← ih]
    have hx : x.toNat = 0 ↔ x = 0 := by rw [← UInt64.toNat_inj]; rfl
    simp [hx]

/-- The lowest limb. -/
theorem toNat_head (xs : List UInt64) : (xs[0]?.getD 0).toNat = value xs % 2 ^ 64 := by
  cases xs with
  | nil => rfl
  | cons x xs =>
    rw [value_cons, Nat.add_mul_mod_self_left, Nat.mod_eq_of_lt x.toNat_lt]
    rfl

/-! ## Carries and borrows -/

/-- `u64::overflowing_add`. -/
def overflowingAdd (a b : UInt64) : UInt64 × Bool := (a + b, decide (2 ^ 64 ≤ a.toNat + b.toNat))

/-- `u64::overflowing_sub`. -/
def overflowingSub (a b : UInt64) : UInt64 × Bool := (a - b, decide (a.toNat < b.toNat))

theorem overflowingAdd_spec (a b : UInt64) :
    (overflowingAdd a b).1.toNat + 2 ^ 64 * (overflowingAdd a b).2.toNat = a.toNat + b.toNat := by
  have ha := a.toNat_lt
  have hb := b.toNat_lt
  unfold overflowingAdd
  dsimp only
  rw [UInt64.toNat_add]
  by_cases h : 2 ^ 64 ≤ a.toNat + b.toNat
  · rw [decide_eq_true h, Bool.toNat_true]
    omega
  · rw [decide_eq_false h, Bool.toNat_false]
    omega

theorem overflowingSub_spec (a b : UInt64) :
    (overflowingSub a b).1.toNat + b.toNat = a.toNat + 2 ^ 64 * (overflowingSub a b).2.toNat := by
  have ha := a.toNat_lt
  have hb := b.toNat_lt
  unfold overflowingSub
  dsimp only
  rw [UInt64.toNat_sub]
  by_cases h : a.toNat < b.toNat
  · rw [decide_eq_true h, Bool.toNat_true]
    omega
  · rw [decide_eq_false h, Bool.toNat_false]
    omega

/-- The limbs of the sum, and the carry out of the last one. -/
def addCarry : List UInt64 → List UInt64 → Bool → List UInt64 × Bool
  | x :: xs, y :: ys, carry =>
    let first := overflowingAdd x y
    let second := overflowingAdd first.1 carry.toUInt64
    let rest := addCarry xs ys (first.2 || second.2)
    (second.1 :: rest.1, rest.2)
  | xs, _, carry => (xs, carry)

/-- The limbs of the difference, and the borrow of the last one. -/
def subBorrow : List UInt64 → List UInt64 → Bool → List UInt64 × Bool
  | x :: xs, y :: ys, borrow =>
    let first := overflowingSub x y
    let second := overflowingSub first.1 borrow.toUInt64
    let rest := subBorrow xs ys (first.2 || second.2)
    (second.1 :: rest.1, rest.2)
  | xs, _, borrow => (xs, borrow)

theorem toNat_toUInt64 (b : Bool) : b.toUInt64.toNat = b.toNat := by cases b <;> rfl

@[simp] theorem length_addCarry (xs ys : List UInt64) (carry : Bool) :
    (addCarry xs ys carry).1.length = xs.length := by
  induction xs, ys, carry using addCarry.induct with
  | case1 x xs y ys carry first second ih => simpa [addCarry] using ih
  | case2 xs ys carry h => rw [addCarry]; exact h

@[simp] theorem length_subBorrow (xs ys : List UInt64) (borrow : Bool) :
    (subBorrow xs ys borrow).1.length = xs.length := by
  induction xs, ys, borrow using subBorrow.induct with
  | case1 x xs y ys borrow first second ih => simpa [subBorrow] using ih
  | case2 xs ys borrow h => rw [subBorrow]; exact h

theorem value_addCarry {xs ys : List UInt64} (carry : Bool) (h : xs.length = ys.length) :
    value (addCarry xs ys carry).1 + 2 ^ (64 * xs.length) * (addCarry xs ys carry).2.toNat =
      value xs + value ys + carry.toNat := by
  induction xs generalizing ys carry with
  | nil =>
    obtain rfl := List.length_eq_zero_iff.mp h.symm
    simp [addCarry]
  | cons x xs ih =>
    obtain ⟨y, ys, rfl⟩ := List.exists_cons_of_length_eq_add_one h.symm
    have hfirst := overflowingAdd_spec x y
    have hsecond := overflowingAdd_spec (overflowingAdd x y).1 carry.toUInt64
    rw [toNat_toUInt64] at hsecond
    have hrest := ih ((overflowingAdd x y).2 || (overflowingAdd (overflowingAdd x y).1 carry.toUInt64).2)
      (Nat.succ.inj h)
    -- the two additions of a limb do not both carry
    have hor : ((overflowingAdd x y).2 || (overflowingAdd (overflowingAdd x y).1 carry.toUInt64).2).toNat =
        (overflowingAdd x y).2.toNat + (overflowingAdd (overflowingAdd x y).1 carry.toUInt64).2.toNat := by
      have hx := x.toNat_lt
      have hy := y.toNat_lt
      have hc := Bool.toNat_le carry
      cases h1 : (overflowingAdd x y).2 <;> cases h2 : (overflowingAdd (overflowingAdd x y).1 carry.toUInt64).2 <;>
        simp_all
      omega
    rw [hor] at hrest
    rw [List.length_cons, two_pow_limbs, mul_assoc]
    simp only [addCarry, value_cons]
    omega

theorem value_subBorrow {xs ys : List UInt64} (borrow : Bool) (h : xs.length = ys.length) :
    value (subBorrow xs ys borrow).1 + value ys + borrow.toNat =
      value xs + 2 ^ (64 * xs.length) * (subBorrow xs ys borrow).2.toNat := by
  induction xs generalizing ys borrow with
  | nil =>
    obtain rfl := List.length_eq_zero_iff.mp h.symm
    simp [subBorrow]
  | cons x xs ih =>
    obtain ⟨y, ys, rfl⟩ := List.exists_cons_of_length_eq_add_one h.symm
    have hfirst := overflowingSub_spec x y
    have hsecond := overflowingSub_spec (overflowingSub x y).1 borrow.toUInt64
    rw [toNat_toUInt64] at hsecond
    have hrest := ih ((overflowingSub x y).2 || (overflowingSub (overflowingSub x y).1 borrow.toUInt64).2)
      (Nat.succ.inj h)
    have hor : ((overflowingSub x y).2 || (overflowingSub (overflowingSub x y).1 borrow.toUInt64).2).toNat =
        (overflowingSub x y).2.toNat + (overflowingSub (overflowingSub x y).1 borrow.toUInt64).2.toNat := by
      have hy := y.toNat_lt
      have hd := (overflowingSub (overflowingSub x y).1 borrow.toUInt64).1.toNat_lt
      have hb := Bool.toNat_le borrow
      cases h1 : (overflowingSub x y).2 <;> cases h2 : (overflowingSub (overflowingSub x y).1 borrow.toUInt64).2 <;>
        simp_all
      omega
    rw [hor] at hrest
    rw [List.length_cons, two_pow_limbs, mul_assoc]
    simp only [subBorrow, value_cons]
    omega

/-- A sum that carries out is too large for the limbs. -/
theorem value_add_of_lt {xs ys : List UInt64} (h : xs.length = ys.length)
    (hlt : value xs + value ys < 2 ^ (64 * xs.length)) :
    (addCarry xs ys false).2 = false ∧ value (addCarry xs ys false).1 = value xs + value ys := by
  have hv := value_addCarry false h
  cases hc : (addCarry xs ys false).2 with
  | true =>
    rw [hc] at hv
    simp only [Bool.toNat_true, Bool.toNat_false] at hv
    omega
  | false =>
    rw [hc] at hv
    simp only [Bool.toNat_false] at hv
    exact ⟨rfl, by omega⟩

theorem value_sub_of_le {xs ys : List UInt64} (h : xs.length = ys.length) (hle : value ys ≤ value xs) :
    value (subBorrow xs ys false).1 = value xs - value ys := by
  have hv := value_subBorrow false h
  have hlt := value_lt (subBorrow xs ys false).1
  rw [length_subBorrow] at hlt
  cases hc : (subBorrow xs ys false).2 with
  | true =>
    rw [hc] at hv
    simp only [Bool.toNat_true, Bool.toNat_false] at hv
    omega
  | false =>
    rw [hc] at hv
    simp only [Bool.toNat_false] at hv
    omega

/-! ## Order -/

/-- The limbs compared from the highest. -/
def compareLimbs (xs ys : List UInt64) : Ordering := compare xs.reverse ys.reverse

theorem compare_toNat (x y : UInt64) : compare x y = compare x.toNat y.toNat := by
  show compareOfLessAndEq x y = compareOfLessAndEq x.toNat y.toNat
  unfold compareOfLessAndEq
  simp only [UInt64.lt_iff_toNat_lt, ← UInt64.toNat_inj]

theorem compare_reversed (xs ys : List UInt64) (h : xs.length = ys.length) :
    compare xs ys = compare (value xs.reverse) (value ys.reverse) := by
  induction xs generalizing ys with
  | nil =>
    obtain rfl := List.length_eq_zero_iff.mp h.symm
    rfl
  | cons x xs ih =>
    obtain ⟨y, ys, rfl⟩ := List.exists_cons_of_length_eq_add_one h.symm
    have hlen : xs.length = ys.length := Nat.succ.inj h
    have hxs := value_lt xs.reverse
    have hys := value_lt ys.reverse
    rw [List.length_reverse] at hxs hys
    have hcons : compare (x :: xs) (y :: ys) = (compare x y).then (compare xs ys) := by
      show List.compareLex compare (x :: xs) (y :: ys) = _
      rw [List.compareLex_cons_cons]
      rfl
    rw [hcons, ih ys hlen, compare_toNat, List.reverse_cons, List.reverse_cons, value_snoc, value_snoc,
      List.length_reverse, List.length_reverse, ← hlen]
    rw [← hlen] at hys
    rcases lt_trichotomy x.toNat y.toNat with hxy | hxy | hxy
    · have : 2 ^ (64 * xs.length) * (x.toNat + 1) ≤ 2 ^ (64 * xs.length) * y.toNat := Nat.mul_le_mul_left _ hxy
      rw [compare_lt_iff_lt.mpr hxy, Ordering.lt_then, eq_comm, compare_lt_iff_lt]
      rw [Nat.mul_add] at this
      omega
    · rw [compare_eq_iff_eq.mpr hxy, hxy]
      show compare _ _ = _
      rcases lt_trichotomy (value xs.reverse) (value ys.reverse) with hv | hv | hv
      · rw [compare_lt_iff_lt.mpr hv, eq_comm, compare_lt_iff_lt]
        omega
      · rw [compare_eq_iff_eq.mpr hv, eq_comm, compare_eq_iff_eq]
        omega
      · rw [compare_gt_iff_gt.mpr hv, eq_comm, compare_gt_iff_gt]
        omega
    · have : 2 ^ (64 * xs.length) * (y.toNat + 1) ≤ 2 ^ (64 * xs.length) * x.toNat := Nat.mul_le_mul_left _ hxy
      rw [compare_gt_iff_gt.mpr hxy, Ordering.gt_then, eq_comm, compare_gt_iff_gt]
      rw [Nat.mul_add] at this
      omega

theorem compareLimbs_eq {xs ys : List UInt64} (h : xs.length = ys.length) :
    compareLimbs xs ys = compare (value xs) (value ys) := by
  rw [compareLimbs, compare_reversed _ _ (by simpa using h), List.reverse_reverse, List.reverse_reverse]

/-! ## Bits -/

/-- `u64::leading_zeros`. -/
def leadingZeros (x : UInt64) : Nat := if x = 0 then 64 else 63 - x.toNat.log2

/-- The index of the highest bit that is set. -/
def highestBit (xs : List UInt64) : Option Nat :=
  xs.zipIdx.reverse.findSome? fun (limb, index) => if limb ≠ 0 then some (index * 64 + 63 - leadingZeros limb) else none

def bit (xs : List UInt64) (index : Nat) : Bool :=
  (xs[index / 64]?).any fun limb => limb &&& (1 <<< (index % 64).toUInt64) != 0

/-- Is a bit below `index` set? -/
def anyBitsBelow (xs : List UInt64) (index : Nat) : Bool :=
  (xs.take (index / 64)).any (· != 0) ||
    (index % 64 != 0 && xs[index / 64]?.getD 0 &&& ((1 <<< (index % 64).toUInt64) - 1) != 0)

/-- The 64 bits from `shift` on. -/
def lowAfterShift (xs : List UInt64) (shift : Nat) : UInt64 :=
  let low := xs[shift / 64]?.getD 0 >>> (shift % 64).toUInt64
  if shift % 64 = 0 then low else low ||| xs[shift / 64 + 1]?.getD 0 <<< (64 - shift % 64).toUInt64

theorem highestBit_eq (xs : List UInt64) : highestBit xs = if value xs = 0 then none else some (value xs).log2 := by
  induction xs using List.reverseRecOn with
  | nil => rfl
  | append_singleton xs x ih =>
    have hsnoc : highestBit (xs ++ [x]) =
        if x ≠ 0 then some (xs.length * 64 + 63 - leadingZeros x) else highestBit xs := by
      unfold highestBit
      rw [List.zipIdx_append, List.reverse_append]
      by_cases hx : x = 0 <;> simp [hx]
    rw [hsnoc, ih, value_snoc]
    by_cases hx : x = 0
    · simp [hx]
    · have hx0 : x.toNat ≠ 0 := fun h => hx (UInt64.toNat_inj.mp h)
      have hlow := Nat.log2_self_le hx0
      have hhigh := Nat.lt_log2_self (n := x.toNat)
      have hlog : x.toNat.log2 < 64 := (Nat.log2_lt hx0).mpr x.toNat_lt
      have hvalue := value_lt xs
      have hne : value xs + 2 ^ (64 * xs.length) * x.toNat ≠ 0 := by positivity
      rw [if_pos hx, if_neg hne, leadingZeros, if_neg hx, Option.some.injEq, eq_comm, Nat.log2_eq_iff hne]
      have hexp : xs.length * 64 + 63 - (63 - x.toNat.log2) = 64 * xs.length + x.toNat.log2 := by omega
      rw [hexp, Nat.add_assoc, pow_add, pow_add]
      constructor
      · exact (Nat.mul_le_mul_left _ hlow).trans (Nat.le_add_left _ _)
      · have := Nat.mul_le_mul_left (2 ^ (64 * xs.length)) hhigh
        rw [Nat.succ_eq_add_one, Nat.mul_add] at this
        omega

/-- A bit past the lowest limb is a bit of the other limbs. -/
theorem index_cases (index : Nat) : index < 64 ∨ ∃ j, index = 64 + j := by
  rcases Nat.lt_or_ge index 64 with h | h
  · exact .inl h
  · exact .inr ⟨index - 64, by omega⟩

theorem limb_index_succ (j : Nat) : (64 + j) / 64 = j / 64 + 1 ∧ (64 + j) % 64 = j % 64 := by omega

theorem toNat_toUInt64_of_lt {i : Nat} (hi : i < 2 ^ 64) : i.toUInt64.toNat = i := by
  rw [UInt64.toNat_ofNat']
  exact Nat.mod_eq_of_lt hi

theorem toNat_one_shiftLeft {i : Nat} (hi : i < 64) : ((1 : UInt64) <<< i.toUInt64).toNat = 2 ^ i := by
  have hlt : 2 ^ i < 2 ^ 64 := Nat.pow_lt_pow_right (by decide) hi
  rw [UInt64.toNat_shiftLeft, toNat_toUInt64_of_lt (by omega), Nat.mod_eq_of_lt hi, Nat.shiftLeft_eq]
  simpa using hlt

theorem bit_eq (xs : List UInt64) (index : Nat) : bit xs index = (value xs).testBit index := by
  induction xs generalizing index with
  | nil => simp [bit]
  | cons x xs ih =>
    have hx := x.toNat_lt
    rw [value_cons, Nat.add_comm, Nat.testBit_two_pow_mul_add _ hx]
    obtain h | ⟨j, rfl⟩ := index_cases index
    · rw [if_pos h, bit, Nat.div_eq_of_lt h, Nat.mod_eq_of_lt h]
      have hand : (x &&& (1 <<< index.toUInt64)).toNat = (x.toNat.testBit index).toNat * 2 ^ index := by
        rw [UInt64.toNat_and, toNat_one_shiftLeft h, Nat.and_two_pow]
      have hne : (x &&& (1 <<< index.toUInt64) != 0) = decide ((x &&& (1 <<< index.toUInt64)).toNat ≠ 0) := by
        rw [Bool.eq_iff_iff, bne_iff_ne, decide_eq_true_eq, ne_eq, ne_eq, ← UInt64.toNat_inj]
        rfl
      simp only [List.getElem?_cons_zero, Option.any_some]
      rw [hne, hand]
      cases x.toNat.testBit index <;> simp
    · rw [if_neg (by omega), Nat.add_sub_cancel_left, ← ih, bit, bit, (limb_index_succ j).1, (limb_index_succ j).2,
        List.getElem?_cons_succ]

theorem anyBitsBelow_eq (xs : List UInt64) (index : Nat) :
    anyBitsBelow xs index = decide (value xs % 2 ^ index ≠ 0) := by
  induction xs generalizing index with
  | nil => simp [anyBitsBelow]
  | cons x xs ih =>
    have hx := x.toNat_lt
    have hzero : ∀ y : UInt64, (y != 0) = decide (y.toNat ≠ 0) := by
      intro y
      rw [Bool.eq_iff_iff, bne_iff_ne, decide_eq_true_eq, ne_eq, ne_eq, ← UInt64.toNat_inj]
      rfl
    rw [value_cons]
    obtain h | ⟨j, rfl⟩ := index_cases index
    · have hpos := Nat.two_pow_pos index
      have hmask : ((1 : UInt64) <<< index.toUInt64 - 1).toNat = 2 ^ index - 1 := by
        rw [UInt64.toNat_sub_of_le _ _ (UInt64.le_iff_toNat_le.mpr (by rw [toNat_one_shiftLeft h]; exact hpos)),
          toNat_one_shiftLeft h]
        rfl
      have hmod : (x.toNat + 2 ^ 64 * value xs) % 2 ^ index = x.toNat % 2 ^ index := by
        have : 2 ^ 64 = 2 ^ index * 2 ^ (64 - index) := by rw [← pow_add]; congr 1; omega
        rw [this, mul_assoc, Nat.add_mul_mod_self_left]
      rw [hmod, anyBitsBelow, Nat.div_eq_of_lt h, Nat.mod_eq_of_lt h]
      simp only [List.take_zero, List.any_nil, Bool.false_or, List.getElem?_cons_zero, Option.getD_some]
      rw [hzero, UInt64.toNat_and, hmask, Nat.and_two_pow_sub_one_eq_mod]
      by_cases hi : index = 0
      · simp [hi, Nat.mod_one]
      · simp [hi]
    · have hsplit : (x.toNat + 2 ^ 64 * value xs) % 2 ^ (64 + j) = x.toNat + 2 ^ 64 * (value xs % 2 ^ j) := by
        rw [pow_add, Nat.mod_mul, Nat.add_mul_mod_self_left, Nat.mod_eq_of_lt hx,
          Nat.add_mul_div_left _ _ (by decide), Nat.div_eq_of_lt hx, Nat.zero_add]
      have hcons : anyBitsBelow (x :: xs) (64 + j) = (x != 0 || anyBitsBelow xs j) := by
        rw [anyBitsBelow, anyBitsBelow, (limb_index_succ j).1, (limb_index_succ j).2, List.take_succ_cons,
          List.any_cons, List.getElem?_cons_succ, Bool.or_assoc]
      rw [hsplit, hcons, ih, hzero, Bool.eq_iff_iff]
      simp only [Bool.or_eq_true, decide_eq_true_eq]
      omega

theorem lowAfterShift_eq (xs : List UInt64) (shift : Nat) :
    (lowAfterShift xs shift).toNat = value xs / 2 ^ shift % 2 ^ 64 := by
  induction xs generalizing shift with
  | nil => simp [lowAfterShift]
  | cons x xs ih =>
    have hx := x.toNat_lt
    rw [value_cons]
    obtain h | ⟨j, rfl⟩ := index_cases shift
    · have hlow : (x >>> shift.toUInt64).toNat = x.toNat / 2 ^ shift := by
        rw [UInt64.toNat_shiftRight, toNat_toUInt64_of_lt (by omega), Nat.mod_eq_of_lt h, Nat.shiftRight_eq_div_pow]
      rw [lowAfterShift, Nat.div_eq_of_lt h, Nat.mod_eq_of_lt h]
      simp only [List.getElem?_cons_zero, Option.getD_some, List.getElem?_cons_succ]
      by_cases hs : shift = 0
      · rw [if_pos hs, hlow, hs, pow_zero, Nat.div_one, Nat.div_one, Nat.add_mul_mod_self_left, Nat.mod_eq_of_lt hx]
      · have hpow : 2 ^ 64 = 2 ^ shift * 2 ^ (64 - shift) := by rw [← pow_add]; congr 1; omega
        have hlt : x.toNat / 2 ^ shift < 2 ^ (64 - shift) :=
          Nat.div_lt_of_lt_mul (by rw [← hpow]; exact hx)
        have hhigh : (xs[0]?.getD 0 <<< (64 - shift).toUInt64).toNat = 2 ^ (64 - shift) * (value xs % 2 ^ shift) := by
          rw [UInt64.toNat_shiftLeft, toNat_toUInt64_of_lt (by omega), Nat.mod_eq_of_lt (by omega : 64 - shift < 64),
            Nat.shiftLeft_eq, toNat_head, Nat.mul_comm]
          have hmul : 2 ^ 64 = 2 ^ (64 - shift) * 2 ^ shift := by rw [hpow, Nat.mul_comm]
          rw [hmul, Nat.mul_mod_mul_left, Nat.mod_mul_left_mod]
        rw [if_neg hs, UInt64.toNat_or, hlow, hhigh, Nat.or_comm, ← Nat.two_pow_add_eq_or_of_lt hlt]
        have hdiv : (x.toNat + 2 ^ 64 * value xs) / 2 ^ shift = x.toNat / 2 ^ shift + 2 ^ (64 - shift) * value xs := by
          rw [hpow, mul_assoc, Nat.add_mul_div_left _ _ (Nat.two_pow_pos _)]
        rw [hdiv, hpow, Nat.mul_comm (2 ^ shift), Nat.mod_mul, Nat.add_mul_mod_self_left, Nat.mod_eq_of_lt hlt,
          Nat.add_mul_div_left _ _ (Nat.two_pow_pos _), Nat.div_eq_of_lt hlt, Nat.zero_add, Nat.add_comm]
    · have hdiv : (x.toNat + 2 ^ 64 * value xs) / 2 ^ (64 + j) = value xs / 2 ^ j := by
        rw [pow_add, ← Nat.div_div_eq_div_mul, Nat.add_mul_div_left _ _ (by decide), Nat.div_eq_of_lt hx, Nat.zero_add]
      rw [hdiv, ← ih, lowAfterShift, lowAfterShift, (limb_index_succ j).1, (limb_index_succ j).2,
        List.getElem?_cons_succ, List.getElem?_cons_succ]

/-! ## Shifts -/

/-- `significand` shifted left by `shift`, in `n` limbs, if it fits. -/
def shiftedLeft (n : Nat) (significand : UInt64) (shift : Nat) : Option (List UInt64) :=
  let limb := shift / 64
  let bit := shift % 64
  if limb ≥ n then none
  else
    let result := (List.replicate n 0).set limb (significand <<< bit.toUInt64)
    let high := significand >>> (64 - bit).toUInt64
    if bit ≠ 0 ∧ high ≠ 0 then if limb + 1 < n then some (result.set (limb + 1) high) else none
    else some result

theorem value_set_zeros (n i : Nat) (x : UInt64) (hi : i < n) :
    value ((List.replicate n 0).set i x) = 2 ^ (64 * i) * x.toNat := by
  induction n generalizing i with
  | zero => omega
  | succ n ih =>
    cases i with
    | zero => simp [List.replicate_succ, value_replicate_zero]
    | succ i =>
      rw [List.replicate_succ, List.set_cons_succ, value_cons, ih i (by omega), two_pow_limbs]
      simp [mul_assoc]

theorem value_set_two (n i : Nat) (x y : UInt64) (hi : i + 1 < n) :
    value (((List.replicate n 0).set i x).set (i + 1) y) = 2 ^ (64 * i) * (x.toNat + 2 ^ 64 * y.toNat) := by
  induction n generalizing i with
  | zero => omega
  | succ n ih =>
    cases i with
    | zero =>
      rw [List.replicate_succ, List.set_cons_zero, List.set_cons_succ, value_cons, value_set_zeros n 0 y (by omega)]
      simp
    | succ i =>
      rw [List.replicate_succ, List.set_cons_succ, List.set_cons_succ, value_cons, ih i (by omega), two_pow_limbs]
      simp [mul_assoc]

theorem length_shiftedLeft {n shift : Nat} {significand : UInt64} {xs : List UInt64}
    (h : shiftedLeft n significand shift = some xs) : xs.length = n := by
  unfold shiftedLeft at h
  dsimp only at h
  split at h
  · cases h
  · split at h
    · split at h
      · cases h; simp
      · cases h
    · cases h; simp

theorem shiftedLeft_spec {n shift : Nat} {significand : UInt64} (hpos : significand ≠ 0)
    (hfits : significand.toNat * 2 ^ shift < 2 ^ (64 * n)) :
    ∃ xs, shiftedLeft n significand shift = some xs ∧ value xs = significand.toNat * 2 ^ shift := by
  have hs : 0 < significand.toNat := Nat.pos_of_ne_zero fun h => hpos (UInt64.toNat_inj.mp h)
  have hbit : shift % 64 < 64 := Nat.mod_lt _ (by decide)
  have hshift : 2 ^ shift = 2 ^ (64 * (shift / 64)) * 2 ^ (shift % 64) := by rw [← pow_add, Nat.div_add_mod]
  have hlimb : shift / 64 < n := by
    have h2 : 2 ^ shift < 2 ^ (64 * n) := (Nat.le_mul_of_pos_left _ hs).trans_lt hfits
    have := (Nat.pow_lt_pow_iff_right (by decide)).mp h2
    omega
  have hlow : (significand <<< (shift % 64).toUInt64).toNat = significand.toNat * 2 ^ (shift % 64) % 2 ^ 64 := by
    rw [UInt64.toNat_shiftLeft, toNat_toUInt64_of_lt (by omega), Nat.mod_eq_of_lt hbit, Nat.shiftLeft_eq]
  rw [shiftedLeft, if_neg (Nat.not_le.mpr hlimb)]
  dsimp only
  by_cases hzero : shift % 64 = 0
  · rw [if_neg (fun h => h.1 hzero)]
    refine ⟨_, rfl, ?_⟩
    rw [value_set_zeros _ _ _ hlimb, hlow, hshift, hzero, pow_zero, Nat.mul_one, Nat.mul_one,
      Nat.mod_eq_of_lt significand.toNat_lt, Nat.mul_comm]
  · -- the bits that the lower limb loses are the upper limb
    have hhigh : (significand >>> (64 - shift % 64).toUInt64).toNat =
        significand.toNat * 2 ^ (shift % 64) / 2 ^ 64 := by
      have hpow : 2 ^ 64 = 2 ^ (64 - shift % 64) * 2 ^ (shift % 64) := by rw [← pow_add]; congr 1; omega
      rw [UInt64.toNat_shiftRight, toNat_toUInt64_of_lt (by omega), Nat.mod_eq_of_lt (by omega : 64 - shift % 64 < 64),
        Nat.shiftRight_eq_div_pow, hpow, Nat.mul_div_mul_right _ _ (Nat.two_pow_pos _)]
    have hsplit := Nat.mod_add_div (significand.toNat * 2 ^ (shift % 64)) (2 ^ 64)
    by_cases hh : significand >>> (64 - shift % 64).toUInt64 = 0
    · rw [if_neg (fun h => h.2 hh)]
      refine ⟨_, rfl, ?_⟩
      rw [hh, UInt64.toNat_zero] at hhigh
      rw [← hhigh, Nat.mul_zero, Nat.add_zero] at hsplit
      rw [value_set_zeros _ _ _ hlimb, hlow, hsplit, hshift]
      ring
    · have hnext : shift / 64 + 1 < n := by
        have hge : 2 ^ 64 ≤ significand.toNat * 2 ^ (shift % 64) := by
          by_contra hlt
          rw [Nat.div_eq_of_lt (Nat.not_le.mp hlt)] at hhigh
          exact hh (UInt64.toNat_inj.mp hhigh)
        have h2 : 2 ^ (64 * (shift / 64 + 1)) < 2 ^ (64 * n) := by
          calc 2 ^ (64 * (shift / 64 + 1)) = 2 ^ 64 * 2 ^ (64 * (shift / 64)) := two_pow_limbs _
            _ ≤ significand.toNat * 2 ^ (shift % 64) * 2 ^ (64 * (shift / 64)) := Nat.mul_le_mul_right _ hge
            _ = significand.toNat * 2 ^ shift := by rw [hshift]; ring
            _ < 2 ^ (64 * n) := hfits
        have := (Nat.pow_lt_pow_iff_right (by decide)).mp h2
        omega
      rw [if_pos ⟨hzero, hh⟩, if_pos hnext]
      refine ⟨_, rfl, ?_⟩
      rw [value_set_two _ _ _ _ hnext, hlow, hhigh, hsplit, hshift]
      ring

end AscendEmulator.Lib.Limbs
