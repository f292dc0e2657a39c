/-
  AscendEmulator.Lib.Extended — rational numbers with infinities and a value that is no number: what the words of a
  format stand for, with the sums and products of floating-point arithmetic before rounding.

  Sums do not depend on an order (`AddCommMonoid`). A sum that is taken term by term keeps the infinities it has met and
  the sum of the numbers (`ofFlags`).
-/

import AscendEmulator.Lib.Rounding

namespace AscendEmulator.Lib

inductive Extended where
  | nan
  | infinite (negative : Bool)
  | finite (x : ℚ)
  deriving DecidableEq

namespace Extended

def sum : Extended → Extended → Extended
  | .finite x, .finite y => .finite (x + y)
  | .infinite s, .infinite t => if s = t then .infinite s else .nan
  | .infinite s, .finite _ => .infinite s
  | .finite _, .infinite t => .infinite t
  | _, _ => .nan

def product : Extended → Extended → Extended
  | .finite x, .finite y => .finite (x * y)
  | .infinite s, .infinite t => .infinite (s ^^ t)
  | .infinite s, .finite y => if y = 0 then .nan else .infinite (s ^^ decide (y < 0))
  | .finite x, .infinite t => if x = 0 then .nan else .infinite (decide (x < 0) ^^ t)
  | _, _ => .nan

instance : Add Extended := ⟨sum⟩

instance : Zero Extended := ⟨.finite 0⟩

theorem sum_comm (x y : Extended) : sum x y = sum y x := by
  rcases x with _ | (_ | _) | x <;> rcases y with _ | (_ | _) | y <;> first | rfl | exact congrArg finite (add_comm x y)

theorem sum_assoc (x y z : Extended) : sum (sum x y) z = sum x (sum y z) := by
  rcases x with _ | (_ | _) | x <;> rcases y with _ | (_ | _) | y <;> rcases z with _ | (_ | _) | z <;>
    first | rfl | exact congrArg finite (add_assoc x y z)

theorem zero_sum (x : Extended) : sum (.finite 0) x = x := by
  cases x with
  | nan => rfl
  | infinite s => rfl
  | finite x => exact congrArg finite (zero_add x)

instance : AddCommMonoid Extended where
  add_assoc := sum_assoc
  zero_add := zero_sum
  add_zero x := (sum_comm x _).trans (zero_sum x)
  add_comm := sum_comm
  nsmul := nsmulRec

theorem add_def (x y : Extended) : x + y = sum x y := rfl

theorem zero_def : (0 : Extended) = .finite 0 := rfl

theorem finite_add (x y : ℚ) : finite x + finite y = finite (x + y) := rfl

theorem nan_add (x : Extended) : nan + x = nan := by cases x <;> rfl

theorem add_nan (x : Extended) : x + nan = nan := by rw [add_comm, nan_add]

/-- A sum by the infinities that it has, and the sum of its numbers. -/
def ofFlags (positive negative : Bool) (x : ℚ) : Extended :=
  if positive && negative then .nan
  else if positive || negative then .infinite negative
  else .finite x

variable {positive negative : Bool} {x : ℚ}

theorem ofFlags_add_finite (y : ℚ) : ofFlags positive negative x + finite y = ofFlags positive negative (x + y) := by
  cases positive <;> cases negative <;> rfl

theorem ofFlags_add_positive : ofFlags positive negative x + infinite false = ofFlags true negative x := by
  cases positive <;> cases negative <;> rfl

theorem ofFlags_add_negative : ofFlags positive negative x + infinite true = ofFlags positive true x := by
  cases positive <;> cases negative <;> rfl

/-- A sum is a number just if its terms are. -/
theorem add_finite {x y : Extended} {z : ℚ} :
    x + y = finite z ↔ ∃ a b, x = finite a ∧ y = finite b ∧ a + b = z := by
  refine ⟨fun h => ?_, fun ⟨a, b, hx, hy, hz⟩ => by rw [hx, hy, finite_add, hz]⟩
  rcases x with _ | (_ | _) | x <;> rcases y with _ | (_ | _) | y <;> first
    | exact ⟨x, y, rfl, rfl, finite.inj h⟩
    | cases h

theorem product_finite {x y : Extended} {z : ℚ} :
    product x y = finite z ↔ ∃ a b, x = finite a ∧ y = finite b ∧ a * b = z := by
  refine ⟨fun h => ?_, fun ⟨a, b, hx, hy, hz⟩ => by rw [hx, hy, product, hz]⟩
  rcases x with _ | s | x <;> rcases y with _ | t | y
  case finite.finite => exact ⟨x, y, rfl, rfl, finite.inj h⟩
  case infinite.finite =>
    simp only [product] at h
    split_ifs at h
  case finite.infinite =>
    simp only [product] at h
    split_ifs at h
  all_goals cases h

end Extended

/-! ## Words -/

namespace Format

variable (F : Format)

/-- What a word stands for. -/
def datum (bits : Nat) : Extended :=
  if F.Finite bits then .finite (F.value bits)
  else if F.fraction bits = 0 then .infinite (F.negative bits)
  else .nan

variable {F}

theorem datum_finite {bits : Nat} (h : F.Finite bits) : F.datum bits = .finite (F.value bits) := if_pos h

theorem finite_of_datum {bits : Nat} {x : ℚ} (h : F.datum bits = .finite x) : F.Finite bits ∧ F.value bits = x := by
  unfold datum at h
  split_ifs at h with hfinite
  · exact ⟨hfinite, Extended.finite.inj h⟩

theorem negative_of_datum {bits : Nat} {negative : Bool} (h : F.datum bits = .infinite negative) :
    negative = F.negative bits := by
  unfold datum at h
  split_ifs at h
  exact (Extended.infinite.inj h).symm

theorem value_eq_zero {bits : Nat} : F.value bits = 0 ↔ F.significand bits = 0 := by
  have hsign : sign (F.negative bits) ≠ 0 := by cases F.negative bits <;> simp [sign]
  have hscale : (2 : ℚ) ^ F.scale bits ≠ 0 := zpow_ne_zero _ (by norm_num)
  rw [value, mul_eq_zero, mul_eq_zero, Nat.cast_eq_zero]
  tauto

theorem negative_eq {bits : Nat} (h : F.value bits ≠ 0) : F.negative bits = decide (F.value bits < 0) := by
  have hpos : (0 : ℚ) < F.significand bits * 2 ^ F.scale bits :=
    mul_pos (Nat.cast_pos.mpr (Nat.pos_of_ne_zero fun h0 => h (value_eq_zero.mpr h0))) (zpow_pos (by norm_num) _)
  rw [value]
  cases F.negative bits <;> simp [sign, hpos, hpos.le]

end Format

end AscendEmulator.Lib
