/-
  AscendEmulator.Lib.Blocked — matrices stored in blocks, and sums that saturate at the end of each block.

  `blocked R C grid` places the element `(i, j)` of a matrix in blocks of `R` rows and `C` columns, row by row
  in a block; `grid` numbers the blocks. Where `grid` tells the blocks apart, so does `blocked` the elements.
-/

import Mathlib.Algebra.BigOperators.Group.Finset.Basic
import Mathlib.Algebra.Order.Group.Int
import Mathlib.Data.List.GetD
import Mathlib.Tactic.Ring

namespace AscendEmulator.Lib

/-! ## Numbers with two digits -/

theorem digits_lt {a b n c : Nat} (ha : a < n) (hb : b < c) : a * c + b < n * c :=
  calc a * c + b < a * c + c := Nat.add_lt_add_left hb _
    _ = (a + 1) * c := (Nat.succ_mul a c).symm
    _ ≤ n * c := Nat.mul_le_mul_right c ha

theorem digits_div {a b c : Nat} (hb : b < c) : (a * c + b) / c = a := by
  rw [Nat.add_comm, Nat.add_mul_div_right _ _ (Nat.zero_lt_of_lt hb), Nat.div_eq_of_lt hb, Nat.zero_add]

theorem digits_mod {a b c : Nat} (hb : b < c) : (a * c + b) % c = b := by
  rw [Nat.add_comm, Nat.add_mul_mod_self_right, Nat.mod_eq_of_lt hb]

theorem digits_inj {a b a' b' c : Nat} (hb : b < c) (hb' : b' < c) (h : a * c + b = a' * c + b') :
    a = a' ∧ b = b' := by
  have ha : (a * c + b) / c = a := digits_div hb
  rw [h, digits_div hb'] at ha
  subst ha
  exact ⟨rfl, Nat.add_left_cancel h⟩

/-- A loop over both digits runs over the numbers. -/
theorem range_digits {α : Type} (f : Nat → α) (a b : Nat) :
    ((List.range a).flatMap fun x => (List.range b).map fun y => f (x * b + y)) = (List.range (a * b)).map f := by
  induction a with
  | zero => rw [Nat.zero_mul]; rfl
  | succ a ih =>
    rw [List.range_succ, List.flatMap_append, ih, List.flatMap_singleton, Nat.succ_mul, List.range_add, List.map_append,
      List.map_map]
    rfl

/-! ## Blocks -/

def blocked (R C : Nat) (grid : Nat → Nat → Nat) (i j : Nat) : Nat :=
  grid (i / R) (j / C) * (R * C) + (i % R * C + j % C)

section Blocked

variable {R C : Nat} {grid : Nat → Nat → Nat} {i j i' j' tiles : Nat}

theorem lane_lt (hR : 0 < R) (hC : 0 < C) (i j : Nat) : i % R * C + j % C < R * C :=
  digits_lt (Nat.mod_lt i hR) (Nat.mod_lt j hC)

theorem blocked_div (hR : 0 < R) (hC : 0 < C) : blocked R C grid i j / (R * C) = grid (i / R) (j / C) :=
  digits_div (lane_lt hR hC i j)

theorem blocked_mod (hR : 0 < R) (hC : 0 < C) : blocked R C grid i j % (R * C) = i % R * C + j % C :=
  digits_mod (lane_lt hR hC i j)

theorem blocked_lt (hR : 0 < R) (hC : 0 < C) (h : grid (i / R) (j / C) < tiles) :
    blocked R C grid i j < tiles * (R * C) := digits_lt h (lane_lt hR hC i j)

theorem blocked_inj (hR : 0 < R) (hC : 0 < C)
    (hgrid : grid (i / R) (j / C) = grid (i' / R) (j' / C) → i / R = i' / R ∧ j / C = j' / C)
    (h : blocked R C grid i j = blocked R C grid i' j') : i = i' ∧ j = j' := by
  obtain ⟨htile, hlane⟩ := digits_inj (lane_lt hR hC i j) (lane_lt hR hC i' j') h
  obtain ⟨hi, hj⟩ := hgrid htile
  obtain ⟨hi', hj'⟩ := digits_inj (Nat.mod_lt j hC) (Nat.mod_lt j' hC) hlane
  constructor
  · rw [← Nat.div_add_mod i R, ← Nat.div_add_mod i' R, hi, hi']
  · rw [← Nat.div_add_mod j C, ← Nat.div_add_mod j' C, hj, hj']

end Blocked

/-! ## Sums that saturate -/

/-- `clamp`. -/
def clampTo (lo hi x : Int) : Int := max lo (min hi x)

theorem clampTo_of_mem {lo hi x : Int} (h : lo ≤ x ∧ x ≤ hi) : clampTo lo hi x = x := by
  rw [clampTo, min_eq_right h.2, max_eq_right h.1]

theorem clampTo_mem {lo hi : Int} (h : lo ≤ hi) (x : Int) : lo ≤ clampTo lo hi x ∧ clampTo lo hi x ≤ hi :=
  ⟨le_max_left _ _, max_le h (min_le_left _ _)⟩

/-- Adds the sums of the blocks one after the other, and clamps after each. -/
def saturatingSum (lo hi : Int) (init : Int) (blocks : List Int) : Int :=
  blocks.foldl (fun acc x => clampTo lo hi (acc + x)) init

/-- Some block takes the sum out of its range. -/
def Saturates (lo hi : Int) (init : Int) : List Int → Prop
  | [] => False
  | x :: rest => clampTo lo hi (init + x) ≠ init + x ∨ Saturates lo hi (clampTo lo hi (init + x)) rest

instance decidableSaturates (lo hi : Int) : (init : Int) → (blocks : List Int) → Decidable (Saturates lo hi init blocks)
  | _, [] => .isFalse not_false
  | init, x :: rest =>
    have := decidableSaturates lo hi (clampTo lo hi (init + x)) rest
    inferInstanceAs (Decidable (_ ∨ _))

/-- Adds a block to a sum with a flag that says whether it has saturated. -/
def saturatingStep (lo hi : Int) (s : Int × Bool) (x : Int) : Int × Bool :=
  (clampTo lo hi (s.1 + x), s.2 || decide (clampTo lo hi (s.1 + x) ≠ s.1 + x))

theorem foldl_saturatingStep {lo hi init : Int} (flag : Bool) (blocks : List Int) :
    blocks.foldl (saturatingStep lo hi) (init, flag) =
      (saturatingSum lo hi init blocks, flag || decide (Saturates lo hi init blocks)) := by
  induction blocks generalizing init flag with
  | nil => exact congrArg (Prod.mk init) (Bool.or_false flag).symm
  | cons x rest ih =>
    rw [List.foldl_cons, saturatingStep, ih, Bool.or_assoc, ← Bool.decide_or]
    rfl

theorem saturatingSum_mem {lo hi init : Int} (h : lo ≤ hi) (hinit : lo ≤ init ∧ init ≤ hi) (blocks : List Int) :
    lo ≤ saturatingSum lo hi init blocks ∧ saturatingSum lo hi init blocks ≤ hi := by
  induction blocks generalizing init with
  | nil => exact hinit
  | cons x rest ih => exact ih (clampTo_mem h _)

theorem saturatingSum_eq {lo hi init : Int} {blocks : List Int} (h : ¬Saturates lo hi init blocks) :
    saturatingSum lo hi init blocks = init + blocks.sum := by
  induction blocks generalizing init with
  | nil => simp [saturatingSum]
  | cons x rest ih =>
    obtain ⟨hx, hrest⟩ := not_or.mp h
    rw [not_not.mp hx] at hrest
    calc saturatingSum lo hi init (x :: rest) = saturatingSum lo hi (init + x) rest := by
          rw [saturatingSum, List.foldl_cons, not_not.mp hx, ← saturatingSum]
      _ = init + x + rest.sum := ih hrest
      _ = init + (x :: rest).sum := by rw [List.sum_cons, add_assoc]

/-- Nothing saturates where every sum of leading blocks stays in the range. -/
theorem not_saturates {lo hi init : Int} {blocks : List Int}
    (h : ∀ t ≤ blocks.length, lo ≤ init + (blocks.take t).sum ∧ init + (blocks.take t).sum ≤ hi) :
    ¬Saturates lo hi init blocks := by
  induction blocks generalizing init with
  | nil => exact not_false
  | cons x rest ih =>
    have h₁ := h 1 (by simp)
    simp only [List.take_succ_cons, List.take_zero, List.sum_cons, List.sum_nil, add_zero] at h₁
    rw [Saturates, clampTo_of_mem h₁]
    refine not_or.mpr ⟨not_not.mpr rfl, ih fun t ht => ?_⟩
    have := h (t + 1) (by simpa using ht)
    rwa [List.take_succ_cons, List.sum_cons, ← add_assoc] at this

/-! ## Ranges cut in blocks -/

/-- The sums of the first blocks of `c` of `n` elements, the last one short. -/
theorem sum_blocks (f : Nat → Int) (c n T : Nat) :
    ((List.range T).map fun t => ∑ k ∈ Finset.range (min (n - t * c) c), f (t * c + k)).sum =
      ∑ k ∈ Finset.range (min (T * c) n), f k := by
  induction T with
  | zero => simp
  | succ T ih =>
    rw [List.range_succ, List.map_append, List.sum_append, ih, List.map_singleton, List.sum_singleton, Nat.succ_mul]
    rcases Nat.le_total n (T * c) with h | h
    · rw [min_eq_right h, Nat.sub_eq_zero_of_le h, Nat.zero_min, Finset.sum_range_zero, add_zero,
        min_eq_right (h.trans (Nat.le_add_right _ _))]
    · rw [min_eq_left h, ← Finset.sum_range_add]
      congr 2
      omega

end AscendEmulator.Lib
