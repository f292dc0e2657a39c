/-
  AscendEmulator.Lib.Span — the points passed when walking from a point, one step at a time.

  `shift a n` is the point `n` steps after `a`. `span_add` cuts a walk in two, and
  `flatMap_span` joins walks of one length that begin where the last one ends.
-/

import Mathlib

namespace AscendEmulator.Lib

variable {α β : Type}

/-- The `n` points from `a` on. -/
def span (shift : α → Nat → α) (a : α) (n : Nat) : List α := (List.range n).map (shift a)

@[simp] theorem span_zero (shift : α → Nat → α) (a : α) : span shift a 0 = [] := rfl

@[simp] theorem length_span (shift : α → Nat → α) (a : α) (n : Nat) : (span shift a n).length = n := by
  simp [span]

section
variable {shift : α → Nat → α} (hshift : ∀ a m n, shift (shift a m) n = shift a (m + n))
include hshift

theorem span_add (a : α) (m n : Nat) : span shift a (m + n) = span shift a m ++ span shift (shift a m) n := by
  simp only [span, List.range_add, List.map_append, List.map_map]
  congr 1
  exact List.map_congr_left fun k _ => (hshift a m k).symm

/-- `n` walks of `m` points, each from the end of the one before. -/
theorem flatMap_span (a : α) (m n : Nat) :
    ((List.range n).flatMap fun i => span shift (shift a (i * m)) m) = span shift a (n * m) := by
  induction n with
  | zero => simp
  | succ n ih =>
    rw [List.range_succ, List.flatMap_append, ih, Nat.succ_mul, span_add hshift]
    simp

end

/-- Counting to `n * m` in rows of `m`. -/
theorem flatMap_range_mul (f : Nat → List β) (n m : Nat) :
    (List.range (n * m)).flatMap f = (List.range n).flatMap fun i => (List.range m).flatMap fun j => f (i * m + j) := by
  induction n with
  | zero => simp
  | succ n ih =>
    rw [Nat.succ_mul, List.range_add, List.flatMap_append, ih, List.range_succ, List.flatMap_append]
    simp [List.flatMap_map]

/-- An interval in rows of `m`. -/
theorem flatMap_range' (a m n : Nat) :
    ((List.range n).flatMap fun i => List.range' (a + i * m) m) = List.range' a (n * m) := by
  induction n with
  | zero => simp
  | succ n ih => rw [List.range_succ, List.flatMap_append, ih, List.flatMap_singleton, Nat.succ_mul, List.range'_append_1]

/-- Rows of columns are columns of rows. -/
theorem flatMap_swap {γ : Type} (l : List α) (m : List β) (f : α → β → List γ) :
    (l.flatMap fun a => m.flatMap fun b => f a b).Perm (m.flatMap fun b => l.flatMap fun a => f a b) := by
  induction l with
  | nil => simp
  | cons a l ih =>
    simp only [List.flatMap_cons]
    exact (ih.append_left _).trans (List.flatMap_append_perm m _ _)

/-- Going on and on in rows of `m`. -/
theorem iterate_rows {f : α → α} {g : Nat → Nat → α} {m : Nat} (hm : 0 < m)
    (hnext : ∀ i j, j + 1 < m → f (g i j) = g i (j + 1)) (hrow : ∀ i, f (g i (m - 1)) = g (i + 1) 0)
    {i j : Nat} (hj : j < m) : f^[i * m + j] (g 0 0) = g i j := by
  have hinside : ∀ i j, j < m → f^[j] (g i 0) = g i j := by
    intro i j hj
    induction j with
    | zero => rfl
    | succ j ih => rw [Function.iterate_succ_apply', ih (by omega), hnext i j hj]
  have hrows : ∀ i, f^[i * m] (g 0 0) = g i 0 := by
    intro i
    induction i with
    | zero => rw [Nat.zero_mul]; rfl
    | succ i ih =>
      obtain ⟨k, rfl⟩ : ∃ k, m = k + 1 := ⟨m - 1, by omega⟩
      rw [Nat.succ_mul, Nat.add_comm (i * (k + 1)), Function.iterate_add_apply, ih, Function.iterate_succ_apply',
        hinside i k (by omega)]
      exact hrow i
  rw [Nat.add_comm, Function.iterate_add_apply, hrows, hinside i j hj]

theorem flatMap_congr_range {n : Nat} {f g : Nat → List β} (h : ∀ i < n, f i = g i) :
    (List.range n).flatMap f = (List.range n).flatMap g :=
  List.flatMap_congr fun i hi => h i (List.mem_range.mp hi)

/-- Intervals of whole length that have the points of others, all with whole starts, have whole starts. -/
theorem starts_whole {cells : List α} {off w : α → Nat} {m n : Nat} (hn : 0 < n) (hlen : m ∣ n)
    (hw : ∀ c ∈ cells, m ∣ w c)
    (h : (cells.flatMap fun c => List.range' (w c) n).Perm (cells.flatMap fun c => List.range' (off c) n)) :
    ∀ c ∈ cells, m ∣ off c := by
  classical
  by_contra hnot
  have hsome : ∃ x, ∃ c ∈ cells, off c = x ∧ ¬ m ∣ x := by
    push Not at hnot
    obtain ⟨c, hc, hx⟩ := hnot
    exact ⟨off c, c, hc, rfl, hx⟩
  obtain ⟨c, hc, hcx, hx⟩ := Nat.find_spec hsome
  have hleast {y : Nat} (hy : y < Nat.find hsome) := Nat.find_min hsome hy
  generalize Nat.find hsome = x at hcx hx hleast
  have hpos : 0 < x := by
    by_contra hzero
    exact hx (by rw [show x = 0 by omega]; exact Nat.dvd_zero m)
  have hcount (y : Nat) (f : α → Nat) : (cells.flatMap fun c => List.range' (f c) n).count y =
      (cells.map fun c => if f c ≤ y ∧ y < f c + n then 1 else 0).sum := by
    rw [List.count_flatMap]
    congr 1
    exact List.map_congr_left fun c _ => List.count_range_1'
  have hwritten : (cells.flatMap fun c => List.range' (w c) n).count x =
      (cells.flatMap fun c => List.range' (w c) n).count (x - 1) := by
    rw [hcount, hcount]
    congr 1
    refine List.map_congr_left fun c hc => ?_
    have hstart : w c ≠ x := fun heq => hx (heq ▸ hw c hc)
    have hend : w c + n ≠ x := fun heq => hx (heq ▸ Nat.dvd_add (hw c hc) hlen)
    exact if_congr (by omega) rfl rfl
  have hrows : (cells.flatMap fun c => List.range' (off c) n).count (x - 1) <
      (cells.flatMap fun c => List.range' (off c) n).count x := by
    rw [hcount, hcount]
    refine List.sum_lt_sum _ _ (fun c hc => ?_) ⟨c, hc, ?_⟩
    · -- an interval that ends at the point would start at an earlier one
      have hend : off c + n ≠ x := fun heq => hleast (show off c < x by omega)
        ⟨c, hc, rfl, fun hdvd => hx (heq ▸ Nat.dvd_add hdvd hlen)⟩
      split_ifs <;> omega
    · rw [if_neg (by omega), if_pos (by omega)]
      exact Nat.zero_lt_one
  rw [← h.count_eq, ← h.count_eq, hwritten] at hrows
  exact lt_irrefl _ hrows

theorem sum_range' (a n : Nat) : (List.range' a n).sum = n * a + (List.range n).sum := by
  induction n with
  | zero => simp
  | succ n ih =>
    rw [List.range'_1_concat, List.sum_append, ih, List.range_succ, List.sum_append, List.sum_singleton,
      List.sum_singleton, Nat.succ_mul]
    omega

/-- Intervals that begin no later, and have the same points, begin at the same place. -/
theorem starts_eq {cells : List α} {w off : α → Nat} {n : Nat} (hn : 0 < n) (hle : ∀ c ∈ cells, w c ≤ off c)
    (h : (cells.flatMap fun c => List.range' (w c) n).Perm (cells.flatMap fun c => List.range' (off c) n)) :
    ∀ c ∈ cells, w c = off c := by
  by_contra hnot
  push Not at hnot
  obtain ⟨c, hc, hne⟩ := hnot
  have hsum (f : α → Nat) : (cells.flatMap fun c => List.range' (f c) n).sum =
      (cells.map fun c => n * f c + (List.range n).sum).sum := by
    rw [List.flatMap_def, List.sum_flatten, List.map_map]
    congr 1
    exact List.map_congr_left fun c _ => sum_range' (f c) n
  have hlt : (cells.map fun c => n * w c + (List.range n).sum).sum <
      (cells.map fun c => n * off c + (List.range n).sum).sum := by
    refine List.sum_lt_sum _ _ (fun c hc => ?_) ⟨c, hc, ?_⟩
    · exact Nat.add_le_add_right (Nat.mul_le_mul_left n (hle c hc)) _
    · exact Nat.add_lt_add_right (Nat.mul_lt_mul_of_pos_left (lt_of_le_of_ne (hle c hc) hne) hn) _
  rw [← hsum, ← hsum, h.sum_eq] at hlt
  exact lt_irrefl _ hlt

end AscendEmulator.Lib
