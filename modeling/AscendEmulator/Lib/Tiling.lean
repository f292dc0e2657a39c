/-
  AscendEmulator.Lib.Tiling — lists of ranges that cover an interval one after the other.

  A range is anything with a start and a size. `tiles_append` cuts a tiling in two;
  `Tiles.covers` says that the ranges hold exactly the points of the interval and
  `Tiles.pairwise` that they are in order and disjoint.
-/

import Mathlib

namespace AscendEmulator.Lib

variable {α : Type} {start size : α → Nat}

/-- The nonempty ranges of the list cover `[a, b)`, each beginning where the last one ends. -/
def Tiles (start size : α → Nat) : Nat → List α → Nat → Prop
  | a, [], b => a = b
  | a, x :: l, b => start x = a ∧ 0 < size x ∧ Tiles start size (a + size x) l b

variable {a b i : Nat} {x : α} {l r : List α}

theorem tiles_append : Tiles start size a (l ++ r) b ↔ ∃ m, Tiles start size a l m ∧ Tiles start size m r b := by
  induction l generalizing a with
  | nil => simp [Tiles]
  | cons x l ih =>
    simp only [List.cons_append, Tiles, ih]
    constructor
    · rintro ⟨h₁, h₂, m, hl, hr⟩
      exact ⟨m, ⟨h₁, h₂, hl⟩, hr⟩
    · rintro ⟨m, ⟨h₁, h₂, hl⟩, hr⟩
      exact ⟨h₁, h₂, m, hl, hr⟩

theorem tiles_congr {start' size' : α → Nat} (h : ∀ x ∈ l, start x = start' x ∧ size x = size' x) :
    Tiles start size a l b ↔ Tiles start' size' a l b := by
  induction l generalizing a with
  | nil => rfl
  | cons x l ih =>
    obtain ⟨hstart, hsize⟩ := h x (List.mem_cons_self ..)
    rw [Tiles, Tiles, hstart, hsize, ih fun y hy => h y (List.mem_cons_of_mem _ hy)]

theorem tiles_map {β : Type} {f : β → α} {l : List β} :
    Tiles start size a (l.map f) b ↔ Tiles (fun x => start (f x)) (fun x => size (f x)) a l b := by
  induction l generalizing a with
  | nil => rfl
  | cons x l ih => rw [List.map_cons, Tiles, Tiles, ih]

theorem Tiles.le (h : Tiles start size a l b) : a ≤ b := by
  induction l generalizing a with
  | nil => exact Nat.le_of_eq h
  | cons x l ih =>
    have := ih h.2.2
    omega

theorem Tiles.bounds (h : Tiles start size a l b) (hx : x ∈ l) :
    a ≤ start x ∧ 0 < size x ∧ start x + size x ≤ b := by
  induction l generalizing a with
  | nil => cases hx
  | cons y l ih =>
    obtain ⟨hs, hp, ht⟩ := h
    rcases List.mem_cons.mp hx with rfl | hx
    · have := ht.le
      omega
    · have := ih ht hx
      omega

/-- The ranges hold the points of the interval, and no others. -/
theorem Tiles.covers (h : Tiles start size a l b) : (∃ x ∈ l, start x ≤ i ∧ i < start x + size x) ↔ a ≤ i ∧ i < b := by
  constructor
  · rintro ⟨x, hx, h₁, h₂⟩
    have := h.bounds hx
    omega
  · intro hi
    induction l generalizing a with
    | nil =>
      have : a = b := h
      omega
    | cons y l ih =>
      obtain ⟨hs, -, ht⟩ := h
      by_cases hlt : i < a + size y
      · exact ⟨y, List.mem_cons_self .., by omega, by omega⟩
      · obtain ⟨x, hx, hxi⟩ := ih ht (by omega)
        exact ⟨x, List.mem_cons_of_mem _ hx, hxi⟩

/-- The ranges are in order, and disjoint. -/
theorem Tiles.pairwise (h : Tiles start size a l b) : l.Pairwise fun x y => start x + size x ≤ start y := by
  induction l generalizing a with
  | nil => exact List.Pairwise.nil
  | cons x l ih =>
    obtain ⟨hs, -, ht⟩ := h
    refine List.pairwise_cons.mpr ⟨fun y hy => ?_, ih ht⟩
    have := ht.bounds hy
    omega

/-- A point lies in one range. -/
theorem Tiles.unique {y : α} (h : Tiles start size a l b) (hx : x ∈ l) (hy : y ∈ l)
    (hxi : start x ≤ i ∧ i < start x + size x) (hyi : start y ≤ i ∧ i < start y + size y) : x = y := by
  induction l generalizing a with
  | nil => cases hx
  | cons z l ih =>
    obtain ⟨hs, -, ht⟩ := h
    rcases List.mem_cons.mp hx with rfl | hx' <;> rcases List.mem_cons.mp hy with rfl | hy'
    · rfl
    · have := ht.bounds hy'
      omega
    · have := ht.bounds hx'
      omega
    · exact ih ht hx' hy'

/-- Starts are distinct. -/
theorem Tiles.start_nodup (h : Tiles start size a l b) : (l.map start).Nodup := by
  rw [List.Nodup, List.pairwise_map]
  refine List.Pairwise.imp_of_mem (fun hx _ hxy heq => ?_) h.pairwise
  have := h.bounds hx
  omega

/-- The points of the ranges, one range after the other, are those of the interval. -/
theorem Tiles.flatMap_points {β : Type} (h : Tiles start size a l b) (F : Nat → β) :
    (l.flatMap fun x => (List.range (size x)).map fun k => F (start x + k)) =
      (List.range (b - a)).map fun k => F (a + k) := by
  induction l generalizing a with
  | nil =>
    obtain rfl : a = b := h
    simp
  | cons x l ih =>
    obtain ⟨rfl, -, ht⟩ := h
    have hle := ht.le
    obtain ⟨n, rfl⟩ : ∃ n, b = start x + size x + n := ⟨b - (start x + size x), by omega⟩
    have hn : start x + size x + n - start x = size x + n := by omega
    rw [List.flatMap_cons, ih ht, Nat.add_sub_cancel_left, hn, List.range_add, List.map_append, List.map_map]
    simp [Function.comp_def, Nat.add_assoc]

/-- The last range alone ends the interval. -/
theorem Tiles.marks (h : Tiles start size a l b) (hab : a < b) :
    (l.map fun x => decide (start x + size x = b)) = List.replicate (l.length - 1) false ++ [true] := by
  induction l generalizing a with
  | nil => exact absurd h hab.ne
  | cons x l ih =>
    obtain ⟨rfl, -, ht⟩ := h
    cases l with
    | nil => simp [show start x + size x = b from ht]
    | cons y l =>
      have hlt : start x + size x < b := by
        have := ht.2.2.le
        have := ht.2.1
        omega
      rw [List.map_cons, ih ht hlt, decide_eq_false hlt.ne]
      rfl

/-- What only the range of a point yields, all ranges yield. -/
theorem Tiles.flatMap_eq {β : Type} {g : α → List β} (h : Tiles start size a l b) (hi : a ≤ i ∧ i < b)
    (hg : ∀ x ∈ l, ¬ (start x ≤ i ∧ i < start x + size x) → g x = []) :
    ∃ x ∈ l, (start x ≤ i ∧ i < start x + size x) ∧ l.flatMap g = g x := by
  obtain ⟨x, hx, hxi⟩ := h.covers.mpr hi
  refine ⟨x, hx, hxi, ?_⟩
  have hnone (y : α) (hy : y ∈ l) (hne : y ≠ x) : g y = [] := hg y hy fun hyi => hne (h.unique hy hx hyi hxi)
  obtain ⟨pre, post, rfl⟩ := List.append_of_mem hx
  have hnodup := h.start_nodup
  rw [List.map_append, List.map_cons, List.nodup_middle, List.nodup_cons, ← List.map_append] at hnodup
  have hne (y : α) (hy : y ∈ pre ++ post) : y ≠ x := by
    rintro rfl
    exact hnodup.1 (List.mem_map_of_mem hy)
  rw [List.flatMap_append, List.flatMap_cons,
    List.flatMap_eq_nil_iff.mpr fun y hy => hnone y (List.mem_append_left _ hy) (hne y (List.mem_append_left _ hy)),
    List.flatMap_eq_nil_iff.mpr fun y hy => hnone y (List.mem_append_right _ (List.mem_cons_of_mem _ hy))
      (hne y (List.mem_append_right _ hy)), List.nil_append, List.append_nil]

end AscendEmulator.Lib
