/-
  AscendEmulator.Lib.Queue — queues (`VecDeque`) as lists, and counting over a list of
  queues of which one is changed.
-/

import Mathlib

namespace AscendEmulator.Lib

variable {α β : Type}

/-- `VecDeque::pop_front_if`: the head, if it passes the test, and what is left. -/
def popFrontIf (p : α → Bool) : List α → Option (α × List α)
  | [] => none
  | x :: l => if p x then some (x, l) else none

theorem popFrontIf_eq_some {p : α → Bool} {l r : List α} {x : α} :
    popFrontIf p l = some (x, r) ↔ l = x :: r ∧ p x = true := by
  cases l with
  | nil => simp [popFrontIf]
  | cons y l =>
    by_cases hy : p y
    · simp only [popFrontIf, hy, if_true, Option.some.injEq, Prod.mk.injEq, List.cons.injEq]
      constructor
      · rintro ⟨rfl, rfl⟩
        exact ⟨⟨rfl, rfl⟩, hy⟩
      · exact fun h => h.1
    · simp only [popFrontIf, hy, if_false, reduceCtorEq, List.cons.injEq, false_iff, Bool.false_eq_true]
      rintro ⟨⟨rfl, -⟩, hx⟩
      exact hy hx

/-- The sum of `f` over a list. -/
def total (f : α → Nat) (l : List α) : Nat := (l.map f).sum

@[simp] theorem total_nil (f : α → Nat) : total f [] = 0 := rfl

@[simp] theorem total_cons (f : α → Nat) (x : α) (l : List α) : total f (x :: l) = f x + total f l := rfl

@[simp] theorem total_append (f : α → Nat) (l r : List α) : total f (l ++ r) = total f l + total f r := by
  simp [total]

/-- One member changed: its share is replaced. -/
theorem total_set (f : α → Nat) {l : List α} {i : Nat} {x y : α} (h : l[i]? = some y) :
    total f (l.set i x) + f y = total f l + f x := by
  induction l generalizing i with
  | nil => simp at h
  | cons z l ih =>
    cases i with
    | zero =>
      obtain rfl : z = y := by simpa using h
      simp only [List.set_cons_zero, total_cons]
      omega
    | succ i =>
      have := ih (by simpa using h)
      simp only [List.set_cons_succ, total_cons]
      omega

theorem le_total (f : α → Nat) {l : List α} {x : α} (h : x ∈ l) : f x ≤ total f l := by
  induction l with
  | nil => cases h
  | cons y l ih =>
    rw [total_cons]
    rcases List.mem_cons.mp h with rfl | h
    · omega
    · have := ih h
      omega

theorem total_pos {f : α → Nat} {l : List α} (h : 0 < total f l) : ∃ x ∈ l, 0 < f x := by
  induction l with
  | nil => cases h
  | cons y l ih =>
    by_cases hy : 0 < f y
    · exact ⟨y, List.mem_cons_self .., hy⟩
    · rw [total_cons] at h
      obtain ⟨x, hx, hpos⟩ := ih (by omega)
      exact ⟨x, List.mem_cons_of_mem _ hx, hpos⟩

/-- The sum of `f` over two queues. -/
def both (f : α → Nat) (q : Fin 2 → α) : Nat := f (q 0) + f (q 1)

theorem both_update (f : α → Nat) (q : Fin 2 → α) (i : Fin 2) (x : α) :
    both f (Function.update q i x) + f (q i) = both f q + f x := by
  unfold both
  match i with
  | 0 =>
    rw [Function.update_self, Function.update_of_ne (by decide)]
    omega
  | 1 =>
    rw [Function.update_self, Function.update_of_ne (by decide)]
    omega

theorem le_both (f : α → Nat) (q : Fin 2 → α) (i : Fin 2) : f (q i) ≤ both f q := by
  unfold both
  match i with
  | 0 => omega
  | 1 => omega

theorem both_pos {f : α → Nat} {q : Fin 2 → α} (h : 0 < both f q) : ∃ i, 0 < f (q i) := by
  unfold both at h
  by_cases h₀ : 0 < f (q 0)
  · exact ⟨0, h₀⟩
  · exact ⟨1, by omega⟩

theorem both_total_set (f : β → Nat) {q : Fin 2 → List β} {i : Fin 2} {j : Nat} {x y : β} (h : (q i)[j]? = some y) :
    both (total f) (Function.update q i ((q i).set j x)) + f y = both (total f) q + f x := by
  have h₁ := both_update (total f) q i ((q i).set j x)
  have h₂ := total_set f (x := x) h
  omega

end AscendEmulator.Lib
