/-
  AscendEmulator.Lib.Interleave — lists merged into one, each element from the head of the list it is tagged with.

  (1) `Interleaves tag P lists out left`: `out` is taken from `lists`, and `left` is what is left of them. `P` says of
      each element taken, and of the lists as they were then, how it is chosen.
  (2) `split`: each list is what was taken of it, in its order, and then what is left of it.
  (3) `sorted`: if a least head is chosen each time, and the lists are sorted, so is `out`.
-/

import Mathlib

namespace AscendEmulator.Lib

variable {ι α κ : Type} [DecidableEq ι] {tag : α → ι} {P : (ι → List α) → α → Prop} {lists left : ι → List α}
  {out : List α} {x : α} {i : ι}

inductive Interleaves (tag : α → ι) (P : (ι → List α) → α → Prop) : (ι → List α) → List α → (ι → List α) → Prop
  | nil (lists : ι → List α) : Interleaves tag P lists [] lists
  | cons {lists left : ι → List α} {x : α} {xs out : List α} : P lists x → lists (tag x) = x :: xs →
      Interleaves tag P (Function.update lists (tag x) xs) out left → Interleaves tag P lists (x :: out) left

namespace Interleaves

theorem split (h : Interleaves tag P lists out left) (i : ι) :
    lists i = out.filter (fun x => tag x = i) ++ left i := by
  induction h with
  | nil lists => rfl
  | @cons lists left x xs out _ hx _ ih =>
    by_cases hi : tag x = i
    · subst hi
      rw [List.filter_cons_of_pos (by simp), List.cons_append, ← ih, Function.update_self, hx]
    · rw [List.filter_cons_of_neg (by simpa using hi), ← ih, Function.update_of_ne (Ne.symm hi)]

theorem mem (h : Interleaves tag P lists out left) (hx : x ∈ out) : x ∈ lists (tag x) := by
  rw [h.split (tag x)]
  exact List.mem_append_left _ (List.mem_filter.mpr ⟨hx, by simp⟩)

theorem sum_filter [Fintype ι] (tag : α → ι) (out : List α) :
    ∑ i, (out.filter fun x => tag x = i).length = out.length := by
  induction out with
  | nil => simp
  | cons x out ih =>
    have hcons (i : ι) : ((x :: out).filter fun y => tag y = i).length =
        (if tag x = i then 1 else 0) + (out.filter fun y => tag y = i).length := by
      by_cases hi : tag x = i <;> simp [hi, Nat.add_comm]
    simp only [hcons, Finset.sum_add_distrib, ih, Finset.sum_ite_eq, Finset.mem_univ, if_true, List.length_cons,
      Nat.add_comm]

theorem length [Fintype ι] (h : Interleaves tag P lists out left) :
    ∑ i, (lists i).length = out.length + ∑ i, (left i).length := by
  rw [← sum_filter tag out, ← Finset.sum_add_distrib]
  refine Finset.sum_congr rfl fun i _ => ?_
  rw [h.split i, List.length_append]

/-- `S` holds the elements of the lists, and of them a least head is chosen. -/
theorem sorted [LinearOrder κ] {key : α → κ} {S : Set α} (h : Interleaves tag P lists out left)
    (hleast : ∀ lists x, (∀ i, ∀ y ∈ lists i, y ∈ S) → P lists x → ∀ i y, (lists i).head? = some y → key x ≤ key y)
    (hsub : ∀ i, ∀ y ∈ lists i, y ∈ S) (hsorted : ∀ i, (lists i).Pairwise fun x y => key x ≤ key y) :
    out.Pairwise fun x y => key x ≤ key y := by
  induction h with
  | nil => exact List.Pairwise.nil
  | @cons lists left x xs out hP hx hrest ih =>
    have hbelow (i : ι) : ∀ y ∈ lists i, key x ≤ key y := by
      intro y hy
      have hpairs := hsorted i
      cases hl : lists i with
      | nil =>
        rw [hl] at hy
        cases hy
      | cons head rest =>
        rw [hl] at hy hpairs
        have hhead := hleast lists x hsub hP i head (by rw [hl]; rfl)
        rcases List.mem_cons.mp hy with rfl | hy
        · exact hhead
        · exact hhead.trans ((List.pairwise_cons.mp hpairs).1 y hy)
    -- What is left of a list is a part of it, in its order.
    have hpart (i : ι) : (Function.update lists (tag x) xs i).Sublist (lists i) := by
      by_cases hi : i = tag x
      · subst hi
        rw [Function.update_self, hx]
        exact List.sublist_cons_self x xs
      · rw [Function.update_of_ne hi]
    refine List.pairwise_cons.mpr ⟨fun y hy => ?_, ih (fun i y hy => hsub i y ((hpart i).subset hy)) fun i =>
      (hsorted i).sublist (hpart i)⟩
    exact hbelow (tag y) y ((hpart (tag y)).subset (hrest.mem hy))

end Interleaves

end AscendEmulator.Lib
