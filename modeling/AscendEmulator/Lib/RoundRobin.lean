/-
  AscendEmulator.Lib.RoundRobin — smooth weighted round robin.

  Each turn serves one client: it pays the total of the gains, and every client gains its own. The running weights are
  then known from how often each was served (`running`). If every client was served at a positive weight, none is ahead
  of its share within one round (`Served.count_le`), a round serves each as often as its gain says
  (`Served.round`), and the running weights stay within the total times the number of clients.
-/

import AscendEmulator.Lib.Run

namespace AscendEmulator.Lib

namespace RoundRobin

variable {κ : Type} [Fintype κ] [DecidableEq κ]

/-- The weights after a turn that serves `k`. -/
def turn (gain : κ → ℤ) (k : κ) (weight : κ → ℤ) : κ → ℤ := fun j =>
  (if j = k then weight j - ∑ i, gain i else weight j) + gain j

/-- The weights after the turns that served `l`, which start as the gains. -/
def running (gain : κ → ℤ) (l : List κ) : κ → ℤ := fun j => (l.length + 1) * gain j - l.count j * ∑ i, gain i

/-- Each turn served a client of positive weight. -/
def Served (gain : κ → ℤ) (l : List κ) : Prop := AtEach (fun before k => 0 < running gain before k) l

variable {gain : κ → ℤ} {l : List κ} {j k : κ}

@[simp] theorem running_nil : running gain [] = gain := by
  funext j
  simp [running]

theorem running_snoc : running gain (l ++ [k]) = turn gain k (running gain l) := by
  funext j
  unfold turn running
  rw [List.length_append, List.length_singleton, List.count_append]
  by_cases hj : j = k
  · subst hj
    rw [if_pos rfl, List.count_singleton_self]
    push_cast
    ring
  · rw [if_neg hj, List.count_singleton, beq_false_of_ne (Ne.symm hj)]
    push_cast
    ring

theorem sum_count (l : List κ) : ∑ j, (l.count j : ℤ) = l.length := by
  induction l with
  | nil => simp
  | cons k l ih =>
    simp only [List.count_cons, Nat.cast_add, Finset.sum_add_distrib, ih, List.length_cons]
    simp

/-- A turn keeps the sum of the weights. -/
theorem sum_running : ∑ j, running gain l j = ∑ j, gain j := by
  unfold running
  rw [Finset.sum_sub_distrib, ← Finset.mul_sum, ← Finset.sum_mul, sum_count]
  ring

/-- Where the total is positive, some weight is. -/
theorem exists_pos (h : 0 < ∑ i, gain i) : ∃ j, 0 < running gain l j := by
  by_contra hn
  have hle : ∀ j ∈ Finset.univ, running gain l j ≤ 0 := fun j _ => not_lt.mp fun hj => hn ⟨j, hj⟩
  have hsum := Finset.sum_nonpos hle
  rw [sum_running] at hsum
  omega

theorem Served.snoc (h : Served gain l) (hk : 0 < running gain l k) : Served gain (l ++ [k]) := AtEach.snoc h hk

theorem Served.init (h : Served gain (l ++ [k])) : Served gain l ∧ 0 < running gain l k :=
  ⟨fun before x rest hl => h before x (rest ++ [k]) (by rw [hl]; simp), h l k [] rfl⟩

theorem Served.take (h : Served gain l) (n : Nat) : Served gain (l.take n) := by
  intro before x rest hl
  refine h before x (rest ++ l.drop n) ?_
  rw [← List.cons_append, ← List.append_assoc, ← hl, List.take_append_drop]

/-! ## One round -/

/-- Within a round no client is served more often than its gain. -/
theorem Served.count_le (h : Served gain l) (hgain : ∀ j, 0 ≤ gain j) (hlength : (l.length : ℤ) ≤ ∑ i, gain i) :
    (l.count j : ℤ) ≤ gain j := by
  induction l using List.reverseRecOn with
  | nil => simpa using hgain j
  | append_singleton l k ih =>
    obtain ⟨hl, hk⟩ := h.init
    rw [List.length_append, List.length_singleton, Nat.cast_add, Nat.cast_one] at hlength
    have hbefore := ih hl (by omega)
    rw [List.count_append, List.count_singleton]
    by_cases hj : k = j
    · subst hj
      -- It was served at a positive weight, before the end of the round.
      have hweight : (l.count k : ℤ) * ∑ i, gain i < gain k * ∑ i, gain i := by
        unfold running at hk
        have hshare : (l.length + 1 : ℤ) * gain k ≤ (∑ i, gain i) * gain k :=
          mul_le_mul_of_nonneg_right hlength (hgain k)
        linarith
      have hlt := lt_of_mul_lt_mul_right hweight (by omega)
      simpa using hlt
    · simpa [hj] using hbefore

/-- A round serves every client as often as its gain says, and ends with the weights it began with. -/
theorem Served.round (h : Served gain l) (hgain : ∀ j, 0 ≤ gain j) (hlength : (l.length : ℤ) = ∑ i, gain i) :
    (∀ j, (l.count j : ℤ) = gain j) ∧ running gain l = gain := by
  have hcount : ∀ j ∈ Finset.univ, (l.count j : ℤ) = gain j :=
    (Finset.sum_eq_sum_iff_of_le fun j _ => h.count_le hgain hlength.le).mp (by rw [sum_count, hlength])
  refine ⟨fun j => hcount j (Finset.mem_univ j), funext fun j => ?_⟩
  unfold running
  rw [hcount j (Finset.mem_univ j), hlength]
  ring

/-! ## Bounds -/

theorem Served.lower (h : Served gain l) (hgain : ∀ j, 0 ≤ gain j) (hpos : 0 < ∑ i, gain i) :
    -∑ i, gain i < running gain l j := by
  induction l using List.reverseRecOn with
  | nil =>
    have := hgain j
    rw [running_nil]
    omega
  | append_singleton l k ih =>
    obtain ⟨hl, hk⟩ := h.init
    have hbefore := ih hl
    have hj := hgain j
    rw [running_snoc]
    unfold turn
    split
    · rename_i heq
      rw [heq] at hj ⊢
      omega
    · omega

theorem Served.upper (h : Served gain l) (hgain : ∀ j, 0 ≤ gain j) (hpos : 0 < ∑ i, gain i) :
    running gain l j ≤ Fintype.card κ * ∑ i, gain i := by
  have hothers : (Finset.univ.erase j).card • -∑ i, gain i ≤ ∑ i ∈ Finset.univ.erase j, running gain l i :=
    Finset.card_nsmul_le_sum _ _ _ fun i _ => (h.lower hgain hpos).le
  have hsum := Finset.add_sum_erase Finset.univ (running gain l) (Finset.mem_univ j)
  have hcard := Finset.card_erase_add_one (Finset.mem_univ j)
  rw [sum_running] at hsum
  rw [Finset.card_univ] at hcard
  rw [← hcard, nsmul_eq_mul] at *
  push_cast
  linarith

end RoundRobin

end AscendEmulator.Lib
