/-
  AscendEmulator.C220.Vector.SortProofs — the introsort sorts, with every index in range, if its comparison is an order.

  The partition leaves nothing in its left part above anything in its right one, so the least record is always among the
  first sixteen, as it is after a heap sort; that is what the unguarded insertions need. They do the sorting.
-/

import AscendEmulator.C220.Vector.Sort

namespace AscendEmulator.C220.Vector

namespace Introsort

variable {α κ : Type} [LinearOrder κ] {precedes : α → α → Bool} {key : α → κ} {l l' : List α} {x y pivot value : α}
  {i j : Nat}

/-- On the records of a list, the comparison is that of their keys. -/
def Agrees (precedes : α → α → Bool) (key : α → κ) (l : List α) : Prop :=
  ∀ x ∈ l, ∀ y ∈ l, (precedes x y = true ↔ key x < key y)

theorem Agrees.mono (h : Agrees precedes key l) (hsub : l' ⊆ l) : Agrees precedes key l' :=
  fun x hx y hy => h x (hsub hx) y (hsub hy)

theorem Agrees.perm (h : Agrees precedes key l) (hp : l'.Perm l) : Agrees precedes key l' := h.mono hp.subset

theorem Agrees.not_iff (h : Agrees precedes key l) (hx : x ∈ l) (hy : y ∈ l) :
    precedes x y = false ↔ key y ≤ key x := by
  rw [← not_lt, ← h x hx y hy, Bool.not_eq_true]

/-! ## Swaps -/

structure Swapped (l l' : List α) (i j : Nat) : Prop where
  perm : l'.Perm l
  left : l'[i]? = l[j]?
  right : l'[j]? = l[i]?
  others : ∀ k, k ≠ i → k ≠ j → l'[k]? = l[k]?

theorem swap_swapped (hi : i < l.length) (hj : j < l.length) : ∃ l', swap l i j = some l' ∧ Swapped l l' i j := by
  have hx : l[i]? = some l[i] := List.getElem?_eq_getElem hi
  have hy : l[j]? = some l[j] := List.getElem?_eq_getElem hj
  refine ⟨(l.set i l[j]).set j l[i], by simp [swap, hx, hy], ?_, ?_, ?_, fun k hki hkj => ?_⟩
  · have h := (l.toArray.swap_perm (i := i) (j := j) hi hj).toList
    simpa using h
  · rw [List.getElem?_set]
    by_cases h : j = i
    · subst h
      simp [hi]
    · simp [h, hi, hy]
  · simp [List.getElem?_set, hj, hx]
  · simp [List.getElem?_set, Ne.symm hki, Ne.symm hkj]

theorem Swapped.drop (h : Swapped l l' i j) {n : Nat} (hi : i < n) (hj : j < n) : l'.drop n = l.drop n := by
  apply List.ext_getElem?
  intro k
  rw [List.getElem?_drop, List.getElem?_drop]
  exact h.others (n + k) (by omega) (by omega)

theorem lt_length (h : l[i]? = some x) : i < l.length := by
  by_contra hn
  rw [List.getElem?_eq_none (by omega)] at h
  cases h

theorem mem_of_getElem? (h : l[i]? = some x) : x ∈ l := List.mem_of_getElem? h

/-! ## The partition -/

/-- The scan upwards stops at the first record that does not precede the pivot. -/
theorem scanUp_some (precedes : α → α → Bool) (pivot : α) (l : List α)
    (h : ∃ (j : Nat) (x : α), l[j]? = some x ∧ precedes x pivot = false) :
    ∃ (n : Nat) (x : α), scanUp precedes pivot l = some n ∧ l[n]? = some x ∧ precedes x pivot = false ∧
      ∀ k y, k < n → l[k]? = some y → precedes y pivot = true := by
  induction l with
  | nil =>
    obtain ⟨j, x, hx, -⟩ := h
    cases hx
  | cons z l ih =>
    unfold scanUp
    by_cases hz : precedes z pivot = true
    · have htail : ∃ (j : Nat) (x : α), l[j]? = some x ∧ precedes x pivot = false := by
        obtain ⟨j, x, hx, hstop⟩ := h
        cases j with
        | zero =>
          cases hx
          rw [hz] at hstop
          cases hstop
        | succ j => exact ⟨j, x, hx, hstop⟩
      obtain ⟨n, x, hn, hx, hstop, hbelow⟩ := ih htail
      refine ⟨n + 1, x, by rw [if_pos hz, hn]; rfl, hx, hstop, fun k y hk hy => ?_⟩
      cases k with
      | zero =>
        cases hy
        exact hz
      | succ k => exact hbelow k y (by omega) hy
    · exact ⟨0, z, if_neg hz, rfl, by simpa using hz, fun k y hk => absurd hk (Nat.not_lt_zero k)⟩

/-- The scan downwards stops at the last record that the pivot does not precede. -/
theorem scanDown_some (precedes : α → α → Bool) (pivot : α) {last : Nat} (hlast : last ≤ l.length)
    (h : ∃ j x, j < last ∧ l[j]? = some x ∧ precedes pivot x = false) :
    ∃ n x, scanDown precedes l pivot last = some n ∧ n < last ∧ l[n]? = some x ∧ precedes pivot x = false ∧
      ∀ k y, n < k → k < last → l[k]? = some y → precedes pivot y = true := by
  induction last with
  | zero =>
    obtain ⟨j, x, hj, -⟩ := h
    omega
  | succ last ih =>
    have hz : l[last]? = some l[last] := List.getElem?_eq_getElem (by omega)
    unfold scanDown
    rw [hz]
    by_cases hp : precedes pivot l[last] = true
    · have hbelow : ∃ j x, j < last ∧ l[j]? = some x ∧ precedes pivot x = false := by
        obtain ⟨j, x, hj, hx, hstop⟩ := h
        by_cases hjl : j = last
        · subst hjl
          obtain rfl := Option.some.inj (hz.symm.trans hx)
          rw [hp] at hstop
          cases hstop
        · exact ⟨j, x, by omega, hx, hstop⟩
      obtain ⟨n, x, hn, hlt, hx, hstop, habove⟩ := ih (by omega) hbelow
      refine ⟨n, x, by simpa [hp] using hn, by omega, hx, hstop, fun k y hnk hk hy => ?_⟩
      by_cases hkl : k = last
      · subst hkl
        obtain rfl := Option.some.inj (hz.symm.trans hy)
        exact hp
      · exact habove k y hnk (by omega) hy
    · refine ⟨last, l[last], by simp [hp], by omega, hz, by simpa using hp, fun k y hnk hk => ?_⟩
      omega

/-- Between the turns of a partition: what was passed is on its side of the pivot, and each scan has where to stop. -/
structure Turn (key : α → κ) (pivot : α) (l : List α) (first last : Nat) : Prop where
  pivot_mem : pivot ∈ l
  pos : 1 ≤ first
  le : last ≤ l.length
  below : ∀ i x, i < first → l[i]? = some x → key x ≤ key pivot
  above : ∀ i x, last ≤ i → l[i]? = some x → key pivot ≤ key x
  up : ∃ j x, first ≤ j ∧ l[j]? = some x ∧ key pivot ≤ key x
  down : ∃ j x, 1 ≤ j ∧ j < last ∧ l[j]? = some x ∧ key x ≤ key pivot

/-- What a partition comes to. -/
structure Parted (key : α → κ) (l l' : List α) (cut : Nat) : Prop where
  perm : l'.Perm l
  pos : 1 ≤ cut
  lt : cut < l'.length
  parted : ∀ x ∈ l'.take cut, ∀ y ∈ l'.drop cut, key x ≤ key y

theorem partitionLoop_parts {fuel first last : Nat} (ha : Agrees precedes key l) (h : Turn key pivot l first last)
    (hfuel : last ≤ fuel) :
    ∃ cut l', partitionLoop precedes pivot fuel l first last = some (cut, l') ∧ Parted key l l' cut := by
  induction fuel generalizing l first last with
  | zero =>
    obtain ⟨j, x, -, hj, -⟩ := h.down
    omega
  | succ fuel ih =>
    obtain ⟨j, x, hfirst, hx, hxle⟩ := h.up
    obtain ⟨steps, f, hup, hf, hfstop, hbelow⟩ := scanUp_some precedes pivot (l.drop first)
      ⟨j - first, x, by rw [List.getElem?_drop, Nat.add_sub_cancel' hfirst]; exact hx,
        (ha.not_iff (mem_of_getElem? hx) h.pivot_mem).mpr hxle⟩
    obtain ⟨k, z, hk1, hklt, hz, hzle⟩ := h.down
    obtain ⟨n, g, hdown, hn, hg, hgstop, habove⟩ := scanDown_some precedes pivot h.le
      ⟨k, z, hklt, hz, (ha.not_iff h.pivot_mem (mem_of_getElem? hz)).mpr hzle⟩
    rw [List.getElem?_drop] at hf
    have hfle := (ha.not_iff (mem_of_getElem? hf) h.pivot_mem).mp hfstop
    have hgle := (ha.not_iff h.pivot_mem (mem_of_getElem? hg)).mp hgstop
    have hflen := lt_length hf
    -- What the scans passed is on its side.
    have hlow (i : Nat) (y : α) (hi : i < first + steps) (hy : l[i]? = some y) : key y ≤ key pivot := by
      by_cases hlt : i < first
      · exact h.below i y hlt hy
      · refine le_of_lt ((ha y (mem_of_getElem? hy) pivot h.pivot_mem).mp (hbelow (i - first) y (by omega) ?_))
        rw [List.getElem?_drop, Nat.add_sub_cancel' (by omega)]
        exact hy
    have hhigh (i : Nat) (y : α) (hi : n < i) (hy : l[i]? = some y) : key pivot ≤ key y := by
      by_cases hlt : i < last
      · exact le_of_lt ((ha pivot h.pivot_mem y (mem_of_getElem? hy)).mp (habove i y hi hlt hy))
      · exact h.above i y (by omega) hy
    unfold partitionLoop
    simp only [hup, hdown, Option.bind_eq_bind, Option.bind_some]
    by_cases hmeet : n ≤ first + steps
    · rw [if_pos hmeet]
      have hpos := h.pos
      refine ⟨_, _, rfl, List.Perm.refl l, by omega, hflen, fun x hx y hy => ?_⟩
      obtain ⟨i, hi⟩ := List.mem_iff_getElem?.mp hx
      obtain ⟨k, hk⟩ := List.mem_iff_getElem?.mp hy
      rw [List.getElem?_take] at hi
      rw [List.getElem?_drop] at hk
      split at hi
      · rename_i hlt
        refine le_trans (hlow i x hlt hi) ?_
        by_cases hkn : n < first + steps + k
        · exact hhigh _ y hkn hk
        · obtain rfl : k = 0 := by omega
          obtain rfl := Option.some.inj (hf.symm.trans hk)
          exact hfle
      · cases hi
    · rw [if_neg hmeet]
      obtain ⟨l₁, hswap, hs⟩ := swap_swapped hflen (lt_length hg)
      rw [hswap]
      simp only [Option.bind_some]
      have hleft : l₁[first + steps]? = some g := hs.left.trans hg
      have hright : l₁[n]? = some f := hs.right.trans hf
      have hpos := h.pos
      have hle := h.le
      have hlen := hs.perm.length_eq
      have hturn : Turn key pivot l₁ (first + steps + 1) n :=
        { pivot_mem := hs.perm.mem_iff.mpr h.pivot_mem
          pos := by omega
          le := by omega
          below := fun i y hi hy => by
            by_cases heq : i = first + steps
            · subst heq
              obtain rfl := Option.some.inj (hleft.symm.trans hy)
              exact hgle
            · rw [hs.others i heq (by omega)] at hy
              exact hlow i y (by omega) hy
          above := fun i y hi hy => by
            by_cases heq : i = n
            · subst heq
              obtain rfl := Option.some.inj (hright.symm.trans hy)
              exact hfle
            · rw [hs.others i (by omega) heq] at hy
              exact hhigh i y (by omega) hy
          up := ⟨n, f, by omega, hright, hfle⟩
          down := ⟨first + steps, g, by omega, by omega, hleft, hgle⟩ }
      obtain ⟨cut, l₂, hloop, hparted⟩ := ih (ha.perm hs.perm) hturn (by omega)
      exact ⟨cut, l₂, hloop, hparted.perm.trans hs.perm, hparted.pos, hparted.lt, hparted.parted⟩

/-- The pivot goes to the front, with a record on either side of it left behind. -/
structure Pivoted (key : α → κ) (l l' : List α) : Prop where
  perm : l'.Perm l
  bounds : ∃ (pivot : α) (j k : Nat) (x y : α), l'[0]? = some pivot ∧ 1 ≤ j ∧ 1 ≤ k ∧ l'[j]? = some x ∧ l'[k]? = some y ∧
    key x ≤ key pivot ∧ key pivot ≤ key y

theorem swap_pivoted {p j k : Nat} {pivot x y : α} (hp : l[p]? = some pivot) (hj : l[j]? = some x) (hk : l[k]? = some y)
    (hpos : 1 ≤ p ∧ 1 ≤ j ∧ 1 ≤ k) (hjp : j ≠ p) (hkp : k ≠ p) (hx : key x ≤ key pivot) (hy : key pivot ≤ key y) :
    ∃ l', swap l 0 p = some l' ∧ Pivoted key l l' := by
  have hlt := lt_length hp
  obtain ⟨l', hswap, hs⟩ := swap_swapped (show 0 < l.length by omega) hlt
  exact ⟨l', hswap, hs.perm, pivot, j, k, x, y, hs.left.trans hp, hpos.2.1, hpos.2.2,
    (hs.others j (by omega) hjp).trans hj, (hs.others k (by omega) hkp).trans hk, hx, hy⟩

/-- The median of three records at distinct places. -/
theorem moveMedianToFirst_pivots {first middle last : Nat} (ha : Agrees precedes key l) (hfirst : 1 ≤ first)
    (hmiddle : first < middle) (hlast : middle < last) (hlength : last < l.length) :
    ∃ l', moveMedianToFirst precedes l first middle last = some l' ∧ Pivoted key l l' := by
  have hf : l[first]? = some l[first] := List.getElem?_eq_getElem (by omega)
  have hm : l[middle]? = some l[middle] := List.getElem?_eq_getElem (by omega)
  have hl : l[last]? = some l[last] := List.getElem?_eq_getElem hlength
  unfold moveMedianToFirst
  rw [hf, hm, hl]
  simp only [Option.bind_eq_bind, Option.bind_some, ha _ (mem_of_getElem? hf) _ (mem_of_getElem? hm),
    ha _ (mem_of_getElem? hm) _ (mem_of_getElem? hl), ha _ (mem_of_getElem? hf) _ (mem_of_getElem? hl)]
  split_ifs with hfm hml hfl hfl hml
  · exact swap_pivoted hm hf hl (by omega) (by omega) (by omega) hfm.le hml.le
  · exact swap_pivoted hl hf hm (by omega) (by omega) (by omega) hfl.le (not_lt.mp hml)
  · exact swap_pivoted hf hl hm (by omega) (by omega) (by omega) (not_lt.mp hfl) hfm.le
  · exact swap_pivoted hf hm hl (by omega) (by omega) (by omega) (not_lt.mp hfm) hfl.le
  · exact swap_pivoted hl hm hf (by omega) (by omega) (by omega) hml.le (not_lt.mp hfl)
  · exact swap_pivoted hm hl hf (by omega) (by omega) (by omega) (not_lt.mp hml) (not_lt.mp hfm)

theorem unguardedPartitionPivot_parts (ha : Agrees precedes key l) (hlength : 16 < l.length) :
    ∃ cut l', unguardedPartitionPivot precedes l = some (cut, l') ∧ Parted key l l' cut := by
  obtain ⟨l₁, hmove, hperm, pivot, j, k, x, y, hpivot, hj, hk, hx, hy, hxle, hyle⟩ :
      ∃ l₁, moveMedianToFirst precedes l 1 (l.length / 2) (l.length - 1) = some l₁ ∧ Pivoted key l l₁ :=
    moveMedianToFirst_pivots ha (Nat.le_refl 1) (by omega) (by omega) (by omega)
  have hjlt := lt_length hx
  have hturn : Turn key pivot l₁ 1 l₁.length :=
    { pivot_mem := mem_of_getElem? hpivot
      pos := Nat.le_refl 1
      le := Nat.le_refl _
      below := fun i z hi hz => by
        obtain rfl : i = 0 := by omega
        obtain rfl := Option.some.inj (hpivot.symm.trans hz)
        exact le_refl _
      above := fun i z hi hz => absurd (lt_length hz) (by omega)
      up := ⟨k, y, hk, hy, hyle⟩
      down := ⟨j, x, hj, hjlt, hx, hxle⟩ }
  obtain ⟨cut, l₂, hloop, hparted⟩ := partitionLoop_parts (ha.perm hperm) hturn (Nat.le_refl _)
  refine ⟨cut, l₂, ?_, hparted.perm.trans hperm, hparted.pos, hparted.lt, hparted.parted⟩
  unfold unguardedPartitionPivot
  simp only [hmove, hpivot, Option.bind_eq_bind, Option.bind_some, hloop]

/-! ## The heap -/

/-- A child of a place of the heap. -/
def IsChild (child root : Nat) : Prop := child = root * 2 + 1 ∨ child = root * 2 + 2

/-- From `low` on, no record before `last` is above that of its parent, but for the children of `except`. -/
def HeapBut (key : α → κ) (l : List α) (last low : Nat) (except : Nat → Prop) : Prop :=
  ∀ root child x y, low ≤ root → ¬ except root → IsChild child root → child < last →
    l[root]? = some x → l[child]? = some y → key y ≤ key x

/-- From `low` on, no record before `last` is above that of its parent. -/
def Heap (key : α → κ) (l : List α) (last low : Nat) : Prop := HeapBut key l last low fun _ => False

/-- The first record of a heap is the greatest. -/
theorem Heap.greatest {last : Nat} (h : Heap key l last 0) (hx : l[0]? = some x) (hi : i < last) (hy : l[i]? = some y) :
    key y ≤ key x := by
  induction i using Nat.strong_induction_on generalizing y with
  | _ i ih =>
    by_cases hzero : i = 0
    · subst hzero
      obtain rfl := Option.some.inj (hx.symm.trans hy)
      exact le_refl _
    · have hlt := lt_length hy
      have hlt' : (i - 1) / 2 < l.length := by omega
      have hparent : l[(i - 1) / 2]? = some l[(i - 1) / 2] := List.getElem?_eq_getElem hlt'
      have hle := h ((i - 1) / 2) i _ y (Nat.zero_le _) not_false (by unfold IsChild; omega) hi hparent hy
      exact hle.trans (ih ((i - 1) / 2) (by omega) (by omega) hparent)

/-- A sift at `root`: only its children may be above it, and they are not above its parent. -/
structure Sifting (key : α → κ) (l : List α) (last low root : Nat) : Prop where
  start : low ≤ root
  le : last ≤ l.length
  heap : HeapBut key l last low (· = root)
  grand : ∀ parent child x y, low ≤ parent → IsChild root parent → IsChild child root → child < last →
    l[parent]? = some x → l[child]? = some y → key y ≤ key x

/-- What a sift leaves: a heap, and all from `last` on. -/
structure Sifted (key : α → κ) (l l' : List α) (last low : Nat) : Prop where
  perm : l'.Perm l
  drop : l'.drop last = l.drop last
  heap : Heap key l' last low

/-- The child that goes up is the greater one. -/
theorem Sifting.move {last low root child : Nat} (h : Sifting key l last low root) (hchild : IsChild child root)
    (hlast : child < last) (hgreater : ∀ other x y, IsChild other root → other < last →
      l[child]? = some x → l[other]? = some y → key y ≤ key x) {x y : α} (hx : l[root]? = some x) (hy : l[child]? = some y)
    (hxy : key x ≤ key y) (hs : Swapped l l' root child) : Sifting key l' last low child := by
  have hgt : root < child := by
    unfold IsChild at hchild
    omega
  have hlow := h.start
  have hleft : l'[root]? = some y := hs.left.trans hy
  refine ⟨by omega, by rw [hs.perm.length_eq]; exact h.le, fun r c v w hr hne hc hclast hv hw => ?_,
    fun parent c v w hparent hp hc hclast hv hw => ?_⟩
  · have hcgt : r < c := by
      unfold IsChild at hc
      omega
    by_cases hroot : r = root
    · subst hroot
      obtain rfl := Option.some.inj (hleft.symm.trans hv)
      by_cases hcc : c = child
      · subst hcc
        obtain rfl := Option.some.inj (hx.symm.trans (hs.right.symm.trans hw))
        exact hxy
      · rw [hs.others c (by omega) hcc] at hw
        exact hgreater c _ w hc hclast hy hw
    · rw [hs.others r hroot hne] at hv
      have hcc : c ≠ child := by
        unfold IsChild at hc hchild
        omega
      by_cases hcroot : c = root
      · subst hcroot
        obtain rfl := Option.some.inj (hleft.symm.trans hw)
        exact h.grand r child v _ hr hc hchild hlast hv hy
      · rw [hs.others c hcroot hcc] at hw
        exact h.heap r c v w hr hroot hc hclast hv hw
  · obtain rfl : parent = root := by
      unfold IsChild at hp hchild
      omega
    obtain rfl := Option.some.inj (hleft.symm.trans hv)
    have hcgt : child < c := by
      unfold IsChild at hc
      omega
    rw [hs.others c (by omega) (by omega)] at hw
    exact h.heap child c _ w (by omega) (by omega) hc hclast hy hw

theorem Sifting.stop {last low root : Nat} (h : Sifting key l last low root)
    (hstop : ∀ child x y, IsChild child root → child < last → l[root]? = some x → l[child]? = some y → key y ≤ key x) :
    Sifted key l l last low := by
  refine ⟨List.Perm.refl l, rfl, fun r c x y hr _ hc hclast hx hy => ?_⟩
  by_cases hroot : r = root
  · subst hroot
    exact hstop c x y hc hclast hx hy
  · exact h.heap r c x y hr hroot hc hclast hx hy

theorem siftLoop_sifts {fuel last low root : Nat} (ha : Agrees precedes key l) (h : Sifting key l last low root)
    (hroot : root < last) (hfuel : last < fuel + root) :
    ∃ l', siftLoop precedes last fuel l root = some l' ∧ Sifted key l l' last low := by
  induction fuel generalizing l root with
  | zero => omega
  | succ fuel ih =>
    have hle := h.le
    -- The sift goes on with the greater child, or stops.
    have hstep (child : Nat) (y : α) (hchild : IsChild child root) (hlast : child < last) (hy : l[child]? = some y)
        (hgreater : ∀ other z, IsChild other root → other < last → l[other]? = some z → key z ≤ key y) :
        ∃ l', (do
            let x ← l[root]?
            let y ← l[child]?
            if !precedes x y then some l
            else
              let records ← swap l root child
              siftLoop precedes last fuel records child) = some l' ∧ Sifted key l l' last low := by
      have hlt : root < l.length := by omega
      have hx : l[root]? = some l[root] := List.getElem?_eq_getElem hlt
      have hp := ha _ (mem_of_getElem? hx) _ (mem_of_getElem? hy)
      simp only [hx, hy, Option.bind_eq_bind, Option.bind_some]
      by_cases hxy : precedes l[root] y = true
      · obtain ⟨l₁, hswap, hs⟩ := swap_swapped hlt (lt_length hy)
        have hmove := h.move hchild hlast (fun other v w ho hol hv hw => by
          obtain rfl := Option.some.inj (hy.symm.trans hv)
          exact hgreater other w ho hol hw) hx hy (hp.mp hxy).le hs
        have hgt : root < child := by
          unfold IsChild at hchild
          omega
        obtain ⟨l₂, hloop, hsifted⟩ := ih (ha.perm hs.perm) hmove hlast (by omega)
        refine ⟨l₂, by simpa [hxy, hswap] using hloop, hsifted.perm.trans hs.perm, ?_, hsifted.heap⟩
        rw [hsifted.drop, hs.drop hroot hlast]
      · refine ⟨l, by simp [hxy], h.stop fun other v w ho hol hv hw => ?_⟩
        obtain rfl := Option.some.inj (hx.symm.trans hv)
        exact (hgreater other w ho hol hw).trans (not_lt.mp fun hlt => hxy (hp.mpr hlt))
    unfold siftLoop
    by_cases hleft : last ≤ root * 2 + 1
    · refine ⟨l, by simp [hleft], h.stop fun child x y hc hcl => ?_⟩
      unfold IsChild at hc
      omega
    · have hltl : root * 2 + 1 < l.length := by omega
      have hl : l[root * 2 + 1]? = some l[root * 2 + 1] := List.getElem?_eq_getElem hltl
      simp only [if_neg hleft, hl, Option.bind_eq_bind, Option.bind_some]
      by_cases hright : root * 2 + 1 + 1 < last
      · have hltr : root * 2 + 1 + 1 < l.length := by omega
        have hr : l[root * 2 + 1 + 1]? = some l[root * 2 + 1 + 1] := List.getElem?_eq_getElem hltr
        have hp := ha _ (mem_of_getElem? hl) _ (mem_of_getElem? hr)
        simp only [if_pos hright, hr, Option.map_some, Option.bind_some, Option.any_some]
        by_cases hlr : precedes l[root * 2 + 1] l[root * 2 + 1 + 1] = true
        · rw [if_pos hlr]
          refine hstep (root * 2 + 1 + 1) _ (.inr rfl) hright hr fun other z ho _ hz => ?_
          rcases ho with rfl | rfl
          · obtain rfl := Option.some.inj (hl.symm.trans hz)
            exact (hp.mp hlr).le
          · obtain rfl := Option.some.inj (hr.symm.trans hz)
            exact le_refl _
        · rw [if_neg hlr]
          refine hstep (root * 2 + 1) _ (.inl rfl) (by omega) hl fun other z ho _ hz => ?_
          rcases ho with rfl | rfl
          · obtain rfl := Option.some.inj (hl.symm.trans hz)
            exact le_refl _
          · obtain rfl := Option.some.inj (hr.symm.trans hz)
            exact not_lt.mp fun hlt => hlr (hp.mpr hlt)
      · simp only [if_neg hright, Option.bind_some, Option.any_none, Bool.false_eq_true, if_false]
        refine hstep (root * 2 + 1) _ (.inl rfl) (by omega) hl fun other z ho hol hz => ?_
        rcases ho with rfl | rfl
        · obtain rfl := Option.some.inj (hl.symm.trans hz)
          exact le_refl _
        · omega

theorem siftDown_sifts {last low root : Nat} (ha : Agrees precedes key l) (h : Sifting key l last low root)
    (hroot : root < last) : ∃ l', siftDown precedes l root last = some l' ∧ Sifted key l l' last low :=
  siftLoop_sifts ha h hroot (by omega)

/-- The records are sifted from the last parent down to the first. -/
theorem heapify {n : Nat} (ha : Agrees precedes key l) (hn : n ≤ l.length / 2) (hheap : Heap key l l.length n) :
    ∃ l', (List.range n).reverse.foldlM (fun records root => siftDown precedes records root l.length) l = some l' ∧
      l'.Perm l ∧ Heap key l' l.length 0 := by
  induction n generalizing l with
  | zero => exact ⟨l, rfl, List.Perm.refl l, hheap⟩
  | succ n ih =>
    have hsifting : Sifting key l l.length n n :=
      { start := Nat.le_refl n
        le := Nat.le_refl _
        heap := fun r c x y hr hne => hheap r c x y (by omega) not_false
        grand := fun parent child x y hparent hp => by
          unfold IsChild at hp
          omega }
    obtain ⟨l₁, hsift, hs⟩ := siftDown_sifts ha hsifting (by omega)
    have hlen := hs.perm.length_eq
    obtain ⟨l₂, hfold, hperm, hheap₂⟩ := ih (ha.perm hs.perm) (by omega) (by rw [hlen]; exact hs.heap)
    rw [hlen] at hfold hheap₂
    refine ⟨l₂, ?_, hperm.trans hs.perm, hheap₂⟩
    rw [List.range_succ, List.reverse_append, List.reverse_singleton, List.singleton_append, List.foldlM_cons, hsift]
    exact hfold

/-- The greatest record of the heap goes behind it, until the least is left. -/
theorem extract {n : Nat} (ha : Agrees precedes key l) (hlength : n + 1 ≤ l.length) (hheap : Heap key l (n + 1) 0)
    (hsplit : ∀ x ∈ l.take (n + 1), ∀ y ∈ l.drop (n + 1), key x ≤ key y) :
    ∃ l', (List.range' 1 n).reverse.foldlM (fun records last => do
        let records ← swap records 0 last
        siftDown precedes records 0 last) l = some l' ∧ l'.Perm l ∧
      ∀ x ∈ l'.take 1, ∀ y ∈ l'.drop 1, key x ≤ key y := by
  induction n generalizing l with
  | zero => exact ⟨l, rfl, List.Perm.refl l, hsplit⟩
  | succ n ih =>
    obtain ⟨l₁, hswap, hs⟩ := swap_swapped (show 0 < l.length by omega) (show n + 1 < l.length by omega)
    have hroot : l[0]? = some l[0] := List.getElem?_eq_getElem (by omega)
    have hlast : l₁[n + 1]? = some l[0] := hs.right.trans hroot
    have hlen₁ := hs.perm.length_eq
    have hsifting : Sifting key l₁ (n + 1) 0 0 :=
      { start := Nat.le_refl 0
        le := by omega
        heap := fun r c x y _ hne hc hcl hx hy => by
          have hgt : r < c := by
            unfold IsChild at hc
            omega
          rw [hs.others r hne (by omega)] at hx
          rw [hs.others c (by omega) (by omega)] at hy
          exact hheap r c x y (Nat.zero_le r) not_false hc (by omega) hx hy
        grand := fun parent child x y _ hp => by
          unfold IsChild at hp
          omega }
    obtain ⟨l₂, hsift, hsifted⟩ := siftDown_sifts (ha.perm hs.perm) hsifting (by omega)
    have hlen₂ := hsifted.perm.length_eq
    have htake : (l₂.take (n + 1)).Perm (l₁.take (n + 1)) := by
      have hperm := hsifted.perm
      rw [← List.take_append_drop (n + 1) l₂, ← List.take_append_drop (n + 1) l₁, hsifted.drop] at hperm
      exact (List.perm_append_right_iff _).mp hperm
    -- What is left is not above the root, and the root is not above what was taken before.
    have hsplit₂ : ∀ x ∈ l₂.take (n + 1), ∀ y ∈ l₂.drop (n + 1), key x ≤ key y := by
      intro x hx y hy
      obtain ⟨i, hi⟩ := List.mem_iff_getElem?.mp (htake.mem_iff.mp hx)
      rw [List.getElem?_take] at hi
      rw [hsifted.drop] at hy
      obtain ⟨k, hk⟩ := List.mem_iff_getElem?.mp hy
      rw [List.getElem?_drop] at hk
      split at hi
      · rename_i hin
        obtain ⟨i', hi', hi'lt⟩ : ∃ i', l[i']? = some x ∧ i' < n + 1 + 1 := by
          by_cases hzero : i = 0
          · subst hzero
            exact ⟨n + 1, hs.left.symm.trans hi, by omega⟩
          · exact ⟨i, (hs.others i hzero (by omega)).symm.trans hi, by omega⟩
        by_cases hkzero : k = 0
        · subst hkzero
          obtain rfl := Option.some.inj (hlast.symm.trans hk)
          exact hheap.greatest hroot hi'lt hi'
        · rw [hs.others _ (by omega) (by omega)] at hk
          refine hsplit x ?_ y ?_
          · exact List.mem_iff_getElem?.mpr ⟨i', by rw [List.getElem?_take, if_pos hi'lt]; exact hi'⟩
          · refine List.mem_iff_getElem?.mpr ⟨k - 1, ?_⟩
            rw [List.getElem?_drop, ← hk]
            congr 1
            omega
      · cases hi
    obtain ⟨l₃, hfold, hperm, hleast⟩ :=
      ih ((ha.perm hs.perm).perm hsifted.perm) (by omega) hsifted.heap hsplit₂
    refine ⟨l₃, ?_, hperm.trans (hsifted.perm.trans hs.perm), hleast⟩
    rw [List.range'_concat, List.reverse_append, List.reverse_singleton, List.singleton_append, List.foldlM_cons,
      Nat.one_mul, Nat.add_comm 1 n, hswap]
    simp only [Option.bind_eq_bind, Option.bind_some, hsift]
    exact hfold

/-- After a heap sort the least record is the first. -/
theorem heapSort_least (ha : Agrees precedes key l) (hlength : 0 < l.length) :
    ∃ l', heapSort precedes l = some l' ∧ l'.Perm l ∧ ∀ x ∈ l'.take 1, ∀ y ∈ l'.drop 1, key x ≤ key y := by
  have hbottom : Heap key l l.length (l.length / 2) := fun r c x y hr _ hc hcl => by
    unfold IsChild at hc
    omega
  obtain ⟨l₁, hbuild, hperm, hheap⟩ := heapify ha (Nat.le_refl _) hbottom
  have hlen := hperm.length_eq
  have hlen' : l.length - 1 + 1 = l₁.length := by omega
  obtain ⟨l₂, hextract, hperm₂, hleast⟩ := extract (ha.perm hperm) (Nat.le_of_eq hlen')
    (by rw [hlen', hlen]; exact hheap) (fun x _ y hy => by
      rw [hlen', List.drop_length] at hy
      cases hy)
  refine ⟨l₂, ?_, hperm₂.trans hperm, hleast⟩
  unfold heapSort
  rw [hbuild]
  exact hextract

/-! ## The introsort loop -/

/-- A least record is among the first sixteen. -/
def LeastEarly (key : α → κ) (l : List α) : Prop := l = [] ∨ ∃ m ∈ l.take 16, ∀ x ∈ l, key m ≤ key x

theorem leastEarly_short (h : l.length ≤ 16) : LeastEarly key l := by
  cases l with
  | nil => exact .inl rfl
  | cons x l =>
    rw [LeastEarly, List.take_of_length_le h]
    obtain ⟨m, hm, hle⟩ := Set.exists_min_image {y | y ∈ x :: l} key (List.finite_toSet _) ⟨x, List.mem_cons_self⟩
    exact .inr ⟨m, hm, hle⟩

/-- The least record of the left part is one of all. -/
theorem leastEarly_append {left right : List α} (h : LeastEarly key left) (hleft : left ≠ [])
    (hparts : ∀ x ∈ left, ∀ y ∈ right, key x ≤ key y) : LeastEarly key (left ++ right) := by
  rcases h with h | ⟨m, hm, hle⟩
  · exact absurd h hleft
  · refine .inr ⟨m, ?_, fun x hx => ?_⟩
    · rw [List.take_append]
      exact List.mem_append_left _ hm
    · rcases List.mem_append.mp hx with hx | hx
      · exact hle x hx
      · exact hparts m (List.mem_of_mem_take hm) x hx

theorem leastEarly_heap (h : ∀ x ∈ l.take 1, ∀ y ∈ l.drop 1, key x ≤ key y) : LeastEarly key l := by
  cases l with
  | nil => exact .inl rfl
  | cons m l =>
    refine .inr ⟨m, by simp, fun x hx => ?_⟩
    rcases List.mem_cons.mp hx with rfl | hx
    · exact le_refl _
    · exact h m (by simp) x (by simpa using hx)

theorem introsortLoop_leastEarly {depthLimit : Nat} (ha : Agrees precedes key l) :
    ∃ l', introsortLoop precedes depthLimit l = some l' ∧ l'.Perm l ∧ LeastEarly key l' := by
  induction depthLimit generalizing l with
  | zero =>
    unfold introsortLoop
    by_cases hlength : 16 < l.length
    · obtain ⟨l', hsort, hperm, hleast⟩ := heapSort_least ha (by omega)
      exact ⟨l', by rw [if_pos hlength]; exact hsort, hperm, leastEarly_heap hleast⟩
    · exact ⟨l, if_neg hlength, List.Perm.refl l, leastEarly_short (by omega)⟩
  | succ depthLimit ih =>
    unfold introsortLoop
    by_cases hlength : 16 < l.length
    · obtain ⟨cut, l₁, hpart, hp⟩ := unguardedPartitionPivot_parts ha hlength
      have ha₁ := ha.perm hp.perm
      obtain ⟨right, hright, hrperm, -⟩ := ih (ha₁.mono (List.drop_subset cut l₁))
      obtain ⟨left, hleft, hlperm, hleast⟩ := ih (ha₁.mono (List.take_subset cut l₁))
      have hcut : ¬ l₁.length < cut := by
        have := hp.lt
        omega
      refine ⟨left ++ right, ?_, ?_, leastEarly_append hleast ?_ fun x hx y hy => ?_⟩
      · rw [if_pos hlength]
        simp only [hpart, Option.bind_eq_bind, Option.bind_some, if_neg hcut, hright, hleft]
      · have happend := hlperm.append hrperm
        rw [List.take_append_drop] at happend
        exact happend.trans hp.perm
      · intro hnil
        have hlen := hlperm.length_eq
        have hpos := hp.pos
        have hlt := hp.lt
        rw [hnil, List.length_nil, List.length_take] at hlen
        omega
      · exact hp.parted x (hlperm.mem_iff.mp hx) y (hrperm.mem_iff.mp hy)
    · exact ⟨l, if_neg hlength, List.Perm.refl l, leastEarly_short (by omega)⟩

/-! ## The insertions -/

/-- In the order of the keys. -/
def Sorted (key : α → κ) (l : List α) : Prop := l.Pairwise fun x y => key x ≤ key y

/-- The hole goes down to its place in the sorted records before it, if one of them is not above `value`. -/
theorem shift_inserts {p q : List α} {v : α} (ha : ∀ x ∈ p, (precedes value x = true ↔ key value < key x))
    (hsorted : Sorted key p) (hstop : ∃ x ∈ p, key x ≤ key value) :
    ∃ p', shift precedes value p.length (p ++ v :: q) = some (p' ++ q) ∧ p'.Perm (value :: p) ∧ Sorted key p' := by
  induction p using List.reverseRecOn generalizing v q with
  | nil =>
    obtain ⟨x, hx, -⟩ := hstop
    cases hx
  | append_singleton p x ih =>
    have hx : (p ++ [x] ++ v :: q)[p.length]? = some x := by simp
    have hset (w : α) : (p ++ [x] ++ v :: q).set (p.length + 1) w = p ++ [x] ++ w :: q := by simp
    have hp := ha x (by simp)
    have hbefore := List.pairwise_append.mp hsorted
    rw [List.length_append, List.length_singleton, shift]
    simp only [hx, Option.bind_eq_bind, Option.bind_some, hset]
    by_cases hvx : precedes value x = true
    · have hstop' : ∃ y ∈ p, key y ≤ key value := by
        obtain ⟨y, hy, hle⟩ := hstop
        rcases List.mem_append.mp hy with hy | hy
        · exact ⟨y, hy, hle⟩
        · obtain rfl := List.mem_singleton.mp hy
          exact absurd (hp.mp hvx) (not_lt.mpr hle)
      obtain ⟨p', hshift, hperm, hsorted'⟩ := ih (v := x) (q := x :: q)
        (fun y hy => ha y (List.mem_append_left _ hy)) hbefore.1 hstop'
      refine ⟨p' ++ [x], ?_, ?_, ?_⟩
      · rw [if_pos hvx]
        simpa using hshift
      · exact hperm.append_right [x]
      · refine List.pairwise_append.mpr ⟨hsorted', List.pairwise_singleton _ _, fun y hy z hz => ?_⟩
        obtain rfl := List.mem_singleton.mp hz
        rcases List.mem_cons.mp (hperm.mem_iff.mp hy) with rfl | hy
        · exact (hp.mp hvx).le
        · exact hbefore.2.2 y hy z (List.mem_singleton_self z)
    · have hle : key x ≤ key value := not_lt.mp fun hlt => hvx (hp.mpr hlt)
      refine ⟨p ++ [x] ++ [value], ?_, ?_, ?_⟩
      · rw [if_neg hvx]
        simp
      · exact List.perm_append_comm
      · refine List.pairwise_append.mpr ⟨hsorted, List.pairwise_singleton _ _, fun y hy z hz => ?_⟩
        obtain rfl := List.mem_singleton.mp hz
        rcases List.mem_append.mp hy with hy | hy
        · exact (hbefore.2.2 y hy x (List.mem_singleton_self x)).trans hle
        · obtain rfl := List.mem_singleton.mp hy
          exact hle

/-- A turn puts the record after the sorted ones in its place, if it finds one among them as `fits` says. -/
def Inserts (f : List α → Nat → Option (List α)) (precedes : α → α → Bool) (key : α → κ) (fits : α → α → Prop) : Prop :=
  ∀ p v q, Agrees precedes key (p ++ v :: q) → Sorted key p → (∃ m ∈ p, fits m v) →
    ∃ p', f (p ++ v :: q) p.length = some (p' ++ q) ∧ p'.Perm (v :: p) ∧ Sorted key p'

theorem unguardedLinearInsert_inserts :
    Inserts (unguardedLinearInsert precedes) precedes key fun m v => key m ≤ key v := by
  intro p v q ha hsorted hfits
  have hv : (p ++ v :: q)[p.length]? = some v := by simp
  unfold unguardedLinearInsert
  rw [hv]
  exact shift_inserts (fun x hx => ha v (by simp) x (by simp [hx])) hsorted hfits

theorem insert_inserts : Inserts (insert precedes) precedes key fun _ _ => True := by
  intro p v q ha hsorted hfits
  cases p with
  | nil =>
    obtain ⟨m, hm, -⟩ := hfits
    cases hm
  | cons first p =>
    have hv : (first :: p ++ v :: q)[(first :: p).length]? = some v := by simp
    have hfirst : (first :: p ++ v :: q)[0]? = some first := rfl
    have hp := ha v (by simp) first (by simp)
    unfold insert
    simp only [hv, hfirst, Option.bind_eq_bind, Option.bind_some]
    by_cases hvf : precedes v first = true
    · refine ⟨v :: first :: p, ?_, List.Perm.refl _, List.pairwise_cons.mpr ⟨fun x hx => ?_, hsorted⟩⟩
      · rw [if_pos hvf, List.take_left, List.drop_append]
        simp
      · rcases List.mem_cons.mp hx with rfl | hx
        · exact (hp.mp hvf).le
        · exact (hp.mp hvf).le.trans ((List.pairwise_cons.mp hsorted).1 x hx)
    · rw [if_neg hvf]
      exact unguardedLinearInsert_inserts (first :: p) v q ha hsorted
        ⟨first, by simp, not_lt.mp fun hlt => hvf (hp.mpr hlt)⟩

/-- The turns sort the records after the sorted ones into them. -/
theorem insert_loop {f : List α → Nat → Option (List α)} {fits : α → α → Prop} (hf : Inserts f precedes key fits)
    {p q : List α} (ha : Agrees precedes key (p ++ q)) (hsorted : Sorted key p) (hfits : ∃ m ∈ p, ∀ v ∈ q, fits m v) :
    ∃ l', (List.range' p.length q.length).foldlM f (p ++ q) = some l' ∧ l'.Perm (p ++ q) ∧ Sorted key l' := by
  induction q generalizing p with
  | nil => exact ⟨p ++ [], rfl, List.Perm.refl _, by rwa [List.append_nil]⟩
  | cons v q ih =>
    obtain ⟨m, hm, hall⟩ := hfits
    obtain ⟨p', hstep, hperm, hsorted'⟩ := hf p v q ha hsorted ⟨m, hm, hall v List.mem_cons_self⟩
    have happend : (p' ++ q).Perm (p ++ v :: q) := (hperm.append_right q).trans List.perm_middle.symm
    obtain ⟨l', hfold, hperm', hsorted''⟩ := ih (ha.perm happend) hsorted'
      ⟨m, hperm.mem_iff.mpr (List.mem_cons_of_mem _ hm), fun w hw => hall w (List.mem_cons_of_mem _ hw)⟩
    refine ⟨l', ?_, hperm'.trans happend, hsorted''⟩
    have hlen : p'.length = p.length + 1 := hperm.length_eq
    rw [hlen] at hfold
    rw [List.length_cons, List.range'_succ, List.foldlM_cons, hstep]
    exact hfold

theorem insertionSort_sorts (ha : Agrees precedes key l) :
    ∃ l', insertionSort precedes l = some l' ∧ l'.Perm l ∧ Sorted key l' := by
  cases l with
  | nil => exact ⟨[], rfl, List.Perm.refl _, List.Pairwise.nil⟩
  | cons x l =>
    exact insert_loop insert_inserts (p := [x]) (q := l) ha (List.pairwise_singleton _ _)
      ⟨x, List.mem_singleton_self x, fun _ _ => trivial⟩

theorem finalInsertionSort_sorts (ha : Agrees precedes key l) (hleast : LeastEarly key l) :
    ∃ l', finalInsertionSort precedes l = some l' ∧ l'.Perm l ∧ Sorted key l' := by
  unfold finalInsertionSort
  by_cases hlength : 16 < l.length
  · obtain ⟨front, hfront, hperm, hsorted⟩ := insertionSort_sorts (ha.mono (List.take_subset 16 l))
    have happend : (front ++ l.drop 16).Perm l := by
      have h := hperm.append_right (l.drop 16)
      rwa [List.take_append_drop] at h
    obtain ⟨m, hm, hle⟩ : ∃ m ∈ l.take 16, ∀ x ∈ l, key m ≤ key x :=
      hleast.resolve_left (by rintro rfl; exact absurd hlength (Nat.not_lt_zero 16))
    obtain ⟨l', hfold, hperm', hsorted'⟩ := insert_loop unguardedLinearInsert_inserts (ha.perm happend) hsorted
      ⟨m, hperm.mem_iff.mpr hm, fun v hv => hle v (List.mem_of_mem_drop hv)⟩
    have hlen : front.length = 16 := by
      rw [hperm.length_eq, List.length_take]
      omega
    rw [hlen, List.length_drop] at hfold
    refine ⟨l', ?_, hperm'.trans happend, hsorted'⟩
    rw [if_pos hlength]
    simp only [hfront, Option.bind_eq_bind, Option.bind_some]
    exact hfold
  · rw [if_neg hlength]
    exact insertionSort_sorts ha

/-- The introsort sorts, with every index in range, if its comparison is that of keys. -/
theorem sort_sorts (ha : Agrees precedes key l) : ∃ l', sort precedes l = some l' ∧ l'.Perm l ∧ Sorted key l' := by
  unfold sort
  by_cases hlength : l.length < 2
  · refine ⟨l, if_pos hlength, List.Perm.refl l, ?_⟩
    match l, hlength with
    | [], _ => exact List.Pairwise.nil
    | [x], _ => exact List.pairwise_singleton _ x
  · obtain ⟨l₁, hloop, hperm, hleast⟩ : ∃ l₁, introsortLoop precedes (depthLimit l.length) l = some l₁ ∧ l₁.Perm l ∧
        LeastEarly key l₁ := introsortLoop_leastEarly ha
    obtain ⟨l₂, hfinal, hperm₂, hsorted⟩ := finalInsertionSort_sorts (ha.perm hperm) hleast
    refine ⟨l₂, ?_, hperm₂.trans hperm, hsorted⟩
    rw [if_neg hlength]
    simp only [hloop, Option.bind_eq_bind, Option.bind_some]
    exact hfinal

end Introsort

end AscendEmulator.C220.Vector
