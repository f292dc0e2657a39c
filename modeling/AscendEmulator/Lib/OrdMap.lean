/-
  AscendEmulator.Lib.OrdMap — ordered maps (`BTreeMap`) as sorted association lists.

  The entries are kept sorted by key as a field, so two maps with the same lookups are
  equal (`ext`) and the first entry has the least key. `sum` adds a number over the
  entries; `sum_insert` and `sum_erase` say how one update changes it, which is how an
  invariant counts over a map.
-/

import Mathlib

namespace AscendEmulator.Lib

variable {K V : Type}

/-! ## Association lists -/

namespace Assoc

def lookup [DecidableEq K] (k : K) : List (K × V) → Option V
  | [] => none
  | (j, v) :: l => if k = j then some v else lookup k l

def insert [LinearOrder K] (k : K) (v : V) : List (K × V) → List (K × V)
  | [] => [(k, v)]
  | (j, w) :: l => if k < j then (k, v) :: (j, w) :: l else if j < k then (j, w) :: insert k v l else (k, v) :: l

def erase [DecidableEq K] (k : K) (l : List (K × V)) : List (K × V) := l.filter fun e => e.1 ≠ k

def Sorted [LT K] (l : List (K × V)) : Prop := l.Pairwise fun a b => a.1 < b.1

def sum (f : K → V → Nat) (l : List (K × V)) : Nat := (l.map fun e => f e.1 e.2).sum

variable [LinearOrder K] {k j : K} {v w : V} {l : List (K × V)}

theorem lookup_none_of_lt (h : ∀ e ∈ l, k < e.1) : lookup k l = none := by
  induction l with
  | nil => rfl
  | cons e l ih =>
    have he := h e (List.mem_cons_self ..)
    rw [lookup, if_neg (ne_of_lt he)]
    exact ih fun e' he' => h e' (List.mem_cons_of_mem _ he')

theorem mem_iff_lookup (h : Sorted l) : (k, v) ∈ l ↔ lookup k l = some v := by
  induction l with
  | nil => simp [lookup]
  | cons e l ih =>
    obtain ⟨j, w⟩ := e
    obtain ⟨hlt, hl⟩ := List.pairwise_cons.mp h
    by_cases hk : k = j
    · subst hk
      have hn : (k, v) ∉ l := fun hm => lt_irrefl k (hlt _ hm)
      simp [lookup, hn, eq_comm]
    · simp [lookup, hk, ih hl]

theorem mem_insert {e : K × V} (he : e ∈ insert k v l) : e = (k, v) ∨ e ∈ l := by
  induction l with
  | nil => simpa [insert] using he
  | cons d l ih =>
    obtain ⟨j, w⟩ := d
    simp only [insert] at he
    split at he
    · simpa using he
    · split at he
      · rcases List.mem_cons.mp he with rfl | he
        · exact .inr (List.mem_cons_self ..)
        · exact (ih he).imp_right (List.mem_cons_of_mem _)
      · exact (List.mem_cons.mp he).imp_right (List.mem_cons_of_mem _)

theorem sorted_insert (h : Sorted l) : Sorted (insert k v l) := by
  induction l with
  | nil => exact List.pairwise_singleton _ _
  | cons d l ih =>
    obtain ⟨j, w⟩ := d
    obtain ⟨hlt, hl⟩ := List.pairwise_cons.mp h
    simp only [insert]
    split
    · rename_i hk
      refine List.pairwise_cons.mpr ⟨fun e he => ?_, h⟩
      rcases List.mem_cons.mp he with rfl | he
      · exact hk
      · exact lt_trans hk (hlt e he)
    · split
      · rename_i hj
        refine List.pairwise_cons.mpr ⟨fun e he => ?_, ih hl⟩
        rcases mem_insert he with rfl | he
        · exact hj
        · exact hlt e he
      · rename_i h1 h2
        obtain rfl : k = j := le_antisymm (not_lt.mp h2) (not_lt.mp h1)
        exact List.pairwise_cons.mpr ⟨hlt, hl⟩

theorem sorted_erase (h : Sorted l) : Sorted (erase k l) := List.Pairwise.filter _ h

theorem lookup_insert (h : Sorted l) : lookup j (insert k v l) = if j = k then some v else lookup j l := by
  induction l with
  | nil => simp [insert, lookup]
  | cons d l ih =>
    obtain ⟨i, w⟩ := d
    obtain ⟨hlt, hl⟩ := List.pairwise_cons.mp h
    simp only [insert]
    split
    · simp [lookup]
    · split
      · rename_i hik
        by_cases hj : j = i
        · subst hj
          simp [lookup, ne_of_lt hik]
        · simp [lookup, hj, ih hl]
      · rename_i h1 h2
        obtain rfl : k = i := le_antisymm (not_lt.mp h2) (not_lt.mp h1)
        by_cases hj : j = k <;> simp [lookup, hj]

theorem lookup_erase : lookup j (erase k l) = if j = k then none else lookup j l := by
  induction l with
  | nil => simp [erase, lookup]
  | cons d l ih =>
    obtain ⟨i, w⟩ := d
    by_cases hi : i = k
    · subst hi
      have : erase i ((i, w) :: l) = erase i l := by simp [erase]
      rw [this, ih]
      by_cases hj : j = i <;> simp [lookup, hj]
    · have : erase k ((i, w) :: l) = (i, w) :: erase k l := by simp [erase, hi]
      rw [this, lookup, lookup, ih]
      by_cases hj : j = i
      · subst hj; simp [hi]
      · simp [hj]

theorem sorted_filterMap {W : Type} (f : K → V → Option W) (h : Sorted l) :
    Sorted (l.filterMap fun e => (f e.1 e.2).map fun w => (e.1, w)) := by
  refine List.Pairwise.filterMap _ (fun a b hab c hc d hd => ?_) h
  obtain ⟨_, -, rfl⟩ := Option.map_eq_some_iff.mp hc
  obtain ⟨_, -, rfl⟩ := Option.map_eq_some_iff.mp hd
  exact hab

theorem lookup_filterMap {W : Type} (f : K → V → Option W) (h : Sorted l) :
    lookup k (l.filterMap fun e => (f e.1 e.2).map fun w => (e.1, w)) = (lookup k l).bind (f k) := by
  induction l with
  | nil => rfl
  | cons d l ih =>
    obtain ⟨i, w⟩ := d
    obtain ⟨hlt, hl⟩ := List.pairwise_cons.mp h
    rw [List.filterMap_cons]
    by_cases hi : k = i
    · subst hi
      cases hf : f k w with
      | none =>
        have hn : lookup k l = none := lookup_none_of_lt hlt
        simpa [lookup, hf, hn] using ih hl
      | some x => simp [lookup, hf]
    · cases hf : f i w with
      | none => simpa [lookup, hi, hf] using ih hl
      | some x => simpa [lookup, hi, hf] using ih hl

theorem nodup (h : Sorted l) : l.Nodup :=
  List.Pairwise.imp (fun hab => ne_of_apply_ne Prod.fst (ne_of_lt hab)) h

theorem ext {r : List (K × V)} (hl : Sorted l) (hr : Sorted r) (h : ∀ k, lookup k l = lookup k r) : l = r := by
  have hp : l.Perm r := (List.perm_ext_iff_of_nodup (nodup hl) (nodup hr)).mpr fun ⟨k, v⟩ => by
    rw [mem_iff_lookup hl, mem_iff_lookup hr, h k]
  exact hp.eq_of_pairwise (fun a b _ _ hab hba => absurd (lt_trans hab hba) (lt_irrefl _)) hl hr

theorem insert_last (h : ∀ e ∈ l, e.1 < k) : insert k v l = l ++ [(k, v)] := by
  induction l with
  | nil => rfl
  | cons e l ih =>
    obtain ⟨j, w⟩ := e
    have hj : j < k := h (j, w) List.mem_cons_self
    rw [insert, if_neg (lt_asymm hj), if_pos hj, ih fun e he => h e (List.mem_cons_of_mem _ he)]
    rfl

theorem erase_head (h : Sorted ((k, v) :: l)) : erase k ((k, v) :: l) = l := by
  have hlt := (List.pairwise_cons.mp h).1
  have hrest : erase k l = l := List.filter_eq_self.mpr fun e he => by simpa using ne_of_gt (hlt e he)
  rw [← hrest]
  simp [erase]

/-- The members of all groups, with their keys. -/
def flat (l : List (K × List V)) : List (K × V) := l.flatMap fun e => e.2.map (Prod.mk e.1)

theorem flat_insert {l : List (K × List V)} (h : Sorted l) (r : List V) :
    (flat (insert k ((lookup k l).getD [] ++ r) l)).Perm (flat l ++ r.map (Prod.mk k)) := by
  induction l with
  | nil => simp [insert, lookup, flat]
  | cons d l ih =>
    obtain ⟨i, w⟩ := d
    obtain ⟨hlt, hl⟩ := List.pairwise_cons.mp h
    simp only [insert]
    split
    · rename_i hk
      have hn : lookup k ((i, w) :: l) = none := lookup_none_of_lt fun e he => by
        rcases List.mem_cons.mp he with rfl | he
        · exact hk
        · exact lt_trans hk (hlt e he)
      rw [hn]
      exact List.perm_append_comm
    · split
      · rename_i hik
        rw [lookup, if_neg (ne_of_gt hik)]
        simp only [flat, List.flatMap_cons, List.append_assoc]
        exact (ih hl).append_left _
      · rename_i h1 h2
        obtain rfl : k = i := le_antisymm (not_lt.mp h2) (not_lt.mp h1)
        simp only [lookup, if_true, Option.getD_some, flat, List.flatMap_cons, List.map_append, List.append_assoc]
        exact List.perm_append_comm.append_left _

theorem sum_insert (f : K → V → Nat) (h : Sorted l) :
    sum f (insert k v l) + ((lookup k l).map (f k)).getD 0 = sum f l + f k v := by
  induction l with
  | nil => simp [insert, sum, lookup]
  | cons d l ih =>
    obtain ⟨i, w⟩ := d
    obtain ⟨hlt, hl⟩ := List.pairwise_cons.mp h
    simp only [insert]
    split
    · rename_i hk
      have hn : lookup k ((i, w) :: l) = none := lookup_none_of_lt fun e he => by
        rcases List.mem_cons.mp he with rfl | he
        · exact hk
        · exact lt_trans hk (hlt e he)
      rw [hn]
      simp only [sum, List.map_cons, List.sum_cons, Option.map_none, Option.getD_none]
      omega
    · split
      · rename_i hik
        have := ih hl
        rw [lookup, if_neg (ne_of_gt hik)]
        simp only [sum, List.map_cons, List.sum_cons] at this ⊢
        omega
      · rename_i h1 h2
        obtain rfl : k = i := le_antisymm (not_lt.mp h2) (not_lt.mp h1)
        simp only [sum, lookup, if_true, List.map_cons, List.sum_cons, Option.map_some, Option.getD_some]
        omega

theorem sum_erase (f : K → V → Nat) (h : Sorted l) :
    sum f (erase k l) + ((lookup k l).map (f k)).getD 0 = sum f l := by
  induction l with
  | nil => simp [erase, sum, lookup]
  | cons d l ih =>
    obtain ⟨i, w⟩ := d
    obtain ⟨hlt, hl⟩ := List.pairwise_cons.mp h
    by_cases hi : i = k
    · subst hi
      have hn : erase i l = l := List.filter_eq_self.mpr fun e he => by
        simpa using ne_of_gt (hlt e he)
      have he : erase i ((i, w) :: l) = l := by
        rw [← hn]; simp [erase]
      rw [he]
      simp only [sum, lookup, if_true, List.map_cons, List.sum_cons, Option.map_some, Option.getD_some]
      omega
    · have he : erase k ((i, w) :: l) = (i, w) :: erase k l := by simp [erase, hi]
      have := ih hl
      rw [he, lookup, if_neg (Ne.symm hi)]
      simp only [sum, List.map_cons, List.sum_cons] at this ⊢
      omega

end Assoc

/-! ## Ordered maps -/

structure OrdMap (K V : Type) [LinearOrder K] where
  entries : List (K × V)
  sorted : Assoc.Sorted entries

namespace OrdMap

variable [LinearOrder K] {m n : OrdMap K V} {k j : K} {v w : V}

def empty : OrdMap K V := ⟨[], List.Pairwise.nil⟩

def get? (m : OrdMap K V) (k : K) : Option V := Assoc.lookup k m.entries

/-- The value of a key, `d` if there is none. -/
def getD (m : OrdMap K V) (k : K) (d : V) : V := (m.get? k).getD d

def contains (m : OrdMap K V) (k : K) : Bool := (m.get? k).isSome

def insert (m : OrdMap K V) (k : K) (v : V) : OrdMap K V := ⟨Assoc.insert k v m.entries, Assoc.sorted_insert m.sorted⟩

def erase (m : OrdMap K V) (k : K) : OrdMap K V := ⟨Assoc.erase k m.entries, Assoc.sorted_erase m.sorted⟩

/-- `retain` with an update: an entry is changed to what `f` returns, or dropped. -/
def filterMap {W : Type} (f : K → V → Option W) (m : OrdMap K V) : OrdMap K W :=
  ⟨m.entries.filterMap fun e => (f e.1 e.2).map fun w => (e.1, w), Assoc.sorted_filterMap f m.sorted⟩

/-- The entry with the least key. -/
def first? (m : OrdMap K V) : Option (K × V) := m.entries.head?

def isEmpty (m : OrdMap K V) : Bool := m.entries.isEmpty

/-- The sum of `f` over the entries. -/
def sum (f : K → V → Nat) (m : OrdMap K V) : Nat := Assoc.sum f m.entries

theorem ext (h : ∀ k, m.get? k = n.get? k) : m = n := by
  obtain ⟨l, hl⟩ := m
  obtain ⟨r, hr⟩ := n
  obtain rfl : l = r := Assoc.ext hl hr h
  rfl

theorem mem_entries : (k, v) ∈ m.entries ↔ m.get? k = some v := Assoc.mem_iff_lookup m.sorted

@[simp] theorem get?_empty : (empty : OrdMap K V).get? k = none := rfl

theorem get?_insert : (m.insert k v).get? j = if j = k then some v else m.get? j := Assoc.lookup_insert m.sorted

@[simp] theorem get?_insert_self : (m.insert k v).get? k = some v := by simp [get?_insert]

theorem get?_insert_ne (h : j ≠ k) : (m.insert k v).get? j = m.get? j := by simp [get?_insert, h]

theorem get?_erase : (m.erase k).get? j = if j = k then none else m.get? j := Assoc.lookup_erase

@[simp] theorem get?_erase_self : (m.erase k).get? k = none := by simp [get?_erase]

theorem get?_erase_ne (h : j ≠ k) : (m.erase k).get? j = m.get? j := by simp [get?_erase, h]

theorem getD_insert (d : V) : (m.insert k v).getD j d = if j = k then v else m.getD j d := by
  unfold getD
  rw [get?_insert]
  split <;> rfl

theorem getD_erase (d : V) : (m.erase k).getD j d = if j = k then d else m.getD j d := by
  unfold getD
  rw [get?_erase]
  split <;> rfl

theorem get?_filterMap {W : Type} (f : K → V → Option W) : (m.filterMap f).get? k = (m.get? k).bind (f k) :=
  Assoc.lookup_filterMap f m.sorted

theorem contains_eq_true : m.contains k = true ↔ ∃ v, m.get? k = some v := by
  simp [contains, Option.isSome_iff_exists]

theorem contains_eq_false : m.contains k = false ↔ m.get? k = none := by simp [contains]

theorem contains_insert : (m.insert k v).contains j = (decide (j = k) || m.contains j) := by
  unfold contains
  rw [get?_insert]
  by_cases h : j = k <;> simp [h]

theorem contains_erase : (m.erase k).contains j = (!decide (j = k) && m.contains j) := by
  unfold contains
  rw [get?_erase]
  by_cases h : j = k <;> simp [h]

theorem isEmpty_iff : m.isEmpty = true ↔ ∀ k, m.get? k = none := by
  constructor
  · intro h k
    have h := List.isEmpty_iff.mp h
    simp [get?, h, Assoc.lookup]
  · intro h
    refine List.isEmpty_iff.mpr (List.eq_nil_iff_forall_not_mem.mpr fun ⟨k, v⟩ he => ?_)
    rw [mem_entries, h k] at he
    cases he

theorem first?_get? (h : m.first? = some (k, v)) : m.get? k = some v := by
  obtain ⟨l, hl⟩ := List.head?_eq_some_iff.mp h
  exact mem_entries.mp (by simp [hl])

/-- The first entry's key is the least. -/
theorem first?_le (h : m.first? = some (k, v)) (hj : m.get? j = some w) : k ≤ j := by
  obtain ⟨l, hl⟩ := List.head?_eq_some_iff.mp h
  have hm := mem_entries.mpr hj
  rw [hl] at hm
  rcases List.mem_cons.mp hm with he | hm
  · cases he; exact le_refl _
  · have hs := m.sorted
    rw [hl] at hs
    exact le_of_lt ((List.pairwise_cons.mp hs).1 _ hm)

theorem first?_none (h : m.first? = none) : m.get? k = none := by
  simp [get?, List.head?_eq_none_iff.mp h, Assoc.lookup]

@[simp] theorem sum_empty (f : K → V → Nat) : sum f (empty : OrdMap K V) = 0 := rfl

theorem sum_insert (f : K → V → Nat) :
    sum f (m.insert k v) + ((m.get? k).map (f k)).getD 0 = sum f m + f k v := Assoc.sum_insert f m.sorted

theorem sum_insert_new (f : K → V → Nat) (h : m.get? k = none) : sum f (m.insert k v) = sum f m + f k v := by
  simpa [h] using m.sum_insert f (k := k) (v := v)

theorem sum_insert_some (f : K → V → Nat) (h : m.get? k = some w) :
    sum f (m.insert k v) + f k w = sum f m + f k v := by
  simpa [h] using m.sum_insert f (k := k) (v := v)

theorem sum_erase (f : K → V → Nat) : sum f (m.erase k) + ((m.get? k).map (f k)).getD 0 = sum f m :=
  Assoc.sum_erase f m.sorted

theorem sum_erase_some (f : K → V → Nat) (h : m.get? k = some w) : sum f (m.erase k) + f k w = sum f m := by
  simpa [h] using m.sum_erase f (k := k)

theorem le_sum (f : K → V → Nat) (h : m.get? k = some v) : f k v ≤ sum f m := by
  have := m.sum_erase_some f h
  omega

theorem sum_eq_zero (f : K → V → Nat) (h : ∀ k v, m.get? k = some v → f k v = 0) : sum f m = 0 := by
  refine List.sum_eq_zero fun n hn => ?_
  obtain ⟨⟨k, v⟩, he, rfl⟩ := List.mem_map.mp hn
  exact h k v (mem_entries.mp he)

theorem sum_congr {f g : K → V → Nat} (h : ∀ k v, m.get? k = some v → f k v = g k v) : sum f m = sum g m :=
  congrArg List.sum (List.map_congr_left fun e he => h e.1 e.2 (mem_entries.mp he))

theorem sum_add (f g : K → V → Nat) : sum (fun k v => f k v + g k v) m = sum f m + sum g m := List.sum_map_add

/-- Only the entry of `j` counts. -/
theorem sum_eq_single (f : K → V → Nat) (j : K) (h : ∀ k v, m.get? k = some v → k ≠ j → f k v = 0) :
    sum f m = (m.get? j).elim 0 (f j) := by
  have hz : sum f (m.erase j) = 0 := sum_eq_zero f fun k v hk => by
    rw [get?_erase] at hk
    split at hk
    · cases hk
    · rename_i hne
      exact h k v hk hne
  have he := m.sum_erase f (k := j)
  rw [hz, Nat.zero_add] at he
  rw [← he]
  cases m.get? j <;> rfl

/-! ## Groups -/

/-- `entry(k).or_default().extend(l)`. -/
def extend (m : OrdMap K (List V)) (k : K) (l : List V) : OrdMap K (List V) := m.insert k (m.getD k [] ++ l)

/-- The members of all groups, with their keys. -/
def flat (m : OrdMap K (List V)) : List (K × V) := Assoc.flat m.entries

@[simp] theorem flat_empty : (empty : OrdMap K (List V)).flat = [] := rfl

theorem flat_extend (m : OrdMap K (List V)) (k : K) (l : List V) :
    (m.extend k l).flat.Perm (m.flat ++ l.map (Prod.mk k)) := Assoc.flat_insert m.sorted l

theorem erase_first {l : List (K × V)} (h : m.entries = (k, v) :: l) : (m.erase k).entries = l := by
  have hs := m.sorted
  rw [h] at hs
  show Assoc.erase k m.entries = l
  rw [h, Assoc.erase_head hs]

/-- An entry past all others comes last. -/
theorem entries_insert_last (h : ∀ e ∈ m.entries, e.1 < k) : (m.insert k v).entries = m.entries ++ [(k, v)] :=
  Assoc.insert_last h

theorem flat_first {m : OrdMap K (List V)} {g : List V} {l : List (K × List V)} (h : m.entries = (k, g) :: l) :
    m.flat = g.map (Prod.mk k) ++ (m.erase k).flat := by
  unfold flat
  rw [erase_first h, h]
  rfl

/-! ## Domains -/

/-- The keys that have a value. -/
def dom (m : OrdMap K V) : Finset K := (m.entries.map Prod.fst).toFinset

theorem mem_dom : k ∈ m.dom ↔ m.contains k = true := by
  rw [contains_eq_true, dom, List.mem_toFinset, List.mem_map]
  constructor
  · rintro ⟨⟨j, v⟩, he, rfl⟩
    exact ⟨v, mem_entries.mp he⟩
  · rintro ⟨v, hv⟩
    exact ⟨(k, v), mem_entries.mpr hv, rfl⟩

@[simp] theorem dom_empty : (empty : OrdMap K V).dom = ∅ := rfl

@[simp] theorem dom_insert : (m.insert k v).dom = {k} ∪ m.dom := by
  refine Finset.ext fun j => ?_
  rw [mem_dom, Finset.mem_union, Finset.mem_singleton, mem_dom, contains, get?_insert]
  split <;> simp [*, contains]

theorem length_entries (m : OrdMap K V) : m.entries.length = m.dom.card := by
  have hnodup : (m.entries.map Prod.fst).Nodup := List.pairwise_map.mpr (m.sorted.imp fun hab => ne_of_lt hab)
  rw [dom, List.toFinset_card_of_nodup hnodup, List.length_map]

/-- A count of entries is at most the number of keys. -/
theorem sum_le_card (f : K → V → Nat) (h : ∀ k v, f k v ≤ 1) : sum f m ≤ m.dom.card := by
  rw [← length_entries]
  refine (List.sum_le_card_nsmul _ 1 fun n hn => ?_).trans (by rw [List.length_map, nsmul_one]; rfl)
  obtain ⟨e, -, rfl⟩ := List.mem_map.mp hn
  exact h e.1 e.2

/-- Entries inserted one after the other. -/
def insertAll (m : OrdMap K V) (l : List (K × V)) : OrdMap K V := l.foldl (fun m e => m.insert e.1 e.2) m

theorem dom_insertAll (l : List (K × V)) : (m.insertAll l).dom = m.dom ∪ (l.map Prod.fst).toFinset := by
  induction l generalizing m with
  | nil => simp [insertAll]
  | cons e l ih =>
    have hstep : m.insertAll (e :: l) = (m.insert e.1 e.2).insertAll l := rfl
    rw [hstep, ih, dom_insert, List.map_cons, List.toFinset_cons, Finset.insert_eq, Finset.union_left_comm,
      ← Finset.union_assoc]

theorem insertAll_append (l r : List (K × V)) : m.insertAll (l ++ r) = (m.insertAll l).insertAll r :=
  List.foldl_append

theorem get?_insertAll_of_not_mem {l : List (K × V)} (h : k ∉ l.map Prod.fst) :
    (m.insertAll l).get? k = m.get? k := by
  induction l generalizing m with
  | nil => rfl
  | cons e l ih =>
    rw [List.map_cons, List.mem_cons, not_or] at h
    have hstep : m.insertAll (e :: l) = (m.insert e.1 e.2).insertAll l := rfl
    rw [hstep, ih h.2, get?_insert_ne h.1]

theorem get?_insertAll_of_mem {l : List (K × V)} (hn : (l.map Prod.fst).Nodup) (h : (k, v) ∈ l) :
    (m.insertAll l).get? k = some v := by
  induction l generalizing m with
  | nil => cases h
  | cons e l ih =>
    rw [List.map_cons, List.nodup_cons] at hn
    have hstep : m.insertAll (e :: l) = (m.insert e.1 e.2).insertAll l := rfl
    rw [hstep]
    rcases List.mem_cons.mp h with rfl | h
    · rw [get?_insertAll_of_not_mem hn.1, get?_insert_self]
    · exact ih hn.2 h

end OrdMap

end AscendEmulator.Lib
