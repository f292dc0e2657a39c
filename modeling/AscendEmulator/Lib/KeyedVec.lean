/-
  AscendEmulator.Lib.KeyedVec — vectors searched by key, at most one entry a key.

  The order of the entries is the order they were pushed in, and stays so under an update and under a removal. The
  lookups after an update and after a removal are `get?_modify`, `get?_upsert`, `get?_mapValues` and `get?_erase`.
-/

import AscendEmulator.Lib.OrdMap

namespace AscendEmulator.Lib

variable {K V : Type}

structure KeyedVec (K V : Type) where
  entries : List (K × V)
  nodup : (entries.map Prod.fst).Nodup

namespace KeyedVec

def empty : KeyedVec K V := ⟨[], List.nodup_nil⟩

def length (m : KeyedVec K V) : Nat := m.entries.length

/-- Every value goes through `f`. -/
def mapValues (f : V → V) (m : KeyedVec K V) : KeyedVec K V :=
  ⟨m.entries.map fun e => (e.1, f e.2), by rw [List.map_map]; exact m.nodup⟩

variable [DecidableEq K]

def get? (m : KeyedVec K V) (k : K) : Option V := Assoc.lookup k m.entries

/-- The value of `k`, if there is one, goes through `f`. -/
def modify (m : KeyedVec K V) (k : K) (f : V → V) : KeyedVec K V :=
  ⟨m.entries.map fun e => if e.1 = k then (e.1, f e.2) else e, by
    have h : (Prod.fst ∘ fun e : K × V => if e.1 = k then (e.1, f e.2) else e) = Prod.fst := by
      funext e
      simp only [Function.comp_apply]
      split <;> rfl
    rw [List.map_map, h]
    exact m.nodup⟩

theorem lookup_eq_none_iff {k : K} {l : List (K × V)} : Assoc.lookup k l = none ↔ k ∉ l.map Prod.fst := by
  induction l with
  | nil => simp [Assoc.lookup]
  | cons e l ih =>
    by_cases h : k = e.1
    · simp [Assoc.lookup, h]
    · simp [Assoc.lookup, h, ih]

/-- The value of `k` goes through `f`; where `k` has none, `f d` is pushed. -/
def upsert (m : KeyedVec K V) (k : K) (d : V) (f : V → V) : KeyedVec K V :=
  if h : m.get? k = none then
    ⟨m.entries ++ [(k, f d)], by
      rw [List.map_append, List.map_singleton]
      exact List.nodup_append.mpr ⟨m.nodup, List.nodup_singleton _, fun a ha b hb hab => by
        rw [hab, List.mem_singleton.mp hb] at ha
        exact lookup_eq_none_iff.mp h ha⟩⟩
  else m.modify k f

def erase (m : KeyedVec K V) (k : K) : KeyedVec K V :=
  ⟨Assoc.erase k m.entries, List.Nodup.sublist (List.filter_sublist.map _) m.nodup⟩

variable {m : KeyedVec K V} {k j : K} {v d : V} {f : V → V}

/-! ## Lookups -/

theorem get?_modify : (m.modify k f).get? j = if j = k then (m.get? j).map f else m.get? j := by
  obtain ⟨l, hl⟩ := m
  show Assoc.lookup j (l.map _) = if j = k then (Assoc.lookup j l).map f else Assoc.lookup j l
  clear hl
  induction l with
  | nil => simp [Assoc.lookup]
  | cons e l ih =>
    obtain ⟨i, w⟩ := e
    rw [List.map_cons]
    by_cases hi : i = k
    · subst hi
      by_cases hj : j = i
      · simp [Assoc.lookup, hj]
      · simp [Assoc.lookup, hj, ih]
    · by_cases hj : j = i
      · subst hj; simp [Assoc.lookup, hi]
      · simp [Assoc.lookup, hi, hj, ih]

theorem lookup_append_single {l : List (K × V)} (h : Assoc.lookup k l = none) :
    Assoc.lookup j (l ++ [(k, v)]) = if j = k then some v else Assoc.lookup j l := by
  induction l with
  | nil => simp [Assoc.lookup]
  | cons e l ih =>
    obtain ⟨i, w⟩ := e
    rw [Assoc.lookup] at h
    split at h
    · cases h
    · rename_i hk
      by_cases hj : j = i
      · subst hj; simp [Assoc.lookup, Ne.symm hk]
      · simp [Assoc.lookup, hj, ih h]

theorem get?_upsert : (m.upsert k d f).get? j = if j = k then some (f ((m.get? k).getD d)) else m.get? j := by
  unfold upsert
  split
  · rename_i h
    rw [h]
    exact lookup_append_single h
  · rename_i h
    rw [get?_modify]
    split
    · rename_i hj
      obtain ⟨v, hv⟩ := Option.ne_none_iff_exists'.mp h
      simp [hj, hv]
    · rfl

theorem get?_erase : (m.erase k).get? j = if j = k then none else m.get? j := by
  obtain ⟨l, hl⟩ := m
  show Assoc.lookup j (Assoc.erase k l) = if j = k then none else Assoc.lookup j l
  clear hl
  induction l with
  | nil => simp [Assoc.erase, Assoc.lookup]
  | cons e l ih =>
    obtain ⟨i, w⟩ := e
    by_cases hi : i = k
    · subst hi
      have : Assoc.erase i ((i, w) :: l) = Assoc.erase i l := by simp [Assoc.erase]
      rw [this, ih]
      by_cases hj : j = i <;> simp [Assoc.lookup, hj]
    · have : Assoc.erase k ((i, w) :: l) = (i, w) :: Assoc.erase k l := by simp [Assoc.erase, hi]
      rw [this, Assoc.lookup, Assoc.lookup, ih]
      by_cases hj : j = i
      · subst hj; simp [hi]
      · simp [hj]

theorem get?_mapValues : (m.mapValues f).get? k = (m.get? k).map f := by
  obtain ⟨l, hl⟩ := m
  show Assoc.lookup k (l.map _) = (Assoc.lookup k l).map f
  clear hl
  induction l with
  | nil => rfl
  | cons e l ih => by_cases hk : k = e.1 <;> simp [Assoc.lookup, hk, ih]

end KeyedVec

end AscendEmulator.Lib
