/-
  AscendEmulator.Memory.MappedProofs — mapped memory refines one flat map (see
  `AscendEmulator.Memory.Mapped`).

  A write of the sparse memory checks its ranges, then commits its cells if the overlaid cells
  still fit the limit (`fits`); a batch commits the cells of all its segments at once, which is
  what its segments commit one by one (`writeSegments_cons`). Bindings do not overlap (`Bound`),
  so an address has at most one cell and a cell one address, and a commit writes the addresses
  of its cells in the flat map.
-/

import AscendEmulator.Memory.Mapped

namespace AscendEmulator.Memory

open Lib

/-! ## Sparse writes -/

namespace SparseMemory

variable {m m' : SparseMemory} {region offset len : Nat} {value : Nat → MemoryByteState}

/-- The counter counts the overlaid cells, within the limit, and each cell is in its region. -/
structure Valid (m : SparseMemory) : Prop where
  count : m.overlayBytes = m.overlays.dom.card
  limit : m.overlayBytes ≤ m.maxOverlayBytes
  bounded : m.overlayBytes < u64
  inRegion : ∀ c ∈ m.overlays.dom, ∃ r, m.regions[(ofLex c).1]? = some r ∧ (ofLex c).2 < r.allocationBytes

theorem valid_new (regions : List MemoryRegion) (limit transfer : Nat) : Valid (new regions limit transfer) :=
  ⟨rfl, Nat.zero_le _, Nat.two_pow_pos 64, fun c hc => by cases hc⟩

/-- A range lies in its region and is short enough to transfer. -/
def InRange (m : SparseMemory) (region offset len : Nat) : Prop :=
  ∃ r, m.regions[region]? = some r ∧ len ≤ m.maxTransferBytes ∧ offset + len < u64 ∧ offset + len ≤ r.allocationBytes

theorem checkRange_ok : m.checkRange region offset len = .ok () ↔ m.InRange region offset len := by
  unfold checkRange InRange
  cases hr : m.regions[region]? with
  | none => simp
  | some r =>
    simp only [Option.some.injEq, exists_eq_left']
    split
    · simp only [reduceCtorEq, false_iff]
      omega
    · split
      · rename_i hnone
        have := checkedAdd_eq_none.mp hnone
        simp only [reduceCtorEq, false_iff]
        omega
      · rename_i stop hstop
        obtain ⟨hlt, rfl⟩ := checkedAdd_eq_some.mp hstop
        split
        · simp only [reduceCtorEq, false_iff]
          omega
        · simp only [true_iff]
          omega

/-- The overlaid cells and those of `cells` together stay within the limit. -/
def fits (m : SparseMemory) (cells : List (Cell × MemoryByteState)) : Prop :=
  (m.overlays.insertAll cells).dom.card < u64 ∧ (m.overlays.insertAll cells).dom.card ≤ m.maxOverlayBytes

/-- The cells are written, and counted. -/
def commit (m : SparseMemory) (cells : List (Cell × MemoryByteState)) : SparseMemory :=
  { m with overlays := m.overlays.insertAll cells, overlayBytes := (m.overlays.insertAll cells).dom.card }

theorem commit_append {l r : List (Cell × MemoryByteState)} : (m.commit l).commit r = m.commit (l ++ r) := by
  simp only [commit, OrdMap.insertAll_append]

theorem nextCount_ok (hv : Valid m) {l : List (Cell × MemoryByteState)} {newly count : Nat}
    (hn : newly = ((l.map Prod.fst).toFinset \ m.overlays.dom).card) :
    m.nextCount newly = .ok count ↔ m.fits l ∧ count = (m.overlays.insertAll l).dom.card := by
  have hsum : m.overlayBytes + newly = (m.overlays.insertAll l).dom.card := by
    rw [hv.count, hn, OrdMap.dom_insertAll, ← Finset.union_sdiff_self_eq_union, Finset.card_union_of_disjoint]
    exact Finset.disjoint_sdiff
  unfold nextCount fits
  rw [← hsum]
  by_cases hlt : m.overlayBytes + newly < u64
  · have hadd : checkedAdd m.overlayBytes newly = some (m.overlayBytes + newly) := checkedAdd_eq_some.mpr ⟨hlt, rfl⟩
    rw [hadd]
    by_cases hle : m.overlayBytes + newly ≤ m.maxOverlayBytes
    · simp [Option.filter, hle, hlt, eq_comm]
    · simp [Option.filter, hle]
  · have hadd : checkedAdd m.overlayBytes newly = none := checkedAdd_eq_none.mpr (by omega)
    simp [hadd, hlt]

theorem cells_keys_nodup : ((cells region offset len value).map Prod.fst).Nodup := by
  unfold cells
  rw [List.map_map]
  refine List.Nodup.map_on (fun i _ j _ h => ?_) List.nodup_range
  have h : toLex (region, offset + i) = toLex (region, offset + j) := h
  simpa using h

/-- A write succeeds when its range and the limit allow it, and then commits its cells. -/
theorem writeWith_ok (hv : Valid m) : writeWith region offset len value m = (.ok (), m') ↔
    m.InRange region offset len ∧ m.fits (cells region offset len value) ∧
      m' = m.commit (cells region offset len value) := by
  have hnewly : ((List.range len).filter fun index => !m.overlays.contains (cell region (offset + index))).length =
      (((cells region offset len value).map Prod.fst).toFinset \ m.overlays.dom).card := by
    have hkeys : (((cells region offset len value).map Prod.fst).toFinset \ m.overlays.dom) =
        (((cells region offset len value).map Prod.fst).filter fun c => !m.overlays.contains c).toFinset := by
      refine Finset.ext fun c => ?_
      rw [Finset.mem_sdiff, List.mem_toFinset, List.mem_toFinset, List.mem_filter, OrdMap.mem_dom]
      simp
    rw [hkeys, List.toFinset_card_of_nodup (cells_keys_nodup.filter _), cells, List.map_map, List.filter_map,
      List.length_map]
    rfl
  unfold writeWith
  cases hc : m.checkRange region offset len with
  | error e =>
    have hno : ¬ m.InRange region offset len := fun h => by simp [checkRange_ok.mpr h] at hc
    simp [hno]
  | ok u =>
    obtain ⟨⟩ := u
    have hin := checkRange_ok.mp hc
    dsimp only
    cases hn : m.nextCount _ with
    | error e =>
      have hno : ¬ m.fits (cells region offset len value) := fun h => by
        simp [(nextCount_ok hv hnewly).mpr ⟨h, rfl⟩] at hn
      simp [hno]
    | ok count =>
      obtain ⟨hfits, rfl⟩ := (nextCount_ok hv hnewly).mp hn
      simp [hin, hfits, commit, eq_comm]

theorem writeWith_error {e : SparseMemoryError} (h : writeWith region offset len value m = (.error e, m')) :
    m' = m := by
  unfold writeWith at h
  split at h
  · exact (Prod.mk.inj h).2.symm
  · dsimp only at h
    split at h
    · exact (Prod.mk.inj h).2.symm
    · cases h

theorem Valid.commit (hv : Valid m) {l : List (Cell × MemoryByteState)} (hf : m.fits l)
    (hl : ∀ c ∈ l.map Prod.fst, ∃ r, m.regions[(ofLex c).1]? = some r ∧ (ofLex c).2 < r.allocationBytes) :
    Valid (m.commit l) := by
  refine ⟨rfl, hf.2, hf.1, fun c hc => ?_⟩
  simp only [SparseMemory.commit, OrdMap.dom_insertAll, Finset.mem_union, List.mem_toFinset] at hc
  rcases hc with hc | hc
  · exact hv.inRegion c hc
  · exact hl c hc

theorem cells_inRegion (h : m.InRange region offset len) :
    ∀ c ∈ (cells region offset len value).map Prod.fst,
      ∃ r, m.regions[(ofLex c).1]? = some r ∧ (ofLex c).2 < r.allocationBytes := by
  intro c hc
  obtain ⟨r, hr, -, -, hend⟩ := h
  obtain ⟨⟨_, w⟩, hx, rfl⟩ := List.mem_map.mp hc
  obtain ⟨i, hi, hw⟩ := List.mem_map.mp hx
  obtain ⟨rfl, -⟩ := Prod.mk.inj hw
  rw [List.mem_range] at hi
  exact ⟨r, hr, by show offset + i < _; omega⟩

/-! ## Batches -/

abbrev Segment.InRange (m : SparseMemory) (g : Segment) : Prop := SparseMemory.InRange m g.1 g.2.1 g.2.2.length

theorem newlyOverlaid_ok {segments : List Segment} {acc newly : Finset Cell} :
    m.newlyOverlaid segments acc = .ok newly ↔ (∀ g ∈ segments, g.InRange m) ∧
      newly = acc ∪ (((segments.flatMap Segment.cells).map Prod.fst).toFinset \ m.overlays.dom) := by
  induction segments generalizing acc with
  | nil => simp [newlyOverlaid, eq_comm]
  | cons g rest ih =>
    rw [newlyOverlaid]
    cases hc : m.checkRange g.1 g.2.1 g.2.2.length with
    | error e =>
      have hno : ¬ g.InRange m := fun h => by simp [checkRange_ok.mpr h] at hc
      simp [hno]
    | ok u =>
      obtain ⟨⟩ := u
      have hin : g.InRange m := checkRange_ok.mp hc
      have hkeys : ((g.cells.map Prod.fst).filter fun c => !m.overlays.contains c).toFinset =
          (g.cells.map Prod.fst).toFinset \ m.overlays.dom := by
        refine Finset.ext fun c => ?_
        rw [Finset.mem_sdiff, List.mem_toFinset, List.mem_toFinset, List.mem_filter, OrdMap.mem_dom]
        simp
      dsimp only
      rw [ih, hkeys, List.flatMap_cons, List.map_append, List.toFinset_append, Finset.union_sdiff_distrib,
        Finset.union_assoc]
      simp [hin]

theorem writeSegments_ok (hv : Valid m) {segments : List Segment} : writeSegments segments m = (.ok (), m') ↔
    (∀ g ∈ segments, g.InRange m) ∧ m.fits (segments.flatMap Segment.cells) ∧
      m' = m.commit (segments.flatMap Segment.cells) := by
  unfold writeSegments
  cases hn : m.newlyOverlaid segments ∅ with
  | error e =>
    have hno : ¬ ∀ g ∈ segments, g.InRange m := fun h => by simp [newlyOverlaid_ok.mpr ⟨h, rfl⟩] at hn
    simp only [Prod.mk.injEq, reduceCtorEq, false_and, false_iff]
    exact fun h => hno h.1
  | ok newly =>
    obtain ⟨hin, hnewly⟩ := newlyOverlaid_ok.mp hn
    rw [Finset.empty_union] at hnewly
    have hcount := congrArg Finset.card hnewly
    dsimp only
    cases hc : m.nextCount newly.card with
    | error e =>
      have hno : ¬ m.fits (segments.flatMap Segment.cells) := fun h => by
        simp [(nextCount_ok hv hcount).mpr ⟨h, rfl⟩] at hc
      simp only [Prod.mk.injEq, reduceCtorEq, false_and, false_iff]
      exact fun h => hno h.2.1
    | ok count =>
      obtain ⟨hfits, rfl⟩ := (nextCount_ok hv hcount).mp hc
      simp only [Prod.mk.injEq, true_and]
      exact ⟨fun h => ⟨hin, hfits, h.symm⟩, fun h => h.2.2.symm⟩

theorem writeSegments_error {segments : List Segment} {e : SparseMemoryError}
    (h : writeSegments segments m = (.error e, m')) : m' = m := by
  unfold writeSegments at h
  split at h
  · exact (Prod.mk.inj h).2.symm
  · split at h
    · exact (Prod.mk.inj h).2.symm
    · cases h

/-- A batch is its first segment written by itself, then the rest. -/
theorem writeSegments_cons (hv : Valid m) {g : Segment} {rest : List Segment} :
    writeSegments (g :: rest) m = (.ok (), m') ↔
      ∃ m₁, writeStates g.1 g.2.1 g.2.2 m = (.ok (), m₁) ∧ Valid m₁ ∧ writeSegments rest m₁ = (.ok (), m') := by
  have hfirst : ∀ {m₁}, writeStates g.1 g.2.1 g.2.2 m = (.ok (), m₁) ↔
      g.InRange m ∧ m.fits g.cells ∧ m₁ = m.commit g.cells := writeWith_ok hv
  have happend : ∀ l, (m.commit g.cells).overlays.insertAll l = m.overlays.insertAll (g.cells ++ l) := fun l =>
    OrdMap.insertAll_append _ _ |>.symm
  constructor
  · intro h
    obtain ⟨hin, hfits, rfl⟩ := (writeSegments_ok hv).mp h
    obtain ⟨hg, hrest⟩ := List.forall_mem_cons.mp hin
    rw [List.flatMap_cons] at hfits
    have hle : (m.overlays.insertAll g.cells).dom.card ≤ (m.overlays.insertAll (g.cells ++ rest.flatMap Segment.cells)).dom.card := by
      refine Finset.card_le_card ?_
      rw [OrdMap.insertAll_append, OrdMap.dom_insertAll (rest.flatMap Segment.cells)]
      exact Finset.subset_union_left
    have hfits₁ : m.fits g.cells := ⟨by have := hfits.1; omega, by have := hfits.2; omega⟩
    have hv₁ : Valid (m.commit g.cells) := hv.commit hfits₁ (cells_inRegion hg)
    refine ⟨_, hfirst.mpr ⟨hg, hfits₁, rfl⟩, hv₁, (writeSegments_ok hv₁).mpr ⟨hrest, ?_, ?_⟩⟩
    · unfold fits
      rw [happend]
      exact hfits
    · rw [List.flatMap_cons, commit_append]
  · rintro ⟨m₁, h₁, hv₁, h₂⟩
    obtain ⟨hg, hfits₁, rfl⟩ := hfirst.mp h₁
    obtain ⟨hrest, hfits₂, rfl⟩ := (writeSegments_ok hv₁).mp h₂
    refine (writeSegments_ok hv).mpr ⟨List.forall_mem_cons.mpr ⟨hg, hrest⟩, ?_, ?_⟩
    · unfold fits at hfits₂ ⊢
      rw [happend] at hfits₂
      rw [List.flatMap_cons]
      exact hfits₂
    · rw [List.flatMap_cons, commit_append]

/-! ## Sparse calls -/

theorem Valid.writeWith_ok (hv : Valid m) (h : writeWith region offset len value m = (.ok (), m')) : Valid m' := by
  obtain ⟨hin, hfits, rfl⟩ := (SparseMemory.writeWith_ok hv).mp h
  exact hv.commit hfits (cells_inRegion hin)

theorem Valid.writeSegments_ok (hv : Valid m) {segments : List Segment}
    (h : writeSegments segments m = (.ok (), m')) : Valid m' := by
  induction segments generalizing m with
  | nil =>
    obtain ⟨-, hfits, rfl⟩ := (SparseMemory.writeSegments_ok hv).mp h
    exact hv.commit hfits fun c hc => by cases hc
  | cons g rest ih =>
    obtain ⟨m₁, -, hv₁, hrest⟩ := (writeSegments_cons hv).mp h
    exact ih hv₁ hrest

theorem exec_error {c : SparseCall} {e : SparseMemoryError} (h : exec c m = (.error e, m')) : m' = m := by
  cases c with
  | writeSegments segments => exact writeSegments_error h
  | _ => exact writeWith_error h

theorem Valid.exec (hv : Valid m) {c : SparseCall} {r : Except SparseMemoryError Unit}
    (h : SparseMemory.exec c m = (r, m')) : Valid m' := by
  cases r with
  | error e => rwa [exec_error h]
  | ok u =>
    cases c with
    | writeSegments segments => exact hv.writeSegments_ok h
    | _ => exact hv.writeWith_ok h

theorem Valid.run {regions : List MemoryRegion} {limit transfer : Nat}
    {t : List (SparseCall × Except SparseMemoryError Unit)}
    (h : Run (calls SparseMemory.exec) (new regions limit transfer) t m) : Valid m :=
  h.keeps (valid_new regions limit transfer) fun _ _ _ hv hstep => hv.exec hstep

end SparseMemory

/-! ## Bindings -/

/-- One mapping ends before the other starts. -/
def MemoryMapping.Before (a b : MemoryMapping) : Prop := a.base + a.allocationBytes ≤ b.base

theorem MemoryMapping.Before.trans {a b c : MemoryMapping} (h : a.Before b) (h' : b.Before c) : a.Before c := by
  unfold Before at *
  omega

instance : IsTrans MemoryMapping MemoryMapping.Before := ⟨fun _ _ _ => MemoryMapping.Before.trans⟩

namespace MappedMemory

variable {m m₀ m' : MappedMemory} {address len region offset a a' : Nat} {c : Cell}

/-- Bindings do not overlap, and each region has exactly one, of its size. -/
structure Bound (m : MappedMemory) : Prop where
  disjoint : m.bindings.Pairwise MemoryMapping.Before
  sized : ∀ b ∈ m.bindings, b.base + b.allocationBytes < u64 ∧
    ∃ r, m.memory.regions[b.regionIndex]? = some r ∧ b.allocationBytes = r.allocationBytes
  distinct : (m.bindings.map MemoryMapping.regionIndex).Nodup
  complete : ∀ i < m.memory.regions.length, i ∈ m.bindings.map MemoryMapping.regionIndex

theorem mappings_ok {k : Nat} {regions : List MemoryRegion} {bases : List Nat} {l : List MemoryMapping}
    (hlen : bases.length = regions.length) (h : mappings k regions bases = .ok l) :
    l.map MemoryMapping.regionIndex = List.range' k regions.length ∧
      ∀ b ∈ l, b.base + b.allocationBytes < u64 ∧
        ∃ r, regions[b.regionIndex - k]? = some r ∧ b.allocationBytes = r.allocationBytes := by
  induction regions generalizing k bases l with
  | nil =>
    cases h
    exact ⟨rfl, fun b hb => by cases hb⟩
  | cons r regions ih =>
    obtain ⟨base, bases, rfl⟩ : ∃ b bs, bases = b :: bs := List.exists_cons_of_length_eq_add_one hlen
    rw [mappings] at h
    split at h
    · cases h
    · split at h
      · cases h
      · split at h
        · cases h
        · rename_i hadd
          have hlt : base + r.allocationBytes < u64 := by
            rw [checkedAdd_eq_none] at hadd
            omega
          cases hrest : mappings (k + 1) regions bases with
          | error e => rw [hrest] at h; cases h
          | ok rest =>
            rw [hrest] at h
            cases h
            obtain ⟨hidx, hall⟩ := ih (by simpa using hlen) hrest
            refine ⟨by simp [hidx, List.range'_succ], List.forall_mem_cons.mpr ⟨⟨hlt, r, by simp, rfl⟩, fun b hb => ?_⟩⟩
            obtain ⟨hb₁, r', hr', hb₂⟩ := hall b hb
            have hk : b.regionIndex ∈ List.range' (k + 1) regions.length := hidx ▸ List.mem_map_of_mem hb
            have hsub : b.regionIndex - k = b.regionIndex - (k + 1) + 1 := by
              have := (List.mem_range'_1.mp hk).1
              omega
            exact ⟨hb₁, r', by rw [hsub, List.getElem?_cons_succ]; exact hr', hb₂⟩

theorem overlapping_none {l : List MemoryMapping} (h : overlapping l = none) : l.Pairwise MemoryMapping.Before := by
  apply List.isChain_iff_pairwise.mp
  induction l with
  | nil => exact List.isChain_nil
  | cons first rest ih =>
    cases rest with
    | nil => exact List.isChain_singleton _
    | cons second rest =>
      rw [overlapping] at h
      split at h
      · cases h
      · rename_i hle
        exact List.isChain_cons_cons.mpr ⟨not_lt.mp hle, ih h⟩

theorem bind_ok {memory : SparseMemory} {bases : List Nat} (h : bind memory bases = .ok m) :
    m.memory = memory ∧ Bound m := by
  unfold bind at h
  split at h
  · cases h
  · rename_i hlen
    split at h
    · cases h
    · rename_i l hl
      obtain ⟨hidx, hall⟩ := mappings_ok (not_not.mp hlen) hl
      dsimp only at h
      split at h
      · cases h
      · rename_i hnone
        cases h
        have hperm := l.mergeSort_perm fun a b => decide (a.base ≤ b.base)
        have hmap := hperm.map MemoryMapping.regionIndex
        rw [hidx] at hmap
        refine ⟨rfl, overlapping_none hnone, fun b hb => hall b (hperm.mem_iff.mp hb), ?_, fun i hi => ?_⟩
        · exact hmap.nodup_iff.mpr List.nodup_range'
        · exact hmap.mem_iff.mpr (List.mem_range'_1.mpr ⟨Nat.zero_le i, by simpa using hi⟩)

theorem Bound.transport (hb : Bound m₀) (hbind : m.bindings = m₀.bindings)
    (hreg : m.memory.regions = m₀.memory.regions) : Bound m := by
  obtain ⟨h₁, h₂, h₃, h₄⟩ := hb
  exact ⟨hbind ▸ h₁, by rw [hbind, hreg]; exact h₂, hbind ▸ h₃, by rw [hbind, hreg]; exact h₄⟩

/-! ## Addresses and cells -/

@[simp] theorem holds_iff {stop : Nat} {b : MemoryMapping} :
    holds a stop b = true ↔ b.base ≤ a ∧ stop ≤ b.base + b.allocationBytes := by
  simp [holds]

/-- Two bindings that hold the same address are one. -/
theorem Bound.unique (hb : Bound m) {b d : MemoryMapping} (hbm : b ∈ m.bindings) (hdm : d ∈ m.bindings)
    (h₁ : holds a (a + 1) b = true) (h₂ : holds a (a + 1) d = true) : b = d := by
  rw [holds_iff] at h₁ h₂
  by_contra hne
  have hd : m.bindings.Pairwise fun x y => x.Before y ∨ y.Before x := hb.disjoint.imp .inl
  have : Std.Symm fun x y : MemoryMapping => x.Before y ∨ y.Before x := ⟨fun _ _ => Or.symm⟩
  rcases hd.forall hbm hdm hne with h | h <;> unfold MemoryMapping.Before at h <;> omega

theorem Bound.same_region (hb : Bound m) {b d : MemoryMapping} (hbm : b ∈ m.bindings) (hdm : d ∈ m.bindings)
    (h : b.regionIndex = d.regionIndex) : b = d :=
  List.inj_on_of_nodup_map hb.distinct hbm hdm h

theorem Bound.find? (hb : Bound m) {b : MemoryMapping} (hbm : b ∈ m.bindings) (h : holds a (a + 1) b = true) :
    m.bindings.find? (holds a (a + 1)) = some b := by
  cases hf : m.bindings.find? (holds a (a + 1)) with
  | none => exact absurd h (List.find?_eq_none.mp hf b hbm)
  | some d => rw [hb.unique hbm (List.mem_of_find?_eq_some hf) h (List.find?_some hf)]

theorem locate_eq_some (hb : Bound m) : m.locate a = some c ↔
    ∃ b ∈ m.bindings, holds a (a + 1) b = true ∧ c = cell b.regionIndex (a - b.base) := by
  unfold locate
  constructor
  · intro h
    obtain ⟨b, hf, rfl⟩ := Option.map_eq_some_iff.mp h
    exact ⟨b, List.mem_of_find?_eq_some hf, List.find?_some hf, rfl⟩
  · rintro ⟨b, hbm, hh, rfl⟩
    rw [hb.find? hbm hh]
    rfl

/-- A cell belongs to one address. -/
theorem locate_inj (hb : Bound m) (h : m.locate a = some c) (h' : m.locate a' = some c) : a = a' := by
  obtain ⟨b, hbm, hh, rfl⟩ := (locate_eq_some hb).mp h
  obtain ⟨d, hdm, hh', hc⟩ := (locate_eq_some hb).mp h'
  have hc : b.regionIndex = d.regionIndex ∧ a - b.base = a' - d.base := by simpa [cell] using hc
  obtain rfl := hb.same_region hbm hdm hc.1
  rw [holds_iff] at hh hh'
  omega

/-- The addresses of a range that resolves have the cells of its region from its offset on. -/
theorem resolve_ok (h : m.resolve address len = .ok (region, offset)) :
    ∃ b ∈ m.bindings, region = b.regionIndex ∧ address = b.base + offset ∧ offset + len ≤ b.allocationBytes := by
  unfold resolve at h
  split at h
  · cases h
  · split at h
    · cases h
    · rename_i stop hstop
      obtain ⟨-, rfl⟩ := checkedAdd_eq_some.mp hstop
      split at h
      · cases h
      · rename_i b hf
        cases h
        have hh := holds_iff.mp (List.find?_some hf)
        exact ⟨b, List.mem_of_find?_eq_some hf, rfl, by omega, by omega⟩

theorem locate_range (hb : Bound m) (h : m.resolve address len = .ok (region, offset)) {i : Nat} (hi : i < len) :
    m.locate (address + i) = some (cell region (offset + i)) := by
  obtain ⟨b, hbm, rfl, rfl, hend⟩ := resolve_ok h
  refine (locate_eq_some hb).mpr ⟨b, hbm, holds_iff.mpr ⟨by omega, by omega⟩, ?_⟩
  rw [show b.base + offset + i - b.base = offset + i by omega]

/-- Every cell of a region has an address. -/
theorem exists_locate (hb : Bound m) {r : MemoryRegion} (hr : m.memory.regions[(ofLex c).1]? = some r)
    (hc : (ofLex c).2 < r.allocationBytes) : ∃ a, m.locate a = some c := by
  obtain ⟨hlt, -⟩ := List.getElem?_eq_some_iff.mp hr
  obtain ⟨b, hbm, hbi⟩ := List.mem_map.mp (hb.complete _ hlt)
  obtain ⟨-, r', hr', hsize⟩ := hb.sized b hbm
  obtain rfl : r = r' := by
    rw [hbi, hr] at hr'
    exact Option.some.inj hr'
  refine ⟨b.base + (ofLex c).2, (locate_eq_some hb).mpr ⟨b, hbm, holds_iff.mpr ⟨by omega, by omega⟩, ?_⟩⟩
  rw [Nat.add_sub_cancel_left, hbi]
  rfl

/-! ## Commits -/

/-- The cells are written. -/
def commit (m : MappedMemory) (cells : List (Cell × MemoryByteState)) : MappedMemory :=
  { m with memory := m.memory.commit cells }

theorem commit_append {l r : List (Cell × MemoryByteState)} : (m.commit l).commit r = m.commit (l ++ r) := by
  simp only [commit, SparseMemory.commit_append]

theorem commit_nil (hv : m.memory.Valid) : m.commit [] = m := by
  have hc : (m.memory.overlays.insertAll []).dom.card = m.memory.overlayBytes := hv.count.symm
  rw [commit, SparseMemory.commit, hc]
  rfl

@[simp] theorem locate_commit {l : List (Cell × MemoryByteState)} : (m.commit l).locate a = m.locate a := rfl

@[simp] theorem resolve_commit {l : List (Cell × MemoryByteState)} :
    (m.commit l).resolve address len = m.resolve address len := rfl

theorem Bound.commit (hb : Bound m) {l : List (Cell × MemoryByteState)} : Bound (m.commit l) := hb.transport rfl rfl

/-- A committed segment overwrites the addresses of its range. -/
theorem written_commit (hb : Bound m) {states : List MemoryByteState}
    (h : m.resolve address states.length = .ok (region, offset)) :
    (m.commit (SparseMemory.Segment.cells (region, offset, states))).written = m.written.write address states := by
  have hkeys : ∀ {c v}, (c, v) ∈ SparseMemory.Segment.cells (region, offset, states) ↔
      ∃ i < states.length, cell region (offset + i) = c ∧ SparseMemory.stateAt states i = v := by
    intro c v
    simp [SparseMemory.Segment.cells, SparseMemory.cells]
  refine funext fun a => ?_
  unfold written Flat.write
  rw [locate_commit]
  by_cases hin : address ≤ a ∧ a - address < states.length
  · -- the address is in the range, and its cell is the one at its distance from the start
    obtain ⟨hle, hlt⟩ := hin
    have hloc := locate_range hb h hlt
    rw [Nat.add_sub_cancel' hle] at hloc
    rw [hloc, Option.bind_some, if_pos hle, List.getElem?_eq_getElem hlt, Option.some_or]
    refine OrdMap.get?_insertAll_of_mem SparseMemory.cells_keys_nodup (hkeys.mpr ⟨_, hlt, rfl, ?_⟩)
    simp [SparseMemory.stateAt, List.getElem?_eq_getElem hlt]
  · have hflat : (if address ≤ a then (states[a - address]?).or ((m.locate a).bind m.memory.overlays.get?)
        else (m.locate a).bind m.memory.overlays.get?) = (m.locate a).bind m.memory.overlays.get? := by
      split
      · rw [List.getElem?_eq_none (by omega), Option.none_or]
      · rfl
    rw [hflat]
    cases hloc : m.locate a with
    | none => rfl
    | some c =>
      refine OrdMap.get?_insertAll_of_not_mem fun hmem => hin ?_
      obtain ⟨⟨c', v⟩, hcell, rfl⟩ := List.mem_map.mp hmem
      obtain ⟨i, hi, hc, -⟩ := hkeys.mp hcell
      have := locate_inj hb hloc (hc ▸ locate_range hb h hi)
      omega

/-! ## Batches -/

theorem resolveSegments_cons {g : Nat × List MemoryByteState} {rest : List (Nat × List MemoryByteState)}
    {resolved : List SparseMemory.Segment} : m.resolveSegments (g :: rest) = .ok resolved ↔
      ∃ region offset tail, m.resolve g.1 g.2.length = .ok (region, offset) ∧ m.resolveSegments rest = .ok tail ∧
        resolved = (region, offset, g.2) :: tail := by
  obtain ⟨address, states⟩ := g
  rw [resolveSegments]
  cases m.resolve address states.length with
  | error e => simp
  | ok p =>
    obtain ⟨region, offset⟩ := p
    cases m.resolveSegments rest with
    | error e => simp [Except.map]
    | ok tail =>
      simp only [Except.map, Except.ok.injEq, Prod.mk.injEq]
      constructor
      · rintro rfl
        exact ⟨region, offset, tail, ⟨rfl, rfl⟩, rfl, rfl⟩
      · rintro ⟨_, _, _, ⟨rfl, rfl⟩, rfl, rfl⟩
        rfl

theorem resolveSegments_commit {l : List (Cell × MemoryByteState)} {segments : List (Nat × List MemoryByteState)} :
    (m.commit l).resolveSegments segments = m.resolveSegments segments := by
  induction segments with
  | nil => rfl
  | cons g rest ih =>
    obtain ⟨address, states⟩ := g
    rw [resolveSegments, resolveSegments, resolve_commit, ih]

/-- A committed batch overwrites the ranges of its segments in order. -/
theorem written_commit_segments (hb : Bound m) {segments : List (Nat × List MemoryByteState)}
    {resolved : List SparseMemory.Segment} (h : m.resolveSegments segments = .ok resolved) :
    (m.commit (resolved.flatMap SparseMemory.Segment.cells)).written =
      segments.foldl (fun f g => f.write g.1 g.2) m.written := by
  induction segments generalizing m resolved with
  | nil =>
    cases h
    rfl
  | cons g rest ih =>
    obtain ⟨region, offset, tail, hres, htail, rfl⟩ := resolveSegments_cons.mp h
    rw [List.flatMap_cons, ← commit_append, List.foldl_cons, ← written_commit hb hres]
    exact ih hb.commit (resolveSegments_commit.trans htail)

theorem onMemory_ok {c : Call SparseMemory SparseMemoryError Unit} :
    onMemory c m = (.ok (), m') ↔ ∃ memory, c m.memory = (.ok (), memory) ∧ m' = { m with memory } := by
  unfold onMemory
  obtain ⟨r, memory⟩ := c m.memory
  cases r <;> simp [Except.mapError, eq_comm]

theorem onMemory_error {c : Call SparseMemory SparseMemoryError Unit} {e : MappedMemoryError}
    (hc : ∀ e memory, c m.memory = (.error e, memory) → memory = m.memory) (h : onMemory c m = (.error e, m')) :
    m' = m := by
  unfold onMemory at h
  cases hr : c m.memory with
  | mk r memory =>
    rw [hr] at h
    cases r with
    | ok u => cases h
    | error e' =>
      obtain rfl := hc e' memory hr
      exact (Prod.mk.inj h).2.symm

theorem writeSegmentsAt_ok {segments : List (Nat × List MemoryByteState)} :
    writeSegmentsAt segments m = (.ok (), m') ↔ ∃ resolved memory, m.resolveSegments segments = .ok resolved ∧
      SparseMemory.writeSegments resolved m.memory = (.ok (), memory) ∧ m' = { m with memory } := by
  unfold writeSegmentsAt
  cases m.resolveSegments segments with
  | error e => simp
  | ok resolved => simp [onMemory_ok]

theorem writeStatesAt_ok {states : List MemoryByteState} :
    writeStatesAt address states m = (.ok (), m') ↔ ∃ region offset memory,
      m.resolve address states.length = .ok (region, offset) ∧
        SparseMemory.writeStates region offset states m.memory = (.ok (), memory) ∧ m' = { m with memory } := by
  unfold writeStatesAt resolved
  cases m.resolve address states.length with
  | error e => simp
  | ok p =>
    obtain ⟨region, offset⟩ := p
    dsimp only
    rw [onMemory_ok]
    constructor
    · rintro ⟨memory, hw, rfl⟩
      exact ⟨region, offset, memory, rfl, hw, rfl⟩
    · rintro ⟨_, _, memory, hp, hw, rfl⟩
      cases hp
      exact ⟨memory, hw, rfl⟩

/-- A batch that succeeds commits the cells of its segments. -/
theorem writeSegmentsAt_commit (hv : m.memory.Valid) {segments : List (Nat × List MemoryByteState)}
    (h : writeSegmentsAt segments m = (.ok (), m')) : ∃ resolved, m.resolveSegments segments = .ok resolved ∧
      m' = m.commit (resolved.flatMap SparseMemory.Segment.cells) ∧ m'.memory.Valid := by
  obtain ⟨resolved, memory, hres, hw, rfl⟩ := writeSegmentsAt_ok.mp h
  obtain ⟨-, -, rfl⟩ := (SparseMemory.writeSegments_ok hv).mp hw
  exact ⟨resolved, hres, rfl, hv.writeSegments_ok hw⟩

theorem writeSegmentsAt_nil (hv : m.memory.Valid) : writeSegmentsAt [] m = (.ok (), m) := by
  refine writeSegmentsAt_ok.mpr ⟨[], m.memory, rfl, (SparseMemory.writeSegments_ok hv).mpr ⟨by simp, ?_, ?_⟩, rfl⟩
  · exact ⟨hv.count ▸ hv.bounded, hv.count ▸ hv.limit⟩
  · exact (congrArg MappedMemory.memory (commit_nil hv)).symm

/-- A batch is its first segment written by itself, then the rest. -/
theorem writeSegmentsAt_cons (hv : m.memory.Valid) {g : Nat × List MemoryByteState}
    {rest : List (Nat × List MemoryByteState)} : writeSegmentsAt (g :: rest) m = (.ok (), m') ↔
      ∃ m₁, writeStatesAt g.1 g.2 m = (.ok (), m₁) ∧ m₁.memory.Valid ∧ writeSegmentsAt rest m₁ = (.ok (), m') := by
  have hsame : ∀ {memory : SparseMemory}, ({ m with memory } : MappedMemory).resolveSegments rest =
      m.resolveSegments rest := by
    intro memory
    induction rest with
    | nil => rfl
    | cons g rest ih =>
      obtain ⟨address, states⟩ := g
      rw [resolveSegments, resolveSegments, ih]
      rfl
  constructor
  · intro h
    obtain ⟨resolved, memory, hres, hw, rfl⟩ := writeSegmentsAt_ok.mp h
    obtain ⟨region, offset, tail, hg, htail, rfl⟩ := resolveSegments_cons.mp hres
    obtain ⟨memory₁, h₁, hv₁, h₂⟩ := (SparseMemory.writeSegments_cons hv).mp hw
    exact ⟨{ m with memory := memory₁ }, writeStatesAt_ok.mpr ⟨region, offset, memory₁, hg, h₁, rfl⟩, hv₁,
      writeSegmentsAt_ok.mpr ⟨tail, memory, hsame.trans htail, h₂, rfl⟩⟩
  · rintro ⟨m₁, h₁, hv₁, h₂⟩
    obtain ⟨region, offset, memory₁, hg, hw₁, rfl⟩ := writeStatesAt_ok.mp h₁
    obtain ⟨tail, memory, htail, hw₂, rfl⟩ := writeSegmentsAt_ok.mp h₂
    refine writeSegmentsAt_ok.mpr ⟨(region, offset, g.2) :: tail, memory, ?_, ?_, rfl⟩
    · exact resolveSegments_cons.mpr ⟨region, offset, tail, hg, hsame.symm.trans htail, rfl⟩
    · exact (SparseMemory.writeSegments_cons hv).mpr ⟨memory₁, hw₁, hv₁, hw₂⟩

theorem writeStatesAt_singleton (hv : m.memory.Valid) {states : List MemoryByteState}
    (h : writeStatesAt address states m = (.ok (), m')) : writeSegmentsAt [(address, states)] m = (.ok (), m') := by
  obtain ⟨region, offset, memory, -, hw, rfl⟩ := writeStatesAt_ok.mp h
  have hv' : memory.Valid := hv.writeWith_ok hw
  exact (writeSegmentsAt_cons hv).mpr ⟨_, h, hv', writeSegmentsAt_nil hv'⟩

/-- A batch succeeds when its segments do one by one, with the same result. -/
theorem writeSegmentsAt_iff_writeEach (hv : m.memory.Valid) {segments : List (Nat × List MemoryByteState)} :
    writeSegmentsAt segments m = (.ok (), m') ↔ writeEach segments m = (.ok (), m') := by
  induction segments generalizing m with
  | nil => rw [writeSegmentsAt_nil hv, writeEach]
  | cons g rest ih =>
    obtain ⟨address, states⟩ := g
    rw [writeSegmentsAt_cons hv, writeEach]
    constructor
    · rintro ⟨m₁, h₁, hv₁, h₂⟩
      show (writeStatesAt address states).bind _ m = _
      unfold Call.bind
      rw [h₁]
      exact (ih hv₁).mp h₂
    · intro h
      obtain ⟨⟨⟩, m₁, h₁, h₂⟩ := Call.bind_ok h
      obtain ⟨region, offset, memory, -, hw, rfl⟩ := writeStatesAt_ok.mp h₁
      have hv₁ : memory.Valid := hv.writeWith_ok hw
      exact ⟨_, h₁, hv₁, (ih hv₁).mpr h₂⟩

/-! ## Runs -/

theorem writeKnownAt_eq {bytes : List UInt8} : writeKnownAt address bytes = writeStatesAt address (bytes.map .known) := by
  unfold writeKnownAt writeStatesAt SparseMemory.writeKnown SparseMemory.writeStates
  rw [List.length_map]

theorem writeUnknownAt_eq : writeUnknownAt address len = writeStatesAt address (List.replicate len .unknown) := by
  have hstate : SparseMemory.stateAt (List.replicate len .unknown) = fun _ => MemoryByteState.unknown := by
    refine funext fun i => ?_
    unfold SparseMemory.stateAt
    rw [List.getElem?_replicate]
    split <;> rfl
  unfold writeUnknownAt writeStatesAt SparseMemory.writeUnknown SparseMemory.writeStates
  rw [List.length_replicate, hstate]

/-- Every call that succeeds writes its segments as a batch. -/
theorem exec_ok (hv : m.memory.Valid) {c : MappedCall} (h : exec c m = (.ok (), m')) :
    writeSegmentsAt (Flat.segments c) m = (.ok (), m') := by
  cases c with
  | writeKnownAt address bytes => exact writeStatesAt_singleton hv (writeKnownAt_eq ▸ h)
  | writeStatesAt address states => exact writeStatesAt_singleton hv h
  | writeUnknownAt address len => exact writeStatesAt_singleton hv (writeUnknownAt_eq ▸ h)
  | writeSegmentsAt segments => exact h

theorem writeStatesAt_error {states : List MemoryByteState} {e : MappedMemoryError}
    (h : writeStatesAt address states m = (.error e, m')) : m' = m := by
  unfold writeStatesAt resolved at h
  split at h
  · exact (Prod.mk.inj h).2.symm
  · exact onMemory_error (fun _ _ => SparseMemory.writeWith_error) h

theorem exec_error {c : MappedCall} {e : MappedMemoryError} (h : exec c m = (.error e, m')) : m' = m := by
  cases c with
  | writeKnownAt address bytes => exact writeStatesAt_error ((congrFun writeKnownAt_eq m).symm.trans h)
  | writeStatesAt address states => exact writeStatesAt_error h
  | writeUnknownAt address len => exact writeStatesAt_error ((congrFun writeUnknownAt_eq m).symm.trans h)
  | writeSegmentsAt segments =>
    have h : writeSegmentsAt segments m = (.error e, m') := h
    unfold writeSegmentsAt at h
    split at h
    · exact (Prod.mk.inj h).2.symm
    · exact onMemory_error (fun _ _ => SparseMemory.writeSegments_error) h

/-- The memory holds what the flat map of the calls made does. -/
structure Refines (m₀ : MappedMemory) (t : List (MappedCall × Except MappedMemoryError Unit)) (m : MappedMemory) : Prop where
  bound : Bound m
  valid : m.memory.Valid
  committed : ∃ l, m = m₀.commit l
  flat : m.written = t.foldl Flat.apply m₀.written

theorem Refines.init (hb : Bound m₀) (hv : m₀.memory.Valid) : Refines m₀ [] m₀ :=
  ⟨hb, hv, ⟨[], (commit_nil hv).symm⟩, rfl⟩

theorem Refines.step {t : List (MappedCall × Except MappedMemoryError Unit)} (hR : Refines m₀ t m) {c : MappedCall}
    {r : Except MappedMemoryError Unit} (h : exec c m = (r, m')) : Refines m₀ (t ++ [(c, r)]) m' := by
  cases r with
  | error e =>
    rw [exec_error h]
    exact ⟨hR.bound, hR.valid, hR.committed, by rw [List.foldl_append, ← hR.flat]; rfl⟩
  | ok u =>
    obtain ⟨resolved, hres, rfl, hv'⟩ := writeSegmentsAt_commit hR.valid (exec_ok hR.valid h)
    obtain ⟨l, rfl⟩ := hR.committed
    refine ⟨hR.bound.commit, hv', ⟨_, commit_append⟩, ?_⟩
    rw [written_commit_segments hR.bound hres, List.foldl_append, ← hR.flat]
    rfl

theorem Refines.run {t : List (MappedCall × Except MappedMemoryError Unit)} (hb : Bound m₀) (hv : m₀.memory.Valid)
    (h : Run (calls exec) m₀ t m) : Refines m₀ t m :=
  h.inv (.init hb hv) fun _ _ _ _ hR hstep => hR.step hstep

/-! ## Reads and counts -/

theorem readStatesAt_eq (hb : Bound m) (h : m.resolve address len = .ok (region, offset)) (reserved : Bool) :
    m.readStatesAt address len reserved =
      if m.memory.maxTransferBytes < len then
        .error (.memory (.transferLimitExceeded len m.memory.maxTransferBytes))
      else if reserved then
        .ok ((List.range len).map fun i => (m.written (address + i)).getD (m.initial (address + i)))
      else .error (.memory (.hostAllocationFailed len)) := by
  obtain ⟨b, hbm, rfl, rfl, hend⟩ := resolve_ok h
  obtain ⟨hlt, r, hr, hsize⟩ := hb.sized b hbm
  have hbytes : ∀ i ∈ List.range len, m.memory.byteState b.regionIndex (offset + i) =
      (m.written (b.base + offset + i)).getD (m.initial (b.base + offset + i)) := by
    intro i hi
    rw [written, initial, locate_range hb h (List.mem_range.mp hi)]
    rfl
  unfold readStatesAt SparseMemory.readStates
  rw [h]
  by_cases hmax : m.memory.maxTransferBytes < len
  · simp [SparseMemory.checkRange, hr, hmax, Except.mapError]
  · have hin : m.memory.InRange b.regionIndex offset len := ⟨r, hr, by omega, by omega, by omega⟩
    simp only [SparseMemory.checkRange_ok.mpr hin, hmax, if_false]
    split
    · rw [List.map_congr_left hbytes]
      rfl
    · rfl

/-- The overlay counter counts the addresses written. -/
theorem overlayBytes_eq (hb : Bound m) (hv : m.memory.Valid) :
    {a | (m.written a).isSome = true}.encard = m.memory.overlayBytes := by
  have hwritten : ∀ a, (m.written a).isSome = true ↔ ∃ c ∈ m.memory.overlays.dom, m.locate a = some c := by
    intro a
    unfold written
    cases m.locate a with
    | none => simp
    | some c => simp [OrdMap.mem_dom, OrdMap.contains]
  have hinj : Set.InjOn m.locate {a | (m.written a).isSome = true} := by
    intro a ha a' _ heq
    obtain ⟨c, -, hc⟩ := (hwritten a).mp ha
    exact locate_inj hb hc (heq ▸ hc)
  have himage : m.locate '' {a | (m.written a).isSome = true} = some '' (m.memory.overlays.dom : Set Cell) := by
    refine Set.ext fun o => ⟨?_, ?_⟩
    · rintro ⟨a, ha, rfl⟩
      obtain ⟨c, hc, hloc⟩ := (hwritten a).mp ha
      exact ⟨c, hc, hloc.symm⟩
    · rintro ⟨c, hc, rfl⟩
      obtain ⟨r, hr, hlt⟩ := hv.inRegion c hc
      obtain ⟨a, ha⟩ := exists_locate hb hr hlt
      exact ⟨a, (hwritten a).mpr ⟨c, hc, ha⟩, ha⟩
  rw [← hinj.encard_image, himage, (Option.some_injective _).encard_image, Set.encard_coe_eq_coe_finsetCard, hv.count]

/-- A bound memory refines one flat map from addresses to states: a resolvable range reads what was
    written last or the initial bytes, a batch is its segments one by one, the overlay counter
    counts the addresses written, and a failed call changes nothing. -/
theorem mapped_memory_refines_flat {regions : List MemoryRegion} {limit transfer : Nat} {memory : SparseMemory}
    {ts : List (SparseMemory.SparseCall × Except SparseMemoryError Unit)} {bases : List Nat}
    {t : List (MappedCall × Except MappedMemoryError Unit)}
    (hs : Run (calls SparseMemory.exec) (SparseMemory.new regions limit transfer) ts memory)
    (hbind : bind memory bases = .ok m₀) (h : Run (calls exec) m₀ t m) :
    (ts = [] → m₀.written = fun _ => none) ∧
      m.written = t.foldl Flat.apply m₀.written ∧
      (∀ address len region offset reserved, m.resolve address len = .ok (region, offset) →
        m.readStatesAt address len reserved =
          if m.memory.maxTransferBytes < len then
            .error (.memory (.transferLimitExceeded len m.memory.maxTransferBytes))
          else if reserved then
            .ok ((List.range len).map fun i => (m.written (address + i)).getD (m₀.initial (address + i)))
          else .error (.memory (.hostAllocationFailed len))) ∧
      (∀ segments m', exec (.writeSegmentsAt segments) m = (.ok (), m') ↔ writeEach segments m = (.ok (), m')) ∧
      {a | (m.written a).isSome = true}.encard = m.memory.overlayBytes ∧
      m.memory.overlayBytes ≤ m₀.memory.maxOverlayBytes ∧
      ∀ c e m', exec c m = (.error e, m') → m' = m := by
  obtain ⟨rfl, hb⟩ := bind_ok hbind
  have hR := Refines.run hb (SparseMemory.Valid.run hs) h
  obtain ⟨l, rfl⟩ := hR.committed
  refine ⟨?_, hR.flat, fun address len region offset reserved hres => readStatesAt_eq hR.bound hres reserved,
    fun segments m' => writeSegmentsAt_iff_writeEach hR.valid, overlayBytes_eq hR.bound hR.valid, hR.valid.limit,
    fun c e m' hc => exec_error hc⟩
  intro hnil
  subst hnil
  have hnew : m₀.memory = SparseMemory.new regions limit transfer := hs.nil_eq rfl
  refine funext fun a => ?_
  unfold written
  rw [hnew]
  cases m₀.locate a <;> rfl

/-- Two regions: a batch over both overwrites a byte written before, and a range past its region fails. -/
theorem mapped_memory_refines_flat_two_regions :
    ∃ m₀ t m, bind (.new [⟨4, [9, 9, 9], by decide⟩, ⟨4, [], by decide⟩] 4 8) [100, 200] = .ok m₀ ∧
      Run (calls exec) m₀ t m ∧
      t.map Prod.snd = [.ok (), .ok (), .error (.unmapped 103 107)] ∧
      m.written = t.foldl Flat.apply m₀.written ∧
      m.readStatesAt 100 3 true = .ok [.known 1, .known 5, .known 9] ∧
      {a | (m.written a).isSome = true}.encard = 4 := by
  let m₀ : MappedMemory :=
    { memory := .new [⟨4, [9, 9, 9], by decide⟩, ⟨4, [], by decide⟩] 4 8, bindings := [⟨0, 100, 4⟩, ⟨1, 200, 4⟩] }
  let cs : List MappedCall := [.writeKnownAt 100 [1, 2], .writeSegmentsAt [(101, [.known 5]), (200, [.unknown, .known 7])],
    .writeUnknownAt 103 4]
  have hbind : bind m₀.memory [100, 200] = .ok m₀ := by
    have hsort : [(⟨0, 100, 4⟩ : MemoryMapping), ⟨1, 200, 4⟩].mergeSort (fun a b => a.base ≤ b.base) =
        [⟨0, 100, 4⟩, ⟨1, 200, 4⟩] := List.mergeSort_of_pairwise (by decide)
    simp [bind, mappings, checkedAdd, Except.map, hsort, overlapping, m₀, SparseMemory.new, u64]
  have hrefines := mapped_memory_refines_flat .nil hbind (run_runCalls exec m₀ cs)
  have hcount : (runCalls exec m₀ cs).2.memory.overlayBytes = 4 := by decide +kernel
  refine ⟨m₀, _, _, hbind, run_runCalls exec m₀ cs, by decide +kernel, hrefines.2.1, by decide +kernel, ?_⟩
  rw [hrefines.2.2.2.2.1, hcount]
  rfl

end MappedMemory

end AscendEmulator.Memory
