/-
  AscendEmulator.Memory.PvMemoryFlat — the memory of a device over whole runs: one flat map from addresses to the bytes
  last stored there, whatever pages they lie on, and never more pages than the limit.

  `stored` is what a history of calls leaves at an address. `Refines` ties a memory to the history that led to it.
-/

import AscendEmulator.Memory.PvMemoryProofs

namespace AscendEmulator.Memory

open Lib Outcome

/-! ## The count of pages -/

namespace PvMemory

variable {m m' : PvMemory} {address length done turns base lastBase missing : Nat} {source : List UInt8}

/-- The pages from `base` on that are missing. -/
def missingFrom (m : PvMemory) (base turns : Nat) : Finset Nat :=
  (Finset.range turns).image (fun i => base + i * pvPageBytes) \ m.pages.dom

theorem missingFrom_succ (m : PvMemory) (base turns : Nat) : m.missingFrom base (turns + 1) ⊆
    (if m.pages.contains base then ∅ else {base}) ∪ m.missingFrom (base + pvPageBytes) turns := by
  intro a ha
  obtain ⟨himage, hnew⟩ := Finset.mem_sdiff.mp ha
  obtain ⟨i, hi, rfl⟩ := Finset.mem_image.mp himage
  cases i with
  | zero =>
    rw [Nat.zero_mul, Nat.add_zero] at hnew ⊢
    rw [if_neg (by rwa [OrdMap.mem_dom] at hnew)]
    exact Finset.mem_union_left _ (Finset.mem_singleton_self base)
  | succ i =>
    refine Finset.mem_union_right _ (Finset.mem_sdiff.mpr ⟨Finset.mem_image.mpr ⟨i, ?_, ?_⟩, hnew⟩)
    · exact Finset.mem_range.mpr (Nat.lt_of_succ_lt_succ (Finset.mem_range.mp hi))
    · rw [Nat.succ_mul]
      omega

/-- A budget that was checked covers the pages that are missing. -/
theorem pageBudgetFrom_ok {u : Unit} (h : m.pageBudgetFrom lastBase turns base missing = .ok u)
    (hstep : base + (turns - 1) * pvPageBytes = lastBase) (hmissing : missing ≤ m.maxPages - m.pages.entries.length) :
    missing + (m.missingFrom base turns).card ≤ m.maxPages - m.pages.entries.length := by
  induction turns generalizing base missing with
  | zero => cases h
  | succ turns ih =>
    rw [pageBudgetFrom] at h
    obtain ⟨_, hcheck, h⟩ := bind_ok.mp h
    have hone : missing + (if m.pages.contains base then (∅ : Finset Nat) else {base}).card =
        if m.pages.contains base then missing else missing + 1 := by
      cases m.pages.contains base <;> simp
    have hfits : (if m.pages.contains base then missing else missing + 1) ≤ m.maxPages - m.pages.entries.length := by
      have hbudget := failIf_ok.mp hcheck
      cases hc : m.pages.contains base with
      | true => simpa using hmissing
      | false =>
        rw [hc, Bool.not_false, Bool.true_and, decide_eq_false_iff_not, if_neg Bool.false_ne_true] at hbudget
        exact Nat.le_of_not_lt hbudget
    have hcard := (Finset.card_le_card (missingFrom_succ m base turns)).trans (Finset.card_union_le _ _)
    split at h
    · rename_i hlast
      have hzero : turns = 0 := by
        by_contra hne
        have := Nat.mul_le_mul_right pvPageBytes (Nat.pos_of_ne_zero hne)
        have := pvPageBytes_pos
        rw [Nat.add_sub_cancel] at hstep
        omega
      subst hzero
      have hnil : (m.missingFrom (base + pvPageBytes) 0).card = 0 := by simp [missingFrom]
      omega
    · rename_i hne
      obtain ⟨next, hnext, h⟩ := bind_ok.mp h
      obtain ⟨-, rfl⟩ := checkedAdd_eq_some.mp (expect_ok.mp hnext)
      have hpos : turns ≠ 0 := by
        rintro rfl
        simp at hstep
        exact hne hstep
      obtain ⟨k, rfl⟩ := Nat.exists_eq_succ_of_ne_zero hpos
      have hstep' : base + pvPageBytes + (k.succ - 1) * pvPageBytes = lastBase := by
        simp only [Nat.succ_eq_add_one, Nat.add_sub_cancel, Nat.add_mul, Nat.one_mul] at hstep ⊢
        omega
      have hrest := ih h hstep' hfits
      omega

theorem foldlM_copyChunk_dom {l : List Chunk} (h : l.foldlM (fun m chunk => copyChunk source chunk m) m = .ok m') :
    m'.pages.dom ⊆ m.pages.dom ∪ (l.map Chunk.base).toFinset ∧ m'.maxPages = m.maxPages := by
  induction l generalizing m with
  | nil =>
    cases h
    exact ⟨Finset.subset_union_left, rfl⟩
  | cons chunk l ih =>
    rw [List.foldlM_cons] at h
    obtain ⟨m₁, hm₁, h⟩ := bind_ok.mp h
    obtain ⟨hdom, hmax⟩ := ih h
    unfold copyChunk at hm₁
    split at hm₁
    · cases hm₁
      refine ⟨fun a ha => ?_, hmax⟩
      have ha := hdom ha
      rw [OrdMap.dom_insert] at ha
      simp only [Finset.mem_union, Finset.mem_singleton, List.mem_toFinset, List.map_cons, List.mem_cons] at ha ⊢
      tauto
    · cases hm₁

/-- A write within the limit stays within it. -/
theorem write_pages (hfits : address + source.length < u64) (h : m.write address source = .ok m')
    (hpages : m.pages.entries.length ≤ m.maxPages) :
    m'.pages.entries.length ≤ m'.maxPages ∧ m'.maxPages = m.maxPages := by
  obtain ⟨l, hl, ht, hall⟩ := chunks_spec hfits
  unfold write at h
  obtain ⟨_, -, h⟩ := bind_ok.mp h
  obtain ⟨u, hbudget, h⟩ := bind_ok.mp h
  obtain ⟨l', hl', h⟩ := bind_ok.mp h
  obtain rfl : l = l' := Except.ok.inj (hl.symm.trans hl')
  obtain ⟨hdom, hmax⟩ := foldlM_copyChunk_dom h
  refine ⟨?_, hmax⟩
  -- The bases of the chunks are among the pages of the budget.
  have hbases : m'.pages.dom ⊆ m.pages.dom ∪ m.missingFrom (pageBase address)
      ((pageBase (address + source.length - 1) - pageBase address) / pvPageBytes + 1) := by
    intro a ha
    rcases Finset.mem_union.mp (hdom ha) with ha | ha
    · exact Finset.mem_union_left _ ha
    · obtain ⟨chunk, hchunk, rfl⟩ := List.mem_map.mp (List.mem_toFinset.mp ha)
      obtain ⟨-, hpos, hend⟩ := ht.bounds hchunk
      by_cases hold : chunk.base ∈ m.pages.dom
      · exact Finset.mem_union_left _ hold
      refine Finset.mem_union_right _ (Finset.mem_sdiff.mpr ⟨Finset.mem_image.mpr
        ⟨(address + chunk.done) / pvPageBytes - address / pvPageBytes, ?_, ?_⟩, hold⟩)
      · have hlast : (address + chunk.done) / pvPageBytes ≤ (address + source.length - 1) / pvPageBytes :=
          Nat.div_le_div_right (by omega)
        unfold pageBase
        rw [Finset.mem_range, ← Nat.sub_mul, Nat.mul_div_cancel _ pvPageBytes_pos]
        omega
      · have hfirst : address / pvPageBytes ≤ (address + chunk.done) / pvPageBytes :=
          Nat.div_le_div_right (by omega)
        rw [(hall chunk hchunk).base]
        unfold pageBase
        rw [← Nat.add_mul, Nat.add_sub_cancel' hfirst]
  unfold checkPageBudget at hbudget
  split at hbudget
  · rename_i hempty
    have hnil : l = [] := by
      refine List.eq_nil_iff_forall_not_mem.mpr fun chunk hchunk => ?_
      obtain ⟨-, hpos, hend⟩ := ht.bounds hchunk
      omega
    subst hnil
    rw [List.map_nil, List.toFinset_nil, Finset.union_empty] at hdom
    rw [OrdMap.length_entries] at hpages ⊢
    exact (Finset.card_le_card hdom).trans (hmax ▸ hpages)
  · rw [plainAdd_bind hfits] at hbudget
    have hmono : address / pvPageBytes ≤ (address + source.length - 1) / pvPageBytes := Nat.div_le_div_right (by omega)
    have hcovered := pageBudgetFrom_ok hbudget (by
      unfold pageBase
      rw [Nat.add_sub_cancel, ← Nat.sub_mul, Nat.mul_div_cancel _ pvPageBytes_pos, ← Nat.add_mul,
        Nat.add_sub_cancel' hmono]) (Nat.zero_le _)
    have hcard := (Finset.card_le_card hbases).trans (Finset.card_union_le _ _)
    rw [OrdMap.length_entries] at hpages hcovered ⊢
    omega

end PvMemory

/-! ## The bytes of a run -/

namespace HbmPvMemory

open HbmAllocator (Good)

variable {m m' : HbmPvMemory} {base bytes address len maxPages : Nat} {defaultByte : UInt8} {source : List UInt8}
  {t : List (MemoryCall × Outcome HbmPvMemoryError MemoryReply)}

/-- What a call leaves at an address where `last` was stored. -/
def storedBy (address : Nat) (last : Option UInt8) : MemoryCall × Outcome HbmPvMemoryError MemoryReply → Option UInt8
  | (.hostToDevice start source, .ok _) =>
    if start ≤ address ∧ address < start + source.length then some (source.getD (address - start) 0) else last
  | _ => last

/-- The byte last stored at an address by a copy that succeeded. -/
def stored (t : List (MemoryCall × Outcome HbmPvMemoryError MemoryReply)) (address : Nat) : Option UInt8 :=
  t.foldl (storedBy address) none

theorem stored_snoc (x : MemoryCall × Outcome HbmPvMemoryError MemoryReply) (address : Nat) :
    stored (t ++ [x]) address = storedBy address (stored t address) x := List.foldl_append

/-- The memory is the flat map of its history, on pages within the limit. -/
structure Refines (base bytes : Nat) (defaultByte : UInt8) (maxPages : Nat)
    (t : List (MemoryCall × Outcome HbmPvMemoryError MemoryReply)) (m : HbmPvMemory) : Prop where
  good : Good base bytes m.allocator
  flat : ∀ address, m.store.readByte address = (stored t address).getD defaultByte
  limit : m.store.maxPages = maxPages
  pages : m.store.pages.entries.length ≤ m.store.maxPages

theorem onAllocator_store {α : Type} (c : Call HbmAllocator HbmAllocationError α) (m : HbmPvMemory) :
    (onAllocator c m).2.store = m.store := by
  unfold onAllocator
  split <;> rfl

theorem hostToDevice_pages (hpages : m.store.pages.entries.length ≤ m.store.maxPages)
    (h : m.hostToDevice address source = (.ok (), m')) :
    m'.store.pages.entries.length ≤ m'.store.maxPages ∧ m'.store.maxPages = m.store.maxPages := by
  unfold hostToDevice at h
  split at h
  · obtain ⟨-, rfl⟩ := ok_inj h
    exact ⟨hpages, rfl⟩
  split at h
  · cases h
  rename_i span hspan
  split at h
  · cases h
  rename_i store hstore
  obtain ⟨-, rfl⟩ := ok_inj h
  obtain ⟨-, hfits, -⟩ := HbmAllocator.resolveLive_ok (mapErr_ok.mp hspan)
  exact PvMemory.write_pages hfits (mapErr_ok.mp hstore) hpages

/-- A call that fails leaves the memory as it was, and none panics. -/
theorem exec_error (hg : Good base bytes m.allocator) {c : MemoryCall} {e : Fault HbmPvMemoryError}
    (h : exec c m = (.error e, m')) : m' = m ∧ e ≠ .panicked := by
  cases c with
  | allocate bytes reserved => exact allocate_error (reply_error h)
  | free pointer => exact free_error (reply_error h)
  | hostToDevice address source => exact hostToDevice_error hg (reply_error h)
  | deviceToHost address len =>
    have hm : m = m' := congrArg Prod.snd h
    have hread := reply_error h
    refine ⟨hm.symm, ?_⟩
    rintro rfl
    have hpanic : m.deviceToHost address len = .error .panicked := congrArg Prod.fst hread
    unfold deviceToHost at hpanic
    split at hpanic
    · cases hpanic
    cases hspan : m.allocator.resolveLive address len with
    | error e =>
      rw [hspan] at hpanic
      cases e with
      | returned e => cases hpanic
      | panicked => exact hg.resolveLive_safe hspan
    | ok span =>
      rw [hspan] at hpanic
      obtain ⟨-, hfits, -⟩ := HbmAllocator.resolveLive_ok hspan
      change mapErr HbmPvMemoryError.store (m.store.readInto address len) = _ at hpanic
      rw [PvMemory.readInto_eq hfits] at hpanic
      cases hpanic

theorem Refines.step (hR : Refines base bytes defaultByte maxPages t m) {c : MemoryCall}
    {r : Outcome HbmPvMemoryError MemoryReply} (h : exec c m = (r, m')) :
    Refines base bytes defaultByte maxPages (t ++ [(c, r)]) m' := by
  have hgood : Good base bytes m'.allocator := by
    have hg := good_exec hR.good c
    rwa [h] at hg
  -- Only a copy to the device touches the bytes.
  have same (hstore : m'.store = m.store) (hby : ∀ a, storedBy a (stored t a) (c, r) = stored t a) :
      Refines base bytes defaultByte maxPages (t ++ [(c, r)]) m' :=
    { good := hgood
      flat := fun a => by rw [stored_snoc, hby, hstore, hR.flat]
      limit := by rw [hstore, hR.limit]
      pages := by rw [hstore]; exact hR.pages }
  cases r with
  | error e =>
    obtain ⟨rfl, -⟩ := exec_error hR.good h
    exact same rfl fun a => by cases c <;> rfl
  | ok r =>
    cases c with
    | allocate bytes reserved =>
      have hm : (exec (.allocate bytes reserved) m).2 = m' := congrArg Prod.snd h
      refine same ?_ fun a => rfl
      rw [← hm]
      exact onAllocator_store _ m
    | free pointer =>
      have hm : (exec (.free pointer) m).2 = m' := congrArg Prod.snd h
      refine same ?_ fun a => rfl
      rw [← hm]
      exact onAllocator_store _ m
    | deviceToHost address len =>
      have hm : m = m' := congrArg Prod.snd h
      exact same (by rw [hm]) fun a => rfl
    | hostToDevice address source =>
      obtain ⟨u, hcopy, -⟩ := reply_ok h
      obtain ⟨-, -, hbytes⟩ := hostToDevice_ok hcopy
      obtain ⟨hpages, hlimit⟩ := hostToDevice_pages hR.pages hcopy
      exact {
        good := hgood
        flat := fun a => by
          rw [stored_snoc, hbytes a, storedBy]
          split
          · rfl
          · exact hR.flat a
        limit := hlimit.trans hR.limit
        pages := hpages }

theorem readByte_new (address : Nat) : (PvMemory.new defaultByte maxPages).readByte address = defaultByte := by
  rw [PvMemory.readByte, PvMemory.page, PvMemory.new, OrdMap.get?_empty]
  rfl

theorem withRegion_ok {architecture : Architecture}
    (h : withRegion architecture base bytes defaultByte maxPages = .ok m) :
    Good base bytes m.allocator ∧ m.store = .new defaultByte maxPages := by
  unfold withRegion at h
  cases ha : HbmAllocator.withRegion base bytes with
  | error e =>
    rw [ha] at h
    cases h
  | ok a =>
    rw [ha] at h
    cases h
    exact ⟨(HbmAllocator.good_withRegion ha).1, rfl⟩

theorem Refines.init {architecture : Architecture}
    (h : withRegion architecture base bytes defaultByte maxPages = .ok m) :
    Refines base bytes defaultByte maxPages [] m := by
  obtain ⟨hgood, hstore⟩ := withRegion_ok h
  refine ⟨hgood, fun address => ?_, ?_, ?_⟩
  · rw [hstore]
    exact readByte_new address
  · rw [hstore]
    rfl
  · rw [hstore]
    exact Nat.zero_le _

theorem Refines.run {architecture : Architecture} {m₀ : HbmPvMemory}
    (h₀ : withRegion architecture base bytes defaultByte maxPages = .ok m₀) (h : Run (calls exec) m₀ t m) :
    Refines base bytes defaultByte maxPages t m := by
  refine h.inv (I := fun t m => Refines base bytes defaultByte maxPages t m) (Refines.init h₀) fun t u x v hu hx => ?_
  exact hu.step hx

/-- The bytes of a range, as the history left them. -/
def storedRange (t : List (MemoryCall × Outcome HbmPvMemoryError MemoryReply)) (defaultByte : UInt8)
    (address len : Nat) : List UInt8 :=
  (List.range len).map fun i => (stored t (address + i)).getD defaultByte

theorem Refines.read (hR : Refines base bytes defaultByte maxPages t m) {s : HbmSpan} (hs : s ∈ m.allocator.spans)
    (ha : s.allocated = true) (hbase : s.base ≤ address) (hend : address + len ≤ s.base + s.bytes) :
    m.deviceToHost address len = .ok (storedRange t defaultByte address len) := by
  rw [deviceToHost_eq hR.good hs ha hbase hend]
  refine congrArg Except.ok (List.map_congr_left fun i _ => ?_)
  exact hR.flat (address + i)

theorem Refines.read_ok (hR : Refines base bytes defaultByte maxPages t m) {l : List UInt8}
    (h : m.deviceToHost address len = .ok l) : l = storedRange t defaultByte address len := by
  by_cases hlen : len = 0
  · subst hlen
    unfold deviceToHost at h
    rw [if_pos rfl] at h
    cases h
    rfl
  · have hread := h
    unfold deviceToHost at h
    rw [if_neg hlen] at h
    obtain ⟨span, hspan, -⟩ := bind_ok.mp h
    obtain ⟨-, -, s, hs, ha, hbase, hend, -⟩ := HbmAllocator.resolveLive_ok (mapErr_ok.mp hspan)
    rw [hR.read hs ha hbase hend] at hread
    exact (Except.ok.inj hread).symm

/-- A copy into one live allocation leaves what another reads. -/
theorem Refines.others (hR : Refines base bytes defaultByte maxPages t m)
    (h : m.hostToDevice address source = (.ok (), m')) {w s : HbmSpan} (hw : w ∈ m.allocator.spans) (hbase : w.base ≤ address)
    (hend : address + source.length ≤ w.base + w.bytes) (hs : s ∈ m.allocator.spans) (ha : s.allocated = true)
    (hne : s ≠ w) {start : Nat} (hstart : s.base ≤ start) (hstop : start + len ≤ s.base + s.bytes) :
    m'.deviceToHost start len = m.deviceToHost start len := by
  obtain ⟨hallocator, -, hbytes⟩ := hostToDevice_ok h
  have hgood' : Good base bytes m'.allocator := by
    rw [hallocator]
    exact hR.good
  rw [deviceToHost_eq hR.good hs ha hstart hstop,
    deviceToHost_eq hgood' (by rw [hallocator]; exact hs) ha hstart hstop]
  refine congrArg Except.ok (List.map_congr_left fun i hi => ?_)
  have hlt := List.mem_range.mp hi
  rw [hbytes, if_neg]
  rintro ⟨hlow, hhigh⟩
  exact hne (hR.good.tiles.unique (i := start + i) hs hw ⟨by omega, by omega⟩ ⟨by omega, by omega⟩)

/-- Over every run of calls the memory of a device is one flat map of bytes, within its limit of pages. -/
theorem pv_memory_refines_flat (architecture : Architecture) (base bytes : Nat) (defaultByte : UInt8) (maxPages : Nat)
    {m₀ m : HbmPvMemory} {t : List (MemoryCall × Outcome HbmPvMemoryError MemoryReply)}
    (h₀ : withRegion architecture base bytes defaultByte maxPages = .ok m₀) (h : Run (calls exec) m₀ t m) :
    (∀ s ∈ m.allocator.spans, s.allocated = true → ∀ address len, s.base ≤ address →
      address + len ≤ s.base + s.bytes →
        m.deviceToHost address len = .ok (storedRange t defaultByte address len)) ∧
    (∀ address len l, m.deviceToHost address len = .ok l → l = storedRange t defaultByte address len) ∧
    (∀ address source m', m.hostToDevice address source = (.ok (), m') →
      (∀ a, a < address ∨ address + source.length ≤ a → m'.store.readByte a = m.store.readByte a) ∧
      ∀ w ∈ m.allocator.spans, w.base ≤ address → address + source.length ≤ w.base + w.bytes →
        ∀ s ∈ m.allocator.spans, s.allocated = true → s ≠ w → ∀ start len, s.base ≤ start →
          start + len ≤ s.base + s.bytes → m'.deviceToHost start len = m.deviceToHost start len) ∧
    m.store.pages.entries.length ≤ maxPages ∧
    ∀ c e m', exec c m = (.error e, m') → m' = m ∧ e ≠ .panicked := by
  have hR := Refines.run h₀ h
  refine ⟨fun s hs ha address len hbase hend => hR.read hs ha hbase hend, fun address len l hl => hR.read_ok hl,
    fun address source m' hcopy => ⟨fun a hout => ?_, fun w hw hbase hend s hs ha hne start len hstart hstop =>
      hR.others hcopy hw hbase hend hs ha hne hstart hstop⟩, ?_, fun c e m' he => exec_error hR.good he⟩
  · rw [(hostToDevice_ok hcopy).2.2 a, if_neg (by omega)]
  · rw [← hR.limit]
    exact hR.pages

/-- An allocation of sixteen bytes, and three bytes stored in it. -/
def sampleCopies : List MemoryCall := [.allocate 16 true, .hostToDevice 0x4003 [1, 2, 3]]

theorem pv_memory_refines_flat_sample : ∃ m₀ t m, withRegion .dav2201 0x4000 16 0xa5 1 = .ok m₀ ∧
    Run (calls exec) m₀ t m ∧ m.deviceToHost 0x4002 5 = .ok [0xa5, 1, 2, 3, 0xa5] ∧
      m.store.pages.entries.length ≤ 1 := by
  refine ⟨_, _, _, rfl, run_runCalls exec _ sampleCopies, ?_, ?_⟩
  · have h := pv_memory_refines_flat .dav2201 0x4000 16 0xa5 1 rfl (run_runCalls exec _ sampleCopies)
    exact (h.1 ⟨0x4000, 16, true⟩ (by decide) rfl 0x4002 5 (by decide) (by decide)).trans (by rfl)
  · exact (pv_memory_refines_flat .dav2201 0x4000 16 0xa5 1 rfl (run_runCalls exec _ sampleCopies)).2.2.2.1

end HbmPvMemory

end AscendEmulator.Memory
