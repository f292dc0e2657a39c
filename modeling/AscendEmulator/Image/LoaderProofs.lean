/-
  AscendEmulator.Image.LoaderProofs — a loaded kernel is fetched as it stands in the file, and a load that
  fails leaves the memory as it was.

  `Loaded` is what a load establishes and what the calls that leave the image alone keep.
-/

import AscendEmulator.Image.ElfProofs
import AscendEmulator.Image.Loader
import AscendEmulator.Memory.PvMemoryProofs

namespace AscendEmulator.Image

open Lib Outcome Memory
open HbmAllocator (Good)

variable {m m' : HbmPvMemory} {base bytes : Nat} {image : DeviceLoadImage} {placement : DeviceBinaryPlacement}

/-! ## The image in memory -/

/-- The image lies in its live allocation, byte for byte. -/
structure Loaded (base bytes : Nat) (image : DeviceLoadImage) (placement : DeviceBinaryPlacement) (m : HbmPvMemory) :
    Prop where
  good : Good base bytes m.allocator
  live : ⟨placement.allocationBase, placement.allocationBytes, true⟩ ∈ m.allocator.spans
  start : placement.allocationBase ≤ placement.alignedCodeAddress
  stop : placement.alignedCodeAddress + image.bytes.length ≤ placement.allocationBase + placement.allocationBytes
  aligned : placement.alignedCodeAddress % 4 = 0
  size : placement.imageBytes = image.bytes.length
  architecture : m.architecture = placement.architecture
  copied : ∀ i < image.bytes.length,
    m.store.readByte (placement.alignedCodeAddress + i) = image.bytes.getD i 0

/-- The call neither frees the image nor writes to it. -/
def Untouched (placement : DeviceBinaryPlacement) (c : HbmPvMemory.MemoryCall) (_ : HbmPvMemory) : Prop :=
  match c with
  | .free pointer => pointer ≠ placement.allocationBase
  | .hostToDevice address source => source = [] ∨ address + source.length ≤ placement.alignedCodeAddress ∨
      placement.alignedCodeAddress + placement.imageBytes ≤ address
  | _ => True

/-- An allocated span stays where another one is allocated. -/
theorem live_allocate {a a' : HbmAllocator} {span : HbmSpan} {len pointer : Nat} {reserved : Bool}
    (hg : Good base bytes a) (h : HbmAllocator.allocate len reserved a = (.ok pointer, a')) (hs : span ∈ a.spans)
    (ha : span.allocated = true) : span ∈ a'.spans := by
  obtain ⟨-, pre, s, post, hl, hfree, -, hspans⟩ := hg.allocate h
  have hmem : span ∈ a'.spans.filter (·.allocated) := by
    rw [hl] at hs
    rw [hspans]
    rcases List.mem_append.mp hs with hs | hs
    · exact List.mem_append_left _ (List.mem_filter.mpr ⟨hs, ha⟩)
    · rcases List.mem_cons.mp hs with rfl | hs
      · rw [hfree] at ha
        cases ha
      · exact List.mem_append_right _ (List.mem_cons_of_mem _ (List.mem_filter.mpr ⟨hs, ha⟩))
  exact List.mem_of_mem_filter hmem

/-- An allocated span stays where another one is freed. -/
theorem live_free {a a' : HbmAllocator} {span : HbmSpan} {pointer : Nat} (hg : Good base bytes a)
    (h : HbmAllocator.free pointer a = (.ok (), a')) (hs : span ∈ a.spans) (ha : span.allocated = true)
    (hne : pointer ≠ span.base) : span ∈ a'.spans := by
  obtain ⟨-, pre, s, post, hl, -, hbase, hspans⟩ := hg.free h
  have hmem : span ∈ a'.spans.filter (·.allocated) := by
    rw [hl] at hs
    rw [hspans]
    rcases List.mem_append.mp hs with hs | hs
    · exact List.mem_append_left _ (List.mem_filter.mpr ⟨hs, ha⟩)
    · rcases List.mem_cons.mp hs with rfl | hs
      · exact absurd hbase.symm hne
      · exact List.mem_append_right _ (List.mem_filter.mpr ⟨hs, ha⟩)
  exact List.mem_of_mem_filter hmem

theorem Loaded.step (h : Loaded base bytes image placement m) {c : HbmPvMemory.MemoryCall}
    (hu : Untouched placement c m) : Loaded base bytes image placement (HbmPvMemory.exec c m).2 := by
  have hgood := HbmPvMemory.good_exec h.good c
  cases hr : HbmPvMemory.exec c m with
  | mk r m' =>
  rw [hr] at hgood
  -- An allocator call keeps the store, and the span of the image.
  have hkeep : m'.architecture = m.architecture → m'.store = m.store →
      ⟨placement.allocationBase, placement.allocationBytes, true⟩ ∈ m'.allocator.spans →
      Loaded base bytes image placement m' := fun harch hstore hlive =>
    ⟨hgood, hlive, h.start, h.stop, h.aligned, h.size, harch.trans h.architecture, by rw [hstore]; exact h.copied⟩
  cases c with
  | allocate len reserved =>
    cases r with
    | error e =>
      obtain rfl := (HbmPvMemory.allocate_error (reply_error hr)).1
      exact h
    | ok r =>
      obtain ⟨p, hp, -⟩ := reply_ok hr
      obtain ⟨hcall, hm'⟩ := HbmPvMemory.onAllocator_ok hp
      exact hkeep (by rw [hm']) (by rw [hm'])
        (live_allocate h.good hcall h.live rfl)
  | free pointer =>
    cases r with
    | error e =>
      obtain rfl := (HbmPvMemory.free_error (reply_error hr)).1
      exact h
    | ok r =>
      obtain ⟨u, hp, -⟩ := reply_ok hr
      obtain ⟨hcall, hm'⟩ := HbmPvMemory.onAllocator_ok hp
      exact hkeep (by rw [hm']) (by rw [hm'])
        (live_free h.good hcall h.live rfl hu)
  | hostToDevice address source =>
    cases r with
    | error e =>
      obtain rfl := (HbmPvMemory.hostToDevice_error h.good (reply_error hr)).1
      exact h
    | ok r =>
      obtain ⟨u, hp, -⟩ := reply_ok hr
      obtain ⟨halloc, harch, hread⟩ := HbmPvMemory.hostToDevice_ok hp
      refine ⟨hgood, by rw [halloc]; exact h.live, h.start, h.stop, h.aligned, h.size, harch.trans h.architecture, ?_⟩
      intro i hi
      rw [hread, if_neg, h.copied i hi]
      rintro ⟨hle, hlt⟩
      have hsize := h.size
      rcases hu with rfl | hu | hu
      · simp only [List.length_nil] at hlt
        omega
      · omega
      · omega
  | deviceToHost address len =>
    obtain rfl : m = m' := congrArg Prod.snd hr
    exact h

theorem Loaded.run (h : Loaded base bytes image placement m)
    {t : List (HbmPvMemory.MemoryCall × Outcome HbmPvMemoryError HbmPvMemory.MemoryReply)}
    (hrun : Run (callsWhen (Untouched placement) HbmPvMemory.exec) m t m') : Loaded base bytes image placement m' := by
  refine hrun.keeps h fun u x v hu ⟨hx, hcall⟩ => ?_
  have hv : (HbmPvMemory.exec x.1 u).2 = v := congrArg Prod.snd hcall
  rw [← hv]
  exact hu.step hx

/-! ## Loading -/

/-- A call that fails leaves the memory as it was, and does not panic. -/
def CleanFailure {ε α : Type} (m : HbmPvMemory) (r : Outcome ε α × HbmPvMemory) : Prop :=
  ∀ e m', r = (.error e, m') → m' = m ∧ e ≠ .panicked

theorem placeImage_error {allocationBase allocationBytes : Nat} (hg : Good base bytes m.allocator) :
    CleanFailure m (placeImage image allocationBase allocationBytes m) := by
  intro e m' h
  unfold placeImage at h
  split at h
  · cases h
    exact ⟨rfl, nofun⟩
  dsimp only at h
  split at h
  · rename_i e' he
    cases h
    exact ⟨rfl, fun hp => hg.resolveLive_safe.mapErr (by rw [he, hp])⟩
  split at h
  · rename_i e' m₁ hcopy
    obtain ⟨rfl, hne⟩ := HbmPvMemory.hostToDevice_error hg hcopy
    cases e' with
    | panicked => exact absurd rfl hne
    | returned e' =>
      cases h
      exact ⟨rfl, nofun⟩
  · cases h

theorem placeImage_ok {allocationBase allocationBytes : Nat} (hg : Good base bytes m.allocator)
    (hlive : ⟨allocationBase, allocationBytes, true⟩ ∈ m.allocator.spans)
    (hsize : allocationBytes = image.bytes.length + (codeAlignment - 1))
    (h : placeImage image allocationBase allocationBytes m = (.ok placement, m')) :
    Loaded base bytes image placement m' := by
  unfold placeImage at h
  split at h
  · cases h
  rename_i last hlast
  obtain ⟨-, rfl⟩ := checkedAdd_eq_some.mp hlast
  dsimp only at h
  split at h
  · cases h
  split at h
  · rename_i e' _ _
    cases e' <;> cases h
  rename_i m₁ hcopy
  obtain ⟨rfl, rfl⟩ := ok_inj h
  obtain ⟨halloc, harch, hread⟩ := HbmPvMemory.hostToDevice_ok hcopy
  have hdiv := Nat.div_add_mod' (allocationBase + (codeAlignment - 1)) codeAlignment
  have hmod := Nat.mod_lt (allocationBase + (codeAlignment - 1)) (show 0 < codeAlignment by decide)
  have hcode : codeAlignment = 4096 := rfl
  refine ⟨by rw [halloc]; exact hg, by rw [halloc]; exact hlive, ?_, ?_, ?_, rfl, rfl, ?_⟩
  · dsimp only
    omega
  · dsimp only
    omega
  · exact Nat.mod_eq_zero_of_dvd (Dvd.dvd.mul_left (by decide) _)
  · intro i hi
    rw [hread, if_pos (by dsimp only; omega)]
    simp

theorem freeOnError_ok {ε α : Type} {pointer : Nat} {wrap : HbmPvMemoryError → ε} {c : Call HbmPvMemory (Fault ε) α}
    {a : α} (h : freeOnError pointer wrap c m = (.ok a, m')) : c m = (.ok a, m') := by
  unfold freeOnError at h
  split at h
  · rename_i b m₁ hc
    obtain ⟨rfl, rfl⟩ := ok_inj h
    exact hc
  · cases h
  · split at h
    · cases h
    · rename_i e' _ _
      cases e' <;> cases h

/-- Where the call fails cleanly and the allocation can be given back, so does the whole. -/
theorem freeOnError_error {ε α : Type} {pointer : Nat} {wrap : HbmPvMemoryError → ε}
    {c : Call HbmPvMemory (Fault ε) α} {m₁ : HbmPvMemory} (hc : CleanFailure m₁ (c m₁))
    (hfree : m₁.free pointer = (.ok (), m)) : CleanFailure m (freeOnError pointer wrap c m₁) := by
  intro e m' h
  unfold freeOnError at h
  split at h
  · cases h
  · rename_i m₂ heq
    exact absurd rfl (hc _ _ heq).2
  · rename_i e' m₂ heq
    obtain ⟨rfl, -⟩ := hc _ _ heq
    rw [hfree] at h
    cases h
    exact ⟨rfl, nofun⟩

theorem free_allocate {len pointer : Nat} {reserved : Bool} {m₁ : HbmPvMemory} (hg : Good base bytes m.allocator)
    (h : m.allocate len reserved = (.ok pointer, m₁)) : m₁.free pointer = (.ok (), m) := by
  obtain ⟨hcall, hm₁⟩ := HbmPvMemory.onAllocator_ok h
  rw [hm₁, HbmPvMemory.free, HbmPvMemory.onAllocator, HbmAllocator.free_allocate hg hcall]

theorem loadImage_error {reserved : Bool} (hg : Good base bytes m.allocator) :
    CleanFailure m (loadImage image reserved m) := by
  intro e m' h
  unfold loadImage at h
  split at h
  · cases h
    exact ⟨rfl, nofun⟩
  split at h
  · cases h
    exact ⟨rfl, nofun⟩
  split at h
  · rename_i e' m₁ halloc
    obtain ⟨rfl, hne⟩ := HbmPvMemory.allocate_error halloc
    cases e' with
    | panicked => exact absurd rfl hne
    | returned e' =>
      cases h
      exact ⟨rfl, nofun⟩
  · rename_i pointer m₁ halloc
    have hg₁ : Good base bytes m₁.allocator := (hg.allocate (HbmPvMemory.onAllocator_ok halloc).1).1
    exact freeOnError_error (placeImage_error hg₁) (free_allocate hg halloc) _ _ h

/-- A load that succeeds has the image in memory, and could still be undone. -/
theorem loadImage_ok {reserved : Bool} (hg : Good base bytes m.allocator)
    (h : loadImage image reserved m = (.ok placement, m')) : Loaded base bytes image placement m' := by
  unfold loadImage at h
  split at h
  · cases h
  split at h
  · cases h
  rename_i allocationBytes hbytes
  obtain ⟨-, rfl⟩ := checkedAdd_eq_some.mp hbytes
  split at h
  · rename_i e' _ _
    cases e' <;> cases h
  · rename_i pointer m₁ halloc
    obtain ⟨hg₁, pre, s, post, -, -, -, hspans⟩ := hg.allocate (HbmPvMemory.onAllocator_ok halloc).1
    have hlive : ⟨pointer, image.bytes.length + (codeAlignment - 1), true⟩ ∈ m₁.allocator.spans :=
      List.mem_of_mem_filter (p := (·.allocated)) (by rw [hspans]; simp)
    exact placeImage_ok hg₁ hlive rfl (freeOnError_ok h)

variable {elf : DeviceElf} {name : String} {k : DeviceKernelSummary}

/-- The addresses of a loadable kernel whose image is in memory. -/
theorem loadedAddresses_eq (h : Loaded base bytes image placement m) (hin : DeviceElf.InSection k)
    (hsection : k.sectionVirtualAddress + k.sectionByteCount ≤ image.bytes.length) :
    loadedAddresses k placement.alignedCodeAddress =
      .ok (placement.alignedCodeAddress + k.virtualAddress,
        placement.alignedCodeAddress + k.sectionVirtualAddress) := by
  have hend := h.good.span_end h.live
  have hstop := h.stop
  have hkernel := hin.stop
  dsimp only at hend
  have hadd : ∀ {a b : Nat}, a + b < u64 → checkedAdd a b = some (a + b) := fun hab => checkedAdd_eq_some.mpr ⟨hab, rfl⟩
  unfold loadedAddresses
  refine bind_ok.mpr ⟨_, okOr_ok.mpr (hadd (by omega)), bind_ok.mpr ⟨_, okOr_ok.mpr (hadd (by omega)), ?_⟩⟩
  refine bind_ok.mpr ⟨_, okOr_ok.mpr (hadd (by omega)), bind_ok.mpr ⟨_, okOr_ok.mpr (hadd (by omega)), ?_⟩⟩
  exact bind_ok.mpr ⟨(), failIf_ok.mpr (by rw [decide_eq_false_iff_not]; omega), rfl⟩

/-- What a load of a named kernel does: it fails with the memory as it was, or the image is in memory. -/
theorem loadNamedKernel_cases (name : String) (reserved : Bool) (hg : Good base bytes m.allocator)
    (hnames : elf.sectionNames.length = elf.sections.length) :
    CleanFailure m (loadNamedKernel elf name reserved m) ∧
      ∀ loaded m', loadNamedKernel elf name reserved m = (.ok loaded, m') →
        ∃ image k, elf.loadableKernel name = .ok k ∧ elf.loadImage = .ok image ∧
          Loaded base bytes image loaded.placement m' ∧ loaded.kernel = k ∧
          loaded.entryAddress = loaded.placement.alignedCodeAddress + k.virtualAddress ∧
          loaded.executableStartAddress = loaded.placement.alignedCodeAddress + k.sectionVirtualAddress := by
  unfold loadNamedKernel
  have hk : Safe (elf.loadableKernel name) := DeviceElf.loadableKernel_safe hnames
  cases hkernel : elf.loadableKernel name with
  | error e =>
    cases e with
    | panicked => exact absurd hkernel hk
    | returned e =>
      refine ⟨?_, nofun⟩
      rintro _ _ ⟨⟩
      exact ⟨rfl, nofun⟩
  | ok k =>
  obtain ⟨image, kernel, himage, hnamed, rfl, -, -, hsection⟩ := DeviceElf.loadableKernel_ok hkernel
  have hin := (DeviceElf.kernel_ok hnamed).1
  rw [himage]
  simp only [mapErr]
  cases hload : loadImage image reserved m with
  | mk r m₁ =>
  cases r with
  | error e =>
    obtain ⟨rfl, hne⟩ := loadImage_error hg _ _ hload
    cases e with
    | panicked => exact absurd rfl hne
    | returned e =>
      refine ⟨?_, nofun⟩
      rintro _ _ ⟨⟩
      exact ⟨rfl, nofun⟩
  | ok placement =>
    have hloaded := loadImage_ok hg hload
    simp only [loadedAddresses_eq hloaded hin hsection, Except.map, freeOnError]
    refine ⟨nofun, ?_⟩
    rintro _ _ ⟨⟩
    exact ⟨image, kernel.summary, rfl, rfl, hloaded, rfl, rfl, rfl⟩

/-! ## Fetching -/

theorem take_drop_eq_map {l : List UInt8} {n len : Nat} (h : n + len ≤ l.length) :
    (l.drop n).take len = (List.range len).map fun j => l.getD (n + j) 0 := by
  refine List.ext_getElem (by simp; omega) fun j h₁ h₂ => ?_
  have hj : n + j < l.length := by
    rw [List.length_take, List.length_drop] at h₁
    omega
  simp [List.getD_eq_getElem?_getD, List.getElem?_eq_getElem hj]

theorem getD_take_drop {l : List UInt8} {n len i : Nat} (hi : i < len) :
    ((l.drop n).take len).getD i 0 = l.getD (n + i) 0 := by
  rw [List.getD_eq_getElem?_getD, List.getD_eq_getElem?_getD, List.getElem?_take_of_lt hi, List.getElem?_drop]

/-- Fetching word `i` of a loaded kernel. -/
theorem fetch_word {loaded : LoadedDeviceKernel} (h : Loaded base bytes image loaded.placement m)
    (himage : elf.loadImage = .ok image) (hkernel : elf.loadableKernel name = .ok loaded.kernel)
    (hentry : loaded.entryAddress = loaded.placement.alignedCodeAddress + loaded.kernel.virtualAddress)
    (hstart : loaded.executableStartAddress =
      loaded.placement.alignedCodeAddress + loaded.kernel.sectionVirtualAddress)
    {i : Nat} (hi : i < loaded.kernel.byteCount / 4) :
    loaded.fetchExecutableWord (loaded.entryAddress + 4 * i) m = .ok (leValue
      (((elf.bytes.drop loaded.kernel.fileOffset).take loaded.kernel.byteCount).drop (4 * i) |>.take 4)) := by
  obtain ⟨image', kernel, himage', hnamed, hsummary, haligned, hfile, hsection⟩ := DeviceElf.loadableKernel_ok hkernel
  obtain rfl : image = image' := Except.ok.inj (himage.symm.trans himage')
  obtain ⟨hin, hwords, -, -⟩ := DeviceElf.kernel_ok hnamed
  rw [hsummary] at hin hwords
  obtain ⟨hfits, hsize, hbytes⟩ := DeviceElf.loadImage_ok himage
  have hend := h.good.span_end h.live
  have hstop := h.stop
  have hbase := h.start
  have hpc := h.aligned
  have hinStart := hin.start
  have hinStop := hin.stop
  set k := loaded.kernel with hk
  set code := loaded.placement.alignedCodeAddress with hcode
  have hcount : 4 * i + 4 ≤ k.byteCount := by omega
  -- The word lies in the live image, so its bytes are the image's.
  have hread : m.deviceToHost (code + k.virtualAddress + 4 * i) 4 =
      .ok ((List.range 4).map fun j => m.store.readByte (code + k.virtualAddress + 4 * i + j)) :=
    HbmPvMemory.deviceToHost_eq h.good h.live rfl (by dsimp only; omega) (by dsimp only; omega)
  have hword : (List.range 4).map (fun j => m.store.readByte (code + k.virtualAddress + 4 * i + j)) =
      (((elf.bytes.drop k.fileOffset).take k.byteCount).drop (4 * i)).take 4 := by
    rw [List.drop_take, List.drop_drop, List.take_take, Nat.min_eq_left (by omega), take_drop_eq_map (by omega)]
    refine List.map_congr_left fun j hj => ?_
    have hj := List.mem_range.mp hj
    have hcopied := h.copied (k.virtualAddress + 4 * i + j) (by omega)
    rw [← Nat.add_assoc, ← Nat.add_assoc] at hcopied
    rw [hcopied, hbytes, getD_take_drop (by omega), hfile]
    congr 1
    omega
  unfold LoadedDeviceKernel.fetchExecutableWord
  rw [hentry, hstart, ← hk]
  refine bind_ok.mpr ⟨(), failIf_ok.mpr (by simp [h.architecture]), ?_⟩
  refine bind_ok.mpr ⟨_, okOr_ok.mpr (if_pos (by omega)), ?_⟩
  refine bind_ok.mpr ⟨(), failIf_ok.mpr (by rw [bne_eq_false_iff_eq]; omega), ?_⟩
  refine bind_ok.mpr ⟨(), failIf_ok.mpr ?_, ?_⟩
  · rw [checkedAdd_eq_some.mpr ⟨by omega, rfl⟩, Option.all_some, decide_eq_false_iff_not]
    omega
  refine bind_ok.mpr ⟨_, mapErr_ok.mpr (h.good.resolveLive_eq h.live rfl (by decide) (by dsimp only; omega)
    (by dsimp only; omega)), ?_⟩
  refine bind_ok.mpr ⟨(), failIf_ok.mpr (by simp), ?_⟩
  exact bind_ok.mpr ⟨_, mapErr_ok.mpr hread, by rw [hword]⟩

/-- A pc outside the section, or not aligned, is refused. -/
theorem fetch_refused (loaded : LoadedDeviceKernel) (m : HbmPvMemory) {pc : Nat}
    (hpc : pc < loaded.executableStartAddress ∨
      loaded.executableStartAddress + loaded.kernel.sectionByteCount < pc + 4 ∨ pc % 4 ≠ 0) :
    Fails (loaded.fetchExecutableWord pc m) := by
  refine Fails.after (safe_failIf _ _) fun _ _ => Fails.after (safe_okOr _ _) fun relative hrelative => ?_
  refine Fails.after (safe_failIf _ _) fun _ hword => (fails_failIf _ ?_).bind
  have hrelative := okOr_ok.mp hrelative
  have hword := failIf_ok.mp hword
  rw [bne_eq_false_iff_eq] at hword
  split at hrelative
  · obtain rfl := Option.some.inj hrelative
    cases hadd : checkedAdd (pc - loaded.executableStartAddress) 4 with
    | none => rfl
    | some stop =>
      obtain ⟨-, rfl⟩ := checkedAdd_eq_some.mp hadd
      simp only [Option.all_some, decide_eq_true_eq]
      omega
  · cases hrelative

/-! ## Loading a named kernel -/

/-- In every reachable state of a memory, for every file: reading and loading it does not panic; a loaded kernel
    is fetched as it stands in the file as long as its image is left alone; and a load that fails changes nothing. -/
theorem load_named_kernel_fetches {architecture : Architecture} {defaultByte : UInt8} {maxPages : Nat}
    {m₀ : HbmPvMemory} {t : List (HbmPvMemory.MemoryCall × Outcome HbmPvMemoryError HbmPvMemory.MemoryReply)}
    (h₀ : HbmPvMemory.withRegion architecture base bytes defaultByte maxPages = .ok m₀)
    (hrun : Run (calls HbmPvMemory.exec) m₀ t m) (file : List UInt8) (name : String) (reserved : Bool) :
    Safe (parse file) ∧ ∀ elf, parse file = .ok elf → Safe elf.kernels ∧ Safe (elf.loadableKernel name) ∧
      (∀ span ∈ (loadNamedKernel elf name reserved m).2.allocator.spans, span.base + span.bytes < u64) ∧
      (∀ e m', loadNamedKernel elf name reserved m = (.error e, m') → e ≠ .panicked ∧ m' = m) ∧
      ∀ loaded m', loadNamedKernel elf name reserved m = (.ok loaded, m') →
        ∃ kernel, elf.kernel name = .ok kernel ∧ loaded.kernel = kernel.summary ∧
          kernel.bytes = (file.drop kernel.summary.fileOffset).take kernel.summary.byteCount ∧
          ∀ t' m'', Run (callsWhen (Untouched loaded.placement) HbmPvMemory.exec) m' t' m'' →
            (∀ i < kernel.summary.byteCount / 4, loaded.fetchExecutableWord (loaded.entryAddress + 4 * i) m'' =
              .ok (leValue ((kernel.bytes.drop (4 * i)).take 4))) ∧
            ∀ pc, pc < loaded.executableStartAddress ∨
                loaded.executableStartAddress + loaded.kernel.sectionByteCount < pc + 4 ∨ pc % 4 ≠ 0 →
              Fails (loaded.fetchExecutableWord pc m'') := by
  have hg := HbmPvMemory.good_run h₀ hrun
  refine ⟨parse_safe, fun elf helf => ?_⟩
  obtain ⟨rfl, hnames⟩ := parse_ok helf
  obtain ⟨herror, hok⟩ := loadNamedKernel_cases name reserved hg hnames
  refine ⟨DeviceElf.kernels_safe hnames, DeviceElf.loadableKernel_safe hnames, ?_, ?_, ?_⟩
  · intro span hspan
    cases hr : loadNamedKernel elf name reserved m with
    | mk r m' =>
    rw [hr] at hspan
    cases r with
    | error e =>
      rw [(herror e m' hr).1] at hspan
      exact hg.span_end hspan
    | ok loaded =>
      obtain ⟨_, _, -, -, hloaded, -⟩ := hok loaded m' hr
      exact hloaded.good.span_end hspan
  · intro e m' h
    exact ⟨(herror e m' h).2, (herror e m' h).1⟩
  · intro loaded m' h
    obtain ⟨image, k, hk, himage, hloaded, rfl, hentry, hstart⟩ := hok loaded m' h
    obtain ⟨-, kernel, -, hkernel, hsummary, -⟩ := DeviceElf.loadableKernel_ok hk
    have hbytes := (DeviceElf.kernel_ok hkernel).2.2.2
    refine ⟨kernel, hkernel, hsummary.symm, hbytes, fun t' m'' hrun' => ⟨fun i hi => ?_, fun pc hpc => ?_⟩⟩
    · rw [hbytes, hsummary]
      rw [hsummary] at hi
      exact fetch_word (hloaded.run hrun') himage hk hentry hstart hi
    · exact fetch_refused loaded m'' hpc

/-- `to_le_bytes`, in `size` bytes. -/
def leBytes (size value : Nat) : List UInt8 := (List.range size).map fun i => UInt8.ofNat (value / 256 ^ i)

/-- A file of one kernel of two words, its symbol and its names. -/
def twoWordFile : List UInt8 :=
  let header := [0x7f, 0x45, 0x4c, 0x46, 2, 1, 1] ++ leBytes 9 0 ++ leBytes 2 2 ++ leBytes 2 0x1029 ++ leBytes 4 1 ++
    leBytes 16 0 ++ leBytes 8 64 ++ leBytes 4 0 ++ leBytes 2 64 ++ leBytes 4 0 ++ leBytes 2 64 ++ leBytes 2 4 ++
    leBytes 2 3
  let row (name kind flags offset size link entry : Nat) := leBytes 4 name ++ leBytes 4 kind ++ leBytes 8 flags ++
    leBytes 8 0 ++ leBytes 8 offset ++ leBytes 8 size ++ leBytes 4 link ++ leBytes 12 0 ++ leBytes 8 entry
  let symbol := leBytes 4 1 ++ [0x12, 0] ++ leBytes 2 1 ++ leBytes 8 0 ++ leBytes 8 8
  header ++ row 0 0 0 0 0 0 0 ++ row 0 1 6 320 8 0 0 ++ row 0 2 0 328 24 3 24 ++ row 0 3 0 352 3 0 0 ++
    [1, 2, 3, 4, 5, 6, 7, 8] ++ symbol ++ [0, 0x4b, 0]

def emptyMemory : HbmPvMemory := ⟨.dav2201, ⟨0x10000, [⟨0x1000, 0x10000, false⟩]⟩, .new 0 2⟩

theorem load_named_kernel_fetches_two_words :
    ∃ elf loaded m', parse twoWordFile = .ok elf ∧ loadNamedKernel elf "K" true emptyMemory = (.ok loaded, m') ∧
      loaded.fetchExecutableWord (loaded.entryAddress + 4) m' = .ok 0x08070605 := by
  have hloads : ((parse twoWordFile).toOption.bind fun elf =>
      (loadNamedKernel elf "K" true emptyMemory).1.toOption.map fun loaded => loaded.entryAddress) = some 0x1000 := by
    decide +kernel
  have hkernels : ((parse twoWordFile).toOption.bind fun elf => (elf.kernel "K").toOption.map fun k =>
      (k.summary.byteCount, k.bytes)) = some (8, [1, 2, 3, 4, 5, 6, 7, 8]) := by
    decide +kernel
  cases hparse : parse twoWordFile with
  | error e => rw [hparse] at hloads; cases hloads
  | ok elf =>
  rw [hparse] at hloads hkernels
  cases hload : loadNamedKernel elf "K" true emptyMemory with
  | mk r m' =>
  cases r with
  | error e => simp [Except.toOption, hload] at hloads
  | ok loaded =>
  have h₀ : HbmPvMemory.withRegion .dav2201 0x1000 0x10000 0 2 = .ok emptyMemory := rfl
  obtain ⟨-, hall⟩ := load_named_kernel_fetches h₀ .nil twoWordFile "K" true
  obtain ⟨-, -, -, -, hok⟩ := hall elf hparse
  obtain ⟨kernel, hkernel, -, -, hfetch⟩ := hok loaded m' hload
  have hk : (kernel.summary.byteCount, kernel.bytes) = (8, [1, 2, 3, 4, 5, 6, 7, 8]) := by
    simpa [Except.toOption, hkernel] using hkernels
  obtain ⟨hcount, hbytes⟩ := Prod.mk.inj hk
  have hword := (hfetch [] m' .nil).1 1 (by rw [hcount]; decide)
  rw [hbytes] at hword
  exact ⟨elf, loaded, m', rfl, hload, hword⟩

end AscendEmulator.Image
