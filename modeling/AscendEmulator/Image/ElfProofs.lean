/-
  AscendEmulator.Image.ElfProofs — the ELF reader does not panic, and a kernel it finds loadable maps linearly
  from the file to the load image.
-/

import AscendEmulator.Image.Elf

namespace AscendEmulator.Image

open Lib Outcome

variable {bytes range : List UInt8} {offset length start stop : Nat}

/-! ## Fields -/

theorem getRange_some (h : getRange bytes start stop = some range) :
    start ≤ stop ∧ stop ≤ bytes.length ∧ range = (bytes.drop start).take (stop - start) ∧
      range.length = stop - start := by
  unfold getRange at h
  split at h
  · rename_i hle
    obtain rfl := Option.some.inj h
    refine ⟨hle.1, hle.2, rfl, ?_⟩
    rw [List.length_take, List.length_drop]
    omega
  · cases h

theorem checkedSlice_safe : Safe (checkedSlice bytes offset length) :=
  (safe_okOr _ _).bind fun _ _ => safe_okOr _ _

/-- A checked slice lies in the file. -/
theorem checkedSlice_ok (h : checkedSlice bytes offset length = .ok range) :
    offset + length < u64 ∧ offset + length ≤ bytes.length ∧ range = (bytes.drop offset).take length ∧
      range.length = length := by
  unfold checkedSlice at h
  obtain ⟨stop, hstop, h⟩ := bind_ok.mp h
  obtain ⟨hbound, rfl⟩ := checkedAdd_eq_some.mp (okOr_ok.mp hstop)
  obtain ⟨-, hle, hrange, hlen⟩ := getRange_some (okOr_ok.mp h)
  rw [Nat.add_sub_cancel_left] at hrange hlen
  exact ⟨hbound, hle, hrange, hlen⟩

theorem readLe_safe (size : Nat) : Safe (readLe size bytes offset) := (safe_okOr _ _).map

theorem readCString_safe : Safe (readCString bytes offset) :=
  (safe_okOr _ _).bind fun _ _ => (safe_okOr _ _).bind fun _ _ => safe_ok _

/-! ## The file -/

theorem readSection_safe (tableOffset index : Nat) : Safe (readSection bytes tableOffset index) := by
  unfold readSection
  refine (safe_okOr _ _).bind fun offset _ => checkedSlice_safe.bind fun record _ => ?_
  iterate 8 refine (readLe_safe _).bind fun _ _ => ?_
  exact safe_ok _

theorem checkFormat_safe (h : elfHeaderSize ≤ bytes.length) : Safe (checkFormat bytes) := by
  have hget : ∀ i < 64, (bytes[i]?).isSome = true := fun i hi => by
    rw [List.getElem?_eq_getElem (by exact Nat.lt_of_lt_of_le hi h)]
    rfl
  have hmagic : (getRange bytes 0 4).isSome = true := by
    rw [getRange, if_pos ⟨by omega, Nat.le_trans (by decide) h⟩]
    rfl
  unfold checkFormat
  refine (safe_expect hmagic).bind fun _ _ => (safe_expect (hget 4 (by decide))).bind fun _ _ => ?_
  refine (safe_expect (hget 5 (by decide))).bind fun _ _ => (safe_expect (hget 6 (by decide))).bind fun _ _ => ?_
  exact safe_failIf _ _

theorem sections_length {tableOffset count : Nat} {sections : List SectionHeader}
    (h : (List.range count).mapM (readSection bytes tableOffset) = .ok sections) : sections.length = count := by
  rw [← (mapM_ok h).length_eq, List.length_range]

theorem parse_safe : Safe (parse bytes) := by
  unfold parse
  refine (safe_failIf _ _).bind fun _ hlen => ?_
  have hlen : elfHeaderSize ≤ bytes.length := by simpa using failIf_ok.mp hlen
  refine (checkFormat_safe hlen).bind fun _ _ => (readLe_safe 4).bind fun elfVersion _ => ?_
  refine (safe_failIf _ _).bind fun _ _ => (readLe_safe 2).bind fun headerSize _ => ?_
  refine (safe_failIf _ _).bind fun _ _ => (readLe_safe 2).bind fun fileType _ => ?_
  refine (safe_failIf _ _).bind fun _ _ => (readLe_safe 2).bind fun machine _ => ?_
  refine (safe_failIf _ _).bind fun _ _ => (readLe_safe 8).bind fun tableOffset _ => ?_
  refine (readLe_safe 4).bind fun flags _ => (readLe_safe 2).bind fun headerBytes _ => ?_
  refine (readLe_safe 2).bind fun sectionCount _ => (readLe_safe 2).bind fun namesIndex _ => ?_
  refine (safe_failIf _ _).bind fun _ htable => checkedSlice_safe.bind fun _ _ => ?_
  refine (safe_mapM fun index _ => readSection_safe tableOffset index).bind fun sections hsections => ?_
  have hindex : (sections[namesIndex]?).isSome = true := by
    have hlt := failIf_ok.mp htable
    simp only [Bool.or_eq_false_iff, decide_eq_false_iff_not] at hlt
    rw [List.getElem?_eq_getElem (by rw [sections_length hsections]; omega)]
    rfl
  refine (safe_expect hindex).bind fun namesSection _ => (safe_failIf _ _).bind fun _ _ => ?_
  refine checkedSlice_safe.bind fun names _ => ?_
  exact (safe_mapM fun s _ => readCString_safe.map).bind fun sectionNames _ => safe_ok _

/-- A parsed file keeps its bytes, and has a name for each section. -/
theorem parse_ok {elf : DeviceElf} (h : parse bytes = .ok elf) :
    elf.bytes = bytes ∧ elf.sectionNames.length = elf.sections.length := by
  unfold parse at h
  iterate 17 obtain ⟨_, -, h⟩ := bind_ok.mp h
  obtain ⟨sections, -, h⟩ := bind_ok.mp h
  iterate 3 obtain ⟨_, -, h⟩ := bind_ok.mp h
  obtain ⟨sectionNames, hnames, h⟩ := bind_ok.mp h
  obtain rfl := Except.ok.inj h
  exact ⟨rfl, (mapM_ok hnames).length_eq.symm⟩

namespace DeviceElf

variable {elf : DeviceElf}

/-! ## The load image -/

/-- The first offset and the last range are found together. -/
theorem loadSpan_spec (sections : List SectionHeader) {first : Option Nat} {last : Option (Nat × Nat)}
    (hsome : first.isSome = last.isSome) :
    Safe (loadSpan sections first last) ∧
      ∀ first' last', loadSpan sections first last = .ok (first', last') → first'.isSome = last'.isSome := by
  induction sections generalizing first last with
  | nil =>
    refine ⟨safe_ok _, fun first' last' h => ?_⟩
    cases h
    exact hsome
  | cons s rest ih =>
    rw [loadSpan]
    split
    · exact ih hsome
    · refine ⟨?_, fun first' last' h => ?_⟩
      · refine (safe_failIf _ _).bind fun _ _ => (safe_okOr _ _).bind fun stop _ => ?_
        exact (safe_failIf _ _).bind fun _ _ => (ih (by simp)).1
      · obtain ⟨_, -, h⟩ := bind_ok.mp h
        obtain ⟨stop, -, h⟩ := bind_ok.mp h
        obtain ⟨_, -, h⟩ := bind_ok.mp h
        exact (ih (by simp)).2 first' last' h

theorem loadImage_safe : Safe elf.loadImage := by
  have hspan := loadSpan_spec elf.sections (show (none : Option Nat).isSome = (none : Option (Nat × Nat)).isSome from rfl)
  unfold loadImage
  refine hspan.1.bind fun ⟨first, last⟩ hok => ?_
  refine (safe_okOr _ _).bind fun fileOffset hfirst => ?_
  have hsome := hspan.2 first last hok
  rw [okOr_ok.mp hfirst] at hsome
  refine (safe_expect hsome.symm).bind fun ⟨_, stop⟩ _ => (safe_okOr _ _).bind fun byteCount _ => ?_
  exact checkedSlice_safe.bind fun image _ => safe_ok _

/-- The load image is a part of the file. -/
theorem loadImage_ok {image : DeviceLoadImage} (h : elf.loadImage = .ok image) :
    image.fileOffset + image.bytes.length ≤ elf.bytes.length ∧ image.bytes.length < u64 ∧
      image.bytes = (elf.bytes.drop image.fileOffset).take image.bytes.length := by
  unfold loadImage at h
  obtain ⟨⟨first, last⟩, -, h⟩ := bind_ok.mp h
  obtain ⟨fileOffset, -, h⟩ := bind_ok.mp h
  obtain ⟨⟨_, stop⟩, -, h⟩ := bind_ok.mp h
  obtain ⟨byteCount, -, h⟩ := bind_ok.mp h
  obtain ⟨range, hrange, h⟩ := bind_ok.mp h
  obtain rfl := Except.ok.inj h
  obtain ⟨hbound, hle, hrange, hlen⟩ := checkedSlice_ok hrange
  refine ⟨?_, ?_, ?_⟩
  · dsimp only
    omega
  · dsimp only
    omega
  · dsimp only
    rw [hlen]
    exact hrange

/-! ## Kernels -/

theorem kernelRange_safe (codeSection : SectionHeader) (virtualAddress byteCount : Nat) :
    Safe (elf.kernelRange codeSection virtualAddress byteCount) := by
  unfold kernelRange
  refine (safe_okOr _ _).bind fun _ _ => (safe_okOr _ _).bind fun _ _ => (safe_okOr _ _).bind fun _ _ => ?_
  exact (safe_failIf _ _).bind fun _ _ => (safe_okOr _ _).bind fun _ _ => checkedSlice_safe.bind fun _ _ => safe_ok _

theorem symbolKernel_safe {stringBytes symbol : List UInt8} (hnames : elf.sectionNames.length = elf.sections.length)
    (hsymbol : symbol.length = symbolSize) : Safe (elf.symbolKernel stringBytes symbol) := by
  have hinfo : (symbol[4]?).isSome = true := by
    rw [List.getElem?_eq_getElem (by rw [hsymbol]; decide)]
    rfl
  unfold symbolKernel
  refine (safe_expect hinfo).bind fun info _ => ?_
  split
  · exact safe_ok none
  refine (readLe_safe 4).bind fun nameOffset _ => ?_
  split
  · exact safe_ok none
  refine (readLe_safe 2).bind fun sectionIndex _ => ?_
  split
  · exact safe_ok none
  rename_i codeSection hsection
  split
  · exact safe_ok none
  refine (readLe_safe 8).bind fun byteCount _ => ?_
  split
  · exact safe_ok none
  refine (readLe_safe 8).bind fun virtualAddress _ => (kernelRange_safe _ _ _).bind fun fileOffset _ => ?_
  refine readCString_safe.bind fun nameBytes _ => ?_
  have hname : (elf.sectionNames[sectionIndex]?).isSome = true := by
    obtain ⟨hlt, -⟩ := List.getElem?_eq_some_iff.mp hsection
    rw [List.getElem?_eq_getElem (by rw [hnames]; exact hlt)]
    rfl
  exact (safe_expect hname).bind fun sectionName _ => safe_ok _

theorem length_of_mem_chunksExact {size : Nat} {chunk : List UInt8} (h : chunk ∈ chunksExact size bytes) :
    chunk.length = size := by
  obtain ⟨index, hindex, rfl⟩ := List.mem_map.mp h
  have hlt : index + 1 ≤ bytes.length / size := List.mem_range.mp hindex
  have hle : (index + 1) * size ≤ bytes.length :=
    Nat.le_trans (Nat.mul_le_mul_right size hlt) (Nat.div_mul_le_self bytes.length size)
  rw [Nat.succ_mul] at hle
  rw [List.length_take, List.length_drop]
  omega

theorem kernels_safe (hnames : elf.sectionNames.length = elf.sections.length) : Safe elf.kernels := by
  refine (safe_mapM fun s _ => ?_).bind fun found _ => safe_ok _
  unfold sectionKernels
  split
  · exact safe_ok []
  refine (safe_failIf _ _).bind fun _ _ => (safe_okOr _ _).bind fun stringSection _ => ?_
  refine (safe_failIf _ _).bind fun _ _ => checkedSlice_safe.bind fun stringBytes _ => ?_
  refine checkedSlice_safe.bind fun symbolBytes _ => ?_
  exact (safe_mapM fun symbol hs => symbolKernel_safe hnames (length_of_mem_chunksExact hs)).bind fun found _ =>
    safe_ok _

theorem kernel_safe {name : String} (hnames : elf.sectionNames.length = elf.sections.length) : Safe (elf.kernel name) := by
  refine (kernels_safe hnames).bind fun found _ => (safe_okOr _ _).bind fun summary _ => ?_
  refine (safe_failIf _ _).bind fun _ _ => (safe_failIf _ _).bind fun _ _ => ?_
  exact checkedSlice_safe.bind fun kernelBytes _ => safe_ok _

theorem loadableKernel_safe {name : String} (hnames : elf.sectionNames.length = elf.sections.length) :
    Safe (elf.loadableKernel name) := by
  have hlinear : ∀ offset imageOffset address, Safe (linearOffset offset imageOffset address) := fun _ _ _ =>
    (safe_okOr _ _).bind fun _ _ => (safe_failIf _ _).bind fun _ _ => safe_ok _
  refine loadImage_safe.bind fun image _ => (kernel_safe hnames).bind fun kernel _ => ?_
  refine (safe_failIf _ _).bind fun _ _ => (hlinear _ _ _).bind fun kernelOffset _ => ?_
  refine (hlinear _ _ _).bind fun sectionOffset _ => checkedSlice_safe.mapErr.bind fun _ _ => ?_
  exact checkedSlice_safe.mapErr.bind fun _ _ => safe_ok _

/-- The kernel lies in its section, at the same distance in the file as in memory. -/
structure InSection (k : DeviceKernelSummary) : Prop where
  start : k.sectionVirtualAddress ≤ k.virtualAddress
  stop : k.virtualAddress + k.byteCount ≤ k.sectionVirtualAddress + k.sectionByteCount

theorem kernelRange_ok {codeSection : SectionHeader} {virtualAddress byteCount fileOffset : Nat}
    (h : elf.kernelRange codeSection virtualAddress byteCount = .ok fileOffset) :
    codeSection.address ≤ virtualAddress ∧ virtualAddress + byteCount ≤ codeSection.address + codeSection.byteCount := by
  unfold kernelRange at h
  obtain ⟨_, -, h⟩ := bind_ok.mp h
  obtain ⟨relative, hrelative, h⟩ := bind_ok.mp h
  obtain ⟨relativeEnd, hend, h⟩ := bind_ok.mp h
  obtain ⟨_, hle, -⟩ := bind_ok.mp h
  have hrelative := okOr_ok.mp hrelative
  split at hrelative
  · rename_i hstart
    obtain rfl := Option.some.inj hrelative
    obtain ⟨-, rfl⟩ := checkedAdd_eq_some.mp (okOr_ok.mp hend)
    have hle := failIf_ok.mp hle
    simp only [decide_eq_false_iff_not, Nat.not_lt] at hle
    exact ⟨hstart, by omega⟩
  · cases hrelative

theorem symbolKernel_ok {stringBytes symbol : List UInt8} {k : DeviceKernelSummary}
    (h : elf.symbolKernel stringBytes symbol = .ok (some k)) : InSection k := by
  unfold symbolKernel at h
  obtain ⟨info, -, h⟩ := bind_ok.mp h
  split at h
  · cases h
  obtain ⟨nameOffset, -, h⟩ := bind_ok.mp h
  split at h
  · cases h
  obtain ⟨sectionIndex, -, h⟩ := bind_ok.mp h
  split at h
  · cases h
  split at h
  · cases h
  obtain ⟨byteCount, -, h⟩ := bind_ok.mp h
  split at h
  · cases h
  obtain ⟨virtualAddress, -, h⟩ := bind_ok.mp h
  obtain ⟨fileOffset, hrange, h⟩ := bind_ok.mp h
  obtain ⟨nameBytes, -, h⟩ := bind_ok.mp h
  obtain ⟨sectionName, -, h⟩ := bind_ok.mp h
  obtain rfl := Option.some.inj (Except.ok.inj h)
  obtain ⟨hstart, hstop⟩ := kernelRange_ok hrange
  exact ⟨hstart, hstop⟩

theorem kernels_ok {found : List DeviceKernelSummary} (h : elf.kernels = .ok found) {k : DeviceKernelSummary}
    (hk : k ∈ found) : InSection k := by
  unfold kernels at h
  obtain ⟨lists, hlists, h⟩ := bind_ok.mp h
  obtain rfl := Except.ok.inj h
  obtain ⟨l, hl, hkl⟩ := List.mem_flatten.mp hk
  obtain ⟨s, -, hs⟩ := exists_of_mem_mapM hlists hl
  unfold sectionKernels at hs
  split at hs
  · obtain rfl := Except.ok.inj hs
    cases hkl
  obtain ⟨_, -, hs⟩ := bind_ok.mp hs
  obtain ⟨_, -, hs⟩ := bind_ok.mp hs
  obtain ⟨_, -, hs⟩ := bind_ok.mp hs
  obtain ⟨stringBytes, -, hs⟩ := bind_ok.mp hs
  obtain ⟨symbolBytes, -, hs⟩ := bind_ok.mp hs
  obtain ⟨symbols, hsymbols, hs⟩ := bind_ok.mp hs
  obtain rfl := Except.ok.inj hs
  obtain ⟨found, hfound, rfl⟩ : ∃ found ∈ symbols, found = some k := by simpa using hkl
  obtain ⟨symbol, -, hsymbol⟩ := exists_of_mem_mapM hsymbols hfound
  exact symbolKernel_ok hsymbol

/-- The kernel of a name is whole words, read from the file. -/
theorem kernel_ok {name : String} {k : DeviceKernel} (h : elf.kernel name = .ok k) :
    InSection k.summary ∧ k.summary.byteCount % 4 = 0 ∧ k.bytes.length = k.summary.byteCount ∧
      k.bytes = (elf.bytes.drop k.summary.fileOffset).take k.summary.byteCount := by
  unfold kernel at h
  obtain ⟨found, hfound, h⟩ := bind_ok.mp h
  obtain ⟨summary, hsummary, h⟩ := bind_ok.mp h
  obtain ⟨_, -, h⟩ := bind_ok.mp h
  obtain ⟨_, hwords, h⟩ := bind_ok.mp h
  obtain ⟨range, hrange, h⟩ := bind_ok.mp h
  obtain rfl := Except.ok.inj h
  obtain ⟨-, -, hrange, hlen⟩ := checkedSlice_ok hrange
  have hmem := List.mem_of_mem_head? (okOr_ok.mp hsummary)
  exact ⟨kernels_ok hfound (List.mem_of_mem_filter hmem), by simpa using failIf_ok.mp hwords, hlen, hrange⟩

theorem linearOffset_ok {imageOffset address relative : Nat}
    (h : linearOffset offset imageOffset address = .ok relative) : relative = address ∧ offset = imageOffset + address := by
  unfold linearOffset at h
  obtain ⟨d, hd, h⟩ := bind_ok.mp h
  obtain ⟨_, heq, h⟩ := bind_ok.mp h
  obtain rfl := Except.ok.inj h
  have hd := okOr_ok.mp hd
  have heq := failIf_ok.mp heq
  split at hd
  · rename_i hle
    obtain rfl := Option.some.inj hd
    obtain rfl : offset - imageOffset = address := by simpa using heq
    exact ⟨rfl, by omega⟩
  · cases hd

/-- A loadable kernel is in the image at its virtual address, and so is its section. -/
theorem loadableKernel_ok {name : String} {k : DeviceKernelSummary} (h : elf.loadableKernel name = .ok k) :
    ∃ image kernel, elf.loadImage = .ok image ∧ elf.kernel name = .ok kernel ∧ kernel.summary = k ∧
      k.virtualAddress % 4 = 0 ∧ k.fileOffset = image.fileOffset + k.virtualAddress ∧
      k.sectionVirtualAddress + k.sectionByteCount ≤ image.bytes.length := by
  unfold loadableKernel at h
  obtain ⟨image, himage, h⟩ := bind_ok.mp h
  obtain ⟨kernel, hkernel, h⟩ := bind_ok.mp h
  obtain ⟨_, haligned, h⟩ := bind_ok.mp h
  obtain ⟨kernelOffset, hkernelOffset, h⟩ := bind_ok.mp h
  obtain ⟨sectionOffset, hsectionOffset, h⟩ := bind_ok.mp h
  obtain ⟨sectionRange, hsectionRange, h⟩ := bind_ok.mp h
  obtain ⟨kernelRange, -, h⟩ := bind_ok.mp h
  obtain rfl := Except.ok.inj h
  obtain ⟨-, hfile⟩ := linearOffset_ok hkernelOffset
  obtain ⟨rfl, -⟩ := linearOffset_ok hsectionOffset
  obtain ⟨-, hle, -⟩ := checkedSlice_ok (mapErr_ok.mp hsectionRange)
  exact ⟨image, kernel, himage, hkernel, rfl, by simpa using failIf_ok.mp haligned, hfile, hle⟩

end DeviceElf

end AscendEmulator.Image
