/-
  AscendEmulator.C220.Fixp.LayoutProofs — the slices of a FIX transfer read every column once and write apart.

  A destination is addressed by three numbers: the block column or matrix, the row, and the place in the row
  (`levels_apart`). Each layout is one way to split a slice's coordinates into these.

  - `slices_lanes`: the lanes of the slices are the columns of every row, in order.
  - `slices_apart`: no byte is written by two slices, where strides leave room for what lies under them.
-/

import AscendEmulator.C220.Fixp.Layout
import AscendEmulator.Lib.Span
import Mathlib.Data.List.ProdSigma

namespace AscendEmulator.C220.Fixp

open Lib

/-! ## Formats -/

namespace OutputFormat

/-- The bytes of complete elements, without the wrap of 32 bits. -/
def stored (format : OutputFormat) (lanes : Nat) : Nat :=
  match format with
  | .int4 => lanes / 2
  | .bits8 => lanes
  | .fp32 | .int32 => lanes * 4
  | .fp16 | .bf16 | .int16 => lanes * 2

variable (format : OutputFormat)

theorem storageBytes_eq {lanes : Nat} (h : format.stored lanes < u32) :
    format.storageBytes lanes = format.stored lanes := by
  cases format <;> first | rfl | exact Nat.mod_eq_of_lt h

theorem stored_mono {a b : Nat} (h : a ≤ b) : format.stored a ≤ format.stored b := by
  cases format <;> simp only [stored] <;> omega

theorem stored_add (a b : Nat) : format.stored a + format.stored b ≤ format.stored (a + b) := by
  cases format <;> simp only [stored] <;> omega

/-- Strides of `step` lanes leave room for what one of them holds. -/
theorem stored_step {step room i j : Nat} (hroom : room ≤ format.stored step) (h : i < j) :
    format.stored (i * step) + room ≤ format.stored (j * step) :=
  calc format.stored (i * step) + room ≤ format.stored (i * step) + format.stored step := Nat.add_le_add_left hroom _
    _ ≤ format.stored (i * step + step) := format.stored_add _ _
    _ = format.stored ((i + 1) * step) := by rw [Nat.succ_mul]
    _ ≤ format.stored (j * step) := format.stored_mono (Nat.mul_le_mul_right _ h)

/-- Blocks of 16 lanes are stored one behind the other, and a tail behind them. -/
theorem stored_block (block lanes : Nat) :
    format.stored (block * 16 + lanes) = block * format.stored 16 + format.stored lanes := by
  cases format <;> simp only [stored] <;> omega

theorem stored_le (lanes : Nat) : format.stored lanes ≤ lanes * 4 := by
  cases format <;> simp only [stored] <;> omega

end OutputFormat

namespace Layout

/-- What `new` fixes of the format by the mode. -/
structure Built (l : Layout) : Prop where
  format : OutputFormat.fromConversionMode l.sourceFormat l.descriptor.conversionMode = some l.format

theorem built_of_new {d : Descriptor} {sourceFormat : SourceFormat} {source destination : UInt64} {l : Layout}
    (h : new d sourceFormat source destination = .ok l) : l.Built := by
  unfold new at h
  split at h
  · cases h
  · rename_i format hformat
    cases h
    exact ⟨hformat⟩

variable {l : Layout}

/-- A word of 32 bits is stored as it is read. -/
theorem wide_mode {sourceFormat : SourceFormat} {mode : Nat} {format : OutputFormat}
    (h : OutputFormat.fromConversionMode sourceFormat mode = some format)
    (hwide : format = .fp32 ∨ format = .int32) : mode = 0 ∧ sourceFormat.laneBytes = 4 ∧ format.stored 8 = 32 := by
  unfold OutputFormat.fromConversionMode at h
  split_ifs at h with _ _ _ hmode <;> try (cases h; simp at hwide)
  cases sourceFormat <;> cases h <;> exact ⟨hmode, rfl, rfl⟩

theorem Built.split (h : l.Built) (hs : l.split = true) :
    l.sourceFormat.laneBytes = 4 ∧ l.format.stored 8 = 32 ∧ l.byteMerge = false ∧ l.nibbleMerge = false ∧
      l.descriptor.nzToNd = false := by
  simp only [Layout.split, Bool.and_eq_true, decide_eq_true_eq, Bool.not_eq_true'] at hs
  obtain ⟨hmode, hlane, hstored⟩ := wide_mode h.format hs.1.1
  refine ⟨hlane, hstored, ?_, ?_, hs.2⟩
  · simp [Layout.byteMerge, hmode]
  · simp [Layout.nibbleMerge, hmode]

theorem Built.byteMerge (h : l.Built) (hb : l.byteMerge = true) :
    l.format = .bits8 ∧ l.split = false ∧ l.nibbleMerge = false ∧ l.descriptor.nzToNd = false := by
  simp only [Layout.byteMerge, Bool.and_eq_true, decide_eq_true_eq, Bool.not_eq_true', List.mem_cons,
    List.not_mem_nil, or_false] at hb
  have hf := h.format
  have hformat : l.format = .bits8 := by
    rcases hb.1 with hm | hm | hm | hm <;> rw [hm] at hf <;> exact (Option.some.inj hf).symm
  refine ⟨hformat, by simp [Layout.split, hformat], ?_, hb.2⟩
  rcases hb.1 with hm | hm | hm | hm <;> simp [Layout.nibbleMerge, hm]

theorem Built.nibbleMerge (h : l.Built) (hb : l.nibbleMerge = true) :
    l.format = .int4 ∧ l.split = false ∧ l.byteMerge = false ∧ l.descriptor.nzToNd = false := by
  simp only [Layout.nibbleMerge, Bool.and_eq_true, decide_eq_true_eq, Bool.not_eq_true', List.mem_cons,
    List.not_mem_nil, or_false] at hb
  have hf := h.format
  have hformat : l.format = .int4 := by
    rcases hb.1.1 with hm | hm | hm | hm <;> rw [hm] at hf <;> exact (Option.some.inj hf).symm
  refine ⟨hformat, by simp [Layout.split, hformat], ?_, hb.1.2⟩
  rcases hb.1.1 with hm | hm | hm | hm <;> simp [Layout.byteMerge, hm]

/-! ## Columns -/

theorem columns_lt (d : Descriptor) : d.columns < 4096 := by
  unfold Descriptor.columns
  rw [UInt64.toNat_and]
  exact Nat.lt_succ_of_le Nat.and_le_right

theorem rows_lt (d : Descriptor) : d.rows < 2 ^ 16 := UInt16.toNat_lt _

theorem ndCount_lt (d : Descriptor) : d.ndCount < 2 ^ 16 := UInt16.toNat_lt _

/-- The columns from one block to the next. -/
def width (l : Layout) : Nat := if l.split then 8 else 16

/-- The columns a slice's lanes are of. -/
def columnsOf (l : Layout) (s : Slice) : List Nat := List.range' (s.columnBlock * l.width) s.lanes

/-- Where a column of the accumulator is read. -/
def columnAddress (l : Layout) (ndIndex row column : Nat) : Nat :=
  (l.source + (if l.descriptor.nzToNd then l.sourceNd ndIndex else 0) + row * l.sourceRowBytes +
    column / 16 * l.sourceRowBytes % u32 * l.descriptor.sourceStride % u32 +
    column % 16 * l.sourceFormat.laneBytes) % u64

/-- The columns of a row's slices, with those that fill up the last. -/
def coveredColumns (l : Layout) : Nat :=
  if l.split ∨ l.byteMerge ∨ l.descriptor.nzToNd then l.descriptor.columns else (l.descriptor.columns + 15) / 16 * 16

/-- Column counts that the cut blocks are made for. -/
structure Whole (l : Layout) : Prop where
  split : l.split = true → l.descriptor.columns % 8 = 0
  byteMerge : l.byteMerge = true → l.descriptor.columns % 16 = 0

theorem range'_zero_append (a b : Nat) : List.range' 0 a ++ List.range' a b = List.range' 0 (a + b) := by
  simpa using @List.range'_append_1 0 a b

/-- Blocks of `w` columns, but for the last. -/
theorem flatMap_blocks {n w : Nat} {lanes : Nat → Nat} (hlanes : ∀ b < n, lanes b = w) :
    ((List.range (n + 1)).flatMap fun b => List.range' (b * w) (lanes b)) = List.range' 0 (n * w + lanes n) := by
  have hwhole : ((List.range n).flatMap fun b => List.range' (b * w) (lanes b)) = List.range' 0 (n * w) := by
    induction n with
    | zero => simp
    | succ n ih =>
      rw [List.range_succ, List.flatMap_append, ih fun b hb => hlanes b (by omega), List.flatMap_singleton,
        hlanes n (by omega), range'_zero_append, Nat.succ_mul]
  rw [List.range_succ, List.flatMap_append, hwhole, List.flatMap_singleton, range'_zero_append]

theorem lanes_of_lt {block : Nat} (h : block + 1 < l.blocks) : l.lanes block = l.width := by
  unfold lanes width
  by_cases hs : l.split = true
  · simp [hs]
  · simp [hs, h.ne]

theorem blocks_lt (l : Layout) : l.blocks < 2 ^ 16 := by
  have := columns_lt l.descriptor
  unfold blocks mergedBlocks
  dsimp only
  split_ifs <;> omega

/-- The blocks of a row, and what the last one fills up. -/
theorem coveredColumns_eq (h : l.Built) (hw : l.Whole) :
    l.blocks = 0 ∧ l.coveredColumns = 0 ∨
      ∃ n, l.blocks = n + 1 ∧ l.coveredColumns = n * l.width + l.lanes n := by
  have hcases : l.blocks = 0 ∧ l.coveredColumns = 0 ∨
      0 < l.blocks ∧ l.coveredColumns = (l.blocks - 1) * l.width + l.lanes (l.blocks - 1) := by
    by_cases hb : l.byteMerge = true
    · obtain ⟨-, hs, -, hnd⟩ := h.byteMerge hb
      have hcolumns := hw.byteMerge hb
      simp only [blocks, coveredColumns, width, mergedBlocks, lanes, hb, hs, hnd]
      simp
      split_ifs <;> omega
    · by_cases hs : l.split = true
      · obtain ⟨-, -, -, -, hnd⟩ := h.split hs
        have hcolumns := hw.split hs
        simp only [blocks, coveredColumns, width, lanes, hb, hs, hnd]
        simp
        split_ifs <;> omega
      · by_cases hnd : l.descriptor.nzToNd = true
        · simp only [blocks, coveredColumns, width, lanes, hb, hs, hnd]
          simp
          split_ifs <;> omega
        · simp only [blocks, coveredColumns, width, lanes, hb, hs, hnd]
          simp
          omega
  rcases hcases with hzero | ⟨hpos, hcovered⟩
  · exact .inl hzero
  · exact .inr ⟨l.blocks - 1, by omega, hcovered⟩

theorem row_covered (h : l.Built) (hw : l.Whole) (ndIndex row : Nat) :
    ((List.range l.blocks).flatMap fun block => l.columnsOf (l.slice ndIndex row block)) =
      List.range l.coveredColumns := by
  have hcolumns : ((List.range l.blocks).flatMap fun block => l.columnsOf (l.slice ndIndex row block)) =
      (List.range l.blocks).flatMap fun b => List.range' (b * l.width) (l.lanes b) := by
    refine flatMap_congr_range fun b hb => ?_
    have hlt := l.blocks_lt
    simp only [columnsOf, slice]
    rw [Nat.mod_eq_of_lt (by omega)]
  rw [hcolumns]
  rcases coveredColumns_eq h hw with ⟨hzero, hcovered⟩ | ⟨n, hn, hcovered⟩
  · rw [hzero, hcovered]
    rfl
  · rw [hn, hcovered, flatMap_blocks fun b hb => lanes_of_lt (by omega), List.range_eq_range']

theorem lanes_le (block : Nat) : l.lanes block ≤ l.width := by
  unfold lanes width
  dsimp only
  split_ifs <;> omega

/-- Blocks of 8 columns lie in halves of a row, which do not wrap. -/
theorem sourceBlock_split (hs : l.split = true) (hlane : l.sourceFormat.laneBytes = 4) (block : Nat) :
    l.sourceBlock block =
      block / 2 * l.sourceRowBytes % u32 * l.descriptor.sourceStride % u32 + block % 2 * 32 := by
  have hrow : l.sourceRowBytes = 64 := by rw [sourceRowBytes, hlane]
  have hdvd : 64 ∣ block / 2 * l.sourceRowBytes % u32 * l.descriptor.sourceStride % u32 := by
    have hword : 64 ∣ u32 := by decide
    rw [hrow, Nat.dvd_mod_iff hword]
    exact Dvd.dvd.mul_right ((Nat.dvd_mod_iff hword).mpr (Nat.dvd_mul_left 64 _)) _
  have hlt : block / 2 * l.sourceRowBytes % u32 * l.descriptor.sourceStride % u32 < 2 ^ 32 :=
    Nat.mod_lt _ (by decide)
  rw [sourceBlock, if_pos hs, if_pos hs]
  refine Nat.mod_eq_of_lt ?_
  change _ < 2 ^ 32
  omega

/-- A lane is read at its column's address. -/
theorem lane_address (h : l.Built) {block i : Nat} (hi : i < l.lanes block) (ndIndex row : Nat) :
    (l.sourceAddress ndIndex row block + i * l.sourceFormat.laneBytes) % u64 =
      l.columnAddress ndIndex row (block * l.width + i) := by
  have hle := l.lanes_le block
  rw [sourceAddress, Nat.mod_add_mod, columnAddress]
  unfold width at hle ⊢
  by_cases hs : l.split = true
  · obtain ⟨hlane, -⟩ := h.split hs
    rw [if_pos hs] at hle ⊢
    rw [sourceBlock_split hs hlane, show (block * 8 + i) / 16 = block / 2 by omega,
      show (block * 8 + i) % 16 = block % 2 * 8 + i by omega, hlane]
    congr 1
    omega
  · rw [if_neg hs] at hle ⊢
    rw [show (block * 16 + i) / 16 = block by omega, show (block * 16 + i) % 16 = i by omega, sourceBlock, if_neg hs,
      if_neg hs, Nat.add_zero, Nat.mod_mod]

/-- The matrices, the rows and the columns of them that are read. -/
def grid (l : Layout) (columns : Nat) : List (Nat × Nat × Nat) :=
  (List.range (if l.descriptor.nzToNd then l.descriptor.ndCount else 1)).flatMap fun ndIndex =>
    (List.range l.descriptor.rows).flatMap fun row => (List.range columns).map fun column => (ndIndex, row, column)

/-- The places of a slice's lanes. -/
def lanesOf (l : Layout) (s : Slice) : List (Nat × Nat × Nat) :=
  (l.columnsOf s).map fun column => (s.ndIndex, s.row, column)

theorem slices_lanes (h : l.Built) (hw : l.Whole) (hextents : l.descriptor.isDisabled = false) :
    l.slices.flatMap l.lanesOf = l.grid l.coveredColumns := by
  unfold slices grid ndCount
  rw [hextents, List.flatMap_assoc]
  refine flatMap_congr_range fun ndIndex _ => ?_
  rw [List.flatMap_assoc]
  refine flatMap_congr_range fun row _ => ?_
  rw [List.flatMap_map, ← row_covered h hw ndIndex row, List.map_flatMap]
  rfl

/-! ## Destinations -/

/-- Two ranges of bytes have none in common. -/
def RangesApart (start size start' size' : Nat) : Prop := start + size ≤ start' ∨ start' + size' ≤ start

/-- Ranges at three levels: a range lies in its row, a row in its column, and a column before the next. -/
theorem levels_apart (A depth pitch : Nat → Nat) (B C size : Nat → Nat → Nat) (valid : Nat → Nat → Prop) {rows : Nat}
    (hA : ∀ a a', a < a' → A a + depth a ≤ A a') (hB : ∀ a r r', r < r' → B a r + pitch a ≤ B a r')
    (hBA : ∀ a r, r < rows → B a r + pitch a ≤ depth a)
    (hC : ∀ a c c', valid a c' → c < c' → C a c + size a c ≤ C a c')
    (hCB : ∀ a c, valid a c → C a c + size a c ≤ pitch a)
    {a r c a' r' c' : Nat} (hr : r < rows) (hr' : r' < rows) (hc : valid a c) (hc' : valid a' c')
    (hne : ¬ (a = a' ∧ r = r' ∧ c = c')) :
    RangesApart (A a + B a r + C a c) (size a c) (A a' + B a' r' + C a' c') (size a' c') := by
  have hrow := hCB a c hc
  have hrow' := hCB a' c' hc'
  have hcolumn := hBA a r hr
  have hcolumn' := hBA a' r' hr'
  unfold RangesApart
  rcases Nat.lt_trichotomy a a' with ha | rfl | ha
  · have := hA a a' ha
    omega
  · rcases Nat.lt_trichotomy r r' with hrr | rfl | hrr
    · have := hB a r r' hrr
      omega
    · rcases Nat.lt_trichotomy c c' with hcc | rfl | hcc
      · have := hC a c c' hc' hcc
        omega
      · exact absurd ⟨rfl, rfl, rfl⟩ hne
      · have := hC a c' c hc hcc
        omega
    · have := hB a r' r hrr
      omega
  · have := hA a' a ha
    omega

/-- The bytes that a row takes in a block column. -/
def pitch (l : Layout) : Nat := if l.split ∨ l.nibbleMerge ∨ l.byteMerge then 32 else l.format.stored 16

/-- Strides leave room for what is written under them, and no product of 32 bits wraps. -/
structure Roomy (l : Layout) : Prop where
  columns : l.descriptor.nzToNd = false → l.descriptor.rows * l.pitch ≤ l.descriptor.destinationStride * 32
  columnWord : l.descriptor.nzToNd = false → l.descriptor.destinationStride * 32 < u32
  rows : l.descriptor.nzToNd = true →
    l.format.stored l.descriptor.columns ≤ l.format.stored l.descriptor.destinationStride
  rowWord : l.descriptor.nzToNd = true → ∀ row < l.descriptor.rows,
    row * l.descriptor.destinationStride < u32 ∧ l.format.stored (row * l.descriptor.destinationStride) < u32
  matrices : l.descriptor.nzToNd = true → l.format.stored (l.descriptor.rows * l.descriptor.destinationStride) ≤
    l.format.stored l.descriptor.destinationNdStride
  matrixWord : l.descriptor.nzToNd = true → ∀ ndIndex < l.descriptor.ndCount,
    ndIndex * l.descriptor.destinationNdStride < u32 ∧
      l.format.stored (ndIndex * l.descriptor.destinationNdStride) < u32

theorem stored_word {lanes : Nat} (h : lanes ≤ 4096) (format : OutputFormat) :
    format.storageBytes lanes = format.stored lanes := by
  have := format.stored_le lanes
  exact format.storageBytes_eq (show format.stored lanes < 2 ^ 32 by omega)

theorem lanes_le_sixteen (block : Nat) : l.lanes block ≤ 16 := by
  have := l.lanes_le block
  unfold width at this
  split_ifs at this <;> omega

theorem lanes_plain (hs : l.split = false) (hnd : l.descriptor.nzToNd = false) (block : Nat) : l.lanes block = 16 := by
  simp [lanes, hs, hnd]

/-- The slices of a transfer, by matrix, row and block. -/
def Valid (l : Layout) (ndIndex row block : Nat) : Prop :=
  ndIndex < l.ndCount ∧ row < l.descriptor.rows ∧ block < l.blocks

variable {n r b n' r' b' : Nat}

/-- The slices of two blocks or rows are apart. -/
def Apart (l : Layout) (n r b n' r' b' : Nat) : Prop :=
  RangesApart (l.destinationOffset n r b) (l.format.storageBytes (l.lanes b)) (l.destinationOffset n' r' b')
    (l.format.storageBytes (l.lanes b'))

theorem ndCount_nd (hnd : l.descriptor.nzToNd = true) : l.ndCount ≤ l.descriptor.ndCount := by
  unfold ndCount
  split_ifs <;> omega

theorem ndCount_plain (hnd : l.descriptor.nzToNd = false) : l.ndCount ≤ 1 := by
  unfold ndCount
  rw [hnd]
  split_ifs <;> simp_all

theorem apart_nd (hr : l.Roomy) (hs : l.split = false) (hb : l.byteMerge = false) (hnd : l.descriptor.nzToNd = true)
    (h : l.Valid n r b) (h' : l.Valid n' r' b') (hne : ¬ (n = n' ∧ r = r' ∧ b = b')) : l.Apart n r b n' r' b' := by
  have hblocks : l.blocks = (l.descriptor.columns + 15) / 16 := by simp [blocks, hs, hb]
  have hoffset {n r b : Nat} (h : l.Valid n r b) : l.destinationOffset n r b =
      l.format.stored (n * l.descriptor.destinationNdStride) +
        l.format.stored (r * l.descriptor.destinationStride) + b * l.format.stored 16 := by
    obtain ⟨hmatrix, hmatrix'⟩ := hr.matrixWord hnd n (h.1.trans_le (ndCount_nd hnd))
    obtain ⟨hrow, hrow'⟩ := hr.rowWord hnd r h.2.1
    simp only [destinationOffset, hnd, if_true]
    rw [Nat.mod_eq_of_lt hmatrix, Nat.mod_eq_of_lt hrow, l.format.storageBytes_eq hmatrix',
      l.format.storageBytes_eq hrow', stored_word (by omega)]
  have hlanes (b : Nat) : l.format.storageBytes (l.lanes b) = l.format.stored (l.lanes b) :=
    stored_word ((lanes_le_sixteen b).trans (by omega)) _
  have hend {b : Nat} (hlt : b < l.blocks) : b * 16 + l.lanes b ≤ l.descriptor.columns := by
    simp only [lanes, hs, hnd]
    simp
    split_ifs with hlast <;> omega
  unfold Apart
  rw [hoffset h, hoffset h', hlanes, hlanes]
  refine levels_apart (fun n => l.format.stored (n * l.descriptor.destinationNdStride))
    (fun _ => l.format.stored (l.descriptor.rows * l.descriptor.destinationStride))
    (fun _ => l.format.stored l.descriptor.columns)
    (fun _ r => l.format.stored (r * l.descriptor.destinationStride)) (fun _ b => b * l.format.stored 16)
    (fun _ b => l.format.stored (l.lanes b)) (fun _ b => b < l.blocks)
    (fun n n' hlt => ?_) (fun _ r r' hlt => ?_) (fun _ r hlt => ?_) (fun _ b b' _ hlt => ?_) (fun _ b hlt => ?_)
    h.2.1 h'.2.1 h.2.2 h'.2.2 hne
  · exact l.format.stored_step (hr.matrices hnd) hlt
  · exact l.format.stored_step (hr.rows hnd) hlt
  · exact l.format.stored_step (hr.rows hnd) hlt
  · have hblock := Nat.mul_le_mul_right (l.format.stored 16) (Nat.succ_le_of_lt hlt)
    have hlast := l.format.stored_mono (lanes_le_sixteen (l := l) b)
    rw [Nat.succ_mul] at hblock
    omega
  · rw [← l.format.stored_block]
    exact l.format.stored_mono (hend hlt)

/-- Without matrices, slices are in columns of one, two or four blocks. -/
theorem apart_columns (per rowBytes step : Nat) (row : Nat → Nat) (hr : l.Roomy)
    (hnd : l.descriptor.nzToNd = false) (hper : 0 < per)
    (hrow : ∀ a, l.descriptor.rows * row a ≤ l.descriptor.rows * l.pitch)
    (hoffset : ∀ n r b, b < l.blocks → l.destinationOffset n r b =
      b / per * (l.descriptor.destinationStride * 32) + r * row (b / per) + b % per * step)
    (hbytes : ∀ b, l.format.storageBytes (l.lanes b) = rowBytes) (hstep : rowBytes ≤ step)
    (hfit : ∀ b < l.blocks, b % per * step + rowBytes ≤ row (b / per))
    (h : l.Valid n r b) (h' : l.Valid n' r' b') (hne : ¬ (n = n' ∧ r = r' ∧ b = b')) : l.Apart n r b n' r' b' := by
  have hone := ndCount_plain hnd
  obtain ⟨hn, hrows, hb⟩ := h
  obtain ⟨hn', hrows', hb'⟩ := h'
  unfold Apart
  rw [hoffset n r b hb, hoffset n' r' b' hb', hbytes, hbytes]
  refine levels_apart (fun a => a * (l.descriptor.destinationStride * 32))
    (fun _ => l.descriptor.destinationStride * 32) row (fun a r => r * row a) (fun _ c => c * step)
    (fun _ _ => rowBytes) (fun a c => c * step + rowBytes ≤ row a) (fun a a' hlt => ?_) (fun a r r' hlt => ?_)
    (fun a r hlt => ?_) (fun _ c c' _ hlt => ?_) (fun _ c hvalid => hvalid) hrows hrows' (hfit b hb) (hfit b' hb') ?_
  · rw [← Nat.succ_mul]
    exact Nat.mul_le_mul_right _ hlt
  · rw [← Nat.succ_mul]
    exact Nat.mul_le_mul_right _ hlt
  · rw [← Nat.succ_mul]
    exact (Nat.mul_le_mul_right _ hlt).trans ((hrow a).trans (hr.columns hnd))
  · refine (Nat.add_le_add_left hstep _).trans ?_
    rw [← Nat.succ_mul]
    exact Nat.mul_le_mul_right _ hlt
  · rintro ⟨ha, hreq, hc⟩
    refine hne ⟨by omega, hreq, ?_⟩
    rw [← Nat.div_add_mod b per, ← Nat.div_add_mod b' per, ha, hc]

theorem apart_plain (hr : l.Roomy) (hnd : l.descriptor.nzToNd = false) (hb : l.byteMerge = false)
    (hnib : l.nibbleMerge = false) {rowBytes : Nat} (hpitch : l.pitch = rowBytes)
    (hoffset : (if l.split then 32 else l.format.storageBytes 16) = rowBytes)
    (hbytes : ∀ b, l.format.storageBytes (l.lanes b) = rowBytes)
    (h : l.Valid n r b) (h' : l.Valid n' r' b') (hne : ¬ (n = n' ∧ r = r' ∧ b = b')) : l.Apart n r b n' r' b' := by
  refine apart_columns 1 rowBytes rowBytes (fun _ => rowBytes) hr hnd Nat.one_pos (fun _ => by rw [hpitch])
    (fun n r b _ => ?_) hbytes le_rfl (fun b _ => by rw [Nat.mod_one, Nat.zero_mul, Nat.zero_add]) h h' hne
  simp only [destinationOffset, hnd, hnib, hb, hoffset, Nat.mod_eq_of_lt (hr.columnWord hnd)]
  simp [Nat.mod_one, Nat.add_comm]

theorem apart_byteMerge (hl : l.Built) (hr : l.Roomy) (hb : l.byteMerge = true)
    (h : l.Valid n r b) (h' : l.Valid n' r' b') (hne : ¬ (n = n' ∧ r = r' ∧ b = b')) : l.Apart n r b n' r' b' := by
  obtain ⟨hformat, hs, hnib, hnd⟩ := hl.byteMerge hb
  have hblocks : l.blocks ≤ l.descriptor.columns / 32 * 2 + 1 := by
    simp only [blocks, mergedBlocks, hb, if_true]
    split_ifs <;> omega
  have hpitch : l.pitch = 32 := if_pos (.inr (.inr hb))
  refine apart_columns 2 16 16 (fun a => if a = l.descriptor.columns / 32 then 16 else 32) hr hnd (by decide)
    (fun a => ?_) (fun n r b hlt => ?_) (fun b => ?_) le_rfl (fun b hlt => ?_) h h' hne
  · rw [hpitch]
    refine Nat.mul_le_mul_left _ ?_
    split_ifs <;> omega
  · simp only [destinationOffset, hnd, hnib, hb, mergedBlocks, Nat.mod_eq_of_lt (hr.columnWord hnd)]
    by_cases htail : b = l.descriptor.columns / 32 * 2
    · have hhalf : b / 2 = l.descriptor.columns / 32 := by omega
      simp [htail]
      omega
    · have hhalf : ¬ b / 2 = l.descriptor.columns / 32 := by omega
      simp [htail, hhalf]
      omega
  · rw [lanes_plain hs hnd, hformat]
    rfl
  · split_ifs with htail <;> omega

theorem apart_nibbleMerge (hl : l.Built) (hr : l.Roomy) (hnib : l.nibbleMerge = true)
    (h : l.Valid n r b) (h' : l.Valid n' r' b') (hne : ¬ (n = n' ∧ r = r' ∧ b = b')) : l.Apart n r b n' r' b' := by
  obtain ⟨hformat, hs, hb, hnd⟩ := hl.nibbleMerge hnib
  have hpitch : l.pitch = 32 := if_pos (.inr (.inl hnib))
  refine apart_columns 4 8 8 (fun _ => 32) hr hnd (by decide) (fun _ => by rw [hpitch]) (fun n r b _ => ?_)
    (fun b => ?_) le_rfl (fun b _ => by omega) h h' hne
  · simp only [destinationOffset, hnd, hnib, Nat.mod_eq_of_lt (hr.columnWord hnd)]
    simp
    omega
  · rw [lanes_plain hs hnd, hformat]
    rfl

/-- No two slices write the same byte. -/
theorem apart (hl : l.Built) (hr : l.Roomy) (h : l.Valid n r b) (h' : l.Valid n' r' b')
    (hne : ¬ (n = n' ∧ r = r' ∧ b = b')) : l.Apart n r b n' r' b' := by
  by_cases hs : l.split = true
  · obtain ⟨-, hstored, hb, hnib, hnd⟩ := hl.split hs
    refine apart_plain hr hnd hb hnib (if_pos (.inl hs)) (if_pos hs) (fun b => ?_) h h' hne
    rw [show l.lanes b = 8 by simp [lanes, hs], stored_word (by decide), hstored]
  · by_cases hb : l.byteMerge = true
    · exact apart_byteMerge hl hr hb h h' hne
    · by_cases hnib : l.nibbleMerge = true
      · exact apart_nibbleMerge hl hr hnib h h' hne
      · by_cases hnd : l.descriptor.nzToNd = true
        · exact apart_nd hr (by simpa using hs) (by simpa using hb) hnd h h' hne
        · have hword := stored_word (show 16 ≤ 4096 by decide) l.format
          refine apart_plain hr (by simpa using hnd) (by simpa using hb) (by simpa using hnib)
            (if_neg (by simp [hs, hb, hnib])) ((if_neg hs).trans hword) (fun b => ?_) h h' hne
          rw [lanes_plain (by simpa using hs) (by simpa using hnd), hword]

theorem storageBytes_lt (format : OutputFormat) {lanes : Nat} (h : lanes < u32) : format.storageBytes lanes < u32 := by
  cases format with
  | int4 => exact (Nat.div_le_self lanes 2).trans_lt h
  | bits8 => exact h
  | int32 => exact Nat.mod_lt _ (by decide)
  | int16 => exact Nat.mod_lt _ (by decide)
  | fp32 => exact Nat.mod_lt _ (by decide)
  | fp16 => exact Nat.mod_lt _ (by decide)
  | bf16 => exact Nat.mod_lt _ (by decide)

/-- All slices of a transfer lie in less than the address space. -/
theorem destinationOffset_lt (n : Nat) (hr : r < l.descriptor.rows) (hb : b < l.blocks) :
    l.destinationOffset n r b < 2 ^ 52 := by
  have hrows := rows_lt l.descriptor
  have hblocks := l.blocks_lt
  have hword (x : Nat) : x % u32 < 2 ^ 32 := Nat.mod_lt _ (by decide)
  have hstored (x : Nat) : l.format.storageBytes (x % u32) < 2 ^ 32 := storageBytes_lt _ (hword x)
  have hsixteen : l.format.storageBytes 16 ≤ 64 := (stored_word (by decide) _).trans_le (l.format.stored_le 16)
  have hmul {a c : Nat} (ha : a ≤ 2 ^ 16) (hc : c ≤ 2 ^ 32) : a * c ≤ 2 ^ 16 * 2 ^ 32 := Nat.mul_le_mul ha hc
  have hnd := hstored (n * l.descriptor.destinationNdStride)
  have hrow := hstored (r * l.descriptor.destinationStride)
  have hrowBytes := hmul (show r ≤ 2 ^ 16 by omega) (show l.format.storageBytes 16 ≤ 2 ^ 32 by omega)
  have hblock := hmul (show b ≤ 2 ^ 16 by omega) (show l.format.storageBytes 16 ≤ 2 ^ 32 by omega)
  have hcolumn {a : Nat} (ha : a ≤ b) :=
    hmul (show a ≤ 2 ^ 16 by omega) (hword (l.descriptor.destinationStride * 32)).le
  have hone := hcolumn le_rfl
  have htwo := hcolumn (Nat.div_le_self b 2)
  have hfour := hcolumn (Nat.div_le_self b 4)
  unfold destinationOffset
  dsimp only
  split_ifs <;> omega

/-- No byte is the destination of two slices. -/
theorem slices_apart (hl : l.Built) (hr : l.Roomy) : l.slices.Pairwise fun s t =>
    ∀ i < s.destinationBytes, ∀ j < t.destinationBytes,
      (s.destinationAddress + i) % u64 ≠ (t.destinationAddress + j) % u64 := by
  have hslices : l.slices = (List.range l.ndCount ×ˢ (List.range l.descriptor.rows ×ˢ List.range l.blocks)).map
      fun q => l.slice q.1 q.2.1 q.2.2 := by
    simp [slices, SProd.sprod, List.product, List.map_flatMap, Function.comp_def]
  rw [hslices, List.pairwise_map]
  refine (List.nodup_range.product (List.nodup_range.product List.nodup_range)).pairwise_of_forall_ne ?_
  rintro ⟨n, r, b⟩ hq ⟨n', r', b'⟩ hq' hne i hi j hj heq
  simp only [List.mem_product, List.mem_range] at hq hq'
  have hapart := apart hl hr hq hq' fun h => hne (by rw [h.1, h.2.1, h.2.2])
  have hoff := destinationOffset_lt n hq.2.1 hq.2.2
  have hoff' := destinationOffset_lt n' hq'.2.1 hq'.2.2
  have hbytes (b : Nat) : l.format.storageBytes (l.lanes b) ≤ 64 := by
    rw [stored_word ((lanes_le_sixteen b).trans (by decide))]
    have := l.format.stored_le (l.lanes b)
    have := lanes_le_sixteen (l := l) b
    omega
  have hb := hbytes b
  have hb' := hbytes b'
  unfold Apart RangesApart at hapart
  simp only [slice, Slice.destinationBytes] at hi hj heq
  rw [Nat.mod_add_mod, Nat.mod_add_mod] at heq
  change _ % 2 ^ 64 = _ % 2 ^ 64 at heq
  omega

/-- Lanes beyond the column count fill up the last block. -/
theorem padding_last (hl : l.Built) (hw : l.Whole) {s : Slice} (hs : s ∈ l.slices) {column : Nat}
    (hc : column ∈ l.columnsOf s) (hpad : l.descriptor.columns ≤ column) :
    s.columnBlock + 1 = l.blocks ∧ s.lanes = 16 := by
  obtain ⟨n, -, hs⟩ := List.mem_flatMap.mp hs
  obtain ⟨r, -, hs⟩ := List.mem_flatMap.mp hs
  obtain ⟨b, hb, rfl⟩ := List.mem_map.mp hs
  have hb := List.mem_range.mp hb
  have hblocks := l.blocks_lt
  have hblock : b % 2 ^ 16 = b := Nat.mod_eq_of_lt (by omega)
  have hcovered : column ∈ List.range l.coveredColumns := by
    rw [← row_covered hl hw n r]
    exact List.mem_flatMap.mpr ⟨b, List.mem_range.mpr hb, hc⟩
  have hlt := List.mem_range.mp hcovered
  simp only [columnsOf, slice, hblock, List.mem_range'_1] at hc ⊢
  unfold coveredColumns at hlt
  split_ifs at hlt with hexact
  · omega
  · simp only [not_or, Bool.not_eq_true] at hexact
    have hlanes := lanes_plain hexact.1 hexact.2.2 b
    have hwidth : l.width = 16 := by simp [width, hexact.1]
    have hcount : l.blocks = (l.descriptor.columns + 15) / 16 := by simp [blocks, hexact.1, hexact.2.1]
    rw [hlanes, hwidth] at hc
    exact ⟨by omega, hlanes⟩

theorem coveredColumns_bounds (l : Layout) :
    l.descriptor.columns ≤ l.coveredColumns ∧ l.coveredColumns < l.descriptor.columns + 16 := by
  unfold coveredColumns
  split_ifs <;> omega

/-- Which lanes are read, from where, and that their results are written apart. -/
theorem slices_exact {d : Descriptor} {sourceFormat : SourceFormat} {source destination : UInt64} {l : Layout}
    (hnew : new d sourceFormat source destination = .ok l) (hextents : l.descriptor.isDisabled = false)
    (hsplit : l.split = true → l.descriptor.columns % 8 = 0)
    (hmerge : l.byteMerge = true → l.descriptor.columns % 16 = 0) :
    (∃ covered, l.descriptor.columns ≤ covered ∧ covered < l.descriptor.columns + 16 ∧
      l.slices.flatMap l.lanesOf = l.grid covered) ∧
    (∀ s ∈ l.slices, ∀ column ∈ l.columnsOf s, l.descriptor.columns ≤ column →
      s.columnBlock + 1 = l.blocks ∧ s.lanes = 16) ∧
    (∀ s ∈ l.slices, ∀ i < s.lanes, (s.sourceAddress + i * s.sourceLaneBytes) % u64 =
      l.columnAddress s.ndIndex s.row (s.columnBlock * l.width + i)) ∧
    (l.Roomy → l.slices.Pairwise fun s t => ∀ i < s.destinationBytes, ∀ j < t.destinationBytes,
      (s.destinationAddress + i) % u64 ≠ (t.destinationAddress + j) % u64) := by
  have hl := built_of_new hnew
  have hw : l.Whole := ⟨hsplit, hmerge⟩
  obtain ⟨hle, hlt⟩ := l.coveredColumns_bounds
  refine ⟨⟨_, hle, hlt, slices_lanes hl hw hextents⟩, fun s hs column hc => padding_last hl hw hs hc,
    fun s hs i hi => ?_, slices_apart hl⟩
  obtain ⟨n, -, hs⟩ := List.mem_flatMap.mp hs
  obtain ⟨r, -, hs⟩ := List.mem_flatMap.mp hs
  obtain ⟨b, hb, rfl⟩ := List.mem_map.mp hs
  have hblocks := l.blocks_lt
  have hblock : b % 2 ^ 16 = b := Nat.mod_eq_of_lt ((List.mem_range.mp hb).trans hblocks)
  simp only [slice, hblock] at hi ⊢
  exact lane_address hl hi n r

/-- 17 columns of 32 bits whose channels are split. -/
def splitDescriptor : Descriptor := ⟨0x100010110, 0x40000000004, 0⟩

/-- Two rows of 32 columns of 32 bits, with a stride of two rows of 32 bytes. -/
def wideDescriptor : Descriptor := ⟨0x200020200, 4, 0⟩

/-- Two matrices of 17 columns, from blocks to rows. -/
def ndDescriptor : Descriptor := ⟨0x2000020110, 0x80400000004, 0x8000030002⟩

def ndLayout : Layout := ⟨ndDescriptor, 100, 200, .fp16, .fp32⟩

theorem slices_exact_nd :
    (∃ covered, 17 ≤ covered ∧ covered < 17 + 16 ∧ ndLayout.slices.flatMap ndLayout.lanesOf = ndLayout.grid covered) ∧
    ndLayout.slices.Pairwise fun s t => ∀ i < s.destinationBytes, ∀ j < t.destinationBytes,
      (s.destinationAddress + i) % u64 ≠ (t.destinationAddress + j) % u64 := by
  have hexact := slices_exact (show new ndDescriptor .fp32 100 200 = .ok ndLayout from rfl) (by decide) (by decide)
    (by decide)
  have hroomy : ndLayout.Roomy :=
    ⟨by decide, by decide, fun _ => by decide, fun _ => by decide, fun _ => by decide, fun _ => by decide⟩
  exact ⟨hexact.1, hexact.2.2.2 hroomy⟩

/-- A column that no lane reads, and two slices that write the same byte though a stride holds its rows of 32 bytes. -/
theorem slices_lacking :
    (∀ s ∈ (Layout.mk splitDescriptor 0 0 .fp32 .fp32).slices, ∀ i < s.lanes,
      (s.sourceAddress + i * s.sourceLaneBytes) % u64 ≠
        columnAddress ⟨splitDescriptor, 0, 0, .fp32, .fp32⟩ 0 0 16) ∧
    wideDescriptor.rows * 32 ≤ wideDescriptor.destinationStride * 32 ∧
    ¬ (Layout.mk wideDescriptor 0 0 .fp32 .fp32).slices.Pairwise fun s t =>
      s.destinationAddress + s.destinationBytes ≤ t.destinationAddress ∨
        t.destinationAddress + t.destinationBytes ≤ s.destinationAddress := by
  decide

end Layout

end AscendEmulator.C220.Fixp
