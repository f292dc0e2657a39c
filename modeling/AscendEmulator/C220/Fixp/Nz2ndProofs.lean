/-
  AscendEmulator.C220.Fixp.Nz2ndProofs — what a FIX transfer to matrices writes.

  The reads of a block of rows are counted (`counting_cases`): a few reads end a conversion, eight conversions or the
  last close a group, and a group is written row by row. What is written of a matrix are the fragments of its rows
  (`rowFragments`), whatever the bandwidth.

  - `Accepted.all_turns`: the turns of a whole run, matrix by matrix.
  - `Accepted.matrix_perm`: the fragments of a matrix are those of its rows, in some order.
-/

import AscendEmulator.C220.Fixp.Nz2nd
import AscendEmulator.C220.Fixp.ReadUopProofs

namespace AscendEmulator.C220.Fixp

open Lib Cuts C220.Memory

/-! ## Counting -/

namespace Descriptor

variable (d : Descriptor)

/-- The reads of a column block. -/
def readsPerColumn : Nat := if d.conversionMode = 0 then 2 else 1

/-- The reads that are converted together. -/
def readsPerUnit : Nat :=
  if d.conversionMode ∈ [8, 9, 23, 24] then 2 else if d.conversionMode ∈ [21, 22, 25, 26] then 4 else 1

/-- The reads of a block of rows. -/
def rowReads : Nat := if d.conversionMode = 0 then (d.columns + 7) / 8 else (d.columns + 15) / 16

/-- Whether a read ends a conversion. -/
def endsUnit (t : Nat) : Bool := t % d.readsPerUnit = d.readsPerUnit - 1 ∨ t + 1 = d.rowReads

/-- Whether a read closes a group of eight conversions. -/
def closesGroup (t : Nat) : Bool := t % (8 * d.readsPerUnit) = 8 * d.readsPerUnit - 1 ∨ t + 1 = d.rowReads

/-- The ways of counting: two reads a column, or one, and then one, two or four a conversion. -/
theorem counting_cases :
    (d.conversionMode = 0 ∧ d.readsPerColumn = 2 ∧ d.readsPerUnit = 1 ∧ d.rowReads = (d.columns + 7) / 8) ∨
      (d.conversionMode ≠ 0 ∧ d.readsPerColumn = 1 ∧ d.rowReads = (d.columns + 15) / 16 ∧
        (d.conversionMode ∈ [8, 9, 23, 24] ∧ d.readsPerUnit = 2 ∨
          d.conversionMode ∉ [8, 9, 23, 24] ∧ d.conversionMode ∈ [21, 22, 25, 26] ∧ d.readsPerUnit = 4 ∨
          d.conversionMode ∉ [8, 9, 23, 24] ∧ d.conversionMode ∉ [21, 22, 25, 26] ∧ d.readsPerUnit = 1)) := by
  unfold readsPerColumn readsPerUnit rowReads
  by_cases hzero : d.conversionMode = 0
  · simp [hzero]
  · by_cases hbytes : d.conversionMode ∈ [8, 9, 23, 24]
    · simp only [hzero, hbytes]
      simpa using hzero
    · by_cases hnibbles : d.conversionMode ∈ [21, 22, 25, 26]
      · simp only [hzero, hbytes, hnibbles]
        simpa using hzero
      · simp only [hzero, hbytes, hnibbles]
        simpa using hzero

theorem readsPerUnit_cases : d.readsPerUnit = 1 ∨ d.readsPerUnit = 2 ∨ d.readsPerUnit = 4 := by
  rcases d.counting_cases with ⟨-, -, h, -⟩ | ⟨-, -, -, ⟨-, h⟩ | ⟨-, -, h⟩ | ⟨-, -, h⟩⟩ <;> omega

theorem readsPerColumn_cases : d.readsPerColumn = 1 ∨ d.readsPerColumn = 2 ∧ d.readsPerUnit = 1 := by
  rcases d.counting_cases with ⟨-, h, h', -⟩ | ⟨-, h, -⟩ <;> omega

/-- Another step ends a round just if it is the last of one. -/
theorem div_step {w : Nat} (hw : 0 < w) (n : Nat) : (n + 1) / w = n / w + if n % w = w - 1 then 1 else 0 := by
  have hn := Nat.div_add_mod n w
  have hlt := Nat.mod_lt n hw
  by_cases hlast : n % w = w - 1
  · have heq : n + 1 = w * (n / w + 1) := by
      rw [Nat.mul_succ]
      omega
    rw [if_pos hlast, heq, Nat.mul_div_cancel_left _ hw]
  · have heq : n + 1 = w * (n / w) + (n % w + 1) := by omega
    rw [if_neg hlast]
    conv_lhs => rw [heq]
    rw [Nat.mul_add_div hw, Nat.div_eq_of_lt (show n % w + 1 < w by omega)]

/-- What is left behind at the end of every round. -/
theorem sum_rounds {w z n : Nat} (hw : 0 < w) {f : Nat → Nat}
    (hf : ∀ t < n, f t = if t % w = w - 1 then z else 0) : ((List.range n).map f).sum = n / w * z := by
  induction n with
  | zero => simp
  | succ n ih =>
    rw [List.range_succ, List.map_append, List.sum_append, ih fun t ht => hf t (by omega), List.map_singleton,
      List.sum_singleton, hf n (by omega), div_step hw]
    split_ifs <;> simp [Nat.succ_mul]

/-- Rounds that each cover the next interval. -/
theorem flatMap_rounds {w z n start : Nat} (hw : 0 < w) {f : Nat → List Nat}
    (hf : ∀ t < n, f t = if t % w = w - 1 then List.range' (start + t / w * z) z else []) :
    (List.range n).flatMap f = List.range' start (n / w * z) := by
  induction n with
  | zero => simp
  | succ n ih =>
    rw [List.range_succ, List.flatMap_append, ih fun t ht => hf t (by omega), List.flatMap_singleton, hf n (by omega),
      div_step hw]
    split_ifs
    · rw [List.range'_append_1, Nat.succ_mul]
    · simp

/-- Behind a group comes another column, at which the next group begins. -/
theorem group_next {u p t : Nat} (hu : u = 1 ∨ u = 2 ∨ u = 4) (hp : p = 1 ∨ p = 2 ∧ u = 1)
    (h : t % (8 * u) = 8 * u - 1) : t / p ≠ (t + 1) / p ∧ (t + 1) / (8 * u) * (8 * u) / p = t / p + 1 := by
  rcases hp with rfl | ⟨rfl, rfl⟩
  · rcases hu with rfl | rfl | rfl <;> omega
  · omega

theorem group_same {u t : Nat} (hu : u = 1 ∨ u = 2 ∨ u = 4) (h : t % (8 * u) ≠ 8 * u - 1) :
    (t + 1) / (8 * u) = t / (8 * u) := by
  rcases hu with rfl | rfl | rfl <;> omega

theorem rowReads_pos (h : 0 < d.columns) : 0 < d.rowReads := by
  rcases d.counting_cases with ⟨-, -, -, h⟩ | ⟨-, -, h, -⟩ <;> omega

end Descriptor

/-! ## Reads -/

namespace Nz2ndReadGenerator

variable (g : Nz2ndReadGenerator)

/-- The generator before a read of a block of rows. -/
def place (id nd row t : Nat) : Nz2ndReadGenerator :=
  let d := g.command.descriptor
  { g with nextId := id, nd, row, column := t / d.readsPerColumn, part := t % d.readsPerColumn }

/-- What `new` makes of a command. -/
structure Accepted : Prop where
  enabled : g.command.descriptor.isDisabled = false
  plane : g.command.descriptor.nzToNd = true
  columns : g.columns = (g.command.descriptor.columns + 15) / 16
  ndCount : g.ndCount = g.command.descriptor.ndCount
  bandwidth : 0 < g.bandwidth ∧ g.bandwidth % 64 = 0
  source : g.command.sourceAddress.toNat % (16 * g.command.sourceFormat.laneBytes) = 0
  progress : g.validateRowProgress = none

/-- Whole rows of 64 bytes are read from a row on. -/
def Whole (nd row : Nat) : Prop :=
  g.command.sourceFormat.laneBytes = 4 ∨
    ∃ turns, g.command.descriptor.rows ≤ row + turns ∧ g.validateFrom nd turns row = none

/-- The rows that are read from a row on. -/
def rowsAt (nd row : Nat) : Nat := g.bytesAt nd row / 64

variable {g}

theorem Accepted.extents (h : g.Accepted) : 0 < g.command.descriptor.rows ∧ 0 < g.command.descriptor.columns ∧
    0 < g.command.descriptor.ndCount := by
  have henabled := h.enabled
  simp only [Descriptor.isDisabled, h.plane, Bool.true_and, Bool.or_eq_false_iff, beq_eq_false_iff_ne] at henabled
  omega

theorem Accepted.whole (h : g.Accepted) {nd : Nat} (hnd : nd < g.ndCount) : g.Whole nd 0 := by
  have hprogress := h.progress
  unfold validateRowProgress at hprogress
  split_ifs at hprogress with hwide
  · exact .inl hwide
  · rw [List.findSome?_eq_none_iff] at hprogress
    exact .inr ⟨_, (Nat.zero_add _).ge, hprogress nd (List.mem_range.mpr hnd)⟩

/-- Words of 32 bits lie in rows of 64 bytes. -/
theorem Accepted.address_whole (h : g.Accepted) (hwide : g.command.sourceFormat.laneBytes = 4) (nd row : Nat) :
    (g.sourceAddressAt nd row 0).toUInt32.toNat % 64 = 0 := by
  have hsource := h.source
  rw [hwide] at hsource
  have hnd : nd * (16 * (16 * 4)) % u32 * g.command.descriptor.sourceNdStride % u32 % 64 = 0 := by
    have hdvd : 64 ∣ nd * (16 * (16 * 4)) % u32 * g.command.descriptor.sourceNdStride % u32 := by
      rw [Nat.dvd_mod_iff (by decide)]
      exact Dvd.dvd.mul_right ((Nat.dvd_mod_iff (by decide)).mpr (Dvd.dvd.mul_left (by decide) _)) _
    exact Nat.mod_eq_zero_of_dvd hdvd
  have haddress : (g.sourceAddressAt nd row 0).toNat = (g.command.sourceAddress.toNat +
      nd * (16 * (16 * 4)) % u32 * g.command.descriptor.sourceNdStride % u32 + row * (16 * 4)) % 2 ^ 64 := by
    unfold sourceAddressAt
    simp only [hwide, UInt64.toNat_add, Nat.toUInt64_eq, UInt64.toNat_ofNat', Nat.add_mod_mod, Nat.mod_add_mod,
      Nat.zero_mul, Nat.zero_mod, Nat.add_zero, Nat.mod_mod]
  rw [UInt64.toNat_toUInt32, haddress]
  omega

/-- At least one row is read, and none beyond the last; behind these, whole rows are read again. -/
theorem Accepted.rowsAt (h : g.Accepted) {nd row : Nat} (hrow : row < g.command.descriptor.rows)
    (hwhole : g.Whole nd row) : 0 < g.rowsAt nd row ∧ row + g.rowsAt nd row ≤ g.command.descriptor.rows ∧
      g.Whole nd (row + g.rowsAt nd row) := by
  obtain ⟨hpos, hband⟩ := h.bandwidth
  have hlt := Nat.mod_lt (g.sourceAddressAt nd row 0).toUInt32.toNat hpos
  have hmin : g.bytesAt nd row = min ((g.command.descriptor.rows - row) * 64)
    (g.bandwidth - (g.sourceAddressAt nd row 0).toUInt32.toNat % g.bandwidth) := rfl
  have hbytes : g.bytesAt nd row % 64 = 0 ∧ g.Whole nd (row + g.rowsAt nd row) := by
    rcases hwhole with hwide | ⟨turns, hturns, hvalid⟩
    · have haddress := h.address_whole hwide nd row
      have hdvd : 64 ∣ (g.sourceAddressAt nd row 0).toUInt32.toNat % g.bandwidth :=
        (Nat.dvd_mod_iff (Nat.dvd_of_mod_eq_zero hband)).mpr (Nat.dvd_of_mod_eq_zero haddress)
      exact ⟨by omega, .inl hwide⟩
    · cases turns with
      | zero => omega
      | succ turns =>
        rw [validateFrom, if_neg (by omega)] at hvalid
        split_ifs at hvalid with hrest
        have hpos' : 0 < g.bytesAt nd row := by omega
        refine ⟨by omega, .inr ⟨turns, ?_, hvalid⟩⟩
        have hone : 1 ≤ g.bytesAt nd row / 64 := by omega
        unfold Nz2ndReadGenerator.rowsAt
        omega
  unfold Nz2ndReadGenerator.rowsAt at hbytes ⊢
  exact ⟨by omega, by omega, hbytes.2⟩

/-- The place of the next read: in the block of rows, in the next one, or in the next matrix. -/
def follow (g : Nz2ndReadGenerator) (id nd row t : Nat) : Nz2ndReadGenerator :=
  if t + 1 < g.command.descriptor.rowReads then g.place id nd row (t + 1)
  else if row + g.rowsAt nd row < g.command.descriptor.rows then g.place id nd (row + g.rowsAt nd row) 0
  else g.place id (nd + 1) 0 0

/-- The count of a read by its column and its part. -/
theorem Accepted.counts (h : g.Accepted) (id nd row : Nat) {t : Nat} (ht : t < g.command.descriptor.rowReads) :
    let s := g.place id nd row t
    s.part + 1 ≤ s.parts ∧ (s.endOfBurst = true ↔ t + 1 = g.command.descriptor.rowReads) ∧
      (s.part + 1 ≠ s.parts → (t + 1) / g.command.descriptor.readsPerColumn = s.column ∧
        (t + 1) % g.command.descriptor.readsPerColumn = s.part + 1) ∧
      (s.part + 1 = s.parts → s.column + 1 ≠ g.columns →
        (t + 1) / g.command.descriptor.readsPerColumn = s.column + 1 ∧
        (t + 1) % g.command.descriptor.readsPerColumn = 0) := by
  have hcolumns := h.columns
  have hpos := h.extents.2.1
  have hparts : (g.place id nd row t).parts =
      if g.command.descriptor.conversionMode ≠ 0 then 1
      else if t / g.command.descriptor.readsPerColumn + 1 = g.columns ∧ g.command.descriptor.columns % 16 ≠ 0 then
        (g.command.descriptor.columns % 16 + 7) / 8
      else 2 := rfl
  have hend : (g.place id nd row t).endOfBurst = true ↔
      t / g.command.descriptor.readsPerColumn + 1 = g.columns ∧
        t % g.command.descriptor.readsPerColumn + 1 = (g.place id nd row t).parts := by
    rw [endOfBurst, decide_eq_true_iff]
    rfl
  show t % g.command.descriptor.readsPerColumn + 1 ≤ (g.place id nd row t).parts ∧ _ ∧
    (t % g.command.descriptor.readsPerColumn + 1 ≠ (g.place id nd row t).parts →
      (t + 1) / g.command.descriptor.readsPerColumn = t / g.command.descriptor.readsPerColumn ∧
      (t + 1) % g.command.descriptor.readsPerColumn = t % g.command.descriptor.readsPerColumn + 1) ∧
    (t % g.command.descriptor.readsPerColumn + 1 = (g.place id nd row t).parts →
      t / g.command.descriptor.readsPerColumn + 1 ≠ g.columns →
      (t + 1) / g.command.descriptor.readsPerColumn = t / g.command.descriptor.readsPerColumn + 1 ∧
      (t + 1) % g.command.descriptor.readsPerColumn = 0)
  rw [hend, hparts]
  rcases g.command.descriptor.counting_cases with ⟨hzero, hper, -, hreads⟩ | ⟨hzero, hper, hreads, -⟩
  · rw [hreads] at ht ⊢
    rw [hper, hcolumns, if_neg (not_not.mpr hzero)]
    split_ifs with hlast
    · omega
    · omega
  · rw [hreads] at ht ⊢
    rw [hper, hcolumns, if_pos hzero]
    omega

theorem Accepted.endsUnit (h : g.Accepted) (id nd row t : Nat) :
    (g.place id nd row t).lastInUop = g.command.descriptor.endsUnit t := by
  have hcolumns := h.columns
  have hlast : (g.place id nd row t).lastInUop =
      if g.command.descriptor.conversionMode ∈ [8, 9, 23, 24] then
        t / g.command.descriptor.readsPerColumn % 2 == 1 || t / g.command.descriptor.readsPerColumn + 1 == g.columns
      else if g.command.descriptor.conversionMode ∈ [21, 22, 25, 26] then
        t / g.command.descriptor.readsPerColumn % 4 == 3 || t / g.command.descriptor.readsPerColumn + 1 == g.columns
      else true := rfl
  rw [hlast, Bool.eq_iff_iff, Descriptor.endsUnit, decide_eq_true_iff, hcolumns]
  rcases g.command.descriptor.counting_cases with ⟨hzero, hper, hunit, hreads⟩ |
    ⟨hzero, hper, hreads, ⟨hmode, hunit⟩ | ⟨hmode, hmode', hunit⟩ | ⟨hmode, hmode', hunit⟩⟩
  · rw [hzero, hunit]
    simp [Nat.mod_one]
  · rw [hper, hunit, hreads, if_pos hmode]
    simp
  · rw [hper, hunit, hreads, if_neg hmode, if_pos hmode']
    simp
  · rw [hunit, if_neg hmode, if_neg hmode']
    simp [Nat.mod_one]

theorem Accepted.next_place (h : g.Accepted) (id : Nat) {nd row t : Nat} (hnd : nd < g.ndCount)
    (hrow : row < g.command.descriptor.rows) (hwhole : g.Whole nd row) (ht : t < g.command.descriptor.rowReads) :
    (g.place id nd row t).next =
      some ((g.place id nd row t).operation, g.follow ((id + 1) % u32) nd row t) := by
  obtain ⟨hle, hend, hpart, hcolumn⟩ := h.counts id nd row ht
  obtain ⟨-, hrows, -⟩ := h.rowsAt hrow hwhole
  have hadvance : (g.place id nd row t).advance = g.follow ((id + 1) % u32) nd row t := by
    rw [endOfBurst, decide_eq_true_iff] at hend
    unfold advance follow
    by_cases hparts : (g.place id nd row t).part + 1 = (g.place id nd row t).parts
    · rw [if_neg (not_not.mpr hparts)]
      by_cases hcolumns : (g.place id nd row t).column + 1 = (g.place id nd row t).columns
      · have hlast := hend.mp ⟨hcolumns, hparts⟩
        rw [if_neg (not_not.mpr hcolumns), if_neg (show ¬ t + 1 < _ by omega)]
        show (if row + g.rowsAt nd row ≠ g.command.descriptor.rows then _ else _) = _
        by_cases hmore : row + g.rowsAt nd row = g.command.descriptor.rows
        · rw [if_neg (not_not.mpr hmore), if_neg (by omega)]
          simp [place]
        · rw [if_pos hmore, if_pos (by omega)]
          have hn : (g.place id nd row t).rows = g.rowsAt nd row := rfl
          rw [hn]
          simp [place]
      · obtain ⟨hdiv, hmod⟩ := hcolumn hparts hcolumns
        have hlt : t + 1 < g.command.descriptor.rowReads := by
          have hne : t + 1 ≠ g.command.descriptor.rowReads := fun heq => hcolumns (hend.mpr heq).1
          omega
        rw [if_pos hcolumns, if_pos hlt]
        simp [place, hdiv, hmod]
    · obtain ⟨hdiv, hmod⟩ := hpart hparts
      have hlt : t + 1 < g.command.descriptor.rowReads := by
        have hne : t + 1 ≠ g.command.descriptor.rowReads := fun heq => hparts (hend.mpr heq).2
        omega
      rw [if_pos hparts, if_pos hlt]
      simp [place, hdiv, hmod]
  unfold next
  rw [if_neg (show (g.place id nd row t).nd ≠ (g.place id nd row t).ndCount from hnd.ne), hadvance]

end Nz2ndReadGenerator

/-! ## Turns -/

/-- What a burst's fragment is made of. -/
structure FragmentView where
  address : UInt64
  bytes : Nat
  closed : Bool
  last : Bool
  gather : Bool
  rowBytes : Nat

def Nz2ndWriteUop.view (op : Nz2ndWriteUop) : Option FragmentView :=
  let d := op.descriptor
  if d.lastInUop then some ⟨d.destinationAddress, d.bytes, d.endOfBurst, op.lastInInstruction, d.gather, d.burstBytes⟩ else none

/-- The fragments of what some turns yield. -/
def credited (l : List (Option Nz2ndWriteUop)) : List FragmentView := l.filterMap fun op => op.bind Nz2ndWriteUop.view

theorem credited_flatMap {α : Type} (xs : List α) (l : α → List (Option Nz2ndWriteUop)) :
    credited (xs.flatMap l) = xs.flatMap fun x => credited (l x) :=
  List.filterMap_flatMap

namespace Nz2ndWriteGenerator

/-- What is kept from one read to the next. -/
structure Memo where
  position : Option (Nat × Nat × Nat)
  groupIndex : Nat
  destinationColumn : Nat
  advanceColumn : Option Nat

variable (g : Nz2ndWriteGenerator)

def place (id : Nat) (reads : Nz2ndReadGenerator) (m : Memo) (rows : Option RowGroup) : Nz2ndWriteGenerator :=
  { g with
    nextId := id
    reads
    position := m.position
    groupIndex := m.groupIndex
    destinationColumn := m.destinationColumn
    advanceColumn := m.advanceColumn
    rows
    tail := none }

/-- What `new` makes of a command. -/
structure Accepted (l : Layout) : Prop where
  reads : g.reads.Accepted
  command : g.reads.command = g.command ∧ g.planner.command = g.command
  format : g.format = l.format ∧ g.planner.format = l.format
  slots : g.mainSlots = 8 ∧ g.planner.mainSlots = 8
  gather : g.planner.gather = Nz2ndWritePlanner.gathers g.command.descriptor l.format 8
  aligned : g.planner.aligned512 =
    Nz2ndWritePlanner.isAligned512 g.command.descriptor l.format g.command.destinationAddress
  layout : g.command.layout = .ok l
  mode : g.command.descriptor.conversionMode ∉ [19, 20]

/-- The column that a group begins at. -/
def firstColumn (t : Nat) : Nat :=
  let d := g.command.descriptor
  if g.planner.gather then 0 else t / (8 * d.readsPerUnit) * (8 * d.readsPerUnit) / d.readsPerColumn

def during (nd row t : Nat) : Memo :=
  let d := g.command.descriptor
  ⟨some (nd, row, t / d.readsPerColumn), t / d.readsPerUnit, g.firstColumn t, none⟩

def after (nd row t : Nat) : Memo :=
  let d := g.command.descriptor
  { g.during nd row t with
    groupIndex := t / d.readsPerUnit + if d.endsUnit t then 1 else 0
    advanceColumn := if d.closesGroup t && !g.planner.gather then some (t / d.readsPerColumn + 1) else none }

/-- What may be kept before a read: what the read before it leaves, or anything of other rows. -/
def Ready (nd row : Nat) : Nat → Memo → Prop
  | 0, m => ∀ old, m.position = some old → (old.1, old.2.1) ≠ (nd, row)
  | t + 1, m => m = g.after nd row t

/-- The rows that are written when a read closes a group. -/
def group (nd row t : Nat) : RowGroup :=
  let d := g.command.descriptor
  { nd
    row
    endRow := row + g.reads.rowsAt nd row
    column := g.firstColumn t
    groupIndex := t / d.readsPerUnit
    endOfGroup := t + 1 = d.rowReads
    endOfNd := t + 1 = d.rowReads ∧ row + g.reads.rowsAt nd row = d.rows }

variable {g} {l : Layout}

/-- Within a block of rows, the column goes on where a group was closed. -/
theorem moveTo_ready (id : Nat) (reads : Nz2ndReadGenerator) (nd row t : Nat) {m : Memo}
    (hm : g.Ready nd row t m) (ht : t < g.command.descriptor.rowReads) :
    (g.place id reads m none).moveTo (nd, row, t / g.command.descriptor.readsPerColumn) =
      g.place id reads (g.during nd row t) none := by
  cases t with
  | zero =>
    unfold moveTo
    cases hold : m.position with
    | none => simp [place, hold, during, firstColumn]
    | some old =>
      have hne := hm old hold
      simp only [place, hold]
      rw [if_pos hne]
      simp [during, firstColumn]
  | succ t =>
    obtain rfl : m = g.after nd row t := hm
    have hunit := g.command.descriptor.readsPerUnit_cases
    have hper := g.command.descriptor.readsPerColumn_cases
    have hcloses : g.command.descriptor.closesGroup t =
        decide (t % (8 * g.command.descriptor.readsPerUnit) = 8 * g.command.descriptor.readsPerUnit - 1) := by
      simp [Descriptor.closesGroup, show t + 1 ≠ g.command.descriptor.rowReads by omega]
    have hends : g.command.descriptor.endsUnit t =
        decide (t % g.command.descriptor.readsPerUnit = g.command.descriptor.readsPerUnit - 1) := by
      simp [Descriptor.endsUnit, show t + 1 ≠ g.command.descriptor.rowReads by omega]
    have hindex : (t / g.command.descriptor.readsPerUnit + if g.command.descriptor.endsUnit t then 1 else 0) =
        (t + 1) / g.command.descriptor.readsPerUnit := by
      rw [hends]
      simp only [decide_eq_true_eq]
      exact (Descriptor.div_step (by omega) t).symm
    unfold moveTo
    simp only [place, after, during, hindex, ne_eq, not_true, if_false]
    cases hgather : g.planner.gather with
    | true => simp [firstColumn, hgather]
    | false =>
      simp only [Bool.not_false, Bool.and_true, hcloses, firstColumn, hgather, Bool.false_eq_true, if_false,
        decide_eq_true_eq]
      by_cases hclosed : t % (8 * g.command.descriptor.readsPerUnit) = 8 * g.command.descriptor.readsPerUnit - 1
      · obtain ⟨hcolumn, hfirst⟩ := Descriptor.group_next hunit hper hclosed
        rw [if_pos hcolumn, if_pos hclosed, hfirst]
      · rw [if_neg hclosed, Descriptor.group_same hunit hclosed]
        split_ifs <;> rfl

/-- Eight conversions are counted as they are read. -/
theorem closesGroup_iff (d : Descriptor) {t : Nat} (hends : d.endsUnit t = true) :
    (d.closesGroup t = true ↔ t / d.readsPerUnit % 8 = 7 ∨ t + 1 = d.rowReads) := by
  unfold Descriptor.endsUnit at hends
  unfold Descriptor.closesGroup
  rw [decide_eq_true_iff] at hends ⊢
  rcases d.readsPerUnit_cases with hunit | hunit | hunit <;> rw [hunit] at hends ⊢ <;> omega

theorem endsUnit_of_closes (d : Descriptor) {t : Nat} (hcloses : d.closesGroup t = true) : d.endsUnit t = true := by
  unfold Descriptor.closesGroup at hcloses
  unfold Descriptor.endsUnit
  rw [decide_eq_true_iff] at hcloses ⊢
  rcases d.readsPerUnit_cases with hunit | hunit | hunit <;> rw [hunit] at hcloses ⊢ <;> omega

/-- A read is taken, and closes its group or not. -/
theorem Accepted.read_turn (h : g.Accepted l) (id id' : Nat) {nd row t : Nat} {m : Memo} (hm : g.Ready nd row t m)
    (hnd : nd < g.reads.ndCount) (hrow : row < g.command.descriptor.rows) (hwhole : g.reads.Whole nd row)
    (ht : t < g.command.descriptor.rowReads) :
    (g.place id (g.reads.place id' nd row t) m none).turn =
      some (none, g.place id (g.reads.follow ((id' + 1) % u32) nd row t) (g.after nd row t)
        (if g.command.descriptor.closesGroup t then some (g.group nd row t) else none)) := by
  obtain ⟨hcommand, -⟩ := h.command
  have hd : g.reads.command.descriptor = g.command.descriptor := by rw [hcommand]
  have hnext := h.reads.next_place id' hnd (hd ▸ hrow) hwhole (hd ▸ ht)
  have hunit := h.reads.endsUnit id' nd row t
  have hburst := (h.reads.counts id' nd row (hd ▸ ht)).2.1
  rw [hd] at hunit hburst
  have hposition : (g.reads.place id' nd row t).position = (nd, row, t / g.command.descriptor.readsPerColumn) := by
    rw [← hd]
    rfl
  have hturn : (g.place id (g.reads.place id' nd row t) m none).turn =
      some (none, ((g.place id (g.reads.follow ((id' + 1) % u32) nd row t) m none).moveTo
        (g.reads.place id' nd row t).position).closeGroup (g.reads.place id' nd row t).position
          (g.reads.place id' nd row t).operation) := by
    unfold turn
    rw [show (g.place id (g.reads.place id' nd row t) m none).reads.next = _ from hnext]
    rfl
  rw [hturn, hposition, moveTo_ready _ _ nd row t hm ht]
  congr 2
  have hlast : (g.reads.place id' nd row t).operation.lastInUop = g.command.descriptor.endsUnit t := hunit
  have hend : (g.reads.place id' nd row t).operation.endOfBurst = decide (t + 1 = g.command.descriptor.rowReads) := by
    rw [Bool.eq_iff_iff, decide_eq_true_iff]
    exact hburst
  unfold closeGroup
  rw [hlast, hend]
  cases hends : g.command.descriptor.endsUnit t with
  | false =>
    have hcloses : g.command.descriptor.closesGroup t = false := by
      by_contra hcloses
      rw [Bool.not_eq_false] at hcloses
      rw [endsUnit_of_closes _ hcloses] at hends
      exact absurd hends (by decide)
    simp [place, after, during, hends, hcloses]
  | true =>
    have hiff := closesGroup_iff g.command.descriptor hends
    have hslots : (g.place id (g.reads.follow ((id' + 1) % u32) nd row t) (g.during nd row t) none).mainSlots =
        g.mainSlots := rfl
    have hindex : (g.place id (g.reads.follow ((id' + 1) % u32) nd row t) (g.during nd row t) none).groupIndex =
        t / g.command.descriptor.readsPerUnit := rfl
    dsimp only
    rw [hslots, hindex]
    cases hcloses : g.command.descriptor.closesGroup t with
    | false =>
      rw [hcloses] at hiff
      have hopen : t / g.command.descriptor.readsPerUnit % g.mainSlots ≠ g.mainSlots - 1 ∧
          (!decide (t + 1 = g.command.descriptor.rowReads)) = true := by
        rw [h.slots.1, Bool.not_eq_true', decide_eq_false_iff_not]
        have hnot := (not_congr hiff).mp (by decide)
        rw [not_or] at hnot
        exact hnot
      rw [if_neg (by decide), if_pos hopen]
      simp [place, after, during, hends, hcloses]
    | true =>
      rw [hcloses] at hiff
      have hclosed : ¬ (t / g.command.descriptor.readsPerUnit % g.mainSlots ≠ g.mainSlots - 1 ∧
          (!decide (t + 1 = g.command.descriptor.rowReads)) = true) := by
        rw [h.slots.1, Bool.not_eq_true', decide_eq_false_iff_not]
        have hor := hiff.mp rfl
        omega
      rw [if_neg (by decide), if_neg hclosed]
      simp only [place, after, during, hends, hcloses, group, if_true, Bool.true_and]
      congr 1
      · by_cases hgather : g.planner.gather = true <;> simp [hgather]
      · rw [Bool.decide_and]
        rfl

/-! ## Rows -/

/-- The fragment of a row of a group, if the row gives one. -/
def rowFragment (g : Nz2ndWriteGenerator) (rows : RowGroup) : Option FragmentView :=
  let tail := (g.planner.planRow rows.groupIndex rows.endOfGroup (g.rowAddress rows)).tail
  let endOfNd := decide (rows.row + 1 = rows.endRow) && rows.endOfNd
  if tail.lastInUop then
    some ⟨tail.destinationAddress, tail.bytes, tail.endOfBurst || endOfNd,
      endOfNd && decide (rows.nd + 1 = g.command.descriptor.ndCount), tail.gather, tail.burstBytes⟩
  else none

def rowTail (g : Nz2ndWriteGenerator) (requestId : Nat) (rows : RowGroup) : Nz2ndWriteUop :=
  let tail := (g.planner.planRow rows.groupIndex rows.endOfGroup (g.rowAddress rows)).tail
  let endOfNd := decide (rows.row + 1 = rows.endRow) && rows.endOfNd
  { instructionId := g.instructionId
    requestId
    descriptor := if endOfNd then { tail with endOfBurst := true } else tail
    lastInInstruction := endOfNd && decide (rows.nd + 1 = g.command.descriptor.ndCount) }

theorem rowTail_view (g : Nz2ndWriteGenerator) (requestId : Nat) (rows : RowGroup) :
    (g.rowTail requestId rows).view = g.rowFragment rows := by
  unfold Nz2ndWriteUop.view rowFragment rowTail
  cases decide (rows.row + 1 = rows.endRow) && rows.endOfNd <;> simp

/-- A row takes one turn or two. -/
theorem write_turns (id : Nat) (reads : Nz2ndReadGenerator) (m : Memo) (rows : RowGroup) :
    ∃ l id', Takes turn (g.place id reads m (some rows)) l (g.place id' reads m
        (if rows.row + 1 = rows.endRow then none else some { rows with row := rows.row + 1 })) ∧
      credited l = (g.rowFragment rows).toList := by
  have hturn : (g.place id reads m (some rows)).turn =
      some (some ((g.place id reads m (some rows)).writeRow rows).1,
        ((g.place id reads m (some rows)).writeRow rows).2) := rfl
  have hplan : (g.place id reads m (some rows)).planner.planRow rows.groupIndex rows.endOfGroup
      ((g.place id reads m (some rows)).rowAddress rows) =
        g.planner.planRow rows.groupIndex rows.endOfGroup (g.rowAddress rows) := rfl
  unfold writeRow at hturn
  rw [hplan] at hturn
  dsimp only at hturn
  cases hleading : (g.planner.planRow rows.groupIndex rows.endOfGroup (g.rowAddress rows)).leading with
  | none =>
    simp only [hleading] at hturn
    refine ⟨[some (g.rowTail ((id + 0) % u32) rows)], (id + (1 + 0)) % u32, .cons (hturn.trans ?_) (.nil _), ?_⟩
    · by_cases hfinal : rows.row + 1 = rows.endRow
      · simp only [place, rowTail, hfinal]
        rfl
      · simp [place, rowTail, hfinal]
    · rw [credited, List.filterMap_cons, Option.bind_some, rowTail_view]
      cases g.rowFragment rows <;> rfl
  | some leading =>
    simp only [hleading] at hturn
    have hlead : leading.lastInUop = false := by
      unfold Nz2ndWritePlanner.planRow at hleading
      dsimp only at hleading
      split_ifs at hleading
      cases hleading
      rfl
    have hfirst : (g.place id reads m (some rows)).turn = some (some ⟨g.instructionId, id, leading, false⟩,
        { g.place ((id + (1 + 1)) % u32) reads m
            (if rows.row + 1 = rows.endRow then none else some { rows with row := rows.row + 1 }) with
          tail := some (g.rowTail ((id + 1) % u32) rows) }) := by
      refine hturn.trans ?_
      by_cases hfinal : rows.row + 1 = rows.endRow
      · simp only [place, rowTail, hfinal]
        rfl
      · simp [place, rowTail, hfinal]
    refine ⟨[some ⟨g.instructionId, id, leading, false⟩, some (g.rowTail ((id + 1) % u32) rows)],
      (id + (1 + 1)) % u32, .cons hfirst (.cons rfl (.nil _)), ?_⟩
    have hnone : Nz2ndWriteUop.view ⟨g.instructionId, id, leading, false⟩ = none := by
      simp [Nz2ndWriteUop.view, hlead]
    rw [credited, List.filterMap_cons, Option.bind_some, hnone, List.filterMap_cons, Option.bind_some, rowTail_view]
    cases g.rowFragment rows <;> rfl

theorem group_turns (id : Nat) (reads : Nz2ndReadGenerator) (m : Memo) {rows : RowGroup}
    (hrow : rows.row < rows.endRow) :
    ∃ l id', Takes turn (g.place id reads m (some rows)) l (g.place id' reads m none) ∧
      credited l = (List.range (rows.endRow - rows.row)).flatMap fun i =>
        (g.rowFragment { rows with row := rows.row + i }).toList := by
  obtain ⟨l, s, ht, ⟨id', rfl⟩, hl⟩ := Takes.turns (n := rows.endRow - rows.row)
    (A := fun i s => ∃ id, s = g.place id reads m
      (if rows.row + i = rows.endRow then none else some { rows with row := rows.row + i }))
    (P := fun i l => credited l = (g.rowFragment { rows with row := rows.row + i }).toList)
    (fun i hi s ⟨id, hs⟩ => by
      obtain ⟨l, id', ht, hl⟩ := g.write_turns id reads m { rows with row := rows.row + i }
      rw [hs, if_neg (by omega)]
      exact ⟨l, _, ht, ⟨id', rfl⟩, hl⟩)
    ⟨id, rfl⟩
  rw [Nat.add_zero, if_neg hrow.ne, if_pos (by omega)] at ht
  refine ⟨_, id', ht, ?_⟩
  rw [credited_flatMap]
  exact flatMap_congr_range hl

/-- The fragments that a read gives: those of the rows of its group, if it closes one. -/
def readFragments (g : Nz2ndWriteGenerator) (nd row t : Nat) : List FragmentView :=
  if g.command.descriptor.closesGroup t then
    (List.range (g.reads.rowsAt nd row)).flatMap fun i =>
      (g.rowFragment { g.group nd row t with row := row + i }).toList
  else []

/-- Before a read. -/
def Before (g : Nz2ndWriteGenerator) (nd row t : Nat) (s : Nz2ndWriteGenerator) : Prop :=
  ∃ id id' m, s = g.place id (g.reads.place id' nd row t) m none ∧ g.Ready nd row t m

/-- Behind a block of rows. -/
def Behind (g : Nz2ndWriteGenerator) (nd row : Nat) (s : Nz2ndWriteGenerator) : Prop :=
  if row < g.command.descriptor.rows then g.Before nd row 0 s else g.Before (nd + 1) 0 0 s

theorem Accepted.read_turns (h : g.Accepted l) {nd row t : Nat} (hnd : nd < g.reads.ndCount)
    (hrow : row < g.command.descriptor.rows) (hwhole : g.reads.Whole nd row)
    (ht : t < g.command.descriptor.rowReads) {s : Nz2ndWriteGenerator} (hs : g.Before nd row t s) :
    ∃ l s', Takes turn s l s' ∧
      (if t + 1 < g.command.descriptor.rowReads then g.Before nd row (t + 1) s'
        else g.Behind nd (row + g.reads.rowsAt nd row) s') ∧
      credited l = g.readFragments nd row t := by
  obtain ⟨id, id', m, rfl, hm⟩ := hs
  have hd : g.reads.command.descriptor = g.command.descriptor := by rw [h.command.1]
  have hrows := (h.reads.rowsAt (hd ▸ hrow) hwhole).1
  have hturn := h.read_turn id id' hm hnd hrow hwhole ht
  have hafter (id : Nat) : if t + 1 < g.command.descriptor.rowReads then
      g.Before nd row (t + 1) (g.place id (g.reads.follow ((id' + 1) % u32) nd row t) (g.after nd row t) none)
      else g.Behind nd (row + g.reads.rowsAt nd row)
        (g.place id (g.reads.follow ((id' + 1) % u32) nd row t) (g.after nd row t) none) := by
    unfold Nz2ndReadGenerator.follow
    rw [hd]
    by_cases hmore : t + 1 < g.command.descriptor.rowReads
    · simp only [if_pos hmore]
      exact ⟨id, _, _, rfl, rfl⟩
    · simp only [if_neg hmore]
      unfold Behind
      by_cases hmore : row + g.reads.rowsAt nd row < g.command.descriptor.rows
      · simp only [if_pos hmore]
        refine ⟨id, _, _, rfl, fun old hold heq => ?_⟩
        obtain rfl := Option.some.inj hold
        rw [Prod.mk.injEq] at heq
        simp only at heq
        omega
      · simp only [if_neg hmore]
        refine ⟨id, _, _, rfl, fun old hold heq => ?_⟩
        obtain rfl := Option.some.inj hold
        rw [Prod.mk.injEq] at heq
        simp only at heq
        omega
  unfold readFragments
  cases hcloses : g.command.descriptor.closesGroup t with
  | false =>
    rw [hcloses, if_neg (by decide)] at hturn
    exact ⟨[none], _, .cons hturn (.nil _), hafter id, rfl⟩
  | true =>
    rw [hcloses, if_pos rfl] at hturn
    obtain ⟨l, id'', ht, hl⟩ := g.group_turns id (g.reads.follow ((id' + 1) % u32) nd row t) (g.after nd row t)
      (show (g.group nd row t).row < (g.group nd row t).endRow from Nat.lt_add_of_pos_right hrows)
    refine ⟨none :: l, _, .cons hturn ht, hafter id'', ?_⟩
    rw [show credited (none :: l) = credited l from rfl, hl, if_pos rfl,
      show (g.group nd row t).endRow - (g.group nd row t).row = g.reads.rowsAt nd row from Nat.add_sub_cancel_left _ _]
    rfl

/-- The fragments of a block of rows. -/
def blockFragments (g : Nz2ndWriteGenerator) (nd row : Nat) : List FragmentView :=
  (List.range g.command.descriptor.rowReads).flatMap (g.readFragments nd row)

theorem Accepted.block_turns (h : g.Accepted l) {nd row : Nat} (hnd : nd < g.reads.ndCount)
    (hrow : row < g.command.descriptor.rows) (hwhole : g.reads.Whole nd row) {s : Nz2ndWriteGenerator}
    (hs : g.Before nd row 0 s) :
    ∃ l s', Takes turn s l s' ∧ g.Behind nd (row + g.reads.rowsAt nd row) s' ∧
      credited l = g.blockFragments nd row := by
  have hd : g.reads.command.descriptor = g.command.descriptor := by rw [h.command.1]
  have hreads : 0 < g.command.descriptor.rowReads := Descriptor.rowReads_pos _ (hd ▸ h.reads.extents.2.1)
  obtain ⟨l, s', ht, hafter, hl⟩ := Takes.turns (n := g.command.descriptor.rowReads)
    (A := fun t s => if t < g.command.descriptor.rowReads then g.Before nd row t s
      else g.Behind nd (row + g.reads.rowsAt nd row) s)
    (P := fun t l => credited l = g.readFragments nd row t)
    (fun t ht s hs => h.read_turns hnd hrow hwhole ht (by rwa [if_pos ht] at hs)) (by rwa [if_pos hreads])
  rw [if_neg (lt_irrefl _)] at hafter
  refine ⟨_, s', ht, hafter, ?_⟩
  rw [credited_flatMap]
  exact flatMap_congr_range hl

/-- The fragments of a matrix, whose rows are tiled by the blocks that are read. -/
def MatrixFragments (g : Nz2ndWriteGenerator) (nd : Nat) (fragments : List FragmentView) : Prop :=
  ∃ rows : List Nat, Tiles id (g.reads.rowsAt nd) 0 rows g.command.descriptor.rows ∧
    fragments = rows.flatMap (g.blockFragments nd)

theorem Accepted.matrix_turns (h : g.Accepted l) {nd : Nat} (hnd : nd < g.reads.ndCount) {s : Nz2ndWriteGenerator}
    (hs : g.Before nd 0 0 s) :
    ∃ l s', Takes turn s l s' ∧ g.Before (nd + 1) 0 0 s' ∧ g.MatrixFragments nd (credited l) := by
  have hd : g.reads.command.descriptor = g.command.descriptor := by rw [h.command.1]
  have hrows : 0 < g.command.descriptor.rows := hd ▸ h.reads.extents.1
  obtain ⟨xs, s', ht, ⟨hafter, -⟩, htiles, hxs⟩ := Takes.through (n := g.command.descriptor.rows) (g := g.reads.rowsAt nd)
    (A := fun row s => g.Behind nd row s ∧ g.reads.Whole nd row)
    (P := fun row (l : List (Option Nz2ndWriteUop)) => credited l = g.blockFragments nd row) (l := id)
    (fun row hrow s ⟨hs, hwhole⟩ => by
      obtain ⟨hpos, hle, hwhole'⟩ := h.reads.rowsAt (hd ▸ hrow) hwhole
      rw [Behind, if_pos hrow] at hs
      obtain ⟨l, s', ht, hafter, hl⟩ := h.block_turns hnd hrow hwhole hs
      exact ⟨⟨hpos, hd ▸ hle⟩, l, s', ht, ⟨hafter, hwhole'⟩, hl⟩)
    (Nat.zero_le _) ⟨by rwa [Behind, if_pos hrows], h.reads.whole hnd⟩
  rw [Behind, if_neg (lt_irrefl _)] at hafter
  refine ⟨_, s', ht, hafter, xs.map Prod.fst, tiles_map.mpr htiles, ?_⟩
  rw [credited_flatMap, List.flatMap_map]
  exact List.flatMap_congr hxs

/-- All fragments, matrix by matrix. -/
theorem Accepted.all_turns (h : g.Accepted l) {s : Nz2ndWriteGenerator} (hs : g.Before 0 0 0 s) :
    ∃ (l : Nat → List (Option Nz2ndWriteUop)) (s' : Nz2ndWriteGenerator),
      Takes turn s ((List.range g.reads.ndCount).flatMap l) s' ∧ s'.turn = none ∧
      ∀ nd < g.reads.ndCount, g.MatrixFragments nd (credited (l nd)) := by
  obtain ⟨l, s', ht, ⟨id, id', m, rfl, -⟩, hl⟩ := Takes.turns (A := fun nd s => g.Before nd 0 0 s)
    (P := fun nd l => g.MatrixFragments nd (credited l)) (fun nd hnd s hs => h.matrix_turns hnd hs) hs
  refine ⟨l, _, ht, ?_, hl⟩
  have hnone : (g.reads.place id' g.reads.ndCount 0 0).next = none := if_pos rfl
  unfold turn
  rw [show (g.place id (g.reads.place id' g.reads.ndCount 0 0) m none).reads.next = none from hnone]
  rfl

/-! ## Pieces -/

/-- Whether a row of a group is written by whole lines of 512 bytes. -/
def byLines (g : Nz2ndWriteGenerator) (t : Nat) : Bool :=
  decide (3 < t / g.command.descriptor.readsPerUnit % 8) && !g.planner.gather && g.planner.aligned512

/-- Where a row of a group begins. -/
def pieceAddress (g : Nz2ndWriteGenerator) (nd row t : Nat) : UInt64 :=
  let d := g.command.descriptor
  g.command.destinationAddress + (g.format.storageBytes (nd * d.destinationNdStride % u32)).toUInt64 +
    (g.format.storageBytes (row * d.destinationStride % u32)).toUInt64 +
    (g.firstColumn t * g.format.storageBytes 16).toUInt64

/-- The address and the bytes of a row of a group; of two groups written by lines, the second has the bytes of both. -/
def piece (g : Nz2ndWriteGenerator) (nd row t : Nat) : Option (UInt64 × Nat) :=
  let d := g.command.descriptor
  let k := t / d.readsPerUnit
  if g.byLines t then
    if k % 16 = 15 then some (((g.pieceAddress nd row t).toNat / 512 * 512).toUInt64, 512) else none
  else some (g.pieceAddress nd row t, g.planner.rowBytes k (decide (t + 1 = d.rowReads)))

/-- Whether a piece is the last of its matrix. -/
def endsMatrix (g : Nz2ndWriteGenerator) (row t : Nat) : Bool :=
  t + 1 = g.command.descriptor.rowReads ∧ row + 1 = g.command.descriptor.rows

def fragment (g : Nz2ndWriteGenerator) (nd row t : Nat) : Option FragmentView :=
  (g.piece nd row t).map fun p => {
    address := p.1
    bytes := p.2
    closed := !g.planner.gather || g.endsMatrix row t
    last := g.endsMatrix row t && decide (nd + 1 = g.command.descriptor.ndCount)
    gather := g.planner.gather
    rowBytes := if g.planner.gather then 0 else p.2 }

/-- The fragment of a row of a group is the same, whatever rows are read with it. -/
theorem rowFragment_eq {nd row t i : Nat} (hi : i < g.reads.rowsAt nd row)
    (hrows : row + g.reads.rowsAt nd row ≤ g.command.descriptor.rows) :
    g.rowFragment { g.group nd row t with row := row + i } = g.fragment nd (row + i) t := by
  have hends : (decide (row + i + 1 = row + g.reads.rowsAt nd row) &&
      decide (t + 1 = g.command.descriptor.rowReads ∧ row + g.reads.rowsAt nd row = g.command.descriptor.rows)) =
        g.endsMatrix (row + i) t := by
    rw [endsMatrix, Bool.eq_iff_iff, Bool.and_eq_true, decide_eq_true_iff, decide_eq_true_iff, decide_eq_true_iff]
    omega
  unfold rowFragment
  show (let tail := (g.planner.planRow (t / g.command.descriptor.readsPerUnit)
      (decide (t + 1 = g.command.descriptor.rowReads)) (g.pieceAddress nd (row + i) t)).tail
    let endOfNd := decide (row + i + 1 = row + g.reads.rowsAt nd row) &&
      decide (t + 1 = g.command.descriptor.rowReads ∧ row + g.reads.rowsAt nd row = g.command.descriptor.rows)
    if tail.lastInUop then
      some (FragmentView.mk tail.destinationAddress tail.bytes (tail.endOfBurst || endOfNd)
        (endOfNd && decide (nd + 1 = g.command.descriptor.ndCount)) tail.gather tail.burstBytes)
    else none) = _
  rw [hends]
  unfold fragment piece byLines Nz2ndWritePlanner.planRow
  by_cases hlong : 3 < t / g.command.descriptor.readsPerUnit % 8
  · cases hgather : g.planner.gather with
    | true => simp [hlong, hgather]
    | false =>
      cases haligned : g.planner.aligned512 with
      | false => simp [hlong, hgather, haligned]
      | true =>
        by_cases hlast : t / g.command.descriptor.readsPerUnit % 16 = 15 <;> simp [hlong, hgather, haligned, hlast]
  · simp [hlong]

theorem Accepted.blockFragments (h : g.Accepted l) {nd row : Nat}
    (hrows : row + g.reads.rowsAt nd row ≤ g.command.descriptor.rows) :
    g.blockFragments nd row = (List.range g.command.descriptor.rowReads).flatMap fun t =>
      if g.command.descriptor.closesGroup t then
        (List.range (g.reads.rowsAt nd row)).flatMap fun i => (g.fragment nd (row + i) t).toList
      else [] := by
  unfold Nz2ndWriteGenerator.blockFragments readFragments
  refine List.flatMap_congr fun t _ => ?_
  split_ifs
  · refine flatMap_congr_range fun i hi => ?_
    rw [rowFragment_eq hi hrows]
  · rfl

/-- The fragments of a row, group by group. -/
def rowFragments (g : Nz2ndWriteGenerator) (nd row : Nat) : List FragmentView :=
  (List.range g.command.descriptor.rowReads).flatMap fun t =>
    if g.command.descriptor.closesGroup t then (g.fragment nd row t).toList else []

/-- A matrix has the fragments of its rows, in some order. -/
theorem Accepted.matrix_perm (h : g.Accepted l) {nd : Nat} {fragments : List FragmentView}
    (hf : g.MatrixFragments nd fragments) :
    fragments.Perm ((List.range g.command.descriptor.rows).flatMap (g.rowFragments nd)) := by
  obtain ⟨rows, htiles, rfl⟩ := hf
  have hpoints := htiles.flatMap_points id
  have hblock : ∀ row ∈ rows, (g.blockFragments nd row).Perm
      ((List.range (g.reads.rowsAt nd row)).flatMap fun i => g.rowFragments nd (row + i)) := by
    intro row hrow
    have hbounds := htiles.bounds hrow
    simp only [id] at hbounds
    rw [h.blockFragments hbounds.2.2]
    have hswap := flatMap_swap (List.range (g.reads.rowsAt nd row)) (List.range g.command.descriptor.rowReads)
      fun i t => if g.command.descriptor.closesGroup t then (g.fragment nd (row + i) t).toList else []
    refine (List.Perm.of_eq (List.flatMap_congr fun t _ => ?_)).trans hswap.symm
    by_cases hcloses : g.command.descriptor.closesGroup t = true <;> simp [hcloses]
  refine (List.Perm.flatMap_left _ hblock).trans (List.Perm.of_eq ?_)
  simp only [Nat.zero_add, Nat.sub_zero, id] at hpoints
  rw [← List.map_id' (List.range g.command.descriptor.rows), ← hpoints, List.flatMap_assoc]
  refine List.flatMap_congr fun row _ => ?_
  rw [List.flatMap_map]

end Nz2ndWriteGenerator

end AscendEmulator.C220.Fixp
