/-
  AscendEmulator.C220.Fixp.ReadUopProofs — the reads of a FIX transfer without matrices cover its column blocks, and
  their bursts the destinations of its slices.

  A generator is at a row of a column block (`place`); whatever the bandwidth, its reads tile the block's rows
  (`block_reads`). The bursts of a block's reads join to one (`block_burst`), which is compared with the slices of the
  blocks that are merged into it.

  - `reads_cover`: every row of every block is read once, in order; the bursts cover the bytes of the slices, and the
    last read alone ends the instruction.
-/

import AscendEmulator.C220.Fixp.ExternalQueueProofs
import AscendEmulator.C220.Fixp.LayoutProofs
import AscendEmulator.C220.Fixp.ReadUop
import AscendEmulator.Lib.Cuts

namespace AscendEmulator.C220.Fixp

open Lib Cuts C220.Memory

namespace ReadGenerator

/-! ## Places -/

variable (g : ReadGenerator)

/-- The bytes that a row of 16 lanes of a block gives at the output. -/
def rowOutput (block : Nat) : Nat :=
  let mode := g.command.descriptor.conversionMode
  if { g with columnBlock := block }.singleton then 16 else if g.split then 32 else if mode = 0 then 64
  else if mode ∈ [17, 18] then 16
  else if g.int4 && !g.merge then 8 else 32

/-- The generator at a row of a block. -/
def place (block row id : Nat) : ReadGenerator :=
  { g with
    nextId := id
    columnBlock := block
    sourceOffset := row * g.sourceRowBytes
    destinationOffset := row * g.rowOutput block }

/-- How many rows are read there. -/
def rowsAt (block row : Nat) : Nat := (g.place block row 0).dataBytes / g.sourceRowBytes

/-- What is asked of the command, and what `new` makes of it. -/
structure Accepted (l : Layout) : Prop where
  layout : g.command.layout = .ok l
  plain : g.command.descriptor.nzToNd = false
  enabled : g.command.descriptor.isDisabled = false
  blocks : g.columnBlocks = (g.command.descriptor.columns + 15) / 16
  bandwidth : 0 < g.bandwidth ∧ g.sourceRowBytes ∣ g.bandwidth
  source : g.sourceRowBytes ∣ g.command.sourceAddress.toNat
  bytes : g.command.descriptor.conversionMode ∈ [8, 9, 23, 24] → g.command.descriptor.columns % 16 = 0
  split : g.split = true → g.command.descriptor.columns % 8 = 0 ∧ g.command.descriptor.destinationStride % 16 = 0
  mode : g.command.descriptor.conversionMode ∉ [19, 20]

variable {g} {l : Layout}

theorem sourceRowBytes_cases (g : ReadGenerator) : g.sourceRowBytes = 64 ∨ g.sourceRowBytes = 32 := by
  unfold sourceRowBytes
  cases g.command.sourceFormat <;> decide

theorem sourceRowBytes_dvd (g : ReadGenerator) : g.sourceRowBytes ∣ 2 ^ 32 ∧ g.sourceRowBytes ∣ 2 ^ 64 := by
  rcases g.sourceRowBytes_cases with h | h <;> rw [h] <;> decide

theorem Accepted.layout_eq (h : g.Accepted l) :
    l.descriptor = g.command.descriptor ∧ l.source = g.command.sourceAddress.toNat ∧
      l.destination = g.command.destinationAddress.toNat ∧ l.sourceFormat = g.command.sourceFormat := by
  have hnew := h.layout
  unfold TransferCommand.layout Layout.new at hnew
  split at hnew
  · cases hnew
  · cases hnew
    exact ⟨rfl, rfl, rfl, rfl⟩

theorem Accepted.rows_pos (h : g.Accepted l) : 0 < g.command.descriptor.rows ∧ 0 < g.command.descriptor.columns := by
  have henabled := h.enabled
  simp only [Descriptor.isDisabled, Bool.or_eq_false_iff, beq_eq_false_iff_ne] at henabled
  omega

/-- Bytes are merged in whole blocks. -/
theorem Accepted.merge_columns (h : g.Accepted l) (hm : g.merge = true) : g.command.descriptor.columns % 16 = 0 := by
  simp only [merge, Bool.or_eq_true, decide_eq_true_eq, Bool.and_eq_true, beq_iff_eq] at hm
  rcases hm with hbytes | ⟨-, hcolumns⟩
  · exact h.bytes hbytes
  · omega

theorem Accepted.partialSingleton (h : g.Accepted l) (block row id : Nat) :
    (g.place block row id).partialSingleton = false := by
  cases hm : g.merge with
  | false => simp [ReadGenerator.partialSingleton, singleton, show (g.place block row id).merge = false from hm]
  | true =>
    have hcolumns := h.merge_columns hm
    simp [ReadGenerator.partialSingleton, show (g.place block row id).command = g.command from rfl, hcolumns]

theorem Accepted.columnBytes (h : g.Accepted l) (block row id : Nat) :
    (g.place block row id).columnBytes = g.command.descriptor.rows * g.sourceRowBytes := by
  rw [ReadGenerator.columnBytes, h.partialSingleton block row id]
  rfl

theorem address_toNat (block row id : Nat) : (g.place block row id).address.toNat =
    (g.command.sourceAddress.toNat +
      block * g.command.descriptor.sourceStride % u32 * g.sourceRowBytes % u32 + row * g.sourceRowBytes) % u64 := by
  show (g.command.sourceAddress +
    (block * g.command.descriptor.sourceStride % u32 * g.sourceRowBytes % u32).toUInt64 +
    (row * g.sourceRowBytes).toUInt64).toNat = _
  simp only [UInt64.toNat_add, Nat.toUInt64_eq, UInt64.toNat_ofNat', Nat.add_mod_mod, Nat.mod_add_mod]
  rfl

theorem Accepted.address_dvd (h : g.Accepted l) (block row id : Nat) :
    g.sourceRowBytes ∣ (g.place block row id).address.toNat := by
  obtain ⟨hword, hlong⟩ := g.sourceRowBytes_dvd
  rw [address_toNat, show u64 = 2 ^ 64 from rfl, show u32 = 2 ^ 32 from rfl, Nat.dvd_mod_iff hlong]
  refine Nat.dvd_add (Nat.dvd_add h.source ?_) (Nat.dvd_mul_left _ _)
  rw [Nat.dvd_mod_iff hword]
  exact Nat.dvd_mul_left _ _

/-- The reads end where the bandwidth does, after whole rows. -/
theorem Accepted.boundary (h : g.Accepted l) (block row id : Nat) :
    g.sourceRowBytes ∣ (g.place block row id).boundary ∧ 0 < (g.place block row id).boundary := by
  obtain ⟨hpos, hdvd⟩ := h.bandwidth
  have hword := (g.sourceRowBytes_dvd).1
  have hlt := Nat.mod_lt (g.place block row id).address.toUInt32.toNat hpos
  refine ⟨Nat.dvd_sub hdvd ?_, Nat.sub_pos_of_lt hlt⟩
  show _ ∣ _ % g.bandwidth
  rw [Nat.dvd_mod_iff hdvd, UInt64.toNat_toUInt32, Nat.dvd_mod_iff hword]
  exact h.address_dvd block row id

theorem dataBytes_id (block row id id' : Nat) :
    (g.place block row id).dataBytes = (g.place block row id').dataBytes := rfl

/-- Whole rows are read, at least one, and none beyond the last. -/
theorem Accepted.rowsAt (h : g.Accepted l) (block id : Nat) {row : Nat} (hrow : row < g.command.descriptor.rows) :
    (g.place block row id).dataBytes = g.rowsAt block row * g.sourceRowBytes ∧ 0 < g.rowsAt block row ∧
      row + g.rowsAt block row ≤ g.command.descriptor.rows := by
  obtain ⟨⟨b, hb⟩, hpos⟩ := h.boundary block row id
  have hw : 0 < g.sourceRowBytes := by rcases g.sourceRowBytes_cases with h | h <;> omega
  rw [Nat.mul_comm] at hb
  have hb' : 0 < b := by
    rw [hb] at hpos
    exact Nat.pos_of_mul_pos_right hpos
  have hdata : (g.place block row id).dataBytes = min (g.command.descriptor.rows - row) b * g.sourceRowBytes := by
    show min ((g.place block row id).columnBytes - row * g.sourceRowBytes) (g.place block row id).boundary = _
    rw [h.columnBytes, hb, ← Nat.sub_mul, Nat.mul_min_mul_right]
  have hrows : g.rowsAt block row = min (g.command.descriptor.rows - row) b := by
    rw [ReadGenerator.rowsAt, dataBytes_id block row 0 id, hdata, Nat.mul_div_cancel _ hw]
  rw [hrows]
  exact ⟨hdata, by omega, by omega⟩

theorem Accepted.mode_zero (h : g.Accepted l) (hm : g.command.descriptor.conversionMode = 0) :
    g.sourceRowBytes = 64 := by
  have hnew := h.layout
  unfold TransferCommand.layout Layout.new OutputFormat.fromConversionMode at hnew
  rw [hm] at hnew
  unfold sourceRowBytes
  cases hf : g.command.sourceFormat <;> first | rfl | simp [hf] at hnew

theorem Accepted.outputBytes (h : g.Accepted l) (block id : Nat) {row : Nat} (hrow : row < g.command.descriptor.rows) :
    (g.place block row id).outputBytes = g.rowsAt block row * g.rowOutput block := by
  obtain ⟨hdata, -, hle⟩ := h.rowsAt block id hrow
  have hrows := Layout.rows_lt g.command.descriptor
  have hw : 0 < g.sourceRowBytes := by rcases g.sourceRowBytes_cases with h | h <;> omega
  have hlt (k : Nat) (hk : k ≤ 32) : g.rowsAt block row * g.sourceRowBytes * k < u32 := by
    calc g.rowsAt block row * g.sourceRowBytes * k ≤ 2 ^ 16 * 64 * 32 := by
          refine Nat.mul_le_mul (Nat.mul_le_mul (by omega) ?_) hk
          rcases g.sourceRowBytes_cases with h | h <;> omega
      _ < u32 := by decide
  have hword (k : Nat) (hk : k ≤ 32) :
      g.rowsAt block row * g.sourceRowBytes * k % u32 / g.sourceRowBytes = g.rowsAt block row * k := by
    rw [Nat.mod_eq_of_lt (hlt k hk), Nat.mul_right_comm, Nat.mul_div_cancel _ hw]
  have hmode := h.mode
  unfold ReadGenerator.outputBytes rowOutput
  rw [h.partialSingleton, hdata]
  show (if (g.place block row id).singleton = true then
      g.rowsAt block row * g.sourceRowBytes * 32 % u32 / g.sourceRowBytes / 2
    else if g.split = true then g.rowsAt block row * g.sourceRowBytes / 2
    else if g.command.descriptor.conversionMode = 0 then g.rowsAt block row * g.sourceRowBytes
    else if g.command.descriptor.conversionMode ∈ [17, 18] then
      g.rowsAt block row * g.sourceRowBytes * 16 % u32 / g.sourceRowBytes
    else if g.command.descriptor.conversionMode ∈ [19, 20] then 0
    else if (g.int4 && !g.merge) = true then g.rowsAt block row * g.sourceRowBytes * 8 % u32 / g.sourceRowBytes
    else g.rowsAt block row * g.sourceRowBytes * 32 % u32 / g.sourceRowBytes) =
    g.rowsAt block row * if (g.place block row id).singleton = true then 16 else if g.split = true then 32
      else if g.command.descriptor.conversionMode = 0 then 64
      else if g.command.descriptor.conversionMode ∈ [17, 18] then 16 else if (g.int4 && !g.merge) = true then 8 else 32
  rw [hword 32 (by decide), hword 16 (by decide), hword 8 (by decide), if_neg hmode]
  by_cases hsingleton : (g.place block row id).singleton = true
  · rw [if_pos hsingleton, if_pos hsingleton]
    omega
  · rw [if_neg hsingleton, if_neg hsingleton]
    by_cases hsplit : g.split = true
    · have hzero : g.command.descriptor.conversionMode = 0 := by
        simp only [ReadGenerator.split, Bool.and_eq_true, beq_iff_eq] at hsplit
        exact hsplit.1
      rw [if_pos hsplit, if_pos hsplit, h.mode_zero hzero]
      omega
    · rw [if_neg hsplit, if_neg hsplit]
      by_cases hzero : g.command.descriptor.conversionMode = 0
      · rw [if_pos hzero, if_pos hzero, h.mode_zero hzero]
      · rw [if_neg hzero, if_neg hzero]
        split_ifs <;> rfl

/-! ## Reads -/

theorem Accepted.endOfBurst (h : g.Accepted l) (block id : Nat) {row : Nat} (hrow : row < g.command.descriptor.rows) :
    (g.place block row id).endOfBurst = decide (row + g.rowsAt block row = g.command.descriptor.rows) := by
  have hw : 0 < g.sourceRowBytes := by rcases g.sourceRowBytes_cases with h | h <;> omega
  rw [ReadGenerator.endOfBurst, h.columnBytes, (h.rowsAt block id hrow).1]
  show decide (row * g.sourceRowBytes + _ = _) = _
  simp only [← Nat.add_mul, Nat.mul_left_inj hw.ne']

/-- A read leads to the row behind those it reads, or to the next block. -/
theorem Accepted.next_place (h : g.Accepted l) {block row : Nat} (id : Nat) (hblock : block < g.columnBlocks)
    (hrow : row < g.command.descriptor.rows) :
    (g.place block row id).next = some ((g.place block row id).operation,
      if row + g.rowsAt block row < g.command.descriptor.rows then
        g.place block (row + g.rowsAt block row) ((id + 1) % u32)
      else g.place (block + 1) 0 ((id + 1) % u32)) := by
  obtain ⟨hdata, -, hle⟩ := h.rowsAt block id hrow
  have hadvance : (g.place block row id).advance =
      if row + g.rowsAt block row < g.command.descriptor.rows then
        g.place block (row + g.rowsAt block row) ((id + 1) % u32)
      else g.place (block + 1) 0 ((id + 1) % u32) := by
    unfold advance
    rw [h.endOfBurst block id hrow]
    by_cases hend : row + g.rowsAt block row = g.command.descriptor.rows
    · simp only [hend, decide_true, if_true, lt_irrefl, if_false]
      simp [place]
    · rw [if_neg (by simpa using hend), if_pos (by omega), hdata, h.outputBytes block id hrow]
      simp [place, Nat.add_mul]
  unfold next
  rw [if_neg (show (g.place block row id).columnBlock ≠ (g.place block row id).columnBlocks from hblock.ne), hadvance]

/-- The reads of a block, by the row and the number they are made at. -/
def readsOf (g : ReadGenerator) (block : Nat) (rows : List (Nat × Nat)) : List L0cReadOperation :=
  rows.map fun y => (g.place block y.1 y.2).operation

/-- Reads whose rows tile a block. -/
def BlockReads (g : ReadGenerator) (block : Nat) (reads : List L0cReadOperation) : Prop :=
  ∃ rows, reads = g.readsOf block rows ∧
    Tiles Prod.fst (fun y => g.rowsAt block y.1) 0 rows g.command.descriptor.rows

theorem Accepted.block_reads (h : g.Accepted l) {block : Nat} (hblock : block < g.columnBlocks) (id : Nat) :
    ∃ reads id', Takes next (g.place block 0 id) reads (g.place (block + 1) 0 id') ∧ g.BlockReads block reads := by
  obtain ⟨rows, id', ht, htiles, -⟩ := Takes.walk
    (f := fun row id => if row < g.command.descriptor.rows then g.place block row id else g.place (block + 1) 0 id)
    (l := fun row id => [(g.place block row id).operation]) (g := g.rowsAt block)
    (fun row hrow (_ : True) => (h.rowsAt block 0 hrow).2) (fun _ _ _ => trivial)
    (fun row hrow id _ => ⟨(id + 1) % u32, by
      rw [if_pos hrow]
      exact .cons (h.next_place id hblock hrow) (.nil _)⟩)
    (Nat.zero_le _) trivial id
  rw [if_pos h.rows_pos.1, if_neg (lt_irrefl _), ← List.map_eq_flatMap] at ht
  exact ⟨_, id', ht, rows, rfl, htiles⟩

/-- The reads go through the blocks, one after the other. -/
theorem Accepted.reads (h : g.Accepted l) (id : Nat) :
    ∃ (reads : Nat → List L0cReadOperation) (id' : Nat),
      Takes next (g.place 0 0 id) ((List.range g.columnBlocks).flatMap reads) (g.place g.columnBlocks 0 id') ∧
      ∀ block < g.columnBlocks, g.BlockReads block (reads block) := by
  obtain ⟨reads, s, ht, ⟨id', rfl⟩, hreads⟩ := Takes.turns (A := fun block s => ∃ id, s = g.place block 0 id)
    (P := g.BlockReads) (fun block hblock s ⟨id, hs⟩ => by
      obtain ⟨reads, id', ht, hreads⟩ := h.block_reads hblock id
      exact ⟨reads, _, hs ▸ ht, ⟨id', rfl⟩, hreads⟩) ⟨id, rfl⟩
  exact ⟨reads, id', ht, hreads⟩

/-- The rows of 16 lanes that a read transfers. -/
def rowsRead (g : ReadGenerator) (op : L0cReadOperation) : List Nat :=
  (List.range (op.dataBytes / g.sourceRowBytes)).map fun k =>
    (op.request.fragments.address + k * g.sourceRowBytes) % u64

/-- A read is at the address of its row's first column. -/
theorem Accepted.row_address (h : g.Accepted l) (block row id k : Nat) :
    ((g.place block row id).address.toNat + k * g.sourceRowBytes) % u64 = l.columnAddress 0 (row + k) (block * 16) := by
  obtain ⟨hd, hsource, -, hformat⟩ := h.layout_eq
  have hrow : l.sourceRowBytes = g.sourceRowBytes := by rw [Layout.sourceRowBytes, hformat, sourceRowBytes]
  have hoffset : block * g.command.descriptor.sourceStride % u32 * g.sourceRowBytes % u32 =
      block * g.sourceRowBytes % u32 * g.command.descriptor.sourceStride % u32 := by
    rw [Nat.mod_mul_mod, Nat.mod_mul_mod, Nat.mul_right_comm]
  unfold Layout.columnAddress
  rw [address_toNat, hd, h.plain, hsource, hrow, Nat.mod_add_mod, Nat.mul_div_cancel _ (by decide), Nat.mul_mod_left,
    hoffset, Nat.add_mul]
  congr 1
  simp only [Bool.false_eq_true, if_false]
  omega

theorem Accepted.block_rows (h : g.Accepted l) {block : Nat} {reads : List L0cReadOperation}
    (hreads : g.BlockReads block reads) :
    reads.flatMap g.rowsRead =
      (List.range g.command.descriptor.rows).map fun row => l.columnAddress 0 row (block * 16) := by
  obtain ⟨rows, rfl, htiles⟩ := hreads
  rw [readsOf, List.flatMap_map]
  have hpoints := htiles.flatMap_points fun row => l.columnAddress 0 row (block * 16)
  simp only [Nat.zero_add, Nat.sub_zero] at hpoints
  rw [← hpoints]
  refine List.flatMap_congr fun y _ => List.map_congr_left fun k _ => ?_
  exact h.row_address block y.1 y.2 k

/-! ## Bursts -/

/-- What the burst of a whole block is, but for the names of its instruction and request. -/
structure BlockBurst (g : ReadGenerator) (block : Nat) (burst : ExternalBurst) : Prop where
  closed : burst.closed = true
  address : burst.address = (g.place block 0 0).destinationAddress
  bytes : burst.bytes = g.command.descriptor.rows * g.rowOutput block
  second : burst.secondChannelOffset = (g.place block 0 0).secondChannelOffset

theorem rowOutput_le (g : ReadGenerator) (block : Nat) : g.rowOutput block ≤ 64 := by
  unfold rowOutput
  dsimp only
  split_ifs <;> decide

/-- The fragment of a read is what its rows give. -/
theorem Accepted.fragment (h : g.Accepted l) (policy : ExternalOutputPolicy) (readyTick block id : Nat) {row : Nat}
    (hrow : row < g.command.descriptor.rows) (hpublish : (g.place block 0 0).lastInUop = true) :
    ∃ f, columnBurst policy readyTick (g.place block row id).operation = some f ∧
      f.bytes = g.rowsAt block row * g.rowOutput block ∧
      f.closed = decide (row + g.rowsAt block row = g.command.descriptor.rows) ∧
      (row = 0 → f.address = (g.place block 0 0).destinationAddress) ∧
      f.secondChannelOffset = (g.place block 0 0).secondChannelOffset := by
  have hlast : (g.place block row id).operation.lastInUop = true := hpublish
  unfold columnBurst
  rw [if_pos hlast]
  refine ⟨_, rfl, h.outputBytes block id hrow, h.endOfBurst block id hrow, ?_, rfl⟩
  rintro rfl
  rfl

theorem tiles_none {rows : List (Nat × Nat)} {size : Nat × Nat → Nat} {a : Nat} (h : Tiles Prod.fst size a rows a) :
    rows = [] := by
  cases rows with
  | nil => rfl
  | cons y rows =>
    obtain ⟨-, hpos, ht⟩ := h
    have := ht.le
    omega

/-- An open burst takes in the fragments of the rows that are left, and is closed with the last. -/
theorem Accepted.tail_burst (h : g.Accepted l) (policy : ExternalOutputPolicy) {block row : Nat}
    {rows : List (Nat × Nat)} (hpublish : (g.place block 0 0).lastInUop = true)
    (htiles : Tiles Prod.fst (fun y => g.rowsAt block y.1) row rows g.command.descriptor.rows)
    (hrow : row < g.command.descriptor.rows) {tail : ExternalBurst} (hopen : tail.closed = false)
    (hbytes : tail.bytes = row * g.rowOutput block)
    (haddress : tail.address = (g.place block 0 0).destinationAddress)
    (hsecond : tail.secondChannelOffset = (g.place block 0 0).secondChannelOffset)
    {received : List (Nat × L0cReadOperation)} (hreceived : received.map Prod.snd = g.readsOf block rows)
    (bursts : List ExternalBurst) :
    ∃ burst, (received.filterMap fun r => columnBurst policy r.1 r.2).foldl ExternalOutput.append (bursts ++ [tail]) =
      bursts ++ [burst] ∧ g.BlockBurst block burst := by
  induction rows generalizing row tail received with
  | nil => exact absurd htiles hrow.ne
  | cons y rows ih =>
    obtain ⟨rfl, -, ht⟩ := htiles
    change Tiles _ _ (y.1 + g.rowsAt block y.1) rows _ at ht
    rw [readsOf, List.map_cons] at hreceived
    obtain ⟨r, received, rfl, hr, hreceived⟩ := List.map_eq_cons_iff.mp hreceived
    obtain ⟨f, hf, hfbytes, hclosed, -, hfsecond⟩ := h.fragment policy r.1 block y.2 hrow hpublish
    have hjoined : (tail.extend f).bytes =
        (y.1 + g.rowsAt block y.1) * g.rowOutput block := by
      show (tail.bytes + f.bytes) % u32 = _
      rw [hbytes, hfbytes, ← Nat.add_mul]
      refine Nat.mod_eq_of_lt ?_
      have hrows := Layout.rows_lt g.command.descriptor
      have hout := g.rowOutput_le block
      calc _ ≤ 2 ^ 16 * 64 := Nat.mul_le_mul (by have := ht.le; omega) hout
        _ < u32 := by decide
    rw [List.filterMap_cons, hr, hf]
    simp only [List.foldl_cons]
    rw [append_concat, hopen, if_neg (by decide)]
    by_cases hend : y.1 + g.rowsAt block y.1 = g.command.descriptor.rows
    · rw [hend] at ht
      obtain rfl := tiles_none ht
      obtain rfl := List.map_eq_nil_iff.mp hreceived
      refine ⟨_, rfl, ?_, haddress, ?_, hsecond⟩
      · rw [show (tail.extend f).closed = f.closed from rfl, hclosed, decide_eq_true hend]
      · rw [hjoined, hend]
    · have hle := ht.le
      exact ih ht (by omega) (by rw [show (tail.extend f).closed = f.closed from rfl, hclosed, decide_eq_false hend])
        hjoined haddress hsecond hreceived

/-- Behind closed bursts, the reads of a block make one. -/
theorem Accepted.block_burst (h : g.Accepted l) (policy : ExternalOutputPolicy) {block : Nat}
    (hpublish : (g.place block 0 0).lastInUop = true) {received : List (Nat × L0cReadOperation)}
    (hreads : g.BlockReads block (received.map Prod.snd)) {bursts : List ExternalBurst}
    (hclosed : ∀ burst ∈ bursts, burst.closed = true) :
    ∃ burst, (received.filterMap fun r => columnBurst policy r.1 r.2).foldl ExternalOutput.append bursts =
      bursts ++ [burst] ∧ g.BlockBurst block burst := by
  obtain ⟨rows, hreceived, htiles⟩ := hreads
  have hrow := h.rows_pos.1
  cases rows with
  | nil => exact absurd htiles hrow.ne
  | cons y rows =>
    obtain ⟨hy, -, ht⟩ := htiles
    change Tiles _ _ (0 + g.rowsAt block y.1) rows _ at ht
    rw [readsOf, List.map_cons] at hreceived
    obtain ⟨r, received, rfl, hr, hreceived⟩ := List.map_eq_cons_iff.mp hreceived
    obtain ⟨f, hf, hfbytes, hfclosed, haddress, hfsecond⟩ :=
      h.fragment policy r.1 block y.2 (show y.1 < _ by omega) hpublish
    rw [List.filterMap_cons, hr, hf]
    simp only [List.foldl_cons]
    rw [append_closed hclosed]
    by_cases hend : y.1 + g.rowsAt block y.1 = g.command.descriptor.rows
    · rw [hy, Nat.zero_add] at hend
      rw [Nat.zero_add, hy, hend] at ht
      obtain rfl := tiles_none ht
      obtain rfl := List.map_eq_nil_iff.mp hreceived
      refine ⟨_, rfl, ?_, haddress hy, by rw [hfbytes, hy, hend], hfsecond⟩
      rw [hfclosed, hy, hend, Nat.zero_add, decide_eq_true rfl]
    · have hle := ht.le
      rw [Nat.zero_add] at ht
      refine h.tail_burst policy hpublish ht (by omega) (by rw [hfclosed, decide_eq_false hend]) ?_ (haddress hy)
        hfsecond hreceived bursts
      rw [hfbytes]

/-- The bytes that the burst of a block writes. -/
def blockBytes (g : ReadGenerator) (block : Nat) : List Nat :=
  let place := g.place block 0 0
  let bytes (address : UInt64) :=
    (List.range (g.command.descriptor.rows * g.rowOutput block)).map fun k =>
      (address.toNat + k) % u64
  if place.lastInUop then
    bytes place.destinationAddress ++
      (place.secondChannelOffset.map fun offset => bytes (place.destinationAddress + offset)).getD []
  else []

theorem BlockBurst.writtenBytes {block : Nat} {burst : ExternalBurst} (h : g.BlockBurst block burst)
    (hpublish : (g.place block 0 0).lastInUop = true) : burst.writtenBytes = g.blockBytes block := by
  unfold ExternalBurst.writtenBytes blockBytes
  rw [h.address, h.bytes, h.second]
  dsimp only
  rw [if_pos hpublish]

/-- The bursts of the blocks, one after the other. -/
theorem Accepted.bursts (h : g.Accepted l) (policy : ExternalOutputPolicy) {reads : Nat → List L0cReadOperation}
    {n : Nat} (hreads : ∀ block < n, g.BlockReads block (reads block)) {received : List (Nat × L0cReadOperation)}
    (hreceived : received.map Prod.snd = (List.range n).flatMap reads) :
    (∀ burst ∈ columnBursts policy received, burst.closed = true) ∧
      (columnBursts policy received).flatMap ExternalBurst.writtenBytes = (List.range n).flatMap g.blockBytes := by
  induction n generalizing received with
  | zero =>
    obtain rfl := List.map_eq_nil_iff.mp hreceived
    exact ⟨nofun, rfl⟩
  | succ n ih =>
    rw [List.range_succ, List.flatMap_append, List.flatMap_singleton] at hreceived ⊢
    obtain ⟨before, last, rfl, hbefore, hlast⟩ := List.map_eq_append_iff.mp hreceived
    obtain ⟨hclosed, hbytes⟩ := ih (fun block hblock => hreads block (by omega)) hbefore
    have hsplit : columnBursts policy (before ++ last) =
        (last.filterMap fun r => columnBurst policy r.1 r.2).foldl ExternalOutput.append
          (columnBursts policy before) := by
      simp [columnBursts, List.filterMap_append, List.foldl_append]
    rw [hsplit]
    cases hpublish : (g.place n 0 0).lastInUop with
    | false =>
      have hnone : (last.filterMap fun r => columnBurst policy r.1 r.2) = [] := by
        obtain ⟨rows, hrows, -⟩ := hreads n (by omega)
        rw [List.filterMap_eq_nil_iff]
        intro r hr
        have hmem : r.2 ∈ g.readsOf n rows := by
          rw [← hrows, ← hlast]
          exact List.mem_map_of_mem hr
        obtain ⟨y, -, hy⟩ := List.mem_map.mp hmem
        have hlast : r.2.lastInUop = false := by
          rw [← hy]
          exact hpublish
        rw [columnBurst, hlast]
        rfl
      rw [hnone, List.foldl_nil, hbytes, blockBytes, hpublish]
      exact ⟨hclosed, by simp⟩
    | true =>
      obtain ⟨burst, hburst, hb⟩ := h.block_burst policy hpublish (hlast ▸ hreads n (by omega)) hclosed
      rw [hburst, List.flatMap_append, List.flatMap_singleton, hbytes, hb.writtenBytes hpublish]
      refine ⟨fun b hb' => ?_, rfl⟩
      rcases List.mem_append.mp hb' with hb' | hb'
      · exact hclosed b hb'
      · rw [List.mem_singleton.mp hb']
        exact hb.closed

/-! ## Formats -/

theorem Accepted.format (h : g.Accepted l) :
    OutputFormat.fromConversionMode g.command.sourceFormat g.command.descriptor.conversionMode = some l.format := by
  obtain ⟨hd, -, -, hformat⟩ := h.layout_eq
  have hbuilt := (Layout.built_of_new h.layout).format
  rwa [hd, hformat] at hbuilt

theorem Accepted.wide_iff (h : g.Accepted l) :
    (l.format = .fp32 ∨ l.format = .int32) ↔ g.command.descriptor.conversionMode = 0 := by
  refine ⟨fun hwide => (Layout.wide_mode h.format hwide).1, fun hzero => ?_⟩
  have hformat := h.format
  rw [hzero] at hformat
  cases hsource : g.command.sourceFormat <;> rw [hsource] at hformat
  · exact .inl (Option.some.inj hformat).symm
  · exact .inr (Option.some.inj hformat).symm
  · cases hformat

theorem Accepted.layout_split (h : g.Accepted l) : l.split = g.split := by
  obtain ⟨hd, -⟩ := h.layout_eq
  rw [Layout.split, hd, h.plain, ReadGenerator.split, Bool.not_false, Bool.and_true]
  congr 1
  rw [Bool.eq_iff_iff, decide_eq_true_iff, beq_iff_eq]
  exact h.wide_iff

theorem Accepted.layout_merge (h : g.Accepted l) :
    l.byteMerge = decide (g.command.descriptor.conversionMode ∈ [8, 9, 23, 24]) ∧
      l.nibbleMerge = (g.int4 && g.command.descriptor.columns % 64 == 0) := by
  obtain ⟨hd, -⟩ := h.layout_eq
  simp [Layout.byteMerge, Layout.nibbleMerge, hd, h.plain, int4]

theorem split_merge (hs : g.split = true) : g.merge = false := by
  simp only [ReadGenerator.split, Bool.and_eq_true, beq_iff_eq] at hs
  simp [ReadGenerator.merge, int4, hs.1]

theorem singleton_merge {block : Nat} (hm : g.merge = false) :
    ({ g with columnBlock := block } : ReadGenerator).singleton = false := by
  simp [singleton, show ({ g with columnBlock := block } : ReadGenerator).merge = false from hm]

/-- Without a split or a merge, a row gives what 16 lanes take. -/
theorem Accepted.plain_output (h : g.Accepted l) (hs : g.split = false) (hm : g.merge = false) (block : Nat) :
    g.rowOutput block = l.format.storageBytes 16 := by
  have hformat := h.format
  have hmode := h.mode
  unfold rowOutput
  rw [singleton_merge hm, hs, hm]
  unfold ReadGenerator.merge at hm
  rw [Bool.or_eq_false_iff, decide_eq_false_iff_not] at hm
  have hbytes := hm.1
  unfold OutputFormat.fromConversionMode at hformat
  unfold int4
  generalize g.command.descriptor.conversionMode = mode at *
  generalize l.format = format at *
  split_ifs at hformat with h₁ h₂ h₃ h₄ h₅ h₆
  · cases hformat
    fin_cases h₁ <;> rfl
  · cases hformat
    fin_cases h₂ <;> rfl
  · cases hformat
    subst h₃
    rfl
  · subst h₄
    cases hsource : g.command.sourceFormat <;> rw [hsource] at hformat <;> cases hformat <;> rfl
  · cases hformat
    fin_cases h₅ <;> rfl
  · cases hformat
    fin_cases h₆ <;> rfl

/-! ## Destinations -/

/-- How far the burst of a block is from the destination. -/
def blockBase (g : ReadGenerator) (block : Nat) : Nat :=
  if g.merge then block / g.groupColumns * g.columnStride else block * g.columnStride * if g.split then 2 else 1

/-- Whether the burst of a block goes to a second channel too. -/
def doubled (g : ReadGenerator) (block : Nat) : Bool :=
  g.split && (g.command.descriptor.columns % 16 == 0 || block + 1 != g.columnBlocks)

/-- The places that the burst of a block writes, from the destination on. -/
def blockOffsets (g : ReadGenerator) (block : Nat) : List Nat :=
  let size := g.command.descriptor.rows * g.rowOutput block
  if (g.place block 0 0).lastInUop then
    List.range' (g.blockBase block) size ++
      if g.doubled block then List.range' (g.blockBase block + g.columnStride) size else []
  else []

theorem groupColumns_pos (g : ReadGenerator) : 0 < g.groupColumns := by
  unfold groupColumns
  split_ifs <;> decide

theorem destinationAddress_toNat (block : Nat) : (g.place block 0 0).destinationAddress.toNat =
    (g.command.destinationAddress.toNat + g.blockBase block) % u64 := by
  have haddress : (g.place block 0 0).destinationAddress =
      if g.merge then
        g.command.destinationAddress +
          (block / g.groupColumns * g.groupColumns / g.groupColumns * g.columnStride).toUInt64
      else
        g.command.destinationAddress + (block * g.columnStride * if g.split then 2 else 1).toUInt64 +
          (0 * g.rowOutput block).toUInt64 := rfl
  rw [haddress, blockBase, Nat.mul_div_cancel _ g.groupColumns_pos, Nat.zero_mul]
  split_ifs <;>
    simp only [UInt64.toNat_add, Nat.toUInt64_eq, UInt64.toNat_ofNat', Nat.add_mod_mod, Nat.zero_mod, Nat.add_zero,
      Nat.mod_mod] <;> rfl

theorem Accepted.second (h : g.Accepted l) (block : Nat) : (g.place block 0 0).secondChannelOffset =
    if g.doubled block then some g.columnStride.toUInt64 else none := by
  show (if g.doubled block then some (g.columnStride / 512 * 512).toUInt64 else none) = _
  by_cases hd : g.doubled block = true
  · have hs : g.split = true := (Bool.and_eq_true _ _ ▸ hd).1
    have hstride := (h.split hs).2
    have hwhole : g.columnStride / 512 * 512 = g.columnStride := by
      unfold columnStride
      rw [show u32 = 2 ^ 32 from rfl]
      omega
    rw [hwhole]
  · rw [if_neg hd, if_neg hd]

theorem Accepted.blockBytes (h : g.Accepted l) (block : Nat) :
    g.blockBytes block = (g.blockOffsets block).map fun offset => (l.destination + offset) % u64 := by
  obtain ⟨-, -, hdestination, -⟩ := h.layout_eq
  have hbytes {address : UInt64} {base : Nat} (n : Nat) (haddress : address.toNat = (l.destination + base) % u64) :
      ((List.range n).map fun k => (address.toNat + k) % u64) =
        (List.range' base n).map fun offset => (l.destination + offset) % u64 := by
    rw [List.range'_eq_map_range, List.map_map]
    refine List.map_congr_left fun k _ => ?_
    rw [haddress, Nat.mod_add_mod, Nat.add_assoc]
    rfl
  have hfirst : (g.place block 0 0).destinationAddress.toNat = (l.destination + g.blockBase block) % u64 := by
    rw [destinationAddress_toNat, hdestination]
  have hsecond : ((g.place block 0 0).destinationAddress + g.columnStride.toUInt64).toNat =
      (l.destination + (g.blockBase block + g.columnStride)) % u64 := by
    rw [UInt64.toNat_add, hfirst, Nat.toUInt64_eq, UInt64.toNat_ofNat', ← Nat.add_assoc]
    simp only [Nat.add_mod_mod]
    exact Nat.mod_add_mod _ u64 _
  unfold ReadGenerator.blockBytes blockOffsets
  dsimp only
  rw [h.second, hbytes _ hfirst]
  split_ifs with hlast hd
  · rw [List.map_append, Option.map_some, Option.getD_some, hbytes _ hsecond]
  · rw [List.map_append, Option.map_none, Option.getD_none, List.map_nil]
  · rfl

/-- The bytes that a slice is written to. -/
def sliceBytes (s : Slice) : List Nat := (List.range s.destinationBytes).map fun k => (s.destinationAddress + k) % u64

/-- The places that a row's slices are written to. -/
def rowOffsets (l : Layout) (row : Nat) : List Nat :=
  (List.range l.blocks).flatMap fun block =>
    List.range' (l.destinationOffset 0 row block) (l.format.storageBytes (l.lanes block))

theorem Accepted.slices (h : g.Accepted l) : l.slices.flatMap sliceBytes =
    ((List.range g.command.descriptor.rows).flatMap (rowOffsets l)).map fun offset =>
      (l.destination + offset) % u64 := by
  obtain ⟨hd, -⟩ := h.layout_eq
  have hcount : l.ndCount = 1 := by
    rw [Layout.ndCount, hd, h.enabled, h.plain]
    rfl
  rw [Layout.slices, hcount, hd, List.range_one, List.flatMap_singleton, List.flatMap_assoc, List.map_flatMap]
  refine List.flatMap_congr fun row _ => ?_
  rw [List.flatMap_map, rowOffsets, List.map_flatMap]
  refine List.flatMap_congr fun block _ => ?_
  rw [List.range'_eq_map_range, List.map_map]
  refine List.map_congr_left fun k _ => ?_
  show ((l.destination + l.destinationOffset 0 row block) % u64 + k) % u64 = _
  rw [Nat.mod_add_mod, Nat.add_assoc]
  rfl

/-- The columns of the destination, where nothing is merged: 8 lanes wide if channels are split, else 16. -/
theorem Accepted.plain_rowOffsets (h : g.Accepted l) (hm : g.merge = false) {width : Nat}
    (hoffset : (if g.split then 32 else l.format.storageBytes 16) = width)
    (hbytes : ∀ block, l.format.storageBytes (l.lanes block) = width) :
    ((List.range g.command.descriptor.rows).flatMap (rowOffsets l)).Perm
      ((List.range l.blocks).flatMap fun block =>
        List.range' (block * g.columnStride) (g.command.descriptor.rows * width)) := by
  obtain ⟨hd, -⟩ := h.layout_eq
  obtain ⟨hbyte, hnibble⟩ := h.layout_merge
  unfold ReadGenerator.merge at hm
  obtain ⟨hbyte', hnibble'⟩ := Bool.or_eq_false_iff.mp hm
  refine (flatMap_swap _ _ _).trans (List.Perm.of_eq (List.flatMap_congr fun block _ => ?_))
  rw [← flatMap_range']
  refine List.flatMap_congr fun row _ => ?_
  rw [hbytes, Layout.destinationOffset, hd, h.plain, hbyte, hnibble, hbyte', hnibble', h.layout_split, hoffset]
  show List.range' (row * width + block * g.columnStride) width = _
  rw [Nat.add_comm]

theorem Accepted.plain_offsets (h : g.Accepted l) (hs : g.split = false) (hm : g.merge = false) :
    ((List.range g.columnBlocks).flatMap g.blockOffsets).Perm
      ((List.range g.command.descriptor.rows).flatMap (rowOffsets l)) := by
  obtain ⟨hd, -⟩ := h.layout_eq
  have hbyte : l.byteMerge = false := by
    rw [h.layout_merge.1]
    unfold ReadGenerator.merge at hm
    exact (Bool.or_eq_false_iff.mp hm).1
  have hsplit : l.split = false := h.layout_split.trans hs
  have hblocks : l.blocks = g.columnBlocks := by
    rw [h.blocks, Layout.blocks, hbyte, hsplit, hd]
    rfl
  have hlanes (block : Nat) : l.lanes block = 16 := by simp [Layout.lanes, hsplit, hd, h.plain]
  refine (List.Perm.of_eq ?_).trans (h.plain_rowOffsets hm (if_neg (by simp [hs])) fun block => by rw [hlanes]).symm
  rw [hblocks]
  refine List.flatMap_congr fun block _ => ?_
  have hlast : (g.place block 0 0).lastInUop = true := by
    simp [lastInUop, show (g.place block 0 0).merge = false from hm]
  have hbase : g.blockBase block = block * g.columnStride := by simp [blockBase, hm, hs]
  simp [blockOffsets, hlast, hbase, doubled, hs, h.plain_output hs hm]

theorem Accepted.split_offsets (h : g.Accepted l) (hs : g.split = true) :
    ((List.range g.columnBlocks).flatMap g.blockOffsets).Perm
      ((List.range g.command.descriptor.rows).flatMap (rowOffsets l)) := by
  obtain ⟨hd, -⟩ := h.layout_eq
  have hm := split_merge hs
  have hsplit : l.split = true := h.layout_split.trans hs
  obtain ⟨-, hstored, hbyte, -⟩ := (Layout.built_of_new h.layout).split hsplit
  have hcolumns := (h.split hs).1
  have hlanes (block : Nat) : l.format.storageBytes (l.lanes block) = 32 := by
    rw [show l.lanes block = 8 by simp [Layout.lanes, hsplit], Layout.stored_word (by decide), hstored]
  refine (List.Perm.of_eq ?_).trans (h.plain_rowOffsets hm (if_pos hs) hlanes).symm
  have houtput (block : Nat) : g.rowOutput block = 32 := by
    unfold rowOutput
    rw [singleton_merge hm, hs]
    rfl
  have hoffsets (block : Nat) : g.blockOffsets block =
      List.range' (block * 2 * g.columnStride) (g.command.descriptor.rows * 32) ++
        if g.doubled block then List.range' ((block * 2 + 1) * g.columnStride) (g.command.descriptor.rows * 32)
        else [] := by
    have hlast : (g.place block 0 0).lastInUop = true := by
      simp [lastInUop, show (g.place block 0 0).merge = false from hm]
    have hbase : g.blockBase block = block * 2 * g.columnStride := by
      simp [blockBase, hm, hs, Nat.mul_right_comm]
    rw [blockOffsets, hlast, if_pos rfl, houtput, hbase, Nat.succ_mul]
  have hpair (n : Nat) (hdoubled : ∀ block < n, g.doubled block = true) :
      (List.range n).flatMap g.blockOffsets = (List.range (n * 2)).flatMap fun block =>
        List.range' (block * g.columnStride) (g.command.descriptor.rows * 32) := by
    rw [flatMap_range_mul]
    refine flatMap_congr_range fun block hblock => ?_
    rw [hoffsets, hdoubled block hblock]
    simp [List.range_succ]
  have hblocks : l.blocks =
      g.command.descriptor.columns / 16 * 2 + if g.command.descriptor.columns % 16 = 8 then 1 else 0 := by
    rw [Layout.blocks, hbyte, hsplit, hd]
    rfl
  by_cases height : g.command.descriptor.columns % 16 = 8
  · have hcount : g.columnBlocks = g.command.descriptor.columns / 16 + 1 := by
      rw [h.blocks]
      omega
    rw [hblocks, if_pos height, hcount, List.range_succ, List.range_succ, List.flatMap_append, List.flatMap_append,
      List.flatMap_singleton, List.flatMap_singleton, hoffsets, hpair]
    · simp [doubled, hs, hcount, height]
    · intro block hblock
      simp only [doubled, hs, hcount, Bool.true_and, Bool.or_eq_true, bne_iff_ne]
      exact .inr (by omega)
  · have hcount : g.columnBlocks = g.command.descriptor.columns / 16 := by
      rw [h.blocks]
      omega
    rw [hblocks, if_neg height, hcount, hpair]
    · rfl
    · intro block _
      simp only [doubled, hs, Bool.true_and, Bool.or_eq_true, beq_iff_eq]
      exact .inl (by omega)

/-- What is merged: pairs of blocks of bytes, or fours of half bytes. -/
theorem Accepted.merge_cases (h : g.Accepted l) (hm : g.merge = true) :
    (g.groupColumns = 2 ∧ l.byteMerge = true ∧ l.format = .bits8) ∨
      (g.groupColumns = 4 ∧ l.nibbleMerge = true ∧ l.format = .int4 ∧ g.command.descriptor.columns % 64 = 0) := by
  have hl := Layout.built_of_new h.layout
  obtain ⟨hbyte, hnibble⟩ := h.layout_merge
  unfold ReadGenerator.merge at hm
  rcases Bool.or_eq_true_iff.mp hm with hm | hm
  · have hbyte : l.byteMerge = true := hbyte.trans hm
    refine .inl ⟨?_, hbyte, (hl.byteMerge hbyte).1⟩
    have hint4 : g.int4 = false := by
      have hmode := of_decide_eq_true hm
      unfold int4
      generalize g.command.descriptor.conversionMode = mode at *
      fin_cases hmode <;> rfl
    simp [groupColumns, hint4]
  · have hnibble : l.nibbleMerge = true := hnibble.trans hm
    obtain ⟨hint4, hcolumns⟩ := (Bool.and_eq_true _ _).mp hm
    exact .inr ⟨by simp [groupColumns, hint4], hnibble, (hl.nibbleMerge hnibble).1, by simpa using hcolumns⟩

/-- A group of blocks gives one burst of rows of 32 bytes; what is left is one block, of rows of 16 bytes. -/
theorem Accepted.merge_bursts (h : g.Accepted l) (hm : g.merge = true) {q : Nat} :
    (g.columnBlocks = q * g.groupColumns → (List.range g.columnBlocks).flatMap g.blockOffsets =
      (List.range q).flatMap fun i => List.range' (i * g.columnStride) (g.command.descriptor.rows * 32)) ∧
    (g.columnBlocks = q * g.groupColumns + 1 → (List.range g.columnBlocks).flatMap g.blockOffsets =
      ((List.range q).flatMap fun i => List.range' (i * g.columnStride) (g.command.descriptor.rows * 32)) ++
        List.range' (q * g.columnStride) (g.command.descriptor.rows * 16)) := by
  have hs : g.split = false := by
    by_contra hs
    rw [Bool.not_eq_false] at hs
    rw [split_merge hs] at hm
    exact absurd hm (by decide)
  have hper : g.groupColumns = 2 ∨ g.groupColumns = 4 := (h.merge_cases hm).imp (·.1) (·.1)
  have hsingleton (block : Nat) : ({ g with columnBlock := block } : ReadGenerator).singleton =
      decide (block / g.groupColumns * g.groupColumns + 1 = g.columnBlocks) := by
    rw [singleton, show ({ g with columnBlock := block } : ReadGenerator).merge = true from hm, Bool.true_and]
    rfl
  have hzero : g.command.descriptor.conversionMode ∉ 0 :: [17, 18] := by
    have hmode := hm
    unfold ReadGenerator.merge int4 at hmode
    generalize g.command.descriptor.conversionMode = mode at *
    simp only [Bool.or_eq_true, decide_eq_true_eq, Bool.and_eq_true] at hmode
    rcases hmode with hmode | ⟨hmode, -⟩ <;> fin_cases hmode <;> decide
  have houtput (block : Nat) : g.rowOutput block =
      if block / g.groupColumns * g.groupColumns + 1 = g.columnBlocks then 16 else 32 := by
    rw [List.mem_cons, not_or] at hzero
    simp [rowOutput, hsingleton, hs, hm, hzero]
  have hoffsets (block : Nat) : g.blockOffsets block =
      if block / g.groupColumns * g.groupColumns + 1 = g.columnBlocks ∨
          block % g.groupColumns = g.groupColumns - 1 then
        List.range' (block / g.groupColumns * g.columnStride)
          (g.command.descriptor.rows * if block / g.groupColumns * g.groupColumns + 1 = g.columnBlocks then 16 else 32)
      else [] := by
    have hlast : (g.place block 0 0).lastInUop =
        decide (block / g.groupColumns * g.groupColumns + 1 = g.columnBlocks ∨
          block % g.groupColumns = g.groupColumns - 1) := by
      show (!g.merge || ({ g with columnBlock := block } : ReadGenerator).singleton ||
        block % g.groupColumns == g.groupColumns - 1) = _
      rw [hm, hsingleton, Bool.decide_or]
      rfl
    simp [blockOffsets, hlast, houtput, blockBase, doubled, hm, hs]
  have hgroups (hle : q * g.groupColumns ≤ g.columnBlocks) : (List.range (q * g.groupColumns)).flatMap g.blockOffsets =
      (List.range q).flatMap fun i => List.range' (i * g.columnStride) (g.command.descriptor.rows * 32) := by
    rw [flatMap_range_mul]
    refine flatMap_congr_range fun i hi => ?_
    have hend : i * g.groupColumns + g.groupColumns ≤ q * g.groupColumns := by
      rw [← Nat.succ_mul]
      exact Nat.mul_le_mul_right _ hi
    have hplace {j : Nat} (hj : j < g.groupColumns) : (i * g.groupColumns + j) / g.groupColumns = i ∧
        (i * g.groupColumns + j) % g.groupColumns = j := by
      rw [Nat.mul_comm, Nat.mul_add_div g.groupColumns_pos, Nat.mul_add_mod, Nat.div_eq_of_lt hj, Nat.mod_eq_of_lt hj]
      exact ⟨rfl, rfl⟩
    have hblock {j : Nat} (hj : j < g.groupColumns) : g.blockOffsets (i * g.groupColumns + j) =
        if j = g.groupColumns - 1 then List.range' (i * g.columnStride) (g.command.descriptor.rows * 32) else [] := by
      obtain ⟨hdiv, hmod⟩ := hplace hj
      have hne : ¬ i * g.groupColumns + 1 = g.columnBlocks := by
        rcases hper with hper | hper <;> rw [hper] at hend hle ⊢ <;> omega
      rw [hoffsets, hdiv, hmod]
      simp [hne]
    rw [flatMap_congr_range fun j hj => hblock hj]
    rcases hper with hper | hper <;> rw [hper] <;> simp [List.range_succ]
  constructor
  · intro hcount
    rw [hcount]
    exact hgroups hcount.ge
  · intro hcount
    have hdiv : q * g.groupColumns / g.groupColumns = q := Nat.mul_div_cancel _ g.groupColumns_pos
    rw [hcount, List.range_succ, List.flatMap_append, List.flatMap_singleton, hgroups (by omega), hoffsets, hdiv,
      if_pos (.inl hcount.symm), if_pos hcount.symm]

/-- Rows of 32 bytes, each the blocks of a group one behind the other. -/
theorem group_rows {per step q : Nat} (base : Nat → Nat) (hstep : per * step = 32) {f : Nat → List Nat}
    (hf : ∀ i < q, ∀ j < per, f (i * per + j) = List.range' (base i + j * step) step) :
    (List.range (q * per)).flatMap f = (List.range q).flatMap fun i => List.range' (base i) 32 := by
  rw [flatMap_range_mul]
  refine flatMap_congr_range fun i hi => ?_
  rw [flatMap_congr_range fun j hj => hf i hi j hj, flatMap_range', hstep]

theorem columns_perm {q rows stride : Nat} :
    ((List.range q).flatMap fun i => List.range' (i * stride) (rows * 32)).Perm
      ((List.range rows).flatMap fun row =>
        (List.range q).flatMap fun i => List.range' (row * 32 + i * stride) 32) := by
  refine (List.Perm.of_eq (List.flatMap_congr fun i _ => ?_)).trans (flatMap_swap _ _ _)
  rw [← flatMap_range']
  refine List.flatMap_congr fun row _ => ?_
  rw [Nat.add_comm]

theorem Accepted.byte_offsets (h : g.Accepted l) (hm : g.merge = true) (hper : g.groupColumns = 2)
    (hbyte : l.byteMerge = true) (hformat : l.format = .bits8) :
    ((List.range g.columnBlocks).flatMap g.blockOffsets).Perm
      ((List.range g.command.descriptor.rows).flatMap (rowOffsets l)) := by
  obtain ⟨hd, -⟩ := h.layout_eq
  obtain ⟨-, hsplit, hnibble, -⟩ := (Layout.built_of_new h.layout).byteMerge hbyte
  have hcolumns := h.merge_columns hm
  have hmerged : l.mergedBlocks = g.command.descriptor.columns / 32 * 2 := by rw [Layout.mergedBlocks, hd]
  have hblocks : l.blocks = g.command.descriptor.columns / 32 * 2 +
      if g.command.descriptor.columns % 32 = 0 then 0 else 1 := by
    rw [Layout.blocks, hbyte, hmerged, hd]
    rfl
  have hbytes (block : Nat) : l.format.storageBytes (l.lanes block) = 16 := by
    rw [Layout.lanes_plain hsplit (hd ▸ h.plain), hformat]
    rfl
  have hoffset (row block : Nat) : l.destinationOffset 0 row block =
      if block = g.command.descriptor.columns / 32 * 2 then row * 16 + block / 2 * g.columnStride
      else row * 32 + block / 2 * g.columnStride + block % 2 * 16 := by
    rw [Layout.destinationOffset, hd, h.plain, hnibble, hbyte, hmerged]
    simp only [Bool.false_eq_true, if_false, if_true]
    split_ifs <;> rfl
  have hgroups (row : Nat) : ((List.range (g.command.descriptor.columns / 32 * 2)).flatMap fun block =>
      List.range' (l.destinationOffset 0 row block) (l.format.storageBytes (l.lanes block))) =
        (List.range (g.command.descriptor.columns / 32)).flatMap fun i =>
          List.range' (row * 32 + i * g.columnStride) 32 := by
    refine group_rows (fun i => row * 32 + i * g.columnStride) (show 2 * 16 = 32 from rfl) fun i hi j hj => ?_
    rw [hbytes, hoffset, if_neg (by omega), show (i * 2 + j) / 2 = i by omega, show (i * 2 + j) % 2 = j by omega]
  obtain ⟨hwhole, htail⟩ := h.merge_bursts hm (q := g.command.descriptor.columns / 32)
  rw [hper] at hwhole htail
  by_cases heven : g.command.descriptor.columns % 32 = 0
  · rw [hwhole (by rw [h.blocks]; omega)]
    refine columns_perm.trans (List.Perm.of_eq (List.flatMap_congr fun row _ => ?_))
    rw [rowOffsets, hblocks, if_pos heven, Nat.add_zero, hgroups]
  · rw [htail (by rw [h.blocks]; omega)]
    have hrows (row : Nat) : rowOffsets l row = ((List.range (g.command.descriptor.columns / 32)).flatMap fun i =>
        List.range' (row * 32 + i * g.columnStride) 32) ++
          List.range' (g.command.descriptor.columns / 32 * g.columnStride + row * 16) 16 := by
      rw [rowOffsets, hblocks, if_neg heven, List.range_succ, List.flatMap_append, List.flatMap_singleton, hgroups,
        hbytes, hoffset, if_pos rfl, Nat.mul_div_cancel _ (by decide), Nat.add_comm (row * 16)]
    rw [List.flatMap_congr fun row _ => hrows row, ← flatMap_range']
    exact (columns_perm.append_right _).trans (List.flatMap_append_perm _ _ _)

theorem Accepted.nibble_offsets (h : g.Accepted l) (hm : g.merge = true) (hper : g.groupColumns = 4)
    (hnibble : l.nibbleMerge = true) (hformat : l.format = .int4) (hcolumns : g.command.descriptor.columns % 64 = 0) :
    ((List.range g.columnBlocks).flatMap g.blockOffsets).Perm
      ((List.range g.command.descriptor.rows).flatMap (rowOffsets l)) := by
  obtain ⟨hd, -⟩ := h.layout_eq
  obtain ⟨-, hsplit, hbyte, -⟩ := (Layout.built_of_new h.layout).nibbleMerge hnibble
  have hblocks : l.blocks = g.command.descriptor.columns / 64 * 4 := by
    rw [Layout.blocks, hbyte, hsplit, hd]
    simp only [Bool.false_eq_true, if_false]
    omega
  have hbytes (block : Nat) : l.format.storageBytes (l.lanes block) = 8 := by
    rw [Layout.lanes_plain hsplit (hd ▸ h.plain), hformat]
    rfl
  rw [(h.merge_bursts hm (q := g.command.descriptor.columns / 64)).1 (by rw [h.blocks, hper]; omega)]
  refine columns_perm.trans (List.Perm.of_eq (List.flatMap_congr fun row _ => ?_))
  rw [rowOffsets, hblocks]
  refine (group_rows (fun i => row * 32 + i * g.columnStride) (show 4 * 8 = 32 from rfl) fun i hi j hj => ?_).symm
  rw [hbytes, Layout.destinationOffset, hd, h.plain, hnibble, show (i * 4 + j) / 4 = i by omega,
    show (i * 4 + j) % 4 = j by omega]
  rfl

/-- The bursts cover what the rows of the slices cover. -/
theorem Accepted.offsets (h : g.Accepted l) :
    ((List.range g.columnBlocks).flatMap g.blockOffsets).Perm
      ((List.range g.command.descriptor.rows).flatMap (rowOffsets l)) := by
  cases hm : g.merge with
  | true =>
    rcases h.merge_cases hm with ⟨hper, hbyte, hformat⟩ | ⟨hper, hnibble, hformat, hcolumns⟩
    · exact h.byte_offsets hm hper hbyte hformat
    · exact h.nibble_offsets hm hper hnibble hformat hcolumns
  | false =>
    cases hs : g.split with
    | true => exact h.split_offsets hs
    | false => exact h.plain_offsets hs hm

/-! ## Whole transfers -/

/-- A read ends the instruction just if no other comes behind it. -/
theorem next_marks {rest : ReadGenerator} {op : L0cReadOperation} (h : next g = some (op, rest)) :
    op.lastInInstruction = (next rest).isNone := by
  unfold next at h
  split_ifs at h with hend
  simp only [Option.some.injEq, Prod.mk.injEq] at h
  obtain ⟨rfl, rfl⟩ := h
  show (g.endOfBurst && decide (g.columnBlock + 1 = g.columnBlocks)) = _
  unfold next advance
  cases g.endOfBurst with
  | true => by_cases hlast : g.columnBlock + 1 = g.columnBlocks <;> simp [hlast]
  | false => simp [hend]

theorem sliceBytes_nodup {s : Slice} (hs : s ∈ l.slices) : (sliceBytes s).Nodup := by
  obtain ⟨n, -, hs⟩ := List.mem_flatMap.mp hs
  obtain ⟨r, -, hs⟩ := List.mem_flatMap.mp hs
  obtain ⟨b, -, rfl⟩ := List.mem_map.mp hs
  have hle : (l.slice n r b).destinationBytes ≤ 64 := by
    have hlanes := Layout.lanes_le_sixteen (l := l) b
    refine (Layout.stored_word (hlanes.trans (by decide)) l.format).trans_le ((l.format.stored_le _).trans ?_)
    omega
  refine List.nodup_range.map_on fun i hi j hj heq => ?_
  have hi := List.mem_range.mp hi
  have hj := List.mem_range.mp hj
  change _ % 2 ^ 64 = _ % 2 ^ 64 at heq
  omega

theorem slices_nodup (hapart : l.slices.Pairwise fun s t => ∀ i < s.destinationBytes, ∀ j < t.destinationBytes,
    (s.destinationAddress + i) % u64 ≠ (t.destinationAddress + j) % u64) : (l.slices.flatMap sliceBytes).Nodup := by
  rw [List.nodup_flatMap]
  refine ⟨fun s hs => sliceBytes_nodup hs, hapart.imp fun h byte hs ht => ?_⟩
  obtain ⟨i, hi, rfl⟩ := List.mem_map.mp hs
  obtain ⟨j, hj, heq⟩ := List.mem_map.mp ht
  exact h i (List.mem_range.mp hi) j (List.mem_range.mp hj) heq.symm

theorem new_cases {c : TransferCommand} {instructionId firstId bandwidth : Nat}
    (hnew : new c instructionId firstId bandwidth = .ok g) (henabled : c.descriptor.isDisabled = false) :
    g.command = c ∧ c.descriptor.nzToNd = false ∧ 0 < g.bandwidth ∧
      g.columnBlocks = (c.descriptor.columns + 15) / 16 ∧ g.place 0 0 firstId = g := by
  unfold new at hnew
  split at hnew
  · cases hnew
  · dsimp only at hnew
    by_cases hzero : (if c.descriptor.conversionMode = 0 then bandwidth / 2 else bandwidth) = 0
    · rw [if_pos hzero] at hnew
      cases hnew
    · cases hnd : c.descriptor.nzToNd with
      | true => simp [hzero, hnd] at hnew
      | false =>
        rw [if_neg hzero, hnd, henabled] at hnew
        cases hnew
        exact ⟨rfl, rfl, Nat.pos_of_ne_zero hzero, rfl, by simp [place]⟩

/-- Every row of every block is read once, in order; the bursts write what the slices write, and the last read alone
ends the instruction. -/
theorem reads_cover {c : TransferCommand} {instructionId firstId bandwidth : Nat}
    (hnew : new c instructionId firstId bandwidth = .ok g) (hlayout : c.layout = .ok l)
    (henabled : c.descriptor.isDisabled = false)
    (hbytes : c.descriptor.conversionMode ∈ [8, 9, 23, 24] → c.descriptor.columns % 16 = 0)
    (hsplit : g.split = true → c.descriptor.columns % 8 = 0 ∧ c.descriptor.destinationStride % 16 = 0)
    (hsource : g.sourceRowBytes ∣ c.sourceAddress.toNat) (hbandwidth : g.sourceRowBytes ∣ g.bandwidth)
    (hmode : c.descriptor.conversionMode ∉ [19, 20]) :
    ∃ (reads : List L0cReadOperation) (last : ReadGenerator), Takes next g reads last ∧ last.next = none ∧
      (∀ op ∈ reads, g.sourceRowBytes ∣ op.dataBytes) ∧
      reads.flatMap g.rowsRead = ((List.range g.columnBlocks).flatMap fun block =>
        (List.range c.descriptor.rows).map fun row => l.columnAddress 0 row (block * 16)) ∧
      (∀ policy received, received.map Prod.snd = reads →
        (∀ burst ∈ columnBursts policy received, burst.closed = true) ∧
        ((columnBursts policy received).flatMap ExternalBurst.writtenBytes).Perm (l.slices.flatMap sliceBytes) ∧
        (l.Roomy → ((columnBursts policy received).flatMap ExternalBurst.writtenBytes).Nodup)) ∧
      ∀ before op after, reads = before ++ op :: after → (op.lastInInstruction = true ↔ after = []) := by
  obtain ⟨rfl, hplain, hpos, hblocks, hstart⟩ := new_cases hnew henabled
  have h : g.Accepted l :=
    ⟨hlayout, hplain, henabled, hblocks, ⟨hpos, hbandwidth⟩, hsource, hbytes, hsplit, hmode⟩
  obtain ⟨reads, id, ht, hreads⟩ := h.reads firstId
  rw [hstart] at ht
  have hend : (g.place g.columnBlocks 0 id).next = none := if_pos rfl
  refine ⟨_, _, ht, hend, ?_, ?_, ?_, ?_⟩
  · intro op hop
    obtain ⟨block, hblock, hop⟩ := List.mem_flatMap.mp hop
    obtain ⟨rows, heq, htiles⟩ := hreads block (List.mem_range.mp hblock)
    rw [heq] at hop
    obtain ⟨y, hy, rfl⟩ := List.mem_map.mp hop
    have hbounds := htiles.bounds hy
    exact ⟨_, ((h.rowsAt block y.2 (show y.1 < _ by omega)).1).trans (Nat.mul_comm _ _)⟩
  · rw [List.flatMap_assoc]
    exact flatMap_congr_range fun block hblock => h.block_rows (hreads block hblock)
  · intro policy received hreceived
    obtain ⟨hclosed, hwritten⟩ := h.bursts policy hreads hreceived
    have hperm : ((columnBursts policy received).flatMap ExternalBurst.writtenBytes).Perm (l.slices.flatMap sliceBytes) := by
      rw [hwritten, h.slices, List.flatMap_congr fun block _ => h.blockBytes block, ← List.map_flatMap]
      exact h.offsets.map _
    exact ⟨hclosed, hperm, fun hr =>
      hperm.nodup_iff.mpr (slices_nodup (Layout.slices_apart (Layout.built_of_new hlayout) hr))⟩
  · intro before op after hl
    exact ht.marks hend (fun _ _ _ (_ : True) hnext => ⟨trivial, next_marks hnext⟩) trivial hl

/-- Two rows of 24 columns of 32 bits whose channels are split. -/
def splitCommand : TransferCommand := ⟨⟨0x1000020180, 0x40000000004, 0⟩, .fp32, 64, 4096⟩

def splitGenerator : ReadGenerator := ⟨splitCommand, 7, 0, 128, 0, 2, 0, 0⟩

def splitLayout : Layout := ⟨splitCommand.descriptor, 64, 4096, .fp32, .fp32⟩

theorem reads_cover_split : ∃ (reads : List L0cReadOperation) (last : ReadGenerator),
    Takes next splitGenerator reads last ∧ last.next = none ∧
      ((columnBursts (.new 0 0) (reads.map fun op => (0, op))).flatMap ExternalBurst.writtenBytes).Perm
        (splitLayout.slices.flatMap sliceBytes) := by
  obtain ⟨reads, last, ht, hend, -, -, hbursts, -⟩ :=
    reads_cover (show new splitCommand 7 0 256 = .ok splitGenerator from rfl)
      (show splitCommand.layout = .ok splitLayout from rfl) (by decide) (by decide) (fun _ => by decide)
      (by decide) (by decide) (by decide)
  exact ⟨reads, last, ht, hend, (hbursts (.new 0 0) (reads.map fun op => (0, op)) (by simp)).2.1⟩

end ReadGenerator

end AscendEmulator.C220.Fixp
