/-
  AscendEmulator.C220.Cube.Tiles — the output tiles of an issue, of two or four bytes a lane.

  The tiles are one run of writes that wraps once at the size of L0C: the lane numbered `x` lies `x` lanes behind the
  base (`outPlace`), whatever the type of the output.
-/

import AscendEmulator.C220.Cube.MmadProofs

namespace AscendEmulator.C220.Cube

open Lib Outcome Isa AscendEmulator.Memory AscendEmulator.C220.Memory

namespace CubeIssue

/-- The bytes of an output lane. -/
def laneBytes (issue : CubeIssue) : Nat := if issue.instruction.dataType = .f16F16 then 2 else 4

theorem laneBytes_cases (issue : CubeIssue) : issue.laneBytes = 2 ∨ issue.laneBytes = 4 := by
  unfold laneBytes
  split
  · exact .inl rfl
  · exact .inr rfl

/-- The address of an output lane: lane after lane from the base of the output, wrapping at the size of L0C. -/
def outPlace (issue : CubeIssue) (at' : Nat × Nat) : Nat :=
  (issue.parameters.xdLow.toNat + issue.laneBytes * cPosition issue.geometry.mTiles at'.1 at'.2) % 131072

/-- The address of an output tile. -/
def outTile (issue : CubeIssue) (tile : Nat) : Nat :=
  (issue.parameters.xdLow.toNat + 256 * issue.laneBytes * tile) % 131072

/-- The rows and columns of the output, in the order of the loop. -/
def lanes (issue : CubeIssue) : List (Nat × Nat) :=
  (List.range issue.parameters.m.toNat).flatMap fun m => (List.range issue.parameters.n.toNat).map fun n => (m, n)

theorem mem_lanes {issue : CubeIssue} {at' : Nat × Nat} :
    at' ∈ issue.lanes ↔ at'.1 < issue.parameters.m.toNat ∧ at'.2 < issue.parameters.n.toNat := by
  obtain ⟨row, col⟩ := at'
  simp [lanes]

end CubeIssue

theorem cAddress_eq {len : Nat} (hlen : len = 2 ∨ len = 4) {base : Nat} (hbase : base % (256 * len) = 0)
    (mTiles row col : Nat) :
    cAddress (256 * len) len base mTiles row col = (base + len * cPosition mTiles row col) % 131072 := by
  have hlane : row % 16 * 16 + col % 16 < 16 * 16 := lane_lt (by decide) (by decide) row col
  simp only [cAddress, cPosition, blocked]
  rw [outputTileBase_eq (by omega) (by omega)]
  simp only [tileEdge]
  generalize row / 16 + mTiles * (col / 16) = tile
  generalize row % 16 * 16 + col % 16 = lane at *
  rcases hlen with rfl | rfl
  · omega
  · omega

/-- The output is aligned to its tiles, and fits. -/
structure OutputFits (issue : CubeIssue) : Prop where
  base : issue.parameters.xdLow.toNat % (256 * issue.laneBytes) = 0
  fits : issue.geometry.mTiles * issue.geometry.nTiles * (256 * issue.laneBytes) ≤ 131072

/-- A write for each lane of the output. -/
structure LaneWrites (issue : CubeIssue) (value : Nat × Nat → CubeWrite) : Prop where
  address : ∀ at', (value at').address = issue.outPlace at'
  length : ∀ at', (value at').bytes.length = issue.laneBytes

/-- A zero behind the matrix. -/
def padWrite (issue : CubeIssue) (at' : Nat × Nat) : CubeWrite :=
  if issue.instruction.dataType = .f16F16 then .u16 (issue.outPlace at') 0 else .u32 (issue.outPlace at') 0

/-- The write of a lane of the tiles. -/
def fillWrite (issue : CubeIssue) (value : Nat × Nat → CubeWrite) (at' : Nat × Nat) : CubeWrite :=
  if at'.1 < issue.parameters.m.toNat ∧ at'.2 < issue.parameters.n.toNat then value at' else padWrite issue at'

/-- The writes of the tiles, in the order of their numbers. -/
def fillWrites (issue : CubeIssue) (value : Nat × Nat → CubeWrite) : List CubeWrite :=
  (List.range (issue.geometry.mTiles * issue.geometry.nTiles * 256)).map fun x =>
    fillWrite issue value (coordinates issue.geometry.mTiles x)

/-- The tiles of the output hold a value in each lane of the matrix, and zeros behind it. -/
structure FillsTiles (issue : CubeIssue) (memory : LocalMemory) (value : Nat × Nat → CubeWrite)
    (prepared : PreparedCubeExecution) : Prop where
  apart : prepared.writes.Pairwise CubeWrite.Apart
  covers : ∀ a, (∃ w ∈ prepared.writes, w.address ≤ a ∧ a < w.address + w.bytes.length) ↔
    ∃ tile < issue.geometry.mTiles * issue.geometry.nTiles,
      issue.outTile tile ≤ a ∧ a < issue.outTile tile + 256 * issue.laneBytes
  lane : ∀ row < issue.parameters.m.toNat, ∀ col < issue.parameters.n.toNat, value (row, col) ∈ prepared.writes
  padding : ∀ row < issue.geometry.mTiles * 16, ∀ col < issue.geometry.nTiles * 16,
    ¬(row < issue.parameters.m.toNat ∧ col < issue.parameters.n.toNat) → padWrite issue (row, col) ∈ prepared.writes
  written : prepared.outcome.writtenLanes = issue.geometry.mTiles * issue.geometry.nTiles * 256
  padded : prepared.outcome.paddedLanes + issue.parameters.m.toNat * issue.parameters.n.toNat =
    issue.geometry.mTiles * issue.geometry.nTiles * 256
  commit : ∃ memory', prepared.commit memory = .ok memory' ∧
    (∀ w ∈ prepared.writes, ∀ i byte, w.bytes[i]? = some byte →
      memory'.l0c.bytes.get? (w.address + i) = some (.known byte)) ∧
    (∀ a, (∀ tile < issue.geometry.mTiles * issue.geometry.nTiles,
        a < issue.outTile tile ∨ issue.outTile tile + 256 * issue.laneBytes ≤ a) →
      memory'.l0c.bytes.get? a = memory.l0c.bytes.get? a) ∧
    memory'.l0a = memory.l0a ∧ memory'.l0b = memory.l0b ∧ memory'.bt = memory.bt

section Fill

variable {issue : CubeIssue} {value : Nat × Nat → CubeWrite}

theorem padWrites (issue : CubeIssue) : LaneWrites issue (padWrite issue) := by
  constructor
  · intro at'
    unfold padWrite
    split <;> rfl
  · intro at'
    unfold padWrite CubeIssue.laneBytes
    split <;> rfl

theorem LaneWrites.fill (h : LaneWrites issue value) : LaneWrites issue (fillWrite issue value) := by
  constructor
  · intro at'
    unfold fillWrite
    split
    · exact h.address at'
    · exact (padWrites issue).address at'
  · intro at'
    unfold fillWrite
    split
    · exact h.length at'
    · exact (padWrites issue).length at'

theorem mem_fillWrites {w : CubeWrite} : w ∈ fillWrites issue value ↔
    ∃ x < issue.geometry.mTiles * issue.geometry.nTiles * 256,
      fillWrite issue value (coordinates issue.geometry.mTiles x) = w := by
  simp [fillWrites]

theorem fill_place (h : LaneWrites issue value) (x : Nat) :
    (fillWrite issue value (coordinates issue.geometry.mTiles x)).address =
      (issue.parameters.xdLow.toNat + issue.laneBytes * x) % 131072 := by
  rw [h.fill.address, CubeIssue.outPlace, cPosition_coordinates]

theorem mem_fillWrites_of_lane {row col : Nat} (hrow : row < issue.geometry.mTiles * 16)
    (hcol : col < issue.geometry.nTiles * 16) : fillWrite issue value (row, col) ∈ fillWrites issue value := by
  refine mem_fillWrites.mpr ⟨cPosition issue.geometry.mTiles row col, ?_, by rw [coordinates_cPosition hrow]⟩
  refine blocked_lt (by decide) (by decide) ?_
  rw [Nat.add_comm, Nat.mul_comm, Nat.mul_comm issue.geometry.mTiles]
  exact digits_lt (by omega) (by omega)

theorem fillWrites_apart (h : LaneWrites issue value) (hfits : OutputFits issue) :
    (fillWrites issue value).Pairwise CubeWrite.Apart := by
  have hbase := hfits.base
  have hsize := hfits.fits
  unfold fillWrites
  rw [List.pairwise_map]
  refine List.pairwise_lt_range.imp_of_mem fun {x y} hx hy hxy => ?_
  rw [List.mem_range] at hx hy
  simp only [CubeWrite.Apart, fill_place h, h.fill.length]
  have hlen := issue.laneBytes_cases
  generalize issue.laneBytes = len at *
  rcases hlen with rfl | rfl
  · omega
  · omega

theorem fillWrites_cover (h : LaneWrites issue value) (hfits : OutputFits issue) (a : Nat) :
    (∃ w ∈ fillWrites issue value, w.address ≤ a ∧ a < w.address + w.bytes.length) ↔
      ∃ tile < issue.geometry.mTiles * issue.geometry.nTiles,
        issue.outTile tile ≤ a ∧ a < issue.outTile tile + 256 * issue.laneBytes := by
  have hbase := hfits.base
  have hsize := hfits.fits
  have hlen := issue.laneBytes_cases
  simp only [CubeIssue.outTile]
  constructor
  · rintro ⟨w, hw, hlo, hhi⟩
    obtain ⟨x, hx, rfl⟩ := mem_fillWrites.mp hw
    rw [fill_place h] at hlo hhi
    rw [h.fill.length] at hhi
    refine ⟨x / 256, by omega, ?_⟩
    generalize issue.laneBytes = len at *
    rcases hlen with rfl | rfl
    · omega
    · omega
  · rintro ⟨tile, htile, hlo, hhi⟩
    -- the lane of the tile that holds the address
    obtain ⟨i, hi, hlo', hhi'⟩ : ∃ i < 256,
        (issue.parameters.xdLow.toNat + 256 * issue.laneBytes * tile) % 131072 + issue.laneBytes * i ≤ a ∧
          a < (issue.parameters.xdLow.toNat + 256 * issue.laneBytes * tile) % 131072 + issue.laneBytes * i +
            issue.laneBytes := by
      refine ⟨(a - (issue.parameters.xdLow.toNat + 256 * issue.laneBytes * tile) % 131072) / issue.laneBytes, ?_⟩
      generalize issue.laneBytes = len at *
      rcases hlen with rfl | rfl
      · omega
      · omega
    have hx : tile * 256 + i < issue.geometry.mTiles * issue.geometry.nTiles * 256 := by omega
    refine ⟨_, mem_fillWrites.mpr ⟨_, hx, rfl⟩, ?_⟩
    rw [fill_place h, h.fill.length]
    generalize issue.laneBytes = len at *
    rcases hlen with rfl | rfl
    · omega
    · omega

theorem commit_fill (h : LaneWrites issue value) (hfits : OutputFits issue) (memory : LocalMemory)
    (outcome : CubeExecutionOutcome) :
    ∃ memory', (PreparedCubeExecution.mk (fillWrites issue value) outcome).commit memory = .ok memory' ∧
      (∀ w ∈ fillWrites issue value, ∀ i byte, w.bytes[i]? = some byte →
        memory'.l0c.bytes.get? (w.address + i) = some (.known byte)) ∧
      (∀ a, (∀ tile < issue.geometry.mTiles * issue.geometry.nTiles,
          a < issue.outTile tile ∨ issue.outTile tile + 256 * issue.laneBytes ≤ a) →
        memory'.l0c.bytes.get? a = memory.l0c.bytes.get? a) ∧
      memory'.l0a = memory.l0a ∧ memory'.l0b = memory.l0b ∧ memory'.bt = memory.bt := by
  have hlen := issue.laneBytes_cases
  have hbounds : ∀ w ∈ fillWrites issue value, w.address + w.bytes.length < u64 := by
    intro w hw
    obtain ⟨x, -, rfl⟩ := mem_fillWrites.mp hw
    rw [fill_place h, h.fill.length]
    simp only [u64]
    omega
  obtain ⟨l0c, hcommit, hwritten, hframe⟩ := commit_spec hbounds (fillWrites_apart h hfits) memory.l0c
  refine ⟨{ memory with l0c }, ?_, hwritten, fun a ha => hframe a fun w hw => ?_, rfl, rfl, rfl⟩
  · unfold PreparedCubeExecution.commit PreparedCubeExecution.commitToBuffer
    rw [hcommit]
    rfl
  · by_contra hin
    obtain ⟨tile, htile, hcovers⟩ := (fillWrites_cover h hfits a).mp ⟨w, hw, by omega⟩
    have := ha tile htile
    omega

/-- The loop over the lanes prepares them in row-major order. -/
theorem CubeIssue.lanes_getElem? {row col : Nat} (hrow : row < issue.parameters.m.toNat)
    (hcol : col < issue.parameters.n.toNat) : issue.lanes[row * issue.parameters.n.toNat + col]? = some (row, col) := by
  have hlanes : issue.lanes = (List.range (issue.parameters.m.toNat * issue.parameters.n.toNat)).map
      fun x => (x / issue.parameters.n.toNat, x % issue.parameters.n.toNat) := by
    rw [← range_digits]
    refine List.flatMap_congr fun i _ => List.map_congr_left fun j hj => ?_
    rw [digits_div (List.mem_range.mp hj), digits_mod (List.mem_range.mp hj)]
  rw [hlanes, List.getElem?_map, List.getElem?_range (digits_lt hrow hcol)]
  simp [digits_div hcol, digits_mod hcol]

theorem tileWrite_fill (hfits : OutputFits issue) (at' : Nat × Nat) :
    issue.tileWrite (issue.lanes.map value) at' = .ok (fillWrite issue value at') := by
  have hbase := hfits.base
  unfold CubeIssue.tileWrite fillWrite padWrite
  simp only
  split
  · rw [List.getElem?_map, CubeIssue.lanes_getElem? ‹_ ∧ _›.1 ‹_ ∧ _›.2]
    rfl
  · unfold CubeIssue.outPlace
    unfold CubeIssue.laneBytes at hbase ⊢
    split at hbase
    · simp only [if_pos ‹issue.instruction.dataType = .f16F16›]
      rw [show f16CAddress = cAddress (256 * 2) 2 from rfl, cAddress_eq (.inl rfl) hbase]
      rfl
    · simp only [if_neg ‹¬issue.instruction.dataType = .f16F16›]
      rw [show f32CAddress = cAddress (256 * 4) 4 from rfl, cAddress_eq (.inr rfl) hbase]
      rfl

/-- The completion of the tiles fills them with the values of the lanes. -/
theorem completeOutputTiles_fills (h : LaneWrites issue value) (hfits : OutputFits issue) (memory : LocalMemory)
    (outcome : CubeExecutionOutcome) :
    ∃ prepared, issue.completeOutputTiles ⟨issue.lanes.map value, outcome⟩ = .ok prepared ∧
      prepared.outcome.fpStatus = outcome.fpStatus ∧ prepared.outcome.integerOverflow = outcome.integerOverflow ∧
      FillsTiles issue memory value prepared := by
  have hlength : (fillWrites issue value).length = issue.geometry.mTiles * issue.geometry.nTiles * 256 := by
    rw [fillWrites, List.length_map, List.length_range]
  have hcount : issue.parameters.m.toNat * issue.parameters.n.toNat ≤
      issue.geometry.mTiles * issue.geometry.nTiles * 256 :=
    calc issue.parameters.m.toNat * issue.parameters.n.toNat
        ≤ (issue.geometry.mTiles * 16) * (issue.geometry.nTiles * 16) := Nat.mul_le_mul (rows_le issue) (cols_le issue)
      _ = issue.geometry.mTiles * issue.geometry.nTiles * 256 := by ring
  have hwrites : (CubeIssue.tileLanes (issue.instruction.geometry issue.parameters)).mapM
      (issue.tileWrite (issue.lanes.map value)) = .ok (fillWrites issue value) := by
    rw [mapM_eq fun at' _ => tileWrite_fill hfits at', tileLanes_eq, List.map_map, fillWrites,
      show issue.geometry.mTiles * issue.geometry.nTiles * 256 =
        issue.geometry.nTiles * (issue.geometry.mTiles * 256) by ring]
    rfl
  refine ⟨⟨fillWrites issue value, { outcome with
    writtenLanes := (fillWrites issue value).length
    paddedLanes := (fillWrites issue value).length - issue.parameters.m.toNat * issue.parameters.n.toNat }⟩,
    ?_, rfl, rfl, ?_⟩
  · unfold CubeIssue.completeOutputTiles
    simp only
    rw [hwrites]
    change (Word.plainSubNat _ _ >>= _) = _
    rw [Word.plainSubNat, if_pos (hlength ▸ hcount)]
    rfl
  constructor
  · exact fillWrites_apart h hfits
  · exact fillWrites_cover h hfits
  · intro row hrow col hcol
    have hmem := @mem_fillWrites_of_lane issue value row col (hrow.trans_le (rows_le issue))
      (hcol.trans_le (cols_le issue))
    rwa [fillWrite, if_pos ⟨hrow, hcol⟩] at hmem
  · intro row hrow col hcol hout
    have hmem := @mem_fillWrites_of_lane issue value row col hrow hcol
    rwa [fillWrite, if_neg hout] at hmem
  · exact hlength
  · show (fillWrites issue value).length - issue.parameters.m.toNat * issue.parameters.n.toNat + _ = _
    omega
  · exact commit_fill h hfits memory _

/-- Different lanes lie in different places. -/
theorem outPlace_inj (hfits : OutputFits issue) {row col row' col' : Nat} (hrow : row < issue.geometry.mTiles * 16)
    (hcol : col < issue.geometry.nTiles * 16) (hrow' : row' < issue.geometry.mTiles * 16)
    (hcol' : col' < issue.geometry.nTiles * 16) (hplace : issue.outPlace (row, col) = issue.outPlace (row', col')) :
    row = row' ∧ col = col' := by
  have hsize := hfits.fits
  have hbase := hfits.base
  have hlt : ∀ {row col}, row < issue.geometry.mTiles * 16 → col < issue.geometry.nTiles * 16 →
      cPosition issue.geometry.mTiles row col < issue.geometry.mTiles * issue.geometry.nTiles * 256 := by
    intro row col hr hc
    refine blocked_lt (by decide) (by decide) ?_
    rw [Nat.add_comm, Nat.mul_comm, Nat.mul_comm issue.geometry.mTiles]
    exact digits_lt (by omega) (by omega)
  have h₁ := hlt hrow hcol
  have h₂ := hlt hrow' hcol'
  simp only [CubeIssue.outPlace] at hplace
  have hposition : cPosition issue.geometry.mTiles row col = cPosition issue.geometry.mTiles row' col' := by
    have hlen := issue.laneBytes_cases
    generalize issue.laneBytes = len at *
    rcases hlen with rfl | rfl
    · omega
    · omega
  have hcoordinates := congrArg (coordinates issue.geometry.mTiles) hposition
  rw [coordinates_cPosition hrow, coordinates_cPosition hrow'] at hcoordinates
  exact Prod.mk.inj hcoordinates

end Fill

end AscendEmulator.C220.Cube
