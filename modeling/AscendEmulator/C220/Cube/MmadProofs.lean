/-
  AscendEmulator.C220.Cube.MmadProofs — a dense integer issue multiplies the matrices in its buffers, for every
  shape.

  A layout is a numbering of the elements of a matrix (`Lib.blocked`); element numbers become addresses by wrapping
  at the size of the buffer (`inputAddress_eq`, `f32CAddress_eq`). A slice adds one block of products and clamps
  (`evaluateSlice_eq`), a lane is the fold of its slices (`lane_eq`), the tiles are one run of 4-byte writes that
  wraps once (`completeOutputTiles_eq`).
-/

import AscendEmulator.C220.Cube.Mmad
import AscendEmulator.Memory.PvMemoryProofs

namespace AscendEmulator.C220.Cube

open Lib Outcome Isa AscendEmulator.Memory AscendEmulator.C220.Memory

/-! ## Addresses -/

/-- An address past the last tile wraps at the size of the buffer; one before it does so too. -/
theorem wrapTile_eq {size tile : Nat} (hpos : 0 < tile) (hle : tile ≤ size) (n : Nat) :
    (if size - tile < n then n % size else n) = n % size := by
  split
  · rfl
  · rw [Nat.mod_eq_of_lt (by omega)]

theorem wrappingAdd_mod {size : Nat} (h : size ∣ u64) (a b : Nat) : wrappingAdd a b % size = (a + b) % size :=
  Nat.mod_mod_of_dvd _ h

theorem inputAddress_eq {base : Nat} (hbase : base % 512 = 0) (offset : Nat) :
    inputAddress base offset = (base + offset) % 65536 := by
  simp only [inputAddress]
  rw [wrapTile_eq (by decide) (by decide), wrappingAdd_mod (by decide)]
  omega

theorem inputAddress_lt {base : Nat} (hbase : base % 512 = 0) (offset : Nat) : inputAddress base offset < 65536 := by
  rw [inputAddress_eq hbase]
  exact Nat.mod_lt _ (by decide)

theorem outputTileBase_eq {bytes : Nat} (hpos : 0 < bytes) (hle : bytes ≤ 131072) (base tile : Nat) :
    outputTileBase base tile bytes = (base + tile * bytes) % 131072 := by
  simp only [outputTileBase]
  rw [wrapTile_eq hpos hle, wrappingAdd_mod (by decide)]

/-- The number of an output lane, tile after tile down the columns of tiles. -/
def cPosition (mTiles : Nat) : Nat → Nat → Nat := blocked 16 16 fun a b => a + mTiles * b

theorem f32CAddress_eq {base : Nat} (hbase : base % 1024 = 0) (mTiles row col : Nat) :
    f32CAddress base mTiles row col = (base + 4 * cPosition mTiles row col) % 131072 := by
  have hlane : row % 16 * 16 + col % 16 < 16 * 16 := lane_lt (by decide) (by decide) row col
  simp only [f32CAddress, cAddress, cPosition, blocked]
  rw [outputTileBase_eq (by decide) (by decide)]
  simp only [f32TileBytes, tileEdge]
  generalize row / 16 + mTiles * (col / 16) = tile
  generalize row % 16 * 16 + col % 16 = lane at *
  omega

/-! ## The elements of a matrix -/

namespace IntegerInputMode

variable {mode : IntegerInputMode} {buffer : LocalBuffer} {base element : Nat}

/-- Where an element lies in a buffer: a byte, and the nibble in it. -/
def place (mode : IntegerInputMode) (base element : Nat) : Nat × Nat :=
  if mode = .signed4Signed4 then ((base + element / 2) % 65536, element % 2) else ((base + element) % 65536, 0)

def leftSigned : IntegerInputMode → Bool
  | .unsignedUnsigned | .unsignedSigned => false
  | .signedSigned | .signed4Signed4 => true

def rightSigned : IntegerInputMode → Bool
  | .unsignedUnsigned => false
  | .signedSigned | .signed4Signed4 | .unsignedSigned => true

/-- The number in a byte, or in a nibble of it. -/
def numberIn (mode : IntegerInputMode) (signed : Bool) (byte : UInt8) (nibble : Nat) : Int :=
  if mode = .signed4Signed4 then
    if byte.toNat / 16 ^ nibble % 16 < 8 then (byte.toNat / 16 ^ nibble % 16 : Nat)
    else (byte.toNat / 16 ^ nibble % 16 : Nat) - 16
  else if signed then byte.toInt8.toInt else byte.toNat

/-- The value of an element stored from `base` on. -/
def valueOf (mode : IntegerInputMode) (signed : Bool) (buffer : LocalBuffer) (base element : Nat) : Int :=
  mode.numberIn signed (buffer.byteAt (mode.place base element).1) (mode.place base element).2

/-- The byte that stands for an element in a product. -/
def byteOf (mode : IntegerInputMode) (buffer : LocalBuffer) (base element : Nat) : UInt8 :=
  let byte := buffer.byteAt (mode.place base element).1
  if mode = .signed4Signed4 then signExtend ((byte >>> UInt8.ofNat (4 * (element % 2))) &&& 0xf) else byte

theorem readInput_eq (hbase : base % 512 = 0) {offset : Nat}
    (hinit : buffer.initializedState ((base + offset) % 65536) ≠ .unknown) :
    readInput 1 buffer base offset = .ok [buffer.byteAt ((base + offset) % 65536)] := by
  have hlt := inputAddress_lt hbase offset
  unfold readInput
  rw [inputAddress_eq hbase] at hlt ⊢
  rw [LocalBuffer.readInitializedLinear_eq (by simp only [u64]; omega) fun i hi => by
    rw [Nat.lt_one_iff.mp hi]; exact hinit]
  rfl

theorem read_eq (hbase : base % 512 = 0)
    (hinit : buffer.initializedState (mode.place base element).1 ≠ .unknown) :
    mode.read buffer base element = .ok (mode.byteOf buffer base element) := by
  unfold read byteOf
  unfold place at hinit ⊢
  split at hinit
  · rw [if_pos ‹_›, if_pos ‹_›, if_pos ‹_›, readInput_eq hbase hinit]
    rfl
  · rw [if_neg ‹_›, if_neg ‹_›, if_neg ‹_›, readInput_eq hbase hinit]
    rfl

theorem toInt_signExtend (byte : UInt8) {nibble : Nat} (h : nibble < 2) :
    (signExtend ((byte >>> UInt8.ofNat (4 * nibble)) &&& 0xf)).toInt8.toInt =
      numberIn .signed4Signed4 true byte nibble := by
  have hall : ∀ b : Fin 256, ∀ nibble : Fin 2,
      (signExtend ((UInt8.ofNat b.val >>> UInt8.ofNat (4 * nibble.val)) &&& 0xf)).toInt8.toInt =
        numberIn .signed4Signed4 true (UInt8.ofNat b.val) nibble.val := by decide +kernel
  have := hall ⟨byte.toNat, byte.toNat_lt⟩ ⟨nibble, h⟩
  rwa [UInt8.ofNat_toNat] at this

/-- The product of the bytes that were read is the product of the elements. -/
theorem product_eq (other : LocalBuffer) (base' element' : Nat) :
    mode.product (mode.byteOf buffer base element) (mode.byteOf other base' element') =
      mode.valueOf mode.leftSigned buffer base element * mode.valueOf mode.rightSigned other base' element' := by
  cases mode with
  | signed4Signed4 =>
    have hl := toInt_signExtend (buffer.byteAt (place .signed4Signed4 base element).1) (Nat.mod_lt element two_pos)
    have hr := toInt_signExtend (other.byteAt (place .signed4Signed4 base' element').1) (Nat.mod_lt element' two_pos)
    exact congrArg₂ (· * ·) hl hr
  | unsignedUnsigned => rfl
  | signedSigned => rfl
  | unsignedSigned => rfl

theorem numberIn_mem (signed : Bool) (byte : UInt8) (nibble : Nat) :
    -128 ≤ mode.numberIn signed byte nibble ∧ mode.numberIn signed byte nibble ≤ 255 := by
  have hbyte := byte.toNat_lt
  have hle := byte.toInt8.le_toInt
  have hlt := byte.toInt8.toInt_lt
  unfold numberIn
  split
  · split <;> omega
  · split <;> omega

theorem mul_mem {x y : Int} (hx : -128 ≤ x ∧ x ≤ 255) (hy : -128 ≤ y ∧ y ≤ 255) :
    -65536 ≤ x * y ∧ x * y ≤ 65536 := by
  have h : |x * y| ≤ 255 * 255 := by
    rw [abs_mul]
    exact mul_le_mul (abs_le.mpr (by omega)) (abs_le.mpr (by omega)) (abs_nonneg y) (by decide)
  have := abs_le.mp h
  omega

end IntegerInputMode

/-! ## The matrices of an issue -/

/-- The number in four bytes. -/
def i32OfBytes (byte : Nat → UInt8) : Int := (u32OfBytes ((List.range 4).map byte)).toInt32.toInt

namespace CubeIssue

def geometry (issue : CubeIssue) : CubeGeometry := issue.instruction.geometry issue.parameters

/-- The number of an element of A: row by row in tiles, or a row vector. -/
def aPosition (issue : CubeIssue) (row k : Nat) : Nat :=
  if issue.parameters.m = 1 then k
  else blocked 16 issue.geometry.kTileElements (fun a b => a * issue.geometry.kTiles + b) row k

/-- The number of an element of B: column by column in tiles. -/
def bPosition (issue : CubeIssue) (k col : Nat) : Nat :=
  blocked 16 issue.geometry.kTileElements (fun a b => b * issue.geometry.nTiles + a) col k

def aMatrix (issue : CubeIssue) (memory : LocalMemory) (mode : IntegerInputMode) (row k : Nat) : Int :=
  mode.valueOf mode.leftSigned memory.l0a issue.parameters.xn.toNat (issue.aPosition row k)

def bMatrix (issue : CubeIssue) (memory : LocalMemory) (mode : IntegerInputMode) (k col : Nat) : Int :=
  mode.valueOf mode.rightSigned memory.l0b issue.parameters.xm.toNat (issue.bPosition k col)

/-- The address of an output lane: lane after lane from the base of the output, wrapping at the size of L0C. -/
def cPlace (issue : CubeIssue) (row col : Nat) : Nat :=
  (issue.parameters.xdLow.toNat + 4 * cPosition issue.geometry.mTiles row col) % 131072

def cMatrix (issue : CubeIssue) (memory : LocalMemory) (row col : Nat) : Int :=
  match issue.accumulatorSource with
  | .zero => 0
  | .l0c => i32OfBytes fun i => memory.l0c.byteAt (issue.cPlace row col + i)
  | .bias address _ => i32OfBytes fun i => memory.bt.readByte (address.toNat + (4 * col + i))

/-- What the slice at a tile of k adds to an output lane. -/
def blockSum (issue : CubeIssue) (memory : LocalMemory) (mode : IntegerInputMode) (row col tile : Nat) : Int :=
  ∑ lane ∈ Finset.range (min (issue.parameters.effectiveK.toNat - tile * issue.geometry.kTileElements)
      issue.geometry.kTileElements),
    issue.aMatrix memory mode row (tile * issue.geometry.kTileElements + lane) *
      issue.bMatrix memory mode (tile * issue.geometry.kTileElements + lane) col

def blockSums (issue : CubeIssue) (memory : LocalMemory) (mode : IntegerInputMode) (row col : Nat) : List Int :=
  (List.range issue.geometry.kTiles).map (issue.blockSum memory mode row col)

/-- The value of an output lane: the accumulator, plus the blocks of the product, clamped after each. -/
def laneValue (issue : CubeIssue) (memory : LocalMemory) (mode : IntegerInputMode) (row col : Nat) : Int :=
  saturatingSum i32Min i32Max (issue.cMatrix memory row col) (issue.blockSums memory mode row col)

end CubeIssue

/-- A dense integer issue that the hardware accepts: its bases are aligned, its matrices fit in their buffers, and
what it reads is initialized. -/
structure DenseInteger (issue : CubeIssue) (memory : LocalMemory) (mode : IntegerInputMode) : Prop where
  operation : issue.instruction.operation = .mmad
  dataType : IntegerInputMode.ofDataType issue.instruction.dataType = some mode
  m_pos : issue.parameters.m ≠ 0
  k_pos : issue.parameters.effectiveK ≠ 0
  n_pos : issue.parameters.n ≠ 0
  aBase : issue.parameters.xn.toNat % 512 = 0
  bBase : issue.parameters.xm.toNat % 512 = 0
  aFits : issue.parameters.m ≠ 1 → issue.geometry.mTiles * issue.geometry.kTiles * 512 ≤ 65536
  bFits : issue.geometry.kTiles * issue.geometry.nTiles * 512 ≤ 65536
  outBase : issue.parameters.xdLow.toNat % 1024 = 0
  outFits : issue.geometry.mTiles * issue.geometry.nTiles * 1024 ≤ 131072
  aKnown : ∀ row < issue.parameters.m.toNat, ∀ k < issue.parameters.effectiveK.toNat,
    memory.l0a.initializedState (mode.place issue.parameters.xn.toNat (issue.aPosition row k)).1 ≠ .unknown
  bKnown : ∀ k < issue.parameters.effectiveK.toNat, ∀ col < issue.parameters.n.toNat,
    memory.l0b.initializedState (mode.place issue.parameters.xm.toNat (issue.bPosition k col)).1 ≠ .unknown
  cKnown : issue.accumulatorSource = .l0c → ∀ row < issue.parameters.m.toNat, ∀ col < issue.parameters.n.toNat,
    memory.l0c.Initialized (issue.cPlace row col) 4

section Kernel

variable {issue : CubeIssue} {memory : LocalMemory} {mode : IntegerInputMode} {control : CubeExecutionControl}
  {arms : OtherArms} {row col : Nat}

def kernel (issue : CubeIssue) (memory : LocalMemory) (control : CubeExecutionControl) (arms : OtherArms) : Mmad :=
  ⟨issue, memory, control, arms, issue.geometry⟩

/-! ## Inputs -/

theorem aElement_eq (hop : issue.instruction.operation = .mmad) (k : Nat) :
    (kernel issue memory control arms).aElement issue.geometry.kTiles issue.geometry.kTileElements row k =
      issue.aPosition row k := by
  simp only [Mmad.aElement, CubeIssue.aPosition, kernel, hop, and_true, integerAElement, blocked, tileEdge,
    Nat.mul_assoc]

theorem integerBElement_eq (k : Nat) :
    integerBElement issue.geometry.nTiles issue.geometry.kTileElements k col = issue.bPosition k col := by
  simp only [integerBElement, CubeIssue.bPosition, blocked, tileEdge, Nat.mul_assoc]

theorem readIntegerPair_eq (h : DenseInteger issue memory mode) (hrow : row < issue.parameters.m.toNat)
    (hcol : col < issue.parameters.n.toNat) {k : Nat} (hk : k < issue.parameters.effectiveK.toNat) :
    (kernel issue memory control arms).readIntegerPair mode row col k =
      .ok (mode.byteOf memory.l0a issue.parameters.xn.toNat (issue.aPosition row k),
        mode.byteOf memory.l0b issue.parameters.xm.toNat (issue.bPosition k col)) := by
  have hop : ¬(kernel issue memory control arms).issue.instruction.operation = .sparseMmad := by
    rw [show (kernel issue memory control arms).issue.instruction.operation = .mmad from h.operation]
    decide
  unfold Mmad.readIntegerPair
  rw [if_neg hop]
  change (mapErr _ (mode.read memory.l0a issue.parameters.xn.toNat
      ((kernel issue memory control arms).aElement issue.geometry.kTiles issue.geometry.kTileElements row k)) >>= fun _ =>
    mapErr _ (mode.read memory.l0b issue.parameters.xm.toNat
      (integerBElement issue.geometry.nTiles issue.geometry.kTileElements k col)) >>= _) = _
  rw [aElement_eq h.operation, integerBElement_eq, IntegerInputMode.read_eq h.aBase (h.aKnown row hrow k hk),
    IntegerInputMode.read_eq h.bBase (h.bKnown k hk col hcol)]
  rfl

/-! ## Slices -/

theorem kTileElements_pos (t : CubeDataType) : 0 < t.kTileElements := by cases t <;> decide

theorem kTileElements_le (t : CubeDataType) : t.kTileElements ≤ 64 := by cases t <;> decide

theorem sum_mem {f : Nat → Int} (hf : ∀ k, -65536 ≤ f k ∧ f k ≤ 65536) (n : Nat) :
    -65536 * (n : Int) ≤ ∑ k ∈ Finset.range n, f k ∧ ∑ k ∈ Finset.range n, f k ≤ 65536 * n := by
  induction n with
  | zero => simp
  | succ n ih =>
    have := hf n
    rw [Finset.sum_range_succ]
    push_cast
    omega

theorem product_mem (issue : CubeIssue) (memory : LocalMemory) (mode : IntegerInputMode) (row k col : Nat) :
    -65536 ≤ issue.aMatrix memory mode row k * issue.bMatrix memory mode k col ∧
      issue.aMatrix memory mode row k * issue.bMatrix memory mode k col ≤ 65536 :=
  IntegerInputMode.mul_mem (IntegerInputMode.numberIn_mem _ _ _) (IntegerInputMode.numberIn_mem _ _ _)

theorem plainAddI64_eq {a b : Int} (hlo : -2 ^ 63 ≤ a + b) (hhi : a + b < 2 ^ 63) : plainAddI64 a b = .ok (a + b) := by
  rw [plainAddI64, if_pos ⟨hlo, hhi⟩]
  rfl

/-- The sum of a slice stays in `i64`, and is that of the elements. -/
theorem integerSum_eq (h : DenseInteger issue memory mode) (hrow : row < issue.parameters.m.toNat)
    (hcol : col < issue.parameters.n.toNat) (tile : Nat) (accumulator : UInt32) :
    (kernel issue memory control arms).integerSum mode row col (tile * issue.geometry.kTileElements) accumulator =
      .ok (accumulator.toInt32.toInt + issue.blockSum memory mode row col tile) := by
  have hacc := accumulator.toInt32.le_toInt
  have hacc' := accumulator.toInt32.toInt_lt
  have hwidth : issue.geometry.kTileElements ≤ 64 := kTileElements_le _
  unfold Mmad.integerSum
  have hloop := foldlM_range_eq (n := min (issue.parameters.effectiveK.toNat - tile * issue.geometry.kTileElements)
      issue.geometry.kTileElements)
    (f := fun sum lane => do
      let pair ← (kernel issue memory control arms).readIntegerPair mode row col
        (tile * issue.geometry.kTileElements + lane)
      plainAddI64 sum (mode.product pair.1 pair.2))
    (g := fun n => accumulator.toInt32.toInt + ∑ lane ∈ Finset.range n,
      issue.aMatrix memory mode row (tile * issue.geometry.kTileElements + lane) *
        issue.bMatrix memory mode (tile * issue.geometry.kTileElements + lane) col) fun i hi => by
      have hbound := sum_mem (fun lane => product_mem issue memory mode row
        (tile * issue.geometry.kTileElements + lane) col) (i + 1)
      rw [readIntegerPair_eq h hrow hcol (by omega)]
      change plainAddI64 _ (mode.product _ _) = _
      rw [IntegerInputMode.product_eq]
      change plainAddI64 _ (issue.aMatrix memory mode row (tile * issue.geometry.kTileElements + i) *
        issue.bMatrix memory mode (tile * issue.geometry.kTileElements + i) col) = _
      rw [Finset.sum_range_succ] at hbound ⊢
      rw [← add_assoc]
      exact plainAddI64_eq (by omega) (by omega)
  simp only [Finset.sum_range_zero, add_zero] at hloop
  exact hloop

theorem dataType_ne (h : DenseInteger issue memory mode) {t : CubeDataType} (ht : IntegerInputMode.ofDataType t = none) :
    issue.instruction.dataType ≠ t := by
  intro heq
  have hmode := h.dataType
  rw [heq, ht] at hmode
  cases hmode

theorem toInt_ofInt_i32 {x : Int} (hx : i32Min ≤ x ∧ x ≤ i32Max) : (Int32.ofInt x).toUInt32.toInt32.toInt = x := by
  have h₁ := hx.1
  have h₂ := hx.2
  simp only [i32Min, i32Max] at h₁ h₂
  exact Int32.toInt_ofInt_of_le (by omega) (by omega)

/-- The state of the loop over the slices: the accumulator, and the overflow flag. -/
def sliceState (outcome : CubeExecutionOutcome) (s : Int × Bool) : UInt32 × CubeExecutionOutcome :=
  ((Int32.ofInt s.1).toUInt32, { outcome with integerOverflow := s.2 })

/-- A slice adds its block to the accumulator, and clamps. -/
theorem evaluateSlice_eq (h : DenseInteger issue memory mode) (hrow : row < issue.parameters.m.toNat)
    (hcol : col < issue.parameters.n.toNat) (outcome : CubeExecutionOutcome) (s : Int × Bool)
    (hs : i32Min ≤ s.1 ∧ s.1 ≤ i32Max) (tile : Nat) :
    (kernel issue memory control arms).evaluateSlice row col (tile * issue.geometry.kTileElements)
        (sliceState outcome s).1 (sliceState outcome s).2 =
      .ok (sliceState outcome (saturatingStep i32Min i32Max s (issue.blockSum memory mode row col tile))) := by
  have hsum := @integerSum_eq issue memory mode control arms row col h hrow hcol tile (sliceState outcome s).1
  rw [show (sliceState outcome s).1.toInt32.toInt = s.1 from toInt_ofInt_i32 hs] at hsum
  unfold Mmad.evaluateSlice
  split
  · exact absurd ‹_› (dataType_ne h rfl)
  · exact absurd ‹_› (dataType_ne h rfl)
  · exact absurd ‹_› (dataType_ne h rfl)
  · exact absurd ‹_› (dataType_ne h rfl)
  · rw [show (kernel issue memory control arms).issue.instruction.dataType = issue.instruction.dataType from rfl,
      h.dataType]
    change ((kernel issue memory control arms).integerSum mode row col _ _ >>= _) = _
    rw [hsum]
    rfl

/-! ## Accumulators -/

/-- What `load` returns. -/
def initialAccumulator (issue : CubeIssue) (memory : LocalMemory) : CubeAccumulator :=
  match issue.accumulatorSource with
  | .bias address readBytes =>
    ⟨.bias address readBytes, (List.range readBytes).map fun i => memory.bt.readByte (address.toNat + i)⟩
  | source => ⟨source, []⟩

theorem bias_readBytes {address : UInt32} {readBytes : Nat} (h : issue.accumulatorSource = .bias address readBytes) :
    readBytes = divCeil issue.parameters.n.toNat 16 * 16 * 8 := by
  unfold CubeIssue.accumulatorSource at h
  split at h
  · cases h
  · split at h
    · injection h with _ hread
      exact hread.symm
    · cases h

theorem load_eq (issue : CubeIssue) (memory : LocalMemory) :
    CubeAccumulator.load issue memory = .ok (initialAccumulator issue memory) := by
  unfold CubeAccumulator.load initialAccumulator
  cases hsource : issue.accumulatorSource with
  | zero => rfl
  | l0c => rfl
  | bias address readBytes =>
    have hn := issue.parameters.n.toNat_lt
    have haddress := address.toNat_lt
    have hbytes := bias_readBytes hsource
    simp only
    rw [PvMemory.readInto_eq (by simp only [u64, divCeil] at hbytes ⊢; omega)]
    rfl

theorem i32OfBytes_eq (byte : Nat → UInt8) :
    (Int32.ofInt (i32OfBytes byte)).toUInt32 = u32OfBytes ((List.range 4).map byte) := by
  rw [i32OfBytes, Int32.ofInt_toInt]
  rfl

theorem i32OfBytes_mem (byte : Nat → UInt8) : i32Min ≤ i32OfBytes byte ∧ i32OfBytes byte ≤ i32Max := by
  have hlo := (u32OfBytes ((List.range 4).map byte)).toInt32.le_toInt
  have hhi := (u32OfBytes ((List.range 4).map byte)).toInt32.toInt_lt
  simp only [i32Min, i32Max, i32OfBytes]
  omega

theorem cMatrix_mem (issue : CubeIssue) (memory : LocalMemory) (row col : Nat) :
    i32Min ≤ issue.cMatrix memory row col ∧ issue.cMatrix memory row col ≤ i32Max := by
  unfold CubeIssue.cMatrix
  split
  · decide
  · exact i32OfBytes_mem _
  · exact i32OfBytes_mem _

theorem cPlace_lt (issue : CubeIssue) (row col : Nat) : issue.cPlace row col < 131072 := Nat.mod_lt _ (by decide)

theorem slice_range_map {α : Type} (f : Nat → α) {size offset len : Nat} (h : offset + len ≤ size) :
    (((List.range size).map f).drop offset).take len = (List.range len).map fun i => f (offset + i) := by
  refine List.ext_getElem (by simp; omega) fun i _ _ => ?_
  simp

/-- The selected accumulator of a lane. -/
theorem initialLane_eq (h : DenseInteger issue memory mode) (hrow : row < issue.parameters.m.toNat)
    (hcol : col < issue.parameters.n.toNat) :
    (initialAccumulator issue memory).lane memory 4 (issue.cPlace row col) col =
      .ok (Int32.ofInt (issue.cMatrix memory row col)).toUInt32 := by
  have hplace := cPlace_lt issue row col
  unfold CubeAccumulator.lane CubeAccumulator.laneBytes initialAccumulator CubeIssue.cMatrix
  cases hsource : issue.accumulatorSource with
  | zero => rfl
  | l0c =>
    simp only
    rw [LocalBuffer.readInitializedLinear_eq (by simp only [u64]; omega) (h.cKnown hsource row hrow col hcol),
      i32OfBytes_eq]
    rfl
  | bias address readBytes =>
    have hbytes := bias_readBytes hsource
    have hfits : col * 4 + 4 ≤ readBytes := by
      simp only [divCeil] at hbytes
      omega
    simp only [CubeAccumulator.biasBytes, List.length_map, List.length_range, if_pos hfits]
    rw [slice_range_map _ hfits, i32OfBytes_eq, Nat.mul_comm col 4]
    rfl

/-! ## Lanes -/

theorem mem_lanes {at' : Nat × Nat} :
    at' ∈ (kernel issue memory control arms).lanes ↔
      at'.1 < issue.parameters.m.toNat ∧ at'.2 < issue.parameters.n.toNat := by
  obtain ⟨row, col⟩ := at'
  simp [Mmad.lanes, kernel]

/-- The write of an output lane. -/
def laneWrite (issue : CubeIssue) (memory : LocalMemory) (mode : IntegerInputMode) (at' : Nat × Nat) : CubeWrite :=
  .u32 (issue.cPlace at'.1 at'.2) (Int32.ofInt (issue.laneValue memory mode at'.1 at'.2)).toUInt32

/-- A slice of the lane clamps. -/
def laneSaturates (issue : CubeIssue) (memory : LocalMemory) (mode : IntegerInputMode) (at' : Nat × Nat) : Prop :=
  Saturates i32Min i32Max (issue.cMatrix memory at'.1 at'.2) (issue.blockSums memory mode at'.1 at'.2)

instance (issue : CubeIssue) (memory : LocalMemory) (mode : IntegerInputMode) (at' : Nat × Nat) :
    Decidable (laneSaturates issue memory mode at') := decidableSaturates ..

theorem halfOutput_eq (h : DenseInteger issue memory mode) :
    (kernel issue memory control arms).halfOutput = false :=
  decide_eq_false (dataType_ne h rfl)

theorem kBases_eq (h : DenseInteger issue memory mode) :
    (kernel issue memory control arms).kBases =
      (List.range issue.geometry.kTiles).map (· * issue.geometry.kTileElements) := by
  have hwidth : (kernel issue memory control arms).sliceWidth = issue.geometry.kTileElements := by
    rw [Mmad.sliceWidth, if_neg fun hf => dataType_ne h rfl hf.1]
    rfl
  rw [Mmad.kBases, hwidth]
  rfl

/-- The lane of an output is the fold of its slices. -/
theorem lane_eq (h : DenseInteger issue memory mode) (hrow : row < issue.parameters.m.toNat)
    (hcol : col < issue.parameters.n.toNat) (outcome : CubeExecutionOutcome) (flag : Bool) :
    (kernel issue memory control arms).lane (initialAccumulator issue memory) row col
        { outcome with integerOverflow := flag } =
      .ok (laneWrite issue memory mode (row, col),
        { outcome with integerOverflow := flag || decide (laneSaturates issue memory mode (row, col)) }) := by
  have haddress : (kernel issue memory control arms).outputAddress row col = issue.cPlace row col := by
    rw [Mmad.outputAddress, halfOutput_eq h]
    exact f32CAddress_eq h.outBase _ _ _
  have hfold := @foldlM_eq CubeIssueError _ _ (Int × Bool) (List.range issue.geometry.kTiles)
    (fun s tile => (kernel issue memory control arms).evaluateSlice row col
      (tile * issue.geometry.kTileElements) s.1 s.2)
    (fun s tile => saturatingStep i32Min i32Max s (issue.blockSum memory mode row col tile))
    (sliceState outcome) (fun s => i32Min ≤ s.1 ∧ s.1 ≤ i32Max)
    (fun s hs tile _ => ⟨evaluateSlice_eq h hrow hcol outcome s hs tile, clampTo_mem (by decide) _⟩)
    (issue.cMatrix memory row col, flag) (cMatrix_mem issue memory row col)
  rw [← List.foldl_map, foldl_saturatingStep] at hfold
  unfold Mmad.lane
  rw [haddress, halfOutput_eq h, kBases_eq h]
  change ((initialAccumulator issue memory).lane memory 4 _ _ >>= _) = _
  rw [initialLane_eq h hrow hcol]
  change ((List.foldlM _ (sliceState outcome (issue.cMatrix memory row col, flag)) (List.map _ _) :
    Outcome CubeIssueError _) >>= _) = _
  rw [List.foldlM_map, hfold]
  change Except.ok ((kernel issue memory control arms).write _ _, _) = _
  rw [Mmad.write, halfOutput_eq h]
  rfl

/-- The state of the loop over the lanes: the writes, and the overflow flag. -/
def laneState (outcome : CubeExecutionOutcome) (s : List CubeWrite × Bool) : List CubeWrite × CubeExecutionOutcome :=
  (s.1, { outcome with integerOverflow := s.2 })

def laneStep (issue : CubeIssue) (memory : LocalMemory) (mode : IntegerInputMode) (s : List CubeWrite × Bool)
    (at' : Nat × Nat) : List CubeWrite × Bool :=
  (s.1 ++ [laneWrite issue memory mode at'], s.2 || decide (laneSaturates issue memory mode at'))

theorem foldl_laneStep (l : List (Nat × Nat)) (s : List CubeWrite × Bool) :
    l.foldl (laneStep issue memory mode) s =
      (s.1 ++ l.map (laneWrite issue memory mode), s.2 || l.any fun at' => laneSaturates issue memory mode at') := by
  induction l generalizing s with
  | nil => simp
  | cons at' l ih => rw [List.foldl_cons, ih, laneStep]; simp [Bool.or_assoc]

/-- The outcome the loop starts with. -/
def startOutcome (issue : CubeIssue) : CubeExecutionOutcome :=
  let p := issue.parameters
  ⟨issue.accumulatorSource, p.m, p.effectiveK, p.n, p.m.toNat * p.effectiveK.toNat * p.n.toNat, 0, 0, .default, false⟩

/-- What the loop over the lanes comes to: their writes, row by row, and whether one saturates. -/
def mmadPrepared (issue : CubeIssue) (memory : LocalMemory) (mode : IntegerInputMode) (lanes : List (Nat × Nat)) :
    PreparedCubeExecution :=
  ⟨lanes.map (laneWrite issue memory mode),
    { startOutcome issue with
      integerOverflow := lanes.any fun at' => laneSaturates issue memory mode at'
      writtenLanes := (lanes.map (laneWrite issue memory mode)).length }⟩

theorem mmadPrepare_eq (h : DenseInteger issue memory mode) :
    mmadPrepare issue memory control arms =
      .ok (mmadPrepared issue memory mode (kernel issue memory control arms).lanes) := by
  have hfold := @foldlM_eq CubeIssueError _ _ (List CubeWrite × Bool) (kernel issue memory control arms).lanes
    ((kernel issue memory control arms).step (initialAccumulator issue memory)) (laneStep issue memory mode)
    (laneState (startOutcome issue)) (fun _ => True)
    (fun s _ at' hat => by
      obtain ⟨hrow, hcol⟩ := mem_lanes.mp hat
      refine ⟨?_, trivial⟩
      have hlane := @lane_eq issue memory mode control arms at'.1 at'.2 h hrow hcol (startOutcome issue) s.2
      unfold Mmad.step
      change ((kernel issue memory control arms).lane _ at'.1 at'.2 { startOutcome issue with integerOverflow := s.2 } >>=
        _) = _
      rw [hlane]
      rfl) ([], false) trivial
  have hkind : (decide (issue.instruction.dataType = .f16U2) || decide (issue.instruction.dataType = .b8U2)) = false := by
    rw [decide_eq_false (dataType_ne h rfl), decide_eq_false (dataType_ne h rfl)]
    rfl
  unfold mmadPrepare
  rw [load_eq]
  simp only [hkind, failIf]
  change ((kernel issue memory control arms).lanes.foldlM
    ((kernel issue memory control arms).step (initialAccumulator issue memory))
    (laneState (startOutcome issue) ([], false)) >>= _) = _
  rw [hfold, foldl_laneStep]
  rfl

/-! ## Output tiles -/

/-- The output lanes, by their number. -/
def coordinates (mTiles x : Nat) : Nat × Nat :=
  (x / 256 % mTiles * 16 + x % 256 / 16, x / 256 / mTiles * 16 + x % 16)

theorem coordinates_digits {mTiles mTile nTile i j : Nat} (hm : mTile < mTiles) (hi : i < 16) (hj : j < 16) :
    coordinates mTiles (nTile * (mTiles * 256) + (mTile * 256 + (i * 16 + j))) =
      (mTile * 16 + i, nTile * 16 + j) := by
  have hx : nTile * (mTiles * 256) + (mTile * 256 + (i * 16 + j)) = (nTile * mTiles + mTile) * 256 + (i * 16 + j) := by
    ring
  have hmod : ((nTile * mTiles + mTile) * 256 + (i * 16 + j)) % 16 = j := by omega
  have hlane : i * 16 + j < 256 := by omega
  rw [hx, coordinates, digits_div hlane, digits_mod hlane, digits_mod hm, digits_div hm, digits_div hj, hmod]

theorem tileLanes_eq (g : CubeGeometry) :
    CubeIssue.tileLanes g = (List.range (g.nTiles * (g.mTiles * 256))).map (coordinates g.mTiles) := by
  have hloops : CubeIssue.tileLanes g = (List.range g.nTiles).flatMap fun nTile => (List.range g.mTiles).flatMap
      fun mTile => (List.range 16).flatMap fun i => (List.range 16).map fun j =>
        coordinates g.mTiles (nTile * (g.mTiles * 256) + (mTile * 256 + (i * 16 + j))) := by
    refine List.flatMap_congr fun nTile _ => List.flatMap_congr fun mTile hm => List.flatMap_congr fun i hi =>
      List.map_congr_left fun j hj => ?_
    exact (coordinates_digits (List.mem_range.mp hm) (List.mem_range.mp hi) (List.mem_range.mp hj)).symm
  rw [hloops, ← range_digits (coordinates g.mTiles)]
  refine List.flatMap_congr fun nTile _ => ?_
  rw [← range_digits fun y => coordinates g.mTiles (nTile * (g.mTiles * 256) + y)]
  refine List.flatMap_congr fun mTile _ => ?_
  exact range_digits (fun z => coordinates g.mTiles (nTile * (g.mTiles * 256) + (mTile * 256 + z))) 16 16

theorem cPosition_coordinates (mTiles x : Nat) :
    cPosition mTiles (coordinates mTiles x).1 (coordinates mTiles x).2 = x := by
  have htile := Nat.mod_add_div (x / 256) mTiles
  have hrow : (x / 256 % mTiles * 16 + x % 256 / 16) / 16 = x / 256 % mTiles := digits_div (by omega)
  have hcol : (x / 256 / mTiles * 16 + x % 16) / 16 = x / 256 / mTiles := digits_div (by omega)
  simp only [cPosition, blocked, coordinates]
  rw [hrow, hcol, htile]
  omega

theorem coordinates_cPosition {mTiles row col : Nat} (hrow : row < mTiles * 16) :
    coordinates mTiles (cPosition mTiles row col) = (row, col) := by
  have h := @coordinates_digits mTiles (row / 16) (col / 16) (row % 16) (col % 16) (by omega) (by omega) (by omega)
  have hx : cPosition mTiles row col =
      col / 16 * (mTiles * 256) + (row / 16 * 256 + (row % 16 * 16 + col % 16)) := by
    simp only [cPosition, blocked]
    ring
  rw [hx, h, Nat.div_add_mod', Nat.div_add_mod']

/-- The write of a lane of the tiles. -/
def tileValue (issue : CubeIssue) (memory : LocalMemory) (mode : IntegerInputMode) (at' : Nat × Nat) : CubeWrite :=
  if at'.1 < issue.parameters.m.toNat ∧ at'.2 < issue.parameters.n.toNat then laneWrite issue memory mode at'
  else .u32 (issue.cPlace at'.1 at'.2) 0

/-- The loop over the lanes prepares them in row-major order. -/
theorem lanes_getElem? (hrow : row < issue.parameters.m.toNat) (hcol : col < issue.parameters.n.toNat) :
    (kernel issue memory control arms).lanes[row * issue.parameters.n.toNat + col]? = some (row, col) := by
  have hlanes : (kernel issue memory control arms).lanes =
      (List.range (issue.parameters.m.toNat * issue.parameters.n.toNat)).map
        fun x => (x / issue.parameters.n.toNat, x % issue.parameters.n.toNat) := by
    rw [← range_digits]
    refine List.flatMap_congr fun i _ => List.map_congr_left fun j hj => ?_
    change j ∈ List.range issue.parameters.n.toNat at hj
    rw [digits_div (List.mem_range.mp hj), digits_mod (List.mem_range.mp hj)]
  rw [hlanes, List.getElem?_map, List.getElem?_range (digits_lt hrow hcol)]
  simp [digits_div hcol, digits_mod hcol]

theorem tileWrite_eq (h : DenseInteger issue memory mode) (at' : Nat × Nat) :
    issue.tileWrite (mmadPrepared issue memory mode (kernel issue memory control arms).lanes).writes at' =
      .ok (tileValue issue memory mode at') := by
  unfold CubeIssue.tileWrite tileValue mmadPrepared
  simp only
  split
  · rw [List.getElem?_map, lanes_getElem? ‹_ ∧ _›.1 ‹_ ∧ _›.2]
    rfl
  · rw [if_neg (dataType_ne h rfl), f32CAddress_eq h.outBase]
    rfl

theorem le_divCeil_mul (a : Nat) {b : Nat} (hb : 0 < b) : a ≤ divCeil a b * b := by
  have := Nat.div_add_mod (a + b - 1) b
  have := Nat.mod_lt (a + b - 1) hb
  rw [divCeil, Nat.mul_comm]
  omega

theorem rows_le (issue : CubeIssue) : issue.parameters.m.toNat ≤ issue.geometry.mTiles * 16 :=
  le_divCeil_mul _ (by decide)

theorem cols_le (issue : CubeIssue) : issue.parameters.n.toNat ≤ issue.geometry.nTiles * 16 :=
  le_divCeil_mul _ (by decide)

/-- The writes of the tiles, in the order of their numbers. -/
def tileWrites (issue : CubeIssue) (memory : LocalMemory) (mode : IntegerInputMode) : List CubeWrite :=
  (List.range (issue.geometry.nTiles * (issue.geometry.mTiles * 256))).map fun x =>
    tileValue issue memory mode (coordinates issue.geometry.mTiles x)

/-- What the completion of the tiles returns. -/
def completed (issue : CubeIssue) (memory : LocalMemory) (mode : IntegerInputMode) (lanes : List (Nat × Nat)) :
    PreparedCubeExecution :=
  ⟨tileWrites issue memory mode,
    { (mmadPrepared issue memory mode lanes).outcome with
      writtenLanes := (tileWrites issue memory mode).length
      paddedLanes := (tileWrites issue memory mode).length - issue.parameters.m.toNat * issue.parameters.n.toNat }⟩

theorem completeOutputTiles_eq (h : DenseInteger issue memory mode) :
    issue.completeOutputTiles (mmadPrepared issue memory mode (kernel issue memory control arms).lanes) =
      .ok (completed issue memory mode (kernel issue memory control arms).lanes) := by
  have hfits : issue.parameters.m.toNat * issue.parameters.n.toNat ≤ (tileWrites issue memory mode).length := by
    rw [tileWrites, List.length_map, List.length_range]
    calc issue.parameters.m.toNat * issue.parameters.n.toNat
        ≤ (issue.geometry.mTiles * 16) * (issue.geometry.nTiles * 16) := Nat.mul_le_mul (rows_le issue) (cols_le issue)
      _ = issue.geometry.nTiles * (issue.geometry.mTiles * 256) := by ring
  have hwrites : (CubeIssue.tileLanes (issue.instruction.geometry issue.parameters)).mapM
      (issue.tileWrite (mmadPrepared issue memory mode (kernel issue memory control arms).lanes).writes) =
        .ok (tileWrites issue memory mode) := by
    rw [mapM_eq fun at' _ => tileWrite_eq h at', tileLanes_eq, List.map_map]
    rfl
  unfold CubeIssue.completeOutputTiles
  simp only
  rw [hwrites]
  change (Word.plainSubNat _ _ >>= _) = _
  rw [Word.plainSubNat, if_pos hfits]
  rfl

theorem prepare_eq (h : DenseInteger issue memory mode) :
    issue.prepare memory control arms = .ok (completed issue memory mode (kernel issue memory control arms).lanes) := by
  have hdims : ¬(issue.parameters.m = 0 ∨ issue.parameters.effectiveK = 0 ∨ issue.parameters.n = 0) :=
    fun h' => h'.elim h.m_pos fun h' => h'.elim h.k_pos h.n_pos
  have hmode : issue.validateFunctionalMode = .ok () := by
    rw [CubeIssue.validateFunctionalMode, h.operation]
    rfl
  unfold CubeIssue.prepare
  simp only
  rw [if_neg hdims, hmode]
  change (mmadPrepare issue memory control arms >>= _) = _
  rw [mmadPrepare_eq h]
  exact completeOutputTiles_eq h

end Kernel

/-! ## The commit -/

def CubeWrite.Apart (w w' : CubeWrite) : Prop :=
  w.address + w.bytes.length ≤ w'.address ∨ w'.address + w'.bytes.length ≤ w.address

/-- Writes that lie apart all take effect, and no other byte changes. -/
theorem commit_spec {writes : List CubeWrite} (hfits : ∀ w ∈ writes, w.address + w.bytes.length < u64)
    (hapart : writes.Pairwise CubeWrite.Apart) (b : LocalBuffer) :
    ∃ b', writes.foldlM (fun b write => mapErr CubeIssueError.localBuffer
          (b.writeKnownLinear write.address write.bytes)) b = .ok b' ∧
      (∀ w ∈ writes, ∀ i byte, w.bytes[i]? = some byte → b'.bytes.get? (w.address + i) = some (.known byte)) ∧
      ∀ a, (∀ w ∈ writes, a < w.address ∨ w.address + w.bytes.length ≤ a) → b'.bytes.get? a = b.bytes.get? a := by
  induction writes generalizing b with
  | nil => exact ⟨b, rfl, nofun, fun _ _ => rfl⟩
  | cons w rest ih =>
    obtain ⟨hw, hrest⟩ := List.pairwise_cons.mp hapart
    obtain ⟨b₁, hb₁, hwritten, hframe⟩ := LocalBuffer.writeKnownLinear_spec (b := b) (hfits w (by simp))
    obtain ⟨b', hb', hwritten', hframe'⟩ := ih (fun w' hw' => hfits w' (by simp [hw'])) hrest b₁
    refine ⟨b', ?_, ?_, ?_⟩
    · rw [List.foldlM_cons, hb₁]
      exact hb'
    · intro w' hmem i byte hget
      rcases List.mem_cons.mp hmem with rfl | hmem
      · rw [hframe' _ fun w' hw' => ?_]
        · exact hwritten i byte hget
        · have hi := (List.getElem?_eq_some_iff.mp hget).1
          have := hw w' hw'
          simp only [CubeWrite.Apart] at this
          omega
      · exact hwritten' w' hmem i byte hget
    · intro a ha
      rw [hframe' a fun w' hw' => ha w' (by simp [hw'])]
      exact hframe a (ha w (by simp))

/-! ## The places of the writes -/

section Writes

variable {issue : CubeIssue} {memory : LocalMemory} {mode : IntegerInputMode}

/-- The address of an output tile. -/
def CubeIssue.tilePlace (issue : CubeIssue) (tile : Nat) : Nat :=
  (issue.parameters.xdLow.toNat + 1024 * tile) % 131072

theorem tileValue_address (at' : Nat × Nat) :
    (tileValue issue memory mode at').address = issue.cPlace at'.1 at'.2 := by
  unfold tileValue
  split <;> rfl

theorem tileValue_length (at' : Nat × Nat) : (tileValue issue memory mode at').bytes.length = 4 := by
  unfold tileValue
  split <;> rfl

theorem address_coordinates (x : Nat) :
    (tileValue issue memory mode (coordinates issue.geometry.mTiles x)).address =
      (issue.parameters.xdLow.toNat + 4 * x) % 131072 := by
  rw [tileValue_address, CubeIssue.cPlace, cPosition_coordinates]

theorem mem_tileWrites {w : CubeWrite} :
    w ∈ tileWrites issue memory mode ↔ ∃ x < issue.geometry.mTiles * issue.geometry.nTiles * 256,
      tileValue issue memory mode (coordinates issue.geometry.mTiles x) = w := by
  rw [tileWrites, List.mem_map, show issue.geometry.nTiles * (issue.geometry.mTiles * 256) =
    issue.geometry.mTiles * issue.geometry.nTiles * 256 by ring]
  simp

theorem tileWrites_apart (h : DenseInteger issue memory mode) :
    (tileWrites issue memory mode).Pairwise CubeWrite.Apart := by
  have hfits := h.outFits
  have hbase := h.outBase
  have hcount : issue.geometry.nTiles * (issue.geometry.mTiles * 256) =
      issue.geometry.mTiles * issue.geometry.nTiles * 256 := by ring
  unfold tileWrites
  rw [List.pairwise_map, hcount]
  refine List.pairwise_lt_range.imp_of_mem fun {x y} hx hy hxy => ?_
  rw [List.mem_range] at hx hy
  simp only [CubeWrite.Apart, address_coordinates, tileValue_length]
  omega

/-- The writes cover the output tiles, and nothing else. -/
theorem tileWrites_cover (h : DenseInteger issue memory mode) (a : Nat) :
    (∃ w ∈ tileWrites issue memory mode, w.address ≤ a ∧ a < w.address + w.bytes.length) ↔
      ∃ tile < issue.geometry.mTiles * issue.geometry.nTiles,
        issue.tilePlace tile ≤ a ∧ a < issue.tilePlace tile + 1024 := by
  have hfits := h.outFits
  have hbase := h.outBase
  constructor
  · rintro ⟨w, hw, hlo, hhi⟩
    obtain ⟨x, hx, rfl⟩ := mem_tileWrites.mp hw
    rw [address_coordinates] at hlo hhi
    rw [tileValue_length] at hhi
    refine ⟨x / 256, by omega, ?_⟩
    simp only [CubeIssue.tilePlace]
    omega
  · rintro ⟨tile, htile, hlo, hhi⟩
    simp only [CubeIssue.tilePlace] at hlo hhi
    have hx : tile * 256 + (a - (issue.parameters.xdLow.toNat + 1024 * tile) % 131072) / 4 <
        issue.geometry.mTiles * issue.geometry.nTiles * 256 := by omega
    refine ⟨_, mem_tileWrites.mpr ⟨_, hx, rfl⟩, ?_⟩
    rw [address_coordinates, tileValue_length]
    omega

theorem mem_tileWrites_of_lane {row col : Nat} (hrow : row < issue.geometry.mTiles * 16)
    (hcol : col < issue.geometry.nTiles * 16) :
    tileValue issue memory mode (row, col) ∈ tileWrites issue memory mode := by
  refine mem_tileWrites.mpr ⟨cPosition issue.geometry.mTiles row col, ?_, by rw [coordinates_cPosition hrow]⟩
  refine blocked_lt (by decide) (by decide) ?_
  rw [Nat.add_comm, Nat.mul_comm, Nat.mul_comm issue.geometry.mTiles]
  exact digits_lt (by omega) (by omega)

end Writes

/-! ## The layouts tell the elements apart -/

section Layouts

variable {issue : CubeIssue} {memory : LocalMemory} {mode : IntegerInputMode}

theorem kTileElements_mode (h : DenseInteger issue memory mode) :
    issue.geometry.kTileElements = if mode = .signed4Signed4 then 64 else 32 := by
  have hmode := h.dataType
  change issue.instruction.dataType.kTileElements = _
  cases ht : issue.instruction.dataType <;> rw [ht] at hmode <;> cases hmode <;> rfl

/-- Elements that fit in the buffer lie in different places. -/
theorem place_inj {base e e' : Nat} (he : (if mode = .signed4Signed4 then e / 2 else e) < 65536)
    (he' : (if mode = .signed4Signed4 then e' / 2 else e') < 65536) (hplace : mode.place base e = mode.place base e') :
    e = e' := by
  unfold IntegerInputMode.place at hplace
  split at hplace
  · rw [if_pos ‹_›] at he he'
    obtain ⟨h₁, h₂⟩ := Prod.mk.inj hplace
    omega
  · rw [if_neg ‹_›] at he he'
    obtain ⟨h₁, -⟩ := Prod.mk.inj hplace
    omega

/-- An element of one of the tiles of a buffer lies in it. -/
theorem offset_lt (h : DenseInteger issue memory mode) {tiles e : Nat} (hfits : tiles * 512 ≤ 65536)
    (he : e < tiles * (16 * issue.geometry.kTileElements)) :
    (if mode = .signed4Signed4 then e / 2 else e) < 65536 := by
  rw [kTileElements_mode h] at he
  split at he
  · rw [if_pos ‹_›]
    omega
  · rw [if_neg ‹_›]
    omega

theorem div_lt_tiles {x bound width : Nat} (hwidth : 0 < width) (hx : x < bound) : x / width < divCeil bound width := by
  refine Nat.div_lt_of_lt_mul ?_
  rw [Nat.mul_comm]
  exact hx.trans_le (le_divCeil_mul _ hwidth)

theorem aPosition_inj (h : DenseInteger issue memory mode) {row k row' k' : Nat}
    (hrow : row < issue.parameters.m.toNat) (hk : k < issue.parameters.effectiveK.toNat)
    (hrow' : row' < issue.parameters.m.toNat) (hk' : k' < issue.parameters.effectiveK.toNat)
    (hplace : mode.place issue.parameters.xn.toNat (issue.aPosition row k) =
      mode.place issue.parameters.xn.toNat (issue.aPosition row' k')) : row = row' ∧ k = k' := by
  have hwidth : 0 < issue.geometry.kTileElements := kTileElements_pos _
  have hbound := issue.parameters.effectiveK.toNat_lt
  unfold CubeIssue.aPosition at hplace
  by_cases hm : issue.parameters.m = 1
  · rw [if_pos hm, if_pos hm] at hplace
    rw [hm] at hrow hrow'
    have hkk := place_inj (by split <;> omega) (by split <;> omega) hplace
    exact ⟨(Nat.lt_one_iff.mp hrow).trans (Nat.lt_one_iff.mp hrow').symm, hkk⟩
  · rw [if_neg hm, if_neg hm] at hplace
    have hlt : ∀ {row k}, row < issue.parameters.m.toNat → k < issue.parameters.effectiveK.toNat →
        blocked 16 issue.geometry.kTileElements (fun a b => a * issue.geometry.kTiles + b) row k <
          issue.geometry.mTiles * issue.geometry.kTiles * (16 * issue.geometry.kTileElements) := fun hr hk =>
      blocked_lt (by decide) hwidth (digits_lt (div_lt_tiles (by decide) hr) (div_lt_tiles hwidth hk))
    refine blocked_inj (by decide) hwidth ?_
      (place_inj (offset_lt h (h.aFits hm) (hlt hrow hk)) (offset_lt h (h.aFits hm) (hlt hrow' hk')) hplace)
    exact digits_inj (div_lt_tiles hwidth hk) (div_lt_tiles hwidth hk')

theorem bPosition_inj (h : DenseInteger issue memory mode) {k col k' col' : Nat}
    (hk : k < issue.parameters.effectiveK.toNat) (hcol : col < issue.parameters.n.toNat)
    (hk' : k' < issue.parameters.effectiveK.toNat) (hcol' : col' < issue.parameters.n.toNat)
    (hplace : mode.place issue.parameters.xm.toNat (issue.bPosition k col) =
      mode.place issue.parameters.xm.toNat (issue.bPosition k' col')) : k = k' ∧ col = col' := by
  have hwidth : 0 < issue.geometry.kTileElements := kTileElements_pos _
  have hlt : ∀ {k col}, k < issue.parameters.effectiveK.toNat → col < issue.parameters.n.toNat →
      issue.bPosition k col < issue.geometry.kTiles * issue.geometry.nTiles * (16 * issue.geometry.kTileElements) :=
    fun hk hc => blocked_lt (by decide) hwidth (digits_lt (div_lt_tiles hwidth hk) (div_lt_tiles (by decide) hc))
  have hcol_lt : col / 16 < issue.geometry.nTiles := div_lt_tiles (by decide) hcol
  have hcol_lt' : col' / 16 < issue.geometry.nTiles := div_lt_tiles (by decide) hcol'
  refine And.symm (blocked_inj (by decide) hwidth (fun hgrid => And.symm (digits_inj hcol_lt hcol_lt' hgrid))
    (place_inj (offset_lt h h.bFits (hlt hk hcol)) (offset_lt h h.bFits (hlt hk' hcol')) hplace))

end Layouts

/-! ## The product -/

/-- The lanes of a matrix product, in the buffer of the output. -/
structure Multiplies (issue : CubeIssue) (memory : LocalMemory) (mode : IntegerInputMode)
    (prepared : PreparedCubeExecution) : Prop where
  apart : prepared.writes.Pairwise CubeWrite.Apart
  covers : ∀ a, (∃ w ∈ prepared.writes, w.address ≤ a ∧ a < w.address + w.bytes.length) ↔
    ∃ tile < issue.geometry.mTiles * issue.geometry.nTiles,
      issue.tilePlace tile ≤ a ∧ a < issue.tilePlace tile + 1024
  lane : ∀ row < issue.parameters.m.toNat, ∀ col < issue.parameters.n.toNat,
    .u32 (issue.cPlace row col) (Int32.ofInt (issue.laneValue memory mode row col)).toUInt32 ∈ prepared.writes
  laneRange : ∀ row col, i32Min ≤ issue.laneValue memory mode row col ∧ issue.laneValue memory mode row col ≤ i32Max
  exact : ∀ row < issue.parameters.m.toNat, ∀ col < issue.parameters.n.toNat,
    (∀ tiles ≤ issue.geometry.kTiles,
      i32Min ≤ issue.cMatrix memory row col + ∑ k ∈ Finset.range
          (min (tiles * issue.geometry.kTileElements) issue.parameters.effectiveK.toNat),
        issue.aMatrix memory mode row k * issue.bMatrix memory mode k col ∧
      issue.cMatrix memory row col + ∑ k ∈ Finset.range
          (min (tiles * issue.geometry.kTileElements) issue.parameters.effectiveK.toNat),
        issue.aMatrix memory mode row k * issue.bMatrix memory mode k col ≤ i32Max) →
    issue.laneValue memory mode row col = issue.cMatrix memory row col +
      ∑ k ∈ Finset.range issue.parameters.effectiveK.toNat,
        issue.aMatrix memory mode row k * issue.bMatrix memory mode k col
  padding : ∀ row < issue.geometry.mTiles * 16, ∀ col < issue.geometry.nTiles * 16,
    ¬(row < issue.parameters.m.toNat ∧ col < issue.parameters.n.toNat) →
    .u32 (issue.cPlace row col) 0 ∈ prepared.writes
  overflow : prepared.outcome.integerOverflow = true ↔ ∃ row < issue.parameters.m.toNat,
    ∃ col < issue.parameters.n.toNat, laneSaturates issue memory mode (row, col)
  commit : ∃ memory', prepared.commit memory = .ok memory' ∧
    (∀ w ∈ prepared.writes, ∀ i byte, w.bytes[i]? = some byte →
      memory'.l0c.bytes.get? (w.address + i) = some (.known byte)) ∧
    (∀ a, (∀ tile < issue.geometry.mTiles * issue.geometry.nTiles,
        a < issue.tilePlace tile ∨ issue.tilePlace tile + 1024 ≤ a) →
      memory'.l0c.bytes.get? a = memory.l0c.bytes.get? a) ∧
    memory'.l0a = memory.l0a ∧ memory'.l0b = memory.l0b ∧ memory'.bt = memory.bt

/-- The elements of each matrix lie in different places of its buffer. -/
structure TellsApart (issue : CubeIssue) (mode : IntegerInputMode) : Prop where
  a : ∀ row < issue.parameters.m.toNat, ∀ k < issue.parameters.effectiveK.toNat,
    ∀ row' < issue.parameters.m.toNat, ∀ k' < issue.parameters.effectiveK.toNat,
    mode.place issue.parameters.xn.toNat (issue.aPosition row k) =
      mode.place issue.parameters.xn.toNat (issue.aPosition row' k') → row = row' ∧ k = k'
  b : ∀ k < issue.parameters.effectiveK.toNat, ∀ col < issue.parameters.n.toNat,
    ∀ k' < issue.parameters.effectiveK.toNat, ∀ col' < issue.parameters.n.toNat,
    mode.place issue.parameters.xm.toNat (issue.bPosition k col) =
      mode.place issue.parameters.xm.toNat (issue.bPosition k' col') → k = k' ∧ col = col'
  c : ∀ row < issue.geometry.mTiles * 16, ∀ col < issue.geometry.nTiles * 16,
    ∀ row' < issue.geometry.mTiles * 16, ∀ col' < issue.geometry.nTiles * 16,
    issue.cPlace row col = issue.cPlace row' col' → row = row' ∧ col = col'

section Product

variable {issue : CubeIssue} {memory : LocalMemory} {mode : IntegerInputMode}

theorem blockSums_take (issue : CubeIssue) (memory : LocalMemory) (mode : IntegerInputMode) (row col : Nat)
    {tiles : Nat} (h : tiles ≤ issue.geometry.kTiles) :
    ((issue.blockSums memory mode row col).take tiles).sum =
      ∑ k ∈ Finset.range (min (tiles * issue.geometry.kTileElements) issue.parameters.effectiveK.toNat),
        issue.aMatrix memory mode row k * issue.bMatrix memory mode k col := by
  rw [CubeIssue.blockSums, ← List.map_take, List.take_range, min_eq_left h]
  exact sum_blocks (fun k => issue.aMatrix memory mode row k * issue.bMatrix memory mode k col) _ _ _

theorem laneValue_exact (row col : Nat)
    (h : ∀ tiles ≤ issue.geometry.kTiles,
      i32Min ≤ issue.cMatrix memory row col + ((issue.blockSums memory mode row col).take tiles).sum ∧
        issue.cMatrix memory row col + ((issue.blockSums memory mode row col).take tiles).sum ≤ i32Max) :
    issue.laneValue memory mode row col = issue.cMatrix memory row col +
      ∑ k ∈ Finset.range issue.parameters.effectiveK.toNat,
        issue.aMatrix memory mode row k * issue.bMatrix memory mode k col := by
  have hlength : (issue.blockSums memory mode row col).length = issue.geometry.kTiles := by
    rw [CubeIssue.blockSums, List.length_map, List.length_range]
  have hall := blockSums_take issue memory mode row col (Nat.le_refl issue.geometry.kTiles)
  have hcover : issue.parameters.effectiveK.toNat ≤ issue.geometry.kTiles * issue.geometry.kTileElements :=
    le_divCeil_mul _ (kTileElements_pos _)
  rw [← hlength, List.take_length, hlength, min_eq_right hcover] at hall
  rw [← hall]
  refine saturatingSum_eq (not_saturates fun tiles htiles => h tiles ?_)
  rwa [hlength] at htiles

theorem cPlace_inj (h : DenseInteger issue memory mode) {row col row' col' : Nat}
    (hrow : row < issue.geometry.mTiles * 16) (hcol : col < issue.geometry.nTiles * 16)
    (hrow' : row' < issue.geometry.mTiles * 16) (hcol' : col' < issue.geometry.nTiles * 16)
    (hplace : issue.cPlace row col = issue.cPlace row' col') : row = row' ∧ col = col' := by
  have hfits := h.outFits
  have hbase := h.outBase
  have hlt : ∀ {row col}, row < issue.geometry.mTiles * 16 → col < issue.geometry.nTiles * 16 →
      cPosition issue.geometry.mTiles row col < issue.geometry.mTiles * issue.geometry.nTiles * 256 := by
    intro row col hr hc
    refine blocked_lt (by decide) (by decide) ?_
    rw [Nat.add_comm, Nat.mul_comm, Nat.mul_comm issue.geometry.mTiles]
    exact digits_lt (by omega) (by omega)
  have h₁ := hlt hrow hcol
  have h₂ := hlt hrow' hcol'
  simp only [CubeIssue.cPlace] at hplace
  have hposition : cPosition issue.geometry.mTiles row col = cPosition issue.geometry.mTiles row' col' := by omega
  have hcoordinates := congrArg (coordinates issue.geometry.mTiles) hposition
  rw [coordinates_cPosition hrow, coordinates_cPosition hrow'] at hcoordinates
  exact Prod.mk.inj hcoordinates

theorem commit_tiles (h : DenseInteger issue memory mode) (outcome : CubeExecutionOutcome) :
    ∃ memory', (PreparedCubeExecution.mk (tileWrites issue memory mode) outcome).commit memory = .ok memory' ∧
      (∀ w ∈ tileWrites issue memory mode, ∀ i byte, w.bytes[i]? = some byte →
        memory'.l0c.bytes.get? (w.address + i) = some (.known byte)) ∧
      (∀ a, (∀ tile < issue.geometry.mTiles * issue.geometry.nTiles,
          a < issue.tilePlace tile ∨ issue.tilePlace tile + 1024 ≤ a) →
        memory'.l0c.bytes.get? a = memory.l0c.bytes.get? a) ∧
      memory'.l0a = memory.l0a ∧ memory'.l0b = memory.l0b ∧ memory'.bt = memory.bt := by
  have hfits : ∀ w ∈ tileWrites issue memory mode, w.address + w.bytes.length < u64 := by
    intro w hw
    obtain ⟨x, -, rfl⟩ := mem_tileWrites.mp hw
    rw [address_coordinates, tileValue_length]
    simp only [u64]
    omega
  obtain ⟨l0c, hcommit, hwritten, hframe⟩ := commit_spec hfits (tileWrites_apart h) memory.l0c
  refine ⟨{ memory with l0c }, ?_, hwritten, fun a ha => hframe a fun w hw => ?_, rfl, rfl, rfl⟩
  · unfold PreparedCubeExecution.commit PreparedCubeExecution.commitToBuffer
    rw [hcommit]
    rfl
  · by_contra hin
    obtain ⟨tile, htile, hcovers⟩ := (tileWrites_cover h a).mp ⟨w, hw, by omega⟩
    have := ha tile htile
    omega

theorem completed_multiplies (h : DenseInteger issue memory mode) (control : CubeExecutionControl)
    (arms : OtherArms) :
    Multiplies issue memory mode (completed issue memory mode (kernel issue memory control arms).lanes) where
  apart := tileWrites_apart h
  covers := tileWrites_cover h
  lane := by
    intro row hrow col hcol
    have hmem := @mem_tileWrites_of_lane issue memory mode row col (hrow.trans_le (rows_le issue))
      (hcol.trans_le (cols_le issue))
    rwa [tileValue, if_pos ⟨hrow, hcol⟩] at hmem
  laneRange := fun row col => saturatingSum_mem (by decide) (cMatrix_mem issue memory row col) _
  exact := by
    intro row _ col _ hrange
    refine laneValue_exact row col fun tiles htiles => ?_
    rw [blockSums_take issue memory mode row col htiles]
    exact hrange tiles htiles
  padding := by
    intro row hrow col hcol hout
    have hmem := @mem_tileWrites_of_lane issue memory mode row col hrow hcol
    rwa [tileValue, if_neg hout] at hmem
  overflow := by
    change ((kernel issue memory control arms).lanes.any fun at' => laneSaturates issue memory mode at') = true ↔ _
    rw [List.any_eq_true]
    constructor
    · rintro ⟨⟨row, col⟩, hmem, hsat⟩
      obtain ⟨hrow, hcol⟩ := mem_lanes.mp hmem
      exact ⟨row, hrow, col, hcol, of_decide_eq_true hsat⟩
    · rintro ⟨row, hrow, col, hcol, hsat⟩
      exact ⟨(row, col), mem_lanes.mpr ⟨hrow, hcol⟩, decide_eq_true hsat⟩
  commit := commit_tiles h _

/-- A dense integer issue of any shape multiplies the matrices stored in the layouts of its buffers. -/
theorem dense_integer_mmad (h : DenseInteger issue memory mode) (control : CubeExecutionControl) (arms : OtherArms) :
    TellsApart issue mode ∧
      ∃ prepared, issue.prepare memory control arms = .ok prepared ∧ Multiplies issue memory mode prepared :=
  ⟨⟨fun _ hrow _ hk _ hrow' _ hk' => aPosition_inj h hrow hk hrow' hk',
      fun _ hk _ hcol _ hk' _ hcol' => bPosition_inj h hk hcol hk' hcol',
      fun _ hrow _ hcol _ hrow' _ hcol' => cPlace_inj h hrow hcol hrow' hcol'⟩,
    _, prepare_eq h, completed_multiplies h control arms⟩

/-- A product of vectors of three signed bytes, with the bias of its column. -/
def vectorIssue : CubeIssue :=
  ⟨⟨.mmad, .s8S8S32⟩, ⟨1024, 64, 512, 0, 1, 3, 1, false, true, false⟩⟩

def vectorMemory : LocalMemory :=
  ⟨⟨65536, OrdMap.empty.insertAll [(512, .known 0xff), (513, .known 2), (514, .known 3)]⟩,
    ⟨65536, OrdMap.empty.insertAll [(0, .known 5), (1, .known 0x80), (2, .known 7)]⟩, .new 131072, .new 0 1⟩

theorem vectorIssue_dense : DenseInteger vectorIssue vectorMemory .signedSigned where
  operation := rfl
  dataType := rfl
  m_pos := by decide
  k_pos := by decide
  n_pos := by decide
  aBase := by decide
  bBase := by decide
  aFits := by decide
  bFits := by decide
  outBase := by decide
  outFits := by decide
  aKnown := by decide
  bKnown := by decide
  cKnown := nofun

def vectorArms : OtherArms :=
  ⟨fun issue _ _ _ _ _ _ => fail (.unsupportedDataType issue.instruction.dataType),
    fun _ _ _ _ _ => fail (.unsupportedOperation .sparseMmad), fun _ _ _ _ _ => fail (.unsupportedOperation .sparseMmad)⟩

theorem dense_integer_mmad_vector :
    vectorIssue.laneValue vectorMemory .signedSigned 0 0 = -240 ∧
      ∃ prepared, vectorIssue.prepare vectorMemory ⟨.saturating, .fp32, false⟩ vectorArms = .ok prepared ∧
        Multiplies vectorIssue vectorMemory .signedSigned prepared :=
  ⟨by decide, (dense_integer_mmad vectorIssue_dense _ _).2⟩

end Product

end AscendEmulator.C220.Cube
