/-
  AscendEmulator.C220.Cube.Inputs — what the kernel reads for a floating-point slice, and for a sparse product
  (`sparse.rs`): the arms that `Mmad` leaves open.

  A sparse product keeps the weights that an index selects, two of four elements of A for each pair of them. The buffer
  of the indices is an argument: no other arm reads it, and no issue writes it.
-/

import AscendEmulator.C220.Cube.Slice

namespace AscendEmulator.C220.Cube

open Lib Outcome Isa AscendEmulator.Memory AscendEmulator.C220.Memory

/-- `u16::from_le_bytes`, `u32::from_le_bytes`. -/
def wordOfBytes (width : Nat) (bytes : List UInt8) : BitVec width := (u32OfBytes bytes).toBitVec.setWidth width

/-- `read_input` of a word. -/
def readWord (width : Nat) (buffer : LocalBuffer) (base : UInt64) (offset : Nat) :
    Outcome CubeIssueError (BitVec width) := do
  let bytes ← mapErr .localBuffer (readInput (width / 8) buffer base.toNat offset)
  .ok (wordOfBytes width bytes)

/-! ## Sparse inputs -/

structure SparseLane where
  indexAddress : Nat
  selector : UInt8
  denseK : Nat

/-- The subtraction takes one from an odd number of a lane, as `width` is even. -/
def selectLane (parameters : MmadParameters) (indices : LocalBuffer) (column compressedK width : Nat) :
    Outcome CubeIssueError SparseLane := do
  let columns := divCeil parameters.n.toNat 16 * 16
  let slice := compressedK / width
  let lane := compressedK % width
  let indexAddress := parameters.xm.toNat / 4 % u32 + 8 * (column + slice * columns) + lane / 4
  let bytes ← mapErr .localBuffer (indices.readInitializedLinear indexAddress 1)
  let byte ← mapErr .localBuffer (IntegerInputMode.firstByte bytes)
  let selector := (byte >>> UInt8.ofNat (2 * (lane % 4))) &&& 3
  .ok ⟨indexAddress, selector, 2 * compressedK - lane % 2 + selector.toNat⟩

def selectByteLane (parameters : MmadParameters) (indices : LocalBuffer) (column compressedK : Nat) :
    Outcome CubeIssueError SparseLane := selectLane parameters indices column compressedK 32

def selectHalfLane (parameters : MmadParameters) (indices : LocalBuffer) (column compressedK : Nat) :
    Outcome CubeIssueError SparseLane := selectLane parameters indices column compressedK 16

def selectNibbleLane (parameters : MmadParameters) (indices : LocalBuffer) (column compressedK : Nat) :
    Outcome CubeIssueError SparseLane := selectLane parameters indices column compressedK 64

/-- The tiles of A that were loaded: with half a tile of weights or less, one of the last two is missing. -/
def aTiles (parameters : MmadParameters) (kTiles : Nat) : Nat :=
  let rest := parameters.effectiveK.toNat % 32
  2 * kTiles - if 1 ≤ rest ∧ rest ≤ 16 then 1 else 0

def readAHalf (parameters : MmadParameters) (memory : LocalMemory) (row : Nat) (selection : SparseLane) (kTiles : Nat)
    (padded : Bool) : Outcome CubeIssueError (BitVec 16) :=
  let tiles := aTiles parameters kTiles
  if selection.denseK < tiles * 16 then
    let offset := 2 * integerAElement tiles 16 row selection.denseK
    let extra := 2 * divCeil parameters.effectiveK.toNat 16 - kTiles
    readWord 16 memory.l0a parameters.xn (if padded then offset + offset / 512 / kTiles * extra * 512 else offset)
  else if selection.denseK < 2 * kTiles * 16 ∧ row < divCeil parameters.m.toNat 16 * 8 then .ok 0
  else fail (.sparseInputOutsideLoadedTiles selection.denseK (tiles * 16))

def readHalfPair (parameters : MmadParameters) (memory : LocalMemory) (indices : LocalBuffer)
    (row column compressedK : Nat) : Outcome CubeIssueError (BitVec 16 × BitVec 16) := do
  let selection ← selectHalfLane parameters indices column compressedK
  let left ← readAHalf parameters memory row selection (divCeil parameters.effectiveK.toNat 16) false
  let right ← readWord 16 memory.l0b parameters.xm
    (2 * integerBElement (divCeil parameters.n.toNat 16) 16 compressedK column)
  .ok (left, right)

/-- The halves of a word of A are selected one by one. -/
def readWordPair (parameters : MmadParameters) (memory : LocalMemory) (indices : LocalBuffer)
    (row column compressedK : Nat) : Outcome CubeIssueError (BitVec 32 × BitVec 32) := do
  let kTiles := divCeil parameters.effectiveK.toNat 8
  let low ← selectHalfLane parameters indices column (2 * compressedK)
  let lowBits ← readAHalf parameters memory row low kTiles parameters.xtBit58
  let high ← selectHalfLane parameters indices column (2 * compressedK + 1)
  let highBits ← readAHalf parameters memory row high kTiles parameters.xtBit58
  let right ← readWord 32 memory.l0b parameters.xm
    (4 * integerBElement (divCeil parameters.n.toNat 16) 8 compressedK column)
  .ok (lowBits.setWidth 32 ||| highBits.setWidth 32 <<< 16, right)

/-- `read_input` of a byte. -/
def readByte (buffer : LocalBuffer) (base : UInt64) (element : Nat) : Outcome CubeIssueError UInt8 :=
  mapErr .localBuffer (readInput 1 buffer base.toNat element >>= IntegerInputMode.firstByte)

def readNibble (buffer : LocalBuffer) (base : UInt64) (element : Nat) : Outcome CubeIssueError UInt8 := do
  let byte ← readByte buffer base (element / 2)
  .ok (IntegerInputMode.signExtend ((byte >>> UInt8.ofNat (4 * (element % 2))) &&& 15))

def readNibblePair (indices : LocalBuffer) (parameters : MmadParameters) (memory : LocalMemory)
    (row column compressedK : Nat) : Outcome CubeIssueError (UInt8 × UInt8) := do
  let selection ← selectNibbleLane parameters indices column compressedK
  let initializedRows := divCeil parameters.m.toNat 16 * 8
  let _ ← failIf (initializedRows ≤ row) (.sparseUninitializedRow row initializedRows)
  let kTiles := divCeil parameters.effectiveK.toNat 64
  let tiles := aTiles parameters kTiles
  let left ←
    if selection.denseK < tiles * 64 then
      readNibble memory.l0a parameters.xn (integerAElement tiles 64 row selection.denseK)
    else if selection.denseK < 2 * kTiles * 64 then .ok 0
    else fail (.sparseInputOutsideLoadedTiles selection.denseK (tiles * 64))
  let right ← readNibble memory.l0b parameters.xm
    (integerBElement (divCeil parameters.n.toNat 16) 64 compressedK column)
  .ok (left, right)

def readBytePair (indices : LocalBuffer) (parameters : MmadParameters) (memory : LocalMemory)
    (row column compressedK : Nat) : Outcome CubeIssueError (UInt8 × UInt8) := do
  let selection ← selectByteLane parameters indices column compressedK
  let tiles := aTiles parameters (divCeil parameters.effectiveK.toNat 32)
  let _ ← failIf (tiles * 32 ≤ selection.denseK) (.sparseInputOutsideLoadedTiles selection.denseK (tiles * 32))
  let left ← readByte memory.l0a parameters.xn (integerAElement tiles 32 row selection.denseK)
  let right ← readByte memory.l0b parameters.xm
    (integerBElement (divCeil parameters.n.toNat 16) 32 compressedK column)
  .ok (left, right)

/-! ## The inputs of a slice -/

def bAddress (kTile tileBytes laneBytes base nTiles k n : Nat) : Nat :=
  let tile := k / kTile * nTiles + n / tileEdge
  let lane := n % tileEdge * kTile + k % kTile
  wrappingAdd base (tile * tileBytes + lane * laneBytes)

def f16BAddress : Nat → Nat → Nat → Nat → Nat := bAddress tileEdge f16TileBytes 2
def f32BAddress : Nat → Nat → Nat → Nat → Nat := bAddress 8 512 4

/-- The loop over the active lanes of a slice, which are no more than its lanes; the others are zero. -/
def readLanes {w : Nat} (lanes active : Nat) (pair : Nat → Outcome CubeIssueError (BitVec w × BitVec w)) :
    Outcome CubeIssueError (Vector (BitVec w) lanes × Vector (BitVec w) lanes) :=
  (List.range active).foldlM (fun arrays lane => do
    let words ← pair lane
    .ok (arrays.1.setIfInBounds lane words.1, arrays.2.setIfInBounds lane words.2))
    (Vector.replicate lanes 0, Vector.replicate lanes 0)

namespace CubeIssue

def activeLanes (issue : CubeIssue) (kBase width : Nat) : Nat := min (issue.parameters.effectiveK.toNat - kBase) width

def aElement (issue : CubeIssue) (kTiles kTile m k : Nat) : Nat :=
  if issue.parameters.m = 1 ∧ issue.instruction.operation = .mmad then k else integerAElement kTiles kTile m k

variable (issue : CubeIssue) (memory : LocalMemory) (indices : LocalBuffer)

def readFloat16 (m n kBase : Nat) : Outcome CubeIssueError (Vector (BitVec 16) 16 × Vector (BitVec 16) 16) :=
  let geometry := issue.instruction.geometry issue.parameters
  readLanes 16 (issue.activeLanes kBase 16) fun lane => do
    let k := kBase + lane
    if issue.instruction.operation = .sparseMmad then readHalfPair issue.parameters memory indices m n k
    else
      let left ← readWord 16 memory.l0a issue.parameters.xn (2 * issue.aElement geometry.kTiles 16 m k)
      let right ← readWord 16 memory.l0b issue.parameters.xm (f16BAddress 0 geometry.nTiles k n)
      .ok (left, right)

def aKTiles : Nat :=
  if issue.parameters.xtBit58 then 2 * divCeil issue.parameters.effectiveK.toNat 16
  else (issue.instruction.geometry issue.parameters).kTiles

def readFloat32 (lanes m n kBase : Nat) :
    Outcome CubeIssueError (Vector (BitVec 32) lanes × Vector (BitVec 32) lanes) :=
  let geometry := issue.instruction.geometry issue.parameters
  readLanes lanes (issue.activeLanes kBase lanes) fun lane => do
    let k := kBase + lane
    if issue.instruction.operation = .sparseMmad then readWordPair issue.parameters memory indices m n k
    else
      let left ← readWord 32 memory.l0a issue.parameters.xn (4 * issue.aElement issue.aKTiles 8 m k)
      let right ← readWord 32 memory.l0b issue.parameters.xm (f32BAddress 0 geometry.nTiles k n)
      .ok (left, right)

end CubeIssue

/-! ## The arms -/

def F16Slice.widen (slice : SliceOutcome 16) : UInt32 × CubeFpStatus := (⟨slice.bits.setWidth 32⟩, slice.status)

def F32Slice.parts (slice : SliceOutcome 32) : UInt32 × CubeFpStatus := (⟨slice.bits⟩, slice.status)

/-- The slices of `evaluate_slice` that are floating-point; it takes no other type here. -/
def floatSlice (indices : LocalBuffer) (issue : CubeIssue) (memory : LocalMemory) (control : CubeExecutionControl)
    (m n kBase : Nat) (accumulator : UInt32) : Outcome CubeIssueError (UInt32 × CubeFpStatus) :=
  let mode := control.fp16Mode
  match issue.instruction.dataType with
  | .f16F16 => do
    let inputs ← issue.readFloat16 memory indices m n kBase
    F16Slice.widen <$> mapErr .exact (evaluateF16F16Slice inputs.1 inputs.2 accumulator.toUInt16.toBitVec mode)
  | .f16F32 => do
    let inputs ← issue.readFloat16 memory indices m n kBase
    F32Slice.parts <$> mapErr .exact (evaluateF16F32Slice inputs.1 inputs.2 accumulator.toBitVec mode)
  | .bf16F32 => do
    let inputs ← issue.readFloat16 memory indices m n kBase
    F32Slice.parts <$> mapErr .exact (evaluateBf16F32Slice inputs.1 inputs.2 accumulator.toBitVec mode)
  | .f32F32 =>
    if control.f32Mode = .fp32 then do
      let inputs ← issue.readFloat32 memory indices 4 m n kBase
      F32Slice.parts <$> mapErr .exact (evaluateF32F32Slice inputs.1 inputs.2 accumulator.toBitVec mode)
    else do
      let inputs ← issue.readFloat32 memory indices 8 m n kBase
      F32Slice.parts <$> mapErr .exact
        (evaluateHf32F32Slice inputs.1 inputs.2 accumulator.toBitVec mode control.hf32Rounding)
  | dataType => fail (.unsupportedDataType dataType)

/-- The arms of the kernel, with the buffer of the indices. -/
def kernelArms (indices : LocalBuffer) : OtherArms where
  floatSlice := floatSlice indices
  readNibblePair := readNibblePair indices
  readBytePair := readBytePair indices

end AscendEmulator.C220.Cube
