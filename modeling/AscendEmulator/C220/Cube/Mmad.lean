/-
  AscendEmulator.C220.Cube.Mmad — the functional execution of a cube issue: the layouts of its matrices, the slices
  of the product, the completion of the output tiles and the commit to L0C.

  Dimensions are `u16`, so the element numbers and offsets computed from them fit in `u64`. The arithmetic of
  floating-point slices and the inputs of a sparse product are parameters (`OtherArms`): no dense integer product
  takes these arms.
-/

import AscendEmulator.C220.Cube.Exact
import AscendEmulator.C220.Memory.LocalBuffer
import AscendEmulator.Isa.Cube
import AscendEmulator.Lib.Blocked
import AscendEmulator.Lib.Word

namespace AscendEmulator.C220.Cube

open Lib Outcome Isa AscendEmulator.Memory AscendEmulator.C220.Memory

/-! ## Layouts -/

def tileEdge : Nat := 16
def f16TileBytes : Nat := 512
def f32TileBytes : Nat := 1024

def integerAElement (kTiles kTile m k : Nat) : Nat :=
  let tile := m / tileEdge * kTiles + k / kTile
  let lane := m % tileEdge * kTile + k % kTile
  tile * tileEdge * kTile + lane

def integerBElement (nTiles kTile k n : Nat) : Nat :=
  let tile := k / kTile * nTiles + n / tileEdge
  let lane := n % tileEdge * kTile + k % kTile
  tile * tileEdge * kTile + lane

/-- `wrapping_add`. -/
def wrappingAdd (a b : Nat) : Nat := (a + b) % u64

def outputTileBase (base tile bytes : Nat) : Nat :=
  let address := wrappingAdd base (tile * bytes)
  if 131072 - bytes < address then address % 131072 else address

def cAddress (tileBytes laneBytes base mTiles m n : Nat) : Nat :=
  let tile := m / tileEdge + mTiles * (n / tileEdge)
  let lane := m % tileEdge * tileEdge + n % tileEdge
  outputTileBase base tile tileBytes + lane * laneBytes

def f32CAddress : Nat → Nat → Nat → Nat → Nat := cAddress f32TileBytes 4
def f16CAddress : Nat → Nat → Nat → Nat → Nat := cAddress f16TileBytes 2

/-- Where `read_input` reads. -/
def inputAddress (base offset : Nat) : Nat :=
  let tile := wrappingAdd base (offset / 512 * 512)
  let tile := if 65536 - 512 < tile then tile % 65536 else tile
  tile + offset % 512

def readInput (len : Nat) (buffer : LocalBuffer) (base offset : Nat) : Outcome LocalBufferError (List UInt8) :=
  buffer.readInitializedLinear (inputAddress base offset) len

/-! ## Issues -/

inductive F32MmadMode where
  | fp32 | hf32
  deriving DecidableEq, Repr

structure CubeExecutionControl where
  fp16Mode : Fp16Mode
  f32Mode : F32MmadMode
  hf32Rounding : Bool

structure CubeIssue where
  instruction : CubeInstruction
  parameters : MmadParameters
  deriving DecidableEq, Repr

/-- `C220CubeExecutionError`; what the exact accumulator returns is one of its variants. -/
inductive CubeIssueError where
  | unsupportedOperation (operation : CubeOperation)
  | unsupportedDataType (dataType : CubeDataType)
  | sparseInputOutsideLoadedTiles (denseK loadedK : Nat)
  | sparseUninitializedRow (row initializedRows : Nat)
  | biasMemory (e : PvMemoryError)
  | exact (e : CubeExecutionError)
  | localBuffer (e : LocalBufferError)

inductive CubeAccumulatorSource where
  | zero
  | l0c
  | bias (address : UInt32) (readBytes : Nat)
  deriving DecidableEq, Repr

structure CubeExecutionOutcome where
  accumulatorSource : CubeAccumulatorSource
  m : UInt16
  k : UInt16
  n : UInt16
  macCount : Nat
  writtenLanes : Nat
  paddedLanes : Nat
  fpStatus : CubeFpStatus
  integerOverflow : Bool

inductive CubeWrite where
  | u16 (address : Nat) (value : UInt16)
  | u32 (address : Nat) (value : UInt32)
  deriving DecidableEq, Repr

namespace CubeWrite

def address : CubeWrite → Nat
  | .u16 address _ | .u32 address _ => address

/-- `to_le_bytes`. -/
def bytes : CubeWrite → List UInt8
  | .u16 _ value => [value.toUInt8, (value >>> 8).toUInt8]
  | .u32 _ value => [value.toUInt8, (value >>> 8).toUInt8, (value >>> 16).toUInt8, (value >>> 24).toUInt8]

end CubeWrite

structure PreparedCubeExecution where
  writes : List CubeWrite
  outcome : CubeExecutionOutcome

def CubeFpStatus.merge (a b : CubeFpStatus) : CubeFpStatus :=
  ⟨a.nanOperand || b.nanOperand, a.infinityOperand || b.infinityOperand, a.invalid || b.invalid,
    a.overflow || b.overflow, a.underflow || b.underflow⟩

/-- The arms of the kernel that no dense integer product takes. -/
structure OtherArms where
  floatSlice : CubeIssue → LocalMemory → CubeExecutionControl → (m n kBase : Nat) → UInt32 →
    Outcome CubeIssueError (UInt32 × CubeFpStatus)
  readNibblePair : MmadParameters → LocalMemory → (m n k : Nat) → Outcome CubeIssueError (UInt8 × UInt8)
  readBytePair : MmadParameters → LocalMemory → (m n k : Nat) → Outcome CubeIssueError (UInt8 × UInt8)

/-! ## Accumulators -/

def CubeIssue.accumulatorSource (issue : CubeIssue) : CubeAccumulatorSource :=
  if issue.parameters.xtBit63 then .zero
  else if issue.parameters.xtBit62 then .bias issue.parameters.xdHigh (divCeil issue.parameters.n.toNat 16 * 16 * 8)
  else .l0c

structure CubeAccumulator where
  source : CubeAccumulatorSource
  bias : List UInt8

/-- `u32::from_le_bytes`, of the first bytes of a list. -/
def u32OfBytes (bytes : List UInt8) : UInt32 :=
  (bytes.take 4).foldr (fun byte rest => byte.toUInt32 ||| rest <<< 8) 0

namespace CubeAccumulator

def load (issue : CubeIssue) (memory : LocalMemory) : Outcome CubeIssueError CubeAccumulator :=
  match issue.accumulatorSource with
  | .bias address readBytes => do
    let bias ← mapErr .biasMemory (memory.bt.readInto address.toNat readBytes)
    .ok ⟨.bias address readBytes, bias⟩
  | source => .ok ⟨source, []⟩

/-- `self.bias[offset..offset + len]`. -/
def biasBytes (a : CubeAccumulator) (offset len : Nat) : Outcome CubeIssueError (List UInt8) :=
  expect (if offset + len ≤ a.bias.length then some ((a.bias.drop offset).take len) else none)

def laneBytes (a : CubeAccumulator) (memory : LocalMemory) (len outputAddress column : Nat) :
    Outcome CubeIssueError (List UInt8) :=
  match a.source with
  | .zero => .ok (List.replicate len 0)
  | .l0c => mapErr .localBuffer (memory.l0c.readInitializedLinear outputAddress len)
  | .bias _ _ => a.biasBytes (column * 4) len

/-- `lane_u32` for four bytes, `lane_u16` widened for two. -/
def lane (a : CubeAccumulator) (memory : LocalMemory) (len outputAddress column : Nat) :
    Outcome CubeIssueError UInt32 := do
  let bytes ← a.laneBytes memory len outputAddress column
  .ok (u32OfBytes bytes)

end CubeAccumulator

/-! ## Integer inputs -/

inductive IntegerInputMode where
  | unsignedUnsigned | signedSigned | signed4Signed4 | unsignedSigned
  deriving DecidableEq, Repr

namespace IntegerInputMode

def ofDataType : CubeDataType → Option IntegerInputMode
  | .u8U8S32 => some .unsignedUnsigned
  | .s8S8S32 => some .signedSigned
  | .s4S4S32 => some .signed4Signed4
  | .u8S8S32 => some .unsignedSigned
  | _ => none

/-- `((nibble << 4) as i8 >> 4) as u8`. -/
def signExtend (nibble : UInt8) : UInt8 := ((nibble <<< 4).toInt8 >>> 4).toUInt8

def firstByte (bytes : List UInt8) : Outcome LocalBufferError UInt8 := expect bytes[0]?

def read (mode : IntegerInputMode) (buffer : LocalBuffer) (base element : Nat) : Outcome LocalBufferError UInt8 :=
  if mode = .signed4Signed4 then do
    let bytes ← readInput 1 buffer base (element / 2)
    let packed ← firstByte bytes
    .ok (signExtend ((packed >>> UInt8.ofNat (4 * (element % 2))) &&& 0xf))
  else do
    let bytes ← readInput 1 buffer base element
    firstByte bytes

def product (mode : IntegerInputMode) (left right : UInt8) : Int :=
  match mode with
  | .unsignedUnsigned => left.toNat * right.toNat
  | .signedSigned | .signed4Signed4 => left.toInt8.toInt * right.toInt8.toInt
  | .unsignedSigned => left.toNat * right.toInt8.toInt

end IntegerInputMode

/-! ## The kernel -/

structure Mmad where
  issue : CubeIssue
  memory : LocalMemory
  control : CubeExecutionControl
  arms : OtherArms
  geometry : CubeGeometry

def i32Min : Int := -2 ^ 31
def i32Max : Int := 2 ^ 31 - 1

/-- An addition of `i64` that is not checked. -/
def plainAddI64 (a b : Int) : Outcome CubeIssueError Int :=
  expect (if -2 ^ 63 ≤ a + b ∧ a + b < 2 ^ 63 then some (a + b) else none)

namespace Mmad

def sliceWidth (k : Mmad) : Nat :=
  if k.issue.instruction.dataType = .f32F32 ∧ k.control.f32Mode = .fp32 then 4 else k.geometry.kTileElements

def activeLanes (k : Mmad) (kBase width : Nat) : Nat := min (k.issue.parameters.effectiveK.toNat - kBase) width

def aElement (k : Mmad) (kTiles kTile m kk : Nat) : Nat :=
  if k.issue.parameters.m = 1 ∧ k.issue.instruction.operation = .mmad then kk else integerAElement kTiles kTile m kk

def readIntegerPair (k : Mmad) (mode : IntegerInputMode) (m n kk : Nat) : Outcome CubeIssueError (UInt8 × UInt8) :=
  let kTile := k.geometry.kTileElements
  if k.issue.instruction.operation = .sparseMmad then
    if mode = .signed4Signed4 then k.arms.readNibblePair k.issue.parameters k.memory m n kk
    else k.arms.readBytePair k.issue.parameters k.memory m n kk
  else do
    let left ← mapErr .localBuffer (mode.read k.memory.l0a k.issue.parameters.xn.toNat
      (k.aElement k.geometry.kTiles kTile m kk))
    let right ← mapErr .localBuffer (mode.read k.memory.l0b k.issue.parameters.xm.toNat
      (integerBElement k.geometry.nTiles kTile kk n))
    .ok (left, right)

def integerSum (k : Mmad) (mode : IntegerInputMode) (m n kBase : Nat) (accumulator : UInt32) :
    Outcome CubeIssueError Int :=
  (List.range (k.activeLanes kBase k.geometry.kTileElements)).foldlM (fun sum lane => do
    let pair ← k.readIntegerPair mode m n (kBase + lane)
    plainAddI64 sum (mode.product pair.1 pair.2)) accumulator.toInt32.toInt

def evaluateSlice (k : Mmad) (m n kBase : Nat) (accumulator : UInt32) (outcome : CubeExecutionOutcome) :
    Outcome CubeIssueError (UInt32 × CubeExecutionOutcome) :=
  match k.issue.instruction.dataType with
  | .f16F16 | .f16F32 | .bf16F32 | .f32F32 => do
    let slice ← k.arms.floatSlice k.issue k.memory k.control m n kBase accumulator
    .ok (slice.1, { outcome with fpStatus := outcome.fpStatus.merge slice.2 })
  | dataType => do
    let mode ← okOr (.unsupportedDataType dataType) (IntegerInputMode.ofDataType dataType)
    let sum ← k.integerSum mode m n kBase accumulator
    let saturated := clampTo i32Min i32Max sum
    .ok ((Int32.ofInt saturated).toUInt32,
      { outcome with integerOverflow := outcome.integerOverflow || decide (saturated ≠ sum) })

def halfOutput (k : Mmad) : Bool := k.issue.instruction.dataType = .f16F16

/-- The address of an output lane. -/
def outputAddress (k : Mmad) (m n : Nat) : Nat :=
  let base := k.issue.parameters.xdLow.toNat
  if k.halfOutput then f16CAddress base k.geometry.mTiles m n else f32CAddress base k.geometry.mTiles m n

def write (k : Mmad) (address : Nat) (value : UInt32) : CubeWrite :=
  if k.halfOutput then .u16 address value.toUInt16 else .u32 address value

/-- `(0..effective_k).step_by(slice_width)`. -/
def kBases (k : Mmad) : List Nat :=
  (List.range (divCeil k.issue.parameters.effectiveK.toNat k.sliceWidth)).map (· * k.sliceWidth)

/-- The turn of the output loop at row `m` and column `n`. -/
def lane (k : Mmad) (initialization : CubeAccumulator) (m n : Nat) (outcome : CubeExecutionOutcome) :
    Outcome CubeIssueError (CubeWrite × CubeExecutionOutcome) := do
  let address := k.outputAddress m n
  let accumulator ← initialization.lane k.memory (if k.halfOutput then 2 else 4) address n
  let result ← k.kBases.foldlM (fun s kBase => k.evaluateSlice m n kBase s.1 s.2) (accumulator, outcome)
  .ok (k.write address result.1, result.2)

/-- The rows and columns of the output loop, in order. -/
def lanes (k : Mmad) : List (Nat × Nat) :=
  (List.range k.issue.parameters.m.toNat).flatMap fun m => (List.range k.issue.parameters.n.toNat).map fun n => (m, n)

def step (k : Mmad) (initialization : CubeAccumulator) (s : List CubeWrite × CubeExecutionOutcome) (at' : Nat × Nat) :
    Outcome CubeIssueError (List CubeWrite × CubeExecutionOutcome) := do
  let result ← k.lane initialization at'.1 at'.2 s.2
  .ok (s.1 ++ [result.1], result.2)

end Mmad

/-- `Mmad::prepare`, without the completion of the tiles. -/
def mmadPrepare (issue : CubeIssue) (memory : LocalMemory) (control : CubeExecutionControl) (arms : OtherArms) :
    Outcome CubeIssueError PreparedCubeExecution := do
  let dataType := issue.instruction.dataType
  let _ ← failIf (dataType = .f16U2 || dataType = .b8U2) (.unsupportedDataType dataType)
  let kernel : Mmad := ⟨issue, memory, control, arms, issue.instruction.geometry issue.parameters⟩
  let initialization ← CubeAccumulator.load issue memory
  let p := issue.parameters
  let outcome : CubeExecutionOutcome :=
    ⟨issue.accumulatorSource, p.m, p.effectiveK, p.n, p.m.toNat * p.effectiveK.toNat * p.n.toNat, 0, 0, .default, false⟩
  let result ← kernel.lanes.foldlM (kernel.step initialization) ([], outcome)
  .ok ⟨result.1, { result.2 with writtenLanes := result.1.length }⟩

/-! ## Output tiles -/

namespace CubeIssue

/-- The lanes of the output tiles, tile by tile. -/
def tileLanes (geometry : CubeGeometry) : List (Nat × Nat) :=
  (List.range geometry.nTiles).flatMap fun nTile => (List.range geometry.mTiles).flatMap fun mTile =>
    (List.range tileEdge).flatMap fun i => (List.range tileEdge).map fun j => (mTile * tileEdge + i, nTile * tileEdge + j)

/-- The write of a lane of a tile: the one prepared, or zero outside the matrix. -/
def tileWrite (issue : CubeIssue) (prepared : List CubeWrite) (at' : Nat × Nat) : Outcome CubeIssueError CubeWrite :=
  let p := issue.parameters
  let mTiles := (issue.instruction.geometry p).mTiles
  if at'.1 < p.m.toNat ∧ at'.2 < p.n.toNat then expect prepared[at'.1 * p.n.toNat + at'.2]?
  else if issue.instruction.dataType = .f16F16 then .ok (.u16 (f16CAddress p.xdLow.toNat mTiles at'.1 at'.2) 0)
  else .ok (.u32 (f32CAddress p.xdLow.toNat mTiles at'.1 at'.2) 0)

def completeOutputTiles (issue : CubeIssue) (prepared : PreparedCubeExecution) :
    Outcome CubeIssueError PreparedCubeExecution := do
  let p := issue.parameters
  let writes ← (tileLanes (issue.instruction.geometry p)).mapM (issue.tileWrite prepared.writes)
  let padded ← Word.plainSubNat writes.length (p.m.toNat * p.n.toNat)
  .ok ⟨writes, { prepared.outcome with writtenLanes := writes.length, paddedLanes := padded }⟩

/-- The operation of a sparse product is one with these data types. -/
def validateFunctionalMode (issue : CubeIssue) : Outcome CubeIssueError Unit :=
  failIf (issue.instruction.operation = .sparseMmad && (match issue.instruction.dataType with
    | .f16U2 | .b8U2 => true
    | _ => false)) (.unsupportedOperation issue.instruction.operation)

def prepare (issue : CubeIssue) (memory : LocalMemory) (control : CubeExecutionControl) (arms : OtherArms) :
    Outcome CubeIssueError PreparedCubeExecution :=
  let p := issue.parameters
  if p.m = 0 ∨ p.effectiveK = 0 ∨ p.n = 0 then
    .ok ⟨[], ⟨issue.accumulatorSource, p.m, p.effectiveK, p.n, 0, 0, 0, .default, false⟩⟩
  else do
    let _ ← issue.validateFunctionalMode
    let prepared ← mmadPrepare issue memory control arms
    issue.completeOutputTiles prepared

end CubeIssue

/-- `commit_to_buffer`: the buffer afterwards. -/
def PreparedCubeExecution.commitToBuffer (prepared : PreparedCubeExecution) (buffer : LocalBuffer) :
    Outcome CubeIssueError LocalBuffer :=
  prepared.writes.foldlM (fun b write => mapErr .localBuffer (b.writeKnownLinear write.address write.bytes)) buffer

/-- `commit`, to L0C. -/
def PreparedCubeExecution.commit (prepared : PreparedCubeExecution) (memory : LocalMemory) :
    Outcome CubeIssueError LocalMemory := do
  let l0c ← prepared.commitToBuffer memory.l0c
  .ok { memory with l0c }

/-- `execute`: the outcome, and the memory afterwards. -/
def CubeIssue.execute (issue : CubeIssue) (memory : LocalMemory) (control : CubeExecutionControl) (arms : OtherArms) :
    Outcome CubeIssueError (CubeExecutionOutcome × LocalMemory) := do
  let prepared ← issue.prepare memory control arms
  let memory ← prepared.commit memory
  .ok (prepared.outcome, memory)

end AscendEmulator.C220.Cube
