/-
  AscendEmulator.Isa.Cube — cube instructions, the parameters they take from their registers, and the tiles of
  their matrices.
-/

namespace AscendEmulator.Isa

inductive CubeOperation where
  | mmad | sparseMmad
  deriving DecidableEq, Repr

inductive CubeDataType where
  | s4S4S32 | u8U8S32 | s8S8S32 | f16F16 | f16F32 | f16U2 | u8S8S32 | b8U2 | bf16F32 | f32F32
  deriving DecidableEq, Repr

def CubeDataType.kTileElements : CubeDataType → Nat
  | .s4S4S32 => 64
  | .u8U8S32 | .s8S8S32 | .u8S8S32 | .b8U2 => 32
  | .f32F32 => 8
  | .f16F16 | .f16F32 | .f16U2 | .bf16F32 => 16

structure CubeInstruction where
  operation : CubeOperation
  dataType : CubeDataType
  deriving DecidableEq, Repr

structure MmadParameters where
  xdLow : UInt32
  xdHigh : UInt32
  xn : UInt64
  xm : UInt64
  m : UInt16
  effectiveK : UInt16
  n : UInt16
  xtBit58 : Bool
  xtBit62 : Bool
  xtBit63 : Bool
  deriving DecidableEq, Repr

def cubeArrayEdge : Nat := 16

/-- `div_ceil`. -/
def divCeil (a b : Nat) : Nat := (a + b - 1) / b

structure CubeGeometry where
  mTiles : Nat
  nTiles : Nat
  kTiles : Nat
  kTileElements : Nat
  nativeUopCount : Nat
  deriving DecidableEq, Repr

def CubeInstruction.geometry (i : CubeInstruction) (parameters : MmadParameters) : CubeGeometry :=
  let kTileElements := i.dataType.kTileElements
  let mTiles := divCeil parameters.m.toNat cubeArrayEdge
  let nTiles := divCeil parameters.n.toNat cubeArrayEdge
  let kTiles := divCeil parameters.effectiveK.toNat kTileElements
  { mTiles, nTiles, kTiles, kTileElements, nativeUopCount := mTiles * nTiles * kTiles }

end AscendEmulator.Isa
