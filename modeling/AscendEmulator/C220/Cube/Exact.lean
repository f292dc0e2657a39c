/-
  AscendEmulator.C220.Cube.Exact — the exact accumulator of the cube (`ExactDyadic`): a sum of
  floating-point numbers and of products of two, as a sign and nine limbs in units of 2^-298.

  A word of 16 or 32 bits is a `BitVec`; the three formats share the code that reads a word, and the
  two rounders share theirs, with the constants of each as the source has them.
-/

import AscendEmulator.Lib.Limbs

namespace AscendEmulator.C220.Cube

open Lib

/-! ## Words -/

def f16Sign : BitVec 16 := 0x8000
def f16Exponent : BitVec 16 := 0x7c00
def f16Fraction : BitVec 16 := 0x03ff
def f16MaxFinite : BitVec 16 := 0x7bff
def bf16Sign : BitVec 16 := 0x8000
def bf16Exponent : BitVec 16 := 0x7f80
def bf16Fraction : BitVec 16 := 0x007f
def f32Sign : BitVec 32 := 0x80000000
def f32Exponent : BitVec 32 := 0x7f800000
def f32Fraction : BitVec 32 := 0x007fffff
def f32MaxFinite : BitVec 32 := 0x7f7fffff

variable {w : Nat}

/-- The significand of a finite word, with the bit that is not stored, and the exponent of its unit. -/
def finiteParts (exponentMask fractionMask hidden : BitVec w) (shift : Nat) (subnormal offset : Int)
    (bits : BitVec w) : BitVec w × Int :=
  let exponent := ((bits &&& exponentMask) >>> shift).toNat
  let fraction := bits &&& fractionMask
  if exponent = 0 then (fraction, subnormal) else (hidden ||| fraction, exponent - offset)

def finiteF16Parts : BitVec 16 → BitVec 16 × Int := finiteParts f16Exponent f16Fraction 0x400 10 (-24) 25

def finiteBf16Parts : BitVec 16 → BitVec 16 × Int := finiteParts bf16Exponent bf16Fraction 0x80 7 (-133) 134

def finiteF32Parts : BitVec 32 → BitVec 32 × Int := finiteParts f32Exponent f32Fraction 0x800000 23 (-149) 150

/-! ## Magnitudes -/

def exactLimbs : Nat := 9

def exactScaleExponent : Int := -298

inductive CubeExecutionError where
  | exactAccumulatorOverflow
  deriving DecidableEq

structure Magnitude where
  limbs : List UInt64
  length_limbs : limbs.length = exactLimbs
  deriving DecidableEq

namespace Magnitude

def zero : Magnitude := ⟨List.replicate exactLimbs 0, List.length_replicate⟩

def value (m : Magnitude) : Nat := Limbs.value m.limbs

end Magnitude

def shifted (significand : UInt64) (shift : Nat) : Except CubeExecutionError Magnitude :=
  match h : Limbs.shiftedLeft exactLimbs significand shift with
  | none => .error .exactAccumulatorOverflow
  | some limbs => .ok ⟨limbs, Limbs.length_shiftedLeft h⟩

def addMagnitudes (destination source : Magnitude) : Except CubeExecutionError Magnitude :=
  let sum := Limbs.addCarry destination.limbs source.limbs false
  if sum.2 then .error .exactAccumulatorOverflow
  else .ok ⟨sum.1, (Limbs.length_addCarry ..).trans destination.length_limbs⟩

/-- The source is the smaller one, so nothing is left to borrow. -/
def subtractMagnitudes (destination source : Magnitude) : Magnitude :=
  ⟨(Limbs.subBorrow destination.limbs source.limbs false).1,
    (Limbs.length_subBorrow ..).trans destination.length_limbs⟩

def compareMagnitudes (first second : Magnitude) : Ordering := Limbs.compareLimbs first.limbs second.limbs

/-! ## Accumulation -/

structure ExactDyadic where
  negative : Bool
  magnitude : Magnitude
  deriving DecidableEq

namespace ExactDyadic

def default : ExactDyadic := ⟨false, .zero⟩

def isZero (acc : ExactDyadic) : Bool := acc.magnitude.limbs.all (· == 0)

def addTerm (negative : Bool) (significand : UInt64) (shift : Nat) (acc : ExactDyadic) :
    Except CubeExecutionError ExactDyadic :=
  if significand = 0 then .ok acc
  else
    match shifted significand shift with
    | .error e => .error e
    | .ok term =>
      if acc.isZero then .ok ⟨negative, term⟩
      else if acc.negative = negative then
        (addMagnitudes acc.magnitude term).map fun magnitude => { acc with magnitude }
      else
        match compareMagnitudes acc.magnitude term with
        | .gt => .ok { acc with magnitude := subtractMagnitudes acc.magnitude term }
        | .eq => .ok ⟨false, .zero⟩
        | .lt => .ok ⟨negative, subtractMagnitudes term acc.magnitude⟩

/-- A finite word is added; a subnormal one, whose `exponent` field is 0, counts as zero. -/
def addFinite (parts : BitVec w → BitVec w × Int) (sign exponent bits : BitVec w) (acc : ExactDyadic) :
    Except CubeExecutionError ExactDyadic :=
  if exponent = 0 then .ok acc
  else
    addTerm (bits &&& sign != 0) (UInt64.ofNat (parts bits).1.toNat) ((parts bits).2 - exactScaleExponent).toNat acc

def addF16 (bits : BitVec 16) : ExactDyadic → Except CubeExecutionError ExactDyadic :=
  addFinite finiteF16Parts f16Sign ((bits &&& f16Exponent) >>> 10) bits

def addF32 (bits : BitVec 32) : ExactDyadic → Except CubeExecutionError ExactDyadic :=
  addFinite finiteF32Parts f32Sign ((bits >>> 23) &&& 0xff) bits

/-- The product of two finite words is added, subnormal ones too. -/
def addProduct (parts : BitVec w → BitVec w × Int) (sign first second : BitVec w) (acc : ExactDyadic) :
    Except CubeExecutionError ExactDyadic :=
  let (firstSignificand, firstExponent) := parts first
  let (secondSignificand, secondExponent) := parts second
  if firstSignificand = 0 ∨ secondSignificand = 0 then .ok acc
  else
    let shift := firstExponent + secondExponent - exactScaleExponent
    addTerm ((first ^^^ second) &&& sign != 0)
      (UInt64.ofNat firstSignificand.toNat * UInt64.ofNat secondSignificand.toNat) shift.toNat acc

def addF16Product (first second : BitVec 16) : ExactDyadic → Except CubeExecutionError ExactDyadic :=
  addProduct finiteF16Parts f16Sign first second

def addBf16Product (first second : BitVec 16) : ExactDyadic → Except CubeExecutionError ExactDyadic :=
  addProduct finiteBf16Parts bf16Sign first second

def addF32Product (first second : BitVec 32) : ExactDyadic → Except CubeExecutionError ExactDyadic :=
  addProduct finiteF32Parts f32Sign first second

end ExactDyadic

/-- A call that adds to the accumulator. -/
inductive Accumulation where
  | f16 (bits : BitVec 16)
  | f32 (bits : BitVec 32)
  | f16Product (first second : BitVec 16)
  | bf16Product (first second : BitVec 16)
  | f32Product (first second : BitVec 32)

namespace Accumulation

def add : Accumulation → ExactDyadic → Except CubeExecutionError ExactDyadic
  | .f16 bits => ExactDyadic.addF16 bits
  | .f32 bits => ExactDyadic.addF32 bits
  | .f16Product first second => ExactDyadic.addF16Product first second
  | .bf16Product first second => ExactDyadic.addBf16Product first second
  | .f32Product first second => ExactDyadic.addF32Product first second

end Accumulation

/-- The calls in order, from the default accumulator. -/
def accumulate (terms : List Accumulation) : Except CubeExecutionError ExactDyadic :=
  terms.foldlM (fun acc term => term.add acc) .default

/-! ## Rounding -/

structure CubeFpStatus where
  nanOperand : Bool
  infinityOperand : Bool
  invalid : Bool
  overflow : Bool
  underflow : Bool
  deriving DecidableEq

def CubeFpStatus.default : CubeFpStatus := ⟨false, false, false, false, false⟩

inductive Fp16Mode where
  | saturating | nonSaturating
  deriving DecidableEq

/-- The word of a binary16 result that is too large, without its sign. -/
def Fp16Mode.overflowWord : Fp16Mode → BitVec 16
  | .saturating => f16MaxFinite
  | .nonSaturating => f16Exponent

/-- The constants of a rounder; a bit is one of the magnitude. -/
structure RoundTarget (w : Nat) where
  fractionBits : Nat
  fractionMask : BitVec w
  signBit : Nat
  minNormalBit : Nat
  subnormalQuantumBit : Nat
  rawExponentOffset : Nat
  rawExponentLimit : Nat

def f32Target : RoundTarget 32 := ⟨23, f32Fraction, 31, 172, 149, 171, 255⟩

def f16Target : RoundTarget 16 := ⟨10, f16Fraction, 15, 284, 274, 283, 31⟩

namespace ExactDyadic

/-- The magnitude without its low `discard` bits, rounded: up from over a half, and from a half if odd. -/
def roundedPart (w : Nat) (acc : ExactDyadic) (discard : Nat) : BitVec w :=
  let part := BitVec.ofNat w (Limbs.lowAfterShift acc.magnitude.limbs discard).toNat
  let halfBit := discard - 1
  let round := Limbs.bit acc.magnitude.limbs halfBit &&
    (Limbs.anyBitsBelow acc.magnitude.limbs halfBit || part &&& 1 != 0)
  if discard ≠ 0 ∧ round then part + 1 else part

def roundTo (target : RoundTarget w) (overflow : BitVec w) (negativeZero : Bool) (acc : ExactDyadic) :
    BitVec w × CubeFpStatus :=
  let sign : BitVec w := BitVec.ofNat w (if acc.isZero then negativeZero else acc.negative).toNat <<< target.signBit
  match Limbs.highestBit acc.magnitude.limbs with
  | none => (sign, .default)
  | some highBit =>
    if highBit < target.minNormalBit then
      let fraction := acc.roundedPart w target.subnormalQuantumBit
      let minNormal := (1 : BitVec w) <<< target.fractionBits
      if fraction = minNormal then (sign ||| minNormal, .default)
      else (sign, { CubeFpStatus.default with underflow := true })
    else
      let rounded := acc.roundedPart w (highBit - target.fractionBits)
      let carried := rounded = (1 : BitVec w) <<< (target.fractionBits + 1)
      let significand := if carried then rounded >>> 1 else rounded
      let roundedHighBit := if carried then highBit + 1 else highBit
      let rawExponent := roundedHighBit - target.rawExponentOffset
      if target.rawExponentLimit ≤ rawExponent then
        (sign ||| overflow, { CubeFpStatus.default with overflow := true })
      else
        (sign ||| BitVec.ofNat w rawExponent <<< target.fractionBits ||| significand &&& target.fractionMask, .default)

def roundF32 (acc : ExactDyadic) (negativeZero : Bool) : BitVec 32 × CubeFpStatus :=
  acc.roundTo f32Target f32MaxFinite negativeZero

def roundF16 (acc : ExactDyadic) (negativeZero : Bool) (mode : Fp16Mode) : BitVec 16 × CubeFpStatus :=
  acc.roundTo f16Target mode.overflowWord negativeZero

end ExactDyadic

end AscendEmulator.C220.Cube
