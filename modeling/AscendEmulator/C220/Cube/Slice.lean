/-
  AscendEmulator.C220.Cube.Slice — the slices of a floating-point product (`cube/numeric`): up to sixteen pairs of
  operands and an accumulator, summed exactly and rounded once.

  The five evaluators share their steps and differ in the words they read, in what becomes of an operand before it is
  multiplied, and in the rounder (`SliceArithmetic`).
-/

import AscendEmulator.C220.Cube.Mmad

namespace AscendEmulator.C220.Cube

open Lib Outcome

/-! ## Words -/

def bf16MaxFinite : BitVec 16 := 0x7f7f
def f32CanonicalNan : BitVec 32 := 0x7fffffff
def f16CanonicalNan : BitVec 16 := 0x7fff

/-- The masks of a word. -/
structure WordFormat (w : Nat) where
  sign : BitVec w
  exponent : BitVec w
  fraction : BitVec w

def f16Word : WordFormat 16 := ⟨f16Sign, f16Exponent, f16Fraction⟩
def bf16Word : WordFormat 16 := ⟨bf16Sign, bf16Exponent, bf16Fraction⟩
def f32Word : WordFormat 32 := ⟨f32Sign, f32Exponent, f32Fraction⟩

namespace WordFormat

variable {w : Nat} (f : WordFormat w)

def isZero (bits : BitVec w) : Bool := bits &&& ~~~f.sign == 0

def isNan (bits : BitVec w) : Bool := bits &&& f.exponent == f.exponent && bits &&& f.fraction != 0

def isInfinite (bits : BitVec w) : Bool := bits &&& ~~~f.sign == f.exponent

/-- An infinity becomes the largest word, and no number becomes zero; the sign is kept. -/
def saturateNonfinite (largest bits : BitVec w) : BitVec w :=
  if bits &&& f.exponent != f.exponent then bits
  else (bits &&& f.sign) ||| if f.isInfinite bits then largest else 0

end WordFormat

def saturateF16Nonfinite : BitVec 16 → BitVec 16 := f16Word.saturateNonfinite f16MaxFinite
def saturateBf16Nonfinite : BitVec 16 → BitVec 16 := bf16Word.saturateNonfinite bf16MaxFinite
def saturateF32Nonfinite : BitVec 32 → BitVec 32 := f32Word.saturateNonfinite f32MaxFinite
def saturateHf32Nonfinite : BitVec 32 → BitVec 32 := f32Word.saturateNonfinite 0x7f7ff000

/-- The fraction is rounded to 11 bits, from a half up to even or away from zero. -/
def roundHf32Operand (bits : BitVec 32) (roundTiesAway : Bool) : BitVec 32 :=
  let sign := bits &&& f32Sign
  let exponent := (bits &&& f32Exponent) >>> 23
  let significand := if exponent ≠ 0 then bits &&& f32Fraction ||| 1#32 <<< 23 else bits &&& f32Fraction
  let retained := significand >>> 12
  let discarded := significand &&& 0x0fff
  let increment := decide (0x0800#32 < discarded) || (discarded == 0x0800 && (roundTiesAway || retained &&& 1 != 0))
  let rounded := retained + if increment then 1 else 0
  if rounded = 1#32 <<< 12 then sign ||| (exponent + 1) <<< 23
  else
    let fraction := (rounded <<< 12) &&& f32Fraction
    if exponent = 0 ∧ rounded = 1#32 <<< 11 then sign ||| 1#32 <<< 23 else sign ||| exponent <<< 23 ||| fraction

/-! ## Slices -/

/-- What an evaluator has of its own: words of operands and of accumulators, and what it does with them. -/
structure SliceArithmetic (w v : Nat) where
  operand : WordFormat w
  accumulator : WordFormat v
  saturate : BitVec w → BitVec w
  saturateAccumulator : BitVec v → BitVec v
  /-- What becomes of an operand that is not saturated. -/
  prepare : BitVec w → BitVec w
  canonicalNan : BitVec v
  addAccumulator : BitVec v → Accumulation
  addProduct : BitVec w → BitVec w → Accumulation
  round : ExactDyadic → Bool → Fp16Mode → BitVec v × CubeFpStatus

/-- `F32SliceOutcome`, `F16SliceOutcome` -/
structure SliceOutcome (v : Nat) where
  bits : BitVec v
  status : CubeFpStatus
  deriving DecidableEq

/-- What the loop over unsaturated operands keeps. -/
structure SliceSpecials where
  positiveInfinity : Bool
  negativeInfinity : Bool
  status : CubeFpStatus

/-- What the loop over products keeps. -/
structure SliceSum where
  sum : ExactDyadic
  allZeroTermsNegative : Bool

namespace SliceArithmetic

variable {w v : Nat} (a : SliceArithmetic w v)

/-- A pair of operands; an invalid one ends the loop with no number. -/
def notePair (s : SliceSpecials) (pair : BitVec w × BitVec w) : Except (SliceOutcome v) SliceSpecials :=
  let f := a.operand
  let firstNan := f.isNan pair.1
  let secondNan := f.isNan pair.2
  let firstInfinite := f.isInfinite pair.1
  let secondInfinite := f.isInfinite pair.2
  let invalid := firstNan || secondNan || firstInfinite && f.isZero pair.2 || secondInfinite && f.isZero pair.1
  let status := { s.status with
    nanOperand := s.status.nanOperand || (firstNan || secondNan)
    infinityOperand := s.status.infinityOperand || (firstInfinite || secondInfinite)
    invalid := s.status.invalid || invalid }
  if invalid then .error ⟨a.canonicalNan, status⟩
  else if firstInfinite || secondInfinite then
    if (pair.1 ^^^ pair.2) &&& f.sign == 0 then .ok { s with status, positiveInfinity := true }
    else .ok { s with status, negativeInfinity := true }
  else .ok { s with status }

/-- The operands that are no numbers decide the result (an early return), or there are none. -/
def checkSpecials (pairs : List (BitVec w × BitVec w)) (accumulator : BitVec v) :
    Except (SliceOutcome v) CubeFpStatus :=
  let f := a.accumulator
  if f.isNan accumulator then .error ⟨a.canonicalNan, { CubeFpStatus.default with nanOperand := true }⟩
  else
    let infinite := f.isInfinite accumulator
    let start : SliceSpecials := {
      positiveInfinity := infinite && accumulator &&& f.sign == 0
      negativeInfinity := infinite && accumulator &&& f.sign != 0
      status := { CubeFpStatus.default with infinityOperand := infinite } }
    match pairs.foldlM a.notePair start with
    | .error outcome => .error outcome
    | .ok s =>
      if s.positiveInfinity && s.negativeInfinity then .error ⟨a.canonicalNan, { s.status with invalid := true }⟩
      else if s.positiveInfinity || s.negativeInfinity then
        .error ⟨if s.negativeInfinity then f.sign ||| f.exponent else f.exponent, s.status⟩
      else .ok s.status

def zeroProduct (pair : BitVec w × BitVec w) : Bool := a.operand.isZero pair.1 || a.operand.isZero pair.2

/-- A product is added; an operand that is no number here is `unreachable!`. -/
def addPair (s : SliceSum) (pair : BitVec w × BitVec w) : Outcome CubeExecutionError SliceSum :=
  let f := a.operand
  if f.isInfinite pair.1 || f.isNan pair.1 || f.isInfinite pair.2 || f.isNan pair.2 then panicked
  else
    let allZeroTermsNegative :=
      if a.zeroProduct pair then s.allZeroTermsNegative && (pair.1 ^^^ pair.2) &&& f.sign != 0
      else s.allZeroTermsNegative
    match (a.addProduct pair.1 pair.2).add s.sum with
    | .error e => fail e
    | .ok sum => .ok ⟨sum, allZeroTermsNegative⟩

def sumSlice (pairs : List (BitVec w × BitVec w)) (accumulator : BitVec v) (mode : Fp16Mode) (status : CubeFpStatus) :
    Outcome CubeExecutionError (SliceOutcome v) :=
  let contributes := accumulator &&& a.accumulator.exponent != 0
  match (a.addAccumulator accumulator).add .default with
  | .error e => fail e
  | .ok sum => do
    let s ← pairs.foldlM a.addPair ⟨sum, !contributes && accumulator &&& a.accumulator.sign != 0⟩
    let rounded := a.round s.sum (!contributes && pairs.all a.zeroProduct && s.allZeroTermsNegative) mode
    .ok ⟨rounded.1, status.merge rounded.2⟩

def evaluate (left right : List (BitVec w)) (accumulator : BitVec v) (mode : Fp16Mode) :
    Outcome CubeExecutionError (SliceOutcome v) :=
  match mode with
  | .saturating =>
    let status := { CubeFpStatus.default with
      nanOperand := (left ++ right).any a.operand.isNan || a.accumulator.isNan accumulator
      infinityOperand := (left ++ right).any a.operand.isInfinite || a.accumulator.isInfinite accumulator }
    a.sumSlice ((left.map a.saturate).zip (right.map a.saturate)) (a.saturateAccumulator accumulator) mode status
  | .nonSaturating =>
    match a.checkSpecials (left.zip right) accumulator with
    | .error outcome => .ok outcome
    | .ok status => a.sumSlice ((left.map a.prepare).zip (right.map a.prepare)) accumulator mode status

end SliceArithmetic

/-! ## Evaluators -/

def roundingF32 (sum : ExactDyadic) (negativeZero : Bool) (_ : Fp16Mode) : BitVec 32 × CubeFpStatus :=
  sum.roundF32 negativeZero

def f16F16Arithmetic : SliceArithmetic 16 16 where
  operand := f16Word
  accumulator := f16Word
  saturate := saturateF16Nonfinite
  saturateAccumulator := saturateF16Nonfinite
  prepare := id
  canonicalNan := f16CanonicalNan
  addAccumulator := .f16
  addProduct := .f16Product
  round := ExactDyadic.roundF16

def f16F32Arithmetic : SliceArithmetic 16 32 where
  operand := f16Word
  accumulator := f32Word
  saturate := saturateF16Nonfinite
  saturateAccumulator := saturateF32Nonfinite
  prepare := id
  canonicalNan := f32CanonicalNan
  addAccumulator := .f32
  addProduct := .f16Product
  round := roundingF32

def bf16F32Arithmetic : SliceArithmetic 16 32 where
  operand := bf16Word
  accumulator := f32Word
  saturate := saturateBf16Nonfinite
  saturateAccumulator := saturateF32Nonfinite
  prepare := id
  canonicalNan := f32CanonicalNan
  addAccumulator := .f32
  addProduct := .bf16Product
  round := roundingF32

def f32F32Arithmetic : SliceArithmetic 32 32 where
  operand := f32Word
  accumulator := f32Word
  saturate := saturateF32Nonfinite
  saturateAccumulator := saturateF32Nonfinite
  prepare := id
  canonicalNan := f32CanonicalNan
  addAccumulator := .f32
  addProduct := .f32Product
  round := roundingF32

/-- Operands are rounded: before they are saturated once more, or behind the check for specials. -/
def hf32F32Arithmetic (roundTiesAway : Bool) : SliceArithmetic 32 32 where
  operand := f32Word
  accumulator := f32Word
  saturate bits := saturateHf32Nonfinite (roundHf32Operand (saturateF32Nonfinite bits) roundTiesAway)
  saturateAccumulator := saturateF32Nonfinite
  prepare bits := roundHf32Operand bits roundTiesAway
  canonicalNan := f32CanonicalNan
  addAccumulator := .f32
  addProduct := .f32Product
  round := roundingF32

def evaluateF16F16Slice (left right : Vector (BitVec 16) 16) (accumulator : BitVec 16) (mode : Fp16Mode) :
    Outcome CubeExecutionError (SliceOutcome 16) :=
  f16F16Arithmetic.evaluate left.toList right.toList accumulator mode

def evaluateF16F32Slice (left right : Vector (BitVec 16) 16) (accumulator : BitVec 32) (mode : Fp16Mode) :
    Outcome CubeExecutionError (SliceOutcome 32) :=
  f16F32Arithmetic.evaluate left.toList right.toList accumulator mode

def evaluateBf16F32Slice (left right : Vector (BitVec 16) 16) (accumulator : BitVec 32) (mode : Fp16Mode) :
    Outcome CubeExecutionError (SliceOutcome 32) :=
  bf16F32Arithmetic.evaluate left.toList right.toList accumulator mode

def evaluateF32F32Slice (left right : Vector (BitVec 32) 4) (accumulator : BitVec 32) (mode : Fp16Mode) :
    Outcome CubeExecutionError (SliceOutcome 32) :=
  f32F32Arithmetic.evaluate left.toList right.toList accumulator mode

def evaluateHf32F32Slice (left right : Vector (BitVec 32) 8) (accumulator : BitVec 32) (mode : Fp16Mode)
    (roundTiesAway : Bool) : Outcome CubeExecutionError (SliceOutcome 32) :=
  (hf32F32Arithmetic roundTiesAway).evaluate left.toList right.toList accumulator mode

/-! ## Kinds -/

/-- The evaluators. -/
inductive SliceKind where
  | f16F16 | f16F32 | bf16F32 | f32F32
  | hf32F32 (roundTiesAway : Bool)
  deriving DecidableEq

namespace SliceKind

def operandWidth : SliceKind → Nat
  | .f16F16 | .f16F32 | .bf16F32 => 16
  | .f32F32 | .hf32F32 _ => 32

def accumulatorWidth : SliceKind → Nat
  | .f16F16 => 16
  | .f16F32 | .bf16F32 | .f32F32 | .hf32F32 _ => 32

def lanes : SliceKind → Nat
  | .f16F16 | .f16F32 | .bf16F32 => 16
  | .f32F32 => 4
  | .hf32F32 _ => 8

def arithmetic : (k : SliceKind) → SliceArithmetic k.operandWidth k.accumulatorWidth
  | .f16F16 => f16F16Arithmetic
  | .f16F32 => f16F32Arithmetic
  | .bf16F32 => bf16F32Arithmetic
  | .f32F32 => f32F32Arithmetic
  | .hf32F32 roundTiesAway => hf32F32Arithmetic roundTiesAway

def evaluate : (k : SliceKind) → Vector (BitVec k.operandWidth) k.lanes → Vector (BitVec k.operandWidth) k.lanes →
    BitVec k.accumulatorWidth → Fp16Mode → Outcome CubeExecutionError (SliceOutcome k.accumulatorWidth)
  | .f16F16, left, right, accumulator, mode => evaluateF16F16Slice left right accumulator mode
  | .f16F32, left, right, accumulator, mode => evaluateF16F32Slice left right accumulator mode
  | .bf16F32, left, right, accumulator, mode => evaluateBf16F32Slice left right accumulator mode
  | .f32F32, left, right, accumulator, mode => evaluateF32F32Slice left right accumulator mode
  | .hf32F32 roundTiesAway, left, right, accumulator, mode =>
    evaluateHf32F32Slice left right accumulator mode roundTiesAway

end SliceKind

end AscendEmulator.C220.Cube
