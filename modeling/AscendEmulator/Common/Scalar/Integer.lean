/-
  AscendEmulator.Common.Scalar.Integer — the instructions between X registers (`sim/common/scalar/{integer,alu}.rs`).

  `evaluate` computes what an instruction writes and where; `executeWord` writes it. The forms with six-bit
  register fields read through `get`; the others index the registers directly.
-/

import AscendEmulator.Common.Scalar.Machine

namespace AscendEmulator.Common.Scalar

open AscendEmulator.Lib AscendEmulator.Isa AscendEmulator.Lib.Outcome
open AscendEmulator.Memory (Architecture)

/-! ## The arithmetic of `alu.rs` -/

structure ScalarIntegerOutcome where
  destinationRegister : Nat
  value : UInt64
  signedOverflow : Bool
  spr2 : UInt64
  deriving DecidableEq

def updateOverflowSpr2 (priorSpr2 runtimeIsaPc : UInt64) (signedOverflow : Bool) : UInt64 :=
  let pcByte : UInt64 := ((runtimeIsaPc >>> 2) &&& 0xff) <<< 16
  if signedOverflow then (priorSpr2 &&& 0xffffffffff00ffff) ||| pcByte ||| 0x10 else priorSpr2

def updateNegOverflowSpr2 (architecture : Architecture) (priorSpr2 runtimeIsaPc : UInt64) (signedOverflow : Bool) :
    UInt64 :=
  if !signedOverflow then priorSpr2
  else
    let pcByte : UInt64 := ((runtimeIsaPc >>> 2) &&& 0xff) <<< 16
    match architecture with
    | .dav2201 => (priorSpr2 &&& 0xffffffffff00ffff) ||| pcByte ||| 8
    | .dav3510 => (priorSpr2 &&& 0xfffffffffffff007) ||| pcByte ||| 8

def evaluateScalarIntegerImmediate (hint : ScalarInstruction) (sourceValue runtimeIsaPc priorSpr2 : UInt64) :
    Outcome ScalarIntegerError ScalarIntegerOutcome :=
  match hint with
  | .scalarKey8 operation (some destinationRegister) _ encodedImmediate => do
    failIf (decide (0xfff < encodedImmediate)) (.immediateOutOfRange encodedImmediate)
    let (value, signedOverflow) ← (match operation with
      | .addImmediate => .ok (Word.overflowingAdd sourceValue.toInt64 (Int64.ofNat encodedImmediate))
      | .subtractImmediate => .ok (Word.overflowingSub sourceValue.toInt64 (Int64.ofNat encodedImmediate))
      | .multiplyImmediate => do
        let signedImmediate ← ScalarInstruction.signedField 64 encodedImmediate 0x800 0x1000
        return Word.overflowingMul sourceValue.toInt64 (Int64.ofInt signedImmediate)
      | .dcPreload => fail .unsupportedHint : Outcome ScalarIntegerError (Int64 × Bool))
    return {
      destinationRegister
      value := value.toUInt64
      signedOverflow
      spr2 := updateOverflowSpr2 priorSpr2 runtimeIsaPc signedOverflow }
  | _ => fail .unsupportedHint

/-! ## What an instruction writes -/

structure ScalarOutcome where
  destinationRegister : Nat
  sourceRegister : Option Nat
  sourceValue : Option UInt64
  secondSourceRegister : Option Nat
  secondSourceValue : Option UInt64
  value : UInt64
  signedOverflow : Bool
  spr2 : UInt64
  deriving DecidableEq

namespace ScalarMachine

variable {ε : Type}

/-- `self.xregs.get(usize::from(register))`, with the error of the word. -/
def getXreg (m : ScalarMachine) (pc : UInt64) (word : UInt32) (register : Nat) : Outcome ScalarMachineError UInt64 :=
  okOr (.unsupportedWord pc word) m.xregs[register]?

/-- The result of a form of one source, whose registers have been checked. -/
def unary (m : ScalarMachine) (destinationRegister sourceRegister : Nat) (sourceValue value : UInt64) : ScalarOutcome :=
  ⟨destinationRegister, some sourceRegister, some sourceValue, none, none, value, false, m.spr2⟩

/-- The source of a form of one source, if both its registers exist. -/
def unarySource (m : ScalarMachine) (pc : UInt64) (word : UInt32) (destinationRegister sourceRegister : Nat) :
    Outcome ScalarMachineError UInt64 := do
  let sourceValue ← getXreg m pc word sourceRegister
  let _ ← getXreg m pc word destinationRegister
  return sourceValue

/-- The values of key 0 and whether they overflow; none if the source has no arm for them. -/
def key0Value (m : ScalarMachine) (operation : ScalarKey0Operation) (dtypeField destinationRegister : Nat)
    (first second : UInt64) : Outcome ε (Option (UInt64 × Bool)) :=
  let signed (r : Int64 × Bool) : Outcome ε (Option (UInt64 × Bool)) := .ok (some (r.1.toUInt64, r.2))
  let plain (value : UInt64) : Outcome ε (Option (UInt64 × Bool)) := .ok (some (value, false))
  match operation, dtypeField with
  | .add, 0 => signed (Word.overflowingAdd first.toInt64 second.toInt64)
  | .subtract, 0 => signed (Word.overflowingSub first.toInt64 second.toInt64)
  | .multiply, 0 => signed (Word.overflowingMul first.toInt64 second.toInt64)
  | .multiplyAdd, 0 => do
    let (product, multiplyOverflow) := Word.overflowingMul first.toInt64 second.toInt64
    let prior ← xregAt m.xregs destinationRegister
    let (value, addOverflow) := Word.overflowingAdd prior.toInt64 product
    return some (value.toUInt64, multiplyOverflow || addOverflow)
  | .divide, 0 =>
    let dividend := first.toInt64
    let divisor := second.toInt64
    if divisor = 0 then plain (if dividend < 0 then Int64.minValue else Int64.maxValue).toUInt64
    else if dividend = Int64.minValue ∧ divisor = -1 then plain Int64.minValue.toUInt64
    else (some ⟨·.toUInt64, false⟩) <$> Word.div dividend divisor
  | .divide, 1 => plain (if second = 0 then 0xffffffffffffffff else first / second)
  | .remainder, 0 =>
    let dividend := first.toInt64
    let divisor := second.toInt64
    if divisor = 0 then plain first
    else if dividend = Int64.minValue ∧ divisor = -1 then plain 0
    else (some ⟨·.toUInt64, false⟩) <$> Word.rem dividend divisor
  | .remainder, 1 => plain (if second = 0 then first else first % second)
  | .minimum, 0 => plain (if first.toInt64 ≤ second.toInt64 then first else second)
  | .maximum, 0 => plain (if first.toInt64 ≤ second.toInt64 then second else first)
  | .and, 3 => plain (first &&& second)
  | .or, 3 => plain (first ||| second)
  | .xor, 3 => plain (first ^^^ second)
  | _, _ => .ok none

/-- The count of a shift: of a register, its low six bits, else of the word. -/
def shiftCount (m : ScalarMachine) (countRegister : Option Nat) (encodedImmediate : Nat) :
    Outcome ε (Option Nat × Option UInt64 × Nat) :=
  match countRegister with
  | some register => do
    let countValue ← xregAt m.xregs register
    return (some register, some countValue, (countValue &&& 0x3f).toNat)
  | none => .ok (none, none, encodedImmediate)

/-- A shift right, of `i64` or of `u64`. -/
def shiftRightValue (dtypeField : Nat) (prior : UInt64) (shift : Nat) : Outcome ε UInt64 :=
  if dtypeField = 0 then Int64.toUInt64 <$> Word.sar prior.toInt64 shift else Word.shr prior shift

/-- How many bits an immediate is inserted as. -/
def insertWidth (extended : Bool) (immediate : Nat) : Outcome ε Nat :=
  if extended then .ok 8 else (max · 1) <$> Word.plainSubNat 8 (Word.leadingZerosU8 immediate)

def bitCountValue (operation : ScalarBitCountOperation) (sourceValue : UInt64) : Outcome ε UInt64 :=
  match operation with
  | .zeros => .ok (UInt64.ofNat (Word.countOnes (~~~sourceValue)))
  | .ones => .ok (UInt64.ofNat (Word.countOnes sourceValue))
  | .leadingZeros => .ok (UInt64.ofNat (Word.leadingZeros sourceValue))
  | .leadingSignBits =>
    if sourceValue = 0 ∨ sourceValue = 0xffffffffffffffff then .ok 0xffffffffffffffff
    else if sourceValue >>> 63 ≠ 0 then UInt64.ofNat <$> Word.plainSubNat (Word.leadingOnes sourceValue) 1
    else UInt64.ofNat <$> Word.plainSubNat (Word.leadingZeros sourceValue) 1

/-- `width` ones above `position`. -/
def bitMask (width position : Nat) : Outcome ε UInt64 := do
  let bit ← Word.shl 1 width
  let ones ← Word.plainSubWord bit 1
  Word.shl ones position

def evaluate (m : ScalarMachine) (pc : UInt64) (word : UInt32) (hint : ScalarInstruction) :
    Outcome ScalarMachineError ScalarOutcome :=
  let unsupported := ScalarMachineError.unsupportedWord pc word
  match hint with
  | .scalarMoveX8Immediate destinationRegister encodedImmediate => do
    let value ← Word.plainMul encodedImmediate 8
    return ⟨destinationRegister, none, none, none, none, UInt64.ofNat value, false, m.spr2⟩
  | .scalarKey0 operation dtypeField destinationRegister firstSourceRegister secondSourceRegister => do
    let first ← getXreg m pc word firstSourceRegister
    let second ← getXreg m pc word secondSourceRegister
    let _ ← getXreg m pc word destinationRegister
    let result ← key0Value m operation dtypeField destinationRegister first second
    let (value, signedOverflow) ← okOr unsupported result
    return ⟨destinationRegister, some firstSourceRegister, some first, some secondSourceRegister, some second, value,
      signedOverflow, updateOverflowSpr2 m.spr2 pc signedOverflow⟩
  | .scalarKey2ShiftLeft dtypeField destinationRegister countRegister encodedImmediate => do
    failIf (dtypeField != 3) unsupported
    let prior ← xregAt m.xregs destinationRegister
    let (secondSourceRegister, secondSourceValue, shift) ← shiftCount m countRegister encodedImmediate
    let value ← Word.shl prior shift
    return ⟨destinationRegister, some destinationRegister, some prior, secondSourceRegister, secondSourceValue, value,
      false, m.spr2⟩
  | .scalarKey2ShiftRight dtypeField destinationRegister countRegister encodedImmediate => do
    failIf (dtypeField != 0 && dtypeField != 1) unsupported
    let prior ← xregAt m.xregs destinationRegister
    let (secondSourceRegister, secondSourceValue, shift) ← shiftCount m countRegister encodedImmediate
    let value ← shiftRightValue dtypeField prior shift
    return ⟨destinationRegister, some destinationRegister, some prior, secondSourceRegister, secondSourceValue, value,
      false, m.spr2⟩
  | .scalarKey2BitCount operation destinationRegister sourceRegister => do
    let sourceValue ← xregAt m.xregs sourceRegister
    let value ← bitCountValue operation sourceValue
    return unary m destinationRegister sourceRegister sourceValue value
  | .scalarKey2FindFirst destinationRegister sourceRegister findSet => do
    let sourceValue ← xregAt m.xregs sourceRegister
    let index := if findSet then Word.trailingZeros sourceValue else Word.trailingOnes sourceValue
    return unary m destinationRegister sourceRegister sourceValue
      (if index = 64 then 0xffffffffffffffff else UInt64.ofNat index)
  | .scalarKey2MoveRegister _ destinationRegister sourceRegister => do
    let sourceValue ← unarySource m pc word destinationRegister sourceRegister
    return unary m destinationRegister sourceRegister sourceValue sourceValue
  | .scalarKey2Negate dtypeField destinationRegister sourceRegister => do
    failIf (dtypeField != 0) unsupported
    let sourceValue ← unarySource m pc word destinationRegister sourceRegister
    let signedOverflow := sourceValue == Int64.minValue.toUInt64
    return { unary m destinationRegister sourceRegister sourceValue (-sourceValue) with
      signedOverflow, spr2 := updateNegOverflowSpr2 m.architecture m.spr2 pc signedOverflow }
  | .scalarKey2Absolute dtypeField destinationRegister sourceRegister => do
    failIf (dtypeField != 0) unsupported
    let sourceValue ← unarySource m pc word destinationRegister sourceRegister
    return unary m destinationRegister sourceRegister sourceValue
      (if sourceValue.toInt64 < 0 then -sourceValue else sourceValue)
  | .scalarKey2IntegerSqrt dtypeField destinationRegister sourceRegister => do
    failIf (dtypeField != 0) unsupported
    let sourceValue ← unarySource m pc word destinationRegister sourceRegister
    return unary m destinationRegister sourceRegister sourceValue
      (Word.isqrt (if sourceValue.toInt64 < 0 then -sourceValue else sourceValue))
  | .scalarKey2BitwiseNot dtypeField destinationRegister sourceRegister => do
    failIf (dtypeField != 3) unsupported
    let sourceValue ← unarySource m pc word destinationRegister sourceRegister
    return unary m destinationRegister sourceRegister sourceValue (~~~sourceValue)
  | .scalarKey2ZeroExtend width destinationRegister sourceRegister => do
    let sourceValue ← unarySource m pc word destinationRegister sourceRegister
    return unary m destinationRegister sourceRegister sourceValue (sourceValue &&& width.mask)
  | .scalarKey2SignExtend widthBits destinationRegister sourceRegister => do
    let sourceValue ← unarySource m pc word destinationRegister sourceRegister
    let shift ← Word.plainSubNat 64 widthBits
    let shifted ← Word.shl sourceValue shift
    let value ← Word.sar shifted.toInt64 shift
    return unary m destinationRegister sourceRegister sourceValue value.toUInt64
  | .scalarKey2Insert destinationRegister sourceRegister leastSignificantBit widthBits => do
    let sourceValue ← getXreg m pc word sourceRegister
    let prior ← getXreg m pc word destinationRegister
    failIf (decide (64 < leastSignificantBit + widthBits)) unsupported
    let mask ← bitMask widthBits leastSignificantBit
    let shifted ← Word.shl sourceValue leastSignificantBit
    return unary m destinationRegister sourceRegister sourceValue ((prior &&& ~~~mask) ||| (shifted &&& mask))
  | .scalarKey2InsertImmediate destinationRegister position immediate extended => do
    let prior ← getXreg m pc word destinationRegister
    let width ← insertWidth extended immediate
    failIf (decide (64 < position + width)) unsupported
    let mask ← bitMask width position
    let shifted ← Word.shl (UInt64.ofNat immediate) position
    return unary m destinationRegister destinationRegister prior ((prior &&& ~~~mask) ||| (shifted &&& mask))
  | .scalarKey2BitSet destinationRegister sourceRegister setBit => do
    let sourceValue ← getXreg m pc word sourceRegister
    let prior ← getXreg m pc word destinationRegister
    let mask ← Word.shl 1 (sourceValue &&& 63).toNat
    return unary m destinationRegister sourceRegister sourceValue (if setBit then prior ||| mask else prior &&& ~~~mask)
  | .scalarKey7 operation destinationRegister encodedImmediate halfwordLane => do
    let prior ← xregAt m.xregs destinationRegister
    match operation with
    | .moveImmediate =>
      return ⟨destinationRegister, none, none, none, none, UInt64.ofNat encodedImmediate, false, m.spr2⟩
    | .moveKeep => do
      let lane ← expect halfwordLane
      let shift := lane * 16
      let mask ← Word.shl 0xffff shift
      let shifted ← Word.shl (UInt64.ofNat encodedImmediate) shift
      return unary m destinationRegister destinationRegister prior ((prior &&& ~~~mask) ||| shifted)
  | .scalarKey8 operation (some destinationRegister) sourceRegister encodedImmediate => do
    let sourceValue ← xregAt m.xregs sourceRegister
    let result ← mapErr .arithmetic (evaluateScalarIntegerImmediate
      (.scalarKey8 operation (some destinationRegister) sourceRegister encodedImmediate) sourceValue pc m.spr2)
    return ⟨result.destinationRegister, some sourceRegister, some sourceValue, none, none, result.value,
      result.signedOverflow, result.spr2⟩
  | _ => fail unsupported

def executeWord (pc : UInt64) (word : UInt32) : Machine ScalarStep := do
  let hint ← decode word
  let hint ← Exec.okOr (.unsupportedWord pc word) hint
  let m ← Exec.query id
  let result ← Exec.outcome (evaluate m pc word hint)
  let priorDestinationValue ← xreg result.destinationRegister
  putXreg result.destinationRegister result.value
  Exec.update fun m => { m with spr2 := result.spr2 }
  return {
    pc, word
    destinationRegister := result.destinationRegister
    priorDestinationValue
    sourceRegister := result.sourceRegister
    sourceValue := result.sourceValue
    secondSourceRegister := result.secondSourceRegister
    secondSourceValue := result.secondSourceValue
    value := result.value
    signedOverflow := result.signedOverflow
    priorSpr2 := m.spr2
    spr2 := result.spr2 }

end ScalarMachine

end AscendEmulator.Common.Scalar
