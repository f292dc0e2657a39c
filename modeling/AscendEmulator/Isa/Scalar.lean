/-
  AscendEmulator.Isa.Scalar — the decoder of scalar words (`isa/class.rs`, `isa/scalar.rs`).

  The register fields of a word have five bits; on Dav2201 some forms take a sixth from elsewhere in the word, so
  a decoded index can reach 63. `ScalarInstruction.Encoded` says which indices stay below 32, and which widths,
  shifts and lanes a decoded instruction can have (`fromWord_encoded`); decoding does not panic (`fromWord_safe`).
-/

import AscendEmulator.Lib.Word
import AscendEmulator.Memory.PvMemory

namespace AscendEmulator.Isa

open AscendEmulator.Lib AscendEmulator.Lib.Outcome
open AscendEmulator.Memory (Architecture)

inductive AicClass where
  | scalar
  | flowControl
  | memoryTransfer
  | vector
  | fixp
  | cube
  | unregistered (key : Nat)
  deriving DecidableEq, Repr

/-- `(word >> shift) & mask`. -/
def field (word shift mask : UInt32) : Nat := ((word >>> shift) &&& mask).toNat

theorem field_le (word shift mask : UInt32) : field word shift mask ≤ mask.toNat := by
  rw [field, UInt32.toNat_and]
  exact Nat.and_le_right

theorem field_lt {word shift mask : UInt32} {n : Nat} (h : mask.toNat < n) : field word shift mask < n :=
  Nat.lt_of_le_of_lt (field_le word shift mask) h

/-- `word & mask != 0`. -/
def hasBit (word mask : UInt32) : Bool := word &&& mask != 0

def AicClass.fromWord (word : UInt32) : AicClass :=
  match (word >>> 29).toNat with
  | 0 => .scalar
  | 2 => .flowControl
  | 3 => .memoryTransfer
  | 4 => .vector
  | 6 => .fixp
  | 7 => .cube
  | other => .unregistered other

inductive ScalarBitCountOperation where
  | zeros
  | ones
  | leadingZeros
  | leadingSignBits
  deriving DecidableEq, Repr

inductive ScalarKey8Operation where
  | addImmediate
  | multiplyImmediate
  | subtractImmediate
  | dcPreload
  deriving DecidableEq, Repr

inductive ScalarKey0Operation where
  | add
  | subtract
  | multiply
  | multiplyAdd
  | divide
  | remainder
  | minimum
  | maximum
  | and
  | or
  | xor
  deriving DecidableEq, Repr

inductive ScalarKey7Operation where
  | moveImmediate
  | moveKeep
  deriving DecidableEq, Repr

inductive ScalarLoadStoreOperation where
  | load
  | store
  deriving DecidableEq, Repr

inductive ScalarStoreImmediateValue where
  | zero
  | one
  | ones
  deriving DecidableEq, Repr

inductive ZeroExtendWidth where
  | u8
  | u16
  | u32
  deriving DecidableEq, Repr

def ZeroExtendWidth.mask : ZeroExtendWidth → UInt64
  | .u8 => 0xff
  | .u16 => 0xffff
  | .u32 => 0xffffffff

structure ScalarAddressEffect where
  effectiveAddress : UInt64
  updatedBase : Option UInt64
  deriving DecidableEq, Repr

inductive ScalarInstruction where
  | scalarIndexedStore (widthBytes sourceRegister baseRegister offsetRegister : Nat) (postIndex : Bool)
  | scalarIndexedLoad (widthBytes destinationRegister baseRegister offsetRegister : Nat) (postIndex : Bool)
  | scalarIndexedImmediateStore (widthBytes baseRegister offsetRegister : Nat) (value : ScalarStoreImmediateValue)
      (postIndex : Bool)
  | scalarPairLoad (dtypeField widthBytes firstDestinationRegister secondDestinationRegister baseRegister : Nat)
      (signedOffset : Int) (signExtend : Bool)
  | scalarPairStore (dtypeField widthBytes firstSourceRegister secondSourceRegister baseRegister : Nat)
      (signedOffset : Int)
  | scalarLoadStoreImmediate (operation : ScalarLoadStoreOperation)
      (dtypeField widthBytes dataRegister baseRegister : Nat) (signedOffset : Int) (postIndex : Bool)
      (signExtend : Option Bool)
  | scalarStoreImmediate (widthBytes baseRegister : Nat) (signedOffset : Int) (postIndex : Bool)
      (value : ScalarStoreImmediateValue)
  | scalarKey0 (operation : ScalarKey0Operation)
      (dtypeField destinationRegister firstSourceRegister secondSourceRegister : Nat)
  | scalarCompare (dtypeField conditionField firstSourceRegister secondSourceRegister : Nat)
  | scalarCompareRegister
      (dtypeField conditionField destinationRegister firstSourceRegister secondSourceRegister : Nat)
  | scalarCompareImmediate (conditionField sourceRegister encodedImmediate : Nat)
  | scalarSelect (dtypeField destinationRegister firstSourceRegister secondSourceRegister : Nat)
  | scalarMoveX8Immediate (destinationRegister encodedImmediate : Nat)
  | scalarKey2MoveRegister (dtypeField destinationRegister sourceRegister : Nat)
  | scalarKey2Negate (dtypeField destinationRegister sourceRegister : Nat)
  | scalarKey2Absolute (dtypeField destinationRegister sourceRegister : Nat)
  | scalarKey2IntegerSqrt (dtypeField destinationRegister sourceRegister : Nat)
  | scalarKey2BitwiseNot (dtypeField destinationRegister sourceRegister : Nat)
  | scalarKey2MoveFromSpr (destinationRegister encodedSourceSpr : Nat)
  | scalarKey2MoveToSpr (encodedDestinationSpr sourceRegister : Nat)
  | scalarKey2ZeroExtend (width : ZeroExtendWidth) (destinationRegister sourceRegister : Nat)
  | scalarKey2SignExtend (widthBits destinationRegister sourceRegister : Nat)
  | scalarKey2ShiftLeft (dtypeField destinationRegister : Nat) (countRegister : Option Nat) (encodedImmediate : Nat)
  | scalarKey2ShiftRight (dtypeField destinationRegister : Nat) (countRegister : Option Nat) (encodedImmediate : Nat)
  | scalarKey2FindFirst (destinationRegister sourceRegister : Nat) (findSet : Bool)
  | scalarKey2BitCount (operation : ScalarBitCountOperation) (destinationRegister sourceRegister : Nat)
  | scalarKey2Insert (destinationRegister sourceRegister leastSignificantBit widthBits : Nat)
  | scalarKey2InsertImmediate (destinationRegister position immediate : Nat) (extended : Bool)
  | scalarKey2BitSet (destinationRegister sourceRegister : Nat) (setBit : Bool)
  | scalarKey7 (operation : ScalarKey7Operation) (destinationRegister encodedImmediate : Nat)
      (halfwordLane : Option Nat)
  | scalarKey8 (operation : ScalarKey8Operation) (destinationRegister : Option Nat)
      (sourceRegister encodedImmediate : Nat)
  deriving DecidableEq, Repr

namespace ScalarInstruction

variable {ε : Type}

/-- A signed offset as the address arithmetic adds it: `offset as i64 as u64`. -/
def offsetWord (offset : Int) : UInt64 := (Int64.ofInt offset).toUInt64

def scalarAddressEffect (base : UInt64) : ScalarInstruction → Option ScalarAddressEffect
  | scalarLoadStoreImmediate _ _ _ _ _ signedOffset postIndex _ =>
    let adjusted := base + offsetWord signedOffset
    some (if postIndex then ⟨base, some adjusted⟩ else ⟨adjusted, none⟩)
  | _ => none

/-- A field whose sign bit is `sign` and whose period is `span`, in an `iN` with `N = bits`. -/
def signedField (bits raw sign span : Nat) : Outcome ε Int :=
  if raw &&& sign != 0 then Word.plainSub bits raw span else .ok raw

def widthBytes (word : UInt32) : Nat := 1 <<< field word 22 3

def loadStoreHint (word : UInt32) (operation : ScalarLoadStoreOperation) (postIndex : Bool)
    (signExtend : Option Bool) : Outcome ε ScalarInstruction := do
  let signedOffset ← signedField 16 (field word 0 0xfff) 0x800 4096
  return scalarLoadStoreImmediate operation (field word 22 3) (widthBytes word) (field word 17 0x1f)
    (field word 12 0x1f) signedOffset postIndex signExtend

/-- The registers of a key 2 form, with their sixth bits on Dav2201. -/
def key2Registers (architecture : Architecture) (word : UInt32) : Nat × Nat :=
  match architecture with
  | .dav2201 => (field word 17 0x1f ||| field word 1 0x20, field word 12 0x1f ||| field word 0 0x20)
  | .dav3510 => (field word 17 0x1f, field word 12 0x1f)

/-- The registers of a key 0 form, with their sixth bits on Dav2201. -/
def key0Registers (architecture : Architecture) (word : UInt32) : Nat × Nat × Nat :=
  match architecture with
  | .dav2201 => (field word 17 0x1f ||| field word 1 0x20, field word 12 0x1f ||| field word 0 0x20,
      field word 7 0x1f ||| ((word <<< 1) &&& 0x20).toNat)
  | .dav3510 => (field word 17 0x1f, field word 12 0x1f, field word 7 0x1f)

def storeImmediateValue : Nat → Option ScalarStoreImmediateValue
  | 0 => some .zero
  | 1 => some .one
  | 2 => some .ones
  | _ => none

def key0Operation : Nat → Option ScalarKey0Operation
  | 1 => some .add
  | 2 => some .subtract
  | 3 => some .multiply
  | 4 => some .multiplyAdd
  | 5 => some .divide
  | 6 => some .remainder
  | 7 => some .maximum
  | 8 => some .minimum
  | 10 => some .and
  | 11 => some .or
  | 12 => some .xor
  | _ => none

def key8Operation : Nat → ScalarKey8Operation
  | 0 => .addImmediate
  | 1 => .multiplyImmediate
  | 2 => .subtractImmediate
  | _ => .dcPreload

/-- `C220ScalarDeviceLoad::decode(word).is_some()`. -/
def c220ScalarDeviceLoadDecodes (word : UInt32) : Bool := !(word >>> 29 != 0 || field word 25 0xf != 13)

/-- The arms of the source, in its order; each of them asks for the class of scalar words. -/
def fromWord (architecture : Architecture) (word : UInt32) : Outcome ε (Option ScalarInstruction) :=
  let opcode := field word 24 0x1f
  let variant := field word 7 0x1f
  let c220 := architecture = .dav2201
  if AicClass.fromWord word ≠ .scalar then .ok none
  else if c220 ∧ c220ScalarDeviceLoadDecodes word = true then
    some <$> loadStoreHint word .load false (some false)
  else if c220 ∧ opcode = 1 ∧ word &&& 0x70 = 0x20 then
    .ok (some (scalarIndexedStore (widthBytes word) (field word 17 0x1f ||| ((word &&& 4) <<< 3).toNat)
      (field word 12 0x1f ||| ((word &&& 2) <<< 4).toNat) (field word 7 0x1f ||| ((word &&& 1) <<< 5).toNat)
      (hasBit word 8)))
  else if opcode = 1 ∧ word &&& (if c220 then 0x70 else 0x7f) = 0 then
    .ok (some (scalarIndexedLoad (widthBytes word) (field word 17 0x1f ||| ((word &&& 4) <<< 3).toNat)
      (field word 12 0x1f ||| ((word &&& 2) <<< 4).toNat) (field word 7 0x1f ||| ((word &&& 1) <<< 5).toNat)
      (hasBit word 8)))
  else if opcode = 14 ∧ (c220 ∨ word &&& 0x7c = 0) ∧ word &&& 3 ≠ 3 then
    .ok (some (scalarIndexedImmediateStore (widthBytes word) (field word 12 0x1f) (field word 7 0x1f)
      ((storeImmediateValue (field word 0 3)).getD .ones) (decide c220 && hasBit word 4)))
  else if (c220 ∧ opcode = 9) ∨ (architecture = .dav3510 ∧ (opcode = 9 ∨ opcode = 12 ∨ opcode = 13)) then do
    let signedOffset ← signedField 8 (field word 1 0x3f) 0x20 64
    if word &&& 1 = 0 then
      return some (scalarPairLoad (field word 22 3) (widthBytes word) (field word 17 0x1f) (field word 7 0x1f)
        (field word 12 0x1f) signedOffset (decide (architecture = .dav3510) && hasBit word 0x1000000))
    else
      return some (scalarPairStore (field word 22 3) (widthBytes word) (field word 17 0x1f) (field word 7 0x1f)
        (field word 12 0x1f) signedOffset)
  else if c220 ∧ (opcode = 3 ∨ opcode = 19 ∨ opcode = 4 ∨ opcode = 20) then
    some <$> loadStoreHint word (if opcode = 3 ∨ opcode = 19 then .load else .store) (hasBit word 0x10000000) none
  else if opcode = 15 then
    match storeImmediateValue (field word 0 3) with
    | none => .ok none
    | some value => do
      let signedOffset ← signedField 16 (field word 10 0xf80 ||| field word 5 0x7f) 0x800 4096
      return some (scalarStoreImmediate (widthBytes word) (field word 12 0x1f) signedOffset (hasBit word 4) value)
  else if architecture = .dav3510 ∧ (opcode = 28 ∨ opcode = 31 ∨ opcode = 3 ∨ opcode = 19) then
    if opcode = 28 ∨ opcode = 31 then
      some <$> loadStoreHint word .load (hasBit word 0x2000000) (some (hasBit word 0x1000000))
    else
      some <$> loadStoreHint word .store (hasBit word 0x10000000) none
  else if opcode = 16 then .ok (some (scalarMoveX8Immediate (field word 17 0x1f) (field word 0 0xffff)))
  else if opcode = 10 then
    .ok (some (scalarCompareImmediate (field word 22 7) (field word 12 0x1f) (field word 0 0xfff)))
  else if opcode = 0 ∧ word &&& 0xf = 9 then
    let (destination, first, second) := key0Registers architecture word
    .ok (some (scalarSelect (field word 22 3) destination first second))
  else if opcode = 0 ∧ word &&& 0xf = 14 then
    .ok (some (scalarCompare (field word 22 3) (field word 4 7) (field word 12 0x1f) (field word 7 0x1f)))
  else if opcode = 0 ∧ word &&& 0xf = 15 then
    .ok (some (scalarCompareRegister (field word 22 3) (field word 4 7) (field word 17 0x1f) (field word 12 0x1f)
      (field word 7 0x1f)))
  else if opcode = 0 then
    match key0Operation (field word 0 0xf) with
    | none => .ok none
    | some operation =>
      let (destination, first, second) := key0Registers architecture word
      .ok (some (scalarKey0 operation (field word 22 3) destination first second))
  else if opcode = 2 ∧ variant = 0 then
    let (destination, source) := key2Registers architecture word
    .ok (some (scalarKey2IntegerSqrt (field word 22 3) destination source))
  else if opcode = 2 ∧ variant = 1 then
    let (destination, source) := key2Registers architecture word
    .ok (some (scalarKey2Negate (field word 22 3) destination source))
  else if opcode = 2 ∧ variant = 2 then
    let (destination, source) := key2Registers architecture word
    .ok (some (scalarKey2Absolute (field word 22 3) destination source))
  else if opcode = 2 ∧ variant = 3 then
    let (destination, source) := key2Registers architecture word
    .ok (some (scalarKey2BitwiseNot (field word 22 3) destination source))
  else if opcode = 2 ∧ variant = 4 then
    .ok (some (scalarKey2ShiftLeft (field word 22 3) (field word 17 0x1f)
      (if hasBit word 0x40 then some (field word 12 0x1f) else none) (field word 0 0x3f)))
  else if opcode = 2 ∧ variant = 5 then
    .ok (some (scalarKey2ShiftRight (field word 22 3) (field word 17 0x1f)
      (if hasBit word 0x40 then some (field word 12 0x1f) else none) (field word 0 0x3f)))
  else if (architecture = .dav3510 ∨ word &&& 0x30 = 0) ∧ opcode = 2 ∧ variant = 7 then
    .ok (some (scalarKey2FindFirst (field word 17 0x1f) (field word 12 0x1f) (hasBit word 0x40)))
  else if c220 ∧ opcode = 2 ∧ (variant = 6 ∨ variant = 9 ∨ variant = 10) then
    if hasBit word (if variant = 6 then 0x30 else 0x60) then .ok none
    else
      .ok (some (scalarKey2BitCount
        (if variant = 6 then (if hasBit word 0x40 then .ones else .zeros)
          else if variant = 9 then .leadingZeros else .leadingSignBits)
        (field word 17 0x1f) (field word 12 0x1f)))
  else if opcode = 2 ∧ variant = 8 ∧ (architecture = .dav3510 ∨ word &&& 0x30 = 0) then
    .ok (some (scalarKey2BitSet (field word 17 0x1f) (field word 12 0x1f) (hasBit word 0x40)))
  else if opcode = 2 ∧ variant = 16 then
    let (destination, source) := key2Registers architecture word
    .ok (some (scalarKey2MoveRegister (field word 22 3) destination source))
  else if opcode = 2 ∧ variant = 17 then
    let highBit := if architecture = .dav3510 then ((word &&& 1) <<< 7).toNat else 0
    .ok (some (scalarKey2MoveFromSpr (field word 17 0x1f) (highBit ||| field word 17 0x60 ||| field word 12 0x1f)))
  else if opcode = 2 ∧ variant = 18 then
    .ok (some (scalarKey2MoveToSpr
      (if c220 then field word 17 0x7f else ((word &&& 1) <<< 7).toNat ||| field word 17 0x7f)
      (if c220 then field word 12 0x1f ||| field word 0 0x20 else field word 12 0x1f)))
  else if opcode = 2 ∧ variant = 19 then
    match field word 22 3 with
    | 3 => .ok none
    | width =>
      let (destination, source) := key2Registers architecture word
      .ok (some (scalarKey2SignExtend (8 <<< width) destination source))
  else if opcode = 2 ∧ variant = 20 then
    let (destination, source) := key2Registers architecture word
    match field word 22 3 with
    | 0 => .ok (some (scalarKey2ZeroExtend .u8 destination source))
    | 1 => .ok (some (scalarKey2ZeroExtend .u16 destination source))
    | 2 => .ok (some (scalarKey2ZeroExtend .u32 destination source))
    | _ => .ok none
  else if opcode = 2 ∧ (variant = 22 ∨ variant = 23) then
    .ok (some (scalarKey2InsertImmediate (field word 17 0x1f) (field word 17 0x20 ||| field word 12 0x1f)
      (field word 0 0xff) (hasBit word 0x800000)))
  else if opcode = 2 ∧ (24 ≤ variant ∧ variant ≤ 27) then
    .ok (some (scalarKey2Insert (field word 17 0x1f) (field word 12 0x1f) (field word 18 0x30 ||| field word 5 0xf)
      (field word 0 0x1f + 1)))
  else if opcode = 7 then
    let moveKeep := hasBit word 0x10000
    .ok (some (scalarKey7 (if moveKeep then .moveKeep else .moveImmediate) (field word 17 0x1f)
      (field word 0 0xffff) (if moveKeep then some (field word 22 3) else none)))
  else if opcode = 8 then
    let variant := field word 22 3
    .ok (some (scalarKey8 (key8Operation variant) (if variant = 3 then none else some (field word 17 0x1f))
      (field word 12 (if variant = 3 then 0x3f else 0x1f)) (field word 0 0xfff)))
  else .ok none

/-! ## What a decoded instruction can hold -/

/-- A scalar word of the selects. -/
def selects (word : UInt32) : Prop := AicClass.fromWord word = .scalar ∧ field word 24 0x1f = 0 ∧ word &&& 0xf = 9

/-- A scalar word of the preloads of the data cache. -/
def preloads (word : UInt32) : Prop := AicClass.fromWord word = .scalar ∧ field word 24 0x1f = 8 ∧ field word 22 3 = 3

/-- What the executors of the instruction of a word rely on without a check of their own. -/
def Encoded (architecture : Architecture) (word : UInt32) : ScalarInstruction → Prop
  | scalarIndexedStore width _ _ _ _ => width ≤ 8
  | scalarIndexedLoad width _ _ _ _ => width ≤ 8
  | scalarIndexedImmediateStore width base offset _ _ => width ≤ 8 ∧ base < 32 ∧ offset < 32
  | scalarPairLoad _ width first second base _ _ => 0 < width ∧ width ≤ 8 ∧ first < 32 ∧ second < 32 ∧ base < 32
  | scalarPairStore _ width first second base _ => width ≤ 8 ∧ first < 32 ∧ second < 32 ∧ base < 32
  | scalarLoadStoreImmediate _ _ width data base _ _ _ => 0 < width ∧ width ≤ 8 ∧ data < 32 ∧ base < 32
  | scalarStoreImmediate width base _ _ _ => width ≤ 8 ∧ base < 32
  | scalarCompare _ _ first second => first < 32 ∧ second < 32
  | scalarCompareRegister _ _ destination first second => destination < 32 ∧ first < 32 ∧ second < 32
  | scalarCompareImmediate _ source immediate => source < 32 ∧ immediate < 4096
  | scalarMoveX8Immediate destination immediate => destination < 32 ∧ immediate < 65536
  | scalarKey2MoveFromSpr destination _ => destination < 32
  | scalarKey2SignExtend width _ _ => 0 < width ∧ width ≤ 64
  | scalarKey2ShiftLeft _ destination count immediate => destination < 32 ∧ (∀ r ∈ count, r < 32) ∧ immediate < 64
  | scalarKey2ShiftRight _ destination count immediate => destination < 32 ∧ (∀ r ∈ count, r < 32) ∧ immediate < 64
  | scalarKey2FindFirst destination source _ => destination < 32 ∧ source < 32
  | scalarKey2BitCount _ destination source => destination < 32 ∧ source < 32
  | scalarKey2Insert _ _ _ width => 0 < width ∧ width ≤ 32
  | scalarKey2InsertImmediate _ _ immediate _ => immediate < 256
  | scalarKey7 operation destination _ lane =>
    destination < 32 ∧ (operation = .moveKeep → ∃ l, lane = some l ∧ l < 4)
  | scalarKey8 operation destination source _ =>
    (∀ d ∈ destination, d < 32 ∧ source < 32) ∧
      (operation = .dcPreload → preloads word ∧ source = field word 12 0x3f)
  | scalarSelect _ destination first second => selects word ∧ (destination, first, second) = key0Registers architecture word
  | _ => True

section Decodes

variable {architecture : Architecture} {word : UInt32}

/-- The decoder comes to a value, and what it decodes is encoded. -/
def Decodes (architecture : Architecture) (word : UInt32) (o : Outcome ε (Option ScalarInstruction)) : Prop :=
  ∃ hint, o = .ok hint ∧ ∀ i ∈ hint, i.Encoded architecture word

theorem decodes_none : Decodes architecture word (.ok none : Outcome ε (Option ScalarInstruction)) :=
  ⟨none, rfl, nofun⟩

theorem decodes_some {i : ScalarInstruction} (h : i.Encoded architecture word) :
    Decodes architecture word (.ok (some i) : Outcome ε (Option ScalarInstruction)) :=
  ⟨some i, rfl, fun _ hi => by cases hi; exact h⟩

theorem decodes_ite {c : Prop} [Decidable c] {a b : Outcome ε (Option ScalarInstruction)}
    (ha : c → Decodes architecture word a) (hb : ¬c → Decodes architecture word b) :
    Decodes architecture word (if c then a else b) := by
  split
  · exact ha ‹_›
  · exact hb ‹_›

theorem widthBytes_pos (word : UInt32) : 0 < widthBytes word := by
  rw [widthBytes, Nat.shiftLeft_eq, Nat.one_mul]
  exact Nat.two_pow_pos _

theorem widthBytes_le (word : UInt32) : widthBytes word ≤ 8 := by
  rw [widthBytes, Nat.shiftLeft_eq, Nat.one_mul]
  exact Nat.pow_le_pow_right (n := 2) (by decide) (field_le word 22 3)

/-- A field below its span, whose half is the sign bit, is decoded without a panic. -/
theorem signedField_ok {bits raw sign span : Nat} (hraw : raw < span) (hspan : span ≤ 2 ^ (bits - 1)) :
    ∃ offset : Int, (signedField bits raw sign span : Outcome ε Int) = .ok offset := by
  unfold signedField
  split
  · have h : -(2 : Int) ^ (bits - 1) ≤ (raw : Int) - span ∧ (raw : Int) - span < 2 ^ (bits - 1) := by
      have : ((2 ^ (bits - 1) : Nat) : Int) = (2 : Int) ^ (bits - 1) := by push_cast; rfl
      omega
    exact ⟨raw - span, by rw [Word.plainSub, if_pos h]; rfl⟩
  · exact ⟨raw, rfl⟩

theorem decodes_loadStoreHint (operation : ScalarLoadStoreOperation) (postIndex : Bool)
    (signExtend : Option Bool) :
    Decodes architecture word (some <$> loadStoreHint word operation postIndex signExtend : Outcome ε (Option ScalarInstruction)) := by
  have hraw : field word 0 0xfff < 4096 := field_lt (by decide)
  obtain ⟨offset, h⟩ := @signedField_ok ε 16 _ 0x800 4096 hraw (by decide)
  rw [loadStoreHint, h]
  exact decodes_some ⟨widthBytes_pos word, widthBytes_le word, field_lt (by decide), field_lt (by decide)⟩

theorem decodes_pair (signExtend : Bool) :
    Decodes architecture word (do
      let signedOffset ← signedField 8 (field word 1 0x3f) 0x20 64
      if word &&& 1 = 0 then
        return some (scalarPairLoad (field word 22 3) (widthBytes word) (field word 17 0x1f) (field word 7 0x1f)
          (field word 12 0x1f) signedOffset signExtend)
      else
        return some (scalarPairStore (field word 22 3) (widthBytes word) (field word 17 0x1f) (field word 7 0x1f)
          (field word 12 0x1f) signedOffset) : Outcome ε (Option ScalarInstruction)) := by
  have hraw : field word 1 0x3f < 64 := field_lt (by decide)
  obtain ⟨offset, h⟩ := @signedField_ok ε 8 _ 0x20 64 hraw (by decide)
  rw [h]
  refine decodes_ite (fun _ => decodes_some ⟨widthBytes_pos word, widthBytes_le word, ?_⟩)
    fun _ => decodes_some ⟨widthBytes_le word, ?_⟩
  · exact ⟨field_lt (by decide), field_lt (by decide), field_lt (by decide)⟩
  · exact ⟨field_lt (by decide), field_lt (by decide), field_lt (by decide)⟩

theorem decodes_storeImmediate :
    Decodes architecture word (match storeImmediateValue (field word 0 3) with
      | none => .ok none
      | some value => do
        let signedOffset ← signedField 16 (field word 10 0xf80 ||| field word 5 0x7f) 0x800 4096
        return some (scalarStoreImmediate (widthBytes word) (field word 12 0x1f) signedOffset (hasBit word 4) value) :
      Outcome ε (Option ScalarInstruction)) := by
  have hraw : field word 10 0xf80 ||| field word 5 0x7f < 4096 :=
    Nat.or_lt_two_pow (n := 12) (field_lt (by decide)) (field_lt (by decide))
  obtain ⟨offset, h⟩ := @signedField_ok ε 16 _ 0x800 4096 hraw (by decide)
  rw [h]
  cases storeImmediateValue (field word 0 3) with
  | none => exact decodes_none
  | some value => exact decodes_some ⟨widthBytes_le word, field_lt (by decide)⟩

theorem decodes_key0 (destination first second : Nat) :
    Decodes architecture word (match key0Operation (field word 0 0xf) with
      | none => .ok none
      | some operation => .ok (some (scalarKey0 operation (field word 22 3) destination first second)) :
      Outcome ε (Option ScalarInstruction)) := by
  cases key0Operation (field word 0 0xf) with
  | none => exact decodes_none
  | some operation => exact decodes_some trivial

theorem decodes_signExtend (destination source : Nat) :
    Decodes architecture word (match field word 22 3 with
      | 3 => .ok none
      | width => .ok (some (scalarKey2SignExtend (8 <<< width) destination source)) :
      Outcome ε (Option ScalarInstruction)) := by
  have h : field word 22 3 ≤ 3 := field_le word 22 3
  split
  · exact decodes_none
  · refine decodes_some ⟨?_, ?_⟩
    · rw [Nat.shiftLeft_eq]
      exact Nat.mul_pos (by decide) (Nat.two_pow_pos _)
    · rw [Nat.shiftLeft_eq]
      exact Nat.mul_le_mul_left 8 (Nat.pow_le_pow_right (n := 2) (by decide) h)

theorem decodes_zeroExtend (destination source : Nat) :
    Decodes architecture word (match field word 22 3 with
      | 0 => .ok (some (scalarKey2ZeroExtend .u8 destination source))
      | 1 => .ok (some (scalarKey2ZeroExtend .u16 destination source))
      | 2 => .ok (some (scalarKey2ZeroExtend .u32 destination source))
      | _ => .ok none : Outcome ε (Option ScalarInstruction)) := by
  split
  · exact decodes_some trivial
  · exact decodes_some trivial
  · exact decodes_some trivial
  · exact decodes_none

/-- Decoding does not panic, and what it decodes is encoded: one arm of the source after the other. -/
theorem fromWord_decodes (architecture : Architecture) (word : UInt32) :
    Decodes architecture word (fromWord architecture word : Outcome ε (Option ScalarInstruction)) := by
  have r17 : field word 17 0x1f < 32 := field_lt (by decide)
  have r12 : field word 12 0x1f < 32 := field_lt (by decide)
  have r7 : field word 7 0x1f < 32 := field_lt (by decide)
  have count : ∀ r ∈ (if hasBit word 0x40 then some (field word 12 0x1f) else none), r < 32 := by
    intro r hr
    split at hr
    · cases hr; exact r12
    · cases hr
  unfold fromWord
  refine decodes_ite (fun _ => decodes_none) fun hclass => ?_
  refine decodes_ite (fun _ => decodes_loadStoreHint _ _ _) fun _ => ?_
  refine decodes_ite (fun _ => decodes_some (widthBytes_le word)) fun _ => ?_
  refine decodes_ite (fun _ => decodes_some (widthBytes_le word)) fun _ => ?_
  refine decodes_ite (fun _ => decodes_some ⟨widthBytes_le word, r12, r7⟩) fun _ => ?_
  refine decodes_ite (fun _ => decodes_pair _) fun _ => ?_
  refine decodes_ite (fun _ => decodes_loadStoreHint _ _ _) fun _ => ?_
  refine decodes_ite (fun _ => decodes_storeImmediate) fun _ => ?_
  refine decodes_ite (fun _ => decodes_ite (fun _ => decodes_loadStoreHint _ _ _) fun _ => decodes_loadStoreHint _ _ _)
    fun _ => ?_
  refine decodes_ite (fun _ => decodes_some ⟨r17, field_lt (by decide)⟩) fun _ => ?_
  refine decodes_ite (fun _ => decodes_some ⟨r12, field_lt (by decide)⟩) fun _ => ?_
  refine decodes_ite (fun h => decodes_some ⟨⟨not_not.mp hclass, h⟩, rfl⟩) fun _ => ?_
  refine decodes_ite (fun _ => decodes_some ⟨r12, r7⟩) fun _ => ?_
  refine decodes_ite (fun _ => decodes_some ⟨r17, r12, r7⟩) fun _ => ?_
  refine decodes_ite (fun _ => decodes_key0 _ _ _) fun _ => ?_
  refine decodes_ite (fun _ => decodes_some trivial) fun _ => ?_
  refine decodes_ite (fun _ => decodes_some trivial) fun _ => ?_
  refine decodes_ite (fun _ => decodes_some trivial) fun _ => ?_
  refine decodes_ite (fun _ => decodes_some trivial) fun _ => ?_
  refine decodes_ite (fun _ => decodes_some ⟨r17, count, field_lt (by decide)⟩) fun _ => ?_
  refine decodes_ite (fun _ => decodes_some ⟨r17, count, field_lt (by decide)⟩) fun _ => ?_
  refine decodes_ite (fun _ => decodes_some ⟨r17, r12⟩) fun _ => ?_
  refine decodes_ite (fun _ => decodes_ite (fun _ => decodes_none) fun _ => decodes_some ⟨r17, r12⟩) fun _ => ?_
  refine decodes_ite (fun _ => decodes_some trivial) fun _ => ?_
  refine decodes_ite (fun _ => decodes_some trivial) fun _ => ?_
  refine decodes_ite (fun _ => decodes_some r17) fun _ => ?_
  refine decodes_ite (fun _ => decodes_some trivial) fun _ => ?_
  refine decodes_ite (fun _ => decodes_signExtend _ _) fun _ => ?_
  refine decodes_ite (fun _ => decodes_zeroExtend _ _) fun _ => ?_
  refine decodes_ite (fun _ => decodes_some (field_lt (by decide))) fun _ => ?_
  refine decodes_ite (fun _ => decodes_some ⟨Nat.succ_pos _, field_lt (by decide)⟩) fun _ => ?_
  refine decodes_ite (fun _ => decodes_some ⟨r17, ?_⟩) fun _ => decodes_ite (fun h => decodes_some ⟨?_, ?_⟩)
    fun _ => decodes_none
  · intro hkeep
    cases hbit : hasBit word 0x10000 with
    | true => exact ⟨field word 22 3, by simp, field_lt (by decide)⟩
    | false => rw [hbit] at hkeep; cases hkeep
  · intro d hd
    by_cases hpreload : field word 22 3 = 3
    · rw [if_pos hpreload] at hd; cases hd
    · rw [if_neg hpreload] at hd ⊢
      cases hd
      exact ⟨r17, r12⟩
  · intro hpreload
    have hvariant : field word 22 3 = 3 := by
      have hle : field word 22 3 ≤ 3 := field_le word 22 3
      by_contra hne
      have : field word 22 3 = 0 ∨ field word 22 3 = 1 ∨ field word 22 3 = 2 := by omega
      rcases this with h' | h' | h' <;> rw [h'] at hpreload <;> cases hpreload
    exact ⟨⟨not_not.mp hclass, h, hvariant⟩, by rw [if_pos hvariant]⟩

end Decodes

/-! ## The words of the selects and of the preloads -/

theorem field_ones (word : UInt32) {shift mask : UInt32} (k : Nat) (hshift : shift.toNat < 32)
    (hmask : mask.toNat = 2 ^ k - 1) : field word shift mask = word.toNat / 2 ^ shift.toNat % 2 ^ k := by
  rw [field, UInt32.toNat_and, UInt32.toNat_shiftRight, hmask, Nat.and_two_pow_sub_one_eq_mod,
    Nat.mod_eq_of_lt hshift, Nat.shiftRight_eq_div_pow]

/-- A word of a form below 26 is no device load. -/
theorem deviceLoadDecodes_false {word : UInt32} (h : field word 24 0x1f < 26) :
    c220ScalarDeviceLoadDecodes word = false := by
  have h₁ : field word 24 0x1f = word.toNat / 2 ^ 24 % 2 ^ 5 := field_ones word 5 (by decide) (by decide)
  have h₂ : field word 25 0xf = word.toNat / 2 ^ 25 % 2 ^ 4 := field_ones word 4 (by decide) (by decide)
  have hne : field word 25 0xf ≠ 13 := by omega
  simp [c220ScalarDeviceLoadDecodes, hne]

theorem fromWord_select (architecture : Architecture) {word : UInt32} (h : selects word) :
    ∃ dtypeField, (fromWord architecture word : Outcome ε (Option ScalarInstruction)) =
      .ok (some (scalarSelect dtypeField (key0Registers architecture word).1 (key0Registers architecture word).2.1
        (key0Registers architecture word).2.2)) := by
  obtain ⟨hclass, hop, hlow⟩ := h
  have hload := @deviceLoadDecodes_false word (by omega)
  refine ⟨field word 22 3, ?_⟩
  simp [fromWord, hclass, hop, hlow, hload]

theorem fromWord_preload (architecture : Architecture) {word : UInt32} (h : preloads word) :
    (fromWord architecture word : Outcome ε (Option ScalarInstruction)) =
      .ok (some (scalarKey8 .dcPreload none (field word 12 0x3f) (field word 0 0xfff))) := by
  obtain ⟨hclass, hop, hvariant⟩ := h
  have hload := @deviceLoadDecodes_false word (by omega)
  simp [fromWord, hclass, hop, hvariant, hload, key8Operation]

end ScalarInstruction

end AscendEmulator.Isa
