/-
  AscendEmulator.Isa.Flow — the decoder of flow-control words and what a decoded word resolves to (`isa/flow.rs`).

  Every register index of a decoded flow word is below 32, and the conditions of a compared jump are checked
  before they are evaluated: to resolve or evaluate what `decode` gave does not panic.
-/

import AscendEmulator.Isa.Scalar

namespace AscendEmulator.Isa

open AscendEmulator.Lib AscendEmulator.Lib.Outcome
open AscendEmulator.Memory (Architecture)

variable {ε : Type}

abbrev XRegs := Vector UInt64 32

/-- `xregs[usize::from(index)]`. -/
def xregAt (xregs : XRegs) (index : Nat) : Outcome ε UInt64 := expect xregs[index]?

theorem safe_xregAt (xregs : XRegs) {index : Nat} (h : index < 32) : Safe (xregAt xregs index : Outcome ε UInt64) :=
  safe_expect (by rw [Vector.getElem?_eq_getElem h]; rfl)

/-! ## Values compared

The orders of `i64`, `u64` and of the `f32` that are no NaN are orders of integers. -/

/-- `condition` is in range: the callers have checked it. -/
def compareValues (first second : Int) (condition : Nat) : Outcome ε Bool :=
  match condition with
  | 0 => .ok (first == second)
  | 1 => .ok (first != second)
  | 2 => .ok (decide (first < second))
  | 3 => .ok (decide (first > second))
  | 4 => .ok (decide (first ≥ second))
  | 5 => .ok (decide (first ≤ second))
  | _ => panicked

theorem safe_compareValues (first second : Int) {condition : Nat} (h : condition ≤ 5) :
    Safe (compareValues first second condition : Outcome ε Bool) := by
  rcases condition with _ | _ | _ | _ | _ | _ | n
  case succ.succ.succ.succ.succ.succ => omega
  all_goals exact safe_ok _

/-- `f32::is_nan`, of bits. -/
def f32IsNan (bits : UInt32) : Bool := (bits >>> 23) &&& 0xff == 0xff && bits &&& 0x7fffff != 0

/-- An integer that orders the `f32` of these bits, the two zeros alike. -/
def f32Key (bits : UInt32) : Int :=
  let magnitude : Int := (bits &&& 0x7fffffff).toNat
  if bits >>> 31 = 0 then magnitude else -magnitude

/-! ## Jumps -/

inductive JumpOffsetSource where
  | immediate (encodedWords : Nat)
  | register (index : Nat)
  deriving DecidableEq, Repr

structure JumpTarget where
  pc : UInt64
  word : UInt32
  sourceRegister : Option Nat
  sourceValue : Option UInt64
  effectiveOffsetWords : Int64
  targetPc : UInt64
  deriving DecidableEq

/-- A register's offset has 46 bits. -/
def extendOffset (value : UInt64) : UInt64 :=
  if value &&& 0x200000000000 != 0 then value ||| 0xffffc00000000000 else value

def decodeOffsetSource (word : UInt32) : JumpOffsetSource :=
  if hasBit word 0x20000 then .register (field word 12 0x1f) else .immediate (field word 0 0xffff)

def resolveOffset (pc : UInt64) (word : UInt32) (offsetSource : JumpOffsetSource) (xregs : XRegs) :
    Outcome ε JumpTarget := do
  let (sourceRegister, sourceValue, effectiveOffsetWords) ← (match offsetSource with
    | .immediate encodedWords => .ok (none, none, (Int16.ofNat encodedWords).toInt64)
    | .register index => do
      let value ← xregAt xregs index
      return (some index, some value, (extendOffset value).toInt64) :
        Outcome ε (Option Nat × Option UInt64 × Int64))
  return { pc, word, sourceRegister, sourceValue, effectiveOffsetWords,
           targetPc := pc + effectiveOffsetWords.toUInt64 * 4 }

/-- `UnconditionalJump::decode`. -/
def decodeUnconditionalJump (word : UInt32) : Option JumpOffsetSource :=
  if AicClass.fromWord word ≠ .flowControl ∨ field word 20 0x1f ≠ 0 ∨ field word 25 0xf ≠ 0 then none
  else some (decodeOffsetSource word)

/-- `ConditionalJump::decode`. -/
def decodeConditionalJump (word : UInt32) : Option JumpOffsetSource :=
  if AicClass.fromWord word ≠ .flowControl ∨ field word 20 0x1f ≠ 2 ∨ field word 18 7 ≠ 0 ∨ field word 25 0xf ≠ 0 then
    none
  else some (decodeOffsetSource word)

structure ConditionalJumpTarget where
  pc : UInt64
  word : UInt32
  conditionFlag : UInt64
  branchTaken : Bool
  fallthroughPc : UInt64
  takenTarget : JumpTarget
  targetPc : UInt64
  deriving DecidableEq

/-- `ConditionalJump::resolve`. -/
def resolveConditionalJump (pc : UInt64) (word : UInt32) (offsetSource : JumpOffsetSource) (xregs : XRegs)
    (conditionFlag : UInt64) : Outcome ε ConditionalJumpTarget := do
  let takenTarget ← resolveOffset pc word offsetSource xregs
  let fallthroughPc := pc + 4
  let branchTaken := conditionFlag != 0
  return { pc, word, conditionFlag, branchTaken, fallthroughPc, takenTarget,
           targetPc := if branchTaken then takenTarget.targetPc else fallthroughPc }

def JumpOffsetSource.InRange : JumpOffsetSource → Prop
  | .immediate _ => True
  | .register index => index < 32

theorem decodeOffsetSource_inRange (word : UInt32) : (decodeOffsetSource word).InRange := by
  unfold decodeOffsetSource
  split
  · exact field_lt (by decide)
  · trivial

theorem decodeUnconditionalJump_inRange {word : UInt32} {source : JumpOffsetSource}
    (h : decodeUnconditionalJump word = some source) : source.InRange := by
  unfold decodeUnconditionalJump at h
  split at h
  · cases h
  · cases h; exact decodeOffsetSource_inRange word

theorem decodeConditionalJump_inRange {word : UInt32} {source : JumpOffsetSource}
    (h : decodeConditionalJump word = some source) : source.InRange := by
  unfold decodeConditionalJump at h
  split at h
  · cases h
  · cases h; exact decodeOffsetSource_inRange word

theorem safe_resolveOffset (pc : UInt64) (word : UInt32) {source : JumpOffsetSource} (h : source.InRange)
    (xregs : XRegs) : Safe (resolveOffset pc word source xregs : Outcome ε JumpTarget) := by
  unfold resolveOffset
  refine Safe.bind ?_ fun _ _ => safe_ok _
  cases source with
  | immediate encodedWords => exact safe_ok _
  | register index => exact (safe_xregAt xregs h).bind fun _ _ => safe_ok _

theorem safe_resolveConditionalJump (pc : UInt64) (word : UInt32) {source : JumpOffsetSource} (h : source.InRange)
    (xregs : XRegs) (flag : UInt64) :
    Safe (resolveConditionalJump pc word source xregs flag : Outcome ε ConditionalJumpTarget) :=
  (safe_resolveOffset pc word h xregs).bind fun _ _ => safe_ok _

/-! ## Compared jumps -/

inductive JumpCompareOperand where
  | immediate (encoded : Nat)
  | register (index : Nat)
  deriving DecidableEq, Repr

structure JumpCompare where
  word : UInt32
  dtypeField : Nat
  conditionField : Nat
  firstSourceRegister : Nat
  secondOperand : JumpCompareOperand
  offsetSource : JumpOffsetSource
  deriving DecidableEq

structure JumpCompareTarget where
  pc : UInt64
  word : UInt32
  dtypeField : Nat
  conditionField : Nat
  firstSourceRegister : Nat
  firstSourceValue : UInt64
  secondSourceRegister : Option Nat
  secondSourceValue : UInt64
  branchTaken : Bool
  fallthroughPc : UInt64
  takenTarget : JumpTarget
  targetPc : UInt64
  spr11Value : UInt64
  deriving DecidableEq

inductive JumpCompareError where
  | unsupportedDtype (dtypeField : Nat)
  | unsupportedCondition (conditionField : Nat)
  deriving DecidableEq, Repr

def JumpCompare.decode (word : UInt32) : Option JumpCompare :=
  if word &&& 0xf8000000 ≠ 0x48000000 then none
  else some {
    word
    dtypeField := field word 25 3
    conditionField := field word 18 7
    firstSourceRegister := (field word 21 0xf <<< 1) ||| field word 15 1
    secondOperand := if hasBit word 0x10000 then .register (field word 0 0x1f) else .immediate (field word 0 0x1f)
    offsetSource := if hasBit word 0x20000 then .register (field word 5 0x1f) else .immediate (field word 5 0x3ff) }

/-- `resolve_compare_offset`. -/
def resolveCompareOffset (pc : UInt64) (word : UInt32) (offsetSource : JumpOffsetSource) (xregs : XRegs) :
    Outcome ε JumpTarget := do
  let (sourceRegister, sourceValue, effectiveOffsetWords) ← (match offsetSource with
    | .immediate encodedWords => do
      let signed ← ScalarInstruction.signedField 64 encodedWords 0x200 1024
      return (none, none, Int64.ofInt signed)
    | .register index => do
      let value ← xregAt xregs index
      return (some index, some value, (extendOffset value).toInt64) :
        Outcome ε (Option Nat × Option UInt64 × Int64))
  return { pc, word, sourceRegister, sourceValue, effectiveOffsetWords,
           targetPc := pc + effectiveOffsetWords.toUInt64 * 4 }

def JumpCompare.secondSource (jump : JumpCompare) (xregs : XRegs) : Outcome ε (Option Nat × UInt64) :=
  match jump.secondOperand with
  | .immediate encoded => do
    let signed ← ScalarInstruction.signedField 64 encoded 0x10 32
    return (none, (Int64.ofInt signed).toUInt64)
  | .register index => do
    let value ← xregAt xregs index
    return (some index, value)

def JumpCompare.branchTaken (jump : JumpCompare) (first second : UInt64) : Outcome ε Bool :=
  match jump.dtypeField with
  | 0 => compareValues first.toInt64.toInt second.toInt64.toInt jump.conditionField
  | 1 => compareValues first.toNat second.toNat jump.conditionField
  | 2 =>
    if f32IsNan first.toUInt32 || f32IsNan second.toUInt32 then .ok false
    else compareValues (f32Key first.toUInt32) (f32Key second.toUInt32) jump.conditionField
  | _ => panicked

def JumpCompare.evaluate (jump : JumpCompare) (pc : UInt64) (xregs : XRegs) :
    Outcome JumpCompareError JumpCompareTarget := do
  failIf (decide (2 < jump.dtypeField)) (.unsupportedDtype jump.dtypeField)
  failIf (decide (5 < jump.conditionField)) (.unsupportedCondition jump.conditionField)
  let firstSourceValue ← xregAt xregs jump.firstSourceRegister
  let (secondSourceRegister, secondSourceValue) ← jump.secondSource xregs
  let branchTaken ← jump.branchTaken firstSourceValue secondSourceValue
  let takenTarget ← resolveCompareOffset pc jump.word jump.offsetSource xregs
  let fallthroughPc := pc + 4
  return {
    pc
    word := jump.word
    dtypeField := jump.dtypeField
    conditionField := jump.conditionField
    firstSourceRegister := jump.firstSourceRegister
    firstSourceValue, secondSourceRegister, secondSourceValue, branchTaken, fallthroughPc, takenTarget
    targetPc := if branchTaken then takenTarget.targetPc else fallthroughPc
    spr11Value := if branchTaken then 1 else 0 }

structure JumpCompare.InRange (jump : JumpCompare) : Prop where
  first : jump.firstSourceRegister < 32
  secondRegister : ∀ r, jump.secondOperand = .register r → r < 32
  secondImmediate : ∀ n, jump.secondOperand = .immediate n → n < 32
  offsetRegister : ∀ r, jump.offsetSource = .register r → r < 32
  offsetImmediate : ∀ n, jump.offsetSource = .immediate n → n < 1024

theorem JumpCompare.decode_inRange {word : UInt32} {jump : JumpCompare} (h : JumpCompare.decode word = some jump) :
    jump.InRange := by
  unfold JumpCompare.decode at h
  split at h
  · cases h
  cases h
  constructor
  · have h₁ : field word 21 0xf <<< 1 < 32 := by
      have : field word 21 0xf < 16 := field_lt (by decide)
      rw [Nat.shiftLeft_eq]
      omega
    exact Nat.or_lt_two_pow (n := 5) h₁ (field_lt (by decide))
  · intro r hr
    dsimp only at hr
    split at hr
    · cases hr; exact field_lt (by decide)
    · cases hr
  · intro n hn
    dsimp only at hn
    split at hn
    · cases hn
    · cases hn; exact field_lt (by decide)
  · intro r hr
    dsimp only at hr
    split at hr
    · cases hr; exact field_lt (by decide)
    · cases hr
  · intro n hn
    dsimp only at hn
    split at hn
    · cases hn
    · cases hn; exact field_lt (by decide)

theorem safe_resolveCompareOffset (pc : UInt64) (word : UInt32) {source : JumpOffsetSource}
    (hr : ∀ r, source = .register r → r < 32) (hi : ∀ n, source = .immediate n → n < 1024) (xregs : XRegs) :
    Safe (resolveCompareOffset pc word source xregs : Outcome ε JumpTarget) := by
  unfold resolveCompareOffset
  refine Safe.bind ?_ fun _ _ => safe_ok _
  cases source with
  | immediate n =>
    obtain ⟨offset, h⟩ := @ScalarInstruction.signedField_ok ε 64 n 0x200 1024 (hi n rfl) (by decide)
    exact Safe.bind (by rw [h]; exact safe_ok _) fun _ _ => safe_ok _
  | register index => exact (safe_xregAt xregs (hr index rfl)).bind fun _ _ => safe_ok _

theorem JumpCompare.InRange.safe_secondSource {jump : JumpCompare} (h : jump.InRange) (xregs : XRegs) :
    Safe (jump.secondSource xregs : Outcome ε (Option Nat × UInt64)) := by
  unfold JumpCompare.secondSource
  split
  case h_1 n hn =>
    obtain ⟨offset, ho⟩ := @ScalarInstruction.signedField_ok ε 64 n 0x10 32 (h.secondImmediate n hn) (by decide)
    exact Safe.bind (by rw [ho]; exact safe_ok _) fun _ _ => safe_ok _
  case h_2 index hindex => exact (safe_xregAt xregs (h.secondRegister index hindex)).bind fun _ _ => safe_ok _

theorem JumpCompare.safe_branchTaken {jump : JumpCompare} (hd : jump.dtypeField ≤ 2) (hc : jump.conditionField ≤ 5)
    (first second : UInt64) : Safe (jump.branchTaken first second : Outcome ε Bool) := by
  have hcases : jump.dtypeField = 0 ∨ jump.dtypeField = 1 ∨ jump.dtypeField = 2 := by omega
  unfold JumpCompare.branchTaken
  rcases hcases with h | h | h
  · rw [h]
    exact safe_compareValues _ _ hc
  · rw [h]
    exact safe_compareValues _ _ hc
  · rw [h]
    show Safe (ite (f32IsNan first.toUInt32 || f32IsNan second.toUInt32) _ _)
    split
    · exact safe_ok false
    · exact safe_compareValues _ _ hc

theorem JumpCompare.InRange.safe_evaluate {jump : JumpCompare} (h : jump.InRange) (pc : UInt64) (xregs : XRegs) :
    Safe (jump.evaluate pc xregs) := by
  refine (safe_failIf _ _).bind fun _ hd => ?_
  refine (safe_failIf _ _).bind fun _ hc => ?_
  have hd : jump.dtypeField ≤ 2 := not_lt.mp (of_decide_eq_false (failIf_ok.mp hd))
  have hc : jump.conditionField ≤ 5 := not_lt.mp (of_decide_eq_false (failIf_ok.mp hc))
  refine (safe_xregAt xregs h.first).bind fun _ _ => ?_
  refine (h.safe_secondSource xregs).bind fun _ _ => ?_
  refine (JumpCompare.safe_branchTaken hd hc _ _).bind fun _ _ => ?_
  exact (safe_resolveCompareOffset pc jump.word h.offsetRegister h.offsetImmediate xregs).bind fun _ _ => safe_ok _

/-! ## Barriers, cache maintenance, the end -/

structure FlowNop where
  pc : UInt64
  word : UInt32
  targetPc : UInt64
  deriving DecidableEq

def FlowNop.decode (pc : UInt64) (word : UInt32) : Option FlowNop :=
  if AicClass.fromWord word ≠ .flowControl ∨ field word 27 3 = 1 ∨ field word 21 0xf ≠ 10 then none
  else some ⟨pc, word, pc + 4⟩

structure FlowEnd where
  pc : UInt64
  word : UInt32
  sequentialPc : UInt64
  deriving DecidableEq

def FlowEnd.decode (pc : UInt64) (word : UInt32) : Option FlowEnd :=
  if AicClass.fromWord word ≠ .flowControl ∨ field word 21 0xf ≠ 11 then none else some ⟨pc, word, pc + 4⟩

structure DcciInstruction where
  word : UInt32
  sourceRegister : Nat
  entireCache : Bool
  operationField : Nat
  deriving DecidableEq

structure DcciStep where
  pc : UInt64
  word : UInt32
  sourceRegister : Nat
  sourceValue : UInt64
  entireCache : Bool
  operationField : Nat
  effectiveAddress : UInt64
  deriving DecidableEq

def DcciInstruction.decode (word : UInt32) : Option DcciInstruction :=
  if AicClass.fromWord word ≠ .flowControl ∨ field word 25 0xf = 1 ∨ field word 21 0xf ≠ 1 ∨ field word 18 7 ≠ 3 then
    none
  else some ⟨word, field word 12 0x1f, hasBit word 0x20000, field word 0 3⟩

def DcciInstruction.resolve (instruction : DcciInstruction) (pc : UInt64) (xregs : XRegs) : Outcome ε DcciStep := do
  let sourceValue ← xregAt xregs instruction.sourceRegister
  return {
    pc
    word := instruction.word
    sourceRegister := instruction.sourceRegister
    sourceValue
    entireCache := instruction.entireCache
    operationField := instruction.operationField
    effectiveAddress := if instruction.entireCache then 0 else sourceValue }

theorem DcciInstruction.safe_resolve {word : UInt32} {instruction : DcciInstruction}
    (h : DcciInstruction.decode word = some instruction) (pc : UInt64) (xregs : XRegs) :
    Safe (instruction.resolve pc xregs : Outcome ε DcciStep) := by
  unfold DcciInstruction.decode at h
  split at h
  · cases h
  · cases h
    exact (safe_xregAt xregs (field_lt (by decide))).bind fun _ _ => safe_ok _

structure DsbStep where
  pc : UInt64
  word : UInt32
  scopeField : Nat
  deriving DecidableEq

def DsbStep.decode (pc : UInt64) (word : UInt32) : Option DsbStep :=
  if AicClass.fromWord word ≠ .flowControl ∨ field word 21 0xf ≠ 14 then none else some ⟨pc, word, field word 16 7⟩

inductive PipelineBarrierScope where
  | vector
  | cube
  | mte1
  | mte2
  | mte3
  | fix
  | all
  deriving DecidableEq, Repr

structure PipelineBarrierStep where
  pc : UInt64
  word : UInt32
  scope : PipelineBarrierScope
  deriving DecidableEq

def PipelineBarrierStep.scopeOf (architecture : Architecture) (word : UInt32) : Option PipelineBarrierScope :=
  if word = 0x40e01800 then some .all
  else
    match architecture with
    | .dav3510 => none
    | .dav2201 =>
      match word.toNat with
      | 0x40e00400 => some .vector
      | 0x40e00800 => some .cube
      | 0x40e00c00 => some .mte1
      | 0x40e01000 => some .mte2
      | 0x40e01400 => some .mte3
      | 0x40e02800 => some .fix
      | _ => none

def PipelineBarrierStep.decode (architecture : Architecture) (pc : UInt64) (word : UInt32) :
    Option PipelineBarrierStep :=
  (PipelineBarrierStep.scopeOf architecture word).map fun scope => ⟨pc, word, scope⟩

end AscendEmulator.Isa
