/-
  AscendEmulator.Common.Scalar.Safety — which words make the scalar machine panic.

  The executors index `xregs` directly with registers that a five-bit field bounds, or through `get`; two do not.
  A select on Dav2201 has six-bit registers and indexes with them, once SPR 11 has a value; a preload of the data
  cache has a six-bit source on both architectures. These words, with a register past X31, are the only ones
  that panic (`executeInstruction_safe_iff`), whatever the machine, the PC and the bus.
-/

import AscendEmulator.Common.Scalar.Stepper

namespace AscendEmulator.Common.Scalar

open AscendEmulator.Lib AscendEmulator.Isa
open AscendEmulator.Memory (Architecture)

namespace ScalarMachine

variable {β E ε α : Type} {architecture : Architecture} {word : UInt32}

/-! ## Registers -/

theorem safe_xreg {register : Nat} (h : register < 32) : Exec.Safe (xreg register : Exec ScalarMachine ε UInt64) :=
  fun m => safe_xregAt m.xregs h

theorem safe_putXreg {register : Nat} (h : register < 32) (value : UInt64) :
    Exec.Safe (putXreg register value : Exec ScalarMachine ε Unit) := by
  intro m
  unfold Exec.SafeAt putXreg
  rw [dif_pos h]
  exact Outcome.safe_ok ()

theorem safe_setSprValue (index : Nat) (value : UInt64) : Exec.Safe (setSprValue index value) := by
  intro m
  unfold Exec.SafeAt setSprValue
  split
  · exact Outcome.safe_ok ()
  · exact Outcome.safe_fail _

theorem safe_putSpr {spr : Nat} (h : spr < 243) (value : UInt64) :
    Exec.Safe (putSpr spr value : Exec ScalarMachine ε Unit) := by
  intro m
  unfold Exec.SafeAt putSpr
  rw [dif_pos h]
  exact Outcome.safe_ok ()

theorem safe_writeExistingXreg (register : Nat) (value : UInt64) :
    Exec.Safe (writeExistingXreg register value : Exec ScalarMachine ε Unit) := fun _ => Outcome.safe_ok ()

/-! ## What a word decodes to -/

theorem decode_apply (m : ScalarMachine) (word : UInt32) :
    ∃ hint, (decode word : Exec ScalarMachine ε _) m = (.ok hint, m) ∧
      (∀ i ∈ hint, i.Encoded m.architecture word) := by
  obtain ⟨hint, h, he⟩ := ScalarInstruction.fromWord_decodes (ε := ε) m.architecture word
  exact ⟨hint, by rw [← h]; rfl, he⟩

/-- What follows a decoding may rely on the encoding. -/
theorem safe_decode_bind {k : Option ScalarInstruction → Exec ScalarMachine ε α}
    (h : ∀ architecture hint, (∀ i ∈ hint, i.Encoded architecture word) → Exec.Safe (k hint)) :
    Exec.Safe (decode word >>= k) := by
  intro m
  obtain ⟨hint, hd, he⟩ := decode_apply (ε := ε) m word
  exact (Exec.safeAt_bind_ok hd).mpr (h m.architecture hint he m)

theorem onMachine_decode_apply (s : ScalarMachine × β) (word : UInt32) :
    ∃ hint, (onMachine (decode word) : OnBus β ε _) s = (.ok hint, s) ∧
      (ScalarInstruction.fromWord s.1.architecture word : Outcome ε _) = .ok hint ∧
      (∀ i ∈ hint, i.Encoded s.1.architecture word) := by
  obtain ⟨hint, h, he⟩ := ScalarInstruction.fromWord_decodes (ε := ε) s.1.architecture word
  refine ⟨hint, ?_, h, he⟩
  show (Outcome.mapErr id (ScalarInstruction.fromWord s.1.architecture word), (s.1, s.2)) = _
  rw [h]
  rfl

theorem safe_onMachine_decode_bind {k : Option ScalarInstruction → OnBus β ε α}
    (h : ∀ architecture hint, (∀ i ∈ hint, i.Encoded architecture word) → Exec.Safe (k hint)) :
    Exec.Safe (onMachine (decode word) >>= k) := by
  intro s
  obtain ⟨hint, hd, -, he⟩ := onMachine_decode_apply (ε := ε) s word
  exact (Exec.safeAt_bind_ok hd).mpr (h s.1.architecture hint he s)

/-! ## Instructions without memory -/

theorem safe_evaluateIntegerCompare (dtypeField conditionField : Nat) (first second : UInt64) :
    Outcome.Safe (evaluateIntegerCompare dtypeField conditionField first second : Outcome ε _) := by
  unfold evaluateIntegerCompare
  split
  · exact Outcome.safe_ok none
  · have h : conditionField ≤ 5 := not_lt.mp ‹_›
    split
    · exact (safe_compareValues _ _ h).map
    · exact (safe_compareValues _ _ h).map
    · exact Outcome.safe_ok none

theorem safe_executeCompareWord (pc : UInt64) (word : UInt32) : Exec.Safe (executeCompareWord pc word) := by
  refine safe_decode_bind fun architecture hint he => ?_
  split
  · obtain ⟨hfirst, hsecond⟩ := he _ rfl
    refine (safe_xreg hfirst).bind fun _ => (safe_xreg hsecond).bind fun _ => ?_
    refine (Exec.safe_outcome (safe_evaluateIntegerCompare _ _ _ _)).bind fun _ => ?_
    refine (Exec.safe_okOr _ _).bind fun _ => (Exec.safe_query _).bind fun _ => ?_
    exact (safe_setSprValue _ _).bind fun _ => Exec.safe_pure _
  · exact Exec.safe_fail _

theorem safe_executeCompareRegisterWord (pc : UInt64) (word : UInt32) :
    Exec.Safe (executeCompareRegisterWord pc word) := by
  refine safe_decode_bind fun architecture hint he => ?_
  split
  · obtain ⟨hdestination, hfirst, hsecond⟩ := he _ rfl
    refine (safe_xreg hfirst).bind fun _ => (safe_xreg hsecond).bind fun _ => ?_
    refine (Exec.safe_outcome (safe_evaluateIntegerCompare _ _ _ _)).bind fun _ => ?_
    refine (Exec.safe_okOr _ _).bind fun _ => (safe_xreg hdestination).bind fun _ => ?_
    exact (safe_putXreg hdestination _).bind fun _ => Exec.safe_pure _
  · exact Exec.safe_fail _

theorem safe_executeCompareImmediateWord (pc : UInt64) (word : UInt32) :
    Exec.Safe (executeCompareImmediateWord pc word) := by
  refine safe_decode_bind fun architecture hint he => ?_
  split
  · obtain ⟨hsource, himmediate⟩ := he _ rfl
    split
    · exact Exec.safe_fail _
    refine (safe_xreg hsource).bind fun _ => ?_
    obtain ⟨offset, ho⟩ := @ScalarInstruction.signedField_ok ScalarMachineError 16 _ 0x800 4096 himmediate (by decide)
    refine (Exec.safe_outcome (by rw [ho]; exact Outcome.safe_ok _)).bind fun _ => ?_
    refine (Exec.safe_outcome (safe_compareValues _ _ (not_lt.mp ‹_›))).bind fun _ => ?_
    refine (Exec.safe_query _).bind fun _ => ?_
    exact (safe_setSprValue _ _).bind fun _ => Exec.safe_pure _
  · exact Exec.safe_fail _

theorem safe_sprSource (pc : UInt64) (spr : Nat) (m : ScalarMachine) : Outcome.Safe (sprSource pc spr m) := by
  unfold sprSource
  split
  · exact Outcome.safe_ok _
  · split
    · exact (Outcome.safe_okOr _ _).map
    · exact (Outcome.safe_okOr _ _).map

theorem safe_executeSprReadWord (pc : UInt64) (word : UInt32) : Exec.Safe (executeSprReadWord pc word) := by
  refine safe_decode_bind fun architecture hint he => ?_
  split
  · have hdestination := he _ rfl
    refine (Exec.safe_query _).bind fun _ => ?_
    split
    · exact Exec.safe_fail _
    refine (Exec.safe_query _).bind fun m => (Exec.safe_outcome (safe_sprSource pc _ m)).bind fun _ => ?_
    refine (safe_xreg hdestination).bind fun _ => ?_
    exact (safe_putXreg hdestination _).bind fun _ => Exec.safe_pure _
  · exact Exec.safe_fail _

theorem sprMask_lt {spr : Nat} {mask : UInt64} (h : sprMask architecture spr = some mask) : spr < 243 := by
  unfold sprMask at h
  split at h <;> first | omega | cases h

theorem safe_executeSprWord (pc : UInt64) (word : UInt32) : Exec.Safe (executeSprWord pc word) := by
  refine safe_decode_bind fun architecture hint he => ?_
  split
  · refine (Exec.safe_query _).bind fun _ => Exec.safe_okOr_bind fun mask hmask => ?_
    have hspr := sprMask_lt hmask
    refine (Exec.safe_query _).bind fun _ => (Exec.safe_okOr _ _).bind fun _ => Exec.safe_query_bind fun m => ?_
    rw [Vector.getElem?_eq_getElem hspr]
    exact ((safe_putSpr hspr _).bind fun _ => Exec.safe_pure _) m
  · exact Exec.safe_fail _

theorem safe_executeJumpCompareWord (pc : UInt64) (word : UInt32) : Exec.Safe (executeJumpCompareWord pc word) := by
  refine Exec.safe_okOr_bind fun jump hjump => (Exec.safe_query _).bind fun xregs => ?_
  have hsafe := (JumpCompare.decode_inRange hjump).safe_evaluate pc xregs
  refine (Exec.safe_outcome hsafe.mapErr).bind fun target => ?_
  exact (safe_setSprValue _ _).bind fun _ => Exec.safe_pure _

theorem safe_executeFlowWord (pc : UInt64) (word : UInt32) : Exec.Safe (executeFlowWord pc word) := by
  unfold executeFlowWord
  split
  · exact Exec.safe_pure _
  split
  · exact Exec.safe_pure _
  split
  case h_1 source hsource =>
    refine (Exec.safe_query _).bind fun xregs => ?_
    have hsafe := safe_resolveOffset (ε := ScalarMachineError) pc word (decodeUnconditionalJump_inRange hsource) xregs
    exact (Exec.safe_outcome hsafe).bind fun _ => Exec.safe_pure _
  split
  case h_1 source hsource =>
    refine (Exec.safe_query _).bind fun _ => (Exec.safe_okOr _ _).bind fun condition => ?_
    refine (Exec.safe_query _).bind fun xregs => ?_
    have hsafe := safe_resolveConditionalJump (ε := ScalarMachineError) pc word
      (decodeConditionalJump_inRange hsource) xregs condition
    exact (Exec.safe_outcome hsafe).bind fun _ => Exec.safe_pure _
  split
  · exact (safe_executeJumpCompareWord pc word).map
  · exact Exec.safe_fail _

/-! ## Instructions between registers -/

/-- The outcome of an instruction writes a register that exists. -/
abbrev Writes (o : Outcome ScalarMachineError ScalarOutcome) : Prop :=
  Outcome.Ensures (fun r => r.destinationRegister < 32) o

theorem getXreg_lt {m : ScalarMachine} {pc : UInt64} {register : Nat} {value : UInt64}
    (h : getXreg m pc word register = .ok value) : register < 32 := by
  obtain ⟨hlt, -⟩ := Vector.getElem?_eq_some_iff.mp (Outcome.okOr_ok.mp h)
  exact hlt

theorem safe_getXreg (m : ScalarMachine) (pc : UInt64) (word : UInt32) (register : Nat) :
    Outcome.Safe (getXreg m pc word register) := Outcome.safe_okOr _ _

theorem safe_unarySource (m : ScalarMachine) (pc : UInt64) (word : UInt32) (destination source : Nat) :
    Outcome.Safe (unarySource m pc word destination source) :=
  (safe_getXreg m pc word source).bind fun _ _ => (safe_getXreg m pc word destination).bind fun _ _ => Outcome.safe_ok _

theorem unarySource_lt {m : ScalarMachine} {pc : UInt64} {destination source : Nat} {value : UInt64}
    (h : unarySource m pc word destination source = .ok value) : destination < 32 := by
  obtain ⟨_, _, h⟩ := Outcome.bind_ok.mp h
  obtain ⟨_, hdestination, _⟩ := Outcome.bind_ok.mp h
  exact getXreg_lt hdestination

theorem safe_key0Value (m : ScalarMachine) (operation : ScalarKey0Operation) (dtypeField : Nat) {destination : Nat}
    (h : destination < 32) (first second : UInt64) :
    Outcome.Safe (key0Value m operation dtypeField destination first second : Outcome ε _) := by
  unfold key0Value
  split
  case h_4 => exact (safe_xregAt m.xregs h).bind fun _ _ => Outcome.safe_ok _
  case h_5 =>
    dsimp only
    split
    · exact Outcome.safe_ok _
    · split
      · exact Outcome.safe_ok _
      · exact (Word.safe_div ‹_› ‹_›).map
  case h_7 =>
    dsimp only
    split
    · exact Outcome.safe_ok _
    · split
      · exact Outcome.safe_ok _
      · exact (Word.safe_rem ‹_› ‹_›).map
  all_goals exact Outcome.safe_ok _

/-- A count of a shift is below 64. -/
theorem ensures_shiftCount (m : ScalarMachine) {count : Option Nat} {immediate : Nat} (hcount : ∀ r ∈ count, r < 32)
    (himmediate : immediate < 64) :
    Outcome.Ensures (fun r => r.2.2 < 64) (shiftCount m count immediate : Outcome ε _) := by
  cases count with
  | none => exact Outcome.ensures_ok himmediate
  | some register =>
    refine (safe_xregAt m.xregs (hcount register rfl)).ensures_bind fun value _ => Outcome.ensures_ok ?_
    show (value &&& 0x3f).toNat < 64
    rw [UInt64.toNat_and]
    exact Nat.lt_of_le_of_lt Nat.and_le_right (by decide)

theorem safe_bitCountValue (operation : ScalarBitCountOperation) (value : UInt64) :
    Outcome.Safe (bitCountValue operation value : Outcome ε _) := by
  unfold bitCountValue
  split
  case h_4 =>
    split
    · exact Outcome.safe_ok _
    · split
      · exact (Word.safe_plainSubNat (Word.leadingOnes_pos ‹_›)).map
      · exact (Word.safe_plainSubNat (Word.leadingZeros_pos (not_not.mp ‹_›))).map
  all_goals exact Outcome.safe_ok _

theorem safe_bitMask {width position : Nat} (hwidth : width < 64) (hposition : position < 64) :
    Outcome.Safe (bitMask width position : Outcome ε UInt64) := by
  refine (Word.safe_shl 1 hwidth).bind fun bit hbit => ?_
  refine (Word.safe_plainSubWord (Word.one_le_shl hbit)).bind fun ones _ => ?_
  exact Word.safe_shl ones hposition

theorem safe_shiftRightValue (dtypeField : Nat) (prior : UInt64) {shift : Nat} (h : shift < 64) :
    Outcome.Safe (shiftRightValue dtypeField prior shift : Outcome ε UInt64) := by
  unfold shiftRightValue
  split
  · exact (Word.safe_sar _ h).map
  · exact Word.safe_shr prior h

/-- The width of an inserted immediate is from one to eight bits. -/
theorem ensures_insertWidth (extended : Bool) (immediate : Nat) :
    Outcome.Ensures (fun width => 0 < width ∧ width ≤ 8) (insertWidth extended immediate : Outcome ε Nat) := by
  cases extended with
  | true => exact Outcome.ensures_ok (by decide)
  | false =>
    refine (Word.safe_plainSubNat (Word.leadingZerosU8_le immediate)).ensures_bind fun length hlength => ?_
    obtain rfl := Word.plainSubNat_ok hlength
    exact Outcome.ensures_ok (by dsimp only [Function.comp]; omega)

/-- Past a check that returns an error, the condition is false. -/
theorem writes_failIf_bind {c : Bool} {e : ScalarMachineError} {f : Unit → Outcome ScalarMachineError ScalarOutcome}
    (h : c = false → Writes (f ())) : Writes (Outcome.failIf c e >>= f) :=
  (Outcome.safe_failIf c e).ensures_bind fun _ hc => h (Outcome.failIf_ok.mp hc)

/-- A form of one source whose registers have been checked writes the register it has checked. -/
theorem writes_unarySource_bind {m : ScalarMachine} {pc : UInt64} {destination source : Nat}
    {f : UInt64 → Outcome ScalarMachineError ScalarOutcome}
    (h : destination < 32 → ∀ value, Writes (f value)) :
    Writes (unarySource m pc word destination source >>= f) :=
  (safe_unarySource m pc word destination source).ensures_bind fun value hvalue => h (unarySource_lt hvalue) value

theorem writes_shiftCount_bind {m : ScalarMachine} {count : Option Nat} {immediate : Nat}
    {f : Option Nat × Option UInt64 × Nat → Outcome ScalarMachineError ScalarOutcome}
    (hcount : ∀ r ∈ count, r < 32) (himmediate : immediate < 64) (h : ∀ r, r.2.2 < 64 → Writes (f r)) :
    Writes (shiftCount m count immediate >>= f) := by
  obtain ⟨hsafe, hlt⟩ := ensures_shiftCount (ε := ScalarMachineError) m hcount himmediate
  exact hsafe.ensures_bind fun r hr => h r (hlt r hr)

theorem writes_evaluateImmediate {m : ScalarMachine} {pc : UInt64} {operation : ScalarKey8Operation}
    {destination source immediate : Nat} {sourceValue : UInt64}
    {f : ScalarIntegerOutcome → Outcome ScalarMachineError ScalarOutcome}
    (h : ∀ r : ScalarIntegerOutcome, r.destinationRegister = destination → Writes (f r)) :
    Writes (Outcome.mapErr .arithmetic (evaluateScalarIntegerImmediate
      (.scalarKey8 operation (some destination) source immediate) sourceValue pc m.spr2) >>= f) := by
  have key : Outcome.Ensures (fun r : ScalarIntegerOutcome => r.destinationRegister = destination)
      (evaluateScalarIntegerImmediate (.scalarKey8 operation (some destination) source immediate) sourceValue pc
        m.spr2) := by
    refine (Outcome.safe_failIf _ _).ensures_bind fun _ himmediate => ?_
    have himmediate : immediate < 4096 := by
      have := of_decide_eq_false (Outcome.failIf_ok.mp himmediate)
      omega
    refine Outcome.Safe.ensures_bind ?_ fun r _ => Outcome.ensures_ok rfl
    cases operation with
    | multiplyImmediate =>
      obtain ⟨offset, ho⟩ :=
        @ScalarInstruction.signedField_ok ScalarIntegerError 64 _ 0x800 0x1000 himmediate (by decide)
      exact Outcome.Safe.bind (by rw [ho]; exact Outcome.safe_ok _) fun _ _ => Outcome.safe_ok _
    | dcPreload => exact Outcome.safe_fail _
    | addImmediate => exact Outcome.safe_ok _
    | subtractImmediate => exact Outcome.safe_ok _
  exact key.1.mapErr.ensures_bind fun r hr => h r (key.2 r (Outcome.mapErr_ok.mp hr))

/-- An encoded instruction is evaluated without a panic, to a write of a register that exists. -/
theorem writes_evaluate (m : ScalarMachine) (pc : UInt64) {hint : ScalarInstruction}
    (h : hint.Encoded architecture word) : Writes (evaluate m pc word hint) := by
  unfold evaluate
  dsimp only
  split
  case h_1 =>
    obtain ⟨hdestination, himmediate⟩ := h
    refine (Word.safe_plainMul (by omega)).ensures_bind fun _ _ => Outcome.ensures_ok hdestination
  case h_2 =>
    refine (safe_getXreg m pc word _).ensures_bind fun first _ => ?_
    refine (safe_getXreg m pc word _).ensures_bind fun second _ => ?_
    refine (safe_getXreg m pc word _).ensures_bind fun _ hdestination => ?_
    have hdestination := getXreg_lt hdestination
    refine (safe_key0Value m _ _ hdestination first second).ensures_bind fun _ _ => ?_
    exact (Outcome.safe_okOr _ _).ensures_bind fun _ _ => Outcome.ensures_ok hdestination
  case h_3 =>
    obtain ⟨hdestination, hcount, himmediate⟩ := h
    refine writes_failIf_bind fun _ => (safe_xregAt m.xregs hdestination).ensures_bind fun prior _ => ?_
    refine writes_shiftCount_bind hcount himmediate fun r hr => ?_
    exact (Word.safe_shl prior hr).ensures_bind fun _ _ => Outcome.ensures_ok hdestination
  case h_4 =>
    obtain ⟨hdestination, hcount, himmediate⟩ := h
    refine writes_failIf_bind fun _ => (safe_xregAt m.xregs hdestination).ensures_bind fun prior _ => ?_
    refine writes_shiftCount_bind hcount himmediate fun r hr => ?_
    exact (safe_shiftRightValue _ prior hr).ensures_bind fun _ _ => Outcome.ensures_ok hdestination
  case h_5 =>
    obtain ⟨hdestination, hsource⟩ := h
    refine (safe_xregAt m.xregs hsource).ensures_bind fun value _ => ?_
    exact (safe_bitCountValue _ value).ensures_bind fun _ _ => Outcome.ensures_ok hdestination
  case h_6 =>
    obtain ⟨hdestination, hsource⟩ := h
    exact (safe_xregAt m.xregs hsource).ensures_bind fun _ _ => Outcome.ensures_ok hdestination
  case h_7 => exact writes_unarySource_bind fun hdestination _ => Outcome.ensures_ok hdestination
  case h_8 =>
    exact writes_failIf_bind fun _ => writes_unarySource_bind fun hdestination _ => Outcome.ensures_ok hdestination
  case h_9 =>
    exact writes_failIf_bind fun _ => writes_unarySource_bind fun hdestination _ => Outcome.ensures_ok hdestination
  case h_10 =>
    exact writes_failIf_bind fun _ => writes_unarySource_bind fun hdestination _ => Outcome.ensures_ok hdestination
  case h_11 =>
    exact writes_failIf_bind fun _ => writes_unarySource_bind fun hdestination _ => Outcome.ensures_ok hdestination
  case h_12 => exact writes_unarySource_bind fun hdestination _ => Outcome.ensures_ok hdestination
  case h_13 =>
    obtain ⟨hpos, hle⟩ := h
    refine writes_unarySource_bind fun hdestination value => ?_
    refine (Word.safe_plainSubNat hle).ensures_bind fun shift hshift => ?_
    have hlt : shift < 64 := by
      obtain rfl := Word.plainSubNat_ok hshift
      omega
    refine (Word.safe_shl value hlt).ensures_bind fun shifted _ => ?_
    exact (Word.safe_sar _ hlt).ensures_bind fun _ _ => Outcome.ensures_ok hdestination
  case h_14 =>
    obtain ⟨hpos, hle⟩ := h
    refine (safe_getXreg m pc word _).ensures_bind fun source _ => ?_
    refine (safe_getXreg m pc word _).ensures_bind fun _ hdestination => ?_
    refine writes_failIf_bind fun hfits => ?_
    have hfits := not_lt.mp (of_decide_eq_false hfits)
    refine (safe_bitMask (by omega) (by omega)).ensures_bind fun _ _ => ?_
    exact (Word.safe_shl source (by omega)).ensures_bind fun _ _ => Outcome.ensures_ok (getXreg_lt hdestination)
  case h_15 =>
    refine (safe_getXreg m pc word _).ensures_bind fun _ hdestination => ?_
    refine (ensures_insertWidth _ _).1.ensures_bind fun width hwidth => ?_
    obtain ⟨hpos, hle⟩ := (ensures_insertWidth (ε := ScalarMachineError) _ _).2 width hwidth
    refine writes_failIf_bind fun hfits => ?_
    have hfits := not_lt.mp (of_decide_eq_false hfits)
    refine (safe_bitMask (by omega) (by omega)).ensures_bind fun _ _ => ?_
    exact (Word.safe_shl _ (by omega)).ensures_bind fun _ _ => Outcome.ensures_ok (getXreg_lt hdestination)
  case h_16 =>
    refine (safe_getXreg m pc word _).ensures_bind fun value _ => ?_
    refine (safe_getXreg m pc word _).ensures_bind fun _ hdestination => ?_
    have hlt : (value &&& 63).toNat < 64 := by
      rw [UInt64.toNat_and]
      exact Nat.lt_of_le_of_lt Nat.and_le_right (by decide)
    exact (Word.safe_shl 1 hlt).ensures_bind fun _ _ => Outcome.ensures_ok (getXreg_lt hdestination)
  case h_17 operation destination immediate lane =>
    obtain ⟨hdestination, hlane⟩ := h
    refine (safe_xregAt m.xregs hdestination).ensures_bind fun prior _ => ?_
    cases operation with
    | moveImmediate => exact Outcome.ensures_ok hdestination
    | moveKeep =>
      obtain ⟨l, rfl, hl⟩ := hlane rfl
      refine (Word.safe_shl 0xffff (by omega)).ensures_bind fun _ _ => ?_
      exact (Word.safe_shl _ (by omega)).ensures_bind fun _ _ => Outcome.ensures_ok hdestination
  case h_18 operation destination source immediate =>
    obtain ⟨hdestination, hsource⟩ := h.1 destination rfl
    refine (safe_xregAt m.xregs hsource).ensures_bind fun _ _ => writes_evaluateImmediate fun r hr => ?_
    exact Outcome.ensures_ok (by rw [hr]; exact hdestination)
  case h_19 => exact Outcome.ensures_fail _ _

theorem safe_executeWord (pc : UInt64) (word : UInt32) : Exec.Safe (executeWord pc word) := by
  refine safe_decode_bind fun architecture hint he => Exec.safe_okOr_bind fun i hi => ?_
  refine (Exec.safe_query _).bind fun m => ?_
  obtain ⟨hsafe, hwrites⟩ := writes_evaluate m pc (he i hi)
  intro s
  refine Exec.SafeAt.bind (Exec.safe_outcome hsafe s) fun r s' hr => ?_
  have hdestination := hwrites r (congrArg Prod.fst hr)
  refine Exec.Safe.bind (safe_xreg hdestination) (fun _ => ?_) s'
  exact (safe_putXreg hdestination _).bind fun _ => (Exec.safe_update _).bind fun _ => Exec.safe_pure _

/-! ## Loads and stores -/

theorem safe_onMachine {c : Exec ScalarMachine ε α} (h : Exec.Safe c) : Exec.Safe (onMachine c : OnBus β ε α) :=
  Exec.safe_first h

theorem safe_busCall (f : E → ε) (call : β → Except E α × β) : Exec.Safe (busCall f call) := by
  intro s
  unfold Exec.SafeAt busCall
  split
  · exact Outcome.safe_ok _
  · exact Outcome.safe_fail _

theorem safe_slice {bytes : List UInt8} {width : Nat} (h : width ≤ bytes.length) :
    Outcome.Safe (slice bytes width : Outcome ε _) := Outcome.safe_expect (by rw [if_pos h]; rfl)

theorem safe_lowBytes (value : UInt64) {width : Nat} (h : width ≤ 8) :
    Outcome.Safe (slice (Word.toLeBytes value) width : Outcome ε _) :=
  safe_slice (by simpa [Word.toLeBytes] using h)

theorem safe_immediateBytes (value : ScalarStoreImmediateValue) {width : Nat} (h : width ≤ 8) :
    Outcome.Safe (slice (immediateBytes value) width : Outcome ε _) :=
  safe_slice (by cases value <;> exact h)

theorem safe_busRead (bus : ScalarMemoryBus β E) (address : UInt64) {width : Nat} (h : width ≤ 8) :
    Exec.Safe (busRead bus address width) := by
  refine (Exec.safe_outcome (safe_slice h)).bind fun _ => ?_
  exact (safe_busCall _ _).bind fun _ => Exec.safe_pure _

theorem safe_busWrite (bus : ScalarMemoryBus β E) (address : UInt64) (bytes : List UInt8) :
    Exec.Safe (busWrite bus address bytes) := safe_busCall _ _

theorem safe_loadedValue {signExtend : Bool} {width : Nat} (hpos : 0 < width) (hle : width ≤ 8) (bytes : List UInt8) :
    Outcome.Safe (loadedValue signExtend width bytes : Outcome ε UInt64) := by
  unfold loadedValue
  cases signExtend with
  | false => exact Outcome.safe_ok _
  | true =>
    refine (Word.safe_plainSubNat (by omega)).bind fun shift hshift => ?_
    have hlt : shift < 64 := by
      obtain rfl := Word.plainSubNat_ok hshift
      omega
    exact (Word.safe_shl _ hlt).bind fun _ _ => (Word.safe_sar _ hlt).map

theorem safe_updateBase {register : Nat} (h : register < 32) (base : Option UInt64) :
    Exec.Safe (updateBase register base : OnBus β ε Unit) := by
  cases base with
  | none => exact Exec.safe_pure ()
  | some base => exact safe_onMachine (safe_putXreg h base)

theorem safe_xregOrZero (register : Nat) : Exec.Safe (xregOrZero register : Exec ScalarMachine ε UInt64) :=
  Exec.safe_query _

/-- A load or store of a word, by its operation. -/
theorem safe_access (bus : ScalarMemoryBus β E) (operation : ScalarLoadStoreOperation) (address value : UInt64)
    {width : Nat} (signExtend : Bool) (hpos : 0 < width) (hle : width ≤ 8) :
    Exec.Safe (match operation with
      | .load => do
        let bytes ← busRead bus address width
        let value ← Exec.outcome (loadedValue signExtend width bytes)
        return (bytes, value)
      | .store => do
        let low ← Exec.outcome (slice (Word.toLeBytes value) width)
        busWrite bus address low
        return (padded low, value) : OnBus β (ScalarMemoryExecutionError E) (List UInt8 × UInt64)) := by
  cases operation with
  | load =>
    refine (safe_busRead bus address hle).bind fun bytes => ?_
    exact (Exec.safe_outcome (safe_loadedValue hpos hle bytes)).bind fun _ => Exec.safe_pure _
  | store =>
    refine (Exec.safe_outcome (safe_lowBytes value hle)).bind fun low => ?_
    exact (safe_busWrite bus address low).bind fun _ => Exec.safe_pure _

theorem safe_executeMemoryWord (bus : ScalarMemoryBus β E) (pc : UInt64) (word : UInt32) :
    Exec.Safe (executeMemoryWord bus pc word) := by
  refine safe_onMachine_decode_bind fun architecture hint he => ?_
  split
  · obtain ⟨hpos, hle, hdata, hbase⟩ := he _ rfl
    refine (safe_onMachine (Exec.safe_query _)).bind fun _ => ?_
    split
    · exact Exec.safe_fail _
    refine (safe_onMachine (safe_xreg hbase)).bind fun priorBase => ?_
    refine (safe_onMachine (safe_xreg hdata)).bind fun priorData => ?_
    refine (Exec.safe_outcome (Outcome.safe_expect rfl)).bind fun effect => ?_
    refine (safe_access bus _ _ _ _ hpos hle).bind fun r => ?_
    refine (safe_updateBase hbase _).bind fun _ => ?_
    split
    · exact (safe_onMachine (safe_putXreg hdata _)).bind fun _ => Exec.safe_pure _
    · exact Exec.safe_pure _
  · exact Exec.safe_fail _

theorem safe_executeIndexedStoreWord (bus : ScalarMemoryBus β E) (pc : UInt64) (word : UInt32) :
    Exec.Safe (executeIndexedStoreWord bus pc word) := by
  refine safe_onMachine_decode_bind fun architecture hint he => ?_
  split
  · have hle := he _ rfl
    refine (safe_onMachine (safe_xregOrZero _)).bind fun value => ?_
    refine (safe_onMachine (safe_xregOrZero _)).bind fun _ => (safe_onMachine (safe_xregOrZero _)).bind fun _ => ?_
    refine (Exec.safe_outcome (safe_lowBytes value hle)).bind fun low => (safe_busWrite bus _ low).bind fun _ => ?_
    split
    · exact (safe_onMachine (safe_writeExistingXreg _ _)).bind fun _ => Exec.safe_pure _
    · exact Exec.safe_pure _
  · exact Exec.safe_fail _

theorem safe_executeIndexedLoadWord (bus : ScalarMemoryBus β E) (pc : UInt64) (word : UInt32) :
    Exec.Safe (executeIndexedLoadWord bus pc word) := by
  refine safe_onMachine_decode_bind fun architecture hint he => ?_
  split
  · have hle := he _ rfl
    refine (safe_onMachine (safe_xregOrZero _)).bind fun _ => (safe_onMachine (safe_xregOrZero _)).bind fun _ => ?_
    refine (safe_busRead bus _ hle).bind fun bytes => (safe_onMachine (safe_xregOrZero _)).bind fun _ => ?_
    split
    · refine (safe_onMachine (safe_writeExistingXreg _ _)).bind fun _ => ?_
      exact (safe_onMachine (safe_writeExistingXreg _ _)).bind fun _ => Exec.safe_pure _
    · exact (safe_onMachine (safe_writeExistingXreg _ _)).bind fun _ => Exec.safe_pure _
  · exact Exec.safe_fail _

theorem safe_executeIndexedImmediateStoreWord (bus : ScalarMemoryBus β E) (pc : UInt64) (word : UInt32) :
    Exec.Safe (executeIndexedImmediateStoreWord bus pc word) := by
  refine safe_onMachine_decode_bind fun architecture hint he => ?_
  split
  · obtain ⟨hle, hbase, hoffset⟩ := he _ rfl
    refine (safe_onMachine (safe_xreg hbase)).bind fun _ => (safe_onMachine (safe_xreg hoffset)).bind fun _ => ?_
    refine (Exec.safe_outcome (safe_immediateBytes _ hle)).bind fun low => (safe_busWrite bus _ low).bind fun _ => ?_
    exact (safe_updateBase hbase _).bind fun _ => Exec.safe_pure _
  · exact Exec.safe_fail _

theorem safe_executeImmediateStoreWord (bus : ScalarMemoryBus β E) (pc : UInt64) (word : UInt32) :
    Exec.Safe (executeImmediateStoreWord bus pc word) := by
  refine safe_onMachine_decode_bind fun architecture hint he => ?_
  split
  · obtain ⟨hle, hbase⟩ := he _ rfl
    refine (safe_onMachine (Exec.safe_query _)).bind fun _ => ?_
    split
    · exact Exec.safe_fail _
    refine (safe_onMachine (safe_xreg hbase)).bind fun _ => ?_
    refine (Exec.safe_outcome (safe_immediateBytes _ hle)).bind fun low => (safe_busWrite bus _ low).bind fun _ => ?_
    exact (safe_updateBase hbase _).bind fun _ => Exec.safe_pure _
  · exact Exec.safe_fail _

theorem safe_putPair (architecture : Architecture) {first second : Nat} (hfirst : first < 32) (hsecond : second < 32)
    (firstValue secondValue : UInt64) :
    Exec.Safe (putPair architecture first second firstValue secondValue : Exec ScalarMachine ε Unit) := by
  unfold putPair
  split
  · exact (safe_putXreg hsecond _).bind fun _ => safe_putXreg hfirst _
  · exact (safe_putXreg hfirst _).bind fun _ => safe_putXreg hsecond _

theorem safe_executePairLoadWord (bus : ScalarMemoryBus β E) (pc : UInt64) (word : UInt32) :
    Exec.Safe (executePairLoadWord bus pc word) := by
  refine safe_onMachine_decode_bind fun architecture hint he => ?_
  split
  · obtain ⟨hpos, hle, hfirst, hsecond, hbase⟩ := he _ rfl
    refine (safe_onMachine (safe_xreg hbase)).bind fun _ => ?_
    refine (safe_busRead bus _ hle).bind fun firstBytes => (safe_busRead bus _ hle).bind fun secondBytes => ?_
    refine (Exec.safe_outcome (safe_loadedValue hpos hle firstBytes)).bind fun _ => ?_
    refine (Exec.safe_outcome (safe_loadedValue hpos hle secondBytes)).bind fun _ => ?_
    refine (safe_onMachine (safe_xreg hfirst)).bind fun _ => (safe_onMachine (safe_xreg hsecond)).bind fun _ => ?_
    refine (safe_onMachine (Exec.safe_query _)).bind fun _ => ?_
    exact (safe_onMachine (safe_putPair _ hfirst hsecond _ _)).bind fun _ => Exec.safe_pure _
  · exact Exec.safe_fail _

theorem safe_executePairStoreWord (bus : ScalarMemoryBus β E) (pc : UInt64) (word : UInt32) :
    Exec.Safe (executePairStoreWord bus pc word) := by
  refine safe_onMachine_decode_bind fun architecture hint he => ?_
  split
  · obtain ⟨hle, hfirst, hsecond, hbase⟩ := he _ rfl
    refine (safe_onMachine (safe_xreg hbase)).bind fun _ => ?_
    refine (safe_onMachine (safe_xreg hfirst)).bind fun first => ?_
    refine (safe_onMachine (safe_xreg hsecond)).bind fun second => ?_
    refine (Exec.safe_outcome (safe_lowBytes first hle)).bind fun firstLow => ?_
    refine (Exec.safe_outcome (safe_lowBytes second hle)).bind fun secondLow => ?_
    refine (safe_busWrite bus _ firstLow).bind fun _ => (safe_busWrite bus _ secondLow).bind fun _ => ?_
    exact Exec.safe_pure _
  · exact Exec.safe_fail _

/-! ## The words that panic -/

/-- A select with a register past X31, once SPR 11 has a value; a preload with a source past X31. -/
def Crashes (m : ScalarMachine) (word : UInt32) : Prop :=
  (ScalarInstruction.selects word ∧ (m.sprValue 11).isSome = true ∧
    ∃ r ∈ [(ScalarInstruction.key0Registers m.architecture word).1,
      (ScalarInstruction.key0Registers m.architecture word).2.1,
      (ScalarInstruction.key0Registers m.architecture word).2.2], 32 ≤ r) ∨
  (ScalarInstruction.preloads word ∧ 32 ≤ field word 12 0x3f)

theorem safeAt_xreg_bind {register : Nat} {f : UInt64 → Exec ScalarMachine ε α} {m : ScalarMachine} :
    Exec.SafeAt (xreg register >>= f) m ↔ ∃ h : register < 32, Exec.SafeAt (f m.xregs[register]) m := by
  by_cases h : register < 32
  · have hx : (xreg register : Exec ScalarMachine ε UInt64) m = (.ok m.xregs[register], m) := by
      unfold xreg xregAt
      rw [Vector.getElem?_eq_getElem h]
      rfl
    rw [Exec.safeAt_bind_ok hx]
    exact ⟨fun hs => ⟨h, hs⟩, fun ⟨_, hs⟩ => hs⟩
  · refine ⟨fun hs => absurd hs (Exec.not_safeAt_bind fun hx => hx ?_), fun ⟨h', _⟩ => absurd h' h⟩
    show xregAt m.xregs register = _
    unfold xregAt
    rw [Vector.getElem?_eq_none (not_lt.mp h)]
    rfl

/-- A select panics on the first of its registers past X31, if it gets as far as its registers. -/
theorem safeAt_executeSelectWord_iff (m : ScalarMachine) (pc : UInt64) {word : UInt32}
    (h : ScalarInstruction.selects word) :
    Exec.SafeAt (executeSelectWord pc word) m ↔ ((m.sprValue 11).isSome = true →
      ∀ r ∈ [(ScalarInstruction.key0Registers m.architecture word).1,
        (ScalarInstruction.key0Registers m.architecture word).2.1,
        (ScalarInstruction.key0Registers m.architecture word).2.2], r < 32) := by
  obtain ⟨dtypeField, hword⟩ := ScalarInstruction.fromWord_select (ε := ScalarMachineError) m.architecture h
  have hd : (decode word : Machine _) m = (.ok (some (.scalarSelect dtypeField
      (ScalarInstruction.key0Registers m.architecture word).1
      (ScalarInstruction.key0Registers m.architecture word).2.1
      (ScalarInstruction.key0Registers m.architecture word).2.2)), m) := by
    rw [← hword]
    rfl
  unfold executeSelectWord
  rw [Exec.safeAt_bind_ok hd]
  show Exec.SafeAt (Exec.okOr _ (m.sprValue 11) >>= _) m ↔ _
  cases hflag : m.sprValue 11 with
  | none => exact ⟨fun _ h' => (by cases h'), fun _ => nofun⟩
  | some flag =>
    show Exec.SafeAt (xreg _ >>= _) m ↔ _
    rw [safeAt_xreg_bind]
    constructor
    · rintro ⟨hfirst, hs⟩ -
      obtain ⟨hsecond, hs⟩ := safeAt_xreg_bind.mp hs
      obtain ⟨hdestination, -⟩ := safeAt_xreg_bind.mp hs
      simpa using ⟨hdestination, hfirst, hsecond⟩
    · intro hall
      have hall := hall rfl
      have hdestination := hall _ (.head _)
      refine ⟨hall _ (.tail _ (.head _)), safeAt_xreg_bind.mpr ⟨hall _ (.tail _ (.tail _ (.head _))), ?_⟩⟩
      refine safeAt_xreg_bind.mpr ⟨hdestination, ?_⟩
      exact ((safe_putXreg hdestination _).bind fun _ => Exec.safe_pure _) m

theorem safeAt_executeCacheHintWord_iff (m : ScalarMachine) (pc : UInt64) {word : UInt32}
    (h : ScalarInstruction.preloads word) :
    Exec.SafeAt (executeCacheHintWord pc word) m ↔ field word 12 0x3f < 32 := by
  have hd : (decode word : Machine _) m =
      (.ok (some (.scalarKey8 .dcPreload none (field word 12 0x3f) (field word 0 0xfff))), m) := by
    rw [← ScalarInstruction.fromWord_preload (ε := ScalarMachineError) m.architecture h]
    rfl
  unfold executeCacheHintWord
  rw [Exec.safeAt_bind_ok hd]
  show Exec.SafeAt (xreg _ >>= _) m ↔ _
  rw [safeAt_xreg_bind]
  exact ⟨fun ⟨hlt, _⟩ => hlt, fun hlt => ⟨hlt, Exec.safe_pure _ m⟩⟩

theorem safe_synchronize (call : β → Except E Bool × β) (backend : E → ScalarInstructionError E)
    (unsupported : ScalarInstructionError E) (step : ScalarInstructionStep) :
    Exec.Safe (synchronize call backend unsupported step) := by
  refine (safe_busCall _ _).bind fun done => ?_
  cases done with
  | true => exact Exec.safe_pure _
  | false => exact Exec.safe_fail _

theorem safe_onRegisters {f : α → ScalarInstructionStep} {c : Machine α} (h : Exec.Safe c) :
    Exec.Safe (onRegisters f c : Instruction β E _) := (Exec.safe_first h).map

theorem safe_onMemory {f : α → ScalarInstructionStep} {c : OnBus β (ScalarMemoryExecutionError E) α}
    (h : Exec.Safe c) : Exec.Safe (onMemory f c : Instruction β E _) := (Exec.safe_mapErr h).map

theorem safeAt_onRegisters {f : α → ScalarInstructionStep} {c : Machine α} {s : ScalarMachine × β} :
    Exec.SafeAt (onRegisters f c : Instruction β E _) s ↔ Exec.SafeAt c s.1 :=
  Exec.safeAt_map.trans Exec.safeAt_first

theorem safe_executeControl (bus : ScalarMemoryBus β E) (pc : UInt64) (word : UInt32) :
    Exec.Safe (executeControl bus pc word) := by
  refine (safe_onMachine (Exec.safe_query _)).bind fun m => ?_
  split
  · exact safe_synchronize _ _ _ _
  split
  case h_1 instruction hinstruction =>
    have hsafe := DcciInstruction.safe_resolve (ε := ScalarInstructionError E) hinstruction pc m.xregs
    exact (Exec.safe_outcome hsafe).bind fun _ => safe_synchronize _ _ _ _
  split
  · exact safe_synchronize _ _ _ _
  · exact safe_onRegisters (safe_executeFlowWord pc word)

/-- The scalar machine panics on the words that crash it, and on no other. -/
theorem executeInstruction_safe_iff (bus : ScalarMemoryBus β E) (m : ScalarMachine) (b : β) (pc : UInt64)
    (word : UInt32) : Exec.SafeAt (executeInstruction bus pc word) (m, b) ↔ ¬Crashes m word := by
  unfold executeInstruction
  split
  case isTrue hflow =>
    refine ⟨fun _ hcrash => ?_, fun _ => safe_executeControl bus pc word (m, b)⟩
    rcases hcrash with ⟨hselect, -⟩ | ⟨hpreload, -⟩
    · rw [hselect.1] at hflow; cases hflow
    · rw [hpreload.1] at hflow; cases hflow
  case isFalse =>
    obtain ⟨hint, hd, hword, he⟩ := onMachine_decode_apply (ε := ScalarInstructionError E) (m, b) word
    rw [Exec.safeAt_bind_ok hd]
    -- a word that decodes to no select and no preload does not crash
    have other (hs : ∀ d a b c, hint ≠ some (.scalarSelect d a b c))
        (hp : ∀ s i, hint ≠ some (.scalarKey8 .dcPreload none s i)) {c : Instruction β E ScalarInstructionStep}
        (hc : Exec.Safe c) : Exec.SafeAt c (m, b) ↔ ¬Crashes m word := by
      refine ⟨fun _ hcrash => ?_, fun _ => hc (m, b)⟩
      rcases hcrash with ⟨hselect, -⟩ | ⟨hpreload, -⟩
      · obtain ⟨dtypeField, h⟩ := ScalarInstruction.fromWord_select (ε := ScalarInstructionError E) m.architecture hselect
        exact hs _ _ _ _ (by rw [hword] at h; cases h; rfl)
      · have h := ScalarInstruction.fromWord_preload (ε := ScalarInstructionError E) m.architecture hpreload
        exact hp _ _ (by rw [hword] at h; cases h; rfl)
    split
    · exact other nofun nofun (safe_onRegisters (safe_executeCompareWord pc word))
    · exact other nofun nofun (safe_onRegisters (safe_executeCompareRegisterWord pc word))
    · exact other nofun nofun (safe_onRegisters (safe_executeCompareImmediateWord pc word))
    · obtain ⟨hselect, -⟩ := he _ rfl
      rw [safeAt_onRegisters, safeAt_executeSelectWord_iff m pc hselect]
      constructor
      · rintro hall (⟨-, hflag, r, hr, hle⟩ | ⟨hpreload, -⟩)
        · exact absurd (hall hflag r hr) (not_lt.mpr hle)
        · have := hselect.2.1
          have := hpreload.2.1
          omega
      · intro hcrash hflag r hr
        exact not_le.mp fun hle => hcrash (.inl ⟨hselect, hflag, r, hr, hle⟩)
    · exact other nofun nofun (safe_onMemory (safe_executePairLoadWord bus pc word))
    · exact other nofun nofun (safe_onMemory (safe_executePairStoreWord bus pc word))
    · exact other nofun nofun (safe_onMemory (safe_executeIndexedLoadWord bus pc word))
    · exact other nofun nofun (safe_onMemory (safe_executeIndexedStoreWord bus pc word))
    · exact other nofun nofun (safe_onMemory (safe_executeIndexedImmediateStoreWord bus pc word))
    · obtain ⟨hpreload, -⟩ := (he _ rfl).2 rfl
      rw [safeAt_onRegisters, safeAt_executeCacheHintWord_iff m pc hpreload]
      constructor
      · rintro hlt (⟨hselect, -⟩ | ⟨-, hle⟩)
        · have := hselect.2.1
          have := hpreload.2.1
          omega
        · omega
      · exact fun hcrash => not_le.mp fun hle => hcrash (.inr ⟨hpreload, hle⟩)
    · exact other nofun nofun (safe_onMemory (safe_executeMemoryWord bus pc word))
    · exact other nofun nofun (safe_onMemory (safe_executeImmediateStoreWord bus pc word))
    · exact other nofun nofun (safe_onRegisters (safe_executeSprReadWord pc word))
    · exact other nofun nofun (safe_onRegisters (safe_executeSprWord pc word))
    · refine other (fun d a b c h => ?_) (fun s i h => ?_) (safe_onRegisters (safe_executeWord pc word))
      · exact ‹∀ d a b c, hint = some (.scalarSelect d a b c) → False› d a b c h
      · exact ‹∀ d s i, hint = some (.scalarKey8 .dcPreload d s i) → False› none s i h

/-- A preload of `X32`, on either architecture, and on Dav2201 a select of `X32` after a compare. -/
theorem wide_registers_crash :
    (∀ architecture, (executeInstruction noMemoryBus 0 0x08c20000
      (new architecture (Vector.replicate 32 0) 0, ())).1 = .error .panicked) ∧
    (∀ m, (setSprValue 11 1 (new .dav2201 (Vector.replicate 32 0) 0)).2 = m →
      (executeInstruction noMemoryBus 0 0x00000029 (m, ())).1 = .error .panicked) := by
  constructor
  · intro architecture
    cases architecture <;> rfl
  · rintro m rfl
    rfl

end ScalarMachine

end AscendEmulator.Common.Scalar
