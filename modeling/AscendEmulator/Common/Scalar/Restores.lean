/-
  AscendEmulator.Common.Scalar.Restores — what a step that returns an error leaves behind.

  Every executor reads, then makes its last call that can fail, then writes registers: an error leaves the machine,
  the PC and the halted flag as they were, and the memory of a bus whose failing calls change nothing. A pair store
  makes two writes: when the second fails the first one stays (`stepWord_error_restores`).
-/

import AscendEmulator.Common.Scalar.Stepper

namespace AscendEmulator.Common.Scalar

open AscendEmulator.Lib AscendEmulator.Isa
open AscendEmulator.Memory (Architecture)

variable {β E μ ε α : Type}

/-- A bus with the memory `memory`, whose calls change nothing when they fail and whose reads do not write. A
synchronization that the bus does not support, and says so, has failed. -/
structure ScalarMemoryBus.Lawful (bus : ScalarMemoryBus β E) (memory : β → μ) : Prop where
  readFails : ∀ b address n e, (bus.read b address n).1 = .error e → (bus.read b address n).2 = b
  readKeeps : ∀ b address n bytes, (bus.read b address n).1 = .ok bytes → memory (bus.read b address n).2 = memory b
  writeFails : ∀ b address bytes e, (bus.write b address bytes).1 = .error e → (bus.write b address bytes).2 = b
  cacheFails : ∀ b step, (bus.maintainDataCache b step).1 ≠ .ok true → (bus.maintainDataCache b step).2 = b
  pipelineFails : ∀ b step, (bus.synchronizePipeline b step).1 ≠ .ok true → (bus.synchronizePipeline b step).2 = b
  barrierFails : ∀ b step, (bus.synchronizeBarrier b step).1 ≠ .ok true → (bus.synchronizeBarrier b step).2 = b

namespace ScalarMachine

variable {bus : ScalarMemoryBus β E} {memory : β → μ} {word : UInt32} {pc : UInt64}

/-- What an error is to leave: the machine and the memory of the bus. -/
def seen (memory : β → μ) (s : ScalarMachine × β) : ScalarMachine × μ := (s.1, memory s.2)

/-! ## Reads change nothing, register writes return no error -/

theorem quiet_decode (word : UInt32) : Exec.Quiet id (decode word : Exec ScalarMachine ε _) := fun _ => rfl

theorem quiet_xreg (register : Nat) : Exec.Quiet id (xreg register : Exec ScalarMachine ε _) := fun _ => rfl

theorem commits_putXreg (register : Nat) (value : UInt64) :
    Exec.Commits (putXreg register value : Exec ScalarMachine ε Unit) := by
  intro m e
  unfold putXreg
  split <;> nofun

theorem commits_putSpr (spr : Nat) (value : UInt64) : Exec.Commits (putSpr spr value : Exec ScalarMachine ε Unit) := by
  intro m e
  unfold putSpr
  split <;> nofun

theorem commits_writeExistingXreg (register : Nat) (value : UInt64) :
    Exec.Commits (writeExistingXreg register value : Exec ScalarMachine ε Unit) := fun _ _ => nofun

theorem restores_setSprValue (index : Nat) (value : UInt64) : Exec.Restores id (setSprValue index value) := by
  intro m e h
  unfold setSprValue at h ⊢
  split at h
  · cases h
  · rw [dif_neg ‹_›]

/-! ## Instructions without memory -/

theorem restores_executeCompareWord (pc : UInt64) (word : UInt32) : Exec.Restores id (executeCompareWord pc word) := by
  refine (quiet_decode word).then fun hint => ?_
  split
  · refine (quiet_xreg _).then fun _ => (quiet_xreg _).then fun _ => (Exec.quiet_outcome _).then fun _ => ?_
    refine (Exec.quiet_outcome _).then fun _ => (Exec.quiet_query _).then fun _ => ?_
    exact (restores_setSprValue _ _).then fun _ => Exec.commits_pure _
  · exact (Exec.quiet_outcome _).restores

theorem restores_executeCompareRegisterWord (pc : UInt64) (word : UInt32) :
    Exec.Restores id (executeCompareRegisterWord pc word) := by
  refine (quiet_decode word).then fun hint => ?_
  split
  · refine (quiet_xreg _).then fun _ => (quiet_xreg _).then fun _ => (Exec.quiet_outcome _).then fun _ => ?_
    refine (Exec.quiet_outcome _).then fun _ => (quiet_xreg _).then fun _ => ?_
    exact (commits_putXreg _ _).restores.then fun _ => Exec.commits_pure _
  · exact (Exec.quiet_outcome _).restores

theorem restores_executeCompareImmediateWord (pc : UInt64) (word : UInt32) :
    Exec.Restores id (executeCompareImmediateWord pc word) := by
  refine (quiet_decode word).then fun hint => ?_
  split
  · split
    · exact (Exec.quiet_outcome _).restores
    refine (quiet_xreg _).then fun _ => (Exec.quiet_outcome _).then fun _ => (Exec.quiet_outcome _).then fun _ => ?_
    refine (Exec.quiet_query _).then fun _ => ?_
    exact (restores_setSprValue _ _).then fun _ => Exec.commits_pure _
  · exact (Exec.quiet_outcome _).restores

theorem restores_executeSelectWord (pc : UInt64) (word : UInt32) : Exec.Restores id (executeSelectWord pc word) := by
  refine (quiet_decode word).then fun hint => ?_
  split
  · refine (Exec.quiet_query _).then fun _ => (Exec.quiet_outcome _).then fun _ => ?_
    refine (quiet_xreg _).then fun _ => (quiet_xreg _).then fun _ => (quiet_xreg _).then fun _ => ?_
    exact (commits_putXreg _ _).restores.then fun _ => Exec.commits_pure _
  · exact (Exec.quiet_outcome _).restores

theorem restores_executeSprReadWord (pc : UInt64) (word : UInt32) : Exec.Restores id (executeSprReadWord pc word) := by
  refine (quiet_decode word).then fun hint => ?_
  split
  · refine (Exec.quiet_query _).then fun _ => ?_
    split
    · exact (Exec.quiet_outcome _).restores
    refine (Exec.quiet_query _).then fun _ => (Exec.quiet_outcome _).then fun _ => (quiet_xreg _).then fun _ => ?_
    exact (commits_putXreg _ _).restores.then fun _ => Exec.commits_pure _
  · exact (Exec.quiet_outcome _).restores

theorem restores_executeSprWord (pc : UInt64) (word : UInt32) : Exec.Restores id (executeSprWord pc word) := by
  refine (quiet_decode word).then fun hint => ?_
  split
  · refine (Exec.quiet_query _).then fun _ => (Exec.quiet_outcome _).then fun _ => (Exec.quiet_query _).then fun _ => ?_
    refine (Exec.quiet_outcome _).then fun _ => (Exec.quiet_query _).then fun _ => (Exec.quiet_outcome _).then fun _ => ?_
    exact (commits_putSpr _ _).restores.then fun _ => Exec.commits_pure _
  · exact (Exec.quiet_outcome _).restores

theorem restores_executeJumpCompareWord (pc : UInt64) (word : UInt32) :
    Exec.Restores id (executeJumpCompareWord pc word) := by
  refine (Exec.quiet_outcome _).then fun _ => (Exec.quiet_query _).then fun _ => (Exec.quiet_outcome _).then fun _ => ?_
  exact (restores_setSprValue _ _).then fun _ => Exec.commits_pure _

theorem quiet_executeCacheHintWord (pc : UInt64) (word : UInt32) : Exec.Quiet id (executeCacheHintWord pc word) := by
  refine (quiet_decode word).bind fun hint => ?_
  split
  · exact (quiet_xreg _).bind fun _ => Exec.quiet_pure _
  · exact Exec.quiet_outcome _

theorem restores_executeFlowWord (pc : UInt64) (word : UInt32) : Exec.Restores id (executeFlowWord pc word) := by
  unfold executeFlowWord
  split
  · exact (Exec.quiet_pure _).restores
  split
  · exact (Exec.quiet_pure _).restores
  split
  · refine (Exec.quiet_query _).then fun _ => (Exec.quiet_outcome _).then fun _ => ?_
    exact (Exec.quiet_pure _).restores
  split
  · refine (Exec.quiet_query _).then fun _ => (Exec.quiet_outcome _).then fun _ => (Exec.quiet_query _).then fun _ => ?_
    exact (Exec.quiet_outcome _).then fun _ => (Exec.quiet_pure _).restores
  split
  · exact (restores_executeJumpCompareWord pc word).then fun _ => Exec.commits_pure _
  · exact (Exec.quiet_outcome _).restores

theorem restores_executeWord (pc : UInt64) (word : UInt32) : Exec.Restores id (executeWord pc word) := by
  refine (quiet_decode word).then fun _ => (Exec.quiet_outcome _).then fun _ => (Exec.quiet_query _).then fun _ => ?_
  refine (Exec.quiet_outcome _).then fun _ => (quiet_xreg _).then fun _ => ?_
  refine (commits_putXreg _ _).restores.then fun _ => ?_
  exact (Exec.commits_update _).bind fun _ => Exec.commits_pure _

/-! ## Calls on the bus -/

theorem quiet_onMachine {c : Exec ScalarMachine ε α} (h : Exec.Quiet id c) :
    Exec.Quiet (seen memory) (onMachine c : OnBus β ε α) := fun s => by
  show ((c s.1).2, memory s.2) = (s.1, memory s.2)
  rw [show (c s.1).2 = s.1 from h s.1]

theorem commits_onMachine {c : Exec ScalarMachine ε α} (h : Exec.Commits c) :
    Exec.Commits (onMachine c : OnBus β ε α) := by
  intro s e he
  refine h s.1 e ?_
  rcases hs : (c s.1).1 with (e' | _) | a
  · rw [show (onMachine c s).1 = Outcome.mapErr id (c s.1).1 from rfl, hs] at he
    cases he
    rfl
  · rw [show (onMachine c s).1 = Outcome.mapErr id (c s.1).1 from rfl, hs] at he
    cases he
  · rw [show (onMachine c s).1 = Outcome.mapErr id (c s.1).1 from rfl, hs] at he
    cases he

theorem busCall_ok {f : E → ε} {call : β → Except E α × β} {s : ScalarMachine × β} {a : α} {b : β}
    (h : call s.2 = (.ok a, b)) : busCall f call s = (.ok a, (s.1, b)) := by
  unfold busCall
  rw [h]

theorem busCall_error {f : E → ε} {call : β → Except E α × β} {s : ScalarMachine × β} {e : E} {b : β}
    (h : call s.2 = (.error e, b)) : busCall f call s = (Outcome.fail (f e), (s.1, b)) := by
  unfold busCall
  rw [h]

theorem busCall_state (f : E → ε) (call : β → Except E α × β) (s : ScalarMachine × β) :
    (busCall f call s).2 = (s.1, (call s.2).2) := by
  unfold busCall
  split <;> rename_i hcall <;> rw [hcall]

theorem busCall_returned {f : E → ε} {call : β → Except E α × β} {s : ScalarMachine × β} {e : ε}
    (h : (busCall f call s).1 = .error (.returned e)) : ∃ e', (call s.2).1 = .error e' := by
  unfold busCall at h
  split at h
  · cases h
  · exact ⟨_, by rw [‹call s.2 = _›]⟩

theorem quiet_busRead (hbus : bus.Lawful memory) (address : UInt64) (width : Nat) :
    Exec.Quiet (seen memory) (busRead bus address width) := by
  refine (Exec.quiet_outcome _).bind fun _ => Exec.Quiet.bind (fun s => ?_) fun _ => Exec.quiet_pure _
  rw [seen, busCall_state, seen]
  cases hr : (bus.read s.2 address width).1 with
  | error e => rw [hbus.readFails s.2 address width e hr]
  | ok bytes => rw [hbus.readKeeps s.2 address width bytes hr]

theorem restores_busWrite (hbus : bus.Lawful memory) (address : UInt64) (bytes : List UInt8) :
    Exec.Restores (seen memory) (busWrite bus address bytes) := by
  intro s e he
  obtain ⟨e', hw⟩ := busCall_returned he
  rw [seen, busWrite, busCall_state, hbus.writeFails s.2 address bytes e' hw, seen]

theorem commits_updateBase (register : Nat) (base : Option UInt64) :
    Exec.Commits (updateBase register base : OnBus β ε Unit) := by
  cases base with
  | none => exact Exec.commits_pure ()
  | some base => exact commits_onMachine (commits_putXreg register base)

/-! ## Loads and stores -/

theorem quiet_onMachine_decode (word : UInt32) :
    Exec.Quiet (seen memory) (onMachine (decode word) : OnBus β ε _) := quiet_onMachine (quiet_decode word)

theorem quiet_onMachine_xreg (register : Nat) :
    Exec.Quiet (seen memory) (onMachine (xreg register) : OnBus β ε _) := quiet_onMachine (quiet_xreg register)

theorem quiet_onMachine_query (f : ScalarMachine → α) :
    Exec.Quiet (seen memory) (onMachine (Exec.query f) : OnBus β ε _) := quiet_onMachine (Exec.quiet_query f)

theorem restores_access (hbus : bus.Lawful memory) (operation : ScalarLoadStoreOperation) (address value : UInt64)
    (width : Nat) (signExtend : Bool) :
    Exec.Restores (seen memory) (match operation with
      | .load => do
        let bytes ← busRead bus address width
        let value ← Exec.outcome (loadedValue signExtend width bytes)
        return (bytes, value)
      | .store => do
        let low ← Exec.outcome (slice (Word.toLeBytes value) width)
        busWrite bus address low
        return (padded low, value) : OnBus β (ScalarMemoryExecutionError E) (List UInt8 × UInt64)) := by
  cases operation with
  | load =>
    refine (quiet_busRead hbus address width).then fun _ => (Exec.quiet_outcome _).then fun _ => ?_
    exact (Exec.quiet_pure _).restores
  | store =>
    exact (Exec.quiet_outcome _).then fun low => (restores_busWrite hbus address low).then fun _ => Exec.commits_pure _

theorem restores_executeMemoryWord (hbus : bus.Lawful memory) (pc : UInt64) (word : UInt32) :
    Exec.Restores (seen memory) (executeMemoryWord bus pc word) := by
  refine (quiet_onMachine_decode word).then fun hint => ?_
  split
  · refine (quiet_onMachine_query _).then fun _ => ?_
    split
    · exact (Exec.quiet_outcome _).restores
    refine (quiet_onMachine_xreg _).then fun _ => (quiet_onMachine_xreg _).then fun _ => ?_
    refine (Exec.quiet_outcome _).then fun effect => (restores_access hbus _ _ _ _ _).then fun r => ?_
    refine (commits_updateBase _ _).bind fun _ => ?_
    split
    · exact (commits_onMachine (commits_putXreg _ _)).bind fun _ => Exec.commits_pure _
    · exact Exec.commits_pure _
  · exact (Exec.quiet_outcome _).restores

theorem restores_executeIndexedStoreWord (hbus : bus.Lawful memory) (pc : UInt64) (word : UInt32) :
    Exec.Restores (seen memory) (executeIndexedStoreWord bus pc word) := by
  refine (quiet_onMachine_decode word).then fun hint => ?_
  split
  · refine (quiet_onMachine_query _).then fun _ => (quiet_onMachine_query _).then fun _ => ?_
    refine (quiet_onMachine_query _).then fun _ => (Exec.quiet_outcome _).then fun low => ?_
    refine (restores_busWrite hbus _ low).then fun _ => ?_
    split
    · exact (commits_onMachine (commits_writeExistingXreg _ _)).bind fun _ => Exec.commits_pure _
    · exact Exec.commits_pure _
  · exact (Exec.quiet_outcome _).restores

theorem restores_executeIndexedLoadWord (hbus : bus.Lawful memory) (pc : UInt64) (word : UInt32) :
    Exec.Restores (seen memory) (executeIndexedLoadWord bus pc word) := by
  refine (quiet_onMachine_decode word).then fun hint => ?_
  split
  · refine (quiet_onMachine_query _).then fun _ => (quiet_onMachine_query _).then fun _ => ?_
    refine (quiet_busRead hbus _ _).then fun _ => (quiet_onMachine_query _).then fun _ => ?_
    have hdestination (register : Nat) (value : UInt64) (r : ScalarIndexedLoadStep) :
        Exec.Commits (do onMachine (writeExistingXreg register value); return r :
          OnBus β (ScalarMemoryExecutionError E) _) :=
      (commits_onMachine (commits_writeExistingXreg register value)).bind fun _ => Exec.commits_pure r
    split
    · refine Exec.Commits.restores ?_
      exact (commits_onMachine (commits_writeExistingXreg _ _)).bind fun _ => hdestination _ _ _
    · exact (hdestination _ _ _).restores
  · exact (Exec.quiet_outcome _).restores

theorem restores_executeIndexedImmediateStoreWord (hbus : bus.Lawful memory) (pc : UInt64) (word : UInt32) :
    Exec.Restores (seen memory) (executeIndexedImmediateStoreWord bus pc word) := by
  refine (quiet_onMachine_decode word).then fun hint => ?_
  split
  · refine (quiet_onMachine_xreg _).then fun _ => (quiet_onMachine_xreg _).then fun _ => ?_
    refine (Exec.quiet_outcome _).then fun low => (restores_busWrite hbus _ low).then fun _ => ?_
    exact (commits_updateBase _ _).bind fun _ => Exec.commits_pure _
  · exact (Exec.quiet_outcome _).restores

theorem restores_executeImmediateStoreWord (hbus : bus.Lawful memory) (pc : UInt64) (word : UInt32) :
    Exec.Restores (seen memory) (executeImmediateStoreWord bus pc word) := by
  refine (quiet_onMachine_decode word).then fun hint => ?_
  split
  · refine (quiet_onMachine_query _).then fun _ => ?_
    split
    · exact (Exec.quiet_outcome _).restores
    refine (quiet_onMachine_xreg _).then fun _ => (Exec.quiet_outcome _).then fun low => ?_
    refine (restores_busWrite hbus _ low).then fun _ => ?_
    exact (commits_updateBase _ _).bind fun _ => Exec.commits_pure _
  · exact (Exec.quiet_outcome _).restores

theorem commits_putPair (architecture : Architecture) (first second : Nat) (firstValue secondValue : UInt64) :
    Exec.Commits (putPair architecture first second firstValue secondValue : Exec ScalarMachine ε Unit) := by
  unfold putPair
  split
  · exact (commits_putXreg _ _).bind fun _ => commits_putXreg _ _
  · exact (commits_putXreg _ _).bind fun _ => commits_putXreg _ _

/-- Both reads come before the first register write. -/
theorem restores_executePairLoadWord (hbus : bus.Lawful memory) (pc : UInt64) (word : UInt32) :
    Exec.Restores (seen memory) (executePairLoadWord bus pc word) := by
  refine (quiet_onMachine_decode word).then fun hint => ?_
  split
  · refine (quiet_onMachine_xreg _).then fun _ => ?_
    refine (quiet_busRead hbus _ _).then fun _ => (quiet_busRead hbus _ _).then fun _ => ?_
    refine (Exec.quiet_outcome _).then fun _ => (Exec.quiet_outcome _).then fun _ => ?_
    refine (quiet_onMachine_xreg _).then fun _ => (quiet_onMachine_xreg _).then fun _ => ?_
    refine (quiet_onMachine_query _).then fun _ => ?_
    exact (commits_onMachine (commits_putPair _ _ _ _ _)).restores.then fun _ => Exec.commits_pure _
  · exact (Exec.quiet_outcome _).restores

/-! ## Pair stores -/

/-- The pair store of `word` wrote its first half, which left the bus `b'`, and failed on its second. -/
def CutShort (bus : ScalarMemoryBus β E) (m : ScalarMachine) (word : UInt32) (b b' : β) : Prop :=
  ∃ dtypeField width first second base offset baseValue firstLow secondLow e,
    (ScalarInstruction.fromWord m.architecture word : Outcome (ScalarMemoryExecutionError E) _) =
      .ok (some (.scalarPairStore dtypeField width first second base offset)) ∧
    m.xregs[base]? = some baseValue ∧
    bus.write b (baseValue + ScalarInstruction.offsetWord offset) firstLow = (.ok (), b') ∧
    (bus.write b' (baseValue + ScalarInstruction.offsetWord offset + UInt64.ofNat width) secondLow).1 = .error e

theorem xreg_returned {register : Nat} {s : ScalarMachine × β} {f : UInt64 → OnBus β ε α} {e : ε}
    (h : ((onMachine (xreg register) >>= f) s).1 = .error (.returned e)) :
    ∃ value, s.1.xregs[register]? = some value ∧ (onMachine (xreg register) : OnBus β ε _) s = (.ok value, s) := by
  have hx : (onMachine (xreg register) : OnBus β ε _) s =
      (Outcome.mapErr id (Outcome.expect s.1.xregs[register]?), s) := rfl
  cases hv : s.1.xregs[register]? with
  | none =>
    rw [hv] at hx
    rw [Exec.bind_error hx] at h
    cases h
  | some value =>
    rw [hv] at hx
    exact ⟨value, rfl, hx⟩

theorem slice_returned {bytes : List UInt8} {width : Nat} {s : ScalarMachine × β} {f : List UInt8 → OnBus β ε α} {e : ε}
    (h : ((Exec.outcome (slice bytes width) >>= f) s).1 = .error (.returned e)) :
    ∃ low, (Exec.outcome (slice bytes width) : OnBus β ε _) s = (.ok low, s) := by
  rcases hs : (slice bytes width : Outcome ε _) with (e' | _) | low
  · unfold slice at hs
    split at hs <;> cases hs
  · rw [Exec.bind_error (show Exec.outcome (slice bytes width) s = (.error .panicked, s) by rw [hs]; rfl)] at h
    cases h
  · exact ⟨low, rfl⟩

/-- Two writes in a row: an error leaves the bus as it was, or as the first write left it. -/
theorem twoWrites_returned (hbus : bus.Lawful memory) {first second : UInt64} {firstLow secondLow : List UInt8}
    {f : Unit → OnBus β (ScalarMemoryExecutionError E) α} (hf : ∀ u, Exec.Commits (f u)) {s : ScalarMachine × β}
    {e : ScalarMemoryExecutionError E}
    (h : ((do busWrite bus first firstLow; let u ← busWrite bus second secondLow; f u :
      OnBus β _ α) s).1 = .error (.returned e)) :
    ((do busWrite bus first firstLow; let u ← busWrite bus second secondLow; f u : OnBus β _ α) s).2 = s ∨
      ∃ b' e', ((do busWrite bus first firstLow; let u ← busWrite bus second secondLow; f u : OnBus β _ α) s).2 =
          (s.1, b') ∧
        bus.write s.2 first firstLow = (.ok (), b') ∧ (bus.write b' second secondLow).1 = .error e' := by
  obtain ⟨m, b⟩ := s
  rcases h₁ : bus.write b first firstLow with ⟨e₁ | u₁, b₁⟩
  · have hb : b₁ = b := by
      have := hbus.writeFails b first firstLow e₁ (by rw [h₁])
      rwa [h₁] at this
    subst hb
    have hw : busWrite bus first firstLow (m, b₁) = (.error (.returned (.backend e₁)), (m, b₁)) := busCall_error h₁
    rw [Exec.bind_error hw]
    exact .inl rfl
  · have hw : busWrite bus first firstLow (m, b) = (.ok (), (m, b₁)) := busCall_ok h₁
    rw [Exec.bind_ok hw] at h ⊢
    rcases h₂ : bus.write b₁ second secondLow with ⟨e₂ | u₂, b₂⟩
    · have hb : b₂ = b₁ := by
        have := hbus.writeFails b₁ second secondLow e₂ (by rw [h₂])
        rwa [h₂] at this
      subst hb
      have hw₂ : busWrite bus second secondLow (m, b₂) = (.error (.returned (.backend e₂)), (m, b₂)) :=
        busCall_error h₂
      rw [Exec.bind_error hw₂]
      exact .inr ⟨b₂, e₂, rfl, rfl, by rw [h₂]⟩
    · have hw₂ : busWrite bus second secondLow (m, b₁) = (.ok (), (m, b₂)) := busCall_ok h₂
      rw [Exec.bind_ok hw₂] at h
      exact absurd h (hf () (m, b₂) e)

theorem executePairStoreWord_returned (hbus : bus.Lawful memory) {pc : UInt64} {word : UInt32}
    {s : ScalarMachine × β} {e : ScalarMemoryExecutionError E}
    (h : (executePairStoreWord bus pc word s).1 = .error (.returned e)) :
    (executePairStoreWord bus pc word s).2 = s ∨
      ∃ b', (executePairStoreWord bus pc word s).2 = (s.1, b') ∧ CutShort bus s.1 word s.2 b' := by
  obtain ⟨hint, hword, -⟩ := ScalarInstruction.fromWord_decodes (ε := ScalarMemoryExecutionError E) s.1.architecture word
  have hd : (onMachine (decode word) : OnBus β (ScalarMemoryExecutionError E) _) s = (.ok hint, s) := by
    show (Outcome.mapErr id (ScalarInstruction.fromWord s.1.architecture word), (s.1, s.2)) = _
    rw [hword]
    rfl
  unfold executePairStoreWord at h ⊢
  rw [Exec.bind_ok hd] at h ⊢
  split at h
  case h_2 => exact .inl rfl
  case h_1 dtypeField width first second base offset =>
    obtain ⟨baseValue, hbase, hx⟩ := xreg_returned h
    dsimp only at h ⊢
    rw [Exec.bind_ok hx] at h ⊢
    obtain ⟨firstValue, -, hx⟩ := xreg_returned h
    rw [Exec.bind_ok hx] at h ⊢
    obtain ⟨secondValue, -, hx⟩ := xreg_returned h
    rw [Exec.bind_ok hx] at h ⊢
    obtain ⟨firstLow, hl⟩ := slice_returned h
    rw [Exec.bind_ok hl] at h ⊢
    obtain ⟨secondLow, hl⟩ := slice_returned h
    rw [Exec.bind_ok hl] at h ⊢
    rcases twoWrites_returned hbus (fun _ => Exec.commits_pure _) h with hs | ⟨b', e', hs, h₁, h₂⟩
    · exact .inl hs
    · exact .inr ⟨b', hs, dtypeField, width, first, second, base, offset, baseValue, firstLow, secondLow, e', hword,
        hbase, h₁, h₂⟩

/-! ## Any instruction -/

theorem restores_onRegisters {f : α → ScalarInstructionStep} {c : Machine α} (h : Exec.Restores id c) :
    Exec.Restores (seen memory) (onRegisters f c : Instruction β E _) :=
  (Exec.restores_first h).then fun _ => Exec.commits_pure _

theorem restores_onMemory {f : α → ScalarInstructionStep} {c : OnBus β (ScalarMemoryExecutionError E) α}
    (h : Exec.Restores (seen memory) c) : Exec.Restores (seen memory) (onMemory f c : Instruction β E _) :=
  (Exec.restores_mapErr h).then fun _ => Exec.commits_pure _

theorem onMemory_returned {f : α → ScalarInstructionStep} {c : OnBus β (ScalarMemoryExecutionError E) α}
    {s : ScalarMachine × β} {e : ScalarInstructionError E}
    (h : ((onMemory f c : Instruction β E _) s).1 = .error (.returned e)) :
    ((onMemory f c : Instruction β E _) s).2 = (c s).2 ∧ ∃ e', (c s).1 = .error (.returned e') := by
  rcases hc : c s with ⟨(e' | _) | a, s'⟩
  · have hm : Exec.mapErr ScalarInstructionError.memory c s = (.error (.returned (.memory e')), s') := by
      rw [Exec.mapErr, hc]
      rfl
    exact ⟨congrArg Prod.snd (Exec.bind_error hm), e', rfl⟩
  · have hm : Exec.mapErr ScalarInstructionError.memory c s = (.error .panicked, s') := by
      rw [Exec.mapErr, hc]
      rfl
    have := congrArg Prod.fst (Exec.bind_error (f := fun a => pure (f a)) hm)
    cases h.symm.trans this
  · have hm : Exec.mapErr ScalarInstructionError.memory c s = (.ok a, s') := by
      rw [Exec.mapErr, hc]
      rfl
    have := congrArg Prod.fst (Exec.bind_ok (f := fun a => pure (f a)) hm)
    cases h.symm.trans this

theorem restores_synchronize {call : β → Except E Bool × β} (hcall : ∀ b, (call b).1 ≠ .ok true → (call b).2 = b)
    (backend : E → ScalarInstructionError E) (unsupported : ScalarInstructionError E) (step : ScalarInstructionStep) :
    Exec.Restores (seen memory) (synchronize call backend unsupported step) := by
  rintro ⟨m, b⟩ e he
  unfold synchronize at he ⊢
  have hb := hcall b
  rcases hc : call b with ⟨e' | done, b'⟩
  · rw [hc] at hb
    rw [Exec.bind_error (busCall_error hc), seen, seen]
    exact congrArg (fun x => (m, memory x)) (hb nofun)
  · rw [hc] at hb
    rw [Exec.bind_ok (busCall_ok hc)] at he ⊢
    cases done with
    | true => cases he
    | false => exact congrArg (fun x => (m, memory x)) (hb nofun)

theorem restores_executeControl (hbus : bus.Lawful memory) (pc : UInt64) (word : UInt32) :
    Exec.Restores (seen memory) (executeControl bus pc word) := by
  refine (quiet_onMachine_query _).then fun m => ?_
  split
  case h_1 step _ => exact restores_synchronize (fun b => hbus.barrierFails b step) _ _ _
  split
  · exact (Exec.quiet_outcome _).then fun step => restores_synchronize (fun b => hbus.cacheFails b step) _ _ _
  split
  case h_1 step _ => exact restores_synchronize (fun b => hbus.pipelineFails b step) _ _ _
  · exact restores_onRegisters (restores_executeFlowWord pc word)

/-- An instruction that returns an error leaves the machine, and the memory of the bus unless a pair store was cut
short. -/
theorem executeInstruction_returned (hbus : bus.Lawful memory) {pc : UInt64} {word : UInt32} {s : ScalarMachine × β}
    {e : ScalarInstructionError E} (h : (executeInstruction bus pc word s).1 = .error (.returned e)) :
    seen memory (executeInstruction bus pc word s).2 = seen memory s ∨
      ∃ b', (executeInstruction bus pc word s).2 = (s.1, b') ∧ CutShort bus s.1 word s.2 b' := by
  unfold executeInstruction at h ⊢
  split at h
  case isTrue hflow =>
    rw [if_pos hflow]
    exact .inl (restores_executeControl hbus pc word s e h)
  case isFalse hflow =>
    rw [if_neg hflow]
    obtain ⟨hint, hword, -⟩ := ScalarInstruction.fromWord_decodes (ε := ScalarInstructionError E) s.1.architecture word
    have hd : (onMachine (decode word) : Instruction β E _) s = (.ok hint, s) := by
      show (Outcome.mapErr id (ScalarInstruction.fromWord s.1.architecture word), (s.1, s.2)) = _
      rw [hword]
      rfl
    rw [Exec.bind_ok hd] at h ⊢
    split at h
    · exact .inl (restores_onRegisters (restores_executeCompareWord pc word) s e h)
    · exact .inl (restores_onRegisters (restores_executeCompareRegisterWord pc word) s e h)
    · exact .inl (restores_onRegisters (restores_executeCompareImmediateWord pc word) s e h)
    · exact .inl (restores_onRegisters (restores_executeSelectWord pc word) s e h)
    · exact .inl (restores_onMemory (restores_executePairLoadWord hbus pc word) s e h)
    · obtain ⟨hs, e', he⟩ := onMemory_returned h
      rw [hs]
      rcases executePairStoreWord_returned hbus he with hsame | hcut
      · exact .inl (by rw [hsame])
      · exact .inr hcut
    · exact .inl (restores_onMemory (restores_executeIndexedLoadWord hbus pc word) s e h)
    · exact .inl (restores_onMemory (restores_executeIndexedStoreWord hbus pc word) s e h)
    · exact .inl (restores_onMemory (restores_executeIndexedImmediateStoreWord hbus pc word) s e h)
    · exact .inl (restores_onRegisters (quiet_executeCacheHintWord pc word).restores s e h)
    · exact .inl (restores_onMemory (restores_executeMemoryWord hbus pc word) s e h)
    · exact .inl (restores_onMemory (restores_executeImmediateStoreWord hbus pc word) s e h)
    · exact .inl (restores_onRegisters (restores_executeSprReadWord pc word) s e h)
    · exact .inl (restores_onRegisters (restores_executeSprWord pc word) s e h)
    · exact .inl (restores_onRegisters (restores_executeWord pc word) s e h)

end ScalarMachine

/-! ## The stepper -/

/-- A step that returns an error leaves the stepper as it was, and the memory of the bus, unless the word is a pair
store that failed between its writes: then the bus is as the first write left it. -/
theorem stepWord_error_restores {bus : ScalarMemoryBus β E} {memory : β → μ} (hbus : bus.Lawful memory)
    (s : ScalarStepper) (b : β) (word : UInt32) (e : ScalarInstructionError E)
    (h : (ScalarStepper.stepWord bus word (s, b)).1 = .error (.returned e)) :
    (ScalarStepper.stepWord bus word (s, b)).2.1 = s ∧
      (memory (ScalarStepper.stepWord bus word (s, b)).2.2 = memory b ∨
        ScalarMachine.CutShort bus s.machine word b (ScalarStepper.stepWord bus word (s, b)).2.2) := by
  unfold ScalarStepper.stepWord at h ⊢
  rw [Exec.query_bind] at h ⊢
  split at h
  case isTrue hhalted =>
    rw [if_pos hhalted]
    exact ⟨rfl, .inl rfl⟩
  case isFalse hhalted =>
    rw [if_neg hhalted]
    rcases hx : ScalarMachine.executeInstruction bus s.pc word (s.machine, b) with ⟨(e' | _) | step, m', b'⟩
    · have hon : ScalarStepper.onStepper (ScalarMachine.executeInstruction bus s.pc word) (s, b) =
          (.error (.returned e'), ({ s with machine := m' }, b')) := by
        rw [ScalarStepper.onStepper, hx]
      have hreturned := ScalarMachine.executeInstruction_returned hbus
        (show (ScalarMachine.executeInstruction bus s.pc word (s.machine, b)).1 = .error (.returned e') by rw [hx])
      rw [Exec.bind_error hon]
      rw [hx] at hreturned
      rcases hreturned with hseen | ⟨b'', hs, hcut⟩
      · obtain ⟨hm, hmemory⟩ := Prod.mk.inj hseen
        exact ⟨by rw [show m' = s.machine from hm], .inl hmemory⟩
      · obtain ⟨rfl, rfl⟩ := Prod.mk.inj hs
        exact ⟨rfl, .inr hcut⟩
    · have hon : ScalarStepper.onStepper (ScalarMachine.executeInstruction bus s.pc word) (s, b) =
          (.error .panicked, ({ s with machine := m' }, b')) := by
        rw [ScalarStepper.onStepper, hx]
      rw [Exec.bind_error hon] at h
      cases h
    · have hon : ScalarStepper.onStepper (ScalarMachine.executeInstruction bus s.pc word) (s, b) =
          (.ok step, ({ s with machine := m' }, b')) := by
        rw [ScalarStepper.onStepper, hx]
      rw [Exec.bind_ok hon] at h
      cases h

theorem windowBus_lawful (base : UInt64) : (windowBus base).Lawful (μ := List UInt8) id where
  readFails b address n e h := by
    unfold windowBus at h ⊢
    dsimp only at h ⊢
    split at h
    · cases h
    · rw [if_neg ‹_›]
  readKeeps b address n bytes h := by
    unfold windowBus
    dsimp only
    split <;> rfl
  writeFails b address bytes e h := by
    unfold windowBus at h ⊢
    dsimp only at h ⊢
    split at h
    · cases h
    · rw [if_neg ‹_›]
  cacheFails _ _ _ := rfl
  pipelineFails _ _ _ := rfl
  barrierFails _ _ _ := rfl

/-- An indexed store below the window leaves the stepper. -/
theorem stepWord_error_restores_indexed :
    (ScalarStepper.stepWord (windowBus 0x1000) 0x011cb600
      (⟨.new .dav2201 (Vector.replicate 32 0) 0, 0x100, false⟩, List.replicate 32 0)).2.1 =
        ⟨.new .dav2201 (Vector.replicate 32 0) 0, 0x100, false⟩ ∧
      (id (ScalarStepper.stepWord (windowBus 0x1000) 0x011cb600
        (⟨.new .dav2201 (Vector.replicate 32 0) 0, 0x100, false⟩, List.replicate 32 0)).2.2 = id (List.replicate 32 0) ∨
        ScalarMachine.CutShort (windowBus 0x1000) (.new .dav2201 (Vector.replicate 32 0) 0) 0x011cb600
          (List.replicate 32 0) (ScalarStepper.stepWord (windowBus 0x1000) 0x011cb600
            (⟨.new .dav2201 (Vector.replicate 32 0) 0, 0x100, false⟩, List.replicate 32 0)).2.2) :=
  stepWord_error_restores (windowBus_lawful 0x1000) _ _ _ (.memory (.backend "invalid input")) rfl

/-- A pair store whose second half lies past the window writes its first half, and returns the error of the second. -/
theorem pair_store_keeps_first_write :
    (windowBus 0x1000).Lawful (μ := List UInt8) id ∧
    (ScalarStepper.stepWord (windowBus 0x1000) 0x0cca0191
      (⟨.new .dav3510 ((Vector.replicate 32 0).set 0 0x1010) 0, 0x100, false⟩, List.replicate 32 7)).1 =
        .error (.returned (.memory (.backend "invalid input"))) ∧
    (ScalarStepper.stepWord (windowBus 0x1000) 0x0cca0191
      (⟨.new .dav3510 ((Vector.replicate 32 0).set 0 0x1010) 0, 0x100, false⟩, List.replicate 32 7)).2.2 =
        List.replicate 24 7 ++ List.replicate 8 0 :=
  ⟨windowBus_lawful 0x1000, rfl, rfl⟩

end AscendEmulator.Common.Scalar
