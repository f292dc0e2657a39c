/-
  AscendEmulator.C220.Fixp.EngineProofs — the queues and maps of the FIX engine are views of the ledger.

  `exec_effect` says once what each call does; `Tracks.step` carries the views over one call.
-/

import AscendEmulator.C220.Fixp.Ledger

namespace AscendEmulator.C220.Fixp

open Lib

/-! ## One command in the maps -/

/-- What the maps hold of one id. -/
structure Slots where
  command : Option CommandState
  factor : Option FactorCommandState
  control : Option Nat
  crossCore : Option CrossCoreCommand
  completion : Option Nat

namespace Slots

def empty : Slots := ⟨none, none, none, none, none⟩

/-- How many of the four command maps have the id. -/
def count (σ : Slots) : Nat :=
  σ.command.isSome.toNat + σ.factor.isSome.toNat + σ.control.isSome.toNat + σ.crossCore.isSome.toNat

end Slots

def Engine.slots (s : Engine) (id : Nat) : Slots :=
  ⟨s.commands.get? id, s.factorCommands.get? id, s.controlCommands.get? id, s.crossCoreCommands.get? id,
    s.writeCompletions.get? id⟩

/-- The maps hold the command as the ledger has it. -/
def Entry.Fits (e : Entry) (σ : Slots) : Prop :=
  match e.kind with
  | .fix enabled => ∃ state completion, σ = ⟨some state, none, none, none, completion⟩ ∧
      state.command.descriptor.isDisabled = !enabled ∧ state.executedTick.isSome = e.executed ∧
      state.writeDispatchedTick.isSome = e.dispatched ∧ completion.isSome = (e.completed || !enabled)
  | .factor nonempty => ∃ state, σ = ⟨none, some state, none, none, none⟩ ∧
      state.dispatchedTick.isSome = e.dispatched ∧ state.completedTick.isSome = (e.completed || !nonempty) ∧
      (e.completed = true → e.dispatched = true)
  | .control => ∃ ready, σ = ⟨none, none, some ready, none, none⟩
  | .crossCore => ∃ command, σ = ⟨none, none, none, some command, none⟩

theorem Entry.Fits.count {e : Entry} {σ : Slots} (h : e.Fits σ) : σ.count = 1 := by
  unfold Entry.Fits at h
  split at h
  · obtain ⟨state, completion, rfl, -⟩ := h
    rfl
  · obtain ⟨state, rfl, -⟩ := h
    rfl
  · obtain ⟨ready, rfl⟩ := h
    rfl
  · obtain ⟨command, rfl⟩ := h
    rfl

theorem Engine.containsCommand_eq_false {s : Engine} {id : Nat} :
    s.containsCommand id = false ↔ s.commands.get? id = none ∧ s.factorCommands.get? id = none ∧
      s.controlCommands.get? id = none ∧ s.crossCoreCommands.get? id = none := by
  simp only [Engine.containsCommand, Bool.or_eq_false_iff, OrdMap.contains_eq_false, and_assoc]

/-! ## What a call does -/

variable {s s' : Engine} {id tick : Nat}

/-- The command `id` is changed as `f` changes its entry, and nothing of another command. -/
structure Marks (s s' : Engine) (id : Nat) (f : Entry → Entry) : Prop where
  others : ∀ j, j ≠ id → s'.slots j = s.slots j
  present : s.slots id ≠ .empty
  fits : ∀ e : Entry, e.id = id → e.Fits (s.slots id) → (f e).Fits (s'.slots id)
  queue : s'.commandRetirement = s.commandRetirement
  fixQueue : s'.retirementFifo = s.retirementFifo
  last : s'.lastRetirement = s.lastRetirement

/-- What an event means for the engine. -/
def Effect (s s' : Engine) : Event → Prop
  | .admitted id kind => s.containsCommand id = false ∧ (∀ j, j ≠ id → s'.slots j = s.slots j) ∧
      (s.slots id = .empty → (Entry.admitted id kind).Fits (s'.slots id)) ∧
      s'.commandRetirement = s.commandRetirement ++ [id] ∧
      s'.retirementFifo = s.retirementFifo ++ (if (Entry.admitted id kind).isFix then [id] else []) ∧
      s'.instructionFifo = s.instructionFifo ++ (if (Entry.admitted id kind).awaiting then [id] else []) ∧
      s'.lastRetirement = s.lastRetirement
  | .executed id => Marks s s' id (fun e => { e with executed := true }) ∧ s'.instructionFifo = s.instructionFifo
  | .dispatched id => Marks s s' id (fun e => { e with dispatched := true }) ∧
      s.instructionFifo = id :: s'.instructionFifo
  | .completed id => Marks s s' id (fun e => { e with completed := true }) ∧ s'.instructionFifo = s.instructionFifo
  | .retired id tick => s.commandRetirement = id :: s'.commandRetirement ∧ (∀ j, j ≠ id → s'.slots j = s.slots j) ∧
      (∀ e : Entry, e.id = id → e.Fits (s.slots id) → e.ready = true ∧ s'.slots id = .empty ∧
        s.retirementFifo = (if e.isFix then [id] else []) ++ s'.retirementFifo) ∧
      s'.instructionFifo = s.instructionFifo ∧ s'.lastRetirement = some ⟨id, tick⟩ ∧
      s.lastRetirement.all fun previous => decide (previous.tick < tick)

/-! ### Admissions -/

/-- An enabled command has something to read. -/
theorem readBlocks_ne_zero {command : Command} (h : command.descriptor.isDisabled = false) : command.readBlocks ≠ 0 := by
  rw [Command.readBlocks, h]
  simp only [Descriptor.isDisabled, Bool.or_eq_false_iff, beq_eq_false_iff_ne, Bool.and_eq_false_iff] at h
  obtain ⟨⟨-, hcolumns⟩, hnd⟩ := h
  rw [if_neg (by decide)]
  split
  · rename_i hnz
    exact hnd.resolve_left (by simp [hnz])
  · omega

theorem recordCommand_effect {command : Command} {destination : Destination} (h : s.containsCommand id = false) :
    Effect s (s.recordCommand tick id command destination) (.admitted id (.fix (!command.descriptor.isDisabled))) := by
  obtain ⟨hc, hf, hco, hx⟩ := Engine.containsCommand_eq_false.mp h
  unfold Engine.recordCommand
  cases hd : command.descriptor.isDisabled with
  | true =>
    refine ⟨h, ?_, ?_, rfl, rfl, by simp [Entry.awaiting, Entry.admitted], rfl⟩
    · intro j hj
      simp [Engine.slots, OrdMap.get?_insert_ne hj]
    · intro _
      exact ⟨_, _, by simp [Engine.slots, hf, hco, hx]; exact ⟨rfl, rfl⟩, by simp [hd], rfl, rfl, rfl⟩
  | false =>
    refine ⟨h, ?_, ?_, rfl, rfl, by simp [Entry.awaiting, Entry.admitted], rfl⟩
    · intro j hj
      simp [Engine.slots, OrdMap.get?_insert_ne hj]
    · intro hempty
      have hdone : s.writeCompletions.get? id = none := congrArg Slots.completion hempty
      exact ⟨_, none, by simp [Engine.slots, hf, hco, hx, hdone]; rfl, by simp [hd], rfl, rfl, rfl⟩

theorem admissionBackpressure_cases {datapath : Datapath} {blocked : Admission}
    (h : s.admissionBackpressure datapath = some blocked) :
    blocked = .readGenerationBusy ∨ blocked = .instructionFifoFull := by
  unfold Engine.admissionBackpressure at h
  split at h
  · exact .inl (Option.some.inj h).symm
  split at h
  · exact .inr (Option.some.inj h).symm
  · cases h

/-- What a call did, by the event of its reply. -/
def Does (s s' : Engine) : Option Event → Prop
  | none => s' = s
  | some e => Effect s s' e

theorem admitTo_does (s : Engine) (tick id : Nat) (routed : Bool) (command : Command) (destination : Destination) (datapath : Datapath) :
    Does s (s.admitTo routed tick id command destination datapath).2
      ((s.admitTo routed tick id command destination datapath).1.toOption.bind
        (admissionEvent id (.fix true) (.fix false))) := by
  unfold Engine.admitTo
  split
  · rfl
  rename_i hnew
  rw [Bool.not_eq_true] at hnew
  have hrecord : Effect s (s.recordCommand tick id command destination) _ := recordCommand_effect hnew
  split
  · rename_i hd
    rw [hd] at hrecord
    exact hrecord
  rename_i hd
  rw [Bool.not_eq_true] at hd
  rw [hd] at hrecord
  split
  · rfl
  split
  · rename_i blocked hb
    rcases admissionBackpressure_cases hb with rfl | rfl <;> rfl
  split
  · rfl
  split
  · rfl
  split
  · rfl
  rw [if_neg (readBlocks_ne_zero hd)]
  exact hrecord

theorem admitFactorBatch_does (s : Engine) (tick : Nat) (cursor : FactorCursor) (datapath : Datapath) :
    Does s (s.admitFactorBatch tick cursor datapath).2
      ((s.admitFactorBatch tick cursor datapath).1.toOption.bind
        (admissionEvent cursor.instructionId (.factor true) (.factor false))) := by
  unfold Engine.admitFactorBatch
  dsimp only
  split
  · rfl
  rename_i hnew
  rw [Bool.not_eq_true] at hnew
  obtain ⟨hc, -, hco, hx⟩ := Engine.containsCommand_eq_false.mp hnew
  split
  · refine ⟨hnew, ?_, ?_, rfl, by simp [Entry.isFix, Entry.admitted], by simp [Entry.awaiting, Entry.admitted], rfl⟩
    · intro j hj
      simp [Engine.slots, OrdMap.get?_insert_ne hj]
    · intro hempty
      have hdone : s.writeCompletions.get? cursor.instructionId = none := congrArg Slots.completion hempty
      exact ⟨⟨tick, none, some tick⟩, by simp [Engine.slots, hc, hco, hx, hdone], rfl, rfl, by simp [Entry.admitted]⟩
  split
  · rfl
  split
  · rename_i blocked hb
    rcases admissionBackpressure_cases hb with rfl | rfl <;> rfl
  split
  · rfl
  · refine ⟨hnew, ?_, ?_, rfl, by simp [Entry.isFix, Entry.admitted], by simp [Entry.awaiting, Entry.admitted], rfl⟩
    · intro j hj
      simp [Engine.slots, OrdMap.get?_insert_ne hj]
    · intro hempty
      have hdone : s.writeCompletions.get? cursor.instructionId = none := congrArg Slots.completion hempty
      exact ⟨⟨tick, none, none⟩, by simp [Engine.slots, hc, hco, hx, hdone], rfl, rfl, by simp [Entry.admitted]⟩

theorem admitControl_does (s : Engine) (tick id : Nat) :
    Does s (s.admitControl tick id).2
      ((s.admitControl tick id).1.toOption.map fun _ => .admitted id .control) := by
  unfold Engine.admitControl
  split
  · rfl
  rename_i hnew
  rw [Bool.not_eq_true] at hnew
  obtain ⟨hc, hf, -, hx⟩ := Engine.containsCommand_eq_false.mp hnew
  split
  · rfl
  · refine ⟨hnew, ?_, ?_, rfl, by simp [Entry.isFix, Entry.admitted], by simp [Entry.awaiting, Entry.admitted], rfl⟩
    · intro j hj
      simp [Engine.slots, OrdMap.get?_insert_ne hj]
    · intro hempty
      have hdone : s.writeCompletions.get? id = none := congrArg Slots.completion hempty
      exact ⟨_, by simp [Engine.slots, hc, hf, hx, hdone]; rfl⟩

theorem admitCrossCore_does (s : Engine) (tick id : Nat) (pc : UInt64) (word : UInt32) (payload : UInt64) :
    Does s (s.admitCrossCore tick id pc word payload).2
      ((s.admitCrossCore tick id pc word payload).1.toOption.map fun _ => .admitted id .crossCore) := by
  unfold Engine.admitCrossCore
  split
  · rfl
  rename_i hnew
  rw [Bool.not_eq_true] at hnew
  obtain ⟨hc, hf, hco, -⟩ := Engine.containsCommand_eq_false.mp hnew
  split
  · rfl
  · refine ⟨hnew, ?_, ?_, rfl, by simp [Entry.isFix, Entry.admitted], by simp [Entry.awaiting, Entry.admitted], rfl⟩
    · intro j hj
      simp [Engine.slots, OrdMap.get?_insert_ne hj]
    · intro hempty
      have hdone : s.writeCompletions.get? id = none := congrArg Slots.completion hempty
      exact ⟨_, by simp [Engine.slots, hc, hf, hco, hdone]; rfl⟩

/-! ### Marks -/

theorem Entry.Fits.fix {e : Entry} {σ : Slots} {state : CommandState} (h : e.Fits σ) (hs : σ.command = some state) :
    ∃ enabled, e.kind = .fix enabled ∧ σ = ⟨some state, none, none, none, σ.completion⟩ ∧
      state.command.descriptor.isDisabled = !enabled ∧ state.executedTick.isSome = e.executed ∧
      state.writeDispatchedTick.isSome = e.dispatched ∧ σ.completion.isSome = (e.completed || !enabled) := by
  unfold Entry.Fits at h
  split at h
  · rename_i enabled hk
    obtain ⟨state', completion, rfl, hrest⟩ := h
    obtain rfl : state' = state := Option.some.inj hs
    exact ⟨enabled, hk, rfl, hrest⟩
  · obtain ⟨_, rfl, -⟩ := h
    cases hs
  · obtain ⟨_, rfl⟩ := h
    cases hs
  · obtain ⟨_, rfl⟩ := h
    cases hs

theorem Entry.Fits.loaded {e : Entry} {σ : Slots} {state : FactorCommandState} (h : e.Fits σ)
    (hs : σ.factor = some state) :
    ∃ nonempty, e.kind = .factor nonempty ∧ σ = ⟨none, some state, none, none, none⟩ ∧
      state.dispatchedTick.isSome = e.dispatched ∧ state.completedTick.isSome = (e.completed || !nonempty) ∧
      (e.completed = true → e.dispatched = true) := by
  unfold Entry.Fits at h
  split at h
  · obtain ⟨_, _, rfl, -⟩ := h
    cases hs
  · rename_i nonempty hk
    obtain ⟨state', rfl, hrest⟩ := h
    obtain rfl : state' = state := Option.some.inj hs
    exact ⟨nonempty, hk, rfl, hrest⟩
  · obtain ⟨_, rfl⟩ := h
    cases hs
  · obtain ⟨_, rfl⟩ := h
    cases hs

/-- The state of a FIX command is replaced by `state'`, and `f` changes its entry the same way. -/
theorem marks_command {state state' : CommandState} {f : Entry → Entry} {instructions : List Nat}
    (hs : s.commands.get? id = some state) (hcommand : state'.command = state.command)
    (hkind : ∀ e, (f e).kind = e.kind) (hcompleted : ∀ e, (f e).completed = e.completed)
    (hexecuted : ∀ e : Entry, state.executedTick.isSome = e.executed → state'.executedTick.isSome = (f e).executed)
    (hdispatched : ∀ e : Entry, state.writeDispatchedTick.isSome = e.dispatched →
      state'.writeDispatchedTick.isSome = (f e).dispatched) :
    Marks s { s with commands := s.commands.insert id state', instructionFifo := instructions } id f := by
  refine ⟨?_, ?_, ?_, rfl, rfl, rfl⟩
  · intro j hj
    simp [Engine.slots, OrdMap.get?_insert_ne hj]
  · intro hempty
    have : s.commands.get? id = none := congrArg Slots.command hempty
    rw [hs] at this
    cases this
  · intro e _ hfits
    obtain ⟨enabled, hk, hσ, hdisabled, hex, hdi, hco⟩ := hfits.fix hs
    obtain ⟨-, hf, hcontrol, hx, -⟩ := Slots.mk.inj hσ
    rw [Entry.Fits, hkind, hk]
    refine ⟨state', (s.slots id).completion, ?_, ?_, hexecuted e hex, hdispatched e hdi, ?_⟩
    · simp only [Engine.slots, OrdMap.get?_insert_self, hf, hcontrol, hx]
    · rw [hcommand, hdisabled]
    · rw [hcompleted, hco]

theorem receiveL0c_does (s : Engine) (tick : Nat) (accepted : Option (Nat × Except EngineError Bool)) :
    Does s (s.receiveL0c tick accepted).2 (match accepted, (s.receiveL0c tick accepted).1 with
      | some (id, .ok true), .ok () => some (.executed id)
      | _, _ => none) := by
  unfold Engine.receiveL0c
  split
  · rfl
  rename_i id event
  cases hs : s.commands.get? id with
  | none =>
    cases event with
    | error e => rfl
    | ok last => cases last <;> rfl
  | some state =>
    cases event with
    | error e => rfl
    | ok last =>
      cases last with
      | false => rfl
      | true =>
        refine ⟨marks_command hs rfl (fun _ => rfl) (fun _ => rfl) (fun _ _ => rfl) (fun _ h => h), rfl⟩

theorem dispatch_command {state : CommandState} (hhead : s.instructionFifo.head? = some id)
    (hs : s.commands.get? id = some state) :
    Effect s { s with
      commands := s.commands.insert id { state with writeDispatchedTick := some tick }
      instructionFifo := s.instructionFifo.tail } (.dispatched id) := by
  refine ⟨marks_command hs rfl (fun _ => rfl) (fun _ => rfl) (fun _ h => h) (fun _ _ => rfl), ?_⟩
  exact (List.cons_head?_tail hhead).symm

theorem marks_factor {state state' : FactorCommandState} {f : Entry → Entry} {instructions : List Nat}
    (hs : s.factorCommands.get? id = some state) (hkind : ∀ e, (f e).kind = e.kind)
    (hfits : ∀ e : Entry, ∀ nonempty, state.dispatchedTick.isSome = e.dispatched →
      state.completedTick.isSome = (e.completed || !nonempty) → (e.completed = true → e.dispatched = true) →
      state'.dispatchedTick.isSome = (f e).dispatched ∧
        state'.completedTick.isSome = ((f e).completed || !nonempty) ∧
        ((f e).completed = true → (f e).dispatched = true)) :
    Marks s { s with factorCommands := s.factorCommands.insert id state', instructionFifo := instructions } id f := by
  refine ⟨?_, ?_, ?_, rfl, rfl, rfl⟩
  · intro j hj
    simp [Engine.slots, OrdMap.get?_insert_ne hj]
  · intro hempty
    have : s.factorCommands.get? id = none := congrArg Slots.factor hempty
    rw [hs] at this
    cases this
  · intro e _ h
    obtain ⟨nonempty, hk, hσ, hdi, hco, himp⟩ := h.loaded hs
    obtain ⟨hc, -, hcontrol, hx, hw⟩ := Slots.mk.inj hσ
    rw [Entry.Fits, hkind, hk]
    refine ⟨state', ?_, hfits e nonempty hdi hco himp⟩
    simp only [Engine.slots, OrdMap.get?_insert_self, hc, hcontrol, hx, hw]

theorem dispatch_factor {state : FactorCommandState} (hhead : s.instructionFifo.head? = some id)
    (hs : s.factorCommands.get? id = some state) :
    Effect s { s with
      factorCommands := s.factorCommands.insert id { state with dispatchedTick := some tick }
      instructionFifo := s.instructionFifo.tail } (.dispatched id) := by
  refine ⟨marks_factor hs (fun _ => rfl) ?_, (List.cons_head?_tail hhead).symm⟩
  intro e nonempty _ hco _
  exact ⟨rfl, hco, fun _ => rfl⟩

theorem observeWriteDispatch_does (s : Engine) (tick : Nat) (packet : DispatchPacket) :
    Does s (s.observeWriteDispatch tick packet).2
      ((s.observeWriteDispatch tick packet).1.toOption.bind fun _ => dispatchEvent packet) := by
  unfold Engine.observeWriteDispatch
  split
  · split
    · rfl
    rename_i hhead
    rw [Classical.not_not] at hhead
    split
    · rfl
    · rename_i state hs
      exact dispatch_factor hhead hs
  · split
    · rfl
    rename_i hhead
    rw [Classical.not_not] at hhead
    split
    · rfl
    · rename_i state hs
      exact dispatch_command hhead hs
  · split
    · rfl
    rename_i hhead
    rw [Classical.not_not] at hhead
    split
    · rfl
    · rename_i state hs
      exact dispatch_command hhead hs
  all_goals rfl

theorem completeFactorTransport_does (s : Engine) (tick id : Nat) :
    Does s (s.completeFactorTransport tick id).2
      ((s.completeFactorTransport tick id).1.toOption.map fun _ => .completed id) := by
  unfold Engine.completeFactorTransport
  split
  · rfl
  rename_i state hs
  split
  · rfl
  · rename_i hdispatched
    have hdi : state.dispatchedTick.isSome = true := by simpa using Option.isSome_iff_ne_none.mpr (by simpa using hdispatched)
    refine ⟨marks_factor hs (fun _ => rfl) ?_, rfl⟩
    intro e nonempty he _ _
    exact ⟨he, rfl, fun _ => he.symm.trans hdi⟩

theorem completeWriteTransport_does (s : Engine) (tick id : Nat) :
    Does s (s.completeWriteTransport tick id).2
      ((s.completeWriteTransport tick id).1.toOption.map fun _ => .completed id) := by
  unfold Engine.completeWriteTransport
  split
  · rfl
  rename_i state hs
  split
  · rfl
  · refine ⟨⟨?_, ?_, ?_, rfl, rfl, rfl⟩, rfl⟩
    · intro j hj
      by_cases hdone : s.writeCompletions.contains id = true
      · simp [Engine.slots, hdone]
      · simp [Engine.slots, hdone, OrdMap.get?_insert_ne hj]
    · intro hempty
      have : s.commands.get? id = none := congrArg Slots.command hempty
      rw [hs] at this
      cases this
    · intro e _ hfits
      obtain ⟨enabled, hk, hσ, hdisabled, hex, hdi, -⟩ := hfits.fix hs
      obtain ⟨hc, hf, hcontrol, hx, -⟩ := Slots.mk.inj hσ
      rw [Entry.Fits]
      simp only [hk]
      refine ⟨state, _, by simp only [Engine.slots, hs, hf, hcontrol, hx]; rfl, hdisabled, hex, hdi, ?_⟩
      by_cases hdone : s.writeCompletions.contains id = true
      · rw [if_pos hdone, Bool.true_or]
        exact hdone
      · simp [hdone]

/-! ### Retirements -/

theorem canRetireAt_iff : s.canRetireAt tick id = true ↔
    s.commandRetirement.head? = some id ∧ s.lastRetirement.all (fun previous => decide (previous.tick < tick)) = true := by
  rw [Engine.canRetireAt, Engine.commandRetirementHead, Bool.and_eq_true, beq_iff_eq]

/-- The head `id` leaves: `base` has dropped the command from its map, and from the FIX queue. -/
theorem popRetired_effect {base : Engine} (hcan : s.canRetireAt tick id = true)
    (hqueue : base.commandRetirement = s.commandRetirement) (hinstr : base.instructionFifo = s.instructionFifo)
    (hothers : ∀ j, j ≠ id → base.slots j = s.slots j)
    (hfits : ∀ e : Entry, e.id = id → e.Fits (s.slots id) → e.ready = true ∧ base.slots id = .empty ∧
      s.retirementFifo = (if e.isFix then [id] else []) ++ base.retirementFifo) :
    Effect s (base.popRetired tick id) (.retired id tick) := by
  obtain ⟨hhead, hlast⟩ := canRetireAt_iff.mp hcan
  refine ⟨?_, hothers, hfits, hinstr, rfl, hlast⟩
  rw [Engine.popRetired, hqueue]
  exact (List.cons_head?_tail hhead).symm

theorem Entry.Fits.held {e : Entry} {σ : Slots} (h : e.Fits σ) :
    (σ.control.isSome = true → e.kind = .control ∧ σ = ⟨none, none, σ.control, none, none⟩) ∧
      (σ.crossCore.isSome = true → e.kind = .crossCore ∧ σ = ⟨none, none, none, σ.crossCore, none⟩) := by
  unfold Entry.Fits at h
  split at h
  · obtain ⟨_, _, rfl, -⟩ := h
    exact ⟨nofun, nofun⟩
  · obtain ⟨_, rfl, -⟩ := h
    exact ⟨nofun, nofun⟩
  · rename_i hk
    obtain ⟨_, rfl⟩ := h
    exact ⟨fun _ => ⟨hk, rfl⟩, nofun⟩
  · rename_i hk
    obtain ⟨_, rfl⟩ := h
    exact ⟨nofun, fun _ => ⟨hk, rfl⟩⟩

theorem retireReadyCrossCore_does (s : Engine) (tick : Nat) :
    Does s (s.retireReadyCrossCore tick).2
      ((s.retireReadyCrossCore tick).1.map fun reception => .retired reception.instructionId tick) := by
  unfold Engine.retireReadyCrossCore
  split
  · rfl
  rename_i id command h
  obtain ⟨head, -, h⟩ := Option.bind_eq_some_iff.mp h
  obtain ⟨state, hs, h⟩ := Option.map_eq_some_iff.mp h
  obtain ⟨rfl, rfl⟩ := Prod.mk.inj h
  split
  · rfl
  rename_i hready
  refine popRetired_effect (by simpa using (not_or.mp hready).2) rfl rfl ?_ ?_
  · intro j hj
    simp [Engine.slots, OrdMap.get?_erase_ne hj]
  · intro e _ hfits
    obtain ⟨hk, hσ⟩ := hfits.held.2 (by simp [Engine.slots, hs])
    obtain ⟨hc, hf, hcontrol, -, hw⟩ := Slots.mk.inj hσ
    refine ⟨by simp [Entry.ready, hk], ?_, by simp [Entry.isFix, hk]⟩
    simp only [Engine.slots, OrdMap.get?_erase_self, hc, hf, hcontrol, hw]
    rfl

theorem retireReadyControl_does (s : Engine) (tick : Nat) :
    Does s (s.retireReadyControl tick).2 ((s.retireReadyControl tick).1.map fun id => .retired id tick) := by
  unfold Engine.retireReadyControl
  split
  · rfl
  rename_i id ready h
  obtain ⟨head, -, h⟩ := Option.bind_eq_some_iff.mp h
  obtain ⟨state, hs, h⟩ := Option.map_eq_some_iff.mp h
  obtain ⟨rfl, rfl⟩ := Prod.mk.inj h
  split
  · rfl
  rename_i hready
  refine popRetired_effect (by simpa using (not_or.mp hready).2) rfl rfl ?_ ?_
  · intro j hj
    simp [Engine.slots, OrdMap.get?_erase_ne hj]
  · intro e _ hfits
    obtain ⟨hk, hσ⟩ := hfits.held.1 (by simp [Engine.slots, hs])
    obtain ⟨hc, hf, -, hx, hw⟩ := Slots.mk.inj hσ
    refine ⟨by simp [Entry.ready, hk], ?_, by simp [Entry.isFix, hk]⟩
    simp only [Engine.slots, OrdMap.get?_erase_self, hc, hf, hx, hw]
    rfl

theorem retireFactor_does (s : Engine) (tick id : Nat) :
    Does s (s.retireFactor tick id).2 ((s.retireFactor tick id).1.toOption.map fun _ => .retired id tick) := by
  unfold Engine.retireFactor
  split
  · rfl
  rename_i state hs
  split
  · rfl
  rename_i done hdone
  split
  · rfl
  rename_i hready
  refine popRetired_effect (by simpa using (not_or.mp hready).1) rfl rfl ?_ ?_
  · intro j hj
    simp [Engine.slots, OrdMap.get?_erase_ne hj]
  · intro e _ hfits
    obtain ⟨nonempty, hk, hσ, hdi, hco, himp⟩ := hfits.loaded hs
    obtain ⟨hc, -, hcontrol, hx, hw⟩ := Slots.mk.inj hσ
    refine ⟨?_, ?_, by simp [Entry.isFix, hk]⟩
    · rw [hdone] at hco
      cases nonempty with
      | false => simp [Entry.ready, hk]
      | true =>
        have hcompleted : e.completed = true := by simpa using hco.symm
        simp [Entry.ready, hk, hcompleted, himp hcompleted]
    · simp only [Engine.slots, OrdMap.get?_erase_self, hc, hcontrol, hx, hw]
      rfl

theorem retire_ok {state : CommandState} (h : s.retire id = .ok state) :
    s.commands.get? id = some state ∧ s.retirementFifo.head? = some id ∧
      (state.command.descriptor.isDisabled = false →
        state.executedTick.isSome = true ∧ state.writeDispatchedTick.isSome = true) := by
  unfold Engine.retire at h
  split at h
  · cases h
  rename_i state' hs
  split at h
  · cases h
  rename_i hexecuted
  split at h
  · cases h
  rename_i hdispatched
  split at h
  · cases h
  rename_i hhead
  obtain rfl := Except.ok.inj h
  refine ⟨hs, by simpa using (not_or.mp hhead).1, fun hd => ⟨?_, ?_⟩⟩
  · simpa [hd, Option.isSome_iff_ne_none] using hexecuted
  · simpa [hd, Option.isSome_iff_ne_none] using hdispatched

theorem takeReadyWrite_does (s : Engine) (tick : Nat) :
    Does s (s.takeReadyWrite tick).2 (match (s.takeReadyWrite tick).1 with
      | .ok (some (id, _)) => some (.retired id tick)
      | _ => none) := by
  unfold Engine.takeReadyWrite
  split
  · rfl
  rename_i id hhead
  split
  · rename_i hcan
    cases hr : s.retire id with
    | error e => rfl
    | ok state =>
      obtain ⟨hs, hfirst, hdone⟩ := retire_ok hr
      refine popRetired_effect hcan.1 rfl rfl ?_ ?_
      · intro j hj
        simp [Engine.slots, OrdMap.get?_erase_ne hj]
      · intro e _ hfits
        obtain ⟨enabled, hk, hσ, hdisabled, hex, hdi, hco⟩ := hfits.fix hs
        obtain ⟨-, hf, hcontrol, hx, -⟩ := Slots.mk.inj hσ
        refine ⟨?_, ?_, ?_⟩
        · cases enabled with
          | false => simp [Entry.ready, hk]
          | true =>
            obtain ⟨hexecuted, hdispatched⟩ := hdone (by simpa using hdisabled)
            have hwritten : (s.slots id).completion.isSome = true := Option.isSome_of_any hcan.2
            have hcompleted : e.completed = true := by simpa [hwritten] using hco.symm
            simp [Entry.ready, hk, hcompleted, ← hex, ← hdi, hexecuted, hdispatched]
        · simp only [Engine.slots, OrdMap.get?_erase_self, hf, hcontrol, hx]
          rfl
        · simp only [Entry.isFix, hk]
          exact (List.cons_head?_tail hfirst).symm
  · rfl

/-! ### Every call -/

/-- What a call does to the engine is what its event says. -/
theorem exec_does (s : Engine) (c : Engine.Call) : Does s (Engine.exec c s).2 (event (c, (Engine.exec c s).1)) := by
  cases c with
  | admitFix tick id command datapath =>
    have h := admitTo_does s tick id false command .l1 datapath
    rw [← Engine.admitFix] at h
    simp only [Engine.exec, reply]
    generalize Engine.admitFix tick id command datapath s = r at h ⊢
    obtain ⟨e | a, u⟩ := r <;> exact h
  | admitRouted tick id command destination datapath =>
    have h := admitTo_does s tick id true command destination datapath
    rw [← Engine.admitRouted] at h
    simp only [Engine.exec, reply]
    generalize Engine.admitRouted tick id command destination datapath s = r at h ⊢
    obtain ⟨e | a, u⟩ := r <;> exact h
  | admitFactorBatch tick cursor datapath =>
    have h := admitFactorBatch_does s tick cursor datapath
    simp only [Engine.exec, reply]
    generalize Engine.admitFactorBatch tick cursor datapath s = r at h ⊢
    obtain ⟨e | a, u⟩ := r <;> exact h
  | admitControl tick id =>
    have h := admitControl_does s tick id
    simp only [Engine.exec, reply]
    generalize Engine.admitControl tick id s = r at h ⊢
    obtain ⟨e | a, u⟩ := r <;> exact h
  | admitCrossCore tick id pc word payload =>
    have h := admitCrossCore_does s tick id pc word payload
    simp only [Engine.exec, reply]
    generalize Engine.admitCrossCore tick id pc word payload s = r at h ⊢
    obtain ⟨e | a, u⟩ := r <;> exact h
  | receiveL0c tick accepted =>
    have h := receiveL0c_does s tick accepted
    simp only [Engine.exec, reply]
    generalize Engine.receiveL0c tick accepted s = r at h ⊢
    obtain ⟨e | a, u⟩ := r
    · rcases accepted with _ | ⟨id, e | _ | _⟩ <;> exact h
    · rcases accepted with _ | ⟨id, e | _ | _⟩ <;> exact h
  | observeWriteDispatch tick packet =>
    have h := observeWriteDispatch_does s tick packet
    simp only [Engine.exec, reply]
    generalize Engine.observeWriteDispatch tick packet s = r at h ⊢
    obtain ⟨e | a, u⟩ := r <;> exact h
  | completeFactorTransport tick id =>
    have h := completeFactorTransport_does s tick id
    simp only [Engine.exec, reply]
    generalize Engine.completeFactorTransport tick id s = r at h ⊢
    obtain ⟨e | a, u⟩ := r <;> exact h
  | completeWriteTransport tick id =>
    have h := completeWriteTransport_does s tick id
    simp only [Engine.exec, reply]
    generalize Engine.completeWriteTransport tick id s = r at h ⊢
    obtain ⟨e | a, u⟩ := r <;> exact h
  | retireReadyCrossCore tick =>
    have h := retireReadyCrossCore_does s tick
    simp only [Engine.exec]
    generalize Engine.retireReadyCrossCore tick s = r at h ⊢
    obtain ⟨_ | reception, u⟩ := r <;> exact h
  | retireReadyControl tick =>
    have h := retireReadyControl_does s tick
    simp only [Engine.exec]
    generalize Engine.retireReadyControl tick s = r at h ⊢
    obtain ⟨_ | id, u⟩ := r <;> exact h
  | retireFactor tick id =>
    have h := retireFactor_does s tick id
    simp only [Engine.exec, reply]
    generalize Engine.retireFactor tick id s = r at h ⊢
    obtain ⟨e | a, u⟩ := r <;> exact h
  | takeReadyWrite tick =>
    have h := takeReadyWrite_does s tick
    simp only [Engine.exec, reply]
    generalize Engine.takeReadyWrite tick s = r at h ⊢
    obtain ⟨e | _ | ⟨id, state⟩, u⟩ := r <;> exact h

/-! ## The engine and the ledger -/

/-- The retired command was the oldest outstanding one, and was ready. -/
def OldestReady (before : List Label) (x : Label) : Prop :=
  ∀ id tick, event x = some (.retired id tick) →
    ∃ e rest, ledger before = e :: rest ∧ e.id = id ∧ e.ready = true

/-- Every queue and map of the engine is a view of the ledger of the calls so far. -/
structure Tracks (t : List Label) (s : Engine) : Prop where
  nodup : ((ledger t).map Entry.id).Nodup
  queue : s.commandRetirement = (ledger t).map Entry.id
  fits : ∀ e ∈ ledger t, e.Fits (s.slots e.id)
  absent : ∀ id, id ∉ (ledger t).map Entry.id → s.slots id = .empty
  fixQueue : s.retirementFifo = ((ledger t).filter Entry.isFix).map Entry.id
  instructions : s.instructionFifo = ((ledger t).filter Entry.awaiting).map Entry.id
  order : admissions t = (retirements t).map Prod.fst ++ s.commandRetirement
  last : s.lastRetirement = (retirements t).getLast?.map fun r => ⟨r.1, r.2⟩
  ticks : ((retirements t).map Prod.snd).Pairwise (· < ·)
  retired : AtEach OldestReady t

theorem Tracks.init (depth : Nat) : Tracks [] (.new depth) := by
  refine ⟨List.nodup_nil, rfl, nofun, fun _ _ => rfl, rfl, rfl, rfl, rfl, List.Pairwise.nil, AtEach.nil⟩

/-- A list increases if a number larger than its last is put at its end. -/
theorem pairwise_concat {l : List Nat} {n : Nat} (h : l.Pairwise (· < ·)) (hlast : ∀ z, l.getLast? = some z → z < n) :
    (l ++ [n]).Pairwise (· < ·) := by
  rcases List.eq_nil_or_concat' l with rfl | ⟨l, z, rfl⟩
  · exact List.pairwise_singleton _ _
  have hz : z < n := hlast z (by simp)
  refine List.pairwise_append.mpr ⟨h, List.pairwise_singleton _ _, fun a ha b hb => ?_⟩
  obtain rfl := List.mem_singleton.mp hb
  rcases List.mem_append.mp ha with ha | ha
  · exact Nat.lt_trans ((List.pairwise_append.mp h).2.2 a ha z (by simp)) hz
  · obtain rfl := List.mem_singleton.mp ha
    exact hz

section Step

variable {t : List Label} {x : Label}

theorem Tracks.quiet (h : Tracks t s) (hx : event x = none) : Tracks (t ++ [x]) s := by
  obtain ⟨hl, ha, hr⟩ := snoc_quiet t x hx
  exact ⟨by rw [hl]; exact h.nodup, by rw [hl]; exact h.queue, by rw [hl]; exact h.fits, by rw [hl]; exact h.absent,
    by rw [hl]; exact h.fixQueue, by rw [hl]; exact h.instructions, by rw [ha, hr]; exact h.order,
    by rw [hr]; exact h.last, by rw [hr]; exact h.ticks, h.retired.snoc fun id tick he => by rw [hx] at he; cases he⟩

/-- An id that none of the maps has is not outstanding. -/
theorem Tracks.fresh (h : Tracks t s) (hnew : s.containsCommand id = false) : id ∉ (ledger t).map Entry.id := by
  intro hmem
  obtain ⟨e, he, rfl⟩ := List.mem_map.mp hmem
  have hcount := (h.fits e he).count
  obtain ⟨hc, hf, hco, hx⟩ := Engine.containsCommand_eq_false.mp hnew
  simp [Slots.count, Engine.slots, hc, hf, hco, hx] at hcount

theorem Tracks.admitted {kind : Kind} (h : Tracks t s) (hx : event x = some (.admitted id kind))
    (he : Effect s s' (.admitted id kind)) : Tracks (t ++ [x]) s' := by
  obtain ⟨hnew, hothers, hfits, hqueue, hfix, hinstr, hlast⟩ := he
  have hfresh := h.fresh hnew
  have hl : ledger (t ++ [x]) = ledger t ++ [.admitted id kind] := by rw [ledger_snoc, hx]; rfl
  have ha : admissions (t ++ [x]) = admissions t ++ [id] := admissions_snoc t x hx
  have hr : retirements (t ++ [x]) = retirements t := by simpa using retirements_snoc t x hx
  have hids : (ledger t ++ [Entry.admitted id kind]).map Entry.id = (ledger t).map Entry.id ++ [id] := by
    rw [List.map_append]
    rfl
  constructor
  · rw [hl, hids]
    exact List.nodup_append'.mpr ⟨h.nodup, List.nodup_singleton id, by simpa using hfresh⟩
  · rw [hl, hids, hqueue, h.queue]
  · rw [hl]
    intro e he
    rcases List.mem_append.mp he with he | he
    · rw [hothers e.id fun heq => hfresh (List.mem_map.mpr ⟨e, he, heq⟩)]
      exact h.fits e he
    · obtain rfl := List.mem_singleton.mp he
      exact hfits (h.absent id hfresh)
  · rw [hl, hids]
    intro j hj
    obtain ⟨hj, hne⟩ := not_or.mp (List.mem_append.not.mp hj)
    rw [hothers j (by simpa using hne)]
    exact h.absent j hj
  · rw [hl, hfix, h.fixQueue, List.filter_append, List.map_append]
    congr 1
    rw [List.filter_cons]
    split <;> rfl
  · rw [hl, hinstr, h.instructions, List.filter_append, List.map_append]
    congr 1
    rw [List.filter_cons]
    split <;> rfl
  · rw [ha, hr, hqueue, h.order, List.append_assoc]
  · rw [hr, hlast, h.last]
  · rw [hr]
    exact h.ticks
  · refine h.retired.snoc fun id' tick' he' => ?_
    rw [hx] at he'
    cases he'

/-- A command did something: its entry changes by `f`, which keeps its id and its kind. -/
theorem Tracks.marked {f : Entry → Entry} {ev : Event} (h : Tracks t s) (hx : event x = some ev)
    (hev : ev.apply (ledger t) = mark id f (ledger t)) (hquiet : ∀ j kind tick, ev ≠ .admitted j kind ∧ ev ≠ .retired j tick)
    (hid : ∀ e, (f e).id = e.id) (hkind : ∀ e, (f e).kind = e.kind) (hm : Marks s s' id f)
    (hinstr : s'.instructionFifo = ((mark id f (ledger t)).filter Entry.awaiting).map Entry.id) :
    Tracks (t ++ [x]) s' := by
  have hl : ledger (t ++ [x]) = mark id f (ledger t) := by rw [ledger_snoc, hx, ← hev]; rfl
  have ha : admissions (t ++ [x]) = admissions t := by
    rw [admissions_snoc t x hx]
    cases ev with
    | admitted j kind => exact absurd rfl (hquiet j kind 0).1
    | _ => simp
  have hr : retirements (t ++ [x]) = retirements t := by
    rw [retirements_snoc t x hx]
    cases ev with
    | retired j tick => exact absurd rfl (hquiet j .control tick).2
    | _ => simp
  have hpresent : id ∈ (ledger t).map Entry.id := Classical.not_not.mp fun hn => hm.present (h.absent id hn)
  constructor
  · rw [hl, map_id_mark hid]
    exact h.nodup
  · rw [hl, map_id_mark hid, hm.queue]
    exact h.queue
  · rw [hl]
    intro e he
    rcases mem_mark he with ⟨hne, he⟩ | ⟨e₀, he₀, rfl, rfl⟩
    · rw [hm.others e.id hne]
      exact h.fits e he
    · rw [hid]
      exact hm.fits e₀ rfl (h.fits e₀ he₀)
  · rw [hl, map_id_mark hid]
    intro j hj
    rw [hm.others j fun heq => hj (heq ▸ hpresent)]
    exact h.absent j hj
  · rw [hl, filter_mark hid (fun e => by simp only [Entry.isFix, hkind]), hm.fixQueue]
    exact h.fixQueue
  · rw [hl]
    exact hinstr
  · rw [ha, hr, hm.queue]
    exact h.order
  · rw [hr, hm.last]
    exact h.last
  · rw [hr]
    exact h.ticks
  · refine h.retired.snoc fun j tick he => ?_
    rw [hx] at he
    exact absurd (Option.some.inj he) (hquiet j .control tick).2

theorem Tracks.retires (h : Tracks t s) (hx : event x = some (.retired id tick))
    (he : Effect s s' (.retired id tick)) : Tracks (t ++ [x]) s' := by
  obtain ⟨hqueue, hothers, hfits, hinstr, hlast, hlater⟩ := he
  obtain ⟨e, rest, hcons, rfl, hrest⟩ : ∃ e rest, ledger t = e :: rest ∧ e.id = id ∧
      rest.map Entry.id = s'.commandRetirement := by
    have hmap := h.queue.symm.trans hqueue
    obtain ⟨e, rest, hcons, hid, hrest⟩ := List.map_eq_cons_iff.mp hmap
    exact ⟨e, rest, hcons, hid, hrest⟩
  have hnd := h.nodup
  rw [hcons, List.map_cons, List.nodup_cons] at hnd
  obtain ⟨hready, hgone, hfix⟩ := hfits e rfl (h.fits e (by simp [hcons]))
  have hl : ledger (t ++ [x]) = rest := by
    rw [ledger_snoc, hx]
    simp only [Option.map_some, Option.getD_some, Event.apply, hcons]
    rw [List.filter_cons, if_neg (by simp), List.filter_eq_self]
    intro e' he'
    simpa using fun heq => hnd.1 (List.mem_map.mpr ⟨e', he', heq⟩)
  have ha : admissions (t ++ [x]) = admissions t := by simpa using admissions_snoc t x hx
  have hr : retirements (t ++ [x]) = retirements t ++ [(e.id, tick)] := retirements_snoc t x hx
  have hnot : e.awaiting = false := by
    unfold Entry.ready at hready
    unfold Entry.awaiting
    split at hready <;> simp_all
  constructor
  · rw [hl]
    exact hnd.2
  · rw [hl]
    exact hrest.symm
  · rw [hl]
    intro e' he'
    rw [hothers e'.id fun heq => hnd.1 (List.mem_map.mpr ⟨e', he', heq⟩)]
    exact h.fits e' (by simp [hcons, he'])
  · rw [hl]
    intro j hj
    by_cases heq : j = e.id
    · rw [heq]
      exact hgone
    · rw [hothers j heq]
      exact h.absent j (by simp only [hcons, List.map_cons, List.mem_cons, not_or]; exact ⟨heq, hj⟩)
  · have hq := h.fixQueue
    rw [hl]
    rw [hfix, hcons, List.filter_cons] at hq
    split at hq
    · exact List.tail_eq_of_cons_eq hq
    · exact hq
  · rw [hl, hinstr, h.instructions, hcons, List.filter_cons, hnot, if_neg (by decide)]
  · rw [ha, hr, h.order, hqueue, List.map_append, List.append_assoc]
    rfl
  · rw [hr, hlast]
    simp
  · rw [hr, List.map_append]
    refine pairwise_concat h.ticks fun z hz => ?_
    rw [List.getLast?_map] at hz
    obtain ⟨r, hr, rfl⟩ := Option.map_eq_some_iff.mp hz
    rw [h.last, hr] at hlater
    simpa using hlater
  · refine h.retired.snoc fun j tick' he' => ?_
    rw [hx] at he'
    obtain ⟨rfl, -⟩ := Event.retired.inj (Option.some.inj he')
    exact ⟨e, rest, hcons, rfl, hready⟩

theorem Tracks.step (h : Tracks t s) (hx : Engine.exec x.1 s = (x.2, s')) : Tracks (t ++ [x]) s' := by
  have hdoes := exec_does s x.1
  rw [hx] at hdoes
  change Does s s' (event x) at hdoes
  cases he : event x with
  | none =>
    rw [he] at hdoes
    obtain rfl : s' = s := hdoes
    exact h.quiet he
  | some ev =>
    rw [he] at hdoes
    cases ev with
    | admitted id kind => exact h.admitted he hdoes
    | executed id =>
      obtain ⟨hm, hinstr⟩ := hdoes
      refine h.marked he rfl (fun _ _ _ => ⟨nofun, nofun⟩) (fun _ => rfl) (fun _ => rfl) hm ?_
      rw [hinstr, h.instructions]
      refine (filter_mark (f := fun e => { e with executed := true }) ?_ ?_).symm
      all_goals exact fun _ => rfl
    | dispatched id =>
      obtain ⟨hm, hinstr⟩ := hdoes
      refine h.marked he rfl (fun _ _ _ => ⟨nofun, nofun⟩) (fun _ => rfl) (fun _ => rfl) hm ?_
      have hnd : s.instructionFifo.Nodup := by
        rw [h.instructions]
        exact h.nodup.sublist (List.filter_sublist.map _)
      rw [awaiting_dispatched, ← h.instructions, hinstr, List.filter_cons, if_neg (by simp)]
      rw [hinstr, List.nodup_cons] at hnd
      refine (List.filter_eq_self.mpr fun j hj => ?_).symm
      have hne : j ≠ id := fun heq => hnd.1 (heq ▸ hj)
      simp [hne]
    | completed id =>
      obtain ⟨hm, hinstr⟩ := hdoes
      refine h.marked he rfl (fun _ _ _ => ⟨nofun, nofun⟩) (fun _ => rfl) (fun _ => rfl) hm ?_
      rw [hinstr, h.instructions]
      refine (filter_mark (f := fun e => { e with completed := true }) ?_ ?_).symm
      all_goals exact fun _ => rfl
    | retired id tick => exact h.retires he hdoes

/-- In every run, whatever the depth of the instruction queue. -/
theorem tracks_run {depth : Nat} {t : List Label} {s : Engine} (h : Run (calls Engine.exec) (.new depth) t s) :
    Tracks t s :=
  h.inv (Tracks.init depth) fun _ _ _ _ hi hx => hi.step hx

end Step

/-! ## Retirement in order -/

/-- The outstanding commands of the engine after the calls `t`. -/
structure InOrder (t : List Label) (s : Engine) : Prop where
  /-- Every admission retires once, in admission order, or is still in the queue. -/
  order : admissions t = (retirements t).map Prod.fst ++ s.commandRetirement
  nodup : s.commandRetirement.Nodup
  /-- An outstanding id is in exactly one of the four maps, another one in none. -/
  onePlace : ∀ id, (s.slots id).count = if id ∈ s.commandRetirement then 1 else 0
  ticks : ((retirements t).map Prod.snd).Pairwise (· < ·)
  retired : AtEach OldestReady t
  fixQueue : s.retirementFifo = s.commandRetirement.filter fun id => s.commands.contains id
  /-- `activeResourceKey` finds the command it looks up. -/
  keyed : ∀ id ∈ s.retirementFifo, s.commands.contains id = true
  instructions : s.instructionFifo = ((ledger t).filter Entry.awaiting).map Entry.id
  outstanding : s.commandRetirement = (ledger t).map Entry.id
  completions : ∀ id, s.writeCompletions.contains id = true → id ∈ s.retirementFifo

theorem Entry.Fits.command_isSome {e : Entry} {σ : Slots} (h : e.Fits σ) : σ.command.isSome = e.isFix := by
  unfold Entry.Fits at h
  unfold Entry.isFix
  split at h
  · obtain ⟨_, _, rfl, -⟩ := h
    simp [*]
  · obtain ⟨_, rfl, -⟩ := h
    simp [*]
  · obtain ⟨_, rfl⟩ := h
    simp [*]
  · obtain ⟨_, rfl⟩ := h
    simp [*]

theorem Entry.Fits.completion_isSome {e : Entry} {σ : Slots} (h : e.Fits σ) (hs : σ.completion.isSome = true) :
    e.isFix = true := by
  unfold Entry.Fits at h
  unfold Entry.isFix
  split at h
  · simp [*]
  · obtain ⟨_, rfl, -⟩ := h
    cases hs
  · obtain ⟨_, rfl⟩ := h
    cases hs
  · obtain ⟨_, rfl⟩ := h
    cases hs

section Views

variable {t : List Label}

/-- The FIX queue is the part of the command queue that the FIX map has. -/
theorem Tracks.fixQueue_eq (h : Tracks t s) :
    s.retirementFifo = s.commandRetirement.filter fun id => s.commands.contains id := by
  rw [h.fixQueue, h.queue, List.filter_map]
  congr 1
  refine List.filter_congr fun e he => ?_
  exact ((h.fits e he).command_isSome).symm

theorem Tracks.onePlace (h : Tracks t s) (id : Nat) :
    (s.slots id).count = if id ∈ s.commandRetirement then 1 else 0 := by
  rw [h.queue]
  split
  · rename_i hmem
    obtain ⟨e, he, rfl⟩ := List.mem_map.mp hmem
    exact (h.fits e he).count
  · rename_i hmem
    rw [h.absent id hmem]
    rfl

theorem Tracks.completions (h : Tracks t s) (id : Nat) (hdone : s.writeCompletions.contains id = true) :
    id ∈ s.retirementFifo := by
  have hsome : (s.slots id).completion.isSome = true := hdone
  by_cases hmem : id ∈ (ledger t).map Entry.id
  · obtain ⟨e, he, rfl⟩ := List.mem_map.mp hmem
    rw [h.fixQueue]
    exact List.mem_map.mpr ⟨e, List.mem_filter.mpr ⟨he, (h.fits e he).completion_isSome hsome⟩, rfl⟩
  · rw [h.absent id hmem] at hsome
    cases hsome

end Views

/-- In every run of the engine the four kinds of commands retire in one order, and its queues list what is outstanding. -/
theorem engine_retires_in_order {depth : Nat} {t : List Label} {s : Engine}
    (h : Run (calls Engine.exec) (.new depth) t s) : InOrder t s := by
  have ht := tracks_run h
  refine ⟨ht.order, ht.queue ▸ ht.nodup, ht.onePlace, ht.ticks, ht.retired, ht.fixQueue_eq, ?_, ht.instructions,
    ht.queue, ht.completions⟩
  intro id hid
  rw [ht.fixQueue_eq] at hid
  exact (List.mem_filter.mp hid).2

/-- One command of each kind, and a factor command that waits for the FIX commands. -/
def mixedCalls : List Engine.Call :=
  let tile : Command := ⟨⟨0x100100, 0, 0⟩, 0⟩
  let nothing : Command := ⟨⟨0, 0, 0⟩, 0⟩
  [.admitFix 0 1 tile ⟨0, .ok ()⟩, .admitControl 1 2, .admitFix 1 3 nothing ⟨0, .ok ()⟩,
    .admitFactorBatch 1 ⟨4, 2⟩ ⟨0, .ok ()⟩, .admitCrossCore 2 5 0 0 0, .takeReadyWrite 2,
    .receiveL0c 3 (some (1, .ok true)), .observeWriteDispatch 4 (.write 1 true), .completeWriteTransport 5 1,
    .takeReadyWrite 6, .retireReadyControl 7, .takeReadyWrite 8, .admitFactorBatch 9 ⟨4, 2⟩ ⟨0, .ok ()⟩,
    .retireReadyCrossCore 9, .observeWriteDispatch 10 (.factorRead 4 true), .completeFactorTransport 11 4,
    .retireFactor 12 4]

theorem engine_retires_in_order_mixed :
    retirements (runCalls Engine.exec (.new 2) mixedCalls).1 = [(1, 6), (2, 7), (3, 8), (5, 9), (4, 12)] ∧
      InOrder (runCalls Engine.exec (.new 2) mixedCalls).1 (runCalls Engine.exec (.new 2) mixedCalls).2 :=
  ⟨by decide, engine_retires_in_order (run_runCalls Engine.exec (.new 2) mixedCalls)⟩

end AscendEmulator.C220.Fixp
