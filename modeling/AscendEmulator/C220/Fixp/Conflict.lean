/-
  AscendEmulator.C220.Fixp.Conflict — does a FIX command of another configuration wait for the outstanding ones?

  The engine compares an offered command with the newest unretired FIX command alone, and a disabled
  command enters the queue without being compared. So a disabled command can hide an older enabled one
  (`hidden_key_admitted`); in the runs where none does, one configuration is outstanding at a time.
-/

import AscendEmulator.C220.Fixp.EngineProofs

namespace AscendEmulator.C220.Fixp

open Lib

namespace Engine

/-! ## The outstanding configurations -/

/-- The key of a command in the FIX map. -/
def keyOf (state : CommandState) : ResourceKey := .new state.command state.destination

/-- The keys of the unretired enabled FIX commands. -/
def unretiredKeys (s : Engine) : List ResourceKey :=
  s.commands.entries.filterMap fun e => if e.2.command.descriptor.isDisabled then none else some (keyOf e.2)

theorem mem_unretiredKeys {s : Engine} {key : ResourceKey} :
    key ∈ s.unretiredKeys ↔ ∃ id state, s.commands.get? id = some state ∧
      state.command.descriptor.isDisabled = false ∧ keyOf state = key := by
  unfold unretiredKeys
  rw [List.mem_filterMap]
  constructor
  · rintro ⟨⟨id, state⟩, hmem, hkey⟩
    split at hkey
    · cases hkey
    · rename_i hd
      exact ⟨id, state, OrdMap.mem_entries.mp hmem, by simpa using hd, Option.some.inj hkey⟩
  · rintro ⟨id, state, hget, hd, rfl⟩
    exact ⟨(id, state), OrdMap.mem_entries.mpr hget, by simp [hd]⟩

/-- The FIX command that a call offers, and where it writes. -/
def offer : Call → Option (Nat × Command × Destination)
  | .admitFix _ id command _ => some (id, command, .l1)
  | .admitRouted _ id command destination _ => some (id, command, destination)
  | _ => none

/-- The newest unretired FIX command is a disabled one with the key of the enabled `command`,
    and hides an enabled one of another key. -/
def hides (s : Engine) (command : Command) (destination : Destination) : Bool :=
  !command.descriptor.isDisabled &&
    (s.retirementFifo.getLast?.bind s.commands.get?).any fun newest =>
      newest.command.descriptor.isDisabled && keyOf newest == .new command destination &&
        s.unretiredKeys.any (· != .new command destination)

/-- No disabled command hides the key of the command that the call offers. -/
def Unhidden (c : Call) (s : Engine) : Prop := (offer c).all (fun o => !s.hides o.2.1 o.2.2) = true

/-! ## What a call does to the FIX commands -/

variable {s : Engine} {tick id j : Nat}

/-- The FIX command `j` is the one that was there, or was offered and found no conflict. -/
def Came (c : Call) (s : Engine) (j : Nat) (state' : CommandState) : Prop :=
  (∃ state, s.commands.get? j = some state ∧ state.command = state'.command ∧ state.destination = state'.destination) ∨
    offer c = some (j, state'.command, state'.destination) ∧
      s.resourceConflictFor state'.command state'.destination = false

theorem came_of_same {c : Call} {state' : CommandState} (h : s.commands.get? j = some state') : Came c s j state' :=
  .inl ⟨state', h, rfl, rfl⟩

theorem recordCommand_commands (command : Command) (destination : Destination) :
    (s.recordCommand tick id command destination).commands =
      s.commands.insert id ⟨command, destination, tick, none, none⟩ := by
  unfold recordCommand
  dsimp only
  split <;> rfl

theorem recordCommand_came {c : Call} {command : Command} {destination : Destination} {state' : CommandState}
    (hoffer : offer c = some (id, command, destination)) (hfree : s.resourceConflictFor command destination = false)
    (h : (s.recordCommand tick id command destination).commands.get? j = some state') : Came c s j state' := by
  rw [recordCommand_commands, OrdMap.get?_insert] at h
  split at h
  · rename_i hj
    obtain rfl := Option.some.inj h
    exact .inr ⟨by rw [hoffer, hj], hfree⟩
  · exact came_of_same h

theorem admitTo_came {c : Call} {routed : Bool} {command : Command} {destination : Destination} {datapath : Datapath}
    {state' : CommandState} (hoffer : offer c = some (id, command, destination))
    (h : (s.admitTo routed tick id command destination datapath).2.commands.get? j = some state') :
    Came c s j state' := by
  unfold admitTo at h
  split at h
  · exact came_of_same h
  split at h
  · rename_i hd
    exact recordCommand_came hoffer (by simp [resourceConflictFor, hd]) h
  split at h
  · exact came_of_same h
  rename_i hfree
  split at h
  · exact came_of_same h
  split at h
  · exact came_of_same h
  split at h
  · exact came_of_same h
  split at h
  · exact came_of_same h
  split at h
  · exact came_of_same h
  · exact recordCommand_came hoffer (by simpa using hfree) h

/-- A change of the ticks of one command. -/
theorem came_insert {c : Call} {state new state' : CommandState} (hs : s.commands.get? id = some state)
    (h : (s.commands.insert id new).get? j = some state') (hcommand : new.command = state.command)
    (hdestination : new.destination = state.destination) : Came c s j state' := by
  rw [OrdMap.get?_insert] at h
  split at h
  · rename_i hj
    obtain rfl := Option.some.inj h
    exact .inl ⟨state, by rw [hj, hs], hcommand.symm, hdestination.symm⟩
  · exact came_of_same h

theorem observeWriteDispatch_came {c : Call} {packet : DispatchPacket} {state' : CommandState}
    (h : (s.observeWriteDispatch tick packet).2.commands.get? j = some state') : Came c s j state' := by
  unfold observeWriteDispatch at h
  split at h
  · split at h
    · exact came_of_same h
    split at h
    · exact came_of_same h
    · exact came_of_same h
  · split at h
    · exact came_of_same h
    split at h
    · exact came_of_same h
    · rename_i hs
      exact came_insert hs h rfl rfl
  · split at h
    · exact came_of_same h
    split at h
    · exact came_of_same h
    · rename_i hs
      exact came_insert hs h rfl rfl
  all_goals exact came_of_same h

theorem receiveL0c_came {c : Call} {accepted : Option (Nat × Except EngineError Bool)} {state' : CommandState}
    (h : (s.receiveL0c tick accepted).2.commands.get? j = some state') : Came c s j state' := by
  unfold receiveL0c at h
  split at h
  · exact came_of_same h
  split at h
  · exact came_of_same h
  rename_i hs
  split at h
  · exact came_of_same h
  · exact came_of_same h
  · exact came_insert hs h rfl rfl

theorem takeReadyWrite_came {c : Call} {state' : CommandState}
    (h : (s.takeReadyWrite tick).2.commands.get? j = some state') : Came c s j state' := by
  unfold takeReadyWrite at h
  split at h
  · exact came_of_same h
  split at h
  · split at h
    · exact came_of_same h
    · change (s.commands.erase _).get? j = some state' at h
      rw [OrdMap.get?_erase] at h
      split at h
      · cases h
      · exact came_of_same h
  · exact came_of_same h

/-- The other calls leave the FIX map as it is. -/
theorem exec_came {c : Call} {state' : CommandState} (h : (exec c s).2.commands.get? j = some state') :
    Came c s j state' := by
  cases c with
  | admitFix tick id command datapath => exact admitTo_came rfl h
  | admitRouted tick id command destination datapath => exact admitTo_came rfl h
  | receiveL0c tick accepted => exact receiveL0c_came h
  | observeWriteDispatch tick packet => exact observeWriteDispatch_came h
  | takeReadyWrite tick => exact takeReadyWrite_came h
  | admitFactorBatch tick cursor datapath =>
    simp only [exec, reply, admitFactorBatch] at h
    repeat' split at h
    all_goals exact came_of_same h
  | admitControl tick id =>
    simp only [exec, reply, admitControl] at h
    repeat' split at h
    all_goals exact came_of_same h
  | admitCrossCore tick id pc word payload =>
    simp only [exec, reply, admitCrossCore] at h
    repeat' split at h
    all_goals exact came_of_same h
  | completeFactorTransport tick id =>
    simp only [exec, reply, completeFactorTransport] at h
    repeat' split at h
    all_goals exact came_of_same h
  | completeWriteTransport tick id =>
    simp only [exec, reply, completeWriteTransport] at h
    repeat' split at h
    all_goals exact came_of_same h
  | retireReadyCrossCore tick =>
    simp only [exec, retireReadyCrossCore] at h
    repeat' split at h
    all_goals exact came_of_same h
  | retireReadyControl tick =>
    simp only [exec, retireReadyControl] at h
    repeat' split at h
    all_goals exact came_of_same h
  | retireFactor tick id =>
    simp only [exec, reply, retireFactor] at h
    repeat' split at h
    all_goals exact came_of_same h

/-! ## One configuration at a time -/

/-- The unretired enabled FIX commands have one key. -/
def OneKey (s : Engine) : Prop := ∀ key ∈ s.unretiredKeys, ∀ key' ∈ s.unretiredKeys, key = key'

/-- The newest unretired FIX command, if there is an unretired one. -/
theorem newest_of_tracks {t : List Label} (h : Tracks t s) {id : Nat} {state : CommandState}
    (hs : s.commands.get? id = some state) :
    ∃ newest, s.retirementFifo.getLast?.bind s.commands.get? = some newest ∧
      s.activeResourceKey = some (keyOf newest) := by
  have hmem : id ∈ s.retirementFifo := by
    rw [h.fixQueue_eq, List.mem_filter]
    refine ⟨?_, by simp [OrdMap.contains, hs]⟩
    have := h.onePlace id
    split at this
    · assumption
    · simp [Slots.count, slots, hs] at this
  obtain ⟨last, hlast⟩ : ∃ last, s.retirementFifo.getLast? = some last :=
    Option.ne_none_iff_exists'.mp fun hnone => by rw [List.getLast?_eq_none_iff.mp hnone] at hmem; cases hmem
  have hin : last ∈ s.retirementFifo := List.mem_of_getLast? hlast
  rw [h.fixQueue_eq] at hin
  obtain ⟨newest, hnewest⟩ := OrdMap.contains_eq_true.mp (List.mem_filter.mp hin).2
  refine ⟨newest, by rw [hlast, Option.bind_some, hnewest], ?_⟩
  rw [activeResourceKey, hlast, Option.bind_some, hnewest]
  rfl

/-- Where nothing is hidden, an enabled command conflicts exactly when an unretired enabled one has another key. -/
theorem no_conflict_key {t : List Label} {command : Command} {destination : Destination} (h : Tracks t s)
    (hone : OneKey s) (henabled : command.descriptor.isDisabled = false)
    (hfree : s.resourceConflictFor command destination = false) (hhidden : s.hides command destination = false)
    {key : ResourceKey} (hkey : key ∈ s.unretiredKeys) : key = .new command destination := by
  obtain ⟨id, state, hs, hd, rfl⟩ := mem_unretiredKeys.mp hkey
  obtain ⟨newest, hnewest, hactive⟩ := newest_of_tracks h hs
  have hsame : keyOf newest = .new command destination := by
    simpa [resourceConflictFor, henabled, hactive] using hfree
  cases hnd : newest.command.descriptor.isDisabled with
  | false =>
    -- The newest one is enabled itself, so its key is everyone's.
    obtain ⟨last, -, hget⟩ := Option.bind_eq_some_iff.mp hnewest
    exact (hone _ hkey _ (mem_unretiredKeys.mpr ⟨last, newest, hget, hnd, rfl⟩)).trans hsame
  | true =>
    simp only [hides, henabled, hnewest, Option.any_some, hnd, hsame, beq_self_eq_true, Bool.not_false,
      Bool.true_and, List.any_eq_false] at hhidden
    simpa using hhidden _ hkey

theorem Unhidden.hides {c : Call} {command : Command} {destination : Destination} (h : Unhidden c s)
    (hoffer : offer c = some (id, command, destination)) : s.hides command destination = false := by
  simpa [Unhidden, hoffer] using h

theorem OneKey.step {t : List Label} {x : Label} {s' : Engine} (h : Tracks t s) (hone : OneKey s)
    (hunhidden : Unhidden x.1 s) (hx : calls exec s x s') : OneKey s' := by
  have hcame : ∀ j state', s'.commands.get? j = some state' → Came x.1 s j state' := by
    intro j state' hget
    rw [← show (exec x.1 s).2 = s' from congrArg Prod.snd hx] at hget
    exact exec_came hget
  intro key hkey key' hkey'
  obtain ⟨id, state, hs, hd, rfl⟩ := mem_unretiredKeys.mp hkey
  obtain ⟨id', state', hs', hd', rfl⟩ := mem_unretiredKeys.mp hkey'
  rcases hcame id state hs with ⟨old, hold, hc, hdest⟩ | ⟨hoffer, hfree⟩ <;>
    rcases hcame id' state' hs' with ⟨old', hold', hc', hdest'⟩ | ⟨hoffer', hfree'⟩
  · have hk : keyOf old = keyOf state := by rw [keyOf, keyOf, hc, hdest]
    have hk' : keyOf old' = keyOf state' := by rw [keyOf, keyOf, hc', hdest']
    rw [← hk, ← hk']
    exact hone _ (mem_unretiredKeys.mpr ⟨id, old, hold, hc ▸ hd, rfl⟩) _
      (mem_unretiredKeys.mpr ⟨id', old', hold', hc' ▸ hd', rfl⟩)
  · have hk : keyOf old = keyOf state := by rw [keyOf, keyOf, hc, hdest]
    rw [← hk]
    exact no_conflict_key h hone hd' hfree' (hunhidden.hides hoffer')
      (mem_unretiredKeys.mpr ⟨id, old, hold, hc ▸ hd, rfl⟩)
  · have hk' : keyOf old' = keyOf state' := by rw [keyOf, keyOf, hc', hdest']
    rw [← hk']
    exact (no_conflict_key h hone hd hfree (hunhidden.hides hoffer)
      (mem_unretiredKeys.mpr ⟨id', old', hold', hc' ▸ hd', rfl⟩)).symm
  · rw [hoffer] at hoffer'
    obtain ⟨-, hc, hdest⟩ : id = id' ∧ state.command = state'.command ∧ state.destination = state'.destination := by
      simpa using hoffer'
    rw [keyOf, keyOf, hc, hdest]

theorem oneKey_run {depth : Nat} {t : List Label} (h : Run (callsWhen Unhidden exec) (.new depth) t s) :
    Tracks t s ∧ OneKey s := by
  refine h.inv (I := fun t s => Tracks t s ∧ OneKey s) ⟨Tracks.init depth, nofun⟩ ?_
  rintro t u x v ⟨ht, hone⟩ ⟨hunhidden, hx⟩
  exact ⟨ht.step hx, hone.step ht hunhidden hx⟩

theorem admitTo_conflict {routed : Bool} {command : Command} {destination : Destination} {datapath : Datapath}
    (hnew : s.containsCommand id = false) (henabled : command.descriptor.isDisabled = false) :
    s.admitTo routed tick id command destination datapath = (.ok .resourceConflict, s) ↔
      s.resourceConflictFor command destination = true := by
  unfold admitTo
  rw [if_neg (by simp [hnew]), if_neg (by simp [henabled])]
  constructor
  · intro h
    by_contra hfree
    rw [if_neg hfree] at h
    split at h
    · rename_i blocked hb
      rcases admissionBackpressure_cases hb with rfl | rfl <;> simp at h
    repeat' split at h
    all_goals simp at h
  · intro h
    rw [if_pos h]

/-- An enabled command with a fresh id is answered a conflict exactly when the newest FIX command has another key. -/
theorem exec_conflict {c : Call} {command : Command} {destination : Destination}
    (hoffer : offer c = some (id, command, destination)) (hnew : s.containsCommand id = false)
    (henabled : command.descriptor.isDisabled = false) :
    exec c s = (.ok (.admission .resourceConflict), s) ↔ s.resourceConflictFor command destination = true := by
  have hreply : ∀ r : Except EngineError Admission × Engine,
      reply Reply.admission r = (.ok (.admission .resourceConflict), s) ↔ r = (.ok .resourceConflict, s) := by
    rintro ⟨e | a, u⟩ <;> simp [reply, Except.map]
  cases c with
  | admitFix tick id' command' datapath =>
    obtain ⟨rfl, rfl, rfl⟩ : id' = id ∧ command' = command ∧ Destination.l1 = destination := by simpa [offer] using hoffer
    exact (hreply _).trans (admitTo_conflict hnew henabled)
  | admitRouted tick id' command' destination' datapath =>
    obtain ⟨rfl, rfl, rfl⟩ : id' = id ∧ command' = command ∧ destination' = destination := by
      simpa [offer] using hoffer
    exact (hreply _).trans (admitTo_conflict hnew henabled)
  | _ => cases hoffer

/-- In the runs where no disabled command hides the key of an offered one: the unretired enabled FIX commands
    share one configuration, and an enabled command of another one gets a conflict exactly when its key is not hidden. -/
theorem configuration_waits_for_retirement {depth : Nat} {t : List Label} {s : Engine}
    (h : Run (callsWhen Unhidden exec) (.new depth) t s) :
    (∀ key ∈ s.unretiredKeys, ∀ key' ∈ s.unretiredKeys, key = key') ∧
      ∀ c id command destination, offer c = some (id, command, destination) → s.containsCommand id = false →
        command.descriptor.isDisabled = false → (∃ key ∈ s.unretiredKeys, key ≠ .new command destination) →
        (exec c s = (.ok (.admission .resourceConflict), s) ↔ s.hides command destination = false) := by
  obtain ⟨ht, hone⟩ := oneKey_run h
  refine ⟨hone, fun c id command destination hoffer hnew henabled ⟨key, hkey, hne⟩ => ?_⟩
  rw [exec_conflict hoffer hnew henabled]
  constructor
  · intro hconflict
    by_contra hhides
    rw [Bool.not_eq_false] at hhides
    unfold hides at hhides
    rw [Bool.and_eq_true] at hhides
    obtain ⟨newest, hnewest, hsame⟩ := (Option.any_eq_true _ _).mp hhides.2
    obtain ⟨id', state, hs, -, -⟩ := mem_unretiredKeys.mp hkey
    obtain ⟨newest', hnewest', hactive⟩ := newest_of_tracks ht hs
    obtain rfl : newest = newest' := Option.some.inj (hnewest.symm.trans hnewest')
    simp [resourceConflictFor, hactive] at hconflict
    simp only [Bool.and_eq_true, beq_iff_eq] at hsame
    exact hconflict.2 hsame.1.2
  · intro hhidden
    by_contra hfree
    exact hne (no_conflict_key ht hone henabled (by simpa using hfree) hhidden hkey)

/-- Two commands of one configuration. -/
def sharedCalls : List Call :=
  let tile : Command := ⟨⟨0x100100, 0, 0⟩, 0⟩
  [.admitFix 0 1 tile ⟨0, .ok ()⟩, .admitRouted 9 2 tile .l1 ⟨0, .ok ()⟩]

theorem configuration_waits_for_retirement_pair :
    (runCalls exec (.new 2) sharedCalls).2.unretiredKeys.length = 2 ∧
      exec (.admitFix 12 3 ⟨⟨0x100100, 0, 0⟩, 0x1000000000000⟩ ⟨0, .ok ()⟩) (runCalls exec (.new 2) sharedCalls).2 =
        (.ok (.admission .resourceConflict), (runCalls exec (.new 2) sharedCalls).2) := by
  refine ⟨by decide, ?_⟩
  have h : Allowed Unhidden exec (.new 2) sharedCalls := ⟨rfl, rfl, trivial⟩
  exact ((configuration_waits_for_retirement (run_allowed exec h)).2 _ 3 _ .l1 rfl (by decide) (by decide)
    (by decide)).mpr (by decide)

/-- The second command is disabled and has the configuration of the third: the first one is not seen. -/
def hiddenCalls : List Call :=
  let tile : Command := ⟨⟨0x100100, 0, 0⟩, 0⟩
  let saturatedNothing : Command := ⟨⟨0, 0, 0⟩, 0x1000000000000⟩
  let saturated : Command := ⟨⟨0x100100, 0, 0⟩, 0x1000000000000⟩
  [.admitFix 0 1 tile ⟨0, .ok ()⟩, .receiveL0c 20 (some (1, .ok true)), .observeWriteDispatch 40 (.write 1 true),
    .admitFix 41 2 saturatedNothing ⟨0, .ok ()⟩, .admitFix 42 3 saturated ⟨0, .ok ()⟩]

theorem hidden_key_admitted :
    ¬ ∀ depth t s, Run (calls exec) (.new depth) t s → ∀ key ∈ s.unretiredKeys, ∀ key' ∈ s.unretiredKeys, key = key' := by
  intro h
  have hall := h 1 _ _ (run_runCalls exec (.new 1) hiddenCalls)
  revert hall
  decide

end Engine

end AscendEmulator.C220.Fixp
