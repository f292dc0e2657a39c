/-
  AscendEmulator.C220.Sync.FlagsLedger — no flag token is lost or made up (see
  `AscendEmulator.C220.Sync.Flags`).

  Of each key, the set events accepted are the ones still pending, the visible ones, the
  ones a wait took and the ones discarded at a full counter (`Balanced`). One scan moves
  tokens of all keys at once, so the balance is stated for the list still to scan.
-/

import AscendEmulator.C220.Sync.Flags

namespace AscendEmulator.C220.Sync.HardwareFlagState

open Lib

variable {α : Type} {s s' : HardwareFlagState} {key : HardwareFlagKey}

/-- How often the log has this mark for the key. -/
def tally (log : List (TokenMark × HardwareFlagKey)) (mark : TokenMark) (key : HardwareFlagKey) : Nat :=
  log.countP fun e => decide (e.1 = mark) && decide (e.2 = key)

/-- The tokens of a key in a list of pending sets. -/
def pendingOf (sets : List PendingHardwareFlag) (key : HardwareFlagKey) : Nat :=
  sets.countP fun p => decide (p.key = key)

structure Balanced (log : List (TokenMark × HardwareFlagKey)) (sets : List PendingHardwareFlag)
    (counters : OrdMap HardwareFlagKey Nat) (saturatedSets : Nat) : Prop where
  balance : ∀ key, tally log .accepted key =
    pendingOf sets key + counters.getD key 0 + tally log .waited key + tally log .discarded key
  bounded : ∀ key, counters.getD key 0 ≤ capacity
  positive : ∀ key, counters.get? key ≠ some 0
  saturated : saturatedSets = min (log.countP fun e => decide (e.1 = .discarded)) (u64 - 1)

def Ledger (s : HardwareFlagState) : Prop := Balanced s.log s.pendingSets s.counters s.saturatedSets

theorem ledger_empty : Ledger empty :=
  ⟨fun _ => rfl, fun _ => Nat.zero_le _, (fun _ h => by cases h), rfl⟩

theorem pendingOf_append (sets rest : List PendingHardwareFlag) :
    pendingOf (sets ++ rest) key = pendingOf sets key + pendingOf rest key := List.countP_append

theorem pendingOf_cons (p : PendingHardwareFlag) (sets : List PendingHardwareFlag) :
    pendingOf (p :: sets) key = pendingOf sets key + if p.key = key then 1 else 0 := by
  simp [pendingOf, List.countP_cons]

theorem tally_append (log : List (TokenMark × HardwareFlagKey)) (e : TokenMark × HardwareFlagKey) (mark : TokenMark) :
    tally (log ++ [e]) mark key = tally log mark key + if e.1 = mark ∧ e.2 = key then 1 else 0 := by
  simp [tally, List.countP_append, List.countP_cons]

/-! ## Deliveries -/

/-- A delivered token is visible or discarded, and its set no longer pending. -/
theorem Balanced.deliver {sets rest : List PendingHardwareFlag} {p : PendingHardwareFlag}
    (h : Balanced s.log (sets ++ p :: rest) s.counters s.saturatedSets) :
    Balanced (s.deliver p.key).log (sets ++ rest) (s.deliver p.key).counters (s.deliver p.key).saturatedSets := by
  have hp : ∀ key, pendingOf (sets ++ p :: rest) key = pendingOf (sets ++ rest) key + if p.key = key then 1 else 0 :=
    fun key => by rw [pendingOf_append, pendingOf_append, pendingOf_cons]; omega
  unfold HardwareFlagState.deliver
  split
  · refine ⟨fun key => ?_, h.bounded, h.positive, ?_⟩
    · have hb := h.balance key
      simp only [hp] at hb
      simp only [tally_append, reduceCtorEq, false_and, if_false, true_and]
      omega
    · have hs := h.saturated
      simp only [List.countP_append, List.countP_cons, List.countP_nil, decide_true, if_true]
      omega
  · rename_i hlt
    refine ⟨fun key => ?_, fun key => ?_, fun key => ?_, h.saturated⟩
    · have hb := h.balance key
      simp only [hp] at hb
      simp only [visible, OrdMap.getD_insert]
      by_cases hk : key = p.key
      · subst hk
        simp only [if_true] at hb ⊢
        omega
      · simp only [hk, Ne.symm hk, if_false] at hb ⊢
        omega
    · simp only [visible, OrdMap.getD_insert] at hlt ⊢
      split
      · omega
      · exact h.bounded key
    · simp only [OrdMap.get?_insert]
      split
      · simp
      · exact h.positive key

theorem Balanced.scan {kept sets : List PendingHardwareFlag} (tick : Nat)
    (h : Balanced s.log (kept ++ sets) s.counters s.saturatedSets) : Ledger (scan tick kept sets s) := by
  induction sets generalizing kept s with
  | nil =>
    rw [List.append_nil] at h
    exact h
  | cons p rest ih =>
    rw [HardwareFlagState.scan]
    split
    · exact ih h.deliver
    · exact ih (by simpa using h)

/-! ## The calls -/

theorem ledger_scheduleEvent (event : HardwareFlagEvent) (tick : Nat) : Call.Keeps Ledger (scheduleEvent event tick) := by
  intro s h
  rcases hr : scheduleEvent event tick s with ⟨r, u⟩
  rcases scheduleEvent_cases hr with ⟨e, -, rfl⟩ | ⟨n, p, -, -, -, -, -, rfl⟩
  · exact h
  · refine ⟨fun key => ?_, h.bounded, h.positive, ?_⟩
    · have hb := h.balance key
      have hn : pendingOf [] key = 0 := rfl
      simp only [tally_append, reduceCtorEq, false_and, if_false, true_and, pendingOf_append, pendingOf_cons]
      omega
    · simpa [List.countP_append] using h.saturated

theorem ledger_releaseFrom (queue : Fin 3) (id tick : Nat) (sets : List QueuedCubeFlag) :
    Call.Keeps Ledger (releaseFrom queue id tick sets) := by
  induction sets with
  | nil => exact fun s h => h
  | cons pending rest ih =>
    intro s h
    have hs := ledger_scheduleEvent ⟨pending.step, 0⟩ tick s h
    rw [releaseFrom]
    split
    · split
      · rename_i u hu
        rw [scheduleSet] at hu
        rw [hu] at hs
        exact ih _ hs
      · rename_i hu
        rw [scheduleSet] at hu
        rw [hu] at hs
        exact hs
      · rename_i hu
        rw [scheduleSet] at hu
        rw [hu] at hs
        exact hs
    · exact h

theorem ledger_enqueueCubeCheckpoint (kind : CubeFlagCheckpoint) (id tick delay : Nat) :
    Call.Keeps Ledger (enqueueCubeCheckpoint kind id tick delay) := by
  intro s h
  unfold enqueueCubeCheckpoint
  split <;> exact h

theorem ledger_deferHead (queue : Fin 4) (tick : Nat) : Call.Keeps Ledger (deferHead queue tick) := by
  intro s h
  unfold deferHead
  split
  · exact h
  · split <;> exact h

theorem ledger_advanceCheckpoint (queue : Fin 4) (tick : Nat) : Call.Keeps Ledger (advanceCheckpoint queue tick) := by
  intro s h
  unfold advanceCheckpoint
  split
  · exact h
  · rename_i head _
    have hr : Call.Keeps Ledger (releaseCubeSets (setsQueue queue) head.instructionId tick) :=
      fun s => ledger_releaseFrom _ _ _ (s.cubeSets (setsQueue queue)) s
    refine hr.bind (fun released s h => ?_) s h
    cases released with
    | false => exact ledger_deferHead queue tick s h
    | true => exact ledger_deferHead queue tick (s.setCheckpoints queue _) h

theorem ledger_wake (tick : Nat) : Call.Keeps Ledger (wake tick) := by
  have hc : ∀ queues, Call.Keeps Ledger (advanceCheckpoints tick queues) := fun queues => by
    induction queues with
    | nil => exact fun s h => h
    | cons queue queues ih => exact Call.Keeps.bind (ledger_advanceCheckpoint queue tick) fun _ => ih
  intro s h
  refine hc _ _ ?_
  split
  · exact Balanced.scan tick h
  · exact h

theorem ledger_advanceTo (tick : Nat) : Call.Keeps Ledger (advanceTo tick) := by
  have hl : ∀ fuel s r u, Ledger s → advanceLoop tick fuel s = some (r, u) → Ledger u := fun fuel => by
    induction fuel with
    | zero => exact fun s r u h hu => by cases hu
    | succ fuel ih =>
      intro s r u h hu
      rw [advanceLoop] at hu
      split at hu
      · cases hu; exact h
      · rename_i n hn
        have hw := ledger_wake n s h
        split at hu
        · split at hu
          · rename_i v hv
            rw [hv] at hw
            exact ih v r u hw hu
          · rename_i e v hv
            rw [hv] at hw
            cases hu
            exact hw
        · cases hu; exact h
  intro s h
  obtain ⟨⟨r, u⟩, hr⟩ := Option.isSome_iff_exists.mp (advanceLoop_isSome tick s)
  have hu := hl _ s r u h hr
  unfold advanceTo
  split
  · exact h
  · simp only [hr, Option.get_some]
    cases r <;> exact hu

/-- A wait takes one visible token, and its entry with the last one. -/
theorem ledger_consumeWait (step : HardwareFlagStep) : Call.Keeps Ledger (consumeWait step) := by
  intro s h
  unfold consumeWait
  split
  · exact h
  · dsimp only
    split
    · exact h
    · rename_i n hn
      split
      · exact h
      · rename_i hpos
        have hv : s.counters.getD (.fromStep step) 0 = n := by simp [OrdMap.getD, hn]
        have hget : ∀ key, (if n - 1 = 0 then s.counters.erase (.fromStep step)
            else s.counters.insert (.fromStep step) (n - 1)).getD key 0 =
            if key = .fromStep step then n - 1 else s.counters.getD key 0 := fun key => by
          split
          · rename_i hz; rw [OrdMap.getD_erase, hz]
          · rw [OrdMap.getD_insert]
        refine ⟨fun key => ?_, fun key => ?_, fun key => ?_, ?_⟩
        · have hb := h.balance key
          simp only [hget, tally_append, reduceCtorEq, false_and, if_false, true_and]
          by_cases hk : key = .fromStep step
          · subst hk
            simp only [hv, if_true] at hb ⊢
            omega
          · simp only [hk, Ne.symm hk, if_false] at hb ⊢
            omega
        · simp only [hget]
          have := h.bounded key
          split
          · rename_i hk
            rw [hk, hv] at this
            omega
          · exact this
        · dsimp only
          split
          · rw [OrdMap.get?_erase]
            split
            · simp
            · exact h.positive key
          · rw [OrdMap.get?_insert]
            split
            · rename_i hz _; simpa using hz
            · exact h.positive key
        · simpa [List.countP_append] using h.saturated

theorem ledger_gateFrom (tick id : Nat) (waits : List QueuedCubeFlag) : Call.Keeps Ledger (gateFrom tick id waits) := by
  induction waits with
  | nil => exact fun s h => h
  | cons wait rest ih =>
    intro s h
    have hw := ledger_consumeWait wait.step s h
    rw [gateFrom]
    split
    · split
      · split
        · exact h
        · split <;> exact h
      · split
        · rename_i u hu
          rw [hu] at hw
          exact ih _ hw
        · rename_i e u hu
          rw [hu] at hw
          exact hw
    · exact h

theorem ledger_gateCubeInstruction (tick id : Nat) : Call.Keeps Ledger (gateCubeInstruction tick id) :=
  (ledger_advanceTo tick).bind fun _ s => ledger_gateFrom tick id s.cubeWaits s

theorem ledger_checkCubeUnitFlagSet (id tick : Nat) : Call.Keeps Ledger (checkCubeUnitFlagSet id tick) := by
  have hr : Call.Keeps Ledger (releaseCubeSets 2 id tick) := fun s => ledger_releaseFrom _ _ _ (s.cubeSets 2) s
  refine hr.bind fun released => ?_
  cases released with
  | false => exact ledger_enqueueCubeCheckpoint _ _ _ _
  | true => exact fun s h => h

/-- Every call keeps the balance, also one that returns an error. -/
theorem ledger_exec (c : FlagCall) : Call.Keeps Ledger (exec c) := by
  intro s h
  cases c with
  | enqueueMteFlag id step tick =>
    show Ledger (enqueueMteFlag id step tick s).2
    unfold enqueueMteFlag
    split
    · exact h
    · split <;> exact h
  | takeMteFlags id memory => exact h
  | advanceTo tick => exact ledger_advanceTo tick s h
  | scheduleSet step tick => exact ledger_scheduleEvent ⟨step, 0⟩ tick s h
  | scheduleEvent event tick => exact ledger_scheduleEvent event tick s h
  | enqueueCubeWait id step =>
    show Ledger (enqueueCubeWait id step s).2
    unfold enqueueCubeWait
    split
    · exact h
    · split <;> exact h
  | gateCubeInstruction tick id => exact ledger_gateCubeInstruction tick id s h
  | consumeWait step => exact ledger_consumeWait step s h
  | enqueueCubeSet id step =>
    show Ledger (enqueueCubeSet id step s).2
    unfold enqueueCubeSet
    split
    · exact h
    · generalize (if step.instruction.destinationPipeCode = 10 then (2 : Fin 3) else _) = queue
      dsimp only
      split <;> exact h
  | enqueueCubeCheckpoint kind id tick delay => exact ledger_enqueueCubeCheckpoint kind id tick delay s h
  | checkCubeUnitFlagSet id tick => exact ledger_checkCubeUnitFlagSet id tick s h

theorem consumeWait_ok_iff (h : Ledger s) {step : HardwareFlagStep} (hop : step.instruction.operation = .wait) :
    (consumeWait step s).1 = .ok () ↔ s.visible (.fromStep step) ≠ 0 := by
  unfold consumeWait visible OrdMap.getD
  simp only [hop, ne_eq, not_true_eq_false, if_false]
  cases hg : s.counters.get? (.fromStep step) with
  | none => simp
  | some n =>
    have hn : n ≠ 0 := fun hz => h.positive _ (hz ▸ hg)
    simp [hn]

/-- In every state a run reaches, the set events accepted for a key are the ones pending,
    the visible tokens, the ones taken by a wait and the ones discarded at saturation; at
    most 63 are visible, no entry is 0, and a wait succeeds exactly on a visible token. -/
theorem flag_tokens_balance {t : List (FlagCall × Except HardwareFlagTimingError FlagReply)}
    (hr : Run (calls exec) empty t s) (key : HardwareFlagKey) :
    tally s.log .accepted key =
      pendingOf s.pendingSets key + s.visible key + tally s.log .waited key + tally s.log .discarded key ∧
    s.visible key ≤ 63 ∧ s.counters.get? key ≠ some 0 ∧
    (∀ step, step.instruction.operation = .wait → HardwareFlagKey.fromStep step = key →
      ((consumeWait step s).1 = .ok () ↔ s.visible key ≠ 0)) ∧
    s.saturatedSets = min (s.log.countP fun e => decide (e.1 = .discarded)) (u64 - 1) := by
  have h : Ledger s := hr.keeps ledger_empty fun u l v hu hv => by
    have := ledger_exec l.1 u hu
    rw [show exec l.1 u = (l.2, v) from hv] at this
    exact this
  exact ⟨h.balance key, h.bounded key, h.positive key, fun step hop hk => hk ▸ consumeWait_ok_iff h hop, h.saturated⟩

/-- A set and a wait of event 0 from MTE1 to pipe 2 through L0a. -/
def l0aFlag (operation : HardwareFlagOperation) : HardwareFlagStep :=
  { pc := 0
    instruction := ⟨0, operation, .immediate 0, .mte1, 2, .l0a, false⟩
    eventId := 0
    sourceValue := none }

/-- Two sets, of which one is delivered and waited for. -/
def setWait : List FlagCall :=
  [.scheduleSet (l0aFlag .set) 0, .scheduleSet (l0aFlag .set) 4, .advanceTo 1, .enqueueCubeWait 3 (l0aFlag .wait),
    .gateCubeInstruction 2 4]

theorem flag_tokens_balance_set_wait :
    tally (runCalls exec empty setWait).2.log .accepted ⟨2, 1, 0⟩ = 2 ∧
    pendingOf (runCalls exec empty setWait).2.pendingSets ⟨2, 1, 0⟩ = 1 ∧
    tally (runCalls exec empty setWait).2.log .waited ⟨2, 1, 0⟩ = 1 ∧
    (runCalls exec empty setWait).2.visible ⟨2, 1, 0⟩ ≤ 63 :=
  ⟨by decide, by decide, by decide, (flag_tokens_balance (run_runCalls exec empty setWait) ⟨2, 1, 0⟩).2.1⟩

end AscendEmulator.C220.Sync.HardwareFlagState
