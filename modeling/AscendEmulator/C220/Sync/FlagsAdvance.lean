/-
  AscendEmulator.C220.Sync.FlagsAdvance — how coarsely the clock of the flag state is
  advanced does not matter (see `AscendEmulator.C220.Sync.Flags`).

  Only the time check of `schedule_event` reads `now`, and a wake passes it whatever `now`
  is up to the wake's tick (`Timeless`). So the rounds after `t1` are the same from the
  state that `advance_to(t1)` leaves as in one longer loop.
-/

import AscendEmulator.C220.Sync.Flags

namespace AscendEmulator.C220.Sync.HardwareFlagState

open Lib

variable {α β : Type} {s s' : HardwareFlagState} {n tick : Nat}

/-! ## Wakes do not read the clock -/

def withNow (s : HardwareFlagState) (now : Nat) : HardwareFlagState := { s with now }

/-- The call does not change `now`, and up to tick `n` does not depend on it. -/
def Timeless (n : Nat) (c : FlagCallOf α) : Prop :=
  ∀ s, (c s).2.now = s.now ∧
    ∀ now, s.now ≤ n → now ≤ n → c (s.withNow now) = ((c s).1, (c s).2.withNow now)

theorem Timeless.bind {c : FlagCallOf α} {f : α → FlagCallOf β} (hc : Timeless n c) (hf : ∀ a, Timeless n (f a)) :
    Timeless n (c.bind f) := by
  intro s
  obtain ⟨h₁, h₂⟩ := hc s
  unfold Call.bind
  cases hr : c s with
  | mk r u =>
    simp only [hr] at h₁ h₂
    cases r with
    | error e => exact ⟨h₁, fun now hs hn => by rw [h₂ now hs hn]⟩
    | ok a =>
      obtain ⟨h₃, h₄⟩ := hf a u
      exact ⟨h₃.trans h₁, fun now hs hn => by rw [h₂ now hs hn]; exact h₄ now (h₁ ▸ hs) hn⟩

theorem checkEvent_withNow {event : HardwareFlagEvent} {now : Nat} (hs : s.now ≤ n) (hn : now ≤ n) :
    (s.withNow now).checkEvent event n = s.checkEvent event n := by
  simp only [checkEvent, withNow, visible, Nat.not_lt.mpr hs, Nat.not_lt.mpr hn, if_false]
  rfl

theorem timeless_scheduleEvent (event : HardwareFlagEvent) : Timeless n (scheduleEvent event n) := by
  intro s
  refine ⟨?_, fun now hs hn => ?_⟩
  · unfold scheduleEvent
    split <;> rfl
  · unfold scheduleEvent
    rw [checkEvent_withNow hs hn]
    cases s.checkEvent event n <;> rfl

theorem timeless_releaseFrom (queue : Fin 3) (id : Nat) (sets : List QueuedCubeFlag) :
    Timeless n (releaseFrom queue id n sets) := by
  induction sets with
  | nil => exact fun s => ⟨rfl, fun now hs hn => rfl⟩
  | cons pending rest ih =>
    intro s
    have hsch : Timeless n (scheduleSet pending.step n) := timeless_scheduleEvent _
    obtain ⟨h₁, h₂⟩ := hsch s
    by_cases hlt : pending.instructionId < id
    · simp only [releaseFrom, if_pos hlt]
      cases hr : scheduleSet pending.step n s with
      | mk r u =>
        simp only [hr] at h₁ h₂
        cases r with
        | error e => cases e <;> exact ⟨h₁, fun now hs hn => by rw [h₂ now hs hn]⟩
        | ok m =>
          obtain ⟨h₃, h₄⟩ := ih (u.setCubeSets queue rest)
          exact ⟨h₃.trans h₁, fun now hs hn => by rw [h₂ now hs hn]; exact h₄ now (h₁ ▸ hs) hn⟩
    · simp only [releaseFrom, if_neg hlt]
      exact ⟨trivial, fun now hs hn => trivial⟩

theorem timeless_deferHead (queue : Fin 4) : Timeless n (deferHead queue n) := by
  intro s
  simp only [deferHead, withNow]
  split
  · exact ⟨rfl, fun now hs hn => rfl⟩
  · split <;> exact ⟨rfl, fun now hs hn => rfl⟩

theorem timeless_advanceCheckpoint (queue : Fin 4) : Timeless n (advanceCheckpoint queue n) := by
  intro s
  simp only [advanceCheckpoint, withNow]
  cases (s.cubeCheckpoints queue).head?.filter fun head => decide (head.tick ≤ n) with
  | none => exact ⟨rfl, fun now hs hn => rfl⟩
  | some head =>
    refine Timeless.bind (fun s => timeless_releaseFrom _ _ (s.cubeSets _) s) (fun released s => ?_) s
    cases released with
    | false => exact timeless_deferHead queue s
    | true => exact timeless_deferHead queue (s.setCheckpoints queue _)

theorem timeless_advanceCheckpoints (queues : List (Fin 4)) : Timeless n (advanceCheckpoints n queues) := by
  induction queues with
  | nil => exact fun s => ⟨rfl, fun now hs hn => rfl⟩
  | cons queue queues ih => exact Timeless.bind (timeless_advanceCheckpoint queue) fun _ => ih

theorem scan_withNow (tick now : Nat) (kept sets : List PendingHardwareFlag) (s : HardwareFlagState) :
    (scan tick kept sets s).now = s.now ∧ scan tick kept sets (s.withNow now) = (scan tick kept sets s).withNow now := by
  induction sets generalizing kept s with
  | nil => exact ⟨rfl, rfl⟩
  | cons pending rest ih =>
    rw [scan, scan]
    split
    · have hd : (s.withNow now).deliver pending.key = (s.deliver pending.key).withNow now := by
        by_cases hc : capacity ≤ s.visible pending.key
        · have hc' : capacity ≤ (s.withNow now).visible pending.key := hc
          rw [deliver, deliver, if_pos hc, if_pos hc']
          rfl
        · have hc' : ¬capacity ≤ (s.withNow now).visible pending.key := hc
          rw [deliver, deliver, if_neg hc, if_neg hc']
          rfl
      have hn : (s.deliver pending.key).now = s.now := by unfold deliver; split <;> rfl
      rw [hd]
      exact ⟨(ih kept _).1.trans hn, (ih kept _).2⟩
    · exact ih _ s

theorem deliverAt_withNow (s : HardwareFlagState) (tick now : Nat) :
    (s.deliverAt tick).now = s.now ∧ (s.withNow now).deliverAt tick = (s.deliverAt tick).withNow now :=
  scan_withNow tick now [] s.pendingSets s

theorem timeless_wake : Timeless n (wake n) := by
  intro s
  have hw := timeless_advanceCheckpoints (n := n) (List.finRange 4)
  unfold wake advanceCubeCheckpoints
  by_cases hc : s.notifications.contains n
  · have hc' : ∀ now, (s.withNow now).notifications.contains n := fun _ => hc
    have hd := deliverAt_withNow (s.removeNotification n) n
    obtain ⟨h₃, h₄⟩ := hw ((s.removeNotification n).deliverAt n)
    rw [if_pos hc]
    refine ⟨h₃.trans (hd 0).1, fun now hs hn => ?_⟩
    rw [if_pos (hc' now), ← h₄ now ((hd 0).1.symm ▸ hs) hn]
    exact congrArg _ (hd now).2
  · have hc' : ∀ now, ¬(s.withNow now).notifications.contains n = true := fun _ => hc
    rw [if_neg hc]
    refine ⟨(hw s).1, fun now hs hn => ?_⟩
    rw [if_neg (hc' now)]
    exact (hw s).2 now hs hn

/-! ## The loop -/

/-- Past the clock, the loop does not depend on `now` either. -/
theorem advanceLoop_withNow {fuel now : Nat} {r : Except HardwareFlagTimingError Unit}
    (hl : ∀ m, s.nextNotificationTick = some m → s.now ≤ m ∧ now ≤ m)
    (h : advanceLoop tick fuel s = some (r, s')) : advanceLoop tick fuel (s.withNow now) = some (r, s'.withNow now) := by
  induction fuel generalizing s with
  | zero => cases h
  | succ fuel ih =>
    have hnext : (s.withNow now).nextNotificationTick = s.nextNotificationTick := rfl
    rw [advanceLoop] at h ⊢
    rw [hnext]
    cases hm : s.nextNotificationTick with
    | none =>
      rw [hm] at h
      cases h
      rfl
    | some m =>
      rw [hm] at h
      by_cases hle : m ≤ tick
      · simp only [hle, if_true] at h ⊢
        obtain ⟨h₁, h₂⟩ := timeless_wake (n := m) s
        rw [h₂ now (hl m hm).1 (hl m hm).2]
        cases hw : wake m s with
        | mk r₁ u =>
          rw [hw] at h h₁
          cases r₁ with
          | error e => cases h; rfl
          | ok _ =>
            refine ih (fun k hk => ?_) h
            have := nextNotificationTick_later (wake_later hm hw) hk
            have := hl m hm
            have h₁ : u.now = s.now := h₁
            omega
      · simp only [hle, if_false] at h ⊢
        cases h
        rfl

theorem advanceLoop_mono {fuel more : Nat} {r : Except HardwareFlagTimingError Unit × HardwareFlagState}
    (h : advanceLoop tick fuel s = some r) (hle : fuel ≤ more) : advanceLoop tick more s = some r := by
  induction fuel generalizing more s with
  | zero => cases h
  | succ fuel ih =>
    obtain ⟨more, rfl⟩ : ∃ m, more = m + 1 := ⟨more - 1, by omega⟩
    rw [advanceLoop] at h ⊢
    split at h
    · exact h
    · split at h
      · rename_i hle'
        simp only [hle', if_true]
        split at h
        · exact ih h (by omega)
        · exact h
      · rename_i hgt
        simp only [hgt, if_false]
        exact h

/-- The rounds up to `t₁`, and then the ones up to `t₂`, are the rounds up to `t₂`. -/
theorem advanceLoop_trans {t₁ t₂ fuel₁ fuel₂ : Nat} {r : Except HardwareFlagTimingError Unit × HardwareFlagState}
    (hle : t₁ ≤ t₂) (h₁ : advanceLoop t₁ fuel₁ s = some (.ok (), s')) (h₂ : advanceLoop t₂ fuel₂ s' = some r) :
    advanceLoop t₂ (fuel₁ + fuel₂) s = some r := by
  induction fuel₁ generalizing s with
  | zero => cases h₁
  | succ fuel ih =>
    rw [advanceLoop] at h₁
    split at h₁
    · cases h₁; exact advanceLoop_mono h₂ (by omega)
    · rename_i m hm
      split at h₁
      · rename_i hmt
        split at h₁
        · rename_i u hw
          have hmt₂ : m ≤ t₂ := by omega
          rw [Nat.succ_add, advanceLoop, hm]
          simp only [hmt₂, if_true, hw]
          exact ih h₁
        · cases h₁
      · cases h₁; exact advanceLoop_mono h₂ (by omega)

theorem advanceLoop_now {fuel : Nat} {r : Except HardwareFlagTimingError Unit}
    (h : advanceLoop tick fuel s = some (r, s')) : s'.now = s.now := by
  induction fuel generalizing s with
  | zero => cases h
  | succ fuel ih =>
    rw [advanceLoop] at h
    split at h
    · cases h; rfl
    · rename_i m hm
      split at h
      · have hn := (timeless_wake (n := m) s).1
        split at h
        · rename_i u hw
          rw [hw] at hn
          exact (ih h).trans hn
        · rename_i e u hw
          rw [hw] at hn
          cases h
          exact hn
      · cases h; rfl

/-- The loop stops before the first wake after `tick`. -/
theorem advanceLoop_exit {fuel m : Nat} (h : advanceLoop tick fuel s = some (.ok (), s'))
    (hm : s'.nextNotificationTick = some m) : tick < m := by
  induction fuel generalizing s with
  | zero => cases h
  | succ fuel ih =>
    rw [advanceLoop] at h
    split at h
    · rename_i hn
      cases h
      rw [hn] at hm
      cases hm
    · rename_i k hk
      split at h
      · split at h
        · exact ih h
        · cases h
      · rename_i hlt
        cases h
        rw [hk] at hm
        cases hm
        omega

theorem advanceTo_ok : advanceTo tick s = (.ok (), s') ↔
    s.now ≤ tick ∧ ∃ u, advanceLoop tick (tick + 2) s = some (.ok (), u) ∧ s' = u.withNow tick := by
  obtain ⟨⟨r, u⟩, hr⟩ := Option.isSome_iff_exists.mp (advanceLoop_isSome tick s)
  unfold advanceTo
  by_cases hlt : tick < s.now
  · rw [if_pos hlt]
    simp [Nat.not_le.mpr hlt]
  · simp only [if_neg hlt, hr, Option.get_some, Nat.le_of_not_lt hlt, true_and, Option.some.injEq, Prod.mk.injEq]
    cases r with
    | error e => simp
    | ok _ =>
      constructor
      · intro h
        cases h
        exact ⟨u, ⟨rfl, rfl⟩, rfl⟩
      · rintro ⟨w, ⟨-, rfl⟩, rfl⟩
        rfl

/-- Advancing to `t₁` and then to `t₂` is advancing to `t₂` at once; and the loop always
    ends, whatever the bound on its rounds from `tick + 2` on. -/
theorem advance_at_once (s : HardwareFlagState) :
    (∀ t₁ t₂ s₁ s₂, t₁ ≤ t₂ → advanceTo t₁ s = (.ok (), s₁) → advanceTo t₂ s₁ = (.ok (), s₂) →
      advanceTo t₂ s = (.ok (), s₂)) ∧
    ∀ tick, ∃ r, ∀ fuel, tick + 2 ≤ fuel → advanceLoop tick fuel s = some r := by
  constructor
  · intro t₁ t₂ s₁ s₂ hle h₁ h₂
    obtain ⟨hn₁, u₁, hu₁, rfl⟩ := advanceTo_ok.mp h₁
    obtain ⟨hn₂, u₂, hu₂, rfl⟩ := advanceTo_ok.mp h₂
    have hnow := advanceLoop_now hu₁
    -- the second leg from the state before `now` was set
    have hu : advanceLoop t₂ (t₂ + 2) u₁ = some (.ok (), u₂.withNow u₁.now) := by
      refine advanceLoop_withNow (s := u₁.withNow t₁) (fun m hm => ?_) hu₂
      have := advanceLoop_exit hu₁ hm
      show t₁ ≤ m ∧ u₁.now ≤ m
      omega
    obtain ⟨r, hr⟩ := Option.isSome_iff_exists.mp (advanceLoop_isSome t₂ s)
    have hall := advanceLoop_trans hle hu₁ hu
    rw [advanceLoop_mono hr (by omega)] at hall
    cases hall
    exact advanceTo_ok.mpr ⟨by omega, _, hr, rfl⟩
  · intro tick
    obtain ⟨r, hr⟩ := Option.isSome_iff_exists.mp (advanceLoop_isSome tick s)
    exact ⟨r, fun fuel hf => advanceLoop_mono hr hf⟩

/-- A set from the Cube to pipe 10 through L0c. -/
def cubeSet : HardwareFlagStep :=
  { pc := 0
    instruction := ⟨0, .set, .immediate 0, .cube, 10, .l0c, false⟩
    eventId := 0
    sourceValue := none }

/-- The set of instruction 5 waits for the checkpoint of tick 2. -/
def checkpointed : HardwareFlagState :=
  (enqueueCubeCheckpoint .writeBuffer 6 1 1 (enqueueCubeSet 5 cubeSet empty).2).2

theorem advance_at_once_checkpoint :
    advanceTo 5 checkpointed = (.ok (), (advanceTo 5 (advanceTo 2 checkpointed).2).2) ∧
    (advanceTo 5 checkpointed).2.count 10 .l0c 0 = 1 :=
  ⟨(advance_at_once checkpointed).1 2 5 _ _ (by decide) (Prod.ext (by rfl) (by rfl)) (Prod.ext (by rfl) (by rfl)), by rfl⟩

end AscendEmulator.C220.Sync.HardwareFlagState
