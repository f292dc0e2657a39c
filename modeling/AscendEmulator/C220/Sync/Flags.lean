/-
  AscendEmulator.C220.Sync.Flags — the hardware flag state (`C220HardwareFlagState`).

  A set event is admitted with a notification tick; when the clock passes a notification,
  one scan over all pending sets makes the matured ones visible in the counters. Cube waits
  take visible tokens, Cube sets are released in instruction order by four checkpoint queues
  and retried one tick later while a counter is almost full. `advance_to` wakes at each
  notification or checkpoint up to its tick.

  A wake only leaves later ones (`wake_later`), so the loop of `advance_to` ends within
  `tick + 2` rounds and `advanceTo` is the value it ends with. Ticks are `u64`, counts `u8`
  and at most 63; `log` is a ghost: it records what became of each token and nothing reads it.
-/

import AscendEmulator.Lib.Run
import AscendEmulator.Lib.OrdMap

namespace AscendEmulator.C220.Sync

open Lib

/-! ## Hardware flag instructions -/

inductive HardwareFlagOperation where
  | set | wait
  deriving DecidableEq, Repr

inductive HardwareEventSource where
  | immediate (id : Nat)
  | register (index : Nat)
  deriving DecidableEq, Repr

inductive HardwareFlagSourcePipe where
  | cube | mte1 | fix
  deriving DecidableEq, Repr

inductive MatrixMemory where
  | l0a | l0b | l0c | biasTable
  deriving DecidableEq, Repr

structure HardwareFlagInstruction where
  word : Nat
  operation : HardwareFlagOperation
  eventSource : HardwareEventSource
  sourcePipe : HardwareFlagSourcePipe
  destinationPipeCode : Nat
  memory : MatrixMemory
  trigger : Bool
  deriving DecidableEq, Repr

structure HardwareFlagStep where
  pc : Nat
  instruction : HardwareFlagInstruction
  eventId : Nat
  sourceValue : Option Nat
  deriving DecidableEq, Repr

/-! ## State -/

def almostFull : Nat := 32

def capacity : Nat := 63

/-- Timestamp 0 asks for a fresh visibility delay. -/
structure HardwareFlagEvent where
  step : HardwareFlagStep
  timestamp : Nat
  deriving DecidableEq, Repr

def HardwareFlagEvent.captureMte (step : HardwareFlagStep) (tick : Nat) : HardwareFlagEvent := ⟨step, tick % u32⟩

@[ext] structure HardwareFlagKey where
  destinationPipeCode : Nat
  memory : Nat
  eventId : Nat
  deriving Repr

def HardwareFlagKey.triple (k : HardwareFlagKey) : Nat ×ₗ Nat ×ₗ Nat :=
  toLex (k.destinationPipeCode, toLex (k.memory, k.eventId))

instance : LinearOrder HardwareFlagKey := LinearOrder.lift' HardwareFlagKey.triple fun a b h => by
  have h₁ := congrArg (fun t => (ofLex t).1) h
  have h₂ := congrArg (fun t => (ofLex (ofLex t).2).1) h
  have h₃ := congrArg (fun t => (ofLex (ofLex t).2).2) h
  exact HardwareFlagKey.ext h₁ h₂ h₃

def memoryCode : MatrixMemory → Nat
  | .l0a => 1
  | .l0b => 2
  | .l0c => 3
  | .biasTable => 5

def HardwareFlagKey.fromStep (step : HardwareFlagStep) : HardwareFlagKey :=
  ⟨step.instruction.destinationPipeCode, memoryCode step.instruction.memory, step.eventId⟩

structure PendingHardwareFlag where
  admittedTick : Nat
  event : HardwareFlagEvent
  key : HardwareFlagKey

structure QueuedCubeFlag where
  instructionId : Nat
  step : HardwareFlagStep

structure QueuedMteFlag where
  instructionId : Nat
  event : HardwareFlagEvent

structure Checkpoint where
  tick : Nat
  instructionId : Nat

inductive HardwareFlagTimingError where
  | unsupportedDestination (memory : MatrixMemory) (destinationPipeCode : Nat)
  | timeOverflow
  | timeReversed (requested previous : Nat)
  | operationMismatch
  | almostFull (eventId count : Nat)
  | missingToken (eventId : Nat)
  | instructionOrder
  deriving DecidableEq, Repr

/-- What became of a token: a set event was accepted, delivered to a full counter, or
    taken by a wait. -/
inductive TokenMark where
  | accepted | discarded | waited
  deriving DecidableEq, Repr

@[ext] structure HardwareFlagState where
  now : Nat
  counters : OrdMap HardwareFlagKey Nat
  pendingSets : List PendingHardwareFlag
  notifications : OrdMap Nat Unit
  cubeWaits : List QueuedCubeFlag
  cubeSets : Fin 3 → List QueuedCubeFlag
  cubeCheckpoints : Fin 4 → List Checkpoint
  mteFlags : List QueuedMteFlag
  saturatedSets : Nat
  /-- ghost -/
  log : List (TokenMark × HardwareFlagKey)

abbrev FlagCallOf (α : Type) := Call HardwareFlagState HardwareFlagTimingError α

namespace HardwareFlagState

def empty : HardwareFlagState :=
  { now := 0, counters := .empty, pendingSets := [], notifications := .empty, cubeWaits := []
    cubeSets := fun _ => [], cubeCheckpoints := fun _ => [], mteFlags := [], saturatedSets := 0, log := [] }

/-- The visible count of a key. -/
def visible (s : HardwareFlagState) (key : HardwareFlagKey) : Nat := s.counters.getD key 0

def count (s : HardwareFlagState) (destinationPipeCode : Nat) (memory : MatrixMemory) (eventId : Nat) : Nat :=
  s.visible ⟨destinationPipeCode, memoryCode memory, eventId⟩

/-! ## MTE flags -/

def enqueueMteFlag (instructionId : Nat) (step : HardwareFlagStep) (tick : Nat) : FlagCallOf Unit := fun s =>
  if step.instruction.trigger then (.error .operationMismatch, s)
  else if s.mteFlags.any fun pending =>
      decide (pending.event.step.instruction.memory = step.instruction.memory) &&
      decide (pending.event.step.instruction.operation = step.instruction.operation) &&
      decide (pending.event.step.eventId = step.eventId) then (.ok (), s)
  else (.ok (), { s with mteFlags := s.mteFlags ++ [⟨instructionId, .captureMte step tick⟩] })

def takeMteFlags (instructionId : Nat) (memory : MatrixMemory) (s : HardwareFlagState) :
    List HardwareFlagEvent × HardwareFlagState :=
  let attached (pending : QueuedMteFlag) : Bool :=
    decide (pending.instructionId < instructionId) &&
    decide (pending.event.step.instruction.memory = memory)
  ((s.mteFlags.filter attached).map (·.event), { s with mteFlags := s.mteFlags.filter fun p => !attached p })

/-! ## Set events -/

def visibilityTicks (memory : MatrixMemory) (destinationPipeCode : Nat) : Except HardwareFlagTimingError Nat :=
  match memory, destinationPipeCode with
  | .l0a, 2 | .l0b, 2 | .l0c, 2 | .biasTable, 3 => .ok 1
  | .l0a, 3 | .l0a, 4 | .l0a, 5 | .l0b, 3 | .l0b, 4 | .l0b, 5 | .l0c, 10 | .biasTable, 2 => .ok 2
  | _, _ => .error (.unsupportedDestination memory destinationPipeCode)

/-- The checks of `schedule_event`, in order; the value is the notification tick. -/
def checkEvent (s : HardwareFlagState) (event : HardwareFlagEvent) (checkpointTick : Nat) :
    Except HardwareFlagTimingError Nat :=
  if event.step.instruction.operation ≠ .set then .error .operationMismatch
  else if checkpointTick < s.now then .error (.timeReversed checkpointTick s.now)
  else if almostFull ≤ s.visible (.fromStep event.step) then
    .error (.almostFull event.step.eventId (s.visible (.fromStep event.step)))
  else
    match (if event.timestamp = 0 then
        visibilityTicks event.step.instruction.memory event.step.instruction.destinationPipeCode else .ok 1) with
    | .error e => .error e
    | .ok delay =>
      match checkedAdd checkpointTick delay with
      | none => .error .timeOverflow
      | some notificationTick => .ok notificationTick

def scheduleEvent (event : HardwareFlagEvent) (checkpointTick : Nat) : FlagCallOf Nat := fun s =>
  match s.checkEvent event checkpointTick with
  | .error e => (.error e, s)
  | .ok notificationTick =>
    let event := if event.timestamp = 0 then { event with timestamp := notificationTick } else event
    let key := HardwareFlagKey.fromStep event.step
    (.ok notificationTick,
      { s with
        notifications := s.notifications.insert notificationTick ()
        pendingSets := s.pendingSets ++ [⟨checkpointTick, event, key⟩]
        log := s.log ++ [(.accepted, key)] })

def scheduleSet (step : HardwareFlagStep) (checkpointTick : Nat) : FlagCallOf Nat :=
  scheduleEvent ⟨step, 0⟩ checkpointTick

/-- The pending sets a notification at `tick` makes visible. -/
def Matured (tick : Nat) (pending : PendingHardwareFlag) : Prop :=
  pending.admittedTick ≤ tick ∧ pending.event.timestamp ≤ tick

instance (tick : Nat) (pending : PendingHardwareFlag) : Decidable (Matured tick pending) := instDecidableAnd

/-- A delivered set: one more visible token, or one discarded at a full counter. -/
def deliver (s : HardwareFlagState) (key : HardwareFlagKey) : HardwareFlagState :=
  if capacity ≤ s.visible key then
    { s with saturatedSets := min (s.saturatedSets + 1) (u64 - 1), log := s.log ++ [(.discarded, key)] }
  else { s with counters := s.counters.insert key (s.visible key + 1) }

/-- The scan of `deliver_at` over the sets still to look at, `kept` those that stay. -/
def scan (tick : Nat) : List PendingHardwareFlag → List PendingHardwareFlag → HardwareFlagState → HardwareFlagState
  | kept, [], s => { s with pendingSets := kept }
  | kept, pending :: rest, s =>
    if Matured tick pending then scan tick kept rest (s.deliver pending.key)
    else scan tick (kept ++ [pending]) rest s

def deliverAt (s : HardwareFlagState) (tick : Nat) : HardwareFlagState := scan tick [] s.pendingSets s

/-! ## Cube sets and their checkpoints -/

inductive CubeFlagCheckpoint where
  | readBuffers | bias | writeBuffer | unitFlagRetry
  deriving DecidableEq, Repr

def CubeFlagCheckpoint.queue : CubeFlagCheckpoint → Fin 4
  | .readBuffers => 0
  | .bias => 1
  | .writeBuffer => 2
  | .unitFlagRetry => 3

def setCubeSets (s : HardwareFlagState) (queue : Fin 3) (sets : List QueuedCubeFlag) : HardwareFlagState :=
  { s with cubeSets := Function.update s.cubeSets queue sets }

def setCheckpoints (s : HardwareFlagState) (queue : Fin 4) (points : List Checkpoint) : HardwareFlagState :=
  { s with cubeCheckpoints := Function.update s.cubeCheckpoints queue points }

def enqueueCubeSet (instructionId : Nat) (step : HardwareFlagStep) : FlagCallOf Unit := fun s =>
  if step.instruction.operation ≠ .set ∨ step.instruction.trigger then (.error .operationMismatch, s)
  else
    let queue : Fin 3 :=
      if step.instruction.destinationPipeCode = 10 then 2
      else if step.instruction.memory = .biasTable then 1
      else 0
    if (s.cubeSets queue).getLast?.any fun tail => decide (instructionId ≤ tail.instructionId) then
      (.error .instructionOrder, s)
    else (.ok (), s.setCubeSets queue (s.cubeSets queue ++ [⟨instructionId, step⟩]))

def enqueueCubeCheckpoint (kind : CubeFlagCheckpoint) (instructionId tick delay : Nat) : FlagCallOf Unit := fun s =>
  match checkedAdd tick delay with
  | none => (.error .timeOverflow, s)
  | some tick => (.ok (), s.setCheckpoints kind.queue (s.cubeCheckpoints kind.queue ++ [⟨tick, instructionId⟩]))

/-- The loop of `release_cube_sets` over what is left in the queue. -/
def releaseFrom (queue : Fin 3) (instructionId tick : Nat) : List QueuedCubeFlag → FlagCallOf Bool
  | [], s => (.ok true, s)
  | pending :: rest, s =>
    if pending.instructionId < instructionId then
      match scheduleSet pending.step tick s with
      | (.ok _, s) => releaseFrom queue instructionId tick rest (s.setCubeSets queue rest)
      | (.error (.almostFull _ _), s) => (.ok false, s)
      | (.error e, s) => (.error e, s)
    else (.ok true, s)

def releaseCubeSets (queue : Fin 3) (instructionId tick : Nat) : FlagCallOf Bool := fun s =>
  releaseFrom queue instructionId tick (s.cubeSets queue) s

def checkCubeUnitFlagSet (instructionId tick : Nat) : FlagCallOf Unit :=
  (releaseCubeSets 2 instructionId tick).bind fun released =>
    if released then fun s => (.ok (), s)
    else enqueueCubeCheckpoint .unitFlagRetry instructionId tick 1

/-- The queue of Cube sets that a checkpoint queue releases. -/
def setsQueue (queue : Fin 4) : Fin 3 := ⟨min queue.val 2, by omega⟩

/-- After a checkpoint, the head waits for the next tick at least. -/
def deferHead (queue : Fin 4) (tick : Nat) : FlagCallOf Unit := fun s =>
  match s.cubeCheckpoints queue with
  | [] => (.ok (), s)
  | head :: rest =>
    match checkedAdd tick 1 with
    | none => (.error .timeOverflow, s)
    | some next => (.ok (), s.setCheckpoints queue ({ head with tick := max head.tick next } :: rest))

/-- One queue's turn in `advance_cube_checkpoints`. -/
def advanceCheckpoint (queue : Fin 4) (tick : Nat) : FlagCallOf Unit := fun s =>
  match (s.cubeCheckpoints queue).head?.filter fun head => decide (head.tick ≤ tick) with
  | none => (.ok (), s)
  | some head =>
    (releaseCubeSets (setsQueue queue) head.instructionId tick).bind (fun released s =>
      deferHead queue tick (if released then s.setCheckpoints queue (s.cubeCheckpoints queue).tail else s)) s

def advanceCheckpoints (tick : Nat) : List (Fin 4) → FlagCallOf Unit
  | [], s => (.ok (), s)
  | queue :: queues, s => (advanceCheckpoint queue tick).bind (fun _ => advanceCheckpoints tick queues) s

def advanceCubeCheckpoints (tick : Nat) : FlagCallOf Unit := advanceCheckpoints tick (List.finRange 4)

/-! ## Time -/

def nextNotificationTick (s : HardwareFlagState) : Option Nat :=
  ((s.notifications.first?.map (·.1)).toList ++
    (List.finRange 4).filterMap fun queue => (s.cubeCheckpoints queue).head?.map (·.tick)).min?

def removeNotification (s : HardwareFlagState) (notification : Nat) : HardwareFlagState :=
  { s with notifications := s.notifications.erase notification }

/-- One round of `advance_to`'s loop. -/
def wake (notification : Nat) : FlagCallOf Unit := fun s =>
  advanceCubeCheckpoints notification
    (if s.notifications.contains notification then (s.removeNotification notification).deliverAt notification else s)

/-- The loop of `advance_to`, for less than `fuel` rounds. -/
def advanceLoop (tick : Nat) : Nat → HardwareFlagState → Option (Except HardwareFlagTimingError Unit × HardwareFlagState)
  | 0, _ => none
  | fuel + 1, s =>
    match s.nextNotificationTick with
    | none => some (.ok (), s)
    | some notification =>
      if notification ≤ tick then
        match wake notification s with
        | (.ok (), s) => advanceLoop tick fuel s
        | (.error e, s) => some (.error e, s)
      else some (.ok (), s)

/-! ## A wake only leaves later ones -/

variable {s s' : HardwareFlagState} {tick n : Nat}

theorem visibilityTicks_pos {memory : MatrixMemory} {code delay : Nat}
    (h : visibilityTicks memory code = .ok delay) : 0 < delay := by
  unfold visibilityTicks at h
  split at h <;> cases h <;> decide

theorem checkEvent_ok {event : HardwareFlagEvent} (h : s.checkEvent event tick = .ok n) :
    event.step.instruction.operation = .set ∧ s.now ≤ tick ∧ s.visible (.fromStep event.step) < almostFull ∧
      tick < n := by
  unfold checkEvent at h
  split at h
  · cases h
  · rename_i hop
    split at h
    · cases h
    · rename_i hnow
      split at h
      · cases h
      · rename_i hfull
        split at h
        · cases h
        · rename_i delay hdelay
          have hpos : 0 < delay := by
            split at hdelay
            · exact visibilityTicks_pos hdelay
            · cases hdelay; decide
          split at h
          · cases h
          · rename_i m hm
            obtain ⟨-, rfl⟩ := checkedAdd_eq_some.mp hm
            cases h
            exact ⟨Decidable.not_not.mp hop, Nat.le_of_not_lt hnow, Nat.lt_of_not_le hfull, by omega⟩

/-- What `schedule_event` does: nothing, or the event is accepted with a later notification. -/
theorem scheduleEvent_cases {event : HardwareFlagEvent} {r : Except HardwareFlagTimingError Nat}
    (h : scheduleEvent event tick s = (r, s')) :
    (∃ e, r = .error e ∧ s' = s) ∨
    ∃ n pending, r = .ok n ∧ s.now ≤ tick ∧ tick < n ∧ pending.key = .fromStep event.step ∧
      s.visible pending.key < almostFull ∧
      s' = { s with
        notifications := s.notifications.insert n ()
        pendingSets := s.pendingSets ++ [pending]
        log := s.log ++ [(.accepted, pending.key)] } := by
  unfold scheduleEvent at h
  split at h
  · cases h; exact .inl ⟨_, rfl, rfl⟩
  · rename_i n hn
    obtain ⟨-, hnow, hfull, hlt⟩ := checkEvent_ok hn
    cases h
    have he : (if event.timestamp = 0 then { event with timestamp := n } else event).step = event.step := by
      split <;> rfl
    exact .inr ⟨n, _, rfl, hnow, hlt, congrArg HardwareFlagKey.fromStep he, by rw [he]; exact hfull, rfl⟩

theorem mem_nextNotificationTick {m : Nat} (h : s.nextNotificationTick = some n)
    (hm : s.notifications.contains m ∨ ∃ queue head, (s.cubeCheckpoints queue).head? = some head ∧ head.tick = m) :
    n ≤ m := by
  have hle := (List.min?_eq_some_iff.mp h).2
  rcases hm with hm | ⟨queue, head, hh, rfl⟩
  · obtain ⟨u, hu⟩ := OrdMap.contains_eq_true.mp hm
    cases hf : s.notifications.first? with
    | none => rw [OrdMap.first?_none hf] at hu; cases hu
    | some e =>
      exact Nat.le_trans (hle e.1 (by simp [hf])) (OrdMap.first?_le hf hu)
  · exact hle _ (List.mem_append_right _ (List.mem_filterMap.mpr ⟨queue, List.mem_finRange _, by simp [hh]⟩))

/-- Every wake-up of `s` comes after `n`, that of the checkpoint queues in `queues` apart. -/
structure Later (n : Nat) (queues : List (Fin 4)) (s : HardwareFlagState) : Prop where
  notification : ∀ m, s.notifications.contains m → n < m
  checkpoint : ∀ queue, queue ∉ queues → ∀ head, (s.cubeCheckpoints queue).head? = some head → n < head.tick

theorem releaseFrom_later {queue : Fin 3} {id : Nat} {sets : List QueuedCubeFlag} {queues : List (Fin 4)}
    {r : Except HardwareFlagTimingError Bool} (hl : Later n queues s)
    (h : releaseFrom queue id n sets s = (r, s')) : Later n queues s' ∧ s'.cubeCheckpoints = s.cubeCheckpoints := by
  induction sets generalizing s with
  | nil => cases h; exact ⟨hl, rfl⟩
  | cons pending rest ih =>
    rw [releaseFrom] at h
    split at h
    · split at h
      · rename_i m u hs
        rcases scheduleEvent_cases hs with ⟨e, he, -⟩ | ⟨m, pending, -, -, hm, -, -, rfl⟩
        · cases he
        · have ih := fun hl' => ih hl' h
          refine ih ⟨fun k hk => ?_, hl.checkpoint⟩
          obtain ⟨v, hv⟩ := OrdMap.contains_eq_true.mp hk
          simp only [setCubeSets, OrdMap.get?_insert] at hv
          split at hv
          · omega
          · exact hl.notification k (OrdMap.contains_eq_true.mpr ⟨v, hv⟩)
      · rename_i hs
        rcases scheduleEvent_cases hs with ⟨e, -, rfl⟩ | ⟨m, pending, hm, -⟩
        · cases h; exact ⟨hl, rfl⟩
        · cases hm
      · rename_i hs
        rcases scheduleEvent_cases hs with ⟨e, -, rfl⟩ | ⟨m, pending, hm, -⟩
        · cases h; exact ⟨hl, rfl⟩
        · cases hm
    · cases h; exact ⟨hl, rfl⟩

/-- The head that `deferHead` leaves is later. -/
theorem deferHead_later {queue : Fin 4} {queues : List (Fin 4)} (hl : Later n (queue :: queues) s)
    (h : deferHead queue n s = (.ok (), s')) : Later n queues s' := by
  unfold deferHead at h
  split at h
  · rename_i hn
    cases h
    refine ⟨hl.notification, fun q hq head hh => ?_⟩
    by_cases he : q = queue
    · subst he; simp [hn] at hh
    · exact hl.checkpoint q (by simp [he, hq]) head hh
  · rename_i head rest hc
    split at h
    · cases h
    · rename_i next hnext
      obtain ⟨-, rfl⟩ := checkedAdd_eq_some.mp hnext
      cases h
      refine ⟨hl.notification, fun q hq head' hh => ?_⟩
      by_cases he : q = queue
      · subst he
        simp only [setCheckpoints, Function.update_self, List.head?_cons, Option.some.injEq] at hh
        subst hh
        simp only
        omega
      · simp only [setCheckpoints, Function.update_of_ne he] at hh
        exact hl.checkpoint q (by simp [he, hq]) head' hh

theorem advanceCheckpoint_later {queue : Fin 4} {queues : List (Fin 4)} (hl : Later n (queue :: queues) s)
    (h : advanceCheckpoint queue n s = (.ok (), s')) : Later n queues s' := by
  unfold advanceCheckpoint at h
  split at h
  · rename_i hf
    cases h
    refine ⟨hl.notification, fun q hq head hh => ?_⟩
    by_cases he : q = queue
    · subst he
      simpa [hh] using hf
    · exact hl.checkpoint q (by simp [he, hq]) head hh
  · obtain ⟨released, u, hr, h⟩ := Call.bind_ok h
    obtain ⟨hu, hc⟩ := releaseFrom_later hl hr
    refine deferHead_later ?_ h
    split
    · refine ⟨hu.notification, fun q hq head hh => ?_⟩
      have he : q ≠ queue := fun he => hq (he ▸ List.mem_cons_self ..)
      simp only [setCheckpoints, Function.update_of_ne he] at hh
      exact hu.checkpoint q hq head hh
    · exact hu

theorem advanceCheckpoints_later {queues : List (Fin 4)} (hl : Later n queues s)
    (h : advanceCheckpoints n queues s = (.ok (), s')) : Later n [] s' := by
  induction queues generalizing s with
  | nil => cases h; exact hl
  | cons queue queues ih =>
    obtain ⟨_, u, hc, h⟩ := Call.bind_ok h
    exact ih (advanceCheckpoint_later hl hc) h

@[simp] theorem deliver_notifications (s : HardwareFlagState) (key : HardwareFlagKey) :
    (s.deliver key).notifications = s.notifications := by
  unfold deliver
  split <;> rfl

@[simp] theorem deliver_cubeCheckpoints (s : HardwareFlagState) (key : HardwareFlagKey) :
    (s.deliver key).cubeCheckpoints = s.cubeCheckpoints := by
  unfold deliver
  split <;> rfl

theorem scan_wakes (tick : Nat) (kept sets : List PendingHardwareFlag) (s : HardwareFlagState) :
    (scan tick kept sets s).notifications = s.notifications ∧
    (scan tick kept sets s).cubeCheckpoints = s.cubeCheckpoints := by
  induction sets generalizing kept s with
  | nil => exact ⟨rfl, rfl⟩
  | cons pending rest ih =>
    rw [scan]
    split
    · simpa using ih kept (s.deliver pending.key)
    · exact ih _ s

/-- After the wake at the next notification, every other one is later. -/
theorem wake_later (hn : s.nextNotificationTick = some n) (h : wake n s = (.ok (), s')) : Later n [] s' := by
  refine advanceCheckpoints_later ⟨fun m hm => ?_, fun q hq => absurd (List.mem_finRange q) hq⟩ h
  have hle : ∀ m, s.notifications.contains m → n ≤ m := fun m hm => mem_nextNotificationTick hn (.inl hm)
  by_cases hc : s.notifications.contains n
  · rw [if_pos hc, deliverAt, (scan_wakes _ _ _ _).1] at hm
    obtain ⟨v, hv⟩ := OrdMap.contains_eq_true.mp hm
    rw [removeNotification, OrdMap.get?_erase] at hv
    split at hv
    · cases hv
    · rename_i hne
      have := hle m (OrdMap.contains_eq_true.mpr ⟨v, hv⟩)
      omega
  · rw [if_neg hc] at hm
    have hne : m ≠ n := fun he => hc (he ▸ hm)
    have := hle m hm
    omega

theorem nextNotificationTick_later (hl : Later n [] s) {m : Nat} (hm : s.nextNotificationTick = some m) : n < m := by
  have hmem := (List.min?_eq_some_iff.mp hm).1
  rcases List.mem_append.mp hmem with hmem | hmem
  · cases hf : s.notifications.first? with
    | none => simp [hf] at hmem
    | some e =>
      have he : m = e.1 := by simpa [hf] using hmem
      exact he ▸ hl.notification e.1 (OrdMap.contains_eq_true.mpr ⟨e.2, OrdMap.first?_get? hf⟩)
  · obtain ⟨q, -, hq⟩ := List.mem_filterMap.mp hmem
    obtain ⟨head, hh, rfl⟩ := Option.map_eq_some_iff.mp hq
    exact hl.checkpoint q (by simp) head hh

/-- The rounds of the loop are at increasing ticks, so it ends. -/
theorem advanceLoop_some (fuel : Nat) (h : ∀ m, s.nextNotificationTick = some m → tick + 1 < m + fuel)
    (hf : 0 < fuel) : ∃ r, advanceLoop tick fuel s = some r := by
  induction fuel generalizing s with
  | zero => omega
  | succ fuel ih =>
    rw [advanceLoop]
    split
    · exact ⟨_, rfl⟩
    · rename_i m hm
      split
      · rename_i hle
        have hlt := h m hm
        split
        · rename_i u hw
          refine ih (fun k hk => ?_) (by omega)
          have := nextNotificationTick_later (wake_later hm hw) hk
          omega
        · exact ⟨_, rfl⟩
      · exact ⟨_, rfl⟩

theorem advanceLoop_isSome (tick : Nat) (s : HardwareFlagState) : (advanceLoop tick (tick + 2) s).isSome := by
  have hbound : ∀ m, s.nextNotificationTick = some m → tick + 1 < m + (tick + 2) := fun m _ => by omega
  obtain ⟨r, hr⟩ := advanceLoop_some (tick + 2) hbound (by omega)
  simp [hr]

def advanceTo (tick : Nat) : FlagCallOf Unit := fun s =>
  if tick < s.now then (.error (.timeReversed tick s.now), s)
  else
    match (advanceLoop tick (tick + 2) s).get (advanceLoop_isSome tick s) with
    | (.ok (), s) => (.ok (), { s with now := tick })
    | (.error e, s) => (.error e, s)

/-! ## Waits -/

def nextDeliveryTick (s : HardwareFlagState) (key : HardwareFlagKey) : Option Nat :=
  ((s.pendingSets.filter fun pending => decide (pending.key = key)).filterMap fun pending =>
    (s.notifications.entries.find? fun e =>
      decide (max pending.admittedTick pending.event.timestamp ≤ e.1)).map (·.1)).min?

def waitReadyTick (s : HardwareFlagState) (step : HardwareFlagStep) : Except HardwareFlagTimingError (Option Nat) :=
  if step.instruction.operation ≠ .wait then .error .operationMismatch
  else if s.visible (.fromStep step) ≠ 0 then .ok (some s.now)
  else .ok (s.nextDeliveryTick (.fromStep step))

def consumeWait (step : HardwareFlagStep) : FlagCallOf Unit := fun s =>
  if step.instruction.operation ≠ .wait then (.error .operationMismatch, s)
  else
    let key := HardwareFlagKey.fromStep step
    match s.counters.get? key with
    | none => (.error (.missingToken step.eventId), s)
    | some counter =>
      if counter = 0 then (.error (.missingToken step.eventId), s)
      else (.ok (),
        { s with
          counters := if counter - 1 = 0 then s.counters.erase key else s.counters.insert key (counter - 1)
          log := s.log ++ [(.waited, key)] })

def enqueueCubeWait (instructionId : Nat) (step : HardwareFlagStep) : FlagCallOf Unit := fun s =>
  if step.instruction.operation ≠ .wait then (.error .operationMismatch, s)
  else if s.cubeWaits.getLast?.any fun wait => decide (instructionId ≤ wait.instructionId) then
    (.error .instructionOrder, s)
  else (.ok (), { s with cubeWaits := s.cubeWaits ++ [⟨instructionId, step⟩] })

/-- The loop of `gate_cube_instruction` over the waits left. -/
def gateFrom (tick instructionId : Nat) : List QueuedCubeFlag → FlagCallOf (Option Nat)
  | [], s => (.ok none, s)
  | wait :: rest, s =>
    if wait.instructionId < instructionId then
      if s.visible (.fromStep wait.step) = 0 then
        match s.nextDeliveryTick (.fromStep wait.step) with
        | some resumeTick => (.ok (some resumeTick), s)
        | none =>
          match checkedAdd tick 1 with
          | none => (.error .timeOverflow, s)
          | some resumeTick => (.ok (some resumeTick), s)
      else
        match consumeWait wait.step s with
        | (.ok (), s) => gateFrom tick instructionId rest { s with cubeWaits := rest }
        | (.error e, s) => (.error e, s)
    else (.ok none, s)

/-- `Some` tick: an older wait holds the instruction until then. -/
def gateCubeInstruction (tick instructionId : Nat) : FlagCallOf (Option Nat) :=
  (advanceTo tick).bind fun _ s => gateFrom tick instructionId s.cubeWaits s

/-! ## Calls -/

inductive FlagCall where
  | enqueueMteFlag (instructionId : Nat) (step : HardwareFlagStep) (tick : Nat)
  | takeMteFlags (instructionId : Nat) (memory : MatrixMemory)
  | advanceTo (tick : Nat)
  | scheduleSet (step : HardwareFlagStep) (checkpointTick : Nat)
  | scheduleEvent (event : HardwareFlagEvent) (checkpointTick : Nat)
  | enqueueCubeWait (instructionId : Nat) (step : HardwareFlagStep)
  | gateCubeInstruction (tick instructionId : Nat)
  | consumeWait (step : HardwareFlagStep)
  | enqueueCubeSet (instructionId : Nat) (step : HardwareFlagStep)
  | enqueueCubeCheckpoint (kind : CubeFlagCheckpoint) (instructionId tick delay : Nat)
  | checkCubeUnitFlagSet (instructionId tick : Nat)

inductive FlagReply where
  | done
  | taken (events : List HardwareFlagEvent)
  | scheduled (notificationTick : Nat)
  | gated (resumeTick : Option Nat)
  deriving DecidableEq, Repr

def exec : FlagCall → FlagCallOf FlagReply
  | .enqueueMteFlag id step tick, s => reply (fun _ => .done) (enqueueMteFlag id step tick s)
  | .takeMteFlags id memory, s => (.ok (.taken (s.takeMteFlags id memory).1), (s.takeMteFlags id memory).2)
  | .advanceTo tick, s => reply (fun _ => .done) (advanceTo tick s)
  | .scheduleSet step tick, s => reply .scheduled (scheduleSet step tick s)
  | .scheduleEvent event tick, s => reply .scheduled (scheduleEvent event tick s)
  | .enqueueCubeWait id step, s => reply (fun _ => .done) (enqueueCubeWait id step s)
  | .gateCubeInstruction tick id, s => reply .gated (gateCubeInstruction tick id s)
  | .consumeWait step, s => reply (fun _ => .done) (consumeWait step s)
  | .enqueueCubeSet id step, s => reply (fun _ => .done) (enqueueCubeSet id step s)
  | .enqueueCubeCheckpoint kind id tick delay, s => reply (fun _ => .done) (enqueueCubeCheckpoint kind id tick delay s)
  | .checkCubeUnitFlagSet id tick, s => reply (fun _ => .done) (checkCubeUnitFlagSet id tick s)

end HardwareFlagState

end AscendEmulator.C220.Sync
