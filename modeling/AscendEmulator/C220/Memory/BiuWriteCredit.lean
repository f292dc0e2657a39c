/-
  AscendEmulator.C220.Memory.BiuWriteCredit — the credit counter of the write route (see
  `AscendEmulator.C220.Memory.BiuWrite`).

  A transaction counts from the send of the command to the receipt of the completion, and a
  completion until it is forwarded (`live`). An effect changes this number and the counter alike,
  so `outstanding` is the number as a `u32` (`Counted`), and the number itself while a `u32` holds
  it (`Inv`).
-/

import AscendEmulator.C220.Memory.BiuWritePlaced

namespace AscendEmulator.C220.Memory.BiuBusWrites

open Lib BiuWrite

variable {s s' : BiuBusWrites} {tag : MemoryWriteId} {e : Option (MemoryWriteId × Move)}

/-! ## Counting -/

/-- 1 from the send of the command to the receipt of the completion. -/
def isOpen (p : Option Phase) : Nat := if p = none ∨ p = some .queued ∨ p = some .completionQueued then 0 else 1

/-- The transactions whose command was sent and whose completion was not forwarded. -/
def live (s : BiuBusWrites) : Nat := s.phases.sum (fun _ p => isOpen (some p)) + (s.returns 1).length

def tallyAll (s : BiuBusWrites) (credit : Credit) : Nat := s.credits.countP fun e => decide (e.1 = credit)

structure Inv (s : BiuBusWrites) : Prop where
  placed : ∀ tag, Placed s tag (s.phases.get? tag)
  holds : s.outstanding = s.phases.sum (fun _ p => isOpen (some p)) + (s.returns 1).length
  small : s.outstanding < u32
  ledger : s.tallyAll .taken = s.tallyAll .released + s.outstanding

theorem inv_new (limit : Nat) : Inv (new limit) where
  placed _ := ⟨rfl, rfl, rfl, rfl⟩
  holds := rfl
  small := by show 0 < u32; decide
  ledger := rfl

theorem tallyAll_logged {e : Credit × MemoryWriteId} (hc : s'.credits = s.credits ++ [e]) (credit : Credit) :
    s'.tallyAll credit = s.tallyAll credit + if e.1 = credit then 1 else 0 := by
  simp [tallyAll, hc, List.countP_append, List.countP_cons]

/-- One phase changed: its share of the sum is replaced. -/
theorem sum_moved {b : Option Phase} (h : ∀ t, s'.phases.get? t = if t = tag then b else s.phases.get? t) :
    s'.phases.sum (fun _ p => isOpen (some p)) + isOpen (s.phases.get? tag) =
      s.phases.sum (fun _ p => isOpen (some p)) + isOpen b := by
  cases b with
  | some p =>
    have hm : s'.phases = s.phases.insert tag p := OrdMap.ext fun t => by rw [h, OrdMap.get?_insert]
    rw [hm, ← s.phases.sum_insert (fun _ p => isOpen (some p))]
    cases s.phases.get? tag <;> rfl
  | none =>
    have hm : s'.phases = s.phases.erase tag := OrdMap.ext fun t => by rw [h, OrdMap.get?_erase]
    rw [hm, ← s.phases.sum_erase (fun _ p => isOpen (some p))]
    cases s.phases.get? tag <;> rfl

/-- A move opens a transaction when its command is sent, and closes it when its completion is received. -/
theorem isOpen_after {a b : Option Phase} {move : Move} (h : after tag a move = some b) :
    isOpen b + inPhase .completionQueued b = isOpen a + inPhase .commandSent b ∧
      (b = some .commandSent ↔ move = .commandSent) := by
  unfold after at h
  split at h
  all_goals first
    | (cases h; simp [isOpen, inPhase])
    | (split at h <;> cases h; simp [isOpen, inPhase])
    | cases h

/-! ## Effects -/

/-- What an effect does to the count, to the counter and to the credits. -/
theorem Effect.counts (h : Effect s e s') :
    (live s' = live s ∧ s'.outstanding = s.outstanding ∧ s'.credits = s.credits) ∨
    (∃ tag, e = some (tag, .commandSent) ∧ live s' = live s + 1 ∧ s'.outstanding = wrappingSucc u32 s.outstanding ∧
      s'.credits = s.credits ++ [(.taken, tag)]) ∨
    (∃ tag, live s' + 1 = live s ∧ s'.outstanding = wrappingPred u32 s.outstanding ∧
      s'.credits = s.credits ++ [(.released, tag)]) := by
  cases h with
  | same h =>
    refine .inl ⟨?_, h.outstanding, h.credits⟩
    rw [live, h.phases, h.returned, live]
  | @forwarded _ tag h =>
    refine .inr (.inr ⟨tag, ?_, h.outstanding, h.credits⟩)
    have := h.returned
    rw [live, h.phases, live]
    omega
  | @moved _ tag move b ha h =>
    have hsum := sum_moved h.phase
    have hret := h.returned
    obtain ⟨hopen, hsent⟩ := isOpen_after ha
    by_cases hb : b = some .commandSent
    · obtain rfl := hsent.mp hb
      refine .inr (.inl ⟨tag, rfl, ?_, by rw [h.outstanding, if_pos hb], by rw [h.credits, if_pos hb]⟩)
      simp only [inPhase, hb, if_true] at hopen hret
      unfold live
      rw [hb] at hsum
      omega
    · refine .inl ⟨?_, by rw [h.outstanding, if_neg hb], by rw [h.credits, if_neg hb]⟩
      simp only [inPhase, hb, if_false] at hopen hret
      unfold live
      omega

/-- The counter is the count, as a `u32`. -/
def Counted (s : BiuBusWrites) : Prop := s.outstanding = live s % u32

theorem wrappingSucc_mod {n : Nat} : wrappingSucc u32 (n % u32) = (n + 1) % u32 := by
  unfold wrappingSucc u32
  split <;> omega

theorem wrappingPred_mod {n : Nat} : wrappingPred u32 ((n + 1) % u32) = n % u32 := by
  unfold wrappingPred u32
  split <;> omega

theorem Effect.counted (hc : Counted s) (h : Effect s e s') : Counted s' := by
  unfold Counted at hc ⊢
  rcases h.counts with ⟨hl, ho, -⟩ | ⟨tag, -, hl, ho, -⟩ | ⟨tag, hl, ho, -⟩
  · rw [ho, hl, hc]
  · rw [ho, hl, hc, wrappingSucc_mod]
  · rw [ho, hc, ← hl, wrappingPred_mod]

/-- The commands sent in `l`. -/
def sends (l : List (MemoryWriteId × Move)) : Nat := l.countP fun e => decide (e.2 = .commandSent)

theorem Effect.inv (hs : Sound s) (hi : Inv s) (h : Effect s e s')
    (hroom : ∀ tag, e = some (tag, .commandSent) → s.outstanding + 1 < u32) : Inv s' := by
  have hholds : s.outstanding = live s := hi.holds
  have hsmall := hi.small
  have hledger := hi.ledger
  rcases h.counts with ⟨hl, ho, hc⟩ | ⟨tag, he, hl, ho, hc⟩ | ⟨tag, hl, ho, hc⟩
  · refine ⟨(h.sound hs).placed, ?_, by omega, ?_⟩
    · show s'.outstanding = live s'
      omega
    · simp only [tallyAll, hc, ho] at hledger ⊢
      exact hledger
  · rw [wrappingSucc_of_lt (hroom tag he)] at ho
    refine ⟨(h.sound hs).placed, ?_, ho ▸ hroom tag he, ?_⟩
    · show s'.outstanding = live s'
      omega
    · rw [tallyAll_logged hc, tallyAll_logged hc, if_pos rfl, if_neg (by simp)]
      omega
  · rw [wrappingPred_of_pos (by omega)] at ho
    refine ⟨(h.sound hs).placed, ?_, by omega, ?_⟩
    · show s'.outstanding = live s'
      omega
    · rw [tallyAll_logged hc, tallyAll_logged hc, if_pos rfl, if_neg (by simp)]
      omega

/-- A run of effects keeps the invariant while the counter has room for the commands it sends. -/
theorem Shows.inv {l : List (MemoryWriteId × Move)} (hs : Sound s) (hi : Inv s) (h : Shows s l s')
    (hroom : s.outstanding + sends l < u32) : Inv s' := by
  obtain ⟨es, hes, rfl⟩ := h
  have hrun := hes.inv (I := fun es u => s.outstanding + sends es.reduceOption < u32 →
    Sound u ∧ Inv u ∧ u.outstanding ≤ s.outstanding + sends es.reduceOption) (fun _ => ⟨hs, hi, Nat.le_add_right _ _⟩) ?_
  · exact (hrun hroom).2.1
  · intro es u e v ih he hv
    rw [List.reduceOption_append, sends, List.countP_append] at hv ⊢
    obtain ⟨hsu, hiu, hle⟩ := ih (by unfold sends; omega)
    unfold sends at hle
    have hone : ∀ tag, e = some (tag, .commandSent) →
        List.countP (fun e => decide (e.2 = Move.commandSent)) [e].reduceOption = 1 := fun tag h => by rw [h]; rfl
    refine ⟨he.sound hsu, he.inv hsu hiu fun tag h => ?_, ?_⟩
    · have := hone tag h
      omega
    · have hsmall := hiu.small
      have hlive : u.outstanding = live u := hiu.holds
      rcases he.counts with ⟨-, ho, -⟩ | ⟨tag, h, -, ho, -⟩ | ⟨tag, hl, ho, -⟩
      · omega
      · have := hone tag h
        rw [wrappingSucc_of_lt (by omega)] at ho
        omega
      · rw [wrappingPred_of_pos (by omega)] at ho
        omega

/-! ## Runs -/

/-- The counter has room for the command that a `take_command` would send. -/
def HasRoom : WriteCall → BiuBusWrites → Prop
  | .takeCommand _, s => s.commands.isEmpty = true ∨ s.outstanding + 1 < u32
  | _, _ => True

theorem room_observed {c : WriteCall} (hi : Inv s) (hc : HasRoom c s) : s.outstanding + sends (observed c s) < u32 := by
  have hsmall := hi.small
  cases c with
  | addCachePort => exact hsmall
  | sendCacheCommand => exact hsmall
  | admitInputs => dsimp only [observed, admittedBy]; split <;> exact hsmall
  | admitCommands => dsimp only [observed, admittedBy]; split <;> exact hsmall
  | takeCommand tick =>
    dsimp only [observed]
    rcases takeCommand_cases tick s with he | ⟨command, commands, hcmd, he⟩
    · rw [he]
      exact hsmall
    · rw [he]
      exact hc.resolve_left (by simp [hcmd])
  | pushData => dsimp only [observed, queuedBy]; split <;> exact hsmall
  | takeData => dsimp only [observed, sentBy]; split <;> exact hsmall
  | advanceCacheData tick mteReady =>
    have hnone : sends (observed (.advanceCacheData tick mteReady) s) = 0 := by
      dsimp only [sends, observed]
      rw [List.countP_map, List.countP_eq_zero]
      simp
    omega
  | receive _ kind => dsimp only [observed, receivedBy]; split <;> cases kind <;> exact hsmall
  | advance => exact hsmall
  | takeReturn _ kind => dsimp only [observed]; split <;> cases kind <;> exact hsmall
  | takeCacheReturn _ _ kind => dsimp only [observed, deliveredBy]; split <;> cases kind <;> exact hsmall

theorem inv_exec {c : WriteCall} (hs : Sound s) (h : Inv s) (hc : HasRoom c s) (he : exec c s = some s') : Inv s' :=
  (shows_exec hs he).inv hs h (room_observed h hc)

end AscendEmulator.C220.Memory.BiuBusWrites
