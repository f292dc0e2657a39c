/-
  AscendEmulator.C220.Memory.BiuLimit — how many transactions of a bus route hold a credit
  (see `AscendEmulator.C220.Memory.BiuReadCredit` and
  `AscendEmulator.C220.Memory.BiuWriteCredit`).

  Admission compares `outstanding` with the limit, but reserves no credit: `outstanding` goes
  up when the command is taken. So the commands that wait to be taken while another is
  admitted come on top of the limit. What every step keeps is a bound on `outstanding` and
  the waiting commands together (`Within`).
-/

import AscendEmulator.C220.Memory.BiuReadCredit
import AscendEmulator.C220.Memory.BiuWriteCredit

namespace AscendEmulator.C220.Memory

open Lib

/-! ## Reads -/

namespace BiuBusReads

open BiuRead

variable {s s' m : BiuBusReads} {tag : MemoryReadId} {beat : MemoryReadBeat}

/-- Nothing is admitted or taken; credits may be released. -/
structure Quiet (s s' : BiuBusReads) : Prop where
  commands : s'.commands = s.commands
  limit : s'.limit = s.limit
  credits : ∃ tags : List MemoryReadId, s'.credits = s.credits ++ tags.map fun tag => (.released, tag)

theorem Quiet.same (hc : s'.commands = s.commands) (hl : s'.limit = s.limit) (hr : s'.credits = s.credits) :
    Quiet s s' := ⟨hc, hl, [], by rw [hr, List.map_nil, List.append_nil]⟩

theorem Quiet.refl (s : BiuBusReads) : Quiet s s := .same rfl rfl rfl

theorem Quiet.trans (h : Quiet s m) (h' : Quiet m s') : Quiet s s' := by
  obtain ⟨l, hl⟩ := h.credits
  obtain ⟨r, hr⟩ := h'.credits
  exact ⟨h'.commands.trans h.commands, h'.limit.trans h.limit, l ++ r, by rw [hr, hl, List.map_append, List.append_assoc]⟩

theorem quiet_release (s : BiuBusReads) (tag : MemoryReadId) : Quiet s (s.release tag) := ⟨rfl, rfl, [tag], rfl⟩

/-- `outstanding` and the waiting commands stay below `bound`. -/
structure Within (limit bound : Nat) (s : BiuBusReads) : Prop where
  limit : s.limit = limit
  sum : s.outstanding + s.commands.length ≤ bound

theorem Quiet.within {limit bound : Nat} (h : Quiet s s') (hi : Inv s) (hi' : Inv s') (hw : Within limit bound s) :
    Within limit bound s' := by
  refine ⟨h.limit.trans hw.limit, ?_⟩
  have h₁ := hi.ledger
  have h₂ := hi'.ledger
  obtain ⟨tags, ht⟩ := h.credits
  have hsum := hw.sum
  simp only [tallyAll, ht, List.countP_append, List.countP_map, Function.comp_def, decide_true, reduceCtorEq,
    decide_false, List.countP_false, List.countP_true, Function.const_apply] at h₁ h₂
  rw [h.commands]
  omega

theorem quiet_push {tick : Nat} {request : MemoryReadCommand} {r : Except BiuBusReadError Unit}
    (h : push tick request s = some (r, s')) : Quiet s s' := by
  unfold push at h
  split at h
  · cases h; exact .refl s
  · split at h
    · cases h; exact .refl s
    · split at h
      · cases h; exact .same rfl rfl rfl
      · cases h

theorem quiet_addCachePort {kind : CacheKind} {config : CacheConfig} : Quiet s (addCachePort kind config s).2 := by
  unfold addCachePort
  dsimp only
  split
  · exact .refl s
  · split
    · exact .same rfl rfl rfl
    · exact .refl s

theorem quiet_sendCacheCommand {tick : Nat} {command : MemoryReadCommand} :
    Quiet s (sendCacheCommand tick command s).2 := by
  unfold sendCacheCommand
  repeat' split
  all_goals exact .same rfl rfl rfl

theorem quiet_acceptHead {port : Fin 2} {readyTick : Nat} {head : Option MemoryReadBeat} {accepted : Bool}
    (h : s.acceptHead port readyTick head accepted = some s') : Quiet s s' := by
  unfold acceptHead at h
  split at h
  · obtain ⟨tr, -, he⟩ := Option.bind_eq_some_iff.mp h
    cases he
    exact .same rfl rfl rfl
  · cases h
  · cases h; exact .refl s

theorem quiet_receive {tick : Nat} {heads : Fin 2 → Option MemoryReadBeat} {r : Except BiuBusReadError (Fin 2 → Bool)}
    (h : receive tick heads s = some (r, s')) : Quiet s s' := by
  unfold receive at h
  split at h
  · cases h; exact .refl s
  · dsimp only at h
    split at h
    · cases h; exact .refl s
    · split at h
      · cases h; exact .refl s
      · obtain ⟨m₀, h₀, h⟩ := Option.bind_eq_some_iff.mp h
        obtain ⟨m₁, h₁, h⟩ := Option.bind_eq_some_iff.mp h
        cases h
        exact (quiet_acceptHead h₀).trans (quiet_acceptHead h₁)

theorem quiet_forwardMteReturn {port : Fin 2} {tick readyTick : Nat} :
    Quiet s (s.forwardMteReturn port tick readyTick) := by
  unfold forwardMteReturn
  split
  · split
    · exact .refl s
    · dsimp only
      split
      · refine Quiet.trans ?_ (quiet_release _ _)
        exact .same rfl rfl rfl
      · exact .same rfl rfl rfl
  · exact .refl s

theorem quiet_forwardCacheReturn {busPort : Fin 2} {tick : Nat} : Quiet s (forwardCacheReturn busPort tick s).2 := by
  unfold forwardCacheReturn
  split
  · exact .refl s
  · split
    · exact .refl s
    · split
      · exact .refl s
      · split
        · exact .refl s
        · split
          · exact .refl s
          · refine Quiet.trans ?_ (quiet_release _ _)
            exact .same rfl rfl rfl

theorem quiet_advancePort {port : Fin 2} {tick readyTick : Nat} : Quiet s (advancePort port tick readyTick s).2 := by
  unfold advancePort
  split
  · exact quiet_forwardCacheReturn
  · exact quiet_forwardMteReturn

theorem quiet_advanceReturns {tick : Nat} : Quiet s (advanceReturns tick s).2 := by
  unfold advanceReturns
  split
  · exact .refl s
  · rename_i readyTick _
    split
    · exact .refl s
    · have h₀ : Quiet s (advancePort 0 tick readyTick { s with lastReturn := some tick }).2 := by
        refine Quiet.trans ?_ quiet_advancePort
        exact .same rfl rfl rfl
      unfold Call.bind
      rcases hr : advancePort 0 tick readyTick { s with lastReturn := some tick } with ⟨r, m⟩
      rw [hr] at h₀
      cases r with
      | error e => exact h₀
      | ok u => exact h₀.trans quiet_advancePort

theorem quiet_deliverBeat (h : s.deliverBeat beat = some s') : Quiet s s' := by
  obtain ⟨tr, -, h⟩ := Option.bind_eq_some_iff.mp h
  split at h
  · cases h; exact .same rfl rfl rfl
  · cases h; exact .same rfl rfl rfl

theorem quiet_consumePort {port : Fin 2} {accepted : Bool} (h : s.consumePort port accepted = some s') : Quiet s s' := by
  unfold consumePort at h
  split at h
  · split at h
    · cases h
    · refine Quiet.trans ?_ (quiet_deliverBeat h)
      exact .same rfl rfl rfl
  · cases h; exact .refl s

theorem quiet_takeCacheReturn {tick : Nat} {kind : CacheKind} {index : Nat} {r : Option MemoryReadBeat}
    (h : takeCacheReturn tick kind index s = some (r, s')) : Quiet s s' := by
  unfold takeCacheReturn at h
  split at h
  · cases h; exact .refl s
  · split at h
    · cases h; exact .refl s
    · obtain ⟨u, hu, he⟩ := Option.map_eq_some_iff.mp h
      cases he
      refine Quiet.trans ?_ (quiet_deliverBeat hu)
      exact .same rfl rfl rfl

/-- At most `backlog` commands wait when one is admitted; a cache asks for one beat at a time. -/
def Backlog (backlog : Nat) : ReadCall → BiuBusReads → Prop
  | .advanceInput _, s => s.commands.length ≤ backlog
  | .sendCacheCommand _ command, _ => command.bytes ≤ 128
  | _, _ => True

instance (backlog : Nat) : ∀ c s, Decidable (Backlog backlog c s)
  | .advanceInput _, s => inferInstanceAs (Decidable (s.commands.length ≤ backlog))
  | .sendCacheCommand _ command, _ => inferInstanceAs (Decidable (command.bytes ≤ 128))
  | .addCachePort _ _, _ | .push _ _, _ | .takeCommand _, _ | .receive _ _, _ | .advanceReturns _, _
  | .consume _, _ | .takeCacheReturn _ _ _, _ => .isTrue trivial

theorem within_advanceInput {limit backlog tick : Nat} (hw : Within limit (limit + backlog) s)
    (hb : s.commands.length ≤ backlog) : Within limit (limit + backlog) (advanceInput tick s).2 := by
  rcases advanceInput_cases tick s with he | ⟨command, m, readyTick, hroom, hm, he⟩
  · rw [he]; exact hw
  · obtain ⟨-, -, ho, -, hc, hl⟩ := hm.same
    have hlim := hw.limit
    rw [he]
    refine ⟨hl.trans hlim, ?_⟩
    simp only [ho, hc, List.length_append, List.length_singleton]
    omega

theorem within_takeCommand {limit bound tick : Nat} {r : Option MemoryReadCommand} (hw : Within limit bound s)
    (hb : bound < u32) (he : takeCommand tick s = some (r, s')) : Within limit bound s' := by
  rcases takeCommand_cases he with rfl | ⟨command, commands, tr, hcmd, -, rfl⟩
  · exact hw
  · have hsum := hw.sum
    rw [hcmd, List.length_cons] at hsum
    refine ⟨hw.limit, ?_⟩
    show wrappingSucc u32 s.outstanding + commands.length ≤ bound
    rw [wrappingSucc_of_lt (by omega)]
    omega

theorem oneBeat_of_backlog {limit backlog : Nat} {c : ReadCall} (hb : limit + backlog < u32)
    (hw : Within limit (limit + backlog) s) (hc : Backlog backlog c s) : OneBeat c s := by
  cases c with
  | sendCacheCommand tick command => exact hc
  | takeCommand tick =>
    show s.commands.isEmpty = true ∨ s.outstanding + 1 < u32
    cases hcmd : s.commands with
    | nil => exact .inl rfl
    | cons command commands =>
      have hsum := hw.sum
      rw [hcmd, List.length_cons] at hsum
      exact .inr (by omega)
  | addCachePort | push | advanceInput | receive | advanceReturns | consume | takeCacheReturn => trivial

theorem within_exec {limit backlog : Nat} {c : ReadCall} (hb : limit + backlog < u32) (h : Inv s) (h' : Inv s')
    (hw : Within limit (limit + backlog) s) (hc : Backlog backlog c s) (he : exec c s = some s') :
    Within limit (limit + backlog) s' := by
  cases c with
  | advanceInput tick => cases he; exact within_advanceInput hw hc
  | takeCommand tick =>
    obtain ⟨⟨r, u⟩, hu, rfl⟩ := Option.map_eq_some_iff.mp he
    exact within_takeCommand hw hb hu
  | addCachePort kind config => cases he; exact quiet_addCachePort.within h h' hw
  | push tick request =>
    obtain ⟨⟨r, u⟩, hu, rfl⟩ := Option.map_eq_some_iff.mp he
    exact (quiet_push hu).within h h' hw
  | sendCacheCommand tick command => cases he; exact quiet_sendCacheCommand.within h h' hw
  | receive tick heads =>
    obtain ⟨⟨r, u⟩, hu, rfl⟩ := Option.map_eq_some_iff.mp he
    exact (quiet_receive hu).within h h' hw
  | advanceReturns tick => cases he; exact quiet_advanceReturns.within h h' hw
  | consume accepted =>
    obtain ⟨u, hu, he⟩ := Option.bind_eq_some_iff.mp he
    exact ((quiet_consumePort hu).trans (quiet_consumePort he)).within h h' hw
  | takeCacheReturn tick kind port =>
    obtain ⟨⟨r, u⟩, hu, rfl⟩ := Option.map_eq_some_iff.mp he
    exact (quiet_takeCacheReturn hu).within h h' hw

theorem within_run {limit backlog : Nat} {t : List ReadCall} (hb : limit + backlog < u32)
    (hr : Run (stepWhen (Backlog backlog) exec) (new limit) t s) : Inv s ∧ Within limit (limit + backlog) s :=
  hr.keeps (I := fun s => Inv s ∧ Within limit (limit + backlog) s) ⟨inv_new limit, rfl, Nat.zero_le _⟩
    fun _ _ _ h hs =>
      have h' := inv_exec h.1 (oneBeat_of_backlog hb h.2 hs.1) hs.2
      ⟨h', within_exec hb h.1 h' h.2 hs.1 hs.2⟩

end BiuBusReads

/-! ## Writes -/

namespace BiuBusWrites

open BiuWrite

variable {s s' m : BiuBusWrites} {tag : MemoryWriteId}

/-- Nothing is admitted or taken; credits may be released. -/
structure Quiet (s s' : BiuBusWrites) : Prop where
  commands : s'.commands = s.commands
  limit : s'.limit = s.limit
  credits : ∃ tags : List MemoryWriteId, s'.credits = s.credits ++ tags.map fun tag => (.released, tag)

theorem Quiet.same (hc : s'.commands = s.commands) (hl : s'.limit = s.limit) (hr : s'.credits = s.credits) :
    Quiet s s' := ⟨hc, hl, [], by rw [hr, List.map_nil, List.append_nil]⟩

theorem Quiet.refl (s : BiuBusWrites) : Quiet s s := .same rfl rfl rfl

theorem Quiet.trans (h : Quiet s m) (h' : Quiet m s') : Quiet s s' := by
  obtain ⟨l, hl⟩ := h.credits
  obtain ⟨r, hr⟩ := h'.credits
  exact ⟨h'.commands.trans h.commands, h'.limit.trans h.limit, l ++ r, by rw [hr, hl, List.map_append, List.append_assoc]⟩

theorem quiet_release (s : BiuBusWrites) (index : Fin 2) (tag : MemoryWriteId) : Quiet s (s.release index tag) := by
  unfold release
  split
  · exact ⟨rfl, rfl, [tag], rfl⟩
  · exact .refl s

/-- `outstanding` and the waiting commands stay below `bound`. -/
structure Within (limit bound : Nat) (s : BiuBusWrites) : Prop where
  limit : s.limit = limit
  sum : s.outstanding + s.commands.length ≤ bound

theorem Quiet.within {limit bound : Nat} (h : Quiet s s') (hi : Inv s) (hi' : Inv s') (hw : Within limit bound s) :
    Within limit bound s' := by
  refine ⟨h.limit.trans hw.limit, ?_⟩
  have h₁ := hi.ledger
  have h₂ := hi'.ledger
  obtain ⟨tags, ht⟩ := h.credits
  have hsum := hw.sum
  simp only [tallyAll, ht, List.countP_append, List.countP_map, Function.comp_def, decide_true, reduceCtorEq,
    decide_false, List.countP_false, List.countP_true, Function.const_apply] at h₁ h₂
  rw [h.commands]
  omega

theorem quiet_addCachePort {capacities : Fin 2 → Nat} : Quiet s (addCachePort capacities s).2 := by
  unfold addCachePort
  split
  · exact .refl s
  · split
    · exact .same rfl rfl rfl
    · exact .refl s

theorem quiet_sendCacheCommand {tick : Nat} {command : MemoryWriteCommand} :
    Quiet s (sendCacheCommand tick command s).2 := by
  unfold sendCacheCommand
  repeat' split
  all_goals exact .same rfl rfl rfl

theorem quiet_pushData {tick : Nat} {data : MemoryWriteTransfer} : Quiet s (pushData tick data s).2 := by
  unfold pushData
  split
  · exact .refl s
  · split
    · exact .refl s
    · exact .same rfl rfl rfl

theorem quiet_takeData {tick : Nat} : Quiet s (takeData tick s).2 := by
  unfold takeData
  split
  · exact .refl s
  · split
    · exact .refl s
    · exact .same rfl rfl rfl

theorem quiet_queueCacheData {readyTick : Nat} (ports : Nat) : ∀ {index : Nat} {s : BiuBusWrites},
    Quiet s (queueCacheData readyTick index ports s) := by
  induction ports with
  | zero => exact .refl _
  | succ ports ih =>
    intro index s
    unfold queueCacheData
    split
    · exact .refl s
    · split
      · exact ih
      · refine Quiet.trans ?_ ih
        exact .same rfl rfl rfl

theorem quiet_advanceCacheData {tick : Nat} {mteReady : Bool} : Quiet s (advanceCacheData tick mteReady s).2 := by
  unfold advanceCacheData
  dsimp only
  split
  · exact .refl s
  · split
    · exact .refl s
    · refine Quiet.trans ?_ (quiet_queueCacheData _)
      exact .same rfl rfl rfl

theorem quiet_receive {tick : Nat} {kind : ReturnKind} : Quiet s (receive tick kind tag s).2 := by
  unfold receive
  split
  · exact .refl s
  · split
    · exact .refl s
    · split
      · exact .refl s
      · exact .same rfl rfl rfl

theorem quiet_forward {index : Fin 2} {readyTick : Nat} {response : MemoryWriteTransfer} :
    Quiet s (forward index readyTick response s).2 := by
  unfold forward
  split
  · split
    · refine Quiet.trans ?_ (quiet_release _ _ _)
      exact .same rfl rfl rfl
    · exact .refl s
  · split
    · exact .refl s
    · split
      · refine Quiet.trans ?_ (quiet_release _ _ _)
        exact .same rfl rfl rfl
      · exact .refl s

theorem quiet_advanceReturn {index : Fin 2} {tick readyTick : Nat} : Quiet s (advanceReturn index tick readyTick s).2 := by
  unfold advanceReturn
  split
  · exact .refl s
  · dsimp only
    split
    · exact .same rfl rfl rfl
    · refine Quiet.trans ?_ quiet_forward
      exact .same rfl rfl rfl

theorem quiet_advance {tick : Nat} : Quiet s (advance tick s).2 := by
  unfold advance
  split
  · exact .refl s
  · rename_i readyTick _
    have h₀ : Quiet s (advanceReturn 0 tick readyTick s).2 := quiet_advanceReturn
    unfold Call.bind
    rcases hr : advanceReturn 0 tick readyTick s with ⟨r, m⟩
    rw [hr] at h₀
    cases r with
    | error e => exact h₀
    | ok u => exact h₀.trans quiet_advanceReturn

theorem quiet_delivered (s : BiuBusWrites) (kind : ReturnKind) (tag : MemoryWriteId) : Quiet s (s.delivered kind tag) := by
  cases kind <;> exact .same rfl rfl rfl

theorem quiet_takeReturn {tick : Nat} {kind : ReturnKind} {r : Option Nat}
    (h : takeReturn tick kind s = some (r, s')) : Quiet s s' := by
  unfold takeReturn at h
  split at h
  · cases h; exact .refl s
  · split at h
    · cases h
      refine Quiet.trans ?_ (quiet_delivered _ _ _)
      exact .same rfl rfl rfl
    · cases h

theorem quiet_takeCacheReturn {tick index : Nat} {kind : ReturnKind} : Quiet s (takeCacheReturn tick index kind s).2 := by
  unfold takeCacheReturn
  split
  · exact .refl s
  · split
    · exact .refl s
    · refine Quiet.trans ?_ (quiet_delivered _ _ _)
      exact .same rfl rfl rfl

/-- At most `backlog` commands wait when one is admitted. -/
def Backlog (backlog : Nat) : WriteCall → BiuBusWrites → Prop
  | .admitInputs _ _, s | .admitCommands _ _ _, s => s.commands.length ≤ backlog
  | _, _ => True

instance (backlog : Nat) : ∀ c s, Decidable (Backlog backlog c s)
  | .admitInputs _ _, s | .admitCommands _ _ _, s => inferInstanceAs (Decidable (s.commands.length ≤ backlog))
  | .addCachePort _, _ | .sendCacheCommand _ _, _ | .takeCommand _, _ | .pushData _ _, _ | .takeData _, _
  | .advanceCacheData _ _, _ | .receive _ _ _, _ | .advance _, _ | .takeReturn _ _, _
  | .takeCacheReturn _ _ _, _ => .isTrue trivial

theorem within_pushCommand {limit backlog tick : Nat} {command : MemoryWriteCommand} {r : Except BiuBusWriteError Unit}
    (hw : Within limit (limit + backlog) s) (hb : s.commands.length ≤ backlog) (hroom : s.outstanding < s.limit)
    (he : pushCommand tick command s = (r, s')) : Within limit (limit + backlog) s' := by
  have hlim := hw.limit
  unfold pushCommand at he
  split at he
  · cases he; exact hw
  · split at he
    · cases he; exact hw
    · cases he
      refine ⟨hlim, ?_⟩
      rw [List.length_append, List.length_singleton]
      show s.outstanding + _ ≤ _
      omega

theorem within_admitCommands {limit backlog tick : Nat} {caches : List (Option MemoryWriteCommand)}
    {mte : Option MemoryWriteCommand} (hw : Within limit (limit + backlog) s) (hb : s.commands.length ≤ backlog) :
    Within limit (limit + backlog) (admitCommands tick caches mte s).2 := by
  rcases admitCommands_cases tick caches mte s with ⟨r, last, he, -⟩ | ⟨command, m, nextCache, last, hroom, hp, he⟩
  · rw [he]
    exact ⟨hw.limit, hw.sum⟩
  · have hm := within_pushCommand hw hb hroom hp
    rw [he]
    exact ⟨hm.limit, hm.sum⟩

theorem within_admitInputs {limit backlog tick : Nat} {mte : Option MemoryWriteCommand}
    (hw : Within limit (limit + backlog) s) (hb : s.commands.length ≤ backlog) :
    Within limit (limit + backlog) (admitInputs tick mte s).2 := by
  obtain ⟨caches, -, he | ⟨index, port, -, he⟩⟩ := admitInputs_cases tick mte s
  · rw [he]
    exact within_admitCommands hw hb
  · have hm : Within limit (limit + backlog) (admitCommands tick caches mte s).2 := within_admitCommands hw hb
    rw [he]
    exact ⟨hm.limit, hm.sum⟩

theorem within_takeCommand {limit bound tick : Nat} (hw : Within limit bound s) (hb : bound < u32) :
    Within limit bound (takeCommand tick s).2 := by
  rcases takeCommand_cases tick s with he | ⟨command, commands, hcmd, he⟩
  · rw [he]; exact hw
  · have hsum := hw.sum
    rw [hcmd, List.length_cons] at hsum
    rw [he]
    refine ⟨hw.limit, ?_⟩
    show wrappingSucc u32 s.outstanding + commands.length ≤ bound
    rw [wrappingSucc_of_lt (by omega)]
    omega

theorem hasRoom_of_within {limit bound : Nat} {c : WriteCall} (hb : bound < u32) (hw : Within limit bound s) :
    HasRoom c s := by
  cases c with
  | takeCommand tick =>
    show s.commands.isEmpty = true ∨ s.outstanding + 1 < u32
    cases hcmd : s.commands with
    | nil => exact .inl rfl
    | cons command commands =>
      have hsum := hw.sum
      rw [hcmd, List.length_cons] at hsum
      exact .inr (by omega)
  | addCachePort | sendCacheCommand | admitInputs | admitCommands | pushData | takeData | advanceCacheData | receive
  | advance | takeReturn | takeCacheReturn => trivial

theorem within_exec {limit backlog : Nat} {c : WriteCall} (hb : limit + backlog < u32) (h : Inv s) (h' : Inv s')
    (hw : Within limit (limit + backlog) s) (hc : Backlog backlog c s) (he : exec c s = some s') :
    Within limit (limit + backlog) s' := by
  cases c with
  | admitInputs tick mte => cases he; exact within_admitInputs hw hc
  | admitCommands tick caches mte => cases he; exact within_admitCommands hw hc
  | takeCommand tick => cases he; exact within_takeCommand hw hb
  | addCachePort capacities => cases he; exact quiet_addCachePort.within h h' hw
  | sendCacheCommand tick command => cases he; exact quiet_sendCacheCommand.within h h' hw
  | pushData tick data => cases he; exact quiet_pushData.within h h' hw
  | takeData tick => cases he; exact quiet_takeData.within h h' hw
  | advanceCacheData tick mteReady => cases he; exact quiet_advanceCacheData.within h h' hw
  | receive tick kind tag => cases he; exact quiet_receive.within h h' hw
  | advance tick => cases he; exact quiet_advance.within h h' hw
  | takeReturn tick kind =>
    obtain ⟨⟨r, u⟩, hu, rfl⟩ := Option.map_eq_some_iff.mp he
    exact (quiet_takeReturn hu).within h h' hw
  | takeCacheReturn tick port kind => cases he; exact quiet_takeCacheReturn.within h h' hw

theorem within_run {limit backlog : Nat} {t : List WriteCall} (hb : limit + backlog < u32)
    (hr : Run (stepWhen (Backlog backlog) exec) (new limit) t s) : Inv s ∧ Within limit (limit + backlog) s :=
  have h := hr.keeps (I := fun s => Sound s ∧ Inv s ∧ Within limit (limit + backlog) s)
    ⟨sound_new limit, inv_new limit, rfl, Nat.zero_le _⟩ fun _ _ _ ⟨hs, hi, hw⟩ ⟨hc, he⟩ =>
      have hi' := inv_exec hs hi (hasRoom_of_within hb hw) he
      ⟨(shows_exec hs he).sound hs, hi', within_exec hb hi hi' hw hc he⟩
  h.2

end BiuBusWrites

/-! ## Both routes -/

/-- Two MTE reads, the memory taking no command before both are admitted. -/
def refusedReads : List BiuBusReads.ReadCall :=
  [.push 0 ⟨0, .mte 0, 0x1000, 128⟩, .push 0 ⟨0, .mte 1, 0x2000, 128⟩, .advanceInput 1, .advanceInput 2,
    .takeCommand 3, .takeCommand 4]

def refusedWrites : List BiuBusWrites.WriteCall :=
  [.admitCommands 1 [] (some ⟨0, .mte 0, 0x1000, 128⟩), .admitCommands 2 [] (some ⟨0, .mte 1, 0x2000, 128⟩),
    .takeCommand 3, .takeCommand 4]

theorem refusedReads_runs :
    (runWhen (BiuBusReads.Backlog 1) BiuBusReads.exec (.new 1) refusedReads).isSome := by rfl

theorem refusedWrites_runs :
    (runWhen (BiuBusWrites.Backlog 1) BiuBusWrites.exec (.new 1) refusedWrites).isSome := by rfl

theorem refusedReads_free : (runWhen (fun _ _ => True) BiuBusReads.exec (.new 1) refusedReads).isSome := by
  rfl

theorem refusedWrites_free : (runWhen (fun _ _ => True) BiuBusWrites.exec (.new 1) refusedWrites).isSome := by
  rfl

end AscendEmulator.C220.Memory
