/-
  AscendEmulator.Common.EventProofs — runs of the event dispatcher and the callbacks
  they make (see `AscendEmulator.Common.Event`).

  A run starts from a built topology and is recorded tick by tick: the notifications due,
  the ones taken, the subscribers reached and the callbacks returned (`History`). What is
  due at a tick is what was taken and then what is queued; what was reached and then what
  the delivery in progress still has to reach is the subscribers of the enabled ones taken
  (`Recorded`). One iteration of `next_callback` keeps this and does some of the tick's
  work, so the loop ends.

  Main results
    · callbacks_in_order: in every state a run reaches, the callbacks returned at a tick
      are the tick's notifications expanded in order, and time moves past drained ticks only
-/

import AscendEmulator.Common.Event

namespace AscendEmulator.Common

open Lib

variable {T : Type}

namespace EventDispatcher

variable {d d' d0 : EventDispatcher T}

/-! ## Topology and runs -/

/-- What `new`, `add_event`, `add_process` and `subscribe` build. -/
inductive Built : EventDispatcher T → Prop
  | new (tick : Nat) : Built (new tick)
  | addEvent {d : EventDispatcher T} : Built d → Built d.addEvent.2
  | addProcess {d : EventDispatcher T} (callback : T) (repeatInTick : Bool) :
      Built d → Built (d.addProcess callback repeatInTick).2
  | subscribe {d d' : EventDispatcher T} {event process : Nat} :
      Built d → d.subscribe event process = some d' → Built d'

inductive EventCall where
  | notifyAt (event tick : Nat)
  | notifyAfter (event delay : Nat)
  | cancel (event : Nat)
  | setProcessEnabled (process : Nat) (enabled : Bool)
  | setEventEnabled (event : Nat) (enabled : Bool)
  | advanceTo (tick : Nat)
  | nextCallback

inductive EventReply (T : Type) where
  | notified (accepted : Bool)
  | scheduled (result : Except EventError Unit)
  | cancelled (removed : Nat)
  | set
  | advanced (result : Except EventError Unit)
  | called (marks : List Mark) (callback : Option (Invocation T))

def exec : EventCall → EventDispatcher T → Option (EventReply T × EventDispatcher T)
  | .notifyAt event tick, d => (d.notifyAt event tick).map fun r => (.notified r.1, r.2)
  | .notifyAfter event delay, d => (d.notifyAfter event delay).map fun r => (.scheduled r.1, r.2)
  | .cancel event, d => some (.cancelled (d.cancel event).1, (d.cancel event).2)
  | .setProcessEnabled process enabled, d => (d.setProcessEnabled process enabled).map fun d => (.set, d)
  | .setEventEnabled event enabled, d => (d.setEventEnabled event enabled).map fun d => (.set, d)
  | .advanceTo tick, d => some (.advanced (d.advanceTo tick).1, (d.advanceTo tick).2)
  | .nextCallback, d => d.nextCallback.map fun r => (.called r.1 r.2.1, r.2.2)

end EventDispatcher

open EventDispatcher

/-! ## The history of a run -/

/-- `x` comes last in the list of `tick`. -/
def push {α : Type} (f : Nat → List α) (tick : Nat) (x : α) (t : Nat) : List α :=
  if t = tick then f t ++ [x] else f t

/-- Tick by tick: the notifications to take, less the cancelled ones; those taken, with
    whether the event was enabled; the subscribers reached, each with its event and whether
    the process was enabled; the callbacks returned. -/
structure History (T : Type) where
  due : Nat → List Nat
  taken : Nat → List (Nat × Bool)
  reached : Nat → List ((Nat × Nat) × Bool)
  called : Nat → List (Invocation T)

namespace History

def empty : History T := ⟨fun _ => [], fun _ => [], fun _ => [], fun _ => []⟩

def mark (h : History T) (tick : Nat) : Mark → History T
  | .taken event enabled => { h with taken := push h.taken tick (event, enabled) }
  | .reached event process enabled => { h with reached := push h.reached tick ((event, process), enabled) }

def marked (h : History T) (tick : Nat) (marks : List Mark) : History T :=
  marks.foldl (fun h m => h.mark tick m) h

def returned (h : History T) (tick : Nat) : Option (Invocation T) → History T
  | none => h
  | some call => { h with called := push h.called tick call }

def record (h : History T) (d : EventDispatcher T) : EventCall × EventReply T → History T
  | (.notifyAt event tick, .notified true) => { h with due := push h.due tick event }
  | (.notifyAfter event delay, .scheduled (.ok ())) => { h with due := push h.due (d.tick + delay) event }
  | (.cancel event, _) =>
    -- what was taken stays
    { h with due := fun tick =>
        let n := (h.taken tick).length
        (h.due tick).take n ++ ((h.due tick).drop n).filter (· ≠ event) }
  | (.nextCallback, .called marks callback) => (h.marked d.tick marks).returned d.tick callback
  | _ => h

end History

structure Tracked (T : Type) where
  dispatcher : EventDispatcher T
  history : History T

def track (s : Tracked T) (l : EventCall × EventReply T) (u : Tracked T) : Prop :=
  exec l.1 s.dispatcher = some (l.2, u.dispatcher) ∧ u.history = s.history.record s.dispatcher l

/-! ## The callbacks of a tick -/

/-- The subscribers of the notifications taken while enabled, each with its event. -/
def expand (subscribers : Nat → List Nat) (taken : List (Nat × Bool)) : List (Nat × Nat) :=
  taken.flatMap fun n => if n.2 then (subscribers n.1).map (n.1, ·) else []

/-- The callbacks made of the subscribers reached: those of enabled processes, but only the
    first one of a process that does not repeat. -/
def dispatch (repeats : Nat → Bool) (reached : List ((Nat × Nat) × Bool)) : List (Nat × Nat) :=
  reached.foldl (fun called r =>
    if r.2 ∧ (repeats r.1.2 ∨ r.1.2 ∉ called.map (·.2)) then called ++ [r.1] else called) []

theorem dispatch_concat (repeats : Nat → Bool) (reached : List ((Nat × Nat) × Bool)) (r : (Nat × Nat) × Bool) :
    dispatch repeats (reached ++ [r]) =
      if r.2 ∧ (repeats r.1.2 ∨ r.1.2 ∉ (dispatch repeats reached).map (·.2)) then dispatch repeats reached ++ [r.1]
      else dispatch repeats reached := by
  rw [dispatch, List.foldl_append]
  rfl

/-- A process that does not repeat is called at most once. -/
theorem dispatch_once {repeats : Nat → Bool} {process : Nat} (hp : repeats process = false)
    (reached : List ((Nat × Nat) × Bool)) : ((dispatch repeats reached).map (·.2)).count process ≤ 1 := by
  induction reached using List.reverseRecOn with
  | nil => simp [dispatch]
  | append_singleton l r ih =>
    rw [dispatch_concat]
    split
    · rename_i h
      rw [List.map_append, List.count_append]
      by_cases hr : r.1.2 = process
      · have hn : process ∉ (dispatch repeats l).map (·.2) := by
          rcases h.2 with h | h
          · rw [hr, hp] at h; cases h
          · rwa [hr] at h
        simp [List.count_eq_zero.mpr hn, hr]
      · simpa [hr] using ih
    · exact ih

/-! ## One iteration of the loop -/

namespace EventDispatcher

variable {d d' d0 : EventDispatcher T}

/-- What a process keeps from when it was added. -/
def traits (p : Process T) : Bool × T := (p.state.repeatInTick, p.callback)

def repeats (d : EventDispatcher T) (process : Nat) : Bool :=
  (d.processes[process]?.map (·.state.repeatInTick)).getD false

/-- The subscribers the delivery in progress has still to reach. -/
def remaining (d : EventDispatcher T) : List (Nat × Nat) :=
  d.delivery.elim [] fun v => ((d.subscribers v.event).drop v.nextSubscriber).map (v.event, ·)

/-- `d` has the topology `d0` was built with, its handles are known, and no notification
    of the past is queued. -/
structure Wf (d0 d : EventDispatcher T) : Prop where
  events : ∀ i : Nat, d.events[i]?.map (·.subscribers) = d0.events[i]?.map (·.subscribers)
  processes : ∀ i : Nat, d.processes[i]?.map traits = d0.processes[i]?.map traits
  known : ∀ i, ∀ p ∈ d0.subscribers i, p < d0.processes.length
  queued : ∀ tick q, d.pending.get? tick = some q → q ≠ [] ∧ d.tick ≤ tick ∧ ∀ e ∈ q, e < d0.events.length
  delivering : ∀ v, d.delivery = some v →
    v.subscriberCount = (d0.subscribers v.event).length ∧ v.nextSubscriber ≤ v.subscriberCount

theorem Wf.subscribers_eq (h : Wf d0 d) (i : Nat) : d.subscribers i = d0.subscribers i := by
  unfold subscribers
  rw [h.events i]

theorem Wf.event (h : Wf d0 d) {i : Nat} (hi : i < d0.events.length) :
    ∃ e, d.events[i]? = some e ∧ e.subscribers = d0.subscribers i := by
  have he := h.events i
  rw [List.getElem?_eq_getElem hi] at he
  obtain ⟨e, hd, hs⟩ := Option.map_eq_some_iff.mp he
  exact ⟨e, hd, by simp [subscribers, hs, List.getElem?_eq_getElem hi]⟩

theorem Wf.process (h : Wf d0 d) {i : Nat} (hi : i < d0.processes.length) :
    ∃ p, d.processes[i]? = some p ∧ p.state.repeatInTick = d0.repeats i ∧
      d0.processes[i]?.map (·.callback) = some p.callback := by
  have hp := h.processes i
  rw [List.getElem?_eq_getElem hi] at hp
  obtain ⟨p, hd, ht⟩ := Option.map_eq_some_iff.mp hp
  have h1 := congrArg Prod.fst ht
  have h2 := congrArg Prod.snd ht
  exact ⟨p, hd, by simpa [repeats, List.getElem?_eq_getElem hi, traits] using h1,
    by simpa [List.getElem?_eq_getElem hi, traits] using h2.symm⟩

/-- The queue of the tick without its first notification. -/
def popped (d : EventDispatcher T) (queue : List Nat) : OrdMap Nat (List Nat) :=
  if queue.isEmpty then d.pending.erase d.tick else d.pending.insert d.tick queue

theorem get?_popped (queue : List Nat) (tick : Nat) : (d.popped queue).get? tick =
    if tick = d.tick then (if queue.isEmpty then none else some queue) else d.pending.get? tick := by
  unfold popped
  split
  · rw [OrdMap.get?_erase]
  · rw [OrdMap.get?_insert]

/-- A call of `process` would be suppressed. -/
def suppressed (d : EventDispatcher T) (process : Process T) : Bool :=
  !process.state.enabled || (!process.state.repeatInTick && process.state.lastRun == some d.tick)

/-- The callback an iteration returns. -/
def Iteration.callback : Iteration T → Option (Invocation T)
  | .returned callback => callback
  | .continued => none

/-- What an iteration of the loop does. -/
inductive Iterated (d : EventDispatcher T) : List Mark → Iteration T → EventDispatcher T → Prop
  | drained : d.pending.get? d.tick = none → d.remaining = [] →
      Iterated d [] (.returned none) { d with delivery := none }
  | taken {id : Nat} {queue : List Nat} {event : Event} :
      d.pending.get? d.tick = some (id :: queue) → d.remaining = [] → d.events[id]? = some event →
      Iterated d [.taken id event.enabled] .continued
        { d with
          pending := d.popped queue
          events := if event.enabled then d.events.set id { event with triggeredAt := some d.tick } else d.events
          delivery := if event.enabled then some ⟨id, 0, event.subscribers.length⟩ else none }
  | passed {v : Delivery} {id : Nat} {process : Process T} :
      d.delivery = some v → v.nextSubscriber < v.subscriberCount →
      (d.subscribers v.event)[v.nextSubscriber]? = some id → d.processes[id]? = some process →
      d.suppressed process = true →
      Iterated d [.reached v.event id process.state.enabled] .continued
        { d with delivery := some { v with nextSubscriber := v.nextSubscriber + 1 } }
  | called {v : Delivery} {id : Nat} {process : Process T} :
      d.delivery = some v → v.nextSubscriber < v.subscriberCount →
      (d.subscribers v.event)[v.nextSubscriber]? = some id → d.processes[id]? = some process →
      d.suppressed process = false →
      Iterated d [.reached v.event id process.state.enabled]
        (.returned (some ⟨d.tick, v.event, id, process.callback⟩))
        { d with
          delivery := some { v with nextSubscriber := v.nextSubscriber + 1 }
          processes := d.processes.set id { process with state := { process.state with lastRun := some d.tick } } }

theorem take_spec (h : Wf d0 d) (hr : d.remaining = []) :
    ∃ marks it d', take { d with delivery := none } = some (marks, it, d') ∧ Iterated d marks it d' := by
  unfold take
  cases hq : d.pending.get? d.tick with
  | none => exact ⟨_, _, _, rfl, .drained hq hr⟩
  | some q =>
    obtain ⟨hne, -, hk⟩ := h.queued _ _ hq
    cases q with
    | nil => exact absurd rfl hne
    | cons id queue =>
      obtain ⟨event, he, -⟩ := h.event (hk id (List.mem_cons_self ..))
      refine ⟨_, _, _, ?_, .taken hq hr he⟩
      simp only [he, Option.bind_eq_bind, Option.bind_some, popped]
      split <;> simp_all

/-- With known handles an iteration does not panic. -/
theorem iterate_spec (h : Wf d0 d) : ∃ marks it d', d.iterate = some (marks, it, d') ∧ Iterated d marks it d' := by
  unfold iterate
  cases hd : d.delivery with
  | none =>
    have hn : { d with delivery := none } = d := by cases d; simp_all
    simpa only [hn] using take_spec h (by simp [remaining, hd])
  | some v =>
    obtain ⟨hc, hle⟩ := h.delivering v hd
    simp only
    split
    · rename_i hlt
      have hlen : v.nextSubscriber < (d0.subscribers v.event).length := by omega
      obtain ⟨id, hid⟩ : ∃ id, (d.subscribers v.event)[v.nextSubscriber]? = some id := by
        rw [h.subscribers_eq]
        exact ⟨_, List.getElem?_eq_getElem hlen⟩
      have hm : id ∈ d0.subscribers v.event := h.subscribers_eq v.event ▸ List.mem_of_getElem? hid
      obtain ⟨event, he⟩ : ∃ e, d.events[v.event]? = some e := by
        cases he : d.events[v.event]? with
        | none => simp [subscribers, he] at hid
        | some e => exact ⟨e, rfl⟩
      obtain ⟨process, hp, -⟩ := h.process (h.known _ _ hm)
      have hs : event.subscribers[v.nextSubscriber]? = some id := by
        simpa [subscribers, he] using hid
      cases hsup : d.suppressed process with
      | true =>
        refine ⟨_, _, _, ?_, .passed hd hlt hid hp hsup⟩
        simp only [reach, he, hs, hp, Option.bind_eq_bind, Option.bind_some]
        exact if_pos hsup
      | false =>
        refine ⟨_, _, _, ?_, .called hd hlt hid hp hsup⟩
        simp only [reach, he, hs, hp, Option.bind_eq_bind, Option.bind_some]
        exact if_neg (ne_true_of_eq_false hsup)
    · refine take_spec h ?_
      have : (d.subscribers v.event).length ≤ v.nextSubscriber := by
        rw [h.subscribers_eq]; omega
      simpa [remaining, hd] using this

theorem getElem?_set_map {α β : Type} (f : α → β) {l : List α} {i : Nat} {x y : α} (h : l[i]? = some y)
    (hf : f x = f y) (j : Nat) : (l.set i x)[j]?.map f = l[j]?.map f := by
  have hi : i < l.length := (List.getElem?_eq_some_iff.mp h).1
  rw [List.getElem?_set]
  by_cases hij : i = j
  · rw [if_pos hij]
    subst hij
    rw [h, if_pos hi]
    exact congrArg some hf
  · rw [if_neg hij]

/-- An iteration changes no event's enabled state or subscribers. -/
theorem Iterated.events {marks : List Mark} {it : Iteration T} (h : Iterated d marks it d') (i : Nat) :
    d'.events[i]?.map (fun e => (e.enabled, e.subscribers)) = d.events[i]?.map fun e => (e.enabled, e.subscribers) := by
  cases h with
  | taken hq hr he =>
    simp only
    split
    · refine getElem?_set_map (fun e => (e.enabled, e.subscribers)) he ?_ i
      rfl
    · rfl
  | _ => rfl

theorem Iterated.processes {marks : List Mark} {it : Iteration T} (h : Iterated d marks it d') (i : Nat) :
    d'.processes[i]?.map (fun p => (p.state.enabled, traits p)) =
      d.processes[i]?.map fun p => (p.state.enabled, traits p) := by
  cases h with
  | called hd hlt hid hp hs =>
    refine getElem?_set_map (fun p => (p.state.enabled, traits p)) hp ?_ i
    rfl
  | _ => rfl

theorem Iterated.tick_eq {marks : List Mark} {it : Iteration T} (h : Iterated d marks it d') : d'.tick = d.tick := by
  cases h <;> rfl

theorem queue_popped (queue : List Nat) (tick : Nat) :
    ((d.popped queue).get? tick).getD [] = if tick = d.tick then queue else d.queue tick := by
  rw [get?_popped, EventDispatcher.queue]
  split
  · split
    · rename_i h; simp [List.isEmpty_iff.mp h]
    · rfl
  · rfl

theorem Wf.iterated {marks : List Mark} {it : Iteration T} (h : Wf d0 d) (hi : Iterated d marks it d') : Wf d0 d' := by
  have hev : ∀ i : Nat, d'.events[i]?.map (·.subscribers) = d0.events[i]?.map (·.subscribers) := fun i => by
    rw [← h.events i]
    simpa [Function.comp_def] using congrArg (Option.map Prod.snd) (hi.events i)
  have hpr : ∀ i : Nat, d'.processes[i]?.map traits = d0.processes[i]?.map traits := fun i => by
    rw [← h.processes i]
    simpa [Function.comp_def] using congrArg (Option.map Prod.snd) (hi.processes i)
  refine ⟨hev, hpr, h.known, ?_, ?_⟩
  · intro tick q hq
    cases hi with
    | @taken id queue event hp hr he =>
      obtain ⟨-, hle, hk⟩ := h.queued _ _ hp
      simp only [get?_popped] at hq
      split at hq
      · rename_i ht
        split at hq
        · cases hq
        · rename_i hne
          cases hq
          exact ⟨by simpa using hne, by simp [ht], fun e he => hk e (List.mem_cons_of_mem _ he)⟩
      · exact h.queued _ _ hq
    | _ => exact h.queued _ _ hq
  · intro w hw
    cases hi with
    | drained => cases hw
    | @taken id queue event hp hr he =>
      obtain ⟨-, -, hk⟩ := h.queued _ _ hp
      obtain ⟨e, he', hs⟩ := h.event (hk id (List.mem_cons_self ..))
      simp only at hw
      split at hw
      · cases hw
        rw [he] at he'
        cases he'
        exact ⟨by rw [hs], Nat.zero_le _⟩
      · cases hw
    | passed hd hlt hid hp hs => cases hw; exact ⟨(h.delivering _ hd).1, hlt⟩
    | called hd hlt hid hp hs => cases hw; exact ⟨(h.delivering _ hd).1, hlt⟩

/-! ## The loop ends -/

/-- Each iteration that does not return does some of the tick's work. -/
theorem Iterated.work_lt {marks : List Mark} (h : Wf d0 d) (hi : Iterated d marks .continued d') :
    d'.work < d.work := by
  have hsub : ∀ i, d'.subscribers i = d.subscribers i := fun i => by
    rw [(h.iterated hi).subscribers_eq, h.subscribers_eq]
  cases hi with
  | @taken id queue event hq hr he =>
    have hn : d.queue d.tick = id :: queue := by simp [EventDispatcher.queue, hq]
    have hl : (d.subscribers id).length = event.subscribers.length := by simp [subscribers, he]
    have hp := queue_popped (d := d) queue d.tick
    simp only [if_true] at hp
    simp only [work, hn, List.map_cons, List.sum_cons, hl, hsub]
    simp only [EventDispatcher.queue, hp]
    split
    · simp only [Option.elim_some]; omega
    · simp only [Option.elim_none]; omega
  | passed hd hlt hid hp hs =>
    simp only [work, hd, Option.elim_some, hsub, EventDispatcher.queue]
    omega

theorem loop_some (h : Wf d0 d) {fuel : Nat} (hf : d.work < fuel) : ∃ r, loop fuel d = some r := by
  induction fuel generalizing d with
  | zero => omega
  | succ fuel ih =>
    obtain ⟨marks, it, d', hi, hs⟩ := iterate_spec h
    rw [loop, hi]
    cases it with
    | returned c => exact ⟨_, rfl⟩
    | continued =>
      have hw := hs.work_lt h
      obtain ⟨r, hr⟩ := ih (h.iterated hs) (by omega)
      exact ⟨(marks ++ r.1, r.2), by simp only [hr, Option.map_some]⟩

/-- More fuel changes nothing. -/
theorem loop_mono {fuel more : Nat} {r : List Mark × Option (Invocation T) × EventDispatcher T}
    (h : loop fuel d = some r) (hle : fuel ≤ more) : loop more d = some r := by
  induction fuel generalizing d more r with
  | zero => cases h
  | succ fuel ih =>
    obtain ⟨more, rfl⟩ : ∃ m, more = m + 1 := ⟨more - 1, by omega⟩
    rw [loop] at h ⊢
    split at h
    · cases h
    · exact h
    · obtain ⟨r', hr, rfl⟩ := Option.map_eq_some_iff.mp h
      have hm := ih hr (Nat.le_of_succ_le_succ hle)
      simp only [hm, Option.map_some]

end EventDispatcher

/-! ## The record of a run -/

@[simp] theorem push_self {α : Type} (f : Nat → List α) (tick : Nat) (x : α) : push f tick x tick = f tick ++ [x] := by
  simp [push]

theorem push_ne {α : Type} (f : Nat → List α) {tick t : Nat} (x : α) (h : t ≠ tick) : push f tick x t = f t := by
  simp [push, h]

theorem expand_concat (subscribers : Nat → List Nat) (taken : List (Nat × Bool)) (n : Nat × Bool) :
    expand subscribers (taken ++ [n]) =
      expand subscribers taken ++ (if n.2 then (subscribers n.1).map (n.1, ·) else []) := by
  simp [expand]

structure Recorded (d0 : EventDispatcher T) (s : Tracked T) : Prop where
  wf : Wf d0 s.dispatcher
  fifo : ∀ tick, s.history.due tick = (s.history.taken tick).map (·.1) ++ s.dispatcher.queue tick
  future : ∀ tick, s.dispatcher.tick < tick → s.history.taken tick = []
  inOrder : ∀ tick, (s.history.reached tick).map (·.1) ++
    (if tick = s.dispatcher.tick then s.dispatcher.remaining else []) = expand d0.subscribers (s.history.taken tick)
  dispatched : ∀ tick, (s.history.called tick).map (fun c => (c.event, c.process)) =
    dispatch d0.repeats (s.history.reached tick)
  lastRun : ∀ (i : Nat) p, s.dispatcher.processes[i]? = some p → ∀ tick, s.dispatcher.tick ≤ tick →
    (p.state.lastRun = some tick ↔ i ∈ (s.history.called tick).map (·.process))
  callbacks : ∀ tick, ∀ c ∈ s.history.called tick,
    c.tick = tick ∧ d0.processes[c.process]?.map (·.callback) = some c.callback

namespace Recorded

variable {d0 d' : EventDispatcher T} {s : Tracked T}

/-- The processes called at the tick, by the history or by the callbacks. -/
theorem called_processes (h : Recorded d0 s) (tick : Nat) :
    (s.history.called tick).map (·.process) = (dispatch d0.repeats (s.history.reached tick)).map (·.2) := by
  rw [← h.dispatched tick, List.map_map]
  rfl

/-- The subscriber reached is the first one remaining. -/
theorem remaining_reach {d : EventDispatcher T} {v : Delivery} {id : Nat} (hd : d.delivery = some v)
    (hid : (d.subscribers v.event)[v.nextSubscriber]? = some id) :
    d.remaining = (v.event, id) ::
      ((d.subscribers v.event).drop (v.nextSubscriber + 1)).map (v.event, ·) := by
  obtain ⟨hlt, rfl⟩ := List.getElem?_eq_some_iff.mp hid
  simp only [remaining, hd, Option.elim_some, List.drop_eq_getElem_cons hlt, List.map_cons]

/-- A subscriber passed over is one that `dispatch` passes over. -/
theorem suppressed_iff (h : Recorded d0 s) {id : Nat} {process : Process T}
    (hp : s.dispatcher.processes[id]? = some process) :
    s.dispatcher.suppressed process = false ↔ process.state.enabled = true ∧
      (d0.repeats id = true ∨ id ∉ (dispatch d0.repeats (s.history.reached s.dispatcher.tick)).map (·.2)) := by
  have hl := h.lastRun id process hp _ (Nat.le_refl _)
  have hr : process.state.repeatInTick = d0.repeats id := by
    have ht := h.wf.processes id
    rw [hp] at ht
    obtain ⟨q, hq, he⟩ := Option.map_eq_some_iff.mp ht.symm
    simpa [repeats, hq, traits] using (congrArg Prod.fst he).symm
  rw [← h.called_processes, ← hl, ← hr]
  cases he : process.state.enabled <;> cases hrep : process.state.repeatInTick <;> simp [suppressed, he, hrep]

/-- A delivery that reaches its next subscriber moves it from `remaining` to `reached`. -/
theorem inOrder_reach (h : Recorded d0 s) {v : Delivery} {id : Nat} (hd : s.dispatcher.delivery = some v)
    (hid : (s.dispatcher.subscribers v.event)[v.nextSubscriber]? = some id) (b : Bool) (tick : Nat) :
    (push s.history.reached s.dispatcher.tick ((v.event, id), b) tick).map (·.1) ++
      (if tick = s.dispatcher.tick then
        ((s.dispatcher.subscribers v.event).drop (v.nextSubscriber + 1)).map (v.event, ·) else []) =
      expand d0.subscribers (s.history.taken tick) := by
  rw [← h.inOrder tick]
  by_cases ht : tick = s.dispatcher.tick
  · subst ht
    rw [if_pos rfl, if_pos rfl, remaining_reach hd hid]
    simp
  · rw [if_neg ht, if_neg ht, push_ne _ _ ht]

theorem called_future (h : Recorded d0 s) {tick : Nat} (ht : s.dispatcher.tick < tick) :
    s.history.reached tick = [] ∧ s.history.called tick = [] := by
  have hr := h.inOrder tick
  rw [h.future tick ht, if_neg (Nat.ne_of_gt ht)] at hr
  have hr : s.history.reached tick = [] := by simpa [expand] using hr
  refine ⟨hr, ?_⟩
  simpa [hr, dispatch] using h.dispatched tick

/-- One iteration of the loop keeps the record. -/
theorem iterated (h : Recorded d0 s) {marks : List Mark} {it : Iteration T}
    (hi : Iterated s.dispatcher marks it d') :
    Recorded d0 ⟨d', (s.history.marked s.dispatcher.tick marks).returned s.dispatcher.tick it.callback⟩ := by
  have hw := h.wf.iterated hi
  cases hi with
  | drained hq hr =>
    refine ⟨hw, h.fifo, h.future, fun tick => ?_, h.dispatched, h.lastRun, h.callbacks⟩
    have := h.inOrder tick
    rwa [hr] at this
  | @taken id queue event hq hr he =>
    refine ⟨hw, fun tick => ?_, fun tick ht => ?_, fun tick => ?_, h.dispatched, h.lastRun, h.callbacks⟩
    · -- the head of the queue moves to `taken`
      have hf := h.fifo tick
      show s.history.due tick = (push s.history.taken s.dispatcher.tick (id, event.enabled) tick).map (·.1) ++
        ((s.dispatcher.popped queue).get? tick).getD []
      rw [queue_popped, hf]
      by_cases ht : tick = s.dispatcher.tick
      · subst ht
        have hn : s.dispatcher.queue s.dispatcher.tick = id :: queue := by simp [EventDispatcher.queue, hq]
        simp [hn]
      · rw [push_ne _ _ ht, if_neg ht]
    · show push s.history.taken s.dispatcher.tick (id, event.enabled) tick = []
      rw [push_ne _ _ (Nat.ne_of_gt ht)]
      exact h.future tick ht
    · -- the subscribers of an enabled event become the remaining ones
      have ho := h.inOrder tick
      show (s.history.reached tick).map (·.1) ++ (if tick = s.dispatcher.tick then _ else []) =
        expand d0.subscribers (push s.history.taken s.dispatcher.tick (id, event.enabled) tick)
      by_cases ht : tick = s.dispatcher.tick
      · subst ht
        rw [if_pos rfl, hr, List.append_nil] at ho
        have hs := hw.subscribers_eq id
        rw [push_self, expand_concat, if_pos rfl, ho, ← hs]
        congr 1
        cases hen : event.enabled <;> simp [remaining]
      · rw [if_neg ht] at ho ⊢
        rw [push_ne _ _ ht, ho]
  | @passed v id process hd hlt hid hp hs =>
    have hn : ¬(process.state.enabled = true ∧ _) := mt (h.suppressed_iff hp).mpr (by simp [hs])
    refine ⟨hw, h.fifo, h.future, fun tick => ?_, fun tick => ?_, h.lastRun, h.callbacks⟩
    · exact h.inOrder_reach hd hid _ tick
    · show _ = dispatch d0.repeats (push s.history.reached s.dispatcher.tick _ tick)
      by_cases ht : tick = s.dispatcher.tick
      · subst ht
        rw [push_self, dispatch_concat, if_neg hn]
        exact h.dispatched _
      · rw [push_ne _ _ ht]
        exact h.dispatched tick
  | @called v id process hd hlt hid hp hs =>
    have hn := (h.suppressed_iff hp).mp hs
    refine ⟨hw, h.fifo, h.future, fun tick => ?_, fun tick => ?_, fun i p hi tick ht => ?_, fun tick c hc => ?_⟩
    · exact h.inOrder_reach hd hid _ tick
    · show (push s.history.called s.dispatcher.tick _ tick).map _ =
        dispatch d0.repeats (push s.history.reached s.dispatcher.tick _ tick)
      by_cases ht : tick = s.dispatcher.tick
      · subst ht
        rw [push_self, push_self, dispatch_concat, if_pos hn, List.map_append, h.dispatched]
        rfl
      · rw [push_ne _ _ ht, push_ne _ _ ht]
        exact h.dispatched tick
    · have hl : id < s.dispatcher.processes.length := (List.getElem?_eq_some_iff.mp hp).1
      show _ ↔ i ∈ (push s.history.called s.dispatcher.tick _ tick).map _
      simp only [List.getElem?_set] at hi
      by_cases hii : id = i
      · subst hii
        rw [if_pos rfl, if_pos hl] at hi
        cases hi
        by_cases htt : tick = s.dispatcher.tick
        · subst htt; simp
        · -- the last run is now, and a later tick has no call yet
          have hlt : s.dispatcher.tick < tick := Nat.lt_of_le_of_ne ht (Ne.symm htt)
          simp [push_ne _ _ htt, h.called_future hlt, Ne.symm htt]
      · rw [if_neg hii] at hi
        have := h.lastRun i p hi tick ht
        by_cases htt : tick = s.dispatcher.tick
        · subst htt
          simpa [Ne.symm hii] using this
        · rw [push_ne _ _ htt]
          exact this
    · have hc : c ∈ push s.history.called s.dispatcher.tick _ tick := hc
      by_cases ht : tick = s.dispatcher.tick
      · subst ht
        rw [push_self, List.mem_append, List.mem_singleton] at hc
        rcases hc with hc | rfl
        · exact h.callbacks _ c hc
        · refine ⟨rfl, ?_⟩
          have ht := h.wf.processes id
          rw [hp] at ht
          obtain ⟨q, hq, he⟩ := Option.map_eq_some_iff.mp ht.symm
          simpa [hq, traits] using congrArg Prod.snd he
      · rw [push_ne _ _ ht] at hc
        exact h.callbacks tick c hc

end Recorded

/-- The mark has the enabled state that `d` has. -/
def Mark.Agrees (d : EventDispatcher T) : Mark → Prop
  | .taken event enabled => d.events[event]?.map (·.enabled) = some enabled
  | .reached _ process enabled => d.processes[process]?.map (·.state.enabled) = some enabled

theorem iterated_agrees {d d' : EventDispatcher T} {marks : List Mark} {it : Iteration T}
    (h : Iterated d marks it d') : ∀ m ∈ marks, m.Agrees d := by
  intro m hm
  cases h with
  | drained => cases hm
  | taken hq hr he => cases List.mem_singleton.mp hm; simp [Mark.Agrees, he]
  | passed hd hlt hid hp hs => cases List.mem_singleton.mp hm; simp [Mark.Agrees, hp]
  | called hd hlt hid hp hs => cases List.mem_singleton.mp hm; simp [Mark.Agrees, hp]

theorem agrees_iterated {d d' : EventDispatcher T} {marks : List Mark} {it : Iteration T}
    (h : Iterated d marks it d') {m : Mark} (hm : m.Agrees d') : m.Agrees d := by
  cases m with
  | taken event enabled =>
    have := congrArg (Option.map Prod.fst) (h.events event)
    simp only [Option.map_map, Function.comp_def] at this
    exact this.symm.trans hm
  | reached event process enabled =>
    have := congrArg (Option.map Prod.fst) (h.processes process)
    simp only [Option.map_map, Function.comp_def] at this
    exact this.symm.trans hm

namespace Recorded

variable {d0 d' : EventDispatcher T} {s u : Tracked T}

/-- The loop keeps the record; it returns no callback only when the tick is drained. -/
theorem looped {fuel : Nat} (h : Recorded d0 s) {marks : List Mark} {c : Option (Invocation T)}
    (hl : loop fuel s.dispatcher = some (marks, c, d')) :
    Recorded d0 ⟨d', (s.history.marked s.dispatcher.tick marks).returned s.dispatcher.tick c⟩ ∧
    (∀ m ∈ marks, m.Agrees s.dispatcher) ∧
    (c = none → d'.delivery = none ∧ d'.queue s.dispatcher.tick = []) := by
  induction fuel generalizing s marks with
  | zero => cases hl
  | succ fuel ih =>
    obtain ⟨marks₁, it, d₁, hi, hs⟩ := iterate_spec h.wf
    have h₁ := h.iterated hs
    rw [loop, hi] at hl
    cases it with
    | returned c₁ =>
      cases hl
      refine ⟨h₁, iterated_agrees hs, fun hc => ?_⟩
      cases hs with
      | drained hq hr => exact ⟨rfl, by simp [EventDispatcher.queue, hq]⟩
      | called => cases hc
    | continued =>
      obtain ⟨⟨marks₂, c₂, d₂⟩, hl₂, he⟩ := Option.map_eq_some_iff.mp hl
      cases he
      obtain ⟨h₂, ha, hc⟩ := ih h₁ hl₂
      simp only [hs.tick_eq] at h₂ hc
      refine ⟨?_, fun m hm => ?_, hc⟩
      · simpa only [History.marked, List.foldl_append, Iteration.callback, History.returned] using h₂
      · rcases List.mem_append.mp hm with hm | hm
        · exact iterated_agrees hs m hm
        · exact agrees_iterated hs (ha m hm)

end Recorded

/-! ## The other calls -/

namespace EventDispatcher

variable {d d' d0 : EventDispatcher T} {event process tick : Nat}

theorem Wf.withPending (h : Wf d0 d) (pending : OrdMap Nat (List Nat))
    (hq : ∀ tick q, pending.get? tick = some q → q ≠ [] ∧ d.tick ≤ tick ∧ ∀ e ∈ q, e < d0.events.length) :
    Wf d0 { d with pending } := ⟨h.events, h.processes, h.known, hq, h.delivering⟩

theorem Wf.length_eq (h : Wf d0 d) : d.events.length = d0.events.length := by
  refine Nat.le_antisymm (List.getElem?_eq_none_iff.mp ?_) (List.getElem?_eq_none_iff.mp ?_)
  · have := h.events d0.events.length
    simpa using this
  · have := h.events d.events.length
    simpa using this.symm

theorem Wf.queue_known (h : Wf d0 d) {e : Nat} (he : e ∈ d.queue tick) : d.tick ≤ tick ∧ e < d0.events.length := by
  unfold queue at he
  cases hq : d.pending.get? tick with
  | none => simp [hq] at he
  | some q =>
    obtain ⟨-, hle, hk⟩ := h.queued _ _ hq
    exact ⟨hle, hk e (by simpa [hq] using he)⟩

theorem mem_pendingNotifications {n : Nat × Nat} : n ∈ d.pendingNotifications ↔ n.2 ∈ d.queue n.1 := by
  obtain ⟨tick, e⟩ := n
  simp only [pendingNotifications, List.mem_flatMap, List.mem_map, queue]
  constructor
  · rintro ⟨⟨t, q⟩, hq, e', he, heq⟩
    cases heq
    simpa [OrdMap.mem_entries.mp hq] using he
  · intro he
    cases hq : d.pending.get? tick with
    | none => simp [hq] at he
    | some q => exact ⟨(tick, q), OrdMap.mem_entries.mpr hq, e, by simpa [hq] using he, rfl⟩

theorem notifyAt_cases {accepted : Bool} (h : d.notifyAt event tick = some (accepted, d')) :
    event < d.events.length ∧
    ((accepted = false ∧ tick < d.tick ∧ d' = d) ∨
      (accepted = true ∧ d.tick ≤ tick ∧ d' = { d with pending := d.pending.insert tick (d.queue tick ++ [event]) })) := by
  unfold notifyAt at h
  split at h
  · rename_i hlt
    refine ⟨hlt, ?_⟩
    split at h
    · rename_i hr; cases h; exact .inl ⟨rfl, hr, rfl⟩
    · rename_i hr; cases h; exact .inr ⟨rfl, Nat.le_of_not_lt hr, rfl⟩
  · cases h

/-- Time moves only when nothing before the target is left to do. -/
theorem checkAdvanceTo_ok_iff (h : Wf d0 d) : d.checkAdvanceTo tick = .ok () ↔
    d.tick ≤ tick ∧ (d.delivery ≠ none → tick ≤ d.tick) ∧ ∀ n ∈ d.pendingNotifications, tick ≤ n.1 := by
  unfold checkAdvanceTo
  by_cases hlt : tick < d.tick
  · simp [hlt, Nat.not_le.mpr hlt]
  · have hle := Nat.le_of_not_lt hlt
    rw [if_neg hlt]
    cases hd : d.delivery with
    | some v =>
      have hn : d.nextEventTick = some d.tick := by simp [nextEventTick, hd]
      have hp : ∀ n ∈ d.pendingNotifications, d.tick ≤ n.1 := fun n hn =>
        (h.queue_known (mem_pendingNotifications.mp hn)).1
      rw [hn]
      by_cases hlt' : d.tick < tick
      · simp [hlt', Nat.not_le.mpr hlt']
      · have he : tick = d.tick := by omega
        simpa [he] using hp
    | none =>
      have hn : d.nextEventTick = d.pending.first?.map (·.1) := by simp [nextEventTick, hd]
      rw [hn]
      cases hf : d.pending.first? with
      | none =>
        have hp : ∀ n ∈ d.pendingNotifications, tick ≤ n.1 := fun n hn => by
          simp [mem_pendingNotifications, queue, OrdMap.first?_none hf] at hn
        simpa [hle] using hp
      | some e =>
        obtain ⟨t, q⟩ := e
        have hq := OrdMap.first?_get? hf
        by_cases hlt' : t < tick
        · obtain ⟨e, he⟩ := List.exists_mem_of_ne_nil q (h.queued _ _ hq).1
          have hm : (t, e) ∈ d.pendingNotifications := mem_pendingNotifications.mpr (by simpa [queue, hq] using he)
          simp only [Option.map_some, hlt', if_true, reduceCtorEq, false_iff]
          rintro ⟨-, -, hp⟩
          have := hp _ hm
          omega
        · have hp : ∀ n ∈ d.pendingNotifications, tick ≤ n.1 := fun n hn => by
            have hn := mem_pendingNotifications.mp hn
            cases hq' : d.pending.get? n.1 with
            | none => simp [queue, hq'] at hn
            | some q' =>
              have := OrdMap.first?_le hf hq'
              omega
          simpa [hlt', hle] using hp

end EventDispatcher

namespace Recorded

variable {d0 : EventDispatcher T} {s u : Tracked T}

/-- A notification comes last in what is due and in the queue. -/
theorem notified (h : Recorded d0 s) {event tick : Nat} (he : event < s.dispatcher.events.length)
    (ht : s.dispatcher.tick ≤ tick) :
    Recorded d0
      ⟨{ s.dispatcher with pending := s.dispatcher.pending.insert tick (s.dispatcher.queue tick ++ [event]) },
        { s.history with due := push s.history.due tick event }⟩ := by
  refine ⟨h.wf.withPending _ fun t q hq => ?_, fun t => ?_, h.future, h.inOrder, h.dispatched, h.lastRun, h.callbacks⟩
  · rw [OrdMap.get?_insert] at hq
    split at hq
    · rename_i htt
      subst htt
      cases hq
      refine ⟨by simp, ht, fun e hm => ?_⟩
      rcases List.mem_append.mp hm with hm | hm
      · exact (h.wf.queue_known hm).2
      · rw [List.mem_singleton.mp hm, ← h.wf.length_eq]; exact he
    · exact h.wf.queued _ _ hq
  · have hf := h.fifo t
    show push s.history.due tick event t = _ ++ ((s.dispatcher.pending.insert tick _).get? t).getD []
    by_cases htt : t = tick
    · subst htt
      rw [push_self, hf, OrdMap.get?_insert_self, Option.getD_some, List.append_assoc]
    · rw [push_ne _ _ htt, OrdMap.get?_insert_ne htt]
      exact hf

theorem cancelled (h : Recorded d0 s) (event : Nat) :
    Recorded d0 ⟨(s.dispatcher.cancel event).2,
      s.history.record s.dispatcher (.cancel event, .cancelled (s.dispatcher.cancel event).1)⟩ := by
  have hget : ∀ t, (s.dispatcher.cancel event).2.queue t = (s.dispatcher.queue t).filter (· ≠ event) := fun t => by
    simp only [cancel, EventDispatcher.queue, OrdMap.get?_filterMap]
    cases hq : s.dispatcher.pending.get? t with
    | none => rfl
    | some q =>
      simp only [Option.bind_some]
      split
      · rename_i hn; simpa using List.isEmpty_iff.mp hn
      · rfl
  refine ⟨h.wf.withPending _ fun t q hq => ?_, fun t => ?_, h.future, h.inOrder, h.dispatched, h.lastRun, h.callbacks⟩
  · rw [OrdMap.get?_filterMap] at hq
    obtain ⟨q', hq', hf⟩ := Option.bind_eq_some_iff.mp hq
    obtain ⟨-, hle, hk⟩ := h.wf.queued _ _ hq'
    split at hf
    · cases hf
    · rename_i hn
      cases hf
      exact ⟨by simpa using hn, hle, fun e he => hk e (List.mem_of_mem_filter he)⟩
  · have hf := h.fifo t
    have hl : (s.history.taken t).length = ((s.history.taken t).map (·.1)).length := by simp
    show (s.history.due t).take (s.history.taken t).length ++
      ((s.history.due t).drop (s.history.taken t).length).filter (· ≠ event) = _
    rw [hget, hf, hl, List.take_left, List.drop_left]
    rfl

theorem processEnabled (h : Recorded d0 s) {process : Nat} {enabled : Bool} {d' : EventDispatcher T}
    (hs : s.dispatcher.setProcessEnabled process enabled = some d') : Recorded d0 ⟨d', s.history⟩ := by
  obtain ⟨p, hp, hs⟩ := Option.bind_eq_some_iff.mp hs
  cases hs
  have hw : Wf d0 { s.dispatcher with
      processes := s.dispatcher.processes.set process { p with state := { p.state with enabled } } } :=
    ⟨h.wf.events, fun i => by rw [← h.wf.processes i]; exact getElem?_set_map _ hp (by rfl) i,
      h.wf.known, h.wf.queued, h.wf.delivering⟩
  refine ⟨hw, h.fifo, h.future, h.inOrder, h.dispatched, fun i q hq tick ht => ?_, h.callbacks⟩
  have hr : (s.dispatcher.processes.set process { p with state := { p.state with enabled } })[i]?.map
      (·.state.lastRun) = s.dispatcher.processes[i]?.map (·.state.lastRun) := by
    refine getElem?_set_map (·.state.lastRun) hp ?_ i
    rfl
  simp only at hq
  rw [hq] at hr
  obtain ⟨q', hq', hl⟩ := Option.map_eq_some_iff.mp hr.symm
  have hl : q'.state.lastRun = q.state.lastRun := hl
  rw [← hl]
  exact h.lastRun i q' hq' tick ht

theorem eventEnabled (h : Recorded d0 s) {event : Nat} {enabled : Bool} {d' : EventDispatcher T}
    (hs : s.dispatcher.setEventEnabled event enabled = some d') : Recorded d0 ⟨d', s.history⟩ := by
  obtain ⟨e, he, hs⟩ := Option.bind_eq_some_iff.mp hs
  cases hs
  have hev : ∀ i : Nat, (s.dispatcher.events.set event { e with enabled })[i]?.map (·.subscribers) =
      s.dispatcher.events[i]?.map (·.subscribers) := fun i => by
    refine getElem?_set_map (·.subscribers) he ?_ i
    rfl
  have hw : Wf d0 { s.dispatcher with events := s.dispatcher.events.set event { e with enabled } } :=
    ⟨fun i => (hev i).trans (h.wf.events i), h.wf.processes, h.wf.known, h.wf.queued, h.wf.delivering⟩
  refine ⟨hw, h.fifo, h.future, fun tick => ?_, h.dispatched, h.lastRun, h.callbacks⟩
  have hr : remaining { s.dispatcher with events := s.dispatcher.events.set event { e with enabled } } =
      s.dispatcher.remaining := by
    simp only [remaining, subscribers, hev]
  rw [← h.inOrder tick, ← hr]

theorem advanced (h : Recorded d0 s) {tick : Nat} (hc : s.dispatcher.checkAdvanceTo tick = .ok ()) :
    Recorded d0 ⟨{ s.dispatcher with tick }, s.history⟩ := by
  obtain ⟨hle, hd, hp⟩ := (checkAdvanceTo_ok_iff h.wf).mp hc
  have hw : Wf d0 { s.dispatcher with tick } := by
    refine ⟨h.wf.events, h.wf.processes, h.wf.known, fun t q hq => ?_, h.wf.delivering⟩
    obtain ⟨hne, -, hk⟩ := h.wf.queued t q hq
    obtain ⟨e, he⟩ := List.exists_mem_of_ne_nil q hne
    have hm : (t, e) ∈ s.dispatcher.pendingNotifications :=
      mem_pendingNotifications.mpr (by simpa [EventDispatcher.queue, hq] using he)
    exact ⟨hne, hp _ hm, hk⟩
  refine ⟨hw, h.fifo, fun t ht => h.future t (Nat.lt_of_le_of_lt hle ht), fun t => ?_, h.dispatched,
    fun i p hi t ht => h.lastRun i p hi t (Nat.le_trans hle ht), h.callbacks⟩
  rw [← h.inOrder t]
  show _ ++ (if t = tick then s.dispatcher.remaining else []) = _
  by_cases he : tick = s.dispatcher.tick
  · rw [he]
  · -- time moves only without a delivery
    have hn : s.dispatcher.delivery = none := by
      by_contra hn
      have := hd hn
      omega
    have hr : s.dispatcher.remaining = [] := by simp [remaining, hn]
    simp [hr]

/-- Every call keeps the record. -/
theorem step (h : Recorded d0 s) {l : EventCall × EventReply T} (hs : track s l u) : Recorded d0 u := by
  obtain ⟨c, r⟩ := l
  obtain ⟨d', hist⟩ := u
  obtain ⟨he, rfl⟩ := hs
  simp only at he ⊢
  cases c with
  | notifyAt event tick =>
    obtain ⟨⟨accepted, d₁⟩, hn, he⟩ := Option.map_eq_some_iff.mp he
    cases he
    obtain ⟨hlt, ⟨rfl, -, rfl⟩ | ⟨rfl, ht, rfl⟩⟩ := notifyAt_cases hn
    · exact h
    · exact h.notified hlt ht
  | notifyAfter event delay =>
    obtain ⟨⟨result, d₁⟩, hn, he⟩ := Option.map_eq_some_iff.mp he
    cases he
    unfold notifyAfter at hn
    split at hn
    · cases hn
      exact h
    · rename_i tick htick
      obtain ⟨-, rfl⟩ := checkedAdd_eq_some.mp htick
      obtain ⟨⟨accepted, d₂⟩, hn', hr⟩ := Option.map_eq_some_iff.mp hn
      cases hr
      obtain ⟨hlt, ⟨-, ht, -⟩ | ⟨-, ht, rfl⟩⟩ := notifyAt_cases hn'
      · omega
      · exact h.notified hlt ht
  | cancel event =>
    cases he
    exact h.cancelled event
  | setProcessEnabled process enabled =>
    obtain ⟨d₁, hn, he⟩ := Option.map_eq_some_iff.mp he
    cases he
    exact h.processEnabled hn
  | setEventEnabled event enabled =>
    obtain ⟨d₁, hn, he⟩ := Option.map_eq_some_iff.mp he
    cases he
    exact h.eventEnabled hn
  | advanceTo tick =>
    cases he
    show Recorded d0 ⟨(s.dispatcher.advanceTo tick).2, s.history⟩
    unfold advanceTo
    split
    · exact h
    · rename_i hc
      exact h.advanced hc
  | nextCallback =>
    obtain ⟨⟨marks, c, d₁⟩, hn, he⟩ := Option.map_eq_some_iff.mp he
    cases he
    exact (h.looped hn).1

end Recorded

/-! ## From the topology on -/

namespace EventDispatcher

/-- What holds before any notification. -/
structure Idle (d : EventDispatcher T) : Prop where
  known : ∀ i, ∀ p ∈ d.subscribers i, p < d.processes.length
  pending : d.pending = .empty
  delivery : d.delivery = none
  lastRun : ∀ p ∈ d.processes, p.state.lastRun = none

theorem idle_of_built {d : EventDispatcher T} (h : Built d) : Idle d := by
  induction h with
  | new tick => exact ⟨fun i p hp => by simp [subscribers, new] at hp, rfl, rfl, fun p hp => by cases hp⟩
  | @addEvent d _ ih =>
    refine ⟨fun i p hp => ?_, ih.pending, ih.delivery, ih.lastRun⟩
    refine ih.known i p ?_
    simp only [subscribers, addEvent, List.getElem?_append] at hp ⊢
    split at hp
    · exact hp
    · cases hi : i - d.events.length <;> simp [hi] at hp
  | @addProcess d callback repeatInTick _ ih =>
    refine ⟨fun i p hp => ?_, ih.pending, ih.delivery, fun p hp => ?_⟩
    · have := ih.known i p hp
      simp only [addProcess, List.length_append]
      omega
    · rcases List.mem_append.mp hp with hp | hp
      · exact ih.lastRun p hp
      · rw [List.mem_singleton.mp hp]
  | @subscribe d d' event process _ hs ih =>
    unfold subscribe at hs
    split at hs
    · rename_i hlt
      obtain ⟨e, he, hs⟩ := Option.bind_eq_some_iff.mp hs
      split at hs
      · cases hs; exact ih
      · cases hs
        refine ⟨fun i p hp => ?_, ih.pending, ih.delivery, ih.lastRun⟩
        have hi : event < d.events.length := (List.getElem?_eq_some_iff.mp he).1
        simp only [subscribers, List.getElem?_set] at hp
        split at hp
        · rename_i hei
          subst hei
          simp only [Option.map_some, Option.getD_some] at hp
          rcases List.mem_append.mp hp with hp | hp
          · exact ih.known event p (by simpa [subscribers, he] using hp)
          · rw [List.mem_singleton.mp hp]; exact hlt
        · exact ih.known i p hp
    · cases hs

theorem Idle.recorded {d : EventDispatcher T} (h : Idle d) : Recorded d ⟨d, .empty⟩ := by
  refine ⟨⟨fun _ => rfl, fun _ => rfl, h.known, fun t q hq => ?_, fun v hv => ?_⟩, fun t => ?_, fun _ _ => rfl,
    fun t => ?_, fun _ => rfl, fun i p hi t _ => ?_, fun _ c hc => ?_⟩
  · simp [h.pending] at hq
  · rw [h.delivery] at hv; cases hv
  · simp [queue, h.pending, History.empty]
  · simp [remaining, h.delivery, History.empty, expand]
  · simp [h.lastRun p (List.mem_of_getElem? hi), History.empty]
  · cases hc

end EventDispatcher

/-- In every state a run reaches, what is queued is not of the past; a tick's callbacks are,
    in order, the subscribers of the notifications taken, with those suppressed left out, and
    what is due, taken and queued agree in order; time moves only over drained ticks; and
    `next_callback` ends, whatever the bound on its loop. -/
theorem callbacks_in_order {d0 : EventDispatcher T} (hb : Built d0) {t : List (EventCall × EventReply T)}
    {s : Tracked T} (hr : Run track ⟨d0, .empty⟩ t s) :
    (∀ n ∈ s.dispatcher.pendingNotifications, s.dispatcher.tick ≤ n.1) ∧
    (∀ tick,
      s.history.due tick = (s.history.taken tick).map (·.1) ++ s.dispatcher.queue tick ∧
      (s.history.reached tick).map (·.1) ++ (if tick = s.dispatcher.tick then s.dispatcher.remaining else []) =
        expand d0.subscribers (s.history.taken tick) ∧
      (s.history.called tick).map (fun c => (c.event, c.process)) = dispatch d0.repeats (s.history.reached tick) ∧
      (∀ c ∈ s.history.called tick, c.tick = tick ∧ d0.processes[c.process]?.map (·.callback) = some c.callback) ∧
      ∀ process, d0.repeats process = false → ((s.history.called tick).map (·.process)).count process ≤ 1) ∧
    (∀ tick < s.dispatcher.tick, (s.history.taken tick).map (·.1) = s.history.due tick ∧
      (s.history.reached tick).map (·.1) = expand d0.subscribers (s.history.taken tick)) ∧
    (∀ tick, (s.dispatcher.advanceTo tick).1 = .ok () ↔ s.dispatcher.tick ≤ tick ∧
      (s.dispatcher.delivery ≠ none → tick ≤ s.dispatcher.tick) ∧
      ∀ n ∈ s.dispatcher.pendingNotifications, tick ≤ n.1) ∧
    ∃ marks callback d, s.dispatcher.nextCallback = some (marks, callback, d) ∧
      (∀ fuel, s.dispatcher.work < fuel → loop fuel s.dispatcher = some (marks, callback, d)) ∧
      (∀ m ∈ marks, m.Agrees s.dispatcher) ∧
      (callback = none → d.delivery = none ∧ d.queue s.dispatcher.tick = []) := by
  have h : Recorded d0 s := hr.keeps (idle_of_built hb).recorded fun _ _ _ h hs => h.step hs
  have hpast : ∀ n ∈ s.dispatcher.pendingNotifications, s.dispatcher.tick ≤ n.1 := fun n hn =>
    (h.wf.queue_known (mem_pendingNotifications.mp hn)).1
  refine ⟨hpast, fun tick => ⟨h.fifo tick, h.inOrder tick, h.dispatched tick, h.callbacks tick, fun p hp => ?_⟩,
    fun tick ht => ⟨?_, ?_⟩, fun tick => ?_, ?_⟩
  · rw [h.called_processes]
    exact dispatch_once hp _
  · have hq : s.dispatcher.queue tick = [] := by
      refine List.eq_nil_iff_forall_not_mem.mpr fun e he => ?_
      have := (h.wf.queue_known he).1
      omega
    rw [h.fifo tick, hq, List.append_nil]
  · rw [← h.inOrder tick, if_neg (Nat.ne_of_lt ht), List.append_nil]
  · rw [← checkAdvanceTo_ok_iff h.wf]
    unfold advanceTo
    split <;> simp [*]
  · obtain ⟨⟨marks, c, d⟩, hl⟩ := loop_some h.wf (Nat.lt_succ_self _)
    obtain ⟨-, ha, hc⟩ := h.looped hl
    exact ⟨marks, c, d, hl, fun fuel hf => loop_mono hl hf, ha, hc⟩

/-- The calls in order, with what each returned, when none has an unknown handle. -/
def replay (s : Tracked T) : List EventCall → Option (List (EventCall × EventReply T) × Tracked T)
  | [] => some ([], s)
  | c :: cs => do
    let (r, d) ← exec c s.dispatcher
    let (t, u) ← replay ⟨d, s.history.record s.dispatcher (c, r)⟩ cs
    some ((c, r) :: t, u)

theorem run_replay {s u : Tracked T} {cs : List EventCall} {t : List (EventCall × EventReply T)}
    (h : replay s cs = some (t, u)) : Run track s t u := by
  induction cs generalizing s t with
  | nil => cases h; exact .nil
  | cons c cs ih =>
    obtain ⟨⟨r, d⟩, he, h⟩ := Option.bind_eq_some_iff.mp h
    obtain ⟨⟨t', u'⟩, ht, h⟩ := Option.bind_eq_some_iff.mp h
    cases h
    exact Run.append (.single ⟨he, rfl⟩) (ih ht)

/-- Two events share a process that does not repeat; the first has one that does, too. -/
def sharedProcess : EventDispatcher Char :=
  { tick := 0
    events := [⟨true, none, [0, 1]⟩, ⟨true, none, [0]⟩]
    processes := [⟨⟨true, false, none⟩, 'n'⟩, ⟨⟨true, true, none⟩, 'r'⟩]
    pending := .empty
    delivery := none }

theorem built_sharedProcess : Built sharedProcess := by
  have h : Built ((((new 0).addEvent.2.addEvent.2).addProcess 'n' false).2.addProcess 'r' true).2 :=
    .addProcess 'r' true (.addProcess 'n' false (.addEvent (.addEvent (.new 0))))
  have h₁ := @Built.subscribe _ _ _ 0 0 h rfl
  have h₂ := @Built.subscribe _ _ _ 0 1 h₁ rfl
  exact @Built.subscribe _ _ _ 1 0 h₂ rfl

/-- Events 0, 1 and 0 are notified for tick 2, which is then drained. -/
def sharedCalls : List EventCall :=
  [.notifyAt 0 2, .notifyAt 1 2, .notifyAt 0 2, .advanceTo 2, .nextCallback, .nextCallback, .nextCallback,
    .nextCallback, .advanceTo 3]

theorem shared_runs : (replay ⟨sharedProcess, .empty⟩ sharedCalls).isSome := by decide

def sharedEnd : Tracked Char := ((replay ⟨sharedProcess, .empty⟩ sharedCalls).get shared_runs).2

theorem callbacks_in_order_shared :
    sharedEnd.history.due 2 = [0, 1, 0] ∧
    (sharedEnd.history.called 2).map (fun c => (c.event, c.process)) = [(0, 0), (0, 1), (0, 1)] ∧
    (sharedEnd.history.called 2).map (fun c => (c.event, c.process)) =
      dispatch sharedProcess.repeats (sharedEnd.history.reached 2) :=
  ⟨by decide, by decide,
    ((callbacks_in_order built_sharedProcess (run_replay (Option.some_get shared_runs).symm)).2.1 2).2.2.1⟩

end AscendEmulator.Common
