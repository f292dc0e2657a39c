/-
  AscendEmulator.Common.Event — the serial event dispatcher (`EventDispatcher`).

  Notifications queue per tick in FIFO order. `next_callback` works through the queue of
  the current tick: it takes a notification, and if its event is enabled delivers it to
  the event's subscribers in subscription order, returning one callback at a time.
  Callbacks run outside, so between two calls the caller may notify (this tick too),
  cancel, enable and disable. A process that is not `repeat_in_tick` runs at most once a
  tick, over all its events.

  An operation on a handle the dispatcher does not have panics in the source; here it
  returns `none`. `nextCallback` also returns what its loop did (`Mark`), which nothing
  reads but the history of `AscendEmulator.Common.EventProofs`.
-/

import AscendEmulator.Lib.Run
import AscendEmulator.Lib.OrdMap

namespace AscendEmulator.Common

open Lib (OrdMap checkedAdd)

variable {T : Type}

structure ProcessState where
  enabled : Bool
  repeatInTick : Bool
  lastRun : Option Nat
  deriving DecidableEq, Repr

structure Invocation (T : Type) where
  tick : Nat
  event : Nat
  process : Nat
  callback : T
  deriving DecidableEq, Repr

inductive EventError where
  | timeReversed (previous requested : Nat)
  | pendingEvents (tick : Nat)
  | timeOverflow
  deriving DecidableEq, Repr

structure Event where
  enabled : Bool
  triggeredAt : Option Nat
  subscribers : List Nat
  deriving DecidableEq, Repr

structure Process (T : Type) where
  state : ProcessState
  callback : T
  deriving DecidableEq, Repr

structure Delivery where
  event : Nat
  nextSubscriber : Nat
  subscriberCount : Nat
  deriving DecidableEq, Repr

structure EventDispatcher (T : Type) where
  tick : Nat
  events : List Event
  processes : List (Process T)
  pending : OrdMap Nat (List Nat)
  delivery : Option Delivery

/-- What an iteration of `next_callback` did: it took a notification off the queue, or
    reached a subscriber; with whether the event or process was enabled then. -/
inductive Mark where
  | taken (event : Nat) (enabled : Bool)
  | reached (event process : Nat) (enabled : Bool)
  deriving DecidableEq, Repr

namespace EventDispatcher

/-! ## Topology -/

def new (tick : Nat) : EventDispatcher T :=
  { tick, events := [], processes := [], pending := .empty, delivery := none }

def addEvent (d : EventDispatcher T) : Nat × EventDispatcher T :=
  (d.events.length, { d with events := d.events ++ [⟨true, none, []⟩] })

def addProcess (d : EventDispatcher T) (callback : T) (repeatInTick : Bool) : Nat × EventDispatcher T :=
  (d.processes.length, { d with processes := d.processes ++ [⟨⟨true, repeatInTick, none⟩, callback⟩] })

def subscribe (d : EventDispatcher T) (event process : Nat) : Option (EventDispatcher T) :=
  if process < d.processes.length then do
    let e ← d.events[event]?
    if process ∈ e.subscribers then some d
    else some { d with events := d.events.set event { e with subscribers := e.subscribers ++ [process] } }
  else none

/-! ## Execution -/

def processState (d : EventDispatcher T) (process : Nat) : Option ProcessState :=
  d.processes[process]?.map (·.state)

def setProcessEnabled (d : EventDispatcher T) (process : Nat) (enabled : Bool) : Option (EventDispatcher T) := do
  let p ← d.processes[process]?
  some { d with processes := d.processes.set process { p with state := { p.state with enabled } } }

def setEventEnabled (d : EventDispatcher T) (event : Nat) (enabled : Bool) : Option (EventDispatcher T) := do
  let e ← d.events[event]?
  some { d with events := d.events.set event { e with enabled } }

def triggered (d : EventDispatcher T) (event : Nat) : Option Bool :=
  d.events[event]?.map fun e => e.triggeredAt == some d.tick

/-- The queue of a tick. -/
def queue (d : EventDispatcher T) (tick : Nat) : List Nat := (d.pending.get? tick).getD []

/-- Notifications into the past are ignored. -/
def notifyAt (d : EventDispatcher T) (event tick : Nat) : Option (Bool × EventDispatcher T) :=
  if event < d.events.length then
    if tick < d.tick then some (false, d)
    else some (true, { d with pending := d.pending.insert tick (d.queue tick ++ [event]) })
  else none

def notifyAfter (d : EventDispatcher T) (event delay : Nat) : Option (Except EventError Unit × EventDispatcher T) :=
  match checkedAdd d.tick delay with
  | none => some (.error .timeOverflow, d)
  | some tick => (d.notifyAt event tick).map fun r => (.ok (), r.2)

/-- Remove all queued occurrences, preserving the order of other events. -/
def cancel (d : EventDispatcher T) (event : Nat) : Nat × EventDispatcher T :=
  let kept (queue : List Nat) := queue.filter (· ≠ event)
  (d.pending.sum fun _ queue => queue.length - (kept queue).length,
    { d with pending := d.pending.filterMap fun _ queue => if (kept queue).isEmpty then none else some (kept queue) })

def pendingNotifications (d : EventDispatcher T) : List (Nat × Nat) :=
  d.pending.entries.flatMap fun e => e.2.map fun event => (e.1, event)

def nextEventTick (d : EventDispatcher T) : Option Nat :=
  (d.delivery.map fun _ => d.tick) <|> (d.pending.first?.map (·.1))

def checkAdvanceTo (d : EventDispatcher T) (tick : Nat) : Except EventError Unit :=
  if tick < d.tick then .error (.timeReversed d.tick tick)
  else match d.nextEventTick with
    | some pending => if pending < tick then .error (.pendingEvents pending) else .ok ()
    | none => .ok ()

def advanceTo (d : EventDispatcher T) (tick : Nat) : Except EventError Unit × EventDispatcher T :=
  match d.checkAdvanceTo tick with
  | .error e => (.error e, d)
  | .ok () => (.ok (), { d with tick })

/-- How an iteration of `next_callback` ends. -/
inductive Iteration (T : Type) where
  | returned (callback : Option (Invocation T))
  | continued
  deriving DecidableEq, Repr

/-- The delivery in progress reaches its next subscriber. -/
def reach (d : EventDispatcher T) (delivery : Delivery) : Option (List Mark × Iteration T × EventDispatcher T) := do
  let event ← d.events[delivery.event]?
  let id ← event.subscribers[delivery.nextSubscriber]?
  let process ← d.processes[id]?
  let d := { d with delivery := some { delivery with nextSubscriber := delivery.nextSubscriber + 1 } }
  let marks := [Mark.reached delivery.event id process.state.enabled]
  if !process.state.enabled || (!process.state.repeatInTick && process.state.lastRun == some d.tick) then
    some (marks, .continued, d)
  else
    some (marks, .returned (some ⟨d.tick, delivery.event, id, process.callback⟩),
      { d with processes := d.processes.set id { process with state := { process.state with lastRun := some d.tick } } })

/-- The next notification of the tick is taken, and its delivery started. -/
def take (d : EventDispatcher T) : Option (List Mark × Iteration T × EventDispatcher T) :=
  match d.pending.get? d.tick with
  | none => some ([], .returned none, d)
  | some [] => none
  | some (id :: queue) => do
    let d := { d with pending := if queue.isEmpty then d.pending.erase d.tick else d.pending.insert d.tick queue }
    let event ← d.events[id]?
    if event.enabled then
      some ([.taken id true], .continued,
        { d with
          events := d.events.set id { event with triggeredAt := some d.tick }
          delivery := some ⟨id, 0, event.subscribers.length⟩ })
    else some ([.taken id false], .continued, d)

/-- The body of `next_callback`'s loop. -/
def iterate (d : EventDispatcher T) : Option (List Mark × Iteration T × EventDispatcher T) :=
  match d.delivery with
  | some delivery =>
    if delivery.nextSubscriber < delivery.subscriberCount then d.reach delivery
    else take { d with delivery := none }
  | none => d.take

/-- The loop, for at most `fuel` iterations. -/
def loop : Nat → EventDispatcher T → Option (List Mark × Option (Invocation T) × EventDispatcher T)
  | 0, _ => none
  | fuel + 1, d =>
    match d.iterate with
    | none => none
    | some (marks, .returned callback, d) => some (marks, callback, d)
    | some (marks, .continued, d) => (loop fuel d).map fun r => (marks ++ r.1, r.2)

/-- The subscribers of an event. -/
def subscribers (d : EventDispatcher T) (event : Nat) : List Nat := (d.events[event]?.map (·.subscribers)).getD []

/-- A bound on the iterations left in the tick: what the delivery in progress and each
    queued notification may still take. -/
def work (d : EventDispatcher T) : Nat :=
  (d.delivery.elim 0 fun v => v.subscriberCount - v.nextSubscriber + 1) +
    ((d.queue d.tick).map fun event => (d.subscribers event).length + 2).sum

def nextCallback (d : EventDispatcher T) : Option (List Mark × Option (Invocation T) × EventDispatcher T) :=
  loop (d.work + 1) d

end EventDispatcher

end AscendEmulator.Common
