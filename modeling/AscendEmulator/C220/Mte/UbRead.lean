/-
  AscendEmulator.C220.Mte.UbRead — the UB read interface of a vector subcore (`C220UbReadInterface`).

  Fragments wait in the inputs, in the transport and, as requests the memory has, under their ids; answers become
  acknowledgments, which the BIU takes one by one. `flight` is all of them, the oldest first: while the memory answers
  in the order of delivery, it is a queue.
-/

import AscendEmulator.Lib.OrdMap
import AscendEmulator.Lib.Queue
import AscendEmulator.Lib.Run

namespace AscendEmulator.C220.Mte

open Lib

structure UbReadFragment where
  tag : Nat
  address : UInt64
  bytes : UInt32
  completesRead : Bool
  deriving DecidableEq

structure UbReadEntry where
  readyTick : Nat
  fragment : UbReadFragment

structure UbReadRequest where
  id : Nat
  sentTick : Nat
  readyTick : Nat
  fragment : UbReadFragment

structure UbReadAcknowledgment where
  readyTick : Nat
  request : UbReadRequest

inductive UbReadPhase where
  | send | response
  deriving DecidableEq

inductive UbReadError where
  | timeReversed (previous requested : Nat)
  | repeatedCallback (phase : UbReadPhase) (tick : Nat)
  | overflow
  | unexpectedResponse (id : Nat)
  deriving DecidableEq

structure UbReadInterface where
  inputs : List UbReadEntry
  transport : List UbReadRequest
  delivered : OrdMap Nat UbReadRequest
  acknowledgments : List UbReadAcknowledgment
  nextId : Nat
  observedTick : Option Nat
  sendTick : Option Nat
  receiveTick : Option Nat
  responseTick : Option Nat

namespace UbReadInterface

abbrev CallOf (α : Type) := Call UbReadInterface UbReadError α

def empty : UbReadInterface where
  inputs := []
  transport := []
  delivered := .empty
  acknowledgments := []
  nextId := 1
  observedTick := none
  sendTick := none
  receiveTick := none
  responseTick := none

def canPush (u : UbReadInterface) : Bool := decide (u.inputs.length < 5)

def timeReversed (u : UbReadInterface) (tick : Nat) : Option UbReadError :=
  (u.observedTick.filter (tick < ·)).map (.timeReversed · tick)

def checkCallback (u : UbReadInterface) (tick : Nat) (previous : Option Nat) (phase : UbReadPhase) : Option UbReadError :=
  match u.timeReversed tick with
  | some e => some e
  | none => if previous = some tick then some (.repeatedCallback phase tick) else none

def push (tick : Nat) (fragment : UbReadFragment) : CallOf Bool := fun u =>
  match u.timeReversed tick with
  | some e => (.error e, u)
  | none =>
    if !u.canPush then (.ok false, u)
    else
      match checkedAdd tick 4 with
      | none => (.error .overflow, u)
      | some readyTick => (.ok true, { u with inputs := u.inputs ++ [⟨readyTick, fragment⟩], observedTick := some tick })

/-- `send`: the id goes by also when the transport is full. -/
def send (tick : Nat) : CallOf (Option UbReadRequest) := fun u =>
  match u.checkCallback tick u.sendTick .send with
  | some e => (.error e, u)
  | none =>
    match popFrontIf (fun head => decide (head.readyTick ≤ tick)) u.inputs with
    | none => (.ok none, { u with sendTick := some tick, observedTick := some tick })
    | some (head, inputs) =>
      match checkedAdd u.nextId 1 with
      | none => (.error .overflow, u)
      | some nextId =>
        if u.transport.length < 2 then
          match checkedAdd tick 1 with
          | none => (.error .overflow, u)
          | some readyTick =>
            let request : UbReadRequest := ⟨u.nextId, tick, readyTick, head.fragment⟩
            (.ok (some request),
              { u with
                inputs
                transport := u.transport ++ [request]
                nextId
                sendTick := some tick
                observedTick := some tick })
        else (.ok none, { u with nextId, sendTick := some tick, observedTick := some tick })

def takeRequest (tick : Nat) : CallOf (Option UbReadRequest) := fun u =>
  match u.timeReversed tick with
  | some e => (.error e, u)
  | none =>
    if u.receiveTick = some tick then (.ok none, u)
    else
      match popFrontIf (fun head => decide (head.readyTick ≤ tick)) u.transport with
      | none => (.ok none, { u with observedTick := some tick })
      | some (request, transport) =>
        (.ok (some request),
          { u with
            transport
            delivered := u.delivered.insert request.id request
            receiveTick := some tick
            observedTick := some tick })

def receiveResponse (tick id : Nat) : CallOf UbReadRequest := fun u =>
  match u.checkCallback tick u.responseTick .response with
  | some e => (.error e, u)
  | none =>
    match u.delivered.get? id with
    | none => (.error (.unexpectedResponse id), u)
    | some request =>
      match checkedAdd tick 3 with
      | none => (.error .overflow, u)
      | some readyTick =>
        (.ok request,
          { u with
            delivered := u.delivered.erase id
            acknowledgments :=
              if request.fragment.completesRead then u.acknowledgments ++ [⟨readyTick, request⟩] else u.acknowledgments
            responseTick := some tick
            observedTick := some tick })

def takeCompletion (tick tag : Nat) : CallOf (Option UbReadAcknowledgment) := fun u =>
  match u.timeReversed tick with
  | some e => (.error e, u)
  | none =>
    match popFrontIf (fun head => decide (head.readyTick ≤ tick) && decide (head.request.fragment.tag = tag))
        u.acknowledgments with
    | none => (.ok none, { u with observedTick := some tick })
    | some (acknowledgment, acknowledgments) =>
      (.ok (some acknowledgment), { u with acknowledgments, observedTick := some tick })

/-! ## In flight -/

/-- The fragments in the interface, the oldest first. -/
def flight (u : UbReadInterface) : List UbReadFragment :=
  u.acknowledgments.map (·.request.fragment) ++ u.delivered.entries.map (·.2.fragment) ++ u.transport.map (·.fragment) ++
    u.inputs.map (·.fragment)

/-- How many stages the fragments in flight have to pass. -/
def load (u : UbReadInterface) : Nat :=
  4 * u.inputs.length + 3 * u.transport.length + 2 * u.delivered.entries.length + u.acknowledgments.length

/-- Ids grow in the order of delivery; every fragment completes its read. -/
structure Sound (u : UbReadInterface) : Prop where
  ids : (u.delivered.entries.map Prod.fst ++ u.transport.map (·.id)).Pairwise (· < ·)
  fresh : ∀ id ∈ u.delivered.entries.map Prod.fst ++ u.transport.map (·.id), id < u.nextId
  completes : ∀ f ∈ u.flight, f.completesRead = true

theorem sound_empty : Sound empty := ⟨List.Pairwise.nil, fun _ h => absurd h List.not_mem_nil, fun _ h => absurd h List.not_mem_nil⟩

variable {u u' : UbReadInterface} {tick bound id tag : Nat} {f : UbReadFragment}

/-- `tick` is not past, nor is `tick + n` past the last tick. -/
structure Timely (u : UbReadInterface) (tick n : Nat) : Prop where
  observed : ∀ t, u.observedTick = some t → t ≤ tick
  bound : tick + n < u64

theorem Timely.not_reversed {n : Nat} (h : u.Timely tick n) : u.timeReversed tick = none := by
  unfold timeReversed
  cases ho : u.observedTick with
  | none => rfl
  | some t =>
    have := h.observed t ho
    rw [Option.filter_some, if_neg (by simpa using this)]
    rfl

theorem Timely.add {n : Nat} (h : u.Timely tick n) : checkedAdd tick n = some (tick + n) :=
  checkedAdd_eq_some.mpr ⟨h.bound, rfl⟩

/-- A fragment joins at the end. -/
theorem Sound.push (h : u.Sound) (hf : f.completesRead = true) (tick : Nat) :
    (∃ e, push tick f u = (.error e, u)) ∨ push tick f u = (.ok false, u) ∨
      ∃ u', push tick f u = (.ok true, u') ∧ u'.Sound ∧ u'.flight = u.flight ++ [f] ∧ u'.load = u.load + 4 ∧
        u'.observedTick = some tick := by
  unfold UbReadInterface.push
  split
  · exact .inl ⟨_, rfl⟩
  · split
    · exact .inr (.inl rfl)
    · split
      · exact .inl ⟨_, rfl⟩
      · rename_i readyTick _
        have hflight : flight { u with inputs := u.inputs ++ [⟨readyTick, f⟩], observedTick := some tick } = u.flight ++ [f] := by
          simp [flight]
        refine .inr (.inr ⟨_, rfl, ⟨h.ids, h.fresh, fun g hg => ?_⟩, hflight, ?_, rfl⟩)
        · rw [hflight] at hg
          rcases List.mem_append.mp hg with hg | hg
          · exact h.completes g hg
          · rw [List.mem_singleton.mp hg, hf]
        · simp only [load, List.length_append, List.length_singleton]
          omega

/-- `send` moves a fragment, or none. -/
theorem Sound.send (h : u.Sound) (tick : Nat) :
    (∃ e, send tick u = (.error e, u)) ∨
      ∃ r u', send tick u = (.ok r, u') ∧ u'.Sound ∧ u'.flight = u.flight ∧ u'.load + r.toList.length ≤ u.load := by
  unfold UbReadInterface.send
  split
  · exact .inl ⟨_, rfl⟩
  · split
    · exact .inr ⟨_, _, rfl, ⟨h.ids, h.fresh, h.completes⟩, rfl, Nat.le_refl _⟩
    · rename_i head inputs hpop
      obtain ⟨hinputs, -⟩ := popFrontIf_eq_some.mp hpop
      split
      · exact .inl ⟨_, rfl⟩
      · rename_i nextId hnext
        obtain ⟨-, rfl⟩ := checkedAdd_eq_some.mp hnext
        split
        · split
          · exact .inl ⟨_, rfl⟩
          · rename_i readyTick _
            have hflight : flight { u with
                inputs := inputs
                transport := u.transport ++ [⟨u.nextId, tick, readyTick, head.fragment⟩]
                nextId := u.nextId + 1
                sendTick := some tick
                observedTick := some tick } = u.flight := by
              simp [flight, hinputs]
            refine .inr ⟨_, _, rfl, ⟨?_, fun id hid => ?_, fun g hg => h.completes g (hflight ▸ hg)⟩, hflight, ?_⟩
            · rw [List.map_append, ← List.append_assoc, List.pairwise_append]
              refine ⟨h.ids, List.pairwise_singleton .., fun a ha b hb => ?_⟩
              rw [List.mem_singleton.mp hb]
              exact h.fresh a ha
            · rw [List.map_append, ← List.append_assoc] at hid
              rcases List.mem_append.mp hid with hid | hid
              · exact Nat.lt_succ_of_lt (h.fresh id hid)
              · rw [List.mem_singleton.mp hid]
                exact Nat.lt_succ_self _
            · simp only [load, hinputs, List.length_append, List.length_cons, List.length_nil, Option.toList_some]
              omega
        · exact .inr ⟨_, _, rfl, ⟨h.ids, fun id hid => Nat.lt_succ_of_lt (h.fresh id hid), h.completes⟩, rfl, Nat.le_refl _⟩

/-- A request is delivered, as the last one. -/
theorem Sound.takeRequest (h : u.Sound) (tick : Nat) :
    (∃ e, takeRequest tick u = (.error e, u)) ∨
      ∃ r u', takeRequest tick u = (.ok r, u') ∧ u'.Sound ∧ u'.flight = u.flight ∧
        u'.load + r.toList.length ≤ u.load := by
  unfold UbReadInterface.takeRequest
  split
  · exact .inl ⟨_, rfl⟩
  · split
    · exact .inr ⟨_, _, rfl, h, rfl, Nat.le_refl _⟩
    · split
      · exact .inr ⟨_, _, rfl, ⟨h.ids, h.fresh, h.completes⟩, rfl, Nat.le_refl _⟩
      · rename_i request transport hpop
        obtain ⟨htransport, -⟩ := popFrontIf_eq_some.mp hpop
        have hids := h.ids
        have hfresh := h.fresh
        rw [htransport, List.map_cons] at hids hfresh
        have hlast : ∀ e ∈ u.delivered.entries, e.1 < request.id := fun e he =>
          (List.pairwise_append.mp hids).2.2 e.1 (List.mem_map_of_mem he) request.id List.mem_cons_self
        have hentries := OrdMap.entries_insert_last (v := request) hlast
        have hflight : flight { u with
            transport := transport
            delivered := u.delivered.insert request.id request
            receiveTick := some tick
            observedTick := some tick } = u.flight := by
          simp [flight, hentries, htransport]
        refine .inr ⟨_, _, rfl, ⟨?_, ?_, fun g hg => h.completes g (hflight ▸ hg)⟩, hflight, ?_⟩
        · dsimp only
          rw [hentries, List.map_append, List.append_assoc]
          exact hids
        · dsimp only
          rw [hentries, List.map_append, List.append_assoc]
          exact hfresh
        · simp only [load, hentries, htransport, List.length_append, List.length_cons, List.length_nil, Option.toList_some]
          omega

/-- The oldest request is answered. -/
theorem Sound.receiveResponse (h : u.Sound) (tick id : Nat)
    (hfirst : ∀ r, u.delivered.get? id = some r → u.delivered.first? = some (id, r)) :
    (∃ e, receiveResponse tick id u = (.error e, u)) ∨
      ∃ r u', receiveResponse tick id u = (.ok r, u') ∧ u'.Sound ∧ u'.flight = u.flight ∧ u'.load < u.load := by
  unfold UbReadInterface.receiveResponse
  split
  · exact .inl ⟨_, rfl⟩
  · cases hget : u.delivered.get? id with
    | none => exact .inl ⟨_, rfl⟩
    | some request =>
      dsimp only
      split
      · exact .inl ⟨_, rfl⟩
      · rename_i readyTick _
        obtain ⟨rest, hentries⟩ := List.head?_eq_some_iff.mp (hfirst request hget)
        have herase := OrdMap.erase_first hentries
        have hcompletes : request.fragment.completesRead = true := by
          refine h.completes _ ?_
          unfold flight
          rw [hentries]
          simp
        rw [if_pos hcompletes]
        have hflight : flight { u with
            delivered := u.delivered.erase id
            acknowledgments := u.acknowledgments ++ [⟨readyTick, request⟩]
            responseTick := some tick
            observedTick := some tick } = u.flight := by
          simp [flight, herase, hentries]
        have hids := h.ids
        have hfresh := h.fresh
        rw [hentries, List.map_cons, List.cons_append] at hids hfresh
        refine .inr ⟨_, _, rfl, ⟨?_, fun j hj => ?_, fun g hg => h.completes g (hflight ▸ hg)⟩, hflight, ?_⟩
        · dsimp only
          rw [herase]
          exact (List.pairwise_cons.mp hids).2
        · dsimp only at hj
          rw [herase] at hj
          exact hfresh j (List.mem_cons_of_mem _ hj)
        · simp only [load, herase, hentries, List.length_append, List.length_cons, List.length_nil]
          omega

/-- The oldest fragment leaves, if it is `tag`'s. -/
theorem Sound.takeCompletion (h : u.Sound) (tick tag : Nat) :
    (∃ e, takeCompletion tick tag u = (.error e, u) ∧ u.timeReversed tick ≠ none) ∨
      (∃ u', takeCompletion tick tag u = (.ok none, u') ∧ u'.Sound ∧ u'.flight = u.flight ∧ u'.load = u.load) ∨
      ∃ a u' f, takeCompletion tick tag u = (.ok (some a), u') ∧ u'.Sound ∧ u.flight = f :: u'.flight ∧ f.tag = tag ∧
        u'.load < u.load := by
  unfold UbReadInterface.takeCompletion
  split
  · rename_i hreversed
    exact .inl ⟨_, rfl, by rw [hreversed]; exact nofun⟩
  · split
    · exact .inr (.inl ⟨_, rfl, ⟨h.ids, h.fresh, h.completes⟩, rfl, rfl⟩)
    · rename_i acknowledgment acknowledgments hpop
      obtain ⟨hacks, hhead⟩ := popFrontIf_eq_some.mp hpop
      have htag := of_decide_eq_true (Bool.and_eq_true_iff.mp hhead).2
      have hflight : u.flight = acknowledgment.request.fragment ::
          flight { u with acknowledgments := acknowledgments, observedTick := some tick } := by
        simp [flight, hacks]
      refine .inr (.inr ⟨_, _, acknowledgment.request.fragment, rfl, ⟨h.ids, h.fresh, fun g hg => h.completes g ?_⟩,
        hflight, htag, ?_⟩)
      · rw [hflight]
        exact List.mem_cons_of_mem _ hg
      · simp only [load, hacks, List.length_cons]
        omega

/-! ## Progress -/

theorem push_joins (h : u.Timely tick 4) (hroom : u.inputs = []) : (push tick f u).1 = .ok true := by
  unfold push
  rw [h.not_reversed, h.add]
  dsimp only
  rw [if_neg (by unfold canPush; rw [hroom]; exact nofun)]

theorem send_moves (h : u.Timely tick 1) (hsend : u.sendTick ≠ some tick) (hid : u.nextId + 1 < u64) {i : UbReadEntry}
    {inputs : List UbReadEntry} (hinputs : u.inputs = i :: inputs) (hready : i.readyTick ≤ tick)
    (hroom : u.transport = []) : ∃ r, (send tick u).1 = .ok (some r) := by
  unfold send checkCallback
  rw [h.not_reversed]
  dsimp only
  rw [if_neg hsend, popFrontIf_eq_some.mpr ⟨hinputs, decide_eq_true hready⟩, checkedAdd_eq_some.mpr ⟨hid, rfl⟩, h.add, hroom]
  exact ⟨_, rfl⟩

theorem takeRequest_moves (h : u.Timely tick 0) (hreceive : u.receiveTick ≠ some tick) {r : UbReadRequest}
    {transport : List UbReadRequest} (htransport : u.transport = r :: transport) (hready : r.readyTick ≤ tick) :
    (takeRequest tick u).1 = .ok (some r) := by
  unfold takeRequest
  rw [h.not_reversed]
  dsimp only
  rw [if_neg hreceive, popFrontIf_eq_some.mpr ⟨htransport, decide_eq_true hready⟩]

theorem receiveResponse_moves (h : u.Timely tick 3) (hresponse : u.responseTick ≠ some tick) {r : UbReadRequest}
    (hdelivered : u.delivered.get? id = some r) : (receiveResponse tick id u).1 = .ok r := by
  unfold receiveResponse checkCallback
  rw [h.not_reversed]
  dsimp only
  rw [if_neg hresponse, hdelivered, h.add]

theorem takeCompletion_takes (h : u.Timely tick 0) {a : UbReadAcknowledgment} {acknowledgments : List UbReadAcknowledgment}
    (hacks : u.acknowledgments = a :: acknowledgments) (hready : a.readyTick ≤ tick) (htag : a.request.fragment.tag = tag) :
    (takeCompletion tick tag u).1 = .ok (some a) := by
  unfold takeCompletion
  rw [h.not_reversed]
  dsimp only
  rw [popFrontIf_eq_some.mpr ⟨hacks, by rw [decide_eq_true hready, decide_eq_true htag]; rfl⟩]

/-- Nothing happened after `tick`, and everything is ready by `bound`. -/
structure Settled (u : UbReadInterface) (tick bound : Nat) : Prop where
  observed : ∀ t, u.observedTick = some t → t ≤ tick
  send : ∀ t, u.sendTick = some t → t ≤ tick
  receive : ∀ t, u.receiveTick = some t → t ≤ tick
  response : ∀ t, u.responseTick = some t → t ≤ tick
  inputs : ∀ e ∈ u.inputs, e.readyTick ≤ bound
  transport : ∀ r ∈ u.transport, r.readyTick ≤ bound
  acknowledgments : ∀ a ∈ u.acknowledgments, a.readyTick ≤ bound

theorem settled_empty : empty.Settled tick bound :=
  ⟨fun _ h => absurd h.symm (Option.some_ne_none _), fun _ h => absurd h.symm (Option.some_ne_none _),
    fun _ h => absurd h.symm (Option.some_ne_none _), fun _ h => absurd h.symm (Option.some_ne_none _),
    fun _ h => absurd h List.not_mem_nil, fun _ h => absurd h List.not_mem_nil, fun _ h => absurd h List.not_mem_nil⟩

theorem now_le {tick t : Nat} (h : some tick = some t) : t ≤ tick := Nat.le_of_eq (Option.some.inj h).symm

theorem Settled.push (h : u.Settled tick bound) (hbound : tick + 4 ≤ bound) (f : UbReadFragment) :
    (push tick f u).2.Settled tick bound := by
  unfold UbReadInterface.push
  split
  · exact h
  · split
    · exact h
    · split
      · exact h
      · rename_i readyTick hready
        obtain ⟨-, rfl⟩ := checkedAdd_eq_some.mp hready
        refine ⟨fun t => now_le, h.send, h.receive, h.response, fun e he => ?_, h.transport, h.acknowledgments⟩
        rcases List.mem_append.mp he with he | he
        · exact h.inputs e he
        · rw [List.mem_singleton.mp he]
          exact hbound

theorem Settled.sent (h : u.Settled tick bound) (hbound : tick + 4 ≤ bound) :
    (UbReadInterface.send tick u).2.Settled tick bound := by
  unfold UbReadInterface.send
  split
  · exact h
  · split
    · exact ⟨fun t => now_le, fun t => now_le, h.receive, h.response, h.inputs, h.transport, h.acknowledgments⟩
    · rename_i head inputs hpop
      obtain ⟨hinputs, -⟩ := popFrontIf_eq_some.mp hpop
      split
      · exact h
      · split
        · split
          · exact h
          · rename_i readyTick hready
            obtain ⟨-, rfl⟩ := checkedAdd_eq_some.mp hready
            refine ⟨fun t => now_le, fun t => now_le, h.receive, h.response,
              fun e he => h.inputs e (by rw [hinputs]; exact List.mem_cons_of_mem _ he), fun r hr => ?_, h.acknowledgments⟩
            rcases List.mem_append.mp hr with hr | hr
            · exact h.transport r hr
            · rw [List.mem_singleton.mp hr]
              show tick + 1 ≤ bound
              omega
        · exact ⟨fun t => now_le, fun t => now_le, h.receive, h.response, h.inputs, h.transport, h.acknowledgments⟩

theorem Settled.takeRequest (h : u.Settled tick bound) : (takeRequest tick u).2.Settled tick bound := by
  unfold UbReadInterface.takeRequest
  split
  · exact h
  · split
    · exact h
    · split
      · exact ⟨fun t => now_le, h.send, h.receive, h.response, h.inputs, h.transport, h.acknowledgments⟩
      · rename_i request transport hpop
        obtain ⟨htransport, -⟩ := popFrontIf_eq_some.mp hpop
        exact ⟨fun t => now_le, h.send, fun t => now_le, h.response, h.inputs,
          fun r hr => h.transport r (by rw [htransport]; exact List.mem_cons_of_mem _ hr), h.acknowledgments⟩

theorem Settled.receiveResponse (h : u.Settled tick bound) (hbound : tick + 4 ≤ bound) (id : Nat) :
    (receiveResponse tick id u).2.Settled tick bound := by
  unfold UbReadInterface.receiveResponse
  split
  · exact h
  · split
    · exact h
    · split
      · exact h
      · rename_i request _ readyTick hready
        obtain ⟨-, rfl⟩ := checkedAdd_eq_some.mp hready
        refine ⟨fun t => now_le, h.send, h.receive, fun t => now_le, h.inputs, h.transport, fun a ha => ?_⟩
        dsimp only at ha
        split at ha
        · rcases List.mem_append.mp ha with ha | ha
          · exact h.acknowledgments a ha
          · rw [List.mem_singleton.mp ha]
            show tick + 3 ≤ bound
            omega
        · exact h.acknowledgments a ha

theorem Settled.takeCompletion (h : u.Settled tick bound) (tag : Nat) :
    (takeCompletion tick tag u).2.Settled tick bound := by
  unfold UbReadInterface.takeCompletion
  split
  · exact h
  · split
    · exact ⟨fun t => now_le, h.send, h.receive, h.response, h.inputs, h.transport, h.acknowledgments⟩
    · rename_i acknowledgment acknowledgments hpop
      obtain ⟨hacks, -⟩ := popFrontIf_eq_some.mp hpop
      exact ⟨fun t => now_le, h.send, h.receive, h.response, h.inputs, h.transport,
        fun a ha => h.acknowledgments a (by rw [hacks]; exact List.mem_cons_of_mem _ ha)⟩

theorem Settled.mono {tick' bound' : Nat} (h : u.Settled tick bound) (ht : tick ≤ tick') (hb : bound ≤ bound') :
    u.Settled tick' bound' :=
  ⟨fun t hm => (h.observed t hm).trans ht, fun t hm => (h.send t hm).trans ht, fun t hm => (h.receive t hm).trans ht,
    fun t hm => (h.response t hm).trans ht, fun e he => (h.inputs e he).trans hb, fun r hr => (h.transport r hr).trans hb,
    fun a ha => (h.acknowledgments a ha).trans hb⟩

/-- Everything before `tick` is settled: a call at `tick` is timely, and the first at it. -/
theorem Settled.timely (h : u.Settled bound tick) (hlt : bound < tick) {n : Nat} (hn : tick + n < u64) :
    u.Timely tick n := ⟨fun t ht => (h.observed t ht).trans (Nat.le_of_lt hlt), hn⟩

theorem ne_now {o : Option Nat} (h : ∀ t, o = some t → t ≤ bound) (hlt : bound < tick) : o ≠ some tick := by
  intro ho
  have := h tick ho
  omega

/-! ### Ids -/

theorem push_nextId : (push tick f u).2.nextId = u.nextId := by
  unfold push
  repeat' split
  all_goals rfl

theorem send_nextId : (send tick u).2.nextId ≤ u.nextId + 1 := by
  unfold send
  split
  · exact Nat.le_succ _
  · split
    · exact Nat.le_succ _
    · split
      · exact Nat.le_succ _
      · rename_i hnext
        obtain ⟨-, rfl⟩ := checkedAdd_eq_some.mp hnext
        split
        · split
          · exact Nat.le_succ _
          · exact Nat.le_refl _
        · exact Nat.le_refl _

theorem takeRequest_nextId : (takeRequest tick u).2.nextId = u.nextId := by
  unfold takeRequest
  repeat' split
  all_goals rfl

theorem receiveResponse_nextId : (receiveResponse tick id u).2.nextId = u.nextId := by
  unfold receiveResponse
  repeat' split
  all_goals rfl

theorem takeCompletion_nextId : (takeCompletion tick tag u).2.nextId = u.nextId := by
  unfold takeCompletion
  repeat' split
  all_goals rfl

/-! ### Nothing to move -/

theorem takeRequest_idle (h : u.Timely tick 0) (hreceive : u.receiveTick ≠ some tick) (hidle : u.transport = []) :
    takeRequest tick u = (.ok none, { u with observedTick := some tick }) := by
  unfold takeRequest
  rw [h.not_reversed, hidle]
  dsimp only
  rw [if_neg hreceive]
  rfl

theorem send_idle (h : u.Timely tick 0) (hsend : u.sendTick ≠ some tick) (hidle : u.inputs = []) :
    send tick u = (.ok none, { u with sendTick := some tick, observedTick := some tick }) := by
  unfold send checkCallback
  rw [h.not_reversed, hidle]
  dsimp only
  rw [if_neg hsend]
  rfl

end UbReadInterface

end AscendEmulator.C220.Mte
