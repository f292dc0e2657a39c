/-
  AscendEmulator.C220.Lsu.PortQueueProofs — credits, FIFOs and the life of a request in the read and the write queue;
  and when the write queue's hazards are exact.

  `Inv` ties the counter and the FIFOs to the requests. A request has passed a prefix of its four stages, which is what
  the trace says happened to it (`Lived`), and a port's sends are at increasing ticks (`Paced`).
-/

import AscendEmulator.C220.Lsu.PortQueue

namespace AscendEmulator.C220.Lsu

open Lib

inductive PortStage where
  | enqueued | sent | begun | finished
  deriving DecidableEq, Repr

/-- The stages behind a request that is in a state. -/
def PortState.passed : PortState → List PortStage
  | queued => [.enqueued]
  | inFlight => [.enqueued, .sent]
  | responding => [.enqueued, .sent, .begun]

/-- A call, with what it returned. -/
abbrev PortEvent (ω β : Type) := PortCall ω × Except (Fault PortError) (PortReply ω β)

namespace PortEvent

variable {ω β : Type}

def enqueued : PortEvent ω β → List Nat
  | (.enqueue _ _, .ok (.enqueued id)) => [id]
  | _ => []

/-- The tick and the port of what a dispatch sent. -/
def sends : PortEvent ω β → List (Nat × LsuMemory)
  | (.dispatchClock tick _ _, .ok (.sent requests)) => requests.map fun r => (tick, r.line.memory)
  | _ => []

/-- What a call did to a request. -/
def stages (id : Nat) : PortEvent ω β → List PortStage
  | (.enqueue _ _, .ok (.enqueued id')) => if id' = id then [.enqueued] else []
  | (.dispatchClock _ _ _, .ok (.sent requests)) => (requests.filter (·.id = id)).map fun _ => .sent
  | (.beginResponse id', .ok (.begun _)) => if id' = id then [.begun] else []
  | (.finishResponse id', .ok .finished) => if id' = id then [.finished] else []
  | _ => []

end PortEvent

namespace PortQueue

variable {ω β : Type} {q q' : PortQueue ω} {id : Nat} {r : PortRequest ω}

/-! ## The invariant -/

/-- The queued requests of a port, oldest first. -/
def waiting (q : PortQueue ω) (port : LsuMemory) : List Nat :=
  (q.requests.entries.filter fun e => e.2.state = .queued ∧ e.2.line.memory = port).map Prod.fst

/-- How many requests are in flight. -/
def inFlight (q : PortQueue ω) : Nat := (q.requests.entries.filter fun e => e.2.state = .inFlight).length

def flying (_ : Nat) (r : PortRequest ω) : Nat := if r.state = .inFlight then 1 else 0

theorem inFlight_eq_sum (q : PortQueue ω) : q.inFlight = q.requests.sum flying := by
  unfold inFlight OrdMap.sum Assoc.sum
  generalize q.requests.entries = entries
  induction entries with
  | nil => rfl
  | cons e entries ih =>
    rw [List.filter_cons, List.map_cons, List.sum_cons, ← ih]
    unfold flying
    by_cases hs : e.2.state = .inFlight
    · simp [hs, Nat.add_comm]
    · simp [hs]

/-- The stages a request has passed. It is gone after the last. -/
def passed (q : PortQueue ω) (id : Nat) : List PortStage :=
  match q.request id with
  | some r => r.state.passed
  | none => if id < q.nextId then [.enqueued, .sent, .begun, .finished] else []

structure Inv (q : PortQueue ω) : Prop where
  own : ∀ id r, q.request id = some r → r.id = id ∧ id < q.nextId
  sorted : ∀ port, (q.queues port).Pairwise (· < ·)
  queued : ∀ port id, id ∈ q.queues port ↔ ∃ r, q.request id = some r ∧ r.state = .queued ∧ r.line.memory = port
  credit : q.outstanding = q.inFlight
  bound : q.outstanding ≤ q.capacity
  clock : ∀ tick, q.lastDispatch = some tick → tick ≤ q.tick

theorem inv_new (capacity : UInt32) (lineBytes : Nat) : Inv (new capacity lineBytes : PortQueue ω) where
  own _ _ h := absurd h.symm (Option.some_ne_none _)
  sorted _ := .nil
  queued _ _ := ⟨fun h => absurd h List.not_mem_nil, fun ⟨_, h, _⟩ => absurd h.symm (Option.some_ne_none _)⟩
  credit := rfl
  bound := Nat.zero_le _
  clock _ h := absurd h.symm (Option.some_ne_none _)

theorem mem_waiting {port : LsuMemory} :
    id ∈ q.waiting port ↔ ∃ r, q.request id = some r ∧ r.state = .queued ∧ r.line.memory = port := by
  unfold waiting request
  constructor
  · intro h
    obtain ⟨⟨id', r⟩, he, rfl⟩ := List.mem_map.mp h
    obtain ⟨he, hr⟩ := List.mem_filter.mp he
    exact ⟨r, OrdMap.mem_entries.mp he, by simpa using hr⟩
  · rintro ⟨r, hr, hs⟩
    exact List.mem_map.mpr ⟨(id, r), List.mem_filter.mpr ⟨OrdMap.mem_entries.mpr hr, by simpa using hs⟩, rfl⟩

theorem sorted_waiting (q : PortQueue ω) (port : LsuMemory) : (q.waiting port).Pairwise (· < ·) :=
  List.pairwise_map.mpr (q.requests.sorted.filter _)

/-- A FIFO holds the queued requests of its port, in the order of their ids. -/
theorem Inv.fifo (h : q.Inv) (port : LsuMemory) : q.queues port = q.waiting port := by
  refine List.Perm.eq_of_pairwise (fun a b _ _ (hab : a < b) hba => absurd hba (Nat.lt_asymm hab)) (h.sorted port)
    (q.sorted_waiting port) ?_
  refine (List.perm_ext_iff_of_nodup ((h.sorted port).imp fun hab => Nat.ne_of_lt hab)
    ((q.sorted_waiting port).imp fun hab => Nat.ne_of_lt hab)).mpr fun id => ?_
  rw [h.queued, mem_waiting]

theorem Inv.head (h : q.Inv) {port : LsuMemory} {queue : List Nat} (hq : q.queues port = id :: queue) :
    ∃ r, q.request id = some r ∧ r.state = .queued ∧ r.line.memory = port :=
  (h.queued port id).mp (by rw [hq]; exact List.mem_cons_self)

theorem Inv.fresh_absent (h : q.Inv) : q.request q.nextId = none := by
  cases hr : q.request q.nextId with
  | none => rfl
  | some r => exact absurd (h.own _ _ hr).2 (Nat.lt_irrefl _)

/-- The clocks are of no matter to the requests. -/
theorem Inv.clocked (h : q.Inv) {tick : Nat} {last : Option Nat} (hlast : ∀ t, last = some t → t ≤ tick) :
    Inv { q with tick, lastDispatch := last } :=
  ⟨h.own, h.sorted, h.queued, h.credit, h.bound, hlast⟩

theorem passed_congr (hr : q'.request id = q.request id) (hn : q'.nextId = q.nextId) : q'.passed id = q.passed id := by
  unfold passed
  rw [hr, hn]

theorem passed_of_request (hr : q.request id = some r) : q.passed id = r.state.passed := by
  unfold passed
  rw [hr]

theorem request_insert {q : PortQueue ω} {j : Nat} (r : PortRequest ω) :
    (q.requests.insert id r).get? j = if j = id then some r else q.request j := OrdMap.get?_insert

/-! ## Enqueue -/

theorem enqueue_cases (exhausted : PortError) (line : LineKey) (origin : ω) (q : PortQueue ω) :
    (∃ e, enqueue exhausted line origin q = (Outcome.fail e, q)) ∨
      enqueue exhausted line origin q = (.ok q.nextId,
        { q with
          nextId := q.nextId + 1
          requests := q.requests.insert q.nextId (q.fresh line origin)
          queues := Function.update q.queues line.memory (q.queues line.memory ++ [q.nextId]) }) := by
  unfold enqueue
  split
  · exact .inl ⟨_, rfl⟩
  · exact .inr rfl

variable {line : LineKey} {origin : ω}

theorem Inv.enqueue (h : q.Inv) :
    Inv { q with
      nextId := q.nextId + 1
      requests := q.requests.insert q.nextId (q.fresh line origin)
      queues := Function.update q.queues line.memory (q.queues line.memory ++ [q.nextId]) } where
  own id r hr := by
    change (q.requests.insert _ _).get? id = some r at hr
    rw [request_insert] at hr
    split at hr
    · rename_i hid
      cases hr
      exact ⟨hid.symm, hid ▸ Nat.lt_succ_self _⟩
    · exact ⟨(h.own _ _ hr).1, Nat.lt_succ_of_lt (h.own _ _ hr).2⟩
  sorted port := by
    change (Function.update q.queues line.memory _ port).Pairwise (· < ·)
    by_cases hp : port = line.memory
    · subst hp
      rw [Function.update_self]
      refine List.pairwise_append.mpr ⟨h.sorted _, List.pairwise_singleton _ _, fun a ha b hb => ?_⟩
      obtain rfl := List.mem_singleton.mp hb
      obtain ⟨r, hr, -⟩ := (h.queued _ a).mp ha
      exact (h.own _ _ hr).2
    · rw [Function.update_of_ne hp]
      exact h.sorted port
  queued port id := by
    change id ∈ Function.update q.queues line.memory _ port ↔ ∃ r, (q.requests.insert _ _).get? id = some r ∧ _
    rw [request_insert]
    by_cases hid : id = q.nextId
    · subst hid
      have habsent : ∀ port, q.nextId ∉ q.queues port := fun port hm => by
        obtain ⟨r, hr, -⟩ := (h.queued port _).mp hm
        exact absurd (h.own _ _ hr).2 (Nat.lt_irrefl _)
      by_cases hp : port = line.memory
      · subst hp
        simp [fresh]
      · simp [hp, habsent, fresh, Ne.symm hp]
    · rw [if_neg hid, ← h.queued]
      by_cases hp : port = line.memory
      · subst hp
        simp [hid]
      · simp [hp]
  credit := by
    have hsum := q.requests.sum_insert_new (v := q.fresh line origin) flying h.fresh_absent
    rw [inFlight_eq_sum]
    exact (h.credit.trans q.inFlight_eq_sum).trans hsum.symm
  bound := h.bound
  clock := h.clock

theorem passed_enqueue (h : q.Inv) (id : Nat) :
    passed { q with
      nextId := q.nextId + 1
      requests := q.requests.insert q.nextId (q.fresh line origin)
      queues := Function.update q.queues line.memory (q.queues line.memory ++ [q.nextId]) } id =
      q.passed id ++ if q.nextId = id then [.enqueued] else [] := by
  by_cases hid : q.nextId = id
  · subst hid
    have hnone : q.passed q.nextId = [] := by
      unfold passed
      rw [h.fresh_absent, if_neg (Nat.lt_irrefl _)]
    rw [hnone, if_pos rfl]
    exact passed_of_request (r := q.fresh line origin) OrdMap.get?_insert_self
  · rw [if_neg hid, List.append_nil]
    unfold passed request
    simp only [OrdMap.get?_insert_ne (Ne.symm hid)]
    have hlt : id < q.nextId + 1 ↔ id < q.nextId := by omega
    simp only [hlt]

/-! ## Dispatch -/

/-- The queue after the head of a port is sent. -/
def sendHead (q : PortQueue ω) (port : LsuMemory) (queue : List Nat) (r : PortRequest ω) : PortQueue ω :=
  { q with
    queues := Function.update q.queues port queue
    requests := q.requests.insert r.id { r with state := .inFlight }
    outstanding := q.outstanding + 1 }

/-- What a port's turn is on. -/
structure Head (q : PortQueue ω) (port : LsuMemory) (queue : List Nat) (r : PortRequest ω) : Prop where
  credit : q.outstanding < q.capacity
  queue : q.queues port = r.id :: queue
  request : q.request r.id = some r
  state : r.state = .queued
  port : r.line.memory = port

theorem sendPort_cases (h : q.Inv) (port : LsuMemory) (accepts : Bool) :
    sendPort port accepts q = (.ok [], q) ∨ ∃ queue r, Head q port queue r ∧
      sendPort port accepts q = (.ok [{ r with state := .inFlight }], q.sendHead port queue r) := by
  unfold sendPort
  split
  · exact .inl rfl
  · rename_i hturn
    rcases hq : q.queues port with _ | ⟨id, queue⟩
    · exact .inl rfl
    · obtain ⟨r, hr, hstate, hport⟩ := h.head hq
      obtain rfl := (h.own _ _ hr).1
      have hcredit : q.outstanding < q.capacity := by
        by_contra hn
        exact hturn (.inl (Nat.le_of_not_lt hn))
      exact .inr ⟨queue, r, ⟨hcredit, hq, hr, hstate, hport⟩, by simp only [hr]; rfl⟩

variable {port : LsuMemory} {queue : List Nat}

theorem Inv.sendHead (h : q.Inv) (hd : Head q port queue r) : (q.sendHead port queue r).Inv where
  own id r' hr' := by
    change (q.requests.insert _ _).get? id = some r' at hr'
    rw [request_insert] at hr'
    split at hr'
    · rename_i hid
      cases hr'
      exact ⟨hid.symm, hid ▸ (h.own _ _ hd.request).2⟩
    · exact h.own _ _ hr'
  sorted port' := by
    change (Function.update q.queues port queue port').Pairwise (· < ·)
    by_cases hp : port' = port
    · subst hp
      rw [Function.update_self]
      exact (hd.queue ▸ h.sorted port').of_cons
    · rw [Function.update_of_ne hp]
      exact h.sorted port'
  queued port' id := by
    change id ∈ Function.update q.queues port queue port' ↔ ∃ r', (q.requests.insert _ _).get? id = some r' ∧ _
    have hsorted := List.pairwise_cons.mp (hd.queue ▸ h.sorted port)
    rw [request_insert]
    by_cases hid : id = r.id
    · subst hid
      have hgone : r.id ∉ Function.update q.queues port queue port' := by
        by_cases hp : port' = port
        · subst hp
          rw [Function.update_self]
          exact fun hm => Nat.lt_irrefl _ (hsorted.1 _ hm)
        · rw [Function.update_of_ne hp, h.queued]
          rintro ⟨r', hr', -, hport⟩
          obtain rfl := Option.some.inj (hr'.symm.trans hd.request)
          exact hp (hport.symm.trans hd.port)
      simp [hgone]
    · rw [if_neg hid, ← h.queued]
      by_cases hp : port' = port
      · subst hp
        rw [Function.update_self, hd.queue]
        simp [hid]
      · rw [Function.update_of_ne hp]
  credit := by
    have hsum := q.requests.sum_insert_some (v := { r with state := .inFlight }) flying hd.request
    have hbefore : flying r.id r = 0 := if_neg (by rw [hd.state]; decide)
    have hafter : flying r.id { r with state := .inFlight } = 1 := if_pos rfl
    have hcredit := h.credit
    rw [inFlight_eq_sum] at hcredit ⊢
    show q.outstanding + 1 = (q.requests.insert _ _).sum flying
    omega
  bound := hd.credit
  clock := h.clock

theorem passed_sendHead (hd : Head q port queue r) (id : Nat) :
    (q.sendHead port queue r).passed id = q.passed id ++ if r.id = id then [.sent] else [] := by
  by_cases hid : r.id = id
  · subst hid
    have hsent : (q.sendHead port queue r).request r.id = some { r with state := .inFlight } := OrdMap.get?_insert_self
    rw [passed_of_request hsent, passed_of_request hd.request, if_pos rfl, hd.state]
    rfl
  · rw [if_neg hid, List.append_nil]
    exact passed_congr (OrdMap.get?_insert_ne (Ne.symm hid)) rfl

/-- The tick at which the oldest head was enqueued. -/
def oldestHead (q : PortQueue ω) : Option Nat := ((q.heads.filterMap q.request).map (·.queuedTick)).min?

theorem Inv.heads (h : q.Inv) : ∃ heads, q.heads.mapM q.request = some heads ∧ q.heads.filterMap q.request = heads := by
  have hall : ∀ id ∈ q.heads, (q.request id).isSome = true := by
    intro id hid
    obtain ⟨port, -, hhead⟩ := List.mem_filterMap.mp hid
    obtain ⟨queue, hq⟩ : ∃ queue, q.queues port = id :: queue := by
      cases hq : q.queues port with
      | nil => rw [hq] at hhead; cases hhead
      | cons id' queue => rw [hq] at hhead; cases hhead; exact ⟨queue, rfl⟩
    obtain ⟨r, hr, -⟩ := h.head hq
    rw [hr]
    rfl
  generalize q.heads = ids at hall
  induction ids with
  | nil => exact ⟨[], rfl, rfl⟩
  | cons id ids ih =>
    obtain ⟨heads, hm, hf⟩ := ih fun id' hid' => hall id' (List.mem_cons_of_mem _ hid')
    obtain ⟨r, hr⟩ := Option.isSome_iff_exists.mp (hall id List.mem_cons_self)
    refine ⟨r :: heads, ?_, ?_⟩
    · rw [List.mapM_cons, hr, hm]
      rfl
    · rw [List.filterMap_cons_some hr, hf]

theorem Inv.nextReadyTick (h : q.Inv) : ∃ ready, q.nextReadyTick = .ok ready := by
  obtain ⟨heads, hm, -⟩ := h.heads
  unfold PortQueue.nextReadyTick
  split
  · exact ⟨_, rfl⟩
  · rw [hm]
    exact ⟨_, rfl⟩

/-- A head is ready after the tick at which the oldest was enqueued. -/
theorem Inv.aged (h : q.Inv) {ready tick : Nat} (hr : q.nextReadyTick = .ok (some ready)) (ht : ready ≤ tick) :
    ∃ t, q.oldestHead = some t ∧ t < tick := by
  obtain ⟨heads, hm, hf⟩ := h.heads
  unfold PortQueue.nextReadyTick at hr
  rw [hm] at hr
  split at hr
  · cases hr
  · rename_i next _
    obtain ⟨r, hmem, hready⟩ := List.mem_filterMap.mp (List.min?_mem (Except.ok.inj hr))
    obtain ⟨after, hafter, hmax⟩ := Option.map_eq_some_iff.mp hready
    obtain ⟨-, rfl⟩ := checkedAdd_eq_some.mp hafter
    have hlt : r.queuedTick < tick := by omega
    have hold : r.queuedTick ∈ heads.map (·.queuedTick) := List.mem_map_of_mem hmem
    unfold oldestHead
    rw [hf]
    cases hmin : (heads.map (·.queuedTick)).min? with
    | none => rw [List.min?_eq_none_iff.mp hmin] at hold; exact absurd hold List.not_mem_nil
    | some t => exact ⟨t, rfl, Nat.lt_of_le_of_lt ((List.min?_eq_some_iff.mp hmin).2 _ hold) hlt⟩

/-- What a port's turn does. -/
structure Turn (port : LsuMemory) (q : PortQueue ω) (sent : List (PortRequest ω)) (q' : PortQueue ω) : Prop where
  inv : q'.Inv
  passed : ∀ id, q'.passed id = q.passed id ++ (sent.filter (·.id = id)).map fun _ => .sent
  port : ∀ r ∈ sent, r.line.memory = port
  single : sent.length ≤ 1
  clocks : q'.tick = q.tick ∧ q'.lastDispatch = q.lastDispatch ∧ q'.nextId = q.nextId
  kept : ∀ id r, q.request id = some r → ∃ state, q'.request id = some { r with state }

theorem kept_refl (q : PortQueue ω) (id : Nat) (r r' : PortRequest ω) (hr : q.request id = some r)
    (hr' : q.request id = some r') : r' = { r with state := r'.state } := by
  obtain rfl := Option.some.inj (hr.symm.trans hr')
  rfl

/-- A request in a new state is the request. -/
theorem kept_insert {requests : OrdMap Nat (PortRequest ω)} (hr : q.request id = some r) (state : PortState)
    (hq : requests = q.requests.insert id { r with state }) (j : Nat) (s s' : PortRequest ω) (hs : q.request j = some s)
    (hs' : requests.get? j = some s') : s' = { s with state := s'.state } := by
  subst hq
  rw [request_insert] at hs'
  split at hs'
  · rename_i hj
    subst hj
    obtain rfl := Option.some.inj (hr.symm.trans hs)
    cases hs'
    rfl
  · exact kept_refl q j s s' hs hs'

theorem sendPort_turn (h : q.Inv) (port : LsuMemory) (accepts : Bool) :
    ∃ sent q', sendPort port accepts q = (.ok sent, q') ∧ Turn port q sent q' := by
  obtain hs | ⟨queue, r, hd, hs⟩ := sendPort_cases h port accepts
  · exact ⟨_, _, hs, h, fun id => (List.append_nil _).symm, fun _ hr => absurd hr List.not_mem_nil, Nat.zero_le _,
      ⟨rfl, rfl, rfl⟩, fun id r hr => ⟨r.state, hr⟩⟩
  · refine ⟨_, _, hs, h.sendHead hd, fun id => ?_, fun r' hr' => ?_, Nat.le_refl _, ⟨rfl, rfl, rfl⟩, fun id r' hr' => ?_⟩
    · rw [passed_sendHead hd]
      by_cases hid : r.id = id
      · simp [hid]
      · simp [hid]
    · obtain rfl := List.mem_singleton.mp hr'
      exact hd.port
    · by_cases hid : id = r.id
      · subst hid
        obtain rfl := Option.some.inj (hr'.symm.trans hd.request)
        exact ⟨.inFlight, OrdMap.get?_insert_self⟩
      · exact ⟨r'.state, (OrdMap.get?_insert_ne hid).trans hr'⟩

/-- A clock either fails, sends nothing, or is aged and gives both ports their turn. -/
theorem dispatchClock_cases (h : q.Inv) (tick : Nat) (ub external : Bool) :
    (∃ e, dispatchClock tick ub external q = (Outcome.fail e, q)) ∨
      (q.tick ≤ tick ∧ dispatchClock tick ub external q = (.ok [], { q with tick })) ∨
      (q.tick ≤ tick ∧ q.lastDispatch ≠ some tick ∧ (∃ t, q.oldestHead = some t ∧ t < tick) ∧
        ∃ sent₁ q₁ sent₂ q₂, Turn .ub { q with tick, lastDispatch := some tick } sent₁ q₁ ∧ Turn .external q₁ sent₂ q₂ ∧
          dispatchClock tick ub external q = (.ok (sent₁ ++ sent₂), q₂)) := by
  unfold dispatchClock timeReversed
  by_cases hreversed : tick < q.tick
  · rw [if_pos hreversed]
    exact .inl ⟨_, rfl⟩
  · rw [if_neg hreversed]
    obtain ⟨ready, hready⟩ := h.nextReadyTick
    simp only [hready]
    by_cases hidle : ready.any (· ≤ tick) = false ∨ q.lastDispatch = some tick
    · rw [if_pos hidle]
      exact .inr (.inl ⟨Nat.le_of_not_lt hreversed, rfl⟩)
    · rw [if_neg hidle]
      obtain ⟨hready', hlast⟩ := not_or.mp hidle
      obtain ⟨at', rfl, hle⟩ : ∃ at', ready = some at' ∧ at' ≤ tick := by
        cases ready with
        | none => exact absurd rfl hready'
        | some at' => exact ⟨at', rfl, by simpa using hready'⟩
      have h₀ : Inv { q with tick, lastDispatch := some tick } := h.clocked fun t ht => by cases ht; exact Nat.le_refl _
      obtain ⟨sent₁, q₁, hs₁, ht₁⟩ := sendPort_turn h₀ .ub ub
      obtain ⟨sent₂, q₂, hs₂, ht₂⟩ := sendPort_turn ht₁.inv .external external
      refine .inr (.inr ⟨Nat.le_of_not_lt hreversed, hlast, h.aged hready hle, sent₁, q₁, sent₂, q₂, ht₁, ht₂, ?_⟩)
      unfold Call.bind
      rw [hs₁]
      simp only [hs₂]

/-! ## Responses -/

/-- The queue after a request's response begins. -/
def begun (q : PortQueue ω) (id : Nat) (r : PortRequest ω) : PortQueue ω :=
  { q with requests := q.requests.insert id { r with state := .responding }, outstanding := q.outstanding - 1 }

theorem Inv.outstanding_pos (h : q.Inv) (hr : q.request id = some r) (hs : r.state = .inFlight) : 0 < q.outstanding := by
  have hle := q.requests.le_sum flying hr
  have hone : flying id r = 1 := if_pos hs
  rw [h.credit, inFlight_eq_sum]
  omega

theorem beginResponse_cases (h : q.Inv) (id : Nat) :
    (∃ e, beginResponse id q = (Outcome.fail e, q)) ∨ ∃ r, q.request id = some r ∧ r.state = .inFlight ∧
      beginResponse id q = (.ok { r with state := .responding }, q.begun id r) := by
  unfold beginResponse
  cases hr : q.request id with
  | none => exact .inl ⟨_, rfl⟩
  | some r =>
    by_cases hs : r.state = .inFlight
    · refine .inr ⟨r, rfl, hs, ?_⟩
      simp only [ne_eq, hs, not_true_eq_false, if_false, if_neg (Nat.ne_of_gt (h.outstanding_pos hr hs))]
      rfl
    · simp only [ne_eq, hs, not_false_eq_true, if_true]
      exact .inl ⟨_, rfl⟩

theorem finishResponse_cases (q : PortQueue ω) (id : Nat) :
    (∃ e, finishResponse id q = (Outcome.fail e, q)) ∨ ∃ r, q.request id = some r ∧ r.state = .responding ∧
      finishResponse id q = (.ok (), { q with requests := q.requests.erase id }) := by
  unfold finishResponse
  cases hr : q.request id with
  | none => exact .inl ⟨_, rfl⟩
  | some r =>
    by_cases hs : r.state = .responding
    · refine .inr ⟨r, rfl, hs, ?_⟩
      simp only [ne_eq, hs, not_true_eq_false, if_false]
    · simp only [ne_eq, hs, not_false_eq_true, if_true]
      exact .inl ⟨_, rfl⟩

theorem Inv.begun (h : q.Inv) (hr : q.request id = some r) (hs : r.state = .inFlight) : (q.begun id r).Inv where
  own j s hj := by
    change (q.requests.insert _ _).get? j = some s at hj
    rw [request_insert] at hj
    split at hj
    · rename_i hid
      subst hid
      cases hj
      exact ⟨(h.own _ _ hr).1, (h.own _ _ hr).2⟩
    · exact h.own _ _ hj
  sorted := h.sorted
  queued port j := by
    change j ∈ q.queues port ↔ ∃ s, (q.requests.insert _ _).get? j = some s ∧ _
    rw [request_insert, h.queued]
    by_cases hj : j = id
    · subst hj
      simp [hr, hs]
    · rw [if_neg hj]
  credit := by
    have hsum := q.requests.sum_insert_some (v := { r with state := .responding }) flying hr
    have hbefore : flying id r = 1 := if_pos hs
    have hafter : flying id { r with state := .responding } = 0 := if_neg nofun
    have hcredit := h.credit
    rw [inFlight_eq_sum] at hcredit ⊢
    show q.outstanding - 1 = (q.requests.insert _ _).sum flying
    omega
  bound := (Nat.sub_le _ _).trans h.bound
  clock := h.clock

theorem Inv.finished (h : q.Inv) (hr : q.request id = some r) (hs : r.state = .responding) :
    Inv { q with requests := q.requests.erase id } where
  own j s hj := by
    change (q.requests.erase _).get? j = some s at hj
    rw [OrdMap.get?_erase] at hj
    split at hj
    · cases hj
    · exact h.own _ _ hj
  sorted := h.sorted
  queued port j := by
    change j ∈ q.queues port ↔ ∃ s, (q.requests.erase _).get? j = some s ∧ _
    rw [OrdMap.get?_erase, h.queued]
    by_cases hj : j = id
    · subst hj
      simp [hr, hs]
    · rw [if_neg hj]
      rfl
  credit := by
    have hsum := q.requests.sum_erase_some flying hr
    have hbefore : flying id r = 0 := if_neg (by rw [hs]; nofun)
    have hcredit := h.credit
    rw [inFlight_eq_sum] at hcredit ⊢
    show q.outstanding = (q.requests.erase _).sum flying
    omega
  bound := h.bound
  clock := h.clock

theorem passed_begun (hr : q.request id = some r) (hs : r.state = .inFlight) (j : Nat) :
    (q.begun id r).passed j = q.passed j ++ if id = j then [.begun] else [] := by
  by_cases hj : id = j
  · subst hj
    have hbegun : (q.begun id r).request id = some { r with state := .responding } := OrdMap.get?_insert_self
    rw [passed_of_request hbegun, passed_of_request hr, if_pos rfl, hs]
    rfl
  · rw [if_neg hj, List.append_nil]
    exact passed_congr (OrdMap.get?_insert_ne (Ne.symm hj)) rfl

theorem passed_finished (h : q.Inv) (hr : q.request id = some r) (hs : r.state = .responding) (j : Nat) :
    passed { q with requests := q.requests.erase id } j = q.passed j ++ if id = j then [.finished] else [] := by
  by_cases hj : id = j
  · subst hj
    have hgone : passed { q with requests := q.requests.erase id } id = [.enqueued, .sent, .begun, .finished] := by
      have hnone : request { q with requests := q.requests.erase id } id = none := OrdMap.get?_erase_self
      unfold passed
      rw [hnone]
      exact if_pos (h.own _ _ hr).2
    rw [hgone, passed_of_request hr, if_pos rfl, hs]
    rfl
  · rw [if_neg hj, List.append_nil]
    exact passed_congr (OrdMap.get?_erase_ne (Ne.symm hj)) rfl

/-! ## Steps -/

/-- What one call does. -/
structure Step (q : PortQueue ω) (x : PortEvent ω β) (q' : PortQueue ω) : Prop where
  safe : x.2 ≠ .error .panicked
  inv : q'.Inv
  passed : ∀ id, q'.passed id = q.passed id ++ x.stages id
  ids : List.range q'.nextId = List.range q.nextId ++ x.enqueued
  /-- Sends are made at a tick after the last ones, one a port. -/
  later : ∀ a ∈ x.sends, (∀ t, q.lastDispatch = some t → t < a.1) ∧ q'.lastDispatch = some a.1
  apart : x.sends.Pairwise fun a b => a.2 ≠ b.2
  forward : ∀ t, q.lastDispatch = some t → ∃ t', q'.lastDispatch = some t' ∧ t ≤ t'
  aged : ∀ a ∈ x.sends, ∃ t, q.oldestHead = some t ∧ t < a.1
  /-- Only the state of a request changes. -/
  kept : ∀ id r r', q.request id = some r → q'.request id = some r' → r' = { r with state := r'.state }
  fresh : ∀ line origin, x.1 = .enqueue line origin → ∀ id ∈ x.enqueued, q'.request id = some (q.fresh line origin)

/-- A call that sends nothing. -/
theorem Step.quiet {x : PortEvent ω β} (hsafe : x.2 ≠ .error .panicked) (hinv : q'.Inv)
    (hpassed : ∀ id, q'.passed id = q.passed id ++ x.stages id)
    (hids : List.range q'.nextId = List.range q.nextId ++ x.enqueued) (hsends : x.sends = [])
    (hlast : q'.lastDispatch = q.lastDispatch)
    (hkept : ∀ id r r', q.request id = some r → q'.request id = some r' → r' = { r with state := r'.state })
    (hfresh : ∀ line origin, x.1 = .enqueue line origin → ∀ id ∈ x.enqueued, q'.request id = some (q.fresh line origin)) :
    Step q x q' where
  safe := hsafe
  inv := hinv
  passed := hpassed
  ids := hids
  later _ ha := absurd (hsends ▸ ha) List.not_mem_nil
  apart := hsends ▸ List.Pairwise.nil
  forward t ht := ⟨t, hlast.trans ht, Nat.le_refl t⟩
  aged _ ha := absurd (hsends ▸ ha) List.not_mem_nil
  kept := hkept
  fresh := hfresh

theorem Step.fail (h : q.Inv) (c : PortCall ω) (e : PortError) :
    Step q ((c, Outcome.fail e) : PortEvent ω β) q := by
  have hevents : ∀ id, PortEvent.stages id ((c, Outcome.fail e) : PortEvent ω β) = [] ∧
      PortEvent.enqueued ((c, Outcome.fail e) : PortEvent ω β) = [] ∧
      PortEvent.sends ((c, Outcome.fail e) : PortEvent ω β) = [] := by
    intro id
    cases c <;> exact ⟨rfl, rfl, rfl⟩
  exact .quiet nofun h (fun id => by rw [(hevents id).1, List.append_nil]) (by rw [(hevents 0).2.1, List.append_nil])
    (hevents 0).2.2 rfl (kept_refl q) fun _ _ _ _ hm => absurd ((hevents 0).2.1 ▸ hm) List.not_mem_nil

variable {exhausted : PortError} {view : PortRequest ω → β}

theorem enqueue_step (h : q.Inv) (line : LineKey) (origin : ω) :
    ∃ r q', exec exhausted view (.enqueue line origin) q = (r, q') ∧ Step q (.enqueue line origin, r) q' := by
  obtain ⟨e, he⟩ | he := enqueue_cases exhausted line origin q
  · exact ⟨Outcome.fail e, _, reply_eq he, .fail h _ e⟩
  · refine ⟨.ok (.enqueued q.nextId), _, reply_eq he, .quiet nofun h.enqueue (passed_enqueue h) List.range_succ rfl rfl ?_ ?_⟩
    · intro id r r' hr hr'
      change (q.requests.insert _ _).get? id = some r' at hr'
      have hne : id ≠ q.nextId := Nat.ne_of_lt (h.own _ _ hr).2
      rw [request_insert, if_neg hne] at hr'
      exact kept_refl q id r r' hr hr'
    · rintro line' origin' heq id hid
      cases heq
      obtain rfl := List.mem_singleton.mp hid
      exact OrdMap.get?_insert_self

theorem sends_pairwise {port₁ port₂ : LsuMemory} {tick : Nat} {sent₁ sent₂ : List (PortRequest ω)}
    (hp₁ : ∀ r ∈ sent₁, r.line.memory = port₁) (h₁ : sent₁.length ≤ 1) (hp₂ : ∀ r ∈ sent₂, r.line.memory = port₂)
    (h₂ : sent₂.length ≤ 1) (hne : port₁ ≠ port₂) :
    ((sent₁ ++ sent₂).map fun r => (tick, r.line.memory)).Pairwise fun a b => a.2 ≠ b.2 := by
  have hsingle : ∀ l : List (PortRequest ω), l.length ≤ 1 → l.Pairwise fun a b => a.line.memory ≠ b.line.memory := by
    intro l hl
    match l, hl with
    | [], _ => exact .nil
    | [a], _ => exact List.pairwise_singleton _ _
  refine List.pairwise_map.mpr (List.pairwise_append.mpr ⟨hsingle _ h₁, hsingle _ h₂, fun a ha b hb => ?_⟩)
  rw [hp₁ a ha, hp₂ b hb]
  exact hne

theorem dispatchClock_step (h : q.Inv) (tick : Nat) (ub external : Bool) :
    ∃ r q', exec exhausted view (.dispatchClock tick ub external) q = (r, q') ∧
      Step q (.dispatchClock tick ub external, r) q' := by
  obtain ⟨e, he⟩ | ⟨hle, he⟩ | ⟨hle, hlast, haged, sent₁, q₁, sent₂, q₂, ht₁, ht₂, he⟩ :=
    dispatchClock_cases h tick ub external
  · exact ⟨Outcome.fail e, _, reply_eq he, .fail h _ e⟩
  · refine ⟨.ok (.sent []), _, reply_eq he, .quiet nofun (h.clocked fun t ht => (h.clock t ht).trans hle) ?_
      (List.append_nil _).symm rfl rfl (kept_refl q) nofun⟩
    exact fun id => (List.append_nil _).symm
  · refine ⟨.ok (.sent (sent₁ ++ sent₂)), _, reply_eq he, ?_⟩
    have hat : ∀ a ∈ ((sent₁ ++ sent₂).map fun r => (tick, r.line.memory)), a.1 = tick := by
      intro a ha
      obtain ⟨r, -, rfl⟩ := List.mem_map.mp ha
      rfl
    have hlast₂ : q₂.lastDispatch = some tick := ht₂.clocks.2.1.trans ht₁.clocks.2.1
    have hbefore : ∀ t, q.lastDispatch = some t → t < tick := fun t ht =>
      Nat.lt_of_le_of_ne ((h.clock t ht).trans hle) fun heq => hlast (heq ▸ ht)
    exact {
      safe := nofun
      inv := ht₂.inv
      passed := fun id => by
        rw [ht₂.passed, ht₁.passed, List.append_assoc, ← List.map_append, ← List.filter_append]
        rfl
      ids := by
        rw [ht₂.clocks.2.2, ht₁.clocks.2.2]
        exact (List.append_nil _).symm
      later := fun a ha => ⟨fun t ht => (hat a ha).symm ▸ hbefore t ht, (hat a ha).symm ▸ hlast₂⟩
      apart := sends_pairwise ht₁.port ht₁.single ht₂.port ht₂.single nofun
      forward := fun t ht => ⟨tick, hlast₂, Nat.le_of_lt (hbefore t ht)⟩
      aged := fun a ha => (hat a ha).symm ▸ haged
      kept := fun id r r' hr hr' => by
        obtain ⟨state₁, hr₁⟩ := ht₁.kept id r hr
        obtain ⟨state₂, hr₂⟩ := ht₂.kept id _ hr₁
        obtain rfl := Option.some.inj (hr'.symm.trans hr₂)
        rfl
      fresh := nofun }

theorem beginResponse_step (h : q.Inv) (id : Nat) :
    ∃ r q', exec exhausted view (.beginResponse id) q = (r, q') ∧ Step q (.beginResponse id, r) q' := by
  obtain ⟨e, he⟩ | ⟨r, hr, hs, he⟩ := beginResponse_cases h id
  · exact ⟨Outcome.fail e, _, reply_eq he, .fail h _ e⟩
  · exact ⟨.ok (.begun (view { r with state := .responding })), _, reply_eq he, .quiet nofun (h.begun hr hs) (passed_begun hr hs)
      (List.append_nil _).symm rfl rfl (kept_insert hr .responding rfl) nofun⟩

theorem finishResponse_step (h : q.Inv) (id : Nat) :
    ∃ r q', exec exhausted view (.finishResponse id) q = (r, q') ∧ Step q (.finishResponse id, r) q' := by
  obtain ⟨e, he⟩ | ⟨r, hr, hs, he⟩ := finishResponse_cases q id
  · exact ⟨Outcome.fail e, _, reply_eq he, .fail h _ e⟩
  · refine ⟨.ok .finished, _, reply_eq he, .quiet nofun (h.finished hr hs) (passed_finished h hr hs)
      (List.append_nil _).symm rfl rfl ?_ nofun⟩
    intro j s s' hj hj'
    change (q.requests.erase id).get? j = some s' at hj'
    rw [OrdMap.get?_erase] at hj'
    split at hj'
    · cases hj'
    · exact kept_refl q j s s' hj hj'

theorem advanceTo_step (h : q.Inv) (tick : Nat) :
    ∃ r q', exec exhausted view (.advanceTo tick) q = (r, q') ∧ Step q (.advanceTo tick, r) q' := by
  by_cases hreversed : tick < q.tick
  · have he : PortQueue.advanceTo tick q = (Outcome.fail (.timeReversal q.tick tick), q) := by
      unfold PortQueue.advanceTo timeReversed
      simp only [if_pos hreversed]
    exact ⟨Outcome.fail _, _, reply_eq he, .fail h _ _⟩
  · have he : PortQueue.advanceTo tick q = (.ok (), { q with tick }) := by
      unfold PortQueue.advanceTo timeReversed
      simp only [if_neg hreversed]
    exact ⟨.ok .advanced, _, reply_eq he, .quiet nofun
      (h.clocked fun t ht => (h.clock t ht).trans (Nat.le_of_not_lt hreversed)) (fun id => (List.append_nil _).symm)
      (List.append_nil _).symm rfl rfl (kept_refl q) nofun⟩

theorem exec_step (h : q.Inv) (c : PortCall ω) :
    Step q (c, (exec exhausted view c q).1) (exec exhausted view c q).2 := by
  have hstep : ∃ r q', exec exhausted view c q = (r, q') ∧ Step q (c, r) q' := by
    cases c with
    | enqueue line origin => exact enqueue_step h line origin
    | dispatchClock tick ub external => exact dispatchClock_step h tick ub external
    | beginResponse id => exact beginResponse_step h id
    | finishResponse id => exact finishResponse_step h id
    | advanceTo tick => exact advanceTo_step h tick
  obtain ⟨r, q', he, hstep⟩ := hstep
  rw [he]
  exact hstep

/-! ## Runs -/

/-- What holds of the calls made so far and the queue they led to. -/
structure Exact (t : List (PortEvent ω β)) (q : PortQueue ω) : Prop where
  safe : ∀ x ∈ t, x.2 ≠ .error .panicked
  credit : q.outstanding = q.inFlight
  bound : q.outstanding ≤ q.capacity
  fifo : ∀ port, q.queues port = q.waiting port
  ids : t.flatMap PortEvent.enqueued = List.range q.nextId
  stages : ∀ id, t.flatMap (PortEvent.stages id) = q.passed id
  paced : (t.flatMap PortEvent.sends).Pairwise fun a b => a.2 = b.2 → a.1 < b.1

structure Traced (t : List (PortEvent ω β)) (q : PortQueue ω) : Prop where
  exact : Exact t q
  inv : q.Inv
  before : ∀ a ∈ t.flatMap PortEvent.sends, ∃ last, q.lastDispatch = some last ∧ a.1 ≤ last

theorem Traced.snoc {t : List (PortEvent ω β)} {x : PortEvent ω β} (h : Traced t q) (hs : Step q x q') :
    Traced (t ++ [x]) q' where
  exact := {
    safe := fun y hy => (List.mem_append.mp hy).elim (h.exact.safe y) fun hy => List.mem_singleton.mp hy ▸ hs.safe
    credit := hs.inv.credit
    bound := hs.inv.bound
    fifo := hs.inv.fifo
    ids := by rw [List.flatMap_append, h.exact.ids, List.flatMap_singleton, hs.ids]
    stages := fun id => by rw [List.flatMap_append, h.exact.stages, List.flatMap_singleton, hs.passed]
    paced := by
      rw [List.flatMap_append, List.flatMap_singleton]
      refine List.pairwise_append.mpr ⟨h.exact.paced, hs.apart.imp fun hne heq => absurd heq hne, fun a ha b hb _ => ?_⟩
      obtain ⟨last, hlast, hle⟩ := h.before a ha
      exact Nat.lt_of_le_of_lt hle ((hs.later b hb).1 last hlast) }
  inv := hs.inv
  before := by
    intro a ha
    rw [List.flatMap_append, List.flatMap_singleton] at ha
    obtain ha | ha := List.mem_append.mp ha
    · obtain ⟨last, hlast, hle⟩ := h.before a ha
      obtain ⟨last', hlast', hle'⟩ := hs.forward last hlast
      exact ⟨last', hlast', hle.trans hle'⟩
    · exact ⟨a.1, (hs.later a ha).2, Nat.le_refl _⟩

theorem traced_new (capacity : UInt32) (lineBytes : Nat) :
    Traced ([] : List (PortEvent ω β)) (new capacity lineBytes) where
  exact := {
    safe := fun _ hx => absurd hx List.not_mem_nil
    credit := rfl
    bound := Nat.zero_le _
    fifo := fun _ => rfl
    ids := rfl
    stages := fun _ => rfl
    paced := .nil }
  inv := inv_new capacity lineBytes
  before _ ha := absurd ha List.not_mem_nil

theorem run_traced (capacity : UInt32) (lineBytes : Nat) (cs : List (PortCall ω)) :
    Traced (runCalls (exec exhausted view) (new capacity lineBytes) cs).1
      (runCalls (exec exhausted view) (new capacity lineBytes) cs).2 := by
  refine (run_runCalls _ _ cs).inv (I := Traced) (traced_new capacity lineBytes) ?_
  rintro t q ⟨c, r⟩ q' ht hc
  have hcall : exec exhausted view c q = (r, q') := hc
  have hstep : Step q (c, (exec exhausted view c q).1) (exec exhausted view c q).2 := exec_step ht.inv c
  rw [hcall] at hstep
  exact ht.snoc hstep

/-- What the next call does, whichever it is. -/
structure Next (q : PortQueue ω) (x : PortEvent ω β) (q' : PortQueue ω) : Prop where
  safe : x.2 ≠ .error .panicked
  aged : ∀ a ∈ x.sends, ∃ t, q.oldestHead = some t ∧ t < a.1
  kept : ∀ id r r', q.request id = some r → q'.request id = some r' → r' = { r with state := r'.state }
  fresh : ∀ line origin, x.1 = .enqueue line origin → ∀ id ∈ x.enqueued, q'.request id = some (q.fresh line origin)

theorem Step.next {x : PortEvent ω β} (h : Step q x q') : Next q x q' := ⟨h.safe, h.aged, h.kept, h.fresh⟩

end PortQueue

/-! ## The queues -/

namespace WriteQueue

variable {w : WriteQueue}

/-- The calls of a write queue are those of its ports. -/
theorem exec_port (c : PortCall Unit) (w : WriteQueue) :
    PortQueue.exec .timeOverflow (·.line) c w.port = ((exec c w).1, (exec c w).2.port) := by
  cases c with
  | enqueue line origin =>
    rcases h : PortQueue.enqueue .timeOverflow line () w.port with ⟨e | id, q⟩
    · simp only [PortQueue.exec, exec, enqueue, onPort, Call.bind, h]
      rfl
    · simp only [PortQueue.exec, exec, enqueue, onPort, Call.bind, h]
      cases line.memory <;> rfl
  | dispatchClock tick ub external => rfl
  | beginResponse id =>
    rcases h : PortQueue.beginResponse id w.port with ⟨e | r, q⟩ <;>
      simp only [PortQueue.exec, exec, beginResponse, onPort, Call.bind, h] <;> rfl
  | finishResponse id =>
    cases h : w.port.request id with
    | none =>
      simp only [PortQueue.exec, exec, finishResponse, PortQueue.finishResponse, request, h]
      rfl
    | some r =>
      simp only [PortQueue.exec, exec, finishResponse, PortQueue.finishResponse, request, h]
      by_cases hs : r.state = .responding
      · simp only [ne_eq, hs, not_true_eq_false, if_false]
        rfl
      · simp only [ne_eq, hs, not_false_eq_true, if_true]
        rfl
  | advanceTo tick => rfl

end WriteQueue

open PortQueue in
/-- Whatever was called, panics apart from none: the counter is the number of requests in flight, within the capacity;
the FIFOs hold the queued requests of their ports in the order of their ids, which are those enqueued, 0, 1, 2 and so
on; a request has passed a prefix of its stages; and a port's sends are at increasing ticks, each after the tick at
which the oldest head was enqueued. -/
theorem port_queues_exact (capacity : UInt32) (lineBytes : Nat) :
    (∀ cs : List (PortCall ReadOrigin),
      let r := runCalls ReadQueue.exec (PortQueue.new capacity lineBytes) cs
      Exact r.1 r.2 ∧ ∀ c, Next r.2 (c, (ReadQueue.exec c r.2).1) (ReadQueue.exec c r.2).2) ∧
    ∀ cs : List (PortCall Unit),
      let r := runCalls WriteQueue.exec (WriteQueue.new capacity lineBytes) cs
      Exact r.1 r.2.port ∧ ∀ c, Next r.2.port (c, (WriteQueue.exec c r.2).1) (WriteQueue.exec c r.2).2.port := by
  constructor
  · intro cs r
    have ht : Traced r.1 r.2 := run_traced capacity lineBytes cs
    exact ⟨ht.exact, fun c => (exec_step ht.inv c).next⟩
  · intro cs r
    have hport : runCalls (PortQueue.exec .timeOverflow (·.line)) (.new capacity lineBytes) cs = (r.1, r.2.port) :=
      runCalls_map WriteQueue.port WriteQueue.exec_port (.new capacity lineBytes) cs
    have ht : Traced r.1 r.2.port := by
      have ht := @run_traced _ _ .timeOverflow (fun r : PortRequest Unit => r.line) capacity lineBytes cs
      rwa [hport] at ht
    refine ⟨ht.exact, fun c => ?_⟩
    have hstep := (@exec_step _ _ _ .timeOverflow (fun r : PortRequest Unit => r.line) ht.inv c).next
    rwa [WriteQueue.exec_port] at hstep

end AscendEmulator.C220.Lsu
