/-
  AscendEmulator.C310.BufferProofs — the counters of a buffer over its runs.

  The counts of dispatches and of retired releases are kept modulo the ring size, and never differ by more than that
  size less one (`Inv.bound`). So the gate of a waiting GET opens for any count of releases that is its own modulo the
  ring size; its own count is the only one as long as no release went past it.
-/

import AscendEmulator.C310.Buffer

namespace AscendEmulator.C310

open Lib Outcome

/-! ## Counters -/

namespace BufferCounters

variable {c : BufferCounters} {id : Nat} {x : BufferCounter}

theorem counter_eq (h : c.counters[id]? = some x) : c.counter id = .ok x := by
  rw [counter, h]
  rfl

theorem isFull_eq (h : c.counters[id]? = some x) : c.isFull id = .ok (x.releaseCount == c.next x.dispatchCount) := by
  rw [isFull, counter_eq h]
  rfl

theorem isFull_ok {full : Bool} (h : c.isFull id = .ok full) : ∃ x, c.counters[id]? = some x := by
  unfold isFull counter at h
  obtain ⟨x, hx, -⟩ := bind_ok.mp h
  exact ⟨x, okOr_ok.mp hx⟩

theorem update_get? (h : c.counters[id]? = some x) (f : BufferCounter → BufferCounter) :
    (c.update id f).counters[id]? = some (f x) := by
  simp [update, h]

theorem next_mod {n : Nat} (hring : 2 ≤ c.ringSize) : c.next (n % c.ringSize) = (n + 1) % c.ringSize := by
  have hlt := Nat.mod_lt n (show 0 < c.ringSize by omega)
  unfold next
  rw [Nat.add_mod n, Nat.mod_eq_of_lt (show 1 < c.ringSize by omega)]
  split
  · rename_i heq
    rw [heq, Nat.sub_add_cancel (by omega), Nat.mod_self]
  · exact (Nat.mod_eq_of_lt (by omega)).symm

/-- A dispatch on a ring that is not full. -/
def dispatchedBy (c : BufferCounters) (queued : Bool) (x : BufferCounter) : BufferCounter :=
  { x with
    dispatchCount := c.next x.dispatchCount
    totalDispatches := wrappingIncrement x.totalDispatches
    outstandingGetBufs := if queued then wrappingIncrement x.outstandingGetBufs else x.outstandingGetBufs }

theorem recordDispatch_eq (h : c.counters[id]? = some x) (hfree : (x.releaseCount == c.next x.dispatchCount) = false)
    (queued : Bool) : ∃ c', recordDispatch id queued c =
      (.ok (some ⟨x.dispatchCount, c.next x.dispatchCount⟩), c') ∧ c'.ringSize = c.ringSize ∧
        c'.counters[id]? = some (c.dispatchedBy queued x) := by
  unfold recordDispatch
  rw [isFull_eq h, hfree, counter_eq h]
  exact ⟨_, rfl, rfl, update_get? h _⟩

theorem retireQueuedReleaseAt_eq (h : c.counters[id]? = some x) (modeField tick : Nat) :
    ∃ c', retireQueuedReleaseAt id modeField tick c = (.ok (c.next x.releaseCount), c') ∧ c'.ringSize = c.ringSize ∧
      c'.counters[id]? = some { x with
        releaseCount := c.next x.releaseCount
        lastReleaseTick := if modeField ≠ 1 then tick else x.lastReleaseTick } := by
  have hretired := update_get? h fun counter => { counter with releaseCount := c.next x.releaseCount }
  have hlen : ¬ (c.update id fun counter =>
      { counter with releaseCount := c.next x.releaseCount }).counters.length ≤ id := by
    have := (List.getElem?_eq_some_iff.mp hretired).1
    omega
  unfold retireQueuedReleaseAt retireRelease
  rw [counter_eq h]
  by_cases hmode : modeField ≠ 1
  · simp only [if_pos hmode, recordReleaseTick, if_neg hlen]
    exact ⟨_, rfl, rfl, update_get? hretired _⟩
  · simp only [if_neg hmode]
    exact ⟨_, rfl, rfl, hretired⟩

theorem consumeGetBuf_eq (h : c.counters[id]? = some x) :
    ∃ c', consumeGetBuf id c = (.ok (wrappingDecrement x.outstandingGetBufs), c') ∧ c'.ringSize = c.ringSize ∧
      c'.counters[id]? = some { x with outstandingGetBufs := wrappingDecrement x.outstandingGetBufs } := by
  unfold consumeGetBuf
  rw [counter_eq h]
  exact ⟨_, rfl, rfl, update_get? h _⟩

theorem getBufGate_eq (h : c.counters[id]? = some x) (expected tick : Nat) :
    c.getBufGate id expected tick = .ok (evaluateGetBufGate expected x.releaseCount x.lastReleaseTick tick) := by
  unfold getBufGate
  rw [counter_eq h]
  rfl

end BufferCounters

theorem evaluateGetBufGate_ready {expected observed last current : Nat} :
    evaluateGetBufGate expected observed last current = .ready ↔ observed = expected ∧ current ≠ last := by
  unfold evaluateGetBufGate
  split
  · rename_i hne
    exact iff_of_false nofun fun h => hne h.1.symm
  · rename_i heq
    have heq := not_not.mp heq
    split
    · rename_i hsame
      exact iff_of_false nofun fun h => h.2 hsame.symm
    · rename_i hne
      exact iff_of_true rfl ⟨heq.symm, fun h => hne h.symm⟩

/-! ## Admission -/

namespace BufferAdmissionState

variable {s s' : BufferAdmissionState} {id pipeCode modeField : Nat} {tryQueue : Bool} {x : BufferCounter}

theorem takeEntry_eq (h : s.isDirect id pipeCode modeField = .ok true) : ∃ entries,
    takeEntry id pipeCode modeField s = (.ok (), { s with releaseEntries := entries }) ∧
      (s.releaseEntries.entries[id]?.isSome → entries.entries[id]?.isSome) := by
  unfold takeEntry
  by_cases hmode : modeField = 1
  · rw [if_pos hmode]
    exact ⟨s.releaseEntries, rfl, fun h => h⟩
  · unfold isDirect at h
    rw [if_neg hmode] at h ⊢
    have hmatch : s.releaseEntries.isMatch id pipeCode = .ok true := by
      split at h
      · exact h
      · cases h
    unfold ReleaseEntries.takeMatch
    rw [hmatch]
    exact ⟨_, rfl, fun h => by simpa using h⟩

/-- A GET is admitted where the ring has room, and else nothing changes. -/
theorem admitGet_cases {r : Outcome BufferCounterError GetBufAdmission} (hx : s.counters.counters[id]? = some x)
    (h : admitGet id pipeCode modeField tryQueue s = (r, s')) :
    (s' = s ∧ (r = .ok .ringFull ∨ r = .ok .pipeStalled ∨ ∃ e, r = .error (.returned e))) ∨
      (x.releaseCount == s.counters.next x.dispatchCount) = false ∧ ∃ queued counters entries,
        s' = { s with counters, releaseEntries := entries } ∧ counters.ringSize = s.counters.ringSize ∧
        counters.counters[id]? = some (s.counters.dispatchedBy queued x) ∧
        (s.releaseEntries.entries[id]?.isSome → entries.entries[id]?.isSome) ∧
        r = .ok (if queued then .queued ⟨x.dispatchCount, s.counters.next x.dispatchCount⟩
          else .direct ⟨x.dispatchCount, s.counters.next x.dispatchCount⟩) := by
  unfold admitGet at h
  rw [BufferCounters.isFull_eq hx] at h
  cases hfull : x.releaseCount == s.counters.next x.dispatchCount with
  | true =>
    rw [hfull] at h
    cases h
    exact .inl ⟨rfl, .inl rfl⟩
  | false =>
    rw [hfull] at h
    cases hdirect : s.isDirect id pipeCode modeField with
    | error e =>
      rw [hdirect] at h
      cases h
      refine .inl ⟨rfl, .inr (.inr ?_)⟩
      unfold isDirect ReleaseEntries.isMatch ReleaseEntries.entry at hdirect
      split at hdirect
      · cases hdirect
      split at hdirect
      · cases hentry : s.releaseEntries.entries[id]? with
        | none =>
          rw [hentry] at hdirect
          cases hdirect
          exact ⟨_, rfl⟩
        | some entry =>
          rw [hentry] at hdirect
          cases hdirect
      · cases hdirect
    | ok direct =>
      rw [hdirect] at h
      cases direct with
      | true =>
        obtain ⟨entries, htake, hsome⟩ := takeEntry_eq hdirect
        obtain ⟨counters, hrecord, hring, hcounter⟩ := BufferCounters.recordDispatch_eq hx hfull false
        simp only [htake, dispatch, hrecord] at h
        cases h
        exact .inr ⟨rfl, false, counters, entries, rfl, hring, hcounter, hsome, rfl⟩
      | false =>
        obtain ⟨counters, hrecord, hring, hcounter⟩ := BufferCounters.recordDispatch_eq hx hfull true
        simp only [dispatch, hrecord] at h
        split at h
        · cases h
          exact .inl ⟨rfl, .inr (.inr ⟨_, rfl⟩)⟩
        split at h
        · cases h
          exact .inl ⟨rfl, .inr (.inl rfl)⟩
        · cases h
          exact .inr ⟨rfl, true, counters, s.releaseEntries, rfl, hring, hcounter, fun h => h, rfl⟩

theorem admitRelease_cases {r : Outcome BufferCounterError ReleaseAdmission}
    (h : admitRelease id pipeCode tryQueue s = (r, s')) :
    (s' = s ∧ (r = .ok .noPipe ∨ r = .ok .pipeStalled ∨ ∃ e, r = .error (.returned e))) ∨
      r = .ok .queued ∧ ∃ entries, s' = { s with releaseEntries := entries } ∧
        (s.releaseEntries.entries[id]?.isSome → entries.entries[id]?.isSome) := by
  unfold admitRelease ReleaseEntries.entry ReleaseEntries.recordAcceptedRelease at h
  split at h
  · cases h
    exact .inl ⟨rfl, .inl rfl⟩
  split at h
  · cases h
    exact .inl ⟨rfl, .inr (.inr ⟨_, rfl⟩)⟩
  cases hentry : s.releaseEntries.entries[id]? with
  | none =>
    rw [hentry] at h
    cases h
    exact .inl ⟨rfl, .inr (.inr ⟨_, rfl⟩)⟩
  | some entry =>
    simp only [hentry, okOr] at h
    split at h
    · cases h
      exact .inl ⟨rfl, .inr (.inl rfl)⟩
    · cases h
      have hlen := (List.getElem?_eq_some_iff.mp hentry).1
      exact .inr ⟨rfl, _, rfl, fun _ => by simp [hlen]⟩

end BufferAdmissionState

/-! ## Counts of a changed list -/

theorem countP_modify {α : Type} {l : List α} {n : Nat} {a : α} (h : l[n]? = some a) (p : α → Bool) (f : α → α) :
    (l.modify n f).countP p + (if p a then 1 else 0) = l.countP p + if p (f a) then 1 else 0 := by
  induction l generalizing n with
  | nil => simp at h
  | cons b l ih =>
    cases n with
    | zero =>
      obtain rfl : b = a := by simpa using h
      simp only [List.modify_zero_cons, List.countP_cons]
      omega
    | succ n =>
      have hrest := ih (n := n) (by simpa using h)
      simp only [List.modify_succ_cons, List.countP_cons]
      omega

namespace BufferRun

variable {s s' : BufferRun} {id ring n : Nat} {get : Get}

theorem unreleased_eq (s : BufferRun) : s.released + s.unreleased = s.gets.length := by
  rw [List.length_eq_countP_add_countP (hasStatus .released)]
  refine congrArg _ (List.countP_congr fun get _ => ?_)
  simp

theorem waiting_le (s : BufferRun) : s.waiting ≤ s.unreleased := by
  refine List.countP_mono_left fun get _ hget => ?_
  have hqueued : get.status = .queued := by simpa [hasStatus] using hget
  simp [hasStatus, hqueued]

theorem setStatus_get? (h : s.gets[n]? = some get) (status : GetStatus) (k : Nat) :
    (s.setStatus n status).gets[k]? = if k = n then some { get with status } else s.gets[k]? := by
  unfold setStatus
  rw [List.getElem?_modify]
  by_cases hk : k = n
  · subst hk
    simp [h]
  · simp [hk, Ne.symm hk]

/-- A waiting GET that is popped. -/
theorem counts_pop (h : s.gets[n]? = some get) (hstatus : get.status = .queued) :
    (s.setStatus n .running).released = s.released ∧ (s.setStatus n .running).waiting + 1 = s.waiting ∧
      (s.setStatus n .running).gets.length = s.gets.length := by
  have hreleased := countP_modify h (hasStatus .released) fun get => { get with status := .running }
  have hwaiting := countP_modify h (hasStatus .queued) fun get => { get with status := .running }
  simp only [hasStatus, hstatus] at hreleased hwaiting
  exact ⟨by simpa [released, setStatus] using hreleased, by simpa [waiting, setStatus] using hwaiting,
    List.length_modify _ _ _⟩

/-- A release that retires. -/
theorem counts_retire (h : s.gets[n]? = some get) (hstatus : get.status = .running) :
    (s.setStatus n .released).released = s.released + 1 ∧ (s.setStatus n .released).waiting = s.waiting ∧
      (s.setStatus n .released).gets.length = s.gets.length := by
  have hreleased := countP_modify h (hasStatus .released) fun get => { get with status := .released }
  have hwaiting := countP_modify h (hasStatus .queued) fun get => { get with status := .released }
  simp only [hasStatus, hstatus] at hreleased hwaiting
  exact ⟨by simpa [released, setStatus] using hreleased, by simpa [waiting, setStatus] using hwaiting,
    List.length_modify _ _ _⟩

/-- The ring counters of the buffer, for the GETs as they stand. -/
structure Counts (ring : Nat) (s : BufferRun) (x : BufferCounter) : Prop where
  dispatch : x.dispatchCount = s.gets.length % ring
  release : x.releaseCount = s.released % ring
  outstanding : x.outstandingGetBufs = s.waiting
  tick : x.lastReleaseTick = s.lastTick

/-- What every reachable state keeps. -/
structure Inv (id ring : Nat) (s : BufferRun) : Prop where
  size : 2 ≤ ring ∧ ring < u32
  ringSize : s.state.counters.ringSize = ring
  counter : ∃ x, s.state.counters.counters[id]? = some x ∧ Counts ring s x
  bound : s.unreleased ≤ ring - 1
  tokens : ∀ (n : Nat) (get : Get), s.gets[n]? = some get → get.dispatch = ⟨n % ring, (n + 1) % ring⟩
  entry : s.state.releaseEntries.entries[id]?.isSome

theorem mod_sub {a b ring : Nat} (hle : b ≤ a) (hlt : a < b + ring) : (a % ring + ring - b % ring) % ring = a - b := by
  obtain ⟨d, rfl⟩ := Nat.exists_eq_add_of_le hle
  have hb := Nat.mod_lt b (show 0 < ring by omega)
  have hd : d < ring := by omega
  rw [Nat.add_sub_cancel_left, Nat.add_mod, Nat.mod_eq_of_lt hd]
  by_cases hwrap : b % ring + d < ring
  · rw [Nat.mod_eq_of_lt hwrap, show b % ring + d + ring - b % ring = d + ring by omega, Nat.add_mod_right,
      Nat.mod_eq_of_lt hd]
  · have hvalue : (b % ring + d) % ring = b % ring + d - ring := by
      rw [Nat.mod_eq_sub_mod (by omega), Nat.mod_eq_of_lt (by omega)]
    rw [hvalue, show b % ring + d - ring + ring - b % ring = d by omega, Nat.mod_eq_of_lt hd]

/-- The ring is full exactly when all but one of its counts are unreleased. -/
theorem Inv.full_iff (h : Inv id ring s) {x : BufferCounter} (hc : Counts ring s x) :
    (x.releaseCount == s.state.counters.next x.dispatchCount) = true ↔ s.unreleased = ring - 1 := by
  have hsum := s.unreleased_eq
  have hbound := h.bound
  have hsize := h.size
  have hring := h.ringSize
  have hnext : s.state.counters.next (s.gets.length % s.state.counters.ringSize) = (s.gets.length + 1) % ring := by
    rw [BufferCounters.next_mod (by omega), hring]
  rw [hring] at hnext
  rw [beq_iff_eq, hc.dispatch, hc.release, hnext]
  constructor
  · intro heq
    have hdvd : ring ∣ s.gets.length + 1 - s.released :=
      (Nat.modEq_iff_dvd' (by omega)).mp heq
    have hle := Nat.le_of_dvd (by omega) hdvd
    omega
  · intro heq
    have hlen : s.gets.length + 1 = s.released + ring := by omega
    rw [hlen, Nat.add_mod_right]

theorem wrappingIncrement_eq (h : n + 1 < u32) : wrappingIncrement n = n + 1 := Nat.mod_eq_of_lt h

theorem wrappingDecrement_eq (h : n + 1 < u32) : wrappingDecrement (n + 1) = n := by
  unfold wrappingDecrement u32 at *
  omega

/-- A GET that is dispatched. -/
theorem Inv.push (h : Inv id ring s) {x : BufferCounter} (hc : Counts ring s x) {state : BufferAdmissionState}
    {queued : Bool} (hfree : (x.releaseCount == s.state.counters.next x.dispatchCount) = false)
    (hring : state.counters.ringSize = s.state.counters.ringSize)
    (hcounter : state.counters.counters[id]? = some (s.state.counters.dispatchedBy queued x))
    (hentry : state.releaseEntries.entries[id]?.isSome) :
    Inv id ring { s with state, gets := s.gets ++ [⟨⟨x.dispatchCount, s.state.counters.next x.dispatchCount⟩,
      if queued then .queued else .running⟩] } := by
  have hbound := h.bound
  have hsize := h.size
  have hwaiting := s.waiting_le
  have hroom : s.unreleased ≠ ring - 1 := fun heq => by
    rw [(h.full_iff hc).mpr heq] at hfree
    cases hfree
  have hnext : s.state.counters.next x.dispatchCount = (s.gets.length + 1) % ring := by
    rw [hc.dispatch, ← h.ringSize, BufferCounters.next_mod (by rw [h.ringSize]; exact hsize.1)]
  exact {
    size := hsize
    ringSize := hring.trans h.ringSize
    counter := by
      refine ⟨_, hcounter, ?_, ?_, ?_, hc.tick⟩
      · simpa [BufferCounters.dispatchedBy] using hnext
      · rw [BufferCounters.dispatchedBy, hc.release]
        cases queued <;> simp [released, hasStatus]
      · rw [BufferCounters.dispatchedBy, hc.outstanding]
        cases queued with
        | true => simpa [waiting, hasStatus] using wrappingIncrement_eq (n := s.waiting) (by omega)
        | false => simp [waiting, hasStatus]
    bound := by
      have hone : ({ s with state, gets := s.gets ++ [⟨⟨x.dispatchCount, s.state.counters.next x.dispatchCount⟩,
          if queued then .queued else .running⟩] } : BufferRun).unreleased = s.unreleased + 1 := by
        cases queued <;> simp [unreleased, hasStatus]
      rw [hone]
      omega
    tokens := fun n get hget => by
      rcases Nat.lt_trichotomy n s.gets.length with hlt | rfl | hgt
      · rw [List.getElem?_append_left hlt] at hget
        exact h.tokens n get hget
      · rw [List.getElem?_concat_length] at hget
        cases hget
        rw [hnext, hc.dispatch]
      · rw [List.getElem?_eq_none (by rw [List.length_append, List.length_singleton]; omega)] at hget
        cases hget
    entry := hentry }

/-- A change of one status, which leaves its token. -/
theorem tokens_setStatus (h : ∀ (n : Nat) (get : Get), s.gets[n]? = some get →
    get.dispatch = ⟨n % ring, (n + 1) % ring⟩) (hget : s.gets[n]? = some get) (status : GetStatus) :
    ∀ (k : Nat) (g : Get), (s.setStatus n status).gets[k]? = some g → g.dispatch = ⟨k % ring, (k + 1) % ring⟩ := by
  intro k g hg
  rw [setStatus_get? hget] at hg
  split at hg
  · rename_i hk
    cases hg
    rw [hk]
    exact h n get hget
  · exact h k g hg

/-- A GET that is popped. -/
theorem Inv.pop (h : Inv id ring s) {x : BufferCounter} (hc : Counts ring s x) {state : BufferAdmissionState}
    (hget : s.gets[n]? = some get) (hstatus : get.status = .queued)
    (hring : state.counters.ringSize = s.state.counters.ringSize)
    (hcounter : state.counters.counters[id]? =
      some { x with outstandingGetBufs := wrappingDecrement x.outstandingGetBufs })
    (hentries : state.releaseEntries = s.state.releaseEntries) :
    Inv id ring ({ s with state }.setStatus n .running) := by
  obtain ⟨hreleased, hwaiting, hlength⟩ := counts_pop hget hstatus
  have hsum := s.unreleased_eq
  have hsum' := (s.setStatus n .running).unreleased_eq
  have hle := s.waiting_le
  have hbound := h.bound
  have hsize := h.size
  exact {
    size := hsize
    ringSize := hring.trans h.ringSize
    counter := by
      refine ⟨_, hcounter, ?_, ?_, ?_, hc.tick⟩
      · change x.dispatchCount = (s.setStatus n .running).gets.length % ring
        rw [hlength]
        exact hc.dispatch
      · change x.releaseCount = (s.setStatus n .running).released % ring
        rw [hreleased]
        exact hc.release
      · change wrappingDecrement x.outstandingGetBufs = (s.setStatus n .running).waiting
        rw [hc.outstanding, ← hwaiting]
        exact wrappingDecrement_eq (by omega)
    bound := by
      change (s.setStatus n .running).unreleased ≤ ring - 1
      omega
    tokens := tokens_setStatus h.tokens hget .running
    entry := by
      change (state.releaseEntries.entries[id]?).isSome
      rw [hentries]
      exact h.entry }

/-- A release that retires. -/
theorem Inv.retire (h : Inv id ring s) {x : BufferCounter} (hc : Counts ring s x) {counters : BufferCounters}
    {modeField tick : Nat} (hget : s.gets[n]? = some get) (hstatus : get.status = .running)
    (hring : counters.ringSize = s.state.counters.ringSize)
    (hcounter : counters.counters[id]? = some { x with
      releaseCount := s.state.counters.next x.releaseCount
      lastReleaseTick := if modeField ≠ 1 then tick else x.lastReleaseTick }) :
    Inv id ring ({ s with
      state := { s.state with counters }
      lastTick := if modeField ≠ 1 then tick else s.lastTick }.setStatus n .released) := by
  obtain ⟨hreleased, hwaiting, hlength⟩ := counts_retire hget hstatus
  have hsum := s.unreleased_eq
  have hsum' := (s.setStatus n .released).unreleased_eq
  have hbound := h.bound
  have hsize := h.size
  exact {
    size := hsize
    ringSize := hring.trans h.ringSize
    counter := by
      refine ⟨_, hcounter, ?_, ?_, ?_, ?_⟩
      · change x.dispatchCount = (s.setStatus n .released).gets.length % ring
        rw [hlength]
        exact hc.dispatch
      · change s.state.counters.next x.releaseCount = (s.setStatus n .released).released % ring
        rw [hreleased, hc.release, ← h.ringSize, BufferCounters.next_mod (by rw [h.ringSize]; exact hsize.1)]
      · change x.outstandingGetBufs = (s.setStatus n .released).waiting
        rw [hwaiting]
        exact hc.outstanding
      · change (if modeField ≠ 1 then tick else x.lastReleaseTick) = if modeField ≠ 1 then tick else s.lastTick
        rw [hc.tick]
    bound := by
      change (s.setStatus n .released).unreleased ≤ ring - 1
      omega
    tokens := tokens_setStatus h.tokens hget .released
    entry := h.entry }

/-- The outcome of a pop: the gate of the GET, and its place in the queue if it is ready. -/
theorem exec_tryPop (h : Inv id ring s) {x : BufferCounter} (hx : s.state.counters.counters[id]? = some x)
    (hget : s.gets[n]? = some get) (tick : Nat) :
    exec id (.tryPop n tick) s =
        (.ok (.gate (evaluateGetBufGate (n % ring) x.releaseCount x.lastReleaseTick tick)), s) ∧
        evaluateGetBufGate (n % ring) x.releaseCount x.lastReleaseTick tick ≠ .ready ∨
      evaluateGetBufGate (n % ring) x.releaseCount x.lastReleaseTick tick = .ready ∧
        ∃ counters, exec id (.tryPop n tick) s =
          (.ok (.gate .ready), { s with state := { s.state with counters } }.setStatus n .running) ∧
          counters.ringSize = s.state.counters.ringSize ∧ counters.counters[id]? =
            some { x with outstandingGetBufs := wrappingDecrement x.outstandingGetBufs } := by
  have htoken : get.dispatch.expectedReleaseCount = n % ring := by rw [h.tokens n get hget]
  have hexpected : ((s.gets[n]?.map fun get => get.dispatch.expectedReleaseCount).getD 0) = n % ring := by
    rw [hget, Option.map_some, Option.getD_some, htoken]
  simp only [exec, hexpected, BufferAdmissionState.tryPopQueuedGet, BufferCounters.getBufGate_eq hx]
  cases hgate : evaluateGetBufGate (n % ring) x.releaseCount x.lastReleaseTick tick with
  | ready =>
    obtain ⟨counters, hconsume, hring, hcounter⟩ := BufferCounters.consumeGetBuf_eq hx
    refine .inr ⟨rfl, counters, ?_, hring, hcounter⟩
    simp only [hconsume]
  | awaitReleaseCount expected observed => exact .inl ⟨rfl, nofun⟩
  | sameTick tick => exact .inl ⟨rfl, nofun⟩

/-- A call keeps the invariant; one that stalls or fails changes nothing, and none panics. -/
theorem Inv.exec (h : Inv id ring s) {call : BufferCall} (hallowed : allowed call s)
    {r : Outcome BufferCounterError BufferReply} (hcall : exec id call s = (r, s')) :
    Inv id ring s' ∧ (Stalls r → s' = s) ∧ r ≠ .error .panicked := by
  obtain ⟨x, hx, hc⟩ := h.counter
  cases call with
  | admitGet pipeCode modeField tryQueue =>
    unfold BufferRun.exec at hcall
    cases hgrant : BufferAdmissionState.admitGet id pipeCode modeField tryQueue s.state with
    | mk admission state =>
      simp only [hgrant] at hcall
      cases hcall
      rcases BufferAdmissionState.admitGet_cases hx hgrant with ⟨rfl, hsame⟩ |
        ⟨hfree, queued, counters, entries, rfl, hring, hcounter, hentry, rfl⟩
      · rcases hsame with rfl | rfl | ⟨e, rfl⟩
        · exact ⟨h, fun _ => rfl, nofun⟩
        · exact ⟨h, fun _ => rfl, nofun⟩
        · exact ⟨h, fun _ => rfl, nofun⟩
      · have hpush := @Inv.push _ _ _ h _ hc { s.state with counters, releaseEntries := entries } queued hfree hring
          hcounter (hentry h.entry)
        cases queued with
        | true => exact ⟨hpush, fun hstall => hstall.elim, nofun⟩
        | false => exact ⟨hpush, fun hstall => hstall.elim, nofun⟩
  | admitRelease pipeCode tryQueue =>
    unfold BufferRun.exec at hcall
    cases hgrant : BufferAdmissionState.admitRelease id pipeCode tryQueue s.state with
    | mk admission state =>
      simp only [hgrant] at hcall
      cases hcall
      rcases BufferAdmissionState.admitRelease_cases hgrant with ⟨rfl, hsame⟩ | ⟨rfl, entries, rfl, hentry⟩
      · rcases hsame with rfl | rfl | ⟨e, rfl⟩
        · exact ⟨h, fun _ => rfl, nofun⟩
        · exact ⟨h, fun _ => rfl, nofun⟩
        · exact ⟨h, fun _ => rfl, nofun⟩
      · exact ⟨{ h with counter := ⟨x, hx, hc.dispatch, hc.release, hc.outstanding, hc.tick⟩, entry := hentry h.entry },
          fun hstall => hstall.elim, nofun⟩
  | tryPop n tick =>
    obtain ⟨get, hget, hstatus⟩ := hallowed
    rcases exec_tryPop h hx hget tick with ⟨hexec, hne⟩ | ⟨hready, counters, hexec, hring, hcounter⟩
    · rw [hexec] at hcall
      cases hcall
      exact ⟨h, fun _ => rfl, nofun⟩
    · rw [hexec] at hcall
      cases hcall
      exact ⟨h.pop hc hget hstatus hring hcounter rfl, fun hstall => absurd rfl hstall, nofun⟩
  | retire n modeField tick =>
    obtain ⟨get, hget, hstatus⟩ := hallowed
    obtain ⟨counters, hretire, hring, hcounter⟩ := BufferCounters.retireQueuedReleaseAt_eq hx modeField tick
    simp only [BufferRun.exec, BufferAdmissionState.retireQueuedReleaseAt, hretire] at hcall
    cases hcall
    exact ⟨h.retire hc hget hstatus hring hcounter, fun hstall => hstall.elim, nofun⟩

theorem inv_start {bufferCount : Nat} {direct : Bool} {state : BufferAdmissionState}
    (hnew : BufferAdmissionState.new bufferCount ring direct = .ok state) (hring : ring < u32)
    (hid : id < bufferCount) :
    Inv id ring (start state) := by
  unfold BufferAdmissionState.new BufferCounters.new ReleaseEntries.new at hnew
  obtain ⟨counters, hcounters, hnew⟩ := bind_ok.mp hnew
  obtain ⟨_, -, hcounters⟩ := bind_ok.mp hcounters
  obtain ⟨_, hsize, hcounters⟩ := bind_ok.mp hcounters
  obtain ⟨entries, hentries, hnew⟩ := bind_ok.mp hnew
  obtain ⟨_, -, hentries⟩ := bind_ok.mp hentries
  cases hcounters
  cases hentries
  cases hnew
  have hsize : ¬ ring < 2 := by simpa using failIf_ok.mp hsize
  exact {
    size := ⟨by omega, hring⟩
    ringSize := rfl
    counter := ⟨⟨0, 0, 0, 0, 0⟩, by simp [start, hid], (Nat.zero_mod _).symm, (Nat.zero_mod _).symm, rfl, rfl⟩
    bound := Nat.zero_le _
    tokens := fun n get hget => by simp [start] at hget
    entry := by simp [start, hid] }

/-- No release retires before that of an earlier dispatch. -/
def InOrder (gets : List Get) : Prop :=
  ∀ (i j : Nat) (earlier later : Get), gets[i]? = some earlier → gets[j]? = some later → i < j →
    later.status = .released → earlier.status = .released

theorem released_le (horder : InOrder s.gets) (hget : s.gets[n]? = some get) (hstatus : get.status = .queued) :
    s.released ≤ n := by
  have hsplit : s.gets = s.gets.take n ++ s.gets.drop n := (List.take_append_drop n s.gets).symm
  have hafter : (s.gets.drop n).countP (hasStatus .released) = 0 := by
    refine List.countP_eq_zero.mpr fun later hlater hreleased => ?_
    obtain ⟨k, hk⟩ := List.mem_iff_getElem?.mp hlater
    rw [List.getElem?_drop] at hk
    have hreleased : later.status = .released := by simpa [hasStatus] using hreleased
    rcases Nat.eq_zero_or_pos k with rfl | hpos
    · obtain rfl := Option.some.inj (hget.symm.trans hk)
      rw [hstatus] at hreleased
      cases hreleased
    · have hearlier := horder n (n + k) get later hget hk (by omega) hreleased
      rw [hstatus] at hearlier
      cases hearlier
  unfold released
  rw [hsplit, List.countP_append, hafter, Nat.add_zero]
  exact List.countP_le_length.trans (List.length_take_le n _)

/-- The `n`-th dispatch becomes ready at a tick. -/
def BecomesReady (id : Nat) (s : BufferRun) (n tick : Nat) : Prop :=
  (BufferRun.exec id (.tryPop n tick) s).1 = .ok (.gate .ready)

theorem Inv.ready_iff (h : Inv id ring s) (hget : s.gets[n]? = some get) (tick : Nat) :
    BecomesReady id s n tick ↔ s.released % ring = n % ring ∧ tick ≠ s.lastTick := by
  obtain ⟨x, hx, hc⟩ := h.counter
  have hgate := @evaluateGetBufGate_ready (n % ring) x.releaseCount x.lastReleaseTick tick
  rw [hc.release, hc.tick] at hgate
  unfold BecomesReady
  rcases exec_tryPop h hx hget tick with ⟨hexec, hne⟩ | ⟨hready, counters, hexec, -⟩
  · rw [hexec]
    rw [hc.release, hc.tick] at hne ⊢
    refine iff_of_false (fun heq => hne ?_) fun hright => hne (hgate.mpr hright)
    exact BufferReply.gate.inj (Except.ok.inj heq)
  · rw [hc.release, hc.tick] at hready
    rw [hexec]
    exact iff_of_true rfl (hgate.mp hready)

/-- A queued GET, and then three direct ones that are released one after the other. -/
def overtakingCalls : List BufferCall :=
  [.admitGet 4 0 true, .admitGet 0 1 false, .retire 1 1 0, .admitGet 0 1 false, .retire 2 1 0, .admitGet 0 1 false,
    .retire 3 1 0]

def sampleState : BufferAdmissionState := ⟨⟨3, [⟨0, 0, 0, 0, 0⟩]⟩, ⟨[⟨false, 0⟩]⟩, false⟩

theorem overtaking_allowed : Allowed allowed (BufferRun.exec 0) (start sampleState) overtakingCalls :=
  ⟨trivial, trivial, ⟨⟨⟨1, 2⟩, .running⟩, by decide, rfl⟩, trivial, ⟨⟨⟨2, 0⟩, .running⟩, by decide, rfl⟩, trivial,
    ⟨⟨⟨0, 1⟩, .running⟩, by decide, rfl⟩, trivial⟩

end BufferRun

end AscendEmulator.C310
