/-
  AscendEmulator.C220.Lsu.WriteHazards — when the hazards of the write queue are exact.

  External hazards scan the live requests. UB hazards are an index by address with one id an address, and a response that
  finishes takes the address out, whichever id it holds. So the index is exact as long as no response finishes while
  another write to its line is live, and wrong after the first that does (`write_hazards_exact_iff`).
-/

import AscendEmulator.C220.Lsu.PortQueueProofs

namespace AscendEmulator.C220.Lsu

open Lib

abbrev WriteEvent := PortEvent Unit LineKey

/-- Some write to the line was enqueued that has not finished its response. -/
def Unfinished (t : List WriteEvent) (line : LineKey) : Prop :=
  ∃ id, (.enqueue line (), .ok (.enqueued id)) ∈ t ∧ PortStage.finished ∉ t.flatMap (PortEvent.stages id)

namespace WriteQueue

variable {w w' : WriteQueue} {t : List WriteEvent} {c : PortCall Unit}

def HazardExact (t : List WriteEvent) (w : WriteQueue) : Prop := ∀ line, w.hasHazard line = true ↔ Unfinished t line

/-- A UB response that finishes is the last of its line. -/
def FinishesLast : PortCall Unit → WriteQueue → Prop
  | .finishResponse id, w =>
    ∀ r, w.request id = some r → r.state = .responding → r.line.memory = .ub →
      ∀ id' r', w.request id' = some r' → r'.line = r.line → id' = id
  | _, _ => True

/-! ## Live lines -/

def Live (w : WriteQueue) (line : LineKey) : Prop := ∃ id r, w.request id = some r ∧ r.line = line

def lineOf (w : WriteQueue) (id : Nat) : Option LineKey := (w.request id).map (·.line)

theorem live_iff {line : LineKey} : w.Live line ↔ ∃ id, w.lineOf id = some line := by
  simp [Live, lineOf]

/-- The index has the addresses of the live UB lines. -/
def Indexed (w : WriteQueue) : Prop := ∀ line, line.memory = .ub → (w.ubAddresses.contains line.address.toNat = true ↔ w.Live line)

theorem hasHazard_external (w : WriteQueue) {line : LineKey} (hm : line.memory = .external) :
    w.hasHazard line = true ↔ w.Live line := by
  unfold hasHazard Live request PortQueue.request
  simp only [hm, List.any_eq_true, decide_eq_true_eq]
  constructor
  · rintro ⟨⟨id, r⟩, he, hr⟩
    exact ⟨id, r, OrdMap.mem_entries.mp he, hr⟩
  · rintro ⟨id, r, he, hr⟩
    exact ⟨(id, r), OrdMap.mem_entries.mpr he, hr⟩

/-- The hazards are those of the live lines if the index is right. -/
theorem hazards_live : (∀ line, w.hasHazard line = true ↔ w.Live line) ↔ w.Indexed := by
  constructor
  · intro h line hm
    rw [← h]
    unfold hasHazard
    rw [hm]
  · intro h line
    cases hm : line.memory with
    | ub =>
      rw [← h line hm]
      unfold hasHazard
      rw [hm]
    | external => exact w.hasHazard_external hm

/-! ## Steps -/

theorem passed_live {q : PortQueue Unit} {id : Nat} {r : PortRequest Unit} (hr : q.request id = some r) :
    q.passed id ≠ [] ∧ PortStage.finished ∉ q.passed id := by
  rw [PortQueue.passed_of_request hr]
  cases r.state <;> exact ⟨nofun, by decide⟩

theorem passed_absent {q : PortQueue Unit} {id : Nat} (hr : q.request id = none) :
    q.passed id = [] ∨ q.passed id = [.enqueued, .sent, .begun, .finished] := by
  unfold PortQueue.passed
  rw [hr]
  by_cases hid : id < q.nextId
  · exact .inr (if_pos hid)
  · exact .inl (if_neg hid)

theorem passed_prefix (q : PortQueue Unit) (id : Nat) : q.passed id <+: [.enqueued, .sent, .begun, .finished] := by
  unfold PortQueue.passed
  split
  · rename_i r _
    cases r.state
    · exact ⟨[.sent, .begun, .finished], rfl⟩
    · exact ⟨[.begun, .finished], rfl⟩
    · exact ⟨[.finished], rfl⟩
  · split
    · exact List.prefix_refl _
    · exact List.nil_prefix

/-- A request that is neither enqueued nor finished stays, and keeps its line. -/
theorem lineOf_same {x : WriteEvent} (h : PortQueue.Step w.port x w'.port) {id : Nat}
    (hquiet : ∀ s ∈ x.stages id, s = .sent ∨ s = .begun) : w'.lineOf id = w.lineOf id := by
  have hpassed := h.passed id
  have hprefix := passed_prefix w'.port id
  unfold lineOf request
  cases hr : w.port.request id with
  | some r =>
    obtain ⟨hne, hfin⟩ := passed_live hr
    cases hr' : w'.port.request id with
    | some r' =>
      have hkept := h.kept id r r' hr hr'
      rw [hkept]
      rfl
    | none =>
      rcases passed_absent hr' with hnil | hmem
      · rw [hnil] at hpassed
        exact absurd (List.append_eq_nil_iff.mp hpassed.symm).1 hne
      · have hlast : PortStage.finished ∈ w.port.passed id ++ x.stages id := by rw [← hpassed, hmem]; decide
        rcases List.mem_append.mp hlast with hm | hm
        · exact absurd hm hfin
        · rcases hquiet _ hm with hs | hs <;> cases hs
  | none =>
    have hnone : x.stages id = [] := by
      rw [hpassed] at hprefix
      rcases hs : x.stages id with _ | ⟨s, rest⟩
      · rfl
      · have hsent := hquiet s (by rw [hs]; exact List.mem_cons_self)
        rw [hs] at hprefix
        rcases passed_absent hr with hnil | hall
        · rw [hnil, List.nil_append, List.cons_prefix_cons] at hprefix
          rcases hsent with h | h <;> rw [h] at hprefix <;> cases hprefix.1
        · rw [hall] at hprefix
          have hlength := hprefix.length_le
          simp only [List.length_append, List.length_cons, List.length_nil] at hlength
          omega
    have hsame : w'.port.passed id = w.port.passed id := by rw [hpassed, hnone, List.append_nil]
    cases hr' : w'.port.request id with
    | none => rfl
    | some r' =>
      obtain ⟨hne, hfin⟩ := passed_live hr'
      rw [hsame] at hne hfin
      rcases passed_absent hr with hnil | hmem
      · exact absurd hnil hne
      · exact absurd (by rw [hmem]; decide) hfin

/-- What a call does to the lines of the requests and to the index. -/
inductive Lined (w : WriteQueue) : PortCall Unit → Except (Fault PortError) (PortReply Unit LineKey) → WriteQueue → Prop
  | enqueued (line : LineKey) (w' : WriteQueue) (hnew : w.lineOf w.port.nextId = none)
      (hline : w'.lineOf = Function.update w.lineOf w.port.nextId (some line))
      (hindex : w'.ubAddresses = match line.memory with
        | .ub => w.ubAddresses.insert line.address.toNat w.port.nextId
        | .external => w.ubAddresses) :
      Lined w (.enqueue line ()) (.ok (.enqueued w.port.nextId)) w'
  | finished (id : Nat) (r : PortRequest Unit) (w' : WriteQueue) (hr : w.request id = some r) (hs : r.state = .responding)
      (hline : w'.lineOf = Function.update w.lineOf id none)
      (hindex : w'.ubAddresses = match r.line.memory with
        | .ub => w.ubAddresses.erase r.line.address.toNat
        | .external => w.ubAddresses) :
      Lined w (.finishResponse id) (.ok .finished) w'
  | same (c : PortCall Unit) (r : Except (Fault PortError) (PortReply Unit LineKey)) (w' : WriteQueue)
      (hline : w'.lineOf = w.lineOf) (hindex : w'.ubAddresses = w.ubAddresses)
      (hc : PortEvent.enqueued (c, r) = []) (hlast : FinishesLast c w) : Lined w c r w'

/-- The queue after an enqueue. -/
def pushed (w : WriteQueue) (line : LineKey) : WriteQueue where
  port := { w.port with
    nextId := w.port.nextId + 1
    requests := w.port.requests.insert w.port.nextId (w.port.fresh line ())
    queues := Function.update w.port.queues line.memory (w.port.queues line.memory ++ [w.port.nextId]) }
  ubAddresses := match line.memory with
    | .ub => w.ubAddresses.insert line.address.toNat w.port.nextId
    | .external => w.ubAddresses

/-- The queue after a response finishes. -/
def released (w : WriteQueue) (id : Nat) (r : PortRequest Unit) : WriteQueue where
  port := { w.port with requests := w.port.requests.erase id }
  ubAddresses := match r.line.memory with
    | .ub => w.ubAddresses.erase r.line.address.toNat
    | .external => w.ubAddresses

theorem enqueue_cases (line : LineKey) (w : WriteQueue) :
    (∃ e, exec (.enqueue line ()) w = (Outcome.fail e, w)) ∨
      exec (.enqueue line ()) w = (.ok (.enqueued w.port.nextId), w.pushed line) := by
  obtain ⟨e, he⟩ | he := PortQueue.enqueue_cases .timeOverflow line () w.port
  · left
    refine ⟨e, ?_⟩
    simp only [exec, enqueue, onPort, Call.bind, he]
    rfl
  · right
    simp only [exec, enqueue, onPort, Call.bind, he]
    unfold pushed
    cases line.memory <;> rfl

theorem finishResponse_cases (id : Nat) (w : WriteQueue) :
    ((∃ e, exec (.finishResponse id) w = (Outcome.fail e, w)) ∧ ∀ r, w.request id = some r → r.state ≠ .responding) ∨
      ∃ r, w.request id = some r ∧ r.state = .responding ∧
        exec (.finishResponse id) w = (.ok .finished, w.released id r) := by
  cases hr : w.request id with
  | none =>
    refine .inl ⟨⟨.missingRequest, ?_⟩, nofun⟩
    simp only [exec, finishResponse, hr]
    rfl
  | some r =>
    by_cases hs : r.state = .responding
    · refine .inr ⟨r, rfl, hs, ?_⟩
      simp only [exec, finishResponse, hr, ne_eq, hs, not_true_eq_false, if_false]
      rfl
    · refine .inl ⟨⟨.invalidState, ?_⟩, fun r' hr' => Option.some.inj hr' ▸ hs⟩
      simp only [exec, finishResponse, hr, ne_eq, hs, not_false_eq_true, if_true]
      rfl

theorem enqueue_lined (h : w.port.Inv) (line : LineKey) :
    Lined w (.enqueue line ()) (exec (.enqueue line ()) w).1 (exec (.enqueue line ()) w).2 := by
  obtain ⟨e, he⟩ | he := enqueue_cases line w
  · rw [he]
    exact .same _ _ _ rfl rfl rfl trivial
  · rw [he]
    refine .enqueued line _ (by unfold lineOf request; rw [h.fresh_absent]; rfl) (funext fun id => ?_) rfl
    simp only [pushed, lineOf, request, PortQueue.request, OrdMap.get?_insert, Function.update_apply]
    split <;> rfl

theorem finishResponse_lined (w : WriteQueue) (id : Nat) :
    Lined w (.finishResponse id) (exec (.finishResponse id) w).1 (exec (.finishResponse id) w).2 := by
  obtain ⟨⟨e, he⟩, hnot⟩ | ⟨r, hr, hs, he⟩ := finishResponse_cases id w
  · rw [he]
    exact .same _ _ _ rfl rfl rfl fun r hr hs => absurd hs (hnot r hr)
  · rw [he]
    refine .finished id r _ hr hs (funext fun id' => ?_) rfl
    simp only [released, lineOf, request, PortQueue.request, OrdMap.get?_erase, Function.update_apply]
    split <;> rfl

/-- Calls other than `enqueue` and `finish_response` neither enqueue nor finish. -/
theorem quiet_stages {c : PortCall Unit} {r : Except (Fault PortError) (PortReply Unit LineKey)} {id : Nat}
    (he : ∀ line origin, c ≠ .enqueue line origin) (hf : ∀ id, c ≠ .finishResponse id) :
    ∀ s ∈ PortEvent.stages id (c, r), s = .sent ∨ s = .begun := by
  intro s hs
  unfold PortEvent.stages at hs
  split at hs
  · rename_i heq
    exact absurd (congrArg Prod.fst heq) (he _ _)
  · obtain ⟨-, -, rfl⟩ := List.mem_map.mp hs
    exact .inl rfl
  · split at hs
    · exact .inr (List.mem_singleton.mp hs)
    · exact absurd hs List.not_mem_nil
  · rename_i heq
    exact absurd (congrArg Prod.fst heq) (hf _)
  · exact absurd hs List.not_mem_nil

theorem exec_lined (h : w.port.Inv) (c : PortCall Unit) : Lined w c (exec c w).1 (exec c w).2 := by
  have hstep := @PortQueue.exec_step _ _ _ .timeOverflow (fun r : PortRequest Unit => r.line) h c
  rw [exec_port] at hstep
  cases c with
  | enqueue line origin => exact enqueue_lined h line
  | finishResponse id => exact finishResponse_lined w id
  | dispatchClock tick ub external =>
    exact .same _ _ _ (funext fun id => lineOf_same hstep (quiet_stages (fun _ _ h => by cases h) fun _ h => by cases h)) rfl rfl trivial
  | beginResponse id =>
    refine .same _ _ _ (funext fun id => lineOf_same hstep (quiet_stages (fun _ _ h => by cases h) fun _ h => by cases h)) ?_ rfl trivial
    rcases hb : PortQueue.beginResponse id w.port with ⟨e | r, q⟩ <;>
      simp only [exec, beginResponse, onPort, Call.bind, hb] <;> rfl
  | advanceTo tick =>
    exact .same _ _ _ (funext fun id => lineOf_same hstep (quiet_stages (fun _ _ h => by cases h) fun _ h => by cases h)) rfl rfl trivial

/-! ## The index -/

theorem Indexed.same (hline : w'.lineOf = w.lineOf) (hindex : w'.ubAddresses = w.ubAddresses) (h : w.Indexed) : w'.Indexed := by
  intro line hm
  rw [hindex, h line hm, live_iff, live_iff, hline]

/-- A new line in the index, and among the live lines. -/
theorem Indexed.enqueued (h : w.Indexed) {line : LineKey} {id : Nat} (hnew : w.lineOf id = none)
    (hline : w'.lineOf = Function.update w.lineOf id (some line))
    (hindex : w'.ubAddresses = match line.memory with
      | .ub => w.ubAddresses.insert line.address.toNat id
      | .external => w.ubAddresses) : w'.Indexed := by
  have hlive : ∀ line', w'.Live line' ↔ line' = line ∨ w.Live line' := by
    intro line'
    rw [live_iff, live_iff, hline]
    constructor
    · rintro ⟨id', hid⟩
      by_cases he : id' = id
      · rw [he, Function.update_self] at hid
        exact .inl (Option.some.inj hid).symm
      · rw [Function.update_of_ne he] at hid
        exact .inr ⟨id', hid⟩
    · rintro (rfl | ⟨id', hid⟩)
      · exact ⟨id, Function.update_self _ _ _⟩
      · have hne : id' ≠ id := fun he => by rw [he, hnew] at hid; cases hid
        exact ⟨id', (Function.update_of_ne hne _ _).trans hid⟩
  intro line' hm
  rw [hlive, hindex]
  obtain ⟨address, memory⟩ := line
  obtain ⟨address', memory'⟩ := line'
  obtain rfl : memory' = .ub := hm
  cases memory with
  | ub =>
    show (w.ubAddresses.insert _ _).contains _ = true ↔ _
    rw [← h _ rfl]
    unfold OrdMap.contains
    rw [OrdMap.get?_insert]
    by_cases ha : address' = address
    · simp [ha]
    · have ha' : address'.toNat ≠ address.toNat := fun heq => ha (UInt64.toNat_inj.mp heq)
      simp [ha, ha']
  | external =>
    rw [← h _ rfl]
    simp

/-- A line goes out of the index, and is live no more if it was live once. -/
theorem Indexed.finished (h : w.Indexed) {id : Nat} {r : PortRequest Unit} (hr : w.request id = some r)
    (hline : w'.lineOf = Function.update w.lineOf id none)
    (hindex : w'.ubAddresses = match r.line.memory with
      | .ub => w.ubAddresses.erase r.line.address.toNat
      | .external => w.ubAddresses) :
    w'.Indexed ↔ (r.line.memory = .ub → ∀ id', w.lineOf id' = some r.line → id' = id) := by
  have hid : w.lineOf id = some r.line := by unfold lineOf; rw [hr]; rfl
  have hlive : ∀ line, w'.Live line ↔ ∃ id', id' ≠ id ∧ w.lineOf id' = some line := by
    intro line
    rw [live_iff, hline]
    refine exists_congr fun id' => ?_
    by_cases he : id' = id
    · simp [he]
    · simp [he]
  -- Another line is live as before: only `id` has gone.
  have hother : ∀ line, line ≠ r.line → (w'.Live line ↔ w.Live line) := by
    intro line hne
    rw [hlive, live_iff]
    refine ⟨fun ⟨id', _, hl⟩ => ⟨id', hl⟩, fun ⟨id', hl⟩ => ⟨id', fun he => hne ?_, hl⟩⟩
    rw [he, hid] at hl
    exact (Option.some.inj hl).symm
  cases hm : r.line.memory with
  | external =>
    refine ⟨fun _ => nofun, fun _ line hl => ?_⟩
    have hne : line ≠ r.line := fun he => by rw [he, hm] at hl; cases hl
    rw [hindex, hm, hother line hne]
    exact h line hl
  | ub =>
    rw [hm] at hindex
    have hcontains : ∀ line, line.memory = .ub →
        (w'.ubAddresses.contains line.address.toNat = true ↔ line ≠ r.line ∧ w.Live line) := by
      intro line hl
      rw [hindex, ← h line hl]
      unfold OrdMap.contains
      rw [OrdMap.get?_erase]
      by_cases ha : line.address.toNat = r.line.address.toNat
      · have he : line = r.line := by
          obtain ⟨address, memory⟩ := line
          have ha' : address = r.line.address := UInt64.toNat_inj.mp ha
          have hm' : memory = r.line.memory := hl.trans hm.symm
          rw [ha', hm']
        simp [he]
      · have he : line ≠ r.line := fun he => ha (by rw [he])
        simp [ha, he]
    constructor
    · intro hw _ id' hl
      by_contra hne
      have hgone := (hcontains r.line hm).not.mpr fun hc => hc.1 rfl
      exact hgone ((hw r.line hm).mpr ((hlive _).mpr ⟨id', hne, hl⟩))
    · intro honly line hl
      rw [hcontains line hl]
      by_cases he : line = r.line
      · subst he
        refine ⟨fun hc => absurd rfl hc.1, fun hc => ?_⟩
        obtain ⟨id', hne, hl'⟩ := (hlive _).mp hc
        exact absurd (honly rfl id' hl') hne
      · rw [hother line he]
        exact ⟨And.right, fun hc => ⟨he, hc⟩⟩

/-- A call keeps the index right just if what it finishes is the last of its line. -/
theorem Lined.indexed {r : Except (Fault PortError) (PortReply Unit LineKey)} (hl : Lined w c r w') (h : w.Indexed) :
    w'.Indexed ↔ FinishesLast c w := by
  cases hl with
  | enqueued line _ hnew hline hindex => exact ⟨fun _ => trivial, fun _ => h.enqueued hnew hline hindex⟩
  | finished id r _ hr hs hline hindex =>
    rw [h.finished hr hline hindex]
    constructor
    · intro honly r' hr' _ hm id' r'' hr'' hline'
      obtain rfl := Option.some.inj (hr.symm.trans hr')
      exact honly hm id' (by unfold lineOf; rw [hr'']; exact congrArg some hline')
    · intro hlast hm id' hid'
      obtain ⟨r', hr', hline'⟩ := Option.map_eq_some_iff.mp hid'
      exact hlast r hr hs hm id' r' hr' hline'
  | same _ _ _ hline hindex hc hlast => exact ⟨fun _ => hlast, fun _ => h.same hline hindex⟩

/-! ## Runs -/

/-- What the trace says of the lines of the requests. -/
structure Recorded (t : List WriteEvent) (w : WriteQueue) : Prop where
  traced : PortQueue.Traced t w.port
  made : ∀ id line, w.lineOf id = some line → (.enqueue line (), .ok (.enqueued id)) ∈ t
  line : ∀ id line line', (.enqueue line (), .ok (.enqueued id)) ∈ t → w.lineOf id = some line' → line = line'

theorem Recorded.id_lt (h : Recorded t w) {line : LineKey} {id : Nat} (hm : (.enqueue line (), .ok (.enqueued id)) ∈ t) :
    id < w.port.nextId := by
  have hid : id ∈ t.flatMap PortEvent.enqueued := List.mem_flatMap.mpr ⟨_, hm, List.mem_singleton_self id⟩
  rw [h.traced.exact.ids] at hid
  exact List.mem_range.mp hid

/-- A write is unfinished as long as it is live. -/
theorem Recorded.unfinished_iff (h : Recorded t w) (line : LineKey) : Unfinished t line ↔ w.Live line := by
  rw [live_iff]
  constructor
  · rintro ⟨id, hm, hfin⟩
    rw [h.traced.exact.stages] at hfin
    cases hr : w.lineOf id with
    | some line' =>
      obtain rfl := h.line id line line' hm hr
      exact ⟨id, hr⟩
    | none =>
      have hnone : w.port.request id = none := Option.map_eq_none_iff.mp hr
      unfold PortQueue.passed at hfin
      rw [hnone] at hfin
      exact absurd (by rw [if_pos (h.id_lt hm)]; decide) hfin
  · rintro ⟨id, hl⟩
    refine ⟨id, h.made id line hl, ?_⟩
    rw [h.traced.exact.stages]
    obtain ⟨r, hr, -⟩ := Option.map_eq_some_iff.mp hl
    exact (passed_live hr).2

theorem Recorded.hazardExact_iff (h : Recorded t w) : HazardExact t w ↔ w.Indexed := by
  unfold HazardExact
  rw [← hazards_live]
  exact forall_congr' fun line => by rw [h.unfinished_iff]

theorem recorded_new (capacity : UInt32) (lineBytes : Nat) : Recorded [] (new capacity lineBytes) where
  traced := PortQueue.traced_new capacity lineBytes
  made _ _ h := absurd h.symm (Option.some_ne_none _)
  line _ _ _ h := absurd h List.not_mem_nil

theorem Recorded.snoc (h : Recorded t w) (c : PortCall Unit) :
    Recorded (t ++ [(c, (exec c w).1)]) (exec c w).2 := by
  have hstep := @PortQueue.exec_step _ _ _ .timeOverflow (fun r : PortRequest Unit => r.line) h.traced.inv c
  rw [exec_port] at hstep
  have hlined := exec_lined h.traced.inv c
  refine ⟨h.traced.snoc hstep, fun id line hl => ?_, fun id line line' hm hl => ?_⟩
  · generalize (exec c w).1 = reply, (exec c w).2 = w' at hlined hl ⊢
    cases hlined with
    | enqueued line' _ hnew hline hindex =>
      rw [hline] at hl
      by_cases hid : id = w.port.nextId
      · subst hid
        rw [Function.update_self] at hl
        cases hl
        exact List.mem_append_right _ (List.mem_singleton_self _)
      · rw [Function.update_of_ne hid] at hl
        exact List.mem_append_left _ (h.made id line hl)
    | finished id' r _ hr hs hline hindex =>
      rw [hline] at hl
      by_cases hid : id = id'
      · rw [hid, Function.update_self] at hl
        cases hl
      · rw [Function.update_of_ne hid] at hl
        exact List.mem_append_left _ (h.made id line hl)
    | same _ _ _ hline => exact List.mem_append_left _ (h.made id line (hline ▸ hl))
  · generalize (exec c w).1 = reply, (exec c w).2 = w' at hlined hl hm
    cases hlined with
    | enqueued line'' _ hnew hline hindex =>
      rw [hline] at hl
      rcases List.mem_append.mp hm with hm | hm
      · rw [Function.update_of_ne (Nat.ne_of_lt (h.id_lt hm))] at hl
        exact h.line id line line' hm hl
      · cases List.mem_singleton.mp hm
        rw [Function.update_self] at hl
        exact Option.some.inj hl
    | finished id' r _ hr hs hline hindex =>
      rcases List.mem_append.mp hm with hm | hm
      · by_cases hid : id = id'
        · rw [hline, hid, Function.update_self] at hl
          cases hl
        · rw [hline, Function.update_of_ne hid] at hl
          exact h.line id line line' hm hl
      · cases List.mem_singleton.mp hm
    | same _ _ _ hline hindex hc hlast =>
      rcases List.mem_append.mp hm with hm | hm
      · exact h.line id line line' hm (hline ▸ hl)
      · rw [← List.mem_singleton.mp hm] at hc
        exact absurd hc (List.cons_ne_nil _ _)

theorem run_recorded (capacity : UInt32) (lineBytes : Nat) (cs : List (PortCall Unit)) :
    Recorded (runCalls exec (new capacity lineBytes) cs).1 (runCalls exec (new capacity lineBytes) cs).2 := by
  refine (run_runCalls _ _ cs).inv (I := Recorded) (recorded_new capacity lineBytes) ?_
  rintro t w ⟨c, r⟩ w' h hc
  have hcall : exec c w = (r, w') := hc
  have hsnoc := h.snoc c
  rwa [hcall] at hsnoc

/-- The index is right all along just if every response that finishes is the last of its line. -/
theorem indexed_iff (h : w.Indexed) (cs : List (PortCall Unit)) (hinv : w.port.Inv) :
    (∀ n, (runCalls exec w (cs.take n)).2.Indexed) ↔ Allowed FinishesLast exec w cs := by
  induction cs generalizing w with
  | nil => exact ⟨fun _ => trivial, fun _ n => by rw [List.take_nil]; exact h⟩
  | cons c cs ih =>
    have hfirst := (exec_lined hinv c).indexed h
    have hinv' : (exec c w).2.port.Inv := by
      have hstep := @PortQueue.exec_step _ _ _ .timeOverflow (fun r : PortRequest Unit => r.line) hinv c
      rw [exec_port] at hstep
      exact hstep.inv
    constructor
    · intro hall
      have hnext : (exec c w).2.Indexed := hall 1
      exact ⟨hfirst.mp hnext, (ih hnext hinv').mp fun n => hall (n + 1)⟩
    · rintro ⟨hc, hcs⟩ n
      cases n with
      | zero => exact h
      | succ n => exact (ih (hfirst.mpr hc) hinv').mpr hcs n

/-- After every call the hazards are those of the unfinished writes, just if each UB response that finishes is the last
of its line. -/
theorem write_hazards_exact_iff (capacity : UInt32) (lineBytes : Nat) (cs : List (PortCall Unit)) :
    (∀ n, HazardExact (runCalls exec (new capacity lineBytes) (cs.take n)).1
      (runCalls exec (new capacity lineBytes) (cs.take n)).2) ↔
      Allowed FinishesLast exec (new capacity lineBytes) cs := by
  have hnew : (new capacity lineBytes).Indexed := fun line _ =>
    iff_of_false Bool.false_ne_true fun ⟨_, _, hr, _⟩ => absurd hr.symm (Option.some_ne_none _)
  rw [← indexed_iff hnew cs (PortQueue.inv_new capacity lineBytes)]
  exact forall_congr' fun n => (run_recorded capacity lineBytes (cs.take n)).hazardExact_iff

/-- Two writes to a UB line, of which the first finishes. -/
def writtenTwice : List (PortCall Unit) :=
  let line : LineKey := ⟨64, .ub⟩
  [.enqueue line (), .enqueue line (), .dispatchClock 1 true true, .dispatchClock 2 true true, .beginResponse 0,
    .finishResponse 0]

theorem line_written_twice :
    let r := runCalls exec (new 2 64) writtenTwice
    r.2.hasHazard ⟨64, .ub⟩ = false ∧ Unfinished r.1 ⟨64, .ub⟩ ∧ ¬ HazardExact r.1 r.2 := by
  have hhazard : (runCalls exec (new 2 64) writtenTwice).2.hasHazard ⟨64, .ub⟩ = false := by decide
  have hunfinished : Unfinished (runCalls exec (new 2 64) writtenTwice).1 ⟨64, .ub⟩ := ⟨1, .tail _ (.head _), by decide⟩
  refine ⟨hhazard, hunfinished, fun h => ?_⟩
  rw [(h ⟨64, .ub⟩).mpr hunfinished] at hhazard
  cases hhazard

end WriteQueue

end AscendEmulator.C220.Lsu
