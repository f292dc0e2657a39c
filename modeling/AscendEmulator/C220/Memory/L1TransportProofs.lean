/-
  AscendEmulator.C220.Memory.L1TransportProofs — every request that L1 is sent is accepted once and answered once, in
  order, under a decision of its tick.

  A snapshot holds for its tick: the heads that no receiver has visited since are those it decided on (`Held`).
  `Moved` says what a receive, a respond, or both at once do to the ports of the service; `portLog` gathers from a
  trace what a port was sent, accepted and answered, and `PortKept` ties the log to the queues.
-/

import AscendEmulator.C220.Memory.L1Transport

namespace AscendEmulator.C220.Memory

open Lib

/-! ## Snapshots -/

namespace L1Pipeline

variable {g : L1Geometry} {tick : Nat} {s s' : L1Pipeline} {heads : L1Port → Option L1Request}

/-- The snapshots of a service: one a tick at most, the last one in force. -/
structure Snapshots (g : L1Geometry) (s : L1Pipeline) : Prop where
  geometry : s.arbiter.geometry = g
  sorted : (s.arbitrations.map (·.tick)).Pairwise (· < ·)
  range : ∀ a ∈ s.arbitrations, a.tick < u32 ∧ L1Arbiter.Fair g a.heads a.decisions
  last : ∀ T, s.arbitrationTick = some T →
    ∃ before heads, s.arbitrations = before ++ [⟨T, heads, s.decisions⟩]
  first : s.arbitrationTick = none → s.arbitrations = []

/-- The decisions of a port that its receiver has not visited in the tick are about its head. -/
def Held (heads : L1Port → Option L1Request) (s : L1Pipeline) : Prop :=
  ∀ T, s.arbitrationTick = some T → s.observedTick = some T → ∀ receiver p d, receiver.contains p = true →
    s.receiveTicks receiver ≠ some T → s.decisions p = some d → (heads p).map (·.access) = some d.access

structure Sound (g : L1Geometry) (heads : L1Port → Option L1Request) (s : L1Pipeline) : Prop where
  snapshots : Snapshots g s
  held : Held heads s
  timely : ∀ T, s.arbitrationTick = some T → ∃ o, s.observedTick = some o ∧ T ≤ o

theorem checkCallback_ok {receiver : L1Receiver} {response : Bool}
    (h : s.checkCallback tick receiver response = .ok ()) :
    (∀ o, s.observedTick = some o → o ≤ tick) ∧
      (if response then s.responseTicks else s.receiveTicks) receiver ≠ some tick := by
  unfold checkCallback at h
  split at h
  · cases h
  · rename_i htime
    refine ⟨fun o ho => ?_, fun hrepeated => ?_⟩
    · rw [ho] at htime
      by_contra hlt
      rw [Option.filter_some, if_pos (by simpa using hlt)] at htime
      cases htime
    · rw [if_pos hrepeated] at h
      cases h

theorem Snapshots.last_tick (h : Snapshots g s) {T : Nat} (hT : s.arbitrationTick = some T) : T < u32 := by
  obtain ⟨before, heads, ha⟩ := h.last T hT
  exact (h.range ⟨T, heads, s.decisions⟩ (by rw [ha]; simp)).1

/-- What is left of a state by a snapshot: all but the arbiter and its decisions. -/
structure SnapshotOnly (s s' : L1Pipeline) : Prop where
  pending : s'.pending = s.pending
  observedTick : s'.observedTick = s.observedTick
  receiveTicks : s'.receiveTicks = s.receiveTicks

/-- After a snapshot the decisions in force are of the tick: they were, or they are about the heads. -/
theorem snapshot_spec (hpos : 0 < tick) (hrange : tick < u32) (h : Snapshots g s)
    (hle : ∀ T, s.arbitrationTick = some T → T ≤ tick) (requests : L1Port → Option L1Request) :
    Snapshots g (s.snapshot tick requests) ∧ SnapshotOnly s (s.snapshot tick requests) ∧
      (s.snapshot tick requests).arbitrationTick = some tick ∧
      s.arbitrations <+: (s.snapshot tick requests).arbitrations ∧
      ((s.arbitrationTick = some tick ∧ s.snapshot tick requests = s) ∨
        (s.arbitrationTick ≠ some tick ∧ ∀ p d, (s.snapshot tick requests).decisions p = some d →
          (requests p).map (·.access) = some d.access)) := by
  unfold snapshot
  split
  · rename_i hstale
    have hbefore : ∀ T, s.arbitrationTick = some T → T < tick := by
      intro T hT
      rw [hT, Option.getD_some, Nat.mod_eq_of_lt (h.last_tick hT)] at hstale
      exact hstale
    obtain ⟨hfair, hgeometry⟩ := L1Arbiter.arbitrate_fair s.arbiter fun p => (requests p).map (·.access)
    rw [h.geometry] at hfair hgeometry
    refine ⟨⟨hgeometry, ?_, ?_, fun T hT => ?_, nofun⟩, ⟨rfl, rfl, rfl⟩, rfl, List.prefix_append _ _,
      .inr ⟨fun hT => absurd (hbefore _ hT) (lt_irrefl _), fun p d hd => hfair.access p d hd⟩⟩
    · show ((s.arbitrations ++ [_]).map L1Arbitration.tick).Pairwise _
      rw [List.map_append, List.pairwise_append]
      refine ⟨h.sorted, List.pairwise_singleton _ _, fun a ha b hb => ?_⟩
      obtain rfl : b = tick := by simpa using hb
      match hT : s.arbitrationTick with
      | none =>
        rw [h.first hT] at ha
        cases ha
      | some T =>
        have hlast := hbefore T hT
        obtain ⟨before, heads, hsplit⟩ := h.last T hT
        have hsorted := h.sorted
        rw [hsplit, List.map_append, List.pairwise_append] at hsorted
        rw [hsplit, List.map_append, List.mem_append] at ha
        rcases ha with ha | ha
        · exact (hsorted.2.2 a ha T (by simp)).trans hlast
        · obtain rfl : a = T := by simpa using ha
          exact hlast
    · intro a ha
      rcases List.mem_append.mp ha with ha | ha
      · exact h.range a ha
      · rw [List.mem_singleton.mp ha]
        exact ⟨hrange, hfair⟩
    · cases hT
      exact ⟨s.arbitrations, _, rfl⟩
  · rename_i hfresh
    have hnow : s.arbitrationTick = some tick := by
      match hT : s.arbitrationTick with
      | none =>
        rw [hT, Option.getD_none, Nat.zero_mod] at hfresh
        exact absurd hpos hfresh
      | some T =>
        rw [hT, Option.getD_some, Nat.mod_eq_of_lt (h.last_tick hT)] at hfresh
        have := hle T hT
        rw [show T = tick by omega]
    exact ⟨h, ⟨rfl, rfl, rfl⟩, hnow, List.prefix_refl _, .inl ⟨hnow, rfl⟩⟩

/-! ## Receive -/

/-- A port that a receive has visited: its head stays, or goes under a decision of the tick. -/
def Visited (tick : Nat) (heads : L1Port → Option L1Request) (s : L1Pipeline) (r : Receiving) (p : L1Port) : Prop :=
  (r.accepted p = false ∧ r.service.pending p = s.pending p) ∨
    (r.accepted p = true ∧ r.service.arbitrationTick = some tick ∧ ∃ request d, heads p = some request ∧
      r.decisions p = some d ∧ r.service.decisions p = some d ∧ d.granted = true ∧ request.access = d.access ∧
      r.service.pending p = s.pending p ++ [⟨request, tick, tick + p.responseTicks, d.bankMask⟩])

/-- The loop of a receive after the ports of `done`. -/
structure Loop (g : L1Geometry) (tick : Nat) (receiver : L1Receiver) (heads : L1Port → Option L1Request) (s : L1Pipeline)
    (done : List L1Port) (r : Receiving) : Prop where
  snapshots : Snapshots g r.service
  grow : s.arbitrations <+: r.service.arbitrations
  observedTick : r.service.observedTick = s.observedTick
  receiveTicks : r.service.receiveTicks = s.receiveTicks
  bound : ∀ T, r.service.arbitrationTick = some T → T ≤ tick
  waiting : ∀ p, (receiver.contains p = false ∨ p ∉ done) →
    r.requests p = heads p ∧ r.accepted p = false ∧ r.service.pending p = s.pending p
  less : ∀ p request, r.requests p = some request → heads p = some request
  held : r.service.arbitrationTick = some tick → ∀ rc p d, rc.contains p = true → s.receiveTicks rc ≠ some tick →
    (receiver.contains p = false ∨ p ∉ done) → r.service.decisions p = some d → (heads p).map (·.access) = some d.access
  visited : ∀ p, p ∈ done → receiver.contains p = true → Visited tick heads s r p

theorem Loop.skip {receiver : L1Receiver} {done : List L1Port} {r : Receiving} {port : L1Port}
    (h : Loop g tick receiver heads s done r) (hport : port ∉ done) : Loop g tick receiver heads s (port :: done) r where
  snapshots := h.snapshots
  grow := h.grow
  observedTick := h.observedTick
  receiveTicks := h.receiveTicks
  bound := h.bound
  waiting := fun p hp => h.waiting p (hp.imp_right fun hd hm => hd (by simp [hm]))
  less := h.less
  held := fun ht rc p d hrc hne hp => h.held ht rc p d hrc hne (hp.imp_right fun hd hm => hd (by simp [hm]))
  visited := by
    intro p hp hcontains
    rcases List.mem_cons.mp hp with rfl | hp
    · obtain ⟨-, haccepted, hpending⟩ := h.waiting p (.inr hport)
      exact .inl ⟨haccepted, hpending⟩
    · exact h.visited p hp hcontains

/-- The snapshot before a port is visited. -/
theorem Loop.snapshot {receiver : L1Receiver} {done : List L1Port} {r : Receiving} (hpos : 0 < tick) (hrange : tick < u32)
    (h : Loop g tick receiver heads s done r) :
    Loop g tick receiver heads s done { r with service := r.service.snapshot tick r.requests } ∧
      (r.service.snapshot tick r.requests).arbitrationTick = some tick := by
  obtain ⟨hsnap, honly, hnow, hgrow, hcases⟩ := snapshot_spec hpos hrange h.snapshots h.bound r.requests
  refine ⟨⟨hsnap, h.grow.trans hgrow, honly.observedTick.trans h.observedTick, honly.receiveTicks.trans h.receiveTicks,
    fun T hT => (Option.some.inj (hT.symm.trans hnow)).le, fun p hp => ?_, h.less,
    fun _ rc p d hrc hne hp hd => ?_, fun p hp hcontains => ?_⟩, hnow⟩
  · obtain ⟨hrequests, haccepted, hpending⟩ := h.waiting p hp
    exact ⟨hrequests, haccepted, (congrFun honly.pending p).trans hpending⟩
  · rcases hcases with ⟨hbefore, hsame⟩ | ⟨-, hnew⟩
    · rw [hsame] at hd
      exact h.held hbefore rc p d hrc hne hp hd
    · obtain ⟨request, hrequest, haccess⟩ := Option.map_eq_some_iff.mp (hnew p d hd)
      rw [h.less p request hrequest, Option.map_some, haccess]
  · rcases h.visited p hp hcontains with ⟨haccepted, hpending⟩ | hgone
    · exact .inl ⟨haccepted, (congrFun honly.pending p).trans hpending⟩
    · rcases hcases with ⟨-, hsame⟩ | ⟨hstale, -⟩
      · rw [hsame]
        exact .inr hgone
      · exact absurd hgone.2.1 hstale

/-- A port visited under the decisions of the tick. -/
theorem Loop.visit {receiver : L1Receiver} {done : List L1Port} {r : Receiving} {port : L1Port} {request : L1Request}
    (hfirst : s.receiveTicks receiver ≠ some tick) (hcontains : receiver.contains port = true) (hport : port ∉ done)
    (hrequest : r.requests port = some request) (hnow : r.service.arbitrationTick = some tick)
    (h : Loop g tick receiver heads s done r) :
    Loop g tick receiver heads s (port :: done)
      (match r.service.decisions port with
        | none => { r with decisions := Function.update r.decisions port (r.service.decisions port) }
        | some decision =>
          if decision.granted then
            { service := { r.service with
                pending := Function.update r.service.pending port
                  (r.service.pending port ++ [⟨request, tick, tick + port.responseTicks, decision.bankMask⟩]) }
              requests := Function.update r.requests port none
              decisions := Function.update r.decisions port (r.service.decisions port)
              accepted := Function.update r.accepted port true }
          else { r with decisions := Function.update r.decisions port (r.service.decisions port) }) := by
  have hother {p : L1Port} (hp : receiver.contains p = false ∨ p ∉ port :: done) :
      p ≠ port ∧ (receiver.contains p = false ∨ p ∉ done) := by
    rcases hp with hp | hp
    · refine ⟨fun heq => ?_, .inl hp⟩
      rw [heq, hcontains] at hp
      cases hp
    · obtain ⟨hne, hd⟩ : p ≠ port ∧ p ∉ done := by simpa using hp
      exact ⟨hne, .inr hd⟩
  have hstay : Loop g tick receiver heads s (port :: done)
      { r with decisions := Function.update r.decisions port (r.service.decisions port) } := by
    have hskip := h.skip hport
    refine ⟨hskip.snapshots, hskip.grow, hskip.observedTick, hskip.receiveTicks, hskip.bound, hskip.waiting, hskip.less,
      hskip.held, fun p hp hc => ?_⟩
    by_cases hpp : p = port
    · subst hpp
      obtain ⟨-, haccepted, hpending⟩ := h.waiting p (.inr hport)
      exact .inl ⟨haccepted, hpending⟩
    · rcases hskip.visited p hp hc with hstays | ⟨ha, ht, x, d, hx, hd, hrest⟩
      · exact .inl hstays
      · exact .inr ⟨ha, ht, x, d, hx, (Function.update_of_ne hpp _ _).trans hd, hrest⟩
  split
  · exact hstay
  · rename_i decision hdecision
    split
    · rename_i hgranted
      obtain ⟨hhead, -, hpending⟩ := h.waiting port (.inr hport)
      rw [hhead] at hrequest
      have haccess := h.held hnow receiver port decision hcontains hfirst (.inr hport) hdecision
      rw [hrequest, Option.map_some] at haccess
      refine ⟨⟨h.snapshots.geometry, h.snapshots.sorted, h.snapshots.range, h.snapshots.last, h.snapshots.first⟩, h.grow,
        h.observedTick, h.receiveTicks, h.bound, fun p hp => ?_, fun p x hx => ?_,
        fun ht rc p d hrc hne hp hd => h.held ht rc p d hrc hne (hother hp).2 hd, fun p hp hc => ?_⟩
      · obtain ⟨hne, hp⟩ := hother hp
        obtain ⟨hw₁, hw₂, hw₃⟩ := h.waiting p hp
        exact ⟨(Function.update_of_ne hne _ _).trans hw₁, (Function.update_of_ne hne _ _).trans hw₂,
          (Function.update_of_ne hne _ _).trans hw₃⟩
      · have hx : Function.update r.requests port none p = some x := hx
        by_cases hpp : p = port
        · subst hpp
          rw [Function.update_self] at hx
          cases hx
        · rw [Function.update_of_ne hpp] at hx
          exact h.less p x hx
      · by_cases hpp : p = port
        · subst hpp
          refine .inr ⟨Function.update_self _ _ _, hnow, request, decision, hrequest, (Function.update_self _ _ _).trans hdecision,
            hdecision, hgranted, Option.some.inj haccess, ?_⟩
          rw [← hpending]
          exact Function.update_self _ _ _
        · have hp : p ∈ done := by
            rcases List.mem_cons.mp hp with rfl | hp
            · exact absurd rfl hpp
            · exact hp
          rcases h.visited p hp hc with ⟨ha, hq⟩ | ⟨ha, ht, x, d, hx, hd, hs, hg, hacc, hq⟩
          · exact .inl ⟨(Function.update_of_ne hpp _ _).trans ha, (Function.update_of_ne hpp _ _).trans hq⟩
          · exact .inr ⟨(Function.update_of_ne hpp _ _).trans ha, ht, x, d, hx, (Function.update_of_ne hpp _ _).trans hd, hs,
              hg, hacc, (Function.update_of_ne hpp _ _).trans hq⟩
    · exact hstay

theorem Loop.port {receiver : L1Receiver} {done : List L1Port} {r : Receiving} (port : L1Port) (hpos : 0 < tick)
    (hrange : tick < u32) (hfirst : s.receiveTicks receiver ≠ some tick) (h : Loop g tick receiver heads s done r)
    (hport : port ∉ done) : Loop g tick receiver heads s (port :: done) (r.port tick receiver port) := by
  unfold Receiving.port
  split
  · exact h.skip hport
  · rename_i hcontains
    rw [Bool.not_eq_true', Bool.not_eq_false] at hcontains
    split
    · exact h.skip hport
    · rename_i request hrequest
      obtain ⟨hsnap, hnow⟩ := h.snapshot hpos hrange
      exact Loop.visit (r := { r with service := r.service.snapshot tick r.requests }) hfirst hcontains hport hrequest hnow
        hsnap

/-! ## What a call does to the service -/

/-- The decision under which the head of a port was accepted. -/
def takenOf (accepted : L1Port → Bool) (decisions : L1Port → Option L1Decision) (p : L1Port) : Option L1Decision :=
  if accepted p then decisions p else none

/-- A head that was accepted under a decision: of the tick, about the head, and granted. -/
def Accepts (tick : Nat) (s : L1Pipeline) (p : L1Port) (request : L1Request) (d : L1Decision) : Prop :=
  d.granted = true ∧ request.access = d.access ∧ ∃ a ∈ s.arbitrations, a.tick = tick ∧ a.decisions p = some d

/-- From `s` to `s'` at `tick`: the responses left, and then the heads of `taken` were accepted. -/
structure Moved (g : L1Geometry) (tick : Nat) (heads : L1Port → Option L1Request) (s : L1Pipeline)
    (taken : L1Port → Option L1Decision) (responses : L1Port → Option L1Response) (s' : L1Pipeline) : Prop where
  grow : s.arbitrations <+: s'.arbitrations
  snapshots : Snapshots g s'
  held : ∀ T, s'.arbitrationTick = some T → s'.observedTick = some T → ∀ receiver p d, receiver.contains p = true →
    s'.receiveTicks receiver ≠ some T → s'.decisions p = some d →
    taken p = none ∧ (heads p).map (·.access) = some d.access
  timely : ∀ T, s'.arbitrationTick = some T → ∃ o, s'.observedTick = some o ∧ T ≤ o
  due : ∀ p r, responses p = some r → r.readyTick ≤ tick
  pending : ∀ p, ∃ rest, s.pending p = (responses p).toList ++ rest ∧
    match taken p with
    | none => s'.pending p = rest
    | some d => ∃ request, heads p = some request ∧ Accepts tick s' p request d ∧
        s'.pending p = rest ++ [⟨request, tick, tick + p.responseTicks, d.bankMask⟩]

theorem contains_unique {rc receiver : L1Receiver} {p : L1Port} (hne : rc ≠ receiver) (h : rc.contains p = true) :
    receiver.contains p = false := by
  cases rc <;> cases receiver <;> cases p <;> first | rfl | exact absurd rfl hne | cases h

theorem mem_all (p : L1Port) : p ∈ [L1Port.mteRead, .mteWrite, .fixpWrite] := by
  cases p <;> decide

theorem Snapshots.congr (h : Snapshots g s) (ha : s'.arbiter = s.arbiter) (hs : s'.arbitrations = s.arbitrations)
    (ht : s'.arbitrationTick = s.arbitrationTick) (hd : s'.decisions = s.decisions) : Snapshots g s' where
  geometry := by rw [ha]; exact h.geometry
  sorted := by rw [hs]; exact h.sorted
  range := by rw [hs]; exact h.range
  last := by rw [hs, ht, hd]; exact h.last
  first := by rw [hs, ht]; exact h.first

/-- The loop over all ports. -/
theorem Sound.loop {receiver : L1Receiver} (hpos : 0 < tick) (hrange : tick < u32) (h : Sound g heads s)
    (hcheck : s.checkCallback tick receiver false = .ok ()) :
    Loop g tick receiver heads s [.mteRead, .mteWrite, .fixpWrite]
      (L1Port.all.foldl (Receiving.port tick receiver) ⟨s, heads, fun _ => none, fun _ => false⟩) := by
  obtain ⟨htime, hfirst⟩ := checkCallback_ok hcheck
  have hfirst : s.receiveTicks receiver ≠ some tick := hfirst
  have h₀ : Loop g tick receiver heads s [] ⟨s, heads, fun _ => none, fun _ => false⟩ := by
    refine ⟨h.snapshots, List.prefix_refl _, rfl, rfl, fun T hT => ?_, fun _ _ => ⟨rfl, rfl, rfl⟩, fun _ _ hx => hx,
      fun hnow rc p d hrc hne _ hd => ?_, nofun⟩
    · obtain ⟨o, ho, hle⟩ := h.timely T hT
      exact hle.trans (htime o ho)
    · obtain ⟨o, ho, hle⟩ := h.timely tick hnow
      rw [show o = tick from Nat.le_antisymm (htime o ho) hle] at ho
      exact h.held tick hnow ho rc p d hrc hne hd
  have h₁ := h₀.port .fixpWrite hpos hrange hfirst (by decide)
  have h₂ := h₁.port .mteWrite hpos hrange hfirst (by decide)
  exact h₂.port .mteRead hpos hrange hfirst (by decide)

theorem receive_moved {receiver : L1Receiver} {cycle : L1RequestCycle} (hpos : 0 < tick) (hrange : tick < u32)
    (h : Sound g heads s) (hc : receive tick receiver heads s = (.ok cycle, s')) :
    cycle.tick = tick ∧ (∀ p, cycle.accepted p = (takenOf cycle.accepted cycle.decisions p).isSome) ∧
      (∀ p, cycle.accepted p = true → receiver.contains p = true) ∧
      Moved g tick heads s (takenOf cycle.accepted cycle.decisions) (fun _ => none) s' := by
  unfold receive at hc
  split at hc
  · cases hc
  · rename_i hcheck
    split at hc
    · cases hc
    · have hloop := h.loop hpos hrange hcheck
      generalize L1Port.all.foldl (Receiving.port tick receiver) ⟨s, heads, fun _ => none, fun _ => false⟩ = r at hloop hc
      obtain ⟨rfl, rfl⟩ := ok_inj hc
      have hcontains (p : L1Port) (ha : r.accepted p = true) : receiver.contains p = true := by
        by_contra hno
        have := (hloop.waiting p (.inl (by simpa using hno))).2.1
        rw [ha] at this
        cases this
      -- What the cycle says of a port: its own decision, where the receiver has it.
      have htaken (p : L1Port) : takenOf r.accepted (fun p =>
          if !receiver.contains p && decide (r.service.arbitrationTick = some tick) then r.service.decisions p
          else r.decisions p) p = if r.accepted p then r.decisions p else none := by
        unfold takenOf
        cases ha : r.accepted p with
        | false => rfl
        | true =>
          rw [if_pos rfl, if_pos rfl]
          dsimp only
          rw [hcontains p ha]
          rfl
      have hsome (p : L1Port) : r.accepted p = (if r.accepted p then r.decisions p else none).isSome := by
        cases ha : r.accepted p with
        | false => rfl
        | true =>
          rcases hloop.visited p (mem_all p) (hcontains p ha) with ⟨hno, -⟩ | ⟨-, -, _, d, -, hd, -⟩
          · rw [ha] at hno
            cases hno
          · rw [if_pos rfl, hd]
            rfl
      refine ⟨rfl, fun p => by dsimp only; rw [htaken]; exact hsome p, hcontains, hloop.grow,
        hloop.snapshots.congr rfl rfl rfl rfl, fun T hT ho rc p d hrc hne hd => ?_,
        fun T hT => ⟨tick, rfl, hloop.bound T hT⟩, nofun, fun p => ⟨s.pending p, rfl, ?_⟩⟩
      · obtain rfl : T = tick := (Option.some.inj ho).symm
        have hne' : rc ≠ receiver := by
          rintro rfl
          exact hne (Function.update_self _ _ _)
        have hstale : s.receiveTicks rc ≠ some T := by
          have hne : Function.update r.service.receiveTicks receiver (some T) rc ≠ some T := hne
          rwa [Function.update_of_ne hne', hloop.receiveTicks] at hne
        have hout := contains_unique hne' hrc
        exact ⟨by rw [htaken, (hloop.waiting p (.inl hout)).2.1]; rfl, hloop.held hT rc p d hrc hstale (.inl hout) hd⟩
      · dsimp only
        rw [htaken]
        by_cases hout : receiver.contains p = true
        · rcases hloop.visited p (mem_all p) hout with ⟨ha, hq⟩ | ⟨ha, ht, request, d, hx, hd, hs, hg, hacc, hq⟩
          · rw [ha]
            exact hq
          · rw [ha, if_pos rfl, hd]
            obtain ⟨before, heads₀, hsplit⟩ := hloop.snapshots.last tick ht
            exact ⟨request, hx, ⟨hg, hacc, ⟨tick, heads₀, r.service.decisions⟩, by rw [hsplit]; simp, rfl, hs⟩, hq⟩
        · obtain ⟨-, ha, hq⟩ := hloop.waiting p (.inl (by simpa using hout))
          rw [ha]
          exact hq

theorem respond_moved {receiver : L1Receiver} {ready : L1Port → Bool} {cycle : L1ResponseCycle} (h : Sound g heads s)
    (hc : respond tick receiver ready s = (.ok cycle, s')) :
    cycle.tick = tick ∧ (∀ p r, cycle.responses p = some r → receiver.contains p = true ∧ ready p = true) ∧
      Moved g tick heads s (fun _ => none) cycle.responses s' := by
  unfold respond at hc
  split at hc
  · cases hc
  · rename_i hcheck
    obtain ⟨htime, -⟩ := checkCallback_ok hcheck
    obtain ⟨rfl, rfl⟩ := ok_inj hc
    have heligible (p : L1Port) (r : L1Response) (hr : (s.eligible tick receiver ready p).map Prod.fst = some r) :
        (receiver.contains p = true ∧ ready p = true) ∧ r.readyTick ≤ tick := by
      obtain ⟨⟨r', rest⟩, he, rfl⟩ := Option.map_eq_some_iff.mp hr
      unfold eligible at he
      split at he
      · rename_i hboth
        exact ⟨Bool.and_eq_true_iff.mp hboth, of_decide_eq_true (popFrontIf_eq_some.mp he).2⟩
      · cases he
    refine ⟨rfl, fun p r hr => (heligible p r hr).1, List.prefix_refl _, h.snapshots.congr rfl rfl rfl rfl,
      fun T hT ho rc p d hrc hne hd => ?_, fun T hT => ?_, fun p r hr => (heligible p r hr).2, fun p => ?_⟩
    · obtain rfl : T = tick := (Option.some.inj ho).symm
      obtain ⟨o, hobserved, hle⟩ := h.timely T hT
      rw [show o = T from Nat.le_antisymm (htime o hobserved) hle] at hobserved
      exact ⟨rfl, h.held T hT hobserved rc p d hrc hne hd⟩
    · obtain ⟨o, hobserved, hle⟩ := h.timely T hT
      exact ⟨tick, rfl, hle.trans (htime o hobserved)⟩
    · dsimp only
      cases he : s.eligible tick receiver ready p with
      | none => exact ⟨s.pending p, rfl, rfl⟩
      | some x =>
        obtain ⟨r, rest⟩ := x
        unfold eligible at he
        split at he
        · exact ⟨rest, (popFrontIf_eq_some.mp he).1, rfl⟩
        · cases he

/-- Whatever comes after the heads that left. -/
theorem Moved.sound {taken : L1Port → Option L1Decision} {responses : L1Port → Option L1Response}
    {heads' : L1Port → Option L1Request} (h : Moved g tick heads s taken responses s')
    (hheads : ∀ p, taken p = none → heads' p = heads p) : Sound g heads' s' := by
  refine ⟨h.snapshots, fun T hT ho rc p d hrc hne hd => ?_, h.timely⟩
  obtain ⟨hnone, haccess⟩ := h.held T hT ho rc p d hrc hne hd
  rw [hheads p hnone]
  exact haccess

theorem Accepts.mono {p : L1Port} {request : L1Request} {d : L1Decision} (hgrow : s.arbitrations <+: s'.arbitrations)
    (h : Accepts tick s p request d) : Accepts tick s' p request d := by
  obtain ⟨hg, haccess, a, ha, hrest⟩ := h
  exact ⟨hg, haccess, a, hgrow.subset ha, hrest⟩

/-- The heads that stay when those of `taken` leave. -/
def headsAfter (heads : L1Port → Option L1Request) (taken : L1Port → Option L1Decision) (p : L1Port) : Option L1Request :=
  if (taken p).isSome then none else heads p

theorem headsAfter_some {taken : L1Port → Option L1Decision} {p : L1Port} {request : L1Request}
    (h : headsAfter heads taken p = some request) : taken p = none ∧ heads p = some request := by
  unfold headsAfter at h
  split at h
  · cases h
  · exact ⟨Option.not_isSome_iff_eq_none.mp ‹_›, h⟩

theorem headsAfter_or (taken taken' : L1Port → Option L1Decision) :
    headsAfter (headsAfter heads taken) taken' = headsAfter heads fun p => (taken p).or (taken' p) := by
  funext p
  unfold headsAfter
  rcases Option.eq_none_or_eq_some (taken p) with ht | ⟨d, ht⟩ <;>
    rcases Option.eq_none_or_eq_some (taken' p) with ht' | ⟨d', ht'⟩ <;> simp [ht, ht']

/-- One after the other: a port answers in one of them, and not after its head was accepted. -/
theorem Moved.trans {s'' : L1Pipeline} {taken taken' : L1Port → Option L1Decision}
    {responses responses' : L1Port → Option L1Response} (h : Moved g tick heads s taken responses s')
    (h' : Moved g tick (headsAfter heads taken) s' taken' responses' s'')
    (hone : ∀ p, responses' p ≠ none → taken p = none ∧ responses p = none) :
    Moved g tick heads s (fun p => (taken p).or (taken' p)) (fun p => (responses p).or (responses' p)) s'' where
  grow := h.grow.trans h'.grow
  snapshots := h'.snapshots
  held := by
    intro T hT ho rc p d hrc hne hd
    obtain ⟨hnone', haccess⟩ := h'.held T hT ho rc p d hrc hne hd
    obtain ⟨request, hrequest, hacc⟩ := Option.map_eq_some_iff.mp haccess
    obtain ⟨hnone, hhead⟩ := headsAfter_some hrequest
    exact ⟨by rw [hnone, hnone']; rfl, by rw [hhead, Option.map_some, hacc]⟩
  timely := h'.timely
  due := by
    intro p r hr
    cases hresponse : responses p with
    | none =>
      rw [hresponse] at hr
      exact h'.due p r hr
    | some r' =>
      rw [hresponse] at hr
      cases hr
      exact h.due p _ hresponse
  pending := by
    intro p
    obtain ⟨rest, hrest, htaken⟩ := h.pending p
    obtain ⟨rest', hrest', htaken'⟩ := h'.pending p
    cases hresponse' : responses' p with
    | some r =>
      obtain ⟨hnone, hresponse⟩ := hone p (by rw [hresponse']; nofun)
      rw [hnone] at htaken ⊢
      rw [hresponse] at hrest ⊢
      rw [hresponse'] at hrest'
      refine ⟨rest', ?_, ?_⟩
      · rw [hrest, ← htaken, hrest']
        rfl
      · cases ht' : taken' p with
        | none => rw [ht'] at htaken'; exact htaken'
        | some d =>
          rw [ht'] at htaken'
          obtain ⟨request, hrequest, haccepts, hpending⟩ := htaken'
          exact ⟨request, (headsAfter_some hrequest).2, haccepts, hpending⟩
    | none =>
      rw [hresponse'] at hrest'
      refine ⟨rest, by rw [Option.or_none]; exact hrest, ?_⟩
      cases ht : taken p with
      | none =>
        rw [ht] at htaken
        have hrest'' : rest' = rest := hrest'.symm.trans htaken
        cases ht' : taken' p with
        | none =>
          rw [ht'] at htaken'
          exact htaken'.trans hrest''
        | some d =>
          rw [ht'] at htaken'
          obtain ⟨request, hrequest, haccepts, hpending⟩ := htaken'
          exact ⟨request, (headsAfter_some hrequest).2, haccepts, by rw [hpending, hrest'']⟩
      | some d =>
        rw [ht] at htaken
        obtain ⟨request, hrequest, haccepts, hpending⟩ := htaken
        refine ⟨request, hrequest, haccepts.mono h'.grow, ?_⟩
        cases ht' : taken' p with
        | none =>
          rw [ht'] at htaken'
          rw [htaken', ← hpending]
          exact hrest'.symm
        | some d' =>
          rw [ht'] at htaken'
          obtain ⟨request', hrequest', -⟩ := htaken'
          rw [(headsAfter_some hrequest').1] at ht
          cases ht

/-! ## Both phases -/

theorem respondAll_moved {ready : L1Port → Bool} {responses : L1Port → Option L1Response} (h : Sound g heads s)
    (hc : respondAll tick ready L1Receiver.all (fun _ => none) s = (.ok responses, s')) :
    (∀ p r, responses p = some r → ready p = true) ∧ Moved g tick heads s (fun _ => none) responses s' := by
  obtain ⟨readCycle, w, hread, hc⟩ := Call.bind_ok hc
  obtain ⟨writeCycle, w', hwrite, hc⟩ := Call.bind_ok hc
  obtain ⟨rfl, rfl⟩ := ok_inj hc
  obtain ⟨-, hread, hmoved⟩ := respond_moved h hread
  have hsame : headsAfter heads (fun _ => none) = heads := rfl
  have hsound : Sound g heads w := hmoved.sound fun _ _ => rfl
  obtain ⟨-, hwrite, hmoved'⟩ := respond_moved hsound hwrite
  have hone (p : L1Port) (hp : writeCycle.responses p ≠ none) : readCycle.responses p = none := by
    obtain ⟨r, hr⟩ := Option.ne_none_iff_exists'.mp hp
    cases hr' : readCycle.responses p with
    | none => rfl
    | some r' =>
      have hin := (hread p r' hr').1
      have hout : L1Receiver.read.contains p = false := contains_unique (by decide) (hwrite p r hr).1
      rw [hout] at hin
      cases hin
  refine ⟨fun p r hr => ?_, (hmoved.trans (hsame.symm ▸ hmoved') fun p hp => ⟨rfl, hone p hp⟩)⟩
  cases hr' : readCycle.responses p with
  | some r' => exact (hread p r' hr').2
  | none =>
    have hr : ((none : Option L1Response).or (readCycle.responses p)).or (writeCycle.responses p) = some r := hr
    rw [Option.none_or, hr', Option.none_or] at hr
    exact (hwrite p r hr).2

/-- What the receivers have taken so far, from `s` on. -/
structure TakenSoFar (g : L1Geometry) (tick : Nat) (heads : L1Port → Option L1Request) (s : L1Pipeline)
    (responses : L1Port → Option L1Response) (a : Taking) (w : L1Pipeline) : Prop where
  moved : Moved g tick heads s (takenOf a.accepted a.decisions) responses w
  heads : a.heads = headsAfter heads (takenOf a.accepted a.decisions)
  decided : ∀ p, a.accepted p = (takenOf a.accepted a.decisions p).isSome

theorem TakenSoFar.receive {responses : L1Port → Option L1Response} {a : Taking} {w w' : L1Pipeline}
    {receiver : L1Receiver} {cycle : L1RequestCycle} (hpos : 0 < tick) (hrange : tick < u32)
    (h : TakenSoFar g tick heads s responses a w) (hother : ∀ p, a.accepted p = true → receiver.contains p = false)
    (hc : receive tick receiver a.heads w = (.ok cycle, w')) :
    TakenSoFar g tick heads s responses (a.merge receiver cycle) w' ∧
      ∀ p, (a.merge receiver cycle).accepted p = true → a.accepted p = true ∨ receiver.contains p = true := by
  rw [h.heads] at hc
  have hsound : Sound g (headsAfter heads (takenOf a.accepted a.decisions)) w :=
    h.moved.sound fun p hp => by rw [headsAfter, hp]; rfl
  obtain ⟨-, hdecided, hcontains, hmoved⟩ := receive_moved hpos hrange hsound hc
  -- A port is accepted by its own receiver, under what that one decided.
  have hmerge : takenOf (a.merge receiver cycle).accepted (a.merge receiver cycle).decisions =
      fun p => (takenOf a.accepted a.decisions p).or (takenOf cycle.accepted cycle.decisions p) := by
    funext p
    have hd := h.decided p
    unfold takenOf at hd
    show (if a.accepted p || cycle.accepted p then
      (if receiver.contains p || (a.decisions p).isNone then cycle.decisions p else a.decisions p) else none) =
      (if a.accepted p then a.decisions p else none).or (if cycle.accepted p then cycle.decisions p else none)
    by_cases ha : a.accepted p = true
    · rw [ha, if_pos rfl] at hd
      obtain ⟨d, hd⟩ := Option.isSome_iff_exists.mp hd.symm
      simp [ha, hother p ha, hd]
    · by_cases hca : cycle.accepted p = true
      · simp [ha, hca, hcontains p hca]
      · simp [ha, hca]
  refine ⟨⟨?_, ?_, fun p => ?_⟩, fun p hp => ?_⟩
  · rw [hmerge]
    have htrans := h.moved.trans hmoved fun p hp => absurd rfl hp
    simpa only [Option.or_none] using htrans
  · rw [hmerge, ← headsAfter_or, ← h.heads]
    funext p
    show (if cycle.accepted p then none else a.heads p) = _
    rw [headsAfter, hdecided p]
  · rw [hmerge]
    show (a.accepted p || cycle.accepted p) = _
    rw [h.decided p, hdecided p]
    exact Option.isSome_or.symm
  · rcases Bool.or_eq_true_iff.mp hp with hp | hp
    · exact .inl hp
    · exact .inr (hcontains p hp)

theorem receiveAll_taken {responses : L1Port → Option L1Response} {notified : L1Port → Bool} {a₀ a : Taking}
    {w w' : L1Pipeline} (hpos : 0 < tick) (hrange : tick < u32) (h : TakenSoFar g tick heads s responses a₀ w)
    (hnone : ∀ p, a₀.accepted p = false) (hc : receiveAll tick notified L1Receiver.all a₀ w = (.ok a, w')) :
    TakenSoFar g tick heads s responses a w' := by
  -- The write receiver comes last.
  have hlast {a₁ : Taking} {w₁ : L1Pipeline} (h₁ : TakenSoFar g tick heads s responses a₁ w₁)
      (hread : ∀ p, a₁.accepted p = true → L1Receiver.write.contains p = false)
      (hc : receiveAll tick notified [.write] a₁ w₁ = (.ok a, w')) : TakenSoFar g tick heads s responses a w' := by
    unfold receiveAll at hc
    split at hc
    · obtain ⟨cycle, w₂, hreceive, hc⟩ := Call.bind_ok hc
      obtain ⟨rfl, rfl⟩ := ok_inj hc
      exact (h₁.receive hpos hrange hread hreceive).1
    · obtain ⟨rfl, rfl⟩ := ok_inj hc
      exact h₁
  unfold L1Receiver.all receiveAll at hc
  split at hc
  · obtain ⟨cycle, w₁, hreceive, hc⟩ := Call.bind_ok hc
    obtain ⟨h₁, hby⟩ := h.receive hpos hrange (fun p hp => by rw [hnone p] at hp; cases hp) hreceive
    refine hlast h₁ (fun p hp => ?_) hc
    rcases hby p hp with hp | hp
    · rw [hnone p] at hp
      cases hp
    · exact contains_unique (by decide) hp
  · exact hlast h (fun p hp => by rw [hnone p] at hp; cases hp) hc

theorem stepNotified_moved {notified ready : L1Port → Bool} {cycle : L1Cycle} (hpos : 0 < tick) (hrange : tick < u32)
    (h : Sound g heads s) (hc : stepNotified tick heads notified ready s = (.ok cycle, s')) :
    cycle.tick = tick ∧ (∀ p, cycle.accepted p = (takenOf cycle.accepted cycle.decisions p).isSome) ∧
      (∀ p r, cycle.responses p = some r → ready p = true) ∧
      Moved g tick heads s (takenOf cycle.accepted cycle.decisions) cycle.responses s' := by
  unfold stepNotified at hc
  split at hc
  · cases hc
  · obtain ⟨responses, w, hrespond, hc⟩ := Call.bind_ok hc
    obtain ⟨a, w', hreceive, hc⟩ := Call.bind_ok hc
    obtain ⟨rfl, rfl⟩ := ok_inj hc
    obtain ⟨hready, hmoved⟩ := respondAll_moved h hrespond
    have htaken := receiveAll_taken hpos hrange ⟨hmoved, rfl, fun _ => rfl⟩ (fun _ => rfl) hreceive
    exact ⟨rfl, htaken.decided, hready, htaken.moved⟩

end L1Pipeline

/-! ## The log of a port -/

namespace L1Transport

/-- An acceptance: the request in its turn, the tick, and the decision it was accepted under. -/
structure L1Acceptance where
  request : Option L1Request
  tick : Nat
  decision : Option L1Decision

/-- What a port was sent, what it accepted, the responses that left the service and when, and those taken. -/
structure L1PortLog where
  sent : List L1Request
  accepted : List L1Acceptance
  left : List (Nat × L1Response)
  answered : List L1Response

/-- One cycle of the service, as its port sees it. -/
def L1PortLog.cycle (log : L1PortLog) (tick : Nat) (accepted : Bool) (decision : Option L1Decision)
    (response : Option L1Response) : L1PortLog :=
  { log with
    accepted := if accepted then log.accepted ++ [⟨log.sent[log.accepted.length]?, tick, decision⟩] else log.accepted
    left := log.left ++ response.toList.map fun r => (tick, r) }

def logStep (port : L1Port) (log : L1PortLog) : L1Call × Except L1TransportError L1Reply → L1PortLog
  | (.sendRequest _ p request, .ok (.sent true)) =>
    if p = port then { log with sent := log.sent ++ [request] } else log
  | (.receiveResponse _ p, .ok (.response (some r))) =>
    if p = port then { log with answered := log.answered ++ [r] } else log
  | (_, .ok (.cycle c)) => log.cycle c.tick (c.accepted port) (c.decisions port) (c.responses port)
  | (_, .ok (.requests c)) => log.cycle c.tick (c.accepted port) (c.decisions port) none
  | (_, .ok (.responses c)) => log.cycle c.tick false none (c.responses port)
  | _ => log

def portLog (port : L1Port) (trace : List (L1Call × Except L1TransportError L1Reply)) : L1PortLog :=
  trace.foldl (logStep port) ⟨[], [], [], []⟩

/-- The response to an acceptance. -/
def Answers (port : L1Port) (a : L1Acceptance) (r : L1Response) : Prop :=
  a.request = some r.request ∧ r.acceptedTick = a.tick ∧ r.readyTick = a.tick + port.responseTicks ∧
    a.decision.map (·.bankMask) = some r.bankMask

/-- The log of a port against its queues. -/
structure PortKept (port : L1Port) (log : L1PortLog) (s : L1Transport) : Prop where
  sent : log.sent.map some = log.accepted.map (·.request) ++ (s.requests port).map fun t => some t.payload
  decided : ∀ a ∈ log.accepted, ∃ request d, a.request = some request ∧ a.decision = some d ∧
    L1Pipeline.Accepts a.tick s.service port request d
  answers : List.Forall₂ (Answers port) log.accepted (log.left.map Prod.snd ++ s.service.pending port)
  due : ∀ x ∈ log.left, x.2.readyTick ≤ x.1
  left : log.left.map Prod.snd = log.answered ++ (s.responses port).map (·.payload)
  requests : (s.requests port).length ≤ capacity
  responses : (s.responses port).length ≤ capacity

structure Kept (g : L1Geometry) (t : List (L1Call × Except L1TransportError L1Reply)) (s : L1Transport) : Prop where
  ports : ∀ port, PortKept port (portLog port t) s
  sound : L1Pipeline.Sound g s.heads s.service

section Steps

variable {g : L1Geometry} {s s' : L1Transport} {tick : Nat} {port : L1Port} {log : L1PortLog}

theorem portLog_snoc {t : List (L1Call × Except L1TransportError L1Reply)} {x : L1Call × Except L1TransportError L1Reply} :
    portLog port (t ++ [x]) = logStep port (portLog port t) x := by
  simp [portLog]

theorem exists_of_mem_forall₂ {as : List L1Acceptance} {rs : List L1Response} (h : List.Forall₂ (Answers port) as rs)
    {r : L1Response} (hr : r ∈ rs) : ∃ a ∈ as, Answers port a r := by
  induction h with
  | nil => cases hr
  | cons hab _ ih =>
    rcases List.mem_cons.mp hr with rfl | hr
    · exact ⟨_, by simp, hab⟩
    · obtain ⟨a, ha, hr⟩ := ih hr
      exact ⟨a, by simp [ha], hr⟩

theorem heads_some {request : L1Request} (h : s.heads port = some request) :
    ∃ t rest, s.requests port = t :: rest ∧ t.payload = request := by
  obtain ⟨t, ht, rfl⟩ := Option.map_eq_some_iff.mp h
  obtain ⟨rest, hrest⟩ := List.head?_eq_some_iff.mp ht
  exact ⟨t, rest, hrest, rfl⟩

/-- The next request in its turn is the head of the queue. -/
theorem PortKept.turn (h : PortKept port log s) {t : L1Transit L1Request} {rest : List (L1Transit L1Request)}
    (hqueue : s.requests port = t :: rest) : log.sent[log.accepted.length]? = some t.payload := by
  have hat := congrArg (·[log.accepted.length]?) h.sent
  simp only [hqueue, List.getElem?_map, List.map_cons] at hat
  rw [List.getElem?_append_right (by simp)] at hat
  simpa using hat

theorem PortKept.moved {taken : L1Port → Option L1Decision} {responses : L1Port → Option L1Response} {sv : L1Pipeline}
    {accepted : L1Port → Bool} {decision : Option L1Decision} {readyTick : Nat} (h : PortKept port log s)
    (hm : L1Pipeline.Moved g tick s.heads s.service taken responses sv) (haccepted : accepted port = (taken port).isSome)
    (hdecision : ∀ d, taken port = some d → decision = some d)
    (hcredit : ∀ r, responses port = some r → s.credits port = true) :
    PortKept port (log.cycle tick (accepted port) decision (responses port))
      (s.moved tick readyTick accepted responses sv) := by
  obtain ⟨rest, hpending, htaken⟩ := hm.pending port
  have hanswers := h.answers
  rw [hpending, ← List.append_assoc] at hanswers
  have hleft : (log.left ++ (responses port).toList.map fun r => (tick, r)).map Prod.snd =
      log.left.map Prod.snd ++ (responses port).toList := by
    simp [Function.comp_def]
  have hdue : ∀ x ∈ log.left ++ (responses port).toList.map fun r => (tick, r), x.2.readyTick ≤ x.1 := by
    intro x hx
    rcases List.mem_append.mp hx with hx | hx
    · exact h.due x hx
    · obtain ⟨r, hr, rfl⟩ := List.mem_map.mp hx
      exact hm.due port r (Option.mem_toList.mp hr)
  have hmovedLeft : (log.left ++ (responses port).toList.map fun r => (tick, r)).map Prod.snd = log.answered ++
      (s.responses port ++ (responses port).toList.map fun payload =>
        (⟨tick, readyTick, payload⟩ : L1Transit L1Response)).map L1Transit.payload := by
    rw [hleft, h.left]
    simp [Function.comp_def]
  have hroom : (s.responses port ++ (responses port).toList.map fun payload =>
      (⟨tick, readyTick, payload⟩ : L1Transit L1Response)).length ≤ capacity := by
    cases hr : responses port with
    | none => simpa using h.responses
    | some r =>
      have := of_decide_eq_true (hcredit r hr)
      simp only [Option.toList_some, List.map_singleton, List.length_append, List.length_singleton]
      omega
  have hmono (a : L1Acceptance) (ha : a ∈ log.accepted) : ∃ request d, a.request = some request ∧ a.decision = some d ∧
      L1Pipeline.Accepts a.tick sv port request d := by
    obtain ⟨request, d, hrequest, hd, haccepts⟩ := h.decided a ha
    exact ⟨request, d, hrequest, hd, haccepts.mono hm.grow⟩
  cases ht : taken port with
  | none =>
    rw [ht] at haccepted htaken
    rw [haccepted]
    refine ⟨?_, hmono, ?_, hdue, hmovedLeft, ?_, hroom⟩
    · show _ = _ ++ (if accepted port then _ else s.requests port).map _
      rw [haccepted]
      exact h.sent
    · show List.Forall₂ _ _ ((log.left ++ _).map Prod.snd ++ sv.pending port)
      rw [hleft, show sv.pending port = rest from htaken]
      exact hanswers
    · show (if accepted port then _ else s.requests port).length ≤ _
      rw [haccepted]
      exact h.requests
  | some d =>
    rw [ht] at haccepted htaken
    obtain ⟨request, hhead, haccepts, hpending'⟩ := htaken
    obtain ⟨t, queue, hqueue, hpayload⟩ := heads_some hhead
    have hturn := h.turn hqueue
    rw [hpayload] at hturn
    have hrecord : (log.cycle tick (accepted port) decision (responses port)).accepted =
        log.accepted ++ [⟨some request, tick, some d⟩] := by
      show (if accepted port then _ else _) = _
      rw [haccepted, Option.isSome_some, if_pos rfl, hturn, hdecision d ht]
    have hrequests : (s.moved tick readyTick accepted responses sv).requests port = queue := by
      show (if accepted port then (s.requests port).tail else _) = _
      rw [haccepted, Option.isSome_some, if_pos rfl, hqueue]
      rfl
    refine ⟨?_, ?_, ?_, hdue, hmovedLeft, ?_, hroom⟩
    · rw [hrecord, hrequests]
      show log.sent.map some = _
      rw [h.sent, hqueue]
      simp [hpayload]
    · rw [hrecord]
      intro a ha
      rcases List.mem_append.mp ha with ha | ha
      · exact hmono a ha
      · rw [List.mem_singleton.mp ha]
        exact ⟨request, d, rfl, rfl, haccepts⟩
    · rw [hrecord]
      show List.Forall₂ _ _ ((log.left ++ _).map Prod.snd ++ sv.pending port)
      rw [hleft, hpending', ← List.append_assoc]
      exact List.rel_append hanswers (.cons ⟨rfl, rfl, rfl, rfl⟩ .nil)
    · rw [hrequests]
      have := h.requests
      rw [hqueue, List.length_cons] at this
      omega

theorem takenOf_some {accepted : L1Port → Bool} {decisions : L1Port → Option L1Decision} {d : L1Decision}
    (h : L1Pipeline.takenOf accepted decisions port = some d) : decisions port = some d := by
  unfold L1Pipeline.takenOf at h
  split at h
  · exact h
  · cases h

theorem Kept.moved {t : List (L1Call × Except L1TransportError L1Reply)}
    {x : L1Call × Except L1TransportError L1Reply} {accepted : L1Port → Bool} {decisions : L1Port → Option L1Decision}
    {responses : L1Port → Option L1Response} {sv : L1Pipeline} {readyTick : Nat} (h : Kept g t s)
    (hm : L1Pipeline.Moved g tick s.heads s.service (L1Pipeline.takenOf accepted decisions) responses sv)
    (haccepted : ∀ p, accepted p = (L1Pipeline.takenOf accepted decisions p).isSome)
    (hcredit : ∀ p r, responses p = some r → s.credits p = true)
    (hlog : ∀ p log, logStep p log x = log.cycle tick (accepted p) (decisions p) (responses p)) :
    Kept g (t ++ [x]) (s.moved tick readyTick accepted responses sv) := by
  refine ⟨fun p => ?_, hm.sound fun p hp => ?_⟩
  · rw [portLog_snoc, hlog]
    exact (h.ports p).moved hm (haccepted p) (fun _ => takenOf_some) (hcredit p)
  · show (if accepted p then (s.requests p).tail else s.requests p).head?.map _ = _
    rw [haccepted p, hp]
    rfl

theorem Kept.sent {t : List (L1Call × Except L1TransportError L1Reply)} {p : L1Port} {request : L1Request} {sent : Bool}
    (h : Kept g t s) (hc : sendRequest tick p request s = (.ok sent, s')) :
    Kept g (t ++ [(.sendRequest tick p request, .ok (.sent sent))]) s' := by
  unfold sendRequest at hc
  split at hc
  · cases hc
  · split at hc
    · obtain ⟨rfl, rfl⟩ := ok_inj hc
      exact ⟨fun port => by
        rw [portLog_snoc]
        exact ⟨(h.ports port).sent, (h.ports port).decided, (h.ports port).answers, (h.ports port).due,
          (h.ports port).left, (h.ports port).requests, (h.ports port).responses⟩, h.sound⟩
    · rename_i hready
      split at hc
      · cases hc
      · rename_i readyTick _
        obtain ⟨rfl, rfl⟩ := ok_inj hc
        have hroom : (s.requests p).length < capacity := by
          unfold requestReady at hready
          simpa using hready
        refine ⟨fun port => ?_, h.sound.snapshots, fun T hT ho rc q d hrc hne hd => ?_, h.sound.timely⟩
        · have hport := h.ports port
          rw [portLog_snoc]
          show PortKept port (if p = port then _ else _) _
          by_cases hp : p = port
          · subst hp
            rw [if_pos rfl]
            refine ⟨?_, hport.decided, hport.answers, hport.due, hport.left, ?_, hport.responses⟩
            · show ((portLog p t).sent ++ [request]).map some = _ ++ (Function.update s.requests p _ p).map _
              rw [Function.update_self, List.map_append, hport.sent]
              simp
            · show (Function.update s.requests p _ p).length ≤ _
              rw [Function.update_self, List.length_append, List.length_singleton]
              omega
          · rw [if_neg hp]
            refine ⟨?_, hport.decided, hport.answers, hport.due, hport.left, ?_, hport.responses⟩
            · show _ = _ ++ (Function.update s.requests p _ port).map _
              rw [Function.update_of_ne (Ne.symm hp)]
              exact hport.sent
            · show (Function.update s.requests p _ port).length ≤ _
              rw [Function.update_of_ne (Ne.symm hp)]
              exact hport.requests
        · have hold := h.sound.held T hT ho rc q d hrc hne hd
          obtain ⟨head, hhead, haccess⟩ := Option.map_eq_some_iff.mp hold
          obtain ⟨transit, rest, hqueue, hpayload⟩ := heads_some hhead
          show (((Function.update s.requests p _ q).head?.map _).map _) = _
          by_cases hq : q = p
          · subst hq
            rw [Function.update_self, hqueue]
            simp [hpayload, haccess]
          · rw [Function.update_of_ne hq, hqueue]
            simp [hpayload, haccess]

theorem Kept.taken {t : List (L1Call × Except L1TransportError L1Reply)} {p : L1Port} {answer : Option L1Response}
    (h : Kept g t s) (hc : receiveResponse tick p s = (.ok answer, s')) :
    Kept g (t ++ [(.receiveResponse tick p, .ok (.response answer))]) s' := by
  unfold receiveResponse at hc
  split at hc
  · cases hc
  · split at hc
    · obtain ⟨rfl, rfl⟩ := ok_inj hc
      exact ⟨fun port => by
        rw [portLog_snoc]
        exact ⟨(h.ports port).sent, (h.ports port).decided, (h.ports port).answers, (h.ports port).due,
          (h.ports port).left, (h.ports port).requests, (h.ports port).responses⟩, h.sound⟩
    · rename_i head queue hpop
      obtain ⟨rfl, rfl⟩ := ok_inj hc
      have hqueue := (popFrontIf_eq_some.mp hpop).1
      refine ⟨fun port => ?_, h.sound⟩
      have hport := h.ports port
      rw [portLog_snoc]
      show PortKept port (if p = port then _ else _) _
      by_cases hp : p = port
      · subst hp
        rw [if_pos rfl]
        refine ⟨hport.sent, hport.decided, hport.answers, hport.due, ?_, hport.requests, ?_⟩
        · show (portLog p t).left.map Prod.snd = ((portLog p t).answered ++ [head.payload]) ++
            (Function.update s.responses p queue p).map _
          rw [Function.update_self, hport.left, hqueue]
          simp
        · have hlength := hport.responses
          rw [hqueue, List.length_cons] at hlength
          show (Function.update s.responses p queue p).length ≤ _
          rw [Function.update_self]
          omega
      · rw [if_neg hp]
        refine ⟨hport.sent, hport.decided, hport.answers, hport.due, ?_, hport.requests, ?_⟩
        · show _ = _ ++ (Function.update s.responses p queue port).map _
          rw [Function.update_of_ne (Ne.symm hp)]
          exact hport.left
        · show (Function.update s.responses p queue port).length ≤ _
          rw [Function.update_of_ne (Ne.symm hp)]
          exact hport.responses

theorem Kept.advanced {t : List (L1Call × Except L1TransportError L1Reply)} {cycle : L1Cycle} (hpos : 0 < tick)
    (hrange : tick < u32) (h : Kept g t s) (hc : advance tick s = (.ok cycle, s')) :
    Kept g (t ++ [(.advance tick, .ok (.cycle cycle))]) s' := by
  unfold advance at hc
  split at hc
  · cases hc
  · split at hc
    · cases hc
    · dsimp only at hc
      split at hc
      · cases hc
      · rename_i cycle' sv hstep
        obtain ⟨rfl, rfl⟩ := ok_inj hc
        obtain ⟨htick, haccepted, hcredit, hm⟩ := L1Pipeline.stepNotified_moved hpos hrange h.sound hstep
        exact h.moved hm haccepted hcredit fun p log => by rw [← htick]; rfl

theorem Kept.received {t : List (L1Call × Except L1TransportError L1Reply)} {receiver : L1Receiver}
    {cycle : L1RequestCycle} (hpos : 0 < tick) (hrange : tick < u32) (h : Kept g t s)
    (hc : receiveRequests tick receiver s = (.ok cycle, s')) :
    Kept g (t ++ [(.receiveRequests tick receiver, .ok (.requests cycle))]) s' := by
  unfold receiveRequests at hc
  split at hc
  · cases hc
  · split at hc
    · cases hc
    · rename_i cycle' sv hstep
      obtain ⟨rfl, rfl⟩ := ok_inj hc
      obtain ⟨htick, haccepted, -, hm⟩ := L1Pipeline.receive_moved hpos hrange h.sound hstep
      exact h.moved hm haccepted nofun fun p log => by rw [← htick]; rfl

theorem Kept.responded {t : List (L1Call × Except L1TransportError L1Reply)} {receiver : L1Receiver}
    {cycle : L1ResponseCycle} (h : Kept g t s) (hc : sendResponses tick receiver s = (.ok cycle, s')) :
    Kept g (t ++ [(.sendResponses tick receiver, .ok (.responses cycle))]) s' := by
  unfold sendResponses at hc
  split at hc
  · cases hc
  · dsimp only at hc
    split at hc
    · cases hc
    · split at hc
      · cases hc
      · rename_i cycle' sv hstep
        obtain ⟨rfl, rfl⟩ := ok_inj hc
        obtain ⟨htick, hcontains, hm⟩ := L1Pipeline.respond_moved h.sound hstep
        have hm : L1Pipeline.Moved g tick s.heads s.service (L1Pipeline.takenOf (fun _ => false) fun _ => none)
          cycle'.responses sv := hm
        exact h.moved hm (fun _ => rfl) (fun p r hr => (hcontains p r hr).2) fun p log => by rw [← htick]; rfl

end Steps

/-! ## Runs -/

/-- The calls of a run: ticks that fit the stamp of the snapshots, and no error. -/
def Allowed (c : L1Call) (s : L1Transport) : Prop := 0 < c.tick ∧ c.tick < u32 ∧ (exec c s).1.isOk = true

theorem run_kept {g : L1Geometry} {t : List (L1Call × Except L1TransportError L1Reply)} {s : L1Transport}
    (h : Run (callsWhen Allowed exec) (.new g) t s) : Kept g t s := by
  refine h.inv (I := Kept g) ⟨fun port => ?_, ?_⟩ ?_
  · exact ⟨rfl, nofun, .nil, nofun, rfl, Nat.zero_le _, Nat.zero_le _⟩
  · exact ⟨⟨rfl, .nil, nofun, nofun, fun _ => rfl⟩, nofun, nofun⟩
  · rintro t s ⟨c, r⟩ s' hk ⟨⟨hpos, hrange, hok⟩, hc⟩
    have hexec : exec c s = (r, s') := hc
    rw [hexec] at hok
    cases r with
    | error e => cases hok
    | ok r =>
      cases c with
      | sendRequest tick p request =>
        obtain ⟨sent, hr, rfl⟩ := reply_ok hexec
        exact hk.sent hr
      | receiveResponse tick p =>
        obtain ⟨answer, hr, rfl⟩ := reply_ok hexec
        exact hk.taken hr
      | advance tick =>
        obtain ⟨cycle, hr, rfl⟩ := reply_ok hexec
        exact hk.advanced hpos hrange hr
      | receiveRequests tick receiver =>
        obtain ⟨cycle, hr, rfl⟩ := reply_ok hexec
        exact hk.received hpos hrange hr
      | sendResponses tick receiver =>
        obtain ⟨cycle, hr, rfl⟩ := reply_ok hexec
        exact hk.responded hr

section Results

variable {g : L1Geometry} {t : List (L1Call × Except L1TransportError L1Reply)} {s s' : L1Transport}

/-- There is one snapshot a tick. -/
theorem snapshot_unique (h : L1Pipeline.Snapshots g s.service) {a b : L1Arbitration} (ha : a ∈ s.service.arbitrations)
    (hb : b ∈ s.service.arbitrations) (hab : a.tick = b.tick) : a = b :=
  List.inj_on_of_nodup_map (h.sorted.imp fun hlt => Nat.ne_of_lt hlt) ha hb hab

/-- A head that no call accepts stays at the front of its queue. -/
theorem requests_prefix {c : L1Call} {r : L1Reply} {port : L1Port} (hc : exec c s = (.ok r, s'))
    (hdenied : (portLog port (t ++ [(c, .ok r)])).accepted = (portLog port t).accepted) :
    s.requests port <+: s'.requests port := by
  have hcycle {cycleTick tick readyTick : Nat} {accepted : L1Port → Bool} {decision : Option L1Decision}
      {responses : L1Port → Option L1Response} {response : Option L1Response} {sv : L1Pipeline}
      (hsame : ((portLog port t).cycle cycleTick (accepted port) decision response).accepted =
        (portLog port t).accepted) :
      s.requests port <+: (s.moved tick readyTick accepted responses sv).requests port := by
    show _ <+: if accepted port then _ else _
    split
    · rename_i ha
      have hlength := congrArg List.length hsame
      simp [L1PortLog.cycle, ha] at hlength
    · exact List.prefix_refl _
  rw [portLog_snoc] at hdenied
  cases c with
  | sendRequest tick p request =>
    obtain ⟨sent, hr, rfl⟩ := reply_ok hc
    unfold sendRequest at hr
    split at hr
    · cases hr
    · split at hr
      · cases hr
        exact List.prefix_refl _
      · split at hr
        · cases hr
        · cases hr
          show _ <+: Function.update s.requests p _ port
          by_cases hp : port = p
          · subst hp
            rw [Function.update_self]
            exact List.prefix_append _ _
          · rw [Function.update_of_ne hp]
  | receiveResponse tick p =>
    obtain ⟨answer, hr, rfl⟩ := reply_ok hc
    unfold receiveResponse at hr
    split at hr
    · cases hr
    · split at hr <;> cases hr <;> exact List.prefix_refl _
  | advance tick =>
    obtain ⟨cycle, hr, rfl⟩ := reply_ok hc
    unfold advance at hr
    split at hr
    · cases hr
    · split at hr
      · cases hr
      · dsimp only at hr
        split at hr
        · cases hr
        · obtain ⟨rfl, rfl⟩ := ok_inj hr
          exact hcycle hdenied
  | receiveRequests tick receiver =>
    obtain ⟨cycle, hr, rfl⟩ := reply_ok hc
    unfold receiveRequests at hr
    split at hr
    · cases hr
    · split at hr
      · cases hr
      · obtain ⟨rfl, rfl⟩ := ok_inj hr
        exact hcycle hdenied
  | sendResponses tick receiver =>
    obtain ⟨cycle, hr, rfl⟩ := reply_ok hc
    unfold sendResponses at hr
    split at hr
    · cases hr
    · dsimp only at hr
      split at hr
      · cases hr
      · split at hr
        · cases hr
        · obtain ⟨rfl, rfl⟩ := ok_inj hr
          exact List.prefix_refl _

/-- In every run: a port accepts what it was sent once and in order, under a granted decision of that tick about the
request's access, and answers it once and in order, not before its latency. Writes accepted in one tick share no bank,
nor does a read with a write granted in that tick. A head that is denied stays. -/
theorem l1_transport_exact (h : Run (callsWhen Allowed exec) (.new g) t s) :
    (∀ port,
      (portLog port t).sent.map some =
        (portLog port t).accepted.map (·.request) ++ (s.requests port).map (fun x => some x.payload) ∧
      List.Forall₂ (Answers port) (portLog port t).accepted
        ((portLog port t).answered ++ (s.responses port).map (·.payload) ++ s.service.pending port) ∧
      (portLog port t).left.map Prod.snd = (portLog port t).answered ++ (s.responses port).map (·.payload) ∧
      (∀ x ∈ (portLog port t).left, x.2.acceptedTick + port.responseTicks ≤ x.1) ∧
      (s.requests port).length ≤ capacity ∧ (s.responses port).length ≤ capacity ∧
      ∀ a ∈ (portLog port t).accepted, ∃ request d, a.request = some request ∧ a.decision = some d ∧
        L1Pipeline.Accepts a.tick s.service port request d) ∧
      (s.service.arbitrations.map (·.tick)).Pairwise (· < ·) ∧
      (∀ a ∈ (portLog .fixpWrite t).accepted, ∀ b ∈ (portLog .mteWrite t).accepted, a.tick = b.tick →
        ∀ x y, a.request = some x → b.request = some y →
          (L1Arbiter.new g).writeBankMask x.access &&& (L1Arbiter.new g).writeBankMask y.access = 0) ∧
      (∀ a ∈ (portLog .mteRead t).accepted, ∀ r ∈ s.service.arbitrations, r.tick = a.tick → ∀ w d e, w ≠ .mteRead →
        r.decisions w = some e → e.granted = true → a.decision = some d → e.bankMask &&& d.bankMask = 0) ∧
      ∀ c r s' port, exec c s = (.ok r, s') →
        (portLog port (t ++ [(c, .ok r)])).accepted = (portLog port t).accepted →
        s.requests port <+: s'.requests port := by
  have hkept := run_kept h
  have hsnap := hkept.sound.snapshots
  refine ⟨fun port => ?_, hsnap.sorted, fun a ha b hb hab x y hx hy => ?_, fun a ha r hr hat w d e hw he hg hd => ?_,
    fun c r s' port hc hdenied => requests_prefix hc hdenied⟩
  · have hport := hkept.ports port
    refine ⟨hport.sent, by rw [← hport.left]; exact hport.answers, hport.left, fun x hx => ?_, hport.requests,
      hport.responses, hport.decided⟩
    have hmem : x.2 ∈ (portLog port t).left.map Prod.snd ++ s.service.pending port :=
      List.mem_append_left _ (List.mem_map_of_mem hx)
    obtain ⟨a, -, -, hat, hready, -⟩ := exists_of_mem_forall₂ hport.answers hmem
    rw [hat, ← hready]
    exact hport.due x hx
  · obtain ⟨x', d, hx', -, hgd, hdx, ra, hra, hta, hda⟩ := (hkept.ports .fixpWrite).decided a ha
    obtain ⟨y', e, hy', -, hge, hey, rb, hrb, htb, heb⟩ := (hkept.ports .mteWrite).decided b hb
    obtain rfl := Option.some.inj (hx.symm.trans hx')
    obtain rfl := Option.some.inj (hy.symm.trans hy')
    obtain rfl := snapshot_unique hsnap hra hrb (hta.trans (hab.trans htb.symm))
    have hfair := (hsnap.range ra hra).2
    have hapart := hfair.apart .fixpWrite .mteWrite d e (by decide) (by decide) hda heb hgd hge
    rw [hfair.banks .fixpWrite d (by decide) hda, hfair.banks .mteWrite e (by decide) heb, ← hdx, ← hey] at hapart
    exact hapart
  · obtain ⟨-, d', -, hd', hgd, -, ra, hra, hta, hda⟩ := (hkept.ports .mteRead).decided a ha
    obtain rfl := Option.some.inj (hd.symm.trans hd')
    obtain rfl := snapshot_unique hsnap hra hr (hta.trans hat.symm)
    exact (hsnap.range ra hra).2.apart w .mteRead e d hw hw he hda hg hgd

end Results

def sampleGeometry : L1Geometry := ⟨32, 16, 1, 0, by decide⟩

/-- Two writes to one bank, a read of another one, and the answer to the first write. -/
def sampleCalls : List L1Call :=
  [.sendRequest 1 .fixpWrite ⟨7, ⟨0, 32⟩⟩, .sendRequest 1 .mteWrite ⟨8, ⟨0, 32⟩⟩, .sendRequest 1 .mteRead ⟨9, ⟨64, 32⟩⟩,
    .advance 2, .advance 3, .receiveResponse 4 .fixpWrite]

instance (c : L1Call) (s : L1Transport) : Decidable (Allowed c s) :=
  inferInstanceAs (Decidable (0 < c.tick ∧ c.tick < u32 ∧ (exec c s).1.isOk = true))

theorem sampleCalls_allowed : Lib.Allowed Allowed exec (.new sampleGeometry) sampleCalls :=
  ⟨by decide +kernel, by decide +kernel, by decide +kernel, by decide +kernel, by decide +kernel, by decide +kernel, trivial⟩

/-- The writes are accepted in different ticks, the read with the first. -/
theorem l1_transport_exact_sample :
    (portLog .fixpWrite (runCalls exec (.new sampleGeometry) sampleCalls).1).accepted.map (·.tick) = [2] ∧
      (portLog .mteRead (runCalls exec (.new sampleGeometry) sampleCalls).1).accepted.map (·.tick) = [2] ∧
      (portLog .mteWrite (runCalls exec (.new sampleGeometry) sampleCalls).1).accepted.map (·.tick) = [3] ∧
      (portLog .fixpWrite (runCalls exec (.new sampleGeometry) sampleCalls).1).sent.map some =
        (portLog .fixpWrite (runCalls exec (.new sampleGeometry) sampleCalls).1).accepted.map (·.request) := by
  have h := (l1_transport_exact (run_allowed exec sampleCalls_allowed)).1 .fixpWrite
  refine ⟨by decide +kernel, by decide +kernel, by decide +kernel, h.1.trans ?_⟩
  rw [show (runCalls exec (.new sampleGeometry) sampleCalls).2.requests .fixpWrite = [] from rfl]
  exact List.append_nil _

end L1Transport

end AscendEmulator.C220.Memory
