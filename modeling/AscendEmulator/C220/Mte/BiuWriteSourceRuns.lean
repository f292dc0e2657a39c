/-
  AscendEmulator.C220.Mte.BiuWriteSourceRuns — the source of the BIU writes over whole runs, and to their end.

  A round calls each part once at one tick: the memory answers the oldest request, then the requests, the inputs and the
  source move. As long as a tag waits, a round takes at least one step of `work` away.
-/

import AscendEmulator.C220.Mte.BiuWriteSourceProofs

namespace AscendEmulator.C220.Mte

open Lib BiuWriteReader

variable {bandwidth : NonZeroU32} {l : SourceLog} {x x' : BiuWriteReader} {t : List SourceStep} {tag tick bound : Nat}

/-! ## Runs -/

theorem SourceInv.new (bandwidth : NonZeroU32) : SourceInv (SourceLog.of []) (.new bandwidth) where
  ub := UbReadInterface.sound_empty
  registered _ _ hp := absurd hp.symm (Option.some_ne_none _)
  waiting _ ht := absurd ht List.not_mem_nil
  distinct := List.nodup_nil
  dbids := rfl
  packets _ hp := absurd hp.symm (Option.some_ne_none _)
  flight := rfl
  positive _ he := absurd he List.not_mem_nil
  groups := ⟨[], rfl, rfl, fun _ hg => absurd hg List.not_mem_nil, rfl⟩

theorem source_run_inv (h : Run (callsWhen Stated exec) (.new bandwidth) t x) : SourceInv (SourceLog.of t) x := by
  refine h.inv (I := fun t x => SourceInv (SourceLog.of t) x) (.new bandwidth) ?_
  rintro t x ⟨c, r⟩ x' hinv ⟨hstated, hcall⟩
  have hcall : exec c x = (r, x') := hcall
  have hkept := (BiuWriteReader.exec_keeps hinv c hstated).2
  rw [hcall] at hkept
  rw [SourceLog.of_append]
  exact hkept

/-- The oldest fragment in flight is of the first tag that waits. -/
theorem SourceInv.head_of_line (h : SourceInv l x) {f : UbReadFragment} (hf : x.ub.flight.head? = some f) :
    x.source.openTags.head? = some f.tag := by
  have hflight := congrArg List.head? h.flight
  rw [List.head?_map, hf] at hflight
  unfold BiuWriteSource.openTags
  cases hegress : x.source.egress with
  | nil =>
    rw [hegress] at hflight
    unfold BiuWriteSource.pushed at hflight
    cases hp : x.source.packets with
    | none =>
      rw [hp] at hflight
      cases hflight
    | some p =>
      obtain ⟨⟨readyTick, ingress, hingress⟩, -⟩ := h.packets p hp
      rw [hp] at hflight
      have hmem : f.tag ∈ List.replicate (x.source.expected p.tag - p.remainingPackets) p.tag :=
        List.mem_of_head? hflight.symm
      rw [hingress, List.eq_of_mem_replicate hmem]
      rfl
  | cons e egress =>
    have hpos := h.positive e (by rw [hegress]; exact List.mem_cons_self)
    obtain ⟨n, hn⟩ := Nat.exists_eq_succ_of_ne_zero (Nat.pos_iff_ne_zero.mp hpos)
    rw [hegress, List.flatMap_cons, hn] at hflight
    exact hflight.symm

theorem SourceInv.ready_prefix (h : SourceInv l x) : l.ready <+: l.dbids := by
  have hmap : l.ready.map some <+: l.dbids.map some := ⟨_, h.dbids.symm⟩
  obtain ⟨r, hr, heq⟩ := List.prefix_map_iff.mp hmap
  rwa [List.map_injective_iff.mpr (Option.some_injective _) heq]

theorem SourceInv.all_ready (h : SourceInv l x) (hopen : x.source.openTags = []) : l.ready = l.dbids := by
  have hdbids := h.dbids
  rw [hopen, List.map_nil, List.append_nil] at hdbids
  exact (List.map_injective_iff.mpr (Option.some_injective _) hdbids).symm

/-! ## Rounds -/

namespace BiuWriteReader

/-- Nothing happened after `tick`, and everything is ready by `bound`. -/
structure Settled (x : BiuWriteReader) (tick bound : Nat) : Prop where
  ub : x.ub.Settled tick bound
  ingress : ∀ e ∈ x.source.ingress, e.1 ≤ bound
  egress : ∀ e ∈ x.source.egress, e.1 ≤ bound

/-- The calls of a round. -/
def roundCalls (tick : Nat) (x : BiuWriteReader) : List BiuWriteSourceCall :=
  (x.ub.delivered.first?.map fun d => .receiveResponse tick d.1).toList ++ [.takeRequest tick, .send tick, .advance tick]

/-- A round at each tick. -/
def rounds : List Nat → BiuWriteReader → List SourceStep × BiuWriteReader
  | [], x => ([], x)
  | tick :: ticks, x =>
    let r := runCalls exec x (roundCalls tick x)
    let rs := rounds ticks r.2
    (r.1 ++ rs.1, rs.2)

/-- A call of a round. -/
inductive OfRound (tick : Nat) : BiuWriteSourceCall → Prop
  | receiveResponse (id : Nat) : OfRound tick (.receiveResponse tick id)
  | takeRequest : OfRound tick (.takeRequest tick)
  | send : OfRound tick (.send tick)
  | advance : OfRound tick (.advance tick)

theorem onUb_snd {α : Type} (f : α → BiuWriteSourceReply) (c : UbReadInterface.CallOf α) (x : BiuWriteReader) :
    (onUb f c x).2 = { x with ub := (c x.ub).2 } := by
  unfold onUb
  cases hc : c x.ub with
  | mk r u => cases r <;> rfl

theorem readPacket_settled (h : x.Settled tick bound) (hbound : tick + 4 ≤ bound) :
    (readPacket tick x).2.Settled tick bound := by
  have hpassed (s : BiuWriteSource) (next tag : Nat) (ingress : List (Nat × Nat)) (p : SourcePackets)
      (u : UbReadInterface) (hu : u.Settled tick bound) (hi : ∀ e ∈ ingress, e.1 ≤ bound)
      (hs : ∀ e ∈ s.ingress, e.1 ≤ bound) (he : ∀ e ∈ s.egress, e.1 ≤ bound) (hnext : next ≤ bound) :
      Settled ⟨s.passed next tag ingress p, u⟩ tick bound := by
    unfold BiuWriteSource.passed
    split
    · refine ⟨hu, hi, fun e hmem => ?_⟩
      rcases List.mem_append.mp hmem with hmem | hmem
      · exact he e hmem
      · rw [List.mem_singleton.mp hmem]
        exact hnext
    · exact ⟨hu, hs, he⟩
  unfold readPacket
  split
  · exact h
  · rename_i readyTick tag ingress hingress
    split
    · exact h
    · split
      · exact h
      · rename_i next hadd
        obtain ⟨-, rfl⟩ := checkedAdd_eq_some.mp hadd
        split
        · exact h
        · rename_i source hsource
          have hqueues : source.ingress = x.source.ingress ∧ source.egress = x.source.egress := by
            split at hsource
            · obtain ⟨_, -, rfl⟩ := Option.map_eq_some_iff.mp hsource
              exact ⟨rfl, rfl⟩
            · cases hsource
              exact ⟨rfl, rfl⟩
          have hi : ∀ e ∈ source.ingress, e.1 ≤ bound := by
            rw [hqueues.1]
            exact h.ingress
          have he : ∀ e ∈ source.egress, e.1 ≤ bound := by
            rw [hqueues.2]
            exact h.egress
          have hrest : ∀ e ∈ ingress, e.1 ≤ bound := fun e hmem =>
            h.ingress e (by rw [hingress]; exact List.mem_cons_of_mem _ hmem)
          split
          · exact ⟨h.ub, hi, he⟩
          · split
            · exact hpassed source _ _ _ _ _ h.ub hrest hi he (by omega)
            · rename_i fragment _
              have hpush := h.ub.push hbound fragment
              split
              · rename_i ub hr
                rw [hr] at hpush
                exact ⟨hpush, hi, he⟩
              · rename_i ub hr
                rw [hr] at hpush
                exact ⟨hpush, hi, he⟩
              · rename_i ub hr
                rw [hr] at hpush
                exact hpassed source _ _ _ _ _ hpush hrest hi he (by omega)

theorem readComplete_settled (h : x.Settled tick bound) : (readComplete tick x).2.Settled tick bound := by
  unfold readComplete
  split
  · exact h
  · rename_i readyTick tag egress hegress
    have hrest : ∀ e ∈ egress, e.1 ≤ bound := fun e hmem =>
      h.egress e (by rw [hegress]; exact List.mem_cons_of_mem _ hmem)
    have htake := h.ub.takeCompletion tag
    split
    · exact h
    · split
      · exact h
      · split
        · rename_i hr
          rw [hr] at htake
          exact ⟨htake, h.ingress, h.egress⟩
        · rename_i hr
          rw [hr] at htake
          exact ⟨htake, h.ingress, h.egress⟩
        · rename_i hr
          rw [hr] at htake
          split
          · exact ⟨htake, h.ingress, h.egress⟩
          · split
            · exact ⟨htake, h.ingress, h.egress⟩
            · dsimp only
              split
              · exact ⟨htake, h.ingress, hrest⟩
              · exact ⟨htake, h.ingress, h.egress⟩

theorem advance_settled (h : x.Settled tick bound) (hbound : tick + 4 ≤ bound) :
    (advance tick x).2.Settled tick bound := by
  have hread : (readPacket tick).Keeps (Settled · tick bound) := fun x hx => readPacket_settled hx hbound
  have hcomplete : (readComplete tick).Keeps (Settled · tick bound) := fun x hx => readComplete_settled hx
  exact hread.bind (fun _ => hcomplete.bind fun _ x hx => hx) x h

theorem exec_settled {c : BiuWriteSourceCall} (hc : OfRound tick c) (h : x.Settled tick bound) (hbound : tick + 4 ≤ bound) :
    (exec c x).2.Settled tick bound := by
  cases hc with
  | receiveResponse id =>
    have hexec : (exec (.receiveResponse tick id) x).2 = _ := onUb_snd ..
    rw [hexec]
    exact ⟨h.ub.receiveResponse hbound id, h.ingress, h.egress⟩
  | takeRequest =>
    have hexec : (exec (.takeRequest tick) x).2 = _ := onUb_snd ..
    rw [hexec]
    exact ⟨h.ub.takeRequest, h.ingress, h.egress⟩
  | send =>
    have hexec : (exec (.send tick) x).2 = _ := onUb_snd ..
    rw [hexec]
    exact ⟨h.ub.sent hbound, h.ingress, h.egress⟩
  | advance => exact advance_settled h hbound

/-- No call of a round adds work. -/
theorem exec_work {c : BiuWriteSourceCall} (hc : OfRound tick c) (h : SourceInv l x) (hs : Stated c x) :
    (exec c x).2.work ≤ x.work := by
  have hmoved (u : UbReadInterface) (hu : u.load ≤ x.ub.load) : work { x with ub := u } ≤ x.work := by
    unfold work
    dsimp only
    omega
  cases hc with
  | receiveResponse id =>
    have hexec : (exec (.receiveResponse tick id) x).2 = _ := onUb_snd ..
    rw [hexec]
    rcases h.ub.receiveResponse tick id hs with ⟨e, he⟩ | ⟨r, u, hok, -, -, hload⟩
    · rw [he]
    · rw [hok]
      exact hmoved u (Nat.le_of_lt hload)
  | takeRequest =>
    have hexec : (exec (.takeRequest tick) x).2 = _ := onUb_snd ..
    rw [hexec]
    rcases h.ub.takeRequest tick with ⟨e, he⟩ | ⟨r, u, hok, -, -, hload⟩
    · rw [he]
    · rw [hok]
      exact hmoved u (by omega)
  | send =>
    have hexec : (exec (.send tick) x).2 = _ := onUb_snd ..
    rw [hexec]
    rcases h.ub.send tick with ⟨e, he⟩ | ⟨r, u, hok, -, -, hload⟩
    · rw [he]
    · rw [hok]
      exact hmoved u (by omega)
  | advance =>
    have hexec : (exec (.advance tick) x).2 = (advance tick x).2 := rfl
    rw [hexec]
    rcases advance_keeps h tick with ⟨e, x', hfail, -, hwork⟩ | ⟨events, x', hok, -, hwork, -⟩
    · rw [hfail]
      exact hwork
    · rw [hok]
      exact hwork

/-! ### Ids -/

theorem readPacket_nextId : (readPacket tick x).2.ub.nextId = x.ub.nextId := by
  unfold readPacket
  split
  · rfl
  · split
    · rfl
    · split
      · rfl
      · split
        · rfl
        · split
          · rfl
          · split
            · rfl
            · rename_i fragment _
              have hpush := @UbReadInterface.push_nextId x.ub tick fragment
              split
              · rename_i hr
                rw [hr] at hpush
                exact hpush
              · rename_i hr
                rw [hr] at hpush
                exact hpush
              · rename_i hr
                rw [hr] at hpush
                exact hpush

theorem readComplete_nextId : (readComplete tick x).2.ub.nextId = x.ub.nextId := by
  unfold readComplete
  split
  · rfl
  · rename_i tag _ _
    have htake := @UbReadInterface.takeCompletion_nextId x.ub tick tag
    split
    · rfl
    · split
      · rfl
      · split
        · rename_i hr
          rw [hr] at htake
          exact htake
        · rename_i hr
          rw [hr] at htake
          exact htake
        · rename_i hr
          rw [hr] at htake
          split
          · exact htake
          · split
            · exact htake
            · dsimp only
              split <;> exact htake

/-- Only `send` takes an id. -/
def idsOf : BiuWriteSourceCall → Nat
  | .send _ => 1
  | _ => 0

theorem exec_nextId {c : BiuWriteSourceCall} (hc : OfRound tick c) :
    (exec c x).2.ub.nextId ≤ x.ub.nextId + idsOf c := by
  cases hc with
  | receiveResponse id =>
    have hexec : (exec (.receiveResponse tick id) x).2 = _ := onUb_snd ..
    rw [hexec]
    exact Nat.le_of_eq UbReadInterface.receiveResponse_nextId
  | takeRequest =>
    have hexec : (exec (.takeRequest tick) x).2 = _ := onUb_snd ..
    rw [hexec]
    exact Nat.le_of_eq UbReadInterface.takeRequest_nextId
  | send =>
    have hexec : (exec (.send tick) x).2 = _ := onUb_snd ..
    rw [hexec]
    exact UbReadInterface.send_nextId
  | advance =>
    have hread : (readPacket tick).Keeps (·.ub.nextId = x.ub.nextId) := fun y hy => readPacket_nextId.trans hy
    have hcomplete : (readComplete tick).Keeps (·.ub.nextId = x.ub.nextId) := fun y hy => readComplete_nextId.trans hy
    have hadvance : (advance tick).Keeps (·.ub.nextId = x.ub.nextId) :=
      hread.bind fun _ => hcomplete.bind fun _ y hy => hy
    exact Nat.le_of_eq (hadvance x rfl)

/-! ### A round -/

/-- What calls of a round at `tick` lead to. -/
structure Goes (tick bound : Nat) (l : SourceLog) (x : BiuWriteReader) (cs : List BiuWriteSourceCall) : Prop where
  allowed : Allowed Stated exec x cs
  inv : SourceInv ((runCalls exec x cs).1.foldl SourceLog.after l) (runCalls exec x cs).2
  dbids : ((runCalls exec x cs).1.foldl SourceLog.after l).dbids = l.dbids
  settled : (runCalls exec x cs).2.Settled tick bound
  work : (runCalls exec x cs).2.work ≤ x.work
  nextId : (runCalls exec x cs).2.ub.nextId ≤ x.ub.nextId + (cs.map idsOf).sum

theorem Goes.nil (h : SourceInv l x) (hset : x.Settled tick bound) : Goes tick bound l x [] :=
  ⟨trivial, h, rfl, hset, Nat.le_refl _, Nat.le_refl _⟩

/-- One call, then the others. -/
theorem Goes.cons {c : BiuWriteSourceCall} {cs : List BiuWriteSourceCall} (h : SourceInv l x) (hs : Stated c x)
    (hc : OfRound tick c) (hrest : Goes tick bound (l.after (c, (exec c x).1)) (exec c x).2 cs) :
    Goes tick bound l x (c :: cs) := by
  have hwork := exec_work hc h hs
  have hids := exec_nextId (x := x) hc
  have hdbids : (l.after (c, (exec c x).1)).dbids = l.dbids :=
    l.after_dbids (fun tick tag heq => by cases hc <;> cases heq) _
  refine ⟨⟨hs, hrest.allowed⟩, hrest.inv, hrest.dbids.trans hdbids, hrest.settled, hrest.work.trans hwork, ?_⟩
  have := hrest.nextId
  rw [List.map_cons, List.sum_cons]
  show (runCalls exec (exec c x).2 cs).2.ub.nextId ≤ _
  omega

/-- The calls of a round but the answer, which is only made when a request is there. -/
theorem goes_rest {cs : List BiuWriteSourceCall} (h : SourceInv l x) (hset : x.Settled tick bound)
    (hbound : tick + 4 ≤ bound) (hcs : ∀ c ∈ cs, OfRound tick c ∧ ∀ y, Stated c y) : Goes tick bound l x cs := by
  induction cs generalizing l x with
  | nil => exact .nil h hset
  | cons c cs ih =>
    obtain ⟨hc, hs⟩ := hcs c List.mem_cons_self
    exact .cons h (hs x) hc (ih (exec_keeps h c (hs x)).2 (exec_settled hc hset hbound) fun c' hc' =>
      hcs c' (List.mem_cons_of_mem _ hc'))

theorem Settled.mono {tick' bound' : Nat} (h : x.Settled tick bound) (ht : tick ≤ tick') (hb : bound ≤ bound') :
    x.Settled tick' bound' :=
  ⟨h.ub.mono ht hb, fun e he => (h.ingress e he).trans hb, fun e he => (h.egress e he).trans hb⟩

theorem rest_ofRound (tick : Nat) :
    ∀ c ∈ [BiuWriteSourceCall.takeRequest tick, .send tick, .advance tick], OfRound tick c ∧ ∀ y, Stated c y := by
  intro c hc
  rcases List.mem_cons.mp hc with rfl | hc
  · exact ⟨.takeRequest, fun _ => trivial⟩
  · rcases List.mem_cons.mp hc with rfl | hc
    · exact ⟨.send, fun _ => trivial⟩
    · rw [List.mem_singleton.mp hc]
      exact ⟨.advance, fun _ => trivial⟩

theorem first_stated {d : Nat × UbReadRequest} (hfirst : x.ub.delivered.first? = some d) :
    Stated (.receiveResponse tick d.1) x := by
  intro r hr
  have hget := OrdMap.first?_get? (k := d.1) (v := d.2) hfirst
  rw [hget] at hr
  cases hr
  exact hfirst

theorem goes_round (h : SourceInv l x) (hset : x.Settled tick bound) (hbound : tick + 4 ≤ bound) :
    Goes tick bound l x (roundCalls tick x) := by
  unfold roundCalls
  cases hfirst : x.ub.delivered.first? with
  | none => exact goes_rest h hset hbound (rest_ofRound tick)
  | some d =>
    have hs : Stated (.receiveResponse tick d.1) x := first_stated hfirst
    exact .cons h hs (.receiveResponse d.1) (goes_rest (exec_keeps h _ hs).2 (exec_settled (.receiveResponse d.1) hset hbound)
      hbound (rest_ofRound tick))

/-! ### Progress of a round -/

/-- With room in the inputs, the first tag of the ingress pushes a packet. -/
theorem readPacket_moves (h : SourceInv l x) (ht : x.ub.Timely tick 4) (hroom : x.ub.inputs = []) {readyTick : Nat}
    {ingress : List (Nat × Nat)} (hingress : x.source.ingress = (readyTick, tag) :: ingress) (hready : readyTick ≤ tick) :
    ∃ f x', readPacket tick x = (.ok [.readPacket f], x') := by
  have hnext : checkedAdd tick 1 = some (tick + 1) :=
    checkedAdd_eq_some.mpr ⟨by have := ht.bound; omega, rfl⟩
  obtain ⟨source, p, hsource, hp, hpos⟩ : ∃ source p,
      (if x.source.packets.isNone then x.source.start tag else some x.source) = some source ∧
        source.packets = some p ∧ 0 < p.remainingPackets := by
    cases hpackets : x.source.packets with
    | none =>
      obtain ⟨s', p, hstart, hp, -, hs, -⟩ := h.start hingress hpackets
      exact ⟨s', p, hstart, hp, (hs.packets p hp).2.1⟩
    | some p => exact ⟨x.source, p, rfl, hpackets, (h.packets p hpackets).2.1⟩
  have hpush := UbReadInterface.push_joins (f := p.head) ht hroom
  unfold readPacket
  rw [hingress]
  dsimp only
  rw [if_neg (Nat.not_lt.mpr hready), hnext]
  dsimp only
  rw [hsource]
  dsimp only
  rw [hp]
  dsimp only
  rw [SourcePackets.front_eq (Nat.pos_iff_ne_zero.mp hpos)]
  dsimp only
  cases hr : UbReadInterface.push tick p.head x.ub with
  | mk r ub =>
    rw [hr] at hpush
    obtain rfl : r = .ok true := hpush
    exact ⟨p.head, _, rfl⟩

/-- With its answer there, the first tag of the egress completes a read. -/
theorem readComplete_moves (h : SourceInv l x) (ht : x.ub.Timely tick 4) {readyTick : Nat} {egress : List (Nat × Nat)}
    (hegress : x.source.egress = (readyTick, tag) :: egress) (hready : readyTick ≤ tick) {a : UbReadAcknowledgment}
    {acknowledgments : List UbReadAcknowledgment} (hacks : x.ub.acknowledgments = a :: acknowledgments)
    (haready : a.readyTick ≤ tick) : ∃ event events x', readComplete tick x = (.ok (event :: events), x') := by
  have hbound := ht.bound
  have hnext : checkedAdd tick 1 = some (tick + 1) := checkedAdd_eq_some.mpr ⟨by omega, rfl⟩
  have hhead : x.ub.flight.head? = some a.request.fragment := by
    unfold UbReadInterface.flight
    rw [hacks]
    rfl
  have htag := h.head_of_line hhead
  unfold BiuWriteSource.openTags at htag
  rw [hegress] at htag
  have htag : a.request.fragment.tag = tag := (Option.some.inj htag).symm
  have htake := UbReadInterface.takeCompletion_takes ⟨ht.observed, by omega⟩ hacks haready htag
  unfold readComplete
  rw [hegress]
  dsimp only
  rw [if_neg (Nat.not_lt.mpr hready), hnext]
  dsimp only
  rcases h.ub.takeCompletion tick tag with ⟨e, he, -⟩ | ⟨ub, hok, -⟩ | ⟨a', ub, f, hok, hub, hflight, -, hload⟩
  · rw [he] at htake
    cases htake
  · rw [hok] at htake
    cases htake
  · rw [hok]
    obtain ⟨p, hp, hresponses, -⟩ := h.complete hegress hub hflight hload (tick + 1)
    dsimp only
    rw [hp]
    dsimp only
    rw [if_neg hresponses]
    split
    · exact ⟨_, _, _, rfl⟩
    · exact ⟨_, _, _, rfl⟩

/-- With nothing else on its way, the source moves. -/
theorem advance_moves (h : SourceInv l x) (ht : x.ub.Timely tick 4) (hin : ∀ e ∈ x.source.ingress, e.1 ≤ tick)
    (heg : ∀ e ∈ x.source.egress, e.1 ≤ tick) (hacks : ∀ a ∈ x.ub.acknowledgments, a.readyTick ≤ tick)
    (hinputs : x.ub.inputs = []) (htransport : x.ub.transport = []) (hdelivered : x.ub.delivered.entries = [])
    (hopen : x.source.openTags ≠ []) : (advance tick x).2.work < x.work := by
  have hmoves : ∃ event events x', advance tick x = (.ok (event :: events), x') := by
    unfold advance Call.bind
    cases hingress : x.source.ingress with
    | cons e ingress =>
      obtain ⟨f, x', hread⟩ := readPacket_moves h ht hinputs hingress
        (hin e (by rw [hingress]; exact List.mem_cons_self))
      rw [hread]
      dsimp only
      rcases readPacket_keeps h tick with ⟨_, _, hfail, -⟩ | ⟨events, x'', hok, hinv, -, hobserved⟩
      · rw [hread] at hfail
        cases hfail
      · rw [hread] at hok
        cases hok
        rcases readComplete_keeps hinv tick with ⟨_, _, hlate⟩ | ⟨events', x''', hok', -⟩
        · exact absurd (hobserved (by exact nofun)) hlate
        · rw [hok']
          exact ⟨_, _, _, rfl⟩
    | nil =>
      have hread : readPacket tick x = (.ok [], x) := by
        unfold readPacket
        rw [hingress]
      rw [hread]
      dsimp only
      cases hegress : x.source.egress with
      | nil =>
        unfold BiuWriteSource.openTags at hopen
        rw [hingress, hegress] at hopen
        exact absurd rfl hopen
      | cons e egress =>
        have hflight := h.flight
        have hpos := h.positive e (by rw [hegress]; exact List.mem_cons_self)
        obtain ⟨n, hn⟩ := Nat.exists_eq_succ_of_ne_zero (Nat.pos_iff_ne_zero.mp hpos)
        unfold UbReadInterface.flight at hflight
        rw [hinputs, htransport, hdelivered, hegress, List.flatMap_cons, hn] at hflight
        cases hfirst : x.ub.acknowledgments with
        | nil =>
          rw [hfirst] at hflight
          cases hflight
        | cons a acknowledgments =>
          obtain ⟨event, events, x', hcomplete⟩ := readComplete_moves h ht hegress
            (heg e (by rw [hegress]; exact List.mem_cons_self)) hfirst
            (hacks a (by rw [hfirst]; exact List.mem_cons_self))
          rw [hcomplete]
          exact ⟨_, _, _, rfl⟩
  obtain ⟨event, events, x', hadvance⟩ := hmoves
  rcases advance_keeps h tick with ⟨_, _, hfail, -⟩ | ⟨events', x'', hok, -, -, hless⟩
  · rw [hadvance] at hfail
    cases hfail
  · rw [hok]
    rw [hadvance] at hok
    cases hok
    exact hless (List.cons_ne_nil _ _)

/-- The first of the calls takes work away, and no other adds some. -/
theorem less_cons {c : BiuWriteSourceCall} {cs : List BiuWriteSourceCall} (h : SourceInv l x) (hset : x.Settled tick bound)
    (hbound : tick + 4 ≤ bound) (hc : OfRound tick c) (hs : Stated c x)
    (hcs : ∀ c ∈ cs, OfRound tick c ∧ ∀ y, Stated c y) (hless : (exec c x).2.work < x.work) :
    (runCalls exec x (c :: cs)).2.work < x.work :=
  Nat.lt_of_le_of_lt (goes_rest (exec_keeps h c hs).2 (exec_settled hc hset hbound) hbound hcs).work hless

/-- With nothing on its way to the memory, an input is sent, or else the source moves. -/
theorem send_advance_moves (h : SourceInv l x) (hset : x.Settled tick (tick + 4)) (ht : x.ub.Timely tick 4)
    (hsend : x.ub.sendTick ≠ some tick) (hid : x.ub.nextId + 1 < u64) (hin : ∀ i ∈ x.ub.inputs, i.readyTick ≤ tick)
    (hingress : ∀ e ∈ x.source.ingress, e.1 ≤ tick) (hegress : ∀ e ∈ x.source.egress, e.1 ≤ tick)
    (hacks : ∀ a ∈ x.ub.acknowledgments, a.readyTick ≤ tick) (htransport : x.ub.transport = [])
    (hdelivered : x.ub.delivered.entries = []) (hopen : x.source.openTags ≠ []) :
    (runCalls exec x [.send tick, .advance tick]).2.work < x.work := by
  have hbound := ht.bound
  have hexec : (exec (.send tick) x).2 = { x with ub := (UbReadInterface.send tick x.ub).2 } := onUb_snd ..
  cases hinputs : x.ub.inputs with
  | cons i inputs =>
    refine less_cons h hset (Nat.le_refl _) .send trivial (fun c hc => ?_) ?_
    · rw [List.mem_singleton.mp hc]
      exact ⟨.advance, fun _ => trivial⟩
    · obtain ⟨r, hmoves⟩ := UbReadInterface.send_moves ⟨ht.observed, by omega⟩ hsend hid hinputs
        (hin i (by rw [hinputs]; exact List.mem_cons_self)) htransport
      rw [hexec]
      rcases h.ub.send tick with ⟨e, he⟩ | ⟨r', u, hok, -, -, hload⟩
      · rw [he] at hmoves
        cases hmoves
      · rw [hok] at hmoves ⊢
        obtain rfl : r' = some r := Except.ok.inj hmoves
        rw [Option.toList_some, List.length_singleton] at hload
        unfold work
        dsimp only
        omega
  | nil =>
    rw [UbReadInterface.send_idle ⟨ht.observed, by omega⟩ hsend hinputs] at hexec
    have hidle : SourceInv l { x with ub := { x.ub with sendTick := some tick, observedTick := some tick } } :=
      h.moved ⟨h.ub.ids, h.ub.fresh, h.ub.completes⟩ rfl
    have hmoves := advance_moves hidle ⟨fun t => UbReadInterface.now_le, hbound⟩ hingress hegress hacks hinputs htransport
      hdelivered hopen
    show (advance tick (exec (.send tick) x).2).2.work < x.work
    rw [hexec]
    exact hmoves

/-- While a tag waits, a round takes work away: one of the stages moves, the latest that holds a fragment or else the
source. -/
theorem round_moves (h : SourceInv l x) {earlier : Nat} (hset : x.Settled earlier tick) (hlt : earlier < tick)
    (htick : tick + 4 < u64) (hid : x.ub.nextId + 1 < u64) (hopen : x.source.openTags ≠ []) :
    (runCalls exec x (roundCalls tick x)).2.work < x.work := by
  have ht : x.ub.Timely tick 4 := hset.ub.timely hlt htick
  have hnow : x.Settled tick (tick + 4) := hset.mono (Nat.le_of_lt hlt) (Nat.le_add_right ..)
  have hrest := rest_ofRound tick
  unfold roundCalls
  cases hfirst : x.ub.delivered.first? with
  | some d =>
    have hs : Stated (.receiveResponse tick d.1) x := first_stated hfirst
    refine less_cons h hnow (Nat.le_refl _) (.receiveResponse d.1) hs hrest ?_
    have hmoves := UbReadInterface.receiveResponse_moves ⟨ht.observed, by omega⟩ (UbReadInterface.ne_now hset.ub.response hlt)
      (OrdMap.first?_get? hfirst)
    have hexec : (exec (.receiveResponse tick d.1) x).2 = _ := onUb_snd ..
    rw [hexec]
    rcases h.ub.receiveResponse tick d.1 hs with ⟨e, he⟩ | ⟨r, u, hok, -, -, hload⟩
    · rw [he] at hmoves
      cases hmoves
    · rw [hok]
      unfold work
      dsimp only
      omega
  | none =>
    have hdelivered : x.ub.delivered.entries = [] := List.head?_eq_none_iff.mp hfirst
    show (runCalls exec x [.takeRequest tick, .send tick, .advance tick]).2.work < x.work
    have hrequest : (exec (.takeRequest tick) x).2 = { x with ub := (UbReadInterface.takeRequest tick x.ub).2 } := onUb_snd ..
    cases htransport : x.ub.transport with
    | cons r transport =>
      refine less_cons h hnow (Nat.le_refl _) .takeRequest trivial (fun c hc => hrest c (List.mem_cons_of_mem _ hc)) ?_
      have hmoves := UbReadInterface.takeRequest_moves ⟨ht.observed, by omega⟩ (UbReadInterface.ne_now hset.ub.receive hlt)
        htransport (hset.ub.transport r (by rw [htransport]; exact List.mem_cons_self))
      rw [hrequest]
      rcases h.ub.takeRequest tick with ⟨e, he⟩ | ⟨r', u, hok, -, -, hload⟩
      · rw [he] at hmoves
        cases hmoves
      · rw [hok] at hmoves ⊢
        obtain rfl : r' = some r := Except.ok.inj hmoves
        rw [Option.toList_some, List.length_singleton] at hload
        unfold work
        dsimp only
        omega
    | nil =>
      -- nothing is on its way to the memory, so the request call changes the clock only
      rw [UbReadInterface.takeRequest_idle ⟨ht.observed, by omega⟩ (UbReadInterface.ne_now hset.ub.receive hlt) htransport]
        at hrequest
      have hidle : SourceInv l { x with ub := { x.ub with observedTick := some tick } } :=
        h.moved ⟨h.ub.ids, h.ub.fresh, h.ub.completes⟩ rfl
      have hsettled : Settled { x with ub := { x.ub with observedTick := some tick } } tick (tick + 4) :=
        hrequest ▸ exec_settled .takeRequest hnow (Nat.le_refl _)
      have hmoves := send_advance_moves hidle hsettled ⟨fun t => UbReadInterface.now_le, htick⟩
        (UbReadInterface.ne_now hset.ub.send hlt) hid hset.ub.inputs hset.ingress hset.egress hset.ub.acknowledgments
        htransport hdelivered hopen
      show (runCalls exec (exec (.takeRequest tick) x).2 [.send tick, .advance tick]).2.work < x.work
      rw [hrequest]
      exact hmoves

/-- Work is left exactly while a tag waits. -/
theorem work_eq_zero (h : SourceInv l x) : x.work = 0 ↔ x.source.openTags = [] := by
  have hlength : x.ub.flight.length ≤ x.ub.load := by
    unfold UbReadInterface.flight UbReadInterface.load
    simp only [List.length_append, List.length_map]
    omega
  have hflight := congrArg List.length h.flight
  rw [List.length_map, List.length_append] at hflight
  unfold work BiuWriteSource.openTags
  constructor
  · intro hzero
    have hload : x.ub.load = 0 := by omega
    have htoPush : x.source.toPush = 0 := by omega
    have hegress : x.source.egress = [] := by
      cases he : x.source.egress with
      | nil => rfl
      | cons e egress =>
        have hpos := h.positive e (by rw [he]; exact List.mem_cons_self)
        rw [he, List.flatMap_cons, List.length_append, List.length_replicate] at hflight
        omega
    have hingress : x.source.ingress = [] := by
      cases hi : x.source.ingress with
      | nil => rfl
      | cons e ingress =>
        unfold BiuWriteSource.toPush at htoPush
        cases hp : x.source.packets with
        | some p =>
          rw [hp] at htoPush
          have := (h.packets p hp).2.1
          dsimp only at htoPush
          omega
        | none =>
          obtain ⟨q, hq, -⟩ := h.head_waits hi
          have hpos := (@SourcePackets.new_covers q.request x.source.bandwidth 0 (h.registered _ q hq).fits).2
          have hcount : x.source.packetCount e.2 = (SourcePackets.new q.request x.source.bandwidth 0).remainingPackets := by
            unfold BiuWriteSource.packetCount
            rw [hq]
            rfl
          rw [hp, hi] at htoPush
          dsimp only at htoPush
          rw [List.map_cons, List.sum_cons, hcount] at htoPush
          omega
    rw [hegress, hingress]
    rfl
  · intro hopen
    obtain ⟨hegress, hingress⟩ := List.append_eq_nil_iff.mp hopen
    have hegress := List.map_eq_nil_iff.mp hegress
    have hingress := List.map_eq_nil_iff.mp hingress
    have hpackets : x.source.packets = none := by
      cases hp : x.source.packets with
      | none => rfl
      | some p =>
        obtain ⟨⟨readyTick, ingress, hi⟩, -⟩ := h.packets p hp
        rw [hingress] at hi
        cases hi
    have hempty : x.ub.flight = [] := by
      have hflight := h.flight
      unfold BiuWriteSource.pushed at hflight
      rw [hegress, hpackets] at hflight
      exact List.map_eq_nil_iff.mp hflight
    unfold UbReadInterface.flight at hempty
    simp only [List.append_eq_nil_iff, List.map_eq_nil_iff] at hempty
    unfold UbReadInterface.load BiuWriteSource.toPush
    rw [hempty.2, hempty.1.2, hempty.1.1.2, hempty.1.1.1, hpackets, hingress]
    rfl

/-- Rounds at ticks four apart, as many as there is work, see every tag through. -/
theorem rounds_drain {ticks : List Nat} (h : SourceInv l x) (hwork : x.work ≤ ticks.length)
    (hset : ∀ tick ∈ ticks, ∃ earlier < tick, x.Settled earlier tick) (hapart : ticks.Pairwise fun a b => a + 4 ≤ b)
    (hbound : ∀ tick ∈ ticks, tick + 4 < u64) (hid : x.ub.nextId + ticks.length < u64) :
    Run (callsWhen Stated exec) x (rounds ticks x).1 (rounds ticks x).2 ∧
      SourceInv ((rounds ticks x).1.foldl SourceLog.after l) (rounds ticks x).2 ∧
      ((rounds ticks x).1.foldl SourceLog.after l).dbids = l.dbids ∧ (rounds ticks x).2.source.openTags = [] := by
  induction ticks generalizing l x with
  | nil => exact ⟨.nil, h, rfl, (work_eq_zero h).mp (Nat.le_zero.mp hwork)⟩
  | cons tick ticks ih =>
    obtain ⟨earlier, hlt, hsettled⟩ := hset tick List.mem_cons_self
    obtain ⟨hfar, hapart⟩ := List.pairwise_cons.mp hapart
    rw [List.length_cons] at hwork hid
    have hgoes := goes_round h (hsettled.mono (Nat.le_of_lt hlt) (Nat.le_add_right tick 4)) (Nat.le_refl _)
    have hless : (runCalls exec x (roundCalls tick x)).2.work ≤ ticks.length := by
      by_cases hopen : x.source.openTags = []
      · have hzero := (work_eq_zero h).mpr hopen
        have := hgoes.work
        omega
      · have := round_moves h hsettled hlt (hbound tick List.mem_cons_self) (by omega) hopen
        omega
    have hids : ((roundCalls tick x).map idsOf).sum = 1 := by
      unfold roundCalls
      cases x.ub.delivered.first? <;> rfl
    have hnext := hgoes.nextId
    obtain ⟨hrun, hinv, hdbids, hdone⟩ := ih hgoes.inv hless
      (fun tick' ht => ⟨tick, by have := hfar tick' ht; omega, hgoes.settled.mono (Nat.le_refl _) (hfar tick' ht)⟩) hapart
      (fun tick' ht => hbound tick' (List.mem_cons_of_mem _ ht)) (by omega)
    refine ⟨(run_allowed exec hgoes.allowed).append hrun, ?_, ?_, hdone⟩
    · show SourceInv (((runCalls exec x (roundCalls tick x)).1 ++ _).foldl SourceLog.after l) _
      rw [List.foldl_append]
      exact hinv
    · show (((runCalls exec x (roundCalls tick x)).1 ++ _).foldl SourceLog.after l).dbids = _
      rw [List.foldl_append]
      exact hdbids.trans hgoes.dbids

end BiuWriteReader

/-- In every run the tags read group by group, in the order of their DBIDs, each what its request covers; the oldest
answer is the first waiting tag's; a tag's data are ready once, in that order; and no call panics. Rounds far enough
apart see every tag through: then the groups are read whole, and all data are ready. -/
theorem biu_write_source_exact (h : Run (callsWhen Stated exec) (.new bandwidth) t x) :
    (∃ groups, Grouped (SourceLog.of t) x.source groups) ∧
      (SourceLog.of t).ready <+: (SourceLog.of t).dbids ∧
      (∀ a, x.ub.acknowledgments.head? = some a → x.source.openTags.head? = some a.request.fragment.tag ∧
        ∀ e, x.source.egress.head? = some e → a.request.fragment.tag = e.2) ∧
      (∀ c, Stated c x → (exec c x).1 ≠ .error .panicked) ∧
      ∀ ticks : List Nat, x.work ≤ ticks.length → (∀ tick ∈ ticks, ∃ earlier < tick, x.Settled earlier tick) →
        (ticks.Pairwise fun a b => a + 4 ≤ b) → (∀ tick ∈ ticks, tick + 4 < u64) → x.ub.nextId + ticks.length < u64 →
        Run (callsWhen Stated exec) (.new bandwidth) (t ++ (rounds ticks x).1) (rounds ticks x).2 ∧
          (SourceLog.of (t ++ (rounds ticks x).1)).ready = (SourceLog.of t).dbids ∧
          ∃ groups : List (BiuWriteSourceRequest × List UbReadFragment),
            groups.map (·.1.untailed) = (SourceLog.of t).dbids ∧ (∀ g ∈ groups, Covers g.1 g.2) ∧
              (SourceLog.of (t ++ (rounds ticks x).1)).reads = groups.flatMap (·.2) := by
  have hinv := source_run_inv h
  refine ⟨hinv.groups, hinv.ready_prefix, fun a ha => ?_, fun c hs => (BiuWriteReader.exec_keeps hinv c hs).1,
    fun ticks hwork hset hapart hbound hid => ?_⟩
  · have hhead : x.ub.flight.head? = some a.request.fragment := by
      obtain ⟨acknowledgments, hacks⟩ := List.head?_eq_some_iff.mp ha
      unfold UbReadInterface.flight
      rw [hacks]
      rfl
    have hfirst := hinv.head_of_line hhead
    refine ⟨hfirst, fun e he => ?_⟩
    obtain ⟨egress, hegress⟩ := List.head?_eq_some_iff.mp he
    unfold BiuWriteSource.openTags at hfirst
    rw [hegress] at hfirst
    exact (Option.some.inj hfirst).symm
  · obtain ⟨hrun, hdrained, hdbids, hopen⟩ := rounds_drain hinv hwork hset hapart hbound hid
    rw [SourceLog.of_append]
    have hready := hdrained.all_ready hopen
    have hdbidsReady := hdrained.dbids
    refine ⟨h.append hrun, hready.trans hdbids, ?_⟩
    obtain ⟨groups, hg⟩ := hdrained.groups
    obtain ⟨hegress, hingress⟩ := List.append_eq_nil_iff.mp hopen
    have hpackets : (rounds ticks x).2.source.packets = none := by
      cases hp : (rounds ticks x).2.source.packets with
      | none => rfl
      | some p =>
        obtain ⟨⟨readyTick, ingress, hi⟩, -⟩ := hdrained.packets p hp
        rw [hi] at hingress
        cases hingress
    have hcount := hg.count
    rw [hpackets, List.map_eq_nil_iff.mp hegress, hready, hdbids] at hcount
    have hcount : groups.length = (SourceLog.of t).dbids.length := hcount
    have horder := hg.order
    rw [hdbids, hcount, List.take_length] at horder
    have hreads := hg.reads
    rw [hpackets, Option.map_none, Option.getD_none, List.append_nil] at hreads
    exact ⟨groups, horder, hg.covers, hreads⟩

/-- 50 bytes from 40 on: two packets of a bandwidth of 32. -/
def sampleSourceRequest : BiuWriteSourceRequest := ⟨1, 7, 40, 50, none, true⟩

def sampleSourceCalls : List BiuWriteSourceCall := [.register sampleSourceRequest, .receiveDbid 1 1]

theorem bandwidth_ne_zero : (32 : UInt32) ≠ 0 := by decide

def sampleBandwidth : NonZeroU32 := ⟨32, bandwidth_ne_zero⟩

theorem sampleSourceCalls_allowed : Allowed Stated exec (.new sampleBandwidth) sampleSourceCalls :=
  ⟨⟨by decide, by decide⟩, trivial, trivial⟩

def sampleTicks : List Nat := (List.range 10).map fun k => 4 * k + 10

theorem biu_write_source_exact_sample :
    (SourceLog.of ((runCalls exec (.new sampleBandwidth) sampleSourceCalls).1 ++
        (rounds sampleTicks (runCalls exec (.new sampleBandwidth) sampleSourceCalls).2).1)).ready =
      [sampleSourceRequest.untailed] ∧
    (SourceLog.of ((runCalls exec (.new sampleBandwidth) sampleSourceCalls).1 ++
        (rounds sampleTicks (runCalls exec (.new sampleBandwidth) sampleSourceCalls).2).1)).reads =
      [⟨1, 32, 32, true⟩, ⟨1, 64, 26, true⟩] := by
  refine ⟨?_, by decide +kernel⟩
  refine ((biu_write_source_exact (run_allowed exec sampleSourceCalls_allowed)).2.2.2.2 sampleTicks (by decide +kernel)
    (fun tick ht => ⟨0, ?_, ?_⟩) (by decide) (by decide) (by decide)).2.1
  · exact (by decide : ∀ tick ∈ sampleTicks, 0 < tick) tick ht
  · have htick : 2 ≤ tick := (by decide : ∀ tick ∈ sampleTicks, 2 ≤ tick) tick ht
    refine ⟨UbReadInterface.settled_empty, fun e he => ?_, fun e he => absurd he List.not_mem_nil⟩
    have hingress : (runCalls exec (.new sampleBandwidth) sampleSourceCalls).2.source.ingress = [(2, 1)] := rfl
    rw [hingress] at he
    rw [List.mem_singleton.mp he]
    exact htick

end AscendEmulator.C220.Mte
