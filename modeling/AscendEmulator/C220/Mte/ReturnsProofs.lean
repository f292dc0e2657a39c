/-
  AscendEmulator.C220.Mte.ReturnsProofs — every run of the read returns (see
  `AscendEmulator.C220.Mte.Returns`) keeps what `AscendEmulator.C220.Mte.ReturnsPlaced` and
  `AscendEmulator.C220.Mte.ReturnsHistory` say of queues and history, and the occupancy of the
  ROB ports (`Stored`). Between calls an active tag has a beat to be read (`Holds`); inside a
  ROB read it may have none left until the tag is finished. So no call panics.
-/

import AscendEmulator.C220.Mte.ReturnsHistory

namespace AscendEmulator.C220.Mte.BiuReadReturns

open Lib

variable {v v' : View} {s s' : BiuReadReturns} {tag : Nat} {r : Record}

/-! ## The invariant -/

def onPort (port : Fin 2) (l : List BiuRobBeat) : Nat := l.countP fun b => decide (b.port = port)

/-- The beats of all records that are stored in a port. -/
def stored (v : View) (port : Fin 2) : Nat := v.records.sum fun _ r => onPort port r.transactions

structure Stored (v : View) : Prop where
  occupied : ∀ port, v.occupancy port = stored v port
  room : ∀ port, v.occupancy port ≤ v.capacity

structure Inv (v : View) : Prop where
  placed : Placed v
  stored : Stored v
  history : History v

/-- The active tag of a core has a beat to be read. -/
def Holds (v : View) (core : Fin 3) : Prop :=
  ∀ tag, v.active core = some tag → ∃ r, v.records.get? tag = some r ∧ r.transactions ≠ []

structure Good (v : View) : Prop where
  inv : Inv v
  holds : ∀ core, Holds v core

theorem Holds.same {core : Fin 3} (h : Holds v core) (ha : v'.active core = v.active core)
    (hr : ∀ t, v.active core = some t → v'.records.get? t = v.records.get? t) : Holds v' core := by
  intro t ht
  rw [ha] at ht
  rw [hr t ht]
  exact h t ht

/-- Writing a record that keeps its beats keeps every active tag's. -/
theorem Holds.rewritten {core : Fin 3} (r' : Record) (h : Holds v core) (ha : v'.active core = v.active core)
    (hr : v.records.get? tag = some r) (ht : r'.transactions = r.transactions)
    (hr' : v'.records = v.records.insert tag r') : Holds v' core := by
  intro t hat
  rw [ha] at hat
  obtain ⟨r₀, hr₀, hne⟩ := h t hat
  rw [hr', get?_insert_record]
  split
  · rename_i he
    rw [he, hr] at hr₀
    cases hr₀
    exact ⟨r', rfl, ht ▸ hne⟩
  · exact ⟨r₀, hr₀, hne⟩

theorem stored_insert (r' : Record) (hr : v.records.get? tag = some r) (port : Fin 2) :
    ((v.records.insert tag r').sum fun _ r => onPort port r.transactions) + onPort port r.transactions =
      stored v port + onPort port r'.transactions :=
  v.records.sum_insert_some (fun _ r => onPort port r.transactions) hr

theorem Stored.same (h : Stored v) (hs : ∀ port, stored v' port = stored v port) (ho : v'.occupancy = v.occupancy)
    (hc : v'.capacity = v.capacity) : Stored v' :=
  ⟨fun port => by rw [ho, hs]; exact h.occupied port, fun port => by rw [ho, hc]; exact h.room port⟩

/-! ## Tracking -/

theorem beats_pos {request : BiuReadRequest} (h : request.input.generated.request.bytes ≠ 0) : 0 < request.beats := by
  have : request.input.generated.request.bytes.toNat ≠ 0 := fun hz => h (UInt32.toNat_inj.mp (by simpa using hz))
  unfold BiuReadRequest.beats
  omega

/-- A call to `track` fails, or the request gets a record, and a place in line if it is ordered. -/
theorem track_cases (tick : Nat) (request : BiuReadRequest) (s : BiuReadReturns) :
    (∃ e, track tick request s = (.error e, s)) ∨
    s.records.get? request.tag = none ∧ 0 < request.beats ∧ ∃ readyTick, track tick request s = (.ok (), { s with
      records := s.records.insert request.tag (fresh request)
      order := if request.outOfOrder then s.order
        else Function.update s.order request.core
          (Function.update (s.order request.core) 0 (s.order request.core 0 ++ [⟨request.tag, readyTick⟩]))
      instructions := s.instructions.insert request.instructionId
        ⟨(s.instructions.getD request.instructionId ⟨0, false⟩).remaining + 1, request.input.generated.lastInInstruction⟩
      observedTick := some tick
      tracks := s.tracks ++ [request] }) := by
  unfold track
  split
  · exact .inl ⟨_, rfl⟩
  · split
    · exact .inl ⟨_, rfl⟩
    · split
      · exact .inl ⟨_, rfl⟩
      · rename_i hb
        split
        · exact .inl ⟨_, rfl⟩
        · split
          · exact .inl ⟨_, rfl⟩
          · split
            · exact .inl ⟨_, rfl⟩
            · rename_i hn
              split
              · exact .inl ⟨_, rfl⟩
              · exact .inr ⟨OrdMap.contains_eq_false.mp (by simpa using hn), beats_pos hb, _, rfl⟩

theorem good_track {tick : Nat} {request : BiuReadRequest} (h : Good s.view)
    (ht : (track tick request s).1.isOk = true → ∀ q ∈ s.tracks, isTailOf request.instructionId q = false) :
    Good (track tick request s).2.view := by
  rcases track_cases tick request s with ⟨e, he⟩ | ⟨hn, hb, readyTick, he⟩
  · rw [he]; exact h
  · rw [he] at ht ⊢
    have htail : s.view.tracks.countP (isTailOf request.instructionId) = 0 :=
      List.countP_eq_zero.mpr fun q hq => by
        rw [ht rfl q hq]
        decide
    refine ⟨⟨?_, ?_, ?_⟩, fun core => ?_⟩
    · exact h.inv.placed.tracked hn hb rfl rfl rfl rfl rfl
    · refine h.inv.stored.same (fun port => ?_) rfl rfl
      exact OrdMap.sum_insert_new _ hn
    · exact h.inv.history.tracking h.inv.placed hn rfl rfl rfl rfl rfl rfl rfl rfl htail
    · refine (h.holds core).same rfl fun t hat => OrdMap.get?_insert_ne ?_
      rintro rfl
      exact (h.inv.placed.absent _ hn).active core hat

/-! ## Receiving -/

theorem find?_two {p : Fin 2 → Bool} {port : Fin 2} {l : List (Fin 2)} (h : l.find? p = some port) : p port = true :=
  List.find?_some h

/-- A head goes to a free port, and two heads to different ones. -/
theorem receiveMapping_some (heads : Fin 2 → Option BiuReadBeat) (s : BiuReadReturns) :
    ∃ mapping arbiter, s.receiveMapping heads = some (mapping, arbiter) ∧
      (∀ channel port, mapping channel = some port → s.free port = true) ∧
      (∀ port port', mapping 0 = some port → mapping 1 = some port' → port ≠ port') := by
  unfold receiveMapping
  split
  · rename_i a b _ _
    split
    · rename_i hf
      have hfree : ∀ port : Fin 2, s.free port = true := fun port => match port with
        | 0 => hf.1
        | 1 => hf.2
      split
      · rename_i hne
        refine ⟨_, _, rfl, fun _ port _ => hfree port, fun port port' h₀ h₁ => ?_⟩
        simp only [if_true, Option.some.injEq, show ((1 : Fin 2) = 0) = False by simp, if_false] at h₀ h₁
        rwa [← h₀, ← h₁]
      · refine ⟨_, _, rfl, fun _ port _ => hfree port, fun port port' h₀ h₁ => ?_⟩
        rw [← Option.some.inj h₀, ← Option.some.inj h₁]
        decide
    · split
      · exact ⟨_, _, rfl, fun _ _ h => (by cases h), fun _ _ h => (by cases h)⟩
      · rename_i port hport
        have hsel : ∃ r, s.receiveArbiter.select (fun _ => true) = some r := by
          simp [RoundRobin.select, List.finRange]
        obtain ⟨⟨c, arbiter⟩, hr⟩ := hsel
        refine ⟨_, arbiter, by rw [hr]; rfl, fun channel port' h => ?_, fun p p' h₀ h₁ => ?_⟩
        · by_cases hc : channel = c
          · subst hc
            rw [Function.update_self] at h
            exact Option.some.inj h ▸ find?_two hport
          · rw [Function.update_of_ne hc] at h
            cases h
        · by_cases hc : c = 0
          · subst hc
            rw [Function.update_of_ne (show (1 : Fin 2) ≠ 0 by decide)] at h₁
            cases h₁
          · rw [Function.update_of_ne (show (0 : Fin 2) ≠ c from Ne.symm hc)] at h₀
            cases h₀
  · rename_i hnot
    refine ⟨_, _, rfl, fun channel port h => ?_, fun p p' h₀ h₁ => ?_⟩
    · obtain ⟨beat, -, h⟩ := Option.bind_eq_some_iff.mp h
      exact find?_two h
    · obtain ⟨a, ha, -⟩ := Option.bind_eq_some_iff.mp h₀
      obtain ⟨b, hb, -⟩ := Option.bind_eq_some_iff.mp h₁
      exact absurd hb (hnot a b ha)

/-- What `acceptHead` does: nothing, or the head is stored in the record of its tag. -/
theorem acceptHead_cases (sorter : SortUnstable) (tick : Nat) (port : Option (Fin 2)) (head : Option BiuReadBeat)
    (s : BiuReadReturns) : (acceptHead sorter tick port head s).2 = s ∨
    ∃ p beat r l readyTick, port = some p ∧ head = some beat ∧ s.records.get? beat.tag = some r ∧
      l.Perm (r.transactions ++ [⟨beat, p⟩]) ∧
      (r.received + 1 = r.expected → l.Pairwise fun a b => a.beat.transactionId ≤ b.beat.transactionId) ∧
      (acceptHead sorter tick port head s).2 = { s with
        records := s.records.insert beat.tag (withBeat r ⟨beat, p⟩ l)
        occupancy := Function.update s.occupancy p (s.occupancy p + 1)
        ingress := if r.received + 1 = r.expected then
            Function.update s.ingress p (s.ingress p ++ [⟨beat.tag, readyTick⟩])
          else s.ingress } := by
  unfold acceptHead
  split
  · rename_i p beat
    split
    · exact .inl rfl
    · rename_i r hr
      refine .inr ⟨p, beat, r, _, _, rfl, rfl, hr, ?_, fun hc => ?_, rfl⟩
      · split
        · exact sorter.perm _
        · exact .refl _
      · rw [if_pos hc]
        exact sorter.sorted _
  · exact .inl rfl

theorem good_acceptHead {sorter : SortUnstable} {tick : Nat} {port : Option (Fin 2)} {head : Option BiuReadBeat}
    (h : Good s.view) (hf : ∀ p, port = some p → s.occupancy p < s.capacity)
    (hx : ∀ p beat r, port = some p → head = some beat → s.records.get? beat.tag = some r → r.received < r.expected) :
    Good (acceptHead sorter tick port head s).2.view := by
  rcases acceptHead_cases sorter tick port head s with he | ⟨p, beat, r, l, readyTick, hp, hb, hr, hperm, hsort, he⟩
  · rw [he]; exact h
  · rw [he]
    have hlt := hx p beat r hp hb hr
    have hfree := hf p hp
    refine ⟨⟨?_, ⟨fun port => ?_, fun port => ?_⟩, ?_⟩, fun core => ?_⟩
    · by_cases hc : r.received + 1 = r.expected
      · exact h.inv.placed.completed (b := ⟨beat, p⟩) hr hc hperm (hsort hc) rfl (if_pos hc) rfl rfl rfl
      · exact h.inv.placed.accepted (b := ⟨beat, p⟩) hr (by omega) hperm rfl (if_neg hc) rfl rfl rfl
    · have hs := stored_insert (v := s.view) (withBeat r ⟨beat, p⟩ l) hr port
      have hcount : onPort port (withBeat r ⟨beat, p⟩ l).transactions =
          onPort port r.transactions + if p = port then 1 else 0 := by
        rw [show (withBeat r ⟨beat, p⟩ l).transactions = l from rfl, onPort, hperm.countP_eq]
        simp [onPort, List.countP_cons]
      have hocc : s.occupancy port = stored s.view port := h.inv.stored.occupied port
      show Function.update s.occupancy p (s.occupancy p + 1) port =
        (s.records.insert beat.tag (withBeat r ⟨beat, p⟩ l)).sum fun _ r => onPort port r.transactions
      have hs' : ((s.records.insert beat.tag (withBeat r ⟨beat, p⟩ l)).sum fun _ r => onPort port r.transactions) =
          s.occupancy port + if p = port then 1 else 0 := by
        simp only [view] at hs hocc
        omega
      rw [hs']
      by_cases hport : port = p
      · subst hport
        rw [Function.update_self, if_pos rfl]
      · rw [Function.update_of_ne hport, if_neg (Ne.symm hport), Nat.add_zero]
    · have hroom := h.inv.stored.room port
      show Function.update s.occupancy p (s.occupancy p + 1) port ≤ s.capacity
      by_cases hport : port = p
      · subst hport
        rw [Function.update_self]
        exact hfree
      · rw [Function.update_of_ne hport]
        exact hroom
    · exact h.inv.history.rewritten (withBeat r ⟨beat, p⟩ l) hr rfl rfl rfl rfl (fun _ => rfl) rfl rfl rfl rfl rfl
    · refine (h.holds core).same rfl fun t hat => OrdMap.get?_insert_ne ?_
      rintro rfl
      obtain ⟨r₀, hr₀, -, hat₀, -⟩ := h.inv.placed.of_active hat
      cases hr.symm.trans hr₀
      exact absurd (hat₀.complete.mpr (by decide)) (Nat.ne_of_lt hlt)

/-- A head that passed the check has room in its record, the heads of the same tag before it counted. -/
theorem checkHead_ok {tick : Nat} {port : Option (Fin 2)} {head : Option BiuReadBeat} {incs incs' : OrdMap Nat Nat}
    (h : s.checkHead tick port head incs = .ok incs') :
    (∀ p beat r, port = some p → head = some beat → s.records.get? beat.tag = some r →
      r.received + incs.getD beat.tag 0 + 1 ≤ r.expected ∧ incs' = incs.insert beat.tag (incs.getD beat.tag 0 + 1)) := by
  rintro p beat r rfl rfl hr
  simp only [checkHead, hr] at h
  split at h
  · cases h
  · rename_i hle
    split at h
    · cases h
    · cases h
      exact ⟨by omega, rfl⟩

theorem good_receive (sorter : SortUnstable) (tick : Nat) (heads : Fin 2 → Option BiuReadBeat) (h : Good s.view) :
    ∃ r s', receive sorter tick heads s = some (r, s') ∧ Good s'.view := by
  unfold receive
  split
  · exact ⟨_, s, rfl, h⟩
  · split
    · exact ⟨_, s, rfl, h⟩
    · obtain ⟨mapping, arbiter, hm, hfree, hdiff⟩ := receiveMapping_some heads s
      rw [hm]
      refine ⟨_, _, rfl, ?_⟩
      dsimp only
      split
      · exact h
      · rename_i incs hincs
        obtain ⟨incs₀, hc₀, hc₁⟩ : ∃ incs₀, s.checkHead tick (mapping 0) (heads 0) .empty = .ok incs₀ ∧
            s.checkHead tick (mapping 1) (heads 1) incs₀ = .ok incs := by
          cases hc : s.checkHead tick (mapping 0) (heads 0) .empty with
          | error e => rw [hc] at hincs; cases hincs
          | ok incs₀ => rw [hc] at hincs; exact ⟨incs₀, rfl, hincs⟩
        have hocc : ∀ channel p, mapping channel = some p → s.occupancy p < s.capacity := fun channel p hp => by
          simpa [free] using hfree channel p hp
        have h₀ : Good (acceptHead sorter tick (mapping 0) (heads 0) { s with receiveArbiter := arbiter }).2.view := by
          refine good_acceptHead h (fun p hp => hocc 0 p hp) fun p beat r hp hb hr => ?_
          have := (checkHead_ok hc₀ p beat r hp hb hr).1
          omega
        refine good_acceptHead (s := (acceptHead sorter tick (mapping 0) (heads 0) { s with receiveArbiter := arbiter }).2)
          h₀ (fun p hp => ?_) fun p beat r hp hb hr => ?_
        · have hp' := hocc 1 p hp
          rcases acceptHead_cases sorter tick (mapping 0) (heads 0) { s with receiveArbiter := arbiter } with
            he | ⟨p₀, beat₀, r₀, _, _, hp₀, -, -, -, -, he⟩
          · rw [he]; exact hp'
          · rw [he]
            show Function.update s.occupancy p₀ _ p < s.capacity
            rwa [Function.update_of_ne (Ne.symm (hdiff p₀ p hp₀ hp))]
        · rcases acceptHead_cases sorter tick (mapping 0) (heads 0) { s with receiveArbiter := arbiter } with
            he | ⟨p₀, beat₀, r₀, _, _, hp₀, hb₀, hr₀, -, -, he⟩
          · rw [he] at hr
            have := (checkHead_ok hc₁ p beat r hp hb hr).1
            omega
          · rw [he] at hr
            obtain ⟨-, hi₀⟩ := checkHead_ok hc₀ p₀ beat₀ r₀ hp₀ hb₀ hr₀
            rw [get?_insert_record] at hr
            split at hr
            · rename_i htag
              cases hr
              have := (checkHead_ok hc₁ p beat r₀ hp hb (htag ▸ hr₀)).1
              rw [hi₀, htag, OrdMap.getD_insert, if_pos rfl] at this
              simp only [withBeat]
              omega
            · have := (checkHead_ok hc₁ p beat r hp hb hr).1
              omega

/-! ## Ingress -/

theorem good_ingressHead {port : Fin 2} {readyTick : Nat} {head : TimedTag} (h : Good s.view)
    (hh : (s.ingress port).head? = some head) : ∃ s', s.ingressHead port readyTick head = some s' ∧ Good s'.view := by
  obtain ⟨r, hr, -, -⟩ := h.inv.placed.of_ingress port hh
  refine ⟨_, Option.bind_eq_some_iff.mpr ⟨r, hr, rfl⟩, ⟨?_, ?_, ?_⟩, fun core => ?_⟩
  · exact h.inv.placed.ingressed hh hr rfl rfl rfl rfl rfl
  · refine h.inv.stored.same (fun port => ?_) rfl rfl
    exact Nat.add_right_cancel (stored_insert (v := s.view) { r with ingressReady := true } hr port)
  · refine h.inv.history.rewritten { r with ingressReady := true } hr rfl rfl rfl rfl (fun core => ?_) rfl rfl rfl rfl rfl
    show (if r.request.outOfOrder then _ else s.order : Fin 3 → Fin 2 → List TimedTag) core 0 = s.order core 0
    split
    · by_cases hc : core = r.request.core
      · subst hc
        rw [Function.update_self, Function.update_of_ne (by decide)]
      · rw [Function.update_of_ne hc]
    · rfl
  · exact (h.holds core).rewritten { r with ingressReady := true } rfl hr rfl rfl

theorem good_ingress (tick port : Nat) (h : Good s.view) :
    ∃ r s', ingressCall tick port s = some (r, s') ∧ Good s'.view := by
  unfold ingressCall
  split
  · dsimp only
    split
    · exact ⟨_, s, rfl, h⟩
    · split
      · exact ⟨_, _, rfl, h⟩
      · rename_i head hhead
        split
        · exact ⟨_, s, rfl, h⟩
        · obtain ⟨s', hs, h'⟩ := good_ingressHead h (Option.filter_eq_some_iff.mp hhead).1
          rw [hs]
          exact ⟨_, _, rfl, h'⟩
  · exact ⟨_, s, rfl, h⟩

/-! ## Selection -/

theorem headEligible_isSome {tick : Nat} (h : Placed s.view) (core : Fin 3) (o : Fin 2) :
    (s.headEligible tick core o).isNone = false := by
  unfold headEligible
  split
  · rfl
  · rename_i head hh
    split
    · obtain ⟨r, stage, hr, -⟩ := h.of_order core o (tagsOf_head hh)
      have hr : s.records.get? head.tag = some r := hr
      rw [hr]
      rfl
    · rfl

theorem eligible_head {tick : Nat} {core : Fin 3} {o : Fin 2} (h : s.eligible tick core o = true) :
    ∃ head r, (s.order core o).head? = some head ∧ s.records.get? head.tag = some r ∧ r.ingressReady = true := by
  unfold eligible headEligible at h
  split at h
  · cases h
  · rename_i head hh
    split at h
    · cases hr : s.records.get? head.tag with
      | none => rw [hr] at h; cases h
      | some r => rw [hr] at h; exact ⟨head, r, hh, hr, h⟩
    · cases h

theorem select_eligible {n : Nat} [NeZero n] {a a' : RoundRobin n} {p : Fin n → Bool} {i : Fin n}
    (h : a.select p = some (i, a')) : p i = true := by
  obtain ⟨j, hj, he⟩ := Option.map_eq_some_iff.mp h
  cases he
  exact List.find?_some hj

/-- Selection serves the lines that `pick` names. -/
theorem picks_selectLines (tick readyTick : Nat) (chosen : Fin 3) (arbiter : RoundRobin 3)
    (hidle : ∀ core, s.active core = none) :
    Picks s.view (fun core => (s.pick tick chosen core).map (·.1)) (selectLines tick readyTick chosen arbiter s).view where
  idle := hidle
  head core o hp := by
    obtain ⟨⟨o', a⟩, hs, rfl⟩ := Option.map_eq_some_iff.mp hp
    unfold pick at hs
    split at hs
    · exact eligible_head (select_eligible hs)
    · cases hs
  order core := by
    show (s.pick tick chosen core).elim _ _ = _
    cases s.pick tick chosen core <;> rfl
  active core := by
    show (s.pick tick chosen core).bind _ = _
    cases s.pick tick chosen core <;> rfl

/-- A tag that is ready has all its beats. -/
theorem At.full (hok : RecordOk tag r) (hat : At v tag r .ready) : r.transactions ≠ [] := by
  intro hz
  have hb := hok.beats.length_eq
  rw [hat.undrained (by decide) (by decide), hz, List.append_nil, ← hok.received_eq,
    hat.complete.mpr (by decide)] at hb
  exact absurd hb (Nat.ne_of_lt hok.expected_pos)

theorem good_select (tick : Nat) (h : Good s.view) : ∃ r s', select tick s = some (r, s') ∧ Good s'.view := by
  unfold select
  dsimp only
  split
  · exact ⟨_, s, rfl, h⟩
  · split
    · exact ⟨_, _, rfl, h⟩
    · rename_i hidle
      split
      · exact ⟨_, s, rfl, h⟩
      · rename_i readyTick _
        rw [if_neg fun ⟨core, o, hn⟩ => by rw [headEligible_isSome h.inv.placed] at hn; cases hn]
        split
        · exact ⟨_, _, rfl, h⟩
        · rename_i chosen arbiter _
          have hp := picks_selectLines (s := s) tick readyTick chosen arbiter fun core => by
              simp only [hasActiveTags, decide_eq_true_eq, not_exists, Option.not_isSome_iff_eq_none] at hidle
              exact hidle core
          refine ⟨_, _, rfl, ⟨?_, ?_, ?_⟩, fun core t ht => ?_⟩
          · exact h.inv.placed.selected hp rfl rfl rfl
          · exact h.inv.stored.same (fun _ => rfl) rfl rfl
          · exact h.inv.history.selected h.inv.placed hp rfl rfl rfl rfl rfl rfl
          · obtain ⟨r, o, hr, hat, -⟩ := hp.ready h.inv.placed ht
            exact ⟨r, hr, At.full (h.inv.placed.ok _ _ hr) hat⟩

/-! ## ROB reads -/

/-- The active tag of a core is not that of another. -/
theorem active_ne {core core' : Fin 3} {t : Nat} (h : Placed v) (ha : v.active core = some tag)
    (ha' : v.active core' = some t) (hne : core' ≠ core) : t ≠ tag := by
  rintro rfl
  obtain ⟨r, hr, -, -, hc⟩ := h.of_active ha
  obtain ⟨r', hr', -, -, hc'⟩ := h.of_active ha'
  cases hr.symm.trans hr'
  exact hne (hc'.trans hc.symm)

/-- One beat of an active tag is read; the other active tags keep theirs. -/
structure Popped (core : Fin 3) (s s' : BiuReadReturns) : Prop where
  inv : Inv s'.view
  active : s'.active = s.active
  holds : ∀ c, c ≠ core → Holds s.view c → Holds s'.view c

theorem popBeat_some {core : Fin 3} (h : Inv s.view) (ha : s.active core = some tag)
    (hr : s.records.get? tag = some r) (hne : r.transactions ≠ []) :
    ∃ b s', s.popBeat tag = some (b, s') ∧ Popped core s s' := by
  obtain ⟨b, rest, ht⟩ := List.exists_cons_of_ne_nil hne
  have hocc : s.occupancy b.port = stored s.view b.port := h.stored.occupied b.port
  have hle : onPort b.port r.transactions ≤ stored s.view b.port :=
    OrdMap.le_sum (fun _ r => onPort b.port r.transactions) hr
  have hone : onPort b.port r.transactions = onPort b.port rest + 1 := by simp [onPort, ht]
  refine ⟨b, { s with
    records := s.records.insert tag { r with transactions := rest, drained := r.drained ++ [b] }
    occupancy := Function.update s.occupancy b.port (s.occupancy b.port - 1) }, ?_, ⟨?_, ⟨?_, ?_⟩, ?_⟩, rfl, ?_⟩
  · refine Option.bind_eq_some_iff.mpr ⟨r, hr, ?_⟩
    simp only [ht]
    rw [if_neg (by omega)]
  · exact h.placed.popped ha hr ht rfl rfl rfl rfl rfl
  · intro port
    have hs := stored_insert (v := s.view) { r with transactions := rest, drained := r.drained ++ [b] } hr port
    have hp : s.occupancy port = stored s.view port := h.stored.occupied port
    show Function.update s.occupancy b.port (s.occupancy b.port - 1) port =
      (s.records.insert tag { r with transactions := rest, drained := r.drained ++ [b] }).sum
        fun _ r => onPort port r.transactions
    have hcount : onPort port r.transactions = onPort port rest + if b.port = port then 1 else 0 := by
      simp [onPort, ht, List.countP_cons]
    simp only [view] at hs hp hocc hle
    by_cases hport : port = b.port
    · subst hport
      rw [Function.update_self]
      omega
    · rw [Function.update_of_ne hport]
      rw [if_neg (Ne.symm hport)] at hcount
      omega
  · intro port
    have hroom : s.occupancy port ≤ s.capacity := h.stored.room port
    show Function.update s.occupancy b.port (s.occupancy b.port - 1) port ≤ s.capacity
    by_cases hport : port = b.port
    · subst hport
      rw [Function.update_self]
      omega
    · rwa [Function.update_of_ne hport]
  · exact h.history.rewritten { r with transactions := rest, drained := r.drained ++ [b] } hr rfl rfl rfl rfl
      (fun _ => rfl) rfl rfl rfl rfl rfl
  · exact fun c hc hh => hh.same rfl fun t hat => OrdMap.get?_insert_ne (active_ne h.placed ha hat hc)

theorem drainCube_some (h : Inv s.view) (h₀ : Holds s.view 0) :
    ∃ l s', s.drainCube = some (l, s') ∧ Popped 0 s s' := by
  unfold drainCube
  split
  · exact ⟨_, s, rfl, h, rfl, fun _ _ hh => hh⟩
  · rename_i tag ha
    obtain ⟨r, hr, hne⟩ := h₀ tag ha
    obtain ⟨b, m, hb, hm⟩ := popBeat_some h ha hr hne
    have ham : m.active 0 = some tag := by rw [hm.active]; exact ha
    obtain ⟨r', hr', -⟩ := hm.inv.placed.of_active (v := m.view) ham
    have hr' : m.records.get? tag = some r' := hr'
    simp only [hb, hr', Option.bind_eq_bind, Option.bind_some]
    split
    · rename_i hfront
      have hne' : r'.transactions ≠ [] := by
        intro hz
        rw [hz] at hfront
        cases hfront
      obtain ⟨b', m', hb', hm'⟩ := popBeat_some hm.inv ham hr' hne'
      rw [hb']
      exact ⟨_, m', rfl, hm'.inv, hm'.active.trans hm.active, fun c hc hh => hm'.holds c hc (hm.holds c hc hh)⟩
    · exact ⟨_, m, rfl, hm⟩

theorem frontPort_some {core : Fin 3} (h : Holds s.view core) (ha : (s.active core).isSome = true) :
    ∃ port, s.frontPort core = some port := by
  obtain ⟨tag, ht⟩ := Option.isSome_iff_exists.mp ha
  obtain ⟨r, hr, hne⟩ := h tag ht
  have hr : s.records.get? tag = some r := hr
  obtain ⟨b, rest, hb⟩ := List.exists_cons_of_ne_nil hne
  exact ⟨b.port, by simp [frontPort, ht, hr, hb]⟩

/-- A vector core that is enabled has an active tag. -/
theorem enabledVectors_some (h₁ : Holds s.view 1) (h₂ : Holds s.view 2) :
    ∃ first second s', s.enabledVectors = some ((first, second), s') ∧ s'.view = s.view ∧
      (first = true → (s.active 1).isSome = true) ∧ (second = true → (s.active 2).isSome = true) := by
  unfold enabledVectors
  split
  · rename_i hboth
    obtain ⟨-, hs₁, hs₂⟩ := hboth
    obtain ⟨p₁, hp₁⟩ := frontPort_some h₁ hs₁
    obtain ⟨p₂, hp₂⟩ := frontPort_some h₂ hs₂
    simp only [hp₁, hp₂, Option.bind_eq_bind, Option.bind_some]
    split
    · obtain ⟨⟨c, a⟩, hr⟩ : ∃ r, s.vectorArbiter.select (fun _ => true) = some r := by
        simp [RoundRobin.select, List.finRange]
      rw [hr]
      exact ⟨_, _, _, rfl, rfl, fun _ => hs₁, fun _ => hs₂⟩
    · exact ⟨_, _, s, rfl, rfl, fun _ => hs₁, fun _ => hs₂⟩
  · exact ⟨_, _, s, rfl, rfl, id, id⟩

theorem drainVector_some {core : Fin 3} {enabled : Bool} (h : Inv s.view) (hc : Holds s.view core)
    (he : enabled = true → (s.active core).isSome = true) :
    ∃ l s', s.drainVector core enabled = some (l, s') ∧ Popped core s s' := by
  unfold drainVector
  split
  · rename_i hen
    obtain ⟨tag, ha⟩ := Option.isSome_iff_exists.mp (he hen)
    obtain ⟨r, hr, hne⟩ := hc tag ha
    obtain ⟨b, m, hb, hm⟩ := popBeat_some h ha hr hne
    simp only [ha, hb, Option.bind_eq_bind, Option.bind_some]
    exact ⟨_, m, rfl, hm⟩
  · exact ⟨_, s, rfl, h, rfl, fun _ _ hh => hh⟩

/-- After it is finished, a core's active tag has a beat to be read. -/
theorem finishCore_some (readyTick : Nat) (core : Fin 3) (h : Inv s.view) : ∃ s', s.finishCore readyTick core = some s' ∧
    Inv s'.view ∧ Holds s'.view core ∧ ∀ c, c ≠ core → Holds s.view c → Holds s'.view c := by
  unfold finishCore
  split
  · rename_i ha
    refine ⟨s, rfl, h, fun t ht => ?_, fun _ _ hh => hh⟩
    rw [show s.view.active core = none from ha] at ht
    cases ht
  · rename_i tag ha
    obtain ⟨r, hr, -⟩ := h.placed.of_active (v := s.view) ha
    obtain ⟨e, he, hpos⟩ := h.history.pending h.placed ha hr
    have hr : s.records.get? tag = some r := hr
    have he : s.instructions.get? r.request.instructionId = some e := he
    simp only [hr, he, Option.bind_eq_bind, Option.bind_some]
    split
    · rename_i hz
      have hz := List.isEmpty_iff.mp hz
      rw [if_neg (Nat.ne_of_gt hpos)]
      refine ⟨_, rfl, ⟨?_, ?_, ?_⟩, fun t ht => ?_, fun c hc hh => ?_⟩
      · exact h.placed.finished ha hr hz rfl rfl rfl rfl rfl rfl
      · refine h.stored.same (fun port => ?_) rfl rfl
        exact Nat.add_right_cancel (stored_insert (v := s.view) { r with isRead := true } hr port)
      · exact h.history.finished h.placed ha hr hz he hpos rfl rfl rfl rfl rfl rfl rfl rfl rfl rfl
      · simp [view] at ht
      · exact hh.rewritten { r with isRead := true } (Function.update_of_ne hc _ _) hr rfl rfl
    · rename_i hne
      refine ⟨s, rfl, h, fun t ht => ?_, fun _ _ hh => hh⟩
      cases (show s.active core = some t from ht).symm.trans ha
      exact ⟨r, hr, fun hz => hne (by simp [hz])⟩

theorem readBeats_some (readyTick : Nat) (h : Good s.view) :
    ∃ l s', s.readBeats readyTick = some (l, s') ∧ Good s'.view := by
  obtain ⟨cube, s₁, hs₁, p₁⟩ := drainCube_some h.inv (h.holds 0)
  obtain ⟨first, second, s₂, hs₂, hv, he₁, he₂⟩ :=
    enabledVectors_some (p₁.holds 1 (by decide) (h.holds 1)) (p₁.holds 2 (by decide) (h.holds 2))
  have hact : s₂.active = s₁.active := congrArg View.active hv
  have i₂ : Inv s₂.view := hv ▸ p₁.inv
  have h₁ : Holds s₂.view 1 := hv ▸ p₁.holds 1 (by decide) (h.holds 1)
  have h₂ : Holds s₂.view 2 := hv ▸ p₁.holds 2 (by decide) (h.holds 2)
  obtain ⟨vector0, s₃, hs₃, p₃⟩ := drainVector_some i₂ h₁ fun hf => by rw [hact]; exact he₁ hf
  obtain ⟨vector1, s₄, hs₄, p₄⟩ := drainVector_some p₃.inv (p₃.holds 2 (by decide) h₂) fun hf => by
    rw [p₃.active, hact]
    exact he₂ hf
  obtain ⟨s₅, hs₅, i₅, c₀, -⟩ := finishCore_some readyTick 0 p₄.inv
  obtain ⟨s₆, hs₆, i₆, c₁, k₆⟩ := finishCore_some readyTick 1 i₅
  obtain ⟨s₇, hs₇, i₇, c₂, k₇⟩ := finishCore_some readyTick 2 i₆
  refine ⟨cube ++ vector0 ++ vector1, s₇, ?_, i₇, fun core => ?_⟩
  · simp only [readBeats, hs₁, hs₂, hs₃, hs₄, hs₅, hs₆, hs₇, Option.bind_eq_bind, Option.bind_some]
  · match core with
    | 0 => exact k₇ 0 (by decide) (k₆ 0 (by decide) c₀)
    | 1 => exact k₇ 1 (by decide) c₁
    | 2 => exact c₂

theorem good_read (tick : Nat) (h : Good s.view) : ∃ r s', read tick s = some (r, s') ∧ Good s'.view := by
  unfold read
  split
  · exact ⟨_, s, rfl, h⟩
  · split
    · exact ⟨_, s, rfl, h⟩
    · rename_i readyTick _
      split
      · exact ⟨_, _, rfl, h⟩
      · obtain ⟨l, s', hs, h'⟩ := readBeats_some readyTick h
        rw [hs]
        exact ⟨_, _, rfl, h'⟩

/-! ## Egress -/

theorem good_egress {tick : Nat} {core : BiuSubcore} (h : Good s.view) : Good (egressCall tick core s).2.view := by
  unfold egressCall
  dsimp only
  split
  · exact h
  · split
    · exact h
    · rename_i output rest hh
      split
      · exact h
      · split
        · split
          · exact h
          · obtain ⟨r, hr, -, hat, -⟩ := h.inv.placed.of_egress (v := s.view) hh
            refine ⟨⟨?_, ?_, ?_⟩, fun c => ?_⟩
            · exact h.inv.placed.egressed hh rfl rfl rfl rfl rfl
            · refine h.inv.stored.same (fun port => ?_) rfl rfl
              have hs := OrdMap.sum_erase_some (fun _ r => onPort port r.transactions) hr
              rw [hat.emptied rfl] at hs
              exact hs
            · exact h.inv.history.egressed h.inv.placed hh rfl rfl rfl rfl rfl rfl rfl rfl
            · refine (h.holds c).same rfl fun t hact => OrdMap.get?_erase_ne ?_
              rintro rfl
              exact absurd ((hat.active c).mp hact).2 (by decide)
        · exact h

theorem view_preparePlan {index : Fin 3} {output : BiuReadOutput} : (preparePlan index output s).2.view = s.view := by
  unfold preparePlan
  split
  · rfl
  · split
    · rfl
    · split <;> rfl

theorem view_sendPacket {result : BiuWriteSend} {index : Fin 3} {ready : Bool} {plan : WritePlan} :
    (sendPacket result index ready plan s).2.view = s.view := by
  unfold sendPacket
  dsimp only
  repeat' split
  all_goals rfl

theorem view_sendOutput {tick : Nat} {core : BiuSubcore} {ready : Bool} : (sendOutput tick core ready s).2.view = s.view := by
  unfold sendOutput
  dsimp only
  split
  · rfl
  · split
    · rfl
    · rename_i output _ _
      split
      · rfl
      · have hp : (preparePlan core.index output s).2.view = s.view := view_preparePlan
        unfold Call.bind
        rcases hr : preparePlan core.index output s with ⟨r, m⟩
        rw [hr] at hp
        cases r with
        | error e => exact hp
        | ok plan => exact (view_sendPacket (s := m)).trans hp

/-! ## Runs -/

/-- No request of an instruction is tracked after its tail. -/
def TailLast : ReturnCall → BiuReadReturns → Prop
  | .track tick request, s =>
    (track tick request s).1.isOk = true → ∀ q ∈ s.tracks, isTailOf request.instructionId q = false
  | _, _ => True

instance : ∀ c s, Decidable (TailLast c s)
  | .track tick request, s => inferInstanceAs
      (Decidable ((track tick request s).1.isOk = true → ∀ q ∈ s.tracks, isTailOf request.instructionId q = false))
  | .receive _ _, _ | .ingress _ _, _ | .select _, _ | .read _, _ | .egress _ _, _ | .sendOutput _ _ _, _ =>
    .isTrue trivial

theorem good_exec (sorter : SortUnstable) (c : ReturnCall) (h : Good s.view) (hc : TailLast c s) :
    ∃ s', exec sorter c s = some s' ∧ Good s'.view := by
  cases c with
  | track tick request => exact ⟨_, rfl, good_track h hc⟩
  | receive tick heads =>
    obtain ⟨r, s', hs, h'⟩ := good_receive sorter tick heads h
    exact ⟨s', by rw [exec, hs]; rfl, h'⟩
  | ingress tick port =>
    obtain ⟨r, s', hs, h'⟩ := good_ingress tick port h
    exact ⟨s', by rw [exec, hs]; rfl, h'⟩
  | select tick =>
    obtain ⟨r, s', hs, h'⟩ := good_select tick h
    exact ⟨s', by rw [exec, hs]; rfl, h'⟩
  | read tick =>
    obtain ⟨r, s', hs, h'⟩ := good_read tick h
    exact ⟨s', by rw [exec, hs]; rfl, h'⟩
  | egress tick core => exact ⟨_, rfl, good_egress h⟩
  | sendOutput tick core ready => exact ⟨_, rfl, by rw [view_sendOutput]; exact h⟩

theorem good_new {outstanding : Nat} {groupVectors : Bool} {bandwidths : BiuWriteBandwidths}
    (h : new outstanding groupVectors bandwidths = .ok s) : Good s.view := by
  unfold new at h
  dsimp only at h
  split at h
  · cases h
  · cases h
    refine ⟨⟨⟨fun _ _ hr => (by cases hr), fun _ _ hr => (by cases hr), fun tag _ => ?_⟩,
      ⟨fun _ => rfl, fun _ => Nat.zero_le _⟩, ⟨fun _ => rfl, fun _ ho => (by cases ho), fun _ => rfl, fun _ => rfl, fun id => ?_⟩⟩,
      fun core tag ht => (by cases ht)⟩
    · exact ⟨rfl, fun _ _ => rfl, fun _ hc => (by cases hc), fun _ => rfl⟩
    · exact ⟨fun e he => (by cases he), fun _ => ⟨rfl, .inl rfl⟩⟩

def hasTag (tag : Nat) (q : BiuReadRequest) : Bool := decide (q.tag = tag)

/-- A tag is tracked as often as it was read out, and once more while it is to be. -/
theorem tracked_tag (h : Inv v) (tag : Nat) : v.tracks.countP (hasTag tag) =
    outputsOf (hasTag tag) v + (v.records.get? tag).elim 0 fun r => if r.isRead then 0 else 1 := by
  rw [h.history.tracked, OrdMap.sum_eq_single (unread (hasTag tag)) tag fun t r hr hne => by
    simp [unread, hasTag, (h.placed.ok t r hr).tag_eq, hne]]
  cases hr : v.records.get? tag with
  | none => rfl
  | some r => cases hread : r.isRead <;> simp [unread, hasTag, (h.placed.ok tag r hr).tag_eq, hread]

/-- Once the tail and as many requests as were tracked are read out, the last output is marked;
    before that none is. -/
theorem marked {id : Nat} (h : Ledger v id) :
    (0 < v.tracks.countP (isTailOf id) → outputsOf (isOf id) v = v.tracks.countP (isOf id) → LastMarked (outs id v)) ∧
    (¬(0 < v.tracks.countP (isTailOf id) ∧ outputsOf (isOf id) v = v.tracks.countP (isOf id)) →
      ∀ o ∈ outs id v, o.output.lastInInstruction = false) := by
  have hle : v.tracks.countP (isTailOf id) ≤ v.tracks.countP (isOf id) := by
    refine List.countP_mono_left fun q _ hq => ?_
    simp only [isTailOf, Bool.and_eq_true] at hq
    exact hq.1
  cases hget : v.instructions.get? id with
  | none =>
    obtain ⟨h₁, h₂⟩ := h.settled hget
    refine ⟨fun htail _ => ?_, fun hnot o ho => ?_⟩
    · rcases h₂ with h₂ | h₂
      · omega
      · exact h₂.2
    · rcases h₂ with h₂ | h₂
      · have hz : outputsOf (isOf id) v = 0 := by omega
        obtain ⟨ho, hid⟩ := List.mem_filter.mp ho
        exact absurd hid (List.countP_eq_zero.mp hz o ho)
      · exact absurd ⟨h₂.1, h₁⟩ hnot
  | some e =>
    obtain ⟨h₁, h₂, h₃, h₄⟩ := h.pending e hget
    refine ⟨fun htail heq => ?_, fun _ => h₃⟩
    have := h₄ (h₂.mpr htail)
    omega

def byTransaction : SortUnstable where
  sort := List.insertionSort fun a b => a.beat.transactionId ≤ b.beat.transactionId
  perm := List.perm_insertionSort _
  sorted :=
    haveI : Std.Total fun a b : BiuRobBeat => a.beat.transactionId ≤ b.beat.transactionId := ⟨fun _ _ => Nat.le_total _ _⟩
    haveI : IsTrans BiuRobBeat fun a b => a.beat.transactionId ≤ b.beat.transactionId := ⟨fun _ _ _ => Nat.le_trans⟩
    List.pairwise_insertionSort _

def vectorRequest (tag : Nat) (last : Bool) : BiuReadRequest where
  tag
  byteOffset := 0
  input := {
    subcore := .vector0
    destination := .ub0
    prefetch := false
    generated := {
      instructionId := 7
      request := ⟨.ordinary, 0, 0, 128, true⟩
      destination := ⟨0, 128, 128⟩
      mode := .wide512
      outOfOrder := true
      lastInInstruction := last } }

def oneBeat (tag : Nat) (channel : Fin 2) : Option BiuReadBeat := if channel = 0 then some ⟨tag, 0⟩ else none

/-- Two out-of-order requests, of which the tail, 2, comes back first. -/
def tailFirst : List ReturnCall :=
  [.track 0 (vectorRequest 1 false), .track 0 (vectorRequest 2 true), .receive 1 (oneBeat 2), .ingress 3 0, .select 4,
    .read 5, .egress 6 .vector0, .sendOutput 7 .vector0 true, .receive 8 (oneBeat 1), .ingress 10 0, .select 11, .read 12,
    .egress 13 .vector0]

def width128 : BiuWriteBandwidths :=
  have w : NonZeroU32 := ⟨128, by decide⟩
  ⟨w, w, w, w⟩

theorem new_two_starts : (new 2 true width128).toOption.isSome = true := by decide +kernel

def newTwo : BiuReadReturns := (new 2 true width128).toOption.get new_two_starts

theorem tailFirst_runs : (runWhen TailLast (exec byTransaction) newTwo tailFirst).isSome = true := by decide +kernel

end AscendEmulator.C220.Mte.BiuReadReturns
