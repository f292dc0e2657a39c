/-
  AscendEmulator.C220.Mte.ReturnsPlaced — where a tracked tag is (see
  `AscendEmulator.C220.Mte.Returns`).

  A tag with a record is at one stage: it receives its beats, or waits for ingress, or waits
  in line, or is active, or is read out. Each queue holds it as often as its stage says
  (`At`), and a tag with no record is in no queue (`Absent`). The invariant speaks of the
  part of the state that is not a tick, an arbiter or an aligner (`View`).
-/

import AscendEmulator.Lib.Queue
import AscendEmulator.C220.Mte.Returns

namespace AscendEmulator.C220.Mte.BiuReadReturns

open Lib

/-! ## The view -/

/-- What the invariant speaks of. -/
structure View where
  capacity : Nat
  occupancy : Fin 2 → Nat
  records : OrdMap Nat Record
  instructions : OrdMap Nat InstructionRequests
  ingress : Fin 2 → List TimedTag
  order : Fin 3 → Fin 2 → List TimedTag
  active : Fin 3 → Option Nat
  egress : Fin 3 → List BiuReadOutput
  tracks : List BiuReadRequest
  outputs : List ReadOut
  left : Fin 3 → List BiuReadOutput

def view (s : BiuReadReturns) : View :=
  ⟨s.capacity, s.occupancy, s.records, s.instructions, s.ingress, s.order, s.active, s.egress, s.tracks, s.outputs,
    s.left⟩

variable {v v' : View} {tag : Nat} {r r' : Record}

/-! ## Counting -/

def tagsOf (tag : Nat) (l : List TimedTag) : Nat := l.countP fun t => decide (t.tag = tag)

def outsOf (tag : Nat) (l : List BiuReadOutput) : Nat := l.countP fun o => decide (o.request.tag = tag)

@[simp] theorem tagsOf_nil : tagsOf tag [] = 0 := rfl

@[simp] theorem tagsOf_append (l l' : List TimedTag) : tagsOf tag (l ++ l') = tagsOf tag l + tagsOf tag l' :=
  List.countP_append

@[simp] theorem tagsOf_cons (t : TimedTag) (l : List TimedTag) :
    tagsOf tag (t :: l) = tagsOf tag l + if t.tag = tag then 1 else 0 := by
  simp [tagsOf, List.countP_cons]

@[simp] theorem outsOf_nil : outsOf tag [] = 0 := rfl

@[simp] theorem outsOf_append (l l' : List BiuReadOutput) : outsOf tag (l ++ l') = outsOf tag l + outsOf tag l' :=
  List.countP_append

@[simp] theorem outsOf_cons (o : BiuReadOutput) (l : List BiuReadOutput) :
    outsOf tag (o :: l) = outsOf tag l + if o.request.tag = tag then 1 else 0 := by
  simp [outsOf, List.countP_cons]

/-- One line of one core was replaced. -/
theorem tagsOf_update {order : Fin 3 → Fin 2 → List TimedTag} (core core' : Fin 3) (o o' : Fin 2) (l : List TimedTag) :
    tagsOf tag (Function.update order core (Function.update (order core) o l) core' o') =
      if core' = core ∧ o' = o then tagsOf tag l else tagsOf tag (order core' o') := by
  by_cases hc : core' = core
  · subst hc
    rw [Function.update_self]
    by_cases ho : o' = o
    · subst ho
      rw [Function.update_self, if_pos ⟨rfl, rfl⟩]
    · rw [Function.update_of_ne ho, if_neg fun h => ho h.2]
  · rw [Function.update_of_ne hc, if_neg fun h => hc h.1]

/-! ## Stages -/

inductive Stage where
  | receiving | arrived | ready | active | done
  deriving DecidableEq

/-- A tag at this stage waits in line `o` of its core. -/
def inLine (outOfOrder : Bool) : Stage → Fin 2 → Bool
  | .receiving, o | .arrived, o => !outOfOrder && decide (o = 0)
  | .ready, o => decide (o = if outOfOrder then 1 else 0)
  | .active, _ | .done, _ => false

/-- The record of `tag`, by itself. -/
structure RecordOk (tag : Nat) (r : Record) : Prop where
  tag_eq : r.request.tag = tag
  expected_eq : r.expected = r.request.beats
  expected_pos : 0 < r.expected
  received_eq : r.received = r.accepted.length
  received_le : r.received ≤ r.expected
  beats : (r.drained ++ r.transactions).Perm r.accepted
  tags : ∀ b ∈ r.accepted, b.beat.tag = tag
  sorted : r.received = r.expected →
    (r.drained ++ r.transactions).Pairwise fun a b => a.beat.transactionId ≤ b.beat.transactionId

/-- The tag is at this stage, and in the queues of it. -/
structure At (v : View) (tag : Nat) (r : Record) (stage : Stage) : Prop where
  ingress : both (tagsOf tag) v.ingress = if stage = .arrived then 1 else 0
  order : ∀ core o, tagsOf tag (v.order core o) =
    if core = r.request.core ∧ inLine r.request.outOfOrder stage o = true then 1 else 0
  active : ∀ core, v.active core = some tag ↔ core = r.request.core ∧ stage = .active
  egress : ∀ core, outsOf tag (v.egress core) = if core = r.request.core ∧ stage = .done then 1 else 0
  complete : r.received = r.expected ↔ stage ≠ .receiving
  ready : r.ingressReady = true ↔ stage = .ready ∨ stage = .active ∨ stage = .done
  isRead : r.isRead = true ↔ stage = .done
  undrained : stage ≠ .active → stage ≠ .done → r.drained = []
  emptied : stage = .done → r.transactions = []

structure Absent (v : View) (tag : Nat) : Prop where
  ingress : both (tagsOf tag) v.ingress = 0
  order : ∀ core o, tagsOf tag (v.order core o) = 0
  active : ∀ core, v.active core ≠ some tag
  egress : ∀ core, outsOf tag (v.egress core) = 0

structure Placed (v : View) : Prop where
  ok : ∀ tag r, v.records.get? tag = some r → RecordOk tag r
  stage : ∀ tag r, v.records.get? tag = some r → ∃ stage, At v tag r stage
  absent : ∀ tag, v.records.get? tag = none → Absent v tag

/-! ## What a queue says of a tag -/

theorem tagsOf_head {l : List TimedTag} {t : TimedTag} (h : l.head? = some t) : 0 < tagsOf t.tag l := by
  obtain ⟨rest, rfl⟩ := List.head?_eq_some_iff.mp h
  simp

theorem tagsOf_tail {l : List TimedTag} {t : TimedTag} (h : l.head? = some t) (tag : Nat) :
    tagsOf tag l.tail + (if t.tag = tag then 1 else 0) = tagsOf tag l := by
  obtain ⟨rest, rfl⟩ := List.head?_eq_some_iff.mp h
  simp

/-- The tag at the head of an ingress queue waits for ingress. -/
theorem Placed.of_ingress (h : Placed v) (port : Fin 2) {t : TimedTag} (ht : (v.ingress port).head? = some t) :
    ∃ r, v.records.get? t.tag = some r ∧ RecordOk t.tag r ∧ At v t.tag r .arrived := by
  have hpos := Nat.lt_of_lt_of_le (tagsOf_head ht) (le_both (tagsOf t.tag) v.ingress port)
  cases hr : v.records.get? t.tag with
  | none => exact absurd (h.absent _ hr).ingress (Nat.ne_of_gt hpos)
  | some r =>
    obtain ⟨stage, hs⟩ := h.stage _ _ hr
    refine ⟨r, rfl, h.ok _ _ hr, ?_⟩
    have hi := hs.ingress
    split at hi
    · rename_i he
      exact he ▸ hs
    · omega

/-- A tag in line is at a stage of the line. -/
theorem Placed.of_order (h : Placed v) (core : Fin 3) (o : Fin 2) (hpos : 0 < tagsOf tag (v.order core o)) :
    ∃ r stage, v.records.get? tag = some r ∧ RecordOk tag r ∧ At v tag r stage ∧ core = r.request.core ∧
      inLine r.request.outOfOrder stage o = true := by
  cases hr : v.records.get? tag with
  | none => exact absurd ((h.absent _ hr).order core o) (Nat.ne_of_gt hpos)
  | some r =>
    obtain ⟨stage, hs⟩ := h.stage _ _ hr
    have ho := hs.order core o
    split at ho
    · rename_i hc
      exact ⟨r, stage, rfl, h.ok _ _ hr, hs, hc.1, hc.2⟩
    · omega

theorem Placed.of_active (h : Placed v) {core : Fin 3} (ha : v.active core = some tag) :
    ∃ r, v.records.get? tag = some r ∧ RecordOk tag r ∧ At v tag r .active ∧ core = r.request.core := by
  cases hr : v.records.get? tag with
  | none => exact absurd ha ((h.absent _ hr).active core)
  | some r =>
    obtain ⟨stage, hs⟩ := h.stage _ _ hr
    obtain ⟨hc, rfl⟩ := (hs.active core).mp ha
    exact ⟨r, rfl, h.ok _ _ hr, hs, hc⟩

/-- The output at the head of egress is of a tag that was read out. -/
theorem Placed.of_egress (h : Placed v) {core : Fin 3} {o : BiuReadOutput} {rest : List BiuReadOutput}
    (he : v.egress core = o :: rest) :
    ∃ r, v.records.get? o.request.tag = some r ∧ RecordOk o.request.tag r ∧ At v o.request.tag r .done ∧
      core = r.request.core := by
  have hpos : 0 < outsOf o.request.tag (v.egress core) := by simp [he]
  cases hr : v.records.get? o.request.tag with
  | none => exact absurd ((h.absent _ hr).egress core) (Nat.ne_of_gt hpos)
  | some r =>
    obtain ⟨stage, hs⟩ := h.stage _ _ hr
    have ho := hs.egress core
    split at ho
    · rename_i hc
      obtain ⟨hc, rfl⟩ := hc
      exact ⟨r, rfl, h.ok _ _ hr, hs, hc⟩
    · omega

/-! ## Steps -/

/-- The queues hold `tag` as before. -/
structure SameFor (tag : Nat) (v v' : View) : Prop where
  ingress : both (tagsOf tag) v'.ingress = both (tagsOf tag) v.ingress
  order : ∀ core o, tagsOf tag (v'.order core o) = tagsOf tag (v.order core o)
  active : ∀ core, v'.active core = some tag ↔ v.active core = some tag
  egress : ∀ core, outsOf tag (v'.egress core) = outsOf tag (v.egress core)

theorem SameFor.at {stage : Stage} (h : SameFor tag v v') (ha : At v tag r stage) : At v' tag r stage where
  ingress := h.ingress.trans ha.ingress
  order core o := (h.order core o).trans (ha.order core o)
  active core := (h.active core).trans (ha.active core)
  egress core := (h.egress core).trans (ha.egress core)
  complete := ha.complete
  ready := ha.ready
  isRead := ha.isRead
  undrained := ha.undrained
  emptied := ha.emptied

theorem SameFor.absent (h : SameFor tag v v') (ha : Absent v tag) : Absent v' tag where
  ingress := h.ingress.trans ha.ingress
  order core o := (h.order core o).trans (ha.order core o)
  active core hc := ha.active core ((h.active core).mp hc)
  egress core := (h.egress core).trans (ha.egress core)

/-- One record was written, and only its tag moved. -/
theorem Placed.moved (h : Placed v) (stage : Stage)
    (hget : ∀ t, v'.records.get? t = if t = tag then some r else v.records.get? t)
    (hok : RecordOk tag r) (hat : At v' tag r stage) (hframe : ∀ t, t ≠ tag → SameFor t v v') : Placed v' where
  ok t r' hr := by
    rw [hget] at hr
    split at hr
    · rename_i he
      cases hr
      exact he ▸ hok
    · exact h.ok t r' hr
  stage t r' hr := by
    rw [hget] at hr
    split at hr
    · rename_i he
      cases hr
      exact ⟨stage, he ▸ hat⟩
    · rename_i hne
      obtain ⟨st, hs⟩ := h.stage t r' hr
      exact ⟨st, (hframe t hne).at hs⟩
  absent t hr := by
    rw [hget] at hr
    split at hr
    · cases hr
    · rename_i hne
      exact (hframe t hne).absent (h.absent t hr)

/-- The record of one tag was dropped. -/
theorem Placed.dropped (h : Placed v) (hget : ∀ t, v'.records.get? t = if t = tag then none else v.records.get? t)
    (hab : Absent v' tag) (hframe : ∀ t, t ≠ tag → SameFor t v v') : Placed v' where
  ok t r' hr := by
    rw [hget] at hr
    split at hr
    · cases hr
    · exact h.ok t r' hr
  stage t r' hr := by
    rw [hget] at hr
    split at hr
    · cases hr
    · rename_i hne
      obtain ⟨st, hs⟩ := h.stage t r' hr
      exact ⟨st, (hframe t hne).at hs⟩
  absent t hr := by
    rw [hget] at hr
    split at hr
    · rename_i he
      exact he ▸ hab
    · rename_i hne
      exact (hframe t hne).absent (h.absent t hr)

/-- The queues did not change. -/
theorem SameFor.same (tag : Nat) (hi : v'.ingress = v.ingress) (ho : v'.order = v.order) (ha : v'.active = v.active)
    (he : v'.egress = v.egress) : SameFor tag v v' :=
  ⟨by rw [hi], fun _ _ => by rw [ho], fun _ => by rw [ha], fun _ => by rw [he]⟩

theorem get?_insert_record (records : OrdMap Nat Record) (tag : Nat) (r : Record) (t : Nat) :
    (records.insert tag r).get? t = if t = tag then some r else records.get? t := OrdMap.get?_insert

/-- The record of a request that was just tracked. -/
def fresh (q : BiuReadRequest) : Record :=
  { request := q, expected := q.beats, received := 0, transactions := [], ingressReady := false
    accepted := [], drained := [], isRead := false }

theorem Placed.tracked {q : BiuReadRequest} {readyTick : Nat} (h : Placed v) (hn : v.records.get? q.tag = none)
    (hb : 0 < q.beats) (hr : v'.records = v.records.insert q.tag (fresh q))
    (ho : v'.order = if q.outOfOrder then v.order
      else Function.update v.order q.core (Function.update (v.order q.core) 0 (v.order q.core 0 ++ [⟨q.tag, readyTick⟩])))
    (hi : v'.ingress = v.ingress) (ha : v'.active = v.active) (he : v'.egress = v.egress) : Placed v' := by
  have hab := h.absent _ hn
  have hline : ∀ t core o, tagsOf t (v'.order core o) = tagsOf t (v.order core o) +
      if q.tag = t ∧ core = q.core ∧ inLine q.outOfOrder .receiving o = true then 1 else 0 := by
    intro t core o
    rw [ho]
    cases hooo : q.outOfOrder with
    | true => simp [inLine]
    | false =>
      simp only [Bool.false_eq_true, if_false, tagsOf_update, inLine, Bool.not_false, Bool.true_and, decide_eq_true_eq]
      by_cases hc : core = q.core ∧ o = 0
      · obtain ⟨rfl, rfl⟩ := hc
        simp
      · rw [if_neg hc, if_neg fun h => hc h.2, Nat.add_zero]
  refine h.moved (r := fresh q) .receiving (fun t => by rw [hr, get?_insert_record]) ?_ ?_ ?_
  · exact ⟨rfl, rfl, hb, rfl, Nat.zero_le _, .nil, fun _ h => (by cases h), fun _ => .nil⟩
  · refine ⟨?_, fun core o => ?_, fun core => ?_, fun core => ?_, ?_, ?_, ?_, fun _ _ => rfl, fun h => (by cases h)⟩
    · rw [hi]
      exact hab.ingress
    · rw [hline, hab.order, Nat.zero_add]
      exact if_congr (and_iff_right rfl) rfl rfl
    · rw [ha]
      simp [hab.active core]
    · rw [he, hab.egress]
      simp
    · simp only [fresh, ne_eq, not_true, iff_false]
      omega
    · simp [fresh]
    · simp [fresh]
  · intro t hne
    exact ⟨by rw [hi], fun core o => by rw [hline, if_neg fun h => hne h.1.symm, Nat.add_zero], fun _ => by rw [ha],
      fun _ => by rw [he]⟩

/-- A record whose beats are not all there receives them. -/
theorem Placed.receiving (h : Placed v) (hr : v.records.get? tag = some r) (hlt : r.received < r.expected) :
    RecordOk tag r ∧ At v tag r .receiving := by
  obtain ⟨stage, hs⟩ := h.stage _ _ hr
  have hc := hs.complete
  refine ⟨h.ok _ _ hr, ?_⟩
  by_cases he : stage = .receiving
  · exact he ▸ hs
  · exact absurd (hc.mpr he) (Nat.ne_of_lt hlt)

/-- A record after one more beat, whose transactions are some arrangement of the old ones and it. -/
def withBeat (r : Record) (b : BiuRobBeat) (transactions : List BiuRobBeat) : Record :=
  { r with received := r.received + 1, transactions, accepted := r.accepted ++ [b] }

theorem RecordOk.stored {b : BiuRobBeat} {l : List BiuRobBeat} (h : RecordOk tag r) (hd : r.drained = [])
    (hlt : r.received < r.expected) (hp : l.Perm (r.transactions ++ [b])) (ht : b.beat.tag = tag)
    (hs : r.received + 1 = r.expected → l.Pairwise fun a b => a.beat.transactionId ≤ b.beat.transactionId) :
    RecordOk tag (withBeat r b l) where
  tag_eq := h.tag_eq
  expected_eq := h.expected_eq
  expected_pos := h.expected_pos
  received_eq := by simp [withBeat, h.received_eq]
  received_le := hlt
  beats := by
    have hb := h.beats
    rw [hd, List.nil_append] at hb
    show (r.drained ++ l).Perm (r.accepted ++ [b])
    rw [hd, List.nil_append]
    exact hp.trans (hb.append_right [b])
  tags b' hb' := by
    rcases List.mem_append.mp hb' with hb' | hb'
    · exact h.tags b' hb'
    · rw [List.mem_singleton.mp hb', ht]
  sorted hc := by
    show (r.drained ++ l).Pairwise _
    rw [hd, List.nil_append]
    exact hs hc

theorem Placed.accepted {b : BiuRobBeat} {l : List BiuRobBeat} (h : Placed v) (hr : v.records.get? b.beat.tag = some r)
    (hlt : r.received + 1 < r.expected) (hp : l.Perm (r.transactions ++ [b]))
    (hr' : v'.records = v.records.insert b.beat.tag (withBeat r b l)) (hi : v'.ingress = v.ingress)
    (ho : v'.order = v.order) (ha : v'.active = v.active) (he : v'.egress = v.egress) : Placed v' := by
  obtain ⟨hok, hat⟩ := h.receiving hr (by omega)
  have hd := hat.undrained (by decide) (by decide)
  have hat' := (SameFor.same b.beat.tag hi ho ha he).at hat
  refine h.moved .receiving (fun t => by rw [hr', get?_insert_record])
    (hok.stored hd (by omega) hp rfl fun hc => by omega) ?_ fun t _ => .same t hi ho ha he
  refine ⟨hat'.ingress, hat'.order, hat'.active, hat'.egress, ?_, hat'.ready, hat'.isRead, hat'.undrained,
    fun hc => (by cases hc)⟩
  simp only [withBeat, ne_eq, not_true, iff_false]
  omega

/-- The last beat puts the tag in the ingress queue of its port. -/
theorem Placed.completed {b : BiuRobBeat} {l : List BiuRobBeat} {port : Fin 2} {readyTick : Nat} (h : Placed v)
    (hr : v.records.get? b.beat.tag = some r) (hlt : r.received + 1 = r.expected) (hp : l.Perm (r.transactions ++ [b]))
    (hs : l.Pairwise fun a b => a.beat.transactionId ≤ b.beat.transactionId)
    (hr' : v'.records = v.records.insert b.beat.tag (withBeat r b l))
    (hi : v'.ingress = Function.update v.ingress port (v.ingress port ++ [⟨b.beat.tag, readyTick⟩]))
    (ho : v'.order = v.order) (ha : v'.active = v.active) (he : v'.egress = v.egress) : Placed v' := by
  obtain ⟨hok, hat⟩ := h.receiving hr (by omega)
  have hd := hat.undrained (by decide) (by decide)
  have hin : ∀ t, both (tagsOf t) v'.ingress = both (tagsOf t) v.ingress + if b.beat.tag = t then 1 else 0 := by
    intro t
    have := both_update (tagsOf t) v.ingress port (v.ingress port ++ [⟨b.beat.tag, readyTick⟩])
    rw [hi]
    simp only [tagsOf_append, tagsOf_cons, tagsOf_nil] at this
    omega
  refine h.moved .arrived (fun t => by rw [hr', get?_insert_record])
    (hok.stored hd (by omega) hp rfl fun _ => hs) ?_ fun t hne =>
      ⟨by rw [hin, if_neg (Ne.symm hne), Nat.add_zero], fun _ _ => by rw [ho], fun _ => by rw [ha], fun _ => by rw [he]⟩
  refine ⟨?_, fun core o => ?_, fun core => ?_, fun core => ?_, ?_, ?_, ?_, fun _ _ => hd, fun hc => (by cases hc)⟩
  · rw [hin, hat.ingress]
    simp
  · rw [ho]
    exact hat.order core o
  · rw [ha]
    exact (hat.active core).trans (by simp [withBeat])
  · rw [he, hat.egress]
    simp
  · simpa [withBeat] using hlt
  · exact hat.ready.trans (by simp)
  · exact hat.isRead.trans (by simp)

/-- The head of an ingress queue gets ready, in line if it was not yet. -/
theorem Placed.ingressed {port : Fin 2} {head : TimedTag} {readyTick : Nat} (h : Placed v)
    (hh : (v.ingress port).head? = some head) (hr : v.records.get? head.tag = some r)
    (hr' : v'.records = v.records.insert head.tag { r with ingressReady := true })
    (hi : v'.ingress = Function.update v.ingress port (v.ingress port).tail)
    (ho : v'.order = if r.request.outOfOrder then
        Function.update v.order r.request.core
          (Function.update (v.order r.request.core) 1 (v.order r.request.core 1 ++ [⟨head.tag, readyTick⟩]))
      else v.order)
    (ha : v'.active = v.active) (he : v'.egress = v.egress) : Placed v' := by
  obtain ⟨r₀, hr₀, hok, hat⟩ := h.of_ingress _ hh
  cases hr.symm.trans hr₀
  have hin : ∀ t, both (tagsOf t) v'.ingress + (if head.tag = t then 1 else 0) = both (tagsOf t) v.ingress := by
    intro t
    have h₁ := both_update (tagsOf t) v.ingress port (v.ingress port).tail
    have h₂ := tagsOf_tail hh t
    rw [hi]
    omega
  have hline : ∀ t core o, tagsOf t (v'.order core o) = tagsOf t (v.order core o) +
      if head.tag = t ∧ core = r.request.core ∧ o = 1 ∧ r.request.outOfOrder = true then 1 else 0 := by
    intro t core o
    rw [ho]
    cases hooo : r.request.outOfOrder with
    | false => simp
    | true =>
      simp only [if_true, tagsOf_update, and_true]
      by_cases hc : core = r.request.core ∧ o = 1
      · obtain ⟨rfl, rfl⟩ := hc
        simp
      · rw [if_neg hc, if_neg fun h => hc h.2, Nat.add_zero]
  refine h.moved (r := { r with ingressReady := true }) .ready (fun t => by rw [hr', get?_insert_record])
    ⟨hok.tag_eq, hok.expected_eq, hok.expected_pos, hok.received_eq, hok.received_le, hok.beats, hok.tags, hok.sorted⟩
    ?_ ?_
  · refine ⟨?_, fun core o => ?_, fun core => ?_, fun core => ?_, ?_, ?_, ?_, fun _ _ => ?_, fun hc => (by cases hc)⟩
    · have h₁ := hin head.tag
      rw [hat.ingress] at h₁
      simpa using h₁
    · rw [hline, hat.order]
      cases r.request.outOfOrder <;> simp [inLine]
    · rw [ha]
      exact (hat.active core).trans (by simp)
    · rw [he, hat.egress]
      simp
    · exact hat.complete.trans (by simp)
    · simp
    · exact hat.isRead.trans (by simp)
    · exact hat.undrained (by decide) (by decide)
  · intro t hne
    refine ⟨?_, fun core o => ?_, fun _ => by rw [ha], fun _ => by rw [he]⟩
    · have h₁ := hin t
      rwa [if_neg (Ne.symm hne), Nat.add_zero] at h₁
    · rw [hline, if_neg fun h => hne h.1.symm, Nat.add_zero]

/-- `pick` names for each core the line that is served; its head is ready. -/
structure Picks (v : View) (pick : Fin 3 → Option (Fin 2)) (v' : View) : Prop where
  idle : ∀ core, v.active core = none
  head : ∀ core o, pick core = some o → ∃ head r, (v.order core o).head? = some head ∧
    v.records.get? head.tag = some r ∧ r.ingressReady = true
  order : ∀ core, v'.order core = (pick core).elim (v.order core)
    fun o => Function.update (v.order core) o (v.order core o).tail
  active : ∀ core, v'.active core = (pick core).bind fun o => (v.order core o).head?.map (·.tag)

theorem Picks.tagsOf {pick : Fin 3 → Option (Fin 2)} (h : Picks v pick v') (tag : Nat) (core : Fin 3) (o : Fin 2) :
    tagsOf tag (v'.order core o) + (if pick core = some o ∧ v'.active core = some tag then 1 else 0) =
      BiuReadReturns.tagsOf tag (v.order core o) := by
  rw [h.order, h.active]
  cases hp : pick core with
  | none => simp
  | some o' =>
    obtain ⟨head, -, hh, -⟩ := h.head core o' hp
    have ht := tagsOf_tail hh tag
    simp only [Option.elim_some, Option.bind_some, hh, Option.map_some, Option.some.injEq]
    by_cases ho : o = o'
    · subst ho
      rw [Function.update_self]
      simpa using ht
    · rw [Function.update_of_ne ho, if_neg fun h => ho h.1.symm, Nat.add_zero]

/-- A tag that is selected was ready, at the head of its line. -/
theorem Picks.ready {pick : Fin 3 → Option (Fin 2)} (h : Picks v pick v') (hv : Placed v) {core : Fin 3}
    (ha : v'.active core = some tag) : ∃ r o, v.records.get? tag = some r ∧ At v tag r .ready ∧ core = r.request.core ∧
      pick core = some o ∧ o = if r.request.outOfOrder then 1 else 0 := by
  rw [h.active] at ha
  obtain ⟨o, hp, ha⟩ := Option.bind_eq_some_iff.mp ha
  obtain ⟨head, r, hh, hr, hready⟩ := h.head core o hp
  rw [hh, Option.map_some, Option.some.injEq] at ha
  subst ha
  obtain ⟨r₀, stage, hr₀, -, hat, hcore, hline⟩ := hv.of_order _ _ (tagsOf_head hh)
  cases hr.symm.trans hr₀
  rcases hat.ready.mp hready with rfl | rfl | rfl
  · exact ⟨r, o, hr, hat, hcore, hp, by simpa [inLine] using hline⟩
  · cases hline
  · cases hline

/-- The heads of the lines served become active. -/
theorem Placed.selected {pick : Fin 3 → Option (Fin 2)} (h : Placed v) (hp : Picks v pick v')
    (hr' : v'.records = v.records) (hi : v'.ingress = v.ingress) (he : v'.egress = v.egress) : Placed v' := by
  refine ⟨by rw [hr']; exact h.ok, fun tag r hr => ?_, fun tag hr => ?_⟩
  · rw [hr'] at hr
    obtain ⟨stage, hat⟩ := h.stage tag r hr
    have hnot : stage ≠ .active := by
      rintro rfl
      have := (hat.active r.request.core).mpr ⟨rfl, rfl⟩
      rw [hp.idle] at this
      cases this
    by_cases hs : v'.active r.request.core = some tag
    · obtain ⟨r₀, o, hr₀, hat₀, -, hpick, ho⟩ := hp.ready h hs
      cases hr.symm.trans hr₀
      refine ⟨.active, ?_, fun core o' => ?_, fun core => ?_, fun core => ?_, ?_, ?_, ?_, fun hc => absurd rfl hc,
        fun hc => (by cases hc)⟩
      · rw [hi, hat₀.ingress]
        simp
      · have ht := hp.tagsOf tag core o'
        rw [hat₀.order] at ht
        simp only [inLine, ← ho, decide_eq_true_eq] at ht
        simp only [inLine, Bool.false_eq_true, and_false, if_false]
        by_cases hc : core = r.request.core ∧ o' = o
        · rw [if_pos (by rw [hc.1, hc.2]; exact ⟨hpick, hs⟩), if_pos hc] at ht
          omega
        · rw [if_neg hc] at ht
          omega
      · refine ⟨fun ha => ?_, fun ha => ha.1 ▸ hs⟩
        obtain ⟨r₁, -, hr₁, -, hcore, -⟩ := hp.ready h ha
        cases hr.symm.trans hr₁
        exact ⟨hcore, rfl⟩
      · rw [he, hat₀.egress]
        simp
      · exact hat₀.complete.trans (by simp)
      · exact hat₀.ready.trans (by simp)
      · exact hat₀.isRead.trans (by simp)
    · have hno : ∀ core, v'.active core ≠ some tag := fun core ha => by
        obtain ⟨r₁, -, hr₁, -, hcore, -⟩ := hp.ready h ha
        cases hr.symm.trans hr₁
        exact hs (hcore ▸ ha)
      refine ⟨stage, SameFor.at ⟨by rw [hi], fun core o => ?_, fun core => ?_, fun _ => by rw [he]⟩ hat⟩
      · have ht := hp.tagsOf tag core o
        rwa [if_neg fun hc => hno core hc.2, Nat.add_zero] at ht
      · rw [hp.idle]
        simpa using hno core
  · rw [hr'] at hr
    have hab := h.absent tag hr
    refine ⟨by rw [hi]; exact hab.ingress, fun core o => ?_, fun core ha => ?_, fun core => by rw [he]; exact hab.egress core⟩
    · have ht := hp.tagsOf tag core o
      have := hab.order core o
      omega
    · obtain ⟨r₁, -, hr₁, -⟩ := hp.ready h ha
      rw [hr] at hr₁
      cases hr₁

/-- A beat of an active tag is read. -/
theorem Placed.popped {core : Fin 3} {b : BiuRobBeat} {rest : List BiuRobBeat} (h : Placed v)
    (hac : v.active core = some tag) (hr : v.records.get? tag = some r) (ht : r.transactions = b :: rest)
    (hr' : v'.records = v.records.insert tag { r with transactions := rest, drained := r.drained ++ [b] })
    (hi : v'.ingress = v.ingress) (ho : v'.order = v.order) (ha : v'.active = v.active) (he : v'.egress = v.egress) :
    Placed v' := by
  obtain ⟨r₀, hr₀, hok, hat, -⟩ := h.of_active hac
  cases hr.symm.trans hr₀
  have hat' := (SameFor.same tag hi ho ha he).at hat
  have happ : r.drained ++ [b] ++ rest = r.drained ++ r.transactions := by rw [ht, List.append_assoc, List.singleton_append]
  refine h.moved (r := { r with transactions := rest, drained := r.drained ++ [b] }) .active
    (fun t => by rw [hr', get?_insert_record])
    ⟨hok.tag_eq, hok.expected_eq, hok.expected_pos, hok.received_eq, hok.received_le, happ ▸ hok.beats, hok.tags,
      fun hc => happ ▸ hok.sorted hc⟩
    ⟨hat'.ingress, hat'.order, hat'.active, hat'.egress, hat'.complete, hat'.ready, hat'.isRead,
      fun hne => absurd rfl hne, fun hc => (by cases hc)⟩ fun t _ => .same t hi ho ha he

/-- An active tag with no beat left is read out. -/
theorem Placed.finished {core : Fin 3} {o : BiuReadOutput} (h : Placed v)
    (hac : v.active core = some tag) (hr : v.records.get? tag = some r) (ht : r.transactions = [])
    (hq : o.request = r.request) (hr' : v'.records = v.records.insert tag { r with isRead := true })
    (hi : v'.ingress = v.ingress) (ho : v'.order = v.order) (ha : v'.active = Function.update v.active core none)
    (he : v'.egress = Function.update v.egress core (v.egress core ++ [o])) : Placed v' := by
  obtain ⟨r₀, hr₀, hok, hat, hcore⟩ := h.of_active hac
  cases hr.symm.trans hr₀
  have hout : ∀ t c, outsOf t (v'.egress c) = outsOf t (v.egress c) + if tag = t ∧ c = core then 1 else 0 := by
    intro t c
    rw [he]
    by_cases hc : c = core
    · subst hc
      rw [Function.update_self, outsOf_append, outsOf_cons, outsOf_nil, hq, hok.tag_eq]
      simp
    · rw [Function.update_of_ne hc, if_neg fun h => hc h.2, Nat.add_zero]
  have hact : ∀ t c, v'.active c = some t ↔ v.active c = some t ∧ c ≠ core := by
    intro t c
    rw [ha]
    by_cases hc : c = core
    · subst hc
      simp
    · simp [hc]
  refine h.moved (r := { r with isRead := true }) .done (fun t => by rw [hr', get?_insert_record])
    ⟨hok.tag_eq, hok.expected_eq, hok.expected_pos, hok.received_eq, hok.received_le, hok.beats, hok.tags, hok.sorted⟩
    ?_ ?_
  · refine ⟨?_, fun c o => ?_, fun c => ?_, fun c => ?_, ?_, ?_, ?_, fun _ hc => absurd rfl hc, fun _ => ht⟩
    · rw [hi, hat.ingress]
      simp
    · rw [ho, hat.order]
      simp [inLine]
    · rw [hact, hat.active, ← hcore]
      simp
    · rw [hout, hat.egress, ← hcore]
      simp
    · exact hat.complete.trans (by simp)
    · exact hat.ready.trans (by simp)
    · simp
  · intro t hne
    refine ⟨by rw [hi], fun _ _ => by rw [ho], fun c => ?_, fun c => ?_⟩
    · rw [hact]
      refine ⟨fun h => h.1, fun h => ⟨h, fun hc => hne ?_⟩⟩
      rw [hc, hac] at h
      exact (Option.some.inj h).symm
    · rw [hout, if_neg fun h => hne h.1.symm, Nat.add_zero]

/-- An output leaves egress, and its record is dropped. -/
theorem Placed.egressed {core : Fin 3} {o : BiuReadOutput} {rest : List BiuReadOutput} (h : Placed v)
    (hh : v.egress core = o :: rest) (hr' : v'.records = v.records.erase o.request.tag) (hi : v'.ingress = v.ingress)
    (ho : v'.order = v.order) (ha : v'.active = v.active) (he : v'.egress = Function.update v.egress core rest) :
    Placed v' := by
  obtain ⟨r, hr, hok, hat, hcore⟩ := h.of_egress hh
  have hout : ∀ t c, outsOf t (v'.egress c) + (if o.request.tag = t ∧ c = core then 1 else 0) = outsOf t (v.egress c) := by
    intro t c
    rw [he]
    by_cases hc : c = core
    · subst hc
      rw [Function.update_self, hh, outsOf_cons]
      simp
    · rw [Function.update_of_ne hc, if_neg fun h => hc h.2, Nat.add_zero]
  refine h.dropped (fun t => by rw [hr', OrdMap.get?_erase]) ⟨?_, fun c o' => ?_, fun c hc => ?_, fun c => ?_⟩ fun t hne =>
    ⟨by rw [hi], fun _ _ => by rw [ho], fun _ => by rw [ha], fun c => ?_⟩
  · rw [hi, hat.ingress]
    simp
  · rw [ho, hat.order]
    simp [inLine]
  · rw [ha] at hc
    exact absurd ((hat.active c).mp hc).2 (by decide)
  · have h₁ := hout o.request.tag c
    rw [hat.egress, ← hcore] at h₁
    simp only [true_and, and_true] at h₁
    omega
  · have h₁ := hout t c
    rwa [if_neg fun h => hne h.1.symm, Nat.add_zero] at h₁

end AscendEmulator.C220.Mte.BiuReadReturns
