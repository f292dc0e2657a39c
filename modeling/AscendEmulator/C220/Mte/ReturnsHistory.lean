/-
  AscendEmulator.C220.Mte.ReturnsHistory — what was tracked, read out and has left (see
  `AscendEmulator.C220.Mte.Returns`).

  Every request tracked is read out or its record is not (`History.tracked`). The ordered
  requests of a core are read out as they stand in its line (`History.line`). The counter of
  an instruction is the number of its requests to be read out, so the marker goes to the last
  output after the tail (`Ledger`).
-/

import AscendEmulator.C220.Mte.ReturnsPlaced

namespace AscendEmulator.C220.Mte.BiuReadReturns

open Lib

variable {v v' : View} {tag : Nat} {r : Record}

/-! ## What is counted -/

/-- 1 while a request that `p` holds of is to be read out. -/
def unread (p : BiuReadRequest → Bool) (_ : Nat) (r : Record) : Nat :=
  if r.isRead = false ∧ p r.request = true then 1 else 0

def outputsOf (p : BiuReadRequest → Bool) (v : View) : Nat := v.outputs.countP fun o => p o.output.request

def isOf (id : Nat) (q : BiuReadRequest) : Bool := decide (q.instructionId = id)

def isTailOf (id : Nat) (q : BiuReadRequest) : Bool := isOf id q && q.input.generated.lastInInstruction

/-- The outputs of an instruction, in the order they were read out. -/
def outs (id : Nat) (v : View) : List ReadOut := v.outputs.filter fun o => isOf id o.output.request

/-- The last output carries the marker, and only it does. -/
def LastMarked (l : List ReadOut) : Prop :=
  ∃ init o, l = init ++ [o] ∧ o.output.lastInInstruction = true ∧ ∀ x ∈ init, x.output.lastInInstruction = false

/-- An output is made of as many beats as its request has, all of its tag, drained by
    transaction id. -/
structure MadeOf (o : ReadOut) : Prop where
  core : o.core = o.output.request.core
  count : o.accepted.length = o.output.request.beats
  tags : ∀ b ∈ o.accepted, b.beat.tag = o.output.request.tag
  drained : o.drained.Perm o.accepted
  sorted : o.drained.Pairwise fun a b => a.beat.transactionId ≤ b.beat.transactionId

def requestOf (v : View) (tag : Nat) : Option BiuReadRequest := (v.records.get? tag).map (·.request)

def isOrdered (v : View) (tag : Nat) : Bool := (requestOf v tag).any fun q => !q.outOfOrder

def orderedOn (core : Fin 3) (q : BiuReadRequest) : Bool := decide (q.core = core) && !q.outOfOrder

/-- The ordered tags of a core that are to be read out, the active one first. -/
def lineOf (v : View) (core : Fin 3) : List Nat :=
  (v.active core).toList.filter (isOrdered v) ++ (v.order core 0).map (·.tag)

/-- The counter of an instruction. -/
structure Ledger (v : View) (id : Nat) : Prop where
  pending : ∀ e, v.instructions.get? id = some e →
    e.remaining + outputsOf (isOf id) v = v.tracks.countP (isOf id) ∧
    (e.tailSent = true ↔ 0 < v.tracks.countP (isTailOf id)) ∧
    (∀ o ∈ outs id v, o.output.lastInInstruction = false) ∧ (e.tailSent = true → 0 < e.remaining)
  settled : v.instructions.get? id = none →
    outputsOf (isOf id) v = v.tracks.countP (isOf id) ∧
    (v.tracks.countP (isOf id) = 0 ∨ 0 < v.tracks.countP (isTailOf id) ∧ LastMarked (outs id v))

structure History (v : View) : Prop where
  tracked : ∀ p, v.tracks.countP p = outputsOf p v + v.records.sum (unread p)
  madeOf : ∀ o ∈ v.outputs, MadeOf o
  line : ∀ core, (v.tracks.filter (orderedOn core)).map some =
    (v.outputs.filter fun o => orderedOn core o.output.request).map (fun o => some o.output.request) ++
      (lineOf v core).map (requestOf v)
  left : ∀ core, (v.outputs.filter fun o => decide (o.core = core)).map (·.output) = v.left core ++ v.egress core
  ledger : ∀ id, Ledger v id

/-! ## Steps that read nothing out -/

theorem Ledger.same {id : Nat} (h : Ledger v id) (hi : v'.instructions = v.instructions) (ht : v'.tracks = v.tracks)
    (ho : v'.outputs = v.outputs) : Ledger v' id := by
  constructor
  · simp only [outputsOf, outs, hi, ht, ho]
    exact h.pending
  · simp only [outputsOf, outs, hi, ht, ho]
    exact h.settled

theorem lineOf_congr (hq : requestOf v' = requestOf v) (core : Fin 3) (ha : v'.active core = v.active core)
    (ho : v'.order core 0 = v.order core 0) : lineOf v' core = lineOf v core := by
  have hord : isOrdered v' = isOrdered v := by
    funext t
    simp only [isOrdered, hq]
  simp only [lineOf, hord, ha, ho]

/-- A record was written, and its request and what is unread are as before. -/
theorem History.rewritten (r' : Record) (h : History v) (hr : v.records.get? tag = some r) (hq : r'.request = r.request)
    (hread : r'.isRead = r.isRead) (hr' : v'.records = v.records.insert tag r') (ha : v'.active = v.active)
    (hord : ∀ core, v'.order core 0 = v.order core 0) (hi : v'.instructions = v.instructions)
    (ht : v'.tracks = v.tracks) (ho : v'.outputs = v.outputs) (he : v'.egress = v.egress) (hl : v'.left = v.left) :
    History v' where
  tracked p := by
    have hs := v.records.sum_insert_some (unread p) (v := r') hr
    have hu : unread p tag r' = unread p tag r := by simp only [unread, hq, hread]
    rw [ht, hr', h.tracked p]
    simp only [outputsOf, ho]
    omega
  madeOf := by rw [ho]; exact h.madeOf
  line core := by
    have hreq : requestOf v' = requestOf v := by
      funext t
      simp only [requestOf, hr', OrdMap.get?_insert]
      split
      · rename_i he
        rw [he, hr, Option.map_some, Option.map_some, hq]
      · rfl
    rw [ht, ho, lineOf_congr hreq core (by rw [ha]) (hord core), hreq]
    exact h.line core
  left core := by rw [ho, he, hl]; exact h.left core
  ledger id := (h.ledger id).same hi ht ho

/-- A tag in line has a record. -/
theorem Placed.of_line (h : Placed v) {core : Fin 3} (hm : tag ∈ lineOf v core) :
    ∃ r stage, v.records.get? tag = some r ∧ At v tag r stage ∧ stage ≠ .done := by
  rcases List.mem_append.mp hm with hm | hm
  · obtain ⟨hm, -⟩ := List.mem_filter.mp hm
    obtain ⟨r, hr, -, hat, -⟩ := h.of_active (Option.mem_toList.mp hm)
    exact ⟨r, .active, hr, hat, by decide⟩
  · obtain ⟨t, ht, rfl⟩ := List.mem_map.mp hm
    have hpos : 0 < tagsOf t.tag (v.order core 0) := List.countP_pos_iff.mpr ⟨t, ht, by simp⟩
    obtain ⟨r, stage, hr, -, hat, -, hline⟩ := h.of_order core 0 hpos
    refine ⟨r, stage, hr, hat, ?_⟩
    rintro rfl
    cases hline

/-- The line and the requests in it, where the records of its tags did not change. -/
theorem line_congr {core : Fin 3} (hq : ∀ t ∈ lineOf v core, requestOf v' t = requestOf v t)
    (hf : (v.active core).toList.filter (isOrdered v') = (v.active core).toList.filter (isOrdered v))
    (ha : v'.active core = v.active core) (ho : v'.order core 0 = v.order core 0) :
    (lineOf v' core).map (requestOf v') = (lineOf v core).map (requestOf v) := by
  have hl : lineOf v' core = lineOf v core := by rw [lineOf, lineOf, ha, ho, hf]
  rw [hl]
  exact List.map_congr_left hq

theorem filter_active_congr (v' : View) {core : Fin 3} (hq : ∀ t, v.active core = some t → requestOf v' t = requestOf v t) :
    (v.active core).toList.filter (isOrdered v') = (v.active core).toList.filter (isOrdered v) := by
  refine List.filter_congr fun t ht => ?_
  simp only [isOrdered, hq t (Option.mem_toList.mp ht)]

/-- The heads of the lines served become active: the lines stay as they are. -/
theorem History.selected {pick : Fin 3 → Option (Fin 2)} (h : History v) (hv : Placed v) (hp : Picks v pick v')
    (hr' : v'.records = v.records) (hi : v'.instructions = v.instructions) (ht : v'.tracks = v.tracks)
    (ho : v'.outputs = v.outputs) (he : v'.egress = v.egress) (hl : v'.left = v.left) : History v' where
  tracked p := by
    simp only [ht, hr', outputsOf, ho]
    exact h.tracked p
  madeOf := by rw [ho]; exact h.madeOf
  line core := by
    have hreq : requestOf v' = requestOf v := by
      funext t
      simp only [requestOf, hr']
    have hord : isOrdered v' = isOrdered v := by
      funext t
      simp only [isOrdered, hreq]
    have hline : lineOf v' core = lineOf v core := by
      rw [lineOf, lineOf, hord, hp.idle]
      cases hpick : pick core with
      | none => rw [hp.active, hp.order, hpick]; rfl
      | some o =>
        obtain ⟨head, -, hh, -⟩ := hp.head core o hpick
        have ha : v'.active core = some head.tag := by rw [hp.active, hpick, Option.bind_some, hh, Option.map_some]
        obtain ⟨r, o', hr, -, -, hpick', ho'⟩ := hp.ready hv ha
        cases hpick.symm.trans hpick'
        have hio : isOrdered v head.tag = !r.request.outOfOrder := by simp [isOrdered, requestOf, hr]
        rw [ha, hp.order, hpick, Option.elim_some]
        cases hooo : r.request.outOfOrder with
        | false =>
          simp only [hooo, Bool.false_eq_true, if_false] at ho'
          subst ho'
          obtain ⟨rest, hrest⟩ := List.head?_eq_some_iff.mp hh
          simp [hio, hooo, hrest]
        | true =>
          simp only [hooo, if_true] at ho'
          subst ho'
          simp [hio, hooo]
    rw [ht, ho, hline, hreq]
    exact h.line core
  left core := by rw [ho, he, hl]; exact h.left core
  ledger id := (h.ledger id).same hi ht ho

/-- An output leaves egress. -/
theorem History.egressed {core : Fin 3} {o : BiuReadOutput} {rest : List BiuReadOutput} (h : History v) (hv : Placed v)
    (hh : v.egress core = o :: rest) (hr' : v'.records = v.records.erase o.request.tag) (hord : v'.order = v.order)
    (ha : v'.active = v.active) (hi : v'.instructions = v.instructions) (ht : v'.tracks = v.tracks)
    (ho : v'.outputs = v.outputs) (he : v'.egress = Function.update v.egress core rest)
    (hl : v'.left = Function.update v.left core (v.left core ++ [o])) : History v' := by
  obtain ⟨r, hr, -, hat, -⟩ := hv.of_egress hh
  have hreq : ∀ t, t ≠ o.request.tag → requestOf v' t = requestOf v t := fun t hne => by
    simp only [requestOf, hr', OrdMap.get?_erase_ne hne]
  refine ⟨fun p => ?_, by rw [ho]; exact h.madeOf, fun c => ?_, fun c => ?_, fun id => (h.ledger id).same hi ht ho⟩
  · have hs := v.records.sum_erase_some (unread p) hr
    have hz : unread p o.request.tag r = 0 := by simp [unread, hat.isRead.mpr rfl]
    rw [ht, hr', h.tracked p]
    simp only [outputsOf, ho]
    omega
  · have hmem : ∀ t ∈ lineOf v c, t ≠ o.request.tag := by
      rintro t hm rfl
      obtain ⟨r₁, stage, hr₁, hat₁, hne⟩ := hv.of_line hm
      cases hr.symm.trans hr₁
      exact hne (hat₁.isRead.mp (hat.isRead.mpr rfl))
    have hact : ∀ t, v.active c = some t → t ≠ o.request.tag := by
      rintro t hc rfl
      exact absurd ((hat.active c).mp hc).2 (by decide)
    rw [ht, ho, line_congr (fun t hm => hreq t (hmem t hm)) (filter_active_congr _ fun t hc => hreq t (hact t hc))
      (by rw [ha]) (by rw [hord])]
    exact h.line c
  · rw [ho, h.left c, he, hl]
    by_cases hc : c = core
    · subst hc
      rw [Function.update_self, Function.update_self, hh, List.append_assoc, List.singleton_append]
    · rw [Function.update_of_ne hc, Function.update_of_ne hc]

/-! ## Tracking -/

theorem Ledger.tracked {id : Nat} {q : BiuReadRequest} (h : Ledger v id)
    (hi : v'.instructions = v.instructions.insert q.instructionId
      ⟨(v.instructions.getD q.instructionId ⟨0, false⟩).remaining + 1, q.input.generated.lastInInstruction⟩)
    (ht : v'.tracks = v.tracks ++ [q]) (ho : v'.outputs = v.outputs)
    (htail : q.instructionId = id → v.tracks.countP (isTailOf id) = 0) : Ledger v' id := by
  by_cases hid : q.instructionId = id
  · subst hid
    have htail := htail rfl
    have hcount : v'.tracks.countP (isOf q.instructionId) = v.tracks.countP (isOf q.instructionId) + 1 := by
      simp [ht, isOf]
    have hcountT : v'.tracks.countP (isTailOf q.instructionId) = if q.input.generated.lastInInstruction then 1 else 0 := by
      simp [ht, htail, isTailOf, isOf, List.countP_cons]
    constructor
    · intro e he
      rw [hi, OrdMap.get?_insert_self] at he
      cases he
      simp only [outputsOf, outs, ho, hcount, hcountT]
      cases hget : v.instructions.get? q.instructionId with
      | none =>
        obtain ⟨h₁, h₂⟩ := h.settled hget
        have hz : v.tracks.countP (isOf q.instructionId) = 0 := by
          rcases h₂ with h₂ | h₂
          · exact h₂
          · omega
        have hnil : outs q.instructionId v = [] := by
          rw [outs, List.filter_eq_nil_iff]
          rw [hz] at h₁
          exact List.countP_eq_zero.mp h₁
        simp only [outputsOf] at h₁
        simp only [OrdMap.getD, hget, Option.getD_none]
        refine ⟨by omega, by split <;> simp_all, ?_, fun _ => by omega⟩
        rw [outs] at hnil
        rw [hnil]
        simp
      | some e =>
        obtain ⟨h₁, -, h₃, -⟩ := h.pending e hget
        simp only [outputsOf] at h₁
        simp only [OrdMap.getD, hget, Option.getD_some]
        exact ⟨by omega, by split <;> simp_all, h₃, fun _ => by omega⟩
    · intro hn
      rw [hi, OrdMap.get?_insert_self] at hn
      cases hn
  · have hget : v'.instructions.get? id = v.instructions.get? id := by rw [hi, OrdMap.get?_insert_ne (Ne.symm hid)]
    have hcount : v'.tracks.countP (isOf id) = v.tracks.countP (isOf id) := by simp [ht, isOf, hid]
    have hcountT : v'.tracks.countP (isTailOf id) = v.tracks.countP (isTailOf id) := by
      simp [ht, isTailOf, isOf, hid]
    constructor
    · simp only [outputsOf, outs, ho, hget, hcount, hcountT]
      exact h.pending
    · simp only [outputsOf, outs, ho, hget, hcount, hcountT]
      exact h.settled

theorem History.tracking {q : BiuReadRequest} {readyTick : Nat} (h : History v) (hv : Placed v)
    (hn : v.records.get? q.tag = none) (hr : v'.records = v.records.insert q.tag (fresh q))
    (hord : v'.order = if q.outOfOrder then v.order
      else Function.update v.order q.core (Function.update (v.order q.core) 0 (v.order q.core 0 ++ [⟨q.tag, readyTick⟩])))
    (ha : v'.active = v.active)
    (hi : v'.instructions = v.instructions.insert q.instructionId
      ⟨(v.instructions.getD q.instructionId ⟨0, false⟩).remaining + 1, q.input.generated.lastInInstruction⟩)
    (ht : v'.tracks = v.tracks ++ [q]) (ho : v'.outputs = v.outputs) (he : v'.egress = v.egress) (hl : v'.left = v.left)
    (htail : v.tracks.countP (isTailOf q.instructionId) = 0) : History v' := by
  refine ⟨fun p => ?_, by rw [ho]; exact h.madeOf, fun core => ?_, fun core => by rw [ho, he, hl]; exact h.left core,
    fun id => (h.ledger id).tracked hi ht ho fun hid => hid ▸ htail⟩
  · have hs := v.records.sum_insert_new (unread p) (v := fresh q) hn
    rw [ht, List.countP_append, List.countP_singleton, hr, hs, h.tracked p]
    simp only [outputsOf, ho, unread, fresh, true_and]
    omega
  · have hreq : ∀ t, t ≠ q.tag → requestOf v' t = requestOf v t := fun t hne => by
      simp only [requestOf, hr, OrdMap.get?_insert_ne hne]
    have hself : requestOf v' q.tag = some q := by simp [requestOf, hr, fresh]
    have hne : ∀ t ∈ lineOf v core, t ≠ q.tag := by
      rintro t hm rfl
      obtain ⟨r, -, hr, -⟩ := hv.of_line hm
      rw [hn] at hr
      cases hr
    have hact : ∀ t, v.active core = some t → t ≠ q.tag := by
      rintro t hc rfl
      exact (hv.absent _ hn).active core hc
    have hfilter := filter_active_congr v' fun t hc => hreq t (hact t hc)
    have hline : lineOf v' core = lineOf v core ++ if orderedOn core q then [q.tag] else [] := by
      rw [lineOf, lineOf, ha, hfilter, hord]
      cases hooo : q.outOfOrder with
      | true => simp [orderedOn, hooo]
      | false =>
        by_cases hc : q.core = core
        · subst hc
          simp [orderedOn, hooo]
        · simp [orderedOn, hc, Function.update_of_ne (Ne.symm hc)]
    rw [ht, List.filter_append, List.map_append, h.line core, ho, hline, List.map_append,
      List.map_congr_left fun t hm => hreq t (hne t hm), List.append_assoc]
    cases hq : orderedOn core q with
    | true => simp [hq, hself]
    | false => simp [hq]

/-! ## Reading out -/

/-- The instruction of an active tag has a request to be read out. -/
theorem History.pending {core : Fin 3} (h : History v) (hv : Placed v) (hac : v.active core = some tag)
    (hr : v.records.get? tag = some r) :
    ∃ e, v.instructions.get? r.request.instructionId = some e ∧ 0 < e.remaining := by
  obtain ⟨r₀, hr₀, -, hat, -⟩ := hv.of_active hac
  cases hr.symm.trans hr₀
  have hread : r.isRead = false := by
    by_contra hc
    exact absurd (hat.isRead.mp (by simpa using hc)) (by decide)
  have ht := h.tracked (isOf r.request.instructionId)
  have hle := v.records.le_sum (unread (isOf r.request.instructionId)) hr
  have hone : unread (isOf r.request.instructionId) tag r = 1 := by simp [unread, hread, isOf]
  cases hget : v.instructions.get? r.request.instructionId with
  | none =>
    have := ((h.ledger _).settled hget).1
    omega
  | some e =>
    have := ((h.ledger _).pending e hget).1
    exact ⟨e, rfl, by omega⟩

/-- The output counts down its instruction, and is marked if it is the last of it. -/
theorem Ledger.finished {id own : Nat} {e : InstructionRequests} {out : ReadOut} (h : Ledger v id)
    (hget : v.instructions.get? own = some e) (hpos : 0 < e.remaining) (hq : out.output.request.instructionId = own)
    (hlast : out.output.lastInInstruction = (decide (e.remaining - 1 = 0) && e.tailSent))
    (hi : v'.instructions = if out.output.lastInInstruction then v.instructions.erase own
      else v.instructions.insert own { e with remaining := e.remaining - 1 })
    (ht : v'.tracks = v.tracks) (ho : v'.outputs = v.outputs ++ [out]) : Ledger v' id := by
  by_cases hid : own = id
  · subst hid
    obtain ⟨h₁, h₂, h₃, h₄⟩ := h.pending e hget
    have hcount : outputsOf (isOf own) v' = outputsOf (isOf own) v + 1 := by simp [outputsOf, ho, isOf, hq]
    have houts : outs own v' = outs own v ++ [out] := by simp [outs, ho, isOf, hq]
    cases hl : out.output.lastInInstruction with
    | true =>
      rw [hl] at hlast
      obtain ⟨hzero, htail⟩ : e.remaining - 1 = 0 ∧ e.tailSent = true := by simpa using hlast.symm
      rw [hl, if_pos rfl] at hi
      constructor
      · intro e' he'
        rw [hi, OrdMap.get?_erase_self] at he'
        cases he'
      · intro _
        rw [hcount, ht, houts]
        exact ⟨by omega, .inr ⟨h₂.mp htail, _, out, rfl, hl, h₃⟩⟩
    | false =>
      rw [hl] at hlast
      rw [hl, if_neg (by decide)] at hi
      constructor
      · intro e' he'
        rw [hi, OrdMap.get?_insert_self] at he'
        cases he'
        rw [hcount, ht, houts]
        refine ⟨by simp only; omega, h₂, fun o hm => ?_, fun htail => ?_⟩
        · rcases List.mem_append.mp hm with hm | hm
          · exact h₃ o hm
          · rw [List.mem_singleton.mp hm, hl]
        · simp only at htail ⊢
          rw [htail, Bool.and_true] at hlast
          have : ¬(e.remaining - 1 = 0) := by simpa using hlast.symm
          omega
      · intro hn
        rw [hi, OrdMap.get?_insert_self] at hn
        cases hn
  · have hget' : v'.instructions.get? id = v.instructions.get? id := by
      rw [hi]
      split
      · exact OrdMap.get?_erase_ne (Ne.symm hid)
      · exact OrdMap.get?_insert_ne (Ne.symm hid)
    have hcount : outputsOf (isOf id) v' = outputsOf (isOf id) v := by simp [outputsOf, ho, isOf, hq, hid]
    have houts : outs id v' = outs id v := by simp [outs, ho, isOf, hq, hid]
    constructor
    · rw [hget', hcount, houts, ht]
      exact h.pending
    · rw [hget', hcount, houts, ht]
      exact h.settled

/-- An active tag with no beat left is read out. -/
theorem History.finished {core : Fin 3} {o : BiuReadOutput} {e : InstructionRequests} (h : History v) (hv : Placed v)
    (hac : v.active core = some tag) (hr : v.records.get? tag = some r) (hz : r.transactions = [])
    (hget : v.instructions.get? r.request.instructionId = some e) (hpos : 0 < e.remaining) (hq : o.request = r.request)
    (hlast : o.lastInInstruction = (decide (e.remaining - 1 = 0) && e.tailSent))
    (hi : v'.instructions = if o.lastInInstruction then v.instructions.erase r.request.instructionId
      else v.instructions.insert r.request.instructionId { e with remaining := e.remaining - 1 })
    (hr' : v'.records = v.records.insert tag { r with isRead := true }) (hord : v'.order = v.order)
    (ha : v'.active = Function.update v.active core none) (ht : v'.tracks = v.tracks)
    (ho : v'.outputs = v.outputs ++ [⟨core, o, r.accepted, r.drained⟩])
    (he : v'.egress = Function.update v.egress core (v.egress core ++ [o])) (hl : v'.left = v.left) : History v' := by
  obtain ⟨r₀, hr₀, hok, hat, hcore⟩ := hv.of_active hac
  cases hr.symm.trans hr₀
  have hread : r.isRead = false := by
    by_contra hc
    exact absurd (hat.isRead.mp (by simpa using hc)) (by decide)
  have hfull : r.received = r.expected := hat.complete.mpr (by decide)
  refine ⟨fun p => ?_, fun out hm => ?_, fun c => ?_, fun c => ?_, fun id =>
    (h.ledger id).finished hget hpos (congrArg _ hq) hlast hi ht ho⟩
  · have hs := v.records.sum_insert_some (unread p) (v := { r with isRead := true }) hr
    have h₁ : unread p tag { r with isRead := true } = 0 := by simp [unread]
    have h₂ : unread p tag r = if p r.request = true then 1 else 0 := by simp [unread, hread]
    rw [ht, hr', h.tracked p]
    simp only [outputsOf, ho, List.countP_append, List.countP_singleton, hq]
    omega
  · rw [ho] at hm
    rcases List.mem_append.mp hm with hm | hm
    · exact h.madeOf out hm
    · rw [List.mem_singleton.mp hm]
      have hb := hok.beats
      have hs := hok.sorted hfull
      rw [hz, List.append_nil] at hb hs
      refine ⟨?_, ?_, ?_, hb, hs⟩
      · rw [hcore, ← hq]
      · rw [← hok.received_eq, hfull, hok.expected_eq, ← hq]
      · intro b hb
        rw [hok.tags b hb, hq, hok.tag_eq]
  · have hreq : requestOf v' = requestOf v := by
      funext t
      simp only [requestOf, hr', OrdMap.get?_insert]
      split
      · rename_i he
        rw [he, hr, Option.map_some, Option.map_some]
      · rfl
    have hown : requestOf v tag = some r.request := by simp [requestOf, hr]
    by_cases hc : c = core
    · subst hc
      have hline : lineOf v c = (if r.request.outOfOrder then [] else [tag]) ++ lineOf v' c := by
        simp only [lineOf, hac, ha, hord, Function.update_self, Option.toList_some, Option.toList_none, List.filter_nil,
          List.nil_append, List.filter_cons, isOrdered, hown, Option.any_some]
        cases r.request.outOfOrder <;> simp
      have hon : orderedOn c r.request = !r.request.outOfOrder := by simp [orderedOn, ← hcore]
      rw [ht, h.line c, ho, List.filter_append, List.map_append, List.append_assoc, hline, List.map_append, hreq]
      congr 2
      simp only [List.filter_cons, List.filter_nil, hq, hon]
      cases r.request.outOfOrder <;> simp [hown, hq]
    · have hon : orderedOn c r.request = false := by
        have : r.request.core ≠ c := fun he => hc (he.symm.trans hcore.symm)
        simp [orderedOn, this]
      rw [ht, ho, List.filter_append, List.map_append, List.filter_cons, hq, hon,
        lineOf_congr hreq c (by rw [ha, Function.update_of_ne hc]) (by rw [hord]), hreq]
      simpa using h.line c
  · rw [ho, List.filter_append, List.map_append, h.left c, hl, he]
    by_cases hc : c = core
    · subst hc
      simp
    · simp [Ne.symm hc, hc]

end AscendEmulator.C220.Mte.BiuReadReturns
