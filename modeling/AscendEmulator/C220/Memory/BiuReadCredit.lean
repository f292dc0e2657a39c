/-
  AscendEmulator.C220.Memory.BiuReadCredit — the credit counter of the read route (see
  `AscendEmulator.C220.Memory.BiuRead`).

  A transaction holds its credit from when its command is taken until its beat 0 leaves the
  bus channels: while beat 0 is still to be received (`unreceived`) or waits in `returns`.
  Beats are counted per queue, so that a beat that moves from one queue to the next changes
  two numbers (`Inv`). A cache transaction of one beat releases once, as an MTE one does; one
  of more beats releases with each of them, and the counter wraps.
-/

import AscendEmulator.C220.Memory.BiuRead

namespace AscendEmulator.C220.Memory.BiuBusReads

open Lib BiuRead

variable {s s' : BiuBusReads} {tag : MemoryReadId} {beat : MemoryReadBeat}

/-! ## Counting commands and beats -/

def commandsOf (tag : MemoryReadId) (l : List MemoryReadCommand) : Nat := l.countP fun c => decide (c.tag = tag)

def beatsOf (p : MemoryReadBeat → Bool) (l : List MemoryReadReturn) : Nat := l.countP fun r => p r.beat

@[simp] theorem commandsOf_append (l r : List MemoryReadCommand) :
    commandsOf tag (l ++ r) = commandsOf tag l + commandsOf tag r := List.countP_append

@[simp] theorem commandsOf_nil : commandsOf tag [] = 0 := rfl

@[simp] theorem commandsOf_cons (c : MemoryReadCommand) (l : List MemoryReadCommand) :
    commandsOf tag (c :: l) = commandsOf tag l + if c.tag = tag then 1 else 0 := by
  simp [commandsOf, List.countP_cons]

@[simp] theorem beatsOf_append (p : MemoryReadBeat → Bool) (l r : List MemoryReadReturn) :
    beatsOf p (l ++ r) = beatsOf p l + beatsOf p r := List.countP_append

@[simp] theorem beatsOf_nil (p : MemoryReadBeat → Bool) : beatsOf p [] = 0 := rfl

@[simp] theorem beatsOf_cons (p : MemoryReadBeat → Bool) (r : MemoryReadReturn) (l : List MemoryReadReturn) :
    beatsOf p (r :: l) = beatsOf p l + if p r.beat then 1 else 0 := by
  simp [beatsOf, List.countP_cons]

/-- The commands of a tag that wait in the inputs or to be taken. -/
def queuedOf (s : BiuBusReads) (tag : MemoryReadId) : Nat :=
  commandsOf tag s.input + commandsOf tag s.commands +
    both (total fun port => commandsOf tag port.input) s.cachePorts

/-- The beats on the bus channels that `p` holds of. -/
def onReturns (s : BiuBusReads) (p : MemoryReadBeat → Bool) : Nat := both (beatsOf p) s.returns

/-- The beats received and not yet delivered that `p` holds of. -/
def flight (s : BiuBusReads) (p : MemoryReadBeat → Bool) : Nat :=
  s.onReturns p + both (beatsOf p) s.upstream + both (total fun port => beatsOf p port.returns) s.cachePorts

/-- 1 while beat 0 of the taken transaction is still to be received. -/
def unreceived (_ : MemoryReadId) (tr : Transaction) : Nat := if tr.sent ∧ 0 ∉ tr.received then 1 else 0

def unsent (tr : Transaction) : Nat := if tr.sent then 0 else 1

/-- Beat 0 of any transaction. -/
def isFirst (beat : MemoryReadBeat) : Bool := decide (beat.transactionId = 0)

def isFirstOf (tag : MemoryReadId) (beat : MemoryReadBeat) : Bool := decide (beat.tag = tag ∧ beat.transactionId = 0)

def ofTag (tag : MemoryReadId) (beat : MemoryReadBeat) : Bool := decide (beat.tag = tag)

def isBeat (b beat : MemoryReadBeat) : Bool := decide (beat = b)

/-- The credits of a tag that are taken and not released: at most one. -/
def holding (s : BiuBusReads) (tag : MemoryReadId) : Nat :=
  (s.transactions.get? tag).elim 0 (unreceived tag) + s.onReturns (isFirstOf tag)

def tally (s : BiuBusReads) (credit : Credit) (tag : MemoryReadId) : Nat :=
  s.credits.countP fun e => decide (e.1 = credit) && decide (e.2 = tag)

def tallyAll (s : BiuBusReads) (credit : Credit) : Nat := s.credits.countP fun e => decide (e.1 = credit)

structure Inv (s : BiuBusReads) : Prop where
  queued : ∀ tag, s.queuedOf tag = (s.transactions.get? tag).elim 0 unsent
  clean : ∀ tag tr, s.transactions.get? tag = some tr → tr.sent = false → tr.received = ∅ ∧ tr.delivered = 0
  bounded : ∀ tag tr, s.transactions.get? tag = some tr → ∀ id ∈ tr.received, id < tr.expected
  counted : ∀ tag tr, s.transactions.get? tag = some tr → tr.received.card = tr.delivered + s.flight (ofTag tag)
  known : ∀ beat, 0 < s.flight (isBeat beat) →
    ∃ tr, s.transactions.get? beat.tag = some tr ∧ beat.transactionId ∈ tr.received
  once : ∀ beat, s.flight (isBeat beat) ≤ 1
  single : ∀ tag tr, s.transactions.get? tag = some tr → (endpoint tag).isSome → tr.expected = 1
  holds : s.outstanding = s.transactions.sum unreceived + s.onReturns isFirst
  small : s.outstanding < u32
  ledger : s.tallyAll .taken = s.tallyAll .released + s.outstanding
  perTag : ∀ tag, s.tally .taken tag = s.tally .released tag + s.holding tag

theorem inv_new (limit : Nat) : Inv (new limit) where
  queued _ := rfl
  clean _ _ h := by cases h
  bounded _ _ h := by cases h
  counted _ _ h := by cases h
  known _ h := by cases h
  once _ := Nat.zero_le _
  single _ _ h := by cases h
  holds := rfl
  small := by show 0 < u32; decide
  ledger := rfl
  perTag _ := rfl

/-! ## Steps on the counts -/

theorem tally_logged {e : Credit × MemoryReadId} (hc : s'.credits = s.credits ++ [e]) (credit : Credit) :
    s'.tally credit tag = s.tally credit tag + if e.1 = credit ∧ e.2 = tag then 1 else 0 := by
  simp [tally, hc, List.countP_append, List.countP_cons]

theorem tallyAll_logged {e : Credit × MemoryReadId} (hc : s'.credits = s.credits ++ [e]) (credit : Credit) :
    s'.tallyAll credit = s.tallyAll credit + if e.1 = credit then 1 else 0 := by
  simp [tallyAll, hc, List.countP_append, List.countP_cons]

/-- Commands moved between queues, and nothing else. -/
theorem Inv.moved (h : Inv s) (hq : ∀ tag, s'.queuedOf tag = s.queuedOf tag)
    (ht : s'.transactions = s.transactions) (hf : ∀ p, s'.flight p = s.flight p)
    (hr : ∀ p, s'.onReturns p = s.onReturns p) (ho : s'.outstanding = s.outstanding)
    (hc : s'.credits = s.credits) : Inv s' where
  queued tag := by rw [hq, ht]; exact h.queued tag
  clean := by rw [ht]; exact h.clean
  bounded := by rw [ht]; exact h.bounded
  counted := by simp only [ht, hf]; exact h.counted
  known := by simp only [ht, hf]; exact h.known
  once := by simp only [hf]; exact h.once
  single := by rw [ht]; exact h.single
  holds := by rw [ht, hr, ho]; exact h.holds
  small := by rw [ho]; exact h.small
  ledger := by simp only [tallyAll, hc, ho]; exact h.ledger
  perTag tag := by simp only [tally, holding, hc, ht, hr]; exact h.perTag tag

/-- No beat of a tag without a transaction is in flight. -/
theorem Inv.flight_none (h : Inv s) (hn : s.transactions.get? tag = none) (id : Nat) :
    s.flight (isBeat ⟨tag, id⟩) = 0 := by
  by_contra hpos
  obtain ⟨tr, htr, -⟩ := h.known ⟨tag, id⟩ (Nat.pos_of_ne_zero hpos)
  rw [hn] at htr
  cases htr

theorem beatsOf_pos {p : MemoryReadBeat → Bool} {l : List MemoryReadReturn} (h : 0 < beatsOf p l) :
    ∃ b, p b = true ∧ 0 < beatsOf (isBeat b) l := by
  obtain ⟨r, hr, hp⟩ := List.countP_pos_iff.mp h
  exact ⟨r.beat, hp, List.countP_pos_iff.mpr ⟨r, hr, by simp [isBeat]⟩⟩

/-- What is counted in flight is some beat in flight. -/
theorem flight_pos {p : MemoryReadBeat → Bool} (h : 0 < s.flight p) : ∃ b, p b = true ∧ 0 < s.flight (isBeat b) := by
  unfold flight onReturns at h ⊢
  by_cases h₁ : 0 < both (beatsOf p) s.returns
  · obtain ⟨i, hi⟩ := both_pos h₁
    obtain ⟨b, hb, hpos⟩ := beatsOf_pos hi
    exact ⟨b, hb, by have := le_both (beatsOf (isBeat b)) s.returns i; omega⟩
  · by_cases h₂ : 0 < both (beatsOf p) s.upstream
    · obtain ⟨i, hi⟩ := both_pos h₂
      obtain ⟨b, hb, hpos⟩ := beatsOf_pos hi
      exact ⟨b, hb, by have := le_both (beatsOf (isBeat b)) s.upstream i; omega⟩
    · obtain ⟨i, hi⟩ := both_pos (show 0 < both (total fun port => beatsOf p port.returns) s.cachePorts by omega)
      obtain ⟨port, hport, hpos⟩ := total_pos hi
      obtain ⟨b, hb, hpos⟩ := beatsOf_pos hpos
      have h₃ := le_total (fun port => beatsOf (isBeat b) port.returns) hport
      have h₄ := le_both (total fun port => beatsOf (isBeat b) port.returns) s.cachePorts i
      exact ⟨b, hb, by omega⟩

theorem Inv.flight_ofTag (h : Inv s) (hn : s.transactions.get? tag = none) : s.flight (ofTag tag) = 0 := by
  by_contra hpos
  obtain ⟨⟨t, id⟩, ht, hb⟩ := flight_pos (Nat.pos_of_ne_zero hpos)
  obtain rfl : t = tag := by simpa [ofTag] using ht
  rw [h.flight_none hn id] at hb
  exact absurd hb (Nat.lt_irrefl 0)

theorem onReturns_le_flight (s : BiuBusReads) (p : MemoryReadBeat → Bool) : s.onReturns p ≤ s.flight p := by
  unfold flight
  omega

theorem isFirstOf_eq (tag : MemoryReadId) : isFirstOf tag = isBeat ⟨tag, 0⟩ := by
  funext beat
  obtain ⟨t, id⟩ := beat
  simp [isFirstOf, isBeat]

/-- A new transaction with its command queued. -/
theorem Inv.admitted (h : Inv s) {bytes : Nat} (hn : s.transactions.get? tag = none)
    (hs : (endpoint tag).isSome → (bytes + 127) / 128 = 1)
    (hq : ∀ t, s'.queuedOf t = s.queuedOf t + if t = tag then 1 else 0)
    (ht : s'.transactions = s.transactions.insert tag (fresh bytes)) (hf : ∀ p, s'.flight p = s.flight p)
    (hr : ∀ p, s'.onReturns p = s.onReturns p) (ho : s'.outstanding = s.outstanding)
    (hc : s'.credits = s.credits) : Inv s' := by
  have hget : ∀ t, s'.transactions.get? t = if t = tag then some (fresh bytes) else s.transactions.get? t := fun t => by
    rw [ht, OrdMap.get?_insert]
  have hzero : s.onReturns (isFirstOf tag) = 0 := by
    have h₁ := onReturns_le_flight s (isFirstOf tag)
    rw [isFirstOf_eq, h.flight_none hn 0] at h₁
    rw [isFirstOf_eq]
    omega
  refine ⟨fun t => ?_, fun t tr htr hsent => ?_, fun t tr htr id hid => ?_, fun t tr htr => ?_, fun b hb => ?_,
    fun b => ?_, fun t tr htr hp => ?_, ?_, ?_, ?_, fun t => ?_⟩
  · have hq' := h.queued t
    rw [hq, hget]
    by_cases he : t = tag
    · subst he
      rw [hn] at hq'
      simpa [unsent, fresh] using hq'
    · simpa [he] using hq'
  · rw [hget] at htr
    split at htr
    · cases htr; exact ⟨rfl, rfl⟩
    · exact h.clean t tr htr hsent
  · rw [hget] at htr
    split at htr
    · cases htr; simp [fresh] at hid
    · exact h.bounded t tr htr id hid
  · rw [hget] at htr
    rw [hf]
    split at htr
    · rename_i he
      subst he
      cases htr
      rw [h.flight_ofTag hn]
      rfl
    · exact h.counted t tr htr
  · rw [hf] at hb
    obtain ⟨tr, htr, hid⟩ := h.known b hb
    refine ⟨tr, ?_, hid⟩
    rw [hget, if_neg]
    · exact htr
    · intro he
      rw [he, hn] at htr
      cases htr
  · rw [hf]; exact h.once b
  · rw [hget] at htr
    split at htr
    · rename_i he
      subst he
      cases htr
      exact hs hp
    · exact h.single t tr htr hp
  · rw [ht, hr, ho, OrdMap.sum_insert_new _ hn]
    simpa [unreceived, fresh] using h.holds
  · rw [ho]; exact h.small
  · simp only [tallyAll, hc, ho]; exact h.ledger
  · have hp := h.perTag t
    simp only [tally, holding, hc, hr, hget] at hp ⊢
    rw [hp]
    by_cases he : t = tag
    · subst he
      simp [hn, unreceived, fresh]
    · simp [he]

/-- The command of a queued transaction is taken: it holds a credit from now on. -/
theorem Inv.taken (h : Inv s) {tr : Transaction} (htr : s.transactions.get? tag = some tr)
    (hroom : s.outstanding + 1 < u32) (hq : ∀ t, s.queuedOf t = s'.queuedOf t + if t = tag then 1 else 0)
    (ht : s'.transactions = s.transactions.insert tag { tr with sent := true }) (hf : ∀ p, s'.flight p = s.flight p)
    (hr : ∀ p, s'.onReturns p = s.onReturns p) (ho : s'.outstanding = s.outstanding + 1)
    (hc : s'.credits = s.credits ++ [(.taken, tag)]) : Inv s' := by
  have hget : ∀ t, s'.transactions.get? t = if t = tag then some { tr with sent := true } else s.transactions.get? t :=
    fun t => by rw [ht, OrdMap.get?_insert]
  -- it waited in a queue, so it was not sent yet
  have hsent : tr.sent = false := by
    have h₁ := h.queued tag
    have h₂ := hq tag
    rw [htr] at h₁
    by_contra hne
    simp only [Bool.not_eq_false] at hne
    simp [unsent, hne] at h₁
    simp at h₂
    omega
  obtain ⟨hempty, -⟩ := h.clean tag tr htr hsent
  refine ⟨fun t => ?_, fun t u hu hs => ?_, fun t u hu id hid => ?_, fun t u hu => ?_, fun b hb => ?_,
    fun b => ?_, fun t u hu hp => ?_, ?_, ?_, ?_, fun t => ?_⟩
  · have h₁ := h.queued t
    have h₂ := hq t
    rw [hget]
    by_cases he : t = tag
    · subst he
      simp [htr, unsent, hsent] at h₁ h₂ ⊢
      omega
    · simp only [he, if_false] at h₂ ⊢
      omega
  · rw [hget] at hu
    split at hu
    · cases hu; cases hs
    · exact h.clean t u hu hs
  · rw [hget] at hu
    split at hu
    · cases hu; exact h.bounded tag tr htr id hid
    · exact h.bounded t u hu id hid
  · rw [hget] at hu
    rw [hf]
    split at hu
    · rename_i he
      subst he
      cases hu
      exact h.counted t tr htr
    · exact h.counted t u hu
  · rw [hf] at hb
    obtain ⟨u, hu, hid⟩ := h.known b hb
    by_cases he : b.tag = tag
    · rw [he, htr] at hu
      cases hu
      exact ⟨{ tr with sent := true }, by rw [hget, if_pos he], hid⟩
    · exact ⟨u, by rw [hget, if_neg he]; exact hu, hid⟩
  · rw [hf]; exact h.once b
  · rw [hget] at hu
    split at hu
    · rename_i he
      subst he
      cases hu
      exact h.single t tr htr hp
    · exact h.single t u hu hp
  · have hsum := OrdMap.sum_insert_some (v := { tr with sent := true }) unreceived htr
    have h₁ : unreceived tag tr = 0 := by simp [unreceived, hsent]
    have h₂ : unreceived tag { tr with sent := true } = 1 := by simp [unreceived, hempty]
    have hh := h.holds
    rw [ht, hr, ho]
    omega
  · rw [ho]; exact hroom
  · have hl := h.ledger
    simp only [tallyAll_logged hc, ho, if_true, reduceCtorEq, if_false]
    omega
  · have hp := h.perTag t
    simp only [tally_logged hc, holding, hr, hget, true_and, reduceCtorEq, false_and, if_false] at hp ⊢
    by_cases he : t = tag
    · subst he
      simp [htr, unreceived, hsent, hempty] at hp ⊢
      omega
    · simpa [he, Ne.symm he] using hp

/-- A beat comes in on a channel. -/
theorem Inv.received (h : Inv s) {tr : Transaction} (htr : s.transactions.get? beat.tag = some tr)
    (hsent : tr.sent = true) (hlt : beat.transactionId < tr.expected) (hnew : beat.transactionId ∉ tr.received)
    (hq : ∀ t, s'.queuedOf t = s.queuedOf t)
    (ht : s'.transactions = s.transactions.insert beat.tag { tr with received := insert beat.transactionId tr.received })
    (hf : ∀ p, s'.flight p = s.flight p + if p beat then 1 else 0)
    (hr : ∀ p, s'.onReturns p = s.onReturns p + if p beat then 1 else 0)
    (ho : s'.outstanding = s.outstanding) (hc : s'.credits = s.credits) : Inv s' := by
  have hget : ∀ t, s'.transactions.get? t =
      if t = beat.tag then some { tr with received := insert beat.transactionId tr.received }
      else s.transactions.get? t := fun t => by rw [ht, OrdMap.get?_insert]
  have hun : unreceived beat.tag tr =
      unreceived beat.tag { tr with received := insert beat.transactionId tr.received } +
        if beat.transactionId = 0 then 1 else 0 := by
    by_cases hz : beat.transactionId = 0
    · rw [hz] at hnew ⊢
      simp [unreceived, hsent, hnew]
    · simp [unreceived, hsent, hz, Ne.symm hz]
  refine ⟨fun t => ?_, fun t u hu hs => ?_, fun t u hu id hid => ?_, fun t u hu => ?_, fun b hb => ?_,
    fun b => ?_, fun t u hu hp => ?_, ?_, ?_, ?_, fun t => ?_⟩
  · have h₁ := h.queued t
    rw [hq, hget]
    by_cases he : t = beat.tag
    · subst he
      simpa [htr, unsent] using h₁
    · simpa [he] using h₁
  · rw [hget] at hu
    split at hu
    · cases hu
      rw [hsent] at hs
      cases hs
    · exact h.clean t u hu hs
  · rw [hget] at hu
    split at hu
    · cases hu
      rcases Finset.mem_insert.mp hid with rfl | hid
      · exact hlt
      · exact h.bounded _ tr htr id hid
    · exact h.bounded t u hu id hid
  · rw [hget] at hu
    rw [hf]
    split at hu
    · rename_i he
      subst he
      cases hu
      have h₁ := h.counted _ tr htr
      simp [Finset.card_insert_of_notMem hnew, ofTag]
      omega
    · rename_i he
      have h₁ := h.counted t u hu
      simp [ofTag, Ne.symm he]
      exact h₁
  · rw [hf] at hb
    by_cases hbb : beat = b
    · subst hbb
      exact ⟨_, by rw [hget, if_pos rfl], Finset.mem_insert_self _ _⟩
    · simp [isBeat, hbb] at hb
      obtain ⟨u, hu, hid⟩ := h.known b hb
      by_cases he : b.tag = beat.tag
      · rw [he, htr] at hu
        cases hu
        exact ⟨{ tr with received := insert beat.transactionId tr.received }, by rw [hget, if_pos he],
          Finset.mem_insert_of_mem hid⟩
      · exact ⟨u, by rw [hget, if_neg he]; exact hu, hid⟩
  · rw [hf]
    by_cases hbb : beat = b
    · subst hbb
      -- it was not in flight, for it was not received
      have hz : s.flight (isBeat beat) = 0 := by
        by_contra hpos
        obtain ⟨u, hu, hid⟩ := h.known beat (Nat.pos_of_ne_zero hpos)
        rw [htr] at hu
        cases hu
        exact hnew hid
      simp [hz, isBeat]
    · simpa [isBeat, hbb] using h.once b
  · rw [hget] at hu
    split at hu
    · rename_i he
      subst he
      cases hu
      exact h.single _ tr htr hp
    · exact h.single t u hu hp
  · have hsum := OrdMap.sum_insert_some
      (v := { tr with received := insert beat.transactionId tr.received }) unreceived htr
    have hh := h.holds
    rw [ht, hr, ho]
    simp only [isFirst, decide_eq_true_eq]
    omega
  · rw [ho]; exact h.small
  · simp only [tallyAll, hc, ho]; exact h.ledger
  · have hp := h.perTag t
    simp only [tally, holding, hc, hr, hget] at hp ⊢
    by_cases he : t = beat.tag
    · subst he
      simp only [htr, if_true, Option.elim_some, isFirstOf, true_and, decide_eq_true_eq] at hp ⊢
      omega
    · simp [he, Ne.symm he, isFirstOf] at hp ⊢
      omega

/-- A beat leaves its channel upwards; beat 0 releases the credit. -/
theorem Inv.forwarded (h : Inv s) (hq : ∀ t, s'.queuedOf t = s.queuedOf t) (ht : s'.transactions = s.transactions)
    (hf : ∀ p, s'.flight p = s.flight p) (hr : ∀ p, s.onReturns p = s'.onReturns p + if p beat then 1 else 0)
    (ho : s'.outstanding = if beat.transactionId = 0 then wrappingPred u32 s.outstanding else s.outstanding)
    (hc : s'.credits = if beat.transactionId = 0 then s.credits ++ [(.released, beat.tag)] else s.credits) : Inv s' := by
  have hh := h.holds
  have hsmall := h.small
  have hfirst := hr isFirst
  -- the counter is positive when it goes down
  have ho' : s.outstanding = s'.outstanding + if beat.transactionId = 0 then 1 else 0 := by
    by_cases hz : beat.transactionId = 0
    · simp only [isFirst, hz, decide_true, if_true] at hfirst ho ⊢
      rw [wrappingPred_of_pos (by omega)] at ho
      omega
    · simp only [hz, if_false] at ho ⊢
      omega
  refine ⟨fun t => by rw [hq, ht]; exact h.queued t, by rw [ht]; exact h.clean, by rw [ht]; exact h.bounded,
    by simp only [ht, hf]; exact h.counted, by simp only [ht, hf]; exact h.known, by simp only [hf]; exact h.once,
    by rw [ht]; exact h.single, ?_, ?_, ?_, fun t => ?_⟩
  · rw [ht]
    simp only [isFirst, decide_eq_true_eq] at hfirst
    have hfirst : s.onReturns isFirst = s'.onReturns isFirst + _ := hfirst
    omega
  · omega
  · have hl := h.ledger
    by_cases hz : beat.transactionId = 0
    · simp only [hz, if_true] at hc ho'
      simp only [tallyAll_logged hc, if_true, reduceCtorEq, if_false]
      omega
    · simp only [hz, if_false] at hc ho'
      simp only [tallyAll, hc] at hl ⊢
      omega
  · have hp := h.perTag t
    have hrt := hr (isFirstOf t)
    by_cases hz : beat.transactionId = 0
    · simp only [hz, if_true] at hc
      simp only [tally_logged hc, holding, ht, true_and, reduceCtorEq, false_and, if_false] at hp ⊢
      by_cases he : beat.tag = t
      · simp only [isFirstOf, he, hz, and_self, decide_true, if_true] at hrt
        have hrt : s.onReturns (isFirstOf t) = s'.onReturns (isFirstOf t) + 1 := hrt
        simp only [he, if_true]
        omega
      · simp only [isFirstOf, he, false_and, decide_false, Bool.false_eq_true, if_false] at hrt
        have hrt : s.onReturns (isFirstOf t) = s'.onReturns (isFirstOf t) + 0 := hrt
        simp only [he, if_false]
        omega
    · simp only [hz, if_false] at hc
      simp only [isFirstOf, hz, and_false, decide_false, Bool.false_eq_true, if_false] at hrt
      have hrt : s.onReturns (isFirstOf t) = s'.onReturns (isFirstOf t) + 0 := hrt
      simp only [tally, holding, hc, ht] at hp ⊢
      omega

theorem beatsOf_mono {p q : MemoryReadBeat → Bool} (hpq : ∀ b, p b = true → q b = true) (l : List MemoryReadReturn) :
    beatsOf p l ≤ beatsOf q l := List.countP_mono_left fun r _ => hpq r.beat

theorem total_mono {α : Type} {f g : α → Nat} (h : ∀ x, f x ≤ g x) (l : List α) : total f l ≤ total g l := by
  induction l with
  | nil => exact Nat.le_refl 0
  | cons x l ih => exact Nat.add_le_add (h x) ih

theorem flight_mono {p q : MemoryReadBeat → Bool} (hpq : ∀ b, p b = true → q b = true) : s.flight p ≤ s.flight q := by
  have hb := beatsOf_mono hpq
  have ht := total_mono (f := fun port : CachePort => beatsOf p port.returns) (g := fun port => beatsOf q port.returns)
    fun port => hb port.returns
  exact Nat.add_le_add (Nat.add_le_add (Nat.add_le_add (hb _) (hb _)) (Nat.add_le_add (hb _) (hb _)))
    (Nat.add_le_add (ht _) (ht _))

/-- A beat that left the last queue is delivered; the last one ends the transaction. -/
theorem Inv.delivered (h : Inv s) {tr : Transaction} (htr : s.transactions.get? beat.tag = some tr)
    (hq : ∀ t, s'.queuedOf t = s.queuedOf t)
    (hf : ∀ p, s.flight p = s'.flight p + if p beat then 1 else 0) (hr : ∀ p, s'.onReturns p = s.onReturns p)
    (ht : s'.transactions = if tr.delivered + 1 = tr.expected then s.transactions.erase beat.tag
      else s.transactions.insert beat.tag { tr with delivered := tr.delivered + 1 })
    (ho : s'.outstanding = s.outstanding) (hc : s'.credits = s.credits) : Inv s' := by
  have hcount := h.counted _ tr htr
  have hone := hf (ofTag beat.tag)
  simp only [ofTag, decide_true, if_true] at hone
  have hone : s.flight (ofTag beat.tag) = s'.flight (ofTag beat.tag) + 1 := hone
  have hsent : tr.sent = true := by
    by_contra hne
    obtain ⟨he, -⟩ := h.clean _ tr htr (by simpa using hne)
    rw [he, Finset.card_empty] at hcount
    omega
  have hle : ∀ p, s'.flight p ≤ s.flight p := fun p => by rw [hf p]; omega
  by_cases hlast : tr.delivered + 1 = tr.expected
  · rw [if_pos hlast] at ht
    have hget : ∀ t, s'.transactions.get? t = if t = beat.tag then none else s.transactions.get? t := fun t => by
      rw [ht, OrdMap.get?_erase]
    -- every beat was received, and none is left in flight
    have hsub : tr.received ⊆ Finset.range tr.expected := fun id hid =>
      Finset.mem_range.mpr (h.bounded _ tr htr id hid)
    have hcard := Finset.card_le_card hsub
    rw [Finset.card_range] at hcard
    have hempty : s'.flight (ofTag beat.tag) = 0 := by omega
    have hfull : tr.received = Finset.range tr.expected :=
      Finset.eq_of_subset_of_card_le hsub (by rw [Finset.card_range]; omega)
    have hun : unreceived beat.tag tr = 0 := by
      have : 0 ∈ tr.received := by rw [hfull]; exact Finset.mem_range.mpr (by omega)
      simp [unreceived, this]
    refine ⟨fun t => ?_, fun t u hu hs => ?_, fun t u hu id hid => ?_, fun t u hu => ?_, fun b hb => ?_,
      fun b => ?_, fun t u hu hp => ?_, ?_, ?_, ?_, fun t => ?_⟩
    · have h₁ := h.queued t
      rw [hq, hget]
      by_cases he : t = beat.tag
      · subst he
        simpa [htr, unsent, hsent] using h₁
      · simpa [he] using h₁
    · rw [hget] at hu
      split at hu
      · cases hu
      · exact h.clean t u hu hs
    · rw [hget] at hu
      split at hu
      · cases hu
      · exact h.bounded t u hu id hid
    · rw [hget] at hu
      split at hu
      · cases hu
      · rename_i he
        have h₁ := hf (ofTag t)
        simp only [ofTag, Ne.symm he, decide_false, Bool.false_eq_true, if_false] at h₁
        have h₁ : s.flight (ofTag t) = s'.flight (ofTag t) + 0 := h₁
        have h₂ := h.counted t u hu
        omega
    · have hne : b.tag ≠ beat.tag := fun he => by
        have := flight_mono (s := s') (p := isBeat b) (q := ofTag beat.tag) fun c hc => by
          have hcb : c = b := of_decide_eq_true hc
          simp [ofTag, hcb, he]
        omega
      obtain ⟨u, hu, hid⟩ := h.known b (Nat.lt_of_lt_of_le hb (hle _))
      exact ⟨u, by rw [hget, if_neg hne]; exact hu, hid⟩
    · exact Nat.le_trans (hle _) (h.once b)
    · rw [hget] at hu
      split at hu
      · cases hu
      · exact h.single t u hu hp
    · have hsum := OrdMap.sum_erase_some unreceived htr
      have hh := h.holds
      rw [ht, hr, ho]
      omega
    · rw [ho]; exact h.small
    · simp only [tallyAll, hc, ho]; exact h.ledger
    · have hp := h.perTag t
      simp only [tally, holding, hc, hr, hget] at hp ⊢
      by_cases he : t = beat.tag
      · subst he
        simpa [htr, hun] using hp
      · simpa [he] using hp
  · rw [if_neg hlast] at ht
    have hget : ∀ t, s'.transactions.get? t =
        if t = beat.tag then some { tr with delivered := tr.delivered + 1 } else s.transactions.get? t := fun t => by
      rw [ht, OrdMap.get?_insert]
    refine ⟨fun t => ?_, fun t u hu hs => ?_, fun t u hu id hid => ?_, fun t u hu => ?_, fun b hb => ?_,
      fun b => ?_, fun t u hu hp => ?_, ?_, ?_, ?_, fun t => ?_⟩
    · have h₁ := h.queued t
      rw [hq, hget]
      by_cases he : t = beat.tag
      · subst he
        simpa [htr, unsent] using h₁
      · simpa [he] using h₁
    · rw [hget] at hu
      split at hu
      · cases hu
        rw [hsent] at hs
        cases hs
      · exact h.clean t u hu hs
    · rw [hget] at hu
      split at hu
      · cases hu; exact h.bounded _ tr htr id hid
      · exact h.bounded t u hu id hid
    · rw [hget] at hu
      split at hu
      · rename_i he
        subst he
        cases hu
        show tr.received.card = tr.delivered + 1 + _
        omega
      · rename_i he
        have h₁ := hf (ofTag t)
        simp only [ofTag, Ne.symm he, decide_false, Bool.false_eq_true, if_false] at h₁
        have h₁ : s.flight (ofTag t) = s'.flight (ofTag t) + 0 := h₁
        have h₂ := h.counted t u hu
        omega
    · obtain ⟨u, hu, hid⟩ := h.known b (Nat.lt_of_lt_of_le hb (hle _))
      by_cases he : b.tag = beat.tag
      · rw [he, htr] at hu
        cases hu
        exact ⟨{ tr with delivered := tr.delivered + 1 }, by rw [hget, if_pos he], hid⟩
      · exact ⟨u, by rw [hget, if_neg he]; exact hu, hid⟩
    · exact Nat.le_trans (hle _) (h.once b)
    · rw [hget] at hu
      split at hu
      · rename_i he
        subst he
        cases hu
        exact h.single _ tr htr hp
      · exact h.single t u hu hp
    · have hsum := OrdMap.sum_insert_some (v := { tr with delivered := tr.delivered + 1 }) unreceived htr
      have hun : unreceived beat.tag { tr with delivered := tr.delivered + 1 } = unreceived beat.tag tr := rfl
      have hh := h.holds
      rw [ht, hr, ho]
      omega
    · rw [ho]; exact h.small
    · simp only [tallyAll, hc, ho]; exact h.ledger
    · have hp := h.perTag t
      simp only [tally, holding, hc, hr, hget] at hp ⊢
      by_cases he : t = beat.tag
      · subst he
        rw [if_pos rfl]
        simpa [htr, unreceived] using hp
      · simpa [he] using hp

/-! ## The calls -/

theorem queuedOf_setPort {kind : Fin 2} {index : Nat} {port : CachePort} (h : (s.cachePorts kind)[index]? = some port)
    (port' : CachePort) (tag : MemoryReadId) :
    (s.setPort kind index port').queuedOf tag + commandsOf tag port.input =
      s.queuedOf tag + commandsOf tag port'.input := by
  have := both_total_set (fun port => commandsOf tag port.input) (x := port') h
  simp only [queuedOf, setPort]
  omega

theorem flight_setPort {kind : Fin 2} {index : Nat} {port : CachePort} (h : (s.cachePorts kind)[index]? = some port)
    (port' : CachePort) (p : MemoryReadBeat → Bool) :
    (s.setPort kind index port').flight p + beatsOf p port.returns = s.flight p + beatsOf p port'.returns := by
  have := both_total_set (fun port => beatsOf p port.returns) (x := port') h
  simp only [flight, onReturns, setPort]
  omega

theorem inv_push {tick : Nat} {request : MemoryReadCommand} {r : Except BiuBusReadError Unit} (h : Inv s)
    (he : push tick request s = some (r, s')) : Inv s' := by
  unfold push at he
  split at he
  · cases he; exact h
  · rename_i hc
    simp only [not_or, Bool.not_eq_true, OrdMap.contains_eq_false, Option.isSome_eq_false_iff] at hc
    split at he
    · cases he; exact h
    · split at he
      · cases he
        refine h.admitted hc.2.2 (fun hs => ?_) (fun t => ?_) rfl (fun _ => rfl) (fun _ => rfl) rfl rfl
        · simp [Option.isNone_iff_eq_none.mp hc.1] at hs
        · simp only [queuedOf, commandsOf_append, commandsOf_cons, commandsOf_nil, eq_comm (a := t)]
          omega
      · cases he

theorem inv_addCachePort {kind : CacheKind} {config : CacheConfig} (h : Inv s) : Inv (addCachePort kind config s).2 := by
  unfold addCachePort
  split
  · exact h
  · dsimp only
    split
    · refine h.moved (fun t => ?_) rfl (fun p => ?_) (fun _ => rfl) rfl rfl
      · have := both_update (total fun port => commandsOf t port.input) s.cachePorts kind.index
          (s.cachePorts kind.index ++ [⟨config, [], []⟩])
        simp only [total_append, total_cons, total_nil, commandsOf_nil] at this
        simp only [queuedOf]
        omega
      · have := both_update (total fun port => beatsOf p port.returns) s.cachePorts kind.index
          (s.cachePorts kind.index ++ [⟨config, [], []⟩])
        simp only [total_append, total_cons, total_nil, beatsOf_nil] at this
        simp only [flight, onReturns]
        omega
    · exact h

theorem inv_sendCacheCommand {tick : Nat} {command : MemoryReadCommand} (h : Inv s) (hb : command.bytes ≤ 128) :
    Inv (sendCacheCommand tick command s).2 := by
  unfold sendCacheCommand
  split
  · exact h
  · rename_i kind index hend
    split
    · exact h
    · rename_i port hport
      split
      · exact h
      · rename_i hc
        simp only [not_or, Bool.not_eq_true, OrdMap.contains_eq_false] at hc
        split
        · exact h
        · split
          · exact h
          · rename_i readyTick _
            refine h.admitted hc.2 (fun _ => by omega) (fun t => ?_) rfl (fun p => ?_) (fun _ => rfl) rfl rfl
            · have := queuedOf_setPort hport { port with input := port.input ++ [{ command with readyTick }] } t
              simp only [commandsOf_append, commandsOf_cons, commandsOf_nil] at this
              simp only [eq_comm (a := t)]
              exact Nat.add_right_cancel (this.trans (by omega))
            · have := flight_setPort hport { port with input := port.input ++ [{ command with readyTick }] } p
              exact Nat.add_right_cancel this

/-- The command selected left its input. -/
structure Selected (s s' : BiuBusReads) (command : MemoryReadCommand) : Prop where
  queued : ∀ t, s.queuedOf t = s'.queuedOf t + if command.tag = t then 1 else 0
  flight : ∀ p, s'.flight p = s.flight p
  same : s'.transactions = s.transactions ∧ s'.returns = s.returns ∧ s'.outstanding = s.outstanding ∧
    s'.credits = s.credits ∧ s'.commands = s.commands ∧ s'.limit = s.limit

theorem selectFrom_some {tick : Nat} {kind : Fin 2} {indices : List Nat} {command : MemoryReadCommand}
    (h : selectFrom tick kind s indices = some (command, s')) : Selected s s' command := by
  induction indices with
  | nil => cases h
  | cons index indices ih =>
    rw [selectFrom] at h
    split at h
    · exact ih h
    · rename_i port hport
      split at h
      · rename_i c input hp
        obtain ⟨hin, -⟩ := popFrontIf_eq_some.mp hp
        cases h
        refine ⟨fun t => ?_, fun p => ?_, rfl, rfl, rfl, rfl, rfl, rfl⟩
        · have := queuedOf_setPort hport { port with input } t
          rw [hin, commandsOf_cons] at this
          show s.queuedOf t = (s.setPort kind index { port with input }).queuedOf t + _
          simp only at this
          omega
        · exact Nat.add_right_cancel (flight_setPort hport { port with input } p)
      · exact ih h

theorem selectInput_some {tick : Nat} {command : MemoryReadCommand} (h : selectInput tick s = some (command, s')) :
    Selected s s' command := by
  obtain ⟨⟨c, input⟩, hp, he⟩ := Option.map_eq_some_iff.mp h
  cases he
  obtain ⟨hin, -⟩ := popFrontIf_eq_some.mp hp
  refine ⟨fun t => ?_, fun p => rfl, rfl, rfl, rfl, rfl, rfl, rfl⟩
  simp only [queuedOf, hin, commandsOf_cons]
  omega

/-- An admission moves a command from an input to the command queue. -/
theorem advanceInput_cases (tick : Nat) (s : BiuBusReads) : (advanceInput tick s).2 = s ∨
    ∃ command m readyTick, s.outstanding < s.limit ∧ Selected s m command ∧
      (advanceInput tick s).2 = { m with
        lastAdmit := some tick, commands := m.commands ++ [{ command with readyTick }] } := by
  unfold advanceInput
  split
  · exact .inl rfl
  · rename_i readyTick _
    split
    · exact .inl rfl
    · rename_i hc
      split
      · exact .inl rfl
      · rename_i command m hs
        refine .inr ⟨command, m, readyTick, by omega, ?_, rfl⟩
        rw [Option.orElse_eq_or, Option.or_eq_some_iff, selectCache, Option.orElse_eq_or, Option.or_eq_some_iff] at hs
        rcases hs with (hs | ⟨-, hs⟩) | ⟨-, hs⟩
        · exact selectFrom_some hs
        · exact selectFrom_some hs
        · exact selectInput_some hs

theorem inv_advanceInput {tick : Nat} (h : Inv s) : Inv (advanceInput tick s).2 := by
  rcases advanceInput_cases tick s with he | ⟨command, m, readyTick, -, hm, he⟩
  · rw [he]; exact h
  · rw [he]
    obtain ⟨ht, hr, ho, hc, hcmd, -⟩ := hm.same
    refine h.moved (fun t => ?_) ht hm.flight (fun p => by simp only [onReturns, hr]) ho hc
    have := hm.queued t
    simp only [queuedOf, commandsOf_append, commandsOf_cons, commandsOf_nil] at this ⊢
    omega

/-- What `take_command` does: nothing, or the head of the queue is sent. -/
theorem takeCommand_cases {tick : Nat} {r : Option MemoryReadCommand} (h : takeCommand tick s = some (r, s')) :
    s' = s ∨ ∃ command commands tr, s.commands = command :: commands ∧ s.transactions.get? command.tag = some tr ∧
      s' = { s with
        commands
        transactions := s.transactions.insert command.tag { tr with sent := true }
        outstanding := wrappingSucc u32 s.outstanding
        lastSend := some tick
        credits := s.credits ++ [(.taken, command.tag)] } := by
  unfold takeCommand at h
  split at h
  · cases h; exact .inl rfl
  · split at h
    · cases h; exact .inl rfl
    · rename_i command commands hp
      obtain ⟨hcmd, -⟩ := popFrontIf_eq_some.mp hp
      obtain ⟨tr, htr, h⟩ := Option.bind_eq_some_iff.mp h
      cases h
      exact .inr ⟨command, commands, tr, hcmd, htr, rfl⟩

theorem inv_takeCommand {tick : Nat} {r : Option MemoryReadCommand} (h : Inv s)
    (hc : s.commands.isEmpty = true ∨ s.outstanding + 1 < u32) (he : takeCommand tick s = some (r, s')) : Inv s' := by
  rcases takeCommand_cases he with rfl | ⟨command, commands, tr, hcmd, htr, rfl⟩
  · exact h
  · have hroom : s.outstanding + 1 < u32 := hc.resolve_left (by simp [hcmd])
    refine h.taken htr hroom (fun t => ?_) rfl (fun _ => rfl) (fun _ => rfl) (wrappingSucc_of_lt hroom) rfl
    simp only [queuedOf, hcmd, commandsOf_cons, eq_comm (a := t)]
    omega

theorem inv_acceptHead {port : Fin 2} {readyTick : Nat} {head : Option MemoryReadBeat} {accepted : Bool} (h : Inv s)
    (hv : ∀ beat, head = some beat → accepted = true → s.accepts beat = true)
    (he : s.acceptHead port readyTick head accepted = some s') : Inv s' := by
  unfold acceptHead at he
  split at he
  · rename_i beat
    have hv := hv beat rfl rfl
    obtain ⟨tr, htr, he⟩ := Option.bind_eq_some_iff.mp he
    cases he
    simp only [accepts, htr, Option.any_some, Bool.and_eq_true, decide_eq_true_eq] at hv
    have hr : ∀ p, both (beatsOf p) (Function.update s.returns port (s.returns port ++ [⟨readyTick, beat⟩])) =
        both (beatsOf p) s.returns + if p beat then 1 else 0 := fun p => by
      have := both_update (beatsOf p) s.returns port (s.returns port ++ [⟨readyTick, beat⟩])
      simp only [beatsOf_append, beatsOf_cons, beatsOf_nil] at this
      omega
    refine h.received htr hv.1.1 hv.1.2 hv.2 (fun _ => rfl) rfl (fun p => ?_) hr rfl rfl
    have := hr p
    simp only [flight, onReturns]
    omega
  · cases he
  · cases he; exact h

/-- A head accepted on one channel leaves the other one's to be accepted, if it is another beat. -/
theorem accepts_acceptHead {port : Fin 2} {readyTick : Nat} {head : Option MemoryReadBeat} {accepted : Bool}
    (hb : s.accepts beat = true) (hne : accepted = true → head ≠ some beat)
    (he : s.acceptHead port readyTick head accepted = some s') : s'.accepts beat = true := by
  unfold acceptHead at he
  split at he
  · rename_i b
    obtain ⟨tr, htr, he⟩ := Option.bind_eq_some_iff.mp he
    cases he
    have hne : b ≠ beat := fun hbb => hne rfl (congrArg some hbb)
    unfold accepts at hb ⊢
    rw [OrdMap.get?_insert]
    by_cases ht : beat.tag = b.tag
    · have hid : beat.transactionId ≠ b.transactionId := fun hid => hne (by
        cases b; cases beat; simp_all)
      rw [if_pos ht]
      rw [ht, htr] at hb
      simpa [hid] using hb
    · rw [if_neg ht]
      exact hb
  · cases he
  · cases he; exact hb

theorem inv_receive {tick : Nat} {heads : Fin 2 → Option MemoryReadBeat} {r : Except BiuBusReadError (Fin 2 → Bool)}
    (h : Inv s) (he : receive tick heads s = some (r, s')) : Inv s' := by
  unfold receive at he
  split at he
  · cases he; exact h
  · dsimp only at he
    split at he
    · cases he; exact h
    · rename_i h₀
      split at he
      · cases he; exact h
      · rename_i h₁
        obtain ⟨s₁, he₁, he⟩ := Option.bind_eq_some_iff.mp he
        obtain ⟨s₂, he₂, he⟩ := Option.bind_eq_some_iff.mp he
        cases he
        have hv₀ : ∀ beat, heads 0 = some beat → s.accepts beat = true := fun beat hb => by
          simpa [hb] using h₀
        have hv₁ : ∀ beat, heads 1 = some beat → s.accepts beat = true ∧
            (((heads 0).isSome && decide ((s.returns 0).length < 3)) = true → heads 0 ≠ some beat) := fun beat hb => by
          simp only [hb, Option.filter_some] at h₁
          simpa using h₁
        have hi₁ := inv_acceptHead h (fun beat hb _ => hv₀ beat hb) he₁
        exact inv_acceptHead hi₁ (fun beat hb _ => accepts_acceptHead (hv₁ beat hb).1 (hv₁ beat hb).2 he₁) he₂

theorem onReturns_popReturn {port : Fin 2} {response : MemoryReadReturn} {rest : List MemoryReadReturn}
    (h : s.returns port = response :: rest) (p : MemoryReadBeat → Bool) :
    s.onReturns p = both (beatsOf p) (s.popReturn port).returns + if p response.beat then 1 else 0 := by
  have := both_update (beatsOf p) s.returns port (s.returns port).tail
  simp only [h, List.tail_cons, beatsOf_cons] at this
  simp only [onReturns, popReturn, h, List.tail_cons]
  omega

theorem inv_forwardMteReturn {port : Fin 2} {tick readyTick : Nat} (h : Inv s) :
    Inv (s.forwardMteReturn port tick readyTick) := by
  unfold forwardMteReturn
  split
  · split
    · exact h
    · rename_i response rest hp
      obtain ⟨hret, -⟩ := popFrontIf_eq_some.mp hp
      have hr := onReturns_popReturn hret
      have hu : ∀ p, both (beatsOf p) (Function.update s.upstream port (s.upstream port ++ [{ response with readyTick }])) =
          both (beatsOf p) s.upstream + if p response.beat then 1 else 0 := fun p => by
        have := both_update (beatsOf p) s.upstream port (s.upstream port ++ [{ response with readyTick }])
        simp only [beatsOf_append, beatsOf_cons, beatsOf_nil] at this
        omega
      have hf : ∀ p, flight { s.popReturn port with
          upstream := Function.update s.upstream port (s.upstream port ++ [{ response with readyTick }]) } p =
          s.flight p := fun p => by
        have h₁ := hr p
        have h₂ := hu p
        simp only [flight, onReturns, popReturn] at h₁ h₂ ⊢
        omega
      by_cases hz : response.beat.transactionId = 0
      · rw [if_pos hz]
        exact h.forwarded (fun _ => rfl) rfl hf hr (by rw [if_pos hz]; rfl) (by rw [if_pos hz]; rfl)
      · rw [if_neg hz]
        exact h.forwarded (fun _ => rfl) rfl hf hr (by rw [if_neg hz]; rfl) (by rw [if_neg hz]; rfl)
  · exact h

theorem inv_forwardCacheReturn {busPort : Fin 2} {tick : Nat} (h : Inv s) : Inv (forwardCacheReturn busPort tick s).2 := by
  unfold forwardCacheReturn
  split
  · exact h
  · rename_i response hhead
    have hhead := (Option.filter_eq_some_iff.mp hhead).1
    obtain ⟨rest, hret⟩ := List.head?_eq_some_iff.mp hhead
    split
    · exact h
    · rename_i kind index hend
      split
      · exact h
      · rename_i port hport
        split
        · exact h
        · split
          · exact h
          · rename_i readyTick _
            have hr := onReturns_popReturn hret
            -- the transaction has one beat, so this is beat 0
            have hz : response.beat.transactionId = 0 := by
              have hpos : 0 < s.flight (isBeat response.beat) := by
                have h₁ := hr (isBeat response.beat)
                simp only [isBeat, decide_true, if_true] at h₁
                have h₁ : s.onReturns (isBeat response.beat) = _ + 1 := h₁
                have h₂ := onReturns_le_flight s (isBeat response.beat)
                omega
              obtain ⟨tr, htr, hid⟩ := h.known _ hpos
              have h₁ := h.bounded _ tr htr _ hid
              have h₂ := h.single _ tr htr (by simp [hend])
              omega
            refine h.forwarded (fun t => ?_) rfl (fun p => ?_) hr (by rw [if_pos hz]; rfl) (by rw [if_pos hz]; rfl)
            · exact Nat.add_right_cancel
                (queuedOf_setPort hport { port with returns := port.returns ++ [{ response with readyTick }] } t)
            · have h₁ := flight_setPort hport { port with returns := port.returns ++ [{ response with readyTick }] } p
              have h₂ := hr p
              simp only [beatsOf_append, beatsOf_cons, beatsOf_nil] at h₁
              simp only [flight, onReturns, setPort, popReturn, release] at h₁ h₂ ⊢
              omega

theorem inv_advanceReturns {tick : Nat} (h : Inv s) : Inv (advanceReturns tick s).2 := by
  have hport : ∀ port readyTick, Call.Keeps Inv (advancePort port tick readyTick) := fun port readyTick s h => by
    unfold advancePort
    split
    · exact inv_forwardCacheReturn h
    · exact inv_forwardMteReturn h
  unfold advanceReturns
  split
  · exact h
  · split
    · exact h
    · refine (hport 0 _).bind (fun _ => hport 1 _) _ ?_
      exact h.moved (fun _ => rfl) rfl (fun _ => rfl) (fun _ => rfl) rfl rfl

/-- `m` is `s` with the beat popped from the last queue it was in. -/
theorem inv_deliverBeat {m : BiuBusReads} (h : Inv s) (he : m.deliverBeat beat = some s')
    (hm : m.transactions = s.transactions ∧ m.returns = s.returns ∧ m.outstanding = s.outstanding ∧
      m.credits = s.credits) (hq : ∀ t, m.queuedOf t = s.queuedOf t)
    (hf : ∀ p, s.flight p = m.flight p + if p beat then 1 else 0) : Inv s' := by
  obtain ⟨ht, hr, ho, hc⟩ := hm
  unfold deliverBeat at he
  obtain ⟨tr, htr, he⟩ := Option.bind_eq_some_iff.mp he
  rw [ht] at htr
  split at he
  · rename_i hlast
    cases he
    refine h.delivered htr hq hf (fun p => ?_) ?_ ho hc
    · simp only [onReturns, hr]
    · rw [if_pos hlast, ht]
  · rename_i hlast
    cases he
    refine h.delivered htr hq hf (fun p => ?_) ?_ ho hc
    · simp only [onReturns, hr]
    · rw [if_neg hlast, ht]

theorem inv_consumePort {port : Fin 2} {accepted : Bool} (h : Inv s) (he : s.consumePort port accepted = some s') :
    Inv s' := by
  unfold consumePort at he
  split at he
  · split at he
    · cases he
    · rename_i head rest hup
      refine inv_deliverBeat h he ⟨rfl, rfl, rfl, rfl⟩ (fun _ => rfl) fun p => ?_
      have := both_update (beatsOf p) s.upstream port rest
      simp only [hup, beatsOf_cons] at this
      simp only [flight, onReturns]
      omega
  · cases he; exact h

theorem inv_takeCacheReturn {tick : Nat} {kind : CacheKind} {index : Nat} {r : Option MemoryReadBeat} (h : Inv s)
    (he : takeCacheReturn tick kind index s = some (r, s')) : Inv s' := by
  unfold takeCacheReturn at he
  split at he
  · cases he; exact h
  · rename_i port hport
    split at he
    · cases he; exact h
    · rename_i response returns hp
      obtain ⟨hret, -⟩ := popFrontIf_eq_some.mp hp
      obtain ⟨u, hu, he⟩ := Option.map_eq_some_iff.mp he
      cases he
      refine inv_deliverBeat h hu ⟨rfl, rfl, rfl, rfl⟩ (fun t => ?_) fun p => ?_
      · exact Nat.add_right_cancel (queuedOf_setPort hport { port with returns } t)
      · have := flight_setPort hport { port with returns } p
        simp only [hret, beatsOf_cons] at this
        omega

/-- The condition under which the counter is right: a cache asks for one beat at a time, and
    no command is taken at the last value of the counter. -/
def OneBeat : ReadCall → BiuBusReads → Prop
  | .sendCacheCommand _ command, _ => command.bytes ≤ 128
  | .takeCommand _, s => s.commands.isEmpty = true ∨ s.outstanding + 1 < u32
  | _, _ => True

theorem inv_exec {c : ReadCall} (h : Inv s) (hc : OneBeat c s) (he : exec c s = some s') : Inv s' := by
  cases c with
  | addCachePort kind config => cases he; exact inv_addCachePort h
  | push tick request =>
    obtain ⟨⟨r, u⟩, hu, rfl⟩ := Option.map_eq_some_iff.mp he
    exact inv_push h hu
  | sendCacheCommand tick command => cases he; exact inv_sendCacheCommand h hc
  | advanceInput tick => cases he; exact inv_advanceInput h
  | takeCommand tick =>
    obtain ⟨⟨r, u⟩, hu, rfl⟩ := Option.map_eq_some_iff.mp he
    exact inv_takeCommand h hc hu
  | receive tick heads =>
    obtain ⟨⟨r, u⟩, hu, rfl⟩ := Option.map_eq_some_iff.mp he
    exact inv_receive h hu
  | advanceReturns tick => cases he; exact inv_advanceReturns h
  | consume accepted =>
    obtain ⟨u, hu, he⟩ := Option.bind_eq_some_iff.mp he
    exact inv_consumePort (inv_consumePort h hu) he
  | takeCacheReturn tick kind port =>
    obtain ⟨⟨r, u⟩, hu, rfl⟩ := Option.map_eq_some_iff.mp he
    exact inv_takeCacheReturn h hu

instance : ∀ c s, Decidable (OneBeat c s)
  | .sendCacheCommand _ command, _ => inferInstanceAs (Decidable (command.bytes ≤ 128))
  | .takeCommand _, s => inferInstanceAs (Decidable (s.commands.isEmpty = true ∨ s.outstanding + 1 < u32))
  | .addCachePort _ _, _ | .push _ _, _ | .advanceInput _, _ | .receive _ _, _ | .advanceReturns _, _
  | .consume _, _ | .takeCacheReturn _ _ _, _ => .isTrue trivial

theorem holding_le_one (h : Inv s) (tag : MemoryReadId) : s.holding tag ≤ 1 := by
  unfold holding
  have h₁ := onReturns_le_flight s (isFirstOf tag)
  have h₂ := h.once ⟨tag, 0⟩
  rw [← isFirstOf_eq] at h₂
  cases htr : s.transactions.get? tag with
  | none => simp only [Option.elim_none]; omega
  | some tr =>
    have hu : unreceived tag tr ≤ 1 := by unfold unreceived; split <;> omega
    simp only [Option.elim_some]
    by_cases hpos : 0 < s.flight (isFirstOf tag)
    · rw [isFirstOf_eq] at hpos
      obtain ⟨u, hu', hid⟩ := h.known _ hpos
      rw [htr] at hu'
      cases hu'
      have hz : unreceived tag tr = 0 := by simp [unreceived, hid]
      omega
    · omega

/-- While caches ask for one beat at a time: the counter is the number of transactions taken
    and not released, each transaction releases its credit once and before its tag is free
    again, and on an idle bus the counter is 0. -/
theorem credit_exact {limit : Nat} {t : List ReadCall} (hr : Run (stepWhen OneBeat exec) (new limit) t s) :
    s.tallyAll .taken = s.tallyAll .released + s.outstanding ∧
    (∀ tag, s.tally .taken tag = s.tally .released tag + s.holding tag ∧ s.holding tag ≤ 1 ∧
      (s.transactions.get? tag = none → s.holding tag = 0)) ∧
    s.outstanding < u32 ∧
    (s.isIdle = true → s.outstanding = 0) := by
  have h : Inv s := hr.keeps (inv_new limit) fun _ _ _ h hs => inv_exec h hs.1 hs.2
  have hnone : ∀ tag, s.transactions.get? tag = none → s.holding tag = 0 := fun tag hn => by
    have h₁ := onReturns_le_flight s (isFirstOf tag)
    rw [isFirstOf_eq, h.flight_none hn 0] at h₁
    simp only [holding, hn, Option.elim_none, isFirstOf_eq]
    omega
  refine ⟨h.ledger, fun tag => ⟨h.perTag tag, holding_le_one h tag, hnone tag⟩, h.small, fun hidle => ?_⟩
  have hempty := OrdMap.isEmpty_iff.mp hidle
  have hz : s.onReturns isFirst = 0 := by
    by_contra hpos
    have h₁ := onReturns_le_flight s isFirst
    obtain ⟨b, -, hb⟩ := flight_pos (s := s) (p := isFirst) (by omega)
    obtain ⟨tr, htr, -⟩ := h.known b hb
    rw [hempty] at htr
    cases htr
  have hsum : s.transactions.sum unreceived = 0 := by
    have he : s.transactions = .empty := OrdMap.ext fun k => hempty k
    rw [he, OrdMap.sum_empty]
  have hh := h.holds
  omega

/-- The life of an instruction cache read of so many bytes, whose beats 0 and 1 come back. -/
def cacheRead (bytes : Nat) (second : Option MemoryReadBeat) : List ReadCall :=
  let tag := MemoryReadId.instructionCache 0 7
  [.addCachePort .instruction ⟨2, 2, 1, 1⟩, .sendCacheCommand 0 ⟨0, tag, 0x2000, bytes⟩, .advanceInput 1, .takeCommand 2,
    .receive 3 fun port => if port = 0 then some ⟨tag, 0⟩ else second,
    .advanceReturns 4, .takeCacheReturn 5 .instruction 0, .takeCacheReturn 5 .instruction 0]

theorem cacheRead_runs : (runWhen OneBeat exec (new 8) (cacheRead 64 none)).isSome := by rfl

theorem credit_exact_one_beat :
    ((runWhen OneBeat exec (new 8) (cacheRead 64 none)).get cacheRead_runs).tallyAll .taken = 1 ∧
    ((runWhen OneBeat exec (new 8) (cacheRead 64 none)).get cacheRead_runs).outstanding = 0 :=
  ⟨by decide +kernel, (credit_exact (run_runWhen (Option.some_get cacheRead_runs).symm)).2.2.2 (by decide +kernel)⟩

def twoBeatRead : List ReadCall := cacheRead 256 (some ⟨.instructionCache 0 7, 1⟩)

theorem twoBeatRead_runs : (runWhen (fun _ _ => True) exec (new 8) twoBeatRead).isSome := by rfl

/-- A cache read of two beats releases its credit twice: the bus is idle, and the counter
    below 0. -/
theorem credit_wraps_two_beats : ∃ s, Run (stepWhen (fun _ _ => True) exec) (new 8) twoBeatRead s ∧
    s.isIdle = true ∧ s.tallyAll .taken = 1 ∧ s.tallyAll .released = 2 ∧ s.outstanding = 4294967295 :=
  ⟨_, run_runWhen (Option.some_get twoBeatRead_runs).symm, by decide +kernel, by decide +kernel, by decide +kernel,
    by decide +kernel⟩

end AscendEmulator.C220.Memory.BiuBusReads
