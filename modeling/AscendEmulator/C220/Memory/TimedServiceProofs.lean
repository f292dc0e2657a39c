/-
  AscendEmulator.C220.Memory.TimedServiceProofs — what the timed memory keeps (see
  `AscendEmulator.C220.Memory.TimedService`).

  `Valid` relates the memory to what its callers pushed: what waits, what is scheduled in groups and
  what was made ready add up to what was pushed, the counter counts what is scheduled, and a live
  write is in one queue. Each loop of an advance keeps it, whether it finishes, breaks or fails, and
  never panics; a `prepare` that finishes leaves nothing due behind (`Later`).
-/

import AscendEmulator.C220.Memory.TimedService

namespace AscendEmulator.C220.Memory.TimedService

open Lib BiuWrite TimedMemory

variable {l : Ledger} {m m' : TimedMemory} {tick : Nat} {tag : MemoryWriteId}

/-! ## The invariant -/

/-- The beats of an admitted read, with the tick they are due. -/
def expected (m : TimedMemory) (a : MemoryReadAdmission) : List (Nat × MemoryReadBeat) :=
  (TimedMemory.beatsOf a.request).map
    (Prod.mk (a.tick + (m.region (m.addressRegion a.request.address)).read.deterministicTicks))

/-- How often a tag waits, is scheduled or is ready on a channel. -/
def onChannel (m : TimedMemory) (waiting : List MemoryWriteId) (channel : Fin 2) (tag : MemoryWriteId) : Nat :=
  waiting.count tag + ((m.scheduled channel).flat.map Prod.snd).count tag + ((m.ready channel).map (·.tag)).count tag

/-- The counters. -/
structure Counted (m : TimedMemory) : Prop where
  pending : m.pending = m.scheduledReads.flat.length + (m.scheduled 1).flat.length
  small : m.pending < u32
  credits : ∀ i, m.credits i ≤ (pool m.config i).limit
  limit : m.config.pendingLimit ≤ 2 ^ 31

/-- The reads: what was pushed, admitted, scheduled and made ready. -/
structure ReadsKept (l : Ledger) (m : TimedMemory) : Prop where
  pushed : m.admitted.map (·.request) ++ m.reads = l.reads
  sizes : ∀ request ∈ m.reads, request.bytes < u32
  beats : ((m.prepared.map fun p => (p.1, p.2.beat)) ++ m.scheduledReads.flat).Perm (m.admitted.flatMap (expected m))
  due : ∀ p ∈ m.prepared, p.1 < p.2.readyTick
  ready : m.readyReads <:+ m.prepared.map Prod.snd

/-- The writes: what was pushed, scheduled and made ready. -/
structure WritesKept (l : Ledger) (m : TimedMemory) : Prop where
  commands : (m.accepted 0).map Prod.snd ++ m.commands.map (·.tag) = l.commands
  data : (m.accepted 1).map Prod.snd ++ m.data.map (·.tag) = l.data
  responses : ∀ c, (((m.responded c).map fun p => (p.1, p.2.tag)) ++ (m.scheduled c).flat).Perm (m.accepted c)
  due : ∀ c, ∀ p ∈ m.responded c, p.1 < p.2.readyTick
  ready : ∀ c, m.ready c <:+ (m.responded c).map Prod.snd

/-- A live write is where its caller knows it to be, and has a transaction once its command was accepted. -/
structure Staged (l : Ledger) (m : TimedMemory) : Prop where
  issued : ∀ tag, onChannel m (m.commands.map (·.tag)) 0 tag = if l.stages.get? tag = some .issued then 1 else 0
  supplied : ∀ tag, onChannel m (m.data.map (·.tag)) 1 tag = if l.stages.get? tag = some .supplied then 1 else 0
  known : ∀ tag, l.stages.get? tag ≠ none → (m.commands.map (·.tag)).count tag = 0 →
    ∃ transaction, m.transactions.get? tag = some transaction

structure Valid (l : Ledger) (m : TimedMemory) : Prop where
  counted : Counted m
  reads : ReadsKept l m
  writes : WritesKept l m
  staged : Staged l m
  epoch : m.creditEpoch ≤ l.clock / m.config.creditPeriod

/-! ## Groups -/

theorem count_extend (s : OrdMap Nat (List MemoryWriteId)) (due : Nat) (tag t : MemoryWriteId) :
    ((s.extend due [tag]).flat.map Prod.snd).count t = (s.flat.map Prod.snd).count t + if tag = t then 1 else 0 := by
  rw [((s.flat_extend due [tag]).map Prod.snd).count_eq, List.map_append, List.count_append]
  simp [List.count_singleton]

theorem length_extend {V : Type} (s : OrdMap Nat (List V)) (due : Nat) (g : List V) :
    (s.extend due g).flat.length = s.flat.length + g.length := by
  rw [(s.flat_extend due g).length_eq, List.length_append, List.length_map]

theorem length_first {V : Type} {s : OrdMap Nat (List V)} {due : Nat} {g : List V} {rest : List (Nat × List V)}
    (h : s.entries = (due, g) :: rest) : s.flat.length = g.length + (s.erase due).flat.length := by
  rw [OrdMap.flat_first h, List.length_append, List.length_map]

theorem count_first {s : OrdMap Nat (List MemoryWriteId)} {due : Nat} {g : List MemoryWriteId}
    {rest : List (Nat × List MemoryWriteId)} (h : s.entries = (due, g) :: rest) (t : MemoryWriteId) :
    (s.flat.map Prod.snd).count t = g.count t + ((s.erase due).flat.map Prod.snd).count t := by
  rw [OrdMap.flat_first h, List.map_append, List.count_append, List.map_map]
  simp [Function.comp_def]

/-! ## Accepting commands -/

theorem Valid.accepted {command : MemoryWriteCommand} {rest : List MemoryWriteCommand} {due : Nat}
    {transaction : Transaction} (h : Valid l m) (hq : m.commands = command :: rest) :
    Valid l { m.schedule 0 due command.tag with
      transactions := m.transactions.insert command.tag transaction
      commands := rest } := by
  obtain ⟨hc, hr, hw, hs, he⟩ := h
  refine ⟨{ hc with }, { hr with }, ?_, ?_, he⟩
  · refine { hw with commands := ?_, data := ?_, responses := fun c => ?_ }
    · rw [← hw.commands, hq]
      simp [schedule]
    · simp only [schedule, Function.update_of_ne (show (1 : Fin 2) ≠ 0 by decide)]
      exact hw.data
    · match c with
      | 0 =>
        have hperm := (hw.responses 0).append_right [(due, command.tag)]
        simp only [schedule, Function.update_self]
        refine List.Perm.trans ?_ hperm
        rw [List.append_assoc]
        exact ((m.scheduled 0).flat_extend due [command.tag]).append_left _
      | 1 =>
        simp only [schedule, Function.update_of_ne (show (1 : Fin 2) ≠ 0 by decide)]
        exact hw.responses 1
  · refine ⟨fun t => ?_, fun t => ?_, fun t ht hn => ?_⟩
    · have := hs.issued t
      simp only [onChannel, schedule, Function.update_self, count_extend, hq, List.map_cons, List.count_cons] at this ⊢
      simp only [beq_iff_eq] at this
      omega
    · have := hs.supplied t
      simp only [onChannel, schedule, Function.update_of_ne (show (1 : Fin 2) ≠ 0 by decide)] at this ⊢
      exact this
    · rw [OrdMap.get?_insert]
      by_cases htag : t = command.tag
      · exact ⟨transaction, if_pos htag⟩
      · rw [if_neg htag]
        refine hs.known t ht ?_
        rw [hq, List.map_cons, List.count_cons_of_ne (Ne.symm htag)]
        exact hn

theorem safe_acceptCommands (tick : Nat) (queue : List MemoryWriteCommand) (hq : m.commands = queue) (h : Valid l m) :
    ∃ r m', acceptCommands tick queue m = some (r, m') ∧ Valid l m' := by
  induction queue generalizing m with
  | nil => exact ⟨_, m, rfl, h⟩
  | cons command rest ih =>
    unfold acceptCommands
    split
    · exact ⟨_, m, rfl, h⟩
    · dsimp only
      split
      · exact ⟨_, m, rfl, h⟩
      · exact ih rfl (h.accepted hq)

/-! ## Preparing responses -/

theorem Valid.preparedReads {due readyTick : Nat} {beats : List MemoryReadBeat} {rest : List (Nat × List MemoryReadBeat)}
    (h : Valid l m) (hq : m.scheduledReads.entries = (due, beats) :: rest) (hdue : due < readyTick) :
    beats.length ≤ m.pending ∧ beats.length % u32 = beats.length ∧ Valid l { m with
      scheduledReads := m.scheduledReads.erase due
      pending := m.pending - beats.length % u32
      readyReads := m.readyReads ++ beats.map (⟨readyTick, ·⟩)
      prepared := m.prepared ++ beats.map fun beat => (due, ⟨readyTick, beat⟩) } := by
  obtain ⟨hc, hr, hw, hs, he⟩ := h
  have hlen := length_first hq
  have hpending := hc.pending
  have hsmall := hc.small
  have hmod : beats.length % u32 = beats.length := Nat.mod_eq_of_lt (by omega)
  refine ⟨by omega, hmod, ⟨?_, ?_, { hw with }, { hs with }, he⟩⟩
  · rw [hmod]
    refine { hc with pending := ?_, small := ?_ }
    · show m.pending - beats.length = (m.scheduledReads.erase due).flat.length + (m.scheduled 1).flat.length
      omega
    · show m.pending - beats.length < u32
      omega
  · refine { hr with beats := ?_, due := ?_, ready := ?_ }
    · have hbeats := hr.beats
      rw [OrdMap.flat_first hq] at hbeats
      refine List.Perm.trans (List.Perm.of_eq ?_) hbeats
      simp [List.map_append, List.append_assoc, Function.comp_def]
    · intro p hp
      rcases List.mem_append.mp hp with hp | hp
      · exact hr.due p hp
      · obtain ⟨beat, -, rfl⟩ := List.mem_map.mp hp
        exact hdue
    · obtain ⟨pre, hpre⟩ := hr.ready
      refine ⟨pre, ?_⟩
      rw [← List.append_assoc, hpre, List.map_append, List.map_map]
      rfl

theorem safe_prepareReads (tick : Nat) (groups : List (Nat × List MemoryReadBeat))
    (hq : m.scheduledReads.entries = groups) (h : Valid l m) :
    ∃ r m', prepareReads tick groups m = some (r, m') ∧ Valid l m' ∧
      (r = .ok () → ∀ e ∈ m'.scheduledReads.entries, tick < e.1) := by
  induction groups generalizing m with
  | nil => exact ⟨_, m, rfl, h, fun _ e he => by rw [hq] at he; cases he⟩
  | cons group rest ih =>
    obtain ⟨due, beats⟩ := group
    unfold prepareReads
    split
    · rename_i hlater
      refine ⟨_, m, rfl, h, fun _ e he => ?_⟩
      have hsorted := m.scheduledReads.sorted
      rw [hq] at he hsorted
      rcases List.mem_cons.mp he with rfl | he
      · exact hlater
      · exact lt_trans hlater ((List.pairwise_cons.mp hsorted).1 e he)
    · rename_i hdue
      split
      · exact ⟨_, m, rfl, h, fun hr => by cases hr⟩
      · rename_i readyTick hready
        obtain ⟨-, rfl⟩ := checkedAdd_eq_some.mp hready
        obtain ⟨hle, hmod, hv⟩ := h.preparedReads hq (show due < tick + 1 by omega)
        rw [if_neg (by omega)]
        exact ih (OrdMap.erase_first hq) hv

theorem Valid.preparedChannel {channel : Fin 2} {due readyTick : Nat} {tags : List MemoryWriteId}
    {rest : List (Nat × List MemoryWriteId)} (h : Valid l m) (hq : (m.scheduled channel).entries = (due, tags) :: rest)
    (hdue : due < readyTick) :
    (channel = 1 → tags.length ≤ m.pending ∧ tags.length % u32 = tags.length) ∧ Valid l { m with
      scheduled := Function.update m.scheduled channel ((m.scheduled channel).erase due)
      pending := if channel = 1 then m.pending - tags.length % u32 else m.pending
      ready := Function.update m.ready channel (m.ready channel ++ tags.map (⟨readyTick, ·⟩))
      responded := Function.update m.responded channel
        (m.responded channel ++ tags.map fun tag => (due, ⟨readyTick, tag⟩)) } := by
  obtain ⟨hc, hr, hw, hs, he⟩ := h
  have hlen := length_first hq
  have hpending := hc.pending
  have hsmall := hc.small
  have hpend : channel = 1 → tags.length ≤ m.pending ∧ tags.length % u32 = tags.length := by
    rintro rfl
    exact ⟨by omega, Nat.mod_eq_of_lt (by omega)⟩
  have hcount : ∀ waiting c t, onChannel { m with
      scheduled := Function.update m.scheduled channel ((m.scheduled channel).erase due)
      ready := Function.update m.ready channel (m.ready channel ++ tags.map (⟨readyTick, ·⟩)) } waiting c t =
        onChannel m waiting c t := by
    intro waiting c t
    by_cases hch : c = channel
    · subst hch
      have := count_first hq t
      simp only [onChannel, Function.update_self, List.map_append, List.map_map, List.count_append, Function.comp_def,
        List.map_id'] at this ⊢
      omega
    · simp only [onChannel, Function.update_of_ne hch]
  refine ⟨hpend, ⟨?_, { hr with }, ?_, ?_, he⟩⟩
  · match channel, hpend, hlen with
    | 0, _, _ => exact { hc with }
    | 1, hpend, hlen =>
      obtain ⟨hle, hmod⟩ := hpend rfl
      refine { hc with pending := ?_, small := ?_ }
      · simp only [if_true, hmod, Function.update_self]
        omega
      · simp only [if_true, hmod]
        omega
  · refine { hw with responses := fun c => ?_, due := fun c p hp => ?_, ready := fun c => ?_ }
    · by_cases hch : c = channel
      · subst hch
        have hresp := hw.responses c
        rw [OrdMap.flat_first hq] at hresp
        simp only [Function.update_self]
        refine List.Perm.trans (List.Perm.of_eq ?_) hresp
        simp [List.map_append, List.append_assoc, Function.comp_def]
      · simp only [Function.update_of_ne hch]
        exact hw.responses c
    · by_cases hch : c = channel
      · subst hch
        simp only [Function.update_self] at hp
        rcases List.mem_append.mp hp with hp | hp
        · exact hw.due c p hp
        · obtain ⟨tag, -, rfl⟩ := List.mem_map.mp hp
          exact hdue
      · simp only [Function.update_of_ne hch] at hp
        exact hw.due c p hp
    · by_cases hch : c = channel
      · subst hch
        obtain ⟨pre, hpre⟩ := hw.ready c
        simp only [Function.update_self]
        refine ⟨pre, ?_⟩
        rw [← List.append_assoc, hpre, List.map_append, List.map_map]
        rfl
      · simp only [Function.update_of_ne hch]
        exact hw.ready c
  · exact { hs with
      issued := fun t => (hcount _ 0 t).trans (hs.issued t)
      supplied := fun t => (hcount _ 1 t).trans (hs.supplied t) }

theorem safe_prepareChannel (tick : Nat) (channel : Fin 2) (groups : List (Nat × List MemoryWriteId))
    (hq : (m.scheduled channel).entries = groups) (h : Valid l m) :
    ∃ r m', prepareChannel tick channel groups m = some (r, m') ∧ Valid l m' ∧
      m'.scheduledReads = m.scheduledReads ∧ (∀ c, c ≠ channel → m'.scheduled c = m.scheduled c) ∧
      (r = .ok () → ∀ e ∈ (m'.scheduled channel).entries, tick < e.1) := by
  induction groups generalizing m with
  | nil => exact ⟨_, m, rfl, h, rfl, fun _ _ => rfl, fun _ e he => by rw [hq] at he; cases he⟩
  | cons group rest ih =>
    obtain ⟨due, tags⟩ := group
    unfold prepareChannel
    split
    · rename_i hlater
      refine ⟨_, m, rfl, h, rfl, fun _ _ => rfl, fun _ e he => ?_⟩
      have hsorted := (m.scheduled channel).sorted
      rw [hq] at he hsorted
      rcases List.mem_cons.mp he with rfl | he
      · exact hlater
      · exact lt_trans hlater ((List.pairwise_cons.mp hsorted).1 e he)
    · rename_i hdue
      split
      · exact ⟨_, m, rfl, h, rfl, fun _ _ => rfl, fun hr => by cases hr⟩
      · rename_i readyTick hready
        obtain ⟨-, rfl⟩ := checkedAdd_eq_some.mp hready
        obtain ⟨hpend, hv⟩ := h.preparedChannel hq (show due < tick + 1 by omega)
        rw [if_neg (by rintro ⟨hch, hlt⟩; have := hpend hch; omega)]
        obtain ⟨r, m', he, hv', hreads, hother, hlater⟩ := ih (by simp [OrdMap.erase_first hq]) hv
        refine ⟨r, m', he, hv', hreads, fun c hc => ?_, hlater⟩
        rw [hother c hc]
        exact Function.update_of_ne hc _ _

/-- Nothing due is left scheduled. -/
structure Later (tick : Nat) (m : TimedMemory) : Prop where
  reads : ∀ e ∈ m.scheduledReads.entries, tick < e.1
  writes : ∀ c, ∀ e ∈ (m.scheduled c).entries, tick < e.1

theorem safe_prepare (tick : Nat) (h : Valid l m) :
    ∃ r m', prepare tick m = some (r, m') ∧ Valid l m' ∧ (r = .ok () → Later tick m') := by
  unfold prepare ServiceCall.andThen
  obtain ⟨r₁, m₁, he₁, hv₁, hl₁⟩ := safe_prepareReads tick _ rfl h
  dsimp only
  rw [he₁]
  cases r₁ with
  | error e => exact ⟨_, _, rfl, hv₁, fun hr => by cases hr⟩
  | ok u =>
    obtain ⟨r₂, m₂, he₂, hv₂, hreads₂, hother₂, hl₂⟩ := safe_prepareChannel tick 0 _ rfl hv₁
    dsimp only
    rw [he₂]
    cases r₂ with
    | error e => exact ⟨_, _, rfl, hv₂, fun hr => by cases hr⟩
    | ok u =>
      obtain ⟨r₃, m₃, he₃, hv₃, hreads₃, hother₃, hl₃⟩ := safe_prepareChannel tick 1 _ rfl hv₂
      refine ⟨r₃, m₃, he₃, hv₃, fun hr => ⟨?_, fun c => ?_⟩⟩
      · rw [hreads₃, hreads₂]
        exact hl₁ rfl
      · match c with
        | 0 =>
          rw [hother₃ 0 (by decide)]
          exact hl₂ rfl
        | 1 => exact hl₃ hr

/-! ## Admitting reads and data -/

theorem Valid.admittedRead {request : MemoryReadCommand} {rest : List MemoryReadCommand} {due : Nat} (h : Valid l m)
    (hq : m.reads = request :: rest) (hroom : m.pending < m.config.pendingLimit)
    (hdue : due = tick + (m.region (m.addressRegion request.address)).read.deterministicTicks) :
    m.pending + beatCount request.bytes < u32 ∧ Valid l { m with
      scheduledReads := m.scheduledReads.extend due (TimedMemory.beatsOf request)
      pending := m.pending + beatCount request.bytes
      credits := Function.update m.credits (readPool (m.addressRegion request.address))
        (m.credits (readPool (m.addressRegion request.address)) - request.bytes)
      readAdmissions := m.readAdmissions ++ [⟨tick, request⟩]
      admitted := m.admitted ++ [⟨tick, request⟩]
      reads := rest } := by
  obtain ⟨hc, hr, hw, hs, he⟩ := h
  have hlimit := hc.limit
  have hpending := hc.pending
  have hbytes := hr.sizes request (hq ▸ List.mem_cons_self ..)
  have hfit : m.pending + beatCount request.bytes < u32 := by
    unfold beatCount u32 at *
    omega
  refine ⟨hfit, ⟨⟨?_, hfit, fun i => ?_, hlimit⟩, ?_, { hw with }, { hs with }, he⟩⟩
  · show m.pending + beatCount request.bytes = (m.scheduledReads.extend due _).flat.length + (m.scheduled 1).flat.length
    rw [length_extend, TimedMemory.beatsOf, List.length_map, List.length_range]
    omega
  · dsimp only
    by_cases hi : i = readPool (m.addressRegion request.address)
    · subst hi
      rw [Function.update_self]
      exact le_trans (Nat.sub_le _ _) (hc.credits _)
    · rw [Function.update_of_ne hi]
      exact hc.credits i
  · refine { hr with pushed := ?_, sizes := ?_, beats := ?_ }
    · rw [← hr.pushed, hq]
      simp
    · exact fun r hmem => hr.sizes r (hq ▸ List.mem_cons_of_mem _ hmem)
    · have hbeats := hr.beats.append_right (expected m ⟨tick, request⟩)
      have hexp : expected m ⟨tick, request⟩ = (TimedMemory.beatsOf request).map (Prod.mk due) := by rw [hdue, expected]
      dsimp only
      rw [List.flatMap_append, List.flatMap_singleton]
      refine List.Perm.trans ?_ hbeats
      rw [List.append_assoc, hexp]
      exact (m.scheduledReads.flat_extend due _).append_left _

theorem safe_admitReads (tick : Nat) (queue : List MemoryReadCommand) (hq : m.reads = queue) (h : Valid l m) :
    ∃ r m', admitReads tick queue m = some (r, m') ∧ Valid l m' := by
  induction queue generalizing m with
  | nil => exact ⟨_, m, rfl, h⟩
  | cons request rest ih =>
    unfold admitReads
    split
    · exact ⟨_, m, rfl, h⟩
    · rename_i hgo
      rw [not_or, not_le] at hgo
      dsimp only
      split
      · exact ⟨_, m, rfl, h⟩
      · split
        · exact ⟨_, m, rfl, h⟩
        · rename_i due hadd
          obtain ⟨hfit, hv⟩ := h.admittedRead hq hgo.1 (checkedAdd_eq_some.mp hadd).2
          rw [if_neg (not_le.mpr hfit)]
          exact ih rfl hv

/-- Data that waits has a transaction. -/
theorem Valid.transaction_of_data {data : MemoryWriteTransfer} {rest : List MemoryWriteTransfer} (h : Valid l m)
    (hq : m.data = data :: rest) : ∃ transaction, m.transactions.get? data.tag = some transaction := by
  have hsupplied := h.staged.supplied data.tag
  have hissued := h.staged.issued data.tag
  have hstage : l.stages.get? data.tag = some .supplied := by
    by_contra hne
    simp [onChannel, hq, hne] at hsupplied
  refine h.staged.known data.tag (by simp [hstage]) ?_
  simp only [hstage, onChannel, reduceCtorEq, Option.some.injEq, if_false] at hissued
  omega

theorem Valid.admittedData {data : MemoryWriteTransfer} {rest : List MemoryWriteTransfer} (h : Valid l m) (due : Nat)
    (transaction : Transaction) (hq : m.data = data :: rest)
    (hroom : m.pending < m.config.pendingLimit) :
    m.pending + 1 < u32 ∧ Valid l { m.schedule 1 due data.tag with
      credits := Function.update m.credits (writePool transaction.region)
        (m.credits (writePool transaction.region) - transaction.bytes)
      pending := m.pending + 1
      data := rest } := by
  obtain ⟨hc, hr, hw, hs, he⟩ := h
  have hlimit := hc.limit
  have hpending := hc.pending
  have hfit : m.pending + 1 < u32 := by
    unfold u32
    omega
  refine ⟨hfit, ⟨⟨?_, hfit, fun i => ?_, hlimit⟩, { hr with }, ?_, ?_, he⟩⟩
  · simp only [schedule, Function.update_self, length_extend, List.length_singleton]
    omega
  · dsimp only [schedule]
    by_cases hi : i = writePool transaction.region
    · subst hi
      rw [Function.update_self]
      exact le_trans (Nat.sub_le _ _) (hc.credits _)
    · rw [Function.update_of_ne hi]
      exact hc.credits i
  · refine { hw with commands := ?_, data := ?_, responses := fun c => ?_ }
    · simp only [schedule, Function.update_of_ne (show (0 : Fin 2) ≠ 1 by decide)]
      exact hw.commands
    · rw [← hw.data, hq]
      simp [schedule]
    · match c with
      | 0 =>
        simp only [schedule, Function.update_of_ne (show (0 : Fin 2) ≠ 1 by decide)]
        exact hw.responses 0
      | 1 =>
        have hperm := (hw.responses 1).append_right [(due, data.tag)]
        simp only [schedule, Function.update_self]
        refine List.Perm.trans ?_ hperm
        rw [List.append_assoc]
        exact ((m.scheduled 1).flat_extend due [data.tag]).append_left _
  · refine { hs with issued := fun t => ?_, supplied := fun t => ?_ }
    · have := hs.issued t
      simp only [onChannel, schedule, Function.update_of_ne (show (0 : Fin 2) ≠ 1 by decide)] at this ⊢
      exact this
    · have := hs.supplied t
      simp only [onChannel, schedule, Function.update_self, count_extend, hq, List.map_cons, List.count_cons] at this ⊢
      simp only [beq_iff_eq] at this
      omega

theorem safe_admitData (tick : Nat) (queue : List MemoryWriteTransfer) (hq : m.data = queue) (h : Valid l m) :
    ∃ r m', admitData tick queue m = some (r, m') ∧ Valid l m' := by
  induction queue generalizing m with
  | nil => exact ⟨_, m, rfl, h⟩
  | cons data rest ih =>
    unfold admitData
    split
    · exact ⟨_, m, rfl, h⟩
    · rename_i hgo
      rw [not_or, not_le] at hgo
      obtain ⟨transaction, ht⟩ := h.transaction_of_data hq
      rw [ht]
      dsimp only
      split
      · exact ⟨_, m, rfl, h⟩
      · split
        · exact ⟨_, m, rfl, h⟩
        · rename_i due hadd
          obtain ⟨hfit, hv⟩ := h.admittedData due transaction hq hgo.1
          rw [if_neg (not_le.mpr hfit)]
          exact ih rfl hv

/-! ## Advance -/

theorem Valid.refilled (h : Valid l m) (tick elapsed : Nat) :
    Valid { l with clock := tick } (refill { m with readAdmissions := [] } elapsed (tick / m.config.creditPeriod)) := by
  obtain ⟨hc, hr, hw, hs, he⟩ := h
  refine ⟨{ hc with credits := fun i => Nat.min_le_right _ _ }, { hr with }, { hw with }, { hs with }, le_refl _⟩

theorem safe_advance (h : Valid l m) (hclock : l.clock ≤ tick) :
    ∃ r m', advance tick m = some (r, m') ∧ Valid { l with clock := tick } m' ∧ (r = .ok () → Later tick m') := by
  have hepoch : m.creditEpoch ≤ tick / m.config.creditPeriod :=
    le_trans h.epoch (Nat.div_le_div_right hclock)
  have h₀ := h.refilled tick (tick / m.config.creditPeriod - m.creditEpoch)
  unfold advance
  rw [if_neg (not_lt.mpr hepoch)]
  unfold ServiceCall.andThen
  obtain ⟨r₁, m₁, he₁, hv₁⟩ := safe_acceptCommands tick _ rfl h₀
  dsimp only
  rw [he₁]
  cases r₁ with
  | error e => exact ⟨_, _, rfl, hv₁, fun hr => by cases hr⟩
  | ok u =>
    obtain ⟨r₂, m₂, he₂, hv₂, -⟩ := safe_prepare tick hv₁
    dsimp only
    rw [he₂]
    cases r₂ with
    | error e => exact ⟨_, _, rfl, hv₂, fun hr => by cases hr⟩
    | ok u =>
      obtain ⟨r₃, m₃, he₃, hv₃⟩ := safe_admitReads tick _ rfl hv₂
      dsimp only
      rw [he₃]
      cases r₃ with
      | error e => exact ⟨_, _, rfl, hv₃, fun hr => by cases hr⟩
      | ok u =>
        obtain ⟨r₄, m₄, he₄, hv₄⟩ := safe_admitData tick _ rfl hv₃
        dsimp only
        rw [he₄]
        cases r₄ with
        | error e => exact ⟨_, _, rfl, hv₄, fun hr => by cases hr⟩
        | ok u => exact safe_prepare tick hv₄

/-! ## Pushes and pops -/

theorem Valid.pushRead {request : MemoryReadCommand} {readyTick : Nat} (h : Valid l m) (hb : request.bytes < u32) :
    Valid { l with reads := l.reads ++ [{ request with readyTick }] }
      { m with reads := m.reads ++ [{ request with readyTick }] } := by
  obtain ⟨hc, hr, hw, hs, he⟩ := h
  refine ⟨{ hc with }, { hr with pushed := ?_, sizes := ?_ }, { hw with }, { hs with }, he⟩
  · rw [← List.append_assoc, hr.pushed]
  · intro r hmem
    rcases List.mem_append.mp hmem with hmem | hmem
    · exact hr.sizes r hmem
    · rw [List.mem_singleton.mp hmem]
      exact hb

theorem Valid.pushCommand {command : MemoryWriteCommand} {readyTick : Nat} (h : Valid l m)
    (hstage : l.stages.get? command.tag = none) :
    Valid { l with commands := l.commands ++ [command.tag], stages := l.stages.insert command.tag .issued }
      { m with commands := m.commands ++ [{ command with readyTick }] } := by
  obtain ⟨hc, hr, hw, hs, he⟩ := h
  refine ⟨{ hc with }, { hr with }, { hw with commands := ?_ }, ⟨fun t => ?_, fun t => ?_, fun t ht hn => ?_⟩, he⟩
  · simp only [List.map_append, List.map_singleton]
    rw [← List.append_assoc, hw.commands]
  · have := hs.issued t
    simp only [onChannel, List.map_append, List.map_singleton, List.count_append, List.count_singleton, beq_iff_eq,
      OrdMap.get?_insert] at this ⊢
    by_cases htag : t = command.tag
    · subst htag
      simp only [hstage, reduceCtorEq, if_true, if_false] at this ⊢
      omega
    · simp only [htag, Ne.symm htag, if_false] at this ⊢
      omega
  · refine (hs.supplied t).trans ?_
    rw [OrdMap.get?_insert]
    by_cases htag : t = command.tag
    · simp [htag, hstage]
    · simp [htag]
  · simp only [List.map_append, List.map_singleton, List.count_append, List.count_singleton, beq_iff_eq] at hn
    have htag : t ≠ command.tag := fun htag => by
      subst htag
      simp at hn
    simp only [OrdMap.get?_insert, htag, if_false] at ht
    exact hs.known t ht (by omega)

theorem Valid.pushData {data : MemoryWriteTransfer} {readyTick : Nat} (h : Valid l m)
    (hstage : l.stages.get? data.tag = some .granted) :
    Valid { l with data := l.data ++ [data.tag], stages := l.stages.insert data.tag .supplied }
      { m with data := m.data ++ [{ data with readyTick }] } := by
  obtain ⟨hc, hr, hw, hs, he⟩ := h
  refine ⟨{ hc with }, { hr with }, { hw with data := ?_ }, ⟨fun t => ?_, fun t => ?_, fun t ht hn => ?_⟩, he⟩
  · simp only [List.map_append, List.map_singleton]
    rw [← List.append_assoc, hw.data]
  · refine (hs.issued t).trans ?_
    rw [OrdMap.get?_insert]
    by_cases htag : t = data.tag
    · simp [htag, hstage]
    · simp [htag]
  · have := hs.supplied t
    simp only [onChannel, List.map_append, List.map_singleton, List.count_append, List.count_singleton, beq_iff_eq,
      OrdMap.get?_insert] at this ⊢
    by_cases htag : t = data.tag
    · subst htag
      simp only [hstage, reduceCtorEq, Option.some.injEq, if_true, if_false] at this ⊢
      omega
    · simp only [htag, Ne.symm htag, if_false] at this ⊢
      omega
  · refine hs.known t ?_ hn
    simp only [OrdMap.get?_insert] at ht
    by_cases htag : t = data.tag
    · rw [htag, hstage]
      exact Option.some_ne_none _
    · simpa [htag] using ht

theorem Valid.popRead {head : MemoryReadReturn} {rest : List MemoryReadReturn} (h : Valid l m)
    (hq : m.readyReads = head :: rest) : Valid l { m with readyReads := rest } := by
  obtain ⟨hc, hr, hw, hs, he⟩ := h
  refine ⟨{ hc with }, { hr with ready := ?_ }, { hw with }, { hs with }, he⟩
  have hsuffix := hr.ready
  rw [hq] at hsuffix
  exact (List.suffix_cons head rest).trans hsuffix

/-- A response left its channel. -/
theorem WritesKept.popped {channel : Fin 2} {response : MemoryWriteTransfer} {rest : List MemoryWriteTransfer}
    (h : WritesKept l m) (hq : m.ready channel = response :: rest) :
    WritesKept l { m with ready := Function.update m.ready channel rest } := by
  refine { h with ready := fun c => ?_ }
  by_cases hc : c = channel
  · subst hc
    have hsuffix := h.ready c
    rw [hq] at hsuffix
    simp only [Function.update_self]
    exact (List.suffix_cons response rest).trans hsuffix
  · simp only [Function.update_of_ne hc]
    exact h.ready c

theorem Valid.popDbid {response : MemoryWriteTransfer} {rest : List MemoryWriteTransfer} (h : Valid l m)
    (hq : m.ready 0 = response :: rest) :
    Valid { l with stages := l.stages.insert response.tag .granted }
      { m with ready := Function.update m.ready 0 rest } := by
  obtain ⟨hc, hr, hw, hs, he⟩ := h
  have hresponse := hs.issued response.tag
  simp only [onChannel, hq, List.map_cons, List.count_cons_self] at hresponse
  have hstage : l.stages.get? response.tag = some .issued := by
    by_contra hne
    simp [hne] at hresponse
  rw [if_pos hstage] at hresponse
  refine ⟨{ hc with }, { hr with }, { hw.popped hq with }, ⟨fun t => ?_, fun t => ?_, fun t ht hn => ?_⟩, he⟩
  · have := hs.issued t
    simp only [onChannel, hq, List.map_cons, List.count_cons, beq_iff_eq, Function.update_self, OrdMap.get?_insert]
      at this ⊢
    by_cases htag : t = response.tag
    · subst htag
      simp only [if_true, reduceCtorEq, Option.some.injEq, if_false]
      omega
    · simp only [htag, Ne.symm htag, if_false] at this ⊢
      omega
  · have := hs.supplied t
    simp only [onChannel, Function.update_of_ne (show (1 : Fin 2) ≠ 0 by decide), OrdMap.get?_insert] at this ⊢
    by_cases htag : t = response.tag
    · subst htag
      simpa [hstage] using this
    · simpa [htag] using this
  · by_cases htag : t = response.tag
    · rw [htag]
      exact hs.known _ (by rw [hstage]; exact Option.some_ne_none _) (by omega)
    · simp only [OrdMap.get?_insert, htag, if_false] at ht
      exact hs.known t ht hn

theorem Valid.popCompletion {response : MemoryWriteTransfer} {rest : List MemoryWriteTransfer} (h : Valid l m)
    (hq : m.ready 1 = response :: rest) :
    Valid { l with stages := l.stages.erase response.tag }
      { m with ready := Function.update m.ready 1 rest, transactions := m.transactions.erase response.tag } := by
  obtain ⟨hc, hr, hw, hs, he⟩ := h
  have hresponse := hs.supplied response.tag
  simp only [onChannel, hq, List.map_cons, List.count_cons_self] at hresponse
  have hstage : l.stages.get? response.tag = some .supplied := by
    by_contra hne
    simp [hne] at hresponse
  rw [if_pos hstage] at hresponse
  refine ⟨{ hc with }, { hr with }, { hw.popped hq with }, ⟨fun t => ?_, fun t => ?_, fun t ht hn => ?_⟩, he⟩
  · have := hs.issued t
    simp only [onChannel, Function.update_of_ne (show (0 : Fin 2) ≠ 1 by decide), OrdMap.get?_erase] at this ⊢
    by_cases htag : t = response.tag
    · subst htag
      simpa [hstage] using this
    · simpa [htag] using this
  · have := hs.supplied t
    simp only [onChannel, hq, List.map_cons, List.count_cons, beq_iff_eq, Function.update_self, OrdMap.get?_erase]
      at this ⊢
    by_cases htag : t = response.tag
    · subst htag
      simp only [if_true, reduceCtorEq, if_false]
      omega
    · simp only [htag, Ne.symm htag, if_false] at this ⊢
      omega
  · simp only [OrdMap.get?_erase] at ht ⊢
    by_cases htag : t = response.tag
    · simp [htag] at ht
    · simp only [htag, if_false] at ht ⊢
      exact hs.known t ht hn

/-! ## Runs -/

theorem Valid.recorded {op : ServiceOp} {r : Except TimedMemoryError Unit} (h : Valid l m) (ha : Allowed l op)
    (he : exec op m = some (r, m')) : Valid (l.record m op r) m' := by
  cases op with
  | pushRead tick request =>
    have he : TimedMemory.pushRead tick request m = (r, m') := Option.some.inj he
    unfold TimedMemory.pushRead at he
    split at he
    · cases he; exact h
    · rename_i readyTick hready
      obtain ⟨-, rfl⟩ := checkedAdd_eq_some.mp hready
      cases he
      exact h.pushRead ha
  | pushCommand tick command =>
    have he : TimedMemory.pushCommand tick command m = (r, m') := Option.some.inj he
    unfold TimedMemory.pushCommand at he
    split at he
    · cases he; exact h
    · cases he
      exact h.pushCommand ha
  | pushData tick data =>
    have he : TimedMemory.pushData tick data m = (r, m') := Option.some.inj he
    unfold TimedMemory.pushData at he
    split at he
    · cases he; exact h
    · cases he
      exact h.pushData ha
  | advance tick =>
    obtain ⟨r', m₁, he', hv, -⟩ := safe_advance h ha
    have he : advance tick m = some (r, m') := he
    rw [he'] at he
    cases he
    exact hv
  | popRead =>
    have he : TimedMemory.popRead m = some (r, m') := he
    unfold TimedMemory.popRead at he
    split at he
    · cases he
    · rename_i head rest hq
      cases he
      exact h.popRead hq
  | pop kind =>
    have he : TimedMemory.pop kind m = some (r, m') := he
    unfold TimedMemory.pop at he
    split at he
    · cases he
    · rename_i response rest hq
      cases he
      cases kind with
      | dbid =>
        have hrec : l.record m (.pop .dbid) (.ok ()) = { l with stages := l.stages.insert response.tag .granted } := by
          simp only [Ledger.record, popped, hq, List.head?_cons, Option.map_some, Option.elim_some]
        rw [hrec]
        exact h.popDbid hq
      | completion =>
        have hrec : l.record m (.pop .completion) (.ok ()) = { l with stages := l.stages.erase response.tag } := by
          simp only [Ledger.record, popped, hq, List.head?_cons, Option.map_some, Option.elim_some]
        rw [hrec]
        exact h.popCompletion hq

theorem valid_new {config : TimedMemoryConfig} {tick : Nat} (hlimit : config.pendingLimit ≤ 2 ^ 31)
    (h : TimedMemory.new config tick = .ok m) : Valid (.new tick) m := by
  unfold TimedMemory.new at h
  split at h
  · cases h
  · cases h
    refine ⟨⟨rfl, by show 0 < u32; decide, fun _ => le_refl _, hlimit⟩, ⟨rfl, by simp, List.Perm.refl _, by simp, List.suffix_rfl⟩,
      ⟨rfl, rfl, fun _ => List.Perm.refl _, by simp, fun _ => List.suffix_rfl⟩, ⟨fun _ => rfl, fun _ => rfl, ?_⟩, le_refl _⟩
    exact fun t ht => absurd rfl ht

def sampleConfig : TimedMemoryConfig where
  pendingLimit := 2
  creditPeriod := 16
  ddrCredits := ⟨512, 64⟩
  l2ReadCredits := ⟨512, 64⟩
  l2WriteCredits := ⟨512, 64⟩
  ddr := ⟨⟨4, 4⟩, ⟨2, 0⟩, ⟨8, 0⟩⟩
  l2 := ⟨⟨4, 4⟩, ⟨2, 0⟩, ⟨8, 0⟩⟩
  l2Start := 0x1000
  l2Bytes := 0x1000

/-- A read of three beats, a second read that waits for it, a write with its data, and a long jump. -/
def sampleCalls : List ServiceOp :=
  [.pushRead 0 ⟨0, .mte 1, 0x100, 300⟩, .pushRead 0 ⟨0, .mte 2, 0x200, 128⟩, .pushCommand 0 ⟨0, .mte 7, 0x1040, 64⟩,
    .advance 1, .advance 3, .pop .dbid, .pushData 4 ⟨0, .mte 7⟩, .advance 8, .popRead, .advance 1000, .advance 2000,
    .pop .completion]

def sampleMemory : TimedMemory :=
  { config := sampleConfig, credits := fun _ => 512, creditEpoch := 0, pending := 0, commands := [], data := []
    reads := [], readAdmissions := [], scheduledReads := .empty, readyReads := [], scheduled := fun _ => .empty
    ready := fun _ => [], transactions := .empty, admitted := [], accepted := fun _ => [], prepared := []
    responded := fun _ => [] }

theorem sampleMemory_new : TimedMemory.new sampleConfig 0 = .ok sampleMemory := by
  have hcredits : (fun i => (pool sampleConfig i).limit) = fun _ => 512 := by decide
  unfold TimedMemory.new
  rw [if_neg (by decide), hcredits]
  rfl

theorem sampleCalls_run :
    (runWhen (fun op s => Allowed s.1 op) step (.new 0, sampleMemory) sampleCalls).isSome := by decide +kernel

end AscendEmulator.C220.Memory.TimedService
