/-
  AscendEmulator.C220.Memory.UbServiceProofs — every request of a UB port is answered once, in order, after each of
  its blocks was granted its bank.

  `portLog` gathers from a trace what a port accepted and answered, and the grants of each head. `PortKept` ties the
  log to the queues: what was accepted was answered or still waits, in order, and the progress of a block is what its
  grants say (`Matches`).
-/

import AscendEmulator.Lib.Claims
import AscendEmulator.C220.Memory.UbService

namespace AscendEmulator.C220.Memory.UbService

open Lib

/-! ## One arbitration -/

section Grants

variable {tick : Nat} {port : UbServicePort} {requestId : Nat}

def granted (ds : List UbServiceDecision) : List UbServiceDecision := ds.filter (·.granted)

theorem granted_append (l r : List UbServiceDecision) : granted (l ++ r) = granted l ++ granted r := List.filter_append ..

/-- The second passes among the grants of a block. -/
def passesOf (ds : List UbServiceDecision) (index : Nat) : List Bool :=
  ((granted ds).filter (·.blockIndex == index)).map (·.secondGrant)

theorem passesOf_cons (d : UbServiceDecision) (ds : List UbServiceDecision) (index : Nat) :
    passesOf (d :: ds) index = if d.granted ∧ d.blockIndex = index then d.secondGrant :: passesOf ds index
      else passesOf ds index := by
  unfold passesOf granted
  cases hg : d.granted <;> by_cases hi : d.blockIndex = index <;> simp [hg, hi]

/-- A block before and after an arbitration in which it was granted `passes`. -/
def BlockServed (tick : Nat) (b b' : UbServiceBlock) (passes : List Bool) : Prop :=
  (passes = [] ∧ b' = b) ∨ ∃ second, b.progress.pendingGrant = some second ∧ passes = [second] ∧
    b' = { b with progress := b.progress.grant tick b.partialWrite }

theorem grantBlocks_claims {index mask : Nat} {blocks : List UbServiceBlock} :
    Claims mask ((granted (grantBlocks tick port requestId index mask blocks).2.2).map (·.bank))
      (grantBlocks tick port requestId index mask blocks).2.1 := by
  induction blocks generalizing index mask with
  | nil => exact .nil
  | cons b blocks ih =>
    unfold grantBlocks
    split
    · exact ih
    · dsimp only
      rw [and_bit_eq_zero]
      cases hfree : mask.testBit b.block.bank.id with
      | true => exact ih
      | false => exact (Claims.single hfree).append ih

theorem grantBlocks_decision {index mask : Nat} {blocks : List UbServiceBlock} {d : UbServiceDecision}
    (hd : d ∈ (grantBlocks tick port requestId index mask blocks).2.2) :
    d.port = port ∧ d.requestId = requestId ∧ index ≤ d.blockIndex ∧
      ∃ b, blocks[d.blockIndex - index]? = some b ∧ d.bank = b.block.bank.id := by
  induction blocks generalizing index mask with
  | nil => cases hd
  | cons b blocks ih =>
    have later {mask} (hd : d ∈ (grantBlocks tick port requestId (index + 1) mask blocks).2.2) :
        d.port = port ∧ d.requestId = requestId ∧ index ≤ d.blockIndex ∧
          ∃ b', (b :: blocks)[d.blockIndex - index]? = some b' ∧ d.bank = b'.block.bank.id := by
      obtain ⟨hport, hid, hindex, b', hb', hbank⟩ := ih hd
      refine ⟨hport, hid, by omega, b', ?_, hbank⟩
      rw [show d.blockIndex - index = d.blockIndex - (index + 1) + 1 by omega, List.getElem?_cons_succ]
      exact hb'
    unfold grantBlocks at hd
    split at hd
    · exact later hd
    · rcases List.mem_cons.mp hd with rfl | hd
      · exact ⟨rfl, rfl, le_refl _, b, by simp, rfl⟩
      · exact later hd

theorem length_grantBlocks {index mask : Nat} {blocks : List UbServiceBlock} :
    (grantBlocks tick port requestId index mask blocks).1.length = blocks.length := by
  induction blocks generalizing index mask with
  | nil => rfl
  | cons b blocks ih =>
    unfold grantBlocks
    split <;> simp [ih]

/-- No grant of a later block is one of an earlier. -/
theorem passesOf_later {index mask i : Nat} {blocks : List UbServiceBlock} (hi : i < index) :
    passesOf (grantBlocks tick port requestId index mask blocks).2.2 i = [] := by
  unfold passesOf granted
  rw [List.map_eq_nil_iff, List.filter_eq_nil_iff]
  intro d hd
  have := (grantBlocks_decision (List.mem_of_mem_filter hd)).2.2.1
  rw [beq_iff_eq]
  omega

theorem grantBlocks_at (tick : Nat) (port : UbServicePort) (requestId index mask : Nat) {i : Nat}
    {blocks : List UbServiceBlock} {b : UbServiceBlock} (hb : blocks[i]? = some b) :
    ∃ b', (grantBlocks tick port requestId index mask blocks).1[i]? = some b' ∧
      BlockServed tick b b' (passesOf (grantBlocks tick port requestId index mask blocks).2.2 (index + i)) := by
  induction blocks generalizing index mask i with
  | nil => cases hb
  | cons c blocks ih =>
    unfold grantBlocks
    cases i with
    | zero =>
      obtain rfl : c = b := by simpa using hb
      split
      · refine ⟨c, rfl, .inl ⟨passesOf_later (by omega), rfl⟩⟩
      · rename_i second hpending
        refine ⟨_, rfl, ?_⟩
        dsimp only
        generalize hr : grantBlocks tick port requestId (index + 1) _ blocks = r
        have hlater : passesOf r.2.2 index = [] := by
          rw [← hr]
          exact passesOf_later (by omega)
        rw [show index + 0 = index from rfl, passesOf_cons, hlater]
        cases hg : (mask &&& 1 <<< c.block.bank.id == 0) with
        | false => exact .inl ⟨rfl, rfl⟩
        | true => exact .inr ⟨second, hpending, if_pos ⟨rfl, rfl⟩, rfl⟩
    | succ i =>
      have hb : blocks[i]? = some b := by simpa using hb
      split
      · obtain ⟨b', hb', hserved⟩ := ih (index + 1) mask hb
        exact ⟨b', by simpa using hb', by rwa [show index + (i + 1) = index + 1 + i by omega]⟩
      · dsimp only
        obtain ⟨b', hb', hserved⟩ := ih (index + 1)
          (if mask &&& 1 <<< c.block.bank.id == 0 then mask ||| 1 <<< c.block.bank.id else mask) hb
        refine ⟨b', by simpa using hb', ?_⟩
        rw [show index + (i + 1) = index + 1 + i by omega, passesOf_cons,
          if_neg (by dsimp only; omega)]
        exact hserved

end Grants

/-- What an arbitration does at one port: nothing, or its head asks for its banks. -/
def Asked (tick : Nat) (blocked : Bool) (port : UbServicePort) (queue queue' : List UbServiceEntry)
    (ds : List UbServiceDecision) : Prop :=
  (ds = [] ∧ queue' = queue) ∨ ∃ entry rest mask, queue = entry :: rest ∧ blocked = false ∧
    queue' = { entry with blocks := (grantBlocks tick port entry.request.id 0 mask entry.blocks).1 } :: rest ∧
    ds = (grantBlocks tick port entry.request.id 0 mask entry.blocks).2.2

def decisionsOf (port : UbServicePort) (ds : List UbServiceDecision) : List UbServiceDecision :=
  ds.filter (·.port == port)

theorem decisionsOf_grantBlocks {tick requestId index mask : Nat} {p port : UbServicePort} {blocks : List UbServiceBlock} :
    decisionsOf port (grantBlocks tick p requestId index mask blocks).2.2 =
      if p = port then (grantBlocks tick p requestId index mask blocks).2.2 else [] := by
  unfold decisionsOf
  split
  · rename_i hp
    exact List.filter_eq_self.mpr fun d hd => by simp [(grantBlocks_decision hd).1, hp]
  · rename_i hp
    exact List.filter_eq_nil_iff.mpr fun d hd => by simp [(grantBlocks_decision hd).1, hp]

theorem grantPorts_claims {tick mask : Nat} {blocked : UbServicePort → Bool} {ports : List UbServicePort}
    {inputs : UbServicePort → List UbServiceEntry} :
    Claims mask ((granted (grantPorts tick blocked ports inputs mask).2.2).map (·.bank))
      (grantPorts tick blocked ports inputs mask).2.1 := by
  induction ports generalizing inputs mask with
  | nil => exact .nil
  | cons p ports ih =>
    unfold grantPorts
    split
    · exact ih
    · split
      · exact ih
      · dsimp only
        rw [granted_append, List.map_append]
        exact grantBlocks_claims.append ih

theorem grantPorts_other (tick mask : Nat) (blocked : UbServicePort → Bool) {ports : List UbServicePort}
    (inputs : UbServicePort → List UbServiceEntry) {port : UbServicePort} (h : port ∉ ports) :
    (grantPorts tick blocked ports inputs mask).1 port = inputs port ∧
      decisionsOf port (grantPorts tick blocked ports inputs mask).2.2 = [] := by
  induction ports generalizing inputs mask with
  | nil => exact ⟨rfl, rfl⟩
  | cons p ports ih =>
    obtain ⟨hne, hports⟩ : port ≠ p ∧ port ∉ ports := by simpa using h
    unfold grantPorts
    split
    · exact ih mask inputs hports
    · split
      · exact ih mask inputs hports
      · obtain ⟨hqueue, hds⟩ := ih _ (Function.update inputs p _) hports
        refine ⟨hqueue.trans (Function.update_of_ne hne _ _), ?_⟩
        show decisionsOf port (_ ++ _) = []
        rw [decisionsOf, List.filter_append]
        exact List.append_eq_nil_iff.mpr ⟨by
          rw [← decisionsOf, decisionsOf_grantBlocks, if_neg (Ne.symm hne)], hds⟩

theorem grantPorts_asked {tick : Nat} {blocked : UbServicePort → Bool} {ports : List UbServicePort} (mask : Nat)
    (inputs : UbServicePort → List UbServiceEntry) {port : UbServicePort} (hnodup : ports.Nodup) :
    Asked tick (blocked port) port (inputs port) ((grantPorts tick blocked ports inputs mask).1 port)
      (decisionsOf port (grantPorts tick blocked ports inputs mask).2.2) := by
  induction ports generalizing inputs mask with
  | nil => exact .inl ⟨rfl, rfl⟩
  | cons p ports ih =>
    obtain ⟨hp, hports⟩ := List.nodup_cons.mp hnodup
    unfold grantPorts
    split
    · exact ih mask inputs hports
    · rename_i entry queue hqueue
      split
      · exact ih mask inputs hports
      · rename_i hblocked
        dsimp only
        rw [decisionsOf, List.filter_append, ← decisionsOf, ← decisionsOf, decisionsOf_grantBlocks]
        by_cases hport : p = port
        · subst hport
          obtain ⟨hsame, hnone⟩ := grantPorts_other tick (grantBlocks tick p entry.request.id 0 mask entry.blocks).2.1 blocked
            (Function.update inputs p
              ({ entry with blocks := (grantBlocks tick p entry.request.id 0 mask entry.blocks).1 } :: queue)) hp
          rw [hnone, hsame, Function.update_self, if_pos rfl, List.append_nil]
          exact .inr ⟨entry, queue, mask, hqueue, Bool.not_eq_true _ ▸ hblocked, rfl, rfl⟩
        · rw [if_neg hport, List.nil_append]
          have hasked := ih (grantBlocks tick p entry.request.id 0 mask entry.blocks).2.1 (Function.update inputs p
            ({ entry with blocks := (grantBlocks tick p entry.request.id 0 mask entry.blocks).1 } :: queue)) hports
          rwa [Function.update_of_ne (Ne.symm hport)] at hasked

/-! ## The log of a port -/

/-- A grant: the tick, the block of the request, and whether it is the second pass. -/
structure Grant where
  tick : Nat
  block : Nat
  second : Bool
  deriving DecidableEq

/-- What a port accepted and answered, the grants of its head so far, and those of each request that completed. -/
structure PortLog where
  accepted : List UbServiceRequest
  answered : List UbServiceRequest
  grants : List Grant
  served : List (UbServiceRequest × List Grant)
  deriving DecidableEq

def grantsOf (tick : Nat) (ds : List UbServiceDecision) : List Grant :=
  (granted ds).map fun d => ⟨tick, d.blockIndex, d.secondGrant⟩

def answersOf (port : UbServicePort) (completed : List (UbServicePort × UbServiceResponse)) : List UbServiceResponse :=
  completed.filterMap fun c => if c.1 = port then some c.2 else none

/-- One cycle: the grants of the port are its head's, and go with the head when it completes. -/
def cycleStep (port : UbServicePort) (log : PortLog) (cycle : UbServiceCycle) : PortLog :=
  let grants := log.grants ++ grantsOf cycle.tick (decisionsOf port cycle.decisions)
  match answersOf port cycle.completed with
  | [] => { log with grants }
  | r :: _ => { log with grants := [], served := log.served ++ [(r.request, grants)] }

def logStep (port : UbServicePort) (log : PortLog) : UbCall × Except UbServiceError UbReply → PortLog
  | (.receive _ p request, .ok (.received true)) =>
    if p = port then { log with accepted := log.accepted ++ [request] } else log
  | (.takeResponse _ p, .ok (.response (some r))) =>
    if p = port then { log with answered := log.answered ++ [r.request] } else log
  | (_, .ok (.cycle cycle)) => cycleStep port log cycle
  | _ => log

def portLog (port : UbServicePort) (trace : List (UbCall × Except UbServiceError UbReply)) : PortLog :=
  trace.foldl (logStep port) ⟨[], [], [], []⟩

/-- The grants of one block: their ticks and passes. -/
def passes (grants : List Grant) (block : Nat) : List (Nat × Bool) :=
  (grants.filter (·.block == block)).map fun g => (g.tick, g.second)

/-- A block is granted once, and a partial write again more than `partialWriteTicks` later. -/
def GrantedOnce (partialWrite : Bool) (ps : List (Nat × Bool)) : Prop :=
  if partialWrite then ∃ first second, ps = [(first, false), (second, true)] ∧ first + partialWriteTicks < second
  else ∃ tick, ps = [(tick, false)]

/-- What the grants of a request that completed say of its blocks. -/
def Served (port : UbServicePort) (request : UbServiceRequest) (grants : List Grant) : Prop :=
  ∃ blocks, requestBlocks request = .ok blocks ∧ (∀ g ∈ grants, g.block < blocks.length) ∧
    ∀ i b, blocks[i]? = some b → GrantedOnce (isPartialWrite port b) (passes grants i)

/-! ## The progress of a block -/

/-- The progress of a block is what its grants say, after an arbitration at `last`. -/
def Matches (last : Option Nat) (partialWrite : Bool) (ps : List (Nat × Bool)) : BlockProgress → Prop
  | .waiting => ps = []
  | .readModifyWriteDelay first => partialWrite = true ∧ ps = [(first, false)]
  | .awaitingWriteGrant first =>
    partialWrite = true ∧ ps = [(first, false)] ∧ ∃ tick, last = some tick ∧ first + partialWriteTicks ≤ tick
  | .complete _ _ => GrantedOnce partialWrite ps

section Progress

variable {last : Option Nat} {tick : Nat} {partialWrite : Bool} {ps : List (Nat × Bool)} {p : BlockProgress}

theorem Matches.mono (hlast : ∀ t, last = some t → t ≤ tick) (h : Matches last partialWrite ps p) :
    Matches (some tick) partialWrite ps p := by
  cases p with
  | awaitingWriteGrant first =>
    obtain ⟨hpart, hps, t, ht, hdelay⟩ := h
    exact ⟨hpart, hps, tick, rfl, hdelay.trans (hlast t ht)⟩
  | _ => exact h

theorem Matches.grant {second : Bool} (hlast : ∀ t, last = some t → t < tick) (h : Matches last partialWrite ps p)
    (hpending : p.pendingGrant = some second) :
    Matches (some tick) partialWrite (ps ++ [(tick, second)]) (p.grant tick partialWrite) := by
  cases p with
  | waiting =>
    cases hpending
    obtain rfl : ps = [] := h
    cases partialWrite with
    | false => exact ⟨tick, rfl⟩
    | true => exact ⟨rfl, rfl⟩
  | awaitingWriteGrant first =>
    cases hpending
    obtain ⟨rfl, rfl, t, ht, hdelay⟩ := h
    exact ⟨first, tick, rfl, lt_of_le_of_lt hdelay (hlast t ht)⟩
  | readModifyWriteDelay => cases hpending
  | complete => cases hpending

theorem Matches.finishTick (h : Matches (some tick) partialWrite ps p) :
    Matches (some tick) partialWrite ps (p.finishTick tick) := by
  cases p with
  | readModifyWriteDelay first =>
    show Matches _ _ _ (if partialWriteTicks ≤ tick - first then _ else _)
    split
    · rename_i hdelay
      unfold partialWriteTicks at hdelay
      exact ⟨h.1, h.2, tick, rfl, by unfold partialWriteTicks; omega⟩
    · exact h
  | _ => exact h

theorem Matches.granted_once (h : Matches last partialWrite ps p) (hp : p.isComplete = true) :
    GrantedOnce partialWrite ps := by
  cases p with
  | complete => exact h
  | _ => cases hp

end Progress

/-! ## The queues of a port -/

def unserved (b : UbServiceBlock) : UbServiceBlock := { b with progress := .waiting }

/-- An entry that has been granted `grants`. -/
structure EntryServed (last : Option Nat) (port : UbServicePort) (grants : List Grant) (e : UbServiceEntry) : Prop where
  blocks : ∃ blocks, requestBlocks e.request = .ok blocks ∧ e.blocks.map unserved = blocks.map (newBlock port)
  inside : ∀ g ∈ grants, g.block < e.blocks.length
  progress : ∀ i b, e.blocks[i]? = some b → Matches last b.partialWrite (passes grants i) b.progress

/-- The grants are those of the head; the other entries wait for theirs. -/
def QueueServed (last : Option Nat) (port : UbServicePort) (grants : List Grant) : List UbServiceEntry → Prop
  | [] => grants = []
  | e :: rest => EntryServed last port grants e ∧ ∀ e' ∈ rest, EntryServed last port [] e'

section Entries

variable {last : Option Nat} {tick : Nat} {port : UbServicePort} {grants : List Grant} {e : UbServiceEntry}

theorem EntryServed.mono (hlast : ∀ t, last = some t → t ≤ tick) (h : EntryServed last port grants e) :
    EntryServed (some tick) port grants e :=
  ⟨h.blocks, h.inside, fun i b hb => (h.progress i b hb).mono hlast⟩

theorem entryServed_new {request : UbServiceRequest} {blocks : List UbBlock} {received ready : Nat}
    (h : requestBlocks request = .ok blocks) :
    EntryServed last port [] ⟨request, received, ready, blocks.map (newBlock port)⟩ where
  blocks := ⟨blocks, h, by rw [List.map_map]; rfl⟩
  inside := nofun
  progress := by
    intro i b hb
    rw [List.getElem?_map] at hb
    obtain ⟨c, -, rfl⟩ := Option.map_eq_some_iff.mp hb
    rfl

theorem passes_append (l r : List Grant) (i : Nat) : passes (l ++ r) i = passes l i ++ passes r i := by
  simp [passes]

theorem passes_grantsOf (ds : List UbServiceDecision) (i : Nat) :
    passes (grantsOf tick ds) i = (passesOf ds i).map fun second => (tick, second) := by
  simp [passes, grantsOf, passesOf, List.filter_map, Function.comp_def]

/-- A round of grants changes nothing but progress. -/
theorem map_unserved_grantBlocks {requestId mask : Nat} {blocks : List UbServiceBlock} :
    (grantBlocks tick port requestId 0 mask blocks).1.map unserved = blocks.map unserved := by
  refine List.ext_getElem? fun i => ?_
  rw [List.getElem?_map, List.getElem?_map]
  cases hb : blocks[i]? with
  | none =>
    rw [List.getElem?_eq_none (by rw [length_grantBlocks]; exact List.getElem?_eq_none_iff.mp hb)]
  | some b =>
    obtain ⟨b', hb', hserved⟩ := grantBlocks_at tick port requestId 0 mask hb
    rw [hb']
    rcases hserved with ⟨-, rfl⟩ | ⟨_, -, -, rfl⟩ <;> rfl

/-- One round of grants. -/
theorem EntryServed.grant {mask : Nat} (hlast : ∀ t, last = some t → t < tick) (h : EntryServed last port grants e) :
    EntryServed (some tick) port
      (grants ++ grantsOf tick (grantBlocks tick port e.request.id 0 mask e.blocks).2.2)
      { e with blocks := (grantBlocks tick port e.request.id 0 mask e.blocks).1 } where
  blocks := by
    obtain ⟨blocks, hblocks, hnew⟩ := h.blocks
    exact ⟨blocks, hblocks, map_unserved_grantBlocks.trans hnew⟩
  inside := by
    intro g hg
    show g.block < (grantBlocks tick port e.request.id 0 mask e.blocks).1.length
    rw [length_grantBlocks]
    rcases List.mem_append.mp hg with hg | hg
    · exact h.inside g hg
    · obtain ⟨d, hd, rfl⟩ := List.mem_map.mp hg
      obtain ⟨-, -, -, b, hb, -⟩ := grantBlocks_decision (List.mem_of_mem_filter hd)
      exact (List.getElem?_eq_some_iff.mp hb).1
  progress := by
    intro i b' hb'
    have hb' : (grantBlocks tick port e.request.id 0 mask e.blocks).1[i]? = some b' := hb'
    have hi : i < e.blocks.length := by
      have := (List.getElem?_eq_some_iff.mp hb').1
      rwa [length_grantBlocks] at this
    obtain ⟨b'', hb'', hserved⟩ := grantBlocks_at tick port e.request.id 0 mask (List.getElem?_eq_getElem hi)
    obtain rfl : b'' = b' := Option.some.inj (hb''.symm.trans hb')
    have hmatches := h.progress i _ (List.getElem?_eq_getElem hi)
    rw [passes_append, passes_grantsOf]
    rw [Nat.zero_add] at hserved
    rcases hserved with ⟨hnone, rfl⟩ | ⟨second, hpending, hone, rfl⟩
    · rw [hnone, List.map_nil, List.append_nil]
      exact hmatches.mono fun t ht => (hlast t ht).le
    · rw [hone]
      exact hmatches.grant hlast hpending

theorem EntryServed.finish (h : EntryServed (some tick) port grants e) :
    EntryServed (some tick) port grants { e with blocks := e.blocks.map (finishBlock tick) } where
  blocks := by
    obtain ⟨blocks, hblocks, hnew⟩ := h.blocks
    refine ⟨blocks, hblocks, Eq.trans ?_ hnew⟩
    rw [List.map_map]
    rfl
  inside := by
    intro g hg
    show g.block < (e.blocks.map (finishBlock tick)).length
    rw [List.length_map]
    exact h.inside g hg
  progress := by
    intro i b hb
    have hb : (e.blocks.map (finishBlock tick))[i]? = some b := hb
    rw [List.getElem?_map] at hb
    obtain ⟨c, hc, rfl⟩ := Option.map_eq_some_iff.mp hb
    exact (h.progress i c hc).finishTick

theorem EntryServed.served (h : EntryServed last port grants e) (hall : e.blocks.all (·.progress.isComplete) = true) :
    Served port e.request grants := by
  obtain ⟨blocks, hblocks, hnew⟩ := h.blocks
  have hlength : e.blocks.length = blocks.length := by simpa using congrArg List.length hnew
  refine ⟨blocks, hblocks, fun g hg => hlength ▸ h.inside g hg, fun i b hb => ?_⟩
  have hi : i < e.blocks.length := hlength ▸ (List.getElem?_eq_some_iff.mp hb).1
  have hsame : unserved e.blocks[i] = newBlock port b := by
    have hget := congrArg (·[i]?) hnew
    simpa [hb, List.getElem?_eq_getElem hi] using hget
  have hpart : e.blocks[i].partialWrite = isPartialWrite port b := congrArg UbServiceBlock.partialWrite hsame
  rw [← hpart]
  exact (h.progress i _ (List.getElem?_eq_getElem hi)).granted_once (List.all_eq_true.mp hall _ (List.getElem_mem hi))

end Entries

section Queues

variable {last : Option Nat} {tick : Nat} {blocked : Bool} {port : UbServicePort} {grants : List Grant}
  {queue queue' queue'' : List UbServiceEntry}

def requestsOf (queue : List UbServiceEntry) : List UbServiceRequest := queue.map (·.request)

theorem QueueServed.mono (hlast : ∀ t, last = some t → t ≤ tick) (h : QueueServed last port grants queue) :
    QueueServed (some tick) port grants queue := by
  cases queue with
  | nil => exact h
  | cons e rest => exact ⟨h.1.mono hlast, fun e' he' => (h.2 e' he').mono hlast⟩

theorem queueServed_waiting (h : ∀ e ∈ queue, EntryServed last port [] e) : QueueServed last port [] queue := by
  cases queue with
  | nil => rfl
  | cons e rest => exact ⟨h e (by simp), fun e' he' => h e' (by simp [he'])⟩

theorem QueueServed.entry {e : UbServiceEntry} (h : QueueServed last port grants queue) (he : e ∈ queue) :
    ∃ grants, EntryServed last port grants e := by
  cases queue with
  | nil => cases he
  | cons e₀ rest =>
    rcases List.mem_cons.mp he with rfl | he
    · exact ⟨grants, h.1⟩
    · exact ⟨[], h.2 e he⟩

theorem QueueServed.push {e : UbServiceEntry} (h : QueueServed last port grants queue)
    (he : EntryServed last port [] e) : QueueServed last port grants (queue ++ [e]) := by
  cases queue with
  | nil =>
    obtain rfl : grants = [] := h
    exact ⟨he, nofun⟩
  | cons e₀ rest =>
    refine ⟨h.1, fun e' he' => ?_⟩
    rcases List.mem_append.mp he' with he' | he'
    · exact h.2 e' he'
    · rw [List.mem_singleton.mp he']
      exact he

theorem QueueServed.asked {ds : List UbServiceDecision} (hlast : ∀ t, last = some t → t < tick)
    (h : QueueServed last port grants queue) (ha : Asked tick blocked port queue queue' ds) :
    QueueServed (some tick) port (grants ++ grantsOf tick ds) queue' ∧ requestsOf queue' = requestsOf queue ∧
      queue'.length = queue.length := by
  have hle : ∀ t, last = some t → t ≤ tick := fun t ht => (hlast t ht).le
  rcases ha with ⟨rfl, rfl⟩ | ⟨entry, rest, mask, rfl, -, rfl, rfl⟩
  · refine ⟨?_, rfl, rfl⟩
    show QueueServed _ _ (grants ++ []) _
    rw [List.append_nil]
    exact h.mono hle
  · exact ⟨⟨h.1.grant hlast, fun e' he' => (h.2 e' he').mono hle⟩, rfl, rfl⟩

/-- A head that completes leaves with its grants; another one keeps them. -/
theorem QueueServed.completed {answer : Option UbServiceResponse} (h : QueueServed (some tick) port grants queue')
    (hc : completeHead tick port queue' = (queue'', answer)) :
    queue''.length ≤ queue'.length ∧ match answer with
      | none => QueueServed (some tick) port grants queue'' ∧ requestsOf queue'' = requestsOf queue'
      | some r => Served port r.request grants ∧ QueueServed (some tick) port [] queue'' ∧
          requestsOf queue' = r.request :: requestsOf queue'' := by
  unfold completeHead at hc
  split at hc
  · cases hc
    exact ⟨le_refl _, h, rfl⟩
  · rename_i entry queue
    dsimp only at hc
    split at hc
    · rename_i hall
      cases hc
      exact ⟨by simp, h.1.finish.served hall, queueServed_waiting h.2, rfl⟩
    · cases hc
      exact ⟨le_refl _, ⟨h.1.finish, h.2⟩, rfl⟩

end Queues

/-! ## Calls -/

section Calls

variable {s s' : UbService} {tick : Nat} {port : UbServicePort}

theorem checkTime_ok (h : s.checkTime tick = .ok ()) {o : Nat} (ho : s.observedTick = some o) : o ≤ tick := by
  unfold checkTime at h
  rw [ho] at h
  dsimp only at h
  split at h
  · cases h
  · omega

theorem checkCallback_ok {last : Option Nat} {phase : String} (h : s.checkCallback tick last phase = .ok ()) :
    s.checkTime tick = .ok () ∧ last ≠ some tick := by
  unfold checkCallback at h
  split at h
  · cases h
  · split at h
    · cases h
    · exact ⟨‹_›, ‹_›⟩

theorem receive_cases (tick : Nat) (port : UbServicePort) (request : UbServiceRequest) (s : UbService) :
    (∃ e, receive tick port request s = (.error e, s)) ∨ receive tick port request s = (.ok false, s) ∨
      ∃ readyTick blocks, s.checkTime tick = .ok () ∧ s.canReceive tick port = true ∧
        requestBlocks request = .ok blocks ∧
        receive tick port request s = (.ok true,
          { s with
            inputs := Function.update s.inputs port
              (s.inputs port ++ [⟨request, tick, readyTick, blocks.map (newBlock port)⟩])
            receiveTicks := Function.update s.receiveTicks port (some tick)
            observedTick := some tick }) := by
  unfold receive
  split
  · exact .inl ⟨_, rfl⟩
  · split
    · exact .inl ⟨_, rfl⟩
    · split
      · exact .inr (.inl rfl)
      · rename_i hcan
        split
        · exact .inl ⟨_, rfl⟩
        · split
          · exact .inl ⟨_, rfl⟩
          · exact .inr (.inr ⟨_, _, ‹_›, by simpa using hcan, ‹_›, rfl⟩)

/-- What an arbitration that succeeds does. -/
structure Arbitrated (tick : Nat) (vector : UbVectorActivity) (s : UbService) (cycle : UbServiceCycle) (s' : UbService) :
    Prop where
  time : s.checkTime tick = .ok ()
  fresh : s.arbitrationTick ≠ some tick
  cycleTick : cycle.tick = tick
  arbitrationTick : s'.arbitrationTick = some tick
  observedTick : s'.observedTick = some tick
  transport : s'.transport = s.transport
  claims : Claims vector.bankMask ((granted cycle.decisions).map (·.bank)) cycle.bankMask
  ports : ∀ port, ∃ queue' answer,
    Asked tick ((port == .scalarWrite && (s.scalarUsesVectorPorts && vector.writePending)) ||
      (port == .scalarRead && (s.scalarUsesVectorPorts && vector.readPending))) port (s.inputs port) queue'
      (decisionsOf port cycle.decisions) ∧
    (s'.inputs port = queue' ∧ answer = none ∨ completeHead tick port queue' = (s'.inputs port, answer)) ∧
    s'.responses port = s.responses port ++ answer.toList ∧ answersOf port cycle.completed = answer.toList

theorem answersOf_filterMap (f : UbServicePort → Option UbServiceResponse) :
    answersOf port (UbServicePort.all.filterMap fun p => (f p).map fun r => (p, r)) = (f port).toList := by
  have hmerge : answersOf port (UbServicePort.all.filterMap fun p => (f p).map fun r => (p, r)) =
      UbServicePort.all.filterMap fun p => if p = port then f p else none := by
    unfold answersOf
    rw [List.filterMap_filterMap]
    congr 1
    funext p
    cases hp : f p <;> simp
  rw [hmerge]
  cases port <;> simp [UbServicePort.all, List.filterMap_cons] <;> split <;> simp_all

theorem all_nodup : UbServicePort.all.Nodup := by decide

theorem arbitrate_cases (tick : Nat) (vector : UbVectorActivity) (s : UbService) :
    (∃ e, arbitrate tick vector s = (.error e, s)) ∨
      ∃ cycle s', arbitrate tick vector s = (.ok cycle, s') ∧ Arbitrated tick vector s cycle s' := by
  unfold arbitrate
  split
  · exact .inl ⟨_, rfl⟩
  · rename_i hcheck
    obtain ⟨htime, hfresh⟩ := checkCallback_ok hcheck
    dsimp only
    split
    · split
      · exact .inl ⟨_, rfl⟩
      · refine .inr ⟨_, _, rfl, ⟨htime, hfresh, rfl, rfl, rfl, rfl, grantPorts_claims, fun port => ?_⟩⟩
        exact ⟨_, (completeHead tick port ((grantPorts tick _ UbServicePort.all s.inputs vector.bankMask).1 port)).2,
          grantPorts_asked _ _ all_nodup, .inr rfl, rfl, answersOf_filterMap fun p => (completeHead tick p _).2⟩
    · refine .inr ⟨_, _, rfl, ⟨htime, hfresh, rfl, rfl, rfl, rfl, .nil, fun port => ?_⟩⟩
      exact ⟨s.inputs port, none, .inl ⟨rfl, rfl⟩, .inl ⟨rfl, rfl⟩, (List.append_nil _).symm, rfl⟩

/-- The requests of a port that completed and are not answered yet, oldest first. -/
def outgoing (s : UbService) (port : UbServicePort) : List UbServiceRequest :=
  (s.transport port ++ s.responses port).map (·.request)

/-- What sending does: answers move on in order. -/
structure Sent (s s' : UbService) : Prop where
  inputs : s'.inputs = s.inputs
  arbitrationTick : s'.arbitrationTick = s.arbitrationTick
  outgoing : ∀ port, s'.outgoing port = s.outgoing port
  length : ∀ port, (s.transport port).length ≤ queueCapacity → (s'.transport port).length ≤ queueCapacity

theorem sendPorts_sent (readyTick : Nat) (ports : List UbServicePort) (s : UbService) :
    Sent s (sendPorts readyTick ports s).2 := by
  induction ports generalizing s with
  | nil => exact ⟨rfl, rfl, fun _ => rfl, fun _ h => h⟩
  | cons p ports ih =>
    unfold sendPorts
    split
    · exact ih s
    · rename_i response queue hresponses
      split
      · exact ⟨rfl, rfl, fun _ => rfl, fun _ h => h⟩
      · rename_i hfull
        refine ⟨(ih _).inputs, (ih _).arbitrationTick, fun port => ((ih _).outgoing port).trans ?_,
          fun port h => (ih _).length port ?_⟩
        · unfold UbService.outgoing
          by_cases hport : port = p
          · subst hport
            simp [hresponses]
          · simp [Function.update_of_ne hport]
        · dsimp only
          by_cases hport : port = p
          · subst hport
            rw [Function.update_self, List.length_append, List.length_singleton]
            omega
          · rwa [Function.update_of_ne hport]

theorem sendResponses_cases (tick : Nat) (s : UbService) :
    (∃ e, sendResponses tick s = (.error e, s)) ∨
      ∃ sent s', sendResponses tick s = (.ok sent, s') ∧ s.checkTime tick = .ok () ∧ s'.observedTick = some tick ∧
        Sent s s' := by
  unfold sendResponses
  split
  · exact .inl ⟨_, rfl⟩
  · rename_i hcheck
    have htime := (checkCallback_ok hcheck).1
    split
    · split
      · exact .inl ⟨_, rfl⟩
      · rename_i readyTick _
        have hsent := sendPorts_sent readyTick UbServicePort.all s
        exact .inr ⟨_, _, rfl, htime, rfl, hsent.inputs, hsent.arbitrationTick, hsent.outgoing, hsent.length⟩
    · exact .inr ⟨_, _, rfl, htime, rfl, rfl, rfl, fun _ => rfl, fun _ h => h⟩

theorem takeResponse_cases (tick : Nat) (port : UbServicePort) (s : UbService) :
    (∃ e, takeResponse tick port s = (.error e, s)) ∨
      (∃ s', takeResponse tick port s = (.ok none, s') ∧ (s' = s ∨
        s.checkTime tick = .ok () ∧ s' = { s with observedTick := some tick })) ∨
      ∃ response queue, s.checkTime tick = .ok () ∧ s.transport port = response :: queue ∧
        takeResponse tick port s = (.ok (some response),
          { s with
            transport := Function.update s.transport port queue
            responseTicks := Function.update s.responseTicks port (some tick)
            observedTick := some tick }) := by
  unfold takeResponse
  split
  · exact .inl ⟨_, rfl⟩
  · split
    · exact .inr (.inl ⟨_, rfl, .inl rfl⟩)
    · split
      · exact .inr (.inl ⟨_, rfl, .inr ⟨‹_›, rfl⟩⟩)
      · rename_i response queue hpop
        exact .inr (.inr ⟨response, queue, ‹_›, (popFrontIf_eq_some.mp hpop).1, rfl⟩)

theorem exec_error {c : UbCall} {e : UbServiceError} (h : exec c s = (.error e, s')) : s' = s := by
  cases c with
  | receive tick port request =>
    have h := reply_error h
    rcases receive_cases tick port request s with ⟨e', he⟩ | hf | ⟨_, _, -, -, -, hok⟩
    · cases h.symm.trans he; rfl
    · cases h.symm.trans hf
    · cases h.symm.trans hok
  | arbitrate tick vector =>
    have h := reply_error h
    rcases arbitrate_cases tick vector s with ⟨e', he⟩ | ⟨_, _, hok, -⟩
    · cases h.symm.trans he; rfl
    · cases h.symm.trans hok
  | sendResponses tick =>
    have h := reply_error h
    rcases sendResponses_cases tick s with ⟨e', he⟩ | ⟨_, _, hok, -⟩
    · cases h.symm.trans he; rfl
    · cases h.symm.trans hok
  | takeResponse tick port =>
    have h := reply_error h
    rcases takeResponse_cases tick port s with ⟨e', he⟩ | ⟨_, hnone, -⟩ | ⟨_, _, -, -, hok⟩
    · cases h.symm.trans he; rfl
    · cases h.symm.trans hnone
    · cases h.symm.trans hok
  | setScalarUsesVectorPorts => cases h

end Calls

/-! ## Runs -/

/-- The log of a port against its queues. -/
structure PortKept (port : UbServicePort) (log : PortLog) (s : UbService) : Prop where
  accepted : log.accepted = log.served.map Prod.fst ++ requestsOf (s.inputs port)
  answers : log.served.map Prod.fst = log.answered ++ s.outgoing port
  served : ∀ x ∈ log.served, Served port x.1 x.2
  head : QueueServed s.arbitrationTick port log.grants (s.inputs port)
  inputs : (s.inputs port).length ≤ queueCapacity
  transport : (s.transport port).length ≤ queueCapacity

/-- The clock is never behind the last arbitration. -/
def Timely (s : UbService) : Prop := ∀ t, s.arbitrationTick = some t → ∃ o, s.observedTick = some o ∧ t ≤ o

structure Kept (t : List (UbCall × Except UbServiceError UbReply)) (s : UbService) : Prop where
  ports : ∀ port, PortKept port (portLog port t) s
  timely : Timely s

section Steps

variable {s s' : UbService} {tick : Nat} {port : UbServicePort} {log : PortLog}

theorem portLog_snoc {t : List (UbCall × Except UbServiceError UbReply)} {x : UbCall × Except UbServiceError UbReply} :
    portLog port (t ++ [x]) = logStep port (portLog port t) x := by
  simp [portLog]

theorem Timely.observed (h : Timely s) (htime : s.checkTime tick = .ok ()) (ha : s'.arbitrationTick = s.arbitrationTick)
    (ho : s'.observedTick = some tick) : Timely s' := by
  intro t ht
  obtain ⟨o, hobserved, hle⟩ := h t (ha ▸ ht)
  exact ⟨tick, ho, hle.trans (checkTime_ok htime hobserved)⟩

theorem Timely.before (h : Timely s) (htime : s.checkTime tick = .ok ()) (hfresh : s.arbitrationTick ≠ some tick) {t : Nat}
    (ht : s.arbitrationTick = some t) : t < tick := by
  obtain ⟨o, hobserved, hle⟩ := h t ht
  have := checkTime_ok htime hobserved
  have hne : t ≠ tick := fun heq => hfresh (heq ▸ ht)
  omega

/-- Where the log and the queues of a port stay. -/
theorem PortKept.congr (h : PortKept port log s) (hi : s'.inputs port = s.inputs port)
    (ha : s'.arbitrationTick = s.arbitrationTick) (ho : s'.outgoing port = s.outgoing port)
    (hl : (s'.transport port).length ≤ queueCapacity) : PortKept port log s' where
  accepted := by rw [hi]; exact h.accepted
  answers := by rw [ho]; exact h.answers
  served := h.served
  head := by rw [hi, ha]; exact h.head
  inputs := by rw [hi]; exact h.inputs
  transport := hl

theorem PortKept.cycle {vector : UbVectorActivity} {cycle : UbServiceCycle} (h : PortKept port log s) (htimely : Timely s)
    (ha : Arbitrated tick vector s cycle s') : PortKept port (cycleStep port log cycle) s' := by
  obtain ⟨queue', answer, hasked, hqueue, hresponses, hanswers⟩ := ha.ports port
  obtain ⟨hhead, hrequests, hlength⟩ := h.head.asked (fun t ht => htimely.before ha.time ha.fresh ht) hasked
  have houtgoing : s'.outgoing port = s.outgoing port ++ answer.toList.map (·.request) := by
    unfold outgoing
    rw [ha.transport, hresponses]
    simp
  have hstay : queue'.length ≤ queueCapacity := hlength ▸ h.inputs
  have htransport : (s'.transport port).length ≤ queueCapacity := by
    rw [ha.transport]
    exact h.transport
  unfold cycleStep
  rw [hanswers, ha.cycleTick]
  cases answer with
  | none =>
    obtain ⟨hsame, hkept, hle⟩ : requestsOf (s'.inputs port) = requestsOf queue' ∧
        QueueServed (some tick) port (log.grants ++ grantsOf tick (decisionsOf port cycle.decisions)) (s'.inputs port) ∧
        (s'.inputs port).length ≤ queue'.length := by
      rcases hqueue with ⟨heq, -⟩ | hcompleted
      · rw [heq]
        exact ⟨rfl, hhead, le_refl _⟩
      · obtain ⟨hle, hkept, hsame⟩ := hhead.completed hcompleted
        exact ⟨hsame, hkept, hle⟩
    refine ⟨?_, ?_, h.served, by rw [ha.arbitrationTick]; exact hkept, hle.trans hstay, htransport⟩
    · rw [hsame, hrequests]
      exact h.accepted
    · rw [houtgoing]
      simpa using h.answers
  | some r =>
    rcases hqueue with ⟨-, hnone⟩ | hcompleted
    · cases hnone
    · obtain ⟨hle, hserved, hkept, hsplit⟩ := hhead.completed hcompleted
      refine ⟨?_, ?_, ?_, by rw [ha.arbitrationTick]; exact hkept, hle.trans hstay, htransport⟩
      · show log.accepted = (log.served ++ [_]).map Prod.fst ++ _
        rw [h.accepted, ← hrequests, hsplit]
        simp
      · show (log.served ++ [_]).map Prod.fst = log.answered ++ _
        rw [houtgoing, List.map_append, h.answers]
        simp
      · intro x hx
        rcases List.mem_append.mp hx with hx | hx
        · exact h.served x hx
        · rw [List.mem_singleton.mp hx]
          exact hserved

theorem Kept.received {t : List (UbCall × Except UbServiceError UbReply)} {p : UbServicePort} {request : UbServiceRequest}
    {accepted : Bool} (h : Kept t s) (hr : receive tick p request s = (.ok accepted, s')) :
    Kept (t ++ [(.receive tick p request, .ok (.received accepted))]) s' := by
  rcases receive_cases tick p request s with ⟨_, he⟩ | hf | ⟨readyTick, blocks, htime, hcan, hblocks, hok⟩
  · cases hr.symm.trans he
  · cases hr.symm.trans hf
    exact ⟨fun port => by rw [portLog_snoc]; exact h.ports port, h.timely⟩
  · cases hr.symm.trans hok
    refine ⟨fun port => ?_, h.timely.observed htime rfl rfl⟩
    have hport := h.ports port
    rw [portLog_snoc]
    show PortKept port (if p = port then _ else _) _
    by_cases hp : p = port
    · subst hp
      have hroom : (s.inputs p).length < queueCapacity := by
        unfold canReceive at hcan
        exact of_decide_eq_true (Bool.and_eq_true_iff.mp hcan).2
      rw [if_pos rfl]
      refine ⟨?_, hport.answers, hport.served, ?_, ?_, hport.transport⟩
      · show (portLog p t).accepted ++ [request] = _ ++ requestsOf (Function.update s.inputs p _ p)
        rw [Function.update_self, hport.accepted]
        simp [requestsOf]
      · show QueueServed _ _ _ (Function.update s.inputs p _ p)
        rw [Function.update_self]
        exact hport.head.push (entryServed_new hblocks)
      · show (Function.update s.inputs p _ p).length ≤ _
        rw [Function.update_self, List.length_append, List.length_singleton]
        omega
    · rw [if_neg hp]
      exact hport.congr (Function.update_of_ne (Ne.symm hp) _ _) rfl rfl hport.transport

theorem Kept.taken {t : List (UbCall × Except UbServiceError UbReply)} {p : UbServicePort}
    {answer : Option UbServiceResponse} (h : Kept t s) (hr : takeResponse tick p s = (.ok answer, s')) :
    Kept (t ++ [(.takeResponse tick p, .ok (.response answer))]) s' := by
  rcases takeResponse_cases tick p s with ⟨_, he⟩ | ⟨_, hnone, hs⟩ | ⟨response, queue, htime, hqueue, hok⟩
  · cases hr.symm.trans he
  · cases hr.symm.trans hnone
    rcases hs with rfl | ⟨htime, rfl⟩
    · exact ⟨fun port => by rw [portLog_snoc]; exact h.ports port, h.timely⟩
    · refine ⟨fun port => ?_, h.timely.observed htime rfl rfl⟩
      rw [portLog_snoc]
      exact (h.ports port).congr rfl rfl rfl (h.ports port).transport
  · cases hr.symm.trans hok
    refine ⟨fun port => ?_, h.timely.observed htime rfl rfl⟩
    have hport := h.ports port
    rw [portLog_snoc]
    show PortKept port (if p = port then _ else _) _
    by_cases hp : p = port
    · subst hp
      rw [if_pos rfl]
      refine ⟨hport.accepted, ?_, hport.served, hport.head, hport.inputs, ?_⟩
      · show _ = ((portLog p t).answered ++ [response.request]) ++
          (Function.update s.transport p queue p ++ s.responses p).map (·.request)
        rw [hport.answers, Function.update_self]
        simp [outgoing, hqueue]
      · have hlength := hport.transport
        rw [hqueue, List.length_cons] at hlength
        show (Function.update s.transport p queue p).length ≤ _
        rw [Function.update_self]
        omega
    · rw [if_neg hp]
      refine hport.congr rfl rfl ?_ ?_
      · show (Function.update s.transport p queue port ++ _).map _ = _
        rw [Function.update_of_ne (Ne.symm hp)]
        rfl
      · show (Function.update s.transport p queue port).length ≤ _
        rw [Function.update_of_ne (Ne.symm hp)]
        exact hport.transport

theorem logStep_error {c : UbCall} {e : UbServiceError} : logStep port log (c, .error e) = log := by
  cases c <;> rfl

theorem Kept.step {t : List (UbCall × Except UbServiceError UbReply)} {c : UbCall} {r : Except UbServiceError UbReply}
    (h : Kept t s) (hc : exec c s = (r, s')) : Kept (t ++ [(c, r)]) s' := by
  cases r with
  | error e =>
    rw [exec_error hc]
    exact ⟨fun port => by rw [portLog_snoc, logStep_error]; exact h.ports port, h.timely⟩
  | ok r =>
    cases c with
    | receive tick p request =>
      obtain ⟨accepted, hr, rfl⟩ := reply_ok hc
      exact h.received hr
    | arbitrate tick vector =>
      obtain ⟨cycle, hr, rfl⟩ := reply_ok hc
      rcases arbitrate_cases tick vector s with ⟨_, he⟩ | ⟨_, _, hok, ha⟩
      · cases hr.symm.trans he
      · cases hr.symm.trans hok
        refine ⟨fun port => by rw [portLog_snoc]; exact (h.ports port).cycle h.timely ha, fun t ht => ?_⟩
        exact ⟨tick, ha.observedTick, (Option.some.inj (ht.symm.trans ha.arbitrationTick)).le⟩
    | sendResponses tick =>
      obtain ⟨sent, hr, rfl⟩ := reply_ok hc
      rcases sendResponses_cases tick s with ⟨_, he⟩ | ⟨_, _, hok, htime, hobserved, hsent⟩
      · cases hr.symm.trans he
      · cases hr.symm.trans hok
        refine ⟨fun port => ?_, h.timely.observed htime hsent.arbitrationTick hobserved⟩
        rw [portLog_snoc]
        exact (h.ports port).congr (congrFun hsent.inputs port) hsent.arbitrationTick (hsent.outgoing port)
          (hsent.length port (h.ports port).transport)
    | takeResponse tick p =>
      obtain ⟨answer, hr, rfl⟩ := reply_ok hc
      exact h.taken hr
    | setScalarUsesVectorPorts shared =>
      cases hc
      refine ⟨fun port => ?_, h.timely⟩
      rw [portLog_snoc]
      exact (h.ports port).congr rfl rfl rfl (h.ports port).transport

end Steps

theorem run_kept {shared : Bool} {t : List (UbCall × Except UbServiceError UbReply)} {s : UbService}
    (h : Run (calls exec) (.new shared) t s) : Kept t s := by
  refine h.inv (I := Kept) ⟨fun port => ⟨rfl, rfl, nofun, rfl, Nat.zero_le _, Nat.zero_le _⟩, nofun⟩ ?_
  rintro t s ⟨c, r⟩ s' hk hc
  exact hk.step hc

/-! ## Results -/

/-- The blocks of a request tile its bytes, each in one line; the address of all ones has no blocks. -/
theorem requestBlocks_tiles {request : UbServiceRequest} {blocks : List UbBlock} (h : requestBlocks request = .ok blocks) :
    (∀ b ∈ blocks, b.address % bankBytes + b.bytes ≤ bankBytes) ∧
      if request.address = u64 - 1 then blocks = []
      else Tiles UbBlock.address UbBlock.bytes request.address blocks (request.address + request.bytes) := by
  unfold requestBlocks at h
  split at h
  · rename_i haddress
    cases h
    exact ⟨nofun, by rw [if_pos haddress]⟩
  · rename_i haddress
    unfold fromAccess at h
    split at h
    · cases h
    · rename_i stop hstop
      cases h
      obtain ⟨hfits, rfl⟩ := checkedAdd_eq_some.mp hstop
      refine ⟨fun b hb => splitBlocks_line hb, ?_⟩
      rw [if_neg haddress]
      exact splitBlocks_tiles hfits (Nat.le_add_right _ _) (by omega)

/-- In one arbitration no bank is granted twice, none that Vector has, and each decision is about a block of a head; a
scalar port that Vector blocks asks for nothing. -/
structure CycleExact (s : UbService) (vector : UbVectorActivity) (cycle : UbServiceCycle) : Prop where
  nodup : ((granted cycle.decisions).map (·.bank)).Nodup
  free : ∀ d ∈ granted cycle.decisions, vector.bankMask.testBit d.bank = false
  head : ∀ d ∈ cycle.decisions, ∃ e rest b, s.inputs d.port = e :: rest ∧ d.requestId = e.request.id ∧
    e.blocks[d.blockIndex]? = some b ∧ d.bank = b.block.bank.id
  scalarWrite : s.scalarUsesVectorPorts = true → vector.writePending = true → ∀ d ∈ cycle.decisions, d.port ≠ .scalarWrite
  scalarRead : s.scalarUsesVectorPorts = true → vector.readPending = true → ∀ d ∈ cycle.decisions, d.port ≠ .scalarRead

theorem Arbitrated.exact {tick : Nat} {vector : UbVectorActivity} {s s' : UbService} {cycle : UbServiceCycle}
    (h : Arbitrated tick vector s cycle s') : CycleExact s vector cycle := by
  have hhead (d : UbServiceDecision) (hd : d ∈ cycle.decisions) :
      ((d.port == .scalarWrite && (s.scalarUsesVectorPorts && vector.writePending)) ||
        (d.port == .scalarRead && (s.scalarUsesVectorPorts && vector.readPending))) = false ∧
      ∃ e rest b, s.inputs d.port = e :: rest ∧ d.requestId = e.request.id ∧
        e.blocks[d.blockIndex]? = some b ∧ d.bank = b.block.bank.id := by
    obtain ⟨_, _, hasked, -⟩ := h.ports d.port
    have hd' : d ∈ decisionsOf d.port cycle.decisions := List.mem_filter.mpr ⟨hd, beq_self_eq_true _⟩
    rcases hasked with ⟨hnone, -⟩ | ⟨e, rest, mask, hqueue, hblocked, -, hds⟩
    · rw [hnone] at hd'
      cases hd'
    · rw [hds] at hd'
      obtain ⟨-, hid, -, b, hb, hbank⟩ := grantBlocks_decision hd'
      exact ⟨hblocked, e, rest, b, hqueue, hid, hb, hbank⟩
  refine ⟨h.claims.nodup, fun d hd => h.claims.free _ (List.mem_map_of_mem hd), fun d hd => (hhead d hd).2,
    fun hshared hpending d hd hport => ?_, fun hshared hpending d hd hport => ?_⟩
  · have hblocked := (hhead d hd).1
    rw [hport, hshared, hpending] at hblocked
    cases hblocked
  · have hblocked := (hhead d hd).1
    rw [hport, hshared, hpending] at hblocked
    cases hblocked

/-- In every run: each port answers what it accepted, once and in order; a request is answered after each of its blocks
was granted once, a partial write twice with the delay in between; the blocks tile the request, and no bank goes twice
in a cycle. A call that fails or refuses changes nothing. -/
theorem ub_service_exact {shared : Bool} {t : List (UbCall × Except UbServiceError UbReply)} {s : UbService}
    (h : Run (calls exec) (.new shared) t s) :
    (∀ port,
      (portLog port t).accepted = (portLog port t).answered ++ s.outgoing port ++ requestsOf (s.inputs port) ∧
      (s.inputs port).length ≤ queueCapacity ∧ (s.transport port).length ≤ queueCapacity ∧
      (portLog port t).served.map Prod.fst = (portLog port t).answered ++ s.outgoing port ∧
      (∀ x ∈ (portLog port t).served, Served port x.1 x.2) ∧
      ∀ request ∈ (portLog port t).accepted, ∃ blocks, requestBlocks request = .ok blocks ∧
        (∀ b ∈ blocks, b.address % bankBytes + b.bytes ≤ bankBytes) ∧
        if request.address = u64 - 1 then blocks = []
        else Tiles UbBlock.address UbBlock.bytes request.address blocks (request.address + request.bytes)) ∧
      (∀ tick vector cycle s', arbitrate tick vector s = (.ok cycle, s') → CycleExact s vector cycle) ∧
      (∀ c e s', exec c s = (.error e, s') → s' = s) ∧
      ∀ tick port request s', receive tick port request s = (.ok false, s') → s' = s := by
  have hkept := run_kept h
  refine ⟨fun port => ?_, fun tick vector cycle s' hc => ?_, fun c e s' hc => exec_error hc,
    fun tick port request s' hc => ?_⟩
  · have hport := hkept.ports port
    refine ⟨by rw [hport.accepted, hport.answers], hport.inputs, hport.transport, hport.answers, hport.served,
      fun request hrequest => ?_⟩
    obtain ⟨blocks, hblocks⟩ : ∃ blocks, requestBlocks request = .ok blocks := by
      rw [hport.accepted] at hrequest
      rcases List.mem_append.mp hrequest with hserved | hwaiting
      · obtain ⟨x, hx, rfl⟩ := List.mem_map.mp hserved
        obtain ⟨blocks, hblocks, -⟩ := hport.served x hx
        exact ⟨blocks, hblocks⟩
      · obtain ⟨e, he, rfl⟩ := List.mem_map.mp hwaiting
        obtain ⟨_, hentry⟩ := hport.head.entry he
        obtain ⟨blocks, hblocks, -⟩ := hentry.blocks
        exact ⟨blocks, hblocks⟩
    exact ⟨blocks, hblocks, requestBlocks_tiles hblocks⟩
  · rcases arbitrate_cases tick vector s with ⟨_, he⟩ | ⟨_, _, hok, ha⟩
    · cases hc.symm.trans he
    · cases hc.symm.trans hok
      exact ha.exact
  · rcases receive_cases tick port request s with ⟨_, he⟩ | hf | ⟨_, _, -, -, -, hok⟩
    · cases hc.symm.trans he
    · cases hc.symm.trans hf
      rfl
    · cases hc.symm.trans hok

/-- A write of two bytes over a line boundary, and a read of a bank that it has. -/
def sampleCalls : List UbCall :=
  [.receive 0 .mteWrite0 ⟨7, 31, 2⟩, .receive 0 .mteRead ⟨7, 0, 32⟩, .arbitrate 1 ⟨0, false, false, false⟩,
    .arbitrate 7 ⟨1, false, false, false⟩, .arbitrate 8 ⟨0, false, false, false⟩, .sendResponses 11,
    .takeResponse 12 .mteWrite0]

theorem ub_service_exact_sample :
    (portLog .mteWrite0 (runCalls exec (.new false) sampleCalls).1).answered = [⟨7, 31, 2⟩] ∧
      Served .mteWrite0 ⟨7, 31, 2⟩ [⟨1, 0, false⟩, ⟨1, 1, false⟩, ⟨8, 0, true⟩, ⟨8, 1, true⟩] :=
  ⟨by decide +kernel,
    ((ub_service_exact (run_runCalls exec (.new false) sampleCalls)).1 .mteWrite0).2.2.2.2.1 (⟨7, 31, 2⟩, _)
      (by decide +kernel)⟩

/-- A request at the address of all ones is accepted without blocks, also where it has bytes. -/
theorem all_ones_not_tiled :
    ¬ ∀ (shared : Bool) (t : List (UbCall × Except UbServiceError UbReply)) (s : UbService),
      Run (calls exec) (.new shared) t s → ∀ port, ∀ request ∈ (portLog port t).accepted,
        ∃ blocks, requestBlocks request = .ok blocks ∧
          Tiles UbBlock.address UbBlock.bytes request.address blocks (request.address + request.bytes) := by
  intro hclaim
  obtain ⟨blocks, hblocks, htiles⟩ := hclaim false _ _
    (run_runCalls exec (.new false) [.receive 0 .scalarRead ⟨0, u64 - 1, 1⟩]) .scalarRead ⟨0, u64 - 1, 1⟩
    (by decide +kernel)
  cases hblocks
  have hend : u64 - 1 = u64 - 1 + 1 := htiles
  omega

end AscendEmulator.C220.Memory.UbService
