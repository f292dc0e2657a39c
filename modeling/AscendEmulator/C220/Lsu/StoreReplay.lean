/-
  AscendEmulator.C220.Lsu.StoreReplay — a store-buffer entry stands for the stores it has coalesced.

  `lineLog` gathers from a trace what was stored in a line since its entry was pushed, and the line merged into it,
  if any. In every reachable state an entry represents its log (`Tracks`): laid over a line, it is the stores
  replayed on the line; merged, it is the stores replayed on the line that was returned.
-/

import AscendEmulator.C220.Lsu.MissBuffer

namespace AscendEmulator.C220.Lsu

open Lib

/-! ## The log of a line -/

structure StoredBytes where
  request : Nat
  offset : Nat
  bytes : List UInt8
  deriving DecidableEq

/-- The stores of a line in the order they were accepted, and the first line merged into them. -/
structure LineLog where
  stores : List StoredBytes
  returned : Option (List UInt8)
  deriving DecidableEq

/-- The stores one by one. -/
def replay (stores : List StoredBytes) (line : List UInt8) : List UInt8 :=
  stores.foldl (fun line s => splice line s.offset s.bytes) line

def LineLog.append (log : Option LineLog) (s : StoredBytes) : LineLog :=
  match log with
  | none => ⟨[s], none⟩
  | some l => { l with stores := l.stores ++ [s] }

def logStep (key : LineKey) (log : Option LineLog) :
    BufferCall × Except (Fault BufferError) BufferReply → Option LineLog
  | (.store k request offset bytes _, .ok _) => if k = key then some (.append log ⟨request, offset, bytes⟩) else log
  | (.storeAtomic k request offset bytes _, .ok _) =>
    if k = key then some (.append log ⟨request, offset, bytes⟩) else log
  | (.mergeLine k bytes, .ok _) =>
    if k = key then log.map fun l => { l with returned := l.returned.or (some bytes) } else log
  | (.remove k, .ok _) => if k = key then none else log
  | (.completeUbWrite k _ _, .ok _) => if k = key then none else log
  | _ => log

def lineLog (key : LineKey) (trace : List (BufferCall × Except (Fault BufferError) BufferReply)) : Option LineLog :=
  trace.foldl (logStep key) none

/-! ## What the operations do to an entry -/

namespace StoreBuffer

variable {b b' : StoreBuffer} {key j : LineKey}

theorem insert_ok {request offset : Nat} {bytes : List UInt8} {cacheHit allowForbidden : Bool}
    (h : b.insert key request offset bytes cacheHit allowForbidden = .ok b') :
    offset + bytes.length ≤ b.config.lineBytes ∧ b'.config = b.config ∧
      b'.entry j = if j = key then some (coalesce request offset bytes ((b.entry key).getD (b.fresh cacheHit)))
        else b.entry j := by
  unfold insert at h
  split at h
  · cases h
  · split at h
    · split at h
      · cases h
      · cases h
        refine ⟨‹_›, rfl, ?_⟩
        show (b.entries.upsert key _ _).get? j = _
        rw [KeyedVec.get?_upsert]
        split
        · subst j; rfl
        · rfl
    · cases h

theorem mapEntries_entry {f : StoreEntry → StoreEntry} (hf : ∀ e, e.Ok b.config → (f e).Ok b.config) :
    (b.mapEntries f hf).entry j = (b.entry j).map f := KeyedVec.get?_mapValues

theorem modifyEntry_ok {f : StoreEntry → StoreEntry} {hf : ∀ e, e.Ok b.config → (f e).Ok b.config}
    (h : b.modifyEntry key f hf = .ok b') :
    b'.config = b.config ∧ b'.entry j = if j = key then (b.entry j).map f else b.entry j := by
  unfold modifyEntry at h
  split at h
  · cases h
  · cases h
    exact ⟨rfl, KeyedVec.get?_modify⟩

theorem modifyEntry_found {f : StoreEntry → StoreEntry} {hf : ∀ e, e.Ok b.config → (f e).Ok b.config} {e : StoreEntry}
    (he : b.entry key = some e) : ∃ b', b.modifyEntry key f hf = .ok b' := by
  unfold modifyEntry
  rw [he]
  exact ⟨_, rfl⟩

theorem mergeLine_ok {line : List UInt8} (h : b.mergeLine key line = .ok b') :
    line.length = b.config.lineBytes ∧ b'.config = b.config ∧
      b'.entry j = if j = key then (b.entry j).map (filled line) else b.entry j := by
  unfold mergeLine at h
  split at h
  · exact ⟨‹_›, modifyEntry_ok h⟩
  · cases h

theorem remove_entry : (b.remove key).entry j = if j = key then none else b.entry j := KeyedVec.get?_erase

theorem prepareUbWrite_ok {writeAllocate : Bool} {backing bytes : List UInt8}
    (h : b.prepareUbWrite key writeAllocate backing = .ok bytes) :
    backing.length = b.config.lineBytes ∧ ∃ e, b.entry key = some e ∧ bytes = overlay backing e.bytes e.valid := by
  unfold prepareUbWrite at h
  split at h
  · cases h
  · rename_i hlength
    split at h
    · cases h
    · rename_i e he
      split at h
      · cases h
      · split at h
        · cases h
        · unfold StoreEntry.writeValidBytes at h
          split at h
          · cases h
          · cases h
            exact ⟨not_not.mp hlength, e, he, rfl⟩

end StoreBuffer

/-! ## An entry represents its log -/

structure Represents (lineBytes : Nat) (l : LineLog) (e : StoreEntry) : Prop where
  requests : e.requests = l.stores.map (·.request)
  ranges : ∀ s ∈ l.stores, s.offset + s.bytes.length ≤ lineBytes
  pending : l.returned = none → ∀ line, line.length = lineBytes → overlay line e.bytes e.valid = replay l.stores line
  merged : ∀ line, l.returned = some line →
    line.length = lineBytes ∧ e.bytes = replay l.stores line ∧ ∀ v ∈ e.valid, v = true

def Tracks (lineBytes : Nat) : Option LineLog → Option StoreEntry → Prop
  | none, none => True
  | some l, some e => Represents lineBytes l e
  | _, _ => False

theorem length_replay {stores : List StoredBytes} {line : List UInt8}
    (h : ∀ s ∈ stores, s.offset + s.bytes.length ≤ line.length) : (replay stores line).length = line.length := by
  induction stores generalizing line with
  | nil => rfl
  | cons s rest ih =>
    have hs := length_splice (h s (by simp))
    show (replay rest (splice line s.offset s.bytes)).length = _
    rw [ih fun s' hs' => by rw [hs]; exact h s' (by simp [hs']), hs]

theorem replay_append (stores : List StoredBytes) (s : StoredBytes) (line : List UInt8) :
    replay (stores ++ [s]) line = splice (replay stores line) s.offset s.bytes := by
  simp [replay]

section Steps

variable {config : StoreConfig} {l : LineLog} {e : StoreEntry}

/-- The first store of an entry. -/
theorem represents_first (b : StoreBuffer) {s : StoredBytes} {cacheHit : Bool}
    (hrange : s.offset + s.bytes.length ≤ b.config.lineBytes) :
    Represents b.config.lineBytes ⟨[s], none⟩ (StoreBuffer.coalesce s.request s.offset s.bytes (b.fresh cacheHit)) where
  requests := rfl
  ranges := by simpa using hrange
  pending := by
    intro _ line hline
    show overlay line (splice _ _ _) (splice _ _ _) = splice line s.offset s.bytes
    rw [overlay_splice (by simp [StoreBuffer.fresh, hline]) (by simp [StoreBuffer.fresh, hline]) (by omega)]
    simp only [StoreBuffer.fresh]
    rw [← hline, overlay_nothing (by simp)]
  merged := nofun

/-- Another store: the newer bytes win. -/
theorem represents_append (hok : e.Ok config) (h : Represents config.lineBytes l e) {s : StoredBytes}
    (hrange : s.offset + s.bytes.length ≤ config.lineBytes) :
    Represents config.lineBytes { l with stores := l.stores ++ [s] }
      (StoreBuffer.coalesce s.request s.offset s.bytes e) where
  requests := by simp [StoreBuffer.coalesce, h.requests]
  ranges := by
    intro s' hs'
    rcases List.mem_append.mp hs' with hs' | hs'
    · exact h.ranges s' hs'
    · rw [List.mem_singleton.mp hs']
      exact hrange
  pending := by
    intro hreturned line hline
    have hbytes : e.bytes.length = line.length := hok.bytes.trans hline.symm
    have hvalid : e.valid.length = line.length := hok.valid.trans hline.symm
    show overlay line (splice _ _ _) (splice _ _ _) = replay (l.stores ++ [s]) line
    rw [overlay_splice hbytes hvalid (by omega), h.pending hreturned line hline, replay_append]
  merged := by
    intro line hline
    obtain ⟨hlength, hbytes, hvalid⟩ := h.merged line hline
    refine ⟨hlength, ?_, fun v hv => ?_⟩
    · show splice e.bytes _ _ = replay (l.stores ++ [s]) line
      rw [hbytes, replay_append]
    · simp only [StoreBuffer.coalesce, splice, List.mem_append] at hv
      rcases hv with (hv | hv) | hv
      · exact hvalid v (List.mem_of_mem_take hv)
      · exact List.eq_of_mem_replicate hv
      · exact hvalid v (List.mem_of_mem_drop hv)

/-- A merged line lies under the stores; a second one changes nothing. -/
theorem represents_filled (hok : e.Ok config) (h : Represents config.lineBytes l e) {line : List UInt8}
    (hline : line.length = config.lineBytes) :
    Represents config.lineBytes { l with returned := l.returned.or (some line) } (StoreBuffer.filled line e) where
  requests := h.requests
  ranges := h.ranges
  pending := by
    intro hreturned
    cases hl : l.returned <;> rw [hl] at hreturned <;> cases hreturned
  merged := by
    intro line' hline'
    have hbytes : e.bytes.length = line.length := hok.bytes.trans hline.symm
    have hvalid : e.valid.length = line.length := hok.valid.trans hline.symm
    have hall : ∀ v ∈ (StoreBuffer.filled line e).valid, v = true := fun v hv => List.eq_of_mem_replicate hv
    cases hl : l.returned with
    | none =>
      rw [hl] at hline'
      cases hline'
      exact ⟨hline, h.pending hl line hline, hall⟩
    | some _ =>
      rw [hl] at hline'
      cases hline'
      obtain ⟨hlength, hreplay, hvalid'⟩ := h.merged line' hl
      refine ⟨hlength, ?_, hall⟩
      show overlay line e.bytes e.valid = _
      rw [overlay_everything hbytes hvalid hvalid', hreplay]

/-- Changes that leave the bytes and the requests. -/
theorem represents_congr {lineBytes : Nat} (h : Represents lineBytes l e) {e' : StoreEntry}
    (hr : e'.requests = e.requests) (hb : e'.bytes = e.bytes) (hv : e'.valid = e.valid) : Represents lineBytes l e' where
  requests := hr.trans h.requests
  ranges := h.ranges
  pending := by rw [hb, hv]; exact h.pending
  merged := by rw [hb, hv]; exact h.merged

end Steps

/-! ## The acknowledgement of a write -/

section Completion

variable {s s' : Buffers} {key : LineKey} {writeAllocate : Bool} {backing : List UInt8}

theorem overlay_overlay {line values : List UInt8} {mask : List Bool} (hv : values.length = line.length)
    (hm : mask.length = line.length) : overlay (overlay line values mask) values mask = overlay line values mask := by
  have hlength := length_overlay hv hm
  refine List.ext_getElem? fun i => ?_
  rw [getElem?_overlay (hv.trans hlength.symm) (hm.trans hlength.symm), getElem?_overlay hv hm]
  split <;> rfl

theorem linkedLoads_eq {misses : MissBuffer} {line : List UInt8} (hline : line.length = misses.config.lineBytes) :
    linkedLoads misses key line = .ok (((misses.entry key).map (·.requests)).getD []) := by
  unfold linkedLoads MissBuffer.receiveLine
  rw [if_neg (not_not.mpr hline)]
  cases hentry : misses.entry key with
  | none => rfl
  | some e =>
    have hget : MissBuffer.entry ⟨misses.config, misses.entries.modify key fun e =>
        { e with data := line, state := .ready, forbidden := true }⟩ key =
          some { e with data := line, state := .ready, forbidden := true } := by
      show KeyedVec.get? _ key = _
      rw [KeyedVec.get?_modify, if_pos rfl, show misses.entries.get? key = some e from hentry]
      rfl
    simp only [Option.isNone_some, Bool.false_eq_true, if_false, hget]
    rfl

/-- The outcomes of an acknowledgement: an error that changes nothing, or the release of both entries. -/
theorem completeUbWrite_cases (key : LineKey) (writeAllocate : Bool) (backing : List UInt8) (s : Buffers) :
    (∃ e, completeUbWrite key writeAllocate backing s = (Outcome.fail e, s)) ∨
      ∃ e, s.1.entry key = some e ∧ backing.length = s.1.config.lineBytes ∧
        completeUbWrite key writeAllocate backing s =
          (.ok (⟨key, overlay backing e.bytes e.valid,
              e.requests.map .store ++ (((s.2.entry key).map (·.requests)).getD []).map .load⟩,
            overlay backing e.bytes e.valid),
          (completeUbWrite key writeAllocate backing s).2) ∧
        (∀ j, (completeUbWrite key writeAllocate backing s).2.1.entry j = if j = key then none else s.1.entry j) ∧
        (∀ j, (completeUbWrite key writeAllocate backing s).2.2.entry j = if j = key then none else s.2.entry j) ∧
        (completeUbWrite key writeAllocate backing s).2.1.config = s.1.config ∧
        (completeUbWrite key writeAllocate backing s).2.2.config = s.2.config := by
  unfold completeUbWrite
  split
  · exact .inl ⟨_, rfl⟩
  · rename_i hlengths
    obtain ⟨hbacking, hmisses⟩ := not_or.mp hlengths
    rw [not_not] at hbacking hmisses
    cases hprepare : s.1.prepareUbWrite key writeAllocate backing with
    | error e => exact .inl ⟨e, rfl⟩
    | ok bytes =>
      obtain ⟨-, e, he, rfl⟩ := StoreBuffer.prepareUbWrite_ok hprepare
      have hbytes : e.bytes.length = backing.length := (s.1.ok _ _ he).bytes.trans hbacking.symm
      have hvalid : e.valid.length = backing.length := (s.1.ok _ _ he).valid.trans hbacking.symm
      have hline := length_overlay hbytes hvalid
      cases hmerge : s.1.mergeLine key (overlay backing e.bytes e.valid) with
      | error err => exact .inl ⟨err, by simp only [hmerge]⟩
      | ok stores =>
        have hentry : stores.entry key = some (StoreBuffer.filled (overlay backing e.bytes e.valid) e) := by
          rw [(StoreBuffer.mergeLine_ok hmerge).2.2, if_pos rfl, he]
          rfl
        have hfilled : (StoreBuffer.filled (overlay backing e.bytes e.valid) e).bytes =
            overlay backing e.bytes e.valid := overlay_overlay hbytes hvalid
        have hloads : linkedLoads s.2 key (overlay backing e.bytes e.valid) =
            .ok (((s.2.entry key).map (·.requests)).getD []) :=
          linkedLoads_eq ((hline.trans hbacking).trans hmisses.symm)
        refine .inr ⟨e, he, hbacking, ?_⟩
        simp only [hmerge, hentry, hfilled, hloads]
        refine ⟨rfl, fun j => ?_, fun j => KeyedVec.get?_erase, (StoreBuffer.mergeLine_ok (j := key) hmerge).2.1, rfl⟩
        rw [StoreBuffer.remove_entry]
        split
        · rfl
        · rw [(StoreBuffer.mergeLine_ok hmerge).2.2, if_neg ‹_›]

end Completion

/-! ## Calls -/

/-- A load that fetches the line of an idle store entry sets it fetching. -/
theorem readAction_marks {miss : MissState} {store : Option StoreState} (h : (MissBuffer.readAction miss store).2.2 = true) :
    store = some .idle := by
  unfold MissBuffer.readAction at h
  split at h
  · cases h
  · split at h
    · cases h
    · cases h
    · rfl
    · cases h

/-- A new load of a line: its store entry, if it has one, may start to fetch; nothing else of the stores changes. -/
theorem push_cases (key : LineKey) (request : Nat) (s : Buffers) :
    (∃ e, MissBuffer.push key request s = (Outcome.fail e, s)) ∨
      ∃ action, (MissBuffer.push key request s).1 = .ok action ∧
        (MissBuffer.push key request s).2.2.config = s.2.config ∧
        ((MissBuffer.push key request s).2.1 = s.1 ∨
          s.1.setState key .fetching = .ok (MissBuffer.push key request s).2.1) := by
  unfold MissBuffer.push
  split
  · exact .inl ⟨_, rfl⟩
  · split
    · exact .inl ⟨_, rfl⟩
    · refine .inr ?_
      dsimp only
      split
      · rename_i hmarks
        obtain ⟨e, he, -⟩ := Option.map_eq_some_iff.mp (readAction_marks hmarks)
        obtain ⟨stores, hstores⟩ : ∃ b, s.1.setState key .fetching = .ok b := StoreBuffer.modifyEntry_found he
        rw [hstores]
        exact ⟨_, rfl, rfl, .inr rfl⟩
      · exact ⟨_, rfl, rfl, .inl rfl⟩

theorem tracks_map {lineBytes : Nat} {log : Option LineLog} {entry : Option StoreEntry} {f : StoreEntry → StoreEntry}
    (hf : ∀ e, (f e).requests = e.requests ∧ (f e).bytes = e.bytes ∧ (f e).valid = e.valid)
    (h : Tracks lineBytes log entry) : Tracks lineBytes log (entry.map f) := by
  cases entry with
  | none => exact h
  | some e =>
    cases log with
    | none => exact h
    | some l => exact represents_congr h (hf e).1 (hf e).2.1 (hf e).2.2

/-- Between two store buffers: each log goes on to one that the entry still represents. -/
structure Follows (b b' : StoreBuffer) (next : LineKey → Option LineLog → Option LineLog) : Prop where
  config : b'.config = b.config
  tracks : ∀ key log, Tracks b.config.lineBytes log (b.entry key) → Tracks b.config.lineBytes (next key log) (b'.entry key)

namespace StoreBuffer

variable {b b' : StoreBuffer} {k : LineKey}

theorem follows_modifyEntry {f : StoreEntry → StoreEntry} {hf : ∀ e, e.Ok b.config → (f e).Ok b.config}
    (h : b.modifyEntry k f hf = .ok b')
    (hkeep : ∀ e, (f e).requests = e.requests ∧ (f e).bytes = e.bytes ∧ (f e).valid = e.valid) : Follows b b' fun _ log => log where
  config := (modifyEntry_ok (j := k) h).1
  tracks key log ht := by
    rw [(modifyEntry_ok h).2]
    split
    · exact tracks_map hkeep ht
    · exact ht

theorem follows_mapEntries {f : StoreEntry → StoreEntry} {hf : ∀ e, e.Ok b.config → (f e).Ok b.config}
    (hkeep : ∀ e, (f e).requests = e.requests ∧ (f e).bytes = e.bytes ∧ (f e).valid = e.valid) :
    Follows b (b.mapEntries f hf) fun _ log => log where
  config := rfl
  tracks key log ht := by
    rw [mapEntries_entry]
    exact tracks_map hkeep ht

theorem follows_insert {request offset : Nat} {bytes : List UInt8} {cacheHit allowForbidden : Bool}
    (h : b.insert k request offset bytes cacheHit allowForbidden = .ok b') :
    Follows b b' fun key log => if k = key then some (.append log ⟨request, offset, bytes⟩) else log where
  config := (insert_ok (j := k) h).2.1
  tracks key log ht := by
    obtain ⟨hrange, -, hentry⟩ := insert_ok (j := key) h
    rw [hentry]
    by_cases hkey : key = k
    · subst hkey
      rw [if_pos rfl, if_pos rfl]
      match log, hb : b.entry key with
      | none, none => exact represents_first b hrange
      | some _, some _ =>
        rw [hb] at ht
        exact represents_append (b.ok _ _ hb) ht (s := ⟨request, offset, bytes⟩) hrange
      | none, some _ | some _, none => rw [hb] at ht; exact ht.elim
    · rw [if_neg hkey, if_neg (Ne.symm hkey)]
      exact ht

theorem follows_mergeLine {line : List UInt8} (h : b.mergeLine k line = .ok b') :
    Follows b b' fun key log =>
      if k = key then log.map fun l => { l with returned := l.returned.or (some line) } else log where
  config := (mergeLine_ok (j := k) h).2.1
  tracks key log ht := by
    obtain ⟨hline, -, hentry⟩ := mergeLine_ok (j := key) h
    rw [hentry]
    by_cases hkey : key = k
    · subst hkey
      rw [if_pos rfl, if_pos rfl]
      match log, hb : b.entry key with
      | none, none => trivial
      | some _, some _ =>
        rw [hb] at ht
        exact represents_filled (b.ok _ _ hb) ht hline
      | none, some _ | some _, none => rw [hb] at ht; exact ht.elim
    · rw [if_neg hkey, if_neg (Ne.symm hkey)]
      exact ht

/-- Where the entry of `k` is gone and the others stay. -/
theorem follows_remove (hconfig : b'.config = b.config)
    (h : ∀ j, b'.entry j = if j = k then none else b.entry j) :
    Follows b b' fun key log => if k = key then none else log where
  config := hconfig
  tracks key log ht := by
    rw [h]
    by_cases hkey : key = k
    · rw [if_pos hkey, if_pos hkey.symm]
      trivial
    · rw [if_neg hkey, if_neg (Ne.symm hkey)]
      exact ht

end StoreBuffer

/-- A call returns an error and changes nothing, or the entries follow the logs. -/
def Answers (c : BufferCall) (s : Buffers) (r : Except (Fault BufferError) BufferReply × Buffers) : Prop :=
  (∃ e, r = (Outcome.fail e, s)) ∨
    ∃ reply, r.1 = .ok reply ∧ r.2.2.config = s.2.config ∧
      Follows s.1 r.2.1 fun key log => logStep key log (c, .ok reply)

theorem answers_onStores {c : BufferCall} {f : StoreBuffer → Except StoreError StoreBuffer} {s : Buffers}
    (h : ∀ b', f s.1 = .ok b' → Follows s.1 b' fun key log => logStep key log (c, .ok .done)) :
    Answers c s (onStores f s) := by
  unfold onStores
  split
  · exact .inr ⟨.done, rfl, rfl, h _ ‹_›⟩
  · exact .inl ⟨_, rfl⟩

theorem answers_onMisses {c : BufferCall} {f : MissBuffer → Except MissError MissBuffer} {s : Buffers}
    (hconfig : ∀ b', f s.2 = .ok b' → b'.config = s.2.config) (hlog : ∀ key log, logStep key log (c, .ok .done) = log) :
    Answers c s (onMisses f s) := by
  unfold onMisses
  split
  · exact .inr ⟨.done, rfl, hconfig _ ‹_›, rfl, fun key log ht => by rw [hlog]; exact ht⟩
  · exact .inl ⟨_, rfl⟩

theorem receiveLine_config {b b' : MissBuffer} {key : LineKey} {data : List UInt8} (h : b.receiveLine key data = .ok b') :
    b'.config = b.config := by
  unfold MissBuffer.receiveLine at h
  split at h
  · cases h
  · split at h
    · cases h
    · cases h
      rfl

theorem exec_answers (c : BufferCall) (s : Buffers) : Answers c s (exec c s) := by
  unfold exec
  cases c with
  | store key request offset bytes cacheHit =>
    exact answers_onStores fun _ h => StoreBuffer.follows_insert h
  | storeAtomic key request offset bytes cacheHit =>
    exact answers_onStores fun _ h => StoreBuffer.follows_insert h
  | advanceTimeouts =>
    refine answers_onStores fun _ h => ?_
    cases h
    exact StoreBuffer.follows_mapEntries fun _ => ⟨rfl, rfl, rfl⟩
  | triggerIdleFlush =>
    refine answers_onStores fun _ h => ?_
    cases h
    refine StoreBuffer.follows_mapEntries fun e => ?_
    split <;> exact ⟨rfl, rfl, rfl⟩
  | setState key state =>
    exact answers_onStores fun _ h => StoreBuffer.follows_modifyEntry h fun _ => ⟨rfl, rfl, rfl⟩
  | setForbidden key forbidden =>
    exact answers_onStores fun _ h => StoreBuffer.follows_modifyEntry h fun _ => ⟨rfl, rfl, rfl⟩
  | mergeLine key bytes =>
    exact answers_onStores fun _ h => StoreBuffer.follows_mergeLine h
  | remove key =>
    refine answers_onStores fun _ h => ?_
    cases h
    exact StoreBuffer.follows_remove rfl fun _ => StoreBuffer.remove_entry
  | push key request =>
    show Answers _ s (_, _)
    rcases push_cases key request s with ⟨e, h⟩ | ⟨action, hok, hconfig, hstores⟩
    · rw [h]
      exact .inl ⟨_, rfl⟩
    · refine .inr ⟨.action action, by rw [hok]; rfl, hconfig, ?_⟩
      rcases hstores with hsame | hmarked
      · show Follows s.1 (MissBuffer.push key request s).2.1 _
        rw [hsame]
        exact ⟨rfl, fun _ _ ht => ht⟩
      · unfold StoreBuffer.setState at hmarked
        show Follows s.1 (MissBuffer.push key request s).2.1 fun _ log => log
        exact StoreBuffer.follows_modifyEntry hmarked fun _ => ⟨rfl, rfl, rfl⟩
  | receiveLine key data =>
    exact answers_onMisses (fun _ h => receiveLine_config h) fun _ _ => rfl
  | removeMiss key =>
    refine answers_onMisses (fun _ h => ?_) fun _ _ => rfl
    cases h
    rfl
  | completeUbWrite key writeAllocate backing =>
    show Answers _ s (_, _)
    rcases completeUbWrite_cases key writeAllocate backing s with ⟨e, h⟩ | ⟨e, -, -, hok, hstores, -, hconfig, hmisses⟩
    · rw [h]
      exact .inl ⟨_, rfl⟩
    · refine .inr ⟨_, by rw [hok]; rfl, hmisses, ?_⟩
      exact StoreBuffer.follows_remove hconfig hstores

theorem completeUbWrite_accepts {s : Buffers} {key : LineKey} {e : StoreEntry} {backing : List UInt8}
    (he : s.1.entry key = some e) (hmemory : key.memory = .ub) (hstate : e.state ≠ .idle)
    (hbacking : backing.length = s.1.config.lineBytes) (hlines : s.2.config.lineBytes = s.1.config.lineBytes) :
    ∃ r, (completeUbWrite key false backing s).1 = .ok r := by
  have hprepare : s.1.prepareUbWrite key false backing = .ok (overlay backing e.bytes e.valid) := by
    unfold StoreBuffer.prepareUbWrite StoreEntry.writeValidBytes
    rw [if_neg (not_not.mpr hbacking), he]
    dsimp only
    rw [if_neg (not_or.mpr ⟨not_not.mpr hmemory, hstate⟩), Bool.false_and, if_neg nofun,
      if_neg (not_not.mpr (hbacking.trans (s.1.ok _ _ he).bytes.symm))]
  have hline : (overlay backing e.bytes e.valid).length = s.1.config.lineBytes :=
    (length_overlay ((s.1.ok _ _ he).bytes.trans hbacking.symm) ((s.1.ok _ _ he).valid.trans hbacking.symm)).trans hbacking
  obtain ⟨stores, hmerge⟩ : ∃ b, s.1.mergeLine key (overlay backing e.bytes e.valid) = .ok b := by
    unfold StoreBuffer.mergeLine
    rw [dif_pos hline]
    exact StoreBuffer.modifyEntry_found he
  rcases completeUbWrite_cases key false backing s with ⟨err, h⟩ | ⟨_, -, -, hok, -⟩
  · unfold completeUbWrite MissBuffer.lineBytes at h
    rw [if_neg (not_or.mpr ⟨not_not.mpr hbacking, not_not.mpr hlines⟩), hprepare] at h
    simp only [hmerge] at h
    split at h
    · cases h
    · split at h <;> cases h
  · exact ⟨_, by rw [hok]⟩

/-! ## Runs -/

section Runs

variable {config : StoreConfig} {missConfig : MissConfig} {stores : StoreBuffer} {misses : MissBuffer} {s : Buffers}
  {t : List (BufferCall × Except (Fault BufferError) BufferReply)}

theorem logStep_error {key : LineKey} {log : Option LineLog} {c : BufferCall} {e : Fault BufferError} :
    logStep key log (c, .error e) = log := by
  cases c <;> rfl

/-- From new buffers: both configurations stay, and each entry represents its log. -/
theorem run_tracks (hstores : StoreBuffer.new config = .ok stores) (hmisses : MissBuffer.new missConfig = .ok misses)
    (h : Run (calls exec) (stores, misses) t s) :
    s.1.config = config ∧ s.2.config = missConfig ∧
      ∀ key, Tracks config.lineBytes (lineLog key t) (s.1.entry key) := by
  refine h.inv (I := fun t s => s.1.config = config ∧ s.2.config = missConfig ∧
    ∀ key, Tracks config.lineBytes (lineLog key t) (s.1.entry key)) ?_ ?_
  · unfold StoreBuffer.new at hstores
    unfold MissBuffer.new at hmisses
    split at hstores <;> cases hstores
    split at hmisses <;> cases hmisses
    exact ⟨rfl, rfl, fun _ => trivial⟩
  · rintro t s ⟨c, r⟩ s' ⟨hconfig, hmiss, htracks⟩ hstep
    have hlog (key : LineKey) : lineLog key (t ++ [(c, r)]) = logStep key (lineLog key t) (c, r) := by simp [lineLog]
    have hexec : exec c s = (r, s') := hstep
    rcases exec_answers c s with ⟨e, he⟩ | ⟨reply, hreply, hmiss', hfollows⟩
    · cases hexec.symm.trans he
      refine ⟨hconfig, hmiss, fun key => ?_⟩
      have hsame : logStep key (lineLog key t) (c, Outcome.fail e) = lineLog key t := logStep_error
      rw [hlog, hsame]
      exact htracks key
    · rw [hexec] at hreply hmiss' hfollows
      dsimp only at hreply hmiss' hfollows
      subst hreply
      refine ⟨hfollows.config.trans hconfig, hmiss'.trans hmiss, fun key => ?_⟩
      rw [hlog, ← hconfig]
      exact hfollows.tracks key _ (by rw [hconfig]; exact htracks key)

/-- The entry of a line stands for its stores. Laid over a line, or over the line merged into it, it is the stores
replayed one by one; the acknowledgement of its write replays them on the merged line, or else on the live one, and
completes them in order before the loads. A rejected call changes neither buffer. -/
theorem store_buffer_replays (hstores : StoreBuffer.new config = .ok stores)
    (hmisses : MissBuffer.new missConfig = .ok misses) (h : Run (calls exec) (stores, misses) t s) :
    (∀ key, (s.1.entry key).isSome = (lineLog key t).isSome) ∧
      (∀ key l e, lineLog key t = some l → s.1.entry key = some e →
        e.requests = l.stores.map (·.request) ∧
        (l.returned = none → ∀ line, line.length = config.lineBytes →
          e.writeValidBytes line = .ok (replay l.stores line)) ∧
        (∀ returned, l.returned = some returned →
          e.bytes = replay l.stores returned ∧ e.valid = List.replicate config.lineBytes true) ∧
        ∀ backing, key.memory = .ub → e.state ≠ .idle → backing.length = config.lineBytes →
          missConfig.lineBytes = config.lineBytes → ∃ r, (completeUbWrite key false backing s).1 = .ok r) ∧
      (∀ key writeAllocate backing completion backing' s',
        completeUbWrite key writeAllocate backing s = (.ok (completion, backing'), s') →
        ∃ l, lineLog key t = some l ∧ backing' = replay l.stores (l.returned.getD backing) ∧
          completion.key = key ∧ completion.line = backing' ∧
          completion.notifications = l.stores.map (.store ·.request) ++
            (((s.2.entry key).map (·.requests)).getD []).map .load ∧
          s'.1.entry key = none ∧ s'.2.entry key = none) ∧
      ∀ c r s', exec c s = (.error r, s') → r ≠ .panicked ∧ s' = s := by
  obtain ⟨hconfig, hmiss, htracks⟩ := run_tracks hstores hmisses h
  refine ⟨fun key => ?_, fun key l e hl he => ?_, fun key writeAllocate backing completion backing' s' hc => ?_,
    fun c r s' hc => ?_⟩
  · have ht := htracks key
    match hl : lineLog key t, he : s.1.entry key with
    | none, none | some _, some _ => rfl
    | none, some _ | some _, none => rw [hl, he] at ht; exact ht.elim
  · have ht := htracks key
    rw [hl, he] at ht
    have hok := s.1.ok _ _ he
    rw [hconfig] at hok
    refine ⟨ht.requests, fun hreturned line hline => ?_, fun returned hreturned => ?_, fun backing hm hs hb hlines => ?_⟩
    · unfold StoreEntry.writeValidBytes
      rw [if_neg (not_not.mpr (hline.trans hok.bytes.symm)), ht.pending hreturned line hline]
    · obtain ⟨-, hbytes, hvalid⟩ := ht.merged returned hreturned
      exact ⟨hbytes, List.eq_replicate_iff.mpr ⟨hok.valid, hvalid⟩⟩
    · exact completeUbWrite_accepts he hm hs (by rw [hconfig]; exact hb) (by rw [hconfig, hmiss]; exact hlines)
  · rcases completeUbWrite_cases key writeAllocate backing s with ⟨_, herror⟩ | ⟨e, he, hbacking, hok, hs, hm, -, -⟩
    · cases hc.symm.trans herror
    · rw [hconfig] at hbacking
      have ht := htracks key
      rw [he] at ht
      match hl : lineLog key t with
      | none => rw [hl] at ht; exact ht.elim
      | some l =>
        rw [hl] at ht
        rw [hc] at hok hs hm
        cases hok
        have hline : overlay backing e.bytes e.valid = replay l.stores (l.returned.getD backing) := by
          match hreturned : l.returned with
          | none => exact ht.pending hreturned backing hbacking
          | some returned =>
            obtain ⟨-, hbytes, hvalid⟩ := ht.merged returned hreturned
            have hentry := s.1.ok _ _ he
            rw [hconfig] at hentry
            exact (overlay_everything (hentry.bytes.trans hbacking.symm) (hentry.valid.trans hbacking.symm) hvalid).trans
              hbytes
        refine ⟨l, rfl, hline, rfl, rfl, ?_, (hs key).trans (if_pos rfl), (hm key).trans (if_pos rfl)⟩
        rw [ht.requests, List.map_map]
        rfl
  · rcases exec_answers c s with ⟨e, he⟩ | ⟨reply, hreply, -, -⟩
    · cases hc.symm.trans he
      exact ⟨nofun, rfl⟩
    · rw [hc] at hreply
      cases hreply

end Runs

def exampleKey : LineKey := ⟨0, .ub⟩

/-- Two stores that overlap, and a load that fetches the line. -/
def overlappingCalls : List BufferCall :=
  [.store exampleKey 4 0 [1, 2] false, .store exampleKey 5 1 [3, 4] false, .push exampleKey 6]

theorem store_buffer_replays_overlapping :
    ∃ l, lineLog exampleKey
        (runCalls exec (⟨⟨4, 1, 2, 0⟩, .empty, nofun⟩, ⟨⟨4, 1, 1⟩, .empty⟩) overlappingCalls).1 = some l ∧
      [1, 3, 4, 9] = replay l.stores (l.returned.getD [9, 9, 9, 9]) ∧
      [.store 4, .store 5, .load 6] = l.stores.map (Completion.store ·.request) ++ [.load 6] := by
  obtain ⟨l, hl, hline, -, -, hnotified, -⟩ :=
    (@store_buffer_replays ⟨4, 1, 2, 0⟩ ⟨4, 1, 1⟩ _ _ _ _ rfl rfl
      (run_runCalls exec (⟨⟨4, 1, 2, 0⟩, .empty, nofun⟩, ⟨⟨4, 1, 1⟩, .empty⟩) overlappingCalls)).2.2.1 exampleKey false
      [9, 9, 9, 9] ⟨exampleKey, [1, 3, 4, 9], [.store 4, .store 5, .load 6]⟩ [1, 3, 4, 9] _ rfl
  exact ⟨l, hl, hline, hnotified⟩

/-- A store of one byte of a line of two, and the line that its fetch returned. -/
def mergedCalls : List BufferCall :=
  [.store exampleKey 4 0 [7] false, .setState exampleKey .fetching, .mergeLine exampleKey [1, 1]]

/-- Where the live line was written after the merge, the acknowledgement puts the old byte back. -/
theorem acknowledgement_not_on_live_line :
    ¬ ∀ (config : StoreConfig) (missConfig : MissConfig) (stores : StoreBuffer) (misses : MissBuffer)
      (t : List (BufferCall × Except (Fault BufferError) BufferReply)) (s : Buffers),
      StoreBuffer.new config = .ok stores → MissBuffer.new missConfig = .ok misses →
      Run (calls exec) (stores, misses) t s →
      ∀ key l backing completion backing' s', lineLog key t = some l →
        completeUbWrite key false backing s = (.ok (completion, backing'), s') → backing' = replay l.stores backing := by
  intro hclaim
  have h := hclaim ⟨2, 1, 2, 0⟩ ⟨2, 1, 1⟩ ⟨⟨2, 1, 2, 0⟩, .empty, nofun⟩ ⟨⟨2, 1, 1⟩, .empty⟩ _ _ rfl rfl
    (run_runCalls exec _ mergedCalls) exampleKey ⟨[⟨4, 0, [7]⟩], some [1, 1]⟩ [2, 2]
    ⟨exampleKey, [7, 1], [.store 4]⟩ [7, 1] _ rfl rfl
  revert h
  decide

end AscendEmulator.C220.Lsu
