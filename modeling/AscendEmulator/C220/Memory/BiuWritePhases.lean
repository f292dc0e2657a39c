/-
  AscendEmulator.C220.Memory.BiuWritePhases — the way of a transaction through the write route (see
  `AscendEmulator.C220.Memory.BiuWrite`).

  The moves that the callers of a run see lead every tag from no transaction to its present phase
  (`Shows.walks`), so a command is sent once for each admission, its data once, and its completion
  goes once to the port that issued it (`walk_counts`).
-/

import AscendEmulator.C220.Memory.BiuWriteCredit

namespace AscendEmulator.C220.Memory.BiuBusWrites

open Lib BiuWrite

variable {s s' : BiuBusWrites} {tag : MemoryWriteId}

/-! ## Walks -/

/-- The moves of one tag. -/
def movesOf (tag : MemoryWriteId) (l : List (MemoryWriteId × Move)) : List Move :=
  (l.filter fun e => decide (e.1 = tag)).map Prod.snd

/-- The phase that moves lead to, if each may be made when its turn comes. -/
def walk (tag : MemoryWriteId) : Option Phase → List Move → Option (Option Phase)
  | p, [] => some p
  | p, move :: rest => (after tag p move).bind fun q => walk tag q rest

theorem movesOf_append (l r : List (MemoryWriteId × Move)) : movesOf tag (l ++ r) = movesOf tag l ++ movesOf tag r := by
  simp [movesOf]

theorem walk_append {p : Option Phase} {l r : List Move} :
    walk tag p (l ++ r) = (walk tag p l).bind fun q => walk tag q r := by
  induction l generalizing p with
  | nil => rfl
  | cons move l ih =>
    rw [List.cons_append, walk, walk]
    cases after tag p move with
    | none => rfl
    | some q => exact ih

/-- The moves shown lead each tag from its phase to its next. -/
theorem Shows.walks {l : List (MemoryWriteId × Move)} (h : Shows s l s') (tag : MemoryWriteId) :
    walk tag (s.phases.get? tag) (movesOf tag l) = some (s'.phases.get? tag) := by
  obtain ⟨es, hes, rfl⟩ := h
  refine hes.inv (I := fun es u => walk tag (s.phases.get? tag) (movesOf tag es.reduceOption) = some (u.phases.get? tag))
    rfl ?_
  intro es u e v ih he
  rw [List.reduceOption_append, movesOf_append, walk_append, ih, Option.bind_some]
  cases he with
  | same hs => rw [hs.phases]; rfl
  | forwarded hf => rw [hf.phases]; rfl
  | @moved _ t move b ha hm =>
    rw [hm.phase]
    by_cases ht : t = tag
    · subst ht
      have hone : movesOf t [some (t, move)].reduceOption = [move] := by simp [movesOf]
      rw [hone, walk, ha, if_pos rfl]
      rfl
    · have hnone : movesOf tag [some (t, move)].reduceOption = [] := by simp [movesOf, ht]
      rw [hnone, walk, if_neg (Ne.symm ht)]

/-! ## Once -/

def rank : Phase → Nat
  | .queued => 0
  | .commandSent => 1
  | .dbidQueued => 2
  | .dbidDelivered => 3
  | .dataQueued => 4
  | .dataSent => 5
  | .completionQueued => 6

/-- 1 while the transaction is in one of its first `n` phases. -/
def early (n : Nat) : Option Phase → Nat
  | none => 0
  | some p => if rank p < n then 1 else 0

/-- What a tag's moves say of its transactions: each admitted is sent its command, its data and its
    completion once, the last transaction as far as it got. -/
structure Once (tag : MemoryWriteId) (p : Option Phase) (l : List Move) (q : Option Phase) : Prop where
  command : l.count .commandSent + early 1 q = l.count .admitted + early 1 p
  data : l.count .dataSent + early 5 q = l.count .admitted + early 5 p
  completion : l.count (.completionDelivered (owner tag)) + early 7 q = l.count .admitted + early 7 p
  port : ∀ port, .completionDelivered port ∈ l → port = owner tag

theorem once_after {p q : Option Phase} {move : Move} (h : after tag p move = some q) : Once tag p [move] q := by
  unfold after at h
  split at h
  all_goals first
    | (cases h; refine ⟨?_, ?_, ?_, ?_⟩ <;> simp [early, rank])
    | (split at h <;> cases h; refine ⟨?_, ?_, ?_, ?_⟩ <;> simp_all [early, rank])
    | cases h

theorem once_append {p q r : Option Phase} {l l' : List Move} (h : Once tag p l q) (h' : Once tag q l' r) :
    Once tag p (l ++ l') r := by
  obtain ⟨h₁, h₂, h₃, h₄⟩ := h
  obtain ⟨h₁', h₂', h₃', h₄'⟩ := h'
  refine ⟨?_, ?_, ?_, fun port hp => (List.mem_append.mp hp).elim (h₄ port) (h₄' port)⟩
  · rw [List.count_append, List.count_append]
    omega
  · rw [List.count_append, List.count_append]
    omega
  · rw [List.count_append, List.count_append]
    omega

theorem once_walk {p q : Option Phase} {l : List Move} (h : walk tag p l = some q) : Once tag p l q := by
  induction l generalizing p with
  | nil =>
    cases h
    exact ⟨rfl, rfl, rfl, fun _ hp => by cases hp⟩
  | cons move l ih =>
    obtain ⟨m, hm, h⟩ := Option.bind_eq_some_iff.mp h
    exact once_append (once_after hm) (ih h)

/-! ## The counter -/

/-- The tags past `queued` whose completion is not forwarded. -/
def unforwarded (s : BiuBusWrites) : Nat :=
  s.phases.sum fun tag p =>
    if p ≠ .queued ∧ (p = .completionQueued → tag ∈ (s.returns 1).map (·.tag)) then 1 else 0

theorem sum_transfers {m : OrdMap MemoryWriteId Phase} {l : List MemoryWriteTransfer}
    (h : ∀ r ∈ l, ∃ p, m.get? r.tag = some p) : m.sum (fun tag _ => transfersOf tag l) = l.length := by
  induction l with
  | nil => exact OrdMap.sum_eq_zero _ fun _ _ _ => rfl
  | cons r l ih =>
    obtain ⟨hr, hl⟩ := List.forall_mem_cons.mp h
    obtain ⟨p, hp⟩ := hr
    have hone : m.sum (fun tag _ => if r.tag = tag then 1 else 0) = 1 := by
      rw [OrdMap.sum_eq_single _ r.tag fun k v _ hne => if_neg (Ne.symm hne), hp]
      simp
    have hsplit : m.sum (fun tag _ => transfersOf tag (r :: l)) =
        m.sum (fun tag _ => transfersOf tag l + if r.tag = tag then 1 else 0) :=
      OrdMap.sum_congr fun _ _ _ => transfersOf_cons r l
    rw [hsplit, OrdMap.sum_add, ih hl, hone, List.length_cons]

theorem transfersOf_pos {l : List MemoryWriteTransfer} : 0 < transfersOf tag l ↔ tag ∈ l.map (·.tag) := by
  rw [transfersOf, List.countP_pos_iff, List.mem_map]
  simp

theorem live_eq_unforwarded (h : Sound s) : live s = unforwarded s := by
  have hphase : ∀ r ∈ s.returns 1, s.phases.get? r.tag = some .completionQueued := fun r hr => by
    have hpos := transfersOf_pos.mpr (List.mem_map_of_mem (f := (·.tag)) hr)
    refine h.phase_of_response .completion ?_
    show 0 < s.responses 1 r.tag
    unfold responses
    omega
  rw [live, unforwarded, ← sum_transfers fun r hr => ⟨_, hphase r hr⟩, ← OrdMap.sum_add]
  refine OrdMap.sum_congr fun tag p hp => ?_
  have hle : transfersOf tag (s.returns 1) ≤ inPhase .completionQueued (some p) := by
    have := (h.placed tag).completion
    rw [hp, responses] at this
    omega
  have hmem : 0 < transfersOf tag (s.returns 1) ↔ tag ∈ (s.returns 1).map (·.tag) := transfersOf_pos
  cases p with
  | completionQueued =>
    simp only [isOpen, inPhase, or_true, if_true, ne_eq, reduceCtorEq, not_false_eq_true, true_and, forall_const,
      Nat.zero_add] at hle ⊢
    split
    · rename_i hin
      have := hmem.mpr hin
      omega
    · rename_i hnot
      have := mt hmem.mp hnot
      omega
  | _ =>
    simp only [inPhase, Option.some.injEq, reduceCtorEq, if_false, Nat.le_zero_eq] at hle
    rw [hle]
    simp [isOpen]

theorem receive_refused {tick : Nat} {kind : ReturnKind} {r : Except BiuBusWriteError Bool}
    (h : receive tick kind tag s = (r, s')) (hr : r ≠ .ok true) : s' = s := by
  unfold receive at h
  split at h
  · cases h; rfl
  · split at h
    · cases h; rfl
    · split at h
      · cases h; rfl
      · cases h
        exact absurd rfl hr

/-! ## Runs -/

/-- The moves shown so far, and the state. -/
abbrev Logged := List (MemoryWriteId × Move) × BiuBusWrites

def logged (c : WriteCall) (x : Logged) : Option Logged := (exec c x.2).map fun s => (x.1 ++ observed c x.2, s)

/-- In every run, with MTE and cache writes mixed, each tag walks through its phases, its command and
    data are sent once and its completion goes once to the port that issued it; it is in the queue of
    its phase and in no other; the counter is the number of tags past `queued` whose completion is not
    forwarded, as a `u32`; and a response that is refused changes nothing. -/
theorem write_phases_exact {limit : Nat} {t : List WriteCall} {x : Logged}
    (h : Run (stepWhen (fun _ _ => True) logged) ([], new limit) t x) :
    (∀ tag, walk tag none (movesOf tag x.1) = some (x.2.phases.get? tag)) ∧
      (∀ tag, Once tag none (movesOf tag x.1) (x.2.phases.get? tag)) ∧
      (∀ tag, Placed x.2 tag (x.2.phases.get? tag)) ∧
      x.2.outstanding = unforwarded x.2 % u32 ∧
      ∀ tick kind tag r s', receive tick kind tag x.2 = (r, s') → r ≠ .ok true → s' = x.2 := by
  have hI : Sound x.2 ∧ Counted x.2 ∧ ∀ tag, walk tag none (movesOf tag x.1) = some (x.2.phases.get? tag) := by
    refine h.keeps (I := fun x : Logged => Sound x.2 ∧ Counted x.2 ∧
      ∀ tag, walk tag none (movesOf tag x.1) = some (x.2.phases.get? tag)) ⟨sound_new limit, rfl, fun _ => rfl⟩ ?_
    rintro ⟨log, u⟩ c ⟨log', v⟩ ⟨hs, hc, hw⟩ ⟨-, he⟩
    obtain ⟨w, he, heq⟩ := Option.map_eq_some_iff.mp he
    cases heq
    have hshow := shows_exec hs he
    refine ⟨hshow.sound hs, ?_, fun tag => ?_⟩
    · obtain ⟨es, hes, -⟩ := hshow
      exact hes.keeps hc fun _ _ _ hu he => he.counted hu
    · rw [movesOf_append, walk_append, hw tag]
      exact hshow.walks tag
  obtain ⟨hs, hc, hw⟩ := hI
  exact ⟨hw, fun tag => once_walk (hw tag), hs.placed, live_eq_unforwarded hs ▸ hc,
    fun _ _ _ _ _ he hr => receive_refused he hr⟩

/-- A cache write and an MTE write, each up to its completion. -/
def mixedWrites : List WriteCall :=
  [.addCachePort fun _ => 1, .admitCommands 1 [some ⟨0, .cache 0 1, 0x1000, 64⟩] none, .takeCommand 2,
    .admitCommands 2 [none] (some ⟨0, .mte 7, 0x2000, 64⟩), .takeCommand 3, .receive 3 .dbid (.cache 0 1),
    .receive 3 .dbid (.mte 7), .advance 4, .advance 5, .advanceCacheData 6 false, .takeReturn 6 .dbid,
    .pushData 6 ⟨0, .mte 7⟩, .takeData 7, .takeData 8, .receive 9 .completion (.mte 7), .advance 10, .takeReturn 11 .completion]

theorem mixedWrites_runs : (runWhen (fun _ _ => True) logged ([], new 4) mixedWrites).isSome := by rfl

theorem write_phases_exact_mixed :
    let x := (runWhen (fun _ _ => True) logged ([], new 4) mixedWrites).get mixedWrites_runs
    Once (.mte 7) none (movesOf (.mte 7) x.1) (x.2.phases.get? (.mte 7)) ∧
      movesOf (.mte 7) x.1 = [.admitted, .commandSent, .dbidReceived, .dbidDelivered none, .dataQueued, .dataSent,
        .completionReceived, .completionDelivered none] ∧
      x.2.outstanding = unforwarded x.2 % u32 ∧ x.2.outstanding = 1 := by
  have h := write_phases_exact (run_runWhen (Option.some_get mixedWrites_runs).symm)
  exact ⟨h.2.1 _, by decide +kernel, h.2.2.2.1, by decide +kernel⟩

def cacheWrite : List WriteCall :=
  [.addCachePort fun _ => 1, .admitCommands 1 [some ⟨0, .cache 0 1, 0x1000, 64⟩] none, .takeCommand 2,
    .receive 3 .dbid (.cache 0 1), .advance 4]

theorem cacheWrite_runs : (runWhen (fun _ _ => True) exec (new 4) cacheWrite).isSome := by rfl

/-- The shared data path takes a cache write from its queued DBID to its queued data. -/
theorem cache_write_skips_delivery :
    ∃ t s c s', Run (stepWhen (fun _ _ => True) exec) (new 4) t s ∧ exec c s = some s' ∧
      s.phases.get? (.cache 0 1) = some .dbidQueued ∧ s'.phases.get? (.cache 0 1) = some .dataQueued := by
  refine ⟨cacheWrite, _, .advanceCacheData 5 false, _, run_runWhen (Option.some_get cacheWrite_runs).symm, rfl, ?_, ?_⟩
  · decide +kernel
  · decide +kernel

end AscendEmulator.C220.Memory.BiuBusWrites
