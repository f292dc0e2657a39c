/-
  AscendEmulator.C220.Lsu.PipelineProofs — the request pipeline's properties (see
  `AscendEmulator.C220.Lsu.Pipeline`).

  M2's queue followed by M1's holds exactly the ids between the fronts `consumed` and
  `issued`, in order, and M0 is armed exactly when an id waits behind `issued` (`Fronts`).
  A stall keeps the part of that segment before the stalled head, so a replay neither
  drops an id nor issues one twice.
-/

import AscendEmulator.C220.Lsu.Pipeline

namespace AscendEmulator.C220.Lsu.RequestPipeline

open Lib

variable {p q : RequestPipeline} {stage : Stage} {tick : Nat} {blocked draining split : Bool}

/-! ## What one call does -/

@[simp] theorem evaluated_admitted : (p.evaluated stage tick).admitted = p.admitted := rfl
@[simp] theorem evaluated_issued : (p.evaluated stage tick).issued = p.issued := rfl
@[simp] theorem evaluated_consumed : (p.evaluated stage tick).consumed = p.consumed := rfl
@[simp] theorem evaluated_m0Ready : (p.evaluated stage tick).m0Ready = p.m0Ready := rfl
@[simp] theorem evaluated_m1 : (p.evaluated stage tick).m1 = p.m1 := rfl
@[simp] theorem evaluated_m2 : (p.evaluated stage tick).m2 = p.m2 := rfl
@[simp] theorem evaluated_tick : (p.evaluated stage tick).tick = tick := rfl

theorem readyHead_eq_some {e : StageEntry} :
    p.readyHead stage tick = some e ↔ p.head stage = some e ∧ e.readyTick ≤ tick := by
  simp [readyHead, Option.filter_eq_some_iff]

theorem checkTick_ok {u : Unit} (h : p.checkTick tick = .ok u) : p.tick ≤ tick := by
  unfold checkTick at h
  split at h
  · cases h
  · omega

/-- What an `admitRequest` that did not fail does. -/
theorem admit_cases {ids : Option (Nat × Option Nat)} (h : p.admitRequest tick split = (.ok ids, q)) :
    (ids = none ∧ q = p) ∨
    (ids = some (p.admitted, if split then some (p.admitted + 1) else none) ∧ p.tick ≤ tick ∧
      q = { p with admitted := p.admitted + (if split then 2 else 1), tick }.scheduleM0 (tick + 1)) := by
  unfold admitRequest at h
  split at h
  · cases h
  · rename_i hc
    split at h
    · obtain ⟨rfl, rfl⟩ := ok_inj h
      exact .inl ⟨rfl, rfl⟩
    · split at h
      · cases h
      · rename_i ready hready
        obtain ⟨-, rfl⟩ := checkedAdd_eq_some.mp hready
        split at h
        · cases h
        · rename_i admitted hadm
          obtain ⟨-, rfl⟩ := checkedAdd_eq_some.mp hadm
          obtain ⟨rfl, rfl⟩ := ok_inj h
          exact .inr ⟨by cases split <;> simp, checkTick_ok hc, rfl⟩

/-- What an `advanceM0` that did not fail does. -/
theorem advanceM0_cases {r : StageProgress} (h : p.advanceM0 tick blocked draining = (.ok r, q)) :
    p.tick ≤ tick ∧
    ((r = .idle ∧ (q = p ∨ q = { p with tick })) ∨
    ∃ e, p.readyHead .m0 tick = some e ∧
      ((r = .blocked e.request ∧
          q = { p.evaluated .m0 tick with admissionBlocked := blocked, m0Ready := some (tick + 1) }) ∨
        (r = .advanced e.request ∧
          q = { p.evaluated .m0 tick with
            admissionBlocked := blocked
            m1 := p.m1 ++ [⟨e.request, tick + 1⟩]
            issued := p.issued + 1
            m0Ready := if p.issued + 1 < p.admitted then some (tick + 1) else none }))) := by
  unfold advanceM0 at h
  split at h
  · cases h
  · rename_i hc
    refine ⟨checkTick_ok hc, ?_⟩
    split at h
    · obtain ⟨rfl, rfl⟩ := ok_inj h
      exact .inl ⟨rfl, .inl rfl⟩
    · split at h
      · obtain ⟨rfl, rfl⟩ := ok_inj h
        exact .inl ⟨rfl, .inr rfl⟩
      · rename_i e he
        refine .inr ⟨e, he, ?_⟩
        split at h
        · cases h
        · rename_i next hn
          obtain ⟨-, rfl⟩ := checkedAdd_eq_some.mp hn
          dsimp only at h
          split at h
          · obtain ⟨rfl, rfl⟩ := ok_inj h
            exact .inl ⟨rfl, rfl⟩
          · obtain ⟨rfl, rfl⟩ := ok_inj h
            exact .inr ⟨rfl, rfl⟩

/-- What a data-stage callback that did not fail does. -/
theorem advanceDataStage_cases {r : StageProgress} (h : p.advanceDataStage stage tick blocked = (.ok r, q)) :
    p.tick ≤ tick ∧
    ((r = .idle ∧ (q = p ∨ q = { p with tick })) ∨
    ∃ e, p.readyHead stage tick = some e ∧
      ((blocked = true ∧ r = .replayScheduled e.request ∧
          q = { p.evaluated stage tick with
            m1 := [], m2 := if stage = Stage.m2 then [] else p.m2, issued := e.request }.scheduleM0 (tick + 1)) ∨
        (blocked = false ∧ stage = .m1 ∧ r = .advanced e.request ∧
          q = { p.evaluated stage tick with m1 := p.m1.tail, m2 := p.m2 ++ [⟨e.request, tick + 1⟩] }) ∨
        (blocked = false ∧ stage ≠ .m1 ∧ r = .advanced e.request ∧
          q = { p.evaluated stage tick with m2 := p.m2.tail, consumed := p.consumed + 1 }))) := by
  unfold advanceDataStage at h
  split at h
  · cases h
  · rename_i hc
    refine ⟨checkTick_ok hc, ?_⟩
    split at h
    · obtain ⟨rfl, rfl⟩ := ok_inj h
      exact .inl ⟨rfl, .inl rfl⟩
    · split at h
      · obtain ⟨rfl, rfl⟩ := ok_inj h
        exact .inl ⟨rfl, .inr rfl⟩
      · rename_i e he
        refine .inr ⟨e, he, ?_⟩
        cases blocked with
        | true =>
          simp only [Bool.true_or, if_true] at h
          split at h
          · cases h
          · rename_i next hn
            obtain ⟨-, rfl⟩ := checkedAdd_eq_some.mp hn
            obtain ⟨rfl, rfl⟩ := ok_inj h
            exact .inl ⟨rfl, rfl, rfl⟩
        | false =>
          by_cases hs : stage = .m1
          · subst hs
            simp only [ decide_true, Bool.or_true, if_true, Bool.false_eq_true, if_false] at h
            split at h
            · cases h
            · rename_i next hn
              obtain ⟨-, rfl⟩ := checkedAdd_eq_some.mp hn
              obtain ⟨rfl, rfl⟩ := ok_inj h
              exact .inr (.inl ⟨rfl, rfl, rfl, rfl⟩)
          · simp only [hs, decide_false, Bool.or_false, Bool.false_eq_true, if_false] at h
            obtain ⟨rfl, rfl⟩ := ok_inj h
            exact .inr (.inr ⟨rfl, hs, rfl, rfl⟩)

/-- A call that returns an error leaves the pipeline as it was. -/
theorem exec_error {c : PipelineCall} {e : PipelineError} (h : exec c p = (.error e, q)) : q = p := by
  cases c with
  | admitRequest tick split =>
    have h := reply_error h
    unfold admitRequest at h
    repeat' split at h
    all_goals simp_all
  | advanceM0 tick blocked draining =>
    have h := reply_error h
    unfold advanceM0 at h
    repeat' split at h
    all_goals simp_all
  | advanceM1 tick blocked =>
    have h := reply_error h
    unfold advanceM1 advanceDataStage at h
    repeat' split at h
    all_goals simp_all
  | advanceM2 tick blocked =>
    have h := reply_error h
    unfold advanceM2 advanceDataStage at h
    repeat' split at h
    all_goals simp_all

/-! ## The fronts and the two queues -/

def ids (l : List StageEntry) : List Nat := l.map (·.request)

@[simp] theorem ids_nil : ids [] = [] := rfl
@[simp] theorem ids_cons (e : StageEntry) (l : List StageEntry) : ids (e :: l) = e.request :: ids l := rfl
@[simp] theorem ids_append (l r : List StageEntry) : ids (l ++ r) = ids l ++ ids r := List.map_append

structure Fronts (p : RequestPipeline) : Prop where
  consumedLe : p.consumed ≤ p.issued
  issuedLe : p.issued ≤ p.admitted
  queued : ids p.m2 ++ ids p.m1 = List.range' p.consumed (p.issued - p.consumed)
  armed : p.m0Ready.isSome ↔ p.issued < p.admitted

theorem fronts_new {capacity : Nat} (h : new capacity = .ok p) : Fronts p := by
  unfold new at h
  split at h
  · cases h
  · cases h
    exact ⟨Nat.le_refl _, Nat.le_refl _, rfl, by simp [empty]⟩

theorem range'_split {xs ys : List Nat} {a n : Nat} (h : xs ++ ys = List.range' a n) :
    xs = List.range' a xs.length ∧ ys = List.range' (a + xs.length) ys.length ∧ n = xs.length + ys.length := by
  have hn : n = xs.length + ys.length := by simpa using (congrArg List.length h).symm
  rw [hn, ← List.range'_append_1] at h
  obtain ⟨h1, h2⟩ := List.append_inj h (by simp)
  exact ⟨h1, h2, hn⟩

/-- The head of M2 is the oldest id not yet consumed: the source's `debug_assert`. -/
theorem Fronts.head_m2 (h : Fronts p) {e : StageEntry} (he : p.head .m2 = some e) :
    e.request = p.consumed ∧ p.consumed < p.issued ∧ p.m2 = e :: p.m2.tail := by
  obtain ⟨r, hr⟩ := List.head?_eq_some_iff.mp he
  have hq := h.queued
  rw [hr] at hq
  cases hn : p.issued - p.consumed with
  | zero => simp [hn] at hq
  | succ n =>
    rw [hn, List.range'_succ] at hq
    simp only [ids_cons, List.cons_append, List.cons.injEq] at hq
    exact ⟨hq.1, by omega, by rw [hr]; rfl⟩

/-- The head of M1 is the id right after the ones in M2. -/
theorem Fronts.head_m1 (h : Fronts p) {e : StageEntry} (he : p.head .m1 = some e) :
    e.request = p.consumed + p.m2.length ∧ e.request < p.issued ∧ p.m1 = e :: p.m1.tail := by
  obtain ⟨r, hr⟩ := List.head?_eq_some_iff.mp he
  obtain ⟨-, h2, h3⟩ := range'_split h.queued
  rw [hr] at h2 h3
  simp only [ids_cons, List.length_cons, List.range'_succ, List.cons.injEq] at h2 h3
  have hlen : (ids p.m2).length = p.m2.length := List.length_map _
  rw [hlen] at h2 h3
  exact ⟨h2.1, by omega, by rw [hr]; rfl⟩

theorem head_m0 {e : StageEntry} (he : p.head .m0 = some e) :
    e.request = p.issued ∧ p.issued < p.admitted := by
  simp only [head] at he
  split at he
  · rename_i hlt
    obtain ⟨t, -, rfl⟩ := Option.map_eq_some_iff.mp he
    exact ⟨rfl, hlt⟩
  · cases he

theorem Fronts.withTick (h : Fronts p) (tick : Nat) : Fronts { p with tick } := ⟨h.1, h.2, h.3, h.4⟩

theorem Fronts.admitRequest {ids : Option (Nat × Option Nat)} (h : Fronts p)
    (he : p.admitRequest tick split = (.ok ids, q)) : Fronts q := by
  rcases admit_cases he with ⟨-, rfl⟩ | ⟨-, -, rfl⟩
  · exact h
  · have h1 := h.consumedLe
    have h2 := h.issuedLe
    refine ⟨h1, ?_, h.queued, ?_⟩
    · show p.issued ≤ p.admitted + _
      omega
    · show (some _).isSome ↔ p.issued < p.admitted + _
      simp only [Option.isSome_some, true_iff]
      split <;> omega

theorem Fronts.advanceM0 {r : StageProgress} (h : Fronts p)
    (he : p.advanceM0 tick blocked draining = (.ok r, q)) : Fronts q := by
  rcases advanceM0_cases he with ⟨-, ⟨-, rfl | rfl⟩ | ⟨e, hh, ⟨-, rfl⟩ | ⟨-, rfl⟩⟩⟩
  · exact h
  · exact h.withTick tick
  · obtain ⟨-, hlt⟩ := head_m0 (readyHead_eq_some.mp hh).1
    exact ⟨h.1, h.2, h.3, by simpa using hlt⟩
  · obtain ⟨hid, hlt⟩ := head_m0 (readyHead_eq_some.mp hh).1
    have h1 := h.consumedLe
    refine ⟨by simp only [evaluated_consumed]; omega, by simp only [evaluated_admitted]; omega, ?_, ?_⟩
    · have hlen : p.issued + 1 - p.consumed = p.issued - p.consumed + 1 := by omega
      simp only [evaluated_m2, evaluated_consumed, ids_append, ids_cons, ids_nil, ← List.append_assoc, h.queued,
        hlen, List.range'_concat, hid]
      congr 2
      omega
    · simp only [evaluated_admitted]
      split <;> simp [*]

/-- A stalled stage rewinds `issued` to its head: what is left in M2 is the segment
    before that id. -/
theorem Fronts.rewind (h : Fronts p) {e : StageEntry} (he : p.head stage = some e) (hs : stage ≠ .m0) :
    p.consumed ≤ e.request ∧ e.request < p.issued ∧
      ids (if stage = Stage.m2 then [] else p.m2) = List.range' p.consumed (e.request - p.consumed) := by
  cases stage with
  | m0 => exact absurd rfl hs
  | m1 =>
    obtain ⟨hid, hlt, -⟩ := h.head_m1 he
    obtain ⟨h1, -, -⟩ := range'_split h.queued
    refine ⟨by omega, hlt, ?_⟩
    have hn : e.request - p.consumed = (ids p.m2).length := by simp [ids, hid]
    rw [if_neg (by simp), hn]
    exact h1
  | m2 =>
    obtain ⟨hid, hlt, -⟩ := h.head_m2 he
    exact ⟨by omega, by omega, by simp [hid]⟩

theorem Fronts.advanceDataStage {r : StageProgress} (h : Fronts p) (hs : stage ≠ .m0)
    (he : p.advanceDataStage stage tick blocked = (.ok r, q)) : Fronts q := by
  rcases advanceDataStage_cases he with
    ⟨-, ⟨-, rfl | rfl⟩ | ⟨e, hh, ⟨-, -, rfl⟩ | ⟨-, rfl, -, rfl⟩ | ⟨-, hm1, -, rfl⟩⟩⟩
  · exact h
  · exact h.withTick tick
  · obtain ⟨hle, hlt, hq⟩ := h.rewind (readyHead_eq_some.mp hh).1 hs
    have h2 := h.issuedLe
    refine ⟨hle, ?_, by simpa [scheduleM0] using hq, ?_⟩
    · show e.request ≤ p.admitted
      omega
    · show (some _).isSome ↔ e.request < p.admitted
      simp only [Option.isSome_some, true_iff]
      omega
  · obtain ⟨hid, -, htail⟩ := h.head_m1 (readyHead_eq_some.mp hh).1
    refine ⟨h.1, h.2, ?_, h.4⟩
    have hq := h.queued
    rw [htail] at hq
    simpa using hq
  · have hm2 : stage = .m2 := by cases stage <;> simp_all
    subst hm2
    obtain ⟨hid, hlt, htail⟩ := h.head_m2 (readyHead_eq_some.mp hh).1
    refine ⟨by simp only [evaluated_issued]; omega, h.2, ?_, h.4⟩
    have hq := h.queued
    have hlen : p.issued - p.consumed = p.issued - (p.consumed + 1) + 1 := by omega
    rw [htail, hlen, List.range'_succ] at hq
    exact (List.cons.inj hq).2

theorem Fronts.exec {c : PipelineCall} {r : Except PipelineError PipelineReply} (h : Fronts p)
    (he : exec c p = (r, q)) : Fronts q := by
  cases r with
  | error e => exact exec_error he ▸ h
  | ok r =>
    cases c with
    | admitRequest tick split =>
      obtain ⟨ids, hi, -⟩ := reply_ok he
      exact h.admitRequest hi
    | advanceM0 tick blocked draining =>
      obtain ⟨g, hg, -⟩ := reply_ok he
      exact h.advanceM0 hg
    | advanceM1 tick blocked =>
      obtain ⟨g, hg, -⟩ := reply_ok he
      exact h.advanceDataStage (by simp) hg
    | advanceM2 tick blocked =>
      obtain ⟨g, hg, -⟩ := reply_ok he
      exact h.advanceDataStage (by simp) hg

/-! ## What a run admits and what leaves M2 -/

/-- A call with what it returned. -/
abbrev Event := PipelineCall × Except PipelineError PipelineReply

/-- The ids an event admitted, in order. -/
def admittedIds : Event → List Nat
  | (.admitRequest _ _, .ok (.admitted (some (first, second)))) => first :: second.toList
  | _ => []

/-- The id an event took out of M2. -/
def leavesM2 : Event → Option Nat
  | (.advanceM2 _ _, .ok (.progress (.advanced id))) => some id
  | _ => none

/-- The state with its history: ids are admitted and leave M2 in counting order. -/
structure Accounted (t : List Event) (p : RequestPipeline) : Prop where
  fronts : Fronts p
  admitted : t.flatMap admittedIds = List.range p.admitted
  left : t.filterMap leavesM2 = List.range p.consumed

theorem Accounted.snoc {t : List Event} {a : Event} (h : Accounted t p) (hq : Fronts q)
    (ha : List.range p.admitted ++ admittedIds a = List.range q.admitted)
    (hl : List.range p.consumed ++ (leavesM2 a).toList = List.range q.consumed) : Accounted (t ++ [a]) q := by
  refine ⟨hq, by simp [h.admitted, ha], ?_⟩
  rw [List.filterMap_append, h.left, ← hl]
  cases hm : leavesM2 a <;> simp [hm]

theorem Accounted.quiet {t : List Event} {a : Event} (h : Accounted t p) (hq : Fronts q)
    (ha : admittedIds a = []) (hl : leavesM2 a = none) (h1 : q.admitted = p.admitted)
    (h2 : q.consumed = p.consumed) : Accounted (t ++ [a]) q :=
  h.snoc hq (by rw [ha, h1, List.append_nil]) (by rw [hl, h2, Option.toList_none, List.append_nil])

theorem Accounted.exec {t : List Event} {c : PipelineCall} {r : Except PipelineError PipelineReply}
    (h : Accounted t p) (he : exec c p = (r, q)) : Accounted (t ++ [(c, r)]) q := by
  have hf := h.fronts.exec he
  cases r with
  | error e =>
    obtain rfl := exec_error he
    exact h.quiet h.fronts (by cases c <;> rfl) (by cases c <;> rfl) rfl rfl
  | ok r =>
    cases c with
    | admitRequest tick split =>
      obtain ⟨ids, hi, rfl⟩ := reply_ok he
      rcases admit_cases hi with ⟨rfl, rfl⟩ | ⟨rfl, -, rfl⟩
      · exact h.quiet hf rfl rfl rfl rfl
      · refine h.snoc hf ?_ (by simp [leavesM2, scheduleM0])
        cases split <;> simp [admittedIds, scheduleM0, List.range_succ]
    | advanceM0 tick blocked draining =>
      obtain ⟨g, hg, rfl⟩ := reply_ok he
      rcases advanceM0_cases hg with ⟨-, ⟨-, rfl | rfl⟩ | ⟨e, -, ⟨-, rfl⟩ | ⟨-, rfl⟩⟩⟩ <;>
        exact h.quiet hf rfl rfl rfl rfl
    | advanceM1 tick blocked =>
      obtain ⟨g, hg, rfl⟩ := reply_ok he
      rcases advanceDataStage_cases hg with
        ⟨-, ⟨-, rfl | rfl⟩ | ⟨e, -, ⟨-, -, rfl⟩ | ⟨-, -, -, rfl⟩ | ⟨-, hm1, -, -⟩⟩⟩
      · exact h.quiet hf rfl rfl rfl rfl
      · exact h.quiet hf rfl rfl rfl rfl
      · exact h.quiet hf rfl rfl rfl rfl
      · exact h.quiet hf rfl rfl rfl rfl
      · exact absurd rfl hm1
    | advanceM2 tick blocked =>
      obtain ⟨g, hg, rfl⟩ := reply_ok he
      rcases advanceDataStage_cases hg with
        ⟨-, ⟨rfl, rfl | rfl⟩ | ⟨e, hh, ⟨-, rfl, rfl⟩ | ⟨-, hm1, -, -⟩ | ⟨-, -, rfl, rfl⟩⟩⟩
      · exact h.quiet hf rfl rfl rfl rfl
      · exact h.quiet hf rfl rfl rfl rfl
      · exact h.quiet hf rfl rfl rfl rfl
      · cases hm1
      · obtain ⟨hid, -, -⟩ := h.fronts.head_m2 (readyHead_eq_some.mp hh).1
        exact h.snoc hf (by simp [admittedIds]) (by simp [leavesM2, hid, List.range_succ])

theorem accounted_new {capacity : Nat} (h : new capacity = .ok p) : Accounted [] p := by
  refine ⟨fronts_new h, ?_, ?_⟩ <;>
  · unfold new at h
    split at h
    · cases h
    · cases h; rfl

theorem run_accounted {capacity : Nat} {t : List Event} (h0 : new capacity = .ok p) (h : Run (calls exec) p t q) :
    Accounted t q :=
  h.inv (accounted_new h0) fun _ _ _ _ hu ha => hu.exec ha

/-! ## No request is stranded -/

/-- Nothing is due later than one tick past the clock. -/
structure Clocked (p : RequestPipeline) : Prop where
  evaluated : ∀ stage t, p.lastEvaluation stage = some t → t ≤ p.tick
  m0 : ∀ t, p.m0Ready = some t → t ≤ p.tick + 1
  m1 : ∀ e ∈ p.m1, e.readyTick ≤ p.tick + 1
  m2 : ∀ e ∈ p.m2, e.readyTick ≤ p.tick + 1

theorem clocked_new {capacity : Nat} (h : new capacity = .ok p) : Clocked p := by
  unfold new at h
  split at h
  · cases h
  · cases h; constructor <;> simp [empty]

theorem Clocked.withTick (h : Clocked p) (ht : p.tick ≤ tick) : Clocked { p with tick } := by
  refine ⟨fun s t hs => ?_, fun t hs => ?_, fun e he => ?_, fun e he => ?_⟩
  · have := h.evaluated s t hs; show t ≤ tick; omega
  · have := h.m0 t hs; show t ≤ tick + 1; omega
  · have := h.m1 e he; show e.readyTick ≤ tick + 1; omega
  · have := h.m2 e he; show e.readyTick ≤ tick + 1; omega

theorem Clocked.evaluatedAt (stage : Stage) (h : Clocked p) (ht : p.tick ≤ tick) : Clocked (p.evaluated stage tick) := by
  refine ⟨fun s t hs => ?_, (h.withTick ht).m0, (h.withTick ht).m1, (h.withTick ht).m2⟩
  simp only [RequestPipeline.evaluated, Function.update_apply] at hs
  split at hs
  · exact Nat.le_of_eq (Option.some.inj hs).symm
  · exact (h.withTick ht).evaluated s t hs

theorem Clocked.scheduleM0 (h : Clocked p) (ht : tick ≤ p.tick + 1) : Clocked (p.scheduleM0 tick) := by
  refine ⟨h.evaluated, fun t hs => ?_, h.m1, h.m2⟩
  simp only [RequestPipeline.scheduleM0, Option.some.injEq] at hs
  subst hs
  show _ ≤ p.tick + 1
  cases hm : p.m0Ready with
  | none => exact ht
  | some prior => exact Nat.le_trans (Nat.min_le_right _ _) ht

theorem Clocked.exec {c : PipelineCall} {r : Except PipelineError PipelineReply} (h : Clocked p)
    (he : exec c p = (r, q)) : Clocked q := by
  have hdata : ∀ {stage tick blocked r}, p.advanceDataStage stage tick blocked = (.ok r, q) → Clocked q := by
    intro stage tick blocked r hg
    rcases advanceDataStage_cases hg with ⟨ht, ⟨-, rfl | rfl⟩ | ⟨e, -, ⟨-, -, rfl⟩ | ⟨-, -, -, rfl⟩ | ⟨-, -, -, rfl⟩⟩⟩
    · exact h
    · exact h.withTick ht
    · have hv := h.evaluatedAt stage ht
      refine Clocked.scheduleM0 ⟨hv.1, hv.2, by simp, fun e he => ?_⟩ (Nat.le_refl _)
      split at he
      · cases he
      · exact hv.4 e he
    · have hv := h.evaluatedAt stage ht
      refine ⟨hv.1, hv.2, fun e he => hv.3 e (List.mem_of_mem_tail he), fun e he => ?_⟩
      rcases List.mem_append.mp he with he | he
      · exact hv.4 e he
      · rw [List.mem_singleton.mp he]; exact Nat.le_refl _
    · have hv := h.evaluatedAt stage ht
      exact ⟨hv.1, hv.2, hv.3, fun e he => hv.4 e (List.mem_of_mem_tail he)⟩
  cases r with
  | error e => exact exec_error he ▸ h
  | ok r =>
    cases c with
    | admitRequest tick split =>
      obtain ⟨ids, hi, -⟩ := reply_ok he
      rcases admit_cases hi with ⟨-, rfl⟩ | ⟨-, ht, rfl⟩
      · exact h
      · have hv := h.withTick ht
        exact Clocked.scheduleM0 ⟨hv.1, hv.2, hv.3, hv.4⟩ (Nat.le_refl _)
    | advanceM0 tick blocked draining =>
      obtain ⟨g, hg, -⟩ := reply_ok he
      rcases advanceM0_cases hg with ⟨ht, ⟨-, rfl | rfl⟩ | ⟨e, -, ⟨-, rfl⟩ | ⟨-, rfl⟩⟩⟩
      · exact h
      · exact h.withTick ht
      · have hv := h.evaluatedAt .m0 ht
        exact ⟨hv.1, fun t hs => Nat.le_of_eq (Option.some.inj hs).symm, hv.3, hv.4⟩
      · have hv := h.evaluatedAt .m0 ht
        refine ⟨hv.1, fun t hs => ?_, fun e he => ?_, hv.4⟩
        · simp only at hs
          split at hs
          · exact Nat.le_of_eq (Option.some.inj hs).symm
          · cases hs
        · rcases List.mem_append.mp he with he | he
          · exact hv.3 e he
          · rw [List.mem_singleton.mp he]; exact Nat.le_refl _
    | advanceM1 tick blocked =>
      obtain ⟨g, hg, -⟩ := reply_ok he
      exact hdata hg
    | advanceM2 tick blocked =>
      obtain ⟨g, hg, -⟩ := reply_ok he
      exact hdata hg

/-- Stage moves still owed to the admitted requests. -/
def work (p : RequestPipeline) : Nat := 3 * (p.admitted - p.issued) + 2 * p.m1.length + p.m2.length

theorem Fronts.work_le (h : Fronts p) : p.work ≤ 3 * p.queuedRequests := by
  obtain ⟨-, -, h3⟩ := range'_split h.queued
  have h1 := h.consumedLe
  have h2 := h.issuedLe
  simp only [ids, List.length_map] at h3
  unfold work queuedRequests
  omega

/-- One tick later some stage can move its head on, unless everything was consumed. -/
theorem progress (hf : Fronts p) (hc : Clocked p) (hw : p.work ≠ 0) (ht : p.tick + 2 < u64) :
    ∃ c r q, exec c p = (r, q) ∧ q.work < p.work ∧ q.tick = p.tick + 1 ∧ q.admitted = p.admitted := by
  have hnext : checkedAdd (p.tick + 1) 1 = some (p.tick + 1 + 1) := checkedAdd_eq_some.mpr ⟨by omega, rfl⟩
  have hlast : ∀ stage, p.lastEvaluation stage ≠ some (p.tick + 1) := fun stage he => by
    have := hc.evaluated stage _ he
    omega
  have htick : p.checkTick (p.tick + 1) = .ok () := by simp [checkTick]
  cases hm2 : p.m2 with
  | cons e rest =>
    have hh : p.readyHead .m2 (p.tick + 1) = some e :=
      readyHead_eq_some.mpr ⟨by simp [head, hm2], hc.m2 e (by simp [hm2])⟩
    refine ⟨.advanceM2 (p.tick + 1) false, _, _, rfl, ?_⟩
    simp [advanceM2, advanceDataStage, htick, hlast, hh, work, hm2]
  | nil =>
    cases hm1 : p.m1 with
    | cons e rest =>
      have hh : p.readyHead .m1 (p.tick + 1) = some e :=
        readyHead_eq_some.mpr ⟨by simp [head, hm1], hc.m1 e (by simp [hm1])⟩
      refine ⟨.advanceM1 (p.tick + 1) false, _, _, rfl, ?_⟩
      simp [advanceM1, advanceDataStage, htick, hlast, hh, work, hm1, hm2, hnext]
      omega
    | nil =>
      have hlt : p.issued < p.admitted := by
        have := hf.issuedLe
        simp only [work, hm1, hm2, List.length_nil] at hw
        omega
      obtain ⟨t, hm0⟩ := Option.isSome_iff_exists.mp (hf.armed.mpr hlt)
      have hh : p.readyHead .m0 (p.tick + 1) = some ⟨p.issued, t⟩ :=
        readyHead_eq_some.mpr ⟨by simp [head, hlt, hm0], hc.m0 t hm0⟩
      refine ⟨.advanceM0 (p.tick + 1) false false, _, _, rfl, ?_⟩
      simp [advanceM0, htick, hlast, hh, work, hm1, hm2, hnext]
      omega

/-- From a state whose clock has room, calls without stalls consume every admitted id. -/
theorem drain : ∀ n (p : RequestPipeline), p.work = n → Fronts p → Clocked p → p.tick + n + 1 < u64 →
    ∃ t q, Run (calls exec) p t q ∧ q.consumed = p.admitted ∧ q.admitted = p.admitted := by
  intro n
  induction n using Nat.strongRecOn with
  | ind n ih =>
  intro p hn hf hc ht
  by_cases hw : p.work = 0
  · refine ⟨[], p, .nil, ?_, rfl⟩
    obtain ⟨-, -, h3⟩ := range'_split hf.queued
    have h1 := hf.consumedLe
    have h2 := hf.issuedLe
    simp only [ids, List.length_map] at h3
    unfold work at hw
    omega
  · obtain ⟨c, r, q, he, hlt, hq, ha⟩ := progress hf hc hw (by omega)
    obtain ⟨t, u, hr, h1, h2⟩ := ih q.work (by omega) q rfl (hf.exec he) (hc.exec he) (by omega)
    exact ⟨_, u, Run.append (.single (a := (c, r)) he) hr, by rw [h1, ha], by rw [h2, ha]⟩

/-! ## The pipeline over any run -/

/-- Every run from `new`: the fronts and queues line up; ids are admitted, and leave M2,
    as 0, 1, 2, ... (so each once and in admission order, and the id leaving M2 is always
    `consumed`); an id not yet consumed waits in M2, in M1 or for the armed M0, and while
    the clock has room calls without stalls consume them all; a failed call changes
    nothing. -/
theorem request_pipeline_exact (capacity : Nat) {p0 p : RequestPipeline} {t : List Event}
    (h0 : new capacity = .ok p0) (h : Run (calls exec) p0 t p) :
    (p.consumed ≤ p.issued ∧ p.issued ≤ p.admitted) ∧
      ids p.m2 ++ ids p.m1 = List.range' p.consumed (p.issued - p.consumed) ∧
      (p.m0Ready.isSome ↔ p.issued < p.admitted) ∧
      t.flatMap admittedIds = List.range p.admitted ∧
      t.filterMap leavesM2 = List.range p.consumed ∧
      (∀ e, p.head .m2 = some e → e.request = p.consumed) ∧
      (∀ id, p.consumed ≤ id → id < p.admitted → id ∈ ids p.m2 ∨ id ∈ ids p.m1 ∨ p.issued ≤ id ∧ p.m0Ready.isSome) ∧
      (p.tick + 3 * p.queuedRequests + 1 < u64 → ∃ r q, Run (calls exec) p r q ∧ q.consumed = p.admitted) ∧
      ∀ c e q, exec c p = (.error e, q) → q = p := by
  have ha := run_accounted h0 h
  have hf := ha.fronts
  have hc : Clocked p := h.keeps (clocked_new h0) fun _ _ _ hu he => hu.exec he
  refine ⟨⟨hf.consumedLe, hf.issuedLe⟩, hf.queued, hf.armed, ha.admitted, ha.left, fun e he => (hf.head_m2 he).1,
    fun id h1 h2 => ?_, fun ht => ?_, fun c e q he => exec_error he⟩
  · by_cases hi : id < p.issued
    · have hm : id ∈ ids p.m2 ++ ids p.m1 := by
        rw [hf.queued, List.mem_range'_1]
        omega
      exact (List.mem_append.mp hm).imp_right .inl
    · exact .inr (.inr ⟨by omega, hf.armed.mpr (by omega)⟩)
  · obtain ⟨r, q, hr, h1, -⟩ := drain _ p rfl hf hc (by have := hf.work_le; omega)
    exact ⟨r, q, hr, h1⟩

/-- A pair admitted at once; its second half stalls in M1, then the first in M2. -/
def stalledPair : List PipelineCall :=
  [.admitRequest 0 true, .advanceM0 1 false false, .advanceM1 2 false, .advanceM0 2 false false, .advanceM1 3 true,
    .advanceM2 3 true, .advanceM0 4 false false, .advanceM1 5 false, .advanceM2 6 false]

theorem request_pipeline_exact_stalled_pair :
    (runCalls exec (empty 4) stalledPair).1.filterMap leavesM2 =
        List.range (runCalls exec (empty 4) stalledPair).2.consumed ∧
      (runCalls exec (empty 4) stalledPair).2.consumed = 1 := by
  have h := request_pipeline_exact 4 rfl (run_runCalls exec (empty 4) stalledPair)
  exact ⟨h.2.2.2.2.1, by decide⟩

end AscendEmulator.C220.Lsu.RequestPipeline
