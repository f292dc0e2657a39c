/-
  AscendEmulator.C220.Mte.BiuReadArbiter — the weighted arbitration of the read frontend.

  While every core has an ordinary input that is ready, a turn of the arbiter is a turn of smooth weighted round robin,
  with the configured weights as gains: the running weights never leave `i32`, and a round of as many turns as the
  weights sum up to selects each core as often as its weight says.
-/

import AscendEmulator.Lib.RoundRobin
import AscendEmulator.C220.Mte.BiuReadFrontendProofs

namespace AscendEmulator.C220.Mte

open Lib Lib.RoundRobin

instance : Fintype BiuSubcore := ⟨{.cube, .vector0, .vector1}, fun core => by cases core <;> decide⟩

theorem BiuSubcore.sum_eq (f : BiuSubcore → ℤ) : ∑ core, f core = f .cube + f .vector0 + f .vector1 := by
  show ∑ core ∈ {.cube, .vector0, .vector1}, f core = _
  rw [Finset.sum_insert (by decide), Finset.sum_insert (by decide), Finset.sum_singleton, add_assoc]

namespace BiuReadConfig

/-- A weight as `i32`. -/
def gain (config : BiuReadConfig) (core : BiuSubcore) : ℤ := (config.weights core).toInt32.toInt

def totalWeight (config : BiuReadConfig) : ℤ := ∑ core, config.gain core

/-- Weights that are not negative, of a total between 1 and `i32::MAX / 4`. -/
structure Balanced (config : BiuReadConfig) : Prop where
  gain : ∀ core, 0 ≤ config.gain core
  pos : 1 ≤ config.totalWeight
  le : config.totalWeight ≤ 2147483647 / 4

end BiuReadConfig

namespace BiuReadFrontend

variable {config : BiuReadConfig} {s s' : BiuReadFrontend} {tick : Nat} {core : BiuSubcore} {l : List BiuSubcore}

/-- Every core has an ordinary input that is ready, and no split blocks. -/
def contended (s : BiuReadFrontend) (tick : Nat) : Bool :=
  (BiuWriteCommands.cores.all fun core => (s.inputs core).head?.any fun entry =>
    decide (entry.readyTick ≤ tick) && !entry.input.prefetch) && !s.pendingSplitBlocked

/-- A call that arbitrates only where all cores contend. -/
def contends : BiuReadCall → BiuReadFrontend → Bool
  | .arbitrate tick, s => s.contended tick
  | _, _ => true

theorem eligible_of_contended (h : s.contended tick = true) :
    s.eligible tick = (fun _ => true) ∧ s.pendingSplitBlocked = false := by
  obtain ⟨hall, hblocked⟩ := Bool.and_eq_true_iff.mp h
  refine ⟨funext fun core => ?_, by simpa using hblocked⟩
  have hmem : core ∈ BiuWriteCommands.cores := by cases core <;> decide
  have hcore := List.all_eq_true.mp hall core hmem
  obtain ⟨entry, hentry, hready⟩ := (Option.any_eq_true _ _).mp hcore
  obtain ⟨htick, hordinary⟩ := Bool.and_eq_true_iff.mp hready
  unfold eligible
  rw [hentry]
  simp [of_decide_eq_true htick, hordinary]

/-- The search for the highest weight ends at no less than it began with, and than any weight it passed. -/
theorem highest_foldl (eligible : BiuSubcore → Bool) (weights : BiuSubcore → Int32) (cores : List BiuSubcore)
    (b : Int32 × Option BiuSubcore) :
    let r := cores.foldl (fun h core => if eligible core && decide (h.1 < weights core) then (weights core, some core) else h) b
    b.1.toInt ≤ r.1.toInt ∧ (∀ core ∈ cores, eligible core = true → (weights core).toInt ≤ r.1.toInt) ∧
      (r = b ∨ ∃ core, r = (weights core, some core)) := by
  induction cores generalizing b with
  | nil => exact ⟨Int.le_refl _, fun core hcore => absurd hcore List.not_mem_nil, .inl rfl⟩
  | cons c cores ih =>
    dsimp only
    rw [List.foldl_cons]
    by_cases hc : (eligible c && decide (b.1 < weights c)) = true
    · obtain ⟨-, hlt⟩ := Bool.and_eq_true_iff.mp hc
      have hlt := Int32.lt_iff_toInt_lt.mp (of_decide_eq_true hlt)
      rw [if_pos hc]
      obtain ⟨hle, hall, hr⟩ := ih (weights c, some c)
      dsimp only at hle
      refine ⟨by omega, fun core hcore heligible => ?_, .inr ?_⟩
      · rcases List.mem_cons.mp hcore with rfl | hcore
        · exact hle
        · exact hall core hcore heligible
      · rcases hr with hr | hr
        · exact ⟨c, hr⟩
        · exact hr
    · rw [if_neg hc]
      obtain ⟨hle, hall, hr⟩ := ih b
      refine ⟨hle, fun core hcore heligible => ?_, hr⟩
      rcases List.mem_cons.mp hcore with rfl | hcore
      · rw [heligible, Bool.true_and, decide_eq_true_eq, Int32.lt_iff_toInt_lt] at hc
        omega
      · exact hall core hcore heligible

/-- Where a weight of an eligible core is positive, a core of positive weight is selected. -/
theorem selectCore_pos {eligible : BiuSubcore → Bool} {weights : BiuSubcore → Int32}
    (h : ∃ core, eligible core = true ∧ 0 < (weights core).toInt) :
    ∃ core, BiuWriteCommands.selectCore eligible weights = some core ∧ 0 < (weights core).toInt := by
  obtain ⟨core, heligible, hpos⟩ := h
  obtain ⟨-, hall, hr⟩ := highest_foldl eligible weights BiuWriteCommands.cores (Int32.minValue, none)
  have hle := hall core (by cases core <;> decide) heligible
  rcases hr with hr | ⟨selected, hr⟩
  · rw [hr] at hle
    have hmin : (weights core).toInt ≤ Int32.minValue.toInt := hle
    have hvalue : Int32.minValue.toInt = -2147483648 := by decide
    omega
  · rw [hr] at hle
    have hselected : (weights core).toInt ≤ (weights selected).toInt := hle
    exact ⟨selected, congrArg Prod.snd hr, by omega⟩

/-! ## Weights -/

theorem toInt_add_of_range {a b : Int32} (hl : -2147483648 ≤ a.toInt + b.toInt) (hu : a.toInt + b.toInt ≤ 2147483647) :
    (a + b).toInt = a.toInt + b.toInt := by
  rw [Int32.toInt_add]
  exact Int.bmod_eq_of_le (by norm_num; omega) (by norm_num; omega)

theorem toInt_sub_of_range {a b : Int32} (hl : -2147483648 ≤ a.toInt - b.toInt) (hu : a.toInt - b.toInt ≤ 2147483647) :
    (a - b).toInt = a.toInt - b.toInt := by
  rw [Int32.toInt_sub]
  exact Int.bmod_eq_of_le (by norm_num; omega) (by norm_num; omega)

/-- The configured weights sum up in `i32`. -/
theorem total_eq (h : config.Balanced) :
    (((0 + (config.weights .cube).toInt32) + (config.weights .vector0).toInt32) +
      (config.weights .vector1).toInt32).toInt = config.totalWeight := by
  have hsum : config.totalWeight = _ := BiuSubcore.sum_eq config.gain
  have h0 := h.gain .cube
  have h1 := h.gain .vector0
  have h2 := h.gain .vector1
  have hle := h.le
  unfold BiuReadConfig.gain at hsum h0 h1 h2
  have hcube : (0 + (config.weights .cube).toInt32).toInt = (config.weights .cube).toInt32.toInt :=
    congrArg Int32.toInt (Int32.zero_add _)
  have hvector0 : ((0 + (config.weights .cube).toInt32) + (config.weights .vector0).toInt32).toInt =
      (config.weights .cube).toInt32.toInt + (config.weights .vector0).toInt32.toInt := by
    rw [toInt_add_of_range (by omega) (by omega), hcube]
  rw [toInt_add_of_range (by omega) (by omega), hvector0, hsum]

/-- A turn in `i32` is a turn of the round robin, where no weight leaves `i32`. -/
theorem reweighted_turn (hconfig : s.config = config) (h : config.Balanced) (hserved : Served config.gain l)
    (hweights : ∀ core, (s.weights core).toInt = running config.gain l core) (hpos : 0 < (s.weights core).toInt)
    (j : BiuSubcore) : (s.reweighted (fun _ => true) core j).toInt = running config.gain (l ++ [core]) j := by
  have hlower := hserved.lower (j := j) h.gain h.pos
  have hupper := hserved.upper (j := j) h.gain h.pos
  have hcard : (Fintype.card BiuSubcore : ℤ) = 3 := rfl
  have htotal := total_eq h
  have hgain := h.gain j
  have hle := h.le
  have hj := hweights j
  have hgainLe : config.gain j ≤ config.totalWeight :=
    Finset.single_le_sum (fun core _ => h.gain core) (Finset.mem_univ j)
  have htotalEq : config.totalWeight = ∑ i, config.gain i := rfl
  rw [hcard, ← htotalEq] at hupper
  rw [← htotalEq] at hlower
  rw [running_snoc]
  unfold reweighted turn
  rw [hconfig, ← htotalEq, ← hj]
  simp only [if_true]
  have hfold : ((BiuWriteCommands.cores.filter fun _ => true).foldl
      (fun sum core => sum + (config.weights core).toInt32) 0).toInt = config.totalWeight := htotal
  have hgainEq : (config.weights j).toInt32.toInt = config.gain j := rfl
  by_cases hcore : j = core
  · subst hcore
    rw [Function.update_self, if_pos rfl]
    have hsub := toInt_sub_of_range (a := s.weights j) (b := (BiuWriteCommands.cores.filter fun _ => true).foldl
      (fun sum core => sum + (config.weights core).toInt32) 0) (by omega) (by omega)
    rw [toInt_add_of_range (by omega) (by omega), hsub, hfold, hgainEq]
  · rw [Function.update_of_ne hcore, if_neg hcore, toInt_add_of_range (by omega) (by omega), hgainEq]

/-! ## Runs -/

/-- The running weights are those of the selections so far. -/
structure Weighted (config : BiuReadConfig) (l : List BiuSubcore) (s : BiuReadFrontend) : Prop where
  configured : s.config = config
  served : Served config.gain l
  weights : ∀ core, (s.weights core).toInt = running config.gain l core

theorem weighted_new (config : BiuReadConfig) : Weighted config [] (new config) :=
  ⟨rfl, AtEach.nil, fun core => by rw [running_nil]; rfl⟩

/-- Where all cores contend, one of positive weight is selected. -/
theorem Weighted.selection (hw : Weighted config l s) (h : config.Balanced) (hcontended : s.contended tick = true) :
    ∃ core, s.selection tick = some core ∧ 0 < (s.weights core).toInt := by
  obtain ⟨heligible, hblocked⟩ := eligible_of_contended hcontended
  obtain ⟨core, hpos⟩ := exists_pos (l := l) (show 0 < ∑ core, config.gain core from h.pos)
  rw [← hw.weights core] at hpos
  unfold BiuReadFrontend.selection
  rw [hblocked, if_neg Bool.false_ne_true, heligible]
  exact selectCore_pos ⟨core, rfl, hpos⟩

end BiuReadFrontend

section Runs

open BiuReadFrontend

def BiuReadEvent.selected : BiuReadEvent → Option BiuSubcore
  | (_, .ok (.arbitrated arbitration)) => arbitration.selected
  | _ => none

/-- The cores selected, in order. -/
def selections (t : List BiuReadEvent) : List BiuSubcore := t.filterMap BiuReadEvent.selected

/-- The call arbitrated and selected, or did not arbitrate. -/
def BiuReadEvent.Selects (x : BiuReadEvent) : Prop := ∀ a, x.2 = .ok (.arbitrated a) → a.selected.isSome = true

variable {config : BiuReadConfig} {s s' : BiuReadFrontend} {t : List BiuReadEvent} {l : List BiuSubcore} {log : ReadLog}

theorem BiuReadFrontend.exec_weighted (hb : config.Balanced) (h : Inv config log s) (hw : Weighted config l s)
    (c : BiuReadCall) (hc : contends c s = true) :
    Weighted config (l ++ (BiuReadEvent.selected (c, (exec c s).1)).toList) (exec c s).2 ∧
      BiuReadEvent.Selects (c, (exec c s).1) := by
  -- Only an arbitration selects, or changes a weight.
  have hquiet (r : Outcome BiuReadError BiuReadReply) (s' : BiuReadFrontend) (hexec : exec c s = (r, s'))
      (hsame : s'.config = s.config ∧ s'.weights = s.weights) (hr : ∀ a, r ≠ .ok (.arbitrated a)) :
      Weighted config (l ++ (BiuReadEvent.selected (c, (exec c s).1)).toList) (exec c s).2 ∧
        BiuReadEvent.Selects (c, (exec c s).1) := by
    have hselected : BiuReadEvent.selected (c, r) = none := by
      unfold BiuReadEvent.selected
      split
      · rename_i heq
        exact absurd (congrArg Prod.snd heq) (hr _)
      · rfl
    rw [hexec, hselected, Option.toList_none, List.append_nil]
    exact ⟨⟨hsame.1.trans hw.configured, hw.served, fun core => by rw [hsame.2]; exact hw.weights core⟩,
      fun a ha => absurd ha (hr a)⟩
  cases c with
  | push tick input =>
    rcases push_cases s tick input with ⟨e, he⟩ | hfalse | ⟨-, ready, hok⟩
    · exact hquiet _ _ (reply_eq he) ⟨rfl, rfl⟩ fun a ha => by cases ha
    · exact hquiet _ _ (reply_eq hfalse) ⟨rfl, rfl⟩ fun a ha => by cases ha
    · exact hquiet _ _ (reply_eq hok) ⟨rfl, rfl⟩ fun a ha => by cases ha
  | arbitrate tick =>
    obtain ⟨core, hselection, hpos⟩ := hw.selection hb hc
    rcases arbitrate_cases s tick with ⟨e, he⟩ | ⟨hnone, -⟩ | ⟨core', entry, queue, ready, hsome, -, hok⟩
    · exact hquiet _ _ (reply_eq he) ⟨rfl, rfl⟩ fun a ha => by cases ha
    · rw [hselection] at hnone
      cases hnone
    · obtain rfl := Option.some.inj (hselection.symm.trans hsome)
      have hexec := reply_eq (f := BiuReadReply.arbitrated) hok
      have hweight : 0 < running config.gain l core := by
        rw [← hw.weights core]
        exact hpos
      show Weighted config (l ++ (BiuReadEvent.selected (_, (reply BiuReadReply.arbitrated (arbitrate tick s)).1)).toList)
        (reply BiuReadReply.arbitrated (arbitrate tick s)).2 ∧ BiuReadEvent.Selects (_, (reply BiuReadReply.arbitrated (arbitrate tick s)).1)
      rw [hexec]
      refine ⟨⟨hw.configured, hw.served.snoc hweight, fun j => ?_⟩, fun a ha => by cases ha; rfl⟩
      have hturn := reweighted_turn hw.configured hb hw.served hw.weights hpos j
      rw [← (eligible_of_contended hc).1] at hturn
      exact hturn
  | send tick transportReady =>
    have hreserve : s.reserve.config = s.config ∧ s.reserve.weights = s.weights := by
      rw [reserve_same]
      exact ⟨rfl, rfl⟩
    rcases send_cases s tick transportReady (fun x hx => (h.flow.current x hx).2) with
      ⟨e, he⟩ | ⟨r, s', hok, -, hs'⟩ | ⟨r, head, current, piece, rest, tag, -, -, -, -, hok⟩
    · exact hquiet _ _ (reply_eq he) ⟨rfl, rfl⟩ fun a ha => by cases ha
    · refine hquiet _ _ (reply_eq hok) ?_ fun a ha => by cases ha
      rcases hs' with rfl | rfl
      · exact ⟨rfl, rfl⟩
      · exact hreserve
    · exact hquiet _ _ (reply_eq hok) hreserve fun a ha => by cases ha
  | releaseTag tick tag =>
    rcases releaseTag_cases s tick tag with ⟨e, he⟩ | ⟨request, -, hok⟩
    · exact hquiet _ _ (reply_eq he) ⟨rfl, rfl⟩ fun a ha => by cases ha
    · exact hquiet _ _ (reply_eq hok) ⟨rfl, rfl⟩ fun a ha => by cases ha

theorem BiuReadFrontend.run_weighted (hb : config.Balanced) (h : Run (callsWhen (fun c s => contends c s = true) exec) (.new config) t s) :
    Inv config (ReadLog.of t) s ∧ Weighted config (selections t) s ∧ ∀ x ∈ t, x.Selects := by
  refine h.inv (I := fun t s => Inv config (ReadLog.of t) s ∧ Weighted config (selections t) s ∧ ∀ x ∈ t, x.Selects)
    ⟨inv_new config, weighted_new config, fun x hx => absurd hx List.not_mem_nil⟩ ?_
  rintro t s ⟨c, r⟩ s' ⟨hinv, hw, hall⟩ ⟨hc, hcall⟩
  have hcall : exec c s = (r, s') := hcall
  have hkept := (exec_keeps hinv c).2
  obtain ⟨hweighted, hselects⟩ := exec_weighted hb hinv hw c hc
  rw [hcall] at hkept hweighted hselects
  refine ⟨by rw [ReadLog.of_snoc]; exact hkept, ?_, fun x hx => ?_⟩
  · have hselections : selections (t ++ [(c, r)]) = selections t ++ (BiuReadEvent.selected (c, r)).toList := by
      unfold selections
      rw [List.filterMap_append]
      congr 1
    rw [hselections]
    exact hweighted
  · rcases List.mem_append.mp hx with hx | hx
    · exact hall x hx
    · obtain rfl := List.mem_singleton.mp hx
      exact hselects

/-- While all cores contend, every arbitration selects a core; among as many selections as the weights sum up to each core
is selected as often as its weight says; and after them the running weights are the initial ones. -/
theorem weighted_arbitration_fair (hb : config.Balanced) (h : Run (callsWhen (fun c s => contends c s = true) exec) (.new config) t s) :
    (∀ x ∈ t, x.Selects) ∧
      (config.totalWeight ≤ (selections t).length →
        ∀ core, (((selections t).take config.totalWeight.toNat).count core : ℤ) = config.gain core) ∧
      ((selections t).length = config.totalWeight → s.weights = (BiuReadFrontend.new config).weights) := by
  obtain ⟨-, hw, hall⟩ := run_weighted hb h
  have hpos := hb.pos
  refine ⟨hall, fun hlength => ?_, fun hlength => funext fun core => ?_⟩
  · refine ((hw.served.take config.totalWeight.toNat).round hb.gain ?_).1
    rw [List.length_take]
    show _ = config.totalWeight
    omega
  · have hround := (hw.served.round hb.gain hlength).2
    exact Int32.toInt_inj.mp ((hw.weights core).trans (congrFun hround core))

/-- The cube core weighs as much as both vector cores. -/
def sampleWeights : BiuReadConfig where
  outstanding := ⟨8, by decide⟩
  weights := fun core => if core = .cube then 2 else 1

theorem sampleWeights_total : sampleWeights.totalWeight = 4 := by decide +kernel

theorem sampleWeights_balanced : sampleWeights.Balanced :=
  ⟨fun core => by cases core <;> decide +kernel, by rw [sampleWeights_total]; decide, by rw [sampleWeights_total]; decide⟩

/-- 64 bytes of a core. -/
def sampleLine (destination : BiuWriteDestination) : BiuReadInput where
  subcore := destination.subcore
  destination
  prefetch := false
  generated := ⟨7, ⟨.ordinary, 0, 0, 64, true⟩, ⟨0, 64, 64⟩, .wide256, false, true⟩

/-- Three lines of the cube core and two of each vector core, one round of arbitrations, with a send between any two. -/
def sampleRound : List BiuReadCall :=
  [.l1, .ub0, .ub1, .l1, .ub0, .ub1, .l1].map (fun destination => .push 0 (sampleLine destination)) ++
    [.arbitrate 3, .send 4 true, .arbitrate 4, .send 5 true, .arbitrate 5, .send 6 true, .arbitrate 6]

theorem sampleRound_contended : Allowed (fun c s => contends c s = true) exec (.new sampleWeights) sampleRound :=
  ⟨rfl, rfl, rfl, rfl, rfl, rfl, rfl, by decide +kernel, rfl, by decide +kernel, rfl, by decide +kernel, rfl,
    by decide +kernel, trivial⟩

theorem weighted_arbitration_fair_sample :
    let r := runCalls exec (.new sampleWeights) sampleRound
    selections r.1 = [.cube, .vector0, .vector1, .cube] ∧
      (∀ core, (((selections r.1).take 4).count core : ℤ) = sampleWeights.gain core) ∧
      r.2.weights = (BiuReadFrontend.new sampleWeights).weights := by
  have h := weighted_arbitration_fair sampleWeights_balanced (run_allowed exec sampleRound_contended)
  rw [sampleWeights_total] at h
  exact ⟨by decide +kernel, h.2.1 (by decide +kernel), h.2.2 (by decide +kernel)⟩

end Runs

end AscendEmulator.C220.Mte
