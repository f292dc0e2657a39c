/-
  AscendEmulator.C220.Fixp.Ledger — the outstanding commands of the FIX engine, as its calls tell them.

  The ledger lists the admitted commands that have not retired, in admission order, with what each has
  done since. It is read off the trace alone; `Tracks` says that every queue and map of the engine is a
  view of it, and one call changes both alike (`Tracks.step`).
-/

import AscendEmulator.C220.Fixp.Engine

namespace AscendEmulator.C220.Fixp

open Lib

/-! ## The ledger -/

inductive Kind where
  | fix (enabled : Bool)
  | factor (nonempty : Bool)
  | control
  | crossCore
  deriving DecidableEq

structure Entry where
  id : Nat
  kind : Kind
  executed : Bool
  dispatched : Bool
  completed : Bool
  deriving DecidableEq

namespace Entry

def admitted (id : Nat) (kind : Kind) : Entry := ⟨id, kind, false, false, false⟩

def isFix (e : Entry) : Bool :=
  match e.kind with
  | .fix _ => true
  | _ => false

/-- The last packet of the command is still to be dispatched. -/
def awaiting (e : Entry) : Bool :=
  match e.kind with
  | .fix true | .factor true => !e.dispatched
  | _ => false

/-- The command may retire: a FIX command that is enabled has executed, dispatched its last write and completed. -/
def ready (e : Entry) : Bool :=
  match e.kind with
  | .fix true => e.executed && e.dispatched && e.completed
  | .factor true => e.dispatched && e.completed
  | _ => true

end Entry

inductive Event where
  | admitted (id : Nat) (kind : Kind)
  | executed (id : Nat)
  | dispatched (id : Nat)
  | completed (id : Nat)
  | retired (id tick : Nat)
  deriving DecidableEq

/-- The entry of `id` changes. -/
def mark (id : Nat) (f : Entry → Entry) (l : List Entry) : List Entry := l.map fun e => if e.id = id then f e else e

def Event.apply (l : List Entry) : Event → List Entry
  | .admitted id kind => l ++ [.admitted id kind]
  | .executed id => mark id (fun e => { e with executed := true }) l
  | .dispatched id => mark id (fun e => { e with dispatched := true }) l
  | .completed id => mark id (fun e => { e with completed := true }) l
  | .retired id _ => l.filter fun e => e.id ≠ id

section Mark

variable {id : Nat} {f : Entry → Entry} {l : List Entry} {e : Entry}

theorem mem_mark (h : e ∈ mark id f l) : (e.id ≠ id ∧ e ∈ l) ∨ ∃ e₀ ∈ l, e₀.id = id ∧ e = f e₀ := by
  obtain ⟨e₀, he₀, rfl⟩ := List.mem_map.mp h
  split
  · rename_i hid
    exact .inr ⟨e₀, he₀, hid, rfl⟩
  · rename_i hid
    exact .inl ⟨hid, he₀⟩

/-- A change that keeps the ids and what `p` reads keeps the ids that `p` selects. -/
theorem filter_mark {p : Entry → Bool} (hid : ∀ e, (f e).id = e.id) (hp : ∀ e, p (f e) = p e) :
    ((mark id f l).filter p).map Entry.id = (l.filter p).map Entry.id := by
  unfold mark
  induction l with
  | nil => rfl
  | cons e l ih =>
    rw [List.map_cons, List.filter_cons, List.filter_cons]
    have hp' : p (if e.id = id then f e else e) = p e := by
      split
      · exact hp e
      · rfl
    have hid' : (if e.id = id then f e else e).id = e.id := by
      split
      · exact hid e
      · rfl
    rw [hp']
    split
    · rw [List.map_cons, List.map_cons, ih, hid']
    · exact ih

theorem map_id_mark (hid : ∀ e, (f e).id = e.id) : (mark id f l).map Entry.id = l.map Entry.id := by
  have h : ((mark id f l).filter fun _ => true).map Entry.id = (l.filter fun _ => true).map Entry.id :=
    filter_mark hid fun _ => rfl
  simpa using h

/-- Once its last packet is dispatched a command waits no more. -/
theorem awaiting_dispatched :
    ((mark id (fun e => { e with dispatched := true }) l).filter Entry.awaiting).map Entry.id =
      ((l.filter Entry.awaiting).map Entry.id).filter (· ≠ id) := by
  unfold mark
  induction l with
  | nil => rfl
  | cons e l ih =>
    rw [List.map_cons, List.filter_cons, List.filter_cons]
    by_cases hid : e.id = id
    · have hdone : ({ e with dispatched := true } : Entry).awaiting = false := by
        unfold Entry.awaiting
        split <;> rfl
      rw [if_pos hid, hdone, if_neg (by decide), ih]
      split
      · rw [List.map_cons, List.filter_cons, if_neg (by simp [hid])]
      · rfl
    · rw [if_neg hid]
      split
      · rw [List.map_cons, List.map_cons, List.filter_cons, if_pos (by simp [hid]), ih]
      · exact ih

end Mark

abbrev Label := Engine.Call × Except EngineError Engine.Reply

def admissionEvent (id : Nat) (full empty : Kind) : Admission → Option Event
  | .active => some (.admitted id full)
  | .disabledReady => some (.admitted id empty)
  | _ => none

def dispatchEvent : DispatchPacket → Option Event
  | .write id true | .external id true | .factorRead id true => some (.dispatched id)
  | _ => none

/-- What a call that returned did to the outstanding commands. -/
def event : Label → Option Event
  | (.admitFix _ id _ _, .ok (.admission answer)) => admissionEvent id (.fix true) (.fix false) answer
  | (.admitRouted _ id _ _ _, .ok (.admission answer)) => admissionEvent id (.fix true) (.fix false) answer
  | (.admitFactorBatch _ cursor _, .ok (.admission answer)) =>
    admissionEvent cursor.instructionId (.factor true) (.factor false) answer
  | (.admitControl _ id, .ok .done) => some (.admitted id .control)
  | (.admitCrossCore _ id _ _ _, .ok .done) => some (.admitted id .crossCore)
  | (.receiveL0c _ (some (id, .ok true)), .ok .done) => some (.executed id)
  | (.observeWriteDispatch _ packet, .ok .done) => dispatchEvent packet
  | (.completeFactorTransport _ id, .ok .done) => some (.completed id)
  | (.completeWriteTransport _ id, .ok .done) => some (.completed id)
  | (.retireReadyCrossCore tick, .ok (.crossCore (some reception))) => some (.retired reception.instructionId tick)
  | (.retireReadyControl tick, .ok (.control (some id))) => some (.retired id tick)
  | (.retireFactor tick id, .ok (.factor _)) => some (.retired id tick)
  | (.takeReadyWrite tick, .ok (.write (some (id, _)))) => some (.retired id tick)
  | _ => none

def ledger (t : List Label) : List Entry := (t.filterMap event).foldl Event.apply []

/-- The ids admitted, in order. -/
def admissions (t : List Label) : List Nat :=
  (t.filterMap event).filterMap fun
    | .admitted id _ => some id
    | _ => none

/-- The ids retired, with the ticks, in order. -/
def retirements (t : List Label) : List (Nat × Nat) :=
  (t.filterMap event).filterMap fun
    | .retired id tick => some (id, tick)
    | _ => none

section Snoc

variable (t : List Label) (x : Label)

theorem ledger_snoc : ledger (t ++ [x]) = ((event x).map (Event.apply (ledger t))).getD (ledger t) := by
  unfold ledger
  rw [List.filterMap_append, List.foldl_append]
  cases h : event x <;> simp [h]

theorem admissions_snoc {e : Event} (h : event x = some e) :
    admissions (t ++ [x]) = admissions t ++ (match e with | .admitted id _ => [id] | _ => []) := by
  unfold admissions
  rw [List.filterMap_append, List.filterMap_append]
  cases e <;> simp [h]

theorem retirements_snoc {e : Event} (h : event x = some e) :
    retirements (t ++ [x]) = retirements t ++ (match e with | .retired id tick => [(id, tick)] | _ => []) := by
  unfold retirements
  rw [List.filterMap_append, List.filterMap_append]
  cases e <;> simp [h]

theorem snoc_quiet (h : event x = none) :
    ledger (t ++ [x]) = ledger t ∧ admissions (t ++ [x]) = admissions t ∧ retirements (t ++ [x]) = retirements t := by
  refine ⟨by simp [ledger_snoc, h], ?_, ?_⟩
  · simp [admissions, h]
  · simp [retirements, h]

end Snoc

end AscendEmulator.C220.Fixp
