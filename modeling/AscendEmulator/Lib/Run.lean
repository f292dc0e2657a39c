/-
  AscendEmulator.Lib.Run — calls on a state, the runs they make, and the induction
  rule for what a run keeps.

  A call returns a value and leaves a state, on an error too: `σ → ο × σ`. A run is
  the list of the calls made with what each returned (its trace), newest last, so an
  invariant may speak of the history as well as of the state (`Run.inv`).
-/

import Mathlib

namespace AscendEmulator.Lib

variable {σ ι ο ε α β : Type}

/-! ## Runs -/

/-- `Run step s t u`: the steps labelled by `t`, in order, lead from `s` to `u`. -/
inductive Run (step : σ → ι → σ → Prop) (s : σ) : List ι → σ → Prop
  | nil : Run step s [] s
  | snoc {t : List ι} {u v : σ} {a : ι} : Run step s t u → step u a v → Run step s (t ++ [a]) v

variable {step : σ → ι → σ → Prop} {s u v : σ}

/-- What holds at the start and is kept by every step holds after every run. -/
theorem Run.inv {I : List ι → σ → Prop} {t : List ι} (h : Run step s t u) (h0 : I [] s)
    (hs : ∀ t u a v, I t u → step u a v → I (t ++ [a]) v) : I t u := by
  induction h with
  | nil => exact h0
  | snoc _ ha ih => exact hs _ _ _ _ ih ha

/-- The rule for an invariant of the state alone. -/
theorem Run.keeps {I : σ → Prop} {t : List ι} (h : Run step s t u) (h0 : I s)
    (hs : ∀ u a v, I u → step u a v → I v) : I u :=
  h.inv (I := fun _ => I) h0 fun _ _ _ _ hu ha => hs _ _ _ hu ha

theorem Run.single {a : ι} (h : step s a u) : Run step s [a] u := by
  have h0 : Run step s [] s := .nil
  simpa using h0.snoc h

theorem Run.nil_eq {t : List ι} (h : Run step s t u) (ht : t = []) : u = s := by
  cases h with
  | nil => rfl
  | snoc _ _ => simp at ht

theorem Run.append {t r : List ι} (h : Run step s t u) (hr : Run step u r v) : Run step s (t ++ r) v := by
  induction hr with
  | nil => simpa using h
  | snoc _ ha ih => rw [← List.append_assoc]; exact .snoc ih ha

/-- A run under a stronger step relation is a run. -/
theorem Run.mono {step' : σ → ι → σ → Prop} {t : List ι} (h : Run step s t u)
    (hm : ∀ u a v, step u a v → step' u a v) : Run step' s t u := by
  induction h with
  | nil => exact .nil
  | snoc _ ha ih => exact .snoc ih (hm _ _ _ ha)

/-- At each step of the trace, `P` of the steps before it and of the step. -/
def AtEach (P : List ι → ι → Prop) (t : List ι) : Prop := ∀ before x after, t = before ++ x :: after → P before x

theorem AtEach.nil {P : List ι → ι → Prop} : AtEach P [] := by
  intro before x after h
  simp at h

theorem AtEach.snoc {P : List ι → ι → Prop} {t : List ι} {y : ι} (h : AtEach P t) (hy : P t y) : AtEach P (t ++ [y]) := by
  intro before x after ht
  rcases List.eq_nil_or_concat' after with rfl | ⟨after', z, rfl⟩
  · obtain ⟨rfl, hx⟩ := List.append_inj' ht rfl
    obtain rfl := List.singleton_inj.mp hx
    exact hy
  · rw [← List.cons_append, ← List.append_assoc] at ht
    exact h before x after' (List.append_inj' ht rfl).1

/-- The steps of total calls: the label is the call with what it returned. -/
def calls (exec : ι → σ → ο × σ) (s : σ) (l : ι × ο) (u : σ) : Prop := exec l.1 s = (l.2, u)

theorem calls_intro (exec : ι → σ → ο × σ) (s : σ) (c : ι) : calls exec s (c, (exec c s).1) (exec c s).2 := rfl

/-- The run that makes `cs` in order, with what each call returned. -/
def runCalls (exec : ι → σ → ο × σ) : σ → List ι → List (ι × ο) × σ
  | s, [] => ([], s)
  | s, c :: cs =>
    let r := runCalls exec (exec c s).2 cs
    ((c, (exec c s).1) :: r.1, r.2)

theorem run_runCalls (exec : ι → σ → ο × σ) (s : σ) (cs : List ι) :
    Run (calls exec) s (runCalls exec s cs).1 (runCalls exec s cs).2 := by
  induction cs generalizing s with
  | nil => exact .nil
  | cons c cs ih => exact Run.append (.single (calls_intro exec s c)) (ih (exec c s).2)

/-- Calls seen through `f` run alike: what they return, and what they lead to. -/
theorem runCalls_map {τ : Type} {exec : ι → σ → ο × σ} {exec' : ι → τ → ο × τ} (f : σ → τ)
    (h : ∀ c s, exec' c (f s) = ((exec c s).1, f (exec c s).2)) (s : σ) (cs : List ι) :
    runCalls exec' (f s) cs = ((runCalls exec s cs).1, f (runCalls exec s cs).2) := by
  induction cs generalizing s with
  | nil => rfl
  | cons c cs ih => simp only [runCalls, h, ih]

/-- The steps of total calls, taken where `p` allows them. -/
def callsWhen (p : ι → σ → Prop) (exec : ι → σ → ο × σ) (s : σ) (x : ι × ο) (u : σ) : Prop := p x.1 s ∧ calls exec s x u

/-- `p` allows each call in its turn. -/
def Allowed (p : ι → σ → Prop) (exec : ι → σ → ο × σ) : σ → List ι → Prop
  | _, [] => True
  | s, c :: cs => p c s ∧ Allowed p exec (exec c s).2 cs

theorem run_allowed {p : ι → σ → Prop} (exec : ι → σ → ο × σ) {s : σ} {cs : List ι} (h : Allowed p exec s cs) :
    Run (callsWhen p exec) s (runCalls exec s cs).1 (runCalls exec s cs).2 := by
  induction cs generalizing s with
  | nil => exact .nil
  | cons c cs ih => exact Run.append (.single ⟨h.1, calls_intro exec s c⟩) (ih h.2)

/-! ## Calls that may stop -/

/-- The steps of calls that may stop without a state, taken where `p` allows them. -/
def stepWhen (p : ι → σ → Prop) (exec : ι → σ → Option σ) (s : σ) (c : ι) (u : σ) : Prop := p c s ∧ exec c s = some u

/-- The state after `cs`, if each was allowed and none stopped. -/
def runWhen (p : ι → σ → Prop) [∀ c s, Decidable (p c s)] (exec : ι → σ → Option σ) : σ → List ι → Option σ
  | s, [] => some s
  | s, c :: cs => if p c s then (exec c s).bind fun u => runWhen p exec u cs else none

theorem run_runWhen {p : ι → σ → Prop} [∀ c s, Decidable (p c s)] {exec : ι → σ → Option σ} {cs : List ι}
    (h : runWhen p exec s cs = some u) : Run (stepWhen p exec) s cs u := by
  induction cs generalizing s with
  | nil => cases h; exact .nil
  | cons c cs ih =>
    rw [runWhen] at h
    split at h
    · rename_i hp
      obtain ⟨w, hw, h⟩ := Option.bind_eq_some_iff.mp h
      exact Run.append (.single ⟨hp, hw⟩) (ih h)
    · cases h

/-! ## Calls that may fail -/

/-- A call on `σ`: it returns a value or an error, and leaves a state either way. -/
abbrev Call (σ ε α : Type) := σ → Except ε α × σ

theorem ok_inj {a b : α} {s t : σ} (h : ((.ok a : Except ε α), s) = (.ok b, t)) : a = b ∧ s = t := by
  simpa using h

/-- Wraps the value a call returned, to give the calls of one state a common type. -/
def reply (f : α → β) (r : Except ε α × σ) : Except ε β × σ := (r.1.map f, r.2)

theorem reply_eq {f : α → β} {r : Except ε α × σ} {x : Except ε α} (h : r = (x, u)) : reply f r = (x.map f, u) := by
  rw [h]
  rfl

theorem reply_ok {f : α → β} {r : Except ε α × σ} {b : β} (h : reply f r = (.ok b, u)) :
    ∃ a, r = (.ok a, u) ∧ f a = b := by
  obtain ⟨e | a, v⟩ := r
  · cases h
  · exact ⟨a, by cases h; rfl, by cases h; rfl⟩

theorem reply_error {f : α → β} {r : Except ε α × σ} {e : ε} (h : reply f r = (.error e, u)) :
    r = (.error e, u) := by
  obtain ⟨e | a, v⟩ := r
  · cases h; rfl
  · cases h

/-- Rust's `?`: go on with the value, or return the error in the state it left. -/
def Call.bind (c : Call σ ε α) (f : α → Call σ ε β) : Call σ ε β := fun s =>
  match c s with
  | (.ok a, u) => f a u
  | (.error e, u) => (.error e, u)

/-- `c` keeps `I`, whatever it returns. -/
def Call.Keeps (I : σ → Prop) (c : Call σ ε α) : Prop := ∀ s, I s → I (c s).2

theorem Call.Keeps.bind {I : σ → Prop} {c : Call σ ε α} {f : α → Call σ ε β} (hc : c.Keeps I)
    (hf : ∀ a, (f a).Keeps I) : (c.bind f).Keeps I := by
  intro s hs
  have := hc s hs
  unfold Call.bind
  split
  · rename_i a u h; rw [h] at this; exact hf a u this
  · rename_i e u h; rw [h] at this; exact this

/-- A call that succeeded went through both halves. -/
theorem Call.bind_ok {c : Call σ ε α} {f : α → Call σ ε β} {b : β} (h : (c.bind f) s = (.ok b, u)) :
    ∃ a w, c s = (.ok a, w) ∧ f a w = (.ok b, u) := by
  unfold Call.bind at h
  split at h
  · rename_i a w hc; exact ⟨a, w, hc, h⟩
  · cases h

theorem toOption_get {x : Except ε α} (h : x.toOption.isSome = true) : x = .ok (x.toOption.get h) := by
  cases x with
  | error e => cases h
  | ok a => rfl

/-! ## Machine integers -/

-- Named, so that a numeral of a small `Fin` elaborates to one term wherever it stands.
instance neZeroTwo : NeZero 2 := ⟨by decide⟩
instance neZeroThree : NeZero 3 := ⟨by decide⟩
instance neZeroFour : NeZero 4 := ⟨by decide⟩

/-- One past the largest `u64`. -/
def u64 : Nat := 2 ^ 64

/-- One past the largest `u32`. -/
def u32 : Nat := 2 ^ 32

/-- `u64::checked_add`. -/
def checkedAdd (a b : Nat) : Option Nat := if a + b < u64 then some (a + b) else none

theorem checkedAdd_eq_some {a b c : Nat} : checkedAdd a b = some c ↔ a + b < u64 ∧ c = a + b := by
  unfold checkedAdd
  split <;> simp [*, eq_comm]

theorem checkedAdd_eq_none {a b : Nat} : checkedAdd a b = none ↔ u64 ≤ a + b := by
  unfold checkedAdd
  split <;> simp <;> omega

/-- Adding 1 to a number below `bound`, with wrap-around. -/
def wrappingSucc (bound n : Nat) : Nat := if n + 1 = bound then 0 else n + 1

/-- Subtracting 1 from a number below `bound`, with wrap-around. -/
def wrappingPred (bound n : Nat) : Nat := if n = 0 then bound - 1 else n - 1

theorem wrappingSucc_of_lt {bound n : Nat} (h : n + 1 < bound) : wrappingSucc bound n = n + 1 :=
  if_neg (Nat.ne_of_lt h)

theorem wrappingPred_of_pos {bound n : Nat} (h : 0 < n) : wrappingPred bound n = n - 1 :=
  if_neg (Nat.ne_of_gt h)

end AscendEmulator.Lib
