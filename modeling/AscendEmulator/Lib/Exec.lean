/-
  AscendEmulator.Lib.Exec — calls on a state, which may return an error or panic: what they leave of the state.

  `Exec σ ε α` is a call on `&mut σ`: an error leaves the state the call has reached. Of a `view` of the state,
  a `Quiet` call changes nothing, whatever it comes to; one that `Restores` it changes nothing when it returns
  an error. A chain of quiet calls, then one that restores, then calls that return no error (`Commits`),
  restores: nothing is changed before the last call that can fail.
-/

import AscendEmulator.Lib.Outcome

namespace AscendEmulator.Lib

variable {σ τ ρ ε δ α β : Type}

abbrev Exec (σ ε α : Type) := ExceptT (Fault ε) (StateM σ) α

namespace Exec

def outcome (o : Outcome ε α) : Exec σ ε α := fun s => (o, s)

def fail (e : ε) : Exec σ ε α := outcome (Outcome.fail e)

/-- `Option::ok_or`, with `?`. -/
def okOr (e : ε) (o : Option α) : Exec σ ε α := outcome (Outcome.okOr e o)

/-- `Option::expect`, `unreachable!`, and the indexing of an array. -/
def expect (o : Option α) : Exec σ ε α := outcome (Outcome.expect o)

def query (f : σ → α) : Exec σ ε α := fun s => (.ok (f s), s)

def update (f : σ → σ) : Exec σ ε Unit := fun s => (.ok (), f s)

/-- A call on the first part of the state, with the conversion of its errors. -/
def first (f : ε → δ) (c : Exec σ ε α) : Exec (σ × τ) δ α := fun s => (Outcome.mapErr f (c s.1).1, ((c s.1).2, s.2))

/-- `Result::map_err`. -/
def mapErr (f : ε → δ) (c : Exec σ ε α) : Exec σ δ α := fun s => (Outcome.mapErr f (c s).1, (c s).2)

variable {c : Exec σ ε α} {f : α → Exec σ ε β}

theorem bind_error {s s' : σ} {e : Fault ε} (h : c s = (.error e, s')) : (c >>= f) s = (.error e, s') := by
  show (ExceptT.bindCont f) (c s).1 (c s).2 = _
  rw [h]
  rfl

theorem bind_ok {s s' : σ} {a : α} (h : c s = (.ok a, s')) : (c >>= f) s = f a s' := by
  show (ExceptT.bindCont f) (c s).1 (c s).2 = _
  rw [h]
  rfl

@[simp] theorem query_bind (g : σ → α) (f : α → Exec σ ε β) (s : σ) : (query g >>= f) s = f (g s) s := rfl

@[simp] theorem pure_bind_apply (a : α) (f : α → Exec σ ε β) (s : σ) : ((pure a : Exec σ ε α) >>= f) s = f a s := rfl

theorem outcome_ok_bind (a : α) (f : α → Exec σ ε β) : (outcome (.ok a) >>= f) = f a := rfl

/-! ## No panic -/

/-- The call does not panic in the state `s`. -/
def SafeAt (c : Exec σ ε α) (s : σ) : Prop := Outcome.Safe (c s).1

def Safe (c : Exec σ ε α) : Prop := ∀ s, SafeAt c s

theorem safe_pure (a : α) : Safe (pure a : Exec σ ε α) := fun _ => nofun

theorem safe_fail (e : ε) : Safe (fail e : Exec σ ε α) := fun _ => nofun

theorem safe_okOr (e : ε) (o : Option α) : Safe (okOr e o : Exec σ ε α) := fun _ => Outcome.safe_okOr e o

theorem safe_query (g : σ → α) : Safe (query g : Exec σ ε α) := fun _ => nofun

theorem safe_update (g : σ → σ) : Safe (update g : Exec σ ε Unit) := fun _ => nofun

theorem SafeAt.bind {s : σ} (hc : SafeAt c s) (hf : ∀ a s', c s = (.ok a, s') → SafeAt (f a) s') :
    SafeAt (c >>= f) s := by
  rcases h : c s with ⟨e | a, s'⟩
  · intro h'
    rw [bind_error h] at h'
    exact hc (by rw [h]; cases h'; rfl)
  · intro h'
    rw [bind_ok h] at h'
    exact hf a s' h h'

theorem Safe.bind (hc : Safe c) (hf : ∀ a, Safe (f a)) : Safe (c >>= f) :=
  fun s => (hc s).bind fun a s' _ => hf a s'

theorem safe_okOr_bind {e : ε} {o : Option α} (hf : ∀ a, o = some a → Safe (f a)) : Safe (okOr e o >>= f) := by
  cases o with
  | none => exact fun _ => nofun
  | some a => exact hf a rfl

theorem safe_query_bind {g : σ → α} (hf : ∀ s, SafeAt (f (g s)) s) : Safe (query g >>= f) := hf

theorem Safe.map {g : α → β} (hc : Safe c) : Safe (g <$> c) := hc.bind fun a => safe_pure (g a)

theorem safe_outcome {o : Outcome ε α} (h : Outcome.Safe o) : Safe (outcome o : Exec σ ε α) := fun _ => h

theorem safe_first {g : ε → δ} (hc : Safe c) : Safe (first (τ := τ) g c) := fun s => Outcome.Safe.mapErr (hc s.1)

theorem safe_mapErr {g : ε → δ} (hc : Safe c) : Safe (mapErr g c) := fun s => Outcome.Safe.mapErr (hc s)

/-- A chain does not panic where its head does not, nor its tail on what the head came to. -/
theorem safeAt_bind_ok {s s' : σ} {a : α} (h : c s = (.ok a, s')) : SafeAt (c >>= f) s ↔ SafeAt (f a) s' := by
  unfold SafeAt
  rw [bind_ok h]

theorem not_safeAt_bind {s : σ} (h : ¬SafeAt c s) : ¬SafeAt (c >>= f) s := by
  intro hsafe
  refine h fun hpanic => hsafe ?_
  rcases hs : c s with ⟨e | a, s'⟩
  · rw [bind_error hs]
    rw [hs] at hpanic
    cases hpanic
    rfl
  · rw [hs] at hpanic
    cases hpanic

theorem safeAt_first {g : ε → δ} {s : σ × τ} : SafeAt (first (τ := τ) g c) s ↔ SafeAt c s.1 := by
  refine ⟨fun h hpanic => h ?_, fun h => Outcome.Safe.mapErr h⟩
  show Outcome.mapErr g (c s.1).1 = _
  rw [hpanic]
  rfl

theorem safeAt_map {g : α → β} {s : σ} : SafeAt (g <$> c) s ↔ SafeAt c s :=
  ⟨fun h => Classical.not_not.mp fun hc => not_safeAt_bind hc h,
   fun h => SafeAt.bind h fun a s' _ => safe_pure (g a) s'⟩

/-! ## What is left of the state -/

variable {view : σ → ρ}

/-- The call changes nothing of what `view` sees. -/
def Quiet (view : σ → ρ) (c : Exec σ ε α) : Prop := ∀ s, view (c s).2 = view s

/-- The call changes nothing of what `view` sees when it returns an error. -/
def Restores (view : σ → ρ) (c : Exec σ ε α) : Prop := ∀ s e, (c s).1 = .error (.returned e) → view (c s).2 = view s

/-- The call returns no error. -/
def Commits (c : Exec σ ε α) : Prop := ∀ s e, (c s).1 ≠ .error (.returned e)

theorem Quiet.restores (h : Quiet view c) : Restores view c := fun s _ _ => h s

theorem Commits.restores (h : Commits c) : Restores view c := fun s e he => absurd he (h s e)

theorem quiet_outcome (o : Outcome ε α) : Quiet view (outcome o : Exec σ ε α) := fun _ => rfl

theorem quiet_query (g : σ → α) : Quiet view (query g : Exec σ ε α) := fun _ => rfl

theorem quiet_pure (a : α) : Quiet view (pure a : Exec σ ε α) := fun _ => rfl

theorem commits_pure (a : α) : Commits (pure a : Exec σ ε α) := fun _ _ => nofun

theorem commits_update (g : σ → σ) : Commits (update g : Exec σ ε Unit) := fun _ _ => nofun

theorem commits_expect (o : Option α) : Commits (expect o : Exec σ ε α) := by
  intro s e h
  cases o <;> cases h

theorem Commits.bind (hc : Commits c) (hf : ∀ a, Commits (f a)) : Commits (c >>= f) := by
  intro s e h
  rcases hs : c s with ⟨e' | a, s'⟩
  · rw [bind_error hs] at h
    exact hc s e (by rw [hs]; cases h; rfl)
  · rw [bind_ok hs] at h
    exact hf a s' e h

theorem Quiet.bind (hc : Quiet view c) (hf : ∀ a, Quiet view (f a)) : Quiet view (c >>= f) := by
  intro s
  have h := hc s
  rcases hs : c s with ⟨e' | a, s'⟩
  · rw [hs] at h
    rw [bind_error hs]
    exact h
  · rw [hs] at h
    rw [bind_ok hs]
    exact (hf a s').trans h

/-- What is quiet may come before what restores. -/
theorem Quiet.then (hc : Quiet view c) (hf : ∀ a, Restores view (f a)) : Restores view (c >>= f) := by
  intro s e he
  have h := hc s
  rcases hs : c s with ⟨e' | a, s'⟩
  · rw [hs] at h
    rw [bind_error hs]
    exact h
  · rw [hs] at h
    rw [bind_ok hs] at he ⊢
    exact (hf a s' e he).trans h

/-- What returns no error may come after what restores. -/
theorem Restores.then (hc : Restores view c) (hf : ∀ a, Commits (f a)) : Restores view (c >>= f) := by
  intro s e he
  have h := hc s
  rcases hs : c s with ⟨e' | a, s'⟩
  · rw [bind_error hs] at he ⊢
    rw [hs] at h
    exact h e (by cases he; rfl)
  · rw [bind_ok hs] at he
    exact absurd he (hf a s' e)

theorem restores_first {g : ε → δ} {view : σ × τ → ρ} (hc : Restores id c)
    : Restores view (first g c : Exec (σ × τ) δ α) := by
  intro s e he
  have h : (c s.1).2 = s.1 := by
    rcases hs : c s.1 with ⟨(e' | _) | a, s'⟩
    · have := hc s.1 e' (by rw [hs])
      rwa [hs] at this
    · simp only [first, hs] at he
      cases he
    · simp only [first, hs] at he
      cases he
  show view ((c s.1).2, s.2) = view s
  rw [h]

theorem restores_mapErr {g : ε → δ} (hc : Restores view c) : Restores view (mapErr g c) := by
  intro s e he
  rcases hs : c s with ⟨(e' | _) | a, s'⟩
  · have := hc s e' (by rw [hs])
    rw [hs] at this
    show view (c s).2 = view s
    rw [hs]
    exact this
  · simp only [mapErr, hs] at he
    cases he
  · simp only [mapErr, hs] at he
    cases he

end Exec

end AscendEmulator.Lib
