/-
  AscendEmulator.Lib.Outcome — what a call that may panic comes to: a value, an error it returns, or a panic.

  `Safe x` says that `x` does not panic; `Safe.bind` carries it along a chain of calls, with what the
  calls before have returned.
-/

import AscendEmulator.Lib.Run

namespace AscendEmulator.Lib

variable {ε δ α β : Type}

inductive Fault (ε : Type) where
  | returned (e : ε)
  | panicked
  deriving DecidableEq, Repr

abbrev Outcome (ε α : Type) := Except (Fault ε) α

namespace Outcome

/-- `return Err(e)`. -/
def fail (e : ε) : Outcome ε α := .error (.returned e)

def panicked : Outcome ε α := .error .panicked

/-- `Option::ok_or`. -/
def okOr (e : ε) : Option α → Outcome ε α
  | some a => .ok a
  | none => fail e

/-- `Option::expect`, and the indexing of a slice. -/
def expect : Option α → Outcome ε α
  | some a => .ok a
  | none => panicked

/-- `if c { return Err(e) }`. -/
def failIf (c : Bool) (e : ε) : Outcome ε Unit := if c then fail e else .ok ()

/-- An addition of `u64` that is not checked. -/
def plainAdd (a b : Nat) : Outcome ε Nat := expect (checkedAdd a b)

/-- `Result::map_err`. -/
def mapErr (f : ε → δ) : Outcome ε α → Outcome δ α
  | .ok a => .ok a
  | .error (.returned e) => fail (f e)
  | .error .panicked => panicked

/-! ## No panic -/

def Safe (x : Outcome ε α) : Prop := x ≠ .error .panicked

variable {x : Outcome ε α} {f : α → Outcome ε β}

theorem safe_ok (a : α) : Safe (.ok a : Outcome ε α) := nofun

theorem safe_fail (e : ε) : Safe (fail e : Outcome ε α) := nofun

theorem safe_okOr (e : ε) (o : Option α) : Safe (okOr e o) := by
  cases o <;> nofun

theorem safe_failIf (c : Bool) (e : ε) : Safe (failIf c e) := by
  unfold failIf
  split <;> nofun

theorem safe_expect {o : Option α} (h : o.isSome = true) : Safe (expect o : Outcome ε α) := by
  cases o with
  | some a => nofun
  | none => cases h

theorem bind_ok {b : β} : (x >>= f) = .ok b ↔ ∃ a, x = .ok a ∧ f a = .ok b := by
  cases x with
  | error e => exact ⟨nofun, fun ⟨_, h, _⟩ => by cases h⟩
  | ok a => exact ⟨fun h => ⟨a, rfl, h⟩, fun ⟨_, h, hb⟩ => by cases h; exact hb⟩

/-- A chain does not panic if its head does not, nor its tail on what the head returned. -/
theorem Safe.bind (hx : Safe x) (hf : ∀ a, x = .ok a → Safe (f a)) : Safe (x >>= f) := by
  cases x with
  | error e => exact fun h => hx (by cases h; rfl)
  | ok a => exact hf a rfl

theorem Safe.map {g : α → β} (hx : Safe x) : Safe (g <$> x) := by
  cases x with
  | error e => exact fun h => hx (by cases h; rfl)
  | ok a => nofun

theorem Safe.mapErr {g : ε → δ} (hx : Safe x) : Safe (mapErr g x) := by
  cases x with
  | error e =>
    cases e with
    | returned e => nofun
    | panicked => exact absurd rfl hx
  | ok a => nofun

theorem safe_mapM {l : List α} (h : ∀ a ∈ l, Safe (f a)) : Safe (l.mapM f) := by
  induction l with
  | nil => exact safe_ok []
  | cons a l ih =>
    rw [List.mapM_cons]
    refine (h a (by simp)).bind fun b _ => ?_
    exact (ih fun a' ha' => h a' (by simp [ha'])).bind fun bs _ => safe_ok (b :: bs)

/-- `x` does not panic, and what it returns is as `P` says. -/
def Ensures (P : α → Prop) (x : Outcome ε α) : Prop := Safe x ∧ ∀ a, x = .ok a → P a

theorem ensures_ok {P : α → Prop} {a : α} (h : P a) : Ensures P (.ok a : Outcome ε α) :=
  ⟨safe_ok a, fun _ h' => by cases h'; exact h⟩

theorem ensures_fail (P : α → Prop) (e : ε) : Ensures P (fail e : Outcome ε α) := ⟨safe_fail e, nofun⟩

theorem Safe.ensures_bind {P : β → Prop} (hx : Safe x) (hf : ∀ a, x = .ok a → Ensures P (f a)) :
    Ensures P (x >>= f) := by
  cases x with
  | error e => exact ⟨fun h => hx (by cases h; rfl), nofun⟩
  | ok a => exact hf a rfl

/-! ## Errors returned -/

/-- `x` returns an error. -/
def Fails (x : Outcome ε α) : Prop := ∃ e, x = .error (.returned e)

theorem fails_failIf {c : Bool} (e : ε) (h : c = true) : Fails (failIf c e) := ⟨e, by rw [h]; rfl⟩

theorem Fails.bind (hx : Fails x) : Fails (x >>= f) := by
  obtain ⟨e, rfl⟩ := hx
  exact ⟨e, rfl⟩

/-- A chain returns an error if its tail does, unless its head has already. -/
theorem Fails.after (hx : Safe x) (hf : ∀ a, x = .ok a → Fails (f a)) : Fails (x >>= f) := by
  rcases x with (e | _) | a
  · exact ⟨e, rfl⟩
  · exact absurd rfl hx
  · exact hf a rfl

/-! ## What a call returned -/

theorem okOr_ok {e : ε} {o : Option α} {a : α} : okOr e o = .ok a ↔ o = some a := by
  cases o with
  | none => exact ⟨nofun, nofun⟩
  | some b => exact ⟨fun h => by cases h; rfl, fun h => by cases h; rfl⟩

theorem expect_ok {o : Option α} {a : α} : (expect o : Outcome ε α) = .ok a ↔ o = some a := by
  cases o with
  | none => exact ⟨nofun, nofun⟩
  | some b => exact ⟨fun h => by cases h; rfl, fun h => by cases h; rfl⟩

theorem plainAdd_bind {a b : Nat} {f : Nat → Outcome ε β} (h : a + b < u64) : (plainAdd a b >>= f) = f (a + b) := by
  rw [plainAdd, checkedAdd_eq_some.mpr ⟨h, rfl⟩]
  rfl

theorem failIf_ok {c : Bool} {e : ε} {u : Unit} : failIf c e = .ok u ↔ c = false := by
  cases c with
  | true => exact ⟨nofun, nofun⟩
  | false => exact ⟨fun _ => rfl, fun _ => rfl⟩

theorem mapErr_ok {g : ε → δ} {a : α} : mapErr g x = .ok a ↔ x = .ok a := by
  rcases x with (_ | _) | b
  · exact ⟨nofun, nofun⟩
  · exact ⟨nofun, nofun⟩
  · exact ⟨fun h => by cases h; rfl, fun h => by cases h; rfl⟩

/-- The results of `mapM` are those of the elements, in order. -/
theorem mapM_ok {l : List α} {r : List β} (h : l.mapM f = .ok r) : List.Forall₂ (fun a b => f a = .ok b) l r := by
  induction l generalizing r with
  | nil =>
    cases h
    exact .nil
  | cons a l ih =>
    rw [List.mapM_cons] at h
    obtain ⟨b, hb, h⟩ := bind_ok.mp h
    obtain ⟨bs, hbs, h⟩ := bind_ok.mp h
    cases h
    exact .cons hb (ih hbs)

theorem exists_of_mem_mapM {l : List α} {r : List β} (h : l.mapM f = .ok r) {b : β} (hb : b ∈ r) :
    ∃ a ∈ l, f a = .ok b := by
  have h₂ := mapM_ok h
  clear h
  induction h₂ with
  | nil => cases hb
  | cons hab _ ih =>
    rcases List.mem_cons.mp hb with rfl | hb
    · exact ⟨_, by simp, hab⟩
    · obtain ⟨a, ha, hfa⟩ := ih hb
      exact ⟨a, by simp [ha], hfa⟩

theorem ok_of_mem_mapM {l : List α} {r : List β} (h : l.mapM f = .ok r) {a : α} (ha : a ∈ l) : ∃ b, f a = .ok b := by
  have h₂ := mapM_ok h
  clear h
  induction h₂ with
  | nil => cases ha
  | cons hab _ ih =>
    rcases List.mem_cons.mp ha with rfl | ha
    · exact ⟨_, hab⟩
    · exact ih ha

theorem mapM_eq {l : List α} {g : α → β} (h : ∀ a ∈ l, f a = .ok (g a)) : l.mapM f = .ok (l.map g) := by
  induction l with
  | nil => rfl
  | cons a l ih =>
    rw [List.mapM_cons, h a (by simp), ih fun a' ha' => h a' (by simp [ha'])]
    rfl

/-- A loop whose turns return no error computes the same fold, through a representation of its state. -/
theorem foldlM_eq {σ τ : Type} {l : List α} {f : σ → α → Outcome ε σ} {g : τ → α → τ} {repr : τ → σ} {P : τ → Prop}
    (hstep : ∀ t, P t → ∀ a ∈ l, f (repr t) a = .ok (repr (g t a)) ∧ P (g t a)) {t : τ} (ht : P t) :
    l.foldlM f (repr t) = .ok (repr (l.foldl g t)) := by
  induction l generalizing t with
  | nil => rfl
  | cons a l ih =>
    obtain ⟨hf, hP⟩ := hstep t ht a (by simp)
    rw [List.foldlM_cons, hf]
    exact ih (fun t ht a' ha' => hstep t ht a' (by simp [ha'])) hP

/-- A loop over a range reaches `g n` if its turn `i` goes from `g i` to `g (i + 1)`. -/
theorem foldlM_range_eq {σ : Type} {f : σ → Nat → Outcome ε σ} {g : Nat → σ} {n : Nat}
    (hstep : ∀ i < n, f (g i) i = .ok (g (i + 1))) : (List.range n).foldlM f (g 0) = .ok (g n) := by
  induction n with
  | zero => rfl
  | succ n ih =>
    rw [List.range_succ, List.foldlM_append, ih fun i hi => hstep i (by omega)]
    change [n].foldlM f (g n) = _
    rw [List.foldlM_cons, hstep n (by omega)]
    rfl

end Outcome

end AscendEmulator.Lib
