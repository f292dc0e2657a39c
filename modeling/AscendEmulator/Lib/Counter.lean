/-
  AscendEmulator.Lib.Counter — counters of 32 bits, and programs that compute on them in one of two ways.

  A program takes its arithmetic as an argument. With `wrapping` it computes modulo `2 ^ 32`; with `checked` it has a
  result only where no counter leaves its range. A program whose checked run has a result runs the same with counters
  that wrap, and none of them does.
-/

import Mathlib

namespace AscendEmulator.Lib

/-- Addition, subtraction and multiplication of counters. -/
structure Arithmetic (m : Type → Type) where
  add : Nat → Nat → m Nat
  sub : Nat → Nat → m Nat
  mul : Nat → Nat → m Nat

namespace Arithmetic

/-- `wrapping_add`, `wrapping_sub` and `wrapping_mul` of `u32`. -/
def wrapping : Arithmetic Id where
  add a b := (a + b) % 2 ^ 32
  sub a b := if b ≤ a then a - b else a + 2 ^ 32 - b
  mul a b := a * b % 2 ^ 32

/-- `checked_add`, `checked_sub` and `checked_mul` of `u32`. -/
def checked : Arithmetic Option where
  add a b := if a + b < 2 ^ 32 then some (a + b) else none
  sub a b := if b ≤ a then some (a - b) else none
  mul a b := if a * b < 2 ^ 32 then some (a * b) else none

variable {a b c : Nat}

theorem checked_add (h : a + b < 2 ^ 32) : checked.add a b = some (a + b) := if_pos h

theorem checked_sub (h : b ≤ a) : checked.sub a b = some (a - b) := if_pos h

theorem checked_mul (h : a * b < 2 ^ 32) : checked.mul a b = some (a * b) := if_pos h

/-- A checked computation that has a result has that of the one that wraps. -/
def Agrees {α : Type} (x : Option α) (y : Id α) : Prop := ∀ a, x = some a → y = a

section Agrees

variable {α β : Type} {x : Option α} {y : Id α} {f : α → Option β} {g : α → Id β}

theorem agrees_pure (a : α) : Agrees (pure a) (pure a) := fun _ h => Option.some.inj h

theorem Agrees.bind (h : Agrees x y) (hf : ∀ a, Agrees (f a) (g a)) : Agrees (x >>= f) (y >>= g) := by
  intro b hb
  obtain ⟨a, ha, hfa⟩ := Option.bind_eq_some_iff.mp hb
  obtain rfl := h a ha
  exact hf _ b hfa

theorem agrees_add (a b : Nat) : Agrees (checked.add a b) (wrapping.add a b) := by
  intro c h
  obtain ⟨hlt, heq⟩ := Option.ite_none_right_eq_some.mp h
  cases heq
  exact Nat.mod_eq_of_lt hlt

theorem agrees_sub (a b : Nat) : Agrees (checked.sub a b) (wrapping.sub a b) := by
  intro c h
  obtain ⟨hle, heq⟩ := Option.ite_none_right_eq_some.mp h
  cases heq
  exact if_pos hle

theorem agrees_mul (a b : Nat) : Agrees (checked.mul a b) (wrapping.mul a b) := by
  intro c h
  obtain ⟨hlt, heq⟩ := Option.ite_none_right_eq_some.mp h
  cases heq
  exact Nat.mod_eq_of_lt hlt

end Agrees

end Arithmetic

end AscendEmulator.Lib
