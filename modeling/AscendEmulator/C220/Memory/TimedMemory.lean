/-
  AscendEmulator.C220.Memory.TimedMemory — the ids, commands and transfers that the bus
  routes exchange with the timed memory.
-/

import Mathlib

namespace AscendEmulator.C220.Memory

inductive MemoryReadId where
  | mte (tag : Nat)
  | instructionCache (port transaction : Nat)
  | dataCache (port transaction : Nat)
  deriving Repr

def MemoryReadId.triple : MemoryReadId → Nat ×ₗ Nat ×ₗ Nat
  | .mte tag => toLex (0, toLex (tag, 0))
  | .instructionCache port transaction => toLex (1, toLex (port, transaction))
  | .dataCache port transaction => toLex (2, toLex (port, transaction))

theorem MemoryReadId.triple_injective : Function.Injective MemoryReadId.triple := by
  intro a b h
  have h₁ := congrArg (fun t => (ofLex t).1) h
  have h₂ := congrArg (fun t => (ofLex (ofLex t).2).1) h
  have h₃ := congrArg (fun t => (ofLex (ofLex t).2).2) h
  cases a <;> cases b <;> simp_all [triple]

instance : LinearOrder MemoryReadId := LinearOrder.lift' MemoryReadId.triple MemoryReadId.triple_injective

structure MemoryReadCommand where
  readyTick : Nat
  tag : MemoryReadId
  address : Nat
  bytes : Nat

structure MemoryReadBeat where
  tag : MemoryReadId
  transactionId : Nat
  deriving DecidableEq

structure MemoryReadReturn where
  readyTick : Nat
  beat : MemoryReadBeat

inductive MemoryWriteId where
  | mte (tag : Nat)
  | cache (port transaction : Nat)
  deriving Repr

def MemoryWriteId.triple : MemoryWriteId → Nat ×ₗ Nat ×ₗ Nat
  | .mte tag => toLex (0, toLex (tag, 0))
  | .cache port transaction => toLex (1, toLex (port, transaction))

theorem MemoryWriteId.triple_injective : Function.Injective MemoryWriteId.triple := by
  intro a b h
  have h₁ := congrArg (fun t => (ofLex t).1) h
  have h₂ := congrArg (fun t => (ofLex (ofLex t).2).1) h
  have h₃ := congrArg (fun t => (ofLex (ofLex t).2).2) h
  cases a <;> cases b <;> simp_all [triple]

instance : LinearOrder MemoryWriteId := LinearOrder.lift' MemoryWriteId.triple MemoryWriteId.triple_injective

structure MemoryWriteCommand where
  readyTick : Nat
  tag : MemoryWriteId
  address : Nat
  bytes : Nat

structure MemoryWriteTransfer where
  readyTick : Nat
  tag : MemoryWriteId

end AscendEmulator.C220.Memory
