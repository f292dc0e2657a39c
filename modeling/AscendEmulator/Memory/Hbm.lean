/-
  AscendEmulator.Memory.Hbm — the HBM allocator (`HbmAllocator`): first fit over a list of spans,
  splitting on `allocate` and coalescing with both neighbours on `free`.

  Addresses and byte counts are `u64`; a region ends below 2^64, so no sum of the allocator
  overflows (`Good.bounded`). Whether the host can grow the span list (`try_reserve`) is an
  input of `allocate`.
-/

import AscendEmulator.Lib.Run
import AscendEmulator.Lib.Tiling

namespace AscendEmulator.Memory

open Lib

structure HbmSpan where
  base : Nat
  bytes : Nat
  allocated : Bool
  deriving DecidableEq, Repr

inductive HbmAllocationError where
  | invalidRegion (base bytes : Nat)
  | zeroSize
  | tooLarge (requested : Nat)
  | outOfMemory (requested : Nat)
  | hostAllocationFailed
  | unknownPointer (pointer : Nat)
  | alreadyFreed (pointer : Nat)
  deriving DecidableEq, Repr

structure HbmAllocator where
  regionBytes : Nat
  spans : List HbmSpan
  deriving DecidableEq, Repr

namespace HbmAllocator

def withRegion (base bytes : Nat) : Except HbmAllocationError HbmAllocator :=
  if bytes = 0 ∨ checkedAdd base bytes = none then .error (.invalidRegion base bytes)
  else .ok { regionBytes := bytes, spans := [⟨base, bytes, false⟩] }

/-- First fit: the first free span that is large enough. -/
def fits (bytes : Nat) (span : HbmSpan) : Bool := !span.allocated && decide (bytes ≤ span.bytes)

/-- The span at `index` takes its first `bytes` bytes; the rest becomes a free span after it. -/
def takeSpan (spans : List HbmSpan) (index : Nat) (original : HbmSpan) (bytes : Nat) : List HbmSpan :=
  let spans :=
    if original.bytes ≠ bytes then spans.insertIdx (index + 1) ⟨original.base + bytes, original.bytes - bytes, false⟩
    else spans
  spans.modify index fun span => { span with bytes, allocated := true }

def allocate (bytes : Nat) (reserved : Bool) : Call HbmAllocator HbmAllocationError Nat := fun a =>
  if bytes = 0 then (.error .zeroSize, a)
  else if a.regionBytes < bytes then (.error (.tooLarge bytes), a)
  else match a.spans.findIdx? (fits bytes) with
    | none => (.error (.outOfMemory bytes), a)
    | some index =>
      match a.spans[index]? with
      | none => (.error (.outOfMemory bytes), a)
      | some original =>
        if original.bytes ≠ bytes ∧ reserved = false then (.error .hostAllocationFailed, a)
        else (.ok original.base, { a with spans := takeSpan a.spans index original bytes })

/-- The span at `index` absorbs the one after it. -/
def absorb (spans : List HbmSpan) (index : Nat) : List HbmSpan :=
  match spans[index + 1]? with
  | some next => (spans.modify index fun span => { span with bytes := span.bytes + next.bytes }).eraseIdx (index + 1)
  | none => spans

def isFreeAt (spans : List HbmSpan) (index : Nat) : Bool := spans[index]?.any (!·.allocated)

/-- The freed span at `index` coalesces with a free left neighbour, then with a free right one. -/
def coalesce (spans : List HbmSpan) (index : Nat) : List HbmSpan :=
  let merged := decide (0 < index) && isFreeAt spans (index - 1)
  let spans := if merged then absorb spans (index - 1) else spans
  let index := if merged then index - 1 else index
  if isFreeAt spans (index + 1) then absorb spans index else spans

def free (pointer : Nat) : Call HbmAllocator HbmAllocationError Unit := fun a =>
  match a.spans.findIdx? fun span => span.base = pointer with
  | none => (.error (.unknownPointer pointer), a)
  | some index =>
    if isFreeAt a.spans index then (.error (.alreadyFreed pointer), a)
    else (.ok (), { a with spans := coalesce (a.spans.modify index fun span => { span with allocated := false }) index })

/-! ## Calls -/

inductive HbmCall where
  | allocate (bytes : Nat) (reserved : Bool)
  | free (pointer : Nat)
  deriving DecidableEq, Repr

inductive HbmReply where
  | allocated (pointer : Nat)
  | freed
  deriving DecidableEq, Repr

def exec (c : HbmCall) : Call HbmAllocator HbmAllocationError HbmReply := fun a =>
  match c with
  | .allocate bytes reserved => reply .allocated (allocate bytes reserved a)
  | .free pointer => reply (fun _ => .freed) (free pointer a)

/-- A call with what it returned. -/
abbrev Event := HbmCall × Except HbmAllocationError HbmReply

/-- How one event changes the live allocations, each with the size that was asked for. -/
def account (live : List (Nat × Nat)) : Event → List (Nat × Nat)
  | (.allocate bytes _, .ok (.allocated pointer)) => live ++ [(pointer, bytes)]
  | (.free pointer, .ok .freed) => live.filter fun e => e.1 ≠ pointer
  | _ => live

/-- The allocations made and not freed in a run. -/
def live (t : List Event) : List (Nat × Nat) := t.foldl account []

/-- Free pointers one after the other. -/
def freeAll : List Nat → Call HbmAllocator HbmAllocationError Unit
  | [] => fun a => (.ok (), a)
  | pointer :: rest => (free pointer).bind fun _ => freeAll rest

end HbmAllocator

end AscendEmulator.Memory
