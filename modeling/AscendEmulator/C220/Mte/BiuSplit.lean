/-
  AscendEmulator.C220.Mte.BiuSplit — the way of a DMA request to its destination packets.

  The frontend generates requests from a DMA command, the read interface splits each into
  pieces, and the write aligner plans packets for the pieces that return.
-/

import AscendEmulator.C220.Mte.DmaUops
import AscendEmulator.C220.Mte.WriteAligner

namespace AscendEmulator.C220.Mte

/-! ## Generation -/

namespace DmaUops

/-- `C220DmaFrontend::generate`, on a command that is ready. -/
def generate (u : DmaUops) (instructionId : Nat) : Option (DmaGenerated × DmaUops) :=
  match u.next with
  | none => none
  | some (request, rest) => some ({
      instructionId
      request
      destination := rest.destination
      mode := rest.mode
      outOfOrder := rest.outOfOrder
      lastInInstruction := rest.next.isNone }, rest)

/-- All requests of a command, when there are at most `fuel`. -/
def generateAll (instructionId : Nat) : Nat → DmaUops → Option (List DmaGenerated)
  | fuel, u =>
    match u.generate instructionId with
    | none => some []
    | some (generated, rest) =>
      match fuel with
      | 0 => none
      | fuel + 1 => (generateAll instructionId fuel rest).map (generated :: ·)

end DmaUops

/-! ## Pieces -/

/-- `bytes` bytes of a request, from `offset` on. -/
def BiuReadInput.piece (input : BiuReadInput) (offset bytes : UInt32) : BiuReadInput :=
  let original := input.generated.request
  let lastInBurst := original.lastInBurst && decide (offset + bytes = original.bytes)
  { input with generated := { input.generated with
      request := { original with
        sourceAddress := original.sourceAddress + offset.toUInt64
        destinationAddress := original.destinationAddress + offset.toUInt64
        bytes
        lastInBurst }
      lastInInstruction := input.generated.lastInInstruction && lastInBurst } }

structure SplitRequests where
  input : BiuReadInput
  offset : UInt32

namespace SplitRequests

def next (s : SplitRequests) : Option ((UInt32 × BiuReadInput) × SplitRequests) :=
  let original := s.input.generated.request
  let remaining := original.bytes - s.offset
  if remaining = 0 then none
  else
    let bytes := s.input.generated.mode.splitBytes (original.sourceAddress + s.offset.toUInt64) remaining
    some ((s.offset, s.input.piece s.offset bytes), { s with offset := s.offset + bytes })

/-- All pieces, when there are at most `fuel`. -/
def collect : Nat → SplitRequests → Option (List (UInt32 × BiuReadInput))
  | fuel, s =>
    match s.next with
    | none => some []
    | some (piece, rest) =>
      match fuel with
      | 0 => none
      | fuel + 1 => (collect fuel rest).map (piece :: ·)

end SplitRequests

/-- A request cut after `sizes` bytes, wherever that is. -/
def BiuReadInput.cut (input : BiuReadInput) : UInt32 → List UInt32 → List (UInt32 × BiuReadInput)
  | _, [] => []
  | offset, bytes :: sizes => (offset, input.piece offset bytes) :: input.cut (offset + bytes) sizes

/-- The sizes of a cut of `bytes` bytes into nonempty pieces. -/
def CutSizes (bytes : Nat) (sizes : List UInt32) : Prop := (∀ n ∈ sizes, n ≠ 0) ∧ (sizes.map UInt32.toNat).sum = bytes

/-- The pieces of an instruction's requests, in order, each request cut at any points. -/
inductive Pieces (destination : BiuWriteDestination) (isPrefetch : Bool) :
    List DmaGenerated → List (UInt32 × BiuReadInput) → Prop
  | nil : Pieces destination isPrefetch [] []
  | cons {generated : DmaGenerated} {sizes : List UInt32} {rest : List DmaGenerated}
      {pieces : List (UInt32 × BiuReadInput)} (hsizes : CutSizes generated.request.bytes.toNat sizes)
      (tail : Pieces destination isPrefetch rest pieces) :
      Pieces destination isPrefetch (generated :: rest)
        (BiuReadInput.cut ⟨destination.subcore, destination, isPrefetch, generated⟩ 0 sizes ++ pieces)

/-- A piece as it returns in order: its tag and its tick are any. -/
structure BiuReadOutput.Of (o : BiuReadOutput) (piece : UInt32 × BiuReadInput) : Prop where
  offset : o.request.byteOffset = piece.1
  input : o.request.input = piece.2
  last : o.lastInInstruction = piece.2.generated.lastInInstruction

/-! ## Packets -/

/-- The packets sent while `front` offers one, `fuel` of them at most. -/
def WritePlan.drain : Nat → WritePlan → List BiuWriteFragment
  | 0, _ => []
  | fuel + 1, p =>
    match p.front with
    | none => []
    | some fragment => fragment :: p.advance.drain fuel

/-- The packets of a plan. Each holds a byte at least. -/
def WritePlan.fragments (p : WritePlan) : List BiuWriteFragment := p.drain p.remaining.toNat

/-- Outputs planned one after the other, each plan drained before the next. -/
def WriteAligner.feed : WriteAligner → List BiuReadOutput → Except BiuWriteError (List BiuWriteFragment × WriteAligner)
  | a, [] => .ok ([], a)
  | a, output :: outputs =>
    match a.plan output with
    | (.error e, _) => .error e
    | (.ok plan, a') =>
      match a'.feed outputs with
      | .error e => .error e
      | .ok (fragments, a'') => .ok (plan.fragments ++ fragments, a'')

end AscendEmulator.C220.Mte
