/-
  AscendEmulator.C220.Mte.WriteAligner — outputs of the read returns cut into packets of the
  destination interface.
-/

import AscendEmulator.C220.Mte.Uop

namespace AscendEmulator.C220.Mte

structure BiuWriteBandwidths where
  l1 : NonZeroU32
  l0a : NonZeroU32
  l0b : NonZeroU32
  ub : NonZeroU32

def BiuWriteBandwidths.widths (b : BiuWriteBandwidths) : Fin 5 → NonZeroU32
  | 0 => b.l1
  | 1 => b.l0a
  | 2 => b.l0b
  | 3 | 4 => b.ub

structure BiuWriteFragment where
  output : BiuReadOutput
  destinationAddress : UInt64
  bytes : UInt32
  logicalBytes : UInt32
  lastInRequest : Bool
  lastInInstruction : Bool

inductive BiuWriteError where
  | wrongSubcore
  | emptyBurst
  | interleavedInstruction (pending incoming : Nat)

structure BiuWriteProgress where
  instructionId : Option Nat
  bufferedBytes : UInt32
  destinationOffset : UInt32
  completedBursts : UInt32

def BiuWriteProgress.default : BiuWriteProgress := ⟨none, 0, 0, 0⟩

/-! ## Packets -/

structure WritePlan where
  output : BiuReadOutput
  base : UInt64
  offset : UInt32
  stride : UInt32
  chunk : NonZeroU32
  remaining : UInt32
  fullPackets : UInt32
  roundFullPackets : Bool
  roundTail : Bool
  finalMarker : Bool

namespace WritePlan

def logicalBytes (p : WritePlan) : UInt32 := min p.remaining p.chunk.val

def front (p : WritePlan) : Option BiuWriteFragment :=
  if p.remaining = 0 then none
  else
    let lastInRequest := p.remaining = p.logicalBytes
    some {
      output := p.output
      destinationAddress := p.base + p.offset.toUInt64
      bytes :=
        if p.roundFullPackets || (p.fullPackets == 0 && p.roundTail) then ((p.logicalBytes - 1) &&& ~~~31) + 32
        else p.logicalBytes
      logicalBytes := p.logicalBytes
      lastInRequest
      lastInInstruction := lastInRequest && p.finalMarker }

/-- The packet at the front is sent. -/
def advance (p : WritePlan) : WritePlan :=
  { p with
    remaining := p.remaining - p.logicalBytes
    fullPackets := if p.fullPackets = 0 then 0 else p.fullPackets - 1
    offset := p.offset + p.stride }

end WritePlan

/-! ## Plans -/

structure WriteAligner where
  bandwidth : NonZeroU32
  progress : BiuWriteProgress

namespace WriteAligner

def new (bandwidth : NonZeroU32) : WriteAligner := ⟨bandwidth, .default⟩

def collapsed : DmaUopRoute → Bool
  | .destinationGapCollapse | .movPadDestinationGapCollapse _ => true
  | _ => false

def orEmptyBurst (n : UInt32) : Except BiuWriteError NonZeroU32 :=
  match nonZero? n with
  | some n => .ok n
  | none => .error .emptyBurst

/-- The bytes of a packet. -/
def chunk (a : WriteAligner) (generated : DmaGenerated) : Except BiuWriteError NonZeroU32 :=
  match generated.request.route with
  | .movPadDestinationGapCollapse burstBytes => orEmptyBurst (burstBytes * 32)
  | .movPadBatch _ | .l1Pad1 | .l1Pad2 | .l1Pad4 | .l1Pad8 | .l1Pad16 => .ok ⟨32, by decide⟩
  | .destinationGapCollapse => orEmptyBurst generated.destination.burstBytes
  | _ => .ok a.bandwidth

/-- The bytes of the input that a packet takes. -/
def inputChunk (route : DmaUopRoute) (chunk : NonZeroU32) : Except BiuWriteError UInt32 :=
  match route with
  | .movPadBatch burstBytes => (orEmptyBurst burstBytes).map (·.val)
  | _ => .ok (route.paddedUnitBytes.getD chunk.val)

def padding (request : DmaUopRequest) : UInt32 :=
  match request.route with
  | .movPad paddingBytes => if request.lastInBurst then paddingBytes else 0
  | _ => 0

/-- Units of `unitBytes` are kept of each 32 bytes. -/
def planTruncated (output : BiuReadOutput) (unitBytes : UInt32) (a : WriteAligner) : WritePlan × WriteAligner :=
  let generated := output.request.input.generated
  let state := { a.progress with instructionId := some generated.instructionId }
  let available := generated.request.bytes / 32 * unitBytes + state.bufferedBytes
  let fullPackets := available / a.bandwidth.val
  let remainder := available % a.bandwidth.val
  let offset := state.destinationOffset + fullPackets * a.bandwidth.val
  let plan : WritePlan := {
    output
    base := generated.destination.base
    offset := state.destinationOffset
    stride := a.bandwidth.val
    chunk := a.bandwidth
    remaining := if output.lastInInstruction then available else available - remainder
    fullPackets
    roundFullPackets := false
    roundTail := false
    finalMarker := output.lastInInstruction }
  let progress :=
    if output.lastInInstruction then
      if remainder ≠ 0 then { state with instructionId := none, bufferedBytes := 0, destinationOffset := 0 }
      else { state with instructionId := none, bufferedBytes := remainder, destinationOffset := offset }
    else { state with bufferedBytes := remainder, destinationOffset := offset }
  (plan, { a with progress })

/-- Packets of `chunk` bytes, each of `inputChunk` bytes of the input. -/
def planPackets (output : BiuReadOutput) (chunk : NonZeroU32) (inputChunk : UInt32) (a : WriteAligner) :
    WritePlan × WriteAligner :=
  let generated := output.request.input.generated
  let request := generated.request
  let state := { a.progress with instructionId := some generated.instructionId }
  let available := request.bytes + state.bufferedBytes + padding request
  let fullPackets := available / inputChunk
  let remainder := available % inputChunk
  let burstStride := generated.destination.burstStride.toUInt32
  let stride := if collapsed request.route then burstStride else chunk.val
  let plan : WritePlan := {
    output
    base := generated.destination.base
    offset := state.destinationOffset
    stride
    chunk
    remaining := fullPackets * chunk.val + if request.lastInBurst then remainder else 0
    fullPackets
    roundFullPackets := false
    roundTail := true
    finalMarker := request.lastInBurst && output.lastInInstruction }
  let progress :=
    if request.lastInBurst then
      if output.lastInInstruction then .default
      else
        { state with
          bufferedBytes := 0
          completedBursts := state.completedBursts + 1
          destinationOffset := (state.completedBursts + 1) * burstStride }
    else { state with bufferedBytes := remainder, destinationOffset := state.destinationOffset + fullPackets * stride }
  (plan, { a with progress })

def plan (output : BiuReadOutput) (a : WriteAligner) : Except BiuWriteError WritePlan × WriteAligner :=
  let generated := output.request.input.generated
  let request := generated.request
  if output.request.input.destination.subcore ≠ output.request.input.subcore then (.error .wrongSubcore, a)
  else
    match a.chunk generated with
    | .error e => (.error e, a)
    | .ok chunk =>
      if generated.outOfOrder then
        (.ok {
          output
          base := request.destinationAddress
          offset := 0
          stride := a.bandwidth.val
          chunk := a.bandwidth
          remaining := request.bytes
          fullPackets := 0
          roundFullPackets := true
          roundTail := true
          finalMarker := output.lastInInstruction }, a)
      else
        match a.progress.instructionId.filter fun pending => decide (pending ≠ generated.instructionId) with
        | some pending => (.error (.interleavedInstruction pending generated.instructionId), a)
        | none =>
          match request.route.truncatedUnitBytes with
          | some unitBytes => let r := a.planTruncated output unitBytes; (.ok r.1, r.2)
          | none =>
            match inputChunk request.route chunk with
            -- the instruction is already recorded when the burst turns out empty
            | .error e =>
              (.error e, { a with progress := { a.progress with instructionId := some generated.instructionId } })
            | .ok inputChunk => let r := a.planPackets output chunk inputChunk; (.ok r.1, r.2)

end WriteAligner

end AscendEmulator.C220.Mte
