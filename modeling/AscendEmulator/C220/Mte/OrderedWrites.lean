/-
  AscendEmulator.C220.Mte.OrderedWrites — an ordered instruction writes its destination bursts, once each.

  Within a request the aligner has sent the whole packets of the bytes seen so far and buffers
  the rest, however the request was cut. A request ends with a short packet, or with none.
-/

import AscendEmulator.C220.Mte.BiuSplit
import AscendEmulator.C220.Mte.DmaUopsProofs

namespace AscendEmulator.C220.Mte

open AscendEmulator.Lib

/-- `n` bytes after `a`. -/
def after (a : UInt64) (n : Nat) : UInt64 := a + n.toUInt64

theorem after_after (a : UInt64) (m n : Nat) : after (after a m) n = after a (m + n) := by
  simp [after, UInt64.add_assoc]

/-- The addresses of the bytes that a packet holds. -/
def BiuWriteFragment.addresses (f : BiuWriteFragment) : List UInt64 :=
  span after f.destinationAddress f.logicalBytes.toNat

/-! ## The read interface's own cut -/

/-- The pieces of the read interface are a cut, at the alignment of the source. -/
theorem SplitRequests.collect_cut (input : BiuReadInput) (fuel : Nat) (offset : UInt32)
    (hle : offset.toNat ≤ input.generated.request.bytes.toNat)
    (hfuel : input.generated.request.bytes.toNat - offset.toNat ≤ fuel) :
    ∃ sizes, SplitRequests.collect fuel ⟨input, offset⟩ = some (input.cut offset sizes) ∧ (∀ n ∈ sizes, n ≠ 0) ∧
      offset.toNat + (sizes.map UInt32.toNat).sum = input.generated.request.bytes.toNat := by
  have hremaining : (input.generated.request.bytes - offset).toNat =
      input.generated.request.bytes.toNat - offset.toNat :=
    UInt32.toNat_sub_of_le _ _ (UInt32.le_iff_toNat_le.mpr hle)
  induction fuel generalizing offset with
  | zero =>
    have hzero : input.generated.request.bytes - offset = 0 := 
      UInt32.toNat_inj.mp (by rw [hremaining]; show _ = 0; omega)
    exact ⟨[], by simp [collect, next, hzero, BiuReadInput.cut], by simp, by simp; omega⟩
  | succ fuel ih =>
    by_cases hzero : input.generated.request.bytes - offset = 0
    · rw [hzero] at hremaining
      refine ⟨[], by simp [collect, next, hzero, BiuReadInput.cut], by simp, ?_⟩
      have h0 : (0 : UInt32).toNat = 0 := rfl
      simp only [List.map_nil, List.sum_nil]
      omega
    · let n := input.generated.mode.splitBytes (input.generated.request.sourceAddress + offset.toUInt64)
        (input.generated.request.bytes - offset)
      have hpos : 0 < n.toNat := DmaUopMode.splitBytes_pos _ _ (Nat.pos_of_ne_zero fun h => hzero (UInt32.toNat_inj.mp h))
      have hn : n.toNat ≤ input.generated.request.bytes.toNat - offset.toNat :=
        hremaining ▸ DmaUopMode.splitBytes_le _ _
      have hnext : (offset + n).toNat = offset.toNat + n.toNat := by
        have := input.generated.request.bytes.toNat_lt
        rw [UInt32.toNat_add]
        omega
      obtain ⟨sizes, hcollect, hnonzero, hsum⟩ := ih (offset + n) (by omega) (by omega)
        (UInt32.toNat_sub_of_le _ _ (UInt32.le_iff_toNat_le.mpr (by omega)))
      refine ⟨n :: sizes, ?_, ?_, ?_⟩
      · rw [collect, next, if_neg hzero]
        exact congrArg (Option.map _) hcollect
      · intro x hx
        rcases List.mem_cons.mp hx with rfl | hx
        · rintro h0
          rw [h0] at hpos
          exact absurd hpos (by decide)
        · exact hnonzero x hx
      · simp only [List.map_cons, List.sum_cons]
        omega

/-! ## Draining a plan -/

/-- The addresses of `n` bytes at packet `j`. -/
def packet (base : UInt64) (offset stride : UInt32) (n j : Nat) : List UInt64 :=
  span after (base + (offset + j.toUInt32 * stride).toUInt64) n

theorem packet_add (base : UInt64) (offset stride : UInt32) (n m j : Nat) :
    packet base (offset + m.toUInt32 * stride) stride n j = packet base offset stride n (m + j) := by
  have hj : (m + j).toUInt32 = m.toUInt32 + j.toUInt32 := UInt32.ofNat_add m j
  rw [packet, packet, hj, UInt32.add_mul, UInt32.add_assoc]

theorem packet_succ (base : UInt64) (offset stride : UInt32) (n j : Nat) :
    packet base (offset + stride) stride n j = packet base offset stride n (j + 1) := by
  have h := packet_add base offset stride n 1 j
  rwa [show (1 : Nat).toUInt32 = 1 from rfl, UInt32.one_mul, Nat.add_comm] at h

/-- The last packet alone is marked, when the plan is the instruction's last. -/
structure Marked (final : Bool) (fragments : List BiuWriteFragment) : Prop where
  nonempty : ∀ f ∈ fragments, 0 < f.logicalBytes.toNat
  init : ∀ f ∈ fragments.dropLast, f.lastInInstruction = false
  last : ∀ f ∈ fragments.getLast?, f.lastInInstruction = final

theorem Marked.append {final : Bool} {l r : List BiuWriteFragment} (hl : Marked false l) (hr : Marked final r)
    (hne : r ≠ []) : Marked final (l ++ r) := by
  have hall : ∀ f ∈ l, f.lastInInstruction = false := by
    intro f hf
    rcases List.eq_nil_or_concat' l with rfl | ⟨init, x, rfl⟩
    · cases hf
    · rcases List.mem_append.mp hf with hf | hf
      · exact hl.init f (by simpa using hf)
      · exact hl.last f (by simpa [eq_comm] using hf)
  refine ⟨?_, ?_, ?_⟩
  · intro f hf
    exact (List.mem_append.mp hf).elim (hl.nonempty f) (hr.nonempty f)
  · rw [List.dropLast_append_of_ne_nil hne]
    intro f hf
    exact (List.mem_append.mp hf).elim (hall f) (hr.init f)
  · rw [List.getLast?_append_of_ne_nil _ hne]
    exact hr.last

namespace WritePlan

variable {p : WritePlan}

theorem drain_zero (h : p.remaining.toNat = 0) (fuel : Nat) : p.drain fuel = [] := by
  have h0 : p.remaining = 0 := UInt32.toNat_inj.mp h
  cases fuel <;> simp [drain, front, h0]

theorem logicalBytes_toNat : p.logicalBytes.toNat = min p.remaining.toNat p.chunk.val.toNat := DmaUopMode.toNat_min ..

theorem chunk_pos (c : NonZeroU32) : 0 < c.val.toNat :=
  Nat.pos_of_ne_zero fun h => c.property (UInt32.toNat_inj.mp h)

theorem advance_remaining : p.advance.remaining.toNat = p.remaining.toNat - p.chunk.val.toNat := by
  have hle : p.logicalBytes ≤ p.remaining := by
    rw [UInt32.le_iff_toNat_le, logicalBytes_toNat]
    omega
  show (p.remaining - p.logicalBytes).toNat = _
  rw [UInt32.toNat_sub_of_le _ _ hle, logicalBytes_toNat]
  omega

theorem drain_succ (h : 0 < p.remaining.toNat) (fuel : Nat) : ∃ f, p.drain (fuel + 1) = f :: p.advance.drain fuel ∧
    f.destinationAddress = p.base + p.offset.toUInt64 ∧
    f.logicalBytes.toNat = min p.remaining.toNat p.chunk.val.toNat ∧
    f.lastInInstruction = (decide (p.remaining.toNat ≤ p.chunk.val.toNat) && p.finalMarker) := by
  have h0 : p.remaining ≠ 0 := by rintro h0; rw [h0] at h; exact absurd h (by decide)
  have hlast : p.remaining = p.logicalBytes ↔ p.remaining.toNat ≤ p.chunk.val.toNat := by
    rw [← UInt32.toNat_inj, logicalBytes_toNat]
    omega
  simp only [drain, front, if_neg h0]
  refine ⟨_, rfl, rfl, logicalBytes_toNat, ?_⟩
  simp only [hlast]

/-- The packets of a plan lie a stride apart, the last one may be short. -/
theorem drain_addresses (fuel : Nat) (p : WritePlan) (hfuel : p.remaining.toNat ≤ fuel) :
    (p.drain fuel).flatMap BiuWriteFragment.addresses =
      (List.range (p.remaining.toNat / p.chunk.val.toNat)).flatMap (packet p.base p.offset p.stride p.chunk.val.toNat) ++
        packet p.base p.offset p.stride (p.remaining.toNat % p.chunk.val.toNat)
          (p.remaining.toNat / p.chunk.val.toNat) := by
  have hc := chunk_pos p.chunk
  induction fuel generalizing p with
  | zero =>
    have h0 : p.remaining.toNat = 0 := by omega
    simp [drain_zero h0, h0, packet]
  | succ fuel ih =>
    by_cases h0 : p.remaining.toNat = 0
    · simp [drain_zero h0, h0, packet]
    · obtain ⟨f, hdrain, haddress, hbytes, -⟩ := drain_succ (Nat.pos_of_ne_zero h0) fuel
      have hrest := ih p.advance (by rw [advance_remaining]; omega) hc
      have hf : f.addresses = packet p.base p.offset p.stride (min p.remaining.toNat p.chunk.val.toNat) 0 := by
        simp [BiuWriteFragment.addresses, packet, haddress, hbytes]
      have hnext : ∀ n, packet p.advance.base p.advance.offset p.advance.stride n =
          fun j => packet p.base p.offset p.stride n (j + 1) := fun n => funext fun j => packet_succ ..
      have hchunk : p.advance.chunk = p.chunk := rfl
      rw [hdrain, List.flatMap_cons, hrest, advance_remaining, hf, hchunk]
      simp only [hnext]
      by_cases hmore : p.chunk.val.toNat ≤ p.remaining.toNat
      · rw [Nat.div_eq_sub_div hc hmore, ← Nat.mod_eq_sub_mod hmore, min_eq_right hmore, List.range_succ_eq_map,
          List.flatMap_cons, List.flatMap_map, List.append_assoc]
      · have hless : p.remaining.toNat < p.chunk.val.toNat := by omega
        have hzero : p.remaining.toNat - p.chunk.val.toNat = 0 := by omega
        rw [hzero, Nat.div_eq_of_lt hless, Nat.mod_eq_of_lt hless, min_eq_left hless.le]
        simp [packet]

theorem fragments_ne_nil (h : 0 < p.remaining.toNat) : p.fragments ≠ [] := by
  obtain ⟨m, hm⟩ : ∃ m, p.remaining.toNat = m + 1 := ⟨p.remaining.toNat - 1, by omega⟩
  obtain ⟨f, hf, -⟩ := drain_succ h m
  simp [fragments, hm, hf]

theorem drain_marked (fuel : Nat) (p : WritePlan) (hfuel : p.remaining.toNat ≤ fuel) :
    Marked p.finalMarker (p.drain fuel) := by
  have hc := chunk_pos p.chunk
  induction fuel generalizing p with
  | zero =>
    rw [drain_zero (by omega)]
    exact ⟨by simp, by simp, by simp⟩
  | succ fuel ih =>
    by_cases h0 : p.remaining.toNat = 0
    · rw [drain_zero h0]
      exact ⟨by simp, by simp, by simp⟩
    · obtain ⟨f, hdrain, -, hbytes, hlast⟩ := drain_succ (Nat.pos_of_ne_zero h0) fuel
      rw [hdrain]
      by_cases hmore : p.remaining.toNat ≤ p.chunk.val.toNat
      · rw [drain_zero (by rw [advance_remaining]; omega)]
        refine ⟨?_, by simp, ?_⟩
        · simp [hbytes]
          omega
        · simpa [hmore] using hlast
      · have hrest : Marked p.finalMarker (p.advance.drain fuel) := ih p.advance (by rw [advance_remaining]; omega) hc
        have hf : Marked false [f] := ⟨by simp [hbytes]; omega, by simp, by simpa [hmore] using hlast⟩
        refine hf.append hrest ?_
        obtain ⟨m, hm⟩ : ∃ m, fuel = m + 1 := ⟨fuel - 1, by omega⟩
        have hpos : 0 < p.advance.remaining.toNat := by rw [advance_remaining]; omega
        obtain ⟨g, hg, -⟩ := drain_succ hpos m
        simp [hm, hg]

end WritePlan

/-! ## Planning a piece -/

/-- The routes whose bytes are written as they were read. -/
def DmaUopRoute.Copies (route : DmaUopRoute) : Prop :=
  route = .ordinary ∨ route = .contiguousBatch ∨ route = .destinationGapCollapse

namespace WriteAligner

theorem plan_copies {a : WriteAligner} {o : BiuReadOutput} {g : DmaGenerated} {chunk : NonZeroU32}
    (hg : o.request.input.generated = g) (hcore : o.request.input.destination.subcore = o.request.input.subcore)
    (hroute : g.request.route.Copies) (hordered : g.outOfOrder = false) (hchunk : a.chunk g = .ok chunk)
    (hid : ∀ pending ∈ a.progress.instructionId, pending = g.instructionId) :
    a.plan o = (.ok (a.planPackets o chunk chunk.val).1, (a.planPackets o chunk chunk.val).2) := by
  have hnone : a.progress.instructionId.filter (fun pending => decide (pending ≠ g.instructionId)) = none := by
    cases hp : a.progress.instructionId with
    | none => rfl
    | some pending => simp [hid pending hp]
  have htruncated : g.request.route.truncatedUnitBytes = none := by
    rcases hroute with h | h | h <;> rw [h] <;> rfl
  have hinput : inputChunk g.request.route chunk = .ok chunk.val := by
    rcases hroute with h | h | h <;> rw [h] <;> rfl
  unfold plan
  simp only [hg, hcore, ne_eq, not_true, if_false, hchunk, hordered, Bool.false_eq_true, hnone, htruncated, hinput]

/-- The progress after `seen` bytes of a request, in packets of `chunk` bytes that lie a `stride` apart. -/
def midway (pending : Option Nat) (offset stride : UInt32) (completed : UInt32) (chunk seen : Nat) : BiuWriteProgress where
  instructionId := pending
  bufferedBytes := (seen % chunk).toUInt32
  destinationOffset := offset + (seen / chunk).toUInt32 * stride
  completedBursts := completed

/-- The stride of the packets of a request. -/
def packetStride (g : DmaGenerated) (chunk : NonZeroU32) : UInt32 :=
  if collapsed g.request.route then g.destination.burstStride.toUInt32 else chunk.val

/-- Whole packets seen before and after a piece. -/
theorem packets_add (chunk seen n : Nat) (hc : 0 < chunk) :
    (seen + n) / chunk = seen / chunk + (n + seen % chunk) / chunk ∧ (seen + n) % chunk = (n + seen % chunk) % chunk := by
  have h : seen + n = n + seen % chunk + chunk * (seen / chunk) := by
    have := Nat.mod_add_div seen chunk
    omega
  constructor
  · rw [h, Nat.add_mul_div_left _ _ hc, Nat.add_comm]
  · rw [h, Nat.add_mul_mod_self_left]

/-- What a piece adds to the packets: `seen` bytes came before it, of the `size` bytes of the request. -/
structure PlansPiece (g : DmaGenerated) (c : NonZeroU32) (start count : UInt32) (size seen n : Nat)
    (r : WritePlan × WriteAligner) : Prop where
  base : r.1.base = g.destination.base
  offset : r.1.offset = start + (seen / c.val.toNat).toUInt32 * packetStride g c
  stride : r.1.stride = packetStride g c
  chunk : r.1.chunk = c
  remaining : r.1.remaining.toNat =
    if seen + n = size then size - seen / c.val.toNat * c.val.toNat
    else ((seen + n) / c.val.toNat - seen / c.val.toNat) * c.val.toNat
  final : r.1.finalMarker = (decide (seen + n = size) && g.lastInInstruction)
  progress : r.2.progress =
    if seen + n = size then
      if g.lastInInstruction then .default
      else ⟨some g.instructionId, 0, (count + 1) * g.destination.burstStride.toUInt32, count + 1⟩
    else midway (some g.instructionId) start (packetStride g c) count c.val.toNat (seen + n)

theorem padding_copies {r : DmaUopRequest} (h : r.route.Copies) : padding r = 0 := by
  rcases h with h | h | h <;> simp [padding, h]

theorem planPackets_piece {input : BiuReadInput} {g : DmaGenerated} {o : BiuReadOutput} {c : NonZeroU32}
    {bandwidth : NonZeroU32} {pending : Option Nat} {start count : UInt32} {size seen : Nat} {n : UInt32}
    (hinput : input.generated = g) (hpiece : o.Of (seen.toUInt32, input.piece seen.toUInt32 n))
    (hroute : g.request.route.Copies) (hbytes : g.request.bytes.toNat = size) (hlast : g.request.lastInBurst = true)
    (hle : seen + n.toNat ≤ size) :
    PlansPiece g c start count size seen n.toNat
      (planPackets o c c.val ⟨bandwidth, midway pending start (packetStride g c) count c.val.toNat seen⟩) := by
  obtain ⟨-, ho, hol⟩ := hpiece
  subst hinput
  have hc := WritePlan.chunk_pos c
  have hsmall := input.generated.request.bytes.toNat_lt
  obtain ⟨hdiv, hmod⟩ := packets_add c.val.toNat seen n.toNat hc
  have hends : (seen.toUInt32 + n = input.generated.request.bytes) ↔ seen + n.toNat = size := by
    rw [← UInt32.toNat_inj, UInt32.toNat_add, hbytes]
    show (seen % 2 ^ 32 + n.toNat) % 2 ^ 32 = size ↔ _
    omega
  have hmark : o.request.input.generated.request.lastInBurst = decide (seen + n.toNat = size) := by
    rw [ho]
    simp only [BiuReadInput.piece, hlast, Bool.true_and, hends]
  have hfinal : o.lastInInstruction =
      (input.generated.lastInInstruction && decide (seen + n.toNat = size)) := by
    rw [hol]
    simp only [BiuReadInput.piece, hlast, Bool.true_and, hends]
  have hpad : padding o.request.input.generated.request = 0 := by
    rw [ho]
    exact padding_copies hroute
  have havailable : (n + (seen % c.val.toNat).toUInt32).toNat = n.toNat + seen % c.val.toNat := by
    have := Nat.mod_le seen c.val.toNat
    rw [UInt32.toNat_add]
    show (n.toNat + seen % c.val.toNat % 2 ^ 32) % 2 ^ 32 = _
    omega
  have hn : o.request.input.generated.request.bytes = n := by rw [ho]; rfl
  have hd : o.request.input.generated.destination = input.generated.destination := by rw [ho]; rfl
  have hr : o.request.input.generated.request.route = input.generated.request.route := by rw [ho]; rfl
  have hi : o.request.input.generated.instructionId = input.generated.instructionId := by rw [ho]; rfl
  have hdivmod := Nat.div_add_mod (n.toNat + seen % c.val.toNat) c.val.toNat
  have hseen := Nat.div_add_mod seen c.val.toNat
  have hfull : ((n + (seen % c.val.toNat).toUInt32) / c.val).toNat = (n.toNat + seen % c.val.toNat) / c.val.toNat := by
    rw [UInt32.toNat_div, havailable]
  have hrest : ((n + (seen % c.val.toNat).toUInt32) % c.val).toNat = (n.toNat + seen % c.val.toNat) % c.val.toNat := by
    rw [UInt32.toNat_mod, havailable]
  have hmul : ((n + (seen % c.val.toNat).toUInt32) / c.val * c.val).toNat =
      (n.toNat + seen % c.val.toNat) / c.val.toNat * c.val.toNat := by
    rw [UInt32.toNat_mul, hfull, Nat.mul_comm]
    omega
  unfold planPackets
  simp only [hn, hd, hr, hi, hmark, hfinal, hpad, UInt32.add_zero]
  refine ⟨rfl, rfl, rfl, rfl, ?_, ?_, ?_⟩
  · by_cases hl : seen + n.toNat = size
    · simp only [midway, hl, decide_true, if_true, UInt32.toNat_add, hmul, hrest]
      rw [Nat.mul_comm _ c.val.toNat, hdivmod, Nat.mul_comm _ c.val.toNat]
      omega
    · simp only [midway, hl, decide_false, Bool.false_eq_true, if_false, UInt32.add_zero, hmul, hdiv,
        Nat.add_sub_cancel_left]
  · cases input.generated.lastInInstruction <;> simp
  · by_cases hl : seen + n.toNat = size
    · simp only [midway, hl, decide_true, if_true, Bool.and_true]
    · have hbuffer : (n + (seen % c.val.toNat).toUInt32) % c.val = ((seen + n.toNat) % c.val.toNat).toUInt32 := by
        rw [← UInt32.toNat_inj, hrest, hmod]
        exact (Nat.mod_eq_of_lt ((Nat.mod_le _ _).trans_lt (by omega))).symm
      have hpackets : (n + (seen % c.val.toNat).toUInt32) / c.val =
          ((n.toNat + seen % c.val.toNat) / c.val.toNat).toUInt32 := by
        rw [← UInt32.toNat_inj, hfull]
        exact (Nat.mod_eq_of_lt ((Nat.div_le_self _ _).trans_lt (by omega))).symm
      have hsum : (seen / c.val.toNat + (n.toNat + seen % c.val.toNat) / c.val.toNat).toUInt32 =
          (seen / c.val.toNat).toUInt32 + ((n.toNat + seen % c.val.toNat) / c.val.toNat).toUInt32 :=
        UInt32.ofNat_add _ _
      simp only [midway, hl, decide_false, Bool.false_eq_true, if_false, hbuffer, hpackets, hdiv, hsum, packetStride,
        UInt32.add_mul, UInt32.add_assoc]

/-- The packets still to come after `seen` of `size` bytes. -/
def packetsFrom (base : UInt64) (offset stride : UInt32) (chunk size seen : Nat) : List UInt64 :=
  (List.range' (seen / chunk) (size / chunk - seen / chunk)).flatMap (packet base offset stride chunk) ++
    packet base offset stride (size % chunk) (size / chunk)

theorem PlansPiece.addresses {g : DmaGenerated} {c : NonZeroU32} {start count : UInt32} {size seen n : Nat}
    {r : WritePlan × WriteAligner} (h : PlansPiece g c start count size seen n r) (hle : seen + n ≤ size) :
    r.1.fragments.flatMap BiuWriteFragment.addresses ++ (if seen + n = size then [] else
      packetsFrom g.destination.base start (packetStride g c) c.val.toNat size (seen + n)) =
    packetsFrom g.destination.base start (packetStride g c) c.val.toNat size seen := by
  have hc := WritePlan.chunk_pos c
  have hrow : ∀ q, (List.range q).flatMap (packet g.destination.base
      (start + (seen / c.val.toNat).toUInt32 * packetStride g c) (packetStride g c) c.val.toNat) =
      (List.range' (seen / c.val.toNat) q).flatMap (packet g.destination.base start (packetStride g c) c.val.toNat) := by
    intro q
    rw [List.range'_eq_map_range, List.flatMap_map]
    exact List.flatMap_congr fun j _ => packet_add ..
  rw [WritePlan.fragments, WritePlan.drain_addresses _ _ (le_refl _), h.base, h.offset, h.stride, h.chunk, hrow,
    packet_add, h.remaining]
  generalize hw : c.val.toNat = w at *
  have hseen : seen / w ≤ (seen + n) / w := Nat.div_le_div_right (by omega)
  have hsize : (seen + n) / w ≤ size / w := Nat.div_le_div_right hle
  split
  · have hmul : w * (seen / w) ≤ size := (Nat.mul_div_le _ _).trans (by omega)
    rw [List.append_nil, Nat.mul_comm _ w, Nat.sub_mul_div, Nat.sub_mul_mod hmul, Nat.add_sub_cancel' (by omega)]
    rfl
  · have hjoin : List.range' (seen / w) (size / w - seen / w) =
        List.range' (seen / w) ((seen + n) / w - seen / w) ++ List.range' ((seen + n) / w) (size / w - (seen + n) / w) := by
      have hstart : (seen + n) / w = seen / w + ((seen + n) / w - seen / w) := by omega
      conv_rhs => rw [hstart]
      rw [Nat.add_sub_cancel_left, List.range'_append_1]
      congr 1
      omega
    rw [Nat.mul_div_cancel _ hc, Nat.mul_mod_left, packetsFrom, packetsFrom, hjoin]
    simp [packet]

/-! ## One request -/

theorem feed_cons {a a' a'' : WriteAligner} {o : BiuReadOutput} {outputs : List BiuReadOutput} {p : WritePlan}
    {fragments : List BiuWriteFragment} (hplan : a.plan o = (.ok p, a')) (hfeed : a'.feed outputs = .ok (fragments, a'')) :
    a.feed (o :: outputs) = .ok (p.fragments ++ fragments, a'') := by
  simp [feed, hplan, hfeed]

theorem feed_append {a a' a'' : WriteAligner} {l r : List BiuReadOutput} {fl fr : List BiuWriteFragment}
    (hl : a.feed l = .ok (fl, a')) (hr : a'.feed r = .ok (fr, a'')) : a.feed (l ++ r) = .ok (fl ++ fr, a'') := by
  induction l generalizing a fl with
  | nil =>
    obtain ⟨rfl, rfl⟩ := Prod.mk.inj (Except.ok.inj hl)
    exact hr
  | cons o l ih =>
    unfold feed at hl
    split at hl
    · cases hl
    · rename_i p a₁ hplan
      split at hl
      · cases hl
      · rename_i f a₂ hfeed
        obtain ⟨rfl, rfl⟩ := Prod.mk.inj (Except.ok.inj hl)
        rw [List.cons_append, feed_cons hplan (ih hfeed), List.append_assoc]

/-- A request that is a burst of `size` bytes, on a route that copies, in packets of `c` bytes. -/
structure Copied (g : DmaGenerated) (bandwidth c : NonZeroU32) (size : Nat) : Prop where
  ordered : g.outOfOrder = false
  route : g.request.route.Copies
  chunk : (new bandwidth).chunk g = .ok c
  bytes : g.request.bytes.toNat = size
  last : g.request.lastInBurst = true

/-- The progress once a request is complete, the `count`th of its instruction. -/
def completed (g : DmaGenerated) (count : UInt32) : BiuWriteProgress :=
  if g.lastInInstruction then .default
  else ⟨some g.instructionId, 0, (count + 1) * g.destination.burstStride.toUInt32, count + 1⟩

theorem plan_piece {g : DmaGenerated} {bandwidth c : NonZeroU32} {size : Nat} (h : Copied g bandwidth c size)
    {destination : BiuWriteDestination} {isPrefetch : Bool} (start count : UInt32) {seen : Nat} {n : UInt32}
    {pending : Option Nat} {o : BiuReadOutput} (hpending : ∀ p ∈ pending, p = g.instructionId)
    (hpiece : o.Of (seen.toUInt32,
      BiuReadInput.piece ⟨destination.subcore, destination, isPrefetch, g⟩ seen.toUInt32 n))
    (hle : seen + n.toNat ≤ size) :
    ∃ p progress, plan o ⟨bandwidth, midway pending start (packetStride g c) count c.val.toNat seen⟩ =
        (.ok p, ⟨bandwidth, progress⟩) ∧
      PlansPiece g c start count size seen n.toNat (p, ⟨bandwidth, progress⟩) := by
  have hplan : plan o ⟨bandwidth, midway pending start (packetStride g c) count c.val.toNat seen⟩ = _ :=
    plan_copies rfl (by rw [hpiece.input]; rfl) (by rw [hpiece.input]; exact h.route)
      (by rw [hpiece.input]; exact h.ordered) (by rw [hpiece.input]; exact h.chunk)
      (by rw [hpiece.input]; exact hpending)
  exact ⟨_, _, hplan, planPackets_piece rfl hpiece h.route h.bytes h.last hle⟩

theorem feed_request {g : DmaGenerated} {bandwidth c : NonZeroU32} {size : Nat} (h : Copied g bandwidth c size)
    (destination : BiuWriteDestination) (isPrefetch : Bool) (start count : UInt32) (sizes : List UInt32) (seen : Nat)
    (pending : Option Nat) (hpending : ∀ p ∈ pending, p = g.instructionId) (hnonzero : ∀ n ∈ sizes, n ≠ 0)
    (hsum : seen + (sizes.map UInt32.toNat).sum = size) (hne : sizes ≠ []) (outputs : List BiuReadOutput)
    (houtputs : List.Forall₂ BiuReadOutput.Of outputs
      (BiuReadInput.cut ⟨destination.subcore, destination, isPrefetch, g⟩ seen.toUInt32 sizes)) :
    ∃ fragments, feed ⟨bandwidth, midway pending start (packetStride g c) count c.val.toNat seen⟩ outputs =
        .ok (fragments, ⟨bandwidth, completed g count⟩) ∧
      fragments.flatMap BiuWriteFragment.addresses =
        packetsFrom g.destination.base start (packetStride g c) c.val.toNat size seen ∧
      Marked g.lastInInstruction fragments ∧ fragments ≠ [] := by
  induction sizes generalizing seen pending outputs with
  | nil => exact absurd rfl hne
  | cons n sizes ih =>
    simp only [BiuReadInput.cut] at houtputs
    obtain ⟨o, outputs, hpiece, htail, rfl⟩ := List.forall₂_cons_right_iff.mp houtputs
    simp only [List.map_cons, List.sum_cons] at hsum
    have hpos : 0 < n.toNat :=
      Nat.pos_of_ne_zero fun h0 => hnonzero n List.mem_cons_self (UInt32.toNat_inj.mp h0)
    obtain ⟨p, progress, hplan, hp⟩ := plan_piece h start count hpending hpiece (by omega)
    have haddresses := hp.addresses (by omega)
    have hmarked : Marked p.finalMarker p.fragments := WritePlan.drain_marked _ _ (le_refl _)
    rw [hp.final] at hmarked
    have hprogress := hp.progress
    cases sizes with
    | nil =>
      -- the piece ends the request: what is buffered goes out with it
      have hend : seen + n.toNat = size := by simpa using hsum
      cases htail
      simp only [hend, decide_true, Bool.true_and, if_true, List.append_nil] at hmarked haddresses hprogress
      refine ⟨p.fragments, ?_, haddresses, hmarked, ?_⟩
      · rw [feed_cons hplan (show feed ⟨bandwidth, progress⟩ [] = .ok ([], ⟨bandwidth, progress⟩) from rfl), hprogress,
          List.append_nil]
        rfl
      · have hremaining : 0 < p.remaining.toNat := by
          have hseen := Nat.div_mul_le_self seen c.val.toNat
          have := hp.remaining
          simp only [hend, if_true] at this
          omega
        exact WritePlan.fragments_ne_nil hremaining
    | cons m sizes =>
      have hm : 0 < m.toNat :=
        Nat.pos_of_ne_zero fun h0 => hnonzero m (by simp) (UInt32.toNat_inj.mp h0)
      simp only [List.map_cons, List.sum_cons] at hsum
      have hend : seen + n.toNat ≠ size := by omega
      simp only [hend, decide_false, Bool.false_and, if_false] at hmarked haddresses hprogress
      have hoffset : seen.toUInt32 + n = (seen + n.toNat).toUInt32 := by
        rw [← UInt32.toNat_inj, UInt32.toNat_add]
        show (seen % 2 ^ 32 + n.toNat) % 2 ^ 32 = (seen + n.toNat) % 2 ^ 32
        omega
      obtain ⟨fragments, hfeed, ha, hf, hne'⟩ := ih (seen + n.toNat) (some g.instructionId)
        (by intro p hp; exact (Option.mem_some_iff.mp hp).symm) (fun x hx => hnonzero x (List.mem_cons_of_mem _ hx))
        (by simp only [List.map_cons, List.sum_cons]; omega) (by simp) outputs (hoffset ▸ htail)
      refine ⟨p.fragments ++ fragments, ?_, ?_, hmarked.append hf hne', by simp [hne']⟩
      · exact feed_cons hplan (hprogress ▸ hfeed)
      · rw [List.flatMap_append, ha, haddresses]

/-! ## One instruction -/

/-- Burst `i` of a command whose bursts are whole requests. -/
structure WholeBurst (u : DmaUops) (instructionId i : Nat) (g : DmaGenerated) : Prop where
  id : g.instructionId = instructionId
  route : g.request.route = u.route
  destination : g.destination = u.destination
  ordered : g.outOfOrder = false
  bytes : g.request.bytes.toNat = u.geometry.burstBytes.toNat
  lastInBurst : g.request.lastInBurst = true
  lastInInstruction : g.lastInInstruction = decide (i + 1 = u.geometry.burstCount.toNat)

theorem generate_whole {u : DmaUops} {i : Nat} (h : u.Within i 0) (hwhole : u.geometry.splitEnabled = false)
    (instructionId : Nat) : ∃ g rest, u.generate instructionId = some (g, rest) ∧ WholeBurst u instructionId i g ∧
      rest.burstIndex.toNat = i + 1 ∧ rest.offset.toNat = 0 ∧
      rest = { u with burstIndex := rest.burstIndex, offset := rest.offset } := by
  obtain ⟨r, rest, hnext, hs⟩ := DmaUops.next_within h
  have hbytes := hs.whole hwhole
  have hlast : r.lastInBurst = true := by
    rw [hs.last]
    exact decide_eq_true (by omega)
  have hindex : rest.burstIndex.toNat = i + 1 := by rw [hs.index, hlast]; rfl
  have hoffset : rest.offset.toNat = 0 := by rw [hs.offset, hlast]; rfl
  have hsame := hs.same
  have hg : rest.geometry = u.geometry := by rw [hsame]
  have hmore : rest.next.isNone = decide (i + 1 = u.geometry.burstCount.toNat) := by
    have hless := h.more
    by_cases hend : i + 1 = u.geometry.burstCount.toNat
    · rw [DmaUops.next_none (.inl (by rw [hg]; omega)), decide_eq_true hend]
      rfl
    · have hw : rest.Within (i + 1) 0 :=
        ⟨hindex, hoffset, by rw [hg]; omega, by rw [hg]; exact h.inBurst, by rw [hg]; exact h.small⟩
      obtain ⟨r', rest', hnext', -⟩ := DmaUops.next_within hw
      rw [hnext', decide_eq_false hend]
      rfl
  refine ⟨_, rest, by simp only [DmaUops.generate, hnext]; rfl, ?_, hindex, hoffset, hsame⟩
  refine ⟨rfl, hs.route, ?_, ?_, by simpa using hbytes, hlast, hmore⟩
  · rw [hsame]
  · rw [DmaUops.outOfOrder, hg, hwhole]

theorem generateAll_whole (instructionId : Nat) (m : Nat) (u : DmaUops) (i : Nat) (hi : u.burstIndex.toNat = i)
    (ho : u.offset.toNat = 0) (hm : i + m = u.geometry.burstCount.toNat) (hpos : 0 < u.geometry.burstBytes.toNat)
    (hsmall : u.geometry.burstBytes.toNat < 2 ^ 32) (hwhole : u.geometry.splitEnabled = false) :
    ∃ gs, u.generateAll instructionId m = some gs ∧
      List.Forall₂ (WholeBurst u instructionId) (List.range' i m) gs := by
  induction m generalizing u i with
  | zero =>
    have hnone : u.generate instructionId = none := by
      rw [DmaUops.generate, DmaUops.next_none (.inl (by omega))]
    exact ⟨[], by simp [DmaUops.generateAll, hnone], .nil⟩
  | succ m ih =>
    obtain ⟨g, rest, hgen, hg, hindex, hoffset, hsame⟩ :=
      generate_whole ⟨hi, ho, by omega, hpos, hsmall⟩ hwhole instructionId
    have hgeometry : rest.geometry = u.geometry := by rw [hsame]
    obtain ⟨gs, hall, hrest⟩ := ih rest (i + 1) hindex hoffset (by rw [hgeometry]; omega) (by rw [hgeometry]; exact hpos)
      (by rw [hgeometry]; exact hsmall) (by rw [hgeometry]; exact hwhole)
    refine ⟨g :: gs, by simp [DmaUops.generateAll, hgen, hall], ?_⟩
    rw [List.range'_succ]
    refine .cons hg (hrest.imp fun j g hg => ?_)
    obtain ⟨h₁, h₂, h₃, h₄, h₅, h₆, h₇⟩ := hg
    rw [hsame] at h₂ h₃
    rw [hgeometry] at h₅ h₇
    exact ⟨h₁, h₂, h₃, h₄, h₅, h₆, h₇⟩

theorem midway_zero (pending : Option Nat) (start stride count : UInt32) (chunk : Nat) :
    midway pending start stride count chunk 0 = ⟨pending, 0, start, count⟩ := by
  simp [midway]

/-- The stride of the packets of a command. -/
def commandStride (u : DmaUops) (c : NonZeroU32) : UInt32 :=
  if collapsed u.route then u.destination.burstStride.toUInt32 else c.val

/-- A command of copied bursts, each written in packets of `c` bytes. -/
structure Copying (u : DmaUops) (bandwidth c : NonZeroU32) : Prop where
  route : u.route.Copies
  chunk : ∀ g : DmaGenerated, g.request.route = u.route → g.destination = u.destination →
    (new bandwidth).chunk g = .ok c
  nonempty : 0 < u.geometry.burstBytes.toNat

/-- The addresses of burst `j` of a command, packet by packet. -/
def burstPackets (u : DmaUops) (c : NonZeroU32) (j : Nat) : List UInt64 :=
  packetsFrom u.destination.base (j.toUInt32 * u.destination.burstStride.toUInt32) (commandStride u c) c.val.toNat
    u.geometry.burstBytes.toNat 0

theorem feed_burst {u : DmaUops} {instructionId i : Nat} {bandwidth c : NonZeroU32} (h : Copying u bandwidth c)
    {g : DmaGenerated} (hg : WholeBurst u instructionId i g) {destination : BiuWriteDestination} {isPrefetch : Bool}
    {pending : Option Nat} (hpending : ∀ p ∈ pending, p = instructionId) {sizes : List UInt32}
    (hsizes : CutSizes g.request.bytes.toNat sizes) {outputs : List BiuReadOutput}
    (houtputs : List.Forall₂ BiuReadOutput.Of outputs
      (BiuReadInput.cut ⟨destination.subcore, destination, isPrefetch, g⟩ 0 sizes)) :
    ∃ fragments, feed ⟨bandwidth, ⟨pending, 0, i.toUInt32 * u.destination.burstStride.toUInt32, i.toUInt32⟩⟩ outputs =
        .ok (fragments, ⟨bandwidth, completed g i.toUInt32⟩) ∧
      fragments.flatMap BiuWriteFragment.addresses = burstPackets u c i ∧
      Marked g.lastInInstruction fragments ∧ fragments ≠ [] := by
  have hcopied : Copied g bandwidth c u.geometry.burstBytes.toNat :=
    ⟨hg.ordered, hg.route.symm ▸ h.route, h.chunk g hg.route hg.destination, hg.bytes, hg.lastInBurst⟩
  have hsum : 0 + (sizes.map UInt32.toNat).sum = u.geometry.burstBytes.toNat := by
    rw [Nat.zero_add, hsizes.2, hg.bytes]
  have hne : sizes ≠ [] := by
    rintro rfl
    have := h.nonempty
    simp at hsum
    omega
  obtain ⟨fragments, hfeed, ha, hm, hf⟩ := feed_request hcopied destination isPrefetch
    (i.toUInt32 * u.destination.burstStride.toUInt32) i.toUInt32 sizes 0 pending (hg.id.symm ▸ hpending) hsizes.1 hsum
    hne outputs houtputs
  rw [midway_zero] at hfeed
  refine ⟨fragments, hfeed, ?_, hm, hf⟩
  rw [ha, burstPackets, packetStride, commandStride, hg.destination, hg.route]

theorem feed_bursts {u : DmaUops} {instructionId : Nat} {bandwidth c : NonZeroU32} (h : Copying u bandwidth c)
    {destination : BiuWriteDestination} {isPrefetch : Bool} (m : Nat) (gs : List DmaGenerated) (i : Nat)
    (pending : Option Nat) (hpending : ∀ p ∈ pending, p = instructionId)
    (hm : i + (m + 1) = u.geometry.burstCount.toNat)
    (hgs : List.Forall₂ (WholeBurst u instructionId) (List.range' i (m + 1)) gs)
    (pieces : List (UInt32 × BiuReadInput)) (hpieces : Pieces destination isPrefetch gs pieces)
    (outputs : List BiuReadOutput) (houtputs : List.Forall₂ BiuReadOutput.Of outputs pieces) :
    ∃ fragments, feed ⟨bandwidth, ⟨pending, 0, i.toUInt32 * u.destination.burstStride.toUInt32, i.toUInt32⟩⟩ outputs =
        .ok (fragments, new bandwidth) ∧
      fragments.flatMap BiuWriteFragment.addresses = (List.range' i (m + 1)).flatMap (burstPackets u c) ∧
      Marked true fragments ∧ fragments ≠ [] := by
  induction m generalizing gs i pending pieces outputs with
  | zero =>
    obtain ⟨g, gs, hg, hnil, rfl⟩ := List.forall₂_cons_left_iff.mp hgs
    cases hnil
    obtain ⟨⟩ | ⟨hsizes, ⟨⟩⟩ := hpieces
    rw [List.append_nil] at houtputs
    obtain ⟨fragments, hfeed, ha, hmark, hf⟩ := feed_burst h hg hpending hsizes houtputs
    have hlast : g.lastInInstruction = true := hg.lastInInstruction.trans (decide_eq_true hm)
    rw [hlast] at hmark
    refine ⟨fragments, ?_, by rw [ha]; simp, hmark, hf⟩
    rw [hfeed, completed, hlast]
    rfl
  | succ m ih =>
    rw [List.range'_succ] at hgs
    obtain ⟨g, gs, hg, hrest, rfl⟩ := List.forall₂_cons_left_iff.mp hgs
    obtain ⟨⟩ | ⟨hsizes, htail⟩ := hpieces
    obtain ⟨first, hfeed, ha, hmark, hf⟩ :=
      feed_burst h hg hpending hsizes (List.forall₂_take_append _ _ _ houtputs)
    obtain ⟨fragments, hfeed', ha', hmark', hf'⟩ := ih gs (i + 1) (some instructionId)
      (fun p hp => (Option.mem_some_iff.mp hp).symm) (by omega) hrest _ htail _ (List.forall₂_drop_append _ _ _ houtputs)
    have hlast : g.lastInInstruction = false := hg.lastInInstruction.trans (decide_eq_false (by omega))
    have hnext : completed g i.toUInt32 =
        ⟨some instructionId, 0, (i + 1).toUInt32 * u.destination.burstStride.toUInt32, (i + 1).toUInt32⟩ := by
      have hi : (i + 1).toUInt32 = i.toUInt32 + 1 := UInt32.ofNat_add i 1
      rw [completed, hlast, hi, hg.id, hg.destination]
      rfl
    rw [hlast] at hmark
    rw [hnext] at hfeed
    refine ⟨first ++ fragments, ?_, ?_, hmark.append hmark' hf', by simp [hf']⟩
    · have hall := feed_append hfeed hfeed'
      rwa [List.take_append_drop] at hall
    · have hrange : List.range' i (m + 1 + 1) = i :: List.range' (i + 1) (m + 1) := List.range'_succ
      rw [List.flatMap_append, ha, ha', hrange, List.flatMap_cons]

end WriteAligner

/-! ## The destination bursts -/

/-- The addresses of `count` bursts of `size` bytes, a `stride` apart. -/
def bursts (base : UInt64) (count stride size : Nat) : List UInt64 :=
  (List.range count).flatMap fun i => span after (after base (i * stride)) size

theorem bursts_empty {base : UInt64} {count stride size : Nat} (h : count = 0 ∨ size = 0) :
    bursts base count stride size = [] := by
  rcases h with rfl | rfl <;> simp [bursts]

/-- Bursts without gaps are one. -/
theorem bursts_contiguous (base : UInt64) (count size : Nat) :
    bursts base count size size = span after base (count * size) := flatMap_span after_after ..

theorem packet_eq {base : UInt64} {start stride : UInt32} {at' n j : Nat} (hat : start = at'.toUInt32)
    (h : at' + j * stride.toNat < 2 ^ 32) :
    packet base start stride n j = span after (after base (at' + j * stride.toNat)) n := by
  have hoffset : (start + j.toUInt32 * stride).toUInt64 = (at' + j * stride.toNat).toUInt64 := by
    rw [← UInt64.toNat_inj, UInt32.toNat_toUInt64, UInt32.toNat_add, UInt32.toNat_mul, hat]
    show (at' % 2 ^ 32 + j % 2 ^ 32 * stride.toNat % 2 ^ 32) % 2 ^ 32 = (at' + j * stride.toNat) % 2 ^ 64
    rw [Nat.mod_mul_mod]
    omega
  rw [packet, hoffset, after]

/-- The start of burst `j`, as the aligner counts it. -/
theorem burstStart_eq (stride : UInt64) (j : Nat) :
    j.toUInt32 * stride.toUInt32 = (j * stride.toNat).toUInt32 := by
  rw [← UInt32.toNat_inj, UInt32.toNat_mul, UInt64.toNat_toUInt32]
  show j % 2 ^ 32 * (stride.toNat % 2 ^ 32) % 2 ^ 32 = j * stride.toNat % 2 ^ 32
  rw [← Nat.mul_mod]

/-- A burst written in packets of the bandwidth is written whole. -/
theorem burstPackets_contiguous {u : DmaUops} {c : NonZeroU32} {j : Nat}
    (hroute : WriteAligner.collapsed u.route = false)
    (h : j * u.destination.burstStride.toNat + u.geometry.burstBytes.toNat < 2 ^ 32) :
    WriteAligner.burstPackets u c j =
      span after (after u.destination.base (j * u.destination.burstStride.toNat)) u.geometry.burstBytes.toNat := by
  generalize hw : c.val.toNat = w
  have hmod := Nat.div_add_mod u.geometry.burstBytes.toNat w
  have hpacket : ∀ n k, k ≤ u.geometry.burstBytes.toNat / w →
      packet u.destination.base (j.toUInt32 * u.destination.burstStride.toUInt32) c.val n k =
      span after (after (after u.destination.base (j * u.destination.burstStride.toNat)) (k * w)) n := by
    intro n k hk
    have hkw : k * w ≤ u.geometry.burstBytes.toNat := (Nat.mul_le_mul_right w hk).trans (Nat.div_mul_le_self _ _)
    rw [packet_eq (burstStart_eq ..) (by rw [hw]; omega), hw, after_after]
  rw [WriteAligner.burstPackets, WriteAligner.packetsFrom, WriteAligner.commandStride, hroute, hw, Nat.zero_div,
    Nat.sub_zero, ← List.range_eq_range']
  simp only [Bool.false_eq_true, if_false]
  rw [hpacket _ _ (le_refl _), flatMap_congr_range fun k hk => hpacket w k hk.le, flatMap_span after_after,
    ← span_add after_after, Nat.mul_comm _ w, hmod]

/-- Packets of a burst each, a destination stride apart. -/
theorem burstPackets_collapsed {u : DmaUops} {c : NonZeroU32} (count : Nat)
    (hroute : WriteAligner.collapsed u.route = true) (hbytes : u.geometry.burstBytes.toNat = count * c.val.toNat)
    (h : (count - 1) * u.destination.burstStride.toNat < 2 ^ 32) (hstride : u.destination.burstStride.toNat < 2 ^ 32) :
    WriteAligner.burstPackets u c 0 = bursts u.destination.base count u.destination.burstStride.toNat c.val.toNat := by
  have hc := WritePlan.chunk_pos c
  have hs : u.destination.burstStride.toUInt32.toNat = u.destination.burstStride.toNat := by
    rw [UInt64.toNat_toUInt32, Nat.mod_eq_of_lt hstride]
  rw [WriteAligner.burstPackets, WriteAligner.packetsFrom, WriteAligner.commandStride, hroute, hbytes, Nat.zero_div,
    Nat.sub_zero, ← List.range_eq_range', Nat.mul_div_cancel _ hc, Nat.mul_mod_left, packet, span_zero, List.append_nil]
  simp only [if_true]
  refine flatMap_congr_range fun k hk => ?_
  have hlt : k * u.destination.burstStride.toNat < 2 ^ 32 :=
    (Nat.mul_le_mul_right _ (by omega : k ≤ count - 1)).trans_lt h
  rw [packet_eq (burstStart_eq ..) (by rw [hs]; omega), hs, Nat.zero_mul, Nat.zero_add]

/-- However a command's requests are cut, the packets written hold its destination bursts, in order and once each;
the last one alone is marked, and the aligner is left as it was. -/
def WritesBursts (u : DmaUops) (bandwidth : NonZeroU32) (instructionId : Nat) (base : UInt64)
    (count stride size : Nat) : Prop :=
  ∃ fuel requests, u.generateAll instructionId fuel = some requests ∧
    ∀ destination isPrefetch pieces outputs, Pieces destination isPrefetch requests pieces →
      List.Forall₂ BiuReadOutput.Of outputs pieces →
      ∃ fragments, (WriteAligner.new bandwidth).feed outputs = .ok (fragments, .new bandwidth) ∧
        fragments.flatMap BiuWriteFragment.addresses = bursts base count stride size ∧
        (∀ f ∈ fragments, 0 < f.logicalBytes.toNat) ∧
        (∀ f ∈ fragments.dropLast, f.lastInInstruction = false) ∧
        (∀ f ∈ fragments.getLast?, f.lastInInstruction = true)

namespace WritesBursts

variable {u : DmaUops} {bandwidth c : NonZeroU32} {instructionId : Nat} {count stride size : Nat}

theorem of_empty (h : u.geometry.burstCount.toNat = 0 ∨ u.geometry.burstBytes.toNat = 0) (base : UInt64)
    (hsize : count = 0 ∨ size = 0) : WritesBursts u bandwidth instructionId base count stride size := by
  have hnone : u.generate instructionId = none := by
    rw [DmaUops.generate, DmaUops.next_none (h.imp_left fun h => h.le.trans (Nat.zero_le _))]
  refine ⟨0, [], by simp [DmaUops.generateAll, hnone], ?_⟩
  rintro destination isPrefetch pieces outputs hpieces houtputs
  cases hpieces
  cases houtputs
  exact ⟨[], rfl, (bursts_empty hsize).symm, by simp, by simp, by simp⟩

theorem of_copying (hindex : u.burstIndex = 0) (hoffset : u.offset = 0) (hwhole : u.geometry.splitEnabled = false)
    (hsmall : u.geometry.burstBytes.toNat < 2 ^ 32) (hcount : 0 < u.geometry.burstCount.toNat)
    (h : WriteAligner.Copying u bandwidth c)
    (haddresses : (List.range u.geometry.burstCount.toNat).flatMap (WriteAligner.burstPackets u c) =
      bursts u.destination.base count stride size) :
    WritesBursts u bandwidth instructionId u.destination.base count stride size := by
  obtain ⟨requests, hall, hwholes⟩ := WriteAligner.generateAll_whole instructionId u.geometry.burstCount.toNat u 0
    (by rw [hindex]; rfl) (by rw [hoffset]; rfl) (by omega) h.nonempty hsmall hwhole
  refine ⟨_, requests, hall, fun destination isPrefetch pieces outputs hpieces houtputs => ?_⟩
  obtain ⟨m, hm⟩ : ∃ m, u.geometry.burstCount.toNat = m + 1 := ⟨_, (Nat.succ_pred_eq_of_pos hcount).symm⟩
  rw [hm] at hwholes haddresses
  obtain ⟨fragments, hfeed, ha, hmark, -⟩ := WriteAligner.feed_bursts h m requests 0 none (by simp) (by omega) hwholes
    pieces hpieces outputs houtputs
  refine ⟨fragments, ?_, ?_, hmark.nonempty, hmark.init, hmark.last⟩
  · have hzero : (0 : Nat).toUInt32 * u.destination.burstStride.toUInt32 = 0 := UInt32.zero_mul
    rw [hzero] at hfeed
    exact hfeed
  · rw [ha, ← haddresses, List.range_eq_range']

/-- The geometries of an ordered copy of `count` bursts: one request a burst, or one for them all. -/
theorem of_routes (hindex : u.burstIndex = 0) (hoffset : u.offset = 0) (hwhole : u.geometry.splitEnabled = false)
    (hsize : u.destination.burstBytes.toNat = size) (hstride : u.destination.burstStride.toNat = stride)
    (hstride32 : stride < 2 ^ 32) (htotal : count * size < 2 ^ 32) (hextent : (count - 1) * stride + size < 2 ^ 32)
    (hempty : count = 0 ∨ size = 0 → u.geometry.burstCount.toNat = 0 ∨ u.geometry.burstBytes.toNat = 0)
    (hroutes : 0 < count → 0 < size →
      (u.route = .ordinary ∧ u.geometry.burstCount.toNat = count ∧ u.geometry.burstBytes.toNat = size) ∨
      (u.route = .contiguousBatch ∧ u.geometry.burstCount.toNat = 1 ∧ u.geometry.burstBytes.toNat = count * size ∧
        stride = size) ∨
      (u.route = .destinationGapCollapse ∧ u.geometry.burstCount.toNat = 1 ∧
        u.geometry.burstBytes.toNat = count * size)) :
    WritesBursts u bandwidth instructionId u.destination.base count stride size := by
  by_cases hz : count = 0 ∨ size = 0
  · exact of_empty (hempty hz) _ hz
  · obtain ⟨hcount, hpos⟩ : 0 < count ∧ 0 < size := by omega
    have hbatch : 0 < count * size := Nat.mul_pos hcount hpos
    rcases hroutes hcount hpos with ⟨hr, hn, hb⟩ | ⟨hr, hn, hb, hgap⟩ | ⟨hr, hn, hb⟩
    · refine of_copying (c := bandwidth) hindex hoffset hwhole (by omega) (by omega) ⟨?_, ?_, by omega⟩ ?_
      · exact .inl hr
      · intro g hg _
        rw [WriteAligner.chunk, hg, hr]
        rfl
      · rw [hn]
        refine flatMap_congr_range fun j hj => ?_
        have hj : j * stride ≤ (count - 1) * stride := Nat.mul_le_mul_right _ (by omega)
        rw [burstPackets_contiguous (by rw [hr]; rfl) (by rw [hstride, hb]; omega), hstride, hb]
    · refine of_copying (c := bandwidth) hindex hoffset hwhole (by omega) (by omega) ⟨?_, ?_, by omega⟩ ?_
      · exact .inr (.inl hr)
      · intro g hg _
        rw [WriteAligner.chunk, hg, hr]
        rfl
      · have hone : List.range 1 = [0] := rfl
        rw [hn, hone, List.flatMap_singleton, burstPackets_contiguous (by rw [hr]; rfl) (by omega), Nat.zero_mul, hgap,
          bursts_contiguous, hb]
        simp [after]
    · have hne : u.destination.burstBytes ≠ 0 := by
        rintro h0
        rw [h0] at hsize
        exact hpos.ne hsize
      refine of_copying (c := ⟨u.destination.burstBytes, hne⟩) hindex hoffset hwhole (by omega) (by omega)
        ⟨?_, ?_, by omega⟩ ?_
      · exact .inr (.inr hr)
      · intro g hg hd
        rw [WriteAligner.chunk, hg, hr]
        simp [WriteAligner.orEmptyBurst, nonZero?, hd, hne]
      · have hone : List.range 1 = [0] := rfl
        rw [hn, hone, List.flatMap_singleton, burstPackets_collapsed count (by rw [hr]; rfl)
          (by rw [hb, hsize]) (by rw [hstride]; omega) (by omega), hstride, hsize]

end WritesBursts

/-! ## MTE2 -/

theorem mul_32_toNat' (length : UInt16) : (length.toUInt32 * 32).toNat = length.toNat * 32 := by
  have := length.toNat_lt
  rw [UInt32.toNat_mul, UInt16.toNat_toUInt32]
  show length.toNat * 32 % 2 ^ 32 = _
  omega

theorem mte2_writes {t : Mte2TransferPlan} {u : DmaUops} (h : mte2Uops t = .ok u) (hordered : u.outOfOrder = false)
    (bandwidth : NonZeroU32) (instructionId : Nat) (htotal : t.bytes < 2 ^ 32)
    (hextent : (t.descriptor.burstCount.toNat - 1) *
        ((t.descriptor.burstLength.toNat + t.descriptor.destinationGap.toNat) * 32) +
      t.descriptor.burstLength.toNat * 32 < 2 ^ 32) :
    WritesBursts u bandwidth instructionId t.destinationAddress t.descriptor.burstCount.toNat
      ((t.descriptor.burstLength.toNat + t.descriptor.destinationGap.toNat) * 32)
      (t.descriptor.burstLength.toNat * 32) := by
  obtain ⟨hbytes, -, hdestination, hcases⟩ := mte2Uops_cases h
  have hlength := t.descriptor.burstLength.toNat_lt
  have hgap := t.descriptor.destinationGap.toNat_lt
  have hsize : u.destination.burstBytes.toNat = t.descriptor.burstLength.toNat * 32 := by
    rw [hdestination]
    exact mul_32_toNat' _
  have hstride : u.destination.burstStride.toNat =
      (t.descriptor.burstLength.toNat + t.descriptor.destinationGap.toNat) * 32 := by
    rw [hdestination]
    exact (stride_toNat ..).2
  have hbase : u.destination.base = t.destinationAddress := by rw [hdestination]
  have hflat : t.bytes.toUInt32.toUInt64.toNat = t.bytes := Nat.mod_eq_of_lt htotal
  rw [Nat.mul_assoc] at hbytes
  rw [← hbase]
  rcases hcases with ⟨-, hdg, hnew⟩ | ⟨-, hnew⟩ | hnew
  · have hb : u.geometry.burstBytes.toNat = t.descriptor.burstCount.toNat * (t.descriptor.burstLength.toNat * 32) := by
      rw [hnew.geometry, ← hbytes]
      exact hflat
    have hn : u.geometry.burstCount.toNat = 1 := by rw [hnew.geometry]; rfl
    have hdz : t.descriptor.destinationGap.toNat = 0 := by rw [hdg]; rfl
    refine WritesBursts.of_routes hnew.burstIndex hnew.offset hordered hsize hstride (by omega) (by omega) hextent ?_ ?_
    · rintro (h | h) <;> simp [hb, h]
    · exact fun _ _ => .inr (.inl ⟨hnew.route, hn, hb, by rw [hdz, Nat.add_zero]⟩)
  · have hb : u.geometry.burstBytes.toNat = t.descriptor.burstCount.toNat * (t.descriptor.burstLength.toNat * 32) := by
      rw [hnew.geometry, ← hbytes]
      exact hflat
    have hn : u.geometry.burstCount.toNat = 1 := by rw [hnew.geometry]; rfl
    refine WritesBursts.of_routes hnew.burstIndex hnew.offset hordered hsize hstride (by omega) (by omega) hextent ?_ ?_
    · rintro (h | h) <;> simp [hb, h]
    · exact fun _ _ => .inr (.inr ⟨hnew.route, hn, hb⟩)
  · have hb : u.geometry.burstBytes.toNat = t.descriptor.burstLength.toNat * 32 := by
      rw [hnew.geometry]
      exact mul_32_toNat _
    have hn : u.geometry.burstCount.toNat = t.descriptor.burstCount.toNat := by rw [hnew.geometry]; rfl
    refine WritesBursts.of_routes hnew.burstIndex hnew.offset hordered hsize hstride (by omega) (by omega) hextent ?_ ?_
    · rw [hn, hb]
      exact id
    · exact fun _ _ => .inl ⟨hnew.route, hn, hb⟩

/-- What `mte2L1Uops` makes of a plain copy. -/
theorem mte2L1Uops_copy32 {d : L1DmaDescriptor} {source destination word : UInt64} {u : DmaUops}
    (h : mte2L1Uops d source destination word = .ok u) (hlayout : d.layout = .copy32) :
    u.burstIndex = 0 ∧ u.offset = 0 ∧
    u.destination = ⟨destination, d.burstLength.toUInt32 * 32, (d.burstLength.toUInt64 + d.destinationGap.toUInt64) * 32⟩ ∧
    (d.burstCount = 0 ∨ d.burstLength = 0 → u.geometry.burstCount = 0) ∧
    (d.burstCount ≠ 0 → d.burstLength ≠ 0 →
      (u.route = .ordinary ∧ u.geometry.burstCount = d.burstCount ∧
        u.geometry.burstBytes = (d.burstLength.toUInt32 * 32).toUInt64) ∨
      (u.route = .contiguousBatch ∧ u.geometry.burstCount = 1 ∧
        u.geometry.burstBytes = (d.burstLength.toUInt32 * 32 * d.burstCount.toUInt32).toUInt64 ∧ d.destinationGap = 0) ∨
      (u.route = .destinationGapCollapse ∧ u.geometry.burstCount = 1 ∧
        u.geometry.burstBytes = (d.burstLength.toUInt32 * 32 * d.burstCount.toUInt32).toUInt64)) := by
  have htransform : d.layout.transform = none := by rw [hlayout]; rfl
  unfold mte2L1Uops mte2L1RequestStream at h
  simp only [bind, Except.bind, htransform] at h
  split at h
  · cases h
  · rename_i stream hstream
    obtain rfl := Except.ok.inj h
    split at hstream
    · cases hstream
    · rename_i requests hrequests
      obtain rfl := Except.ok.inj hstream
      obtain ⟨hg, -, hr, -, hi, ho⟩ := splitRequests_ok hrequests
      refine ⟨hi, ho, rfl, ?_, ?_⟩
      · intro hzero
        show requests.geometry.burstCount = 0
        rw [hg, if_pos hzero]
      · intro hcount hlength
        have hmore : ¬(d.burstCount = 0 ∨ d.burstLength = 0) := not_or.mpr ⟨hcount, hlength⟩
        cases hbatch : decide (d.sourceGap = 0 ∧ d.destinationGap = 0) with
        | true =>
          simp only [hbatch, Bool.true_or, if_true, if_neg hmore] at hg hr
          exact .inr (.inl ⟨hr, by rw [hg], by rw [hg], (of_decide_eq_true hbatch).2⟩)
        | false =>
          simp only [hbatch, Bool.not_false, Bool.true_and, Bool.false_or, Bool.false_eq_true, if_false,
            if_neg hmore] at hg hr
          split at hr
          · rename_i hcollapsed
            simp only [hcollapsed, if_true] at hg
            exact .inr (.inr ⟨hr, by rw [hg], by rw [hg]⟩)
          · rename_i hcollapsed
            simp only [hcollapsed, Bool.false_eq_true, if_false] at hg
            exact .inl ⟨hr, by rw [hg], by rw [hg]⟩

theorem mte2_l1_writes {d : L1DmaDescriptor} {source destination word : UInt64} {u : DmaUops}
    (h : mte2L1Uops d source destination word = .ok u) (hlayout : d.layout = .copy32) (hordered : u.outOfOrder = false)
    (bandwidth : NonZeroU32) (instructionId : Nat)
    (htotal : d.burstCount.toNat * (d.burstLength.toNat * 32) < 2 ^ 32)
    (hextent : (d.burstCount.toNat - 1) * ((d.burstLength.toNat + d.destinationGap.toNat) * 32) +
      d.burstLength.toNat * 32 < 2 ^ 32) :
    WritesBursts u bandwidth instructionId destination d.burstCount.toNat
      ((d.burstLength.toNat + d.destinationGap.toNat) * 32) (d.burstLength.toNat * 32) := by
  obtain ⟨hi, ho, hdestination, hzero, hroutes⟩ := mte2L1Uops_copy32 h hlayout
  have hlength := d.burstLength.toNat_lt
  have hgap := d.destinationGap.toNat_lt
  have hburst : (d.burstLength.toUInt32 * 32).toNat = d.burstLength.toNat * 32 := mul_32_toNat' _
  have hbatch : (d.burstLength.toUInt32 * 32 * d.burstCount.toUInt32).toUInt64.toNat =
      d.burstCount.toNat * (d.burstLength.toNat * 32) := by
    rw [UInt32.toNat_toUInt64, UInt32.toNat_mul, hburst, UInt16.toNat_toUInt32, Nat.mul_comm, Nat.mod_eq_of_lt htotal]
  have hsize : u.destination.burstBytes.toNat = d.burstLength.toNat * 32 := by rw [hdestination, hburst]
  have hstride : u.destination.burstStride.toNat = (d.burstLength.toNat + d.destinationGap.toNat) * 32 := by
    rw [hdestination]
    exact (stride_toNat ..).2
  have hbase : u.destination.base = destination := by rw [hdestination]
  rw [← hbase]
  refine WritesBursts.of_routes hi ho hordered hsize hstride (by omega) htotal hextent ?_ ?_
  · intro hempty
    have hoff : d.burstCount = 0 ∨ d.burstLength = 0 := by
      rcases hempty with h | h
      · exact .inl (UInt16.toNat_inj.mp h)
      · exact .inr (UInt16.toNat_inj.mp (by show d.burstLength.toNat = 0; omega))
    rw [hzero hoff]
    exact .inl rfl
  · intro hcount hpos
    have hc : d.burstCount ≠ 0 := by rintro h0; rw [h0] at hcount; exact absurd hcount (by decide)
    have hl : d.burstLength ≠ 0 := by rintro h0; rw [h0] at hpos; exact absurd hpos (by decide)
    rcases hroutes hc hl with ⟨hr, hn, hb⟩ | ⟨hr, hn, hb, hdg⟩ | ⟨hr, hn, hb⟩
    · exact .inl ⟨hr, by rw [hn], by rw [hb, UInt32.toNat_toUInt64, hburst]⟩
    · have hdz : d.destinationGap.toNat = 0 := by rw [hdg]; rfl
      exact .inr (.inl ⟨hr, by rw [hn]; rfl, by rw [hb, hbatch], by rw [hdz, Nat.add_zero]⟩)
    · exact .inr (.inr ⟨hr, by rw [hn]; rfl, by rw [hb, hbatch]⟩)

/-- Every ordered copy to the unified buffer or to L1 writes its destination bursts, and nothing else. -/
theorem ordered_copies_write_bursts :
    (∀ (transfer : Mte2TransferPlan) (uops : DmaUops) (bandwidth : NonZeroU32) (instructionId : Nat),
      mte2Uops transfer = .ok uops → uops.outOfOrder = false → transfer.bytes < 2 ^ 32 →
      (transfer.descriptor.burstCount.toNat - 1) *
          ((transfer.descriptor.burstLength.toNat + transfer.descriptor.destinationGap.toNat) * 32) +
        transfer.descriptor.burstLength.toNat * 32 < 2 ^ 32 →
      WritesBursts uops bandwidth instructionId transfer.destinationAddress transfer.descriptor.burstCount.toNat
        ((transfer.descriptor.burstLength.toNat + transfer.descriptor.destinationGap.toNat) * 32)
        (transfer.descriptor.burstLength.toNat * 32)) ∧
    (∀ (descriptor : L1DmaDescriptor) (sourceAddress destinationAddress dmaModeWord : UInt64) (uops : DmaUops)
        (bandwidth : NonZeroU32) (instructionId : Nat),
      mte2L1Uops descriptor sourceAddress destinationAddress dmaModeWord = .ok uops →
      descriptor.layout = .copy32 → uops.outOfOrder = false →
      descriptor.burstCount.toNat * (descriptor.burstLength.toNat * 32) < 2 ^ 32 →
      (descriptor.burstCount.toNat - 1) * ((descriptor.burstLength.toNat + descriptor.destinationGap.toNat) * 32) +
        descriptor.burstLength.toNat * 32 < 2 ^ 32 →
      WritesBursts uops bandwidth instructionId destinationAddress descriptor.burstCount.toNat
        ((descriptor.burstLength.toNat + descriptor.destinationGap.toNat) * 32) (descriptor.burstLength.toNat * 32)) :=
  ⟨fun _ _ bandwidth instructionId h hordered htotal hextent =>
      mte2_writes h hordered bandwidth instructionId htotal hextent,
    fun _ _ _ _ _ bandwidth instructionId h hlayout hordered htotal hextent =>
      mte2_l1_writes h hlayout hordered bandwidth instructionId htotal hextent⟩

/-- Two bursts of one unit, 3 units apart in the destination: a collapsed transfer. -/
def gapped : Mte2TransferPlan where
  descriptor := ⟨0x711f3188, 0x0003000000010020, 2, 1, 0, 3⟩
  sourceAddress := 0x1000
  destinationAddress := 0x200
  bytes := 64
  dmaModeWord := 0

/-- Two bursts of 3 units from an odd source address. -/
def unaligned : L1DmaDescriptor := ⟨0x0002000100030020, .copy32⟩

theorem ordered_copies_write_bursts_gapped :
    (∃ uops, mte2Uops gapped = .ok uops ∧ WritesBursts uops ⟨64, by decide⟩ 7 0x200 2 128 32) ∧
    (∃ uops, mte2L1Uops unaligned 0x1001 0x400 0 = .ok uops ∧ WritesBursts uops ⟨64, by decide⟩ 7 0x400 2 160 96) := by
  constructor
  · exact ⟨_, rfl, ordered_copies_write_bursts.1 gapped _ ⟨64, by decide⟩ 7 rfl rfl (by decide) (by decide)⟩
  · exact ⟨_, rfl, ordered_copies_write_bursts.2 unaligned 0x1001 0x400 0 _ ⟨64, by decide⟩ 7 rfl rfl rfl (by decide)
      (by decide)⟩

end AscendEmulator.C220.Mte
