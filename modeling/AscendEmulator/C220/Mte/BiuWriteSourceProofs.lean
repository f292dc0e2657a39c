/-
  AscendEmulator.C220.Mte.BiuWriteSourceProofs — what the source of the BIU writes reads, and that it finishes.

  The tags whose DBID arrived wait in one queue, the egress before the ingress. The fragments in flight are those that
  the tags of the egress still expect, then those that the first tag of the ingress has pushed (`Inv.flight`), so the
  oldest one is always the first tag's. `work` counts the steps that are left.
-/

import AscendEmulator.Lib.Tiling
import AscendEmulator.C220.Mte.BiuWriteSource

namespace AscendEmulator.C220.Mte

open Lib

/-! ## Requests and their packets -/

/-- A gather of some bursts of 64 bytes, or bytes within the 32-bit addresses. -/
def BiuWriteSourceRequest.Fits (r : BiuWriteSourceRequest) : Prop :=
  match r.gatherStride with
  | some _ => r.bytes ≠ 0 ∧ r.bytes.toNat % 64 = 0
  | none => r.bytes ≠ 0 ∧ r.sourceAddress.toUInt32.toNat % 32 + r.bytes.toNat < u32

/-- The `k`-th burst of a gather at `offset`. -/
def gathered (r : BiuWriteSourceRequest) (stride offset : UInt32) (k : Nat) : UbReadFragment :=
  ⟨r.tag, r.sourceAddress + offset.toUInt64 + k.toUInt64 * stride.toUInt64, 64, true⟩

/-- The fragments that a request reads: the bursts of a gather, or else ranges that tile its bytes from the 32-byte
boundary before them. -/
structure Covers (r : BiuWriteSourceRequest) (l : List UbReadFragment) : Prop where
  tag : ∀ f ∈ l, f.tag = r.tag ∧ f.completesRead = true
  gather : ∀ stride, r.gatherStride = some stride →
    ∃ offset, l = (List.range (r.bytes.toNat / 64)).map (gathered r stride offset)
  plain : r.gatherStride = none →
    Tiles (fun f => f.address.toNat) (fun f => f.bytes.toNat) (r.sourceAddress.toUInt32.toNat / 32 * 32) l
      (r.sourceAddress.toUInt32.toNat + r.bytes.toNat)

theorem toNat_and_not_31 (n : UInt32) : (n &&& ~~~31).toNat = n.toNat / 32 * 32 := by
  have hn := n.toNat_lt
  have hmask : (~~~31 : UInt32).toNat = (2 ^ 27 - 1) <<< 5 := by decide
  have hshift : n.toNat / 32 * 32 = n.toNat >>> 5 <<< 5 := by
    rw [Nat.shiftLeft_eq, Nat.shiftRight_eq_div_pow]
  rw [UInt32.toNat_and, hmask, hshift]
  refine Nat.eq_of_testBit_eq fun i => ?_
  rw [Nat.testBit_and, Nat.testBit_shiftLeft, Nat.testBit_shiftLeft, Nat.testBit_two_pow_sub_one, Nat.testBit_shiftRight]
  by_cases hi : 5 ≤ i
  · rw [decide_eq_true hi, Bool.true_and, Bool.true_and, Nat.add_sub_cancel' hi]
    by_cases hlt : i < 32
    · rw [decide_eq_true (by omega), Bool.and_true]
    · have hbit : n.toNat.testBit i = false :=
        Nat.testBit_lt_two_pow (Nat.lt_of_lt_of_le hn (Nat.pow_le_pow_right (by decide) (by omega)))
      rw [hbit, Bool.false_and]
  · simp [hi]

namespace SourcePackets

variable {p : SourcePackets} {r : BiuWriteSourceRequest} {bandwidth : NonZeroU32} {offset : UInt32}

/-- The packets that are left, `n` of them. -/
def fragmentsFrom : Nat → SourcePackets → List UbReadFragment
  | 0, _ => []
  | n + 1, p => p.head :: fragmentsFrom n p.pop

def fragments (p : SourcePackets) : List UbReadFragment := fragmentsFrom p.remainingPackets p

theorem fragments_done (h : p.remainingPackets = 0) : p.fragments = [] := by
  unfold fragments
  rw [h]
  rfl

theorem fragments_step (h : p.remainingPackets ≠ 0) : p.fragments = p.head :: p.pop.fragments := by
  obtain ⟨n, hn⟩ := Nat.exists_eq_succ_of_ne_zero h
  have hpop : p.pop.remainingPackets = n := by
    show p.remainingPackets - 1 = n
    omega
  unfold fragments
  rw [hpop, hn]
  rfl

theorem front_eq (h : p.remainingPackets ≠ 0) : p.front = some p.head := if_pos h

theorem front_none : p.front.isNone = true ↔ p.remainingPackets = 0 := by
  unfold front
  split <;> simp_all

theorem fragmentsFrom_tag (n : Nat) : ∀ f ∈ fragmentsFrom n p, f.tag = p.tag ∧ f.completesRead = true := by
  induction n generalizing p with
  | zero => exact fun f hf => absurd hf List.not_mem_nil
  | succ n ih =>
    intro f hf
    rcases List.mem_cons.mp hf with rfl | hf
    · exact ⟨rfl, rfl⟩
    · exact ih (p := p.pop) f hf

theorem bytes_toNat (p : SourcePackets) : p.bytes.toNat = min p.remainingBytes.toNat p.width.toNat := by
  unfold bytes
  rw [UInt32.toNat_min]

/-! ### Gathers -/

theorem fragmentsFrom_gather {stride : UInt32} (n : Nat) (hbytes : p.remainingBytes.toNat = 64 * n) (hwidth : p.width = 64)
    (hstride : p.stride = some stride) :
    fragmentsFrom n p =
      (List.range n).map fun k => ⟨p.tag, p.address + k.toUInt64 * stride.toUInt64, 64, true⟩ := by
  induction n generalizing p with
  | zero => rfl
  | succ n ih =>
    have h64 : (64 : UInt32).toNat = 64 := rfl
    have hsize : p.bytes = 64 := by
      rw [← UInt32.toNat_inj, bytes_toNat, hwidth, h64]
      omega
    have hpop : p.pop.remainingBytes.toNat = 64 * n := by
      show (p.remainingBytes - p.bytes).toNat = _
      rw [hsize, UInt32.toNat_sub_of_le _ _ (UInt32.le_iff_toNat_le.mpr (by omega)), h64]
      omega
    have hnext : p.pop.address = p.address + stride.toUInt64 := by
      show p.address + (p.stride.getD p.bytes).toUInt64 = _
      rw [hstride]
      rfl
    show p.head :: fragmentsFrom n p.pop = _
    rw [ih hpop hwidth hstride, List.range_succ_eq_map, List.map_cons, List.map_map, hnext]
    congr 1
    · unfold head
      rw [hsize]
      simp
    · refine List.map_congr_left fun k _ => ?_
      have hk : (k + 1).toUInt64 = k.toUInt64 + 1 := by simp
      have hadd : p.address + stride.toUInt64 + k.toUInt64 * stride.toUInt64 =
          p.address + (k + 1).toUInt64 * stride.toUInt64 := by
        rw [hk, UInt64.add_mul, UInt64.one_mul, UInt64.add_comm (k.toUInt64 * stride.toUInt64), UInt64.add_assoc]
      simp only [Function.comp_apply, Nat.succ_eq_add_one, hadd]
      rfl

/-! ### Plain requests -/

theorem fragmentsFrom_plain (n : Nat) (hwidth : 0 < p.width.toNat) (hlow : (n - 1) * p.width.toNat < p.remainingBytes.toNat ∨ n = 0)
    (hhigh : p.remainingBytes.toNat ≤ n * p.width.toNat) (hstride : p.stride = none)
    (haddress : p.address.toNat + p.remainingBytes.toNat < u64) :
    Tiles (fun f => f.address.toNat) (fun f => f.bytes.toNat) p.address.toNat (fragmentsFrom n p)
      (p.address.toNat + p.remainingBytes.toNat) := by
  induction n generalizing p with
  | zero =>
    show p.address.toNat = p.address.toNat + p.remainingBytes.toNat
    omega
  | succ n ih =>
    have hsize := p.bytes_toNat
    have hlow : n * p.width.toNat < p.remainingBytes.toNat := by
      rcases hlow with hlow | hlow
      · exact hlow
      · cases hlow
    have hhigh : p.remainingBytes.toNat ≤ n * p.width.toNat + p.width.toNat := by rwa [Nat.succ_mul] at hhigh
    have hrest : p.pop.remainingBytes.toNat = p.remainingBytes.toNat - p.bytes.toNat :=
      UInt32.toNat_sub_of_le _ _ (UInt32.le_iff_toNat_le.mpr (by omega))
    have hnext : p.pop.address.toNat = p.address.toNat + p.bytes.toNat := by
      show (p.address + (p.stride.getD p.bytes).toUInt64).toNat = _
      rw [hstride, Option.getD_none, UInt64.toNat_add, UInt32.toNat_toUInt64]
      exact Nat.mod_eq_of_lt (by unfold u64 at haddress; omega)
    have hpos : 0 < p.bytes.toNat := by omega
    refine ⟨rfl, hpos, ?_⟩
    have htiles := @ih p.pop hwidth ?_ ?_ hstride ?_
    · rw [hnext, hrest] at htiles
      have hend : p.address.toNat + p.bytes.toNat + (p.remainingBytes.toNat - p.bytes.toNat) =
          p.address.toNat + p.remainingBytes.toNat := by omega
      rw [hend] at htiles
      exact htiles
    · rcases Nat.eq_zero_or_pos n with rfl | hn
      · exact .inr rfl
      · left
        obtain ⟨m, rfl⟩ := Nat.exists_eq_succ_of_ne_zero (Nat.pos_iff_ne_zero.mp hn)
        show m * p.width.toNat < _
        rw [Nat.succ_mul] at hlow
        omega
    · show _ ≤ n * p.width.toNat
      omega
    · omega

/-- The packets of a request read what it covers. -/
theorem new_covers (h : r.Fits) : Covers r (SourcePackets.new r bandwidth offset).fragments ∧
    0 < (SourcePackets.new r bandwidth offset).remainingPackets := by
  unfold BiuWriteSourceRequest.Fits at h
  cases hstride : r.gatherStride with
  | some stride =>
    rw [hstride] at h
    dsimp only at h
    have hcount : (r.bytes >>> 6).toNat = r.bytes.toNat / 64 := by
      rw [UInt32.toNat_shiftRight]
      exact Nat.shiftRight_eq_div_pow ..
    have hlt := r.bytes.toNat_lt
    have hpos : 0 < r.bytes.toNat := toNat_pos.mp h.1
    have hbytes : ((r.bytes >>> 6) * 64).toNat = 64 * (r.bytes.toNat / 64) := by
      have h64 : (64 : UInt32).toNat = 64 := rfl
      rw [UInt32.toNat_mul, hcount, h64]
      omega
    have hnew : SourcePackets.new r bandwidth offset =
        ⟨r.tag, r.sourceAddress + offset.toUInt64, (r.bytes >>> 6) * 64, (r.bytes >>> 6).toNat, 64, some stride⟩ := by
      unfold SourcePackets.new
      rw [hstride]
    rw [hnew]
    refine ⟨⟨fun f hf => fragmentsFrom_tag _ f hf, fun stride' hs => ⟨offset, ?_⟩, fun hn => by rw [hstride] at hn; cases hn⟩, ?_⟩
    · obtain rfl : stride = stride' := Option.some.inj (hstride.symm.trans hs)
      unfold fragments
      dsimp only
      rw [hcount]
      exact fragmentsFrom_gather _ hbytes rfl rfl
    · dsimp only
      rw [hcount]
      omega
  | none =>
    rw [hstride] at h
    dsimp only at h
    have hpos : 0 < r.bytes.toNat := toNat_pos.mp h.1
    have hbandwidth : 0 < bandwidth.val.toNat := toNat_pos.mp bandwidth.property
    have halign := toNat_and_not_31 r.sourceAddress.toUInt32
    have hlt := r.sourceAddress.toUInt32.toNat_lt
    have hfits := h.2
    unfold u32 at hfits
    have htotal : (r.bytes + r.sourceAddress.toUInt32 - (r.sourceAddress.toUInt32 &&& ~~~31)).toNat =
        r.sourceAddress.toUInt32.toNat % 32 + r.bytes.toNat := by
      rw [UInt32.toNat_sub, UInt32.toNat_add, halign]
      omega
    have hnew : SourcePackets.new r bandwidth offset =
        ⟨r.tag, (r.sourceAddress.toUInt32 &&& ~~~31).toUInt64,
          r.bytes + r.sourceAddress.toUInt32 - (r.sourceAddress.toUInt32 &&& ~~~31),
          ((r.bytes + r.sourceAddress.toUInt32 - (r.sourceAddress.toUInt32 &&& ~~~31)).toNat + (bandwidth.val.toNat - 1)) /
            bandwidth.val.toNat, bandwidth.val, none⟩ := by
      unfold SourcePackets.new
      rw [hstride]
    rw [hnew, htotal]
    -- the count of packets is the ceiling of a quotient
    generalize hn : (r.sourceAddress.toUInt32.toNat % 32 + r.bytes.toNat + (bandwidth.val.toNat - 1)) / bandwidth.val.toNat = n
    have hdiv := Nat.div_add_mod (r.sourceAddress.toUInt32.toNat % 32 + r.bytes.toNat + (bandwidth.val.toNat - 1))
      bandwidth.val.toNat
    have hmod := Nat.mod_lt (r.sourceAddress.toUInt32.toNat % 32 + r.bytes.toNat + (bandwidth.val.toNat - 1)) hbandwidth
    rw [hn, Nat.mul_comm] at hdiv
    have hsome : n ≠ 0 := by
      rintro rfl
      omega
    refine ⟨⟨fun f hf => fragmentsFrom_tag _ f hf, fun stride hs => (by rw [hstride] at hs; cases hs), fun _ => ?_⟩,
      Nat.pos_of_ne_zero hsome⟩
    have haddress : (r.sourceAddress.toUInt32 &&& ~~~31).toUInt64.toNat = r.sourceAddress.toUInt32.toNat / 32 * 32 := by
      rw [UInt32.toNat_toUInt64, halign]
    have hend : r.sourceAddress.toUInt32.toNat / 32 * 32 + (r.sourceAddress.toUInt32.toNat % 32 + r.bytes.toNat) =
        r.sourceAddress.toUInt32.toNat + r.bytes.toNat := by omega
    have htiles := @fragmentsFrom_plain ⟨r.tag, (r.sourceAddress.toUInt32 &&& ~~~31).toUInt64,
      r.bytes + r.sourceAddress.toUInt32 - (r.sourceAddress.toUInt32 &&& ~~~31), n, bandwidth.val, none⟩ n hbandwidth
      ?_ ?_ rfl ?_
    · dsimp only at htiles
      rw [haddress, htotal, hend] at htiles
      exact htiles
    · left
      dsimp only
      obtain ⟨m, rfl⟩ := Nat.exists_eq_succ_of_ne_zero hsome
      rw [Nat.succ_mul] at hdiv
      rw [htotal, Nat.succ_sub_one]
      omega
    · dsimp only
      rw [htotal]
      omega
    · dsimp only
      rw [haddress, htotal]
      unfold u64
      omega

end SourcePackets

/-- A request without its mark, which may be set again as its source starts. -/
def BiuWriteSourceRequest.untailed (r : BiuWriteSourceRequest) : BiuWriteSourceRequest := { r with lastInInstruction := false }

theorem SourcePackets.new_remainingPackets {r r' : BiuWriteSourceRequest} (h : r'.untailed = r.untailed)
    (bandwidth : NonZeroU32) (offset offset' : UInt32) :
    (SourcePackets.new r' bandwidth offset').remainingPackets = (SourcePackets.new r bandwidth offset).remainingPackets := by
  have hstride : r'.gatherStride = r.gatherStride := (congrArg BiuWriteSourceRequest.gatherStride h :)
  have hbytes : r'.bytes = r.bytes := (congrArg BiuWriteSourceRequest.bytes h :)
  have hsource : r'.sourceAddress = r.sourceAddress := (congrArg BiuWriteSourceRequest.sourceAddress h :)
  unfold SourcePackets.new
  rw [hstride, hbytes, hsource]
  cases r.gatherStride <;> rfl

theorem BiuWriteSourceRequest.fits_untailed {r : BiuWriteSourceRequest} : r.untailed.Fits ↔ r.Fits := Iff.rfl

/-! ## The queue of the tags -/

namespace BiuWriteSource

variable {s s' : BiuWriteSource} {tag : Nat}

/-- The tags whose DBID arrived and whose data are not ready, the oldest first. -/
def openTags (s : BiuWriteSource) : List Nat := s.egress.map (·.2) ++ s.ingress.map (·.2)

def requestOf (s : BiuWriteSource) (tag : Nat) : Option BiuWriteSourceRequest :=
  (s.pending.get? tag).map (·.request.untailed)

/-- The responses that a tag expects. -/
def expected (s : BiuWriteSource) (tag : Nat) : Nat := ((s.pending.get? tag).map (·.remainingResponses)).getD 0

/-- The packets of the first tag of the ingress that were pushed already. -/
def pushed (s : BiuWriteSource) : List Nat :=
  match s.packets with
  | none => []
  | some p => List.replicate (s.expected p.tag - p.remainingPackets) p.tag

def packetCount (s : BiuWriteSource) (tag : Nat) : Nat :=
  ((s.pending.get? tag).map fun p => (SourcePackets.new p.request s.bandwidth 0).remainingPackets).getD 0

/-- The packets that the ingress has to push. -/
def toPush (s : BiuWriteSource) : Nat :=
  match s.packets with
  | none => (s.ingress.map fun e => s.packetCount e.2).sum
  | some p => p.remainingPackets + (s.ingress.tail.map fun e => s.packetCount e.2).sum

end BiuWriteSource

namespace BiuWriteReader

open BiuWriteSource

/-- The steps that are left: each packet is pushed, sent, delivered, answered and completed. -/
def work (x : BiuWriteReader) : Nat := x.ub.load + 5 * x.source.toPush

end BiuWriteReader

/-! ## The invariant -/

/-- The requests registered, the DBIDs received, the packets read and the data made ready so far. -/
structure SourceLog where
  registered : Nat → Option BiuWriteSourceRequest
  dbids : List BiuWriteSourceRequest
  reads : List UbReadFragment
  ready : List BiuWriteSourceRequest

/-- The packets read, request by request. -/
structure Grouped (l : SourceLog) (s : BiuWriteSource) (groups : List (BiuWriteSourceRequest × List UbReadFragment)) : Prop where
  order : groups.map (·.1.untailed) = l.dbids.take groups.length
  count : groups.length = l.ready.length + s.egress.length + if s.packets.isSome then 1 else 0
  covers : ∀ g ∈ groups, Covers g.1 g.2
  reads : l.reads ++ (s.packets.map SourcePackets.fragments).getD [] = groups.flatMap (·.2)

structure Registered (l : SourceLog) (tag : Nat) (p : PendingRead) : Prop where
  own : p.request.tag = tag
  fits : p.request.Fits
  log : l.registered tag = some p.request.untailed
  sent : p.dataSent = true → p.dbidReceived = true

structure Waits (p : PendingRead) : Prop where
  dbid : p.dbidReceived = true
  unsent : p.dataSent = false

structure SourceInv (l : SourceLog) (x : BiuWriteReader) : Prop where
  ub : x.ub.Sound
  registered : ∀ tag p, x.source.pending.get? tag = some p → Registered l tag p
  waiting : ∀ tag ∈ x.source.dataReady.map (·.request.tag) ++ x.source.openTags,
    ∃ p, x.source.pending.get? tag = some p ∧ Waits p
  distinct : (x.source.dataReady.map (·.request.tag) ++ x.source.openTags).Nodup
  dbids : l.dbids.map some = l.ready.map some ++ x.source.openTags.map x.source.requestOf
  packets : ∀ p, x.source.packets = some p →
    (∃ readyTick ingress, x.source.ingress = (readyTick, p.tag) :: ingress) ∧ 0 < p.remainingPackets ∧
      p.remainingPackets ≤ x.source.expected p.tag
  flight : x.ub.flight.map (·.tag) =
    x.source.egress.flatMap (fun e => List.replicate (x.source.expected e.2) e.2) ++ x.source.pushed
  positive : ∀ e ∈ x.source.egress, 0 < x.source.expected e.2
  groups : ∃ groups, Grouped l x.source groups

section Steps

open BiuWriteReader BiuWriteSource

variable {l l' : SourceLog} {x x' : BiuWriteReader} {s' : BiuWriteSource} {tag tick : Nat}

/-- What may change of a tag that waits: the mark of its request. -/
structure SameTag (s s' : BiuWriteSource) (tag : Nat) : Prop where
  request : s'.requestOf tag = s.requestOf tag
  expected : s'.expected tag = s.expected tag
  packetCount : s'.packetCount tag = s.packetCount tag
  waits : ∀ p, s.pending.get? tag = some p → Waits p → ∃ p', s'.pending.get? tag = some p' ∧ Waits p'

theorem sameTag_of_eq {s s' : BiuWriteSource} (h : s'.pending.get? tag = s.pending.get? tag)
    (hbandwidth : s'.bandwidth = s.bandwidth) : SameTag s s' tag := by
  refine ⟨?_, ?_, ?_, fun p hp hw => ⟨p, h.trans hp, hw⟩⟩
  · unfold requestOf
    rw [h]
  · unfold BiuWriteSource.expected
    rw [h]
  · unfold BiuWriteSource.packetCount
    rw [h, hbandwidth]

theorem sameTag_insert {s s' : BiuWriteSource} {p p' : PendingRead} (hp : s.pending.get? tag = some p)
    (hpending : s'.pending.get? tag = some p') (hbandwidth : s'.bandwidth = s.bandwidth)
    (hrequest : p'.request.untailed = p.request.untailed) (hexpected : p'.remainingResponses = p.remainingResponses)
    (hwaits : Waits p → Waits p') : SameTag s s' tag := by
  refine ⟨?_, ?_, ?_, fun q hq hw => ⟨p', hpending, hwaits ?_⟩⟩
  · unfold requestOf
    rw [hpending, hp, Option.map_some, Option.map_some, hrequest]
  · unfold BiuWriteSource.expected
    rw [hpending, hp, Option.map_some, Option.map_some, hexpected]
  · unfold BiuWriteSource.packetCount
    rw [hpending, hp, Option.map_some, Option.map_some, hbandwidth, SourcePackets.new_remainingPackets hrequest _ 0 0]
  · cases hp.symm.trans hq
    exact hw

/-- The tags that wait are the same, or some data were taken. -/
theorem SourceInv.frame (h : SourceInv l x) (hlog : l'.dbids = l.dbids ∧ l'.reads = l.reads ∧ l'.ready = l.ready)
    (hqueues : s'.ingress = x.source.ingress ∧ s'.egress = x.source.egress ∧ s'.packets = x.source.packets)
    (hdata : s'.dataReady.Sublist x.source.dataReady)
    (hregistered : ∀ tag p, s'.pending.get? tag = some p → Registered l' tag p)
    (hsame : ∀ tag ∈ s'.dataReady.map (·.request.tag) ++ x.source.openTags, SameTag x.source s' tag) :
    SourceInv l' { x with source := s' } := by
  obtain ⟨hdbids, hreads, hready⟩ := hlog
  obtain ⟨hingress, hegress, hpackets⟩ := hqueues
  have hopen : s'.openTags = x.source.openTags := by
    unfold openTags
    rw [hingress, hegress]
  have hin : ∀ e ∈ x.source.ingress, e.2 ∈ x.source.openTags := fun e he =>
    List.mem_append_right _ (List.mem_map_of_mem he)
  have heg : ∀ e ∈ x.source.egress, e.2 ∈ x.source.openTags := fun e he =>
    List.mem_append_left _ (List.mem_map_of_mem he)
  have hsame' : ∀ tag ∈ x.source.openTags, SameTag x.source s' tag := fun tag ht => hsame tag (List.mem_append_right _ ht)
  have hfirst : ∀ p, x.source.packets = some p → SameTag x.source s' p.tag := by
    intro p hp
    obtain ⟨⟨readyTick, ingress, hi⟩, -⟩ := h.packets p hp
    exact hsame' _ (hin (readyTick, p.tag) (by rw [hi]; exact List.mem_cons_self))
  have hpushed : s'.pushed = x.source.pushed := by
    unfold BiuWriteSource.pushed
    rw [hpackets]
    cases hp : x.source.packets with
    | none => rfl
    | some p =>
      dsimp only
      rw [(hfirst p hp).expected]
  have hsub : (s'.dataReady.map (·.request.tag) ++ x.source.openTags).Sublist
      (x.source.dataReady.map (·.request.tag) ++ x.source.openTags) := (hdata.map _).append_right _
  refine ⟨h.ub, hregistered, fun tag ht => ?_, ?_, ?_, fun p hp => ?_, ?_, fun e he => ?_, ?_⟩
  · dsimp only at ht
    rw [hopen] at ht
    obtain ⟨p, hp, hw⟩ := h.waiting tag (hsub.subset ht)
    exact (hsame tag ht).waits p hp hw
  · dsimp only
    rw [hopen]
    exact h.distinct.sublist hsub
  · dsimp only
    rw [hdbids, hready, hopen, h.dbids]
    congr 1
    exact List.map_congr_left fun tag ht => (hsame' tag ht).request.symm
  · dsimp only at hp ⊢
    rw [hpackets] at hp
    obtain ⟨hi, hpos, hle⟩ := h.packets p hp
    rw [hingress, (hfirst p hp).expected]
    exact ⟨hi, hpos, hle⟩
  · dsimp only
    rw [hpushed, hegress, h.flight]
    congr 1
    exact List.flatMap_congr fun e he => by rw [(hsame' e.2 (heg e he)).expected]
  · dsimp only at he ⊢
    rw [hegress] at he
    rw [(hsame' e.2 (heg e he)).expected]
    exact h.positive e he
  · obtain ⟨groups, hg⟩ := h.groups
    refine ⟨groups, ?_, ?_, hg.covers, ?_⟩
    · rw [hdbids]
      exact hg.order
    · dsimp only
      rw [hready, hegress, hpackets]
      exact hg.count
    · dsimp only
      rw [hreads, hpackets]
      exact hg.reads

/-! ### Registration and DBIDs -/

theorem SourceInv.not_waiting (h : SourceInv l x) (hn : ∀ p, x.source.pending.get? tag = some p → ¬ Waits p) :
    tag ∉ x.source.dataReady.map (·.request.tag) ++ x.source.openTags := by
  intro ht
  obtain ⟨p, hp, hw⟩ := h.waiting tag ht
  exact hn p hp hw

theorem SourceInv.register (h : SourceInv l x) {r : BiuWriteSourceRequest} (hfits : r.Fits)
    (hnone : x.source.pending.get? r.tag = none) :
    SourceInv { l with registered := Function.update l.registered r.tag (some r.untailed) }
      { x with source := { x.source with pending := x.source.pending.insert r.tag ⟨r, false, 0, false⟩ } } := by
  have hnew : r.tag ∉ x.source.dataReady.map (·.request.tag) ++ x.source.openTags :=
    h.not_waiting fun p hp => by rw [hnone] at hp; cases hp
  refine h.frame ⟨rfl, rfl, rfl⟩ ⟨rfl, rfl, rfl⟩ (List.Sublist.refl _) (fun tag p hp => ?_) fun tag ht => ?_
  · dsimp only at hp
    rw [OrdMap.get?_insert] at hp
    split at hp
    · rename_i heq
      cases hp
      exact ⟨heq.symm, hfits, by rw [heq]; exact Function.update_self .., nofun⟩
    · rename_i hne
      have hr := h.registered tag p hp
      exact ⟨hr.own, hr.fits, (Function.update_of_ne hne ..).trans hr.log, hr.sent⟩
  · have hne : tag ≠ r.tag := fun heq => hnew (heq ▸ ht)
    exact sameTag_of_eq (OrdMap.get?_insert_ne hne) rfl

/-- The DBID of a tag that has none: the tag waits. -/
theorem SourceInv.enqueue (h : SourceInv l x) {p : PendingRead} (hp : x.source.pending.get? tag = some p)
    (hdbid : p.dbidReceived = false) (readyTick : Nat) :
    SourceInv { l with dbids := l.dbids ++ [p.request.untailed] }
      { x with source := { x.source with
          pending := x.source.pending.insert tag { p with dbidReceived := true }
          ingress := x.source.ingress ++ [(readyTick, tag)] } } := by
  have hnew : tag ∉ x.source.dataReady.map (·.request.tag) ++ x.source.openTags := h.not_waiting fun q hq hw => by
    cases hp.symm.trans hq
    have hyes := hw.dbid
    rw [hdbid] at hyes
    cases hyes
  have hr := h.registered tag p hp
  have hunsent : p.dataSent = false := by
    cases hs : p.dataSent with
    | false => rfl
    | true =>
      have := hr.sent hs
      rw [hdbid] at this
      cases this
  -- first the flag, then the queue
  have hmarked := @SourceInv.frame l l x
    { x.source with pending := x.source.pending.insert tag { p with dbidReceived := true } } h ⟨rfl, rfl, rfl⟩
    ⟨rfl, rfl, rfl⟩ (List.Sublist.refl _)
    (fun tag' q hq => by
      dsimp only at hq
      rw [OrdMap.get?_insert] at hq
      split at hq
      · rename_i heq
        cases hq
        exact ⟨hr.own.trans heq.symm, hr.fits, heq ▸ hr.log, fun _ => rfl⟩
      · exact h.registered tag' q hq)
    (fun tag' ht => sameTag_of_eq (OrdMap.get?_insert_ne fun heq => hnew (heq ▸ ht)) rfl)
  have hopen : openTags { x.source with
      pending := x.source.pending.insert tag { p with dbidReceived := true }
      ingress := x.source.ingress ++ [(readyTick, tag)] } = x.source.openTags ++ [tag] := by
    unfold openTags
    simp
  have hget : (x.source.pending.insert tag { p with dbidReceived := true }).get? tag = some { p with dbidReceived := true } :=
    OrdMap.get?_insert_self
  refine ⟨hmarked.ub, fun tag' q hq => ?_, fun tag' ht => ?_, ?_, ?_, fun q hq => ?_, hmarked.flight, hmarked.positive, ?_⟩
  · have hq := hmarked.registered tag' q hq
    exact ⟨hq.own, hq.fits, hq.log, hq.sent⟩
  · dsimp only at ht
    rw [hopen, ← List.append_assoc] at ht
    rcases List.mem_append.mp ht with ht | ht
    · exact hmarked.waiting tag' ht
    · rw [List.mem_singleton.mp ht]
      exact ⟨_, hget, rfl, hunsent⟩
  · dsimp only
    rw [hopen, ← List.append_assoc, List.nodup_append]
    refine ⟨h.distinct, List.nodup_singleton _, fun a ha b hb => ?_⟩
    rw [List.mem_singleton.mp hb]
    rintro rfl
    exact hnew ha
  · have hbefore := hmarked.dbids
    dsimp only at hbefore ⊢
    rw [hopen, List.map_append, List.map_append, hbefore, List.append_assoc]
    congr 2
    show [some p.request.untailed] = [requestOf _ tag]
    unfold requestOf
    rw [hget]
    rfl
  · obtain ⟨⟨ready, ingress, hi⟩, hpos, hle⟩ := hmarked.packets q hq
    have hi : x.source.ingress = (ready, q.tag) :: ingress := hi
    exact ⟨⟨ready, ingress ++ [(readyTick, tag)], by dsimp only; rw [hi]; rfl⟩, hpos, hle⟩
  · obtain ⟨groups, hg⟩ := hmarked.groups
    refine ⟨groups, ?_, hg.count, hg.covers, hg.reads⟩
    have hlength := congrArg List.length hg.order
    rw [List.length_map, List.length_take] at hlength
    rw [List.take_append_of_le_length (by omega)]
    exact hg.order

/-- The mark of the tag that begins is set. -/
theorem SourceInv.tail (h : SourceInv l x) {p : PendingRead} (hp : x.source.pending.get? tag = some p) (last : Bool) :
    SourceInv l { x with source := { x.source with
      pending := x.source.pending.insert tag { p with request := { p.request with lastInInstruction := last } } } } := by
  have hr := h.registered tag p hp
  refine h.frame ⟨rfl, rfl, rfl⟩ ⟨rfl, rfl, rfl⟩ (List.Sublist.refl _) (fun tag' q hq => ?_) fun tag' ht => ?_
  · dsimp only at hq
    rw [OrdMap.get?_insert] at hq
    split at hq
    · rename_i heq
      cases hq
      exact ⟨hr.own.trans heq.symm, hr.fits, heq ▸ hr.log, hr.sent⟩
    · exact h.registered tag' q hq
  · by_cases heq : tag' = tag
    · subst heq
      exact sameTag_insert hp OrdMap.get?_insert_self rfl rfl rfl fun hw => ⟨hw.dbid, hw.unsent⟩
    · exact sameTag_of_eq (OrdMap.get?_insert_ne heq) rfl

/-! ### Data -/

theorem SourceInv.take (h : SourceInv l x) {data : BiuWriteDataReady} {dataReady : List BiuWriteDataReady} {p : PendingRead}
    (hdata : x.source.dataReady = data :: dataReady) (hp : x.source.pending.get? data.request.tag = some p)
    (hw : Waits p) :
    SourceInv l { x with source := { x.source with
      dataReady
      pending := x.source.pending.insert data.request.tag { p with dataSent := true } } } := by
  have hr := h.registered _ p hp
  have hdistinct := h.distinct
  rw [hdata, List.map_cons, List.cons_append, List.nodup_cons] at hdistinct
  refine h.frame ⟨rfl, rfl, rfl⟩ ⟨rfl, rfl, rfl⟩ (by rw [hdata]; exact List.sublist_cons_self ..) (fun tag' q hq => ?_)
    fun tag' ht => ?_
  · dsimp only at hq
    rw [OrdMap.get?_insert] at hq
    split at hq
    · rename_i heq
      cases hq
      exact ⟨hr.own.trans heq.symm, hr.fits, heq ▸ hr.log, fun _ => hw.dbid⟩
    · exact h.registered tag' q hq
  · exact sameTag_of_eq (OrdMap.get?_insert_ne fun heq => hdistinct.1 (heq ▸ ht)) rfl

theorem SourceInv.release (h : SourceInv l x) {p : PendingRead} (hp : x.source.pending.get? tag = some p)
    (hsent : p.dataSent = true) :
    SourceInv l { x with source := { x.source with pending := x.source.pending.erase tag } } := by
  have hnew : tag ∉ x.source.dataReady.map (·.request.tag) ++ x.source.openTags := h.not_waiting fun q hq hw => by
    cases hp.symm.trans hq
    have hno := hw.unsent
    rw [hsent] at hno
    cases hno
  refine h.frame ⟨rfl, rfl, rfl⟩ ⟨rfl, rfl, rfl⟩ (List.Sublist.refl _) (fun tag' q hq => ?_) fun tag' ht => ?_
  · dsimp only at hq
    rw [OrdMap.get?_erase] at hq
    split at hq
    · cases hq
    · exact h.registered tag' q hq
  · exact sameTag_of_eq (OrdMap.get?_erase_ne fun heq => hnew (heq ▸ ht)) rfl

theorem SourceInv.moved (h : SourceInv l x) {ub : UbReadInterface} (hub : ub.Sound) (hflight : ub.flight = x.ub.flight) :
    SourceInv l { x with ub } :=
  ⟨hub, h.registered, h.waiting, h.distinct, h.dbids, h.packets, by rw [hflight]; exact h.flight, h.positive, h.groups⟩

/-! ### Packets -/

/-- The first tag of the ingress waits in no other place. -/
theorem SourceInv.head_fresh (h : SourceInv l x) {readyTick : Nat} {ingress : List (Nat × Nat)}
    (hingress : x.source.ingress = (readyTick, tag) :: ingress) :
    (∀ e ∈ x.source.egress, e.2 ≠ tag) ∧ ∀ e ∈ ingress, e.2 ≠ tag := by
  have hdistinct := h.distinct
  unfold openTags at hdistinct
  rw [hingress, List.map_cons] at hdistinct
  have hopen := (List.nodup_append.mp hdistinct).2.1
  rw [List.nodup_append, List.nodup_cons] at hopen
  refine ⟨fun e he heq => ?_, fun e he heq => ?_⟩
  · exact hopen.2.2 e.2 (List.mem_map_of_mem he) tag List.mem_cons_self heq
  · have hmem : e.2 ∈ ingress.map (·.2) := List.mem_map_of_mem he
    exact hopen.2.1.1 (heq ▸ hmem)

theorem SourceInv.head_waits (h : SourceInv l x) {readyTick : Nat} {ingress : List (Nat × Nat)}
    (hingress : x.source.ingress = (readyTick, tag) :: ingress) :
    ∃ p, x.source.pending.get? tag = some p ∧ Waits p := by
  refine h.waiting tag (List.mem_append_right _ (List.mem_append_right _ ?_))
  rw [hingress]
  exact List.mem_cons_self

/-- The packets of the first tag begin: nothing is pushed yet. -/
theorem SourceInv.start (h : SourceInv l x) {readyTick : Nat} {ingress : List (Nat × Nat)}
    (hingress : x.source.ingress = (readyTick, tag) :: ingress) (hnone : x.source.packets = none) :
    ∃ s' p, x.source.start tag = some s' ∧ s'.packets = some p ∧ s'.ingress = x.source.ingress ∧
      SourceInv l { x with source := s' } ∧ work { x with source := s' } = x.work := by
  obtain ⟨pending, hp, hw⟩ := h.head_waits hingress
  have hr := h.registered tag pending hp
  obtain ⟨hegressNe, hingressNe⟩ := h.head_fresh hingress
  have hsome : x.source.start tag = some
      { x.source with
        pending := x.source.pending.insert tag { pending with
          remainingResponses := (SourcePackets.new pending.request x.source.bandwidth x.source.gatherOffset).remainingPackets }
        gatherOffset := pending.request.gatherStride.elim x.source.gatherOffset fun stride =>
          if pending.request.lastInInstruction then 0
          else x.source.gatherOffset + stride *
            (SourcePackets.new pending.request x.source.bandwidth x.source.gatherOffset).remainingPackets.toUInt32
        packets := some (SourcePackets.new pending.request x.source.bandwidth x.source.gatherOffset) } := by
    unfold BiuWriteSource.start
    rw [hp, Option.map_some]
    cases pending.request.gatherStride <;> rfl
  obtain ⟨hcovers, hpos⟩ := @SourcePackets.new_covers pending.request x.source.bandwidth x.source.gatherOffset hr.fits
  have htag : (SourcePackets.new pending.request x.source.bandwidth x.source.gatherOffset).tag = tag := by
    unfold SourcePackets.new
    split <;> exact hr.own
  have hcount := SourcePackets.new_remainingPackets (rfl : pending.request.untailed = _) x.source.bandwidth
    x.source.gatherOffset 0
  generalize hpackets : SourcePackets.new pending.request x.source.bandwidth x.source.gatherOffset = p at *
  refine ⟨_, p, hsome, rfl, rfl, ?_, ?_⟩
  · have hget : (x.source.pending.insert tag { pending with remainingResponses := p.remainingPackets }).get? tag =
        some { pending with remainingResponses := p.remainingPackets } := OrdMap.get?_insert_self
    have hother (tag' : Nat) (hne : tag' ≠ tag) :
        (x.source.pending.insert tag { pending with remainingResponses := p.remainingPackets }).get? tag' =
          x.source.pending.get? tag' := OrdMap.get?_insert_ne hne
    refine ⟨h.ub, fun tag' q hq => ?_, fun tag' ht => ?_, h.distinct, ?_, fun q hq => ?_, ?_, fun e he => ?_, ?_⟩
    · by_cases heq : tag' = tag
      · subst heq
        cases hget.symm.trans hq
        exact ⟨hr.own, hr.fits, hr.log, hr.sent⟩
      · exact h.registered tag' q ((hother tag' heq).symm.trans hq)
    · by_cases heq : tag' = tag
      · subst heq
        exact ⟨_, hget, hw.dbid, hw.unsent⟩
      · obtain ⟨q, hq, hqw⟩ := h.waiting tag' ht
        exact ⟨q, (hother tag' heq).trans hq, hqw⟩
    · rw [h.dbids]
      congr 1
      refine List.map_congr_left fun tag' _ => ?_
      unfold requestOf
      dsimp only
      by_cases heq : tag' = tag
      · subst heq
        rw [hget, hp]
        rfl
      · rw [hother tag' heq]
    · obtain rfl : p = q := Option.some.inj hq
      refine ⟨⟨readyTick, ingress, by rw [htag]; exact hingress⟩, hpos, ?_⟩
      unfold BiuWriteSource.expected
      dsimp only
      rw [htag, hget]
      exact Nat.le_refl _
    · have hflight := h.flight
      unfold BiuWriteSource.pushed BiuWriteSource.expected at hflight ⊢
      rw [hnone] at hflight
      dsimp only at hflight ⊢
      rw [hflight, htag, hget]
      simp only [Option.map_some, Option.getD_some, Nat.sub_self, List.replicate_zero, List.append_nil]
      exact List.flatMap_congr fun e he => by rw [hother e.2 (hegressNe e he)]
    · have hpositive := h.positive e he
      unfold BiuWriteSource.expected at hpositive ⊢
      dsimp only
      rw [hother e.2 (hegressNe e he)]
      exact hpositive
    · obtain ⟨groups, hg⟩ := h.groups
      have hlength := hg.count
      rw [hnone] at hlength
      have hlength : groups.length = l.ready.length + x.source.egress.length := hlength
      refine ⟨groups ++ [(pending.request, p.fragments)], ?_, ?_, fun g hmem => ?_, ?_⟩
      · have hat : l.dbids[groups.length]? = some pending.request.untailed := by
          have hmap : (l.dbids.map some)[groups.length]? =
              (l.ready.map some ++ x.source.openTags.map x.source.requestOf)[groups.length]? := by rw [h.dbids]
          unfold openTags at hmap
          rw [List.getElem?_map, hlength, List.getElem?_append_right (by rw [List.length_map]; omega), List.length_map,
            Nat.add_sub_cancel_left, List.map_append, List.getElem?_append_right (by simp), hingress] at hmap
          simp only [List.length_map, Nat.sub_self, List.map_cons, List.getElem?_cons_zero] at hmap
          rw [hlength]
          unfold requestOf at hmap
          rw [hp] at hmap
          obtain ⟨r, hr, hreq⟩ := Option.map_eq_some_iff.mp hmap
          exact hr.trans hreq
        rw [List.map_append, hg.order, List.length_append, List.length_singleton, List.take_add_one, hat]
        rfl
      · rw [List.length_append, List.length_singleton, hlength]
        rfl
      · rcases List.mem_append.mp hmem with hmem | hmem
        · exact hg.covers g hmem
        · rw [List.mem_singleton.mp hmem]
          exact hcovers
      · have hreads := hg.reads
        rw [hnone, Option.map_none, Option.getD_none, List.append_nil] at hreads
        rw [hreads, List.flatMap_append, List.flatMap_singleton]
        rfl
  · unfold work toPush
    dsimp only
    rw [hnone, hingress]
    dsimp only [List.tail_cons]
    have hhead : x.source.packetCount tag = p.remainingPackets := by
      unfold BiuWriteSource.packetCount
      rw [hp]
      exact hcount
    rw [List.map_cons, List.sum_cons, hhead]
    congr 4
    refine List.map_congr_left fun e he => ?_
    unfold BiuWriteSource.packetCount
    dsimp only
    rw [OrdMap.get?_insert_ne (hingressNe e he)]

/-- A packet of the first tag is pushed; with the last one the tag goes on to the egress. -/
theorem SourceInv.push (h : SourceInv l x) {p : SourcePackets} {ub : UbReadInterface} {readyTick : Nat}
    {ingress : List (Nat × Nat)} (hpackets : x.source.packets = some p)
    (hingress : x.source.ingress = (readyTick, tag) :: ingress) (hub : ub.Sound)
    (hflight : ub.flight = x.ub.flight ++ [p.head]) (hload : ub.load = x.ub.load + 4) (next : Nat) :
    SourceInv { l with reads := l.reads ++ [p.head] } ⟨x.source.passed next tag ingress p.pop, ub⟩ ∧
      work ⟨x.source.passed next tag ingress p.pop, ub⟩ < x.work := by
  obtain ⟨⟨r, q, hq⟩, hpos, hle⟩ := h.packets p hpackets
  obtain ⟨-, rfl⟩ : readyTick = r ∧ tag = p.tag := by
    rw [hingress] at hq
    cases hq
    exact ⟨rfl, rfl⟩
  have hbefore := h.flight
  have hpop : p.pop.remainingPackets = p.remainingPackets - 1 := rfl
  have hfragments := SourcePackets.fragments_step (Nat.pos_iff_ne_zero.mp hpos)
  obtain ⟨groups, hg⟩ := h.groups
  have hcount := hg.count
  have hreads := hg.reads
  rw [hpackets] at hcount hreads
  rw [Option.map_some, Option.getD_some, hfragments] at hreads
  have hcount : groups.length = l.ready.length + x.source.egress.length + 1 := hcount
  unfold BiuWriteSource.pushed at hbefore
  rw [hpackets] at hbefore
  dsimp only at hbefore
  unfold BiuWriteSource.passed
  by_cases hlast : p.pop.remainingPackets = 0
  · rw [if_pos (SourcePackets.front_none.mpr hlast)]
    have hopen : openTags { x.source with packets := none, ingress, egress := x.source.egress ++ [(next, p.tag)] } =
        x.source.openTags := by
      unfold openTags
      simp [hingress]
    refine ⟨⟨hub, fun tag q hq => ?_, ?_, ?_, ?_, nofun, ?_, fun e he => ?_, groups, hg.order, ?_, hg.covers, ?_⟩, ?_⟩
    · have hr := h.registered tag q hq
      exact ⟨hr.own, hr.fits, hr.log, hr.sent⟩
    · dsimp only
      rw [hopen]
      exact h.waiting
    · dsimp only
      rw [hopen]
      exact h.distinct
    · dsimp only
      rw [hopen]
      exact h.dbids
    · show ub.flight.map (·.tag) = (x.source.egress ++ [(next, p.tag)]).flatMap _ ++ []
      rw [hflight, List.map_append, hbefore, List.flatMap_append, List.append_nil, List.append_assoc]
      congr 1
      show List.replicate (x.source.expected p.tag - p.remainingPackets) p.tag ++ [p.tag] =
        [(next, p.tag)].flatMap fun e => List.replicate (x.source.expected e.2) e.2
      have hexpected : x.source.expected p.tag = x.source.expected p.tag - p.remainingPackets + 1 := by omega
      rw [List.flatMap_singleton, ← List.replicate_succ', ← hexpected]
    · rcases List.mem_append.mp he with he | he
      · exact h.positive e he
      · rw [List.mem_singleton.mp he]
        show 0 < x.source.expected p.tag
        omega
    · dsimp only
      rw [hcount, List.length_append, List.length_singleton]
      rfl
    · show l.reads ++ [p.head] ++ [] = _
      rw [SourcePackets.fragments_done hlast] at hreads
      rw [List.append_nil]
      exact hreads
    · unfold work toPush
      dsimp only
      rw [hpackets, hload, hingress]
      dsimp only [List.tail_cons]
      show x.ub.load + 4 + 5 * (ingress.map fun e => x.source.packetCount e.2).sum <
        x.ub.load + 5 * (p.remainingPackets + (ingress.map fun e => x.source.packetCount e.2).sum)
      omega
  · rw [if_neg (fun hn => hlast (SourcePackets.front_none.mp hn))]
    refine ⟨⟨hub, fun tag q hq => ?_, h.waiting, h.distinct, h.dbids, fun q hq => ?_, ?_, h.positive, groups, hg.order, ?_,
      hg.covers, ?_⟩, ?_⟩
    · have hr := h.registered tag q hq
      exact ⟨hr.own, hr.fits, hr.log, hr.sent⟩
    · obtain rfl : p.pop = q := Option.some.inj hq
      refine ⟨⟨readyTick, ingress, hingress⟩, Nat.pos_of_ne_zero hlast, ?_⟩
      show p.pop.remainingPackets ≤ x.source.expected p.tag
      omega
    · show ub.flight.map (·.tag) = x.source.egress.flatMap _ ++
        List.replicate (x.source.expected p.tag - p.pop.remainingPackets) p.tag
      rw [hflight, List.map_append, hbefore, List.append_assoc]
      congr 1
      show List.replicate (x.source.expected p.tag - p.remainingPackets) p.tag ++ [p.tag] = _
      rw [← List.replicate_succ']
      congr 1
      omega
    · exact hcount
    · show l.reads ++ [p.head] ++ p.pop.fragments = _
      rw [List.append_assoc]
      exact hreads
    · unfold work toPush
      dsimp only
      rw [hpackets, hload]
      show x.ub.load + 4 + 5 * (p.pop.remainingPackets + (x.source.ingress.tail.map fun e => x.source.packetCount e.2).sum) <
        x.ub.load + 5 * (p.remainingPackets + (x.source.ingress.tail.map fun e => x.source.packetCount e.2).sum)
      omega

/-! ### Completions -/

/-- The oldest fragment in flight is one that the first tag of the egress expects. -/
theorem SourceInv.complete (h : SourceInv l x) {ub : UbReadInterface} {f : UbReadFragment} {readyTick : Nat}
    {egress : List (Nat × Nat)} (hegress : x.source.egress = (readyTick, tag) :: egress) (hub : ub.Sound)
    (hflight : x.ub.flight = f :: ub.flight) (hload : ub.load < x.ub.load) (next : Nat) :
    ∃ p, x.source.pending.get? tag = some p ∧ p.remainingResponses ≠ 0 ∧
      let source := { x.source with
        pending := x.source.pending.insert tag { p with remainingResponses := p.remainingResponses - 1 } }
      (p.remainingResponses - 1 = 0 →
        SourceInv { l with ready := l.ready ++ [p.request.untailed] }
            ⟨{ source with egress, dataReady := x.source.dataReady ++ [⟨next, p.request⟩] }, ub⟩ ∧
          work ⟨{ source with egress, dataReady := x.source.dataReady ++ [⟨next, p.request⟩] }, ub⟩ < x.work) ∧
      (p.remainingResponses - 1 ≠ 0 → SourceInv l ⟨source, ub⟩ ∧ work ⟨source, ub⟩ < x.work) := by
  have hopen : x.source.openTags = tag :: (egress.map (·.2) ++ x.source.ingress.map (·.2)) := by
    unfold openTags
    rw [hegress]
    rfl
  obtain ⟨p, hp, hw⟩ := h.waiting tag (List.mem_append_right _ (by rw [hopen]; exact List.mem_cons_self))
  have hr := h.registered tag p hp
  have hexpected : x.source.expected tag = p.remainingResponses := by
    unfold BiuWriteSource.expected
    rw [hp]
    rfl
  have hpositive := h.positive (readyTick, tag) (by rw [hegress]; exact List.mem_cons_self)
  rw [hexpected] at hpositive
  have hdistinct := h.distinct
  rw [hopen] at hdistinct
  have hrest : ∀ tag' ∈ egress.map (·.2) ++ x.source.ingress.map (·.2), tag' ≠ tag := by
    rintro tag' ht rfl
    exact (List.nodup_cons.mp (List.nodup_append.mp hdistinct).2.1).1 ht
  refine ⟨p, hp, Nat.pos_iff_ne_zero.mp hpositive, ?_⟩
  -- the pending read of the tag, and what it changes
  have hget : (x.source.pending.insert tag { p with remainingResponses := p.remainingResponses - 1 }).get? tag =
      some { p with remainingResponses := p.remainingResponses - 1 } := OrdMap.get?_insert_self
  have hother (tag' : Nat) (hne : tag' ≠ tag) :
      (x.source.pending.insert tag { p with remainingResponses := p.remainingResponses - 1 }).get? tag' =
        x.source.pending.get? tag' := OrdMap.get?_insert_ne hne
  intro source
  have hrequest : source.requestOf = x.source.requestOf := by
    funext tag'
    unfold requestOf
    by_cases heq : tag' = tag
    · subst heq
      rw [hget, hp]
      rfl
    · rw [hother tag' heq]
  have hcounts : source.packetCount = x.source.packetCount := by
    funext tag'
    unfold BiuWriteSource.packetCount
    by_cases heq : tag' = tag
    · subst heq
      rw [hget, hp]
      rfl
    · rw [hother tag' heq]
  have hself : source.expected tag = p.remainingResponses - 1 := by
    unfold BiuWriteSource.expected
    rw [hget]
    rfl
  have hsame (tag' : Nat) (hne : tag' ≠ tag) : source.expected tag' = x.source.expected tag' := by
    unfold BiuWriteSource.expected
    rw [hother tag' hne]
  have hregistered (ready : List BiuWriteSourceRequest) :
      ∀ tag q, source.pending.get? tag = some q → Registered { l with ready } tag q := by
    intro tag' q hq
    by_cases heq : tag' = tag
    · subst heq
      cases hget.symm.trans hq
      exact ⟨hr.own, hr.fits, hr.log, hr.sent⟩
    · have hq := h.registered tag' q ((hother tag' heq).symm.trans hq)
      exact ⟨hq.own, hq.fits, hq.log, hq.sent⟩
  have hwaiting : ∀ tag', (∃ p, x.source.pending.get? tag' = some p ∧ Waits p) →
      ∃ p, source.pending.get? tag' = some p ∧ Waits p := by
    rintro tag' ⟨q, hq, hqw⟩
    by_cases heq : tag' = tag
    · subst heq
      exact ⟨_, hget, hw.dbid, hw.unsent⟩
    · exact ⟨q, (hother tag' heq).trans hq, hqw⟩
  have hpackets : ∀ q, x.source.packets = some q → q.tag ≠ tag ∧
      (∃ readyTick ingress, x.source.ingress = (readyTick, q.tag) :: ingress) ∧ 0 < q.remainingPackets ∧
        q.remainingPackets ≤ source.expected q.tag := by
    intro q hq
    obtain ⟨hi, hpos, hle⟩ := h.packets q hq
    have hne : q.tag ≠ tag := by
      obtain ⟨r, ingress, hi⟩ := hi
      exact hrest q.tag (List.mem_append_right _ (by rw [hi]; exact List.mem_cons_self))
    exact ⟨hne, hi, hpos, by rw [hsame q.tag hne]; exact hle⟩
  have hpushed : source.pushed = x.source.pushed := by
    unfold BiuWriteSource.pushed
    show (match x.source.packets with | none => _ | some q => _) = _
    cases hq : x.source.packets with
    | none => rfl
    | some q => simp only [hsame q.tag (hpackets q hq).1]
  have hflightTags : ub.flight.map (·.tag) = List.replicate (p.remainingResponses - 1) tag ++
      (egress.flatMap (fun e => List.replicate (source.expected e.2) e.2) ++ source.pushed) := by
    have hbefore := h.flight
    obtain ⟨n, hn⟩ := Nat.exists_eq_succ_of_ne_zero (Nat.pos_iff_ne_zero.mp hpositive)
    rw [hflight, hegress, List.flatMap_cons, hexpected, hn, List.replicate_succ, List.map_cons, List.cons_append,
      List.cons_append, List.append_assoc] at hbefore
    rw [(List.cons.inj hbefore).2, hn, hpushed]
    congr 2
    exact List.flatMap_congr fun e he => by
      rw [hsame e.2 (hrest e.2 (List.mem_append_left _ (List.mem_map_of_mem he)))]
  have hwork : ub.load + 5 * source.toPush < x.work := by
    have htoPush : source.toPush = x.source.toPush := by
      unfold toPush
      rw [hcounts]
    rw [htoPush]
    unfold work
    omega
  obtain ⟨groups, hg⟩ := h.groups
  have hcount := hg.count
  have hrestPositive : ∀ e ∈ egress, 0 < source.expected e.2 := by
    intro e he
    rw [hsame e.2 (hrest e.2 (List.mem_append_left _ (List.mem_map_of_mem he)))]
    exact h.positive e (by rw [hegress]; exact List.mem_cons_of_mem _ he)
  refine ⟨fun hzero => ⟨?_, hwork⟩, fun hleft => ⟨?_, hwork⟩⟩
  · have hdata : (x.source.dataReady ++ [BiuWriteDataReady.mk next p.request]).map (·.request.tag) ++
        (egress.map (·.2) ++ x.source.ingress.map (·.2)) =
          x.source.dataReady.map (·.request.tag) ++ x.source.openTags := by
      rw [hopen, List.map_append, List.append_assoc, List.map_cons, hr.own]
      rfl
    refine ⟨hub, hregistered _, fun tag' ht => ?_, ?_, ?_, fun q hq => (hpackets q hq).2, ?_, hrestPositive, groups,
      hg.order, ?_, hg.covers, hg.reads⟩
    · exact hwaiting tag' (h.waiting tag' (by rw [← hdata]; exact ht))
    · exact (hdata ▸ h.distinct :)
    · show l.dbids.map some = (l.ready ++ [p.request.untailed]).map some ++
        (egress.map (·.2) ++ x.source.ingress.map (·.2)).map source.requestOf
      have hown : x.source.requestOf tag = some p.request.untailed := by
        unfold requestOf
        rw [hp]
        rfl
      rw [h.dbids, hopen, List.map_cons, hown, hrequest, List.map_append, List.map_append, List.append_assoc]
      rfl
    · show ub.flight.map (·.tag) = egress.flatMap (fun e => List.replicate (source.expected e.2) e.2) ++ source.pushed
      rw [hflightTags, hzero]
      rfl
    · rw [hegress, List.length_cons] at hcount
      dsimp only
      rw [List.length_append, List.length_singleton, hcount]
      show _ + (_ + 1) + (if x.source.packets.isSome then 1 else 0) = _ + 1 + _ + (if x.source.packets.isSome then 1 else 0)
      omega
  · refine ⟨hub, hregistered _, fun tag' ht => hwaiting tag' (h.waiting tag' ht), h.distinct, ?_,
      fun q hq => (hpackets q hq).2, ?_, fun e he => ?_, groups, hg.order, hcount, hg.covers, hg.reads⟩
    · rw [hrequest]
      exact h.dbids
    · show ub.flight.map (·.tag) = x.source.egress.flatMap (fun e => List.replicate (source.expected e.2) e.2) ++
        source.pushed
      rw [hflightTags, hegress, List.flatMap_cons, hself, List.append_assoc]
    · have he : e ∈ x.source.egress := he
      rw [hegress] at he
      rcases List.mem_cons.mp he with rfl | he
      · rw [hself]
        omega
      · exact hrestPositive e he

end Steps

/-! ## Calls -/

namespace BiuWriteSourceEvent

def packet : BiuWriteSourceEvent → Option UbReadFragment
  | readPacket fragment => some fragment
  | readComplete _ _ | dataReady _ => none

def data : BiuWriteSourceEvent → Option BiuWriteSourceRequest
  | dataReady data => some data.request.untailed
  | readPacket _ | readComplete _ _ => none

end BiuWriteSourceEvent

def SourceLog.seen (l : SourceLog) (events : List BiuWriteSourceEvent) : SourceLog :=
  { l with
    reads := l.reads ++ events.filterMap BiuWriteSourceEvent.packet
    ready := l.ready ++ events.filterMap BiuWriteSourceEvent.data }

@[simp] theorem SourceLog.seen_nil (l : SourceLog) : l.seen [] = l := by simp [seen]

theorem SourceLog.seen_append (l : SourceLog) (a b : List BiuWriteSourceEvent) : l.seen (a ++ b) = (l.seen a).seen b := by
  simp [seen]

namespace BiuWriteReader

open BiuWriteSource

variable {l : SourceLog} {x x' : BiuWriteReader} {tag tick : Nat} {events : List BiuWriteSourceEvent}

/-- After a packet was pushed the tick is the last one. -/
theorem readPacket_keeps (h : SourceInv l x) (tick : Nat) :
    (∃ e x', readPacket tick x = (Outcome.fail e, x') ∧ SourceInv l x' ∧ x'.work ≤ x.work) ∨
      ∃ events x', readPacket tick x = (.ok events, x') ∧ SourceInv (l.seen events) x' ∧
        x'.work + events.length ≤ x.work ∧ (events ≠ [] → x'.ub.observedTick = some tick ∧ tick + 1 < u64) := by
  have hquiet : ∃ events x', (Except.ok [], x) = ((Except.ok events : Outcome BiuWriteSourceError _), x') ∧
      SourceInv (l.seen events) x' ∧ x'.work + events.length ≤ x.work ∧
        (events ≠ [] → x'.ub.observedTick = some tick ∧ tick + 1 < u64) :=
    ⟨[], x, rfl, by rw [SourceLog.seen_nil]; exact h, Nat.le_refl _, fun hn => absurd rfl hn⟩
  unfold readPacket
  cases hingress : x.source.ingress with
  | nil => exact .inr hquiet
  | cons head ingress =>
    obtain ⟨readyTick, tag⟩ := head
    dsimp only
    split
    · exact .inr hquiet
    · split
      · exact .inl ⟨_, _, rfl, h, Nat.le_refl _⟩
      · rename_i next hnext
        have hbound := (checkedAdd_eq_some.mp hnext).1
        -- the packets of the tag, begun now or before
        obtain ⟨source, p, hsource, hp, hi, hs, hw⟩ : ∃ source p,
            (if x.source.packets.isNone then x.source.start tag else some x.source) = some source ∧
              source.packets = some p ∧ source.ingress = (readyTick, tag) :: ingress ∧
              SourceInv l { x with source } ∧ work { x with source } = x.work := by
          cases hpackets : x.source.packets with
          | none =>
            obtain ⟨s', p, hstart, hp, hi, hs, hw⟩ := h.start hingress hpackets
            exact ⟨s', p, hstart, hp, hi.trans hingress, hs, hw⟩
          | some p => exact ⟨x.source, p, rfl, hpackets, hingress, h, rfl⟩
        rw [hsource]
        dsimp only
        rw [hp]
        dsimp only
        obtain ⟨-, hpos, -⟩ := hs.packets p hp
        rw [SourcePackets.front_eq (Nat.pos_iff_ne_zero.mp hpos)]
        dsimp only
        rcases hs.ub.push (f := p.head) rfl tick with ⟨e, he⟩ | hfull | ⟨ub, hok, hub, hflight, hload, hobserved⟩
        · have he : UbReadInterface.push tick p.head x.ub = (.error e, x.ub) := he
          rw [he]
          exact .inl ⟨_, _, rfl, hs, Nat.le_of_eq hw⟩
        · have hfull : UbReadInterface.push tick p.head x.ub = (.ok false, x.ub) := hfull
          rw [hfull]
          refine .inr ⟨[], _, rfl, ?_, Nat.le_of_eq hw, fun hn => absurd rfl hn⟩
          rw [SourceLog.seen_nil]
          exact hs
        · have hok : UbReadInterface.push tick p.head x.ub = (.ok true, ub) := hok
          rw [hok]
          obtain ⟨hpushed, hless⟩ := hs.push hp hi hub hflight hload next
          rw [hw] at hless
          refine .inr ⟨[.readPacket p.head], _, rfl, ?_, hless, fun _ => ⟨hobserved, hbound⟩⟩
          have hseen : l.seen [.readPacket p.head] = { l with reads := l.reads ++ [p.head] } := by
            simp [SourceLog.seen, BiuWriteSourceEvent.packet, BiuWriteSourceEvent.data]
          rw [hseen]
          exact hpushed

theorem readComplete_keeps (h : SourceInv l x) (tick : Nat) :
    (∃ e, readComplete tick x = (Outcome.fail e, x) ∧ ¬ (x.ub.observedTick = some tick ∧ tick + 1 < u64)) ∨
      ∃ events x', readComplete tick x = (.ok events, x') ∧ SourceInv (l.seen events) x' ∧ x'.work ≤ x.work ∧
        (events ≠ [] → x'.work < x.work) := by
  have hquiet : ∃ events x', (Except.ok [], x) = ((Except.ok events : Outcome BiuWriteSourceError _), x') ∧
      SourceInv (l.seen events) x' ∧ x'.work ≤ x.work ∧ (events ≠ [] → x'.work < x.work) :=
    ⟨[], x, rfl, by rw [SourceLog.seen_nil]; exact h, Nat.le_refl _, fun hn => absurd rfl hn⟩
  unfold readComplete
  cases hegress : x.source.egress with
  | nil => exact .inr hquiet
  | cons head egress =>
    obtain ⟨readyTick, tag⟩ := head
    dsimp only
    split
    · exact .inr hquiet
    · split
      · rename_i hnext
        have hover := checkedAdd_eq_none.mp hnext
        exact .inl ⟨_, rfl, fun hn => by omega⟩
      · rename_i next _
        rcases h.ub.takeCompletion tick tag with ⟨e, he, hreversed⟩ | ⟨ub, hok, hub, hflight, hload⟩ |
          ⟨a, ub, f, hok, hub, hflight, -, hload⟩
        · rw [he]
          refine .inl ⟨_, rfl, fun hn => hreversed ?_⟩
          unfold UbReadInterface.timeReversed
          rw [hn.1, Option.filter_some, if_neg (by simp)]
          rfl
        · rw [hok]
          refine .inr ⟨[], _, rfl, ?_, ?_, fun hn => absurd rfl hn⟩
          · rw [SourceLog.seen_nil]
            exact h.moved hub hflight
          · unfold work
            rw [hload]
        · rw [hok]
          obtain ⟨p, hp, hresponses, hlast, hmore⟩ := h.complete hegress hub hflight hload next
          dsimp only
          rw [hp]
          dsimp only
          rw [if_neg hresponses]
          by_cases hzero : p.remainingResponses - 1 = 0
          · rw [if_pos hzero]
            obtain ⟨hinv, hless⟩ := hlast hzero
            refine .inr ⟨_, _, rfl, ?_, Nat.le_of_lt hless, fun _ => hless⟩
            simpa [SourceLog.seen, List.filterMap_cons, BiuWriteSourceEvent.packet, BiuWriteSourceEvent.data] using hinv
          · rw [if_neg hzero]
            obtain ⟨hinv, hless⟩ := hmore hzero
            refine .inr ⟨_, _, rfl, ?_, Nat.le_of_lt hless, fun _ => hless⟩
            simpa [SourceLog.seen, List.filterMap_cons, BiuWriteSourceEvent.packet, BiuWriteSourceEvent.data] using hinv

/-- A failed `advance` has pushed nothing. -/
theorem advance_keeps (h : SourceInv l x) (tick : Nat) :
    (∃ e x', advance tick x = (Outcome.fail e, x') ∧ SourceInv l x' ∧ x'.work ≤ x.work) ∨
      ∃ events x', advance tick x = (.ok events, x') ∧ SourceInv (l.seen events) x' ∧ x'.work ≤ x.work ∧
        (events ≠ [] → x'.work < x.work) := by
  unfold advance Call.bind
  rcases readPacket_keeps h tick with ⟨e, x', hfail, hinv, hwork⟩ | ⟨events, x', hok, hinv, hwork, hobserved⟩
  · rw [hfail]
    exact .inl ⟨e, x', rfl, hinv, hwork⟩
  · rw [hok]
    dsimp only
    rcases readComplete_keeps hinv tick with ⟨e, hfail, hlate⟩ | ⟨events', x'', hok', hinv', hwork', hless⟩
    · rw [hfail]
      have hnone : events = [] := by
        by_contra hn
        exact hlate (hobserved hn)
      subst hnone
      rw [SourceLog.seen_nil] at hinv
      exact .inl ⟨e, x', rfl, hinv, by simpa using hwork⟩
    · rw [hok']
      refine .inr ⟨events ++ events', x'', rfl, ?_, by omega, fun hn => ?_⟩
      · rw [SourceLog.seen_append]
        exact hinv'
      · by_cases hnone : events' = []
        · have hpos : 0 < events.length := List.length_pos_iff.mpr fun he => hn (by rw [he, hnone]; rfl)
          omega
        · have := hless hnone
          omega

theorem takeDataReady_keeps (h : SourceInv l x) (tick : Nat) :
    ∃ data x', takeDataReady tick x = (.ok data, x') ∧ SourceInv l x' := by
  unfold takeDataReady
  split
  · exact ⟨none, x, rfl, h⟩
  · rename_i data dataReady hpop
    obtain ⟨hdata, -⟩ := popFrontIf_eq_some.mp hpop
    obtain ⟨p, hp, hw⟩ := h.waiting data.request.tag (by rw [hdata]; exact List.mem_cons_self)
    rw [hp]
    exact ⟨_, _, rfl, h.take hdata hp hw⟩

theorem releaseResponse_keeps (h : SourceInv l x) {p : PendingRead} (hp : x.source.pending.get? tag = some p)
    (hsent : p.dataSent = true) : ∃ x', releaseResponse tag x = (.ok (), x') ∧ SourceInv l x' := by
  unfold releaseResponse
  rw [hp]
  dsimp only
  rw [if_pos hsent]
  exact ⟨_, rfl, h.release hp hsent⟩

theorem tail_keeps (h : SourceInv l x) (tick : Nat) (last : Bool) :
    ∃ x', tail tick last x = (.ok .done, x') ∧ SourceInv l x' := by
  unfold tail
  cases hstart : x.source.startingSource tick with
  | none => exact ⟨x, rfl, h⟩
  | some tag =>
    dsimp only
    obtain ⟨e, he, rfl⟩ := Option.map_eq_some_iff.mp hstart
    obtain ⟨he, -⟩ := Option.filter_eq_some_iff.mp he
    obtain ⟨ingress, hingress⟩ := List.head?_eq_some_iff.mp he
    obtain ⟨p, hp, -⟩ := h.head_waits hingress
    unfold setSourceTail
    rw [hp]
    exact ⟨_, rfl, h.tail hp last⟩

/-- What the callers see to: requests fit, a tag's response is released after its data were taken, and the memory
answers the oldest request it has. -/
def Stated : BiuWriteSourceCall → BiuWriteReader → Prop
  | .register request, _ => request.Fits
  | .releaseResponse tag, x => ∃ p, x.source.pending.get? tag = some p ∧ p.dataSent = true
  | .receiveResponse _ id, x => ∀ r, x.ub.delivered.get? id = some r → x.ub.delivered.first? = some (id, r)
  | _, _ => True

end BiuWriteReader

open BiuWriteReader

abbrev SourceStep := BiuWriteSourceCall × Outcome BiuWriteSourceError BiuWriteSourceReply

/-- What was done, after a call. -/
def SourceLog.after (l : SourceLog) : SourceStep → SourceLog
  | (.register request, .ok _) =>
    { l with registered := Function.update l.registered request.tag (some request.untailed) }
  | (.receiveDbid _ tag, .ok _) => { l with dbids := l.dbids ++ (l.registered tag).toList }
  | (.advance _, .ok (.events events)) => l.seen events
  | _ => l

def SourceLog.of (t : List SourceStep) : SourceLog := t.foldl SourceLog.after ⟨fun _ => none, [], [], []⟩

theorem SourceLog.of_append (t r : List SourceStep) : SourceLog.of (t ++ r) = r.foldl SourceLog.after (SourceLog.of t) :=
  List.foldl_append

theorem SourceLog.after_error (l : SourceLog) (c : BiuWriteSourceCall) (e : Fault BiuWriteSourceError) :
    l.after (c, .error e) = l := by
  cases c <;> rfl

/-- Only a DBID adds to the DBIDs. -/
theorem SourceLog.after_dbids (l : SourceLog) {c : BiuWriteSourceCall} (hc : ∀ tick tag, c ≠ .receiveDbid tick tag)
    (r : Outcome BiuWriteSourceError BiuWriteSourceReply) : (l.after (c, r)).dbids = l.dbids := by
  cases c with
  | receiveDbid tick tag => exact absurd rfl (hc tick tag)
  | advance tick =>
    rcases r with e | r
    · rfl
    · cases r <;> rfl
  | _ => cases r <;> rfl

namespace BiuWriteReader

variable {l : SourceLog} {x x' : BiuWriteReader} {tag tick : Nat}

theorem onUb_keeps {α : Type} {f : α → BiuWriteSourceReply} {c : UbReadInterface.CallOf α} (h : SourceInv l x)
    (hc : (∃ e, c x.ub = (.error e, x.ub)) ∨ ∃ r u', c x.ub = (.ok r, u') ∧ u'.Sound ∧ u'.flight = x.ub.flight) :
    (onUb f c x).1 ≠ .error .panicked ∧ SourceInv l (onUb f c x).2 := by
  unfold onUb
  rcases hc with ⟨e, he⟩ | ⟨r, u', hok, hu, hflight⟩
  · rw [he]
    exact ⟨nofun, h⟩
  · rw [hok]
    exact ⟨nofun, h.moved hu hflight⟩

theorem exec_keeps (h : SourceInv l x) (c : BiuWriteSourceCall) (hs : Stated c x) :
    (exec c x).1 ≠ .error .panicked ∧ SourceInv (l.after (c, (exec c x).1)) (exec c x).2 := by
  have hrejected (e : BiuWriteSourceError) (x' : BiuWriteReader) (he : exec c x = (Outcome.fail e, x'))
      (hx : SourceInv l x') : (exec c x).1 ≠ .error .panicked ∧ SourceInv (l.after (c, (exec c x).1)) (exec c x).2 := by
    rw [he]
    exact ⟨nofun, by rw [show l.after (c, Outcome.fail e) = l from l.after_error c _]; exact hx⟩
  cases c with
  | register request =>
    by_cases hc : x.source.pending.contains request.tag = true
    · refine hrejected (.duplicateTag request.tag) x ?_ h
      show onSource (x.source.register request) x = _
      unfold BiuWriteSource.register
      rw [if_pos hc]
      rfl
    · have hnone : x.source.pending.get? request.tag = none := OrdMap.contains_eq_false.mp (by simpa using hc)
      have hexec : exec (.register request) x = (.ok .done, { x with source := { x.source with
          pending := x.source.pending.insert request.tag ⟨request, false, 0, false⟩ } }) := by
        show onSource (x.source.register request) x = _
        unfold BiuWriteSource.register
        rw [if_neg hc]
        rfl
      rw [hexec]
      exact ⟨nofun, h.register hs hnone⟩
  | receiveDbid tick tag =>
    have hexec : exec (.receiveDbid tick tag) x = onSource (x.source.receiveDbid tick tag) x := rfl
    unfold BiuWriteSource.receiveDbid at hexec
    cases hp : (x.source.pending.get? tag).filter (!·.dbidReceived) with
    | none =>
      rw [hp] at hexec
      exact hrejected _ x hexec h
    | some p =>
      obtain ⟨hget, hdbid⟩ := Option.filter_eq_some_iff.mp hp
      rw [hp] at hexec
      dsimp only at hexec
      cases hadd : checkedAdd tick 1 with
      | none =>
        rw [hadd] at hexec
        exact hrejected _ x hexec h
      | some readyTick =>
        rw [hadd] at hexec
        rw [hexec]
        refine ⟨nofun, ?_⟩
        have hlog : l.after (.receiveDbid tick tag, .ok .done) = { l with dbids := l.dbids ++ [p.request.untailed] } := by
          show { l with dbids := l.dbids ++ (l.registered tag).toList } = _
          rw [(h.registered tag p hget).log]
          rfl
        have hkept := h.enqueue hget (by simpa using hdbid) readyTick
        rw [← hlog] at hkept
        exact hkept
  | setSourceTail tick last =>
    obtain ⟨x', hok, hx'⟩ := tail_keeps h tick last
    have hexec : exec (.setSourceTail tick last) x = (.ok .done, x') := hok
    rw [hexec]
    exact ⟨nofun, hx'⟩
  | advance tick =>
    rcases advance_keeps h tick with ⟨e, x', hfail, hx', -⟩ | ⟨events, x', hok, hx', -⟩
    · exact hrejected e x' (congrArg (reply BiuWriteSourceReply.events) hfail) hx'
    · have hexec : exec (.advance tick) x = (.ok (.events events), x') := congrArg (reply BiuWriteSourceReply.events) hok
      rw [hexec]
      exact ⟨nofun, hx'⟩
  | takeDataReady tick =>
    obtain ⟨data, x', hok, hx'⟩ := takeDataReady_keeps h tick
    have hexec : exec (.takeDataReady tick) x = (.ok (.data data), x') := congrArg (reply BiuWriteSourceReply.data) hok
    rw [hexec]
    exact ⟨nofun, hx'⟩
  | releaseResponse tag =>
    obtain ⟨p, hp, hsent⟩ := hs
    obtain ⟨x', hok, hx'⟩ := releaseResponse_keeps h hp hsent
    have hexec : exec (.releaseResponse tag) x = (.ok .done, x') :=
      congrArg (reply fun _ => BiuWriteSourceReply.done) hok
    rw [hexec]
    exact ⟨nofun, hx'⟩
  | send tick =>
    refine onUb_keeps h ?_
    rcases h.ub.send tick with he | ⟨r, u', hok, hu, hflight, -⟩
    · exact .inl he
    · exact .inr ⟨r, u', hok, hu, hflight⟩
  | takeRequest tick =>
    refine onUb_keeps h ?_
    rcases h.ub.takeRequest tick with he | ⟨r, u', hok, hu, hflight, -⟩
    · exact .inl he
    · exact .inr ⟨r, u', hok, hu, hflight⟩
  | receiveResponse tick id =>
    refine onUb_keeps h ?_
    rcases h.ub.receiveResponse tick id hs with he | ⟨r, u', hok, hu, hflight, -⟩
    · exact .inl he
    · exact .inr ⟨r, u', hok, hu, hflight⟩

end BiuWriteReader

end AscendEmulator.C220.Mte
