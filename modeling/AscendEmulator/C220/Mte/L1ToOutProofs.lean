/-
  AscendEmulator.C220.Mte.L1ToOutProofs — the reads of a copy from L1 copy what its segments do.

  A place of the plan is a byte of a transaction of a group. Its next read leads to the next place; a walk over the
  reads of a transaction, over the transactions of a group and over the groups is three nested loops, each of which
  tiles what it is over (`Takes.steps`).

  - `reads_exact`: the walk ends, its transactions are whole and within lines, and they copy what the segments copy.
-/

import AscendEmulator.C220.Mte.L1ToOut
import AscendEmulator.C220.Mte.DmaUopsProofs
import AscendEmulator.Lib.Cuts

namespace AscendEmulator.C220.Mte

open Lib Cuts

namespace L1OutputReadPlan

variable {p : L1OutputReadPlan} {i o x : Nat}

/-- The destination of byte `o` of group `i`. -/
def destinationOf (p : L1OutputReadPlan) (i o : Nat) : UInt64 :=
  p.transfer.destinationAddress + (i * p.destinationStride).toUInt64 + o.toUInt64

/-- The bytes of the transaction at byte `o` of group `i`. -/
def cut (p : L1OutputReadPlan) (i o : Nat) : Nat :=
  (p.mode.splitBytes (p.destinationOf i o) (p.groupBytes - o).toUInt32).toNat

/-- The bytes of the read at byte `x` of a transaction. -/
def chunk (p : L1OutputReadPlan) (i o x : Nat) : Nat :=
  if p.route = L1OutputRoute.gather then 64 else min (p.cut i o - x) p.bandwidth

/-- The source offset of the row at byte `n` of the gather route; the other routes have none. -/
def gatherOffset (p : L1OutputReadPlan) (n : Nat) : Nat :=
  if p.route = L1OutputRoute.gather then n / 64 * p.sourceStride % u32 else 0

/-- The plan at byte `x` of the transaction at byte `o` of group `i`. -/
def place (p : L1OutputReadPlan) (i o x : Nat) : L1OutputReadPlan :=
  { p with
    group := i
    offset := o
    transactionBytes := if x = 0 then 0 else p.cut i o
    readOffset := x
    gatherSourceOffset := p.gatherOffset (i * p.groupBytes + o + x) }

/-- Where the byte `q` of group `i` is read from. -/
def sourceOf (p : L1OutputReadPlan) (i q : Nat) : UInt64 :=
  p.transfer.sourceAddress + (if p.route = L1OutputRoute.gather then q / 64 * p.sourceStride % u32 + q % 64
    else i * p.sourceStride % u32 + q).toUInt64

/-- What `new` makes of a transfer whose bytes fit 32 bits. -/
structure Planned (p : L1OutputReadPlan) : Prop where
  bandwidth : 0 < p.bandwidth
  bytes : p.groupBytes < u32
  rows : p.route = L1OutputRoute.gather → p.groups ≤ 1 ∧ p.groupBytes % 64 = 0 ∧
    p.transfer.destinationAddress.toNat % 64 = 0

/-- Offsets of the gather route are whole rows. -/
def Row (p : L1OutputReadPlan) (o : Nat) : Prop := p.route = L1OutputRoute.gather → o % 64 = 0

theorem remaining_toNat (h : p.Planned) (o : Nat) : (p.groupBytes - o).toUInt32.toNat = p.groupBytes - o := by
  have hbytes := h.bytes
  unfold u32 at hbytes
  exact Nat.mod_eq_of_lt (by omega)

theorem cut_pos (h : p.Planned) (ho : o < p.groupBytes) : 0 < p.cut i o :=
  DmaUopMode.splitBytes_pos _ _ (by rw [remaining_toNat h]; omega)

theorem cut_le (h : p.Planned) (o : Nat) : p.cut i o ≤ p.groupBytes - o :=
  (DmaUopMode.splitBytes_le _ _).trans (remaining_toNat h o).le

/-- In the gather route transactions are whole rows: their destinations and the bytes left are. -/
theorem cut_row (h : p.Planned) (hi : i < p.groups) (ho : p.Row o) : p.Row (p.cut i o) := by
  intro hg
  obtain ⟨hgroups, hbytes, hdest⟩ := h.rows hg
  obtain rfl : i = 0 := by omega
  have hrow := ho hg
  have hrem := remaining_toNat h o
  have haddress : (p.destinationOf 0 o).toNat % 64 = 0 := by
    unfold destinationOf
    rw [Nat.zero_mul, UInt64.toNat_add, UInt64.toNat_add]
    have ho64 : o.toUInt64.toNat % 64 = 0 := by
      show o % 2 ^ 64 % 64 = 0
      omega
    have hzero : (Nat.toUInt64 0).toNat = 0 := rfl
    omega
  unfold cut
  rcases DmaUopMode.splitBytes_cases p.mode (p.destinationOf 0 o) (p.groupBytes - o).toUInt32 with
    h' | h' | h' | ⟨-, h'⟩ | h'
  · rw [h'.2, hrem]
    omega
  · rw [h'.2.2.2]
  · rw [h'.2.2.2]
  · rw [h', hrem]
    omega
  · rw [h'.2.2, hrem]
    omega

theorem chunk_bounds (h : p.Planned) (hi : i < p.groups) (ho : p.Row o) (hrow : p.Row x) (hx : x < p.cut i o) :
    0 < p.chunk i o x ∧ x + p.chunk i o x ≤ p.cut i o ∧ p.Row (x + p.chunk i o x) := by
  have hb := h.bandwidth
  unfold chunk
  split
  · rename_i hg
    have hcut := cut_row h hi ho hg
    have := hrow hg
    exact ⟨by omega, by omega, fun _ => by omega⟩
  · rename_i hg
    exact ⟨by omega, by omega, fun h => absurd h hg⟩

/-- The read at a place. -/
def readOf (p : L1OutputReadPlan) (i o x : Nat) : L1OutputRead where
  sourceAddress := p.sourceOf i (o + x)
  bytes := p.chunk i o x
  destinationAddress := p.destinationOf i o
  destinationBytes := p.cut i o
  lastInTransaction := x + p.chunk i o x = p.cut i o
  lastInInstruction := decide (x + p.chunk i o x = p.cut i o) && decide (o + p.cut i o = p.groupBytes) &&
    decide (i + 1 = p.groups)

theorem gatherOffset_next (p : L1OutputReadPlan) (i o x n : Nat) :
    (if p.route = L1OutputRoute.gather then (p.gatherOffset n + p.sourceStride) % u32 else p.gatherOffset n) =
      p.gatherOffset (n + p.chunk i o x) := by
  unfold gatherOffset chunk
  split
  · rw [Nat.add_div_right n (by decide), Nat.succ_mul, Nat.mod_add_mod]
  · rfl

/-- The place after a transaction. -/
def after (p : L1OutputReadPlan) (i o : Nat) : L1OutputReadPlan :=
  if o < p.groupBytes then p.place i o 0 else p.place (i + 1) 0 0

/-- The place after `x` bytes of a transaction. -/
def within (p : L1OutputReadPlan) (i o x : Nat) : L1OutputReadPlan :=
  if x < p.cut i o then p.place i o x else p.after i (o + p.cut i o)

theorem next_place (h : p.Planned) (hi : i < p.groups) (ho : o < p.groupBytes) (hrow : p.Row o) (hx : x < p.cut i o)
    (hxrow : p.Row x) : (p.place i o x).next = some (p.readOf i o x, p.within i o (x + p.chunk i o x)) := by
  have hcut := cut_le (i := i) h o
  obtain ⟨hpos, hle, -⟩ := chunk_bounds h hi hrow hxrow hx
  have htransaction : (p.place i o x).transaction = p.cut i o := by
    unfold transaction
    by_cases hzero : x = 0
    · rw [if_pos (by simp [place, hzero])]
      rfl
    · have hne : (p.place i o x).transactionBytes ≠ 0 := by
        simp only [place, hzero, if_false]
        omega
      rw [if_neg hne]
      simp [place, hzero]
  have hbytes : (p.place i o x).readBytes = p.chunk i o x := by
    unfold readBytes chunk
    rw [htransaction]
    rfl
  have hsource : (p.place i o x).transfer.sourceAddress + (p.place i o x).sourceOffset.toUInt64 =
      p.sourceOf i (o + x) := by
    show p.transfer.sourceAddress + (p.place i o x).sourceOffset.toUInt64 = _
    unfold sourceOf sourceOffset
    by_cases hg : p.route = L1OutputRoute.gather
    · obtain ⟨hgroups, -, -⟩ := h.rows hg
      obtain rfl : i = 0 := by omega
      have hzero : (o + x) % 64 = 0 := by
        have := hrow hg
        have := hxrow hg
        omega
      simp only [place, gatherOffset, hg, if_true, Nat.zero_mul, Nat.zero_add, hzero, Nat.add_zero]
    · simp only [place, hg, if_false, Nat.add_assoc]
  have hlast : (p.place i o x).lastInTransaction = decide (x + p.chunk i o x = p.cut i o) := by
    unfold lastInTransaction
    rw [htransaction, hbytes]
    rfl
  have hread : (p.place i o x).read = p.readOf i o x := by
    unfold read readOf
    rw [htransaction, hbytes, hsource, hlast]
    rfl
  have hadvance : (p.place i o x).advance = p.within i o (x + p.chunk i o x) := by
    have hgather := p.gatherOffset_next i o x (i * p.groupBytes + o + x)
    unfold within
    by_cases hend : x + p.chunk i o x = p.cut i o
    · have hnot : ¬ x + p.chunk i o x < p.cut i o := by omega
      rw [if_neg hnot]
      unfold after
      by_cases hgroup : o + p.cut i o = p.groupBytes
      · have hlt : ¬ o + p.cut i o < p.groupBytes := by omega
        have hrest : i * p.groupBytes + o + x + p.chunk i o x = (i + 1) * p.groupBytes + 0 + 0 := by
          rw [Nat.succ_mul]
          omega
        rw [if_neg hlt]
        simp only [advance, hlast, htransaction, hend, decide_true, if_true]
        simp only [place, hgroup, if_true, ← hrest]
        exact congrArg _ hgather
      · have hlt : o + p.cut i o < p.groupBytes := by omega
        have hrest : i * p.groupBytes + o + x + p.chunk i o x = i * p.groupBytes + (o + p.cut i o) + 0 := by omega
        rw [if_pos hlt]
        simp only [advance, hlast, htransaction, hend, decide_true, if_true]
        simp only [place, hgroup, if_true, if_false, ← hrest]
        exact congrArg _ hgather
    · have hlt : x + p.chunk i o x < p.cut i o := by omega
      have hne : x + p.chunk i o x ≠ 0 := by omega
      rw [if_pos hlt]
      simp only [advance, hlast, htransaction, hbytes, hend, decide_false, Bool.false_eq_true, if_false]
      simp only [place, hne, if_false, ← Nat.add_assoc]
      exact congrArg _ hgather
  have hmore : ¬ ((p.place i o x).groups ≤ (p.place i o x).group ∨ (p.place i o x).groupBytes = 0) := by
    rintro (hge | hzero)
    · exact absurd hge (Nat.not_le.mpr hi)
    · exact absurd hzero (by show p.groupBytes ≠ 0; omega)
  unfold next
  rw [if_neg hmore, hread, hadvance]

/-! ## Walks -/

/-- The offsets that tile a transaction. -/
def Chunks (p : L1OutputReadPlan) (i o : Nat) (xs : List Nat) : Prop :=
  Tiles id (p.chunk i o) 0 xs (p.cut i o) ∧ ∀ x ∈ xs, p.Row x

/-- The offsets that tile a group. -/
def Transactions (p : L1OutputReadPlan) (i : Nat) (os : List Nat) : Prop :=
  Tiles id (p.cut i) 0 os p.groupBytes ∧ ∀ o ∈ os, p.Row o

theorem row_zero (p : L1OutputReadPlan) : p.Row 0 := fun _ => rfl

theorem transaction_takes (h : p.Planned) (hi : i < p.groups) (ho : o < p.groupBytes) (hrow : p.Row o) :
    ∃ xs, Takes next (p.place i o 0) (xs.map (p.readOf i o)) (p.after i (o + p.cut i o)) ∧ p.Chunks i o xs := by
  have hpos := cut_pos (i := i) h ho
  have hbounds (x : Nat) (hx : x < p.cut i o) (hxrow : p.Row x) := chunk_bounds h hi hrow hxrow hx
  have hstep (x : Nat) (hx : x < p.cut i o) (hxrow : p.Row x) :
      Takes next (p.within i o x) [p.readOf i o x] (p.within i o (x + p.chunk i o x)) := by
    rw [show p.within i o x = p.place i o x from if_pos hx]
    exact .cons (next_place h hi ho hrow hx hxrow) (.nil _)
  obtain ⟨xs, ht, htiles, hxs⟩ := Takes.steps (l := fun x => [p.readOf i o x])
    (fun x hx hxrow => ⟨(hbounds x hx hxrow).1, (hbounds x hx hxrow).2.1⟩)
    (fun x hxrow hlt => (hbounds x (by omega) hxrow).2.2) hstep hpos.le p.row_zero
  refine ⟨xs, ?_, htiles, hxs⟩
  unfold within at ht
  rw [if_pos hpos, if_neg (Nat.lt_irrefl _)] at ht
  rw [List.map_eq_flatMap]
  exact ht

theorem row_cut (h : p.Planned) (hi : i < p.groups) (hrow : p.Row o) : p.Row (o + p.cut i o) := by
  intro hg
  have := cut_row h hi hrow hg
  have := hrow hg
  omega

theorem group_takes (h : p.Planned) (hi : i < p.groups) (hbytes : 0 < p.groupBytes) :
    ∃ (os : List Nat) (xs : Nat → List Nat), Takes next (p.place i 0 0) (os.flatMap fun o => (xs o).map (p.readOf i o))
      (p.place (i + 1) 0 0) ∧ p.Transactions i os ∧ ∀ o ∈ os, p.Chunks i o (xs o) := by
  choose! xs hxs using fun o (ho : o < p.groupBytes) (hrow : p.Row o) => transaction_takes h hi ho hrow
  have hstep (o : Nat) (ho : o < p.groupBytes) (hrow : p.Row o) :
      Takes next (p.after i o) ((xs o).map (p.readOf i o)) (p.after i (o + p.cut i o)) := by
    rw [show p.after i o = p.place i o 0 from if_pos ho]
    exact (hxs o ho hrow).1
  obtain ⟨os, ht, htiles, hos⟩ := Takes.steps (l := fun o => (xs o).map (p.readOf i o))
    (fun o ho _ => ⟨cut_pos (i := i) h ho, by have := cut_le (i := i) h o; omega⟩)
    (fun o hrow _ => row_cut h hi hrow) hstep hbytes.le p.row_zero
  refine ⟨os, xs, ?_, ⟨htiles, hos⟩, fun o ho => (hxs o ?_ (hos o ho)).2⟩
  · unfold after at ht
    rw [if_pos hbytes, if_neg (Nat.lt_irrefl _)] at ht
    exact ht
  · have hbounds := htiles.bounds ho
    simp only [id] at hbounds
    omega

/-- A transaction: what it writes, and the reads for it. -/
structure Transaction where
  address : UInt64
  bytes : Nat
  reads : List L1OutputRead

/-- The transactions of a group, at the offsets `os`, with the reads at `xs`. -/
def transactions (p : L1OutputReadPlan) (os : Nat → List Nat) (xs : Nat → Nat → List Nat) (i : Nat) :
    List Transaction :=
  (os i).map fun o => ⟨p.destinationOf i o, p.cut i o, (xs i o).map (p.readOf i o)⟩

theorem plan_takes (h : p.Planned) (hbytes : 0 < p.groups → 0 < p.groupBytes) :
    ∃ (os : Nat → List Nat) (xs : Nat → Nat → List Nat), Takes next (p.place 0 0 0)
      (((List.range p.groups).flatMap (p.transactions os xs)).flatMap Transaction.reads) (p.place p.groups 0 0) ∧
      ∀ i < p.groups, p.Transactions i (os i) ∧ ∀ o ∈ os i, p.Chunks i o (xs i o) := by
  choose! os xs hxs using fun i (hi : i < p.groups) => group_takes h hi (hbytes (by omega))
  refine ⟨os, xs, ?_, fun i hi => (hxs i hi).2⟩
  have ht := Takes.rows (f := fun i => p.place i 0 0) fun i hi => (hxs i hi).1
  rw [List.flatMap_assoc]
  simpa only [transactions, List.flatMap_map] using ht

/-! ## Whole transactions -/

namespace Transaction

/-- The addresses of the bytes read, in order. -/
def sources (t : Transaction) : List UInt64 :=
  t.reads.flatMap fun r => (List.range r.bytes).map fun k => r.sourceAddress + k.toUInt64

/-- The addresses of the bytes written, in order. -/
def destinations (t : Transaction) : List UInt64 := (List.range t.bytes).map fun k => t.address + k.toUInt64

/-- Each byte read goes to its place behind the address of the transaction. -/
def pairs (t : Transaction) : List (UInt64 × UInt64) := t.sources.zip t.destinations

/-- The reads are all that the transaction writes, rows if they are gathered; the last one ends it, and it is within a
line or as wide as its mode allows. -/
structure Whole (t : Transaction) (route : L1OutputRoute) (mode : DmaUopMode) : Prop where
  same : ∀ r ∈ t.reads, r.destinationAddress = t.address ∧ r.destinationBytes = t.bytes ∧ 0 < r.bytes
  bytes : (t.reads.map L1OutputRead.bytes).sum = t.bytes
  rows : route = .gather → ∀ r ∈ t.reads, r.bytes = 64
  ends : t.reads.map L1OutputRead.lastInTransaction = List.replicate (t.reads.length - 1) false ++ [true]
  inLine : DmaUopMode.InLine t.address t.bytes ∨ mode = .unbounded

end Transaction

theorem whole (h : p.Planned) (ho : o < p.groupBytes) {xs : List Nat} (hxs : p.Chunks i o xs) :
    Transaction.Whole ⟨p.destinationOf i o, p.cut i o, xs.map (p.readOf i o)⟩ p.route p.mode := by
  obtain ⟨htiles, -⟩ := hxs
  refine ⟨fun r hr => ?_, ?_, fun hg r hr => ?_, ?_, ?_⟩
  · obtain ⟨x, hx, rfl⟩ := List.mem_map.mp hr
    exact ⟨rfl, rfl, (htiles.bounds hx).2.1⟩
  · have hpoints := congrArg List.length (htiles.flatMap_points id)
    simp only [List.length_flatMap, List.length_map, List.length_range, Nat.sub_zero] at hpoints
    rw [List.map_map]
    exact hpoints
  · obtain ⟨x, -, rfl⟩ := List.mem_map.mp hr
    exact if_pos hg
  · have hmarks := htiles.marks (cut_pos h ho)
    rw [List.map_map, List.length_map]
    exact hmarks
  · by_cases hmode : p.mode = .unbounded
    · exact .inr hmode
    · exact .inl (DmaUopMode.splitBytes_inLine _ _ hmode)

/-! ## Bytes -/

theorem toUInt64_sum (a b : Nat) : a.toUInt64 + b.toUInt64 = (a + b).toUInt64 := (UInt64.ofNat_add a b).symm

theorem sourceOf_add (hi : p.route = L1OutputRoute.gather → i = 0) (hrow : p.Row o) (hxrow : p.Row x) {k : Nat}
    (hk : k < p.chunk i o x) : p.sourceOf i (o + x) + k.toUInt64 = p.sourceOf i (o + (x + k)) := by
  unfold sourceOf
  rw [UInt64.add_assoc, toUInt64_sum]
  congr 2
  by_cases hg : p.route = L1OutputRoute.gather
  · have hchunk : p.chunk i o x = 64 := if_pos hg
    have := hrow hg
    have := hxrow hg
    have hdiv : (o + (x + k)) / 64 = (o + x) / 64 := by omega
    have hmod : (o + (x + k)) % 64 = (o + x) % 64 + k := by omega
    rw [if_pos hg, if_pos hg, hdiv, hmod, Nat.add_assoc]
  · rw [if_neg hg, if_neg hg, Nat.add_assoc, Nat.add_assoc]

theorem destinationOf_add (k : Nat) : p.destinationOf i o + k.toUInt64 = p.destinationOf i (o + k) := by
  unfold destinationOf
  rw [UInt64.add_assoc, toUInt64_sum]

/-- A transaction copies the bytes of its group from its offset on. -/
theorem transaction_pairs (hi : p.route = L1OutputRoute.gather → i = 0) (hrow : p.Row o) {xs : List Nat}
    (hxs : p.Chunks i o xs) : Transaction.pairs ⟨p.destinationOf i o, p.cut i o, xs.map (p.readOf i o)⟩ =
      (List.range (p.cut i o)).map fun k => (p.sourceOf i (o + k), p.destinationOf i (o + k)) := by
  have hsources : Transaction.sources ⟨p.destinationOf i o, p.cut i o, xs.map (p.readOf i o)⟩ =
      (List.range (p.cut i o)).map fun k => p.sourceOf i (o + k) := by
    have hpoints := hxs.1.flatMap_points fun k => p.sourceOf i (o + k)
    simp only [Nat.sub_zero, Nat.zero_add, id] at hpoints
    rw [← hpoints, Transaction.sources, List.flatMap_map]
    refine List.flatMap_congr fun x hx => List.map_congr_left fun k hk => ?_
    exact sourceOf_add hi hrow (hxs.2 x hx) (List.mem_range.mp hk)
  rw [Transaction.pairs, hsources, Transaction.destinations, ← List.zip_map']
  refine congrArg _ (List.map_congr_left fun k _ => ?_)
  exact destinationOf_add k

theorem group_pairs (hi : p.route = L1OutputRoute.gather → i = 0) {os : Nat → List Nat} {xs : Nat → Nat → List Nat}
    (hos : p.Transactions i (os i)) (hxs : ∀ o ∈ os i, p.Chunks i o (xs i o)) :
    (p.transactions os xs i).flatMap Transaction.pairs =
      (List.range p.groupBytes).map fun q => (p.sourceOf i q, p.destinationOf i q) := by
  have hpoints := hos.1.flatMap_points fun q => (p.sourceOf i q, p.destinationOf i q)
  simp only [Nat.sub_zero, Nat.zero_add, id] at hpoints
  rw [← hpoints, transactions, List.flatMap_map]
  exact List.flatMap_congr fun o ho => transaction_pairs hi (hos.2 o ho) (hxs o ho)

/-! ## The plan of a transfer -/

variable {t : MovL1ToOutTransfer} {mode : DmaUopMode} {bandwidth : NonZeroU32}

theorem mul_toUInt32_toUInt64 (a : Nat) (b : UInt32) :
    (a.toUInt32 * b).toUInt64 = (a * b.toNat % u32).toUInt64 := by
  rw [← UInt64.toNat_inj, UInt32.toNat_toUInt64, UInt32.toNat_mul]
  have ha : a.toUInt32.toNat = a % 2 ^ 32 := rfl
  have hu : u32 = 2 ^ 32 := rfl
  have hlt : a * b.toNat % 2 ^ 32 < 2 ^ 32 := Nat.mod_lt _ (by decide)
  have hright : (a * b.toNat % u32).toUInt64.toNat = a * b.toNat % u32 % 2 ^ 64 := rfl
  rw [ha, hright, hu, Nat.mod_mul_mod, Nat.mod_eq_of_lt (hlt.trans (by decide))]

theorem mul_toUInt64 (a : Nat) (b : UInt64) : (a * b.toNat).toUInt64 = a.toUInt64 * b := by
  show UInt64.ofNat (a * b.toNat) = UInt64.ofNat a * b
  rw [UInt64.ofNat_mul, UInt64.ofNat_toNat]

/-- The bursts that the segments of a transfer copy, one after the other. -/
def bursts (t : MovL1ToOutTransfer) : List (UInt64 × UInt64) :=
  let l := t.layout
  (List.range l.count.toNat).flatMap fun i => (List.range (l.length.toNat * 32)).map fun q =>
    (t.sourceAddress + (i * ((l.length.toNat + l.sourceGap.toNat) * 32) % u32 + q).toUInt64,
      t.destinationAddress + (i * ((l.length.toNat + l.destinationGap.toNat) * 32) + q).toUInt64)

theorem segments_pairs {segments : List BurstSegment} (h : t.segments = some segments) :
    segments.flatMap BurstSegment.pairs = bursts t := by
  obtain ⟨hsource, hdestination⟩ := stride_toNat t.layout.length t.layout.sourceGap
  obtain ⟨-, hdestination⟩ := stride_toNat t.layout.length t.layout.destinationGap
  have hlt : ((t.layout.length.toUInt64 + t.layout.destinationGap.toUInt64) * 32).toNat < 2 ^ 32 := by
    have := t.layout.length.toNat_lt
    have := t.layout.destinationGap.toNat_lt
    omega
  rw [BurstLayout.segmentsWithStrides_pairs hlt h]
  refine List.flatMap_congr fun i _ => List.map_congr_left fun q _ => ?_
  have hi : i.toUInt64 * ((t.layout.length.toUInt64 + t.layout.destinationGap.toUInt64) * 32) =
      (i * ((t.layout.length.toNat + t.layout.destinationGap.toNat) * 32)).toUInt64 := by
    rw [← hdestination]
    exact (mul_toUInt64 i _).symm
  simp only [along, BurstLayout.burst, mul_toUInt32_toUInt64, hsource, hi, UInt64.add_assoc, toUInt64_sum]

theorem planned (t : MovL1ToOutTransfer) (mode : DmaUopMode) (bandwidth : NonZeroU32) :
    (new t mode bandwidth).Planned := by
  refine ⟨toNat_pos.mp bandwidth.2, Nat.mod_lt _ (by decide), fun hg => ?_⟩
  have hg : routeOf t = .gather := hg
  have hroute : t.destinationAddress % 64 = 0 ∧ t.layout.length = 2 := by
    simp only [routeOf] at hg
    split_ifs at hg with h₁ h₂
    exact ⟨h₂.2.1, h₂.2.2.2.2.2⟩
  have hlength : t.layout.length.toNat = 2 := by rw [hroute.2]; rfl
  refine ⟨?_, ?_, (DmaUopMode.mod_eq_zero _ 64).mp hroute.1⟩
  · show (if t.layout.count = 0 ∨ t.layout.length = 0 then 0 else if routeOf t ≠ .perBurst then 1 else
      t.layout.count.toNat) ≤ 1
    rw [hg]
    split_ifs <;> simp_all
  · show t.layout.length.toNat * 32 * (if routeOf t ≠ .perBurst then t.layout.count.toNat else 1) % u32 % 64 = 0
    rw [hlength, hg]
    simp only [u32]
    split_ifs <;> omega

/-- What is known of a transfer by its route. -/
theorem routeOf_flat (h : routeOf t ≠ .perBurst) : t.layout.destinationGap = 0 ∧
    (routeOf t = .contiguous ∧ t.layout.sourceGap = 0 ∨ routeOf t = .gather ∧ t.layout.length = 2) := by
  have hroute := h
  simp only [routeOf] at hroute ⊢
  split_ifs at hroute ⊢ with h₁ h₂
  · exact ⟨h₁.2, .inl ⟨rfl, h₁.1⟩⟩
  · exact ⟨h₂.2.2.2.1, .inr ⟨rfl, h₂.2.2.2.2.2⟩⟩
  · exact absurd rfl hroute

theorem bursts_none (h : t.layout.count = 0 ∨ t.layout.length = 0) : bursts t = [] := by
  rcases h with h | h <;> simp [bursts, h]

theorem groups_eq (h : ¬ (t.layout.count = 0 ∨ t.layout.length = 0)) :
    (new t mode bandwidth).groups = if routeOf t ≠ .perBurst then 1 else t.layout.count.toNat := if_neg h

theorem groupBytes_eq (hbytes : t.layout.count.toNat * t.layout.length.toNat * 32 < u32) :
    (new t mode bandwidth).groupBytes = if routeOf t ≠ .perBurst then
      t.layout.count.toNat * (t.layout.length.toNat * 32) else t.layout.length.toNat * 32 := by
  have hlength := t.layout.length.toNat_lt
  show t.layout.length.toNat * 32 * (if routeOf t ≠ .perBurst then t.layout.count.toNat else 1) % u32 = _
  split
  · rw [Nat.mul_comm, Nat.mod_eq_of_lt (by rwa [← Nat.mul_assoc])]
  · rw [Nat.mul_one, Nat.mod_eq_of_lt (by unfold u32; omega)]

theorem plan_pairs (hbytes : t.layout.count.toNat * t.layout.length.toNat * 32 < u32) :
    ((List.range (new t mode bandwidth).groups).flatMap fun i => (List.range (new t mode bandwidth).groupBytes).map
      fun q => ((new t mode bandwidth).sourceOf i q, (new t mode bandwidth).destinationOf i q)) = bursts t := by
  by_cases hnone : t.layout.count = 0 ∨ t.layout.length = 0
  · have hgroups : (new t mode bandwidth).groups = 0 := if_pos hnone
    rw [bursts_none hnone, hgroups]
    rfl
  have hroute : (new t mode bandwidth).route = routeOf t := rfl
  have htransfer : (new t mode bandwidth).transfer = t := rfl
  have hsource : (new t mode bandwidth).sourceStride = (t.layout.length.toNat + t.layout.sourceGap.toNat) * 32 := rfl
  have hdestination : (new t mode bandwidth).destinationStride =
      (t.layout.length.toNat + t.layout.destinationGap.toNat) * 32 := rfl
  rw [groups_eq hnone, groupBytes_eq hbytes]
  by_cases hflat : routeOf t ≠ .perBurst
  · obtain ⟨hgap, hcases⟩ := routeOf_flat hflat
    have hgap : t.layout.destinationGap.toNat = 0 := by rw [hgap]; rfl
    rw [if_pos hflat, if_pos hflat, List.range_one, List.flatMap_singleton, List.map_eq_flatMap, flatMap_range_mul]
    refine flatMap_congr_range fun i hi => ?_
    rw [List.map_eq_flatMap]
    refine flatMap_congr_range fun q hq => ?_
    simp only [sourceOf, destinationOf, hroute, hsource, hdestination, hgap, Nat.add_zero, Nat.zero_mul, toUInt64_sum,
      UInt64.add_assoc, Nat.zero_add]
    rcases hcases with ⟨hc, hsgap⟩ | ⟨hg, hlength⟩
    · have hsgap : t.layout.sourceGap.toNat = 0 := by rw [hsgap]; rfl
      have hlt : i * (t.layout.length.toNat * 32) < u32 := by
        refine lt_of_le_of_lt ?_ hbytes
        rw [Nat.mul_assoc]
        exact Nat.mul_le_mul_right _ hi.le
      simp [hc, hsgap, htransfer, Nat.mod_eq_of_lt hlt]
    · have hlength : t.layout.length.toNat = 2 := by rw [hlength]; rfl
      rw [hlength] at hq ⊢
      have hdiv : (i * (2 * 32) + q) / 64 = i := by omega
      have hmod : (i * (2 * 32) + q) % 64 = q := by omega
      simp [hg, htransfer, hdiv, hmod]
  · rw [if_neg hflat, if_neg hflat]
    refine flatMap_congr_range fun i _ => List.map_congr_left fun q _ => ?_
    have hburst : ¬ routeOf t = L1OutputRoute.gather := fun hg => hflat (by rw [hg]; decide)
    simp only [sourceOf, destinationOf, hsource, hdestination, htransfer, hroute, hburst, if_false, toUInt64_sum,
      UInt64.add_assoc]

/-! ## The last read -/

/-- A place of the plan with a byte to read, or its end. -/
def Reached (p s : L1OutputReadPlan) : Prop :=
  s = p.place p.groups 0 0 ∨ ∃ i o x, i < p.groups ∧ o < p.groupBytes ∧ x < p.cut i o ∧ p.Row o ∧ p.Row x ∧
    s = p.place i o x

theorem next_end (p : L1OutputReadPlan) : (p.place p.groups 0 0).next = none := if_pos (.inl (Nat.le_refl _))

theorem reached_after (h : p.Planned) (hi : i < p.groups) (hbytes : 0 < p.groupBytes) (hrow : p.Row o) :
    p.Reached (p.after i o) ∧
      ((p.after i o).next.isNone = (decide (p.groupBytes ≤ o) && decide (i + 1 = p.groups))) := by
  have hplace {i o : Nat} (hi : i < p.groups) (ho : o < p.groupBytes) (hrow : p.Row o) :
      p.Reached (p.place i o 0) ∧ (p.place i o 0).next.isNone = false := by
    have hpos := cut_pos (i := i) h ho
    refine ⟨.inr ⟨i, o, 0, hi, ho, hpos, hrow, p.row_zero, rfl⟩, ?_⟩
    rw [next_place h hi ho hrow hpos p.row_zero]
    rfl
  unfold after
  by_cases ho : o < p.groupBytes
  · obtain ⟨hreached, hnext⟩ := hplace hi ho hrow
    rw [if_pos ho, hnext, decide_eq_false (by omega)]
    exact ⟨hreached, rfl⟩
  · rw [if_neg ho, decide_eq_true (by omega), Bool.true_and]
    by_cases hlast : i + 1 = p.groups
    · rw [hlast, next_end, decide_eq_true rfl]
      exact ⟨.inl rfl, rfl⟩
    · obtain ⟨hreached, hnext⟩ := hplace (by omega : i + 1 < p.groups) hbytes p.row_zero
      rw [hnext, decide_eq_false hlast]
      exact ⟨hreached, rfl⟩

theorem reached_step (h : p.Planned) (s : L1OutputReadPlan) (read : L1OutputRead) (rest : L1OutputReadPlan)
    (hs : p.Reached s) (hnext : s.next = some (read, rest)) :
    p.Reached rest ∧ read.lastInInstruction = rest.next.isNone := by
  rcases hs with rfl | ⟨i, o, x, hi, ho, hx, hrow, hxrow, rfl⟩
  · rw [next_end] at hnext
    cases hnext
  · rw [next_place h hi ho hrow hx hxrow] at hnext
    obtain ⟨rfl, rfl⟩ := Prod.mk.inj (Option.some.inj hnext)
    obtain ⟨hpos, hle, hnextRow⟩ := chunk_bounds h hi hrow hxrow hx
    have hcut := cut_le (i := i) h o
    unfold within readOf
    by_cases hend : x + p.chunk i o x = p.cut i o
    · obtain ⟨hreached, hnone⟩ := reached_after h hi (by omega) (row_cut h hi hrow)
      rw [if_neg (by omega), hnone, decide_eq_true hend, Bool.true_and]
      refine ⟨hreached, ?_⟩
      rw [decide_eq_decide.mpr (show o + p.cut i o = p.groupBytes ↔ p.groupBytes ≤ o + p.cut i o by omega)]
    · have hlt : x + p.chunk i o x < p.cut i o := by omega
      rw [if_pos hlt, next_place h hi ho hrow hlt hnextRow, decide_eq_false hend]
      exact ⟨.inr ⟨i, o, _, hi, ho, hlt, hrow, hnextRow, rfl⟩, rfl⟩

/-! ## The copy -/

/-- The destination bytes of the bursts, in order. -/
def destinationBursts (t : MovL1ToOutTransfer) : List UInt64 :=
  let l := t.layout
  (List.range l.count.toNat).flatMap fun i => (List.range (l.length.toNat * 32)).map fun q =>
    t.destinationAddress + (i * ((l.length.toNat + l.destinationGap.toNat) * 32) + q).toUInt64

theorem destinationBursts_eq (t : MovL1ToOutTransfer) : (bursts t).map Prod.snd = destinationBursts t := by
  simp [bursts, destinationBursts, List.map_flatMap, Function.comp_def]

theorem destinations_eq {transactions : List Transaction} {route : L1OutputRoute}
    (h : ∀ x ∈ transactions, x.Whole route mode) :
    transactions.flatMap Transaction.destinations = (transactions.flatMap Transaction.pairs).map Prod.snd := by
  rw [List.map_flatMap]
  refine List.flatMap_congr fun x hx => ?_
  refine (List.map_snd_zip ?_).symm
  have hbytes := (h x hx).bytes
  simp only [Transaction.destinations, Transaction.sources, List.length_map, List.length_range, List.length_flatMap]
  exact hbytes.symm.le

/-- The plan ends; its reads make whole transactions, which copy what the segments copy, and only the last read ends the
instruction. -/
theorem reads_exact (t : MovL1ToOutTransfer) (mode : DmaUopMode) (bandwidth : NonZeroU32)
    (hbytes : t.layout.count.toNat * t.layout.length.toNat * 32 < u32) :
    ∃ (transactions : List Transaction) (last : L1OutputReadPlan),
      Takes next (new t mode bandwidth) (transactions.flatMap Transaction.reads) last ∧ last.next = none ∧
      (∀ x ∈ transactions, x.Whole (routeOf t) mode) ∧
      transactions.flatMap Transaction.destinations = destinationBursts t ∧
      (∀ segments, t.segments = some segments →
        transactions.flatMap Transaction.pairs = segments.flatMap BurstSegment.pairs) ∧
      ∀ before read after, transactions.flatMap Transaction.reads = before ++ read :: after →
        (read.lastInInstruction = true ↔ after = []) := by
  have h := planned t mode bandwidth
  have hpos : 0 < (new t mode bandwidth).groups → 0 < (new t mode bandwidth).groupBytes := by
    intro hgroups
    have hsome : ¬ (t.layout.count = 0 ∨ t.layout.length = 0) := fun hnone =>
      absurd hgroups (by rw [show (new t mode bandwidth).groups = 0 from if_pos hnone]; decide)
    obtain ⟨hcount, hlength⟩ := not_or.mp hsome
    have hcount : 0 < t.layout.count.toNat := Nat.pos_of_ne_zero fun h => hcount (UInt16.toNat_inj.mp h)
    have hlength : 0 < t.layout.length.toNat := Nat.pos_of_ne_zero fun h => hlength (UInt16.toNat_inj.mp h)
    rw [groupBytes_eq hbytes]
    split <;> positivity
  have hstart : (new t mode bandwidth).place 0 0 0 = new t mode bandwidth := by
    simp [place, new, gatherOffset]
  obtain ⟨os, xs, ht, hparts⟩ := plan_takes h hpos
  rw [hstart] at ht
  have hwhole : ∀ x ∈ (List.range (new t mode bandwidth).groups).flatMap ((new t mode bandwidth).transactions os xs),
      x.Whole (routeOf t) mode := by
    intro x hx
    obtain ⟨i, hi, hx⟩ := List.mem_flatMap.mp hx
    obtain ⟨o, ho, rfl⟩ := List.mem_map.mp hx
    obtain ⟨hos, hxs⟩ := hparts i (List.mem_range.mp hi)
    have hbounds := hos.1.bounds ho
    simp only [id] at hbounds
    exact whole h (by omega) (hxs o ho)
  have hpairs : ((List.range (new t mode bandwidth).groups).flatMap
      ((new t mode bandwidth).transactions os xs)).flatMap Transaction.pairs = bursts t := by
    rw [← plan_pairs hbytes, List.flatMap_assoc]
    refine flatMap_congr_range fun i hi => ?_
    obtain ⟨hos, hxs⟩ := hparts i hi
    refine group_pairs (fun hg => ?_) hos hxs
    have := (h.rows hg).1
    omega
  refine ⟨_, _, ht, next_end _, hwhole, ?_, fun segments hsegments => ?_, fun before read after hreads => ?_⟩
  · rw [destinations_eq hwhole, hpairs, destinationBursts_eq]
  · rw [hpairs, segments_pairs hsegments]
  · refine ht.marks (next_end _) (reached_step h) ?_ hreads
    have hreached : (new t mode bandwidth).Reached ((new t mode bandwidth).place 0 0 0) := by
      by_cases hgroups : 0 < (new t mode bandwidth).groups
      · have hcut := cut_pos (i := 0) h (hpos hgroups)
        exact .inr ⟨0, 0, 0, hgroups, hpos hgroups, hcut, row_zero _, row_zero _, rfl⟩
      · have hzero : (new t mode bandwidth).groups = 0 := by omega
        exact .inl (by rw [hzero])
    rwa [hstart] at hreached

/-- Three bursts of two units with a gap of one unit between their sources. -/
def gatherTransfer : MovL1ToOutTransfer := ⟨0, 0x1000, 0x100020030⟩

theorem readWidth_ne_zero : (32 : UInt32) ≠ 0 := by decide

def readWidth : NonZeroU32 := ⟨32, readWidth_ne_zero⟩

theorem reads_exact_gather : ∃ (transactions : List Transaction) (last : L1OutputReadPlan),
    Takes next (new gatherTransfer .wide512 readWidth) (transactions.flatMap Transaction.reads) last ∧
      last.next = none ∧ ∀ x ∈ transactions, x.Whole .gather .wide512 := by
  obtain ⟨transactions, last, ht, hend, hwhole, -⟩ := reads_exact gatherTransfer .wide512 readWidth (by decide)
  exact ⟨transactions, last, ht, hend, hwhole⟩

end L1OutputReadPlan

end AscendEmulator.C220.Mte
