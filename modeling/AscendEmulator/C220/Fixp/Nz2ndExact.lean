/-
  AscendEmulator.C220.Fixp.Nz2ndExact — when the bursts of a FIX transfer to matrices cover the rows of its layout.

  The formats differ in the reads of a conversion and in the bytes of 16 columns (`RowKind`); the bytes that the planner
  writes of a row (`rowTotal`) are those of the layout just if the lanes behind the last 16 columns are the lanes behind
  the last conversion.

  - `writes_exact`: the bursts cover the rows of the matrices just if the command is `Exact`.
-/

import AscendEmulator.C220.Fixp.Nz2ndProofs

namespace AscendEmulator.C220.Fixp

open Lib Cuts C220.Memory

/-! ## Packets -/

/-- The addresses that a packet is written to. -/
def MteOutputFragment.written (p : MteOutputFragment) : List Nat :=
  (List.range p.bytes).map fun k => (p.destinationAddress.toNat + k) % u64

/-- The addresses that a fragment is written to. -/
def FragmentView.written (f : FragmentView) : List Nat :=
  (List.range f.bytes).map fun k => (f.address.toNat + k) % u64

namespace ExternalBurst

/-- The packets that are cut off a burst, down to the one that ends it. -/
inductive Cut : ExternalBurst → List MteOutputFragment → Prop
  | last {b : ExternalBurst} {n : Nat} (htake : b.packetBytes = some n) (hend : b.finishes n = true) :
      Cut b [b.packet n]
  | next {b : ExternalBurst} {n : Nat} {packets : List MteOutputFragment} (htake : b.packetBytes = some n)
      (hend : b.finishes n = false) (hrest : Cut (b.taken n) packets) : Cut b (b.packet n :: packets)

/-- What is left of a burst that is closed: some bytes, or the rest of one row. -/
structure Closed (b : ExternalBurst) : Prop where
  closed : b.closed = true
  policy : ∃ control stride, b.policy = .new control stride
  bytes : b.bytes < u32
  row : b.gather = false → b.rowOffset + b.bytes = b.rowBytes

/-- The bytes from the next packet's address on. -/
def leftBytes (b : ExternalBurst) : List Nat :=
  (List.range b.bytes).map fun k => (b.packetAddress.toNat + k) % u64

variable {b : ExternalBurst}

/-- An empty row gives no packet; else a packet takes some of the bytes. -/
theorem Closed.packetBytes (h : b.Closed) :
    (b.packetBytes = none ↔ b.gather = false ∧ b.bytes = 0) ∧
      ∀ n, b.packetBytes = some n → n ≤ b.bytes ∧ (0 < b.bytes → 0 < n) := by
  obtain ⟨control, stride, hpolicy⟩ := h.policy
  unfold ExternalBurst.packetBytes
  cases hgather : b.gather with
  | true =>
    simp only [if_true, ExternalOutputPolicy.gatheredPacket, h.closed, hpolicy, reduceCtorEq, false_and,
      Option.some.injEq, forall_eq', iff_self, true_and]
    rcases Nat.eq_zero_or_pos b.bytes with hzero | hpos
    · rw [hzero, ExternalOutputPolicy.rowPacket_eq]
      split_ifs <;> omega
    · have hbounds := ExternalOutputPolicy.rowPacket_bounds control stride b.packetAddress hpos
      exact ⟨hbounds.2, fun _ => hbounds.1⟩
  | false =>
    have hrow := h.row hgather
    simp only [Bool.false_eq_true, if_false, true_and, hpolicy]
    rcases Nat.eq_zero_or_pos b.bytes with hzero | hpos
    · rw [if_pos (by omega)]
      simp [hzero]
    · rw [if_neg (by omega), show b.rowBytes - b.rowOffset = b.bytes by omega]
      have hbounds := ExternalOutputPolicy.rowPacket_bounds control stride b.packetAddress hpos
      simp only [reduceCtorEq, hpos.ne', Option.some.injEq, forall_eq', iff_self, true_and]
      exact ⟨hbounds.2, fun _ => hbounds.1⟩

/-- A packet ends its burst, or leaves the bytes behind it. -/
theorem Closed.taken (h : b.Closed) {n : Nat} (hn : n ≤ b.bytes) :
    (b.finishes n = true ↔ n = b.bytes) ∧ (b.taken n).bytes = b.bytes - n ∧
      (n < b.bytes → (b.taken n).Closed ∧ (b.taken n).packetAddress = b.packetAddress + n.toUInt64) := by
  have hbytes := h.bytes
  have hleft : (b.bytes + u32 - n) % u32 = b.bytes - n := by
    unfold u32 at hbytes ⊢
    omega
  have htaken : (b.taken n).bytes = b.bytes - n := by
    unfold ExternalBurst.taken
    dsimp only
    split_ifs <;> exact hleft
  refine ⟨?_, htaken, fun hlt => ?_⟩
  · unfold finishes
    rw [h.closed, htaken, Bool.true_and, beq_iff_eq]
    omega
  · cases hgather : b.gather with
    | true =>
      have heq : b.taken n = { b with address := b.address + n.toUInt64, bytes := b.bytes - n } := by
        unfold ExternalBurst.taken
        rw [if_pos hgather, hleft]
      rw [heq]
      refine ⟨⟨h.closed, h.policy, (Nat.sub_le _ _).trans_lt hbytes, ?_⟩, ?_⟩
      · simp [hgather]
      · simp [packetAddress, hgather]
    | false =>
      have hrow := h.row hgather
      have heq : b.taken n = { b with rowOffset := b.rowOffset + n, bytes := b.bytes - n } := by
        unfold ExternalBurst.taken
        rw [if_neg (by simp [hgather]), if_neg (by omega), hleft]
      rw [heq]
      refine ⟨⟨h.closed, h.policy, (Nat.sub_le _ _).trans_lt hbytes, fun _ => ?_⟩, ?_⟩
      · show b.rowOffset + n + (b.bytes - n) = b.rowBytes
        omega
      · simp [packetAddress, hgather, UInt64.add_assoc]

theorem leftBytes_split {n : Nat} (hn : n ≤ b.bytes) {rest : ExternalBurst}
    (hbytes : rest.bytes = b.bytes - n) (haddress : rest.packetAddress = b.packetAddress + n.toUInt64) :
    b.leftBytes = (b.packet n).written ++ rest.leftBytes := by
  have hsum : b.bytes = n + (b.bytes - n) := by omega
  have hpacket : (b.packet n).written = (List.range n).map fun k => (b.packetAddress.toNat + k) % u64 := rfl
  rw [hpacket, leftBytes, leftBytes, hbytes, haddress]
  conv_lhs => rw [hsum, List.range_add, List.map_append, List.map_map]
  congr 1
  refine List.map_congr_left fun k _ => ?_
  simp only [Function.comp_apply, UInt64.toNat_add, Nat.toUInt64_eq, UInt64.toNat_ofNat', u64]
  omega

/-- A closed burst is cut into packets if it is no empty row. -/
theorem Closed.cut (h : b.Closed) (hserved : b.gather = true ∨ 0 < b.bytes) :
    ∃ packets, Cut b packets ∧ packets.flatMap MteOutputFragment.written = b.leftBytes := by
  induction hsize : b.bytes using Nat.strong_induction_on generalizing b with | _ size ih =>
  obtain ⟨hnone, hsome⟩ := h.packetBytes
  cases htake : b.packetBytes with
  | none =>
    have hempty := hnone.mp htake
    rw [hempty.1] at hserved
    simp [hempty.2] at hserved
  | some n =>
    obtain ⟨hle, hpos⟩ := hsome n htake
    obtain ⟨hend, hbytes, hrest⟩ := h.taken hle
    by_cases hlast : n = b.bytes
    · refine ⟨[b.packet n], .last htake (hend.mpr hlast), ?_⟩
      rw [List.flatMap_singleton, hlast]
      rfl
    · obtain ⟨hclosed, haddress⟩ := hrest (by omega)
      obtain ⟨packets, hcut, hwritten⟩ := ih (b.bytes - n) (by omega) hclosed (.inr (by omega)) hbytes
      refine ⟨b.packet n :: packets, .next htake (Bool.eq_false_iff.mpr fun heq => hlast (hend.mp heq)) hcut, ?_⟩
      rw [List.flatMap_cons, hwritten, leftBytes_split hle hbytes haddress]

theorem Cut.written {packets : List MteOutputFragment} (hcut : Cut b packets) (h : b.Closed) :
    (b.gather = true ∨ 0 < b.bytes) ∧ packets.flatMap MteOutputFragment.written = b.leftBytes := by
  have hserved {b : ExternalBurst} {n : Nat} (h : b.Closed) (htake : b.packetBytes = some n) :
      b.gather = true ∨ 0 < b.bytes := by
    by_contra hempty
    rw [not_or, Bool.not_eq_true] at hempty
    rw [h.packetBytes.1.mpr ⟨hempty.1, by omega⟩] at htake
    cases htake
  induction hcut with
  | last htake hend =>
    obtain ⟨hend', -, -⟩ := h.taken (h.packetBytes.2 _ htake).1
    refine ⟨hserved h htake, ?_⟩
    rw [List.flatMap_singleton, hend'.mp hend]
    rfl
  | next htake hend hrest ih =>
    have hle := (h.packetBytes.2 _ htake).1
    obtain ⟨hend', hbytes, hleft⟩ := h.taken hle
    obtain ⟨hclosed, haddress⟩ := hleft (Nat.lt_of_le_of_ne hle fun heq => by simp [hend'.mpr heq] at hend)
    refine ⟨hserved h htake, ?_⟩
    rw [List.flatMap_cons, (ih hclosed).2, leftBytes_split hle hbytes haddress]

end ExternalBurst

/-! ## Formats -/

/-- The formats, by how their columns are read, converted and stored. -/
inductive RowKind (d : Descriptor) (format : OutputFormat) : Prop where
  | words (hmode : d.conversionMode = 0) (hcounts : d.readsPerUnit = 1 ∧ d.readsPerColumn = 2)
      (hreads : d.rowReads = (d.columns + 7) / 8) (hstored : ∀ n ≤ 2 ^ 28, format.storageBytes n = n * 4)
  | halves (hmode : d.conversionMode ∉ 0 :: [8, 9, 23, 24] ++ [21, 22, 25, 26] ++ [17, 18])
      (hcounts : d.readsPerUnit = 1 ∧ d.readsPerColumn = 1) (hreads : d.rowReads = (d.columns + 15) / 16)
      (hstored : ∀ n ≤ 2 ^ 28, format.storageBytes n = n * 2)
  | singles (hmode : d.conversionMode ∈ [17, 18]) (hcounts : d.readsPerUnit = 1 ∧ d.readsPerColumn = 1)
      (hreads : d.rowReads = (d.columns + 15) / 16) (hstored : ∀ n ≤ 2 ^ 28, format.storageBytes n = n)
  | pairs (hmode : d.conversionMode ∈ [8, 9, 23, 24]) (hcounts : d.readsPerUnit = 2 ∧ d.readsPerColumn = 1)
      (hreads : d.rowReads = (d.columns + 15) / 16) (hstored : ∀ n ≤ 2 ^ 28, format.storageBytes n = n)
  | fours (hmode : d.conversionMode ∈ [21, 22, 25, 26]) (hcounts : d.readsPerUnit = 4 ∧ d.readsPerColumn = 1)
      (hreads : d.rowReads = (d.columns + 15) / 16) (hstored : ∀ n ≤ 2 ^ 28, format.storageBytes n = n / 2)

theorem halves_of {d : Descriptor} {format : OutputFormat} {modes : List Nat} (hmem : d.conversionMode ∈ modes)
    (hother : ∀ mode ∈ modes, mode ∉ 0 :: [8, 9, 23, 24] ++ [21, 22, 25, 26] ++ [17, 18])
    (hstored : ∀ n ≤ 2 ^ 28, format.storageBytes n = n * 2) : RowKind d format := by
  have hnot := hother _ hmem
  have hmode := hnot
  simp only [List.mem_append, List.mem_cons, not_or] at hnot
  rcases d.counting_cases with ⟨hzero, -⟩ | ⟨-, hper, hreads, ⟨hbytes, -⟩ | ⟨-, hnibbles, -⟩ | ⟨-, -, hunit⟩⟩
  · exact absurd hzero hnot.1.1.1
  · simp_all
  · simp_all
  · exact .halves hmode ⟨hunit, hper⟩ hreads hstored

theorem rowKind {d : Descriptor} {sourceFormat : SourceFormat} {format : OutputFormat}
    (h : OutputFormat.fromConversionMode sourceFormat d.conversionMode = some format)
    (hmode : d.conversionMode ∉ [19, 20]) : RowKind d format := by
  have hword {n : Nat} (hn : n ≤ 2 ^ 28) : n * 4 % u32 = n * 4 ∧ n * 2 % u32 = n * 2 := by
    rw [show u32 = 2 ^ 32 from rfl]
    omega
  unfold OutputFormat.fromConversionMode at h
  split_ifs at h with h₁ h₂ h₃ h₄ h₅ h₆ h₇
  · cases h
    exact halves_of h₁ (by decide) fun n hn => (hword hn).2
  · cases h
    exact halves_of h₂ (by decide) fun n hn => (hword hn).2
  · cases h
    exact halves_of (List.mem_singleton.mpr h₃) (by decide) fun n hn => (hword hn).2
  · rcases d.counting_cases with ⟨-, hper, hunit, hreads⟩ | ⟨hzero, -⟩
    · cases sourceFormat <;> cases h <;> exact .words h₄ ⟨hunit, hper⟩ hreads fun n hn => (hword hn).1
    · exact absurd h₄ hzero
  · cases h
    rcases d.counting_cases with ⟨hzero, -⟩ | ⟨-, hper, hreads, ⟨hbytes, -⟩ | ⟨-, hnibbles, -⟩ | ⟨-, -, hunit⟩⟩
    · exact absurd hzero h₄
    · simp only [List.mem_cons, List.not_mem_nil, or_false] at h₅ hbytes
      omega
    · simp only [List.mem_cons, List.not_mem_nil, or_false] at h₅ hnibbles
      omega
    · exact .singles h₅ ⟨hunit, hper⟩ hreads fun _ _ => rfl
  · cases h
    rcases d.counting_cases with ⟨hzero, -⟩ | ⟨-, hper, hreads, ⟨-, hunit⟩ | ⟨hbytes, -⟩ | ⟨hbytes, -⟩⟩
    · exact absurd hzero h₄
    · exact .pairs h₆ ⟨hunit, hper⟩ hreads fun _ _ => rfl
    · exact absurd h₆ hbytes
    · exact absurd h₆ hbytes
  · cases h
    rcases d.counting_cases with ⟨hzero, -⟩ | ⟨-, hper, hreads, ⟨hbytes, -⟩ | ⟨-, -, hunit⟩ | ⟨-, hnibbles, -⟩⟩
    · exact absurd hzero h₄
    · exact absurd hbytes h₆
    · exact .fours h₇ ⟨hunit, hper⟩ hreads fun _ _ => rfl
    · exact absurd h₇ hnibbles

/-- The lanes behind the last whole conversion of a row, as the planner counts them. -/
def Descriptor.tailLanes (d : Descriptor) : Nat :=
  d.columns % (16 / if d.conversionMode = 0 then if d.columns % 16 ≠ 0 then (d.columns % 16 + 7) / 8 else 2 else 1)

/-- What the planner writes of a row. -/
def Descriptor.rowTotal (d : Descriptor) (format : OutputFormat) : Nat :=
  32 * ((d.rowReads - 1) / d.readsPerUnit) + if d.tailLanes ≠ 0 then format.storageBytes d.tailLanes else 32

namespace RowKind

variable {d : Descriptor} {format : OutputFormat}

theorem tailLanes_le (d : Descriptor) : d.tailLanes ≤ 4096 :=
  (Nat.mod_le _ _).trans (Layout.columns_lt d).le

theorem stored_word {n : Nat} (h : n ≤ 4096) : n ≤ 2 ^ 28 := h.trans (by decide)

theorem tailLanes_one (hmode : d.conversionMode ≠ 0) : d.tailLanes = d.columns % 16 := by
  rw [Descriptor.tailLanes, if_neg hmode]

theorem tailLanes_two (hmode : d.conversionMode = 0) :
    d.tailLanes = if 0 < d.columns % 16 ∧ d.columns % 16 ≤ 8 then d.columns % 16 else d.columns % 8 := by
  rw [Descriptor.tailLanes, if_pos hmode]
  by_cases hzero : d.columns % 16 = 0
  · rw [if_neg (not_not.mpr hzero), if_neg (by omega)]
  · rw [if_pos hzero]
    by_cases hone : d.columns % 16 ≤ 8
    · rw [if_pos (by omega), show (d.columns % 16 + 7) / 8 = 1 by omega]
    · rw [if_neg (by omega), show (d.columns % 16 + 7) / 8 = 2 by omega]

/-- Modes of one kind are not of another. -/
theorem modes_apart {a b : List Nat} (hmode : d.conversionMode ∈ a) (h : ∀ mode ∈ a, mode ∉ b) :
    d.conversionMode ∉ b := h _ hmode

/-- The tail is right where the lanes behind the last 16 are those behind the last conversion. -/
theorem total_iff (h : RowKind d format) (hpos : 0 < d.columns) :
    d.rowTotal format = format.storageBytes d.columns ↔
      (d.conversionMode ∈ [8, 9, 23, 24] → d.columns % 32 < 16) ∧
      (d.conversionMode ∈ [21, 22, 25, 26] → d.columns % 64 < 16) ∧
      (d.conversionMode ∈ [17, 18] → d.columns < 16) := by
  have hlt := Layout.columns_lt d
  have htail := tailLanes_le d
  unfold Descriptor.rowTotal
  cases h with
  | words hmode hcounts hreads hstored =>
    have hpairs : d.conversionMode ∉ [8, 9, 23, 24] := by rw [hmode]; decide
    have hfours : d.conversionMode ∉ [21, 22, 25, 26] := by rw [hmode]; decide
    have hsingles : d.conversionMode ∉ [17, 18] := by rw [hmode]; decide
    rw [hstored _ (stored_word htail), hstored _ (stored_word hlt.le), hcounts.1, hreads, tailLanes_two hmode]
    simp only [hpairs, hfours, hsingles, false_imp_iff, and_true, iff_true]
    split_ifs <;> omega
  | halves hmode hcounts hreads hstored =>
    simp only [List.mem_append, List.mem_cons (a := d.conversionMode) (b := 0), not_or] at hmode
    rw [hstored _ (stored_word htail), hstored _ (stored_word hlt.le), hcounts.1, hreads, tailLanes_one hmode.1.1.1]
    simp only [hmode, false_imp_iff, and_true, iff_true]
    split_ifs <;> omega
  | singles hmode hcounts hreads hstored =>
    have hpairs := modes_apart hmode (show ∀ mode ∈ [17, 18], mode ∉ [8, 9, 23, 24] by decide)
    have hfours := modes_apart hmode (show ∀ mode ∈ [17, 18], mode ∉ [21, 22, 25, 26] by decide)
    have hzero := modes_apart hmode (show ∀ mode ∈ [17, 18], mode ∉ [0] by decide)
    rw [hstored _ (stored_word htail), hstored _ (stored_word hlt.le), hcounts.1, hreads,
      tailLanes_one (by simpa using hzero)]
    simp only [hmode, hpairs, hfours, false_imp_iff, true_imp_iff, true_and]
    split_ifs <;> omega
  | pairs hmode hcounts hreads hstored =>
    have hfours := modes_apart hmode (show ∀ mode ∈ [8, 9, 23, 24], mode ∉ [21, 22, 25, 26] by decide)
    have hsingles := modes_apart hmode (show ∀ mode ∈ [8, 9, 23, 24], mode ∉ [17, 18] by decide)
    have hzero := modes_apart hmode (show ∀ mode ∈ [8, 9, 23, 24], mode ∉ [0] by decide)
    rw [hstored _ (stored_word htail), hstored _ (stored_word hlt.le), hcounts.1, hreads,
      tailLanes_one (by simpa using hzero)]
    simp only [hmode, hfours, hsingles, false_imp_iff, true_imp_iff, and_true]
    split_ifs <;> omega
  | fours hmode hcounts hreads hstored =>
    have hpairs := modes_apart hmode (show ∀ mode ∈ [21, 22, 25, 26], mode ∉ [8, 9, 23, 24] by decide)
    have hsingles := modes_apart hmode (show ∀ mode ∈ [21, 22, 25, 26], mode ∉ [17, 18] by decide)
    have hzero := modes_apart hmode (show ∀ mode ∈ [21, 22, 25, 26], mode ∉ [0] by decide)
    rw [hstored _ (stored_word htail), hstored _ (stored_word hlt.le), hcounts.1, hreads,
      tailLanes_one (by simpa using hzero)]
    simp only [hmode, hpairs, hsingles, false_imp_iff, true_imp_iff, true_and, and_true]
    split_ifs <;> omega

/-- Rows of whole lines are made of pairs of whole groups. -/
theorem whole_lines (h : RowKind d format) (hpos : 0 < d.columns) (hlines : format.storageBytes d.columns % 512 = 0)
    (hserved : d.conversionMode ∈ [21, 22, 25, 26] → d.columns % 512 ≠ 1) :
    d.tailLanes = 0 ∧ ∃ q, 0 < q ∧ d.rowReads = q * (16 * d.readsPerUnit) := by
  have hlt := Layout.columns_lt d
  cases h with
  | words hmode hcounts hreads hstored =>
    rw [hstored _ (stored_word hlt.le)] at hlines
    rw [tailLanes_two hmode, hreads, hcounts.1]
    exact ⟨by split_ifs <;> omega, d.columns / 128, by omega, by omega⟩
  | halves hmode hcounts hreads hstored =>
    simp only [List.mem_append, List.mem_cons (a := d.conversionMode) (b := 0), not_or] at hmode
    rw [hstored _ (stored_word hlt.le)] at hlines
    rw [tailLanes_one hmode.1.1.1, hreads, hcounts.1]
    exact ⟨by omega, d.columns / 256, by omega, by omega⟩
  | singles hmode hcounts hreads hstored =>
    have hzero := modes_apart hmode (show ∀ mode ∈ [17, 18], mode ∉ [0] by decide)
    rw [hstored _ (stored_word hlt.le)] at hlines
    rw [tailLanes_one (by simpa using hzero), hreads, hcounts.1]
    exact ⟨by omega, d.columns / 256, by omega, by omega⟩
  | pairs hmode hcounts hreads hstored =>
    have hzero := modes_apart hmode (show ∀ mode ∈ [8, 9, 23, 24], mode ∉ [0] by decide)
    rw [hstored _ (stored_word hlt.le)] at hlines
    rw [tailLanes_one (by simpa using hzero), hreads, hcounts.1]
    exact ⟨by omega, d.columns / 512, by omega, by omega⟩
  | fours hmode hcounts hreads hstored =>
    have hzero := modes_apart hmode (show ∀ mode ∈ [21, 22, 25, 26], mode ∉ [0] by decide)
    have hne := hserved hmode
    rw [hstored _ (stored_word hlt.le)] at hlines
    rw [tailLanes_one (by simpa using hzero), hreads, hcounts.1]
    exact ⟨by omega, d.columns / 1024, by omega, by omega⟩

/-- Groups begin where eight conversions of 32 bytes end. -/
theorem group_start (h : RowKind d format) (hsingles : d.conversionMode ∈ [17, 18] → d.columns < 16) {t : Nat}
    (ht : t < d.rowReads) : t / (8 * d.readsPerUnit) * (8 * d.readsPerUnit) / d.readsPerColumn *
      format.storageBytes 16 = t / (8 * d.readsPerUnit) * 256 := by
  cases h with
  | words hmode hcounts hreads hstored =>
    rw [hstored _ (by decide), hcounts.1, hcounts.2]
    omega
  | halves hmode hcounts hreads hstored =>
    rw [hstored _ (by decide), hcounts.1, hcounts.2]
    omega
  | singles hmode hcounts hreads hstored =>
    have hone := hsingles hmode
    rw [hreads] at ht
    rw [hcounts.1, show t / (8 * 1) = 0 by omega]
    simp
  | pairs hmode hcounts hreads hstored =>
    rw [hstored _ (by decide), hcounts.1, hcounts.2]
    omega
  | fours hmode hcounts hreads hstored =>
    rw [hstored _ (by decide), hcounts.1, hcounts.2]
    omega

end RowKind

namespace Nz2ndWriteGenerator

variable {g : Nz2ndWriteGenerator} {l : Layout}

theorem Accepted.kind (h : g.Accepted l) : RowKind g.command.descriptor l.format := by
  have hlayout := h.layout
  have hbuilt := (Layout.built_of_new hlayout).format
  unfold TransferCommand.layout Layout.new at hlayout
  split at hlayout
  · cases hlayout
  · cases hlayout
    exact rowKind hbuilt h.mode

theorem Accepted.columns_pos (h : g.Accepted l) : 0 < g.command.descriptor.columns := by
  have hextents := h.reads.extents.2.1
  rwa [h.command.1] at hextents

/-- A full group has 256 bytes of a row; the last one ends with the tail. -/
theorem Accepted.rowBytes (h : g.Accepted l) (k : Nat) :
    g.planner.rowBytes k false = 256 ∧
      g.planner.rowBytes k true = 32 * (k % 8) + if g.command.descriptor.tailLanes ≠ 0 then
        l.format.storageBytes g.command.descriptor.tailLanes else 32 := by
  have htail : g.planner.tailLanes true = g.command.descriptor.tailLanes := by
    unfold Nz2ndWritePlanner.tailLanes Nz2ndWritePlanner.parts Descriptor.tailLanes
    rw [h.command.2]
    simp
  unfold Nz2ndWritePlanner.rowBytes
  rw [htail, h.format.2, h.slots.2]
  refine ⟨rfl, ?_⟩
  simp only [Bool.not_true, Bool.false_eq_true, if_false]
  split_ifs <;> rfl

/-- Rows that are written by lines are made of whole lines. -/
theorem Accepted.aligned_lines (h : g.Accepted l) (haligned : g.planner.aligned512 = true)
    (hserved : g.command.descriptor.conversionMode ∈ [21, 22, 25, 26] → g.command.descriptor.columns % 512 ≠ 1) :
    g.command.descriptor.tailLanes = 0 ∧
      ∃ q, 0 < q ∧ g.command.descriptor.rowReads = q * (16 * g.command.descriptor.readsPerUnit) := by
  rw [h.aligned, Nz2ndWritePlanner.isAligned512, decide_eq_true_iff] at haligned
  exact h.kind.whole_lines h.columns_pos haligned.1 hserved

/-- The rows are not written by lines, or they are made of whole lines. -/
theorem Accepted.lines (h : g.Accepted l)
    (hserved : g.command.descriptor.conversionMode ∈ [21, 22, 25, 26] → g.planner.gather = false →
      g.command.descriptor.columns % 512 ≠ 1) :
    (∀ t, g.byLines t = false) ∨
      g.planner.gather = false ∧ g.planner.aligned512 = true ∧ g.command.descriptor.tailLanes = 0 ∧
        ∃ q, 0 < q ∧ g.command.descriptor.rowReads = q * (16 * g.command.descriptor.readsPerUnit) := by
  cases hgather : g.planner.gather with
  | true => exact .inl fun t => by simp [byLines, hgather]
  | false =>
    cases haligned : g.planner.aligned512 with
    | false => exact .inl fun t => by simp [byLines, haligned]
    | true =>
      obtain ⟨htail, q, hq, hreads⟩ := h.aligned_lines haligned fun hmode => hserved hmode hgather
      exact .inr ⟨rfl, rfl, htail, q, hq, hreads⟩

/-- Before the last read, groups are closed when they are full. -/
theorem closes_before {d : Descriptor} {t : Nat} (ht : t + 1 < d.rowReads) :
    d.closesGroup t = decide (t % (8 * d.readsPerUnit) = 8 * d.readsPerUnit - 1) := by
  simp [Descriptor.closesGroup, show t + 1 ≠ d.rowReads by omega]

theorem closes_last {d : Descriptor} (hpos : 0 < d.rowReads) : d.closesGroup (d.rowReads - 1) = true := by
  simp [Descriptor.closesGroup, show d.rowReads - 1 + 1 = d.rowReads by omega]

/-- By lines, a pair of groups is one piece. -/
theorem lines_closes {d : Descriptor} {q t : Nat} (hreads : d.rowReads = q * (16 * d.readsPerUnit)) :
    (d.closesGroup t = true ↔ t % (8 * d.readsPerUnit) = 8 * d.readsPerUnit - 1) ∧
      (d.closesGroup t = true → 3 < t / d.readsPerUnit % 8) ∧
      (d.closesGroup t = true ∧ t / d.readsPerUnit % 16 = 15 ↔
        t % (16 * d.readsPerUnit) = 16 * d.readsPerUnit - 1) := by
  unfold Descriptor.closesGroup
  rw [hreads, decide_eq_true_iff]
  rcases d.readsPerUnit_cases with hunit | hunit | hunit <;> rw [hunit] <;> omega

theorem sum_flatMap {α : Type} (xs : List α) (f : α → List Nat) :
    (xs.flatMap f).sum = (xs.map fun x => (f x).sum).sum := by
  induction xs with
  | nil => rfl
  | cons x xs ih => rw [List.flatMap_cons, List.sum_append, ih, List.map_cons, List.sum_cons]

/-- Whatever way a row is written, its pieces have as many bytes. -/
theorem Accepted.row_sum (h : g.Accepted l) (nd row : Nat)
    (hserved : g.command.descriptor.conversionMode ∈ [21, 22, 25, 26] → g.planner.gather = false →
      g.command.descriptor.columns % 512 ≠ 1) :
    ((g.rowFragments nd row).map FragmentView.bytes).sum = g.command.descriptor.rowTotal l.format := by
  have hpos := Descriptor.rowReads_pos _ h.columns_pos
  have hunit : 0 < g.command.descriptor.readsPerUnit := by
    have := g.command.descriptor.readsPerUnit_cases
    omega
  have hsum : ((g.rowFragments nd row).map FragmentView.bytes).sum =
      ((List.range g.command.descriptor.rowReads).map fun t =>
        if g.command.descriptor.closesGroup t then ((g.piece nd row t).map Prod.snd).getD 0 else 0).sum := by
    rw [rowFragments, List.map_flatMap, sum_flatMap]
    congr 1
    refine List.map_congr_left fun t _ => ?_
    unfold fragment
    by_cases hcloses : g.command.descriptor.closesGroup t = true
    · rw [if_pos hcloses, if_pos hcloses]
      cases g.piece nd row t <;> simp
    · rw [if_neg hcloses, if_neg hcloses]
      rfl
  rw [hsum]
  rcases h.lines hserved with hplain | ⟨hgather, haligned, htail, q, hq, hreads⟩
  · have hpiece (t : Nat) : ((g.piece nd row t).map Prod.snd).getD 0 =
        g.planner.rowBytes (t / g.command.descriptor.readsPerUnit)
          (decide (t + 1 = g.command.descriptor.rowReads)) := by
      rw [piece, hplain t]
      rfl
    simp only [hpiece]
    obtain ⟨n, hn⟩ : ∃ n, g.command.descriptor.rowReads = n + 1 := ⟨_, (Nat.succ_pred hpos.ne').symm⟩
    have hlast := closes_last hpos
    rw [hn, Nat.add_sub_cancel] at hlast
    rw [Descriptor.rowTotal, hn, List.range_succ, List.map_append, List.sum_append, List.map_singleton,
      List.sum_singleton, hlast, if_pos rfl, decide_eq_true rfl, (h.rowBytes _).2, Nat.add_sub_cancel,
      Descriptor.sum_rounds (w := 8 * g.command.descriptor.readsPerUnit) (z := 256) (by omega)]
    · have hdiv : n / (8 * g.command.descriptor.readsPerUnit) = n / g.command.descriptor.readsPerUnit / 8 := by
        rw [Nat.mul_comm, Nat.div_div_eq_div_mul]
      rw [hdiv]
      omega
    · intro t ht
      rw [closes_before (by omega), decide_eq_false (show ¬ t + 1 = n + 1 by omega), (h.rowBytes _).1]
      simp only [decide_eq_true_eq]
  · have hpiece : ∀ t < g.command.descriptor.rowReads,
        (if g.command.descriptor.closesGroup t then ((g.piece nd row t).map Prod.snd).getD 0 else 0) =
          if t % (16 * g.command.descriptor.readsPerUnit) = 16 * g.command.descriptor.readsPerUnit - 1 then 512
          else 0 := by
      intro t _
      obtain ⟨-, hlong, hpair⟩ := lines_closes (t := t) hreads
      by_cases hcloses : g.command.descriptor.closesGroup t = true
      · have hlines : g.byLines t = true := by simp [byLines, hlong hcloses, hgather, haligned]
        rw [if_pos hcloses, piece, hlines, if_pos rfl]
        by_cases hodd : t / g.command.descriptor.readsPerUnit % 16 = 15
        · rw [if_pos hodd, if_pos (hpair.mp ⟨hcloses, hodd⟩)]
          rfl
        · rw [if_neg hodd, if_neg fun hlast => hodd (hpair.mpr hlast).2]
          rfl
      · rw [if_neg hcloses, if_neg fun hlast => hcloses (hpair.mpr hlast).1]
    rw [List.map_congr_left fun t ht => hpiece t (List.mem_range.mp ht),
      Descriptor.sum_rounds (w := 16 * g.command.descriptor.readsPerUnit) (z := 512) (by omega) fun _ _ => rfl,
      Descriptor.rowTotal, htail, hreads, Nat.mul_div_cancel _ (by omega)]
    rcases g.command.descriptor.readsPerUnit_cases with hunit | hunit | hunit <;> rw [hunit] <;> simp <;> omega

end Nz2ndWriteGenerator

/-! ## Rows of bytes -/

namespace Layout

variable (l : Layout)

/-- The address of a byte of the destination. -/
def byteAt (offset : Nat) : Nat := (l.destination + offset) % u64

/-- The rows of the matrices, each by its matrix and its number. -/
def rowCells : List (Nat × Nat) :=
  (List.range l.ndCount).flatMap fun nd => (List.range l.descriptor.rows).map fun row => (nd, row)

/-- The bytes of the rows of the matrices. -/
def matrixBytes : List Nat :=
  (List.range l.ndCount).flatMap fun nd => (List.range l.descriptor.rows).flatMap fun row =>
    (List.range (l.format.storageBytes l.descriptor.columns)).map fun k => l.byteAt (l.destinationOffset nd row 0 + k)

variable {l : Layout}

theorem flatMap_rowCells {β : Type} (f : Nat → Nat → List β) :
    l.rowCells.flatMap (fun c => f c.1 c.2) =
      (List.range l.ndCount).flatMap fun nd => (List.range l.descriptor.rows).flatMap (f nd) := by
  rw [rowCells, List.flatMap_assoc]
  simp only [List.flatMap_map]

theorem range'_map {β : Type} (start n : Nat) (f : Nat → β) :
    (List.range' start n).map f = (List.range n).map fun k => f (start + k) := by
  rw [List.range'_eq_map_range, List.map_map]
  rfl

theorem matrixBytes_eq : l.matrixBytes = (l.rowCells.flatMap fun c =>
    List.range' (l.destinationOffset c.1 c.2 0) (l.format.storageBytes l.descriptor.columns)).map l.byteAt := by
  rw [List.map_flatMap, flatMap_rowCells fun nd row => (List.range' (l.destinationOffset nd row 0) _).map l.byteAt]
  simp only [range'_map]
  rfl

theorem byteAt_back {x : Nat} (hx : x < u64) : (l.byteAt x + u64 - l.destination % u64) % u64 = x := by
  unfold byteAt u64 at *
  omega

/-- Offsets of less than the address space have addresses of their own. -/
theorem perm_byteAt {a b : List Nat} (ha : ∀ x ∈ a, x < u64) (hb : ∀ x ∈ b, x < u64) :
    (a.map l.byteAt).Perm (b.map l.byteAt) ↔ a.Perm b := by
  refine ⟨fun h => ?_, fun h => h.map _⟩
  have hback {xs : List Nat} (hxs : ∀ x ∈ xs, x < u64) :
      (xs.map l.byteAt).map (fun y => (y + u64 - l.destination % u64) % u64) = xs := by
    rw [List.map_map]
    exact (List.map_congr_left fun x hx => byteAt_back (hxs x hx)).trans (List.map_id' xs)
  have hmap := h.map fun y => (y + u64 - l.destination % u64) % u64
  rwa [hback ha, hback hb] at hmap

end Layout

namespace Nz2ndWriteGenerator

variable {g : Nz2ndWriteGenerator} {l : Layout}

/-- The layout is made of the command. -/
theorem Accepted.layout_eq (h : g.Accepted l) : l.descriptor = g.command.descriptor ∧
    l.destination = g.command.destinationAddress.toNat ∧ l.ndCount = g.reads.ndCount ∧
    ∀ nd row, l.destinationOffset nd row 0 =
      l.format.storageBytes (nd * g.command.descriptor.destinationNdStride % u32) +
        l.format.storageBytes (row * g.command.descriptor.destinationStride % u32) := by
  have hlayout := h.layout
  have hplane := h.reads.plane
  have henabled := h.reads.enabled
  have hcount := h.reads.ndCount
  rw [h.command.1] at hplane henabled hcount
  unfold TransferCommand.layout Layout.new at hlayout
  split at hlayout
  · cases hlayout
  · cases hlayout
    refine ⟨rfl, rfl, ?_, fun nd row => ?_⟩
    · rw [hcount, Layout.ndCount, if_neg (by simp [henabled]), if_pos hplane]
    · unfold Layout.destinationOffset
      simp [hplane]

theorem Accepted.pieceAddress (h : g.Accepted l) (nd row t : Nat) :
    (g.pieceAddress nd row t).toNat =
      l.byteAt (l.destinationOffset nd row 0 + g.firstColumn t * l.format.storageBytes 16) := by
  obtain ⟨-, hdestination, -, hoffset⟩ := h.layout_eq
  unfold Nz2ndWriteGenerator.pieceAddress Layout.byteAt
  rw [hoffset, hdestination, h.format.1]
  simp only [UInt64.toNat_add, Nat.toUInt64_eq, UInt64.toNat_ofNat', Nat.add_mod_mod, Nat.mod_add_mod, u64,
    Nat.add_assoc]

theorem range_byteAt (f : FragmentView) {offset : Nat} (h : f.address.toNat = l.byteAt offset) :
    f.written = (List.range' offset f.bytes).map l.byteAt := by
  rw [Layout.range'_map, FragmentView.written, h]
  refine List.map_congr_left fun k _ => ?_
  unfold Layout.byteAt
  rw [Nat.mod_add_mod, Nat.add_assoc]

end Nz2ndWriteGenerator

/-! ## Rows as they are written -/

namespace Nz2ndWriteGenerator

variable {g : Nz2ndWriteGenerator} {l : Layout}

/-- Where a row is written: by lines, at the line that its second half of a line lies in. -/
def rowStart (g : Nz2ndWriteGenerator) (l : Layout) (nd row : Nat) : Nat :=
  if g.planner.aligned512 then (l.destinationOffset nd row 0 + 256) / 512 * 512 else l.destinationOffset nd row 0

/-- A group begins where the groups before it end. -/
theorem Accepted.group_address (h : g.Accepted l) (hgather : g.planner.gather = false)
    (hsingles : g.command.descriptor.conversionMode ∈ [17, 18] → g.command.descriptor.columns < 16) (nd row : Nat)
    {t : Nat} (ht : t < g.command.descriptor.rowReads) :
    (g.pieceAddress nd row t).toNat =
      l.byteAt (l.destinationOffset nd row 0 + t / (8 * g.command.descriptor.readsPerUnit) * 256) := by
  rw [h.pieceAddress, firstColumn, hgather, if_neg (by decide), h.kind.group_start hsingles ht]

/-- The pieces of a row that is not written by lines follow one another. -/
theorem Accepted.plain_written (h : g.Accepted l) (hgather : g.planner.gather = false)
    (haligned : g.planner.aligned512 = false)
    (hsingles : g.command.descriptor.conversionMode ∈ [17, 18] → g.command.descriptor.columns < 16) (nd row : Nat) :
    (g.rowFragments nd row).flatMap FragmentView.written =
      (List.range' (l.destinationOffset nd row 0) (g.command.descriptor.rowTotal l.format)).map l.byteAt := by
  have hpos := Descriptor.rowReads_pos _ h.columns_pos
  have hunit := g.command.descriptor.readsPerUnit_cases
  obtain ⟨n, hn⟩ : ∃ n, g.command.descriptor.rowReads = n + 1 := ⟨_, (Nat.succ_pred hpos.ne').symm⟩
  have hpiece : ∀ t < g.command.descriptor.rowReads, (g.fragment nd row t).toList.flatMap FragmentView.written =
      (List.range' (l.destinationOffset nd row 0 + t / (8 * g.command.descriptor.readsPerUnit) * 256)
        (g.planner.rowBytes (t / g.command.descriptor.readsPerUnit)
          (decide (t + 1 = g.command.descriptor.rowReads)))).map l.byteAt := by
    intro t ht
    have hlines : g.byLines t = false := by simp [byLines, haligned]
    rw [fragment, piece, hlines, if_neg (by decide), Option.map_some, Option.toList_some, List.flatMap_singleton]
    exact range_byteAt _ (h.group_address hgather hsingles nd row ht)
  have hlast := closes_last hpos
  rw [hn, Nat.add_sub_cancel] at hlast
  have hfull : ∀ t < n, (if g.command.descriptor.closesGroup t then (g.fragment nd row t).toList else []).flatMap
      FragmentView.written =
        (if t % (8 * g.command.descriptor.readsPerUnit) = 8 * g.command.descriptor.readsPerUnit - 1 then
          List.range' (l.destinationOffset nd row 0 + t / (8 * g.command.descriptor.readsPerUnit) * 256) 256
        else []).map l.byteAt := by
    intro t ht
    rw [closes_before (by omega)]
    simp only [decide_eq_true_eq]
    by_cases hclosed : t % (8 * g.command.descriptor.readsPerUnit) = 8 * g.command.descriptor.readsPerUnit - 1
    · rw [if_pos hclosed, if_pos hclosed, hpiece t (by omega), decide_eq_false (by omega), (h.rowBytes _).1]
    · rw [if_neg hclosed, if_neg hclosed]
      rfl
  have hdiv : n / (8 * g.command.descriptor.readsPerUnit) = n / g.command.descriptor.readsPerUnit / 8 := by
    rw [Nat.mul_comm, Nat.div_div_eq_div_mul]
  rw [rowFragments, List.flatMap_assoc, hn, List.range_succ, List.flatMap_append, flatMap_congr_range hfull,
    ← List.map_flatMap, Descriptor.flatMap_rounds (w := 8 * g.command.descriptor.readsPerUnit) (z := 256) (by omega)
      fun _ _ => rfl, List.flatMap_singleton, hlast, if_pos rfl, hpiece n (by omega), hn, decide_eq_true rfl,
    (h.rowBytes _).2, ← List.map_append, List.range'_append_1]
  congr 2
  rw [Descriptor.rowTotal, hn, Nat.add_sub_cancel, hdiv]
  omega

/-- The pieces of a row that is written by lines follow one another. -/
theorem Accepted.lines_written (h : g.Accepted l) (hgather : g.planner.gather = false)
    (haligned : g.planner.aligned512 = true)
    (hserved : g.command.descriptor.conversionMode ∈ [21, 22, 25, 26] → g.command.descriptor.columns % 512 ≠ 1)
    (hsingles : g.command.descriptor.conversionMode ∈ [17, 18] → g.command.descriptor.columns < 16) (nd row : Nat) :
    (g.rowFragments nd row).flatMap FragmentView.written =
      (List.range' ((l.destinationOffset nd row 0 + 256) / 512 * 512) (g.command.descriptor.rowTotal l.format)).map
        l.byteAt := by
  obtain ⟨htail, q, hq, hreads⟩ := h.aligned_lines haligned hserved
  have hunit := g.command.descriptor.readsPerUnit_cases
  have hdestination : l.destination % 512 = 0 := by
    rw [h.aligned, Nz2ndWritePlanner.isAligned512, decide_eq_true_iff] at haligned
    rw [h.layout_eq.2.1]
    exact haligned.2.1
  have hpiece : ∀ t < g.command.descriptor.rowReads,
      (if g.command.descriptor.closesGroup t then (g.fragment nd row t).toList else []).flatMap FragmentView.written =
        (if t % (16 * g.command.descriptor.readsPerUnit) = 16 * g.command.descriptor.readsPerUnit - 1 then
          List.range' ((l.destinationOffset nd row 0 + 256) / 512 * 512 +
            t / (16 * g.command.descriptor.readsPerUnit) * 512) 512
        else []).map l.byteAt := by
    intro t ht
    obtain ⟨-, hlong, hpair⟩ := lines_closes (t := t) hreads
    by_cases hcloses : g.command.descriptor.closesGroup t = true
    · have hlines : g.byLines t = true := by simp [byLines, hlong hcloses, hgather, haligned]
      rw [if_pos hcloses, fragment, piece, hlines, if_pos rfl]
      by_cases hodd : t / g.command.descriptor.readsPerUnit % 16 = 15
      · rw [if_pos hodd, if_pos (hpair.mp ⟨hcloses, hodd⟩), Option.map_some, Option.toList_some,
          List.flatMap_singleton]
        refine range_byteAt _ ?_
        have haddress := h.group_address hgather hsingles nd row ht
        have hsecond : t / (8 * g.command.descriptor.readsPerUnit) =
            2 * (t / (16 * g.command.descriptor.readsPerUnit)) + 1 := by
          rcases hunit with hu | hu | hu <;> rw [hu] at hodd ⊢ <;> omega
        rw [hsecond] at haddress
        show ((g.pieceAddress nd row t).toNat / 512 * 512).toUInt64.toNat = _
        rw [haddress, Nat.toUInt64_eq, UInt64.toNat_ofNat']
        unfold Layout.byteAt u64
        omega
      · rw [if_neg hodd, if_neg fun hlast => hodd (hpair.mpr hlast).2]
        rfl
    · rw [if_neg hcloses, if_neg fun hlast => hcloses (hpair.mpr hlast).1]
      rfl
  rw [rowFragments, List.flatMap_assoc, flatMap_congr_range hpiece, ← List.map_flatMap,
    Descriptor.flatMap_rounds (w := 16 * g.command.descriptor.readsPerUnit) (z := 512) (by omega) fun _ _ => rfl]
  congr 2
  rw [Descriptor.rowTotal, htail, hreads, Nat.mul_div_cancel _ (by omega)]
  rcases hunit with hu | hu | hu <;> rw [hu] <;> simp <;> omega

theorem Accepted.row_written (h : g.Accepted l) (hgather : g.planner.gather = false)
    (hserved : g.command.descriptor.conversionMode ∈ [21, 22, 25, 26] → g.command.descriptor.columns % 512 ≠ 1)
    (hsingles : g.command.descriptor.conversionMode ∈ [17, 18] → g.command.descriptor.columns < 16) (nd row : Nat) :
    (g.rowFragments nd row).flatMap FragmentView.written =
      (List.range' (g.rowStart l nd row) (g.command.descriptor.rowTotal l.format)).map l.byteAt := by
  unfold rowStart
  cases haligned : g.planner.aligned512 with
  | false => exact h.plain_written hgather haligned hsingles nd row
  | true => exact h.lines_written hgather haligned hserved hsingles nd row

end Nz2ndWriteGenerator

/-! ## Ends -/

namespace Nz2ndWriteGenerator

variable {g : Nz2ndWriteGenerator} {l : Layout}

/-- The fragments of a matrix end with one that is closed; only it may be the last. -/
structure Ends (g : Nz2ndWriteGenerator) (nd : Nat) (before : List FragmentView) (f : FragmentView) : Prop where
  closed : f.closed = true
  last : f.last = decide (nd + 1 = g.command.descriptor.ndCount)
  before : ∀ x ∈ before, x.last = false ∧ x.closed = !g.planner.gather

/-- A group at the end of a row is written. -/
theorem Accepted.last_piece (h : g.Accepted l)
    (hserved : g.command.descriptor.conversionMode ∈ [21, 22, 25, 26] → g.planner.gather = false →
      g.command.descriptor.columns % 512 ≠ 1) (nd row : Nat) {n : Nat} (hn : g.command.descriptor.rowReads = n + 1) :
    ∃ f, g.fragment nd row n = some f := by
  rw [← Option.isSome_iff_exists, fragment, Option.isSome_map, piece]
  rcases h.lines hserved with hplain | ⟨-, -, -, q, hq, hreads⟩
  · rw [hplain n]
    rfl
  · have hclosed : g.command.descriptor.closesGroup n = true := by simp [Descriptor.closesGroup, hn]
    have hpair : n % (16 * g.command.descriptor.readsPerUnit) = 16 * g.command.descriptor.readsPerUnit - 1 := by
      obtain ⟨q, rfl⟩ : ∃ p, q = p + 1 := ⟨q - 1, by omega⟩
      have hunit := g.command.descriptor.readsPerUnit_cases
      rw [hn] at hreads
      rcases hunit with hu | hu | hu <;> rw [hu] at hreads ⊢ <;> omega
    rw [if_pos ((lines_closes hreads).2.2.mpr hpair).2]
    split_ifs <;> rfl

/-- A fragment of an earlier row, or of an earlier group, does not end its matrix. -/
theorem fragment_before {nd row t : Nat} {x : FragmentView} (hx : x ∈ (g.fragment nd row t).toList)
    (hends : row + 1 ≠ g.command.descriptor.rows ∨ t + 1 ≠ g.command.descriptor.rowReads) :
    x.last = false ∧ x.closed = !g.planner.gather := by
  rw [Option.mem_toList, fragment, Option.map_eq_some_iff] at hx
  obtain ⟨p, -, rfl⟩ := hx
  have hnot : g.endsMatrix row t = false := by
    rw [endsMatrix, decide_eq_false_iff_not]
    omega
  simp [hnot]

theorem Accepted.matrix_ends (h : g.Accepted l)
    (hserved : g.command.descriptor.conversionMode ∈ [21, 22, 25, 26] → g.planner.gather = false →
      g.command.descriptor.columns % 512 ≠ 1) {nd : Nat} {fragments : List FragmentView}
    (hf : g.MatrixFragments nd fragments) : ∃ before f, fragments = before ++ [f] ∧ g.Ends nd before f := by
  obtain ⟨rows, htiles, rfl⟩ := hf
  have hextents := h.reads.extents.1
  rw [h.command.1] at hextents
  have hpos := Descriptor.rowReads_pos _ h.columns_pos
  obtain ⟨n, hn⟩ : ∃ n, g.command.descriptor.rowReads = n + 1 := ⟨_, (Nat.succ_pred hpos.ne').symm⟩
  rcases List.eq_nil_or_concat rows with rfl | ⟨rows, row, rfl⟩
  · exact absurd htiles hextents.ne
  rw [List.concat_eq_append, tiles_append] at htiles
  obtain ⟨m, htiles, hrow, hcount, hend⟩ := htiles
  simp only [id, Tiles] at hrow hend
  subst hrow
  obtain ⟨k, hk⟩ : ∃ k, g.reads.rowsAt nd row = k + 1 := ⟨_, (Nat.succ_pred hcount.ne').symm⟩
  obtain ⟨f, hlast⟩ := h.last_piece hserved nd (row + k) hn
  have hfields := hlast
  rw [fragment, Option.map_eq_some_iff] at hfields
  obtain ⟨p, -, rfl⟩ := hfields
  have hends : g.endsMatrix (row + k) n = true := by
    rw [endsMatrix, decide_eq_true_iff]
    omega
  have hblock : g.blockFragments nd row = _ := h.blockFragments hend.le
  rw [hn, List.range_succ, List.flatMap_append, List.flatMap_singleton, if_pos (by simp [Descriptor.closesGroup, hn]),
    hk, List.range_succ, List.flatMap_append, List.flatMap_singleton, hlast, Option.toList_some] at hblock
  rw [List.concat_eq_append, List.flatMap_append, List.flatMap_singleton, hblock, ← List.append_assoc,
    ← List.append_assoc]
  refine ⟨_, _, rfl, ⟨by simp [hends], by simp [hends], fun x hx => ?_⟩⟩
  rw [List.mem_append, List.mem_append] at hx
  rcases hx with (hx | hx) | hx
  · -- a row of an earlier block
    obtain ⟨row', hrow', hx⟩ := List.mem_flatMap.mp hx
    have hbounds := htiles.bounds hrow'
    simp only [id] at hbounds
    rw [h.blockFragments (by omega)] at hx
    obtain ⟨t, -, hx⟩ := List.mem_flatMap.mp hx
    split_ifs at hx
    · obtain ⟨i, hi, hx⟩ := List.mem_flatMap.mp hx
      have hlt := List.mem_range.mp hi
      exact fragment_before hx (.inl (by omega))
    · cases hx
  · -- an earlier group of the last block
    obtain ⟨t, ht, hx⟩ := List.mem_flatMap.mp hx
    have hlt := List.mem_range.mp ht
    split_ifs at hx
    · obtain ⟨i, -, hx⟩ := List.mem_flatMap.mp hx
      exact fragment_before hx (.inr (by omega))
    · cases hx
  · -- an earlier row of the last group
    obtain ⟨i, hi, hx⟩ := List.mem_flatMap.mp hx
    have hlt := List.mem_range.mp hi
    exact fragment_before hx (.inl (by omega))

theorem first_flatMap {α β : Type} {P : β → Prop} {F : α → List β} {xs : List α}
    (h : ∀ x ∈ xs, F x = [] ∨ ∃ f rest, F x = f :: rest ∧ P f) (hne : xs.flatMap F ≠ []) :
    ∃ f rest, xs.flatMap F = f :: rest ∧ P f := by
  induction xs with
  | nil => exact absurd rfl hne
  | cons x xs ih =>
    rw [List.flatMap_cons] at hne ⊢
    rcases h x (List.mem_cons_self ..) with hnil | ⟨f, rest, hcons, hf⟩
    · rw [hnil, List.nil_append] at hne ⊢
      exact ih (fun y hy => h y (List.mem_cons_of_mem _ hy)) hne
    · rw [hcons, List.cons_append]
      exact ⟨f, _, rfl, hf⟩

/-- The first fragment of a matrix that is gathered is at the matrix. -/
theorem Accepted.matrix_begins (h : g.Accepted l) (hgather : g.planner.gather = true) {nd : Nat}
    {fragments : List FragmentView} (hf : g.MatrixFragments nd fragments) :
    ∃ f rest, fragments = f :: rest ∧ f.address.toNat = l.byteAt (l.destinationOffset nd 0 0) := by
  obtain ⟨rows, htiles, rfl⟩ := hf
  have hextents := h.reads.extents.1
  rw [h.command.1] at hextents
  have hpos := Descriptor.rowReads_pos _ h.columns_pos
  cases rows with
  | nil => exact absurd htiles hextents.ne
  | cons row rows =>
    obtain ⟨hrow, hcount, htiles⟩ := htiles
    simp only [id] at hrow
    subst hrow
    obtain ⟨k, hk⟩ : ∃ k, g.reads.rowsAt nd 0 = k + 1 := ⟨_, (Nat.succ_pred hcount.ne').symm⟩
    have hfragment (t : Nat) : ∃ f, g.fragment nd 0 t = some f ∧
        f.address.toNat = l.byteAt (l.destinationOffset nd 0 0) := by
      have hlines : g.byLines t = false := by simp [byLines, hgather]
      rw [fragment, piece, hlines, if_neg (by decide), Option.map_some]
      refine ⟨_, rfl, ?_⟩
      have haddress := h.pieceAddress nd 0 t
      rwa [firstColumn, hgather, if_pos rfl, Nat.zero_mul, Nat.add_zero] at haddress
    have hblock : g.blockFragments nd 0 = _ := h.blockFragments htiles.le
    have hgroup (t : Nat) (hcloses : g.command.descriptor.closesGroup t = true) :
        ∃ f rest, (if g.command.descriptor.closesGroup t then
          (List.range (g.reads.rowsAt nd 0)).flatMap fun i => (g.fragment nd (0 + i) t).toList else []) = f :: rest ∧
            f.address.toNat = l.byteAt (l.destinationOffset nd 0 0) := by
      obtain ⟨f, hsome, haddress⟩ := hfragment t
      rw [if_pos hcloses, hk, List.range_succ_eq_map, List.flatMap_cons, Nat.add_zero, hsome]
      exact ⟨f, _, rfl, haddress⟩
    rw [List.flatMap_cons, hblock]
    obtain ⟨f, rest, hcons, haddress⟩ : ∃ f rest, (List.range g.command.descriptor.rowReads).flatMap (fun t =>
        if g.command.descriptor.closesGroup t then
          (List.range (g.reads.rowsAt nd 0)).flatMap fun i => (g.fragment nd (0 + i) t).toList else []) = f :: rest ∧
            f.address.toNat = l.byteAt (l.destinationOffset nd 0 0) :=
      first_flatMap (fun t _ => by
        by_cases hcloses : g.command.descriptor.closesGroup t = true
        · exact .inr (hgroup t hcloses)
        · exact .inl (if_neg hcloses))
      (fun hnil => by
        rw [List.flatMap_eq_nil_iff] at hnil
        obtain ⟨f, rest, hcons, -⟩ := hgroup _ (closes_last hpos)
        rw [hnil _ (List.mem_range.mpr (Nat.sub_lt hpos Nat.zero_lt_one))] at hcons
        cases hcons)
    rw [hcons, List.cons_append]
    exact ⟨f, _, rfl, haddress⟩

end Nz2ndWriteGenerator

/-! ## Bursts -/

def ExternalBurst.view (b : ExternalBurst) : FragmentView :=
  ⟨b.address, b.bytes, b.closed, b.lastInInstruction, b.gather, b.rowBytes⟩

/-- What is the same of all bursts of rows. -/
structure RowBurst (policy : ExternalOutputPolicy) (b : ExternalBurst) : Prop where
  offset : b.rowOffset = 0
  policy : b.policy = policy

/-- A view of a burst of at most one row, which is closed. -/
structure FragmentView.Whole (v : FragmentView) : Prop where
  closed : v.closed = true
  bytes : v.bytes < u32
  row : v.gather = false → v.rowBytes = v.bytes

theorem rowBurst_view (policy : ExternalOutputPolicy) (tick : Nat) (op : Nz2ndWriteUop) :
    (rowBurst policy tick op).map ExternalBurst.view = op.view := by
  unfold rowBurst Nz2ndWriteUop.view
  by_cases hlast : op.descriptor.lastInUop = true <;> simp [hlast, ExternalBurst.view]

/-- The fragments that are received are those that were credited. -/
theorem received_views (policy : ExternalOutputPolicy) {received : List (Nat × Nz2ndWriteUop)}
    {writes : List (Option Nz2ndWriteUop)} (h : received.map Prod.snd = writes.reduceOption) :
    (received.filterMap fun r => rowBurst policy r.1 r.2).map ExternalBurst.view = credited writes := by
  have hviews : (received.filterMap fun r => rowBurst policy r.1 r.2).map ExternalBurst.view =
      (received.map Prod.snd).filterMap Nz2ndWriteUop.view := by
    rw [List.map_filterMap, List.filterMap_map]
    exact List.filterMap_congr fun r _ => rowBurst_view policy r.1 r.2
  rw [hviews, h, List.reduceOption, List.filterMap_filterMap]
  rfl

theorem received_rows {policy : ExternalOutputPolicy} {received : List (Nat × Nz2ndWriteUop)} :
    ∀ b ∈ received.filterMap (fun r => rowBurst policy r.1 r.2), RowBurst policy b := by
  intro b hb
  obtain ⟨r, -, hr⟩ := List.mem_filterMap.mp hb
  unfold rowBurst at hr
  dsimp only at hr
  split_ifs at hr
  cases hr
  exact ⟨rfl, rfl⟩

namespace ExternalBurst

variable {b : ExternalBurst} {control : UInt64} {stride : Nat}

theorem closed_of_whole (h : RowBurst (.new control stride) b) (hw : b.view.Whole) : b.Closed where
  closed := hw.closed
  policy := ⟨control, stride, h.policy⟩
  bytes := hw.bytes
  row hgather := by
    have hrow := hw.row hgather
    rw [h.offset, Nat.zero_add]
    exact hrow.symm

theorem leftBytes_view (h : b.rowOffset = 0) : b.leftBytes = b.view.written := by
  have haddress : b.packetAddress = b.address := by
    unfold packetAddress
    rw [h]
    split_ifs
    · rfl
    · exact UInt64.add_zero _
  rw [leftBytes, haddress]
  rfl

/-- Closed bursts are cut into packets if there is no empty row among them. -/
theorem cuts_iff {bursts : List ExternalBurst} (hclosed : ∀ b ∈ bursts, b.Closed) (bytes : List Nat) :
    (∃ packets, List.Forall₂ Cut bursts packets ∧
        (packets.flatten.flatMap MteOutputFragment.written).Perm bytes) ↔
      (∀ b ∈ bursts, b.gather = true ∨ 0 < b.bytes) ∧ (bursts.flatMap leftBytes).Perm bytes := by
  constructor
  · rintro ⟨packets, hcuts, hperm⟩
    have hall : (∀ b ∈ bursts, b.gather = true ∨ 0 < b.bytes) ∧
        packets.flatten.flatMap MteOutputFragment.written = bursts.flatMap leftBytes := by
      clear hperm
      induction hcuts with
      | nil => simp
      | @cons b l bursts packets hcut hcuts ih =>
        obtain ⟨hserved, hwritten⟩ := hcut.written (hclosed b (List.mem_cons_self ..))
        obtain ⟨hserved', hwritten'⟩ := ih fun b' hb' => hclosed b' (List.mem_cons_of_mem _ hb')
        refine ⟨List.forall_mem_cons.mpr ⟨hserved, hserved'⟩, ?_⟩
        rw [List.flatten_cons, List.flatMap_append, List.flatMap_cons, hwritten, hwritten']
    rw [hall.2] at hperm
    exact ⟨hall.1, hperm⟩
  · rintro ⟨hserved, hperm⟩
    have hall : ∃ packets, List.Forall₂ Cut bursts packets ∧
        packets.flatten.flatMap MteOutputFragment.written = bursts.flatMap leftBytes := by
      clear hperm
      induction bursts with
      | nil => exact ⟨[], .nil, rfl⟩
      | cons b bursts ih =>
        obtain ⟨l, hcut, hwritten⟩ := (hclosed b (List.mem_cons_self ..)).cut (hserved b (List.mem_cons_self ..))
        obtain ⟨packets, hcuts, hwritten'⟩ := ih (fun b' hb' => hclosed b' (List.mem_cons_of_mem _ hb'))
          fun b' hb' => hserved b' (List.mem_cons_of_mem _ hb')
        refine ⟨l :: packets, .cons hcut hcuts, ?_⟩
        rw [List.flatten_cons, List.flatMap_append, List.flatMap_cons, hwritten, hwritten']
    obtain ⟨packets, hcuts, hwritten⟩ := hall
    exact ⟨packets, hcuts, hwritten ▸ hperm⟩

end ExternalBurst

/-- The bursts are cut into packets that cover the rows of the matrices, and the last of them is marked. -/
structure Covers (l : Layout) (bursts : List ExternalBurst) : Prop where
  packets : ∃ packets, List.Forall₂ ExternalBurst.Cut bursts packets ∧
    (packets.flatten.flatMap MteOutputFragment.written).Perm l.matrixBytes
  marks : ∀ before b after, bursts = before ++ b :: after → (b.lastInInstruction = true ↔ after = [])

/-- What the views of the bursts say of the packets. -/
theorem covers_of_views {l : Layout} {control : UInt64} {stride : Nat} {bursts : List ExternalBurst}
    {views : List FragmentView} (hrows : ∀ b ∈ bursts, RowBurst (.new control stride) b)
    (hviews : bursts.map ExternalBurst.view = views) (hwhole : ∀ v ∈ views, v.Whole) :
    (Covers l bursts → (∀ v ∈ views, v.gather = true ∨ 0 < v.bytes) ∧
        (views.flatMap FragmentView.written).Perm l.matrixBytes) ∧
      (∀ before v, views = before ++ [v] → v.last = true → (∀ x ∈ before, x.last = false) →
        (∀ v ∈ views, v.gather = true ∨ 0 < v.bytes) →
        (views.flatMap FragmentView.written).Perm l.matrixBytes → Covers l bursts) := by
  subst hviews
  have hclosed : ∀ b ∈ bursts, b.Closed := fun b hb =>
    ExternalBurst.closed_of_whole (hrows b hb) (hwhole _ (List.mem_map_of_mem hb))
  have hwritten : (bursts.map ExternalBurst.view).flatMap FragmentView.written =
      bursts.flatMap ExternalBurst.leftBytes := by
    rw [List.flatMap_map]
    exact List.flatMap_congr fun b hb => (ExternalBurst.leftBytes_view (hrows b hb).offset).symm
  have hserved : (∀ v ∈ bursts.map ExternalBurst.view, v.gather = true ∨ 0 < v.bytes) ↔
      ∀ b ∈ bursts, b.gather = true ∨ 0 < b.bytes := List.forall_mem_map
  rw [hserved, hwritten]
  refine ⟨fun h => (ExternalBurst.cuts_iff hclosed _).mp h.packets, fun before v hlast hv hbefore hs hperm => ?_⟩
  refine ⟨(ExternalBurst.cuts_iff hclosed _).mpr ⟨hs, hperm⟩, ?_⟩
  rintro first b after rfl
  rw [List.map_append, List.map_cons] at hlast
  rcases List.eq_nil_or_concat after with rfl | ⟨rest, x, rfl⟩
  · obtain ⟨-, hb⟩ := List.append_inj' hlast rfl
    have hview : b.view = v := (List.cons.inj hb).1
    exact iff_of_true ((congrArg FragmentView.last hview).trans hv) rfl
  · rw [List.concat_eq_append, List.map_append, ← List.cons_append, ← List.append_assoc] at hlast
    obtain ⟨hfirst, -⟩ := List.append_inj' hlast rfl
    have hmem : b.view ∈ before := by
      rw [← hfirst]
      simp
    have hnot : b.lastInInstruction = false := hbefore _ hmem
    simp [hnot]

/-! ## Exactness -/

/-- The commands whose writes cover the layout: the tail of a row is as long as the last columns, no row that is written
alone is empty, no lane of a gathered matrix is left unpaired, and rows written by lines begin at lines. -/
structure Exact (c : TransferCommand) (l : Layout) : Prop where
  pairs : c.descriptor.conversionMode ∈ [8, 9, 23, 24] → c.descriptor.columns % 32 < 16
  fours : c.descriptor.conversionMode ∈ [21, 22, 25, 26] → c.descriptor.columns % 64 < 16
  singles : c.descriptor.conversionMode ∈ [17, 18] → c.descriptor.columns < 16
  served : c.descriptor.conversionMode ∈ [21, 22, 25, 26] →
    Nz2ndWritePlanner.gathers c.descriptor l.format 8 = false → c.descriptor.columns % 512 ≠ 1
  unpaired : c.descriptor.conversionMode ∈ [21, 22, 25, 26] →
    Nz2ndWritePlanner.gathers c.descriptor l.format 8 = true → c.descriptor.columns % 2 = 1 →
      c.descriptor.columns = 1 ∨ c.descriptor.rows ≤ 2
  lines : Nz2ndWritePlanner.gathers c.descriptor l.format 8 = false →
    Nz2ndWritePlanner.isAligned512 c.descriptor l.format c.destinationAddress = true →
      ∀ nd < l.ndCount, ∀ row < c.descriptor.rows, l.destinationOffset nd row 0 % 512 = 0

namespace Nz2ndWriteGenerator

variable {g : Nz2ndWriteGenerator} {l : Layout}

theorem Accepted.rows_eq (h : g.Accepted l) : l.descriptor.rows = g.command.descriptor.rows := by
  rw [h.layout_eq.1]

/-- A row takes less than 2^15 bytes, however it is counted. -/
theorem Accepted.stored_lt (h : g.Accepted l) {n : Nat} (hn : n ≤ 4096) : l.format.storageBytes n ≤ 2 ^ 14 := by
  rcases h.kind with ⟨-, -, -, hstored⟩ | ⟨-, -, -, hstored⟩ | ⟨-, -, -, hstored⟩ | ⟨-, -, -, hstored⟩ |
    ⟨-, -, -, hstored⟩ <;> rw [hstored n (RowKind.stored_word hn)] <;> omega

/-- What a fragment is like, whatever row it is of. -/
theorem Accepted.fragment_whole (h : g.Accepted l) {nd row t : Nat} {x : FragmentView}
    (hx : g.fragment nd row t = some x) (hgather : g.planner.gather = false) :
    x.Whole ∧ x.gather = false := by
  rw [fragment, Option.map_eq_some_iff] at hx
  obtain ⟨p, hp, rfl⟩ := hx
  have hbytes : p.2 < u32 := by
    have hrow := h.rowBytes (t / g.command.descriptor.readsPerUnit)
    have htail := h.stored_lt (RowKind.tailLanes_le g.command.descriptor)
    unfold piece at hp
    unfold u32
    dsimp only at hp
    split_ifs at hp
    · cases hp
      show 512 < 2 ^ 32
      decide
    · cases hp
      show g.planner.rowBytes _ _ < _
      cases decide (t + 1 = g.command.descriptor.rowReads) with
      | false => rw [hrow.1]; decide
      | true =>
        rw [hrow.2]
        split_ifs <;> omega
  exact ⟨⟨by simp [hgather], hbytes, fun _ => by simp [hgather]⟩, hgather⟩

/-- The fragments of the rows are those of the matrix. -/
theorem Accepted.mem_matrix (h : g.Accepted l) {nd : Nat} {fragments : List FragmentView}
    (hf : g.MatrixFragments nd fragments) {x : FragmentView} :
    x ∈ fragments ↔ ∃ row < g.command.descriptor.rows, ∃ t < g.command.descriptor.rowReads,
      g.command.descriptor.closesGroup t = true ∧ g.fragment nd row t = some x := by
  rw [(h.matrix_perm hf).mem_iff]
  simp only [rowFragments, List.mem_flatMap, List.mem_range]
  constructor
  · rintro ⟨row, hrow, t, ht, hx⟩
    split_ifs at hx with hcloses
    · exact ⟨row, hrow, t, ht, hcloses, Option.mem_toList.mp hx⟩
    · cases hx
  · rintro ⟨row, hrow, t, ht, hcloses, hx⟩
    exact ⟨row, hrow, t, ht, by rw [if_pos hcloses, hx]; simp⟩

/-- A row that is written alone has bytes in every piece, but for one lane of four bits behind whole groups. -/
theorem Accepted.fragment_pos (h : g.Accepted l)
    (hfours : g.command.descriptor.conversionMode ∈ [21, 22, 25, 26] → g.command.descriptor.columns % 64 < 16)
    (hserved : g.command.descriptor.conversionMode ∈ [21, 22, 25, 26] → g.command.descriptor.columns % 512 ≠ 1)
    {nd row t : Nat} {x : FragmentView} (hx : g.fragment nd row t = some x) : 0 < x.bytes := by
  rw [fragment, Option.map_eq_some_iff] at hx
  obtain ⟨p, hp, rfl⟩ := hx
  show 0 < p.2
  have hrow := h.rowBytes (t / g.command.descriptor.readsPerUnit)
  unfold piece at hp
  dsimp only at hp
  split_ifs at hp
  · cases hp
    show 0 < 512
    decide
  · cases hp
    show 0 < g.planner.rowBytes _ _
    by_cases hlast : t + 1 = g.command.descriptor.rowReads
    · rw [decide_eq_true hlast, hrow.2]
      have htail := RowKind.tailLanes_le g.command.descriptor
      split_ifs with hne
      · rcases h.kind with ⟨-, -, -, hstored⟩ | ⟨-, -, -, hstored⟩ | ⟨-, -, -, hstored⟩ | ⟨-, -, -, hstored⟩ |
          ⟨hmode, hcounts, hreads, hstored⟩
        · rw [hstored _ (RowKind.stored_word htail)]; omega
        · rw [hstored _ (RowKind.stored_word htail)]; omega
        · rw [hstored _ (RowKind.stored_word htail)]; omega
        · rw [hstored _ (RowKind.stored_word htail)]; omega
        · have hzero := RowKind.modes_apart hmode (show ∀ mode ∈ [21, 22, 25, 26], mode ∉ [0] by decide)
          have hsixtyfour := hfours hmode
          have hone := hserved hmode
          rw [RowKind.tailLanes_one (by simpa using hzero)] at hne ⊢
          rw [hstored _ (by omega), hcounts.1]
          omega
      · omega
    · rw [decide_eq_false hlast, hrow.1]
      decide

/-- Lanes of four bits are read one block at a time, and converted four blocks at a time. -/
theorem Accepted.fours_counts (h : g.Accepted l)
    (hmode : g.command.descriptor.conversionMode ∈ [21, 22, 25, 26]) :
    g.command.descriptor.readsPerUnit = 4 ∧
      g.command.descriptor.rowReads = (g.command.descriptor.columns + 15) / 16 ∧
      ∀ n ≤ 2 ^ 28, l.format.storageBytes n = n / 2 := by
  cases h.kind with
  | words hmode' => simp [hmode'] at hmode
  | halves hmode' =>
    simp only [List.mem_append] at hmode'
    tauto
  | singles hmode' => exact absurd hmode (RowKind.modes_apart hmode' (by decide))
  | pairs hmode' => exact absurd hmode (RowKind.modes_apart hmode' (by decide))
  | fours _ hcounts hreads hstored => exact ⟨hcounts.1, hreads, hstored⟩

theorem Accepted.fours_stored (h : g.Accepted l)
    (hmode : g.command.descriptor.conversionMode ∈ [21, 22, 25, 26]) :
    ∀ n ≤ 2 ^ 28, l.format.storageBytes n = n / 2 :=
  (h.fours_counts hmode).2.2

/-- One lane of four bits behind whole groups gives an empty piece. -/
theorem Accepted.fragment_empty (h : g.Accepted l) (hmode : g.command.descriptor.conversionMode ∈ [21, 22, 25, 26])
    (hone : g.command.descriptor.columns % 512 = 1) (nd row : Nat) :
    ∃ t < g.command.descriptor.rowReads, g.command.descriptor.closesGroup t = true ∧
      ∃ x, g.fragment nd row t = some x ∧ x.bytes = 0 := by
  have hzero := RowKind.modes_apart hmode (show ∀ mode ∈ [21, 22, 25, 26], mode ∉ [0] by decide)
  obtain ⟨hunit, hreads, hstored⟩ := h.fours_counts hmode
  have hpos := Descriptor.rowReads_pos _ h.columns_pos
  refine ⟨g.command.descriptor.rowReads - 1, by omega, closes_last hpos, ?_⟩
  have hlines : g.byLines (g.command.descriptor.rowReads - 1) = false := by
    have hfirst : ¬ 3 < (g.command.descriptor.rowReads - 1) / g.command.descriptor.readsPerUnit % 8 := by
      rw [hunit, hreads]
      omega
    simp [byLines, hfirst]
  rw [fragment, piece, hlines, if_neg (by decide), Option.map_some]
  refine ⟨_, rfl, ?_⟩
  show g.planner.rowBytes _ _ = 0
  rw [decide_eq_true (by omega), (h.rowBytes _).2, RowKind.tailLanes_one (by simpa using hzero),
    show g.command.descriptor.columns % 16 = 1 by omega, if_pos (by decide), hstored 1 (by decide), hunit, hreads]
  omega

end Nz2ndWriteGenerator

/-! ## All bytes -/

namespace Nz2ndWriteGenerator

variable {g : Nz2ndWriteGenerator} {l : Layout} {F : Nat → List FragmentView}

theorem length_written (fragments : List FragmentView) :
    (fragments.flatMap FragmentView.written).length = (fragments.map FragmentView.bytes).sum := by
  rw [List.length_flatMap]
  congr 1
  exact List.map_congr_left fun f _ => by simp [FragmentView.written]

theorem sum_range_const (n c : Nat) {f : Nat → Nat} (hf : ∀ i < n, f i = c) : ((List.range n).map f).sum = n * c := by
  rw [List.map_congr_left fun i hi => hf i (List.mem_range.mp hi)]
  simp

/-- The fragments of a matrix have as many bytes as the planner counts. -/
theorem Accepted.matrix_sum (h : g.Accepted l)
    (hserved : g.command.descriptor.conversionMode ∈ [21, 22, 25, 26] → g.planner.gather = false →
      g.command.descriptor.columns % 512 ≠ 1) {nd : Nat} {fragments : List FragmentView}
    (hf : g.MatrixFragments nd fragments) :
    (fragments.map FragmentView.bytes).sum =
      g.command.descriptor.rows * g.command.descriptor.rowTotal l.format := by
  rw [((h.matrix_perm hf).map FragmentView.bytes).sum_eq, List.map_flatMap, sum_flatMap]
  exact sum_range_const _ _ fun row _ => h.row_sum nd row hserved

theorem Accepted.length_matrixBytes (h : g.Accepted l) :
    l.matrixBytes.length =
      g.reads.ndCount * (g.command.descriptor.rows * l.format.storageBytes g.command.descriptor.columns) := by
  obtain ⟨hdescriptor, -, hcount, -⟩ := h.layout_eq
  rw [Layout.matrixBytes, hcount, hdescriptor, List.length_flatMap]
  refine sum_range_const _ _ fun nd _ => ?_
  rw [List.length_flatMap]
  exact sum_range_const _ _ fun row _ => by simp

theorem Accepted.ndCount_pos (h : g.Accepted l) : 0 < g.reads.ndCount := by
  rw [h.reads.ndCount]
  exact h.reads.extents.2.2

theorem Accepted.rows_pos (h : g.Accepted l) : 0 < g.command.descriptor.rows := by
  have hextents := h.reads.extents.1
  rwa [h.command.1] at hextents

/-- As many bytes are written as the layout has just if the rows are counted right. -/
theorem Accepted.total_of_length (h : g.Accepted l)
    (hlength : g.reads.ndCount * (g.command.descriptor.rows * g.command.descriptor.rowTotal l.format) =
      l.matrixBytes.length) :
    g.command.descriptor.rowTotal l.format = l.format.storageBytes g.command.descriptor.columns := by
  rw [h.length_matrixBytes] at hlength
  exact Nat.eq_of_mul_eq_mul_left h.rows_pos (Nat.eq_of_mul_eq_mul_left h.ndCount_pos hlength)

/-- Offsets are far from the end of the address space. -/
theorem Accepted.offset_lt (h : g.Accepted l) (nd row : Nat) : l.destinationOffset nd row 0 < 2 ^ 33 := by
  rw [h.layout_eq.2.2.2]
  have hstored (x : Nat) : l.format.storageBytes (x % u32) < 2 ^ 32 :=
    Layout.storageBytes_lt _ (Nat.mod_lt _ (by decide))
  have hnd := hstored (nd * g.command.descriptor.destinationNdStride)
  have hrow := hstored (row * g.command.descriptor.destinationStride)
  omega

theorem mem_intervals {α : Type} {cells : List α} {start : α → Nat} {n bound : Nat}
    (hstart : ∀ c ∈ cells, start c + n ≤ bound) {x : Nat}
    (hx : x ∈ cells.flatMap fun c => List.range' (start c) n) : x < bound := by
  obtain ⟨c, hc, hx⟩ := List.mem_flatMap.mp hx
  have hle := hstart c hc
  rw [List.mem_range'_1] at hx
  omega

/-- The rows that are written alone. -/
theorem Accepted.separate_perm (h : g.Accepted l) (hgather : g.planner.gather = false)
    (hserved : g.command.descriptor.conversionMode ∈ [21, 22, 25, 26] → g.command.descriptor.columns % 512 ≠ 1)
    (hsingles : g.command.descriptor.conversionMode ∈ [17, 18] → g.command.descriptor.columns < 16)
    (hF : ∀ nd < g.reads.ndCount, g.MatrixFragments nd (F nd)) :
    (((List.range g.reads.ndCount).flatMap F).flatMap FragmentView.written).Perm
      ((l.rowCells.flatMap fun c => List.range' (g.rowStart l c.1 c.2)
        (g.command.descriptor.rowTotal l.format)).map l.byteAt) := by
  obtain ⟨hdescriptor, -, hcount, -⟩ := h.layout_eq
  rw [List.map_flatMap, Layout.flatMap_rowCells fun nd row => (List.range' (g.rowStart l nd row) _).map l.byteAt,
    hcount, hdescriptor, List.flatMap_assoc]
  refine List.Perm.flatMap_left _ fun nd hnd => ?_
  have hperm := (h.matrix_perm (hF nd (List.mem_range.mp hnd))).flatMap_right FragmentView.written
  rw [List.flatMap_assoc] at hperm
  refine hperm.trans (List.Perm.of_eq (List.flatMap_congr fun row _ => ?_))
  exact h.row_written hgather hserved hsingles nd row

/-- Rows written by lines are in place just if they begin at lines. -/
theorem Accepted.separate_iff (h : g.Accepted l)
    (hserved : g.command.descriptor.conversionMode ∈ [21, 22, 25, 26] → g.command.descriptor.columns % 512 ≠ 1)
    (htotal : g.command.descriptor.rowTotal l.format = l.format.storageBytes g.command.descriptor.columns) :
    ((l.rowCells.flatMap fun c => List.range' (g.rowStart l c.1 c.2)
        (g.command.descriptor.rowTotal l.format)).map l.byteAt).Perm l.matrixBytes ↔
      (g.planner.aligned512 = true → ∀ nd < l.ndCount, ∀ row < g.command.descriptor.rows,
        l.destinationOffset nd row 0 % 512 = 0) := by
  have hdescriptor := h.layout_eq.1
  rw [Layout.matrixBytes_eq, hdescriptor, htotal]
  have hmem (c : Nat × Nat) : c ∈ l.rowCells ↔ c.1 < l.ndCount ∧ c.2 < g.command.descriptor.rows := by
    obtain ⟨nd, row⟩ := c
    rw [Layout.rowCells, hdescriptor]
    simp
  have hstored := h.stored_lt (Layout.columns_lt g.command.descriptor).le
  cases haligned : g.planner.aligned512 with
  | false =>
    simp only [rowStart, haligned, Bool.false_eq_true, if_false, false_imp_iff, iff_true]
    exact .rfl
  | true =>
    simp only [rowStart, haligned, if_true, true_imp_iff]
    rw [Layout.perm_byteAt]
    · have hlines := haligned
      rw [h.aligned, Nz2ndWritePlanner.isAligned512, decide_eq_true_iff] at hlines
      obtain ⟨htail, -⟩ := h.aligned_lines haligned hserved
      have hpos : 0 < l.format.storageBytes g.command.descriptor.columns := by
        rw [← htotal, Descriptor.rowTotal, htail]
        simp
      constructor
      · intro hperm nd hnd row hrow
        exact Nat.mod_eq_zero_of_dvd (starts_whole hpos (Nat.dvd_of_mod_eq_zero hlines.1)
          (fun c _ => Nat.dvd_mul_left ..) hperm (nd, row) ((hmem _).mpr ⟨hnd, hrow⟩))
      · intro hall
        refine List.Perm.of_eq (List.flatMap_congr fun c hc => ?_)
        obtain ⟨hnd, hrow⟩ := (hmem c).mp hc
        have hzero := hall c.1 hnd c.2 hrow
        rw [show (l.destinationOffset c.1 c.2 0 + 256) / 512 * 512 = l.destinationOffset c.1 c.2 0 by omega]
    · refine fun x hx => mem_intervals (fun c _ => ?_) hx
      have hlt := h.offset_lt c.1 c.2
      unfold u64
      omega
    · refine fun x hx => mem_intervals (fun c _ => ?_) hx
      have hlt := h.offset_lt c.1 c.2
      unfold u64
      omega

end Nz2ndWriteGenerator

/-! ## Gathered matrices -/

namespace Nz2ndWriteGenerator

variable {g : Nz2ndWriteGenerator} {l : Layout} {F : Nat → List FragmentView}

/-- A matrix that is gathered is one burst. -/
def GatheredView (g : Nz2ndWriteGenerator) (l : Layout) (nd : Nat) (v : FragmentView) : Prop :=
  v.Whole ∧ v.gather = true ∧ v.last = decide (nd + 1 = g.command.descriptor.ndCount) ∧
    v.written = (List.range' (l.destinationOffset nd 0 0)
      (g.command.descriptor.rows * g.command.descriptor.rowTotal l.format)).map l.byteAt

/-- Rows lie one behind the other where lanes are stored in whole bytes. -/
theorem Accepted.stored_rows (h : g.Accepted l) {row : Nat} (hrow : row < g.command.descriptor.rows)
    (hwhole : g.command.descriptor.conversionMode ∈ [21, 22, 25, 26] →
      g.command.descriptor.columns % 2 = 0 ∨ row ≤ 1) :
    l.format.storageBytes (row * g.command.descriptor.columns % u32) =
      row * l.format.storageBytes g.command.descriptor.columns := by
  have hcolumns := Layout.columns_lt g.command.descriptor
  have hrows := Layout.rows_lt g.command.descriptor
  have hle : row * g.command.descriptor.columns ≤ 2 ^ 28 :=
    (Nat.mul_le_mul (show row ≤ 2 ^ 16 by omega) (show g.command.descriptor.columns ≤ 2 ^ 12 by omega)).trans
      (by decide)
  have hmod : row * g.command.descriptor.columns % u32 = row * g.command.descriptor.columns :=
    Nat.mod_eq_of_lt (hle.trans_lt (by decide))
  rw [hmod]
  rcases h.kind with ⟨-, -, -, hstored⟩ | ⟨-, -, -, hstored⟩ | ⟨-, -, -, hstored⟩ | ⟨-, -, -, hstored⟩ |
    ⟨hmode, -, -, hstored⟩ <;> rw [hstored _ hle, hstored _ (RowKind.stored_word hcolumns.le)]
  · rw [Nat.mul_assoc]
  · rw [Nat.mul_assoc]
  · rcases hwhole hmode with heven | hone
    · obtain ⟨n, hn⟩ := Nat.dvd_of_mod_eq_zero heven
      rw [hn, Nat.mul_left_comm, Nat.mul_div_cancel_left _ (by decide), Nat.mul_div_cancel_left _ (by decide)]
    · interval_cases row <;> simp

/-- Rows of unpaired lanes lie no closer than their bytes. -/
theorem Accepted.stored_rows_le (h : g.Accepted l) {row : Nat} (hrow : row < g.command.descriptor.rows) :
    row * l.format.storageBytes g.command.descriptor.columns ≤
      l.format.storageBytes (row * g.command.descriptor.columns % u32) := by
  by_cases hwhole : g.command.descriptor.conversionMode ∈ [21, 22, 25, 26] →
      g.command.descriptor.columns % 2 = 0 ∨ row ≤ 1
  · exact (h.stored_rows hrow hwhole).ge
  · push Not at hwhole
    obtain ⟨hmode, -⟩ := hwhole
    have hcolumns := Layout.columns_lt g.command.descriptor
    have hrows := Layout.rows_lt g.command.descriptor
    have hle : row * g.command.descriptor.columns ≤ 2 ^ 28 :=
      (Nat.mul_le_mul (show row ≤ 2 ^ 16 by omega) (show g.command.descriptor.columns ≤ 2 ^ 12 by omega)).trans
        (by decide)
    have hstored := h.fours_stored hmode
    rw [Nat.mod_eq_of_lt (hle.trans_lt (by decide)), hstored _ hle, hstored _ (RowKind.stored_word hcolumns.le)]
    exact Nat.mul_div_le_mul_div_assoc _ _ _

/-- Behind two rows, unpaired lanes leave a gap. -/
theorem Accepted.stored_rows_gap (h : g.Accepted l)
    (hmode : g.command.descriptor.conversionMode ∈ [21, 22, 25, 26]) (hodd : g.command.descriptor.columns % 2 = 1) :
    2 * l.format.storageBytes g.command.descriptor.columns <
      l.format.storageBytes (2 * g.command.descriptor.columns % u32) := by
  have hcolumns := Layout.columns_lt g.command.descriptor
  have hstored := h.fours_stored hmode
  rw [Nat.mod_eq_of_lt (show 2 * g.command.descriptor.columns < u32 by unfold u32; omega),
    hstored _ (by omega), hstored _ (by omega)]
  omega

/-- The gathered matrices are in place just if no lane is left unpaired. -/
theorem Accepted.gathered_iff (h : g.Accepted l) (hgather : g.planner.gather = true)
    (htotal : g.command.descriptor.rowTotal l.format = l.format.storageBytes g.command.descriptor.columns) :
    (((List.range g.reads.ndCount).flatMap fun nd => List.range' (l.destinationOffset nd 0 0)
        (g.command.descriptor.rows * g.command.descriptor.rowTotal l.format)).map l.byteAt).Perm l.matrixBytes ↔
      (g.command.descriptor.conversionMode ∈ [21, 22, 25, 26] → g.command.descriptor.columns % 2 = 1 →
        g.command.descriptor.columns = 1 ∨ g.command.descriptor.rows ≤ 2) := by
  obtain ⟨hdescriptor, -, hcount, hoffset⟩ := h.layout_eq
  have hcolumns := Layout.columns_lt g.command.descriptor
  have hrows := Layout.rows_lt g.command.descriptor
  have hstored := h.stored_lt hcolumns.le
  have hstride : g.command.descriptor.destinationStride = g.command.descriptor.columns := by
    rw [h.gather, Nz2ndWritePlanner.gathers, decide_eq_true_iff] at hgather
    exact hgather.2.symm
  have hbegin (nd : Nat) (row : Nat) : l.destinationOffset nd row 0 =
      l.destinationOffset nd 0 0 + l.format.storageBytes (row * g.command.descriptor.columns % u32) := by
    have hzero : l.format.storageBytes (0 * g.command.descriptor.columns % u32) = 0 := by
      have hzero := h.stored_rows h.rows_pos fun _ => .inr (Nat.zero_le _)
      rwa [Nat.zero_mul (l.format.storageBytes _)] at hzero
    rw [hoffset, hoffset, hstride, hzero, Nat.add_zero]
  have hrowsOf : ((List.range g.reads.ndCount).flatMap fun nd => List.range' (l.destinationOffset nd 0 0)
      (g.command.descriptor.rows * l.format.storageBytes g.command.descriptor.columns)) =
      l.rowCells.flatMap fun c => List.range' (l.destinationOffset c.1 0 0 +
        c.2 * l.format.storageBytes g.command.descriptor.columns)
        (l.format.storageBytes g.command.descriptor.columns) := by
    rw [Layout.flatMap_rowCells fun nd row => List.range' (l.destinationOffset nd 0 0 +
      row * l.format.storageBytes g.command.descriptor.columns) (l.format.storageBytes g.command.descriptor.columns),
      hcount, hdescriptor]
    exact List.flatMap_congr fun nd _ => (flatMap_range' _ _ _).symm
  have hmem (c : Nat × Nat) : c ∈ l.rowCells ↔ c.1 < l.ndCount ∧ c.2 < g.command.descriptor.rows := by
    obtain ⟨nd, row⟩ := c
    rw [Layout.rowCells, hdescriptor]
    simp
  have hspan {row : Nat} (hrow : row < g.command.descriptor.rows) :
      row * l.format.storageBytes g.command.descriptor.columns ≤ 2 ^ 30 :=
    (Nat.mul_le_mul (show row ≤ 2 ^ 16 by omega) hstored).trans (by decide)
  rw [htotal, hrowsOf, Layout.matrixBytes_eq, hdescriptor, Layout.perm_byteAt]
  · constructor
    · intro hperm hmode hodd
      by_contra hnot
      rw [not_or, Nat.not_le] at hnot
      have hpos : 0 < l.format.storageBytes g.command.descriptor.columns := by
        rw [h.fours_stored hmode _ (RowKind.stored_word hcolumns.le)]
        omega
      have hsame : l.destinationOffset 0 0 0 + 2 * l.format.storageBytes g.command.descriptor.columns =
          l.destinationOffset 0 2 0 := starts_eq hpos (fun c hc => by
        rw [hbegin c.1 c.2]
        exact Nat.add_le_add_left (h.stored_rows_le ((hmem c).mp hc).2) _) hperm (0, 2)
          ((hmem _).mpr ⟨hcount ▸ h.ndCount_pos, hnot.2⟩)
      have hgap := h.stored_rows_gap hmode hodd
      rw [hbegin 0 2] at hsame
      omega
    · intro hpaired
      refine List.Perm.of_eq (List.flatMap_congr fun c hc => ?_)
      obtain ⟨-, hrow⟩ := (hmem c).mp hc
      by_cases hempty : l.format.storageBytes g.command.descriptor.columns = 0
      · rw [hempty]
        rfl
      · rw [hbegin c.1 c.2, h.stored_rows hrow fun hmode => ?_]
        by_contra hnot
        rw [not_or, Nat.not_le] at hnot
        rcases hpaired hmode (by omega) with hone | htwo
        · exact hempty (by rw [h.fours_stored hmode _ (RowKind.stored_word hcolumns.le), hone])
        · omega
  · refine fun x hx => mem_intervals (fun c hc => ?_) hx
    have hlt := h.offset_lt c.1 0
    have hle := hspan ((hmem c).mp hc).2
    unfold u64
    omega
  · refine fun x hx => mem_intervals (fun c _ => ?_) hx
    have hlt := h.offset_lt c.1 c.2
    unfold u64
    omega

end Nz2ndWriteGenerator

/-! ## Gathered bursts -/

theorem exists_chunks {α β : Type} {v : α → β} {F : Nat → List β} {n : Nat} {xs : List α}
    (h : xs.map v = (List.range n).flatMap F) :
    ∃ C : Nat → List α, xs = (List.range n).flatMap C ∧ ∀ i < n, (C i).map v = F i := by
  induction n generalizing xs with
  | zero =>
    rw [List.range_zero, List.flatMap_nil, List.map_eq_nil_iff] at h
    exact ⟨fun _ => [], h, nofun⟩
  | succ n ih =>
    rw [List.range_succ, List.flatMap_append, List.flatMap_singleton, List.map_eq_append_iff] at h
    obtain ⟨before, last, rfl, hbefore, hlast⟩ := h
    obtain ⟨C, rfl, hC⟩ := ih hbefore
    refine ⟨fun i => if i = n then last else C i, ?_, fun i hi => ?_⟩
    · rw [List.range_succ, List.flatMap_append, List.flatMap_singleton, if_pos rfl]
      congr 1
      refine flatMap_congr_range fun i hi => ?_
      rw [if_neg hi.ne]
    · by_cases heq : i = n
      · simp only [heq, if_true, hlast]
      · simp only [if_neg heq]
        exact hC i (by omega)

theorem RowBurst.join {policy : ExternalOutputPolicy} {f : ExternalBurst} (h : RowBurst policy f)
    (fragments : List ExternalBurst) : RowBurst policy (fragments.foldl ExternalBurst.join f) := by
  induction fragments generalizing f with
  | nil => exact h
  | cons x fragments ih => exact ih ⟨h.offset, h.policy⟩

namespace Nz2ndWriteGenerator

variable {g : Nz2ndWriteGenerator} {l : Layout} {F : Nat → List FragmentView}

/-- A row of a gathered matrix takes one group, or two of 16 columns each. -/
theorem Accepted.gathered_total (h : g.Accepted l) (hgather : g.planner.gather = true) :
    g.command.descriptor.rowTotal l.format ≤ 512 := by
  rw [h.gather, Nz2ndWritePlanner.gathers, decide_eq_true_iff] at hgather
  have hblocks : Nz2ndWritePlanner.columnBytes g.command.descriptor l.format *
      ((g.command.descriptor.columns + 15) / 16) ≤ 256 := hgather.1
  have htail := RowKind.tailLanes_le g.command.descriptor
  have hlanes : g.command.descriptor.tailLanes < 16 := by
    rcases eq_or_ne g.command.descriptor.conversionMode 0 with hzero | hzero
    · rw [RowKind.tailLanes_two hzero]
      split_ifs <;> omega
    · rw [RowKind.tailLanes_one hzero]
      omega
  unfold Nz2ndWritePlanner.columnBytes at hblocks
  rw [if_neg h.mode] at hblocks
  unfold Descriptor.rowTotal
  cases h.kind with
  | words hmode hcounts hreads hstored =>
    rw [hstored _ (RowKind.stored_word htail), hcounts.1, hreads]
    rw [hstored 16 (by decide)] at hblocks
    have hcolumns : (g.command.descriptor.columns + 15) / 16 ≤ 8 := by
      split_ifs at hblocks <;> omega
    rw [RowKind.tailLanes_two hmode]
    split_ifs <;> omega
  | halves hmode hcounts hreads hstored =>
    simp only [List.mem_append, List.mem_cons (a := g.command.descriptor.conversionMode) (b := 0), not_or] at hmode
    rw [hstored _ (RowKind.stored_word htail), hcounts.1, hreads]
    rw [hstored 16 (by decide), if_neg (fun hzero => hmode.1.1.1 hzero.1)] at hblocks
    split_ifs <;> omega
  | singles hmode hcounts hreads hstored =>
    have hzero := RowKind.modes_apart hmode (show ∀ mode ∈ [17, 18], mode ∉ [0] by decide)
    rw [List.mem_singleton] at hzero
    rw [hstored _ (RowKind.stored_word htail), hcounts.1, hreads]
    rw [hstored 16 (by decide), if_neg (fun h => hzero h.1)] at hblocks
    split_ifs <;> omega
  | pairs hmode hcounts hreads hstored =>
    have hzero := RowKind.modes_apart hmode (show ∀ mode ∈ [8, 9, 23, 24], mode ∉ [0] by decide)
    rw [List.mem_singleton] at hzero
    rw [hstored _ (RowKind.stored_word htail), hcounts.1, hreads]
    rw [hstored 16 (by decide), if_neg (fun h => hzero h.1)] at hblocks
    split_ifs <;> omega
  | fours hmode hcounts hreads hstored =>
    have hzero := RowKind.modes_apart hmode (show ∀ mode ∈ [21, 22, 25, 26], mode ∉ [0] by decide)
    rw [List.mem_singleton] at hzero
    rw [hstored _ (RowKind.stored_word htail), hcounts.1, hreads]
    rw [hstored 16 (by decide), if_neg (fun h => hzero h.1)] at hblocks
    split_ifs <;> omega

/-- The fragments of a gathered matrix are joined to one burst. -/
theorem Accepted.gathered_chunk (h : g.Accepted l) (hgather : g.planner.gather = true) {nd : Nat}
    (hf : g.MatrixFragments nd (F nd)) {policy : ExternalOutputPolicy} {bursts chunk : List ExternalBurst}
    (hclosed : ∀ b ∈ bursts, b.closed = true) (hrows : ∀ b ∈ chunk, RowBurst policy b)
    (hviews : chunk.map ExternalBurst.view = F nd) :
    ∃ b, chunk.foldl ExternalOutput.append bursts = bursts ++ [b] ∧ b.closed = true ∧ RowBurst policy b ∧
      g.GatheredView l nd b.view := by
  have hserved : g.command.descriptor.conversionMode ∈ [21, 22, 25, 26] → g.planner.gather = false →
      g.command.descriptor.columns % 512 ≠ 1 := fun _ hnot => by simp [hgather] at hnot
  have hsum := h.matrix_sum hserved hf
  obtain ⟨before, last, hends, hlast⟩ := h.matrix_ends hserved hf
  obtain ⟨first, rest, hbegins, haddress⟩ := h.matrix_begins hgather hf
  have hfirst : first.gather = true := by
    obtain ⟨row, -, t, -, -, hx⟩ := (h.mem_matrix hf).mp (hbegins ▸ List.mem_cons_self ..)
    rw [fragment, Option.map_eq_some_iff] at hx
    obtain ⟨p, -, rfl⟩ := hx
    exact hgather
  have htotal := h.gathered_total hgather
  have hrowsLt := Layout.rows_lt g.command.descriptor
  have hbound : g.command.descriptor.rows * g.command.descriptor.rowTotal l.format < u32 :=
    (Nat.mul_le_mul (show g.command.descriptor.rows ≤ 2 ^ 16 by omega) htotal).trans_lt (by decide)
  cases chunk with
  | nil =>
    rw [← hviews, List.map_nil] at hbegins
    cases hbegins
  | cons f chunk =>
    have hbytes : ((f :: chunk).map ExternalBurst.bytes).sum =
        g.command.descriptor.rows * g.command.descriptor.rowTotal l.format := by
      rw [← hsum, ← hviews, List.map_map]
      rfl
    have hopen : ∀ x ∈ (f :: chunk).dropLast, x.closed = false := by
      intro x hx
      have hmem : x.view ∈ before := by
        have hdrop : ((f :: chunk).dropLast).map ExternalBurst.view = before := by
          rw [List.map_dropLast, hviews, hends, List.dropLast_concat]
        exact hdrop ▸ List.mem_map_of_mem hx
      have hnot := (hlast.before _ hmem).2
      rwa [hgather] at hnot
    obtain ⟨hjoinBytes, hjoinAddress, hjoinGather, -, hjoinClosed, hjoinLast⟩ := foldl_join f chunk
    have hend : ((f :: chunk).map ExternalBurst.view).getLast? = some last := by rw [hviews, hends]; simp
    have hhead : f.view = first := by
      rw [hbegins, List.map_cons] at hviews
      exact (List.cons.inj hviews).1
    have hclosedLast : (chunk.foldl ExternalBurst.join f).closed = true := by
      have hmap : ((f :: chunk).map ExternalBurst.closed).getLast? = some last.closed := by
        rw [show ExternalBurst.closed = FragmentView.closed ∘ ExternalBurst.view from rfl, ← List.map_map,
          List.getLast?_map, hend]
        rfl
      rw [hmap] at hjoinClosed
      rw [← Option.some.inj hjoinClosed, hlast.closed]
    have hmarkLast : (chunk.foldl ExternalBurst.join f).lastInInstruction = last.last := by
      have hmap : ((f :: chunk).map ExternalBurst.lastInInstruction).getLast? = some last.last := by
        rw [show ExternalBurst.lastInInstruction = FragmentView.last ∘ ExternalBurst.view from rfl, ← List.map_map,
          List.getLast?_map, hend]
        rfl
      rw [hmap] at hjoinLast
      exact (Option.some.inj hjoinLast).symm
    have hgathered : (chunk.foldl ExternalBurst.join f).gather = true := by
      rw [hjoinGather, show f.gather = f.view.gather from rfl, hhead, hfirst]
    refine ⟨_, foldl_append_chunk hclosed hopen (hbytes ▸ hbound), hclosedLast,
      (hrows f (List.mem_cons_self ..)).join chunk, ⟨hclosedLast, ?_, fun hnot => ?_⟩, hgathered, ?_, ?_⟩
    · show (chunk.foldl ExternalBurst.join f).bytes < u32
      rw [hjoinBytes, hbytes]
      exact hbound
    · rw [show (ExternalBurst.view _).gather = _ from hgathered] at hnot
      cases hnot
    · rw [show (ExternalBurst.view _).last = _ from hmarkLast, hlast.last]
    · have hat : (chunk.foldl ExternalBurst.join f).view.address.toNat = l.byteAt (l.destinationOffset nd 0 0) := by
        show (chunk.foldl ExternalBurst.join f).address.toNat = _
        rw [hjoinAddress, show f.address = f.view.address from rfl, hhead, haddress]
      rw [range_byteAt _ hat, show (ExternalBurst.view _).bytes = _ from hjoinBytes, hbytes]

/-- Gathered matrices give one burst each. -/
theorem Accepted.gathered_bursts (h : g.Accepted l) (hgather : g.planner.gather = true) {n : Nat}
    (hF : ∀ nd < n, g.MatrixFragments nd (F nd)) {policy : ExternalOutputPolicy} {xs : List ExternalBurst}
    (hrows : ∀ b ∈ xs, RowBurst policy b) (hviews : xs.map ExternalBurst.view = (List.range n).flatMap F) :
    ∃ V : Nat → FragmentView, (xs.foldl ExternalOutput.append []).map ExternalBurst.view = (List.range n).map V ∧
      (∀ b ∈ xs.foldl ExternalOutput.append [], b.closed = true ∧ RowBurst policy b) ∧
      ∀ nd < n, g.GatheredView l nd (V nd) := by
  obtain ⟨C, rfl, hC⟩ := exists_chunks hviews
  clear hviews
  induction n with
  | zero => exact ⟨fun _ => ⟨0, 0, false, false, false, 0⟩, rfl, nofun, nofun⟩
  | succ n ih =>
    rw [List.range_succ, List.flatMap_append, List.flatMap_singleton] at hrows ⊢
    obtain ⟨V, hV, hclosed, hall⟩ := ih (fun nd hnd => hF nd (by omega)) (fun nd hnd => hC nd (by omega))
      fun b hb => hrows b (List.mem_append_left _ hb)
    obtain ⟨b, hfold, hb, hrow, hview⟩ := h.gathered_chunk hgather (hF n (Nat.lt_succ_self n))
      (fun b hb => (hclosed b hb).1) (fun b hb => hrows b (List.mem_append_right _ hb)) (hC n (Nat.lt_succ_self n))
    refine ⟨fun nd => if nd = n then b.view else V nd, ?_, ?_, fun nd hnd => ?_⟩
    · rw [List.foldl_append, hfold, List.map_append, hV, List.map_append, List.map_singleton, List.map_singleton,
        if_pos rfl]
      congr 1
      refine List.map_congr_left fun nd hnd => ?_
      rw [if_neg (List.mem_range.mp hnd).ne]
    · rw [List.foldl_append, hfold]
      intro b' hb'
      rcases List.mem_append.mp hb' with hb' | hb'
      · exact hclosed b' hb'
      · rw [List.mem_singleton.mp hb']
        exact ⟨hb, hrow⟩
    · by_cases heq : nd = n
      · simp only [heq, if_true]
        exact hview
      · simp only [if_neg heq]
        exact hall nd (by omega)

end Nz2ndWriteGenerator

/-! ## Writes of a command -/

namespace Nz2ndWriteGenerator

variable {g : Nz2ndWriteGenerator} {l : Layout} {F : Nat → List FragmentView}

/-- What `new` makes of an enabled command stands before the first read. -/
theorem reads_of_new {c : TransferCommand} {instructionId readId bandwidth : Nat} {r : Nz2ndReadGenerator}
    (hnew : Nz2ndReadGenerator.new c instructionId readId bandwidth = .ok r)
    (henabled : c.descriptor.isDisabled = false) :
    r.Accepted ∧ r.command = c ∧ r = r.place readId 0 0 0 := by
  unfold Nz2ndReadGenerator.new at hnew
  dsimp only at hnew
  split at hnew
  · cases hnew
  · rw [henabled, if_neg (c := false = true) (by decide)] at hnew
    split_ifs at hnew with hplane hband hsource
    rw [not_or, not_not] at hband
    rw [not_not] at hsource
    split at hnew
    · cases hnew
    · rename_i hprogress
      cases hnew
      refine ⟨⟨henabled, by simpa using hplane, rfl, rfl, ⟨Nat.pos_of_ne_zero hband.1, hband.2⟩, hsource,
        hprogress⟩, rfl, ?_⟩
      simp [Nz2ndReadGenerator.place]

theorem accepted_of_new {c : TransferCommand} {instructionId readId writeId bandwidth : Nat}
    (hnew : new c instructionId readId writeId bandwidth 8 = .ok g) (hlayout : c.layout = .ok l)
    (henabled : c.descriptor.isDisabled = false) (hmode : c.descriptor.conversionMode ∉ [19, 20]) :
    g.Accepted l ∧ g.Before 0 0 0 g ∧ g.command = c := by
  unfold new at hnew
  split at hnew
  · cases hnew
  · rename_i reads hreads
    obtain ⟨haccepted, hcommand, hplace⟩ := reads_of_new hreads henabled
    have hplane := haccepted.plane
    rw [hcommand] at hplane
    unfold Nz2ndWritePlanner.new at hnew
    rw [hlayout] at hnew
    simp only [hplane, Bool.not_true, if_neg (show ¬(8 : Nat) = 0 by decide), if_neg (show ¬false = true by decide)]
      at hnew
    cases hnew
    refine ⟨⟨haccepted, ⟨hcommand, rfl⟩, ⟨rfl, rfl⟩, ⟨rfl, rfl⟩, rfl, rfl, hlayout, hmode⟩, ?_, rfl⟩
    refine ⟨writeId, readId, ⟨none, 0, 0, none⟩, ?_, nofun⟩
    unfold place
    rw [← hplace]

theorem foldl_append_whole {bursts : List ExternalBurst} (hbursts : ∀ b ∈ bursts, b.closed = true)
    {xs : List ExternalBurst} (hxs : ∀ b ∈ xs, b.closed = true) :
    xs.foldl ExternalOutput.append bursts = bursts ++ xs := by
  induction xs generalizing bursts with
  | nil => simp
  | cons b xs ih =>
    rw [List.foldl_cons, append_closed hbursts, ih, List.append_assoc]
    · rfl
    · intro b' hb'
      rcases List.mem_append.mp hb' with hb' | hb'
      · exact hbursts b' hb'
      · exact List.mem_singleton.mp hb' ▸ hxs b (List.mem_cons_self ..)
    · exact fun b' hb' => hxs b' (List.mem_cons_of_mem _ hb')

/-- The fragments of all matrices end with the only one that is the last. -/
theorem Accepted.all_end (h : g.Accepted l)
    (hserved : g.command.descriptor.conversionMode ∈ [21, 22, 25, 26] → g.planner.gather = false →
      g.command.descriptor.columns % 512 ≠ 1)
    (hF : ∀ nd < g.reads.ndCount, g.MatrixFragments nd (F nd)) :
    ∃ before v, (List.range g.reads.ndCount).flatMap F = before ++ [v] ∧ v.last = true ∧
      ∀ x ∈ before, x.last = false := by
  have hd : g.reads.command.descriptor = g.command.descriptor := by rw [h.command.1]
  have hcount : g.reads.ndCount = g.command.descriptor.ndCount := by rw [h.reads.ndCount, hd]
  obtain ⟨n, hn⟩ : ∃ n, g.reads.ndCount = n + 1 := ⟨_, (Nat.succ_pred h.ndCount_pos.ne').symm⟩
  rw [hn] at hF ⊢
  obtain ⟨before, v, hends, hlast⟩ := h.matrix_ends hserved (hF n (Nat.lt_succ_self n))
  refine ⟨(List.range n).flatMap F ++ before, v, ?_, ?_, fun x hx => ?_⟩
  · rw [List.range_succ, List.flatMap_append, List.flatMap_singleton, hends, List.append_assoc]
  · rw [hlast.last, decide_eq_true_iff, ← hcount, hn]
  · rcases List.mem_append.mp hx with hx | hx
    · obtain ⟨nd, hnd, hx⟩ := List.mem_flatMap.mp hx
      rw [List.mem_range] at hnd
      obtain ⟨before', v', hends', hlast'⟩ := h.matrix_ends hserved (hF nd (by omega))
      rw [hends'] at hx
      rcases List.mem_append.mp hx with hx | hx
      · exact (hlast'.before x hx).1
      · rw [List.mem_singleton.mp hx, hlast'.last, decide_eq_false_iff_not, ← hcount, hn]
        omega
    · exact (hlast.before x hx).1

/-- Rows that are written alone. -/
theorem Accepted.separate_covers (h : g.Accepted l) (hgather : g.planner.gather = false) {control : UInt64}
    {stride : Nat} (hF : ∀ nd < g.reads.ndCount, g.MatrixFragments nd (F nd)) {xs : List ExternalBurst}
    (hrows : ∀ b ∈ xs, RowBurst (.new control stride) b)
    (hviews : xs.map ExternalBurst.view = (List.range g.reads.ndCount).flatMap F) :
    Covers l (xs.foldl ExternalOutput.append []) ↔ Exact g.command l := by
  have hwhole : ∀ v ∈ (List.range g.reads.ndCount).flatMap F, v.Whole ∧ v.gather = false := by
    intro v hv
    obtain ⟨nd, hnd, hv⟩ := List.mem_flatMap.mp hv
    obtain ⟨row, -, t, -, -, hx⟩ := (h.mem_matrix (hF nd (List.mem_range.mp hnd))).mp hv
    exact h.fragment_whole hx hgather
  have hclosed : ∀ b ∈ xs, b.closed = true := fun b hb =>
    (hwhole b.view (hviews ▸ List.mem_map_of_mem hb)).1.closed
  have hgathers : Nz2ndWritePlanner.gathers g.command.descriptor l.format 8 = false := h.gather ▸ hgather
  obtain ⟨hto, hfrom⟩ := covers_of_views hrows hviews fun v hv => (hwhole v hv).1
  rw [foldl_append_whole (fun _ hb => absurd hb List.not_mem_nil) hclosed, List.nil_append]
  constructor
  · intro hcovers
    obtain ⟨hpos, hperm⟩ := hto hcovers
    have hserved : g.command.descriptor.conversionMode ∈ [21, 22, 25, 26] →
        g.command.descriptor.columns % 512 ≠ 1 := by
      intro hmode hone
      obtain ⟨t, ht, hcloses, x, hx, hzero⟩ := h.fragment_empty hmode hone 0 0
      have hmem : x ∈ (List.range g.reads.ndCount).flatMap F :=
        List.mem_flatMap.mpr ⟨0, List.mem_range.mpr h.ndCount_pos,
          (h.mem_matrix (hF 0 h.ndCount_pos)).mpr ⟨0, h.rows_pos, t, ht, hcloses, hx⟩⟩
      rcases hpos x hmem with hgathered | hbytes
      · rw [(hwhole x hmem).2] at hgathered
        cases hgathered
      · omega
    have hlength := hperm.length_eq
    rw [length_written, List.map_flatMap, sum_flatMap, sum_range_const _ _ fun nd hnd =>
      h.matrix_sum (fun hmode _ => hserved hmode) (hF nd hnd)] at hlength
    have htotal := h.total_of_length hlength
    obtain ⟨hpairs, hfours, hsingles⟩ := (h.kind.total_iff h.columns_pos).mp htotal
    refine ⟨hpairs, hfours, hsingles, fun hmode _ => hserved hmode, fun _ hg => ?_, fun _ haligned => ?_⟩
    · rw [hgathers] at hg
      cases hg
    · exact (h.separate_iff hserved htotal).mp
        ((h.separate_perm hgather hserved hsingles hF).symm.trans hperm) (h.aligned.trans haligned)
  · intro hexact
    have hserved := fun hmode => hexact.served hmode hgathers
    have htotal := (h.kind.total_iff h.columns_pos).mpr ⟨hexact.pairs, hexact.fours, hexact.singles⟩
    obtain ⟨before, v, hends, hlast, hbefore⟩ := h.all_end (fun hmode _ => hserved hmode) hF
    refine hfrom before v hends hlast hbefore (fun x hx => ?_) ?_
    · obtain ⟨nd, hnd, hx⟩ := List.mem_flatMap.mp hx
      obtain ⟨row, -, t, -, -, hx⟩ := (h.mem_matrix (hF nd (List.mem_range.mp hnd))).mp hx
      exact .inr (h.fragment_pos hexact.fours hserved hx)
    · exact (h.separate_perm hgather hserved hexact.singles hF).trans
        ((h.separate_iff hserved htotal).mpr fun haligned => hexact.lines hgathers (h.aligned ▸ haligned))

/-- Matrices that are gathered. -/
theorem Accepted.gathered_covers (h : g.Accepted l) (hgather : g.planner.gather = true) {control : UInt64}
    {stride : Nat} (hF : ∀ nd < g.reads.ndCount, g.MatrixFragments nd (F nd)) {xs : List ExternalBurst}
    (hrows : ∀ b ∈ xs, RowBurst (.new control stride) b)
    (hviews : xs.map ExternalBurst.view = (List.range g.reads.ndCount).flatMap F) :
    Covers l (xs.foldl ExternalOutput.append []) ↔ Exact g.command l := by
  obtain ⟨V, hV, hbursts, hall⟩ := h.gathered_bursts hgather hF hrows hviews
  have hgathers : Nz2ndWritePlanner.gathers g.command.descriptor l.format 8 = true := h.gather ▸ hgather
  have hview : ∀ v ∈ (List.range g.reads.ndCount).map V, v.Whole ∧ v.gather = true := by
    intro v hv
    obtain ⟨nd, hnd, rfl⟩ := List.mem_map.mp hv
    exact ⟨(hall nd (List.mem_range.mp hnd)).1, (hall nd (List.mem_range.mp hnd)).2.1⟩
  have hwritten : ((List.range g.reads.ndCount).map V).flatMap FragmentView.written =
      ((List.range g.reads.ndCount).flatMap fun nd => List.range' (l.destinationOffset nd 0 0)
        (g.command.descriptor.rows * g.command.descriptor.rowTotal l.format)).map l.byteAt := by
    rw [List.flatMap_map, List.map_flatMap]
    exact List.flatMap_congr fun nd hnd => (hall nd (List.mem_range.mp hnd)).2.2.2
  obtain ⟨hto, hfrom⟩ := covers_of_views (fun b hb => (hbursts b hb).2) hV fun v hv => (hview v hv).1
  rw [hwritten] at hto hfrom
  constructor
  · intro hcovers
    obtain ⟨-, hperm⟩ := hto hcovers
    have hlength := hperm.length_eq
    rw [List.length_map, List.length_flatMap, sum_range_const _ _ fun nd _ => List.length_range'] at hlength
    have htotal := h.total_of_length hlength
    obtain ⟨hpairs, hfours, hsingles⟩ := (h.kind.total_iff h.columns_pos).mp htotal
    refine ⟨hpairs, hfours, hsingles, fun _ hg => ?_, fun hmode _ => (h.gathered_iff hgather htotal).mp hperm hmode,
      fun hg => ?_⟩ <;>
    · rw [hgathers] at hg
      cases hg
  · intro hexact
    have htotal := (h.kind.total_iff h.columns_pos).mpr ⟨hexact.pairs, hexact.fours, hexact.singles⟩
    have hd : g.reads.command.descriptor = g.command.descriptor := by rw [h.command.1]
    have hcount : g.reads.ndCount = g.command.descriptor.ndCount := by rw [h.reads.ndCount, hd]
    obtain ⟨n, hn⟩ : ∃ n, g.reads.ndCount = n + 1 := ⟨_, (Nat.succ_pred h.ndCount_pos.ne').symm⟩
    refine hfrom ((List.range n).map V) (V n) ?_ ?_ (fun x hx => ?_) (fun v hv => .inl (hview v hv).2)
      ((h.gathered_iff hgather htotal).mpr fun hmode => hexact.unpaired hmode hgathers)
    · rw [hn, List.range_succ, List.map_append]
      rfl
    · rw [(hall n (by omega)).2.2.1, decide_eq_true_iff, ← hcount, hn]
    · obtain ⟨nd, hnd, rfl⟩ := List.mem_map.mp hx
      rw [List.mem_range] at hnd
      rw [(hall nd (by omega)).2.2.1, decide_eq_false_iff_not, ← hcount, hn]
      omega

/-- The generator ends, and its writes cover the layout just if the command is exact. -/
theorem writes_exact {c : TransferCommand} {instructionId readId writeId bandwidth : Nat}
    (hnew : new c instructionId readId writeId bandwidth 8 = .ok g) (hlayout : c.layout = .ok l)
    (henabled : c.descriptor.isDisabled = false) (hmode : c.descriptor.conversionMode ∉ [19, 20]) :
    ∃ writes last, Takes turn g writes last ∧ last.turn = none ∧
      ∀ (control : UInt64) (stride : Nat) (received : List (Nat × Nz2ndWriteUop)),
        received.map Prod.snd = writes.reduceOption →
          (Covers l (rowBursts (.new control stride) received) ↔ Exact c l) := by
  obtain ⟨h, hbefore, rfl⟩ := accepted_of_new hnew hlayout henabled hmode
  obtain ⟨L, last, htakes, hend, hmatrices⟩ := h.all_turns hbefore
  refine ⟨_, last, htakes, hend, fun control stride received hreceived => ?_⟩
  have hviews := received_views (.new control stride) hreceived
  rw [credited_flatMap] at hviews
  cases hgather : g.planner.gather with
  | false => exact h.separate_covers hgather hmatrices received_rows hviews
  | true => exact h.gathered_covers hgather hmatrices received_rows hviews

end Nz2ndWriteGenerator

namespace Nz2ndWriteGenerator

/-- Two rows of 17 columns of 32 bits. -/
def wholeCommand : TransferCommand := ⟨⟨0x2000020110, 0x80000000004, 0x8000030001⟩, .fp32, 64, 4096⟩

/-- Two rows of 24 columns of 8 bits: their last conversion has both its columns of 16. -/
def shortCommand : TransferCommand := ⟨⟨0x2000020180, 0x82000000004, 0x8000030001⟩, .int32, 64, 4096⟩

def wholeLayout : Layout := ⟨wholeCommand.descriptor, 64, 4096, .fp32, .fp32⟩

def shortLayout : Layout := ⟨shortCommand.descriptor, 64, 4096, .bits8, .int32⟩

theorem wholeCommand_exact : Exact wholeCommand wholeLayout := by
  refine ⟨?_, ?_, ?_, ?_, ?_, ?_⟩
  · exact fun h => absurd h (by decide)
  · exact fun h => absurd h (by decide)
  · exact fun h => absurd h (by decide)
  · exact fun h => absurd h (by decide)
  · exact fun h => absurd h (by decide)
  · exact fun _ h => absurd h (by decide)

theorem shortCommand_not_exact : ¬Exact shortCommand shortLayout := fun h => absurd (h.pairs (by decide)) (by decide)

theorem writes_exact_whole :
    (∃ g writes last, new wholeCommand 7 0 0 256 8 = .ok g ∧ Takes turn g writes last ∧ last.turn = none ∧
      Covers wholeLayout (rowBursts (.new 0 0) (writes.reduceOption.map fun op => (0, op)))) ∧
    ∃ g writes last, new shortCommand 7 0 0 256 8 = .ok g ∧ Takes turn g writes last ∧ last.turn = none ∧
      ¬Covers shortLayout (rowBursts (.new 0 0) (writes.reduceOption.map fun op => (0, op))) := by
  obtain ⟨writes, last, ht, hend, hcovers⟩ := writes_exact (show new wholeCommand 7 0 0 256 8 = .ok _ from rfl)
    (show wholeCommand.layout = .ok wholeLayout from rfl) (by decide) (by decide)
  obtain ⟨writes', last', ht', hend', hcovers'⟩ := writes_exact (show new shortCommand 7 0 0 256 8 = .ok _ from rfl)
    (show shortCommand.layout = .ok shortLayout from rfl) (by decide) (by decide)
  refine ⟨⟨_, writes, last, rfl, ht, hend, ?_⟩, ⟨_, writes', last', rfl, ht', hend', ?_⟩⟩
  · exact (hcovers 0 0 _ (by simp)).mpr wholeCommand_exact
  · exact fun h => shortCommand_not_exact ((hcovers' 0 0 _ (by simp)).mp h)

end Nz2ndWriteGenerator

end AscendEmulator.C220.Fixp
