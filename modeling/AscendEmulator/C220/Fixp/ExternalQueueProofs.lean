/-
  AscendEmulator.C220.Fixp.ExternalQueueProofs — the packets of the external output tile the bursts that were appended.

  A ledger holds every burst with the packets taken of it so far: those that are done, then those still in the queue
  (`OutputLedger`). The queue is what the entries have left (`OutputEntry.rest`), so its counters are the bytes not
  taken yet.

  - `packets_tile`: the packets of every burst tile it in order, and a closed burst is removed by as many credited takes
    as it and the bursts before it have bytes.
  - `counter_wraps`: bursts of 2^32 bytes have a counter of 0.
-/

import AscendEmulator.C220.Fixp.ExternalQueue
import AscendEmulator.C220.Mte.DmaUopsProofs

namespace AscendEmulator.C220.Fixp

open Lib Mte

/-! ## Packet sizes -/

theorem splitBytes_toNat (mode : DmaUopMode) (address : UInt64) (remaining : UInt32) :
    (mode.splitBytes address remaining).toNat =
      if address.toNat % 128 ≠ 0 then min remaining.toNat (128 - address.toNat % 128)
      else if mode = .wide512 ∧ address.toNat % 512 = 0 ∧ 512 ≤ remaining.toNat then 512
      else if (mode = .wide512 ∨ mode = .wide256) ∧ address.toNat % 256 = 0 ∧ 256 ≤ remaining.toNat then 256
      else if mode = .unbounded then remaining.toNat
      else min remaining.toNat 128 := by
  have h128 : address % 128 = 0 ↔ address.toNat % 128 = 0 := DmaUopMode.mod_eq_zero address 128
  have h256 : address % 256 = 0 ↔ address.toNat % 256 = 0 := DmaUopMode.mod_eq_zero address 256
  have h512 : address % 512 = 0 ↔ address.toNat % 512 = 0 := DmaUopMode.mod_eq_zero address 512
  have hline : (128 - (address % 128).toUInt32).toNat = 128 - address.toNat % 128 := by
    rw [UInt32.toNat_sub_of_le, DmaUopMode.toUInt32_mod_128]
    · rfl
    · rw [UInt32.le_iff_toNat_le, DmaUopMode.toUInt32_mod_128]
      have : (128 : UInt32).toNat = 128 := rfl
      omega
  have hle256 : 256 ≤ remaining ↔ 256 ≤ remaining.toNat := UInt32.le_iff_toNat_le
  have hle512 : 512 ≤ remaining ↔ 512 ≤ remaining.toNat := UInt32.le_iff_toNat_le
  unfold DmaUopMode.splitBytes
  simp only [h128, h256, h512, hle256, hle512, ne_eq]
  split_ifs
  · rfl
  · rfl
  · rfl
  · exact DmaUopMode.toNat_min remaining 128
  · rw [DmaUopMode.toNat_min, hline]

namespace ExternalOutputPolicy

variable {control : UInt64} {stride remaining : Nat} {address : UInt64}

theorem mode_cases (control : UInt64) (stride : Nat) :
    ((new control stride).mode = 0 ∧ modeOfWord control = .wide512) ∨
      ((new control stride).mode = 1 ∧ modeOfWord control = .wide256) ∨
      ((new control stride).mode = 2 ∧ modeOfWord control = .fixed128) ∨
      ((new control stride).mode = 3 ∧ modeOfWord control = .unbounded) := by
  unfold mode modeOfWord
  show (if control &&& 1 = 0 then 0 else _) = _ ∧ _ ∨ _
  by_cases hfixed : control &&& 1 = 0
  · simp [new, hfixed]
  · have hlt : ((control >>> 1) &&& 3).toNat < 4 := by
      rw [UInt64.toNat_and]
      exact Nat.lt_of_le_of_lt Nat.and_le_right (by decide)
    simp only [new, hfixed, if_false]
    generalize ((control >>> 1) &&& 3).toNat = m at hlt
    obtain rfl | rfl | rfl | rfl : m = 0 ∨ m = 1 ∨ m = 2 ∨ m = 3 := by omega
    all_goals simp

theorem find_size (q : Nat × Nat → Bool) (rest : Nat) (a b c : Nat × Nat) :
    (([a, b, c].find? q).map Prod.fst).getD rest =
      if q a then a.1 else if q b then b.1 else if q c then c.1 else rest := by
  simp only [List.find?]
  cases q a <;> cases q b <;> cases q c <;> rfl

theorem rowPacket_eq (control : UInt64) (stride : Nat) (address : UInt64) (remaining : Nat) :
    (new control stride).rowPacket address remaining =
      if address.toNat % 128 ≠ 0 then min remaining (128 - address.toNat % 128)
      else if (new control stride).mode ≤ 0 ∧ 512 ≤ remaining ∧ address.toNat % 512 = 0 then 512
      else if (new control stride).mode ≤ 1 ∧ 256 ≤ remaining ∧ address.toNat % 256 = 0 then 256
      else if (new control stride).mode ≤ 2 ∧ 128 ≤ remaining ∧ address.toNat % 128 = 0 then 128
      else remaining := by
  simp only [rowPacket, sizes, find_size, Bool.and_eq_true, decide_eq_true_eq, beq_iff_eq, and_assoc]
  rfl

theorem openLimit_pos (control : UInt64) (stride : Nat) (address : UInt64) :
    0 < (new control stride).openLimit address := by
  simp only [openLimit, sizes, find_size]
  have hlt := Nat.mod_lt address.toNat (show 0 < 128 by decide)
  show 0 < if address.toNat % 128 ≠ 0 then min (128 - address.toNat % 128) 512 else _
  split_ifs
  · omega
  all_goals exact Nat.pos_of_ne_zero nofun

theorem rowPacket_bounds (control : UInt64) (stride : Nat) (address : UInt64) (h : 0 < remaining) :
    0 < (new control stride).rowPacket address remaining ∧
      (new control stride).rowPacket address remaining ≤ remaining := by
  rw [rowPacket_eq]
  split_ifs <;> omega

/-- A packet is not split again by the mode of the same word. -/
theorem rowPacket_unsplit (control : UInt64) (stride : Nat) (address : UInt64) (h : remaining < u32) :
    ((modeOfWord control).splitBytes address ((new control stride).rowPacket address remaining).toUInt32).toNat =
      (new control stride).rowPacket address remaining := by
  have hbytes : ((new control stride).rowPacket address remaining).toUInt32.toNat =
      (new control stride).rowPacket address remaining := by
    refine Nat.mod_eq_of_lt (show _ < 2 ^ 32 from ?_)
    unfold u32 at h
    rw [rowPacket_eq]
    split_ifs <;> omega
  have hmode := mode_cases control stride
  have hn := rowPacket_eq control stride address remaining
  rw [splitBytes_toNat, hbytes]
  generalize (new control stride).rowPacket address remaining = n at hn
  generalize (new control stride).mode = m at hmode hn
  rcases hmode with ⟨rfl, hw⟩ | ⟨rfl, hw⟩ | ⟨rfl, hw⟩ | ⟨rfl, hw⟩
  all_goals
    simp only [hw, reduceCtorEq, false_and, true_and, or_false, false_or, if_false, if_true]
    split_ifs at hn ⊢ <;> omega

end ExternalOutputPolicy

/-! ## Fragments and bursts -/

namespace ExternalBurst

/-- What is promised of a fragment: it has bytes, its policy is one of `new`, and it is gathered, or a whole row. -/
structure Appended (f : ExternalBurst) : Prop where
  bytes : 0 < f.bytes ∧ f.bytes < u32
  policy : ∃ control stride, f.policy = .new control stride
  offset : f.rowOffset = 0
  row : f.gather = false → f.closed = true ∧ f.rowBytes = f.bytes

/-- The bytes that a burst writes, on both channels. -/
def writtenBytes (burst : ExternalBurst) : List Nat :=
  let bytes (address : UInt64) := (List.range burst.bytes).map fun k => (address.toNat + k) % u64
  bytes burst.address ++ (burst.secondChannelOffset.map fun offset => bytes (burst.address + offset)).getD []

/-- A burst with another fragment, of any number of bytes. -/
def join (tail burst : ExternalBurst) : ExternalBurst :=
  { tail with
    bytes := tail.bytes + burst.bytes
    closed := burst.closed
    lastInInstruction := burst.lastInInstruction }

end ExternalBurst

/-- The bursts that fragments make: one that is not closed goes on. -/
def joinLast (bursts : List ExternalBurst) (burst : ExternalBurst) : List ExternalBurst :=
  match bursts.getLast? with
  | some tail => if tail.closed then bursts ++ [burst] else bursts.dropLast ++ [tail.join burst]
  | none => [burst]

/-- The bursts of the fragments, with all their bytes. -/
def wholeBursts (fragments : List ExternalBurst) : List ExternalBurst := fragments.foldl joinLast []

theorem joinLast_concat (bursts : List ExternalBurst) (tail burst : ExternalBurst) :
    joinLast (bursts ++ [tail]) burst =
      if tail.closed then bursts ++ [tail, burst] else bursts ++ [tail.join burst] := by
  simp [joinLast]

theorem append_concat (bursts : List ExternalBurst) (tail burst : ExternalBurst) :
    ExternalOutput.append (bursts ++ [tail]) burst =
      if tail.closed then bursts ++ [tail, burst] else bursts ++ [tail.extend burst] := by
  simp [ExternalOutput.append]

theorem append_closed {bursts : List ExternalBurst} (h : ∀ b ∈ bursts, b.closed = true) (burst : ExternalBurst) :
    ExternalOutput.append bursts burst = bursts ++ [burst] := by
  rcases List.eq_nil_or_concat bursts with rfl | ⟨before, tail, rfl⟩
  · rfl
  · rw [List.concat_eq_append] at h ⊢
    rw [append_concat, h tail (by simp), if_pos rfl, List.append_assoc]
    rfl

/-- Fragments are joined to an open burst, until one closes it. -/
theorem foldl_append_open {tail : ExternalBurst} {fragments : List ExternalBurst}
    (hopen : ∀ f ∈ (tail :: fragments).dropLast, f.closed = false)
    (hbytes : ((tail :: fragments).map ExternalBurst.bytes).sum < u32) (bursts : List ExternalBurst) :
    fragments.foldl ExternalOutput.append (bursts ++ [tail]) =
      bursts ++ [fragments.foldl ExternalBurst.join tail] := by
  induction fragments generalizing tail with
  | nil => rfl
  | cons f fragments ih =>
    simp only [List.map_cons, List.sum_cons] at hbytes
    have htail : tail.closed = false := hopen tail (by simp)
    have hextend : tail.extend f = tail.join f := by
      simp only [ExternalBurst.extend, ExternalBurst.join]
      rw [Nat.mod_eq_of_lt (by omega)]
    rw [List.foldl_cons, append_concat, htail, if_neg (by decide), hextend, List.foldl_cons]
    refine ih (fun x hx => ?_) (by simp only [List.map_cons, List.sum_cons, ExternalBurst.join]; omega)
    cases fragments with
    | nil => cases hx
    | cons f' fragments =>
      rcases List.mem_cons.mp hx with rfl | hx
      · exact hopen f (by simp)
      · exact hopen x (by simp [hx])

theorem foldl_append_chunk {bursts fragments : List ExternalBurst} {f : ExternalBurst}
    (hclosed : ∀ b ∈ bursts, b.closed = true) (hopen : ∀ x ∈ (f :: fragments).dropLast, x.closed = false)
    (hbytes : ((f :: fragments).map ExternalBurst.bytes).sum < u32) :
    (f :: fragments).foldl ExternalOutput.append bursts = bursts ++ [fragments.foldl ExternalBurst.join f] := by
  rw [List.foldl_cons, append_closed hclosed, foldl_append_open hopen hbytes]

/-- What fragments are joined to: it begins with the first and ends with the last. -/
theorem foldl_join (f : ExternalBurst) (fragments : List ExternalBurst) :
    (fragments.foldl ExternalBurst.join f).bytes = ((f :: fragments).map ExternalBurst.bytes).sum ∧
      (fragments.foldl ExternalBurst.join f).address = f.address ∧
      (fragments.foldl ExternalBurst.join f).gather = f.gather ∧
      (fragments.foldl ExternalBurst.join f).secondChannelOffset = f.secondChannelOffset ∧
      ((f :: fragments).map ExternalBurst.closed).getLast? = some (fragments.foldl ExternalBurst.join f).closed ∧
      ((f :: fragments).map ExternalBurst.lastInInstruction).getLast? =
        some (fragments.foldl ExternalBurst.join f).lastInInstruction := by
  induction fragments generalizing f with
  | nil => simp
  | cons x fragments ih =>
    obtain ⟨hbytes, haddress, hgather, hsecond, hclosed, hlast⟩ := ih (f.join x)
    rw [List.foldl_cons, ← hclosed, ← hlast, hbytes]
    refine ⟨?_, haddress, hgather, hsecond, ?_, ?_⟩
    · simp only [List.map_cons, List.sum_cons, ExternalBurst.join]
      omega
    · simp [ExternalBurst.join]
    · simp [ExternalBurst.join]

theorem wholeBursts_snoc (fragments : List ExternalBurst) (burst : ExternalBurst) :
    wholeBursts (fragments ++ [burst]) = joinLast (wholeBursts fragments) burst := by
  simp [wholeBursts]

/-! ## The ledger -/

/-- A burst, and the packets taken of it so far. -/
structure OutputEntry where
  burst : ExternalBurst
  packets : List ExternalWriteBatch

namespace OutputEntry

def served (e : OutputEntry) : Nat := (e.packets.map fun p => p.primary.fragment.bytes).sum

/-- What is left of the burst. -/
def rest (e : OutputEntry) : ExternalBurst :=
  if e.burst.gather then
    { e.burst with address := e.burst.address + e.served.toUInt64, bytes := e.burst.bytes - e.served }
  else { e.burst with rowOffset := e.served, bytes := e.burst.bytes - e.served }

end OutputEntry

/-- What a packet at byte `offset` of a burst is. -/
structure PacketOf (b : ExternalBurst) (offset : Nat) (p : ExternalWriteBatch) : Prop where
  bytes : 0 < p.primary.fragment.bytes ∧ offset + p.primary.fragment.bytes ≤ b.bytes
  primary : p.primary.fragment = {
    instructionId := b.instructionId
    requestId := b.requestId
    destinationAddress := b.address + offset.toUInt64
    bytes := p.primary.fragment.bytes
    lastInUop := true
    lastInInstruction :=
      b.closed && b.lastInInstruction && decide (offset + p.primary.fragment.bytes = b.bytes) }
  second : p.secondChannel.map StoreWrite.fragment = b.secondChannelOffset.map fun shift =>
    { p.primary.fragment with
      destinationAddress := p.primary.fragment.destinationAddress + shift, lastInInstruction := false }
  unsplit : b.gather = false → ((modeOfWord b.policy.burstControl).splitBytes p.primary.fragment.destinationAddress
    p.primary.fragment.bytes.toUInt32).toNat = p.primary.fragment.bytes

/-- The packets begin at `offset`, each where the one before ends. -/
def PacketsInOrder (b : ExternalBurst) : Nat → List ExternalWriteBatch → Prop
  | _, [] => True
  | offset, p :: packets => PacketOf b offset p ∧ PacketsInOrder b (offset + p.primary.fragment.bytes) packets

theorem packetsInOrder_snoc {b : ExternalBurst} {offset : Nat} {packets : List ExternalWriteBatch}
    {p : ExternalWriteBatch} :
    PacketsInOrder b offset (packets ++ [p]) ↔ PacketsInOrder b offset packets ∧
      PacketOf b (offset + (packets.map fun p => p.primary.fragment.bytes).sum) p := by
  induction packets generalizing offset with
  | nil => simp [PacketsInOrder]
  | cons q packets ih =>
    rw [List.cons_append, PacketsInOrder, PacketsInOrder, ih, List.map_cons, List.sum_cons, and_assoc, Nat.add_assoc]

/-- Packets of an open burst stay what they are when it goes on: none of them was its last. -/
theorem PacketsInOrder.join {b f : ExternalBurst} {offset : Nat} {packets : List ExternalWriteBatch}
    (h : PacketsInOrder b offset packets) (hopen : b.closed = false) (hf : 0 < f.bytes) :
    PacketsInOrder (b.join f) offset packets := by
  induction packets generalizing offset with
  | nil => trivial
  | cons p packets ih =>
    obtain ⟨hp, h⟩ := h
    refine ⟨⟨?_, ?_, hp.second, hp.unsplit⟩, ih h⟩
    · have hle := hp.bytes.2
      exact ⟨hp.bytes.1, by show _ ≤ b.bytes + f.bytes; omega⟩
    · have hne : offset + p.primary.fragment.bytes ≠ b.bytes + f.bytes := by
        have hle := hp.bytes.2
        omega
      rw [hp.primary]
      simp [ExternalBurst.join, hopen, hne]

theorem PacketsInOrder.served_le {b : ExternalBurst} {offset : Nat} {packets : List ExternalWriteBatch}
    (h : PacketsInOrder b offset packets) (hle : offset ≤ b.bytes) :
    offset + (packets.map fun p => p.primary.fragment.bytes).sum ≤ b.bytes := by
  induction packets generalizing offset with
  | nil => exact hle
  | cons p packets ih =>
    obtain ⟨hp, h⟩ := h
    rw [List.map_cons, List.sum_cons, ← Nat.add_assoc]
    exact ih h hp.bytes.2

/-- What is known of a burst of fragments. -/
structure BurstFormed (b : ExternalBurst) : Prop where
  bytes : b.bytes < u32
  policy : ∃ control stride, b.policy = .new control stride
  offset : b.rowOffset = 0
  row : b.gather = false → b.closed = true ∧ b.rowBytes = b.bytes

/-- The bursts that are done, and those in the queue, with the packets taken of each. -/
structure OutputLedger (fragments : List ExternalBurst) (packets : List ExternalWriteBatch) (queue : List ExternalBurst)
    (done live : List OutputEntry) : Prop where
  bursts : (done ++ live).map OutputEntry.burst = wholeBursts fragments
  packets : (done ++ live).flatMap OutputEntry.packets = packets
  inOrder : ∀ e ∈ done ++ live, PacketsInOrder e.burst 0 e.packets
  finished : ∀ e ∈ done, e.burst.closed = true ∧ e.served = e.burst.bytes
  queue : queue = live.map OutputEntry.rest
  waiting : live.tail.flatMap OutputEntry.packets = []
  closed : ∀ e ∈ live.dropLast, e.burst.closed = true
  left : ∀ e ∈ live, e.burst.closed = true → e.served < e.burst.bytes
  formed : ∀ e ∈ live, BurstFormed e.burst

variable {fragments : List ExternalBurst} {packets : List ExternalWriteBatch} {queue : List ExternalBurst}
  {done live : List OutputEntry} {f : ExternalBurst} {tick : Nat} {ready : Bool}

theorem OutputLedger.served_le (h : OutputLedger fragments packets queue done live) {e : OutputEntry}
    (he : e ∈ done ++ live) :
    e.served ≤ e.burst.bytes := by
  have hle := (h.inOrder e he).served_le (Nat.zero_le _)
  rwa [Nat.zero_add] at hle

theorem outputLedger_empty : OutputLedger [] [] [] [] [] :=
  ⟨rfl, rfl, by simp, by simp, rfl, rfl, by simp, by simp, by simp⟩

theorem formed_appended (hf : f.Appended) : BurstFormed f := ⟨hf.bytes.2, hf.policy, hf.offset, hf.row⟩

theorem rest_fresh (hf : f.Appended) : OutputEntry.rest ⟨f, []⟩ = f := by
  unfold OutputEntry.rest OutputEntry.served
  have hoffset := hf.offset
  cases f
  simp only at hoffset
  simp [hoffset]

/-- A fragment that begins a burst. -/
theorem OutputLedger.push (h : OutputLedger fragments packets queue done live) (hf : f.Appended)
    (hclosed : ∀ e ∈ live, e.burst.closed = true) :
    OutputLedger (fragments ++ [f]) packets (queue ++ [f]) done (live ++ [⟨f, []⟩]) := by
  have hall : ∀ b ∈ wholeBursts fragments, b.closed = true := by
    intro b hb
    rw [← h.bursts] at hb
    obtain ⟨e, he, rfl⟩ := List.mem_map.mp hb
    rcases List.mem_append.mp he with he | he
    · exact (h.finished e he).1
    · exact hclosed e he
  have hjoin : joinLast (wholeBursts fragments) f = wholeBursts fragments ++ [f] := by
    rcases List.eq_nil_or_concat' (wholeBursts fragments) with hnil | ⟨bursts, tail, hlast⟩
    · rw [hnil]
      rfl
    · rw [hlast, joinLast_concat, if_pos (hall tail (by simp [hlast]))]
      simp
  refine ⟨?_, ?_, fun e he => ?_, h.finished, ?_, ?_, ?_, fun e he => ?_, fun e he => ?_⟩
  · rw [wholeBursts_snoc, hjoin, ← h.bursts]
    simp
  · rw [← h.packets]
    simp
  · rw [← List.append_assoc] at he
    rcases List.mem_append.mp he with he | he
    · exact h.inOrder e he
    · obtain rfl := List.mem_singleton.mp he
      trivial
  · rw [h.queue, List.map_append, List.map_singleton, rest_fresh hf]
  · cases live with
    | nil => rfl
    | cons e live =>
      have hwaiting := h.waiting
      simp only [List.tail_cons] at hwaiting
      simp [hwaiting]
  · rw [List.dropLast_concat]
    exact hclosed
  · rcases List.mem_append.mp he with he | he
    · exact h.left e he
    · obtain rfl := List.mem_singleton.mp he
      exact fun _ => hf.bytes.1
  · rcases List.mem_append.mp he with he | he
    · exact h.formed e he
    · obtain rfl := List.mem_singleton.mp he
      exact formed_appended hf

/-- A fragment that goes on an open burst. -/
theorem OutputLedger.join {e : OutputEntry} (h : OutputLedger fragments packets queue done (live ++ [e]))
    (hf : f.Appended)
    (hopen : e.burst.closed = false) (hbytes : e.burst.bytes + f.bytes < u32) :
    OutputLedger (fragments ++ [f]) packets (live.map OutputEntry.rest ++ [e.rest.extend f]) done
      (live ++ [⟨e.burst.join f, e.packets⟩]) := by
  have hmem : e ∈ live ++ [e] := List.mem_append_right _ (List.mem_singleton_self e)
  have hle := h.served_le (List.mem_append_right done hmem)
  have hformed := h.formed e hmem
  have hgather : e.burst.gather = true := by
    by_contra hrow
    have := (hformed.row (by simpa using hrow)).1
    rw [hopen] at this
    cases this
  have hrest : e.rest.extend f = OutputEntry.rest ⟨e.burst.join f, e.packets⟩ := by
    have hserved : OutputEntry.served ⟨e.burst.join f, e.packets⟩ = e.served := rfl
    have hgather' : (e.burst.join f).gather = true := hgather
    have hmod : (e.burst.bytes - e.served + f.bytes) % u32 = e.burst.bytes + f.bytes - e.served := by
      rw [Nat.mod_eq_of_lt (by omega)]
      omega
    simp only [OutputEntry.rest, hserved, hgather, hgather', if_true, ExternalBurst.extend, hmod]
    rfl
  refine ⟨?_, ?_, fun x hx => ?_, h.finished, ?_, ?_, ?_, fun x hx => ?_, fun x hx => ?_⟩
  · have hbursts := h.bursts
    rw [← List.append_assoc, List.map_append, List.map_singleton] at hbursts
    rw [wholeBursts_snoc, ← hbursts, joinLast_concat, hopen]
    simp
  · rw [← h.packets]
    simp
  · rw [← List.append_assoc] at hx
    rcases List.mem_append.mp hx with hx | hx
    · exact h.inOrder x (by rw [← List.append_assoc]; exact List.mem_append_left _ hx)
    · obtain rfl := List.mem_singleton.mp hx
      exact (h.inOrder e (List.mem_append_right done hmem)).join hopen hf.bytes.1
  · rw [List.map_append, List.map_singleton, hrest]
  · have hwaiting := h.waiting
    cases live with
    | nil => rfl
    | cons x live => simpa using hwaiting
  · have hclosed := h.closed
    rw [List.dropLast_concat] at hclosed ⊢
    exact hclosed
  · rcases List.mem_append.mp hx with hx | hx
    · exact h.left x (List.mem_append_left _ hx)
    · obtain rfl := List.mem_singleton.mp hx
      intro _
      have hpos := hf.bytes.1
      show e.served < e.burst.bytes + f.bytes
      omega
  · rcases List.mem_append.mp hx with hx | hx
    · exact h.formed x (List.mem_append_left _ hx)
    · obtain rfl := List.mem_singleton.mp hx
      refine ⟨hbytes, hformed.policy, hformed.offset, fun hrow => ?_⟩
      exact absurd (hgather.symm.trans hrow) nofun

/-! ## Taking -/

theorem publishBatch_fragment (fragment : MteOutputFragment) (second : Option UInt64) (stores : Stores) :
    (publishBatch fragment second stores).1.primary.fragment = fragment ∧
      (publishBatch fragment second stores).1.secondChannel.map StoreWrite.fragment = second.map fun shift =>
        { fragment with destinationAddress := fragment.destinationAddress + shift, lastInInstruction := false } := by
  cases second <;> exact ⟨rfl, rfl⟩

variable {e : OutputEntry} {bytes : Nat}

theorem rest_fields (e : OutputEntry) : e.rest.gather = e.burst.gather ∧ e.rest.closed = e.burst.closed ∧
    e.rest.policy = e.burst.policy ∧ e.rest.bytes = e.burst.bytes - e.served ∧
    e.rest.readyTick = e.burst.readyTick := by
  unfold OutputEntry.rest
  split <;> exact ⟨rfl, rfl, rfl, rfl, rfl⟩

theorem rest_packetAddress (e : OutputEntry) : e.rest.packetAddress = e.burst.address + e.served.toUInt64 := by
  unfold ExternalBurst.packetAddress OutputEntry.rest
  by_cases hg : e.burst.gather = true <;> simp [hg]

/-- A packet of what is left has bytes, no more than are left, and is not split again if it is of a row. -/
theorem rest_packetBytes (hformed : BurstFormed e.burst) (hle : e.served ≤ e.burst.bytes)
    (hleft : e.burst.closed = true → e.served < e.burst.bytes) (h : e.rest.packetBytes = some bytes) :
    0 < bytes ∧ e.served + bytes ≤ e.burst.bytes ∧ (e.burst.gather = false →
      ((modeOfWord e.burst.policy.burstControl).splitBytes (e.burst.address + e.served.toUInt64)
        bytes.toUInt32).toNat = bytes) := by
  obtain ⟨hgather, hclosed, hpolicy, hbytes, -⟩ := rest_fields e
  obtain ⟨control, stride, hnew⟩ := hformed.policy
  unfold ExternalBurst.packetBytes at h
  rw [hgather, hpolicy, hclosed, hbytes, rest_packetAddress, hnew] at h
  by_cases hg : e.burst.gather = true
  · rw [if_pos hg] at h
    unfold ExternalOutputPolicy.gatheredPacket at h
    refine ⟨?_, ?_, fun hrow => absurd (hg.symm.trans hrow) nofun⟩
    all_goals
      split_ifs at h with hend havailable
      · obtain rfl := Option.some.inj h
        have := ExternalOutputPolicy.rowPacket_bounds control stride (e.burst.address + e.served.toUInt64)
          (show 0 < e.burst.bytes - e.served by have := hleft hend; omega)
        omega
      · obtain rfl := Option.some.inj h
        have := ExternalOutputPolicy.openLimit_pos control stride (e.burst.address + e.served.toUInt64)
        omega
  · have hrow : e.burst.gather = false := by simpa using hg
    obtain ⟨hend, hrowBytes⟩ := hformed.row hrow
    have hlt := hleft hend
    have hrest : e.rest.rowBytes = e.burst.bytes ∧ e.rest.rowOffset = e.served := by
      unfold OutputEntry.rest
      rw [if_neg hg]
      exact ⟨hrowBytes, rfl⟩
    rw [if_neg hg, hrest.1, hrest.2, if_neg (Nat.not_le.mpr hlt)] at h
    obtain rfl := Option.some.inj h
    have hbounds := ExternalOutputPolicy.rowPacket_bounds control stride (e.burst.address + e.served.toUInt64)
      (Nat.sub_pos_of_lt hlt)
    refine ⟨hbounds.1, by omega, fun _ => ?_⟩
    rw [hnew]
    exact ExternalOutputPolicy.rowPacket_unsplit control stride _ (lt_of_le_of_lt (Nat.sub_le _ _) hformed.bytes)

/-- What is left of a closed burst always gives a packet. -/
theorem rest_packetBytes_isSome (hformed : BurstFormed e.burst) (hend : e.burst.closed = true)
    (hleft : e.served < e.burst.bytes) : e.rest.packetBytes ≠ none := by
  obtain ⟨hgather, hclosed, hpolicy, hbytes, -⟩ := rest_fields e
  unfold ExternalBurst.packetBytes
  rw [hgather, hclosed, hend]
  by_cases hg : e.burst.gather = true
  · rw [if_pos hg]
    exact Option.some_ne_none _
  · have hrowBytes := (hformed.row (by simpa using hg)).2
    have hrest : e.rest.rowBytes = e.burst.bytes ∧ e.rest.rowOffset = e.served := by
      unfold OutputEntry.rest
      rw [if_neg hg]
      exact ⟨hrowBytes, rfl⟩
    rw [if_neg hg, hrest.1, hrest.2, if_neg (Nat.not_le.mpr hleft)]
    exact Option.some_ne_none _

/-- The entry with a packet more. -/
def OutputEntry.take (e : OutputEntry) (p : ExternalWriteBatch) : OutputEntry := ⟨e.burst, e.packets ++ [p]⟩

theorem take_served (e : OutputEntry) (p : ExternalWriteBatch) :
    (e.take p).served = e.served + p.primary.fragment.bytes := by
  simp [OutputEntry.take, OutputEntry.served]

theorem rest_taken (hformed : BurstFormed e.burst) (hpos : 0 < bytes) (hle : e.served + bytes ≤ e.burst.bytes) :
    (e.rest.taken bytes).bytes = e.burst.bytes - (e.served + bytes) ∧
      (¬ (e.burst.closed = true ∧ e.served + bytes = e.burst.bytes) → ∀ p : ExternalWriteBatch,
        p.primary.fragment.bytes = bytes → e.rest.taken bytes = (e.take p).rest) := by
  have hlt := hformed.bytes
  have hmod : (e.burst.bytes - e.served + u32 - bytes) % u32 = e.burst.bytes - (e.served + bytes) := by
    rw [show e.burst.bytes - e.served + u32 - bytes = e.burst.bytes - (e.served + bytes) + u32 by omega,
      Nat.add_mod_right, Nat.mod_eq_of_lt (by omega)]
  by_cases hg : e.burst.gather = true
  · have htaken : e.rest.taken bytes = { e.burst with
        address := e.burst.address + e.served.toUInt64 + bytes.toUInt64
        bytes := e.burst.bytes - (e.served + bytes) } := by
      simp only [OutputEntry.rest, hg, if_true, ExternalBurst.taken, hmod]
    refine ⟨by rw [htaken], fun _ p hp => ?_⟩
    rw [htaken, OutputEntry.rest, take_served, hp]
    have hsum : e.served.toUInt64 + bytes.toUInt64 = (e.served + bytes).toUInt64 := (UInt64.ofNat_add _ _).symm
    simp only [OutputEntry.take, hg, if_true, UInt64.add_assoc, hsum]
  · have hrow : e.burst.gather = false := by simpa using hg
    obtain ⟨hclosed, hrowBytes⟩ := hformed.row hrow
    have hbytes : (e.rest.taken bytes).bytes = e.burst.bytes - (e.served + bytes) := by
      simp only [OutputEntry.rest, hrow, Bool.false_eq_true, if_false, ExternalBurst.taken, hmod]
      split <;> rfl
    refine ⟨hbytes, fun hmore p hp => ?_⟩
    have hne : e.served + bytes ≠ e.burst.rowBytes := fun heq => hmore ⟨hclosed, heq.trans hrowBytes⟩
    rw [OutputEntry.rest, OutputEntry.rest, take_served, hp]
    simp only [OutputEntry.take, hrow, Bool.false_eq_true, if_false, ExternalBurst.taken, hmod, hne]

/-- The packet that the head of the queue gives, in the ledger. -/
theorem packetOf_head (stores : Stores) (hformed : BurstFormed e.burst) (hle : e.served ≤ e.burst.bytes)
    (hleft : e.burst.closed = true → e.served < e.burst.bytes) (h : e.rest.packetBytes = some bytes) :
    PacketOf e.burst e.served (publishBatch (e.rest.packet bytes) e.rest.secondChannelOffset stores).1 := by
  obtain ⟨hpos, hbytes, hsplit⟩ := rest_packetBytes hformed hle hleft h
  obtain ⟨hprimary, hsecond⟩ := publishBatch_fragment (e.rest.packet bytes) e.rest.secondChannelOffset stores
  obtain ⟨-, hclosed, -, -, -⟩ := rest_fields e
  have hids : e.rest.instructionId = e.burst.instructionId ∧ e.rest.requestId = e.burst.requestId ∧
      e.rest.lastInInstruction = e.burst.lastInInstruction ∧
      e.rest.secondChannelOffset = e.burst.secondChannelOffset := by
    unfold OutputEntry.rest
    split <;> exact ⟨rfl, rfl, rfl, rfl⟩
  have hfinishes : e.rest.finishes bytes = (e.burst.closed && decide (e.served + bytes = e.burst.bytes)) := by
    unfold ExternalBurst.finishes
    rw [(rest_taken hformed hpos hbytes).1, hclosed]
    congr 1
    rw [Bool.eq_iff_iff, beq_iff_eq, decide_eq_true_eq]
    omega
  have hfragment : e.rest.packet bytes = ⟨e.burst.instructionId, e.burst.requestId,
      e.burst.address + e.served.toUInt64, bytes, true,
      e.burst.closed && e.burst.lastInInstruction && decide (e.served + bytes = e.burst.bytes)⟩ := by
    unfold ExternalBurst.packet
    rw [rest_packetAddress, hfinishes, hids.1, hids.2.1, hids.2.2.1, Bool.and_right_comm]
  have hfields := hprimary.trans hfragment
  have hsize : (publishBatch (e.rest.packet bytes) e.rest.secondChannelOffset stores).1.primary.fragment.bytes =
      bytes := by
    rw [hfields]
  refine ⟨?_, ?_, ?_, fun hrow => ?_⟩
  · rw [hsize]
    exact ⟨hpos, hbytes⟩
  · rw [hsize]
    exact hfields
  · rw [hsecond, hprimary, hids.2.2.2]
  · rw [hsize, hfields]
    exact hsplit hrow

/-- A packet goes to the first burst of the queue, and removes it if it ends it. -/
theorem OutputLedger.take (h : OutputLedger fragments packets queue done (e :: live)) {p : ExternalWriteBatch}
    (hp : PacketOf e.burst e.served p) (hbytes : p.primary.fragment.bytes = bytes) :
    (e.rest.finishes bytes = true →
      OutputLedger fragments (packets ++ [p]) (live.map OutputEntry.rest) (done ++ [e.take p]) live) ∧
      (e.rest.finishes bytes = false →
        OutputLedger fragments (packets ++ [p]) (e.rest.taken bytes :: live.map OutputEntry.rest) done
          (e.take p :: live)) := by
  have hmem : e ∈ e :: live := List.mem_cons_self
  have hformed := h.formed e hmem
  obtain ⟨hpos, hle⟩ := hp.bytes
  rw [hbytes] at hpos hle
  obtain ⟨htaken, hrest⟩ := rest_taken hformed hpos hle
  have hwaiting : live.flatMap OutputEntry.packets = [] := h.waiting
  have horder : PacketsInOrder (e.take p).burst 0 (e.take p).packets := by
    refine packetsInOrder_snoc.mpr ⟨h.inOrder e (List.mem_append_right _ hmem), ?_⟩
    rw [Nat.zero_add]
    exact hp
  have hpackets : done.flatMap OutputEntry.packets ++ e.packets = packets := by
    rw [← h.packets, List.flatMap_append, List.flatMap_cons, hwaiting, List.append_nil]
  have hentries : ∀ x ∈ done ++ e.take p :: live, PacketsInOrder x.burst 0 x.packets := by
    intro x hx
    rcases List.mem_append.mp hx with hx | hx
    · exact h.inOrder x (List.mem_append_left _ hx)
    · rcases List.mem_cons.mp hx with rfl | hx
      · exact horder
      · exact h.inOrder x (List.mem_append_right _ (List.mem_cons_of_mem _ hx))
  have hbursts : (done ++ e.take p :: live).map OutputEntry.burst = wholeBursts fragments := by
    rw [← h.bursts]
    simp [OutputEntry.take]
  have hall : (done ++ e.take p :: live).flatMap OutputEntry.packets = packets ++ [p] := by
    rw [List.flatMap_append, List.flatMap_cons, hwaiting, List.append_nil, ← hpackets]
    simp [OutputEntry.take]
  have hfinishes : e.rest.finishes bytes = true ↔ e.burst.closed = true ∧ e.served + bytes = e.burst.bytes := by
    unfold ExternalBurst.finishes
    rw [htaken, (rest_fields e).2.1, Bool.and_eq_true, beq_iff_eq]
    exact and_congr_right fun _ => by omega
  constructor
  · intro hend
    obtain ⟨hclosed, hserved⟩ := hfinishes.mp hend
    rw [← List.singleton_append, ← List.append_assoc] at hentries hbursts hall
    refine ⟨hbursts, hall, hentries, fun x hx => ?_, rfl, ?_, fun x hx => ?_, fun x hx => ?_, fun x hx => ?_⟩
    · rcases List.mem_append.mp hx with hx | hx
      · exact h.finished x hx
      · obtain rfl := List.mem_singleton.mp hx
        refine ⟨hclosed, ?_⟩
        rw [take_served, hbytes]
        exact hserved
    · cases live with
      | nil => rfl
      | cons x live =>
        rw [List.flatMap_cons, List.append_eq_nil_iff] at hwaiting
        exact hwaiting.2
    · cases live with
      | nil => cases hx
      | cons y live => exact h.closed x (List.mem_cons_of_mem _ hx)
    · exact h.left x (List.mem_cons_of_mem _ hx)
    · exact h.formed x (List.mem_cons_of_mem _ hx)
  · intro hmore
    have hnot : ¬ (e.burst.closed = true ∧ e.served + bytes = e.burst.bytes) := fun hend => by
      rw [hfinishes.mpr hend] at hmore
      cases hmore
    have hnext : e.rest.taken bytes = (e.take p).rest := hrest hnot p hbytes
    refine ⟨hbursts, hall, hentries, h.finished, by rw [hnext]; rfl, hwaiting, fun x hx => ?_, fun x hx => ?_,
      fun x hx => ?_⟩
    · cases live with
      | nil => cases hx
      | cons y live =>
        rcases List.mem_cons.mp hx with rfl | hx
        · exact h.closed e List.mem_cons_self
        · exact h.closed x (List.mem_cons_of_mem _ hx)
    · rcases List.mem_cons.mp hx with rfl | hx
      · intro hclosed
        have hne : e.served + bytes ≠ e.burst.bytes := fun heq => hnot ⟨hclosed, heq⟩
        rw [take_served, hbytes]
        show e.served + bytes < e.burst.bytes
        omega
      · exact h.left x (List.mem_cons_of_mem _ hx)
    · rcases List.mem_cons.mp hx with rfl | hx
      · exact hformed
      · exact h.formed x (List.mem_cons_of_mem _ hx)

namespace ExternalOutput

/-- A take gives nothing and changes nothing, or gives a packet of the head. -/
theorem takeHead_cases (tick : Nat) (ready : Bool) (s : ExternalOutput × Stores) :
    takeHead tick ready s = (none, s) ∨ ∃ head rest bytes, s.1.bursts = head :: rest ∧
      head.packetBytes = some bytes ∧
      (takeHead tick ready s).1 = some (publishBatch (head.packet bytes) head.secondChannelOffset s.2).1 ∧
      (takeHead tick ready s).2.1.bursts = if head.finishes bytes then rest else head.taken bytes :: rest := by
  unfold takeHead
  cases hqueue : s.1.bursts with
  | nil => exact .inl rfl
  | cons head rest =>
    by_cases hblocked : (!ready || decide (tick < head.readyTick)) = true
    · exact .inl (if_pos hblocked)
    · cases hbytes : head.packetBytes with
      | none => exact .inl (by simp [hblocked, hbytes])
      | some bytes =>
        exact .inr ⟨head, rest, bytes, rfl, hbytes, by simp [hblocked, hbytes], by simp [hblocked, hbytes]⟩

theorem takeHead_ledger (tick : Nat) (ready : Bool) {s : ExternalOutput × Stores}
    (h : OutputLedger fragments packets s.1.bursts done live) :
    ∃ done' live', done.length ≤ done'.length ∧ OutputLedger fragments (packets ++ (takeHead tick ready s).1.toList)
      (takeHead tick ready s).2.1.bursts done' live' := by
  rcases takeHead_cases tick ready s with hnone | ⟨head, rest, bytes, hqueue, hbytes, hbatch, hbursts⟩
  · rw [hnone]
    exact ⟨done, live, le_rfl, (List.append_nil packets).symm ▸ h⟩
  · rw [hbatch, hbursts]
    cases live with
    | nil =>
      have := h.queue.symm.trans hqueue
      cases this
    | cons e live =>
      obtain ⟨rfl, rfl⟩ := List.cons.inj (h.queue.symm.trans hqueue)
      have hmem : e ∈ e :: live := List.mem_cons_self
      have hle := h.served_le (List.mem_append_right done hmem)
      have hp := packetOf_head s.2 (h.formed e hmem) hle (h.left e hmem) hbytes
      have hsize := congrArg MteOutputFragment.bytes
        (publishBatch_fragment (e.rest.packet bytes) e.rest.secondChannelOffset s.2).1
      obtain ⟨hend, hmore⟩ := h.take hp hsize
      cases hfinishes : e.rest.finishes bytes with
      | true => exact ⟨_, live, by rw [List.length_append]; omega, hend hfinishes⟩
      | false => exact ⟨done, _, le_rfl, hmore hfinishes⟩

/-- A closed burst at the head gives a packet when it is ready and there is credit. -/
theorem takeHead_isSome {s : ExternalOutput × Stores} {e : OutputEntry}
    (h : OutputLedger fragments packets s.1.bursts done (e :: live)) (hclosed : e.burst.closed = true)
    (htick : e.burst.readyTick ≤ tick) : (takeHead tick true s).1 ≠ none := by
  have hmem : e ∈ e :: live := List.mem_cons_self
  have hsome := rest_packetBytes_isSome (h.formed e hmem) hclosed (h.left e hmem hclosed)
  have hready : ¬ tick < e.rest.readyTick := by
    rw [(rest_fields e).2.2.2.2]
    omega
  unfold takeHead
  rw [h.queue, List.map_cons]
  simp only [hready, decide_false, Bool.not_true, Bool.or_false, Bool.false_eq_true, if_false]
  cases hbytes : e.rest.packetBytes with
  | none => exact absurd hbytes hsome
  | some bytes => exact Option.some_ne_none _

/-! ## Calls -/

/-- The fragment that a call appended. -/
def fragmentOf : Command × Except ExternalOutputError Answer → Option ExternalBurst
  | (.receive tick (some burst), .ok .received) => some { burst with readyTick := tick + 1 }
  | _ => none

/-- The packets that a call took. -/
def packetOf : Command × Except ExternalOutputError Answer → Option ExternalWriteBatch
  | (_, .ok (.taken batch)) => batch
  | _ => none

def fragmentsOf (trace : List (Command × Except ExternalOutputError Answer)) : List ExternalBurst :=
  trace.filterMap fragmentOf

def packetsOf (trace : List (Command × Except ExternalOutputError Answer)) : List ExternalWriteBatch :=
  trace.filterMap packetOf

theorem observe_bursts (tick : Nat) (s : ExternalOutput) : (observe tick s).2.bursts = s.bursts := by
  unfold observe
  split
  · split_ifs <;> rfl
  · rfl

theorem receive_cases (tick : Nat) (burst : Option ExternalBurst) (s : ExternalOutput) :
    (∃ e, (receive tick burst s).1 = .error e ∧ (receive tick burst s).2.bursts = s.bursts) ∨
    ((receive tick burst s).1 = .ok () ∧ (receive tick burst s).2.bursts = match burst with
      | none => s.bursts
      | some burst => append s.bursts { burst with readyTick := tick + 1 }) := by
  have hbursts := observe_bursts tick s
  unfold receive Call.bind
  cases hobserve : observe tick s with
  | mk result t =>
    rw [hobserve] at hbursts
    cases result with
    | error e => exact .inl ⟨e, rfl, hbursts⟩
    | ok _ =>
      cases hready : checkedAdd tick 1 with
      | none => exact .inl ⟨.timeOverflow, by simp [hready], by simpa [hready] using hbursts⟩
      | some readyTick =>
        obtain ⟨-, rfl⟩ := checkedAdd_eq_some.mp hready
        refine .inr ?_
        cases burst with
        | none => simpa [hready] using hbursts
        | some burst =>
          simp only [hready]
          exact ⟨trivial, by rw [← hbursts]⟩

theorem takeWrites_cases (tick : Nat) (ready : Bool) (s : ExternalOutput × Stores) :
    (∃ e, (takeWrites tick ready s).1 = .error e ∧ (takeWrites tick ready s).2.1.bursts = s.1.bursts) ∨
    ∃ w : ExternalOutput × Stores, w.1.bursts = s.1.bursts ∧
      takeWrites tick ready s = (.ok (takeHead tick ready w).1, (takeHead tick ready w).2) := by
  have hbursts := observe_bursts tick s.1
  unfold takeWrites
  cases hobserve : observe tick s.1 with
  | mk result t =>
    rw [hobserve] at hbursts
    cases result with
    | error e => exact .inl ⟨e, rfl, hbursts⟩
    | ok _ =>
      by_cases hrepeated : t.packetTick = some tick
      · exact .inl ⟨.repeatedPacket tick, by simp [hrepeated], by simpa [hrepeated] using hbursts⟩
      · refine .inr ⟨({ t with packetTick := some tick }, s.2), hbursts, ?_⟩
        simp [hrepeated]

variable {trace : List (Command × Except ExternalOutputError Answer)}
  {x : Command × Except ExternalOutputError Answer} {s u v : ExternalOutput × Stores}

theorem fragmentsOf_snoc : fragmentsOf (trace ++ [x]) = fragmentsOf trace ++ (fragmentOf x).toList := by
  rw [fragmentsOf, List.filterMap_append]
  cases h : fragmentOf x <;> simp [h, fragmentsOf]

theorem packetsOf_snoc : packetsOf (trace ++ [x]) = packetsOf trace ++ (packetOf x).toList := by
  rw [packetsOf, List.filterMap_append]
  cases h : packetOf x <;> simp [h, packetsOf]

/-- A fragment appended keeps the ledger. -/
theorem append_ledger (h : OutputLedger fragments packets queue done live) (hf : f.Appended)
    (hb : ∀ b ∈ wholeBursts (fragments ++ [f]), b.bytes < u32) :
    ∃ live', OutputLedger (fragments ++ [f]) packets (append queue f) done live' := by
  rcases List.eq_nil_or_concat' live with rfl | ⟨before, e, rfl⟩
  · have hqueue : queue = [] := h.queue
    have hpush := h.push hf (by simp)
    rw [hqueue] at hpush ⊢
    exact ⟨_, hpush⟩
  · have hqueue : queue = before.map OutputEntry.rest ++ [e.rest] := by
      rw [h.queue, List.map_append, List.map_singleton]
    have hclosed := (rest_fields e).2.1
    cases hopen : e.burst.closed with
    | true =>
      have hall : ∀ x ∈ before ++ [e], x.burst.closed = true := by
        intro x hx
        rcases List.mem_append.mp hx with hx | hx
        · exact h.closed x (by rwa [List.dropLast_concat])
        · obtain rfl := List.mem_singleton.mp hx
          exact hopen
      refine ⟨before ++ [e] ++ [⟨f, []⟩], ?_⟩
      rw [hqueue, append_concat, hclosed, hopen, if_pos rfl]
      have hpush := h.push hf hall
      rwa [hqueue, List.append_assoc] at hpush
    | false =>
      have hbytes : e.burst.bytes + f.bytes < u32 := by
        have hbursts := h.bursts
        rw [← List.append_assoc, List.map_append, List.map_singleton] at hbursts
        rw [wholeBursts_snoc, ← hbursts, joinLast_concat, hopen] at hb
        exact hb (e.burst.join f) (by simp)
      refine ⟨before ++ [⟨e.burst.join f, e.packets⟩], ?_⟩
      rw [hqueue, append_concat, hclosed, hopen]
      exact h.join hf hopen hbytes

theorem bytes_before (hb : ∀ b ∈ wholeBursts (fragments ++ [f]), b.bytes < u32) :
    ∀ b ∈ wholeBursts fragments, b.bytes < u32 := by
  intro b hmem
  rw [wholeBursts_snoc] at hb
  rcases List.eq_nil_or_concat' (wholeBursts fragments) with hnil | ⟨before, tail, hlast⟩
  · rw [hnil] at hmem
    cases hmem
  · rw [hlast, joinLast_concat] at hb
    rw [hlast] at hmem
    rcases List.mem_append.mp hmem with hbefore | htail
    · split_ifs at hb
      · exact hb b (List.mem_append_left _ hbefore)
      · exact hb b (List.mem_append_left _ hbefore)
    · obtain rfl := List.mem_singleton.mp htail
      split_ifs at hb
      · exact hb b (by simp)
      · have := hb (b.join f) (by simp)
        exact lt_of_le_of_lt (Nat.le_add_right _ _) this

/-- Fragments as they are promised, of bursts of fewer than 2^32 bytes. -/
structure Fits (fragments : List ExternalBurst) : Prop where
  appended : ∀ f ∈ fragments, f.Appended
  bytes : ∀ b ∈ wholeBursts fragments, b.bytes < u32

theorem Fits.before (h : Fits (fragments ++ [f])) : Fits fragments :=
  ⟨fun g hg => h.appended g (List.mem_append_left _ hg), bytes_before h.bytes⟩

theorem ledger_step (h : OutputLedger (fragmentsOf trace) (packetsOf trace) u.1.bursts done live)
    (hstep : calls exec u x v) (hfits : Fits (fragmentsOf (trace ++ [x]))) :
    ∃ done' live', done.length ≤ done'.length ∧
      OutputLedger (fragmentsOf (trace ++ [x])) (packetsOf (trace ++ [x])) v.1.bursts done' live' := by
  obtain ⟨command, answer⟩ := x
  obtain ⟨rfl, rfl⟩ : (exec command u).1 = answer ∧ (exec command u).2 = v := by
    rw [show exec command u = (answer, v) from hstep]
    exact ⟨rfl, rfl⟩
  rw [fragmentsOf_snoc] at hfits ⊢
  rw [packetsOf_snoc]
  cases command with
  | receive tick burst =>
    have hanswer : (exec (.receive tick burst) u).1 = (receive tick burst u.1).1.map fun _ => .received := rfl
    have hqueue : (exec (.receive tick burst) u).2.1 = (receive tick burst u.1).2 := rfl
    rw [hanswer] at hfits ⊢
    rw [hqueue]
    rcases receive_cases tick burst u.1 with ⟨e, herror, hbursts⟩ | ⟨hok, hbursts⟩
    · rw [herror, hbursts]
      refine ⟨done, live, le_rfl, ?_⟩
      have hnone : fragmentOf (.receive tick burst, .error e) = none := by cases burst <;> rfl
      show OutputLedger (fragmentsOf trace ++ (fragmentOf (.receive tick burst, .error e)).toList)
        (packetsOf trace ++ []) _ _ _
      rw [hnone]
      simpa using h
    · rw [hok] at hfits ⊢
      rw [hbursts]
      cases burst with
      | none => exact ⟨done, live, le_rfl, by simpa [fragmentOf, packetOf, Except.map] using h⟩
      | some burst =>
        obtain ⟨live', h'⟩ := append_ledger h (hfits.appended _ (List.mem_append_right _ (List.mem_singleton_self _)))
          hfits.bytes
        exact ⟨done, live', le_rfl, by simpa [fragmentOf, packetOf, Except.map] using h'⟩
  | takeWrites tick ready =>
    have hanswer : (exec (.takeWrites tick ready) u).1 = (takeWrites tick ready u).1.map Answer.taken := rfl
    have hqueue : (exec (.takeWrites tick ready) u).2 = (takeWrites tick ready u).2 := rfl
    have hnone (answer : Except ExternalOutputError Answer) : fragmentOf (.takeWrites tick ready, answer) = none := rfl
    rw [hanswer, hqueue, hnone]
    rcases takeWrites_cases tick ready u with ⟨e, herror, hbursts⟩ | ⟨w, hw, heq⟩
    · rw [herror, hbursts]
      exact ⟨done, live, le_rfl, by simpa [packetOf, Except.map] using h⟩
    · rw [heq]
      rw [← hw] at h
      obtain ⟨done', live', hle, h'⟩ := takeHead_ledger tick ready h
      exact ⟨done', live', hle, by simpa [packetOf, Except.map] using h'⟩

/-! ## Every run -/

theorem fits_before (h : Fits (fragmentsOf (trace ++ [x]))) : Fits (fragmentsOf trace) := by
  rw [fragmentsOf_snoc] at h
  cases hx : fragmentOf x with
  | none => simpa [hx] using h
  | some f =>
    rw [hx] at h
    exact h.before

theorem run_ledger {stores : Stores} (hrun : Run (calls exec) (empty, stores) trace s)
    (hfits : Fits (fragmentsOf trace)) :
    ∃ done live, OutputLedger (fragmentsOf trace) (packetsOf trace) s.1.bursts done live := by
  have hempty : Fits (fragmentsOf []) →
      ∃ done live, OutputLedger (fragmentsOf []) (packetsOf []) (empty, stores).1.bursts done live :=
    fun _ => ⟨[], [], outputLedger_empty⟩
  refine hrun.inv (I := fun trace s => Fits (fragmentsOf trace) →
    ∃ done live, OutputLedger (fragmentsOf trace) (packetsOf trace) s.1.bursts done live) hempty
    (fun trace u x v ih hstep hfits => ?_) hfits
  obtain ⟨done, live, h⟩ := ih (fits_before hfits)
  obtain ⟨done', live', -, h'⟩ := ledger_step h hstep hfits
  exact ⟨done', live', h'⟩

/-! ## Closed bursts are removed -/

/-- A take that finds credit, at a tick from `readyBy` on. -/
def credited (readyBy : Nat) : Command × Except ExternalOutputError Answer → Bool
  | (.takeWrites tick true, .ok _) => readyBy ≤ tick
  | _ => false

/-- Closed bursts stay first among the bursts. -/
theorem prefix_joinLast {closed bursts : List ExternalBurst} (h : closed <+: bursts)
    (hclosed : ∀ b ∈ closed, b.closed = true) : closed <+: joinLast bursts f := by
  rcases List.eq_nil_or_concat' bursts with rfl | ⟨before, tail, rfl⟩
  · rw [List.prefix_nil.mp h]
    exact List.nil_prefix
  · rw [joinLast_concat]
    cases htail : tail.closed with
    | true =>
      rw [if_pos rfl]
      exact h.trans ⟨[f], by simp⟩
    | false =>
      rcases List.prefix_concat_iff.mp h with rfl | h
      · have := hclosed tail (by simp)
        rw [htail] at this
        cases this
      · exact h.trans (List.prefix_append _ _)

theorem prefix_step {closed : List ExternalBurst} (h : closed <+: wholeBursts (fragmentsOf trace))
    (hclosed : ∀ b ∈ closed, b.closed = true) : closed <+: wholeBursts (fragmentsOf (trace ++ [x])) := by
  rw [fragmentsOf_snoc]
  cases fragmentOf x with
  | none => simpa using h
  | some f =>
    show closed <+: wholeBursts (fragmentsOf trace ++ [f])
    rw [wholeBursts_snoc]
    exact prefix_joinLast h hclosed

theorem length_le_served {b : ExternalBurst} {offset : Nat} {packets : List ExternalWriteBatch}
    (h : PacketsInOrder b offset packets) : packets.length ≤ (packets.map fun p => p.primary.fragment.bytes).sum := by
  induction packets generalizing offset with
  | nil => exact le_rfl
  | cons p packets ih =>
    have hpos := h.1.bytes.1
    have := ih h.2
    rw [List.length_cons, List.map_cons, List.sum_cons]
    omega

/-- The head of the queue is one of the first bursts, as long as these are not all done. -/
theorem head_of_first (h : OutputLedger fragments packets queue done live) {closed : List ExternalBurst}
    (hfirst : closed <+: wholeBursts fragments) (hdone : done.length < closed.length) :
    ∃ e rest, live = e :: rest ∧ (done ++ [e]).map OutputEntry.burst <+: closed := by
  have hlength := congrArg List.length h.bursts
  rw [List.length_map, List.length_append] at hlength
  have hle := hfirst.length_le
  cases live with
  | nil =>
    rw [List.length_nil] at hlength
    omega
  | cons e rest =>
    refine ⟨e, rest, rfl, ?_⟩
    have hheads : (done ++ [e]).map OutputEntry.burst <+: wholeBursts fragments := by
      rw [← h.bursts, List.map_append, List.map_append, List.map_cons]
      exact ⟨rest.map OutputEntry.burst, by simp⟩
    refine List.prefix_of_prefix_length_le hheads hfirst ?_
    rw [List.length_map, List.length_append, List.length_singleton]
    omega

/-- While the first bursts are not all done, fewer packets were taken than they have bytes. -/
theorem packets_lt (h : OutputLedger fragments packets queue done live) {closed : List ExternalBurst}
    (hfirst : closed <+: wholeBursts fragments) (hclosed : ∀ b ∈ closed, b.closed = true)
    (hdone : done.length < closed.length) : packets.length < (closed.map ExternalBurst.bytes).sum := by
  obtain ⟨e, rest, rfl, hhead⟩ := head_of_first h hfirst hdone
  have hend : e.burst.closed = true := hclosed _ (hhead.subset (by simp))
  have hmem : e ∈ e :: rest := List.mem_cons_self
  have hwaiting : rest.flatMap OutputEntry.packets = [] := h.waiting
  have hcount : ∀ x ∈ done ++ e :: rest, x.packets.length ≤ x.served := fun x hx => length_le_served (h.inOrder x hx)
  have hsum : (done.map fun x => x.packets.length).sum ≤ (done.map fun x => x.burst.bytes).sum := by
    refine List.sum_le_sum fun x hx => ?_
    rw [← (h.finished x hx).2]
    exact hcount x (List.mem_append_left _ hx)
  have htotal : ((done ++ [e]).map fun x => x.burst.bytes).sum ≤ (closed.map ExternalBurst.bytes).sum := by
    obtain ⟨more, hmore⟩ := hhead
    have hmap : (done ++ [e]).map (fun x => x.burst.bytes) =
        ((done ++ [e]).map OutputEntry.burst).map ExternalBurst.bytes := by
      rw [List.map_map]
      rfl
    rw [← hmore, hmap]
    simp only [List.map_append, List.sum_append]
    exact Nat.le_add_right _ _
  have hlast := h.left e hmem hend
  have hserved := hcount e (List.mem_append_right _ hmem)
  rw [List.map_append, List.sum_append, List.map_singleton, List.sum_singleton] at htotal
  rw [← h.packets, List.flatMap_append, List.flatMap_cons, hwaiting, List.append_nil, List.length_append,
    List.length_flatMap]
  omega

theorem credited_takes {closed : List ExternalBurst} {readyBy : Nat}
    (h : OutputLedger (fragmentsOf trace) (packetsOf trace) u.1.bursts done live)
    (hfirst : closed <+: wholeBursts (fragmentsOf trace)) (hclosed : ∀ b ∈ closed, b.closed = true)
    (hready : ∀ b ∈ closed, b.readyTick ≤ readyBy) (hdone : done.length < closed.length) (hstep : calls exec u x v)
    (hx : credited readyBy x = true) : packetOf x ≠ none := by
  obtain ⟨e, rest, rfl, hhead⟩ := head_of_first h hfirst hdone
  have hmem : e.burst ∈ closed := hhead.subset (by simp)
  obtain ⟨command, answer⟩ := x
  obtain ⟨rfl, rfl⟩ : (exec command u).1 = answer ∧ (exec command u).2 = v := by
    rw [show exec command u = (answer, v) from hstep]
    exact ⟨rfl, rfl⟩
  cases command with
  | receive tick burst => cases hx
  | takeWrites tick ready =>
    have hanswer : (exec (.takeWrites tick ready) u).1 = (takeWrites tick ready u).1.map Answer.taken := rfl
    rw [hanswer] at hx ⊢
    rcases takeWrites_cases tick ready u with ⟨e, herror, -⟩ | ⟨w, hw, heq⟩
    · rw [herror] at hx
      cases ready <;> cases hx
    · rw [heq] at hx ⊢
      cases ready with
      | false => cases hx
      | true =>
        have htick : readyBy ≤ tick := by simpa [credited, Except.map] using hx
        rw [← hw] at h
        exact takeHead_isSome h (hclosed _ hmem) ((hready _ hmem).trans htick)

/-- As many credited takes as the first bursts have bytes remove them. -/
theorem run_removes {closed : List ExternalBurst} {readyBy : Nat}
    (h : OutputLedger (fragmentsOf trace) (packetsOf trace) u.1.bursts done live)
    (hfirst : closed <+: wholeBursts (fragmentsOf trace)) (hclosed : ∀ b ∈ closed, b.closed = true)
    (hready : ∀ b ∈ closed, b.readyTick ≤ readyBy) {more : List (Command × Except ExternalOutputError Answer)}
    (hrun : Run (calls exec) u more v) (hfits : Fits (fragmentsOf (trace ++ more)))
    (hcredits : (closed.map ExternalBurst.bytes).sum ≤ more.countP (credited readyBy)) :
    ∃ done' live', closed.length ≤ done'.length ∧
      OutputLedger (fragmentsOf (trace ++ more)) (packetsOf (trace ++ more)) v.1.bursts done' live' := by
  have hall : Fits (fragmentsOf (trace ++ more)) → ∃ done' live',
      OutputLedger (fragmentsOf (trace ++ more)) (packetsOf (trace ++ more)) v.1.bursts done' live' ∧
        closed <+: wholeBursts (fragmentsOf (trace ++ more)) ∧ (done'.length < closed.length →
          more.countP (credited readyBy) ≤ (packetsOf (trace ++ more)).length) := by
    refine hrun.inv (I := fun more v => Fits (fragmentsOf (trace ++ more)) → ∃ done' live',
      OutputLedger (fragmentsOf (trace ++ more)) (packetsOf (trace ++ more)) v.1.bursts done' live' ∧
        closed <+: wholeBursts (fragmentsOf (trace ++ more)) ∧ (done'.length < closed.length →
          more.countP (credited readyBy) ≤ (packetsOf (trace ++ more)).length)) ?_ ?_
    · intro _
      rw [List.append_nil]
      exact ⟨done, live, h, hfirst, fun _ => Nat.zero_le _⟩
    · intro more u x v ih hstep hfits
      rw [← List.append_assoc] at hfits ⊢
      obtain ⟨done', live', h, hfirst, hcount⟩ := ih (fits_before hfits)
      obtain ⟨done'', live'', hle, h'⟩ := ledger_step h hstep hfits
      refine ⟨done'', live'', h', prefix_step hfirst hclosed, fun hdone => ?_⟩
      have hbefore := hcount (lt_of_le_of_lt hle hdone)
      rw [List.countP_append, packetsOf_snoc, List.length_append, List.countP_singleton]
      cases hx : credited readyBy x with
      | false => simpa using Nat.le_add_right_of_le hbefore
      | true =>
        have hpacket := credited_takes h hfirst hclosed hready (lt_of_le_of_lt hle hdone) hstep hx
        obtain ⟨p, hp⟩ := Option.ne_none_iff_exists'.mp hpacket
        rw [hp]
        simpa using hbefore
  obtain ⟨done', live', h', hfirst', hcount⟩ := hall hfits
  refine ⟨done', live', ?_, h'⟩
  by_contra hlt
  have := packets_lt h' hfirst' hclosed (by omega)
  have := hcount (by omega)
  omega

/-- The bursts that fragments make are served in order, each tiled by its packets; a closed one is removed. -/
theorem packets_tile {stores : Stores} (hrun : Run (calls exec) (empty, stores) trace s)
    (hfits : Fits (fragmentsOf trace)) :
    (∃ done live : List OutputEntry, (done ++ live).map OutputEntry.burst = wholeBursts (fragmentsOf trace) ∧
      (done ++ live).flatMap OutputEntry.packets = packetsOf trace ∧
      (∀ e ∈ done ++ live, PacketsInOrder e.burst 0 e.packets ∧ e.served ≤ e.burst.bytes) ∧
      (∀ e ∈ done, e.burst.closed = true ∧ e.served = e.burst.bytes) ∧ s.1.bursts = live.map OutputEntry.rest) ∧
    ∀ closed readyBy more v, closed <+: wholeBursts (fragmentsOf trace) → (∀ b ∈ closed, b.closed = true) →
      (∀ b ∈ closed, b.readyTick ≤ readyBy) → Run (calls exec) s more v → Fits (fragmentsOf (trace ++ more)) →
      (closed.map ExternalBurst.bytes).sum ≤ more.countP (credited readyBy) →
      closed.length + v.1.bursts.length ≤ (wholeBursts (fragmentsOf (trace ++ more))).length := by
  obtain ⟨done, live, h⟩ := run_ledger hrun hfits
  refine ⟨⟨done, live, h.bursts, h.packets, fun e he => ⟨h.inOrder e he, h.served_le he⟩, h.finished, h.queue⟩, ?_⟩
  intro closed readyBy more v hfirst hclosed hready hmore hfits' hcredits
  obtain ⟨done', live', hle, h'⟩ := run_removes h hfirst hclosed hready hmore hfits' hcredits
  have hlength := congrArg List.length h'.bursts
  rw [List.length_map, List.length_append] at hlength
  rw [h'.queue, List.length_map, ← hlength]
  omega

/-- A fragment of a gathered burst whose packets go to a second channel too. -/
def gathered (bytes : Nat) (closed : Bool) : ExternalBurst :=
  ⟨7, 1, 64, bytes, closed, true, true, 0, 0, some 512, .new 0 0, 0⟩

theorem gathered_appended {bytes : Nat} (h : 0 < bytes ∧ bytes < u32) :
    ∀ f ∈ [{ gathered bytes false with readyTick := 1 }, { gathered bytes true with readyTick := 1 }], f.Appended := by
  intro f hf
  rcases List.mem_cons.mp hf with rfl | hf
  · exact ⟨h, ⟨0, 0, rfl⟩, rfl, nofun⟩
  · obtain rfl := List.mem_singleton.mp hf
    exact ⟨h, ⟨0, 0, rfl⟩, rfl, nofun⟩

/-- Two fragments of `bytes` each, the second of which closes their burst, and two takes. -/
def gatheredCommands (bytes : Nat) : List Command :=
  [.receive 0 (some (gathered bytes false)), .receive 0 (some (gathered bytes true))]

def gatheredRun (bytes : Nat) := runCalls exec (empty, ⟨0, ∅⟩) (gatheredCommands bytes)

def gatheredTakes (bytes : Nat) := runCalls exec (gatheredRun bytes).2 [.takeWrites 1 true, .takeWrites 2 true]

theorem packets_tile_gathered :
    (∃ done live : List OutputEntry,
      (done ++ live).map OutputEntry.burst = wholeBursts (fragmentsOf (gatheredRun 1).1) ∧
      (gatheredRun 1).2.1.bursts = live.map OutputEntry.rest) ∧ 1 + (gatheredTakes 1).2.1.bursts.length ≤ 1 := by
  have happended : ∀ f ∈ fragmentsOf (gatheredRun 1).1, f.Appended := gathered_appended (by decide)
  have hfits : Fits (fragmentsOf (gatheredRun 1).1) := ⟨happended, by decide⟩
  have hfits' : Fits (fragmentsOf ((gatheredRun 1).1 ++ (gatheredTakes 1).1)) := ⟨happended, by decide⟩
  obtain ⟨⟨done, live, hbursts, -, -, -, hqueue⟩, hremoves⟩ :=
    packets_tile (run_runCalls exec (empty, ⟨0, ∅⟩) (gatheredCommands 1)) hfits
  refine ⟨⟨done, live, hbursts, hqueue⟩, ?_⟩
  exact hremoves (wholeBursts (fragmentsOf (gatheredRun 1).1)) 1 (gatheredTakes 1).1 (gatheredTakes 1).2
    List.prefix_rfl (by decide) (by decide) (run_runCalls exec _ _) hfits' (by decide)

/-- Two fragments of 2^31 bytes wrap the counter of their burst, which then gives an empty packet. -/
theorem counter_wraps : ¬ ∀ stores trace s, Run (calls exec) (empty, stores) trace s →
    (∀ f ∈ fragmentsOf trace, f.Appended) → ∀ p ∈ packetsOf trace, 0 < p.primary.fragment.bytes := by
  intro h
  have hrun := run_runCalls exec (empty, ⟨0, ∅⟩) (gatheredCommands (2 ^ 31) ++ [.takeWrites 1 true])
  have happended : ∀ f ∈ fragmentsOf (runCalls exec (empty, ⟨0, ∅⟩)
      (gatheredCommands (2 ^ 31) ++ [.takeWrites 1 true])).1, f.Appended := gathered_appended (by decide)
  have hpackets := h _ _ _ hrun happended
  revert hpackets
  decide

end ExternalOutput

end AscendEmulator.C220.Fixp
