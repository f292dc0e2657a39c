/-
  AscendEmulator.C220.Mte.BiuReadFrontendProofs — tags and pieces of the read frontend.

  The state is tied to what was pushed and sent so far: the tags are partitioned (`Tags`), and the pieces of a core were
  sent or wait in order (`Flow`). The pieces of an input tile its bytes, at the alignment of their mode.
-/

import AscendEmulator.Lib.Tiling
import AscendEmulator.C220.Mte.BiuReadFrontend
import AscendEmulator.C220.Mte.BiuWriteCommandsProofs

namespace AscendEmulator.C220.Mte

open Lib

/-- The pieces of a mode: off a line up to its end, else within a line, or as wide a block as the mode and the address
allow, or any number of lines if the mode has no bound. -/
def DmaUopMode.Permits (mode : DmaUopMode) (address : UInt64) (bytes : UInt32) : Prop :=
  if address.toNat % 128 ≠ 0 then address.toNat % 128 + bytes.toNat ≤ 128
  else
    bytes.toNat ≤ 128 ∨ (mode = .wide512 ∨ mode = .wide256) ∧ address.toNat % 256 = 0 ∧ bytes.toNat = 256 ∨
      mode = .wide512 ∧ address.toNat % 512 = 0 ∧ bytes.toNat = 512 ∨ mode = .unbounded

theorem DmaUopMode.splitBytes_permitted (mode : DmaUopMode) (address : UInt64) (remaining : UInt32) :
    mode.Permits address (mode.splitBytes address remaining) := by
  unfold Permits
  by_cases hline : address.toNat % 128 = 0
  · rw [if_neg (not_not.mpr hline)]
    rcases splitBytes_cases mode address remaining with h | ⟨hmode, h⟩ | ⟨hmode, h⟩ | ⟨hmode, -⟩ | ⟨-, -, h⟩
    · exact absurd hline h.1
    · exact .inr (.inr (.inl ⟨hmode, h.1, h.2.2⟩))
    · exact .inr (.inl ⟨hmode, h.1, h.2.2⟩)
    · exact .inr (.inr (.inr hmode))
    · exact .inl (by omega)
  · have hsplit : mode.splitBytes address remaining = min remaining (128 - (address % 128).toUInt32) :=
      if_pos fun h => hline ((mod_eq_zero address 128).mp h)
    have hsub : (128 - (address % 128).toUInt32).toNat = 128 - (address % 128).toUInt32.toNat := by
      refine UInt32.toNat_sub_of_le _ _ (UInt32.le_iff_toNat_le.mpr ?_)
      rw [toUInt32_mod_128]
      show _ ≤ 128
      omega
    rw [if_pos hline, hsplit, toNat_min, hsub, toUInt32_mod_128]
    omega

/-! ## Splits -/

namespace SplitRequests

variable {s rest : SplitRequests} {piece : UInt32 × BiuReadInput}

/-- Requests within their input. -/
def Within (s : SplitRequests) : Prop := s.offset.toNat ≤ s.input.bytes.toNat

theorem Within.remaining (h : s.Within) : s.remaining.toNat = s.input.bytes.toNat - s.offset.toNat :=
  UInt32.toNat_sub_of_le _ _ (UInt32.le_iff_toNat_le.mpr h)

theorem Within.remaining_pos (h : s.Within) : s.remaining ≠ 0 ↔ s.offset.toNat < s.input.bytes.toNat := by
  rw [toNat_pos, h.remaining]
  omega

theorem next_none : s.next = none ↔ s.remaining = 0 := by
  by_cases h : s.remaining = 0
  · exact iff_of_true (if_pos h) h
  · have hsome : s.next = some _ := if_neg h
    rw [hsome]
    exact iff_of_false (Option.some_ne_none _) h

/-- What a step takes: a piece of the size that the mode gives, and no more than is left. -/
theorem next_some (h : s.next = some (piece, rest)) :
    piece = (s.offset, s.input.piece s.offset piece.2.bytes) ∧
      rest = { s with offset := s.offset + piece.2.bytes } ∧
      piece.2.bytes = s.input.generated.mode.splitBytes piece.2.generated.request.sourceAddress s.remaining ∧
      s.remaining ≠ 0 := by
  have hr : s.remaining ≠ 0 := by
    intro hzero
    rw [next_none.mpr hzero] at h
    cases h
  have hsome : s.next = some _ := if_neg hr
  rw [hsome] at h
  cases h
  exact ⟨rfl, rfl, rfl, hr⟩

theorem next_input (h : s.next = some (piece, rest)) : rest.input = s.input := by
  rw [(next_some h).2.1]

/-- A step takes at least a byte, and stays within the input. -/
theorem Within.next (h : s.Within) (hnext : s.next = some (piece, rest)) :
    0 < piece.2.bytes.toNat ∧ rest.offset.toNat = s.offset.toNat + piece.2.bytes.toNat ∧ rest.Within := by
  obtain ⟨-, rfl, hbytes, hr⟩ := next_some hnext
  have hpos : 0 < piece.2.bytes.toNat := by
    rw [hbytes]
    exact DmaUopMode.splitBytes_pos _ _ (toNat_pos.mp hr)
  have hle : piece.2.bytes.toNat ≤ s.remaining.toNat := by
    rw [hbytes]
    exact DmaUopMode.splitBytes_le _ _
  rw [h.remaining] at hle
  have hbound := s.input.bytes.toNat_lt
  have hwithin : s.offset.toNat ≤ s.input.bytes.toNat := h
  have hoffset : (s.offset + piece.2.bytes).toNat = s.offset.toNat + piece.2.bytes.toNat := by
    rw [UInt32.toNat_add, Nat.mod_eq_of_lt (by omega)]
  refine ⟨hpos, hoffset, ?_⟩
  show (s.offset + piece.2.bytes).toNat ≤ s.input.bytes.toNat
  omega

theorem shrinks : Cuts.Shrinks next Within fun s => s.remaining.toNat := by
  intro s piece rest h hnext
  obtain ⟨hpos, hoffset, hrest⟩ := h.next hnext
  have hinput := next_input hnext
  have hwithin : rest.offset.toNat ≤ rest.input.bytes.toNat := hrest
  refine ⟨hrest, ?_⟩
  dsimp only
  rw [hrest.remaining, h.remaining, hoffset]
  rw [hinput] at hwithin ⊢
  omega

theorem Within.pieces_some (h : s.Within) (hnext : s.next = some (piece, rest)) : s.pieces = piece :: rest.pieces :=
  shrinks.pieces_some h hnext

/-- The pieces tile what is left, each the piece of its place, as long as the mode makes it there. -/
theorem pieces_tile (h : s.Within) :
    Tiles (fun x => x.1.toNat) (fun x => x.2.bytes.toNat) s.offset.toNat s.pieces s.input.bytes.toNat ∧
      ∀ x ∈ s.pieces, x.2 = s.input.piece x.1 x.2.bytes ∧
        s.input.generated.mode.Permits x.2.generated.request.sourceAddress x.2.bytes := by
  refine shrinks.ind (P := fun s =>
    Tiles (fun x => x.1.toNat) (fun x => x.2.bytes.toNat) s.offset.toNat s.pieces s.input.bytes.toNat ∧
      ∀ x ∈ s.pieces, x.2 = s.input.piece x.1 x.2.bytes ∧
        s.input.generated.mode.Permits x.2.generated.request.sourceAddress x.2.bytes) ?_ ?_ h
  · intro s h hnone
    have hzero := next_none.mp hnone
    have hend := (not_congr h.remaining_pos).mp (not_not.mpr hzero)
    have hle : s.offset.toNat ≤ s.input.bytes.toNat := h
    have hpieces : s.pieces = [] := Cuts.pieces_none hnone
    rw [hpieces]
    refine ⟨?_, fun x hx => absurd hx List.not_mem_nil⟩
    show s.offset.toNat = s.input.bytes.toNat
    omega
  · rintro s piece rest h hnext ⟨htile, hpiece⟩
    obtain ⟨heq, -, hbytes, -⟩ := next_some hnext
    obtain ⟨hpos, hoffset, -⟩ := h.next hnext
    rw [h.pieces_some hnext]
    rw [hoffset, next_input hnext] at htile
    rw [next_input hnext] at hpiece
    refine ⟨⟨by rw [heq], hpos, htile⟩, fun x hx => ?_⟩
    rcases List.mem_cons.mp hx with rfl | hx
    · refine ⟨?_, ?_⟩
      · rw [heq]
        rfl
      · rw [hbytes]
        exact DmaUopMode.splitBytes_permitted ..
    · exact hpiece x hx

/-- Only the last piece can bear a mark: that of its burst, and if it has that, that of its instruction. -/
theorem pieces_marks (h : s.Within) (hr : s.remaining ≠ 0) :
    s.pieces.map (·.2.generated.request.lastInBurst) =
        List.replicate (s.pieces.length - 1) false ++ [s.input.generated.request.lastInBurst] ∧
      s.pieces.map (·.2.generated.lastInInstruction) =
        List.replicate (s.pieces.length - 1) false ++
          [s.input.generated.lastInInstruction && s.input.generated.request.lastInBurst] := by
  have hend (s : SplitRequests) (piece : UInt32 × BiuReadInput) (rest : SplitRequests) (h : s.Within)
      (hnext : s.next = some (piece, rest)) : decide (s.offset + piece.2.bytes = s.input.bytes) = rest.next.isNone := by
    obtain ⟨-, hoffset, hrest⟩ := h.next hnext
    have hpos := hrest.remaining_pos
    have hle : rest.offset.toNat ≤ rest.input.bytes.toNat := hrest
    obtain ⟨-, heq, -, -⟩ := next_some hnext
    have hbytes : s.offset + piece.2.bytes = s.input.bytes ↔ rest.offset.toNat = rest.input.bytes.toNat := by
      rw [← UInt32.toNat_inj, heq]
    have hnone : rest.next.isNone = true ↔ s.offset + piece.2.bytes = s.input.bytes := by
      rw [Option.isNone_iff_eq_none, next_none, hbytes, ← not_iff_not]
      exact hpos.trans (by omega)
    rw [Bool.eq_iff_iff, hnone, decide_eq_true_iff]
  have hsome : s.next ≠ none := fun hnone => hr (next_none.mp hnone)
  refine ⟨shrinks.marks (e := fun s => s.input.generated.request.lastInBurst) (fun s piece rest h hnext => ?_) h hsome,
    shrinks.marks (e := fun s => s.input.generated.lastInInstruction && s.input.generated.request.lastInBurst)
      (fun s piece rest h hnext => ?_) h hsome⟩
  · refine ⟨?_, by rw [next_input hnext]⟩
    rw [← hend s piece rest h hnext, (next_some hnext).1]
    rfl
  · refine ⟨?_, by rw [next_input hnext]⟩
    rw [← hend s piece rest h hnext, (next_some hnext).1]
    exact (Bool.and_assoc ..).symm

end SplitRequests

namespace BiuReadInput

/-- The pieces of an input. -/
def pieces (i : BiuReadInput) : List (UInt32 × BiuReadInput) := (SplitRequests.mk i 0).pieces

variable {i : BiuReadInput}

theorem within (i : BiuReadInput) : (SplitRequests.mk i 0).Within := Nat.zero_le _

theorem remaining (i : BiuReadInput) : (SplitRequests.mk i 0).remaining = i.bytes := sub_zero i.bytes

/-- What the pieces of an input are. -/
structure Split (i : BiuReadInput) : Prop where
  tiles : Tiles (fun x => x.1.toNat) (fun x => x.2.bytes.toNat) 0 i.pieces i.bytes.toNat
  source : ∀ x ∈ i.pieces,
    x.2.generated.request.sourceAddress = i.generated.request.sourceAddress + x.1.toUInt64
  destination : ∀ x ∈ i.pieces,
    x.2.generated.request.destinationAddress = i.generated.request.destinationAddress + x.1.toUInt64
  aligned : ∀ x ∈ i.pieces, i.generated.mode.Permits x.2.generated.request.sourceAddress x.2.bytes
  /-- All else is as in the input. -/
  piece : ∀ x ∈ i.pieces, x.2 = i.piece x.1 x.2.bytes
  lastInBurst : i.pieces.map (·.2.generated.request.lastInBurst) =
    List.replicate (i.pieces.length - 1) false ++ [i.generated.request.lastInBurst]
  lastInInstruction : i.pieces.map (·.2.generated.lastInInstruction) =
    List.replicate (i.pieces.length - 1) false ++
      [i.generated.lastInInstruction && i.generated.request.lastInBurst]

theorem split (h : i.bytes ≠ 0) : i.Split := by
  obtain ⟨htile, hpiece⟩ := SplitRequests.pieces_tile i.within
  obtain ⟨hburst, hinstruction⟩ := SplitRequests.pieces_marks i.within (by rw [i.remaining]; exact h)
  refine ⟨htile, fun x hx => ?_, fun x hx => ?_, fun x hx => (hpiece x hx).2, fun x hx => (hpiece x hx).1, hburst,
    hinstruction⟩
  · rw [(hpiece x hx).1]
    rfl
  · rw [(hpiece x hx).1]
    rfl

theorem pieces_subcore {x : UInt32 × BiuReadInput} (h : i.bytes ≠ 0) (hx : x ∈ i.pieces) : x.2.subcore = i.subcore := by
  rw [(split h).piece x hx]
  rfl

end BiuReadInput

/-! ## What a call does -/

namespace BiuReadFrontend

variable {s : BiuReadFrontend} {tick tag : Nat} {input : BiuReadInput}

theorem push_cases (s : BiuReadFrontend) (tick : Nat) (input : BiuReadInput) :
    (∃ e, push tick input s = (Outcome.fail e, s)) ∨ push tick input s = (.ok false, s) ∨
      input.bytes ≠ 0 ∧ ∃ ready, push tick input s = (.ok true, { s with
        inputs := Function.update s.inputs input.subcore (s.inputs input.subcore ++ [⟨ready, input⟩])
        observed := some tick }) := by
  unfold push
  split
  · exact .inl ⟨_, rfl⟩
  · split
    · exact .inl ⟨_, rfl⟩
    · split
      · exact .inl ⟨_, rfl⟩
      · split
        · exact .inl ⟨_, rfl⟩
        · rename_i hbytes
          split
          · exact .inr (.inl rfl)
          · split
            · exact .inl ⟨_, rfl⟩
            · exact .inr (.inr ⟨hbytes, _, rfl⟩)

/-- A core that is selected has an input. -/
theorem selection_input {core : BiuSubcore} (h : s.selection tick = some core) :
    ∃ entry queue, s.inputs core = entry :: queue := by
  unfold selection at h
  split at h
  · cases h
  · have heligible := BiuWriteCommands.selectCore_eligible h
    unfold eligible at heligible
    cases hinputs : s.inputs core with
    | nil =>
      rw [hinputs] at heligible
      cases heligible
    | cons entry queue => exact ⟨entry, queue, rfl⟩

theorem arbitrate_cases (s : BiuReadFrontend) (tick : Nat) :
    (∃ e, arbitrate tick s = (Outcome.fail e, s)) ∨
      (s.selection tick = none ∧
        arbitrate tick s = (.ok ⟨tick, s.eligible tick, none, s.pendingSplitBlocked⟩,
          { s with arbitrated := some tick, observed := some tick })) ∨
      ∃ core entry queue ready, s.selection tick = some core ∧ s.inputs core = entry :: queue ∧
        arbitrate tick s = (.ok ⟨tick, s.eligible tick, some core, s.pendingSplitBlocked⟩,
          { s with
            weights := s.reweighted (s.eligible tick) core
            inputs := Function.update s.inputs core queue
            current := s.current ++ [⟨ready, ⟨entry.input, 0⟩⟩]
            arbitrated := some tick
            observed := some tick }) := by
  unfold arbitrate
  split
  · exact .inl ⟨_, rfl⟩
  · cases hselection : s.selection tick with
    | none => exact .inr (.inl ⟨rfl, rfl⟩)
    | some core =>
      obtain ⟨entry, queue, hinputs⟩ := selection_input hselection
      unfold Call.bind
      simp only [Option.elim_some, accept, hinputs]
      cases checkedAdd tick 1 with
      | none => exact .inl ⟨_, rfl⟩
      | some ready => exact .inr (.inr ⟨core, entry, queue, ready, rfl, hinputs, rfl⟩)

theorem reserve_same (s : BiuReadFrontend) :
    s.reserve = { s with reserved := s.reserve.reserved, free := s.reserve.free, nextFresh := s.reserve.nextFresh } := by
  unfold reserve
  split
  · rfl
  · split <;> rfl

/-- A send takes a piece with the tag that was reserved, or changes only what is reserved. -/
theorem send_cases (s : BiuReadFrontend) (tick : Nat) (transportReady : Bool)
    (hcurrent : ∀ x ∈ s.current, x.requests.remaining ≠ 0) :
    (∃ e, send tick transportReady s = (Outcome.fail e, s)) ∨
      (∃ r s', send tick transportReady s = (.ok r, { s' with sendTick := some tick, observed := some tick }) ∧
        r.sent = none ∧ (s' = s ∨ s' = s.reserve)) ∨
      ∃ r head current piece rest tag, s.current = head :: current ∧ head.requests.next = some (piece, rest) ∧
        s.reserve.reserved = some tag ∧ r.sent = some ⟨tag, piece.1, piece.2⟩ ∧
        send tick transportReady s = (.ok r,
          { s.reserve.depart ⟨tag, piece.1, piece.2⟩
              (if rest.next.isNone then current else ⟨head.readyTick, rest⟩ :: current) with
            sendTick := some tick, observed := some tick }) := by
  unfold send
  split
  · exact .inl ⟨_, rfl⟩
  · unfold Call.bind offer
    cases hsplits : s.current with
    | nil => exact .inr (.inl ⟨_, s, rfl, rfl, .inl rfl⟩)
    | cons head current =>
      by_cases hready : tick < head.readyTick
      · simp only [if_pos hready]
        exact .inr (.inl ⟨_, s, rfl, rfl, .inl rfl⟩)
      · simp only [if_neg hready]
        cases htag : s.reserve.reserved with
        | none => exact .inr (.inl ⟨_, s.reserve, rfl, rfl, .inr rfl⟩)
        | some tag =>
          cases hnext : head.requests.next with
          | none =>
            have hleft := hcurrent head (by rw [hsplits]; exact List.mem_cons_self)
            exact absurd (SplitRequests.next_none.mp hnext) hleft
          | some r =>
            obtain ⟨⟨byteOffset, input⟩, rest⟩ := r
            cases transportReady with
            | false => exact .inr (.inl ⟨_, s.reserve, rfl, rfl, .inr rfl⟩)
            | true => exact .inr (.inr ⟨_, head, current, (byteOffset, input), rest, tag, rfl, hnext, rfl, rfl, rfl⟩)

theorem releaseTag_cases (s : BiuReadFrontend) (tick tag : Nat) :
    (∃ e, releaseTag tick tag s = (Outcome.fail e, s)) ∨
      ∃ request, s.outstanding.get? tag = some request ∧ releaseTag tick tag s = (.ok request,
        { s with outstanding := s.outstanding.erase tag, free := s.free ++ [tag], observed := some tick }) := by
  unfold releaseTag
  split
  · exact .inl ⟨_, rfl⟩
  · cases hrequest : s.outstanding.get? tag with
    | none => exact .inl ⟨_, rfl⟩
    | some request => exact .inr ⟨request, rfl, rfl⟩

/-! ## Tags -/

/-- In how many places a tag is: never issued, free, reserved, outstanding. -/
def places (s : BiuReadFrontend) (tag : Nat) : Nat :=
  BiuWriteCommands.tally s.tags s.nextFresh s.free s.reserved (s.outstanding.contains tag) tag

structure Tags (s : BiuReadFrontend) : Prop where
  once : ∀ tag, s.places tag = if 1 ≤ tag ∧ tag ≤ s.tags then 1 else 0
  own : ∀ tag request, s.outstanding.get? tag = some request → request.tag = tag
  fresh : s.nextFresh ≤ s.tags + 1

theorem Tags.not_outstanding (h : s.Tags) (hr : s.reserved = some tag) : s.outstanding.contains tag = false := by
  have hle : s.places tag ≤ 1 := by
    rw [h.once]
    split <;> omega
  unfold places at hle
  rw [hr] at hle
  exact BiuWriteCommands.tally_reserved hle

theorem Tags.reserve (h : s.Tags) : s.reserve.Tags := by
  unfold BiuReadFrontend.reserve
  split
  · exact h
  · rename_i hnone
    have hnone : s.reserved = none := by simpa using hnone
    have hplaces (tag : Nat) : s.places tag =
        BiuWriteCommands.tally s.tags s.nextFresh s.free none (s.outstanding.contains tag) tag := by
      unfold places
      rw [hnone]
    split
    · rename_i hfresh
      exact ⟨fun tag => ((BiuWriteCommands.tally_fresh hfresh).trans (hplaces tag).symm).trans (h.once tag), h.own,
        Nat.succ_le_succ hfresh⟩
    · exact ⟨fun tag => (BiuWriteCommands.tally_free.trans (hplaces tag).symm).trans (h.once tag), h.own, h.fresh⟩

theorem Tags.depart (h : s.Tags) {request : BiuReadRequest} (hr : s.reserved = some request.tag)
    (current : List CurrentSplit) : (s.depart request current).Tags := by
  refine ⟨fun tag => Eq.trans ?_ (h.once tag), fun tag request' hrequest => ?_, h.fresh⟩
  · have hnone := h.not_outstanding hr
    show BiuWriteCommands.tally s.tags s.nextFresh s.free none ((s.outstanding.insert request.tag request).contains tag)
      tag = s.places tag
    unfold places
    rw [OrdMap.contains_insert, hr]
    exact BiuWriteCommands.tally_issue fun heq => heq ▸ hnone
  · unfold BiuReadFrontend.depart at hrequest
    dsimp only at hrequest
    rw [OrdMap.get?_insert] at hrequest
    split at hrequest
    · rename_i heq
      cases hrequest
      exact heq.symm
    · exact h.own tag request' hrequest

theorem Tags.release (h : s.Tags) {request : BiuReadRequest} (hi : s.outstanding.get? tag = some request) :
    Tags { s with outstanding := s.outstanding.erase tag, free := s.free ++ [tag], observed := some tick } := by
  refine ⟨fun tag' => Eq.trans ?_ (h.once tag'), fun tag' request' hrequest => ?_, h.fresh⟩
  · have hcontains := OrdMap.contains_eq_true.mpr ⟨request, hi⟩
    show BiuWriteCommands.tally s.tags s.nextFresh (s.free ++ [tag]) s.reserved ((s.outstanding.erase tag).contains tag')
      tag' = s.places tag'
    rw [OrdMap.contains_erase]
    exact BiuWriteCommands.tally_release fun heq => heq ▸ hcontains
  · dsimp only at hrequest
    rw [OrdMap.get?_erase] at hrequest
    split at hrequest
    · cases hrequest
    · exact h.own tag' request' hrequest

/-- The tags that are neither reserved nor outstanding. -/
def unused (s : BiuReadFrontend) : Finset Nat :=
  (Finset.Icc 1 s.tags).filter fun tag => s.reserved ≠ some tag ∧ s.outstanding.contains tag = false

theorem Tags.unused_eq (h : s.Tags) : s.unused = Finset.Icc s.nextFresh s.tags ∪ s.free.toFinset := by
  ext tag
  have hplaces := h.once tag
  unfold places BiuWriteCommands.tally at hplaces
  simp only [unused, Finset.mem_filter, Finset.mem_union, Finset.mem_Icc, List.mem_toFinset, ← List.count_pos_iff]
  by_cases hr : s.reserved = some tag
  · rw [if_pos hr, h.not_outstanding hr, if_neg Bool.false_ne_true] at hplaces
    refine iff_of_false (fun hc => hc.2.1 hr) ?_
    split at hplaces <;> split at hplaces <;> omega
  · by_cases hi : s.outstanding.contains tag = true
    · rw [if_pos hi] at hplaces
      refine iff_of_false (fun hc => absurd (hi.symm.trans hc.2.2) Bool.noConfusion) ?_
      split at hplaces <;> split at hplaces <;> omega
    · rw [if_neg hr, if_neg hi] at hplaces
      have hi : s.outstanding.contains tag = false := by simpa using hi
      refine Iff.trans (and_iff_left ⟨hr, hi⟩) ?_
      split at hplaces <;> split at hplaces <;> omega

/-- The number of free tags is that of the tags neither reserved nor outstanding. -/
theorem Tags.freeTagCount (h : s.Tags) : s.freeTagCount = s.unused.card := by
  have hcount (tag : Nat) : (if s.nextFresh ≤ tag ∧ tag ≤ s.tags then 1 else 0) + s.free.count tag ≤ 1 := by
    have hplaces := h.once tag
    unfold places BiuWriteCommands.tally at hplaces
    have hle : (if 1 ≤ tag ∧ tag ≤ s.tags then 1 else 0) ≤ 1 := by split <;> omega
    omega
  have hnodup : s.free.Nodup := List.nodup_iff_count_le_one.mpr fun tag => by
    have := hcount tag
    omega
  have hdisjoint : Disjoint (Finset.Icc s.nextFresh s.tags) s.free.toFinset := by
    rw [Finset.disjoint_left]
    intro tag hfresh hfree
    have htag := hcount tag
    rw [if_pos (Finset.mem_Icc.mp hfresh)] at htag
    have := List.count_pos_iff.mpr (List.mem_toFinset.mp hfree)
    omega
  rw [h.unused_eq, Finset.card_union_of_disjoint hdisjoint, Nat.card_Icc, List.toFinset_card_of_nodup hnodup]
  rfl

end BiuReadFrontend

/-! ## What was done -/

/-- The inputs pushed, the requests sent and those released so far. -/
structure ReadLog where
  pushed : List BiuReadInput
  sent : List BiuReadRequest
  released : List BiuReadRequest

namespace ReadLog

/-- The pieces of a core's inputs. -/
def piecesOn (l : ReadLog) (core : BiuSubcore) : List (UInt32 × BiuReadInput) :=
  (l.pushed.filter (·.subcore = core)).flatMap BiuReadInput.pieces

/-- The pieces of a core that were sent. -/
def sentOn (l : ReadLog) (core : BiuSubcore) : List (UInt32 × BiuReadInput) :=
  (l.sent.filter (·.input.subcore = core)).map fun r => (r.byteOffset, r.input)

end ReadLog

namespace BiuReadFrontend

variable {l : ReadLog} {s s' : BiuReadFrontend} {tick tag ready : Nat} {core : BiuSubcore} {input : BiuReadInput}

/-! ## Pieces -/

/-- The pieces of a core that wait: first those being split, then those of its inputs. -/
def waiting (s : BiuReadFrontend) (core : BiuSubcore) : List (UInt32 × BiuReadInput) :=
  Cuts.waiting (·.requests.input.subcore) (·.requests.pieces) (·.input.pieces) s.current s.inputs core

structure Flow (l : ReadLog) (s : BiuReadFrontend) : Prop where
  inputs : ∀ core, ∀ x ∈ s.inputs core, x.input.subcore = core ∧ x.input.bytes ≠ 0
  current : ∀ x ∈ s.current, x.requests.Within ∧ x.requests.remaining ≠ 0
  pushed : ∀ i ∈ l.pushed, i.bytes ≠ 0
  pieces : ∀ core, l.sentOn core ++ s.waiting core = l.piecesOn core

theorem Flow.push (h : Flow l s) (hbytes : input.bytes ≠ 0) :
    Flow { l with pushed := l.pushed ++ [input] }
      { s with
        inputs := Function.update s.inputs input.subcore (s.inputs input.subcore ++ [⟨ready, input⟩])
        observed := some tick } := by
  refine ⟨fun core x hx => ?_, h.current, fun i hi => ?_, fun core => ?_⟩
  · dsimp only at hx
    by_cases hcore : core = input.subcore
    · subst hcore
      rw [Function.update_self] at hx
      rcases List.mem_append.mp hx with hx | hx
      · exact h.inputs _ x hx
      · obtain rfl := List.mem_singleton.mp hx
        exact ⟨rfl, hbytes⟩
    · rw [Function.update_of_ne hcore] at hx
      exact h.inputs core x hx
  · rcases List.mem_append.mp hi with hi | hi
    · exact h.pushed i hi
    · obtain rfl := List.mem_singleton.mp hi
      exact hbytes
  · unfold waiting ReadLog.piecesOn
    rw [Cuts.waiting_push, List.filter_append, List.flatMap_append, ← List.append_assoc]
    refine congr_arg₂ (· ++ ·) (h.pieces core) ?_
    by_cases hcore : core = input.subcore
    · simp [hcore]
    · simp [hcore, Ne.symm hcore]

theorem Flow.accept (h : Flow l s) {entry : QueuedInput} {queue : List QueuedInput}
    (hinputs : s.inputs core = entry :: queue) (weights : BiuSubcore → Int32) (arbitrated observed : Option Nat) :
    Flow l { s with
      weights, arbitrated, observed
      inputs := Function.update s.inputs core queue
      current := s.current ++ [⟨ready, ⟨entry.input, 0⟩⟩] } := by
  obtain ⟨hcore, hbytes⟩ := h.inputs core entry (by rw [hinputs]; exact List.mem_cons_self)
  refine ⟨fun core' x hx => ?_, fun x hx => ?_, h.pushed, fun core' => ?_⟩
  · dsimp only at hx
    by_cases heq : core' = core
    · subst heq
      rw [Function.update_self] at hx
      exact h.inputs core' x (by rw [hinputs]; exact List.mem_cons_of_mem _ hx)
    · rw [Function.update_of_ne heq] at hx
      exact h.inputs core' x hx
  · rcases List.mem_append.mp hx with hx | hx
    · exact h.current x hx
    · obtain rfl := List.mem_singleton.mp hx
      exact ⟨entry.input.within, by rw [entry.input.remaining]; exact hbytes⟩
  · refine Eq.trans (congrArg (l.sentOn core' ++ ·) ?_) (h.pieces core')
    refine Cuts.waiting_accept hinputs (fun x hx => ?_) (List.flatMap_singleton ..)
    obtain rfl := List.mem_singleton.mp hx
    exact hcore

/-- The first piece of the first split leaves. -/
theorem Flow.depart (h : Flow l s) {head : CurrentSplit} {current : List CurrentSplit} {piece : UInt32 × BiuReadInput}
    {rest : SplitRequests} (hcurrent : s.current = head :: current) (hnext : head.requests.next = some (piece, rest)) :
    Flow { l with sent := l.sent ++ [⟨tag, piece.1, piece.2⟩] }
      (s.depart ⟨tag, piece.1, piece.2⟩
        (if rest.next.isNone then current else ⟨head.readyTick, rest⟩ :: current)) := by
  obtain ⟨hwithin, -⟩ := h.current head (by rw [hcurrent]; exact List.mem_cons_self)
  obtain ⟨left, heq, hpieces, hleft⟩ : ∃ left : List CurrentSplit,
      (if rest.next.isNone then current else ⟨head.readyTick, rest⟩ :: current) = left ++ current ∧
        left.flatMap (·.requests.pieces) = rest.pieces ∧
        ∀ x ∈ left, x.requests = rest ∧ x.requests.remaining ≠ 0 := by
    cases hrest : rest.next with
    | none => exact ⟨[], rfl, (Cuts.pieces_none hrest).symm, fun x hx => absurd hx List.not_mem_nil⟩
    | some r =>
      refine ⟨[⟨head.readyTick, rest⟩], rfl, List.flatMap_singleton .., fun x hx => ?_⟩
      obtain rfl := List.mem_singleton.mp hx
      refine ⟨rfl, fun hzero => ?_⟩
      rw [SplitRequests.next_none.mpr hzero] at hrest
      cases hrest
  rw [heq]
  have hsubcore : piece.2.subcore = head.requests.input.subcore := by
    rw [(SplitRequests.next_some hnext).1]
    rfl
  refine ⟨h.inputs, fun x hx => ?_, h.pushed, fun core => ?_⟩
  · rcases List.mem_append.mp hx with hx | hx
    · obtain ⟨hrest, hmore⟩ := hleft x hx
      exact ⟨hrest ▸ (hwithin.next hnext).2.2, hmore⟩
    · exact h.current x (by rw [hcurrent]; exact List.mem_cons_of_mem _ hx)
  · have hhead : head.requests.pieces = piece :: left.flatMap (·.requests.pieces) := by
      rw [hpieces]
      exact hwithin.pieces_some hnext
    have htake : _ ++ Cuts.waiting (·.requests.input.subcore) (·.requests.pieces) (fun x : QueuedInput => x.input.pieces)
        (left ++ current) s.inputs core =
          Cuts.waiting (·.requests.input.subcore) (·.requests.pieces) (·.input.pieces) (head :: current) s.inputs core :=
      Cuts.waiting_take hhead fun x hx => by rw [(hleft x hx).1, SplitRequests.next_input hnext]
    have hbefore := h.pieces core
    unfold waiting at hbefore
    rw [hcurrent, ← htake, ← List.append_assoc] at hbefore
    refine Eq.trans (congrArg (· ++ _) ?_) hbefore
    unfold ReadLog.sentOn
    rw [List.filter_append, List.map_append]
    congr 1
    by_cases hcore : head.requests.input.subcore = core
    · simp [hcore, hsubcore.trans hcore]
    · simp [hcore, show ¬ piece.2.subcore = core by rw [hsubcore]; exact hcore]

/-! ## Steps -/

/-- 1 for a request that is outstanding. -/
def holds (s : BiuReadFrontend) (request : BiuReadRequest) : Nat :=
  if s.outstanding.get? request.tag = some request then 1 else 0

/-- A prefetch request of a core. -/
def prefetches (core : BiuSubcore) (request : BiuReadRequest) : Bool :=
  request.input.prefetch && decide (request.input.subcore = core)

/-- How many prefetch requests of a core are outstanding. -/
def prefetchHeld (s : BiuReadFrontend) (core : BiuSubcore) : Nat :=
  s.outstanding.sum fun _ request => if prefetches core request then 1 else 0

structure Inv (config : BiuReadConfig) (l : ReadLog) (s : BiuReadFrontend) : Prop where
  config : s.config = config
  tags : s.Tags
  flow : Flow l s
  /-- What was sent is outstanding until it is released. -/
  held : ∀ request, l.sent.count request = l.released.count request + s.holds request
  /-- The prefetch counters go on counting what was released. -/
  prefetched : ∀ core, s.prefetchOutstanding core = s.prefetchHeld core + l.released.countP (prefetches core)

variable {config : BiuReadConfig}

theorem inv_new (config : BiuReadConfig) : Inv config ⟨[], [], []⟩ (.new config) where
  config := rfl
  tags := by
    refine ⟨fun tag => ?_, fun _ _ hi => absurd hi.symm (Option.some_ne_none _), Nat.le_add_left 1 _⟩
    show BiuWriteCommands.tally (new config).tags 1 [] none false tag = _
    simp [BiuWriteCommands.tally]
  flow := ⟨fun _ x hx => absurd hx List.not_mem_nil, fun x hx => absurd hx List.not_mem_nil,
    fun x hx => absurd hx List.not_mem_nil, fun _ => rfl⟩
  held _ := rfl
  prefetched _ := rfl

theorem Inv.reserve (h : Inv config l s) : Inv config l s.reserve := by
  have htags := h.tags.reserve
  rw [reserve_same] at htags ⊢
  exact ⟨h.config, htags, ⟨h.flow.inputs, h.flow.current, h.flow.pushed, h.flow.pieces⟩, h.held, h.prefetched⟩

theorem Inv.push (h : Inv config l s) (hbytes : input.bytes ≠ 0) :
    Inv config { l with pushed := l.pushed ++ [input] }
      { s with
        inputs := Function.update s.inputs input.subcore (s.inputs input.subcore ++ [⟨ready, input⟩])
        observed := some tick } :=
  ⟨h.config, ⟨h.tags.once, h.tags.own, h.tags.fresh⟩, h.flow.push hbytes, h.held, h.prefetched⟩

theorem Inv.accept (h : Inv config l s) {entry : QueuedInput} {queue : List QueuedInput}
    (hinputs : s.inputs core = entry :: queue) (weights : BiuSubcore → Int32) (arbitrated observed : Option Nat) :
    Inv config l { s with
      weights, arbitrated, observed
      inputs := Function.update s.inputs core queue
      current := s.current ++ [⟨ready, ⟨entry.input, 0⟩⟩] } :=
  ⟨h.config, ⟨h.tags.once, h.tags.own, h.tags.fresh⟩, h.flow.accept hinputs weights arbitrated observed, h.held, h.prefetched⟩

theorem Inv.depart_prefetched (h : Inv config l s) {request : BiuReadRequest}
    (hnone : s.outstanding.get? request.tag = none) (current : List CurrentSplit) (core : BiuSubcore) :
    (s.depart request current).prefetchOutstanding core =
      (s.depart request current).prefetchHeld core + l.released.countP (prefetches core) := by
  have hbefore := h.prefetched core
  have hsum : (s.depart request current).prefetchHeld core =
      s.prefetchHeld core + if prefetches core request then 1 else 0 := OrdMap.sum_insert_new _ hnone
  have hprefetches : prefetches core request = (request.input.prefetch && decide (request.input.subcore = core)) := rfl
  rw [hsum, hprefetches]
  unfold BiuReadFrontend.depart
  dsimp only
  cases request.input.prefetch with
  | false => simpa using hbefore
  | true =>
    by_cases hcore : core = request.input.subcore
    · subst hcore
      simp only [if_true, Function.update_self, decide_true, Bool.and_self]
      omega
    · simp only [if_true, Function.update_of_ne hcore, Ne.symm hcore, decide_false, Bool.and_false, Bool.false_eq_true,
        if_false]
      omega

theorem Inv.depart (h : Inv config l s) {head : CurrentSplit} {current : List CurrentSplit}
    {piece : UInt32 × BiuReadInput} {rest : SplitRequests} (hcurrent : s.current = head :: current)
    (hnext : head.requests.next = some (piece, rest)) (htag : s.reserved = some tag) :
    Inv config { l with sent := l.sent ++ [⟨tag, piece.1, piece.2⟩] }
      (s.depart ⟨tag, piece.1, piece.2⟩
        (if rest.next.isNone then current else ⟨head.readyTick, rest⟩ :: current)) := by
  have hnone := OrdMap.contains_eq_false.mp (h.tags.not_outstanding htag)
  refine ⟨h.config, h.tags.depart htag _, h.flow.depart hcurrent hnext, fun request => ?_, h.depart_prefetched hnone _⟩
  have hheld := h.held request
  unfold holds at hheld ⊢
  unfold BiuReadFrontend.depart
  dsimp only
  rw [List.count_append, hheld, OrdMap.get?_insert]
  by_cases heq : request = ⟨tag, piece.1, piece.2⟩
  · subst heq
    simp [hnone]
  · by_cases htags : request.tag = tag
    · have hne : ¬ (⟨tag, piece.1, piece.2⟩ : BiuReadRequest) = request := Ne.symm heq
      simp [htags, hnone, hne]
    · have hne : ¬ (⟨tag, piece.1, piece.2⟩ : BiuReadRequest) = request := Ne.symm heq
      simp [htags, hne]

theorem Inv.release (h : Inv config l s) {request : BiuReadRequest} (hrequest : s.outstanding.get? tag = some request) :
    Inv config { l with released := l.released ++ [request] }
      { s with outstanding := s.outstanding.erase tag, free := s.free ++ [tag], observed := some tick } := by
  have hown := h.tags.own tag request hrequest
  refine ⟨h.config, h.tags.release hrequest, ⟨h.flow.inputs, h.flow.current, h.flow.pushed, h.flow.pieces⟩,
    fun request' => ?_, fun core => ?_⟩
  · have hheld := h.held request'
    unfold holds at hheld ⊢
    dsimp only
    rw [List.count_append, hheld, OrdMap.get?_erase]
    by_cases heq : request' = request
    · subst heq
      simp [hown, hrequest]
    · have hne : ¬ request = request' := Ne.symm heq
      by_cases htags : request'.tag = tag
      · simp [htags, hrequest, hne]
      · simp [htags, hne]
  · have hsum := OrdMap.sum_erase_some (fun _ request => if prefetches core request then 1 else 0) hrequest
    have hbefore := h.prefetched core
    unfold prefetchHeld at hbefore ⊢
    dsimp only at hsum ⊢
    rw [List.countP_append, List.countP_singleton]
    omega

end BiuReadFrontend

/-! ## Runs -/

section Runs

open BiuReadFrontend

abbrev BiuReadEvent := BiuReadCall × Outcome BiuReadError BiuReadReply

namespace BiuReadEvent

def pushed : BiuReadEvent → Option BiuReadInput
  | (.push _ input, .ok (.pushed true)) => some input
  | _ => none

def sent : BiuReadEvent → Option BiuReadRequest
  | (_, .ok (.sent send)) => send.sent
  | _ => none

def released : BiuReadEvent → Option BiuReadRequest
  | (_, .ok (.released request)) => some request
  | _ => none

end BiuReadEvent

namespace ReadLog

/-- What was done, after a call. -/
def after (l : ReadLog) (x : BiuReadEvent) : ReadLog where
  pushed := l.pushed ++ x.pushed.toList
  sent := l.sent ++ x.sent.toList
  released := l.released ++ x.released.toList

/-- What a run did, by what its calls returned. -/
def of (t : List BiuReadEvent) : ReadLog := t.foldl after ⟨[], [], []⟩

variable {t : List BiuReadEvent} {l : ReadLog} {x : BiuReadEvent}

theorem of_snoc (x : BiuReadEvent) : of (t ++ [x]) = (of t).after x := by simp [of]

theorem after_nothing (hp : x.pushed = none) (hs : x.sent = none) (hr : x.released = none) : l.after x = l := by
  unfold after
  rw [hp, hs, hr]
  simp

end ReadLog

variable {config : BiuReadConfig} {t : List BiuReadEvent} {s s' : BiuReadFrontend} {l : ReadLog}

/-- A call does not panic, and keeps the invariant. -/
theorem BiuReadFrontend.exec_keeps (h : Inv config l s) (c : BiuReadCall) :
    (exec c s).1 ≠ .error .panicked ∧ Inv config (l.after (c, (exec c s).1)) (exec c s).2 := by
  have hrejected (e : BiuReadError) (he : exec c s = (Outcome.fail e, s)) :
      (exec c s).1 ≠ .error .panicked ∧ Inv config (l.after (c, (exec c s).1)) (exec c s).2 := by
    rw [he, ReadLog.after_nothing (by cases c <;> rfl) rfl rfl]
    exact ⟨nofun, h⟩
  have hquiet (r : BiuReadReply) (s' : BiuReadFrontend) (hr : exec c s = (.ok r, s')) (hs : Inv config l s')
      (hp : BiuReadEvent.pushed (c, .ok r) = none) (hsent : BiuReadEvent.sent (c, .ok r) = none)
      (hreleased : BiuReadEvent.released (c, .ok r) = none) :
      (exec c s).1 ≠ .error .panicked ∧ Inv config (l.after (c, (exec c s).1)) (exec c s).2 := by
    rw [hr, ReadLog.after_nothing hp hsent hreleased]
    exact ⟨nofun, hs⟩
  cases c with
  | push tick input =>
    rcases push_cases s tick input with ⟨e, he⟩ | hfalse | ⟨hbytes, ready, hok⟩
    · exact hrejected e (reply_eq he)
    · exact hquiet (.pushed false) s (reply_eq hfalse) h rfl rfl rfl
    · have hexec : exec (.push tick input) s = (.ok (.pushed true), _) := reply_eq hok
      rw [hexec]
      refine ⟨nofun, ?_⟩
      unfold ReadLog.after
      simpa [BiuReadEvent.pushed, BiuReadEvent.sent, BiuReadEvent.released] using h.push hbytes
  | arbitrate tick =>
    rcases arbitrate_cases s tick with ⟨e, he⟩ | ⟨-, hok⟩ | ⟨core, entry, queue, ready, -, hinputs, hok⟩
    · exact hrejected e (reply_eq he)
    · exact hquiet _ _ (reply_eq hok)
        ⟨h.config, ⟨h.tags.once, h.tags.own, h.tags.fresh⟩,
          ⟨h.flow.inputs, h.flow.current, h.flow.pushed, h.flow.pieces⟩, h.held, h.prefetched⟩ rfl rfl rfl
    · exact hquiet _ _ (reply_eq hok) (h.accept hinputs _ _ _) rfl rfl rfl
  | send tick transportReady =>
    have hclocked (l : ReadLog) (s' : BiuReadFrontend) (h : Inv config l s') :
        Inv config l { s' with sendTick := some tick, observed := some tick } :=
      ⟨h.config, ⟨h.tags.once, h.tags.own, h.tags.fresh⟩,
        ⟨h.flow.inputs, h.flow.current, h.flow.pushed, h.flow.pieces⟩, h.held, h.prefetched⟩
    rcases send_cases s tick transportReady (fun x hx => (h.flow.current x hx).2) with
      ⟨e, he⟩ | ⟨r, s', hok, hnone, hs'⟩ | ⟨r, head, current, piece, rest, tag, hcurrent, hnext, htag, hsome, hok⟩
    · exact hrejected e (reply_eq he)
    · refine hquiet (.sent r) _ (reply_eq hok) (hclocked l s' ?_) rfl hnone rfl
      rcases hs' with rfl | rfl
      · exact h
      · exact h.reserve
    · have hexec : exec (.send tick transportReady) s = (.ok (.sent r), _) := reply_eq hok
      have hcurrent' : s.reserve.current = head :: current := by
        rw [reserve_same]
        exact hcurrent
      rw [hexec]
      refine ⟨nofun, ?_⟩
      unfold ReadLog.after
      simpa [BiuReadEvent.pushed, BiuReadEvent.sent, BiuReadEvent.released, hsome] using
        hclocked _ _ (h.reserve.depart hcurrent' hnext htag)
  | releaseTag tick tag =>
    rcases releaseTag_cases s tick tag with ⟨e, he⟩ | ⟨request, hrequest, hok⟩
    · exact hrejected e (reply_eq he)
    · have hexec : exec (.releaseTag tick tag) s = (.ok (.released request), _) := reply_eq hok
      rw [hexec]
      refine ⟨nofun, ?_⟩
      unfold ReadLog.after
      simpa [BiuReadEvent.pushed, BiuReadEvent.sent, BiuReadEvent.released] using h.release hrequest

theorem BiuReadFrontend.run_inv (h : Run (calls exec) (.new config) t s) : Inv config (ReadLog.of t) s := by
  refine h.inv (I := fun t s => Inv config (ReadLog.of t) s) (inv_new config) ?_
  rintro t s ⟨c, r⟩ s' hinv hcall
  have hcall : exec c s = (r, s') := hcall
  have hkept := (exec_keeps hinv c).2
  rw [hcall] at hkept
  rw [ReadLog.of_snoc]
  exact hkept

/-- In every run: a tag is in one place, the free ones are counted, and a request that was sent holds its own until it is
released; the pieces of a core's inputs are sent in order and once; and those of an input tile it, at the alignment of
its mode, the marks on the last one. No call panics. -/
theorem biu_read_frontend_exact (h : Run (calls exec) (.new config) t s) :
    s.tags = config.outstanding.val.toNat ∧
      (∀ tag, s.places tag = if 1 ≤ tag ∧ tag ≤ s.tags then 1 else 0) ∧
      s.freeTagCount = s.unused.card ∧
      (∀ tag request, s.outstanding.get? tag = some request → request.tag = tag) ∧
      (∀ request, (ReadLog.of t).sent.count request = (ReadLog.of t).released.count request + s.holds request) ∧
      (∀ core, (ReadLog.of t).sentOn core ++ s.waiting core = (ReadLog.of t).piecesOn core) ∧
      (∀ i ∈ (ReadLog.of t).pushed, i.Split) ∧
      ∀ c, (exec c s).1 ≠ .error .panicked := by
  have hinv := BiuReadFrontend.run_inv h
  exact ⟨congrArg (·.outstanding.val.toNat) hinv.config, hinv.tags.once, hinv.tags.freeTagCount, hinv.tags.own, hinv.held,
    hinv.flow.pieces, fun i hi => BiuReadInput.split (hinv.flow.pushed i hi), fun c => (BiuReadFrontend.exec_keeps hinv c).1⟩

/-- A request of 300 bytes from half a line on. -/
def sampleReadInput (isPrefetch : Bool) : BiuReadInput where
  subcore := .cube
  destination := .l1
  prefetch := isPrefetch
  generated := ⟨7, ⟨.ordinary, 64, 0, 300, true⟩, ⟨0, 300, 300⟩, .wide256, false, true⟩

def sampleReadConfig : BiuReadConfig := ⟨sampleConfig.outstanding, fun _ => 1⟩

/-- The second piece is offered twice, and the third takes the tag of the first again. -/
def sampleReadCalls (isPrefetch : Bool) : List BiuReadCall :=
  [.push 0 (sampleReadInput isPrefetch), .arbitrate 3, .send 4 true, .send 5 false, .send 6 true, .send 7 true,
    .releaseTag 8 1, .send 9 true, .releaseTag 10 1, .releaseTag 11 2]

theorem biu_read_frontend_exact_sample :
    let r := runCalls exec (.new sampleReadConfig) (sampleReadCalls false)
    (ReadLog.of r.1).sent.map (fun request => (request.tag, request.byteOffset)) = [(1, 0), (2, 64), (1, 192)] ∧
      r.2.unused.card = 2 :=
  have h := biu_read_frontend_exact (run_runCalls exec (.new sampleReadConfig) (sampleReadCalls false))
  ⟨by decide +kernel, h.2.2.1.symm.trans (by decide +kernel)⟩

/-! ## Prefetches -/

namespace BiuReadFrontend

/-- The prefetch counters are the numbers of the outstanding prefetch requests. -/
def PrefetchExact (s : BiuReadFrontend) : Prop := ∀ core, s.prefetchOutstanding core = s.prefetchHeld core

/-- A call that releases no prefetch request. -/
def ReleasesOrdinary : BiuReadCall → BiuReadFrontend → Prop
  | .releaseTag tick tag, s =>
    s.checkTime tick = none → ∀ request, s.outstanding.get? tag = some request → request.input.prefetch = false
  | _, _ => True

/-- With exact counters, a core whose requests are all released is counted from zero again. -/
theorem PrefetchExact.released {s : BiuReadFrontend} (h : s.PrefetchExact) (hempty : s.outstanding.isEmpty = true)
    (core : BiuSubcore) : s.prefetchOutstanding core = 0 := by
  rw [h core]
  refine OrdMap.sum_eq_zero _ fun tag request hrequest => ?_
  rw [OrdMap.isEmpty_iff.mp hempty tag] at hrequest
  cases hrequest

theorem Inv.exact_iff (h : Inv config l s) : s.PrefetchExact ↔ ∀ request ∈ l.released, request.input.prefetch = false := by
  have hzero : s.PrefetchExact ↔ ∀ core, l.released.countP (prefetches core) = 0 :=
    forall_congr' fun core => by
      rw [h.prefetched core]
      omega
  simp only [hzero, List.countP_eq_zero, prefetches, Bool.and_eq_true, decide_eq_true_eq]
  constructor
  · intro hnone request hrequest
    have hrelease := hnone request.input.subcore request hrequest
    simpa using hrelease
  · intro hnone core request hrequest hprefetch
    rw [hnone request hrequest] at hprefetch
    cases hprefetch.1

/-- What a call releases. -/
theorem released_eq (tick tag : Nat) (s : BiuReadFrontend) :
    BiuReadEvent.released (.releaseTag tick tag, (exec (.releaseTag tick tag) s).1) =
      if s.checkTime tick = none then s.outstanding.get? tag else none := by
  show BiuReadEvent.released (_, (reply .released (releaseTag tick tag s)).1) = _
  unfold releaseTag
  cases s.checkTime tick with
  | some e => rfl
  | none => cases s.outstanding.get? tag <;> rfl

theorem releasesOrdinary_iff (c : BiuReadCall) (s : BiuReadFrontend) :
    (∀ request, BiuReadEvent.released (c, (exec c s).1) = some request → request.input.prefetch = false) ↔
      ReleasesOrdinary c s := by
  have hother {α : Type} (f : α → BiuReadReply) (hf : ∀ a, BiuReadEvent.released (c, .ok (f a)) = none)
      (x : Outcome BiuReadError α) : BiuReadEvent.released (c, x.map f) = none := by
    cases x with
    | error e => rfl
    | ok a => exact hf a
  cases c with
  | push tick input =>
    have hnone := hother .pushed (fun _ => rfl) (push tick input s).1
    exact iff_of_true (fun request hrequest => by cases hnone.symm.trans hrequest) trivial
  | arbitrate tick =>
    have hnone := hother .arbitrated (fun _ => rfl) (arbitrate tick s).1
    exact iff_of_true (fun request hrequest => by cases hnone.symm.trans hrequest) trivial
  | send tick transportReady =>
    have hnone := hother .sent (fun _ => rfl) (send tick transportReady s).1
    exact iff_of_true (fun request hrequest => by cases hnone.symm.trans hrequest) trivial
  | releaseTag tick tag =>
    rw [released_eq]
    constructor
    · intro h htime request hrequest
      exact h request ((if_pos htime).trans hrequest)
    · intro h request hrequest
      split at hrequest
      · rename_i htime
        exact h htime request hrequest
      · cases hrequest

/-- From a state of exact counters. -/
theorem prefetch_iff (h : Inv config l s) (hordinary : ∀ request ∈ l.released, request.input.prefetch = false)
    (cs : List BiuReadCall) :
    (∀ n, (runCalls exec s (cs.take n)).2.PrefetchExact) ↔ Allowed ReleasesOrdinary exec s cs := by
  induction cs generalizing s l with
  | nil => exact iff_of_true (fun n => by rw [List.take_nil]; exact h.exact_iff.mpr hordinary) trivial
  | cons c cs ih =>
    have hinv := (exec_keeps h c).2
    have hreleased : (∀ request ∈ (l.after (c, (exec c s).1)).released, request.input.prefetch = false) ↔
        ReleasesOrdinary c s := by
      rw [← releasesOrdinary_iff]
      unfold ReadLog.after
      dsimp only
      constructor
      · intro hall request hrequest
        exact hall request (List.mem_append_right _ (by rw [hrequest]; exact List.mem_singleton_self request))
      · intro hnew request hrequest
        rcases List.mem_append.mp hrequest with hrequest | hrequest
        · exact hordinary request hrequest
        · exact hnew request (Option.mem_toList.mp hrequest)
    constructor
    · intro hall
      have hc := hreleased.mp (hinv.exact_iff.mp (hall 1))
      exact ⟨hc, (ih hinv (hreleased.mpr hc)).mp fun n => hall (n + 1)⟩
    · rintro ⟨hc, hcs⟩ n
      cases n with
      | zero => exact h.exact_iff.mpr hordinary
      | succ n => exact (ih hinv (hreleased.mpr hc)).mpr hcs n

/-- The prefetch counters are exact after every call, just if no call releases a prefetch request. -/
theorem prefetch_exact_iff (config : BiuReadConfig) (cs : List BiuReadCall) :
    (∀ n, (runCalls exec (new config) (cs.take n)).2.PrefetchExact) ↔ Allowed ReleasesOrdinary exec (new config) cs :=
  prefetch_iff (inv_new config) (fun _ hrequest => absurd hrequest List.not_mem_nil) cs

theorem prefetch_not_released :
    let s := (runCalls exec (new sampleReadConfig) (sampleReadCalls true)).2
    s.outstanding.isEmpty = true ∧ s.prefetchOutstanding .cube = 3 ∧ s.prefetchAllowed .cube = false ∧
      ¬ s.PrefetchExact := by
  refine ⟨by decide +kernel, by decide +kernel, by decide +kernel, fun h => ?_⟩
  have hcube := h .cube
  revert hcube
  decide +kernel

end BiuReadFrontend

end Runs

end AscendEmulator.C220.Mte
