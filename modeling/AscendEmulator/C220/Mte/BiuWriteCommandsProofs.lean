/-
  AscendEmulator.C220.Mte.BiuWriteCommandsProofs — tags, pieces and ends of instructions of the write commands.

  The state is tied to what was pushed, sent and started so far: the tags are partitioned (`Tags`), the pieces of a
  core were sent or wait in order (`Flow`), a tag's flags follow its calls (`Tracked`), and the retirement record of an
  instruction counts its commands whose source has not started (`Counted`).
-/

import AscendEmulator.Lib.Cuts
import AscendEmulator.Lib.Tiling
import AscendEmulator.C220.Mte.BiuWriteCommands
import AscendEmulator.C220.Mte.DmaUopsProofs

namespace AscendEmulator.C220.Mte

open Lib

/-! ## Splits -/

namespace Split

variable {s : Split}

/-- A split within its input. -/
def Within (s : Split) : Prop := s.offset.toNat ≤ s.input.bytes.toNat

theorem Within.remaining (h : s.Within) : s.remaining.toNat = s.input.bytes.toNat - s.offset.toNat :=
  UInt32.toNat_sub_of_le _ _ (UInt32.le_iff_toNat_le.mpr h)

theorem next_none (h : s.remaining = 0) : s.next = none := if_pos h

/-- The size of the next piece. -/
def size (s : Split) : UInt32 :=
  s.input.generated.mode.splitBytes (s.input.generated.request.destinationAddress + s.offset.toUInt64) s.remaining

/-- The split after its next piece. -/
def rest (s : Split) : Split := { s with offset := s.offset + s.size }

@[simp] theorem rest_input : s.rest.input = s.input := rfl

theorem next_some (h : s.remaining ≠ 0) : s.next = some ((s.offset, s.input.piece s.offset s.size), s.rest) := if_neg h

theorem size_pos (h : s.remaining ≠ 0) : 0 < s.size.toNat := DmaUopMode.splitBytes_pos _ _ (toNat_pos.mp h)

theorem size_le : s.size.toNat ≤ s.remaining.toNat := DmaUopMode.splitBytes_le _ _

theorem Within.rest_offset (h : s.Within) : s.rest.offset.toNat = s.offset.toNat + s.size.toNat := by
  have hle := s.size_le
  rw [h.remaining] at hle
  have hbytes := s.input.bytes.toNat_lt
  show (s.offset + s.size).toNat = _
  rw [UInt32.toNat_add, Nat.mod_eq_of_lt (by unfold Within at h; omega)]

theorem Within.rest (h : s.Within) : s.rest.Within := by
  have hle := s.size_le
  rw [h.remaining] at hle
  unfold Within
  rw [h.rest_offset]
  show _ ≤ s.input.bytes.toNat
  unfold Within at h
  omega

theorem Within.rest_remaining (h : s.Within) : s.rest.remaining.toNat = s.remaining.toNat - s.size.toNat := by
  rw [h.rest.remaining, h.rest_offset, h.remaining]
  show s.input.bytes.toNat - _ = _
  omega

theorem shrinks : Cuts.Shrinks next Within fun s => s.remaining.toNat := by
  intro s piece rest h hnext
  by_cases hzero : s.remaining = 0
  · rw [next_none hzero] at hnext
    cases hnext
  · obtain ⟨-, rfl⟩ : _ = piece ∧ s.rest = rest := by simpa [next_some hzero] using hnext
    have hsize := size_pos hzero
    have hrest := h.rest_remaining
    have hpos := toNat_pos.mp hzero
    refine ⟨h.rest, ?_⟩
    show s.rest.remaining.toNat < s.remaining.toNat
    omega

/-- The rule for what is shown piece by piece. -/
theorem Within.ind {P : Split → Prop} (hdone : ∀ s : Split, s.Within → s.remaining = 0 → P s)
    (hstep : ∀ s : Split, s.Within → s.remaining ≠ 0 → P s.rest → P s) (h : s.Within) : P s := by
  refine shrinks.ind (fun s hs hnone => hdone s hs ?_) (fun s piece rest hs hsome hrest => ?_) h
  · by_contra hne
    rw [next_some hne] at hnone
    cases hnone
  · have hne : s.remaining ≠ 0 := by
      intro hzero
      rw [next_none hzero] at hsome
      cases hsome
    obtain ⟨-, rfl⟩ : _ = piece ∧ s.rest = rest := by simpa [next_some hne] using hsome
    exact hstep s hs hne hrest

theorem collect_eq (fuel : Nat) (s : Split) : s.collect fuel = Cuts.collect next fuel s := by
  induction fuel generalizing s with
  | zero => rfl
  | succ fuel ih =>
    unfold collect Cuts.collect
    cases s.next with
    | none => rfl
    | some r => exact congrArg _ (ih r.2)

theorem pieces_eq (s : Split) : s.pieces = Cuts.pieces next (fun s => s.remaining.toNat) s := collect_eq _ s

theorem pieces_done (h : s.remaining = 0) : s.pieces = [] := by
  rw [pieces_eq]
  exact Cuts.pieces_none (next_none h)

theorem pieces_step (h : s.Within) (hr : s.remaining ≠ 0) :
    s.pieces = (s.offset, s.input.piece s.offset s.size) :: s.rest.pieces := by
  rw [pieces_eq, pieces_eq]
  exact shrinks.pieces_some h (next_some hr)

/-- When a split is ready does not change its pieces. -/
theorem pieces_ready (tick tick' : Nat) (input : BiuWriteInput) (offset : UInt32) :
    (Split.mk tick input offset).pieces = (Split.mk tick' input offset).pieces := by
  suffices h : ∀ fuel offset, collect fuel ⟨tick, input, offset⟩ = collect fuel ⟨tick', input, offset⟩ from h _ offset
  intro fuel
  induction fuel with
  | zero => exact fun _ => rfl
  | succ fuel ih =>
    intro offset
    unfold collect
    by_cases hzero : (Split.mk tick input offset).remaining = 0
    · have hzero' : (Split.mk tick' input offset).remaining = 0 := hzero
      rw [next_none hzero, next_none hzero']
    · have hzero' : (Split.mk tick' input offset).remaining ≠ 0 := hzero
      rw [next_some hzero, next_some hzero']
      exact congrArg _ (ih _)

/-- The pieces tile what is left, each a piece of the input. -/
theorem pieces_tile (h : s.Within) :
    Tiles (fun x => x.1.toNat) (fun x => x.2.bytes.toNat) s.offset.toNat s.pieces s.input.bytes.toNat ∧
      ∀ x ∈ s.pieces, x.2 = s.input.piece x.1 x.2.bytes := by
  refine h.ind (P := fun s => Tiles (fun x => x.1.toNat) (fun x => x.2.bytes.toNat) s.offset.toNat s.pieces
    s.input.bytes.toNat ∧ ∀ x ∈ s.pieces, x.2 = s.input.piece x.1 x.2.bytes) ?_ ?_
  · intro s h hzero
    have hrem := h.remaining
    rw [hzero, UInt32.toNat_zero] at hrem
    have hle : s.offset.toNat ≤ s.input.bytes.toNat := h
    have hend : s.offset.toNat = s.input.bytes.toNat := by omega
    rw [pieces_done hzero]
    exact ⟨hend, fun x hx => absurd hx List.not_mem_nil⟩
  · rintro s h hr ⟨htile, hpiece⟩
    rw [pieces_step h hr]
    rw [h.rest_offset] at htile
    refine ⟨⟨rfl, size_pos hr, htile⟩, fun x hx => ?_⟩
    rcases List.mem_cons.mp hx with rfl | hx
    · rfl
    · exact hpiece x hx

/-- The flag of the last piece, when the input ends its instruction. -/
def endMark (input : BiuWriteInput) : Bool := input.lastInInstruction && input.generated.request.lastInBurst

theorem pieces_marks (h : s.Within) (hr : s.remaining ≠ 0) :
    s.pieces.map (·.2.lastInInstruction) = List.replicate (s.pieces.length - 1) false ++ [endMark s.input] := by
  rw [pieces_eq]
  refine shrinks.marks (e := fun s => endMark s.input) (fun s piece rest h hnext => ?_) h
    (by rw [next_some hr]; exact Option.some_ne_none _)
  have hr : s.remaining ≠ 0 := by
    intro hzero
    rw [next_none hzero] at hnext
    cases hnext
  obtain ⟨rfl, rfl⟩ : _ = piece ∧ s.rest = rest := by simpa [next_some hr] using hnext
  refine ⟨?_, rfl⟩
  have hend : s.offset + s.size = s.input.generated.request.bytes ↔ s.rest.remaining = 0 := by
    have hle : s.rest.offset.toNat ≤ s.rest.input.bytes.toNat := h.rest
    have hrem := h.rest.remaining
    rw [← UInt32.toNat_inj, ← UInt32.toNat_inj, UInt32.toNat_zero]
    show s.rest.offset.toNat = s.rest.input.bytes.toNat ↔ s.rest.remaining.toNat = 0
    omega
  have hnone : s.rest.next.isNone = decide (s.offset + s.size = s.input.generated.request.bytes) := by
    by_cases hlast : s.rest.remaining = 0
    · rw [next_none hlast, decide_eq_true (hend.mpr hlast)]
      rfl
    · rw [next_some hlast, decide_eq_false (fun he => hlast (hend.mp he))]
      rfl
  rw [hnone]
  exact (Bool.and_assoc ..).symm

end Split

namespace BiuWriteInput

/-- The pieces of an input: none if it has no bytes. -/
def pieces (i : BiuWriteInput) : List (UInt32 × BiuWriteInput) := (Split.mk 0 i 0).pieces

variable {i : BiuWriteInput} {x : UInt32 × BiuWriteInput}

theorem within (i : BiuWriteInput) (tick : Nat) : (Split.mk tick i 0).Within := Nat.zero_le _

theorem remaining (i : BiuWriteInput) (tick : Nat) : (Split.mk tick i 0).remaining = i.bytes := sub_zero i.bytes

theorem pieces_tile (i : BiuWriteInput) :
    Tiles (fun x => x.1.toNat) (fun x => x.2.bytes.toNat) 0 i.pieces i.bytes.toNat ∧
      ∀ x ∈ i.pieces, x.2 = i.piece x.1 x.2.bytes := Split.pieces_tile (i.within 0)

theorem pieces_subcore (hx : x ∈ i.pieces) : x.2.subcore = i.subcore := by
  rw [i.pieces_tile.2 x hx]
  rfl

theorem pieces_instructionId (hx : x ∈ i.pieces) : x.2.instructionId = i.instructionId := by
  rw [i.pieces_tile.2 x hx]
  rfl

end BiuWriteInput

namespace BiuWriteCommands

/-! ## Tags -/

/-- How often a tag is among the fresh, the free, the reserved and the issued ones. -/
def tally (outstanding nextFresh : Nat) (free : List Nat) (reserved : Option Nat) (issued : Bool) (tag : Nat) : Nat :=
  (if nextFresh ≤ tag ∧ tag ≤ outstanding then 1 else 0) + free.count tag + (if reserved = some tag then 1 else 0) +
    if issued then 1 else 0

section Tally

variable {outstanding nextFresh tag t : Nat} {free : List Nat} {reserved : Option Nat} {issued : Bool}

theorem tally_fresh (h : nextFresh ≤ outstanding) :
    tally outstanding (nextFresh + 1) free (some nextFresh) issued tag = tally outstanding nextFresh free none issued tag := by
  unfold tally
  by_cases htag : nextFresh = tag
  · subst htag
    have hpast : ¬ nextFresh + 1 ≤ nextFresh := by omega
    simp only [hpast, h, false_and, Nat.le_refl, true_and, if_true, if_false, reduceCtorEq]
    omega
  · have hiff : nextFresh + 1 ≤ tag ↔ nextFresh ≤ tag := by omega
    simp only [hiff, Option.some.injEq, htag, if_false, reduceCtorEq]

theorem tally_free :
    tally outstanding nextFresh free.tail free.head? issued tag = tally outstanding nextFresh free none issued tag := by
  unfold tally
  cases free with
  | nil => rfl
  | cons first free =>
    by_cases htag : first = tag
    · subst htag
      simp only [List.head?_cons, List.tail_cons, List.count_cons_self, if_true, reduceCtorEq, if_false]
      omega
    · simp only [List.head?_cons, List.tail_cons, List.count_cons_of_ne htag, Option.some.injEq, htag, if_false,
        reduceCtorEq]

theorem tally_issue (h : tag = t → issued = false) :
    tally outstanding nextFresh free none (decide (tag = t) || issued) tag =
      tally outstanding nextFresh free (some t) issued tag := by
  unfold tally
  by_cases htag : tag = t
  · simp [htag, h htag]
  · have hne : ¬ t = tag := Ne.symm htag
    simp [htag, hne]

theorem tally_release (h : tag = t → issued = true) :
    tally outstanding nextFresh (free ++ [t]) reserved (!decide (tag = t) && issued) tag =
      tally outstanding nextFresh free reserved issued tag := by
  unfold tally
  rw [List.count_append]
  by_cases htag : tag = t
  · subst htag
    simp only [decide_true, Bool.not_true, Bool.false_and, h rfl, List.count_singleton_self, Bool.false_eq_true, if_true,
      if_false]
    omega
  · have hne : ¬ t = tag := Ne.symm htag
    simp [htag, hne]

/-- A tag that is reserved is not issued, if it is in one place. -/
theorem tally_reserved (h : tally outstanding nextFresh free (some tag) issued tag ≤ 1) : issued = false := by
  cases issued with
  | false => rfl
  | true =>
    simp only [tally, if_true] at h
    omega

/-- A tag that is issued is one of the tags there are. -/
theorem tally_bounds (h : tally outstanding nextFresh free reserved true tag = if 1 ≤ tag ∧ tag ≤ outstanding then 1 else 0) :
    1 ≤ tag ∧ tag ≤ outstanding := by
  by_contra hn
  simp only [tally, if_true, if_neg hn] at h
  omega

end Tally

/-- In how many places a tag is: never issued, free, reserved, issued. -/
def places (s : BiuWriteCommands) (tag : Nat) : Nat :=
  tally s.outstanding s.nextFresh s.free s.reserved (s.issued.contains tag) tag

structure Tags (s : BiuWriteCommands) : Prop where
  once : ∀ tag, s.places tag = if 1 ≤ tag ∧ tag ≤ s.outstanding then 1 else 0
  own : ∀ tag i, s.issued.get? tag = some i → i.command.tag = tag

variable {s s' : BiuWriteCommands} {tag tick next : Nat}

theorem Tags.not_issued (h : s.Tags) (hr : s.reserved = some tag) : s.issued.get? tag = none := by
  have hle : s.places tag ≤ 1 := by
    rw [h.once]
    split <;> omega
  unfold places at hle
  rw [hr] at hle
  exact OrdMap.contains_eq_false.mp (tally_reserved hle)

theorem Tags.issued_bounds (h : s.Tags) (hi : s.issued.contains tag = true) : 1 ≤ tag ∧ tag ≤ s.outstanding := by
  have hplaces := h.once tag
  unfold places at hplaces
  rw [hi] at hplaces
  exact tally_bounds hplaces

/-- There are at most `outstanding` commands. -/
theorem Tags.card (h : s.Tags) : s.issued.dom.card ≤ s.outstanding := by
  have hsub : s.issued.dom ⊆ Finset.Icc 1 s.outstanding := by
    intro tag htag
    exact Finset.mem_Icc.mpr (h.issued_bounds (OrdMap.mem_dom.mp htag))
  have := Finset.card_le_card hsub
  rwa [Nat.card_Icc, Nat.add_sub_cancel] at this

theorem Tags.reserve (h : s.Tags) : s.reserve.Tags := by
  unfold BiuWriteCommands.reserve
  split
  · exact h
  · rename_i hnone
    have hnone : s.reserved = none := by simpa using hnone
    have hplaces (tag : Nat) : s.places tag =
        tally s.outstanding s.nextFresh s.free none (s.issued.contains tag) tag := by
      unfold places
      rw [hnone]
    split
    · rename_i hfresh
      exact ⟨fun tag => ((tally_fresh hfresh).trans (hplaces tag).symm).trans (h.once tag), h.own⟩
    · exact ⟨fun tag => (tally_free.trans (hplaces tag).symm).trans (h.once tag), h.own⟩

/-- An issued command is replaced by one of the same tag. -/
theorem Tags.replace (h : s.Tags) {i i' : Issued} (hissued : s'.issued = s.issued.insert tag i')
    (hi : s.issued.get? tag = some i) (htag : i'.command.tag = i.command.tag)
    (hrest : (s'.config, s'.nextFresh, s'.free, s'.reserved) = (s.config, s.nextFresh, s.free, s.reserved)) : s'.Tags := by
  obtain ⟨hconfig, hfresh, hfree, hreserved⟩ : s'.config = s.config ∧ s'.nextFresh = s.nextFresh ∧ s'.free = s.free ∧
    s'.reserved = s.reserved := by simpa using hrest
  have hout : s'.outstanding = s.outstanding := congrArg (·.outstanding.val.toNat) hconfig
  refine ⟨fun tag' => ?_, fun tag' j hj => ?_⟩
  · have hplaces := h.once tag'
    unfold places at hplaces ⊢
    have hcontains : s'.issued.contains tag' = s.issued.contains tag' := by
      rw [hissued, OrdMap.contains_insert]
      by_cases heq : tag' = tag
      · rw [heq, OrdMap.contains_eq_true.mpr ⟨i, hi⟩, Bool.or_true]
      · rw [decide_eq_false heq, Bool.false_or]
    rw [hcontains, hout, hfresh, hfree, hreserved]
    exact hplaces
  · rw [hissued, OrdMap.get?_insert] at hj
    split at hj
    · rename_i heq
      obtain rfl : i' = j := Option.some.inj hj
      rw [htag, heq, h.own _ _ hi]
    · exact h.own _ _ hj

theorem Tags.send (h : s.Tags) (hr : s.reserved = some tag) (piece : UInt32 × BiuWriteInput) (splits : List Split) :
    (s.send next tag piece splits).2.Tags := by
  refine ⟨fun tag' => Eq.trans ?_ (h.once tag'), fun tag' i hi => ?_⟩
  · have hnone := OrdMap.contains_eq_false.mpr (h.not_issued hr)
    show tally s.outstanding s.nextFresh s.free none ((s.issued.insert tag _).contains tag') tag' = s.places tag'
    unfold places
    rw [OrdMap.contains_insert, hr]
    exact tally_issue fun heq => heq ▸ hnone
  · unfold BiuWriteCommands.send at hi
    dsimp only at hi
    rw [OrdMap.get?_insert] at hi
    split at hi
    · rename_i heq
      cases hi
      exact heq.symm
    · exact h.own _ _ hi

theorem Tags.release (h : s.Tags) {i : Issued} (hi : s.issued.get? tag = some i) :
    Tags { s with issued := s.issued.erase tag, free := s.free ++ [tag] } := by
  refine ⟨fun tag' => Eq.trans ?_ (h.once tag'), fun tag' j hj => ?_⟩
  · have hcontains := OrdMap.contains_eq_true.mpr ⟨i, hi⟩
    show tally s.outstanding s.nextFresh (s.free ++ [tag]) s.reserved ((s.issued.erase tag).contains tag') tag' =
      s.places tag'
    rw [OrdMap.contains_erase]
    exact tally_release fun heq => heq ▸ hcontains
  · dsimp only at hj
    rw [OrdMap.get?_erase] at hj
    split at hj
    · cases hj
    · exact h.own _ _ hj

/-! ## Flags -/

structure Tracked (s : BiuWriteCommands) : Prop where
  /-- A command is delivered before its DBID comes, and that before its source starts. -/
  order : ∀ tag i, s.issued.get? tag = some i →
    (i.sourceStarted = true → i.dbidReceived = true) ∧ (i.dbidReceived = true → i.delivered = true)
  transport : ∀ x ∈ s.transport, ∃ i, s.issued.get? x.command.tag = some i ∧ i.delivered = false
  distinct : (s.transport.map (·.command.tag)).Nodup

/-- A command that was delivered is changed or dropped. -/
theorem Tracked.delivered (h : s.Tracked) {i : Issued} (hi : s.issued.get? tag = some i) (hd : i.delivered = true)
    (htransport : s'.transport = s.transport)
    (horder : ∀ j, s'.issued.get? tag = some j →
      (j.sourceStarted = true → j.dbidReceived = true) ∧ (j.dbidReceived = true → j.delivered = true))
    (hothers : ∀ tag', tag' ≠ tag → s'.issued.get? tag' = s.issued.get? tag') : s'.Tracked := by
  refine ⟨fun tag' j hj => ?_, fun x hx => ?_, by rw [htransport]; exact h.distinct⟩
  · by_cases heq : tag' = tag
    · exact horder j (heq ▸ hj)
    · exact h.order tag' j ((hothers tag' heq).symm.trans hj)
  · rw [htransport] at hx
    obtain ⟨j, hj, hnot⟩ := h.transport x hx
    have hne : x.command.tag ≠ tag := by
      rintro heq
      rw [heq, hi] at hj
      cases hj
      rw [hd] at hnot
      cases hnot
    exact ⟨j, (hothers _ hne).trans hj, hnot⟩

theorem Tracked.send (h : s.Tracked) (ht : s.issued.get? tag = none) (piece : UInt32 × BiuWriteInput)
    (splits : List Split) : (s.send next tag piece splits).2.Tracked := by
  have hfresh : ∀ x ∈ s.transport, x.command.tag ≠ tag := by
    intro x hx heq
    obtain ⟨i, hi, -⟩ := h.transport x hx
    rw [heq, ht] at hi
    cases hi
  unfold BiuWriteCommands.send
  refine ⟨fun tag' i hi => ?_, fun x hx => ?_, ?_⟩
  · dsimp only at hi
    rw [OrdMap.get?_insert] at hi
    split at hi
    · cases hi
      exact ⟨nofun, nofun⟩
    · exact h.order tag' i hi
  · rcases List.mem_append.mp hx with hx | hx
    · obtain ⟨i, hi, hnot⟩ := h.transport x hx
      exact ⟨i, (OrdMap.get?_insert_ne (hfresh x hx)).trans hi, hnot⟩
    · obtain rfl := List.mem_singleton.mp hx
      exact ⟨_, OrdMap.get?_insert_self, rfl⟩
  · show (List.map _ (s.transport ++ [_])).Nodup
    rw [List.map_append, List.nodup_append]
    refine ⟨h.distinct, List.nodup_singleton _, fun a ha b hb => ?_⟩
    obtain ⟨x, hx, rfl⟩ := List.mem_map.mp ha
    obtain rfl := List.mem_singleton.mp hb
    exact hfresh x hx

theorem Tracked.deliver (h : s.Tracked) {x : BiuWriteCommandTransfer} {transport : List BiuWriteCommandTransfer}
    {i : Issued} (ht : s.transport = x :: transport) (hi : s.issued.get? x.command.tag = some i) :
    Tracked { s with transport, issued := s.issued.insert x.command.tag { i with delivered := true } } := by
  have hdistinct := h.distinct
  rw [ht, List.map_cons, List.nodup_cons] at hdistinct
  refine ⟨fun tag' j hj => ?_, fun y hy => ?_, hdistinct.2⟩
  · dsimp only at hj
    rw [OrdMap.get?_insert] at hj
    split at hj
    · cases hj
      exact ⟨(h.order _ _ hi).1, fun _ => rfl⟩
    · exact h.order tag' j hj
  · have hne : y.command.tag ≠ x.command.tag := by
      intro heq
      exact hdistinct.1 (heq ▸ List.mem_map_of_mem hy)
    obtain ⟨j, hj, hnot⟩ := h.transport y (by rw [ht]; exact List.mem_cons_of_mem _ hy)
    exact ⟨j, (OrdMap.get?_insert_ne hne).trans hj, hnot⟩

end BiuWriteCommands

/-! ## What was done -/

/-- The inputs pushed, the commands sent and the sources started so far. -/
structure WriteLog where
  pushed : List BiuWriteInput
  sent : List BiuWriteCommand
  started : List BiuWriteSourceRequest

namespace WriteLog

def inputs (l : WriteLog) (id : Nat) : List BiuWriteInput := l.pushed.filter (·.instructionId = id)

def commands (l : WriteLog) (id : Nat) : List BiuWriteCommand := l.sent.filter (·.input.instructionId = id)

def starts (l : WriteLog) (id : Nat) : List BiuWriteSourceRequest := l.started.filter (·.instructionId = id)

/-- The pieces of a core's inputs. -/
def piecesOn (l : WriteLog) (core : BiuSubcore) : List (UInt32 × BiuWriteInput) :=
  (l.pushed.filter (·.subcore = core)).flatMap BiuWriteInput.pieces

/-- The pieces of a core that were sent. -/
def sentOn (l : WriteLog) (core : BiuSubcore) : List (UInt32 × BiuWriteInput) :=
  (l.sent.filter (·.input.subcore = core)).map fun c => (c.byteOffset, c.input)

/-- The pieces of an instruction's inputs. -/
def pieces (l : WriteLog) (id : Nat) : List (UInt32 × BiuWriteInput) := (l.inputs id).flatMap BiuWriteInput.pieces

/-- Which of these pieces end the instruction. -/
def marks (l : WriteLog) (id : Nat) : List Bool := (l.pieces id).map (·.2.lastInInstruction)

end WriteLog

/-- Inputs of one instruction that make it whole: none empty, all of one core, and the last one alone ends the
instruction, as the last of its burst. -/
structure Whole (inputs : List BiuWriteInput) : Prop where
  bytes : ∀ i ∈ inputs, i.bytes ≠ 0
  core : ∀ i ∈ inputs, ∀ j ∈ inputs, i.subcore = j.subcore
  marked : inputs.map (·.lastInInstruction) = List.replicate (inputs.length - 1) false ++ [true]
  burst : ∀ i ∈ inputs, i.lastInInstruction = true → i.generated.request.lastInBurst = true

/-- What inputs of a whole instruction are at any time: of one core, with no piece before the last ending it. -/
structure WriteLog.Good (l : WriteLog) (id : Nat) : Prop where
  core : ∀ i ∈ l.inputs id, ∀ j ∈ l.inputs id, i.subcore = j.subcore
  marks : ∀ b ∈ (l.marks id).dropLast, b = false

namespace BiuWriteInput

theorem pieces_marks {i : BiuWriteInput} (h : i.bytes ≠ 0) :
    i.pieces.map (·.2.lastInInstruction) =
      List.replicate (i.pieces.length - 1) false ++ [i.lastInInstruction && i.generated.request.lastInBurst] :=
  Split.pieces_marks (i.within 0) (by rw [i.remaining]; exact h)

theorem pieces_pos {i : BiuWriteInput} (h : i.bytes ≠ 0) : 0 < i.pieces.length := by
  unfold pieces
  rw [Split.pieces_step (i.within 0) (by rw [i.remaining]; exact h)]
  exact Nat.succ_pos _

theorem pieces_empty {i : BiuWriteInput} (h : i.bytes = 0) : i.pieces = [] :=
  Split.pieces_done (by rw [i.remaining]; exact h)

end BiuWriteInput

theorem marks_whole {inputs : List BiuWriteInput} (hbytes : ∀ i ∈ inputs, i.bytes ≠ 0)
    (hburst : ∀ i ∈ inputs, i.lastInInstruction = true → i.generated.request.lastInBurst = true)
    (hmarked : inputs.map (·.lastInInstruction) = List.replicate (inputs.length - 1) false ++ [true]) :
    (inputs.flatMap BiuWriteInput.pieces).map (·.2.lastInInstruction) =
      List.replicate ((inputs.flatMap BiuWriteInput.pieces).length - 1) false ++ [true] := by
  induction inputs with
  | nil => cases hmarked
  | cons i inputs ih =>
    have hi := BiuWriteInput.pieces_marks (hbytes i List.mem_cons_self)
    have hpos := BiuWriteInput.pieces_pos (hbytes i List.mem_cons_self)
    rw [List.flatMap_cons, List.map_append, List.length_append, hi]
    cases inputs with
    | nil =>
      have hlast : i.lastInInstruction = true := by simpa using hmarked
      rw [hlast, hburst i List.mem_cons_self hlast]
      simp
    | cons j inputs =>
      have hmarked' : i.lastInInstruction = false ∧ (j :: inputs).map (·.lastInInstruction) =
          List.replicate ((j :: inputs).length - 1) false ++ [true] := by
        simpa [List.replicate_succ] using hmarked
      have hrest := ih (fun x hx => hbytes x (List.mem_cons_of_mem _ hx)) (fun x hx => hburst x (List.mem_cons_of_mem _ hx))
        hmarked'.2
      have hsome : 0 < ((j :: inputs).flatMap BiuWriteInput.pieces).length := by
        have := BiuWriteInput.pieces_pos (hbytes j (by simp))
        rw [List.flatMap_cons, List.length_append]
        omega
      rw [hrest, hmarked'.1, Bool.false_and, ← List.replicate_one, ← List.append_assoc, List.replicate_append_replicate,
        List.replicate_append_replicate]
      congr 2
      omega

namespace WriteLog

variable {l : WriteLog} {id : Nat}

theorem marks_of_whole (h : Whole (l.inputs id)) :
    l.marks id = List.replicate ((l.pieces id).length - 1) false ++ [true] := marks_whole h.bytes h.burst h.marked

theorem good_of_whole (h : Whole (l.inputs id)) : l.Good id := by
  refine ⟨h.core, ?_⟩
  rw [marks_of_whole h, List.dropLast_concat]
  exact fun b hb => List.eq_of_mem_replicate hb

theorem length_marks : (l.marks id).length = (l.pieces id).length := List.length_map _

theorem marks_push (l : WriteLog) (input : BiuWriteInput) :
    l.marks id <+: WriteLog.marks { l with pushed := l.pushed ++ [input] } id := by
  unfold WriteLog.marks WriteLog.pieces WriteLog.inputs
  rw [List.filter_append, List.flatMap_append, List.map_append]
  exact List.prefix_append _ _

theorem prefix_dropLast {a b : List Bool} (h : a <+: b) : a.dropLast <+: b.dropLast := by
  obtain ⟨r, rfl⟩ := h
  rcases List.eq_nil_or_concat' r with rfl | ⟨r, x, rfl⟩
  · rw [List.append_nil]
  · rw [← List.append_assoc, List.dropLast_concat]
    exact ( List.dropLast_prefix a).trans (List.prefix_append _ _)

theorem Good.before {input : BiuWriteInput} (h : WriteLog.Good { l with pushed := l.pushed ++ [input] } id) : l.Good id := by
  have hsub : l.inputs id ⊆ WriteLog.inputs { l with pushed := l.pushed ++ [input] } id := by
    intro i hi
    unfold WriteLog.inputs
    rw [List.filter_append]
    exact List.mem_append_left _ hi
  refine ⟨fun i hi j hj => h.core i (hsub hi) j (hsub hj), fun b hb => h.marks b ?_⟩
  exact (prefix_dropLast (l.marks_push input)).subset hb

/-- The last command ends a whole instruction of which every piece was sent. -/
theorem last_ends {c : BiuWriteCommand} (h : Whole (l.inputs id))
    (hall : (l.commands id).map (fun c => (c.byteOffset, c.input)) = l.pieces id)
    (hc : (l.commands id).getLast? = some c) : c.input.lastInInstruction = true := by
  have hmarks := marks_of_whole h
  unfold marks at hmarks
  rw [← hall, List.map_map] at hmarks
  have hend := congrArg List.getLast? hmarks
  rw [List.getLast?_map, hc, List.getLast?_concat] at hend
  simpa using hend

/-- What a core's inputs of one instruction come to. -/
theorem filter_pieces (inputs : List BiuWriteInput) :
    (inputs.flatMap BiuWriteInput.pieces).filter (·.2.instructionId = id) =
      (inputs.filter (·.instructionId = id)).flatMap BiuWriteInput.pieces := by
  induction inputs with
  | nil => rfl
  | cons i inputs ih =>
    rw [List.flatMap_cons, List.filter_append, ih]
    by_cases hi : i.instructionId = id
    · have hall : i.pieces.filter (·.2.instructionId = id) = i.pieces :=
        List.filter_eq_self.mpr fun x hx => by rw [BiuWriteInput.pieces_instructionId hx]; simpa using hi
      rw [hall, List.filter_cons_of_pos (by simpa using hi), List.flatMap_cons]
    · have hnone : i.pieces.filter (·.2.instructionId = id) = [] :=
        List.filter_eq_nil_iff.mpr fun x hx => by rw [BiuWriteInput.pieces_instructionId hx]; simpa using hi
      rw [hnone, List.filter_cons_of_neg (by simpa using hi), List.nil_append]

end WriteLog

namespace BiuWriteCommands

variable {s s' : BiuWriteCommands} {l : WriteLog} {tag tick next id : Nat} {core : BiuSubcore} {input : BiuWriteInput}

/-! ## Pieces -/

/-- The pieces of a core that wait: first those of its splits, then those of its inputs. -/
def waiting (s : BiuWriteCommands) (core : BiuSubcore) : List (UInt32 × BiuWriteInput) :=
  (s.splits.filter (·.input.subcore = core)).flatMap Split.pieces ++ (s.inputs core).flatMap (·.2.pieces)

structure Flow (l : WriteLog) (s : BiuWriteCommands) : Prop where
  cores : ∀ core, ∀ x ∈ s.inputs core, x.2.subcore = core
  splits : ∀ x ∈ s.splits, x.Within ∧ x.remaining ≠ 0
  pieces : ∀ core, l.sentOn core ++ s.waiting core = l.piecesOn core

theorem waiting_eq (s : BiuWriteCommands) : s.waiting core =
    Cuts.waiting (·.input.subcore) Split.pieces (·.2.pieces) s.splits s.inputs core := rfl

theorem Flow.push (h : Flow l s) (ready : Nat) :
    Flow { l with pushed := l.pushed ++ [input] }
      { s with inputs := Function.update s.inputs input.subcore (s.inputs input.subcore ++ [(ready, input)]) } := by
  refine ⟨fun core x hx => ?_, h.splits, fun core => ?_⟩
  · dsimp only at hx
    by_cases hcore : core = input.subcore
    · subst hcore
      rw [Function.update_self] at hx
      rcases List.mem_append.mp hx with hx | hx
      · exact h.cores _ x hx
      · obtain rfl := List.mem_singleton.mp hx
        rfl
    · rw [Function.update_of_ne hcore] at hx
      exact h.cores core x hx
  · have hpieces := h.pieces core
    rw [waiting_eq] at hpieces ⊢
    rw [Cuts.waiting_push]
    unfold WriteLog.piecesOn at hpieces ⊢
    rw [List.filter_append, List.flatMap_append, ← hpieces, List.append_assoc]
    show l.sentOn core ++ _ = _
    by_cases hcore : core = input.subcore
    · simp [hcore]
    · simp [hcore, Ne.symm hcore]

/-- An input that goes on to be a split, or has no pieces, takes them along. -/
theorem Flow.accept (h : Flow l s) {ready : Nat} {queue : List (Nat × BiuWriteInput)} {more : List Split}
    (hinputs : s.inputs core = (ready, input) :: queue)
    (hmore : input.bytes = 0 ∧ more = [] ∨ input.bytes ≠ 0 ∧ more = [⟨next, input, 0⟩]) :
    Flow l { s with inputs := Function.update s.inputs core queue, splits := s.splits ++ more } := by
  have hcore : input.subcore = core := h.cores core (ready, input) (by rw [hinputs]; exact List.mem_cons_self)
  have hpieces : more.flatMap Split.pieces = input.pieces ∧ ∀ x ∈ more, x.input.subcore = core ∧ x.Within ∧ x.remaining ≠ 0 := by
    rcases hmore with ⟨hzero, rfl⟩ | ⟨hsome, rfl⟩
    · exact ⟨(BiuWriteInput.pieces_empty hzero).symm, fun x hx => absurd hx List.not_mem_nil⟩
    · refine ⟨by rw [List.flatMap_singleton]; exact Split.pieces_ready .., fun x hx => ?_⟩
      obtain rfl := List.mem_singleton.mp hx
      exact ⟨hcore, input.within next, by rw [input.remaining]; exact hsome⟩
  refine ⟨fun core' x hx => ?_, fun x hx => ?_, fun core' => ?_⟩
  · dsimp only at hx
    by_cases heq : core' = core
    · subst heq
      rw [Function.update_self] at hx
      exact h.cores core' x (by rw [hinputs]; exact List.mem_cons_of_mem _ hx)
    · rw [Function.update_of_ne heq] at hx
      exact h.cores core' x hx
  · rcases List.mem_append.mp hx with hx | hx
    · exact h.splits x hx
    · exact (hpieces.2 x hx).2
  · have hkept : Cuts.waiting (·.input.subcore) Split.pieces (fun x : Nat × BiuWriteInput => x.2.pieces)
        (s.splits ++ more) (Function.update s.inputs core queue) core' =
          Cuts.waiting (·.input.subcore) Split.pieces (·.2.pieces) s.splits s.inputs core' :=
      Cuts.waiting_accept hinputs (fun x hx => (hpieces.2 x hx).1) hpieces.1
    exact (congrArg (l.sentOn core' ++ ·) hkept).trans (h.pieces core')

/-- What is left of a split: nothing, or a split with pieces. -/
theorem left_eq (head : Split) (splits : List Split) : ∃ left : List Split,
    (if head.rest.next.isNone then splits else head.rest :: splits) = left ++ splits ∧
      left.flatMap Split.pieces = head.rest.pieces ∧ ∀ x ∈ left, x = head.rest ∧ x.remaining ≠ 0 := by
  by_cases hdone : head.rest.remaining = 0
  · refine ⟨[], if_pos (by rw [Split.next_none hdone]; rfl), (Split.pieces_done hdone).symm, fun x hx => ?_⟩
    exact absurd hx List.not_mem_nil
  · refine ⟨[head.rest], if_neg (by rw [Split.next_some hdone]; exact Bool.false_ne_true), List.flatMap_singleton .., ?_⟩
    intro x hx
    obtain rfl := List.mem_singleton.mp hx
    exact ⟨rfl, hdone⟩

/-- The first piece of the first split leaves. -/
theorem Flow.send (h : Flow l s) {head : Split} {splits : List Split} {piece : UInt32 × BiuWriteInput} {rest : Split}
    (hsplits : s.splits = head :: splits) (hnext : head.next = some (piece, rest)) :
    Flow { l with sent := l.sent ++ [(s.send next tag piece (if rest.next.isNone then splits else rest :: splits)).1] }
      (s.send next tag piece (if rest.next.isNone then splits else rest :: splits)).2 := by
  obtain ⟨hwithin, hleft⟩ := h.splits head (by rw [hsplits]; exact List.mem_cons_self)
  rw [Split.next_some hleft] at hnext
  obtain ⟨rfl, rfl⟩ : _ = piece ∧ _ = rest := by simpa using hnext
  obtain ⟨left, heq, hpieces, hmem⟩ := left_eq head splits
  rw [heq]
  refine ⟨h.cores, fun x hx => ?_, fun core => ?_⟩
  · rcases List.mem_append.mp hx with hx | hx
    · obtain ⟨rfl, hmore⟩ := hmem x hx
      exact ⟨hwithin.rest, hmore⟩
    · exact h.splits x (by rw [hsplits]; exact List.mem_cons_of_mem _ hx)
  · have hhead : head.pieces = (head.offset, head.input.piece head.offset head.size) :: left.flatMap Split.pieces := by
      rw [hpieces]
      exact Split.pieces_step hwithin hleft
    have htake : _ ++ Cuts.waiting (·.input.subcore) Split.pieces (·.2.pieces) (left ++ splits) s.inputs core =
        Cuts.waiting (·.input.subcore) Split.pieces (·.2.pieces) (head :: splits) s.inputs core :=
      Cuts.waiting_take hhead fun x hx => by rw [(hmem x hx).1]; rfl
    have hbefore := h.pieces core
    rw [waiting_eq, hsplits, ← htake, ← List.append_assoc] at hbefore
    refine Eq.trans (congrArg (· ++ _) ?_) hbefore
    unfold WriteLog.sentOn BiuWriteCommands.send
    rw [List.filter_append, List.map_append]
    congr 1
    by_cases hcore : head.input.subcore = core
    · have hpiece : (head.input.piece head.offset head.size).subcore = core := hcore
      simp [hcore, hpiece]
    · have hpiece : ¬ (head.input.piece head.offset head.size).subcore = core := hcore
      simp [hcore, hpiece]

/-- A command carries a piece of an input of its core. -/
theorem Flow.sent_input (h : Flow l s) {c : BiuWriteCommand} (hc : c ∈ l.commands id) :
    ∃ i ∈ l.inputs id, c.input.subcore = i.subcore := by
  obtain ⟨hc, hid⟩ := List.mem_filter.mp hc
  have hmem : (c.byteOffset, c.input) ∈ l.piecesOn c.input.subcore := by
    rw [← h.pieces]
    exact List.mem_append_left _ (List.mem_map_of_mem (List.mem_filter.mpr ⟨hc, decide_eq_true rfl⟩))
  obtain ⟨i, hi, hx⟩ := List.mem_flatMap.mp hmem
  obtain ⟨hi, hcore⟩ := List.mem_filter.mp hi
  have hiid : i.instructionId = id := (BiuWriteInput.pieces_instructionId hx).symm.trans (of_decide_eq_true hid)
  exact ⟨i, List.mem_filter.mpr ⟨hi, decide_eq_true hiid⟩, (of_decide_eq_true hcore).symm⟩

/-- The pieces of an instruction of one core were sent or wait, in order. -/
theorem Flow.instruction (h : Flow l s) (hcore : ∀ i ∈ l.inputs id, i.subcore = core) :
    (l.commands id).map (fun c => (c.byteOffset, c.input)) ++ (s.waiting core).filter (·.2.instructionId = id) =
      l.pieces id := by
  have hinputs : (l.pushed.filter (·.subcore = core)).filter (·.instructionId = id) = l.inputs id := by
    rw [List.filter_filter]
    refine List.filter_congr fun j hj => ?_
    by_cases hid : j.instructionId = id
    · have hjcore := hcore j (List.mem_filter.mpr ⟨hj, decide_eq_true hid⟩)
      simp [hid, hjcore]
    · simp [hid]
  have hcommands : (l.sent.filter (·.input.subcore = core)).filter (·.input.instructionId = id) = l.commands id := by
    rw [List.filter_filter]
    refine List.filter_congr fun c hc => ?_
    by_cases hid : c.input.instructionId = id
    · obtain ⟨j, hj, hcj⟩ := h.sent_input (List.mem_filter.mpr ⟨hc, decide_eq_true hid⟩)
      have hjcore := hcore j hj
      simp [hid, hcj, hjcore]
    · simp [hid]
  have hpieces := congrArg (List.filter (·.2.instructionId = id)) (h.pieces core)
  unfold WriteLog.piecesOn WriteLog.sentOn at hpieces
  rw [WriteLog.filter_pieces, hinputs, List.filter_append, List.filter_map] at hpieces
  rw [← hcommands]
  exact hpieces

theorem Flow.sent_prefix (h : Flow l s) (hcore : ∀ i ∈ l.inputs id, ∀ j ∈ l.inputs id, i.subcore = j.subcore) :
    (l.commands id).map (fun c => (c.byteOffset, c.input)) <+: l.pieces id := by
  cases hcommands : l.commands id with
  | nil => exact List.nil_prefix
  | cons c cs =>
    obtain ⟨i, hi, -⟩ := h.sent_input (c := c) (by rw [hcommands]; exact List.mem_cons_self)
    rw [← hcommands]
    exact ⟨_, h.instruction fun j hj => hcore j hj i hi⟩

/-! ## Retirement -/

/-- 1 for a command of `id` whose source has not started. -/
def unstartedAs (id : Nat) (_ : Nat) (i : Issued) : Nat :=
  if i.command.input.instructionId = id ∧ i.sourceStarted = false then 1 else 0

def unstarted (s : BiuWriteCommands) (id : Nat) : Nat := s.issued.sum (unstartedAs id)

structure Counted (l : WriteLog) (s : BiuWriteCommands) (id : Nat) : Prop where
  balance : s.unstarted id + (l.starts id).length = (l.commands id).length
  absent : s.retirement.get? id = none →
    s.unstarted id = 0 ∧ ∀ c, (l.commands id).getLast? = some c → c.input.lastInInstruction = true
  present : ∀ n last, s.retirement.get? id = some (n, last) →
    n = s.unstarted id ∧ (∃ c, (l.commands id).getLast? = some c ∧ last = c.input.lastInInstruction) ∧
      (n = 0 → last = false)

theorem Counted.congr {l' : WriteLog} (h : Counted l s id) (hsent : l'.sent = l.sent) (hstarted : l'.started = l.started)
    (hissued : s'.unstarted id = s.unstarted id) (hretirement : s'.retirement = s.retirement) : Counted l' s' id := by
  have hcommands : l'.commands id = l.commands id := congrArg (List.filter _) hsent
  have hstarts : l'.starts id = l.starts id := congrArg (List.filter _) hstarted
  refine ⟨?_, fun hr => ?_, fun n last hr => ?_⟩
  · rw [hissued, hcommands, hstarts]
    exact h.balance
  · rw [hissued, hcommands]
    exact h.absent (by rw [← hretirement]; exact hr)
  · rw [hissued, hcommands]
    exact h.present n last (by rw [← hretirement]; exact hr)

theorem unstarted_insert {i i' : Issued} (hissued : s'.issued = s.issued.insert tag i') (hi : s.issued.get? tag = some i)
    (hid : i'.command.input.instructionId = i.command.input.instructionId)
    (hstarted : i'.sourceStarted = i.sourceStarted) : s'.unstarted id = s.unstarted id := by
  have hsum := s.issued.sum_insert_some (v := i') (unstartedAs id) hi
  have hsame : unstartedAs id tag i' = unstartedAs id tag i := by
    unfold unstartedAs
    rw [hid, hstarted]
  unfold unstarted
  rw [hissued]
  omega

theorem unstarted_erase {i : Issued} (hi : s.issued.get? tag = some i) (hstarted : i.sourceStarted = true)
    (hissued : s'.issued = s.issued.erase tag) : s'.unstarted id = s.unstarted id := by
  have hsum := s.issued.sum_erase_some (unstartedAs id) hi
  have hzero : unstartedAs id tag i = 0 := if_neg fun hn => by rw [hstarted] at hn; cases hn.2
  unfold unstarted
  rw [hissued]
  omega

/-- Fewer than 2³² sources wait. -/
theorem Tags.unstarted_lt (h : s.Tags) : s.unstarted id < u32 := by
  have hcard := (s.issued.sum_le_card (unstartedAs id) fun _ i => by unfold unstartedAs; split <;> omega).trans h.card
  have hout : s.outstanding < u32 := s.config.outstanding.val.toNat_lt
  exact Nat.lt_of_le_of_lt hcard hout

theorem Counted.send (h : Counted l s id) (ht : s.issued.get? tag = none) {piece : UInt32 × BiuWriteInput}
    {splits : List Split} (htags : (s.send next tag piece splits).2.Tags) :
    Counted { l with sent := l.sent ++ [(s.send next tag piece splits).1] } (s.send next tag piece splits).2 id := by
  have hlt : (s.send next tag piece splits).2.unstarted id < u32 := htags.unstarted_lt
  have hsum : (s.send next tag piece splits).2.unstarted id =
      s.unstarted id + if piece.2.instructionId = id then 1 else 0 := by
    have hnew := s.issued.sum_insert_new (v := ⟨⟨tag, piece.1, piece.2⟩, false, false, false⟩) (unstartedAs id) ht
    have hone : unstartedAs id tag ⟨⟨tag, piece.1, piece.2⟩, false, false, false⟩ =
        if piece.2.instructionId = id then 1 else 0 := by simp [unstartedAs]
    rw [hone] at hnew
    exact hnew
  have hretirement : (s.send next tag piece splits).2.retirement.get? id =
      if id = piece.2.instructionId then
        some (((s.retirement.getD piece.2.instructionId (0, false)).1 + 1) % u32, piece.2.lastInInstruction)
      else s.retirement.get? id := OrdMap.get?_insert
  have hcommands : WriteLog.commands { l with sent := l.sent ++ [(s.send next tag piece splits).1] } id =
      l.commands id ++ if piece.2.instructionId = id then [⟨tag, piece.1, piece.2⟩] else [] := by
    unfold WriteLog.commands BiuWriteCommands.send
    rw [List.filter_append]
    by_cases hid : piece.2.instructionId = id
    · simp [hid]
    · simp [hid]
  have hbalance := h.balance
  by_cases hid : piece.2.instructionId = id
  · subst hid
    rw [if_pos rfl] at hsum hretirement hcommands
    have hcount : (s.retirement.getD piece.2.instructionId (0, false)).1 = s.unstarted piece.2.instructionId := by
      unfold OrdMap.getD
      cases hr : s.retirement.get? piece.2.instructionId with
      | none => exact (h.absent hr).1.symm
      | some count => exact (h.present count.1 count.2 hr).1
    rw [hcount, Nat.mod_eq_of_lt (by omega)] at hretirement
    refine ⟨?_, fun hr => ?_, fun n last hr => ?_⟩
    · rw [hsum, hcommands, List.length_append]
      show _ + (l.starts _).length = _ + 1
      omega
    · rw [hretirement] at hr
      cases hr
    · rw [hretirement] at hr
      cases hr
      exact ⟨hsum.symm, ⟨_, by rw [hcommands]; exact List.getLast?_concat, rfl⟩, fun hz => absurd hz (by omega)⟩
  · have hid' : ¬ id = piece.2.instructionId := Ne.symm hid
    rw [if_neg hid] at hsum hcommands
    rw [if_neg hid'] at hretirement
    rw [List.append_nil] at hcommands
    refine ⟨?_, fun hr => ?_, fun n last hr => ?_⟩
    · rw [hsum, hcommands]
      exact hbalance
    · rw [hsum, hcommands]
      exact h.absent (hretirement ▸ hr)
    · rw [hsum, hcommands]
      exact h.present n last (hretirement ▸ hr)

/-- The start of the source of `i`, of an instruction with `n` sources to start. -/
def begun (s : BiuWriteCommands) (tag : Nat) (i : Issued) (n : Nat) (last : Bool) : BiuWriteCommands :=
  let ends := last && decide (n - 1 = 0)
  let id := i.command.input.instructionId
  { s with
    issued := s.issued.insert tag { i with command := i.ended ends, sourceStarted := true }
    retirement := if ends then s.retirement.erase id else s.retirement.insert id (n - 1, last) }

theorem beginSource_eq {i : Issued} {n : Nat} {last : Bool} (hi : s.issued.get? tag = some i)
    (hd : i.dbidReceived = true) (hs : i.sourceStarted = false)
    (hr : s.retirement.get? i.command.input.instructionId = some (n, last)) :
    beginSource tag s = (.ok (i.ended (last && decide (n - 1 = 0))).sourceRequest, s.begun tag i n last) := by
  unfold beginSource
  rw [hi]
  dsimp only
  rw [if_neg (by rw [hd, hs]; exact Bool.false_ne_true), hr]
  rfl

/-- The command of a source that may start has a retirement record. -/
theorem Counted.recorded {i : Issued} (h : Counted l s i.command.input.instructionId) (hi : s.issued.get? tag = some i)
    (hs : i.sourceStarted = false) : ∃ n last, s.retirement.get? i.command.input.instructionId = some (n, last) ∧ 0 < n := by
  have hle := OrdMap.le_sum (unstartedAs i.command.input.instructionId) hi
  have hone : unstartedAs i.command.input.instructionId tag i = 1 := if_pos ⟨rfl, hs⟩
  have hpos : 0 < s.unstarted i.command.input.instructionId := by
    unfold unstarted
    omega
  cases hr : s.retirement.get? i.command.input.instructionId with
  | none =>
    have := (h.absent hr).1
    omega
  | some count =>
    have := (h.present count.1 count.2 hr).1
    exact ⟨count.1, count.2, rfl, by omega⟩

theorem unstarted_begun {i : Issued} {n : Nat} {last : Bool} (hi : s.issued.get? tag = some i)
    (hs : i.sourceStarted = false) :
    (s.begun tag i n last).unstarted id + (if i.command.input.instructionId = id then 1 else 0) = s.unstarted id := by
  have hsum := s.issued.sum_insert_some
    (v := { i with command := i.ended (last && decide (n - 1 = 0)), sourceStarted := true }) (unstartedAs id) hi
  have hafter : unstartedAs id tag { i with command := i.ended (last && decide (n - 1 = 0)), sourceStarted := true } = 0 :=
    if_neg fun hn => Bool.false_ne_true hn.2.symm
  have hbefore : unstartedAs id tag i = if i.command.input.instructionId = id then 1 else 0 := by
    unfold unstartedAs
    rw [hs]
    simp
  rw [hafter, hbefore] at hsum
  exact hsum

theorem starts_append (r : BiuWriteSourceRequest) :
    WriteLog.starts { l with started := l.started ++ [r] } id =
      l.starts id ++ if r.instructionId = id then [r] else [] := by
  unfold WriteLog.starts
  rw [List.filter_append]
  by_cases hid : r.instructionId = id
  · simp [hid]
  · simp [hid]

theorem Counted.begin {i : Issued} {n : Nat} {last : Bool} (h : Counted l s id) (hi : s.issued.get? tag = some i)
    (hs : i.sourceStarted = false) (hr : s.retirement.get? i.command.input.instructionId = some (n, last)) :
    Counted { l with started := l.started ++ [(i.ended (last && decide (n - 1 = 0))).sourceRequest] }
      (s.begun tag i n last) id := by
  have hunstarted : (s.begun tag i n last).unstarted id +
      (if i.command.input.instructionId = id then 1 else 0) = s.unstarted id := unstarted_begun hi hs
  have hstarts : WriteLog.starts { l with started := l.started ++ [(i.ended (last && decide (n - 1 = 0))).sourceRequest] } id =
      l.starts id ++ if (i.ended (last && decide (n - 1 = 0))).sourceRequest.instructionId = id
        then [(i.ended (last && decide (n - 1 = 0))).sourceRequest] else [] := starts_append _
  have hidr : (i.ended (last && decide (n - 1 = 0))).sourceRequest.instructionId = i.command.input.instructionId := rfl
  rw [hidr] at hstarts
  have hbalance := h.balance
  have hretirement : (s.begun tag i n last).retirement.get? id =
      if last && decide (n - 1 = 0) then (if id = i.command.input.instructionId then none else s.retirement.get? id)
      else if id = i.command.input.instructionId then some (n - 1, last) else s.retirement.get? id := by
    unfold begun
    dsimp only
    split
    · exact OrdMap.get?_erase
    · exact OrdMap.get?_insert
  by_cases hid : i.command.input.instructionId = id
  · subst hid
    obtain ⟨hn, ⟨c, hc, hlast⟩, -⟩ := h.present n last hr
    rw [if_pos rfl] at hunstarted hstarts
    rw [if_pos rfl, if_pos rfl] at hretirement
    refine ⟨?_, fun hr' => ?_, fun n' last' hr' => ?_⟩
    · rw [hstarts, List.length_append]
      show _ + (_ + 1) = (l.commands _).length
      omega
    · rw [hretirement] at hr'
      split at hr'
      · rename_i hends
        obtain ⟨hlast', hzero⟩ := Bool.and_eq_true_iff.mp hends
        have hzero := of_decide_eq_true hzero
        refine ⟨by omega, fun c' hc' => ?_⟩
        have hsame : c' = c := Option.some.inj (hc'.symm.trans hc)
        rw [hsame, ← hlast, hlast']
      · cases hr'
    · rw [hretirement] at hr'
      split at hr'
      · cases hr'
      · rename_i hgoes
        cases hr'
        refine ⟨by omega, ⟨c, hc, hlast⟩, fun hzero => ?_⟩
        cases last with
        | false => rfl
        | true => exact absurd (by rw [hzero]; rfl) hgoes
  · have hid' : ¬ id = i.command.input.instructionId := Ne.symm hid
    rw [if_neg hid, Nat.add_zero] at hunstarted
    rw [if_neg hid, List.append_nil] at hstarts
    rw [if_neg hid', if_neg hid', ite_self] at hretirement
    refine ⟨?_, fun hr' => ?_, fun n' last' hr' => ?_⟩
    · rw [hstarts, hunstarted]
      exact hbalance
    · rw [hunstarted]
      exact h.absent (hretirement ▸ hr')
    · rw [hunstarted]
      exact h.present n' last' (hretirement ▸ hr')

/-! ## Ends of instructions -/

/-- The sources of a whole instruction start with the flags its pieces have, in the order of the starts. -/
def Ended (l : WriteLog) (id : Nat) : Prop := l.Good id → (l.starts id).map (·.lastInInstruction) <+: l.marks id

theorem Ended.push (h : Ended l id) : Ended { l with pushed := l.pushed ++ [input] } id :=
  fun hgood => (h hgood.before).trans (l.marks_push input)

/-- The last of the sources started so far ends the instruction iff its piece does, in this order. -/
theorem Ended.begin {i : Issued} {n : Nat} {last : Bool} (h : Ended l id) (hflow : Flow l s) (hcounted : Counted l s id)
    (hr : s.retirement.get? i.command.input.instructionId = some (n, last)) (hpos : 0 < n) :
    Ended { l with started := l.started ++ [(i.ended (last && decide (n - 1 = 0))).sourceRequest] } id := by
  intro hgood
  have hgood : l.Good id := ⟨hgood.core, hgood.marks⟩
  have hprefix := h hgood
  rw [starts_append]
  have hidr : (i.ended (last && decide (n - 1 = 0))).sourceRequest.instructionId = i.command.input.instructionId := rfl
  rw [hidr]
  show _ <+: l.marks id
  by_cases hid : i.command.input.instructionId = id
  · subst hid
    rw [if_pos rfl, List.map_append]
    obtain ⟨hn, ⟨c, hc, hlast⟩, -⟩ := hcounted.present n last hr
    have hbalance := hcounted.balance
    have hsent := hflow.sent_prefix hgood.core
    -- the flag of the next piece, in the order of the starts
    have hsentMarks : (l.commands i.command.input.instructionId).map (·.input.lastInInstruction) <+:
        l.marks i.command.input.instructionId := by
      have := hsent.map (·.2.lastInInstruction)
      rwa [List.map_map] at this
    have hlength := hsentMarks.length_le
    rw [List.length_map] at hlength
    have hflag : (l.marks i.command.input.instructionId)[(l.starts i.command.input.instructionId).length]? =
        some (last && decide (n - 1 = 0)) := by
      by_cases hone : n - 1 = 0
      · have hat : (l.starts i.command.input.instructionId).length =
            (l.commands i.command.input.instructionId).length - 1 := by omega
        rw [decide_eq_true hone, Bool.and_true, hlast]
        have hget := List.prefix_iff_getElem?.mp hsentMarks (l.starts i.command.input.instructionId).length
          (by rw [List.length_map]; omega)
        rw [hget, List.getElem_map]
        rw [List.getLast?_eq_getElem?] at hc
        have hc := (List.getElem?_eq_some_iff.mp hc).2
        rw [← hc]
        simp only [hat]
      · have hlt : (l.starts i.command.input.instructionId).length < (l.marks i.command.input.instructionId).dropLast.length := by
          rw [List.length_dropLast]
          omega
        have hmem := List.getElem_mem hlt
        have hfalse := hgood.marks _ hmem
        rw [decide_eq_false hone, Bool.and_false, ← hfalse, List.getElem_dropLast]
        exact List.getElem?_eq_getElem _
    obtain ⟨r, hr'⟩ := hprefix
    rw [← hr'] at hflag ⊢
    rw [List.getElem?_append_right (by rw [List.length_map]), List.length_map, Nat.sub_self] at hflag
    cases r with
    | nil => cases hflag
    | cons b r =>
      obtain rfl := Option.some.inj hflag
      rw [List.prefix_append_right_inj]
      exact ⟨r, rfl⟩
  · rw [if_neg hid, List.append_nil]
    exact hprefix

/-! ## Steps -/

structure Inv (l : WriteLog) (s : BiuWriteCommands) : Prop where
  tags : s.Tags
  tracked : s.Tracked
  flow : Flow l s
  counted : ∀ id, Counted l s id
  ended : ∀ id, Ended l id

/-- Clocks and weights do not matter. -/
theorem Inv.clocked (h : Inv l s) (weights : BiuSubcore → Int32) (observed advanced : Option Nat) :
    Inv l { s with weights, observed, advanced } where
  tags := ⟨h.tags.once, h.tags.own⟩
  tracked := ⟨h.tracked.order, h.tracked.transport, h.tracked.distinct⟩
  flow := ⟨h.flow.cores, h.flow.splits, h.flow.pieces⟩
  counted id := (h.counted id).congr rfl rfl rfl rfl
  ended := h.ended

theorem Inv.push (h : Inv l s) (ready : Nat) :
    Inv { l with pushed := l.pushed ++ [input] }
      { s with inputs := Function.update s.inputs input.subcore (s.inputs input.subcore ++ [(ready, input)]) } where
  tags := ⟨h.tags.once, h.tags.own⟩
  tracked := ⟨h.tracked.order, h.tracked.transport, h.tracked.distinct⟩
  flow := h.flow.push ready
  counted id := (h.counted id).congr rfl rfl rfl rfl
  ended id := (h.ended id).push

theorem push_keeps (h : Inv l s) (tick : Nat) (input : BiuWriteInput) :
    (∃ e, push tick input s = (Outcome.fail e, s)) ∨ push tick input s = (.ok false, s) ∨
      ∃ s', push tick input s = (.ok true, s') ∧ Inv { l with pushed := l.pushed ++ [input] } s' := by
  unfold push
  split
  · exact .inl ⟨_, rfl⟩
  · split
    · exact .inl ⟨_, rfl⟩
    · split
      · exact .inr (.inl rfl)
      · split
        · exact .inl ⟨_, rfl⟩
        · rename_i ready _
          exact .inr (.inr ⟨_, rfl, (h.push ready).clocked s.weights (some tick) s.advanced⟩)

theorem selectCore_eligible {eligible : BiuSubcore → Bool} {weights : BiuSubcore → Int32}
    (h : selectCore eligible weights = some core) : eligible core = true := by
  suffices ∀ (l : List BiuSubcore) (b : Int32 × Option BiuSubcore), (∀ c, b.2 = some c → eligible c = true) →
      ∀ c, (l.foldl (fun h core => if eligible core && decide (h.1 < weights core) then (weights core, some core) else h)
        b).2 = some c → eligible c = true from
    this cores (Int32.minValue, none) (fun _ hc => by cases hc) core h
  intro l
  induction l with
  | nil => exact fun _ hb => hb
  | cons c l ih =>
    intro b hb
    rw [List.foldl_cons]
    refine ih _ fun c' hc' => ?_
    split at hc'
    · rename_i hc
      cases hc'
      exact (Bool.and_eq_true_iff.mp hc).1
    · exact hb c' hc'

/-- An eligible core has an input. -/
theorem acceptInput_keeps (h : Inv l s) (tick next : Nat) : ∃ a s', acceptInput tick next s = (.ok a, s') ∧ Inv l s' := by
  unfold acceptInput
  split
  · exact ⟨_, s, rfl, h⟩
  · split
    · exact ⟨_, s, rfl, h⟩
    · rename_i core hcore
      have heligible := selectCore_eligible hcore
      unfold eligible at heligible
      cases hinputs : s.inputs core with
      | nil =>
        rw [hinputs] at heligible
        cases heligible
      | cons head queue =>
        obtain ⟨ready, input⟩ := head
        have hkept (more : List Split)
            (hmore : input.bytes = 0 ∧ more = [] ∨ input.bytes ≠ 0 ∧ more = [⟨next, input, 0⟩]) :
            Inv l { s with inputs := Function.update s.inputs core queue, splits := s.splits ++ more } :=
          { tags := ⟨h.tags.once, h.tags.own⟩
            tracked := ⟨h.tracked.order, h.tracked.transport, h.tracked.distinct⟩
            flow := h.flow.accept hinputs hmore
            counted := fun id => (h.counted id).congr rfl rfl rfl rfl
            ended := h.ended }
        dsimp only
        by_cases hzero : input.bytes = 0
        · rw [if_pos hzero]
          refine ⟨_, _, rfl, ?_⟩
          have hempty := (hkept [] (.inl ⟨hzero, rfl⟩)).clocked (s.reweighted (s.eligible tick) core) s.observed s.advanced
          rwa [List.append_nil] at hempty
        · rw [if_neg hzero]
          exact ⟨_, _, rfl, (hkept _ (.inr ⟨hzero, rfl⟩)).clocked (s.reweighted (s.eligible tick) core) s.observed s.advanced⟩

theorem reserve_same (s : BiuWriteCommands) :
    s.reserve.splits = s.splits ∧ s.reserve.issued = s.issued ∧
      s.reserve = { s with reserved := s.reserve.reserved, free := s.reserve.free, nextFresh := s.reserve.nextFresh } := by
  unfold reserve
  split
  · exact ⟨rfl, rfl, rfl⟩
  · split <;> exact ⟨rfl, rfl, rfl⟩

theorem Inv.reserve (h : Inv l s) : Inv l s.reserve := by
  have htags := h.tags.reserve
  rw [(reserve_same s).2.2] at htags ⊢
  exact
    { tags := htags
      tracked := ⟨h.tracked.order, h.tracked.transport, h.tracked.distinct⟩
      flow := ⟨h.flow.cores, h.flow.splits, h.flow.pieces⟩
      counted := fun id => (h.counted id).congr rfl rfl rfl rfl
      ended := h.ended }

/-- A split has a piece. -/
theorem issue_keeps (h : Inv l s) (tick next : Nat) :
    ∃ r s', issue tick next s = (.ok r, s') ∧ Inv { l with sent := l.sent ++ r.1.toList } s' := by
  have hsame : Inv { l with sent := l.sent ++ (none : Option BiuWriteCommand).toList } s := by
    rw [Option.toList_none, List.append_nil]
    exact h
  have hreserved : Inv { l with sent := l.sent ++ (none : Option BiuWriteCommand).toList } s.reserve := hsame.reserve
  unfold issue
  cases hsplits : s.splits with
  | nil => exact ⟨_, _, rfl, hsame⟩
  | cons head splits =>
    dsimp only
    split
    · exact ⟨_, _, rfl, hsame⟩
    · cases htag : s.reserve.reserved with
      | none => exact ⟨_, _, rfl, hreserved⟩
      | some tag =>
        dsimp only
        split
        · exact ⟨_, _, rfl, hreserved⟩
        · have hr := h.reserve
          have hsplits : s.reserve.splits = head :: splits := (reserve_same s).1.trans hsplits
          obtain ⟨-, hleft⟩ := hr.flow.splits head (by rw [hsplits]; exact List.mem_cons_self)
          cases hnext : head.next with
          | none =>
            rw [Split.next_some hleft] at hnext
            cases hnext
          | some piece =>
            obtain ⟨piece, rest⟩ := piece
            have hnone := hr.tags.not_issued htag
            have htags := @Tags.send _ _ next hr.tags htag piece (if rest.next.isNone then splits else rest :: splits)
            exact ⟨_, _, rfl,
              { tags := htags
                tracked := hr.tracked.send hnone piece _
                flow := hr.flow.send hsplits hnext
                counted := fun id => (hr.counted id).send hnone htags
                ended := fun id hgood => hr.ended id ⟨hgood.core, hgood.marks⟩ }⟩

theorem advance_keeps (h : Inv l s) (tick : Nat) :
    (∃ e, advance tick s = (Outcome.fail e, s)) ∨
      ∃ cycle s', advance tick s = (.ok cycle, s') ∧ Inv { l with sent := l.sent ++ cycle.sent.toList } s' := by
  unfold advance
  split
  · exact .inl ⟨_, rfl⟩
  · split
    · exact .inl ⟨_, rfl⟩
    · split
      · exact .inl ⟨_, rfl⟩
      · rename_i next _
        obtain ⟨a, s₁, haccept, h₁⟩ := acceptInput_keeps h tick next
        obtain ⟨i, s₂, hissue, h₂⟩ := issue_keeps h₁ tick next
        refine .inr ⟨⟨tick, s.eligible tick, a.1, s.splitBlocked, a.2, i.1, i.2⟩, _, ?_,
          h₂.clocked s₂.weights (some tick) (some tick)⟩
        unfold Call.bind
        rw [haccept]
        dsimp only
        rw [hissue]

/-- A command in the transport was issued. -/
theorem takeRequest_keeps (h : Inv l s) (tick : Nat) :
    (∃ e, takeRequest tick s = (Outcome.fail e, s)) ∨ ∃ r s', takeRequest tick s = (.ok r, s') ∧ Inv l s' := by
  unfold takeRequest
  split
  · exact .inl ⟨_, rfl⟩
  · split
    · exact .inr ⟨_, _, rfl, h.clocked s.weights (some tick) s.advanced⟩
    · rename_i request transport hpop
      obtain ⟨htransport, -⟩ := popFrontIf_eq_some.mp hpop
      obtain ⟨i, hi, -⟩ := h.tracked.transport request (by rw [htransport]; exact List.mem_cons_self)
      rw [hi]
      have hkept : Inv l { s with transport, issued := s.issued.insert request.command.tag { i with delivered := true } } :=
        { tags := h.tags.replace rfl hi rfl rfl
          tracked := h.tracked.deliver htransport hi
          flow := ⟨h.flow.cores, h.flow.splits, h.flow.pieces⟩
          counted := fun id => (h.counted id).congr rfl rfl (unstarted_insert rfl hi rfl rfl) rfl
          ended := h.ended }
      exact .inr ⟨_, _, rfl, hkept.clocked s.weights (some tick) s.advanced⟩

theorem markDbid_keeps (h : Inv l s) (horder : inOrder (.markDbid tag) s = true) :
    ∃ s', markDbid tag s = (.ok (), s') ∧ Inv l s' := by
  obtain ⟨i, hi, hd⟩ := (Option.any_eq_true _ _).mp horder
  unfold markDbid
  rw [hi]
  refine ⟨_, rfl, ?_⟩
  exact
    { tags := h.tags.replace rfl hi rfl rfl
      tracked := h.tracked.delivered hi hd rfl
        (fun j hj => by
          obtain rfl := Option.some.inj (OrdMap.get?_insert_self.symm.trans hj)
          exact ⟨fun _ => rfl, fun _ => hd⟩)
        fun _ hne => OrdMap.get?_insert_ne hne
      flow := ⟨h.flow.cores, h.flow.splits, h.flow.pieces⟩
      counted := fun id => (h.counted id).congr rfl rfl (unstarted_insert rfl hi rfl rfl) rfl
      ended := h.ended }

/-- An instruction whose sources have not all started has a retirement record. -/
theorem beginSource_keeps (h : Inv l s) (horder : inOrder (.beginSource tag) s = true) :
    ∃ r s', beginSource tag s = (.ok r, s') ∧ Inv { l with started := l.started ++ [r] } s' := by
  obtain ⟨i, hi, hready⟩ := (Option.any_eq_true _ _).mp horder
  obtain ⟨hd, hs⟩ := Bool.and_eq_true_iff.mp hready
  have hs : i.sourceStarted = false := by simpa using hs
  obtain ⟨n, last, hr, hpos⟩ := (h.counted _).recorded hi hs
  refine ⟨_, _, beginSource_eq hi hd hs hr, ?_⟩
  exact
    { tags := h.tags.replace rfl hi rfl rfl
      tracked := h.tracked.delivered hi ((h.tracked.order tag i hi).2 hd) rfl
        (fun j hj => by
          obtain rfl := Option.some.inj (OrdMap.get?_insert_self.symm.trans hj)
          exact ⟨fun _ => hd, (h.tracked.order tag i hi).2⟩)
        fun _ hne => OrdMap.get?_insert_ne hne
      flow := ⟨h.flow.cores, h.flow.splits, h.flow.pieces⟩
      counted := fun id => (h.counted id).begin hi hs hr
      ended := fun id => (h.ended id).begin h.flow (h.counted _) hr hpos }

theorem releaseTag_keeps (h : Inv l s) (horder : inOrder (.releaseTag tag) s = true) :
    (∃ e, releaseTag tag s = (Outcome.fail e, s)) ∨ ∃ c s', releaseTag tag s = (.ok c, s') ∧ Inv l s' := by
  unfold releaseTag
  cases hi : s.issued.get? tag with
  | none => exact .inl ⟨_, rfl⟩
  | some i =>
    have hs : i.sourceStarted = true := by
      have horder : (s.issued.get? tag).all (·.sourceStarted) = true := horder
      rw [hi] at horder
      exact horder
    have horders := h.tracked.order tag i hi
    refine .inr ⟨_, _, rfl, ?_⟩
    exact
      { tags := h.tags.release hi
        tracked := h.tracked.delivered hi (horders.2 (horders.1 hs)) rfl
          (fun j hj => by cases OrdMap.get?_erase_self.symm.trans hj)
          fun _ hne => OrdMap.get?_erase_ne hne
        flow := ⟨h.flow.cores, h.flow.splits, h.flow.pieces⟩
        counted := fun id => (h.counted id).congr rfl rfl (unstarted_erase hi hs rfl) rfl
        ended := h.ended }

end BiuWriteCommands

/-! ## Runs -/

section Runs

open BiuWriteCommands

abbrev BiuWriteEvent := BiuWriteCall × Outcome BiuWriteCommandError BiuWriteReply

def BiuWriteEvent.pushed : BiuWriteEvent → Option BiuWriteInput
  | (.push _ input, .ok (.pushed true)) => some input
  | _ => none

def BiuWriteEvent.sent : BiuWriteEvent → Option BiuWriteCommand
  | (_, .ok (.cycle cycle)) => cycle.sent
  | _ => none

def BiuWriteEvent.started : BiuWriteEvent → Option BiuWriteSourceRequest
  | (_, .ok (.started request)) => some request
  | _ => none

/-- What was done, after a call. -/
def WriteLog.after (l : WriteLog) (x : BiuWriteEvent) : WriteLog where
  pushed := l.pushed ++ x.pushed.toList
  sent := l.sent ++ x.sent.toList
  started := l.started ++ x.started.toList

/-- What a run did, by what its calls returned. -/
def WriteLog.of (t : List BiuWriteEvent) : WriteLog := t.foldl WriteLog.after ⟨[], [], []⟩

variable {config : BiuWriteConfig} {t : List BiuWriteEvent} {s s' : BiuWriteCommands} {l : WriteLog}

theorem WriteLog.of_snoc (x : BiuWriteEvent) : WriteLog.of (t ++ [x]) = (WriteLog.of t).after x := by simp [WriteLog.of]

theorem WriteLog.after_nothing {x : BiuWriteEvent} (hp : x.pushed = none) (hs : x.sent = none) (hb : x.started = none) :
    l.after x = l := by
  unfold WriteLog.after
  rw [hp, hs, hb]
  simp

/-- A call in order does not panic, and keeps the invariant. -/
theorem exec_keeps (h : Inv l s) (c : BiuWriteCall) (horder : inOrder c s = true) :
    (exec c s).1 ≠ .error .panicked ∧ Inv (l.after (c, (exec c s).1)) (exec c s).2 := by
  have hrejected (e : BiuWriteCommandError) (he : exec c s = (Outcome.fail e, s)) :
      (exec c s).1 ≠ .error .panicked ∧ Inv (l.after (c, (exec c s).1)) (exec c s).2 := by
    rw [he, WriteLog.after_nothing (by cases c <;> rfl) rfl rfl]
    exact ⟨nofun, h⟩
  have hquiet (r : BiuWriteReply) (s' : BiuWriteCommands) (hr : exec c s = (.ok r, s')) (hs : Inv l s')
      (hp : BiuWriteEvent.pushed (c, .ok r) = none) (hsent : BiuWriteEvent.sent (c, .ok r) = none)
      (hb : BiuWriteEvent.started (c, .ok r) = none) :
      (exec c s).1 ≠ .error .panicked ∧ Inv (l.after (c, (exec c s).1)) (exec c s).2 := by
    rw [hr, WriteLog.after_nothing hp hsent hb]
    exact ⟨nofun, hs⟩
  cases c with
  | push tick input =>
    rcases push_keeps h tick input with ⟨e, he⟩ | hfalse | ⟨s', hok, hs'⟩
    · exact hrejected e (congrArg (reply BiuWriteReply.pushed) he)
    · exact hquiet (.pushed false) s (congrArg (reply BiuWriteReply.pushed) hfalse) h rfl rfl rfl
    · have hexec : exec (.push tick input) s = (.ok (.pushed true), s') := congrArg (reply BiuWriteReply.pushed) hok
      rw [hexec]
      refine ⟨nofun, ?_⟩
      unfold WriteLog.after
      simpa [BiuWriteEvent.pushed, BiuWriteEvent.sent, BiuWriteEvent.started] using hs'
  | advance tick =>
    rcases advance_keeps h tick with ⟨e, he⟩ | ⟨cycle, s', hok, hs'⟩
    · exact hrejected e (congrArg (reply BiuWriteReply.cycle) he)
    · have hexec : exec (.advance tick) s = (.ok (.cycle cycle), s') := congrArg (reply BiuWriteReply.cycle) hok
      rw [hexec]
      refine ⟨nofun, ?_⟩
      unfold WriteLog.after
      simpa [BiuWriteEvent.pushed, BiuWriteEvent.sent, BiuWriteEvent.started] using hs'
  | takeRequest tick =>
    rcases takeRequest_keeps h tick with ⟨e, he⟩ | ⟨r, s', hok, hs'⟩
    · exact hrejected e (congrArg (reply BiuWriteReply.request) he)
    · exact hquiet (.request r) s' (congrArg (reply BiuWriteReply.request) hok) hs' rfl rfl rfl
  | markDbid tag =>
    obtain ⟨s', hok, hs'⟩ := markDbid_keeps h horder
    exact hquiet .marked s' (congrArg (reply fun _ => BiuWriteReply.marked) hok) hs' rfl rfl rfl
  | beginSource tag =>
    obtain ⟨r, s', hok, hs'⟩ := beginSource_keeps h horder
    have hexec : exec (.beginSource tag) s = (.ok (.started r), s') := congrArg (reply BiuWriteReply.started) hok
    rw [hexec]
    refine ⟨nofun, ?_⟩
    unfold WriteLog.after
    simpa [BiuWriteEvent.pushed, BiuWriteEvent.sent, BiuWriteEvent.started] using hs'
  | releaseTag tag =>
    rcases releaseTag_keeps h horder with ⟨e, he⟩ | ⟨c, s', hok, hs'⟩
    · exact hrejected e (congrArg (reply BiuWriteReply.released) he)
    · exact hquiet (.released c) s' (congrArg (reply BiuWriteReply.released) hok) hs' rfl rfl rfl

theorem inv_new (config : BiuWriteConfig) : Inv ⟨[], [], []⟩ (.new config) where
  tags := by
    refine ⟨fun tag => ?_, fun _ _ hi => absurd hi.symm (Option.some_ne_none _)⟩
    show tally (new config).outstanding 1 [] none false tag = _
    simp [tally]
  tracked := ⟨fun _ _ hi => absurd hi.symm (Option.some_ne_none _), fun x hx => absurd hx List.not_mem_nil,
    List.nodup_nil⟩
  flow := ⟨fun _ x hx => absurd hx List.not_mem_nil, fun x hx => absurd hx List.not_mem_nil, fun _ => rfl⟩
  counted id := ⟨rfl, fun _ => ⟨rfl, fun _ hc => by cases hc⟩, fun _ _ hr => by cases hr⟩
  ended _ _ := List.nil_prefix

theorem run_inv (h : Run (callsWhen (fun c s => inOrder c s = true) exec) (.new config) t s) : Inv (WriteLog.of t) s := by
  refine h.inv (I := fun t s => Inv (WriteLog.of t) s) (inv_new config) ?_
  rintro t s ⟨c, r⟩ s' hinv ⟨horder, hcall⟩
  have hcall : exec c s = (r, s') := hcall
  have hkept := (exec_keeps hinv c horder).2
  rw [hcall] at hkept
  rw [WriteLog.of_snoc]
  exact hkept

/-- An idle unit has forgotten its whole instructions. -/
theorem idle_of_inv {l : WriteLog} (h : Inv l s) (hwhole : ∀ i ∈ l.pushed, Whole (l.inputs i.instructionId))
    (hinputs : ∀ core, s.inputs core = []) (hsplits : s.splits = []) (hissued : s.issued.isEmpty = true) :
    s.isIdle = true := by
  have hretirement : s.retirement.isEmpty = true := by
    refine OrdMap.isEmpty_iff.mpr fun id => ?_
    cases hr : s.retirement.get? id with
    | none => rfl
    | some count =>
      exfalso
      obtain ⟨hn, ⟨c, hc, hlast⟩, hzero⟩ := (h.counted id).present count.1 count.2 hr
      have hnone : s.unstarted id = 0 :=
        OrdMap.sum_eq_zero _ fun tag i hi => by rw [OrdMap.isEmpty_iff.mp hissued tag] at hi; cases hi
      have hfalse := hzero (hn.trans hnone)
      obtain ⟨i, hi, -⟩ := h.flow.sent_input (List.mem_of_getLast? hc)
      have hiid : i.instructionId = id := of_decide_eq_true (List.mem_filter.mp hi).2
      have hw : Whole (l.inputs id) := hiid ▸ hwhole i (List.mem_filter.mp hi).1
      -- All its pieces were sent, the last of them too.
      have hall := h.flow.instruction fun j hj => hw.core j hj i hi
      have hwaiting : s.waiting i.subcore = [] := by
        unfold waiting
        rw [hsplits, hinputs]
        rfl
      rw [hwaiting, List.filter_nil, List.append_nil] at hall
      have htrue := WriteLog.last_ends hw hall hc
      rw [← hlast, hfalse] at htrue
      cases htrue
  unfold isIdle cores
  simp [hinputs, hsplits, hissued, hretirement]

/-- In every run, with the calls of a tag in order: a tag is in one place; the pieces of a core's inputs are sent in order
and once, and those of an input tile it; the sources of a whole instruction start with the one flag on the last start,
after which its record is gone; and without inputs, splits and commands the unit is idle. No call panics. -/
theorem biu_write_commands_exact (h : Run (callsWhen (fun c s => inOrder c s = true) exec) (.new config) t s) :
    (∀ tag, s.places tag = if 1 ≤ tag ∧ tag ≤ s.outstanding then 1 else 0) ∧
      (∀ tag i, s.issued.get? tag = some i → i.command.tag = tag) ∧
      (∀ core, (WriteLog.of t).sentOn core ++ s.waiting core = (WriteLog.of t).piecesOn core) ∧
      (∀ i ∈ (WriteLog.of t).pushed,
        Tiles (fun x => x.1.toNat) (fun x => x.2.bytes.toNat) 0 i.pieces i.bytes.toNat ∧
          ∀ x ∈ i.pieces, x.2 = i.piece x.1 x.2.bytes) ∧
      (∀ id, Whole ((WriteLog.of t).inputs id) →
        ((WriteLog.of t).starts id).length ≤ ((WriteLog.of t).pieces id).length ∧
          ((WriteLog.of t).starts id).map (·.lastInInstruction) =
            (List.replicate (((WriteLog.of t).pieces id).length - 1) false ++ [true]).take ((WriteLog.of t).starts id).length ∧
          (((WriteLog.of t).starts id).length = ((WriteLog.of t).pieces id).length → s.retirement.get? id = none)) ∧
      ((∀ i ∈ (WriteLog.of t).pushed, Whole ((WriteLog.of t).inputs i.instructionId)) → (∀ core, s.inputs core = []) →
        s.splits = [] → s.issued.isEmpty = true → s.isIdle = true) ∧
      ∀ c, inOrder c s = true → (exec c s).1 ≠ .error .panicked := by
  have hinv := run_inv h
  refine ⟨hinv.tags.once, hinv.tags.own, hinv.flow.pieces, fun i _ => i.pieces_tile, fun id hw => ?_,
    fun hw hi hs hissued => idle_of_inv hinv hw hi hs hissued, fun c horder => (exec_keeps hinv c horder).1⟩
  have hgood := WriteLog.good_of_whole hw
  have hprefix := hinv.ended id hgood
  rw [WriteLog.marks_of_whole hw] at hprefix
  have hsent := (hinv.flow.sent_prefix hgood.core).length_le
  rw [List.length_map] at hsent
  have hbalance := (hinv.counted id).balance
  refine ⟨by omega, ?_, fun hall => ?_⟩
  · have heq := List.prefix_iff_eq_take.mp hprefix
    rwa [List.length_map] at heq
  · cases hr : s.retirement.get? id with
    | none => rfl
    | some count =>
      exfalso
      obtain ⟨hn, ⟨c, hc, hlast⟩, hzero⟩ := (hinv.counted id).present count.1 count.2 hr
      have hfalse := hzero (by omega)
      have hsentAll := (hinv.flow.sent_prefix hgood.core).eq_of_length (by rw [List.length_map]; omega)
      have htrue := WriteLog.last_ends hw hsentAll hc
      rw [← hlast, hfalse] at htrue
      cases htrue

/-- 200 bytes, in pieces of 128 and 72. -/
def sampleInput (lastInBurst : Bool) : BiuWriteInput where
  subcore := .vector0
  generated := ⟨7, ⟨.ordinary, 0, 0, 200, lastInBurst⟩, ⟨0, 200, 200⟩, .fixed128, false, true⟩
  gatherStride := none
  storeToken := none

def sampleConfig : BiuWriteConfig := ⟨⟨2, by decide⟩, fun _ => 1⟩

/-- The DBID of the second piece comes first. -/
def sampleWriteCalls (lastInBurst : Bool) : List BiuWriteCall :=
  [.push 0 (sampleInput lastInBurst), .advance 3, .advance 4, .advance 5, .takeRequest 6, .takeRequest 6, .markDbid 2,
    .beginSource 2, .markDbid 1, .beginSource 1, .releaseTag 2, .releaseTag 1]

theorem sampleWriteCalls_allowed (lastInBurst : Bool) :
    Allowed (fun c s => inOrder c s = true) exec (.new sampleConfig) (sampleWriteCalls lastInBurst) := by
  cases lastInBurst <;> exact ⟨rfl, rfl, rfl, rfl, rfl, rfl, rfl, rfl, rfl, rfl, rfl, rfl, trivial⟩

theorem biu_write_commands_exact_sample :
    ((WriteLog.of (runCalls exec (.new sampleConfig) (sampleWriteCalls true)).1).starts 7).map (·.tag) = [2, 1] ∧
      ((WriteLog.of (runCalls exec (.new sampleConfig) (sampleWriteCalls true)).1).starts 7).map (·.lastInInstruction) =
        [false, true] ∧
      (runCalls exec (.new sampleConfig) (sampleWriteCalls true)).2.isIdle = true := by
  have h := biu_write_commands_exact (run_allowed exec (sampleWriteCalls_allowed true))
  have hinputs : (WriteLog.of (runCalls exec (.new sampleConfig) (sampleWriteCalls true)).1).inputs 7 = [sampleInput true] :=
    rfl
  have hwhole : Whole [sampleInput true] := ⟨by decide, by decide, by decide, by decide⟩
  refine ⟨by decide +kernel, (h.2.2.2.2.1 7 (by rw [hinputs]; exact hwhole)).2.1.trans (by decide +kernel), ?_⟩
  refine h.2.2.2.2.2.1 (fun i hi => ?_) (fun core => by cases core <;> rfl) rfl rfl
  have hpushed : (WriteLog.of (runCalls exec (.new sampleConfig) (sampleWriteCalls true)).1).pushed = [sampleInput true] :=
    rfl
  rw [hpushed] at hi
  obtain rfl := List.mem_singleton.mp hi
  exact hwhole

/-- Where the last input is not the last of its burst, no source ends the instruction. -/
theorem burst_not_ended :
    ¬ ∀ (config : BiuWriteConfig) (t : List BiuWriteEvent) (s : BiuWriteCommands),
      Run (callsWhen (fun c s => inOrder c s = true) exec) (.new config) t s →
      ∀ id, (∀ i ∈ (WriteLog.of t).inputs id, i.bytes ≠ 0) →
        (∀ i ∈ (WriteLog.of t).inputs id, ∀ j ∈ (WriteLog.of t).inputs id, i.subcore = j.subcore) →
        ((WriteLog.of t).inputs id).map (·.lastInInstruction) =
          List.replicate (((WriteLog.of t).inputs id).length - 1) false ++ [true] →
        ((WriteLog.of t).starts id).length = ((WriteLog.of t).pieces id).length →
        (((WriteLog.of t).starts id).filter (·.lastInInstruction)).length = 1 := by
  intro hclaim
  have h := hclaim sampleConfig _ _ (run_allowed exec (sampleWriteCalls_allowed false)) 7 (by decide +kernel)
    (by decide +kernel) (by decide +kernel) (by decide +kernel)
  revert h
  decide +kernel

end Runs

end AscendEmulator.C220.Mte
