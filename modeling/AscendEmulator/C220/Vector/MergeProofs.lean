/-
  AscendEmulator.C220.Vector.MergeProofs — what the merge of a planned issue writes.

  The loop of a repeat takes the records off the heads of its lists (`Interleaves`), and its writes lie one after the
  other from the destination on. Where the keys are in order (`SortOrder`) the winner of the heads is the least of them.
-/

import AscendEmulator.C220.Vector.Merge
import AscendEmulator.C220.Vector.SortOrder
import AscendEmulator.Lib.Interleave

namespace AscendEmulator.C220.Vector

open Lib Outcome AscendEmulator.Memory
open AscendEmulator.Isa (XRegs xregAt)

/-! ## The winner -/

section Winner

variable {width : SortWidth} {heads : List MergeRecord} {x : MergeRecord}

theorem mergeWinner_mem (h : mergeWinner width heads = some x) : x ∈ heads := by
  cases heads with
  | nil => cases h
  | cons first rest =>
    cases h
    induction rest generalizing first with
    | nil => exact List.mem_singleton_self _
    | cons right rest ih =>
      rw [List.foldl_cons]
      split
      · exact List.cons_subset_cons _ (List.subset_cons_self _ _) (ih first)
      · exact List.mem_cons_of_mem _ (ih right)

theorem mergeWinner_none : mergeWinner width heads = none ↔ heads = [] := by
  cases heads <;> simp [mergeWinner]

/-- Records by their value, the higher first, and then by their list. -/
def mergeKey (width : SortWidth) (r : MergeRecord) : (ℕ ×ₗ ℚ)ᵒᵈ ×ₗ ℕ :=
  toLex (OrderDual.toDual (width.key r.keyBits), r.sourceList.val)

theorem mergeRecordPrecedes_iff {values : Set UInt32} (hmix : ¬ width.Mixes values) {x y : MergeRecord}
    (hx : x.keyBits ∈ values ∧ width.Fits x.keyBits) (hy : y.keyBits ∈ values ∧ width.Fits y.keyBits) :
    mergeRecordPrecedes width x y = true ↔ mergeKey width x < mergeKey width y := by
  have hxy := precedes_iff hmix hx hy
  have hyx := precedes_iff hmix hy hx
  rw [mergeKey, mergeKey, Prod.Lex.toLex_lt_toLex, mergeRecordPrecedes]
  change _ ↔ width.key y.keyBits < width.key x.keyBits ∨ width.key x.keyBits = width.key y.keyBits ∧ _
  rcases lt_trichotomy (width.key x.keyBits) (width.key y.keyBits) with hlt | heq | hgt
  · rw [hyx.mpr hlt, Bool.eq_false_iff.mpr fun h => hlt.asymm (hxy.mp h)]
    simp [hlt.asymm, hlt.ne]
  · rw [Bool.eq_false_iff.mpr fun h => (hxy.mp h).ne' heq, Bool.eq_false_iff.mpr fun h => (hyx.mp h).ne heq]
    simp [heq]
  · rw [hxy.mpr hgt, Bool.eq_false_iff.mpr fun h => hgt.asymm (hyx.mp h)]
    simp [hgt]

/-- Where the comparison is that of the keys, the winner has the least. -/
theorem mergeWinner_least (ha : Introsort.Agrees (mergeRecordPrecedes width) (mergeKey width) heads)
    (h : mergeWinner width heads = some x) : ∀ y ∈ heads, mergeKey width x ≤ mergeKey width y := by
  cases heads with
  | nil => cases h
  | cons first rest =>
    cases h
    induction rest generalizing first with
    | nil =>
      intro y hy
      obtain rfl := List.mem_singleton.mp hy
      exact le_refl _
    | cons right rest ih =>
      intro y hy
      rw [List.foldl_cons]
      have hiff := ha first List.mem_cons_self right (by simp)
      split
      · rename_i hlt
        have hfirst := ih first (ha.mono (List.cons_subset_cons _ (List.subset_cons_self _ _)))
        rcases List.mem_cons.mp hy with rfl | hy
        · exact hfirst _ List.mem_cons_self
        · rcases List.mem_cons.mp hy with rfl | hy
          · exact (hfirst first List.mem_cons_self).trans (hiff.mp hlt).le
          · exact hfirst y (List.mem_cons_of_mem _ hy)
      · rename_i hge
        have hright := ih right (ha.mono (List.subset_cons_self _ _))
        rcases List.mem_cons.mp hy with rfl | hy
        · exact (hright right List.mem_cons_self).trans (not_lt.mp fun hlt => hge (hiff.mpr hlt))
        · exact hright y hy

end Winner

/-! ## The loop of a repeat -/

section Loop

variable {width : SortWidth} {exhausted : Bool} {destination fuel : Nat} {lists : MergeLists} {s : MergeState}
  {ub ub' : UbMemory} {x : MergeRecord} {consumed : Fin 4 → Nat}

/-- What is left of the lists. -/
def rest (lists : MergeLists) (consumed : Fin 4 → Nat) : MergeLists := fun list => (lists list).drop (consumed list)

def headsOf (lists : MergeLists) : List MergeRecord := (List.finRange 4).filterMap fun list => (lists list).head?

theorem mergeHeads_eq (lists : MergeLists) (consumed : Fin 4 → Nat) :
    mergeHeads lists consumed = headsOf (rest lists consumed) := by
  unfold mergeHeads headsOf rest
  simp only [List.head?_drop]

/-- The choice of a record: the winner of the heads. -/
def Chosen (width : SortWidth) (lists : MergeLists) (x : MergeRecord) : Prop :=
  mergeWinner width (headsOf lists) = some x

theorem mem_headsOf : x ∈ headsOf lists ↔ ∃ list, (lists list).head? = some x := by
  unfold headsOf
  rw [List.mem_filterMap]
  exact exists_congr fun list => and_iff_right (List.mem_finRange list)

/-- The lists as they are read: their records know their list and have eight bytes. -/
structure Loaded (lists : MergeLists) : Prop where
  tagged : ∀ list, ∀ r ∈ lists list, r.sourceList = list
  bytes : ∀ list, ∀ r ∈ lists list, r.bytes.length = recordBytes
  short : ∀ list, (lists list).length < 2 ^ 16

/-- The records not consumed yet. -/
def remaining (lists : MergeLists) (consumed : Fin 4 → Nat) : Nat := ∑ list, ((lists list).length - consumed list)

/-- The loop stands where it can go on: the writes to come are in range, and with exhausted suspension no list has come
    to its end. -/
structure Ready (exhausted : Bool) (destination : Nat) (lists : MergeLists) (s : MergeState) : Prop where
  consumed : ∀ list, s.consumed list ≤ (lists list).length
  transfer : recordBytes ≤ s.ub.maxTransferBytes
  inRange : destination + recordBytes * (s.recordsWritten + remaining lists s.consumed) < u64
  going : exhausted = true →
    (∀ list, lists list ≠ [] → s.consumed list < (lists list).length) ∧ ∃ list, lists list ≠ []

/-- The bytes of the records `out`, written one after the other from `address` on. -/
structure Written (width : SortWidth) (address : Nat) (out : List MergeRecord) (ub ub' : UbMemory) : Prop where
  own : ∀ i x, out[i]? = some x → ∀ j b, (writtenBytes width x)[j]? = some b →
    ub'.bytes.get? (address + recordBytes * i + j) = some (.known b)
  frame : ∀ a, a < address ∨ address + recordBytes * out.length ≤ a → ub'.bytes.get? a = ub.bytes.get? a
  dom : ub'.bytes.dom = ub.bytes.dom ∪ Finset.Ico address (address + recordBytes * out.length)
  tracked : ub'.maxTrackedBytes = ub.maxTrackedBytes
  transfer : ub'.maxTransferBytes = ub.maxTransferBytes

theorem Written.nil (address : Nat) : Written width address [] ub ub where
  own := fun i x h => by simp at h
  frame := fun _ _ => rfl
  dom := by simp
  tracked := rfl
  transfer := rfl

theorem writtenBytes_length (width : SortWidth) (h : x.bytes.length = recordBytes) :
    (writtenBytes width x).length = recordBytes := by
  cases width <;> simp [writtenBytes, h]

/-- A write goes before the writes after it. -/
theorem Written.cons {address : Nat} {out : List MergeRecord} {ub₁ : UbMemory} (hx : x.bytes.length = recordBytes)
    (hfirst : UbMemory.Writes ub address ((writtenBytes width x).map .known) ub₁)
    (h : Written width (address + recordBytes) out ub₁ ub') : Written width address (x :: out) ub ub' := by
  have hlen : ((writtenBytes width x).map MemoryByteState.known).length = recordBytes := by
    rw [List.length_map, writtenBytes_length width hx]
  have hcount : address + recordBytes * (x :: out).length = address + recordBytes + recordBytes * out.length := by
    rw [List.length_cons, Nat.mul_succ]
    omega
  exact {
    own := fun i y hy j b hb => by
      cases i with
      | zero =>
        cases hy
        have hj : j < recordBytes := by
          rw [← writtenBytes_length width hx]
          exact (List.getElem?_eq_some_iff.mp hb).1
        rw [Nat.mul_zero, Nat.add_zero, h.frame _ (.inl (by omega))]
        exact hfirst.own j _ (by rw [List.getElem?_map, hb]; rfl)
      | succ i =>
        have hown := h.own i y hy j b hb
        rw [← hown, Nat.mul_succ]
        congr 1
        omega
    frame := fun a ha => by
      rw [hcount] at ha
      rw [h.frame a (by omega), hfirst.frame a (by rw [hlen]; omega)]
    dom := by
      rw [h.dom, hfirst.dom, hlen, hcount, Finset.union_assoc,
        Finset.Ico_union_Ico_eq_Ico (by omega) (by omega)]
    tracked := h.tracked.trans hfirst.tracked
    transfer := h.transfer.trans hfirst.transfer }

/-- How the loop of a repeat ends, from `s` on, if it ends: with the records `out` taken and written. -/
structure Ended (width : SortWidth) (exhausted : Bool) (destination : Nat) (lists : MergeLists) (s : MergeState)
    (out : List MergeRecord) (done : MergeRepeatResult) (status : Option UInt64) (ub : UbMemory) : Prop where
  taken : Interleaves (·.sourceList) (Chosen width) (rest lists s.consumed) out (rest lists done.consumed)
  consumed : ∀ list, done.consumed list ≤ (lists list).length
  count : done.recordsWritten = s.recordsWritten + out.length
  written : Written width (destination + recordBytes * s.recordsWritten) out s.ub ub
  complete : exhausted = false → (∀ list, done.consumed list = (lists list).length) ∧ status = none
  suspended : exhausted = true → status = some (packStatus done.consumed) ∧
    ∃ last, out.getLast? = some last ∧ done.consumed last.sourceList = (lists last.sourceList).length ∧
      ∀ list, list ≠ last.sourceList → lists list ≠ [] → done.consumed list < (lists list).length

/-- The head that wins is the next record of its list. -/
theorem winner_next (hl : Loaded lists) (h : mergeWinner width (mergeHeads lists consumed) = some x) :
    (lists x.sourceList)[consumed x.sourceList]? = some x := by
  rw [mergeHeads_eq] at h
  obtain ⟨list, hlist⟩ := mem_headsOf.mp (mergeWinner_mem h)
  rw [rest, List.head?_drop] at hlist
  obtain rfl := hl.tagged list x (List.mem_of_getElem? hlist)
  exact hlist

theorem rest_update (hx : (lists x.sourceList)[consumed x.sourceList]? = some x) :
    rest lists consumed x.sourceList =
        x :: (lists x.sourceList).drop (consumed x.sourceList + 1) ∧
      rest lists (Function.update consumed x.sourceList (consumed x.sourceList + 1)) =
        Function.update (rest lists consumed) x.sourceList
          ((lists x.sourceList).drop (consumed x.sourceList + 1)) := by
  obtain ⟨hlt, hget⟩ := List.getElem?_eq_some_iff.mp hx
  refine ⟨?_, funext fun list => ?_⟩
  · rw [rest, List.drop_eq_getElem_cons hlt, hget]
  · by_cases hlist : list = x.sourceList
    · subst hlist
      rw [rest, Function.update_self, Function.update_self]
    · rw [rest, Function.update_of_ne hlist, Function.update_of_ne hlist, rest]

theorem remaining_update (consumed : Fin 4 → Nat) {list : Fin 4} (h : consumed list < (lists list).length) :
    remaining lists (Function.update consumed list (consumed list + 1)) + 1 = remaining lists consumed := by
  unfold remaining
  rw [← Finset.add_sum_erase _ _ (Finset.mem_univ list), ← Finset.add_sum_erase Finset.univ
    (fun l => (lists l).length - consumed l) (Finset.mem_univ list)]
  have hrest : ∑ l ∈ Finset.univ.erase list,
      ((lists l).length - Function.update consumed list (consumed list + 1) l) =
        ∑ l ∈ Finset.univ.erase list, ((lists l).length - consumed l) := by
    refine Finset.sum_congr rfl fun l hl => ?_
    rw [Function.update_of_ne (Finset.ne_of_mem_erase hl)]
  rw [hrest, Function.update_self]
  omega

/-- No head is left exactly where every list is consumed. -/
theorem no_winner (hc : ∀ list, consumed list ≤ (lists list).length)
    (h : mergeWinner width (mergeHeads lists consumed) = none) : ∀ list, consumed list = (lists list).length := by
  intro list
  have hnone := List.filterMap_eq_nil_iff.mp (mergeWinner_none.mp h) list (List.mem_finRange list)
  have hle := List.getElem?_eq_none_iff.mp hnone
  exact Nat.le_antisymm (hc list) hle

/-- A turn of the loop takes a record: what it writes, and where it stands after that. -/
theorem ready_next (width : SortWidth) (hl : Loaded lists) (hr : Ready exhausted destination lists s)
    (hx : (lists x.sourceList)[s.consumed x.sourceList]? = some x) :
    (checkedAdd destination (s.recordsWritten * recordBytes) = some (destination + recordBytes * s.recordsWritten)) ∧
      (((writtenBytes width x).map MemoryByteState.known).length ≤ s.ub.maxTransferBytes ∧
        destination + recordBytes * s.recordsWritten +
          ((writtenBytes width x).map MemoryByteState.known).length < u64) ∧
      consume s.consumed x.sourceList =
        .ok (Function.update s.consumed x.sourceList (s.consumed x.sourceList + 1)) := by
  obtain ⟨hlt, hget⟩ := List.getElem?_eq_some_iff.mp hx
  have hbytes := hl.bytes x.sourceList x (List.mem_of_getElem? hx)
  have hstep := remaining_update s.consumed hlt
  have hrange := hr.inRange
  have hshort := hl.short x.sourceList
  rw [← hstep] at hrange
  rw [List.length_map, writtenBytes_length width hbytes]
  refine ⟨checkedAdd_eq_some.mpr ⟨?_, by rw [Nat.mul_comm]⟩, ⟨hr.transfer, ?_⟩, ?_⟩
  · unfold recordBytes at *
    omega
  · unfold recordBytes at *
    omega
  · unfold consume
    rw [if_pos (by omega)]
    rfl

/-- The bytes from `address` to `stop` and those tracked already are more than the limit. -/
def Crowded (ub : UbMemory) (address stop : Nat) : Prop :=
  ub.maxTrackedBytes < (ub.bytes.dom ∪ Finset.Ico address stop).card

theorem Crowded.mono {address stop stop' : Nat} (h : Crowded ub address stop) (hle : stop ≤ stop') :
    Crowded ub address stop' :=
  h.trans_le (Finset.card_le_card (Finset.union_subset_union_right (Finset.Ico_subset_Ico_right hle)))

/-- The loop of a repeat ends, or a write in it finds no room. -/
theorem mergeLoop_ends (width : SortWidth) (hl : Loaded lists) (hr : Ready exhausted destination lists s)
    (hfuel : remaining lists s.consumed < fuel) :
    (∀ done status ub', mergeLoop width exhausted destination lists fuel s = (.ok (done, status), ub') →
      ∃ out, Ended width exhausted destination lists s out done status ub') ∧
    ∀ e ub', mergeLoop width exhausted destination lists fuel s = (.error e, ub') →
      e = .returned (.ub (.trackedLimitExceeded s.ub.maxTrackedBytes)) ∧
        Crowded s.ub (destination + recordBytes * s.recordsWritten)
          (destination + recordBytes * (s.recordsWritten + remaining lists s.consumed)) := by
  induction fuel generalizing s with
  | zero => exact absurd hfuel (Nat.not_lt_zero _)
  | succ fuel ih =>
    unfold mergeLoop
    cases hwin : mergeWinner width (mergeHeads lists s.consumed) with
    | none =>
      have hall := no_winner hr.consumed hwin
      refine ⟨fun done status ub' h => ?_, fun e ub' h => (by cases h)⟩
      cases h
      refine ⟨[], .nil _, hr.consumed, rfl, Written.nil _, fun _ => ⟨hall, rfl⟩, fun hsusp => ?_⟩
      obtain ⟨hopen, list, hne⟩ := hr.going hsusp
      exact absurd (hall list) (hopen list hne).ne
    | some x =>
      have hx := winner_next hl hwin
      obtain ⟨hlt, -⟩ := List.getElem?_eq_some_iff.mp hx
      obtain ⟨haddress, hcheck, hconsume⟩ := ready_next width hl hr hx
      obtain ⟨hhead, hrest⟩ := rest_update hx
      have hbytes := hl.bytes x.sourceList x (List.mem_of_getElem? hx)
      have hstep := remaining_update s.consumed hlt
      have hlen : ((writtenBytes width x).map MemoryByteState.known).length = recordBytes := by
        rw [List.length_map, writtenBytes_length width hbytes]
      have hchosen : Chosen width (rest lists s.consumed) x := by rwa [Chosen, ← mergeHeads_eq]
      have hwrite : writeRecord width destination s x =
          mapErr .ub (s.ub.writeStates (destination + recordBytes * s.recordsWritten)
            ((writtenBytes width x).map .known)) := by
        unfold writeRecord
        rw [haddress]
        rfl
      simp only [hwrite, hconsume]
      cases hub : s.ub.writeStates (destination + recordBytes * s.recordsWritten)
        ((writtenBytes width x).map .known) with
      | error e =>
        refine ⟨fun done status ub' h => (by cases e <;> cases h), fun e' ub' h => ?_⟩
        obtain ⟨rfl, hcard⟩ := UbMemory.writeStates_error hcheck hub
        cases h
        have hcrowded : Crowded s.ub (destination + recordBytes * s.recordsWritten)
            (destination + recordBytes * s.recordsWritten + recordBytes) := by rwa [hlen] at hcard
        refine ⟨rfl, hcrowded.mono ?_⟩
        · rw [← hstep, ← Nat.add_assoc, Nat.mul_succ]
          have := Nat.mul_le_mul_left recordBytes (Nat.le_add_right s.recordsWritten
            (remaining lists (Function.update s.consumed x.sourceList (s.consumed x.sourceList + 1))))
          omega
      | ok ub₁ =>
        have hwrites := UbMemory.writeStates_ok hub
        have hnext : destination + recordBytes * (s.recordsWritten + 1) =
            destination + recordBytes * s.recordsWritten + recordBytes := by
          rw [Nat.mul_succ]
          omega
        have hle (list : Fin 4) : Function.update s.consumed x.sourceList (s.consumed x.sourceList + 1) list ≤
            (lists list).length := by
          by_cases hlist : list = x.sourceList
          · subst hlist
            rw [Function.update_self]
            exact hlt
          · rw [Function.update_of_ne hlist]
            exact hr.consumed list
        simp only [mapErr]
        split
        · rename_i hstop
          rw [Bool.and_eq_true, beq_iff_eq] at hstop
          refine ⟨fun done status ub' h => ?_, fun e ub' h => (by cases h)⟩
          cases h
          refine ⟨[x], ?_, hle, rfl, ?_, fun hno => ?_, fun _ => ⟨rfl, x, rfl, hstop.2, fun list hne hlist => ?_⟩⟩
          · refine .cons hchosen hhead ?_
            rw [← hrest]
            exact .nil _
          · exact Written.cons hbytes hwrites (Written.nil _)
          · rw [hno] at hstop
            cases hstop.1
          · change Function.update s.consumed x.sourceList (s.consumed x.sourceList + 1) list < _
            rw [Function.update_of_ne hne]
            exact (hr.going hstop.1).1 list hlist
        · rename_i hgo
          have hr' : Ready exhausted destination lists
              ⟨Function.update s.consumed x.sourceList (s.consumed x.sourceList + 1), s.recordsWritten + 1, ub₁⟩ :=
            { consumed := hle
              transfer := by rw [hwrites.transfer]; exact hr.transfer
              inRange := by
                have hrange := hr.inRange
                rw [← hstep] at hrange
                change destination + recordBytes * (s.recordsWritten + 1 + _) < u64
                rwa [Nat.add_right_comm]
              going := fun hsusp => by
                obtain ⟨hopen, hsome⟩ := hr.going hsusp
                refine ⟨fun list hne => ?_, hsome⟩
                by_cases hlist : list = x.sourceList
                · subst hlist
                  refine Nat.lt_of_le_of_ne (hle _) fun heq => hgo ?_
                  rw [hsusp, Bool.true_and, beq_iff_eq]
                  exact heq
                · change Function.update s.consumed x.sourceList (s.consumed x.sourceList + 1) list < _
                  rw [Function.update_of_ne hlist]
                  exact hopen list hne }
          obtain ⟨hok, herror⟩ := ih hr' (by
            change remaining lists (Function.update s.consumed x.sourceList (s.consumed x.sourceList + 1)) < fuel
            omega)
          refine ⟨fun done status ub' h => ?_, fun e ub' h => ?_⟩
          · obtain ⟨out, hended⟩ := hok done status ub' h
            refine ⟨x :: out, ?_, hended.consumed, ?_, ?_, hended.complete, fun hsusp => ?_⟩
            · exact .cons hchosen hhead (hrest ▸ hended.taken)
            · rw [hended.count, List.length_cons]
              change s.recordsWritten + 1 + _ = _
              omega
            · have hwritten := hended.written
              change Written width (destination + recordBytes * (s.recordsWritten + 1)) out ub₁ ub' at hwritten
              rw [hnext] at hwritten
              exact Written.cons hbytes hwrites hwritten
            · obtain ⟨hstatus, last, hlast, hrestful⟩ := hended.suspended hsusp
              refine ⟨hstatus, last, ?_, hrestful⟩
              rw [List.getLast?_cons, hlast]
              rfl
          · obtain ⟨rfl, hcrowded⟩ := herror e ub' h
            refine ⟨by rw [hwrites.tracked], ?_⟩
            unfold Crowded at hcrowded ⊢
            change ub₁.maxTrackedBytes < (ub₁.bytes.dom ∪ Finset.Ico
              (destination + recordBytes * (s.recordsWritten + 1))
              (destination + recordBytes * (s.recordsWritten + 1 + remaining lists
                (Function.update s.consumed x.sourceList (s.consumed x.sourceList + 1))))).card at hcrowded
            rw [hwrites.tracked, hwrites.dom, hlen, Finset.union_assoc, hnext,
              Finset.Ico_union_Ico_eq_Ico (by omega) ?_, Nat.add_right_comm, Nat.add_assoc s.recordsWritten,
              hstep] at hcrowded
            · exact hcrowded
            · have := Nat.mul_le_mul_left recordBytes (Nat.le_add_right (s.recordsWritten + 1)
                (remaining lists (Function.update s.consumed x.sourceList (s.consumed x.sourceList + 1))))
              omega

end Loop

/-! ## The plan -/

/-- What the plan has checked of a repeat, for any buffer of its limits. -/
structure Planned (issue : MergeIssue) (ub : UbMemory) : Prop where
  transfer : ∀ r ∈ issue.repeats, recordBytes ≤ ub.maxTransferBytes
  sources : ∀ r ∈ issue.repeats, ∀ list, issue.active list = true →
    0 < (issue.listLengths list).toNat ∧
      r.sourceAddresses list + recordBytes * (issue.listLengths list).toNat < u64
  destination : ∀ r ∈ issue.repeats, r.destinationAddress + recordBytes * issue.maximumOutputRecords < u64
  some : issue.repeats ≠ [] → ∃ list, issue.active list = true
  once : issue.control.exhaustedSuspension = true → issue.repeats.length ≤ 1

section Plan

variable {ub : UbMemory} {validLists : UInt8} {lengths : Fin 4 → UInt16} {sources : Fin 4 → Nat}
  {destination repeatIndex : Nat}

theorem plainSubNat_one {ε : Type} {a n : Nat} (h : (Word.plainSubNat a 1 : Outcome ε Nat) = .ok n) : n + 1 = a := by
  have hpos : 1 ≤ a := by
    unfold Word.plainSubNat at h
    rw [expect_ok] at h
    split at h
    · assumption
    · cases h
  rw [Word.plainSubNat_ok h]
  omega

theorem checked_last {len last : Nat} {e : MergeError} {u : Unit} {base before : Nat} (hbefore : before + 1 = len)
    (hlast : okOr e (checkedAdd base (before * recordBytes)) = .ok last)
    (hcheck : mapErr MergeError.ub (ub.checkRange last recordBytes) = .ok u) :
    0 < len ∧ base + recordBytes * len < u64 ∧ recordBytes ≤ ub.maxTransferBytes := by
  obtain ⟨-, rfl⟩ := checkedAdd_eq_some.mp (okOr_ok.mp hlast)
  obtain ⟨htransfer, hlt⟩ := UbMemory.checkRange_ok.mp (mapErr_ok.mp hcheck)
  refine ⟨by omega, ?_, htransfer⟩
  rw [← hbefore, Nat.mul_succ, Nat.mul_comm, ← Nat.add_assoc]
  exact hlt

theorem validateRepeatRanges_ok {u : Unit}
    (h : validateRepeatRanges ub validLists lengths sources destination repeatIndex = .ok u) :
    (∀ list, listIsActive validLists list = true →
      0 < (lengths list).toNat ∧ sources list + recordBytes * (lengths list).toNat < u64) ∧
      (0 < ((activeLists validLists).map fun list => (lengths list).toNat).sum ∧
        destination + recordBytes * ((activeLists validLists).map fun list => (lengths list).toNat).sum < u64) ∧
      recordBytes ≤ ub.maxTransferBytes := by
  unfold validateRepeatRanges at h
  obtain ⟨units, hlists, h⟩ := bind_ok.mp h
  obtain ⟨before, hbefore, h⟩ := bind_ok.mp h
  obtain ⟨last, hlast, h⟩ := bind_ok.mp h
  obtain ⟨hpos, hdest, htransfer⟩ := checked_last (plainSubNat_one hbefore) hlast h
  refine ⟨fun list hactive => ?_, ⟨hpos, hdest⟩, htransfer⟩
  have hmem : list ∈ activeLists validLists := List.mem_filter.mpr ⟨List.mem_finRange list, hactive⟩
  obtain ⟨u', hstep⟩ := ok_of_mem_mapM hlists hmem
  obtain ⟨before, hbefore, hstep⟩ := bind_ok.mp hstep
  obtain ⟨last, hlast, hstep⟩ := bind_ok.mp hstep
  obtain ⟨hpos, hsource, -⟩ := checked_last (plainSubNat_one hbefore) hlast hstep
  exact ⟨hpos, hsource⟩

theorem planMergeIssue_planned {pc : UInt64} {word : UInt32} {registers : XRegs} {issue : MergeIssue}
    (h : planMergeIssue pc word registers ub = .ok issue) : Planned issue ub := by
  unfold planMergeIssue at h
  obtain ⟨instruction, -, h⟩ := bind_ok.mp h
  obtain ⟨packedSources, -, h⟩ := bind_ok.mp h
  obtain ⟨packedLengths, -, h⟩ := bind_ok.mp h
  obtain ⟨destination, -, h⟩ := bind_ok.mp h
  obtain ⟨controlWord, -, h⟩ := bind_ok.mp h
  obtain ⟨repeats, hrepeats, h⟩ := bind_ok.mp h
  cases h
  have hvalid (r : MergeRepeat) (hr : r ∈ repeats) : ∃ i u,
      validateRepeatRanges ub (MergeControl.decode controlWord).validLists (unpackU16x4 packedLengths)
        r.sourceAddresses r.destinationAddress i = .ok u := by
    obtain ⟨i, -, hplan⟩ := exists_of_mem_mapM hrepeats hr
    unfold planMergeRepeat at hplan
    obtain ⟨sources, -, hplan⟩ := bind_ok.mp hplan
    obtain ⟨address, -, hplan⟩ := bind_ok.mp hplan
    obtain ⟨u, hvalidate, hplan⟩ := bind_ok.mp hplan
    cases hplan
    exact ⟨i, u, hvalidate⟩
  exact {
    transfer := fun r hr => by
      obtain ⟨i, u, hvalidate⟩ := hvalid r hr
      exact (validateRepeatRanges_ok hvalidate).2.2
    sources := fun r hr list hactive => by
      obtain ⟨i, u, hvalidate⟩ := hvalid r hr
      exact (validateRepeatRanges_ok hvalidate).1 list hactive
    destination := fun r hr => by
      obtain ⟨i, u, hvalidate⟩ := hvalid r hr
      exact (validateRepeatRanges_ok hvalidate).2.1.2
    some := fun hne => by
      obtain ⟨r, hr⟩ := List.exists_mem_of_ne_nil _ hne
      obtain ⟨i, u, hvalidate⟩ := hvalid r hr
      have hpos := (validateRepeatRanges_ok hvalidate).2.1.1
      cases hactive : activeLists (MergeControl.decode controlWord).validLists with
      | nil => simp [hactive] at hpos
      | cons list _ =>
        have hmem : list ∈ activeLists (MergeControl.decode controlWord).validLists := by simp [hactive]
        exact ⟨list, (List.mem_filter.mp hmem).2⟩
    once := fun hsusp => by
      rw [← (mapM_ok hrepeats).length_eq, List.length_range]
      unfold mergeRepeatCount
      change (MergeControl.decode controlWord).exhaustedSuspension = true at hsusp
      simp only [hsusp, if_true]
      split <;> omega }

end Plan

/-! ## What a repeat reads -/

def recordAt (width : SortWidth) (ub : UbMemory) (source : Nat) (list : Fin 4) (sourceIndex : Nat) : MergeRecord :=
  let bytes := (List.range recordBytes).map fun offset => ub.byteAt (source + recordBytes * sourceIndex + offset)
  { sourceList := list, sourceIndex, keyBits := keyOf width bytes, bytes }

/-- The records of a list in the buffer, in their order; none of a list that is not active. -/
def recordsOf (issue : MergeIssue) (r : MergeRepeat) (ub : UbMemory) (list : Fin 4) : List MergeRecord :=
  if issue.active list then
    (List.range (issue.listLengths list).toNat).map
      (recordAt issue.instruction.width ub (r.sourceAddresses list) list)
  else []

/-- Every source range is known. -/
def KnownSources (issue : MergeIssue) (ub : UbMemory) : Prop :=
  ∀ r ∈ issue.repeats, ∀ list, issue.active list = true → ∀ a, r.sourceAddresses list ≤ a →
    a < r.sourceAddresses list + recordBytes * (issue.listLengths list).toNat → ub.Known a

section Load

variable {issue : MergeIssue} {ub : UbMemory} {r : MergeRepeat} {repeatIndex : Nat}

theorem recordsOf_length (list : Fin 4) : (recordsOf issue r ub list).length =
    if issue.active list then (issue.listLengths list).toNat else 0 := by
  unfold recordsOf
  split <;> simp

theorem recordsOf_loaded : Loaded (recordsOf issue r ub) where
  tagged := fun list x hx => by
    unfold recordsOf at hx
    split at hx
    · obtain ⟨i, -, rfl⟩ := List.mem_map.mp hx
      rfl
    · cases hx
  bytes := fun list x hx => by
    unfold recordsOf at hx
    split at hx
    · obtain ⟨i, -, rfl⟩ := List.mem_map.mp hx
      simp [recordAt]
    · cases hx
  short := fun list => by
    rw [recordsOf_length]
    have := (issue.listLengths list).toNat_lt
    split <;> omega

theorem loadMergeRepeat_eq (hplan : Planned issue ub) (hknown : KnownSources issue ub) (hr : r ∈ issue.repeats)
    (hget : issue.repeats[repeatIndex]? = some r) :
    loadMergeRepeat issue repeatIndex ub = .ok (recordsOf issue r ub) := by
  have hload (list : Fin 4) :
      (if issue.active list then (List.range (issue.listLengths list).toNat).mapM
        (loadMergeRecord issue.instruction.width ub (r.sourceAddresses list) list) else .ok []) =
        (.ok (recordsOf issue r ub list) : Outcome MergeError _) := by
    unfold recordsOf
    split
    · rename_i hactive
      obtain ⟨-, hsource⟩ := hplan.sources r hr list hactive
      refine mapM_eq fun i hi => ?_
      have hlt := List.mem_range.mp hi
      have hend := Nat.mul_le_mul_left recordBytes (Nat.succ_le_of_lt hlt)
      rw [Nat.mul_succ] at hend
      have hpos : 0 < recordBytes := by decide
      have haddress : checkedAdd (r.sourceAddresses list) (recordBytes * i) =
          some (r.sourceAddresses list + recordBytes * i) := checkedAdd_eq_some.mpr ⟨by omega, rfl⟩
      have hread : ub.readKnown (r.sourceAddresses list + recordBytes * i) recordBytes =
          .ok ((List.range recordBytes).map fun offset =>
            ub.byteAt (r.sourceAddresses list + recordBytes * i + offset)) :=
        UbMemory.readKnown_eq ⟨hplan.transfer r hr, by omega⟩ fun offset hoffset =>
          hknown r hr list hactive _ (by omega) (by omega)
      unfold loadMergeRecord
      rw [haddress]
      change mapErr _ (ub.readKnown _ _) >>= _ = _
      rw [hread]
      rfl
    · rfl
  unfold loadMergeRepeat
  rw [hget]
  change ((if issue.active 0 then _ else _) >>= _ : Outcome MergeError MergeLists) = _
  simp only [hload, bind, Except.bind]
  refine congrArg Except.ok (funext fun list => ?_)
  fin_cases list <;> rfl

theorem fromLeBytes_lt (bytes : List UInt8) :
    bytes.foldr (fun byte rest => byte.toNat + 256 * rest) 0 < 256 ^ bytes.length := by
  induction bytes with
  | nil => simp
  | cons byte bytes ih =>
    have := byte.toNat_lt
    rw [List.foldr_cons, List.length_cons, pow_succ]
    omega

theorem keyOf_fits (width : SortWidth) (bytes : List UInt8) : width.Fits (keyOf width bytes) := by
  cases width with
  | f32 => exact SortWidth.fits_f32
  | f16 =>
    have hlt := fromLeBytes_lt (bytes.take 2)
    have hpow : 256 ^ (bytes.take 2).length ≤ 256 ^ 2 :=
      Nat.pow_le_pow_right (by decide) (by rw [List.length_take]; omega)
    change (Word.fromLeBytes (bytes.take 2)).toUInt32.toNat < 2 ^ 16
    rw [UInt64.toNat_toUInt32, Word.fromLeBytes]
    refine (Nat.mod_le _ _).trans_lt ((UInt64.toNat_ofNat' ▸ Nat.mod_le _ _ : _ ≤ _).trans_lt ?_)
    omega

end Load

/-! ## What a merge writes -/

/-- Sorted by the merge order: no record precedes one before it. -/
def Ordered (width : SortWidth) (records : List MergeRecord) : Prop :=
  records.Pairwise fun x y => mergeRecordPrecedes width y x = false

/-- The keys of a repeat. -/
def keys (issue : MergeIssue) (r : MergeRepeat) (ub : UbMemory) : Set UInt32 :=
  {bits | ∃ list, ∃ x ∈ recordsOf issue r ub list, x.keyBits = bits}

/-- A repeat that reads `ub` and leaves `ub'`, with the records `out` written. -/
structure MergedRepeat (issue : MergeIssue) (r : MergeRepeat) (ub : UbMemory) (out : List MergeRecord)
    (done : MergeRepeatResult) (ub' : UbMemory) : Prop where
  consumed : ∀ list, done.consumed list ≤ (recordsOf issue r ub list).length
  interleaved : ∀ list, out.filter (fun x => x.sourceList = list) =
    (recordsOf issue r ub list).take (done.consumed list)
  count : done.recordsWritten = out.length ∧ ∑ list, done.consumed list = out.length
  written : Written issue.instruction.width r.destinationAddress out ub ub'
  ordered : ¬ issue.instruction.width.Mixes (keys issue r ub) →
    (∀ list, Ordered issue.instruction.width (recordsOf issue r ub list)) → Ordered issue.instruction.width out
  complete : issue.control.exhaustedSuspension = false →
    ∀ list, done.consumed list = (recordsOf issue r ub list).length
  suspended : issue.control.exhaustedSuspension = true → ∃ last, out.getLast? = some last ∧
    done.consumed last.sourceList = (recordsOf issue r ub last.sourceList).length ∧
      ∀ list, list ≠ last.sourceList → issue.active list = true →
        done.consumed list < (recordsOf issue r ub list).length

/-- The repeats one after the other, each of the buffer that the one before leaves. -/
inductive MergedRepeats (issue : MergeIssue) : List MergeRepeat → UbMemory → List MergeRepeatResult → UbMemory → Prop
  | nil (ub : UbMemory) : MergedRepeats issue [] ub [] ub
  | cons {r : MergeRepeat} {repeats : List MergeRepeat} {ub ub₁ ub' : UbMemory} {out : List MergeRecord}
      {done : MergeRepeatResult} {results : List MergeRepeatResult} : MergedRepeat issue r ub out done ub₁ →
      MergedRepeats issue repeats ub₁ results ub' → MergedRepeats issue (r :: repeats) ub (done :: results) ub'

/-- A merge that reads `ub` and leaves `ub'`. -/
structure Merged (issue : MergeIssue) (ub : UbMemory) (result : MergeResult) (ub' : UbMemory) : Prop where
  repeats : MergedRepeats issue issue.repeats ub result.repeats ub'
  unsuspended : issue.control.exhaustedSuspension = false → result.status = 0
  status : issue.control.exhaustedSuspension = true → ∀ done ∈ result.repeats, result.repeats = [done] ∧
    ∀ list, (unpackU16x4 result.status list).toNat = done.consumed list

/-- The limit of the buffer leaves room for the destination of every repeat. -/
def Room (issue : MergeIssue) (ub : UbMemory) : Prop :=
  ∀ addresses : Finset Nat, (∀ a ∈ addresses, a ∈ ub.bytes.dom ∨
    ∃ r ∈ issue.repeats, r.destinationAddress ≤ a ∧
      a < r.destinationAddress + recordBytes * issue.maximumOutputRecords) → addresses.card ≤ ub.maxTrackedBytes

section Repeat

variable {issue : MergeIssue} {ub ub' : UbMemory} {r : MergeRepeat} {out : List MergeRecord}
  {done : MergeRepeatResult} {status : Option UInt64}

theorem sum_lengths : ∑ list, (recordsOf issue r ub list).length = issue.maximumOutputRecords := by
  have h (l : List (Fin 4)) : (l.map fun list => (recordsOf issue r ub list).length).sum =
      ((l.filter issue.active).map fun list => (issue.listLengths list).toNat).sum := by
    induction l with
    | nil => rfl
    | cons list l ih =>
      rw [List.map_cons, List.sum_cons, ih, recordsOf_length, List.filter_cons]
      split <;> simp
  rw [MergeIssue.maximumOutputRecords, activeLists]
  refine Eq.trans ?_ (h (List.finRange 4))
  rw [← List.sum_ofFn, List.ofFn_eq_map]

theorem recordsOf_ne_nil (hplan : Planned issue ub) (hr : r ∈ issue.repeats) {list : Fin 4} :
    recordsOf issue r ub list ≠ [] ↔ issue.active list = true := by
  rw [← List.length_pos_iff, recordsOf_length]
  cases hactive : issue.active list with
  | false => simp
  | true => simpa using (hplan.sources r hr list hactive).1

theorem agrees_keys (hmix : ¬ issue.instruction.width.Mixes (keys issue r ub)) {l : List MergeRecord}
    (hl : ∀ x ∈ l, ∃ list, x ∈ recordsOf issue r ub list) :
    Introsort.Agrees (mergeRecordPrecedes issue.instruction.width) (mergeKey issue.instruction.width) l := by
  have hkey (x : MergeRecord) (hx : x ∈ l) :
      x.keyBits ∈ keys issue r ub ∧ issue.instruction.width.Fits x.keyBits := by
    obtain ⟨list, hmem⟩ := hl x hx
    refine ⟨⟨list, x, hmem, rfl⟩, ?_⟩
    unfold recordsOf at hmem
    split at hmem
    · obtain ⟨i, -, rfl⟩ := List.mem_map.mp hmem
      exact keyOf_fits _ _
    · cases hmem
  exact fun x hx y hy => mergeRecordPrecedes_iff hmix (hkey x hx) (hkey y hy)

theorem ordered_iff {width : SortWidth} {l : List MergeRecord}
    (ha : Introsort.Agrees (mergeRecordPrecedes width) (mergeKey width) l) :
    Ordered width l ↔ l.Pairwise fun x y => mergeKey width x ≤ mergeKey width y :=
  List.Pairwise.iff_of_mem fun hx hy => ha.not_iff hy hx

/-- The end of the loop of a repeat, as the claim has it. -/
theorem Ended.merged (hplan : Planned issue ub) (hr : r ∈ issue.repeats)
    (h : Ended issue.instruction.width issue.control.exhaustedSuspension r.destinationAddress (recordsOf issue r ub)
      ⟨fun _ => 0, 0, ub⟩ out done status ub') : MergedRepeat issue r ub out done ub' := by
  have htaken : Interleaves (·.sourceList) (Chosen issue.instruction.width) (recordsOf issue r ub) out
      (rest (recordsOf issue r ub) done.consumed) := h.taken
  have hfilter (list : Fin 4) : out.filter (fun x => x.sourceList = list) =
      (recordsOf issue r ub list).take (done.consumed list) := by
    have hsplit := htaken.split list
    rw [rest] at hsplit
    nth_rewrite 1 [← List.take_append_drop (done.consumed list) (recordsOf issue r ub list)] at hsplit
    exact (List.append_cancel_right hsplit).symm
  exact {
    consumed := h.consumed
    interleaved := hfilter
    count := by
      refine ⟨h.count.trans (Nat.zero_add _), ?_⟩
      rw [← Interleaves.sum_filter (fun x : MergeRecord => x.sourceList) out]
      refine Finset.sum_congr rfl fun list _ => ?_
      rw [hfilter, List.length_take, Nat.min_eq_left (h.consumed list)]
    written := h.written
    ordered := fun hmix hsorted => by
      have hout (x : MergeRecord) (hx : x ∈ out) : ∃ list, x ∈ recordsOf issue r ub list :=
        ⟨_, htaken.mem hx⟩
      rw [ordered_iff (agrees_keys hmix hout)]
      refine htaken.sorted (S := {x | ∃ list, x ∈ recordsOf issue r ub list}) ?_ (fun list x hx => ⟨list, hx⟩)
        fun list => (ordered_iff (agrees_keys hmix fun x hx => ⟨list, hx⟩)).mp (hsorted list)
      intro lists x hlists hchosen list y hy
      refine mergeWinner_least (agrees_keys hmix fun z hz => ?_) hchosen y (mem_headsOf.mpr ⟨list, hy⟩)
      obtain ⟨l, hl⟩ := mem_headsOf.mp hz
      exact hlists l z (List.mem_of_mem_head? hl)
    complete := fun hno => (h.complete hno).1
    suspended := fun hsusp => by
      obtain ⟨-, last, hlast, hconsumed, hothers⟩ := h.suspended hsusp
      exact ⟨last, hlast, hconsumed, fun list hne hactive =>
        hothers list hne ((recordsOf_ne_nil hplan hr).mpr hactive)⟩ }

end Repeat

/-! ## The status -/

theorem or_shiftLeft_toNat {x y : UInt64} (k : Nat) (hk : k + 16 ≤ 64) (hx : x.toNat < 2 ^ k) (hy : y.toNat < 2 ^ 16) :
    (x ||| (y <<< UInt64.ofNat k)).toNat = x.toNat + 2 ^ k * y.toNat := by
  have hpow : 2 ^ k * 2 ^ 16 ≤ 2 ^ 64 := by
    rw [← pow_add]
    exact Nat.pow_le_pow_right (by decide) hk
  have hmul := Nat.mul_lt_mul_of_pos_left hy (Nat.two_pow_pos k)
  have hof : (UInt64.ofNat k).toNat % 64 = k := by
    rw [UInt64.toNat_ofNat']
    omega
  rw [UInt64.toNat_or, UInt64.toNat_shiftLeft, hof, Nat.shiftLeft_eq, Nat.mul_comm y.toNat,
    Nat.mod_eq_of_lt (hmul.trans_le hpow), Nat.or_comm, ← Nat.two_pow_add_eq_or_of_lt hx, Nat.add_comm]

/-- The status gives the four counts back. -/
theorem unpack_packStatus {consumed : Fin 4 → Nat} (h : ∀ list, consumed list < 2 ^ 16) (list : Fin 4) :
    (unpackU16x4 (packStatus consumed) list).toNat = consumed list := by
  have hword (l : Fin 4) : (UInt64.ofNat (consumed l)).toNat = consumed l := by
    have := h l
    rw [UInt64.toNat_ofNat']
    omega
  have h0 := h 0
  have h1 := h 1
  have h2 := h 2
  have h3 := h 3
  have hpack : packStatus consumed =
      (((0 ||| (UInt64.ofNat (consumed 0) <<< UInt64.ofNat 0)) ||| (UInt64.ofNat (consumed 1) <<< UInt64.ofNat 16)) |||
        (UInt64.ofNat (consumed 2) <<< UInt64.ofNat 32)) ||| (UInt64.ofNat (consumed 3) <<< UInt64.ofNat 48) := rfl
  have hy (l : Fin 4) : (UInt64.ofNat (consumed l)).toNat < 2 ^ 16 := by rw [hword]; exact h l
  have hs0 := or_shiftLeft_toNat (x := 0) (y := UInt64.ofNat (consumed 0)) 0 (by omega) (by decide) (hy 0)
  rw [hword, UInt64.toNat_zero] at hs0
  have hs1 := or_shiftLeft_toNat (y := UInt64.ofNat (consumed 1)) 16 (by omega) (by rw [hs0]; omega) (hy 1)
  rw [hs0, hword] at hs1
  have hs2 := or_shiftLeft_toNat (y := UInt64.ofNat (consumed 2)) 32 (by omega) (by rw [hs1]; omega) (hy 2)
  rw [hs1, hword] at hs2
  have hs3 := or_shiftLeft_toNat (y := UInt64.ofNat (consumed 3)) 48 (by omega) (by rw [hs2]; omega) (hy 3)
  rw [hs2, hword, ← hpack] at hs3
  unfold unpackU16x4
  rw [UInt64.toNat_toUInt16, UInt64.toNat_shiftRight, hs3, Nat.shiftRight_eq_div_pow]
  fin_cases list
  · change (_ / 2 ^ 0) % 2 ^ 16 = consumed 0
    omega
  · change (_ / 2 ^ 16) % 2 ^ 16 = consumed 1
    omega
  · change (_ / 2 ^ 32) % 2 ^ 16 = consumed 2
    omega
  · change (_ / 2 ^ 48) % 2 ^ 16 = consumed 3
    omega

/-! ## The merge -/

section Merge

variable {issue : MergeIssue} {ub ub' : UbMemory}

theorem Planned.limits (h : Planned issue ub) (htransfer : ub'.maxTransferBytes = ub.maxTransferBytes) :
    Planned issue ub' :=
  { h with transfer := fun r hr => htransfer ▸ h.transfer r hr }

/-- What is written is known. -/
theorem Written.known {width : SortWidth} {address a : Nat} {out : List MergeRecord}
    (h : Written width address out ub ub') (hbytes : ∀ x ∈ out, x.bytes.length = recordBytes) (ha : ub.Known a) : ub'.Known a := by
  by_cases hin : a < address ∨ address + recordBytes * out.length ≤ a
  · unfold UbMemory.Known
    rw [h.frame a hin]
    exact ha
  · unfold recordBytes at hin
    have hi : (a - address) / 8 < out.length := by omega
    have hlen := writtenBytes_length width (hbytes _ (List.getElem_mem hi))
    have hj : (a - address) % 8 < (writtenBytes width out[(a - address) / 8]).length := by
      rw [hlen]
      exact Nat.mod_lt _ (by decide)
    have hown := h.own _ _ (List.getElem?_eq_getElem hi) _ _ (List.getElem?_eq_getElem hj)
    have hat : address + recordBytes * ((a - address) / 8) + (a - address) % 8 = a := by
      unfold recordBytes
      omega
    rw [hat] at hown
    exact ⟨_, hown⟩

/-- Where a merge stands: the buffer as it is now, and as it was before the merge. -/
structure Stands (issue : MergeIssue) (start now : UbMemory) : Prop where
  known : KnownSources issue now
  tracked : now.maxTrackedBytes = start.maxTrackedBytes
  transfer : now.maxTransferBytes = start.maxTransferBytes
  dom : ∀ a ∈ now.bytes.dom, a ∈ start.bytes.dom ∨ ∃ r ∈ issue.repeats, r.destinationAddress ≤ a ∧
    a < r.destinationAddress + recordBytes * issue.maximumOutputRecords

theorem executeMergeRepeat_ends {r : MergeRepeat} {repeatIndex : Nat} {start : UbMemory} (hplan : Planned issue start)
    (hs : Stands issue start ub) (hget : issue.repeats[repeatIndex]? = some r) :
    (∀ done status ub', executeMergeRepeat issue repeatIndex r ub = (.ok (done, status), ub') →
      (∃ out, MergedRepeat issue r ub out done ub') ∧ Stands issue start ub' ∧
        (issue.control.exhaustedSuspension = false → status = none) ∧
        (issue.control.exhaustedSuspension = true → status = some (packStatus done.consumed))) ∧
    ∀ e ub', executeMergeRepeat issue repeatIndex r ub = (.error e, ub') →
      e = .returned (.ub (.trackedLimitExceeded start.maxTrackedBytes)) ∧ ¬ Room issue start := by
  have hr := List.mem_of_getElem? hget
  have hplan' := hplan.limits hs.transfer
  have hload := loadMergeRepeat_eq hplan' hs.known hr hget
  have hremaining : remaining (recordsOf issue r ub) (fun _ => 0) = issue.maximumOutputRecords :=
    sum_lengths
  have hready : Ready issue.control.exhaustedSuspension r.destinationAddress (recordsOf issue r ub)
      ⟨fun _ => 0, 0, ub⟩ :=
    { consumed := fun _ => Nat.zero_le _
      transfer := hplan'.transfer r hr
      inRange := by
        change r.destinationAddress + recordBytes * (0 + remaining (recordsOf issue r ub) fun _ => 0) < u64
        rw [hremaining, Nat.zero_add]
        exact hplan.destination r hr
      going := fun _ => by
        obtain ⟨list, hactive⟩ := hplan.some (List.ne_nil_of_mem hr)
        exact ⟨fun list hne => List.length_pos_iff.mpr hne, list, (recordsOf_ne_nil hplan' hr).mpr hactive⟩ }
  have hends := mergeLoop_ends issue.instruction.width recordsOf_loaded hready
    (show _ < issue.maximumOutputRecords + 1 by change remaining _ (fun _ => 0) < _; omega)
  unfold executeMergeRepeat
  rw [hload]
  refine ⟨fun done status ub' h => ?_, fun e ub' h => ?_⟩
  · obtain ⟨out, hended⟩ := hends.1 done status ub' h
    have hmerged := hended.merged hplan' hr
    have hout : out.length ≤ issue.maximumOutputRecords := by
      rw [← hmerged.count.2, ← @sum_lengths issue ub r]
      exact Finset.sum_le_sum fun list _ => hmerged.consumed list
    have hbytes : ∀ x ∈ out, x.bytes.length = recordBytes := fun x hx =>
      recordsOf_loaded.bytes _ x (hended.taken.mem hx)
    refine ⟨⟨out, hmerged⟩, ?_, fun hno => (hended.complete hno).2, fun hsusp => (hended.suspended hsusp).1⟩
    exact {
      known := fun r' hr' list hactive a hlow hhigh =>
        hmerged.written.known hbytes (hs.known r' hr' list hactive a hlow hhigh)
      tracked := hmerged.written.tracked.trans hs.tracked
      transfer := hmerged.written.transfer.trans hs.transfer
      dom := fun a ha => by
        rw [hmerged.written.dom, Finset.mem_union, Finset.mem_Ico] at ha
        rcases ha with ha | ⟨hlow, hhigh⟩
        · exact hs.dom a ha
        · have := Nat.mul_le_mul_left recordBytes hout
          exact .inr ⟨r, hr, hlow, by omega⟩ }
  · obtain ⟨rfl, hcrowded⟩ := hends.2 e ub' h
    rw [show (MergeState.mk (fun _ => 0) 0 ub).ub = ub from rfl] at hcrowded ⊢
    refine ⟨by rw [hs.tracked], fun hroom => ?_⟩
    unfold Crowded at hcrowded
    rw [hs.tracked] at hcrowded
    refine absurd (hroom _ fun a ha => ?_) (not_le.mpr hcrowded)
    rw [Finset.mem_union, Finset.mem_Ico] at ha
    rcases ha with ha | ⟨hlow, hhigh⟩
    · exact hs.dom a ha
    · refine .inr ⟨r, hr, hlow, ?_⟩
      change a < r.destinationAddress + recordBytes * (0 + remaining (recordsOf issue r ub) fun _ => 0) at hhigh
      rwa [hremaining, Nat.zero_add] at hhigh

theorem executeMergeFrom_ends {start : UbMemory} (hplan : Planned issue start) {repeats before : List MergeRepeat}
    {result : MergeResult} (hs : Stands issue start ub) (hrepeats : issue.repeats = before ++ repeats) :
    (∀ result' ub', executeMergeFrom issue before.length repeats result ub = (.ok result', ub') →
      ∃ results, result'.repeats = result.repeats ++ results ∧ MergedRepeats issue repeats ub results ub' ∧
        (issue.control.exhaustedSuspension = false → result'.status = result.status) ∧
        (issue.control.exhaustedSuspension = true → result'.status =
          (results.getLast?.map fun done => packStatus done.consumed).getD result.status)) ∧
    ∀ e ub', executeMergeFrom issue before.length repeats result ub = (.error e, ub') →
      e = .returned (.ub (.trackedLimitExceeded start.maxTrackedBytes)) ∧ ¬ Room issue start := by
  induction repeats generalizing before result ub with
  | nil =>
    refine ⟨fun result' ub' h => ?_, fun e ub' h => (by cases h)⟩
    cases h
    exact ⟨[], (List.append_nil _).symm, .nil _, fun _ => rfl, fun _ => rfl⟩
  | cons r repeats ih =>
    have hget : issue.repeats[before.length]? = some r := by simp [hrepeats]
    obtain ⟨hok, herror⟩ := executeMergeRepeat_ends hplan hs hget
    unfold executeMergeFrom
    match hrepeat : executeMergeRepeat issue before.length r ub with
    | (.error e, ub₁) =>
      refine ⟨fun result' ub' h => (by cases h), fun e' ub' h => ?_⟩
      cases h
      exact herror e ub₁ hrepeat
    | (.ok (done, status), ub₁) =>
      obtain ⟨⟨out, hmerged⟩, hs₁, hnone, hsome⟩ := hok done status ub₁ hrepeat
      have hlen : before.length + 1 = (before ++ [r]).length := by simp
      have hsplit : issue.repeats = (before ++ [r]) ++ repeats := by
        rw [hrepeats, List.append_assoc, List.singleton_append]
      have hrest := @ih ub₁ (before ++ [r]) ⟨result.repeats ++ [done], status.getD result.status⟩ hs₁ hsplit
      simp only [hlen]
      refine ⟨fun result' ub' h => ?_, hrest.2⟩
      obtain ⟨results, hresults, hmerges, hplain, hpacked⟩ := hrest.1 result' ub' h
      refine ⟨done :: results, ?_, .cons hmerged hmerges, fun hno => ?_, fun hsusp => ?_⟩
      · rw [hresults, List.append_assoc, List.singleton_append]
      · rw [hplain hno, hnone hno]
        rfl
      · rw [hpacked hsusp, hsome hsusp, List.getLast?_cons]
        cases results.getLast? <;> rfl

theorem MergedRepeats.length {repeats : List MergeRepeat} {results : List MergeRepeatResult}
    (h : MergedRepeats issue repeats ub results ub') : results.length = repeats.length := by
  induction h with
  | nil => rfl
  | cons _ _ ih => rw [List.length_cons, List.length_cons, ih]

theorem MergedRepeats.short {repeats : List MergeRepeat} {results : List MergeRepeatResult}
    (h : MergedRepeats issue repeats ub results ub') {done : MergeRepeatResult} (hdone : done ∈ results)
    (list : Fin 4) : done.consumed list < 2 ^ 16 := by
  induction h with
  | nil => cases hdone
  | cons hmerged _ ih =>
    rcases List.mem_cons.mp hdone with rfl | hdone
    · exact (hmerged.consumed list).trans_lt (recordsOf_loaded.short list)
    · exact ih hdone

end Merge

/-! ## A merge of one record -/

/-- One list of one record, from address 0 to address 8. -/
def mergeSampleRegisters : XRegs := Vector.ofFn fun i =>
  if i = 2 then 1 else if i = 3 then 8 else if i = 4 then 0x101 else 0

def mergeSampleWord : UInt32 := 0x85c61113

/-- The first eight bytes are known. -/
def mergeSampleUb (limit : Nat) : UbMemory :=
  ⟨OrdMap.empty.insertAll ((List.range 8).map fun i => (i, .known (UInt8.ofNat i))), limit, 8⟩

def mergeSampleIssue : MergeIssue where
  pc := 0
  word := mergeSampleWord
  instruction := ⟨.f32, 3, 1, 2, 4⟩
  control := ⟨1, 1, false⟩
  listLengths := unpackU16x4 1
  repeats := [⟨fun list => (unpackU16x4 0 list).toNat * recordBytes, 8⟩]

theorem mergeSample_plan (limit : Nat) :
    planMergeIssue 0 mergeSampleWord mergeSampleRegisters (mergeSampleUb limit) = .ok mergeSampleIssue := by
  rfl

theorem mergeSample_known (limit : Nat) : KnownSources mergeSampleIssue (mergeSampleUb limit) := by
  intro r hr list hactive a hlow hhigh
  obtain rfl := List.mem_singleton.mp hr
  have hlist : list = 0 := by
    revert hactive
    fin_cases list <;> decide
  subst hlist
  have ha : a < 8 := hhigh
  exact ⟨UInt8.ofNat a, by
    refine OrdMap.get?_insertAll_of_mem ?_ (List.mem_map.mpr ⟨a, List.mem_range.mpr ha, rfl⟩)
    decide⟩

end AscendEmulator.C220.Vector
