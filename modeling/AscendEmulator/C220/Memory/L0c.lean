/-
  AscendEmulator.C220.Memory.L0c — the unit flags of L0C (`C220L0cScoreboard`): which fragments a writer holds, which of
  them a reader may take, and the notifications on their way from the one to the other.

  Fragment numbers are `Nat`; the first fragment of a `u64` address and a count of `u32` bytes cannot overflow a `u64`.

  - `scoreboard_runs`: at all times the writer's fragments are those of the readers and of the pending notifications, no
    fragment twice; per fragment writes and reads alternate; what is blocked or does not update changes nothing.
  - `calls_between_differ`: without a call of `advanceTo` between them, a read that is due stays blocked.
-/

import AscendEmulator.C220.Cube.Timing
import AscendEmulator.Lib.Run

namespace AscendEmulator.C220.Memory

open Lib Cube

/-! ## Requests -/

/-- `C220_L0C_FRAGMENT_BYTES` -/
def l0cFragmentBytes : Nat := 512

structure L0cFragmentRequest where
  address : Nat
  bytes : Nat
  access : CubeL0cAccess
  checkUnitFlags : Bool
  updateUnitFlags : Bool
  deriving DecidableEq

inductive L0cUnitFlagBlock where
  | writerOccupied (fragment : Nat)
  | readerUnavailable (fragment : Nat)
  deriving DecidableEq

inductive L0cError where
  | invalidCapacity
  | timeOverflow
  deriving DecidableEq

structure PendingReadFlags where
  readyTick : Nat
  startFragment : Nat
  fragmentCount : Nat
  deriving DecidableEq

structure L0cScoreboard where
  fragmentCount : Nat
  unitFlagReadLatency : Nat
  writerFlags : Finset Nat
  readerFlags : Finset Nat
  pendingReaderFlags : List PendingReadFlags
  deriving DecidableEq

namespace L0cScoreboard

def new (totalBytes unitFlagReadLatency : Nat) : Except L0cError L0cScoreboard :=
  let fragmentCount := totalBytes / l0cFragmentBytes
  if u32 ≤ fragmentCount ∨ fragmentCount = 0 then .error .invalidCapacity
  else .ok ⟨fragmentCount, unitFlagReadLatency, ∅, ∅, []⟩

section Calls

variable (s : L0cScoreboard)

/-- Fragments past the last one are at the start of the buffer again. -/
def fragments (start count : Nat) : List Nat := (List.range count).map fun offset => (start + offset) % s.fragmentCount

def requestFragments (request : L0cFragmentRequest) : Nat × Nat :=
  (request.address / l0cFragmentBytes, request.bytes / l0cFragmentBytes)

def fragmentsOf (request : L0cFragmentRequest) : List Nat :=
  s.fragments (requestFragments request).1 (requestFragments request).2

def pendingFragments (pending : PendingReadFlags) : List Nat := s.fragments pending.startFragment pending.fragmentCount

/-- The notifications that `advance_to` takes from the front of the queue. -/
def due (tick : Nat) : List PendingReadFlags := s.pendingReaderFlags.takeWhile fun pending => pending.readyTick ≤ tick

def advanceTo (tick : Nat) : L0cScoreboard :=
  { s with
    readerFlags := s.readerFlags ∪ ((s.due tick).flatMap s.pendingFragments).toFinset
    pendingReaderFlags := s.pendingReaderFlags.dropWhile fun pending => pending.readyTick ≤ tick }

def blockedBy (request : L0cFragmentRequest) : Option L0cUnitFlagBlock :=
  if !request.checkUnitFlags then none
  else
    match request.access with
    | .write => ((s.fragmentsOf request).find? (· ∈ s.writerFlags)).map .writerOccupied
    | .read => ((s.fragmentsOf request).find? (· ∉ s.readerFlags)).map .readerUnavailable

/-- A write occupies its fragments, and a read is told of them later. -/
def admitWrite (request : L0cFragmentRequest) (tick : Nat) :
    Except L0cError (Except L0cUnitFlagBlock Unit) × L0cScoreboard :=
  let s := { s with writerFlags := s.writerFlags ∪ (s.fragmentsOf request).toFinset }
  match checkedAdd tick s.unitFlagReadLatency with
  | none => (.error .timeOverflow, s)
  | some readyTick =>
    (.ok (.ok ()), { s with
      pendingReaderFlags := s.pendingReaderFlags ++
        [⟨readyTick, (requestFragments request).1, (requestFragments request).2⟩] })

def admitRead (request : L0cFragmentRequest) : L0cScoreboard :=
  { s with
    readerFlags := s.readerFlags \ (s.fragmentsOf request).toFinset
    writerFlags := s.writerFlags \ (s.fragmentsOf request).toFinset }

def admitRequest (request : L0cFragmentRequest) (tick : Nat) :
    Except L0cError (Except L0cUnitFlagBlock Unit) × L0cScoreboard :=
  match s.blockedBy request with
  | some blocked => (.ok (.error blocked), s)
  | none =>
    if !request.checkUnitFlags || !request.updateUnitFlags then (.ok (.ok ()), s)
    else
      match request.access with
      | .write => s.admitWrite request tick
      | .read => (.ok (.ok ()), s.admitRead request)

end Calls

/-! ## Runs -/

inductive Command where
  | advance (tick : Nat)
  | admitRequest (request : L0cFragmentRequest) (tick : Nat)
  deriving DecidableEq

namespace Command

def tick : Command → Nat
  | advance tick => tick
  | admitRequest _ tick => tick

/-- What is promised of a command: it fits the buffer and the clock, and updates only what it checks. -/
def Fits (totalBytes latency : Nat) : Command → Prop
  | advance _ => True
  | admitRequest request tick =>
    request.bytes ≤ totalBytes ∧ tick + latency < u64 ∧ (request.updateUnitFlags = true → request.checkUnitFlags = true)

instance (totalBytes latency : Nat) (c : Command) : Decidable (c.Fits totalBytes latency) :=
  match c with
  | advance _ => inferInstanceAs (Decidable True)
  | admitRequest request tick => inferInstanceAs (Decidable (request.bytes ≤ totalBytes ∧ tick + latency < u64 ∧
      (request.updateUnitFlags = true → request.checkUnitFlags = true)))

end Command

/-- An admission's answer; none for `advance_to`. -/
abbrev Answer := Option (Except L0cError (Except L0cUnitFlagBlock Unit))

def exec : Command → L0cScoreboard → Answer × L0cScoreboard
  | .advance tick, s => (none, s.advanceTo tick)
  | .admitRequest request tick, s => (some (s.admitRequest request tick).1, (s.admitRequest request tick).2)

/-- Ticks never decrease. -/
def Ordered (commands : List Command) : Prop := (commands.map Command.tick).Pairwise (· ≤ ·)

instance (commands : List Command) : Decidable (Ordered commands) :=
  inferInstanceAs (Decidable ((commands.map Command.tick).Pairwise (· ≤ ·)))

structure Valid (totalBytes latency : Nat) (commands : List Command) : Prop where
  ordered : Ordered commands
  fits : ∀ c ∈ commands, c.Fits totalBytes latency

/-! ## Accesses of a fragment -/

/-- The updating accesses of a fragment alternate, a write first, and no read comes before its write is due. The last
argument is the tick of a write not read yet. -/
inductive Alternates (latency : Nat) : List (CubeL0cAccess × Nat) → Option Nat → Prop
  | nil : Alternates latency [] none
  | write {l : List (CubeL0cAccess × Nat)} {tick : Nat} :
      Alternates latency l none → Alternates latency (l ++ [(.write, tick)]) (some tick)
  | read {l : List (CubeL0cAccess × Nat)} {written tick : Nat} : Alternates latency l (some written) →
      written + latency ≤ tick → Alternates latency (l ++ [(.read, tick)]) none

/-- The updating access that a command made of a fragment. -/
def access (s : L0cScoreboard) (fragment : Nat) : Command × Answer → Option (CubeL0cAccess × Nat)
  | (.admitRequest request tick, some (.ok (.ok ()))) =>
    if request.updateUnitFlags ∧ fragment ∈ s.fragmentsOf request then some (request.access, tick) else none
  | _ => none

/-- The updating accesses of a fragment in a trace. -/
def accesses (s : L0cScoreboard) (fragment : Nat) (trace : List (Command × Answer)) : List (CubeL0cAccess × Nat) :=
  trace.filterMap (s.access fragment)

/-! ## What the flags say -/

variable {s t : L0cScoreboard} {trace : List (Command × Answer)} {request : L0cFragmentRequest} {tick fragment : Nat}

/-- The fragments of the pending notifications. -/
def pendings (s : L0cScoreboard) : List Nat := s.pendingReaderFlags.flatMap s.pendingFragments

/-- A fragment that a writer occupies is available to a reader or in a pending notification, and only once. -/
structure Flags (s : L0cScoreboard) : Prop where
  writer : s.writerFlags = s.readerFlags ∪ s.pendings.toFinset
  apart : Disjoint s.readerFlags s.pendings.toFinset
  nodup : s.pendings.Nodup

/-- The accesses so far of a fragment that is free, available or awaited. -/
structure History (s : L0cScoreboard) (trace : List (Command × Answer)) : Prop where
  free : ∀ f ∉ s.writerFlags, Alternates s.unitFlagReadLatency (s.accesses f trace) none
  available : ∀ f ∈ s.readerFlags, ∃ written, Alternates s.unitFlagReadLatency (s.accesses f trace) (some written) ∧
    ∃ x ∈ trace, written + s.unitFlagReadLatency ≤ x.1.tick
  awaited : ∀ p ∈ s.pendingReaderFlags, ∀ f ∈ s.pendingFragments p, ∃ written,
    Alternates s.unitFlagReadLatency (s.accesses f trace) (some written) ∧
      p.readyTick = written + s.unitFlagReadLatency

theorem History.alternates (h : History s trace) (hf : Flags s) (f : Nat) :
    ∃ written, Alternates s.unitFlagReadLatency (s.accesses f trace) written := by
  by_cases hw : f ∈ s.writerFlags
  · rw [hf.writer] at hw
    rcases Finset.mem_union.mp hw with hr | hp
    · obtain ⟨written, h, -⟩ := h.available f hr
      exact ⟨_, h⟩
    · obtain ⟨p, hp, hfp⟩ := List.mem_flatMap.mp (List.mem_toFinset.mp hp)
      obtain ⟨written, h, -⟩ := h.awaited p hp f hfp
      exact ⟨_, h⟩
  · exact ⟨none, h.free f hw⟩

theorem fragments_nodup {start count : Nat} (h : count ≤ s.fragmentCount) : (s.fragments start count).Nodup := by
  refine List.Nodup.map_on (fun i hi j hj hij => ?_) List.nodup_range
  have hi := List.mem_range.mp hi
  have hj := List.mem_range.mp hj
  have hmod : i ≡ j [MOD s.fragmentCount] := Nat.ModEq.add_left_cancel' start hij
  exact hmod.eq_of_lt_of_lt (hi.trans_le h) (hj.trans_le h)

theorem accesses_snoc (x : Command × Answer) :
    s.accesses fragment (trace ++ [x]) = s.accesses fragment trace ++ (s.access fragment x).toList := by
  rw [accesses, List.filterMap_append]
  cases h : s.access fragment x <;> simp [h, accesses]

/-- A trace grows by a command that accesses nothing. -/
theorem History.idle (h : History s trace) {x : Command × Answer} (hx : ∀ f, s.access f x = none) :
    History s (trace ++ [x]) := by
  have hsame (f : Nat) : s.accesses f (trace ++ [x]) = s.accesses f trace := by
    rw [accesses_snoc, hx]
    exact List.append_nil _
  refine ⟨fun f hf => ?_, fun f hf => ?_, fun p hp f hf => ?_⟩
  · rw [hsame]
    exact h.free f hf
  · obtain ⟨written, ha, y, hy, hle⟩ := h.available f hf
    rw [hsame]
    exact ⟨written, ha, y, List.mem_append_left _ hy, hle⟩
  · rw [hsame]
    exact h.awaited p hp f hf

/-! ## Advancing -/

theorem pendings_advanceTo (s : L0cScoreboard) (tick : Nat) :
    s.pendings = (s.due tick).flatMap s.pendingFragments ++ (s.advanceTo tick).pendings := by
  have hqueue : s.pendingReaderFlags = s.due tick ++ (s.advanceTo tick).pendingReaderFlags :=
    List.takeWhile_append_dropWhile.symm
  rw [pendings, hqueue, List.flatMap_append]
  rfl

theorem flags_advanceTo (h : Flags s) (tick : Nat) : Flags (s.advanceTo tick) := by
  have hsplit := s.pendings_advanceTo tick
  have hnodup := h.nodup
  rw [hsplit] at hnodup
  obtain ⟨-, hrest, hapart⟩ := List.nodup_append'.mp hnodup
  refine ⟨?_, ?_, hrest⟩
  · show s.writerFlags = s.readerFlags ∪ ((s.due tick).flatMap s.pendingFragments).toFinset ∪ _
    rw [h.writer, hsplit, List.toFinset_append, Finset.union_assoc]
  · have hreader := h.apart
    rw [hsplit, List.toFinset_append, Finset.disjoint_union_right] at hreader
    refine Finset.disjoint_union_left.mpr ⟨hreader.2, ?_⟩
    exact List.disjoint_toFinset_iff_disjoint.mpr hapart

theorem history_advanceTo (h : History s trace) (tick : Nat) :
    History (s.advanceTo tick) (trace ++ [(.advance tick, none)]) := by
  have h := h.idle (x := (.advance tick, none)) fun _ => rfl
  refine ⟨h.free, fun f hf => ?_, fun p hp => h.awaited p (List.dropWhile_sublist _ |>.mem hp)⟩
  rcases Finset.mem_union.mp hf with hf | hf
  · exact h.available f hf
  · obtain ⟨p, hp, hfp⟩ := List.mem_flatMap.mp (List.mem_toFinset.mp hf)
    obtain ⟨written, ha, hready⟩ := h.awaited p (List.takeWhile_sublist _ |>.mem hp) f hfp
    have hdue : p.readyTick ≤ tick := by simpa using List.mem_takeWhile_imp hp
    exact ⟨written, ha, _, List.mem_append_right _ (List.mem_singleton_self _), hready ▸ hdue⟩

/-! ## Admissions -/

theorem write_free (hcheck : request.checkUnitFlags = true) (haccess : request.access = .write)
    (h : s.blockedBy request = none) : ∀ f ∈ s.fragmentsOf request, f ∉ s.writerFlags := by
  intro f hf
  simp only [blockedBy, hcheck, haccess, Bool.not_true, Bool.false_eq_true, if_false, Option.map_eq_none_iff,
    List.find?_eq_none, decide_eq_true_eq] at h
  exact h f hf

theorem read_available (hcheck : request.checkUnitFlags = true) (haccess : request.access = .read)
    (h : s.blockedBy request = none) : ∀ f ∈ s.fragmentsOf request, f ∈ s.readerFlags := by
  intro f hf
  simp only [blockedBy, hcheck, haccess, Bool.not_true, Bool.false_eq_true, if_false, Option.map_eq_none_iff,
    List.find?_eq_none, decide_eq_true_eq, not_not] at h
  exact h f hf

/-- The notification that a write at `tick` leaves. -/
def notification (s : L0cScoreboard) (request : L0cFragmentRequest) (tick : Nat) : PendingReadFlags :=
  ⟨tick + s.unitFlagReadLatency, (requestFragments request).1, (requestFragments request).2⟩

/-- The scoreboard after a write at `tick`. -/
def written (s : L0cScoreboard) (request : L0cFragmentRequest) (tick : Nat) : L0cScoreboard :=
  { s with
    writerFlags := s.writerFlags ∪ (s.fragmentsOf request).toFinset
    pendingReaderFlags := s.pendingReaderFlags ++ [s.notification request tick] }

/-- What an admission comes to: nothing, a write or a read. -/
theorem admit_cases (s : L0cScoreboard) (request : L0cFragmentRequest) (htick : tick + s.unitFlagReadLatency < u64)
    (hchecks : request.updateUnitFlags = true → request.checkUnitFlags = true) :
    (∃ answer, s.admitRequest request tick = (.ok answer, s) ∧ (answer = .ok () → request.updateUnitFlags = false)) ∨
    (request.updateUnitFlags = true ∧ request.access = .write ∧ (∀ f ∈ s.fragmentsOf request, f ∉ s.writerFlags) ∧
      s.admitRequest request tick = (.ok (.ok ()), s.written request tick)) ∨
    (request.updateUnitFlags = true ∧ request.access = .read ∧ (∀ f ∈ s.fragmentsOf request, f ∈ s.readerFlags) ∧
      s.admitRequest request tick = (.ok (.ok ()), s.admitRead request)) := by
  unfold admitRequest
  cases hblocked : s.blockedBy request with
  | some blocked => exact .inl ⟨_, rfl, nofun⟩
  | none =>
    cases hupdate : request.updateUnitFlags with
    | false => exact .inl ⟨.ok (), by simp, fun _ => rfl⟩
    | true =>
      have hcheck := hchecks hupdate
      cases haccess : request.access with
      | write =>
        refine .inr (.inl ⟨rfl, rfl, write_free hcheck haccess hblocked, ?_⟩)
        have hready : checkedAdd tick s.unitFlagReadLatency = some (tick + s.unitFlagReadLatency) :=
          checkedAdd_eq_some.mpr ⟨htick, rfl⟩
        simp [hcheck, admitWrite, hready, written, notification]
      | read =>
        refine .inr (.inr ⟨rfl, rfl, read_available hcheck haccess hblocked, ?_⟩)
        simp [hcheck]

theorem pendings_written (s : L0cScoreboard) (request : L0cFragmentRequest) (tick : Nat) :
    (s.written request tick).pendings = s.pendings ++ s.fragmentsOf request := by
  show (s.pendingReaderFlags ++ [s.notification request tick]).flatMap s.pendingFragments = _
  rw [List.flatMap_append, List.flatMap_singleton]
  rfl

theorem flags_written (h : Flags s) (hfits : request.bytes / l0cFragmentBytes ≤ s.fragmentCount)
    (hfree : ∀ f ∈ s.fragmentsOf request, f ∉ s.writerFlags) (tick : Nat) : Flags (s.written request tick) := by
  have hfree' (f : Nat) (hf : f ∈ s.fragmentsOf request) : f ∉ s.readerFlags ∧ f ∉ s.pendings := by
    have hw := hfree f hf
    rw [h.writer, Finset.mem_union, not_or, List.mem_toFinset] at hw
    exact hw
  refine ⟨?_, ?_, ?_⟩
  · rw [pendings_written]
    show s.writerFlags ∪ (s.fragmentsOf request).toFinset = s.readerFlags ∪ _
    rw [h.writer, List.toFinset_append, Finset.union_assoc]
  · rw [pendings_written, List.toFinset_append, Finset.disjoint_union_right]
    refine ⟨h.apart, Finset.disjoint_right.mpr fun f hf => (hfree' f (List.mem_toFinset.mp hf)).1⟩
  · rw [pendings_written]
    exact h.nodup.append (fragments_nodup hfits) (List.disjoint_right.mpr fun f hf => (hfree' f hf).2)

theorem flags_admitRead (h : Flags s) (havailable : ∀ f ∈ s.fragmentsOf request, f ∈ s.readerFlags) :
    Flags (s.admitRead request) := by
  have hapart : Disjoint s.pendings.toFinset (s.fragmentsOf request).toFinset :=
    Finset.disjoint_right.mpr fun f hf => Finset.disjoint_left.mp h.apart (havailable f (List.mem_toFinset.mp hf))
  refine ⟨?_, Finset.disjoint_of_subset_left Finset.sdiff_subset h.apart, h.nodup⟩
  show s.writerFlags \ _ = s.readerFlags \ _ ∪ s.pendings.toFinset
  rw [h.writer, Finset.union_sdiff_distrib, Finset.sdiff_eq_self_of_disjoint hapart]

/-- The accesses of a fragment after an admission that updates. -/
theorem accesses_updated (hupdate : request.updateUnitFlags = true) :
    s.accesses fragment (trace ++ [(.admitRequest request tick, some (.ok (.ok ())))]) =
      s.accesses fragment trace ++ if fragment ∈ s.fragmentsOf request then [(request.access, tick)] else [] := by
  rw [accesses_snoc]
  by_cases hf : fragment ∈ s.fragmentsOf request <;> simp [access, hupdate, hf]

theorem history_written (h : History s trace) (hf : Flags s) (hupdate : request.updateUnitFlags = true)
    (haccess : request.access = .write) (hfree : ∀ f ∈ s.fragmentsOf request, f ∉ s.writerFlags) :
    History (s.written request tick) (trace ++ [(.admitRequest request tick, some (.ok (.ok ())))]) := by
  have hin (f : Nat) (hf : f ∈ s.fragmentsOf request) : s.accesses f (trace ++
      [(.admitRequest request tick, some (.ok (.ok ())))]) = s.accesses f trace ++ [(.write, tick)] := by
    rw [accesses_updated hupdate, if_pos hf, haccess]
  have hout (f : Nat) (hf : f ∉ s.fragmentsOf request) : s.accesses f (trace ++
      [(.admitRequest request tick, some (.ok (.ok ())))]) = s.accesses f trace := by
    rw [accesses_updated hupdate, if_neg hf, List.append_nil]
  have hother (f : Nat) (hw : f ∈ s.writerFlags) : f ∉ s.fragmentsOf request := fun hf => hfree f hf hw
  have hwriter (f : Nat) : f ∈ s.readerFlags ∨ f ∈ s.pendings → f ∈ s.writerFlags := by
    rw [hf.writer, Finset.mem_union, List.mem_toFinset]
    exact id
  refine ⟨fun f hf => ?_, fun f hf => ?_, fun p hp f hfp => ?_⟩
  · obtain ⟨hw, hnot⟩ := not_or.mp (mt Finset.mem_union.mpr hf)
    show Alternates _ (s.accesses f _) none
    rw [hout f (mt List.mem_toFinset.mpr hnot)]
    exact h.free f hw
  · obtain ⟨written, ha, y, hy, hle⟩ := h.available f hf
    refine ⟨written, ?_, y, List.mem_append_left _ hy, hle⟩
    show Alternates _ (s.accesses f _) _
    rw [hout f (hother f (hwriter f (.inl hf)))]
    exact ha
  · rcases List.mem_append.mp hp with hp | hp
    · obtain ⟨written, ha, hready⟩ := h.awaited p hp f hfp
      refine ⟨written, ?_, hready⟩
      show Alternates _ (s.accesses f _) _
      rw [hout f (hother f (hwriter f (.inr (List.mem_flatMap.mpr ⟨p, hp, hfp⟩))))]
      exact ha
    · obtain rfl := List.mem_singleton.mp hp
      refine ⟨tick, ?_, rfl⟩
      show Alternates _ (s.accesses f _) _
      rw [hin f hfp]
      exact (h.free f (hfree f hfp)).write

theorem history_admitRead (h : History s trace) (hf : Flags s) (hupdate : request.updateUnitFlags = true)
    (haccess : request.access = .read) (havailable : ∀ f ∈ s.fragmentsOf request, f ∈ s.readerFlags)
    (hticks : ∀ x ∈ trace, x.1.tick ≤ tick) :
    History (s.admitRead request) (trace ++ [(.admitRequest request tick, some (.ok (.ok ())))]) := by
  have hin (f : Nat) (hf : f ∈ s.fragmentsOf request) : s.accesses f (trace ++
      [(.admitRequest request tick, some (.ok (.ok ())))]) = s.accesses f trace ++ [(.read, tick)] := by
    rw [accesses_updated hupdate, if_pos hf, haccess]
  have hout (f : Nat) (hf : f ∉ s.fragmentsOf request) : s.accesses f (trace ++
      [(.admitRequest request tick, some (.ok (.ok ())))]) = s.accesses f trace := by
    rw [accesses_updated hupdate, if_neg hf, List.append_nil]
  refine ⟨fun f hnot => ?_, fun f hfr => ?_, fun p hp f hfp => ?_⟩
  · show Alternates _ (s.accesses f _) none
    by_cases hmem : f ∈ s.fragmentsOf request
    · obtain ⟨written, ha, y, hy, hle⟩ := h.available f (havailable f hmem)
      rw [hin f hmem]
      exact ha.read (hle.trans (hticks y hy))
    · rw [hout f hmem]
      refine h.free f fun hw => hnot (Finset.mem_sdiff.mpr ⟨hw, mt List.mem_toFinset.mp hmem⟩)
  · obtain ⟨hr, hnot⟩ := Finset.mem_sdiff.mp hfr
    obtain ⟨written, ha, y, hy, hle⟩ := h.available f hr
    refine ⟨written, ?_, y, List.mem_append_left _ hy, hle⟩
    show Alternates _ (s.accesses f _) _
    rw [hout f (mt List.mem_toFinset.mpr hnot)]
    exact ha
  · obtain ⟨written, ha, hready⟩ := h.awaited p hp f hfp
    refine ⟨written, ?_, hready⟩
    show Alternates _ (s.accesses f _) _
    have hpending : f ∈ s.pendings := List.mem_flatMap.mpr ⟨p, hp, hfp⟩
    rw [hout f fun hmem => Finset.disjoint_left.mp hf.apart (havailable f hmem) (List.mem_toFinset.mpr hpending)]
    exact ha

theorem admit_blocked {blocked : L0cUnitFlagBlock} (h : (s.admitRequest request tick).1 = .ok (.error blocked)) :
    (s.admitRequest request tick).2 = s := by
  unfold admitRequest at h ⊢
  cases hblocked : s.blockedBy request with
  | some b => rfl
  | none =>
    simp only [hblocked] at h ⊢
    split_ifs at h ⊢ with hflags
    · rfl
    · cases haccess : request.access with
      | write =>
        simp only [haccess, admitWrite] at h
        cases hready : checkedAdd tick s.unitFlagReadLatency <;> simp [hready] at h
      | read => simp [haccess] at h

theorem admit_without_update (h : request.updateUnitFlags = false) : (s.admitRequest request tick).2 = s := by
  unfold admitRequest
  cases s.blockedBy request with
  | some b => rfl
  | none => simp [h]

/-! ## Every run -/

structure Inv (start : L0cScoreboard) (trace : List (Command × Answer)) (s : L0cScoreboard) : Prop where
  count : s.fragmentCount = start.fragmentCount
  latency : s.unitFlagReadLatency = start.unitFlagReadLatency
  flags : Flags s
  history : History s trace

theorem inv_new {totalBytes latency : Nat} (h : new totalBytes latency = .ok s) :
    s.fragmentCount = totalBytes / l0cFragmentBytes ∧ s.unitFlagReadLatency = latency ∧ Inv s [] s := by
  simp only [new] at h
  split_ifs at h
  cases h
  refine ⟨rfl, rfl, rfl, rfl, ⟨rfl, Finset.disjoint_empty_left _, List.nodup_nil⟩, fun f _ => .nil, ?_, nofun⟩
  intro f hf
  exact absurd hf (Finset.notMem_empty f)

theorem inv_step {start u v : L0cScoreboard} {totalBytes : Nat} {x : Command × Answer} (h : Inv start trace u)
    (hcount : start.fragmentCount = totalBytes / l0cFragmentBytes) (hstep : calls exec u x v)
    (hfits : x.1.Fits totalBytes start.unitFlagReadLatency) (hticks : ∀ y ∈ trace, y.1.tick ≤ x.1.tick) :
    Inv start (trace ++ [x]) v := by
  obtain ⟨command, answer⟩ := x
  cases command with
  | advance tick =>
    cases hstep
    exact ⟨h.count, h.latency, flags_advanceTo h.flags tick, history_advanceTo h.history tick⟩
  | admitRequest request tick =>
    cases hstep
    obtain ⟨hbytes, htick, hchecks⟩ := hfits
    rw [← h.latency] at htick
    have hbytes : request.bytes / l0cFragmentBytes ≤ u.fragmentCount := by
      rw [h.count, hcount]
      exact Nat.div_le_div_right hbytes
    rcases u.admit_cases request htick hchecks with
      ⟨answer, heq, hanswer⟩ | ⟨hupdate, haccess, hfree, heq⟩ | ⟨hupdate, haccess, havailable, heq⟩ <;> rw [heq]
    · refine ⟨h.count, h.latency, h.flags, h.history.idle fun f => ?_⟩
      cases answer with
      | error blocked => rfl
      | ok done => simp [access, hanswer rfl]
    · exact ⟨h.count, h.latency, flags_written h.flags hbytes hfree tick,
        history_written h.history h.flags hupdate haccess hfree⟩
    · exact ⟨h.count, h.latency, flags_admitRead h.flags havailable,
        history_admitRead h.history h.flags hupdate haccess havailable hticks⟩

theorem Valid.before {totalBytes latency : Nat} {commands : List Command} {c : Command}
    (h : Valid totalBytes latency (commands ++ [c])) :
    Valid totalBytes latency commands ∧ (∀ b ∈ commands, b.tick ≤ c.tick) ∧ c.Fits totalBytes latency := by
  have hordered := h.ordered
  rw [Ordered, List.map_append, List.pairwise_append] at hordered
  refine ⟨⟨hordered.1, fun b hb => h.fits b (List.mem_append_left _ hb)⟩, fun b hb => ?_,
    h.fits c (List.mem_append_right _ (List.mem_singleton_self c))⟩
  exact hordered.2.2 _ (List.mem_map_of_mem hb) _ (List.mem_singleton_self _)

theorem run_inv {start : L0cScoreboard} {totalBytes : Nat} (h0 : Inv start [] start)
    (hcount : start.fragmentCount = totalBytes / l0cFragmentBytes) (hrun : Run (calls exec) start trace s)
    (hvalid : Valid totalBytes start.unitFlagReadLatency (trace.map Prod.fst)) : Inv start trace s := by
  refine hrun.inv (I := fun trace s => Valid totalBytes start.unitFlagReadLatency (trace.map Prod.fst) →
    Inv start trace s) (fun _ => h0) (fun trace u x v ih hstep hvalid => ?_) hvalid
  rw [List.map_append] at hvalid
  obtain ⟨hbefore, hticks, hfits⟩ := hvalid.before
  exact inv_step (ih hbefore) hcount hstep hfits fun y hy => hticks _ (List.mem_map_of_mem hy)

/-! ## Calls between admissions -/

/-- Of successive calls of `advance_to` only the last. -/
def collapse : List Command → List Command
  | .advance _ :: .advance tick :: rest => collapse (.advance tick :: rest)
  | c :: rest => c :: collapse rest
  | [] => []

/-- The answers of the admissions. -/
def answers (trace : List (Command × Answer)) : List (Except L0cError (Except L0cUnitFlagBlock Unit)) :=
  trace.filterMap Prod.snd

theorem advanceTo_advanceTo (s : L0cScoreboard) {a b : Nat} (h : a ≤ b) :
    (s.advanceTo a).advanceTo b = s.advanceTo b := by
  have hsplit (l : List PendingReadFlags) : l.takeWhile (fun p => decide (p.readyTick ≤ b)) =
      l.takeWhile (fun p => decide (p.readyTick ≤ a)) ++
        (l.dropWhile fun p => decide (p.readyTick ≤ a)).takeWhile fun p => decide (p.readyTick ≤ b) := by
    induction l with
    | nil => rfl
    | cons p l ih =>
      by_cases hp : p.readyTick ≤ a
      · simp [hp, hp.trans h, ih]
      · simp [hp]
  have hrest (l : List PendingReadFlags) : (l.dropWhile fun p => decide (p.readyTick ≤ a)).dropWhile
      (fun p => decide (p.readyTick ≤ b)) = l.dropWhile fun p => decide (p.readyTick ≤ b) := by
    induction l with
    | nil => rfl
    | cons p l ih =>
      by_cases hp : p.readyTick ≤ a
      · simp [hp, hp.trans h, ih]
      · simp [hp]
  have hreader : s.readerFlags ∪ ((s.due a).flatMap s.pendingFragments).toFinset ∪
      (((s.advanceTo a).due b).flatMap s.pendingFragments).toFinset =
      s.readerFlags ∪ ((s.due b).flatMap s.pendingFragments).toFinset := by
    rw [Finset.union_assoc, ← List.toFinset_append, ← List.flatMap_append]
    exact congrArg (fun l => s.readerFlags ∪ (l.flatMap s.pendingFragments).toFinset) (hsplit _).symm
  show { s with readerFlags := _, pendingReaderFlags := _ } = { s with readerFlags := _, pendingReaderFlags := _ }
  rw [L0cScoreboard.mk.injEq]
  exact ⟨rfl, rfl, rfl, hreader, hrest _⟩

theorem runCalls_collapse (commands : List Command) (h : Ordered commands) (s : L0cScoreboard) :
    answers (runCalls exec s (collapse commands)).1 = answers (runCalls exec s commands).1 ∧
      (runCalls exec s (collapse commands)).2 = (runCalls exec s commands).2 := by
  fun_induction collapse commands generalizing s with
  | case1 first tick rest ih =>
    obtain ⟨hhead, hrest⟩ := List.pairwise_cons.mp h
    have hle : first ≤ tick := hhead tick List.mem_cons_self
    have hsame := s.advanceTo_advanceTo hle
    obtain ⟨hanswers, hstate⟩ := ih hrest s
    rw [hanswers, hstate]
    simp [runCalls, exec, answers, hsame]
  | case2 c rest hne ih =>
    obtain ⟨hanswers, hstate⟩ := ih (List.pairwise_cons.mp h).2 (exec c s).2
    refine ⟨?_, hstate⟩
    simp only [runCalls, answers, List.filterMap_cons] at hanswers ⊢
    rw [hanswers]
  | case3 => exact ⟨rfl, rfl⟩

theorem scoreboard_runs {totalBytes latency : Nat} {start : L0cScoreboard} (hnew : new totalBytes latency = .ok start)
    (hrun : Run (calls exec) start trace s) (hvalid : Valid totalBytes latency (trace.map Prod.fst)) :
    (s.writerFlags = s.readerFlags ∪ s.pendings.toFinset ∧ Disjoint s.readerFlags s.pendings.toFinset ∧
      s.pendings.Nodup) ∧
    (∀ fragment, ∃ unread, Alternates latency (s.accesses fragment trace) unread) ∧
    (∀ request tick,
      (∀ blocked, (s.admitRequest request tick).1 = .ok (.error blocked) → (s.admitRequest request tick).2 = s) ∧
      (request.updateUnitFlags = false → (s.admitRequest request tick).2 = s)) ∧
    (∀ commands commands', Ordered commands → Ordered commands' → collapse commands = collapse commands' →
      answers (runCalls exec s commands).1 = answers (runCalls exec s commands').1 ∧
        (runCalls exec s commands).2 = (runCalls exec s commands').2) := by
  obtain ⟨hcount, rfl, h0⟩ := inv_new hnew
  have h := run_inv h0 hcount hrun hvalid
  refine ⟨⟨h.flags.writer, h.flags.apart, h.flags.nodup⟩, fun f => ?_,
    fun request tick => ⟨fun blocked => admit_blocked, admit_without_update⟩, fun commands commands' hc hc' hsame => ?_⟩
  · rw [← h.latency]
    exact h.history.alternates h.flags f
  · obtain ⟨ha, hs⟩ := runCalls_collapse commands hc s
    obtain ⟨ha', hs'⟩ := runCalls_collapse commands' hc' s
    rw [← ha, ← hs, ← ha', ← hs', hsame]
    exact ⟨rfl, rfl⟩

/-- Both fragments from the second on, which is around the end of the buffer. -/
def wrapped (access : CubeL0cAccess) : L0cFragmentRequest := ⟨512, 1024, access, true, true⟩

def twoFragments (latency : Nat) : L0cScoreboard := ⟨2, latency, ∅, ∅, []⟩

def wrappedRun : List (Command × Answer) × L0cScoreboard :=
  runCalls exec (twoFragments 2) [.admitRequest (wrapped .write) 3, .advance 5, .admitRequest (wrapped .read) 6]

theorem scoreboard_runs_wrapped :
    wrappedRun.2.writerFlags = wrappedRun.2.readerFlags ∪ wrappedRun.2.pendings.toFinset ∧
      ∃ unread, Alternates 2 [(.write, 3), (.read, 6)] unread := by
  have hruns := scoreboard_runs (show new 1024 2 = .ok (twoFragments 2) from rfl)
    (run_runCalls exec (twoFragments 2) [.admitRequest (wrapped .write) 3, .advance 5, .admitRequest (wrapped .read) 6])
    ⟨by decide, by decide⟩
  exact ⟨hruns.1.1, hruns.2.1 0⟩

/-- The admissions among commands. -/
def admissions (commands : List Command) : List Command :=
  commands.filter fun c => match c with | .advance _ => false | .admitRequest _ _ => true

/-- Without a call after the write, a read finds its fragments unavailable. -/
theorem calls_between_differ : ¬ ∀ (totalBytes latency : Nat) (s : L0cScoreboard) (commands commands' : List Command),
    new totalBytes latency = .ok s → Valid totalBytes latency commands → Valid totalBytes latency commands' →
      admissions commands = admissions commands' →
        answers (runCalls exec s commands).1 = answers (runCalls exec s commands').1 := by
  intro h
  have hsame := h 1024 0 (twoFragments 0)
    [.advance 5, .admitRequest (wrapped .write) 5, .admitRequest (wrapped .read) 5]
    [.advance 5, .admitRequest (wrapped .write) 5, .advance 5, .admitRequest (wrapped .read) 5] rfl
    ⟨by decide, by decide⟩
    ⟨by decide, by decide⟩ rfl
  revert hsame
  decide

end L0cScoreboard

end AscendEmulator.C220.Memory
