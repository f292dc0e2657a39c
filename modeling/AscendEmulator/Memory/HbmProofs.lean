/-
  AscendEmulator.Memory.HbmProofs — the HBM allocator's properties (see `AscendEmulator.Memory.Hbm`).

  The spans tile the region and no two free ones touch (`Good`); the allocated ones are the live
  allocations (`Accounted`). Splitting and absorbing keep the tiling and the allocated spans
  (`Same`), so only the rule on free neighbours needs the coalescing of `free`: after it both
  neighbours of the freed span are allocated.
-/

import AscendEmulator.Memory.Hbm

namespace AscendEmulator.Memory.HbmAllocator

open Lib

variable {a a' : HbmAllocator} {pre post l l' : List HbmSpan} {s next : HbmSpan} {base bytes pointer : Nat}

/-! ## One edit of the span list -/

abbrev TilesSpans (lo : Nat) (l : List HbmSpan) (hi : Nat) : Prop := Tiles HbmSpan.base HbmSpan.bytes lo l hi

/-- No two neighbours are both free. -/
def Spaced (l : List HbmSpan) : Prop := l.IsChain fun s next => s.allocated = true ∨ next.allocated = true

/-- The edit covers what was covered, with the same allocated spans. -/
structure Same (l l' : List HbmSpan) : Prop where
  tiles : ∀ lo hi, TilesSpans lo l hi → TilesSpans lo l' hi
  allocated : l'.filter (·.allocated) = l.filter (·.allocated)

theorem Same.refl : Same l l := ⟨fun _ _ h => h, rfl⟩

theorem Same.trans {l'' : List HbmSpan} (h : Same l l') (h' : Same l' l'') : Same l l'' :=
  ⟨fun lo hi ht => h'.tiles lo hi (h.tiles lo hi ht), h'.allocated.trans h.allocated⟩

theorem getElem?_here : (pre ++ s :: post)[pre.length]? = some s := by simp

theorem modify_here (f : HbmSpan → HbmSpan) : (pre ++ s :: post).modify pre.length f = pre ++ f s :: post := by
  induction pre with
  | nil => rfl
  | cons p pre ih => simpa [List.modify_cons] using ih

theorem eraseIdx_here : (pre ++ s :: post).eraseIdx pre.length = pre ++ post := by
  induction pre with
  | nil => rfl
  | cons p pre ih => simpa using ih

theorem insertIdx_after (x : HbmSpan) : (pre ++ s :: post).insertIdx (pre.length + 1) x = pre ++ s :: x :: post := by
  induction pre with
  | nil => rfl
  | cons p pre ih => simpa using ih

theorem isFreeAt_here : isFreeAt (pre ++ s :: post) pre.length = !s.allocated := by
  simp [isFreeAt]

theorem isFreeAt_after : isFreeAt (pre ++ s :: post) (pre.length + 1) = post.head?.any (!·.allocated) := by
  unfold isFreeAt
  rw [List.getElem?_append_right (by omega)]
  cases post <;> simp

theorem absorb_here : absorb (pre ++ s :: next :: post) pre.length =
    pre ++ { s with bytes := s.bytes + next.bytes } :: post := by
  have hnext : (pre ++ s :: next :: post)[pre.length + 1]? = some next := by
    rw [List.getElem?_append_right (by omega)]
    simp
  unfold absorb
  rw [hnext]
  dsimp only
  rw [modify_here]
  generalize { s with bytes := s.bytes + next.bytes } = merged
  have herase : (pre ++ [merged] ++ next :: post).eraseIdx (pre ++ [merged]).length = pre ++ [merged] ++ post :=
    eraseIdx_here
  simpa using herase

theorem absorb_same (pre post : List HbmSpan) (hs : s.allocated = false) (hn : next.allocated = false) :
    Same (pre ++ s :: next :: post) (pre ++ { s with bytes := s.bytes + next.bytes } :: post) := by
  refine ⟨fun lo hi h => ?_, by simp [hs, hn]⟩
  obtain ⟨m, hpre, hbase, hpos, hnbase, hnpos, hpost⟩ := tiles_append.mp h
  refine tiles_append.mpr ⟨m, hpre, hbase, by dsimp only; omega, ?_⟩
  show TilesSpans (m + (s.bytes + next.bytes)) post hi
  rw [← Nat.add_assoc]
  exact hpost

theorem takeSpan_here : takeSpan (pre ++ s :: post) pre.length s bytes =
    pre ++ ⟨s.base, bytes, true⟩ ::
      ((if s.bytes ≠ bytes then [⟨s.base + bytes, s.bytes - bytes, false⟩] else []) ++ post) := by
  unfold takeSpan
  split
  · dsimp only
    rw [insertIdx_after, modify_here]
    rfl
  · dsimp only
    rw [modify_here]
    rfl

/-! ## Free neighbours -/

theorem spaced_free (hs : s.allocated = false) : Spaced (pre ++ s :: post) ↔
    Spaced pre ∧ Spaced post ∧ (∀ p ∈ pre.getLast?, p.allocated = true) ∧ ∀ n ∈ post.head?, n.allocated = true := by
  unfold Spaced
  rw [List.isChain_append, List.isChain_cons]
  simp only [List.head?_cons, Option.mem_some_iff, forall_eq', hs, Bool.false_eq_true, or_false, false_or]
  tauto

theorem spaced_free_cons (hs : s.allocated = false) : Spaced (s :: post) ↔
    Spaced post ∧ ∀ n ∈ post.head?, n.allocated = true := by
  have h : Spaced ([] ++ s :: post) ↔ _ := spaced_free hs
  rw [List.nil_append] at h
  rw [h]
  simp [Spaced]

theorem spaced_allocated (hs : s.allocated = true) : Spaced (pre ++ s :: post) ↔ Spaced pre ∧ Spaced post := by
  unfold Spaced
  rw [List.isChain_append, List.isChain_cons]
  simp only [List.head?_cons, Option.mem_some_iff, forall_eq', hs, or_true, true_or, implies_true, and_true, true_and]

/-- The right half of `coalesce`, for a span whose left neighbour is allocated. -/
theorem absorbRight (pre post : List HbmSpan) (hs : s.allocated = false) (hpre : Spaced pre)
    (hlast : ∀ p ∈ pre.getLast?, p.allocated = true) (hpost : Spaced post) :
    let l := pre ++ s :: post
    let l' := if isFreeAt l (pre.length + 1) then absorb l pre.length else l
    Same l l' ∧ Spaced l' := by
  dsimp only
  rw [isFreeAt_after]
  split
  · rename_i hfree
    cases post with
    | nil => cases hfree
    | cons next post =>
      have hn : next.allocated = false := by simpa using hfree
      rw [absorb_here]
      obtain ⟨hpost', hhead⟩ := (spaced_free_cons hn).mp hpost
      exact ⟨absorb_same pre post hs hn, (spaced_free (by exact hs)).mpr ⟨hpre, hpost', hlast, hhead⟩⟩
  · rename_i hnot
    refine ⟨Same.refl, (spaced_free hs).mpr ⟨hpre, hpost, hlast, fun n hn => ?_⟩⟩
    rw [hn] at hnot
    simpa using hnot

/-- `coalesce` at a freed span leaves no two free neighbours. -/
theorem coalesce_spec (hs : s.allocated = false) (hpre : Spaced pre) (hpost : Spaced post) :
    Same (pre ++ s :: post) (coalesce (pre ++ s :: post) pre.length) ∧
      Spaced (coalesce (pre ++ s :: post) pre.length) := by
  rcases List.eq_nil_or_concat pre with rfl | ⟨pre, p, rfl⟩
  · exact absorbRight [] post hs hpre (fun p hp => by cases hp) hpost
  · have hlist : (pre.concat p) ++ s :: post = pre ++ p :: s :: post := by simp
    have hlen : (pre.concat p).length = pre.length + 1 := by simp
    have hprev : isFreeAt (pre ++ p :: s :: post) pre.length = !p.allocated := isFreeAt_here
    unfold coalesce
    dsimp only
    rw [hlist, hlen, Nat.add_sub_cancel, hprev]
    rw [List.concat_eq_append] at hpre
    cases hp : p.allocated with
    | true =>
      have := absorbRight (pre ++ [p]) post hs hpre (fun q hq => by simp at hq; rw [← hq, hp]) hpost
      simpa using this
    | false =>
      obtain ⟨hpre', -, hlast, -⟩ := (spaced_free hp).mp hpre
      have hmerge := absorb_same pre post hp hs
      have hfree : ({ p with bytes := p.bytes + s.bytes } : HbmSpan).allocated = false := hp
      have hright := absorbRight pre post hfree hpre' hlast hpost
      simp only [Nat.zero_lt_succ, decide_true, Bool.not_false, Bool.and_true, if_true, absorb_here]
      exact ⟨hmerge.trans hright.1, hright.2⟩

/-! ## What one call does -/

structure Good (base bytes : Nat) (a : HbmAllocator) : Prop where
  region : a.regionBytes = bytes
  tiles : TilesSpans base a.spans (base + bytes)
  spaced : Spaced a.spans
  bounded : base + bytes < u64

theorem good_withRegion (h : withRegion base bytes = .ok a) : Good base bytes a ∧ a.spans = [⟨base, bytes, false⟩] := by
  unfold withRegion at h
  split at h
  · cases h
  · rename_i hr
    cases h
    have hend : base + bytes < u64 := by
      rw [checkedAdd_eq_none] at hr
      omega
    exact ⟨⟨rfl, ⟨rfl, by dsimp only; omega, rfl⟩, List.isChain_singleton _, hend⟩, rfl⟩

/-- The span found by a search, with what is before and after it. -/
theorem findIdx?_split {p : HbmSpan → Bool} {l : List HbmSpan} {i : Nat} (h : l.findIdx? p = some i) :
    ∃ pre s post, l = pre ++ s :: post ∧ i = pre.length ∧ p s = true := by
  obtain ⟨hi, hp, -⟩ := List.findIdx?_eq_some_iff_getElem.mp h
  exact ⟨l.take i, l[i], l.drop (i + 1), by simp, by rw [List.length_take]; omega, hp⟩

/-- What an `allocate` that did not fail does. -/
theorem allocate_cases {reserved : Bool} (h : allocate bytes reserved a = (.ok pointer, a')) :
    ∃ pre s post, a.spans = pre ++ s :: post ∧ s.allocated = false ∧ 0 < bytes ∧ bytes ≤ s.bytes ∧ pointer = s.base ∧
      a' = { a with spans := pre ++ ⟨s.base, bytes, true⟩ ::
        ((if s.bytes ≠ bytes then [⟨s.base + bytes, s.bytes - bytes, false⟩] else []) ++ post) } := by
  unfold allocate at h
  split at h
  · cases h
  · rename_i hpos
    split at h
    · cases h
    · split at h
      · cases h
      · rename_i index hfind
        obtain ⟨pre, s, post, hl, rfl, hfits⟩ := findIdx?_split hfind
        rw [hl, getElem?_here] at h
        dsimp only at h
        simp only [fits, Bool.and_eq_true, Bool.not_eq_true', decide_eq_true_eq] at hfits
        split at h
        · cases h
        · obtain ⟨rfl, rfl⟩ := ok_inj h
          exact ⟨pre, s, post, hl, hfits.1, Nat.pos_of_ne_zero hpos, hfits.2, rfl, by rw [takeSpan_here]⟩

/-- What a `free` that did not fail does. -/
theorem free_cases (h : free pointer a = (.ok (), a')) :
    ∃ pre s post, a.spans = pre ++ s :: post ∧ s.allocated = true ∧ s.base = pointer ∧
      a' = { a with spans := coalesce (pre ++ { s with allocated := false } :: post) pre.length } := by
  unfold free at h
  split at h
  · cases h
  · rename_i index hfind
    obtain ⟨pre, s, post, hl, rfl, hbase⟩ := findIdx?_split hfind
    rw [hl, isFreeAt_here] at h
    split at h
    · cases h
    · rename_i halloc
      obtain ⟨-, rfl⟩ := ok_inj h
      exact ⟨pre, s, post, hl, by simpa using halloc, by simpa using hbase, by rw [modify_here]⟩

theorem exec_error {c : HbmCall} {e : HbmAllocationError} (h : exec c a = (.error e, a')) : a' = a := by
  cases c with
  | allocate bytes reserved =>
    have h := reply_error h
    unfold allocate at h
    repeat' split at h
    all_goals simp_all
  | free pointer =>
    have h := reply_error h
    unfold free at h
    repeat' split at h
    all_goals simp_all

/-- Taking a span splits it in two: the tiling stays, and one more span is allocated. -/
theorem Good.allocate {reserved : Bool} (hg : Good base bytes a) {n : Nat}
    (h : allocate n reserved a = (.ok pointer, a')) :
    Good base bytes a' ∧ ∃ pre s post, a.spans = pre ++ s :: post ∧ s.allocated = false ∧ s.base = pointer ∧
      a'.spans.filter (·.allocated) = pre.filter (·.allocated) ++ ⟨pointer, n, true⟩ :: post.filter (·.allocated) := by
  obtain ⟨pre, s, post, hl, hs, hpos, hle, rfl, rfl⟩ := allocate_cases h
  have ht := hg.tiles
  have hsp := hg.spaced
  rw [hl] at ht hsp
  obtain ⟨m, htpre, hbase, hspos, htpost⟩ := tiles_append.mp ht
  obtain ⟨hpre, hpost, -, hhead⟩ := (spaced_free hs).mp hsp
  refine ⟨⟨hg.region, ?_, ?_, hg.bounded⟩, pre, s, post, hl, hs, rfl, ?_⟩
  · refine tiles_append.mpr ⟨m, htpre, hbase, hpos, ?_⟩
    by_cases hexact : s.bytes = n
    · simpa [hexact] using htpost
    · rw [if_pos hexact]
      refine ⟨by dsimp only; omega, by dsimp only; omega, ?_⟩
      have hend : m + n + (s.bytes - n) = m + s.bytes := by omega
      dsimp only
      rw [hend]
      exact htpost
  · refine (spaced_allocated rfl).mpr ⟨hpre, ?_⟩
    split
    · exact (spaced_free_cons rfl).mpr ⟨hpost, hhead⟩
    · exact hpost
  · split <;> simp

/-- Freeing a span and coalescing it keeps the tiling; one span less is allocated. -/
theorem Good.free (hg : Good base bytes a) (h : free pointer a = (.ok (), a')) :
    Good base bytes a' ∧ ∃ pre s post, a.spans = pre ++ s :: post ∧ s.allocated = true ∧ s.base = pointer ∧
      a'.spans.filter (·.allocated) = pre.filter (·.allocated) ++ post.filter (·.allocated) := by
  obtain ⟨pre, s, post, hl, hs, rfl, rfl⟩ := free_cases h
  have ht := hg.tiles
  have hsp := hg.spaced
  rw [hl] at ht hsp
  obtain ⟨hpre, hpost⟩ := (spaced_allocated hs).mp hsp
  obtain ⟨hsame, hspaced⟩ := coalesce_spec (s := { s with allocated := false }) rfl hpre hpost
  refine ⟨⟨hg.region, hsame.tiles _ _ ?_, hspaced, hg.bounded⟩, pre, s, post, hl, hs, rfl, ?_⟩
  · obtain ⟨m, htpre, hs⟩ := tiles_append.mp ht
    exact tiles_append.mpr ⟨m, htpre, hs⟩
  · rw [hsame.allocated]
    simp

/-! ## What a run leaves -/

/-- The allocated spans, as (pointer, size). -/
def allocations (a : HbmAllocator) : List (Nat × Nat) :=
  (a.spans.filter (·.allocated)).map fun s => (s.base, s.bytes)

/-- The state with its history: the allocated spans are the live allocations. -/
structure Accounted (base bytes : Nat) (t : List Event) (a : HbmAllocator) : Prop where
  good : Good base bytes a
  ledger : (live t).Perm (allocations a)

theorem live_snoc (t : List Event) (e : Event) : live (t ++ [e]) = account (live t) e := by
  simp [live]

/-- A tiling has one span for each base. -/
theorem base_ne {lo hi : Nat} (h : TilesSpans lo (pre ++ s :: post) hi) :
    (∀ x ∈ pre, x.base ≠ s.base) ∧ ∀ x ∈ post, x.base ≠ s.base := by
  have hn := h.start_nodup
  rw [List.map_append, List.map_cons] at hn
  obtain ⟨-, hs, hd⟩ := List.nodup_append.mp hn
  refine ⟨fun x hx => hd _ (List.mem_map_of_mem hx) _ (List.mem_cons_self ..), fun x hx he => ?_⟩
  exact (List.nodup_cons.mp hs).1 (he ▸ List.mem_map_of_mem hx)

/-- Dropping the pointer of an allocated span drops that span alone. -/
theorem filter_allocations {lo hi : Nat} (h : TilesSpans lo a.spans hi) (hl : a.spans = pre ++ s :: post) :
    (allocations a).filter (fun e => e.1 ≠ s.base) =
      ((pre.filter (·.allocated)) ++ post.filter (·.allocated)).map fun s => (s.base, s.bytes) := by
  rw [hl] at h
  obtain ⟨hpre, hpost⟩ := base_ne h
  have hkeep : ∀ l : List HbmSpan, (∀ x ∈ l, x.base ≠ s.base) →
      ((l.filter (·.allocated)).map fun s => (s.base, s.bytes)).filter (fun e => e.1 ≠ s.base) =
        (l.filter (·.allocated)).map fun s => (s.base, s.bytes) := by
    intro l hne
    refine List.filter_eq_self.mpr fun e he => ?_
    obtain ⟨x, hx, rfl⟩ := List.mem_map.mp he
    exact decide_eq_true (hne x (List.mem_of_mem_filter hx))
  have hsplit : (allocations a).filter (fun e => e.1 ≠ s.base) =
      ((pre.filter (·.allocated)).map fun s => (s.base, s.bytes)).filter (fun e => e.1 ≠ s.base) ++
        ((post.filter (·.allocated)).map fun s => (s.base, s.bytes)).filter (fun e => e.1 ≠ s.base) := by
    rw [allocations, hl, List.filter_append, List.map_append, List.filter_append, List.filter_cons]
    split <;> simp
  rw [hsplit, hkeep pre hpre, hkeep post hpost, List.map_append]

theorem Accounted.exec {t : List Event} {c : HbmCall} {r : Except HbmAllocationError HbmReply}
    (h : Accounted base bytes t a) (he : exec c a = (r, a')) : Accounted base bytes (t ++ [(c, r)]) a' := by
  cases r with
  | error e =>
    obtain rfl := exec_error he
    refine ⟨h.good, ?_⟩
    rw [live_snoc]
    cases c <;> exact h.ledger
  | ok r =>
    cases c with
    | allocate n reserved =>
      obtain ⟨pointer, hp, rfl⟩ := reply_ok he
      obtain ⟨hg, pre, s, post, hl, hs, -, hfilter⟩ := h.good.allocate hp
      refine ⟨hg, ?_⟩
      have hbefore : allocations a = (pre.filter (·.allocated) ++ post.filter (·.allocated)).map fun s => (s.base, s.bytes) := by
        rw [allocations, hl]
        simp [hs]
      rw [live_snoc, allocations, hfilter]
      show (live t ++ [(pointer, n)]).Perm _
      refine (h.ledger.append_right _).trans ?_
      rw [hbefore, List.map_append, List.map_append, List.map_cons, List.append_assoc]
      exact List.Perm.append_left _ (List.perm_append_comm.trans (List.Perm.refl _))
    | free pointer =>
      obtain ⟨⟨⟩, hp, rfl⟩ := reply_ok he
      obtain ⟨hg, pre, s, post, hl, hs, rfl, hfilter⟩ := h.good.free hp
      refine ⟨hg, ?_⟩
      rw [live_snoc, allocations, hfilter]
      show ((live t).filter fun e => e.1 ≠ s.base).Perm _
      rw [← filter_allocations h.good.tiles hl]
      exact h.ledger.filter _

theorem run_accounted {t : List Event} {a₀ : HbmAllocator} (h₀ : withRegion base bytes = .ok a₀)
    (h : Run (calls exec) a₀ t a) : Accounted base bytes t a := by
  refine h.inv ?_ fun _ _ _ _ hu ha => hu.exec ha
  obtain ⟨hg, hs⟩ := good_withRegion h₀
  exact ⟨hg, by simp [live, allocations, hs]⟩

/-! ## What runs promise -/

/-- A range of the region without an allocated byte lies in one free span. -/
theorem free_range (hg : Good base bytes a) {x n : Nat} (hx : base ≤ x) (hn : 0 < n) (hend : x + n ≤ base + bytes)
    (hfree : ∀ s ∈ a.spans, s.allocated = true → x + n ≤ s.base ∨ s.base + s.bytes ≤ x) :
    ∃ s ∈ a.spans, s.allocated = false ∧ s.base ≤ x ∧ x + n ≤ s.base + s.bytes := by
  obtain ⟨s, hs, hsx⟩ := hg.tiles.covers.mpr ⟨hx, show x < base + bytes by omega⟩
  have hsfree : s.allocated = false := by
    by_contra ha
    have := hfree s hs (by simpa using ha)
    omega
  refine ⟨s, hs, hsfree, hsx.1, ?_⟩
  by_contra hlt
  -- the span after this one begins inside the range, and is allocated
  obtain ⟨pre, post, hl⟩ := List.append_of_mem hs
  have ht := hg.tiles
  have hsp := hg.spaced
  rw [hl] at ht hsp
  obtain ⟨m, -, hbase, -, hpost⟩ := tiles_append.mp ht
  obtain ⟨-, -, -, hhead⟩ := (spaced_free hsfree).mp hsp
  cases post with
  | nil =>
    have : m + s.bytes = base + bytes := hpost
    omega
  | cons next post =>
    have hnext : next.allocated = true := hhead next (by simp)
    have := hfree next (by rw [hl]; simp) hnext
    have := hpost.1
    have := hpost.2.1
    omega

/-- `OutOfMemory` means that no range of the region of that size is free. -/
theorem outOfMemory_full (hg : Good base bytes a) {n m x : Nat} {reserved : Bool}
    (h : allocate n reserved a = (.error (.outOfMemory m), a')) (hx : base ≤ x) (hend : x + n ≤ base + bytes) :
    ∃ s ∈ a.spans, s.allocated = true ∧ s.base < x + n ∧ x < s.base + s.bytes := by
  have hnone : 0 < n ∧ ∀ s ∈ a.spans, s.allocated = false → s.bytes < n := by
    unfold allocate at h
    split at h
    · cases h
    · rename_i hpos
      refine ⟨Nat.pos_of_ne_zero hpos, fun s hs hfree => ?_⟩
      split at h
      · cases h
      · split at h
        · rename_i hfind
          have := List.findIdx?_eq_none_iff.mp hfind s hs
          simpa [fits, hfree] using this
        · rename_i index hfind
          obtain ⟨pre, s, post, hl, rfl, -⟩ := findIdx?_split hfind
          rw [hl, getElem?_here] at h
          dsimp only at h
          split at h <;> cases h
  by_contra hno
  have hfree : ∀ s ∈ a.spans, s.allocated = true → x + n ≤ s.base ∨ s.base + s.bytes ≤ x := by
    intro s hs ha
    by_contra hcross
    exact hno ⟨s, hs, ha, by omega, by omega⟩
  obtain ⟨s, hs, hsfree, h₁, h₂⟩ := free_range hg hx hnone.1 hend hfree
  have := hnone.2 s hs hsfree
  omega

/-- The pointer of an allocated span can be freed. -/
theorem free_some (hg : Good base bytes a) (hs : s ∈ a.spans) (ha : s.allocated = true) :
    ∃ a', free s.base a = (.ok (), a') := by
  unfold free
  split
  · rename_i hnone
    exact absurd (List.findIdx?_eq_none_iff.mp hnone s hs) (by simp)
  · rename_i index hfind
    obtain ⟨pre, r, post, hl, rfl, hbase⟩ := findIdx?_split hfind
    have ht := hg.tiles
    rw [hl] at ht hs
    obtain ⟨hpre, hpost⟩ := base_ne ht
    simp only [decide_eq_true_eq] at hbase
    have hr : r = s := by
      rcases List.mem_append.mp hs with hm | hm
      · exact absurd hbase.symm (hpre s hm)
      · rcases List.mem_cons.mp hm with rfl | hm
        · rfl
        · exact absurd hbase.symm (hpost s hm)
    rw [hl, isFreeAt_here, hr, ha]
    exact ⟨_, rfl⟩

/-- With nothing allocated the region is one free span. -/
theorem spans_of_empty (hg : Good base bytes a) (hb : 0 < bytes) (h : a.spans.filter (·.allocated) = []) :
    a = { regionBytes := bytes, spans := [⟨base, bytes, false⟩] } := by
  obtain ⟨region, spans⟩ := a
  obtain rfl : region = bytes := hg.region
  have hfree : ∀ s ∈ spans, s.allocated = false := fun s hs => by
    simpa using List.filter_eq_nil_iff.mp h s hs
  have ht := hg.tiles
  have hsp := hg.spaced
  match spans with
  | [] =>
    have : base = base + region := ht
    omega
  | [s] =>
    obtain ⟨hbase, -, hend⟩ := ht
    have hend : base + s.bytes = base + region := hend
    have hs := hfree s (List.mem_singleton_self s)
    congr
    rw [← hs, ← hbase, show region = s.bytes by omega]
  | s :: next :: rest =>
    have h₁ := hfree s (by simp)
    have h₂ := hfree next (by simp)
    rcases (List.isChain_cons_cons.mp hsp).1 with hc | hc <;> simp_all

/-- Freeing the live pointers, in any order, gives back the whole region. -/
theorem freeAll_restores (hb : 0 < bytes) (ps : List Nat) (hg : Good base bytes a)
    (hp : ps.Perm ((a.spans.filter (·.allocated)).map (·.base))) :
    freeAll ps a = (.ok (), { regionBytes := bytes, spans := [⟨base, bytes, false⟩] }) := by
  induction ps generalizing a with
  | nil =>
    have hnone : a.spans.filter (·.allocated) = [] := by simpa using hp
    rw [freeAll, spans_of_empty hg hb hnone]
  | cons p ps ih =>
    obtain ⟨s, hs, rfl⟩ := List.mem_map.mp (hp.mem_iff.mp (List.mem_cons_self ..))
    obtain ⟨hs, ha⟩ := List.mem_filter.mp hs
    obtain ⟨a', he⟩ := free_some hg hs ha
    obtain ⟨hg', pre, r, post, hl, hr, hbase, hfilter⟩ := hg.free he
    have hrest : ps.Perm ((a'.spans.filter (·.allocated)).map (·.base)) := by
      rw [hl, List.filter_append, List.filter_cons, if_pos hr, List.map_append, List.map_cons, hbase] at hp
      rw [hfilter, List.map_append]
      exact (hp.trans List.perm_middle).cons_inv
    rw [freeAll, Call.bind, he]
    exact ih hg' hrest

/-- Two (pointer, size) ranges have no byte in common. -/
def Disjoint (x y : Nat × Nat) : Prop := x.1 + x.2 ≤ y.1 ∨ y.1 + y.2 ≤ x.1

theorem allocations_disjoint (hg : Good base bytes a) : (allocations a).Pairwise Disjoint := by
  rw [allocations, List.pairwise_map]
  exact (hg.tiles.pairwise.filter _).imp fun h => .inl h

/-- Every run on a region `with_region` accepts: the spans are nonempty, in order and cover
    exactly the region; of two neighbours one is allocated; the allocated spans are the live
    allocations, each of the size asked for, and disjoint; `allocate` is out of memory only when
    every range of that size meets an allocation; a failing call changes nothing; and freeing
    the live pointers in any order gives back the initial allocator. -/
theorem hbm_spans_exact (base bytes : Nat) {a₀ a : HbmAllocator} {t : List Event}
    (h₀ : withRegion base bytes = .ok a₀) (h : Run (calls exec) a₀ t a) :
    base + bytes < u64 ∧
      ((∀ s ∈ a.spans, 0 < s.bytes) ∧ a.spans.Pairwise (fun s next => s.base + s.bytes ≤ next.base) ∧
        ∀ i, (∃ s ∈ a.spans, s.base ≤ i ∧ i < s.base + s.bytes) ↔ base ≤ i ∧ i < base + bytes) ∧
      (∀ i s next, a.spans[i]? = some s → a.spans[i + 1]? = some next → s.allocated = true ∨ next.allocated = true) ∧
      ((live t).Perm (allocations a) ∧ (live t).Pairwise Disjoint) ∧
      (∀ n reserved m a', allocate n reserved a = (.error (.outOfMemory m), a') →
        ∀ x, base ≤ x → x + n ≤ base + bytes →
          ∃ s ∈ a.spans, s.allocated = true ∧ s.base < x + n ∧ x < s.base + s.bytes) ∧
      (∀ c e a', exec c a = (.error e, a') → a' = a) ∧
      ∀ ps : List Nat, ps.Perm ((live t).map Prod.fst) → freeAll ps a = (.ok (), a₀) := by
  have hacc := run_accounted h₀ h
  have hg := hacc.good
  obtain ⟨hg₀, hs₀⟩ := good_withRegion h₀
  have hb : 0 < bytes := by
    have := hg₀.tiles
    rw [hs₀] at this
    exact this.2.1
  refine ⟨hg.bounded, ⟨fun s hs => (hg.tiles.bounds hs).2.1, hg.tiles.pairwise, fun i => hg.tiles.covers⟩, ?_, ?_, ?_,
    fun c e a' he => exec_error he, ?_⟩
  · intro i s next hs hn
    obtain ⟨hi, rfl⟩ := List.getElem?_eq_some_iff.mp hs
    obtain ⟨hj, rfl⟩ := List.getElem?_eq_some_iff.mp hn
    exact List.isChain_iff_getElem.mp hg.spaced i hj
  · refine ⟨hacc.ledger, ?_⟩
    have hsymm : ∀ {x y}, Disjoint x y → Disjoint y x := fun hd => hd.symm
    exact (List.Perm.pairwise_iff hsymm hacc.ledger).mpr (allocations_disjoint hg)
  · intro n reserved m a' he x hx hend
    exact outOfMemory_full hg he hx hend
  · intro ps hp
    have hbases : (allocations a).map Prod.fst = (a.spans.filter (·.allocated)).map (·.base) := by
      simp [allocations]
    rw [freeAll_restores hb ps hg (hbases ▸ hp.trans (hacc.ledger.map _))]
    obtain ⟨region, spans⟩ := a₀
    obtain rfl : region = bytes := hg₀.region
    obtain rfl : spans = _ := hs₀
    rfl

/-- Three allocations, a free in the middle, a first fit in the hole and a double free. -/
def refilledHole : List HbmCall :=
  [.allocate 32 true, .allocate 64 true, .allocate 16 true, .free 132, .allocate 48 true, .free 132, .free 132]

theorem hbm_spans_exact_refilled_hole :
    freeAll [196, 100] (runCalls exec ⟨1000, [⟨100, 1000, false⟩]⟩ refilledHole).2 =
      (.ok (), ⟨1000, [⟨100, 1000, false⟩]⟩) :=
  (hbm_spans_exact 100 1000 rfl (run_runCalls exec ⟨1000, [⟨100, 1000, false⟩]⟩ refilledHole)).2.2.2.2.2.2 [196, 100]
    (by decide)

end AscendEmulator.Memory.HbmAllocator
