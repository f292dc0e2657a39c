/-
  AscendEmulator.Memory.PvMemoryProofs — the paged store is one map from addresses to bytes, and a range
  that resolves lies in one live allocation.

  `chunks_spec` says what the chunk loop of a transfer passes; reading and writing are then one fact each
  about `readByte` (`readInto_eq`, `write_ok`).
-/

import AscendEmulator.Memory.HbmProofs
import AscendEmulator.Memory.PvMemory

namespace AscendEmulator.Memory

open Lib Outcome

theorem pvPageBytes_pos : 0 < pvPageBytes := by decide

theorem sub_pageBase (address : Nat) : address - pageBase address = address % pvPageBytes := by
  have := Nat.div_add_mod' address pvPageBytes
  unfold pageBase
  omega

theorem pageBase_add_mod (address : Nat) : pageBase address + address % pvPageBytes = address :=
  Nat.div_add_mod' address pvPageBytes

/-- Addresses from `address` to the end of its page have its base. -/
theorem pageBase_shift {address i : Nat} (h : address % pvPageBytes + i < pvPageBytes) :
    pageBase (address + i) = pageBase address ∧ (address + i) % pvPageBytes = address % pvPageBytes + i := by
  have hmod : (address + i) % pvPageBytes = address % pvPageBytes + i := by
    rw [Nat.add_mod, Nat.mod_eq_of_lt (show i < pvPageBytes by omega), Nat.mod_eq_of_lt h]
  have h₁ := pageBase_add_mod address
  have h₂ := pageBase_add_mod (address + i)
  exact ⟨by omega, hmod⟩

namespace PvMemory

variable {m m' : PvMemory} {address length done turns : Nat} {source : List UInt8}

/-! ## Chunks -/

/-- The chunk is the part of the transfer that lies in its page. -/
structure Chunk.Fits (address length : Nat) (chunk : Chunk) : Prop where
  base : chunk.base = pageBase (address + chunk.done)
  offset : chunk.offset = (address + chunk.done) % pvPageBytes
  page : chunk.offset + chunk.count ≤ pvPageBytes
  buffer : chunk.done + chunk.count ≤ length

theorem Chunk.Fits.inBounds {chunk : Chunk} (h : Chunk.Fits address length chunk) : Chunk.inBounds chunk length = true := by
  simp [Chunk.inBounds, h.page, h.buffer]

/-- Byte `i` of the transfer is byte `i - done` of the chunk. -/
theorem Chunk.Fits.at {chunk : Chunk} (h : Chunk.Fits address length chunk) {i : Nat} (hi : i < chunk.count) :
    pageBase (address + (chunk.done + i)) = chunk.base ∧ (address + (chunk.done + i)) % pvPageBytes = chunk.offset + i := by
  rw [h.base, h.offset, ← Nat.add_assoc]
  have hpage := h.page
  rw [h.offset] at hpage
  exact pageBase_shift (by omega)

theorem chunksFrom_spec (hfits : address + length < u64) (hturns : length - done ≤ turns) (hdone : done ≤ length) :
    ∃ l, chunksFrom address length turns done = .ok l ∧ Tiles Chunk.done Chunk.count done l length ∧
      ∀ chunk ∈ l, Chunk.Fits address length chunk := by
  induction turns generalizing done with
  | zero =>
    refine ⟨[], by rw [chunksFrom, if_neg (by omega)], ?_, nofun⟩
    change done = length
    omega
  | succ turns ih =>
    rw [chunksFrom]
    by_cases hlt : done < length
    · rw [if_pos hlt]
      have hmod : (address + done) % pvPageBytes < pvPageBytes := Nat.mod_lt _ pvPageBytes_pos
      set count := min (pvPageBytes - (address + done) % pvPageBytes) (length - done) with hcount
      have hchunk : chunkAt address length done =
          .ok ⟨pageBase (address + done), (address + done) % pvPageBytes, done, count⟩ := by
        rw [chunkAt, plainAdd_bind (by omega), hcount, ← sub_pageBase]
      have hpos : 0 < count := by omega
      obtain ⟨rest, hrest, htiles, hall⟩ := @ih (done + count) (by omega) (by omega)
      refine ⟨⟨pageBase (address + done), (address + done) % pvPageBytes, done, count⟩ :: rest, ?_,
        ⟨rfl, hpos, htiles⟩, ?_⟩
      · simp only [hchunk]
        change (chunksFrom address length turns (done + count) >>= _) = _
        rw [hrest]
        rfl
      · intro chunk hc
        rcases List.mem_cons.mp hc with rfl | hc
        · exact ⟨rfl, rfl, by dsimp only; omega, by dsimp only; omega⟩
        · exact hall chunk hc
    · refine ⟨[], by rw [if_neg hlt], ?_, nofun⟩
      change done = length
      omega

theorem chunks_spec (hfits : address + length < u64) :
    ∃ l, chunks address length = .ok l ∧ Tiles Chunk.done Chunk.count 0 l length ∧
      ∀ chunk ∈ l, Chunk.Fits address length chunk :=
  chunksFrom_spec hfits (by omega) (by omega)

theorem checkRange_ok (hfits : address + length < u64) : checkRange address length = .ok () := by
  unfold checkRange
  split
  · rfl
  · rw [checkedAdd_eq_some.mpr ⟨by omega, rfl⟩]
    rfl

/-! ## Reading -/

theorem readByte_page (m : PvMemory) (address : Nat) :
    m.readByte address = m.page (pageBase address) (address % pvPageBytes) := by
  rw [readByte, sub_pageBase]

theorem readChunk_eq {chunk : Chunk} (h : Chunk.Fits address length chunk) :
    m.readChunk length chunk = .ok ((List.range' chunk.done chunk.count).map fun i => m.readByte (address + i)) := by
  rw [readChunk, if_pos h.inBounds, List.range'_eq_map_range, List.map_map]
  congr 1
  refine List.map_congr_left fun i hi => ?_
  obtain ⟨hbase, hoffset⟩ := h.at (List.mem_range.mp hi)
  rw [Function.comp_apply, readByte_page, hbase, hoffset]

theorem mapM_readChunk {l : List Chunk} (ht : Tiles Chunk.done Chunk.count done l length)
    (hall : ∀ chunk ∈ l, Chunk.Fits address length chunk) :
    ∃ parts, l.mapM (m.readChunk length) = .ok parts ∧
      parts.flatten = (List.range' done (length - done)).map fun i => m.readByte (address + i) := by
  induction l generalizing done with
  | nil =>
    obtain rfl : done = length := ht
    exact ⟨[], rfl, by simp⟩
  | cons chunk l ih =>
    obtain ⟨hstart, hpos, ht⟩ := ht
    obtain ⟨parts, hparts, hflat⟩ := ih ht fun c hc => hall c (by simp [hc])
    refine ⟨((List.range' chunk.done chunk.count).map fun i => m.readByte (address + i)) :: parts, ?_, ?_⟩
    · rw [List.mapM_cons, readChunk_eq (hall chunk (by simp)), hparts]
      rfl
    · have hle := ht.le
      rw [List.flatten_cons, hflat, hstart, ← List.map_append]
      congr 1
      rw [show length - done = chunk.count + (length - (done + chunk.count)) by omega, List.range'_append_1]

/-- A read returns the bytes at the addresses of its range. -/
theorem readInto_eq (hfits : address + length < u64) :
    m.readInto address length = .ok ((List.range length).map fun i => m.readByte (address + i)) := by
  obtain ⟨l, hl, ht, hall⟩ := chunks_spec hfits
  obtain ⟨parts, hparts, hflat⟩ := mapM_readChunk (m := m) ht hall
  unfold readInto
  rw [checkRange_ok hfits, hl]
  change (l.mapM (m.readChunk length) >>= _) = _
  rw [hparts]
  change Except.ok parts.flatten = _
  rw [hflat, Nat.sub_zero, List.range_eq_range']

/-! ## Writing -/

theorem copyChunk_ok {chunk : Chunk} (h : Chunk.Fits address source.length chunk) :
    ∃ m', copyChunk source chunk m = .ok m' ∧ ∀ a, m'.readByte a =
      if address + chunk.done ≤ a ∧ a < address + (chunk.done + chunk.count) then source.getD (a - address) 0
      else m.readByte a := by
  refine ⟨_, by rw [copyChunk, if_pos h.inBounds], fun a => ?_⟩
  simp only [readByte_page, page, OrdMap.get?_insert]
  by_cases hbase : pageBase a = chunk.base
  · rw [if_pos hbase, Option.getD_some]
    have ha := pageBase_add_mod a
    have hfirst := pageBase_add_mod (address + chunk.done)
    rw [← h.base, ← h.offset] at hfirst
    by_cases hin : chunk.offset ≤ a % pvPageBytes ∧ a % pvPageBytes < chunk.offset + chunk.count
    · rw [if_pos hin, if_pos (by omega)]
      congr 1
      omega
    · rw [if_neg hin, if_neg (by omega), hbase]
  · rw [if_neg hbase, if_neg]
    rintro ⟨hle, hlt⟩
    have hshift := (h.at (i := a - (address + chunk.done)) (by omega)).1
    rw [show address + (chunk.done + (a - (address + chunk.done))) = a by omega] at hshift
    exact hbase hshift

theorem foldlM_copyChunk {l : List Chunk} (ht : Tiles Chunk.done Chunk.count done l source.length)
    (hall : ∀ chunk ∈ l, Chunk.Fits address source.length chunk) (m : PvMemory) :
    ∃ m', l.foldlM (fun m chunk => copyChunk source chunk m) m = .ok m' ∧ ∀ a, m'.readByte a =
      if address + done ≤ a ∧ a < address + source.length then source.getD (a - address) 0 else m.readByte a := by
  induction l generalizing done m with
  | nil =>
    obtain rfl : done = source.length := ht
    exact ⟨m, rfl, fun a => by rw [if_neg (by omega)]⟩
  | cons chunk l ih =>
    obtain ⟨hstart, hpos, ht⟩ := ht
    obtain ⟨m₁, hm₁, hread⟩ := copyChunk_ok (m := m) (hall chunk (by simp))
    obtain ⟨m₂, hm₂, hread₂⟩ := ih ht (fun c hc => hall c (by simp [hc])) m₁
    refine ⟨m₂, ?_, fun a => ?_⟩
    · rw [List.foldlM_cons, hm₁]
      exact hm₂
    · have hle := ht.le
      rw [hread₂ a, hread a, hstart]
      by_cases h₁ : address + (done + chunk.count) ≤ a ∧ a < address + source.length
      · rw [if_pos h₁, if_pos (by omega)]
      · rw [if_neg h₁]
        by_cases h₂ : address + done ≤ a ∧ a < address + (done + chunk.count)
        · rw [if_pos h₂, if_pos (by omega)]
        · rw [if_neg h₂, if_neg (by omega)]

theorem pageBudgetFrom_safe {base lastBase missing : Nat} (hle : base ≤ lastBase) (hlast : lastBase < u64)
    (hstep : base + (turns - 1) * pvPageBytes = lastBase) (hturns : 0 < turns) :
    Safe (m.pageBudgetFrom lastBase turns base missing) := by
  induction turns generalizing base missing with
  | zero => omega
  | succ turns ih =>
    rw [pageBudgetFrom]
    refine (safe_failIf _ _).bind fun _ _ => ?_
    split
    · exact safe_ok ()
    · rename_i hne
      have hpos : 0 < turns := by
        rcases Nat.eq_zero_or_pos turns with rfl | hpos
        · simp at hstep
          omega
        · exact hpos
      obtain ⟨k, rfl⟩ := Nat.exists_eq_add_of_lt hpos
      have hnext : base + pvPageBytes ≤ lastBase := by
        simp only [Nat.zero_add, Nat.add_sub_cancel, Nat.add_mul] at hstep
        omega
      rw [plainAdd_bind (by omega)]
      refine ih hnext ?_ hpos
      simp only [Nat.zero_add, Nat.add_sub_cancel, Nat.add_mul] at hstep ⊢
      omega

theorem checkPageBudget_safe (hfits : address + length < u64) : Safe (m.checkPageBudget address length) := by
  unfold checkPageBudget
  split
  · exact safe_ok ()
  · rename_i hlength
    rw [plainAdd_bind hfits]
    have hmono : address / pvPageBytes ≤ (address + length - 1) / pvPageBytes := Nat.div_le_div_right (by omega)
    have hle : pageBase address ≤ pageBase (address + length - 1) := Nat.mul_le_mul_right _ hmono
    have hlast := pageBase_add_mod (address + length - 1)
    refine pageBudgetFrom_safe hle (by omega) ?_ (Nat.succ_pos _)
    unfold pageBase at hle ⊢
    rw [Nat.add_sub_cancel, ← Nat.sub_mul, Nat.mul_div_cancel _ pvPageBytes_pos, ← Nat.add_mul]
    congr 1
    omega

/-- A write that succeeds changes the bytes of its range, and no others. -/
theorem write_ok (hfits : address + source.length < u64) (h : m.write address source = .ok m') (a : Nat) :
    m'.readByte a = if address ≤ a ∧ a < address + source.length then source.getD (a - address) 0 else m.readByte a := by
  obtain ⟨l, hl, ht, hall⟩ := chunks_spec hfits
  obtain ⟨m₁, hm₁, hread⟩ := foldlM_copyChunk ht hall m
  unfold write at h
  obtain ⟨_, -, h⟩ := bind_ok.mp h
  obtain ⟨_, -, h⟩ := bind_ok.mp h
  obtain ⟨l', hl', h⟩ := bind_ok.mp h
  obtain rfl : l = l' := Except.ok.inj (hl.symm.trans hl')
  obtain rfl : m₁ = m' := Except.ok.inj (hm₁.symm.trans h)
  exact hread a

theorem write_safe (hfits : address + source.length < u64) : Safe (m.write address source) := by
  obtain ⟨l, hl, ht, hall⟩ := chunks_spec hfits
  obtain ⟨m₁, hm₁, -⟩ := foldlM_copyChunk ht hall m
  unfold write
  rw [checkRange_ok hfits]
  refine (safe_ok ()).bind fun _ _ => (checkPageBudget_safe hfits).bind fun _ _ => ?_
  rw [hl]
  change Safe (l.foldlM _ m)
  rw [hm₁]
  exact safe_ok m₁

end PvMemory

/-! ## Live ranges -/

namespace HbmAllocator

variable {a a' : HbmAllocator} {base bytes address len pointer : Nat}

theorem Good.span_end (hg : Good base bytes a) {s : HbmSpan} (hs : s ∈ a.spans) : s.base + s.bytes < u64 := by
  have := (hg.tiles.bounds hs).2.2
  have := hg.bounded
  omega

variable {found : HbmSpan} {span : HbmResolvedSpan} {l : List HbmSpan}

theorem findLive_isOk (address stop : Nat) (hl : ∀ s ∈ l, s.base + s.bytes < u64) :
    ∃ found, findLive address stop l = .ok found := by
  induction l with
  | nil => exact ⟨none, rfl⟩
  | cons s l ih =>
    have hrest := ih fun s' hs' => hl s' (by simp [hs'])
    rw [findLive]
    split
    · rw [plainAdd_bind (hl s (by simp))]
      split
      · exact ⟨some s, rfl⟩
      · exact hrest
    · exact hrest

theorem findLive_some {stop : Nat} (h : findLive address stop l = .ok (some found)) :
    found ∈ l ∧ found.allocated = true ∧ found.base ≤ address ∧ stop ≤ found.base + found.bytes := by
  induction l with
  | nil => cases h
  | cons s l ih =>
    rw [findLive] at h
    split at h
    · rename_i hs
      obtain ⟨last, hlast, h⟩ := bind_ok.mp h
      obtain ⟨-, rfl⟩ := checkedAdd_eq_some.mp (expect_ok.mp hlast)
      split at h
      · rename_i hstop
        cases h
        simp only [Bool.and_eq_true, decide_eq_true_eq] at hs
        exact ⟨by simp, hs.1, hs.2, hstop⟩
      · obtain ⟨hmem, hrest⟩ := ih h
        exact ⟨by simp [hmem], hrest⟩
    · obtain ⟨hmem, hrest⟩ := ih h
      exact ⟨by simp [hmem], hrest⟩

theorem findLive_none {stop : Nat} (h : findLive address stop l = .ok none) {s : HbmSpan} (hs : s ∈ l)
    (ha : s.allocated = true) (hbase : s.base ≤ address) : s.base + s.bytes < stop := by
  induction l with
  | nil => cases hs
  | cons s' l ih =>
    rw [findLive] at h
    split at h
    · obtain ⟨last, hlast, h⟩ := bind_ok.mp h
      obtain ⟨-, rfl⟩ := checkedAdd_eq_some.mp (expect_ok.mp hlast)
      split at h
      · cases h
      · rename_i hstop
        rcases List.mem_cons.mp hs with rfl | hs
        · omega
        · exact ih h hs
    · rename_i hnot
      rcases List.mem_cons.mp hs with rfl | hs
      · simp [ha, hbase] at hnot
      · exact ih h hs

theorem Good.resolveLive_safe (hg : Good base bytes a) : Safe (a.resolveLive address len) := by
  refine (safe_failIf _ _).bind fun _ _ => (safe_okOr _ _).bind fun stop _ => ?_
  obtain ⟨found, hfound⟩ := findLive_isOk address stop fun s hs => hg.span_end (a := a) hs
  rw [hfound]
  exact (safe_ok found).bind fun _ _ => (safe_okOr _ _).bind fun s _ => safe_ok _

/-- A range resolves to the live span that holds all of it. -/
theorem resolveLive_ok (h : a.resolveLive address len = .ok span) :
    0 < len ∧ address + len < u64 ∧ ∃ s ∈ a.spans, s.allocated = true ∧ s.base ≤ address ∧
      address + len ≤ s.base + s.bytes ∧ span = ⟨s.base, s.bytes, address - s.base⟩ := by
  unfold resolveLive at h
  obtain ⟨_, hlen, h⟩ := bind_ok.mp h
  obtain ⟨stop, hstop, h⟩ := bind_ok.mp h
  obtain ⟨found, hfound, h⟩ := bind_ok.mp h
  obtain ⟨s, hs, h⟩ := bind_ok.mp h
  obtain rfl := okOr_ok.mp hs
  obtain ⟨hbound, rfl⟩ := checkedAdd_eq_some.mp (okOr_ok.mp hstop)
  obtain ⟨hmem, ha, hbase, hend⟩ := findLive_some hfound
  have hpos := failIf_ok.mp hlen
  exact ⟨by simp at hpos; omega, hbound, s, hmem, ha, hbase, hend, (Except.ok.inj h).symm⟩

/-- A range that lies in a live span resolves to it. -/
theorem Good.resolveLive_eq (hg : Good base bytes a) {s : HbmSpan} (hs : s ∈ a.spans) (ha : s.allocated = true)
    (hlen : 0 < len) (hbase : s.base ≤ address) (hend : address + len ≤ s.base + s.bytes) :
    a.resolveLive address len = .ok ⟨s.base, s.bytes, address - s.base⟩ := by
  have hbound := hg.span_end hs
  unfold resolveLive
  rw [failIf_ok (u := ()) |>.mpr (by simp; omega), checkedAdd_eq_some.mpr ⟨show address + len < u64 by omega, rfl⟩]
  change (findLive address (address + len) a.spans >>= _) = _
  obtain ⟨found, hfound⟩ := findLive_isOk address (address + len) fun s hs => hg.span_end (a := a) hs
  rw [hfound]
  cases found with
  | none =>
    have := findLive_none hfound hs ha hbase
    omega
  | some s' =>
    obtain ⟨hmem, -, hbase', hend'⟩ := findLive_some hfound
    obtain rfl := hg.tiles.unique (i := address) hmem hs ⟨hbase', by omega⟩ ⟨hbase, by omega⟩
    rfl

/-! ### An allocation taken back -/

/-- The first span with a base, where no span before it has that base. -/
theorem findIdx?_base {pre post : List HbmSpan} {s : HbmSpan} (hpre : ∀ x ∈ pre, x.base ≠ s.base) :
    (pre ++ s :: post).findIdx? (fun span => span.base = s.base) = some pre.length := by
  rw [List.findIdx?_append, List.findIdx?_eq_none_iff.mpr (by simpa using hpre), List.findIdx?_cons]
  simp

/-- With an allocated left neighbour, a freed span can join its right one only. -/
theorem coalesce_right (pre post : List HbmSpan) (s : HbmSpan) (hlast : ∀ p ∈ pre.getLast?, p.allocated = true) :
    coalesce (pre ++ s :: post) pre.length =
      if isFreeAt (pre ++ s :: post) (pre.length + 1) then absorb (pre ++ s :: post) pre.length
      else pre ++ s :: post := by
  have hleft : (decide (0 < pre.length) && isFreeAt (pre ++ s :: post) (pre.length - 1)) = false := by
    rcases List.eq_nil_or_concat' pre with rfl | ⟨pre, p, rfl⟩
    · rfl
    · have hp : p.allocated = true := hlast p (by simp)
      have hfree : isFreeAt (pre ++ p :: (s :: post)) pre.length = !p.allocated := isFreeAt_here
      simpa [hp] using hfree
  unfold coalesce
  simp only [hleft, Bool.false_eq_true, if_false]

/-- Freeing what an allocation just gave leaves the allocator as it was. -/
theorem free_allocate {reserved : Bool} (hg : Good base bytes a)
    (h : allocate len reserved a = (.ok pointer, a')) : free pointer a' = (.ok (), a) := by
  have hgood' := (hg.allocate h).1
  obtain ⟨pre, s, post, hl, hs, hpos, hle, rfl, rfl⟩ := allocate_cases h
  have hsp := hg.spaced
  rw [hl] at hsp
  obtain ⟨-, -, hlast, hhead⟩ := (spaced_free hs).mp hsp
  have hne := (base_ne hgood'.tiles).1
  have hfind : (pre ++ (⟨s.base, len, true⟩ : HbmSpan) :: ((if s.bytes ≠ len then
      [⟨s.base + len, s.bytes - len, false⟩] else []) ++ post)).findIdx? (fun span => span.base = s.base) =
        some pre.length := findIdx?_base hne
  obtain ⟨sbase, sbytes, sallocated⟩ := s
  obtain rfl : sallocated = false := hs
  unfold free
  dsimp only at hfind hle ⊢
  rw [hfind]
  dsimp only
  rw [isFreeAt_here, if_neg (by simp), modify_here, coalesce_right _ _ _ hlast, isFreeAt_after]
  have hspans : ∀ l, l = a.spans → (Except.ok (ε := HbmAllocationError) (), { a with spans := l }) = (.ok (), a) := by
    rintro l rfl
    rfl
  refine hspans _ ?_
  rw [hl]
  by_cases hexact : sbytes = len
  · -- The whole span was taken: its right neighbour is allocated.
    have hright : post.head?.any (fun s => !s.allocated) = false := by
      cases hp : post.head? with
      | none => rfl
      | some n => simp [hhead n hp]
    simp [hexact, hright]
  · -- The rest of the span is its right neighbour.
    simp only [ne_eq, hexact, not_false_eq_true, if_true, List.singleton_append, List.head?_cons, Option.any_some,
      Bool.not_false, absorb_here]
    congr 3
    omega

end HbmAllocator

/-! ## The calls of a memory -/

namespace HbmPvMemory

open HbmAllocator (Good)

variable {m m' : HbmPvMemory} {base bytes address len pointer : Nat} {source : List UInt8}

theorem onAllocator_ok {α : Type} {c : Call HbmAllocator HbmAllocationError α} {a : α}
    (h : onAllocator c m = (.ok a, m')) :
    c m.allocator = (.ok a, m'.allocator) ∧ m' = { m with allocator := m'.allocator } := by
  unfold onAllocator at h
  split at h
  · rename_i b allocator hc
    obtain ⟨rfl, rfl⟩ := ok_inj h
    exact ⟨hc, rfl⟩
  · cases h

theorem onAllocator_error {α : Type} {c : Call HbmAllocator HbmAllocationError α} {e : Fault HbmPvMemoryError}
    (h : onAllocator c m = (.error e, m')) :
    ∃ e' allocator, c m.allocator = (.error e', allocator) ∧ e = .returned (.allocation e') ∧
      m' = { m with allocator } := by
  unfold onAllocator at h
  split at h
  · cases h
  · rename_i e' allocator hc
    cases h
    exact ⟨e', allocator, hc, rfl, rfl⟩

theorem allocate_error {reserved : Bool} {e : Fault HbmPvMemoryError}
    (h : m.allocate len reserved = (.error e, m')) : m' = m ∧ e ≠ .panicked := by
  obtain ⟨e', allocator, hc, rfl, rfl⟩ := onAllocator_error h
  have : allocator = m.allocator :=
    HbmAllocator.exec_error (c := .allocate len reserved) (by rw [HbmAllocator.exec, hc]; rfl)
  exact ⟨by rw [this], nofun⟩

theorem free_error {e : Fault HbmPvMemoryError} (h : m.free pointer = (.error e, m')) : m' = m ∧ e ≠ .panicked := by
  obtain ⟨e', allocator, hc, rfl, rfl⟩ := onAllocator_error h
  have : allocator = m.allocator := HbmAllocator.exec_error (c := .free pointer) (by rw [HbmAllocator.exec, hc]; rfl)
  exact ⟨by rw [this], nofun⟩

/-- What a copy that succeeded changes: the bytes of its range. -/
theorem hostToDevice_ok (h : m.hostToDevice address source = (.ok (), m')) :
    m'.allocator = m.allocator ∧ m'.architecture = m.architecture ∧ ∀ a, m'.store.readByte a =
      if address ≤ a ∧ a < address + source.length then source.getD (a - address) 0 else m.store.readByte a := by
  unfold hostToDevice at h
  split at h
  · rename_i hempty
    obtain ⟨-, rfl⟩ := ok_inj h
    exact ⟨rfl, rfl, fun a => by rw [if_neg (by omega)]⟩
  split at h
  · cases h
  rename_i span hspan
  split at h
  · cases h
  rename_i store hstore
  obtain ⟨-, rfl⟩ := ok_inj h
  obtain ⟨-, hfits, -⟩ := HbmAllocator.resolveLive_ok (mapErr_ok.mp hspan)
  exact ⟨rfl, rfl, PvMemory.write_ok hfits (mapErr_ok.mp hstore)⟩

theorem hostToDevice_error (hg : Good base bytes m.allocator) {e : Fault HbmPvMemoryError}
    (h : m.hostToDevice address source = (.error e, m')) : m' = m ∧ e ≠ .panicked := by
  unfold hostToDevice at h
  split at h
  · cases h
  split at h
  · rename_i e' he
    cases h
    exact ⟨rfl, fun hp => hg.resolveLive_safe.mapErr (by rw [he, hp])⟩
  rename_i span hspan
  obtain ⟨-, hfits, -⟩ := HbmAllocator.resolveLive_ok (mapErr_ok.mp hspan)
  split at h
  · rename_i e' he
    cases h
    exact ⟨rfl, fun hp => (PvMemory.write_safe hfits).mapErr (by rw [he, hp])⟩
  · cases h

/-- A range in a live allocation reads as the bytes at its addresses. -/
theorem deviceToHost_eq (hg : Good base bytes m.allocator) {s : HbmSpan} (hs : s ∈ m.allocator.spans)
    (ha : s.allocated = true) (hbase : s.base ≤ address) (hend : address + len ≤ s.base + s.bytes) :
    m.deviceToHost address len = .ok ((List.range len).map fun i => m.store.readByte (address + i)) := by
  have hbound := hg.span_end hs
  unfold deviceToHost
  split
  · rename_i hempty
    rw [hempty]
    rfl
  · rw [hg.resolveLive_eq hs ha (by omega) hbase hend]
    change mapErr HbmPvMemoryError.store (m.store.readInto address len) = _
    rw [PvMemory.readInto_eq (by omega)]
    rfl

/-- Every call keeps the allocator in order, whatever it returns. -/
theorem good_exec (hg : Good base bytes m.allocator) (c : MemoryCall) : Good base bytes (exec c m).2.allocator := by
  cases hr : exec c m with
  | mk r m' =>
  cases c with
  | allocate len reserved =>
    cases r with
    | error e =>
      rw [(allocate_error (reply_error hr)).1]
      exact hg
    | ok r =>
      obtain ⟨p, hp, -⟩ := reply_ok hr
      exact (hg.allocate (onAllocator_ok hp).1).1
  | free pointer =>
    cases r with
    | error e =>
      rw [(free_error (reply_error hr)).1]
      exact hg
    | ok r =>
      obtain ⟨u, hu, -⟩ := reply_ok hr
      exact (hg.free (onAllocator_ok hu).1).1
  | hostToDevice address source =>
    cases r with
    | error e =>
      rw [(hostToDevice_error hg (reply_error hr)).1]
      exact hg
    | ok r =>
      obtain ⟨u, hu, -⟩ := reply_ok hr
      rw [(hostToDevice_ok hu).1]
      exact hg
  | deviceToHost address len =>
    have hm : m = m' := congrArg Prod.snd hr
    rw [← hm]
    exact hg

theorem good_run {architecture : Architecture} {defaultByte : UInt8} {maxPages : Nat}
    {t : List (MemoryCall × Outcome HbmPvMemoryError MemoryReply)} {m₀ : HbmPvMemory}
    (h₀ : withRegion architecture base bytes defaultByte maxPages = .ok m₀) (h : Run (calls exec) m₀ t m) :
    Good base bytes m.allocator := by
  refine h.keeps (I := fun m => Good base bytes m.allocator) ?_ fun u x v hu hx => ?_
  · unfold withRegion at h₀
    cases ha : HbmAllocator.withRegion base bytes with
    | error e =>
      rw [ha] at h₀
      cases h₀
    | ok a =>
      rw [ha] at h₀
      cases h₀
      exact (HbmAllocator.good_withRegion ha).1
  · have hv : (exec x.1 u).2 = v := congrArg Prod.snd hx
    rw [← hv]
    exact good_exec hu x.1

end HbmPvMemory

end AscendEmulator.Memory
