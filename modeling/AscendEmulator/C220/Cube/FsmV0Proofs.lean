/-
  AscendEmulator.C220.Cube.FsmV0Proofs — which accumulator tiles the first FSM reads.

  The walk goes from block to block: a block lasts `Block.span` calls, of which the first ones read its tiles
  (`Block.offsets`) if it is one of the outermost K. `Block.leave` is the next block; `run_walk` runs the planner over
  any number of blocks, without a counter that wraps. What remains is where the walk goes, which depends on the tile
  counts: with two columns at most it goes down row by row (`walk_rows`), with two layers of K at most along the first
  row (`walk_columns`), and otherwise it never gets below the first row (`walk_cycles`).

  - `l0c_reads_iff`: every output tile is read once exactly if there is one row, or at most two columns, or two rows and
    K does not fold behind the last column.
-/

import AscendEmulator.C220.Cube.FsmV0
import AscendEmulator.Lib.Span

namespace AscendEmulator.C220.Cube

open Lib Isa

namespace CubeV0UopPlanner

/-! ## Blocks -/

/-- What remains when a block begins, its base and the mode by which it is left. -/
@[ext]
structure Block where
  m : Nat
  k : Nat
  n : Nat
  base : Nat
  mode : Nat

/-- The planner in a block. -/
def at' (p : CubeV0UopPlanner) (b : Block) (prior : Bool) (cursor span : Nat) : CubeV0UopPlanner :=
  { p with
    remainingMTiles := b.m, remainingKTiles := b.k, remainingNTiles := b.n, l0cTileBase := b.base,
    traversalMode := b.mode, priorKFold := prior, fractionCursor := cursor, fractionSpan := span }

def shape (tiles : Nat) : Nat := if tiles = 1 then 1 else 2

theorem shape_cases (tiles : Nat) : shape tiles = 1 ∧ tiles = 1 ∨ shape tiles = 2 ∧ tiles ≠ 1 := by
  unfold shape
  split_ifs with h
  · exact .inl ⟨rfl, h⟩
  · exact .inr ⟨rfl, h⟩

namespace Block

variable (p : CubeV0UopPlanner) (b : Block)

/-- How many calls a block lasts. -/
def span : Nat := shape b.k * shape b.m * shape p.originalNTiles

/-- The tiles of a block, from its base. -/
def offsets : List Nat :=
  if b.m = 1 then if p.originalNTiles = 1 then [0] else [0, 1]
  else if p.originalNTiles = 1 then [0, 1] else [0, p.originalNTiles, 1, p.originalNTiles + 1]

/-- What a call in a block answers. -/
def reads (cursor : Nat) : Option Nat :=
  if b.k = p.originalKTiles then
    (((b.offsets p)[cursor]?).map (· + b.base)).filter (· < p.originalMTiles * p.originalNTiles)
  else none

def nextBase : Nat :=
  if b.k = p.originalKTiles then
    b.base + if p.originalMTiles ≤ 1 ∨ 2 < p.originalNTiles then if p.originalNTiles ≤ 2 then 1 else 2
      else 2 * p.originalNTiles
  else b.base

/-- The block after a block. -/
def leave : Block :=
  if b.mode = 1 ∧ 2 < b.n then ⟨b.m, b.k, b.n - 2, b.nextBase p, p.compactN⟩
  else if b.mode = 1 ∧ 2 < b.k then ⟨b.m, b.k - 2, b.n, b.nextBase p, p.compactN⟩
  else if 2 < b.k then ⟨b.m, b.k - 2, b.n + 2, b.nextBase p, p.compactN⟩
  else if 2 < b.n then ⟨b.m, p.originalKTiles, b.n - 2, b.nextBase p, p.compactN⟩
  else ⟨b.m - 2, p.originalKTiles, p.originalNTiles, b.nextBase p, p.compactN⟩

/-- No counter wraps when the block is left. -/
structure CanLeave : Prop where
  mode : b.mode = 0 ∨ b.mode = 1
  rows : b.k ≤ 2 → b.n ≤ 2 → 2 ≤ b.m
  columns : b.n + 2 < 2 ^ 32
  base : b.nextBase p + p.originalNTiles + 1 < 2 ^ 32

/-- No counter wraps in the block. -/
def Fits : Prop := b.base + p.originalNTiles + 1 < 2 ^ 32

theorem span_pos : 0 < b.span p := by
  unfold span
  rcases shape_cases b.k with h | h <;> rcases shape_cases b.m with h' | h' <;>
    rcases shape_cases p.originalNTiles with h'' | h'' <;> simp [h.1, h'.1, h''.1]

theorem span_le : b.span p ≤ 8 := by
  unfold span
  rcases shape_cases b.k with h | h <;> rcases shape_cases b.m with h' | h' <;>
    rcases shape_cases p.originalNTiles with h'' | h'' <;> simp [h.1, h'.1, h''.1]

end Block

/-- The tile counts of an instruction, which are `u16`. -/
structure Sized (p : CubeV0UopPlanner) : Prop where
  m : 0 < p.originalMTiles
  k : 0 < p.originalKTiles
  n : 0 < p.originalNTiles
  m_lt : p.originalMTiles < 2 ^ 16
  k_lt : p.originalKTiles < 2 ^ 16
  n_lt : p.originalNTiles < 2 ^ 16

theorem Sized.tiles {p : CubeV0UopPlanner} (h : p.Sized) : p.originalMTiles * p.originalNTiles < 2 ^ 32 :=
  (Nat.mul_lt_mul'' h.m_lt h.n_lt).trans_eq (by norm_num)

theorem Sized.nonzero {p : CubeV0UopPlanner} (h : p.Sized) :
    ¬ (p.originalMTiles = 0 ∨ p.originalKTiles = 0 ∨ p.originalNTiles = 0) := by
  have := h.m
  have := h.k
  have := h.n
  omega

variable {p : CubeV0UopPlanner} {b : Block} {prior : Bool} {c s : Nat}

/-- The map of the block is its list of tiles. -/
theorem basicL0cMap_eq (h0 : 0 < p.originalNTiles) (hn : p.originalNTiles + 1 < 2 ^ 32) (hc : c < b.span p) :
    ∃ mapped basicValid, basicL0cMap .checked (shape b.m) (shape b.k) (shape p.originalNTiles)
        (p.at' b prior c (b.span p)) = some (mapped, basicValid) ∧ mapped ≤ p.originalNTiles + 1 ∧
      (if basicValid then some mapped else none) = (b.offsets p)[c]? := by
  rcases shape_cases b.k with ⟨hk, -⟩ | ⟨hk, -⟩ <;> rcases shape_cases b.m with ⟨hm, hm'⟩ | ⟨hm, hm'⟩ <;>
    rcases shape_cases p.originalNTiles with ⟨hN, hN'⟩ | ⟨hN, hN'⟩ <;>
    simp only [Block.span, hk, hm, hN] at hc ⊢ <;> simp only [basicL0cMap, at', Block.offsets, hm', hN']
  all_goals
    interval_cases c <;> simp [Arithmetic.checked_add hn] <;> omega

theorem basicL0cMap_zero {b' : Block} :
    basicL0cMap .checked (shape b.m) (shape b.k) (shape p.originalNTiles) (p.at' b' prior 0 (b.span p)) =
      some (0, true) := by
  rcases shape_cases b.k with ⟨hk, -⟩ | ⟨hk, -⟩ <;> rcases shape_cases b.m with ⟨hm, -⟩ | ⟨hm, -⟩ <;>
    rcases shape_cases p.originalNTiles with ⟨hN, -⟩ | ⟨hN, -⟩ <;>
    simp only [Block.span, hk, hm, hN] <;> rfl

/-- What is read, where the map of the cursor is the list of a block. -/
theorem readIndex_eq {mShape kShape mapped : Nat} {basicValid : Bool} (hp : p.Sized) (hb : b.Fits p) (hc : c < 8)
    (hmap : basicL0cMap .checked mShape kShape (shape p.originalNTiles) (p.at' b prior c s) = some (mapped, basicValid))
    (hle : mapped ≤ p.originalNTiles + 1)
    (hoffset : (if basicValid then some mapped else none) = (b.offsets p)[c]?) :
    readIndex .checked mShape kShape (shape p.originalNTiles) (p.at' b prior c s) =
      some (b.reads p c, p.at' b prior (c + 1) s) := by
  unfold Block.Fits at hb
  have hreads : b.reads p c = if decide (b.k = p.originalKTiles) &&
      decide (mapped + b.base < p.originalMTiles * p.originalNTiles) && basicValid then some (mapped + b.base)
      else none := by
    rw [Block.reads, ← hoffset]
    by_cases hk : b.k = p.originalKTiles <;> cases basicValid <;> simp [hk, Option.filter]
  rw [readIndex, hmap, hreads]
  simp only [at', Option.bind_eq_bind, Option.bind_some, Arithmetic.checked_mul hp.tiles]
  rw [Arithmetic.checked_add (show mapped + b.base < 2 ^ 32 by omega), Option.bind_some,
    Arithmetic.checked_add (show c + 1 < 2 ^ 32 by omega), Option.bind_some]
  rfl

theorem next_eq (hp : p.Sized) : nextL0cReadIndex .checked (p.at' b prior c s) =
    (advanceBase .checked (p.at' b prior c (b.span p))).bind fun q => (jump .checked q).bind fun q =>
      readIndex .checked (shape b.m) (shape b.k) (shape p.originalNTiles)
        { restart q with priorKFold := decide ((restart q).remainingKTiles ≤ 2) } :=
  if_neg hp.nonzero

/-- A call in a block. -/
theorem step_inside (hp : p.Sized) (hb : b.Fits p) (hc : c < b.span p) :
    nextL0cReadIndex .checked (p.at' b prior c s) =
      some (b.reads p c, p.at' b (decide (b.k ≤ 2)) (c + 1) (b.span p)) := by
  have hN := hp.n
  obtain ⟨mapped, basicValid, hmap, hle, hoffset⟩ :=
    @basicL0cMap_eq p b (decide (b.k ≤ 2)) _ hN (by unfold Block.Fits at hb; omega) hc
  have hread := readIndex_eq hp hb (hc.trans_le (b.span_le p)) hmap hle hoffset
  have hcursor : ¬ b.span p ≤ c := by omega
  have hadvance : advanceBase .checked (p.at' b prior c (b.span p)) = some (p.at' b prior c (b.span p)) := by
    rw [advanceBase, if_neg fun h => hcursor h.2]
    rfl
  have hjump : jump .checked (p.at' b prior c (b.span p)) = some (p.at' b prior c (b.span p)) := by
    unfold jump jumpAColumn jumpBColumn
    have hlt : (p.at' b prior c (b.span p)).fractionCursor < (p.at' b prior c (b.span p)).fractionSpan := hc
    split <;> first | rw [if_pos hlt]; rfl | rfl
  have hrestart : restart (p.at' b prior c (b.span p)) = p.at' b prior c (b.span p) := if_neg hcursor
  rw [next_eq hp, hadvance, Option.bind_some, hjump, Option.bind_some, hrestart]
  exact hread

/-- The jump is the next block, but for its mode. -/
theorem jump_eq (hb : b.CanLeave p) :
    ∃ mode, jump .checked (p.at' { b with base := b.nextBase p } (decide (b.k ≤ 2)) (b.span p) (b.span p)) =
      some (p.at' { b.leave p with mode } (decide (b.k ≤ 2)) (b.span p) (b.span p)) := by
  have hcursor : ¬ b.span p < b.span p := lt_irrefl _
  obtain ⟨m, k, n, base, mode⟩ := b
  have hrows : k ≤ 2 → n ≤ 2 → 2 ≤ m := hb.rows
  have hcolumns : Arithmetic.checked.add n 2 = some (n + 2) := Arithmetic.checked_add hb.columns
  have hsub {a : Nat} (h : 2 ≤ a) : Arithmetic.checked.sub a 2 = some (a - 2) := Arithmetic.checked_sub h
  rcases hb.mode with rfl | rfl
  · simp only [jump, at', jumpBColumn, Block.leave, hcursor]
    rcases Nat.lt_or_ge 2 k with hk | hk
    · simp [hk, hk.not_ge, hcolumns, hsub hk.le]
    · rcases Nat.lt_or_ge 2 n with hn | hn
      · simp [hk, hk.not_gt, hn, hsub hn.le]
      · simp [hk, hk.not_gt, hn.not_gt, hsub (hrows hk hn)]
  · simp only [jump, at', jumpAColumn, Block.leave, hcursor]
    rcases Nat.lt_or_ge 2 n with hn | hn
    · simp [hn, hn.not_ge, hsub hn.le]
    · rcases Nat.lt_or_ge 2 k with hk | hk
      · simp [hn, hn.not_gt, hk, hk.not_ge, hsub hk.le]
      · simp [hn, hn.not_gt, hk, hk.not_gt, hsub (hrows hk hn)]

theorem leave_base (b : Block) : (b.leave p).base = b.nextBase p := by
  unfold Block.leave
  split_ifs <;> rfl

theorem leave_mode (b : Block) : (b.leave p).mode = p.compactN := by
  unfold Block.leave
  split_ifs <;> rfl

theorem offsets_zero (b : Block) : (b.offsets p)[0]? = some 0 := by
  unfold Block.offsets
  split_ifs <;> rfl

/-- A call behind the end of a block is the first one of the next. -/
theorem step_leave (hp : p.Sized) (hb : b.CanLeave p) :
    nextL0cReadIndex .checked (p.at' b (decide (b.k ≤ 2)) (b.span p) s) =
      some ((b.leave p).reads p 0, p.at' (b.leave p) (decide ((b.leave p).k ≤ 2)) 1 (b.span p)) := by
  have hfits : (b.leave p).Fits p := by
    unfold Block.Fits
    rw [leave_base]
    exact hb.base
  have hadvance : advanceBase .checked (p.at' b (decide (b.k ≤ 2)) (b.span p) (b.span p)) =
      some (p.at' { b with base := b.nextBase p } (decide (b.k ≤ 2)) (b.span p) (b.span p)) := by
    have hbase := hb.base
    unfold Block.nextBase at hbase ⊢
    unfold advanceBase
    by_cases hk : b.k = p.originalKTiles
    · rw [if_pos hk] at hbase
      rw [if_pos hk, if_pos ⟨hk, le_rfl⟩]
      exact congrArg (Option.bind · _) (Arithmetic.checked_add
        ((Nat.le_add_right _ (p.originalNTiles + 1)).trans_lt hbase))
    · rw [if_neg hk, if_neg fun h => hk h.1]
      rfl
  obtain ⟨mode, hjump⟩ := jump_eq hb
  have hrestart : restart (p.at' { b.leave p with mode } (decide (b.k ≤ 2)) (b.span p) (b.span p)) =
      p.at' (b.leave p) (decide (b.k ≤ 2)) 0 (b.span p) := by
    refine (if_pos le_rfl).trans ?_
    simp only [at', leave_mode]
  rw [next_eq hp, hadvance, Option.bind_some, hjump, Option.bind_some, hrestart]
  exact readIndex_eq hp hfits (Nat.zero_lt_succ 7) basicL0cMap_zero (Nat.zero_le _)
    ((if_pos rfl).trans (offsets_zero _).symm)

/-! ## Counters that wrap -/

section Wrapping

open Arithmetic

theorem jumpAColumn_agrees (p : CubeV0UopPlanner) : Agrees (jumpAColumn .checked p) (jumpAColumn .wrapping p) := by
  unfold jumpAColumn
  split_ifs
  · exact agrees_pure _
  all_goals exact (agrees_sub _ _).bind fun _ => agrees_pure _

theorem jumpBColumn_agrees (p : CubeV0UopPlanner) : Agrees (jumpBColumn .checked p) (jumpBColumn .wrapping p) := by
  unfold jumpBColumn
  split_ifs
  · exact agrees_pure _
  · exact (agrees_sub _ _).bind fun _ => agrees_pure _
  · exact (agrees_sub _ _).bind fun _ => agrees_pure _
  · exact (agrees_add _ _).bind fun _ => (agrees_sub _ _).bind fun _ => agrees_pure _

theorem jump_agrees (p : CubeV0UopPlanner) : Agrees (jump .checked p) (jump .wrapping p) := by
  unfold jump
  split
  · exact jumpBColumn_agrees p
  · exact jumpAColumn_agrees p
  · exact agrees_pure _

theorem advanceBase_agrees (p : CubeV0UopPlanner) : Agrees (advanceBase .checked p) (advanceBase .wrapping p) := by
  unfold advanceBase
  split
  · exact (agrees_add _ _).bind fun _ => agrees_pure _
  · exact agrees_pure _

theorem basicL0cMap_agrees (mShape kShape nShape : Nat) (p : CubeV0UopPlanner) :
    Agrees (basicL0cMap .checked mShape kShape nShape p) (basicL0cMap .wrapping mShape kShape nShape p) := by
  unfold basicL0cMap
  repeat' split
  all_goals first
    | exact agrees_pure _
    | exact (agrees_add _ _).bind fun _ => agrees_pure _

theorem readIndex_agrees (mShape kShape nShape : Nat) (p : CubeV0UopPlanner) :
    Agrees (readIndex .checked mShape kShape nShape p) (readIndex .wrapping mShape kShape nShape p) :=
  (basicL0cMap_agrees mShape kShape nShape p).bind fun _ => (agrees_add _ _).bind fun _ =>
    (agrees_mul _ _).bind fun _ => (agrees_add _ _).bind fun _ => agrees_pure _

/-- Where no counter wraps, the planner is that of the source. -/
theorem nextL0cReadIndex_agrees (p : CubeV0UopPlanner) :
    Agrees (nextL0cReadIndex .checked p) (nextL0cReadIndex .wrapping p) := by
  unfold nextL0cReadIndex
  split
  · exact agrees_pure _
  · exact (advanceBase_agrees _).bind fun q => (jump_agrees q).bind fun _ => readIndex_agrees _ _ _ _

theorem readIndices_agrees (n : Nat) (p : CubeV0UopPlanner) :
    Agrees (readIndices .checked n p) (readIndices .wrapping n p) := by
  induction n generalizing p with
  | zero => exact agrees_pure _
  | succ n ih => exact (nextL0cReadIndex_agrees p).bind fun r => (ih r.2).bind fun _ => agrees_pure _

end Wrapping

/-! ## Runs over blocks -/

/-- The calls from a planner on answer the list. -/
inductive Runs : CubeV0UopPlanner → List (Option Nat) → CubeV0UopPlanner → Prop where
  | nil (p : CubeV0UopPlanner) : Runs p [] p
  | cons {p q r : CubeV0UopPlanner} {i : Option Nat} {l : List (Option Nat)}
      (h : nextL0cReadIndex .checked p = some (i, q)) (ht : Runs q l r) : Runs p (i :: l) r

theorem Runs.append {q r : CubeV0UopPlanner} {l l' : List (Option Nat)} (h : Runs p l q) (h' : Runs q l' r) :
    Runs p (l ++ l') r := by
  induction h with
  | nil => exact h'
  | cons hstep _ ih => exact .cons hstep (ih h')

theorem Runs.prefix {r : CubeV0UopPlanner} {l l' : List (Option Nat)} (h : Runs p (l ++ l') r) : ∃ q, Runs p l q := by
  induction l generalizing p with
  | nil => exact ⟨p, .nil p⟩
  | cons i l ih =>
    cases h with
    | cons hstep ht =>
      obtain ⟨q, hq⟩ := ih ht
      exact ⟨q, .cons hstep hq⟩

/-- The calls of a run, none of whose counters wraps. -/
theorem Runs.checked {q : CubeV0UopPlanner} {l : List (Option Nat)} (h : Runs p l q) :
    readIndices .checked l.length p = some l := by
  induction h with
  | nil => rfl
  | cons hstep _ ih =>
    rw [List.length_cons, readIndices, hstep]
    exact (congrArg (Option.bind · _) ih).trans rfl

/-- The calls of a run and those behind it, with counters that may wrap there. -/
theorem Runs.wrapping {q : CubeV0UopPlanner} {l : List (Option Nat)} (h : Runs p l q) (n : Nat) :
    l0cReadIndices (l.length + n) p = l ++ l0cReadIndices n q := by
  induction h with
  | nil => rw [List.length_nil, Nat.zero_add, List.nil_append]
  | @cons p q r i l hstep _ ih =>
    rw [List.length_cons, Nat.add_right_comm, l0cReadIndices, readIndices, nextL0cReadIndex_agrees p _ hstep]
    exact congrArg (i :: ·) ih

/-- The rest of a block, from a cursor on. -/
theorem runs_inside (hp : p.Sized) (hb : b.Fits p) {n : Nat} (hc : c + n ≤ b.span p) :
    ∃ s', Runs (p.at' b (decide (b.k ≤ 2)) c s) ((List.range' c n).map (b.reads p))
      (p.at' b (decide (b.k ≤ 2)) (c + n) s') := by
  induction n generalizing c s with
  | zero => exact ⟨s, .nil _⟩
  | succ n ih =>
    have hcn : c + 1 + n ≤ b.span p := by omega
    obtain ⟨s', hrun⟩ := ih (s := b.span p) hcn
    refine ⟨s', ?_⟩
    rw [show c + (n + 1) = c + 1 + n by omega]
    exact .cons (step_inside hp hb (by omega)) hrun

/-- What the calls of a block answer. -/
def Block.answers (p : CubeV0UopPlanner) (b : Block) (calls : Nat) : List (Option Nat) :=
  (List.range calls).map (b.reads p)

/-- At the end of a block. -/
def Ends (p q : CubeV0UopPlanner) (b : Block) : Prop := ∃ s, q = p.at' b (decide (b.k ≤ 2)) (b.span p) s

/-- The first block. -/
def first (p : CubeV0UopPlanner) : Block := ⟨p.originalMTiles, p.originalKTiles, p.originalNTiles, 0, 1⟩

/-- A planner that has not begun. -/
structure Fresh (p : CubeV0UopPlanner) : Prop extends Sized p where
  start : p = p.at' p.first false 0 0
  compact : p.compactN = if p.originalNTiles ≤ 2 then 1 else 0

/-- The `i`th block. -/
def walk (p : CubeV0UopPlanner) (i : Nat) : Block := (Block.leave p)^[i] p.first

@[simp] theorem walk_zero : p.walk 0 = p.first := rfl

theorem walk_succ (i : Nat) : p.walk (i + 1) = (p.walk i).leave p := Function.iterate_succ_apply' ..

theorem runs_first (hp : p.Fresh) {n : Nat} (hn : n < p.first.span p) :
    ∃ s', Runs p (p.first.answers p (n + 1)) (p.at' p.first (decide (p.first.k ≤ 2)) (n + 1) s') := by
  have hfits : p.first.Fits p := by
    have := hp.n_lt
    change 0 + p.originalNTiles + 1 < 2 ^ 32
    omega
  have hstep := @step_inside p p.first false 0 0 hp.toSized hfits (p.first.span_pos p)
  rw [← hp.start] at hstep
  obtain ⟨s', hrun⟩ := runs_inside (c := 0 + 1) (s := p.first.span p) hp.toSized hfits (n := n) (by omega)
  refine ⟨s', ?_⟩
  rw [Block.answers, List.range_succ_eq_map, List.map_cons, List.map_map, Nat.add_comm n 1]
  refine .cons hstep ?_
  rw [List.range'_eq_map_range, List.map_map] at hrun
  convert hrun using 2
  funext i
  exact congrArg _ (Nat.add_comm i 1)

theorem runs_leave (hp : p.Sized) (hb : b.CanLeave p) {q : CubeV0UopPlanner} (hq : Ends p q b) {n : Nat}
    (hn : n < (b.leave p).span p) :
    ∃ s', Runs q ((b.leave p).answers p (n + 1)) (p.at' (b.leave p) (decide ((b.leave p).k ≤ 2)) (n + 1) s') := by
  obtain ⟨s, rfl⟩ := hq
  have hfits : (b.leave p).Fits p := by
    unfold Block.Fits
    rw [leave_base]
    exact hb.base
  have hstep := step_leave (s := s) hp hb
  obtain ⟨s', hrun⟩ := runs_inside (c := 1) (s := b.span p) hp hfits (n := n) (by omega)
  refine ⟨s', ?_⟩
  rw [Block.answers, List.range_succ_eq_map, List.map_cons, List.map_map, Nat.add_comm n 1]
  refine .cons hstep ?_
  rw [List.range'_eq_map_range, List.map_map] at hrun
  convert hrun using 2
  funext i
  exact congrArg _ (Nat.add_comm i 1)

/-- What whole blocks answer. -/
def walked (p : CubeV0UopPlanner) (i count : Nat) : List (Option Nat) :=
  (List.range' i count).flatMap fun i => (p.walk i).answers p ((p.walk i).span p)

theorem walked_add (i n m : Nat) : p.walked i (n + m) = p.walked i n ++ p.walked (i + n) m := by
  rw [walked, walked, walked, ← List.range'_append_1, List.flatMap_append]

theorem walked_prefix (i : Nat) {n m : Nat} (h : n ≤ m) : p.walked i n <+: p.walked i m := by
  obtain ⟨rest, rfl⟩ := Nat.exists_eq_add_of_le h
  rw [walked_add]
  exact List.prefix_append _ _

theorem walked_one (i : Nat) : p.walked i 1 = (p.walk i).answers p ((p.walk i).span p) := by
  simp [walked]

theorem run_walk (hp : p.Fresh) {T : Nat} (hleave : ∀ i < T, (p.walk i).CanLeave p) :
    ∃ q, Runs p (p.walked 0 (T + 1)) q ∧ Ends p q (p.walk T) := by
  induction T with
  | zero =>
    obtain ⟨n, hn⟩ := Nat.exists_eq_succ_of_ne_zero (p.first.span_pos p).ne'
    obtain ⟨s, hrun⟩ := runs_first hp (n := n) (by omega)
    refine ⟨_, ?_, s, rfl⟩
    rw [walked_one, walk_zero, hn]
    exact hrun
  | succ T ih =>
    obtain ⟨q, hrun, hq⟩ := ih fun i hi => hleave i (by omega)
    obtain ⟨n, hn⟩ := Nat.exists_eq_succ_of_ne_zero (((p.walk T).leave p).span_pos p).ne'
    obtain ⟨s, hrest⟩ := runs_leave hp.toSized (hleave T (by omega)) hq (n := n) (by omega)
    refine ⟨_, ?_, s, by rw [walk_succ, hn]⟩
    rw [walked_add, walked_one, Nat.zero_add, walk_succ, hn]
    exact hrun.append hrest

/-- Whole blocks, and the first calls of the one after them. -/
theorem run_walk_part (hp : p.Fresh) {T n : Nat} (hleave : ∀ i < T, (p.walk i).CanLeave p)
    (hn : n < (p.walk T).span p) : ∃ q, Runs p (p.walked 0 T ++ (p.walk T).answers p (n + 1)) q := by
  cases T with
  | zero =>
    obtain ⟨s, hrun⟩ := runs_first hp hn
    exact ⟨_, hrun⟩
  | succ T =>
    obtain ⟨q, hrun, hq⟩ := run_walk (T := T) hp fun i hi => hleave i (by omega)
    rw [walk_succ] at hn ⊢
    obtain ⟨s, hrest⟩ := runs_leave hp.toSized (hleave T (by omega)) hq hn
    exact ⟨_, hrun.append hrest⟩

/-! ## What blocks read -/

theorem filterMap_range_getElem? {α β : Type} (l : List α) (g : α → Option β) (n : Nat) :
    (List.range n).filterMap (fun i => l[i]?.bind g) = (l.take n).filterMap g := by
  induction n with
  | zero => simp
  | succ n ih =>
    rw [List.range_succ, List.filterMap_append, ih, List.take_add_one, List.filterMap_append]
    cases h : l[n]? with
    | none => simp [h]
    | some x =>
      rw [List.filterMap_cons, h]
      rfl

/-- The tiles that the first calls of a block read. -/
def Block.tiles (p : CubeV0UopPlanner) (b : Block) (calls : Nat) : List Nat :=
  if b.k = p.originalKTiles then
    (((b.offsets p).take calls).map (· + b.base)).filter (· < p.originalMTiles * p.originalNTiles)
  else []

theorem filterMap_answers (b : Block) (n : Nat) : (b.answers p n).filterMap id = b.tiles p n := by
  unfold Block.answers Block.tiles
  rw [List.filterMap_map]
  split_ifs with hk
  · have hreads : (id ∘ b.reads p) = fun i => (b.offsets p)[i]?.bind fun offset =>
        if offset + b.base < p.originalMTiles * p.originalNTiles then some (offset + b.base) else none := by
      funext i
      simp only [Function.comp, id, Block.reads, if_pos hk]
      cases (b.offsets p)[i]? <;> simp [Option.filter]
    rw [hreads, filterMap_range_getElem?, List.filter_map, ← List.filterMap_eq_map, List.filterMap_filter]
    refine List.filterMap_congr fun x _ => ?_
    simp
  · have hreads : (id ∘ b.reads p) = fun _ => none := by
      funext i
      simp [Block.reads, hk]
    rw [hreads]
    simp

theorem filterMap_walked (i n : Nat) : (p.walked i n).filterMap id =
    (List.range' i n).flatMap fun i => (p.walk i).tiles p ((p.walk i).span p) := by
  unfold walked
  induction List.range' i n with
  | nil => rfl
  | cons i l ih => rw [List.flatMap_cons, List.flatMap_cons, List.filterMap_append, ih, filterMap_answers]

/-! ## Down the rows -/

/-- The layers of K that a block folds. -/
def layers (p : CubeV0UopPlanner) : Nat := (p.originalKTiles + 1) / 2

/-- The block of a row and a layer, when there are at most two columns. -/
def row (p : CubeV0UopPlanner) (r j : Nat) : Block where
  m := p.originalMTiles - 2 * r
  k := p.originalKTiles - 2 * j
  n := p.originalNTiles
  base := (r + if j = 0 then 0 else 1) * if p.originalMTiles ≤ 1 then 1 else 2 * p.originalNTiles
  mode := 1

theorem walk_rows (hp : p.Fresh) (hN : p.originalNTiles ≤ 2) {r j : Nat} (hj : j < p.layers) :
    p.walk (r * p.layers + j) = p.row r j := by
  have hk := hp.k
  have hcompact : p.compactN = 1 := hp.compact.trans (if_pos hN)
  have hlayers : p.layers = (p.originalKTiles + 1) / 2 := rfl
  have hbase (r j : Nat) (hj : j < p.layers) : (p.row r j).nextBase p = (p.row r 1).base := by
    unfold Block.nextBase
    simp only [row, if_pos hN]
    by_cases h0 : j = 0
    · by_cases hM : p.originalMTiles ≤ 1 <;> simp [h0, hM, hN.not_gt, Nat.add_mul]
    · rw [if_neg (by omega), if_neg h0]
      rfl
  have hfirst : p.first = p.row 0 0 := by simp [first, row]
  rw [walk, hfirst]
  refine iterate_rows (g := p.row) (by omega) (fun i j hj => ?_) (fun i => ?_) hj
  · unfold Block.leave
    rw [if_neg (by simp [row]; omega), if_pos ⟨rfl, by simp only [row]; omega⟩, hbase i j (by omega), hcompact]
    exact Block.ext rfl (by simp only [row]; omega) rfl rfl rfl
  · unfold Block.leave
    rw [if_neg (by simp [row]; omega), if_neg (by simp only [row]; omega), if_neg (by simp only [row]; omega),
      if_neg (by simp [row]; omega), hbase i _ (by omega), hcompact]
    exact Block.ext (by simp only [row]; omega) rfl rfl rfl rfl

/-- No counter wraps down to the last row. -/
theorem row_canLeave (hp : p.Sized) (hN : p.originalNTiles ≤ 2) {r j : Nat} (hr : 2 * r < p.originalMTiles)
    (hlast : j + 1 = p.layers → 2 * (r + 1) < p.originalMTiles) (hj : j < p.layers) : (p.row r j).CanLeave p := by
  have hm := hp.m_lt
  have hk := hp.k
  have hlayers : p.layers = (p.originalKTiles + 1) / 2 := rfl
  refine ⟨.inr rfl, fun hk2 _ => ?_, ?_, ?_⟩
  · have := hlast (by simp only [row] at hk2; omega)
    simp only [row]
    omega
  · simp only [row]
    omega
  · have hinc : (if p.originalMTiles ≤ 1 then 1 else 2 * p.originalNTiles) ≤ 4 := by split <;> omega
    have hbase : (p.row r j).nextBase p ≤ (r + 2) * 4 := by
      unfold Block.nextBase
      simp only [row]
      have hmul := Nat.mul_le_mul (show r + (if j = 0 then 0 else 1) ≤ r + 1 by split <;> omega) hinc
      generalize (r + if j = 0 then 0 else 1) * (if p.originalMTiles ≤ 1 then 1 else 2 * p.originalNTiles) = base at *
      split_ifs <;> omega
    omega

/-- Pairs of tiles, and one if the last is odd. -/
theorem sum_shape (tiles : Nat) : ((List.range ((tiles + 1) / 2)).map fun j => shape (tiles - 2 * j)).sum = tiles := by
  induction tiles using Nat.twoStepInduction with
  | zero => rfl
  | one => rfl
  | more tiles ih _ =>
    rw [show (tiles + 2 + 1) / 2 = (tiles + 1) / 2 + 1 by omega, List.range_succ_eq_map, List.map_cons, List.map_map,
      List.sum_cons]
    have htail : ((fun j => shape (tiles + 2 - 2 * j)) ∘ Nat.succ) = fun j => shape (tiles - 2 * j) := by
      funext j
      exact congrArg shape (by simp only [Nat.succ_eq_add_one]; omega)
    have hhead : shape (tiles + 2 - 2 * 0) = 2 := if_neg (by omega)
    rw [htail, ih, hhead, Nat.add_comm]

theorem walked_zero (n : Nat) :
    p.walked 0 n = (List.range n).flatMap fun i => (p.walk i).answers p ((p.walk i).span p) := by
  rw [walked, List.range_eq_range']

theorem length_answers (b : Block) (n : Nat) : (b.answers p n).length = n := by
  simp [Block.answers]

theorem tiles_whole (hk : b.k = p.originalKTiles) (hc : (b.offsets p).length ≤ c) : b.tiles p c =
    ((b.offsets p).map (· + b.base)).filter (· < p.originalMTiles * p.originalNTiles) := by
  rw [Block.tiles, if_pos hk, List.take_of_length_le hc]

theorem length_offsets (b : Block) : (b.offsets p).length = shape b.m * shape p.originalNTiles := by
  unfold Block.offsets shape
  split_ifs <;> rfl

theorem length_offsets_le (b : Block) : (b.offsets p).length ≤ b.span p := by
  rw [length_offsets, Block.span, Nat.mul_assoc]
  refine Nat.le_mul_of_pos_left _ ?_
  unfold shape
  split <;> decide

/-- A row reads its tiles. -/
theorem tiles_row (hp : p.Sized) (hN : p.originalNTiles ≤ 2) {r : Nat} (hr : 2 * r < p.originalMTiles) :
    ((p.row r 0).tiles p ((p.row r 0).span p)).Perm
      (List.range' (2 * r * p.originalNTiles) (shape (p.originalMTiles - 2 * r) * p.originalNTiles)) := by
  have hn := hp.n
  have hbase : (p.row r 0).base = 2 * r * p.originalNTiles := by
    simp only [row, if_pos, Nat.add_zero]
    split
    · obtain rfl : r = 0 := by omega
      simp
    · ring
  have hperm : (((p.row r 0).offsets p).map (· + 2 * r * p.originalNTiles)).Perm
      (List.range' (2 * r * p.originalNTiles) (shape (p.originalMTiles - 2 * r) * p.originalNTiles)) := by
    unfold Block.offsets shape
    generalize hb : 2 * r * p.originalNTiles = base
    obtain hN1 | hN2 : p.originalNTiles = 1 ∨ p.originalNTiles = 2 := by omega
    · rw [hN1]
      by_cases hm : p.originalMTiles - 2 * r = 1 <;>
        simp [row, hm, List.range', Nat.add_comm]
    · rw [hN2]
      by_cases hm : p.originalMTiles - 2 * r = 1
      · simp [row, hm, List.range', Nat.add_comm]
      · simp only [row, hm, Nat.add_comm]
        exact .cons _ (.swap _ _ _)
  rw [tiles_whole rfl (length_offsets_le _), hbase]
  refine (List.Perm.filter _ hperm).trans (.of_eq (List.filter_eq_self.mpr fun t ht => ?_))
  obtain ⟨-, hlt⟩ := List.mem_range'_1.mp ht
  have hrows : 2 * r + shape (p.originalMTiles - 2 * r) ≤ p.originalMTiles := by
    unfold shape
    split <;> omega
  have hmul := Nat.mul_le_mul_right p.originalNTiles hrows
  rw [Nat.add_mul] at hmul
  exact decide_eq_true (by omega)

theorem flatMap_pairs {M : Nat} (f : Nat → Nat) (N R : Nat) (hR : 2 * R ≤ M + 1)
    (hf : ∀ r < R, f r = if M - 2 * r = 1 then 1 else 2) :
    ((List.range R).flatMap fun r => List.range' (2 * r * N) (f r * N)) = List.range (min (2 * R) M * N) := by
  induction R with
  | zero => simp
  | succ R ih =>
    have hmin : min (2 * (R + 1)) M * N = 2 * R * N + f R * N := by
      rw [hf R (by omega), ← Nat.add_mul]
      congr 1
      split <;> omega
    rw [List.range_succ, List.flatMap_append, ih (by omega) fun r hr => hf r (by omega), hmin, List.range_add,
      show min (2 * R) M = 2 * R by omega]
    simp [List.range'_eq_map_range]

/-- What a planner that reads every tile once answers. -/
def Answers (p : CubeV0UopPlanner) (l : List (Option Nat)) : Prop :=
  (∃ q, Runs p l q) ∧ l.length = p.originalMTiles * p.originalKTiles * p.originalNTiles ∧
    (l.filterMap id).Perm (List.range (p.originalMTiles * p.originalNTiles))

/-- With two columns at most, each row reads its tiles. -/
theorem answers_rows (hp : p.Fresh) (hN : p.originalNTiles ≤ 2) : ∃ l, p.Answers l := by
  have hm := hp.m
  have hk := hp.k
  have hn := hp.n
  have hlayers : p.layers = (p.originalKTiles + 1) / 2 := rfl
  have hL : 0 < p.layers := by omega
  obtain ⟨R, hR⟩ : ∃ R, R = (p.originalMTiles + 1) / 2 := ⟨_, rfl⟩
  have hblocks : p.walked 0 (R * p.layers) = (List.range R).flatMap fun r => (List.range p.layers).flatMap fun j =>
      (p.row r j).answers p ((p.row r j).span p) := by
    rw [walked_zero, flatMap_range_mul]
    exact flatMap_congr_range fun r _ => flatMap_congr_range fun j hj => by rw [walk_rows hp hN hj]
  have hspan (r j : Nat) : (p.row r j).span p = shape (p.originalKTiles - 2 * j) *
      (shape (p.originalMTiles - 2 * r) * p.originalNTiles) := by
    have hshape : shape p.originalNTiles = p.originalNTiles := by
      unfold shape
      split <;> omega
    rw [Block.span, hshape, Nat.mul_assoc]
    rfl
  refine ⟨p.walked 0 (R * p.layers), ?_, ?_, ?_⟩
  · obtain ⟨T, hT⟩ : ∃ T, R * p.layers = T + 1 :=
      Nat.exists_eq_succ_of_ne_zero (Nat.mul_pos (by omega) hL).ne'
    obtain ⟨q, hrun, -⟩ := run_walk (T := T) hp fun i hi => by
      have hsplit := Nat.div_add_mod' i p.layers
      have hj := Nat.mod_lt i hL
      have hrow : i / p.layers < R := Nat.div_lt_of_lt_mul (by rw [Nat.mul_comm]; omega)
      rw [← hsplit, walk_rows hp hN hj]
      refine row_canLeave hp.toSized hN (by omega) (fun hlast => ?_) hj
      have hnext : i / p.layers + 1 < R := by
        by_contra hge
        have hmul : R * p.layers ≤ (i / p.layers + 1) * p.layers := Nat.mul_le_mul_right _ (by omega)
        rw [Nat.add_mul, Nat.one_mul] at hmul
        omega
      omega
    exact ⟨q, hT ▸ hrun⟩
  · rw [hblocks, List.length_flatMap]
    have hrow (r : Nat) : ((List.range p.layers).flatMap fun j => (p.row r j).answers p ((p.row r j).span p)).length =
        shape (p.originalMTiles - 2 * r) * (p.originalKTiles * p.originalNTiles) := by
      simp only [List.length_flatMap, length_answers, hspan]
      rw [List.sum_map_mul_right, hlayers, sum_shape]
      ring
    simp only [hrow]
    rw [List.sum_map_mul_right, hR, sum_shape, Nat.mul_assoc]
  · have htiles : (p.walked 0 (R * p.layers)).filterMap id =
        (List.range R).flatMap fun r => (p.row r 0).tiles p ((p.row r 0).span p) := by
      rw [hblocks, List.filterMap_flatMap]
      refine flatMap_congr_range fun r _ => ?_
      rw [List.filterMap_flatMap]
      simp only [filterMap_answers]
      obtain ⟨L, hL⟩ := Nat.exists_eq_succ_of_ne_zero hL.ne'
      rw [hL, List.range_succ_eq_map, List.flatMap_cons, List.flatMap_map]
      refine (congrArg _ (List.flatMap_eq_nil_iff.mpr fun j hj => if_neg ?_)).trans (List.append_nil _)
      simp only [row]
      omega
    rw [htiles]
    refine (List.Perm.flatMap_left _ fun r hr => tiles_row hp.toSized hN ?_).trans (.of_eq ?_)
    · have := List.mem_range.mp hr
      omega
    · rw [flatMap_pairs (M := p.originalMTiles) (fun r => shape (p.originalMTiles - 2 * r)) _ R (by omega)
          fun r _ => rfl,
        show min (2 * R) p.originalMTiles = p.originalMTiles by omega]

/-! ## Along the first row -/

/-- The block of a column, when there are at most two layers of K. -/
def column (p : CubeV0UopPlanner) (i : Nat) : Block where
  m := p.originalMTiles
  k := p.originalKTiles
  n := p.originalNTiles - 2 * i
  base := 2 * i
  mode := if i = 0 then 1 else 0

theorem nextBase_wide (hN : 2 < p.originalNTiles) (hk : b.k = p.originalKTiles) : b.nextBase p = b.base + 2 := by
  rw [Block.nextBase, if_pos hk, if_pos (.inr hN), if_neg hN.not_ge]

theorem walk_columns (hp : p.Fresh) (hK : p.originalKTiles ≤ 2) (hN : 2 < p.originalNTiles) {i : Nat}
    (hi : 2 * i < p.originalNTiles) : p.walk i = p.column i := by
  have hcompact : p.compactN = 0 := hp.compact.trans (if_neg hN.not_ge)
  induction i with
  | zero => rfl
  | succ i ih =>
    rw [walk_succ, ih (by omega), Block.leave, nextBase_wide hN rfl, hcompact]
    by_cases h0 : i = 0
    · rw [if_pos ⟨if_pos h0, by simp only [column]; omega⟩]
      exact Block.ext rfl rfl (by simp only [column]; omega) (by simp only [column]; omega) rfl
    · have hmode : (p.column i).mode ≠ 1 := by simp [column, h0]
      rw [if_neg fun h => hmode h.1, if_neg fun h => hmode h.1, if_neg (show ¬ 2 < (p.column i).k from hK.not_gt),
        if_pos (by simp only [column]; omega)]
      exact Block.ext rfl rfl (by simp only [column]; omega) (by simp only [column]; omega) rfl

/-- No counter wraps along the first row, nor when it is left and another follows. -/
theorem column_canLeave (hp : p.Sized) (hN : 2 < p.originalNTiles) {i : Nat} (hi : 2 * i < p.originalNTiles)
    (hrow : p.originalNTiles ≤ 2 * (i + 1) → 2 ≤ p.originalMTiles) : (p.column i).CanLeave p := by
  have hn := hp.n_lt
  refine ⟨?_, fun _ h => hrow (by simp only [column] at h; omega), by simp only [column]; omega, ?_⟩
  · simp only [column]
    split <;> simp
  · rw [nextBase_wide hN rfl]
    simp only [column]
    omega

theorem span_column (hp : p.Sized) (hK : p.originalKTiles ≤ 2) (hN : 2 < p.originalNTiles) (i : Nat) :
    (p.column i).span p = p.originalKTiles * shape p.originalMTiles * 2 := by
  have hk := hp.k
  have hshape : shape p.originalKTiles = p.originalKTiles := by
    unfold shape
    split <;> omega
  rw [Block.span, show shape p.originalNTiles = 2 from if_neg (by omega)]
  simp only [column, hshape]

theorem length_walked (hp : p.Fresh) (hK : p.originalKTiles ≤ 2) (hN : 2 < p.originalNTiles) {T : Nat}
    (hT : ∀ i < T, 2 * i < p.originalNTiles) :
    (p.walked 0 T).length = T * (p.originalKTiles * shape p.originalMTiles * 2) := by
  have hspan : ∀ i ∈ List.range T, ((p.walk i).answers p ((p.walk i).span p)).length =
      p.originalKTiles * shape p.originalMTiles * 2 := by
    intro i hi
    rw [length_answers, walk_columns hp hK hN (hT i (List.mem_range.mp hi)), span_column hp.toSized hK hN]
  rw [walked_zero, List.length_flatMap, List.map_congr_left hspan, List.map_const', List.length_range]
  simp

theorem tiles_walked (hp : p.Fresh) (hK : p.originalKTiles ≤ 2) (hN : 2 < p.originalNTiles) {T : Nat}
    (hT : ∀ i < T, 2 * i < p.originalNTiles) : (p.walked 0 T).filterMap id =
      (List.range T).flatMap fun i => (p.column i).tiles p ((p.column i).span p) := by
  rw [filterMap_walked, ← List.range_eq_range']
  exact flatMap_congr_range fun i hi => by rw [walk_columns hp hK hN (hT i hi)]

/-- Pairs of columns, and one if the last is odd. -/
theorem flatMap_range'_pairs (a N T : Nat) :
    ((List.range T).flatMap fun i => List.range' (a + 2 * i) (min 2 (N - 2 * i))) = List.range' a (min (2 * T) N) := by
  induction T with
  | zero => simp
  | succ T ih =>
    rw [List.range_succ, List.flatMap_append, ih, List.flatMap_singleton]
    rcases Nat.le_total (2 * T) N with h | h
    · rw [show min (2 * T) N = 2 * T by omega, List.range'_append_1,
        show 2 * T + min 2 (N - 2 * T) = min (2 * (T + 1)) N by omega]
    · rw [show min 2 (N - 2 * T) = 0 by omega, List.range'_zero, List.append_nil,
        show min (2 * T) N = min (2 * (T + 1)) N by omega]

/-- In the only row, the calls of a column that reach its last tile. -/
theorem tiles_column_one (hM : p.originalMTiles = 1) (hN : 2 < p.originalNTiles) {i : Nat}
    (hc : min 2 (p.originalNTiles - 2 * i) ≤ c) :
    (p.column i).tiles p c = List.range' (0 + 2 * i) (min 2 (p.originalNTiles - 2 * i)) := by
  have hoffsets : (p.column i).offsets p = [0, 1] := by
    rw [Block.offsets, if_pos (show (p.column i).m = 1 from hM), if_neg (by omega)]
  rw [Block.tiles, if_pos (show (p.column i).k = p.originalKTiles from rfl), hoffsets, hM, Nat.one_mul]
  have hbase : (p.column i).base = 2 * i := rfl
  rw [hbase]
  obtain hnone | hodd | heven : p.originalNTiles ≤ 2 * i ∨ p.originalNTiles = 2 * i + 1 ∨
    2 * i + 2 ≤ p.originalNTiles := by omega
  · rw [Nat.sub_eq_zero_of_le hnone]
    refine List.filter_eq_nil_iff.mpr fun t ht => ?_
    obtain ⟨t, -, rfl⟩ := List.mem_map.mp ht
    simp only [decide_eq_true_eq]
    omega
  · obtain ⟨c, rfl⟩ : ∃ c', c = c' + 1 := ⟨c - 1, by omega⟩
    rw [hodd, Nat.add_sub_cancel_left]
    cases c <;> simp
  · rw [show min 2 (p.originalNTiles - 2 * i) = 2 by omega] at hc ⊢
    rw [List.take_of_length_le hc, List.filter_eq_self.mpr (by simp; omega)]
    simp [List.range', Nat.add_comm]

theorem offsets_wide (hm : b.m ≠ 1) (hN : 2 < p.originalNTiles) :
    b.offsets p = [0, p.originalNTiles, 1, p.originalNTiles + 1] := by
  rw [Block.offsets, if_neg hm, if_neg (by omega)]

/-- In two rows, the calls of a column that read all its tiles and no other. -/
theorem tiles_column_two (hM : p.originalMTiles = 2) (hN : 2 < p.originalNTiles) {i : Nat}
    (hc : 4 ≤ c ∧ 2 * i + 2 ≤ p.originalNTiles ∨ c = 2 ∧ p.originalNTiles = 2 * i + 1) :
    ((p.column i).tiles p c).Perm (List.range' (0 + 2 * i) (min 2 (p.originalNTiles - 2 * i)) ++
      List.range' (p.originalNTiles + 2 * i) (min 2 (p.originalNTiles - 2 * i))) := by
  have hoffsets := offsets_wide (b := p.column i) (hM.trans_ne (by decide)) hN
  rw [Block.tiles, if_pos (show (p.column i).k = p.originalKTiles from rfl), hoffsets, hM]
  have hbase : (p.column i).base = 2 * i := rfl
  rw [hbase]
  rcases hc with ⟨hc, hi⟩ | ⟨rfl, hi⟩
  · rw [List.take_of_length_le hc, Nat.min_eq_left (by omega), List.filter_eq_self.mpr (by simp; omega)]
    have hlist : List.map (· + 2 * i) [0, p.originalNTiles, 1, p.originalNTiles + 1] =
        [0 + 2 * i, p.originalNTiles + 2 * i, 0 + 2 * i + 1, p.originalNTiles + 2 * i + 1] := by
      simp
      omega
    rw [hlist]
    exact .cons _ (.swap _ _ _)
  · rw [show min 2 (p.originalNTiles - 2 * i) = 1 by omega, List.filter_eq_self.mpr (by simp; omega)]
    simp

/-- With one row, or two and a K that does not fold behind the last column, the columns are read in turn. -/
theorem answers_columns (hp : p.Fresh) (hK : p.originalKTiles ≤ 2) (hN : 2 < p.originalNTiles)
    (hM : p.originalMTiles = 1 ∨ p.originalMTiles = 2 ∧ (p.originalKTiles = 1 ∨ p.originalNTiles % 2 = 0)) :
    ∃ l, p.Answers l := by
  have hk := hp.k
  have hshape : shape p.originalMTiles = p.originalMTiles := by
    unfold shape
    split <;> omega
  obtain ⟨T, hT⟩ : ∃ T, T = (p.originalNTiles - 1) / 2 := ⟨_, rfl⟩
  obtain ⟨size, hsize⟩ : ∃ size, p.originalMTiles * p.originalKTiles = size := ⟨_, rfl⟩
  have hsize0 : 0 < size := hsize ▸ Nat.mul_pos (by omega) hk
  obtain ⟨n, hn, hns⟩ : ∃ n, p.originalNTiles * size = T * (size * 2) + (n + 1) ∧ (n + 1 = size * 2 ∧
      p.originalNTiles = 2 * T + 2 ∨ n + 1 = size ∧ p.originalNTiles = 2 * T + 1) := by
    obtain hodd | heven : p.originalNTiles = 2 * T + 1 ∨ p.originalNTiles = 2 * T + 2 := by omega
    · exact ⟨size - 1, by rw [hodd, Nat.sub_add_cancel hsize0]; ring, .inr ⟨by omega, hodd⟩⟩
    · exact ⟨size * 2 - 1, by rw [heven, Nat.sub_add_cancel (by omega)]; ring, .inl ⟨by omega, heven⟩⟩
  have hspan (i : Nat) : (p.column i).span p = size * 2 := by
    rw [span_column hp.toSized hK hN, hshape, ← hsize, Nat.mul_comm p.originalMTiles]
  have hwalk := walk_columns hp hK hN (show 2 * T < p.originalNTiles by omega)
  refine ⟨p.walked 0 T ++ (p.walk T).answers p (n + 1), ?_, ?_, ?_⟩
  · refine run_walk_part hp (fun i hi => ?_) (by rw [hwalk, hspan]; omega)
    rw [walk_columns hp hK hN (by omega)]
    exact column_canLeave hp.toSized hN (by omega) (by omega)
  · rw [List.length_append, length_walked hp hK hN (by omega), length_answers, hshape, Nat.mul_comm p.originalKTiles,
      hsize, ← hn, Nat.mul_comm]
  · have htiles : (p.walked 0 T ++ (p.walk T).answers p (n + 1)).filterMap id = (List.range (T + 1)).flatMap fun i =>
        (p.column i).tiles p (if i < T then size * 2 else n + 1) := by
      rw [List.filterMap_append, filterMap_answers, hwalk, tiles_walked hp hK hN (by omega), List.range_succ,
        List.flatMap_append, List.flatMap_singleton, if_neg (lt_irrefl T)]
      refine congrArg (· ++ _) (flatMap_congr_range fun i hi => ?_)
      rw [if_pos hi, hspan]
    have hcolumns (a : Nat) : ((List.range (T + 1)).flatMap fun i =>
        List.range' (a + 2 * i) (min 2 (p.originalNTiles - 2 * i))) = List.range' a p.originalNTiles := by
      rw [flatMap_range'_pairs, Nat.min_eq_right (by omega)]
    rw [htiles]
    obtain hM | ⟨hM, hK⟩ := hM
    · refine .of_eq ?_
      rw [hM, Nat.one_mul, @List.range_eq_range' p.originalNTiles, ← hcolumns]
      refine flatMap_congr_range fun i hi => tiles_column_one hM hN ?_
      split_ifs <;> omega
    · rw [hM, Nat.two_mul, @List.range_eq_range' (p.originalNTiles + p.originalNTiles), ← List.range'_append_1,
        Nat.zero_add, ← hcolumns, ← hcolumns]
      refine .trans (List.Perm.flatMap_left _ fun i hi => ?_) (List.flatMap_append_perm ..).symm
      have hi := List.mem_range.mp hi
      refine tiles_column_two hM hN ?_
      rw [hM] at hsize
      split_ifs <;> omega

/-! ## Along the first row, over the layers of K -/

/-- The block of a layer, in the turn of a column behind the first. -/
def cycle (p : CubeV0UopPlanner) (i j : Nat) : Block where
  m := p.originalMTiles
  k := p.originalKTiles - 2 * j
  n := p.originalNTiles - 2 + i * (2 * p.layers - 4) + 2 * j
  base := 2 * (i + 1) + if j = 0 then 0 else 2
  mode := 0

theorem first_leave (hp : p.Fresh) (hN : 2 < p.originalNTiles) : p.first.leave p = p.cycle 0 0 := by
  have hcompact : p.compactN = 0 := hp.compact.trans (if_neg hN.not_ge)
  rw [Block.leave, if_pos ⟨rfl, hN⟩, nextBase_wide hN rfl, hcompact]
  exact Block.ext rfl rfl (by simp [first, cycle]) rfl rfl

theorem cycle_nextBase (hN : 2 < p.originalNTiles) {i j : Nat} (hj : j < p.layers) :
    (p.cycle i j).nextBase p = 2 * (i + 1) + 2 := by
  have hlayers : p.layers = (p.originalKTiles + 1) / 2 := rfl
  by_cases h0 : j = 0
  · rw [nextBase_wide hN (by simp [cycle, h0])]
    simp only [cycle, if_pos h0]
  · rw [Block.nextBase, if_neg (by simp only [cycle]; omega)]
    simp only [cycle, if_neg h0]

theorem walk_cycles (hp : p.Fresh) (hK : 2 < p.originalKTiles) (hN : 2 < p.originalNTiles) {i j : Nat}
    (hj : j < p.layers) : p.walk (1 + (i * p.layers + j)) = p.cycle i j := by
  have hcompact : p.compactN = 0 := hp.compact.trans (if_neg hN.not_ge)
  have hlayers : p.layers = (p.originalKTiles + 1) / 2 := rfl
  rw [walk, Nat.add_comm, Function.iterate_succ_apply, first_leave hp hN]
  refine iterate_rows (g := p.cycle) (by omega) (fun i j hj => ?_) (fun i => ?_) hj
  · rw [Block.leave, if_neg (by simp [cycle]), if_neg (by simp [cycle]), if_pos (by simp only [cycle]; omega),
      cycle_nextBase hN (by omega), hcompact]
    exact Block.ext rfl (by simp only [cycle]; omega) (by simp only [cycle]; omega) (by simp [cycle]) rfl
  · rw [Block.leave, if_neg (by simp [cycle]), if_neg (by simp [cycle]), if_neg (by simp only [cycle]; omega),
      if_pos (by simp only [cycle]; omega), cycle_nextBase hN (by omega), hcompact]
    refine Block.ext rfl rfl ?_ (by simp only [cycle, if_pos]; omega) rfl
    simp only [cycle, Nat.add_mul]
    omega

/-- No counter wraps over the turns of all columns. -/
theorem cycle_canLeave (hp : p.Sized) (hK : 2 < p.originalKTiles) (hN : 2 < p.originalNTiles) {i j : Nat}
    (hi : 2 * i ≤ p.originalNTiles) (hj : j < p.layers) : (p.cycle i j).CanLeave p := by
  have hk := hp.k_lt
  have hn := hp.n_lt
  have hlayers : p.layers = (p.originalKTiles + 1) / 2 := rfl
  have hturns : i * (2 * p.layers - 4) ≤ 2 ^ 15 * 2 ^ 16 := Nat.mul_le_mul (by omega) (by omega)
  refine ⟨.inl rfl, fun hk2 hn2 => ?_, by simp only [cycle]; omega, ?_⟩
  · simp only [cycle] at hk2 hn2
    omega
  · rw [cycle_nextBase hN hj]
    omega

theorem walk_canLeave_cycles (hp : p.Fresh) (hK : 2 < p.originalKTiles) (hN : 2 < p.originalNTiles) {I : Nat}
    (hI : 2 * I ≤ p.originalNTiles + 2) : ∀ i < 1 + I * p.layers, (p.walk i).CanLeave p := by
  have hn := hp.n_lt
  have hL : 0 < p.layers := by
    unfold layers
    omega
  intro i hi
  cases i with
  | zero =>
    refine ⟨.inr rfl, fun _ h => absurd hN h.not_gt, ?_, ?_⟩
    · change p.originalNTiles + 2 < 2 ^ 32
      omega
    · rw [walk_zero, nextBase_wide hN rfl]
      change 0 + 2 + p.originalNTiles + 1 < 2 ^ 32
      omega
  | succ i =>
    have hj := Nat.mod_lt i hL
    have hrow : i / p.layers < I := Nat.div_lt_of_lt_mul (by rw [Nat.mul_comm]; omega)
    rw [Nat.add_comm, ← Nat.div_add_mod' i p.layers, walk_cycles hp hK hN hj]
    exact cycle_canLeave hp.toSized hK hN (by omega) hj

/-- What is over all blocks of the first turn and `I` more, where the layers of K add up. -/
theorem walked_cycles (hp : p.Fresh) (hK : 2 < p.originalKTiles) (hN : 2 < p.originalNTiles) (I : Nat) :
    p.walked 0 (1 + I * p.layers) = p.first.answers p (p.first.span p) ++ (List.range I).flatMap fun i =>
      (List.range p.layers).flatMap fun j => (p.cycle i j).answers p ((p.cycle i j).span p) := by
  rw [walked_add, walked_one, walk_zero, walked, List.range'_eq_map_range, List.flatMap_map, flatMap_range_mul]
  refine congrArg _ (flatMap_congr_range fun i _ => flatMap_congr_range fun j hj => ?_)
  rw [Nat.zero_add, walk_cycles hp hK hN hj]

/-- A block of the outermost layer lasts as long as the first. -/
theorem span_outermost (hK : 2 < p.originalKTiles) (hN : 2 < p.originalNTiles) (hk : b.k = p.originalKTiles)
    (hm : b.m = p.originalMTiles) : b.span p = 4 * shape p.originalMTiles := by
  rw [Block.span, hk, hm, show shape p.originalNTiles = 2 from if_neg (by omega),
    show shape p.originalKTiles = 2 from if_neg (by omega)]
  ring

theorem length_walked_cycles (hp : p.Fresh) (hK : 2 < p.originalKTiles) (hN : 2 < p.originalNTiles) (I : Nat) :
    (p.walked 0 (1 + I * p.layers)).length =
      4 * shape p.originalMTiles + I * (p.originalKTiles * (shape p.originalMTiles * 2)) := by
  have hshape : shape p.originalNTiles = 2 := if_neg (by omega)
  have hfirst : p.first.span p = 4 * shape p.originalMTiles := span_outermost hK hN rfl rfl
  have hspan (i j : Nat) : (p.cycle i j).span p =
      shape (p.originalKTiles - 2 * j) * (shape p.originalMTiles * 2) := by
    rw [Block.span, hshape, Nat.mul_assoc]
    rfl
  rw [walked_cycles hp hK hN, List.length_append, length_answers, hfirst]
  simp only [List.length_flatMap, length_answers, hspan]
  rw [List.sum_map_mul_right, layers, sum_shape]
  simp

theorem tiles_cycle (i c : Nat) : (p.cycle i 0).tiles p c = (p.column (i + 1)).tiles p c := rfl

theorem tiles_cycles (hp : p.Fresh) (hM : p.originalMTiles = 1) (hK : 2 < p.originalKTiles)
    (hN : 2 < p.originalNTiles) (I : Nat) :
    (p.walked 0 (1 + I * p.layers)).filterMap id = List.range' 0 (min (2 * (I + 1)) p.originalNTiles) := by
  have hlayers : p.layers = (p.originalKTiles + 1) / 2 := rfl
  have hturn (i : Nat) :
      ((List.range p.layers).flatMap fun j => (p.cycle i j).answers p ((p.cycle i j).span p)).filterMap id =
        (p.column (i + 1)).tiles p ((p.cycle i 0).span p) := by
    obtain ⟨L, hL⟩ := Nat.exists_eq_succ_of_ne_zero (show p.layers ≠ 0 by omega)
    rw [List.filterMap_flatMap, hL, List.range_succ_eq_map, List.flatMap_cons, List.flatMap_map]
    simp only [filterMap_answers]
    refine (congrArg _ (List.flatMap_eq_nil_iff.mpr fun j hj => if_neg ?_)).trans (List.append_nil _)
    simp only [cycle]
    omega
  have hfirst : p.first = p.column 0 := rfl
  have hspan (b : Block) (t : Nat) (hk : b.k = p.originalKTiles) (hm : b.m = p.originalMTiles) :
      min 2 t ≤ b.span p := by
    rw [span_outermost hK hN hk hm, hM]
    exact (Nat.min_le_left 2 t).trans (by decide)
  rw [walked_cycles hp hK hN, List.filterMap_append, filterMap_answers, List.filterMap_flatMap, hfirst,
    tiles_column_one hM hN (hspan _ _ rfl rfl), ← flatMap_range'_pairs, List.range_succ_eq_map, List.flatMap_cons,
    List.flatMap_map]
  refine congrArg _ (flatMap_congr_range fun i _ => ?_)
  rw [hturn, tiles_column_one hM hN (hspan _ _ rfl rfl)]

/-- One row, and any number of layers. -/
theorem answers_cycles (hp : p.Fresh) (hM : p.originalMTiles = 1) (hK : 2 < p.originalKTiles)
    (hN : 2 < p.originalNTiles) : ∃ l, p.Answers l := by
  have hL : 0 < p.layers := by
    unfold layers
    omega
  obtain ⟨I, hI⟩ : ∃ I, I = (p.originalNTiles - 1) / 2 - 1 := ⟨_, rfl⟩
  have hshape : shape p.originalMTiles = 1 := if_pos hM
  -- The turn of the last column begins before the last call, and the turn behind it does not end before.
  have hlow : 4 * 1 + I * (p.originalKTiles * (1 * 2)) + 4 * 1 ≤ p.originalNTiles * p.originalKTiles := by
    have := Nat.mul_le_mul_right p.originalKTiles (show 2 * I + 3 ≤ p.originalNTiles by omega)
    rw [Nat.add_mul] at this
    linarith
  have htop : p.originalNTiles * p.originalKTiles ≤ 4 * 1 + (I + 2) * (p.originalKTiles * (1 * 2)) := by
    have := Nat.mul_le_mul_right p.originalKTiles (show p.originalNTiles ≤ 2 * (I + 2) by omega)
    linarith
  have hlength := length_walked_cycles hp hK hN (I + 2)
  have hall := tiles_cycles hp hM hK hN (I + 2)
  have hwalk : p.walk (1 + I * p.layers) = p.cycle I 0 := walk_cycles hp hK hN hL
  have hpart : (p.walked 0 (1 + I * p.layers + 1)).filterMap id = List.range' 0 p.originalNTiles := by
    have hspan : (p.cycle I 0).span p = 4 * 1 := by rw [span_outermost hK hN rfl rfl, hshape]
    rw [walked_add, walked_one, List.filterMap_append, tiles_cycles hp hM hK hN, filterMap_answers,
      Nat.zero_add (1 + _), hwalk, tiles_cycle, tiles_column_one hM hN (by omega),
      show min (2 * (I + 1)) p.originalNTiles = 2 * (I + 1) by omega, List.range'_append_1]
    congr 1
    omega
  have hpartLength : (p.walked 0 (1 + I * p.layers + 1)).length ≤ p.originalNTiles * p.originalKTiles := by
    rw [walked_add, List.length_append, length_walked_cycles hp hK hN, walked_one, length_answers, Nat.zero_add, hwalk,
      span_outermost hK hN rfl rfl, hshape]
    exact hlow
  have hfront : p.walked 0 (1 + I * p.layers + 1) <+: p.walked 0 (1 + (I + 2) * p.layers) :=
    walked_prefix 0 (by rw [Nat.add_mul]; omega)
  rw [hshape] at hlength
  refine ⟨(p.walked 0 (1 + (I + 2) * p.layers)).take (p.originalNTiles * p.originalKTiles), ?_, ?_, .of_eq ?_⟩
  · obtain ⟨q, hrun, -⟩ := run_walk (T := (I + 2) * p.layers) hp fun i hi =>
      walk_canLeave_cycles hp hK hN (I := I + 2) (by omega) i (by omega)
    rw [Nat.add_comm, ← List.take_append_drop (p.originalNTiles * p.originalKTiles) (p.walked _ _)] at hrun
    exact hrun.prefix
  · rw [List.length_take, hlength, Nat.min_eq_left htop, hM, Nat.one_mul, Nat.mul_comm]
  · have hupper := (List.take_prefix (p.originalNTiles * p.originalKTiles)
      (p.walked 0 (1 + (I + 2) * p.layers))).filterMap id
    have hlower := (List.prefix_take_iff.mpr ⟨hfront, hpartLength⟩).filterMap id
    rw [hall, Nat.min_eq_right (by omega)] at hupper
    rw [hpart] at hlower
    rw [hM, Nat.one_mul, List.range_eq_range']
    exact hupper.eq_of_length_le hlower.length_le

/-! ## A tile that is read twice -/

/-- A block below whose first row there is another reads its tiles. -/
theorem reads_of_offset {t : Nat} (hk : b.k = p.originalKTiles) (hoffset : (b.offsets p)[c]? = some t)
    (hlt : t + b.base < p.originalMTiles * p.originalNTiles) : b.reads p c = some (t + b.base) := by
  rw [Block.reads, if_pos hk, hoffset]
  simp [Option.filter, hlt]

/-- The second tile of the first row's first block, which comes again. -/
theorem not_perm_of_again (hp : p.Fresh) (hM : 2 ≤ p.originalMTiles) (hN : 2 < p.originalNTiles) {T n : Nat}
    (hT : 0 < T) (hleave : ∀ i < T, (p.walk i).CanLeave p) (hn : n < (p.walk T).span p)
    (hread : (p.walk T).reads p n = some p.originalNTiles)
    (hlen : (p.walked 0 T).length + (n + 1) ≤ p.originalMTiles * p.originalKTiles * p.originalNTiles) :
    ¬ ((l0cReadIndices (p.originalMTiles * p.originalKTiles * p.originalNTiles) p).filterMap id).Perm
      (List.range (p.originalMTiles * p.originalNTiles)) := by
  intro hperm
  obtain ⟨q, hrun⟩ := run_walk_part hp hleave hn
  obtain ⟨rest, hrest⟩ := Nat.exists_eq_add_of_le hlen
  have hcalls := hrun.wrapping rest
  rw [List.length_append, length_answers, ← hrest] at hcalls
  have hnodup := hperm.nodup_iff.mpr List.nodup_range
  rw [hcalls, List.filterMap_append, List.filterMap_append] at hnodup
  have hagain : p.originalNTiles ∈ ((p.walk T).answers p (n + 1)).filterMap id :=
    List.mem_filterMap.mpr ⟨_, List.mem_map.mpr ⟨n, List.mem_range.mpr (Nat.lt_succ_self n), hread⟩, rfl⟩
  have hfirst : p.originalNTiles ∈ (p.walked 0 T).filterMap id := by
    refine List.mem_filterMap.mpr ⟨_, List.mem_flatMap.mpr ⟨0, List.mem_range'_1.mpr ⟨le_rfl, by omega⟩,
      List.mem_map.mpr ⟨1, List.mem_range.mpr ?_, ?_⟩⟩, rfl⟩
    · rw [walk_zero, Block.span, show shape p.originalNTiles = 2 from if_neg (by omega)]
      have hshape (t : Nat) : 0 < shape t := by
        unfold shape
        split <;> decide
      have := Nat.mul_pos (hshape p.first.k) (hshape p.first.m)
      omega
    · refine reads_of_offset (b := p.first) rfl (by rw [offsets_wide (by simp [first]; omega) hN]; rfl) ?_
      change p.originalNTiles + 0 < _
      nlinarith
  exact List.disjoint_of_nodup_append (List.Nodup.of_append_left hnodup) hfirst hagain

/-- Whether the walk gets to every tile once. -/
def ReadsOnce (p : CubeV0UopPlanner) : Prop :=
  ((l0cReadIndices (p.originalMTiles * p.originalKTiles * p.originalNTiles) p).filterMap id).Perm
    (List.range (p.originalMTiles * p.originalNTiles))

/-- The columns go on in a row that is none. -/
theorem again_columns_even (hp : p.Fresh) (hM : 2 < p.originalMTiles) (hK : p.originalKTiles ≤ 2)
    (hN : 2 < p.originalNTiles) {T : Nat} (hT : p.originalNTiles = 2 * (T + 1)) : ¬ p.ReadsOnce := by
  have hcompact : p.compactN = 0 := hp.compact.trans (if_neg hN.not_ge)
  have hlast := walk_columns hp hK hN (show 2 * T < p.originalNTiles by omega)
  have hmode : (p.column T).mode ≠ 1 := by
    simp only [column]
    split <;> omega
  have hleave : p.walk (T + 1) = ⟨p.originalMTiles - 2, p.originalKTiles, p.originalNTiles, p.originalNTiles, 0⟩ := by
    rw [walk_succ, hlast, Block.leave, if_neg fun h => hmode h.1, if_neg fun h => hmode h.1,
      if_neg (show ¬ 2 < (p.column T).k from hK.not_gt), if_neg (by simp only [column]; omega), nextBase_wide hN rfl,
      hcompact]
    exact Block.ext rfl rfl rfl (by simp only [column]; omega) rfl
  refine not_perm_of_again (n := 0) hp hM.le hN (Nat.succ_pos T) (fun i hi => ?_) (Block.span_pos p _) ?_ ?_
  · rw [walk_columns hp hK hN (by omega)]
    exact column_canLeave hp.toSized hN (by omega) fun _ => hM.le
  · rw [hleave]
    refine (reads_of_offset (t := 0) rfl (offsets_zero _) ?_).trans (congrArg some (Nat.zero_add _))
    change 0 + p.originalNTiles < _
    nlinarith
  · rw [length_walked hp hK hN (by omega), show shape p.originalMTiles = 2 from if_neg (by omega)]
    have hpos := Nat.mul_pos hp.k hp.n
    have hcalls : (T + 1) * (p.originalKTiles * 2 * 2) = 2 * (p.originalKTiles * p.originalNTiles) := by
      rw [hT]
      ring
    rw [hcalls, Nat.mul_assoc]
    nlinarith

/-- The last column reads beyond the end of its row. -/
theorem again_columns_odd (hp : p.Fresh) (hM : 2 ≤ p.originalMTiles) (hK : p.originalKTiles ≤ 2)
    (hN : 2 < p.originalNTiles) {T : Nat} (hT : p.originalNTiles = 2 * T + 1)
    (hcalls : 2 < p.originalMTiles ∨ p.originalKTiles = 2) : ¬ p.ReadsOnce := by
  have hlast := walk_columns hp hK hN (show 2 * T < p.originalNTiles by omega)
  have hshape : shape p.originalMTiles = 2 := if_neg (by omega)
  have hk := hp.k
  refine not_perm_of_again (n := 2) hp hM hN (show 0 < T by omega) (fun i hi => ?_) ?_ ?_ ?_
  · rw [walk_columns hp hK hN (by omega)]
    exact column_canLeave hp.toSized hN (by omega) fun _ => hM
  · rw [hlast, span_column hp.toSized hK hN, hshape]
    omega
  · rw [hlast]
    refine (reads_of_offset (t := 1) rfl (by rw [offsets_wide (by simp [column]; omega) hN]; rfl) ?_).trans
      (congrArg some ?_) <;> simp only [column]
    · nlinarith
    · omega
  · rw [length_walked hp hK hN (by omega), hshape]
    have hcount : p.originalKTiles * p.originalNTiles = T * (p.originalKTiles * 2) + p.originalKTiles := by
      rw [hT]
      ring
    rw [Nat.mul_assoc p.originalMTiles, hcount]
    rcases hcalls with h | h
    · have hrows := Nat.mul_le_mul_right (T * (p.originalKTiles * 2) + p.originalKTiles) (Nat.succ_le_of_lt h)
      linarith [Nat.zero_le (T * p.originalKTiles)]
    · rw [h]
      nlinarith

/-- The turn of the column behind the last begins in the first row. -/
theorem again_cycles_even (hp : p.Fresh) (hM : 2 ≤ p.originalMTiles) (hK : 2 < p.originalKTiles)
    (hN : 2 < p.originalNTiles) {I : Nat} (hI : p.originalNTiles = 2 * (I + 1)) : ¬ p.ReadsOnce := by
  have hL : 0 < p.layers := by
    unfold layers
    omega
  have hwalk : p.walk (1 + I * p.layers) = p.cycle I 0 := walk_cycles hp hK hN hL
  refine not_perm_of_again (n := 0) hp hM hN (show 0 < 1 + I * p.layers by omega)
    (walk_canLeave_cycles hp hK hN (by omega)) (Block.span_pos p _) ?_ ?_
  · rw [hwalk]
    refine (reads_of_offset (t := 0) rfl (offsets_zero _) ?_).trans (congrArg some ?_) <;> simp only [cycle, if_pos]
    · nlinarith
    · omega
  · rw [length_walked_cycles hp hK hN, show shape p.originalMTiles = 2 from if_neg (by omega)]
    have hcount : p.originalKTiles * p.originalNTiles = I * (p.originalKTiles * 2) + p.originalKTiles * 2 := by
      rw [hI]
      ring
    have hrows := Nat.mul_le_mul_right (I * (p.originalKTiles * 2) + p.originalKTiles * 2) hM
    rw [Nat.mul_assoc p.originalMTiles, hcount]
    linarith

/-- The turn of the last column reads beyond the end of its row. -/
theorem again_cycles_odd (hp : p.Fresh) (hM : 2 ≤ p.originalMTiles) (hK : 2 < p.originalKTiles)
    (hN : 2 < p.originalNTiles) {I : Nat} (hI : p.originalNTiles = 2 * (I + 1) + 1) : ¬ p.ReadsOnce := by
  have hL : 0 < p.layers := by
    unfold layers
    omega
  have hwalk : p.walk (1 + I * p.layers) = p.cycle I 0 := walk_cycles hp hK hN hL
  have hshape : shape p.originalMTiles = 2 := if_neg (by omega)
  refine not_perm_of_again (n := 2) hp hM hN (show 0 < 1 + I * p.layers by omega)
    (walk_canLeave_cycles hp hK hN (by omega)) ?_ ?_ ?_
  · rw [hwalk, span_outermost hK hN rfl rfl, hshape]
    decide
  · rw [hwalk]
    refine (reads_of_offset (t := 1) rfl (by rw [offsets_wide (by simp [cycle]; omega) hN]; rfl) ?_).trans
      (congrArg some ?_) <;> simp only [cycle, if_pos]
    · nlinarith
    · omega
  · rw [length_walked_cycles hp hK hN, hshape]
    have hcount : p.originalKTiles * p.originalNTiles = I * (p.originalKTiles * 2) + p.originalKTiles * 3 := by
      rw [hI]
      ring
    have hrows := Nat.mul_le_mul_right (I * (p.originalKTiles * 2) + p.originalKTiles * 3) hM
    rw [Nat.mul_assoc p.originalMTiles, hcount]
    linarith

/-! ## The uops of an instruction -/

/-- Where K folds behind the last column, or a second row begins there, the walk goes astray. -/
def StaysOnTiles (m k n : Nat) : Prop := m = 1 ∨ n ≤ 2 ∨ m = 2 ∧ (k = 1 ∨ k = 2 ∧ n % 2 = 0)

instance (m k n : Nat) : Decidable (StaysOnTiles m k n) := by
  unfold StaysOnTiles
  infer_instance

theorem exists_answers (hp : p.Fresh) (h : StaysOnTiles p.originalMTiles p.originalKTiles p.originalNTiles) :
    ∃ l, p.Answers l := by
  have hk := hp.k
  rcases Nat.lt_or_ge 2 p.originalNTiles with hN | hN
  · rcases Nat.lt_or_ge 2 p.originalKTiles with hK | hK
    · obtain hM | hN' | ⟨-, hK'⟩ := h
      · exact answers_cycles hp hM hK hN
      · omega
      · omega
    · obtain hM | hN' | ⟨hM, hK'⟩ := h
      · exact answers_columns hp hK hN (.inl hM)
      · omega
      · exact answers_columns hp hK hN (.inr ⟨hM, hK'.imp_right And.right⟩)
  · exact answers_rows hp hN

theorem not_readsOnce (hp : p.Fresh) (h : ¬ StaysOnTiles p.originalMTiles p.originalKTiles p.originalNTiles) :
    ¬ p.ReadsOnce := by
  have hm := hp.m
  have hk := hp.k
  obtain ⟨hM, hN, hwalk⟩ : 2 ≤ p.originalMTiles ∧ 2 < p.originalNTiles ∧ (p.originalMTiles = 2 →
      p.originalKTiles ≠ 1 ∧ (p.originalKTiles = 2 → p.originalNTiles % 2 = 1)) := by
    unfold StaysOnTiles at h
    omega
  rcases Nat.lt_or_ge 2 p.originalKTiles with hK | hK
  · obtain ⟨I, heven | hodd⟩ : ∃ I, p.originalNTiles = 2 * (I + 1) ∨ p.originalNTiles = 2 * (I + 1) + 1 :=
      ⟨p.originalNTiles / 2 - 1, by omega⟩
    · exact again_cycles_even hp hM hK hN heven
    · exact again_cycles_odd hp hM hK hN hodd
  · obtain ⟨T, heven | hodd⟩ : ∃ T, p.originalNTiles = 2 * (T + 1) ∨ p.originalNTiles = 2 * T + 1 :=
      ⟨(p.originalNTiles - 1) / 2, by omega⟩
    · exact again_columns_even hp (by omega) hK hN heven
    · exact again_columns_odd hp hM hK hN hodd (by omega)

theorem readsOnce_iff (hp : p.Fresh) :
    p.ReadsOnce ∧ (readIndices .checked (p.originalMTiles * p.originalKTiles * p.originalNTiles) p).isSome ↔
      StaysOnTiles p.originalMTiles p.originalKTiles p.originalNTiles := by
  constructor
  · rintro ⟨hreads, -⟩
    by_contra h
    exact not_readsOnce hp h hreads
  · intro h
    obtain ⟨l, ⟨q, hrun⟩, hlen, hperm⟩ := exists_answers hp h
    have hcalls := hrun.wrapping 0
    rw [hlen, Nat.add_zero, show l0cReadIndices 0 q = [] from rfl, List.append_nil] at hcalls
    refine ⟨?_, ?_⟩
    · rw [ReadsOnce, hcalls]
      exact hperm
    · rw [← hlen, hrun.checked]
      rfl

/-- What the cursor does not look at. -/
def stamp (p q : CubeV0UopPlanner) : CubeV0UopPlanner :=
  { q with instruction := p.instruction, parameters := p.parameters, uopCount := p.uopCount, nextUopId := p.nextUopId }

theorem nextL0cReadIndex_stamp (p q : CubeV0UopPlanner) :
    nextL0cReadIndex (m := Id) .wrapping (p.stamp q) =
      ((nextL0cReadIndex (m := Id) .wrapping q).1, p.stamp (nextL0cReadIndex (m := Id) .wrapping q).2) := by
  have hadvance (q : CubeV0UopPlanner) : advanceBase (m := Id) .wrapping (p.stamp q) =
      p.stamp (advanceBase (m := Id) .wrapping q) := by
    unfold advanceBase stamp
    split_ifs <;> rfl
  have hjump (q : CubeV0UopPlanner) : jump (m := Id) .wrapping (p.stamp q) = p.stamp (jump (m := Id) .wrapping q) := by
    unfold jump
    simp only [stamp]
    split
    · unfold jumpBColumn
      split_ifs <;> rfl
    · unfold jumpAColumn
      split_ifs <;> rfl
    · rfl
  have hrestart (q : CubeV0UopPlanner) : restart (p.stamp q) = p.stamp (restart q) := by
    unfold restart stamp
    split_ifs <;> rfl
  by_cases h0 : q.originalMTiles = 0 ∨ q.originalKTiles = 0 ∨ q.originalNTiles = 0
  · have hnone (q : CubeV0UopPlanner) (h0 : q.originalMTiles = 0 ∨ q.originalKTiles = 0 ∨ q.originalNTiles = 0) :
        nextL0cReadIndex (m := Id) .wrapping q = (none, q) := if_pos h0
    rw [hnone q h0, hnone (p.stamp q) h0]
  · have hnext (q : CubeV0UopPlanner)
        (h0 : ¬ (q.originalMTiles = 0 ∨ q.originalKTiles = 0 ∨ q.originalNTiles = 0)) :
        nextL0cReadIndex (m := Id) .wrapping q =
          let span := shape q.remainingKTiles * shape q.remainingMTiles * shape q.originalNTiles
          let r := restart (jump (m := Id) .wrapping (advanceBase (m := Id) .wrapping { q with fractionSpan := span }))
          readIndex (m := Id) .wrapping (shape q.remainingMTiles) (shape q.remainingKTiles) (shape q.originalNTiles)
            { r with priorKFold := decide (r.remainingKTiles ≤ 2) } := if_neg h0
    rw [hnext q h0, hnext (p.stamp q) h0]
    extract_lets span r span' r'
    have hstamp : r = p.stamp r' :=
      (congrArg (fun q => restart (jump (m := Id) .wrapping q)) (hadvance { q with fractionSpan := span' })).trans
        ((congrArg restart (hjump _)).trans (hrestart _))
    rw [hstamp]
    rfl

theorem readIndices_stamp (p q : CubeV0UopPlanner) (n : Nat) : l0cReadIndices n (p.stamp q) = l0cReadIndices n q := by
  induction n generalizing q with
  | zero => rfl
  | succ n ih =>
    unfold l0cReadIndices at ih ⊢
    rw [readIndices, nextL0cReadIndex_stamp]
    exact congrArg (_ :: ·) (ih _)

theorem nextL0cReadIndex_stamped (p : CubeV0UopPlanner) :
    (nextL0cReadIndex (m := Id) .wrapping p).2 = p.stamp (nextL0cReadIndex (m := Id) .wrapping p).2 :=
  congrArg Prod.snd (nextL0cReadIndex_stamp p p)

/-- The planner when the cursor of the next uop is asked. -/
def counted (p : CubeV0UopPlanner) : CubeV0UopPlanner := { p with nextUopId := p.nextUopId + 1 }

theorem nextL0cReadIndex_counted (p : CubeV0UopPlanner) : nextL0cReadIndex (m := Id) .wrapping p.counted =
    ((nextL0cReadIndex (m := Id) .wrapping p).1, p.counted.stamp (nextL0cReadIndex (m := Id) .wrapping p).2) :=
  nextL0cReadIndex_stamp p.counted p

theorem next_some (h : p.nextUopId < p.uopCount) :
    ∃ uop, next p = some (uop, p.counted.stamp (nextL0cReadIndex (m := Id) .wrapping p).2) ∧
      (p.parameters.xtBit63 = false → uop.l0cRead.map (·.address) =
        (nextL0cReadIndex (m := Id) .wrapping p).1.map (l0cAddress p.instruction p.parameters)) := by
  have hcounted := nextL0cReadIndex_counted p
  unfold next
  rw [if_neg h.not_ge]
  refine ⟨_, by rw [show { p with nextUopId := p.nextUopId + 1 } = p.counted from rfl, hcounted], fun h63 => ?_⟩
  simp only [stamp, counted, h63]
  cases (nextL0cReadIndex (m := Id) .wrapping p).1 <;> rfl

theorem next_shrinks : Cuts.Shrinks next (fun _ => True) fun p => p.uopCount - p.nextUopId := by
  intro p uop q _ hnext
  rcases Nat.lt_or_ge p.nextUopId p.uopCount with hid | hid
  · obtain ⟨uop', hsome, -⟩ := next_some hid
    rw [hsome] at hnext
    obtain rfl := (Prod.mk.inj (Option.some.inj hnext)).2
    refine ⟨trivial, ?_⟩
    simp only [stamp, counted]
    omega
  · exact absurd hnext (by rw [next, if_pos hid]; exact nofun)

/-- The addresses of the accumulators that an instruction reads. -/
def l0cReads (p : CubeV0UopPlanner) : List Nat := p.uops.filterMap fun uop => uop.l0cRead.map (·.address)

/-- The uops read what the cursor answers, one call a uop. -/
theorem l0cReads_eq (h63 : p.parameters.xtBit63 = false) : p.l0cReads =
    ((l0cReadIndices (p.uopCount - p.nextUopId) p).filterMap id).map (l0cAddress p.instruction p.parameters) := by
  obtain ⟨n, hn⟩ : ∃ n, n = p.uopCount - p.nextUopId := ⟨_, rfl⟩
  rw [← hn]
  induction n generalizing p with
  | zero =>
    have hnone : next p = none := if_pos (by omega)
    rw [l0cReads, uops, Cuts.pieces_none hnone]
    rfl
  | succ n ih =>
    obtain ⟨uop, hnext, hread⟩ := next_some (p := p) (by omega)
    have hindices : l0cReadIndices (n + 1) p = (nextL0cReadIndex (m := Id) .wrapping p).1 ::
        l0cReadIndices n (nextL0cReadIndex (m := Id) .wrapping p).2 := rfl
    have htail := ih (p := p.counted.stamp (nextL0cReadIndex (m := Id) .wrapping p).2) h63
      (by simp only [stamp, counted]; omega)
    rw [readIndices_stamp] at htail
    rw [l0cReads, uops, next_shrinks.pieces_some trivial hnext, hindices, List.filterMap_cons, List.filterMap_cons,
      hread h63]
    cases (nextL0cReadIndex (m := Id) .wrapping p).1 with
    | none => exact htail
    | some index => exact congrArg (_ :: ·) htail

theorem l0cAddress_injective (instruction : CubeInstruction) (parameters : MmadPlanParameters) :
    Function.Injective (l0cAddress instruction parameters) := by
  intro i j h
  have hpos : 0 < l0cRequestBytes instruction.dataType := by
    cases instruction.dataType <;> decide
  exact Nat.add_right_cancel (Nat.eq_of_mul_eq_mul_right hpos h)

theorem new_fresh {ticket : CubeTicket} (instruction : CubeInstruction) (parameters : MmadPlanParameters)
    (hm : 0 < ticket.geometry.mTiles) (hk : 0 < ticket.geometry.kTiles) (hn : 0 < ticket.geometry.nTiles)
    (hm16 : ticket.geometry.mTiles < 2 ^ 16) (hk16 : ticket.geometry.kTiles < 2 ^ 16)
    (hn16 : ticket.geometry.nTiles < 2 ^ 16) : (new ticket instruction parameters).Fresh :=
  ⟨⟨hm, hk, hn, hm16, hk16, hn16⟩, rfl, rfl⟩

/-- Every output tile is read once, and no counter wraps, exactly where the walk stays on the tiles. -/
theorem l0c_reads_iff (ticket : CubeTicket) (instruction : CubeInstruction) (parameters : MmadPlanParameters)
    (hm : 0 < ticket.geometry.mTiles) (hk : 0 < ticket.geometry.kTiles) (hn : 0 < ticket.geometry.nTiles)
    (hm16 : ticket.geometry.mTiles < 2 ^ 16) (hk16 : ticket.geometry.kTiles < 2 ^ 16)
    (hn16 : ticket.geometry.nTiles < 2 ^ 16)
    (hcount : ticket.uopCount = ticket.geometry.mTiles * ticket.geometry.kTiles * ticket.geometry.nTiles)
    (hl0c : parameters.xtBit63 = false) :
    ((new ticket instruction parameters).l0cReads.Perm
        ((List.range (ticket.geometry.mTiles * ticket.geometry.nTiles)).map (l0cAddress instruction parameters)) ∧
      ((l0cReadIndices ticket.uopCount (new ticket instruction parameters)).filterMap id).Perm
        (List.range (ticket.geometry.mTiles * ticket.geometry.nTiles)) ∧
      (readIndices .checked ticket.uopCount (new ticket instruction parameters)).isSome) ↔
    ticket.geometry.mTiles = 1 ∨ ticket.geometry.nTiles ≤ 2 ∨
      ticket.geometry.mTiles = 2 ∧ (ticket.geometry.kTiles = 1 ∨
        ticket.geometry.kTiles = 2 ∧ ticket.geometry.nTiles % 2 = 0) := by
  have hfresh := new_fresh instruction parameters hm hk hn hm16 hk16 hn16
  have hreads : (new ticket instruction parameters).l0cReads =
      ((l0cReadIndices ticket.uopCount (new ticket instruction parameters)).filterMap id).map
        (l0cAddress instruction parameters) := l0cReads_eq hl0c
  rw [hreads]
  refine (and_congr_left' (List.map_perm_map_iff (l0cAddress_injective instruction parameters))).trans ?_
  rw [and_self_left, hcount]
  exact readsOnce_iff hfresh

/-- A half matrix instruction whose accumulator is in L0C. -/
def plainInstruction : CubeInstruction := ⟨.mmad, .f16F32⟩

def plainParameters : MmadPlanParameters where
  xdLow := 0
  xdHigh := 0
  xn := 0
  xm := 0
  m := 32
  effectiveK := 32
  n := 48
  xtBit58 := false
  xtBit62 := false
  xtBit63 := false
  xtBits5556 := 0

/-- The ticket of an instruction of some tile counts. -/
def plainTicket (m k n : Nat) : CubeTicket where
  acceptTick := 0
  firstUopTick := some 1
  lastUopTick := some (m * k * n)
  retireTick := m * k * n
  geometry := ⟨m, n, k, 16, m * k * n⟩
  uopCount := m * k * n
  fsmBubbles := 0
  sparseBubbles := 0
  issueDelayWaitTicks := 0
  issueDelay := ⟨false, 0, 0⟩
  fsmVersion := .v0
  v1N2Mode := false
  v1FrameOrder := .nThenM
  v1DtypeBubblesPerUop := 0
  biasCheckpointUop := none
  unitFlagSync := false

theorem l0c_reads_iff_row :
    ((l0cReadIndices (1 * 2 * 3) (new (plainTicket 1 2 3) plainInstruction plainParameters)).filterMap id).Perm
      (List.range (1 * 3)) :=
  ((l0c_reads_iff (plainTicket 1 2 3) plainInstruction plainParameters (by decide) (by decide) (by decide) (by decide)
    (by decide) (by decide) rfl rfl).mpr (.inl rfl)).2.1

/-- The last column of the first row reads a tile of the second, which was read before. -/
theorem l0c_reads_again :
    (l0cReadIndices (2 * 2 * 3) (new (plainTicket 2 2 3) plainInstruction plainParameters)).filterMap id =
      [0, 3, 1, 4, 2, 5, 3] ∧
    ¬ (new (plainTicket 2 2 3) plainInstruction plainParameters).l0cReads.Perm
      ((List.range (2 * 3)).map (l0cAddress plainInstruction plainParameters)) := by
  decide

end CubeV0UopPlanner

end AscendEmulator.C220.Cube
