/-
  AscendEmulator.C220.Cube.FsmV1Proofs — the second FSM plans every tile triple once, as the ticket predicts.

  The planner is two loops over frames, in either order (`place`), around the loops over K and over the tiles of a
  frame. `frame_takes` is what a frame yields, and `exists_walk` says which frames there are: each output tile lies in
  one. A uop's number grows with its place in the walk, so that the last output tile, which bears the bubbles of odd
  tile counts, comes last (`last_frame`, `ends_before`).

  - `v1_plan_exact`: every triple once, each output tile over K in order, what is not read is what the last uop had, and
    bubbles as in `planned_uop_tick` and the ticket.
-/

import AscendEmulator.C220.Cube.FsmV1
import AscendEmulator.Lib.Blocked

namespace AscendEmulator.C220.Cube

open Lib Isa

namespace CubeV1UopPlanner

/-! ## Frames -/

/-- The planner at a place of the walk. -/
def at' (p : CubeV1UopPlanner) (m n k offset id : Nat) : CubeV1UopPlanner :=
  { p with mFrameStart := m, nFrameStart := n, kIndex := k, frameOffset := offset, nextUopId := id }

def rows (p : CubeV1UopPlanner) (m n : Nat) : Nat :=
  if p.n2Mode then if p.nTiles - n = 1 then min (p.mTiles - m) 2 else 1
  else if p.nTiles = 1 then groupSize (p.mTiles - m) else 1

def columns (p : CubeV1UopPlanner) (n : Nat) : Nat :=
  if p.n2Mode then min (p.nTiles - n) 2 else if p.nTiles = 1 then 1 else groupSize (p.nTiles - n)

/-- A planner of an instruction, whose order is one that `schedule` selects. -/
structure Plans (p : CubeV1UopPlanner) : Prop where
  m : 0 < p.mTiles
  k : 0 < p.kTiles
  n : 0 < p.nTiles
  count : p.uopCount = p.mTiles * p.kTiles * p.nTiles
  order : p.n2Mode = true → p.frameOrder = .mThenN

variable {p : CubeV1UopPlanner} {m n k offset id : Nat}

@[simp] theorem frameShape_at : (p.at' m n k offset id).frameShape = (p.rows m n, p.columns n) := by
  unfold frameShape rows columns at'
  split_ifs <;> simp_all

theorem groupSize_bounds {remaining : Nat} (h : 0 < remaining) :
    0 < groupSize remaining ∧ groupSize remaining ≤ remaining := by
  unfold groupSize
  split_ifs <;> omega

theorem rows_bounds (hm : m < p.mTiles) (n : Nat) : 0 < p.rows m n ∧ m + p.rows m n ≤ p.mTiles := by
  have := groupSize_bounds (show 0 < p.mTiles - m by omega)
  unfold rows
  split_ifs <;> omega

theorem columns_bounds (hn : n < p.nTiles) : 0 < p.columns n ∧ n + p.columns n ≤ p.nTiles := by
  have := groupSize_bounds (show 0 < p.nTiles - n by omega)
  unfold columns
  split_ifs <;> omega

/-- A frame is one row or one column. -/
theorem one_row_or_column (m : Nat) (hn : n < p.nTiles) : p.rows m n = 1 ∨ p.columns n = 1 := by
  unfold rows columns
  split_ifs <;> omega

/-- Where the loop over the columns is the inner one, the frames that begin in one row are as high. -/
theorem rows_eq (hp : p.Plans) (horder : p.frameOrder = .nThenM) (m n : Nat) : p.rows m n = p.rows m 0 := by
  have hn2 : ¬ p.n2Mode = true := fun h => by simp [hp.order h] at horder
  rw [rows, if_neg hn2, rows, if_neg hn2]

/-- The uop of a place in a frame. -/
def frameUop (p : CubeV1UopPlanner) (m n id k offset : Nat) : CubeUop :=
  (p.at' m n k offset (id + (k * (p.rows m n * p.columns n) + offset))).uop

/-- The uops of a frame, which begins with the uop `id`. -/
def frameUops (p : CubeV1UopPlanner) (m n id : Nat) : List CubeUop :=
  (List.range p.kTiles).flatMap fun k => (List.range (p.rows m n * p.columns n)).map (p.frameUop m n id k)

/-- Where the planner goes behind a frame. -/
def leave (p : CubeV1UopPlanner) (m n id : Nat) : CubeV1UopPlanner :=
  match p.frameOrder with
  | .nThenM => if n + p.columns n < p.nTiles then p.at' m (n + p.columns n) 0 0 id else p.at' (m + p.rows m n) 0 0 0 id
  | .mThenN => if m + p.rows m n < p.mTiles then p.at' (m + p.rows m n) n 0 0 id else p.at' 0 (n + p.columns n) 0 0 id

theorem next_at (hp : p.Plans) (hm : m < p.mTiles) (hn : n < p.nTiles) (hid : id < p.uopCount) :
    next (p.at' m n k offset id) = some ((p.at' m n k offset id).uop,
      (p.at' m n k offset (id + 1)).advance (p.rows m n) (p.columns n)) := by
  have hdone : ¬ (p.at' m n k offset id).Done := by
    have := hp.m
    have := hp.k
    have := hp.n
    simp only [Done, at']
    omega
  rw [next, if_neg hdone, frameShape_at]
  rfl

theorem advance_at : (p.at' m n k offset id).advance (p.rows m n) (p.columns n) =
    if offset + 1 < p.rows m n * p.columns n then p.at' m n k (offset + 1) id
    else if k + 1 < p.kTiles then p.at' m n (k + 1) 0 id else p.leave m n id := by
  by_cases hoffset : offset + 1 < p.rows m n * p.columns n
  · simp [advance, at', hoffset]
  · by_cases hk : k + 1 < p.kTiles
    · simp [advance, at', hoffset, hk]
    · cases horder : p.frameOrder <;> simp [advance, leave, at', hoffset, hk, horder]

/-- What a frame yields. -/
theorem frame_takes (hp : p.Plans) (hm : m < p.mTiles) (hn : n < p.nTiles)
    (hid : id + p.kTiles * (p.rows m n * p.columns n) ≤ p.uopCount) :
    Cuts.Takes next (p.at' m n 0 0 id) (p.frameUops m n id)
      (p.leave m n (id + p.kTiles * (p.rows m n * p.columns n))) := by
  have hpos : 0 < p.rows m n * p.columns n := Nat.mul_pos (rows_bounds hm n).1 (columns_bounds hn).1
  have hadvance (k offset id : Nat) := @advance_at p m n k offset id
  unfold frameUops frameUop
  generalize hsize : p.rows m n * p.columns n = size at *
  -- Where the loop over K stands before its turn `k`, and that over the tiles before its turn `offset`.
  obtain ⟨f, hf⟩ : ∃ f : Nat → CubeV1UopPlanner, ∀ k, f k =
      if k < p.kTiles then p.at' m n k 0 (id + k * size) else p.leave m n (id + k * size) := ⟨_, fun _ => rfl⟩
  have hstart : p.at' m n 0 0 id = f 0 := by rw [hf, if_pos hp.k, Nat.zero_mul, Nat.add_zero]
  have hend : p.leave m n (id + p.kTiles * size) = f p.kTiles := by rw [hf, if_neg (lt_irrefl _)]
  rw [hstart, hend]
  refine Cuts.Takes.rows fun k hk => ?_
  obtain ⟨g, hg⟩ : ∃ g : Nat → CubeV1UopPlanner, ∀ offset, g offset =
      if offset < size then p.at' m n k offset (id + (k * size + offset)) else f (k + 1) := ⟨_, fun _ => rfl⟩
  have hturn : f k = g 0 := by rw [hf, hg, if_pos hk, if_pos hpos, Nat.add_zero]
  have hnext : f (k + 1) = g size := by rw [hg, if_neg (lt_irrefl _)]
  rw [hturn, hnext]
  refine Cuts.Takes.range fun offset hoffset => ?_
  have hlast : (k + 1) * size ≤ p.kTiles * size := Nat.mul_le_mul_right size hk
  rw [Nat.succ_mul] at hlast
  rw [hg, if_pos hoffset, next_at hp hm hn (by omega), hadvance, hg (offset + 1)]
  by_cases hmore : offset + 1 < size
  · rw [if_pos hmore, if_pos hmore]
    rfl
  · have hid' : id + (k * size + offset) + 1 = id + (k + 1) * size := by
      rw [Nat.succ_mul]
      omega
    rw [if_neg hmore, if_neg hmore, hf, hid']

/-! ## The walk -/

/-- The row and the column of the frame in turn `y` of the inner loop, in turn `x` of the outer. -/
def place (p : CubeV1UopPlanner) (x y : Nat) : Nat × Nat :=
  match p.frameOrder with
  | .nThenM => (x, y)
  | .mThenN => (y, x)

def outerTiles (p : CubeV1UopPlanner) : Nat :=
  match p.frameOrder with
  | .nThenM => p.mTiles
  | .mThenN => p.nTiles

def innerTiles (p : CubeV1UopPlanner) : Nat :=
  match p.frameOrder with
  | .nThenM => p.nTiles
  | .mThenN => p.mTiles

def outerStep (p : CubeV1UopPlanner) (x : Nat) : Nat :=
  match p.frameOrder with
  | .nThenM => p.rows x 0
  | .mThenN => p.columns x

def innerStep (p : CubeV1UopPlanner) (x y : Nat) : Nat :=
  match p.frameOrder with
  | .nThenM => p.columns y
  | .mThenN => p.rows y x

/-- The uop with which the frame begins: what is before it are whole turns of the outer loop, and a part of one. -/
def startId (p : CubeV1UopPlanner) (x y : Nat) : Nat := p.kTiles * (p.innerTiles * x + y * p.outerStep x)

/-- The planner at the first uop of a frame. -/
def start (p : CubeV1UopPlanner) (x y : Nat) : CubeV1UopPlanner :=
  p.at' (p.place x y).1 (p.place x y).2 0 0 (p.startId x y)

/-- The uops of a frame. -/
def turn (p : CubeV1UopPlanner) (x y : Nat) : List CubeUop :=
  p.frameUops (p.place x y).1 (p.place x y).2 (p.startId x y)

/-- With `n2_mode`, frames begin at even columns, and behind the last pair of columns at even rows. -/
def Even2 (p : CubeV1UopPlanner) (x y : Nat) : Prop :=
  p.n2Mode = true → x % 2 = 0 ∧ (p.nTiles - x = 1 → y % 2 = 0)

theorem tiles_mul (p : CubeV1UopPlanner) : p.innerTiles * p.outerTiles = p.mTiles * p.nTiles := by
  unfold innerTiles outerTiles
  cases p.frameOrder
  · exact Nat.mul_comm _ _
  · rfl

theorem startId_succ (x : Nat) : p.kTiles * (p.innerTiles * x + p.innerTiles * p.outerStep x) =
    p.startId (x + p.outerStep x) 0 := by
  unfold startId
  ring

theorem place_lt {x y : Nat} (hx : x < p.outerTiles) (hy : y < p.innerTiles) :
    (p.place x y).1 < p.mTiles ∧ (p.place x y).2 < p.nTiles := by
  unfold place outerTiles innerTiles at *
  cases horder : p.frameOrder <;> simp_all

theorem outerStep_bounds {x : Nat} (hx : x < p.outerTiles) : 0 < p.outerStep x ∧ x + p.outerStep x ≤ p.outerTiles := by
  unfold outerStep outerTiles at *
  cases horder : p.frameOrder <;> rw [horder] at hx
  · exact rows_bounds hx 0
  · exact columns_bounds hx

theorem innerStep_bounds (x : Nat) {y : Nat} (hy : y < p.innerTiles) :
    0 < p.innerStep x y ∧ y + p.innerStep x y ≤ p.innerTiles := by
  unfold innerStep innerTiles at *
  cases horder : p.frameOrder <;> rw [horder] at hy
  · exact columns_bounds hy
  · exact rows_bounds hy x

/-- The rows and columns of a frame are the steps of the loops. -/
theorem steps_eq (hp : p.Plans) (x y : Nat) :
    p.rows (p.place x y).1 (p.place x y).2 * p.columns (p.place x y).2 = p.innerStep x y * p.outerStep x := by
  unfold place innerStep outerStep
  cases horder : p.frameOrder
  · exact (Nat.mul_comm _ _).trans (congrArg _ (rows_eq hp horder x y))
  · rfl

theorem startId_le (hp : p.Plans) {x y : Nat} (hx : x + p.outerStep x ≤ p.outerTiles)
    (hy : y + p.innerStep x y ≤ p.innerTiles) :
    p.startId x y + p.kTiles * (p.innerStep x y * p.outerStep x) ≤ p.uopCount := by
  have hturn := Nat.mul_le_mul_right (p.outerStep x) hy
  have hturns := Nat.mul_le_mul_left p.innerTiles hx
  rw [tiles_mul] at hturns
  calc p.startId x y + p.kTiles * (p.innerStep x y * p.outerStep x)
      = p.kTiles * (p.innerTiles * x + (y + p.innerStep x y) * p.outerStep x) := by unfold startId; ring
    _ ≤ p.kTiles * (p.innerTiles * (x + p.outerStep x)) := by
      rw [Nat.mul_add p.innerTiles]
      exact Nat.mul_le_mul_left _ (Nat.add_le_add_left hturn _)
    _ ≤ p.kTiles * (p.mTiles * p.nTiles) := Nat.mul_le_mul_left _ hturns
    _ = p.uopCount := by rw [hp.count]; ring

theorem leave_eq (hp : p.Plans) {x y : Nat} (hy : y + p.innerStep x y ≤ p.innerTiles) :
    p.leave (p.place x y).1 (p.place x y).2 (p.startId x y + p.kTiles * (p.innerStep x y * p.outerStep x)) =
      if y + p.innerStep x y < p.innerTiles then p.start x (y + p.innerStep x y)
      else p.start (x + p.outerStep x) 0 := by
  have hid : p.startId x y + p.kTiles * (p.innerStep x y * p.outerStep x) = p.startId x (y + p.innerStep x y) := by
    unfold startId
    ring
  have hlast (hend : ¬ y + p.innerStep x y < p.innerTiles) :
      p.startId x (y + p.innerStep x y) = p.startId (x + p.outerStep x) 0 := by
    rw [← startId_succ, startId, show y + p.innerStep x y = p.innerTiles by omega]
  rw [hid]
  split_ifs with hmore
  · unfold leave start place innerStep innerTiles at *
    cases horder : p.frameOrder <;> simp_all
  · rw [hlast hmore]
    have hrows (horder : p.frameOrder = .nThenM) : p.rows x y = p.rows x 0 := rows_eq hp horder x y
    unfold leave start place innerStep innerTiles outerStep at *
    cases horder : p.frameOrder <;> simp_all

/-- The rows of a frame with `n2_mode`, where the loop over the columns is outermost. -/
theorem even_start (p : CubeV1UopPlanner) : p.Even2 0 0 := fun _ => ⟨rfl, fun _ => rfl⟩

theorem even_outer (hp : p.Plans) {x : Nat} (h : p.Even2 x 0) (hx : x + p.outerStep x < p.outerTiles) :
    p.Even2 (x + p.outerStep x) 0 := by
  intro hn2
  refine ⟨?_, fun _ => rfl⟩
  have horder := hp.order hn2
  have hx2 := (h hn2).1
  simp only [outerStep, outerTiles, horder, columns, if_pos hn2] at hx ⊢
  omega

theorem even_inner (hp : p.Plans) {x y : Nat} (h : p.Even2 x y) (hy : y + p.innerStep x y < p.innerTiles) :
    p.Even2 x (y + p.innerStep x y) := by
  intro hn2
  refine ⟨(h hn2).1, fun hlast => ?_⟩
  have horder := hp.order hn2
  have hy2 := (h hn2).2 hlast
  simp only [innerStep, innerTiles, horder, rows, if_pos hn2, if_pos hlast] at hy ⊢
  omega

/-- The frames of a walk: every output tile lies in one of them. -/
theorem exists_walk (hp : p.Plans) : ∃ places : List (Nat × Nat),
    Cuts.Takes next (p.start 0 0)
      (places.flatMap fun q => p.turn q.1 q.2)
      (p.start p.outerTiles 0) ∧
    (∀ q ∈ places, q.1 < p.outerTiles ∧ q.2 < p.innerTiles ∧ p.Even2 q.1 q.2) ∧
    ∀ (β : Type) (F : Nat × Nat → List β) (i j : Nat), i < p.outerTiles → j < p.innerTiles →
      (∀ q ∈ places, ¬ ((q.1 ≤ i ∧ i < q.1 + p.outerStep q.1) ∧ q.2 ≤ j ∧ j < q.2 + p.innerStep q.1 q.2) → F q = []) →
      ∃ q ∈ places, ((q.1 ≤ i ∧ i < q.1 + p.outerStep q.1) ∧ q.2 ≤ j ∧ j < q.2 + p.innerStep q.1 q.2) ∧
        places.flatMap F = F q := by
  have hm := hp.m
  have hn := hp.n
  have hinner : 0 < p.innerTiles := by
    unfold innerTiles
    cases p.frameOrder <;> assumption
  refine Cuts.Takes.nest (f := p.start) (l := p.turn) hinner (fun _ => outerStep_bounds)
    (fun x _ _ => innerStep_bounds x) p.even_start (fun x => even_outer hp)
    (fun x y => even_inner hp) fun x hx y hy _ => ?_
  obtain ⟨hrow, hcolumn⟩ := place_lt hx hy
  have hid := startId_le hp (outerStep_bounds hx).2 (innerStep_bounds x hy).2
  have htakes : Cuts.Takes next (p.start x y) _ _ := frame_takes hp hrow hcolumn (by rw [steps_eq hp]; exact hid)
  rw [steps_eq hp, leave_eq hp (innerStep_bounds x hy).2] at htakes
  exact htakes

/-! ## The tiles of a frame -/

/-- The row and the column of an output tile of a frame. -/
def tile (p : CubeV1UopPlanner) (m n offset : Nat) : Nat × Nat :=
  (m + if 1 < p.rows m n then offset else 0, n + if 1 < p.rows m n then 0 else offset)

/-- The numbers of a tile triple. -/
def triple (p : CubeV1UopPlanner) (i k j : Nat) : CubeTileIndices :=
  ⟨i * p.kTiles + k, k * p.nTiles + j, i * p.nTiles + j⟩

/-- What a uop of an output tile does in a step of K. -/
def shown (u : CubeUop) : Option CubeTileIndices × Option CubeL0cRequest × Option CubeL0cRequest :=
  (u.tileIndices, u.l0cRead, u.l0cWrite)

def expected (p : CubeV1UopPlanner) (i j k : Nat) :
    Option CubeTileIndices × Option CubeL0cRequest × Option CubeL0cRequest :=
  (some (p.triple i k j),
    if k = 0 ∧ p.parameters.xtBit62 = false ∧ p.parameters.xtBit63 = false then
      some (p.l0cRequest (i * p.nTiles + j) .read) else none,
    if k + 1 = p.kTiles then some (p.l0cRequest (i * p.nTiles + j) .write) else none)

theorem shown_frameUop (m n id k offset : Nat) : shown (p.frameUop m n id k offset) =
    p.expected (p.tile m n offset).1 (p.tile m n offset).2 k := by
  unfold shown frameUop uop expected
  rw [frameShape_at]
  simp [at', tile, triple, l0cRequest, and_assoc]

theorem tile_bounds (hn : n < p.nTiles) (ho : offset < p.rows m n * p.columns n) :
    (m ≤ (p.tile m n offset).1 ∧ (p.tile m n offset).1 < m + p.rows m n) ∧
      n ≤ (p.tile m n offset).2 ∧ (p.tile m n offset).2 < n + p.columns n := by
  unfold tile
  rcases one_row_or_column m hn with h | h <;> rw [h] at ho ⊢
  · simp
    omega
  · split_ifs with hrows <;> simp <;> omega

/-- A tile of a frame has one place in it. -/
theorem tile_eq_iff (hn : n < p.nTiles) (ho : offset < p.rows m n * p.columns n) {i j : Nat}
    (hi : m ≤ i ∧ i < m + p.rows m n) (hj : n ≤ j ∧ j < n + p.columns n) :
    p.tile m n offset = (i, j) ↔ offset = (i - m) + (j - n) := by
  unfold tile
  rcases one_row_or_column m hn with h | h <;> rw [h] at ho
  · rw [h] at hi ⊢
    simp
    omega
  · rw [h] at hj
    split_ifs with hrows <;> simp <;> omega

theorem offset_lt (hn : n < p.nTiles) {i j : Nat} (hi : m ≤ i ∧ i < m + p.rows m n)
    (hj : n ≤ j ∧ j < n + p.columns n) : (i - m) + (j - n) < p.rows m n * p.columns n := by
  rcases one_row_or_column m hn with h | h
  · rw [h] at hi
    rw [h, Nat.one_mul]
    omega
  · rw [h] at hj
    rw [h, Nat.mul_one]
    omega

/-- Whether a uop is of an output tile. -/
def OfTile (p : CubeV1UopPlanner) (i j : Nat) (u : CubeUop) : Prop :=
  u.tileIndices.map (·.l0c) = some (i * p.nTiles + j)

instance (i j : Nat) (u : CubeUop) : Decidable (p.OfTile i j u) := by
  unfold OfTile
  infer_instance

theorem ofTile_iff (hn : n < p.nTiles) (ho : offset < p.rows m n * p.columns n) {i j : Nat}
    (hj : j < p.nTiles) : p.OfTile i j (p.frameUop m n id k offset) ↔ p.tile m n offset = (i, j) := by
  have htile : (p.frameUop m n id k offset).tileIndices =
      some (p.triple (p.tile m n offset).1 k (p.tile m n offset).2) :=
    congrArg Prod.fst (shown_frameUop m n id k offset)
  have hbound := (tile_bounds (m := m) hn ho).2.2
  have hcolumns := (columns_bounds hn).2
  rw [OfTile, htile]
  simp only [Option.map_some, triple, Option.some.injEq]
  constructor
  · intro h
    obtain ⟨hi, hj⟩ := digits_inj (by omega) hj h
    exact Prod.ext hi hj
  · intro h
    rw [h]

/-- The uops of an output tile in its frame. -/
theorem filter_frame (hn : n < p.nTiles) {i j : Nat} (hi : m ≤ i ∧ i < m + p.rows m n)
    (hj : n ≤ j ∧ j < n + p.columns n) :
    ((p.frameUops m n id).filter (p.OfTile i j ·)).map shown = (List.range p.kTiles).map (p.expected i j) := by
  have hcolumns := (columns_bounds hn).2
  have hplace := offset_lt hn hi hj
  have hturn (k : Nat) : ((List.range (p.rows m n * p.columns n)).map (p.frameUop m n id k)).filter (p.OfTile i j ·) =
      [p.frameUop m n id k ((i - m) + (j - n))] := by
    have hoffset : ∀ offset ∈ List.range (p.rows m n * p.columns n),
        ((fun u => decide (p.OfTile i j u)) ∘ p.frameUop m n id k) offset = (offset == (i - m) + (j - n)) := by
      intro offset ho
      have ho := List.mem_range.mp ho
      rw [Function.comp_apply, Bool.eq_iff_iff, decide_eq_true_eq, beq_iff_eq, ofTile_iff hn ho (by omega),
        tile_eq_iff hn ho hi hj]
    rw [List.filter_map, List.filter_congr hoffset, List.filter_beq,
      List.count_eq_one_of_mem List.nodup_range (List.mem_range.mpr hplace)]
    rfl
  have hshown (k : Nat) : shown (p.frameUop m n id k ((i - m) + (j - n))) = p.expected i j k := by
    rw [shown_frameUop, (tile_eq_iff hn hplace hi hj).mpr rfl]
  unfold frameUops
  rw [List.filter_flatMap]
  simp only [hturn]
  rw [← List.map_eq_flatMap, List.map_map]
  exact List.map_congr_left fun k _ => hshown k

/-- The other frames have none. -/
theorem filter_frame_none (hn : n < p.nTiles) {i j : Nat} (hj : j < p.nTiles)
    (hne : ¬ ((m ≤ i ∧ i < m + p.rows m n) ∧ n ≤ j ∧ j < n + p.columns n)) :
    (p.frameUops m n id).filter (p.OfTile i j ·) = [] := by
  refine List.filter_eq_nil_iff.mpr fun u hu => ?_
  obtain ⟨k, -, hu⟩ := List.mem_flatMap.mp hu
  obtain ⟨offset, ho, rfl⟩ := List.mem_map.mp hu
  have ho := List.mem_range.mp ho
  rw [decide_eq_true_eq, ofTile_iff hn ho hj]
  intro h
  have hbounds := tile_bounds (m := m) hn ho
  rw [h] at hbounds
  exact hne hbounds

/-! ## All uops -/

theorem next_counts {u : CubeUop} {q : CubeV1UopPlanner} (h : next p = some (u, q)) :
    p.nextUopId < p.uopCount ∧ u = p.uop ∧ q.uopCount = p.uopCount ∧ q.nextUopId = p.nextUopId + 1 := by
  unfold next at h
  split_ifs at h with hdone
  cases h
  refine ⟨Nat.lt_of_not_le fun hle => hdone (.inl hle), rfl, ?_⟩
  unfold advance
  split_ifs
  · exact ⟨rfl, rfl⟩
  · exact ⟨rfl, rfl⟩
  · cases p.frameOrder <;> dsimp only <;> split_ifs <;> exact ⟨rfl, rfl⟩

theorem next_shrinks : Cuts.Shrinks next (fun _ => True) fun p => p.uopCount - p.nextUopId := by
  intro p u q _ h
  obtain ⟨hlt, -, hcount, hid⟩ := next_counts h
  refine ⟨trivial, ?_⟩
  dsimp only
  omega

/-- Uops are numbered as they are taken. -/
theorem takes_ids {q : CubeV1UopPlanner} {l : List CubeUop} (h : Cuts.Takes next p l q) :
    l.map (·.id) = List.range' p.nextUopId l.length ∧ q.nextUopId = p.nextUopId + l.length := by
  induction h with
  | nil => exact ⟨rfl, rfl⟩
  | cons hnext _ ih =>
    obtain ⟨-, rfl, -, hid⟩ := next_counts hnext
    rw [hid] at ih
    refine ⟨?_, by rw [ih.2, List.length_cons]; omega⟩
    rw [List.map_cons, ih.1, List.length_cons, List.range'_succ]
    rfl

/-- What a uop does not read is what the uop before it had. -/
structure Reuses (u v : CubeUop) : Prop where
  l0a : v.readsL0a = false → v.tileIndices.map (·.l0a) = u.tileIndices.map (·.l0a)
  l0b : v.readsL0b = false → v.tileIndices.map (·.l0b) = u.tileIndices.map (·.l0b)

theorem uop_reads (h : p.frameOffset = 0) : p.uop.readsL0a = true ∧ p.uop.readsL0b = true := by
  simp [uop, h]

theorem next_reuses {u v : CubeUop} {q r : CubeV1UopPlanner} (h : next p = some (u, q)) (h' : next q = some (v, r)) :
    Reuses u v := by
  obtain ⟨-, rfl, -⟩ := next_counts h'
  unfold next at h
  split_ifs at h with hdone
  cases h
  generalize hq : { p with nextUopId := p.nextUopId + 1 }.advance p.frameShape.1 p.frameShape.2 = q
  by_cases hmore : p.frameOffset + 1 < p.frameShape.1 * p.frameShape.2
  · rw [advance, if_pos hmore] at hq
    subst hq
    have hshape : ({ p with nextUopId := p.nextUopId + 1, frameOffset := p.frameOffset + 1 } :
        CubeV1UopPlanner).frameShape = p.frameShape := rfl
    unfold uop
    rw [hshape]
    by_cases hv : 1 < p.frameShape.1
    · exact ⟨fun h => by simp [hv] at h, fun _ => by simp [hv]⟩
    · exact ⟨fun _ => by simp [hv], fun h => by simp [hv] at h⟩
  · have hzero : q.frameOffset = 0 := by
      rw [← hq, advance, if_neg hmore]
      split_ifs
      · rfl
      · cases p.frameOrder <;> dsimp only <;> split_ifs <;> rfl
    obtain ⟨ha, hb⟩ := uop_reads hzero
    exact ⟨fun h => by simp [ha] at h, fun h => by simp [hb] at h⟩

theorem uops_eq (hp : p.Plans) (hstart : p = p.start 0 0) : ∃ places : List (Nat × Nat),
    p.uops = places.flatMap (fun q => p.turn q.1 q.2) ∧
    p.uops.map (·.id) = List.range (p.mTiles * p.kTiles * p.nTiles) ∧
    (∀ q ∈ places, q.1 < p.outerTiles ∧ q.2 < p.innerTiles ∧ p.Even2 q.1 q.2) ∧
    ∀ (β : Type) (F : Nat × Nat → List β) (i j : Nat), i < p.outerTiles → j < p.innerTiles →
      (∀ q ∈ places, ¬ ((q.1 ≤ i ∧ i < q.1 + p.outerStep q.1) ∧ q.2 ≤ j ∧ j < q.2 + p.innerStep q.1 q.2) → F q = []) →
      ∃ q ∈ places, ((q.1 ≤ i ∧ i < q.1 + p.outerStep q.1) ∧ q.2 ≤ j ∧ j < q.2 + p.innerStep q.1 q.2) ∧
        places.flatMap F = F q := by
  obtain ⟨places, htakes, hplaces, hunique⟩ := exists_walk hp
  have hdone : next (p.start p.outerTiles 0) = none := by
    refine if_pos ?_
    simp only [Done, start, at', place, outerTiles]
    cases p.frameOrder <;> simp
  rw [← hstart] at htakes
  have huops : p.uops = places.flatMap (fun q => p.turn q.1 q.2) := by
    rw [uops, next_shrinks.pieces_takes trivial htakes, Cuts.pieces_none hdone, List.append_nil]
  refine ⟨places, huops, ?_, hplaces, hunique⟩
  obtain ⟨hids, hend⟩ := takes_ids htakes
  have hzero : p.nextUopId = 0 := by
    rw [hstart]
    simp [start, at', startId]
  have hlast : (p.start p.outerTiles 0).nextUopId = p.mTiles * p.kTiles * p.nTiles := by
    simp only [start, at', startId, Nat.zero_mul, Nat.add_zero, tiles_mul]
    ring
  rw [huops, hids, hzero, ← List.range_eq_range']
  congr 1
  omega

/-! ## Bubbles -/

/-- The first uop that bears a bubble of the shape. -/
def bubbleStart (p : CubeV1UopPlanner) : Nat :=
  if p.mTiles = 1 ∧ p.nTiles = 1 then 0
  else if p.n2Mode ∧ p.mTiles % 2 ≠ 0 ∧ p.nTiles % 2 ≠ 0 then p.uopCount - p.kTiles
  else p.uopCount

/-- With `n2_mode` and odd tile counts, the frame that ends both loops is the last output tile. -/
theorem last_frame (hp : p.Plans) (hn2 : p.n2Mode = true) (hm2 : p.mTiles % 2 ≠ 0) (hn2' : p.nTiles % 2 ≠ 0) {x y : Nat}
    (heven : p.Even2 x y) (hx : x + p.outerStep x = p.outerTiles) (hy : y + p.innerStep x y = p.innerTiles) :
    x = p.nTiles - 1 ∧ y = p.mTiles - 1 ∧ p.outerStep x = 1 ∧ p.innerStep x y = 1 := by
  have horder := hp.order hn2
  obtain ⟨hx2, hy2⟩ := heven hn2
  have hstep : p.outerStep x = min (p.nTiles - x) 2 := by simp only [outerStep, horder, columns, if_pos hn2]
  have hinner : p.innerStep x y = if p.nTiles - x = 1 then min (p.mTiles - y) 2 else 1 := by
    simp only [innerStep, horder, rows, if_pos hn2]
  simp only [outerTiles, innerTiles, horder] at hx hy
  rw [hstep] at hx ⊢
  rw [hinner] at hy ⊢
  have hlast : p.nTiles - x = 1 := by omega
  rw [if_pos hlast] at hy ⊢
  have := hy2 hlast
  omega

/-- A frame that does not end both loops ends before the last output tile begins. -/
theorem ends_before (hp : p.Plans) {x y : Nat} (hx : x + p.outerStep x ≤ p.outerTiles) (hpos : 0 < p.outerStep x)
    (hy : y + p.innerStep x y ≤ p.innerTiles)
    (hne : ¬ (x + p.outerStep x = p.outerTiles ∧ y + p.innerStep x y = p.innerTiles)) :
    p.startId x y + p.kTiles * (p.innerStep x y * p.outerStep x) ≤ p.uopCount - p.kTiles := by
  have hid : p.startId x y + p.kTiles * (p.innerStep x y * p.outerStep x) =
      p.kTiles * (p.innerTiles * x + (y + p.innerStep x y) * p.outerStep x) := by
    unfold startId
    ring
  have hcount : p.uopCount - p.kTiles = p.kTiles * (p.innerTiles * p.outerTiles - 1) := by
    rw [tiles_mul, Nat.mul_sub, Nat.mul_one, hp.count]
    congr 1
    ring
  rw [hid, hcount]
  refine Nat.mul_le_mul_left _ (Nat.le_sub_one_of_lt ?_)
  have hturn := Nat.mul_le_mul_right (p.outerStep x) hy
  have hturns := Nat.mul_le_mul_left p.innerTiles hx
  rw [Nat.mul_add] at hturns
  rcases Nat.lt_or_ge (y + p.innerStep x y) p.innerTiles with hlt | hge
  · have := Nat.mul_lt_mul_of_pos_right hlt hpos
    omega
  · have hlt : x + p.outerStep x < p.outerTiles := by omega
    have hinner : 0 < p.innerTiles := by
      have := hp.m
      have := hp.n
      unfold innerTiles
      cases p.frameOrder <;> assumption
    have := Nat.mul_lt_mul_of_pos_left hlt hinner
    rw [Nat.mul_add] at this
    omega

theorem bubbleStart_odd (hp : p.Plans) (hn2 : p.n2Mode = true) (hm2 : p.mTiles % 2 ≠ 0) (hn2' : p.nTiles % 2 ≠ 0) :
    p.bubbleStart = p.uopCount - p.kTiles := by
  unfold bubbleStart
  split_ifs with hone hodd
  · rw [hp.count, hone.1, hone.2]
    omega
  · rfl
  · exact absurd ⟨hn2, hm2, hn2'⟩ hodd

/-- The bubbles of a uop are those of its number. -/
theorem bubbles_turn (hp : p.Plans) {x y : Nat} (hx : x < p.outerTiles) (hy : y < p.innerTiles) (heven : p.Even2 x y)
    {k offset : Nat} (hk : k < p.kTiles)
    (ho : offset < p.rows (p.place x y).1 (p.place x y).2 * p.columns (p.place x y).2) :
    (p.frameUop (p.place x y).1 (p.place x y).2 (p.startId x y) k offset).preIssueBubbles = p.dtypeBubblesPerUop +
      if p.bubbleStart ≤ (p.frameUop (p.place x y).1 (p.place x y).2 (p.startId x y) k offset).id then 1 else 0 := by
  obtain ⟨hrow, hcolumn⟩ := place_lt hx hy
  obtain ⟨houter, houterEnd⟩ := outerStep_bounds hx
  obtain ⟨-, hinnerEnd⟩ := innerStep_bounds x hy
  have hsize := steps_eq hp x y
  have hbound := startId_le hp houterEnd hinnerEnd
  have hcalls : (k + 1) * (p.innerStep x y * p.outerStep x) ≤ p.kTiles * (p.innerStep x y * p.outerStep x) :=
    Nat.mul_le_mul_right _ hk
  rw [Nat.succ_mul] at hcalls
  obtain ⟨⟨hmLow, hmHigh⟩, hnLow, hnHigh⟩ := tile_bounds (m := (p.place x y).1) hcolumn ho
  have hbubble : (p.frameUop (p.place x y).1 (p.place x y).2 (p.startId x y) k offset).preIssueBubbles =
      p.dtypeBubblesPerUop + if (if p.n2Mode then p.mTiles % 2 ≠ 0 ∧ p.nTiles % 2 ≠ 0 ∧
        (p.tile (p.place x y).1 (p.place x y).2 offset).1 * p.nTiles +
          (p.tile (p.place x y).1 (p.place x y).2 offset).2 = p.mTiles * p.nTiles - 1
        else p.mTiles = 1 ∧ p.nTiles = 1) then 1 else 0 := by
    unfold frameUop uop
    rw [frameShape_at]
    simp [at', tile]
  have hid : (p.frameUop (p.place x y).1 (p.place x y).2 (p.startId x y) k offset).id =
      p.startId x y + (k * (p.innerStep x y * p.outerStep x) + offset) := by
    rw [← hsize]
    rfl
  rw [hbubble, hid]
  rw [hsize] at ho
  congr 1
  refine if_congr ?_ rfl rfl
  by_cases hn2 : p.n2Mode = true
  · rw [if_pos hn2]
    by_cases hodd : p.mTiles % 2 ≠ 0 ∧ p.nTiles % 2 ≠ 0
    · rw [bubbleStart_odd hp hn2 hodd.1 hodd.2, and_iff_right hodd.1, and_iff_right hodd.2]
      have horder := hp.order hn2
      have hplace : p.place x y = (y, x) := by simp only [place, horder]
      have hrows : p.rows y x = p.innerStep x y := by simp only [innerStep, horder]
      have hcolumns : p.columns x = p.outerStep x := by simp only [outerStep, horder]
      have hlastTile : p.mTiles * p.nTiles - 1 = (p.mTiles - 1) * p.nTiles + (p.nTiles - 1) := by
        have := hp.n
        obtain ⟨m, hm⟩ := Nat.exists_eq_succ_of_ne_zero hp.m.ne'
        rw [hm, Nat.succ_mul, Nat.succ_sub_one]
        omega
      have hinner : p.innerTiles = p.mTiles := by simp only [innerTiles, horder]
      have houterTiles : p.outerTiles = p.nTiles := by simp only [outerTiles, horder]
      simp only [hplace] at hrow hcolumn hmLow hmHigh hnLow hnHigh ⊢
      rw [hrows] at hmHigh
      rw [hcolumns] at hnHigh
      rw [hlastTile]
      by_cases hlast : x + p.outerStep x = p.outerTiles ∧ y + p.innerStep x y = p.innerTiles
      · obtain ⟨hx', hy', hos, his⟩ := last_frame hp hn2 hodd.1 hodd.2 heven hlast.1 hlast.2
        have hend : p.startId x y + p.kTiles = p.uopCount := by
          rw [startId, hos, hinner, hp.count, show p.nTiles = x + 1 by omega, show p.mTiles = y + 1 by omega]
          ring
        have hrow' : (p.tile y x offset).1 = p.mTiles - 1 := by omega
        have hcolumn' : (p.tile y x offset).2 = p.nTiles - 1 := by omega
        rw [hrow', hcolumn']
        exact iff_of_true rfl (by omega)
      · have hbefore := ends_before hp houterEnd houter hinnerEnd hlast
        refine iff_of_false (fun h => ?_) (by omega)
        have hn := hp.n
        obtain ⟨hi, hj⟩ := digits_inj (by omega) (by omega) h
        omega
    · refine iff_of_false (fun h => hodd ⟨h.1, h.2.1⟩) ?_
      rw [bubbleStart, if_neg fun h => hodd (by omega), if_neg fun h => hodd h.2]
      omega
  · rw [if_neg hn2, bubbleStart]
    by_cases hone : p.mTiles = 1 ∧ p.nTiles = 1
    · rw [if_pos hone]
      exact iff_of_true hone (Nat.zero_le _)
    · rw [if_neg hone, if_neg fun h => hn2 h.1]
      exact iff_of_false hone (by omega)

/-- What the bubbles of the first `n` uops add up to. -/
theorem sum_bubbles (dtype start n : Nat) :
    ((List.range n).map fun i => dtype + if start ≤ i then 1 else 0).sum = n * dtype + (n - start) := by
  induction n with
  | zero => simp
  | succ n ih =>
    rw [List.range_succ, List.map_append, List.sum_append, ih, Nat.succ_mul]
    simp
    split_ifs <;> omega

/-- The bubbles of the uops in order. -/
theorem map_bubbles (hp : p.Plans) (hstart : p = p.start 0 0) : p.uops.map (·.preIssueBubbles) =
    (List.range (p.mTiles * p.kTiles * p.nTiles)).map fun i =>
      p.dtypeBubblesPerUop + if p.bubbleStart ≤ i then 1 else 0 := by
  obtain ⟨places, huops, hids, hplaces, -⟩ := uops_eq hp hstart
  rw [← hids, List.map_map]
  refine List.map_congr_left fun u hu => ?_
  rw [huops] at hu
  obtain ⟨q, hq, hu⟩ := List.mem_flatMap.mp hu
  obtain ⟨k, hk, hu⟩ := List.mem_flatMap.mp hu
  obtain ⟨offset, ho, rfl⟩ := List.mem_map.mp hu
  obtain ⟨hx, hy, heven⟩ := hplaces q hq
  exact bubbles_turn hp hx hy heven (List.mem_range.mp hk) (List.mem_range.mp ho)

/-! ## Output tiles -/

/-- The turns of the loops that an output tile is in are those of its frame. -/
theorem inFrame_iff (hp : p.Plans) (x y i j : Nat) :
    ((p.place x y).1 ≤ i ∧ i < (p.place x y).1 + p.rows (p.place x y).1 (p.place x y).2) ∧
        (p.place x y).2 ≤ j ∧ j < (p.place x y).2 + p.columns (p.place x y).2 ↔
      (x ≤ (p.place i j).1 ∧ (p.place i j).1 < x + p.outerStep x) ∧
        y ≤ (p.place i j).2 ∧ (p.place i j).2 < y + p.innerStep x y := by
  unfold place outerStep innerStep
  cases horder : p.frameOrder
  · simp only [rows_eq hp horder x y]
  · exact and_comm

/-- Each output tile is computed over all K, in order. -/
theorem filter_uops (hp : p.Plans) (hstart : p = p.start 0 0) {i j : Nat} (hi : i < p.mTiles) (hj : j < p.nTiles) :
    (p.uops.filter (p.OfTile i j ·)).map shown = (List.range p.kTiles).map (p.expected i j) := by
  obtain ⟨places, huops, -, hplaces, hunique⟩ := uops_eq hp hstart
  have hturns : (p.place i j).1 < p.outerTiles ∧ (p.place i j).2 < p.innerTiles := by
    unfold place outerTiles innerTiles
    cases p.frameOrder <;> exact ⟨by assumption, by assumption⟩
  obtain ⟨q, hq, hin, hall⟩ := hunique CubeUop (fun q => (p.turn q.1 q.2).filter (p.OfTile i j ·)) _ _ hturns.1 hturns.2
    fun q hq hout => by
      obtain ⟨hx, hy, -⟩ := hplaces q hq
      exact filter_frame_none (place_lt hx hy).2 hj fun h => hout ((inFrame_iff hp _ _ _ _).mp h)
  obtain ⟨hx, hy, -⟩ := hplaces q hq
  obtain ⟨hrow, hcolumn⟩ := (inFrame_iff hp _ _ _ _).mpr hin
  rw [huops, List.filter_flatMap, hall]
  exact filter_frame (place_lt hx hy).2 hrow hcolumn

/-- All tile triples. -/
def triples (p : CubeV1UopPlanner) : List (Option CubeTileIndices) :=
  (List.range p.mTiles ×ˢ (List.range p.kTiles ×ˢ List.range p.nTiles)).map fun t => some (p.triple t.1 t.2.1 t.2.2)

theorem length_uops (hp : p.Plans) (hstart : p = p.start 0 0) : p.uops.length = p.mTiles * p.kTiles * p.nTiles := by
  obtain ⟨-, -, hids, -⟩ := uops_eq hp hstart
  have := congrArg List.length hids
  rwa [List.length_map, List.length_range] at this

theorem triples_nodup (p : CubeV1UopPlanner) : p.triples.Nodup := by
  refine List.Nodup.map_on ?_ (List.nodup_range.product (List.nodup_range.product List.nodup_range))
  rintro ⟨i, k, j⟩ h ⟨i', k', j'⟩ h' heq
  simp only [List.mem_product, List.mem_range] at h h'
  simp only [triple, Option.some.injEq, CubeTileIndices.mk.injEq] at heq
  obtain ⟨rfl, rfl⟩ := digits_inj h.2.2 h'.2.2 heq.2.2
  obtain ⟨-, rfl⟩ := digits_inj h.2.1 h'.2.1 heq.1
  rfl

theorem tileIndices_perm (hp : p.Plans) (hstart : p = p.start 0 0) : (p.uops.map (·.tileIndices)).Perm p.triples := by
  have hsubset : p.triples ⊆ p.uops.map (·.tileIndices) := by
    intro t ht
    obtain ⟨⟨i, k, j⟩, hmem, rfl⟩ := List.mem_map.mp ht
    simp only [List.mem_product, List.mem_range] at hmem
    have hshown : p.expected i j k ∈ (p.uops.filter (p.OfTile i j ·)).map shown := by
      rw [filter_uops hp hstart hmem.1 hmem.2.2]
      exact List.mem_map_of_mem (List.mem_range.mpr hmem.2.1)
    obtain ⟨u, hu, hshown⟩ := List.mem_map.mp hshown
    exact List.mem_map.mpr ⟨u, (List.mem_filter.mp hu).1, congrArg Prod.fst hshown⟩
  refine ((List.subperm_of_subset p.triples_nodup hsubset).perm_of_length_le ?_).symm
  rw [List.length_map, length_uops hp hstart, triples, List.length_map, List.length_product, List.length_product]
  simp [Nat.mul_assoc]

end CubeV1UopPlanner

/-! ## Tickets -/

theorem checked_bind {α : Type} {x : Option Nat} {f : Nat → Except CubeTimingError α} {a : α}
    (h : (x.elim (.error .timeOverflow) .ok : Except CubeTimingError Nat) >>= f = .ok a) :
    ∃ y, x = some y ∧ f y = .ok a := by
  cases x with
  | none => cases h
  | some y => exact ⟨y, rfl, h⟩

/-- What a ticket of the second FSM says. -/
structure CubeTicket.Scheduled (ticket : CubeTicket) : Prop where
  version : ticket.fsmVersion = .v1
  order : ticket.v1N2Mode = true → ticket.v1FrameOrder = .mThenN
  bubbles : ticket.fsmBubbles = ticket.uopCount * ticket.v1DtypeBubblesPerUop +
    if ticket.geometry.mTiles = 1 ∧ ticket.geometry.nTiles = 1 then ticket.uopCount
    else if ticket.v1N2Mode ∧ ticket.geometry.mTiles % 2 ≠ 0 ∧ ticket.geometry.nTiles % 2 ≠ 0 then
      ticket.geometry.kTiles
    else 0
  fits : ticket.acceptTick + ticket.uopCount + ticket.fsmBubbles + ticket.sparseBubbles < u64

theorem schedule_v1 {config : CubeConfig} {acceptTick previous : Nat} {instruction : CubeInstruction}
    {parameters : MmadPlanParameters} {control : CubeTimingControl} {ticket : CubeTicket}
    (h : schedule config acceptTick instruction parameters control previous = .ok ticket)
    (hv : config.fsmVersion = .v1) (hcount : ticket.uopCount ≠ 0) : ticket.Scheduled := by
  unfold schedule at h
  simp only [hv] at h
  obtain ⟨uopCount, -, h⟩ := checked_bind h
  by_cases hzero : uopCount = 0
  · rw [if_pos hzero] at h
    cases h
    exact absurd hzero hcount
  · rw [if_neg hzero] at h
    obtain ⟨fsmBubbles, hbubbles, h⟩ := checked_bind h
    obtain ⟨firstObservationTick, -, h⟩ := checked_bind h
    obtain ⟨guardTick, -, h⟩ := checked_bind h
    obtain ⟨firstAttemptTick, -, h⟩ := checked_bind h
    obtain ⟨wait, -, h⟩ := checked_bind h
    obtain ⟨firstUopTick, -, h⟩ := checked_bind h
    obtain ⟨lastUopTick, hlast, h⟩ := checked_bind h
    obtain ⟨retireTick, -, h⟩ := checked_bind h
    cases h
    obtain ⟨dtype, hdtype, hshape⟩ := Option.bind_eq_some_iff.mp hbubbles
    obtain ⟨-, rfl⟩ := checkedAdd_eq_some.mp hshape
    obtain ⟨tick, hcount, hlast⟩ := Option.bind_eq_some_iff.mp hlast
    obtain ⟨tick', hwait, hlast⟩ := Option.bind_eq_some_iff.mp hlast
    obtain ⟨tick'', hfsm, hsparse⟩ := Option.bind_eq_some_iff.mp hlast
    obtain ⟨-, rfl⟩ := checkedAdd_eq_some.mp hcount
    obtain ⟨-, rfl⟩ := checkedAdd_eq_some.mp hwait
    obtain ⟨-, rfl⟩ := checkedAdd_eq_some.mp hfsm
    obtain ⟨hlt, -⟩ := checkedAdd_eq_some.mp hsparse
    refine ⟨rfl, ?_, ?_, ?_⟩
    · intro (hn2 : config.v1N2Mode = true)
      simp [frameOrder, hn2]
    · obtain ⟨-, heq⟩ := Option.ite_none_right_eq_some.mp hdtype
      cases heq
      rfl
    · dsimp only
      omega

namespace CubeTicket

open CubeV1UopPlanner

variable {ticket : CubeTicket} {instruction : CubeInstruction} {parameters : MmadPlanParameters}

theorem Scheduled.plans (h : ticket.Scheduled) (hm : 0 < ticket.geometry.mTiles) (hk : 0 < ticket.geometry.kTiles)
    (hn : 0 < ticket.geometry.nTiles)
    (hcount : ticket.uopCount = ticket.geometry.mTiles * ticket.geometry.kTiles * ticket.geometry.nTiles) :
    (new ticket instruction parameters).Plans :=
  ⟨hm, hk, hn, hcount, h.order⟩

theorem new_start : new ticket instruction parameters = (new ticket instruction parameters).start 0 0 := by
  cases horder : ticket.v1FrameOrder <;> simp [start, startId, at', place, new, horder]

theorem bubbleStart_cases (ticket : CubeTicket) (instruction : CubeInstruction) (parameters : MmadPlanParameters) :
    (ticket.geometry.mTiles = 1 ∧ ticket.geometry.nTiles = 1) ∧
        (new ticket instruction parameters).bubbleStart = 0 ∨
      ¬ (ticket.geometry.mTiles = 1 ∧ ticket.geometry.nTiles = 1) ∧
        (ticket.v1N2Mode ∧ ticket.geometry.mTiles % 2 ≠ 0 ∧ ticket.geometry.nTiles % 2 ≠ 0) ∧
        (new ticket instruction parameters).bubbleStart = ticket.uopCount - ticket.geometry.kTiles ∨
      ¬ (ticket.geometry.mTiles = 1 ∧ ticket.geometry.nTiles = 1) ∧
        ¬ (ticket.v1N2Mode ∧ ticket.geometry.mTiles % 2 ≠ 0 ∧ ticket.geometry.nTiles % 2 ≠ 0) ∧
        (new ticket instruction parameters).bubbleStart = ticket.uopCount := by
  by_cases hone : ticket.geometry.mTiles = 1 ∧ ticket.geometry.nTiles = 1
  · exact .inl ⟨hone, if_pos hone⟩
  · by_cases hodd : ticket.v1N2Mode ∧ ticket.geometry.mTiles % 2 ≠ 0 ∧ ticket.geometry.nTiles % 2 ≠ 0
    · exact .inr (.inl ⟨hone, hodd, (if_neg hone).trans (if_pos hodd)⟩)
    · exact .inr (.inr ⟨hone, hodd, (if_neg hone).trans (if_neg hodd)⟩)

theorem kTiles_le (hp : (new ticket instruction parameters).Plans) : ticket.geometry.kTiles ≤ ticket.uopCount := by
  have hmul : ticket.uopCount = ticket.geometry.kTiles * (ticket.geometry.mTiles * ticket.geometry.nTiles) := by
    rw [show ticket.uopCount = _ from hp.count]
    simp only [new]
    ring
  rw [hmul]
  exact Nat.le_mul_of_pos_right _ (Nat.mul_pos hp.m hp.n)

/-- What the ticket counts are the bubbles of the planner. -/
theorem Scheduled.fsmBubbles_eq (h : ticket.Scheduled) (hp : (new ticket instruction parameters).Plans) :
    ticket.fsmBubbles = ticket.uopCount * ticket.v1DtypeBubblesPerUop +
      (ticket.uopCount - (new ticket instruction parameters).bubbleStart) := by
  have hk := kTiles_le hp
  rw [h.bubbles]
  congr 1
  rcases bubbleStart_cases ticket instruction parameters with
    ⟨hone, hstart⟩ | ⟨hone, hodd, hstart⟩ | ⟨hone, hodd, hstart⟩
  · rw [hstart, if_pos hone, Nat.sub_zero]
  · rw [hstart, if_neg hone, if_pos hodd]
    omega
  · rw [hstart, if_neg hone, if_neg hodd, Nat.sub_self]

theorem shapeBubbles_through (hp : (new ticket instruction parameters).Plans) {i : Nat}
    (hi : i < ticket.uopCount) (hnext : checkedAdd i 1 = some (i + 1)) :
    ticket.v1ShapeBubblesThrough i = some (i + 1 - (new ticket instruction parameters).bubbleStart) := by
  have hk := kTiles_le hp
  unfold v1ShapeBubblesThrough
  rcases bubbleStart_cases ticket instruction parameters with
    ⟨hone, hstart⟩ | ⟨hone, hodd, hstart⟩ | ⟨hone, hodd, hstart⟩
  · rw [hstart, if_pos hone, hnext, Nat.sub_zero]
  · rw [hstart, if_neg hone, if_neg (by simp [hodd.1]; omega), if_neg (by omega), hnext]
    rfl
  · rw [hstart, if_neg hone, if_pos (by by_cases hn2 : ticket.v1N2Mode <;> simp [hn2] at hodd ⊢; omega),
      Nat.sub_eq_zero_of_le hi]

theorem Scheduled.precedingFsmBubbles_eq (h : ticket.Scheduled) (hp : (new ticket instruction parameters).Plans)
    {i : Nat} (hi : i < ticket.uopCount) : ticket.precedingFsmBubbles i =
      some ((i + 1) * ticket.v1DtypeBubblesPerUop + (i + 1 - (new ticket instruction parameters).bubbleStart)) := by
  have hfits := h.fits
  have hbubbles := h.fsmBubbles_eq hp
  have hdtype := Nat.mul_le_mul_right ticket.v1DtypeBubblesPerUop (show i + 1 ≤ ticket.uopCount from hi)
  have hnext : checkedAdd i 1 = some (i + 1) := if_pos (by omega)
  have hmul : checkedMul (i + 1) ticket.v1DtypeBubblesPerUop = some ((i + 1) * ticket.v1DtypeBubblesPerUop) :=
    if_pos (by omega)
  have hadd : checkedAdd ((i + 1) * ticket.v1DtypeBubblesPerUop)
      (i + 1 - (new ticket instruction parameters).bubbleStart) = some _ := if_pos (by omega)
  unfold precedingFsmBubbles
  rw [h.version]
  dsimp only
  rw [hnext, Option.bind_eq_bind, Option.bind_some, hmul, shapeBubbles_through hp hi hnext]
  exact hadd

/-- No tick overflows before the last. -/
theorem Scheduled.plannedUopTick_eq (h : ticket.Scheduled) (hp : (new ticket instruction parameters).Plans) {i : Nat}
    (hi : i < ticket.uopCount) : ticket.plannedUopTick i = some (ticket.acceptTick + 1 + ticket.sparseBubbles + i +
      ((i + 1) * ticket.v1DtypeBubblesPerUop + (i + 1 - (new ticket instruction parameters).bubbleStart))) := by
  have hfits := h.fits
  have hbubbles := h.fsmBubbles_eq hp
  have hdtype := Nat.mul_le_mul_right ticket.v1DtypeBubblesPerUop (show i + 1 ≤ ticket.uopCount from hi)
  rw [plannedUopTick, if_neg hi.not_ge, h.precedingFsmBubbles_eq hp hi]
  have hadd {a b : Nat} (h : a + b < u64) : checkedAdd a b = some (a + b) := if_pos h
  simp only [Option.bind_eq_bind, Option.bind_some]
  rw [hadd (by omega), Option.bind_some, hadd (by omega), Option.bind_some, hadd (by omega), Option.bind_some,
    hadd (by omega)]

end CubeTicket

open CubeV1UopPlanner

/-- The uops of a scheduled instruction. -/
theorem v1_plan_exact {config : CubeConfig} {acceptTick previousLastUopTick : Nat} {instruction : CubeInstruction}
    {parameters : MmadPlanParameters} {control : CubeTimingControl} {ticket : CubeTicket}
    (hschedule : schedule config acceptTick instruction parameters control previousLastUopTick = .ok ticket)
    (hversion : config.fsmVersion = .v1) (hm : 0 < ticket.geometry.mTiles) (hk : 0 < ticket.geometry.kTiles)
    (hn : 0 < ticket.geometry.nTiles)
    (hcount : ticket.uopCount = ticket.geometry.mTiles * ticket.geometry.kTiles * ticket.geometry.nTiles) :
    let p := new ticket instruction parameters
    p.uops.length = ticket.uopCount ∧ (p.uops.map (·.tileIndices)).Perm p.triples ∧
      (∀ i < ticket.geometry.mTiles, ∀ j < ticket.geometry.nTiles,
        (p.uops.filter (p.OfTile i j ·)).map shown = (List.range ticket.geometry.kTiles).map (p.expected i j)) ∧
      p.uops.IsChain Reuses ∧ (∀ u ∈ p.uops.head?, u.readsL0a = true ∧ u.readsL0b = true) ∧
      (∀ i < ticket.uopCount,
        ticket.precedingFsmBubbles i = some ((p.uops.take (i + 1)).map (·.preIssueBubbles)).sum ∧
        ticket.plannedUopTick i = some (ticket.acceptTick + 1 + ticket.sparseBubbles + i +
          ((p.uops.take (i + 1)).map (·.preIssueBubbles)).sum)) ∧
      (p.uops.map (·.preIssueBubbles)).sum = ticket.fsmBubbles := by
  intro p
  have hpos : ticket.uopCount ≠ 0 := by
    rw [hcount]
    exact (Nat.mul_pos (Nat.mul_pos hm hk) hn).ne'
  have hticket := schedule_v1 hschedule hversion hpos
  have hp : p.Plans := hticket.plans hm hk hn hcount
  have hstart : p = p.start 0 0 := CubeTicket.new_start
  have hlength : p.uops.length = ticket.uopCount := (length_uops hp hstart).trans hcount.symm
  have hbubbles := map_bubbles hp hstart
  have hsum (n : Nat) (hle : n ≤ ticket.uopCount) : ((p.uops.take n).map (·.preIssueBubbles)).sum =
      n * ticket.v1DtypeBubblesPerUop + (n - p.bubbleStart) := by
    have hmin : min n (p.mTiles * p.kTiles * p.nTiles) = n := Nat.min_eq_left (hle.trans_eq hcount)
    rw [List.map_take, hbubbles, ← List.map_take, List.take_range, hmin, sum_bubbles]
    rfl
  refine ⟨hlength, tileIndices_perm hp hstart, fun i hi j hj => filter_uops hp hstart hi hj, ?_, ?_, fun i hi => ?_, ?_⟩
  · exact next_shrinks.chain (fun _ _ _ _ _ _ h h' => next_reuses h h') trivial
  · have hdone : ¬ p.Done := by
      have hbegin : p.nextUopId = 0 ∧ p.mFrameStart = 0 ∧ p.nFrameStart = 0 := ⟨rfl, rfl, rfl⟩
      have hcount : p.uopCount ≠ 0 := hpos
      have hm := hp.m
      have hk := hp.k
      have hn := hp.n
      unfold Done
      omega
    have hnext : next p = some (p.uop, _) := if_neg hdone
    rw [uops, next_shrinks.pieces_some trivial hnext]
    rintro u ⟨⟩
    exact uop_reads rfl
  · rw [hsum _ hi]
    exact ⟨hticket.precedingFsmBubbles_eq hp hi, hticket.plannedUopTick_eq hp hi⟩
  · have hall := hsum ticket.uopCount le_rfl
    rw [List.take_of_length_le hlength.le] at hall
    rw [hall, hticket.fsmBubbles_eq hp]

/-- Three by three output tiles and a K of two tiles. -/
def oddInstruction : CubeInstruction := ⟨.mmad, .f16F32⟩

def oddParameters : MmadPlanParameters where
  xdLow := 0
  xdHigh := 0
  xn := 0
  xm := 0
  m := 48
  effectiveK := 32
  n := 48
  xtBit58 := false
  xtBit62 := false
  xtBit63 := false
  xtBits5556 := 0

def n2Config : CubeConfig := ⟨256, 5, .v1, true, false⟩

def n2Control : CubeTimingControl := ⟨.fp32, false, ⟨false, 0, 0⟩⟩

def oddTicket : CubeTicket where
  acceptTick := 10
  firstUopTick := some 11
  lastUopTick := some 30
  retireTick := 34
  geometry := ⟨3, 3, 2, 16, 18⟩
  uopCount := 18
  fsmBubbles := 2
  sparseBubbles := 0
  issueDelayWaitTicks := 0
  issueDelay := ⟨false, 0, 0⟩
  fsmVersion := .v1
  v1N2Mode := true
  v1FrameOrder := .mThenN
  v1DtypeBubblesPerUop := 0
  biasCheckpointUop := none
  unitFlagSync := false

theorem v1_plan_exact_odd : (new oddTicket oddInstruction oddParameters).uops.length = 18 ∧
    ((new oddTicket oddInstruction oddParameters).uops.map (·.preIssueBubbles)).sum = 2 := by
  have h := v1_plan_exact
    (show schedule n2Config 10 oddInstruction oddParameters n2Control 0 = .ok oddTicket from rfl) rfl
    (show 0 < oddTicket.geometry.mTiles by decide) (by decide) (by decide) rfl
  exact ⟨h.1, h.2.2.2.2.2.2⟩

end AscendEmulator.C220.Cube
