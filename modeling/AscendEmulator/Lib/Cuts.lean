/-
  AscendEmulator.Lib.Cuts — things that are cut into pieces, one piece at a time, and the queues they wait in.

  A step takes the next piece of a state and leaves a smaller one; `pieces` is all that the steps yield. States of
  several classes go one by one from a queue of their class into one queue of states being cut. What waits of a class is
  what its queues still hold, in order (`waiting`); only a piece that is taken changes it, and a push.
-/

import AscendEmulator.Lib.Tiling

namespace AscendEmulator.Lib

namespace Cuts

variable {σ π : Type}

/-! ## Pieces -/

/-- The pieces that `next` takes of a state, when there are at most `fuel`. -/
def collect (next : σ → Option (π × σ)) : Nat → σ → List π
  | 0, _ => []
  | fuel + 1, s =>
    match next s with
    | none => []
    | some (piece, rest) => piece :: collect next fuel rest

/-- All pieces of a state, of which there are at most `size` of it. -/
def pieces (next : σ → Option (π × σ)) (size : σ → Nat) (s : σ) : List π := collect next (size s) s

/-- A step keeps `valid`, and makes the state smaller. -/
def Shrinks (next : σ → Option (π × σ)) (valid : σ → Prop) (size : σ → Nat) : Prop :=
  ∀ s piece rest, valid s → next s = some (piece, rest) → valid rest ∧ size rest < size s

variable {next : σ → Option (π × σ)} {valid : σ → Prop} {size : σ → Nat} {s rest : σ} {piece : π}

/-- The rule for what is shown piece by piece. -/
theorem Shrinks.ind {P : σ → Prop} (h : Shrinks next valid size) (hdone : ∀ s, valid s → next s = none → P s)
    (hstep : ∀ s piece rest, valid s → next s = some (piece, rest) → P rest → P s) (hs : valid s) : P s := by
  induction hn : size s using Nat.strong_induction_on generalizing s with
  | _ n ih =>
    cases hnext : next s with
    | none => exact hdone s hs hnext
    | some r =>
      obtain ⟨piece, rest⟩ := r
      obtain ⟨hrest, hlt⟩ := h s piece rest hs hnext
      exact hstep s piece rest hs hnext (ih (size rest) (hn ▸ hlt) hrest rfl)

/-- More fuel than size changes nothing. -/
theorem Shrinks.collect_enough (h : Shrinks next valid size) (hs : valid s) {fuel fuel' : Nat} (hf : size s ≤ fuel)
    (hf' : size s ≤ fuel') : collect next fuel s = collect next fuel' s := by
  induction fuel generalizing s fuel' with
  | zero =>
    cases fuel' with
    | zero => rfl
    | succ fuel' =>
      cases hnext : next s with
      | none => simp [collect, hnext]
      | some r =>
        have := (h s r.1 r.2 hs hnext).2
        omega
  | succ fuel ih =>
    cases hnext : next s with
    | none => cases fuel' <;> simp [collect, hnext]
    | some r =>
      obtain ⟨piece, rest⟩ := r
      obtain ⟨hrest, hlt⟩ := h s piece rest hs hnext
      obtain ⟨k, rfl⟩ := Nat.exists_eq_succ_of_ne_zero (show fuel' ≠ 0 by omega)
      have htail : collect next fuel rest = collect next k rest := ih hrest (by omega) (by omega)
      simp only [collect, hnext, htail]

theorem pieces_none (hnext : next s = none) : pieces next size s = [] := by
  unfold pieces
  cases size s <;> simp [collect, hnext]

theorem Shrinks.pieces_some (h : Shrinks next valid size) (hs : valid s) (hnext : next s = some (piece, rest)) :
    pieces next size s = piece :: pieces next size rest := by
  obtain ⟨hrest, hlt⟩ := h s piece rest hs hnext
  obtain ⟨k, hk⟩ := Nat.exists_eq_succ_of_ne_zero (show size s ≠ 0 by omega)
  unfold pieces
  rw [hk, collect, hnext]
  exact congrArg _ (h.collect_enough hrest (by omega) (Nat.le_refl _))

/-- Where a step marks its piece just if nothing is left behind it, the last piece alone bears the mark. -/
theorem Shrinks.marks {mark : π → Bool} {e : σ → Bool} (h : Shrinks next valid size)
    (hmark : ∀ s piece rest, valid s → next s = some (piece, rest) →
      mark piece = (e s && (next rest).isNone) ∧ e rest = e s)
    (hs : valid s) (hsome : next s ≠ none) :
    (pieces next size s).map mark = List.replicate ((pieces next size s).length - 1) false ++ [e s] := by
  refine h.ind (P := fun s => next s ≠ none → (pieces next size s).map mark =
    List.replicate ((pieces next size s).length - 1) false ++ [e s]) ?_ ?_ hs hsome
  · exact fun _ _ hnone hsome => absurd hnone hsome
  · intro s piece rest hs hnext ih _
    obtain ⟨hpiece, hends⟩ := hmark s piece rest hs hnext
    rw [h.pieces_some hs hnext, List.map_cons, hpiece]
    cases hrest : next rest with
    | none =>
      rw [pieces_none hrest, Option.isNone_none, Bool.and_true]
      rfl
    | some r =>
      obtain ⟨k, hk⟩ : ∃ k, (pieces next size rest).length = k + 1 := by
        rw [h.pieces_some (h s piece rest hs hnext).1 (hrest : next rest = some (r.1, r.2))]
        exact ⟨_, rfl⟩
      rw [ih (by rw [hrest]; exact Option.some_ne_none r), hends, List.length_cons, hk, Option.isNone_some, Bool.and_false]
      rfl

/-- The pieces taken of a state, and what is left then. -/
inductive Takes (next : σ → Option (π × σ)) : σ → List π → σ → Prop where
  | nil (s : σ) : Takes next s [] s
  | cons {s rest last : σ} {piece : π} {l : List π} (hnext : next s = some (piece, rest))
      (ht : Takes next rest l last) : Takes next s (piece :: l) last

theorem Takes.append {mid last : σ} {l l' : List π} (h : Takes next s l mid) (h' : Takes next mid l' last) :
    Takes next s (l ++ l') last := by
  induction h with
  | nil => exact h'
  | cons hnext _ ih => exact .cons hnext (ih h')

/-- Where a step marks its piece just if nothing is left behind it, a walk to the end marks its last piece alone. -/
theorem Takes.marks {mark : π → Bool} {last : σ} {l : List π} (ht : Takes next s l last) (hlast : next last = none)
    (hmark : ∀ s piece rest, valid s → next s = some (piece, rest) → valid rest ∧ mark piece = (next rest).isNone)
    (hs : valid s) {before after : List π} (hl : l = before ++ piece :: after) : mark piece = true ↔ after = [] := by
  induction ht generalizing before with
  | nil => simp at hl
  | cons hnext ht ih =>
    obtain ⟨hrest, hm⟩ := hmark _ _ _ hs hnext
    cases before with
    | nil =>
      obtain ⟨rfl, rfl⟩ := List.cons.inj hl
      rw [hm]
      cases ht with
      | nil => simp [hlast]
      | cons hnext' _ => simp [hnext']
    | cons x before => exact ih hlast hrest (List.cons.inj hl).2

/-- What a loop takes, turn by turn. -/
theorem Takes.rows {f : Nat → σ} {l : Nat → List π} {n : Nat}
    (h : ∀ i < n, Takes next (f i) (l i) (f (i + 1))) :
    Takes next (f 0) ((List.range n).flatMap l) (f n) := by
  induction n with
  | zero => exact .nil _
  | succ n ih =>
    rw [List.range_succ, List.flatMap_append, List.flatMap_singleton]
    exact (ih fun i hi => h i (by omega)).append (h n (by omega))

/-- What a loop takes, one piece a turn. -/
theorem Takes.range {f : Nat → σ} {g : Nat → π} {n : Nat} (h : ∀ i < n, next (f i) = some (g i, f (i + 1))) :
    Takes next (f 0) ((List.range n).map g) (f n) := by
  rw [List.map_eq_flatMap]
  exact Takes.rows fun i hi => .cons (h i hi) (.nil _)

/-- What a loop takes, turn by turn, when all that is told of a turn is where it begins and ends, and what it yields. -/
theorem Takes.turns {A : Nat → σ → Prop} {P : Nat → List π → Prop} {n : Nat}
    (h : ∀ i < n, ∀ s, A i s → ∃ l s', Takes next s l s' ∧ A (i + 1) s' ∧ P i l) (hs : A 0 s) :
    ∃ (l : Nat → List π) (s' : σ), Takes next s ((List.range n).flatMap l) s' ∧ A n s' ∧ ∀ i < n, P i (l i) := by
  induction n with
  | zero => exact ⟨fun _ => [], s, .nil _, hs, fun i hi => absurd hi (Nat.not_lt_zero i)⟩
  | succ n ih =>
    obtain ⟨l, s', ht, hat, hP⟩ := ih fun i hi => h i (by omega)
    obtain ⟨last, s'', ht', hat', hlast⟩ := h n (by omega) s' hat
    refine ⟨Function.update l n last, s'', ?_, hat', fun i hi => ?_⟩
    · have hbefore : (List.range n).flatMap (Function.update l n last) = (List.range n).flatMap l := by
        refine List.flatMap_congr fun i hi => ?_
        rw [Function.update_of_ne (by have := List.mem_range.mp hi; omega)]
      rw [List.range_succ, List.flatMap_append, List.flatMap_singleton, hbefore, Function.update_self]
      exact ht.append ht'
    · by_cases heq : i = n
      · rw [heq, Function.update_self]
        exact hlast
      · rw [Function.update_of_ne heq]
        exact hP i (by omega)

/-- The same for a loop whose turns are steps `g` from `x` to `n`. -/
theorem Takes.through {α : Type} {A : Nat → σ → Prop} {P : Nat → α → Prop} {l : α → List π} {g : Nat → Nat} {n x : Nat}
    (h : ∀ x < n, ∀ s, A x s → (0 < g x ∧ x + g x ≤ n) ∧ ∃ a s', Takes next s (l a) s' ∧ A (x + g x) s' ∧ P x a)
    (hx : x ≤ n) (hs : A x s) :
    ∃ (xs : List (Nat × α)) (s' : σ), Takes next s (xs.flatMap fun y => l y.2) s' ∧ A n s' ∧
      Tiles Prod.fst (fun y => g y.1) x xs n ∧ ∀ y ∈ xs, P y.1 y.2 := by
  induction hr : n - x using Nat.strong_induction_on generalizing x s with
  | _ r ih =>
    obtain rfl | hlt := Nat.eq_or_lt_of_le hx
    · exact ⟨[], s, .nil _, hs, rfl, by simp⟩
    · obtain ⟨⟨hpos, hle⟩, a, s', ht, hat, hP⟩ := h x hlt s hs
      obtain ⟨xs, s'', ht', hat', htiles, hxs⟩ := ih (n - (x + g x)) (by omega) hle hat rfl
      exact ⟨(x, a) :: xs, s'', ht.append ht', hat', ⟨rfl, hpos, htiles⟩, List.forall_mem_cons.mpr ⟨hP, hxs⟩⟩

/-- What a loop takes whose steps `g` lead from `x` to `n`, where `inv` holds along the way. A turn may depend on
something that is not told of the turns before it. -/
theorem Takes.walk {κ : Type} {f : Nat → κ → σ} {l : Nat → κ → List π} {g : Nat → Nat} {inv : Nat → Prop} {n x : Nat}
    (hg : ∀ x < n, inv x → 0 < g x ∧ x + g x ≤ n) (hinv : ∀ x, inv x → x + g x < n → inv (x + g x))
    (h : ∀ x < n, ∀ k, inv x → ∃ k', Takes next (f x k) (l x k) (f (x + g x) k')) (hx : x ≤ n) (hstart : inv x)
    (k : κ) :
    ∃ (xs : List (Nat × κ)) (k' : κ), Takes next (f x k) (xs.flatMap fun y => l y.1 y.2) (f n k') ∧
      Tiles Prod.fst (fun y => g y.1) x xs n ∧ ∀ y ∈ xs, inv y.1 := by
  obtain ⟨xs, s', ht, ⟨-, k', rfl⟩, htiles, hxs⟩ := Takes.through (g := g) (l := fun y : Nat × κ => l y.1 y.2)
    (A := fun x s => (x < n → inv x) ∧ ∃ k, s = f x k) (P := fun x y => y.1 = x ∧ inv x)
    (fun x hx s ⟨hinv', k, hs⟩ => ⟨hg x hx (hinv' hx), (x, k), by
      obtain ⟨k', ht⟩ := h x hx k (hinv' hx)
      exact ⟨f (x + g x) k', hs ▸ ht, ⟨fun hlt => hinv x (hinv' hx) hlt, k', rfl⟩, rfl, hinv' hx⟩⟩)
    hx ⟨fun _ => hstart, k, rfl⟩
  refine ⟨xs.map Prod.snd, k', ?_, tiles_map.mpr ?_, ?_⟩
  · rwa [List.flatMap_map]
  · refine (tiles_congr fun y hy => ?_).mp htiles
    rw [(hxs y hy).1]
    exact ⟨rfl, rfl⟩
  · intro y hy
    obtain ⟨z, hz, rfl⟩ := List.mem_map.mp hy
    exact (hxs z hz).1 ▸ (hxs z hz).2

theorem Takes.steps {f : Nat → σ} {l : Nat → List π} {g : Nat → Nat} {inv : Nat → Prop} {n x : Nat}
    (hg : ∀ x < n, inv x → 0 < g x ∧ x + g x ≤ n) (hinv : ∀ x, inv x → x + g x < n → inv (x + g x))
    (h : ∀ x < n, inv x → Takes next (f x) (l x) (f (x + g x))) (hx : x ≤ n) (hstart : inv x) :
    ∃ xs, Takes next (f x) (xs.flatMap l) (f n) ∧ Tiles id g x xs n ∧ ∀ y ∈ xs, inv y := by
  obtain ⟨xs, -, ht, htiles, hxs⟩ := Takes.walk (f := fun x (_ : Unit) => f x) (l := fun x _ => l x) hg hinv
    (fun x hx _ hinv => ⟨(), h x hx hinv⟩) hx hstart ()
  refine ⟨xs.map Prod.fst, ?_, tiles_map.mpr htiles, by simpa using hxs⟩
  rwa [List.flatMap_map]

/-- What two nested loops take, whose steps `g` and `h` lead to `n` and `m`: their turns tile the places below these. -/
theorem Takes.nest {f : Nat → Nat → σ} {l : Nat → Nat → List π} {g : Nat → Nat} {h : Nat → Nat → Nat}
    {inv : Nat → Nat → Prop} {n m : Nat} (hm : 0 < m) (hg : ∀ x < n, 0 < g x ∧ x + g x ≤ n)
    (hh : ∀ x < n, ∀ y < m, 0 < h x y ∧ y + h x y ≤ m) (hstart : inv 0 0)
    (houter : ∀ x, inv x 0 → x + g x < n → inv (x + g x) 0)
    (hinner : ∀ x y, inv x y → y + h x y < m → inv x (y + h x y))
    (hturn : ∀ x < n, ∀ y < m, inv x y →
      Takes next (f x y) (l x y) (if y + h x y < m then f x (y + h x y) else f (x + g x) 0)) :
    ∃ places : List (Nat × Nat), Takes next (f 0 0) (places.flatMap fun p => l p.1 p.2) (f n 0) ∧
      (∀ p ∈ places, p.1 < n ∧ p.2 < m ∧ inv p.1 p.2) ∧
      ∀ (β : Type) (F : Nat × Nat → List β) (i j : Nat), i < n → j < m →
        (∀ p ∈ places, ¬ ((p.1 ≤ i ∧ i < p.1 + g p.1) ∧ p.2 ≤ j ∧ j < p.2 + h p.1 p.2) → F p = []) →
        ∃ p ∈ places, ((p.1 ≤ i ∧ i < p.1 + g p.1) ∧ p.2 ≤ j ∧ j < p.2 + h p.1 p.2) ∧ places.flatMap F = F p := by
  have hrow (x : Nat) (hx : x < n) (hinv : inv x 0) : ∃ ys, Takes next (f x 0) (ys.flatMap (l x)) (f (x + g x) 0) ∧
      Tiles id (h x) 0 ys m ∧ ∀ y ∈ ys, inv x y := by
    obtain ⟨ys, ht, htiles, hys⟩ := Takes.steps (f := fun y => if y < m then f x y else f (x + g x) 0) (fun y hy _ => hh x hx y hy)
      (hinner x) (fun y hy hinv => by simpa [hy] using hturn x hx y hy hinv) (Nat.zero_le m) hinv
    rw [if_pos hm, if_neg (lt_irrefl m)] at ht
    exact ⟨ys, ht, htiles, hys⟩
  choose! ys hys using hrow
  obtain ⟨xs, ht, htiles, hxs⟩ := Takes.steps (f := fun x => f x 0) (fun x hx _ => hg x hx) houter
    (fun x hx hinv => (hys x hx hinv).1) (Nat.zero_le n) hstart
  have hbelow (x : Nat) (hx : x ∈ xs) : x < n := by
    have hbounds := htiles.bounds hx
    simp only [id] at hbounds
    omega
  refine ⟨xs.flatMap fun x => (ys x).map (x, ·), ?_, ?_, ?_⟩
  · simpa only [List.flatMap_assoc, List.flatMap_map] using ht
  · rintro ⟨x, y⟩ hp
    obtain ⟨x', hx, hy⟩ := List.mem_flatMap.mp hp
    obtain ⟨y', hy, heq⟩ := List.mem_map.mp hy
    cases heq
    have hbounds := ((hys x (hbelow x hx) (hxs x hx)).2.1).bounds hy
    simp only [id] at hbounds
    exact ⟨hbelow x hx, by omega, (hys x (hbelow x hx) (hxs x hx)).2.2 y hy⟩
  · intro β F i j hi hj hnone
    have hmem {x y : Nat} (hx : x ∈ xs) (hy : y ∈ ys x) : (x, y) ∈ xs.flatMap fun x => (ys x).map (x, ·) :=
      List.mem_flatMap.mpr ⟨x, hx, List.mem_map.mpr ⟨y, hy, rfl⟩⟩
    rw [List.flatMap_assoc]
    simp only [List.flatMap_map]
    obtain ⟨x, hx, hxi, heq⟩ := htiles.flatMap_eq (g := fun x => (ys x).flatMap fun y => F (x, y))
      ⟨Nat.zero_le i, hi⟩ fun x hx hxi => List.flatMap_eq_nil_iff.mpr fun y hy => hnone _ (hmem hx hy) fun h => hxi h.1
    obtain ⟨y, hy, hyj, heq'⟩ := (hys x (hbelow x hx) (hxs x hx)).2.1.flatMap_eq (g := fun y => F (x, y))
      ⟨Nat.zero_le j, hj⟩ fun y hy hyj => hnone _ (hmem hx hy) fun h => hyj h.2
    exact ⟨(x, y), hmem hx hy, ⟨hxi, hyj⟩, heq.trans heq'⟩

theorem Shrinks.pieces_takes {last : σ} {l : List π} (h : Shrinks next valid size) (hs : valid s)
    (ht : Takes next s l last) : pieces next size s = l ++ pieces next size last := by
  induction ht with
  | nil => rfl
  | cons hnext _ ih => rw [h.pieces_some hs hnext, ih (h _ _ _ hs hnext).1, List.cons_append]

/-- What holds of two pieces taken one after the other holds along all pieces. -/
theorem Shrinks.chain {R : π → π → Prop} (h : Shrinks next valid size)
    (hR : ∀ s piece rest piece' rest', valid s → next s = some (piece, rest) → next rest = some (piece', rest') →
      R piece piece') (hs : valid s) : (pieces next size s).IsChain R := by
  refine h.ind (P := fun s => (pieces next size s).IsChain R) ?_ ?_ hs
  · intro s _ hnone
    rw [pieces_none hnone]
    exact .nil
  · intro s piece rest hs hnext ih
    have hrest := (h s piece rest hs hnext).1
    rw [h.pieces_some hs hnext]
    cases hnext' : next rest with
    | none =>
      rw [pieces_none hnext']
      exact .singleton _
    | some r =>
      rw [h.pieces_some hrest (hnext' : next rest = some (r.1, r.2))] at ih ⊢
      exact .cons_cons (hR s piece rest r.1 r.2 hs hnext hnext') ih

/-! ## Queues of several classes -/

variable {κ ι : Type} [DecidableEq κ]

/-- What waits of a class: first what is being cut, then its queue. -/
def waiting (classOf : σ → κ) (rest : σ → List π) (whole : ι → List π) (cutting : List σ) (queues : κ → List ι)
    (k : κ) : List π :=
  (cutting.filter (classOf · = k)).flatMap rest ++ (queues k).flatMap whole

variable {classOf : σ → κ} {restOf : σ → List π} {whole : ι → List π} {cutting : List σ} {queues : κ → List ι} {j k : κ}

theorem waiting_push (x : ι) :
    waiting classOf restOf whole cutting (Function.update queues j (queues j ++ [x])) k =
      waiting classOf restOf whole cutting queues k ++ if k = j then whole x else [] := by
  unfold waiting
  by_cases hk : k = j
  · subst hk
    simp
  · simp [hk]

/-- The head of a queue goes on to be cut. -/
theorem waiting_accept {x : ι} {queue : List ι} {more : List σ} (hqueue : queues j = x :: queue)
    (hclass : ∀ s ∈ more, classOf s = j) (hmore : more.flatMap restOf = whole x) :
    waiting classOf restOf whole (cutting ++ more) (Function.update queues j queue) k =
      waiting classOf restOf whole cutting queues k := by
  unfold waiting
  rw [List.filter_append, List.flatMap_append]
  by_cases hk : k = j
  · subst hk
    have hall : more.filter (classOf · = k) = more := List.filter_eq_self.mpr fun s hs => by simpa using hclass s hs
    rw [Function.update_self, hall, hmore, hqueue, List.flatMap_cons, List.append_assoc]
  · have hnone : more.filter (classOf · = k) = [] :=
      List.filter_eq_nil_iff.mpr fun s hs => by simpa [hclass s hs] using Ne.symm hk
    rw [Function.update_of_ne hk, hnone, List.flatMap_nil, List.append_nil]

/-- A piece is taken of the first that is being cut. -/
theorem waiting_take {head : σ} {tail left : List σ} (hpieces : restOf head = piece :: left.flatMap restOf)
    (hclass : ∀ s ∈ left, classOf s = classOf head) :
    (if classOf head = k then [piece] else []) ++ waiting classOf restOf whole (left ++ tail) queues k =
      waiting classOf restOf whole (head :: tail) queues k := by
  unfold waiting
  rw [List.filter_append, List.flatMap_append]
  by_cases hk : classOf head = k
  · have hall : left.filter (classOf · = k) = left :=
      List.filter_eq_self.mpr fun s hs => by simpa [hk] using hclass s hs
    rw [if_pos hk, hall, List.filter_cons_of_pos (by simpa using hk), List.flatMap_cons, hpieces]
    simp
  · have hnone : left.filter (classOf · = k) = [] :=
      List.filter_eq_nil_iff.mpr fun s hs => by simpa [hclass s hs] using hk
    rw [if_neg hk, hnone, List.filter_cons_of_neg (by simpa using hk)]
    simp

end Cuts

end AscendEmulator.Lib
