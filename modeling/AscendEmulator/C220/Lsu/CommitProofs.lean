/-
  AscendEmulator.C220.Lsu.CommitProofs — which load may still write a register.

  A load that was not superseded owns all its destinations, so what a later writer supersedes is
  every load that could still write. A suppressed load leaves its other registers owned.
-/

import AscendEmulator.C220.Lsu.Commit

namespace AscendEmulator.C220.Lsu.CommitLane

open AscendEmulator.Lib

abbrev Label := LaneCall × Except CommitError (Option LsuRetirement)

/-! ## The history -/

/-- An accepted issue of the load `id`. -/
def Issues (id : Nat) (x : Label) : Prop := ∃ tick operands, x = (.issue tick id operands, .ok none)

/-- A writer of `register` was accepted: a load, or an instruction that supersedes the load before it. -/
def Writes (register : Nat) (x : Label) : Prop :=
  (∃ tick id operands, x = (.issue tick id operands, .ok none) ∧ register ∈ operands.destinations) ∨
    x = (.supersede register, .ok none)

/-- The load `id` retired without writing its registers. -/
def RetiresSuppressed (id : Nat) (x : Label) : Prop :=
  ∃ tick retirement, x = (.retireNextAt tick, .ok (some (.load retirement))) ∧ retirement.instruction = id ∧
    retirement.suppressed = true

/-- The load `id` was issued, with `later` after it. -/
def IssuedThen (t : List Label) (id : Nat) (operands : LoadOperands) (later : List Label) : Prop :=
  ∃ before tick, t = before ++ (.issue tick id operands, .ok none) :: later

theorem IssuedThen.snoc {t : List Label} {id : Nat} {operands : LoadOperands} {later : List Label}
    (h : IssuedThen t id operands later) (x : Label) : IssuedThen (t ++ [x]) id operands (later ++ [x]) := by
  obtain ⟨before, tick, rfl⟩ := h
  exact ⟨before, tick, by simp⟩

theorem IssuedThen.last (t : List Label) (tick id : Nat) (operands : LoadOperands) :
    IssuedThen (t ++ [(.issue tick id operands, .ok none)]) id operands [] := ⟨t, tick, rfl⟩

theorem forall_mem_snoc {P : Label → Prop} {t : List Label} {x : Label} (ht : ∀ y ∈ t, P y) (hx : P x) :
    ∀ y ∈ t ++ [x], P y := by
  intro y hy
  rcases List.mem_append.mp hy with hy | hy
  · exact ht y hy
  · exact List.mem_singleton.mp hy ▸ hx

/-! ## The invariant -/

/-- The registers that the load owns for good: it retired suppressed, and nothing has written them since its issue. -/
def Kept (t : List Label) (register id : Nat) : Prop :=
  ∃ operands later, IssuedThen t id operands later ∧ register ∈ operands.destinations ∧
    (∀ x ∈ later, ¬Writes register x) ∧ ∃ x ∈ later, RetiresSuppressed id x

structure Inv (t : List Label) (s : CommitLane × ScalarMachine) : Prop where
  mode : s.1.mode = .retirement
  /-- A pending load was issued, and not issued again; if nothing suppressed it, none of its registers was written. -/
  issued : ∀ id p, s.1.pending.get? id = some p → ∃ later, IssuedThen t id p.operands later ∧
    (∀ x ∈ later, ¬Issues id x) ∧
    (p.suppressed = false → ∀ x ∈ later, ∀ r ∈ p.operands.destinations, ¬Writes r x) ∧
    (∀ r, s.1.owners.get? r = some id → r ∈ p.operands.destinations → ∀ x ∈ later, ¬Writes r x)
  owns : ∀ id p, s.1.pending.get? id = some p → p.suppressed = false →
    ∀ r ∈ p.operands.destinations, s.1.owners.get? r = some id
  unwritten : ∀ id p, s.1.pending.get? id = some p → p.writebackTick = none
  data : ∀ id p d, s.1.pending.get? id = some p → p.data = some d → d.operands = p.operands
  owned : ∀ r id, s.1.owners.get? r = some id →
    (∃ p, s.1.pending.get? id = some p ∧ r ∈ p.operands.destinations) ∨ Kept t r id

theorem Inv.new (machine : ScalarMachine) : Inv [] (new .retirement, machine) where
  mode := rfl
  issued := by rintro _ _ ⟨⟩
  owns := by rintro _ _ ⟨⟩
  unwritten := by rintro _ _ ⟨⟩
  data := by rintro _ _ _ ⟨⟩
  owned := by rintro _ _ ⟨⟩

theorem Kept.snoc {t : List Label} {r id : Nat} {x : Label} (h : Kept t r id) (hx : ¬Writes r x) :
    Kept (t ++ [x]) r id := by
  obtain ⟨operands, later, hissue, hr, hwrites, y, hy, hretires⟩ := h
  exact ⟨operands, later ++ [x], hissue.snoc x, hr, forall_mem_snoc hwrites hx, y, List.mem_append_left _ hy, hretires⟩

/-! ## What a call does to the loads -/

/-- Loads keep their operands and their suppression, registers their owners. -/
structure Updates (l l' : CommitLane) : Prop where
  mode : l'.mode = l.mode
  owners : l'.owners = l.owners
  before : ∀ id p', l'.pending.get? id = some p' → ∃ p, l.pending.get? id = some p ∧ p'.operands = p.operands ∧
    p'.suppressed = p.suppressed ∧ (p.writebackTick = none → p'.writebackTick = none) ∧
    ((∀ d, p.data = some d → d.operands = p.operands) → ∀ d, p'.data = some d → d.operands = p'.operands)
  after : ∀ id p, l.pending.get? id = some p → ∃ p', l'.pending.get? id = some p' ∧ p'.operands = p.operands

/-- Nothing about the loads changes. -/
theorem Updates.same {l l' : CommitLane} (hm : l'.mode = l.mode) (ho : l'.owners = l.owners)
    (hp : l'.pending = l.pending) : Updates l l' := by
  refine ⟨hm, ho, ?_, ?_⟩
  · intro id p h
    exact ⟨p, hp ▸ h, rfl, rfl, fun hw => hw, fun hd => hd⟩
  · intro id p h
    exact ⟨p, hp.symm ▸ h, rfl⟩

/-- One load changes, keeping its operands and its suppression. -/
theorem Updates.insert {l l' : CommitLane} {id : Nat} {p p' : PendingLoad} (hm : l'.mode = l.mode)
    (ho : l'.owners = l.owners) (hp : l'.pending = l.pending.insert id p') (hid : l.pending.get? id = some p)
    (hops : p'.operands = p.operands) (hs : p'.suppressed = p.suppressed)
    (hw : p.writebackTick = none → p'.writebackTick = none)
    (hd : (∀ d, p.data = some d → d.operands = p.operands) → ∀ d, p'.data = some d → d.operands = p'.operands) :
    Updates l l' := by
  refine ⟨hm, ho, ?_, ?_⟩
  · intro j q hq
    rw [hp, OrdMap.get?_insert] at hq
    split at hq
    · rename_i hj
      obtain rfl := Option.some.inj hq
      exact ⟨p, hj ▸ hid, hops, hs, hw, hd⟩
    · exact ⟨q, hq, rfl, rfl, fun h => h, fun h => h⟩
  · intro j q hq
    by_cases hj : j = id
    · rw [hj, hid] at hq
      obtain rfl := Option.some.inj hq
      exact ⟨p', by rw [hp, hj, OrdMap.get?_insert_self], hops⟩
    · exact ⟨q, by rw [hp, OrdMap.get?_insert_ne hj, hq], rfl⟩

theorem Updates.trans {l l' l'' : CommitLane} (h : Updates l l') (h' : Updates l' l'') : Updates l l'' := by
  refine ⟨h'.mode.trans h.mode, h'.owners.trans h.owners, ?_, ?_⟩
  · intro id p'' hp''
    obtain ⟨p', hp', hops', hs', hw', hd'⟩ := h'.before id p'' hp''
    obtain ⟨p, hp, hops, hs, hw, hd⟩ := h.before id p' hp'
    exact ⟨p, hp, hops'.trans hops, hs'.trans hs, fun hn => hw' (hw hn), fun hn => hd' (hd hn)⟩
  · intro id p hp
    obtain ⟨p', hp', hops⟩ := h.after id p hp
    obtain ⟨p'', hp'', hops'⟩ := h'.after id p' hp'
    exact ⟨p'', hp'', hops'.trans hops⟩

/-- The owners of `registers` are suppressed, and those registers released. -/
structure Supersedes (registers : List Nat) (l l' : CommitLane) : Prop where
  mode : l'.mode = l.mode
  owners : ∀ r, l'.owners.get? r = if r ∈ registers then none else l.owners.get? r
  before : ∀ id p', l'.pending.get? id = some p' → ∃ p, l.pending.get? id = some p ∧
    p' = { p with suppressed := p'.suppressed } ∧ (p.suppressed = true → p'.suppressed = true) ∧
    ∀ r ∈ registers, l.owners.get? r = some id → p'.suppressed = true
  after : ∀ id p, l.pending.get? id = some p → ∃ p', l'.pending.get? id = some p' ∧ p'.operands = p.operands

theorem Supersedes.nil (l : CommitLane) : Supersedes [] l l := by
  refine ⟨rfl, by simp, ?_, ?_⟩
  · intro id p h
    exact ⟨p, h, rfl, fun hs => hs, by simp⟩
  · intro id p h
    exact ⟨p, h, rfl⟩

theorem supersede_spec (register : Nat) (l : CommitLane) : Supersedes [register] l (l.supersede register) := by
  unfold supersede
  split
  · rename_i hnone
    refine ⟨rfl, ?_, ?_, fun id p h => ⟨p, h, rfl⟩⟩
    · intro r
      by_cases hr : r = register <;> simp [hr, hnone]
    · rintro id p h
      refine ⟨p, h, rfl, fun hs => hs, ?_⟩
      simp [hnone]
  · rename_i instruction howner
    have howners : ∀ r, (l.owners.erase register).get? r = if r ∈ [register] then none else l.owners.get? r := by
      intro r
      simp [OrdMap.get?_erase]
    dsimp only
    split
    · rename_i hnone
      refine ⟨rfl, howners, ?_, fun id p h => ⟨p, h, rfl⟩⟩
      intro id p h
      refine ⟨p, h, rfl, fun hs => hs, ?_⟩
      rintro r hr ho
      obtain rfl := List.mem_singleton.mp hr
      obtain rfl := Option.some.inj (howner.symm.trans ho)
      exact absurd h (by simp [hnone])
    · rename_i pending hpending
      refine ⟨rfl, howners, ?_, ?_⟩
      · intro id p' h
        rw [OrdMap.get?_insert] at h
        split at h
        · rename_i hid
          obtain rfl := Option.some.inj h
          exact ⟨pending, hid ▸ hpending, rfl, fun _ => rfl, fun _ _ _ => rfl⟩
        · rename_i hid
          refine ⟨p', h, rfl, fun hs => hs, ?_⟩
          rintro r hr ho
          obtain rfl := List.mem_singleton.mp hr
          exact absurd (Option.some.inj (ho.symm.trans howner)) hid
      · intro id p h
        by_cases hid : id = instruction
        · rw [hid, hpending] at h
          obtain rfl := Option.some.inj h
          exact ⟨{ pending with suppressed := true }, by rw [hid, OrdMap.get?_insert_self], rfl⟩
        · exact ⟨p, by rw [OrdMap.get?_insert_ne hid, h], rfl⟩

theorem Supersedes.cons {r : Nat} {rs : List Nat} {l l' l'' : CommitLane} (h : Supersedes [r] l l')
    (h' : Supersedes rs l' l'') : Supersedes (r :: rs) l l'' := by
  refine ⟨h'.mode.trans h.mode, ?_, ?_, ?_⟩
  · intro r'
    rw [h'.owners, h.owners]
    by_cases hr : r' = r <;> by_cases hrs : r' ∈ rs <;> simp [hr, hrs]
  · intro id p'' hp''
    obtain ⟨p', hp', hsame', hkeep', hrs⟩ := h'.before id p'' hp''
    obtain ⟨p, hp, hsame, hkeep, hr⟩ := h.before id p' hp'
    refine ⟨p, hp, ?_, fun hs => hkeep' (hkeep hs), ?_⟩
    · rw [hsame', hsame]
    · intro r' hmem ho
      by_cases he : r' = r
      · exact hkeep' (hr r' (by simp [he]) ho)
      · have hmem : r' ∈ rs := (List.mem_cons.mp hmem).resolve_left he
        exact hrs r' hmem (by rw [h.owners, if_neg (by simpa using he), ho])
  · intro id p hp
    obtain ⟨p', hp', ho'⟩ := h.after id p hp
    obtain ⟨p'', hp'', ho''⟩ := h'.after id p' hp'
    exact ⟨p'', hp'', ho''.trans ho'⟩

theorem supersede_all (registers : List Nat) (l : CommitLane) :
    Supersedes registers l (registers.foldl (fun l register => l.supersede register) l) := by
  induction registers generalizing l with
  | nil => exact .nil l
  | cons r rs ih => exact (supersede_spec r l).cons (ih _)

/-! ## What keeps the invariant -/

variable {t : List Label} {l l' : CommitLane} {m m' : ScalarMachine} {x : Label}

theorem Inv.updates (h : Inv t (l, m)) (hu : Updates l l') (hi : ∀ id, ¬Issues id x) (hw : ∀ r, ¬Writes r x) :
    Inv (t ++ [x]) (l', m') where
  mode := hu.mode.trans h.mode
  issued := by
    intro id p' hp'
    obtain ⟨p, hp, hops, hs, -, -⟩ := hu.before id p' hp'
    obtain ⟨later, hissue, hnew, hfree, howned⟩ := h.issued id p hp
    rw [hops, hs]
    refine ⟨later ++ [x], hissue.snoc x, forall_mem_snoc hnew (hi id), ?_, ?_⟩
    · intro hf
      exact forall_mem_snoc (hfree hf) fun r _ => hw r
    · intro r ho hr
      exact forall_mem_snoc (howned r (hu.owners ▸ ho) hr) (hw r)
  owns := by
    intro id p' hp' hf r hr
    obtain ⟨p, hp, hops, hs, -, -⟩ := hu.before id p' hp'
    rw [hu.owners]
    exact h.owns id p hp (hs ▸ hf) r (hops ▸ hr)
  unwritten := by
    intro id p' hp'
    obtain ⟨p, hp, -, -, hwb, -⟩ := hu.before id p' hp'
    exact hwb (h.unwritten id p hp)
  data := by
    intro id p' d hp'
    obtain ⟨p, hp, -, -, -, hd⟩ := hu.before id p' hp'
    exact hd (fun d => h.data id p d hp) d
  owned := by
    intro r id ho
    rw [hu.owners] at ho
    rcases h.owned r id ho with ⟨p, hp, hr⟩ | hk
    · obtain ⟨p', hp', hops⟩ := hu.after id p hp
      exact .inl ⟨p', hp', hops ▸ hr⟩
    · exact .inr (hk.snoc (hw r))

theorem Inv.supersedes (h : Inv t (l, m)) {registers : List Nat} (hs : Supersedes registers l l')
    (hi : ∀ id p, l.pending.get? id = some p → ¬Issues id x) (hw : ∀ r, Writes r x → r ∈ registers) :
    Inv (t ++ [x]) (l', m') where
  mode := hs.mode.trans h.mode
  issued := by
    intro id p' hp'
    obtain ⟨p, hp, hsame, hkeep, hall⟩ := hs.before id p' hp'
    obtain ⟨later, hissue, hnew, hfree, howned⟩ := h.issued id p hp
    have hops : p'.operands = p.operands := by rw [hsame]
    rw [hops]
    refine ⟨later ++ [x], hissue.snoc x, forall_mem_snoc hnew (hi id p hp), ?_, ?_⟩
    · intro hf
      -- a load that stays unsuppressed owns its registers, so none of them was superseded
      have hp0 : p.suppressed = false := by
        cases hps : p.suppressed with
        | false => rfl
        | true => exact absurd (hkeep hps) (by simp [hf])
      refine forall_mem_snoc (hfree hp0) fun r hr hwr => ?_
      have := hall r (hw r hwr) (h.owns id p hp hp0 r hr)
      simp [hf] at this
    · intro r ho hr
      rw [hs.owners] at ho
      split at ho
      · cases ho
      · rename_i hnot
        exact forall_mem_snoc (howned r ho hr) fun hwr => hnot (hw r hwr)
  owns := by
    intro id p' hp' hf r hr
    obtain ⟨p, hp, hsame, hkeep, hall⟩ := hs.before id p' hp'
    have hops : p'.operands = p.operands := by rw [hsame]
    have hp0 : p.suppressed = false := by
      cases hps : p.suppressed with
      | false => rfl
      | true => exact absurd (hkeep hps) (by simp [hf])
    have ho := h.owns id p hp hp0 r (hops ▸ hr)
    rw [hs.owners, if_neg, ho]
    intro hmem
    have := hall r hmem ho
    simp [hf] at this
  unwritten := by
    intro id p' hp'
    obtain ⟨p, hp, hsame, -, -⟩ := hs.before id p' hp'
    rw [hsame]
    exact h.unwritten id p hp
  data := by
    intro id p' d hp' hd
    obtain ⟨p, hp, hsame, -, -⟩ := hs.before id p' hp'
    rw [hsame] at hd ⊢
    exact h.data id p d hp hd
  owned := by
    intro r id ho
    rw [hs.owners] at ho
    split at ho
    · cases ho
    · rename_i hnot
      rcases h.owned r id ho with ⟨p, hp, hr⟩ | hk
      · obtain ⟨p', hp', hops⟩ := hs.after id p hp
        exact .inl ⟨p', hp', hops ▸ hr⟩
      · exact .inr (hk.snoc fun hwr => hnot (hw r hwr))

/-- The new load of an issue, in a state where its registers have been superseded. -/
theorem Inv.insert {id : Nat} {p : PendingLoad} (h : Inv t (l, m)) (hm : l'.mode = l.mode)
    (hp : l'.pending = l.pending.insert id p)
    (ho : ∀ r, l'.owners.get? r = if r ∈ p.operands.destinations then some id else l.owners.get? r)
    (hnone : l.pending.get? id = none) (hfree : ∀ r ∈ p.operands.destinations, l.owners.get? r = none)
    (hissue : IssuedThen t id p.operands []) (hwb : p.writebackTick = none) (hd : p.data = none) :
    Inv t (l', m') where
  mode := hm.trans h.mode
  issued := by
    intro j q hq
    rw [hp, OrdMap.get?_insert] at hq
    split at hq
    · rename_i hj
      obtain rfl := Option.some.inj hq
      exact ⟨[], hj ▸ hissue, by simp, by simp, by simp⟩
    · rename_i hj
      obtain ⟨later, hi, hnew, hf, howned⟩ := h.issued j q hq
      refine ⟨later, hi, hnew, hf, fun r hor hr => ?_⟩
      rw [ho] at hor
      split at hor
      · exact absurd (Option.some.inj hor).symm hj
      · exact howned r hor hr
  owns := by
    intro j q hq hf r hr
    rw [hp, OrdMap.get?_insert] at hq
    rw [ho]
    split at hq
    · rename_i hj
      obtain rfl := Option.some.inj hq
      rw [if_pos hr, hj]
    · have howner := h.owns j q hq hf r hr
      rw [if_neg, howner]
      intro hmem
      rw [hfree r hmem] at howner
      cases howner
  unwritten := by
    intro j q hq
    rw [hp, OrdMap.get?_insert] at hq
    split at hq
    · obtain rfl := Option.some.inj hq
      exact hwb
    · exact h.unwritten j q hq
  data := by
    intro j q d hq hqd
    rw [hp, OrdMap.get?_insert] at hq
    split at hq
    · obtain rfl := Option.some.inj hq
      rw [hd] at hqd
      cases hqd
    · exact h.data j q d hq hqd
  owned := by
    intro r j hor
    rw [ho] at hor
    split at hor
    · rename_i hr
      obtain rfl := Option.some.inj hor
      exact .inl ⟨p, by rw [hp, OrdMap.get?_insert_self], hr⟩
    · rcases h.owned r j hor with ⟨q, hq, hr⟩ | hk
      · have hj : j ≠ id := by
          rintro rfl
          rw [hnone] at hq
          cases hq
        exact .inl ⟨q, by rw [hp, OrdMap.get?_insert_ne hj, hq], hr⟩
      · exact .inr hk

/-- A load leaves: it releases its registers when it writes them, and keeps them when it is suppressed. -/
theorem Inv.retire {id : Nat} {p : PendingLoad} (h : Inv t (l, m)) (hm : l'.mode = l.mode)
    (hp : l'.pending = l.pending.erase id) (hid : l.pending.get? id = some p)
    (ho : ∀ r, l'.owners.get? r =
      if p.suppressed = false ∧ r ∈ p.operands.destinations then none else l.owners.get? r)
    (hi : ∀ id, ¬Issues id x) (hw : ∀ r, ¬Writes r x) (hx : p.suppressed = true → RetiresSuppressed id x) :
    Inv (t ++ [x]) (l', m') where
  mode := hm.trans h.mode
  issued := by
    intro j q hq
    rw [hp, OrdMap.get?_erase] at hq
    split at hq
    · cases hq
    · obtain ⟨later, hissue, hnew, hf, howned⟩ := h.issued j q hq
      refine ⟨later ++ [x], hissue.snoc x, forall_mem_snoc hnew (hi j), fun hs => ?_, fun r hor hr => ?_⟩
      · exact forall_mem_snoc (hf hs) fun r _ => hw r
      · rw [ho] at hor
        split at hor
        · cases hor
        · exact forall_mem_snoc (howned r hor hr) (hw r)
  owns := by
    intro j q hq hf r hr
    rw [hp, OrdMap.get?_erase] at hq
    split at hq
    · cases hq
    · rename_i hj
      have howner := h.owns j q hq hf r hr
      rw [ho, if_neg, howner]
      rintro ⟨hs, hmem⟩
      exact hj (Option.some.inj (howner.symm.trans (h.owns id p hid hs r hmem)))
  unwritten := by
    intro j q hq
    rw [hp, OrdMap.get?_erase] at hq
    split at hq
    · cases hq
    · exact h.unwritten j q hq
  data := by
    intro j q d hq
    rw [hp, OrdMap.get?_erase] at hq
    split at hq
    · cases hq
    · exact h.data j q d hq
  owned := by
    intro r j hor
    rw [ho] at hor
    split at hor
    · cases hor
    · rename_i hkeep
      rcases h.owned r j hor with ⟨q, hq, hr⟩ | hk
      · by_cases hj : j = id
        · subst hj
          obtain rfl := Option.some.inj (hq.symm.trans hid)
          have hs : q.suppressed = true := by
            cases hqs : q.suppressed with
            | true => rfl
            | false => exact absurd ⟨hqs, hr⟩ hkeep
          obtain ⟨later, hissue, -, -, howned⟩ := h.issued j q hq
          exact .inr ⟨q.operands, later ++ [x], hissue.snoc x, hr, forall_mem_snoc (howned r hor hr) (hw r), x,
            by simp, hx hs⟩
        · exact .inl ⟨q, by rw [hp, OrdMap.get?_erase_ne hj, hq], hr⟩
      · exact .inr (hk.snoc (hw r))

/-! ## The calls -/

theorem get?_insert_all (owners : OrdMap Nat Nat) (id r : Nat) (registers : List Nat) :
    (registers.foldl (fun owners register => owners.insert register id) owners).get? r =
      if r ∈ registers then some id else owners.get? r := by
  induction registers generalizing owners with
  | nil => simp
  | cons q registers ih =>
    rw [List.foldl_cons, ih, OrdMap.get?_insert]
    by_cases hq : r = q <;> by_cases hr : r ∈ registers <;> simp [hq, hr]

theorem get?_erase_all (owners : OrdMap Nat Nat) (r : Nat) (registers : List Nat) :
    (registers.foldl (fun owners register => owners.erase register) owners).get? r =
      if r ∈ registers then none else owners.get? r := by
  induction registers generalizing owners with
  | nil => simp
  | cons q registers ih =>
    rw [List.foldl_cons, ih, OrdMap.get?_erase]
    by_cases hq : r = q <;> by_cases hr : r ∈ registers <;> simp [hq, hr]

/-- An issue that is accepted supersedes the owners of its registers, and then owns them. -/
theorem issue_cases {tick id : Nat} {operands : LoadOperands} {ρ : Except CommitError Unit}
    (h : issue tick id operands (l, m) = (ρ, l', m')) :
    ((∃ e, ρ = .error e) ∧ l' = l ∧ m' = m) ∨
    (ρ = .ok () ∧ l.pending.get? id = none ∧ ∃ w p, Supersedes operands.destinations l w ∧ p.operands = operands ∧
      p.writebackTick = none ∧ p.data = none ∧ l'.mode = w.mode ∧ l'.pending = w.pending.insert id p ∧
      ∀ r, l'.owners.get? r = if r ∈ operands.destinations then some id else w.owners.get? r) := by
  unfold issue at h
  dsimp only at h
  split at h
  · cases h; exact .inl ⟨⟨_, rfl⟩, rfl, rfl⟩
  · split at h
    · cases h; exact .inl ⟨⟨_, rfl⟩, rfl, rfl⟩
    · split at h
      · cases h; exact .inl ⟨⟨_, rfl⟩, rfl, rfl⟩
      · rename_i htaken
        simp only [Bool.or_eq_true, not_or, Bool.not_eq_true] at htaken
        obtain ⟨rfl, hs⟩ := Prod.mk.inj h
        obtain ⟨rfl, -⟩ := Prod.mk.inj hs
        refine .inr ⟨rfl, OrdMap.contains_eq_false.mp htaken.1, _,
          ⟨operands, tick, none, none, (none, none), false, none, none⟩, supersede_all operands.destinations l, ?_⟩
        exact ⟨rfl, rfl, rfl, rfl, rfl, fun r => get?_insert_all ..⟩

theorem admitLoad_updates (tick id request : Nat) (second : Option Nat) (l : CommitLane) :
    Updates l (admitLoad tick id request second l).2 := by
  unfold admitLoad
  split
  · exact .same rfl rfl rfl
  · split
    · exact .same rfl rfl rfl
    · rename_i p hp
      split
      · exact .same rfl rfl rfl
      · exact .insert rfl rfl rfl hp rfl rfl (fun hw => hw) (fun hd => hd)

theorem sendToken_updates (tick request : Nat) (token : RetirementToken) (l : CommitLane) :
    Updates l (sendToken tick request token l).2 := by
  unfold sendToken
  split
  · exact .same rfl rfl rfl
  · split <;> exact .same rfl rfl rfl

theorem admitStorePair_updates (tick first second : Nat) (operands : StoreOperands) (l : CommitLane) :
    Updates l (admitStorePair tick first second operands l).2 := by
  unfold admitStorePair
  split
  · exact .same rfl rfl rfl
  · split
    · exact .same rfl rfl rfl
    · split <;> exact .same rfl rfl rfl

theorem completeStoreAt_updates (tick : Nat) (data : StoreValue) (l : CommitLane) :
    Updates l (completeStoreAt tick data l).2 := by
  unfold completeStoreAt
  split
  · exact .same rfl rfl rfl
  · dsimp only
    split
    · exact .same rfl rfl rfl
    · split
      · split <;> exact .same rfl rfl rfl
      · split <;> exact .same rfl rfl rfl

theorem retireStore_updates (tick : Nat) (data : StoreValue) (l : CommitLane) :
    Updates l (retireStore tick data l).2 := by
  unfold retireStore
  split
  · exact .same rfl rfl rfl
  · dsimp only
    split
    · exact .same rfl rfl rfl
    · split <;> exact .same rfl rfl rfl

theorem retireStore_not_load (tick : Nat) (data : StoreValue) (l : CommitLane) (ret : LoadRetirement) :
    (retireStore tick data l).1 ≠ some (.load ret) := by
  unfold retireStore
  split
  · exact nofun
  · dsimp only
    split
    · exact nofun
    · split <;> exact nofun

theorem combine_operands (p : PendingLoad) (responses : Option LoadValue × Option LoadValue) (d : LoadValue) :
    (combine p responses d).operands = d.operands := by
  unfold combine
  split <;> rfl

/-- A response is data of its own load. In retirement mode it writes no register. -/
theorem completeDataAt_updates {tick : Nat} {d : LoadValue} {ρ : Except CommitError Unit} (hmode : l.mode = .retirement)
    (h : completeDataAt tick d (l, m) = (ρ, l', m')) : Updates l l' ∧ m' = m := by
  unfold completeDataAt at h
  dsimp only at h
  split at h
  · cases h; exact ⟨.same rfl rfl rfl, rfl⟩
  · split at h
    · cases h; exact ⟨.same rfl rfl rfl, rfl⟩
    · split at h
      · cases h; exact ⟨.same rfl rfl rfl, rfl⟩
      · split at h
        · cases h; exact ⟨.same rfl rfl rfl, rfl⟩
        · rename_i id p hfound
          split at h
          · cases h; exact ⟨.same rfl rfl rfl, rfl⟩
          · split at h
            · cases h; exact ⟨.same rfl rfl rfl, rfl⟩
            · rename_i hvalid
              split at h
              · cases h; exact ⟨.same rfl rfl rfl, rfl⟩
              · have hbypass : ¬(l.mode = .dataBypass ∧ (!p.suppressed) = true) := by simp [hmode]
                simp only [if_neg hbypass] at h
                obtain ⟨-, hs⟩ := Prod.mk.inj h
                obtain ⟨rfl, rfl⟩ := Prod.mk.inj hs
                obtain ⟨i, -, hi⟩ := Option.bind_eq_some_iff.mp hfound
                obtain ⟨q, hq, hpair⟩ := Option.map_eq_some_iff.mp hi
                obtain ⟨rfl, rfl⟩ := Prod.mk.inj hpair
                refine ⟨.insert rfl rfl rfl hq rfl rfl (fun hw => hw) ?_, rfl⟩
                intro _ d' hd'
                dsimp only at hd'
                split at hd'
                · obtain rfl := Option.some.inj hd'
                  rw [combine_operands]
                  simp only [not_or, not_not] at hvalid
                  exact hvalid.1.symm
                · cases hd'

/-- A retirement: of a notification, which changes no load and no register, or of a load. -/
theorem retireNextAt_cases {tick : Nat} {ρ : Except CommitError (Option LsuRetirement)}
    (h : retireNextAt tick (l, m) = (ρ, l', m')) :
    (Updates l l' ∧ m' = m ∧ ∀ ret, ρ ≠ .ok (some (.load ret))) ∨
    ∃ id p d ret, l.pending.get? id = some p ∧ p.data = some d ∧ ρ = .ok (some (.load ret)) ∧ ret.instruction = id ∧
      ret.suppressed = p.suppressed ∧ l'.mode = l.mode ∧ l'.pending = l.pending.erase id ∧
      (l.mode = .retirement ∧ p.suppressed = false →
        ∀ r, l'.owners.get? r = if r ∈ d.operands.destinations then none else l.owners.get? r) ∧
      (¬(l.mode = .retirement ∧ p.suppressed = false) →
        l'.owners = l.owners ∧ m' = m ∧ ret.writebackTick = p.writebackTick) := by
  unfold retireNextAt at h
  dsimp only at h
  split at h
  · cases h; exact .inl ⟨.same rfl rfl rfl, rfl, fun _ => nofun⟩
  · split at h
    · cases h; exact .inl ⟨.same rfl rfl rfl, rfl, fun _ => nofun⟩
    · split at h
      · cases h; exact .inl ⟨.same rfl rfl rfl, rfl, fun _ => nofun⟩
      · cases h; exact .inl ⟨.same rfl rfl rfl, rfl, fun _ => nofun⟩
      · cases h; exact .inl ⟨.same rfl rfl rfl, rfl, fun _ => nofun⟩
      · rename_i data _
        obtain ⟨rfl, hs⟩ := Prod.mk.inj h
        obtain ⟨rfl, rfl⟩ := Prod.mk.inj hs
        refine .inl ⟨?_, rfl, fun ret hret => ?_⟩
        · have hpop : Updates l { l with retirements := l.retirements.tail, tick } := .same rfl rfl rfl
          exact hpop.trans (retireStore_updates ..)
        · exact retireStore_not_load _ _ _ ret (Except.ok.inj hret)
      · cases h; exact .inl ⟨.same rfl rfl rfl, rfl, fun _ => nofun⟩
      · rename_i id _
        split at h
        · cases h; exact .inl ⟨.same rfl rfl rfl, rfl, fun _ => nofun⟩
        · rename_i p hp
          split at h
          · cases h; exact .inl ⟨.same rfl rfl rfl, rfl, fun _ => nofun⟩
          · rename_i d hd
            unfold retireLoad at h
            split at h
            · cases h; exact .inl ⟨.same rfl rfl rfl, rfl, fun _ => nofun⟩
            · by_cases hw : l.mode = .retirement ∧ p.suppressed = false
              · have hw' : l.mode = .retirement ∧ (!p.suppressed) = true := by simpa using hw
                simp only [if_pos hw'] at h
                obtain ⟨rfl, hs⟩ := Prod.mk.inj h
                obtain ⟨rfl, rfl⟩ := Prod.mk.inj hs
                exact .inr ⟨id, p, d, _, hp, hd, rfl, rfl, rfl, rfl, rfl, fun _ r => get?_erase_all .., fun hn =>
                  absurd hw hn⟩
              · have hw' : ¬(l.mode = .retirement ∧ (!p.suppressed) = true) := by simpa using hw
                simp only [if_neg hw'] at h
                obtain ⟨rfl, hs⟩ := Prod.mk.inj h
                obtain ⟨rfl, rfl⟩ := Prod.mk.inj hs
                exact .inr ⟨id, p, d, _, hp, hd, rfl, rfl, rfl, rfl, rfl, fun h => absurd h hw, fun _ =>
                  ⟨rfl, rfl, rfl⟩⟩

/-! ## Runs -/

/-- Neither an issue nor a writer. -/
def Quiet (x : Label) : Prop := (∀ id, ¬Issues id x) ∧ ∀ r, ¬Writes r x

theorem quiet_error (c : LaneCall) (e : CommitError) : Quiet (c, .error e) := by
  constructor
  · rintro id ⟨tick, operands, ⟨⟩⟩
  · rintro r (⟨tick, id, operands, ⟨⟩, -⟩ | hx)
    cases (Prod.mk.inj hx).2

/-- The calls that give registers to another owner. -/
def changesOwners : LaneCall → Bool
  | .issue .. | .supersede _ => true
  | _ => false

theorem quiet_call {c : LaneCall} (hc : changesOwners c = false) (ρ : Except CommitError (Option LsuRetirement)) :
    Quiet (c, ρ) := by
  constructor
  · rintro id ⟨tick, operands, hx⟩
    obtain ⟨rfl, -⟩ := Prod.mk.inj hx
    cases hc
  · rintro r (⟨tick, id, operands, hx, -⟩ | hx)
    · obtain ⟨rfl, -⟩ := Prod.mk.inj hx
      cases hc
    · obtain ⟨rfl, -⟩ := Prod.mk.inj hx
      cases hc

theorem Inv.quiet (h : Inv t (l, m)) (hu : Updates l l') (hx : Quiet x) : Inv (t ++ [x]) (l', m') :=
  h.updates hu hx.1 hx.2

theorem Inv.issue {tick id : Nat} {operands : LoadOperands} {ρ : Except CommitError Unit} (h : Inv t (l, m))
    (hc : issue tick id operands (l, m) = (ρ, l', m')) :
    Inv (t ++ [(.issue tick id operands, ρ.map fun _ => none)]) (l', m') := by
  obtain ⟨⟨e, rfl⟩, rfl, rfl⟩ | ⟨rfl, hnone, w, p, hs, rfl, hwb, hd, hm, hp, ho⟩ := issue_cases hc
  · exact h.quiet (.same rfl rfl rfl) (quiet_error _ e)
  · have hw : Inv (t ++ [(.issue tick id p.operands, .ok none)]) (w, m) := by
      refine h.supersedes hs ?_ ?_
      · rintro j q hq ⟨tick', operands', hx⟩
        cases hx
        rw [hnone] at hq
        cases hq
      · rintro r (⟨tick', j, operands', hx, hr⟩ | hx)
        · cases hx
          exact hr
        · cases hx
    have hwnone : w.pending.get? id = none := by
      cases hget : w.pending.get? id with
      | none => rfl
      | some q =>
        obtain ⟨q', hq', -⟩ := hs.before id q hget
        rw [hnone] at hq'
        cases hq'
    refine hw.insert hm hp ho hwnone (fun r hr => ?_) (.last t tick id p.operands) hwb hd
    rw [hs.owners, if_pos hr]

theorem Inv.retireNextAt {tick : Nat} {ρ : Except CommitError (Option LsuRetirement)} (h : Inv t (l, m))
    (hc : retireNextAt tick (l, m) = (ρ, l', m')) : Inv (t ++ [(.retireNextAt tick, ρ)]) (l', m') := by
  have hx : Quiet (.retireNextAt tick, ρ) := quiet_call rfl ρ
  obtain ⟨hu, -, -⟩ | ⟨id, p, d, ret, hp, hd, rfl, hid, hsup, hm, hpend, hwrites, hkeeps⟩ := retireNextAt_cases hc
  · exact h.quiet hu hx
  · refine h.retire hm hpend hp (fun r => ?_) hx.1 hx.2 fun hs => ⟨tick, ret, rfl, hid, hsup.trans hs⟩
    rw [← h.data id p d hp hd]
    cases hs : p.suppressed with
    | true => simp [(hkeeps (by simp [hs])).1]
    | false => simp [hwrites ⟨h.mode, hs⟩ r]

/-- What one call keeps. -/
theorem Inv.step {s u : CommitLane × ScalarMachine} (h : Inv t s) (hc : calls exec s x u) : Inv (t ++ [x]) u := by
  obtain ⟨l, m⟩ := s
  obtain ⟨l', m'⟩ := u
  obtain ⟨c, ρ⟩ := x
  have hlane : ∀ {f : CommitLane → Except CommitError Unit × CommitLane}, Updates l (f l).2 →
      onLane f (l, m) = (ρ, l', m') → Quiet (c, ρ) → Inv (t ++ [(c, ρ)]) (l', m') := by
    intro f hu hf hx
    obtain ⟨-, hs⟩ := Prod.mk.inj hf
    obtain ⟨rfl, rfl⟩ := Prod.mk.inj hs
    exact h.quiet hu hx
  cases c with
  | issue tick id operands =>
    obtain ⟨rfl, hs⟩ := Prod.mk.inj hc
    exact h.issue (Prod.ext rfl hs)
  | supersede register =>
    cases hc
    refine h.supersedes (supersede_spec register l) ?_ ?_
    · rintro id p - ⟨tick, operands, ⟨⟩⟩
    · rintro r (⟨tick, id, operands, ⟨⟩, -⟩ | hx)
      cases hx
      exact List.mem_singleton.mpr rfl
  | completeDataAt tick data =>
    obtain ⟨-, hs⟩ := Prod.mk.inj hc
    have hd : completeDataAt tick data (l, m) = (_, l', m') := Prod.ext rfl hs
    exact h.quiet (completeDataAt_updates h.mode hd).1 (quiet_call rfl ρ)
  | retireNextAt tick => exact h.retireNextAt hc
  | writeMachine machine =>
    cases hc
    exact h.quiet (.same rfl rfl rfl) (quiet_call rfl _)
  | admitLoad tick id request second =>
    exact hlane (admitLoad_updates ..) hc (quiet_call rfl ρ)
  | admitStorePair tick first second operands =>
    exact hlane (admitStorePair_updates ..) hc (quiet_call rfl ρ)
  | completeStoreAt tick data =>
    exact hlane (completeStoreAt_updates ..) hc (quiet_call rfl ρ)
  | completeDirectStoreAt tick request write =>
    exact hlane (sendToken_updates ..) hc (quiet_call rfl ρ)
  | completePreloadAt tick request =>
    exact hlane (sendToken_updates ..) hc (quiet_call rfl ρ)
  | completeAtomicAt tick request =>
    exact hlane (sendToken_updates ..) hc (quiet_call rfl ρ)
  | completeMaintenanceAt tick request =>
    exact hlane (sendToken_updates ..) hc (quiet_call rfl ρ)

theorem Inv.run {machine : ScalarMachine} {u : CommitLane × ScalarMachine}
    (h : Run (calls exec) (CommitLane.new .retirement, machine) t u) : Inv t u :=
  h.inv (.new machine) fun _ _ _ _ hi hc => hi.step hc

/-- A retirement that writes a register, or reports a write, is of a load that nothing has superseded. -/
theorem Inv.writer {tick : Nat} {ρ : Except CommitError (Option LsuRetirement)} (h : Inv t (l, m))
    (hc : CommitLane.retireNextAt tick (l, m) = (ρ, l', m')) :
    (m' ≠ m → ∃ ret, ρ = .ok (some (.load ret))) ∧
    ∀ ret, ρ = .ok (some (.load ret)) → m' ≠ m ∨ ret.writebackTick ≠ none →
      ∃ operands later, IssuedThen t ret.instruction operands later ∧ (∀ x ∈ later, ¬Issues ret.instruction x) ∧
        ∀ x ∈ later, ∀ r ∈ operands.destinations, ¬Writes r x := by
  obtain ⟨-, hsame, hnot⟩ | ⟨id, p, d, ret, hp, -, rfl, rfl, -, -, -, -, hkeeps⟩ := retireNextAt_cases hc
  · exact ⟨fun hm => absurd hsame hm, fun ret hret => absurd hret (hnot ret)⟩
  · refine ⟨fun _ => ⟨ret, rfl⟩, ?_⟩
    rintro _ ⟨⟩ hwrote
    have hs : p.suppressed = false := by
      cases hs : p.suppressed with
      | false => rfl
      | true =>
        obtain ⟨-, hm, hwb⟩ := hkeeps (by simp [hs])
        rcases hwrote with hne | hne
        · exact absurd hm hne
        · exact absurd (hwb.trans (h.unwritten _ p hp)) hne
    obtain ⟨later, hissue, hnew, hfree, -⟩ := h.issued _ p hp
    exact ⟨p.operands, later, hissue, hnew, hfree hs⟩

/-- Retirement writes only for loads that nothing has superseded; a register waits for a load that is pending, or for
one that retired suppressed. -/
theorem retirement_writes_unsuperseded {machine : ScalarMachine} {t : List Label} {u : CommitLane × ScalarMachine}
    (h : Run (calls exec) (CommitLane.new .retirement, machine) t u) :
    (∀ tick ρ v, exec (.retireNextAt tick) u = (ρ, v) →
      (v.2 ≠ u.2 → ∃ ret, ρ = .ok (some (.load ret))) ∧
      ∀ ret, ρ = .ok (some (.load ret)) → v.2 ≠ u.2 ∨ ret.writebackTick ≠ none →
        ∃ operands later, IssuedThen t ret.instruction operands later ∧ (∀ x ∈ later, ¬Issues ret.instruction x) ∧
          ∀ x ∈ later, ∀ r ∈ operands.destinations, ¬Writes r x) ∧
    (∀ r id, u.1.pendingDestination r = some id → u.1.pending.contains id = true ∨ Kept t r id) ∧
    (u.1.pendingCount = 0 → ∀ r id, u.1.pendingDestination r = some id → Kept t r id) := by
  have hi := Inv.run h
  refine ⟨fun tick ρ v hv => hi.writer hv, ?_, ?_⟩
  · intro r id ho
    rcases hi.owned r id ho with ⟨p, hp, -⟩ | hk
    · exact .inl (OrdMap.contains_eq_true.mpr ⟨p, hp⟩)
    · exact .inr hk
  · intro hcount r id ho
    rcases hi.owned r id ho with ⟨p, hp, -⟩ | hk
    · have hempty : u.1.pending.entries = [] := by
        unfold pendingCount at hcount
        exact List.length_eq_zero_iff.mp (by omega)
      rw [OrdMap.get?, hempty] at hp
      cases hp
    · exact hk

/-! ### A pair superseded through its first register -/

def registers : ScalarMachine := ⟨.dav2201, fun _ => 0, 0⟩

/-- A load of registers 7 and 8. -/
def pairLoad : LoadOperands where
  pc := 0
  word := 0
  destinationRegister := 7
  priorDestinationValue := 0
  secondDestination := some (8, 0)
  baseRegister := 1
  baseValue := 0x100
  offsetOperand := none
  effectiveAddress := 0x100
  updatedBase := none
  widthBytes := 8

def pairData : LoadValue := ⟨100, 1, pairLoad, ⟨0x100, .external, false⟩, 5, some 6, .cache, .both⟩

def pairCalls : List LaneCall :=
  [.issue 0 1 pairLoad, .admitLoad 0 1 100 none, .completeDataAt 1 pairData, .supersede 7, .retireNextAt 2]

/-- The pair retires suppressed, and register 8 waits for it with nothing pending. -/
theorem superseded_pair_keeps_register :
    Run (calls exec) (new .retirement, registers) (runCalls exec (new .retirement, registers) pairCalls).1
        (runCalls exec (new .retirement, registers) pairCalls).2 ∧
      (runCalls exec (new .retirement, registers) pairCalls).2.1.pendingCount = 0 ∧
      (runCalls exec (new .retirement, registers) pairCalls).2.1.pending.contains 1 = false ∧
      (runCalls exec (new .retirement, registers) pairCalls).2.1.pendingDestination 8 = some 1 :=
  ⟨run_runCalls .., by decide +kernel, by decide +kernel, by decide +kernel⟩

theorem retirement_writes_unsuperseded_pair :
    Kept (runCalls exec (new .retirement, registers) pairCalls).1 8 1 :=
  (retirement_writes_unsuperseded (run_runCalls exec (new .retirement, registers) pairCalls)).2.2
    (by decide +kernel) 8 1 (by decide +kernel)

end AscendEmulator.C220.Lsu.CommitLane
