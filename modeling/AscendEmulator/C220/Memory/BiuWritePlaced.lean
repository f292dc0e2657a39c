/-
  AscendEmulator.C220.Memory.BiuWritePlaced — where a transaction of the write route is (see
  `AscendEmulator.C220.Memory.BiuWrite`).

  A transaction is in the one queue that its phase names (`Placed`), and a response past the return
  channels is in its owner's queue (`Owned`). Every call is a run of `Effect`s: a move of one
  transaction to its next phase (`after`), a completion forwarded, or nothing that counts. The moves
  are what the call shows to its caller (`observed`).
-/

import AscendEmulator.C220.Memory.BiuWrite

namespace AscendEmulator.C220.Memory.BiuBusWrites

open Lib BiuWrite

variable {s s' : BiuBusWrites} {tag : MemoryWriteId}

/-! ## Counting -/

def commandsOf (tag : MemoryWriteId) (l : List MemoryWriteCommand) : Nat := l.countP fun c => decide (c.tag = tag)

def transfersOf (tag : MemoryWriteId) (l : List MemoryWriteTransfer) : Nat := l.countP fun c => decide (c.tag = tag)

@[simp] theorem commandsOf_append (l r : List MemoryWriteCommand) :
    commandsOf tag (l ++ r) = commandsOf tag l + commandsOf tag r := List.countP_append

@[simp] theorem commandsOf_nil : commandsOf tag [] = 0 := rfl

@[simp] theorem commandsOf_cons (c : MemoryWriteCommand) (l : List MemoryWriteCommand) :
    commandsOf tag (c :: l) = commandsOf tag l + if c.tag = tag then 1 else 0 := by
  simp [commandsOf, List.countP_cons]

@[simp] theorem transfersOf_append (l r : List MemoryWriteTransfer) :
    transfersOf tag (l ++ r) = transfersOf tag l + transfersOf tag r := List.countP_append

@[simp] theorem transfersOf_nil : transfersOf tag [] = 0 := rfl

@[simp] theorem transfersOf_cons (c : MemoryWriteTransfer) (l : List MemoryWriteTransfer) :
    transfersOf tag (c :: l) = transfersOf tag l + if c.tag = tag then 1 else 0 := by
  simp [transfersOf, List.countP_cons]

/-- The responses of one kind on their way to the owner of `tag`. -/
def responses (s : BiuBusWrites) (index : Fin 2) (tag : MemoryWriteId) : Nat :=
  transfersOf tag (s.returns index) + transfersOf tag (s.upstream index) +
    total (fun port => transfersOf tag (port.returns index)) s.cachePorts

/-- 1 if the transaction is in that phase. -/
def inPhase (phase : Phase) (p : Option Phase) : Nat := if p = some phase then 1 else 0

/-- The transaction of `tag` is in the queue of its phase, and in no other. -/
structure Placed (s : BiuBusWrites) (tag : MemoryWriteId) (p : Option Phase) : Prop where
  command : commandsOf tag s.commands = inPhase .queued p
  dbid : s.responses 0 tag = inPhase .dbidQueued p
  data : transfersOf tag s.data = inPhase .dataQueued p
  completion : s.responses 1 tag = inPhase .completionQueued p

/-- The cache port that issued a transaction, none for MTE. -/
def owner : MemoryWriteId → Option Nat
  | .mte _ => none
  | .cache port _ => some port

/-- The responses past the return channels are with their owners. -/
def Owned (s : BiuBusWrites) : Prop :=
  (∀ i, ∀ r ∈ s.upstream i, owner r.tag = none) ∧
    ∀ i index port, s.cachePorts[index]? = some port → ∀ r ∈ port.returns i, owner r.tag = some index

structure Sound (s : BiuBusWrites) : Prop where
  placed : ∀ tag, Placed s tag (s.phases.get? tag)
  owned : Owned s

theorem sound_new (limit : Nat) : Sound (new limit) where
  placed _ := ⟨rfl, rfl, rfl, rfl⟩
  owned := by constructor <;> simp [new]

/-! ## Moves -/

/-- What happens to a transaction, and through which port where it goes to its owner. -/
inductive Move where
  | admitted
  | commandSent
  | dbidReceived
  | dbidDelivered (port : Option Nat)
  | dataQueued
  | dataSent
  | completionReceived
  | completionDelivered (port : Option Nat)
  deriving DecidableEq, Repr

/-- The phase after a move, if the move may be made in that phase. The shared data path takes the
    DBID of a cache write without delivering it. -/
def after (tag : MemoryWriteId) : Option Phase → Move → Option (Option Phase)
  | none, .admitted => some (some .queued)
  | some .queued, .commandSent => some (some .commandSent)
  | some .commandSent, .dbidReceived => some (some .dbidQueued)
  | some .dbidQueued, .dbidDelivered port => if port = owner tag then some (some .dbidDelivered) else none
  | some .dbidQueued, .dataQueued => if (owner tag).isSome then some (some .dataQueued) else none
  | some .dbidDelivered, .dataQueued => some (some .dataQueued)
  | some .dataQueued, .dataSent => some (some .dataSent)
  | some .dataSent, .completionReceived => some (some .completionQueued)
  | some .completionQueued, .completionDelivered port => if port = owner tag then some none else none
  | _, _ => none

def received : ReturnKind → Move
  | .dbid => .dbidReceived
  | .completion => .completionReceived

def deliveredTo (port : Option Nat) : ReturnKind → Move
  | .dbid => .dbidDelivered port
  | .completion => .completionDelivered port

/-- The move of a call, by what it returned. -/
def admittedBy : Except BiuBusWriteError (Option MemoryWriteId) → List (MemoryWriteId × Move)
  | .ok (some tag) => [(tag, .admitted)]
  | _ => []

def queuedBy (tag : MemoryWriteId) : Except BiuBusWriteError Unit → List (MemoryWriteId × Move)
  | .ok () => [(tag, .dataQueued)]
  | .error _ => []

def sentBy : Option MemoryWriteTransfer → List (MemoryWriteId × Move)
  | some data => [(data.tag, .dataSent)]
  | none => []

def receivedBy (kind : ReturnKind) (tag : MemoryWriteId) : Except BiuBusWriteError Bool → List (MemoryWriteId × Move)
  | .ok true => [(tag, received kind)]
  | _ => []

def deliveredBy (kind : ReturnKind) (port : Nat) : Option MemoryWriteId → List (MemoryWriteId × Move)
  | some tag => [(tag, deliveredTo (some port) kind)]
  | none => []

/-- The moves that the caller sees a call make. -/
def observed : WriteCall → BiuBusWrites → List (MemoryWriteId × Move)
  | .addCachePort _, _ => []
  | .sendCacheCommand _ _, _ => []
  | .admitInputs tick mte, s => admittedBy (admitInputs tick mte s).1
  | .admitCommands tick caches mte, s => admittedBy (admitCommands tick caches mte s).1
  | .takeCommand tick, s =>
    match (takeCommand tick s).1 with
    | some command => [(command.tag, .commandSent)]
    | none => []
  | .pushData tick data, s => queuedBy data.tag (pushData tick data s).1
  | .takeData tick, s => sentBy (takeData tick s).1
  | .advanceCacheData tick mteReady, s =>
    ((advanceCacheData tick mteReady s).2.data.drop s.data.length).map fun data => (data.tag, .dataQueued)
  | .receive tick kind tag, s => receivedBy kind tag (receive tick kind tag s).1
  | .advance _, _ => []
  | .takeReturn tick kind, s =>
    match takeReturn tick kind s with
    | some (some tag, _) => [(.mte tag, deliveredTo none kind)]
    | _ => []
  | .takeCacheReturn tick port kind, s => deliveredBy kind port (takeCacheReturn tick port kind s).1

/-! ## Effects -/

/-- Nothing that is counted changed. -/
structure Same (s s' : BiuBusWrites) : Prop where
  commands : s'.commands = s.commands
  responses : ∀ index tag, s'.responses index tag = s.responses index tag
  data : s'.data = s.data
  phases : s'.phases = s.phases
  returned : (s'.returns 1).length = (s.returns 1).length
  outstanding : s'.outstanding = s.outstanding
  credits : s'.credits = s.credits

/-- A completion left the return channel for its owner's queue, and its credit came back. -/
structure Forwarded (s s' : BiuBusWrites) (tag : MemoryWriteId) : Prop where
  commands : s'.commands = s.commands
  responses : ∀ index tag, s'.responses index tag = s.responses index tag
  data : s'.data = s.data
  phases : s'.phases = s.phases
  returned : (s'.returns 1).length + 1 = (s.returns 1).length
  outstanding : s'.outstanding = wrappingPred u32 s.outstanding
  credits : s'.credits = s.credits ++ [(.released, tag)]

/-- The transaction of `tag` goes from its phase to phase `b`, and from the queue of the one to
    that of the other; the send of a command takes a credit. -/
structure Moved (s s' : BiuBusWrites) (tag : MemoryWriteId) (b : Option Phase) : Prop where
  phase : ∀ t, s'.phases.get? t = if t = tag then b else s.phases.get? t
  commands : ∀ t, commandsOf t s'.commands + (if tag = t then inPhase .queued (s.phases.get? tag) else 0) =
    commandsOf t s.commands + if tag = t then inPhase .queued b else 0
  dbids : ∀ t, s'.responses 0 t + (if tag = t then inPhase .dbidQueued (s.phases.get? tag) else 0) =
    s.responses 0 t + if tag = t then inPhase .dbidQueued b else 0
  data : ∀ t, transfersOf t s'.data + (if tag = t then inPhase .dataQueued (s.phases.get? tag) else 0) =
    transfersOf t s.data + if tag = t then inPhase .dataQueued b else 0
  completions : ∀ t, s'.responses 1 t + (if tag = t then inPhase .completionQueued (s.phases.get? tag) else 0) =
    s.responses 1 t + if tag = t then inPhase .completionQueued b else 0
  returned : (s'.returns 1).length = (s.returns 1).length + inPhase .completionQueued b
  outstanding : s'.outstanding = if b = some .commandSent then wrappingSucc u32 s.outstanding else s.outstanding
  credits : s'.credits = if b = some .commandSent then s.credits ++ [(.taken, tag)] else s.credits

inductive Effect (s : BiuBusWrites) : Option (MemoryWriteId × Move) → BiuBusWrites → Prop
  | same {s' : BiuBusWrites} (h : Same s s') (ho : Owned s') : Effect s none s'
  | forwarded {s' : BiuBusWrites} {tag : MemoryWriteId} (h : Forwarded s s' tag) (ho : Owned s') : Effect s none s'
  | moved {s' : BiuBusWrites} {tag : MemoryWriteId} {move : Move} {b : Option Phase}
      (ha : after tag (s.phases.get? tag) move = some b) (h : Moved s s' tag b) (ho : Owned s') :
      Effect s (some (tag, move)) s'

theorem Effect.sound {e : Option (MemoryWriteId × Move)} (h : Sound s) (he : Effect s e s') : Sound s' := by
  cases he with
  | same hs ho =>
    refine ⟨fun t => ?_, ho⟩
    obtain ⟨h₁, h₂, h₃, h₄⟩ := h.placed t
    exact ⟨by rw [hs.commands, hs.phases, h₁], by rw [hs.responses, hs.phases, h₂], by rw [hs.data, hs.phases, h₃],
      by rw [hs.responses, hs.phases, h₄]⟩
  | forwarded hf ho =>
    refine ⟨fun t => ?_, ho⟩
    obtain ⟨h₁, h₂, h₃, h₄⟩ := h.placed t
    exact ⟨by rw [hf.commands, hf.phases, h₁], by rw [hf.responses, hf.phases, h₂], by rw [hf.data, hf.phases, h₃],
      by rw [hf.responses, hf.phases, h₄]⟩
  | @moved _ tag _ b _ hm ho =>
    refine ⟨fun t => ?_, ho⟩
    obtain ⟨p₁, p₂, p₃, p₄⟩ := h.placed t
    have hc := hm.commands t
    have h₀ := hm.dbids t
    have hd := hm.data t
    have h₁ := hm.completions t
    rw [hm.phase]
    by_cases ht : tag = t
    · subst ht
      simp only [if_true] at hc h₀ hd h₁ ⊢
      exact ⟨by omega, by omega, by omega, by omega⟩
    · simp only [ht, Ne.symm ht, if_false] at hc h₀ hd h₁ ⊢
      exact ⟨by omega, by omega, by omega, by omega⟩

/-- The state is reached by effects that make the moves of `l`. -/
def Shows (s : BiuBusWrites) (l : List (MemoryWriteId × Move)) (s' : BiuBusWrites) : Prop :=
  ∃ es, Run Effect s es s' ∧ es.reduceOption = l

theorem Shows.refl : Shows s [] s := ⟨[], .nil, rfl⟩

theorem Shows.same (h : Same s s') (ho : Owned s') : Shows s [] s' := ⟨[none], .single (.same h ho), rfl⟩

theorem Shows.moved {move : Move} {b : Option Phase} (ha : after tag (s.phases.get? tag) move = some b)
    (h : Moved s s' tag b) (ho : Owned s') : Shows s [(tag, move)] s' :=
  ⟨[some (tag, move)], .single (.moved ha h ho), rfl⟩

theorem Shows.trans {u : BiuBusWrites} {l r : List (MemoryWriteId × Move)} (h : Shows s l u) (hr : Shows u r s') :
    Shows s (l ++ r) s' := by
  obtain ⟨es, he, rfl⟩ := h
  obtain ⟨fs, hf, rfl⟩ := hr
  exact ⟨es ++ fs, he.append hf, List.reduceOption_append ..⟩

theorem Shows.sound {l : List (MemoryWriteId × Move)} (h : Sound s) (hl : Shows s l s') : Sound s' := by
  obtain ⟨es, he, -⟩ := hl
  exact he.keeps h fun _ _ _ hu he => he.sound hu

/-! ## What is in a queue -/

/-- What is in the queue of a phase is in that phase. -/
theorem Sound.phase_of_command (h : Sound s) {c : MemoryWriteCommand} {l : List MemoryWriteCommand}
    (hc : s.commands = c :: l) : s.phases.get? c.tag = some .queued := by
  have := (h.placed c.tag).command
  rw [hc, commandsOf_cons, if_pos rfl] at this
  by_contra hne
  simp [inPhase, hne] at this

theorem Sound.phase_of_data (h : Sound s) {c : MemoryWriteTransfer} {l : List MemoryWriteTransfer}
    (hc : s.data = c :: l) : s.phases.get? c.tag = some .dataQueued := by
  have := (h.placed c.tag).data
  rw [hc, transfersOf_cons, if_pos rfl] at this
  by_contra hne
  simp [inPhase, hne] at this

theorem Sound.phase_of_response (h : Sound s) (kind : ReturnKind) (hpos : 0 < s.responses kind.index tag) :
    s.phases.get? tag = some (next kind) := by
  by_contra hne
  cases kind with
  | dbid =>
    have := (h.placed tag).dbid
    rw [inPhase, if_neg (show s.phases.get? tag ≠ some .dbidQueued from hne)] at this
    exact absurd this (Nat.ne_of_gt hpos)
  | completion =>
    have := (h.placed tag).completion
    rw [inPhase, if_neg (show s.phases.get? tag ≠ some .completionQueued from hne)] at this
    exact absurd this (Nat.ne_of_gt hpos)

theorem get?_insert_phase (p : Phase) (t : MemoryWriteId) :
    (s.phases.insert tag p).get? t = if t = tag then some p else s.phases.get? t := OrdMap.get?_insert

theorem responses_setPort {index : Nat} {port : CachePort} (h : s.cachePorts[index]? = some port) (port' : CachePort)
    (i : Fin 2) (t : MemoryWriteId) :
    (s.setPort index port').responses i t + transfersOf t (port.returns i) =
      s.responses i t + transfersOf t (port'.returns i) := by
  have := total_set (fun port => transfersOf t (port.returns i)) (x := port') h
  simp only [responses, setPort]
  omega

/-- A port whose queues hold only what it owns may replace it. -/
theorem Owned.setPort {index : Nat} {port' : CachePort} (h : Owned s)
    (hp : ∀ i, ∀ r ∈ port'.returns i, owner r.tag = some index) : Owned (s.setPort index port') := by
  refine ⟨h.1, fun i j port hj r hr => ?_⟩
  rw [show (s.setPort index port').cachePorts = s.cachePorts.set index port' from rfl, List.getElem?_set] at hj
  split at hj
  · rename_i hij
    split at hj
    · obtain rfl := Option.some.inj hj
      rw [hp i r hr, hij]
    · cases hj
  · exact h.2 i j port hj r hr

/-! ## Admission -/

theorem shows_pushCommand {tick : Nat} {command : MemoryWriteCommand} (h : Sound s)
    (he : pushCommand tick command s = (.ok (), s')) : Shows s [(command.tag, .admitted)] s' := by
  unfold pushCommand at he
  split at he
  · cases he
  · rename_i hc
    have hn := OrdMap.contains_eq_false.mp (by simpa using hc)
    split at he
    · cases he
    · cases he
      refine .moved (b := some .queued) (by rw [hn]; rfl) ?_ h.owned
      refine ⟨get?_insert_phase _, fun t => ?_, fun t => ?_, fun t => ?_, fun t => ?_, rfl, rfl, rfl⟩
      · simp [inPhase, hn]
      · simp [inPhase, responses, hn]
      · simp [inPhase, hn]
      · simp [inPhase, responses, hn]

theorem pushCommand_error {tick : Nat} {command : MemoryWriteCommand} {e : BiuBusWriteError}
    (he : pushCommand tick command s = (.error e, s')) : s' = s := by
  unfold pushCommand at he
  split at he
  · cases he; rfl
  · split at he
    · cases he; rfl
    · cases he

/-- What an admission does: nothing that counts, or a command is pushed. -/
theorem admitCommands_cases (tick : Nat) (caches : List (Option MemoryWriteCommand)) (mte : Option MemoryWriteCommand)
    (s : BiuBusWrites) :
    (∃ r last, admitCommands tick caches mte s = (r, { s with lastAdmission := last }) ∧ ∀ tag, r ≠ .ok (some tag)) ∨
    ∃ command m nextCache last, s.outstanding < s.limit ∧ pushCommand tick command s = (.ok (), m) ∧
      admitCommands tick caches mte s = (.ok (some command.tag), { m with nextCache, lastAdmission := last }) := by
  unfold admitCommands
  split
  · exact .inl ⟨_, _, rfl, fun _ => by simp⟩
  · split
    · exact .inl ⟨_, _, rfl, fun _ => by simp⟩
    · split
      · exact .inl ⟨_, _, rfl, fun _ => by simp⟩
      · rename_i hc
        have hroom : s.outstanding < s.limit := by
          simp only [not_or, canReceiveCommand, Bool.not_eq_true', decide_eq_false_iff_not] at hc
          simpa using hc.2
        dsimp only
        split
        · exact .inl ⟨_, _, rfl, fun _ => by simp⟩
        · rename_i command _
          rcases hp : pushCommand tick command s with ⟨r, m⟩
          simp only [Call.bind, hp]
          cases r with
          | error e =>
            rw [pushCommand_error hp]
            exact .inl ⟨_, _, rfl, fun _ => by simp⟩
          | ok u => exact .inr ⟨command, m, _, _, hroom, hp, rfl⟩

theorem shows_admitCommands (tick : Nat) (caches : List (Option MemoryWriteCommand)) (mte : Option MemoryWriteCommand)
    (h : Sound s) : Shows s (observed (.admitCommands tick caches mte) s) (admitCommands tick caches mte s).2 := by
  dsimp only [observed]
  rcases admitCommands_cases tick caches mte s with ⟨r, last, he, hr⟩ | ⟨command, m, nextCache, last, -, hp, he⟩
  · rw [he]
    have hlast : Shows s [] { s with lastAdmission := last } := .same ⟨rfl, fun _ _ => rfl, rfl, rfl, rfl, rfl, rfl⟩ h.owned
    have hnone : admittedBy r = [] := by
      unfold admittedBy
      split
      · exact absurd rfl (hr _)
      · rfl
    dsimp only
    rw [hnone]
    exact hlast
  · rw [he]
    have hm := shows_pushCommand h hp
    have hnext : Shows m [] { m with nextCache, lastAdmission := last } :=
      .same ⟨rfl, fun _ _ => rfl, rfl, rfl, rfl, rfl, rfl⟩ (hm.sound h).owned
    exact hm.trans hnext

/-- What `admit_inputs` does more than `admit_commands`: an input is popped. -/
theorem admitInputs_cases (tick : Nat) (mte : Option MemoryWriteCommand) (s : BiuBusWrites) :
    ∃ caches, (admitInputs tick mte s).1 = (admitCommands tick caches mte s).1 ∧
      ((admitInputs tick mte s).2 = (admitCommands tick caches mte s).2 ∨ ∃ index port,
        (admitCommands tick caches mte s).2.cachePorts[index]? = some port ∧
        (admitInputs tick mte s).2 =
          (admitCommands tick caches mte s).2.setPort index { port with input := port.input.tail }) := by
  refine ⟨s.cachePorts.map fun port => port.input.head?, ?_⟩
  unfold admitInputs Call.bind
  generalize admitCommands tick (s.cachePorts.map fun port => port.input.head?) mte s = out
  rcases out with ⟨r, m⟩
  cases r with
  | error e => exact ⟨rfl, .inl rfl⟩
  | ok selected =>
    cases selected with
    | none => exact ⟨rfl, .inl rfl⟩
    | some tag =>
      cases tag with
      | mte tag => exact ⟨rfl, .inl rfl⟩
      | cache index transaction =>
        dsimp only
        split
        · exact ⟨rfl, .inl rfl⟩
        · rename_i port hport
          exact ⟨rfl, .inr ⟨index, port, hport, rfl⟩⟩

/-- Only the input of a port changed. -/
theorem same_setInput {index : Nat} {port : CachePort} (h : s.cachePorts[index]? = some port)
    (input : List MemoryWriteCommand) : Same s (s.setPort index { port with input }) :=
  ⟨rfl, fun i t => Nat.add_right_cancel (responses_setPort h { port with input } i t), rfl, rfl, rfl, rfl, rfl⟩

theorem Owned.setInput {index : Nat} {port : CachePort} (h : Owned s) (hp : s.cachePorts[index]? = some port)
    (input : List MemoryWriteCommand) : Owned (s.setPort index { port with input }) :=
  h.setPort fun i r hr => h.2 i index port hp r hr

theorem shows_admitInputs {tick : Nat} {mte : Option MemoryWriteCommand} (h : Sound s) :
    Shows s (observed (.admitInputs tick mte) s) (admitInputs tick mte s).2 := by
  obtain ⟨caches, hr, he | ⟨index, port, hport, he⟩⟩ := admitInputs_cases tick mte s
  · have hm := shows_admitCommands tick caches mte h
    dsimp only [observed] at hm ⊢
    rw [hr, he]
    exact hm
  · have hm := shows_admitCommands tick caches mte h
    have hpop := Shows.same (same_setInput hport port.input.tail) ((hm.sound h).owned.setInput hport port.input.tail)
    have hboth := hm.trans hpop
    rw [List.append_nil] at hboth
    dsimp only [observed] at hboth ⊢
    rw [hr, he]
    exact hboth

/-- What `take_command` does: nothing, or the head of the queue is sent. -/
theorem takeCommand_cases (tick : Nat) (s : BiuBusWrites) : takeCommand tick s = (none, s) ∨
    ∃ command commands, s.commands = command :: commands ∧ takeCommand tick s = (some command, { s with
      commands
      phases := s.phases.insert command.tag .commandSent
      outstanding := wrappingSucc u32 s.outstanding
      lastCommandSend := some tick
      credits := s.credits ++ [(.taken, command.tag)] }) := by
  unfold takeCommand
  split
  · exact .inl rfl
  · split
    · exact .inl rfl
    · rename_i command commands hp
      exact .inr ⟨command, commands, (popFrontIf_eq_some.mp hp).1, rfl⟩

theorem shows_takeCommand {tick : Nat} (h : Sound s) :
    Shows s (observed (.takeCommand tick) s) (takeCommand tick s).2 := by
  dsimp only [observed]
  rcases takeCommand_cases tick s with he | ⟨command, commands, hcmd, he⟩
  · rw [he]
    exact .refl
  · rw [he]
    have hq := h.phase_of_command hcmd
    refine .moved (b := some .commandSent) (by rw [hq]; rfl) ?_ h.owned
    refine ⟨get?_insert_phase _, fun t => ?_, fun t => ?_, fun t => ?_, fun t => ?_, rfl, rfl, rfl⟩
    · simp [inPhase, hq, hcmd]
    · simp [inPhase, responses, hq]
    · simp [inPhase, hq]
    · simp [inPhase, responses, hq]

theorem shows_sendCacheCommand {tick : Nat} {command : MemoryWriteCommand} (h : Sound s) :
    Shows s [] (sendCacheCommand tick command s).2 := by
  unfold sendCacheCommand
  split
  · exact .refl
  · split
    · exact .refl
    · rename_i port hport
      split
      · exact .refl
      · split
        · exact .refl
        · split
          · exact .refl
          · exact .same (same_setInput hport _) (h.owned.setInput hport _)

theorem shows_addCachePort {capacities : Fin 2 → Nat} (h : Sound s) : Shows s [] (addCachePort capacities s).2 := by
  unfold addCachePort
  split
  · exact .refl
  · split
    · refine .same ⟨rfl, fun i t => by simp [responses], rfl, rfl, rfl, rfl, rfl⟩ ⟨h.owned.1, fun i index port hport r hr => ?_⟩
      rw [List.getElem?_append] at hport
      split at hport
      · exact h.owned.2 i index port hport r hr
      · rw [List.getElem?_singleton] at hport
        split at hport
        · cases hport
          cases hr
        · cases hport
    · exact .refl

/-! ## Data -/

theorem shows_pushData {tick : Nat} {data : MemoryWriteTransfer} {r : Except BiuBusWriteError Unit} (h : Sound s)
    (he : pushData tick data s = (r, s')) : Shows s (queuedBy data.tag r) s' := by
  unfold pushData at he
  split at he
  · cases he; exact .refl
  · rename_i hp
    have hd := not_not.mp hp
    split at he
    · cases he; exact .refl
    · cases he
      refine .moved (b := some .dataQueued) (by rw [hd]; rfl) ?_ h.owned
      refine ⟨get?_insert_phase _, fun t => ?_, fun t => ?_, fun t => ?_, fun t => ?_, rfl, rfl, rfl⟩
      · simp [inPhase, hd]
      · simp [inPhase, responses, hd]
      · simp [inPhase, hd]
      · simp [inPhase, responses, hd]

theorem shows_takeData {tick : Nat} {r : Option MemoryWriteTransfer} (h : Sound s) (he : takeData tick s = (r, s')) :
    Shows s (sentBy r) s' := by
  unfold takeData at he
  split at he
  · cases he; exact .refl
  · split at he
    · cases he; exact .refl
    · rename_i data rest hq
      cases he
      have hdata := (popFrontIf_eq_some.mp hq).1
      have hd := h.phase_of_data hdata
      refine .moved (b := some .dataSent) (by rw [hd]; rfl) ?_ h.owned
      refine ⟨get?_insert_phase _, fun t => ?_, fun t => ?_, fun t => ?_, fun t => ?_, rfl, rfl, rfl⟩
      · simp [inPhase, hd]
      · simp [inPhase, responses, hd]
      · simp [inPhase, hd, hdata]
      · simp [inPhase, responses, hd]

/-- The first DBID of a port becomes queued data. -/
theorem shows_queueData (readyTick : Nat) {index : Nat} {port : CachePort} {response : MemoryWriteTransfer}
    {rest : List MemoryWriteTransfer} (h : Sound s) (hport : s.cachePorts[index]? = some port)
    (hr : port.returns 0 = response :: rest) :
    Shows s [(response.tag, .dataQueued)] { s.setPort index { port with returns := Function.update port.returns 0 rest } with
      phases := s.phases.insert response.tag .dataQueued
      data := s.data ++ [{ response with readyTick }] } := by
  have hresp := responses_setPort hport { port with returns := Function.update port.returns 0 rest }
  have hd : s.phases.get? response.tag = some .dbidQueued := by
    refine h.phase_of_response .dbid ?_
    have := hresp 0 response.tag
    simp only [hr, Function.update_self, transfersOf_cons, if_true] at this
    show 0 < s.responses 0 response.tag
    omega
  have hown := h.owned.2 0 index port hport
  have hports : ∀ i, ∀ r ∈ (Function.update port.returns 0 rest) i, owner r.tag = some index := by
    intro i r hri
    by_cases hi : i = 0
    · subst hi
      rw [Function.update_self] at hri
      exact hown r (hr ▸ List.mem_cons_of_mem _ hri)
    · rw [Function.update_of_ne hi] at hri
      exact h.owned.2 i index port hport r hri
  have hafter : after response.tag (s.phases.get? response.tag) .dataQueued = some (some .dataQueued) := by
    rw [hd, after, hown response (hr ▸ List.mem_cons_self ..)]
    rfl
  refine .moved hafter ⟨get?_insert_phase _, fun t => ?_, fun t => ?_, fun t => ?_, fun t => ?_, rfl, rfl, rfl⟩
    (h.owned.setPort hports)
  · simp [inPhase, hd, setPort]
  · have := hresp 0 t
    simp only [hr, Function.update_self, transfersOf_cons] at this
    simp only [responses, setPort, inPhase, hd, reduceCtorEq, Option.some.injEq, if_true, if_false, ite_self] at this ⊢
    omega
  · simp [inPhase, hd]
  · have := hresp 1 t
    simp only [Function.update_of_ne (show (1 : Fin 2) ≠ 0 by decide)] at this
    simp only [responses, setPort, inPhase, hd, reduceCtorEq, Option.some.injEq, if_false, ite_self] at this ⊢
    omega

/-- The moves of a scan are the data it queues. -/
theorem shows_queueCacheData (readyTick ports : Nat) : ∀ (index : Nat) {s : BiuBusWrites}, Sound s →
    ∃ queued, (queueCacheData readyTick index ports s).data = s.data ++ queued ∧
      Shows s (queued.map fun data => (data.tag, .dataQueued)) (queueCacheData readyTick index ports s) := by
  induction ports with
  | zero => exact fun _ _ _ => ⟨[], (List.append_nil _).symm, .refl⟩
  | succ ports ih =>
    intro index s h
    unfold queueCacheData
    split
    · exact ⟨[], (List.append_nil _).symm, .refl⟩
    · rename_i port hport
      split
      · exact ih (index + 1) h
      · rename_i response rest hr
        have hfirst := shows_queueData readyTick h hport hr
        obtain ⟨queued, hdata, hrest⟩ := ih (index + 1) (hfirst.sound h)
        exact ⟨{ response with readyTick } :: queued, by rw [hdata, List.append_assoc]; rfl, hfirst.trans hrest⟩

theorem shows_advanceCacheData {tick : Nat} {mteReady : Bool} (h : Sound s) :
    Shows s (observed (.advanceCacheData tick mteReady) s) (advanceCacheData tick mteReady s).2 := by
  dsimp only [observed]
  unfold advanceCacheData
  dsimp only
  split
  · rw [List.drop_length]
    exact .refl
  · split
    · rw [List.drop_length]
      exact .refl
    · rename_i readyTick _
      have hlast : Shows s [] { s with lastCacheData := some tick } :=
        .same ⟨rfl, fun _ _ => rfl, rfl, rfl, rfl, rfl, rfl⟩ h.owned
      obtain ⟨queued, hdata, hrest⟩ :=
        shows_queueCacheData readyTick s.cachePorts.length 0 (hlast.sound h)
      dsimp only at hdata ⊢
      rw [hdata, List.drop_left]
      exact hlast.trans hrest

/-! ## Returns -/

theorem shows_receive {tick : Nat} {kind : ReturnKind} {tag : MemoryWriteId} {r : Except BiuBusWriteError Bool}
    (h : Sound s) (he : receive tick kind tag s = (r, s')) : Shows s (receivedBy kind tag r) s' := by
  unfold receive at he
  split at he
  · cases he; exact .refl
  · rename_i hp
    have ha := not_not.mp hp
    split at he
    · cases he; exact .refl
    · split at he
      · cases he; exact .refl
      · cases he
        refine .moved (b := some (next kind)) (by rw [ha]; cases kind <;> rfl) ?_ h.owned
        refine ⟨get?_insert_phase _, fun t => ?_, fun t => ?_, fun t => ?_, fun t => ?_, ?_, ?_, ?_⟩
        · cases kind <;> simp [inPhase, ha, expected, next]
        · cases kind
          · simp only [inPhase, ha, expected, next, responses, ReturnKind.index, Function.update_self,
              transfersOf_append, transfersOf_cons, transfersOf_nil, reduceCtorEq, Option.some.injEq, if_true, if_false,
              ite_self]
            omega
          · simp [inPhase, ha, expected, next, responses, ReturnKind.index, Function.update]
        · cases kind <;> simp [inPhase, ha, expected, next]
        · cases kind
          · simp [inPhase, ha, expected, next, responses, ReturnKind.index, Function.update]
          · simp only [inPhase, ha, expected, next, responses, ReturnKind.index, Function.update_self,
              transfersOf_append, transfersOf_cons, transfersOf_nil, reduceCtorEq, Option.some.injEq, if_true, if_false,
              ite_self]
            omega
        · cases kind <;> simp [inPhase, next, ReturnKind.index, Function.update]
        · cases kind <;> rfl
        · cases kind <;> rfl

/-- A response left the return channel for its owner's queue. -/
theorem shows_forwarded {index : Fin 2} {m : BiuBusWrites} {response : MemoryWriteTransfer}
    {rest : List MemoryWriteTransfer} (hret : s.returns index = response :: rest) (hc : m.commands = s.commands)
    (hr : ∀ i t, m.responses i t = s.responses i t) (hd : m.data = s.data) (hp : m.phases = s.phases)
    (hl : m.returns = Function.update s.returns index (s.returns index).tail) (ho : m.outstanding = s.outstanding)
    (hg : m.credits = s.credits) (hw : Owned m) : Shows s [] (m.release index response.tag) := by
  match index with
  | 0 =>
    refine .same ⟨hc, hr, hd, hp, ?_, ho, hg⟩ hw
    show (m.returns 1).length = _
    rw [hl, Function.update_of_ne (by decide)]
  | 1 =>
    have hf : Forwarded s (m.release 1 response.tag) response.tag := by
      refine ⟨hc, hr, hd, hp, ?_, ?_, ?_⟩
      · show (m.returns 1).length + 1 = _
        rw [hl, Function.update_self, hret]
        rfl
      · show wrappingPred u32 m.outstanding = _
        rw [ho]
      · show m.credits ++ _ = _
        rw [hg]
    exact ⟨[none], .single (.forwarded hf hw), rfl⟩

theorem mem_update_append {q : Fin 2 → List MemoryWriteTransfer} {index i : Fin 2} {x r : MemoryWriteTransfer}
    (h : r ∈ Function.update q index (q index ++ [x]) i) : r ∈ q i ∨ r = x := by
  by_cases hi : i = index
  · subst hi
    rw [Function.update_self] at h
    simpa using h
  · rw [Function.update_of_ne hi] at h
    exact .inl h

theorem shows_forward {index : Fin 2} {readyTick : Nat} {response : MemoryWriteTransfer} (h : Sound s)
    (hhead : (s.returns index).head? = some response) : Shows s [] (forward index readyTick response s).2 := by
  obtain ⟨rest, hret⟩ := List.head?_eq_some_iff.mp hhead
  unfold forward
  split
  · rename_i tag htag
    split
    · refine shows_forwarded hret rfl (fun i t => ?_) rfl rfl rfl rfl rfl ⟨fun i r hr => ?_, h.owned.2⟩
      · by_cases hi : i = index
        · subst hi
          simp only [responses, popReturn, Function.update_self, hret, List.tail_cons, transfersOf_append,
            transfersOf_cons, transfersOf_nil]
          omega
        · simp [responses, popReturn, Function.update_of_ne hi]
      · rcases mem_update_append hr with hr | rfl
        · exact h.owned.1 i r hr
        · show owner response.tag = none
          rw [htag]
          rfl
    · exact .refl
  · rename_i port transaction htag
    split
    · exact .refl
    · rename_i cache hcache
      split
      · refine shows_forwarded hret rfl (fun i t => ?_) rfl rfl rfl rfl rfl
          (Owned.setPort (s := s.popReturn index) h.owned fun i r hr => ?_)
        · have := responses_setPort (s := s.popReturn index) hcache { cache with
            returns := Function.update cache.returns index (cache.returns index ++ [{ response with readyTick }]) } i t
          by_cases hi : i = index
          · subst hi
            simp only [responses, popReturn, Function.update_self, hret, List.tail_cons, transfersOf_append,
              transfersOf_cons, transfersOf_nil] at this ⊢
            omega
          · simp only [responses, popReturn, Function.update_of_ne hi] at this ⊢
            omega
        · rcases mem_update_append hr with hr | rfl
          · exact h.owned.2 i port cache hcache r hr
          · show owner response.tag = some port
            rw [htag]
            rfl
      · exact .refl

theorem shows_advanceReturn {index : Fin 2} {tick readyTick : Nat} (h : Sound s) :
    Shows s [] (advanceReturn index tick readyTick s).2 := by
  have hm : Shows s [] { s with lastReturn := Function.update s.lastReturn index (some tick) } :=
    .same ⟨rfl, fun _ _ => rfl, rfl, rfl, rfl, rfl, rfl⟩ h.owned
  unfold advanceReturn
  split
  · exact .refl
  · dsimp only
    split
    · exact hm
    · rename_i response hresp
      exact hm.trans (shows_forward (hm.sound h) (Option.filter_eq_some_iff.mp hresp).1)

theorem shows_advance {tick : Nat} (h : Sound s) : Shows s [] (advance tick s).2 := by
  unfold advance
  split
  · exact .refl
  · rename_i readyTick _
    unfold Call.bind
    have h₀ : Shows s [] (advanceReturn 0 tick readyTick s).2 := shows_advanceReturn h
    rcases hr : advanceReturn 0 tick readyTick s with ⟨r, m⟩
    rw [hr] at h₀
    cases r with
    | error e => exact h₀
    | ok u => exact h₀.trans (shows_advanceReturn (h₀.sound h))

/-! ## Delivery -/

/-- The owner took a response of the transaction of `tag`. -/
theorem shows_delivered (kind : ReturnKind) (tag : MemoryWriteId) {m : BiuBusWrites} (h : Sound s) (hc : m.commands = s.commands)
    (hr : ∀ i t, m.responses i t + (if i = kind.index ∧ tag = t then 1 else 0) = s.responses i t)
    (hd : m.data = s.data) (hp : m.phases = s.phases) (hl : m.returns = s.returns) (ho : m.outstanding = s.outstanding)
    (hg : m.credits = s.credits) (hw : Owned m) : Shows s [(tag, deliveredTo (owner tag) kind)] (m.delivered kind tag) := by
  have ha : s.phases.get? tag = some (next kind) := by
    refine h.phase_of_response _ ?_
    have := hr kind.index tag
    simp only [and_self, if_true] at this
    omega
  cases kind with
  | dbid =>
    refine .moved (b := some .dbidDelivered) (by rw [ha]; simp [next, after, deliveredTo])
      ⟨fun t => ?_, fun t => ?_, fun t => ?_, fun t => ?_, fun t => ?_, ?_, ho, hg⟩ hw
    · simp only [delivered, hp, get?_insert_phase]
    · simp [delivered, hc, inPhase, ha, next]
    · have := hr 0 t
      simp only [ReturnKind.index, true_and] at this
      simp only [inPhase, ha, next, reduceCtorEq, Option.some.injEq, if_true, if_false, ite_self, ← this]
      rfl
    · simp [delivered, hd, inPhase, ha, next]
    · have := hr 1 t
      simp only [ReturnKind.index, show ((1 : Fin 2) = 0) = False by simp, false_and, if_false] at this
      simp only [inPhase, ha, next, reduceCtorEq, Option.some.injEq, if_false, ite_self, ← this]
      rfl
    · simp [delivered, hl, inPhase]
  | completion =>
    refine .moved (b := none) (by rw [ha]; simp [next, after, deliveredTo])
      ⟨fun t => ?_, fun t => ?_, fun t => ?_, fun t => ?_, fun t => ?_, ?_, ho, hg⟩ hw
    · simp only [delivered, hp, OrdMap.get?_erase]
    · simp [delivered, hc, inPhase, ha, next]
    · have := hr 0 t
      simp only [ReturnKind.index, show ((0 : Fin 2) = 1) = False by simp, false_and, if_false] at this
      simp only [inPhase, ha, next, reduceCtorEq, Option.some.injEq, if_false, ite_self, ← this]
      rfl
    · simp [delivered, hd, inPhase, ha, next]
    · have := hr 1 t
      simp only [ReturnKind.index, true_and] at this
      simp only [inPhase, ha, next, reduceCtorEq, if_true, if_false, ite_self, ← this]
      rfl
    · simp [delivered, hl, inPhase]

/-- A queue with its head taken holds no more than before. -/
theorem mem_update_rest {q : Fin 2 → List MemoryWriteTransfer} {index i : Fin 2} {x r : MemoryWriteTransfer}
    {rest : List MemoryWriteTransfer} (hq : q index = x :: rest) (h : r ∈ Function.update q index rest i) : r ∈ q i := by
  by_cases hi : i = index
  · subst hi
    rw [Function.update_self] at h
    rw [hq]
    exact List.mem_cons_of_mem _ h
  · rwa [Function.update_of_ne hi] at h

theorem shows_takeReturn {tick : Nat} {kind : ReturnKind} {r : Option Nat} (h : Sound s)
    (he : takeReturn tick kind s = some (r, s')) : Shows s (observed (.takeReturn tick kind) s) s' := by
  dsimp only [observed]
  rw [he]
  unfold takeReturn at he
  split at he
  · cases he; exact .refl
  · rename_i response rest hq
    have hup := (popFrontIf_eq_some.mp hq).1
    split at he
    · rename_i tag htag
      cases he
      have hown : owner response.tag = none := by rw [htag]; rfl
      have htake := shows_delivered kind response.tag
        (m := { s with upstream := Function.update s.upstream kind.index rest }) h rfl (fun i t => ?_) rfl rfl rfl rfl rfl
        ⟨fun i r hr => h.owned.1 i r (mem_update_rest hup hr), h.owned.2⟩
      · rw [hown] at htake
        show Shows s [(MemoryWriteId.mte tag, deliveredTo none kind)] _
        rw [← htag]
        exact htake
      · by_cases hi : i = kind.index
        · subst hi
          simp only [responses, Function.update_self, hup, transfersOf_cons, true_and]
          omega
        · simp [responses, hi]
    · cases he

theorem shows_takeCacheReturn {tick index : Nat} {kind : ReturnKind} {r : Option MemoryWriteId} (h : Sound s)
    (he : takeCacheReturn tick index kind s = (r, s')) : Shows s (deliveredBy kind index r) s' := by
  unfold takeCacheReturn at he
  split at he
  · cases he; exact .refl
  · rename_i port hport
    split at he
    · cases he; exact .refl
    · rename_i response rest hq
      cases he
      have hret := (popFrontIf_eq_some.mp hq).1
      have hown : owner response.tag = some index := h.owned.2 _ index port hport response (hret ▸ List.mem_cons_self ..)
      have htake := shows_delivered kind response.tag
        (m := s.setPort index { port with returns := Function.update port.returns kind.index rest }) h rfl (fun i t => ?_)
        rfl rfl rfl rfl rfl (h.owned.setPort fun i r hr => h.owned.2 i index port hport r (mem_update_rest hret hr))
      · rw [hown] at htake
        exact htake
      · have := responses_setPort hport { port with returns := Function.update port.returns kind.index rest } i t
        by_cases hi : i = kind.index
        · subst hi
          simp only [Function.update_self, hret, transfersOf_cons, true_and] at this ⊢
          omega
        · simp only [Function.update_of_ne hi, hi, false_and, if_false] at this ⊢
          omega

/-- Every call makes the moves it shows, and no others. -/
theorem shows_exec {c : WriteCall} (h : Sound s) (he : exec c s = some s') : Shows s (observed c s) s' := by
  cases c with
  | addCachePort => cases he; exact shows_addCachePort h
  | sendCacheCommand => cases he; exact shows_sendCacheCommand h
  | admitInputs => cases he; exact shows_admitInputs h
  | admitCommands tick caches mte => cases he; exact shows_admitCommands tick caches mte h
  | takeCommand => cases he; exact shows_takeCommand h
  | pushData => cases he; exact shows_pushData h rfl
  | takeData => cases he; exact shows_takeData h rfl
  | advanceCacheData => cases he; exact shows_advanceCacheData h
  | receive => cases he; exact shows_receive h rfl
  | advance => cases he; exact shows_advance h
  | takeReturn =>
    obtain ⟨⟨r, m⟩, hr, rfl⟩ := Option.map_eq_some_iff.mp he
    exact shows_takeReturn h hr
  | takeCacheReturn => cases he; exact shows_takeCacheReturn h rfl

end AscendEmulator.C220.Memory.BiuBusWrites
