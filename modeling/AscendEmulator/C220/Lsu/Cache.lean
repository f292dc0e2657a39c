/-
  AscendEmulator.C220.Lsu.Cache — tags and data of the LSU cache (`C220CacheSet`, `C220DataCache`).

  A cache has as many sets, ways and bytes a line as its constructor checked, which its type says: a set index that comes
  from an address, and a way that comes from a set, are always there. Locations from outside are checked. Index bits are
  `u32` and tags are `u64`, shifted as the source shifts them.

  A refill is found by the next lookup and leaves every other way. The address of a line is rebuilt from its index and
  its tag, but the index is shifted as a `u32`: the address is right as long as the set's offset in a page of sets, its
  index times the line size, is a `u32` too (`refill_exact_iff`).
-/

import AscendEmulator.C220.Lsu.StoreBuffer

namespace AscendEmulator.C220.Lsu

open Lib

structure CacheTag where
  atomic : Bool
  valid : Bool
  dirty : Bool
  age : UInt32
  memory : LsuMemory
  tag : UInt64
  deriving DecidableEq

structure CacheWriteback where
  address : UInt64
  memory : LsuMemory
  bytes : List UInt8
  deriving DecidableEq

inductive CacheError where
  | invalidPartition
  | invalidWay
  | invalidShift
  | invalidGeometry
  | invalidLineSize
  | invalidIndex
  deriving DecidableEq, Repr

/-! ## Addresses -/

/-- The constructor refuses shifts of 64 and more. -/
structure CacheAddressLayout where
  indexShift : Fin 64
  indexMask : UInt32
  tagShift : Fin 64
  tagMask : UInt64

namespace CacheAddressLayout

def new (indexShift indexMask tagShift : UInt32) (tagMask : UInt64) : Except CacheError CacheAddressLayout :=
  if h : indexShift.toNat < 64 ∧ tagShift.toNat < 64 then
    .ok ⟨⟨indexShift.toNat, h.1⟩, indexMask, ⟨tagShift.toNat, h.2⟩, tagMask⟩
  else .error .invalidShift

def index (l : CacheAddressLayout) (address : UInt64) : UInt32 :=
  (address >>> UInt64.ofNat l.indexShift).toUInt32 &&& l.indexMask

def tag (l : CacheAddressLayout) (address : UInt64) : UInt64 := (address >>> UInt64.ofNat l.tagShift) &&& l.tagMask

/-- `index.wrapping_shl` shifts 32 bits, before they are widened. -/
def lineAddress (l : CacheAddressLayout) (index : UInt32) (tag : UInt64) : UInt64 :=
  (tag <<< UInt64.ofNat l.tagShift) ||| (index <<< UInt32.ofNat l.indexShift).toUInt64

end CacheAddressLayout

/-! ## Sets -/

structure CacheSet (ways : Nat) where
  tags : Vector CacheTag ways
  stackWays : Option (Fin (ways + 1))

namespace CacheSet

variable {ways : Nat}

def partition (s : CacheSet ways) (address : UInt64) : List (Fin ways) :=
  match s.stackWays with
  | none => List.finRange ways
  | some count =>
    if address >>> 63 ≠ 0 then (List.finRange ways).filter fun way => way.val < count.val
    else (List.finRange ways).filter fun way => count.val ≤ way.val

/-- Locate a matching tag independently of its valid bit. -/
def findWay (s : CacheSet ways) (address tag : UInt64) (memory : LsuMemory) : Option (Fin ways) :=
  (s.partition address).find? fun way => (s.tags[way]).tag = tag && (s.tags[way]).memory = memory

def promote (s : CacheSet ways) (way : Fin ways) : CacheSet ways :=
  let others := (List.finRange ways).filter fun index => index ≠ way && (s.tags[index]).valid
  let age := (others.map fun index => (s.tags[index]).age).max?.getD 0 + 1
  { s with tags := s.tags.set way { s.tags[way] with age } }

/-- A demand access: the matching valid way, which is promoted. -/
def lookup (s : CacheSet ways) (address tag : UInt64) (memory : LsuMemory) : Option (Fin ways) × CacheSet ways :=
  match (s.partition address).find? fun way =>
      (s.tags[way]).valid && (s.tags[way]).tag = tag && (s.tags[way]).memory = memory with
  | none => (none, s)
  | some way => (some way, s.promote way)

/-- The first invalid way, otherwise the first of the least age. The selection starts with way zero and age zero. -/
def victimFrom (s : CacheSet ways) : List (Fin ways) → Fin ways → UInt32 → Fin ways
  | [], selected, _ => selected
  | way :: rest, selected, minimum =>
    let entry := s.tags[way]
    if !entry.valid then way
    else if way.val = 0 ∨ entry.age < minimum then s.victimFrom rest way entry.age
    else s.victimFrom rest selected minimum

def victim (s : CacheSet ways) (address : UInt64) (h : 0 < ways) : Fin ways := s.victimFrom (s.partition address) ⟨0, h⟩ 0

/-- Preserve a dirty victim's bytes before its storage is reused. -/
def evictDirty (s : CacheSet ways) (way : Fin ways) (index : UInt32) (layout : CacheAddressLayout) (bytes : List UInt8) :
    Option CacheWriteback × CacheSet ways :=
  let entry := s.tags[way]
  if !entry.valid || !entry.dirty then (none, s)
  else
    (some ⟨layout.lineAddress index entry.tag, entry.memory, bytes⟩,
      { s with tags := s.tags.set way { entry with valid := false } })

/-- Install metadata after the caller has handled any dirty victim. -/
def install (s : CacheSet ways) (way : Fin ways) (tag : UInt64) (memory : LsuMemory) (dirty : Bool) : CacheSet ways :=
  let previous := s.tags[way]
  { s with tags := s.tags.set way ⟨false, true, dirty, previous.age + 1, memory, tag⟩ }

end CacheSet

/-! ## The cache -/

structure CacheLocation where
  index : UInt32
  way : Nat
  deriving DecidableEq

structure CacheRefill where
  location : CacheLocation
  writeback : Option CacheWriteback
  deriving DecidableEq

abbrev CacheLine (lineBytes : Nat) := { bytes : List UInt8 // bytes.length = lineBytes }

structure DataCache where
  layout : CacheAddressLayout
  lineBytes : Nat
  setCount : Nat
  ways : Nat
  sets : Vector (CacheSet ways) setCount
  data : Vector (Vector (CacheLine lineBytes) ways) setCount
  ways_pos : 0 < ways
  mask_lt : layout.indexMask.toNat < setCount

namespace DataCache

/-- Zero-filled data under the initial tags. A set has at least one way. -/
def new (layout : CacheAddressLayout) (lineBytes setCount ways : Nat) (sets : Vector (CacheSet ways) setCount)
    (ways_pos : 0 < ways) : Except CacheError DataCache :=
  if h : layout.indexMask.toNat < setCount ∧ lineBytes ≠ 0 ∧
      ∀ i j : Fin setCount, (sets[i]).stackWays = (sets[j]).stackWays then
    .ok { layout, lineBytes, setCount, ways, sets
          data := Vector.replicate setCount (Vector.replicate ways ⟨List.replicate lineBytes 0, List.length_replicate⟩)
          ways_pos
          mask_lt := h.1 }
  else .error .invalidGeometry

/-- The set of an address. -/
def setIndex (c : DataCache) (address : UInt64) : Fin c.setCount :=
  ⟨(c.layout.index address).toNat, by
    have hle : (c.layout.index address).toNat ≤ c.layout.indexMask.toNat := by
      rw [CacheAddressLayout.index, UInt32.toNat_and]
      exact Nat.and_le_right
    exact Nat.lt_of_le_of_lt hle c.mask_lt⟩

/-- A location that is in the cache. -/
def checkedLocation (c : DataCache) (location : CacheLocation) : Except CacheError (Fin c.setCount × Fin c.ways) :=
  if hi : location.index.toNat < c.setCount then
    if hw : location.way < c.ways then .ok (⟨_, hi⟩, ⟨_, hw⟩) else .error .invalidWay
  else .error .invalidIndex

def tag (c : DataCache) (location : CacheLocation) : Except CacheError CacheTag :=
  (c.checkedLocation location).map fun at' => ((c.sets[at'.1]).tags[at'.2])

def line (c : DataCache) (location : CacheLocation) : Except CacheError (List UInt8) :=
  (c.checkedLocation location).map fun at' => ((c.data[at'.1])[at'.2]).1

/-- The tag of a location goes through `f`. -/
def modifyTag (c : DataCache) (location : CacheLocation) (f : CacheTag → CacheTag) : Except CacheError DataCache :=
  (c.checkedLocation location).map fun at' =>
    let set := c.sets[at'.1]
    { c with sets := c.sets.set at'.1 { set with tags := set.tags.set at'.2 (f set.tags[at'.2]) } }

def markDirty (c : DataCache) (location : CacheLocation) : Except CacheError DataCache :=
  c.modifyTag location fun tag => { tag with dirty := true }

def resetAfterMaintenanceWrite (c : DataCache) (location : CacheLocation) : Except CacheError DataCache :=
  c.modifyTag location fun _ => ⟨false, true, false, 0, .external, 0⟩

def replacementRequiresWriteback (c : DataCache) (address partitionAddress : UInt64) : Bool :=
  let set := c.sets[c.setIndex address]
  let tag := set.tags[set.victim partitionAddress c.ways_pos]
  tag.valid && tag.dirty

def lookupPartitioned (c : DataCache) (address partitionAddress : UInt64) (memory : LsuMemory) :
    Option CacheLocation × DataCache :=
  let index := c.setIndex address
  let r := (c.sets[index]).lookup partitionAddress (c.layout.tag address) memory
  (r.1.map fun way => ⟨c.layout.index address, way.val⟩, { c with sets := c.sets.set index r.2 })

def lookup (c : DataCache) (address : UInt64) (memory : LsuMemory) : Option CacheLocation × DataCache :=
  c.lookupPartitioned address address memory

def findWay (c : DataCache) (address : UInt64) (memory : LsuMemory) : Option CacheLocation :=
  ((c.sets[c.setIndex address]).findWay address (c.layout.tag address) memory).map fun way =>
    ⟨c.layout.index address, way.val⟩

/-- `address` selects tag and index; `partition_address` tells stack traffic apart. -/
def refill (c : DataCache) (address partitionAddress : UInt64) (memory : LsuMemory) (bytes : List UInt8) (dirty : Bool) :
    Except CacheError (CacheRefill × DataCache) :=
  if h : bytes.length = c.lineBytes then
    let index := c.setIndex address
    let set := c.sets[index]
    let way := set.victim partitionAddress c.ways_pos
    let line := (c.data[index])[way]
    let evicted := set.evictDirty way (c.layout.index address) c.layout line.1
    let installed := evicted.2.install way (c.layout.tag address) memory dirty
    .ok (⟨⟨c.layout.index address, way.val⟩, evicted.1⟩,
      { c with
        sets := c.sets.set index installed
        data := c.data.set index ((c.data[index]).set way ⟨bytes, h⟩) })
  else .error .invalidLineSize

end DataCache

/-! # What a refill does -/

/-! ## Addresses -/

namespace CacheAddressLayout

variable {l : CacheAddressLayout} {k : Nat}

/-- The layout cuts an address into the byte in the line, `k` bits of index, and a tag of all the others. -/
structure Splits (l : CacheAddressLayout) (k : Nat) : Prop where
  mask : l.indexMask.toNat = 2 ^ k - 1
  shift : l.tagShift.val = l.indexShift.val + k
  tags : ∀ address : UInt64, (address >>> UInt64.ofNat l.tagShift) &&& l.tagMask = address >>> UInt64.ofNat l.tagShift

theorem Splits.k_le (h : l.Splits k) : k ≤ 32 := by
  by_contra hn
  have hlt := l.indexMask.toNat_lt
  have hpow : 2 ^ 33 ≤ 2 ^ k := Nat.pow_le_pow_right (by decide) (by omega)
  rw [h.mask] at hlt
  omega

theorem toNat_shiftRight (a : UInt64) (n : Fin 64) : (a >>> UInt64.ofNat n).toNat = a.toNat / 2 ^ n.val := by
  have hn : (UInt64.ofNat n).toNat % 64 = n.val := by
    rw [UInt64.toNat_ofNat', Nat.mod_eq_of_lt (a := n.val) (by omega), Nat.mod_eq_of_lt n.isLt]
  rw [UInt64.toNat_shiftRight, hn, Nat.shiftRight_eq_div_pow]

theorem Splits.toNat_index (h : l.Splits k) (address : UInt64) :
    (l.index address).toNat = address.toNat / 2 ^ l.indexShift.val % 2 ^ k := by
  rw [index, UInt32.toNat_and, h.mask, Nat.and_two_pow_sub_one_eq_mod, UInt64.toNat_toUInt32, toNat_shiftRight,
    Nat.mod_mod_of_dvd _ (Nat.pow_dvd_pow 2 h.k_le)]

theorem Splits.toNat_tag (h : l.Splits k) (address : UInt64) :
    (l.tag address).toNat = address.toNat / 2 ^ l.tagShift.val := by
  rw [tag, h.tags, toNat_shiftRight]

/-- An aligned address is its tag and its index. -/
theorem Splits.aligned (h : l.Splits k) {address : UInt64} (ha : 2 ^ l.indexShift.val ∣ address.toNat) :
    address.toNat =
      2 ^ l.tagShift.val * (l.tag address).toNat + (l.index address).toNat * 2 ^ l.indexShift.val := by
  obtain ⟨q, hq⟩ := ha
  have hpos : 0 < 2 ^ l.indexShift.val := Nat.two_pow_pos _
  rw [h.toNat_tag, h.toNat_index, h.shift, Nat.pow_add, ← Nat.div_div_eq_div_mul, hq, Nat.mul_div_cancel_left _ hpos,
    Nat.mul_assoc, Nat.mul_comm (q % 2 ^ k), ← Nat.mul_add, Nat.div_add_mod]

/-- What the source computes for the part of the index. -/
theorem toNat_shiftLeft_index (index : UInt32) (n : Fin 64) :
    ((index <<< UInt32.ofNat n).toUInt64).toNat = index.toNat * 2 ^ (n.val % 32) % 2 ^ 32 := by
  have hn : (UInt32.ofNat n).toNat % 32 = n.val % 32 := by
    rw [UInt32.toNat_ofNat', Nat.mod_eq_of_lt (a := n.val) (by omega)]
  rw [UInt32.toNat_toUInt64, UInt32.toNat_shiftLeft, hn, Nat.shiftLeft_eq]

theorem shifted_eq_iff (i n : Nat) : i * 2 ^ (n % 32) % 2 ^ 32 = i * 2 ^ n ↔ i * 2 ^ n < 2 ^ 32 := by
  constructor
  · intro h
    rw [← h]
    exact Nat.mod_lt _ (by decide)
  · intro h
    rcases Nat.lt_or_ge n 32 with hn | hn
    · rw [Nat.mod_eq_of_lt hn, Nat.mod_eq_of_lt h]
    · have hpow : 2 ^ 32 ≤ 2 ^ n := Nat.pow_le_pow_right (by decide) hn
      have hzero : i = 0 := by
        by_contra hi
        have : 1 * 2 ^ n ≤ i * 2 ^ n := Nat.mul_le_mul_right _ (by omega)
        omega
      subst hzero
      simp

/-- The address rebuilt from index and tag is the address they come from, just if the index part is a `u32`. -/
theorem Splits.lineAddress_eq_iff (h : l.Splits k) {address : UInt64} (ha : 2 ^ l.indexShift.val ∣ address.toNat) :
    l.lineAddress (l.index address) (l.tag address) = address ↔
      (l.index address).toNat * 2 ^ l.indexShift.val < 2 ^ 32 := by
  have hsplit := h.aligned ha
  have htag : ((l.tag address) <<< UInt64.ofNat l.tagShift).toNat = 2 ^ l.tagShift.val * (l.tag address).toNat := by
    have hn : (UInt64.ofNat l.tagShift).toNat % 64 = l.tagShift.val := by
      rw [UInt64.toNat_ofNat', Nat.mod_eq_of_lt (a := l.tagShift.val) (by omega), Nat.mod_eq_of_lt l.tagShift.isLt]
    have hlt := address.toNat_lt
    rw [UInt64.toNat_shiftLeft, hn, Nat.shiftLeft_eq, Nat.mul_comm, Nat.mod_eq_of_lt (by omega)]
  have hlow : (l.index address).toNat * 2 ^ (l.indexShift.val % 32) % 2 ^ 32 < 2 ^ l.tagShift.val := by
    have hindex : (l.index address).toNat < 2 ^ k := by
      rw [h.toNat_index]
      exact Nat.mod_lt _ (Nat.two_pow_pos _)
    have hle : 2 ^ (l.indexShift.val % 32) ≤ 2 ^ l.indexShift.val := Nat.pow_le_pow_right (by decide) (Nat.mod_le _ _)
    calc (l.index address).toNat * 2 ^ (l.indexShift.val % 32) % 2 ^ 32
        ≤ (l.index address).toNat * 2 ^ (l.indexShift.val % 32) := Nat.mod_le _ _
      _ ≤ (l.index address).toNat * 2 ^ l.indexShift.val := Nat.mul_le_mul_left _ hle
      _ < 2 ^ k * 2 ^ l.indexShift.val := Nat.mul_lt_mul_of_pos_right hindex (Nat.two_pow_pos _)
      _ = 2 ^ l.tagShift.val := by rw [h.shift, Nat.pow_add, Nat.mul_comm]
  have hline : (l.lineAddress (l.index address) (l.tag address)).toNat =
      2 ^ l.tagShift.val * (l.tag address).toNat +
        (l.index address).toNat * 2 ^ (l.indexShift.val % 32) % 2 ^ 32 := by
    rw [lineAddress, UInt64.toNat_or, htag, toNat_shiftLeft_index, Nat.two_pow_add_eq_or_of_lt hlow]
  rw [← UInt64.toNat_inj, hline, hsplit, Nat.add_left_cancel_iff, shifted_eq_iff]

end CacheAddressLayout

/-! ## Sets -/

namespace CacheSet

variable {ways : Nat} {s : CacheSet ways}

theorem partition_all (h : s.stackWays = none) (address : UInt64) : s.partition address = List.finRange ways := by
  unfold partition
  rw [h]

@[simp] theorem install_same (way : Fin ways) (tag : UInt64) (memory : LsuMemory) (dirty : Bool) :
    ((s.install way tag memory dirty).tags[way]) = ⟨false, true, dirty, (s.tags[way]).age + 1, memory, tag⟩ := by
  simp [install]

theorem install_other {way other : Fin ways} (h : other ≠ way) (tag : UInt64) (memory : LsuMemory) (dirty : Bool) :
    ((s.install way tag memory dirty).tags[other]) = s.tags[other] := by
  simp only [install, Fin.getElem_fin]
  exact Vector.getElem_set_ne _ _ fun he => h (Fin.ext he.symm)

theorem evictDirty_other {way other : Fin ways} (h : other ≠ way) (index : UInt32) (layout : CacheAddressLayout)
    (bytes : List UInt8) : ((s.evictDirty way index layout bytes).2.tags[other]) = s.tags[other] := by
  simp only [evictDirty]
  split
  · rfl
  · simp only [Fin.getElem_fin]
    exact Vector.getElem_set_ne _ _ fun he => h (Fin.ext he.symm)

@[simp] theorem evictDirty_stackWays (way : Fin ways) (index : UInt32) (layout : CacheAddressLayout) (bytes : List UInt8) :
    (s.evictDirty way index layout bytes).2.stackWays = s.stackWays := by
  simp only [evictDirty]
  split <;> rfl

theorem promote_other {way other : Fin ways} (h : other ≠ way) : ((s.promote way).tags[other]) = s.tags[other] := by
  simp only [promote, Fin.getElem_fin]
  exact Vector.getElem_set_ne _ _ fun he => h (Fin.ext he.symm)

/-- The valid ways of a line. -/
def Hit (s : CacheSet ways) (tag : UInt64) (memory : LsuMemory) (way : Fin ways) : Prop :=
  (s.tags[way]).valid = true ∧ (s.tags[way]).tag = tag ∧ (s.tags[way]).memory = memory

theorem lookup_none (h : s.stackWays = none) {address tag : UInt64} {memory : LsuMemory} :
    (s.lookup address tag memory).1 = none ↔ ∀ way, ¬ s.Hit tag memory way := by
  unfold lookup
  rw [partition_all h]
  split
  · rename_i hnone
    refine ⟨fun _ way hhit => ?_, fun _ => rfl⟩
    have hfalse := List.find?_eq_none.mp hnone way (List.mem_finRange way)
    obtain ⟨hvalid, rfl, rfl⟩ := hhit
    rw [hvalid] at hfalse
    simp at hfalse
  · rename_i way hsome
    refine ⟨fun h => absurd h (Option.some_ne_none way), fun hall => ?_⟩
    have htrue := List.find?_some hsome
    simp only [Bool.and_eq_true, decide_eq_true_eq] at htrue
    exact absurd ⟨htrue.1.1, htrue.1.2, htrue.2⟩ (hall way)

/-- A line that is in one way alone is found there. -/
theorem lookup_single (h : s.stackWays = none) {address tag : UInt64} {memory : LsuMemory} {way : Fin ways}
    (hhit : s.Hit tag memory way) (honly : ∀ other, s.Hit tag memory other → other = way) :
    s.lookup address tag memory = (some way, s.promote way) := by
  unfold lookup
  rw [partition_all h]
  split
  · rename_i hnone
    have hfalse := List.find?_eq_none.mp hnone way (List.mem_finRange way)
    obtain ⟨hvalid, rfl, rfl⟩ := hhit
    rw [hvalid] at hfalse
    simp at hfalse
  · rename_i found hsome
    have htrue := List.find?_some hsome
    simp only [Bool.and_eq_true, decide_eq_true_eq] at htrue
    rw [honly found ⟨htrue.1.1, htrue.1.2, htrue.2⟩]

end CacheSet

/-! ## Refills -/

namespace DataCache

theorem tag_set {sets ways : Nat} (all : Vector (CacheSet ways) sets) (i j : Fin sets) (w : Fin ways) (set : CacheSet ways) :
    ((all.set i set)[j]).tags[w] = if i = j then set.tags[w] else (all[j]).tags[w] := by
  simp only [Fin.getElem_fin, Vector.getElem_set, Fin.ext_iff]
  split <;> rfl

theorem line_set {sets ways lineBytes : Nat} (all : Vector (Vector (CacheLine lineBytes) ways) sets) (i j : Fin sets)
    (v w : Fin ways) (line : CacheLine lineBytes) :
    ((all.set i ((all[i]).set v line))[j])[w] = if i = j ∧ v = w then line else (all[j])[w] := by
  simp only [Fin.getElem_fin, Vector.getElem_set, Fin.ext_iff]
  by_cases hi : i.val = j.val
  · simp only [hi, if_true, true_and, Vector.getElem_set]
  · simp only [hi, if_false, false_and]

variable {c : DataCache} {k : Nat} {address partitionAddress : UInt64} {memory : LsuMemory}

/-- A cache without a stack partition, whose layout splits the line address and has one set an index. -/
structure Splits (c : DataCache) (k : Nat) : Prop where
  layout : c.layout.Splits k
  lineBytes : c.lineBytes = 2 ^ c.layout.indexShift.val
  sets : c.setCount = 2 ^ k
  unpartitioned : ∀ i : Fin c.setCount, (c.sets[i]).stackWays = none

/-- The line is not in the cache. -/
def Absent (c : DataCache) (address : UInt64) (memory : LsuMemory) : Prop := (c.lookup address memory).1 = none

/-- The location was filled with the line at `line`, and not since. -/
structure Holds (c : DataCache) (location : CacheLocation) (line : UInt64) : Prop where
  aligned : c.lineBytes ∣ line.toNat
  index : c.layout.index line = location.index
  tag : ∃ tag, c.tag location = .ok tag ∧ tag.tag = c.layout.tag line

/-- The location that a refill takes. -/
def victimLocation (c : DataCache) (address partitionAddress : UInt64) : CacheLocation :=
  ⟨c.layout.index address, ((c.sets[c.setIndex address]).victim partitionAddress c.ways_pos).val⟩

/-- A dirty line that was filled from `line` is replaced. -/
def Replaces (c : DataCache) (address partitionAddress line : UInt64) : Prop :=
  c.replacementRequiresWriteback address partitionAddress = true ∧ c.Holds (c.victimLocation address partitionAddress) line

/-! ### A refill -/

/-- The way that a refill takes. -/
def victimWay (c : DataCache) (address partitionAddress : UInt64) : Fin c.ways :=
  (c.sets[c.setIndex address]).victim partitionAddress c.ways_pos

/-- The set of a refill before it is installed, with what is written back. -/
def evicted (c : DataCache) (address partitionAddress : UInt64) : Option CacheWriteback × CacheSet c.ways :=
  (c.sets[c.setIndex address]).evictDirty (c.victimWay address partitionAddress) (c.layout.index address) c.layout
    ((c.data[c.setIndex address])[c.victimWay address partitionAddress]).1

/-- The cache after a refill. -/
def refilled (c : DataCache) (address partitionAddress : UInt64) (memory : LsuMemory) (line : CacheLine c.lineBytes)
    (dirty : Bool) : DataCache :=
  { c with
    sets := c.sets.set (c.setIndex address) ((c.evicted address partitionAddress).2.install
      (c.victimWay address partitionAddress) (c.layout.tag address) memory dirty)
    data := c.data.set (c.setIndex address) ((c.data[c.setIndex address]).set (c.victimWay address partitionAddress) line) }

/-- The set of the address after a refill. -/
def installed (c : DataCache) (address partitionAddress : UInt64) (memory : LsuMemory) (dirty : Bool) : CacheSet c.ways :=
  (c.evicted address partitionAddress).2.install (c.victimWay address partitionAddress) (c.layout.tag address) memory dirty

theorem refill_ok {bytes : List UInt8} (h : bytes.length = c.lineBytes) (dirty : Bool) :
    c.refill address partitionAddress memory bytes dirty =
      .ok (⟨c.victimLocation address partitionAddress, (c.evicted address partitionAddress).1⟩,
        c.refilled address partitionAddress memory ⟨bytes, h⟩ dirty) := by
  unfold refill
  rw [dif_pos h]
  rfl

theorem checked_victim (c : DataCache) (address partitionAddress : UInt64) :
    c.checkedLocation (c.victimLocation address partitionAddress) =
      .ok (c.setIndex address, c.victimWay address partitionAddress) := by
  have hindex : (c.victimLocation address partitionAddress).index.toNat < c.setCount := (c.setIndex address).isLt
  have hway : (c.victimLocation address partitionAddress).way < c.ways := (c.victimWay address partitionAddress).isLt
  unfold checkedLocation
  rw [dif_pos hindex, dif_pos hway]
  rfl

theorem tag_victim (c : DataCache) (address partitionAddress : UInt64) :
    c.tag (c.victimLocation address partitionAddress) =
      .ok ((c.sets[c.setIndex address]).tags[c.victimWay address partitionAddress]) := by
  unfold tag
  rw [checked_victim]
  rfl

theorem line_victim (c : DataCache) (address partitionAddress : UInt64) :
    c.line (c.victimLocation address partitionAddress) =
      .ok ((c.data[c.setIndex address])[c.victimWay address partitionAddress]).1 := by
  unfold line
  rw [checked_victim]
  rfl

section Refilled

variable {line : CacheLine c.lineBytes} {dirty : Bool}

theorem refilled_other {location : CacheLocation} (h : location ≠ c.victimLocation address partitionAddress) :
    (c.refilled address partitionAddress memory line dirty).tag location = c.tag location ∧
      (c.refilled address partitionAddress memory line dirty).line location = c.line location := by
  unfold tag DataCache.line
  have hsame : (c.refilled address partitionAddress memory line dirty).checkedLocation location =
      c.checkedLocation location := rfl
  rw [hsame]
  cases hl : c.checkedLocation location with
  | error e => exact ⟨rfl, rfl⟩
  | ok at' =>
    obtain ⟨i, w⟩ := at'
    have hloc : i.val = location.index.toNat ∧ w.val = location.way := by
      unfold checkedLocation at hl
      split at hl
      · split at hl
        · cases hl
          exact ⟨rfl, rfl⟩
        · cases hl
      · cases hl
    have hw : i = c.setIndex address → w ≠ c.victimWay address partitionAddress := by
      intro hi hw
      refine h ?_
      obtain ⟨index, way⟩ := location
      have hindex : index = c.layout.index address := UInt32.toNat_inj.mp (hloc.1.symm.trans (congrArg Fin.val hi))
      have hway : way = (c.victimWay address partitionAddress).val := hloc.2.symm.trans (congrArg Fin.val hw)
      rw [hindex, hway]
      rfl
    constructor
    · refine congrArg Except.ok ((tag_set c.sets (c.setIndex address) i w _).trans ?_)
      split
      · rename_i hi
        subst hi
        rw [CacheSet.install_other (hw rfl), evicted, CacheSet.evictDirty_other (hw rfl)]
      · rfl
    · refine congrArg Except.ok (congrArg Subtype.val ((line_set c.data (c.setIndex address) i _ w line).trans ?_))
      exact if_neg fun hboth => hw hboth.1.symm hboth.2.symm

theorem installed_hit (h : c.Splits k) (habsent : c.Absent address memory) (dirty : Bool) :
    (c.installed address partitionAddress memory dirty).lookup address (c.layout.tag address) memory =
      (some (c.victimWay address partitionAddress),
        (c.installed address partitionAddress memory dirty).promote (c.victimWay address partitionAddress)) := by
  have hnone : ∀ way, ¬ (c.sets[c.setIndex address]).Hit (c.layout.tag address) memory way := by
    have hlookup : ((c.sets[c.setIndex address]).lookup address (c.layout.tag address) memory).1 = none :=
      Option.map_eq_none_iff.mp habsent
    exact (CacheSet.lookup_none (h.unpartitioned _)).mp hlookup
  refine CacheSet.lookup_single ?_ ?_ fun other hother => ?_
  · show (c.evicted address partitionAddress).2.stackWays = none
    rw [evicted, CacheSet.evictDirty_stackWays]
    exact h.unpartitioned _
  · unfold CacheSet.Hit installed
    rw [CacheSet.install_same]
    exact ⟨rfl, rfl, rfl⟩
  · by_contra hne
    unfold CacheSet.Hit installed at hother
    rw [CacheSet.install_other hne, evicted, CacheSet.evictDirty_other hne] at hother
    exact hnone other hother

theorem refilled_hit (h : c.Splits k) (habsent : c.Absent address memory) :
    ∃ c', (c.refilled address partitionAddress memory line dirty).lookup address memory =
        (some (c.victimLocation address partitionAddress), c') ∧
      c'.line (c.victimLocation address partitionAddress) = .ok line.1 := by
  have hset : (c.sets.set (c.setIndex address) (c.installed address partitionAddress memory dirty))[c.setIndex address] =
      c.installed address partitionAddress memory dirty := by
    simp only [Fin.getElem_fin]
    exact Vector.getElem_set_self _
  have hlookup : ((c.sets.set (c.setIndex address)
      (c.installed address partitionAddress memory dirty))[c.setIndex address]).lookup address (c.layout.tag address) memory =
      (some (c.victimWay address partitionAddress),
        (c.installed address partitionAddress memory dirty).promote (c.victimWay address partitionAddress)) := by
    rw [hset]
    exact installed_hit h habsent dirty
  refine ⟨_, Prod.ext (congrArg (fun found : Option (Fin c.ways) × CacheSet c.ways =>
    found.1.map fun way : Fin c.ways => (⟨c.layout.index address, way.val⟩ : CacheLocation)) hlookup) rfl, ?_⟩
  have hline := line_set c.data (c.setIndex address) (c.setIndex address) (c.victimWay address partitionAddress)
    (c.victimWay address partitionAddress) line
  rw [if_pos ⟨rfl, rfl⟩] at hline
  have hchecked := c.checked_victim address partitionAddress
  exact (congrArg (Except.map fun at' : Fin c.setCount × Fin c.ways =>
    (((c.data.set (c.setIndex address) ((c.data[c.setIndex address]).set (c.victimWay address partitionAddress)
      line))[at'.1])[at'.2]).1) hchecked).trans (congrArg Except.ok (congrArg Subtype.val hline))

end Refilled

/-! ### Writebacks -/

theorem requires_iff : c.replacementRequiresWriteback address partitionAddress = true ↔
    ((c.sets[c.setIndex address]).tags[c.victimWay address partitionAddress]).valid = true ∧
      ((c.sets[c.setIndex address]).tags[c.victimWay address partitionAddress]).dirty = true := by
  unfold replacementRequiresWriteback
  exact Bool.and_eq_true_iff

/-- What is written back is the victim's, at the address rebuilt from its index and its tag. -/
theorem evicted_writeback : (c.evicted address partitionAddress).1 =
    if c.replacementRequiresWriteback address partitionAddress then
      some ⟨c.layout.lineAddress (c.layout.index address)
          ((c.sets[c.setIndex address]).tags[c.victimWay address partitionAddress]).tag,
        ((c.sets[c.setIndex address]).tags[c.victimWay address partitionAddress]).memory,
        ((c.data[c.setIndex address])[c.victimWay address partitionAddress]).1⟩
    else none := by
  simp only [evicted, CacheSet.evictDirty]
  by_cases hr : c.replacementRequiresWriteback address partitionAddress = true
  · have hboth := requires_iff.mp hr
    rw [if_pos hr, if_neg (by rw [hboth.1, hboth.2]; decide)]
  · have hnot := requires_iff.not.mp hr
    rw [if_neg hr, if_pos]
    by_contra hn
    simp only [Bool.or_eq_true, Bool.not_eq_true', not_or, Bool.not_eq_false] at hn
    exact hnot hn

/-- The part of the line's address that comes from the index is a `u32`. -/
def OffsetFits (c : DataCache) (address : UInt64) : Prop := (c.layout.index address).toNat * c.lineBytes < 2 ^ 32

/-- The address that is rebuilt for the victim is the one it was filled from, just if the offset of its set is a `u32`. -/
theorem Holds.rebuilt {line : UInt64} (hh : c.Holds (c.victimLocation address partitionAddress) line) (h : c.Splits k) :
    c.layout.lineAddress (c.layout.index address)
        ((c.sets[c.setIndex address]).tags[c.victimWay address partitionAddress]).tag = line ↔ c.OffsetFits address := by
  obtain ⟨tag, htag, heq⟩ := hh.tag
  rw [tag_victim] at htag
  obtain rfl := Except.ok.inj htag
  have hindex : c.layout.index line = c.layout.index address := hh.index
  have haligned := hh.aligned
  rw [h.lineBytes] at haligned
  rw [heq, ← hindex, h.layout.lineAddress_eq_iff haligned, OffsetFits, hindex, h.lineBytes]

/-- What a refill of a line is for. -/
structure RefillRight (c : DataCache) (address partitionAddress : UInt64) (memory : LsuMemory) (bytes : List UInt8)
    (refill : CacheRefill) (c' : DataCache) : Prop where
  /-- The next lookup finds the refilled bytes. -/
  hit : ∃ c'', c'.lookup address memory = (some refill.location, c'') ∧ c''.line refill.location = .ok bytes
  others : ∀ location, location ≠ refill.location → c'.tag location = c.tag location ∧ c'.line location = c.line location
  /-- The location holds the line that it was refilled from. -/
  filled : ∀ line : UInt64, c.lineBytes ∣ line.toNat → c.layout.index line = c.layout.index address →
    c.layout.tag line = c.layout.tag address → c'.Holds refill.location line
  clean : c.replacementRequiresWriteback address partitionAddress = false → refill.writeback = none
  /-- A dirty line goes back to where it was filled from. -/
  writeback : ∀ line, c.Replaces address partitionAddress line → ∃ old former,
    c.tag refill.location = .ok old ∧ c.line refill.location = .ok former ∧
      refill.writeback = some ⟨line, old.memory, former⟩

theorem refilled_holds {line : CacheLine c.lineBytes} {dirty : Bool} {filled : UInt64} (ha : c.lineBytes ∣ filled.toNat)
    (hi : c.layout.index filled = c.layout.index address) (ht : c.layout.tag filled = c.layout.tag address) :
    (c.refilled address partitionAddress memory line dirty).Holds (c.victimLocation address partitionAddress) filled where
  aligned := ha
  index := hi
  tag := by
    have htag := tag_set c.sets (c.setIndex address) (c.setIndex address) (c.victimWay address partitionAddress)
      (c.installed address partitionAddress memory dirty)
    rw [if_pos rfl, installed, CacheSet.install_same] at htag
    exact ⟨_, (congrArg (Except.map fun at' : Fin c.setCount × Fin c.ways =>
      ((c.sets.set (c.setIndex address) (c.installed address partitionAddress memory dirty))[at'.1]).tags[at'.2])
      (c.checked_victim address partitionAddress)).trans (congrArg Except.ok htag), ht.symm⟩

theorem refillRight_iff {bytes : List UInt8} (h : c.Splits k) (habsent : c.Absent address memory)
    (hbytes : bytes.length = c.lineBytes) (dirty : Bool) :
    c.RefillRight address partitionAddress memory bytes
        ⟨c.victimLocation address partitionAddress, (c.evicted address partitionAddress).1⟩
        (c.refilled address partitionAddress memory ⟨bytes, hbytes⟩ dirty) ↔
      ∀ line, c.Replaces address partitionAddress line → c.OffsetFits address := by
  refine ⟨fun hright line hreplaces => ?_, fun hfits => ?_⟩
  · obtain ⟨old, former, hold, hformer, hback⟩ := hright.writeback line hreplaces
    rw [evicted_writeback, if_pos hreplaces.1] at hback
    have haddress := congrArg CacheWriteback.address (Option.some.inj hback)
    exact (hreplaces.2.rebuilt h).mp haddress
  · refine ⟨refilled_hit h habsent, fun location hne => refilled_other hne, fun line => refilled_holds, fun hclean => ?_,
      fun line hreplaces => ?_⟩
    · rw [evicted_writeback, hclean]
      rfl
    · refine ⟨_, _, c.tag_victim address partitionAddress, c.line_victim address partitionAddress, ?_⟩
      rw [evicted_writeback, if_pos hreplaces.1, (hreplaces.2.rebuilt h).mpr (hfits line hreplaces)]

/-- A refill of a line that is not present does what it is for just if the dirty line it replaces, if any, is in a set
whose offset is a `u32`. -/
theorem refill_exact_iff {bytes : List UInt8} (h : c.Splits k) (habsent : c.Absent address memory)
    (hbytes : bytes.length = c.lineBytes) (partitionAddress : UInt64) (dirty : Bool) :
    ∃ refill c', c.refill address partitionAddress memory bytes dirty = .ok (refill, c') ∧
      (c.RefillRight address partitionAddress memory bytes refill c' ↔
        ∀ line, c.Replaces address partitionAddress line → c.OffsetFits address) :=
  ⟨_, _, refill_ok hbytes dirty, refillRight_iff h habsent hbytes dirty⟩

/-- Two sets of one way, with a dirty line in the second. -/
def sampleCache (shift : Fin 63) (lineBytes : Nat) : DataCache where
  layout := ⟨shift.castSucc, 1, shift.succ, -1⟩
  lineBytes
  setCount := 2
  ways := 1
  sets := #v[⟨#v[⟨false, false, false, 0, .ub, 0⟩], none⟩, ⟨#v[⟨false, true, true, 0, .external, 0⟩], none⟩]
  data := Vector.replicate 2 (Vector.replicate 1 ⟨List.replicate lineBytes 0, List.length_replicate⟩)
  ways_pos := Nat.one_pos
  mask_lt := Nat.one_lt_two

theorem sampleCache_splits (shift : Fin 63) : (sampleCache shift (2 ^ shift.val)).Splits 1 where
  layout := ⟨rfl, rfl, fun address => UInt64.and_neg_one⟩
  lineBytes := rfl
  sets := rfl
  unpartitioned i := by
    have hall : ∀ i : Fin 2, (((sampleCache shift (2 ^ shift.val)).sets : Vector (CacheSet 1) 2)[i]).stackWays = none :=
      Fin.forall_fin_two.mpr ⟨rfl, rfl⟩
    exact hall i

theorem refill_exact_iff_sample :
    ∃ refill c', (sampleCache 1 2).refill 6 6 .external [1, 2] false = .ok (refill, c') ∧
      ((sampleCache 1 2).RefillRight 6 6 .external [1, 2] refill c' ↔
        ∀ line, (sampleCache 1 2).Replaces 6 6 line → (sampleCache 1 2).OffsetFits 6) :=
  refill_exact_iff (sampleCache_splits 1) (by unfold Absent; decide) rfl 6 false

/-- A dirty line of 4 GiB in the second set goes back to address 1. -/
theorem wide_line_misplaced :
    ∃ refill c', (sampleCache 32 (2 ^ 32)).refill (3 * 2 ^ 32) (3 * 2 ^ 32) .external (List.replicate (2 ^ 32) 1) false =
        .ok (refill, c') ∧
      refill.writeback.map (·.address) = some 1 ∧ (sampleCache 32 (2 ^ 32)).Holds refill.location (2 ^ 32) ∧
      ¬ (sampleCache 32 (2 ^ 32)).RefillRight (3 * 2 ^ 32) (3 * 2 ^ 32) .external (List.replicate (2 ^ 32) 1) refill c' := by
  have habsent : (sampleCache 32 (2 ^ 32)).Absent (3 * 2 ^ 32) .external := by unfold Absent; decide
  have hbytes : (List.replicate (2 ^ 32) (1 : UInt8)).length = (sampleCache 32 (2 ^ 32)).lineBytes := List.length_replicate
  have hholds : (sampleCache 32 (2 ^ 32)).Holds ⟨1, 0⟩ (2 ^ 32) := ⟨by decide, by decide, _, rfl, by decide⟩
  have hvictim : (sampleCache 32 (2 ^ 32)).victimLocation (3 * 2 ^ 32) (3 * 2 ^ 32) = ⟨1, 0⟩ := by decide
  have hrequires : (sampleCache 32 (2 ^ 32)).replacementRequiresWriteback (3 * 2 ^ 32) (3 * 2 ^ 32) = true := by decide
  refine ⟨_, _, refill_ok hbytes false, ?_, by rw [hvictim]; exact hholds, fun hright => ?_⟩
  · rw [evicted_writeback, if_pos hrequires]
    rfl
  · have hfits := (refillRight_iff (sampleCache_splits 32) habsent hbytes false).mp hright (2 ^ 32) ⟨hrequires, hvictim ▸ hholds⟩
    exact absurd hfits (by unfold OffsetFits; decide)

end DataCache

end AscendEmulator.C220.Lsu
