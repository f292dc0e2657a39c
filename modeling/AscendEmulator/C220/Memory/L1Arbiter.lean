/-
  AscendEmulator.C220.Memory.L1Arbiter — the bank arbiter of L1 (`C220L1Arbiter`).

  An access needs the banks of its mask. The ports ask in order, writes first: a port is granted its banks if no write
  granted before it has one of them. Reads skip the banks whose cache tag they hit.
-/

import AscendEmulator.Lib.Run

namespace AscendEmulator.C220.Memory

open Lib

inductive L1Port where
  | fixpWrite | mteWrite | mteRead
  deriving DecidableEq, Repr

namespace L1Port

def all : List L1Port := [fixpWrite, mteWrite, mteRead]

def responseTicks : L1Port → Nat
  | fixpWrite | mteWrite => 1
  | mteRead => 8

end L1Port

inductive L1Receiver where
  | read | write
  deriving DecidableEq, Repr

namespace L1Receiver

def all : List L1Receiver := [read, write]

def contains : L1Receiver → L1Port → Bool
  | read, .mteRead => true
  | write, .fixpWrite | write, .mteWrite => true
  | _, _ => false

end L1Receiver

inductive L1Error where
  | unsupportedGeometry
  | timeReversed (previous requested : Nat)
  | repeatedCallback (receiver : L1Receiver) (phase : String) (tick : Nat)
  | timeOverflow
  deriving DecidableEq, Repr

structure L1Geometry where
  bankWidth : Nat
  bankCount : Nat
  groupCount : Nat
  groupOffset : Nat
  ok : bankWidth ≠ 0 ∧ (1 ≤ bankCount ∧ bankCount ≤ 32) ∧ groupCount ≠ 0 ∧ groupCount ≤ 64 / bankCount ∧ groupOffset < 64

structure L1Access where
  address : Nat
  bytes : Nat
  deriving DecidableEq, Repr

structure L1Decision where
  access : L1Access
  bankMask : BitVec 64
  granted : Bool
  deriving DecidableEq

namespace L1Geometry

def new (bankWidth bankCount groupCount groupOffset : Nat) : Except L1Error L1Geometry :=
  if h : bankWidth ≠ 0 ∧ (1 ≤ bankCount ∧ bankCount ≤ 32) ∧ groupCount ≠ 0 ∧ groupCount ≤ 64 / bankCount ∧
      groupOffset < 64 then .ok ⟨bankWidth, bankCount, groupCount, groupOffset, h⟩
  else .error .unsupportedGeometry

/-- The banks of the first group that an access needs. -/
def baseMask (g : L1Geometry) (access : L1Access) : BitVec 64 :=
  let start := access.address % u32 / g.bankWidth % g.bankCount
  let count := ((access.bytes + (u32 - 1)) % u32 + g.bankWidth) % u32 / g.bankWidth
  let stop := (start + count) % u32
  if start < stop then
    (List.range (min (stop - start) g.bankCount)).foldl
      (fun mask offset => mask ||| 1#64 <<< ((start + offset) % g.bankCount)) 0
  else 0

def groupShift (g : L1Geometry) (address : Nat) : Nat :=
  if g.groupOffset = 0 then 0 else ((address >>> g.groupOffset) % u32 &&& (g.groupCount - 1)) * g.bankCount

end L1Geometry

structure L1Arbiter where
  geometry : L1Geometry
  cacheTags : List (Option Nat)

namespace L1Arbiter

def new (geometry : L1Geometry) : L1Arbiter := ⟨geometry, List.replicate geometry.bankCount none⟩

def writeBankMask (a : L1Arbiter) (access : L1Access) : BitVec 64 :=
  a.geometry.baseMask access <<< a.geometry.groupShift access.address

/-- The tag of each bank for an access, from the first bank on. -/
def tagOf (a : L1Arbiter) (access : L1Access) (bank : Nat) : Nat :=
  (access.address / a.geometry.bankWidth + bank * a.geometry.bankWidth) % u32

/-- The loop over the cache tags: the banks that an access hits need not be read. -/
def readBankMask (a : L1Arbiter) (access : L1Access) : BitVec 64 :=
  (a.cacheTags.zipIdx.foldl
    (fun mask c => if c.1 = some (a.tagOf access c.2) then mask &&& ~~~(1#64 <<< c.2) else mask)
    (a.geometry.baseMask access)) <<< a.geometry.groupShift access.address

def bankMask (a : L1Arbiter) (port : L1Port) (access : L1Access) : BitVec 64 :=
  if port = .mteRead then a.readBankMask access else a.writeBankMask access

def updateCache (a : L1Arbiter) (access : L1Access) (mask : BitVec 64) (read : Bool) : L1Arbiter :=
  { a with
    cacheTags := a.cacheTags.zipIdx.map fun c =>
      if mask &&& 1#64 <<< c.2 ≠ 0 then
        if read then some (a.tagOf access c.2) else if c.1 = some (a.tagOf access c.2) then none else c.1
      else c.1 }

/-- The arbitration so far. -/
structure Round where
  arbiter : L1Arbiter
  writeMask : BitVec 64
  decisions : L1Port → Option L1Decision

/-- One turn of the loop over the ports. -/
def Round.ask (requests : L1Port → Option L1Access) (r : Round) (port : L1Port) : Round :=
  match requests port with
  | none => r
  | some access =>
    let mask := r.arbiter.bankMask port access
    let granted := r.writeMask &&& mask == 0
    { arbiter := if granted then r.arbiter.updateCache access mask (port == .mteRead) else r.arbiter
      writeMask := if granted && port != .mteRead then r.writeMask ||| mask else r.writeMask
      decisions := Function.update r.decisions port (some ⟨access, mask, granted⟩) }

def arbitrate (a : L1Arbiter) (requests : L1Port → Option L1Access) : L1Arbiter × (L1Port → Option L1Decision) :=
  let r := L1Port.all.foldl (Round.ask requests) ⟨a, 0, fun _ => none⟩
  (r.arbiter, r.decisions)

/-! ## What an arbitration decides -/

/-- No bit outside of `mask` is one of `w`'s. -/
def Within (w mask : BitVec 64) : Prop := ∀ c, mask &&& c = 0 → w &&& c = 0

theorem within_or_left (a b : BitVec 64) : Within a (a ||| b) := by
  intro c hc
  rw [BitVec.and_or_distrib_right] at hc
  exact (BitVec.or_eq_zero_iff.mp hc).1

theorem within_or_right (a b : BitVec 64) : Within b (a ||| b) := by
  intro c hc
  rw [BitVec.and_or_distrib_right] at hc
  exact (BitVec.or_eq_zero_iff.mp hc).2

/-- The decisions of a round: each is about the access its port asked with; a write has the banks of its access, and
shares none with the other write granted or with the read granted. -/
structure Fair (g : L1Geometry) (requests : L1Port → Option L1Access) (ds : L1Port → Option L1Decision) : Prop where
  access : ∀ p d, ds p = some d → requests p = some d.access
  banks : ∀ p d, p ≠ .mteRead → ds p = some d →
    d.bankMask = g.baseMask d.access <<< g.groupShift d.access.address
  apart : ∀ p q d e, p ≠ q → p ≠ .mteRead → ds p = some d → ds q = some e → d.granted = true → e.granted = true →
    d.bankMask &&& e.bankMask = 0

/-- A round after the ports of `done`: its write mask has the banks of the writes granted. -/
structure Asked (g : L1Geometry) (requests : L1Port → Option L1Access) (done : List L1Port) (r : Round) : Prop where
  geometry : r.arbiter.geometry = g
  none : ∀ p, p ∉ done → r.decisions p = none
  within : ∀ p d, p ≠ .mteRead → r.decisions p = some d → d.granted = true → Within d.bankMask r.writeMask
  fair : Fair g requests r.decisions

theorem Asked.idle {g : L1Geometry} {requests : L1Port → Option L1Access} {done : List L1Port} {r : Round}
    (h : Asked g requests done r) (port : L1Port) : Asked g requests (port :: done) r :=
  ⟨h.geometry, fun p hp => h.none p fun hd => hp (by simp [hd]), h.within, h.fair⟩

/-- One port more; the read comes last. -/
theorem Asked.ask {g : L1Geometry} {requests : L1Port → Option L1Access} {done : List L1Port} {r : Round}
    (h : Asked g requests done r) (port : L1Port) (hport : port ∉ done) (hread : .mteRead ∉ done) :
    Asked g requests (port :: done) (r.ask requests port) := by
  unfold Round.ask
  split
  · exact h.idle port
  · rename_i access haccess
    dsimp only
    generalize hmask : r.arbiter.bankMask port access = mask
    have hnew {q : L1Port} {d : L1Decision} (hq : q ≠ port)
        (hd : Function.update r.decisions port (some ⟨access, mask, r.writeMask &&& mask == 0⟩) q = some d) :
        r.decisions q = some d := by rwa [Function.update_of_ne hq] at hd
    have hself {d : L1Decision}
        (hd : Function.update r.decisions port (some ⟨access, mask, r.writeMask &&& mask == 0⟩) port = some d) :
        d = ⟨access, mask, r.writeMask &&& mask == 0⟩ := by
      rw [Function.update_self] at hd
      exact (Option.some.inj hd).symm
    have hfree {q : L1Port} {d : L1Decision} (hq : q ≠ .mteRead) (hd : r.decisions q = some d) (hg : d.granted = true)
        (hgranted : (r.writeMask &&& mask == 0) = true) : d.bankMask &&& mask = 0 :=
      h.within q d hq hd hg mask (by simpa using hgranted)
    refine ⟨?_, fun p hp => ?_, fun p d hp hd hg => ?_, fun p d hd => ?_, fun p d hp hd => ?_,
      fun p q d e hpq hp hd he hgd hge => ?_⟩
    · split <;> exact h.geometry
    · obtain ⟨hne, hdone⟩ : p ≠ port ∧ p ∉ done := by simpa using hp
      exact (Function.update_of_ne hne _ _).trans (h.none p hdone)
    · by_cases hport' : p = port
      · subst hport'
        obtain rfl := hself hd
        have hgrant : (r.writeMask &&& mask == 0) = true := hg
        have hne : (p != L1Port.mteRead) = true := by simpa using hp
        rw [hgrant, hne]
        exact within_or_right _ _
      · have hold := h.within p d hp (hnew hport' hd) hg
        show Within _ (if _ then _ else _)
        split
        · exact fun c hc => hold c (within_or_left _ mask c hc)
        · exact hold
    · by_cases hport' : p = port
      · subst hport'
        obtain rfl := hself hd
        exact haccess
      · exact h.fair.access p d (hnew hport' hd)
    · by_cases hport' : p = port
      · subst hport'
        obtain rfl := hself hd
        rw [← h.geometry]
        show mask = r.arbiter.writeBankMask access
        rw [← hmask, bankMask, if_neg hp]
      · exact h.fair.banks p d hp (hnew hport' hd)
    · by_cases hp' : p = port
      · subst hp'
        have hq : q ≠ p := Ne.symm hpq
        obtain rfl := hself hd
        have hqdone : q ≠ .mteRead := by
          rintro rfl
          have hnone := (h.none _ hread).symm.trans (hnew hq he)
          cases hnone
        rw [BitVec.and_comm]
        exact hfree hqdone (hnew hq he) hge hgd
      · by_cases hq' : q = port
        · subst hq'
          obtain rfl := hself he
          exact hfree hp (hnew hp' hd) hgd hge
        · exact h.fair.apart p q d e hpq hp (hnew hp' hd) (hnew hq' he) hgd hge

theorem arbitrate_fair (a : L1Arbiter) (requests : L1Port → Option L1Access) :
    Fair a.geometry requests (a.arbitrate requests).2 ∧ (a.arbitrate requests).1.geometry = a.geometry := by
  have h₀ : Asked a.geometry requests [] ⟨a, 0, fun _ => none⟩ :=
    ⟨rfl, fun _ _ => rfl, nofun, nofun, nofun, nofun⟩
  have h₁ := h₀.ask .fixpWrite (by decide) (by decide)
  have h₂ := h₁.ask .mteWrite (by decide) (by decide)
  have h₃ := h₂.ask .mteRead (by decide) (by decide)
  exact ⟨h₃.fair, h₃.geometry⟩

end L1Arbiter

end AscendEmulator.C220.Memory
