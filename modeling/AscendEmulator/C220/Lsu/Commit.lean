/-
  AscendEmulator.C220.Lsu.Commit — the commit lane of scalar loads and stores
  (`C220LsuCommitLane`): who owns a destination register, and the retirement transport.

  A load is issued, admitted to the cache, completed in one or two responses, and retired by
  the notification of a response. Registers, ids and ticks are `Nat`.
-/

import AscendEmulator.Lib.OrdMap
import AscendEmulator.Lib.Run

namespace AscendEmulator.C220.Lsu

open Lib (OrdMap checkedAdd reply)

/-! ## The register file -/

inductive Architecture where
  | dav2201 | dav3510
  deriving DecidableEq

/-- What the lane reads and writes of `ScalarMachine`. -/
structure ScalarMachine where
  architecture : Architecture
  xregs : Fin 32 → UInt64
  c220Xreg32 : UInt64

namespace ScalarMachine

def xregValue (m : ScalarMachine) (register : Nat) : Option UInt64 :=
  if register = 32 ∧ m.architecture = .dav2201 then some m.c220Xreg32
  else if h : register < 32 then some (m.xregs ⟨register, h⟩)
  else none

/-- A register that the file does not have is not written. -/
def writeExistingXreg (m : ScalarMachine) (register : Nat) (value : UInt64) : ScalarMachine :=
  if register = 32 ∧ m.architecture = .dav2201 then { m with c220Xreg32 := value }
  else if h : register < 32 then { m with xregs := Function.update m.xregs ⟨register, h⟩ value }
  else m

end ScalarMachine

/-! ## Operands and responses -/

structure LoadOperands where
  pc : UInt64
  word : UInt32
  destinationRegister : Nat
  priorDestinationValue : UInt64
  secondDestination : Option (Nat × UInt64)
  baseRegister : Nat
  baseValue : UInt64
  offsetOperand : Option (Nat × UInt64)
  effectiveAddress : UInt64
  updatedBase : Option UInt64
  widthBytes : UInt8
  deriving DecidableEq

namespace LoadOperands

def destinations (o : LoadOperands) : List Nat := o.destinationRegister :: (o.secondDestination.map (·.1)).toList

/-- `C220ScalarDeviceLoad::decode(word).is_some()`. -/
def isDeviceLoad (o : LoadOperands) : Bool := o.word >>> 29 == 0 && (o.word >>> 25) &&& 0xf == 13

end LoadOperands

structure StoreOperands where
  pc : UInt64
  word : UInt32
  sourceOperand : Option (Nat × UInt64)
  secondSourceOperand : Option (Nat × UInt64)
  baseRegister : Nat
  baseValue : UInt64
  offsetOperand : Option (Nat × UInt64)
  effectiveAddress : UInt64
  updatedBase : Option UInt64
  widthBytes : UInt8
  bytes : Vector UInt8 16
  deriving DecidableEq

inductive LsuMemory where
  | ub | external
  deriving DecidableEq

structure MappedAddress where
  address : UInt64
  memory : LsuMemory
  stack : Bool
  deriving DecidableEq

inductive PairPart where
  | both | first | second
  deriving DecidableEq

inductive LoadPath where
  | cache | storeForward | cacheAndStore | refill
  deriving DecidableEq

inductive StorePath where
  | cache | refill | ubWrite
  deriving DecidableEq

structure LoadValue where
  request : Nat
  tick : Nat
  operands : LoadOperands
  mapped : MappedAddress
  value : UInt64
  secondValue : Option UInt64
  path : LoadPath
  part : PairPart
  deriving DecidableEq

structure LoadResponse where
  request : Nat
  tick : Nat
  mapped : MappedAddress
  path : LoadPath
  part : PairPart
  deriving DecidableEq

def LoadValue.response (d : LoadValue) : LoadResponse := ⟨d.request, d.tick, d.mapped, d.path, d.part⟩

structure StoreValue where
  request : Nat
  tick : Nat
  operands : StoreOperands
  mapped : MappedAddress
  path : StorePath
  part : PairPart
  deriving DecidableEq

structure StoreResponse where
  request : Nat
  tick : Nat
  mapped : MappedAddress
  path : StorePath
  part : PairPart
  deriving DecidableEq

def StoreValue.response (d : StoreValue) : StoreResponse := ⟨d.request, d.tick, d.mapped, d.path, d.part⟩

/-! ## The lane -/

inductive LoadCommitMode where
  | dataBypass | retirement
  deriving DecidableEq

structure PendingLoad where
  operands : LoadOperands
  issueTick : Nat
  admission : Option (Nat × Nat)
  secondRequest : Option Nat
  responses : Option LoadValue × Option LoadValue
  suppressed : Bool
  writebackTick : Option Nat
  data : Option LoadValue
  deriving DecidableEq

structure PendingStorePair where
  requests : Nat × Nat
  operands : StoreOperands
  admissionTick : Nat
  responses : Option StoreResponse × Option StoreResponse
  consumed : Nat
  retired : Bool
  deriving DecidableEq

inductive RetirementToken where
  | preload (request : Nat)
  | atomicStore (request : Nat)
  | maintenance (request : Nat)
  | load (instruction : Nat)
  | store (data : StoreValue)
  | directStore (request write responseTick : Nat)
  deriving DecidableEq

inductive CommitError where
  | timeReversal | overflow | invalidOperands | invalidRequest | retirementFull
  deriving DecidableEq

structure LoadRetirement where
  instruction : Nat
  data : LoadValue
  issueTick : Nat
  admissionTick : Nat
  writebackTick : Option Nat
  retireTick : Nat
  suppressed : Bool
  registerValue : UInt64
  secondRegisterValue : Option UInt64
  deviceSyncValue : Option UInt64
  responses : Option LoadResponse × Option LoadResponse
  deriving DecidableEq

inductive LsuRetirement where
  | preload (request retireTick : Nat)
  | atomicStore (request retireTick : Nat)
  | maintenance (request retireTick : Nat)
  | load (retirement : LoadRetirement)
  | repeatedLoad (instruction retireTick : Nat)
  | store (data : StoreValue) (retireTick firstRequest : Nat) (finalNotification repeatedNotification : Bool)
      (responses : Option StoreResponse × Option StoreResponse)
  | directStore (request write responseTick retireTick : Nat)
  deriving DecidableEq

structure CommitLane where
  mode : LoadCommitMode
  tick : Nat
  pending : OrdMap Nat PendingLoad
  requests : OrdMap Nat Nat
  owners : OrdMap Nat Nat
  retirements : List (Nat × RetirementToken)
  storePairs : OrdMap Nat PendingStorePair
  storePairRequests : OrdMap Nat Nat

namespace CommitLane

def new (mode : LoadCommitMode) : CommitLane := ⟨mode, 0, .empty, .empty, .empty, [], .empty, .empty⟩

def pendingDestination (l : CommitLane) (register : Nat) : Option Nat := l.owners.get? register

def pendingCount (l : CommitLane) : Nat :=
  l.pending.entries.length + l.storePairs.entries.length + l.retirements.countP fun entry =>
    match entry.2 with
    | .load _ => false
    | .store data => !l.storePairRequests.contains data.request
    | .directStore .. | .preload _ | .maintenance _ | .atomicStore _ => true

/-! ## The responses of a pair -/

variable {α : Type}

def answered (isSecond : Bool) (responses : Option α × Option α) : Bool :=
  if isSecond then responses.2.isSome else responses.1.isSome

def answer (isSecond : Bool) (response : α) (responses : Option α × Option α) : Option α × Option α :=
  if isSecond then (responses.1, some response) else (some response, responses.2)

/-- The part of a pair that a store of it answers. -/
def storePart (isSecond : Bool) : PairPart := if isSecond then .second else .first

/-! ## Stores and notifications -/

/-- The checks before a token is sent; the tick of its notification. -/
def checkRetirementSend (l : CommitLane) (tick : Nat) : Except CommitError Nat :=
  if tick < l.tick then .error .timeReversal
  else
    match checkedAdd tick 1 with
    | none => .error .overflow
    | some ready => if l.retirements.length = 64 then .error .retirementFull else .ok ready

def ofRequest (request : Nat) : RetirementToken → Bool
  | .store data => data.request == request
  | .directStore pending _ _ => pending == request
  | .load _ => false
  | .preload pending | .maintenance pending | .atomicStore pending => pending == request

def storeRequestTaken (l : CommitLane) (request : Nat) : Bool :=
  l.requests.contains request || l.storePairRequests.contains request || l.retirements.any fun e => ofRequest request e.2

/-- A token of `request` enters the transport. -/
def sendToken (tick request : Nat) (token : RetirementToken) (l : CommitLane) : Except CommitError Unit × CommitLane :=
  match l.checkRetirementSend tick with
  | .error e => (.error e, l)
  | .ok ready =>
    if l.storeRequestTaken request then (.error .invalidRequest, l)
    else (.ok (), { l with retirements := l.retirements ++ [(ready, token)], tick })

def completeDirectStoreAt (tick request write : Nat) : CommitLane → Except CommitError Unit × CommitLane :=
  sendToken tick request (.directStore request write tick)

def completePreloadAt (tick request : Nat) : CommitLane → Except CommitError Unit × CommitLane :=
  sendToken tick request (.preload request)

def completeAtomicAt (tick request : Nat) : CommitLane → Except CommitError Unit × CommitLane :=
  sendToken tick request (.atomicStore request)

def completeMaintenanceAt (tick request : Nat) : CommitLane → Except CommitError Unit × CommitLane :=
  sendToken tick request (.maintenance request)

def admitStorePair (tick first second : Nat) (operands : StoreOperands) (l : CommitLane) :
    Except CommitError Unit × CommitLane :=
  if tick < l.tick then (.error .timeReversal, l)
  else if l.storeRequestTaken first || l.storeRequestTaken second then (.error .invalidRequest, l)
  else if first = second ∨ operands.secondSourceOperand.isNone then (.error .invalidRequest, l)
  else (.ok (), { l with
    storePairs := l.storePairs.insert first ⟨(first, second), operands, tick, (none, none), 0, false⟩
    storePairRequests := (l.storePairRequests.insert first first).insert second first
    tick })

def completeStoreAt (tick : Nat) (data : StoreValue) (l : CommitLane) : Except CommitError Unit × CommitLane :=
  match l.checkRetirementSend tick with
  | .error e => (.error e, l)
  | .ok ready =>
    let sent := fun l : CommitLane => { l with retirements := l.retirements ++ [(ready, .store data)], tick }
    if data.tick > tick then (.error .invalidRequest, l)
    else
      -- a store of a pair: `first` is its pair's key
      match (l.storePairRequests.get? data.request).bind fun first => (l.storePairs.get? first).map (first, ·) with
      | some (first, pair) =>
        let isSecond := decide (data.request = pair.requests.2)
        if answered isSecond pair.responses ∨ data.operands ≠ pair.operands ∨
            data.part ≠ storePart isSecond ∨ data.tick < pair.admissionTick then
          (.error .invalidRequest, l)
        else
          let responses := answer isSecond data.response pair.responses
          (.ok (), sent { l with storePairs := l.storePairs.insert first { pair with responses } })
      | none =>
        if l.storeRequestTaken data.request ∨ data.part ≠ .both then (.error .invalidRequest, l)
        else (.ok (), sent l)

def retireStore (tick : Nat) (data : StoreValue) (l : CommitLane) : Option LsuRetirement × CommitLane :=
  match (l.storePairRequests.get? data.request).bind fun first => (l.storePairs.get? first).map (first, ·) with
  | none => (some (.store data tick data.request true false (some data.response, none)), l)
  | some (first, pair) =>
    let consumed := pair.consumed + 1
    if pair.responses.1.isNone ∨ pair.responses.2.isNone then
      (none, { l with storePairs := l.storePairs.insert first { pair with consumed } })
    else
      let retirement := LsuRetirement.store data tick first (decide (consumed = 2)) pair.retired pair.responses
      if consumed = 2 then
        (some retirement, { l with
          storePairs := l.storePairs.erase first
          storePairRequests := (l.storePairRequests.erase pair.requests.1).erase pair.requests.2 })
      else
        (some retirement, { l with storePairs := l.storePairs.insert first { pair with consumed, retired := true } })

/-! ## Loads -/

def checkMachine (machine : ScalarMachine) (operands : LoadOperands) : Bool :=
  machine.architecture == .dav2201 && decide (operands.destinationRegister < 64) &&
    decide (operands.baseRegister < 64) && operands.secondDestination.all fun s => decide (s.1 < 32)

/-- The instruction that owns `register` is suppressed, and this register alone released. -/
def supersede (register : Nat) (l : CommitLane) : CommitLane :=
  match l.owners.get? register with
  | none => l
  | some instruction =>
    let l := { l with owners := l.owners.erase register }
    match l.pending.get? instruction with
    | none => l
    | some pending => { l with pending := l.pending.insert instruction { pending with suppressed := true } }

def issue (tick instruction : Nat) (operands : LoadOperands) (s : CommitLane × ScalarMachine) :
    Except CommitError Unit × CommitLane × ScalarMachine :=
  let (l, machine) := s
  if tick < l.tick then (.error .timeReversal, s)
  else if !checkMachine machine operands then (.error .invalidOperands, s)
  else if l.pending.contains instruction || l.retirements.any (fun e => decide (e.2 = .load instruction)) then
    (.error .invalidRequest, s)
  else
    let machine := match operands.updatedBase with
      | some base => machine.writeExistingXreg operands.baseRegister base
      | none => machine
    let l := operands.destinations.foldl (fun l register => l.supersede register) l
    let pending : PendingLoad := ⟨operands, tick, none, none, (none, none), false, none, none⟩
    let owners := operands.destinations.foldl (fun owners register => owners.insert register instruction) l.owners
    (.ok (), { l with pending := l.pending.insert instruction pending, owners, tick }, machine)

def admitLoad (tick instruction request : Nat) (secondRequest : Option Nat) (l : CommitLane) :
    Except CommitError Unit × CommitLane :=
  if tick < l.tick then (.error .timeReversal, l)
  else
    match l.pending.get? instruction with
    | none => (.error .invalidRequest, l)
    | some pending =>
      if pending.admission.isSome || l.requests.contains request || l.storePairRequests.contains request ||
          secondRequest.any (fun second => second == request || l.requests.contains second ||
            l.storePairRequests.contains second || pending.operands.secondDestination.isNone) then
        (.error .invalidRequest, l)
      else
        let requests := l.requests.insert request instruction
        let requests := match secondRequest with
          | some second => requests.insert second instruction
          | none => requests
        (.ok (), { l with
          pending := l.pending.insert instruction { pending with admission := some (tick, request), secondRequest }
          requests
          tick })

def writeResult (data : LoadValue) (s : CommitLane × ScalarMachine) : CommitLane × ScalarMachine :=
  let machine := match data.operands.secondDestination with
    | some (register, _) => s.2.writeExistingXreg register (data.secondValue.getD 0)
    | none => s.2
  let owners := data.operands.destinations.foldl (fun owners register => owners.erase register) s.1.owners
  ({ s.1 with owners }, machine.writeExistingXreg data.operands.destinationRegister data.value)

/-- The response slot of a completion: `false` the first, `true` the second. -/
def responseSlot (secondRequest : Option Nat) (data : LoadValue) : Option Bool :=
  match secondRequest, data.part with
  | none, .both => some false
  | some second, .first => if data.request ≠ second then some false else none
  | some second, .second => if data.request = second then some true else none
  | _, _ => none

/-- The value of both parts of a split load, as far as they have come. -/
def combine (pending : PendingLoad) (responses : Option LoadValue × Option LoadValue) (data : LoadValue) : LoadValue :=
  if pending.secondRequest.isSome then
    { data with
      request := (pending.admission.map (·.2)).getD 0
      mapped := match responses.1 with
        | some first => first.mapped
        | none => { data.mapped with address := data.mapped.address - data.operands.widthBytes.toUInt64 }
      value := (responses.1.map (·.value)).getD 0
      secondValue := some ((responses.2.bind (·.secondValue)).getD 0)
      part := .both }
  else data

def completeDataAt (tick : Nat) (data : LoadValue) (s : CommitLane × ScalarMachine) :
    Except CommitError Unit × CommitLane × ScalarMachine :=
  let (l, machine) := s
  if tick < l.tick then (.error .timeReversal, s)
  else if !checkMachine machine data.operands then (.error .invalidOperands, s)
  else
    match checkedAdd tick 1 with
    | none => (.error .overflow, s)
    | some ready =>
      match (l.requests.get? data.request).bind fun i => (l.pending.get? i).map (i, ·) with
      | none => (.error .invalidRequest, s)
      | some (instruction, pending) =>
        match responseSlot pending.secondRequest data with
        | none => (.error .invalidRequest, s)
        | some isSecond =>
          if pending.operands ≠ data.operands ∨ data.secondValue.isSome ≠ data.operands.secondDestination.isSome ∨
              answered isSecond pending.responses ∨ data.tick > tick ∨ data.tick < (pending.admission.map (·.1)).getD 0 then
            (.error .invalidRequest, s)
          else
            let responses := answer isSecond data pending.responses
            let complete := pending.secondRequest.isNone || (responses.1.isSome && responses.2.isSome)
            let notify := complete || !(data.path == .cache || data.path == .cacheAndStore)
            if notify ∧ l.retirements.length = 64 then (.error .retirementFull, s)
            else
              let combined := combine pending responses data
              let bypass := l.mode = .dataBypass ∧ !pending.suppressed
              let (l, machine) := if bypass then writeResult combined (l, machine) else (l, machine)
              let pending := { pending with
                writebackTick := if bypass then some tick else pending.writebackTick
                responses
                data := if complete then some combined else none }
              (.ok (), { l with
                pending := l.pending.insert instruction pending
                retirements := if notify then l.retirements ++ [(ready, .load instruction)] else l.retirements
                tick }, machine)

/-! ## Retirement -/

/-- The load at the front of the transport retires. -/
def retireLoad (tick instruction : Nat) (pending : PendingLoad) (data : LoadValue) (s : CommitLane × ScalarMachine) :
    Except CommitError (Option LsuRetirement) × CommitLane × ScalarMachine :=
  if !checkMachine s.2 pending.operands then (.error .invalidOperands, s)
  else
    let writes := s.1.mode = .retirement ∧ !pending.suppressed
    let (l, machine) := if writes then writeResult data s else s
    let requests := l.requests.erase data.request
    let requests := match pending.secondRequest with
      | some second => requests.erase second
      | none => requests
    let registerValue := (machine.xregValue pending.operands.destinationRegister).getD 0
    let retirement : LoadRetirement := {
      instruction
      data
      issueTick := pending.issueTick
      admissionTick := (pending.admission.map (·.1)).getD 0
      writebackTick := if writes then some tick else pending.writebackTick
      retireTick := tick
      suppressed := pending.suppressed
      registerValue
      secondRegisterValue := pending.operands.secondDestination.map fun r => (machine.xregValue r.1).getD 0
      deviceSyncValue :=
        if pending.operands.isDeviceLoad then
          some (if pending.suppressed ∧ l.mode = .retirement then registerValue else data.value)
        else none
      responses := (pending.responses.1.map (·.response), pending.responses.2.map (·.response)) }
    (.ok (some (.load retirement)), { l with
      retirements := l.retirements.tail
      pending := l.pending.erase instruction
      requests
      tick }, machine)

def retireNextAt (tick : Nat) (s : CommitLane × ScalarMachine) :
    Except CommitError (Option LsuRetirement) × CommitLane × ScalarMachine :=
  let (l, machine) := s
  if tick < l.tick then (.error .timeReversal, s)
  else
    match l.retirements.head?.filter fun entry => decide (entry.1 ≤ tick) with
    | none => (.ok none, { l with tick }, machine)
    | some (_, token) =>
      let popped := { l with retirements := l.retirements.tail, tick }
      match token with
      | .preload request => (.ok (some (.preload request tick)), popped, machine)
      | .atomicStore request => (.ok (some (.atomicStore request tick)), popped, machine)
      | .maintenance request => (.ok (some (.maintenance request tick)), popped, machine)
      | .store data => let r := retireStore tick data popped; (.ok r.1, r.2, machine)
      | .directStore request write responseTick =>
        (.ok (some (.directStore request write responseTick tick)), popped, machine)
      | .load instruction =>
        match l.pending.get? instruction with
        | none => (.ok (some (.repeatedLoad instruction tick)), popped, machine)
        | some pending =>
          match pending.data with
          | none => (.ok none, popped, machine)
          | some data => retireLoad tick instruction pending data s

/-! ## Calls -/

/-- A call on the lane, or a write of the register file by anyone else. -/
inductive LaneCall where
  | issue (tick instruction : Nat) (operands : LoadOperands)
  | admitLoad (tick instruction request : Nat) (secondRequest : Option Nat)
  | supersede (register : Nat)
  | completeDataAt (tick : Nat) (data : LoadValue)
  | retireNextAt (tick : Nat)
  | completeDirectStoreAt (tick request write : Nat)
  | completePreloadAt (tick request : Nat)
  | completeAtomicAt (tick request : Nat)
  | completeMaintenanceAt (tick request : Nat)
  | admitStorePair (tick first second : Nat) (operands : StoreOperands)
  | completeStoreAt (tick : Nat) (data : StoreValue)
  | writeMachine (machine : ScalarMachine)

/-- A call that leaves the register file alone. -/
def onLane (f : CommitLane → Except CommitError Unit × CommitLane) (s : CommitLane × ScalarMachine) :
    Except CommitError (Option LsuRetirement) × CommitLane × ScalarMachine :=
  let r := f s.1
  (r.1.map fun _ => none, r.2, s.2)

def exec (c : LaneCall) (s : CommitLane × ScalarMachine) :
    Except CommitError (Option LsuRetirement) × CommitLane × ScalarMachine :=
  match c with
  | .issue tick instruction operands => reply (fun _ => none) (issue tick instruction operands s)
  | .admitLoad tick instruction request second => onLane (admitLoad tick instruction request second) s
  | .supersede register => (.ok none, s.1.supersede register, s.2)
  | .completeDataAt tick data => reply (fun _ => none) (completeDataAt tick data s)
  | .retireNextAt tick => retireNextAt tick s
  | .completeDirectStoreAt tick request write => onLane (completeDirectStoreAt tick request write) s
  | .completePreloadAt tick request => onLane (completePreloadAt tick request) s
  | .completeAtomicAt tick request => onLane (completeAtomicAt tick request) s
  | .completeMaintenanceAt tick request => onLane (completeMaintenanceAt tick request) s
  | .admitStorePair tick first second operands => onLane (admitStorePair tick first second operands) s
  | .completeStoreAt tick data => onLane (completeStoreAt tick data) s
  | .writeMachine machine => (.ok none, s.1, machine)

end CommitLane

end AscendEmulator.C220.Lsu
