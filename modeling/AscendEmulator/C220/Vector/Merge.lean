/-
  AscendEmulator.C220.Vector.Merge — the merge of up to four lists of records in the unified buffer (`ops/merge.rs`).

  The host has room for the vectors of a merge. A write that fails leaves those before it: `executeMerge` returns the
  buffer with what it comes to.
-/

import AscendEmulator.C220.Vector.Sort
import AscendEmulator.Isa.Flow
import AscendEmulator.Lib.Word
import AscendEmulator.Memory.Ub

namespace AscendEmulator.C220.Vector

open Lib Outcome AscendEmulator.Memory
open AscendEmulator.Isa (XRegs field xregAt)

inductive MergeError where
  | unsupportedWord (pc : UInt64) (word : UInt32)
  | sourceAddressOverflow (sourceIndex base block : Nat)
  | addressOverflow (base lane : Nat)
  | invalidRepeatIndex (repeatIndex : Nat)
  | ub (e : UbMemoryError)
  deriving DecidableEq

/-- The record of a merge in bytes. -/
def recordBytes : Nat := 8

/-! ## Instruction and control -/

structure MergeInstruction where
  width : SortWidth
  destinationRegister : Nat
  sourcesRegister : Nat
  lengthsRegister : Nat
  controlRegister : Nat
  deriving DecidableEq

/-- `C220MergeInstruction::decode`. -/
def MergeInstruction.decode (word : UInt32) : Option MergeInstruction := do
  let registers : UInt32 := 0x003e0000 ||| 0x0001f000 ||| 0x00000f80 ||| 0x0000007c
  let width ← match word &&& ~~~registers with
    | 0x85400003 => some SortWidth.f16
    | 0x85c00003 => some SortWidth.f32
    | _ => none
  some { width
         destinationRegister := field word 17 0x1f
         sourcesRegister := field word 12 0x1f
         lengthsRegister := field word 7 0x1f
         controlRegister := field word 2 0x1f }

structure MergeControl where
  encodedRepeatCount : UInt8
  validLists : UInt8
  exhaustedSuspension : Bool
  deriving DecidableEq

/-- `C220MergeControl::decode`. -/
def MergeControl.decode (value : UInt64) : MergeControl where
  encodedRepeatCount := value.toUInt8
  validLists := ((value >>> 8) &&& 0xf).toUInt8
  exhaustedSuspension := value &&& ((1 : UInt64) <<< 12) != 0

structure MergeRepeat where
  sourceAddresses : Fin 4 → Nat
  destinationAddress : Nat

structure MergeIssue where
  pc : UInt64
  word : UInt32
  instruction : MergeInstruction
  control : MergeControl
  listLengths : Fin 4 → UInt16
  repeats : List MergeRepeat

/-- `list_is_active`, of the mask of valid lists. -/
def listIsActive (validLists : UInt8) (list : Fin 4) : Bool := validLists &&& (1 <<< UInt8.ofNat list) != 0

def activeLists (validLists : UInt8) : List (Fin 4) := (List.finRange 4).filter (listIsActive validLists)

namespace MergeIssue

variable (issue : MergeIssue)

def active (list : Fin 4) : Bool := listIsActive issue.control.validLists list

def maximumOutputRecords : Nat :=
  ((activeLists issue.control.validLists).map fun list => (issue.listLengths list).toNat).sum

end MergeIssue

def unpackU16x4 (value : UInt64) (list : Fin 4) : UInt16 := (value >>> UInt64.ofNat (16 * list)).toUInt16

/-! ## The plan -/

/-- `validate_repeat_ranges`: the last record of each range. -/
def validateRepeatRanges (ub : UbMemory) (validLists : UInt8) (lengths : Fin 4 → UInt16) (sources : Fin 4 → Nat)
    (destination repeatIndex : Nat) : Outcome MergeError Unit := do
  let _ ← (activeLists validLists).mapM fun list => (do
    let before ← Word.plainSubNat (lengths list).toNat 1
    let last ← okOr (.sourceAddressOverflow list (sources list) (lengths list).toNat)
      (checkedAdd (sources list) (before * recordBytes))
    mapErr .ub (ub.checkRange last recordBytes) : Outcome MergeError Unit)
  let records := ((activeLists validLists).map fun list => (lengths list).toNat).sum
  let before ← Word.plainSubNat records 1
  let last ← okOr (.addressOverflow destination repeatIndex) (checkedAdd destination (before * recordBytes))
  mapErr .ub (ub.checkRange last recordBytes)

/-- The count of repeats: none if an active list is empty, one with exhausted suspension, and more than one only of four
    lists of one length. -/
def mergeRepeatCount (control : MergeControl) (listLengths : Fin 4 → UInt16) : Nat :=
  let activeLengthsValid := (activeLists control.validLists).all fun list => listLengths list != 0
  if control.validLists == 0 || !activeLengthsValid then 0
  else if control.exhaustedSuspension then 1
  else if 1 < control.encodedRepeatCount.toNat &&
      (control.validLists != 0xf || !((List.finRange 4).all fun list => listLengths list == listLengths 0)) then 0
  else control.encodedRepeatCount.toNat

/-- The sources of a repeat: of several repeats, the four lists lie one after the other. -/
def mergeSources (packedSources : UInt64) (length repeatCount repeatIndex : Nat) : Outcome MergeError (Fin 4 → Nat) :=
  let fields := unpackU16x4 packedSources
  if 1 < repeatCount then do
    let base ← okOr (.sourceAddressOverflow 0 packedSources.toNat repeatIndex)
      (checkedAdd ((fields 0).toNat * recordBytes) (length * 32 * repeatIndex))
    let address (list : Fin 4) : Outcome MergeError Nat :=
      okOr (.sourceAddressOverflow list base repeatIndex) (checkedAdd base (length * recordBytes * list))
    let a ← address 0
    let b ← address 1
    let c ← address 2
    let d ← address 3
    .ok ![a, b, c, d]
  else .ok fun list => (fields list).toNat * recordBytes

/-- A turn of the loop of `plan_c220_merge_issue`. The products fit: a length has sixteen bits, an index eight. -/
def planMergeRepeat (ub : UbMemory) (control : MergeControl) (listLengths : Fin 4 → UInt16) (packedSources : UInt64)
    (destination repeatCount repeatIndex : Nat) : Outcome MergeError MergeRepeat := do
  let length := (listLengths 0).toNat
  let sourceAddresses ← mergeSources packedSources length repeatCount repeatIndex
  let destinationAddress ← okOr (.addressOverflow destination repeatIndex)
    (checkedAdd destination (length * 32 * repeatIndex))
  validateRepeatRanges ub control.validLists listLengths sourceAddresses destinationAddress repeatIndex
  .ok { sourceAddresses, destinationAddress }

/-- `plan_c220_merge_issue`. -/
def planMergeIssue (pc : UInt64) (word : UInt32) (registers : XRegs) (ub : UbMemory) :
    Outcome MergeError MergeIssue := do
  let instruction ← okOr (.unsupportedWord pc word) (MergeInstruction.decode word)
  let packedSources ← xregAt registers instruction.sourcesRegister
  let packedLengths ← xregAt registers instruction.lengthsRegister
  let destination ← xregAt registers instruction.destinationRegister
  let controlWord ← xregAt registers instruction.controlRegister
  let control := MergeControl.decode controlWord
  let listLengths := unpackU16x4 packedLengths
  let repeatCount := mergeRepeatCount control listLengths
  let repeats ← (List.range repeatCount).mapM
    (planMergeRepeat ub control listLengths packedSources destination.toNat repeatCount)
  .ok { pc, word, instruction, control, listLengths, repeats }

/-! ## Records -/

structure MergeRecord where
  sourceList : Fin 4
  sourceIndex : Nat
  keyBits : UInt32
  bytes : List UInt8
  deriving DecidableEq

/-- The key of a record: its first two bytes, or its first four. -/
def keyOf (width : SortWidth) (bytes : List UInt8) : UInt32 :=
  match width with
  | .f16 => (Word.fromLeBytes (bytes.take 2)).toUInt32
  | .f32 => (Word.fromLeBytes (bytes.take 4)).toUInt32

def loadMergeRecord (width : SortWidth) (ub : UbMemory) (source : Nat) (list : Fin 4) (sourceIndex : Nat) :
    Outcome MergeError MergeRecord := do
  let address ← okOr (.sourceAddressOverflow list source sourceIndex) (checkedAdd source (recordBytes * sourceIndex))
  let bytes ← mapErr .ub (ub.readKnown address recordBytes)
  .ok { sourceList := list, sourceIndex, keyBits := keyOf width bytes, bytes }

/-- The lists of a repeat. -/
abbrev MergeLists := Fin 4 → List MergeRecord

/-- `load_c220_merge_repeat`. -/
def loadMergeRepeat (issue : MergeIssue) (repeatIndex : Nat) (ub : UbMemory) : Outcome MergeError MergeLists := do
  let «repeat» ← okOr (.invalidRepeatIndex repeatIndex) issue.repeats[repeatIndex]?
  let load (list : Fin 4) : Outcome MergeError (List MergeRecord) :=
    if issue.active list then
      (List.range (issue.listLengths list).toNat).mapM
        (loadMergeRecord issue.instruction.width ub («repeat».sourceAddresses list) list)
    else .ok []
  let a ← load 0
  let b ← load 1
  let c ← load 2
  let d ← load 3
  .ok ![a, b, c, d]

/-- `merge_record_precedes`. -/
def mergeRecordPrecedes (width : SortWidth) (left right : MergeRecord) : Bool :=
  match sortValuePrecedes width left.keyBits right.keyBits, sortValuePrecedes width right.keyBits left.keyBits with
  | true, false => true
  | false, true => false
  | _, _ => decide (left.sourceList < right.sourceList)

/-! ## The merge -/

structure MergeRepeatResult where
  consumed : Fin 4 → Nat
  recordsWritten : Nat

structure MergeResult where
  repeats : List MergeRepeatResult
  status : UInt64

/-- The records next in their lists. -/
def mergeHeads (lists : MergeLists) (consumed : Fin 4 → Nat) : List MergeRecord :=
  (List.finRange 4).filterMap fun list => (lists list)[consumed list]?

/-- `reduce` with the earlier of two. -/
def mergeWinner (width : SortWidth) : List MergeRecord → Option MergeRecord
  | [] => none
  | first :: rest =>
    some (rest.foldl (fun left right => if mergeRecordPrecedes width left right then left else right) first)

/-- The bytes of a record as they are written: those between a binary16 key and the payload are zero. -/
def writtenBytes (width : SortWidth) (record : MergeRecord) : List UInt8 :=
  match width with
  | .f16 => (record.bytes.set 2 0).set 3 0
  | .f32 => record.bytes

def packStatus (consumed : Fin 4 → Nat) : UInt64 :=
  (List.finRange 4).foldl (fun status list =>
    status ||| (UInt64.ofNat (consumed list) <<< UInt64.ofNat (16 * list))) 0

/-- `consumed[list] += 1`, of `u16`. -/
def consume (consumed : Fin 4 → Nat) (list : Fin 4) : Outcome MergeError (Fin 4 → Nat) :=
  expect (if consumed list + 1 < 2 ^ 16 then some (Function.update consumed list (consumed list + 1)) else none)

/-- Where the loop of a repeat stands. -/
structure MergeState where
  consumed : Fin 4 → Nat
  recordsWritten : Nat
  ub : UbMemory

/-- The write of a record, and what is consumed after it. -/
def writeRecord (width : SortWidth) (destination : Nat) (s : MergeState) (record : MergeRecord) :
    Outcome MergeError UbMemory := do
  let address ← okOr (.addressOverflow destination s.recordsWritten)
    (checkedAdd destination (s.recordsWritten * recordBytes))
  mapErr .ub (s.ub.writeStates address ((writtenBytes width record).map .known))

/-- The loop of a repeat, `fuel` turns at most. It returns the status if the repeat is suspended. -/
def mergeLoop (width : SortWidth) (exhaustedSuspension : Bool) (destination : Nat) (lists : MergeLists) :
    Nat → MergeState → Outcome MergeError (MergeRepeatResult × Option UInt64) × UbMemory
  | 0, s => (panicked, s.ub)
  | fuel + 1, s =>
    match mergeWinner width (mergeHeads lists s.consumed) with
    | none => (.ok (⟨s.consumed, s.recordsWritten⟩, none), s.ub)
    | some record =>
      match writeRecord width destination s record with
      | .error e => (.error e, s.ub)
      | .ok ub =>
        match consume s.consumed record.sourceList with
        | .error e => (.error e, ub)
        | .ok consumed =>
          if exhaustedSuspension && consumed record.sourceList == (lists record.sourceList).length then
            (.ok (⟨consumed, s.recordsWritten + 1⟩, some (packStatus consumed)), ub)
          else mergeLoop width exhaustedSuspension destination lists fuel ⟨consumed, s.recordsWritten + 1, ub⟩

/-- A repeat: all its lists are read before its first write. -/
def executeMergeRepeat (issue : MergeIssue) (repeatIndex : Nat) («repeat» : MergeRepeat) (ub : UbMemory) :
    Outcome MergeError (MergeRepeatResult × Option UInt64) × UbMemory :=
  match loadMergeRepeat issue repeatIndex ub with
  | .error e => (.error e, ub)
  | .ok lists =>
    mergeLoop issue.instruction.width issue.control.exhaustedSuspension «repeat».destinationAddress lists
      (issue.maximumOutputRecords + 1) ⟨fun _ => 0, 0, ub⟩

/-- The repeats from `repeatIndex` on. -/
def executeMergeFrom (issue : MergeIssue) : Nat → List MergeRepeat → MergeResult → UbMemory →
    Outcome MergeError MergeResult × UbMemory
  | _, [], result, ub => (.ok result, ub)
  | repeatIndex, «repeat» :: repeats, result, ub =>
    match executeMergeRepeat issue repeatIndex «repeat» ub with
    | (.error e, ub) => (.error e, ub)
    | (.ok (done, status), ub) =>
      executeMergeFrom issue (repeatIndex + 1) repeats ⟨result.repeats ++ [done], status.getD result.status⟩ ub

/-- `execute_c220_merge`. -/
def executeMerge (issue : MergeIssue) (ub : UbMemory) : Outcome MergeError MergeResult × UbMemory :=
  executeMergeFrom issue 0 issue.repeats ⟨[], 0⟩ ub

end AscendEmulator.C220.Vector
