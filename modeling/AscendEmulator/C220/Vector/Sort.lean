/-
  AscendEmulator.C220.Vector.Sort — the sort of a vector repeat (`ops/sort.rs`).

  The introsort is written for any comparison `precedes`; the code passes it the width, and compares records by their
  value, then by their input lane. An index out of range, or one that falls below zero, is `none`.
-/

import AscendEmulator.Lib.Rounding

namespace AscendEmulator.C220.Vector

open Lib

/-! ## Values -/

inductive SortWidth where
  | f16 | f32
  deriving DecidableEq

/-- `fp16::to_f64` of a word that is neither an infinity nor a NaN: the product is exact. -/
def toF64 (bits : UInt16) : ℚ :=
  let sign : ℚ := if bits &&& 0x8000 = 0 then 1 else -1
  let exponent := ((bits &&& 0x7c00) >>> 10).toNat
  let fraction : ℚ := (bits &&& 0x03ff).toNat
  sign * if exponent = 0 then fraction * 2 ^ (-24 : ℤ) else (1024 + fraction) * 2 ^ ((exponent : ℤ) - 25)

namespace SortWidth

def sign : SortWidth → UInt32
  | f16 => 0x8000
  | f32 => 0x80000000

/-- The exponent bits: an infinity or a NaN has all of them. -/
def exponentMask : SortWidth → UInt32
  | f16 => 0x7c00
  | f32 => 0x7f800000

def isSpecial (width : SortWidth) (bits : UInt32) : Bool := bits &&& width.exponentMask == width.exponentMask

/-- `left > right` of two finite values, as floats. -/
def floatAbove : SortWidth → UInt32 → UInt32 → Bool
  | f16, left, right => decide (toF64 right.toUInt16 < toF64 left.toUInt16)
  | f32, left, right => decide (Format.binary32.value right.toNat < Format.binary32.value left.toNat)

end SortWidth

/-- `c220_sort_value_precedes`. -/
def sortValuePrecedes (width : SortWidth) (left right : UInt32) : Bool :=
  let sign := width.sign
  let leftZero := left &&& ~~~sign == 0
  let rightZero := right &&& ~~~sign == 0
  if left == right || leftZero && rightZero then false
  else
    match width.isSpecial left, width.isSpecial right with
    | true, false => left &&& sign == 0
    | false, true => right &&& sign != 0
    | true, true =>
      if left &&& sign != 0 && right &&& sign != 0 then decide (left < right) else decide (right.toInt32 < left.toInt32)
    | false, false => width.floatAbove left right

/-! ## Records -/

structure SortLaneOutcome where
  inputLane : UInt8
  valueBits : UInt32
  index : UInt32
  deriving DecidableEq

def compareRecords (width : SortWidth) (left right : SortLaneOutcome) : Ordering :=
  match sortValuePrecedes width left.valueBits right.valueBits, sortValuePrecedes width right.valueBits left.valueBits with
  | true, false => .lt
  | false, true => .gt
  | _, _ => compare left.inputLane.toNat right.inputLane.toNat

def recordPrecedes (width : SortWidth) (left right : SortLaneOutcome) : Bool := compareRecords width left right == .lt

/-! ## The introsort -/

namespace Introsort

variable {α : Type} (precedes : α → α → Bool)

/-- `records.swap(i, j)`. -/
def swap (records : List α) (i j : Nat) : Option (List α) := do
  let x ← records[i]?
  let y ← records[j]?
  some ((records.set i y).set j x)

def moveMedianToFirst (records : List α) (first middle last : Nat) : Option (List α) := do
  let f ← records[first]?
  let m ← records[middle]?
  let l ← records[last]?
  if precedes f m then
    if precedes m l then swap records 0 middle
    else if precedes f l then swap records 0 last
    else swap records 0 first
  else if precedes f l then swap records 0 first
  else if precedes m l then swap records 0 last
  else swap records 0 middle

/-- How far `first` moves: over the records that precede the pivot, from the head of the list on. -/
def scanUp (pivot : α) : List α → Option Nat
  | [] => none
  | x :: records => if precedes x pivot then (scanUp pivot records).map (· + 1) else some 0

/-- Where `last` ends: before it is decremented it is the argument, and it goes below the records the pivot precedes. -/
def scanDown (records : List α) (pivot : α) : Nat → Option Nat
  | 0 => none
  | last + 1 => do
    let x ← records[last]?
    if precedes pivot x then scanDown records pivot last else some last

/-- The turns of the partition, `fuel` of them at most. -/
def partitionLoop (pivot : α) : Nat → List α → Nat → Nat → Option (Nat × List α)
  | 0, _, _, _ => none
  | fuel + 1, records, first, last => do
    let steps ← scanUp precedes pivot (records.drop first)
    let first := first + steps
    let last ← scanDown precedes records pivot last
    if last ≤ first then some (first, records)
    else
      let records ← swap records first last
      partitionLoop pivot fuel records (first + 1) last

def unguardedPartitionPivot (records : List α) : Option (Nat × List α) := do
  let records ← moveMedianToFirst precedes records 1 (records.length / 2) (records.length - 1)
  let pivot ← records[0]?
  partitionLoop precedes pivot records.length records 1 records.length

/-- The turns of `sift_down`, `fuel` of them at most. -/
def siftLoop (last : Nat) : Nat → List α → Nat → Option (List α)
  | 0, _, _ => none
  | fuel + 1, records, root =>
    let left := root * 2 + 1
    if last ≤ left then some records
    else do
      let l ← records[left]?
      let right ← if left + 1 < last then records[left + 1]?.map some else some none
      let child := if right.any (precedes l) then left + 1 else left
      let x ← records[root]?
      let y ← records[child]?
      if !precedes x y then some records
      else
        let records ← swap records root child
        siftLoop last fuel records child

def siftDown (records : List α) (root last : Nat) : Option (List α) := siftLoop precedes last (last + 1) records root

def heapSort (records : List α) : Option (List α) := do
  let heap ← (List.range (records.length / 2)).reverse.foldlM (fun heap root =>
    siftDown precedes heap root records.length) records
  (List.range' 1 (records.length - 1)).reverse.foldlM (fun records last => do
    let records ← swap records 0 last
    siftDown precedes records 0 last) heap

/-- The right part is sorted first, with what is left of the depth, and then the left one. -/
def introsortLoop : Nat → List α → Option (List α)
  | 0, records => if 16 < records.length then heapSort precedes records else some records
  | depthLimit + 1, records =>
    if 16 < records.length then do
      let (cut, records) ← unguardedPartitionPivot precedes records
      if records.length < cut then none
      else
        let right ← introsortLoop depthLimit (records.drop cut)
        let left ← introsortLoop depthLimit (records.take cut)
        some (left ++ right)
    else some records

/-- The hole moves down to below the records that `value` precedes. -/
def shift (value : α) : Nat → List α → Option (List α)
  | 0, _ => none
  | hole + 1, records => do
    let x ← records[hole]?
    if precedes value x then shift value hole (records.set (hole + 1) x) else some (records.set (hole + 1) value)

def unguardedLinearInsert (records : List α) (index : Nat) : Option (List α) := do
  let value ← records[index]?
  shift precedes value index records

/-- A turn of `insertion_sort`: a record that precedes the first one goes before all that are sorted. -/
def insert (records : List α) (index : Nat) : Option (List α) := do
  let value ← records[index]?
  let first ← records[0]?
  if precedes value first then some (value :: (records.take index ++ records.drop (index + 1)))
  else unguardedLinearInsert precedes records index

def insertionSort (records : List α) : Option (List α) :=
  (List.range' 1 (records.length - 1)).foldlM (insert precedes) records

def finalInsertionSort (records : List α) : Option (List α) :=
  if 16 < records.length then do
    let front ← insertionSort precedes (records.take 16)
    (List.range' 16 (records.length - 16)).foldlM (unguardedLinearInsert precedes) (front ++ records.drop 16)
  else insertionSort precedes records

/-- `2 * (usize::BITS - len.leading_zeros() - 1)`. -/
def depthLimit (length : Nat) : Nat := 2 * Nat.log2 length

def sort (records : List α) : Option (List α) :=
  if records.length < 2 then some records
  else do
    let records ← introsortLoop precedes (depthLimit records.length) records
    finalInsertionSort precedes records

end Introsort

def sortRecords (width : SortWidth) (records : List SortLaneOutcome) : Option (List SortLaneOutcome) :=
  Introsort.sort (recordPrecedes width) records

end AscendEmulator.C220.Vector
