/-
  AscendEmulator.Image.Elf — the device ELF reader (`DeviceElf`): sections, the load image and the kernels.

  A file is a list of bytes; offsets and sizes are `u64` and `usize` (both 64 bits). Indexing and
  `expect` panic where the source's do.
-/

import AscendEmulator.Lib.Outcome

namespace AscendEmulator.Image

open Lib Outcome

def elfHeaderSize : Nat := 64
def sectionHeaderSize : Nat := 64
def symbolSize : Nat := 24
def ascendMachine : Nat := 0x1029
def shtProgbits : Nat := 1
def shtSymtab : Nat := 2
def shtStrtab : Nat := 3
def shfAlloc : Nat := 2
def shfExecinstr : Nat := 4
def sttFunc : Nat := 2

structure DeviceElfHeader where
  fileType : Nat
  machine : Nat
  flags : Nat
  sectionCount : Nat

structure DeviceKernelSummary where
  name : String
  «section» : String
  sectionVirtualAddress : Nat
  sectionFileOffset : Nat
  sectionByteCount : Nat
  virtualAddress : Nat
  fileOffset : Nat
  byteCount : Nat

structure DeviceKernel where
  summary : DeviceKernelSummary
  bytes : List UInt8

structure DeviceLoadImage where
  fileOffset : Nat
  bytes : List UInt8

structure SectionHeader where
  nameOffset : Nat
  sectionType : Nat
  flags : Nat
  address : Nat
  fileOffset : Nat
  byteCount : Nat
  link : Nat
  entrySize : Nat

structure DeviceElf where
  bytes : List UInt8
  header : DeviceElfHeader
  sections : List SectionHeader
  sectionNames : List String

inductive DeviceElfError where
  | tooShort
  | unsupportedFormat
  | unsupportedFileType (fileType : Nat)
  | unexpectedMachine (machine : Nat)
  | unsupportedSectionTable
  | outOfBounds
  | rangeOverflow
  | invalidStringTable
  | invalidSymbolTable
  | invalidKernelRange
  | deviceAddressOverflow
  | nonlinearKernelCopyMapping
  | kernelOutsideLoadImage
  | unalignedInstructionAddress (address : Nat)
  | noLoadImage
  | unorderedLoadImageSections
  | ambiguousZeroOffsetLoadImage
  | unalignedKernelSize (bytes : Nat)
  | kernelNotFound (name : String)
  | ambiguousKernel (name : String)
  deriving DecidableEq

abbrev ElfResult := Outcome DeviceElfError

/-! ## Fields -/

/-- `bytes.get(start..stop)`. -/
def getRange (bytes : List UInt8) (start stop : Nat) : Option (List UInt8) :=
  if start ≤ stop ∧ stop ≤ bytes.length then some ((bytes.drop start).take (stop - start)) else none

def checkedSlice (bytes : List UInt8) (offset length : Nat) : ElfResult (List UInt8) := do
  let stop ← okOr .rangeOverflow (checkedAdd offset length)
  okOr .outOfBounds (getRange bytes offset stop)

/-- `from_le_bytes`. -/
def leValue (bytes : List UInt8) : Nat := Nat.ofDigits 256 (bytes.map UInt8.toNat)

def readLe (size : Nat) (bytes : List UInt8) (offset : Nat) : ElfResult Nat :=
  (okOr .outOfBounds (getRange bytes offset (offset + size))).map leValue

def readU16 : List UInt8 → Nat → ElfResult Nat := readLe 2
def readU32 : List UInt8 → Nat → ElfResult Nat := readLe 4
def readU64 : List UInt8 → Nat → ElfResult Nat := readLe 8

/-- The bytes up to the first zero. -/
def readCString (bytes : List UInt8) (offset : Nat) : ElfResult (List UInt8) := do
  let rest ← okOr .invalidStringTable (getRange bytes offset bytes.length)
  let length ← okOr .invalidStringTable (rest.findIdx? (· == 0))
  .ok (rest.take length)

/-! ### Text -/

def isTail (b : UInt8) : Bool := 0x80 ≤ b && b ≤ 0xBF

/-- The second byte that a three-byte character may have after `first`. -/
def secondOfThree (first second : UInt8) : Bool :=
  if first == 0xE0 then 0xA0 ≤ second && second ≤ 0xBF
  else if first == 0xED then 0x80 ≤ second && second ≤ 0x9F
  else isTail second

/-- The second byte that a four-byte character may have after `first`. -/
def secondOfFour (first second : UInt8) : Bool :=
  if first == 0xF0 then 0x90 ≤ second && second ≤ 0xBF
  else if first == 0xF4 then 0x80 ≤ second && second ≤ 0x8F
  else isTail second

/-- The size of the character at the head, or of the bytes that one replacement character stands for. -/
def lossyStep (bytes : List UInt8) : Bool × Nat :=
  match bytes with
  | [] => (true, 0)
  | first :: rest =>
    let tailAt (i : Nat) : Bool := (rest[i]?).any isTail
    if first ≤ 0x7F then (true, 1)
    else if 0xC2 ≤ first && first ≤ 0xDF then if tailAt 0 then (true, 2) else (false, 1)
    else if 0xE0 ≤ first && first ≤ 0xEF then
      if !(rest[0]?).any (secondOfThree first) then (false, 1)
      else if !tailAt 1 then (false, 2) else (true, 3)
    else if 0xF0 ≤ first && first ≤ 0xF4 then
      if !(rest[0]?).any (secondOfFour first) then (false, 1)
      else if !tailAt 1 then (false, 2)
      else if !tailAt 2 then (false, 3) else (true, 4)
    else (false, 1)

/-- The code point of the bytes of one character. -/
def codePoint : List UInt8 → Char
  | [a] => Char.ofNat a.toNat
  | [a, b] => Char.ofNat ((a.toNat % 32) * 64 + b.toNat % 64)
  | [a, b, c] => Char.ofNat (((a.toNat % 16) * 64 + b.toNat % 64) * 64 + c.toNat % 64)
  | [a, b, c, d] => Char.ofNat ((((a.toNat % 8) * 64 + b.toNat % 64) * 64 + c.toNat % 64) * 64 + d.toNat % 64)
  | _ => Char.ofNat 0xFFFD

def lossyChars : Nat → List UInt8 → List Char
  | 0, _ => []
  | turns + 1, bytes =>
    if bytes.isEmpty then []
    else
      let (valid, size) := lossyStep bytes
      (if valid then codePoint (bytes.take size) else Char.ofNat 0xFFFD) :: lossyChars turns (bytes.drop size)

/-- `String::from_utf8_lossy`: a replacement character for each maximal ill-formed part. -/
def fromUtf8Lossy (bytes : List UInt8) : String := String.ofList (lossyChars bytes.length bytes)

/-! ## The file -/

def readSection (bytes : List UInt8) (tableOffset index : Nat) : ElfResult SectionHeader := do
  let offset ← okOr .rangeOverflow (checkedAdd tableOffset (index * sectionHeaderSize))
  let record ← checkedSlice bytes offset sectionHeaderSize
  let nameOffset ← readU32 record 0
  let sectionType ← readU32 record 4
  let flags ← readU64 record 8
  let address ← readU64 record 16
  let fileOffset ← readU64 record 24
  let byteCount ← readU64 record 32
  let link ← readU32 record 40
  let entrySize ← readU64 record 56
  .ok { nameOffset, sectionType, flags, address, fileOffset, byteCount, link, entrySize }

/-- The identification bytes of a little-endian 64-bit file of version 1. -/
def checkFormat (bytes : List UInt8) : ElfResult Unit := do
  let magic ← expect (getRange bytes 0 4)
  let cls ← expect bytes[4]?
  let data ← expect bytes[5]?
  let version ← expect bytes[6]?
  failIf (magic != [0x7f, 0x45, 0x4c, 0x46] || cls != 2 || data != 1 || version != 1) .unsupportedFormat

def parse (bytes : List UInt8) : ElfResult DeviceElf := do
  let _ ← failIf (decide (bytes.length < elfHeaderSize)) .tooShort
  let _ ← checkFormat bytes
  let elfVersion ← readU32 bytes 20
  let _ ← failIf (elfVersion != 1) .unsupportedFormat
  let headerSize ← readU16 bytes 52
  let _ ← failIf (headerSize != elfHeaderSize) .unsupportedFormat
  let fileType ← readU16 bytes 16
  let _ ← failIf (fileType != 1 && fileType != 2) (.unsupportedFileType fileType)
  let machine ← readU16 bytes 18
  let _ ← failIf (machine != ascendMachine) (.unexpectedMachine machine)
  let sectionTableOffset ← readU64 bytes 40
  let flags ← readU32 bytes 48
  let headerBytes ← readU16 bytes 58
  let sectionCount ← readU16 bytes 60
  let sectionNamesIndex ← readU16 bytes 62
  let _ ← failIf (headerBytes != sectionHeaderSize || sectionCount == 0 || sectionNamesIndex == 0xffff ||
    decide (sectionCount ≤ sectionNamesIndex)) .unsupportedSectionTable
  let _ ← checkedSlice bytes sectionTableOffset (sectionCount * sectionHeaderSize)
  let sections ← (List.range sectionCount).mapM (readSection bytes sectionTableOffset)
  let namesSection ← expect sections[sectionNamesIndex]?
  let _ ← failIf (namesSection.sectionType != shtStrtab) .invalidStringTable
  let names ← checkedSlice bytes namesSection.fileOffset namesSection.byteCount
  let sectionNames ← sections.mapM fun s => (readCString names s.nameOffset).map fromUtf8Lossy
  .ok { bytes, header := { fileType, machine, flags, sectionCount }, sections, sectionNames }

namespace DeviceElf

/-! ## The load image -/

/-- The first offset and the last range of the nonempty allocated sections. -/
def loadSpan : List SectionHeader → Option Nat → Option (Nat × Nat) → ElfResult (Option Nat × Option (Nat × Nat))
  | [], first, last => .ok (first, last)
  | s :: rest, first, last =>
    if s.flags &&& shfAlloc == 0 || s.byteCount == 0 then loadSpan rest first last
    else do
      let _ ← failIf (first == some 0) .ambiguousZeroOffsetLoadImage
      let stop ← okOr .rangeOverflow (checkedAdd s.fileOffset s.byteCount)
      let _ ← failIf (last.any fun previous => decide (s.fileOffset < previous.1) || decide (stop < previous.2))
        .unorderedLoadImageSections
      loadSpan rest (first.or (some s.fileOffset)) (some (s.fileOffset, stop))

def loadImage (elf : DeviceElf) : ElfResult DeviceLoadImage := do
  let (first, last) ← loadSpan elf.sections none none
  let fileOffset ← okOr .noLoadImage first
  let (_, stop) ← expect last
  let byteCount ← okOr .unorderedLoadImageSections (if fileOffset ≤ stop then some (stop - fileOffset) else none)
  let bytes ← checkedSlice elf.bytes fileOffset byteCount
  .ok { fileOffset, bytes }

/-! ## Kernels -/

/-- `chunks_exact`. -/
def chunksExact (size : Nat) (bytes : List UInt8) : List (List UInt8) :=
  (List.range (bytes.length / size)).map fun index => (bytes.drop (index * size)).take size

/-- The checks of a function symbol in an executable section. -/
def kernelRange (elf : DeviceElf) (codeSection : SectionHeader) (virtualAddress byteCount : Nat) : ElfResult Nat := do
  let _ ← okOr .rangeOverflow (checkedAdd virtualAddress byteCount)
  let relative ← okOr .invalidKernelRange
    (if codeSection.address ≤ virtualAddress then some (virtualAddress - codeSection.address) else none)
  let relativeEnd ← okOr .rangeOverflow (checkedAdd relative byteCount)
  let _ ← failIf (decide (codeSection.byteCount < relativeEnd)) .invalidKernelRange
  let fileOffset ← okOr .rangeOverflow (checkedAdd codeSection.fileOffset relative)
  let _ ← checkedSlice elf.bytes fileOffset byteCount
  .ok fileOffset

/-- The kernel a symbol names, if it names one. -/
def symbolKernel (elf : DeviceElf) (stringBytes symbol : List UInt8) : ElfResult (Option DeviceKernelSummary) := do
  let info ← expect symbol[4]?
  if (info &&& 0xf).toNat != sttFunc then .ok none
  else do
    let nameOffset ← readU32 symbol 0
    if nameOffset = 0 then .ok none
    else do
      let sectionIndex ← readU16 symbol 6
      match elf.sections[sectionIndex]? with
      | none => .ok none
      | some codeSection =>
        if codeSection.sectionType != shtProgbits || codeSection.flags &&& shfExecinstr == 0 then .ok none
        else do
          let byteCount ← readU64 symbol 16
          if byteCount = 0 then .ok none
          else do
            let virtualAddress ← readU64 symbol 8
            let fileOffset ← elf.kernelRange codeSection virtualAddress byteCount
            let nameBytes ← readCString stringBytes nameOffset
            let sectionName ← expect elf.sectionNames[sectionIndex]?
            .ok (some {
              name := fromUtf8Lossy nameBytes
              «section» := sectionName
              sectionVirtualAddress := codeSection.address
              sectionFileOffset := codeSection.fileOffset
              sectionByteCount := codeSection.byteCount
              virtualAddress, fileOffset, byteCount })

/-- The kernels of one section: none, unless it is a symbol table. -/
def sectionKernels (elf : DeviceElf) (s : SectionHeader) : ElfResult (List DeviceKernelSummary) :=
  if s.sectionType != shtSymtab then .ok []
  else do
    let _ ← failIf (s.entrySize != symbolSize || s.byteCount % symbolSize != 0) .invalidSymbolTable
    let stringSection ← okOr .invalidSymbolTable elf.sections[s.link]?
    let _ ← failIf (stringSection.sectionType != shtStrtab) .invalidSymbolTable
    let stringBytes ← checkedSlice elf.bytes stringSection.fileOffset stringSection.byteCount
    let symbolBytes ← checkedSlice elf.bytes s.fileOffset s.byteCount
    let found ← (chunksExact symbolSize symbolBytes).mapM (elf.symbolKernel stringBytes)
    .ok (found.filterMap id)

def kernels (elf : DeviceElf) : ElfResult (List DeviceKernelSummary) := do
  let found ← elf.sections.mapM elf.sectionKernels
  .ok found.flatten

def kernel (elf : DeviceElf) (name : String) : ElfResult DeviceKernel := do
  let found ← elf.kernels
  let named := found.filter (·.name == name)
  let summary ← okOr (.kernelNotFound name) named.head?
  let _ ← failIf (!named.tail.isEmpty) (.ambiguousKernel name)
  let _ ← failIf (summary.byteCount % 4 != 0) (.unalignedKernelSize summary.byteCount)
  let bytes ← checkedSlice elf.bytes summary.fileOffset summary.byteCount
  .ok { summary, bytes }

/-- `a.checked_sub(b)`, which has to be `address`. -/
def linearOffset (offset imageOffset address : Nat) : ElfResult Nat := do
  let relative ← okOr .nonlinearKernelCopyMapping (if imageOffset ≤ offset then some (offset - imageOffset) else none)
  let _ ← failIf (relative != address) .nonlinearKernelCopyMapping
  .ok relative

def loadableKernel (elf : DeviceElf) (name : String) : ElfResult DeviceKernelSummary := do
  let image ← elf.loadImage
  let kernel ← elf.kernel name
  let k := kernel.summary
  let _ ← failIf (k.virtualAddress % 4 != 0) (.unalignedInstructionAddress k.virtualAddress)
  let kernelOffset ← linearOffset k.fileOffset image.fileOffset k.virtualAddress
  let sectionOffset ← linearOffset k.sectionFileOffset image.fileOffset k.sectionVirtualAddress
  let _ ← mapErr (fun _ => .kernelOutsideLoadImage) (checkedSlice image.bytes sectionOffset k.sectionByteCount)
  let _ ← mapErr (fun _ => .kernelOutsideLoadImage) (checkedSlice image.bytes kernelOffset k.byteCount)
  .ok k

end DeviceElf

end AscendEmulator.Image
