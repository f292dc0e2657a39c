/-
  AscendEmulator.Image.Loader — loading the image of a device ELF into HBM, and fetching the words of the
  loaded kernel (`load_named_kernel`, `fetch_executable_word`).
-/

import AscendEmulator.Image.Elf
import AscendEmulator.Memory.PvMemory

namespace AscendEmulator.Image

open Lib Outcome Memory

def codeAlignment : Nat := 4096

structure DeviceBinaryPlacement where
  architecture : Architecture
  alignedCodeAddress : Nat
  allocationBase : Nat
  allocationBytes : Nat
  imageBytes : Nat

structure LoadedDeviceKernel where
  placement : DeviceBinaryPlacement
  kernel : DeviceKernelSummary
  entryAddress : Nat
  executableStartAddress : Nat

inductive DeviceBinaryLoadError where
  | invalidImageSize
  | allocationSizeOverflow
  | allocation (e : HbmResolveError)
  | memory (e : HbmPvMemoryError)

inductive DeviceKernelLoadError where
  | elf (e : DeviceElfError)
  | binary (e : DeviceBinaryLoadError)

inductive DeviceKernelFetchError where
  | architectureMismatch
  | unalignedPc (pc : Nat)
  | outsideExecutableSection (pc : Nat)
  | imageAllocationChanged
  | allocation (e : HbmResolveError)
  | memory (e : HbmPvMemoryError)

/-- A call on the memory that gives an allocation back where it fails. -/
def freeOnError {ε α : Type} (pointer : Nat) (wrap : HbmPvMemoryError → ε) (c : Call HbmPvMemory (Fault ε) α) :
    Call HbmPvMemory (Fault ε) α := fun m =>
  match c m with
  | (.ok a, m) => (.ok a, m)
  | (.error .panicked, m) => (panicked, m)
  | (.error (.returned e), m) =>
    match m.free pointer with
    | (.ok (), m) => (fail e, m)
    | (.error e', m) => (mapErr wrap (.error e'), m)

/-- Copies the image to the first aligned address of its allocation. -/
def placeImage (image : DeviceLoadImage) (allocationBase allocationBytes : Nat) :
    Call HbmPvMemory (Fault DeviceBinaryLoadError) DeviceBinaryPlacement := fun m =>
  match checkedAdd allocationBase (codeAlignment - 1) with
  | none => (fail .allocationSizeOverflow, m)
  | some last =>
    let alignedCodeAddress := last / codeAlignment * codeAlignment
    match mapErr .allocation (m.allocator.resolveLive alignedCodeAddress image.bytes.length) with
    | .error e => (.error e, m)
    | .ok _ =>
      match m.hostToDevice alignedCodeAddress image.bytes with
      | (.error e, m) => (mapErr .memory (.error e), m)
      | (.ok (), m) => (.ok {
          architecture := m.architecture
          alignedCodeAddress, allocationBase, allocationBytes
          imageBytes := image.bytes.length }, m)

def loadImage (image : DeviceLoadImage) (reserved : Bool) :
    Call HbmPvMemory (Fault DeviceBinaryLoadError) DeviceBinaryPlacement := fun m =>
  if image.bytes.length = 0 then (fail .invalidImageSize, m)
  else
    match checkedAdd image.bytes.length (codeAlignment - 1) with
    | none => (fail .allocationSizeOverflow, m)
    | some allocationBytes =>
      match m.allocate allocationBytes reserved with
      | (.error e, m) => (mapErr .memory (.error e), m)
      | (.ok allocationBase, m) =>
        freeOnError allocationBase .memory (placeImage image allocationBase allocationBytes) m

/-- The entry of the kernel and the start of its section. -/
def loadedAddresses (kernel : DeviceKernelSummary) (alignedCodeAddress : Nat) : ElfResult (Nat × Nat) := do
  let entry ← okOr .deviceAddressOverflow (checkedAdd alignedCodeAddress kernel.virtualAddress)
  let stop ← okOr .deviceAddressOverflow (checkedAdd entry kernel.byteCount)
  let start ← okOr .deviceAddressOverflow (checkedAdd alignedCodeAddress kernel.sectionVirtualAddress)
  let sectionEnd ← okOr .deviceAddressOverflow (checkedAdd start kernel.sectionByteCount)
  let _ ← failIf (decide (sectionEnd < stop)) .invalidKernelRange
  .ok (entry, start)

/-- `reserved`: the host can grow the allocator's span list. -/
def loadNamedKernel (elf : DeviceElf) (kernelName : String) (reserved : Bool) :
    Call HbmPvMemory (Fault DeviceKernelLoadError) LoadedDeviceKernel := fun m =>
  match mapErr .elf (elf.loadableKernel kernelName) with
  | .error e => (.error e, m)
  | .ok kernel =>
    match mapErr .elf elf.loadImage with
    | .error e => (.error e, m)
    | .ok image =>
      match loadImage image reserved m with
      | (.error e, m) => (mapErr .binary (.error e), m)
      | (.ok placement, m) =>
        freeOnError placement.allocationBase (fun e => .binary (.memory e))
          (fun m => ((mapErr .elf (loadedAddresses kernel placement.alignedCodeAddress)).map fun addresses =>
            { placement, kernel, entryAddress := addresses.1, executableStartAddress := addresses.2 }, m)) m

def LoadedDeviceKernel.fetchExecutableWord (loaded : LoadedDeviceKernel) (pc : Nat) (m : HbmPvMemory) :
    Outcome DeviceKernelFetchError Nat := do
  let _ ← failIf (m.architecture != loaded.placement.architecture) .architectureMismatch
  let relative ← okOr (.outsideExecutableSection pc)
    (if loaded.executableStartAddress ≤ pc then some (pc - loaded.executableStartAddress) else none)
  let _ ← failIf (pc % 4 != 0) (.unalignedPc pc)
  let _ ← failIf ((checkedAdd relative 4).all fun stop => decide (loaded.kernel.sectionByteCount < stop))
    (.outsideExecutableSection pc)
  let span ← mapErr .allocation (m.allocator.resolveLive pc 4)
  let _ ← failIf (span.allocationBase != loaded.placement.allocationBase) .imageAllocationChanged
  let bytes ← mapErr .memory (m.deviceToHost pc 4)
  .ok (leValue bytes)

end AscendEmulator.Image
