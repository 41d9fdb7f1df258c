import AlvOS.Lib.Bitmap
import AlvOS.Lib.Word

/-! The physical memory manager of memory.c: the recorded memory map, the frame
bitmap, its initialisation, and allocation and release of one or many frames. -/

namespace AlvOS.Memory
open Word

def pageSize : Nat := 4096
def memoryMapSize : Nat := 256

/-- `MULTIBOOT_MEMORY_AVAILABLE`. -/
def memoryAvailable : Nat := 1

structure MemoryMapEntry where
  baseAddr : Nat
  length : Nat
  type : Nat
  baseAddr_lt : baseAddr < 2 ^ 64
  length_lt : length < 2 ^ 64
  type_lt : type < 2 ^ 32

/-- The static `memory_info`; `count` is the length of the list. -/
structure MemoryInfo where
  entries : List MemoryMapEntry
  totalMemory : Nat
  availableMemory : Nat
  count_le : entries.length ≤ memoryMapSize

structure Region where
  base : Nat
  size : Nat
  base_lt : base < 2 ^ 64
  size_lt : size < 2 ^ 64

/-- The static variables of the allocator.  The bitmap is given by its words; every
frame number is below `2 ^ 52`. -/
structure Pmm where
  bitmap : Bitmap.Words 32
  bitmapAddr : Nat
  bitmapSize : Nat
  totalFrames : Nat
  usedFrames : Nat
  reservedFrames : Nat
  memoryBase : Nat
  memorySize : Nat
  memoryBase_lt : memoryBase < 2 ^ 64
  memorySize_lt : memorySize < 2 ^ 64
  totalFrames_eq : totalFrames = memorySize / pageSize

namespace Pmm

/-- `pmm_used_frames += count`. -/
def addUsed (p : Pmm) (count : Nat) : Pmm := { p with usedFrames := u64 (p.usedFrames + count) }

/-- `if (pmm_used_frames > 0) pmm_used_frames--`. -/
def dropUsed (p : Pmm) : Pmm :=
  { p with usedFrames := if 0 < p.usedFrames then p.usedFrames - 1 else p.usedFrames }

/-- `pmm_reserved_frames += count`. -/
def addReserved (p : Pmm) (count : Nat) : Pmm :=
  { p with reservedFrames := u64 (p.reservedFrames + count) }

end Pmm

def testFrame (p : Pmm) (frameIndex : Nat) : Bool :=
  if p.totalFrames ≤ frameIndex then true else Bitmap.test p.bitmap frameIndex

def setFrame (p : Pmm) (frameIndex : Nat) : Pmm :=
  if p.totalFrames ≤ frameIndex then p
  else { p with bitmap := Bitmap.set p.bitmap frameIndex }

def clearFrame (p : Pmm) (frameIndex : Nat) : Pmm :=
  if p.totalFrames ≤ frameIndex then p
  else { p with bitmap := Bitmap.clear p.bitmap frameIndex }

/-- The loop for a single frame, with the iterations that are left. -/
def findFrame (p : Pmm) : Nat → Nat → Int
  | 0, _ => -1
  | left + 1, i => if testFrame p i = false then i else findFrame p left (i + 1)

def findRun (p : Pmm) (count : Nat) : Nat → Nat → Nat → Nat → Int
  | 0, _, _, _ => -1
  | left + 1, i, contiguous, start =>
    if testFrame p i = false then
      let start := if contiguous = 0 then i else start
      let contiguous := contiguous + 1
      if contiguous = count then start else findRun p count left (i + 1) contiguous start
    else findRun p count left (i + 1) 0 start

def findContiguousFrames (p : Pmm) (count : Nat) : Int :=
  if count = 0 then -1
  else if count = 1 then findFrame p p.totalFrames 0
  else findRun p count p.totalFrames 0 0 0

/-- What is left of an available entry above 2 MiB; `none` where the loop continues. -/
def aboveKernel (e : MemoryMapEntry) : Option (Nat × Nat) :=
  if e.baseAddr < 0x200000 then
    if 0x200000 - e.baseAddr < e.length then
      some (0x200000, e.length - (0x200000 - e.baseAddr))
    else none
  else some (e.baseAddr, e.length)

def findBitmapLocation (bitmapSize : Nat) : List MemoryMapEntry → Nat
  | [] => 0x200000
  | e :: entries =>
    if e.type = memoryAvailable then
      match aboveKernel e with
      | some (base, length) =>
        if u64 (bitmapSize + 2 * pageSize) ≤ length then u64 (base + pageSize)
        else findBitmapLocation bitmapSize entries
      | none => findBitmapLocation bitmapSize entries
    else findBitmapLocation bitmapSize entries

/-- `pmm_set_frame(frame); pmm_used_frames++` for `count` frames from `start`. -/
def markFrames (p : Pmm) (start : Nat) : Nat → Pmm
  | 0 => p
  | count + 1 =>
    (setFrame (markFrames p start count) (start + count)).addUsed 1

def markEntry (p : Pmm) (e : MemoryMapEntry) : Pmm :=
  if e.type ≠ memoryAvailable then
    if p.memoryBase ≤ e.baseAddr ∧ e.baseAddr < u64 (p.memoryBase + p.memorySize) then
      let startFrame := (e.baseAddr - p.memoryBase) / pageSize
      let endFrame := startFrame + u64 (e.length + (pageSize - 1)) / pageSize
      let endFrame := if p.totalFrames < endFrame then p.totalFrames else endFrame
      markFrames p startFrame (endFrame - startFrame)
    else p
  else p

/-- A frame is counted only if it was not marked before. -/
def reserveFrame (p : Pmm) (frame : Nat) : Pmm :=
  if testFrame p frame = false then (setFrame p frame).addUsed 1 else p

def reserveBitmap (p : Pmm) (start : Nat) : Nat → Pmm
  | 0 => p
  | count + 1 =>
    let p := reserveBitmap p start count
    let frame := u64 (start + count)
    if frame < p.totalFrames then reserveFrame p frame else p

def reserveKernel (p : Pmm) : Nat → Pmm
  | 0 => p
  | count + 1 => reserveFrame (reserveKernel p count) count

def bitmapWords (memorySize : Nat) : Nat := (memorySize / pageSize + 31) / 32

def kernelFrames : Nat := (0x100000 + 0x100000) / pageSize

def bitmapBytes (memorySize : Nat) : Nat := bitmapWords memorySize * 4

/-- The bitmap in its place and cleared; `words` is what the memory there held before. -/
def clearedPmm (info : MemoryInfo) (words : Bitmap.Words 32) (r : Region) : Pmm where
  bitmap := fun i => if i < bitmapWords r.size then 0 else words i
  bitmapAddr := findBitmapLocation (bitmapBytes r.size) info.entries
  bitmapSize := bitmapWords r.size
  totalFrames := r.size / pageSize
  usedFrames := 0
  reservedFrames := 0
  memoryBase := r.base
  memorySize := r.size
  memoryBase_lt := r.base_lt
  memorySize_lt := r.size_lt
  totalFrames_eq := rfl

/-- `pmm_init(r.base, r.size)`. -/
def pmmInit (info : MemoryInfo) (words : Bitmap.Words 32) (r : Region) : Pmm :=
  let p := clearedPmm info words r
  let p := info.entries.foldl markEntry p
  let bitmapStartFrame := u64 (p.bitmapAddr + (2 ^ 64 - p.memoryBase)) / pageSize
  let bitmapFrames := (bitmapBytes r.size + (pageSize - 1)) / pageSize
  let p := (reserveBitmap p bitmapStartFrame bitmapFrames).addReserved bitmapFrames
  (reserveKernel p (min kernelFrames p.totalFrames)).addReserved kernelFrames

def frameAddr (p : Pmm) (frameIndex : Nat) : Nat := u64 (p.memoryBase + frameIndex * pageSize)

def allocFrame (p : Pmm) : Pmm × Nat :=
  let frameIndex := findContiguousFrames p 1
  if frameIndex < 0 then (p, 0)
  else
    ((setFrame p frameIndex.toNat).addUsed 1, frameAddr p frameIndex.toNat)

/-- `pmm_set_frame(start_frame + i)` for each `i` below the count. -/
def setFrames (p : Pmm) (start : Nat) : Nat → Pmm
  | 0 => p
  | count + 1 => setFrame (setFrames p start count) (u64 (start + count))

def allocFrames (p : Pmm) (count : Nat) : Pmm × Nat :=
  if count = 0 then (p, 0)
  else
    let startFrame := findContiguousFrames p count
    if startFrame < 0 then (p, 0)
    else
      ((setFrames p startFrame.toNat count).addUsed count, frameAddr p startFrame.toNat)

def releaseFrame (p : Pmm) (frameIndex : Nat) : Pmm :=
  if frameIndex < p.totalFrames ∧ testFrame p frameIndex = true then
    (clearFrame p frameIndex).dropUsed
  else p

/-- The address check at the head of both release functions. -/
def Managed (p : Pmm) (addr : Nat) : Prop :=
  p.memoryBase ≤ addr ∧ addr < u64 (p.memoryBase + p.memorySize)

instance (p : Pmm) (addr : Nat) : Decidable (Managed p addr) := inferInstanceAs (Decidable (_ ∧ _))

def freeFrame (p : Pmm) (frameAddr : Nat) : Pmm :=
  if Managed p frameAddr then releaseFrame p ((frameAddr - p.memoryBase) / pageSize) else p

def releaseFrames (p : Pmm) (start : Nat) : Nat → Pmm
  | 0 => p
  | count + 1 => releaseFrame (releaseFrames p start count) (u64 (start + count))

def freeFrames (p : Pmm) (startAddr count : Nat) : Pmm :=
  if count = 0 then p
  else if Managed p startAddr then
    releaseFrames p ((startAddr - p.memoryBase) / pageSize) count
  else p

end AlvOS.Memory
