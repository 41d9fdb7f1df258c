import AlvOS.Lib.Word
import AlvOS.CString
import AlvOS.Console

/-! The kernel heap of kmalloc.c over a byte-addressed memory.  Block headers are
packed records inside the heap itself.  Loops that follow pointers take fuel and
answer `none` when it runs out. -/

namespace AlvOS.Kmalloc
open ByteMemory Word CString

def heapStart : Nat := 0x00300000
def heapSize : Nat := 2 * 1024 * 1024
def heapAlignment : Nat := 16
def heapMagic : Nat := 0xDEADBEEF

inductive Field
  | magic | size | isFree | next | prev
deriving DecidableEq

/-- The packed `heap_block_t`. -/
def heapBlock : Record Field where
  offset
    | .magic => 0
    | .size => 4
    | .isFree => 12
    | .next => 13
    | .prev => 21
  width
    | .magic => 4
    | .size => 8
    | .isFree => 1
    | .next => 8
    | .prev => 8
  size := 29
  within := by rintro (_ | _ | _ | _ | _) <;> decide
  apart := by rintro (_ | _ | _ | _ | _) (_ | _ | _ | _ | _) <;> decide

/-- The static variables of kmalloc.c, the memory and what has been printed. -/
structure Heap where
  mem : Mem
  heapHead : Nat
  heapInitialized : Bool
  totalAllocations : Nat
  totalFrees : Nat
  failedAllocations : Nat
  console : Console

def Heap.print (h : Heap) (calls : Console) : Heap := { h with console := h.console ++ calls }

/-- `~(alignment - 1)` is a 32-bit value, widened with zeros. -/
def alignUp (value alignment : Nat) : Nat :=
  if alignment = 0 then value
  else u64 (u64 (value + alignment) + (2 ^ 64 - 1)) &&& (2 ^ 32 - 1 - (alignment - 1))

def isValidBlock (m : Mem) (block : Nat) : Bool :=
  if block = 0 then false
  else if heapBlock.load m block .magic ≠ heapMagic then false
  else if block < heapStart ∨ heapStart + heapSize ≤ block then false
  else true

def blockToPtr (block : Nat) : Nat := u64 (block + heapBlock.size)

def ptrToBlock (ptr : Nat) : Nat := u64 (ptr + (2 ^ 64 - heapBlock.size))

def splitBlock (m : Mem) (block size : Nat) : Mem :=
  if block = 0 ∨ heapBlock.load m block .isFree = 0 then m
  else
    let minBlockSize := heapBlock.size + 16
    if heapBlock.load m block .size < u64 (size + minBlockSize) then m
    else
      let newBlock := u64 (block + heapBlock.size + size)
      let m := heapBlock.store m newBlock .magic heapMagic
      let m := heapBlock.store m newBlock .size
        (u64 (heapBlock.load m block .size + (2 ^ 64 - size) + (2 ^ 64 - heapBlock.size)))
      let m := heapBlock.store m newBlock .isFree 1
      let m := heapBlock.store m newBlock .next (heapBlock.load m block .next)
      let m := heapBlock.store m newBlock .prev block
      let next := heapBlock.load m block .next
      let m := if next ≠ 0 then heapBlock.store m next .prev newBlock else m
      let m := heapBlock.store m block .next newBlock
      heapBlock.store m block .size size

/-- The body of the `while` loop of `coalesce_blocks`: `next` is merged into `block`. -/
def mergeNext (m : Mem) (block next : Nat) : Mem :=
  let m := heapBlock.store m block .size
    (u64 (heapBlock.load m block .size + (heapBlock.size + heapBlock.load m next .size)))
  let m := heapBlock.store m block .next (heapBlock.load m next .next)
  let nextNext := heapBlock.load m next .next
  let m := if nextNext ≠ 0 then heapBlock.store m nextNext .prev block else m
  heapBlock.store m next .magic 0

/-- The `while` loop of `coalesce_blocks`. -/
def mergeFollowing : Nat → Mem → Nat → Option Mem
  | 0, _, _ => none
  | fuel + 1, m, block =>
    let next := heapBlock.load m block .next
    if next ≠ 0 ∧ heapBlock.load m next .isFree ≠ 0 then
      if isValidBlock m next then mergeFollowing fuel (mergeNext m block next) block
      else some m
    else some m

def coalesceBlocks : Nat → Mem → Nat → Option Mem
  | 0, _, _ => none
  | fuel + 1, m, block =>
    if block = 0 ∨ heapBlock.load m block .isFree = 0 then some m
    else do
      let m ← mergeFollowing fuel m block
      let prev := heapBlock.load m block .prev
      if prev ≠ 0 ∧ heapBlock.load m prev .isFree ≠ 0 then coalesceBlocks fuel m prev
      else some m

/-- The `while` loop of `find_free_block`; the null pointer is `0`. -/
def findFreeFrom : Nat → Mem → Nat → Nat → Option Nat
  | 0, _, _, _ => none
  | fuel + 1, m, current, size =>
    if current = 0 then some 0
    else if heapBlock.load m current .isFree ≠ 0 ∧ size ≤ heapBlock.load m current .size then
      some current
    else findFreeFrom fuel m (heapBlock.load m current .next) size

def findFreeBlock (fuel : Nat) (h : Heap) (size : Nat) : Option Nat :=
  findFreeFrom fuel h.mem h.heapHead size

def heapInit (h : Heap) : Heap :=
  let m := heapBlock.store h.mem heapStart .magic heapMagic
  let m := heapBlock.store m heapStart .size (heapSize - heapBlock.size)
  let m := heapBlock.store m heapStart .isFree 1
  let m := heapBlock.store m heapStart .next 0
  let m := heapBlock.store m heapStart .prev 0
  { h.print [.setcolor .lightGreen .black,
      .writestring "[OK] Heap inicializado: 0x", .printHex heapStart,
      .writestring " - 0x", .printHex (heapStart + heapSize),
      .writestring " (", .printDec (heapSize / 1024), .writestring " KB)\n"] with
    mem := m
    heapHead := heapStart
    heapInitialized := true
    totalAllocations := 0
    totalFrees := 0
    failedAllocations := 0 }

def Heap.allocationFailed (h : Heap) (calls : Console) : Heap :=
  { h.print (.setcolor .lightRed .black :: calls) with
    failedAllocations := u32 (h.failedAllocations + 1) }

/-- The alignment `kmalloc_aligned` works with: anything but a power of two is replaced. -/
def validAlignment (alignment : Nat) : Nat :=
  if alignment = 0 ∨ alignment &&& (alignment - 1) ≠ 0 then heapAlignment else alignment

def kmallocAligned (fuel : Nat) (h : Heap) (size alignment : Nat) : Option (Heap × Nat) :=
  if h.heapInitialized = false then
    some (h.allocationFailed [.writestring "[ERROR] kmalloc: heap no inicializado\n"], 0)
  else if size = 0 then some (h, 0)
  else do
    let size := alignUp size (validAlignment alignment)
    let block ← findFreeBlock fuel h size
    if block = 0 then
      some (h.allocationFailed [.writestring "[ERROR] kmalloc: sin memoria (", .printDec size,
        .writestring " bytes)\n"], 0)
    else
      let m := splitBlock h.mem block size
      let m := heapBlock.store m block .isFree 0
      let ptr := blockToPtr block
      let m := memset m ptr 0 size
      some ({ h with mem := m, totalAllocations := u32 (h.totalAllocations + 1) }, ptr)

def kmalloc (fuel : Nat) (h : Heap) (size : Nat) : Option (Heap × Nat) :=
  kmallocAligned fuel h size heapAlignment

def kcalloc (fuel : Nat) (h : Heap) (nmemb size : Nat) : Option (Heap × Nat) :=
  let totalSize := u64 (nmemb * size)
  if nmemb ≠ 0 ∧ totalSize / nmemb ≠ size then
    some (h.allocationFailed [.writestring "[ERROR] kcalloc: overflow detectado\n"], 0)
  else kmalloc fuel h totalSize

def kfree (fuel : Nat) (h : Heap) (ptr : Nat) : Option Heap :=
  if ptr = 0 then some h
  else if h.heapInitialized = false then
    some (h.print [.setcolor .lightRed .black,
      .writestring "[ERROR] kfree: heap no inicializado\n"])
  else
    let block := ptrToBlock ptr
    if isValidBlock h.mem block = false then
      some (h.print [.setcolor .lightRed .black,
        .writestring "[ERROR] kfree: puntero inválido: 0x", .printHex ptr, .writestring "\n"])
    else if heapBlock.load h.mem block .isFree ≠ 0 then
      some (h.print [.setcolor .lightBrown .black,
        .writestring "[WARN] kfree: doble liberación detectada: 0x", .printHex ptr,
        .writestring "\n"])
    else do
      let m ← coalesceBlocks fuel (heapBlock.store h.mem block .isFree 1) block
      some { h with mem := m, totalFrees := u32 (h.totalFrees + 1) }

def krealloc (fuel : Nat) (h : Heap) (ptr newSize : Nat) : Option (Heap × Nat) :=
  if ptr = 0 then kmalloc fuel h newSize
  else if newSize = 0 then do
    let h ← kfree fuel h ptr
    some (h, 0)
  else
    let block := ptrToBlock ptr
    if isValidBlock h.mem block = false then
      some (h.print [.setcolor .lightRed .black,
        .writestring "[ERROR] krealloc: bloque inválido\n"], 0)
    else if newSize ≤ heapBlock.load h.mem block .size then some (h, ptr)
    else do
      let (h, newPtr) ← kmalloc fuel h newSize
      if newPtr = 0 then some (h, 0)
      else
        let h := { h with mem := memcpy h.mem newPtr ptr (heapBlock.load h.mem block .size) }
        let h ← kfree fuel h ptr
        some (h, newPtr)

end AlvOS.Kmalloc
