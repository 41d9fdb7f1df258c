import AlvOS.Memory.Defs

/-! What `kernel_main` hands to the physical memory manager: the largest available
region of the memory map, or a fixed range where there is none to speak of. -/

namespace AlvOS.Kernel
open Memory

def largerRegion (largest : Region) (e : MemoryMapEntry) : Region :=
  if e.type = memoryAvailable then
    if largest.size < e.length then ⟨e.baseAddr, e.length, e.baseAddr_lt, e.length_lt⟩
    else largest
  else largest

def findAvailableMemoryRegion (info : MemoryInfo) : Region :=
  info.entries.foldl largerRegion ⟨0, 0, by decide, by decide⟩

/-- What `kernel_main` uses when there is no region to speak of: 64 MiB from 1 MiB. -/
def fallbackRegion : Region := ⟨0x100000, 64 * 1024 * 1024, by decide, by decide⟩

def memoryRegion (info : MemoryInfo) : Region :=
  let found := findAvailableMemoryRegion info
  if found.base = 0 ∨ found.size < 2 * 1024 * 1024 then fallbackRegion else found

end AlvOS.Kernel
