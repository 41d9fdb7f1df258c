import Mathlib.Order.Interval.Set.Disjoint
import AlvOS.Kmalloc.Defs
import AlvOS.Memory.Init
import AlvOS.Memory.Handing

/-! Who shares physical memory: the kernel image, the kernel heap at its fixed address,
the bitmap of the frame allocator, and the frames it hands out. -/

namespace AlvOS.Kernel
open Word Memory Kmalloc

/-- The allocator as `kernel_main` initialises it. -/
def bootPmm (info : MemoryInfo) (words : Bitmap.Words 32) : Pmm :=
  pmmInit info words (memoryRegion info)

def heapArea : Set Nat := Set.Ico heapStart (heapStart + heapSize)

def kernelArea : Set Nat := Set.Ico 0x100000 0x200000

def bitmapArea (p : Pmm) : Set Nat := range p.bitmapAddr (4 * p.bitmapSize)

def bitmapLength (info : MemoryInfo) : Nat := bitmapBytes (memoryRegion info).size

def bitmapHost (info : MemoryInfo) : Option MemoryMapEntry :=
  info.entries.find? fun e => decide (Hosts (bitmapLength info) e)

/-- The bitmap lies one page into its host, above the first 2 MiB, or right at 2 MiB. -/
def bitmapPlace (info : MemoryInfo) : Nat :=
  match bitmapHost info with
  | some e => u64 (max e.baseAddr 0x200000 + pageSize)
  | none => 0x200000

section Boot
variable (info : MemoryInfo) (words : Bitmap.Words 32)

theorem bootPmm_totalFrames :
    (bootPmm info words).totalFrames = (memoryRegion info).size / pageSize :=
  pmmInit_totalFrames info words _

theorem bootPmm_frameAddr (k : Nat) :
    frameAddr (bootPmm info words) k = u64 ((memoryRegion info).base + k * pageSize) := by
  rw [frameAddr, bootPmm, pmmInit_memoryBase]

theorem findBitmapLocation_bitmapLength :
    findBitmapLocation (bitmapLength info) info.entries = bitmapPlace info :=
  findBitmapLocation_eq (bitmapBytes_lt _) _

theorem bitmapArea_bootPmm :
    bitmapArea (bootPmm info words) = range (bitmapPlace info) (bitmapLength info) := by
  obtain ⟨b, u, v, hinit, -⟩ := pmmInit_bits info words (memoryRegion info)
  rw [bitmapArea, bootPmm, hinit, Nat.mul_comm, ← findBitmapLocation_bitmapLength]
  rfl

theorem memoryRegion_size_le : 2 * 1024 * 1024 ≤ (memoryRegion info).size := by
  rcases memoryRegion_cases info with hfallback | ⟨e, -, -, -, -, -, hsize⟩
  · rw [hfallback]
    decide
  · exact hsize

theorem bitmapLength_bounds : 0 < bitmapLength info ∧ bitmapLength info < 2 ^ 50 := by
  have hlarge := memoryRegion_size_le info
  have hsmall := (memoryRegion info).size_lt
  rw [bitmapLength, bitmapBytes, bitmapWords, pageSize]
  omega

theorem bitmapPlace_lt : bitmapPlace info < 2 ^ 64 := by
  rw [bitmapPlace]
  split
  · exact u64_lt _
  · decide

end Boot

/-- The four kilobytes at address `a` reach into the heap. -/
def MeetsHeap (a : Nat) : Prop := heapStart < a + pageSize ∧ a < heapStart + heapSize

/-- Frame `k` is one of those that hold the bitmap, counted from the base of the region. -/
def HoldsBitmap (info : MemoryInfo) (k : Nat) : Prop :=
  ∃ i < (bitmapLength info + (pageSize - 1)) / pageSize,
    k = u64 (u64 (bitmapPlace info + (2 ^ 64 - (memoryRegion info).base)) / pageSize + i)

section Frames
variable (info : MemoryInfo) (words : Bitmap.Words 32)

theorem meetsHeap_iff {a : Nat} (ha : a < 2 ^ 64) :
    ¬Disjoint (rangeBytes a 1) heapArea ↔ MeetsHeap a := by
  have hpage : 1 * pageSize = 4096 := rfl
  rw [rangeBytes, hpage, heapArea, disjoint_range_Ico ha (by decide) (by decide) (by decide)
    (by decide), MeetsHeap, heapStart, heapSize, pageSize]
  omega

theorem reserved_iff (k : Nat) : Reserved info (memoryRegion info) k ↔
    k < 512 ∨ HoldsBitmap info k ∨
      ∃ e ∈ info.entries, Withheld (memoryRegion info).base (memoryRegion info).size e k := by
  rw [HoldsBitmap, ← findBitmapLocation_bitmapLength]
  rfl

/-- The allocator keeps off the heap exactly when every managed frame that reaches into
the heap is among the first 512, holds the bitmap, or is withheld by the memory map. -/
theorem frames_avoid_heap : NeverReturns (bootPmm info words) heapArea ↔
    ∀ k < (memoryRegion info).size / pageSize,
      MeetsHeap (u64 ((memoryRegion info).base + k * pageSize)) →
        k < 512 ∨ HoldsBitmap info k ∨
          ∃ e ∈ info.entries, Withheld (memoryRegion info).base (memoryRegion info).size e k := by
  have habove : ∀ x ∈ heapArea, pageSize ≤ x := fun x hx =>
    (by decide : pageSize ≤ heapStart).trans hx.1
  rw [neverReturns_iff habove, bootPmm_totalFrames]
  refine forall₂_congr fun k hk => ?_
  rw [bootPmm_frameAddr, meetsHeap_iff (u64_lt _), bootPmm, testFrame_pmmInit info words _ hk,
    reserved_iff]

end Frames

def available (base length : Nat) : MemoryMapEntry where
  baseAddr := u64 base
  length := u64 length
  type := memoryAvailable
  baseAddr_lt := u64_lt base
  length_lt := u64_lt length
  type_lt := by decide

def smallMap : MemoryInfo where
  entries := [available 0 0x9F000, available 0x100000 0x7F00000]
  totalMemory := 0x7F9F000
  availableMemory := 0x7F9F000
  count_le := by decide

theorem memoryRegion_smallMap :
    memoryRegion smallMap = ⟨0x100000, 0x7F00000, by decide, by decide⟩ := rfl

theorem bitmapPlace_smallMap : bitmapPlace smallMap = 0x201000 := by decide

theorem bitmapLength_smallMap : bitmapLength smallMap = 4064 := by decide

theorem frames_meet_heap : (allocFrame (bootPmm smallMap fun _ => 0)).2 = heapStart ∧
    ¬NeverReturns (bootPmm smallMap fun _ => 0) heapArea := by
  set p := bootPmm smallMap fun _ => 0 with hp
  have htotal : p.totalFrames = 32512 := bootPmm_totalFrames _ _
  have hbit : ∀ k < 32512, (Bitmap.test p.bitmap k = true ↔
      Reserved smallMap (memoryRegion smallMap) k) := by
    intro k hk
    rw [← testFrame_of_lt (htotal ▸ hk)]
    exact testFrame_pmmInit _ _ _ hk
  have hlow : ∀ k < 512, Bitmap.test p.bitmap k = true := fun k hk =>
    (hbit k (by omega)).mpr (.inl hk)
  -- the bitmap is in frame 257, and both entries are available
  have hfree : Bitmap.test p.bitmap 512 = false := by
    rw [← Bool.not_eq_true, hbit 512 (by decide), reserved_iff]
    rintro (hlt | ⟨i, hi, hk⟩ | ⟨e, he, htype, -⟩)
    · exact absurd hlt (by decide)
    · rw [bitmapLength_smallMap, pageSize] at hi
      rw [bitmapPlace_smallMap, memoryRegion_smallMap, pageSize] at hk
      dsimp only [u64] at hk
      omega
    · simp only [smallMap, List.mem_cons, List.not_mem_nil, or_false] at he
      rcases he with rfl | rfl <;> exact htype rfl
  obtain ⟨b, halloc, -⟩ := allocFrame_first (by omega) hlow hfree
  have hfirst : (allocFrame p).2 = heapStart := by
    rw [halloc]
    exact bootPmm_frameAddr smallMap _ 512
  refine ⟨hfirst, fun hnever => ?_⟩
  have hclear := hnever [] ⟨p, ∅⟩ (.nil _) .allocFrame (by rw [PmmOp.call, hfirst]; decide)
  rw [PmmOp.call, hfirst] at hclear
  exact Set.disjoint_left.mp hclear ⟨0, by decide, rfl⟩ ⟨le_refl _, by decide⟩

/-- `n` bytes from `a` on are clear of the heap, also where they wrap. -/
def ClearOfHeap (a n : Nat) : Prop :=
  a + n ≤ heapStart ∨ heapStart + heapSize ≤ a ∧ a + n ≤ 2 ^ 64 + heapStart

def entryArea (e : MemoryMapEntry) : Set Nat := Set.Ico e.baseAddr (e.baseAddr + e.length)

def PageAligned (info : MemoryInfo) : Prop :=
  ∀ e ∈ info.entries, pageSize ∣ e.baseAddr ∧ pageSize ∣ e.length

/-- The bitmap and the heap are apart exactly when the host of the bitmap places it so;
without a host, exactly when the bitmap fits below the heap. -/
theorem bitmap_avoids_heap (info : MemoryInfo) (words : Bitmap.Words 32) :
    Disjoint (bitmapArea (bootPmm info words)) heapArea ↔
      match bitmapHost info with
      | some e => ClearOfHeap (u64 (max e.baseAddr 0x200000 + pageSize)) (bitmapLength info)
      | none => bitmapLength info ≤ 0x100000 := by
  obtain ⟨hpos, hlt⟩ := bitmapLength_bounds info
  rw [bitmapArea_bootPmm, heapArea, disjoint_range_Ico (bitmapPlace_lt info) hpos (by omega)
    (by decide) (by decide), bitmapPlace]
  cases bitmapHost info with
  | some e => rfl
  | none =>
    dsimp only [heapStart, heapSize]
    omega

/-- A machine with 64 GiB, which takes a bitmap of 2 MiB. -/
def largeMap : MemoryInfo where
  entries := [available 0 0x9F000, available 0x100000 0xFFFF00000]
  totalMemory := 0xFFFF9F000
  availableMemory := 0xFFFF9F000
  count_le := by decide

/-- On that machine the bitmap lies at `0x201000` and covers the beginning of the heap. -/
theorem bitmap_meets_heap : PageAligned largeMap ∧
    largeMap.entries.Pairwise (fun e f => Disjoint (entryArea e) (entryArea f)) ∧
    ¬Disjoint (bitmapArea (bootPmm largeMap fun _ => 0)) heapArea := by
  have hplace : bitmapPlace largeMap = 0x201000 := by decide
  have hlength : bitmapLength largeMap = 2097120 := by decide
  refine ⟨?_, ?_, ?_⟩
  · intro e he
    simp only [largeMap, List.mem_cons, List.not_mem_nil, or_false] at he
    rcases he with rfl | rfl <;> decide
  · simp [largeMap, entryArea, available, u64, Set.Ico_disjoint_Ico]
  · rw [bitmapArea_bootPmm, hplace, hlength]
    exact Set.not_disjoint_iff.mpr ⟨heapStart, ⟨0xFF000, by decide, by decide⟩, by decide, by decide⟩

def AvailableDisjoint (info : MemoryInfo) : Prop :=
  info.entries.Pairwise fun e f =>
    e.type = memoryAvailable → f.type = memoryAvailable → Disjoint (entryArea e) (entryArea f)

section Reserved
variable {info : MemoryInfo}

theorem memoryRegion_aligned (haligned : PageAligned info)
    (hwrap : ∀ e ∈ info.entries, e.baseAddr + e.length ≤ 2 ^ 64) :
    pageSize ∣ (memoryRegion info).base ∧ 0 < (memoryRegion info).base ∧
      (memoryRegion info).base + (memoryRegion info).size ≤ 2 ^ 64 := by
  rcases memoryRegion_cases info with hfallback | ⟨e, he, -, hbase, hsize, hpos, -⟩
  · rw [hfallback]
    decide
  · have hfits := hwrap e he
    rw [hbase, hsize] at hfits
    exact ⟨hbase ▸ (haligned e he).1, hpos, hfits⟩

theorem AvailableDisjoint.apart (hdisjoint : AvailableDisjoint info) {e f : MemoryMapEntry}
    (he : e ∈ info.entries) (hf : f ∈ info.entries) (hetype : e.type = memoryAvailable)
    (hftype : f.type = memoryAvailable) (helength : 0 < e.length) (hflength : 0 < f.length) :
    e = f ∨ e.baseAddr + e.length ≤ f.baseAddr ∨ f.baseAddr + f.length ≤ e.baseAddr := by
  by_cases hef : e = f
  · exact .inl hef
  · have hsymm : Std.Symm fun e f : MemoryMapEntry => e.type = memoryAvailable →
        f.type = memoryAvailable → Disjoint (entryArea e) (entryArea f) :=
      ⟨fun _ _ h hx hy => (h hy hx).symm⟩
    have h := List.Pairwise.forall hdisjoint he hf hef hetype hftype
    rw [entryArea, entryArea, Set.Ico_disjoint_Ico] at h
    omega

theorem memoryRegion_base_le (hhost : bitmapHost info = none) :
    (memoryRegion info).base ≤ 0x200000 := by
  have hlarge := memoryRegion_size_le info
  have hlength := bitmapBytes_le (memoryRegion info)
  rcases memoryRegion_cases info with hfallback | ⟨f, hf, hftype, hbase, hsize, -, -⟩
  · rw [hfallback]
    decide
  · have hnone := List.find?_eq_none.mp hhost f hf
    rw [decide_eq_true_eq, Hosts, not_and] at hnone
    have hroom := hnone hftype
    rw [bitmapLength, pageSize] at hroom
    omega

theorem bitmapHost_spec {e : MemoryMapEntry} (hhost : bitmapHost info = some e)
    (haligned : PageAligned info) (hwrap : ∀ e ∈ info.entries, e.baseAddr + e.length ≤ 2 ^ 64) :
    e ∈ info.entries ∧ e.type = memoryAvailable ∧ pageSize ∣ bitmapPlace info ∧
      max e.baseAddr 0x200000 ≤ bitmapPlace info ∧
      bitmapPlace info + bitmapLength info ≤ e.baseAddr + e.length := by
  have he : e ∈ info.entries := List.mem_of_find?_eq_some hhost
  have hhosts := List.find?_some hhost
  rw [decide_eq_true_eq] at hhosts
  obtain ⟨hetype, hroom⟩ := hhosts
  obtain ⟨q, hq⟩ := (haligned e he).1
  have hefits := hwrap e he
  have hbounds := bitmapLength_bounds info
  have hplace : bitmapPlace info = max e.baseAddr 0x200000 + 4096 := by
    rw [bitmapPlace, hhost]
    dsimp only [pageSize] at hroom ⊢
    exact u64_of_lt (by omega)
  dsimp only [pageSize] at hroom hq ⊢
  exact ⟨he, hetype, by omega, by omega, by omega⟩

/-- Either the region begins below the bitmap, a whole number of pages, or it is apart
from the bitmap. -/
theorem bitmapPlace_cases (haligned : PageAligned info)
    (hwrap : ∀ e ∈ info.entries, e.baseAddr + e.length ≤ 2 ^ 64)
    (hdisjoint : AvailableDisjoint info) :
    bitmapPlace info + bitmapLength info ≤ 2 ^ 64 ∧
      ((memoryRegion info).base ≤ bitmapPlace info ∧ pageSize ∣ bitmapPlace info ∨
        bitmapPlace info + bitmapLength info ≤ (memoryRegion info).base ∨
        (memoryRegion info).base + (memoryRegion info).size ≤ bitmapPlace info) := by
  have hbounds := bitmapLength_bounds info
  cases hhost : bitmapHost info with
  | none =>
    have hplace : bitmapPlace info = 0x200000 := by rw [bitmapPlace, hhost]
    rw [hplace]
    exact ⟨by omega, .inl ⟨memoryRegion_base_le hhost, by decide⟩⟩
  | some e =>
    obtain ⟨he, hetype, hdvd, hplace, hroom⟩ := bitmapHost_spec hhost haligned hwrap
    have hefits := hwrap e he
    refine ⟨by omega, ?_⟩
    rcases memoryRegion_cases info with hfallback | ⟨f, hf, hftype, hbase, hsize, -, hlarge⟩
    · refine .inl ⟨?_, hdvd⟩
      rw [hfallback]
      dsimp only [fallbackRegion]
      omega
    · rcases hdisjoint.apart he hf hetype hftype (by omega) (by omega) with rfl | hbelow | habove
      · exact .inl ⟨by omega, hdvd⟩
      · exact .inr (.inl (by omega))
      · exact .inr (.inr (by omega))

theorem frame_beside_bitmap {k : Nat} (hbase : pageSize ∣ (memoryRegion info).base)
    (hplace : pageSize ∣ bitmapPlace info) (hle : (memoryRegion info).base ≤ bitmapPlace info)
    (hfits : bitmapPlace info + bitmapLength info ≤ 2 ^ 64) (hk : ¬HoldsBitmap info k) :
    (memoryRegion info).base + k * pageSize + pageSize ≤ bitmapPlace info ∨
      bitmapPlace info + bitmapLength info ≤ (memoryRegion info).base + k * pageSize := by
  obtain ⟨b, hb⟩ := hbase
  obtain ⟨q, hq⟩ := hplace
  have hpos := bitmapLength_bounds info
  rw [pageSize] at hb hq
  -- the first frame of the bitmap is number `q - b`
  have hstart : u64 (bitmapPlace info + (2 ^ 64 - (memoryRegion info).base)) / pageSize = q - b := by
    dsimp only [u64, pageSize]
    omega
  rw [HoldsBitmap, hstart] at hk
  push Not at hk
  by_contra hinside
  dsimp only [pageSize] at hinside hk
  refine hk (k - (q - b)) (by omega) ?_
  rw [u64]
  omega

/-- Neither the kernel nor the bitmap is ever handed out. -/
theorem frames_avoid_kernel_and_bitmap (words : Bitmap.Words 32) (haligned : PageAligned info)
    (hwrap : ∀ e ∈ info.entries, e.baseAddr + e.length ≤ 2 ^ 64)
    (hdisjoint : AvailableDisjoint info) :
    NeverReturns (bootPmm info words) (kernelArea ∪ bitmapArea (bootPmm info words)) := by
  obtain ⟨hbase, hpos, hregion⟩ := memoryRegion_aligned haligned hwrap
  obtain ⟨hfits, hplace⟩ := bitmapPlace_cases haligned hwrap hdisjoint
  apply neverReturns_of_clear
  intro k hk hclear
  rw [bootPmm_totalFrames] at hk
  have hfree : ¬Reserved info (memoryRegion info) k := by
    rw [← testFrame_pmmInit info words _ hk, Bool.not_eq_true]
    exact hclear
  rw [reserved_iff, not_or, not_or] at hfree
  obtain ⟨hkernel, hbitmap, -⟩ := hfree
  obtain ⟨b, hb⟩ := hbase
  have hframe : rangeBytes (frameAddr (bootPmm info words) k) 1 =
      Set.Ico ((memoryRegion info).base + k * 4096) ((memoryRegion info).base + k * 4096 + 4096) := by
    rw [bootPmm_frameAddr, rangeBytes, Nat.one_mul]
    dsimp only [pageSize] at hk ⊢
    rw [u64_of_lt (by omega), range_eq_Ico (by omega)]
  rw [hframe, Set.disjoint_union_right]
  dsimp only [pageSize] at hk hb
  constructor
  · -- past the first page of memory and 2 MiB more
    rw [kernelArea, Set.Ico_disjoint_Ico]
    omega
  · rw [bitmapArea_bootPmm, range_eq_Ico hfits, Set.Ico_disjoint_Ico]
    rcases hplace with ⟨hle, hdvd⟩ | hbelow | habove
    · have hbeside := frame_beside_bitmap ⟨b, hb⟩ hdvd hle hfits hbitmap
      dsimp only [pageSize] at hbeside
      omega
    · omega
    · omega

end Reserved

theorem frames_avoid_kernel_and_bitmap_smallMap : NeverReturns (bootPmm smallMap fun _ => 0)
    (kernelArea ∪ bitmapArea (bootPmm smallMap fun _ => 0)) := by
  have hmem : ∀ e ∈ smallMap.entries, (pageSize ∣ e.baseAddr ∧ pageSize ∣ e.length) ∧
      e.baseAddr + e.length ≤ 2 ^ 64 := by
    intro e he
    simp only [smallMap, List.mem_cons, List.not_mem_nil, or_false] at he
    rcases he with rfl | rfl <;> decide
  refine frames_avoid_kernel_and_bitmap _ (fun e he => (hmem e he).1) (fun e he => (hmem e he).2) ?_
  simp [AvailableDisjoint, smallMap, entryArea, available, u64, Set.Ico_disjoint_Ico]

end AlvOS.Kernel
