import AlvOS.Memory.Stats
import AlvOS.PhysicalLayout

/-! From the firmware's memory map to the frames: what is not available is withheld up to
the rounding of its ends, and the alignment of every frame is that of the region. -/

namespace AlvOS.Kernel
open Word Memory Transition

def frameBytes (r : Region) (k : Nat) : Set Nat :=
  Set.Ico (r.base + k * pageSize) (r.base + (k + 1) * pageSize)

/-- Frame `k` shares a byte with the entry. -/
def Meets (r : Region) (e : MemoryMapEntry) (k : Nat) : Prop :=
  ¬Disjoint (frameBytes r k) (entryArea e)

/-- What `pmm_init` makes of the entry does not reach frame `k`: the entry begins below the
region, the sums that it is compared with wrap, or `k` is the page after the length rounded
up, into which the entry reaches when it begins within a page. -/
def Missed (r : Region) (e : MemoryMapEntry) (k : Nat) : Prop :=
  e.baseAddr < r.base ∨ 2 ^ 64 ≤ r.base + r.size ∨ 2 ^ 64 ≤ e.length + (pageSize - 1) ∨
    k = (e.baseAddr - r.base) / pageSize + (e.length + (pageSize - 1)) / pageSize

section Missed
variable {r : Region} {e : MemoryMapEntry} {k : Nat}

theorem meets_iff : Meets r e k ↔ 0 < e.length ∧ r.base + k * pageSize < e.baseAddr + e.length ∧
    e.baseAddr < r.base + (k + 1) * pageSize := by
  rw [Meets, frameBytes, entryArea, Set.Ico_disjoint_Ico]
  dsimp only [pageSize]
  omega

theorem withheld_iff_of_meets (htype : e.type ≠ memoryAvailable)
    (hk : k < r.size / pageSize) (hmeets : Meets r e k) :
    Withheld r.base r.size e k ↔ ¬Missed r e k := by
  obtain ⟨hpos, hlow, hhigh⟩ := meets_iff.mp hmeets
  have hbase := r.base_lt
  have hsize := r.size_lt
  have hlength := e.length_lt
  dsimp only [pageSize] at hk hlow hhigh
  rw [Withheld, and_iff_right htype, Missed]
  dsimp only [pageSize, u64]
  by_cases hwrap : 2 ^ 64 ≤ r.base + r.size ∨ 2 ^ 64 ≤ e.length + 4095
  · omega
  · rw [not_or, not_le, not_le] at hwrap
    rw [Nat.mod_eq_of_lt hwrap.1, Nat.mod_eq_of_lt hwrap.2]
    omega

/-- All memory that is not available is withheld exactly when each frame that the rounding
of its entry misses is marked for another reason. -/
theorem unavailable_withheld_iff (info : MemoryInfo) (words : Bitmap.Words 32) (r : Region) :
    (∀ k < (pmmInit info words r).totalFrames, ∀ e ∈ info.entries, e.type ≠ memoryAvailable →
      Meets r e k → Bitmap.test (pmmInit info words r).bitmap k = true) ↔
    ∀ k < r.size / pageSize, ∀ e ∈ info.entries, e.type ≠ memoryAvailable → Meets r e k →
      Missed r e k → k < kernelFrames ∨ InBitmap info r k ∨
        ∃ f ∈ info.entries, Withheld r.base r.size f k := by
  rw [pmmInit_totalFrames]
  refine forall₂_congr fun k hk => forall₂_congr fun e he => forall₂_congr fun htype hmeets => ?_
  have hbit : Bitmap.test (pmmInit info words r).bitmap k = true ↔ Reserved info r k := by
    rw [← testFrame_of_lt (by rwa [pmmInit_totalFrames])]
    exact testFrame_pmmInit info words r hk
  rw [hbit]
  refine ⟨fun h _ => h, fun h => ?_⟩
  by_cases hmissed : Missed r e k
  · exact h hmissed
  · exact .inr (.inr ⟨e, he, (withheld_iff_of_meets htype hk hmeets).mpr hmissed⟩)

end Missed

/-- 127 MiB from 1 MiB, and a table of 2 KiB that lies across two pages. -/
def crossingMap : MemoryInfo where
  entries := [mapEntry 0x100000 0x7F00000 1, mapEntry 0x7FDFC00 0x800 3]
  totalMemory := 0x7F00800
  availableMemory := 0x7F00000
  count_le := by decide

/-- The second of the two pages stays free: rounded up, the length is one page. -/
theorem crossing_page_missed : ∃ r : Region, ∃ k < (pmmInit crossingMap (fun _ => 0) r).totalFrames,
    ∃ e ∈ crossingMap.entries, e.baseAddr + e.length ≤ 2 ^ 64 ∧ e.type ≠ memoryAvailable ∧
      Meets r e k ∧ Bitmap.test (pmmInit crossingMap (fun _ => 0) r).bitmap k = false := by
  refine ⟨⟨0x100000, 0x7F00000, by decide, by decide⟩, 0x7EE0, ?_, mapEntry 0x7FDFC00 0x800 3,
    by simp [crossingMap], by decide, by decide, meets_iff.mpr (by decide), ?_⟩
  · rw [pmmInit_totalFrames]
    decide
  · rw [← testFrame_of_lt (by rw [pmmInit_totalFrames]; decide), ← Bool.not_eq_true,
      testFrame_pmmInit _ _ _ (by decide)]
    rintro (hkernel | ⟨i, hi, hk⟩ | ⟨e, he, hwithheld⟩)
    · exact absurd hkernel (by decide)
    · -- the bitmap is in frame 257
      have hplace : findBitmapLocation (bitmapBytes 0x7F00000) crossingMap.entries = 0x201000 := by
        decide
      have hlength : bitmapBytes 0x7F00000 = 4064 := by decide
      rw [hplace] at hk
      rw [hlength] at hi
      dsimp only [u64, pageSize] at hi hk
      omega
    · simp only [crossingMap, List.mem_cons, List.not_mem_nil, or_false] at he
      rcases he with rfl | rfl
      · exact absurd hwithheld (by decide)
      · exact absurd hwithheld (by decide)

section Aligned
variable {p q : Pmm}

theorem allocFrame_returns {k : Nat} (hk : k < p.totalFrames)
    (hclear : Bitmap.test p.bitmap k = false) :
    ∃ j < p.totalFrames, (allocFrame p).2 = frameAddr p j := by
  have hfree : FreeRun p k 1 := ⟨hk, fun j h1 h2 => by rwa [show j = k by omega]⟩
  rw [allocFrame_eq]
  rcases allocFrames_spec (p := p) (n := 1) (by decide) with
    ⟨j, b, hrun, -, halloc, -⟩ | ⟨-, hnone⟩
  · exact ⟨j, hrun.1, by rw [halloc]⟩
  · exact absurd hfree (hnone k)

theorem dvd_frameAddr_iff (p : Pmm) (k : Nat) :
    pageSize ∣ frameAddr p k ↔ pageSize ∣ p.memoryBase := by
  dsimp only [frameAddr, pageSize, u64]
  omega

theorem pmm_run_same {ops : List PmmOp} (hrun : pmmSystem.Run p ops q) :
    ∃ b u, q = p.put b u := by
  refine hrun.preserves (P := fun q => ∃ b u, q = p.put b u) ?_ ⟨p.bitmap, p.usedFrames, rfl⟩
  rintro a op t ⟨b, u, rfl⟩ rfl
  obtain ⟨c, v, hcall⟩ := PmmOp.call_put (p := p.put b u) op
  exact ⟨c, v, hcall⟩

theorem not_managed_of_wrap (hwrap : 2 ^ 64 ≤ p.memoryBase + p.memorySize) (addr : Nat) :
    ¬Managed p addr := by
  rintro ⟨h1, h2⟩
  have hbase := p.memoryBase_lt
  have hsize := p.memorySize_lt
  rw [u64] at h2
  omega

theorem pmm_run_full {ops : List PmmOp} (hrun : pmmSystem.Run p ops q)
    (hwrap : 2 ^ 64 ≤ p.memoryBase + p.memorySize)
    (hfull : ∀ k < p.totalFrames, Bitmap.test p.bitmap k = true) : q = p := by
  refine hrun.preserves (P := fun q => q = p) ?_ rfl
  rintro a op t rfl rfl
  rw [PmmOp.call_fails]
  have hnone : ∀ n, n ≠ 0 → ∀ s, ¬FreeRun a s n := by
    intro n hn s hfree
    have hend := hfree.1
    have hclear := hfree.2 s (le_refl s) (by omega)
    rw [hfull s (by omega)] at hclear
    exact absurd hclear (by decide)
  cases op with
  | allocFrame => exact hnone 1 one_ne_zero
  | allocFrames n => exact (eq_or_ne n 0).imp_right (hnone n)
  | freeFrame addr => exact .inl (not_managed_of_wrap hwrap addr)
  | freeFrames addr n => exact .inl (not_managed_of_wrap hwrap addr)

theorem exists_run_base (hwrap : p.memoryBase + p.memorySize < 2 ^ 64) (htotal : 0 < p.totalFrames) :
    ∃ q, pmmSystem.Run p [.freeFrame p.memoryBase] q ∧ (allocFrame q).2 = p.memoryBase := by
  obtain ⟨b, u, hfree, hbits, -⟩ := freeFrames_spec (p := p) (k := 0) (n := 1) hwrap one_pos
    (by omega)
  rw [Nat.zero_mul, Nat.add_zero, ← freeFrame_eq] at hfree
  refine ⟨p.put b u, .cons hfree.symm (.nil _), ?_⟩
  obtain ⟨c, halloc, -⟩ := allocFrame_first (p := p.put b u) (k := 0) htotal
    (fun j hj => absurd hj (Nat.not_lt_zero j)) (by rw [put_bitmap, hbits]; rfl)
  have haddr : frameAddr p 0 = p.memoryBase := by
    rw [frameAddr, Nat.zero_mul]
    exact u64_of_lt p.memoryBase_lt
  rw [halloc, frameAddr_put, haddr]

theorem bootPmm_memorySize (info : MemoryInfo) (words : Bitmap.Words 32) :
    (bootPmm info words).memorySize = (memoryRegion info).size := by
  obtain ⟨b, u, v, hinit, -⟩ := pmmInit_bits info words (memoryRegion info)
  rw [bootPmm, hinit]
  rfl

theorem memoryRegion_base_pos (info : MemoryInfo) : 0 < (memoryRegion info).base := by
  rcases memoryRegion_cases info with hfallback | ⟨e, -, -, -, -, hpos, -⟩
  · rw [hfallback]
    decide
  · exact hpos

/-- Where the end of the region wraps, the memory map withholds nothing. -/
theorem testBit_bootPmm_of_wrap {info : MemoryInfo} (words : Bitmap.Words 32) {k : Nat}
    (hk : k < (memoryRegion info).size / pageSize)
    (hwrap : 2 ^ 64 ≤ (memoryRegion info).base + (memoryRegion info).size) :
    Bitmap.test (bootPmm info words).bitmap k = true ↔ k < 512 ∨ HoldsBitmap info k := by
  have hnone : ¬∃ e ∈ info.entries,
      Withheld (memoryRegion info).base (memoryRegion info).size e k := by
    rintro ⟨e, -, -, hin, -⟩
    have hbase := (memoryRegion info).base_lt
    have hsize := (memoryRegion info).size_lt
    rw [u64] at hin
    omega
  rw [← testFrame_of_lt (by rwa [bootPmm_totalFrames]), bootPmm, testFrame_pmmInit info words _ hk,
    reserved_iff, or_iff_left hnone]

/-- In every run each address that is handed out is page-aligned exactly when the base of
the region is, or when nothing can ever be handed out: the region reaches over the end of
memory, and all of its frames hold the kernel or the bitmap. -/
theorem frames_aligned_iff (info : MemoryInfo) (words : Bitmap.Words 32) :
    (∀ ops q, pmmSystem.Run (bootPmm info words) ops q → ∀ op : PmmOp,
      (op.call q).2 ≠ 0 → pageSize ∣ (op.call q).2) ↔
    pageSize ∣ (memoryRegion info).base ∨
      2 ^ 64 ≤ (memoryRegion info).base + (memoryRegion info).size ∧
        ∀ k < (memoryRegion info).size / pageSize, k < 512 ∨ HoldsBitmap info k := by
  have hbase : (bootPmm info words).memoryBase = (memoryRegion info).base := pmmInit_memoryBase _ _ _
  have hsize := bootPmm_memorySize info words
  have htotal := bootPmm_totalFrames info words
  constructor
  · intro haligned
    by_contra hnot
    rw [not_or] at hnot
    obtain ⟨hunaligned, hfull⟩ := hnot
    by_cases hwrap : 2 ^ 64 ≤ (memoryRegion info).base + (memoryRegion info).size
    · -- a frame that is free from the start
      obtain ⟨k, hk, hclear⟩ : ∃ k < (memoryRegion info).size / pageSize,
          ¬(k < 512 ∨ HoldsBitmap info k) := by
        by_contra hall
        push Not at hall
        exact hfull ⟨hwrap, hall⟩
      rw [← testBit_bootPmm_of_wrap words hk hwrap, Bool.not_eq_true] at hclear
      obtain ⟨j, -, hreturned⟩ := allocFrame_returns (htotal ▸ hk) hclear
      have hdvd : ¬pageSize ∣ (allocFrame (bootPmm info words)).2 := by
        rwa [hreturned, dvd_frameAddr_iff, hbase]
      exact hdvd (haligned [] _ (.nil _) .allocFrame fun hzero => hdvd (hzero ▸ Nat.dvd_zero _))
    · have hsmall := memoryRegion_size_le info
      obtain ⟨q, hrun, hreturned⟩ := exists_run_base (p := bootPmm info words) (by omega) (by
        rw [htotal, pageSize]
        omega)
      have hdvd := haligned _ q hrun .allocFrame (by
        rw [PmmOp.call, hreturned, hbase]
        exact (memoryRegion_base_pos info).ne')
      rw [PmmOp.call, hreturned, hbase] at hdvd
      exact hunaligned hdvd
  · rintro (haligned | ⟨hwrap, hfull⟩) ops q hrun op hr
    · obtain ⟨b, u, rfl⟩ := pmm_run_same hrun
      obtain ⟨k, -, haddr, -⟩ := op.call_returns hr
      rwa [haddr, dvd_frameAddr_iff, put_memoryBase, hbase]
    · have hset : ∀ k < (bootPmm info words).totalFrames,
          Bitmap.test (bootPmm info words).bitmap k = true := fun k hk =>
        (testBit_bootPmm_of_wrap words (htotal ▸ hk) hwrap).mpr (hfull k (htotal ▸ hk))
      obtain rfl := pmm_run_full hrun (by rwa [hbase, hsize]) hset
      obtain ⟨k, hk, -, hclear⟩ := op.call_returns hr
      rw [hset k hk] at hclear
      exact absurd hclear (by decide)

end Aligned

def unalignedMap : MemoryInfo where
  entries := [available 0 0x9FC00, available 0x100800 0x7F00000]
  totalMemory := 0x7F9FC00
  availableMemory := 0x7F9FC00
  count_le := by decide

theorem unaligned_frame_returned : (allocFrame (bootPmm unalignedMap fun _ => 0)).2 ≠ 0 ∧
    ¬pageSize ∣ (allocFrame (bootPmm unalignedMap fun _ => 0)).2 := by
  have hregion : memoryRegion unalignedMap = ⟨0x100800, 0x7F00000, by decide, by decide⟩ := rfl
  have htotal : (bootPmm unalignedMap fun _ => 0).totalFrames = 32512 := bootPmm_totalFrames _ _
  -- frame 512 is past the kernel, the bitmap is in frame 256, and both entries are available
  have hclear : Bitmap.test (bootPmm unalignedMap fun _ => 0).bitmap 512 = false := by
    rw [← testFrame_of_lt (by rw [htotal]; decide), ← Bool.not_eq_true, bootPmm,
      testFrame_pmmInit _ _ _ (by decide), reserved_iff]
    rintro (hlt | ⟨i, hi, hk⟩ | ⟨e, he, htype, -⟩)
    · exact absurd hlt (by decide)
    · have hplace : bitmapPlace unalignedMap = 0x201000 := by decide
      have hlength : bitmapLength unalignedMap = 4064 := by decide
      rw [hlength, pageSize] at hi
      rw [hplace, hregion, pageSize] at hk
      dsimp only [u64] at hk
      omega
    · simp only [unalignedMap, List.mem_cons, List.not_mem_nil, or_false] at he
      rcases he with rfl | rfl <;> exact htype rfl
  obtain ⟨j, -, hreturned⟩ := allocFrame_returns (by rw [htotal]; decide) hclear
  have hdvd : ¬pageSize ∣ (allocFrame (bootPmm unalignedMap fun _ => 0)).2 := by
    rw [hreturned, dvd_frameAddr_iff, bootPmm, pmmInit_memoryBase, hregion]
    decide
  exact ⟨fun hzero => hdvd (hzero ▸ Nat.dvd_zero _), hdvd⟩

end AlvOS.Kernel
