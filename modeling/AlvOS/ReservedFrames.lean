import Mathlib.Data.Set.Card
import AlvOS.Memory.Stats
import AlvOS.PhysicalLayout

/-! The number of reserved frames that `pmm_init` reports.  It adds up the pages of the bitmap
and the 512 frames of the kernel wherever they lie, while its loops mark only managed frames
and each of them once. -/

namespace AlvOS.Kernel
open Word Memory

/-- The kernel's frames and those that the storage of the bitmap reaches into. -/
def occupiedFrames (p : Pmm) : Set Nat :=
  {k | k < p.totalFrames ∧
    (k < kernelFrames ∨ ¬Disjoint (rangeBytes (frameAddr p k) 1) (bitmapArea p))}

section Storage
variable (info : MemoryInfo) (words : Bitmap.Words 32)

def bitmapPages : Nat := (bitmapLength info + (pageSize - 1)) / pageSize

def bitmapOffset : Nat := u64 (bitmapPlace info + (2 ^ 64 - (memoryRegion info).base))

def firstFrame : Nat := bitmapOffset info / pageSize
def lastFrame : Nat := (bitmapOffset info + bitmapLength info - 1) / pageSize

def wrappedFrames : Nat :=
  (bitmapOffset info + bitmapLength info - 2 ^ 64 + (pageSize - 1)) / pageSize

theorem bitmapOffset_lt : bitmapOffset info < 2 ^ 64 := u64_lt _

theorem regionFrames_bounds : 512 ≤ (memoryRegion info).size / pageSize ∧
    (memoryRegion info).size / pageSize < 2 ^ 52 := by
  have hlarge := memoryRegion_size_le info
  have hsmall := (memoryRegion info).size_lt
  rw [pageSize]
  omega

variable {info} {k : Nat}

theorem meetsBitmap_iff (hk : k < (memoryRegion info).size / pageSize) :
    ¬Disjoint (rangeBytes (frameAddr (bootPmm info words) k) 1)
        (bitmapArea (bootPmm info words)) ↔
      firstFrame info ≤ k ∧ k ≤ lastFrame info ∨ k < wrappedFrames info := by
  obtain ⟨hpos, hlength⟩ := bitmapLength_bounds info
  have hsize := (memoryRegion info).size_lt
  have hoffset := bitmapOffset_lt info
  dsimp only [pageSize] at hk
  rw [bootPmm_frameAddr, bitmapArea_bootPmm, rangeBytes, Nat.one_mul,
    not_disjoint_range_iff (by dsimp only [pageSize]; omega) (by decide) hpos (by omega)
      (memoryRegion info).base_lt]
  change k * pageSize < bitmapOffset info + bitmapLength info ∧
    bitmapOffset info < k * pageSize + pageSize ∨
      k * pageSize + 2 ^ 64 < bitmapOffset info + bitmapLength info ↔ _
  dsimp only [firstFrame, lastFrame, wrappedFrames, pageSize]
  omega

theorem occupiedFrames_eq (info : MemoryInfo) : occupiedFrames (bootPmm info words) =
    ↑(Finset.range 512 ∪
      (Finset.Ico (max 512 (firstFrame info))
          (min ((memoryRegion info).size / pageSize) (lastFrame info + 1)) ∪
        Finset.Ico 512 (min ((memoryRegion info).size / pageSize) (wrappedFrames info)))) := by
  have hbounds := regionFrames_bounds info
  ext k
  rw [occupiedFrames, Set.mem_ofPred_eq, bootPmm_totalFrames, Finset.mem_coe, Finset.mem_union,
    Finset.mem_union, Finset.mem_range, Finset.mem_Ico, Finset.mem_Ico]
  have hkernel : kernelFrames = 512 := rfl
  rw [hkernel, and_congr_right fun hk => or_congr_right (meetsBitmap_iff words hk)]
  omega

theorem disjoint_kernel {lo hi : Nat} (h : 512 ≤ lo) :
    Disjoint (Finset.range 512) (Finset.Ico lo hi) := by
  rw [Finset.disjoint_left]
  intro k hk hmem
  rw [Finset.mem_range] at hk
  rw [Finset.mem_Ico] at hmem
  omega

theorem ncard_occupiedFrames (info : MemoryInfo) : (occupiedFrames (bootPmm info words)).ncard =
    512 + ((min ((memoryRegion info).size / pageSize) (lastFrame info + 1) -
        max 512 (firstFrame info)) +
      (min ((memoryRegion info).size / pageSize) (wrappedFrames info) - 512)) := by
  have hoffset := bitmapOffset_lt info
  have hlength := bitmapLength_bounds info
  have hapart : Disjoint
      (Finset.Ico (max 512 (firstFrame info))
        (min ((memoryRegion info).size / pageSize) (lastFrame info + 1)))
      (Finset.Ico 512 (min ((memoryRegion info).size / pageSize) (wrappedFrames info))) := by
    rw [Finset.disjoint_left]
    intro k hk hwrap
    rw [Finset.mem_Ico] at hk hwrap
    dsimp only [firstFrame, lastFrame, wrappedFrames, pageSize] at hk hwrap
    -- what comes around ends below the first frame, as the bitmap is shorter than 2 ^ 64
    omega
  rw [occupiedFrames_eq, Set.ncard_coe_finset, Finset.card_union_of_disjoint,
    Finset.card_union_of_disjoint hapart, Finset.card_range, Nat.card_Ico, Nat.card_Ico]
  exact Finset.disjoint_union_right.mpr
    ⟨disjoint_kernel (le_max_left 512 (firstFrame info)), disjoint_kernel (le_refl 512)⟩

end Storage

section Counter
variable (info : MemoryInfo) (words : Bitmap.Words 32)

theorem reservedFrames_bootPmm :
    (pmmGetStats (bootPmm info words)).reservedFrames = 512 + bitmapPages info :=
  (pmmInit_reservedFrames info words (memoryRegion info)).trans (Nat.add_comm _ _)

theorem ncard_eq_iff : 512 + bitmapPages info = (occupiedFrames (bootPmm info words)).ncard ↔
    512 ≤ firstFrame info ∧
        firstFrame info + bitmapPages info ≤ (memoryRegion info).size / pageSize ∧
        (lastFrame info < firstFrame info + bitmapPages info ∨
          lastFrame info = (memoryRegion info).size / pageSize) ∨
      firstFrame info = 511 ∧ lastFrame info = 511 + bitmapPages info ∧
        lastFrame info < (memoryRegion info).size / pageSize := by
  have hoffset := bitmapOffset_lt info
  have hlength := bitmapLength_bounds info
  have hframes := regionFrames_bounds info
  rw [ncard_occupiedFrames]
  dsimp only [firstFrame, lastFrame, wrappedFrames, bitmapPages, pageSize] at hframes ⊢
  omega

theorem bitmapPages_pos : 0 < bitmapPages info := by
  have hlength := bitmapLength_bounds info
  dsimp only [bitmapPages, pageSize]
  omega

/-- The memory map withholds a managed frame from number `n` on. -/
def WithheldFrom (n : Nat) : Prop :=
  ∃ k < (memoryRegion info).size / pageSize, n ≤ k ∧
    ∃ e ∈ info.entries, Withheld (memoryRegion info).base (memoryRegion info).size e k

def WithheldOnce : Prop :=
  info.entries.Pairwise fun e f => ∀ k < (memoryRegion info).size / pageSize,
    ¬(Withheld (memoryRegion info).base (memoryRegion info).size e k ∧
      Withheld (memoryRegion info).base (memoryRegion info).size f k)

theorem mem_marked_iff {k : Nat} (hk : k < (memoryRegion info).size / pageSize) :
    Bitmap.test (bootPmm info words).bitmap k = true ↔ k < 512 ∨ HoldsBitmap info k ∨
      ∃ e ∈ info.entries, Withheld (memoryRegion info).base (memoryRegion info).size e k := by
  rw [← testFrame_of_lt (by rwa [bootPmm_totalFrames]), ← reserved_iff]
  exact testFrame_pmmInit info words _ hk

theorem holdsBitmap_iff {k : Nat} (hk : k < (memoryRegion info).size / pageSize)
    (hfirst : firstFrame info + bitmapPages info < 2 ^ 64) : HoldsBitmap info k ↔
      firstFrame info ≤ k ∧ k < firstFrame info + bitmapPages info := by
  constructor
  · rintro ⟨i, hi, rfl⟩
    change u64 (firstFrame info + i) < _ at hk
    change firstFrame info ≤ u64 (firstFrame info + i) ∧ u64 (firstFrame info + i) < _
    have hi : i < bitmapPages info := hi
    rw [u64_of_lt (by omega)]
    omega
  · rintro ⟨hle, hlt⟩
    refine ⟨k - firstFrame info, ?_, ?_⟩
    · change k - firstFrame info < bitmapPages info
      omega
    · change k = u64 (firstFrame info + (k - firstFrame info))
      rw [Nat.add_sub_cancel' hle, u64_of_lt (by omega)]

theorem card_le_usedBits {s : Finset Nat} (hs : ∀ k ∈ s, k < (memoryRegion info).size / pageSize ∧
    Bitmap.test (bootPmm info words).bitmap k = true) : s.card ≤ usedBits (bootPmm info words) := by
  rw [usedBits, Bitmap.count_eq_card, bootPmm_totalFrames]
  apply Finset.card_le_card
  intro k hk
  rw [Finset.mem_filter, Finset.mem_range]
  exact hs k hk

theorem usedBits_le_card {s : Finset Nat} (hs : ∀ k < (memoryRegion info).size / pageSize,
    Bitmap.test (bootPmm info words).bitmap k = true → k ∈ s) :
    usedBits (bootPmm info words) ≤ s.card := by
  rw [usedBits, Bitmap.count_eq_card, bootPmm_totalFrames]
  apply Finset.card_le_card
  intro k hk
  rw [Finset.mem_filter, Finset.mem_range] at hk
  exact hs k hk.1 hk.2

theorem usedBits_le_usedFrames : usedBits (bootPmm info words) ≤ (bootPmm info words).usedFrames :=
  (Nat.le_add_right _ _).trans_eq (pmmInit_ahead info words (memoryRegion info)).symm

theorem usedFrames_eq_iff : (bootPmm info words).usedFrames = usedBits (bootPmm info words) ↔
    WithheldOnce info := accounted_pmmInit_iff info words (memoryRegion info)

theorem pages_le_usedFrames (hfirst : 512 ≤ firstFrame info)
    (hlast : firstFrame info + bitmapPages info ≤ (memoryRegion info).size / pageSize) :
    512 + bitmapPages info ≤ (bootPmm info words).usedFrames := by
  have hframes := regionFrames_bounds info
  refine le_trans ?_ (usedBits_le_usedFrames info words)
  have hcard : (Finset.range 512 ∪
      Finset.Ico (firstFrame info) (firstFrame info + bitmapPages info)).card =
      512 + bitmapPages info := by
    rw [Finset.card_union_of_disjoint (disjoint_kernel hfirst), Finset.card_range, Nat.card_Ico,
      Nat.add_sub_cancel_left]
  rw [← hcard]
  apply card_le_usedBits
  intro k hk
  rw [Finset.mem_union, Finset.mem_range, Finset.mem_Ico] at hk
  have hlt : k < (memoryRegion info).size / pageSize := by omega
  refine ⟨hlt, (mem_marked_iff info words hlt).mpr ?_⟩
  rw [holdsBitmap_iff info hlt (by omega)]
  exact hk.imp_right .inl

/-- Where the storage begins in the last frame of the kernel, its last frame is not marked for
it, and has to be made up for by the memory map. -/
theorem pages_le_usedFrames_iff (hfirst : firstFrame info = 511)
    (hlast : 511 + bitmapPages info < (memoryRegion info).size / pageSize) :
    512 + bitmapPages info ≤ (bootPmm info words).usedFrames ↔
      WithheldFrom info (511 + bitmapPages info) ∨ ¬WithheldOnce info := by
  have hframes := regionFrames_bounds info
  have hpages := bitmapPages_pos info
  have hbits := usedBits_le_usedFrames info words
  have hmarked {k : Nat} (hk : k < (memoryRegion info).size / pageSize) :
      Bitmap.test (bootPmm info words).bitmap k = true ↔ k < 511 + bitmapPages info ∨
        ∃ e ∈ info.entries, Withheld (memoryRegion info).base (memoryRegion info).size e k := by
    rw [mem_marked_iff info words hk, holdsBitmap_iff info hk (by omega), hfirst, ← or_assoc]
    exact or_congr_left (by omega)
  have hlow : 511 + bitmapPages info ≤ usedBits (bootPmm info words) := by
    rw [← Finset.card_range (511 + bitmapPages info)]
    apply card_le_usedBits
    intro k hk
    have hk := Finset.mem_range.mp hk
    exact ⟨by omega, (hmarked (by omega)).mpr (.inl hk)⟩
  constructor
  · intro hle
    by_contra hnot
    obtain ⟨hnone, honce⟩ := not_or.mp hnot
    have hexact := (usedFrames_eq_iff info words).mpr (not_not.mp honce)
    have hhigh : usedBits (bootPmm info words) ≤ 511 + bitmapPages info := by
      rw [← Finset.card_range (511 + bitmapPages info)]
      apply usedBits_le_card
      intro k hk htest
      rw [Finset.mem_range]
      by_contra hge
      refine hnone ⟨k, hk, not_lt.mp hge, ?_⟩
      exact ((hmarked hk).mp htest).resolve_left hge
    omega
  · rintro (⟨k, hk, hge, hwithheld⟩ | honce)
    · -- one more frame is marked
      refine le_trans ?_ hbits
      have hcard : (insert k (Finset.range (511 + bitmapPages info))).card =
          512 + bitmapPages info := by
        rw [Finset.card_insert_of_notMem (by rw [Finset.mem_range]; omega), Finset.card_range]
        omega
      rw [← hcard]
      apply card_le_usedBits
      intro j hj
      rcases Finset.mem_insert.mp hj with rfl | hj
      · exact ⟨hk, (hmarked hk).mpr (.inr hwithheld)⟩
      · have hj := Finset.mem_range.mp hj
        exact ⟨by omega, (hmarked (by omega)).mpr (.inl hj)⟩
    · -- a frame withheld twice is counted twice
      have hne : (bootPmm info words).usedFrames ≠ usedBits (bootPmm info words) :=
        fun heq => honce ((usedFrames_eq_iff info words).mp heq)
      omega

end Counter

/-- The frames marked for the bitmap are managed, behind those of the kernel, and the storage
reaches into no other managed frame; or the storage begins in the last frame of the kernel,
takes one frame more than it has pages, and the memory map withholds a frame from there on or
some frame twice. -/
def ReservedExact (info : MemoryInfo) : Prop :=
  512 ≤ firstFrame info ∧
      firstFrame info + bitmapPages info ≤ (memoryRegion info).size / pageSize ∧
      (lastFrame info < firstFrame info + bitmapPages info ∨
        lastFrame info = (memoryRegion info).size / pageSize) ∨
    firstFrame info = 511 ∧ lastFrame info = 511 + bitmapPages info ∧
      lastFrame info < (memoryRegion info).size / pageSize ∧
      (WithheldFrom info (lastFrame info) ∨ ¬WithheldOnce info)

/-- The reported number is that of the occupied frames, and no more than the used ones, exactly
under that condition on the memory map. -/
theorem reserved_frames_iff (info : MemoryInfo) (words : Bitmap.Words 32) :
    ((pmmGetStats (bootPmm info words)).reservedFrames =
        (occupiedFrames (bootPmm info words)).ncard ∧
      (pmmGetStats (bootPmm info words)).reservedFrames ≤
        (pmmGetStats (bootPmm info words)).usedFrames) ↔ ReservedExact info := by
  rw [reservedFrames_bootPmm, ncard_eq_iff, pmmGetStats_usedFrames, ReservedExact]
  constructor
  · rintro ⟨hbehind | ⟨hfirst, hlast, hlt⟩, hle⟩
    · exact .inl hbehind
    · rw [pages_le_usedFrames_iff info words hfirst (hlast ▸ hlt), ← hlast] at hle
      exact .inr ⟨hfirst, hlast, hlt, hle⟩
  · rintro (hbehind | ⟨hfirst, hlast, hlt, hmore⟩)
    · exact ⟨.inl hbehind, pages_le_usedFrames info words hbehind.1 hbehind.2.1⟩
    · refine ⟨.inr ⟨hfirst, hlast, hlt⟩, ?_⟩
      rw [pages_le_usedFrames_iff info words hfirst (hlast ▸ hlt), ← hlast]
      exact hmore

def scatteredMap : MemoryInfo where
  entries := [available 0x400000 0x100000]
  totalMemory := 0x100000
  availableMemory := 0x100000
  count_le := by decide

example : ReservedExact scatteredMap := .inl (by decide)

/-- With 128 MiB the bitmap lies in frame 257, among those of the kernel, and is counted again. -/
theorem reserved_frames_failure :
    (pmmGetStats (bootPmm smallMap fun _ => 0)).reservedFrames = 513 ∧
    (occupiedFrames (bootPmm smallMap fun _ => 0)).ncard = 512 ∧
    ¬∀ info words, (pmmGetStats (bootPmm info words)).reservedFrames =
        (occupiedFrames (bootPmm info words)).ncard ∧
      (pmmGetStats (bootPmm info words)).reservedFrames ≤
        (pmmGetStats (bootPmm info words)).usedFrames := by
  have hreserved : (pmmGetStats (bootPmm smallMap fun _ => 0)).reservedFrames = 513 := by
    rw [reservedFrames_bootPmm, bitmapPages, bitmapLength_smallMap]
    rfl
  have hoffset : bitmapOffset smallMap = 0x101000 := by
    rw [bitmapOffset, bitmapPlace_smallMap, memoryRegion_smallMap]
    rfl
  have hoccupied : (occupiedFrames (bootPmm smallMap fun _ => 0)).ncard = 512 := by
    rw [ncard_occupiedFrames, firstFrame, lastFrame, wrappedFrames, hoffset,
      bitmapLength_smallMap, memoryRegion_smallMap]
    rfl
  refine ⟨hreserved, hoccupied, fun hclaim => ?_⟩
  have hcount := (hclaim smallMap fun _ => 0).1
  rw [hreserved, hoccupied] at hcount
  exact absurd hcount (by decide)

end AlvOS.Kernel
