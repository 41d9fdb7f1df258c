import AlvOS.Lib.Gaps
import AlvOS.Kmalloc.Runs

/-! Completeness of allocation: a request is refused exactly when no gap between the
used blocks has room for it, a refusal leaves the memory alone, and an answer is
cleared memory beside the blocks that were there. -/

namespace AlvOS.Kmalloc
open ByteMemory Word BlockList Set CString Fuel

section Complete
variable {h h' : Heap} {bs : List Block} {n r : Nat}

theorem roundedSize_heapAlignment (hn : n ≤ 2 ^ 32 - 16) :
    roundedSize n heapAlignment = (n + 15) / 16 * 16 := by
  have hround : alignUp n 16 = (n + 15) % 2 ^ 32 / 16 * 16 :=
    alignUp_two_pow n (show 4 < 32 by decide)
  have hvalid : validAlignment heapAlignment = 16 := by decide
  have hfits : (n + 15) % 2 ^ 32 = n + 15 := Nat.mod_eq_of_lt (by omega)
  rw [roundedSize, hvalid, hround, hfits]

theorem Holds.no_fit_iff (hh : Holds h bs) (s : Nat) : (∀ b ∈ bs, ¬Fits s b) ↔
    ∀ lo hi, IsGap (coveredBytes 29 heapStart bs) heapStart (heapStart + heapSize) lo hi →
      hi - lo < s + 29 := by
  have hgaps := no_fit_iff_gaps (a := heapStart) s (show 0 < 29 by decide) hh.arena.coalesced
  rwa [hh.arena.fills] at hgaps

theorem allocMem_cleared (m : Mem) (a s : Nat) {i : Nat} (hi : i < s) :
    allocMem m a s (a + 29 + i) = 0 := by
  rw [allocMem, memset, fill_apply, if_pos ⟨by omega, by omega⟩]
  rfl

/-- A call of `kmalloc`: refused with the counter raised, or served from the first block
with room. -/
theorem Holds.exists_kmalloc (hh : Holds h bs) (hn : n ≠ 0) :
    let s := roundedSize n heapAlignment
    ((∀ b ∈ bs, ¬Fits s b) ∧
      Returns (fun fuel => kmalloc fuel h n) (h.allocationFailed (outOfMemory s), 0)) ∨
    ∃ pre b post, FirstFit s bs pre b post ∧
      Returns (fun fuel => kmalloc fuel h n)
        (h.allocated (heapStart + extent 29 pre) s, heapStart + extent 29 pre + 29) := by
  dsimp only
  rcases firstFit_or_none (roundedSize n heapAlignment) bs with hnone | ⟨pre, b, post, hfit⟩
  · exact .inl ⟨hnone, _, kmallocAligned_none hh hn hnone (Nat.lt_succ_self _)⟩
  · exact .inr ⟨pre, b, post, hfit, _, kmallocAligned_firstFit hh hn hfit (Nat.lt_succ_self _)⟩

end Complete

/-- `kmalloc` refuses exactly when every gap is too short for the rounded request and a
header.  A refusal changes nothing but the counter of failures and the screen; an
answer starts `n` cleared bytes, and the other used blocks stay where they were. -/
theorem kmalloc_complete {s : State} (hs : heapSystem.Reachable s) {n : Nat} (hpos : 0 < n)
    (hn : n ≤ 2 ^ 32 - 16) : ∃ bs h r, Tiles s bs ∧
      Returns (fun fuel => kmalloc fuel s.heap n) (h, r) ∧
      (r = 0 ↔ ∀ lo hi,
        IsGap (coveredBytes 29 heapStart bs) heapStart (heapStart + heapSize) lo hi →
          hi - lo < (n + 15) / 16 * 16 + 29) ∧
      (r = 0 → Holds h bs ∧ h = { s.heap with
        failedAllocations := u32 (s.heap.failedAllocations + 1)
        console := h.console }) ∧
      (r ≠ 0 → (∀ i < n, h.mem (r + i) = 0) ∧
        ∃ bs' k, Holds h bs' ∧
          (allocations 29 heapStart bs').Perm ((r, k) :: allocations 29 heapStart bs)) := by
  obtain ⟨bs, ht⟩ := exists_tiles hs
  have hround := roundedSize_heapAlignment hn
  have hgaps := ht.holds.no_fit_iff (roundedSize n heapAlignment)
  have hle := le_roundedSize (by decide) (roundable_heapAlignment.mpr hn)
  rcases ht.holds.exists_kmalloc hpos.ne' with ⟨hnone, hret⟩ | ⟨pre, b, post, hfit, hret⟩
  · refine ⟨bs, _, 0, ht, hret, ⟨fun _ => ?_, fun _ => rfl⟩, fun _ => ?_, fun hr => absurd rfl hr⟩
    · rw [← hround]
      exact hgaps.mp hnone
    · exact ⟨ht.holds.allocationFailed _, rfl⟩
  · have hr : heapStart + extent 29 pre + 29 ≠ 0 := by omega
    refine ⟨bs, _, _, ht, hret, ⟨fun h0 => absurd h0 hr, fun hshort => ?_⟩,
      fun h0 => absurd h0 hr, fun _ => ⟨fun i hi => ?_, ?_⟩⟩
    · rw [← hround] at hshort
      exact absurd hfit.fits (hgaps.mpr hshort b (by simp [hfit.split]))
    · exact allocMem_cleared _ _ _ (by omega)
    · exact ⟨_, _, ht.holds.allocated hfit, Holds.allocations_allocated hfit⟩

/-- The hole is given out, cleared. -/
theorem kmalloc_complete_holed : ∃ s h, heapSystem.Reachable s ∧ Holds s.heap holed ∧
    Returns (fun fuel => kmalloc fuel s.heap 16) (h, heapStart + 74) ∧
    (∀ i < 16, h.mem (heapStart + 74 + i) = 0) ∧ ∃ bs k, Holds h bs ∧
      (allocations 29 heapStart bs).Perm
        ((heapStart + 74, k) :: allocations 29 heapStart holed) := by
  obtain ⟨s, hs, hholds⟩ := exists_holed
  obtain ⟨bs, h, r, ht, hret, -, -, hserved⟩ :=
    kmalloc_complete hs (n := 16) (by decide) (by decide)
  obtain rfl := ht.holds.unique hholds
  obtain ⟨rfl, rfl⟩ := Prod.mk.inj (hret.unique (kmalloc_mono _ _) (returns_holed hholds))
  exact ⟨s, _, hs, hholds, hret, hserved (by decide)⟩

end AlvOS.Kmalloc
