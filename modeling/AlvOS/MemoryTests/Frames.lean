import AlvOS.Memory.Ownership
import AlvOS.MemoryTests.Defs

/-! The tests of the frame allocator.  What they take they give back, and the allocator is as
it was, the counter and every bit. -/

namespace AlvOS.Memory
open Word

section RoundTrip
variable {p : Pmm} {n : Nat}

theorem allocFrames_freeFrames (hbase : p.memoryBase ≠ 0)
    (hwrap : p.memoryBase + p.memorySize < 2 ^ 64) (hn : 0 < n)
    (hused : p.usedFrames + n < 2 ^ 64) :
    (∃ q addr s, FreeRun p s n ∧ allocFrames p n = (q, addr) ∧ addr ≠ 0 ∧
      q.usedFrames = p.usedFrames + n ∧ freeFrames q addr n = p) ∨
    (allocFrames p n = (p, 0) ∧ ∀ s, ¬FreeRun p s n) := by
  have hsize := totalFrames_mul_le p
  refine (allocFrames_spec hn).imp_left ?_
  rintro ⟨s, b, hrun, -, heq, hbits⟩
  have hfit := hrun.1
  have haddr : frameAddr p s = p.memoryBase + s * pageSize := frameAddr_eq hwrap (by omega)
  refine ⟨_, _, s, hrun, heq, frameAddr_ne_zero hbase (by omega) (by omega), u64_of_lt hused, ?_⟩
  obtain ⟨c, u, hfree, hclear, hcount⟩ :=
    freeFrames_spec (p := p.put b (u64 (p.usedFrames + n))) hwrap hn hfit
  have hbitmap : c = p.bitmap := by
    refine Bitmap.ext (by decide) fun k => ?_
    rw [hclear, put_bitmap, hbits]
    by_cases hk : s ≤ k ∧ k < s + n
    · rw [hrun.2 k hk.1 hk.2]
      simp [hk]
    · simp [hk]
  have hback : u = p.usedFrames := by
    rw [hcount fun j h1 h2 => by rw [put_bitmap, hbits]; simp [h1, h2], put_usedFrames,
      u64_of_lt hused, Nat.add_sub_cancel]
  rw [put_memoryBase] at hfree
  rw [haddr, hfree, put_put, hbitmap, hback]
  rfl

end RoundTrip

end AlvOS.Memory

namespace AlvOS.MemoryTests
open Word Memory

/-- Between `b` and `b'` there are only lines on the console, `failures` of them of tests that
failed; the frame allocator has come to `p`. -/
structure Bench.Shows (b b' : Bench) (p : Pmm) (failures : Nat) : Prop where
  pmm : b'.pmm = p
  heap : ∃ calls, b'.heap = b.heap.print calls
  failed : b'.testsFailed = b.testsFailed + failures

namespace Bench.Shows
variable {b b' : Bench} {p : Pmm} {k n : Nat}

theorem refl (b : Bench) : b.Shows b b.pmm 0 :=
  ⟨rfl, ⟨[], by rw [Kmalloc.Heap.print, List.append_nil]⟩, rfl⟩

theorem trans {b'' : Bench} {q : Pmm} {j : Nat} (h : b.Shows b' p j) (h' : b'.Shows b'' q k) :
    b.Shows b'' q (j + k) := by
  obtain ⟨-, ⟨before, hheap⟩, hfailed⟩ := h
  obtain ⟨hpmm, ⟨calls, hheap'⟩, hfailed'⟩ := h'
  refine ⟨hpmm, ⟨before ++ calls, ?_⟩, by rw [hfailed', hfailed, Nat.add_assoc]⟩
  rw [hheap', hheap, Kmalloc.Heap.print, Kmalloc.Heap.print, Kmalloc.Heap.print, List.append_assoc]

theorem print (h : b.Shows b' p k) (calls : Console) : b.Shows (b'.print calls) p k := by
  obtain ⟨hpmm, ⟨before, hheap⟩, hfailed⟩ := h
  refine ⟨hpmm, ⟨before ++ calls, ?_⟩, hfailed⟩
  rw [Bench.print, hheap, Kmalloc.Heap.print, Kmalloc.Heap.print, Kmalloc.Heap.print,
    List.append_assoc]

theorem info (h : b.Shows b' p k) (message : String) : b.Shows (b'.testPrintInfo message) p k :=
  h.print _

theorem warn (h : b.Shows b' p k) (message : String) : b.Shows (b'.testPrintWarn message) p k :=
  h.print _

theorem pass (h : b.Shows b' p k) (name : String) : b.Shows (b'.testPrintPass name) p k :=
  ⟨h.pmm, (h.print _).heap, h.failed⟩

theorem fail (h : b.Shows b' p k) (name : String) : b.Shows (b'.testPrintFail name) p (k + 1) :=
  ⟨h.pmm, (h.print _).heap, congrArg (· + 1) h.failed⟩

theorem report (h : b.Shows b' p k) (ok : Bool) (line : String) :
    b.Shows (reportUnless ok b' line) p k := by
  cases ok
  · exact h.print _
  · exact h

theorem allocFrames (h : b.Shows b' p k) (n : Nat) :
    b.Shows (b'.allocFrames n).1 (Memory.allocFrames p n).1 k ∧
      (b'.allocFrames n).2 = (Memory.allocFrames p n).2 := by
  obtain ⟨rfl, hheap, hfailed⟩ := h
  exact ⟨⟨rfl, hheap, hfailed⟩, rfl⟩

theorem freeFrames (h : b.Shows b' p k) (addr n : Nat) :
    b.Shows (b'.freeFrames addr n) (Memory.freeFrames p addr n) k := by
  obtain ⟨rfl, hheap, hfailed⟩ := h
  exact ⟨rfl, hheap, hfailed⟩

end Bench.Shows

/-- The managed memory neither begins at zero nor reaches the top, and no count wraps. -/
structure Sound (p : Pmm) : Prop where
  base : p.memoryBase ≠ 0
  below : p.memoryBase + p.memorySize < 2 ^ 64
  used_lt : p.usedFrames < 2 ^ 63

section Frames
variable {b : Bench}

/-- `test_pmm_alloc_multiple` fails only for want of ten free frames in a row. -/
theorem testPmmAllocMultiple_shows (hp : Sound b.pmm) :
    ∃ k, b.Shows (testPmmAllocMultiple b) b.pmm k ∧ (k = 0 ↔ ∃ s, FreeRun b.pmm s 10) := by
  have hinfo := (Bench.Shows.refl b).info "Test: PMM allocar múltiples frames..."
  rw [testPmmAllocMultiple]
  generalize b.testPrintInfo "Test: PMM allocar múltiples frames..." = b1 at hinfo ⊢
  obtain ⟨hshows, haddr⟩ := hinfo.allocFrames 10
  dsimp only
  have hused := hp.used_lt
  rcases allocFrames_freeFrames hp.base hp.below (n := 10) (by decide) (by omega) with
    ⟨q, addr, s, hrun, halloc, hne, hcount, hfree⟩ | ⟨halloc, hnone⟩
  · rw [halloc] at hshows haddr
    have hback := hshows.freeFrames addr 10
    rw [hfree] at hback
    have htaken : (pmmGetStats (b1.allocFrames 10).1.pmm).usedFrames =
        u64 ((pmmGetStats b1.pmm).usedFrames + 10) := by
      rw [hshows.pmm, hinfo.pmm, pmmGetStats_usedFrames, pmmGetStats_usedFrames, hcount,
        u64_of_lt (by omega)]
    have hgiven : ((b1.allocFrames 10).1.freeFrames addr 10).pmm = b1.pmm := by
      rw [hback.pmm, hinfo.pmm]
    rw [haddr, if_neg hne, if_pos htaken, if_pos (by rw [hgiven])]
    exact ⟨0, hback.pass _, iff_of_true rfl ⟨s, hrun⟩⟩
  · rw [halloc] at hshows haddr
    rw [haddr, if_pos rfl]
    exact ⟨1, hshows.fail _, iff_of_false (by decide) fun ⟨s, hs⟩ => hnone s hs⟩

theorem testPmmStats_shows (hp : Sound b.pmm) :
    ∃ k, b.Shows (testPmmStats b) b.pmm k ∧ (k = 0 ↔ (pmmGetStats b.pmm).usagePercent ≤ 100) := by
  have htotal : (pmmGetStats b.pmm).totalFrames =
      u64 ((pmmGetStats b.pmm).usedFrames + (pmmGetStats b.pmm).freeFrames) := by
    have hle := totalFrames_lt b.pmm
    have hused := hp.used_lt
    dsimp only [pmmGetStats, u64]
    omega
  have hbytes : (pmmGetStats b.pmm).totalBytes =
      u64 ((pmmGetStats b.pmm).totalFrames * pageSize) := rfl
  have hinfo := (Bench.Shows.refl b).info "Test: Estadísticas del PMM..."
  have hpmm : (b.testPrintInfo "Test: Estadísticas del PMM...").pmm = b.pmm := rfl
  simp only [testPmmStats, hpmm, decide_eq_true htotal, decide_eq_true hbytes, Bool.true_and]
  have hlines := ((hinfo.report true "  [ERROR] Total != Used + Free\n").report true
    "  [ERROR] Total bytes incorrecto\n").report
      (decide ((pmmGetStats b.pmm).usagePercent ≤ 100)) "  [ERROR] Porcentaje > 100\n"
  split_ifs with hpercent
  · exact ⟨0, (hlines.pass _).print _, iff_of_true rfl (by simpa using hpercent)⟩
  · exact ⟨1, hlines.fail _, iff_of_false (by decide) (by simpa using hpercent)⟩

theorem contiguousFrom_eq (addr : Nat) : contiguousFrom addr = true := by
  rw [contiguousFrom, List.all_eq_true]
  intro i _
  rw [decide_eq_true_eq, Nat.succ_mul, ← Nat.add_assoc, u64, u64, u64, Nat.mod_add_mod]

theorem testPmmContiguousLarge_shows (hp : Sound b.pmm) :
    b.Shows (testPmmContiguousLarge b) b.pmm 0 := by
  have hinfo := (Bench.Shows.refl b).info "Test: PMM bloques contiguos grandes..."
  rw [testPmmContiguousLarge]
  generalize b.testPrintInfo "Test: PMM bloques contiguos grandes..." = b1 at hinfo ⊢
  obtain ⟨hshows, haddr⟩ := hinfo.allocFrames 100
  simp only [contiguousFrom_eq, if_true]
  have hused := hp.used_lt
  rcases allocFrames_freeFrames hp.base hp.below (n := 100) (by decide) (by omega) with
    ⟨q, addr, s, -, halloc, hne, -, hfree⟩ | ⟨halloc, -⟩
  · rw [halloc] at hshows haddr
    have hback := hshows.freeFrames addr 100
    rw [hfree] at hback
    rw [haddr, if_neg hne]
    exact hback.pass _
  · rw [halloc] at hshows haddr
    rw [haddr, if_pos rfl]
    exact (hshows.warn _).print _

theorem pmmTests_shows (hp : Sound b.pmm) :
    ∃ k, b.Shows (testPmmContiguousLarge (testPmmStats (testPmmAllocMultiple b))) b.pmm k ∧
      (k = 0 ↔ (∃ s, FreeRun b.pmm s 10) ∧ (pmmGetStats b.pmm).usagePercent ≤ 100) := by
  obtain ⟨j, hshows1, hj⟩ := testPmmAllocMultiple_shows hp
  obtain ⟨k, hshows2, hk⟩ := testPmmStats_shows (b := testPmmAllocMultiple b) (hshows1.pmm ▸ hp)
  rw [hshows1.pmm] at hshows2 hk
  have hshows3 := testPmmContiguousLarge_shows (b := testPmmStats (testPmmAllocMultiple b))
    (hshows2.pmm ▸ hp)
  rw [hshows2.pmm] at hshows3
  refine ⟨j + k, (hshows1.trans hshows2).trans hshows3, ?_⟩
  rw [Nat.add_eq_zero_iff, hj, hk]

end Frames

end AlvOS.MemoryTests
