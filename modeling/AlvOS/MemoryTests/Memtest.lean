import AlvOS.MemoryTests.Frames
import AlvOS.MemoryTests.Heaps

/-! The whole suite and the `memtest` command.  Where some free block has 32 KiB, the suite
leaves the heap and the frame allocator as it found them; on any other heap a loss is announced
by a failed test and measured to the byte by the last lines of the command. -/

namespace AlvOS.MemoryTests
open ByteMemory BlockList Word Fuel Kmalloc Memory Set

section Suite
variable {b b1 : Bench} {bs cs : List Block} {owned : List (Nat × Nat)} {k : Nat}

theorem Bench.Tested.andThen (h : b.Tested bs b1) (hh : Holds b.heap bs) {test : Bench → Comp Bench}
    (htest : ∀ cs, Holds b1.heap cs → (test b1).Yields fun b2 => b1.Tested cs b2) :
    (test b1).Yields fun b2 => b.Tested bs b2 := by
  obtain ⟨cs, hcs, -⟩ := h.choose_spec.choose_spec.1.borrowed.blocks
  refine (htest cs hcs).imp fun b2 h2 => h.trans hh fun ds hds => ?_
  obtain rfl := hcs.unique hds
  exact h2

/-- What the suite comes to: `j` tests of the heap and `k` of the frame allocator fail. -/
structure Bench.SuiteEnds (b : Bench) (bs : List Block) (b' : Bench) (owned : List (Nat × Nat))
    (j k : Nat) : Prop where
  ends : b.Ends bs b' owned (j + k)
  leak : j = 0 → owned = []
  room : Roomy b.heap testRoom → j = 0
  frames : k = 0 ↔ (∃ s, FreeRun b.pmm s 10) ∧ (pmmGetStats b.pmm).usagePercent ≤ 100

theorem Bench.Shows.ends (h : b.Shows b1 b.pmm k) (hh : Holds b.heap bs) : b.Ends bs b1 [] k := by
  obtain ⟨calls, hheap⟩ := h.heap
  exact ⟨h.pmm, h.failed, hheap ▸ hh.borrowed.print calls⟩

theorem runMemoryTests_ends (l : Locals) (hh : Holds b.heap bs) (hp : Sound b.pmm) :
    (runMemoryTests l b).Yields fun b' => ∃ owned j k, b.SuiteEnds bs b' owned j k := by
  rw [runMemoryTests]
  have hstart : b.Tested bs b := ⟨[], 0, ⟨rfl, rfl, hh.borrowed⟩, fun _ => rfl, fun _ => rfl⟩
  refine ((hstart.print _).andThen hh fun cs hcs =>
    testKmallocAllocFreeBasic_tested l hcs).bind fun b1 h1 => ?_
  refine (h1.andThen hh fun cs hcs => testKmallocCoalesce_tested l hcs).bind fun b2 h2 => ?_
  refine (h2.andThen hh fun cs hcs =>
    (testKrealloc_restored hcs).imp fun _ h => h.tested).bind fun b3 h3 => ?_
  refine (h3.andThen hh fun cs hcs =>
    (testKcalloc_restored hcs).imp fun _ h => h.tested).bind fun b4 h4 => ?_
  refine (h4.andThen hh fun cs hcs =>
    (testDoubleFree_restored hcs).imp fun _ h => h.tested).bind fun b5 h5 => ?_
  refine (h5.andThen hh fun cs hcs =>
    (testKmallocStress_restored l hcs).imp fun _ h => h.tested).bind fun b6 h6 => ?_
  obtain ⟨owned, j, hends, hleak, hroom⟩ := h6.print [.writestring "\n",
    .setcolor .lightBrown .black, .writestring "--- Tests de PMM MEJORADO ---\n\n"]
  dsimp only
  generalize b6.print [.writestring "\n", .setcolor .lightBrown .black,
    .writestring "--- Tests de PMM MEJORADO ---\n\n"] = b7 at hends ⊢
  obtain ⟨cs, hcs, -⟩ := hends.borrowed.blocks
  obtain ⟨k, hshows, hframes⟩ := pmmTests_shows (b := b7) (hends.pmm ▸ hp)
  have hpmm := (hshows.ends hcs).print [.writestring "\n", .setcolor .lightBrown .black,
    .writestring "--- Tests de FRAGMENTACIÓN ---\n\n"]
  generalize Bench.print (testPmmContiguousLarge _) _ = b8 at hpmm ⊢
  have hcs' := hpmm.borrowed.holds hcs
  refine (testHeapFragmentation_restored l hcs').bind fun b9 ⟨i, hfrag, hfits⟩ => ?_
  have hall := (hends.trans hcs hpmm).trans hcs' hfrag
  rw [Nat.add_right_comm] at hall
  refine Comp.yields_pure.mpr ⟨owned, j + i, k, hall.print _, fun hzero => hleak (by omega),
    fun hr => ?_, ?_⟩
  · obtain rfl := hroom hr
    obtain rfl := hleak rfl
    rw [hfits (hpmm.roomy hcs (hends.roomy hh hr))]
  · rw [hframes, hends.pmm]

theorem Bench.SuiteEnds.of_print {calls : Console} {j : Nat}
    (h : (b.print calls).SuiteEnds bs b1 owned j k) : b.SuiteEnds bs b1 owned j k where
  ends := ⟨h.ends.pmm, h.ends.failed, h.ends.borrowed.blocks, h.ends.borrowed.kept⟩
  leak := h.leak
  room hr := h.room (hr.print calls)
  frames := h.frames

theorem Bench.SuiteEnds.print {j : Nat} (h : b.SuiteEnds bs b1 owned j k) (calls : Console) :
    b.SuiteEnds bs (b1.print calls) owned j k :=
  ⟨h.ends.print calls, h.leak, h.room, h.frames⟩

theorem used_grows {h h' : Heap} {cs : List Block} (hb : Borrowed h bs h' owned)
    (hcs : Holds h' cs) :
    (report h' cs).usedSize = (report h bs).usedSize + (owned.map Prod.snd).sum ∧
      (report h' cs).usedSize < heapSize := by
  obtain ⟨cs', hcs', hall⟩ := hb.blocks
  obtain rfl := hcs.unique hcs'
  have hsum := (hall.map Prod.snd).sum_eq
  have hfills := hcs.arena.fills
  rw [List.map_append, List.sum_append, ← totalSize_false, ← totalSize_false] at hsum
  have hne := hcs.arena.ne_nil (by decide)
  have hpos := List.length_pos_of_ne_nil hne
  rw [extent_eq_totalSize] at hfills
  simp only [report, HeapStats.plus]
  omega

/-- What `memtest` comes to on any heap. -/
theorem shellCmdMemtest_ends (l : Locals) (hh : Holds b.heap bs) (hp : Sound b.pmm) :
    (shellCmdMemtest l b).Yields fun b' => ∃ owned j k before, b.SuiteEnds bs b' owned j k ∧
      b'.heap.console = before ++
        (leakReport 0 (owned.map Prod.snd).sum ++ [.writestring "\n"]) := by
  have hstats : ∀ {b' : Bench} {cs : List Block}, Holds b'.heap cs → ∀ calls,
      ((b'.print calls).heapGetStats l.stats).Yields fun s => s = report b'.heap cs :=
    fun hcs calls => Bench.heapGetStats_yields (hcs.print calls) l.stats
  rw [shellCmdMemtest]
  refine (hstats hh _).bind fun heapInitial hinitial => ?_
  extract_lets b0
  have hstart : Holds b0.heap bs ∧ Sound b0.pmm ∧
      ∀ {b1 : Bench} {owned : List (Nat × Nat)} {j k : Nat},
        b0.SuiteEnds bs b1 owned j k → b.SuiteEnds bs b1 owned j k :=
    ⟨(hh.print _).print _, hp, fun h => h.of_print.of_print⟩
  clear_value b0
  obtain ⟨hholds, hsound, hback⟩ := hstart
  refine (runMemoryTests_ends l hholds hsound).bind fun b1 ⟨owned, j, k, hends⟩ => ?_
  have hends := hback hends
  obtain ⟨cs, hcs, -⟩ := hends.ends.borrowed.blocks
  refine (hstats hcs _).bind fun heapFinal hfinal => ?_
  obtain ⟨hgrows, hlt⟩ := used_grows hends.ends.borrowed hcs
  have hpmm : u64 (b1.pmm.usedFrames + (2 ^ 64 - b.pmm.usedFrames)) = 0 := by
    have hused := hp.used_lt
    rw [hends.ends.pmm, u64]
    omega
  have hheap : u64 (heapFinal.usedSize + (2 ^ 64 - heapInitial.usedSize)) =
      (owned.map Prod.snd).sum := by
    have hsize := heapSize_eq
    rw [hfinal, hinitial, u64]
    omega
  exact Comp.yields_pure.mpr ⟨owned, j, k, _, (((hends.print _).print _).print _).print _,
    congrArg₂ (fun pmmDiff heapDiff => _ ++ (leakReport pmmDiff heapDiff ++ _)) hpmm hheap⟩

end Suite

section Results
variable {b : Bench} {bs : List Block}

/-- With 32 KiB in one free block `memtest` leaves no trace: the same blocks, the same bytes in
the used ones and outside the heap, the same frames.  Its last lines say so, and a test fails
only where the frame allocator gives cause. -/
theorem memtest_leaves_no_trace (l : Locals) (hh : Holds b.heap bs)
    (hroom : ∃ c ∈ bs, Fits testRoom c) (hp : Sound b.pmm) :
    (shellCmdMemtest l b).Yields fun b' => Holds b'.heap bs ∧
      EqOn b'.heap.mem b.heap.mem (usedBytes 29 heapStart bs ∪ arenaBytesᶜ) ∧
      b'.pmm = b.pmm ∧
      (∃ before, b'.heap.console = before ++ [.setcolor .green .black,
        .writestring "No se detectaron memory leaks\n", .writestring "\n"]) ∧
      (b'.testsFailed = b.testsFailed ↔
        (∃ s, FreeRun b.pmm s 10) ∧ (pmmGetStats b.pmm).usagePercent ≤ 100) := by
  refine (shellCmdMemtest_ends l hh hp).imp fun b' ⟨owned, j, k, before, hends, hconsole⟩ => ?_
  obtain rfl := hends.room ⟨bs, hh, hroom⟩
  obtain rfl := hends.leak rfl
  refine ⟨hends.ends.borrowed.holds hh, hends.ends.borrowed.kept, hends.ends.pmm,
    ⟨before, hconsole⟩, ?_⟩
  rw [hends.ends.failed, ← hends.frames]
  omega

/-- Whatever the heap has room for, `memtest` terminates with every frame given back.  What it
leaves allocated it owns, beside blocks and bytes that are as before; a test has failed then,
and the last lines give the number of bytes. -/
theorem memtest_measures_leaks (l : Locals) (hh : Holds b.heap bs) (hp : Sound b.pmm) :
    (shellCmdMemtest l b).Yields fun b' => ∃ owned before, Borrowed b.heap bs b'.heap owned ∧
      b'.pmm = b.pmm ∧ (owned ≠ [] → b.testsFailed < b'.testsFailed) ∧
      b'.heap.console = before ++
        (leakReport 0 (owned.map Prod.snd).sum ++ [.writestring "\n"]) := by
  refine (shellCmdMemtest_ends l hh hp).imp fun b' ⟨owned, j, k, before, hends, hconsole⟩ => ?_
  refine ⟨owned, before, hends.ends.borrowed, hends.ends.pmm, fun hne => ?_, hconsole⟩
  have hj : j ≠ 0 := fun h => hne (hends.leak h)
  rw [hends.ends.failed]
  omega

/-- Five of the tests give everything back on any heap, however little room it has. -/
theorem tests_restore_heap (l : Locals) (hh : Holds b.heap bs) :
    ∀ test ∈ [testKrealloc, testKcalloc, testDoubleFree, testKmallocStress l,
        testHeapFragmentation l],
      (test b).Yields fun b' => Holds b'.heap bs ∧
        EqOn b'.heap.mem b.heap.mem (usedBytes 29 heapStart bs ∪ arenaBytesᶜ) ∧
        b'.pmm = b.pmm := by
  have hall : ∀ b', b.Restored bs b' → Holds b'.heap bs ∧
      EqOn b'.heap.mem b.heap.mem (usedBytes 29 heapStart bs ∪ arenaBytesᶜ) ∧ b'.pmm = b.pmm :=
    fun b' ⟨_, hends, _⟩ => ⟨hends.borrowed.holds hh, hends.borrowed.kept, hends.pmm⟩
  simp only [List.forall_mem_cons, List.not_mem_nil, false_imp_iff, implies_true, and_true]
  exact ⟨(testKrealloc_restored hh).imp hall, (testKcalloc_restored hh).imp hall,
    (testDoubleFree_restored hh).imp hall, (testKmallocStress_restored l hh).imp hall,
    (testHeapFragmentation_restored l hh).imp hall⟩

end Results

/-- A fresh heap beside 512 clear frames. -/
def freshBench : Bench where
  heap := State.fresh.heap
  pmm := clearFrames
  testsPassed := 0
  testsFailed := 0
  apart := by
    left
    decide

def freshLocals : Locals := ⟨report State.fresh.heap [], fun _ => 0⟩

theorem freshBench_holds : Holds freshBench.heap [⟨heapSize - 29, true⟩] := heapInit_holds _

theorem freshBench_sound : Sound freshBench.pmm := ⟨by decide, by decide, by decide⟩

/-- There are ten frames in a row, so no test fails. -/
theorem memtest_leaves_no_trace_fresh : (shellCmdMemtest freshLocals freshBench).Yields fun b' =>
    Holds b'.heap [⟨heapSize - 29, true⟩] ∧ b'.pmm = clearFrames ∧ b'.testsFailed = 0 := by
  have hten : ∃ s, FreeRun freshBench.pmm s 10 := ⟨0, by decide, fun k _ _ => clearFrames_test k⟩
  have husage : (pmmGetStats freshBench.pmm).usagePercent ≤ 100 := by decide
  refine (memtest_leaves_no_trace freshLocals freshBench_holds ⟨_, .head _, by decide⟩
    freshBench_sound).imp fun b' ⟨hholds, _, hpmm, _, hfailed⟩ => ?_
  exact ⟨hholds, hpmm, hfailed.mpr ⟨hten, husage⟩⟩

theorem memtest_measures_leaks_fresh : (shellCmdMemtest freshLocals freshBench).Yields fun b' =>
    ∃ owned before, Borrowed freshBench.heap [⟨heapSize - 29, true⟩] b'.heap owned ∧
      b'.pmm = clearFrames ∧ (owned ≠ [] → 0 < b'.testsFailed) ∧
      b'.heap.console = before ++
        (leakReport 0 (owned.map Prod.snd).sum ++ [.writestring "\n"]) :=
  memtest_measures_leaks freshLocals freshBench_holds freshBench_sound

theorem tests_restore_heap_fresh : (testKmallocStress freshLocals freshBench).Yields fun b' =>
    Holds b'.heap [⟨heapSize - 29, true⟩] ∧ b'.pmm = clearFrames :=
  (tests_restore_heap freshLocals freshBench_holds _ (by simp)).imp
    fun _ ⟨hholds, _, hpmm⟩ => ⟨hholds, hpmm⟩

end AlvOS.MemoryTests
