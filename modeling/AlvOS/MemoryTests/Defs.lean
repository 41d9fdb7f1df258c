import AlvOS.Kmalloc.Borrowing
import AlvOS.Kmalloc.Report
import AlvOS.Kmalloc.Validate
import AlvOS.Memory.Stats

/-! The tests of memory_tests.c and the `memtest` command, with the lines of test_suite.c
that they print.  The waits between the tests are left out. -/

namespace AlvOS.Memory
open Word

theorem allocFrames_put (p : Pmm) (n : Nat) : ∃ b u, (allocFrames p n).1 = p.put b u := by
  rcases Nat.eq_zero_or_pos n with rfl | hn
  · exact ⟨p.bitmap, p.usedFrames, by rw [allocFrames_zero]; rfl⟩
  · rcases allocFrames_spec (p := p) hn with ⟨s, b, -, -, heq, -⟩ | ⟨heq, -⟩
    · exact ⟨b, _, by rw [heq]⟩
    · exact ⟨p.bitmap, p.usedFrames, by rw [heq]; rfl⟩

theorem freeFrames_put (p : Pmm) (addr n : Nat) : ∃ b u, freeFrames p addr n = p.put b u := by
  rw [freeFrames]
  split_ifs
  · exact ⟨p.bitmap, p.usedFrames, rfl⟩
  · obtain ⟨b, u, heq, -⟩ := releaseFrames_put (p := p) ((addr - p.memoryBase) / pageSize) n
    exact ⟨b, u, heq⟩
  · exact ⟨p.bitmap, p.usedFrames, rfl⟩

end AlvOS.Memory

namespace AlvOS.MemoryTests
open ByteMemory Word Fuel Kmalloc Memory Function

def BitmapApart (p : Pmm) : Prop :=
  p.bitmapAddr + 4 * p.bitmapSize ≤ heapStart ∨ heapStart + heapSize ≤ p.bitmapAddr

/-- The two allocators and the counters of test_suite.c.  The bitmap is kept beside the
memory of the heap, which is right because it does not lie in the heap. -/
structure Bench where
  heap : Heap
  pmm : Pmm
  testsPassed : Nat
  testsFailed : Nat
  apart : BitmapApart pmm

/-- What a function's local variables hold before they are written. -/
structure Locals where
  stats : HeapStats
  pointers : Nat → Nat

/-! ## test_suite.c -/

namespace Bench

def print (b : Bench) (calls : Console) : Bench := { b with heap := b.heap.print calls }

def testLine (color : VgaColor) (tag text : String) : Console :=
  [.setcolor color .black, .writestring tag, .setcolor .lightGrey .black, .writestring text,
    .writestring "\n"]

def testPrintPass (b : Bench) (testName : String) : Bench :=
  { b.print (testLine .lightGreen "[PASS] " testName) with testsPassed := b.testsPassed + 1 }

def testPrintFail (b : Bench) (testName : String) : Bench :=
  { b.print (testLine .lightRed "[FAIL] " testName) with testsFailed := b.testsFailed + 1 }

def testPrintInfo (b : Bench) (message : String) : Bench :=
  b.print (testLine .lightCyan "[INFO] " message)

def testPrintWarn (b : Bench) (message : String) : Bench :=
  b.print (testLine .lightBrown "[WARN] " message)

/-! ## Calls of the allocators -/

def onHeap (b : Bench) (call : Heap → Comp (Heap × Nat)) : Comp (Bench × Nat) := do
  let a ← call b.heap
  pure ({ b with heap := a.1 }, a.2)

def kmalloc (b : Bench) (size : Nat) : Comp (Bench × Nat) := b.onHeap (·.kmalloc size)

def kcalloc (b : Bench) (nmemb size : Nat) : Comp (Bench × Nat) := b.onHeap (·.kcalloc nmemb size)

def krealloc (b : Bench) (ptr newSize : Nat) : Comp (Bench × Nat) :=
  b.onHeap (·.krealloc ptr newSize)

def kfree (b : Bench) (ptr : Nat) : Comp Bench := do
  let h ← b.heap.kfree ptr
  pure { b with heap := h }

def heapGetStats (b : Bench) (stats : HeapStats) : Comp HeapStats where
  run fuel := Kmalloc.heapGetStats fuel b.heap stats
  mono := heapGetStats_mono b.heap stats

def allocFrames (b : Bench) (count : Nat) : Bench × Nat :=
  ({ b with
      pmm := (Memory.allocFrames b.pmm count).1
      apart := by
        obtain ⟨bits, used, heq⟩ := allocFrames_put b.pmm count
        rw [heq]
        exact b.apart },
    (Memory.allocFrames b.pmm count).2)

def freeFrames (b : Bench) (startAddr count : Nat) : Bench :=
  { b with
    pmm := Memory.freeFrames b.pmm startAddr count
    apart := by
      obtain ⟨bits, used, heq⟩ := freeFrames_put b.pmm startAddr count
      rw [heq]
      exact b.apart }

end Bench

/-! ## Tests of the heap -/

/-- One turn of the first loop of the first test; it does nothing once the test has failed. -/
def allocateOrFail (i : Nat) : Bench × (Nat → Nat) × Bool → Comp (Bench × (Nat → Nat) × Bool)
  | (b, blocks, true) => pure (b, blocks, true)
  | (b, blocks, false) => do
    let (b, r) ← b.kmalloc 64
    if r = 0 then pure (b.testPrintFail "kmalloc/kfree básico", update blocks i r, true)
    else pure (b, update blocks i r, false)

def testKmallocAllocFreeBasic (l : Locals) (b : Bench) : Comp Bench := do
  let b := b.testPrintInfo "Test: kmalloc/kfree básico..."
  let statsBefore ← b.heapGetStats l.stats
  let (b, blocks, failed) ← Comp.forEach allocateOrFail 10 (b, l.pointers, false)
  if failed then pure b
  else do
    let b ← Comp.forEach (fun i b => b.kfree (blocks i)) 10 b
    let statsAfter ← b.heapGetStats l.stats
    if statsAfter.usedSize ≤ u64 (statsBefore.usedSize + 256) then
      pure (b.testPrintPass "kmalloc/kfree básico")
    else pure (b.testPrintWarn "kmalloc/kfree básico - posible fragmentación")

def testKmallocCoalesce (l : Locals) (b : Bench) : Comp Bench := do
  let b := b.testPrintInfo "Test: Coalescencia de bloques..."
  let (b, block1) ← b.kmalloc 100
  let (b, block2) ← b.kmalloc 100
  let (b, block3) ← b.kmalloc 100
  if block1 = 0 ∨ block2 = 0 ∨ block3 = 0 then
    pure (b.testPrintFail "Coalescencia - allocación falló")
  else do
    let statsBefore ← b.heapGetStats l.stats
    let blocksBefore := statsBefore.freeBlockCount
    let b ← b.kfree block1
    let b ← b.kfree block2
    let b ← b.kfree block3
    let statsAfter ← b.heapGetStats l.stats
    if statsAfter.freeBlockCount ≤ blocksBefore then
      let b := b.testPrintPass "Coalescencia de bloques"
      pure (b.print [.writestring "  Bloques libres antes: ", .printDec blocksBefore,
        .writestring ", después: ", .printDec statsAfter.freeBlockCount, .writestring "\n"])
    else pure (b.testPrintWarn "Coalescencia - bloques no fusionados correctamente")

def letterA : UInt8 := 0x41

/-- `str[i] = 'A' + i` for the first `n` bytes. -/
def storeLetters (m : Mem) (str : Nat) : Nat → Mem
  | 0 => m
  | i + 1 => update (storeLetters m str i) (str + i) (letterA + UInt8.ofNat i)

def lettersOk (m : Mem) (str : Nat) : Bool :=
  (List.range 9).all fun i => m (str + i) = letterA + UInt8.ofNat i

def testKrealloc (b : Bench) : Comp Bench := do
  let b := b.testPrintInfo "Test: krealloc..."
  let (b, str) ← b.kmalloc 10
  if str = 0 then pure (b.testPrintFail "krealloc - allocación inicial falló")
  else do
    let m := update (storeLetters b.heap.mem str 9) (str + 9) 0
    let b := { b with heap := { b.heap with mem := m } }
    let (b, newStr) ← b.krealloc str 20
    if newStr = 0 then (b.testPrintFail "krealloc - redimensión falló").kfree str
    else do
      let dataOk := lettersOk b.heap.mem newStr
      let b ← b.kfree newStr
      pure (if dataOk then b.testPrintPass "krealloc"
        else b.testPrintFail "krealloc - datos corrompidos")

def testKcalloc (b : Bench) : Comp Bench := do
  let b := b.testPrintInfo "Test: kcalloc..."
  let count := 50
  let (b, array) ← b.kcalloc count 4
  if array = 0 then pure (b.testPrintFail "kcalloc - allocación falló")
  else do
    let allZero := (List.range count).all fun i => readLE b.heap.mem (array + 4 * i) 4 = 0
    let b ← b.kfree array
    pure (if allZero then b.testPrintPass "kcalloc"
      else b.testPrintFail "kcalloc - memoria no limpia")

def testDoubleFree (b : Bench) : Comp Bench := do
  let b := b.testPrintInfo "Test: Detección de doble liberación..."
  let (b, ptr) ← b.kmalloc 100
  if ptr = 0 then pure (b.testPrintFail "Doble free - allocación falló")
  else do
    let b ← b.kfree ptr
    let b := b.print [.writestring "  Intentando doble free (debe mostrar warning):\n"]
    let b ← b.kfree ptr
    pure (b.testPrintPass "Detección de doble liberación")

def stressIterations : Nat := 100

def allocateStress (i : Nat) : Bench × (Nat → Nat) → Comp (Bench × (Nat → Nat))
  | (b, ptrs) => do
    let size := (i * 17 + 13) % 200 + 16
    let (b, r) ← b.kmalloc size
    pure (b, update ptrs i r)

/-- `if (ptrs[i]) { kfree(ptrs[i]); ptrs[i] = NULL; }`. -/
def releaseAt (i : Nat) : Bench × (Nat → Nat) → Comp (Bench × (Nat → Nat))
  | (b, ptrs) =>
    if ptrs i ≠ 0 then do
      let b ← b.kfree (ptrs i)
      pure (b, update ptrs i 0)
    else pure (b, ptrs)

def stressOrder (i : Nat) : Nat := (i * 37 + 11) % stressIterations

def stressCycle (s : Bench × (Nat → Nat)) : Comp (Bench × (Nat → Nat)) := do
  let s ← Comp.forEach allocateStress stressIterations s
  Comp.forEach (fun i => releaseAt (stressOrder i)) stressIterations s

def testKmallocStress (l : Locals) (b : Bench) : Comp Bench := do
  let b := b.testPrintInfo "Test: Stress test kmalloc/kfree..."
  let statsInitial ← b.heapGetStats l.stats
  let (b, _) ← Comp.forEach (fun _ => stressCycle) 5 (b, l.pointers)
  let statsFinal ← b.heapGetStats l.stats
  let b := b.print [.writestring "  Memoria usada inicial: ", .printDec statsInitial.usedSize,
    .writestring ", final: ", .printDec statsFinal.usedSize, .writestring "\n"]
  let (h, valid) := heapValidate b.heap
  let b := { b with heap := h }
  pure (if valid then b.testPrintPass "Stress test kmalloc/kfree"
    else b.testPrintFail "Stress test - heap corrupto")

def fragTestBlocks : Nat := 20

def allocateFrag (i : Nat) : Bench × (Nat → Nat) → Comp (Bench × (Nat → Nat))
  | (b, blocks) => do
    let (b, r) ← b.kmalloc ((i + 1) * 50)
    pure (b, update blocks i r)

/-- `kfree(blocks[i]); blocks[i] = NULL;`. -/
def releaseFrag (i : Nat) : Bench × (Nat → Nat) → Comp (Bench × (Nat → Nat))
  | (b, blocks) => do
    let b ← b.kfree (blocks i)
    pure (b, update blocks i 0)

/-- The blocks at even places are released first. -/
def testHeapFragmentation (l : Locals) (b : Bench) : Comp Bench := do
  let b := b.testPrintInfo "Test: Medición de fragmentación del heap..."
  let s ← Comp.forEach allocateFrag fragTestBlocks (b, l.pointers)
  let (b, blocks) ← Comp.forEach (fun j => releaseFrag (2 * j)) (fragTestBlocks / 2) s
  let stats ← b.heapGetStats l.stats
  let b := b.print [.writestring "  Bloques libres: ", .printDec stats.freeBlockCount,
    .writestring ", memoria libre: ", .printDec stats.freeSize, .writestring " bytes\n"]
  let b ← Comp.forEach
    (fun j b => if blocks (2 * j + 1) ≠ 0 then b.kfree (blocks (2 * j + 1)) else pure b)
    (fragTestBlocks / 2) b
  pure (b.testPrintPass "Medición de fragmentación")

/-! ## Tests of the frame allocator -/

def testPmmAllocMultiple (b : Bench) : Bench :=
  let b := b.testPrintInfo "Test: PMM allocar múltiples frames..."
  let statsBefore := pmmGetStats b.pmm
  let (b, addr) := b.allocFrames 10
  if addr = 0 then b.testPrintFail "PMM alloc múltiple - allocación falló"
  else
    let statsAfterAlloc := pmmGetStats b.pmm
    if statsAfterAlloc.usedFrames = u64 (statsBefore.usedFrames + 10) then
      let b := b.freeFrames addr 10
      let statsAfterFree := pmmGetStats b.pmm
      if statsAfterFree.usedFrames = statsBefore.usedFrames then
        b.testPrintPass "PMM alloc/free múltiple"
      else b.testPrintWarn "PMM alloc/free múltiple - liberación parcial"
    else (b.testPrintFail "PMM alloc múltiple - frames incorrectos").freeFrames addr 10

/-- A line of the report, where the check before it failed. -/
def reportUnless (ok : Bool) (b : Bench) (line : String) : Bench :=
  if ok then b else b.print [.writestring line]

def testPmmStats (b : Bench) : Bench :=
  let b := b.testPrintInfo "Test: Estadísticas del PMM..."
  let stats := pmmGetStats b.pmm
  let totalOk := decide (stats.totalFrames = u64 (stats.usedFrames + stats.freeFrames))
  let bytesOk := decide (stats.totalBytes = u64 (stats.totalFrames * pageSize))
  let percentOk := decide (stats.usagePercent ≤ 100)
  let b := reportUnless totalOk b "  [ERROR] Total != Used + Free\n"
  let b := reportUnless bytesOk b "  [ERROR] Total bytes incorrecto\n"
  let b := reportUnless percentOk b "  [ERROR] Porcentaje > 100\n"
  if totalOk && bytesOk && percentOk then
    (b.testPrintPass "Estadísticas del PMM").print [.writestring "  Total: ",
      .printDec stats.totalFrames, .writestring " frames, usado: ", .printDec stats.usagePercent,
      .writestring "%\n"]
  else b.testPrintFail "Estadísticas del PMM"

def contiguousFrom (addr : Nat) : Bool :=
  (List.range 99).all fun i =>
    u64 (addr + (i + 1) * pageSize) = u64 (u64 (addr + i * pageSize) + pageSize)

def testPmmContiguousLarge (b : Bench) : Bench :=
  let b := b.testPrintInfo "Test: PMM bloques contiguos grandes..."
  let (b, addr) := b.allocFrames 100
  if addr = 0 then
    (b.testPrintWarn "PMM bloques grandes - no hay 100 frames contiguos").print
      [.writestring "  (Esto es normal si hay fragmentación)\n"]
  else
    let contiguous := contiguousFrom addr
    let b := b.freeFrames addr 100
    if contiguous then b.testPrintPass "PMM bloques contiguos grandes"
    else b.testPrintFail "PMM bloques grandes - no son contiguos"

/-! ## All tests -/

def runMemoryTests (l : Locals) (b : Bench) : Comp Bench := do
  let b := b.print [.setcolor .lightCyan .black, .writestring "\n",
    .writestring "|=========================================|\n",
    .writestring "|    TESTS DEL BLOQUE 2.1 - MEMORIA       |\n",
    .writestring "|=========================================|\n", .writestring "\n",
    .setcolor .lightBrown .black, .writestring "--- Tests de KMALLOC con KFREE ---\n\n"]
  let b ← testKmallocAllocFreeBasic l b
  let b ← testKmallocCoalesce l b
  let b ← testKrealloc b
  let b ← testKcalloc b
  let b ← testDoubleFree b
  let b ← testKmallocStress l b
  let b := b.print [.writestring "\n", .setcolor .lightBrown .black,
    .writestring "--- Tests de PMM MEJORADO ---\n\n"]
  let b := testPmmAllocMultiple b
  let b := testPmmStats b
  let b := testPmmContiguousLarge b
  let b := b.print [.writestring "\n", .setcolor .lightBrown .black,
    .writestring "--- Tests de FRAGMENTACIÓN ---\n\n"]
  let b ← testHeapFragmentation l b
  pure (b.print [.writestring "\n", .setcolor .lightCyan .black,
    .writestring "Tests del Bloque 2.1 completados.\n"])

/-! ## The command -/

/-- The two lines about the free memory, at the beginning and at the end. -/
def memoryState (pmm : PmmStats) (heap : HeapStats) (lineEnd : String) : Console :=
  [.setcolor .lightGrey .black, .writestring "PMM: ", .printDec pmm.freeFrames,
    .writestring " frames libres (", .printDec pmm.usagePercent, .writestring "% usado)\n",
    .writestring "Heap: ", .printDec (heap.freeSize / 1024), .writestring " KB libres, ",
    .printDec heap.blockCount, .writestring lineEnd]

/-- `if (diff != 0)`, for a signed difference of 64 bits. -/
def difference (diff : Nat) (label unit : String) : Console :=
  if diff ≠ 0 then
    [.setcolor .lightBrown .black, .writestring label] ++
      (if diff < 2 ^ 63 then [.writestring "+"] else []) ++
      [.printDec (if diff < 2 ^ 63 then diff else 2 ^ 64 - diff), .writestring unit]
  else []

def leakReport (pmmDiff heapDiff : Nat) : Console :=
  if pmmDiff = 0 ∧ heapDiff = 0 then
    [.setcolor .green .black, .writestring "No se detectaron memory leaks\n"]
  else
    difference pmmDiff "PMM diferencia: " " frames\n" ++
      difference heapDiff "Heap diferencia: " " bytes\n" ++
      [.setcolor .lightGrey .black,
        .writestring "(Pequeñas diferencias son normales debido a overhead)\n"]

def shellCmdMemtest (l : Locals) (b : Bench) : Comp Bench := do
  let b := b.print [.setcolor .lightCyan .black, .writestring "\n",
    .writestring "|========================================|\n",
    .writestring "|     SUITE DE TESTS DE MEMORIA          |\n",
    .writestring "|========================================|\n", .writestring "\n",
    .setcolor .lightBrown .black, .writestring "--- Estado inicial ---\n\n"]
  let pmmInitial := pmmGetStats b.pmm
  let heapInitial ← b.heapGetStats l.stats
  let b := b.print (memoryState pmmInitial heapInitial " bloques\n\n")
  let b ← runMemoryTests l b
  let b := b.print [.writestring "\n", .setcolor .lightBrown .black,
    .writestring "--- Estado final ---\n\n"]
  let pmmFinal := pmmGetStats b.pmm
  let heapFinal ← b.heapGetStats l.stats
  let b := b.print (memoryState pmmFinal heapFinal " bloques\n")
  let b := b.print [.writestring "\n", .setcolor .lightBrown .black,
    .writestring "--- Análisis de memory leaks ---\n\n"]
  let pmmDiff := u64 (pmmFinal.usedFrames + (2 ^ 64 - pmmInitial.usedFrames))
  let heapDiff := u64 (heapFinal.usedSize + (2 ^ 64 - heapInitial.usedSize))
  pure (b.print (leakReport pmmDiff heapDiff ++ [.writestring "\n"]))

end AlvOS.MemoryTests
