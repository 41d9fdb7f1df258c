import Mathlib.Data.List.TakeWhile
import AlvOS.Kmalloc.Stats
import AlvOS.Kmalloc.Validate

/-! What `heap_get_stats` and `heap_print_blocks` say about a heap, as functions of its list of
blocks. -/

namespace AlvOS.Kmalloc
open ByteMemory Word BlockList Fuel

theorem countFrom_mono (m : Mem) (current : Nat) (stats : HeapStats) :
    Mono fun fuel => countFrom fuel m current stats := by
  refine Mono.loop (f := fun fuel (s : Nat × HeapStats) => countFrom fuel m s.1 s.2)
    (fun _ => rfl) (fun s => ?_) (current, stats)
  simp only [countFrom]
  split_ifs
  · exact .inr ⟨_, fun _ => rfl⟩
  · exact .inr ⟨_, fun _ => rfl⟩
  · exact .inl ⟨(_, _), fun _ => rfl⟩

theorem heapGetStats_mono (h : Heap) (stats : HeapStats) :
    Mono fun fuel => heapGetStats fuel h stats :=
  (Mono.const _).ite (countFrom_mono _ _ _)

/-- The report with the blocks `bs` added to its totals. -/
def HeapStats.plus (stats : HeapStats) (bs : List Block) : HeapStats :=
  { stats with
    usedSize := stats.usedSize + BlockList.totalSize false bs
    freeSize := stats.freeSize + BlockList.totalSize true bs
    blockCount := stats.blockCount + bs.length
    freeBlockCount := stats.freeBlockCount + bs.countP fun b => b.free = true
    usedBlockCount := stats.usedBlockCount + bs.countP fun b => b.free = false }

/-- The report on a heap that consists of the blocks `bs`. -/
def report (h : Heap) (bs : List Block) : HeapStats :=
  HeapStats.plus
    { heapStart := heapStart
      heapEnd := heapStart + heapSize
      totalSize := heapSize
      usedSize := 0
      freeSize := 0
      blockCount := 0
      freeBlockCount := 0
      usedBlockCount := 0
      allocationCount := h.totalAllocations
      freeCount := h.totalFrees
      failedAllocs := h.failedAllocations } bs

/-- The totals leave room to count `rest` without overflow. -/
structure Countable (stats : HeapStats) (rest : List Block) : Prop where
  bytes : stats.usedSize + stats.freeSize + stats.blockCount + extent 29 rest < 2 ^ 32
  free_le : stats.freeBlockCount ≤ stats.blockCount
  used_le : stats.usedBlockCount ≤ stats.blockCount

section Walk
variable {stats : HeapStats} {m : Mem} {prv a nxt : Nat} {b : Block} {bs : List Block}

theorem HeapStats.plus_cons (stats : HeapStats) (b : Block) (bs : List Block) :
    (stats.plus [b]).plus bs = stats.plus (b :: bs) := by
  simp only [HeapStats.plus, BlockList.totalSize, List.countP_cons, List.countP_nil, List.length_cons,
    List.length_nil, HeapStats.mk.injEq, true_and, and_true]
  omega

theorem Countable.count (h : Countable stats (b :: bs)) (hb : HeaderAt m a b nxt prv) :
    stats.count m a = stats.plus [b] ∧ Countable (stats.plus [b]) bs := by
  obtain ⟨hbytes, hfree, hused⟩ := h
  rw [extent_cons] at hbytes
  have hcount : u32 (stats.blockCount + 1) = stats.blockCount + 1 := Nat.mod_eq_of_lt (by omega)
  have hfrees : u32 (stats.freeBlockCount + 1) = stats.freeBlockCount + 1 :=
    Nat.mod_eq_of_lt (by omega)
  have huses : u32 (stats.usedBlockCount + 1) = stats.usedBlockCount + 1 :=
    Nat.mod_eq_of_lt (by omega)
  have hfreeSize : u64 (stats.freeSize + b.size) = stats.freeSize + b.size := u64_of_lt (by omega)
  have husedSize : u64 (stats.usedSize + b.size) = stats.usedSize + b.size := u64_of_lt (by omega)
  unfold HeapStats.count HeapStats.plus
  rw [hb.isFree, hb.size]
  cases hf : b.free
  · rw [if_neg (by decide)]
    refine ⟨?_, ?_, ?_, ?_⟩
    · simp [BlockList.totalSize, hf, hcount, huses, husedSize]
    all_goals simp only [BlockList.totalSize, hf, List.countP_cons, List.countP_nil,
      List.length_singleton]
    all_goals simp
    all_goals omega
  · rw [if_pos (by decide)]
    refine ⟨?_, ?_, ?_, ?_⟩
    · simp [BlockList.totalSize, hf, hcount, hfrees, hfreeSize]
    all_goals simp only [BlockList.totalSize, hf, List.countP_cons, List.countP_nil,
      List.length_singleton]
    all_goals simp
    all_goals omega

theorem countFrom_eq (h : Linked m prv a bs 0) (hlo : heapStart ≤ a)
    (hhi : a + extent 29 bs ≤ heapStart + heapSize) (hcount : Countable stats bs) :
    Returns (fun fuel => countFrom fuel m (headOr a 0 bs) stats) (stats.plus bs) := by
  have hstart := heapStart_eq
  induction bs generalizing prv a stats with
  | nil => exact ⟨1, rfl⟩
  | cons b bs ih =>
    rw [extent_cons] at hhi
    have hvalid : isValidBlock m a = true := isValidBlock_of_header h.1 hlo (by omega)
    obtain ⟨heq, hnext⟩ := hcount.count h.1
    obtain ⟨fuel, hrun⟩ := ih h.2 (by omega) (by omega) hnext
    rw [HeapStats.plus_cons] at hrun
    refine ⟨fuel + 1, ?_⟩
    change countFrom (fuel + 1) m a stats = _
    rw [countFrom, if_neg (by omega), if_neg (by simp [hvalid]), h.1.next, heq]
    exact hrun

end Walk

theorem Holds.returns_report {h : Heap} {bs : List Block} (hh : Holds h bs) (old : HeapStats) :
    Returns (fun fuel => Kmalloc.heapGetStats fuel h old) (report h bs) := by
  have hfills := hh.arena.fills
  have hsize := heapSize_eq
  have hstart : ∀ fuel, Kmalloc.heapGetStats fuel h old = countFrom fuel h.mem h.heapHead _ :=
    fun fuel => if_neg (by simp [hh.initialized])
  simp only [hstart]
  rw [← hh.headOr]
  refine countFrom_eq hh.linked (le_refl _) (by rw [hfills]) ⟨?_, le_refl _, le_refl _⟩
  dsimp only
  omega

def blockLine (blockNum current : Nat) (free : Bool) (size : Nat) : Console :=
  [.setcolor .lightGrey .black, .writestring "Bloque ", .printDec blockNum, .writestring ": 0x",
    .printHex current] ++
    (if free then [.setcolor .green .black, .writestring " [LIBRE] "]
      else [.setcolor .lightRed .black, .writestring " [USADO] "]) ++
    [.setcolor .lightGrey .black, .printDec size, .writestring " bytes\n"]

/-- The loop of `heap_print_blocks`, with the blocks it may still print: what it prints and
where it stops. -/
def printBlocks (m : Mem) : Nat → Nat → Nat → Console × Nat
  | 0, current, _ => ([], current)
  | left + 1, current, blockNum =>
    if current = 0 then ([], 0)
    else if isValidBlock m current = false then
      ([.setcolor .lightRed .black, .writestring "[CORRUPTO]\n"], current)
    else
      let (rest, current') := printBlocks m left (heapBlock.load m current .next) (blockNum + 1)
      (blockLine blockNum current (heapBlock.load m current .isFree ≠ 0)
        (heapBlock.load m current .size) ++ rest, current')

def listHeading : Console :=
  [.setcolor .lightCyan .black, .writestring "\nLISTA DE BLOQUES DEL HEAP:\n",
    .writestring "==========================\n"]

def heapPrintBlocks (h : Heap) : Heap :=
  if h.heapInitialized = false then h.print [.writestring "Heap no inicializado.\n"]
  else
    let (lines, current) := printBlocks h.mem 20 h.heapHead 0
    h.print (listHeading ++ lines ++
      if current ≠ 0 then [.writestring "... (más bloques)\n"] else [])

section Blocks
variable {m : Mem} {current left blockNum : Nat} {addrs : List Nat}

/-- The lines about the blocks at `addrs`, numbered from `blockNum`. -/
def blockLines (m : Mem) : Nat → List Nat → Console
  | _, [] => []
  | blockNum, a :: addrs =>
    blockLine blockNum a (heapBlock.load m a .isFree ≠ 0) (heapBlock.load m a .size) ++
      blockLines m (blockNum + 1) addrs

/-- The blocks that a walk of `left` steps takes for valid, from the first on. -/
def validPart (m : Mem) (left : Nat) (addrs : List Nat) : List Nat :=
  (addrs.take left).takeWhile fun a => isValidBlock m a

def corruptLine (m : Mem) (left : Nat) (addrs : List Nat) : Console :=
  if (validPart m left addrs).length < (addrs.take left).length then
    [.setcolor .lightRed .black, .writestring "[CORRUPTO]\n"]
  else []

theorem printBlocks_eq (h : BlocksFrom m current addrs) (left blockNum : Nat) :
    (printBlocks m left current blockNum).1 =
      blockLines m blockNum (validPart m left addrs) ++ corruptLine m left addrs ∧
    ((printBlocks m left current blockNum).2 = 0 ↔
      (validPart m left addrs).length = addrs.length) := by
  induction left generalizing current addrs blockNum with
  | zero =>
    refine ⟨rfl, ?_⟩
    cases h with
    | nil => exact iff_of_true rfl rfl
    | cons hne _ => exact iff_of_false hne (by simp [validPart])
  | succ left ih =>
    cases h with
    | nil => exact ⟨rfl, iff_of_true rfl rfl⟩
    | @cons a addrs hne hnext =>
      rw [printBlocks, if_neg hne]
      cases hvalid : isValidBlock m current with
      | false =>
        have hpart : validPart m (left + 1) (current :: addrs) = [] := by simp [validPart, hvalid]
        rw [if_pos rfl, corruptLine, hpart, if_pos (by simp)]
        exact ⟨rfl, iff_of_false hne (by simp)⟩
      | true =>
        obtain ⟨hlines, hstop⟩ := ih hnext (blockNum + 1)
        have hpart : validPart m (left + 1) (current :: addrs) =
            current :: validPart m left addrs := by simp [validPart, hvalid]
        rw [if_neg (by decide)]
        constructor
        · dsimp only
          rw [hlines, hpart, blockLines, corruptLine, corruptLine, hpart]
          simp [List.append_assoc]
        · dsimp only
          rw [hstop, hpart, List.length_cons, List.length_cons, Nat.add_right_cancel_iff]

end Blocks

/-- On any list of blocks that ends, `heap_print_blocks` prints the valid ones before the first
invalid one, twenty at most, marks the invalid one, and says that there are more exactly where
it has not printed them all. -/
theorem heapPrintBlocks_eq {h : Heap} {addrs : List Nat} (hinit : h.heapInitialized = true)
    (hlist : BlocksFrom h.mem h.heapHead addrs) :
    heapPrintBlocks h = h.print
      (listHeading ++ (blockLines h.mem 0 (validPart h.mem 20 addrs) ++ corruptLine h.mem 20 addrs) ++
        if (validPart h.mem 20 addrs).length < addrs.length then
          [.writestring "... (más bloques)\n"] else []) := by
  obtain ⟨hlines, hstop⟩ := printBlocks_eq hlist 20 0
  have hle : (validPart h.mem 20 addrs).length ≤ addrs.length :=
    ((List.takeWhile_sublist _).length_le).trans (List.take_sublist _ _).length_le
  rw [heapPrintBlocks, if_neg (by simp [hinit])]
  dsimp only
  rw [hlines]
  congr 2
  exact if_congr (by rw [ne_eq, hstop]; omega) rfl rfl

section Listing
variable {h : Heap} {bs : List Block}

/-- The lines about the blocks `bs` that lie one behind the other from `a`. -/
def listing : Nat → Nat → List Block → Console
  | _, _, [] => []
  | blockNum, a, b :: bs =>
    blockLine blockNum a b.free b.size ++ listing (blockNum + 1) (a + (29 + b.size)) bs

theorem Linked.blockLines_eq {m : Mem} {prv a nxt : Nat} (hl : Linked m prv a bs nxt)
    (blockNum : Nat) : blockLines m blockNum (blockAddrs a bs) = listing blockNum a bs := by
  induction bs generalizing prv a blockNum with
  | nil => rfl
  | cons b bs ih =>
    rw [blockAddrs, blockLines, listing, ih hl.2, hl.1.isFree, hl.1.size]
    cases b.free <;> rfl

theorem blockAddrs_take (a n : Nat) (bs : List Block) :
    (blockAddrs a bs).take n = blockAddrs a (bs.take n) := by
  induction bs generalizing a n with
  | nil => simp [blockAddrs]
  | cons b bs ih => cases n <;> simp [blockAddrs, ih]

theorem Holds.heapPrintBlocks (hh : Holds h bs) :
    Kmalloc.heapPrintBlocks h = h.print (listHeading ++ listing 0 heapStart (bs.take 20) ++
      if 20 < bs.length then [.writestring "... (más bloques)\n"] else []) := by
  have hlist := hh.linked.blocksFrom (by decide) .nil
  rw [hh.headOr, List.append_nil] at hlist
  have hvalid := hh.linked.valid (le_refl _) (by rw [hh.arena.fills])
  have hpart : validPart h.mem 20 (blockAddrs heapStart bs) = blockAddrs heapStart (bs.take 20) := by
    rw [← blockAddrs_take, validPart]
    exact List.takeWhile_eq_self_iff.mpr fun a ha => hvalid a (List.mem_of_mem_take ha)
  have hlinked := hh.linked
  rw [← List.take_append_drop 20 bs, linked_append] at hlinked
  rw [heapPrintBlocks_eq hh.initialized hlist, corruptLine, hpart, ← blockAddrs_take,
    if_neg (Nat.lt_irrefl _), blockAddrs_take, hlinked.1.blockLines_eq, List.append_nil,
    length_blockAddrs, length_blockAddrs, List.length_take]
  congr 2
  exact if_congr (by omega) rfl rfl

end Listing

/-- After any run of calls `heap_print_blocks` lists the first twenty blocks, each with its
address, its state and its size, and says exactly where there are more. -/
theorem heap_print_blocks {s : State} (hs : heapSystem.Reachable s) : ∃ bs, Tiles s bs ∧
    heapPrintBlocks s.heap = s.heap.print (listHeading ++ listing 0 heapStart (bs.take 20) ++
      if 20 < bs.length then [.writestring "... (más bloques)\n"] else []) := by
  obtain ⟨bs, ht⟩ := exists_tiles hs
  exact ⟨bs, ht, ht.holds.heapPrintBlocks⟩

/-- Of 31 blocks twenty are listed. -/
theorem heap_print_blocks_packed : ∃ s, heapSystem.Reachable s ∧ Holds s.heap (packed 30) ∧
    heapPrintBlocks s.heap = s.heap.print (listHeading ++
      listing 0 heapStart (List.replicate 20 ⟨16, false⟩) ++
        [.writestring "... (más bloques)\n"]) := by
  obtain ⟨s, hs, hpacked⟩ := exists_packed 30 (by decide)
  obtain ⟨bs, ht, hprints⟩ := heap_print_blocks hs
  obtain rfl := ht.holds.unique hpacked
  exact ⟨s, hs, hpacked, hprints⟩

end AlvOS.Kmalloc
