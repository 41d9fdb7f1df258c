import AlvOS.Kmalloc.Requests
import AlvOS.Kmalloc.Stale

/-! The report of `heap_get_stats`.  The sizes come from a walk over the list, the
counters from the calls that were made; both account for every byte and every block
after any run, repeated releases included. -/

namespace AlvOS.Kmalloc
open ByteMemory Word BlockList Set Fuel Transition

structure HeapStats where
  heapStart : Nat
  heapEnd : Nat
  totalSize : Nat
  usedSize : Nat
  freeSize : Nat
  blockCount : Nat
  freeBlockCount : Nat
  usedBlockCount : Nat
  allocationCount : Nat
  freeCount : Nat
  failedAllocs : Nat

/-- The body of the loop of `heap_get_stats`, up to the step to the next block. -/
def HeapStats.count (stats : HeapStats) (m : Mem) (current : Nat) : HeapStats :=
  let stats := { stats with blockCount := u32 (stats.blockCount + 1) }
  if heapBlock.load m current .isFree ≠ 0 then
    { stats with
      freeSize := u64 (stats.freeSize + heapBlock.load m current .size)
      freeBlockCount := u32 (stats.freeBlockCount + 1) }
  else
    { stats with
      usedSize := u64 (stats.usedSize + heapBlock.load m current .size)
      usedBlockCount := u32 (stats.usedBlockCount + 1) }

def countFrom : Nat → Mem → Nat → HeapStats → Option HeapStats
  | 0, _, _, _ => none
  | fuel + 1, m, current, stats =>
    if current = 0 then some stats
    else if isValidBlock m current = false then some stats
    else countFrom fuel m (heapBlock.load m current .next) (stats.count m current)

/-- `stats` is what the caller's structure holds; a null pointer to it is not modelled. -/
def heapGetStats (fuel : Nat) (h : Heap) (stats : HeapStats) : Option HeapStats :=
  if h.heapInitialized = false then some stats
  else countFrom fuel h.mem h.heapHead
    { heapStart := heapStart
      heapEnd := heapStart + heapSize
      totalSize := heapSize
      usedSize := 0
      freeSize := 0
      blockCount := 0
      freeBlockCount := 0
      usedBlockCount := 0
      allocationCount := h.totalAllocations
      freeCount := h.totalFrees
      failedAllocs := h.failedAllocations }

/-- What the report holds and what the blocks `rest` still to be visited will add come to
`total` bytes and `used` used blocks. -/
structure Accounts (stats : HeapStats) (rest : List Block) (total used : Nat) : Prop where
  bytes : stats.usedSize + stats.freeSize + 29 * stats.blockCount + extent 29 rest = total
  blocks : stats.blockCount = stats.usedBlockCount + stats.freeBlockCount
  used : stats.usedBlockCount + rest.countP (fun b => !b.free) = used

section Walk
variable {stats : HeapStats} {m : Mem} {prv a total used : Nat} {b : Block} {bs : List Block}

theorem HeapStats.count_counters (stats : HeapStats) (m : Mem) (a : Nat) :
    (stats.count m a).allocationCount = stats.allocationCount ∧
      (stats.count m a).freeCount = stats.freeCount := by
  unfold HeapStats.count
  split_ifs
  all_goals exact ⟨rfl, rfl⟩

theorem Accounts.count {nxt : Nat} (h : Accounts stats (b :: bs) total used)
    (hb : HeaderAt m a b nxt prv) (htotal : total < 2 ^ 32) :
    Accounts (stats.count m a) bs total used := by
  obtain ⟨hbytes, hblocks, hused⟩ := h
  rw [extent_cons] at hbytes
  rw [List.countP_cons] at hused
  have hcount : u32 (stats.blockCount + 1) = stats.blockCount + 1 := Nat.mod_eq_of_lt (by omega)
  unfold HeapStats.count
  rw [hb.isFree, hb.size]
  cases hfree : b.free with
  | true =>
    have hsize : u64 (stats.freeSize + b.size) = stats.freeSize + b.size :=
      u64_of_lt (by omega)
    have hfrees : u32 (stats.freeBlockCount + 1) = stats.freeBlockCount + 1 :=
      Nat.mod_eq_of_lt (by omega)
    rw [hfree] at hused
    rw [if_pos (by decide)]
    constructor
    all_goals dsimp only
    · rw [hsize, hcount]
      omega
    · rw [hcount, hfrees]
      omega
    · simpa using hused
  | false =>
    have hsize : u64 (stats.usedSize + b.size) = stats.usedSize + b.size :=
      u64_of_lt (by omega)
    have huses : u32 (stats.usedBlockCount + 1) = stats.usedBlockCount + 1 :=
      Nat.mod_eq_of_lt (by omega)
    rw [hfree] at hused
    rw [if_neg (by decide)]
    constructor
    all_goals dsimp only
    · rw [hsize, hcount]
      omega
    · rw [hcount, huses]
      omega
    · rw [huses]
      simp at hused
      omega

/-- The loop visits the whole list; the induction is on the blocks still to come. -/
theorem countFrom_spec (h : Linked m prv a bs 0) (hlo : heapStart ≤ a)
    (hhi : a + extent 29 bs ≤ heapStart + heapSize) (hacc : Accounts stats bs total used)
    (htotal : total < 2 ^ 32) : ∃ stats', Returns (fun fuel => countFrom fuel m (headOr a 0 bs) stats)
      stats' ∧ Accounts stats' [] total used ∧ stats'.allocationCount = stats.allocationCount ∧
        stats'.freeCount = stats.freeCount := by
  have hstart := heapStart_eq
  induction bs generalizing prv a stats with
  | nil => exact ⟨stats, ⟨1, rfl⟩, hacc, rfl, rfl⟩
  | cons b bs ih =>
    rw [extent_cons] at hhi
    have hvalid : isValidBlock m a = true := isValidBlock_of_header h.1 hlo (by omega)
    obtain ⟨stats', ⟨fuel, hrun⟩, hacc', halloc, hfree⟩ :=
      ih h.2 (by omega) (by omega) (hacc.count h.1 htotal)
    obtain ⟨hcalloc, hcfree⟩ := stats.count_counters m a
    refine ⟨stats', ⟨fuel + 1, ?_⟩, hacc', halloc.trans hcalloc, hfree.trans hcfree⟩
    change countFrom (fuel + 1) m a stats = some stats'
    rw [countFrom, if_neg (by omega), if_neg (by simp [hvalid]), h.1.next]
    exact hrun

end Walk

theorem length_usedPtrs (a : Nat) (bs : List Block) :
    (usedPtrs 29 a bs).length = bs.countP fun b => !b.free := by
  rw [usedPtrs, List.length_map]
  induction bs generalizing a with
  | nil => rfl
  | cons b bs ih =>
    rw [allocations, List.length_append, ih, List.countP_cons]
    cases b.free <;> simp [Nat.add_comm]

theorem Holds.heapGetStats {h : Heap} {bs : List Block} (hh : Holds h bs) (old : HeapStats) :
    ∃ stats, Returns (fun fuel => heapGetStats fuel h old) stats ∧
      Accounts stats [] heapSize (usedPtrs 29 heapStart bs).length ∧
      stats.allocationCount = h.totalAllocations ∧ stats.freeCount = h.totalFrees := by
  have hfills := hh.arena.fills
  have hstart : ∀ fuel, Kmalloc.heapGetStats fuel h old = countFrom fuel h.mem h.heapHead _ :=
    fun fuel => if_neg (by simp [hh.initialized])
  simp only [hstart]
  rw [← hh.headOr]
  refine countFrom_spec hh.linked (le_refl _) (by rw [hfills]) ⟨?_, rfl, ?_⟩ (by decide)
  · dsimp only
    omega
  · rw [length_usedPtrs]
    exact Nat.zero_add _

/-- The calls that handed out a block, less those that took one back, leave the used blocks. -/
structure Balanced (h : Heap) (used : Nat) : Prop where
  counts : h.totalAllocations = u32 (h.totalFrees + used)
  frees_lt : h.totalFrees < 2 ^ 32

section Counters
variable {h h' : Heap} {bs : List Block} {n a p r size used : Nat}

theorem Balanced.of_same (hb : Balanced h used) (ha : h'.totalAllocations = h.totalAllocations)
    (hf : h'.totalFrees = h.totalFrees) : Balanced h' used := by
  constructor <;> rw [hf]
  · rw [ha]
    exact hb.counts
  · exact hb.frees_lt

theorem Balanced.allocated (hb : Balanced h used)
    (ha : h'.totalAllocations = u32 (h.totalAllocations + 1)) (hf : h'.totalFrees = h.totalFrees) :
    Balanced h' (used + 1) := by
  constructor <;> rw [hf]
  · rw [ha, hb.counts]
    unfold u32
    omega
  · exact hb.frees_lt

theorem Balanced.freed (hb : Balanced h (used + 1))
    (ha : h'.totalAllocations = h.totalAllocations) (hf : h'.totalFrees = u32 (h.totalFrees + 1)) :
    Balanced h' used := by
  constructor <;> rw [hf]
  · rw [ha, hb.counts]
    unfold u32
    omega
  · exact Nat.mod_lt _ (by decide)

theorem Balanced.used_eq (hb : Balanced h used) (hused : used < 2 ^ 32) :
    used = u32 (h.totalAllocations + (2 ^ 32 - h.totalFrees)) := by
  have hlt := hb.frees_lt
  rw [hb.counts]
  unfold u32
  omega

theorem Holds.kmallocAligned_counters (hh : Holds h bs)
    (hret : Returns (fun fuel => kmallocAligned fuel h n a) (h', r)) :
    h'.totalFrees = h.totalFrees ∧
      (r = 0 → h'.totalAllocations = h.totalAllocations) ∧
      (r ≠ 0 → h'.totalAllocations = u32 (h.totalAllocations + 1)) := by
  have hmono := kmallocAligned_mono h n a
  rcases Nat.eq_zero_or_pos n with rfl | hpos
  · obtain ⟨rfl, rfl⟩ := Prod.mk.inj (hret.unique hmono ⟨0, kmallocAligned_zero hh⟩)
    exact ⟨rfl, fun _ => rfl, fun hr => absurd rfl hr⟩
  rcases firstFit_or_none (roundedSize n a) bs with hnone | ⟨pre, b, post, hfit⟩
  · obtain ⟨rfl, rfl⟩ := Prod.mk.inj (hret.unique hmono
      ⟨_, kmallocAligned_none hh hpos.ne' hnone (Nat.lt_succ_self _)⟩)
    exact ⟨rfl, fun _ => rfl, fun hr => absurd rfl hr⟩
  · obtain ⟨rfl, rfl⟩ := Prod.mk.inj (hret.unique hmono
      ⟨_, kmallocAligned_firstFit hh hpos.ne' hfit (Nat.lt_succ_self _)⟩)
    exact ⟨rfl, fun hr => by omega, fun _ => rfl⟩

theorem Holds.kfree_counters (hh : Holds h bs) (hp : p ∈ usedPtrs 29 heapStart bs)
    (hret : Returns (fun fuel => kfree fuel h p) h') :
    h'.totalAllocations = h.totalAllocations ∧ h'.totalFrees = u32 (h.totalFrees + 1) := by
  obtain ⟨pre, b, post, rfl, hb, rfl⟩ := (mem_usedPtrs 29).mp hp
  obtain ⟨m, hrun, -⟩ := kfree_merges hh hb (Nat.le_refl _)
  obtain rfl := hret.unique (kfree_mono h _) ⟨_, hrun⟩
  exact ⟨rfl, rfl⟩

theorem Outcome.copied (hh : Holds h bs) {h1 : Heap} (hout : Outcome h bs n heapAlignment h1 r)
    (hr : r ≠ 0) (hp : (p, size) ∈ allocations 29 heapStart bs) (hn : n ≤ 2 ^ 32 - 16)
    (hlt : size < n) : ∃ bs1, Holds (h1.copied r p) bs1 ∧ p ∈ usedPtrs 29 heapStart bs1 := by
  cases hout with
  | refused => exact absurd rfl hr
  | @served pre post b _ hfit =>
    have hroom := le_takenSize_roundedSize hn hfit.fits
    have hnew := Holds.mem_allocations_allocated hfit
    have hold := (Holds.allocations_allocated hfit).mem_iff.mpr (.tail _ hp)
    have hne : p ≠ heapStart + extent 29 pre + 29 := fun heq =>
      (hh.take_exchange hfit).fresh hr (heq ▸ List.mem_map.mpr ⟨_, hp, rfl⟩)
    exact ⟨_, ((hh.allocated hfit).copied hold hnew hne (by omega)).1,
      List.mem_map.mpr ⟨_, hold, rfl⟩⟩

end Counters

section Step
variable {s t : State} {bs : List Block} {op : Op} {n m a p r : Nat}

theorem Tiles.balanced_kmalloc (ht : Tiles s bs) (hb : Balanced s.heap s.live.length)
    (hret : Returns (fun fuel => kmallocAligned fuel s.heap n a) (t.heap, r)) :
    Balanced t.heap (ownedAfter s.live 0 r).length := by
  obtain ⟨hf, hnull, halloc⟩ := ht.holds.kmallocAligned_counters hret
  rw [ownedAfter, List.erase_of_not_mem ht.zero_notMem]
  by_cases hr : r = 0
  · rw [if_pos hr]
    exact hb.of_same (hnull hr) hf
  · rw [if_neg hr, List.singleton_append, List.length_cons]
    exact hb.allocated (halloc hr) hf

theorem Tiles.balanced_idle (ht : Tiles s bs) (hb : Balanced s.heap s.live.length)
    (ha : t.heap.totalAllocations = s.heap.totalAllocations)
    (hf : t.heap.totalFrees = s.heap.totalFrees) :
    Balanced t.heap (ownedAfter s.live 0 0).length := by
  rw [ownedAfter, if_pos rfl, List.nil_append, List.erase_of_not_mem ht.zero_notMem]
  exact hb.of_same ha hf

theorem length_erase_live (hp : p ∈ s.live) : s.live.length = (s.live.erase p).length + 1 := by
  rw [List.length_erase_of_mem hp]
  have := List.length_pos_of_mem hp
  omega

theorem Tiles.balanced_kfree (ht : Tiles s bs) (hb : Balanced s.heap s.live.length)
    (hp : p ∈ s.live) (hret : Returns (fun fuel => kfree fuel s.heap p) t.heap) :
    Balanced t.heap (ownedAfter s.live p 0).length := by
  obtain ⟨ha, hf⟩ := ht.holds.kfree_counters (ht.ptr_mem.mp hp) hret
  rw [length_erase_live hp] at hb
  rw [ownedAfter, if_pos rfl, List.nil_append]
  exact hb.freed ha hf

theorem Tiles.balanced_krealloc (ht : Tiles s bs) (hb : Balanced s.heap s.live.length)
    (hp : p ∈ s.live) (hn : n ≤ 2 ^ 32 - 16)
    (hret : Returns (fun fuel => krealloc fuel s.heap p n) (t.heap, r)) :
    Balanced t.heap (ownedAfter s.live ((Op.krealloc p n).released r) r).length := by
  have hmem := ht.allocation hp
  have hp0 := ne_zero_of_mem_allocations hmem
  have herase := length_erase_live hp
  rcases ht.holds.krealloc_run hmem hret with
    ⟨rfl, rfl, hfree⟩ | ⟨hn0, -, hsame, rfl⟩ | ⟨hlt, h1, hret1, hnull, hfree⟩
  · exact ht.balanced_kfree hb hp hfree
  · have hlength : (ownedAfter s.live ((Op.krealloc r n).released r) r).length =
        s.live.length := by
      rw [Op.released, if_pos (.inr hp0), ownedAfter, if_neg hp0, List.singleton_append,
        List.length_cons, herase]
    rw [hlength, hsame]
    exact hb
  · obtain ⟨hf1, hnull1, halloc1⟩ := ht.holds.kmallocAligned_counters hret1
    by_cases hr : r = 0
    · rw [Op.released, if_neg (by omega), hnull hr, ownedAfter, if_pos hr, List.nil_append,
        List.erase_of_not_mem ht.zero_notMem]
      exact hb.of_same (hnull1 hr) hf1
    · obtain ⟨bs1, hh1, hp1⟩ := (ht.holds.outcome hret1).copied ht.holds hr hmem hn hlt
      obtain ⟨ha2, hf2⟩ := hh1.kfree_counters hp1 (hfree hr)
      have hserved : Balanced h1 (s.live.length + 1) := hb.allocated (halloc1 hr) hf1
      have hcopied : Balanced (h1.copied r p) (s.live.length + 1) :=
        hserved.of_same (Heap.copied_totalAllocations h1 r p) (Heap.copied_totalFrees h1 r p)
      rw [Op.released, if_pos (.inr hr), ownedAfter, if_neg hr, List.singleton_append,
        List.length_cons, ← herase]
      exact hcopied.freed ha2 hf2

theorem Tiles.balanced_step (ht : Tiles s bs) (hb : Balanced s.heap s.live.length)
    (hstep : heapSystem.step s (op, r) t) : Balanced t.heap t.live.length := by
  obtain ⟨hop, hret, hlive⟩ := hstep
  rw [hlive]
  cases op with
  | kmalloc n => exact ht.balanced_kmalloc hb hret
  | kmallocAligned n a => exact ht.balanced_kmalloc hb hret
  | kcalloc m n =>
    rcases Nat.lt_or_ge (m * n) (2 ^ 64) with hlt | hov
    · simp only [Op.call, kcalloc_eq _ hlt] at hret
      exact ht.balanced_kmalloc hb hret
    · simp only [Op.call, kcalloc_refused _ hov] at hret
      obtain ⟨hheap, rfl⟩ := Prod.mk.inj (hret.unique (.const _) ⟨0, rfl⟩)
      exact ht.balanced_idle hb (by rw [hheap]; rfl) (by rw [hheap]; rfl)
  | kfree p =>
    obtain ⟨hfree, rfl⟩ := Op.returns_kfree.mp hret
    rcases hop with rfl | hp
    · have hheap : t.heap = s.heap := hfree.unique (kfree_mono _ 0) ⟨0, rfl⟩
      exact ht.balanced_idle hb (by rw [hheap]) (by rw [hheap])
    · exact ht.balanced_kfree hb hp hfree
  | krealloc p n =>
    obtain ⟨rfl | hp, hn⟩ := hop
    · have hnone : (Op.krealloc 0 n).released r = 0 := ite_self _
      dsimp only
      rw [hnone]
      exact ht.balanced_kmalloc hb hret
    · exact ht.balanced_krealloc hb hp hn hret
  | write x v =>
    obtain ⟨hheap, rfl⟩ := Prod.mk.inj (hret.unique (.const _) ⟨0, rfl⟩)
    exact ht.balanced_idle hb (by rw [hheap]) (by rw [hheap])

end Step

/-- A client, and the pointer of the `kfree` it made last if nothing came after it. -/
structure Session where
  state : State
  justFreed : Option Nat

def Op.frees : Op → Option Nat
  | .kfree ptr => some ptr
  | _ => none

/-- Besides the steps of the heap system, the client may repeat the `kfree` it just made. -/
def sessionSystem : System Session (Op × Nat) where
  init s := heapSystem.init s.state ∧ s.justFreed = none
  step s l t := (heapSystem.step s.state l t.state ∧ t.justFreed = l.1.frees) ∨
    ∃ p, s.justFreed = some p ∧ l = (.kfree p, 0) ∧
      Returns (fun fuel => kfree fuel s.state.heap p) t.state.heap ∧
      t.state.live = s.state.live ∧ t.justFreed = some p

/-- The heap holds `bs`, the counters agree with it, and a repeated `kfree` would find a
stale header or the null pointer. -/
structure Session.Sound (s : Session) (bs : List Block) : Prop where
  tiles : Tiles s.state bs
  balanced : Balanced s.state.heap s.state.live.length
  freed : ∀ p, s.justFreed = some p → p = 0 ∨ ∃ a, p = a + 29 ∧ heapStart ≤ a ∧
    a < heapStart + heapSize ∧ Stale s.state.heap.mem bs a

section Session
variable {s t : Session} {bs : List Block} {op : Op} {p r : Nat}

theorem Session.Sound.step (hs : s.Sound bs) (hstep : heapSystem.step s.state (op, r) t.state)
    (hfrees : t.justFreed = op.frees) : ∃ bs', t.Sound bs' := by
  have hbalanced := hs.tiles.balanced_step hs.balanced hstep
  obtain ⟨bs', ht'⟩ := hs.tiles.step hstep
  refine ⟨bs', ht', hbalanced, fun p hp => ?_⟩
  rw [hfrees] at hp
  obtain rfl : op = .kfree p := by
    cases op with
    | kfree q => exact congrArg Op.kfree (Option.some.inj hp)
    | _ => cases hp
  rcases hstep.1 with rfl | hlive
  · exact .inl rfl
  · obtain ⟨hlo, hhi⟩ := le_of_mem_allocations 29 (hs.tiles.allocation hlive)
    rw [hs.tiles.holds.arena.fills] at hhi
    obtain ⟨bs'', ht'', hstale⟩ := hs.tiles.kfree_stale hstep
    rw [ht'.holds.unique ht''.holds]
    exact .inr ⟨p - 29, by omega, by omega, by omega, hstale _ (.inr ⟨hlive, by omega⟩)⟩

theorem Session.Sound.repeated (hs : s.Sound bs) (hp : s.justFreed = some p)
    (hret : Returns (fun fuel => kfree fuel s.state.heap p) t.state.heap)
    (hlive : t.state.live = s.state.live) (hfreed : t.justFreed = some p) : t.Sound bs := by
  obtain ⟨calls, hheap⟩ : ∃ calls, t.state.heap = s.state.heap.print calls := by
    rcases hs.freed p hp with rfl | ⟨a, rfl, hlo, hhi, hstale⟩
    · exact ⟨[], by
        rw [hret.unique (kfree_mono _ 0) ⟨0, rfl⟩, Heap.print, List.append_nil]⟩
    · obtain ⟨calls, hrun⟩ := hstale.kfree_eq hs.tiles.holds hlo hhi
      exact ⟨calls, hret.unique (kfree_mono _ _) ⟨0, hrun 0⟩⟩
  have hh := hs.tiles.holds
  refine ⟨⟨?_, hlive ▸ hs.tiles.live⟩, ?_, fun q hq => ?_⟩
  · rw [hheap]
    exact ⟨hh.initialized, hh.head, hh.linked, hh.arena⟩
  · rw [hlive]
    exact hs.balanced.of_same (by rw [hheap]; rfl) (by rw [hheap]; rfl)
  · rw [hheap]
    exact hs.freed q (by rw [hp, ← hfreed, hq])

theorem exists_sound (hs : sessionSystem.Reachable s) : ∃ bs, s.Sound bs := by
  refine hs.invariant (P := fun s => ∃ bs, s.Sound bs) ?_ ?_
  · rintro ⟨_, _⟩ ⟨⟨h, rfl⟩, rfl⟩
    exact ⟨_, ⟨heapInit_holds h, .refl _⟩, ⟨rfl, Nat.two_pow_pos 32⟩, fun p hp => by cases hp⟩
  · rintro s ⟨op, r⟩ t ⟨bs, hsound⟩ (⟨hstep, hfrees⟩ | ⟨p, hp, -, hret, hlive, hfreed⟩)
    · exact hsound.step hstep hfrees
    · exact ⟨bs, hsound.repeated hp hret hlive hfreed⟩

end Session

/-- After any run the report accounts for every byte of the heap and for every block, and
the two counters differ by the number of used blocks. -/
theorem heap_stats_conserved {s : Session} (hs : sessionSystem.Reachable s) (old : HeapStats) :
    ∃ stats, Returns (fun fuel => heapGetStats fuel s.state.heap old) stats ∧
      stats.usedSize + stats.freeSize + 29 * stats.blockCount = heapSize ∧
      stats.blockCount = stats.usedBlockCount + stats.freeBlockCount ∧
      stats.usedBlockCount = u32 (stats.allocationCount + (2 ^ 32 - stats.freeCount)) := by
  obtain ⟨bs, hsound⟩ := exists_sound hs
  obtain ⟨stats, hret, ⟨hbytes, hblocks, hused⟩, halloc, hfree⟩ :=
    hsound.tiles.holds.heapGetStats old
  have hbalanced := hsound.balanced
  rw [hsound.tiles.live.length_eq] at hbalanced
  rw [List.countP_nil] at hused
  rw [extent_nil] at hbytes
  have hheap := heapSize_eq
  refine ⟨stats, hret, hbytes, hblocks, ?_⟩
  rw [halloc, hfree, ← hbalanced.used_eq (by omega)]
  exact hused

theorem served_session : sessionSystem.Reachable ⟨.served 32, none⟩ := by
  have hinit : sessionSystem.Reachable ⟨.fresh, none⟩ := .init ⟨⟨_, rfl⟩, rfl⟩
  have hret := fresh_returns (n := 32) (a := heapAlignment) (by decide) (by decide)
  exact hinit.step (l := (.kmalloc 32, heapStart + 29))
    (.inl ⟨⟨(by decide : 32 < 2 ^ 64), hret, rfl⟩, rfl⟩)

theorem heap_stats_conserved_served : ∃ stats,
    Returns (fun fuel => heapGetStats fuel (State.served 32).heap
      ⟨0, 0, 0, 0, 0, 0, 0, 0, 0, 0, 0⟩) stats ∧
    stats.usedSize + stats.freeSize + 29 * stats.blockCount = heapSize := by
  obtain ⟨stats, hret, hbytes, -⟩ := heap_stats_conserved served_session
    ⟨0, 0, 0, 0, 0, 0, 0, 0, 0, 0, 0⟩
  exact ⟨stats, hret, hbytes⟩

end AlvOS.Kmalloc
