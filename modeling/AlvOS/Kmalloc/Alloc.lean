import AlvOS.Kmalloc.Layout
import AlvOS.Kmalloc.Rounding

/-! Allocation: first-fit search, the split, and what `kmalloc_aligned` does to the
memory and to the block list. -/

namespace AlvOS.Kmalloc
open ByteMemory Word BlockList Set CString

/-- `if (next) next->prev = v`. -/
def setPrev (m : Mem) (next v : Nat) : Mem :=
  if next ≠ 0 then heapBlock.store m next .prev v else m

section SetPrev
variable {m : Mem} {next v b : Nat} {g : Field}

theorem load_setPrev_apart (h : next = 0 ∨ next + 29 ≤ b ∨ b + 29 ≤ next) :
    heapBlock.load (setPrev m next v) b g = heapBlock.load m b g := by
  unfold setPrev
  split_ifs with hnext
  · exact load_store_apart (h.resolve_left hnext)
  · rfl

theorem load_setPrev_self (hnext : next ≠ 0) (hv : v < 2 ^ 64) :
    heapBlock.load (setPrev m next v) next .prev = v := by
  rw [setPrev, if_pos hnext, load_store_prev hv]

theorem setPrev_apply {x : Nat} (h : next = 0 ∨ x < next + 21 ∨ next + 29 ≤ x) :
    setPrev m next v x = m x := by
  unfold setPrev
  split_ifs with hnext
  · exact store_prev_apply (h.resolve_left hnext)
  · rfl

end SetPrev

theorem findFreeFrom_none {m : Mem} {prv a s fuel : Nat} {bs : List Block}
    (h : Linked m prv a bs 0) (ha : 0 < a) (hnone : ∀ b ∈ bs, ¬Fits s b)
    (hfuel : bs.length < fuel) : findFreeFrom fuel m (headOr a 0 bs) s = some 0 := by
  induction bs generalizing prv a fuel with
  | nil =>
    obtain ⟨fuel, rfl⟩ : ∃ k, fuel = k + 1 := ⟨fuel - 1, by simp at hfuel; omega⟩
    rfl
  | cons b bs ih =>
    obtain ⟨fuel, rfl⟩ : ∃ k, fuel = k + 1 := ⟨fuel - 1, by omega⟩
    have hb : ¬(b.free.toNat ≠ 0 ∧ s ≤ b.size) := fun hb => hnone b (by simp) (by
      simpa [Fits] using hb)
    rw [findFreeFrom, headOr_cons, if_neg (by omega), h.1.isFree, h.1.size, if_neg hb, h.1.next]
    exact ih h.2 (by omega) (fun c hc => hnone c (by simp [hc])) (by simpa using hfuel)

theorem findFreeFrom_firstFit {m : Mem} {prv a s fuel : Nat} {bs pre post : List Block} {b : Block}
    (h : Linked m prv a bs 0) (ha : 0 < a) (hfit : FirstFit s bs pre b post)
    (hfuel : bs.length < fuel) :
    findFreeFrom fuel m (headOr a 0 bs) s = some (a + extent 29 pre) := by
  obtain ⟨rfl, hskip, hb⟩ := hfit
  induction pre generalizing prv a fuel with
  | nil =>
    obtain ⟨fuel, rfl⟩ : ∃ k, fuel = k + 1 := ⟨fuel - 1, by omega⟩
    have hb' : b.free.toNat ≠ 0 ∧ s ≤ b.size := by simpa [Fits] using hb
    rw [List.nil_append] at h ⊢
    rw [findFreeFrom, headOr_cons, if_neg (by omega), h.1.isFree, h.1.size, if_pos hb']
    simp
  | cons c pre ih =>
    obtain ⟨fuel, rfl⟩ : ∃ k, fuel = k + 1 := ⟨fuel - 1, by omega⟩
    have hc : ¬(c.free.toNat ≠ 0 ∧ s ≤ c.size) := fun hc => hskip c (by simp) (by
      simpa [Fits] using hc)
    rw [List.cons_append] at h ⊢
    rw [findFreeFrom, headOr_cons, if_neg (by omega), h.1.isFree, h.1.size, if_neg hc, h.1.next,
      ih (by omega) (fun d hd => hskip d (by simp [hd])) h.2 (by simpa using hfuel), extent_cons]
    congr 1
    omega

def putHeader (m : Mem) (a size isFree next prev : Nat) : Mem :=
  let m := heapBlock.store m a .magic heapMagic
  let m := heapBlock.store m a .size size
  let m := heapBlock.store m a .isFree isFree
  let m := heapBlock.store m a .next next
  heapBlock.store m a .prev prev

theorem headerAt_putHeader {m : Mem} {a n p : Nat} {b : Block} (hsize : b.size < 2 ^ 64)
    (hn : n < 2 ^ 64) (hp : p < 2 ^ 64) :
    HeaderAt (putHeader m a b.size b.free.toNat n p) a b n p := by
  have hfree : b.free.toNat < 2 ^ 8 := by cases b.free <;> decide
  constructor <;> unfold putHeader <;> simp only [load_store_ne, ne_eq, reduceCtorEq,
    not_false_eq_true]
  · exact load_store_magic (by decide)
  · exact load_store_size hsize
  · exact load_store_isFree hfree
  · exact load_store_next hn
  · exact load_store_prev hp

theorem putHeader_apply {m : Mem} {a size isFree next prev x : Nat} (h : x < a ∨ a + 29 ≤ x) :
    putHeader m a size isFree next prev x = m x := by
  unfold putHeader
  simp only [store_apply h]

theorem load_putHeader_apart {m : Mem} {a size isFree next prev b : Nat} {f : Field}
    (h : a + 29 ≤ b ∨ b + 29 ≤ a) :
    heapBlock.load (putHeader m a size isFree next prev) b f = heapBlock.load m b f := by
  unfold putHeader
  simp only [load_store_apart h]

theorem splitBlock_small {m : Mem} {a s nxt prv : Nat} {b : Block} (h : HeaderAt m a b nxt prv)
    (hs : s < 2 ^ 63) (hsmall : b.size < s + 45) : splitBlock m a s = m := by
  have hroom : heapBlock.load m a .size < u64 (s + (29 + 16)) := by
    rw [h.size, u64_of_lt (by omega)]
    omega
  unfold splitBlock
  by_cases hguard : a = 0 ∨ heapBlock.load m a .isFree = 0
  · exact if_pos hguard
  · exact (if_neg hguard).trans (if_pos hroom)

theorem splitBlock_large {m : Mem} {a s nxt prv : Nat} {b : Block} (h : HeaderAt m a b nxt prv)
    (ha : 0 < a) (hfit : a + (29 + b.size) < 2 ^ 63) (hb : b.free = true)
    (hlarge : s + 45 ≤ b.size) : splitBlock m a s =
      let n := a + (29 + s)
      let m' := setPrev (putHeader m n (b.size - s - 29) 1 nxt a) nxt n
      heapBlock.store (heapBlock.store m' a .next n) a .size s := by
  have hn : u64 (a + 29 + s) = a + (29 + s) := by rw [u64_of_lt (by omega)]; omega
  have hrest : u64 (b.size + (2 ^ 64 - s) + (2 ^ 64 - 29)) = b.size - s - 29 := by
    unfold u64
    omega
  have hapart : a + (29 + s) + 29 ≤ a ∨ a + 29 ≤ a + (29 + s) := by omega
  have hguard : ¬(a = 0 ∨ heapBlock.load m a .isFree = 0) := by
    rw [h.isFree, hb]
    simp
    omega
  have hroom : ¬heapBlock.load m a .size < u64 (s + (29 + 16)) := by
    rw [h.size, u64_of_lt (by omega)]
    omega
  unfold splitBlock
  simp only [heapBlock_size, if_neg hguard, if_neg hroom, hn]
  simp only [load_store_apart hapart, h.size, h.next, hrest]
  rfl

theorem splitBlock_apply {m : Mem} {a s prv x : Nat} {b : Block} {post : List Block}
    (h : HeaderAt m a b (headOr (a + (29 + b.size)) 0 post) prv) (ha : 0 < a)
    (hfit : a + (29 + b.size) < 2 ^ 63) (hb : b.free = true) (hs : s ≤ b.size)
    (hx : x ∉ Ico a (a + (29 + b.size))) (hx' : x ∉ headerBytes 29 (a + (29 + b.size)) post) :
    splitBlock m a s x = m x := by
  by_cases hlarge : s + 45 ≤ b.size
  · have hout : x < a ∨ a + (29 + b.size) ≤ x := by
      rw [mem_Ico] at hx
      omega
    have hnext : headOr (a + (29 + b.size)) 0 post = 0 ∨
        x < headOr (a + (29 + b.size)) 0 post + 21 ∨
          headOr (a + (29 + b.size)) 0 post + 29 ≤ x := by
      cases post with
      | nil => exact .inl rfl
      | cons c post =>
        have : x ∉ Ico (a + (29 + b.size)) (a + (29 + b.size) + 29) := fun h => hx' (.inl h)
        rw [mem_Ico] at this
        rw [headOr_cons]
        omega
    rw [splitBlock_large h ha hfit hb hlarge]
    dsimp only
    rw [store_apply (by omega), store_apply (by omega), setPrev_apply hnext,
      putHeader_apply (by omega)]
  · rw [splitBlock_small h (by omega) (by omega)]

theorem splitBlock_headers {m : Mem} {a s prv : Nat} {b : Block} {post : List Block}
    (h : HeaderAt m a b (headOr (a + (29 + b.size)) 0 post) prv)
    (hpost : Linked m a (a + (29 + b.size)) post 0) (ha : 0 < a)
    (hfit : a + (29 + b.size) < 2 ^ 63) (hb : b.free = true) (hlarge : s + 45 ≤ b.size) :
    Linked (splitBlock m a s) prv a (⟨s, true⟩ :: ⟨b.size - s - 29, true⟩ :: post) 0 := by
  have hnext : headOr (a + (29 + b.size)) 0 post = 0 ∨
      headOr (a + (29 + b.size)) 0 post = a + (29 + b.size) := by cases post <;> simp
  have hend : a + (29 + s) + (29 + (b.size - s - 29)) = a + (29 + b.size) := by omega
  rw [splitBlock_large h ha hfit hb hlarge]
  refine ⟨⟨?_, ?_, ?_, ?_, ?_⟩, ?_, ?_⟩
  · rw [load_store_ne (by decide), load_store_ne (by decide), load_setPrev_apart (by omega),
      load_putHeader_apart (by omega), h.magic]
  · exact load_store_size (by omega)
  · rw [load_store_ne (by decide), load_store_ne (by decide), load_setPrev_apart (by omega),
      load_putHeader_apart (by omega), h.isFree, hb]
  · rw [load_store_ne (by decide), load_store_next (by omega)]
    rfl
  · rw [load_store_ne (by decide), load_store_ne (by decide), load_setPrev_apart (by omega),
      load_putHeader_apart (by omega), h.prev]
  · -- the remainder's header was written before its neighbours were
    have hrest := headerAt_putHeader (m := m) (a := a + (29 + s))
      (b := ⟨b.size - s - 29, true⟩) (n := headOr (a + (29 + b.size)) 0 post) (p := a)
      (by dsimp only; omega) (by omega) (by omega)
    dsimp only
    rw [hend]
    constructor
    all_goals rw [load_store_apart (by omega), load_store_apart (by omega),
      load_setPrev_apart (by omega)]
    exacts [hrest.magic, hrest.size, hrest.isFree, hrest.next, hrest.prev]
  · dsimp only
    rw [hend]
    refine hpost.redirect (fun hne => ?_) fun x hx hx' => ?_
    · obtain ⟨c, cs, rfl⟩ := List.exists_cons_of_ne_nil hne
      rw [load_store_apart (by omega), load_store_apart (by omega), headOr_cons,
        load_setPrev_self (by omega) (by omega)]
    · have hge := (headerBytes_subset 29 _ _ hx).1
      rw [mem_Ico] at hx'
      rw [store_apply (by omega), store_apply (by omega), setPrev_apply (by omega),
        putHeader_apply (by omega)]

theorem setFree_linked {m : Mem} {prv a nxt v : Nat} {pre post : List Block} {b : Block}
    (h : Linked m prv a (pre ++ b :: post) nxt) {f : Bool} (hv : v = f.toNat) :
    Linked (heapBlock.store m (a + extent 29 pre) .isFree v) prv a
      (pre ++ ⟨b.size, f⟩ :: post) nxt := by
  obtain ⟨hpre, hhead, hpost⟩ := linked_append_cons.mp h
  refine linked_append_cons.mpr ⟨?_, ⟨?_, ?_, ?_, ?_, ?_⟩, ?_⟩
  · exact hpre.congr fun x hx => (store_apply (.inl (headerBytes_subset 29 _ _ hx).2)).symm
  · rw [load_store_ne (by decide), hhead.magic]
  · rw [load_store_ne (by decide), hhead.size]
  · rw [load_store_isFree (by cases f <;> simp_all), hv]
  · rw [load_store_ne (by decide), hhead.next]
  · rw [load_store_ne (by decide), hhead.prev]
  · refine hpost.congr fun x hx => (store_apply (.inr ?_)).symm
    have := (headerBytes_subset 29 _ _ hx).1
    omega

/-- Taking `s` bytes from a free block carves it in memory as it does in the list. -/
theorem take_linked {m : Mem} {prv a s : Nat} {pre post : List Block} {b : Block}
    (h : Linked m prv a (pre ++ b :: post) 0) (hprv : prv < a)
    (hfit : a + extent 29 (pre ++ b :: post) < 2 ^ 63) (hb : Fits s b) :
    Linked (heapBlock.store (splitBlock m (a + extent 29 pre) s) (a + extent 29 pre) .isFree 0)
      prv a (pre ++ (carve 29 16 s b ++ post)) 0 := by
  obtain ⟨hpre, hhead, hpost⟩ := linked_append_cons.mp h
  have hsize := hb.2
  rw [extent_append, extent_cons] at hfit
  by_cases hlarge : s + 45 ≤ b.size
  · have hbefore : Linked (splitBlock m (a + extent 29 pre) s) prv a pre (a + extent 29 pre) := by
      refine hpre.congr fun x hx => (splitBlock_apply hhead ?_ ?_ hb.1 hsize ?_ fun hx' => ?_).symm
      · omega
      · omega
      · have := (headerBytes_subset 29 _ _ hx).2
        rw [mem_Ico]
        omega
      · have := (headerBytes_subset 29 _ _ hx).2
        have := (headerBytes_subset 29 _ _ hx').1
        omega
    have hsplit := splitBlock_headers hhead hpost (by omega) (by omega) hb.1 hlarge
    rw [carve, if_neg (by omega)]
    exact setFree_linked (linked_append_cons.mpr ⟨hbefore, hsplit⟩) (f := false) rfl
  · rw [carve, if_pos (by omega), splitBlock_small hhead (by omega) (by omega)]
    exact setFree_linked h (f := false) rfl

/-! ## `kmalloc_aligned` -/

/-- The memory after `s` bytes have been taken from the block at `a` and cleared. -/
def allocMem (m : Mem) (a s : Nat) : Mem :=
  memset (heapBlock.store (splitBlock m a s) a .isFree 0) (a + 29) 0 s

section Allocate
variable {h : Heap} {bs pre post : List Block} {b : Block} {n a s fuel : Nat}

theorem carve_eq_cons (hb : Fits s b) : ∃ size rest,
    carve 29 16 s b = ⟨size, false⟩ :: rest ∧ s ≤ size ∧ size ≤ b.size := by
  unfold carve
  split_ifs
  · exact ⟨b.size, [], rfl, hb.2, le_refl _⟩
  · exact ⟨s, [⟨b.size - s - 29, true⟩], rfl, le_refl s, hb.2⟩

theorem Holds.take_linked (hh : Holds h bs) (hfit : FirstFit s bs pre b post) :
    Linked (allocMem h.mem (heapStart + extent 29 pre) s) 0 heapStart
      (pre ++ (carve 29 16 s b ++ post)) 0 := by
  obtain ⟨rfl, -, hb⟩ := hfit
  have htaken := Kmalloc.take_linked hh.linked (by decide) hh.fits hb
  obtain ⟨size, rest, hcarve, hsize, -⟩ := carve_eq_cons hb
  rw [hcarve, List.cons_append] at htaken ⊢
  refine htaken.congr fun x hx => ?_
  have hpayload := disjoint_left.mp (disjoint_headerBytes_usedBytes 29 _ _) hx
  rw [allocMem, memset, fill_apply, if_neg]
  intro hx'
  refine hpayload (Ico_subset_usedBytes 29 _ pre (b := ⟨size, false⟩) rfl _ ⟨hx'.1, ?_⟩)
  have := hx'.2
  dsimp only
  omega

theorem Holds.take_eqOn (hh : Holds h bs) (hfit : FirstFit s bs pre b post) :
    EqOn (allocMem h.mem (heapStart + extent 29 pre) s) h.mem (usedBytes 29 heapStart bs) := by
  obtain ⟨rfl, -, hb⟩ := hfit
  obtain ⟨hhead, hext⟩ := hh.block
  have hsize := hb.2
  have hstart := heapStart_eq
  have hheap := heapSize_eq
  intro x hx
  have hout := disjoint_left.mp (disjoint_usedBytes_free 29 heapStart pre hb.1 post) hx
  have hheader := disjoint_right.mp (disjoint_headerBytes_usedBytes 29 _ _) hx
  have hpost : x ∉ headerBytes 29 (heapStart + extent 29 pre + (29 + b.size)) post := by
    intro hx'
    apply hheader
    rw [headerBytes_append, headerBytes]
    exact .inr (.inr hx')
  rw [allocMem, memset, fill_apply, if_neg, store_apply, splitBlock_apply hhead _ _ hb.1 hsize hout
    hpost]
  all_goals first | omega | rw [mem_Ico] at *; omega

def Heap.allocated (h : Heap) (a s : Nat) : Heap :=
  { h with mem := allocMem h.mem a s, totalAllocations := Word.u32 (h.totalAllocations + 1) }

theorem Holds.allocated (hh : Holds h bs) (hfit : FirstFit s bs pre b post) :
    Holds (h.allocated (heapStart + extent 29 pre) s) (pre ++ (carve 29 16 s b ++ post)) :=
  ⟨hh.initialized, hh.head, hh.take_linked hfit, hh.arena.step (.take hfit)⟩

theorem kmallocAligned_zero (hh : Holds h bs) : kmallocAligned fuel h 0 a = some (h, 0) := by
  simp [kmallocAligned, hh.initialized]

def outOfMemory (size : Nat) : Console :=
  [.writestring "[ERROR] kmalloc: sin memoria (", .printDec size, .writestring " bytes)\n"]

theorem kmallocAligned_none (hh : Holds h bs) (hn : n ≠ 0)
    (hnone : ∀ b ∈ bs, ¬Fits (roundedSize n a) b) (hfuel : bs.length < fuel) :
    kmallocAligned fuel h n a = some (h.allocationFailed (outOfMemory (roundedSize n a)), 0) := by
  have hfind : findFreeBlock fuel h (roundedSize n a) = some 0 := by
    rw [findFreeBlock, ← hh.headOr]
    exact findFreeFrom_none hh.linked (by decide) hnone hfuel
  rw [kmallocAligned, if_neg (by simp [hh.initialized]), if_neg hn]
  change (findFreeBlock fuel h (roundedSize n a)).bind _ = _
  rw [hfind]
  rfl

theorem kmallocAligned_firstFit (hh : Holds h bs) (hn : n ≠ 0)
    (hfit : FirstFit (roundedSize n a) bs pre b post) (hfuel : bs.length < fuel) :
    kmallocAligned fuel h n a =
      some (h.allocated (heapStart + extent 29 pre) (roundedSize n a),
        heapStart + extent 29 pre + 29) := by
  have hfind : findFreeBlock fuel h (roundedSize n a) = some (heapStart + extent 29 pre) := by
    rw [findFreeBlock, ← hh.headOr]
    exact findFreeFrom_firstFit hh.linked (by decide) hfit hfuel
  have hext := (hfit.split ▸ hh : Holds h (pre ++ b :: post)).block.2
  have hstart := heapStart_eq
  have hheap := heapSize_eq
  have hptr : blockToPtr (heapStart + extent 29 pre) = heapStart + extent 29 pre + 29 := by
    rw [blockToPtr, heapBlock_size, Word.u64_of_lt (by omega)]
  rw [kmallocAligned, if_neg (by simp [hh.initialized]), if_neg hn]
  change (findFreeBlock fuel h (roundedSize n a)).bind _ = _
  rw [hfind, Option.bind_some, if_neg (by omega), hptr]
  rfl

end Allocate

end AlvOS.Kmalloc
