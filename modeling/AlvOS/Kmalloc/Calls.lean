import AlvOS.Lib.Fuel
import AlvOS.Kmalloc.Free

/-! What a call of the heap interface does, seen from its client: which pointer is
given up, which is handed out, and that every other payload stays as it was. -/

namespace AlvOS.Kmalloc
open ByteMemory Word BlockList Set CString Fuel

/-! ## Termination -/

theorem findFreeFrom_mono (m : Mem) (a s : Nat) : Mono fun fuel => findFreeFrom fuel m a s := by
  refine .loop (f := fun fuel a => findFreeFrom fuel m a s) (fun _ => rfl) (fun a => ?_) a
  simp only [findFreeFrom]
  split_ifs
  · exact .inr ⟨some 0, fun _ => rfl⟩
  · exact .inr ⟨some a, fun _ => rfl⟩
  · exact .inl ⟨_, fun _ => rfl⟩

theorem mergeFollowing_mono (m : Mem) (a : Nat) : Mono fun fuel => mergeFollowing fuel m a := by
  refine .loop (f := fun fuel m => mergeFollowing fuel m a) (fun _ => rfl) (fun m => ?_) m
  simp only [mergeFollowing]
  split_ifs
  · exact .inl ⟨_, fun _ => rfl⟩
  · exact .inr ⟨some m, fun _ => rfl⟩
  · exact .inr ⟨some m, fun _ => rfl⟩

theorem coalesceBlocks_mono (m : Mem) (a : Nat) : Mono fun fuel => coalesceBlocks fuel m a := by
  refine .of_succ fun fuel r h => ?_
  induction fuel generalizing m a with
  | zero => simp [coalesceBlocks] at h
  | succ fuel ih =>
    rw [coalesceBlocks] at h ⊢
    split_ifs at h ⊢ with hguard
    · exact h
    · obtain ⟨m', hm', h⟩ := Option.bind_eq_some_iff.mp h
      refine Option.bind_eq_some_iff.mpr ⟨m', mergeFollowing_mono m a _ _ _ fuel.le_succ hm', ?_⟩
      dsimp only at h ⊢
      split_ifs at h ⊢
      · exact ih _ _ h
      · exact h

theorem kmallocAligned_mono (h : Heap) (n a : Nat) : Mono fun fuel => kmallocAligned fuel h n a :=
  .ite (.const _) (.ite (.const _) ((findFreeFrom_mono _ _ _).bind fun _ => .ite (.const _) (.const _)))

theorem kmalloc_mono (h : Heap) (n : Nat) : Mono fun fuel => kmalloc fuel h n :=
  kmallocAligned_mono h n heapAlignment

theorem kcalloc_mono (h : Heap) (m n : Nat) : Mono fun fuel => kcalloc fuel h m n :=
  .ite (.const _) (kmalloc_mono h _)

theorem kfree_mono (h : Heap) (p : Nat) : Mono fun fuel => kfree fuel h p :=
  .ite (.const _) (.ite (.const _) (.ite (.const _) (.ite (.const _)
    ((coalesceBlocks_mono _ _).bind fun _ => .const _))))

theorem krealloc_mono (h : Heap) (p n : Nat) : Mono fun fuel => krealloc fuel h p n :=
  .ite (kmalloc_mono h n) (.ite ((kfree_mono h p).bind fun _ => .const _) (.ite (.const _)
    (.ite (.const _) ((kmalloc_mono h n).bind fun _ => .ite (.const _)
      ((kfree_mono _ p).bind fun _ => .const _)))))

/-! ## Allocation -/

/-- The answer to a request for `n` bytes aligned to `a` from a heap that holds `bs`. -/
inductive Outcome (h : Heap) (bs : List Block) (n a : Nat) : Heap → Nat → Prop
  | refused {h' : Heap} (_ : n = 0 ∨ ∀ b ∈ bs, ¬Fits (roundedSize n a) b) (_ : h'.mem = h.mem)
      (_ : Holds h' bs) : Outcome h bs n a h' 0
  | served {pre post : List Block} {b : Block} (_ : n ≠ 0)
      (_ : FirstFit (roundedSize n a) bs pre b post) :
      Outcome h bs n a (h.allocated (heapStart + extent 29 pre) (roundedSize n a))
        (heapStart + extent 29 pre + 29)

section Allocate
variable {h h' : Heap} {bs : List Block} {r : Nat}

theorem Holds.allocationFailed (hh : Holds h bs) (calls : Console) :
    Holds (h.allocationFailed calls) bs := ⟨hh.initialized, hh.head, hh.linked, hh.arena⟩

theorem Holds.exists_outcome (hh : Holds h bs) (n a : Nat) : ∃ h' r,
    Returns (fun fuel => kmallocAligned fuel h n a) (h', r) ∧ Outcome h bs n a h' r := by
  by_cases hn : n = 0
  · subst hn
    exact ⟨h, 0, ⟨0, kmallocAligned_zero hh⟩, .refused (.inl rfl) rfl hh⟩
  · rcases firstFit_or_none (roundedSize n a) bs with hnone | ⟨pre, b, post, hfit⟩
    · exact ⟨_, 0, ⟨_, kmallocAligned_none hh hn hnone (Nat.lt_succ_self _)⟩,
        .refused (.inr hnone) rfl (hh.allocationFailed _)⟩
    · exact ⟨_, _, ⟨_, kmallocAligned_firstFit hh hn hfit (Nat.lt_succ_self _)⟩, .served hn hfit⟩

theorem Holds.outcome (hh : Holds h bs) {n a : Nat}
    (hret : Returns (fun fuel => kmallocAligned fuel h n a) (h', r)) : Outcome h bs n a h' r := by
  obtain ⟨h'', r', hret', hout⟩ := hh.exists_outcome n a
  obtain ⟨rfl, rfl⟩ := Prod.mk.inj (hret.unique (kmallocAligned_mono h n a) hret')
  exact hout

theorem Outcome.ne_zero {n a : Nat} (hout : Outcome h bs n a h' r) (hn : n ≠ 0) {b : Block}
    (hb : b ∈ bs) (hfit : Fits (roundedSize n a) b) : r ≠ 0 := by
  cases hout with
  | refused hwhy => exact absurd hfit ((hwhy.resolve_left hn) b hb)
  | served => omega

theorem kcalloc_overflow {m n : Nat} :
    (m ≠ 0 ∧ u64 (m * n) / m ≠ n) ↔ 2 ^ 64 ≤ m * n := by
  rcases Nat.eq_zero_or_pos m with rfl | hm
  · simp
  · constructor
    · rintro ⟨-, hdiv⟩
      by_contra hlt
      rw [u64_of_lt (by omega), Nat.mul_div_cancel_left n hm] at hdiv
      exact hdiv rfl
    · refine fun hle => ⟨hm.ne', fun hdiv => ?_⟩
      have hback : m * (u64 (m * n) / m) ≤ u64 (m * n) := Nat.mul_div_le _ _
      rw [hdiv] at hback
      have := u64_lt (m * n)
      omega

theorem kcalloc_eq {m n : Nat} (fuel : Nat) (hlt : m * n < 2 ^ 64) :
    kcalloc fuel h m n = kmalloc fuel h (m * n) := by
  have hno : ¬(m ≠ 0 ∧ u64 (m * n) / m ≠ n) := fun hov => by
    have := kcalloc_overflow.mp hov
    omega
  rw [kcalloc]
  exact (if_neg hno).trans (by rw [u64_of_lt hlt])

theorem kcalloc_refused {m n : Nat} (fuel : Nat) (hov : 2 ^ 64 ≤ m * n) :
    kcalloc fuel h m n = some (h.allocationFailed
      [.writestring "[ERROR] kcalloc: overflow detectado\n"], 0) :=
  if_pos (kcalloc_overflow.mpr hov)

end Allocate

/-! ## Exchanges -/

/-- A call that takes `h` holding `bs` to `h'` holding `bs'`, in which the client gives
up the pointer `p` and is handed `r`; the null pointer stands for neither. -/
structure Exchange (h : Heap) (bs : List Block) (p r : Nat) (h' : Heap) (bs' : List Block) :
    Prop where
  holds : Holds h' bs'
  ptrs : (usedPtrs 29 heapStart bs').Perm
    ((if r = 0 then [] else [r]) ++ (usedPtrs 29 heapStart bs).erase p)
  keeps : ∀ q k, q ≠ p → (q, k) ∈ allocations 29 heapStart bs →
    (q, k) ∈ allocations 29 heapStart bs' ∧ EqOn h'.mem h.mem (Ico q (q + k))

section Exchange
variable {h h' : Heap} {bs : List Block} {n a r : Nat}

theorem zero_notMem_usedPtrs (bs : List Block) : 0 ∉ usedPtrs 29 heapStart bs := by
  rw [mem_usedPtrs]
  rintro ⟨pre, b, post, -, -, hzero⟩
  omega

theorem Exchange.idle (hh : Holds h' bs) (hmem : h'.mem = h.mem) : Exchange h bs 0 0 h' bs := by
  refine ⟨hh, ?_, fun q k _ hq => ⟨hq, hmem ▸ eqOn_refl _ _⟩⟩
  rw [List.erase_of_not_mem (zero_notMem_usedPtrs bs)]
  exact .refl _

theorem Exchange.same (hh : Holds h bs) {p : Nat} (hp : p ∈ usedPtrs 29 heapStart bs) :
    Exchange h bs p p h bs := by
  refine ⟨hh, ?_, fun q k _ hq => ⟨hq, eqOn_refl _ _⟩⟩
  have hne : p ≠ 0 := fun hzero => zero_notMem_usedPtrs bs (by rwa [hzero] at hp)
  rw [if_neg hne]
  exact List.perm_cons_erase hp

theorem Holds.allocations_allocated {pre post : List Block} {b : Block} {s : Nat}
    (hfit : FirstFit s bs pre b post) :
    (allocations 29 heapStart (pre ++ (carve 29 16 s b ++ post))).Perm
      ((heapStart + extent 29 pre + 29, takenSize 29 16 s b) :: allocations 29 heapStart bs) := by
  rw [hfit.split]
  exact allocations_take 29 16 heapStart s pre hfit.fits.1 post

theorem Holds.mem_allocations_allocated {pre post : List Block} {b : Block} {s : Nat}
    (hfit : FirstFit s bs pre b post) :
    (heapStart + extent 29 pre + 29, takenSize 29 16 s b) ∈
      allocations 29 heapStart (pre ++ (carve 29 16 s b ++ post)) :=
  (Holds.allocations_allocated hfit).mem_iff.mpr (.head _)

theorem le_takenSize_roundedSize {n : Nat} {b : Block} (hn : n ≤ 2 ^ 32 - 16)
    (hfits : Fits (roundedSize n heapAlignment) b) :
    n ≤ takenSize 29 16 (roundedSize n heapAlignment) b :=
  (le_roundedSize (by decide) (roundable_heapAlignment.mpr hn)).trans (le_takenSize 29 16 hfits)

theorem Holds.take_exchange (hh : Holds h bs) {pre post : List Block} {b : Block} {s : Nat}
    (hfit : FirstFit s bs pre b post) :
    Exchange h bs 0 (heapStart + extent 29 pre + 29) (h.allocated (heapStart + extent 29 pre) s)
      (pre ++ (carve 29 16 s b ++ post)) := by
  have hperm := Holds.allocations_allocated hfit
  refine ⟨hh.allocated hfit, ?_, fun q k _ hq => ⟨hperm.mem_iff.mpr (.tail _ hq), ?_⟩⟩
  · rw [if_neg (by omega), List.erase_of_not_mem (zero_notMem_usedPtrs bs)]
    exact hperm.map Prod.fst
  · exact (hh.take_eqOn hfit).mono (Ico_subset_of_mem_allocations 29 hq)

theorem Outcome.exchange (hh : Holds h bs) (hout : Outcome h bs n a h' r) :
    ∃ bs', Exchange h bs 0 r h' bs' := by
  cases hout with
  | refused _ hmem hholds => exact ⟨bs, .idle hholds hmem⟩
  | served _ hfit => exact ⟨_, hh.take_exchange hfit⟩

theorem Holds.exists_kfree (hh : Holds h bs) {p : Nat} (hp : p ∈ usedPtrs 29 heapStart bs) :
    ∃ h' bs', Returns (fun fuel => kfree fuel h p) h' ∧ Exchange h bs p 0 h' bs' ∧
      EqOn h'.mem h.mem (usedBytes 29 heapStart bs) := by
  obtain ⟨pre, b, post, rfl, hb, rfl⟩ := (mem_usedPtrs 29).mp hp
  obtain ⟨m, hrun, hlinked, heq⟩ := kfree_spec hh hb (Nat.le_refl _)
  have hused : EqOn m h.mem (usedBytes 29 heapStart (pre ++ b :: post)) :=
    heq.mono (disjoint_headerBytes_usedBytes 29 _ _).subset_compl_left
  have hperm := allocations_give 29 heapStart pre hb post
  refine ⟨_, coalesce 29 pre.reverse ⟨b.size, true⟩ post, ⟨_, hrun⟩,
    ⟨⟨hh.initialized, hh.head, hlinked, hh.arena.step (Step.give hb : Step 29 16 _ _)⟩, ?_, ?_⟩,
    hused⟩
  · have hgone := (hperm.map Prod.fst).erase (heapStart + extent 29 pre + 29)
    rw [List.map_cons, List.erase_cons_head] at hgone
    exact hgone.symm
  · intro q k hne hq
    refine ⟨?_, hused.mono (Ico_subset_of_mem_allocations 29 hq)⟩
    exact (List.mem_cons.mp (hperm.mem_iff.mp hq)).resolve_left fun h => hne (Prod.mk.inj h).1

end Exchange

/-! ## Reallocation -/

def blockSize (m : Mem) (p : Nat) : Nat := heapBlock.load m (ptrToBlock p) .size

/-- The heap after `memcpy(new_ptr, ptr, block->size)`. -/
def Heap.copied (h : Heap) (newPtr ptr : Nat) : Heap :=
  { h with mem := memcpy h.mem newPtr ptr (blockSize h.mem ptr) }

@[simp] theorem Heap.copied_heapInitialized (h : Heap) (newPtr ptr : Nat) :
    (h.copied newPtr ptr).heapInitialized = h.heapInitialized := by rw [Heap.copied]

@[simp] theorem Heap.copied_heapHead (h : Heap) (newPtr ptr : Nat) :
    (h.copied newPtr ptr).heapHead = h.heapHead := by rw [Heap.copied]

@[simp] theorem Heap.copied_totalAllocations (h : Heap) (newPtr ptr : Nat) :
    (h.copied newPtr ptr).totalAllocations = h.totalAllocations := by rw [Heap.copied]

@[simp] theorem Heap.copied_totalFrees (h : Heap) (newPtr ptr : Nat) :
    (h.copied newPtr ptr).totalFrees = h.totalFrees := by rw [Heap.copied]

@[simp] theorem Heap.copied_mem (h : Heap) (newPtr ptr : Nat) :
    (h.copied newPtr ptr).mem = memcpy h.mem newPtr ptr (blockSize h.mem ptr) := by rw [Heap.copied]

section Reallocate
variable {h h' : Heap} {bs pre post : List Block} {b : Block} {p size n r : Nat}

theorem ne_zero_of_mem_allocations (hp : (p, size) ∈ allocations 29 heapStart bs) : p ≠ 0 := by
  have := (le_of_mem_allocations 29 hp).1
  have hstart := heapStart_eq
  omega

theorem Holds.allocation (hh : Holds h bs) (hp : (p, size) ∈ allocations 29 heapStart bs) :
    isValidBlock h.mem (ptrToBlock p) = true ∧ blockSize h.mem p = size := by
  obtain ⟨pre, b, post, rfl, -, rfl, rfl⟩ := (mem_allocations 29).mp hp
  obtain ⟨hhead, hext⟩ := hh.block
  have hstart := heapStart_eq
  have hheap := heapSize_eq
  rw [blockSize, ptrToBlock_eq (by omega)]
  exact ⟨isValidBlock_of_header hhead (by omega) (by omega), hhead.size⟩

theorem krealloc_release (fuel : Nat) (hp : p ≠ 0) :
    krealloc fuel h p 0 = (kfree fuel h p).bind fun h' => some (h', 0) := by
  rw [krealloc, if_neg hp, if_pos rfl]
  rfl

def invalidBlock : Console :=
  [.setcolor .lightRed .black, .writestring "[ERROR] krealloc: bloque inválido\n"]

theorem krealloc_invalid (fuel : Nat) (hp : p ≠ 0) (hn : n ≠ 0)
    (hvalid : isValidBlock h.mem (ptrToBlock p) = false) :
    krealloc fuel h p n = some (h.print invalidBlock, 0) := by
  rw [krealloc, if_neg hp, if_neg hn]
  exact if_pos hvalid

theorem krealloc_valid (fuel : Nat) (hp : p ≠ 0) (hn : n ≠ 0)
    (hvalid : isValidBlock h.mem (ptrToBlock p) = true) : krealloc fuel h p n =
      if n ≤ blockSize h.mem p then some (h, p)
      else (kmalloc fuel h n).bind fun (h', r) =>
        if r = 0 then some (h', 0)
        else (kfree fuel (h'.copied r p) p).bind fun h'' => some (h'', r) := by
  rw [krealloc, if_neg hp, if_neg hn]
  exact if_neg (by simp [hvalid])

theorem Holds.krealloc_keep (hh : Holds h bs) (hp : (p, size) ∈ allocations 29 heapStart bs)
    (hn : n ≠ 0) (hle : n ≤ size) (fuel : Nat) : krealloc fuel h p n = some (h, p) := by
  obtain ⟨hvalid, hsize⟩ := hh.allocation hp
  rw [krealloc_valid fuel (ne_zero_of_mem_allocations hp) hn hvalid, hsize, if_pos hle]

theorem Holds.krealloc_grow (hh : Holds h bs) (hp : (p, size) ∈ allocations 29 heapStart bs)
    (hlt : size < n) (fuel : Nat) : krealloc fuel h p n =
      (kmalloc fuel h n).bind fun (h', r) =>
        if r = 0 then some (h', 0)
        else (kfree fuel (h'.copied r p) p).bind fun h'' => some (h'', r) := by
  obtain ⟨hvalid, hsize⟩ := hh.allocation hp
  rw [krealloc_valid fuel (ne_zero_of_mem_allocations hp) (by omega) hvalid, hsize,
    if_neg (Nat.not_le.mpr hlt)]

theorem Holds.copied {q k : Nat} (hh : Holds h bs) (hp : (p, size) ∈ allocations 29 heapStart bs)
    (hq : (q, k) ∈ allocations 29 heapStart bs) (hne : p ≠ q) (hroom : size ≤ k) :
    Holds (h.copied q p) bs ∧ EqOn (h.copied q p).mem h.mem (Ico q (q + k))ᶜ ∧
      ∀ i < size, (h.copied q p).mem (q + i) = h.mem (p + i) := by
  have hmem : (h.copied q p).mem = copyUp h.mem q p size := by
    rw [Heap.copied_mem, (hh.allocation hp).2, memcpy]
  have hframe : EqOn (h.copied q p).mem h.mem (Ico q (q + k))ᶜ := by
    intro x hx
    rw [hmem]
    exact copyUp_apply_of_notMem fun hx' => hx ⟨hx'.1, by have := hx'.2; omega⟩
  have hheaders : headerBytes 29 heapStart bs ⊆ (Ico q (q + k))ᶜ := fun x hx hx' =>
    disjoint_left.mp (disjoint_headerBytes_usedBytes 29 _ _) hx
      (Ico_subset_of_mem_allocations 29 hq hx')
  refine ⟨⟨?_, ?_, hh.linked.congr (hframe.mono hheaders).symm, hh.arena⟩, hframe, fun i hi => ?_⟩
  · rw [Heap.copied_heapInitialized, hh.initialized]
  · rw [Heap.copied_heapHead, hh.head]
  rw [hmem]
  have hapart : p + size ≤ q ∨ q + k ≤ p := allocations_apart 29 hp hq hne
  exact copyUp_apply (by omega) hi

theorem Exchange.fresh {h1 : Heap} {bs1 : List Block} {q : Nat} (hex : Exchange h bs 0 q h1 bs1)
    (hq : q ≠ 0) : q ∉ usedPtrs 29 heapStart bs := by
  have hptrs := hex.ptrs
  rw [if_neg hq, List.erase_of_not_mem (zero_notMem_usedPtrs bs)] at hptrs
  have hnodup := hptrs.nodup_iff.mp (usedPtrs_nodup 29 (by decide) heapStart bs1)
  exact (List.nodup_cons.mp hnodup).1

theorem Exchange.move {h1 : Heap} {bs1 : List Block} {q k : Nat} (hex : Exchange h bs 0 q h1 bs1)
    (hq : (q, k) ∈ allocations 29 heapStart bs1) (hp : (p, size) ∈ allocations 29 heapStart bs)
    (hroom : size ≤ k) : ∃ h' bs',
      Returns (fun fuel => kfree fuel (h1.copied q p) p) h' ∧ Exchange h bs p q h' bs' ∧
        (q, k) ∈ allocations 29 heapStart bs' ∧ ∀ i < size, h'.mem (q + i) = h.mem (p + i) := by
  have hfresh := hex.fresh (ne_zero_of_mem_allocations hq)
  have hptr : ∀ {x y}, (x, y) ∈ allocations 29 heapStart bs → q ≠ x := fun hx heq =>
    hfresh (List.mem_map.mpr ⟨_, hx, heq.symm⟩)
  have hkeep : ∀ {x y}, (x, y) ∈ allocations 29 heapStart bs →
      (x, y) ∈ allocations 29 heapStart bs1 ∧ EqOn h1.mem h.mem (Ico x (x + y)) :=
    fun hx => hex.keeps _ _ (ne_zero_of_mem_allocations hx) hx
  obtain ⟨hh2, hframe, hcopied⟩ := hex.holds.copied (hkeep hp).1 hq (hptr hp).symm hroom
  obtain ⟨h3, bs3, hret, hfree, hused⟩ :=
    hh2.exists_kfree (p := p) (List.mem_map.mpr ⟨_, (hkeep hp).1, rfl⟩)
  refine ⟨h3, bs3, hret, ⟨hfree.holds, ?_, fun x y hne hx => ?_⟩,
    (hfree.keeps q k (hptr hp) hq).1, fun i hi => ?_⟩
  · have hgone := hex.ptrs.erase p
    rw [if_neg (ne_zero_of_mem_allocations hq), List.erase_of_not_mem (zero_notMem_usedPtrs bs),
      List.singleton_append, List.erase_cons_tail (by simpa using hptr hp)] at hgone
    rw [if_neg (ne_zero_of_mem_allocations hq)]
    exact hfree.ptrs.trans hgone
  · obtain ⟨hmem, heq⟩ := hfree.keeps x y hne (hkeep hx).1
    have hapart : x + y ≤ q ∨ q + k ≤ x := allocations_apart 29 (hkeep hx).1 hq (hptr hx).symm
    have hout : Ico x (x + y) ⊆ (Ico q (q + k))ᶜ := fun z hz hz' => by
      have := hz.1; have := hz.2; have := hz'.1; have := hz'.2
      omega
    exact ⟨hmem, heq.trans ((hframe.mono hout).trans (hkeep hx).2)⟩
  · have hout : q + i ∈ usedBytes 29 heapStart bs1 :=
      Ico_subset_of_mem_allocations 29 hq ⟨by omega, by omega⟩
    rw [hused hout, hcopied i hi]
    exact (hkeep hp).2 ⟨by omega, by omega⟩

/-- A reallocation either keeps the old pointer, or exchanges it for a new one that
holds the old bytes, or changes nothing. -/
theorem Holds.exists_krealloc (hh : Holds h bs) (hp : (p, size) ∈ allocations 29 heapStart bs)
    (hn : n ≤ 2 ^ 32 - 16) : ∃ h' r bs',
      Returns (fun fuel => krealloc fuel h p n) (h', r) ∧
        Exchange h bs (if n = 0 ∨ r ≠ 0 then p else 0) r h' bs' ∧
        (r ≠ 0 → ∀ i < min size n, h'.mem (r + i) = h.mem (p + i)) ∧
        (n ≠ 0 → r = 0 → h'.mem = h.mem ∧ bs' = bs) := by
  have hzero := ne_zero_of_mem_allocations hp
  have hptr : p ∈ usedPtrs 29 heapStart bs := List.mem_map.mpr ⟨_, hp, rfl⟩
  rcases Nat.eq_zero_or_pos n with rfl | hpos
  · obtain ⟨h', bs', hret, hex, -⟩ := hh.exists_kfree hptr
    refine ⟨h', 0, bs', ?_, by simpa using hex, by simp, by simp⟩
    simp only [krealloc_release _ hzero]
    exact hret.bind (kfree_mono h p) (.const _) ⟨0, rfl⟩
  by_cases hle : n ≤ size
  · refine ⟨h, p, bs, ⟨0, hh.krealloc_keep hp hpos.ne' hle 0⟩, ?_, by simp, by simp [hzero]⟩
    rw [if_pos (.inr hzero)]
    exact .same hh hptr
  have hgrow := hh.krealloc_grow hp (Nat.lt_of_not_le hle)
  obtain ⟨h1, q, hret1, hout⟩ := hh.exists_outcome n heapAlignment
  simp only [hgrow]
  cases hout with
  | refused _ hmem hholds =>
    refine ⟨h1, 0, bs, ?_, ?_, by simp, fun _ _ => ⟨hmem, rfl⟩⟩
    · exact hret1.bind (kmalloc_mono h n) (.const _) ⟨0, rfl⟩
    · rw [if_neg (by omega)]
      exact .idle hholds hmem
  | @served pre post b _ hfit =>
    have hroom := le_takenSize_roundedSize hn hfit.fits
    have hnew := Holds.mem_allocations_allocated hfit
    have hq := ne_zero_of_mem_allocations hnew
    obtain ⟨h', bs', hret, hex, -, hbytes⟩ := (hh.take_exchange hfit).move hnew hp (by omega)
    refine ⟨h', _, bs', ?_, ?_, fun _ i hi => hbytes i (by omega), fun _ h0 => absurd h0 hq⟩
    · refine hret1.bind (kmalloc_mono h n) ?_ ?_
      · exact .ite (.const _) ((kfree_mono _ p).bind fun _ => .const _)
      · simp only [if_neg hq]
        exact hret.bind (kfree_mono _ p) (.const _) ⟨0, rfl⟩
    · rw [if_pos (.inr hq)]
      exact hex

end Reallocate

end AlvOS.Kmalloc
