import AlvOS.Kmalloc.Alloc

/-! Release: one merge, the forward loop, the backward recursion, and what `kfree`
does to the memory and to the block list. -/

namespace AlvOS.Kmalloc
open ByteMemory Word BlockList Set

theorem isValidBlock_of_header {m : Mem} {a nxt prv : Nat} {b : Block}
    (h : HeaderAt m a b nxt prv) (hlo : heapStart ≤ a) (hhi : a < heapStart + heapSize) :
    isValidBlock m a = true := by
  have hstart := heapStart_eq
  rw [isValidBlock, if_neg (by omega), if_neg (by simp [h.magic]), if_neg (by omega)]

section Merge
variable {m : Mem} {prv a : Nat} {b n : Block} {post : List Block}

theorem mergeNext_eq {nxt prv' : Nat} (h : HeaderAt m a b nxt prv)
    (hn : HeaderAt m (a + (29 + b.size)) n prv' a)
    (hfit : a + (29 + b.size) + (29 + n.size) < 2 ^ 63) :
    mergeNext m a (a + (29 + b.size)) =
      heapBlock.store
        (setPrev
          (heapBlock.store
            (heapBlock.store m a .size (b.size + (29 + n.size))) a .next prv') prv' a)
        (a + (29 + b.size)) .magic 0 := by
  have hsum : u64 (b.size + (29 + n.size)) = b.size + (29 + n.size) := u64_of_lt (by omega)
  unfold mergeNext
  simp only [heapBlock_size, h.size, hn.size, hsum, hn.next,
    load_store_apart (show a + 29 ≤ a + (29 + b.size) ∨ _ by omega)]
  rfl

theorem mergeNext_linked (h : Linked m prv a (b :: n :: post) 0) (ha : 0 < a)
    (hfit : a + extent 29 (b :: n :: post) < 2 ^ 63) :
    Linked (mergeNext m a (a + (29 + b.size))) prv a
      (⟨b.size + (29 + n.size), b.free⟩ :: post) 0 := by
  obtain ⟨hb, hn, hpost⟩ := h
  rw [extent_cons, extent_cons] at hfit
  have hnext : headOr (a + (29 + b.size) + (29 + n.size)) 0 post = 0 ∨
      headOr (a + (29 + b.size) + (29 + n.size)) 0 post = a + (29 + b.size) + (29 + n.size) := by
    cases post <;> simp
  have hend : a + (29 + (b.size + (29 + n.size))) = a + (29 + b.size) + (29 + n.size) := by omega
  rw [mergeNext_eq hb hn (by omega)]
  refine ⟨⟨?_, ?_, ?_, ?_, ?_⟩, ?_⟩
  · rw [load_store_apart (by omega), load_setPrev_apart (by omega), load_store_ne (by decide),
      load_store_ne (by decide), hb.magic]
  · rw [load_store_apart (by omega), load_setPrev_apart (by omega), load_store_ne (by decide)]
    exact load_store_size (by omega)
  · rw [load_store_apart (by omega), load_setPrev_apart (by omega), load_store_ne (by decide),
      load_store_ne (by decide), hb.isFree]
  · dsimp only
    rw [load_store_apart (by omega), load_setPrev_apart (by omega), load_store_next (by omega),
      hend]
  · rw [load_store_apart (by omega), load_setPrev_apart (by omega), load_store_ne (by decide),
      load_store_ne (by decide), hb.prev]
  · dsimp only
    rw [hend]
    refine hpost.redirect (fun hne => ?_) fun x hx hx' => ?_
    · obtain ⟨c, cs, rfl⟩ := List.exists_cons_of_ne_nil hne
      rw [headOr_cons, load_store_apart (by omega), load_setPrev_self (by omega) (by omega)]
    · have hge := (headerBytes_subset 29 _ _ hx).1
      rw [mem_Ico] at hx'
      rw [store_apply (by omega), setPrev_apply (by omega), store_apply (by omega),
        store_apply (by omega)]

theorem mergeNext_eqOn (h : Linked m prv a (b :: n :: post) 0)
    (hfit : a + extent 29 (b :: n :: post) < 2 ^ 63) :
    EqOn (mergeNext m a (a + (29 + b.size))) m (headerBytes 29 a (b :: n :: post))ᶜ := by
  obtain ⟨hb, hn, -⟩ := h
  rw [extent_cons, extent_cons] at hfit
  intro x hx
  have hxa : x ∉ Ico a (a + 29) := fun h => hx (.inl h)
  have hxn : x ∉ Ico (a + (29 + b.size)) (a + (29 + b.size) + 29) := fun h => hx (.inr (.inl h))
  rw [mem_Ico] at hxa hxn
  have hsucc : headOr (a + (29 + b.size) + (29 + n.size)) 0 post = 0 ∨
      x < headOr (a + (29 + b.size) + (29 + n.size)) 0 post + 21 ∨
        headOr (a + (29 + b.size) + (29 + n.size)) 0 post + 29 ≤ x := by
    cases post with
    | nil => exact .inl rfl
    | cons c post =>
      have hxc : x ∉ Ico (a + (29 + b.size) + (29 + n.size)) _ := fun h => hx (.inr (.inr (.inl h)))
      rw [mem_Ico] at hxc
      rw [headOr_cons]
      omega
  rw [mergeNext_eq hb hn (by omega), store_apply (by omega), setPrev_apply hsucc,
    store_apply (by omega), store_apply (by omega)]

end Merge

/-- Merging neighbours that are both free, any number of times, takes the memory `m`
and the list `bs` to `m'` and `bs'`. -/
inductive Merges : Mem → List Block → Mem → List Block → Prop
  | refl (m : Mem) (bs : List Block) : Merges m bs m bs
  | merge {m m' : Mem} {pre post bs' : List Block} {b n : Block} (_ : b.free = true)
      (_ : n.free = true)
      (_ : Merges (mergeNext m (heapStart + extent 29 pre)
          (heapStart + extent 29 pre + (29 + b.size)))
        (pre ++ ⟨b.size + (29 + n.size), b.free⟩ :: post) m' bs') :
      Merges m (pre ++ b :: n :: post) m' bs'

/-- The list `bs` lies in the heap and fills it. -/
structure Laid (m : Mem) (bs : List Block) : Prop where
  linked : Linked m 0 heapStart bs 0
  fills : extent 29 bs = heapSize

section Merges
variable {m m' m'' : Mem} {pre post bs bs' bs'' : List Block} {b n : Block}

theorem Merges.trans (h : Merges m bs m' bs') (h' : Merges m' bs' m'' bs'') :
    Merges m bs m'' bs'' := by
  induction h with
  | refl => exact h'
  | merge hb hn _ ih => exact .merge hb hn (ih h')

theorem Laid.fits (h : Laid m (pre ++ post)) :
    heapStart + extent 29 pre + extent 29 post < 2 ^ 63 := by
  have hfills := h.fills
  have hheap := heapSize_eq
  have hstart := heapStart_eq
  rw [extent_append] at hfills
  omega

theorem Laid.mergeNext_eqOn (h : Laid m (pre ++ b :: n :: post)) :
    EqOn (mergeNext m (heapStart + extent 29 pre) (heapStart + extent 29 pre + (29 + b.size))) m
      (headerBytes 29 (heapStart + extent 29 pre) (b :: n :: post))ᶜ :=
  Kmalloc.mergeNext_eqOn (linked_append.mp h.linked).2 h.fits

theorem Laid.mergeNext (h : Laid m (pre ++ b :: n :: post)) :
    Laid (mergeNext m (heapStart + extent 29 pre) (heapStart + extent 29 pre + (29 + b.size)))
      (pre ++ ⟨b.size + (29 + n.size), b.free⟩ :: post) := by
  have hstart := heapStart_eq
  obtain ⟨hpre, hrest⟩ := linked_append.mp h.linked
  refine ⟨linked_append.mpr ⟨hpre.congr fun x hx => ?_, mergeNext_linked hrest ?_ h.fits⟩, ?_⟩
  · refine (h.mergeNext_eqOn fun hx' => ?_).symm
    have := (headerBytes_subset 29 _ _ hx).2
    have := (headerBytes_subset 29 _ _ hx').1
    omega
  · omega
  · have hfills := h.fills
    rw [extent_append, extent_cons, extent_cons] at hfills
    rw [extent_append, extent_cons]
    dsimp only
    omega

theorem Merges.laid (h : Merges m bs m' bs') (hbs : Laid m bs) : Laid m' bs' := by
  induction h with
  | refl => exact hbs
  | merge _ _ _ ih => exact ih hbs.mergeNext

theorem Merges.eqOn (h : Merges m bs m' bs') (hbs : Laid m bs) :
    EqOn m' m (headerBytes 29 heapStart bs)ᶜ := by
  induction h with
  | refl => exact eqOn_refl _ _
  | @merge m m' pre post bs' b n _ _ _ ih =>
    have hsub := headerBytes_append_mono 29 heapStart pre
      (headerBytes_merge_subset 29 (heapStart + extent 29 pre) b n b.free post)
    intro x hx
    rw [ih hbs.mergeNext fun hx' => hx (hsub hx'),
      hbs.mergeNext_eqOn fun hx' => hx (headerBytes_tail_subset 29 _ pre _ hx')]

end Merges

/-- The loop absorbs the run of free blocks behind `b`; the induction is on what is left
of the list. -/
theorem mergeFollowing_merges {m : Mem} {pre post : List Block} {b : Block} {fuel : Nat}
    (h : Laid m (pre ++ b :: post)) (hb : b.free = true) (hfuel : post.length < fuel) :
    ∃ m', mergeFollowing fuel m (heapStart + extent 29 pre) = some m' ∧
      Merges m (pre ++ b :: post) m' (pre ++ absorb 29 b post) := by
  have hstart := heapStart_eq
  have hheap := heapSize_eq
  induction post generalizing m b fuel with
  | nil =>
    obtain ⟨fuel, rfl⟩ : ∃ k, fuel = k + 1 := ⟨fuel - 1, by simp at hfuel; omega⟩
    have hhead := (linked_append_cons.mp h.linked).2.1
    refine ⟨m, ?_, .refl m _⟩
    rw [mergeFollowing, hhead.next, headOr_nil, if_neg (by simp)]
  | cons n post ih =>
    obtain ⟨fuel, rfl⟩ : ∃ k, fuel = k + 1 := ⟨fuel - 1, by omega⟩
    obtain ⟨hhead, hn, -⟩ := (linked_append.mp h.linked).2
    have hfills := h.fills
    rw [extent_append, extent_cons, extent_cons] at hfills
    rw [mergeFollowing, hhead.next, headOr_cons, hn.isFree, absorb]
    cases hfree : n.free with
    | false => exact ⟨m, by simp, .refl m _⟩
    | true =>
      have hvalid := isValidBlock_of_header hn (by omega) (by omega)
      obtain ⟨m', hrun, hmerges⟩ := ih (b := ⟨b.size + (29 + n.size), b.free⟩) h.mergeNext hb
        (by simpa using hfuel)
      refine ⟨m', ?_, .merge hb hfree hmerges⟩
      rw [if_pos ⟨by omega, by simp⟩, if_pos hvalid, hrun]

theorem coalesceBlocks_step {m : Mem} {pre post : List Block} {b : Block} (fuel : Nat)
    (h : Laid m (pre ++ b :: post)) (hb : b.free = true) (hfuel : post.length < fuel) :
    ∃ m', Merges m (pre ++ b :: post) m' (pre ++ absorb 29 b post) ∧
      coalesceBlocks (fuel + 1) m (heapStart + extent 29 pre) =
        let prev := lastAddr 0 heapStart pre
        if prev ≠ 0 ∧ heapBlock.load m' prev .isFree ≠ 0 then coalesceBlocks fuel m' prev
        else some m' := by
  have hstart := heapStart_eq
  obtain ⟨m', hrun, hmerges⟩ := mergeFollowing_merges h hb hfuel
  refine ⟨m', hmerges, ?_⟩
  have hhead := (linked_append_cons.mp h.linked).2.1
  have hlinked := (hmerges.laid h).linked
  obtain ⟨c, rest, habs, -⟩ := absorb_eq_cons 29 b post
  rw [habs] at hlinked
  have hprev := (linked_append_cons.mp hlinked).2.1.prev
  rw [coalesceBlocks, if_neg (by simp [hhead.isFree, hb]; omega)]
  change (mergeFollowing fuel m (heapStart + extent 29 pre)).bind _ = _
  rw [hrun, Option.bind_some, hprev]

/-- Each level of the recursion moves to the free block before; the induction is on
the reversed list in front of the block. -/
theorem coalesceBlocks_merges {m : Mem} (rev : List Block) {post : List Block} {b : Block}
    (fuel : Nat) (h : Laid m (rev.reverse ++ b :: post)) (hb : b.free = true)
    (hfuel : 2 * rev.length + post.length + 2 ≤ fuel) :
    ∃ m', coalesceBlocks fuel m (heapStart + extent 29 rev.reverse) = some m' ∧
      Merges m (rev.reverse ++ b :: post) m' (coalesce 29 rev b post) := by
  have hstart := heapStart_eq
  induction rev generalizing m b post fuel with
  | nil =>
    obtain ⟨fuel, rfl⟩ : ∃ k, fuel = k + 1 := ⟨fuel - 1, by omega⟩
    obtain ⟨m', hmerges, hrun⟩ := coalesceBlocks_step fuel h hb (by omega)
    exact ⟨m', hrun.trans (if_neg (by simp [lastAddr])), hmerges⟩
  | cons p rev ih =>
    obtain ⟨fuel, rfl⟩ : ∃ k, fuel = k + 1 := ⟨fuel - 1, by omega⟩
    rw [List.reverse_cons] at h ⊢
    obtain ⟨m', hmerges, hrun⟩ := coalesceBlocks_step fuel h hb (by omega)
    have hlaid := hmerges.laid h
    have hassoc : rev.reverse ++ [p] ++ absorb 29 b post =
        rev.reverse ++ p :: absorb 29 b post := by simp
    rw [lastAddr_append_singleton] at hrun
    rw [hassoc] at hlaid hmerges
    have hp := (linked_append_cons.mp hlaid.linked).2.1.isFree
    rw [hrun, coalesce]
    cases hpfree : p.free with
    | false =>
      refine ⟨m', if_neg (by simp [hp, hpfree]), ?_⟩
      simpa using hmerges
    | true =>
      obtain ⟨m'', hrun', hmerges'⟩ := ih fuel hlaid hpfree (by
        have := length_absorb_le 29 b post
        simp only [List.length_cons] at hfuel
        omega)
      refine ⟨m'', ?_, hmerges.trans hmerges'⟩
      rw [← hrun']
      exact if_pos ⟨by omega, by simp [hp, hpfree]⟩

/-! ## `kfree` -/

section Release
variable {h : Heap} {pre post : List Block} {b : Block} {fuel : Nat}

theorem ptrToBlock_eq {a : Nat} (ha : a < 2 ^ 63) : ptrToBlock (a + 29) = a := by
  rw [ptrToBlock, heapBlock_size, u64]
  omega

def invalidPointer (ptr : Nat) : Console :=
  [.setcolor .lightRed .black, .writestring "[ERROR] kfree: puntero inválido: 0x", .printHex ptr,
    .writestring "\n"]

def doubleFree (ptr : Nat) : Console :=
  [.setcolor .lightBrown .black, .writestring "[WARN] kfree: doble liberación detectada: 0x",
    .printHex ptr, .writestring "\n"]

theorem kfree_invalid {p : Nat} (hinit : h.heapInitialized = true) (hp : p ≠ 0)
    (hvalid : isValidBlock h.mem (ptrToBlock p) = false) (fuel : Nat) :
    kfree fuel h p = some (h.print (invalidPointer p)) := by
  rw [kfree, if_neg hp, if_neg (by simp [hinit])]
  exact if_pos hvalid

theorem kfree_free {p : Nat} (hinit : h.heapInitialized = true) (hp : p ≠ 0)
    (hvalid : isValidBlock h.mem (ptrToBlock p) = true)
    (hfree : heapBlock.load h.mem (ptrToBlock p) .isFree ≠ 0) (fuel : Nat) :
    kfree fuel h p = some (h.print (doubleFree p)) := by
  rw [kfree, if_neg hp, if_neg (by simp [hinit])]
  exact (if_neg (by simp [hvalid])).trans (if_pos hfree)

theorem Holds.laid_marked (hh : Holds h (pre ++ b :: post)) :
    Laid (heapBlock.store h.mem (heapStart + extent 29 pre) .isFree 1)
      (pre ++ ⟨b.size, true⟩ :: post) := by
  refine ⟨setFree_linked hh.linked (f := true) rfl, ?_⟩
  rw [← hh.arena.fills, extent_append, extent_append, extent_cons, extent_cons]

/-- Releasing a used block marks it free and merges it with both its neighbours. -/
theorem kfree_merges (hh : Holds h (pre ++ b :: post)) (hb : b.free = false)
    (hfuel : 2 * (pre ++ b :: post).length + 2 ≤ fuel) :
    ∃ m, kfree fuel h (heapStart + extent 29 pre + 29) =
        some { h with mem := m, totalFrees := u32 (h.totalFrees + 1) } ∧
      Merges (heapBlock.store h.mem (heapStart + extent 29 pre) .isFree 1)
        (pre ++ ⟨b.size, true⟩ :: post) m (coalesce 29 pre.reverse ⟨b.size, true⟩ post) := by
  have hstart := heapStart_eq
  have hheap := heapSize_eq
  obtain ⟨hhead, hext⟩ := hh.block
  obtain ⟨m, hrun, hmerges⟩ := coalesceBlocks_merges pre.reverse fuel
    (b := ⟨b.size, true⟩) (by simpa using hh.laid_marked) rfl
    (by simp only [List.length_append, List.length_cons, List.length_reverse] at hfuel ⊢; omega)
  rw [List.reverse_reverse] at hrun hmerges
  refine ⟨m, ?_, hmerges⟩
  have hvalid := isValidBlock_of_header hhead (by omega) (by omega)
  have hused : ¬heapBlock.load h.mem (heapStart + extent 29 pre) .isFree ≠ 0 := by
    simp [hhead.isFree, hb]
  rw [kfree, if_neg (by omega), if_neg (by simp [hh.initialized]), ptrToBlock_eq (by omega)]
  simp only [hvalid, if_neg hused]
  change (coalesceBlocks _ _ _).bind _ = _
  rw [hrun]
  rfl

theorem kfree_spec (hh : Holds h (pre ++ b :: post)) (hb : b.free = false)
    (hfuel : 2 * (pre ++ b :: post).length + 2 ≤ fuel) :
    ∃ m, kfree fuel h (heapStart + extent 29 pre + 29) =
        some { h with mem := m, totalFrees := u32 (h.totalFrees + 1) } ∧
      Linked m 0 heapStart (coalesce 29 pre.reverse ⟨b.size, true⟩ post) 0 ∧
      EqOn m h.mem (headerBytes 29 heapStart (pre ++ b :: post))ᶜ := by
  obtain ⟨m, hrun, hmerges⟩ := kfree_merges hh hb hfuel
  refine ⟨m, hrun, (hmerges.laid hh.laid_marked).linked, fun x hx => ?_⟩
  have hsame : headerBytes 29 heapStart (pre ++ ⟨b.size, true⟩ :: post) =
      headerBytes 29 heapStart (pre ++ b :: post) := by
    simp only [headerBytes_append, headerBytes]
  have hx' : x ∉ Ico (heapStart + extent 29 pre) (heapStart + extent 29 pre + 29) := fun h => hx (by
    rw [headerBytes_append]
    exact .inr (.inl h))
  rw [mem_Ico] at hx'
  rw [hmerges.eqOn hh.laid_marked (by rw [hsame]; exact hx), store_apply (by omega)]

end Release

end AlvOS.Kmalloc
