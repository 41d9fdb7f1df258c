import AlvOS.Kmalloc.Runs

/-! Pointers that have been released.  Whatever is released next, the header before
such a pointer either still heads a free block or has been merged away with its magic
wiped.  `kfree` tells both from a live block; `krealloc` tells only the second. -/

namespace AlvOS.Kmalloc
open ByteMemory Word BlockList Set Fuel Transition

/-- The header at `a` was merged into the block before it, and no other lies over it. -/
structure Wiped (m : Mem) (bs : List Block) (a : Nat) : Prop where
  magic : heapBlock.load m a .magic = 0
  apart : Disjoint (Ico a (a + 29)) (headerBytes 29 heapStart bs)

def Stale (m : Mem) (bs : List Block) (a : Nat) : Prop :=
  a ∈ freeHeads 29 heapStart bs ∨ Wiped m bs a

section Stale
variable {m m' : Mem} {a : Nat} {pre post bs bs' : List Block} {b n : Block}

theorem Wiped.congr (h : Wiped m bs a) (heq : EqOn m' m (headerBytes 29 heapStart bs)ᶜ)
    (hsub : headerBytes 29 heapStart bs' ⊆ headerBytes 29 heapStart bs) : Wiped m' bs' a := by
  have hbytes : EqOn m' m (Ico a (a + 29)) := heq.mono h.apart.subset_compl_right
  refine ⟨?_, h.apart.mono_right hsub⟩
  rw [heapBlock.load_congr hbytes]
  exact h.magic

theorem headerBytes_merge_append_subset :
    headerBytes 29 heapStart (pre ++ ⟨b.size + (29 + n.size), b.free⟩ :: post) ⊆
      headerBytes 29 heapStart (pre ++ b :: n :: post) :=
  headerBytes_append_mono 29 heapStart pre (headerBytes_merge_subset 29 _ b n b.free post)

theorem Laid.mergeNext_wiped (h : Laid m (pre ++ b :: n :: post)) :
    Wiped (Kmalloc.mergeNext m (heapStart + extent 29 pre)
        (heapStart + extent 29 pre + (29 + b.size)))
      (pre ++ ⟨b.size + (29 + n.size), b.free⟩ :: post)
      (heapStart + extent 29 pre + (29 + b.size)) := by
  obtain ⟨hb, hn, -⟩ := (linked_append.mp h.linked).2
  have hfits := h.fits
  rw [extent_cons, extent_cons] at hfits
  constructor
  · rw [mergeNext_eq hb hn (by omega)]
    exact load_store_magic (by decide)
  · rw [disjoint_left, headerBytes_append, headerBytes]
    rintro x ⟨hlo, hhi⟩ (hx | hx | hx)
    · have := (headerBytes_subset 29 _ _ hx).2
      omega
    · have := hx.2
      omega
    · have := (headerBytes_subset 29 _ _ hx).1
      dsimp only at this
      omega

theorem Laid.mergeNext_stale (h : Laid m (pre ++ b :: n :: post))
    (ha : Stale m (pre ++ b :: n :: post) a) :
    Stale (Kmalloc.mergeNext m (heapStart + extent 29 pre)
        (heapStart + extent 29 pre + (29 + b.size)))
      (pre ++ ⟨b.size + (29 + n.size), b.free⟩ :: post) a := by
  rcases ha with ha | ha
  · have hend : heapStart + extent 29 pre + (29 + (b.size + (29 + n.size))) =
        heapStart + extent 29 pre + (29 + b.size) + (29 + n.size) := by omega
    rw [freeHeads_append, freeHeads, freeHeads] at ha
    rcases ha with ha | ha | ha | ha
    · left
      rw [freeHeads_append]
      exact .inl ha
    · left
      rw [freeHeads_append, freeHeads]
      exact .inr (.inl ha)
    · -- the block behind: this is the header the merge wipes
      right
      split_ifs at ha
      · rw [mem_singleton_iff.mp ha]
        exact h.mergeNext_wiped
      · exact ha.elim
    · left
      rw [freeHeads_append, freeHeads, hend]
      exact .inr (.inr ha)
  · refine .inr (ha.congr (h.mergeNext_eqOn.mono ?_) headerBytes_merge_append_subset)
    exact compl_subset_compl.mpr (headerBytes_tail_subset 29 heapStart pre _)

theorem Merges.stale (h : Merges m bs m' bs') (hbs : Laid m bs) (ha : Stale m bs a) :
    Stale m' bs' a := by
  induction h with
  | refl => exact ha
  | merge _ _ _ ih => exact ih hbs.mergeNext (hbs.mergeNext_stale ha)

theorem stale_marked (ha : Stale m (pre ++ b :: post) a ∨ a = heapStart + extent 29 pre) :
    Stale (heapBlock.store m (heapStart + extent 29 pre) .isFree 1)
      (pre ++ ⟨b.size, true⟩ :: post) a := by
  have hheads : freeHeads 29 heapStart (pre ++ ⟨b.size, true⟩ :: post) =
      freeHeads 29 heapStart pre ∪ ({heapStart + extent 29 pre} ∪
        freeHeads 29 (heapStart + extent 29 pre + (29 + b.size)) post) := by
    rw [freeHeads_append, freeHeads, if_pos rfl]
  rcases ha with (ha | ha) | rfl
  · left
    rw [freeHeads_append, freeHeads] at ha
    rw [hheads]
    rcases ha with ha | ha | ha
    · exact .inl ha
    · split_ifs at ha
      · exact .inr (.inl ha)
      · exact ha.elim
    · exact .inr (.inr ha)
  · have hsame : headerBytes 29 heapStart (pre ++ ⟨b.size, true⟩ :: post) =
        headerBytes 29 heapStart (pre ++ b :: post) := by
      simp only [headerBytes_append, headerBytes]
    refine .inr (ha.congr (fun x hx => store_apply ?_) hsame.subset)
    rw [headerBytes_append, headerBytes] at hx
    have hout : x ∉ Ico (heapStart + extent 29 pre) (heapStart + extent 29 pre + 29) :=
      fun hx' => hx (.inr (.inl hx'))
    rw [mem_Ico] at hout
    omega
  · left
    rw [hheads]
    exact .inr (.inl rfl)

end Stale

/-- `kfree` of a used block makes its header stale and keeps the others so. -/
theorem Holds.exists_kfree_stale {h : Heap} {bs : List Block} {p : Nat} (hh : Holds h bs)
    (hp : p ∈ usedPtrs 29 heapStart bs) : ∃ h' bs',
      Returns (fun fuel => kfree fuel h p) h' ∧ Holds h' bs' ∧
        ∀ a, Stale h.mem bs a ∨ p = a + 29 → Stale h'.mem bs' a := by
  obtain ⟨pre, b, post, rfl, hb, rfl⟩ := (mem_usedPtrs 29).mp hp
  obtain ⟨m, hrun, hmerges⟩ := kfree_merges hh hb (Nat.le_refl _)
  refine ⟨_, coalesce 29 pre.reverse ⟨b.size, true⟩ post, ⟨_, hrun⟩,
    ⟨hh.initialized, hh.head, (hmerges.laid hh.laid_marked).linked,
      hh.arena.step (Step.give hb : Step 29 16 _ _)⟩, fun a ha => ?_⟩
  refine hmerges.stale hh.laid_marked (stale_marked (ha.imp_right fun heq => ?_))
  omega

section Runs
variable {s t : State} {bs : List Block} {a p : Nat} {order : List Nat}

theorem Op.returns_kfree {h h' : Heap} {r : Nat} :
    Returns (fun fuel => (Op.kfree p).call fuel h) (h', r) ↔
      Returns (fun fuel => Kmalloc.kfree fuel h p) h' ∧ r = 0 := by
  constructor
  · rintro ⟨fuel, hrun⟩
    obtain ⟨h'', hfree, hsome⟩ := Option.bind_eq_some_iff.mp hrun
    obtain ⟨rfl, rfl⟩ := Prod.mk.inj (Option.some.inj hsome)
    exact ⟨⟨fuel, hfree⟩, rfl⟩
  · rintro ⟨hret, rfl⟩
    exact hret.bind (kfree_mono h p) (.const _) ⟨0, rfl⟩

theorem Tiles.kfree_stale {r : Nat} (ht : Tiles s bs)
    (hstep : heapSystem.step s (.kfree p, r) t) : ∃ bs', Tiles t bs' ∧
      ∀ a, Stale s.heap.mem bs a ∨ p ∈ s.live ∧ p = a + 29 → Stale t.heap.mem bs' a := by
  obtain ⟨bs', ht'⟩ := ht.step hstep
  obtain ⟨hop, hret, -⟩ := hstep
  obtain ⟨hfree, -⟩ := Op.returns_kfree.mp hret
  refine ⟨bs', ht', fun a ha => ?_⟩
  have hh' := ht'.holds
  rcases hop with rfl | hp
  · have hheap : t.heap = s.heap := hfree.unique (kfree_mono _ 0) ⟨0, rfl⟩
    have hold := ha.resolve_right fun h => ht.zero_notMem h.1
    rw [hheap] at hh' ⊢
    rwa [hh'.unique ht.holds]
  · obtain ⟨h', cs, hret', hcs, hstale⟩ := ht.holds.exists_kfree_stale (ht.ptr_mem.mp hp)
    have hheap : t.heap = h' := hfree.unique (kfree_mono _ p) hret'
    rw [hheap] at hh' ⊢
    rw [hh'.unique hcs]
    exact hstale a (ha.imp_right And.right)

theorem Tiles.drain_stale (ht : Tiles s bs) (ha : Stale s.heap.mem bs a)
    (hrun : heapSystem.Run s (drain order) t) : ∃ bs', Tiles t bs' ∧ Stale t.heap.mem bs' a := by
  induction order generalizing s bs with
  | nil =>
    cases hrun
    exact ⟨bs, ht, ha⟩
  | cons q order ih =>
    cases hrun with
    | cons hstep hrest =>
      obtain ⟨bs', ht', hstale⟩ := ht.kfree_stale hstep
      exact ih ht' (hstale a (.inl ha)) hrest

theorem exists_stale (hs : heapSystem.Reachable s) (hp : p ∈ s.live)
    (hrun : heapSystem.Run s (drain (p :: order)) t) :
    ∃ bs, Tiles t bs ∧ ∃ a, p = a + 29 ∧ heapStart ≤ a ∧ a < heapStart + heapSize ∧
      Stale t.heap.mem bs a := by
  obtain ⟨bs, ht⟩ := exists_tiles hs
  cases hrun with
  | cons hstep hrest =>
    obtain ⟨hlow, hhigh⟩ := le_of_mem_allocations 29 (ht.allocation hp)
    rw [ht.holds.arena.fills] at hhigh
    obtain ⟨bs', ht', hstale⟩ := ht.kfree_stale hstep
    obtain ⟨bs'', ht'', hstale'⟩ :=
      ht'.drain_stale (hstale (p - 29) (.inr ⟨hp, by omega⟩)) hrest
    exact ⟨bs'', ht'', p - 29, by omega, by omega, by omega, hstale'⟩

end Runs

section DoubleFree
variable {h : Heap} {bs : List Block} {a : Nat}

theorem Holds.freeHead (hh : Holds h bs) (ha : a ∈ freeHeads 29 heapStart bs) :
    ∃ b nxt prv, HeaderAt h.mem a b nxt prv ∧ b.free = true ∧ b ∈ bs := by
  obtain ⟨pre, b, post, rfl, hb, rfl⟩ := exists_of_mem_freeHeads 29 ha
  exact ⟨b, _, _, hh.block.1, hb, by simp⟩

theorem Wiped.not_valid (ha : Wiped h.mem bs a) : isValidBlock h.mem a = false := by
  have hmagic : (0 : Nat) ≠ heapMagic := by decide
  unfold isValidBlock
  rw [ha.magic, if_pos hmagic]
  exact ite_self _

theorem Stale.kfree_eq (hh : Holds h bs) (ha : Stale h.mem bs a) (hlo : heapStart ≤ a)
    (hhi : a < heapStart + heapSize) :
    ∃ calls, ∀ fuel, kfree fuel h (a + 29) = some (h.print calls) := by
  have hstart := heapStart_eq
  have hheap := heapSize_eq
  have hblock : ptrToBlock (a + 29) = a := ptrToBlock_eq (by omega)
  rcases ha with ha | ha
  · obtain ⟨b, nxt, prv, hhead, hb, -⟩ := hh.freeHead ha
    refine ⟨_, kfree_free hh.initialized (by omega) ?_ ?_⟩
    · rw [hblock]
      exact isValidBlock_of_header hhead hlo hhi
    · rw [hblock, hhead.isFree, hb]
      decide
  · refine ⟨_, kfree_invalid hh.initialized (by omega) ?_⟩
    rw [hblock]
    exact ha.not_valid

end DoubleFree

/-- A second `kfree` prints a message and changes nothing else, whatever other blocks
were released after the first. -/
theorem double_free {s t : State} (hs : heapSystem.Reachable s) {p : Nat} (hp : p ∈ s.live)
    {order : List Nat} (hrun : heapSystem.Run s (drain (p :: order)) t) :
    ∃ bs h, Tiles t bs ∧ Returns (fun fuel => kfree fuel t.heap p) h ∧
      h = { t.heap with console := h.console } ∧ Holds h bs := by
  obtain ⟨bs, ht, a, rfl, hlo, hhi, hstale⟩ := exists_stale hs hp hrun
  obtain ⟨calls, hfree⟩ := hstale.kfree_eq ht.holds hlo hhi
  refine ⟨bs, t.heap.print calls, ht, ⟨0, hfree 0⟩, rfl, ?_⟩
  exact ⟨ht.holds.initialized, ht.holds.head, ht.holds.linked, ht.holds.arena⟩

theorem double_free_served : ∃ t h,
    heapSystem.Run (.served 32) (drain [heapStart + 29]) t ∧
      Returns (fun fuel => kfree fuel t.heap (heapStart + 29)) h ∧
      h = { t.heap with console := h.console } := by
  obtain ⟨t, hrun⟩ := exists_drain served_reachable (List.Perm.refl [heapStart + 29])
  obtain ⟨-, h, -, hret, hsame, -⟩ := double_free served_reachable (.head _) hrun
  exact ⟨t, h, hrun, hret, hsame⟩

/-- No block with room for `n` bytes starts at `a`, and if any starts there, no free
block has room for the rounded request. -/
def Unusable (bs : List Block) (a n : Nat) : Prop :=
  ∀ pre b post, bs = pre ++ b :: post → a = heapStart + extent 29 pre →
    b.size < n ∧ ∀ c ∈ bs, ¬Fits (roundedSize n heapAlignment) c

section Reallocate
variable {h h' : Heap} {bs pre post : List Block} {b : Block} {a n : Nat}

theorem Holds.krealloc_block (hh : Holds h (pre ++ b :: post)) (hn : n ≠ 0) (fuel : Nat) :
    krealloc fuel h (heapStart + extent 29 pre + 29) n =
      if n ≤ b.size then some (h, heapStart + extent 29 pre + 29)
      else (kmalloc fuel h n).bind fun (h', r) =>
        if r = 0 then some (h', 0)
        else (kfree fuel (h'.copied r (heapStart + extent 29 pre + 29))
          (heapStart + extent 29 pre + 29)).bind fun h'' => some (h'', r) := by
  obtain ⟨hhead, hext⟩ := hh.block
  have hstart := heapStart_eq
  have hheap := heapSize_eq
  have hblock : ptrToBlock (heapStart + extent 29 pre + 29) = heapStart + extent 29 pre :=
    ptrToBlock_eq (by omega)
  have hvalid := isValidBlock_of_header hhead (by omega) (by omega)
  rw [krealloc_valid fuel (by omega) hn (hblock.symm ▸ hvalid), blockSize, hblock, hhead.size]

theorem Holds.krealloc_unserved (hh : Holds h (pre ++ b :: post)) (hn : n ≠ 0) (hlt : b.size < n)
    (hnone : ∀ c ∈ pre ++ b :: post, ¬Fits (roundedSize n heapAlignment) c) :
    Returns (fun fuel => krealloc fuel h (heapStart + extent 29 pre + 29) n)
      (h.allocationFailed (outOfMemory (roundedSize n heapAlignment)), 0) := by
  refine ⟨(pre ++ b :: post).length + 1, ?_⟩
  dsimp only
  rw [hh.krealloc_block hn, if_neg (Nat.not_le.mpr hlt), kmalloc,
    kmallocAligned_none hh hn hnone (Nat.lt_succ_self _)]
  rfl

theorem Holds.unserved_of_krealloc (hh : Holds h (pre ++ b :: post)) (hn : n ≠ 0)
    (hret : Returns (fun fuel => krealloc fuel h (heapStart + extent 29 pre + 29) n) (h', 0)) :
    b.size < n ∧ ∀ c ∈ pre ++ b :: post, ¬Fits (roundedSize n heapAlignment) c := by
  obtain ⟨fuel, hrun : krealloc fuel h _ n = some (h', 0)⟩ := hret
  rw [hh.krealloc_block hn] at hrun
  split_ifs at hrun with hle
  · have hptr := (Prod.mk.inj (Option.some.inj hrun)).2
    omega
  · refine ⟨Nat.lt_of_not_le hle, fun c hc hfit => ?_⟩
    obtain ⟨⟨h1, r⟩, hret1, hrest⟩ := Option.bind_eq_some_iff.mp hrun
    have hr : r ≠ 0 := (hh.outcome ⟨fuel, hret1⟩).ne_zero hn hc hfit
    dsimp only at hrest
    rw [if_neg hr] at hrest
    obtain ⟨h2, -, hsome⟩ := Option.bind_eq_some_iff.mp hrest
    exact hr (Prod.mk.inj (Option.some.inj hsome)).2

theorem Stale.krealloc_iff (hh : Holds h bs) (ha : Stale h.mem bs a) (hlo : heapStart ≤ a)
    (hhi : a < heapStart + heapSize) (hn : n ≠ 0) :
    (∃ h', Returns (fun fuel => krealloc fuel h (a + 29) n) (h', 0) ∧ Holds h' bs) ↔
      Unusable bs a n := by
  constructor
  · rintro ⟨h', hret, -⟩ pre b post rfl rfl
    exact hh.unserved_of_krealloc hn hret
  · intro hun
    rcases ha with ha | ha
    · obtain ⟨pre, b, post, rfl, -, rfl⟩ := exists_of_mem_freeHeads 29 ha
      obtain ⟨hlt, hnone⟩ := hun pre b post rfl rfl
      exact ⟨_, hh.krealloc_unserved hn hlt hnone, hh.allocationFailed _⟩
    · have hstart := heapStart_eq
      have hheap := heapSize_eq
      have hblock : ptrToBlock (a + 29) = a := ptrToBlock_eq (by omega)
      have hvalid : isValidBlock h.mem (ptrToBlock (a + 29)) = false := hblock.symm ▸ ha.not_valid
      exact ⟨_, ⟨0, krealloc_invalid 0 (by omega) hn hvalid⟩,
        hh.initialized, hh.head, hh.linked, hh.arena⟩

end Reallocate

/-- `krealloc` of a released pointer fails and leaves the list alone exactly when the
old header was merged away, or heads too small a block and nothing else serves. -/
theorem krealloc_stale {s t : State} (hs : heapSystem.Reachable s) {p : Nat} (hp : p ∈ s.live)
    {order : List Nat} (hrun : heapSystem.Run s (drain (p :: order)) t) :
    ∃ bs, Tiles t bs ∧ ∀ n, 0 < n → n < 2 ^ 64 →
      ((∃ h, Returns (fun fuel => krealloc fuel t.heap p n) (h, 0) ∧ Holds h bs) ↔
        Unusable bs (p - 29) n) := by
  obtain ⟨bs, ht, a, rfl, hlo, hhi, hstale⟩ := exists_stale hs hp hrun
  exact ⟨bs, ht, fun n hn _ => hstale.krealloc_iff ht.holds hlo hhi hn.ne'⟩

theorem krealloc_stale_served : ∃ t bs,
    heapSystem.Run (.served 32) (drain [heapStart + 29]) t ∧ Tiles t bs ∧
      ((∃ h, Returns (fun fuel => krealloc fuel t.heap (heapStart + 29) 16) (h, 0) ∧
        Holds h bs) ↔ Unusable bs heapStart 16) := by
  obtain ⟨t, hrun⟩ := exists_drain served_reachable (List.Perm.refl [heapStart + 29])
  obtain ⟨bs, ht, hiff⟩ := krealloc_stale served_reachable (.head _) hrun
  exact ⟨t, bs, hrun, ht, hiff 16 (by decide) (by decide)⟩

/-- Once the only block has been released, `krealloc` to 16 bytes hands it out again. -/
theorem krealloc_stale_failure :
    (∃ t, heapSystem.Run (.served 32) (drain [heapStart + 29]) t ∧
      Returns (fun fuel => krealloc fuel t.heap (heapStart + 29) 16)
        (t.heap, heapStart + 29)) ∧
    ¬∀ s t p order n, heapSystem.Reachable s → p ∈ s.live →
      heapSystem.Run s (drain (p :: order)) t → 0 < n → n < 2 ^ 64 →
        ∃ h bs, Tiles t bs ∧ Returns (fun fuel => krealloc fuel t.heap p n) (h, 0) ∧
          Holds h bs := by
  obtain ⟨t, hrun⟩ := exists_drain served_reachable (List.Perm.refl [heapStart + 29])
  obtain ⟨bs, ht⟩ := exists_tiles (served_reachable.run hrun)
  obtain rfl := ht.eq_fresh (live_of_drain hrun (.refl _))
  have hback : ∀ fuel, krealloc fuel t.heap (heapStart + 29) 16 =
      some (t.heap, heapStart + 29) := by
    intro fuel
    have hholds : Holds t.heap ([] ++ ⟨heapSize - 29, true⟩ :: []) := ht.holds
    exact (hholds.krealloc_block (by decide) fuel).trans (if_pos (by decide))
  refine ⟨⟨t, hrun, 0, hback 0⟩, fun hclaim => ?_⟩
  obtain ⟨h, bs, -, hret, -⟩ := hclaim _ t _ [] 16 served_reachable (.head _) hrun (by decide)
    (by decide)
  have hsame := hret.unique (krealloc_mono _ _ _) ⟨0, hback 0⟩
  exact absurd (Prod.mk.inj hsame).2 (by decide)

end AlvOS.Kmalloc
