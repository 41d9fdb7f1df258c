import AlvOS.Kmalloc.Requests
import AlvOS.Kmalloc.Stale

/-! The heap forgets its history.  What is owned, and how large each piece is, determines
the whole list of blocks, free ones included; so two heaps whose clients own the same answer
every further call alike, and a client that gives back all it obtained leaves no trace. -/

namespace AlvOS.Kmalloc
open ByteMemory BlockList Set Fuel Transition

section Layout
variable {g h : Heap} {s t : State} {bs cs : List Block}

theorem Holds.eq_of_allocations (hb : Holds g bs) (hc : Holds h cs)
    (hall : (allocations 29 heapStart bs).Perm (allocations 29 heapStart cs)) : bs = cs :=
  hb.arena.eq_of_allocations (by decide) hc.arena hall

theorem Holds.allocations_eq (hb : Holds g bs) : allocations 29 heapStart bs =
    (usedPtrs 29 heapStart bs).map fun p => (p, blockSize g.mem p) := by
  rw [usedPtrs, List.map_map]
  conv_lhs => rw [← List.map_id (allocations 29 heapStart bs)]
  refine List.map_congr_left fun x hx => ?_
  rw [Function.comp_apply, (hb.allocation hx).2]
  rfl

theorem Tiles.eq_of_owned (hs : Tiles s bs) (ht : Tiles t cs) (hlive : s.live.Perm t.live)
    (hsize : ∀ p ∈ s.live, blockSize s.heap.mem p = blockSize t.heap.mem p) : bs = cs := by
  refine hs.holds.eq_of_allocations ht.holds ?_
  have hptrs : (usedPtrs 29 heapStart bs).Perm (usedPtrs 29 heapStart cs) :=
    hs.live.symm.trans (hlive.trans ht.live)
  have hsame : (usedPtrs 29 heapStart bs).map (fun p => (p, blockSize s.heap.mem p)) =
      (usedPtrs 29 heapStart bs).map fun p => (p, blockSize t.heap.mem p) :=
    List.map_congr_left fun p hp => by rw [hsize p (hs.ptr_mem.mpr hp)]
  rw [hs.holds.allocations_eq, ht.holds.allocations_eq, hsame]
  exact hptrs.map _

end Layout

def SameLayout (g h : Heap) : Prop := ∃ bs, Holds g bs ∧ Holds h bs

section Calls
variable {g g' h h' : Heap} {bs : List Block} {n m a p q r : Nat}

theorem Outcome.same (hg : Holds g bs) (hh : Holds h bs) (hout : Outcome g bs n a g' q)
    (hout' : Outcome h bs n a h' r) : q = r ∧ SameLayout g' h' := by
  cases hout with
  | refused hwhy _ hg' =>
    cases hout' with
    | refused _ _ hh' => exact ⟨rfl, bs, hg', hh'⟩
    | @served pre post b hn hfit =>
      have hb : b ∈ bs := by simp [hfit.split]
      exact absurd hfit.fits (hwhy.resolve_left hn b hb)
  | @served pre post b hn hfit =>
    cases hout' with
    | refused hwhy =>
      have hb : b ∈ bs := by simp [hfit.split]
      exact absurd hfit.fits (hwhy.resolve_left hn b hb)
    | served _ hfit' =>
      obtain ⟨rfl, rfl, rfl⟩ := hfit.unique hfit'
      exact ⟨rfl, _, hg.allocated hfit, hh.allocated hfit⟩

theorem Holds.kmallocAligned_same (hg : Holds g bs) (hh : Holds h bs)
    (hret : Returns (fun fuel => kmallocAligned fuel g n a) (g', q))
    (hret' : Returns (fun fuel => kmallocAligned fuel h n a) (h', r)) :
    q = r ∧ SameLayout g' h' :=
  (hg.outcome hret).same hg hh (hh.outcome hret')

theorem Holds.kfree_same (hg : Holds g bs) (hh : Holds h bs) (hp : p ∈ usedPtrs 29 heapStart bs)
    (hret : Returns (fun fuel => kfree fuel g p) g')
    (hret' : Returns (fun fuel => kfree fuel h p) h') : SameLayout g' h' := by
  obtain ⟨pre, b, post, rfl, hb, rfl⟩ := (mem_usedPtrs 29).mp hp
  have hafter : ∀ {k k' : Heap}, Holds k (pre ++ b :: post) →
      Returns (fun fuel => kfree fuel k (heapStart + extent 29 pre + 29)) k' →
      Holds k' (coalesce 29 pre.reverse ⟨b.size, true⟩ post) := by
    intro k k' hk hret
    obtain ⟨mem, hrun, hlinked, -⟩ := kfree_spec hk hb (Nat.le_refl _)
    obtain rfl := hret.unique (kfree_mono k _) ⟨_, hrun⟩
    exact ⟨hk.initialized, hk.head, hlinked, hk.arena.step (Step.give hb : Step 29 16 _ _)⟩
  exact ⟨_, hafter hg hret, hafter hh hret'⟩

theorem Outcome.holds_copied (hg : Holds g bs) (hout : Outcome g bs n heapAlignment g' r)
    (hr : r ≠ 0) {size : Nat} (hp : (p, size) ∈ allocations 29 heapStart bs)
    (hn : n ≤ 2 ^ 32 - 16) (hlt : size < n) {cs : List Block} (hc : Holds g' cs) :
    Holds (g'.copied r p) cs ∧ p ∈ usedPtrs 29 heapStart cs := by
  cases hout with
  | refused => exact absurd rfl hr
  | @served pre post b _ hfit =>
    obtain rfl := hc.unique (hg.allocated hfit)
    have hroom := le_takenSize_roundedSize hn hfit.fits
    have hnew := Holds.mem_allocations_allocated hfit
    have hold := (Holds.allocations_allocated hfit).mem_iff.mpr (.tail _ hp)
    have hne : p ≠ heapStart + extent 29 pre + 29 := fun heq =>
      (hg.take_exchange hfit).fresh hr (heq ▸ List.mem_map.mpr ⟨_, hp, rfl⟩)
    exact ⟨(hc.copied hold hnew hne (by omega)).1, List.mem_map.mpr ⟨_, hold, rfl⟩⟩

theorem Holds.krealloc_same (hg : Holds g bs) (hh : Holds h bs) {size : Nat}
    (hp : (p, size) ∈ allocations 29 heapStart bs) (hn : n ≤ 2 ^ 32 - 16)
    (hret : Returns (fun fuel => krealloc fuel g p n) (g', q))
    (hret' : Returns (fun fuel => krealloc fuel h p n) (h', r)) : q = r ∧ SameLayout g' h' := by
  have hptr : p ∈ usedPtrs 29 heapStart bs := List.mem_map.mpr ⟨_, hp, rfl⟩
  rcases hg.krealloc_run hp hret with
    ⟨rfl, rfl, hfree⟩ | ⟨hn0, hle, rfl, rfl⟩ | ⟨hlt, g1, hret1, hnull, hfree⟩ <;>
  rcases hh.krealloc_run hp hret' with
    ⟨h0, rfl, hfree'⟩ | ⟨hn0', hle', rfl, rfl⟩ | ⟨hlt', h1, hret1', hnull', hfree'⟩
  · exact ⟨rfl, hg.kfree_same hh hptr hfree hfree'⟩
  · exact absurd rfl hn0'
  · omega
  · exact absurd h0 hn0
  · exact ⟨rfl, bs, hg, hh⟩
  · omega
  · omega
  · omega
  · have hout := hg.outcome hret1
    have hout' := hh.outcome hret1'
    obtain ⟨rfl, hsame⟩ := hout.same hg hh hout'
    refine ⟨rfl, ?_⟩
    by_cases hr : q = 0
    · rw [hnull hr, hnull' hr]
      exact hsame
    · obtain ⟨cs, hgc, hhc⟩ := hsame
      obtain ⟨hgp, hpc⟩ := hout.holds_copied hg hr hp hn hlt hgc
      obtain ⟨hhp, -⟩ := hout'.holds_copied hh hr hp hn hlt hhc
      exact hgp.kfree_same hhp hpc (hfree hr) (hfree' hr)

end Calls

section Step
variable {s s' t : State} {bs : List Block} {op : Op} {r q : Nat}

theorem Tiles.call_same (hs : Tiles s bs) (ht : Tiles t bs) (hop : op.Permitted s)
    (hcall : op.IsCall) {g h : Heap} (hret : Returns (fun fuel => op.call fuel s.heap) (g, r))
    (hret' : Returns (fun fuel => op.call fuel t.heap) (h, q)) : r = q ∧ SameLayout g h := by
  have hg := hs.holds
  have hh := ht.holds
  cases op with
  | kmalloc n => exact hg.kmallocAligned_same hh hret hret'
  | kmallocAligned n a => exact hg.kmallocAligned_same hh hret hret'
  | kcalloc m n =>
    rcases Nat.lt_or_ge (m * n) (2 ^ 64) with hlt | hov
    · simp only [Op.call, kcalloc_eq _ hlt] at hret hret'
      exact hg.kmallocAligned_same hh hret hret'
    · simp only [Op.call, kcalloc_refused _ hov] at hret hret'
      obtain ⟨rfl, rfl⟩ := Prod.mk.inj (hret.unique (.const _) ⟨0, rfl⟩)
      obtain ⟨rfl, rfl⟩ := Prod.mk.inj (hret'.unique (.const _) ⟨0, rfl⟩)
      exact ⟨rfl, bs, hg.allocationFailed _, hh.allocationFailed _⟩
  | kfree p =>
    obtain ⟨hfree, rfl⟩ := Op.returns_kfree.mp hret
    obtain ⟨hfree', rfl⟩ := Op.returns_kfree.mp hret'
    refine ⟨rfl, ?_⟩
    rcases hop with rfl | hp
    · obtain rfl := hfree.unique (kfree_mono _ 0) ⟨0, rfl⟩
      obtain rfl := hfree'.unique (kfree_mono _ 0) ⟨0, rfl⟩
      exact ⟨bs, hg, hh⟩
    · exact hg.kfree_same hh (hs.ptr_mem.mp hp) hfree hfree'
  | krealloc p n =>
    obtain ⟨rfl | hp, hn⟩ := hop
    · exact hg.kmallocAligned_same hh hret hret'
    · exact hg.krealloc_same hh (hs.allocation hp) hn hret hret'
  | write => exact hcall.elim

theorem Tiles.permitted_same (hs : Tiles s bs) (ht : Tiles t bs) (hlive : s.live.Perm t.live)
    (hop : op.Permitted s) : op.Permitted t := by
  cases op with
  | kmalloc n => exact hop
  | kmallocAligned n a => exact hop
  | kcalloc m n => exact hop
  | kfree p => exact hop.imp_right hlive.mem_iff.mp
  | krealloc p n => exact hop.imp_left (.imp_right hlive.mem_iff.mp)
  | write x v =>
    obtain ⟨p, hp, hx⟩ := hop
    refine ⟨p, hlive.mem_iff.mp hp, ?_⟩
    rwa [payload, (ht.holds.allocation (hs.allocation hp)).2]

/-- A step of one client can be taken by the other, with the same answer. -/
theorem Tiles.step_same (hs : Tiles s bs) (ht : Tiles t bs) (hlive : s.live.Perm t.live)
    (hstep : heapSystem.step s (op, r) s') : ∃ t', heapSystem.step t (op, r) t' ∧
      s'.live.Perm t'.live ∧ ∃ cs, Tiles s' cs ∧ Tiles t' cs := by
  have hop := hs.permitted_same ht hlive hstep.1
  obtain ⟨q, t', hstep'⟩ := ht.exists_step hop
  obtain ⟨cs, hs'⟩ := hs.step hstep
  obtain ⟨ds, ht'⟩ := ht.step hstep'
  have hsame : r = q ∧ SameLayout s'.heap t'.heap := by
    by_cases hcall : op.IsCall
    · exact hs.call_same ht hstep.1 hcall hstep.2.1 hstep'.2.1
    · cases op with
      | write x v =>
        obtain ⟨hheap, rfl⟩ := Prod.mk.inj (hstep.2.1.unique (.const _) ⟨0, rfl⟩)
        obtain ⟨hheap', rfl⟩ := Prod.mk.inj (hstep'.2.1.unique (.const _) ⟨0, rfl⟩)
        exact ⟨rfl, bs, hheap ▸ (hs.write hstep.1).holds, hheap' ▸ (ht.write hop).holds⟩
      | _ => exact absurd trivial hcall
  obtain ⟨rfl, es, hes, hes'⟩ := hsame
  obtain rfl := hs'.holds.unique hes
  obtain rfl := ht'.holds.unique hes'
  refine ⟨t', hstep', ?_, _, hs', ht'⟩
  rw [hstep.2.2, hstep'.2.2]
  exact (hlive.erase _).append_left _

end Step

theorem Tiles.run_same {s s' t : State} {bs : List Block} {ls : List (Op × Nat)}
    (hrun : heapSystem.Run s ls s') (hs : Tiles s bs) (ht : Tiles t bs)
    (hlive : s.live.Perm t.live) : ∃ t', heapSystem.Run t ls t' ∧ s'.live.Perm t'.live ∧
      ∃ cs, Tiles s' cs ∧ Tiles t' cs := by
  induction hrun generalizing t bs with
  | nil s => exact ⟨t, .nil t, hlive, bs, hs, ht⟩
  | @cons s u s' l ls hstep _ ih =>
    obtain ⟨op, r⟩ := l
    obtain ⟨u', hstep', hlive', cs, hu, hu'⟩ := hs.step_same ht hlive hstep
    obtain ⟨t', hrest, hends⟩ := ih hu hu' hlive'
    exact ⟨t', .cons hstep' hrest, hends⟩

/-- Two heaps on which the same is owned, piece by piece of the same size, hold the same
blocks, and whatever is called on the one can be called on the other with the same answers. -/
theorem heap_forgets_history {s t : State} (hs : heapSystem.Reachable s)
    (ht : heapSystem.Reachable t) (hlive : s.live.Perm t.live)
    (hsize : ∀ p ∈ s.live, blockSize s.heap.mem p = blockSize t.heap.mem p) :
    (∃ bs, Tiles s bs ∧ Tiles t bs) ∧
    ∀ ls s', heapSystem.Run s ls s' → ∃ t', heapSystem.Run t ls t' ∧ s'.live.Perm t'.live ∧
      ∃ bs, Tiles s' bs ∧ Tiles t' bs := by
  obtain ⟨bs, hbs⟩ := exists_tiles hs
  obtain ⟨cs, hcs⟩ := exists_tiles ht
  obtain rfl := hbs.eq_of_owned hcs hlive hsize
  exact ⟨⟨bs, hbs, hcs⟩, fun ls s' hrun => Tiles.run_same hrun hbs hcs hlive⟩

/-- A block that came and went leaves the heap that `heap_init` made. -/
theorem heap_forgets_history_served : ∃ t bs,
    heapSystem.Run (.served 32) (drain [heapStart + 29]) t ∧ Tiles .fresh bs ∧ Tiles t bs := by
  obtain ⟨t, hrun⟩ := exists_drain served_reachable (List.Perm.refl [heapStart + 29])
  have hlive : t.live = [] := live_of_drain hrun (.refl _)
  have hperm : State.fresh.live.Perm t.live := by rw [hlive]; exact .refl _
  obtain ⟨⟨bs, hfresh, ht⟩, -⟩ := heap_forgets_history fresh_reachable
    (served_reachable.run hrun) hperm fun p hp => absurd hp List.not_mem_nil
  exact ⟨t, bs, hrun, hfresh, ht⟩

/-- The call releases and overwrites nothing that is owned in `s`. -/
def Op.Spares (s : State) : Op → Prop
  | .kfree ptr => ptr ∉ s.live
  | .krealloc ptr _ => ptr ∉ s.live
  | .write address _ => ∀ ptr ∈ s.live, address ∉ payload s.heap.mem ptr
  | _ => True

/-- What is owned in `s` is still owned in `t`, with its size and its bytes. -/
structure Keeps (s t : State) : Prop where
  owned : ∀ p ∈ s.live, p ∈ t.live
  size : ∀ p ∈ s.live, blockSize t.heap.mem p = blockSize s.heap.mem p
  bytes : ∀ p ∈ s.live, EqOn t.heap.mem s.heap.mem (payload s.heap.mem p)

section Clients
variable {s t u : State} {bs : List Block} {op : Op} {r : Nat}

theorem Keeps.refl (s : State) : Keeps s s :=
  ⟨fun _ hp => hp, fun _ _ => rfl, fun _ _ => eqOn_refl _ _⟩

theorem Op.Spares.target_ne {p : Nat} (h : op.Spares s) (hcall : op.IsCall) (hp : p ∈ s.live)
    (hp0 : p ≠ 0) : p ≠ op.target := by
  rintro rfl
  cases op with
  | kfree q => exact h hp
  | krealloc q n => exact h hp
  | write => exact hcall
  | _ => exact hp0 rfl

theorem Keeps.step (hk : Keeps s t) (ht : Tiles t bs) (hspare : op.Spares s)
    (hstep : heapSystem.step t (op, r) u) : Keeps s u := by
  obtain ⟨cs, hu⟩ := ht.step hstep
  by_cases hcall : op.IsCall
  · obtain ⟨ds, hex⟩ := ht.exchange hstep hcall
    obtain rfl := hu.holds.unique hex.holds
    have hkept : ∀ p ∈ s.live, (p, blockSize s.heap.mem p) ∈ allocations 29 heapStart cs ∧
        EqOn u.heap.mem s.heap.mem (payload s.heap.mem p) := by
      intro p hp
      have hmem := ht.allocation (hk.owned p hp)
      have hp0 := ne_zero_of_mem_allocations hmem
      rw [hk.size p hp] at hmem
      have hne : p ≠ op.released r := by
        rcases op.released_eq r with htarget | hzero
        · rw [htarget]
          exact hspare.target_ne hcall hp hp0
        · rwa [hzero]
      obtain ⟨hafter, heq⟩ := hex.keeps p _ hne hmem
      exact ⟨hafter, heq.trans (hk.bytes p hp)⟩
    exact ⟨fun p hp => hu.ptr_mem.mpr (List.mem_map.mpr ⟨_, (hkept p hp).1, rfl⟩),
      fun p hp => (hu.holds.allocation (hkept p hp).1).2, fun p hp => (hkept p hp).2⟩
  · cases op with
    | write x v =>
      obtain ⟨hheap, rfl⟩ := Prod.mk.inj (hstep.2.1.unique (.const _) ⟨0, rfl⟩)
      have hlive : u.live = t.live := by
        rw [hstep.2.2, ownedAfter, if_pos rfl, List.nil_append]
        exact List.erase_of_not_mem ht.zero_notMem
      have hholds : Holds u.heap bs := hheap ▸ (ht.write hstep.1).holds
      refine ⟨fun p hp => hlive ▸ hk.owned p hp, fun p hp => ?_, fun p hp y hy => ?_⟩
      · rw [(hholds.allocation (ht.allocation (hk.owned p hp))).2, hk.size p hp]
      · have hne : y ≠ x := fun heq => hspare p hp (heq ▸ hy)
        rw [hheap]
        exact (Function.update_of_ne hne _ _).trans (hk.bytes p hp hy)
    | _ => exact absurd trivial hcall

theorem Keeps.run {ls : List (Op × Nat)} (hrun : heapSystem.Run t ls u) (hk : Keeps s t)
    (ht : Tiles t bs) (hspare : ∀ l ∈ ls, l.1.Spares s) : Keeps s u := by
  induction hrun generalizing bs with
  | nil => exact hk
  | cons hstep _ ih =>
    obtain ⟨cs, hnext⟩ := ht.step hstep
    exact ih (hk.step ht (hspare _ (.head _)) hstep) hnext fun l hl => hspare l (.tail _ hl)

end Clients

/-- A client that releases and overwrites only what it obtained itself, and ends up owning
nothing more, leaves every block as it was, and every byte of the others. -/
theorem client_leaves_no_trace {s t : State} (hs : heapSystem.Reachable s)
    {ls : List (Op × Nat)} (hrun : heapSystem.Run s ls t) (hspare : ∀ l ∈ ls, l.1.Spares s)
    (hback : ∀ p ∈ t.live, p ∈ s.live) :
    t.live.Perm s.live ∧ (∃ bs, Tiles s bs ∧ Tiles t bs) ∧
      ∀ p ∈ s.live, EqOn t.heap.mem s.heap.mem (payload s.heap.mem p) := by
  obtain ⟨bs, hbs⟩ := exists_tiles hs
  obtain ⟨cs, hcs⟩ := exists_tiles (hs.run hrun)
  have hkeeps := (Keeps.refl s).run hrun hbs hspare
  have hperm : s.live.Perm t.live :=
    (List.perm_ext_iff_of_nodup hbs.nodup hcs.nodup).mpr fun p =>
      ⟨hkeeps.owned p, hback p⟩
  obtain rfl := hbs.eq_of_owned hcs hperm fun p hp => (hkeeps.size p hp).symm
  exact ⟨hperm.symm, ⟨bs, hbs, hcs⟩, hkeeps.bytes⟩

/-- A client that is given the hole and gives it back, beside the owners of two other blocks. -/
theorem client_leaves_no_trace_holed : ∃ s t, heapSystem.Reachable s ∧ Holds s.heap holed ∧
    heapSystem.Run s [(.kmalloc 16, heapStart + 74), (.kfree (heapStart + 74), 0)] t ∧
    Holds t.heap holed ∧ s.live.length = 2 ∧
      ∀ p ∈ s.live, EqOn t.heap.mem s.heap.mem (payload s.heap.mem p) := by
  obtain ⟨s, hs, hholds⟩ := exists_holed
  obtain ⟨bs, hbs⟩ := exists_tiles hs
  obtain rfl := hbs.holds.unique hholds
  have hnew : heapStart + 74 ∉ s.live := hbs.ptr_mem.not.mpr (by decide)
  have hserved : heapSystem.step s (.kmalloc 16, heapStart + 74)
      ⟨s.heap.allocated (heapStart + 45) 16, ownedAfter s.live 0 (heapStart + 74)⟩ :=
    ⟨(by decide : 16 < 2 ^ 64), returns_holed hholds, rfl⟩
  obtain ⟨cs, hcs⟩ := exists_tiles (hs.step hserved)
  obtain ⟨t, hfreed⟩ := hcs.exists_kfree (p := heapStart + 74) (by simp [ownedAfter])
  have hlive : t.live = s.live.erase 0 := by
    rw [hfreed.2.2]
    simp [ownedAfter, Op.released]
  have hrun := System.Run.cons hserved (.cons hfreed (.nil t))
  obtain ⟨-, ⟨bs, hs', ht'⟩, hbytes⟩ := client_leaves_no_trace hs hrun (by simp [Op.Spares, hnew])
    fun p hp => List.mem_of_mem_erase (hlive ▸ hp)
  obtain rfl := hs'.holds.unique hholds
  exact ⟨s, t, hs, hholds, hrun, ht'.holds, hbs.live.length_eq, hbytes⟩

end AlvOS.Kmalloc
