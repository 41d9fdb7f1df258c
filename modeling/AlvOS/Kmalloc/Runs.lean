import AlvOS.Lib.Transition
import AlvOS.Kmalloc.Calls

/-! The heap in use.  A client calls the interface in any order, releases and
reallocates only what it owns, and writes only inside what it owns; the state
records what it owns next to the heap. -/

namespace AlvOS.Kmalloc
open ByteMemory BlockList Set Fuel Transition

/-! ## The system -/

inductive Op
  | kmalloc (size : Nat)
  | kmallocAligned (size alignment : Nat)
  | kcalloc (nmemb size : Nat)
  | kfree (ptr : Nat)
  | krealloc (ptr newSize : Nat)
  | write (address : Nat) (value : UInt8)

structure State where
  heap : Heap
  live : List Nat

def payload (m : Mem) (ptr : Nat) : Set Nat := Ico ptr (ptr + blockSize m ptr)

namespace Op

def call (fuel : Nat) (h : Heap) : Op → Option (Heap × Nat)
  | .kmalloc size => Kmalloc.kmalloc fuel h size
  | .kmallocAligned size alignment => Kmalloc.kmallocAligned fuel h size alignment
  | .kcalloc nmemb size => Kmalloc.kcalloc fuel h nmemb size
  | .kfree ptr => (Kmalloc.kfree fuel h ptr).bind fun h => some (h, 0)
  | .krealloc ptr newSize => Kmalloc.krealloc fuel h ptr newSize
  | .write address value => some ({ h with mem := Function.update h.mem address value }, 0)

/-- Sizes are 64-bit and alignments 32-bit values. -/
def Permitted (s : State) : Op → Prop
  | .kmalloc size => size < 2 ^ 64
  | .kmallocAligned size alignment => size < 2 ^ 64 ∧ alignment < 2 ^ 32
  | .kcalloc nmemb size => nmemb < 2 ^ 64 ∧ size < 2 ^ 64
  | .kfree ptr => ptr = 0 ∨ ptr ∈ s.live
  | .krealloc ptr newSize => (ptr = 0 ∨ ptr ∈ s.live) ∧ newSize ≤ 2 ^ 32 - 16
  | .write address _ => ∃ ptr ∈ s.live, address ∈ payload s.heap.mem ptr

def target : Op → Nat
  | .kfree ptr => ptr
  | .krealloc ptr _ => ptr
  | _ => 0

/-- The pointer the client no longer owns once the call has answered `r`. -/
def released (r : Nat) : Op → Nat
  | .kfree ptr => ptr
  | .krealloc ptr newSize => if newSize = 0 ∨ r ≠ 0 then ptr else 0
  | _ => 0

def IsCall : Op → Prop
  | .write _ _ => False
  | _ => True

end Op

def ownedAfter (live : List Nat) (p r : Nat) : List Nat :=
  (if r = 0 then [] else [r]) ++ live.erase p

def heapSystem : System State (Op × Nat) where
  init s := ∃ h, s = ⟨heapInit h, []⟩
  step s l t := l.1.Permitted s ∧ Returns (fun fuel => l.1.call fuel s.heap) (t.heap, l.2) ∧
    t.live = ownedAfter s.live (l.1.released l.2) l.2

/-- The heap holds `bs`, and the client owns exactly the payloads of its used blocks. -/
structure Tiles (s : State) (bs : List Block) : Prop where
  holds : Holds s.heap bs
  live : s.live.Perm (usedPtrs 29 heapStart bs)

theorem heapInit_holds (h : Heap) : Holds (heapInit h) [⟨heapSize - 29, true⟩] := by
  have hheader := headerAt_putHeader (m := h.mem) (a := heapStart) (n := 0) (p := 0)
    (b := ⟨heapSize - 29, true⟩) (by decide) (by decide) (by decide)
  exact ⟨rfl, rfl, ⟨hheader, trivial⟩, ⟨rfl, List.isChain_singleton _⟩⟩

section Step
variable {s t : State} {bs : List Block} {op : Op} {p q r n : Nat}

theorem Op.call_mono (h : Heap) : ∀ op : Op, Mono fun fuel => op.call fuel h
  | .kmalloc n => kmalloc_mono h n
  | .kmallocAligned n a => kmallocAligned_mono h n a
  | .kcalloc m n => kcalloc_mono h m n
  | .kfree p => (kfree_mono h p).bind fun _ => .const _
  | .krealloc p n => krealloc_mono h p n
  | .write _ _ => .const _

theorem Op.released_eq (op : Op) (r : Nat) : op.released r = op.target ∨ op.released r = 0 := by
  cases op <;> simp [released, target]
  omega

theorem Tiles.ptr_mem (ht : Tiles s bs) : p ∈ s.live ↔ p ∈ usedPtrs 29 heapStart bs :=
  ht.live.mem_iff

theorem Tiles.allocation (ht : Tiles s bs) (hp : p ∈ s.live) :
    (p, blockSize s.heap.mem p) ∈ allocations 29 heapStart bs := by
  obtain ⟨⟨p, k⟩, hmem, rfl⟩ := List.mem_map.mp (ht.ptr_mem.mp hp)
  rwa [(ht.holds.allocation hmem).2]

theorem Tiles.nodup (ht : Tiles s bs) : s.live.Nodup :=
  ht.live.nodup_iff.mpr (usedPtrs_nodup 29 (by decide) heapStart bs)

theorem Tiles.zero_notMem (ht : Tiles s bs) : 0 ∉ s.live := fun h =>
  zero_notMem_usedPtrs bs (ht.ptr_mem.mp h)

theorem Tiles.exists_call (ht : Tiles s bs) (hop : op.Permitted s) (hcall : op.IsCall) :
    ∃ h r bs', Returns (fun fuel => op.call fuel s.heap) (h, r) ∧
      Exchange s.heap bs (op.released r) r h bs' := by
  cases op with
  | kmalloc n =>
    obtain ⟨h, r, hret, hout⟩ := ht.holds.exists_outcome n heapAlignment
    obtain ⟨bs', hex⟩ := hout.exchange ht.holds
    exact ⟨h, r, bs', hret, hex⟩
  | kmallocAligned n a =>
    obtain ⟨h, r, hret, hout⟩ := ht.holds.exists_outcome n a
    obtain ⟨bs', hex⟩ := hout.exchange ht.holds
    exact ⟨h, r, bs', hret, hex⟩
  | kcalloc m n =>
    simp only [Op.call]
    rcases Nat.lt_or_ge (m * n) (2 ^ 64) with hlt | hov
    · obtain ⟨h, r, hret, hout⟩ := ht.holds.exists_outcome (m * n) heapAlignment
      obtain ⟨bs', hex⟩ := hout.exchange ht.holds
      refine ⟨h, r, bs', ?_, hex⟩
      simp only [kcalloc_eq _ hlt]
      exact hret
    · exact ⟨_, 0, bs, ⟨0, kcalloc_refused 0 hov⟩, .idle (ht.holds.allocationFailed _) rfl⟩
  | kfree p =>
    rcases hop with rfl | hp
    · exact ⟨s.heap, 0, bs, ⟨0, rfl⟩, .idle ht.holds rfl⟩
    · obtain ⟨h, bs', hret, hex, -⟩ := ht.holds.exists_kfree (ht.ptr_mem.mp hp)
      exact ⟨h, 0, bs', hret.bind (kfree_mono _ p) (.const _) ⟨0, rfl⟩, hex⟩
  | krealloc p n =>
    obtain ⟨rfl | hp, hn⟩ := hop
    · obtain ⟨h, r, hret, hout⟩ := ht.holds.exists_outcome n heapAlignment
      obtain ⟨bs', hex⟩ := hout.exchange ht.holds
      exact ⟨h, r, bs', hret, by simpa [Op.released] using hex⟩
    · obtain ⟨h, r, bs', hret, hex, -⟩ := ht.holds.exists_krealloc (ht.allocation hp) hn
      exact ⟨h, r, bs', hret, hex⟩
  | write => exact hcall.elim

theorem Tiles.write (ht : Tiles s bs) {x : Nat} {v : UInt8} (hop : (Op.write x v).Permitted s) :
    Tiles ⟨{ s.heap with mem := Function.update s.heap.mem x v }, s.live⟩ bs := by
  obtain ⟨p, hp, hx⟩ := hop
  have hout : x ∉ headerBytes 29 heapStart bs :=
    disjoint_right.mp (disjoint_headerBytes_usedBytes 29 _ _)
      (Ico_subset_of_mem_allocations 29 (ht.allocation hp) hx)
  refine ⟨⟨ht.holds.initialized, ht.holds.head, ht.holds.linked.congr fun y hy => ?_,
    ht.holds.arena⟩, ht.live⟩
  have hne : y ≠ x := fun heq => hout (by rwa [heq] at hy)
  exact (Function.update_of_ne hne _ _).symm

theorem Tiles.of_exchange (ht : Tiles s bs) {h : Heap} {bs' : List Block}
    (hex : Exchange s.heap bs p r h bs') : Tiles ⟨h, ownedAfter s.live p r⟩ bs' :=
  ⟨hex.holds, ((ht.live.erase p).append_left _).trans hex.ptrs.symm⟩

theorem Tiles.exists_step (ht : Tiles s bs) (hop : op.Permitted s) :
    ∃ r t, heapSystem.step s (op, r) t := by
  by_cases hcall : op.IsCall
  · obtain ⟨h, r, bs', hret, -⟩ := ht.exists_call hop hcall
    exact ⟨r, ⟨h, _⟩, hop, hret, rfl⟩
  · cases op with
    | write => exact ⟨0, ⟨_, _⟩, hop, ⟨0, rfl⟩, rfl⟩
    | _ => exact absurd trivial hcall

theorem Tiles.exchange (ht : Tiles s bs) (hstep : heapSystem.step s (op, r) t)
    (hcall : op.IsCall) : ∃ bs', Exchange s.heap bs (op.released r) r t.heap bs' := by
  obtain ⟨h, r', bs', hret, hex⟩ := ht.exists_call hstep.1 hcall
  obtain ⟨rfl, rfl⟩ := Prod.mk.inj (hstep.2.1.unique (op.call_mono s.heap) hret)
  exact ⟨bs', hex⟩

theorem Tiles.step (ht : Tiles s bs) (hstep : heapSystem.step s (op, r) t) :
    ∃ bs', Tiles t bs' := by
  by_cases hcall : op.IsCall
  · obtain ⟨bs', hex⟩ := ht.exchange hstep hcall
    refine ⟨bs', ?_⟩
    have htiles := ht.of_exchange hex
    rwa [← hstep.2.2] at htiles
  · cases op with
    | write x v =>
      obtain ⟨hop, hret, hlive⟩ := hstep
      obtain ⟨hheap, rfl⟩ := Prod.mk.inj (hret.unique (.const _) ⟨0, rfl⟩)
      have htiles := ht.write hop
      rw [← hheap] at htiles
      refine ⟨bs, htiles.holds, ?_⟩
      rw [hlive, ownedAfter, if_pos rfl, List.nil_append]
      exact (List.erase_of_not_mem ht.zero_notMem).symm ▸ ht.live
    | _ => exact absurd trivial hcall

end Step

/-! ## All runs -/

theorem exists_tiles {s : State} (hs : heapSystem.Reachable s) : ∃ bs, Tiles s bs := by
  refine hs.invariant (P := fun s => ∃ bs, Tiles s bs) ?_ ?_
  · rintro s ⟨h, rfl⟩
    exact ⟨_, heapInit_holds h, .refl _⟩
  · rintro s ⟨op, r⟩ t ⟨bs, ht⟩ hstep
    exact ht.step hstep

def State.fresh : State := ⟨heapInit ⟨fun _ => 0, 0, false, 0, 0, 0, []⟩, []⟩

def State.served (size : Nat) : State :=
  ⟨State.fresh.heap.allocated heapStart size, [heapStart + 29]⟩

theorem fresh_reachable : heapSystem.Reachable .fresh := .init ⟨_, rfl⟩

theorem fresh_firstFit (size : Nat) (h : size ≤ heapSize - 29) :
    FirstFit size [⟨heapSize - 29, true⟩] [] ⟨heapSize - 29, true⟩ [] :=
  ⟨rfl, by simp, rfl, h⟩

theorem fresh_returns {n a : Nat} (hn : n ≠ 0) (hroom : roundedSize n a ≤ heapSize - 29) :
    Returns (fun fuel => kmallocAligned fuel State.fresh.heap n a)
      ((State.served (roundedSize n a)).heap, heapStart + 29) := by
  have hholds : Holds State.fresh.heap [⟨heapSize - 29, true⟩] := heapInit_holds _
  have hcall := kmallocAligned_firstFit hholds hn (fresh_firstFit _ hroom) (Nat.lt_succ_self 1)
  exact ⟨2, hcall⟩

theorem served_reachable : heapSystem.Reachable (.served 32) :=
  fresh_reachable.step (l := (.kmalloc 32, heapStart + 29)) ⟨(by decide : 32 < 2 ^ 64),
    fresh_returns (n := 32) (a := heapAlignment) (by decide) (by decide), rfl⟩

theorem Holds.kmalloc_sixteen {h : Heap} {bs pre post : List Block} {b : Block}
    (hh : Holds h bs) (hfit : FirstFit 16 bs pre b post) :
    Returns (fun fuel => kmalloc fuel h 16)
      (h.allocated (heapStart + extent 29 pre) 16, heapStart + extent 29 pre + 29) := by
  have hrounded : roundedSize 16 heapAlignment = 16 := by decide
  have hcall := kmallocAligned_firstFit (a := heapAlignment) hh (by decide : 16 ≠ 0)
    (hrounded.symm ▸ hfit) (Nat.lt_succ_self _)
  rw [hrounded] at hcall
  exact ⟨_, hcall⟩

/-- After `n` calls `kmalloc(16)` on a fresh heap. -/
def packed (n : Nat) : List Block :=
  List.replicate n ⟨16, false⟩ ++ [⟨heapSize - 29 - 45 * n, true⟩]

/-- The allocator packs its heap with 46602 blocks and a free one. -/
theorem exists_packed (n : Nat) (hn : n ≤ 46602) :
    ∃ s, heapSystem.Reachable s ∧ Holds s.heap (packed n) := by
  induction n with
  | zero => exact ⟨.fresh, fresh_reachable, heapInit_holds _⟩
  | succ n ih =>
    obtain ⟨s, hs, hholds⟩ := ih (by omega)
    have hsize := heapSize_eq
    have hfit : FirstFit 16 (packed n) (List.replicate n ⟨16, false⟩)
        ⟨heapSize - 29 - 45 * n, true⟩ [] := by
      refine ⟨rfl, fun c hc hfits => ?_, rfl, by dsimp only; omega⟩
      rw [List.eq_of_mem_replicate hc] at hfits
      exact absurd hfits.1 Bool.false_ne_true
    have hcarve : carve 29 16 16 ⟨heapSize - 29 - 45 * n, true⟩ =
        [⟨16, false⟩, ⟨heapSize - 29 - 45 * (n + 1), true⟩] := by
      rw [carve, if_neg (by dsimp only; omega)]
      congr 3
    have hnext := hholds.allocated hfit
    rw [hcarve, List.append_nil] at hnext
    have hpacked : packed (n + 1) = List.replicate n ⟨16, false⟩ ++
        [⟨16, false⟩, ⟨heapSize - 29 - 45 * (n + 1), true⟩] := by
      rw [packed, List.replicate_succ', List.append_assoc]
      rfl
    refine ⟨⟨_, ownedAfter s.live 0 _⟩, hs.step (l := (.kmalloc 16, _))
      ⟨(by decide : 16 < 2 ^ 64), hholds.kmalloc_sixteen hfit, rfl⟩, ?_⟩
    rw [hpacked]
    exact hnext

/-- Two used blocks with a free one of the same size between them. -/
def holed : List Block :=
  [⟨16, false⟩, ⟨16, true⟩, ⟨16, false⟩, ⟨heapSize - 29 - 45 * 3, true⟩]

theorem exists_holed : ∃ s, heapSystem.Reachable s ∧ Holds s.heap holed := by
  obtain ⟨s, hs, hpacked⟩ := exists_packed 3 (by decide)
  obtain ⟨bs, ht⟩ := exists_tiles hs
  obtain rfl := ht.holds.unique hpacked
  have hsplit : Holds s.heap ([⟨16, false⟩] ++ ⟨16, false⟩ ::
      [⟨16, false⟩, ⟨heapSize - 29 - 45 * 3, true⟩]) := hpacked
  obtain ⟨m, hrun, hlinked, -⟩ := kfree_spec hsplit rfl (Nat.le_refl _)
  have hlive : heapStart + extent 29 [⟨16, false⟩] + 29 ∈ s.live :=
    ht.ptr_mem.mpr ((mem_usedPtrs 29).mpr ⟨[⟨16, false⟩], _, _, rfl, rfl, rfl⟩)
  have hret : Returns (fun fuel => kfree fuel s.heap _) _ := ⟨_, hrun⟩
  refine ⟨⟨_, ownedAfter s.live _ 0⟩, hs.step (l := (.kfree _, 0))
    ⟨.inr hlive, hret.bind (kfree_mono _ _) (.const _) ⟨0, rfl⟩, rfl⟩, ?_⟩
  exact ⟨hsplit.initialized, hsplit.head, hlinked, hsplit.arena.step (.give rfl : Step 29 16 _ _)⟩

theorem returns_holed {h : Heap} (hh : Holds h holed) :
    Returns (fun fuel => kmalloc fuel h 16) (h.allocated (heapStart + 45) 16, heapStart + 74) := by
  have hfit : FirstFit 16 holed [⟨16, false⟩] ⟨16, true⟩
      [⟨16, false⟩, ⟨heapSize - 29 - 45 * 3, true⟩] := by
    refine ⟨rfl, fun c hc hfits => ?_, rfl, Nat.le_refl _⟩
    rw [List.mem_singleton.mp hc] at hfits
    exact absurd hfits.1 Bool.false_ne_true
  exact hh.kmalloc_sixteen hfit

/-- After any run the headers tile the heap, the pointers owned are the payloads of
the used blocks, and every permitted operation can be carried out. -/
theorem heap_tiling {s : State} (hs : heapSystem.Reachable s) :
    (∃ bs, s.heap.heapHead = heapStart ∧ bs ≠ [] ∧ Linked s.heap.mem 0 heapStart bs 0 ∧
      heapStart + extent 29 bs = heapStart + heapSize ∧
      s.live.Perm (usedPtrs 29 heapStart bs) ∧ s.live.Nodup ∧
      ∀ p ∈ s.live, Disjoint (payload s.heap.mem p) (headerBytes 29 heapStart bs) ∧
        ∀ q ∈ s.live, p ≠ q → Disjoint (payload s.heap.mem p) (payload s.heap.mem q)) ∧
    ∀ op : Op, op.Permitted s → ∃ r t, heapSystem.step s (op, r) t := by
  obtain ⟨bs, ht⟩ := exists_tiles hs
  refine ⟨⟨bs, ht.holds.head, ht.holds.ne_nil, ht.holds.linked, ?_, ht.live, ht.nodup, ?_⟩,
    fun op hop => ht.exists_step hop⟩
  · rw [ht.holds.arena.fills]
  · intro p hp
    refine ⟨?_, fun q hq hne => ?_⟩
    · exact ((disjoint_headerBytes_usedBytes 29 _ _).symm).mono_left
        (Ico_subset_of_mem_allocations 29 (ht.allocation hp))
    · have hapart : p + _ ≤ q ∨ q + _ ≤ p :=
        allocations_apart 29 (ht.allocation hp) (ht.allocation hq) hne
      rw [disjoint_left]
      intro x hx hx'
      have := hx.1; have := hx.2; have := hx'.1; have := hx'.2
      omega

theorem heap_tiling_served :
    (∃ bs, (State.served 32).heap.heapHead = heapStart ∧ bs ≠ [] ∧
      Linked (State.served 32).heap.mem 0 heapStart bs 0 ∧
      heapStart + extent 29 bs = heapStart + heapSize ∧
      [heapStart + 29].Perm (usedPtrs 29 heapStart bs)) ∧
    ∃ r t, heapSystem.step (.served 32) (.krealloc (heapStart + 29) 100, r) t := by
  obtain ⟨⟨bs, hhead, hne, hlinked, hends, hlive, -⟩, hsteps⟩ := heap_tiling served_reachable
  exact ⟨⟨bs, hhead, hne, hlinked, hends, hlive⟩, hsteps _ ⟨.inr (.head _), by decide⟩⟩

/-! ## Draining the heap -/

def drain (order : List Nat) : List (Op × Nat) := order.map fun p => (.kfree p, 0)

theorem Tiles.exists_kfree {s : State} {bs : List Block} {p : Nat} (ht : Tiles s bs)
    (hp : p ∈ s.live) : ∃ t, heapSystem.step s (.kfree p, 0) t := by
  obtain ⟨h, bs', hret, -⟩ := ht.holds.exists_kfree (ht.ptr_mem.mp hp)
  exact ⟨⟨h, _⟩, .inr hp, hret.bind (kfree_mono _ p) (.const _) ⟨0, rfl⟩, rfl⟩

theorem live_after_kfree {s t : State} {p : Nat} {order : List Nat}
    (hstep : heapSystem.step s (.kfree p, 0) t) (horder : (p :: order).Perm s.live) :
    order.Perm t.live := by
  rw [hstep.2.2]
  exact (List.cons_perm_iff_perm_erase.mp horder).2

theorem exists_drain {s : State} (hs : heapSystem.Reachable s) {order : List Nat}
    (horder : order.Perm s.live) : ∃ t, heapSystem.Run s (drain order) t := by
  induction order generalizing s with
  | nil => exact ⟨s, .nil s⟩
  | cons p order ih =>
    obtain ⟨bs, ht⟩ := exists_tiles hs
    obtain ⟨t, hstep⟩ := ht.exists_kfree (horder.mem_iff.mp (.head _))
    obtain ⟨u, hrun⟩ := ih (hs.step hstep) (live_after_kfree hstep horder)
    exact ⟨u, .cons hstep hrun⟩

theorem live_of_drain {s t : State} {order : List Nat} (hrun : heapSystem.Run s (drain order) t)
    (horder : order.Perm s.live) : t.live = [] := by
  induction order generalizing s with
  | nil =>
    cases hrun
    exact horder.nil_eq.symm
  | cons p order ih =>
    cases hrun with
    | cons hstep hrest => exact ih hrest (live_after_kfree hstep horder)

theorem Tiles.eq_fresh {s : State} {bs : List Block} (ht : Tiles s bs) (hlive : s.live = []) :
    bs = [⟨heapSize - 29, true⟩] := by
  have hnone : usedPtrs 29 heapStart bs = [] := (hlive ▸ ht.live).nil_eq.symm
  exact ht.holds.arena.eq_singleton (by decide) (free_of_usedPtrs_eq_nil hnone)

/-- Two neighbours are never both free, so releasing everything in any order leaves
the block list of a fresh heap. -/
theorem heap_coalesced {s : State} (hs : heapSystem.Reachable s) :
    (∃ bs, Tiles s bs ∧ Coalesced bs) ∧
    ∀ order : List Nat, order.Perm s.live →
      (∃ t, heapSystem.Run s (drain order) t) ∧
      ∀ t, heapSystem.Run s (drain order) t → t.live = [] ∧
        ∃ bs, bs = [⟨heapSize - 29, true⟩] ∧ Holds t.heap bs ∧ ∀ h, Holds (heapInit h) bs := by
  obtain ⟨bs, ht⟩ := exists_tiles hs
  refine ⟨⟨bs, ht, ht.holds.arena.coalesced⟩, fun order horder =>
    ⟨exists_drain hs horder, fun t hrun => ?_⟩⟩
  have hlive := live_of_drain hrun horder
  obtain ⟨bs', ht'⟩ := exists_tiles (hs.run hrun)
  obtain rfl := ht'.eq_fresh hlive
  exact ⟨hlive, _, rfl, ht'.holds, heapInit_holds⟩

/-- Three blocks are released, the middle one first. -/
theorem heap_coalesced_packed : ∃ s t, heapSystem.Reachable s ∧ Holds s.heap (packed 3) ∧
    heapSystem.Run s (drain [heapStart + 74, heapStart + 29, heapStart + 119]) t ∧
    Holds t.heap [⟨heapSize - 29, true⟩] := by
  obtain ⟨s, hs, hpacked⟩ := exists_packed 3 (by decide)
  obtain ⟨bs, ht⟩ := exists_tiles hs
  obtain rfl := ht.holds.unique hpacked
  have horder : [heapStart + 74, heapStart + 29, heapStart + 119].Perm
      (usedPtrs 29 heapStart (packed 3)) := by decide
  obtain ⟨-, hdrain⟩ := heap_coalesced hs
  obtain ⟨⟨t, hrun⟩, hends⟩ := hdrain _ (horder.trans ht.live.symm)
  obtain ⟨-, _, rfl, hholds, -⟩ := hends t hrun
  exact ⟨s, t, hs, hpacked, hrun, hholds⟩

/-! ## Frame -/

theorem Tiles.frame {s t : State} {bs : List Block} {op : Op} {q r : Nat} (ht : Tiles s bs)
    (hstep : heapSystem.step s (op, r) t) (hcall : op.IsCall) (hq : q ∈ s.live)
    (hne : q ≠ op.target) : EqOn t.heap.mem s.heap.mem (payload s.heap.mem q) := by
  obtain ⟨bs', hex⟩ := ht.exchange hstep hcall
  refine (hex.keeps q _ (fun heq => ?_) (ht.allocation hq)).2
  rcases op.released_eq r with htarget | hzero
  · exact hne (heq.trans htarget)
  · exact ht.zero_notMem (by rwa [heq, hzero] at hq)

/-- A call leaves every payload alone but that of the pointer it is passed; `krealloc`
carries that one's bytes over, or leaves everything as it was. -/
theorem heap_frame {s : State} (hs : heapSystem.Reachable s) :
    (∀ (op : Op) (r : Nat) (t : State), heapSystem.step s (op, r) t → op.IsCall →
      ∀ q ∈ s.live, q ≠ op.target → EqOn t.heap.mem s.heap.mem (payload s.heap.mem q)) ∧
    ∀ (p n r : Nat) (t : State), p ∈ s.live → 0 < n → heapSystem.step s (.krealloc p n, r) t →
      (r ≠ 0 → ∀ i < min (blockSize s.heap.mem p) n, t.heap.mem (r + i) = s.heap.mem (p + i)) ∧
      (r = 0 → p ∈ t.live ∧ EqOn t.heap.mem s.heap.mem (payload s.heap.mem p) ∧
        ∃ bs, Holds s.heap bs ∧ Holds t.heap bs) := by
  obtain ⟨bs, ht⟩ := exists_tiles hs
  refine ⟨fun op r t hstep hcall q hq hne => ht.frame hstep hcall hq hne, ?_⟩
  intro p n r t hp hn hstep
  obtain ⟨hop, hret, hlive⟩ := hstep
  obtain ⟨h, r', bs', hret', hex, hbytes, hsame⟩ :=
    ht.holds.exists_krealloc (ht.allocation hp) hop.2
  obtain ⟨hheap, rfl⟩ := Prod.mk.inj (hret.unique (krealloc_mono s.heap p n) hret')
  rw [hheap]
  refine ⟨hbytes, fun hr => ?_⟩
  subst hr
  obtain ⟨hmem, rfl⟩ := hsame hn.ne' rfl
  refine ⟨?_, hmem ▸ eqOn_refl _ _, bs', ht.holds, hex.holds⟩
  have hkept : (Op.krealloc p n).released 0 = 0 := if_neg (by omega)
  rw [hlive, hkept, ownedAfter, if_pos rfl, List.nil_append, List.erase_of_not_mem ht.zero_notMem]
  exact hp

theorem heap_frame_served :
    ∃ r t, heapSystem.step (.served 32) (.krealloc (heapStart + 29) 100, r) t ∧
      (r ≠ 0 → ∀ i < min (blockSize (State.served 32).heap.mem (heapStart + 29)) 100,
        t.heap.mem (r + i) = (State.served 32).heap.mem (heapStart + 29 + i)) := by
  obtain ⟨bs, ht⟩ := exists_tiles served_reachable
  obtain ⟨r, t, hstep⟩ := ht.exists_step
    (show (Op.krealloc (heapStart + 29) 100).Permitted _ from ⟨.inr (.head _), by decide⟩)
  obtain ⟨-, hmoves⟩ := heap_frame served_reachable
  exact ⟨r, t, hstep, (hmoves _ _ _ _ (.head _) (by decide) hstep).1⟩

end AlvOS.Kmalloc
