import Mathlib.Order.Interval.Finset.Nat
import AlvOS.Lib.Transition
import AlvOS.Lib.Ledger
import AlvOS.Memory.Frames

/-! Frame ownership.  Clients release exactly what they were given; the allocations
outstanding then balance the bitmap and the counter after any sequence of calls. -/

namespace AlvOS.Memory
open Word Transition Ledger

inductive PmmOp
  | allocFrame
  | allocFrames (count : Nat)
  | freeFrame (addr : Nat)
  | freeFrames (addr count : Nat)

def PmmOp.call (p : Pmm) : PmmOp → Pmm × Nat
  | .allocFrame => Memory.allocFrame p
  | .allocFrames count => Memory.allocFrames p count
  | .freeFrame addr => (Memory.freeFrame p addr, 0)
  | .freeFrames addr count => (Memory.freeFrames p addr count, 0)

/-- The allocator and the allocations outstanding: address and number of frames. -/
structure OwnedPmm where
  pmm : Pmm
  live : List (Nat × Nat)

def PmmOp.Names (live : List (Nat × Nat)) : PmmOp → Prop
  | .allocFrame => True
  | .allocFrames count => count < 2 ^ 64
  | .freeFrame addr => (addr, 1) ∈ live
  | .freeFrames addr count => (addr, count) ∈ live

def PmmOp.liveAfter (live : List (Nat × Nat)) (r : Nat) : PmmOp → List (Nat × Nat)
  | .allocFrame => if r = 0 then live else (r, 1) :: live
  | .allocFrames count => if r = 0 then live else (r, count) :: live
  | .freeFrame addr => live.erase (addr, 1)
  | .freeFrames addr count => live.erase (addr, count)

def ownedSystem : System OwnedPmm PmmOp where
  init s := s.live = []
  step s op t := op.Names s.live ∧ t.pmm = (op.call s.pmm).1 ∧
    t.live = op.liveAfter s.live (op.call s.pmm).2

def usedSet (b : Bitmap.Words 32) : Set Nat := {k | Bitmap.test b k = true}

theorem mem_usedSet {b : Bitmap.Words 32} {k : Nat} : k ∈ usedSet b ↔ Bitmap.test b k = true :=
  Iff.rfl

def framesOf (p : Pmm) (a : Nat × Nat) : Finset Nat :=
  Finset.Ico ((a.1 - p.memoryBase) / pageSize) ((a.1 - p.memoryBase) / pageSize + a.2)

def bytesOf (a : Nat × Nat) : Set Nat := Set.Ico a.1 (a.1 + a.2 * pageSize)

def Placed (p : Pmm) (a : Nat × Nat) : Prop :=
  ∃ k, a.1 = p.memoryBase + k * pageSize ∧ k + a.2 ≤ p.totalFrames ∧ 0 < a.2

/-- After any run from `p`, with nothing but the live allocations added to it. -/
structure Owned (p : Pmm) (s : OwnedPmm) : Prop where
  same : ∃ b u, s.pmm = p.put b u
  placed : ∀ a ∈ s.live, Placed p a
  balanced : Balanced (usedSet p.bitmap) (usedSet s.pmm.bitmap) (s.live.map (framesOf p))
  counted : p.usedFrames + p.totalFrames < 2 ^ 64 →
    s.pmm.usedFrames = p.usedFrames + (s.live.map Prod.snd).sum

theorem framesOf_eq {p : Pmm} {k n : Nat} :
    framesOf p (p.memoryBase + k * pageSize, n) = Finset.Ico k (k + n) := by
  have hk : (p.memoryBase + k * pageSize - p.memoryBase) / pageSize = k := by
    rw [Nat.add_sub_cancel_left, Nat.mul_div_cancel _ (by decide)]
  simp only [framesOf, hk]

theorem card_framesOf (p : Pmm) (a : Nat × Nat) : (framesOf p a).card = a.2 := by
  rw [framesOf, Nat.card_Ico]
  omega

section Owned
variable {p : Pmm} {s t : OwnedPmm} {k n : Nat}

theorem Owned.start (p : Pmm) : Owned p ⟨p, []⟩ :=
  ⟨⟨p.bitmap, p.usedFrames, rfl⟩, by simp, .start _, fun _ => rfl⟩

theorem sum_live_le {live : List (Nat × Nat)} (hplaced : ∀ a ∈ live, Placed p a)
    (hapart : (live.map (framesOf p)).Pairwise Disjoint) :
    (live.map Prod.snd).sum ≤ p.totalFrames := by
  have hpool : ∀ c ∈ live.map (framesOf p), c ⊆ Finset.range p.totalFrames := by
    intro c hc x hx
    obtain ⟨⟨addr, n⟩, ha, rfl⟩ := List.mem_map.mp hc
    obtain ⟨k, rfl, hk, -⟩ := hplaced _ ha
    rw [framesOf_eq, Finset.mem_Ico] at hx
    rw [Finset.mem_range]
    dsimp only at hk
    omega
  have hsum := sum_card_le hapart hpool
  rw [List.map_map, Finset.card_range] at hsum
  have hcard : (live.map (Finset.card ∘ framesOf p)) = live.map Prod.snd := by
    apply List.map_congr_left
    intro a _
    exact card_framesOf p a
  rwa [hcard] at hsum

theorem Owned.grant (h : Owned p s) (hrun : FreeRun s.pmm k n) (hn : 0 < n) {b : Bitmap.Words 32}
    (hbits : ∀ j, Bitmap.test b j = (decide (k ≤ j ∧ j < k + n) || Bitmap.test s.pmm.bitmap j)) :
    Owned p ⟨s.pmm.put b (u64 (s.pmm.usedFrames + n)),
      (p.memoryBase + k * pageSize, n) :: s.live⟩ := by
  obtain ⟨c, u, hsame⟩ := h.same
  have hfit : k + n ≤ p.totalFrames := by
    have := hrun.1
    rwa [hsame] at this
  have hplaced : ∀ a ∈ (p.memoryBase + k * pageSize, n) :: s.live, Placed p a := by
    intro a ha
    rcases List.mem_cons.mp ha with rfl | ha
    · exact ⟨k, rfl, hfit, hn⟩
    · exact h.placed a ha
  have hbalanced : Balanced (usedSet p.bitmap) (usedSet b)
      (((p.memoryBase + k * pageSize, n) :: s.live).map (framesOf p)) := by
    rw [List.map_cons, framesOf_eq]
    have hgrant := h.balanced.grant (c := Finset.Ico k (k + n)) fun x hx hused => by
      rw [Finset.mem_Ico] at hx
      rw [mem_usedSet, hrun.2 x hx.1 hx.2] at hused
      exact absurd hused (by decide)
    have hset : usedSet b = usedSet s.pmm.bitmap ∪ ↑(Finset.Ico k (k + n)) := by
      ext x
      rw [mem_usedSet, hbits, Set.mem_union, Finset.mem_coe, Finset.mem_Ico, Bool.or_eq_true,
        decide_eq_true_eq, or_comm, mem_usedSet]
    rw [hset]
    exact hgrant
  refine ⟨⟨b, u64 (s.pmm.usedFrames + n), ?_⟩, hplaced, hbalanced, fun hroom => ?_⟩
  · rw [hsame, put_put]
  · have hsum := sum_live_le hplaced hbalanced.apart
    have hcounted := h.counted hroom
    rw [List.map_cons, List.sum_cons] at hsum ⊢
    rw [put_usedFrames, u64_of_lt (by omega)]
    omega

theorem Owned.release (h : Owned p s) (hwrap : p.memoryBase + p.memorySize < 2 ^ 64)
    {a : Nat × Nat} (ha : a ∈ s.live) :
    Owned p ⟨freeFrames s.pmm a.1 a.2, s.live.erase a⟩ := by
  obtain ⟨c, u, hsame⟩ := h.same
  obtain ⟨k, haddr, hfit, hn⟩ := h.placed a ha
  have hperm := List.perm_cons_erase ha
  have hrest := h.balanced.perm (hperm.map (framesOf p))
  have hframes : framesOf p a = Finset.Ico k (k + a.2) := by
    rw [← framesOf_eq (p := p), ← haddr]
  rw [List.map_cons, hframes] at hrest
  have hspec := freeFrames_spec (p := s.pmm) (k := k) (n := a.2)
  simp only [hsame, put_memoryBase, put_memorySize, put_totalFrames, put_put, put_bitmap,
    put_usedFrames, ← haddr] at hspec hrest
  obtain ⟨b, v, hfree, hbits, hused⟩ := hspec hwrap hn hfit
  rw [hsame, hfree]
  refine ⟨⟨b, v, rfl⟩, fun d hd => h.placed d (List.mem_of_mem_erase hd), ?_, fun hroom => ?_⟩
  · have hset : usedSet b = usedSet c \ ↑(Finset.Ico k (k + a.2)) := by
      ext x
      rw [mem_usedSet, hbits, Set.mem_sdiff, Finset.mem_coe, Finset.mem_Ico, Bool.and_eq_true,
        Bool.not_eq_true', decide_eq_false_iff_not, and_comm, mem_usedSet]
    rw [put_bitmap, hset]
    exact hrest.release
  · have hcounted := h.counted hroom
    have hsum := (hperm.map Prod.snd).sum_eq
    rw [List.map_cons, List.sum_cons] at hsum
    have htaken : ∀ j, k ≤ j → j < k + a.2 → Bitmap.test c j = true := fun j h1 h2 =>
      (hrest.mem_iff j).mpr (.inr ⟨_, .head _, Finset.mem_Ico.mpr ⟨h1, h2⟩⟩)
    rw [hsame, put_usedFrames] at hcounted
    rw [put_usedFrames, hused htaken]
    dsimp only
    omega

theorem frameAddr_eq (hwrap : p.memoryBase + p.memorySize < 2 ^ 64) (hk : k < p.totalFrames) :
    frameAddr p k = p.memoryBase + k * pageSize := by
  have hsize := totalFrames_mul_le p
  have hlast : k * pageSize < p.totalFrames * pageSize :=
    Nat.mul_lt_mul_of_pos_right hk (by decide)
  exact u64_of_lt (by omega)

theorem Owned.alloc (h : Owned p s) (hbase : 0 < p.memoryBase)
    (hwrap : p.memoryBase + p.memorySize < 2 ^ 64) (n : Nat) :
    Owned p ⟨(allocFrames s.pmm n).1,
      if (allocFrames s.pmm n).2 = 0 then s.live else ((allocFrames s.pmm n).2, n) :: s.live⟩ := by
  rcases Nat.eq_zero_or_pos n with rfl | hn
  · rw [allocFrames_zero, if_pos rfl]
    exact h
  rcases allocFrames_spec (p := s.pmm) hn with ⟨k, b, hrun, -, halloc, hbits⟩ | ⟨halloc, -⟩
  · obtain ⟨c, u, hsame⟩ := h.same
    have haddr : frameAddr s.pmm k = p.memoryBase + k * pageSize := by
      have hk := hrun.1
      rw [hsame, put_totalFrames] at hk
      rw [hsame, frameAddr_put, frameAddr_eq hwrap (by omega)]
    rw [halloc, haddr, if_neg (by omega)]
    exact h.grant hrun hn hbits
  · rw [halloc, if_pos rfl]
    exact h

theorem Owned.step (h : Owned p s) (hbase : 0 < p.memoryBase)
    (hwrap : p.memoryBase + p.memorySize < 2 ^ 64) {op : PmmOp}
    (hstep : ownedSystem.step s op t) : Owned p t := by
  obtain ⟨pmm, live⟩ := t
  obtain ⟨hop, rfl, rfl⟩ := hstep
  cases op with
  | allocFrame =>
    simp only [PmmOp.call, PmmOp.liveAfter, allocFrame_eq]
    exact h.alloc hbase hwrap 1
  | allocFrames n => exact h.alloc hbase hwrap n
  | freeFrame addr =>
    simp only [PmmOp.call, PmmOp.liveAfter, freeFrame_eq]
    exact h.release hwrap hop
  | freeFrames addr n => exact h.release hwrap hop

end Owned

section Runs
variable {p : Pmm} {s t : OwnedPmm}

theorem Owned.run (h : Owned p s) (hbase : 0 < p.memoryBase)
    (hwrap : p.memoryBase + p.memorySize < 2 ^ 64) {ops : List PmmOp}
    (hrun : ownedSystem.Run s ops t) : Owned p t :=
  hrun.preserves (P := Owned p) (fun ha hstep => ha.step hbase hwrap hstep) h

theorem Owned.apart (h : Owned p s) :
    s.live.Pairwise fun a b => Disjoint (bytesOf a) (bytesOf b) := by
  have hframes := List.pairwise_map.mp h.balanced.apart
  refine hframes.imp_of_mem fun {a b} ha hb hab => ?_
  obtain ⟨j, hja, -, hjn⟩ := h.placed a ha
  obtain ⟨k, hkb, -, hkn⟩ := h.placed b hb
  obtain ⟨a, m⟩ := a
  obtain ⟨b, n⟩ := b
  dsimp only at hja hkb hjn hkn
  subst hja hkb
  rw [framesOf_eq, framesOf_eq, Finset.disjoint_left] at hab
  rw [Set.disjoint_left]
  rintro x ⟨h1, h2⟩ ⟨h3, h4⟩
  dsimp only [pageSize] at h1 h2 h3 h4
  -- the frame of the shared byte
  apply hab (a := (x - p.memoryBase) / 4096)
  · rw [Finset.mem_Ico]
    omega
  · rw [Finset.mem_Ico]
    omega

theorem Owned.bytesOf_subset (h : Owned p s) {a : Nat × Nat} (ha : a ∈ s.live) :
    bytesOf a ⊆ Set.Ico p.memoryBase (p.memoryBase + p.totalFrames * pageSize) := by
  obtain ⟨k, haddr, hfit, -⟩ := h.placed a ha
  rintro x ⟨h1, h2⟩
  rw [haddr] at h1 h2
  have hend := Nat.mul_le_mul_right pageSize hfit
  rw [Nat.add_mul] at hend
  exact ⟨by omega, by omega⟩

theorem Owned.testFrame_iff (h : Owned p s) {k : Nat} (hk : k < p.totalFrames) :
    testFrame s.pmm k = true ↔ testFrame p k = true ∨
      s.live.countP (fun a => decide (k ∈ framesOf p a)) = 1 := by
  obtain ⟨b, u, hsame⟩ := h.same
  have hcount := countP_mem h.balanced.apart k
  rw [List.countP_map] at hcount
  have hbit := h.balanced.mem_iff k
  rw [← hcount, mem_usedSet, mem_usedSet] at hbit
  rw [testFrame_of_lt hk, testFrame_of_lt (by rwa [hsame])]
  exact hbit

theorem Owned.restored (h : Owned p s) (hlive : s.live = []) : s.pmm.bitmap = p.bitmap ∧
    (p.usedFrames + p.totalFrames < 2 ^ 64 → s.pmm.usedFrames = p.usedFrames) := by
  have hbalanced := h.balanced
  have hcounted := h.counted
  rw [hlive] at hbalanced hcounted
  refine ⟨Bitmap.ext (by decide) fun k => ?_, fun hroom => by simpa using hcounted hroom⟩
  have hset := Set.ext_iff.mp hbalanced.used_eq k
  rw [mem_usedSet, mem_usedSet] at hset
  exact Bool.eq_iff_iff.mpr hset

def releaseOp (a : Nat × Nat) : PmmOp :=
  if a.2 = 1 then .freeFrame a.1 else .freeFrames a.1 a.2

theorem releaseOp_step {a : Nat × Nat} (ha : a ∈ s.live) :
    ∃ t, ownedSystem.step s (releaseOp a) t ∧ t.live = s.live.erase a := by
  obtain ⟨addr, n⟩ := a
  unfold releaseOp
  dsimp only
  split_ifs with hn
  · subst hn
    exact ⟨⟨_, _⟩, ⟨ha, rfl, rfl⟩, rfl⟩
  · exact ⟨⟨_, _⟩, ⟨ha, rfl, rfl⟩, rfl⟩

theorem exists_release_all {order : List (Nat × Nat)} (horder : order.Perm s.live) :
    ∃ t, ownedSystem.Run s (order.map releaseOp) t ∧ t.live = [] := by
  induction order generalizing s with
  | nil => exact ⟨s, .nil s, horder.nil_eq.symm⟩
  | cons a order ih =>
    obtain ⟨t, hstep, hlive⟩ := releaseOp_step (horder.mem_iff.mp (.head _))
    have hrest : order.Perm t.live := by
      rw [hlive]
      exact (List.cons_perm_iff_perm_erase.mp horder).2
    obtain ⟨u, hrun, hempty⟩ := ih hrest
    exact ⟨u, .cons hstep hrun, hempty⟩

/-- After any run a frame is in use when it was from the start or belongs to exactly one
live allocation; releasing everything, in any order, restores bitmap and counter.  The
counter is exact as long as it cannot wrap. -/
theorem frame_ownership (hbase : 0 < p.memoryBase) (hwrap : p.memoryBase + p.memorySize < 2 ^ 64)
    {ops : List PmmOp} (hrun : ownedSystem.Run ⟨p, []⟩ ops t) :
    (∀ k < p.totalFrames, testFrame t.pmm k = true ↔ testFrame p k = true ∨
      t.live.countP (fun a => decide (k ∈ framesOf p a)) = 1) ∧
    (t.live.Pairwise fun a b => Disjoint (bytesOf a) (bytesOf b)) ∧
    (∀ a ∈ t.live,
      bytesOf a ⊆ Set.Ico p.memoryBase (p.memoryBase + p.totalFrames * pageSize) ∧
      ∀ k ∈ framesOf p a, k < p.totalFrames ∧ testFrame p k = false) ∧
    (p.usedFrames + p.totalFrames < 2 ^ 64 →
      t.pmm.usedFrames = p.usedFrames + (t.live.map Prod.snd).sum) ∧
    ∀ order : List (Nat × Nat), order.Perm t.live →
      ∃ u, ownedSystem.Run t (order.map releaseOp) u ∧ u.live = [] ∧
        u.pmm.bitmap = p.bitmap ∧
        (p.usedFrames + p.totalFrames < 2 ^ 64 → u.pmm.usedFrames = p.usedFrames) := by
  have h : Owned p t := (Owned.start p).run hbase hwrap hrun
  refine ⟨fun k hk => h.testFrame_iff hk, h.apart, fun a ha => ⟨h.bytesOf_subset ha, ?_⟩,
    h.counted, fun order horder => ?_⟩
  · intro k hk
    obtain ⟨j, haddr, hfit, -⟩ := h.placed a ha
    have hin := hk
    rw [show a = (p.memoryBase + j * pageSize, a.2) from Prod.ext haddr rfl, framesOf_eq,
      Finset.mem_Ico] at hin
    have hfresh := h.balanced.fresh _ (List.mem_map.mpr ⟨a, ha, rfl⟩) k hk
    rw [mem_usedSet, Bool.not_eq_true] at hfresh
    exact ⟨by omega, by rw [testFrame_of_lt (by omega), hfresh]⟩
  · obtain ⟨u, hall, hempty⟩ := exists_release_all horder
    obtain ⟨hbitmap, hused⟩ := (h.run hbase hwrap hall).restored hempty
    exact ⟨u, hall, hempty, hbitmap, hused⟩

/-- Two mebibytes at 4 MiB, no frame of them in use. -/
def clearFrames : Pmm where
  bitmap := fun _ => 0
  bitmapAddr := 0x200000
  bitmapSize := 16
  totalFrames := 512
  usedFrames := 0
  reservedFrames := 0
  memoryBase := 0x400000
  memorySize := 0x200000
  memoryBase_lt := by decide
  memorySize_lt := by decide
  totalFrames_eq := by decide

theorem clearFrames_test (k : Nat) : Bitmap.test clearFrames.bitmap k = false := by
  have hzero : 0#32 &&& Bitmap.mask 32 k = 0#32 := BitVec.zero_and
  exact decide_eq_false (not_not_intro hzero)

/-- A frame and three in a row are taken, the first one comes back. -/
theorem frame_ownership_clearFrames : ∃ t,
    ownedSystem.Run ⟨clearFrames, []⟩ [.allocFrame, .allocFrames 3, .freeFrame 0x400000] t ∧
    t.live = [(0x401000, 3)] ∧ t.pmm.usedFrames = 3 ∧
    ∀ k < 512, testFrame t.pmm k = true ↔ testFrame clearFrames k = true ∨
      t.live.countP (fun a => decide (k ∈ framesOf clearFrames a)) = 1 := by
  have hfirst : ownedSystem.step ⟨clearFrames, []⟩ .allocFrame
      ⟨(allocFrame clearFrames).1, [(0x400000, 1)]⟩ := by
    have haddr : (allocFrame clearFrames).2 = 0x400000 := by decide
    refine ⟨trivial, rfl, ?_⟩
    simp [PmmOp.liveAfter, PmmOp.call, haddr]
  have hsecond : ownedSystem.step ⟨(allocFrame clearFrames).1, [(0x400000, 1)]⟩ (.allocFrames 3)
      ⟨(allocFrames (allocFrame clearFrames).1 3).1, [(0x401000, 3), (0x400000, 1)]⟩ := by
    have haddr : (allocFrames (allocFrame clearFrames).1 3).2 = 0x401000 := by decide
    refine ⟨(by decide : 3 < 2 ^ 64), rfl, ?_⟩
    simp [PmmOp.liveAfter, PmmOp.call, haddr]
  have hthird : ownedSystem.step
      ⟨(allocFrames (allocFrame clearFrames).1 3).1, [(0x401000, 3), (0x400000, 1)]⟩
      (.freeFrame 0x400000)
      ⟨freeFrame (allocFrames (allocFrame clearFrames).1 3).1 0x400000, [(0x401000, 3)]⟩ :=
    ⟨.tail _ (.head _), rfl, rfl⟩
  have hrun := System.Run.cons hfirst (.cons hsecond (.cons hthird (.nil _)))
  obtain ⟨hbits, -, -, hused, -⟩ := frame_ownership (by decide) (by decide) hrun
  exact ⟨_, hrun, rfl, hused (by decide), hbits⟩

def oneFrame (used : Nat) : Pmm where
  bitmap := fun _ => 0
  bitmapAddr := 0
  bitmapSize := 1
  totalFrames := 1
  usedFrames := used
  reservedFrames := 0
  memoryBase := 4096
  memorySize := 4096
  memoryBase_lt := by decide
  memorySize_lt := by decide
  totalFrames_eq := by decide

theorem oneFrame_alloc (used : Nat) (haddr : (allocFrame (oneFrame used)).2 = 4096) :
    ownedSystem.Run ⟨oneFrame used, []⟩ [.allocFrame]
      ⟨(allocFrame (oneFrame used)).1, [(4096, 1)]⟩ := by
  refine .cons ⟨trivial, rfl, ?_⟩ (.nil _)
  simp [PmmOp.liveAfter, PmmOp.call, haddr]

/-- A counter that starts at its maximum is not restored: it wraps to zero on the
allocation, and a release does not lower zero. -/
theorem frame_counter_wraps :
    ∃ t, ownedSystem.Run ⟨oneFrame (2 ^ 64 - 1), []⟩ [.allocFrame, .freeFrame 4096] t ∧
      t.live = [] ∧ t.pmm.usedFrames = 0 ∧ (oneFrame (2 ^ 64 - 1)).usedFrames = 2 ^ 64 - 1 := by
  have hrun := oneFrame_alloc (2 ^ 64 - 1) (by decide)
  refine ⟨⟨_, []⟩, hrun.append (.cons ⟨.head _, rfl, rfl⟩ (.nil _)), rfl, ?_, rfl⟩
  decide

end Runs

end AlvOS.Memory
