import AlvOS.Memory.Ownership

/-! What the allocator can ever hand out.  Clients release only frames they were handed,
in whatever pieces and as often as they like; then exactly the frames that are free at the
start can be handed out.  Addresses are 64-bit values, also where a range wraps. -/

namespace AlvOS.Memory
open Word Transition

/-- The addresses of `count` frames from `addr` on. -/
def frameAddrs (addr count : Nat) : Set Nat := {a | ∃ i < count, a = u64 (addr + i * pageSize)}

def rangeBytes (addr count : Nat) : Set Nat := range addr (count * pageSize)

namespace PmmOp

def count : PmmOp → Nat
  | .allocFrame => 1
  | .allocFrames count => count
  | _ => 0

def releases : PmmOp → Set Nat
  | .freeFrame addr => frameAddrs addr 1
  | .freeFrames addr count => frameAddrs addr count
  | _ => ∅

end PmmOp

structure HandingPmm where
  pmm : Pmm
  handed : Set Nat

def handingSystem : System HandingPmm PmmOp where
  init s := s.handed = ∅
  step s op t := op.releases ⊆ s.handed ∧ t.pmm = (op.call s.pmm).1 ∧
    t.handed = s.handed ∪
      {a | (op.call s.pmm).2 ≠ 0 ∧ a ∈ frameAddrs (op.call s.pmm).2 op.count}

/-- No run of the allocator from `p` returns a range that shares a byte with `region`. -/
def NeverReturns (p : Pmm) (region : Set Nat) : Prop :=
  ∀ ops t, handingSystem.Run ⟨p, ∅⟩ ops t → ∀ op : PmmOp, (op.call t.pmm).2 ≠ 0 →
    Disjoint (rangeBytes (op.call t.pmm).2 op.count) region

section Addresses
variable {p : Pmm} {j k : Nat}

theorem frameAddr_add (p : Pmm) (k i : Nat) :
    u64 (frameAddr p k + i * pageSize) = frameAddr p (k + i) := by
  dsimp only [frameAddr, pageSize, u64]
  omega

theorem frameAddr_u64 (p : Pmm) (k : Nat) : frameAddr p (u64 k) = frameAddr p k := by
  dsimp only [frameAddr, pageSize, u64]
  omega

theorem frameAddr_inj (hj : j < p.totalFrames) (hk : k < p.totalFrames)
    (h : frameAddr p j = frameAddr p k) : j = k := by
  have htotal := totalFrames_lt p
  dsimp only [frameAddr, pageSize, u64] at h
  omega

theorem index_of_managed (hk : k < p.totalFrames) (h : Managed p (frameAddr p k)) :
    (frameAddr p k - p.memoryBase) / pageSize = k := by
  have hsize := totalFrames_mul_le p
  have hsize' := p.memorySize_lt
  have hbase := p.memoryBase_lt
  obtain ⟨h1, h2⟩ := h
  dsimp only [frameAddr, pageSize, u64] at *
  omega

end Addresses

/-- After any run from `p`: the frames in use at the start still are, and what has been
handed out was free at the start. -/
structure Kept (p : Pmm) (s : HandingPmm) : Prop where
  same : ∃ b u, s.pmm = p.put b u
  kept : ∀ k, Bitmap.test p.bitmap k = true → Bitmap.test s.pmm.bitmap k = true
  fresh : ∀ a ∈ s.handed, ∃ k < p.totalFrames, a = frameAddr p k ∧ Bitmap.test p.bitmap k = false

section Kept
variable {p : Pmm} {s t : HandingPmm}

theorem Kept.start (p : Pmm) : Kept p ⟨p, ∅⟩ :=
  ⟨⟨p.bitmap, p.usedFrames, rfl⟩, fun _ h => h, fun _ ha => absurd ha (Set.notMem_empty _)⟩

theorem Kept.returned (h : Kept p s) {n : Nat} (hr : (allocFrames s.pmm n).2 ≠ 0) :
    ∃ k, (allocFrames s.pmm n).2 = frameAddr p k ∧ k + n ≤ p.totalFrames ∧
      ∀ i < n, Bitmap.test p.bitmap (k + i) = false := by
  obtain ⟨c, u, hsame⟩ := h.same
  rcases Nat.eq_zero_or_pos n with rfl | hn
  · rw [allocFrames_zero] at hr
    exact absurd rfl hr
  rcases allocFrames_spec (p := s.pmm) hn with ⟨k, b, hrun, -, halloc, -⟩ | ⟨halloc, -⟩
  · refine ⟨k, ?_, ?_, fun i hi => ?_⟩
    · rw [halloc, hsame]
      rfl
    · have := hrun.1
      rwa [hsame] at this
    · have hclear := hrun.2 (k + i) (by omega) (by omega)
      rw [← Bool.not_eq_true] at hclear ⊢
      exact fun hset => hclear (h.kept _ hset)
  · rw [halloc] at hr
    exact absurd rfl hr

theorem Kept.alloc (h : Kept p s) (n : Nat) : Kept p ⟨(allocFrames s.pmm n).1,
    s.handed ∪ {a | (allocFrames s.pmm n).2 ≠ 0 ∧ a ∈ frameAddrs (allocFrames s.pmm n).2 n}⟩ := by
  have hfresh : ∀ a ∈ s.handed ∪
      {a | (allocFrames s.pmm n).2 ≠ 0 ∧ a ∈ frameAddrs (allocFrames s.pmm n).2 n},
      ∃ k < p.totalFrames, a = frameAddr p k ∧ Bitmap.test p.bitmap k = false := by
    rintro a (ha | ⟨hr, i, hi, rfl⟩)
    · exact h.fresh a ha
    · obtain ⟨k, hk, hfit, hclear⟩ := h.returned hr
      exact ⟨k + i, by omega, by rw [hk, frameAddr_add], hclear i hi⟩
  obtain ⟨c, u, hsame⟩ := h.same
  rcases Nat.eq_zero_or_pos n with rfl | hn
  · refine ⟨⟨c, u, ?_⟩, ?_, hfresh⟩ <;> rw [allocFrames_zero]
    exacts [hsame, h.kept]
  rcases allocFrames_spec (p := s.pmm) hn with ⟨k, b, -, -, halloc, hbits⟩ | ⟨halloc, -⟩
  · refine ⟨⟨b, u64 (s.pmm.usedFrames + n), ?_⟩, fun j hj => ?_, hfresh⟩
    · rw [halloc, hsame]
      rfl
    · rw [halloc, put_bitmap, hbits, h.kept j hj, Bool.or_true]
  · refine ⟨⟨c, u, ?_⟩, ?_, hfresh⟩ <;> rw [halloc]
    exacts [hsame, h.kept]

theorem Kept.release (h : Kept p s) {addr n : Nat} (hhanded : frameAddrs addr n ⊆ s.handed) :
    Kept p ⟨freeFrames s.pmm addr n, s.handed⟩ := by
  obtain ⟨c, u, hsame⟩ := h.same
  have hmanaged : Managed s.pmm addr ↔ Managed p addr := by rw [hsame]; rfl
  by_cases hskip : n = 0 ∨ ¬Managed s.pmm addr
  · have hnone : freeFrames s.pmm addr n = s.pmm := by
      rw [freeFrames]
      split_ifs with hn hin
      · rfl
      · exact absurd hin (hskip.resolve_left hn)
      · rfl
    rw [hnone]
    exact ⟨h.same, h.kept, h.fresh⟩
  push Not at hskip
  obtain ⟨hn, hin⟩ := hskip
  -- the range starts at a handed frame, whose number the subtraction recovers
  obtain ⟨k, hk, haddr, -⟩ := h.fresh (u64 (addr + 0 * pageSize))
    (hhanded ⟨0, Nat.pos_of_ne_zero hn, rfl⟩)
  rw [Nat.zero_mul, Nat.add_zero, u64_of_lt (hin.2.trans (u64_lt _))] at haddr
  have hindex : (addr - p.memoryBase) / pageSize = k := by
    rw [haddr]
    exact index_of_managed hk (haddr ▸ hmanaged.mp hin)
  obtain ⟨b, v, hrun, hbits⟩ := releaseFrames_put (p := p.put c u) k n
  have hfree : freeFrames s.pmm addr n = p.put b v := by
    rw [freeFrames, if_neg hn, if_pos hin, hsame, put_memoryBase, hindex, hrun, put_put]
  rw [hfree]
  refine ⟨⟨b, v, rfl⟩, fun j hj => ?_, h.fresh⟩
  have hcleared : ¬(j < p.totalFrames ∧ ∃ i < n, j = u64 (k + i)) := by
    rintro ⟨hjt, i, hi, hji⟩
    obtain ⟨l, hl, hframe, hclear⟩ := h.fresh _ (hhanded ⟨i, hi, rfl⟩)
    rw [haddr, frameAddr_add, ← frameAddr_u64, ← hji] at hframe
    rw [frameAddr_inj hjt hl hframe, hclear] at hj
    exact absurd hj (by decide)
  have hkept := h.kept j hj
  rw [hsame, put_bitmap] at hkept
  rw [put_bitmap, hbits, put_totalFrames, put_bitmap, hkept]
  simp [hcleared]

theorem Kept.step (h : Kept p s) {op : PmmOp} (hstep : handingSystem.step s op t) : Kept p t := by
  obtain ⟨pmm, handed⟩ := t
  obtain ⟨hop, rfl, rfl⟩ := hstep
  cases op with
  | allocFrame =>
    simp only [PmmOp.call, PmmOp.count, allocFrame_eq]
    exact h.alloc 1
  | allocFrames n => exact h.alloc n
  | freeFrame addr =>
    simp only [PmmOp.call, freeFrame_eq]
    simpa using h.release hop
  | freeFrames addr n => simpa [PmmOp.call] using h.release hop

theorem Kept.run (h : Kept p s) {ops : List PmmOp} (hrun : handingSystem.Run s ops t) : Kept p t :=
  hrun.preserves (P := Kept p) (fun ha hstep => ha.step hstep) h

end Kept

section Returns
variable {p : Pmm} {region : Set Nat}

theorem mem_rangeBytes_frameAddr {k n x : Nat} (h : x ∈ rangeBytes (frameAddr p k) n) :
    ∃ i < n, x ∈ rangeBytes (frameAddr p (k + i)) 1 := by
  obtain ⟨j, hj, rfl⟩ := h
  refine ⟨j / pageSize, Nat.div_lt_of_lt_mul (by rwa [Nat.mul_comm]), j % pageSize,
    by rw [Nat.one_mul]; exact Nat.mod_lt _ (by decide), ?_⟩
  rw [← frameAddr_add]
  dsimp only [frameAddr, pageSize, u64]
  omega

theorem neverReturns_of_clear (hclear : ∀ k < p.totalFrames, testFrame p k = false →
    Disjoint (rangeBytes (frameAddr p k) 1) region) : NeverReturns p region := by
  intro ops t hrun
  have hkept := (Kept.start p).run hrun
  have halloc : ∀ n, (allocFrames t.pmm n).2 ≠ 0 →
      Disjoint (rangeBytes (allocFrames t.pmm n).2 n) region := by
    intro n hr
    obtain ⟨k, haddr, hfit, hfree⟩ := hkept.returned hr
    rw [haddr, Set.disjoint_left]
    intro x hx
    obtain ⟨i, hi, hx⟩ := mem_rangeBytes_frameAddr hx
    refine Set.disjoint_left.mp (hclear (k + i) (by omega) ?_) hx
    rw [testFrame_of_lt (by omega), hfree i hi]
  intro op hr
  cases op with
  | allocFrame =>
    simp only [PmmOp.call, PmmOp.count, allocFrame_eq] at hr ⊢
    exact halloc 1 hr
  | allocFrames n => exact halloc n hr
  | freeFrame addr => exact absurd rfl hr
  | freeFrames addr n => exact absurd rfl hr

theorem exists_run_below {k : Nat} (hk : k < p.totalFrames) (hclear : Bitmap.test p.bitmap k = false)
    {i : Nat} (hi : i ≤ k) : ∃ ops t, handingSystem.Run ⟨p, ∅⟩ ops t ∧
      (∃ b u, t.pmm = p.put b u) ∧ (∀ j < i, Bitmap.test t.pmm.bitmap j = true) ∧
      Bitmap.test t.pmm.bitmap k = false := by
  induction i with
  | zero => exact ⟨[], ⟨p, ∅⟩, .nil _, ⟨p.bitmap, p.usedFrames, rfl⟩, by simp, hclear⟩
  | succ i ih =>
    obtain ⟨ops, t, hrun, ⟨b, u, hsame⟩, hset, hkclear⟩ := ih (by omega)
    by_cases hbit : Bitmap.test t.pmm.bitmap i = true
    · refine ⟨ops, t, hrun, ⟨b, u, hsame⟩, fun j hj => ?_, hkclear⟩
      rcases Nat.lt_succ_iff_lt_or_eq.mp hj with hlt | rfl
      · exact hset j hlt
      · exact hbit
    -- frame `i` is the first free one, so it is the next to be allocated
    obtain ⟨c, halloc, hbits⟩ := allocFrame_first (p := t.pmm) (k := i)
      (by rw [hsame, put_totalFrames]; omega) hset (by simpa using hbit)
    refine ⟨ops ++ [.allocFrame], ⟨(allocFrame t.pmm).1, _⟩,
      hrun.append (.cons ⟨Set.empty_subset _, rfl, rfl⟩ (.nil _)), ?_, fun j hj => ?_, ?_⟩
    · refine ⟨c, u64 (t.pmm.usedFrames + 1), ?_⟩
      rw [halloc, hsame]
      rfl
    · rw [halloc, put_bitmap, hbits]
      rcases Nat.lt_succ_iff_lt_or_eq.mp hj with hlt | rfl
      · rw [hset j hlt, Bool.or_true]
      · simp
    · have hne : k ≠ i := by omega
      rw [halloc, put_bitmap, hbits, hkclear]
      simp [hne]

theorem exists_run_returning {k : Nat} (hk : k < p.totalFrames) (hclear : testFrame p k = false) :
    ∃ ops t, handingSystem.Run ⟨p, ∅⟩ ops t ∧ (allocFrame t.pmm).2 = frameAddr p k := by
  rw [testFrame_of_lt hk] at hclear
  obtain ⟨ops, t, hrun, ⟨b, u, hsame⟩, hset, hkclear⟩ := exists_run_below hk hclear (le_refl k)
  obtain ⟨c, halloc, -⟩ := allocFrame_first (p := t.pmm) (k := k)
    (by rwa [hsame, put_totalFrames]) hset hkclear
  refine ⟨ops, t, hrun, ?_⟩
  rw [halloc, hsame]
  rfl

/-- The allocator stays clear of a region above the first page exactly when every managed
frame that meets the region is in use from the start. -/
theorem neverReturns_iff (hregion : ∀ x ∈ region, pageSize ≤ x) :
    NeverReturns p region ↔ ∀ k < p.totalFrames,
      ¬Disjoint (rangeBytes (frameAddr p k) 1) region → testFrame p k = true := by
  constructor
  · intro hnever k hk hmeets
    by_contra hclear
    obtain ⟨ops, t, hrun, hreturned⟩ := exists_run_returning hk (by simpa using hclear)
    refine hmeets ?_
    rw [← hreturned]
    refine hnever ops t hrun .allocFrame fun hzero => hmeets ?_
    -- a frame at address zero lies below the region
    rw [show frameAddr p k = 0 from hreturned ▸ hzero, Set.disjoint_left]
    rintro x ⟨j, hj, rfl⟩ hx
    have hlow := hregion _ hx
    dsimp only [pageSize, u64] at hj hlow
    omega
  · intro hused
    refine neverReturns_of_clear fun k hk hclear => ?_
    by_contra hmeets
    rw [hused k hk hmeets] at hclear
    exact absurd hclear (by decide)

end Returns

end AlvOS.Memory
