import AlvOS.Memory.Ownership

/-! The frame counter and the bitmap.  Every operation, whatever its arguments, moves the
counter and the number of set bits together, so the one stays ahead of the other by what
it was ahead at the start. -/

namespace AlvOS.Memory
open Word Transition

namespace PmmOp

def IsRelease : PmmOp → Prop
  | .allocFrame | .allocFrames _ => False
  | .freeFrame _ | .freeFrames _ _ => True

/-- No managed frame in use is among the `n` frames from the one that holds `addr`. -/
def NothingToFree (p : Pmm) (addr n : Nat) : Prop :=
  ∀ i < n, ¬(u64 ((addr - p.memoryBase) / pageSize + i) < p.totalFrames ∧
    testFrame p (u64 ((addr - p.memoryBase) / pageSize + i)) = true)

/-- There is no free run of that length, or nothing to release at that address. -/
def Fails (p : Pmm) : PmmOp → Prop
  | .allocFrame => ∀ s, ¬FreeRun p s 1
  | .allocFrames count => count = 0 ∨ ∀ s, ¬FreeRun p s count
  | .freeFrame addr => ¬Managed p addr ∨ NothingToFree p addr 1
  | .freeFrames addr count => ¬Managed p addr ∨ NothingToFree p addr count

/-- A call fails and changes nothing, takes a free run, or releases frames one by one. -/
inductive Outcome (p : Pmm) (op : PmmOp) : Prop
  | failed (hfails : op.Fails p) (hcall : op.call p = (p, 0))
  | taken (hfails : ¬op.Fails p) (hop : ¬op.IsRelease) (s n : Nat) (b : Bitmap.Words 32)
      (hn : 0 < n) (hrun : FreeRun p s n)
      (hcall : op.call p = (p.put b (u64 (p.usedFrames + n)), frameAddr p s))
      (hbits : ∀ k, Bitmap.test b k = (decide (s ≤ k ∧ k < s + n) || Bitmap.test p.bitmap k))
  | released (hfails : ¬op.Fails p) (hop : op.IsRelease) (s n : Nat)
      (hcall : op.call p = (releaseFrames p s n, 0))

end PmmOp

section Outcome
variable {p : Pmm} {n : Nat}

theorem releaseFrames_nothing (s n : Nat)
    (h : ∀ i < n, ¬(u64 (s + i) < p.totalFrames ∧ testFrame p (u64 (s + i)) = true)) :
    releaseFrames p s n = p := by
  induction n with
  | zero => rfl
  | succ n ih =>
    rw [releaseFrames, ih fun i hi => h i (by omega)]
    exact if_neg (h n (Nat.lt_succ_self n))

theorem allocFrames_outcome {op : PmmOp} (hop : ¬op.IsRelease) (hcall : op.call p = allocFrames p n)
    (hfails : op.Fails p ↔ n = 0 ∨ ∀ s, ¬FreeRun p s n) : op.Outcome p := by
  rcases Nat.eq_zero_or_pos n with rfl | hn
  · exact .failed (hfails.mpr (.inl rfl)) (hcall.trans allocFrames_zero)
  rcases allocFrames_spec (p := p) hn with ⟨s, b, hrun, -, halloc, hbits⟩ | ⟨halloc, hnone⟩
  · refine .taken ?_ hop s n b hn hrun (hcall.trans halloc) hbits
    exact fun h => (hfails.mp h).resolve_left hn.ne' s hrun
  · exact .failed (hfails.mpr (.inr hnone)) (hcall.trans halloc)

theorem freeFrames_outcome {op : PmmOp} {addr : Nat} (hop : op.IsRelease)
    (hcall : op.call p = (freeFrames p addr n, 0))
    (hfails : op.Fails p ↔ ¬Managed p addr ∨ PmmOp.NothingToFree p addr n) : op.Outcome p := by
  rw [freeFrames] at hcall
  by_cases hnothing : op.Fails p
  · -- either a check fails, or the loop finds nothing to release
    have hsame : (if n = 0 then p else if Managed p addr then
        releaseFrames p ((addr - p.memoryBase) / pageSize) n else p) = p := by
      split_ifs with hn hmanaged
      · rfl
      · exact releaseFrames_nothing _ n
          ((hfails.mp hnothing).resolve_left (not_not_intro hmanaged))
      · rfl
    rw [hsame] at hcall
    exact .failed hnothing hcall
  · have hvalid := mt hfails.mpr hnothing
    rw [not_or, not_not] at hvalid
    have hn : n ≠ 0 := by
      rintro rfl
      exact hvalid.2 fun i hi => absurd hi (Nat.not_lt_zero i)
    rw [if_neg hn, if_pos hvalid.1] at hcall
    exact .released hnothing hop _ n hcall

theorem PmmOp.outcome (op : PmmOp) (p : Pmm) : op.Outcome p := by
  cases op with
  | allocFrame =>
    apply allocFrames_outcome (n := 1)
    · exact not_false
    · exact allocFrame_eq p
    · exact (or_iff_right Nat.one_ne_zero).symm
  | allocFrames n => exact allocFrames_outcome not_false rfl Iff.rfl
  | freeFrame addr =>
    apply freeFrames_outcome (n := 1)
    · trivial
    · rw [PmmOp.call, freeFrame_eq]
    · exact Iff.rfl
  | freeFrames addr n => exact freeFrames_outcome trivial rfl Iff.rfl

variable {op : PmmOp} {k : Nat}

theorem PmmOp.call_fails (h : op.Fails p) : op.call p = (p, 0) := by
  cases op.outcome p with
  | failed _ hcall => exact hcall
  | taken hfails => exact absurd h hfails
  | released hfails => exact absurd h hfails

theorem PmmOp.call_eq_zero_iff (hop : ¬op.IsRelease)
    (hzero : ∀ k < p.totalFrames, frameAddr p k ≠ 0) : (op.call p).2 = 0 ↔ op.Fails p := by
  cases op.outcome p with
  | failed hfails hcall => exact iff_of_true (congrArg Prod.snd hcall) hfails
  | taken hfails _ s n b hn hrun hcall =>
    have hend := hrun.1
    rw [hcall]
    exact iff_of_false (hzero s (by omega)) hfails
  | released _ hrelease => exact absurd hrelease hop

theorem PmmOp.call_returns (op : PmmOp) (hr : (op.call p).2 ≠ 0) :
    ∃ k < p.totalFrames, (op.call p).2 = frameAddr p k ∧ Bitmap.test p.bitmap k = false := by
  cases op.outcome p with
  | failed _ hcall => exact absurd (congrArg Prod.snd hcall) hr
  | taken _ _ s n b hn hrun hcall =>
    have hend := hrun.1
    rw [hcall]
    exact ⟨s, by omega, rfl, hrun.2 s (Nat.le_refl s) (by omega)⟩
  | released _ _ s n hcall => exact absurd (congrArg Prod.snd hcall) hr

theorem PmmOp.call_put (op : PmmOp) : ∃ b u, (op.call p).1 = p.put b u := by
  cases op.outcome p with
  | failed _ hcall => exact ⟨p.bitmap, p.usedFrames, congrArg Prod.fst hcall⟩
  | taken _ _ s n b _ _ hcall => exact ⟨b, _, congrArg Prod.fst hcall⟩
  | released _ _ s n hcall =>
    obtain ⟨b, u, hrun, -⟩ := releaseFrames_put (p := p) s n
    exact ⟨b, u, (congrArg Prod.fst hcall).trans hrun⟩

theorem PmmOp.call_sets (hop : ¬op.IsRelease) (hk : Bitmap.test p.bitmap k = true) :
    Bitmap.test (op.call p).1.bitmap k = true := by
  cases op.outcome p with
  | failed _ hcall => rwa [hcall]
  | taken _ _ s n b _ _ hcall hbits => rw [hcall, put_bitmap, hbits, hk, Bool.or_true]
  | released _ hrelease => exact absurd hrelease hop

theorem PmmOp.call_clears (hop : op.IsRelease)
    (hk : Bitmap.test (op.call p).1.bitmap k = true) : Bitmap.test p.bitmap k = true := by
  cases op.outcome p with
  | failed _ hcall => rwa [hcall] at hk
  | taken _ halloc => exact absurd hop halloc
  | released _ _ s n hcall =>
    obtain ⟨b, u, hrun, hbits⟩ := releaseFrames_put (p := p) s n
    rw [hcall, hrun, put_bitmap, hbits, Bool.and_eq_true] at hk
    exact hk.2

end Outcome

def usedBits (p : Pmm) : Nat := Bitmap.count p.bitmap p.totalFrames

def Accounted (p : Pmm) : Prop := p.usedFrames = usedBits p

/-- The counter exceeds the number of set bits by `d`. -/
def Ahead (p : Pmm) (d : Nat) : Prop := p.usedFrames = usedBits p + d

theorem usedBits_le (p : Pmm) : usedBits p ≤ p.totalFrames := Bitmap.count_le _ _

section Ahead
variable {p : Pmm} {d k n : Nat}

theorem usedBits_put (p : Pmm) (b : Bitmap.Words 32) (u : Nat) :
    usedBits (p.put b u) = Bitmap.count b p.totalFrames := rfl

theorem Ahead.add (h : Ahead p d) (hd : d < 2 ^ 63) {b : Bitmap.Words 32}
    (hcount : Bitmap.count b p.totalFrames = usedBits p + n) :
    Ahead (p.put b (u64 (p.usedFrames + n))) d := by
  have htotal := totalFrames_lt p
  have hle := Bitmap.count_le b p.totalFrames
  rw [Ahead] at h
  rw [Ahead, usedBits_put, put_usedFrames, hcount, u64_of_lt (by omega)]
  omega

theorem Ahead.take (h : Ahead p d) (hd : d < 2 ^ 63) {s : Nat} {b : Bitmap.Words 32}
    (hrun : FreeRun p s n)
    (hbits : ∀ k, Bitmap.test b k = (decide (s ≤ k ∧ k < s + n) || Bitmap.test p.bitmap k)) :
    Ahead (p.put b (u64 (p.usedFrames + n))) d := by
  have hcount : Bitmap.count b p.totalFrames = usedBits p + (Finset.Ico s (s + n)).card := by
    apply Bitmap.count_union
    · intro k _
      rw [hbits, Bool.or_eq_true, decide_eq_true_eq, Finset.mem_Ico]
    · intro k hk
      have hend := hrun.1
      rw [Finset.mem_Ico] at hk
      exact ⟨by omega, hrun.2 k hk.1 hk.2⟩
  rw [Nat.card_Ico, Nat.add_sub_cancel_left] at hcount
  exact h.add hd hcount

theorem Ahead.releaseFrame (h : Ahead p d) (j : Nat) : Ahead (releaseFrame p j) d := by
  obtain ⟨b, u, hrel, hbits, hused⟩ := releaseFrame_put (p := p) j
  rw [Ahead] at h
  rw [hrel, Ahead, usedBits_put, put_usedFrames, hused]
  split_ifs with hj
  · have hcount : usedBits p = Bitmap.count b p.totalFrames + 1 := by
      refine Bitmap.count_erase (j := j) (fun k hk => ?_) hj.1 hj.2
      rw [hbits, Bool.and_eq_true, Bool.not_eq_true', decide_eq_false_iff_not, and_iff_left hk]
    omega
  · -- a frame that is not in use clears no bit
    have hcount : Bitmap.count b p.totalFrames = usedBits p := by
      refine Bitmap.count_congr fun k hk => ?_
      rw [hbits, Bool.and_eq_true, Bool.not_eq_true', decide_eq_false_iff_not, and_iff_left hk]
      refine and_iff_right_of_imp fun hset hkj => hj ?_
      exact ⟨hkj ▸ hk, hkj ▸ hset⟩
    omega

theorem Ahead.releaseFrames (h : Ahead p d) (s n : Nat) : Ahead (releaseFrames p s n) d := by
  induction n with
  | zero => exact h
  | succ n ih => exact ih.releaseFrame _

theorem Ahead.call (h : Ahead p d) (hd : d < 2 ^ 63) (op : PmmOp) : Ahead (op.call p).1 d := by
  cases op.outcome p with
  | failed _ hcall => rwa [hcall]
  | taken _ _ s n b _ hrun hcall hbits =>
    rw [hcall]
    exact h.take hd hrun hbits
  | released _ _ s n hcall =>
    rw [hcall]
    exact h.releaseFrames s n

end Ahead

def pmmSystem : System Pmm PmmOp where
  init := Accounted
  step p op q := q = (op.call p).1

theorem Ahead.run {p q : Pmm} {d : Nat} (h : Ahead p d) (hd : d < 2 ^ 63) {ops : List PmmOp}
    (hrun : pmmSystem.Run p ops q) : Ahead q d :=
  hrun.preserves (P := fun p => Ahead p d) (fun ha hstep => hstep ▸ ha.call hd _) h

/-- An exact counter stays exact.  Releases set no bit, allocations clear none, and what
fails changes nothing; an allocation returns zero only when it fails, unless a managed frame
has address zero. -/
theorem operations_accounted {p q : Pmm} {ops : List PmmOp} (h : Accounted p)
    (hrun : pmmSystem.Run p ops q) : Accounted q ∧ ∀ op : PmmOp,
      (op.IsRelease → ∀ k, Bitmap.test (op.call q).1.bitmap k = true →
        Bitmap.test q.bitmap k = true) ∧
      (¬op.IsRelease → ∀ k, Bitmap.test q.bitmap k = true →
        Bitmap.test (op.call q).1.bitmap k = true) ∧
      (op.Fails q → op.call q = (q, 0)) ∧
      (¬op.IsRelease → (∀ k < q.totalFrames, frameAddr q k ≠ 0) →
        ((op.call q).2 = 0 ↔ op.Fails q)) := by
  have hstart : Ahead p 0 := h
  refine ⟨hstart.run (by decide) hrun, fun op => ⟨?_, ?_, ?_, ?_⟩⟩
  · exact fun hop _ hk => PmmOp.call_clears hop hk
  · exact fun hop _ hk => PmmOp.call_sets hop hk
  · exact PmmOp.call_fails
  · exact fun hop hzero => PmmOp.call_eq_zero_iff hop hzero

/-- Three frames are taken, two of them and one that is free are released through an address
inside a frame, and there are no 600 frames. -/
theorem operations_accounted_clearFrames : ∃ q,
    pmmSystem.Run clearFrames [.allocFrames 3, .freeFrames 0x401001 3] q ∧ Accounted q ∧
      q.usedFrames = 1 ∧ allocFrames q 600 = (q, 0) := by
  have hstart : Accounted clearFrames := by
    rw [Accounted]
    decide +kernel
  have hrun : pmmSystem.Run clearFrames [.allocFrames 3, .freeFrames 0x401001 3]
      (freeFrames (allocFrames clearFrames 3).1 0x401001 3) := .cons rfl (.cons rfl (.nil _))
  obtain ⟨haccounted, hcalls⟩ := operations_accounted hstart hrun
  obtain ⟨-, -, hfails, -⟩ := hcalls (.allocFrames 600)
  have hused : (freeFrames (allocFrames clearFrames 3).1 0x401001 3).usedFrames = 1 := by decide
  refine ⟨_, hrun, haccounted, hused, hfails (.inr fun s hrun => ?_)⟩
  have hend : s + 600 ≤ 512 := hrun.1
  omega

/-- At the top of memory the frame at address zero is taken by a call that answers zero. -/
theorem operations_accounted_failure : Accounted topFrames ∧ (allocFrame topFrames).2 = 0 ∧
    testFrame topFrames 1 = false ∧ testFrame (allocFrame topFrames).1 1 = true ∧
    topFrames.usedFrames = 1 ∧ (allocFrame topFrames).1.usedFrames = 2 ∧
    ¬∀ p ops q, Accounted p → pmmSystem.Run p ops q → ∀ op : PmmOp, ¬op.IsRelease →
      (op.call q).2 = 0 → (op.call q).1 = q := by
  have hstart : Accounted topFrames := by
    rw [Accounted]
    decide
  have hused : (allocFrame topFrames).1.usedFrames = 2 := by decide
  refine ⟨hstart, by decide, by decide, by decide, rfl, hused, fun hclaim => ?_⟩
  have hsame : (allocFrame topFrames).1 = topFrames :=
    hclaim topFrames [] topFrames hstart (.nil _) .allocFrame not_false (by decide)
  rw [hsame] at hused
  exact absurd hused (by decide)

end AlvOS.Memory
