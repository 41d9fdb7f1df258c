import Mathlib.Tactic.SplitIfs
import AlvOS.Memory.Defs

/-! What the frame operations do to the bitmap.  Every operation changes the bitmap
and the counter only; the search for `n` contiguous frames is exact first fit. -/

namespace AlvOS.Memory
open Word

/-! ## Updates -/

def Pmm.put (p : Pmm) (b : Bitmap.Words 32) (used : Nat) : Pmm :=
  { p with bitmap := b, usedFrames := used }

section Put
variable (p : Pmm) (b c : Bitmap.Words 32) (u v : Nat)

@[simp] theorem put_bitmap : (p.put b u).bitmap = b := rfl

@[simp] theorem put_usedFrames : (p.put b u).usedFrames = u := rfl

@[simp] theorem put_totalFrames : (p.put b u).totalFrames = p.totalFrames := rfl

@[simp] theorem put_memoryBase : (p.put b u).memoryBase = p.memoryBase := rfl

@[simp] theorem put_memorySize : (p.put b u).memorySize = p.memorySize := rfl

@[simp] theorem put_put : (p.put b u).put c v = p.put c v := rfl

@[simp] theorem addUsed_put (n : Nat) : (p.put b u).addUsed n = p.put b (u64 (u + n)) := rfl

@[simp] theorem dropUsed_put : (p.put b u).dropUsed = p.put b (u - 1) := by
  change p.put b (if 0 < u then u - 1 else u) = _
  congr 1
  split_ifs <;> omega

@[simp] theorem frameAddr_put (k : Nat) : frameAddr (p.put b u) k = frameAddr p k := rfl

end Put

theorem totalFrames_lt (p : Pmm) : p.totalFrames ≤ 2 ^ 52 := by
  have hsize := p.memorySize_lt
  rw [p.totalFrames_eq, pageSize]
  omega

theorem totalFrames_mul_le (p : Pmm) : p.totalFrames * pageSize ≤ p.memorySize := by
  rw [p.totalFrames_eq]
  exact Nat.div_mul_le_self _ _

section Frame
variable {p : Pmm} {j k n s : Nat}

theorem testFrame_of_lt (h : k < p.totalFrames) : testFrame p k = Bitmap.test p.bitmap k :=
  if_neg (by omega)

theorem testFrame_of_le (h : p.totalFrames ≤ k) : testFrame p k = true := if_pos h

theorem setFrame_eq (h : j < p.totalFrames) :
    setFrame p j = p.put (Bitmap.set p.bitmap j) p.usedFrames := if_neg (by omega)

theorem clearFrame_eq (h : j < p.totalFrames) :
    clearFrame p j = p.put (Bitmap.clear p.bitmap j) p.usedFrames := if_neg (by omega)

theorem setFrame_put (j : Nat) : ∃ b, setFrame p j = p.put b p.usedFrames ∧
    ∀ k, Bitmap.test b k = (decide (k = j ∧ k < p.totalFrames) || Bitmap.test p.bitmap k) := by
  rcases Nat.lt_or_ge j p.totalFrames with hj | hj
  · refine ⟨_, setFrame_eq hj, fun k => ?_⟩
    rw [Bitmap.test_set _ _ _ (by decide)]
    by_cases hk : k = j <;> simp [hk, hj]
  · refine ⟨p.bitmap, if_pos hj, fun k => ?_⟩
    have : ¬(k = j ∧ k < p.totalFrames) := by omega
    simp [this]

theorem setFrames_put (hfit : s + n ≤ p.totalFrames) : ∃ b, setFrames p s n = p.put b p.usedFrames ∧
    ∀ k, Bitmap.test b k = (decide (s ≤ k ∧ k < s + n) || Bitmap.test p.bitmap k) := by
  have htotal := totalFrames_lt p
  induction n with
  | zero =>
    refine ⟨p.bitmap, rfl, fun k => ?_⟩
    simp
  | succ n ih =>
    obtain ⟨b, hrun, hbits⟩ := ih (by omega)
    obtain ⟨c, hset, hbit⟩ := setFrame_put (p := p.put b p.usedFrames) (s + n)
    refine ⟨c, ?_, fun k => ?_⟩
    · rw [setFrames, hrun, u64_of_lt (by omega), hset]
      rfl
    · have hcases : (s ≤ k ∧ k < s + (n + 1)) ↔
          (k = s + n ∧ k < p.totalFrames) ∨ (s ≤ k ∧ k < s + n) := by omega
      rw [hbit, put_bitmap, put_totalFrames, hbits, ← Bool.or_assoc, ← Bool.decide_or]
      simp only [hcases]

theorem releaseFrame_put (j : Nat) : ∃ b u, releaseFrame p j = p.put b u ∧
    (∀ k, Bitmap.test b k =
      (!decide (k = j ∧ k < p.totalFrames) && Bitmap.test p.bitmap k)) ∧
    u = if j < p.totalFrames ∧ Bitmap.test p.bitmap j = true then p.usedFrames - 1
      else p.usedFrames := by
  by_cases hj : j < p.totalFrames ∧ testFrame p j = true
  · obtain ⟨hlt, hset⟩ := hj
    have hbit := testFrame_of_lt hlt
    refine ⟨Bitmap.clear p.bitmap j, _, ?_, fun k => ?_, rfl⟩
    · rw [releaseFrame, if_pos ⟨hlt, hset⟩, clearFrame_eq hlt, if_pos ⟨hlt, hbit ▸ hset⟩,
        dropUsed_put]
    · rw [Bitmap.test_clear _ _ _ (by decide)]
      by_cases hk : k = j <;> simp [hk, hlt]
  · refine ⟨p.bitmap, p.usedFrames, if_neg hj, fun k => ?_, ?_⟩
    · by_cases hk : k = j ∧ k < p.totalFrames
      · obtain ⟨rfl, hlt⟩ := hk
        have hclear : Bitmap.test p.bitmap k = false := by
          rw [← testFrame_of_lt hlt]
          simpa [hlt] using hj
        simp [hclear]
      · simp [hk]
    · rw [if_neg fun h => hj ⟨h.1, (testFrame_of_lt h.1).trans h.2⟩]

theorem releaseFrames_put (s n : Nat) : ∃ b u, releaseFrames p s n = p.put b u ∧
    ∀ k, Bitmap.test b k =
      (!decide (k < p.totalFrames ∧ ∃ i < n, k = u64 (s + i)) && Bitmap.test p.bitmap k) := by
  induction n with
  | zero => exact ⟨p.bitmap, p.usedFrames, rfl, fun k => by simp⟩
  | succ n ih =>
    obtain ⟨b, u, hrun, hbits⟩ := ih
    obtain ⟨c, v, hrel, hbit, -⟩ := releaseFrame_put (p := p.put b u) (u64 (s + n))
    refine ⟨c, v, ?_, fun k => ?_⟩
    · rw [releaseFrames, hrun, hrel]
      rfl
    · have hcases : (k < p.totalFrames ∧ ∃ i < n + 1, k = u64 (s + i)) ↔
          (k = u64 (s + n) ∧ k < p.totalFrames) ∨ (k < p.totalFrames ∧ ∃ i < n, k = u64 (s + i)) := by
        simp only [Nat.lt_succ_iff_lt_or_eq, or_and_right, exists_or, exists_eq_left]
        rw [and_or_left, or_comm, and_comm]
      rw [hbit, put_bitmap, put_totalFrames, hbits, ← Bool.and_assoc, ← Bool.not_or,
        ← Bool.decide_or]
      simp only [hcases]

theorem releaseFrames_used (hfit : s + n ≤ p.totalFrames)
    (hset : ∀ k, s ≤ k → k < s + n → Bitmap.test p.bitmap k = true) :
    (releaseFrames p s n).usedFrames = p.usedFrames - n := by
  have htotal := totalFrames_lt p
  induction n with
  | zero => rfl
  | succ n ih =>
    have hprev := ih (by omega) fun k h1 h2 => hset k h1 (by omega)
    obtain ⟨b, u, hrun, hbits⟩ := releaseFrames_put (p := p) s n
    obtain ⟨c, v, hrel, -, hused⟩ := releaseFrame_put (p := p.put b u) (u64 (s + n))
    have hlast : Bitmap.test b (s + n) = true := by
      have hother : ¬(s + n < p.totalFrames ∧ ∃ i < n, s + n = u64 (s + i)) := by
        rintro ⟨-, i, hi, heq⟩
        rw [u64_of_lt (by omega)] at heq
        omega
      rw [hbits, hset _ (by omega) (by omega)]
      simp [hother]
    rw [releaseFrames, hrun, hrel, put_usedFrames, hused, put_usedFrames, put_totalFrames,
      u64_of_lt (by omega), put_bitmap, if_pos ⟨by omega, hlast⟩]
    rw [hrun, put_usedFrames] at hprev
    omega

end Frame

/-! ## Search -/

def FreeRun (p : Pmm) (s n : Nat) : Prop :=
  s + n ≤ p.totalFrames ∧ ∀ k, s ≤ k → k < s + n → Bitmap.test p.bitmap k = false

/-- The answer of a search for `n` frames: the first free run, or `-1` where there is none. -/
def Finds (p : Pmm) (n : Nat) (answer : Int) : Prop :=
  (∃ s : Nat, answer = s ∧ FreeRun p s n ∧ ∀ r < s, ¬FreeRun p r n) ∨
    (answer = -1 ∧ ∀ s, ¬FreeRun p s n)

/-- The loop for several frames before frame `i`: the last `contiguous` frames are free, the
one before them is in use, and no run of `n` frames ends here. -/
structure Scanned (p : Pmm) (n i contiguous start : Nat) : Prop where
  short : contiguous < n
  within : contiguous ≤ i
  begins : contiguous ≠ 0 → start + contiguous = i
  free : ∀ k, i - contiguous ≤ k → k < i → Bitmap.test p.bitmap k = false
  edge : ∀ k, k + contiguous + 1 = i → Bitmap.test p.bitmap k = true
  before : ∀ s, s + n ≤ i → ¬FreeRun p s n

section Search
variable {p : Pmm}

theorem FreeRun.testFrame {s n k : Nat} (h : FreeRun p s n) (h1 : s ≤ k) (h2 : k < s + n) :
    testFrame p k = false := by
  have := h.1
  rw [testFrame_of_lt (by omega), h.2 k h1 h2]

theorem findFrame_spec {left i : Nat} (hi : i + left = p.totalFrames)
    (hbefore : ∀ s < i, ¬FreeRun p s 1) : Finds p 1 (findFrame p left i) := by
  induction left generalizing i with
  | zero =>
    refine .inr ⟨rfl, fun s hs => hbefore s ?_ hs⟩
    have := hs.1
    omega
  | succ left ih =>
    rw [findFrame]
    cases htest : testFrame p i with
    | false =>
      refine .inl ⟨i, if_pos rfl, ⟨by omega, fun k h1 h2 => ?_⟩, hbefore⟩
      obtain rfl : k = i := by omega
      rwa [testFrame_of_lt (by omega)] at htest
    | true =>
      rw [if_neg (by decide)]
      refine ih (by omega) fun s hs hrun => ?_
      rcases Nat.lt_succ_iff_lt_or_eq.mp hs with hlt | rfl
      · exact hbefore s hlt hrun
      · rw [hrun.testFrame (le_refl s) (by omega)] at htest
        exact absurd htest (by decide)

namespace Scanned
variable {n i contiguous start : Nat}

theorem init {n : Nat} (hn : 0 < n) : Scanned p n 0 0 0 where
  short := hn
  within := le_refl 0
  begins h := absurd rfl h
  free k _ hk := absurd hk (Nat.not_lt_zero k)
  edge k hk := by omega
  before s hs := by omega

theorem used (h : Scanned p n i contiguous start) (htest : Bitmap.test p.bitmap i = true) :
    Scanned p n (i + 1) 0 start where
  short := h.short.pos
  within := Nat.zero_le _
  begins h0 := absurd rfl h0
  free k h1 h2 := by omega
  edge k hk := by
    obtain rfl : k = i := by omega
    exact htest
  before s hs hrun := by
    rcases Nat.lt_or_ge (s + n) (i + 1) with hend | hend
    · exact h.before s (by omega) hrun
    · have hpos := h.short.pos
      rw [hrun.2 i (by omega) (by omega)] at htest
      exact absurd htest (by decide)

theorem free_succ (h : Scanned p n i contiguous start) (htest : Bitmap.test p.bitmap i = false)
    {k : Nat} (h1 : i - contiguous ≤ k) (h2 : k < i + 1) : Bitmap.test p.bitmap k = false := by
  rcases Nat.lt_succ_iff_lt_or_eq.mp h2 with hk | rfl
  · exact h.free k h1 hk
  · exact htest

theorem begins_succ (h : Scanned p n i contiguous start) :
    (if contiguous = 0 then i else start) + (contiguous + 1) = i + 1 := by
  split_ifs with h0
  · rw [h0]
  · rw [← Nat.add_assoc, h.begins h0]

theorem longer (h : Scanned p n i contiguous start) (htest : Bitmap.test p.bitmap i = false)
    (hshort : contiguous + 1 ≠ n) :
    Scanned p n (i + 1) (contiguous + 1) (if contiguous = 0 then i else start) where
  short := Nat.lt_of_le_of_ne h.short hshort
  within := Nat.succ_le_succ h.within
  begins _ := h.begins_succ
  free k h1 h2 := h.free_succ htest (by omega) h2
  edge k hk := h.edge k (by omega)
  before s hs hrun := by
    have hlt := h.short
    rcases Nat.lt_or_ge (s + n) (i + 1) with hend | hend
    · exact h.before s (by omega) hrun
    · -- the run would reach back over the frame in use
      have hused := h.edge (i - contiguous - 1) (by omega)
      rw [hrun.2 _ (by omega) (by omega)] at hused
      exact absurd hused (by decide)

theorem complete (h : Scanned p n i contiguous start) (htest : Bitmap.test p.bitmap i = false)
    (hi : i < p.totalFrames) (hdone : contiguous + 1 = n) :
    Finds p n (if contiguous = 0 then i else start : Nat) := by
  have hbegins := h.begins_succ
  refine .inl ⟨_, rfl, ⟨by omega, fun k h1 h2 => ?_⟩, fun r hr => ?_⟩
  · exact h.free_succ htest (by omega) (by omega)
  · exact h.before r (by omega)

end Scanned

theorem findRun_spec {n left i contiguous start : Nat} (hi : i + left = p.totalFrames)
    (h : Scanned p n i contiguous start) : Finds p n (findRun p n left i contiguous start) := by
  induction left generalizing i contiguous start with
  | zero =>
    refine .inr ⟨rfl, fun s hs => h.before s ?_ hs⟩
    have := hs.1
    omega
  | succ left ih =>
    rw [findRun]
    cases htest : testFrame p i with
    | true =>
      rw [testFrame_of_lt (by omega)] at htest
      rw [if_neg (by decide)]
      exact ih (by omega) (h.used htest)
    | false =>
      rw [testFrame_of_lt (by omega)] at htest
      rw [if_pos rfl]
      by_cases hdone : contiguous + 1 = n
      · exact (if_pos hdone).symm ▸ h.complete htest (by omega) hdone
      · exact (if_neg hdone).symm ▸ ih (by omega) (h.longer htest hdone)

theorem findContiguousFrames_spec {n : Nat} (hn : 0 < n) : Finds p n (findContiguousFrames p n) := by
  rw [findContiguousFrames, if_neg hn.ne']
  split_ifs with hone
  · subst hone
    exact findFrame_spec (Nat.zero_add _) fun s hs => absurd hs (Nat.not_lt_zero s)
  · exact findRun_spec (Nat.zero_add _) (.init hn)

end Search

section Allocate
variable {p : Pmm} {n : Nat}

theorem allocFrames_zero : allocFrames p 0 = (p, 0) := if_pos rfl

/-- An allocation takes the first free run, or changes nothing when there is none. -/
theorem allocFrames_spec (hn : 0 < n) :
    (∃ s b, FreeRun p s n ∧ (∀ r < s, ¬FreeRun p r n) ∧
      allocFrames p n = (p.put b (u64 (p.usedFrames + n)), frameAddr p s) ∧
      ∀ k, Bitmap.test b k = (decide (s ≤ k ∧ k < s + n) || Bitmap.test p.bitmap k)) ∨
    (allocFrames p n = (p, 0) ∧ ∀ s, ¬FreeRun p s n) := by
  rcases findContiguousFrames_spec (p := p) hn with ⟨s, hfind, hrun, hfirst⟩ | ⟨hfind, hnone⟩
  · obtain ⟨b, hset, hbits⟩ := setFrames_put hrun.1
    refine .inl ⟨s, b, hrun, hfirst, ?_, hbits⟩
    simp only [allocFrames, hfind, Int.toNat_natCast, hset, addUsed_put]
    rw [if_neg (by omega), if_neg (by omega)]
  · refine .inr ⟨?_, hnone⟩
    simp only [allocFrames, hfind]
    rw [if_neg (by omega), if_pos (by decide)]

theorem frameAddr_ne_zero {s : Nat} (hbase : p.memoryBase ≠ 0)
    (hfits : p.memoryBase + p.totalFrames * pageSize ≤ 2 ^ 64) (hs : s < p.totalFrames) :
    frameAddr p s ≠ 0 := by
  have hlt : (s + 1) * pageSize ≤ p.totalFrames * pageSize := Nat.mul_le_mul_right _ hs
  have hpage : pageSize = 4096 := rfl
  rw [Nat.succ_mul] at hlt
  rw [frameAddr, u64_of_lt (by omega)]
  omega

theorem finds_iff {answer : Int} (h : Finds p n answer) :
    (∀ s : Nat, answer = s ↔ FreeRun p s n ∧ ∀ r < s, ¬FreeRun p r n) ∧
      (answer = -1 ↔ ∀ s, ¬FreeRun p s n) := by
  rcases h with ⟨s, rfl, hrun, hfirst⟩ | ⟨rfl, hnone⟩
  · refine ⟨fun r => ⟨fun heq => ?_, fun ⟨hr, hrfirst⟩ => ?_⟩, by omega, fun hnone => ?_⟩
    · obtain rfl : s = r := by omega
      exact ⟨hrun, hfirst⟩
    · have h1 : ¬s < r := fun hlt => hrfirst s hlt hrun
      have h2 : ¬r < s := fun hlt => hfirst r hlt hr
      omega
    · exact absurd hrun (hnone s)
  · exact ⟨fun s => ⟨by omega, fun hs => absurd hs.1 (hnone s)⟩, fun _ => hnone, fun _ => rfl⟩

/-- The search answers with the first free run, and with `-1` exactly when there is none;
its fast path agrees with its loop.  So an allocation from a region that neither begins
at zero nor runs past the top of memory fails only for want of a run. -/
theorem contiguous_search (p : Pmm) {n : Nat} (hn : 0 < n) :
    (∀ s : Nat, findContiguousFrames p n = s ↔ FreeRun p s n ∧ ∀ r < s, ¬FreeRun p r n) ∧
    (findContiguousFrames p n = -1 ↔ ∀ s, ¬FreeRun p s n) ∧
    findFrame p p.totalFrames 0 = findRun p 1 p.totalFrames 0 0 0 ∧
    (p.memoryBase ≠ 0 → p.memoryBase + p.totalFrames * pageSize ≤ 2 ^ 64 →
      ((allocFrames p n).2 = 0 ↔ ∀ s, ¬FreeRun p s n)) := by
  obtain ⟨hfirst, hnone⟩ := finds_iff (findContiguousFrames_spec (p := p) hn)
  refine ⟨hfirst, hnone, ?_, fun hbase hfits => ?_⟩
  · have hpath : Finds p 1 (findFrame p p.totalFrames 0) :=
      findFrame_spec (Nat.zero_add _) fun s hs => absurd hs (Nat.not_lt_zero s)
    have hloop : Finds p 1 (findRun p 1 p.totalFrames 0 0 0) :=
      findRun_spec (Nat.zero_add _) (.init (by decide))
    rcases hloop with ⟨s, hs, hrun⟩ | ⟨hs, hno⟩
    · rw [hs]
      exact ((finds_iff hpath).1 s).mpr hrun
    · rw [hs]
      exact (finds_iff hpath).2.mpr hno
  · rcases allocFrames_spec (p := p) hn with ⟨s, b, hrun, -, halloc, -⟩ | ⟨halloc, hno⟩
    · have hs : s < p.totalFrames := by
        have := hrun.1
        omega
      rw [halloc]
      exact ⟨fun h0 => absurd h0 (frameAddr_ne_zero hbase hfits hs), fun hno => absurd hrun (hno s)⟩
    · rw [halloc]
      exact ⟨fun _ => hno, fun _ => rfl⟩

/-- Two frames at the top of memory, the first in use: the second lies at address zero. -/
def topFrames : Pmm where
  bitmap := fun _ => 1#32
  bitmapAddr := 0
  bitmapSize := 1
  totalFrames := 2
  usedFrames := 1
  reservedFrames := 0
  memoryBase := 2 ^ 64 - 4096
  memorySize := 8192
  memoryBase_lt := by decide
  memorySize_lt := by decide
  totalFrames_eq := by decide

theorem topFrames_freeRun : FreeRun topFrames 1 1 := by
  refine ⟨by decide, fun k h1 h2 => ?_⟩
  obtain rfl : k = 1 := by omega
  decide

theorem contiguous_search_topFrames :
    findContiguousFrames topFrames 1 = 1 ∧
      (findContiguousFrames topFrames 3 = -1 ↔ ∀ s, ¬FreeRun topFrames s 3) :=
  ⟨((contiguous_search topFrames (n := 1) (by decide)).1 1).mpr
      ⟨topFrames_freeRun, fun r hr hrun => by
        obtain rfl : r = 0 := by omega
        exact absurd (hrun.2 0 (by decide) (by decide)) (by decide)⟩,
    (contiguous_search topFrames (n := 3) (by decide)).2.1⟩

/-- There the allocation of the free frame answers zero. -/
theorem contiguous_search_failure : (allocFrames topFrames 1).2 = 0 ∧
    ¬∀ (p : Pmm) (n : Nat), 0 < n → p.memoryBase ≠ 0 → (allocFrames p n).2 = 0 →
      ∀ s, ¬FreeRun p s n := by
  have hzero : (allocFrames topFrames 1).2 = 0 := by decide
  refine ⟨hzero, fun hclaim => ?_⟩
  exact hclaim topFrames 1 (by decide) (by decide) hzero 1 topFrames_freeRun

theorem allocFrame_eq (p : Pmm) : allocFrame p = allocFrames p 1 := by
  rcases findContiguousFrames_spec (p := p) (n := 1) (by decide) with
    ⟨s, hfind, hrun, -⟩ | ⟨hfind, -⟩
  · have hs : s < 2 ^ 64 := by
      have := hrun.1
      have := totalFrames_lt p
      omega
    simp only [allocFrame, allocFrames, hfind, Int.toNat_natCast, setFrames, Nat.add_zero,
      u64_of_lt hs]
    rw [if_neg (by omega), if_neg (by decide)]
  · simp only [allocFrame, allocFrames, hfind]
    rfl

theorem allocFrame_first {k : Nat} (hk : k < p.totalFrames)
    (hset : ∀ j < k, Bitmap.test p.bitmap j = true) (hclear : Bitmap.test p.bitmap k = false) :
    ∃ b, allocFrame p = (p.put b (u64 (p.usedFrames + 1)), frameAddr p k) ∧
      ∀ j, Bitmap.test b j = (decide (j = k) || Bitmap.test p.bitmap j) := by
  have hfree : FreeRun p k 1 := ⟨hk, fun j h1 h2 => by rwa [show j = k by omega]⟩
  rw [allocFrame_eq]
  rcases allocFrames_spec (p := p) (n := 1) (by decide) with
    ⟨s, b, hs, hfirst, halloc, hbits⟩ | ⟨-, hnone⟩
  · have hle : ¬k < s := fun hlt => hfirst k hlt hfree
    have hge : ¬s < k := fun hlt => by
      have hused := hset s hlt
      rw [hs.2 s (le_refl s) (by omega)] at hused
      exact absurd hused (by decide)
    obtain rfl : s = k := by omega
    refine ⟨b, halloc, fun j => ?_⟩
    have hone : s ≤ j ∧ j < s + 1 ↔ j = s := by omega
    rw [hbits]
    simp only [hone]
  · exact absurd hfree (hnone k)

end Allocate

/-! ## Release -/

theorem freeFrame_eq (p : Pmm) (addr : Nat) : freeFrame p addr = freeFrames p addr 1 := by
  rw [freeFrame, freeFrames, if_neg Nat.one_ne_zero]
  split_ifs with hmanaged
  · have haddr : addr < 2 ^ 64 := hmanaged.2.trans (u64_lt _)
    rw [releaseFrames, releaseFrames, Nat.add_zero, u64_of_lt]
    exact (Nat.div_le_self _ _).trans_lt (by omega)
  · rfl

theorem freeFrames_spec {p : Pmm} {k n : Nat} (hwrap : p.memoryBase + p.memorySize < 2 ^ 64)
    (hn : 0 < n) (hfit : k + n ≤ p.totalFrames) : ∃ b u,
      freeFrames p (p.memoryBase + k * pageSize) n = p.put b u ∧
      (∀ j, Bitmap.test b j = (!decide (k ≤ j ∧ j < k + n) && Bitmap.test p.bitmap j)) ∧
      ((∀ j, k ≤ j → j < k + n → Bitmap.test p.bitmap j = true) → u = p.usedFrames - n) := by
  have htotal := totalFrames_lt p
  have hsize := totalFrames_mul_le p
  have hlast : k * pageSize < p.totalFrames * pageSize :=
    Nat.mul_lt_mul_of_pos_right (by omega) (by decide)
  have hmanaged : Managed p (p.memoryBase + k * pageSize) := by
    refine ⟨by omega, ?_⟩
    rw [u64_of_lt hwrap]
    omega
  have hindex : (p.memoryBase + k * pageSize - p.memoryBase) / pageSize = k := by
    rw [Nat.add_sub_cancel_left, Nat.mul_div_cancel _ (by decide)]
  obtain ⟨b, u, hrun, hbits⟩ := releaseFrames_put (p := p) k n
  refine ⟨b, u, ?_, fun j => ?_, fun hset => ?_⟩
  · rw [freeFrames, if_neg hn.ne', if_pos hmanaged, hindex, hrun]
  · have hrange : (j < p.totalFrames ∧ ∃ i < n, j = u64 (k + i)) ↔ k ≤ j ∧ j < k + n := by
      constructor
      · rintro ⟨-, i, hi, rfl⟩
        rw [u64_of_lt (by omega)]
        omega
      · rintro ⟨h1, h2⟩
        refine ⟨by omega, j - k, by omega, ?_⟩
        rw [u64_of_lt (by omega)]
        omega
    rw [hbits]
    simp only [hrange]
  · have hused := releaseFrames_used hfit hset
    rwa [hrun] at hused

end AlvOS.Memory
