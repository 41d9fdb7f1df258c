import AlvOS.Memory.Init
import AlvOS.Memory.Accounting

/-! The counter that `pmm_init` leaves behind and the statistics drawn from it.  The loop
over the memory map counts a frame once for every entry that withholds it, the two loops
after it count a frame only when they mark it; so the counter is exact when no managed
frame is withheld twice. -/

namespace AlvOS.Memory
open Word Ledger

structure PmmStats where
  totalFrames : Nat
  usedFrames : Nat
  freeFrames : Nat
  reservedFrames : Nat
  totalBytes : Nat
  usedBytes : Nat
  freeBytes : Nat
  usagePercent : Nat

def pmmGetStats (p : Pmm) : PmmStats :=
  let freeFrames := u64 (p.totalFrames + (2 ^ 64 - p.usedFrames))
  { totalFrames := p.totalFrames
    usedFrames := p.usedFrames
    freeFrames := freeFrames
    reservedFrames := p.reservedFrames
    totalBytes := u64 (p.totalFrames * pageSize)
    usedBytes := u64 (p.usedFrames * pageSize)
    freeBytes := u64 (freeFrames * pageSize)
    usagePercent :=
      if 0 < p.totalFrames then u32 (u64 (p.usedFrames * 100) / p.totalFrames) else 0 }

@[simp] theorem pmmGetStats_usedFrames (p : Pmm) : (pmmGetStats p).usedFrames = p.usedFrames := rfl

def clearBits (p : Pmm) : Nat := Nat.count (fun k => Bitmap.test p.bitmap k = false) p.totalFrames

theorem Accounted.stats {p : Pmm} (h : Accounted p) : p.usedFrames ≤ p.totalFrames ∧
    (pmmGetStats p).freeFrames = clearBits p ∧ (pmmGetStats p).usagePercent ≤ 100 := by
  have hle : p.usedFrames ≤ p.totalFrames := h.symm ▸ usedBits_le p
  have htotal := totalFrames_lt p
  refine ⟨hle, ?_, ?_⟩
  · have hclear := Bitmap.count_clear p.bitmap p.totalFrames
    change p.usedFrames = Bitmap.count p.bitmap p.totalFrames at h
    rw [clearBits, hclear, ← h]
    dsimp only [pmmGetStats, u64]
    omega
  · dsimp only [pmmGetStats]
    split_ifs with hpos
    · have hdiv : p.usedFrames * 100 / p.totalFrames ≤ 100 :=
        Nat.div_le_of_le_mul (Nat.mul_le_mul_right 100 hle)
      rw [u64_of_lt (by omega)]
      exact (Nat.mod_le _ _).trans hdiv
    · exact Nat.zero_le _

instance (memoryBase memorySize : Nat) (e : MemoryMapEntry) :
    DecidablePred (Withheld memoryBase memorySize e) := fun _ => inferInstanceAs (Decidable (_ ∧ _))

/-- The managed frames that `e` withholds. -/
def withheldFrames (memoryBase memorySize : Nat) (e : MemoryMapEntry) : Finset Nat :=
  Finset.filter (Withheld memoryBase memorySize e) (Finset.range (memorySize / pageSize))

theorem mem_withheldFrames {base size k : Nat} {e : MemoryMapEntry} :
    k ∈ withheldFrames base size e ↔ k < size / pageSize ∧ Withheld base size e k := by
  rw [withheldFrames, Finset.mem_filter, Finset.mem_range]

section Counter
variable {p : Pmm}

theorem markFrames_usedFrames (s n : Nat) :
    u64 (markFrames p s n).usedFrames = u64 (p.usedFrames + n) := by
  induction n with
  | zero => rfl
  | succ n ih =>
    have hstep : (markFrames p s (n + 1)).usedFrames = u64 ((markFrames p s n).usedFrames + 1) := by
      rw [← setFrame_usedFrames (markFrames p s n) (s + n)]
      rfl
    rw [hstep]
    dsimp only [u64] at ih ⊢
    omega

theorem markEntry_usedFrames (e : MemoryMapEntry) : u64 (markEntry p e).usedFrames =
    u64 (p.usedFrames + (withheldFrames p.memoryBase p.memorySize e).card) := by
  by_cases hmark : e.type ≠ memoryAvailable ∧
      p.memoryBase ≤ e.baseAddr ∧ e.baseAddr < u64 (p.memoryBase + p.memorySize)
  · obtain ⟨htype, hin⟩ := hmark
    rw [markEntry, if_pos htype, if_pos hin]
    set start := (e.baseAddr - p.memoryBase) / pageSize with hstart
    set stop := start + u64 (e.length + (pageSize - 1)) / pageSize with hstop
    have hframes : withheldFrames p.memoryBase p.memorySize e =
        Finset.Ico start (if p.totalFrames < stop then p.totalFrames else stop) := by
      ext k
      rw [mem_withheldFrames, ← p.totalFrames_eq, Withheld, ← hstart, ← hstop, Finset.mem_Ico]
      simp only [htype, hin, ne_eq, not_false_eq_true, and_self, true_and]
      split_ifs <;> omega
    rw [hframes, Nat.card_Ico]
    exact markFrames_usedFrames start _
  · have hnone : withheldFrames p.memoryBase p.memorySize e = ∅ := by
      ext k
      rw [mem_withheldFrames]
      refine iff_of_false ?_ (Finset.notMem_empty k)
      exact fun h => hmark ⟨h.2.1, h.2.2.1⟩
    have hskip : markEntry p e = p := by
      rw [markEntry]
      split_ifs with htype hin
      · exact absurd ⟨htype, hin⟩ hmark
      · rfl
      · rfl
    rw [hskip, hnone, Finset.card_empty, Nat.add_zero]

theorem markEntries_usedFrames (entries : List MemoryMapEntry) :
    u64 (entries.foldl markEntry p).usedFrames = u64 (p.usedFrames +
      ((entries.map (withheldFrames p.memoryBase p.memorySize)).map Finset.card).sum) := by
  induction entries generalizing p with
  | nil => rfl
  | cons e entries ih =>
    have hstep := markEntry_usedFrames (p := p) e
    have hrest := ih (p := markEntry p e)
    obtain ⟨b, u, hmark, -⟩ := markEntry_marks (p := p) e
    have hbase : (markEntry p e).memoryBase = p.memoryBase := by rw [hmark, put_memoryBase]
    have hsize : (markEntry p e).memorySize = p.memorySize := by rw [hmark, put_memorySize]
    rw [hbase, hsize] at hrest
    rw [List.foldl_cons, hrest, List.map_cons, List.map_cons, List.sum_cons]
    dsimp only [u64] at hstep ⊢
    omega

theorem sum_withheldFrames_le (base size : Nat) (entries : List MemoryMapEntry) :
    ((entries.map (withheldFrames base size)).map Finset.card).sum ≤
      entries.length * (size / pageSize) := by
  induction entries with
  | nil => exact Nat.zero_le _
  | cons e entries ih =>
    have hcard : (withheldFrames base size e).card ≤ size / pageSize := by
      apply (Finset.card_filter_le _ _).trans
      rw [Finset.card_range]
    rw [List.map_cons, List.map_cons, List.sum_cons, List.length_cons, Nat.succ_mul]
    omega

theorem Ahead.reserveFrame {d : Nat} (h : Ahead p d) (hd : d < 2 ^ 63) (j : Nat) :
    Ahead (reserveFrame p j) d := by
  rw [Memory.reserveFrame]
  split_ifs with htest
  · have hj : j < p.totalFrames := by
      by_contra hge
      rw [testFrame_of_le (not_lt.mp hge)] at htest
      exact absurd htest (by decide)
    rw [testFrame_of_lt hj] at htest
    obtain ⟨b, hset, hbits⟩ := setFrame_bits (p := p) j
    have hcount : Bitmap.count b p.totalFrames = usedBits p + 1 := by
      rw [usedBits, ← Finset.card_singleton j]
      apply Bitmap.count_union
      · intro k hk
        rw [hbits, and_iff_left hk, Finset.mem_singleton]
      · intro k hk
        obtain rfl := Finset.mem_singleton.mp hk
        exact ⟨hj, htest⟩
    rw [hset, addUsed_put]
    exact h.add hd hcount
  · exact h

theorem Ahead.reserveBitmap {d : Nat} (h : Ahead p d) (hd : d < 2 ^ 63) (s n : Nat) :
    Ahead (reserveBitmap p s n) d := by
  induction n with
  | zero => exact h
  | succ n ih =>
    rw [Memory.reserveBitmap]
    split_ifs
    · exact ih.reserveFrame hd _
    · exact ih

theorem Ahead.reserveKernel {d : Nat} (h : Ahead p d) (hd : d < 2 ^ 63) (n : Nat) :
    Ahead (reserveKernel p n) d := by
  induction n with
  | zero => exact h
  | succ n ih => exact ih.reserveFrame hd n

theorem Ahead.addReserved {d : Nat} (h : Ahead p d) (n : Nat) : Ahead (p.addReserved n) d := h

end Counter

section Init
variable (info : MemoryInfo) (words : Bitmap.Words 32) (r : Region)

def mapFrames : List (Finset Nat) := info.entries.map (withheldFrames r.base r.size)

def overcount : Nat :=
  ((mapFrames info r).map Finset.card).sum - ((mapFrames info r).foldr (· ∪ ·) ∅).card

theorem entries_frames_le : info.entries.length * (r.size / pageSize) ≤ 2 ^ 60 := by
  have hframes : r.size / pageSize ≤ 2 ^ 52 := totalFrames_lt (clearedPmm info (fun _ => 0) r)
  exact (Nat.mul_le_mul info.count_le hframes).trans (by decide)

theorem mem_mapFrames {k : Nat} : k ∈ (mapFrames info r).foldr (· ∪ ·) ∅ ↔
    k < r.size / pageSize ∧ ∃ e ∈ info.entries, Withheld r.base r.size e k := by
  rw [mem_foldr_union, mapFrames]
  constructor
  · rintro ⟨c, hc, hk⟩
    obtain ⟨e, he, rfl⟩ := List.mem_map.mp hc
    obtain ⟨hlt, hwithheld⟩ := mem_withheldFrames.mp hk
    exact ⟨hlt, e, he, hwithheld⟩
  · rintro ⟨hlt, e, he, hwithheld⟩
    exact ⟨_, List.mem_map_of_mem he, mem_withheldFrames.mpr ⟨hlt, hwithheld⟩⟩

theorem markEntries_counted : (info.entries.foldl markEntry (clearedPmm info words r)).usedFrames =
    ((mapFrames info r).map Finset.card).sum := by
  have hused := markEntries_usedFrames (p := clearedPmm info words r) info.entries
  have hsmall := markEntries_usedFrames_le (clearedPmm info words r) info.entries
  have hsum := sum_withheldFrames_le r.base r.size info.entries
  have hbound := entries_frames_le info r
  have hzero : (clearedPmm info words r).usedFrames = 0 := rfl
  change u64 _ = u64 (_ + ((mapFrames info r).map Finset.card).sum) at hused
  change _ ≤ _ + info.entries.length * (r.size / pageSize) at hsmall
  change ((mapFrames info r).map Finset.card).sum ≤ _ at hsum
  rwa [hzero, Nat.zero_add, u64_of_lt (by omega), u64_of_lt (by omega)] at hused

theorem usedBits_markEntries : usedBits (info.entries.foldl markEntry (clearedPmm info words r)) =
    ((mapFrames info r).foldr (· ∪ ·) ∅).card := by
  obtain ⟨b, u, hrun, hbits⟩ := markEntries_marks (p := clearedPmm info words r) info.entries
  have hempty : Bitmap.count (clearedPmm info words r).bitmap (r.size / pageSize) = 0 := by
    rw [Bitmap.count, Nat.count_iff_forall_not]
    intro k hk
    rw [clearedPmm_bits info words r hk]
    decide
  rw [hrun, usedBits_put, ← Nat.zero_add (Finset.card _), ← hempty]
  apply Bitmap.count_union
  · intro k hk
    rw [hbits, mem_mapFrames]
    rfl
  · intro k hk
    have hlt := ((mem_mapFrames info r).mp hk).1
    exact ⟨hlt, clearedPmm_bits info words r hlt⟩

theorem markEntries_ahead :
    Ahead (info.entries.foldl markEntry (clearedPmm info words r)) (overcount info r) := by
  have hunion := (sum_card_eq_iff (mapFrames info r)).1
  rw [Ahead, markEntries_counted, usedBits_markEntries, overcount]
  omega

/-- The counter is ahead of the bitmap by the frames that entries withhold in common. -/
theorem pmmInit_ahead : Ahead (pmmInit info words r) (overcount info r) := by
  have hd : overcount info r < 2 ^ 63 := by
    have hsum := (sum_withheldFrames_le r.base r.size info.entries).trans (entries_frames_le info r)
    rw [overcount, mapFrames]
    omega
  have hmarked := markEntries_ahead info words r
  exact (((hmarked.reserveBitmap hd _ _).addReserved _).reserveKernel hd _).addReserved _

theorem accounted_pmmInit_iff : Accounted (pmmInit info words r) ↔
    info.entries.Pairwise fun e f => ∀ k < r.size / pageSize,
      ¬(Withheld r.base r.size e k ∧ Withheld r.base r.size f k) := by
  have hahead := pmmInit_ahead info words r
  obtain ⟨hle, heq⟩ := sum_card_eq_iff (mapFrames info r)
  have hexact : Accounted (pmmInit info words r) ↔ overcount info r = 0 := by
    rw [Ahead] at hahead
    rw [Accounted]
    omega
  have hapart : overcount info r = 0 ↔ (mapFrames info r).Pairwise Disjoint := by
    rw [← heq, overcount]
    omega
  rw [hexact, hapart, mapFrames, List.pairwise_map]
  refine List.Pairwise.iff fun {e f} => ?_
  rw [Finset.disjoint_left]
  simp only [mem_withheldFrames]
  constructor
  · exact fun h k hk hboth => h ⟨hk, hboth.1⟩ ⟨hk, hboth.2⟩
  · exact fun h k he hf => h k he.1 ⟨he.2, hf.2⟩

/-- After initialisation the counter is the number of set bits, and the statistics are
right, exactly when no managed frame is withheld by two entries of the map. -/
theorem pmmInit_stats_iff :
    (Accounted (pmmInit info words r) ∧
      (pmmInit info words r).usedFrames ≤ (pmmInit info words r).totalFrames ∧
      (pmmGetStats (pmmInit info words r)).freeFrames = clearBits (pmmInit info words r) ∧
      (pmmGetStats (pmmInit info words r)).usagePercent ≤ 100) ↔
    info.entries.Pairwise fun e f => ∀ k < r.size / pageSize,
      ¬(Withheld r.base r.size e k ∧ Withheld r.base r.size f k) := by
  rw [← accounted_pmmInit_iff info words r]
  exact ⟨fun h => h.1, fun h => ⟨h, h.stats⟩⟩

end Init

/-- An entry of the map as the firmware writes it, in two 64-bit words and a 32-bit one. -/
def mapEntry (baseAddr length type : Nat) : MemoryMapEntry where
  baseAddr := u64 baseAddr
  length := u64 length
  type := u32 type
  baseAddr_lt := u64_lt baseAddr
  length_lt := u64_lt length
  type_lt := Nat.mod_lt _ (by decide)

/-- 127 MiB from 1 MiB, with two tables of the firmware in the halves of one page. -/
def sharedPageMap : MemoryInfo where
  entries := [mapEntry 0x100000 0x7F00000 1, mapEntry 0x7FE0000 0x800 3, mapEntry 0x7FE0800 0x800 4]
  totalMemory := 0x7F01000
  availableMemory := 0x7F00000
  count_le := by decide

/-- The shared page is counted twice. -/
theorem sharedPage_counted_twice :
    ¬Accounted (pmmInit sharedPageMap (fun _ => 0) ⟨0x100000, 0x7F00000, by decide, by decide⟩) := by
  rw [accounted_pmmInit_iff]
  intro hpairwise
  have htables := List.rel_of_pairwise_cons (List.Pairwise.of_cons hpairwise) (.head _)
  exact htables 0x7EE0 (by decide) ⟨by decide, by decide⟩

end AlvOS.Memory
