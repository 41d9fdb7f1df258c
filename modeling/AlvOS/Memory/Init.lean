import Mathlib.Data.List.Basic
import AlvOS.Kernel
import AlvOS.Memory.Frames

/-! What `pmm_init` leaves behind: which frames are marked, and where the bitmap lies.
The marks of the three loops are one union, so a frame is marked exactly when one of
the three reasons applies to it. -/

namespace AlvOS.Memory
open Word

/-! ## Marks -/

/-- Entry `e` is not available, begins in the managed region and reaches frame `k`. -/
def Withheld (memoryBase memorySize : Nat) (e : MemoryMapEntry) (k : Nat) : Prop :=
  e.type ≠ memoryAvailable ∧
    (memoryBase ≤ e.baseAddr ∧ e.baseAddr < u64 (memoryBase + memorySize)) ∧
    (e.baseAddr - memoryBase) / pageSize ≤ k ∧
    k < (e.baseAddr - memoryBase) / pageSize + u64 (e.length + (pageSize - 1)) / pageSize

section Marks
variable {p : Pmm} {s n k : Nat}

theorem setFrame_bits (j : Nat) : ∃ b, setFrame p j = p.put b p.usedFrames ∧
    ∀ k, Bitmap.test b k = true ↔
      (k = j ∧ k < p.totalFrames) ∨ Bitmap.test p.bitmap k = true := by
  obtain ⟨b, hset, hbits⟩ := setFrame_put (p := p) j
  refine ⟨b, hset, fun k => ?_⟩
  rw [hbits, Bool.or_eq_true, decide_eq_true_eq]

/-- `q` is `p` with the frames that satisfy `P` marked too; only the bitmap and the counter of
used frames differ. -/
def Marks (p q : Pmm) (P : Nat → Prop) : Prop :=
  ∃ b u, q = p.put b u ∧
    ∀ k, Bitmap.test b k = true ↔ (k < p.totalFrames ∧ P k) ∨ Bitmap.test p.bitmap k = true

section Composition
variable {q r : Pmm} {P Q : Nat → Prop}

theorem Marks.refl (p : Pmm) (hnone : ∀ k, ¬P k) : Marks p p P :=
  ⟨p.bitmap, p.usedFrames, rfl, fun k => by simp [hnone]⟩

theorem Marks.trans (h : Marks p q P) (h' : Marks q r Q) : Marks p r fun k => P k ∨ Q k := by
  obtain ⟨b, u, rfl, hbits⟩ := h
  obtain ⟨c, v, rfl, hrest⟩ := h'
  refine ⟨c, v, put_put _ _ _ _ _, fun k => ?_⟩
  rw [hrest, put_bitmap, put_totalFrames, hbits, and_or_left, or_assoc, or_left_comm]

theorem Marks.congr (h : Marks p q P) (heq : ∀ k < p.totalFrames, (P k ↔ Q k)) :
    Marks p q Q := by
  obtain ⟨b, u, hput, hbits⟩ := h
  exact ⟨b, u, hput, fun k => (hbits k).trans (or_congr_left (and_congr_right (heq k)))⟩

theorem Marks.addUsed (h : Marks p q P) (n : Nat) : Marks p (q.addUsed n) P := by
  obtain ⟨b, u, rfl, hbits⟩ := h
  exact ⟨b, u64 (u + n), rfl, hbits⟩

theorem Marks.withheld_iff (h : Marks p q P) (e : MemoryMapEntry) :
    Withheld q.memoryBase q.memorySize e k ↔ Withheld p.memoryBase p.memorySize e k := by
  obtain ⟨b, u, rfl, -⟩ := h
  rfl

theorem Marks.totalFrames (h : Marks p q P) : q.totalFrames = p.totalFrames := by
  obtain ⟨b, u, rfl, -⟩ := h
  rfl

theorem Marks.reservedFrames (h : Marks p q P) : q.reservedFrames = p.reservedFrames := by
  obtain ⟨b, u, rfl, -⟩ := h
  rfl

end Composition

theorem setFrame_marks (j : Nat) : Marks p (setFrame p j) (· = j) := by
  obtain ⟨b, hset, hbits⟩ := setFrame_bits (p := p) j
  exact ⟨b, p.usedFrames, hset, fun k => (hbits k).trans (or_congr_left and_comm)⟩

theorem markFrames_marks (s n : Nat) :
    Marks p (markFrames p s n) fun k => s ≤ k ∧ k < s + n := by
  induction n with
  | zero => exact .refl p fun k => by omega
  | succ n ih => exact ((ih.trans (setFrame_marks (s + n))).addUsed 1).congr fun k _ => by omega

theorem markEntry_marks (e : MemoryMapEntry) :
    Marks p (markEntry p e) (Withheld p.memoryBase p.memorySize e) := by
  by_cases htype : e.type ≠ memoryAvailable
  · by_cases hin : p.memoryBase ≤ e.baseAddr ∧ e.baseAddr < u64 (p.memoryBase + p.memorySize)
    · rw [markEntry, if_pos htype, if_pos hin]
      refine (markFrames_marks _ _).congr fun k hk => ?_
      rw [Withheld, and_iff_right htype, and_iff_right hin]
      split_ifs
      all_goals omega
    · rw [markEntry, if_pos htype, if_neg hin]
      exact .refl p fun k h => hin h.2.1
  · rw [markEntry, if_neg htype]
    exact .refl p fun k h => htype h.1

theorem markEntries_marks (entries : List MemoryMapEntry) :
    Marks p (entries.foldl markEntry p) fun k =>
      ∃ e ∈ entries, Withheld p.memoryBase p.memorySize e k := by
  induction entries generalizing p with
  | nil => exact .refl p fun k => by simp
  | cons e entries ih =>
    have hentry := markEntry_marks (p := p) e
    refine (hentry.trans ih).congr fun k _ => ?_
    simp only [hentry.withheld_iff, List.exists_mem_cons_iff]

theorem reserveFrame_marks (j : Nat) : Marks p (reserveFrame p j) (· = j) := by
  cases htest : testFrame p j with
  | false =>
    rw [reserveFrame, if_pos htest]
    exact (setFrame_marks j).addUsed 1
  | true =>
    refine ⟨p.bitmap, p.usedFrames, by rw [reserveFrame, htest]; rfl, fun k => ?_⟩
    refine ⟨.inr, fun h => h.elim ?_ id⟩
    rintro ⟨hk, rfl⟩
    rwa [testFrame_of_lt hk] at htest

theorem reserveBitmap_marks (s n : Nat) :
    Marks p (reserveBitmap p s n) fun k => ∃ i < n, k = u64 (s + i) := by
  induction n with
  | zero => exact .refl p fun k => by simp
  | succ n ih =>
    have hcases : ∀ k, (∃ i < n + 1, k = u64 (s + i)) ↔
        (∃ i < n, k = u64 (s + i)) ∨ k = u64 (s + n) := by
      intro k
      simp only [Nat.lt_succ_iff_lt_or_eq, or_and_right, exists_or, exists_eq_left]
    simp only [hcases]
    rw [reserveBitmap]
    by_cases hlt : u64 (s + n) < (reserveBitmap p s n).totalFrames
    · exact if_pos hlt ▸ ih.trans (reserveFrame_marks _)
    · refine if_neg hlt ▸ ih.congr fun k hk => (or_iff_left ?_).symm
      rintro rfl
      exact hlt (ih.totalFrames ▸ hk)

theorem reserveKernel_marks (n : Nat) : Marks p (reserveKernel p n) (· < n) := by
  induction n with
  | zero => exact .refl p fun k => by omega
  | succ n ih => exact (ih.trans (reserveFrame_marks n)).congr fun k _ => by omega

end Marks

/-! ## The initial state -/

def InBitmap (info : MemoryInfo) (r : Region) (k : Nat) : Prop :=
  ∃ i < (bitmapBytes r.size + (pageSize - 1)) / pageSize,
    k = u64 (u64 (findBitmapLocation (bitmapBytes r.size) info.entries + (2 ^ 64 - r.base)) /
      pageSize + i)

def Reserved (info : MemoryInfo) (r : Region) (k : Nat) : Prop :=
  k < kernelFrames ∨ InBitmap info r k ∨ ∃ e ∈ info.entries, Withheld r.base r.size e k

section Init
variable (info : MemoryInfo) (words : Bitmap.Words 32) (r : Region)

theorem clearedPmm_bits {k : Nat} (hk : k < r.size / pageSize) :
    Bitmap.test (clearedPmm info words r).bitmap k = false := by
  have hword : k / 32 < bitmapWords r.size := by
    rw [bitmapWords]
    omega
  rw [Bitmap.test_eq _ _ (by decide), clearedPmm]
  simp [hword]

/-- Initialisation changes the bitmap and the counters of the cleared state only, and
marks exactly the reserved frames. -/
theorem pmmInit_bits : ∃ b used reserved,
    pmmInit info words r =
      { (clearedPmm info words r).put b used with reservedFrames := reserved } ∧
    ∀ k < r.size / pageSize, Bitmap.test b k = true ↔ Reserved info r k := by
  set p := clearedPmm info words r with hp
  have htotal : p.totalFrames = r.size / pageSize := rfl
  obtain ⟨b1, u1, hentries, hbits1⟩ := markEntries_marks (p := p) info.entries
  set start := u64 ((p.put b1 u1).bitmapAddr + (2 ^ 64 - (p.put b1 u1).memoryBase)) / pageSize
  set frames := (bitmapBytes r.size + (pageSize - 1)) / pageSize
  obtain ⟨b2, u2, hbitmap, hbits2⟩ := reserveBitmap_marks (p := p.put b1 u1) start frames
  set q := ((p.put b1 u1).put b2 u2).addReserved frames
  obtain ⟨b3, u3, hkernel, hbits3⟩ := reserveKernel_marks (p := q) (min kernelFrames q.totalFrames)
  refine ⟨b3, u3, u64 (q.reservedFrames + kernelFrames), ?_, fun k hk => ?_⟩
  · rw [pmmInit]
    simp only [← hp, hentries]
    rw [hbitmap, hkernel]
    rfl
  · have hclear : ¬Bitmap.test p.bitmap k = true := by
      rw [clearedPmm_bits info words r hk]
      decide
    have hkernelRange : k < q.totalFrames ∧ k < min kernelFrames q.totalFrames ↔
        k < kernelFrames := by
      have hq : q.totalFrames = r.size / pageSize := rfl
      omega
    have hb2 : Bitmap.test q.bitmap k = true ↔ (k < p.totalFrames ∧ ∃ i < frames,
        k = u64 (start + i)) ∨ Bitmap.test b1 k = true := hbits2 k
    rw [hbits3, hkernelRange, hb2, hbits1, or_iff_left hclear, htotal, and_iff_right hk,
      and_iff_right hk]
    rfl

@[simp] theorem pmmInit_totalFrames : (pmmInit info words r).totalFrames = r.size / pageSize := by
  obtain ⟨b, u, v, hinit, -⟩ := pmmInit_bits info words r
  rw [hinit]
  rfl

@[simp] theorem pmmInit_memoryBase : (pmmInit info words r).memoryBase = r.base := by
  obtain ⟨b, u, v, hinit, -⟩ := pmmInit_bits info words r
  rw [hinit]
  rfl

theorem bitmapFrames_le (r : Region) : (bitmapBytes r.size + (pageSize - 1)) / pageSize ≤ 2 ^ 52 := by
  have hsize := r.size_lt
  rw [bitmapBytes, bitmapWords, pageSize]
  omega

theorem pmmInit_reservedFrames : (pmmInit info words r).reservedFrames =
    (bitmapBytes r.size + (pageSize - 1)) / pageSize + kernelFrames := by
  have hle := bitmapFrames_le r
  have hkernel : kernelFrames = 512 := rfl
  have hzero : (info.entries.foldl markEntry (clearedPmm info words r)).reservedFrames = 0 :=
    (markEntries_marks info.entries).reservedFrames
  rw [pmmInit]
  dsimp only [Pmm.addReserved]
  rw [(reserveKernel_marks _).reservedFrames]
  dsimp only
  rw [(reserveBitmap_marks _ _).reservedFrames, hzero, Nat.zero_add,
    u64_of_lt (hle.trans_lt (by decide)), u64_of_lt (by omega)]

theorem testFrame_pmmInit {k : Nat} (hk : k < r.size / pageSize) :
    testFrame (pmmInit info words r) k = true ↔ Reserved info r k := by
  obtain ⟨b, u, v, hinit, hbits⟩ := pmmInit_bits info words r
  rw [testFrame_of_lt (by rwa [pmmInit_totalFrames]), hinit]
  exact hbits k hk

end Init

/-! ## The place of the bitmap -/

/-- Entry `e` has room for the bitmap and two pages above the first 2 MiB. -/
def Hosts (bytes : Nat) (e : MemoryMapEntry) : Prop :=
  e.type = memoryAvailable ∧ bytes + 2 * pageSize + (0x200000 - e.baseAddr) ≤ e.length

instance (bytes : Nat) (e : MemoryMapEntry) : Decidable (Hosts bytes e) :=
  inferInstanceAs (Decidable (_ ∧ _))

theorem aboveKernel_of_hosts {bytes : Nat} {e : MemoryMapEntry} (h : Hosts bytes e) :
    ∃ length, aboveKernel e = some (max e.baseAddr 0x200000, length) ∧
      bytes + 2 * pageSize ≤ length := by
  have hroom := h.2
  by_cases hlow : e.baseAddr < 0x200000
  · have hlength : 0x200000 - e.baseAddr < e.length := by
      have hpage : 0 < pageSize := by decide
      omega
    refine ⟨e.length - (0x200000 - e.baseAddr), ?_, by omega⟩
    rw [aboveKernel, if_pos hlow, if_pos hlength, max_eq_right hlow.le]
  · refine ⟨e.length, ?_, by omega⟩
    rw [aboveKernel, if_neg hlow, max_eq_left (not_lt.mp hlow)]

theorem hosts_of_aboveKernel {bytes : Nat} {e : MemoryMapEntry} {r : Nat × Nat}
    (htype : e.type = memoryAvailable) (habove : aboveKernel e = some r)
    (hroom : bytes + 2 * pageSize ≤ r.2) : Hosts bytes e := by
  refine ⟨htype, ?_⟩
  rw [aboveKernel] at habove
  split_ifs at habove with hlow hlength
  all_goals
    obtain rfl := Option.some.inj habove
    dsimp only at hroom
    omega

/-- The bitmap lies one page into the first entry that hosts it, or at 2 MiB. -/
theorem findBitmapLocation_eq {bytes : Nat} (hbytes : bytes + 2 * pageSize < 2 ^ 64)
    (entries : List MemoryMapEntry) : findBitmapLocation bytes entries =
      match entries.find? (fun e => decide (Hosts bytes e)) with
      | some e => u64 (max e.baseAddr 0x200000 + pageSize)
      | none => 0x200000 := by
  induction entries with
  | nil => rfl
  | cons e entries ih =>
    rw [findBitmapLocation, List.find?_cons, ih, u64_of_lt hbytes]
    by_cases hhost : Hosts bytes e
    · obtain ⟨length, habove, hroom⟩ := aboveKernel_of_hosts hhost
      simp only [hhost, decide_true]
      rw [if_pos hhost.1, habove]
      exact if_pos hroom
    · simp only [hhost, decide_false]
      split_ifs with htype
      · cases habove : aboveKernel e with
        | none => rfl
        | some r => exact if_neg fun hroom => hhost (hosts_of_aboveKernel htype habove hroom)
      · rfl

theorem bitmapBytes_le (r : Region) : bitmapBytes r.size * 32768 ≤ r.size + 4 * 32768 := by
  rw [bitmapBytes, bitmapWords, pageSize]
  omega

theorem bitmapBytes_lt (r : Region) : bitmapBytes r.size + 2 * pageSize < 2 ^ 64 := by
  have hle := bitmapBytes_le r
  have hsize := r.size_lt
  rw [pageSize]
  omega

/-! ## The counter

Frames are counted once for each entry that withholds them, so the counter may exceed the
number of frames; it stays far below the end of its range. -/

section Counter
variable (p : Pmm)

theorem addUsed_le (n : Nat) : (p.addUsed n).usedFrames ≤ p.usedFrames + n := Nat.mod_le _ _

theorem addReserved_usedFrames (n : Nat) : (p.addReserved n).usedFrames = p.usedFrames := rfl

theorem setFrame_usedFrames (j : Nat) : (setFrame p j).usedFrames = p.usedFrames := by
  rw [setFrame]
  split_ifs <;> rfl

theorem reserveFrame_usedFrames_le (j : Nat) :
    (reserveFrame p j).usedFrames ≤ p.usedFrames + 1 := by
  rw [reserveFrame]
  split_ifs
  · rw [← setFrame_usedFrames p j]
    exact addUsed_le _ 1
  · exact Nat.le_succ _

theorem markFrames_usedFrames_le (s n : Nat) :
    (markFrames p s n).usedFrames ≤ p.usedFrames + n := by
  induction n with
  | zero => exact le_refl _
  | succ n ih =>
    have hstep := addUsed_le (setFrame (markFrames p s n) (s + n)) 1
    rw [setFrame_usedFrames] at hstep
    rw [markFrames]
    omega

theorem markEntry_usedFrames_le (e : MemoryMapEntry) :
    (markEntry p e).usedFrames ≤ p.usedFrames + p.totalFrames := by
  rw [markEntry]
  split_ifs
  · refine (markFrames_usedFrames_le p _ _).trans (Nat.add_le_add_left ?_ _)
    apply (Nat.sub_le _ _).trans
    split_ifs with hlt
    · exact le_refl _
    · exact Nat.le_of_not_lt hlt
  · exact Nat.le_add_right _ _
  · exact Nat.le_add_right _ _

theorem markEntries_usedFrames_le (entries : List MemoryMapEntry) :
    (entries.foldl markEntry p).usedFrames ≤ p.usedFrames + entries.length * p.totalFrames := by
  induction entries generalizing p with
  | nil => exact Nat.le_add_right _ _
  | cons e entries ih =>
    have htotal := (markEntry_marks (p := p) e).totalFrames
    have hstep := markEntry_usedFrames_le p e
    have hrest := ih (markEntry p e)
    rw [htotal] at hrest
    rw [List.foldl_cons, List.length_cons, Nat.succ_mul]
    omega

theorem reserveBitmap_usedFrames_le (s n : Nat) :
    (reserveBitmap p s n).usedFrames ≤ p.usedFrames + n := by
  induction n with
  | zero => exact le_refl _
  | succ n ih =>
    have hstep := reserveFrame_usedFrames_le (reserveBitmap p s n) (u64 (s + n))
    rw [reserveBitmap]
    split_ifs <;> omega

theorem reserveKernel_usedFrames_le (n : Nat) :
    (reserveKernel p n).usedFrames ≤ p.usedFrames + n := by
  induction n with
  | zero => exact le_refl _
  | succ n ih =>
    have hstep := reserveFrame_usedFrames_le (reserveKernel p n) n
    rw [reserveKernel]
    omega

end Counter

theorem pmmInit_usedFrames_lt (info : MemoryInfo) (words : Bitmap.Words 32) (r : Region) :
    (pmmInit info words r).usedFrames + (pmmInit info words r).totalFrames < 2 ^ 64 := by
  have hframes := bitmapFrames_le r
  have hcount := Nat.mul_le_mul info.count_le (totalFrames_lt (clearedPmm info words r))
  have htotal := totalFrames_lt (pmmInit info words r)
  have hentries := markEntries_usedFrames_le (clearedPmm info words r) info.entries
  have hzero : (clearedPmm info words r).usedFrames = 0 := rfl
  have hused : (pmmInit info words r).usedFrames ≤
      (info.entries.foldl markEntry (clearedPmm info words r)).usedFrames +
        (bitmapBytes r.size + (pageSize - 1)) / pageSize + kernelFrames := by
    rw [pmmInit, addReserved_usedFrames]
    refine (reserveKernel_usedFrames_le _ _).trans (Nat.add_le_add ?_ (Nat.min_le_left _ _))
    rw [addReserved_usedFrames]
    exact reserveBitmap_usedFrames_le _ _ _
  have hkernel : kernelFrames = 512 := rfl
  rw [memoryMapSize] at hcount
  omega

end AlvOS.Memory

/-! ## The region -/

namespace AlvOS.Kernel
open Memory

/-- A longest available entry, or zero and zero where none has a positive length. -/
structure Longest (entries : List MemoryMapEntry) (r : Region) : Prop where
  length_le : ∀ e ∈ entries, e.type = memoryAvailable → e.length ≤ r.size
  origin : r.base = 0 ∧ r.size = 0 ∨ ∃ e ∈ entries, e.type = memoryAvailable ∧
    0 < e.length ∧ e.baseAddr = r.base ∧ e.length = r.size

theorem Longest.largerRegion {entries : List MemoryMapEntry} {r : Region} (h : Longest entries r)
    (e : MemoryMapEntry) : Longest (entries ++ [e]) (largerRegion r e) := by
  have horigin : r.base = 0 ∧ r.size = 0 ∨ ∃ f ∈ entries ++ [e], f.type = memoryAvailable ∧
      0 < f.length ∧ f.baseAddr = r.base ∧ f.length = r.size :=
    h.origin.imp_right fun ⟨f, hf, hrest⟩ => ⟨f, List.mem_append_left _ hf, hrest⟩
  have hmem : ∀ f ∈ entries ++ [e], f ∈ entries ∨ f = e := by
    intro f hf
    rwa [List.mem_append, List.mem_singleton] at hf
  rw [Kernel.largerRegion]
  split_ifs with htype hlt
  · refine ⟨fun f hf hf' => ?_, .inr ⟨e, List.mem_append_right _ (List.mem_singleton_self e), htype,
      Nat.zero_lt_of_lt hlt, rfl, rfl⟩⟩
    rcases hmem f hf with hold | rfl
    · exact (h.length_le f hold hf').trans hlt.le
    · exact Nat.le_refl _
  · refine ⟨fun f hf hf' => ?_, horigin⟩
    rcases hmem f hf with hold | rfl
    · exact h.length_le f hold hf'
    · exact not_lt.mp hlt
  · refine ⟨fun f hf hf' => ?_, horigin⟩
    rcases hmem f hf with hold | rfl
    · exact h.length_le f hold hf'
    · exact absurd hf' htype

theorem findAvailableMemoryRegion_longest (info : MemoryInfo) :
    Longest info.entries (findAvailableMemoryRegion info) := by
  rw [findAvailableMemoryRegion]
  induction info.entries using List.reverseRecOn with
  | nil => exact ⟨fun e he => absurd he List.not_mem_nil, .inl ⟨rfl, rfl⟩⟩
  | append_singleton entries e ih =>
    rw [List.foldl_append]
    exact ih.largerRegion e

def FromMap (info : MemoryInfo) (r : Region) : Prop :=
  r.base = 0 ∨
    ∃ e ∈ info.entries, e.type = memoryAvailable ∧ e.baseAddr = r.base ∧ e.length = r.size

theorem findAvailableMemoryRegion_mem (info : MemoryInfo) :
    FromMap info (findAvailableMemoryRegion info) := by
  rcases (findAvailableMemoryRegion_longest info).origin with hnone | ⟨e, he, htype, -, hrest⟩
  · exact .inl hnone.1
  · exact .inr ⟨e, he, htype, hrest⟩

theorem memoryRegion_cases (info : MemoryInfo) : memoryRegion info = fallbackRegion ∨
    ∃ e ∈ info.entries, e.type = memoryAvailable ∧ e.baseAddr = (memoryRegion info).base ∧
      e.length = (memoryRegion info).size ∧ 0 < (memoryRegion info).base ∧
      2 * 1024 * 1024 ≤ (memoryRegion info).size := by
  rw [memoryRegion]
  split_ifs with hnone
  · exact .inl rfl
  · push Not at hnone
    obtain ⟨e, he, htype, hb, hs⟩ := (findAvailableMemoryRegion_mem info).resolve_left hnone.1
    exact .inr ⟨e, he, htype, hb, hs, Nat.pos_of_ne_zero hnone.1, hnone.2⟩

end AlvOS.Kernel
