import AlvOS.Lib.Computation
import AlvOS.Kmalloc.Canonical
import AlvOS.Kmalloc.OutOfMemory

/-! Rules for code that calls the heap.  What the code owns stands beside what was there
before it began; it may do as it likes with its own, and once it owns nothing the heap is the
one it found.  Nothing outside the heap is ever written. -/

namespace AlvOS.Kmalloc
open ByteMemory BlockList Set Fuel

namespace Heap

def kmalloc (h : Heap) (size : Nat) : Comp (Heap × Nat) where
  run fuel := Kmalloc.kmalloc fuel h size
  mono := kmalloc_mono h size

def kcalloc (h : Heap) (nmemb size : Nat) : Comp (Heap × Nat) where
  run fuel := Kmalloc.kcalloc fuel h nmemb size
  mono := kcalloc_mono h nmemb size

def kfree (h : Heap) (ptr : Nat) : Comp Heap where
  run fuel := Kmalloc.kfree fuel h ptr
  mono := kfree_mono h ptr

def krealloc (h : Heap) (ptr newSize : Nat) : Comp (Heap × Nat) where
  run fuel := Kmalloc.krealloc fuel h ptr newSize
  mono := krealloc_mono h ptr newSize

end Heap

def arenaBytes : Set Nat := Ico heapStart (heapStart + heapSize)

section Outside
variable {h h' : Heap} {bs : List Block} {n a p r size : Nat}

theorem Holds.headerBytes_subset_arena (hh : Holds h bs) :
    headerBytes 29 heapStart bs ⊆ arenaBytes := by
  have hsub := headerBytes_subset 29 heapStart bs
  rwa [hh.arena.fills] at hsub

theorem Holds.take_outside {pre post : List Block} {b : Block} {s : Nat} (hh : Holds h bs)
    (hfit : FirstFit s bs pre b post) :
    EqOn (allocMem h.mem (heapStart + extent 29 pre) s) h.mem arenaBytesᶜ := by
  obtain ⟨rfl, -, hb⟩ := hfit
  obtain ⟨hhead, hext⟩ := hh.block
  have hsize := hb.2
  have hstart := heapStart_eq
  have hheap := heapSize_eq
  intro x hx
  have hheaders := fun hx' => hx (hh.headerBytes_subset_arena hx')
  rw [headerBytes_append, headerBytes] at hheaders
  have hpost : x ∉ headerBytes 29 (heapStart + extent 29 pre + (29 + b.size)) post :=
    fun hx' => hheaders (.inr (.inr hx'))
  have hblock : x ∉ Ico (heapStart + extent 29 pre) (heapStart + extent 29 pre + (29 + b.size)) :=
    fun hx' => hx ⟨by have := hx'.1; omega, by have := hx'.2; omega⟩
  have hapart := hblock
  rw [mem_Ico] at hapart
  rw [allocMem, CString.memset, fill_apply, if_neg, store_apply,
    splitBlock_apply hhead _ _ hb.1 hsize hblock hpost]
  all_goals first | omega | exact fun hx' => hblock ⟨by have := hx'.1; omega, by have := hx'.2; omega⟩

theorem Outcome.outside (hh : Holds h bs) (hout : Outcome h bs n a h' r) :
    EqOn h'.mem h.mem arenaBytesᶜ := by
  cases hout with
  | refused _ hmem _ => exact hmem ▸ eqOn_refl _ _
  | served _ hfit => exact hh.take_outside hfit

theorem Holds.kfree_outside (hh : Holds h bs) (hp : p ∈ usedPtrs 29 heapStart bs)
    (hret : Returns (fun fuel => kfree fuel h p) h') : EqOn h'.mem h.mem arenaBytesᶜ := by
  have hheaders := hh.headerBytes_subset_arena
  obtain ⟨pre, b, post, rfl, hb, rfl⟩ := (mem_usedPtrs 29).mp hp
  obtain ⟨m, hrun, -, heq⟩ := kfree_spec hh hb (Nat.le_refl _)
  obtain rfl := hret.unique (kfree_mono h _) ⟨_, hrun⟩
  exact heq.mono (compl_subset_compl.mpr hheaders)

theorem Holds.copied_outside (hh : Holds h bs) {q k : Nat}
    (hp : (p, size) ∈ allocations 29 heapStart bs) (hq : (q, k) ∈ allocations 29 heapStart bs)
    (hne : p ≠ q) (hroom : size ≤ k) : EqOn (h.copied q p).mem h.mem arenaBytesᶜ := by
  obtain ⟨hlo, hhi⟩ := le_of_mem_allocations 29 hq
  rw [hh.arena.fills] at hhi
  refine (hh.copied hp hq hne hroom).2.1.mono (compl_subset_compl.mpr fun x hx => ?_)
  have := hx.1
  have := hx.2
  exact ⟨by omega, by omega⟩

theorem Holds.krealloc_outside (hh : Holds h bs) (hp : (p, size) ∈ allocations 29 heapStart bs)
    (hn : n ≤ 2 ^ 32 - 16) (hret : Returns (fun fuel => krealloc fuel h p n) (h', r)) :
    EqOn h'.mem h.mem arenaBytesᶜ := by
  have hptr : p ∈ usedPtrs 29 heapStart bs := List.mem_map.mpr ⟨_, hp, rfl⟩
  rcases hh.krealloc_run hp hret with
    ⟨-, -, hfree⟩ | ⟨-, -, rfl, -⟩ | ⟨hlt, h1, hret1, hnull, hfree⟩
  · exact hh.kfree_outside hptr hfree
  · exact eqOn_refl _ _
  · have hout := hh.outcome hret1
    by_cases hr : r = 0
    · rw [hnull hr]
      exact hout.outside hh
    · cases hout with
      | refused => exact absurd rfl hr
      | @served pre post b hn0 hfit =>
        have hout := Outcome.served (h := h) (a := heapAlignment) hn0 hfit
        have hroom := le_takenSize_roundedSize hn hfit.fits
        have hnew := Holds.mem_allocations_allocated hfit
        have hold := (Holds.allocations_allocated hfit).mem_iff.mpr (.tail _ hp)
        have hne : p ≠ heapStart + extent 29 pre + 29 := fun heq =>
          (hh.take_exchange hfit).fresh hr (heq ▸ hptr)
        have hafter := hh.allocated hfit
        obtain ⟨hcopied, hused⟩ := hout.holds_copied hh hr hp hn hlt hafter
        exact (hcopied.kfree_outside hused (hfree hr)).trans
          ((hafter.copied_outside hold hnew hne (by omega)).trans (hout.outside hh))

end Outside

/-- Code that began with `h0` holding `bs` has come to `h`, where it owns `owned`. -/
structure Borrowed (h0 : Heap) (bs : List Block) (h : Heap) (owned : List (Nat × Nat)) : Prop where
  blocks : ∃ cs, Holds h cs ∧
    (allocations 29 heapStart cs).Perm (owned ++ allocations 29 heapStart bs)
  kept : EqOn h.mem h0.mem (usedBytes 29 heapStart bs ∪ arenaBytesᶜ)

/-- Some free block has room for `n` bytes. -/
def Roomy (h : Heap) (n : Nat) : Prop := ∃ bs, Holds h bs ∧ ∃ b ∈ bs, Fits n b

/-- What a call that may allocate `n` bytes came to: nothing changed, or a new piece. -/
inductive Answered (h0 : Heap) (bs : List Block) (before rest : List (Nat × Nat)) (n : Nat) :
    Heap × Nat → Prop
  | refused {h : Heap} (_ : Borrowed h0 bs h before) : Answered h0 bs before rest n (h, 0)
  | served {h : Heap} {r k : Nat} (_ : r ≠ 0) (_ : n ≤ k)
      (_ : Borrowed h0 bs h ((r, k) :: rest)) : Answered h0 bs before rest n (h, r)

section Exchange
variable {h0 h h' : Heap} {bs cs ds : List Block} {owned rest : List (Nat × Nat)} {n p k r : Nat}

theorem Exchange.allocations_perm (hex : Exchange h cs p r h' ds) :
    (allocations 29 heapStart ds).Perm ((if r = 0 then [] else [(r, blockSize h'.mem r)]) ++
      (allocations 29 heapStart cs).filter fun x => x.1 != p) := by
  have hnodup := usedPtrs_nodup 29 (by decide) heapStart cs
  have hkept : (allocations 29 heapStart cs).filter (fun x => x.1 != p) =
      ((usedPtrs 29 heapStart cs).erase p).map fun q => (q, blockSize h'.mem q) := by
    rw [hnodup.erase_eq_filter, usedPtrs, List.filter_map, List.map_map]
    conv_lhs => rw [← List.map_id (List.filter _ _)]
    refine List.map_congr_left fun x hx => ?_
    obtain ⟨hx, hne⟩ := List.mem_filter.mp hx
    have hkeep := (hex.keeps x.1 x.2 (by simpa using hne) hx).1
    rw [Function.comp_apply, (hex.holds.allocation hkeep).2]
    rfl
  rw [hkept, hex.holds.allocations_eq]
  refine (hex.ptrs.map fun q => (q, blockSize h'.mem q)).trans (.of_eq ?_)
  rw [List.map_append]
  split_ifs <;> rfl

theorem exists_of_mem_usedBytes {hdr a x : Nat} {bs : List Block} (hx : x ∈ usedBytes hdr a bs) :
    ∃ y ∈ allocations hdr a bs, x ∈ Ico y.1 (y.1 + y.2) := by
  induction bs generalizing a with
  | nil => exact hx.elim
  | cons b bs ih =>
    rw [allocations]
    rcases hx with hx | hx
    · cases hb : b.free with
      | true =>
        rw [hb, if_pos rfl] at hx
        exact hx.elim
      | false =>
        rw [hb, if_neg (by decide), ← Nat.add_assoc] at hx
        exact ⟨(a + hdr, b.size), by simp, hx⟩
    · obtain ⟨y, hy, hin⟩ := ih hx
      exact ⟨y, List.mem_append_right _ hy, hin⟩

/-- A call that gives up a piece of one's own, or none, changes nothing else. -/
theorem Borrowed.exchange (hb : Borrowed h0 bs h owned) (hex : Exchange h cs p r h' ds)
    (hout : EqOn h'.mem h.mem arenaBytesᶜ)
    (hrest : ((allocations 29 heapStart cs).filter fun x => x.1 != p).Perm
      (rest ++ allocations 29 heapStart bs)) :
    Borrowed h0 bs h' ((if r = 0 then [] else [(r, blockSize h'.mem r)]) ++ rest) := by
  refine ⟨⟨ds, hex.holds, ?_⟩, fun x hx => ?_⟩
  · rw [List.append_assoc]
    exact hex.allocations_perm.trans (hrest.append_left _)
  · refine Eq.trans ?_ (hb.kept hx)
    rcases hx with hx | hx
    · obtain ⟨y, hy, hin⟩ := exists_of_mem_usedBytes hx
      obtain ⟨hmem, hne⟩ := List.mem_filter.mp (hrest.mem_iff.mpr (List.mem_append_right _ hy))
      exact (hex.keeps y.1 y.2 (by simpa using hne) hmem).2 hin
    · exact hout hx

theorem Borrowed.filter_owned (hb : Borrowed h0 bs h ((p, k) :: rest)) (hholds : Holds h cs) :
    ((allocations 29 heapStart cs).filter fun x => x.1 != p).Perm
      (rest ++ allocations 29 heapStart bs) ∧ (p, k) ∈ allocations 29 heapStart cs := by
  obtain ⟨cs', hholds', hperm⟩ := hb.blocks
  obtain rfl := hholds.unique hholds'
  have hnodup := (hperm.map Prod.fst).nodup_iff.mp (usedPtrs_nodup 29 (by decide) heapStart cs)
  rw [List.cons_append, List.map_cons, List.nodup_cons] at hnodup
  have hrest : (rest ++ allocations 29 heapStart bs).filter (fun x => x.1 != p) =
      rest ++ allocations 29 heapStart bs := by
    refine List.filter_eq_self.mpr fun x hx => ?_
    have hne : x.1 ≠ p := fun heq => hnodup.1 (List.mem_map.mpr ⟨x, hx, heq⟩)
    simpa using hne
  refine ⟨(hperm.filter _).trans (.of_eq ?_), hperm.mem_iff.mpr (.head _)⟩
  rw [List.cons_append, List.filter_cons_of_neg (by simp), hrest]

theorem Borrowed.filter_zero (hb : Borrowed h0 bs h owned) (hholds : Holds h cs) :
    ((allocations 29 heapStart cs).filter fun x => x.1 != 0).Perm
      (owned ++ allocations 29 heapStart bs) := by
  obtain ⟨cs', hholds', hperm⟩ := hb.blocks
  obtain rfl := hholds.unique hholds'
  have hall : (allocations 29 heapStart cs).filter (fun x => x.1 != 0) =
      allocations 29 heapStart cs :=
    List.filter_eq_self.mpr fun x hx => by simpa using ne_zero_of_mem_allocations hx
  rwa [hall]

end Exchange

section Rules
variable {h0 h : Heap} {bs : List Block} {owned owned' rest : List (Nat × Nat)} {n p k x : Nat}

theorem Holds.print (hh : Holds h bs) (calls : Console) : Holds (h.print calls) bs :=
  ⟨hh.initialized, hh.head, hh.linked, hh.arena⟩

theorem Holds.borrowed (hh : Holds h bs) : Borrowed h bs h [] :=
  ⟨⟨bs, hh, .refl _⟩, eqOn_refl _ _⟩

theorem Borrowed.perm (hb : Borrowed h0 bs h owned) (hperm : owned.Perm owned') :
    Borrowed h0 bs h owned' := by
  obtain ⟨cs, hholds, hall⟩ := hb.blocks
  exact ⟨⟨cs, hholds, hall.trans (hperm.append_right _)⟩, hb.kept⟩

theorem Borrowed.holds (hb : Borrowed h0 bs h []) (hh : Holds h0 bs) : Holds h bs := by
  obtain ⟨cs, hholds, hall⟩ := hb.blocks
  obtain rfl := hholds.eq_of_allocations hh hall
  exact hholds

theorem Borrowed.print (hb : Borrowed h0 bs h owned) (calls : Console) :
    Borrowed h0 bs (h.print calls) owned := by
  obtain ⟨cs, hholds, hall⟩ := hb.blocks
  exact ⟨⟨cs, hholds.print calls, hall⟩, hb.kept⟩

theorem Roomy.print (hr : Roomy h n) (calls : Console) : Roomy (h.print calls) n := by
  obtain ⟨cs, hholds, hfit⟩ := hr
  exact ⟨cs, hholds.print calls, hfit⟩

theorem Borrowed.answered (hb : Borrowed h0 bs h owned) {h' : Heap} {r : Nat} {cs : List Block}
    (hholds : Holds h cs) (hout : Outcome h cs n heapAlignment h' r) (hn : n ≤ 2 ^ 32 - 16) :
    Answered h0 bs owned owned n (h', r) := by
  obtain ⟨ds, hex⟩ := hout.exchange hholds
  have hnext := hb.exchange hex (hout.outside hholds) (hb.filter_zero hholds)
  have hlarge := hout.honoured hholds (by decide) (.inr (.inl (roundable_heapAlignment.mpr hn)))
  by_cases hr : r = 0
  · subst hr
    exact .refused hnext
  · rw [if_neg hr] at hnext
    exact .served hr (hlarge.1 hr) hnext

theorem Outcome.roomy {h' : Heap} {r s : Nat} {cs : List Block} (hholds : Holds h cs)
    (hout : Outcome h cs n heapAlignment h' r) (hn : n ≠ 0)
    (hroom : ∃ b ∈ cs, Fits s b) (hs : roundedSize n heapAlignment + 45 ≤ s) :
    r ≠ 0 ∧ Roomy h' (s - (roundedSize n heapAlignment + 29)) := by
  obtain ⟨c, hc, hfree, hle⟩ := hroom
  have hfits : Fits (roundedSize n heapAlignment) c := ⟨hfree, by omega⟩
  refine ⟨hout.ne_zero hn hc hfits, ?_⟩
  cases hout with
  | refused hwhy => exact absurd hfits (hwhy.resolve_left hn c hc)
  | @served pre post b _ hfit =>
    refine ⟨_, hholds.allocated hfit, ?_⟩
    rw [hfit.split, List.mem_append, List.mem_cons] at hc
    rcases hc with hc | rfl | hc
    · exact ⟨c, by simp [hc], hfree, by omega⟩
    · refine ⟨⟨c.size - roundedSize n heapAlignment - 29, true⟩, ?_, rfl, by dsimp only; omega⟩
      rw [carve, if_neg (by omega)]
      simp
    · exact ⟨c, by simp [hc], hfree, by omega⟩

theorem Borrowed.kmalloc (hb : Borrowed h0 bs h owned) (hn0 : n ≠ 0) (hn : n ≤ 2 ^ 32 - 16) :
    (h.kmalloc n).Yields fun a => Answered h0 bs owned owned n a ∧
      (a.2 ≠ 0 → ∀ i < n, a.1.mem (a.2 + i) = 0) ∧
      ∀ s, roundedSize n heapAlignment + 45 ≤ s → Roomy h s →
        a.2 ≠ 0 ∧ Roomy a.1 (s - (roundedSize n heapAlignment + 29)) := by
  obtain ⟨cs, hholds, -⟩ := hb.blocks
  obtain ⟨h', r, hret, hout⟩ := hholds.exists_outcome n heapAlignment
  refine ⟨(h', r), hret, hb.answered hholds hout hn, fun hr i hi => ?_, fun s hs hroom => ?_⟩
  · have hle := le_roundedSize (by decide) (roundable_heapAlignment.mpr hn)
    cases hout with
    | refused => exact absurd rfl hr
    | served => exact allocMem_cleared _ _ _ (by omega)
  · obtain ⟨cs', hholds', hfit⟩ := hroom
    obtain rfl := hholds.unique hholds'
    exact hout.roomy hholds hn0 hfit hs

theorem Borrowed.kcalloc {m : Nat} (hb : Borrowed h0 bs h owned) (hn0 : m * n ≠ 0)
    (hn : m * n ≤ 2 ^ 32 - 16) :
    (h.kcalloc m n).Yields fun a => Answered h0 bs owned owned (m * n) a ∧
      (a.2 ≠ 0 → ∀ i < m * n, a.1.mem (a.2 + i) = 0) ∧
      ∀ s, roundedSize (m * n) heapAlignment + 45 ≤ s → Roomy h s → a.2 ≠ 0 := by
  obtain ⟨a, hret, hans, hzero, hroom⟩ := hb.kmalloc hn0 hn
  refine ⟨a, ?_, hans, hzero, fun s hs hr => (hroom s hs hr).1⟩
  simp only [Heap.kcalloc, kcalloc_eq _ (show m * n < 2 ^ 64 by omega)]
  exact hret

theorem Borrowed.kfree (hb : Borrowed h0 bs h ((p, k) :: rest)) :
    (h.kfree p).Yields fun h' => Borrowed h0 bs h' rest ∧
      ∃ a cs, p = a + 29 ∧ heapStart ≤ a ∧ a < heapStart + heapSize ∧ Holds h' cs ∧
        Stale h'.mem cs a := by
  obtain ⟨cs, hholds, -⟩ := hb.blocks
  obtain ⟨hrest, hmem⟩ := hb.filter_owned hholds
  have hptr : p ∈ usedPtrs 29 heapStart cs := List.mem_map.mpr ⟨_, hmem, rfl⟩
  obtain ⟨h', ds, hret, hex, -⟩ := hholds.exists_kfree hptr
  obtain ⟨h'', es, hret', hes, hstale⟩ := hholds.exists_kfree_stale hptr
  obtain rfl := hret.unique (kfree_mono h p) hret'
  obtain ⟨hlo, hhi⟩ := le_of_mem_allocations 29 hmem
  rw [hholds.arena.fills] at hhi
  refine ⟨h', hret, hb.exchange hex (hholds.kfree_outside hptr hret) hrest, p - 29, es, by omega,
    by omega, by omega, hes, hstale _ (.inr (by omega))⟩

theorem Borrowed.kfree_again {cs : List Block} {a : Nat} (hb : Borrowed h0 bs h owned)
    (hholds : Holds h cs) (hlo : heapStart ≤ a) (hhi : a < heapStart + heapSize)
    (hstale : Stale h.mem cs a) :
    (h.kfree (a + 29)).Yields fun h' => Borrowed h0 bs h' owned ∧ ∃ calls, h' = h.print calls := by
  obtain ⟨calls, hrun⟩ := hstale.kfree_eq hholds hlo hhi
  exact ⟨h.print calls, ⟨0, hrun 0⟩, hb.print calls, calls, rfl⟩

theorem Borrowed.krealloc (hb : Borrowed h0 bs h ((p, k) :: rest)) (hn0 : n ≠ 0)
    (hn : n ≤ 2 ^ 32 - 16) :
    (h.krealloc p n).Yields fun a => Answered h0 bs ((p, k) :: rest) rest n a ∧
      (a.2 ≠ 0 → ∀ i < min k n, a.1.mem (a.2 + i) = h.mem (p + i)) ∧
      ∀ s, roundedSize n heapAlignment ≤ s → Roomy h s → a.2 ≠ 0 := by
  obtain ⟨cs, hholds, -⟩ := hb.blocks
  obtain ⟨hrest, hmem⟩ := hb.filter_owned hholds
  obtain ⟨h', r, ds, hret, hex, hbytes, -⟩ := hholds.exists_krealloc hmem hn
  have hout := hholds.krealloc_outside hmem hn hret
  have hlarge := hholds.krealloc_honoured hmem hret
    (.inr (.inr (.inl (roundable_heapAlignment.mpr hn))))
  refine ⟨(h', r), hret, ?_, hbytes, fun s hs hroom hr => ?_⟩
  · by_cases hr : r = 0
    · subst hr
      rw [if_neg (by omega)] at hex
      exact .refused (hb.exchange hex hout (hb.filter_zero hholds))
    · rw [if_pos (.inr hr)] at hex
      have hnext := hb.exchange hex hout hrest
      rw [if_neg hr] at hnext
      exact .served hr (hlarge.1 hr) hnext
  · obtain ⟨cs', hholds', c, hc, hfree, hle⟩ := hroom
    obtain rfl := hholds.unique hholds'
    rcases hholds.krealloc_cases hmem hret with ⟨h0, -⟩ | ⟨-, -, -, rfl⟩ | ⟨-, h1, hout1, -⟩
    · exact hn0 h0
    · exact ne_zero_of_mem_allocations hmem hr
    · exact hout1.ne_zero hn0 hc ⟨hfree, hs.trans hle⟩ hr

theorem Borrowed.write (hb : Borrowed h0 bs h ((p, k) :: rest)) (hx : x ∈ Ico p (p + k))
    (v : UInt8) :
    Borrowed h0 bs { h with mem := Function.update h.mem x v } ((p, k) :: rest) := by
  obtain ⟨cs, hholds, hall⟩ := hb.blocks
  obtain ⟨hrest, hmem⟩ := hb.filter_owned hholds
  have hheader : x ∉ headerBytes 29 heapStart cs :=
    disjoint_right.mp (disjoint_headerBytes_usedBytes 29 _ _)
      (Ico_subset_of_mem_allocations 29 hmem hx)
  have hne : ∀ {s : Set Nat}, x ∉ s → EqOn (Function.update h.mem x v) h.mem s :=
    fun hxs y hy => Function.update_of_ne (fun heq => hxs (by rwa [heq] at hy)) _ _
  refine ⟨⟨cs, ⟨hholds.initialized, hholds.head, hholds.linked.congr (hne hheader).symm,
    hholds.arena⟩, hall⟩, (hne ?_).trans hb.kept⟩
  rintro (hin | hout)
  · obtain ⟨y, hy, hin⟩ := exists_of_mem_usedBytes hin
    obtain ⟨hy, hyp⟩ := List.mem_filter.mp (hrest.mem_iff.mpr (List.mem_append_right _ hy))
    have hapart : p + k ≤ y.1 ∨ y.1 + y.2 ≤ p :=
      allocations_apart 29 hmem hy (show y.1 ≠ p by simpa using hyp).symm
    have := hx.1
    have := hx.2
    have := hin.1
    have := hin.2
    omega
  · obtain ⟨hlo, hhi⟩ := le_of_mem_allocations 29 hmem
    rw [hholds.arena.fills] at hhi
    exact hout ⟨by have := hx.1; omega, by have := hx.2; omega⟩

end Rules

/-- What is owned are the pointers of `ps` that are not null. -/
def Holding (h0 : Heap) (bs : List Block) (h : Heap) (ps : List Nat) : Prop :=
  ∃ owned, Borrowed h0 bs h owned ∧ (owned.map Prod.fst).Perm (ps.filter (· ≠ 0))

section Holding
variable {h0 h : Heap} {bs : List Block} {ps qs : List Nat} {owned : List (Nat × Nat)} {n p : Nat}

theorem Holds.holding (hh : Holds h bs) : Holding h bs h [] := ⟨[], hh.borrowed, .refl _⟩

theorem Holding.borrowed (hb : Holding h0 bs h []) : Borrowed h0 bs h [] := by
  obtain ⟨owned, hb, hperm⟩ := hb
  obtain rfl := List.map_eq_nil_iff.mp hperm.eq_nil
  exact hb

theorem Holding.perm (hb : Holding h0 bs h ps) (hperm : ps.Perm qs) : Holding h0 bs h qs := by
  obtain ⟨owned, hb, howned⟩ := hb
  exact ⟨owned, hb, howned.trans (hperm.filter _)⟩

theorem Holding.print (hb : Holding h0 bs h ps) (calls : Console) :
    Holding h0 bs (h.print calls) ps := by
  obtain ⟨owned, hb, howned⟩ := hb
  exact ⟨owned, hb.print calls, howned⟩

theorem Holding.of_null (hb : Holding h0 bs h (0 :: ps)) : Holding h0 bs h ps := by
  obtain ⟨owned, hb, howned⟩ := hb
  exact ⟨owned, hb, by simpa using howned⟩

theorem Holding.kmalloc (hb : Holding h0 bs h ps) (hn0 : n ≠ 0) (hn : n ≤ 2 ^ 32 - 16) :
    (h.kmalloc n).Yields fun a => Holding h0 bs a.1 (a.2 :: ps) ∧
      ∀ s, roundedSize n heapAlignment + 45 ≤ s → Roomy h s →
        a.2 ≠ 0 ∧ Roomy a.1 (s - (roundedSize n heapAlignment + 29)) := by
  obtain ⟨owned, hb, howned⟩ := hb
  refine (hb.kmalloc hn0 hn).imp fun a ha => ⟨?_, ha.2.2⟩
  cases ha.1 with
  | refused hb => exact ⟨owned, hb, by simpa using howned⟩
  | @served h r k hr _ hb => exact ⟨_, hb, by simpa [hr] using howned⟩

theorem Holding.kfree (hb : Holding h0 bs h (p :: ps)) :
    (h.kfree p).Yields fun h' => Holding h0 bs h' ps := by
  by_cases hp : p = 0
  · subst hp
    exact ⟨h, ⟨0, rfl⟩, hb.of_null⟩
  · obtain ⟨owned, hb, howned⟩ := hb
    rw [List.filter_cons_of_pos (by simpa using hp)] at howned
    obtain ⟨⟨q, k⟩, hmem, rfl⟩ := List.mem_map.mp (howned.mem_iff.mpr (.head _))
    have hfront := List.perm_cons_erase hmem
    refine (hb.perm hfront).kfree.imp fun h' hb => ⟨_, hb.1, ?_⟩
    exact List.Perm.cons_inv ((hfront.map Prod.fst).symm.trans howned)

theorem Borrowed.trans {h1 : Heap} {cs : List Block} {more : List (Nat × Nat)}
    (hb : Borrowed h0 bs h1 owned) (hcs : Holds h1 cs) (hmore : Borrowed h1 cs h more) :
    Borrowed h0 bs h (more ++ owned) := by
  obtain ⟨cs', hholds, hall⟩ := hb.blocks
  obtain rfl := hholds.unique hcs
  obtain ⟨ds, hds, hall'⟩ := hmore.blocks
  refine ⟨⟨ds, hds, ?_⟩, fun x hx => (hmore.kept ?_).trans (hb.kept hx)⟩
  · rw [List.append_assoc]
    exact hall'.trans (hall.append_left _)
  · refine hx.imp_left fun hx => ?_
    obtain ⟨y, hy, hin⟩ := exists_of_mem_usedBytes hx
    exact Ico_subset_of_mem_allocations 29 (hall.mem_iff.mpr (List.mem_append_right _ hy)) hin

end Holding

end AlvOS.Kmalloc
