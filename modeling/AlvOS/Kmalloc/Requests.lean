import AlvOS.Kmalloc.Runs

/-! What a request obtains: when the block behind the answer is as large as was asked
for, and when the answer is a multiple of the alignment asked for.  Both fail on
some inputs; the conditions under which they hold are exact. -/

namespace AlvOS.Kmalloc
open BlockList Fuel

section Size
variable {s : State} {h h' : Heap} {bs : List Block} {n m a p r size : Nat}

def Honoured (bs : List Block) (n : Nat) (h' : Heap) (r : Nat) : Prop :=
  (r ≠ 0 → n ≤ blockSize h'.mem r) ∧ ((∀ b ∈ bs, ¬Fits n b) → r = 0)

/-- The request is empty, or its rounding fits 32 bits, or no free block holds even the
bytes that the rounding leaves of it. -/
def SafeRequest (bs : List Block) (n a : Nat) : Prop :=
  n = 0 ∨ Roundable n a ∨ ∀ b ∈ bs, ¬Fits (roundedSize n a) b

theorem Holds.not_fits (hh : Holds h bs) (hn : 2 ^ 31 < n) : ∀ b ∈ bs, ¬Fits n b := by
  rintro b hb ⟨-, hle⟩
  obtain ⟨pre, post, rfl⟩ := List.append_of_mem hb
  have hfills := hh.arena.fills
  have hheap := heapSize_eq
  rw [extent_append, extent_cons] at hfills
  omega

theorem Outcome.honoured (hh : Holds h bs) (hout : Outcome h bs n a h' r) (ha : a < 2 ^ 32)
    (hsafe : SafeRequest bs n a) : Honoured bs n h' r := by
  cases hout with
  | refused => exact ⟨fun hr => absurd rfl hr, fun _ => rfl⟩
  | @served pre post b hn hfit =>
    have hb : b ∈ bs := by simp [hfit.split]
    have hround : Roundable n a :=
      (hsafe.resolve_left hn).resolve_right fun hnone => hnone b hb hfit.fits
    have hle : n ≤ roundedSize n a := le_roundedSize ha hround
    have hmem := Holds.mem_allocations_allocated hfit
    have hroom := le_takenSize 29 16 hfit.fits
    refine ⟨fun _ => ?_, fun hnone => absurd ⟨hfit.fits.1, hle.trans hfit.fits.2⟩ (hnone b hb)⟩
    rw [((hh.allocated hfit).allocation hmem).2]
    omega

/-- A request is honoured exactly when it is safe: an unsafe one is answered with a
block although none is large enough. -/
theorem Outcome.honoured_iff (hh : Holds h bs) (hout : Outcome h bs n a h' r) (ha : a < 2 ^ 32) :
    Honoured bs n h' r ↔ SafeRequest bs n a := by
  refine ⟨fun hhon => ?_, hout.honoured hh ha⟩
  by_contra hbad
  simp only [SafeRequest, not_or, not_forall, not_not] at hbad
  obtain ⟨hn, hround, b, hb, hfit⟩ := hbad
  exact hout.ne_zero hn hb hfit (hhon.2 (hh.not_fits (lt_of_not_roundable ha hround)))

theorem Outcome.undersized (hh : Holds h bs) (hout : Outcome h bs n a h' r) (ha : a < 2 ^ 32)
    (hbad : ¬SafeRequest bs n a) : r ≠ 0 ∧ blockSize h'.mem r < n := by
  simp only [SafeRequest, not_or, not_forall, not_not] at hbad
  obtain ⟨hn, hround, b, hb, hfit⟩ := hbad
  have hr := hout.ne_zero hn hb hfit
  have hbig := lt_of_not_roundable ha hround
  cases hout with
  | refused => exact absurd rfl hr
  | @served pre post c _ hfirst =>
    have hmem := Holds.mem_allocations_allocated hfirst
    have htaken := (le_of_mem_allocations 29 hmem).2
    rw [((hh.allocated hfirst).arena.fills)] at htaken
    have hheap := heapSize_eq
    refine ⟨hr, ?_⟩
    rw [((hh.allocated hfirst).allocation hmem).2]
    omega

theorem Holds.kcalloc_cases (hh : Holds h bs)
    (hret : Returns (fun fuel => kcalloc fuel h m n) (h', r)) :
    (2 ^ 64 ≤ m * n ∧ r = 0) ∨ (m * n < 2 ^ 64 ∧ Outcome h bs (m * n) heapAlignment h' r) := by
  rcases Nat.lt_or_ge (m * n) (2 ^ 64) with hlt | hov
  · simp only [kcalloc_eq _ hlt] at hret
    exact .inr ⟨hlt, hh.outcome hret⟩
  · obtain ⟨-, rfl⟩ := Prod.mk.inj (hret.unique (kcalloc_mono h m n) ⟨0, kcalloc_refused 0 hov⟩)
    exact .inl ⟨hov, rfl⟩

theorem Holds.krealloc_run (hh : Holds h bs) (hp : (p, size) ∈ allocations 29 heapStart bs)
    (hret : Returns (fun fuel => krealloc fuel h p n) (h', r)) :
    (n = 0 ∧ r = 0 ∧ Returns (fun fuel => kfree fuel h p) h') ∨
      (n ≠ 0 ∧ n ≤ size ∧ h' = h ∧ r = p) ∨
      (size < n ∧ ∃ h1, Returns (fun fuel => kmalloc fuel h n) (h1, r) ∧ (r = 0 → h' = h1) ∧
        (r ≠ 0 → Returns (fun fuel => kfree fuel (h1.copied r p) p) h')) := by
  obtain ⟨fuel, hrun : krealloc fuel h p n = some (h', r)⟩ := hret
  rcases Nat.eq_zero_or_pos n with rfl | hpos
  · rw [krealloc_release fuel (ne_zero_of_mem_allocations hp)] at hrun
    obtain ⟨h1, hfree, hsome⟩ := Option.bind_eq_some_iff.mp hrun
    obtain ⟨rfl, rfl⟩ := Prod.mk.inj (Option.some.inj hsome)
    exact .inl ⟨rfl, rfl, fuel, hfree⟩
  by_cases hle : n ≤ size
  · rw [hh.krealloc_keep hp hpos.ne' hle] at hrun
    obtain ⟨rfl, rfl⟩ := Prod.mk.inj (Option.some.inj hrun)
    exact .inr (.inl ⟨hpos.ne', hle, rfl, rfl⟩)
  rw [hh.krealloc_grow hp (by omega)] at hrun
  obtain ⟨⟨h1, q⟩, hret1, hrest⟩ := Option.bind_eq_some_iff.mp hrun
  dsimp only at hrest
  split_ifs at hrest with hq
  · obtain ⟨rfl, rfl⟩ := Prod.mk.inj (Option.some.inj hrest)
    exact .inr (.inr ⟨by omega, h1, ⟨fuel, hq ▸ hret1⟩, fun _ => rfl, fun h => absurd rfl h⟩)
  · obtain ⟨h2, hfree, hsome⟩ := Option.bind_eq_some_iff.mp hrest
    obtain ⟨rfl, rfl⟩ := Prod.mk.inj (Option.some.inj hsome)
    exact .inr (.inr ⟨by omega, h1, ⟨fuel, hret1⟩, fun h => absurd h hq, fun _ => ⟨fuel, hfree⟩⟩)

theorem Holds.krealloc_cases (hh : Holds h bs) (hp : (p, size) ∈ allocations 29 heapStart bs)
    (hret : Returns (fun fuel => krealloc fuel h p n) (h', r)) :
    (n = 0 ∧ r = 0) ∨ (n ≠ 0 ∧ n ≤ size ∧ h' = h ∧ r = p) ∨
      (size < n ∧ ∃ h1, Outcome h bs n heapAlignment h1 r ∧ (r = 0 → h' = h1) ∧
        (r ≠ 0 → Returns (fun fuel => kfree fuel (h1.copied r p) p) h')) := by
  rcases hh.krealloc_run hp hret with ⟨hn, hr, -⟩ | hkeep | ⟨hlt, h1, hret1, hnull, hfree⟩
  · exact .inl ⟨hn, hr⟩
  · exact .inr (.inl hkeep)
  · exact .inr (.inr ⟨hlt, h1, hh.outcome hret1, hnull, hfree⟩)

theorem Holds.krealloc_honoured (hh : Holds h bs) (hp : (p, size) ∈ allocations 29 heapStart bs)
    (hret : Returns (fun fuel => krealloc fuel h p n) (h', r))
    (hsafe : n ≤ size ∨ SafeRequest bs n heapAlignment) :
    (r ≠ 0 → n ≤ blockSize h'.mem r) ∧ (size < n → (∀ b ∈ bs, ¬Fits n b) → r = 0) := by
  rcases hh.krealloc_cases hp hret with ⟨rfl, rfl⟩ | ⟨-, hle, rfl, rfl⟩ | ⟨hlt, h1, hout, -, hfree⟩
  · exact ⟨fun h => absurd rfl h, fun _ _ => rfl⟩
  · refine ⟨fun _ => ?_, fun hlt => by omega⟩
    rw [(hh.allocation hp).2]
    exact hle
  · have hsafe' := hsafe.resolve_left (by omega)
    refine ⟨fun hr => ?_, fun _ => (hout.honoured hh (by decide) hsafe').2⟩
    have hsize := (hout.honoured hh (by decide) hsafe').1 hr
    obtain ⟨bs1, hex⟩ := hout.exchange hh
    obtain ⟨k, hq⟩ : ∃ k, (r, k) ∈ allocations 29 heapStart bs1 := by
      have hmem := hex.ptrs.mem_iff.mpr (by simp [hr] : r ∈ _)
      obtain ⟨⟨_, k⟩, hk, rfl⟩ := List.mem_map.mp hmem
      exact ⟨k, hk⟩
    rw [(hex.holds.allocation hq).2] at hsize
    obtain ⟨h2, bs2, hret2, hex2, hkept, -⟩ := hex.move hq hp (by omega)
    rw [(hfree hr).unique (kfree_mono _ p) hret2, (hex2.holds.allocation hkept).2]
    exact hsize

end Size

/-- A request is honoured exactly when it is safe, whichever function makes it. -/
theorem request_size {s : State} (hs : heapSystem.Reachable s) : ∃ bs, Holds s.heap bs ∧
    (∀ n a h r, n < 2 ^ 64 → a < 2 ^ 32 →
      Returns (fun fuel => kmallocAligned fuel s.heap n a) (h, r) →
        (Honoured bs n h r ↔ SafeRequest bs n a)) ∧
    (∀ n h r, n < 2 ^ 64 → Returns (fun fuel => kmalloc fuel s.heap n) (h, r) →
        (Honoured bs n h r ↔ SafeRequest bs n heapAlignment)) ∧
    (∀ m n h r, m < 2 ^ 64 → n < 2 ^ 64 → Returns (fun fuel => kcalloc fuel s.heap m n) (h, r) →
        ((r ≠ 0 → m * n < 2 ^ 64) ∧ Honoured bs (m * n) h r ↔
          2 ^ 64 ≤ m * n ∨ SafeRequest bs (m * n) heapAlignment)) ∧
    (∀ n h r, n < 2 ^ 64 → Returns (fun fuel => krealloc fuel s.heap 0 n) (h, r) →
        (Honoured bs n h r ↔ SafeRequest bs n heapAlignment)) ∧
    ∀ p n h r, p ∈ s.live → n < 2 ^ 64 → Returns (fun fuel => krealloc fuel s.heap p n) (h, r) →
        ((r ≠ 0 → n ≤ blockSize h.mem r) ∧
            (blockSize s.heap.mem p < n → (∀ b ∈ bs, ¬Fits n b) → r = 0) ↔
          n ≤ blockSize s.heap.mem p ∨ SafeRequest bs n heapAlignment) := by
  obtain ⟨bs, ht⟩ := exists_tiles hs
  have hh := ht.holds
  refine ⟨bs, hh, ?_, ?_, ?_, ?_, ?_⟩
  · intro n a h r _ ha hret
    exact (hh.outcome hret).honoured_iff hh ha
  · intro n h r _ hret
    exact (hh.outcome hret).honoured_iff hh (by decide)
  · intro m n h r _ _ hret
    rcases hh.kcalloc_cases hret with ⟨hov, rfl⟩ | ⟨hlt, hout⟩
    · exact ⟨fun _ => .inl hov, fun _ => ⟨fun h => absurd rfl h, fun h => absurd rfl h, fun _ => rfl⟩⟩
    · rw [hout.honoured_iff hh (by decide)]
      exact ⟨fun h => .inr h.2, fun h => ⟨fun _ => hlt, h.resolve_left (Nat.not_le.mpr hlt)⟩⟩
  · intro n h r _ hret
    exact (hh.outcome hret).honoured_iff hh (by decide)
  · intro p n h r hp _ hret
    refine ⟨fun hhon => ?_, hh.krealloc_honoured (ht.allocation hp) hret⟩
    by_contra hbad
    simp only [SafeRequest, not_or, not_forall, not_not, Nat.not_le] at hbad
    obtain ⟨hlt, hn, hround, b, hb, hfit⟩ := hbad
    have hbig := lt_of_not_roundable (by decide) hround
    have hnull := hhon.2 hlt (hh.not_fits hbig)
    rcases hh.krealloc_cases (ht.allocation hp) hret with ⟨h0, -⟩ | ⟨-, hle, -⟩ | ⟨-, h1, hout, -⟩
    · exact hn h0
    · omega
    · exact hout.ne_zero hn hb hfit hnull

theorem request_size_holed : ∃ s h, heapSystem.Reachable s ∧ Holds s.heap holed ∧
    Returns (fun fuel => kmalloc fuel s.heap 16) (h, heapStart + 74) ∧
    (Honoured holed 16 h (heapStart + 74) ↔ SafeRequest holed 16 heapAlignment) := by
  obtain ⟨s, hs, hholds⟩ := exists_holed
  obtain ⟨bs, hh, -, hkmalloc, -⟩ := request_size hs
  obtain rfl := hh.unique hholds
  have hret := returns_holed hholds
  exact ⟨s, _, hs, hholds, hret, hkmalloc 16 _ _ (by decide) hret⟩

/-- `kmalloc(2^32)` on a fresh heap answers with an empty block. -/
theorem request_size_failure :
    Returns (fun fuel => kmalloc fuel State.fresh.heap (2 ^ 32))
      ((State.served 0).heap, heapStart + 29) ∧
    blockSize (State.served 0).heap.mem (heapStart + 29) = 0 ∧
    ¬∀ s, heapSystem.Reachable s → ∀ n h r, n < 2 ^ 64 →
      Returns (fun fuel => kmalloc fuel s.heap n) (h, r) → r ≠ 0 → n ≤ blockSize h.mem r := by
  have hround : roundedSize (2 ^ 32) heapAlignment = 0 := by decide
  have hret := fresh_returns (n := 2 ^ 32) (a := heapAlignment) (by decide) (by decide)
  have hfit := fresh_firstFit 0 (by decide)
  have hmem := Holds.mem_allocations_allocated hfit
  have hempty : blockSize (State.served 0).heap.mem (heapStart + 29) = 0 :=
    (((heapInit_holds _).allocated hfit).allocation hmem).2
  rw [hround] at hret
  refine ⟨hret, hempty, fun hclaim => ?_⟩
  have hlarge := hclaim _ fresh_reachable _ _ _ (by decide) hret (by decide)
  rw [hempty] at hlarge
  exact absurd hlarge (by decide)

section Alignment
variable {s : State} {h h' : Heap} {bs : List Block} {n a c r : Nat}

/-- If a free block has room for the request rounded to `a`, the payload of the first
one, after its own header and the blocks before it, starts at a multiple of `c`. -/
def AlignedFit (bs : List Block) (n a c : Nat) : Prop :=
  ∀ pre b post, FirstFit (roundedSize n a) bs pre b post →
    c ∣ heapStart + 29 * (pre.length + 1) + (pre.map Block.size).sum

theorem Outcome.dvd_iff (hout : Outcome h bs n a h' r) :
    (r ≠ 0 → c ∣ r) ↔ n = 0 ∨ AlignedFit bs n a c := by
  cases hout with
  | refused hwhy =>
    refine ⟨fun _ => hwhy.imp_right fun hnone pre b post hfit => ?_, fun _ h => absurd rfl h⟩
    exact absurd hfit.fits (hnone b (by simp [hfit.split]))
  | @served pre post b hn hfit =>
    have hptr : heapStart + extent 29 pre + 29 =
        heapStart + 29 * (pre.length + 1) + (pre.map Block.size).sum := by
      rw [extent_eq]
      omega
    rw [hptr]
    constructor
    · intro hdvd
      refine .inr fun pre' b' post' hfit' => ?_
      obtain ⟨rfl, -⟩ := hfit.unique hfit'
      exact hdvd (by have := heapStart_eq; omega)
    · exact fun hcond _ => hcond.resolve_left hn _ _ _ hfit

end Alignment

/-- An answer is aligned exactly when the first free block with room is, which the
number and sizes of the blocks before it decide. -/
theorem request_alignment {s : State} (hs : heapSystem.Reachable s) : ∃ bs, Holds s.heap bs ∧
    (∀ n k h r, 0 < n → n < 2 ^ 64 → k < 32 →
      Returns (fun fuel => kmallocAligned fuel s.heap n (2 ^ k)) (h, r) →
        ((r ≠ 0 → 2 ^ k ∣ r) ↔ AlignedFit bs n (2 ^ k) (2 ^ k))) ∧
    (∀ n h r, n < 2 ^ 64 → Returns (fun fuel => kmalloc fuel s.heap n) (h, r) →
        ((r ≠ 0 → heapAlignment ∣ r) ↔ n = 0 ∨ AlignedFit bs n heapAlignment heapAlignment)) ∧
    (∀ m n h r, m < 2 ^ 64 → n < 2 ^ 64 → Returns (fun fuel => kcalloc fuel s.heap m n) (h, r) →
        ((r ≠ 0 → heapAlignment ∣ r) ↔ 2 ^ 64 ≤ m * n ∨ m * n = 0 ∨
          AlignedFit bs (m * n) heapAlignment heapAlignment)) ∧
    (∀ n h r, n < 2 ^ 64 → Returns (fun fuel => krealloc fuel s.heap 0 n) (h, r) →
        ((r ≠ 0 → heapAlignment ∣ r) ↔ n = 0 ∨ AlignedFit bs n heapAlignment heapAlignment)) ∧
    ∀ p n h r, p ∈ s.live → n < 2 ^ 64 → Returns (fun fuel => krealloc fuel s.heap p n) (h, r) →
        ((r ≠ 0 → heapAlignment ∣ r) ↔ n = 0 ∨
          (n ≤ blockSize s.heap.mem p ∧ heapAlignment ∣ p) ∨
          (blockSize s.heap.mem p < n ∧ AlignedFit bs n heapAlignment heapAlignment)) := by
  obtain ⟨bs, ht⟩ := exists_tiles hs
  have hh := ht.holds
  refine ⟨bs, hh, ?_, ?_, ?_, ?_, ?_⟩
  · intro n k h r hn _ _ hret
    rw [(hh.outcome hret).dvd_iff, or_iff_right hn.ne']
  · intro n h r _ hret
    exact (hh.outcome hret).dvd_iff
  · intro m n h r _ _ hret
    rcases hh.kcalloc_cases hret with ⟨hov, rfl⟩ | ⟨hlt, hout⟩
    · exact ⟨fun _ => .inl hov, fun _ h => absurd rfl h⟩
    · rw [hout.dvd_iff, or_iff_right (Nat.not_le.mpr hlt)]
  · intro n h r _ hret
    exact (hh.outcome hret).dvd_iff
  · intro p n h r hp _ hret
    have hp0 : p ≠ 0 := ne_zero_of_mem_allocations (ht.allocation hp)
    rcases hh.krealloc_cases (ht.allocation hp) hret with
      ⟨rfl, rfl⟩ | ⟨hn, hle, -, hr⟩ | ⟨hlt, h1, hout, -⟩
    · exact ⟨fun _ => .inl rfl, fun _ h => absurd rfl h⟩
    · rw [hr]
      simp [hn, hle, hp0, Nat.not_lt.mpr hle]
    · have hnle : ¬n ≤ blockSize s.heap.mem p := by omega
      rw [hout.dvd_iff]
      simp [hnle, hlt]

theorem request_alignment_holed : ∃ s, heapSystem.Reachable s ∧ Holds s.heap holed ∧
    ((heapStart + 74 ≠ 0 → heapAlignment ∣ heapStart + 74) ↔
      16 = 0 ∨ AlignedFit holed 16 heapAlignment heapAlignment) := by
  obtain ⟨s, hs, hholds⟩ := exists_holed
  obtain ⟨bs, hh, -, hkmalloc, -⟩ := request_alignment hs
  obtain rfl := hh.unique hholds
  exact ⟨s, hs, hholds, hkmalloc 16 _ _ (by decide) (returns_holed hholds)⟩

/-- The very first allocation is answered with `0x30001D`. -/
theorem request_alignment_failure :
    Returns (fun fuel => kmalloc fuel State.fresh.heap 32) ((State.served 32).heap, 0x30001D) ∧
    ¬∀ s, heapSystem.Reachable s → ∀ n h r, n < 2 ^ 64 →
      Returns (fun fuel => kmalloc fuel s.heap n) (h, r) → r ≠ 0 → heapAlignment ∣ r := by
  have hret := fresh_returns (n := 32) (a := heapAlignment) (by decide) (by decide)
  refine ⟨hret, fun hclaim => ?_⟩
  exact absurd (hclaim _ fresh_reachable _ _ _ (by decide) hret (by decide)) (by decide)

end AlvOS.Kmalloc
