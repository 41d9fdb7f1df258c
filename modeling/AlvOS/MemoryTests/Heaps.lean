import AlvOS.Kmalloc.Validate
import AlvOS.MemoryTests.Defs

/-! The tests of the heap.  A test that ends with blocks of its own has reported a failure; all
but the first two give everything back on whatever heap they run. -/

namespace AlvOS.Kmalloc
open ByteMemory BlockList

section Roomy
variable {h : Heap} {bs : List Block} {n s t : Nat}

theorem Roomy.mono (hr : Roomy h s) (hle : t ≤ s) : Roomy h t := by
  obtain ⟨bs, hh, b, hb, hfree, hsize⟩ := hr
  exact ⟨bs, hh, b, hb, hfree, hle.trans hsize⟩

theorem roundedSize_lt (hn : n ≤ 2 ^ 32 - 16) : roundedSize n heapAlignment < n + 16 := by
  rw [roundedSize_heapAlignment hn]
  omega

theorem Roomy.served {h' : Heap} {r : Nat} (hn : n ≤ 2 ^ 32 - 16)
    (hserved : ∀ s, roundedSize n heapAlignment + 45 ≤ s → Roomy h s →
      r ≠ 0 ∧ Roomy h' (s - (roundedSize n heapAlignment + 29)))
    (hs : n + 64 ≤ s) (hr : Roomy h s) : r ≠ 0 ∧ Roomy h' (s - (n + 44)) := by
  have hlt := roundedSize_lt hn
  obtain ⟨hne, hroom⟩ := hserved s (by omega) hr
  exact ⟨hne, hroom.mono (by omega)⟩

theorem Borrowed.roomy {h0 h' : Heap} {owned : List (Nat × Nat)} (hb : Borrowed h0 bs h owned)
    (hb' : Borrowed h0 bs h' owned) (hr : Roomy h n) : Roomy h' n := by
  obtain ⟨cs, hcs, hall⟩ := hb.blocks
  obtain ⟨ds, hds, hall'⟩ := hb'.blocks
  obtain ⟨es, hes, hfit⟩ := hr
  obtain rfl := hcs.unique hes
  obtain rfl := hcs.eq_of_allocations hds (hall.trans hall'.symm)
  exact ⟨cs, hds, hfit⟩

theorem Holds.heapValidate_eq (hh : Holds h bs) : heapValidate h = (h, true) := by
  have hlist := hh.linked.blocksFrom (by decide) .nil
  rw [hh.headOr, List.append_nil] at hlist
  have hvalid := hh.linked.valid (le_refl _) (by rw [hh.arena.fills])
  have hnone : findInvalid h.mem 10000 h.heapHead = none := by
    rw [findInvalid_eq hlist, List.find?_eq_none]
    intro a ha
    simp [hvalid a (List.mem_of_mem_take ha)]
  rw [heapValidate, if_neg (by simp [hh.initialized]), hnone]

end Roomy

end AlvOS.Kmalloc

namespace AlvOS.MemoryTests
open ByteMemory BlockList Word Fuel Kmalloc Function

/-! ## Calls -/

structure Bench.Beside (b b' : Bench) : Prop where
  pmm : b'.pmm = b.pmm
  failed : b'.testsFailed = b.testsFailed

section Calls
variable {b b' b'' : Bench} {n : Nat}

theorem Bench.Beside.refl (b : Bench) : b.Beside b := ⟨rfl, rfl⟩

theorem Bench.Beside.trans (h : b.Beside b') (h' : b'.Beside b'') : b.Beside b'' :=
  ⟨h'.pmm.trans h.pmm, h'.failed.trans h.failed⟩

theorem Bench.onHeap_yields (call : Heap → Comp (Heap × Nat)) {P : Heap × Nat → Prop}
    (h : (call b.heap).Yields P) :
    (b.onHeap call).Yields fun a => P (a.1.heap, a.2) ∧ b.Beside a.1 :=
  h.bind fun _ ha => Comp.yields_pure.mpr ⟨ha, rfl, rfl⟩

theorem Bench.kfree_yields {p : Nat} {P : Heap → Prop} (h : (b.heap.kfree p).Yields P) :
    (b.kfree p).Yields fun b' => P b'.heap ∧ b.Beside b' :=
  h.bind fun _ ha => Comp.yields_pure.mpr ⟨ha, rfl, rfl⟩

theorem Bench.heapGetStats_yields {bs : List Block} (hh : Holds b.heap bs) (stats : HeapStats) :
    (b.heapGetStats stats).Yields fun s => s = report b.heap bs :=
  ⟨_, hh.returns_report stats, rfl⟩

end Calls

/-! ## What a test comes to -/

/-- Between `b`, whose heap held `bs`, and `b'` there were `failures` failed tests, and `owned`
has not been given back. -/
structure Bench.Ends (b : Bench) (bs : List Block) (b' : Bench) (owned : List (Nat × Nat))
    (failures : Nat) : Prop where
  pmm : b'.pmm = b.pmm
  failed : b'.testsFailed = b.testsFailed + failures
  borrowed : Borrowed b.heap bs b'.heap owned

def testRoom : Nat := 32768

def Bench.Tested (b : Bench) (bs : List Block) (b' : Bench) : Prop :=
  ∃ owned failures, b.Ends bs b' owned failures ∧ (failures = 0 → owned = []) ∧
    (Roomy b.heap testRoom → failures = 0)

def Bench.Restored (b : Bench) (bs : List Block) (b' : Bench) : Prop :=
  ∃ failures, b.Ends bs b' [] failures ∧ (Roomy b.heap testRoom → failures = 0)

section Ends
variable {b b1 b2 : Bench} {bs cs : List Block} {owned more : List (Nat × Nat)} {j k : Nat}

theorem Bench.Restored.tested (h : b.Restored bs b1) : b.Tested bs b1 := by
  obtain ⟨k, hends, hroom⟩ := h
  exact ⟨[], k, hends, fun _ => rfl, hroom⟩

theorem Bench.Beside.ends (h : b.Beside b1) (hb : Borrowed b.heap bs b1.heap owned) :
    b.Ends bs b1 owned 0 :=
  ⟨h.pmm, h.failed, hb⟩

theorem Bench.Ends.print (h : b.Ends bs b1 owned k) (calls : Console) :
    b.Ends bs (b1.print calls) owned k :=
  ⟨h.pmm, h.failed, h.borrowed.print calls⟩

theorem Bench.Ends.pass (h : b.Ends bs b1 owned k) (name : String) :
    b.Ends bs (b1.testPrintPass name) owned k :=
  ⟨h.pmm, h.failed, h.borrowed.print _⟩

theorem Bench.Ends.fail (h : b.Ends bs b1 owned k) (name : String) :
    b.Ends bs (b1.testPrintFail name) owned (k + 1) :=
  ⟨h.pmm, congrArg (· + 1) h.failed, h.borrowed.print _⟩

theorem Bench.Ends.trans (h : b.Ends bs b1 owned j) (hcs : Holds b1.heap cs)
    (h' : b1.Ends cs b2 more k) : b.Ends bs b2 (more ++ owned) (j + k) :=
  ⟨h'.pmm.trans h.pmm, by rw [h'.failed, h.failed, Nat.add_assoc], h.borrowed.trans hcs h'.borrowed⟩

theorem Bench.Ends.roomy (h : b.Ends bs b1 [] k) (hh : Holds b.heap bs) {n : Nat}
    (hroom : Roomy b.heap n) : Roomy b1.heap n := by
  obtain ⟨bs', hh', hfit⟩ := hroom
  obtain rfl := hh.unique hh'
  exact ⟨bs, h.borrowed.holds hh, hfit⟩

theorem Bench.Tested.trans (h : b.Tested bs b1) (hh : Holds b.heap bs)
    (h' : ∀ cs, Holds b1.heap cs → b1.Tested cs b2) : b.Tested bs b2 := by
  obtain ⟨owned, j, hends, hleak, hroom⟩ := h
  obtain ⟨cs, hcs, -⟩ := hends.borrowed.blocks
  obtain ⟨more, k, hends', hleak', hroom'⟩ := h' cs hcs
  refine ⟨more ++ owned, j + k, hends.trans hcs hends', fun hzero => ?_, fun hr => ?_⟩
  · rw [hleak (by omega), hleak' (by omega)]
    rfl
  · obtain rfl := hroom hr
    obtain rfl := hleak rfl
    rw [hroom' (hends.roomy hh hr)]

theorem Bench.Tested.print (h : b.Tested bs b1) (calls : Console) :
    b.Tested bs (b1.print calls) := by
  obtain ⟨owned, k, hends, hrest⟩ := h
  exact ⟨owned, k, hends.print calls, hrest⟩

theorem Bench.begins (hh : Holds b.heap bs) (message : String) :
    b.Beside (b.testPrintInfo message) ∧ Borrowed b.heap bs (b.testPrintInfo message).heap [] ∧
      (Roomy b.heap testRoom → Roomy (b.testPrintInfo message).heap testRoom) :=
  ⟨⟨rfl, rfl⟩, hh.borrowed.print _, fun hr => hr.print _⟩

end Ends

section Single
variable {b : Bench} {bs : List Block}

theorem testKcalloc_restored (hh : Holds b.heap bs) :
    (testKcalloc b).Yields fun b' => b.Restored bs b' := by
  rw [testKcalloc]
  obtain ⟨hbeside, hstart, hroomy⟩ := Bench.begins hh "Test: kcalloc..."
  generalize b.testPrintInfo "Test: kcalloc..." = b1 at hbeside hstart hroomy ⊢
  have hcall := hstart.kcalloc (m := 50) (n := 4) (by decide) (by decide)
  refine (Bench.onHeap_yields (·.kcalloc 50 4) hcall).bind ?_
  rintro ⟨b2, array⟩ ⟨⟨hans, hzero, hroom⟩, hcalled⟩
  have hbeside := hbeside.trans hcalled
  dsimp only at hans hzero hroom hbeside ⊢
  cases hans with
  | refused hb =>
    rw [if_pos rfl]
    exact Comp.yields_pure.mpr ⟨1, (hbeside.ends hb).fail _, fun hr =>
      absurd rfl (hroom testRoom (by decide) (hroomy hr))⟩
  | served hne _ hb =>
    rw [if_neg hne]
    have hall : ((List.range 50).all fun i => readLE b2.heap.mem (array + 4 * i) 4 = 0) = true := by
      rw [List.all_eq_true]
      intro i hi
      rw [List.mem_range] at hi
      rw [decide_eq_true_eq]
      refine readLE_eq_zero fun x h1 h2 => ?_
      have hbyte := hzero hne (x - array) (by omega)
      rwa [Nat.add_sub_cancel' (by omega)] at hbyte
    refine (Bench.kfree_yields hb.kfree).bind fun b3 hb3 => Comp.yields_pure.mpr ?_
    rw [hall, if_pos rfl]
    exact ⟨0, ((hbeside.trans hb3.2).ends hb3.1.1).pass _, fun _ => rfl⟩

theorem testDoubleFree_restored (hh : Holds b.heap bs) :
    (testDoubleFree b).Yields fun b' => b.Restored bs b' := by
  rw [testDoubleFree]
  obtain ⟨hbeside, hstart, hroomy⟩ := Bench.begins hh "Test: Detección de doble liberación..."
  generalize b.testPrintInfo "Test: Detección de doble liberación..." = b1 at hbeside hstart hroomy ⊢
  have hcall := hstart.kmalloc (n := 100) (by decide) (by decide)
  refine (Bench.onHeap_yields (·.kmalloc 100) hcall).bind ?_
  rintro ⟨b2, ptr⟩ ⟨⟨hans, -, hroom⟩, hcalled⟩
  have hbeside := hbeside.trans hcalled
  dsimp only at hans hroom hbeside ⊢
  cases hans with
  | refused hb =>
    rw [if_pos rfl]
    exact Comp.yields_pure.mpr ⟨1, (hbeside.ends hb).fail _, fun hr =>
      absurd rfl (hroom testRoom (by decide) (hroomy hr)).1⟩
  | served hne _ hb =>
    rw [if_neg hne]
    refine (Bench.kfree_yields hb.kfree).bind fun b3 ⟨⟨hb3, hstale⟩, hfreed⟩ => ?_
    obtain ⟨a, cs, rfl, hlo, hhi, hcs, hstale⟩ := hstale
    have hagain := (hb3.print [.writestring
      "  Intentando doble free (debe mostrar warning):\n"]).kfree_again (hcs.print _) hlo hhi hstale
    refine (Bench.kfree_yields hagain).bind fun b4 hb4 => Comp.yields_pure.mpr ?_
    have hall : b.Beside b4 := (hbeside.trans hfreed).trans ⟨hb4.2.pmm, hb4.2.failed⟩
    exact ⟨0, (hall.ends hb4.1.1).pass _, fun _ => rfl⟩

theorem storeLetters_apply (m : Mem) (str n x : Nat) : storeLetters m str n x =
    if str ≤ x ∧ x < str + n then letterA + UInt8.ofNat (x - str) else m x := by
  induction n with
  | zero => rw [storeLetters, if_neg (by omega)]
  | succ n ih =>
    rw [storeLetters, update_apply, ih]
    by_cases hx : x = str + n
    · rw [if_pos hx, if_pos (by omega), hx, Nat.add_sub_cancel_left]
    · rw [if_neg hx]
      exact if_congr (by omega) rfl rfl

theorem borrowed_storeLetters {h0 h : Heap} {str k n : Nat} {rest : List (Nat × Nat)}
    (hb : Borrowed h0 bs h ((str, k) :: rest)) (hn : n ≤ k) :
    Borrowed h0 bs { h with mem := storeLetters h.mem str n } ((str, k) :: rest) := by
  induction n with
  | zero => exact hb
  | succ n ih => exact (ih (by omega)).write ⟨by omega, by omega⟩ _

theorem testKrealloc_restored (hh : Holds b.heap bs) :
    (testKrealloc b).Yields fun b' => b.Restored bs b' := by
  rw [testKrealloc]
  obtain ⟨hbeside, hstart, hroomy⟩ := Bench.begins hh "Test: krealloc..."
  generalize b.testPrintInfo "Test: krealloc..." = b1 at hbeside hstart hroomy ⊢
  have hcall := hstart.kmalloc (n := 10) (by decide) (by decide)
  refine (Bench.onHeap_yields (·.kmalloc 10) hcall).bind ?_
  rintro ⟨b2, str⟩ ⟨⟨hans, -, hroom⟩, hcalled⟩
  have hbeside := hbeside.trans hcalled
  dsimp only at hans hroom hbeside ⊢
  cases hans with
  | refused hb =>
    rw [if_pos rfl]
    exact Comp.yields_pure.mpr ⟨1, (hbeside.ends hb).fail _, fun hr =>
      absurd rfl (hroom testRoom (by decide) (hroomy hr)).1⟩
  | served hne hk hb =>
    rw [if_neg hne]
    have hwritten := (borrowed_storeLetters hb (n := 9) (by omega)).write
      (x := str + 9) ⟨by omega, by omega⟩ 0
    generalize hm : update (storeLetters b2.heap.mem str 9) (str + 9) 0 = m at hwritten ⊢
    have hletters : ∀ i < 9, m (str + i) = letterA + UInt8.ofNat i := by
      intro i hi
      rw [← hm, update_of_ne (by omega), storeLetters_apply, if_pos (by omega),
        Nat.add_sub_cancel_left]
    have hcall := hwritten.krealloc (n := 20) (by decide) (by decide)
    refine (Bench.onHeap_yields (b := { b2 with heap := { b2.heap with mem := m } })
      (·.krealloc str 20) hcall).bind ?_
    rintro ⟨b3, newStr⟩ ⟨⟨hans, hcopied, hroom'⟩, hcalled⟩
    have hbeside : b.Beside b3 := hbeside.trans ⟨hcalled.pmm, hcalled.failed⟩
    dsimp only at hans hcopied hroom' ⊢
    cases hans with
    | refused hb3 =>
      rw [if_pos rfl]
      have hfail : Borrowed b.heap bs
          (b3.testPrintFail "krealloc - redimensión falló").heap [(str, _)] := hb3.print _
      refine (Bench.kfree_yields hfail.kfree).imp fun b4 hb4 => ⟨1, ?_, fun hr => ?_⟩
      · exact ⟨hb4.2.pmm.trans hbeside.pmm, hb4.2.failed.trans (congrArg (· + 1) hbeside.failed),
          hb4.1.1⟩
      · have hleft := (hroom testRoom (by decide) (hroomy hr)).2
        have hspace : roundedSize 20 heapAlignment ≤
            testRoom - (roundedSize 10 heapAlignment + 29) := by decide
        exact absurd rfl (hroom' _ hspace (hb.roomy hwritten hleft))
    | served hne' _ hb3 =>
      rw [if_neg hne']
      have hok : lettersOk b3.heap.mem newStr = true := by
        rw [lettersOk, List.all_eq_true]
        intro i hi
        rw [List.mem_range] at hi
        rw [decide_eq_true_eq, hcopied hne' i (by omega), hletters i hi]
      refine (Bench.kfree_yields hb3.kfree).bind fun b4 hb4 => Comp.yields_pure.mpr ?_
      rw [hok, if_pos rfl]
      exact ⟨0, ((hbeside.trans hb4.2).ends hb4.1.1).pass _, fun _ => rfl⟩

end Single

section Loops
variable {b b1 : Bench} {bs : List Block} {n : Nat}

theorem update_range (ptrs : Nat → Nat) (i r : Nat) :
    ((List.range (i + 1)).map (update ptrs i r)).Perm (r :: (List.range i).map ptrs) := by
  have hkept : (List.range i).map (update ptrs i r) = (List.range i).map ptrs :=
    List.map_congr_left fun j hj => update_of_ne (List.mem_range.mp hj).ne _ _
  rw [List.range_succ, List.map_append, hkept, List.map_singleton, update_self]
  exact List.perm_append_comm

theorem fill_yields {ptrs : Nat → Nat} {size : Nat → Nat}
    {body : Nat → Bench × (Nat → Nat) → Comp (Bench × (Nat → Nat))}
    (hbody : ∀ i b ptrs, body i (b, ptrs) = do
      let (b, r) ← b.kmalloc (size i)
      pure (b, update ptrs i r))
    (hsize : ∀ i < n, size i ≠ 0 ∧ size i ≤ 2 ^ 32 - 16) (hbeside : b.Beside b1)
    (hb : Holding b.heap bs b1.heap []) :
    (Comp.forEach body n (b1, ptrs)).Yields fun s =>
      b.Beside s.1 ∧ Holding b.heap bs s.1.heap ((List.range n).map s.2) := by
  refine Comp.Yields.forEach (I := fun i (s : Bench × (Nat → Nat)) =>
    b.Beside s.1 ∧ Holding b.heap bs s.1.heap ((List.range i).map s.2)) ⟨hbeside, hb⟩ ?_
  rintro i ⟨b', ptrs'⟩ hi ⟨hbeside, hb⟩
  rw [hbody]
  have hcall := hb.kmalloc (hsize i hi).1 (hsize i hi).2
  refine (Bench.onHeap_yields (·.kmalloc (size i)) hcall).bind ?_
  rintro ⟨b'', r⟩ ⟨⟨hb, -⟩, hcalled⟩
  exact Comp.yields_pure.mpr ⟨hbeside.trans hcalled, hb.perm (update_range ptrs' i r).symm⟩

theorem release_yields {α : Type} (bench : α → Bench) (ptrs : α → Nat → Nat) (order : Nat → Nat)
    {others : List Nat} {body : Nat → α → Comp α} {s : α}
    (hbody : ∀ i s qs, b.Beside (bench s) →
      Holding b.heap bs (bench s).heap (ptrs s (order i) :: qs) →
      (body i s).Yields fun t => b.Beside (bench t) ∧ Holding b.heap bs (bench t).heap qs ∧
        ∀ j, j ≠ order i → ptrs t j = ptrs s j)
    (horder : ((List.range n).map order ++ others).Nodup) (hbeside : b.Beside (bench s))
    (hb : Holding b.heap bs (bench s).heap (((List.range n).map order ++ others).map (ptrs s))) :
    (Comp.forEach body n s).Yields fun t => b.Beside (bench t) ∧
      Holding b.heap bs (bench t).heap (others.map (ptrs t)) ∧
        ∀ j ∈ others, ptrs t j = ptrs s j := by
  let left (i : Nat) : List Nat := (List.range' i (n - i)).map order ++ others
  have hfinal : left n = others := by simp [left]
  have hstep : ∀ i < n, left i = order i :: left (i + 1) := by
    intro i hi
    simp only [left]
    rw [show n - i = n - (i + 1) + 1 by omega, List.range'_succ, List.map_cons, List.cons_append]
  have hnodup : ∀ i ≤ n, (left i).Nodup := by
    intro i hi
    induction i with
    | zero => rwa [List.range_eq_range'] at horder
    | succ i ih =>
      have hprev := ih (by omega)
      rw [hstep i hi] at hprev
      exact hprev.of_cons
  refine (Comp.Yields.forEach (I := fun i t => b.Beside (bench t) ∧
    Holding b.heap bs (bench t).heap ((left i).map (ptrs t)) ∧ ∀ j ∈ left i, ptrs t j = ptrs s j)
    ⟨hbeside, ?_, fun _ _ => rfl⟩ ?_).imp ?_
  · rwa [List.range_eq_range'] at hb
  · rintro i t hi ⟨hbeside, hb, hsame⟩
    rw [hstep i hi, List.map_cons] at hb
    refine (hbody i t _ hbeside hb).imp fun u ⟨hbeside, hb, hkept⟩ => ⟨hbeside, ?_, ?_⟩
    all_goals
      have hfresh := hnodup i hi.le
      rw [hstep i hi, List.nodup_cons] at hfresh
      have hother : ∀ j ∈ left (i + 1), ptrs u j = ptrs t j :=
        fun j hj => hkept j fun heq => hfresh.1 (heq ▸ hj)
    · rwa [List.map_congr_left hother]
    · intro j hj
      rw [hother j hj, hsame j (hstep i hi ▸ .tail _ hj)]
  · rw [hfinal]
    exact fun t ht => ht

end Loops

section Many
variable {b b1 : Bench} {bs : List Block}

theorem stressOrder_nodup : ((List.range stressIterations).map stressOrder).Nodup := by
  refine (List.nodup_map_iff_inj_on List.nodup_range).mpr fun i hi j hj heq => ?_
  rw [List.mem_range, stressIterations] at hi hj
  rw [stressOrder, stressOrder, stressIterations] at heq
  omega

theorem stressOrder_perm :
    ((List.range stressIterations).map stressOrder).Perm (List.range stressIterations) := by
  refine (stressOrder_nodup.subperm fun x hx => ?_).perm_of_length_le (by simp)
  obtain ⟨i, -, rfl⟩ := List.mem_map.mp hx
  exact List.mem_range.mpr (Nat.mod_lt _ (by decide))

theorem releaseAt_yields {i : Nat} {s : Bench × (Nat → Nat)} {qs : List Nat}
    (hbeside : b.Beside s.1) (hb : Holding b.heap bs s.1.heap (s.2 i :: qs)) :
    (releaseAt i s).Yields fun t => b.Beside t.1 ∧ Holding b.heap bs t.1.heap qs ∧
      ∀ j, j ≠ i → t.2 j = s.2 j := by
  obtain ⟨b', ptrs⟩ := s
  dsimp only at hbeside hb
  rw [releaseAt]
  split_ifs with hnull
  · refine (Bench.kfree_yields hb.kfree).bind fun b'' ⟨hb, hfreed⟩ => ?_
    exact Comp.yields_pure.mpr ⟨hbeside.trans hfreed, hb, fun j hj => update_of_ne hj _ _⟩
  · rw [not_ne_iff.mp hnull] at hb
    exact Comp.yields_pure.mpr ⟨hbeside, hb.of_null, fun _ _ => rfl⟩

theorem stressCycle_yields {s : Bench × (Nat → Nat)} (hbeside : b.Beside s.1)
    (hb : Holding b.heap bs s.1.heap []) :
    (stressCycle s).Yields fun t => b.Beside t.1 ∧ Holding b.heap bs t.1.heap [] := by
  have hsize : ∀ i < stressIterations,
      (i * 17 + 13) % 200 + 16 ≠ 0 ∧ (i * 17 + 13) % 200 + 16 ≤ 2 ^ 32 - 16 := fun i _ => by omega
  refine (fill_yields (fun _ _ _ => rfl) hsize hbeside hb).bind fun t ⟨hbeside, hb⟩ => ?_
  have hnodup := stressOrder_nodup
  rw [← List.append_nil (List.map _ _)] at hnodup
  refine (release_yields Prod.fst Prod.snd _
    (fun i s qs => releaseAt_yields) hnodup hbeside ?_).imp fun u hu => ⟨hu.1, hu.2.1⟩
  rw [List.append_nil]
  exact hb.perm (stressOrder_perm.map t.2).symm

theorem testKmallocStress_restored (l : Locals) (hh : Holds b.heap bs) :
    (testKmallocStress l b).Yields fun b' => b.Restored bs b' := by
  rw [testKmallocStress]
  obtain ⟨hbeside, hstart, -⟩ := Bench.begins hh "Test: Stress test kmalloc/kfree..."
  generalize b.testPrintInfo "Test: Stress test kmalloc/kfree..." = b1 at hbeside hstart ⊢
  refine (Bench.heapGetStats_yields (hstart.holds hh) l.stats).bind fun statsInitial _ => ?_
  have hcycles : (Comp.forEach (fun _ => stressCycle) 5 (b1, l.pointers)).Yields fun t =>
      b.Beside t.1 ∧ Holding b.heap bs t.1.heap [] :=
    Comp.Yields.forEach (I := fun _ (t : Bench × (Nat → Nat)) =>
      b.Beside t.1 ∧ Holding b.heap bs t.1.heap [])
      ⟨hbeside, [], hstart, .refl _⟩ fun i t _ ht => stressCycle_yields ht.1 ht.2
  refine hcycles.bind ?_
  rintro ⟨b2, ptrs⟩ ⟨hbeside, hb⟩
  have hholds := hb.borrowed.holds hh
  refine (Bench.heapGetStats_yields hholds l.stats).bind fun statsFinal _ => ?_
  dsimp only
  have hvalid := (hholds.print [.writestring "  Memoria usada inicial: ",
    .printDec statsInitial.usedSize, .writestring ", final: ", .printDec statsFinal.usedSize,
    .writestring "\n"]).heapValidate_eq
  rw [Bench.print, hvalid]
  exact Comp.yields_pure.mpr
    ⟨0, (Bench.Ends.print (hbeside.ends hb.borrowed) _).pass _, fun _ => rfl⟩

def fragEvens : List Nat := (List.range (fragTestBlocks / 2)).map (2 * ·)

def fragOdds : List Nat := (List.range (fragTestBlocks / 2)).map (2 * · + 1)

theorem releaseFrag_yields {i : Nat} {s : Bench × (Nat → Nat)} {qs : List Nat}
    (hbeside : b.Beside s.1) (hb : Holding b.heap bs s.1.heap (s.2 i :: qs)) :
    (releaseFrag i s).Yields fun t => b.Beside t.1 ∧ Holding b.heap bs t.1.heap qs ∧
      ∀ j, j ≠ i → t.2 j = s.2 j := by
  refine (Bench.kfree_yields hb.kfree).bind fun b'' ⟨hb, hfreed⟩ => ?_
  exact Comp.yields_pure.mpr ⟨hbeside.trans hfreed, hb, fun j hj => update_of_ne hj _ _⟩

theorem testHeapFragmentation_restored (l : Locals) (hh : Holds b.heap bs) :
    (testHeapFragmentation l b).Yields fun b' => b.Restored bs b' := by
  rw [testHeapFragmentation]
  obtain ⟨hbeside, hstart, -⟩ := Bench.begins hh "Test: Medición de fragmentación del heap..."
  generalize b.testPrintInfo "Test: Medición de fragmentación del heap..." = b1
    at hbeside hstart ⊢
  have hsize : ∀ i < fragTestBlocks, (i + 1) * 50 ≠ 0 ∧ (i + 1) * 50 ≤ 2 ^ 32 - 16 := by
    intro i hi
    rw [fragTestBlocks] at hi
    omega
  refine (fill_yields (fun _ _ _ => rfl) hsize hbeside ⟨[], hstart, .refl _⟩).bind
    fun s ⟨hbeside, hb⟩ => ?_
  have hplaces : (fragEvens ++ fragOdds).Perm (List.range fragTestBlocks) := by decide
  have hnodup : (fragEvens ++ fragOdds).Nodup := hplaces.nodup_iff.mpr List.nodup_range
  refine (release_yields Prod.fst Prod.snd _
    (fun i s qs => releaseFrag_yields) hnodup hbeside (hb.perm (hplaces.map s.2).symm)).bind ?_
  rintro ⟨b2, blocks⟩ ⟨hbeside, hb, -⟩
  dsimp only at hbeside hb ⊢
  obtain ⟨cs, hcs, -⟩ := hb.choose_spec.1.blocks
  refine (Bench.heapGetStats_yields hcs l.stats).bind fun stats _ => ?_
  have hodds : (fragOdds ++ []).Nodup := by
    rw [List.append_nil]
    exact hnodup.of_append_right
  refine (@release_yields b bs _ _ id (fun _ => blocks) (2 * · + 1) _ _ _
    (fun i b' qs hbeside hb => ?_) hodds ?_ ?_).bind ?_
  · dsimp only [id] at hbeside hb ⊢
    split_ifs with hnull
    · refine (Bench.kfree_yields hb.kfree).imp fun b'' ⟨hb, hfreed⟩ => ?_
      exact ⟨hbeside.trans hfreed, hb, fun _ _ => rfl⟩
    · rw [not_ne_iff.mp hnull] at hb
      exact Comp.yields_pure.mpr ⟨hbeside, hb.of_null, fun _ _ => rfl⟩
  · exact ⟨hbeside.pmm, hbeside.failed⟩
  · rw [List.append_nil]
    exact hb.print _
  · intro b3 ⟨hbeside, hb, _⟩
    exact Comp.yields_pure.mpr ⟨0, (hbeside.ends hb.borrowed).pass _, fun _ => rfl⟩

end Many

/-! ## The first two tests -/

/-- Before turn `i` of the first loop of the first test. -/
inductive Filled (b : Bench) (bs : List Block) (i : Nat) : Bench × (Nat → Nat) × Bool → Prop
  | filling {b' : Bench} {blocks : Nat → Nat} (_ : b.Beside b')
      (_ : Holding b.heap bs b'.heap ((List.range i).map blocks))
      (_ : Roomy b.heap testRoom → Roomy b'.heap (testRoom - 108 * i)) :
      Filled b bs i (b', blocks, false)
  | failed {b' : Bench} {blocks : Nat → Nat} {owned : List (Nat × Nat)} (_ : b.Ends bs b' owned 1)
      (_ : ¬Roomy b.heap testRoom) : Filled b bs i (b', blocks, true)

section First
variable {b : Bench} {bs : List Block}

theorem allocateOrFail_yields {i : Nat} {s : Bench × (Nat → Nat) × Bool} (hi : i < 10)
    (h : Filled b bs i s) : (allocateOrFail i s).Yields (Filled b bs (i + 1)) := by
  cases h with
  | failed hends hroom => exact Comp.yields_pure.mpr (.failed hends hroom)
  | filling hbeside hb hroom =>
    have hcall := hb.kmalloc (n := 64) (by decide) (by decide)
    refine (Bench.onHeap_yields (·.kmalloc 64) hcall).bind ?_
    rintro ⟨b1, r⟩ ⟨⟨hb, hserved⟩, hcalled⟩
    have hleft : Roomy b.heap testRoom → r ≠ 0 ∧ Roomy b1.heap (testRoom - 108 * i - 108) :=
      fun hr => (hroom hr).served (by decide) hserved (by rw [testRoom]; omega)
    have hbeside := hbeside.trans hcalled
    dsimp only at hb ⊢
    split_ifs with hnull
    · subst hnull
      obtain ⟨owned, hb, -⟩ := hb
      exact Comp.yields_pure.mpr (.failed ((hbeside.ends hb).fail _) fun hr => (hleft hr).1 rfl)
    · exact Comp.yields_pure.mpr (.filling hbeside (hb.perm (update_range _ i r).symm)
        fun hr => (hleft hr).2.mono (by omega))

theorem testKmallocAllocFreeBasic_tested (l : Locals) (hh : Holds b.heap bs) :
    (testKmallocAllocFreeBasic l b).Yields fun b' => b.Tested bs b' := by
  rw [testKmallocAllocFreeBasic]
  obtain ⟨hbeside, hstart, hroomy⟩ := Bench.begins hh "Test: kmalloc/kfree básico..."
  generalize b.testPrintInfo "Test: kmalloc/kfree básico..." = b1 at hbeside hstart hroomy ⊢
  refine (Bench.heapGetStats_yields (hstart.holds hh) l.stats).bind fun statsBefore _ => ?_
  have hfill := @Comp.Yields.forEach _ allocateOrFail 10 (b1, l.pointers, false) (Filled b bs)
    (.filling hbeside ⟨[], hstart, .refl _⟩ hroomy)
    fun i s hi h => allocateOrFail_yields hi h
  refine hfill.bind ?_
  rintro ⟨b2, blocks, failed⟩ (⟨hbeside, hb, hroom⟩ | ⟨hends, hroom⟩)
  · have hplaces : ((List.range 10).map id ++ []).Nodup := by decide
    dsimp only
    rw [if_neg Bool.false_ne_true]
    refine (@release_yields b bs _ _ id (fun _ => blocks) id _ _ _
      (fun i b' qs hbeside hb => ?_) hplaces hbeside (by simpa using hb)).bind ?_
    · refine (Bench.kfree_yields hb.kfree).imp fun b'' ⟨hb, hfreed⟩ => ?_
      exact ⟨Bench.Beside.trans hbeside hfreed, hb, fun _ _ => rfl⟩
    · intro b3 ⟨hbeside, hb, _⟩
      have hends := hbeside.ends hb.borrowed
      refine (Bench.heapGetStats_yields (hb.borrowed.holds hh) l.stats).bind fun statsAfter _ => ?_
      split_ifs
      · exact Comp.yields_pure.mpr ⟨[], 0, hends.pass _, fun _ => rfl, fun _ => rfl⟩
      · exact Comp.yields_pure.mpr ⟨[], 0, hends.print _, fun _ => rfl, fun _ => rfl⟩
  · dsimp only
    rw [if_pos rfl]
    exact Comp.yields_pure.mpr ⟨_, 1, hends, fun h => absurd h (by decide),
      fun hr => absurd hr hroom⟩

theorem testKmallocCoalesce_tested (l : Locals) (hh : Holds b.heap bs) :
    (testKmallocCoalesce l b).Yields fun b' => b.Tested bs b' := by
  rw [testKmallocCoalesce]
  obtain ⟨hbeside, hstart, hroomy⟩ := Bench.begins hh "Test: Coalescencia de bloques..."
  generalize b.testPrintInfo "Test: Coalescencia de bloques..." = b1 at hbeside hstart hroomy ⊢
  have hb : Holding b.heap bs b1.heap [] := ⟨[], hstart, .refl _⟩
  refine (Bench.onHeap_yields (·.kmalloc 100)
    (hb.kmalloc (n := 100) (by decide) (by decide))).bind ?_
  rintro ⟨b2, block1⟩ ⟨⟨hb, hserved1⟩, hcalled1⟩
  refine (Bench.onHeap_yields (·.kmalloc 100)
    (hb.kmalloc (n := 100) (by decide) (by decide))).bind ?_
  rintro ⟨b3, block2⟩ ⟨⟨hb, hserved2⟩, hcalled2⟩
  refine (Bench.onHeap_yields (·.kmalloc 100)
    (hb.kmalloc (n := 100) (by decide) (by decide))).bind ?_
  rintro ⟨b4, block3⟩ ⟨⟨hb, hserved3⟩, hcalled3⟩
  have hbeside : b.Beside b4 := ((hbeside.trans hcalled1).trans hcalled2).trans hcalled3
  dsimp only at hb hserved1 hserved2 hserved3 hcalled1 hcalled2 hcalled3 ⊢
  split_ifs with hnull
  · -- what was allocated before the failure is lost
    obtain ⟨owned, hb, -⟩ := hb
    refine Comp.yields_pure.mpr
      ⟨owned, 1, (hbeside.ends hb).fail _, fun h => absurd h (by decide), fun hr => ?_⟩
    obtain ⟨h1, hr⟩ := Roomy.served (n := 100) (by decide) hserved1 (by decide) (hroomy hr)
    obtain ⟨h2, hr⟩ := Roomy.served (n := 100) (by decide) hserved2 (by decide) hr
    obtain ⟨h3, -⟩ := Roomy.served (n := 100) (by decide) hserved3 (by decide) hr
    exact absurd hnull (by simp [h1, h2, h3])
  · have hb := hb.perm (List.reverse_perm [block1, block2, block3])
    obtain ⟨cs, hcs, -⟩ := hb.choose_spec.1.blocks
    refine (Bench.heapGetStats_yields hcs l.stats).bind fun statsBefore _ => ?_
    refine (Bench.kfree_yields hb.kfree).bind fun b5 ⟨hb, hfreed⟩ => ?_
    have hbeside := hbeside.trans hfreed
    refine (Bench.kfree_yields hb.kfree).bind fun b6 ⟨hb, hfreed⟩ => ?_
    have hbeside := hbeside.trans hfreed
    refine (Bench.kfree_yields hb.kfree).bind fun b7 ⟨hb, hfreed⟩ => ?_
    have hends := (hbeside.trans hfreed).ends hb.borrowed
    refine (Bench.heapGetStats_yields (hb.borrowed.holds hh) l.stats).bind fun statsAfter _ => ?_
    split_ifs
    · exact Comp.yields_pure.mpr ⟨[], 0, (hends.pass _).print _, fun _ => rfl, fun _ => rfl⟩
    · exact Comp.yields_pure.mpr ⟨[], 0, hends.print _, fun _ => rfl, fun _ => rfl⟩

end First

end AlvOS.MemoryTests
