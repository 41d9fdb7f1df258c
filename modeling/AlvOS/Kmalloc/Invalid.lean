import Mathlib.Order.Interval.Set.LinearOrder
import AlvOS.Lib.Loads
import AlvOS.Kmalloc.Runs

/-! Which memory `kfree` and `krealloc` look at before they trust a pointer.  Each is
its check, with a record of the loads, followed by what the verdict of the check
calls for.  The check reads the magic before it compares the address, so a wild
pointer is dereferenced before it is rejected. -/

namespace AlvOS.Kmalloc
open ByteMemory Word BlockList Set Fuel

/-- `is_valid_block` with its load: the magic comes before the range. -/
def isValidBlockLoads (fetch : Field → Loads Nat) (block : Nat) : Loads Bool :=
  if block = 0 then .done false
  else (fetch .magic).andThen fun magic =>
    if magic ≠ heapMagic then .done false
    else if block < heapStart ∨ heapStart + heapSize ≤ block then .done false
    else .done true

inductive KfreeVerdict
  | nothing | uninitialized | invalid | alreadyFree | release
deriving DecidableEq

/-- What `kfree` reads of the header at `block`, before `ptr`, and where it takes it. -/
def kfreeLoads (initialized : Bool) (fetch : Field → Loads Nat) (block ptr : Nat) :
    Loads KfreeVerdict :=
  if ptr = 0 then .done .nothing
  else if initialized = false then .done .uninitialized
  else (isValidBlockLoads fetch block).andThen fun valid =>
    if valid = false then .done .invalid
    else (fetch .isFree).andThen fun isFree =>
      if isFree ≠ 0 then .done .alreadyFree else .done .release

def kfreeCheck (h : Heap) (ptr : Nat) : Loads KfreeVerdict :=
  let block := ptrToBlock ptr
  kfreeLoads h.heapInitialized (heapBlock.fetch h.mem block) block ptr

def KfreeVerdict.act (fuel : Nat) (h : Heap) (ptr : Nat) : KfreeVerdict → Option Heap
  | .nothing => some h
  | .uninitialized => some (h.print [.setcolor .lightRed .black,
      .writestring "[ERROR] kfree: heap no inicializado\n"])
  | .invalid => some (h.print (invalidPointer ptr))
  | .alreadyFree => some (h.print (doubleFree ptr))
  | .release => do
    let block := ptrToBlock ptr
    let m ← coalesceBlocks fuel (heapBlock.store h.mem block .isFree 1) block
    some { h with mem := m, totalFrees := u32 (h.totalFrees + 1) }

inductive KreallocVerdict
  | allocate | free (verdict : KfreeVerdict) | invalid | keep | move
deriving DecidableEq

/-- What `krealloc` reads of the header at `block`, before `ptr`, and where it takes it. -/
def kreallocLoads (initialized : Bool) (fetch : Field → Loads Nat) (block ptr newSize : Nat) :
    Loads KreallocVerdict :=
  if ptr = 0 then .done .allocate
  else if newSize = 0 then
    (kfreeLoads initialized fetch block ptr).andThen fun verdict => .done (.free verdict)
  else (isValidBlockLoads fetch block).andThen fun valid =>
    if valid = false then .done .invalid
    else (fetch .size).andThen fun size =>
      if newSize ≤ size then .done .keep else .done .move

def kreallocCheck (h : Heap) (ptr newSize : Nat) : Loads KreallocVerdict :=
  let block := ptrToBlock ptr
  kreallocLoads h.heapInitialized (heapBlock.fetch h.mem block) block ptr newSize

def KreallocVerdict.act (fuel : Nat) (h : Heap) (ptr newSize : Nat) :
    KreallocVerdict → Option (Heap × Nat)
  | .allocate => kmalloc fuel h newSize
  | .free verdict => (verdict.act fuel h ptr).bind fun h => some (h, 0)
  | .invalid => some (h.print invalidBlock, 0)
  | .keep => some (h, ptr)
  | .move => (kmalloc fuel h newSize).bind fun (h', r) =>
      if r = 0 then some (h', 0)
      else (kfree fuel (h'.copied r ptr) ptr).bind fun h'' => some (h'', r)

section Loads
variable {initialized : Bool} {fetch : Field → Loads Nat} {block ptr newSize : Nat}

theorem isValidBlockLoads_result : (isValidBlockLoads fetch block).result =
    if block = 0 then false
    else if (fetch .magic).result ≠ heapMagic then false
    else if block < heapStart ∨ heapStart + heapSize ≤ block then false
    else true := by
  simp only [isValidBlockLoads, Loads.result_ite, Loads.result_andThen, Loads.result_done]

theorem isValidBlockLoads_loads : (isValidBlockLoads fetch block).loads =
    if block = 0 then [] else (fetch .magic).loads := by
  simp only [isValidBlockLoads, Loads.loads_ite, Loads.loads_andThen, Loads.loads_done, ite_self,
    List.append_nil]

theorem kfreeLoads_result : (kfreeLoads initialized fetch block ptr).result =
    if ptr = 0 then .nothing
    else if initialized = false then .uninitialized
    else if (isValidBlockLoads fetch block).result = false then .invalid
    else if (fetch .isFree).result ≠ 0 then .alreadyFree
    else .release := by
  simp only [kfreeLoads, Loads.result_ite, Loads.result_andThen, Loads.result_done]

theorem kreallocLoads_result : (kreallocLoads initialized fetch block ptr newSize).result =
    if ptr = 0 then .allocate
    else if newSize = 0 then .free (kfreeLoads initialized fetch block ptr).result
    else if (isValidBlockLoads fetch block).result = false then .invalid
    else if newSize ≤ (fetch .size).result then .keep
    else .move := by
  simp only [kreallocLoads, Loads.result_ite, Loads.result_andThen, Loads.result_done]

theorem checked_eq_nil {α : Type} {f : Bool → Loads α} (hmagic : (fetch .magic).loads ≠ [])
    (hfails : (f false).loads = []) :
    ((isValidBlockLoads fetch block).andThen f).loads = [] ↔ block = 0 := by
  rw [Loads.loads_andThen, isValidBlockLoads_loads]
  constructor
  · intro hnone
    by_contra hblock
    rw [if_neg hblock] at hnone
    exact hmagic (List.append_eq_nil_iff.mp hnone).1
  · intro hblock
    rw [isValidBlockLoads_result, if_pos hblock, if_pos hblock, hfails]
    rfl

theorem kfreeLoads_eq_nil (hinit : initialized = true) (hptr : ptr ≠ 0)
    (hmagic : (fetch .magic).loads ≠ []) :
    (kfreeLoads initialized fetch block ptr).loads = [] ↔ block = 0 := by
  have huninit : ¬initialized = false := by simp [hinit]
  rw [kfreeLoads, if_neg hptr, if_neg huninit]
  exact checked_eq_nil hmagic rfl

theorem kreallocLoads_eq_nil (hinit : initialized = true) (hptr : ptr ≠ 0)
    (hmagic : (fetch .magic).loads ≠ []) :
    (kreallocLoads initialized fetch block ptr newSize).loads = [] ↔ block = 0 := by
  rw [kreallocLoads, if_neg hptr]
  split_ifs with hsize
  · rw [Loads.loads_andThen, Loads.loads_done, List.append_nil]
    exact kfreeLoads_eq_nil hinit hptr hmagic
  · exact checked_eq_nil hmagic rfl

theorem kfreeLoads_outside (hinit : initialized = true) (hptr : ptr ≠ 0) (hblock : block ≠ 0)
    (hout : block < heapStart ∨ heapStart + heapSize ≤ block) :
    (kfreeLoads initialized fetch block ptr).loads = (fetch .magic).loads := by
  have huninit : ¬initialized = false := by simp [hinit]
  have hinvalid : (isValidBlockLoads fetch block).result = false := by
    rw [isValidBlockLoads_result, if_neg hblock, if_pos hout, ite_self]
  rw [kfreeLoads, if_neg hptr, if_neg huninit, Loads.loads_andThen, isValidBlockLoads_loads,
    if_neg hblock, hinvalid, if_pos rfl, Loads.loads_done, List.append_nil]

end Loads

section Check
variable {h : Heap} {m : Mem} {block ptr newSize : Nat}

theorem isValidBlockLoads_eq :
    (isValidBlockLoads (heapBlock.fetch m block) block).result = isValidBlock m block :=
  isValidBlockLoads_result

theorem kfree_eq_act (fuel : Nat) :
    kfree fuel h ptr = (kfreeCheck h ptr).result.act fuel h ptr := by
  rw [kfreeCheck, kfreeLoads_result, isValidBlockLoads_eq, Record.result_fetch]
  split_ifs with hptr hinit hvalid hfree
  · rw [kfree, if_pos hptr, KfreeVerdict.act]
  · rw [kfree, if_neg hptr, if_pos hinit, KfreeVerdict.act]
  · rw [kfree_invalid (by simpa using hinit) hptr hvalid, KfreeVerdict.act]
  · rw [kfree_free (by simpa using hinit) hptr (by simpa using hvalid) hfree, KfreeVerdict.act]
  · rw [kfree, if_neg hptr, if_neg hinit]
    exact (if_neg hvalid).trans (if_neg hfree)

theorem krealloc_eq_act (fuel : Nat) :
    krealloc fuel h ptr newSize = (kreallocCheck h ptr newSize).result.act fuel h ptr newSize := by
  rw [kreallocCheck, kreallocLoads_result, isValidBlockLoads_eq, Record.result_fetch]
  split_ifs with hptr hsize hvalid hkeep
  · rw [krealloc, if_pos hptr, KreallocVerdict.act]
  · rw [hsize, krealloc_release fuel hptr, kfree_eq_act, KreallocVerdict.act, kfreeCheck]
  · rw [krealloc_invalid fuel hptr hsize hvalid, KreallocVerdict.act]
  all_goals rw [krealloc_valid fuel hptr hsize (by simpa using hvalid), KreallocVerdict.act]
  · exact if_pos hkeep
  · exact if_neg hkeep

end Check

/-- All the bytes of the header before `ptr` lie in the heap. -/
def HeaderInside (ptr : Nat) : Prop :=
  Ico (ptrToBlock ptr) (ptrToBlock ptr + 29) ⊆ Ico heapStart (heapStart + heapSize)

/-- The header before `ptr` is read only if it lies in the heap; otherwise, and unless the
pointer is null, an error is printed and nothing is touched. -/
structure Contained (h : Heap) (ptr : Nat) (loads : List (Nat × Nat))
    (call : Nat → Option (Heap × Nat)) : Prop where
  inside : loads ≠ [] → HeaderInside ptr
  rejected : ptr ≠ 0 → ¬HeaderInside ptr →
    loads = [] ∧ ∃ calls, calls ≠ [] ∧ Returns call (h.print calls, 0)

/-- The null pointer, the one whose header would lie at the null address, and the
pointers whose header lies in the heap. -/
def SafePointer (ptr : Nat) : Prop :=
  ptr = 0 ∨ ptr = 29 ∨ heapStart + 29 ≤ ptr ∧ ptr ≤ heapStart + heapSize

section Wild
variable {h : Heap} {ptr newSize : Nat}

theorem headerInside_iff (hptr : ptr < 2 ^ 64) :
    HeaderInside ptr ↔ heapStart + 29 ≤ ptr ∧ ptr ≤ heapStart + heapSize := by
  have hstart := heapStart_eq
  have hheap := heapSize_eq
  unfold HeaderInside ptrToBlock
  rw [heapBlock_size, u64, Set.Ico_subset_Ico_iff (by omega)]
  omega

theorem ptrToBlock_eq_zero_iff (hptr : ptr < 2 ^ 64) : ptrToBlock ptr = 0 ↔ ptr = 29 := by
  rw [ptrToBlock, heapBlock_size, u64]
  omega

theorem fetch_magic_ne_nil (m : Mem) (block : Nat) : (heapBlock.fetch m block .magic).loads ≠ [] :=
  List.cons_ne_nil _ _

theorem isValidBlock_zero (m : Mem) : isValidBlock m 0 = false := rfl

theorem returns_kfree_null (hinit : h.heapInitialized = true) :
    Returns (fun fuel => (kfree fuel h 29).bind fun h' => some (h', 0))
      (h.print (invalidPointer 29), 0) := by
  have hvalid : isValidBlock h.mem (ptrToBlock 29) = false := isValidBlock_zero h.mem
  refine ⟨0, ?_⟩
  dsimp only
  rw [kfree_invalid hinit (by decide) hvalid]
  rfl

theorem returns_krealloc_null (hinit : h.heapInitialized = true) (newSize : Nat) :
    ∃ calls, calls ≠ [] ∧
      Returns (fun fuel => krealloc fuel h 29 newSize) (h.print calls, 0) := by
  have hvalid : isValidBlock h.mem (ptrToBlock 29) = false := isValidBlock_zero h.mem
  by_cases hsize : newSize = 0
  · simp only [hsize, krealloc_release _ (show 29 ≠ 0 by decide)]
    exact ⟨_, List.cons_ne_nil _ _, returns_kfree_null hinit⟩
  · exact ⟨_, List.cons_ne_nil _ _, 0, krealloc_invalid 0 (by decide) hsize hvalid⟩

/-- A check that loads exactly when the header is not at the null address keeps to the
heap exactly on the safe pointers. -/
theorem contained_iff {loads : List (Nat × Nat)} {call : Nat → Option (Heap × Nat)}
    (hptr : ptr < 2 ^ 64) (hloads : ptr ≠ 0 → (loads = [] ↔ ptrToBlock ptr = 0))
    (hzero : ptr = 0 → loads = [])
    (hnull : ptr = 29 → ∃ calls, calls ≠ [] ∧ Returns call (h.print calls, 0)) :
    Contained h ptr loads call ↔ SafePointer ptr := by
  rw [SafePointer, ← headerInside_iff hptr]
  constructor
  · intro hcont
    by_contra hbad
    simp only [not_or] at hbad
    obtain ⟨h0, h29, hout⟩ := hbad
    have hnone := (hcont.rejected h0 hout).1
    exact h29 ((ptrToBlock_eq_zero_iff hptr).mp ((hloads h0).mp hnone))
  · rintro (h0 | h29 | hin)
    · exact ⟨fun hne => absurd (hzero h0) hne, fun hne => absurd h0 hne⟩
    · have hnone : loads = [] :=
        (hloads (by omega)).mpr ((ptrToBlock_eq_zero_iff hptr).mpr h29)
      exact ⟨fun hne => absurd hnone hne, fun _ _ => ⟨hnone, hnull h29⟩⟩
    · exact ⟨fun _ => hin, fun _ hout => absurd hin hout⟩

end Wild

/-- The loads recorded are those of the checks that `kfree` and `krealloc` begin with.  They
keep to the heap exactly when the pointer is null, or belongs to a header at the null
address or in the heap: any other is dereferenced. -/
theorem wild_pointer {s : State} (hs : heapSystem.Reachable s) {ptr n : Nat}
    (hptr : ptr < 2 ^ 64) (_ : n < 2 ^ 64) :
    (∀ fuel, kfree fuel s.heap ptr = (kfreeCheck s.heap ptr).result.act fuel s.heap ptr) ∧
    (∀ fuel, krealloc fuel s.heap ptr n =
      (kreallocCheck s.heap ptr n).result.act fuel s.heap ptr n) ∧
    (Contained s.heap ptr (kfreeCheck s.heap ptr).loads
        (fun fuel => (kfree fuel s.heap ptr).bind fun h => some (h, 0)) ↔ SafePointer ptr) ∧
    (Contained s.heap ptr (kreallocCheck s.heap ptr n).loads
        (fun fuel => krealloc fuel s.heap ptr n) ↔ SafePointer ptr) := by
  obtain ⟨bs, ht⟩ := exists_tiles hs
  have hinit := ht.holds.initialized
  refine ⟨kfree_eq_act, krealloc_eq_act, ?_, ?_⟩
  · refine contained_iff hptr (fun h0 => kfreeLoads_eq_nil hinit h0 (fetch_magic_ne_nil _ _)) ?_ ?_
    · rintro rfl
      rfl
    · rintro rfl
      exact ⟨_, List.cons_ne_nil _ _, returns_kfree_null hinit⟩
  · refine contained_iff hptr (fun h0 => kreallocLoads_eq_nil hinit h0 (fetch_magic_ne_nil _ _))
      ?_ ?_
    · rintro rfl
      rfl
    · rintro rfl
      exact returns_krealloc_null hinit n

/-- A pointer into the block that was given back. -/
theorem wild_pointer_holed : ∃ s, heapSystem.Reachable s ∧ Holds s.heap holed ∧
    (Contained s.heap (heapStart + 80) (kfreeCheck s.heap (heapStart + 80)).loads
      (fun fuel => (kfree fuel s.heap (heapStart + 80)).bind fun h => some (h, 0)) ↔
        SafePointer (heapStart + 80)) := by
  obtain ⟨s, hs, hholds⟩ := exists_holed
  have hptr : heapStart + 80 < 2 ^ 64 := by decide
  obtain ⟨-, -, hkfree, -⟩ := wild_pointer hs hptr (show 16 < 2 ^ 64 by decide)
  exact ⟨s, hs, hholds, hkfree⟩

/-- `kfree` of the first address past the identity-mapped GiB reads four bytes below it. -/
theorem wild_pointer_failure :
    (kfreeCheck State.fresh.heap 0x40000000).loads = [(0x3FFFFFE3, 4)] ∧
    ¬∀ s, heapSystem.Reachable s → ∀ ptr < 2 ^ 64,
      Contained s.heap ptr (kfreeCheck s.heap ptr).loads
        (fun fuel => (kfree fuel s.heap ptr).bind fun h => some (h, 0)) := by
  have hblock : ptrToBlock 0x40000000 = 0x3FFFFFE3 := by decide
  have hinit : State.fresh.heap.heapInitialized = true := rfl
  have hloads : (kfreeCheck State.fresh.heap 0x40000000).loads = [(0x3FFFFFE3, 4)] := by
    rw [kfreeCheck, hblock]
    exact kfreeLoads_outside hinit (by decide) (by decide) (by decide)
  refine ⟨hloads, fun hclaim => ?_⟩
  have hinside := (hclaim _ fresh_reachable 0x40000000 (by decide)).inside (by simp [hloads])
  have hbounds := (headerInside_iff (by decide)).mp hinside
  exact absurd hbounds.2 (by decide)

end AlvOS.Kmalloc
