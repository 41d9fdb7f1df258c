import AlvOS.Kmalloc.Runs

/-! `heap_validate`.  The walk stops after 10000 blocks, and the heap has room for four times as
many: what lies behind them is never looked at. -/

namespace AlvOS.Kmalloc
open ByteMemory Word BlockList Transition

/-- The loop of `heap_validate`, with the iterations that are left: the block it reports. -/
def findInvalid (m : Mem) : Nat → Nat → Option Nat
  | 0, _ => none
  | left + 1, current =>
    if current = 0 then none
    else if isValidBlock m current = false then some current
    else findInvalid m left (heapBlock.load m current .next)

def heapValidate (h : Heap) : Heap × Bool :=
  if h.heapInitialized = false then (h, false)
  else
    match findInvalid h.mem 10000 h.heapHead with
    | some current =>
      (h.print [.setcolor .lightRed .black,
        .writestring "[ERROR] Heap corrupto en bloque: 0x", .printHex current,
        .writestring "\n"], false)
    | none => (h, true)

/-- The blocks that are reached from `current` through `next`, up to the null pointer. -/
inductive BlocksFrom (m : Mem) : Nat → List Nat → Prop
  | nil : BlocksFrom m 0 []
  | cons {a : Nat} {addrs : List Nat} : a ≠ 0 →
      BlocksFrom m (heapBlock.load m a .next) addrs → BlocksFrom m a (a :: addrs)

/-- The blocks lie one above the other from `lo` on, up to the end of the heap. -/
def FitsFrom (m : Mem) : Nat → List Nat → Prop
  | lo, [] => lo ≤ heapStart + heapSize
  | lo, a :: addrs => lo ≤ a ∧ FitsFrom m (a + (29 + heapBlock.load m a .size)) addrs

def blockAddrs : Nat → List Block → List Nat
  | _, [] => []
  | a, b :: bs => a :: blockAddrs (a + (29 + b.size)) bs

section Blocks
variable {m : Mem} {prv a nxt current left : Nat} {bs : List Block} {addrs : List Nat}

theorem findInvalid_eq (h : BlocksFrom m current addrs) (left : Nat) :
    findInvalid m left current =
      (addrs.take left).find? fun a => isValidBlock m a = false := by
  induction left generalizing current addrs with
  | zero => rfl
  | succ left ih =>
    cases h with
    | nil => rfl
    | cons hne hnext =>
      rw [findInvalid, if_neg hne, List.take_succ_cons, List.find?_cons, ih hnext]
      by_cases hvalid : isValidBlock m current = false
      · rw [if_pos hvalid, decide_eq_true hvalid]
      · rw [if_neg hvalid, decide_eq_false hvalid]

theorem heapValidate_iff {h : Heap} (hlist : BlocksFrom h.mem h.heapHead addrs) :
    (heapValidate h).2 = true ↔
      h.heapInitialized = true ∧ ∀ a ∈ addrs.take 10000, isValidBlock h.mem a = true := by
  rw [heapValidate, findInvalid_eq hlist]
  by_cases hinit : h.heapInitialized = false
  · rw [if_pos hinit, hinit]
    simp
  · rw [if_neg hinit]
    cases hfind : (addrs.take 10000).find? fun a => isValidBlock h.mem a = false with
    | none =>
      have hvalid := List.find?_eq_none.mp hfind
      refine ⟨fun _ => ⟨Bool.of_not_eq_false hinit, fun a ha => ?_⟩, fun _ => rfl⟩
      simpa using hvalid a ha
    | some a =>
      have hinvalid := List.find?_some hfind
      refine iff_of_false Bool.false_ne_true fun hvalid => ?_
      rw [hvalid.2 a (List.mem_of_find?_eq_some hfind)] at hinvalid
      exact absurd hinvalid (by decide)

theorem Linked.blocksFrom (h : Linked m prv a bs nxt) (ha : 0 < a) {rest : List Nat}
    (hrest : BlocksFrom m nxt rest) :
    BlocksFrom m (headOr a nxt bs) (blockAddrs a bs ++ rest) := by
  induction bs generalizing prv a with
  | nil => exact hrest
  | cons b bs ih =>
    have hnext : BlocksFrom m (heapBlock.load m a .next)
        (blockAddrs (a + (29 + b.size)) bs ++ rest) := by
      rw [h.1.next]
      exact ih h.2 (by omega)
    exact .cons ha.ne' hnext

theorem Linked.fitsFrom (h : Linked m prv a bs nxt) {rest : List Nat}
    (hrest : FitsFrom m (a + extent 29 bs) rest) : FitsFrom m a (blockAddrs a bs ++ rest) := by
  induction bs generalizing prv a with
  | nil => exact hrest
  | cons b bs ih =>
    refine ⟨le_refl a, ?_⟩
    rw [h.1.size]
    refine ih h.2 ?_
    rw [extent_cons] at hrest
    rwa [Nat.add_assoc]

theorem Linked.valid (h : Linked m prv a bs nxt) (hlo : heapStart ≤ a)
    (hhi : a + extent 29 bs ≤ heapStart + heapSize) :
    ∀ x ∈ blockAddrs a bs, isValidBlock m x = true := by
  induction bs generalizing prv a with
  | nil => exact fun x hx => absurd hx List.not_mem_nil
  | cons b bs ih =>
    rw [extent_cons] at hhi
    rw [blockAddrs, List.forall_mem_cons]
    exact ⟨isValidBlock_of_header h.1 hlo (by omega), ih h.2 (by omega) (by omega)⟩

theorem length_blockAddrs (a : Nat) (bs : List Block) : (blockAddrs a bs).length = bs.length := by
  induction bs generalizing a with
  | nil => rfl
  | cons b bs ih => rw [blockAddrs, List.length_cons, List.length_cons, ih]

end Blocks

/-- No invalid block comes after 10000 valid ones; before `heap_init`, when the answer is no,
there has to be an invalid block. -/
def ValidatedOn (h : Heap) (addrs : List Nat) : Prop :=
  if h.heapInitialized = true then
    (∀ a ∈ addrs.take 10000, isValidBlock h.mem a = true) →
      ∀ a ∈ addrs.drop 10000, isValidBlock h.mem a = true
  else ∃ a ∈ addrs, isValidBlock h.mem a = false

/-- For a list that ends, whatever its blocks are, `heap_validate` answers whether they are all
valid exactly in that case. -/
theorem heap_validate_iff {h : Heap} {addrs : List Nat}
    (hlist : BlocksFrom h.mem h.heapHead addrs) :
    ((heapValidate h).2 = true ↔ ∀ a ∈ addrs, isValidBlock h.mem a = true) ↔
      ValidatedOn h addrs := by
  have hall : (∀ a ∈ addrs, isValidBlock h.mem a = true) ↔
      (∀ a ∈ addrs.take 10000, isValidBlock h.mem a = true) ∧
        ∀ a ∈ addrs.drop 10000, isValidBlock h.mem a = true := by
    rw [← List.forall_mem_append, List.take_append_drop]
  rw [heapValidate_iff hlist, ValidatedOn]
  by_cases hinit : h.heapInitialized = true
  · rw [if_pos hinit, and_iff_right hinit, hall]
    exact ⟨fun hiff htake => (hiff.mp htake).2, fun hdrop => ⟨fun htake => ⟨htake, hdrop htake⟩,
      And.left⟩⟩
  · rw [if_neg hinit]
    constructor
    · intro hiff
      by_contra hnone
      push Not at hnone
      refine hinit (hiff.mpr fun a ha => ?_).1
      exact Bool.of_not_eq_false (hnone a ha)
    · rintro ⟨a, ha, hinvalid⟩
      refine iff_of_false (fun hvalid => hinit hvalid.1) fun hvalid => ?_
      rw [hvalid a ha] at hinvalid
      exact absurd hinvalid (by decide)

/-- Whatever calls were made, a heap that nobody else has written to passes. -/
theorem validate_reachable {s : State} (hs : heapSystem.Reachable s) :
    (heapValidate s.heap).2 = true := by
  obtain ⟨bs, ht⟩ := exists_tiles hs
  have hh := ht.holds
  have hlist := hh.linked.blocksFrom (by decide) .nil
  rw [hh.headOr, List.append_nil] at hlist
  refine (heapValidate_iff hlist).mpr ⟨hh.initialized, fun a ha => ?_⟩
  exact hh.linked.valid (le_refl _) (by rw [hh.arena.fills]) a (List.mem_of_mem_take ha)

section Damage
variable {h : Heap} {m : Mem} {prv a x nxt : Nat} {bs pre post : List Block} {b : Block}

theorem Linked.damage (h : Linked m prv a bs nxt) (hx : x + 29 ≤ a ∨ a + extent 29 bs ≤ x)
    (v : Nat) : Linked (heapBlock.store m x .magic v) prv a bs nxt := by
  refine h.congr fun y hy => (store_apply ?_).symm
  have hin := headerBytes_subset 29 _ _ hy
  rw [Set.mem_Ico] at hin
  omega

def Heap.damaged (h : Heap) (x : Nat) : Heap :=
  { h with mem := heapBlock.store h.mem x .magic 0 }

theorem invalid_damaged (h : Heap) (x : Nat) : isValidBlock (h.damaged x).mem x = false := by
  have hmagic : heapBlock.load (h.damaged x).mem x .magic = 0 := load_store_magic (by decide)
  rw [isValidBlock, hmagic]
  by_cases hx : x = 0
  · rw [if_pos hx]
  · rw [if_neg hx, if_pos (by decide)]

theorem Holds.damage (hh : Holds h (pre ++ b :: post)) :
    let x := heapStart + extent 29 pre
    let addrs := blockAddrs heapStart pre ++ x :: blockAddrs (x + (29 + b.size)) post
    BlocksFrom (h.damaged x).mem (h.damaged x).heapHead addrs ∧
      FitsFrom (h.damaged x).mem heapStart addrs ∧
        ∀ y ∈ blockAddrs heapStart pre, isValidBlock (h.damaged x).mem y = true := by
  have hfills := hh.arena.fills
  rw [extent_append, extent_cons] at hfills
  obtain ⟨hpre, hheader, hpost⟩ := linked_append_cons.mp hh.linked
  have hpre := hpre.damage (.inr (le_refl _)) 0
  have hpost := hpost.damage (.inl (Nat.add_le_add_left (Nat.le_add_right 29 b.size) _)) 0
  have hstart := heapStart_eq
  have hhead : Kmalloc.headOr heapStart (heapStart + extent 29 pre) pre = h.heapHead := by
    rw [hh.head]
    cases pre with
    | nil => rfl
    | cons c pre => rfl
  refine ⟨?_, ?_, ?_⟩
  · have hnext := (load_store_ne (v := 0) (by decide : Field.magic ≠ .next)).trans hheader.next
    have hrest := hpost.blocksFrom (by omega) .nil
    rw [← hnext, List.append_nil] at hrest
    exact hhead ▸ hpre.blocksFrom (by decide) (.cons (by omega) hrest)
  · have hsize := (load_store_ne (v := 0) (by decide : Field.magic ≠ .size)).trans hheader.size
    have hend : FitsFrom (heapBlock.store h.mem (heapStart + extent 29 pre) .magic 0)
        (heapStart + extent 29 pre + (29 + b.size) + extent 29 post) [] := by
      rw [FitsFrom]
      omega
    have hrest := hpost.fitsFrom hend
    rw [List.append_nil] at hrest
    refine hpre.fitsFrom ⟨le_refl _, ?_⟩
    rw [hsize]
    exact hrest
  · exact hpre.valid (le_refl _) (by omega)

end Damage

/-- The 10001st block of a packed heap has lost its magic number, and the heap passes. -/
theorem heap_validate_failure :
    (∃ h addrs, h.heapInitialized = true ∧ BlocksFrom h.mem h.heapHead addrs ∧
      FitsFrom h.mem heapStart addrs ∧ (∃ a, addrs[10000]? = some a ∧ isValidBlock h.mem a = false) ∧
      (heapValidate h).2 = true) ∧
    ¬∀ (h : Heap) (addrs : List Nat), h.heapInitialized = true →
      BlocksFrom h.mem h.heapHead addrs → FitsFrom h.mem heapStart addrs →
        ((heapValidate h).2 = true ↔ ∀ a ∈ addrs, isValidBlock h.mem a = true) := by
  obtain ⟨s, -, hpacked⟩ := exists_packed 10001 (by decide)
  obtain ⟨pre, b, post, hlength, hholds⟩ : ∃ pre b post, pre.length = 10000 ∧
      Holds s.heap (pre ++ b :: post) := by
    rw [packed, List.replicate_succ', List.append_assoc] at hpacked
    exact ⟨_, _, _, List.length_replicate, hpacked⟩
  obtain ⟨hlist, hfits, hvalid⟩ := hholds.damage
  have hinvalid := invalid_damaged s.heap (heapStart + extent 29 pre)
  have haddrs : (blockAddrs heapStart pre).length = 10000 :=
    (length_blockAddrs heapStart pre).trans hlength
  have hpasses : (heapValidate (s.heap.damaged (heapStart + extent 29 pre))).2 = true := by
    refine (heapValidate_iff hlist).mpr ⟨hholds.initialized, ?_⟩
    rw [List.take_left' haddrs]
    exact hvalid
  refine ⟨⟨s.heap.damaged _, _, hholds.initialized, hlist, hfits, ⟨_, ?_, hinvalid⟩, hpasses⟩,
    fun hclaim => ?_⟩
  · rw [List.getElem?_append_right (Nat.le_of_eq haddrs), haddrs, Nat.sub_self,
      List.getElem?_cons_zero]
  · have hall := (hclaim (s.heap.damaged _) _ hholds.initialized hlist hfits).mp hpasses
    rw [hall _ (List.mem_append_right _ List.mem_cons_self)] at hinvalid
    exact absurd hinvalid (by decide)

theorem heap_validate_iff_holed : ∃ h, Holds h holed ∧
    (((heapValidate h).2 = true ↔ ∀ a ∈ blockAddrs heapStart holed, isValidBlock h.mem a = true) ↔
      ValidatedOn h (blockAddrs heapStart holed)) := by
  obtain ⟨s, -, hholds⟩ := exists_holed
  have hlist := hholds.linked.blocksFrom (by decide) .nil
  rw [hholds.headOr, List.append_nil] at hlist
  exact ⟨s.heap, hholds, heap_validate_iff hlist⟩

end AlvOS.Kmalloc
