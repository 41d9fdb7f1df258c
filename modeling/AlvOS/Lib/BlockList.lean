import Mathlib.Algebra.GroupWithZero.Nat
import Mathlib.Data.List.Chain
import Mathlib.Data.List.Perm.Basic
import Mathlib.Data.Set.Lattice
import Mathlib.Order.CompletePartialOrder
import Mathlib.Order.Interval.Set.Basic

/-! First-fit allocation over a list of adjacent blocks, each a header of `hdr`
bytes followed by its payload.  The list alone determines the layout: a block
lies where the blocks before it end.  Allocation takes the first free block with
room and carves the remainder off; release merges the block with the whole run
of free blocks around it. -/

namespace BlockList
open Set

structure Block where
  size : Nat
  free : Bool
deriving DecidableEq, Repr

def Fits (s : Nat) (b : Block) : Prop := b.free = true ∧ s ≤ b.size

instance (s : Nat) (b : Block) : Decidable (Fits s b) := inferInstanceAs (Decidable (_ ∧ _))

def Coalesced (bs : List Block) : Prop := bs.IsChain fun b c => ¬(b.free = true ∧ c.free = true)

section Layout
variable (hdr : Nat)

def extent : List Block → Nat
  | [] => 0
  | b :: bs => hdr + b.size + extent bs

@[simp] theorem extent_nil : extent hdr [] = 0 := rfl

@[simp] theorem extent_cons (b : Block) (bs : List Block) :
    extent hdr (b :: bs) = hdr + b.size + extent hdr bs := rfl

@[simp] theorem extent_append (xs ys : List Block) :
    extent hdr (xs ++ ys) = extent hdr xs + extent hdr ys := by
  induction xs with
  | nil => simp
  | cons x xs ih => simp only [List.cons_append, extent_cons, ih, Nat.add_assoc]

theorem extent_eq (bs : List Block) :
    extent hdr bs = hdr * bs.length + (bs.map Block.size).sum := by
  induction bs with
  | nil => rfl
  | cons b bs ih =>
    rw [extent_cons, ih, List.length_cons, List.map_cons, List.sum_cons, Nat.mul_succ]
    omega

/-- The used blocks of a list laid out from `a`: payload address and size. -/
def allocations : Nat → List Block → List (Nat × Nat)
  | _, [] => []
  | a, b :: bs =>
    (if b.free then [] else [(a + hdr, b.size)]) ++ allocations (a + (hdr + b.size)) bs

def usedPtrs (a : Nat) (bs : List Block) : List Nat := (allocations hdr a bs).map Prod.fst

theorem allocations_append (a : Nat) (xs ys : List Block) : allocations hdr a (xs ++ ys) =
    allocations hdr a xs ++ allocations hdr (a + extent hdr xs) ys := by
  induction xs generalizing a with
  | nil => rfl
  | cons x xs ih =>
    simp only [List.cons_append, allocations, ih, extent_cons, List.append_assoc, Nat.add_assoc]

theorem allocations_cons_free (a : Nat) {b : Block} (hb : b.free = true) (bs : List Block) :
    allocations hdr a (b :: bs) = allocations hdr (a + (hdr + b.size)) bs := by
  simp [allocations, hb]

theorem allocations_cons_used (a : Nat) {b : Block} (hb : b.free = false) (bs : List Block) :
    allocations hdr a (b :: bs) =
      (a + hdr, b.size) :: allocations hdr (a + (hdr + b.size)) bs := by
  simp [allocations, hb]

theorem mem_allocations {a p n : Nat} {bs : List Block} : (p, n) ∈ allocations hdr a bs ↔
    ∃ pre b post, bs = pre ++ b :: post ∧ b.free = false ∧ p = a + extent hdr pre + hdr ∧
      n = b.size := by
  induction bs generalizing a with
  | nil => simp [allocations]
  | cons c cs ih =>
    rw [allocations, List.mem_append, ih]
    constructor
    · rintro (hp | ⟨pre, b, post, rfl, hb, rfl, rfl⟩)
      · cases hc : c.free with
        | true => simp [hc] at hp
        | false =>
          simp only [hc, Bool.false_eq_true, if_false, List.mem_singleton, Prod.mk.injEq] at hp
          exact ⟨[], c, cs, rfl, hc, hp⟩
      · exact ⟨c :: pre, b, post, rfl, hb, by rw [extent_cons]; omega, rfl⟩
    · rintro ⟨pre, b, post, heq, hb, rfl, rfl⟩
      cases pre with
      | nil =>
        obtain ⟨rfl, rfl⟩ := List.cons.inj heq
        exact .inl (by simp [hb])
      | cons d pre =>
        obtain ⟨rfl, rfl⟩ := List.cons.inj heq
        exact .inr ⟨pre, b, post, rfl, hb, by rw [extent_cons]; omega, rfl⟩

theorem mem_usedPtrs {a p : Nat} {bs : List Block} : p ∈ usedPtrs hdr a bs ↔
    ∃ pre b post, bs = pre ++ b :: post ∧ b.free = false ∧ p = a + extent hdr pre + hdr := by
  rw [usedPtrs, List.mem_map]
  constructor
  · rintro ⟨⟨p, n⟩, hmem, rfl⟩
    obtain ⟨pre, b, post, hbs, hb, hp, -⟩ := (mem_allocations hdr).mp hmem
    exact ⟨pre, b, post, hbs, hb, hp⟩
  · rintro ⟨pre, b, post, hbs, hb, hp⟩
    exact ⟨(p, b.size), (mem_allocations hdr).mpr ⟨pre, b, post, hbs, hb, hp, rfl⟩, rfl⟩

theorem le_of_mem_allocations {a p n : Nat} {bs : List Block} (h : (p, n) ∈ allocations hdr a bs) :
    a + hdr ≤ p ∧ p + n ≤ a + extent hdr bs := by
  obtain ⟨pre, b, post, rfl, -, rfl, rfl⟩ := (mem_allocations hdr).mp h
  rw [extent_append, extent_cons]
  omega

theorem allocations_pairwise (a : Nat) (bs : List Block) :
    (allocations hdr a bs).Pairwise fun x y => x.1 + x.2 + hdr ≤ y.1 := by
  induction bs generalizing a with
  | nil => exact .nil
  | cons b bs ih =>
    cases hb : b.free with
    | true => rw [allocations_cons_free hdr a hb]; exact ih _
    | false =>
      rw [allocations_cons_used hdr a hb, List.pairwise_cons]
      refine ⟨fun y hy => ?_, ih _⟩
      have := (le_of_mem_allocations hdr hy).1
      dsimp only
      omega

theorem usedPtrs_nodup (hpos : 0 < hdr) (a : Nat) (bs : List Block) :
    (usedPtrs hdr a bs).Nodup := by
  refine List.pairwise_map.mpr ((allocations_pairwise hdr a bs).imp fun hxy => ?_)
  omega

def headerBytes : Nat → List Block → Set Nat
  | _, [] => ∅
  | a, b :: bs => Ico a (a + hdr) ∪ headerBytes (a + (hdr + b.size)) bs

def usedBytes : Nat → List Block → Set Nat
  | _, [] => ∅
  | a, b :: bs =>
    (if b.free then ∅ else Ico (a + hdr) (a + (hdr + b.size))) ∪ usedBytes (a + (hdr + b.size)) bs

theorem headerBytes_append (a : Nat) (xs ys : List Block) : headerBytes hdr a (xs ++ ys) =
    headerBytes hdr a xs ∪ headerBytes hdr (a + extent hdr xs) ys := by
  induction xs generalizing a with
  | nil => simp [headerBytes]
  | cons x xs ih =>
    simp only [List.cons_append, headerBytes, ih, extent_cons, union_assoc, Nat.add_assoc]

theorem usedBytes_append (a : Nat) (xs ys : List Block) : usedBytes hdr a (xs ++ ys) =
    usedBytes hdr a xs ∪ usedBytes hdr (a + extent hdr xs) ys := by
  induction xs generalizing a with
  | nil => simp [usedBytes]
  | cons x xs ih =>
    simp only [List.cons_append, usedBytes, ih, extent_cons, union_assoc, Nat.add_assoc]

def freeHeads : Nat → List Block → Set Nat
  | _, [] => ∅
  | a, b :: bs => (if b.free then {a} else ∅) ∪ freeHeads (a + (hdr + b.size)) bs

theorem freeHeads_append (a : Nat) (xs ys : List Block) : freeHeads hdr a (xs ++ ys) =
    freeHeads hdr a xs ∪ freeHeads hdr (a + extent hdr xs) ys := by
  induction xs generalizing a with
  | nil => simp [freeHeads]
  | cons x xs ih =>
    simp only [List.cons_append, freeHeads, ih, extent_cons, union_assoc, Nat.add_assoc]

theorem exists_of_mem_freeHeads {a x : Nat} {bs : List Block} (h : x ∈ freeHeads hdr a bs) :
    ∃ pre b post, bs = pre ++ b :: post ∧ b.free = true ∧ x = a + extent hdr pre := by
  induction bs generalizing a with
  | nil => exact h.elim
  | cons c cs ih =>
    rcases h with h | h
    · split_ifs at h with hc
      · exact ⟨[], c, cs, rfl, hc, h⟩
      · exact h.elim
    · obtain ⟨pre, b, post, rfl, hb, rfl⟩ := ih h
      exact ⟨c :: pre, b, post, rfl, hb, by rw [extent_cons]; omega⟩

theorem headerBytes_append_mono (a : Nat) (pre : List Block) {ys zs : List Block}
    (h : headerBytes hdr (a + extent hdr pre) ys ⊆ headerBytes hdr (a + extent hdr pre) zs) :
    headerBytes hdr a (pre ++ ys) ⊆ headerBytes hdr a (pre ++ zs) := by
  rw [headerBytes_append, headerBytes_append]
  exact union_subset_union_right _ h

theorem headerBytes_tail_subset (a : Nat) (pre post : List Block) :
    headerBytes hdr (a + extent hdr pre) post ⊆ headerBytes hdr a (pre ++ post) := by
  rw [headerBytes_append]
  exact subset_union_right

theorem headerBytes_subset (a : Nat) (bs : List Block) :
    headerBytes hdr a bs ⊆ Ico a (a + extent hdr bs) := by
  induction bs generalizing a with
  | nil => simp [headerBytes]
  | cons b bs ih =>
    rintro x (hx | hx)
    · exact ⟨hx.1, by have := hx.2; rw [extent_cons]; omega⟩
    · have h := ih _ hx
      exact ⟨by have := h.1; omega, by have := h.2; rw [extent_cons]; omega⟩

theorem usedBytes_subset (a : Nat) (bs : List Block) :
    usedBytes hdr a bs ⊆ Ico a (a + extent hdr bs) := by
  induction bs generalizing a with
  | nil => simp [usedBytes]
  | cons b bs ih =>
    rintro x (hx | hx)
    · split_ifs at hx
      · exact hx.elim
      · exact ⟨by have := hx.1; omega, by have := hx.2; rw [extent_cons]; omega⟩
    · have h := ih _ hx
      exact ⟨by have := h.1; omega, by have := h.2; rw [extent_cons]; omega⟩

theorem disjoint_headerBytes_usedBytes (a : Nat) (bs : List Block) :
    Disjoint (headerBytes hdr a bs) (usedBytes hdr a bs) := by
  induction bs generalizing a with
  | nil => simp [headerBytes]
  | cons b bs ih =>
    rw [disjoint_left]
    rintro x (hx | hx) (hy | hy)
    · split_ifs at hy
      · exact hy.elim
      · have := hx.2; have := hy.1; omega
    · have := hx.2; have := (usedBytes_subset hdr _ _ hy).1; omega
    · split_ifs at hy
      · exact hy.elim
      · have := hy.2; have := (headerBytes_subset hdr _ _ hx).1; omega
    · exact disjoint_left.mp (ih _) hx hy

theorem disjoint_usedBytes_free (a : Nat) (pre : List Block) {b : Block} (hb : b.free = true)
    (post : List Block) : Disjoint (usedBytes hdr a (pre ++ b :: post))
      (Ico (a + extent hdr pre) (a + extent hdr pre + (hdr + b.size))) := by
  rw [disjoint_left]
  intro x hx hy
  rw [usedBytes_append, usedBytes, if_pos hb, empty_union] at hx
  rcases hx with hx | hx
  · have := (usedBytes_subset hdr _ _ hx).2; have := hy.1; omega
  · have := (usedBytes_subset hdr _ _ hx).1; have := hy.2; omega

theorem Ico_subset_usedBytes (a : Nat) (pre : List Block) {b : Block} (hb : b.free = false)
    (post : List Block) :
    Ico (a + extent hdr pre + hdr) (a + extent hdr pre + hdr + b.size) ⊆
      usedBytes hdr a (pre ++ b :: post) := by
  intro x hx
  rw [usedBytes_append, usedBytes, hb]
  exact .inr (.inl ⟨hx.1, by have := hx.2; omega⟩)

theorem Ico_subset_of_mem_allocations {a p n : Nat} {bs : List Block}
    (h : (p, n) ∈ allocations hdr a bs) : Ico p (p + n) ⊆ usedBytes hdr a bs := by
  obtain ⟨pre, b, post, rfl, hb, rfl, rfl⟩ := (mem_allocations hdr).mp h
  exact Ico_subset_usedBytes hdr a pre hb post

def Apart (x y : Nat × Nat) : Prop := x.1 ≠ y.1 → x.1 + x.2 ≤ y.1 ∨ y.1 + y.2 ≤ x.1

instance : Std.Symm Apart := ⟨fun _ _ h hne => (h hne.symm).symm⟩

theorem allocations_apart {a : Nat} {x y : Nat × Nat} {bs : List Block}
    (hx : x ∈ allocations hdr a bs) (hy : y ∈ allocations hdr a bs) : Apart x y := by
  have hpair : (allocations hdr a bs).Pairwise Apart :=
    (allocations_pairwise hdr a bs).imp fun hxy _ => by omega
  exact hpair.forall_of_forall (fun z _ hne => absurd rfl hne) hx hy

end Layout

/-! ## Neighbours -/

theorem coalesced_append_used {pre post : List Block} {c : Block} (hc : c.free = false) :
    Coalesced (pre ++ c :: post) ↔ Coalesced pre ∧ Coalesced post := by
  rw [Coalesced, List.isChain_append, List.isChain_cons]
  constructor
  · rintro ⟨hpre, ⟨-, hpost⟩, -⟩
    exact ⟨hpre, hpost⟩
  · rintro ⟨hpre, hpost⟩
    exact ⟨hpre, ⟨fun y _ => by simp [hc], hpost⟩, fun x _ y hy => by simp_all⟩

theorem coalesced_cons_congr {b c : Block} {post : List Block} (hbc : b.free = c.free)
    (h : Coalesced (b :: post)) : Coalesced (c :: post) := by
  rw [Coalesced, List.isChain_cons] at h ⊢
  rw [← hbc]
  exact h

theorem Coalesced.of_append_left {pre post : List Block} (h : Coalesced (pre ++ post)) :
    Coalesced pre :=
  (List.isChain_append.mp h).1

theorem Coalesced.of_append_right {pre post : List Block} (h : Coalesced (pre ++ post)) :
    Coalesced post :=
  (List.isChain_append.mp h).2.1

theorem Coalesced.eq_singleton {bs : List Block} (h : Coalesced bs) (hne : bs ≠ [])
    (hfree : ∀ b ∈ bs, b.free = true) : ∃ b, bs = [b] ∧ b.free = true := by
  match bs, hne with
  | [b], _ => exact ⟨b, rfl, hfree b (by simp)⟩
  | b :: c :: bs, _ =>
    have hbc := (List.isChain_cons_cons.mp h).1
    exact absurd ⟨hfree b (by simp), hfree c (by simp)⟩ hbc

theorem free_of_usedPtrs_eq_nil {hdr a : Nat} {bs : List Block} (h : usedPtrs hdr a bs = []) :
    ∀ b ∈ bs, b.free = true := by
  intro b hb
  obtain ⟨pre, post, rfl⟩ := List.append_of_mem hb
  by_contra hused
  have hmem : a + extent hdr pre + hdr ∈ usedPtrs hdr a (pre ++ b :: post) :=
    (mem_usedPtrs hdr).mpr ⟨pre, b, post, rfl, by simpa using hused, rfl⟩
  simp [h] at hmem

/-! ## Allocation and release -/

/-- `b`, found between `pre` and `post`, is the first block of `bs` with room for `s` bytes. -/
structure FirstFit (s : Nat) (bs pre : List Block) (b : Block) (post : List Block) : Prop where
  split : bs = pre ++ b :: post
  skipped : ∀ c ∈ pre, ¬Fits s c
  fits : Fits s b

theorem firstFit_or_none (s : Nat) (bs : List Block) :
    (∀ b ∈ bs, ¬Fits s b) ∨ ∃ pre b post, FirstFit s bs pre b post := by
  induction bs with
  | nil => exact .inl (by simp)
  | cons c cs ih =>
    by_cases hc : Fits s c
    · exact .inr ⟨[], c, cs, rfl, by simp, hc⟩
    · rcases ih with hnone | ⟨pre, b, post, rfl, hskip, hfit⟩
      · exact .inl fun b hb => (List.mem_cons.mp hb).elim (fun h => h ▸ hc) (hnone b)
      · exact .inr ⟨c :: pre, b, post, rfl,
          fun d hd => (List.mem_cons.mp hd).elim (fun h => h ▸ hc) (hskip d), hfit⟩

section Arena
variable (hdr minPayload : Nat)

/-- What a free block becomes when `s` bytes are taken from it. -/
def carve (s : Nat) (b : Block) : List Block :=
  if b.size < s + (hdr + minPayload) then [⟨b.size, false⟩]
  else [⟨s, false⟩, ⟨b.size - s - hdr, true⟩]

/-- `b` merged with the run of free blocks that follows it. -/
def absorb (b : Block) : List Block → List Block
  | [] => [b]
  | n :: post =>
    if n.free then absorb ⟨b.size + (hdr + n.size), b.free⟩ post else b :: n :: post

/-- `b` merged with the free blocks on both sides; the list before it is given reversed. -/
def coalesce : List Block → Block → List Block → List Block
  | [], b, post => absorb hdr b post
  | p :: rev, b, post =>
    if p.free then coalesce rev p (absorb hdr b post) else rev.reverse ++ p :: absorb hdr b post

theorem extent_carve (s : Nat) (b : Block) :
    extent hdr (carve hdr minPayload s b) = hdr + b.size := by
  by_cases hsmall : b.size < s + (hdr + minPayload)
  · simp [carve, hsmall]
  · rw [carve, if_neg hsmall, extent_cons, extent_cons, extent_nil]
    dsimp only
    omega

def takenSize (s : Nat) (b : Block) : Nat :=
  if b.size < s + (hdr + minPayload) then b.size else s

theorem le_takenSize {s : Nat} {b : Block} (h : Fits s b) : s ≤ takenSize hdr minPayload s b := by
  unfold takenSize
  split_ifs
  · exact h.2
  · exact le_refl s

theorem allocations_carve (a s : Nat) (b : Block) (post : List Block) :
    allocations hdr a (carve hdr minPayload s b ++ post) =
      (a + hdr, takenSize hdr minPayload s b) :: allocations hdr (a + (hdr + b.size)) post := by
  rw [← extent_carve hdr minPayload s b, allocations_append]
  unfold carve takenSize
  split_ifs <;> simp [allocations]

theorem extent_absorb (b : Block) (post : List Block) :
    extent hdr (absorb hdr b post) = hdr + b.size + extent hdr post := by
  induction post generalizing b with
  | nil => simp [absorb]
  | cons n post ih =>
    rw [absorb]
    split_ifs
    · rw [ih, extent_cons]
      simp only
      omega
    · rfl

theorem allocations_absorb (a : Nat) {b : Block} (hb : b.free = true) (post : List Block) :
    allocations hdr a (absorb hdr b post) = allocations hdr (a + (hdr + b.size)) post := by
  induction post generalizing b with
  | nil => simp [absorb, allocations, hb]
  | cons n post ih =>
    rw [absorb]
    split_ifs with hn
    · rw [ih (b := ⟨b.size + (hdr + n.size), b.free⟩) hb, allocations_cons_free hdr _ hn]
      congr 1
      simp only
      omega
    · rw [allocations_cons_free hdr _ hb]

theorem absorb_eq_cons (b : Block) (post : List Block) : ∃ c rest, absorb hdr b post = c :: rest ∧
    c.free = b.free ∧ rest <:+ post ∧ ∀ d ∈ rest.head?, d.free = false := by
  induction post generalizing b with
  | nil => exact ⟨b, [], rfl, rfl, List.suffix_rfl, by simp⟩
  | cons n post ih =>
    rw [absorb]
    split_ifs with hn
    · obtain ⟨c, rest, heq, hfree, hsuf, hhead⟩ := ih ⟨b.size + (hdr + n.size), b.free⟩
      exact ⟨c, rest, heq, hfree, hsuf.trans (List.suffix_cons n post), hhead⟩
    · exact ⟨b, n :: post, rfl, rfl, List.suffix_rfl, by simpa using hn⟩

theorem coalesced_absorb {b : Block} {post : List Block} (h : Coalesced post) :
    Coalesced (absorb hdr b post) := by
  obtain ⟨c, rest, heq, -, ⟨gone, rfl⟩, hhead⟩ := absorb_eq_cons hdr b post
  rw [heq, Coalesced, List.isChain_cons]
  exact ⟨fun d hd => by simp [hhead d hd], h.of_append_right⟩

theorem headerBytes_merge_subset (a : Nat) (b n : Block) (f : Bool) (post : List Block) :
    headerBytes hdr a (⟨b.size + (hdr + n.size), f⟩ :: post) ⊆
      headerBytes hdr a (b :: n :: post) := by
  have hend : a + (hdr + (b.size + (hdr + n.size))) = a + (hdr + b.size) + (hdr + n.size) := by
    omega
  rintro x (hx | hx)
  · exact .inl hx
  · refine .inr (.inr ?_)
    simpa only [hend] using hx

theorem length_absorb_le (b : Block) (post : List Block) :
    (absorb hdr b post).length ≤ post.length + 1 := by
  obtain ⟨c, rest, heq, -, hsuf, -⟩ := absorb_eq_cons hdr b post
  rw [heq, List.length_cons]
  exact Nat.succ_le_succ hsuf.length_le

theorem extent_coalesce (rev : List Block) (b : Block) (post : List Block) :
    extent hdr (coalesce hdr rev b post) = extent hdr (rev.reverse ++ b :: post) := by
  induction rev generalizing b post with
  | nil => simp [coalesce, extent_absorb]
  | cons p rev ih =>
    rw [coalesce]
    split_ifs
    · rw [ih]
      simp [extent_absorb]
    · simp [extent_absorb]

theorem allocations_coalesce (a : Nat) (rev : List Block) {b : Block} (hb : b.free = true)
    (post : List Block) : allocations hdr a (coalesce hdr rev b post) =
      allocations hdr a (rev.reverse ++ b :: post) := by
  induction rev generalizing b post with
  | nil => rw [coalesce, allocations_absorb hdr a hb, List.reverse_nil, List.nil_append,
      allocations_cons_free hdr a hb]
  | cons p rev ih =>
    have hmerged : allocations hdr a (rev.reverse ++ p :: absorb hdr b post) =
        allocations hdr a (rev.reverse ++ p :: b :: post) := by
      simp only [allocations_append, allocations, allocations_absorb hdr _ hb, hb, if_pos,
        List.nil_append]
    rw [coalesce, List.reverse_cons, List.append_assoc, List.singleton_append]
    split_ifs with hp
    · rw [ih hp, hmerged]
    · exact hmerged

theorem allocations_take (a s : Nat) (pre : List Block) {b : Block} (hb : b.free = true)
    (post : List Block) :
    (allocations hdr a (pre ++ (carve hdr minPayload s b ++ post))).Perm
      ((a + extent hdr pre + hdr, takenSize hdr minPayload s b) ::
        allocations hdr a (pre ++ b :: post)) := by
  rw [allocations_append, allocations_carve, allocations_append, allocations_cons_free hdr _ hb]
  exact List.perm_middle

theorem allocations_give (a : Nat) (pre : List Block) {b : Block} (hb : b.free = false)
    (post : List Block) :
    (allocations hdr a (pre ++ b :: post)).Perm
      ((a + extent hdr pre + hdr, b.size) ::
        allocations hdr a (coalesce hdr pre.reverse ⟨b.size, true⟩ post)) := by
  rw [allocations_coalesce hdr a pre.reverse rfl, List.reverse_reverse, allocations_append,
    allocations_append, allocations_cons_used hdr _ hb, allocations_cons_free hdr _ rfl]
  exact List.perm_middle

theorem coalesced_coalesce {rev : List Block} {b : Block} {post : List Block}
    (hpre : Coalesced rev.reverse) (hpost : Coalesced post) :
    Coalesced (coalesce hdr rev b post) := by
  induction rev generalizing b post with
  | nil => exact coalesced_absorb hdr hpost
  | cons p rev ih =>
    rw [List.reverse_cons] at hpre
    rw [coalesce]
    split_ifs with hp
    · exact ih hpre.of_append_left (coalesced_absorb hdr hpost)
    · exact (coalesced_append_used (by simpa using hp)).mpr
        ⟨hpre.of_append_left, coalesced_absorb hdr hpost⟩

theorem coalesced_carve {s : Nat} {pre : List Block} {b : Block} {post : List Block}
    (hb : b.free = true) (h : Coalesced (pre ++ b :: post)) :
    Coalesced (pre ++ (carve hdr minPayload s b ++ post)) := by
  have hrest : Coalesced (b :: post) := h.of_append_right
  unfold carve
  split_ifs
  · exact (coalesced_append_used rfl).mpr ⟨h.of_append_left, (List.isChain_cons.mp hrest).2⟩
  · exact (coalesced_append_used rfl).mpr ⟨h.of_append_left, coalesced_cons_congr hb hrest⟩

/-- A coalesced list of blocks that fills `N` bytes. -/
structure Arena (N : Nat) (bs : List Block) : Prop where
  fills : extent hdr bs = N
  coalesced : Coalesced bs

/-- One change of the block list: `s` bytes are taken from the first block with
room, or a used block is given back. -/
inductive Step : List Block → List Block → Prop
  | take {s : Nat} {bs pre post : List Block} {b : Block} (_ : FirstFit s bs pre b post) :
      Step bs (pre ++ (carve hdr minPayload s b ++ post))
  | give {pre post : List Block} {b : Block} (_ : b.free = false) :
      Step (pre ++ b :: post) (coalesce hdr pre.reverse ⟨b.size, true⟩ post)

variable {hdr minPayload}

theorem Arena.ne_nil {N : Nat} {bs : List Block} (h : Arena hdr N bs) (hN : 0 < N) : bs ≠ [] := by
  rintro rfl
  exact absurd h.fills (by rw [extent_nil]; omega)

theorem Arena.step {N : Nat} {bs bs' : List Block} (h : Arena hdr N bs)
    (hs : Step hdr minPayload bs bs') : Arena hdr N bs' := by
  cases hs with
  | take hfit =>
    obtain ⟨rfl, -, hb, -⟩ := hfit
    refine ⟨?_, coalesced_carve hdr minPayload hb h.coalesced⟩
    rw [← h.fills]
    simp only [extent_append, extent_cons, extent_carve]
  | @give pre post b hb =>
    have hsides := (coalesced_append_used hb).mp h.coalesced
    refine ⟨?_, coalesced_coalesce hdr (by simpa using hsides.1) hsides.2⟩
    rw [← h.fills, extent_coalesce]
    simp

theorem Arena.eq_singleton {N : Nat} {bs : List Block} (h : Arena hdr N bs) (hN : 0 < N)
    (hfree : ∀ b ∈ bs, b.free = true) : bs = [⟨N - hdr, true⟩] := by
  obtain ⟨⟨size, free⟩, rfl, hb⟩ := h.coalesced.eq_singleton (h.ne_nil hN) hfree
  have hfills := h.fills
  simp only [extent_cons, extent_nil] at hfills hb
  rw [hb, ← hfills]
  simp

end Arena

/-! ## Uniqueness -/

theorem FirstFit.unique {s : Nat} {bs pre pre' post post' : List Block} {b b' : Block}
    (h : FirstFit s bs pre b post) (h' : FirstFit s bs pre' b' post') :
    pre = pre' ∧ b = b' ∧ post = post' := by
  obtain ⟨rfl, hskip, hfit⟩ := h
  obtain ⟨hsplit, hskip', hfit'⟩ := h'
  induction pre generalizing pre' with
  | nil =>
    cases pre' with
    | nil => exact ⟨rfl, List.cons.inj hsplit⟩
    | cons c pre' =>
      obtain ⟨rfl, -⟩ := List.cons.inj hsplit
      exact absurd hfit (hskip' _ (.head _))
  | cons c pre ih =>
    cases pre' with
    | nil =>
      obtain ⟨rfl, -⟩ := List.cons.inj hsplit
      exact absurd hfit' (hskip _ (.head _))
    | cons c' pre' =>
      obtain ⟨rfl, hrest⟩ := List.cons.inj hsplit
      obtain ⟨rfl, hb, hpost⟩ := ih (fun d hd => hskip d (.tail _ hd)) hrest
        fun d hd => hskip' d (.tail _ hd)
      exact ⟨rfl, hb, hpost⟩

section Layouts
variable {hdr a : Nat} {b c : Block} {bs cs : List Block}

theorem Coalesced.size_of_free (hb : b.free = true) (hc : c.free = true)
    (hbs : Coalesced (b :: bs)) (hcs : Coalesced (c :: cs))
    (hext : extent hdr (b :: bs) = extent hdr (c :: cs))
    (hall : allocations hdr a (b :: bs) = allocations hdr a (c :: cs)) : b.size = c.size := by
  rw [allocations_cons_free hdr a hb, allocations_cons_free hdr a hc] at hall
  have hused : ∀ {d e : Block} {ds : List Block}, d.free = true → Coalesced (d :: e :: ds) →
      e.free = false := fun hd h => by
    have hde := (List.isChain_cons_cons.mp h).1
    simpa [hd] using hde
  rcases bs with _ | ⟨d, bs⟩ <;> rcases cs with _ | ⟨e, cs⟩
  · simpa using hext
  · rw [allocations_cons_used hdr _ (hused hc hcs)] at hall
    cases hall
  · rw [allocations_cons_used hdr _ (hused hb hbs)] at hall
    cases hall
  · rw [allocations_cons_used hdr _ (hused hb hbs), allocations_cons_used hdr _ (hused hc hcs)]
      at hall
    have hfirst := (Prod.mk.inj (List.cons.inj hall).1).1
    omega

/-- The allocations and the length of the region determine a coalesced list. -/
theorem Coalesced.eq_of_allocations (hdr_pos : 0 < hdr) (hbs : Coalesced bs) (hcs : Coalesced cs)
    (hext : extent hdr bs = extent hdr cs) (hall : allocations hdr a bs = allocations hdr a cs) :
    bs = cs := by
  have hpast : ∀ {a : Nat} {d e : Block} {ds es : List Block}, d.free = false → e.free = true →
      allocations hdr a (d :: ds) ≠ allocations hdr a (e :: es) := fun {a d e ds es} hd he heq => by
    rw [allocations_cons_used hdr a hd, allocations_cons_free hdr a he] at heq
    have hmem : (a + hdr, d.size) ∈ allocations hdr (a + (hdr + e.size)) es := heq ▸ .head _
    have hlow := (le_of_mem_allocations hdr hmem).1
    omega
  induction bs generalizing a cs with
  | nil =>
    cases cs with
    | nil => rfl
    | cons c cs =>
      rw [extent_nil, extent_cons] at hext
      omega
  | cons b bs ih =>
    cases cs with
    | nil =>
      rw [extent_nil, extent_cons] at hext
      omega
    | cons c cs =>
      have hsame : b.free = c.free ∧ b.size = c.size := by
        cases hb : b.free <;> cases hc : c.free
        · rw [allocations_cons_used hdr a hb, allocations_cons_used hdr a hc] at hall
          exact ⟨rfl, (Prod.mk.inj (List.cons.inj hall).1).2⟩
        · exact absurd hall (hpast hb hc)
        · exact absurd hall.symm (hpast hc hb)
        · exact ⟨rfl, hbs.size_of_free hb hc hcs hext hall⟩
      obtain rfl : b = c := by
        cases b
        cases c
        simpa [and_comm] using hsame
      have htail := List.append_cancel_left hall
      rw [ih (List.isChain_cons.mp hbs).2 (List.isChain_cons.mp hcs).2
        (by simpa using hext) htail]

theorem Arena.eq_of_allocations {N : Nat} (hdr_pos : 0 < hdr) (hbs : Arena hdr N bs)
    (hcs : Arena hdr N cs) (hall : (allocations hdr a bs).Perm (allocations hdr a cs)) :
    bs = cs := by
  refine hbs.coalesced.eq_of_allocations hdr_pos hcs.coalesced (hbs.fills.trans hcs.fills.symm)
    (hall.eq_of_pairwise (fun x y _ _ hxy hyx => ?_) (allocations_pairwise hdr a bs)
      (allocations_pairwise hdr a cs))
  omega

end Layouts

/-! ## Totals -/

def totalSize (free : Bool) : List Block → Nat
  | [] => 0
  | b :: bs => (if b.free = free then b.size else 0) + totalSize free bs

theorem extent_eq_totalSize (hdr : Nat) (bs : List Block) :
    extent hdr bs = hdr * bs.length + totalSize true bs + totalSize false bs := by
  induction bs with
  | nil => rfl
  | cons b bs ih =>
    rw [extent_cons, ih, List.length_cons, totalSize, totalSize, Nat.mul_succ]
    cases b.free
    · rw [if_neg (by decide), if_pos rfl]
      omega
    · rw [if_pos rfl, if_neg (by decide)]
      omega

theorem totalSize_false (hdr a : Nat) (bs : List Block) :
    totalSize false bs = ((allocations hdr a bs).map Prod.snd).sum := by
  induction bs generalizing a with
  | nil => rfl
  | cons b bs ih =>
    rw [totalSize, allocations, List.map_append, List.sum_append, ih (a + (hdr + b.size))]
    cases b.free <;> simp

end BlockList
