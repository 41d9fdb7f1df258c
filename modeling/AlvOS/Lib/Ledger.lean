import Mathlib.Algebra.GroupWithZero.Nat
import Mathlib.Data.Finset.Card
import Mathlib.Data.List.Perm.Basic
import Mathlib.Data.Set.Lattice
import Mathlib.Order.CompletePartialOrder

/-! Ownership of units from a common pool.  A ledger lists the claims outstanding; it
balances when every unit in use belongs to nobody from the start or to exactly one
claim.  Granting a claim to unused units and releasing one both keep the balance. -/

namespace Ledger
variable {ι : Type*}

/-- The units `used` are those of `kept` and of the `claims`, none of them twice. -/
structure Balanced (kept used : Set ι) (claims : List (Finset ι)) : Prop where
  mem_iff : ∀ x, x ∈ used ↔ x ∈ kept ∨ ∃ c ∈ claims, x ∈ c
  apart : claims.Pairwise Disjoint
  fresh : ∀ c ∈ claims, ∀ x ∈ c, x ∉ kept

namespace Balanced
variable {kept used : Set ι} {claims rest : List (Finset ι)} {c : Finset ι}

theorem start (kept : Set ι) : Balanced kept kept [] := ⟨by simp, .nil, by simp⟩

theorem perm (h : Balanced kept used claims) (hp : claims.Perm rest) : Balanced kept used rest := by
  refine ⟨fun x => ?_, ?_, fun c hc => h.fresh c (hp.mem_iff.mpr hc)⟩
  · rw [h.mem_iff]
    simp only [hp.mem_iff]
  · exact (hp.pairwise_iff fun hxy => hxy.symm).mp h.apart

theorem grant (h : Balanced kept used claims) (hc : ∀ x ∈ c, x ∉ used) :
    Balanced kept (used ∪ ↑c) (c :: claims) := by
  refine ⟨fun x => ?_, List.pairwise_cons.mpr ⟨fun d hd => ?_, h.apart⟩, fun d hd x hx => ?_⟩
  · simp only [Set.mem_union, Finset.mem_coe, h.mem_iff, List.exists_mem_cons_iff]
    rw [or_assoc, or_comm (a := ∃ d ∈ claims, x ∈ d)]
  · rw [Finset.disjoint_left]
    intro x hx hx'
    apply hc x hx
    rw [h.mem_iff]
    exact .inr ⟨d, hd, hx'⟩
  · rcases List.mem_cons.mp hd with rfl | hd
    · intro hkept
      apply hc x hx
      rw [h.mem_iff]
      exact .inl hkept
    · exact h.fresh d hd x hx

theorem release (h : Balanced kept used (c :: claims)) :
    Balanced kept (used \ ↑c) claims := by
  obtain ⟨hapart, hrest⟩ := List.pairwise_cons.mp h.apart
  refine ⟨fun x => ?_, hrest, fun d hd => h.fresh d (.tail c hd)⟩
  rw [Set.mem_sdiff, h.mem_iff, List.exists_mem_cons_iff, Finset.mem_coe]
  constructor
  · rintro ⟨hkept | hc | hother, hnot⟩
    · exact .inl hkept
    · exact absurd hc hnot
    · exact .inr hother
  · rintro (hkept | ⟨d, hd, hx⟩)
    · exact ⟨.inl hkept, fun hc => h.fresh c (.head _) x hc hkept⟩
    · exact ⟨.inr (.inr ⟨d, hd, hx⟩), fun hc => Finset.disjoint_left.mp (hapart d hd) hc hx⟩

theorem used_eq (h : Balanced kept used []) : used = kept := by
  ext x
  simp [h.mem_iff]

end Balanced

theorem countP_mem [DecidableEq ι] {claims : List (Finset ι)} (h : claims.Pairwise Disjoint) (x : ι) :
    claims.countP (fun c => decide (x ∈ c)) = 1 ↔ ∃ c ∈ claims, x ∈ c := by
  induction claims with
  | nil => simp
  | cons c claims ih =>
    obtain ⟨hapart, hrest⟩ := List.pairwise_cons.mp h
    rw [List.countP_cons, List.exists_mem_cons_iff]
    by_cases hx : x ∈ c
    · have hnone : claims.countP (fun c => decide (x ∈ c)) = 0 := by
        rw [List.countP_eq_zero]
        intro d hd
        simpa using Finset.disjoint_left.mp (hapart d hd) hx
      simp [hx, hnone]
    · simpa [hx] using ih hrest

theorem sum_card_le [DecidableEq ι] {claims : List (Finset ι)} {pool : Finset ι}
    (h : claims.Pairwise Disjoint)
    (hpool : ∀ c ∈ claims, c ⊆ pool) : (claims.map Finset.card).sum ≤ pool.card := by
  induction claims generalizing pool with
  | nil => simp
  | cons c claims ih =>
    obtain ⟨hapart, hrest⟩ := List.pairwise_cons.mp h
    have hc := hpool c (.head _)
    have hle : (claims.map Finset.card).sum ≤ (pool \ c).card := ih hrest fun d hd x hx =>
      Finset.mem_sdiff.mpr ⟨hpool d (.tail c hd) hx,
        fun hxc => Finset.disjoint_left.mp (hapart d hd) hxc hx⟩
    rw [List.map_cons, List.sum_cons]
    have hcard := Finset.card_sdiff_add_card_eq_card hc
    omega

theorem mem_foldr_union [DecidableEq ι] {claims : List (Finset ι)} {x : ι} :
    x ∈ claims.foldr (· ∪ ·) ∅ ↔ ∃ c ∈ claims, x ∈ c := by
  induction claims with
  | nil => simp
  | cons c claims ih => rw [List.foldr_cons, Finset.mem_union, ih, List.exists_mem_cons_iff]

theorem disjoint_foldr_union [DecidableEq ι] {claims : List (Finset ι)} {c : Finset ι} :
    Disjoint c (claims.foldr (· ∪ ·) ∅) ↔ ∀ d ∈ claims, Disjoint c d := by
  simp only [Finset.disjoint_left, mem_foldr_union]
  constructor
  · intro h d hd x hx hxd
    exact h hx ⟨d, hd, hxd⟩
  · rintro h x hx ⟨d, hd, hxd⟩
    exact h d hd hx hxd

/-- Counting each claim on its own counts every unit once exactly when the claims are apart. -/
theorem sum_card_eq_iff [DecidableEq ι] (claims : List (Finset ι)) :
    (claims.foldr (· ∪ ·) ∅).card ≤ (claims.map Finset.card).sum ∧
      ((claims.map Finset.card).sum = (claims.foldr (· ∪ ·) ∅).card ↔
        claims.Pairwise Disjoint) := by
  induction claims with
  | nil => simp
  | cons c claims ih =>
    obtain ⟨hle, heq⟩ := ih
    have hunion := Finset.card_union_add_card_inter c (claims.foldr (· ∪ ·) ∅)
    have hapart : (∀ d ∈ claims, Disjoint c d) ↔
        (c ∩ claims.foldr (· ∪ ·) ∅).card = 0 := by
      rw [Finset.card_eq_zero, ← Finset.disjoint_iff_inter_eq_empty, disjoint_foldr_union]
    rw [List.foldr_cons, List.map_cons, List.sum_cons, List.pairwise_cons, hapart, ← heq]
    omega

end Ledger
