import AlvOS.Lib.BlockList

/-! The gaps between the used blocks of a list.  A gap is seen in the bytes alone,
as a maximal run that no used block covers; in a coalesced list every gap is one
free block, header included. -/

namespace BlockList
open Set

/-- `Ico lo hi` is a maximal run of the elements of `Ico a e` outside `C`. -/
structure IsGap (C : Set Nat) (a e lo hi : Nat) : Prop where
  nonempty : lo < hi
  start_le : a ≤ lo
  le_stop : hi ≤ e
  outside : ∀ x ∈ Ico lo hi, x ∉ C
  left : lo = a ∨ lo - 1 ∈ C
  right : hi = e ∨ hi ∈ C

section Runs
variable {C : Set Nat} {a e lo hi lo' hi' x : Nat}

theorem IsGap.start_not_lt (h : IsGap C a e lo hi) (h' : IsGap C a e lo' hi')
    (hx : x ∈ Ico lo hi) (hx' : x ∈ Ico lo' hi') : ¬lo < lo' := by
  intro hlt
  have h1 := h.start_le; have h2 := hx.2; have h3 := hx'.1
  rcases h'.left with hstart | hcovered
  · omega
  · exact h.outside (lo' - 1) ⟨by omega, by omega⟩ hcovered

theorem IsGap.stop_not_lt (h : IsGap C a e lo hi) (h' : IsGap C a e lo' hi')
    (hx : x ∈ Ico lo hi) (hx' : x ∈ Ico lo' hi') : ¬hi < hi' := by
  intro hlt
  have h1 := h'.le_stop; have h2 := hx.2; have h3 := hx'.1
  rcases h.right with hstop | hcovered
  · omega
  · exact h'.outside hi ⟨by omega, hlt⟩ hcovered

theorem IsGap.unique (h : IsGap C a e lo hi) (h' : IsGap C a e lo' hi') (hx : x ∈ Ico lo hi)
    (hx' : x ∈ Ico lo' hi') : lo = lo' ∧ hi = hi' := by
  have h1 := h.start_not_lt h' hx hx'
  have h2 := h'.start_not_lt h hx' hx
  have h3 := h.stop_not_lt h' hx hx'
  have h4 := h'.stop_not_lt h hx' hx
  omega

end Runs

section Layout
variable (hdr : Nat)

/-- The bytes of the used blocks of a list laid out from `a`, headers included. -/
def coveredBytes (a : Nat) (bs : List Block) : Set Nat :=
  {x | ∃ p n, (p, n) ∈ allocations hdr a bs ∧ p ≤ x + hdr ∧ x < p + n}

variable {hdr} {a x : Nat} {pre post : List Block} {b : Block}

theorem covered_of_used (hb : b.free = false) (hlo : a + extent hdr pre ≤ x)
    (hhi : x < a + extent hdr pre + (hdr + b.size)) :
    x ∈ coveredBytes hdr a (pre ++ b :: post) :=
  ⟨_, _, (mem_allocations hdr).mpr ⟨pre, b, post, rfl, hb, rfl, rfl⟩, by omega, by omega⟩

theorem not_covered_of_free (hb : b.free = true) (hlo : a + extent hdr pre ≤ x)
    (hhi : x < a + extent hdr pre + (hdr + b.size)) :
    x ∉ coveredBytes hdr a (pre ++ b :: post) := by
  rintro ⟨p, n, hmem, hp, hn⟩
  rw [allocations_append, allocations_cons_free hdr _ hb, List.mem_append] at hmem
  rcases hmem with hmem | hmem
  · have := (le_of_mem_allocations hdr hmem).2
    omega
  · have := (le_of_mem_allocations hdr hmem).1
    omega

theorem exists_block_at (bs : List Block) (hlo : a ≤ x) (hhi : x < a + extent hdr bs) :
    ∃ pre b post, bs = pre ++ b :: post ∧ a + extent hdr pre ≤ x ∧
      x < a + extent hdr pre + (hdr + b.size) := by
  induction bs generalizing a with
  | nil =>
    rw [extent_nil] at hhi
    omega
  | cons c cs ih =>
    rw [extent_cons] at hhi
    rcases Nat.lt_or_ge x (a + (hdr + c.size)) with hlt | hge
    · exact ⟨[], c, cs, rfl, by simpa using hlo, by simpa using hlt⟩
    · obtain ⟨pre, b, post, rfl, hlo', hhi'⟩ := ih hge (by omega)
      exact ⟨c :: pre, b, post, rfl, by rw [extent_cons]; omega, by rw [extent_cons]; omega⟩

theorem gap_of_free (hpos : 0 < hdr) (hc : Coalesced (pre ++ b :: post)) (hb : b.free = true) :
    IsGap (coveredBytes hdr a (pre ++ b :: post)) a (a + extent hdr (pre ++ b :: post))
      (a + extent hdr pre) (a + extent hdr pre + (hdr + b.size)) := by
  have hsides := List.isChain_append.mp hc
  refine ⟨by omega, Nat.le_add_right _ _, ?_, fun x hx => not_covered_of_free hb hx.1 hx.2, ?_, ?_⟩
  · rw [extent_append, extent_cons]
    omega
  · rcases List.eq_nil_or_concat pre with rfl | ⟨pre, c, rfl⟩
    · exact .inl rfl
    · have hcused : c.free = false := by
        have := hsides.2.2 c (by simp) b (by simp)
        simpa [hb] using this
      rw [List.concat_eq_append, List.append_assoc, extent_append, extent_cons, extent_nil]
      exact .inr (covered_of_used hcused (by omega) (by omega))
  · cases post with
    | nil =>
      rw [extent_append, extent_cons, extent_nil]
      exact .inl (by omega)
    | cons c post =>
      have hcused : c.free = false := by
        have := (List.isChain_cons_cons.mp hsides.2.1).1
        simpa [hb] using this
      have hassoc : pre ++ b :: c :: post = (pre ++ [b]) ++ c :: post := by simp
      rw [hassoc]
      refine .inr (covered_of_used hcused ?_ ?_)
      all_goals rw [extent_append, extent_cons, extent_nil]; omega

theorem gap_iff {bs : List Block} {lo hi : Nat} (hpos : 0 < hdr) (hc : Coalesced bs) :
    IsGap (coveredBytes hdr a bs) a (a + extent hdr bs) lo hi ↔
      ∃ pre b post, bs = pre ++ b :: post ∧ b.free = true ∧ lo = a + extent hdr pre ∧
        hi = a + extent hdr pre + (hdr + b.size) := by
  constructor
  · intro hgap
    have hlo := hgap.start_le; have hlt := hgap.nonempty; have hhi := hgap.le_stop
    obtain ⟨pre, b, post, rfl, hle, hin⟩ :=
      exists_block_at bs hlo (show lo < a + extent hdr bs by omega)
    have hb : b.free = true := by
      by_contra hused
      exact hgap.outside lo ⟨le_refl lo, hlt⟩ (covered_of_used (by simpa using hused) hle hin)
    obtain ⟨hstart, hstop⟩ :=
      hgap.unique (gap_of_free hpos hc hb) ⟨le_refl lo, hlt⟩ ⟨hle, hin⟩
    exact ⟨pre, b, post, rfl, hb, hstart, hstop⟩
  · rintro ⟨pre, b, post, rfl, hb, rfl, rfl⟩
    exact gap_of_free hpos hc hb

/-- No block has room for `s` bytes exactly when no gap has room for them and a header. -/
theorem no_fit_iff_gaps {bs : List Block} (s : Nat) (hpos : 0 < hdr) (hc : Coalesced bs) :
    (∀ b ∈ bs, ¬Fits s b) ↔
      ∀ lo hi, IsGap (coveredBytes hdr a bs) a (a + extent hdr bs) lo hi → hi - lo < s + hdr := by
  constructor
  · intro hnone lo hi hgap
    obtain ⟨pre, b, post, rfl, hb, rfl, rfl⟩ := (gap_iff hpos hc).mp hgap
    have hsmall : ¬s ≤ b.size := fun hle => hnone b (by simp) ⟨hb, hle⟩
    omega
  · rintro hgaps b hmem ⟨hb, hle⟩
    obtain ⟨pre, post, rfl⟩ := List.append_of_mem hmem
    have hshort := hgaps _ _ ((gap_iff hpos hc).mpr ⟨pre, b, post, rfl, hb, rfl, rfl⟩)
    omega

end Layout
end BlockList
