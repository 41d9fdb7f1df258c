import Mathlib.Data.Finset.Max
import Mathlib.Data.Finset.Option

/-! An interrupt controller in fully nested mode, over any lines that are ordered by urgency.  An
acknowledgement puts the first pending line in service, where it holds back all lines from its
own on; an end of interrupt releases the first line in service. -/

namespace InterruptController
variable {L : Type*} [LinearOrder L]

def first? (s : Finset L) : Option L := if h : s.Nonempty then some (s.min' h) else none

structure Controller (L : Type*) where
  requested : Finset L
  inService : Finset L
  masked : L → Bool

namespace Controller

def pending (c : Controller L) : Finset L :=
  c.requested.filter fun l => c.masked l = false ∧ ∀ s ∈ c.inService, l < s

def raise (c : Controller L) (l : L) : Controller L :=
  { c with requested := insert l c.requested }

def withdraw (c : Controller L) (l : L) : Controller L :=
  { c with requested := c.requested.erase l }

def accept (c : Controller L) (l : L) : Controller L :=
  { c with requested := c.requested.erase l, inService := insert l c.inService }

/-- No line where the request was gone by the time of the acknowledgement; nothing is put in
service then. -/
def acknowledge (c : Controller L) : Controller L × Option L :=
  match first? c.pending with
  | some l => (c.accept l, some l)
  | none => (c, none)

def endOfInterrupt (c : Controller L) : Controller L :=
  match first? c.inService with
  | some l => { c with inService := c.inService.erase l }
  | none => c

end Controller

theorem first?_eq_none {s : Finset L} : first? s = none ↔ s = ∅ := by
  by_cases h : s.Nonempty
  · rw [first?, dif_pos h]
    exact iff_of_false (Option.some_ne_none _) h.ne_empty
  · rw [first?, dif_neg h]
    exact iff_of_true rfl (Finset.not_nonempty_iff_eq_empty.mp h)

theorem first?_eq_some {s : Finset L} {l : L} : first? s = some l ↔ l ∈ s ∧ ∀ x ∈ s, l ≤ x := by
  by_cases h : s.Nonempty
  · rw [first?, dif_pos h, Option.some.injEq]
    constructor
    · rintro rfl
      exact ⟨s.min'_mem h, fun x hx => s.min'_le x hx⟩
    · rintro ⟨hmem, hle⟩
      exact le_antisymm (s.min'_le l hmem) (hle _ (s.min'_mem h))
  · rw [first?, dif_neg h]
    exact iff_of_false nofun fun hmem => h ⟨l, hmem.1⟩

theorem first?_insert {s : Finset L} {l : L} (h : ∀ x ∈ s, l < x) :
    first? (insert l s) = some l := by
  refine first?_eq_some.mpr ⟨Finset.mem_insert_self l s, fun x hx => ?_⟩
  rcases Finset.mem_insert.mp hx with rfl | hmem
  · exact le_rfl
  · exact (h x hmem).le

namespace Controller
variable {c : Controller L} {l : L}

theorem mem_pending :
    l ∈ c.pending ↔ l ∈ c.requested ∧ c.masked l = false ∧ ∀ s ∈ c.inService, l < s :=
  Finset.mem_filter

/-- With nothing in service no request that is not masked is held back. -/
theorem mem_pending_of_idle (h : c.inService = ∅) :
    l ∈ c.pending ↔ l ∈ c.requested ∧ c.masked l = false := by
  rw [mem_pending, h]
  exact and_congr_right fun _ => and_iff_left fun s hs => absurd hs (Finset.notMem_empty s)

theorem acknowledge_of_first (h : first? c.pending = some l) :
    c.acknowledge = (c.accept l, some l) := by
  rw [acknowledge, h]

theorem acknowledge_of_none (h : c.pending = ∅) : c.acknowledge = (c, none) := by
  rw [acknowledge, first?_eq_none.mpr h]

theorem exists_first (h : c.pending.Nonempty) : ∃ l ∈ c.pending, first? c.pending = some l := by
  obtain ⟨l, hl⟩ := Option.ne_none_iff_exists'.mp (mt first?_eq_none.mp h.ne_empty)
  exact ⟨l, (first?_eq_some.mp hl).1, hl⟩

theorem acknowledge_inService (h : c.inService = ∅) :
    c.acknowledge.1.inService = c.acknowledge.2.toFinset := by
  cases hfirst : first? c.pending with
  | none =>
    rw [acknowledge, hfirst]
    exact h
  | some l =>
    rw [acknowledge_of_first hfirst, accept, h]
    rfl

theorem acknowledge_requested (c : Controller L) :
    (c.pending = ∅ ∧ c.acknowledge.2 = none ∧ c.acknowledge.1.requested = c.requested) ∨
      ∃ l ∈ c.requested, c.acknowledge.2 = some l ∧
        c.acknowledge.1.requested = c.requested.erase l := by
  rcases c.pending.eq_empty_or_nonempty with hnone | hsome
  · refine .inl ⟨hnone, ?_⟩
    rw [acknowledge_of_none hnone]
    exact ⟨rfl, rfl⟩
  · obtain ⟨l, hl, hfirst⟩ := exists_first hsome
    refine .inr ⟨l, (mem_pending.mp hl).1, ?_⟩
    rw [acknowledge_of_first hfirst]
    exact ⟨rfl, rfl⟩

theorem acknowledge_masked (c : Controller L) : c.acknowledge.1.masked = c.masked := by
  unfold acknowledge
  split
  · rfl
  · rfl

theorem endOfInterrupt_masked (c : Controller L) : c.endOfInterrupt.masked = c.masked := by
  unfold endOfInterrupt
  split
  · rfl
  · rfl

theorem endOfInterrupt_requested (c : Controller L) : c.endOfInterrupt.requested = c.requested := by
  unfold endOfInterrupt
  split
  · rfl
  · rfl

theorem endOfInterrupt_idle (h : c.inService = ∅) : c.endOfInterrupt = c := by
  rw [endOfInterrupt, first?_eq_none.mpr h]

theorem endOfInterrupt_toFinset {line : Option L} (h : c.inService = line.toFinset) :
    c.endOfInterrupt.inService = ∅ := by
  cases line with
  | none =>
    rw [endOfInterrupt_idle h]
    exact h
  | some l =>
    have hfirst : first? c.inService = some l := by
      rw [h]
      exact @first?_insert _ _ ∅ l fun x hx => absurd hx (Finset.notMem_empty x)
    rw [endOfInterrupt, hfirst, h]
    exact Finset.erase_singleton l

end Controller
end InterruptController
