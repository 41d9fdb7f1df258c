import Mathlib.Data.Nat.ModEq
import Mathlib.Logic.Function.Basic

/-! Ring buffers with one slot kept free.  Two positions run around `n` slots; the slots
from the one up to the other hold the pending items in order.  The free slot tells a full
buffer from an empty one. -/

namespace Ring
open Function
variable {α : Type*} {n read write : Nat} {slots : Nat → α} {pending : List α} {c : α}

structure Holds (n : Nat) (slots : Nat → α) (read write : Nat) (pending : List α) : Prop where
  read_lt : read < n
  fits : pending.length < n
  write_eq : write = (read + pending.length) % n
  items : ∀ i, (h : i < pending.length) → slots ((read + i) % n) = pending[i]

namespace Holds

theorem start (h : read < n) : Holds n slots read read [] where
  read_lt := h
  fits := Nat.zero_lt_of_lt h
  write_eq := (Nat.mod_eq_of_lt h).symm
  items i hi := absurd hi (Nat.not_lt_zero i)

theorem slot_ne (read : Nat) {i j : Nat} (hij : i < j) (hj : j < n) :
    (read + i) % n ≠ (read + j) % n := by
  intro h
  have hsame : i % n = j % n := Nat.ModEq.add_left_cancel' read h
  rw [Nat.mod_eq_of_lt (hij.trans hj), Nat.mod_eq_of_lt hj] at hsame
  exact hij.ne hsame

theorem write_lt (h : Holds n slots read write pending) : write < n := by
  rw [h.write_eq]
  exact Nat.mod_lt _ (Nat.zero_lt_of_lt h.read_lt)

theorem empty_iff (h : Holds n slots read write pending) : read = write ↔ pending = [] := by
  constructor
  · intro heq
    by_contra hne
    have hpos : 0 < pending.length := List.length_pos_iff.mpr hne
    apply slot_ne read hpos h.fits
    rw [← h.write_eq, ← heq, Nat.add_zero, Nat.mod_eq_of_lt h.read_lt]
  · rintro rfl
    rw [h.write_eq, List.length_nil, Nat.add_zero, Nat.mod_eq_of_lt h.read_lt]

theorem next_eq (h : Holds n slots read write pending) :
    (write + 1) % n = (read + (pending.length + 1)) % n := by
  rw [h.write_eq, Nat.mod_add_mod, Nat.add_assoc]

/-- Advancing meets the reader exactly when all slots but one are taken. -/
theorem full_iff (h : Holds n slots read write pending) :
    (write + 1) % n = read ↔ pending.length + 1 = n := by
  rw [h.next_eq]
  constructor
  · intro heq
    by_contra hne
    have hlt : pending.length + 1 < n := Nat.lt_of_le_of_ne h.fits hne
    apply slot_ne read (Nat.succ_pos pending.length) hlt
    rw [heq, Nat.add_zero, Nat.mod_eq_of_lt h.read_lt]
  · intro hfull
    rw [hfull, Nat.add_mod_right, Nat.mod_eq_of_lt h.read_lt]

theorem push (h : Holds n slots read write pending) (hfree : (write + 1) % n ≠ read) (c : α) :
    Holds n (update slots write c) read ((write + 1) % n) (pending ++ [c]) := by
  have hroom : pending.length + 1 < n :=
    Nat.lt_of_le_of_ne h.fits fun hfull => hfree (h.full_iff.mpr hfull)
  refine ⟨h.read_lt, ?_, ?_, fun i hi => ?_⟩
  · rwa [List.length_append, List.length_singleton]
  · rw [h.next_eq, List.length_append, List.length_singleton]
  · rw [List.length_append, List.length_singleton] at hi
    rcases Nat.lt_succ_iff_lt_or_eq.mp hi with hlt | rfl
    · have hother : (read + i) % n ≠ write := by
        rw [h.write_eq]
        exact slot_ne read hlt h.fits
      rw [update_of_ne hother, h.items i hlt, List.getElem_append_left hlt]
    · rw [← h.write_eq, update_self, List.getElem_concat_length rfl]

theorem front (h : Holds n slots read write (c :: pending)) : slots read = c := by
  have hfirst := h.items 0 (Nat.succ_pos _)
  rwa [Nat.add_zero, Nat.mod_eq_of_lt h.read_lt] at hfirst

theorem pop (h : Holds n slots read write (c :: pending)) :
    Holds n slots ((read + 1) % n) write pending := by
  have hfits := h.fits
  rw [List.length_cons] at hfits
  have hshift : ∀ i, ((read + 1) % n + i) % n = (read + (i + 1)) % n := by
    intro i
    rw [Nat.mod_add_mod, Nat.add_right_comm, Nat.add_assoc]
  refine ⟨Nat.mod_lt _ (Nat.zero_lt_of_lt h.read_lt), Nat.lt_of_succ_lt hfits, ?_, fun i hi => ?_⟩
  · rw [hshift, h.write_eq, List.length_cons]
  · rw [hshift, h.items (i + 1) (Nat.succ_lt_succ hi), List.getElem_cons_succ]

end Holds
end Ring
