import Mathlib.Algebra.Order.Group.Nat
import Mathlib.Logic.Function.Basic

/-! A stack of 64-bit words that grows down in a memory whose addresses wrap around: what
lies on top of it, as a list. -/

namespace WordStack
open Function

/-- Memory by the address of a word; all addresses in use differ by multiples of eight. -/
abbrev Mem := UInt64 → UInt64

def wordAt (p : UInt64) (i : Nat) : UInt64 := p + 8 * UInt64.ofNat i

def Top (m : Mem) (sp : UInt64) (ws : List UInt64) : Prop :=
  ∀ i w, ws[i]? = some w → m (wordAt sp i) = w

variable {m : Mem} {sp w : UInt64} {ws : List UInt64}

theorem wordAt_zero (p : UInt64) : wordAt p 0 = p := by
  change p + 8 * 0 = p
  rw [UInt64.mul_zero, UInt64.add_zero]

theorem wordAt_succ (p : UInt64) (i : Nat) : wordAt p (i + 1) = wordAt (p + 8) i := by
  rw [wordAt, wordAt, UInt64.ofNat_add, UInt64.mul_add, UInt64.add_assoc]
  congr 1
  exact UInt64.add_comm _ _

theorem wordAt_succ' (p : UInt64) (i : Nat) : wordAt p (i + 1) = wordAt p i + 8 := by
  rw [wordAt, wordAt, UInt64.ofNat_add, UInt64.mul_add, UInt64.add_assoc]
  rfl

theorem wordAt_ne {i : Nat} (h : i + 1 < 2 ^ 61) (p : UInt64) : wordAt p i ≠ p - 8 := by
  intro heq
  have hnat := congrArg UInt64.toNat heq
  have height : (8 : UInt64).toNat = 8 := rfl
  have hp := p.toNat_lt
  rw [wordAt, UInt64.toNat_add, UInt64.toNat_mul, UInt64.toNat_sub, UInt64.toNat_ofNat',
    height] at hnat
  omega

theorem top_cons : Top m sp (w :: ws) ↔ m sp = w ∧ Top m (sp + 8) ws := by
  constructor
  · intro h
    refine ⟨?_, fun i x hx => ?_⟩
    · rw [← wordAt_zero sp]
      exact h 0 w rfl
    · rw [← wordAt_succ]
      exact h (i + 1) x hx
  · rintro ⟨hw, h⟩ i x hx
    cases i with
    | zero =>
      rw [wordAt_zero]
      exact hw.trans (Option.some.inj hx)
    | succ i =>
      rw [wordAt_succ]
      exact h i x hx

theorem top_push (h : Top m sp ws) (hlength : ws.length < 2 ^ 61) (v : UInt64) :
    Top (update m (sp - 8) v) (sp - 8) (v :: ws) := by
  rw [top_cons, update_self, UInt64.sub_add_cancel]
  refine ⟨rfl, fun i x hx => ?_⟩
  have hi : i < ws.length := (List.getElem?_eq_some_iff.mp hx).1
  rw [update_of_ne (wordAt_ne (by omega) sp)]
  exact h i x hx

end WordStack
