import Mathlib.Logic.Function.Basic
import Mathlib.Algebra.Order.Group.Nat
import Mathlib.Data.Nat.Count

/-! Bitmaps in an array of `w`-bit words: bit `k` is bit `k % w` of word `k / w`.
The masked word operations are those of machine code; `test` after `set` or `clear`
is all that a client needs to know of them.  The set bits below a bound are counted, and
the count follows the bits as they are set and cleared. -/

namespace Bitmap
open Function

abbrev Words (w : Nat) := Nat → BitVec w

variable {w : Nat}

def mask (w k : Nat) : BitVec w := 1#w <<< (k % w)

def test (b : Words w) (k : Nat) : Bool := b (k / w) &&& mask w k ≠ 0#w

def set (b : Words w) (k : Nat) : Words w := update b (k / w) (b (k / w) ||| mask w k)

def clear (b : Words w) (k : Nat) : Words w := update b (k / w) (b (k / w) &&& ~~~mask w k)

theorem getLsbD_mask {i k : Nat} (hi : i < w) : (mask w k).getLsbD i = decide (i = k % w) := by
  have hk : k % w < w := Nat.mod_lt _ (by omega)
  rw [mask, BitVec.getLsbD_shiftLeft, BitVec.getLsbD_one]
  by_cases h : i = k % w
  · simp [h, hk]
    omega
  · have : ¬(k % w ≤ i ∧ i - k % w = 0) := by omega
    simp only [hi, h, decide_true, decide_false, Bool.true_and, Bool.and_eq_false_iff,
      Bool.not_eq_false', decide_eq_true_eq, decide_eq_false_iff_not]
    omega

theorem test_eq (b : Words w) (k : Nat) (hw : 0 < w) : test b k = (b (k / w)).getLsbD (k % w) := by
  have hk : k % w < w := Nat.mod_lt _ hw
  have hbit : ∀ i < w, (b (k / w) &&& mask w k).getLsbD i =
      ((b (k / w)).getLsbD i && decide (i = k % w)) := by
    intro i hi
    rw [BitVec.getLsbD_and, getLsbD_mask hi]
  cases hset : (b (k / w)).getLsbD (k % w) with
  | false =>
    have hzero : b (k / w) &&& mask w k = 0#w := by
      apply BitVec.eq_of_getLsbD_eq
      intro i hi
      rw [hbit i hi]
      by_cases h : i = k % w
      · simp [h, hset]
      · simp [h]
    simp [test, hzero]
  | true =>
    have hone := hbit (k % w) hk
    rw [hset] at hone
    have hne : b (k / w) &&& mask w k ≠ 0#w := fun h => by simp [h] at hone
    simp [test, hne]

theorem test_update (b : Words w) (j k : Nat) (v : BitVec w) (hw : 0 < w) :
    test (update b (j / w) v) k = if k / w = j / w then v.getLsbD (k % w) else test b k := by
  rw [test_eq _ _ hw, test_eq _ _ hw, update_apply]
  exact apply_ite (fun word : BitVec w => word.getLsbD (k % w)) _ _ _

theorem getLsbD_mask_of_word {j k : Nat} (hw : 0 < w) (hword : k / w = j / w) :
    (mask w j).getLsbD (k % w) = decide (k = j) := by
  have hsame : k % w = j % w ↔ k = j := ⟨Nat.ext_div_mod hword, fun h => h ▸ rfl⟩
  rw [getLsbD_mask (Nat.mod_lt _ hw)]
  simp only [hsame]

theorem test_set (b : Words w) (j k : Nat) (hw : 0 < w) :
    test (set b j) k = (decide (k = j) || test b k) := by
  rw [set, test_update _ _ _ _ hw]
  split_ifs with hword
  · rw [BitVec.getLsbD_or, getLsbD_mask_of_word hw hword, test_eq _ _ hw, hword, Bool.or_comm]
  · have hne : k ≠ j := fun h => hword (h ▸ rfl)
    rw [decide_eq_false hne, Bool.false_or]

theorem test_clear (b : Words w) (j k : Nat) (hw : 0 < w) :
    test (clear b j) k = (!decide (k = j) && test b k) := by
  have hk : k % w < w := Nat.mod_lt _ hw
  rw [clear, test_update _ _ _ _ hw]
  split_ifs with hword
  · rw [BitVec.getLsbD_and, BitVec.getLsbD_not, getLsbD_mask_of_word hw hword, test_eq _ _ hw,
      hword, Bool.and_comm, decide_eq_true hk, Bool.true_and]
  · have hne : k ≠ j := fun h => hword (h ▸ rfl)
    rw [decide_eq_false hne, Bool.not_false, Bool.true_and]

theorem ext {b c : Words w} (hw : 0 < w) (h : ∀ k, test b k = test c k) : b = c := by
  funext j
  apply BitVec.eq_of_getLsbD_eq
  intro i hi
  have hdiv : (w * j + i) / w = j := by
    rw [Nat.mul_add_div hw, Nat.div_eq_of_lt hi, Nat.add_zero]
  have hmod : (w * j + i) % w = i := by rw [Nat.mul_add_mod, Nat.mod_eq_of_lt hi]
  have hbit := h (w * j + i)
  rwa [test_eq _ _ hw, test_eq _ _ hw, hdiv, hmod] at hbit

/-- The number of set bits among the first `n`. -/
def count (b : Words w) (n : Nat) : Nat := Nat.count (fun k => test b k = true) n

section Count
variable {b c : Words w} {j n : Nat}

theorem count_le (b : Words w) (n : Nat) : count b n ≤ n := Nat.count_le _

theorem count_eq_card (b : Words w) (n : Nat) :
    count b n = (Finset.filter (fun k => test b k = true) (Finset.range n)).card :=
  Nat.count_eq_card_filter_range _ n

/-- Setting the bits of `s`, all of them clear before, raises the count by their number. -/
theorem count_union {s : Finset Nat} (hbits : ∀ k < n, test c k = true ↔ k ∈ s ∨ test b k = true)
    (hfresh : ∀ k ∈ s, k < n ∧ test b k = false) : count c n = count b n + s.card := by
  have hsplit : Finset.filter (fun k => test c k = true) (Finset.range n) =
      Finset.filter (fun k => test b k = true) (Finset.range n) ∪ s := by
    ext k
    rw [Finset.mem_union, Finset.mem_filter, Finset.mem_filter, Finset.mem_range]
    constructor
    · rintro ⟨hk, hset⟩
      exact ((hbits k hk).mp hset).symm.imp_left fun h => ⟨hk, h⟩
    · rintro (⟨hk, hset⟩ | hs)
      · exact ⟨hk, (hbits k hk).mpr (.inr hset)⟩
      · exact ⟨(hfresh k hs).1, (hbits k (hfresh k hs).1).mpr (.inl hs)⟩
  have hdisjoint : Disjoint (Finset.filter (fun k => test b k = true) (Finset.range n)) s := by
    rw [Finset.disjoint_left]
    intro k hk hs
    have hset := (Finset.mem_filter.mp hk).2
    rw [(hfresh k hs).2] at hset
    exact absurd hset (by decide)
  rw [count_eq_card, count_eq_card, hsplit, Finset.card_union_of_disjoint hdisjoint]

theorem count_congr (hbits : ∀ k < n, test c k = true ↔ test b k = true) : count c n = count b n :=
  count_union (s := ∅) (fun k hk => by simp [hbits k hk]) (by simp)

theorem count_erase (hbits : ∀ k < n, test c k = true ↔ k ≠ j ∧ test b k = true) (hj : j < n)
    (hset : test b j = true) : count b n = count c n + 1 := by
  rw [← Finset.card_singleton j]
  apply count_union
  · intro k hk
    rw [Finset.mem_singleton, hbits k hk]
    by_cases hkj : k = j
    · simp [hkj, hset]
    · simp [hkj]
  · intro k hk
    obtain rfl := Finset.mem_singleton.mp hk
    refine ⟨hj, ?_⟩
    rw [← Bool.not_eq_true, hbits k hj]
    exact fun h => h.1 rfl

theorem count_clear (b : Words w) (n : Nat) :
    Nat.count (fun k => test b k = false) n = n - count b n := by
  induction n with
  | zero => rfl
  | succ n ih =>
    have hle := count_le b n
    rw [count] at ih hle ⊢
    rw [Nat.count_succ, Nat.count_succ, ih]
    cases test b n
    · rw [if_pos rfl, if_neg (by decide)]
      omega
    · rw [if_neg (by decide), if_pos rfl]
      omega

end Count

end Bitmap
