import Mathlib.Algebra.Order.Group.Nat
import Mathlib.Data.Nat.Bitwise
import Mathlib.Data.Set.Lattice
import Mathlib.Order.CompletePartialOrder
import Mathlib.Order.Interval.Set.Basic

/-! Unsigned machine words as natural numbers with the wrap written out, ranges of
64-bit addresses, and the mask arithmetic that rounds to a power of two. -/

namespace Word

def u32 (x : Nat) : Nat := x % 2 ^ 32

def u64 (x : Nat) : Nat := x % 2 ^ 64

theorem u64_of_lt {x : Nat} (h : x < 2 ^ 64) : u64 x = x := Nat.mod_eq_of_lt h

theorem u64_lt (x : Nat) : u64 x < 2 ^ 64 := Nat.mod_lt _ (by decide)

/-- The `n` addresses from `a` on, where the top of memory is followed by zero. -/
def range (a n : Nat) : Set Nat := {x | ∃ j < n, x = u64 (a + j)}

section Range
variable {a n lo hi : Nat}

theorem range_eq_Ico (h : a + n ≤ 2 ^ 64) : range a n = Set.Ico a (a + n) := by
  ext x
  constructor
  · rintro ⟨j, hj, rfl⟩
    rw [u64_of_lt (by omega)]
    exact ⟨Nat.le_add_right a j, by omega⟩
  · rintro ⟨hlo, hhi⟩
    refine ⟨x - a, by omega, ?_⟩
    rw [Nat.add_sub_cancel' hlo, u64_of_lt (by omega)]

theorem disjoint_range_Ico (ha : a < 2 ^ 64) (hn : 0 < n) (hn' : n ≤ 2 ^ 63)
    (hlo : lo < hi) (hhi : hi ≤ 2 ^ 63) :
    Disjoint (range a n) (Set.Ico lo hi) ↔ a + n ≤ lo ∨ hi ≤ a ∧ a + n ≤ 2 ^ 64 + lo := by
  rw [Set.disjoint_left]
  constructor
  · intro hdisjoint
    by_contra hmeets
    by_cases hstart : a < hi
    · -- the range begins before the end of the interval: they share the later beginning
      refine hdisjoint ⟨max a lo - a, by omega, ?_⟩ ⟨le_max_right a lo, max_lt hstart hlo⟩
      rw [Nat.add_sub_cancel' (le_max_left a lo), u64_of_lt (by omega)]
    · -- it comes around and takes in the beginning of the interval
      refine hdisjoint ⟨2 ^ 64 + lo - a, by omega, ?_⟩ ⟨le_refl lo, hlo⟩
      rw [u64]
      omega
  · rintro hclear x ⟨j, hj, rfl⟩ ⟨h1, h2⟩
    rw [u64] at h1 h2
    omega

theorem not_disjoint_range_iff {b c m x : Nat} (hx : x + n ≤ 2 ^ 64) (hn : 0 < n) (hm : 0 < m)
    (hm' : m ≤ 2 ^ 64) (hc : c < 2 ^ 64) :
    ¬Disjoint (range (u64 (c + x)) n) (range b m) ↔
      x < u64 (b + (2 ^ 64 - c)) + m ∧ u64 (b + (2 ^ 64 - c)) < x + n ∨
        x + 2 ^ 64 < u64 (b + (2 ^ 64 - c)) + m := by
  rw [Set.not_disjoint_iff]
  constructor
  · rintro ⟨-, ⟨j, hj, rfl⟩, i, hi, heq⟩
    dsimp only [u64] at heq ⊢
    omega
  · rintro (⟨hbefore, hbehind⟩ | hwrap)
    · -- they share the later beginning
      refine ⟨_, ⟨max x (u64 (b + (2 ^ 64 - c))) - x, by omega, rfl⟩,
        max x (u64 (b + (2 ^ 64 - c))) - u64 (b + (2 ^ 64 - c)), by omega, ?_⟩
      dsimp only [u64] at hbefore hbehind ⊢
      omega
    · -- the other comes around and takes in the first address
      refine ⟨_, ⟨0, hn, rfl⟩, x + 2 ^ 64 - u64 (b + (2 ^ 64 - c)), by omega, ?_⟩
      dsimp only [u64] at hwrap ⊢
      omega

end Range

theorem mul_div_mod_two_pow (x k w : Nat) :
    x % 2 ^ w / 2 ^ k * 2 ^ k = ((x % 2 ^ w) >>> k) <<< k := by
  rw [Nat.shiftRight_eq_div_pow, Nat.shiftLeft_eq]

/-- Masking with the bits `k .. w - 1` truncates to `w` bits and rounds down to `2 ^ k`. -/
theorem and_high_mask (x : Nat) {k w : Nat} (h : k ≤ w) :
    x &&& (2 ^ w - 2 ^ k) = x % 2 ^ w / 2 ^ k * 2 ^ k := by
  have hmask : 2 ^ w - 2 ^ k = (2 ^ (w - k) - 1) <<< k := by
    rw [Nat.shiftLeft_eq, Nat.sub_mul, Nat.one_mul, ← Nat.pow_add, Nat.sub_add_cancel h]
  rw [mul_div_mod_two_pow, hmask]
  apply Nat.eq_of_testBit_eq
  intro i
  simp only [Nat.testBit_and, Nat.testBit_shiftLeft, Nat.testBit_shiftRight,
    Nat.testBit_two_pow_sub_one, Nat.testBit_mod_two_pow]
  by_cases hi : k ≤ i
  · have hbit : i - k < w - k ↔ i < w := by omega
    simp [hi, hbit, Bool.and_comm]
  · simp [hi]

theorem round_up_bounds {x k w : Nat} (h : x + (2 ^ k - 1) < 2 ^ w) :
    x ≤ (x + (2 ^ k - 1)) % 2 ^ w / 2 ^ k * 2 ^ k := by
  have hpos : 0 < 2 ^ k := Nat.two_pow_pos k
  have hdiv := Nat.div_add_mod (x + (2 ^ k - 1)) (2 ^ k)
  have hmod := Nat.mod_lt (x + (2 ^ k - 1)) hpos
  rw [Nat.mod_eq_of_lt h, Nat.mul_comm]
  omega

end Word
