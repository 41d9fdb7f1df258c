import AlvOS.Kmalloc.Defs

/-! What a request is rounded to.  The mask of `align_up` is 32 bits wide, so the
rounded size is the sum truncated to 32 bits; it is exact while the sum fits. -/

namespace AlvOS.Kmalloc
open Word

theorem validAlignment_eq {a : Nat} (h : a < 2 ^ 32) : ∃ k < 32, validAlignment a = 2 ^ k := by
  unfold validAlignment
  split_ifs with hbad
  · exact ⟨4, by decide, rfl⟩
  · push Not at hbad
    obtain ⟨k, rfl⟩ := Nat.ne_zero_and_sub_one_eq_zero_iff_isPowerOfTwo.mp hbad
    exact ⟨k, (Nat.pow_lt_pow_iff_right (by decide)).mp h, rfl⟩

theorem alignUp_two_pow (n : Nat) {k : Nat} (hk : k < 32) :
    alignUp n (2 ^ k) = (n + (2 ^ k - 1)) % 2 ^ 32 / 2 ^ k * 2 ^ k := by
  have hpos : 0 < 2 ^ k := Nat.two_pow_pos k
  have hlt : 2 ^ k < 2 ^ 32 := Nat.pow_lt_pow_right (by decide) hk
  have hmask : 2 ^ 32 - 1 - (2 ^ k - 1) = 2 ^ 32 - 2 ^ k := by omega
  have hsum : u64 (u64 (n + 2 ^ k) + (2 ^ 64 - 1)) % 2 ^ 32 = (n + (2 ^ k - 1)) % 2 ^ 32 := by
    generalize 2 ^ k = p at *
    unfold u64
    omega
  rw [alignUp, if_neg hpos.ne', hmask, and_high_mask _ hk.le, hsum]

def roundedSize (n a : Nat) : Nat := alignUp n (validAlignment a)

def Roundable (n a : Nat) : Prop := n + (validAlignment a - 1) < 2 ^ 32

instance (n a : Nat) : Decidable (Roundable n a) := inferInstanceAs (Decidable (_ < _))

theorem le_roundedSize {n a : Nat} (ha : a < 2 ^ 32) (h : Roundable n a) : n ≤ roundedSize n a := by
  obtain ⟨k, hk, heq⟩ := validAlignment_eq ha
  rw [Roundable, heq] at h
  rw [roundedSize, heq, alignUp_two_pow n hk]
  exact round_up_bounds h

theorem lt_of_not_roundable {n a : Nat} (ha : a < 2 ^ 32) (h : ¬Roundable n a) : 2 ^ 31 < n := by
  obtain ⟨k, hk, heq⟩ := validAlignment_eq ha
  have hle : 2 ^ k ≤ 2 ^ 31 := Nat.pow_le_pow_right (by decide) (by omega)
  rw [Roundable, heq] at h
  omega

theorem roundable_heapAlignment {n : Nat} : Roundable n heapAlignment ↔ n ≤ 2 ^ 32 - 16 := by
  have : validAlignment heapAlignment = 16 := by decide
  rw [Roundable, this]
  omega

end AlvOS.Kmalloc
