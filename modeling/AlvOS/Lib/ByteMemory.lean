import Mathlib.Algebra.Order.Group.Nat
import Mathlib.Data.Set.Lattice
import Mathlib.Order.CompletePartialOrder
import Mathlib.Order.Interval.Set.Basic

/-! Byte-addressed memory: little-endian words, packed records, and the byte
loops that fill and copy a range.  A memory is a total function on natural
addresses, so nothing here knows which program's data it holds. -/

namespace ByteMemory
open Function Set

abbrev Mem := Nat → UInt8

def readLE (m : Mem) : Nat → Nat → Nat
  | _, 0 => 0
  | a, k + 1 => (m a).toNat + 256 * readLE m (a + 1) k

def writeLE : Mem → Nat → Nat → Nat → Mem
  | m, _, 0, _ => m
  | m, a, k + 1, v => writeLE (update m a (UInt8.ofNat v)) (a + 1) k (v / 256)

theorem readLE_lt (m : Mem) (a k : Nat) : readLE m a k < 256 ^ k := by
  induction k generalizing a with
  | zero => simp [readLE]
  | succ k ih =>
    have hbyte : (m a).toNat < 256 := (m a).toNat_lt
    have hrest := ih (a + 1)
    rw [readLE, Nat.pow_succ]
    omega

theorem readLE_congr {m m' : Mem} {a k : Nat} (h : EqOn m m' (Ico a (a + k))) :
    readLE m a k = readLE m' a k := by
  induction k generalizing a with
  | zero => rfl
  | succ k ih =>
    have hhead : m a = m' a := h ⟨le_refl a, by omega⟩
    have htail : readLE m (a + 1) k = readLE m' (a + 1) k :=
      ih fun x hx => h ⟨by have := hx.1; omega, by have := hx.2; omega⟩
    rw [readLE, readLE, hhead, htail]

theorem writeLE_apply_of_notMem {m : Mem} {a k v x : Nat} (h : x ∉ Ico a (a + k)) :
    writeLE m a k v x = m x := by
  induction k generalizing m a v with
  | zero => rfl
  | succ k ih =>
    rw [writeLE, ih fun hx => h ⟨by have := hx.1; omega, by have := hx.2; omega⟩]
    exact update_of_ne (fun hx => h ⟨by omega, by omega⟩) _ _

theorem readLE_writeLE_self (m : Mem) (a k v : Nat) :
    readLE (writeLE m a k v) a k = v % 256 ^ k := by
  induction k generalizing m a v with
  | zero => simp [readLE, Nat.mod_one]
  | succ k ih =>
    have hbyte : writeLE (update m a (UInt8.ofNat v)) (a + 1) k (v / 256) a = UInt8.ofNat v := by
      rw [writeLE_apply_of_notMem (by simp), update_self]
    have hlow : (UInt8.ofNat v).toNat = v % 256 := UInt8.toNat_ofNat'
    rw [readLE, writeLE, hbyte, ih, hlow, Nat.pow_succ, Nat.mul_comm (256 ^ k), Nat.mod_mul]

theorem readLE_writeLE_apart {m : Mem} {a j b k v : Nat} (h : a + j ≤ b ∨ b + k ≤ a) :
    readLE (writeLE m a j v) b k = readLE m b k := by
  apply readLE_congr
  intro x hx
  apply writeLE_apply_of_notMem
  intro hx'
  have h1 := hx.1; have h2 := hx.2; have h3 := hx'.1; have h4 := hx'.2
  omega

theorem readLE_add (m : Mem) (a j k : Nat) :
    readLE m a (j + k) = readLE m a j + 256 ^ j * readLE m (a + j) k := by
  induction j generalizing a with
  | zero => simp [readLE]
  | succ j ih =>
    have hnext : a + 1 + j = a + (j + 1) := by omega
    rw [Nat.succ_add, readLE, readLE, ih, hnext, Nat.pow_succ', Nat.mul_add, Nat.mul_assoc,
      Nat.add_assoc]

theorem readLE_eq_zero {m : Mem} {a k : Nat} (h : ∀ x, a ≤ x → x < a + k → m x = 0) :
    readLE m a k = 0 := by
  induction k generalizing a with
  | zero => rfl
  | succ k ih =>
    rw [readLE, h a (le_refl a) (by omega), ih fun x h1 h2 => h x (by omega) (by omega)]
    rfl

theorem readLE_byte (m : Mem) (a : Nat) {j k : Nat} (h : j < k) :
    readLE m a k / 256 ^ j % 256 = (m (a + j)).toNat := by
  obtain ⟨r, rfl⟩ := Nat.exists_eq_add_of_lt h
  have hbyte : (m (a + j)).toNat < 256 := (m (a + j)).toNat_lt
  rw [Nat.add_assoc, readLE_add, Nat.add_mul_div_left _ _ (Nat.pow_pos (by decide)),
    Nat.div_eq_of_lt (readLE_lt m a j), Nat.zero_add, readLE, Nat.add_mul_mod_self_left,
    Nat.mod_eq_of_lt hbyte]

structure Record (F : Type*) where
  offset : F → Nat
  width : F → Nat
  size : Nat
  within : ∀ f, offset f + width f ≤ size
  apart : ∀ f g, f ≠ g → offset f + width f ≤ offset g ∨ offset g + width g ≤ offset f

namespace Record
variable {F : Type*} (R : Record F)

def load (m : Mem) (a : Nat) (f : F) : Nat := readLE m (a + R.offset f) (R.width f)

def store (m : Mem) (a : Nat) (f : F) (v : Nat) : Mem := writeLE m (a + R.offset f) (R.width f) v

def bytes (a : Nat) : Set Nat := Ico a (a + R.size)

def fieldBytes (a : Nat) (f : F) : Set Nat := Ico (a + R.offset f) (a + R.offset f + R.width f)

theorem fieldBytes_subset (a : Nat) (f : F) : R.fieldBytes a f ⊆ R.bytes a := by
  intro x hx
  have hw := R.within f
  have h1 := hx.1; have h2 := hx.2
  exact ⟨by omega, by omega⟩

theorem load_congr_field {m m' : Mem} {a : Nat} {f : F} (h : EqOn m m' (R.fieldBytes a f)) :
    R.load m a f = R.load m' a f := readLE_congr h

theorem load_congr {m m' : Mem} {a : Nat} (h : EqOn m m' (R.bytes a)) (f : F) :
    R.load m a f = R.load m' a f := R.load_congr_field (h.mono (R.fieldBytes_subset a f))

theorem store_apply_of_notMem_field {m : Mem} {a v x : Nat} {f : F} (h : x ∉ R.fieldBytes a f) :
    R.store m a f v x = m x := writeLE_apply_of_notMem h

theorem store_apply_of_notMem {m : Mem} {a v x : Nat} {f : F} (h : x ∉ R.bytes a) :
    R.store m a f v x = m x :=
  R.store_apply_of_notMem_field fun hx => h (R.fieldBytes_subset a f hx)

theorem load_store_self {m : Mem} {a v : Nat} {f : F} (h : v < 256 ^ R.width f) :
    R.load (R.store m a f v) a f = v := by
  rw [load, store, readLE_writeLE_self, Nat.mod_eq_of_lt h]

theorem load_store_of_ne {m : Mem} {a v : Nat} {f g : F} (h : f ≠ g) :
    R.load (R.store m a f v) a g = R.load m a g := by
  apply readLE_writeLE_apart
  have := R.apart f g h
  omega

theorem load_store_apart {m : Mem} {a b v : Nat} {f g : F}
    (h : a + R.size ≤ b ∨ b + R.size ≤ a) : R.load (R.store m a f v) b g = R.load m b g := by
  apply readLE_writeLE_apart
  have := R.within f
  have := R.within g
  omega

end Record

/-- `for (i = 0; i < n; i++) p[i] = v`. -/
def fill (m : Mem) (p : Nat) (v : UInt8) : Nat → Mem
  | 0 => m
  | n + 1 => update (fill m p v n) (p + n) v

theorem fill_apply (m : Mem) (p : Nat) (v : UInt8) (n x : Nat) :
    fill m p v n x = if x ∈ Ico p (p + n) then v else m x := by
  induction n with
  | zero => simp [fill]
  | succ n ih =>
    rw [fill, update_apply, ih]
    simp only [mem_Ico]
    split_ifs <;> first | rfl | omega

/-- `for (i = 0; i < n; i++) d[i] = s[i]`, each byte read from the memory as the
earlier iterations left it. -/
def copyUp (m : Mem) (d s : Nat) : Nat → Mem
  | 0 => m
  | n + 1 => update (copyUp m d s n) (d + n) (copyUp m d s n (s + n))

theorem copyUp_apply_of_notMem {m : Mem} {d s n x : Nat} (h : x ∉ Ico d (d + n)) :
    copyUp m d s n x = m x := by
  induction n with
  | zero => rfl
  | succ n ih =>
    rw [copyUp, update_of_ne (fun hx => h ⟨by omega, by omega⟩)]
    exact ih fun hx => h ⟨hx.1, by have := hx.2; omega⟩

/-- A forward copy is exact when no source byte is written before it is read. -/
theorem copyUp_apply {m : Mem} {d s n i : Nat} (h : d ≤ s ∨ s + n ≤ d) (hi : i < n) :
    copyUp m d s n (d + i) = m (s + i) := by
  induction n generalizing i with
  | zero => omega
  | succ n ih =>
    rw [copyUp]
    rcases Nat.lt_succ_iff_lt_or_eq.mp hi with hlt | rfl
    · rw [update_of_ne (by omega)]
      exact ih (by omega) hlt
    · rw [update_self]
      exact copyUp_apply_of_notMem fun hx => by have := hx.1; have := hx.2; omega

/-- `for (i = n; i > 0; i--) d[i-1] = s[i-1]`. -/
def copyDown (m : Mem) (d s : Nat) : Nat → Mem
  | 0 => m
  | n + 1 => copyDown (update m (d + n) (m (s + n))) d s n

theorem copyDown_apply_of_notMem {m : Mem} {d s n x : Nat} (h : x ∉ Ico d (d + n)) :
    copyDown m d s n x = m x := by
  induction n generalizing m with
  | zero => rfl
  | succ n ih =>
    rw [copyDown, ih fun hx => h ⟨hx.1, by have := hx.2; omega⟩]
    exact update_of_ne (fun hx => h ⟨by omega, by omega⟩) _ _

theorem copyDown_apply {m : Mem} {d s n i : Nat} (h : s ≤ d ∨ d + n ≤ s) (hi : i < n) :
    copyDown m d s n (d + i) = m (s + i) := by
  induction n generalizing m with
  | zero => omega
  | succ n ih =>
    rw [copyDown]
    rcases Nat.lt_succ_iff_lt_or_eq.mp hi with hlt | rfl
    · rw [ih (by omega) hlt]
      exact update_of_ne (by omega) _ _
    · rw [copyDown_apply_of_notMem (by simp)]
      exact update_self _ _ _

/-- The `n` bytes at `s` stand at `d`, whether or not the ranges overlap. -/
def moved (m : Mem) (d s n : Nat) : Mem := fun x =>
  if x ∈ Ico d (d + n) then m (s + (x - d)) else m x

section Moved
variable {m m' : Mem} {d s n : Nat}

theorem moved_apply {i : Nat} (hi : i < n) : moved m d s n (d + i) = m (s + i) := by
  rw [moved, if_pos ⟨Nat.le_add_right d i, by omega⟩, Nat.add_sub_cancel_left]

theorem moved_apply_of_notMem {x : Nat} (h : x ∉ Ico d (d + n)) : moved m d s n x = m x := if_neg h

theorem eq_moved (hmoved : ∀ i < n, m' (d + i) = m (s + i))
    (hothers : ∀ x ∉ Ico d (d + n), m' x = m x) : m' = moved m d s n := by
  funext x
  by_cases hx : x ∈ Ico d (d + n)
  · obtain ⟨i, rfl⟩ := Nat.exists_eq_add_of_le hx.1
    have hi : i < n := by have := hx.2; omega
    rw [hmoved i hi, moved_apply hi]
  · rw [hothers x hx, moved_apply_of_notMem hx]

theorem copyUp_eq_moved (h : d ≤ s ∨ s + n ≤ d) : copyUp m d s n = moved m d s n :=
  eq_moved (fun _ hi => copyUp_apply h hi) fun _ hx => copyUp_apply_of_notMem hx

theorem copyDown_eq_moved (h : s ≤ d ∨ d + n ≤ s) : copyDown m d s n = moved m d s n :=
  eq_moved (fun _ hi => copyDown_apply h hi) fun _ hx => copyDown_apply_of_notMem hx

end Moved

end ByteMemory
