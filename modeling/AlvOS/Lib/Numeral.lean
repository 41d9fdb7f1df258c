import Mathlib.Data.Nat.Digits.Lemmas

/-! Numerals in a base, most significant character first: reading them, when they are
canonical, and the digits of a number as characters. -/

namespace Numeral
variable {α : Type*}

/-- Reading from left to right; nothing when some character is no digit of the base. -/
def read (digit : α → Option Nat) (base : Nat) (cs : List α) : Option Nat :=
  cs.foldlM (fun n c => (digit c).bind fun d => if d < base then some (base * n + d) else none) 0

/-- Digits only, that say `n`, and no leading zero but for `n = 0`. -/
structure Canonical (digit : α → Option Nat) (base n : Nat) (cs : List α) : Prop where
  digits : ∀ c ∈ cs, ∃ d < base, digit c = some d
  read : read digit base cs = some n
  nonempty : cs ≠ []
  leading : ∀ c rest, cs = c :: rest → digit c = some 0 → n = 0 ∧ rest = []

/-- Digits given least significant first, as the characters they are written with. -/
def write (char : Nat → α) (ds : List Nat) : List α := (ds.map char).reverse

section Write
variable {digit : α → Option Nat} {char : Nat → α} {base n : Nat} {ds : List Nat} {c : α}

theorem write_cons (char : Nat → α) (d : Nat) (ds : List Nat) :
    write char (d :: ds) = write char ds ++ [char d] := by
  rw [write, List.map_cons, List.reverse_cons, write]

theorem length_write (char : Nat → α) (ds : List Nat) : (write char ds).length = ds.length := by
  rw [write, List.length_reverse, List.length_map]

theorem exists_of_mem_write (h : c ∈ write char ds) : ∃ d ∈ ds, char d = c :=
  List.mem_map.mp (List.mem_reverse.mp h)

theorem read_write (hchar : ∀ d < base, digit (char d) = some d) (hds : ∀ d ∈ ds, d < base) :
    read digit base (write char ds) = some (Nat.ofDigits base ds) := by
  induction ds with
  | nil => rfl
  | cons d ds ih =>
    have hd := hds d (List.mem_cons_self ..)
    have hrest := ih fun e he => hds e (List.mem_cons_of_mem d he)
    rw [read] at hrest
    rw [write_cons, read, List.foldlM_append, hrest, Nat.ofDigits_cons]
    simp [hchar d hd, hd, Nat.add_comm]

theorem canonical_write_digits (hbase : 1 < base) (hchar : ∀ d < base, digit (char d) = some d)
    (hn : n ≠ 0) : Canonical digit base n (write char (Nat.digits base n)) := by
  have hlt : ∀ d ∈ Nat.digits base n, d < base := fun d hd => Nat.digits_lt_base hbase hd
  have hnil : Nat.digits base n ≠ [] := Nat.digits_ne_nil_iff_ne_zero.mpr hn
  refine ⟨fun c hc => ?_, ?_, ?_, fun c rest hcs hzero => ?_⟩
  · obtain ⟨d, hd, rfl⟩ := exists_of_mem_write hc
    exact ⟨d, hlt d hd, hchar d (hlt d hd)⟩
  · rw [read_write hchar hlt, Nat.ofDigits_digits]
  · rw [write, Ne, List.reverse_eq_nil_iff, List.map_eq_nil_iff]
    exact hnil
  · -- the first character is the most significant digit
    have hfirst : (write char (Nat.digits base n)).head? =
        some (char ((Nat.digits base n).getLast hnil)) := by
      rw [write, List.head?_reverse, List.getLast?_map, List.getLast?_eq_some_getLast hnil]
      rfl
    rw [hcs, List.head?_cons, Option.some_inj] at hfirst
    have hlast := hchar _ (hlt _ (List.getLast_mem hnil))
    rw [← hfirst, hzero, Option.some_inj] at hlast
    exact absurd hlast.symm (Nat.getLast_digit_ne_zero base hn)

theorem digitsAppend_succ (hbase : 1 < base) (k n : Nat) :
    Nat.digitsAppend base (k + 1) n = n % base :: Nat.digitsAppend base k (n / base) := by
  rcases Nat.eq_zero_or_pos n with rfl | hn
  · simp [Nat.digitsAppend, List.replicate_succ]
  · simp [Nat.digitsAppend, Nat.digits_def' hbase hn]

theorem read_write_digitsAppend (hbase : 1 < base) (hchar : ∀ d < base, digit (char d) = some d)
    (k n : Nat) : read digit base (write char (Nat.digitsAppend base k n)) = some n := by
  rw [read_write hchar fun d hd => Nat.lt_of_mem_digitsAppend hbase k d hd, Nat.digitsAppend,
    Nat.ofDigits_append_replicate_zero, Nat.ofDigits_digits]

end Write

end Numeral
