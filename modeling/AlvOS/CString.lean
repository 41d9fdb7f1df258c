import Mathlib.Order.Interval.Set.Disjoint
import AlvOS.Lib.ByteString

/-! The block and string operations of string.c. -/

namespace AlvOS.CString
open ByteMemory Fuel Set

/-- `memset` stores `(unsigned char)value` in ascending order. -/
def memset (m : Mem) (ptr value n : Nat) : Mem := fill m ptr (UInt8.ofNat value) n

def memcpy (m : Mem) (dest src n : Nat) : Mem := copyUp m dest src n

def memmove (m : Mem) (dest src n : Nat) : Mem :=
  if dest < src then copyUp m dest src n else copyDown m dest src n

/-- `len` counts the turns of `while (str[len]) len++`. -/
def strlen (fuel : Nat) (m : Mem) (str : Nat) : Option Nat :=
  (scanWhile (fun c => c ≠ 0) fuel m str).map fun stop => stop - str

def strcpy (fuel : Nat) (m : Mem) (dest src : Nat) : Option Mem := copyString fuel m dest src

/-- The difference is taken of unsigned bytes. -/
def strcmp (fuel : Nat) (m : Mem) (str1 str2 : Nat) : Option Int := compareStrings fuel m str1 str2

/-- A count that has run out gives 0. -/
def strncmp (m : Mem) (str1 str2 n : Nat) : Int := compareFirst m str1 str2 n

/-- The bytes of `str1` and `str2` that `strcmp` looks at. -/
def strcmpReads (fuel : Nat) (m : Mem) (str1 str2 : Nat) : Option (List (Nat × Nat)) :=
  compareReads fuel m str1 str2

def strncmpReads (m : Mem) (str1 str2 n : Nat) : List (Nat × Nat) :=
  compareFirstReads m str1 str2 n

theorem memmove_eq_moved (m : Mem) (dest src n : Nat) :
    memmove m dest src n = moved m dest src n := by
  rw [memmove]
  split_ifs with h
  · exact copyUp_eq_moved (.inl h.le)
  · exact copyDown_eq_moved (.inl (Nat.le_of_not_lt h))

/-- The bytes moved are those from before the call, in every position of the two ranges. -/
theorem memmove_moves (m : Mem) (dest src n : Nat) :
    (∀ i < n, memmove m dest src n (dest + i) = m (src + i)) ∧
    EqOn (memmove m dest src n) m (Ico dest (dest + n))ᶜ ∧
    (Disjoint (Ico dest (dest + n)) (Ico src (src + n)) →
      memcpy m dest src n = memmove m dest src n) := by
  rw [memmove_eq_moved]
  refine ⟨fun i hi => moved_apply hi, fun x hx => moved_apply_of_notMem hx, fun hdisjoint => ?_⟩
  have hapart := Ico_disjoint_Ico.mp hdisjoint
  apply copyUp_eq_moved
  omega

theorem strlen_mono (m : Mem) (str : Nat) : Mono fun fuel => strlen fuel m str :=
  (scanWhile_mono _ m str).map _

theorem strcmp_mono (m : Mem) (str1 str2 : Nat) : Mono fun fuel => strcmp fuel m str1 str2 :=
  compareStrings_mono m str1 str2

section Compare
variable {m m' : Mem} {p q r n : Nat} {a b c : List UInt8}

theorem returns_strlen (h : CStr m p a) : Returns (fun fuel => strlen fuel m p) a.length := by
  have hscan := returns_scanWhile (fun c => c ≠ 0) h.spells
    (fun c hc => by simpa using fun h0 : c = 0 => h.inner (h0 ▸ hc)) (by simp [h.stop])
  have hlen : p + a.length - p = a.length := by omega
  exact hlen ▸ hscan.map fun stop => stop - p

theorem returns_strcmp (ha : CStr m p a) (hb : CStr m q b) :
    Returns (fun fuel => strcmp fuel m p q) (difference a b) := returns_compareStrings ha hb

theorem strncmp_strlen_eq_zero_iff (ha : CStr m p a) (hb : CStr m q b) :
    strncmp m p q a.length = 0 ↔ a <+: b := by
  rw [strncmp, compareFirst_eq ha hb, List.take_length]
  exact prefix_iff_difference ha.inner hb.inner

theorem strncmp_eq_strcmp {p' q' : Nat} (ha : CStr m p a) (hb : CStr m q b)
    (ha' : CStr m' p' (a.take n)) (hb' : CStr m' q' (b.take n)) :
    Returns (fun fuel => strcmp fuel m' p' q') (strncmp m p q n) := by
  rw [strncmp, compareFirst_eq ha hb]
  exact returns_strcmp ha' hb'

/-- The comparisons are by the lexicographic order of the strings, and look at none of the
bytes behind them. -/
theorem strcmp_lexicographic (ha : CStr m p a) (hb : CStr m q b) (hc : CStr m r c) (n : Nat) :
    ∃ ab ba bc ac : Int,
      Returns (fun fuel => strcmp fuel m p q) ab ∧ Returns (fun fuel => strcmp fuel m q p) ba ∧
      Returns (fun fuel => strcmp fuel m q r) bc ∧ Returns (fun fuel => strcmp fuel m p r) ac ∧
      Compares ab a b ∧ ba = -ab ∧ (ab ≤ 0 → bc ≤ 0 → ac ≤ 0) ∧
      (∀ m' p' q', CStr m' p' (a.take n) → CStr m' q' (b.take n) →
        ∃ d, Returns (fun fuel => strcmp fuel m' p' q') d ∧ (strncmp m p q n).sign = d.sign) ∧
      (∃ len, Returns (fun fuel => strlen fuel m p) len ∧ (strncmp m p q len = 0 ↔ a <+: b)) ∧
      (∃ reads, Returns (fun fuel => strcmpReads fuel m p q) reads ∧
        ∀ x ∈ reads, x.1 ≤ p + a.length ∧ x.2 ≤ q + b.length) ∧
      ∀ x ∈ strncmpReads m p q n, x.1 ≤ p + a.length ∧ x.2 ≤ q + b.length := by
  have hab := compares_difference ha.inner hb.inner
  have hbc := compares_difference hb.inner hc.inner
  have hac := compares_difference ha.inner hc.inner
  refine ⟨_, _, _, _, returns_strcmp ha hb, returns_strcmp hb ha, returns_strcmp hb hc,
    returns_strcmp ha hc, hab, difference_swap a b,
    hab.trans hbc hac, fun m' p' q' ha' hb' => ⟨_, strncmp_eq_strcmp ha hb ha' hb', rfl⟩,
    ⟨_, returns_strlen ha, strncmp_strlen_eq_zero_iff ha hb⟩, returns_compareReads ha hb,
    compareFirstReads_within ha hb n⟩

/-- The strings `ab` and `abc`. -/
theorem strcmp_lexicographic_shorter :
    ∃ d, Returns (fun fuel => strcmp fuel (fun x => [97, 98, 0, 97, 98, 99].getD x 0) 0 3) d ∧
      d < 0 := by
  have hshort : CStr (fun x => [97, 98, 0, 97, 98, 99].getD x 0) 0 [97, 98] :=
    ⟨by simp [Spells], rfl, by decide⟩
  have hlong : CStr (fun x => [97, 98, 0, 97, 98, 99].getD x 0) 3 [97, 98, 99] :=
    ⟨by simp [Spells], rfl, by decide⟩
  obtain ⟨d, -, -, -, hret, -, -, -, hcompares, -⟩ := strcmp_lexicographic hshort hlong hshort 0
  exact ⟨d, hret, hcompares.lt.mpr (by decide)⟩

end Compare

end AlvOS.CString
