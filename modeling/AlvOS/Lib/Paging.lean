import AlvOS.Lib.ByteMemory

/-! The four-level page walk of the 64-bit processor over a byte-addressed memory.
Level `0` is the page, level `4` the root table; a table at `level + 1` is indexed by
nine bits of the address above the `12 + 9 * level` bits that it leaves. -/

namespace Paging
open ByteMemory

/-- The bits of an address that an entry of a table at `level + 1` leaves. -/
def shift (level : Nat) : Nat := 12 + 9 * level

def index (level v : Nat) : Nat := v / 2 ^ shift level % 512

def entry (m : Mem) (table i : Nat) : Nat := readLE m (table + 8 * i) 8

def Present (e : Nat) : Prop := e % 2 = 1

def Large (e : Nat) : Prop := e / 2 ^ 7 % 2 = 1

instance (e : Nat) : Decidable (Present e) := inferInstanceAs (Decidable (_ = _))
instance (e : Nat) : Decidable (Large e) := inferInstanceAs (Decidable (_ = _))

/-- The physical address in an entry, aligned to `2 ^ k`. -/
def target (e k : Nat) : Nat := e % 2 ^ 52 / 2 ^ k * 2 ^ k

/-- The bits between the attributes and the address of a large page, which must be zero. -/
def reserved (e level : Nat) : Nat := e % 2 ^ shift level / 2 ^ 13

/-- The physical address of `v`; `none` for a page fault. -/
def walk (m : Mem) : Nat → Nat → Nat → Option Nat
  | 0, page, v => some (page + v % 2 ^ 12)
  | level + 1, table, v =>
    let e := entry m table (index level v)
    if ¬Present e then none
    else if 0 < level ∧ Large e then
      -- the root has no large pages
      if level = 3 ∨ reserved e level ≠ 0 then none
      else some (target e (shift level) + v % 2 ^ shift level)
    else walk m level (target e 12) v

section Walk
variable {m : Mem} {level table v : Nat}

theorem walk_not_present (h : ¬Present (entry m table (index level v))) :
    walk m (level + 1) table v = none := by
  rw [walk, if_pos h]

theorem pointer_fields {next : Nat} (haligned : 2 ^ 12 ∣ next) (hnext : next < 2 ^ 52) :
    Present (next + 3) ∧ ¬Large (next + 3) ∧ target (next + 3) 12 = next := by
  obtain ⟨q, hq⟩ := haligned
  rw [Present, Large, target]
  omega

theorem walk_next (hpresent : Present (entry m table (index level v)))
    (hsmall : ¬Large (entry m table (index level v))) :
    walk m (level + 1) table v = walk m level (target (entry m table (index level v)) 12) v := by
  rw [walk, if_neg (not_not_intro hpresent), if_neg fun hlarge => hsmall hlarge.2]

theorem walk_pointer {next : Nat} (h : entry m table (index level v) = next + 3)
    (haligned : 2 ^ 12 ∣ next) (hnext : next < 2 ^ 52) :
    walk m (level + 1) table v = walk m level next v := by
  obtain ⟨hpresent, hsmall, htarget⟩ := pointer_fields haligned hnext
  rw [walk_next (h ▸ hpresent) (h ▸ hsmall), h, htarget]

theorem walk_large (hlevel : 0 < level) (hroot : level ≠ 3)
    (hpresent : Present (entry m table (index level v)))
    (hlarge : Large (entry m table (index level v)))
    (hreserved : reserved (entry m table (index level v)) level = 0) :
    walk m (level + 1) table v =
      some (target (entry m table (index level v)) (shift level) + v % 2 ^ shift level) := by
  rw [walk, if_neg (not_not_intro hpresent), if_pos ⟨hlevel, hlarge⟩,
    if_neg (not_or_intro hroot (not_not_intro hreserved))]

/-- A large page below the root maps nothing but its own target. -/
theorem walk_large_ne (hlevel : 0 < level) (hlarge : Large (entry m table (index level v)))
    (hv : target (entry m table (index level v)) (shift level) + v % 2 ^ shift level ≠ v) :
    walk m (level + 1) table v ≠ some v := by
  rw [walk]
  split_ifs with hpresent hl hroot
  · exact (Option.some_ne_none v).symm
  · exact fun h => hv (Option.some.inj h)
  · exact absurd ⟨hlevel, hlarge⟩ hl
  · exact (Option.some_ne_none v).symm

theorem walk_page_ne (hv : target (entry m table (index 0 v)) 12 + v % 2 ^ 12 ≠ v) :
    walk m 1 table v ≠ some v := by
  rw [walk]
  split_ifs with hpresent hl hroot
  · exact (Option.some_ne_none v).symm
  · exact absurd hl.1 (Nat.lt_irrefl 0)
  · exact fun h => hv (Option.some.inj h)
  · exact (Option.some_ne_none v).symm

end Walk

end Paging
