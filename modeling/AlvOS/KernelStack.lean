import AlvOS.Boot

/-! What the stack leaves of the identity map.  It grows down into the last page table from
behind, so that eight bytes of it cost the mapping of 2 MiB at the upper end. -/

namespace AlvOS.Boot
open ByteMemory Paging Transition

/-- The entries on the two ways to `v` are as `setup_page_tables` has filled them in. -/
structure Maps (l : Layout) (m : Mem) (v : Nat) : Prop where
  p4 : entry m l.p4Table 0 = l.p3Table + 3
  p4High : entry m l.p4Table 256 = l.p3Table + 3
  p3 : entry m l.p3Table 0 = l.p2Table + 3
  p2 : entry m l.p2Table (v / 2 ^ 21) = 2 ^ 21 * (v / 2 ^ 21) + 0x83

def higherHalf : Nat := 0xFFFF800000000000

section Maps
variable {l : Layout} {m : Mem} {v : Nat}

theorem Maps.walk_mod (h : Maps l m v) (hv : v < 2 ^ 30) {w : Nat} (hw : w % 2 ^ 39 = v)
    (h4 : entry m l.p4Table (index 3 w) = l.p3Table + 3) : walk m 4 l.p4Table w = some v := by
  have hbss := l.bss_le
  obtain ⟨q, hq⟩ := l.p4Table_aligned
  have h3 : entry m l.p3Table (index 2 w) = l.p2Table + 3 := by
    have hindex : index 2 w = 0 := by
      rw [index, shift]
      omega
    rw [hindex, h.p3]
  have h2 : entry m l.p2Table (index 1 w) = 2 ^ 21 * (v / 2 ^ 21) + 0x83 := by
    have hindex : index 1 w = v / 2 ^ 21 := by
      rw [index, shift]
      omega
    rw [hindex, h.p2]
  have hp3 : l.p3Table = 4096 * (q + 1) := by
    rw [Layout.p3Table, hq]
    omega
  have hp2 : l.p2Table = 4096 * (q + 2) := by
    rw [Layout.p2Table, hp3]
    omega
  rw [walk_pointer h4 (by omega) (by omega), walk_pointer h3 (by omega) (by omega),
    walk_large (by decide) (by decide) (by rw [h2, Present]; omega) (by rw [h2, Large]; omega)
      (by rw [h2, reserved, shift]; omega), h2, target, shift]
  exact congrArg some (by omega)

theorem Maps.walk (h : Maps l m v) (hv : v < 2 ^ 30) : walk m 4 l.p4Table v = some v := by
  have hindex : index 3 v = 0 := by rw [index, shift, Nat.div_eq_of_lt (by omega)]
  exact h.walk_mod hv (Nat.mod_eq_of_lt (by omega)) (by rw [hindex, h.p4])

theorem Maps.walk_high (h : Maps l m v) (hv : v < 2 ^ 30) :
    Paging.walk m 4 l.p4Table (higherHalf + v) = some v := by
  have hindex : index 3 (higherHalf + v) = 256 := by
    rw [index, shift, higherHalf]
    omega
  exact h.walk_mod hv (by rw [higherHalf]; omega) (by rw [hindex, h.p4High])

end Maps

theorem fillTables_p4_high (l : Layout) (m : Mem) :
    readLE (fillTables l m) (l.p4Table + 8 * 256) 4 = l.p3Table + 3 := by
  have hbss := l.bss_le
  have hp3 : l.p3Table = l.p4Table + 4096 := rfl
  have hplace : l.p4Table + 8 * 256 = l.p4Table + 256 * 8 := rfl
  rw [fillTables, hplace, readLE_writeLE_self, p3Table_or, Nat.mod_eq_of_lt (by omega)]

theorem entry_p4_high (i : Image) (ebx : Nat) :
    entry (boot i ebx).mem i.p4Table 256 = i.p3Table + 3 := by
  have haligned := i.p4Table_aligned
  refine readLE_boot_entry i ebx (by omega) ?_ (by omega) (fillTables_p4_high i.toLayout)
  dsimp only [Layout.stackTop, Layout.p2Table, Layout.p3Table]
  omega

/-- Whatever is pushed and popped while the return address of `kernel_main` stays, and no more
than `depth` bytes are in use. -/
def shallowSystem (i : Image) (depth : Nat) : System Machine StackOp where
  init s := ∃ ebx, s = boot i ebx
  step s op t := t = op.apply s ∧ t.sp + 8 ≤ i.stackTop ∧ i.stackTop ≤ t.sp + depth

structure Shallow (i : Image) (depth ebx : Nat) (s : Machine) : Prop where
  high : s.sp + 8 ≤ i.stackTop
  below : ∀ b k, b + k + depth ≤ i.stackTop → readLE s.mem b k = readLE (boot i ebx).mem b k

section Shallow
variable {i : Image} {depth ebx : Nat} {s t : Machine} {op : StackOp}

theorem table_places (i : Image) : 0x100000 ≤ i.p4Table ∧ i.p2Table + 4096 = i.stackTop ∧
    i.p4Table + 8192 = i.p2Table := by
  have hbase := i.base_le
  dsimp only [Layout.stackTop, Layout.p2Table, Layout.p3Table]
  omega

theorem Shallow.step (h : Shallow i depth ebx s)
    (hstep : (shallowSystem i depth).step s op t) : Shallow i depth ebx t := by
  obtain ⟨rfl, hhigh, hlow⟩ := hstep
  refine ⟨hhigh, fun b k hbelow => ?_⟩
  cases op with
  | pop width => exact h.below b k hbelow
  | push width value =>
    have hroom : i.stackTop ≤ s.sp - width + depth := hlow
    rw [StackOp.apply, Machine.push, readLE_writeLE_apart (by omega)]
    exact h.below b k hbelow

theorem exists_shallow (hs : (shallowSystem i depth).Reachable s) :
    ∃ ebx, Shallow i depth ebx s := by
  refine hs.invariant (P := fun s => ∃ ebx, Shallow i depth ebx s) ?_ ?_
  · rintro s ⟨ebx, rfl⟩
    obtain ⟨hbase, htop, hp2⟩ := table_places i
    exact ⟨ebx, by rw [boot_sp]; omega, fun b k _ => rfl⟩
  · rintro a l b ⟨ebx, ha⟩ hstep
    exact ⟨ebx, ha.step hstep⟩

theorem Shallow.maps (h : Shallow i depth ebx s) (hdepth : 8 ≤ depth) {v : Nat}
    (hv : v < (512 - (depth + 7) / 8) * 2 ^ 21) : Maps i.toLayout s.mem v := by
  obtain ⟨hbase, htop, hp2⟩ := table_places i
  have hp3 : i.p3Table = i.p4Table + 4096 := rfl
  have hentry {b : Nat} (hb : b + 8 + depth ≤ i.stackTop) :
      readLE s.mem b 8 = readLE (boot i ebx).mem b 8 := h.below b 8 hb
  refine ⟨?_, ?_, ?_, ?_⟩
  · rw [entry, hentry (by omega), ← entry, entry_p4]
  · rw [entry, hentry (by omega), ← entry, entry_p4_high]
  · rw [entry, hentry (by omega), ← entry, entry_p3]
  · rw [entry, hentry (by omega), ← entry, entry_p2 i ebx (by omega)]

end Shallow

/-- While at most `depth` bytes of the stack are in use, every address below the last
`depth / 8` (rounded up) pages of 2 MiB is mapped to itself, also in the higher half; and every
push of eight bytes puts its value in the place of the next entry. -/
theorem identity_beneath_stack {i : Image} {depth : Nat} (hdepth : 8 ≤ depth) {s : Machine}
    (hs : (shallowSystem i depth).Reachable s) :
    (∀ v < (512 - (depth + 7) / 8) * 2 ^ 21, walk s.mem 4 i.p4Table v = some v ∧
      walk s.mem 4 i.p4Table (higherHalf + v) = some v) ∧
    ∀ k < 511, s.sp + 8 * (k + 1) = i.stackTop → ∀ value,
      entry (s.push 8 value).mem i.p2Table (510 - k) = value % 2 ^ 64 := by
  obtain ⟨hbase, htop, hp2⟩ := table_places i
  refine ⟨fun v hv => ?_, fun k hk hsp value => ?_⟩
  · obtain ⟨ebx, hshallow⟩ := exists_shallow hs
    have hmaps := hshallow.maps hdepth hv
    exact ⟨hmaps.walk (by omega), hmaps.walk_high (by omega)⟩
  · have hplace : s.sp - 8 = i.p2Table + 8 * (510 - k) := by omega
    rw [entry, Machine.push, hplace, readLE_writeLE_self]
    rfl

/-- With one more word on the stack of the linked program, the second 2 MiB from the end are lost
as well. -/
theorem identity_beneath_stack_linked :
    (∀ v < 510 * 2 ^ 21, walk ((boot linked 0).push 8 0).mem 4 0x10F000 v = some v) ∧
      entry ((boot linked 0).push 8 0).mem 0x111000 510 = 0 := by
  have hboot : (shallowSystem linked 16).Reachable (boot linked 0) := .init ⟨0, rfl⟩
  have hpush : (shallowSystem linked 16).Reachable ((boot linked 0).push 8 0) :=
    hboot.step (l := .push 8 0) ⟨rfl, by decide, by decide⟩
  exact ⟨fun v hv => ((identity_beneath_stack (by decide) hpush).1 v hv).1,
    (identity_beneath_stack (by decide) hboot).2 0 (by decide) rfl 0⟩

end AlvOS.Boot
