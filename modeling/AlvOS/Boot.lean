import AlvOS.Lib.Paging
import AlvOS.Lib.Transition
import AlvOS.Lib.Word

/-! The way from `start` to `kernel_main` in boot.asm: the page tables, the stack next to
them in .bss, and what the stack leaves of the tables. -/

namespace AlvOS.Boot
open ByteMemory Paging Word Transition

/-! ## The program in memory -/

/-- Where the linker puts the pieces of boot.asm.  Its part of .rodata takes `0x51` bytes,
since the 64-bit code follows `gdt64_pointer` there. -/
structure Layout where
  start : Nat
  gdt64 : Nat
  p4Table : Nat
  gdt64_aligned : 8 ∣ gdt64
  p4Table_aligned : 4096 ∣ p4Table
  base_le : 0x100000 ≤ p4Table
  rodata_le : gdt64 + 0x51 ≤ p4Table
  bss_le : p4Table + 3 * 4096 + 32768 + 8 ≤ 511 * 0x200000

namespace Layout
variable (l : Layout)

def p3Table : Nat := l.p4Table + 4096
def p2Table : Nat := l.p3Table + 4096
def stackTop : Nat := l.p2Table + 4096
def stackBottom : Nat := l.stackTop + 32768
def multibootMagic : Nat := l.stackBottom
def multibootInfo : Nat := l.multibootMagic + 4

/-- Where the three calls return to: 28 and 33 bytes into `start`, and behind the descriptors
(24 bytes), the pointer to them (10) and 43 bytes of 64-bit code. -/
def setupReturn : Nat := l.start + 0x1C
def enableReturn : Nat := l.start + 0x21
def kernelReturn : Nat := l.gdt64 + 0x4D

theorem kernelReturn_bounds :
    l.kernelReturn % 8 = 5 ∧ l.kernelReturn + 3 ≤ l.p4Table ∧ l.kernelReturn < 511 * 2 ^ 21 := by
  have haligned := l.gdt64_aligned
  have hrodata := l.rodata_le
  have hbss := l.bss_le
  rw [Layout.kernelReturn]
  omega

end Layout

/-- The program as the boot loader leaves it: .bss is zero, and the instruction behind the
call of `kernel_main` is `cli`. -/
structure Image extends Layout where
  mem : Mem
  bss_zero : ∀ x, p4Table ≤ x → x < p4Table + 3 * 4096 + 32768 → mem x = 0
  cli : mem (gdt64 + 0x4D) = 0xFA

/-! ## The code -/

structure Machine where
  mem : Mem
  sp : Nat
  cr3 : Nat

namespace Machine

def push (s : Machine) (width value : Nat) : Machine :=
  { s with mem := writeLE s.mem (s.sp - width) width value, sp := s.sp - width }

def pop (s : Machine) (width : Nat) : Machine := { s with sp := s.sp + width }

end Machine

/-- The loop `.map_identity`, up to `ecx`. -/
def mapIdentity (l : Layout) (m : Mem) : Nat → Mem
  | 0 => m
  | ecx + 1 =>
    writeLE (mapIdentity l m ecx) (l.p2Table + ecx * 8) 4 (u32 (0x200000 * ecx) ||| 0b10000011)

def fillTables (l : Layout) (m : Mem) : Mem :=
  let m := writeLE m l.p4Table 4 (l.p3Table ||| 0b11)
  let m := writeLE m l.p3Table 4 (l.p2Table ||| 0b11)
  let m := mapIdentity l m 512
  writeLE m (l.p4Table + 256 * 8) 4 (l.p3Table ||| 0b11)

def setupPageTables (l : Layout) (s : Machine) : Machine :=
  { s with mem := fillTables l s.mem }.pop 4

/-- Of the control registers only `cr3` matters here. -/
def enablePaging (l : Layout) (s : Machine) : Machine := { s with cr3 := l.p4Table }.pop 4

/-- The two words that the boot loader passes in `eax` and `ebx`. -/
def storeMultiboot (i : Image) (ebx : Nat) : Mem :=
  writeLE (writeLE i.mem i.multibootMagic 4 0x36d76289) i.multibootInfo 4 ebx

/-- From `start` to the first instruction of `kernel_main`, with the magic number in `eax`. -/
def boot (i : Image) (ebx : Nat) : Machine :=
  let s : Machine := ⟨storeMultiboot i ebx, i.stackTop, 0⟩
  let s := setupPageTables i.toLayout (s.push 4 i.setupReturn)
  let s := enablePaging i.toLayout (s.push 4 i.enableReturn)
  -- `long_mode_start_64` sets the stack pointer again
  { s with sp := i.stackTop }.push 8 i.kernelReturn

section Tables
variable (l : Layout) (m : Mem)

theorem mapIdentity_apart {b k n : Nat}
    (h : ∀ j < n, b + k ≤ l.p2Table + j * 8 ∨ l.p2Table + j * 8 + 4 ≤ b) :
    readLE (mapIdentity l m n) b k = readLE m b k := by
  induction n with
  | zero => rfl
  | succ n ih =>
    rw [mapIdentity, readLE_writeLE_apart (h n (Nat.lt_succ_self n)).symm,
      ih fun j hj => h j (Nat.lt_succ_of_lt hj)]

theorem mapIdentity_entry {j n : Nat} (hj : j < n) (hn : n ≤ 512) :
    readLE (mapIdentity l m n) (l.p2Table + j * 8) 4 = 2 ^ 21 * j + 0x83 := by
  induction n with
  | zero => exact absurd hj (Nat.not_lt_zero j)
  | succ n ih =>
    rw [mapIdentity]
    rcases Nat.lt_succ_iff_lt_or_eq.mp hj with hlt | rfl
    · rw [readLE_writeLE_apart (by omega), ih hlt (by omega)]
    · have hor : 2 ^ 21 * j + 0x83 = 2 ^ 21 * j ||| 0x83 :=
        Nat.two_pow_add_eq_or_of_lt (by decide) j
      have hmul : u32 (0x200000 * j) = 2 ^ 21 * j := Nat.mod_eq_of_lt (by omega)
      rw [readLE_writeLE_self, hmul, ← hor, Nat.mod_eq_of_lt (by omega)]

/-- The four bytes at `b` are none of those that `setup_page_tables` writes. -/
def Untouched (b k : Nat) : Prop :=
  (b + k ≤ l.p4Table ∨ l.p4Table + 4 ≤ b) ∧ (b + k ≤ l.p3Table ∨ l.p3Table + 4 ≤ b) ∧
    (∀ j < 512, b + k ≤ l.p2Table + j * 8 ∨ l.p2Table + j * 8 + 4 ≤ b) ∧
    (b + k ≤ l.p4Table + 256 * 8 ∨ l.p4Table + 256 * 8 + 4 ≤ b)

theorem untouched_below {b k : Nat} (h : b + k ≤ l.p4Table) : Untouched l b k := by
  dsimp only [Untouched, Layout.p2Table, Layout.p3Table]
  exact ⟨by omega, by omega, fun j _ => by omega, by omega⟩

theorem untouched_upper {b : Nat} (h : 8 ∣ b) : Untouched l (b + 4) 4 := by
  have haligned := l.p4Table_aligned
  dsimp only [Untouched, Layout.p2Table, Layout.p3Table]
  exact ⟨by omega, by omega, fun j _ => by omega, by omega⟩

theorem fillTables_apart {b k : Nat} (h : Untouched l b k) :
    readLE (fillTables l m) b k = readLE m b k := by
  obtain ⟨h4, h3, h2, hhalf⟩ := h
  rw [fillTables, readLE_writeLE_apart hhalf.symm, mapIdentity_apart l _ h2,
    readLE_writeLE_apart h3.symm, readLE_writeLE_apart h4.symm]

theorem or_present {a : Nat} (h : 4096 ∣ a) : a ||| 0b11 = a + 3 := by
  obtain ⟨q, rfl⟩ := h
  exact (Nat.two_pow_add_eq_or_of_lt (i := 12) (by decide) q).symm

theorem p3Table_or : l.p3Table ||| 0b11 = l.p3Table + 3 := by
  have haligned := l.p4Table_aligned
  exact or_present (by rw [Layout.p3Table]; omega)

theorem p2Table_or : l.p2Table ||| 0b11 = l.p2Table + 3 := by
  have haligned := l.p4Table_aligned
  exact or_present (by rw [Layout.p2Table, Layout.p3Table]; omega)

theorem fillTables_p4 : readLE (fillTables l m) l.p4Table 4 = l.p3Table + 3 := by
  have hbss := l.bss_le
  rw [fillTables, readLE_writeLE_apart (by omega), mapIdentity_apart, readLE_writeLE_apart,
    readLE_writeLE_self, p3Table_or, Nat.mod_eq_of_lt]
  all_goals dsimp only [Layout.p2Table, Layout.p3Table]; omega

theorem fillTables_p3 : readLE (fillTables l m) l.p3Table 4 = l.p2Table + 3 := by
  have hbss := l.bss_le
  rw [fillTables, readLE_writeLE_apart, mapIdentity_apart, readLE_writeLE_self, p2Table_or,
    Nat.mod_eq_of_lt]
  all_goals dsimp only [Layout.p2Table, Layout.p3Table]; omega

theorem fillTables_p2 {j : Nat} (hj : j < 512) :
    readLE (fillTables l m) (l.p2Table + j * 8) 4 = 2 ^ 21 * j + 0x83 := by
  rw [fillTables, readLE_writeLE_apart, mapIdentity_entry l _ hj (le_refl 512)]
  dsimp only [Layout.p2Table, Layout.p3Table]
  omega

/-- The return address of `setup_page_tables` lies in the upper half of the last entry, of
which the loop writes the lower half only: the function does return. -/
theorem setup_returns (cr3 : Nat) :
    readLE (setupPageTables l (Machine.push ⟨m, l.stackTop, cr3⟩ 4 l.setupReturn)).mem
      (l.stackTop - 4) 4 = u32 l.setupReturn := by
  have haligned := l.p4Table_aligned
  have hplace : l.stackTop - 4 = l.p2Table + 511 * 8 + 4 := by
    rw [Layout.stackTop]
    omega
  have huntouched : Untouched l (l.stackTop - 4) 4 := by
    rw [hplace]
    apply untouched_upper
    dsimp only [Layout.p2Table, Layout.p3Table]
    omega
  show readLE (fillTables l (writeLE m (l.stackTop - 4) 4 l.setupReturn)) (l.stackTop - 4) 4 = _
  rw [fillTables_apart l _ huntouched, readLE_writeLE_self]
  rfl

end Tables

/-! ## The tables when `kernel_main` begins -/

section Entry
variable (i : Image) (ebx : Nat)

theorem boot_mem : ∃ m, (boot i ebx).mem = writeLE (writeLE (fillTables i.toLayout m)
      (i.stackTop - 4) 4 i.enableReturn) (i.stackTop - 8) 8 i.kernelReturn ∧
    ∀ b k, b + k ≤ i.stackTop - 4 → readLE m b k = readLE i.mem b k := by
  have hbase := i.base_le
  refine ⟨writeLE (storeMultiboot i ebx) (i.stackTop - 4) 4 i.setupReturn, ?_, fun b k h => ?_⟩
  · have hsp : i.stackTop - 4 + 4 = i.stackTop := by
      dsimp only [Layout.stackTop]
      omega
    simp only [boot, setupPageTables, enablePaging, Machine.push, Machine.pop, hsp]
  · rw [storeMultiboot, readLE_writeLE_apart, readLE_writeLE_apart, readLE_writeLE_apart]
    all_goals
      dsimp only [Layout.multibootInfo, Layout.multibootMagic, Layout.stackBottom, Layout.stackTop]
        at h ⊢
      omega

theorem readLE_boot {b k : Nat} (h : b + k ≤ i.stackTop - 8)
    (huntouched : Untouched i.toLayout b k) :
    readLE (boot i ebx).mem b k = readLE i.mem b k := by
  obtain ⟨m, hmem, hm⟩ := boot_mem i ebx
  rw [hmem, readLE_writeLE_apart, readLE_writeLE_apart, fillTables_apart _ _ huntouched, hm]
  all_goals omega

theorem entry_last : entry (boot i ebx).mem i.p2Table 511 = i.kernelReturn := by
  obtain ⟨-, -, hlow⟩ := i.kernelReturn_bounds
  obtain ⟨m, hmem, -⟩ := boot_mem i ebx
  have hplace : i.stackTop - 8 = i.p2Table + 8 * 511 := by
    dsimp only [Layout.stackTop]
    omega
  rw [entry, hmem, hplace, readLE_writeLE_self, Nat.mod_eq_of_lt (by omega)]

theorem readLE_boot_entry {b e : Nat} (hlow : i.p4Table ≤ b) (hhigh : b + 8 ≤ i.stackTop - 8)
    (haligned : 8 ∣ b) (hword : ∀ m, readLE (fillTables i.toLayout m) b 4 = e) :
    readLE (boot i ebx).mem b 8 = e := by
  have hword' : readLE (boot i ebx).mem b 4 = e := by
    obtain ⟨m, hmem, -⟩ := boot_mem i ebx
    rw [hmem, readLE_writeLE_apart (by omega), readLE_writeLE_apart (by omega), hword]
  have hzero : readLE i.mem (b + 4) 4 = 0 := by
    refine readLE_eq_zero fun x h1 h2 => i.bss_zero x (by omega) ?_
    dsimp only [Layout.stackTop, Layout.p2Table, Layout.p3Table] at hhigh
    omega
  rw [readLE_add _ b 4 4, hword', readLE_boot i ebx (by omega) (untouched_upper _ haligned),
    hzero, Nat.mul_zero,
    Nat.add_zero]

theorem entry_p4 : entry (boot i ebx).mem i.p4Table 0 = i.p3Table + 3 := by
  have haligned := i.p4Table_aligned
  refine readLE_boot_entry i ebx (le_refl _) ?_ (by omega) (fillTables_p4 i.toLayout)
  dsimp only [Layout.stackTop, Layout.p2Table, Layout.p3Table]
  omega

theorem entry_p3 : entry (boot i ebx).mem i.p3Table 0 = i.p2Table + 3 := by
  have haligned := i.p4Table_aligned
  refine readLE_boot_entry i ebx ?_ ?_ ?_ (fillTables_p3 i.toLayout)
  all_goals dsimp only [Layout.stackTop, Layout.p2Table, Layout.p3Table]; omega

theorem entry_p2 {j : Nat} (hj : j < 511) :
    entry (boot i ebx).mem i.p2Table j = 2 ^ 21 * j + 0x83 := by
  have haligned := i.p4Table_aligned
  rw [entry, Nat.mul_comm 8]
  refine readLE_boot_entry i ebx ?_ ?_ ?_ (fun m => fillTables_p2 i.toLayout m (by omega))
  all_goals dsimp only [Layout.stackTop, Layout.p2Table, Layout.p3Table]; omega

theorem walk_boot {v : Nat} (hv : v < 2 ^ 30) :
    walk (boot i ebx).mem 4 i.p4Table v = walk (boot i ebx).mem 2 i.p2Table v := by
  have hbss := i.bss_le
  have h4 : entry (boot i ebx).mem i.p4Table (index 3 v) = i.p3Table + 3 := by
    have hindex : index 3 v = 0 := by rw [index, shift, Nat.div_eq_of_lt (by omega)]
    rw [hindex, entry_p4]
  have h3 : entry (boot i ebx).mem i.p3Table (index 2 v) = i.p2Table + 3 := by
    have hindex : index 2 v = 0 := by rw [index, shift, Nat.div_eq_of_lt (by omega)]
    rw [hindex, entry_p3]
  obtain ⟨q, hq⟩ := i.p4Table_aligned
  rw [walk_pointer h4, walk_pointer h3]
  all_goals dsimp only [Layout.p2Table, Layout.p3Table]; omega

theorem walk_boot_below {v : Nat} (hv : v < 511 * 2 ^ 21) :
    walk (boot i ebx).mem 4 i.p4Table v = some v := by
  have hindex : index 1 v = v / 2 ^ 21 := by
    rw [index, shift, Nat.mod_eq_of_lt (by omega)]
  have hentry : entry (boot i ebx).mem i.p2Table (index 1 v) = 2 ^ 21 * (v / 2 ^ 21) + 0x83 := by
    rw [hindex, entry_p2 i ebx (by omega)]
  rw [walk_boot i ebx (by omega), walk_large (by decide) (by decide) (by rw [hentry, Present]; omega)
    (by rw [hentry, Large]; omega) (by rw [hentry, reserved, shift]; omega), hentry, target, shift]
  exact congrArg some (by omega)

theorem cli_entry : 2 ^ 40 ≤ target (readLE (boot i ebx).mem (i.kernelReturn - 5) 8) 12 := by
  obtain ⟨hodd, hbelow, -⟩ := i.kernelReturn_bounds
  have hstack : i.p4Table ≤ i.stackTop - 8 := by
    dsimp only [Layout.stackTop, Layout.p2Table, Layout.p3Table]
    omega
  have hread : readLE (boot i ebx).mem (i.kernelReturn - 5) 8 =
      readLE i.mem (i.kernelReturn - 5) 8 :=
    readLE_boot i ebx (by omega) (untouched_below _ (by omega))
  have hcli : readLE i.mem (i.kernelReturn - 5) 8 / 256 ^ 5 % 256 = 0xFA := by
    rw [readLE_byte i.mem _ (by decide), Nat.sub_add_cancel (by omega), Layout.kernelReturn, i.cli]
    rfl
  rw [hread, target]
  omega

/-- In the last 2 MiB some address is not mapped to itself: the return address there is
either a large page at another place, or leads to a table of code, in which the entry
that holds `cli` is not the page of the address. -/
theorem walk_boot_last : ∃ v < 2 ^ 30, walk (boot i ebx).mem 4 i.p4Table v ≠ some v := by
  obtain ⟨hodd, -, hlow⟩ := i.kernelReturn_bounds
  have hcli := cli_entry i ebx
  set r := i.kernelReturn
  obtain ⟨v, hv⟩ : ∃ v, v = 511 * 2 ^ 21 + r % 2 ^ 12 / 8 * 2 ^ 12 := ⟨_, rfl⟩
  have hentry : entry (boot i ebx).mem i.p2Table (index 1 v) = r := by
    have hindex : index 1 v = 511 := by
      rw [index, shift]
      omega
    rw [hindex, entry_last]
  refine ⟨v, by omega, ?_⟩
  rw [walk_boot i ebx (by omega)]
  by_cases hlarge : Large r
  · apply walk_large_ne (by decide) (hentry ▸ hlarge)
    rw [hentry, target, shift]
    omega
  · have hpresent : Present r := by
      rw [Present]
      omega
    rw [walk_next (hentry ▸ hpresent) (hentry ▸ hlarge), hentry]
    apply walk_page_ne
    -- the entry of the supposed table that takes in the byte at `r`
    have hplace : target r 12 + 8 * index 0 v = r - 5 := by
      rw [target, index, shift]
      omega
    rw [entry, hplace]
    omega

end Entry

/-! ## The stack of the kernel -/

inductive StackOp
  | push (width value : Nat)
  | pop (width : Nat)

def StackOp.apply : StackOp → Machine → Machine
  | .push width value, s => s.push width value
  | .pop width, s => s.pop width

/-- What `kernel_main` and all it calls do to the stack: its return address stays, and no
more than the 32 KiB of the stack are in use. -/
def stackSystem (i : Image) : System Machine StackOp where
  init s := ∃ ebx, s = boot i ebx
  step s op t := t = op.apply s ∧ t.sp + 8 ≤ i.stackTop ∧ i.stackTop ≤ t.sp + 32768

/-- The tables as `setup_page_tables` means them. -/
structure TablesIntact (i : Image) (m : Mem) : Prop where
  identity : ∀ v < 2 ^ 30, walk m 4 i.p4Table v = some v
  filled : ∀ j < 512, entry m i.p2Table j = j * 0x200000 ||| 0x83

section Stack
variable {i : Image}

theorem boot_sp (i : Image) (ebx : Nat) : (boot i ebx).sp = i.stackTop - 8 := rfl

theorem entry_last_step {s t : Machine} {op : StackOp} (h : (stackSystem i).step s op t)
    (hs : s.sp + 8 ≤ i.stackTop ∧ entry s.mem i.p2Table 511 = i.kernelReturn) :
    t.sp + 8 ≤ i.stackTop ∧ entry t.mem i.p2Table 511 = i.kernelReturn := by
  obtain ⟨rfl, hkept, hdepth⟩ := h
  refine ⟨hkept, ?_⟩
  have hplace : i.p2Table + 8 * 511 + 8 = i.stackTop := by
    rw [Layout.stackTop]
  cases op with
  | push width value =>
    -- a push beyond address zero would leave the stack
    have hroom : i.stackTop ≤ s.sp - width + 32768 := hdepth
    have hbase := i.base_le
    have htop : i.p4Table ≤ i.stackTop := by
      dsimp only [Layout.stackTop, Layout.p2Table, Layout.p3Table]
      omega
    rw [entry, StackOp.apply, Machine.push, readLE_writeLE_apart (by omega)]
    exact hs.2
  | pop width => exact hs.2

theorem entry_last_reachable {s : Machine} (h : (stackSystem i).Reachable s) :
    entry s.mem i.p2Table 511 = i.kernelReturn := by
  have hinv : s.sp + 8 ≤ i.stackTop ∧ entry s.mem i.p2Table 511 = i.kernelReturn := by
    refine h.invariant ?_ (fun ha hstep => entry_last_step hstep ha)
    rintro s ⟨ebx, rfl⟩
    have htop : 8 ≤ i.stackTop := by
      rw [Layout.stackTop]
      omega
    rw [boot_sp, entry_last, Nat.sub_add_cancel htop]
    exact ⟨le_refl _, rfl⟩
  exact hinv.2

/-- Wherever the program is linked, the tables are not intact when `kernel_main` begins,
and no push or pop repairs them. -/
theorem tables_damaged (i : Image) :
    (∀ ebx, ¬∀ v < 2 ^ 30, walk (boot i ebx).mem 4 i.p4Table v = some v) ∧
      ∀ s, (stackSystem i).Reachable s → ¬TablesIntact i s.mem := by
  refine ⟨fun ebx hidentity => ?_, fun s hs hintact => ?_⟩
  · obtain ⟨v, hv, hne⟩ := walk_boot_last i ebx
    exact hne (hidentity v hv)
  · have hlast := hintact.filled 511 (by decide)
    rw [entry_last_reachable hs] at hlast
    obtain ⟨-, -, hlow⟩ := i.kernelReturn_bounds
    simp only [Nat.reduceMul, Nat.reduceOr] at hlast
    omega

end Stack

/-! ## The program as it is linked -/

/-- The part of boot.asm in .rodata: three descriptors, the pointer and the 64-bit code. -/
def rodata : List UInt8 :=
  [0x00, 0x00, 0x00, 0x00, 0x00, 0x00, 0x00, 0x00,
   0x00, 0x00, 0x00, 0x00, 0x00, 0x9A, 0x20, 0x00,
   0x00, 0x00, 0x00, 0x00, 0x00, 0x92, 0x20, 0x00,
   0x17, 0x00, 0x00, 0x90, 0x10, 0x00, 0x00, 0x00, 0x00, 0x00,
   0x66, 0xB8, 0x00, 0x00, 0x8E, 0xD0, 0x8E, 0xD8, 0x8E, 0xC0, 0x8E, 0xE0, 0x8E, 0xE8,
   0x48, 0xBC, 0x00, 0x20, 0x11, 0x00, 0x00, 0x00, 0x00, 0x00,
   0x8B, 0x3C, 0x25, 0x00, 0xA0, 0x11, 0x00, 0x8B, 0x34, 0x25, 0x04, 0xA0, 0x11, 0x00,
   0xE8, 0x73, 0x83, 0xFF, 0xFF, 0xFA, 0xF4, 0xEB, 0xFC]

def linked : Image where
  start := 0x101000
  gdt64 := 0x109000
  p4Table := 0x10F000
  gdt64_aligned := by decide
  p4Table_aligned := by decide
  base_le := by decide
  rodata_le := by decide
  bss_le := by decide
  mem x := if x < 0x109000 then 0 else rodata.getD (x - 0x109000) 0
  bss_zero x hlow _ := by
    have hlength : rodata.length = 0x51 := rfl
    rw [if_neg (by omega)]
    exact List.getD_eq_default _ _ (by omega)
  cli := by decide

theorem tables_damaged_linked : ¬TablesIntact linked (boot linked 0).mem :=
  (tables_damaged linked).2 _ (.init ⟨0, rfl⟩)

/-- There the last entry leads to the page of the descriptors, of which the first is null. -/
theorem walk_faults_linked : entry (boot linked 0).mem 0x111000 511 = 0x10904D ∧
    walk (boot linked 0).mem 4 0x10F000 0x3FE00000 = none ∧
    ¬∀ s, (stackSystem linked).Reachable s → TablesIntact linked s.mem := by
  have hlast : entry (boot linked 0).mem 0x111000 511 = 0x10904D := entry_last linked 0
  have hfault : walk (boot linked 0).mem 4 0x10F000 0x3FE00000 = none := by
    have hindex : index 1 0x3FE00000 = 511 := by decide
    have hnull : entry (boot linked 0).mem (target 0x10904D 12) (index 0 0x3FE00000) = 0 := by
      refine (readLE_boot linked 0 (by decide) (untouched_below _ (by decide))).trans ?_
      decide
    have hentry : entry (boot linked 0).mem linked.p2Table (index 1 0x3FE00000) = 0x10904D := by
      rw [hindex]
      exact hlast
    refine (walk_boot linked 0 (by decide)).trans ?_
    rw [walk_next (by rw [hentry]; decide) (by rw [hentry]; decide), hentry]
    exact walk_not_present (by rw [hnull]; decide)
  refine ⟨hlast, hfault, fun hintact => ?_⟩
  have hidentity := (hintact _ (.init ⟨0, rfl⟩)).identity 0x3FE00000 (by decide)
  exact absurd (hfault.symm.trans hidentity) (by decide)

end AlvOS.Boot
