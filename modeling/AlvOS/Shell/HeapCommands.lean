import AlvOS.MemoryTests.Memtest

/-! The commands of the shell that change the heap, in any order.  What `kmalloc` obtains is never
given back, and it asks for half of the heap. -/

namespace AlvOS.Shell
open BlockList Fuel Kmalloc Memory MemoryTests

def shellCmdKmalloc (b : Bench) : Comp (Bench × Nat) := do
  let (b, ptr) ← b.kmalloc 1048576
  pure (b.print [.setcolor .lightGreen .black, .writestring "Allocated memory at address: 0x",
    .printHex ptr, .putchar '\n'], ptr)

inductive HeapCommand
  | kmalloc
  | memtest (l : Locals)

def heapCommand (b : Bench) : HeapCommand → Comp (Bench × List Nat)
  | .kmalloc => do
    let (b, ptr) ← shellCmdKmalloc b
    pure (b, [ptr])
  | .memtest l => do
    let b ← shellCmdMemtest l b
    pure (b, [])

def heapCommands (b : Bench) : List HeapCommand → Comp (Bench × List Nat)
  | [] => pure (b, [])
  | cmd :: cmds => do
    let (b, ptrs) ← heapCommand b cmd
    let (b, rest) ← heapCommands b cmds
    pure (b, ptrs ++ rest)

/-- Between `b`, whose heap held `bs`, and `b'` the addresses `ptrs` were given out. -/
structure Spent (b : Bench) (bs : List Block) (b' : Bench) (ptrs : List Nat)
    (owned : List (Nat × Nat)) : Prop where
  pmm : b'.pmm = b.pmm
  borrowed : Borrowed b.heap bs b'.heap owned
  cost : 2 ^ 20 * ptrs.countP (· ≠ 0) ≤ (owned.map Prod.snd).sum
  first : Roomy b.heap (2 ^ 20 + 45) → ptrs.head? ≠ some 0

section Commands
variable {b b1 b2 : Bench} {bs cs : List Block} {ptrs rest : List Nat}
  {owned more : List (Nat × Nat)}

theorem kmalloc_spent (hh : Holds b.heap bs) :
    (heapCommand b .kmalloc).Yields fun a =>
      (∃ owned, Spent b bs a.1 a.2 owned) ∧ a.2 ≠ [] := by
  have hcall := Bench.onHeap_yields (·.kmalloc 1048576)
    (hh.borrowed.kmalloc (n := 1048576) (by decide) (by decide))
  have hrounded : roundedSize 1048576 heapAlignment = 2 ^ 20 := by decide
  refine Comp.Yields.bind (hcall.bind fun a ha => ?_) fun c hc => Comp.yields_pure.mpr hc
  obtain ⟨b1, r⟩ := a
  obtain ⟨⟨hanswer, -, hroomy⟩, hbeside⟩ := ha
  refine Comp.yields_pure.mpr ⟨?_, List.cons_ne_nil _ _⟩
  have hfirst (hr : Roomy b.heap (2 ^ 20 + 45)) : [r].head? ≠ some 0 := by
    have hne := (hroomy _ (by rw [hrounded]) hr).1
    simpa using hne
  cases hanswer with
  | refused hb => exact ⟨[], hbeside.pmm, hb.print _, Nat.zero_le _, hfirst⟩
  | @served _ _ k hr hk hb =>
    refine ⟨[(r, k)], hbeside.pmm, hb.print _, ?_, hfirst⟩
    rw [List.countP_cons_of_pos (by simpa using hr)]
    simpa using hk

theorem memtest_spent (hh : Holds b.heap bs) (hp : Sound b.pmm) (l : Locals) :
    (heapCommand b (.memtest l)).Yields fun a => ∃ owned, Spent b bs a.1 a.2 owned ∧
      (Roomy b.heap (2 ^ 20 + 45) → Roomy a.1.heap (2 ^ 20 + 45)) := by
  refine (shellCmdMemtest_ends l hh hp).bind fun b1 ⟨owned, j, k, _, hends, _⟩ =>
    Comp.yields_pure.mpr ⟨owned, ⟨hends.ends.pmm, hends.ends.borrowed, Nat.zero_le _,
      fun _ => by simp⟩, fun hr => ?_⟩
  obtain rfl := hends.leak (hends.room (hr.mono (by decide)))
  exact hends.ends.roomy hh hr

theorem Spent.trans (h : Spent b bs b1 ptrs owned) (hcs : Holds b1.heap cs)
    (h' : Spent b1 cs b2 rest more)
    (hroomy : ptrs = [] → Roomy b.heap (2 ^ 20 + 45) → Roomy b1.heap (2 ^ 20 + 45)) :
    Spent b bs b2 (ptrs ++ rest) (more ++ owned) where
  pmm := h'.pmm.trans h.pmm
  borrowed := h.borrowed.trans hcs h'.borrowed
  cost := by
    have := h.cost
    have := h'.cost
    rw [List.countP_append, List.map_append, List.sum_append]
    omega
  first hr := by
    cases ptrs with
    | nil => exact h'.first (hroomy rfl hr)
    | cons p ptrs => exact h.first hr

theorem heapCommands_spent (cmds : List HeapCommand) (hh : Holds b.heap bs) (hp : Sound b.pmm) :
    (heapCommands b cmds).Yields fun a => ∃ owned, Spent b bs a.1 a.2 owned := by
  induction cmds generalizing b bs with
  | nil => exact Comp.yields_pure.mpr ⟨[], rfl, hh.borrowed, le_refl 0, by simp⟩
  | cons cmd cmds ih =>
    have hstep : (heapCommand b cmd).Yields fun a => ∃ owned, Spent b bs a.1 a.2 owned ∧
        (a.2 = [] → Roomy b.heap (2 ^ 20 + 45) → Roomy a.1.heap (2 ^ 20 + 45)) := by
      cases cmd with
      | kmalloc =>
        exact (kmalloc_spent hh).imp fun a ⟨⟨owned, hspent⟩, hne⟩ =>
          ⟨owned, hspent, fun hnil => absurd hnil hne⟩
      | memtest l =>
        exact (memtest_spent hh hp l).imp fun a ⟨owned, hspent, hroomy⟩ =>
          ⟨owned, hspent, fun _ => hroomy⟩
    refine hstep.bind fun a ⟨owned, hspent, hroomy⟩ => ?_
    obtain ⟨cs, hcs, -⟩ := hspent.borrowed.blocks
    refine (ih hcs (hspent.pmm ▸ hp)).bind fun a' ⟨more, hspent'⟩ => Comp.yields_pure.mpr ?_
    exact ⟨_, hspent.trans hcs hspent' hroomy⟩

end Commands

/-- In whatever order they come, at most one `kmalloc` is given an address, on whatever heap; and
where there is room for it, it is the first one.  What was allocated before stays as it was, and
so do the frames. -/
theorem kmalloc_serves_once {b : Bench} {bs : List Block} (hh : Holds b.heap bs)
    (hp : Sound b.pmm) (cmds : List HeapCommand) :
    (heapCommands b cmds).Yields fun (b', ptrs) => ptrs.countP (· ≠ 0) ≤ 1 ∧
      (Roomy b.heap (2 ^ 20 + 45) → ptrs.head? ≠ some 0) ∧
      (∃ owned, Borrowed b.heap bs b'.heap owned) ∧ b'.pmm = b.pmm := by
  refine (heapCommands_spent cmds hh hp).imp fun (b', ptrs) ⟨owned, hspent⟩ => ?_
  have hcost := hspent.cost
  obtain ⟨cs, hcs, -⟩ := hspent.borrowed.blocks
  obtain ⟨hgrows, hlt⟩ := used_grows hspent.borrowed hcs
  have hsize := heapSize_eq
  dsimp only at hcost ⊢
  exact ⟨by omega, hspent.first, ⟨owned, hspent.borrowed⟩, hspent.pmm⟩

theorem kmalloc_serves_once_fresh :
    (heapCommands freshBench [.memtest freshLocals, .kmalloc, .memtest freshLocals, .kmalloc]).Yields
      fun (b', ptrs) => ptrs.countP (· ≠ 0) ≤ 1 ∧ ptrs.head? ≠ some 0 ∧ b'.pmm = clearFrames := by
  have hroomy : Roomy freshBench.heap (2 ^ 20 + 45) := ⟨_, freshBench_holds, _, .head _, by decide⟩
  exact (kmalloc_serves_once freshBench_holds freshBench_sound _).imp
    fun _ ⟨honce, hfirst, _, hpmm⟩ => ⟨honce, hfirst hroomy, hpmm⟩

end AlvOS.Shell
