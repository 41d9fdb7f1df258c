import AlvOS.Console
import AlvOS.Interrupts.Stubs
import AlvOS.Lib.Word

/-! What an exception leaves on the screen: the report of `isr_handler` on what the entry stubs
have pushed, against the context that was interrupted. -/

namespace AlvOS.Interrupts
open Function WordStack

/-! ## isr.c -/

def exceptionMessages : List String :=
  ["Division By Zero", "Debug", "Non Maskable Interrupt", "Breakpoint", "Into Detected Overflow",
    "Out of Bounds", "Invalid Opcode", "No Coprocessor", "Double Fault",
    "Coprocessor Segment Overrun", "Bad TSS", "Segment Not Present", "Stack Fault",
    "General Protection Fault", "Page Fault", "Unknown Interrupt", "Coprocessor Fault",
    "Alignment Check", "Machine Check", "Reserved", "Reserved", "Reserved", "Reserved", "Reserved",
    "Reserved", "Reserved", "Reserved", "Reserved", "Reserved", "Reserved", "Security Exception",
    "Reserved"]

def named (label : String) (value : UInt64) (after : String) : Console :=
  [.writestring label, .printHex value.toNat, .writestring after]

/-- The lines of `isr_handler`, with the fields of its `registers_t` and the top of the stack
it was called from. -/
def exceptionReport (message : String) (regs : Field → UInt64) (trace : List UInt64) : Console :=
  [.setcolor .white .red, .writestring "\n\n!!! EXCEPCION DEL CPU !!!\n",
    .writestring "===========================\n", .setcolor .lightRed .black,
    .writestring "Tipo: ", .writestring message, .writestring " (",
    .printDec (regs .intNo).toNat, .writestring ")\n"] ++
  named "Error code: 0x" (regs .errCode) "\n" ++
  [.writestring "\nRegistros:\n"] ++
  named "RAX: 0x" (regs (.reg .rax)) "  " ++ named "RBX: 0x" (regs (.reg .rbx)) "  " ++
  named "RCX: 0x" (regs (.reg .rcx)) "\n" ++ named "RDX: 0x" (regs (.reg .rdx)) "  " ++
  named "RSI: 0x" (regs (.reg .rsi)) "  " ++ named "RDI: 0x" (regs (.reg .rdi)) "\n" ++
  named "RBP: 0x" (regs (.reg .rbp)) "  " ++ named "RSP: 0x" (regs .rsp) "\n" ++
  [.writestring "\nInstruccion:\n"] ++
  named "RIP: 0x" (regs .rip) "\n" ++ named "CS: 0x" (regs .cs) "  " ++
  named "RFLAGS: 0x" (regs .rflags) "\n" ++ named "SS: 0x" (regs .ss) "\n" ++
  [.writestring "\nStack trace (primeros 4 frames):\n"] ++
  trace.zipIdx.flatMap (fun (word, i) =>
    [.writestring "  [", .printDec i] ++ named "] 0x" word "\n") ++
  [.writestring "\nSistema detenido por excepcion irrecuperable.\n"]

/-- `isr_handler` up to the loop in which it halts; nothing where the name of the exception
would be read from behind the table. -/
def isrHandler (m : Mem) (regs : UInt64) : Option Console :=
  exceptionMessages[(field m regs .intNo).toNat]?.map fun message =>
    exceptionReport message (field m regs) ((List.range 4).map fun i =>
      m (wordAt (field m regs .rsp) i))

section Below
variable {s : Cpu} {c : Context} {vector : Nat}

theorem foldl_push_wordAt (vs : List UInt64) {i : Nat} (h : i + vs.length < 2 ^ 60) :
    (vs.foldl Cpu.push s).mem (wordAt s.rsp i) = s.mem (wordAt s.rsp i) := by
  induction vs generalizing s i with
  | nil => rfl
  | cons v vs ih =>
    rw [List.length_cons] at h
    have hrsp : (s.push v).rsp + 8 = s.rsp := UInt64.sub_add_cancel _ _
    have hnext := ih (s := s.push v) (i := i + 1) (by omega)
    rw [wordAt_succ, hrsp] at hnext
    exact hnext.trans (update_of_ne (wordAt_ne (by omega) s.rsp) _ _)

def Context.pushed (c : Context) (vector : Nat) (errorCode returnAddress : UInt64) :
    List UInt64 :=
  [c.ss, c.rsp, c.rflags, c.cs, c.rip] ++ (if vector ∈ errorVectors then [errorCode] else []) ++
    (macroWords vector ++ saved.map c.reg) ++ [returnAddress]

theorem entered_mem (c : Context) (vector : Nat) (errorCode returnAddress : UInt64) :
    (c.entered vector errorCode returnAddress).mem =
      ((c.pushed vector errorCode returnAddress).foldl Cpu.push
        { c.toCpu with rsp := c.rsp &&& ~~~0xF }).mem := by
  have hinterrupt : c.interrupt vector errorCode = ([c.ss, c.rsp, c.rflags, c.cs, c.rip] ++
      if vector ∈ errorVectors then [errorCode] else []).foldl Cpu.push
        { c.toCpu with rsp := c.rsp &&& ~~~0xF } := by
    unfold Context.interrupt
    split_ifs
    · rfl
    · rfl
  rw [Context.entered, foldl_before, hinterrupt, Context.pushed,
    @List.foldl_append _ _ _ _ _ [_], @List.foldl_append _ _ _ _ _ (macroWords vector ++ _)]
  rfl

theorem length_pushed_le (c : Context) (vector : Nat) (errorCode returnAddress : UInt64) :
    (c.pushed vector errorCode returnAddress).length ≤ 24 := by
  have hmacro := length_macroWords_le vector
  have hcode : (if vector ∈ errorVectors then [errorCode] else []).length ≤ 1 := by
    split_ifs
    · exact Nat.le_refl 1
    · exact Nat.zero_le 1
  rw [Context.pushed]
  simp only [List.length_append, List.length_cons, List.length_nil, List.length_map, saved]
  omega

theorem aligned_or (p : UInt64) (h : 8 ∣ p.toNat) :
    p = p &&& ~~~0xF ∨ p = (p &&& ~~~0xF) + 8 := by
  have hones : (~~~0xF : UInt64).toNat = 2 ^ 64 - 2 ^ 4 := by decide
  have hmask : (p &&& ~~~0xF).toNat = p.toNat / 2 ^ 4 * 2 ^ 4 := by
    rw [UInt64.toNat_and, hones, Word.and_high_mask _ (by decide),
      Nat.mod_eq_of_lt p.toNat_lt]
  have height : (8 : UInt64).toNat = 8 := rfl
  have hlt := p.toNat_lt
  by_cases heven : 16 ∣ p.toNat
  · left
    rw [← UInt64.toNat_inj]
    omega
  · right
    rw [← UInt64.toNat_inj, UInt64.toNat_add]
    omega

/-- Whatever the alignment has skipped, the words of the interrupted code are still there. -/
theorem entered_mem_wordAt {c : Context} (hrsp : 8 ∣ c.rsp.toNat) (vector : Nat)
    (errorCode returnAddress : UInt64) {i : Nat} (hi : i < 4) :
    (c.entered vector errorCode returnAddress).mem (wordAt c.rsp i) = c.mem (wordAt c.rsp i) := by
  have hlength := length_pushed_le c vector errorCode returnAddress
  have habove (j : Nat) (hj : j < 5) :
      (c.entered vector errorCode returnAddress).mem (wordAt (c.rsp &&& ~~~0xF) j) =
        c.mem (wordAt (c.rsp &&& ~~~0xF) j) := by
    rw [entered_mem]
    exact foldl_push_wordAt _ (by omega)
  have hcases := aligned_or c.rsp hrsp
  rcases hcases with heq | heq
  · rw [heq]
    exact habove i (by omega)
  · rw [heq, ← wordAt_succ]
    exact habove (i + 1) (by omega)

end Below

theorem field_entered (vector : Nat) (c : Context) (errorCode returnAddress : UInt64) :
    let e := c.entered vector errorCode returnAddress
    field e.mem (e.reg .rdi) .intNo = .ofNat vector ∧
      ∀ r, field e.mem (e.reg .rdi) (.reg r) = c.reg r := by
  obtain ⟨htop, -, -⟩ := @top_entered vector c errorCode returnAddress
  constructor
  · refine htop 15 _ ?_
    unfold macroWords
    split_ifs
    · rfl
    · rfl
  · intro r
    cases r
    all_goals exact htop _ _ rfl

theorem isrHandler_eq {m : Mem} {regs : UInt64} {message : String}
    (h : exceptionMessages[(field m regs .intNo).toNat]? = some message) :
    isrHandler m regs = some (exceptionReport message (field m regs)
      ((List.range 4).map fun i => m (wordAt (field m regs .rsp) i))) := by
  rw [isrHandler, h]
  rfl

/-- Every exception halts under its own name and with the registers of the code that caused it.
Where the macro and the processor agree on the error code, so does the rest of the report: the
instruction, the flags and the four words on top of the interrupted stack. -/
theorem exceptions_are_reported {vector : Nat} (h : vector < 32) (c : Context)
    (hrsp : 8 ∣ c.rsp.toNat) (errorCode returnAddress : UInt64) :
    let e := c.entered vector errorCode returnAddress
    ∃ message regs trace, exceptionMessages[vector]? = some message ∧
      isrHandler e.mem (e.reg .rdi) = some (exceptionReport message regs trace) ∧
      regs .intNo = .ofNat vector ∧ (∀ r, regs (.reg r) = c.reg r) ∧
      (vector ≠ 21 → vector ≠ 29 → regs = c.expected vector errorCode ∧
        trace = (List.range 4).map fun i => c.mem (wordAt c.rsp i)) := by
  intro e
  obtain ⟨hnumber, hregs⟩ := field_entered vector c errorCode returnAddress
  have hindex : (field e.mem (e.reg .rdi) .intNo).toNat = vector := by
    rw [hnumber, UInt64.toNat_ofNat', Nat.mod_eq_of_lt (by omega)]
  have hmessage : exceptionMessages[vector]? = some exceptionMessages[vector] :=
    List.getElem?_eq_getElem h
  refine ⟨_, _, _, hmessage, isrHandler_eq (hindex.symm ▸ hmessage), hnumber, hregs, ?_⟩
  intro h21 h29
  have hgiven := presents h21 h29 c errorCode returnAddress
  have htop : field e.mem (e.reg .rdi) .rsp = c.rsp := hgiven .rsp
  refine ⟨funext hgiven, List.map_congr_left fun i hi => ?_⟩
  rw [htop]
  exact entered_mem_wordAt hrsp vector errorCode returnAddress (List.mem_range.mp hi)

theorem exceptions_are_reported_fault :
    let e := someContext.entered 14 2 0
    ∃ message regs trace, exceptionMessages[14]? = some message ∧
      isrHandler e.mem (e.reg .rdi) = some (exceptionReport message regs trace) ∧
      regs .intNo = .ofNat 14 ∧ (∀ r, regs (.reg r) = someContext.reg r) ∧
      (14 ≠ 21 → 14 ≠ 29 → regs = someContext.expected 14 2 ∧
        trace = (List.range 4).map fun i => someContext.mem (wordAt someContext.rsp i)) :=
  exceptions_are_reported (by decide) someContext (by decide) 2 0

end AlvOS.Interrupts
