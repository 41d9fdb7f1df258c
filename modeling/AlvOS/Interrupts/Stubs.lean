import Mathlib.Data.List.Nodup
import AlvOS.Lib.WordStack

/-! The entry stubs of interrupts.asm: what they push on top of the processor's frame, what the
handlers of isr.c see there as a `registers_t`, and what is left of it at `iretq`. -/

namespace AlvOS.Interrupts
open Function WordStack

/-! ## The processor -/

inductive Register
  | rax | rbx | rcx | rdx | rsi | rdi | rbp | r8 | r9 | r10 | r11 | r12 | r13 | r14 | r15
deriving DecidableEq

structure Cpu where
  mem : Mem
  reg : Register → UInt64
  rsp : UInt64

inductive Op
  | pushImm (v : UInt64)
  | push (r : Register)
  | pop (r : Register)
  /-- `mov r, rsp`. -/
  | movRsp (r : Register)
  | addRsp (v : UInt64)

def Cpu.push (s : Cpu) (v : UInt64) : Cpu :=
  { s with mem := update s.mem (s.rsp - 8) v, rsp := s.rsp - 8 }

def Cpu.exec (s : Cpu) : Op → Cpu
  | .pushImm v => s.push v
  | .push r => s.push (s.reg r)
  | .pop r => { s with reg := update s.reg r (s.mem s.rsp), rsp := s.rsp + 8 }
  | .movRsp r => { s with reg := update s.reg r s.rsp }
  | .addRsp v => { s with rsp := s.rsp + v }

/-- What is interrupted.  The second bit of the flags is always set. -/
structure Context extends Cpu where
  rip : UInt64
  cs : UInt64
  rflags : UInt64
  ss : UInt64
  rflags_set : rflags &&& 2 = 2

def Context.pushFrame (c : Context) : Cpu :=
  let s : Cpu := { c.toCpu with rsp := c.rsp &&& ~~~0xF }
  ((((s.push c.ss).push c.rsp).push c.rflags).push c.cs).push c.rip

def errorVectors : List Nat := [8, 10, 11, 12, 13, 14, 17, 21, 29, 30]

def Context.interrupt (c : Context) (vector : Nat) (errorCode : UInt64) : Cpu :=
  if vector ∈ errorVectors then c.pushFrame.push errorCode else c.pushFrame

/-! ## interrupts.asm -/

inductive Handler
  | isrHandler | irqHandler

/-- The instructions before the call of a handler and those behind it, up to `iretq`. -/
structure Stub where
  before : List Op
  handler : Handler
  after : List Op

def saved : List Register :=
  [.rax, .rbx, .rcx, .rdx, .rsi, .rdi, .rbp, .r8, .r9, .r10, .r11, .r12, .r13, .r14, .r15]

def restored : List Register :=
  [.r15, .r14, .r13, .r12, .r11, .r10, .r9, .r8, .rbp, .rdi, .rsi, .rdx, .rcx, .rbx, .rax]

def commonStub (handler : Handler) : Stub where
  before := saved.map .push ++ [.movRsp .rdi]
  handler := handler
  after := restored.map .pop ++ [.addRsp 16]

def isrCommonStub : Stub := commonStub .isrHandler

def irqCommonStub : Stub := commonStub .irqHandler

def Stub.enter (pushes : List UInt64) (s : Stub) : Stub :=
  { s with before := pushes.map .pushImm ++ s.before }

def isrNoErrcode (n : Nat) : Stub := isrCommonStub.enter [0, .ofNat n]

def isrErrcode (n : Nat) : Stub := isrCommonStub.enter [.ofNat n]

def irqStub (vector : Nat) : Stub := irqCommonStub.enter [0, .ofNat vector]

/-- The exceptions that are declared with `ISR_ERRCODE`. -/
def isrErrcodes : List Nat := [8, 10, 11, 12, 13, 14, 17, 30]

def isr (n : Nat) : Stub := if n ∈ isrErrcodes then isrErrcode n else isrNoErrcode n

def irq (n : Nat) : Stub := irqStub (32 + n)

/-- The table that `isr_install` fills, for the vectors 0 to 47. -/
def gate (vector : Nat) : Stub := if vector < 32 then isr vector else irq (vector - 32)

/-! ## isr.c -/

inductive Field
  | reg (r : Register) | intNo | errCode | rip | cs | rflags | rsp | ss
deriving DecidableEq

/-- `registers_t`, packed. -/
def registersT : List Field :=
  [.reg .r15, .reg .r14, .reg .r13, .reg .r12, .reg .r11, .reg .r10, .reg .r9, .reg .r8,
    .reg .rbp, .reg .rdi, .reg .rsi, .reg .rdx, .reg .rcx, .reg .rbx, .reg .rax,
    .intNo, .errCode, .rip, .cs, .rflags, .rsp, .ss]

def field (m : Mem) (regs : UInt64) (f : Field) : UInt64 := m (wordAt regs (registersT.idxOf f))

def Context.entered (c : Context) (vector : Nat) (errorCode returnAddress : UInt64) : Cpu :=
  ((gate vector).before.foldl Cpu.exec (c.interrupt vector errorCode)).push returnAddress

/-! ## What is expected -/

def Context.expected (c : Context) (vector : Nat) (errorCode : UInt64) : Field → UInt64
  | .reg r => c.reg r
  | .intNo => .ofNat vector
  | .errCode => if vector ∈ errorVectors then errorCode else 0
  | .rip => c.rip
  | .cs => c.cs
  | .rflags => c.rflags
  | .rsp => c.rsp
  | .ss => c.ss

/-- The `registers_t` that `rdi` points to. -/
def Presents (c : Context) (vector : Nat) (errorCode returnAddress : UInt64) : Prop :=
  let e := c.entered vector errorCode returnAddress
  ∀ f, field e.mem (e.reg .rdi) f = c.expected vector errorCode f

/-- A handler that was entered in `e` returns in `s`: it pops its return address and has not
written to what it was passed.  The other registers and the rest of memory are any. -/
def Cpu.Returns (e s : Cpu) : Prop :=
  s.rsp = e.rsp + 8 ∧ ∀ f, field s.mem (e.reg .rdi) f = field e.mem (e.reg .rdi) f

def Context.words (c : Context) : List UInt64 := [c.rip, c.cs, c.rflags, c.rsp, c.ss]

/-- At `iretq`, after whatever the handler did. -/
def Restores (c : Context) (vector : Nat) (errorCode returnAddress : UInt64) : Prop :=
  ∀ s, (c.entered vector errorCode returnAddress).Returns s →
    let t := (gate vector).after.foldl Cpu.exec s
    t.reg = c.reg ∧ t.rsp = c.pushFrame.rsp ∧ Top t.mem t.rsp c.words

section Stack
variable {s t : Cpu} {ws : List UInt64} {c : Context} {vector : Nat}

theorem Cpu.top_push (h : Top s.mem s.rsp ws) (hlength : ws.length < 2 ^ 61) (v : UInt64) :
    Top (s.push v).mem (s.push v).rsp (v :: ws) := WordStack.top_push h hlength v

theorem top_pushes (vs : List UInt64) (h : Top s.mem s.rsp ws)
    (hlength : vs.length + ws.length < 2 ^ 61) :
    let t := vs.foldl Cpu.push s
    Top t.mem t.rsp (vs.reverse ++ ws) ∧ wordAt t.rsp vs.length = s.rsp := by
  induction vs generalizing s ws with
  | nil => exact ⟨h, wordAt_zero _⟩
  | cons v vs ih =>
    rw [List.length_cons] at hlength
    obtain ⟨htop, hrsp⟩ := ih (Cpu.top_push h (by omega) v) (by rw [List.length_cons]; omega)
    refine ⟨?_, ?_⟩
    · rw [List.reverse_cons, List.append_assoc]
      exact htop
    · rw [List.length_cons, wordAt_succ']
      exact (congrArg (· + 8) hrsp).trans (UInt64.sub_add_cancel _ _)

theorem foldl_push_reg (s : Cpu) (vs : List UInt64) : (vs.foldl Cpu.push s).reg = s.reg := by
  induction vs generalizing s with
  | nil => rfl
  | cons v vs ih => exact ih (s.push v)

theorem foldl_pushImm (s : Cpu) (vs : List UInt64) :
    (vs.map .pushImm).foldl Cpu.exec s = vs.foldl Cpu.push s := List.foldl_map

theorem foldl_push (s : Cpu) (rs : List Register) :
    (rs.map .push).foldl Cpu.exec s = (rs.map s.reg).foldl Cpu.push s := by
  induction rs generalizing s with
  | nil => rfl
  | cons r rs ih => exact ih (s.push (s.reg r))

theorem top_restored (rs : List Register) {f : Register → UInt64}
    (h : Top s.mem s.rsp (rs.map f ++ ws)) :
    let t := (rs.map .pop).foldl Cpu.exec s
    (∀ r, r ∈ rs ∨ s.reg r = f r → t.reg r = f r) ∧ t.rsp = wordAt s.rsp rs.length ∧
      Top t.mem t.rsp ws := by
  induction rs generalizing s with
  | nil => exact ⟨fun r hr => hr.resolve_left List.not_mem_nil, (wordAt_zero _).symm, h⟩
  | cons r rs ih =>
    obtain ⟨hword, hrest⟩ := top_cons.mp h
    obtain ⟨hregs, hrsp, htop⟩ := @ih (s.exec (.pop r)) hrest
    refine ⟨fun x hx => hregs x ?_, ?_, htop⟩
    · by_cases hxr : x = r
      · subst hxr
        exact .inr ((update_self _ _ _).trans hword)
      · refine (hx.imp_left fun hmem => (List.mem_cons.mp hmem).resolve_left hxr).imp_right ?_
        exact fun heq => (update_of_ne hxr _ _).trans heq
    · rw [List.length_cons, wordAt_succ]
      exact hrsp

theorem top_registersT {m : Mem} {p : UInt64} {g : Field → UInt64} :
    Top m p (registersT.map g) ↔ ∀ f, field m p f = g f := by
  have hall : ∀ f, f ∈ registersT := by
    intro f
    cases f with
    | reg r =>
      cases r
      all_goals decide
    | _ => decide
  constructor
  · intro h f
    refine h _ _ ?_
    rw [List.getElem?_map, List.getElem?_idxOf (hall f)]
    rfl
  · intro h i w hi
    rw [List.getElem?_map] at hi
    obtain ⟨f, hf, rfl⟩ := Option.map_eq_some_iff.mp hi
    obtain ⟨hlt, hget⟩ := List.getElem?_eq_some_iff.mp hf
    rw [← h f, field, ← hget, List.Nodup.idxOf_getElem (by decide)]

theorem top_pushFrame (c : Context) : Top c.pushFrame.mem c.pushFrame.rsp c.words := by
  have hnil (s : Cpu) : Top s.mem s.rsp [] := fun i w hi => absurd hi nofun
  have hss := Cpu.top_push (hnil { c.toCpu with rsp := c.rsp &&& ~~~0xF }) (by decide) c.ss
  have hrsp := Cpu.top_push hss (by simp) c.rsp
  have hrflags := Cpu.top_push hrsp (by simp) c.rflags
  have hcs := Cpu.top_push hrflags (by simp) c.cs
  exact Cpu.top_push hcs (by simp) c.rip

end Stack

section Vectors
variable {c : Context} {vector : Nat} {errorCode returnAddress : UInt64}

def macroWords (vector : Nat) : List UInt64 :=
  if vector ∈ isrErrcodes then [.ofNat vector] else [0, .ofNat vector]

theorem gate_eq (vector : Nat) :
    ∃ handler, gate vector = (commonStub handler).enter (macroWords vector) := by
  unfold gate macroWords
  by_cases hlow : vector < 32
  · rw [if_pos hlow, isr]
    split_ifs
    · exact ⟨_, rfl⟩
    · exact ⟨_, rfl⟩
  · have hnot : vector ∉ isrErrcodes := by
      intro hmem
      have hle : ∀ n ∈ isrErrcodes, n < 32 := by decide
      exact hlow (hle vector hmem)
    rw [if_neg hlow, if_neg hnot, irq, Nat.add_sub_cancel' (Nat.le_of_not_lt hlow)]
    exact ⟨_, rfl⟩

def Context.below (c : Context) (vector : Nat) (errorCode : UInt64) : List UInt64 :=
  if vector ∈ errorVectors then errorCode :: c.words else c.words

theorem top_interrupt (c : Context) (vector : Nat) (errorCode : UInt64) :
    Top (c.interrupt vector errorCode).mem (c.interrupt vector errorCode).rsp
      (c.below vector errorCode) := by
  unfold Context.interrupt Context.below
  split_ifs
  · exact Cpu.top_push (top_pushFrame c) (by rw [Context.words]; simp) errorCode
  · exact top_pushFrame c

theorem interrupt_reg (c : Context) (vector : Nat) (errorCode : UInt64) :
    (c.interrupt vector errorCode).reg = c.reg := by
  unfold Context.interrupt
  split_ifs
  · rfl
  · rfl

theorem length_below_le (c : Context) (vector : Nat) (errorCode : UInt64) :
    (c.below vector errorCode).length ≤ 6 := by
  unfold Context.below Context.words
  split_ifs
  · exact Nat.le_refl 6
  · exact Nat.le_succ 5

theorem length_macroWords_le (vector : Nat) : (macroWords vector).length ≤ 2 := by
  unfold macroWords
  split_ifs
  · exact Nat.le_succ 1
  · exact Nat.le_refl 2

theorem foldl_before (c : Context) (errorCode : UInt64) :
    (gate vector).before.foldl Cpu.exec (c.interrupt vector errorCode) =
      ((macroWords vector ++ saved.map c.reg).foldl Cpu.push
        (c.interrupt vector errorCode)).exec (.movRsp .rdi) := by
  obtain ⟨handler, hgate⟩ := gate_eq _
  rw [hgate, Stub.enter, commonStub, List.foldl_append, List.foldl_append, foldl_pushImm,
    foldl_push, foldl_push_reg, interrupt_reg, List.foldl_append]
  rfl

theorem top_entered (c : Context) (errorCode returnAddress : UInt64) :
    let e := c.entered vector errorCode returnAddress
    Top e.mem (e.reg .rdi) (restored.map c.reg ++
        ((macroWords vector).reverse ++ c.below vector errorCode)) ∧
      e.rsp + 8 = e.reg .rdi ∧
      wordAt (e.reg .rdi) (15 + (macroWords vector).length) =
        (c.interrupt vector errorCode).rsp := by
  have hbelow := length_below_le c vector errorCode
  have hpushed := length_macroWords_le vector
  have hsaved : (saved.map c.reg).length = 15 := rfl
  have hreverse : (saved.map c.reg).reverse = restored.map c.reg := rfl
  obtain ⟨htop, hrsp⟩ := top_pushes (macroWords vector ++ saved.map c.reg)
    (top_interrupt c vector errorCode) (by rw [List.length_append]; omega)
  rw [List.reverse_append, hreverse, List.append_assoc] at htop
  rw [List.length_append, hsaved, Nat.add_comm] at hrsp
  have hlength : (restored.map c.reg ++
      ((macroWords vector).reverse ++ c.below vector errorCode)).length < 2 ^ 61 := by
    have hrestored : (restored.map c.reg).length = 15 := rfl
    rw [List.length_append, List.length_append, List.length_reverse]
    omega
  obtain ⟨-, hentered⟩ := top_cons.mp (Cpu.top_push htop hlength returnAddress)
  have hback (s : Cpu) : (s.push returnAddress).rsp + 8 = s.rsp := UInt64.sub_add_cancel _ _
  rw [hback] at hentered
  dsimp only [Context.entered]
  rw [foldl_before]
  exact ⟨hentered, hback _, hrsp⟩

/-! ## Where the macro and the processor agree -/

theorem mem_errorVectors_iff (h21 : vector ≠ 21) (h29 : vector ≠ 29) :
    vector ∈ errorVectors ↔ vector ∈ isrErrcodes := by
  simp only [errorVectors, isrErrcodes, List.mem_cons, List.not_mem_nil, or_false]
  omega

theorem words_eq (h21 : vector ≠ 21) (h29 : vector ≠ 29) (c : Context) (errorCode : UInt64) :
    restored.map c.reg ++ ((macroWords vector).reverse ++ c.below vector errorCode) =
      registersT.map (c.expected vector errorCode) := by
  have hregisters : registersT.map (c.expected vector errorCode) =
      restored.map c.reg ++ .ofNat vector :: (if vector ∈ errorVectors then errorCode else 0) ::
        c.words := rfl
  have hiff := mem_errorVectors_iff h21 h29
  rw [hregisters, macroWords, Context.below]
  by_cases hmem : vector ∈ errorVectors
  · rw [if_pos (hiff.mp hmem), if_pos hmem, if_pos hmem]
    rfl
  · rw [if_neg fun hin => hmem (hiff.mpr hin), if_neg hmem, if_neg hmem]
    rfl

theorem presents (h21 : vector ≠ 21) (h29 : vector ≠ 29) (c : Context)
    (errorCode returnAddress : UInt64) : Presents c vector errorCode returnAddress := by
  obtain ⟨htop, -, -⟩ := top_entered c errorCode returnAddress
  rw [words_eq h21 h29] at htop
  exact top_registersT.mp htop

theorem restores (hirq : 32 ≤ vector) (c : Context) (errorCode returnAddress : UInt64) :
    Restores c vector errorCode returnAddress := by
  have hcode : vector ∉ errorVectors := by
    intro hmem
    have hlt : ∀ n ∈ errorVectors, n < 32 := by decide
    exact absurd (hlt vector hmem) (Nat.not_lt.mpr hirq)
  have hpushed : macroWords vector = [0, .ofNat vector] :=
    if_neg fun hmem => hcode ((mem_errorVectors_iff (by omega) (by omega)).mpr hmem)
  have hbelow : c.below vector errorCode = c.words := if_neg hcode
  have hinterrupt : c.interrupt vector errorCode = c.pushFrame := if_neg hcode
  obtain ⟨htop, hcall, hframe⟩ := top_entered c errorCode returnAddress
  intro s hreturns
  obtain ⟨hrsp, hfields⟩ := hreturns
  rw [hpushed, hbelow] at htop
  rw [hpushed, hinterrupt] at hframe
  have hstack : Top s.mem s.rsp (restored.map c.reg ++ ([.ofNat vector, 0] ++ c.words)) := by
    have h21 : vector ≠ 21 := by omega
    have h29 : vector ≠ 29 := by omega
    have hwords := words_eq h21 h29 c errorCode
    rw [hpushed, hbelow] at hwords
    have hgiven := presents h21 h29 c errorCode returnAddress
    rw [hrsp, hcall]
    exact hwords ▸ top_registersT.mpr fun f => (hfields f).trans (hgiven f)
  obtain ⟨hregs, hpopped, hrest⟩ := top_restored restored hstack
  have hafter : (gate vector).after = restored.map .pop ++ [.addRsp 16] := by
    obtain ⟨handler, hgate⟩ := gate_eq _
    rw [hgate]
    rfl
  have hall : ∀ r, r ∈ restored := by
    intro r
    cases r
    all_goals decide
  have hsixteen (p : UInt64) : p + 16 = p + 8 + 8 := (UInt64.add_assoc p 8 8).symm
  have hframe : wordAt ((c.entered vector errorCode returnAddress).reg .rdi) 17 =
      c.pushFrame.rsp := hframe
  rw [wordAt_succ', wordAt_succ', ← hcall, ← hrsp] at hframe
  dsimp only
  rw [hafter, List.foldl_append]
  generalize (restored.map .pop).foldl Cpu.exec s = t at hregs hpopped hrest ⊢
  have hpopped : t.rsp = wordAt s.rsp 15 := hpopped
  dsimp only [List.foldl_cons, List.foldl_nil, Cpu.exec]
  rw [hsixteen]
  refine ⟨funext fun r => hregs r (.inl (hall r)), ?_, ?_⟩
  · rw [hpopped]
    exact hframe
  · exact (top_cons.mp (top_cons.mp hrest).2).2

/-! ## Where they do not -/

/-- Without room for the code the fields are one word off, and the flags would be zero. -/
theorem not_presents (h : vector = 21 ∨ vector = 29) (c : Context)
    (errorCode returnAddress : UInt64) : ¬Presents c vector errorCode returnAddress := by
  intro hgiven
  have hcode : vector ∈ errorVectors := by
    rcases h with rfl | rfl
    all_goals decide
  have hpushed : macroWords vector = [0, .ofNat vector] := by
    rcases h with rfl | rfl
    all_goals rfl
  obtain ⟨htop, -, -⟩ := top_entered c errorCode returnAddress
  have hbelow : c.below vector errorCode = errorCode :: c.words := if_pos hcode
  rw [hpushed, hbelow] at htop
  have herrCode : (0 : UInt64) = errorCode :=
    (htop 16 0 rfl).symm.trans ((hgiven .errCode).trans (if_pos hcode))
  have hrip : errorCode = c.rip := (htop 17 errorCode rfl).symm.trans (hgiven .rip)
  have hcs : c.rip = c.cs := (htop 18 c.rip rfl).symm.trans (hgiven .cs)
  have hrflags : c.cs = c.rflags := (htop 19 c.cs rfl).symm.trans (hgiven .rflags)
  have hset := c.rflags_set
  rw [← hrflags, ← hcs, ← hrip, ← herrCode] at hset
  exact absurd hset (by decide)

end Vectors

/-! ## All vectors -/

/-- The handler is given the interrupted context, and after an interrupt request all of it comes
back, exactly for the vectors whose macro agrees with the processor on the error code. -/
theorem stubs_are_exact_iff (vector : Nat) (c : Context) (errorCode returnAddress : UInt64) :
    Presents c vector errorCode returnAddress ∧
        (32 ≤ vector → Restores c vector errorCode returnAddress) ↔
      vector ≠ 21 ∧ vector ≠ 29 := by
  constructor
  · rintro ⟨hgiven, -⟩
    refine ⟨fun h21 => ?_, fun h29 => ?_⟩
    · exact not_presents (.inl h21) c errorCode returnAddress hgiven
    · exact not_presents (.inr h29) c errorCode returnAddress hgiven
  · rintro ⟨h21, h29⟩
    exact ⟨presents h21 h29 c errorCode returnAddress,
      fun hirq => restores hirq c errorCode returnAddress⟩

def someContext : Context where
  mem _ := 0
  reg _ := 1
  rsp := 0x80000
  rip := 0x100000
  cs := 8
  rflags := 0x202
  ss := 0x10
  rflags_set := by decide

/-- A control protection exception. -/
theorem stubs_are_exact_failure : ¬Presents someContext 21 3 0 ∧
    ¬∀ vector < 48, ∀ (c : Context) (errorCode returnAddress : UInt64),
      Presents c vector errorCode returnAddress ∧
        (32 ≤ vector → Restores c vector errorCode returnAddress) := by
  have hfails : ¬Presents someContext 21 3 0 := not_presents (.inl rfl) someContext 3 0
  exact ⟨hfails, fun hclaim => hfails (hclaim 21 (by decide) someContext 3 0).1⟩

end AlvOS.Interrupts
