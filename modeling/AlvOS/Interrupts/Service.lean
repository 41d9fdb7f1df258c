import Mathlib.Order.Fin.Basic
import AlvOS.Interrupts.Defs
import AlvOS.Keyboard.Defs
import AlvOS.Lib.InterruptController
import AlvOS.Lib.Transition

/-! The interrupt requests of the devices, from the lines of the two controllers to the end of
interrupt that irq_handler sends, in every interleaving with what the kernel does to the masks. -/

namespace AlvOS.Interrupts
open Function Transition InterruptController

/-! ## The data ports -/

/-- An 8259 as `pic_remap` has programmed it: fully nested, without automatic end of interrupt. -/
abbrev Lines := Controller (Fin 8)

def readMask (c : Lines) : BitVec 8 :=
  (BitVec.ofBoolListLE (List.ofFn c.masked)).cast List.length_ofFn

def writeMask (c : Lines) (v : BitVec 8) : Lines := { c with masked := fun l => v.getLsbD l }

/-! ## isr.c -/

def portOf (irq : Nat) : Chip × Nat := if irq < 8 then (.pic1, irq) else (.pic2, irq - 8)

inductive MaskCall
  | irqSetMask (irq : Nat)
  | irqClearMask (irq : Nat)

def MaskCall.irq : MaskCall → Nat
  | .irqSetMask irq | .irqClearMask irq => irq

def MaskCall.value (call : MaskCall) (byte : BitVec 8) : BitVec 8 :=
  match call with
  | .irqSetMask irq => byte ||| 1#8 <<< (portOf irq).2
  | .irqClearMask irq => byte &&& ~~~(1#8 <<< (portOf irq).2)

inductive Action
  | dispatch
  | eoi (chip : Chip)
  | iretq
deriving DecidableEq

def picSendEoi (irq : Nat) : List Action := (if 8 ≤ irq then [.eoi .pic2] else []) ++ [.eoi .pic1]

/-- `irq_handler`, and the end of its stub. -/
def irqHandlerActions (vector : Nat) : List Action :=
  .dispatch :: (picSendEoi (vector - 32) ++ [.iretq])

/-! ## The machine -/

/-- A handler that has not returned yet, with the flag its `iretq` restores. -/
structure Activation where
  vector : Nat
  rest : List Action
  interrupts : Bool

/-- The controllers, the processor and the drivers, from `timer_install` on.  A call that is
between its two port accesses is in `calling`, with the byte it has computed. -/
structure Board where
  pic : Chip → Lines
  interrupts : Bool
  /-- The processor has seen the request and will acknowledge it next. -/
  committed : Bool
  activations : List Activation
  calling : Option (MaskCall × BitVec 8)
  timerTicks : UInt64
  keyboard : Keyboard.Driver

/-- The handlers that `irq_handler` calls; `scancode` is what the keyboard's port gives. -/
def Board.dispatch (b : Board) (vector : Nat) (scancode : UInt8) : Board :=
  match vector with
  | 32 => { b with timerTicks := b.timerTicks + 1 }
  | 33 => { b with keyboard := Keyboard.keyboardHandler b.keyboard scancode }
  | _ => b

/-- The vector that comes with an acknowledgement.  A controller without a request left answers
with its last line. -/
def Board.acknowledge (b : Board) : (Chip → Lines) × Nat :=
  let (first, line) := (b.pic .pic1).acknowledge
  let pic := update b.pic .pic1 first
  if line = some 2 then
    let (second, line) := (b.pic .pic2).acknowledge
    (update pic .pic2 second, 0x28 + (line.getD 7).val)
  else (pic, 0x20 + (line.getD 7).val)

def Board.take (b : Board) : Board :=
  let (pic, vector) := b.acknowledge
  { b with
    pic := pic
    interrupts := false
    committed := false
    activations := ⟨vector, irqHandlerActions vector, b.interrupts⟩ :: b.activations }

/-- An action of the handler that was entered last; `a` has the actions behind it left. -/
def Board.perform (b : Board) (a : Activation) (others : List Activation) (action : Action)
    (scancode : UInt8) : Board :=
  match action with
  | .dispatch => { b with activations := a :: others }.dispatch a.vector scancode
  | .eoi chip =>
    { b with
      activations := a :: others
      pic := update b.pic chip (b.pic chip).endOfInterrupt }
  | .iretq => { b with activations := others, interrupts := a.interrupts }

def Board.start (b : Board) (call : MaskCall) : Board :=
  { b with calling := some (call, call.value (readMask (b.pic (portOf call.irq).1))) }

def Board.finish (b : Board) (call : MaskCall) (byte : BitVec 8) : Board :=
  { b with
    calling := none
    pic := update b.pic (portOf call.irq).1 (writeMask (b.pic (portOf call.irq).1) byte) }

inductive Event
  | raise (chip : Chip) (line : Fin 8)
  | withdraw (chip : Chip) (line : Fin 8)
  | cascade
  | commit
  | take (vector : Nat)
  | act (vector : Nat) (action : Action) (scancode : UInt8)
  | setFlag (interrupts : Bool)
  | start (call : MaskCall)
  | finish (call : MaskCall)

/-- The kernel runs on where no handler is running and no request is to be acknowledged. -/
def Board.Free (b : Board) : Prop := b.activations = [] ∧ b.committed = false

/-- The devices have all lines but the third of the first controller, which is the second's. -/
inductive Board.Step : Board → Event → Board → Prop
  | raise (b : Board) (chip : Chip) (line : Fin 8) : (chip = .pic1 → line ≠ 2) →
    Step b (.raise chip line) { b with pic := update b.pic chip ((b.pic chip).raise line) }
  | withdraw (b : Board) (chip : Chip) (line : Fin 8) :
    Step b (.withdraw chip line) { b with pic := update b.pic chip ((b.pic chip).withdraw line) }
  | cascade (b : Board) : (b.pic .pic2).pending.Nonempty →
    Step b .cascade { b with pic := update b.pic .pic1 ((b.pic .pic1).raise 2) }
  | commit (b : Board) : b.interrupts = true → (b.pic .pic1).pending.Nonempty →
    Step b .commit { b with committed := true }
  | take (b : Board) : b.committed = true → Step b (.take b.acknowledge.2) b.take
  | act (b : Board) (a : Activation) (others : List Activation) (action : Action)
      (scancode : UInt8) : b.committed = false →
    b.activations = { a with rest := action :: a.rest } :: others →
    Step b (.act a.vector action scancode) (b.perform a others action scancode)
  | setFlag (b : Board) (flag : Bool) : b.Free → Step b (.setFlag flag) { b with interrupts := flag }
  -- a shift of 1 by 32 or more is not defined
  | start (b : Board) (call : MaskCall) : b.Free → b.calling = none → call.irq < 40 →
    Step b (.start call) (b.start call)
  | finish (b : Board) (call : MaskCall) (byte : BitVec 8) : b.Free →
    b.calling = some (call, byte) → Step b (.finish call) (b.finish call byte)

/-- After `timer_install`, with whatever masks and requests there are. -/
def serviceSystem : System Board Event where
  init b := b.activations = [] ∧ b.committed = false ∧ b.calling = none ∧
    ∀ chip, (b.pic chip).inService = ∅
  step := Board.Step

/-! ## The invariant -/

def Serves (vector : Nat) : Chip → Fin 8 → Prop
  | .pic1, line => if vector < 0x28 then vector = 0x20 + line.val else line = 2
  | .pic2, line => vector = 0x28 + line.val

structure Board.Serving (b : Board) (a : Activation) : Prop where
  off : b.interrupts = false
  uncommitted : b.committed = false
  enabled : a.interrupts = true
  bounds : 0x20 ≤ a.vector ∧ a.vector < 0x30
  suffix : a.rest <:+ irqHandlerActions a.vector
  returns : .iretq ∈ a.rest
  lines : ∀ chip, ∃ line : Option (Fin 8), (∀ l, line = some l → Serves a.vector chip l) ∧
    (b.pic chip).inService = if .eoi chip ∈ a.rest then line.toFinset else ∅

/-- With interrupts off from the gate to `iretq` there is at most one handler, and outside of it
nothing is in service. -/
inductive Board.Holds (b : Board) : Prop
  | idle : b.activations = [] → (∀ chip, (b.pic chip).inService = ∅) →
    (b.committed = true → b.interrupts = true) → Board.Holds b
  | serving (a : Activation) : b.activations = [a] → b.Serving a → Board.Holds b

section Holds
variable {b t : Board} {a : Activation} {vector : Nat} {rest : List Action}

theorem nodup_irqHandlerActions (vector : Nat) : (irqHandlerActions vector).Nodup := by
  unfold irqHandlerActions picSendEoi
  split_ifs
  · decide
  · decide

theorem eoi_pic2_mem : .eoi .pic2 ∈ irqHandlerActions vector ↔ 0x28 ≤ vector := by
  unfold irqHandlerActions picSendEoi
  split_ifs with h
  · exact iff_of_true (by decide) (by omega)
  · exact iff_of_false (by decide) (by omega)

theorem eoi_pic1_mem (vector : Nat) : .eoi .pic1 ∈ irqHandlerActions vector := by
  unfold irqHandlerActions picSendEoi
  split_ifs
  · decide
  · decide

theorem iretq_mem (vector : Nat) : .iretq ∈ irqHandlerActions vector :=
  List.mem_cons_of_mem _ (List.mem_append_right _ (List.mem_singleton_self _))

theorem acknowledge_cases (b : Board) :
    ((b.pic .pic1).acknowledge.2 = some 2 ∧ b.acknowledge =
        (update (update b.pic .pic1 (b.pic .pic1).acknowledge.1) .pic2
          (b.pic .pic2).acknowledge.1, 0x28 + ((b.pic .pic2).acknowledge.2.getD 7).val)) ∨
      ((b.pic .pic1).acknowledge.2 ≠ some 2 ∧ b.acknowledge =
        (update b.pic .pic1 (b.pic .pic1).acknowledge.1,
          0x20 + ((b.pic .pic1).acknowledge.2.getD 7).val)) := by
  by_cases hline : (b.pic .pic1).acknowledge.2 = some 2
  · exact .inl ⟨hline, if_pos hline⟩
  · exact .inr ⟨hline, if_neg hline⟩

theorem acknowledge_spec (h : ∀ chip, (b.pic chip).inService = ∅) :
    (0x20 ≤ b.acknowledge.2 ∧ b.acknowledge.2 < 0x30) ∧
      ∀ chip, ∃ line : Option (Fin 8), (∀ l, line = some l → Serves b.acknowledge.2 chip l) ∧
        (b.acknowledge.1 chip).inService =
          if .eoi chip ∈ irqHandlerActions b.acknowledge.2 then line.toFinset else ∅ := by
  have hservice (chip : Chip) := Controller.acknowledge_inService (h chip)
  rcases acknowledge_cases b with ⟨hline, hack⟩ | ⟨hline, hack⟩
  · have hlt := ((b.pic .pic2).acknowledge.2.getD 7).isLt
    rw [hack]
    refine ⟨by dsimp only; omega, fun chip => ?_⟩
    cases chip with
    | pic1 =>
      refine ⟨some 2, fun l hl => ?_, ?_⟩
      · rw [Serves, if_neg (by omega)]
        exact (Option.some.inj hl).symm
      · rw [if_pos (eoi_pic1_mem _), ← hline]
        exact hservice .pic1
    | pic2 =>
      refine ⟨(b.pic .pic2).acknowledge.2, fun l hl => ?_, ?_⟩
      · rw [hl]
        rfl
      · rw [if_pos (eoi_pic2_mem.mpr (Nat.le_add_right _ _))]
        exact hservice .pic2
  · have hlt := ((b.pic .pic1).acknowledge.2.getD 7).isLt
    rw [hack]
    refine ⟨by dsimp only; omega, fun chip => ?_⟩
    cases chip with
    | pic1 =>
      refine ⟨(b.pic .pic1).acknowledge.2, fun l hl => ?_, ?_⟩
      · rw [hl]
        exact (if_pos (by rw [Option.getD_some]; omega)).mpr rfl
      · rw [if_pos (eoi_pic1_mem _)]
        exact hservice .pic1
    | pic2 =>
      refine ⟨none, nofun, ?_⟩
      rw [if_neg (mt eoi_pic2_mem.mp (by dsimp only; omega))]
      exact h .pic2

theorem Board.Holds.congr (h : b.Holds) (hactivations : t.activations = b.activations)
    (hservice : ∀ chip, (t.pic chip).inService = (b.pic chip).inService)
    (hinterrupts : t.interrupts = b.interrupts) (hcommitted : t.committed = b.committed) :
    t.Holds := by
  cases h with
  | idle hnone hempty hcommit =>
    refine .idle (hactivations.trans hnone) (fun chip => (hservice chip).trans (hempty chip)) ?_
    rw [hinterrupts, hcommitted]
    exact hcommit
  | serving a hone ha =>
    refine .serving a (hactivations.trans hone) ⟨hinterrupts.trans ha.off,
      hcommitted.trans ha.uncommitted, ha.enabled, ha.bounds, ha.suffix, ha.returns,
      fun chip => ?_⟩
    rw [hservice]
    exact ha.lines chip

theorem inService_update (b : Board) (chip : Chip) {c : Lines}
    (h : c.inService = (b.pic chip).inService) (other : Chip) :
    (update b.pic chip c other).inService = (b.pic other).inService := by
  by_cases heq : other = chip
  · subst heq
    rw [update_self, h]
  · rw [update_of_ne heq]

theorem Board.Holds.take (h : b.Holds) (hcommitted : b.committed = true) : b.take.Holds := by
  cases h with
  | idle hnone hempty hcommit =>
    obtain ⟨hbounds, hlines⟩ := acknowledge_spec hempty
    exact .serving ⟨_, _, _⟩ (congrArg _ hnone) ⟨rfl, rfl, hcommit hcommitted, hbounds,
      List.suffix_refl _, iretq_mem _, hlines⟩
  | serving a hone ha => exact absurd (ha.uncommitted.symm.trans hcommitted) Bool.false_ne_true

theorem dispatch_eq (b : Board) (vector : Nat) (scancode : UInt8) :
    ∃ ticks keyboard, b.dispatch vector scancode =
      { b with timerTicks := ticks, keyboard := keyboard } := by
  unfold Board.dispatch
  split
  · exact ⟨_, _, rfl⟩
  · exact ⟨_, _, rfl⟩
  · exact ⟨_, _, rfl⟩

theorem rest_of_iretq (h : .iretq :: rest <:+ irqHandlerActions vector) : rest = [] := by
  have hlast : (.iretq :: rest).getLast? = some Action.iretq := by
    obtain ⟨before, heq⟩ := h
    have hwhole : (irqHandlerActions vector).getLast? = some .iretq := by
      unfold irqHandlerActions
      rw [← List.cons_append, List.getLast?_concat]
    rwa [← heq, List.getLast?_append_of_ne_nil _ (List.cons_ne_nil _ _)] at hwhole
  have hnodup := (nodup_irqHandlerActions vector).sublist h.sublist
  by_contra hne
  rw [List.getLast?_cons, List.getLast?_eq_some_getLast hne] at hlast
  have hmem := List.getLast_mem hne
  rw [Option.getD_some, Option.some.injEq] at hlast
  exact (List.nodup_cons.mp hnodup).1 (hlast ▸ hmem)

theorem Board.Holds.suffix {others : List Activation} {action : Action} (h : b.Holds)
    (hact : b.activations = { a with rest := action :: a.rest } :: others) :
    action :: a.rest <:+ irqHandlerActions a.vector := by
  cases h with
  | idle hnone => exact absurd (hnone.symm.trans hact) nofun
  | serving a' hone ha =>
    obtain ⟨rfl, rfl⟩ := List.cons.inj (hone.symm.trans hact)
    exact ha.suffix

theorem Board.Holds.act {others : List Activation} {action : Action} (h : b.Holds)
    (hact : b.activations = { a with rest := action :: a.rest } :: others) (scancode : UInt8) :
    (b.perform a others action scancode).Holds := by
  cases h with
  | idle hnone => exact absurd (hnone.symm.trans hact) nofun
  | serving a' hone ha =>
    obtain ⟨rfl, rfl⟩ := List.cons.inj (hone.symm.trans hact)
    have hrest : a.rest <:+ irqHandlerActions a.vector := (List.suffix_cons _ _).trans ha.suffix
    have hnot : action ∉ a.rest :=
      (List.nodup_cons.mp ((nodup_irqHandlerActions _).sublist ha.suffix.sublist)).1
    have hbehind (chip : Chip) (hother : .eoi chip ≠ action) :
        .eoi chip ∈ action :: a.rest ↔ .eoi chip ∈ a.rest :=
      List.mem_cons.trans (or_iff_right hother)
    cases action with
    | dispatch =>
      obtain ⟨ticks, keyboard, heq⟩ :=
        dispatch_eq { b with activations := [a] } a.vector scancode
      rw [Board.perform, heq]
      refine .serving a rfl ⟨ha.off, ha.uncommitted, ha.enabled, ha.bounds, hrest,
        (List.mem_cons.mp ha.returns).resolve_left nofun, fun chip => ?_⟩
      obtain ⟨line, hserves, hservice⟩ := ha.lines chip
      refine ⟨line, hserves, hservice.trans ?_⟩
      simp only [hbehind chip nofun]
    | eoi chip =>
      refine .serving a rfl ⟨ha.off, ha.uncommitted, ha.enabled, ha.bounds, hrest,
        (List.mem_cons.mp ha.returns).resolve_left nofun, fun other => ?_⟩
      obtain ⟨line, hserves, hservice⟩ := ha.lines other
      refine ⟨line, hserves, ?_⟩
      change (update b.pic chip (b.pic chip).endOfInterrupt other).inService = _
      by_cases heq : other = chip
      · subst heq
        rw [if_pos List.mem_cons_self] at hservice
        rw [if_neg hnot, update_self]
        exact Controller.endOfInterrupt_toFinset hservice
      · rw [update_of_ne heq, hservice]
        simp only [hbehind other fun h => heq (Action.eoi.inj h)]
    | iretq =>
      have hnil : a.rest = [] := rest_of_iretq ha.suffix
      refine .idle rfl (fun chip => ?_) fun _ => ha.enabled
      obtain ⟨line, -, hservice⟩ := ha.lines chip
      have hsent : .eoi chip ∉ [Action.iretq] := by
        rw [List.mem_singleton]
        exact nofun
      rw [Board.perform, hservice, hnil]
      exact if_neg hsent

theorem Board.Holds.step {e : Event} (h : b.Holds) (hstep : b.Step e t) : t.Holds := by
  cases hstep with
  | raise chip line => exact h.congr rfl (inService_update b chip rfl) rfl rfl
  | withdraw chip line => exact h.congr rfl (inService_update b chip rfl) rfl rfl
  | cascade => exact h.congr rfl (inService_update b .pic1 rfl) rfl rfl
  | commit hon =>
    cases h with
    | idle hnone hempty => exact .idle hnone hempty fun _ => hon
    | serving a hone ha => exact absurd (ha.off.symm.trans hon) Bool.false_ne_true
  | take hcommitted => exact h.take hcommitted
  | act a others action scancode _ hact => exact h.act hact scancode
  | setFlag flag hfree =>
    cases h with
    | idle hnone hempty =>
      exact .idle hnone hempty fun hcommitted =>
        absurd (hfree.2.symm.trans hcommitted) Bool.false_ne_true
    | serving a hone => exact absurd (hfree.1.symm.trans hone) nofun
  | start call => exact h.congr rfl (fun _ => rfl) rfl rfl
  | finish call byte => exact h.congr rfl (inService_update b _ rfl) rfl rfl

theorem reachable_boardHolds (h : serviceSystem.Reachable b) : b.Holds := by
  refine h.invariant ?_ fun ha hstep => ha.step hstep
  rintro s ⟨hnone, hcommitted, -, hempty⟩
  exact .idle hnone hempty fun hon => absurd (hcommitted.symm.trans hon) Bool.false_ne_true

end Holds

/-! ## All interleavings -/

/-- Handlers never nest, what is in service belongs to the one that runs and still has its end of
interrupt before it, and while none runs no request that is not masked is held back. -/
theorem interrupts_never_nest {b : Board} (h : serviceSystem.Reachable b) :
    b.activations.length ≤ 1 ∧
      (∀ chip, ∀ line ∈ (b.pic chip).inService,
        ∃ a ∈ b.activations, .eoi chip ∈ a.rest ∧ Serves a.vector chip line) ∧
      (b.activations = [] → ∀ chip line, line ∈ (b.pic chip).pending ↔
        line ∈ (b.pic chip).requested ∧ (b.pic chip).masked line = false) := by
  cases reachable_boardHolds h with
  | idle hnone hempty =>
    refine ⟨hnone ▸ Nat.zero_le 1, fun chip line hline => ?_, fun _ chip line => ?_⟩
    · rw [hempty] at hline
      exact absurd hline (Finset.notMem_empty line)
    · exact Controller.mem_pending_of_idle (hempty chip)
  | serving a hone ha =>
    refine ⟨hone ▸ Nat.le_refl 1, fun chip line hline => ?_, fun hnone => ?_⟩
    · obtain ⟨served, hserves, hservice⟩ := ha.lines chip
      refine ⟨a, hone ▸ List.mem_singleton_self a, ?_⟩
      rw [hservice] at hline
      split_ifs at hline with hmem
      · exact ⟨hmem, hserves line (Option.mem_toFinset.mp hline)⟩
      · exact absurd hline (Finset.notMem_empty line)
    · exact absurd (hnone.symm.trans hone) nofun

/-- Every controller has a request for its first line. -/
def someBoard : Board where
  pic _ := { requested := {0}, inService := ∅, masked := fun _ => false }
  interrupts := true
  committed := false
  activations := []
  calling := none
  timerTicks := 0
  keyboard := ⟨false, false, false, false, fun _ => 0, 0, 0⟩

theorem someBoard_init : serviceSystem.init someBoard := ⟨rfl, rfl, rfl, fun _ => rfl⟩

theorem interrupts_never_nest_timer :
    let t := { someBoard with committed := true }.take
    ∃ a ∈ t.activations, .eoi .pic1 ∈ a.rest ∧ Serves a.vector .pic1 0 := by
  have hcommit := Board.Step.commit someBoard rfl ⟨0, by decide⟩
  have htake := Board.Step.take { someBoard with committed := true } rfl
  have hreachable := ((System.Reachable.init someBoard_init).step hcommit).step htake
  exact (interrupts_never_nest hreachable).2.1 .pic1 0 (by decide)

/-! ## The work of the handlers -/

/-- The vectors that have been delivered. -/
def taken : List Event → List Nat :=
  List.filterMap fun
    | .take vector => some vector
    | _ => none

/-- The vectors that `irq_handler` has dispatched on, with what the keyboard's port gave. -/
def dispatched : List Event → List (Nat × UInt8) :=
  List.filterMap fun
    | .act vector .dispatch scancode => some (vector, scancode)
    | _ => none

def scancodes (ls : List Event) : List UInt8 :=
  (dispatched ls).filterMap fun (vector, scancode) => if vector = 33 then some scancode else none

def Activation.owed (a : Activation) : List Nat := if .dispatch ∈ a.rest then [a.vector] else []

def Board.owed (b : Board) : List Nat := b.activations.flatMap Activation.owed

section Work
variable {b t : Board} {e : Event} {ls : List Event}

theorem dispatch_activations (b : Board) (vector : Nat) (scancode : UInt8) :
    (b.dispatch vector scancode).activations = b.activations := by
  obtain ⟨ticks, keyboard, heq⟩ := dispatch_eq b vector scancode
  rw [heq]

theorem owed_act {a : Activation} {others : List Activation} {action : Action} (h : b.Holds)
    (hact : b.activations = { a with rest := action :: a.rest } :: others) (scancode : UInt8) :
    b.owed = (dispatched [.act a.vector action scancode]).map Prod.fst ++
      (b.perform a others action scancode).owed := by
  have hsuffix := h.suffix hact
  have hnot : action ∉ a.rest :=
    (List.nodup_cons.mp ((nodup_irqHandlerActions _).sublist hsuffix.sublist)).1
  rw [Board.owed, Board.owed, hact, List.flatMap_cons]
  cases action with
  | dispatch =>
    rw [Board.perform, dispatch_activations, List.flatMap_cons, Activation.owed, Activation.owed,
      if_pos List.mem_cons_self, if_neg hnot]
    rfl
  | eoi chip =>
    have hbehind : .dispatch ∈ .eoi chip :: a.rest ↔ .dispatch ∈ a.rest :=
      List.mem_cons.trans (or_iff_right nofun)
    rw [Board.perform, List.flatMap_cons, Activation.owed, Activation.owed]
    simp only [hbehind]
    rfl
  | iretq =>
    have hnone : .dispatch ∉ Action.iretq :: a.rest := by
      rw [rest_of_iretq hsuffix, List.mem_singleton]
      exact nofun
    rw [Activation.owed, if_neg hnone]
    rfl

theorem owed_step (h : b.Holds) (hstep : b.Step e t) :
    b.owed ++ taken [e] = (dispatched [e]).map Prod.fst ++ t.owed := by
  cases hstep with
  | take hcommitted =>
    cases h with
    | idle hnone =>
      have hnew : .dispatch ∈ irqHandlerActions b.acknowledge.2 := List.mem_cons_self
      have howed : b.take.owed = b.acknowledge.2 :: b.owed := by
        rw [Board.owed, Board.take, List.flatMap_cons, Activation.owed, if_pos hnew]
        rfl
      rw [howed, Board.owed, hnone]
      rfl
    | serving a hone ha => exact absurd (ha.uncommitted.symm.trans hcommitted) Bool.false_ne_true
  | act a others action scancode _ hact =>
    rw [← owed_act h hact scancode]
    exact List.append_nil _
  | _ => exact List.append_nil _

theorem drivers_step (hstep : b.Step e t) :
    t.timerTicks = b.timerTicks + .ofNat (((dispatched [e]).map Prod.fst).count 32) ∧
      t.keyboard = (scancodes [e]).foldl Keyboard.keyboardHandler b.keyboard := by
  have hzero (ticks : UInt64) : ticks = ticks + .ofNat 0 := (UInt64.add_zero ticks).symm
  cases hstep with
  | act a others action scancode _ hact =>
    cases action with
    | dispatch =>
      rw [Board.perform]
      unfold Board.dispatch
      split
      case h_1 heq =>
        rw [heq]
        exact ⟨rfl, rfl⟩
      case h_2 heq =>
        rw [heq]
        exact ⟨hzero _, rfl⟩
      case h_3 htimer hkeyboard =>
        have hcount : [a.vector].count 32 = 0 := List.count_eq_zero_of_not_mem fun hmem =>
          htimer (List.mem_singleton.mp hmem).symm
        have hscancodes : scancodes [.act a.vector .dispatch scancode] = [] :=
          List.filterMap_cons_none (if_neg hkeyboard)
        rw [hscancodes]
        exact ⟨(hzero _).trans (congrArg (_ + UInt64.ofNat ·) hcount.symm), rfl⟩
    | eoi chip => exact ⟨hzero _, rfl⟩
    | iretq => exact ⟨hzero _, rfl⟩
  | _ => exact ⟨hzero _, rfl⟩

theorem owed_run (hb : b.Holds) (h : serviceSystem.Run b ls t) :
    b.owed ++ taken ls = (dispatched ls).map Prod.fst ++ t.owed := by
  induction h with
  | nil => exact List.append_nil _
  | @cons s u t e ls hstep _ ih =>
    have htaken : taken (e :: ls) = taken [e] ++ taken ls := List.filterMap_append (l := [e])
    have hdispatched : dispatched (e :: ls) = dispatched [e] ++ dispatched ls :=
      List.filterMap_append (l := [e])
    rw [htaken, ← List.append_assoc, owed_step hb hstep, List.append_assoc, ih (hb.step hstep),
      hdispatched, List.map_append, List.append_assoc]

theorem drivers_run (h : serviceSystem.Run b ls t) :
    t.timerTicks = b.timerTicks + .ofNat (((dispatched ls).map Prod.fst).count 32) ∧
      t.keyboard = (scancodes ls).foldl Keyboard.keyboardHandler b.keyboard := by
  induction h with
  | nil b => exact ⟨(UInt64.add_zero b.timerTicks).symm, rfl⟩
  | @cons s u t e ls hstep _ ih =>
    have hdispatched : dispatched (e :: ls) = dispatched [e] ++ dispatched ls :=
      List.filterMap_append (l := [e])
    have hscancodes : scancodes (e :: ls) = scancodes [e] ++ scancodes ls := by
      rw [scancodes, hdispatched, List.filterMap_append]
      rfl
    obtain ⟨hticks, hkeyboard⟩ := drivers_step hstep
    rw [hdispatched, List.map_append, List.count_append, UInt64.ofNat_add, ← UInt64.add_assoc,
      hscancodes, List.foldl_append, ← hticks, ← hkeyboard]
    exact ih

theorem length_scancodes (ls : List Event) :
    (scancodes ls).length = ((dispatched ls).map Prod.fst).count 33 := by
  unfold scancodes
  induction dispatched ls with
  | nil => rfl
  | cons d ds ih =>
    obtain ⟨vector, scancode⟩ := d
    by_cases heq : vector = 33
    · subst heq
      rw [List.map_cons, List.count_cons_self, ← ih]
      rfl
    · rw [List.map_cons, List.count_cons_of_ne heq, ← ih, List.filterMap_cons_none]
      exact if_neg heq

end Work

/-- Whenever no handler is running, each vector that was delivered has been dispatched on once and
in that order: the ticks count the interrupts of the timer, and the keyboard's driver is what its
handler makes of one scancode for each of its interrupts. -/
theorem handlers_run_once {b t : Board} {ls : List Event} (hinit : serviceSystem.init b)
    (h : serviceSystem.Run b ls t) (hnone : t.activations = []) :
    taken ls = (dispatched ls).map Prod.fst ∧
      t.timerTicks = b.timerTicks + .ofNat ((taken ls).count 32) ∧
      t.keyboard = (scancodes ls).foldl Keyboard.keyboardHandler b.keyboard ∧
      (scancodes ls).length = (taken ls).count 33 := by
  have howed := owed_run (reachable_boardHolds (.init hinit)) h
  rw [Board.owed, Board.owed, hinit.1, hnone] at howed
  have hall : taken ls = (dispatched ls).map Prod.fst := howed.trans (List.append_nil _)
  obtain ⟨hticks, hkeyboard⟩ := drivers_run h
  rw [hall]
  exact ⟨rfl, hticks, hkeyboard, length_scancodes ls⟩

def someEvents : List Event :=
  [.commit, .take 32, .act 32 .dispatch 0, .act 32 (.eoi .pic1) 0, .act 32 .iretq 0,
    .start (.irqSetMask 9), .finish (.irqSetMask 9)]

theorem someEvents_run : ∃ t, serviceSystem.Run someBoard someEvents t ∧ t.activations = [] :=
  ⟨_, .cons (.commit _ rfl ⟨0, by decide⟩) <| .cons (.take _ rfl) <|
    .cons (.act _ ⟨32, [.eoi .pic1, .iretq], true⟩ [] .dispatch 0 rfl rfl) <|
    .cons (.act _ ⟨32, [.iretq], true⟩ [] (.eoi .pic1) 0 rfl rfl) <|
    .cons (.act _ ⟨32, [], true⟩ [] .iretq 0 rfl rfl) <|
    .cons (.start _ (.irqSetMask 9) ⟨rfl, rfl⟩ rfl (by decide)) <|
    .cons (.finish _ _ _ ⟨rfl, rfl⟩ rfl) (.nil _), rfl⟩

theorem handlers_run_once_timer : ∃ t, serviceSystem.Run someBoard someEvents t ∧
    t.timerTicks = someBoard.timerTicks + 1 := by
  obtain ⟨t, hrun, hnone⟩ := someEvents_run
  exact ⟨t, hrun, (handlers_run_once someBoard_init hrun hnone).2.1⟩

/-! ## The masks -/

def Board.maskBit (b : Board) (irq : Nat) : Bool :=
  (readMask (b.pic (portOf irq).1)).getLsbD (portOf irq).2

/-- The calls that have come to their end. -/
def finished : List Event → List MaskCall :=
  List.filterMap fun
    | .finish call => some call
    | _ => none

/-- What a call is meant for: it decides one bit. -/
def MaskCall.decides (irq : Nat) (bit : Bool) : MaskCall → Bool
  | .irqSetMask line => if line = irq then true else bit
  | .irqClearMask line => if line = irq then false else bit

def Board.Fresh (b : Board) : Prop :=
  ∀ call byte, b.calling = some (call, byte) →
    byte = call.value (readMask (b.pic (portOf call.irq).1))

section Masks
variable {b t : Board} {e : Event} {ls : List Event}

theorem readMask_getLsbD (c : Lines) (line : Fin 8) : (readMask c).getLsbD line = c.masked line := by
  rw [readMask, BitVec.getLsbD_cast, BitVec.getLsbD_ofBoolListLE, List.getD_eq_getElem?_getD,
    List.getElem?_ofFn, dif_pos line.isLt]
  rfl

theorem readMask_congr {c d : Lines} (h : c.masked = d.masked) : readMask c = readMask d := by
  rw [readMask, readMask, h]

theorem readMask_writeMask (c : Lines) (byte : BitVec 8) : readMask (writeMask c byte) = byte := by
  apply BitVec.eq_of_getLsbD_eq
  intro i hi
  exact readMask_getLsbD (writeMask c byte) ⟨i, hi⟩

theorem portOf_lt {irq : Nat} (h : irq < 16) : (portOf irq).2 < 8 := by
  unfold portOf
  split_ifs with hlow
  · exact hlow
  · dsimp only
    omega

theorem portOf_inj {irq line : Nat} (h : (portOf irq).1 = (portOf line).1) :
    (portOf irq).2 = (portOf line).2 ↔ irq = line := by
  unfold portOf at h ⊢
  split_ifs at h ⊢
  all_goals
    dsimp only at h ⊢
    omega

theorem value_getLsbD (call : MaskCall) (byte : BitVec 8) {irq : Nat} (hirq : irq < 16)
    (hport : (portOf irq).1 = (portOf call.irq).1) :
    (call.value byte).getLsbD (portOf irq).2 = call.decides irq (byte.getLsbD (portOf irq).2) := by
  have hlt := portOf_lt hirq
  have hbit : (1#8 <<< (portOf call.irq).2).getLsbD (portOf irq).2 = decide (call.irq = irq) := by
    rw [← BitVec.twoPow_eq, BitVec.getLsbD_twoPow, ← Bool.decide_and, decide_eq_decide]
    constructor
    · rintro ⟨-, heq⟩
      exact ((portOf_inj hport).mp heq.symm).symm
    · rintro rfl
      exact ⟨hlt, rfl⟩
  cases call with
  | irqSetMask line =>
    rw [MaskCall.value, BitVec.getLsbD_or, MaskCall.decides]
    rw [MaskCall.irq] at hbit
    rw [hbit]
    by_cases heq : line = irq
    · rw [decide_eq_true heq, if_pos heq, Bool.or_true]
    · rw [decide_eq_false heq, if_neg heq, Bool.or_false]
  | irqClearMask line =>
    rw [MaskCall.value, BitVec.getLsbD_and, BitVec.getLsbD_not, decide_eq_true hlt, MaskCall.decides]
    rw [MaskCall.irq] at hbit
    rw [hbit]
    by_cases heq : line = irq
    · rw [decide_eq_true heq, if_pos heq]
      exact Bool.and_false _
    · rw [decide_eq_false heq, if_neg heq]
      exact Bool.and_true _

theorem acknowledge_masked (b : Board) (chip : Chip) :
    (b.acknowledge.1 chip).masked = (b.pic chip).masked := by
  have hmasked (chip : Chip) := Controller.acknowledge_masked (b.pic chip)
  rcases acknowledge_cases b with ⟨-, hack⟩ | ⟨-, hack⟩
  · rw [hack]
    cases chip with
    | pic1 => exact hmasked .pic1
    | pic2 => exact hmasked .pic2
  · rw [hack]
    cases chip with
    | pic1 => exact hmasked .pic1
    | pic2 => rfl

theorem masked_update (b : Board) (chip : Chip) {c : Lines} (h : c.masked = (b.pic chip).masked)
    (other : Chip) : (update b.pic chip c other).masked = (b.pic other).masked := by
  by_cases heq : other = chip
  · subst heq
    rw [update_self, h]
  · rw [update_of_ne heq]

theorem masked_step (hstep : b.Step e t) :
    (∃ call, e = .start call ∧ t = b.start call) ∨
      (∃ call byte, e = .finish call ∧ b.calling = some (call, byte) ∧ t = b.finish call byte) ∨
      (finished [e] = [] ∧ t.calling = b.calling ∧
        ∀ chip, (t.pic chip).masked = (b.pic chip).masked) := by
  cases hstep with
  | raise chip line => exact .inr (.inr ⟨rfl, rfl, masked_update b chip rfl⟩)
  | withdraw chip line => exact .inr (.inr ⟨rfl, rfl, masked_update b chip rfl⟩)
  | cascade => exact .inr (.inr ⟨rfl, rfl, masked_update b .pic1 rfl⟩)
  | commit => exact .inr (.inr ⟨rfl, rfl, fun _ => rfl⟩)
  | take => exact .inr (.inr ⟨rfl, rfl, acknowledge_masked b⟩)
  | act a others action scancode =>
    refine .inr (.inr ⟨rfl, ?_⟩)
    cases action with
    | dispatch =>
      obtain ⟨ticks, keyboard, heq⟩ :=
        dispatch_eq { b with activations := a :: others } a.vector scancode
      rw [Board.perform, heq]
      exact ⟨rfl, fun _ => rfl⟩
    | eoi chip => exact ⟨rfl, masked_update b chip (Controller.endOfInterrupt_masked _)⟩
    | iretq => exact ⟨rfl, fun _ => rfl⟩
  | setFlag => exact .inr (.inr ⟨rfl, rfl, fun _ => rfl⟩)
  | start call => exact .inl ⟨call, rfl, rfl⟩
  | finish call byte _ hcalling => exact .inr (.inl ⟨call, byte, rfl, hcalling, rfl⟩)

theorem decides_of_ne {call : MaskCall} {irq : Nat} (h : call.irq ≠ irq) (bit : Bool) :
    call.decides irq bit = bit := by
  cases call with
  | irqSetMask line => exact if_neg h
  | irqClearMask line => exact if_neg h

theorem maskBit_finish {call : MaskCall} {byte : BitVec 8} (h : b.Fresh)
    (hcalling : b.calling = some (call, byte)) {irq : Nat} (hirq : irq < 16) :
    (b.finish call byte).maskBit irq = call.decides irq (b.maskBit irq) := by
  unfold Board.maskBit Board.finish
  dsimp only
  by_cases hport : (portOf irq).1 = (portOf call.irq).1
  · rw [hport, update_self, readMask_writeMask, h call byte hcalling]
    exact value_getLsbD call _ hirq hport
  · have hne : call.irq ≠ irq := fun heq => hport (heq ▸ rfl)
    rw [update_of_ne hport, decides_of_ne hne]

theorem Board.Fresh.step (h : b.Fresh) (hstep : b.Step e t) :
    t.Fresh ∧ ∀ irq < 16,
      t.maskBit irq = (finished [e]).foldl (MaskCall.decides irq) (b.maskBit irq) := by
  rcases masked_step hstep with ⟨call, rfl, rfl⟩ | ⟨call, byte, rfl, hcalling, rfl⟩ |
    ⟨hnone, hcalling, hmasked⟩
  · refine ⟨fun call' byte hcalling => ?_, fun irq _ => rfl⟩
    obtain ⟨rfl, rfl⟩ := Prod.mk.inj (Option.some.inj hcalling)
    rfl
  · exact ⟨nofun, fun irq hirq => maskBit_finish h hcalling hirq⟩
  · have hread (chip : Chip) : readMask (t.pic chip) = readMask (b.pic chip) :=
      readMask_congr (hmasked chip)
    refine ⟨fun call byte hcall => ?_, fun irq _ => ?_⟩
    · rw [hread]
      exact h call byte (hcalling.symm.trans hcall)
    · rw [hnone, Board.maskBit, hread]
      rfl

theorem Board.Fresh.run (h : b.Fresh) (hrun : serviceSystem.Run b ls t) : ∀ irq < 16,
    t.maskBit irq = (finished ls).foldl (MaskCall.decides irq) (b.maskBit irq) := by
  induction hrun with
  | nil => exact fun _ _ => rfl
  | @cons s u t e ls hstep _ ih =>
    obtain ⟨hfresh, hbits⟩ := h.step hstep
    have hfinished : finished (e :: ls) = finished [e] ++ finished ls :=
      List.filterMap_append (l := [e])
    intro irq hirq
    rw [hfinished, List.foldl_append, ← hbits irq hirq]
    exact ih hfresh irq hirq

end Masks

/-- However requests and handlers fall between the two accesses of its calls, the mask of every
line is what the last call for it has decided, and otherwise what it was. -/
theorem masks_are_never_lost {b t : Board} {ls : List Event} (hinit : serviceSystem.init b)
    (h : serviceSystem.Run b ls t) : ∀ irq < 16,
      t.maskBit irq = (finished ls).foldl (MaskCall.decides irq) (b.maskBit irq) := by
  refine Board.Fresh.run (fun call byte hcalling => ?_) h
  exact absurd (hinit.2.2.1.symm.trans hcalling) nofun

theorem masks_are_never_lost_irqSetMask : ∃ t, serviceSystem.Run someBoard someEvents t ∧
    t.maskBit 9 = true ∧ t.maskBit 8 = false := by
  obtain ⟨t, hrun, -⟩ := someEvents_run
  have hbits := masks_are_never_lost someBoard_init hrun
  exact ⟨t, hrun, hbits 9 (by decide), hbits 8 (by decide)⟩

end AlvOS.Interrupts
