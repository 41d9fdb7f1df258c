import Mathlib.Tactic.SplitIfs
import AlvOS.Interrupts.Defs

/-! When the timer can interrupt the boot.  Its handler divides by a frequency that is zero
until timer_install; before that, only the mask the firmware left keeps it from running. -/

namespace AlvOS.Interrupts
open Function Interruptible

def Machine.view (m : Machine) : Machine := { m with timerTicks := 0 }

section Machine
variable {s t : Machine} {i : Instr}

theorem view_exec (m : Machine) (i : Instr) : (m.exec i).view = m.view.exec i := by
  cases i
  all_goals rfl

theorem exec_eoi (m : Machine) : m.exec (.outCommand .pic1 picEoi) = m := by
  have hcommand : (m.pic .pic1).command picEoi = m.pic .pic1 := if_neg (by decide)
  rw [Machine.exec, hcommand, update_eq_self]

theorem view_irqHandler (h : irqHandler s = some t) : t.view = s.view := by
  obtain ⟨u, hu, rfl⟩ := Option.map_eq_some_iff.mp h
  rw [exec_eoi]
  unfold timerHandler at hu
  split_ifs at hu
  rw [← Option.some.inj hu]
  rfl

theorem exec_interrupts (h : i ≠ .sti) : (s.exec i).interrupts = s.interrupts := by
  cases i
  case sti => exact absurd rfl h
  all_goals rfl

def Instr.frequency? : Instr → Option UInt32
  | .setFrequency frequency => some frequency
  | _ => none

theorem exec_timerFrequency (h : i.frequency? = none) :
    (s.exec i).timerFrequency = s.timerFrequency := by
  cases i
  case setFrequency => cases h
  all_goals rfl

theorem foldl_calls {A : Type} (routine : A → Routine) (as : List A) (m : Machine) :
    (as.map fun a => Instr.call (routine a)).foldl Machine.exec m = m := by
  induction as with
  | nil => rfl
  | cons a as ih => exact ih

theorem picRemap_restores (m : Machine) (h1 : (m.pic .pic1).expected = 0)
    (h2 : (m.pic .pic2).expected = 0) : (picRemap.foldl Machine.exec m).pic = m.pic := by
  have hall (v : UInt8) : v &&& 0xFF = v := UInt8.and_neg_one
  funext chip
  cases chip with
  | pic1 =>
    have hchip : (picRemap.foldl Machine.exec m).pic .pic1 = ⟨(m.pic .pic1).mask &&& 0xFF, 0⟩ := rfl
    rw [hchip, hall, ← h1]
  | pic2 =>
    have hchip : (picRemap.foldl Machine.exec m).pic .pic2 = ⟨(m.pic .pic2).mask &&& 0xFF, 0⟩ := rfl
    rw [hchip, hall, ← h2]

end Machine

def beforeSti : List Instr :=
  [.call .idtInstall, .call .terminalWritestring] ++
    ((List.range 32).map (fun num => .call (.idtSetGate num)) ++ (picRemap ++
      (List.range 16).map (fun num => .call (.idtSetGate (32 + num)))))

def meanwhile : List Routine :=
  [.terminalWritestring, .terminalWritestring, .terminalWritestring, .terminalWritestring,
    .pmmInit, .heapInit, .terminalWritestring]

def afterwards : List Instr :=
  (timerInstall 100).tail ++ ([.call .terminalWritestring] ++ (keyboardInstall ++
    [.call .terminalWritestring, .call .shellInit, .call .memoryPrintInfo,
      .call .terminalWritestring, .call .keyboardGetchar, .call .terminalWritestring,
      .call .shellRun]))

theorem kernelMain_eq : kernelMain = beforeSti ++
    .sti :: (meanwhile.map (fun routine => .call routine) ++ .setFrequency 100 :: afterwards) := rfl

def Ok (m : Machine) : Prop := boot.Enabled m → m.timerFrequency ≠ 0

section Parts
variable {m : Machine}

theorem interrupts_beforeSti (h : m.interrupts = false) :
    boot.Along (fun m => m.interrupts = false) beforeSti m := by
  have hsti : ∀ i ∈ beforeSti, i ≠ .sti := by decide
  refine Code.along_of_invariant h (fun s i hi hs => ?_) fun s hs => hs
  change (s.exec i).interrupts = false
  rw [exec_interrupts (hsti i hi)]
  exact hs

theorem pic_beforeSti (h : ∀ chip, (m.pic chip).expected = 0) :
    (beforeSti.foldl Machine.exec m).pic = m.pic := by
  unfold beforeSti
  rw [List.foldl_append, List.foldl_append, List.foldl_append, foldl_calls, foldl_calls]
  exact picRemap_restores m (h .pic1) (h .pic2)

theorem timerFrequency_beforeSti : (beforeSti.foldl Machine.exec m).timerFrequency =
    m.timerFrequency := by
  have hnone : ∀ i ∈ beforeSti, i.frequency? = none := by decide
  exact foldl_invariant (P := fun s : Machine => s.timerFrequency = m.timerFrequency) rfl
    fun s i hi hs => (exec_timerFrequency (hnone i hi)).trans hs

theorem along_calls {P : Machine → Prop} (routines : List Routine) (rest : List Instr) :
    boot.Along P (routines.map (fun routine => .call routine) ++ rest) m ↔
      boot.Along P rest m := by
  induction routines with
  | nil => rfl
  | cons routine routines ih =>
    rw [List.map_cons, List.cons_append, Code.along_cons]
    exact (and_congr_right fun _ => ih).trans
      (and_iff_right_of_imp fun h => h [] List.nil_prefix)

theorem along_afterwards (h : m.timerFrequency ≠ 0) : boot.Along Ok afterwards m := by
  have hnone : ∀ i ∈ afterwards, i.frequency? = none := by decide
  refine Code.along_of_invariant h (fun s i hi hs => ?_) fun s hs _ => hs
  change (s.exec i).timerFrequency ≠ 0
  rw [exec_timerFrequency (hnone i hi)]
  exact hs

/-- Of all the points of the boot one decides: interrupts have just been enabled. -/
theorem along_kernelMain (hoff : m.interrupts = false)
    (hready : ∀ chip, (m.pic chip).expected = 0) (hzero : m.timerFrequency = 0) :
    boot.Along Ok kernelMain m ↔ (m.pic .pic1).mask &&& 1 ≠ 0 := by
  have hbefore := interrupts_beforeSti hoff
  have hok (s : Machine) (hs : s.interrupts = false) : Ok s := by
    intro hon
    exact absurd (hs.symm.trans hon.1) Bool.false_ne_true
  have hdecides : Ok ((beforeSti.foldl Machine.exec m).exec .sti) ↔
      (m.pic .pic1).mask &&& 1 ≠ 0 := by
    have hpic := pic_beforeSti hready
    have hfrequency := timerFrequency_beforeSti.trans hzero
    constructor
    · intro h hclear
      refine h ⟨rfl, ?_⟩ hfrequency
      change ((beforeSti.foldl Machine.exec m).pic .pic1).mask &&& 1 = 0
      rw [hpic]
      exact hclear
    · intro hset hon
      refine absurd ?_ hset
      rw [← hpic]
      exact hon.2
  have hafter : boot.Along Ok afterwards
      (((beforeSti.foldl Machine.exec m).exec .sti).exec (.setFrequency 100)) :=
    along_afterwards (show (100 : UInt32) ≠ 0 by decide)
  rw [kernelMain_eq, Code.along_append, Code.along_cons, along_calls, Code.along_cons, ← hdecides]
  constructor
  · rintro ⟨-, -, h, -⟩
    exact h
  · intro h
    refine ⟨fun done hdone => hok _ (hbefore done hdone), hok _ ?_, h, hafter⟩
    exact hbefore _ (List.prefix_refl _)

end Parts

theorem safe_iff_along (m : Machine) :
    (∀ s rest, (boot.system m kernelMain).Reachable (.running s rest) → Ok s) ↔
      boot.Along Ok kernelMain m := by
  have hexec {s t : Machine} (h : s.view = t.view) (i : Instr) :
      (boot.exec s i).view = (boot.exec t i).view := by
    change (s.exec i).view = (t.exec i).view
    rw [view_exec, view_exec, h]
  have hok {s t : Machine} (h : s.view = t.view) : Ok s ↔ Ok t := by
    change Ok s.view ↔ Ok t.view
    rw [h]
  exact Code.forall_reachable_iff Machine.view hexec view_irqHandler hok m kernelMain

theorem handedOver_expected (mask1 mask2 : UInt8) (locals : Local → UInt8) (chip : Chip) :
    ((handedOver mask1 mask2 locals).pic chip).expected = 0 := by
  cases chip
  all_goals rfl

/-- The timer's handler never divides by zero, however its interrupts interleave with the boot,
exactly when the firmware left the timer masked. -/
theorem ticks_never_divide_by_zero (mask1 mask2 : UInt8) (locals : Local → UInt8) :
    (∀ s rest, (boot.system (handedOver mask1 mask2 locals) kernelMain).Reachable
        (.running s rest) → boot.Enabled s → s.timerFrequency ≠ 0) ↔
      mask1 &&& 1 ≠ 0 :=
  (safe_iff_along _).trans (along_kernelMain rfl (handedOver_expected mask1 mask2 locals) rfl)

/-- With the timer unmasked by the firmware it interrupts as soon as interrupts are enabled, and
its handler divides by zero. -/
theorem ticks_never_divide_by_zero_failure :
    (∃ s rest, (boot.system (handedOver 0 0 fun _ => 0) kernelMain).Reachable (.running s rest) ∧
      boot.Enabled s ∧ s.timerFrequency = 0 ∧ irqHandler s = none) ∧
    ¬∀ mask1 mask2 locals s rest,
      (boot.system (handedOver mask1 mask2 locals) kernelMain).Reachable (.running s rest) →
        boot.Enabled s → s.timerFrequency ≠ 0 := by
  have hfails : ¬∀ s rest, (boot.system (handedOver 0 0 fun _ => 0) kernelMain).Reachable
      (.running s rest) → boot.Enabled s → s.timerFrequency ≠ 0 := by
    intro hclaim
    have halong := (safe_iff_along _).mp hclaim
    exact (along_kernelMain rfl (handedOver_expected 0 0 _) rfl).mp halong rfl
  refine ⟨?_, fun hclaim => hfails (hclaim 0 0 fun _ => 0)⟩
  push Not at hfails
  obtain ⟨s, rest, hreach, henabled, hzero⟩ := hfails
  have hdivide : irqHandler s = none := by
    rw [irqHandler, timerHandler, if_pos hzero, Option.map_none]
  exact ⟨s, rest, hreach, henabled, hzero, hdivide⟩

end AlvOS.Interrupts
