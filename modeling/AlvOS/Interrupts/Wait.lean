import Mathlib.Algebra.Order.Group.Nat
import AlvOS.Interrupts.Ticks

/-! `timer_wait` among the interrupts it waits for.  The length of the wait is a product of two
32-bit numbers, taken in 32 bits before it is added to the count of ticks. -/

namespace AlvOS.Interrupts
open Function Transition

def waitTarget (m : Machine) (milliseconds : UInt32) : UInt64 :=
  m.timerTicks + (milliseconds * m.timerFrequency / 1000).toUInt64

/-- `timer_wait` behind its first line, named after what it does next; once halted, it goes on
after an interrupt. -/
inductive WaitCall
  | test (target : UInt64)
  | hlt (target : UInt64)
  | halted (target : UInt64)
  | returned

def WaitCall.run (m : Machine) : WaitCall → WaitCall
  | .test target => if m.timerTicks < target then .hlt target else .returned
  | .hlt target => .halted target
  | .halted target => .halted target
  | .returned => .returned

def WaitCall.wake : WaitCall → WaitCall
  | .halted target => .test target
  | call => call

structure Wait where
  machine : Machine
  call : WaitCall

inductive WaitStep
  | run | timer | otherInterrupt

/-- The timer counts at `frequency`, and its interrupt is taken. -/
structure Installed (frequency : UInt32) (m : Machine) : Prop where
  timerFrequency : m.timerFrequency = frequency
  enabled : boot.Enabled m

/-- `timer_wait(milliseconds)` called at tick `t`, until it returns. -/
def waitSystem (frequency milliseconds : UInt32) (t : UInt64) : System Wait WaitStep where
  init c := Installed frequency c.machine ∧ c.machine.timerTicks = t ∧
    c.call = .test (waitTarget c.machine milliseconds)
  step c l c' := c.call ≠ .returned ∧ match l with
    | .run => c' = { c with call := c.call.run c.machine }
    | .timer => boot.Enabled c.machine ∧ ∃ m, irqHandler c.machine = some m ∧
        c' = ⟨m, c.call.wake⟩
    | .otherInterrupt => c' = { c with call := c.call.wake }

section Timer
variable {m n : Machine} {frequency : UInt32}

theorem installed_timerInstall (frequency : UInt32) (hon : m.interrupts = true)
    (hready : (m.pic .pic1).expected = 0) :
    Installed frequency ((timerInstall frequency).foldl Machine.exec m) := by
  have hmask (v : UInt8) : v &&& ~~~((1 : UInt8) <<< 0) &&& 1 = 0 := by
    rw [UInt8.and_assoc]
    exact UInt8.and_zero
  have hpic : ((timerInstall frequency).foldl Machine.exec m).pic .pic1 =
      (m.pic .pic1).data ((m.pic .pic1).mask &&& ~~~((1 : UInt8) <<< 0)) := rfl
  refine ⟨rfl, hon, ?_⟩
  rw [hpic, Pic.data, hready, if_neg (Nat.lt_irrefl 0)]
  exact hmask _

theorem irqHandler_eq (h : m.timerFrequency ≠ 0) :
    irqHandler m = some { m with timerTicks := m.timerTicks + 1 } := by
  rw [irqHandler, timerHandler, if_neg h, Option.map_some, exec_eoi]

theorem Installed.irqHandler (h : Installed frequency m) (hn : irqHandler m = some n) :
    Installed frequency n := by
  have hview := view_irqHandler hn
  have hfrequency : n.view.timerFrequency = frequency :=
    (congrArg Machine.timerFrequency hview).trans h.timerFrequency
  have henabled : boot.Enabled n.view := hview ▸ h.enabled
  exact ⟨hfrequency, henabled⟩

theorem waitTarget_toNat (h : Installed frequency m) {milliseconds : UInt32}
    (hfits : m.timerTicks.toNat + milliseconds.toNat * frequency.toNat / 1000 < 2 ^ 64) :
    (waitTarget m milliseconds).toNat =
      m.timerTicks.toNat + milliseconds.toNat * frequency.toNat % 2 ^ 32 / 1000 := by
  rw [waitTarget, h.timerFrequency, UInt64.toNat_add, UInt32.toNat_toUInt64, UInt32.toNat_div,
    UInt32.toNat_mul]
  have hthousand : (1000 : UInt32).toNat = 1000 := rfl
  have hmod := Nat.mod_le (milliseconds.toNat * frequency.toNat) (2 ^ 32)
  have hdiv := Nat.div_le_div_right (c := 1000) hmod
  rw [hthousand]
  exact Nat.mod_eq_of_lt (by omega)

end Timer

def Wait.Holds (target : Nat) (c : Wait) : Prop :=
  match c.call with
  | .test aim | .hlt aim | .halted aim => aim.toNat = target
  | .returned => target ≤ c.machine.timerTicks.toNat

section Runs
variable {c c' : Wait} {frequency milliseconds : UInt32} {t : UInt64} {target : Nat}

theorem Wait.Holds.wake (h : c.Holds target) (hcall : c.call ≠ .returned) (m : Machine) :
    Wait.Holds target ⟨m, c.call.wake⟩ := by
  obtain ⟨m', call⟩ := c
  cases call with
  | test aim => exact h
  | hlt aim => exact h
  | halted aim => exact h
  | returned => exact absurd rfl hcall

theorem Wait.Holds.step (h : c.Holds target) {l : WaitStep}
    (hstep : (waitSystem frequency milliseconds t).step c l c') : c'.Holds target := by
  obtain ⟨hcall, hstep⟩ := hstep
  cases l with
  | run =>
    obtain rfl : c' = { c with call := c.call.run c.machine } := hstep
    obtain ⟨m, call⟩ := c
    cases call with
    | test aim =>
      -- the only return from the loop
      obtain rfl : aim.toNat = target := h
      by_cases hlt : m.timerTicks < aim
      · have hnext : WaitCall.run m (.test aim) = .hlt aim := if_pos hlt
        simp only [Wait.Holds, hnext]
      · have hnext : WaitCall.run m (.test aim) = .returned := if_neg hlt
        simp only [Wait.Holds, hnext]
        exact UInt64.le_iff_toNat_le.mp (UInt64.not_lt.mp hlt)
    | hlt aim => exact h
    | halted aim => exact h
    | returned => exact absurd rfl hcall
  | timer =>
    obtain ⟨-, m, -, rfl⟩ := hstep
    exact h.wake hcall m
  | otherInterrupt =>
    obtain rfl : c' = { c with call := c.call.wake } := hstep
    exact h.wake hcall c.machine

theorem ticks_le_of_returned
    (hfits : t.toNat + milliseconds.toNat * frequency.toNat / 1000 < 2 ^ 64)
    (h : (waitSystem frequency milliseconds t).Reachable c) (hreturned : c.call = .returned) :
    t.toNat + milliseconds.toNat * frequency.toNat % 2 ^ 32 / 1000 ≤
      c.machine.timerTicks.toNat := by
  have hholds : c.Holds (t.toNat + milliseconds.toNat * frequency.toNat % 2 ^ 32 / 1000) := by
    refine h.invariant (fun s hs => ?_) fun hc hstep => hc.step hstep
    obtain ⟨hinstalled, rfl, hcall⟩ := hs
    rw [Wait.Holds, hcall]
    exact waitTarget_toNat hinstalled hfits
  rw [Wait.Holds, hreturned] at hholds
  exact hholds

theorem exists_ticks (hf : 0 < frequency)
    (h : (waitSystem frequency milliseconds t).Reachable c)
    (hinstalled : Installed frequency c.machine) {aim : UInt64} (hcall : c.call = .test aim)
    (n : Nat) (hn : c.machine.timerTicks.toNat + n < 2 ^ 64) :
    ∃ c', (waitSystem frequency milliseconds t).Reachable c' ∧ c'.call = .test aim ∧
      c'.machine.timerTicks.toNat = c.machine.timerTicks.toNat + n := by
  induction n generalizing c with
  | zero => exact ⟨c, h, hcall, rfl⟩
  | succ n ih =>
    have hpos : c.machine.timerFrequency ≠ 0 := by
      rw [hinstalled.timerFrequency]
      exact (UInt32.pos_iff_ne_zero).mp hf
    have hnext := irqHandler_eq hpos
    have hstep : (waitSystem frequency milliseconds t).step c .timer
        ⟨{ c.machine with timerTicks := c.machine.timerTicks + 1 }, c.call.wake⟩ := by
      refine ⟨?_, hinstalled.enabled, _, hnext, rfl⟩
      rw [hcall]
      exact WaitCall.noConfusion
    have hticks : (c.machine.timerTicks + 1).toNat = c.machine.timerTicks.toNat + 1 := by
      rw [UInt64.toNat_add, UInt64.toNat_one]
      exact Nat.mod_eq_of_lt (by omega)
    have hwake : c.call.wake = .test aim := by
      rw [hcall]
      rfl
    obtain ⟨c', hreach, hcall', hticks'⟩ := ih (h.step hstep) (hinstalled.irqHandler hnext) hwake
      (by dsimp only; omega)
    exact ⟨c', hreach, hcall', by dsimp only at hticks'; omega⟩

theorem exists_returned (hf : 0 < frequency)
    (hfits : t.toNat + milliseconds.toNat * frequency.toNat / 1000 < 2 ^ 64) :
    ∃ c, (waitSystem frequency milliseconds t).Reachable c ∧ c.call = .returned ∧
      c.machine.timerTicks.toNat =
        t.toNat + milliseconds.toNat * frequency.toNat % 2 ^ 32 / 1000 := by
  let m : Machine := (timerInstall frequency).foldl Machine.exec
    { handedOver 0xFF 0xFF (fun _ => 0) with interrupts := true, timerTicks := t }
  have hinstalled : Installed frequency m := installed_timerInstall frequency rfl rfl
  have hinit : (waitSystem frequency milliseconds t).Reachable
      ⟨m, .test (waitTarget m milliseconds)⟩ := .init ⟨hinstalled, rfl, rfl⟩
  have htarget : (waitTarget m milliseconds).toNat = _ := waitTarget_toNat hinstalled hfits
  obtain ⟨c, hreach, hcall, hticks⟩ := exists_ticks hf hinit hinstalled rfl
    (milliseconds.toNat * frequency.toNat % 2 ^ 32 / 1000)
    (htarget ▸ (waitTarget m milliseconds).toNat_lt)
  have hover : ¬c.machine.timerTicks < waitTarget m milliseconds := by
    rw [UInt64.lt_iff_toNat_lt, hticks, htarget]
    exact Nat.lt_irrefl _
  refine ⟨{ c with call := .returned }, hreach.step (l := .run) ⟨?_, ?_⟩, rfl, hticks⟩
  · rw [hcall]
    exact WaitCall.noConfusion
  · rw [hcall, WaitCall.run, if_neg hover]

end Runs

theorem quotient_le_iff (p : Nat) : p / 1000 ≤ p % 2 ^ 32 / 1000 ↔ p < 2 ^ 32 := by omega

/-- Every return is at least the requested time after the call, in exact arithmetic, exactly when
the product of milliseconds and frequency fits in 32 bits. -/
theorem wait_is_long_enough_iff {frequency : UInt32} (hf : 0 < frequency) (milliseconds : UInt32)
    (t : UInt64) (hfits : t.toNat + milliseconds.toNat * frequency.toNat / 1000 < 2 ^ 64) :
    (∀ c, (waitSystem frequency milliseconds t).Reachable c → c.call = .returned →
      t.toNat + milliseconds.toNat * frequency.toNat / 1000 ≤ c.machine.timerTicks.toNat) ↔
      milliseconds.toNat * frequency.toNat < 2 ^ 32 := by
  rw [← quotient_le_iff]
  constructor
  · intro h
    obtain ⟨c, hreach, hcall, hticks⟩ := exists_returned hf hfits
    have hle := h c hreach hcall
    rw [hticks] at hle
    exact Nat.le_of_add_le_add_left hle
  · intro hle c hreach hcall
    have hticks := ticks_le_of_returned hfits hreach hcall
    exact Nat.le_trans (Nat.add_le_add_left hle _) hticks

/-- Twelve hours at the frequency of the kernel: it returns at once. -/
theorem wait_is_long_enough_failure :
    (∃ c, (waitSystem 100 42949673 0).Reachable c ∧ c.call = .returned ∧
      c.machine.timerTicks.toNat = 0) ∧
    ¬∀ (frequency milliseconds : UInt32) (t : UInt64), 0 < frequency →
      t.toNat + milliseconds.toNat * frequency.toNat / 1000 < 2 ^ 64 →
        ∀ c, (waitSystem frequency milliseconds t).Reachable c → c.call = .returned →
          t.toNat + milliseconds.toNat * frequency.toNat / 1000 ≤ c.machine.timerTicks.toNat := by
  obtain ⟨c, hreach, hcall, hticks⟩ := @exists_returned 100 42949673 0 (by decide)
    (by decide)
  refine ⟨⟨c, hreach, hcall, hticks.trans (by decide)⟩, fun hclaim => ?_⟩
  have hle := hclaim 100 42949673 0 (by decide) (by decide) c hreach hcall
  rw [hticks] at hle
  exact absurd hle (by decide)

theorem wait_is_long_enough_iff_three_seconds :
    (∀ c, (waitSystem 100 3000 7).Reachable c → c.call = .returned →
      (7 : UInt64).toNat + (3000 : UInt32).toNat * (100 : UInt32).toNat / 1000 ≤
        c.machine.timerTicks.toNat) ↔
      (3000 : UInt32).toNat * (100 : UInt32).toNat < 2 ^ 32 :=
  wait_is_long_enough_iff (by decide) 3000 7 (by decide)

end AlvOS.Interrupts
