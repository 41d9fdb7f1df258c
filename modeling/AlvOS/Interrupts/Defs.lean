import Mathlib.Logic.Function.Basic
import AlvOS.Lib.Interruptible

/-! The order in which kernel_main sets up interrupts: the interrupt controllers as isr.c
programs them, the timer of timer.c, and the steps of the boot as straight-line code that an
interrupt of the timer can preempt. -/

namespace AlvOS.Interrupts
open Function

inductive Chip
  | pic1 | pic2
deriving DecidableEq

/-- An 8259: its mask, and how many words of an initialization sequence are still to come. -/
structure Pic where
  mask : UInt8
  expected : Nat

/-- A write to the command port.  `ICW1_INIT` begins an initialization, which clears the mask;
it announces whether there will be a third and a fourth word. -/
def Pic.command (p : Pic) (v : UInt8) : Pic :=
  if v &&& 0x10 ≠ 0 then
    ⟨0, 1 + (if v &&& 0x02 = 0 then 1 else 0) + if v &&& 0x01 ≠ 0 then 1 else 0⟩
  else p

/-- A write to the data port: the next word of an initialization, or else the mask. -/
def Pic.data (p : Pic) (v : UInt8) : Pic :=
  if 0 < p.expected then { p with expected := p.expected - 1 } else { p with mask := v }

/-- The local variables of `pic_remap` and `irq_clear_mask`. -/
inductive Local
  | a1 | a2 | value
deriving DecidableEq

inductive Operand
  | const (v : UInt8)
  | var (x : Local)
deriving DecidableEq

/-- Calls that change neither the controllers, the interrupt flag nor the timer. -/
inductive Routine
  | idtInstall | idtSetGate (num : Nat) | terminalWritestring | pmmInit | heapInit | shellInit
  | memoryPrintInfo | keyboardGetchar | shellRun
deriving DecidableEq

inductive Instr
  /-- `x = inb(PICn_DATA) & keep`. -/
  | inData (x : Local) (chip : Chip) (keep : UInt8)
  | outCommand (chip : Chip) (v : UInt8)
  | outData (chip : Chip) (v : Operand)
  | outPit (port : UInt16) (v : UInt8)
  | sti
  | setFrequency (frequency : UInt32)
  | call (routine : Routine)
deriving DecidableEq

structure Machine where
  pic : Chip → Pic
  interrupts : Bool
  locals : Local → UInt8
  timerFrequency : UInt32
  timerTicks : UInt64

def Machine.value (m : Machine) : Operand → UInt8
  | .const v => v
  | .var x => m.locals x

def Machine.exec (m : Machine) : Instr → Machine
  | .inData x chip keep => { m with locals := update m.locals x ((m.pic chip).mask &&& keep) }
  | .outCommand chip v => { m with pic := update m.pic chip ((m.pic chip).command v) }
  | .outData chip v => { m with pic := update m.pic chip ((m.pic chip).data (m.value v)) }
  | .outPit _ _ => m
  | .sti => { m with interrupts := true }
  | .setFrequency frequency => { m with timerFrequency := frequency }
  | .call _ => m

/-! ## isr.c -/

def icw1Init : UInt8 := 0x10
def icw1Icw4 : UInt8 := 0x01
def icw4Mode8086 : UInt8 := 0x01
def picEoi : UInt8 := 0x20

def picRemap : List Instr :=
  [.inData .a1 .pic1 0xFF, .inData .a2 .pic2 0xFF,
    .outCommand .pic1 (icw1Init ||| icw1Icw4), .outCommand .pic2 (icw1Init ||| icw1Icw4),
    .outData .pic1 (.const 0x20), .outData .pic2 (.const 0x28),
    .outData .pic1 (.const 4), .outData .pic2 (.const 2),
    .outData .pic1 (.const icw4Mode8086), .outData .pic2 (.const icw4Mode8086),
    .outData .pic1 (.var .a1), .outData .pic2 (.var .a2)]

def irqClearMask (irq : UInt8) : List Instr :=
  let (chip, irq) := if irq < 8 then (Chip.pic1, irq) else (.pic2, irq - 8)
  [.inData .value chip (~~~(1 <<< irq)), .outData chip (.var .value)]

def isrInstall : List Instr :=
  (List.range 32).map (fun num => .call (.idtSetGate num)) ++ (picRemap ++
    ((List.range 16).map (fun num => .call (.idtSetGate (32 + num))) ++ [.sti]))

/-! ## timer.c, keyboard.c -/

def timerInstall (frequency : UInt32) : List Instr :=
  let divisor := 1193182 / frequency
  [.setFrequency frequency, .outPit 0x43 0x36, .outPit 0x40 (divisor &&& 0xFF).toUInt8,
    .outPit 0x40 (divisor >>> 8 &&& 0xFF).toUInt8] ++ irqClearMask 0

def keyboardInstall : List Instr := irqClearMask 1 ++ [.call .terminalWritestring]

/-- Nothing for the division by zero in `timer_ticks % timer_frequency`. -/
def timerHandler (m : Machine) : Option Machine :=
  if m.timerFrequency = 0 then none else some { m with timerTicks := m.timerTicks + 1 }

/-- `irq_handler` for vector 32, with the end of interrupt it sends. -/
def irqHandler (m : Machine) : Option Machine :=
  (timerHandler m).map fun m => m.exec (.outCommand .pic1 picEoi)

/-! ## kernel.c -/

/-- `kernel_main` from `idt_install` on. -/
def kernelMain : List Instr :=
  [.call .idtInstall, .call .terminalWritestring] ++ (isrInstall ++
    (List.replicate 4 (.call .terminalWritestring) ++
      ([.call .pmmInit, .call .heapInit, .call .terminalWritestring] ++ (timerInstall 100 ++
        ([.call .terminalWritestring] ++ (keyboardInstall ++
          [.call .terminalWritestring, .call .shellInit, .call .memoryPrintInfo,
            .call .terminalWritestring, .call .keyboardGetchar, .call .terminalWritestring,
            .call .shellRun]))))))

/-- A timer interrupt is taken when interrupts are enabled and the first bit of the mask is
clear. -/
def boot : Interruptible.Code Machine Instr where
  exec := Machine.exec
  Enabled m := m.interrupts = true ∧ (m.pic .pic1).mask &&& 1 = 0
  handler := irqHandler

/-- What the firmware hands over, with its masks; the variables are those of the image. -/
def handedOver (mask1 mask2 : UInt8) (locals : Local → UInt8) : Machine where
  pic
    | .pic1 => ⟨mask1, 0⟩
    | .pic2 => ⟨mask2, 0⟩
  interrupts := false
  locals := locals
  timerFrequency := 0
  timerTicks := 0

end AlvOS.Interrupts
