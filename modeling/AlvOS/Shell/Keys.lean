import AlvOS.Keyboard.Typing
import AlvOS.Shell.Dialogue

/-! The shell at the keyboard.  Its lines are what the driver has returned to it, and keys come in
at any moment: while it reads, while a command runs, and before it has asked for a line. -/

namespace AlvOS.Shell
open Keyboard List Terminal Transition

/-- The keyboard with its reader, and the shell with what has been typed to it so far. -/
structure Desk where
  keyboard : Typing
  shell : State
  exchanges : List Exchange

def Exchange.chars : Exchange → List UInt8
  | .line chars _ _ => chars
  | .init => []

def Desk.taken (d : Desk) : List UInt8 := d.exchanges.flatMap Exchange.chars

def Exchange.Stops : Exchange → Prop
  | .line chars _ _ => ∃ pre, newline ∉ pre ∧ chars = pre ++ [newline]
  | .init => True

inductive DeskStep
  | keyboard (l : KeyStep)
  | exchange (e : Exchange)

def deskSystem (lk : Linkage) (k : Driver) : System Desk DeskStep where
  init d := (keySystem k).init d.keyboard ∧ (shellSession lk).init d.shell ∧ d.exchanges = []
  step d l d' := match l with
    | .keyboard l => (keySystem k).step d.keyboard l d'.keyboard ∧ d'.shell = d.shell ∧
        d'.exchanges = d.exchanges
    | .exchange e => e.Stops ∧ d.taken ++ e.chars <+: d.keyboard.session.returned ∧
        (shellSession lk).step d.shell e d'.shell ∧ d'.keyboard = d.keyboard ∧
        d'.exchanges = d.exchanges ++ [e]

/-- A line that came after others is answered as if all had been typed to the shell at once. -/
def Exchange.Answered (before : List Exchange) : Exchange → Prop
  | .line chars ticks calls =>
    let line := typed (chars.takeWhile (· ≠ newline))
    calls = answer (remembered (typedLines before ++ [line])) ticks (arguments line)
  | .init => True

structure Desk.Holds (lk : Linkage) (k : Driver) (d : Desk) : Prop where
  keyboard : d.keyboard.Holds k
  shell : Recalls lk d.shell (typedLines d.exchanges)
  taken : d.taken <+: d.keyboard.session.returned
  answered : ∀ before e, before ++ [e] <+: d.exchanges → e.Answered before

section Holds
variable {lk : Linkage} {k : Driver} {d d' : Desk} {before : List Exchange} {e : Exchange}

theorem typedLines_concat (before : List Exchange) (e : Exchange) :
    typedLines (before ++ [e]) = e.onLines (typedLines before) := by
  unfold typedLines
  rw [foldl_append]
  rfl

theorem answered_of_step {s t : State} (hs : Recalls lk s (typedLines before)) (hstops : e.Stops)
    (hstep : (shellSession lk).step s e t) : e.Answered before := by
  cases e with
  | init => trivial
  | line chars ticks calls =>
    obtain ⟨pre, hpre, rfl⟩ := hstops
    rw [Exchange.Answered, takeWhile_line hpre]
    exact hs.calls_eq hpre hstep

theorem Desk.Holds.step (h : d.Holds lk k) {l : DeskStep}
    (hstep : (deskSystem lk k).step d l d') : d'.Holds lk k := by
  obtain ⟨keyboard', shell', exchanges'⟩ := d'
  cases l with
  | keyboard l =>
    obtain ⟨hkey, rfl, rfl⟩ := hstep
    have hgrows := returned_grows (.cons hkey (.nil _))
    exact ⟨h.keyboard.step hkey, h.shell, h.taken.trans hgrows, h.answered⟩
  | exchange e =>
    obtain ⟨hstops, htaken, hstep, rfl, rfl⟩ := hstep
    refine ⟨h.keyboard, ?_, ?_, fun before e' hbefore => ?_⟩
    · rw [typedLines_concat]
      exact h.shell.step hstep
    · unfold Desk.taken
      rw [flatMap_append, flatMap_singleton]
      exact htaken
    · rcases prefix_concat_iff.mp hbefore with heq | hbefore
      · obtain ⟨rfl, hlast⟩ := append_inj' heq rfl
        obtain rfl := singleton_inj.mp hlast
        exact answered_of_step h.shell hstops hstep
      · exact h.answered before e' hbefore

end Holds

end AlvOS.Shell
