import AlvOS.Lib.Transition

/-! Straight-line programs that can be interrupted between any two instructions.  An interrupt
runs to its end when it is enabled, or it faults and stops the machine.  Where it leaves alone
all the program sees, no run faults exactly when nothing goes wrong at any point of the run
without interrupts. -/

namespace Interruptible
open Transition
variable {S I : Type*}

inductive Config (S I : Type*)
  | running (s : S) (rest : List I)
  | stopped

inductive Event
  | run | interrupt

/-- The instructions, and when an interrupt is taken and what it does; nothing for a fault. -/
structure Code (S I : Type*) where
  exec : S → I → S
  Enabled : S → Prop
  handler : S → Option S

variable (m : Code S I)

inductive Code.Step : Config S I → Event → Config S I → Prop
  | run (s : S) (i : I) (rest : List I) :
    Step (.running s (i :: rest)) .run (.running (m.exec s i) rest)
  | interrupt {s t : S} (rest : List I) : m.Enabled s → m.handler s = some t →
    Step (.running s rest) .interrupt (.running t rest)
  | fault {s : S} (rest : List I) : m.Enabled s → m.handler s = none →
    Step (.running s rest) .interrupt .stopped

def Code.system (s₀ : S) (prog : List I) : System (Config S I) Event where
  init c := c = .running s₀ prog
  step := m.Step

def Code.Along (Ok : S → Prop) (prog : List I) (s : S) : Prop :=
  ∀ done, done <+: prog → Ok (done.foldl m.exec s)

section Along
variable {m} {Ok P : S → Prop} {as bs : List I} {i : I} {s : S}

theorem Code.along_cons : m.Along Ok (i :: bs) s ↔ Ok s ∧ m.Along Ok bs (m.exec s i) := by
  constructor
  · intro h
    refine ⟨h [] List.nil_prefix, fun done hdone => ?_⟩
    exact h (i :: done) (List.cons_prefix_cons.mpr ⟨rfl, hdone⟩)
  · rintro ⟨hs, h⟩ done hdone
    rcases List.prefix_cons_iff.mp hdone with rfl | ⟨more, rfl, hmore⟩
    · exact hs
    · exact h more hmore

theorem Code.along_append :
    m.Along Ok (as ++ bs) s ↔ m.Along Ok as s ∧ m.Along Ok bs (as.foldl m.exec s) := by
  constructor
  · intro h
    refine ⟨fun done hdone => h done (hdone.trans (List.prefix_append as bs)), fun done hdone => ?_⟩
    rw [← List.foldl_append]
    exact h _ ((List.prefix_append_right_inj as).mpr hdone)
  · rintro ⟨has, hbs⟩ done hdone
    rcases List.prefix_or_prefix_of_prefix hdone (List.prefix_append as bs) with hshort | hlong
    · exact has done hshort
    · obtain ⟨more, rfl⟩ := hlong
      rw [List.foldl_append]
      exact hbs more ((List.prefix_append_right_inj as).mp hdone)

theorem foldl_invariant {f : S → I → S} (hs : P s) (hstep : ∀ s, ∀ i ∈ as, P s → P (f s i)) :
    P (as.foldl f s) := by
  induction as generalizing s with
  | nil => exact hs
  | cons i as ih =>
    exact ih (hstep s i List.mem_cons_self hs) fun s j hj => hstep s j (List.mem_cons_of_mem i hj)

theorem Code.along_of_invariant (hs : P s) (hstep : ∀ s, ∀ i ∈ as, P s → P (m.exec s i))
    (hok : ∀ s, P s → Ok s) : m.Along Ok as s :=
  fun _ hdone => hok _ (foldl_invariant hs fun s i hi => hstep s i (hdone.subset hi))

end Along

theorem Code.reachable_exec (s₀ : S) (done rest : List I) :
    (m.system s₀ (done ++ rest)).Reachable (.running (done.foldl m.exec s₀) rest) := by
  induction done using List.reverseRecOn generalizing rest with
  | nil => exact .init rfl
  | append_singleton done i ih =>
    have hbefore := ih (i :: rest)
    rw [List.append_assoc, List.foldl_append]
    exact hbefore.step (.run _ i rest)

section Invisible
variable {m} {V : Type*} (view : S → V)
  (hexec : ∀ {s t}, view s = view t → ∀ i, view (m.exec s i) = view (m.exec t i))
  (hhandler : ∀ {s t}, m.handler s = some t → view t = view s)
include hexec hhandler

theorem Code.view_eq_of_reachable {s₀ : S} {prog : List I} {c : Config S I}
    (h : (m.system s₀ prog).Reachable c) {s : S} {rest : List I} (hc : c = .running s rest) :
    ∃ done, prog = done ++ rest ∧ view s = view (done.foldl m.exec s₀) := by
  induction h generalizing s rest with
  | init hinit =>
    obtain ⟨rfl, rfl⟩ := Config.running.inj (hc.symm.trans hinit)
    exact ⟨[], rfl, rfl⟩
  | step _ hstep ih =>
    cases hstep with
    | run s' i rest' =>
      obtain ⟨rfl, rfl⟩ := Config.running.inj hc
      obtain ⟨done, hprog, hview⟩ := ih rfl
      refine ⟨done ++ [i], ?_, ?_⟩
      · rw [hprog, List.append_assoc]
        rfl
      · rw [List.foldl_append]
        exact hexec hview i
    | interrupt rest' _ hrun =>
      obtain ⟨rfl, rfl⟩ := Config.running.inj hc
      obtain ⟨done, hprog, hview⟩ := ih rfl
      exact ⟨done, hprog, (hhandler hrun).trans hview⟩
    | fault => cases hc

/-- Whatever depends on what the program sees holds in all interleavings exactly when it holds
along the run without interrupts. -/
theorem Code.forall_reachable_iff {Ok : S → Prop}
    (hok : ∀ {s t}, view s = view t → (Ok s ↔ Ok t)) (s₀ : S) (prog : List I) :
    (∀ s rest, (m.system s₀ prog).Reachable (.running s rest) → Ok s) ↔ m.Along Ok prog s₀ := by
  constructor
  · rintro h done ⟨rest, rfl⟩
    exact h _ rest (m.reachable_exec s₀ done rest)
  · intro h s rest hs
    obtain ⟨done, rfl, hview⟩ := Code.view_eq_of_reachable view hexec hhandler hs rfl
    exact (hok hview).mpr (h done (List.prefix_append done rest))

end Invisible
end Interruptible
