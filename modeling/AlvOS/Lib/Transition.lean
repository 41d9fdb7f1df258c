import Mathlib.Data.List.Induction
import Mathlib.Logic.Relation

/-! Labelled transition systems: finite runs, reachable states, and the rule
that turns what one step preserves into what every run preserves. -/

namespace Transition

/-- Two machines fed the same inputs stay related when every single input keeps them so. -/
theorem foldl_simulation {A B I : Type*} (R : A → B → Prop) {f : A → I → A} {g : B → I → B}
    (hstep : ∀ {a b}, R a b → ∀ i, R (f a i) (g b i)) {a : A} {b : B} (h : R a b)
    (inputs : List I) : R (inputs.foldl f a) (inputs.foldl g b) := by
  induction inputs generalizing a b with
  | nil => exact h
  | cons i inputs ih => exact ih (hstep h i)

/-- What is shown after every prefix of the inputs is right exactly when every input is fed at
a good moment: an invariant lasts as long as the inputs are good, and shows up the first
that is not. -/
theorem forall_prefix_iff {I : Type*} {Inv Shown : List I → Prop} {Good : List I → I → Prop}
    (hnil : Inv []) (hshown : ∀ pre, Inv pre → Shown pre)
    (hgood : ∀ pre i, Inv pre → Good pre i → Inv (pre ++ [i]))
    (hbad : ∀ pre i, Inv pre → ¬Good pre i → ¬Shown (pre ++ [i])) (inputs : List I) :
    (∀ pre, pre <+: inputs → Shown pre) ↔ ∀ pre i, pre ++ [i] <+: inputs → Good pre i := by
  have hinv (hall : ∀ pre i, pre ++ [i] <+: inputs → Inv pre → Good pre i) :
      ∀ pre, pre <+: inputs → Inv pre := by
    intro pre
    induction pre using List.reverseRecOn with
    | nil => exact fun _ => hnil
    | append_singleton pre i ih =>
      intro hpre
      have hbefore := ih ((List.prefix_append pre [i]).trans hpre)
      exact hgood pre i hbefore (hall pre i hpre hbefore)
  constructor
  · intro hright
    have hall : ∀ pre i, pre ++ [i] <+: inputs → Inv pre → Good pre i := by
      intro pre i hpre hbefore
      by_contra hnot
      exact hbad pre i hbefore hnot (hright _ hpre)
    intro pre i hpre
    exact hall pre i hpre (hinv hall pre ((List.prefix_append pre [i]).trans hpre))
  · intro hall pre hpre
    exact hshown pre (hinv (fun pre i hi _ => hall pre i hi) pre hpre)

structure System (S L : Type*) where
  init : S → Prop
  step : S → L → S → Prop

namespace System
variable {S L : Type*} (sys : System S L)

inductive Run : S → List L → S → Prop
  | nil (s : S) : Run s [] s
  | cons {s t u : S} {l : L} {ls : List L} : sys.step s l t → Run t ls u → Run s (l :: ls) u

inductive Reachable : S → Prop
  | init {s : S} : sys.init s → Reachable s
  | step {s t : S} {l : L} : Reachable s → sys.step s l t → Reachable t

variable {sys}

theorem Run.append {s t u : S} {ks ls : List L} (h : sys.Run s ks t) (h' : sys.Run t ls u) :
    sys.Run s (ks ++ ls) u := by
  induction h with
  | nil => exact h'
  | cons hstep _ ih => exact .cons hstep (ih h')

theorem Run.map {S' L' : Type*} {sys' : System S' L'} {f : S → S'} {g : L → L'}
    (hstep : ∀ {s l t}, sys.step s l t → sys'.step (f s) (g l) (f t)) {s t : S} {ls : List L}
    (h : sys.Run s ls t) : sys'.Run (f s) (ls.map g) (f t) := by
  induction h with
  | nil s => exact .nil (f s)
  | cons hl _ ih => exact .cons (hstep hl) ih

theorem Run.preserves {P : S → Prop} {s t : S} {ls : List L} (h : sys.Run s ls t)
    (hstep : ∀ {a l b}, P a → sys.step a l b → P b) (hs : P s) : P t := by
  induction h with
  | nil => exact hs
  | cons hl _ ih => exact ih (hstep hs hl)

theorem Reachable.run {s t : S} {ls : List L} (hs : sys.Reachable s) (h : sys.Run s ls t) :
    sys.Reachable t := h.preserves .step hs

theorem Reachable.invariant {P : S → Prop} {t : S} (h : sys.Reachable t)
    (hinit : ∀ s, sys.init s → P s) (hstep : ∀ {a l b}, P a → sys.step a l b → P b) : P t := by
  induction h with
  | init hs => exact hinit _ hs
  | step _ hl ih => exact hstep ih hl

/-- A run comes to its goal when every state before it has an allowed step of lower rank. -/
theorem exists_run_of_rank {P Q : S → Prop} {Allowed : L → Prop} (rank : S → Nat)
    (hstep : ∀ {s}, P s → ¬Q s → ∃ l t, Allowed l ∧ sys.step s l t ∧ P t ∧ rank t < rank s)
    {s : S} (hs : P s) : ∃ ls t, (∀ l ∈ ls, Allowed l) ∧ sys.Run s ls t ∧ P t ∧ Q t := by
  induction h : rank s using Nat.strongRecOn generalizing s with
  | ind n ih =>
    by_cases hQ : Q s
    · exact ⟨[], s, nofun, .nil s, hs, hQ⟩
    · obtain ⟨l, t, hl, hst, ht, hlt⟩ := hstep hs hQ
      obtain ⟨ls, u, hls, hrun, hu⟩ := ih (rank t) (h ▸ hlt) ht rfl
      exact ⟨l :: ls, u, List.forall_mem_cons.mpr ⟨hl, hls⟩, .cons hst hrun, hu⟩

end System
end Transition
