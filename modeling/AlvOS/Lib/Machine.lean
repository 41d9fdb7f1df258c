import Mathlib.Order.WellFounded
import AlvOS.Lib.Fuel

/-! Deterministic machines: a partial step function, the states on the way from a state,
and how a machine comes to a halt or fails to. -/

namespace Machine
variable {S : Type*}

inductive Reaches (step : S → Option S) (s : S) : S → Prop
  | refl : Reaches step s s
  | tail {t u : S} : Reaches step s t → step t = some u → Reaches step s u

def HaltsAt (step : S → Option S) (s t : S) : Prop := Reaches step s t ∧ step t = none

def Halts (step : S → Option S) (s : S) : Prop := ∃ t, HaltsAt step s t

variable {step : S → Option S} {s t u : S}

namespace Reaches

theorem single (h : step s = some t) : Reaches step s t := .tail .refl h

theorem trans (h : Reaches step s t) (h' : Reaches step t u) : Reaches step s u := by
  induction h' with
  | refl => exact h
  | tail _ hstep ih => exact ih.tail hstep

theorem head (h : step s = some t) (h' : Reaches step t u) : Reaches step s u := (single h).trans h'

theorem invariant {P : S → Prop} (h : Reaches step s t)
    (hstep : ∀ {a b}, P a → step a = some b → P b) (hs : P s) : P t := by
  induction h with
  | refl => exact hs
  | tail _ hlast ih => exact hstep ih hlast

theorem cases_head (h : Reaches step s u) : s = u ∨ ∃ t, step s = some t ∧ Reaches step t u := by
  induction h with
  | refl => exact .inl rfl
  | tail _ hlast ih =>
    rcases ih with rfl | ⟨t, hfirst, hrest⟩
    · exact .inr ⟨_, hlast, .refl⟩
    · exact .inr ⟨t, hfirst, hrest.tail hlast⟩

theorem total (h : Reaches step s t) (h' : Reaches step s u) :
    Reaches step t u ∨ Reaches step u t := by
  induction h with
  | refl => exact .inl h'
  | tail hprev hlast ih =>
    rcases ih with hforth | hback
    · rcases hforth.cases_head with rfl | ⟨v, hfirst, hrest⟩
      · exact .inr (single hlast)
      · obtain rfl := Option.some.inj (hlast.symm.trans hfirst)
        exact .inl hrest
    · exact .inr (hback.tail hlast)

end Reaches

theorem HaltsAt.eq_of_reaches (h : step t = none) (h' : Reaches step t u) : u = t := by
  rcases h'.cases_head with rfl | ⟨v, hfirst, -⟩
  · rfl
  · exact absurd (h.symm.trans hfirst) nofun

theorem HaltsAt.unique (h : HaltsAt step s t) (h' : HaltsAt step s u) : t = u := by
  rcases h.1.total h'.1 with hforth | hback
  · exact (HaltsAt.eq_of_reaches h.2 hforth).symm
  · exact HaltsAt.eq_of_reaches h'.2 hback

theorem HaltsAt.of_reaches (h : Reaches step s t) (h' : HaltsAt step t u) : HaltsAt step s u :=
  ⟨h.trans h'.1, h'.2⟩

theorem Halts.reaches (h : Halts step s) (h' : Reaches step s t) : Halts step t := by
  obtain ⟨u, hu, hnone⟩ := h
  rcases h'.total hu with hforth | hback
  · exact ⟨u, hforth, hnone⟩
  · exact ⟨t, .refl, HaltsAt.eq_of_reaches hnone hback ▸ hnone⟩

/-- A machine halts when every step from a state of the invariant lowers the rank. -/
theorem halts_of_rank {O : Type*} [LT O] [WellFoundedLT O] (rank : S → O) {P : S → Prop}
    (hstep : ∀ {a b}, P a → step a = some b → P b ∧ rank b < rank a) (hs : P s) :
    Halts step s := by
  induction h : rank s using WellFoundedLT.induction generalizing s with
  | ind o ih =>
    cases hnext : step s with
    | none => exact ⟨s, .refl, hnext⟩
    | some t =>
      obtain ⟨hP, hlt⟩ := hstep hs hnext
      obtain ⟨u, hu, hnone⟩ := ih (rank t) (h ▸ hlt) hP rfl
      exact ⟨u, .head hnext hu, hnone⟩

/-- It never halts from a set of states that it cannot leave and where it can always step. -/
theorem not_halts_of_trap {P : S → Prop} (hstep : ∀ {a}, P a → ∃ b, step a = some b ∧ P b)
    (hs : P s) : ¬Halts step s := by
  rintro ⟨t, ht, hnone⟩
  have hP : P t := by
    refine ht.invariant (fun ha hab => ?_) hs
    obtain ⟨c, hac, hc⟩ := hstep ha
    obtain rfl := Option.some.inj (hac.symm.trans hab)
    exact hc
  obtain ⟨u, hu, -⟩ := hstep hP
  exact absurd (hnone.symm.trans hu) nofun

def run (step : S → Option S) : Nat → S → Option S
  | 0, _ => none
  | fuel + 1, s =>
    match step s with
    | some t => run step fuel t
    | none => some s

theorem run_mono (step : S → Option S) (s : S) : Fuel.Mono fun fuel => run step fuel s := by
  refine .loop (fun s => rfl) (fun s => ?_) s
  cases h : step s with
  | some t => exact .inl ⟨t, fun fuel => by rw [run, h]⟩
  | none => exact .inr ⟨some s, fun fuel => by rw [run, h]⟩

theorem Reaches.returns_run (h : Reaches step s t)
    (hret : Fuel.Returns (fun fuel => run step fuel t) u) :
    Fuel.Returns (fun fuel => run step fuel s) u := by
  induction h with
  | refl => exact hret
  | tail _ hlast ih =>
    obtain ⟨fuel, hfuel⟩ := hret
    refine ih ⟨fuel + 1, ?_⟩
    dsimp only
    rw [run, hlast]
    exact hfuel

theorem HaltsAt.returns_run (h : HaltsAt step s t) :
    Fuel.Returns (fun fuel => run step fuel s) t :=
  h.1.returns_run ⟨1, by dsimp only; rw [run, h.2]⟩

end Machine
