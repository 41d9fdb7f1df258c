import AlvOS.Lib.Fuel

/-! Fuelled computations as a monad, and their total correctness.  A computation carries the
proof that more fuel never changes its answer, so that programs compose without one. -/

namespace Fuel
universe u

structure Comp (α : Type u) where
  run : Nat → Option α
  mono : Mono run

namespace Comp
variable {α β : Type u} {P Q : α → Prop}

instance : Monad Comp where
  pure a := ⟨fun _ => some a, .const _⟩
  bind c f := ⟨fun n => (c.run n).bind fun a => (f a).run n, c.mono.bind fun a => (f a).mono⟩

/-- The computation terminates, and its answer satisfies `P`. -/
def Yields (c : Comp α) (P : α → Prop) : Prop := ∃ a, Returns c.run a ∧ P a

theorem yields_pure {a : α} : (pure a : Comp α).Yields P ↔ P a := by
  constructor
  · rintro ⟨b, ⟨n, hn⟩, hb⟩
    obtain rfl := Option.some.inj hn
    exact hb
  · exact fun ha => ⟨a, ⟨0, rfl⟩, ha⟩

theorem Yields.imp {c : Comp α} (h : c.Yields P) (hPQ : ∀ a, P a → Q a) : c.Yields Q := by
  obtain ⟨a, hret, ha⟩ := h
  exact ⟨a, hret, hPQ a ha⟩

theorem Yields.bind {c : Comp α} {f : α → Comp β} {R : β → Prop} (h : c.Yields P)
    (hf : ∀ a, P a → (f a).Yields R) : (c >>= f).Yields R := by
  obtain ⟨a, hret, ha⟩ := h
  obtain ⟨b, hret', hb⟩ := hf a ha
  exact ⟨b, hret.bind c.mono (f a).mono hret', hb⟩

theorem Yields.map {c : Comp α} {f : α → β} (h : c.Yields P) :
    (f <$> c).Yields (fun b => ∃ a, P a ∧ b = f a) :=
  h.bind fun a ha => yields_pure.mpr ⟨a, ha, rfl⟩

theorem Yields.of_returns {c : Comp α} (h : c.Yields P) {a : α} (hret : Returns c.run a) :
    P a := by
  obtain ⟨b, hret', hb⟩ := h
  rwa [hret.unique c.mono hret']

/-- `for (i = 0; i < n; i++)`. -/
def forEach (body : Nat → α → Comp α) : Nat → α → Comp α
  | 0, s => pure s
  | n + 1, s => forEach body n s >>= body n

theorem Yields.forEach {body : Nat → α → Comp α} {n : Nat} {s : α} {I : Nat → α → Prop}
    (hinit : I 0 s) (hbody : ∀ i s, i < n → I i s → (body i s).Yields (I (i + 1))) :
    (forEach body n s).Yields (I n) := by
  induction n with
  | zero => exact yields_pure.mpr hinit
  | succ n ih =>
    exact (ih fun i s hi => hbody i s (Nat.lt_succ_of_lt hi)).bind fun s hs =>
      hbody n s n.lt_succ_self hs

end Comp
end Fuel
