import Mathlib.Order.Basic

/-! Fuelled computations.  A loop that may not terminate is a function of its
fuel; its result is what it answers from some fuel on. -/

namespace Fuel
variable {α β : Type*}

def Mono (f : Nat → Option α) : Prop := ∀ n k r, n ≤ k → f n = some r → f k = some r

/-- The computation terminates with `r`. -/
def Returns (f : Nat → Option α) (r : α) : Prop := ∃ n, f n = some r

theorem Mono.of_succ {f : Nat → Option α} (h : ∀ n r, f n = some r → f (n + 1) = some r) :
    Mono f := by
  intro n k r hk hn
  induction hk with
  | refl => exact hn
  | step _ ih => exact h _ _ ih

theorem Mono.const (a : Option α) : Mono fun _ => a := fun _ _ _ _ h => h

theorem Mono.bind {f : Nat → Option α} {g : Nat → α → Option β} (hf : Mono f)
    (hg : ∀ a, Mono fun n => g n a) : Mono fun n => (f n).bind (g n) := by
  intro n k r hk h
  obtain ⟨a, ha, hga⟩ := Option.bind_eq_some_iff.mp h
  exact Option.bind_eq_some_iff.mpr ⟨a, hf _ _ _ hk ha, hg a _ _ _ hk hga⟩

theorem Mono.map {f : Nat → Option α} (g : α → β) (hf : Mono f) : Mono fun n => (f n).map g := by
  intro n k r hk h
  obtain ⟨a, ha, hga⟩ := Option.map_eq_some_iff.mp h
  exact Option.map_eq_some_iff.mpr ⟨a, hf _ _ _ hk ha, hga⟩

theorem Mono.ite {c : Prop} [Decidable c] {f g : Nat → Option α} (hf : Mono f) (hg : Mono g) :
    Mono fun n => if c then f n else g n := by
  by_cases hc : c
  · simpa only [if_pos hc] using hf
  · simpa only [if_neg hc] using hg

theorem Mono.loop {f : Nat → α → Option β} (hzero : ∀ a, f 0 a = none)
    (hturn : ∀ a, (∃ b, ∀ n, f (n + 1) a = f n b) ∨ ∃ r, ∀ n, f (n + 1) a = r) (a : α) :
    Mono fun n => f n a := by
  refine .of_succ fun n r h => ?_
  induction n generalizing a with
  | zero => exact absurd ((hzero a).symm.trans h) (Option.some_ne_none r).symm
  | succ n ih =>
    obtain ⟨b, hb⟩ | ⟨s, hs⟩ := hturn a
    · exact (hb (n + 1)).trans (ih b ((hb n).symm.trans h))
    · exact (hs (n + 1)).trans ((hs n).symm.trans h)

theorem Returns.bind {f : Nat → Option α} {g : Nat → α → Option β} {a : α} {b : β} (hf : Mono f)
    (hg : Mono fun n => g n a) (hfa : Returns f a) (hgb : Returns (fun n => g n a) b) :
    Returns (fun n => (f n).bind (g n)) b := by
  obtain ⟨n, hn⟩ := hfa
  obtain ⟨k, hk⟩ := hgb
  exact ⟨max n k, Option.bind_eq_some_iff.mpr
    ⟨a, hf _ _ _ (Nat.le_max_left n k) hn, hg _ _ _ (Nat.le_max_right n k) hk⟩⟩

theorem Returns.map {f : Nat → Option α} {a : α} (g : α → β) (hfa : Returns f a) :
    Returns (fun n => (f n).map g) (g a) := by
  obtain ⟨n, hn⟩ := hfa
  exact ⟨n, Option.map_eq_some_iff.mpr ⟨a, hn, rfl⟩⟩

theorem Returns.ite_pos {c : Prop} [Decidable c] {f g : Nat → Option α} {a : α} (hc : c)
    (hf : Returns f a) : Returns (fun n => if c then f n else g n) a := by
  obtain ⟨n, hn⟩ := hf
  exact ⟨n, (if_pos hc).trans hn⟩

theorem Returns.ite_neg {c : Prop} [Decidable c] {f g : Nat → Option α} {a : α} (hc : ¬c)
    (hg : Returns g a) : Returns (fun n => if c then f n else g n) a := by
  obtain ⟨n, hn⟩ := hg
  exact ⟨n, (if_neg hc).trans hn⟩

theorem Returns.unique {f : Nat → Option α} (hf : Mono f) {r s : α} (hr : Returns f r)
    (hs : Returns f s) : r = s := by
  obtain ⟨n, hn⟩ := hr
  obtain ⟨k, hk⟩ := hs
  have h1 : f (max n k) = some r := hf _ _ _ (Nat.le_max_left n k) hn
  have h2 : f (max n k) = some s := hf _ _ _ (Nat.le_max_right n k) hk
  exact Option.some.inj (h1.symm.trans h2)

end Fuel
