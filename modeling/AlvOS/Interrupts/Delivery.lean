import Mathlib.Algebra.BigOperators.Group.Finset.Basic
import AlvOS.Interrupts.Service

/-! Every request is served: from any reachable state the controllers and the processor alone
come to the handler of any line that is requested and not masked, since each handler returns and
each acknowledgement uses up a request that was before it. -/

namespace AlvOS.Interrupts
open Function Transition InterruptController

/-- Neither the devices nor the kernel's code take part. -/
def Event.Own : Event → Prop
  | .cascade | .commit | .take _ | .act _ _ _ => True
  | _ => False

def Board.Leads (b : Board) (vectors : List Nat) (t : Board) : Prop :=
  ∃ ls, serviceSystem.Run b ls t ∧ (∀ e ∈ ls, e.Own) ∧ taken ls = vectors

def Board.Same (b t : Board) : Prop :=
  ∀ chip, (t.pic chip).requested = (b.pic chip).requested ∧
    (t.pic chip).masked = (b.pic chip).masked

structure Board.Ready (b : Board) : Prop where
  holds : b.Holds
  idle : b.activations = []
  enabled : b.interrupts = true

section Leads
variable {b t u : Board} {vs ws : List Nat} {e : Event} {a : Activation}

theorem Board.Leads.refl (b : Board) : b.Leads [] b := ⟨[], .nil b, nofun, rfl⟩

theorem Board.Leads.trans (h : b.Leads vs t) (h' : t.Leads ws u) : b.Leads (vs ++ ws) u := by
  obtain ⟨ks, hk, hkown, rfl⟩ := h
  obtain ⟨ls, hl, hlown, rfl⟩ := h'
  refine ⟨ks ++ ls, hk.append hl, fun e he => ?_, List.filterMap_append⟩
  exact (List.mem_append.mp he).elim (hkown e) (hlown e)

theorem Board.Leads.step (h : b.Step e t) (hown : e.Own) : b.Leads (taken [e]) t := by
  refine ⟨[e], .cons h (.nil t), fun e' he' => ?_, rfl⟩
  rw [List.mem_singleton.mp he']
  exact hown

theorem Board.Same.trans (h : b.Same t) (h' : t.Same u) : b.Same u :=
  fun chip => ⟨(h' chip).1.trans (h chip).1, (h' chip).2.trans (h chip).2⟩

theorem Board.Holds.serving_of (h : b.Holds) (hone : b.activations = [a]) : b.Serving a := by
  cases h with
  | idle hnone => exact absurd (hnone.symm.trans hone) nofun
  | serving a' hone' ha =>
    obtain ⟨rfl, -⟩ := List.cons.inj (hone'.symm.trans hone)
    exact ha

theorem Board.Serving.returns_ready (ha : b.Serving a) (hone : b.activations = [a]) :
    ∃ t, b.Leads [] t ∧ t.Ready ∧ b.Same t := by
  obtain ⟨vector, rest, flag⟩ := a
  induction rest generalizing b with
  | nil => exact absurd ha.returns List.not_mem_nil
  | cons action rest ih =>
    have hstep := Board.Step.act b ⟨vector, rest, flag⟩ [] action 0 ha.uncommitted hone
    have hholds := (Board.Holds.serving _ hone ha).step hstep
    have hown : b.Leads [] _ := .step hstep trivial
    cases action with
    | dispatch =>
      have hactivations := dispatch_activations { b with activations := [⟨vector, rest, flag⟩] }
        vector 0
      obtain ⟨t, hleads, hready, hsame⟩ := ih (hholds.serving_of hactivations) hactivations
      obtain ⟨ticks, keyboard, heq⟩ :=
        dispatch_eq { b with activations := [⟨vector, rest, flag⟩] } vector 0
      refine ⟨t, hown.trans hleads, hready, Board.Same.trans ?_ hsame⟩
      rw [Board.perform, heq]
      exact fun _ => ⟨rfl, rfl⟩
    | eoi chip =>
      obtain ⟨t, hleads, hready, hsame⟩ := ih (hholds.serving_of rfl) rfl
      refine ⟨t, hown.trans hleads, hready, Board.Same.trans (fun other => ?_) hsame⟩
      refine ⟨?_, masked_update b chip (Controller.endOfInterrupt_masked _) other⟩
      change (update b.pic chip _ other).requested = _
      by_cases heq : other = chip
      · subst heq
        rw [update_self, Controller.endOfInterrupt_requested]
      · rw [update_of_ne heq]
    | iretq => exact ⟨_, hown, ⟨hholds, rfl, ha.enabled⟩, fun _ => ⟨rfl, rfl⟩⟩

theorem Board.Ready.serve (h : b.Ready) (hpending : (b.pic .pic1).pending.Nonempty) :
    ∃ t, b.Leads [b.acknowledge.2] t ∧ t.Ready ∧
      ∀ chip, (t.pic chip).requested = (b.acknowledge.1 chip).requested ∧
        (t.pic chip).masked = (b.pic chip).masked := by
  have hcommit := Board.Step.commit b h.enabled hpending
  have htake := Board.Step.take { b with committed := true } rfl
  have hholds := (h.holds.step hcommit).step htake
  have hone : { b with committed := true }.take.activations =
      [⟨b.acknowledge.2, irqHandlerActions b.acknowledge.2, b.interrupts⟩] := by
    rw [Board.take, h.idle]
    rfl
  obtain ⟨t, hleads, hready, hsame⟩ := (hholds.serving_of hone).returns_ready hone
  refine ⟨t, ?_, hready, fun chip => ⟨(hsame chip).1, ?_⟩⟩
  · exact (Board.Leads.step hcommit trivial).trans ((Board.Leads.step htake trivial).trans hleads)
  · exact (hsame chip).2.trans (acknowledge_masked b chip)

end Leads

def vectorOf : Chip → Fin 8 → Nat
  | .pic1, line => 0x20 + line.val
  | .pic2, line => 0x28 + line.val

/-- A device has requested an interrupt, and no mask is in its way. -/
structure Board.Awaits (b : Board) (chip : Chip) (line : Fin 8) : Prop where
  requested : line ∈ (b.pic chip).requested
  unmasked : (b.pic chip).masked line = false
  device : chip = .pic1 → line ≠ 2
  cascade : chip = .pic2 → (b.pic .pic1).masked 2 = false

/-- The third line of the first controller counts less than a device, for it is raised again as
long as the second has requests. -/
def weight (line : Fin 8) : Nat := if line.val = 2 then 1 else 2

def Board.waiting (b : Board) : Nat :=
  ∑ line ∈ (b.pic .pic1).requested, weight line + 2 * (b.pic .pic2).requested.card

section Rounds
variable {b t : Board} {chip : Chip} {line : Fin 8}

theorem Board.Awaits.congr (h : b.Awaits chip line)
    (hmasked : ∀ chip, (t.pic chip).masked = (b.pic chip).masked)
    (hrequested : line ∈ (t.pic chip).requested) : t.Awaits chip line := by
  refine ⟨hrequested, ?_, h.device, fun hchip => ?_⟩
  · rw [hmasked]
    exact h.unmasked
  · rw [hmasked]
    exact h.cascade hchip

/-- What is served is the request that is awaited or one before it. -/
theorem Board.Ready.round (h : b.Ready) (hpending : (b.pic .pic1).pending.Nonempty)
    (ha : b.Awaits chip line) :
    ∃ vector t, b.Leads [vector] t ∧ t.Ready ∧
      (vector = vectorOf chip line ∨ t.Awaits chip line) ∧ t.waiting < b.waiting ∧
      ((b.pic .pic2).pending.Nonempty → t.waiting + 1 < b.waiting) := by
  obtain ⟨t, hleads, hready, hafter⟩ := h.serve hpending
  refine ⟨_, t, hleads, hready, ?_⟩
  have hmasked (chip : Chip) := (hafter chip).2
  have hrequested (chip : Chip) := (hafter chip).1
  have hfirst := (Controller.acknowledge_requested (b.pic .pic1)).resolve_left
    fun hnone => hpending.ne_empty hnone.1
  obtain ⟨f, hf, hline, hpic1⟩ := hfirst
  have hsum := Finset.add_sum_erase (b.pic .pic1).requested weight hf
  rcases acknowledge_cases b with ⟨htwo, hack⟩ | ⟨htwo, hack⟩
  · obtain rfl : f = 2 := Option.some.inj (hline.symm.trans htwo)
    have hone : (t.pic .pic1).requested = (b.pic .pic1).requested.erase 2 := by
      rw [hrequested, hack]
      exact hpic1
    have hsecond : (t.pic .pic2).requested = (b.pic .pic2).acknowledge.1.requested := by
      rw [hrequested, hack]
      rfl
    have hweight : weight 2 = 1 := rfl
    rw [hack, Board.waiting, Board.waiting, hone, hsecond]
    rcases Controller.acknowledge_requested (b.pic .pic2) with
      ⟨hnone, -, hsame⟩ | ⟨g, hg, hvector, herased⟩
    · refine ⟨.inr (ha.congr hmasked ?_), ?_, fun hsome => absurd hnone hsome.ne_empty⟩
      · cases chip with
        | pic1 =>
          rw [hone]
          exact Finset.mem_erase.mpr ⟨ha.device rfl, ha.requested⟩
        | pic2 =>
          rw [hsecond, hsame]
          exact ha.requested
      · rw [hsame]
        omega
    · have hcard := Finset.card_erase_add_one hg
      rw [herased]
      refine ⟨?_, by omega, fun _ => by omega⟩
      rw [hvector]
      by_cases htarget : vectorOf .pic2 g = vectorOf chip line
      · exact .inl htarget
      · refine .inr (ha.congr hmasked ?_)
        cases chip with
        | pic1 =>
          rw [hone]
          exact Finset.mem_erase.mpr ⟨ha.device rfl, ha.requested⟩
        | pic2 =>
          rw [hsecond, herased]
          exact Finset.mem_erase.mpr ⟨fun heq => htarget (heq ▸ rfl), ha.requested⟩
  · have hone : (t.pic .pic1).requested = (b.pic .pic1).requested.erase f := by
      rw [hrequested, hack]
      exact hpic1
    have hsecond : (t.pic .pic2).requested = (b.pic .pic2).requested := by
      rw [hrequested, hack]
      rfl
    have hweight : weight f = 2 := if_neg fun heq => htwo ((Fin.ext heq : f = 2) ▸ hline)
    rw [hack, Board.waiting, Board.waiting, hone, hsecond]
    refine ⟨?_, by omega, fun _ => by omega⟩
    rw [hline]
    by_cases htarget : vectorOf .pic1 f = vectorOf chip line
    · exact .inl htarget
    · refine .inr (ha.congr hmasked ?_)
      cases chip with
      | pic1 =>
        rw [hone]
        exact Finset.mem_erase.mpr ⟨fun heq => htarget (heq ▸ rfl), ha.requested⟩
      | pic2 =>
        rw [hsecond]
        exact ha.requested

theorem Board.Ready.advance (h : b.Ready) (ha : b.Awaits chip line) :
    ∃ vector t, b.Leads [vector] t ∧ t.Ready ∧
      (vector = vectorOf chip line ∨ t.Awaits chip line) ∧ t.waiting < b.waiting := by
  have hempty (chip : Chip) : (b.pic chip).inService = ∅ := by
    cases h.holds with
    | idle _ hempty => exact hempty chip
    | serving a hone => exact absurd (h.idle.symm.trans hone) nofun
  have hpending : line ∈ (b.pic chip).pending :=
    (Controller.mem_pending_of_idle (hempty chip)).mpr ⟨ha.requested, ha.unmasked⟩
  cases chip with
  | pic1 =>
    obtain ⟨vector, t, hleads, hready, hserved, hless, -⟩ := h.round ⟨line, hpending⟩ ha
    exact ⟨vector, t, hleads, hready, hserved, hless⟩
  | pic2 =>
    by_cases htwo : 2 ∈ (b.pic .pic1).requested
    · have hfirst : 2 ∈ (b.pic .pic1).pending :=
        (Controller.mem_pending_of_idle (hempty .pic1)).mpr ⟨htwo, ha.cascade rfl⟩
      obtain ⟨vector, t, hleads, hready, hserved, hless, -⟩ := h.round ⟨2, hfirst⟩ ha
      exact ⟨vector, t, hleads, hready, hserved, hless⟩
    · have hcascade := Board.Step.cascade b ⟨line, hpending⟩
      have hready' : Board.Ready { b with pic := update b.pic .pic1 ((b.pic .pic1).raise 2) } :=
        ⟨h.holds.step hcascade, h.idle, h.enabled⟩
      have ha' : Board.Awaits { b with pic := update b.pic .pic1 ((b.pic .pic1).raise 2) } .pic2
          line := ha.congr (masked_update b .pic1 rfl) ha.requested
      have hfirst : 2 ∈ ((b.pic .pic1).raise 2).pending :=
        Controller.mem_pending.mpr ⟨Finset.mem_insert_self _ _, ha.cascade rfl, fun s hs => by
          rw [Controller.raise, hempty] at hs
          exact absurd hs (Finset.notMem_empty s)⟩
      obtain ⟨vector, t, hleads, hready, hserved, -, hless⟩ := hready'.round ⟨2, hfirst⟩ ha'
      refine ⟨vector, t, (Board.Leads.step hcascade trivial).trans hleads, hready, hserved, ?_⟩
      have hmore : Board.waiting { b with pic := update b.pic .pic1 ((b.pic .pic1).raise 2) } =
          1 + b.waiting := by
        change ∑ l ∈ insert 2 (b.pic .pic1).requested, weight l +
          2 * (b.pic .pic2).requested.card = _
        rw [Finset.sum_insert htwo, Nat.add_assoc]
        rfl
      have hless := hless ⟨line, hpending⟩
      omega

end Rounds

/-- A request that no mask is in the way of is served, without any further help of the devices or
of the kernel and whatever else is requested, wherever interrupts are enabled or a handler is
still running. -/
theorem requests_are_served {b : Board} (h : serviceSystem.Reachable b)
    (hon : b.activations = [] → b.interrupts = true) {chip : Chip} {line : Fin 8}
    (ha : b.Awaits chip line) :
    ∃ ls t, serviceSystem.Run b ls t ∧ (∀ e ∈ ls, e.Own) ∧ vectorOf chip line ∈ taken ls ∧
      t.activations = [] ∧ t.interrupts = true := by
  have hserved (n : Nat) : ∀ b : Board, b.Ready → b.Awaits chip line → b.waiting < n →
      ∃ vectors t, b.Leads vectors t ∧ vectorOf chip line ∈ vectors ∧ t.Ready := by
    induction n with
    | zero => exact fun b _ _ hless => absurd hless (Nat.not_lt_zero _)
    | succ n ih =>
      intro b hready ha hless
      obtain ⟨vector, t, hleads, hready', hserved | ha', hfewer⟩ := hready.advance ha
      · exact ⟨[vector], t, hleads, hserved ▸ List.mem_singleton_self _, hready'⟩
      · obtain ⟨vectors, u, hleads', hmem, hready''⟩ := ih t hready' ha' (by omega)
        exact ⟨_, u, hleads.trans hleads', List.mem_append_right _ hmem, hready''⟩
  obtain ⟨t, hleads, hready, hsame⟩ : ∃ t, b.Leads [] t ∧ t.Ready ∧ b.Same t := by
    have hholds := reachable_boardHolds h
    cases reachable_boardHolds h with
    | idle hnone => exact ⟨b, .refl b, ⟨hholds, hnone, hon hnone⟩, fun _ => ⟨rfl, rfl⟩⟩
    | serving a hone hserving => exact hserving.returns_ready hone
  have ha' : t.Awaits chip line :=
    ha.congr (fun chip => (hsame chip).2) ((hsame chip).1 ▸ ha.requested)
  obtain ⟨vectors, u, hmore, hmem, hready'⟩ := hserved _ t hready ha' (Nat.lt_succ_self _)
  obtain ⟨ls, hrun, hown, htaken⟩ := hleads.trans hmore
  refine ⟨ls, u, hrun, hown, ?_, hready'.idle, hready'.enabled⟩
  rw [htaken]
  exact List.mem_append_right _ hmem

/-- That of the second controller, behind the timer's. -/
theorem requests_are_served_cascaded :
    ∃ ls t, serviceSystem.Run someBoard ls t ∧ (∀ e ∈ ls, e.Own) ∧ 0x28 ∈ taken ls ∧
      t.activations = [] ∧ t.interrupts = true :=
  requests_are_served (.init someBoard_init) (fun _ => rfl)
    (show someBoard.Awaits .pic2 0 from ⟨by decide, rfl, nofun, fun _ => rfl⟩)

end AlvOS.Interrupts
