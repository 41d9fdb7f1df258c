import AlvOS.Lib.Ring
import AlvOS.Lib.Transition
import AlvOS.Keyboard.Defs

/-! The ring buffer under preemption.  The handler pushes whole characters between any two
accesses of the consumer; what has been accepted and not yet delivered is then at all times
what the ring holds. -/

namespace AlvOS.Keyboard
open Transition Function

/-- The driver, the consumer, and the characters accepted from the one and returned to the
other so far. -/
structure Session where
  keyboard : Driver
  consumer : Consumer
  accepted : List UInt8
  returned : List UInt8

/-- The handler pushes a character or changes what it knows of the modifier keys. -/
inductive Step
  | push (c : UInt8)
  | modifiers (shift ctrl alt caps : Bool)
  | call (call : Call)
  | access

def Rejects (k : Driver) (c : UInt8) : Prop := (bufferPush k c).writePos = k.writePos

instance (k : Driver) (c : UInt8) : Decidable (Rejects k c) := inferInstanceAs (Decidable (_ = _))

def Answer.chars : Option Answer → List UInt8
  | some (.char c) => [c]
  | _ => []

def Session.push (s : Session) (c : UInt8) : Session :=
  { s with
    keyboard := bufferPush s.keyboard c
    accepted := if Rejects s.keyboard c then s.accepted else s.accepted ++ [c] }

def Session.modifiers (s : Session) (shift ctrl alt caps : Bool) : Session :=
  { s with
    keyboard := { s.keyboard with
      shiftPressed := shift
      ctrlPressed := ctrl
      altPressed := alt
      capsLock := caps } }

def Session.access (s : Session) : Session :=
  let r := s.consumer.access s.keyboard
  { s with
    keyboard := r.1
    consumer := r.2.1
    returned := s.returned ++ Answer.chars r.2.2 }

def sessionSystem : System Session Step where
  init s := s.keyboard.readPos = s.keyboard.writePos ∧ s.keyboard.readPos < keyboardBufferSize ∧
    s.consumer = .idle ∧ s.accepted = [] ∧ s.returned = []
  step s l t := match l with
    | .push c => t = s.push c
    | .modifiers shift ctrl alt caps => t = s.modifiers shift ctrl alt caps
    | .call call => s.consumer = .idle ∧ t = { s with consumer := .testRead call }
    | .access => t = s.access

theorem keyboardHandler_eq (k : Driver) (scancode : UInt8) :
    (∃ c, keyboardHandler k scancode = bufferPush k c) ∨
      ∃ shift ctrl alt caps, keyboardHandler k scancode =
        { k with
          shiftPressed := shift
          ctrlPressed := ctrl
          altPressed := alt
          capsLock := caps } := by
  rw [keyboardHandler]
  split
  case h_10 =>
    -- a release, a key with a character, a key without one
    split_ifs
    · exact .inr ⟨_, _, _, _, rfl⟩
    · exact .inl ⟨_, rfl⟩
    · exact .inr ⟨_, _, _, _, rfl⟩
  all_goals exact .inr ⟨_, _, _, _, rfl⟩

theorem keyboardHandler_step (s : Session) (scancode : UInt8) :
    ∃ l t, sessionSystem.step s l t ∧ t.keyboard = keyboardHandler s.keyboard scancode ∧
      t.consumer = s.consumer ∧ t.returned = s.returned := by
  rcases keyboardHandler_eq s.keyboard scancode with ⟨c, hpush⟩ | ⟨shift, ctrl, alt, caps, hkeys⟩
  · exact ⟨.push c, s.push c, rfl, hpush.symm, rfl, rfl⟩
  · exact ⟨.modifiers shift ctrl alt caps, s.modifiers shift ctrl alt caps, rfl, hkeys.symm, rfl,
      rfl⟩

def Consumer.Knows (readPos : Nat) (pending : List UInt8) : Consumer → Prop
  | .idle | .testRead _ => True
  | .testWrite _ r => r = readPos
  | .index => pending ≠ []
  | .load i => pending ≠ [] ∧ i = readPos
  | .nextRead c => pending.head? = some c
  | .advance c r => pending.head? = some c ∧ r = readPos

structure Session.Holds (s : Session) (pending : List UInt8) : Prop where
  ring : Ring.Holds keyboardBufferSize s.keyboard.buffer s.keyboard.readPos s.keyboard.writePos
    pending
  knows : s.consumer.Knows s.keyboard.readPos pending
  accepted : s.accepted = s.returned ++ pending

section Holds
variable {s t : Session} {pending : List UInt8}

theorem rejects_iff (h : s.Holds pending) (c : UInt8) :
    Rejects s.keyboard c ↔ (s.keyboard.writePos + 1) % keyboardBufferSize = s.keyboard.readPos := by
  rw [Rejects, bufferPush]
  by_cases hfull : (s.keyboard.writePos + 1) % keyboardBufferSize = s.keyboard.readPos
  · simp [hfull]
  · have hlt := h.ring.write_lt
    rw [if_pos hfull]
    dsimp only [keyboardBufferSize] at hlt hfull ⊢
    omega

theorem Consumer.Knows.push {consumer : Consumer} {readPos : Nat}
    (h : consumer.Knows readPos pending) (c : UInt8) : consumer.Knows readPos (pending ++ [c]) := by
  have hhead : ∀ d, pending.head? = some d → (pending ++ [c]).head? = some d := by
    intro d hd
    rw [List.head?_append, hd, Option.some_or]
  cases consumer with
  | idle => trivial
  | testRead call => trivial
  | testWrite call r => exact h
  | index => exact List.append_ne_nil_of_left_ne_nil h _
  | load i => exact ⟨List.append_ne_nil_of_left_ne_nil h.1 _, h.2⟩
  | nextRead d => exact hhead d h
  | advance d r => exact ⟨hhead d h.1, h.2⟩

theorem Session.Holds.push (h : s.Holds pending) (c : UInt8) :
    ∃ pending', (s.push c).Holds pending' := by
  by_cases hfull : (s.keyboard.writePos + 1) % keyboardBufferSize = s.keyboard.readPos
  · have hsame : s.push c = s := by
      rw [Session.push, if_pos ((rejects_iff h c).mpr hfull), bufferPush,
        if_neg (not_not_intro hfull)]
    exact ⟨pending, hsame.symm ▸ h⟩
  · have hnext : s.push c =
        { s with
          keyboard := { s.keyboard with
            buffer := update s.keyboard.buffer s.keyboard.writePos c
            writePos := (s.keyboard.writePos + 1) % keyboardBufferSize }
          accepted := s.accepted ++ [c] } := by
      rw [Session.push, if_neg (mt (rejects_iff h c).mp hfull), bufferPush, if_pos hfull]
    rw [hnext]
    refine ⟨pending ++ [c], h.ring.push hfull c, h.knows.push c, ?_⟩
    rw [h.accepted, List.append_assoc]

theorem Session.Holds.access (h : s.Holds pending) : ∃ pending', s.access.Holds pending' := by
  obtain ⟨k, consumer, accepted, returned⟩ := s
  have hring := h.ring
  have hknows := h.knows
  have haccepted := h.accepted
  dsimp only at hring hknows haccepted
  have hquiet : accepted = returned ++ [] ++ pending := by rwa [List.append_nil]
  cases consumer with
  | idle => exact ⟨pending, hring, trivial, hquiet⟩
  | testRead call =>
    exact ⟨pending, hring, rfl, hquiet⟩
  | testWrite call r =>
    -- no interrupt has moved the position that was read before
    obtain rfl : r = k.readPos := hknows
    have hempty := hring.empty_iff
    refine ⟨pending, hring, ?_, ?_⟩
    · cases call <;> simp only [Session.access, Consumer.access, Consumer.compare]
      · trivial
      · split_ifs with heq
        · trivial
        · exact mt hempty.mpr heq
      · split_ifs with heq
        · trivial
        · exact mt hempty.mpr heq
    · have hnone : Answer.chars (Consumer.compare k.readPos k.writePos call).2 = [] := by
        cases call <;> simp only [Consumer.compare]
        · rfl
        · split_ifs <;> rfl
        · split_ifs <;> rfl
      simp only [Session.access, Consumer.access, hnone, List.append_nil]
      exact haccepted
  | index =>
    exact ⟨pending, hring, ⟨hknows, rfl⟩, hquiet⟩
  | load i =>
    -- pushes go to the other end, so the oldest character is still in its slot
    obtain ⟨hne, rfl⟩ := hknows
    obtain ⟨c, rest, rfl⟩ := List.exists_cons_of_ne_nil hne
    refine ⟨c :: rest, hring, ?_, hquiet⟩
    change some c = some (k.buffer k.readPos)
    rw [hring.front]
  | nextRead c =>
    exact ⟨pending, hring, ⟨hknows, rfl⟩, hquiet⟩
  | advance c r =>
    -- this store frees the slot and delivers the character
    obtain ⟨hhead, rfl⟩ := hknows
    obtain ⟨rest, rfl⟩ := List.head?_eq_some_iff.mp hhead
    refine ⟨rest, hring.pop, trivial, ?_⟩
    simp [Session.access, Consumer.access, Answer.chars, haccepted]

theorem Session.Holds.step (h : s.Holds pending) {l : Step} (hstep : sessionSystem.step s l t) :
    ∃ pending', t.Holds pending' := by
  cases l with
  | push c =>
    obtain rfl : t = s.push c := hstep
    exact h.push c
  | modifiers shift ctrl alt caps =>
    obtain rfl : t = s.modifiers shift ctrl alt caps := hstep
    exact ⟨pending, h.ring, h.knows, h.accepted⟩
  | call call =>
    obtain ⟨-, rfl⟩ := hstep
    exact ⟨pending, h.ring, trivial, h.accepted⟩
  | access =>
    obtain rfl : t = s.access := hstep
    exact h.access

theorem reachable_holds (h : sessionSystem.Reachable s) : ∃ pending, s.Holds pending := by
  refine h.invariant (P := fun s => ∃ pending, s.Holds pending) ?_ ?_
  · rintro s ⟨hempty, hlt, hidle, haccepted, hreturned⟩
    refine ⟨[], ?_, ?_, ?_⟩
    · rw [← hempty]
      exact .start hlt
    · rw [hidle]
      trivial
    · rw [haccepted, hreturned]
      rfl
  · rintro a l b ⟨pending, ha⟩ hstep
    exact ha.step hstep

end Holds

/-- In every interleaving the consumer is returned the accepted characters in order, each
of them once.  A character is rejected exactly when 255 are pending, both positions stay
inside the buffer, and the buffer tests empty exactly when nothing is pending, also at the
second of the two accesses that the test takes. -/
theorem buffer_is_fifo {s : Session} (h : sessionSystem.Reachable s) :
    s.returned <+: s.accepted ∧
    (∀ c, Rejects s.keyboard c ↔ s.accepted.length = s.returned.length + 255) ∧
    (∀ c, Rejects s.keyboard c → bufferPush s.keyboard c = s.keyboard) ∧
    s.keyboard.readPos < 256 ∧ s.keyboard.writePos < 256 ∧
    (s.keyboard.readPos = s.keyboard.writePos ↔ s.returned = s.accepted) ∧
    ∀ call readPos, s.consumer = .testWrite call readPos →
      (readPos = s.keyboard.writePos ↔ s.returned = s.accepted) := by
  obtain ⟨pending, hs⟩ := reachable_holds h
  have hempty : s.keyboard.readPos = s.keyboard.writePos ↔ s.returned = s.accepted := by
    rw [hs.ring.empty_iff, hs.accepted, List.self_eq_append_right]
  refine ⟨⟨pending, hs.accepted.symm⟩, fun c => ?_, fun c hreject => ?_, hs.ring.read_lt,
    hs.ring.write_lt, hempty, fun call readPos hconsumer => ?_⟩
  · rw [rejects_iff hs, hs.ring.full_iff, hs.accepted, List.length_append, keyboardBufferSize]
    omega
  · rw [bufferPush, if_neg (not_not_intro ((rejects_iff hs c).mp hreject))]
  · have hknows := hs.knows
    rw [hconsumer] at hknows
    obtain rfl : readPos = s.keyboard.readPos := hknows
    exact hempty

def bootSession : Session :=
  ⟨⟨false, false, false, false, fun _ => 0, 0, 0⟩, .idle, [], []⟩

def splitRead : Session :=
  let called := { (bootSession.push (char 'a')).push (char 'b') with
    consumer := .testRead .getcharNonblock }
  (called.access.access.access.push (char 'c')).access.access.access

theorem splitRead_reachable : sessionSystem.Reachable splitRead := by
  have hstart : sessionSystem.Reachable bootSession := .init ⟨rfl, by decide, rfl, rfl, rfl⟩
  have hpush (s : Session) (c : UInt8) (hs : sessionSystem.Reachable s) :
      sessionSystem.Reachable (s.push c) := hs.step (l := .push c) rfl
  have haccess (s : Session) (hs : sessionSystem.Reachable s) :
      sessionSystem.Reachable s.access := hs.step (l := .access) rfl
  iterate 3 apply haccess
  apply hpush
  iterate 3 apply haccess
  exact (hpush _ _ (hpush _ _ hstart)).step (l := .call .getcharNonblock) ⟨rfl, rfl⟩

theorem buffer_is_fifo_splitRead : splitRead.returned = [char 'a'] ∧
    splitRead.accepted = [char 'a', char 'b', char 'c'] ∧
    splitRead.returned <+: splitRead.accepted ∧ ∀ c, ¬Rejects splitRead.keyboard c := by
  obtain ⟨hreturned, hrejects, -⟩ := buffer_is_fifo splitRead_reachable
  exact ⟨rfl, rfl, hreturned, fun c h => absurd ((hrejects c).mp h) (by decide)⟩

end AlvOS.Keyboard
