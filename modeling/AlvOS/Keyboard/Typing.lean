import AlvOS.Keyboard.Count
import AlvOS.Keyboard.Layout

/-! From the keys to the reader.  Interrupts with scancodes come between any two accesses of the
consumer, and what it is returned is the text they stand for, as far as the buffer has held it. -/

namespace AlvOS.Keyboard
open Transition

/-- The session, with the scancodes that have come in and how many characters were lost. -/
structure Typing where
  session : Session
  scancodes : List UInt8
  lost : Nat

inductive KeyStep
  | key (scancode : UInt8)
  | call (call : Call)
  | access

def KeyStep.IsReader : KeyStep → Prop
  | .key _ => False
  | .call _ | .access => True

def Typing.key (t : Typing) (scancode : UInt8) : Typing :=
  let k := t.session.keyboard
  { session := { t.session with
      keyboard := keyboardHandler k scancode
      accepted := t.session.accepted ++ (keyChars k scancode).filter (¬Rejects k ·) }
    scancodes := t.scancodes ++ [scancode]
    lost := t.lost + (keyChars k scancode).countP (Rejects k ·) }

def keySystem (k : Driver) : System Typing KeyStep where
  init t := t = ⟨⟨k, .idle, [], []⟩, [], 0⟩ ∧ k.readPos = k.writePos ∧
    k.readPos < keyboardBufferSize
  step t l u := match l with
    | .key scancode => u = t.key scancode
    | .call call => t.session.consumer = .idle ∧
        u = { t with session := { t.session with consumer := .testRead call } }
    | .access => u = { t with session := t.session.access }

structure Typing.Holds (k : Driver) (t : Typing) : Prop where
  reachable : sessionSystem.Reachable t.session
  keys : SameKeys t.session.keyboard (t.scancodes.foldl keyboardHandler k)
  sublist : t.session.accepted.Sublist (emitted k t.scancodes)
  length : t.session.accepted.length + t.lost = (emitted k t.scancodes).length
  full : t.lost ≠ 0 → 255 ≤ t.session.accepted.length

section Holds
variable {k : Driver} {t u : Typing} {scancode : UInt8}

theorem emitted_concat (hkeys : SameKeys t.session.keyboard (t.scancodes.foldl keyboardHandler k))
    (scancode : UInt8) : emitted k (t.scancodes ++ [scancode]) =
      emitted k t.scancodes ++ keyChars t.session.keyboard scancode := by
  rw [emitted_append, emitted, emitted, List.append_nil, keyChars, keyChars, hkeys.keyAscii_eq]

theorem key_cases (t : Typing) (scancode : UInt8) :
    (keyChars t.session.keyboard scancode = [] ∧ ∃ shift ctrl alt caps, t.key scancode =
      ⟨t.session.modifiers shift ctrl alt caps, t.scancodes ++ [scancode], t.lost⟩) ∨
    ∃ c, keyChars t.session.keyboard scancode = [c] ∧ t.key scancode =
      ⟨t.session.push c, t.scancodes ++ [scancode],
        t.lost + if Rejects t.session.keyboard c then 1 else 0⟩ := by
  unfold Typing.key keyChars
  by_cases hnone : keyAscii t.session.keyboard scancode = 0
  · obtain ⟨shift, ctrl, alt, caps, hkeys⟩ := keyboardHandler_none hnone
    refine .inl ⟨if_pos hnone, shift, ctrl, alt, caps, ?_⟩
    simp [hnone, hkeys, Session.modifiers]
  · refine .inr ⟨_, if_neg hnone, ?_⟩
    dsimp only
    rw [if_neg hnone, keyboardHandler_char hnone, Session.push]
    split_ifs with hfull
    · simp [hfull]
    · simp [hfull]

theorem Typing.Holds.key (h : t.Holds k) (scancode : UInt8) : (t.key scancode).Holds k := by
  have hkeys : SameKeys (t.key scancode).session.keyboard
      ((t.scancodes ++ [scancode]).foldl keyboardHandler k) := by
    rw [List.foldl_append]
    exact h.keys.keyboardHandler scancode
  have htext := emitted_concat h.keys scancode
  have hlength := h.length
  rcases key_cases t scancode with ⟨hchars, shift, ctrl, alt, caps, heq⟩ | ⟨c, hchars, heq⟩
  · rw [hchars, List.append_nil] at htext
    rw [heq] at hkeys ⊢
    exact ⟨h.reachable.step (l := .modifiers shift ctrl alt caps) rfl, hkeys, htext ▸ h.sublist,
      htext ▸ hlength, h.full⟩
  · rw [hchars] at htext
    rw [heq] at hkeys ⊢
    obtain ⟨pending, hs⟩ := reachable_holds h.reachable
    have hfull := (rejects_iff hs c).trans hs.ring.full_iff
    have haccepted := congrArg List.length hs.accepted
    rw [List.length_append] at haccepted
    have hreach : sessionSystem.Reachable (t.session.push c) :=
      h.reachable.step (l := .push c) rfl
    refine ⟨hreach, hkeys, ?_, ?_, ?_⟩
    all_goals dsimp only [Session.push]; split_ifs with hrejects
    · exact htext ▸ h.sublist.trans (List.sublist_append_left _ _)
    · exact htext ▸ h.sublist.append (.refl _)
    · rw [htext, List.length_append, List.length_singleton]
      omega
    · rw [htext, List.length_append, List.length_append]
      omega
    · have hlength := hfull.mp hrejects
      rw [keyboardBufferSize] at hlength
      omega
    · intro hlost
      have := h.full hlost
      rw [List.length_append]
      omega

theorem sameKeys_access (s : Session) : SameKeys s.access.keyboard s.keyboard := by
  obtain ⟨k, consumer, accepted, returned⟩ := s
  cases consumer
  all_goals exact ⟨rfl, rfl⟩

theorem Typing.Holds.step (h : t.Holds k) {l : KeyStep} (hstep : (keySystem k).step t l u) :
    u.Holds k := by
  cases l with
  | key scancode =>
    obtain rfl : u = t.key scancode := hstep
    exact h.key scancode
  | call call =>
    obtain ⟨hidle, rfl⟩ := hstep
    exact ⟨h.reachable.step (l := .call call) ⟨hidle, rfl⟩, h.keys, h.sublist, h.length, h.full⟩
  | access =>
    obtain rfl : u = { t with session := t.session.access } := hstep
    have hreach : sessionSystem.Reachable t.session.access :=
      h.reachable.step (l := .access) rfl
    have hkeys := sameKeys_access t.session
    exact ⟨hreach, ⟨hkeys.shift.trans h.keys.shift, hkeys.caps.trans h.keys.caps⟩, h.sublist,
      h.length, h.full⟩

theorem holds_of_reachable (h : (keySystem k).Reachable t) : t.Holds k := by
  refine h.invariant (P := Typing.Holds k) ?_ fun ht hstep => ht.step hstep
  rintro _ ⟨rfl, hempty, hlt⟩
  exact ⟨.init ⟨hempty, hlt, rfl, rfl, rfl⟩, ⟨rfl, rfl⟩, .refl [], rfl, fun h => absurd rfl h⟩

end Holds

def Consumer.rank : Consumer → Nat
  | .testRead .hasInput => 9
  | .testWrite .hasInput _ => 8
  | .idle => 7
  | .testRead _ => 6
  | .testWrite _ _ => 5
  | .index => 4
  | .load _ => 3
  | .nextRead _ => 2
  | .advance _ _ => 1

def Session.rank (s : Session) : Nat := 10 * s.pendingCount + s.consumer.rank

section Delivery
variable {s : Session} {pending : List UInt8}

theorem access_cases (hs : s.Holds pending) (hne : pending ≠ []) (hbusy : s.consumer ≠ .idle) :
    (s.access.returned = s.returned ∧ s.access.consumer.rank < s.consumer.rank) ∨
    ∃ c, pending.head? = some c ∧ s.access.returned = s.returned ++ [c] ∧
      s.access.consumer = .idle := by
  have hknows := hs.knows
  have hempty := hs.ring.empty_iff
  obtain ⟨k, consumer, accepted, returned⟩ := s
  dsimp only at hknows hempty
  have hquiet : returned ++ [] = returned := List.append_nil _
  cases consumer with
  | idle => exact absurd rfl hbusy
  | testRead call => exact .inl ⟨hquiet, by cases call <;> exact Nat.lt_succ_self _⟩
  | testWrite call r =>
    obtain rfl : r = k.readPos := hknows
    have hdiffer := mt hempty.mp hne
    refine .inl ?_
    cases call with
    | hasInput => exact ⟨hquiet, Nat.lt_succ_self _⟩
    | getchar =>
      simp only [Session.access, Consumer.access, Consumer.compare, if_neg hdiffer]
      exact ⟨hquiet, Nat.lt_succ_self _⟩
    | getcharNonblock =>
      simp only [Session.access, Consumer.access, Consumer.compare, if_neg hdiffer]
      exact ⟨hquiet, Nat.lt_succ_self _⟩
  | index => exact .inl ⟨hquiet, Nat.lt_succ_self _⟩
  | load i => exact .inl ⟨hquiet, Nat.lt_succ_self _⟩
  | nextRead c => exact .inl ⟨hquiet, Nat.lt_succ_self _⟩
  | advance c r => exact .inr ⟨c, hknows.1, rfl, rfl⟩

/-- The consumer can go on until it has been returned everything. -/
theorem step_rank {k : Driver} {t : Typing} (h : t.Holds k)
    (hmore : t.session.returned ≠ t.session.accepted) :
    ∃ (l : KeyStep) (u : Typing), l.IsReader ∧ (keySystem k).step t l u ∧
      (u.Holds k ∧ u.session.accepted = t.session.accepted) ∧ u.session.rank < t.session.rank := by
  obtain ⟨pending, hs⟩ := reachable_holds h.reachable
  have hne : pending ≠ [] := by
    rintro rfl
    exact hmore (hs.accepted.trans (List.append_nil _)).symm
  by_cases hidle : t.session.consumer = .idle
  · have hstep : (keySystem k).step t (.call .getchar) _ := ⟨hidle, rfl⟩
    refine ⟨.call .getchar, _, trivial, hstep, ⟨h.step hstep, rfl⟩, ?_⟩
    unfold Session.rank
    rw [hidle]
    exact Nat.add_lt_add_left (Nat.lt_succ_self _) _
  · have hstep : (keySystem k).step t .access _ := rfl
    refine ⟨.access, _, trivial, hstep, ⟨h.step hstep, rfl⟩, ?_⟩
    have haccepted : t.session.access.accepted = t.session.accepted := rfl
    have hcount := hs.pendingCount_eq
    have hpos : 0 < pending.length := List.length_pos_iff.mpr hne
    unfold Session.rank
    unfold Session.pendingCount at hcount ⊢
    dsimp only
    rw [haccepted]
    obtain ⟨hsame, hrank⟩ | ⟨c, -, hreturned, hconsumer⟩ := access_cases hs hne hidle
    · rw [hsame]
      omega
    · rw [hreturned, hconsumer, List.length_append, List.length_singleton, Consumer.rank]
      omega

theorem exists_delivery {k : Driver} {t : Typing} (h : t.Holds k) :
    ∃ (ls : List KeyStep) (u : Typing), (∀ l ∈ ls, l.IsReader) ∧ (keySystem k).Run t ls u ∧
      u.session.returned = t.session.accepted := by
  obtain ⟨ls, u, hls, hrun, ⟨-, haccepted⟩, hall⟩ := System.exists_run_of_rank
    (P := fun u : Typing => u.Holds k ∧ u.session.accepted = t.session.accepted)
    (Q := fun u : Typing => u.session.returned = u.session.accepted) (fun u => u.session.rank)
    (fun ⟨hu, haccepted⟩ hmore => by
      obtain ⟨l, v, hl, hstep, ⟨hv, hsame⟩, hrank⟩ := step_rank hu hmore
      exact ⟨l, v, hl, hstep, ⟨hv, hsame.trans haccepted⟩, hrank⟩) ⟨h, rfl⟩
  exact ⟨ls, u, hls, hrun, hall.trans haccepted⟩

end Delivery

def KeyStep.isAccess : KeyStep → Bool
  | .access => true
  | .key _ | .call _ => false

section Response
variable {k : Driver} {t u : Typing} {ls : List KeyStep}

theorem returned_grows (hrun : (keySystem k).Run t ls u) :
    t.session.returned <+: u.session.returned := by
  refine hrun.preserves (P := fun u => t.session.returned <+: u.session.returned)
    (fun {a l b} ha hstep => ?_) (List.prefix_refl _)
  cases l with
  | key scancode =>
    obtain rfl : b = a.key scancode := hstep
    exact ha
  | call call =>
    obtain ⟨-, rfl⟩ := hstep
    exact ha
  | access =>
    obtain rfl : b = { a with session := a.session.access } := hstep
    exact ha.trans (List.prefix_append _ _)

theorem Typing.Holds.responds (ht : t.Holds k) {c : UInt8}
    (hnext : t.session.returned ++ [c] <+: t.session.accepted)
    (hfetch : t.session.consumer.rank < Consumer.idle.rank) (hrun : (keySystem k).Run t ls u)
    (hcount : t.session.consumer.rank ≤ ls.countP KeyStep.isAccess) :
    t.session.returned ++ [c] <+: u.session.returned := by
  have hbusy {s : Session} (hs : s.consumer.rank < Consumer.idle.rank) : s.consumer ≠ .idle := by
    rintro hidle
    rw [hidle] at hs
    exact absurd hs (Nat.lt_irrefl _)
  induction hrun with
  | nil t =>
    have hpos : 0 < t.session.consumer.rank := by
      unfold Consumer.rank
      split
      all_goals decide
    exact absurd (hpos.trans_le hcount) (Nat.lt_irrefl 0)
  | @cons t v u l ls hstep hrun ih =>
    have hv := ht.step hstep
    cases l with
    | key scancode =>
      obtain rfl : v = t.key scancode := hstep
      exact ih hv (hnext.trans (List.prefix_append _ _)) hfetch hcount
    | call call => exact absurd hstep.1 (hbusy hfetch)
    | access =>
      obtain rfl : v = { t with session := t.session.access } := hstep
      obtain ⟨pending, hs⟩ := reachable_holds ht.reachable
      rw [hs.accepted, List.prefix_append_right_inj] at hnext
      obtain ⟨rest, rfl⟩ := hnext
      rw [List.countP_cons_of_pos rfl] at hcount
      obtain ⟨hsame, hrank⟩ | ⟨d, hd, hreturned, -⟩ :=
        access_cases hs (List.cons_ne_nil c rest) (hbusy hfetch)
      · have hnext : t.session.access.returned ++ [c] <+: t.session.accepted := by
          rw [hsame, hs.accepted, List.prefix_append_right_inj]
          exact List.prefix_append _ _
        exact hsame ▸ ih hv hnext (hrank.trans hfetch) (by dsimp only; omega)
      · obtain rfl := Option.some.inj hd
        exact hreturned ▸ returned_grows hrun

end Response

/-- While something is pending, a fetch returns the oldest character after six accesses of its own,
however many interrupts come between them. -/
theorem fetch_responds {k : Driver} {t u : Typing} (h : (keySystem k).Reachable t) {call : Call}
    (hcall : call ≠ .hasInput) (hconsumer : t.session.consumer = .testRead call)
    (hmore : t.session.returned ≠ t.session.accepted) {ls : List KeyStep}
    (hrun : (keySystem k).Run t ls u) (hcount : 6 ≤ ls.countP KeyStep.isAccess) :
    ∃ c, t.session.returned ++ [c] <+: t.session.accepted ∧
      t.session.returned ++ [c] <+: u.session.returned := by
  have ht := holds_of_reachable h
  obtain ⟨pending, hs⟩ := reachable_holds ht.reachable
  have hrank : t.session.consumer.rank = 6 := by
    rw [hconsumer]
    cases call with
    | hasInput => exact absurd rfl hcall
    | getchar => rfl
    | getcharNonblock => rfl
  cases pending with
  | nil => exact absurd (hs.accepted.trans (List.append_nil _)).symm hmore
  | cons c rest =>
    have hnext : t.session.returned ++ [c] <+: t.session.accepted := by
      rw [hs.accepted, List.prefix_append_right_inj]
      exact List.prefix_append _ _
    exact ⟨c, hnext, ht.responds hnext (hrank ▸ Nat.lt_succ_self 6) hrun (hrank ▸ hcount)⟩

def bootTyping : Typing := ⟨bootSession, [], 0⟩

theorem bootTyping_reachable : (keySystem .linked).Reachable bootTyping :=
  .init ⟨rfl, rfl, by decide⟩

theorem typedA_reachable : (keySystem .linked).Reachable (bootTyping.key 0x1E) :=
  bootTyping_reachable.step (l := .key 0x1E) rfl

def fetchingA : Typing :=
  { bootTyping.key 0x1E with
    session := { (bootTyping.key 0x1E).session with consumer := .testRead .getchar } }

theorem fetchingA_reachable : (keySystem .linked).Reachable fetchingA :=
  typedA_reachable.step (l := .call .getchar) ⟨rfl, rfl⟩

/-- The key comes up in the middle of the call. -/
theorem fetch_responds_a : ∃ u c, (keySystem .linked).Run fetchingA
    [.access, .access, .key 0x9E, .access, .access, .access, .access] u ∧
    fetchingA.session.returned ++ [c] <+: u.session.returned := by
  obtain ⟨u, hrun⟩ : ∃ u, (keySystem .linked).Run fetchingA
      [.access, .access, .key 0x9E, .access, .access, .access, .access] u :=
    ⟨_, .cons rfl <| .cons rfl <| .cons rfl <| .cons rfl <| .cons rfl <| .cons rfl <|
      .cons rfl <| .nil _⟩
  have hcall : Call.getchar ≠ .hasInput := nofun
  obtain ⟨c, -, hreturned⟩ :=
    fetch_responds fetchingA_reachable hcall rfl (by decide) hrun (by decide)
  exact ⟨u, c, hrun, hreturned⟩

/-- In every interleaving what is returned is the beginning of what was accepted, and that is the
text of the scancodes but for the characters that found the buffer full, none of them among the
first 255; and from any state the consumer can be returned all of it by calls of its own. -/
theorem keys_arrive {k : Driver} {t : Typing} (h : (keySystem k).Reachable t) :
    t.session.returned <+: t.session.accepted ∧
    t.session.accepted.Sublist (emitted k t.scancodes) ∧
    t.session.accepted.length + t.lost = (emitted k t.scancodes).length ∧
    (t.lost ≠ 0 → 255 ≤ t.session.accepted.length) ∧
    ∃ (ls : List KeyStep) (u : Typing), (∀ l ∈ ls, l.IsReader) ∧ (keySystem k).Run t ls u ∧
      u.session.returned = t.session.accepted := by
  have ht := holds_of_reachable h
  obtain ⟨pending, hs⟩ := reachable_holds ht.reachable
  exact ⟨⟨pending, hs.accepted.symm⟩, ht.sublist, ht.length, ht.full, exists_delivery ht⟩

theorem keys_arrive_a : ∃ t, (keySystem .linked).Reachable t ∧
    t.session.accepted = [char 'a'] ∧ t.session.returned <+: t.session.accepted :=
  ⟨_, typedA_reachable, by decide, (keys_arrive typedA_reachable).1⟩

end AlvOS.Keyboard
