import AlvOS.Lib.Word
import AlvOS.Keyboard.Preemption

/-! `keyboard_buffer_count` under preemption.  The write position is read twice and may have
moved in between, also past the end of the buffer; the difference is still right in eight
bits. -/

namespace AlvOS.Keyboard
open Transition Word

inductive Position
  | write | read
deriving DecidableEq

/-- The operands of an expression that have been read; C leaves their order open. -/
structure Operands where
  writePos : Option Nat
  readPos : Option Nat

def Operands.none : Operands := ⟨.none, .none⟩

def Operands.load (k : Driver) (o : Operands) : Position → Operands
  | .write => { o with writePos := some k.writePos }
  | .read => { o with readPos := some k.readPos }

/-- Where the call is: at the comparison, at the subtraction on one of its branches, or done. -/
inductive CountCall
  | compare (o : Operands)
  | subtract (ahead : Bool) (o : Operands)
  | returned (n : Nat)

/-- `buffer_write_pos - buffer_read_pos`, or `KEYBOARD_BUFFER_SIZE - buffer_read_pos +
buffer_write_pos`: a `size_t`, returned as a `uint8_t`. -/
def positionDifference (ahead : Bool) (writePos readPos : Nat) : Nat :=
  if ahead then u64 (writePos + (2 ^ 64 - readPos)) % 256
  else u64 (u64 (keyboardBufferSize + (2 ^ 64 - readPos)) + writePos) % 256

/-- One read of a position; with the second of an expression it is evaluated. -/
def CountCall.access (k : Driver) (p : Position) : CountCall → CountCall
  | .compare o =>
    match o.load k p with
    | ⟨some w, some r⟩ => .subtract (r ≤ w) .none
    | o => .compare o
  | .subtract ahead o =>
    match o.load k p with
    | ⟨some w, some r⟩ => .returned (positionDifference ahead w r)
    | o => .subtract ahead o
  | .returned n => .returned n

def CountCall.Unread (p : Position) : CountCall → Prop
  | .compare o | .subtract _ o =>
    match p with
    | .write => o.writePos = .none
    | .read => o.readPos = .none
  | .returned _ => False

/-- The driver with the call, and the number of characters that were pending when the write
position was last read. -/
structure Counting where
  session : Session
  call : CountCall
  seen : Nat

def Session.pendingCount (s : Session) : Nat := s.accepted.length - s.returned.length

def Step.IsHandler : Step → Prop
  | .push _ | .modifiers _ _ _ _ => True
  | .call _ | .access => False

inductive CountStep
  | interrupt (l : Step)
  | access (p : Position)

def Counting.access (c : Counting) (p : Position) : Counting :=
  { c with
    call := c.call.access c.session.keyboard p
    seen := if p = .write then c.session.pendingCount else c.seen }

/-- The call is made in any reachable state of the driver, by the code that else reads
characters; only the handler runs before it returns. -/
def countSystem : System Counting CountStep where
  init c := sessionSystem.Reachable c.session ∧ c.session.consumer = .idle ∧
    c.call = .compare .none
  step c l c' := match l with
    | .interrupt l => l.IsHandler ∧ sessionSystem.step c.session l c'.session ∧
        c'.call = c.call ∧ c'.seen = c.seen
    | .access p => c.call.Unread p ∧ c' = c.access p

def CountCall.Knows (readPos pending seen : Nat) : CountCall → Prop
  | .compare o => (∀ r ∈ o.readPos, r = readPos) ∧
      ∀ w ∈ o.writePos, w = (readPos + seen) % 256 ∧ seen ≤ pending
  | .subtract ahead o => (∀ r ∈ o.readPos, r = readPos) ∧ seen ≤ pending ∧
      (∀ w ∈ o.writePos, w = (readPos + seen) % 256) ∧ (ahead = false → 256 ≤ readPos + seen)
  | .returned n => n = seen

structure Counting.Holds (c : Counting) (pending : List UInt8) : Prop where
  session : c.session.Holds pending
  knows : c.call.Knows c.session.keyboard.readPos pending.length c.seen

section Holds
variable {c c' : Counting} {pending : List UInt8} {readPos n m seen : Nat} {call : CountCall}

theorem positionDifference_eq {ahead : Bool} (hread : readPos < 256) (hseen : seen < 256)
    (hahead : ahead = false → 256 ≤ readPos + seen) :
    positionDifference ahead ((readPos + seen) % 256) readPos = seen := by
  unfold positionDifference u64 keyboardBufferSize
  cases ahead with
  | false =>
    have := hahead rfl
    rw [if_neg Bool.false_ne_true]
    omega
  | true =>
    rw [if_pos rfl]
    omega

theorem CountCall.Knows.mono (h : call.Knows readPos n seen) (hle : n ≤ m) :
    call.Knows readPos m seen := by
  cases call with
  | compare o => exact ⟨h.1, fun w hw => ⟨(h.2 w hw).1, (h.2 w hw).2.trans hle⟩⟩
  | subtract ahead o => exact ⟨h.1, h.2.1.trans hle, h.2.2⟩
  | returned k => exact h

theorem Session.Holds.pendingCount_eq {s : Session} (h : s.Holds pending) :
    s.pendingCount = pending.length := by
  rw [Session.pendingCount, h.accepted, List.length_append, Nat.add_sub_cancel_left]

theorem Session.Holds.handler {s t : Session} (h : s.Holds pending) {l : Step}
    (hl : l.IsHandler) (hstep : sessionSystem.step s l t) :
    ∃ pending', t.Holds pending' ∧ t.keyboard.readPos = s.keyboard.readPos ∧
      pending.length ≤ pending'.length := by
  obtain ⟨pending', ht⟩ := h.step hstep
  have hbefore := h.pendingCount_eq
  have hafter := ht.pendingCount_eq
  cases l with
  | push c =>
    obtain rfl : t = s.push c := hstep
    refine ⟨pending', ht, ?_, ?_⟩
    · change (bufferPush s.keyboard c).readPos = s.keyboard.readPos
      rw [bufferPush]
      split_ifs
      · rfl
      · rfl
    · rw [← hbefore, ← hafter]
      apply Nat.sub_le_sub_right
      change s.accepted.length ≤ (if Rejects s.keyboard c then s.accepted
        else s.accepted ++ [c]).length
      split_ifs
      · exact le_refl _
      · rw [List.length_append]
        exact Nat.le_add_right _ _
  | modifiers shift ctrl alt caps =>
    obtain rfl : t = s.modifiers shift ctrl alt caps := hstep
    refine ⟨pending', ht, rfl, ?_⟩
    rw [← hbefore, ← hafter]
    exact le_refl _
  | call call => exact hl.elim
  | access => exact hl.elim

theorem wraps_of_lt (hn : n < 256) (hlt : ¬readPos ≤ (readPos + n) % 256) :
    256 ≤ readPos + n := by omega

section Access
variable {k : Driver} {o : Operands} {p : Position} {ahead : Bool}

theorem CountCall.Knows.compare_access (hwrite : k.writePos = (k.readPos + n) % 256)
    (hfits : n < 256) (h : (CountCall.compare o).Knows k.readPos n seen)
    (hunread : (CountCall.compare o).Unread p) :
    ((CountCall.compare o).access k p).Knows k.readPos n (if p = .write then n else seen) := by
  obtain ⟨w, r⟩ := o
  obtain ⟨hr, hw⟩ := h
  dsimp only at hr hw
  cases p with
  | write =>
    obtain rfl : w = none := hunread
    rw [if_pos rfl]
    cases r with
    | none => exact ⟨hr, fun w hw => ⟨(Option.mem_some.mp hw) ▸ hwrite, le_refl _⟩⟩
    | some r =>
      obtain rfl : r = k.readPos := hr r rfl
      refine ⟨nofun, le_refl _, nofun, fun hahead => wraps_of_lt hfits ?_⟩
      rw [← hwrite]
      exact of_decide_eq_false hahead
  | read =>
    obtain rfl : r = none := hunread
    rw [if_neg (by decide)]
    cases w with
    | none => exact ⟨fun r hr => (Option.mem_some.mp hr).symm, nofun⟩
    | some w =>
      obtain ⟨rfl, hle⟩ := hw w rfl
      exact ⟨nofun, hle, nofun, fun hahead =>
        wraps_of_lt (by omega) (of_decide_eq_false hahead)⟩

/-- What is subtracted agrees with the comparison, although more may be pending by then. -/
theorem CountCall.Knows.subtract_access (hwrite : k.writePos = (k.readPos + n) % 256)
    (hread : k.readPos < 256) (hfits : n < 256)
    (h : (CountCall.subtract ahead o).Knows k.readPos n seen)
    (hunread : (CountCall.subtract ahead o).Unread p) :
    ((CountCall.subtract ahead o).access k p).Knows k.readPos n (if p = .write then n else seen) := by
  obtain ⟨w, r⟩ := o
  obtain ⟨hr, hle, hw, hahead⟩ := h
  dsimp only at hr hw
  cases p with
  | write =>
    obtain rfl : w = none := hunread
    have hahead' : ahead = false → 256 ≤ k.readPos + n := fun hfalse => by
      have := hahead hfalse
      omega
    rw [if_pos rfl]
    cases r with
    | none => exact ⟨hr, le_refl _, fun w hw => (Option.mem_some.mp hw) ▸ hwrite, hahead'⟩
    | some r =>
      obtain rfl : r = k.readPos := hr r rfl
      change positionDifference ahead k.writePos _ = n
      rw [hwrite]
      exact positionDifference_eq hread hfits hahead'
  | read =>
    obtain rfl : r = none := hunread
    rw [if_neg (by decide)]
    cases w with
    | none => exact ⟨fun r hr => (Option.mem_some.mp hr).symm, hle, nofun, hahead⟩
    | some w =>
      obtain rfl := hw w rfl
      exact positionDifference_eq hread (by omega) hahead

end Access

theorem Counting.Holds.access (h : c.Holds pending) (p : Position) (hunread : c.call.Unread p) :
    (c.access p).Holds pending := by
  obtain ⟨session, call, seen⟩ := c
  obtain ⟨hsession, hknows⟩ := h
  have hwrite : session.keyboard.writePos =
      (session.keyboard.readPos + pending.length) % 256 := hsession.ring.write_eq
  have hfits : pending.length < 256 := hsession.ring.fits
  refine ⟨hsession, ?_⟩
  dsimp only [Counting.access] at hknows hunread ⊢
  rw [hsession.pendingCount_eq]
  cases call with
  | compare o => exact hknows.compare_access hwrite hfits hunread
  | subtract ahead o => exact hknows.subtract_access hwrite hsession.ring.read_lt hfits hunread
  | returned n => exact hunread.elim

theorem Counting.Holds.step (h : c.Holds pending) {l : CountStep} (hstep : countSystem.step c l c') :
    ∃ pending', c'.Holds pending' := by
  cases l with
  | interrupt l =>
    obtain ⟨hl, hstep, hcall, hseen⟩ := hstep
    obtain ⟨pending', hsession, hread, hle⟩ := h.session.handler hl hstep
    refine ⟨pending', hsession, ?_⟩
    rw [hcall, hseen, hread]
    exact h.knows.mono hle
  | access p =>
    obtain ⟨hunread, rfl⟩ := hstep
    exact ⟨pending, h.access p hunread⟩

theorem exists_counting (h : countSystem.Reachable c) : ∃ pending, c.Holds pending := by
  refine h.invariant (P := fun c => ∃ pending, c.Holds pending) ?_ ?_
  · rintro ⟨session, call, seen⟩ ⟨hreach, -, hcall⟩
    obtain ⟨pending, hsession⟩ := reachable_holds hreach
    refine ⟨pending, hsession, ?_⟩
    dsimp only at hcall ⊢
    rw [hcall]
    exact ⟨nofun, nofun⟩
  · rintro c l c' ⟨pending, hc⟩ hstep
    exact hc.step hstep

end Holds

/-- However the handler comes in between and in whatever order the operands are read, the call
returns the number of characters that were pending at its last read of the write position. -/
theorem count_is_exact {c : Counting} (h : countSystem.Reachable c) {n : Nat}
    (hreturned : c.call = .returned n) : n = c.seen := by
  obtain ⟨pending, hc⟩ := exists_counting h
  have hknows := hc.knows
  rw [hreturned] at hknows
  exact hknows

theorem reachable_access {c : Counting} (h : countSystem.Reachable c) (p : Position)
    (hunread : c.call.Unread p) : countSystem.Reachable (c.access p) :=
  h.step (l := .access p) ⟨hunread, rfl⟩

/-- A key comes in after the comparison of an empty buffer's positions. -/
theorem count_is_exact_late : ∃ c, countSystem.Reachable c ∧ c.call = .returned 1 ∧
    1 = c.seen := by
  have hstart : countSystem.Reachable ⟨bootSession, .compare .none, 0⟩ :=
    .init ⟨.init ⟨rfl, by decide, rfl, rfl, rfl⟩, rfl, rfl⟩
  have hcompared := reachable_access (reachable_access hstart .write rfl) .read rfl
  have hpushed : countSystem.Reachable
      ⟨bootSession.push (char 'a'), .subtract true .none, 0⟩ :=
    hcompared.step (l := .interrupt (.push (char 'a'))) ⟨trivial, rfl, rfl, rfl⟩
  have hreturned := reachable_access (reachable_access hpushed .write rfl) .read rfl
  exact ⟨_, hreturned, rfl, count_is_exact hreturned rfl⟩

end AlvOS.Keyboard
