import Mathlib.Tactic.SplitIfs
import AlvOS.Lib.Transition
import AlvOS.Keyboard.Defs

/-! The modifier flags of keyboard.c against the keys that are held.  Two keys share each
flag, and the handler clears it when either of them is released. -/

namespace AlvOS.Keyboard
open Transition

def keyboardShiftPressed (k : Driver) : Bool := k.shiftPressed
def keyboardCtrlPressed (k : Driver) : Bool := k.ctrlPressed
def keyboardAltPressed (k : Driver) : Bool := k.altPressed

inductive Pair
  | shift | ctrl | alt
deriving DecidableEq

inductive Side
  | left | right
deriving DecidableEq

def Side.twin : Side → Side
  | .left => .right
  | .right => .left

def Pair.code : Pair → Side → UInt8
  | .shift, .left => 0x2A
  | .shift, .right => 0x36
  | .ctrl, _ => 0x1D
  | .alt, _ => 0x38

def keyPrefix : Pair → Side → List UInt8
  | .ctrl, .right | .alt, .right => [0xE0]
  | _, _ => []

/-- A modifier is pressed or released, or another key, which sends whatever bytes it sends. -/
inductive KeyEvent
  | press (pair : Pair) (side : Side)
  | release (pair : Pair) (side : Side)
  | other (bytes : List UInt8)

def KeyEvent.bytes : KeyEvent → List UInt8
  | .press pair side => keyPrefix pair side ++ [pair.code side]
  | .release pair side => keyPrefix pair side ++ [pair.code side ||| 0x80]
  | .other bytes => bytes

abbrev Keys := Pair → Side → Bool

def KeyEvent.move (held : Keys) : KeyEvent → Keys
  | .press pair side => fun p s => if p = pair ∧ s = side then true else held p s
  | .release pair side => fun p s => if p = pair ∧ s = side then false else held p s
  | .other _ => held

def Keys.any (held : Keys) (pair : Pair) : Bool := held pair .left || held pair .right

def Pair.flag (k : Driver) : Pair → Bool
  | .shift => keyboardShiftPressed k
  | .ctrl => keyboardCtrlPressed k
  | .alt => keyboardAltPressed k

/-- Each flag is set exactly when at least one key of its pair is held. -/
def FlagsMatch (k : Driver) (held : Keys) : Prop := ∀ pair : Pair, pair.flag k = held.any pair

def Pair.sets (pair : Pair) (b : UInt8) : Option Bool :=
  if b = pair.code .left ∨ b = pair.code .right then some true
  else if b = pair.code .left ||| 0x80 ∨ b = pair.code .right ||| 0x80 then some false
  else none

def Pair.lastSet (pair : Pair) (bytes : List UInt8) : Option Bool :=
  (bytes.filterMap pair.sets).getLast?

section Flags
variable {k : Driver} {held : Keys} {pair : Pair} {side : Side}

theorem flag_bufferPush (k : Driver) (c : UInt8) (pair : Pair) :
    pair.flag (bufferPush k c) = pair.flag k := by
  unfold bufferPush
  cases pair
  all_goals dsimp only; split_ifs; all_goals rfl

theorem flag_keyboardHandler (k : Driver) (b : UInt8) (pair : Pair) :
    pair.flag (keyboardHandler k b) = (pair.sets b).getD (pair.flag k) := by
  unfold keyboardHandler
  split
  case h_10 =>
    have hnone : pair.sets b = none := by
      cases pair
      all_goals simp_all [Pair.sets, Pair.code, ← UInt8.toNat_inj]
    rw [hnone]
    split_ifs
    · rfl
    · exact flag_bufferPush _ _ _
    · rfl
  all_goals
    rename_i hb
    obtain rfl := UInt8.ofNat_toNat.symm.trans (congrArg UInt8.ofNat hb)
    cases pair
    all_goals rfl

theorem flag_keyboardHandler_all (k : Driver) (bytes : List UInt8) (pair : Pair) :
    pair.flag (bytes.foldl keyboardHandler k) = (pair.lastSet bytes).getD (pair.flag k) := by
  induction bytes using List.reverseRecOn with
  | nil => rfl
  | append_singleton bytes b ih =>
    rw [List.foldl_append, List.foldl_cons, List.foldl_nil, flag_keyboardHandler, ih, Pair.lastSet,
      Pair.lastSet, List.filterMap_append]
    cases hb : pair.sets b with
    | none => simp [hb]
    | some set => simp [hb]

/-- The events after which the flags still match: a press; a release while the other key of
the pair is up; and another key, where its last byte that sets a flag agrees with the keys. -/
def KeyEvent.Kept (held : Keys) : KeyEvent → Prop
  | .press _ _ => True
  | .release pair side => held pair side.twin = false
  | .other bytes => ∀ pair : Pair, ∀ set ∈ pair.lastSet bytes, set = held.any pair

theorem Pair.lastSet_press (p pair : Pair) (side : Side) :
    p.lastSet (KeyEvent.press pair side).bytes = if p = pair then some true else none := by
  cases p
  all_goals cases pair; all_goals cases side; all_goals rfl

theorem Pair.lastSet_release (p pair : Pair) (side : Side) :
    p.lastSet (KeyEvent.release pair side).bytes = if p = pair then some false else none := by
  cases p
  all_goals cases pair; all_goals cases side; all_goals rfl

theorem any_press (held : Keys) (p pair : Pair) (side : Side) :
    ((KeyEvent.press pair side).move held).any p = if p = pair then true else held.any p := by
  unfold Keys.any KeyEvent.move
  by_cases hp : p = pair
  · cases side
    all_goals simp [hp]
  · simp [hp]

theorem any_release (held : Keys) (p pair : Pair) (side : Side) :
    ((KeyEvent.release pair side).move held).any p =
      if p = pair then held pair side.twin else held.any p := by
  unfold Keys.any KeyEvent.move
  by_cases hp : p = pair
  · cases side
    all_goals simp [hp, Side.twin]
  · simp [hp]

theorem FlagsMatch.event_iff (h : FlagsMatch k held) (e : KeyEvent) :
    FlagsMatch (e.bytes.foldl keyboardHandler k) (KeyEvent.move held e) ↔ e.Kept held := by
  unfold FlagsMatch
  simp only [flag_keyboardHandler_all, h _]
  cases e with
  | press pair side =>
    refine iff_of_true (fun p => ?_) trivial
    rw [Pair.lastSet_press, any_press]
    split_ifs
    all_goals rfl
  | release pair side =>
    simp only [Pair.lastSet_release, any_release, KeyEvent.Kept]
    constructor
    · intro hall
      have hpair := hall pair
      rw [if_pos rfl, if_pos rfl] at hpair
      exact hpair.symm
    · intro htwin p
      split_ifs
      · exact htwin.symm
      · rfl
  | other bytes =>
    refine forall_congr' fun p => ?_
    change (p.lastSet bytes).getD (held.any p) = held.any p ↔ _
    cases p.lastSet bytes with
    | none => simp
    | some set => simp

end Flags

/-- After every event each flag is set exactly when a key of its pair is held, if and only if
no modifier is released while the other key of its pair is held, and no other key sends bytes
of which the last that sets a flag disagrees with the keys. -/
theorem modifiers_follow {k : Driver} {held : Keys} (h : FlagsMatch k held)
    (events : List KeyEvent) :
    (∀ pre, pre <+: events →
      FlagsMatch ((pre.flatMap KeyEvent.bytes).foldl keyboardHandler k)
        (pre.foldl KeyEvent.move held)) ↔
      ∀ pre e, pre ++ [e] <+: events → e.Kept (pre.foldl KeyEvent.move held) := by
  have hstep (pre : List KeyEvent) (e : KeyEvent)
      (hpre : FlagsMatch ((pre.flatMap KeyEvent.bytes).foldl keyboardHandler k)
        (pre.foldl KeyEvent.move held)) :
      FlagsMatch (((pre ++ [e]).flatMap KeyEvent.bytes).foldl keyboardHandler k)
        ((pre ++ [e]).foldl KeyEvent.move held) ↔ e.Kept (pre.foldl KeyEvent.move held) := by
    rw [List.flatMap_append, List.foldl_append, List.foldl_append, List.flatMap_singleton]
    exact hpre.event_iff e
  exact forall_prefix_iff h (fun _ hpre => hpre) (fun pre e hpre => (hstep pre e hpre).mpr)
    (fun pre e hpre => mt (hstep pre e hpre).mp) events

def Driver.linked : Driver := ⟨false, false, false, false, fun _ => 0, 0, 0⟩

def Keys.none : Keys := fun _ _ => false

theorem flagsMatch_linked : FlagsMatch .linked .none := by
  intro pair
  cases pair
  all_goals rfl

theorem modifiers_follow_shift :
    keyboardShiftPressed (([.press .shift .left, .release .shift .left].flatMap
      KeyEvent.bytes).foldl keyboardHandler .linked) = false := by
  refine (modifiers_follow flagsMatch_linked [.press .shift .left, .release .shift .left]).mpr
    (fun pre e hpre => ?_) _ (List.prefix_refl _) .shift
  obtain ⟨post, hpost⟩ := hpre
  rcases pre with _ | ⟨e₁, _ | ⟨e₂, pre⟩⟩
  · obtain rfl := (List.cons.inj hpost).1
    trivial
  · obtain ⟨rfl, hrest⟩ := List.cons.inj hpost
    obtain rfl := (List.cons.inj hrest).1
    rfl
  · simp at hpost

/-- Both Shift keys are pressed and the left one is released: the flag is clear, and the right
one is held. -/
theorem modifiers_follow_failure :
    let events : List KeyEvent :=
      [.press .shift .left, .press .shift .right, .release .shift .left]
    keyboardShiftPressed ((events.flatMap KeyEvent.bytes).foldl keyboardHandler .linked) = false ∧
    (events.foldl KeyEvent.move .none) .shift .right = true ∧
    ¬∀ events pre, pre <+: events → FlagsMatch
      ((pre.flatMap KeyEvent.bytes).foldl keyboardHandler .linked)
      (pre.foldl KeyEvent.move .none) := by
  refine ⟨by decide, by decide, fun hclaim => ?_⟩
  have hshift := hclaim [.press .shift .left, .press .shift .right, .release .shift .left] _
    (List.prefix_refl _) .shift
  exact absurd hshift (by decide)

end AlvOS.Keyboard
