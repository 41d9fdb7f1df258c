import Mathlib.Data.Nat.Bitwise
import AlvOS.Keyboard.Modifiers
import AlvOS.Keyboard.Preemption

/-! The layout of keyboard.c.  The scancodes that come in stand for a text, by the tables and by
the state of Shift and of Caps Lock. -/

namespace AlvOS.Keyboard
open Transition

def keyChars (k : Driver) (scancode : UInt8) : List UInt8 :=
  if keyAscii k scancode = 0 then [] else [keyAscii k scancode]

def emitted (k : Driver) : List UInt8 → List UInt8
  | [] => []
  | scancode :: scancodes =>
    keyChars k scancode ++ emitted (keyboardHandler k scancode) scancodes

structure SameKeys (k k' : Driver) : Prop where
  shift : k.shiftPressed = k'.shiftPressed
  caps : k.capsLock = k'.capsLock

section Handler
variable {k k' : Driver} {scancode : UInt8}

theorem keyAscii_modifier (k : Driver) (h : scancode.toNat ∈ [0x2A, 0x36, 0x1D, 0x38, 0x3A]) :
    keyAscii k scancode = 0 := by
  have hnone : ∀ n ∈ [0x2A, 0x36, 0x1D, 0x38, 0x3A], scancodeToAscii.getD n 0 = 0 ∧
      scancodeToAsciiShift.getD n 0 = 0 := by decide
  obtain ⟨hplain, hshift⟩ := hnone _ h
  unfold keyAscii
  dsimp only
  rw [hplain, hshift]
  split_ifs with _ _ hletter
  · rfl
  · exact absurd hletter.2.1 (by decide)
  · rfl
  · rfl

theorem keyAscii_release (k : Driver) (h : 128 ≤ scancode.toNat) : keyAscii k scancode = 0 := by
  have hlength : scancodeToAscii.length = 58 := rfl
  rw [keyAscii, if_neg (by omega)]

theorem le_of_and_ne_zero (h : scancode &&& 0x80 ≠ 0) : 128 ≤ scancode.toNat := by
  by_contra hlt
  apply h
  have hbit : scancode.toNat.testBit 7 = false := Nat.testBit_lt_two_pow (by omega)
  apply UInt8.toNat_inj.mp
  rw [UInt8.toNat_and]
  change scancode.toNat &&& 2 ^ 7 = 0
  rw [Nat.and_two_pow, hbit]
  rfl

theorem keyboardHandler_char (h : keyAscii k scancode ≠ 0) :
    keyboardHandler k scancode = bufferPush k (keyAscii k scancode) := by
  have hnot {n : Nat} (hn : n ∈ [0x2A, 0x36, 0x1D, 0x38, 0x3A]) (heq : scancode.toNat = n) :
      False := h (keyAscii_modifier k (heq ▸ hn))
  have hreleased {n : Nat} (hn : 128 ≤ n) (heq : scancode.toNat = n) : False :=
    h (keyAscii_release k (heq ▸ hn))
  unfold keyboardHandler
  split
  case h_10 =>
    rw [if_neg (fun hrelease => h (keyAscii_release k (le_of_and_ne_zero hrelease))), if_pos h]
  all_goals
    rename_i heq
    first
    | exact (hnot (by decide) heq).elim
    | exact (hreleased (by decide) heq).elim

theorem keyboardHandler_none (h : keyAscii k scancode = 0) :
    ∃ shift ctrl alt caps, keyboardHandler k scancode =
      { k with
        shiftPressed := shift
        ctrlPressed := ctrl
        altPressed := alt
        capsLock := caps } := by
  rw [keyboardHandler]
  split
  case h_10 =>
    rw [if_neg (not_not_intro h), ite_self]
    exact ⟨_, _, _, _, rfl⟩
  all_goals exact ⟨_, _, _, _, rfl⟩

theorem caps_keyboardHandler (k : Driver) (scancode : UInt8) :
    (keyboardHandler k scancode).capsLock =
      if scancode = 0x3A then !k.capsLock else k.capsLock := by
  have hpush (c : UInt8) : (bufferPush k c).capsLock = k.capsLock := by
    unfold bufferPush
    dsimp only
    split_ifs
    · rfl
    · rfl
  by_cases hcaps : scancode = 0x3A
  · rw [hcaps, if_pos rfl]
    rfl
  · rw [if_neg hcaps]
    unfold keyboardHandler
    split
    case h_9 heq => exact absurd (UInt8.toNat_inj.mp heq) hcaps
    case h_10 =>
      split_ifs
      · rfl
      · exact hpush _
      · rfl
    all_goals rfl

theorem SameKeys.keyAscii_eq (h : SameKeys k k') (scancode : UInt8) :
    keyAscii k scancode = keyAscii k' scancode := by
  rw [keyAscii, keyAscii, h.shift, h.caps]

theorem SameKeys.keyboardHandler (h : SameKeys k k') (scancode : UInt8) :
    SameKeys (keyboardHandler k scancode) (Keyboard.keyboardHandler k' scancode) where
  shift := by
    have hflag (k : Driver) : (Keyboard.keyboardHandler k scancode).shiftPressed =
        (Pair.shift.sets scancode).getD k.shiftPressed := flag_keyboardHandler k scancode .shift
    rw [hflag, hflag, h.shift]
  caps := by rw [caps_keyboardHandler, caps_keyboardHandler, h.caps]

theorem SameKeys.emitted_eq (h : SameKeys k k') (scancodes : List UInt8) :
    emitted k scancodes = emitted k' scancodes := by
  induction scancodes generalizing k k' with
  | nil => rfl
  | cons scancode scancodes ih =>
    rw [emitted, emitted, keyChars, keyChars, h.keyAscii_eq, ih (h.keyboardHandler scancode)]

theorem emitted_append (k : Driver) (pre post : List UInt8) :
    emitted k (pre ++ post) = emitted k pre ++ emitted (pre.foldl keyboardHandler k) post := by
  induction pre generalizing k with
  | nil => rfl
  | cons scancode pre ih =>
    rw [List.cons_append, emitted, emitted, ih, List.append_assoc, List.foldl_cons]

end Handler

/-- The printable characters, and the four others that have a key. -/
def Typeable (c : UInt8) : Prop :=
  32 ≤ c ∧ c ≤ 126 ∨ c ∈ [char '\x1b', char '\x08', char '\t', char '\n']

instance (c : UInt8) : Decidable (Typeable c) := inferInstanceAs (Decidable (_ ∨ _))

def tap (scancode : UInt8) : List UInt8 := [scancode, scancode ||| 0x80]

/-- The keys for a character: the one that has it, with Shift where it needs it. -/
def stroke (c : UInt8) : List UInt8 :=
  if c ∈ scancodeToAscii then tap (scancodeToAscii.idxOf c).toUInt8
  else 0x2A :: tap (scancodeToAsciiShift.idxOf c).toUInt8 ++ [0xAA]

def IsLower (c : UInt8) : Prop := char 'a' ≤ c ∧ c ≤ char 'z'

instance (c : UInt8) : Decidable (IsLower c) := inferInstanceAs (Decidable (_ ∧ _))

def HasKey (caps : Bool) (c : UInt8) : Prop := Typeable c ∧ (caps = true → ¬IsLower c)

instance (caps : Bool) (c : UInt8) : Decidable (HasKey caps c) :=
  inferInstanceAs (Decidable (_ ∧ (_ → _)))

def Driver.resting (caps : Bool) : Driver := { Driver.linked with capsLock := caps }

section Layout
variable {k : Driver} {caps : Bool} {c scancode : UInt8} {scancodes text : List UInt8}

theorem SameKeys.foldl {k k' : Driver} (h : SameKeys k k') (scancodes : List UInt8) :
    SameKeys (scancodes.foldl Keyboard.keyboardHandler k)
      (scancodes.foldl Keyboard.keyboardHandler k') :=
  foldl_simulation SameKeys SameKeys.keyboardHandler h scancodes

theorem stroke_resting : ∀ caps, ∀ n < 256, HasKey caps (UInt8.ofNat n) →
    emitted (.resting caps) (stroke (UInt8.ofNat n)) = [UInt8.ofNat n] ∧
      ((stroke (UInt8.ofNat n)).foldl keyboardHandler (.resting caps)).shiftPressed = false ∧
      ((stroke (UInt8.ofNat n)).foldl keyboardHandler (.resting caps)).capsLock = caps ∧
      0x3A ∉ stroke (UInt8.ofNat n) := by
  decide +kernel

theorem emitted_stroke (hk : SameKeys k (.resting caps)) (hc : HasKey caps c) :
    emitted k (stroke c) = [c] ∧
      SameKeys ((stroke c).foldl keyboardHandler k) (.resting caps) ∧ 0x3A ∉ stroke c := by
  have hresting := stroke_resting caps c.toNat c.toNat_lt
  rw [UInt8.ofNat_toNat] at hresting
  obtain ⟨hchar, hshift, hcaps, hnot⟩ := hresting hc
  have hsame := hk.foldl (stroke c)
  exact ⟨(hk.emitted_eq _).trans hchar,
    ⟨hsame.shift.trans hshift, hsame.caps.trans hcaps⟩, hnot⟩

theorem emitted_strokes (hk : SameKeys k (.resting caps)) (htext : ∀ c ∈ text, HasKey caps c) :
    emitted k (text.flatMap stroke) = text ∧ 0x3A ∉ text.flatMap stroke := by
  induction text generalizing k with
  | nil => exact ⟨rfl, List.not_mem_nil⟩
  | cons c text ih =>
    obtain ⟨hchar, hsame, hnot⟩ := emitted_stroke hk (htext c List.mem_cons_self)
    obtain ⟨htail, hnots⟩ := ih hsame fun c hc => htext c (List.mem_cons_of_mem _ hc)
    rw [List.flatMap_cons, emitted_append, hchar, htail, List.mem_append, not_or]
    exact ⟨rfl, hnot, hnots⟩

theorem keyAscii_cases (h : keyAscii k scancode ≠ 0) :
    (∃ c ∈ scancodeToAsciiShift, c ≠ 0 ∧ keyAscii k scancode = c) ∨
    ∃ c ∈ scancodeToAscii, c ≠ 0 ∧
      keyAscii k scancode = if k.capsLock = true ∧ IsLower c then c - 32 else c := by
  by_cases hlt : scancode.toNat < scancodeToAscii.length
  · have hmem {table : List UInt8} (hlength : table.length = scancodeToAscii.length) :
        table.getD scancode.toNat 0 ∈ table := by
      rw [List.getD_eq_getElem table 0 (hlength ▸ hlt)]
      exact List.getElem_mem _
    unfold keyAscii at h ⊢
    rw [if_pos hlt] at h ⊢
    cases hshift : k.shiftPressed with
    | true =>
      rw [if_pos hshift] at h
      exact .inl ⟨_, hmem rfl, h, rfl⟩
    | false =>
      rw [if_neg (by rw [hshift]; exact Bool.false_ne_true)] at h
      refine .inr ⟨_, hmem rfl, fun hzero => h ?_, rfl⟩
      dsimp only
      rw [hzero]
      exact if_neg fun hlower => absurd hlower.2.1 (by decide)
  · exact absurd (if_neg hlt) h

theorem hasKey_keyAscii (h : keyAscii k scancode ≠ 0) :
    HasKey k.capsLock (keyAscii k scancode) := by
  have hshifted : ∀ c ∈ scancodeToAsciiShift, c ≠ 0 → HasKey true c := by decide +kernel
  have hplain : ∀ c ∈ scancodeToAscii, c ≠ 0 →
      Typeable c ∧ (IsLower c → HasKey true (c - 32)) := by decide +kernel
  obtain ⟨c, hc, hne, heq⟩ | ⟨c, hc, hne, heq⟩ := keyAscii_cases h
  · obtain ⟨htypeable, hlower⟩ := hshifted c hc hne
    exact heq ▸ ⟨htypeable, fun _ => hlower rfl⟩
  · obtain ⟨htypeable, hupper⟩ := hplain c hc hne
    rw [heq]
    split_ifs with hlower
    · exact ⟨(hupper hlower.2).1, fun _ => (hupper hlower.2).2 rfl⟩
    · exact ⟨htypeable, fun hcaps hc => hlower ⟨hcaps, hc⟩⟩

theorem mem_keyChars :
    c ∈ keyChars k scancode ↔ keyAscii k scancode ≠ 0 ∧ c = keyAscii k scancode := by
  unfold keyChars
  split_ifs with h
  · simp [h]
  · simp [h]

/-- Nothing else is ever typed. -/
theorem hasKey_emitted (hc : c ∈ emitted k scancodes) :
    Typeable c ∧ (0x3A ∉ scancodes → HasKey k.capsLock c) := by
  induction scancodes generalizing k with
  | nil => exact absurd hc List.not_mem_nil
  | cons scancode scancodes ih =>
    rcases List.mem_append.mp hc with hfirst | hrest
    · obtain ⟨hne, rfl⟩ := mem_keyChars.mp hfirst
      exact ⟨(hasKey_keyAscii hne).1, fun _ => hasKey_keyAscii hne⟩
    · refine ⟨(ih hrest).1, fun hnot => ?_⟩
      rw [List.mem_cons, not_or] at hnot
      have hkey := (ih hrest).2 hnot.2
      rwa [caps_keyboardHandler, if_neg (Ne.symm hnot.1)] at hkey

theorem emitted_release (k : Driver) (scancodes : List UInt8) :
    emitted k (0xAA :: scancodes) = emitted (.resting k.capsLock) scancodes := by
  have hsame : SameKeys (keyboardHandler k 0xAA) (.resting k.capsLock) := ⟨rfl, rfl⟩
  exact hsame.emitted_eq scancodes

end Layout

/-- From whatever state of the driver, the texts that can be typed are those over the printable
characters and the four control characters; without the Caps Lock key, and with Caps Lock on, those
of them that have no lower-case letter: Shift does not give it. -/
theorem typed_texts (k : Driver) (text : List UInt8) :
    ((∃ scancodes, emitted k scancodes = text) ↔ ∀ c ∈ text, Typeable c) ∧
    ((∃ scancodes, 0x3A ∉ scancodes ∧ emitted k scancodes = text) ↔
      ∀ c ∈ text, Typeable c ∧ (k.capsLock = true → ¬IsLower c)) := by
  refine ⟨⟨?_, fun htext => ?_⟩, ?_, fun htext => ?_⟩
  · rintro ⟨scancodes, rfl⟩ c hc
    exact (hasKey_emitted hc).1
  · have hkeys : ∀ c ∈ text, HasKey false c := fun c hc => ⟨htext c hc, nofun⟩
    refine ⟨0xAA :: (if k.capsLock then [0x3A] else []) ++ text.flatMap stroke, ?_⟩
    rw [List.cons_append, emitted_release]
    cases k.capsLock with
    | false => exact (emitted_strokes ⟨rfl, rfl⟩ hkeys).1
    | true => exact (emitted_strokes (k := keyboardHandler (.resting true) 0x3A) ⟨rfl, rfl⟩ hkeys).1
  · rintro ⟨scancodes, hnot, rfl⟩ c hc
    exact (hasKey_emitted hc).2 hnot
  · obtain ⟨htyped, hnot⟩ := emitted_strokes (k := .resting k.capsLock) ⟨rfl, rfl⟩ htext
    refine ⟨0xAA :: text.flatMap stroke, ?_, (emitted_release k _).trans htyped⟩
    rw [List.mem_cons, not_or]
    exact ⟨by decide, hnot⟩

end AlvOS.Keyboard
