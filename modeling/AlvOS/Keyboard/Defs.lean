import Mathlib.Logic.Function.Basic

/-! The keyboard driver of keyboard.c: the scancode tables, the interrupt handler, the
ring buffer it fills, and the consumer that empties it, one access to a shared variable at
a time. -/

namespace AlvOS.Keyboard
open Function

def char (c : Char) : UInt8 := c.toNat.toUInt8

def scancodeToAscii : List UInt8 := List.map char
  ['\x00', '\x1b', '1', '2', '3', '4', '5', '6', '7', '8', '9', '0', '-', '=', '\x08',
    '\t', 'q', 'w', 'e', 'r', 't', 'y', 'u', 'i', 'o', 'p', '[', ']', '\n',
    '\x00', 'a', 's', 'd', 'f', 'g', 'h', 'j', 'k', 'l', ';', '\x27', '\x60',
    '\x00', '\\', 'z', 'x', 'c', 'v', 'b', 'n', 'm', ',', '.', '/', '\x00',
    '*', '\x00', ' ']

def scancodeToAsciiShift : List UInt8 := List.map char
  ['\x00', '\x1b', '!', '@', '#', '$', '%', '^', '&', '*', '(', ')', '_', '+', '\x08',
    '\t', 'Q', 'W', 'E', 'R', 'T', 'Y', 'U', 'I', 'O', 'P', '\x7b', '\x7d', '\n',
    '\x00', 'A', 'S', 'D', 'F', 'G', 'H', 'J', 'K', 'L', ':', '\x22', '~',
    '\x00', '|', 'Z', 'X', 'C', 'V', 'B', 'N', 'M', '<', '>', '?', '\x00',
    '*', '\x00', ' ']

def keyboardBufferSize : Nat := 256

/-- The static variables of the driver. -/
structure Driver where
  shiftPressed : Bool
  ctrlPressed : Bool
  altPressed : Bool
  capsLock : Bool
  buffer : Nat → UInt8
  readPos : Nat
  writePos : Nat

def bufferPush (k : Driver) (c : UInt8) : Driver :=
  let nextPos := (k.writePos + 1) % keyboardBufferSize
  if nextPos ≠ k.readPos then
    { k with buffer := update k.buffer k.writePos c, writePos := nextPos }
  else k

/-- The character of a key that is pressed; zero for a key without one. -/
def keyAscii (k : Driver) (scancode : UInt8) : UInt8 :=
  if scancode.toNat < scancodeToAscii.length then
    if k.shiftPressed then scancodeToAsciiShift.getD scancode.toNat 0
    else
      let ascii := scancodeToAscii.getD scancode.toNat 0
      if k.capsLock = true ∧ char 'a' ≤ ascii ∧ ascii ≤ char 'z' then ascii - 32 else ascii
  else 0

/-- `keyboard_handler`, with the scancode read from the data port. -/
def keyboardHandler (k : Driver) (scancode : UInt8) : Driver :=
  match scancode.toNat with
  | 0x2A | 0x36 => { k with shiftPressed := true }
  | 0xAA | 0xB6 => { k with shiftPressed := false }
  | 0x1D => { k with ctrlPressed := true }
  | 0x9D => { k with ctrlPressed := false }
  | 0x38 => { k with altPressed := true }
  | 0xB8 => { k with altPressed := false }
  | 0x3A => { k with capsLock := !k.capsLock }
  | _ =>
    -- key releases are ignored
    if scancode &&& 0x80 ≠ 0 then k
    else if keyAscii k scancode ≠ 0 then bufferPush k (keyAscii k scancode) else k

inductive Call
  | hasInput | getchar | getcharNonblock

/-- What a call returns: a character, the zero of an empty buffer, or whether there is input. -/
inductive Answer
  | char (c : UInt8)
  | empty
  | hasInput (b : Bool)

/-- Where the consumer is, named after the access it makes next. -/
inductive Consumer
  | idle
  | testRead (call : Call)
  | testWrite (call : Call) (readPos : Nat)
  | index
  | load (index : Nat)
  | nextRead (c : UInt8)
  | advance (c : UInt8) (readPos : Nat)

/-- The comparison of the two positions; the blocking call repeats it while the buffer is empty. -/
def Consumer.compare (readPos writePos : Nat) : Call → Consumer × Option Answer
  | .hasInput => (.idle, some (.hasInput (readPos ≠ writePos)))
  | .getchar => if readPos = writePos then (.testRead .getchar, none) else (.index, none)
  | .getcharNonblock => if readPos = writePos then (.idle, some .empty) else (.index, none)

/-- One access to a shared variable. -/
def Consumer.access (k : Driver) : Consumer → Driver × Consumer × Option Answer
  | .idle => (k, .idle, none)
  | .testRead call => (k, .testWrite call k.readPos, none)
  | .testWrite call readPos => (k, Consumer.compare readPos k.writePos call)
  | .index => (k, .load k.readPos, none)
  | .load i => (k, .nextRead (k.buffer i), none)
  | .nextRead c => (k, .advance c k.readPos, none)
  | .advance c readPos =>
    ({ k with readPos := (readPos + 1) % keyboardBufferSize }, .idle, some (.char c))

end AlvOS.Keyboard
