import Mathlib.Logic.Function.Basic
import AlvOS.Console

/-! The VGA text terminal of terminal.c: 25 rows of 80 cells, a cursor and a colour.  The
buffer also records the indices that are stored to. -/

namespace AlvOS

/-- The value of the enumeration constant. -/
def VgaColor.code : VgaColor → UInt8
  | .black => 0
  | .blue => 1
  | .green => 2
  | .cyan => 3
  | .red => 4
  | .magenta => 5
  | .brown => 6
  | .lightGrey => 7
  | .darkGrey => 8
  | .lightBlue => 9
  | .lightGreen => 10
  | .lightCyan => 11
  | .lightRed => 12
  | .lightMagenta => 13
  | .lightBrown => 14
  | .white => 15
  | .yellow => 16

end AlvOS

namespace AlvOS.Terminal
open Function

def vgaWidth : Nat := 80
def vgaHeight : Nat := 25

def vgaEntryColor (fg bg : VgaColor) : UInt8 := fg.code ||| bg.code <<< 4

def vgaEntry (c color : UInt8) : UInt16 := c.toUInt16 ||| color.toUInt16 <<< 8

def space : UInt8 := 0x20
def newline : UInt8 := 0x0A
def backspace : UInt8 := 0x08

structure Buffer where
  cell : Nat → UInt16
  stores : List Nat

def Buffer.store (b : Buffer) (index : Nat) (v : UInt16) : Buffer where
  cell := update b.cell index v
  stores := index :: b.stores

/-- The static variables of the driver. -/
structure Screen where
  row : Nat
  column : Nat
  color : UInt8
  buffer : Buffer

/-- The first `n` cells of row `y` become `v`. -/
def fillRow (b : Buffer) (v : UInt16) (y : Nat) : Nat → Buffer
  | 0 => b
  | x + 1 => (fillRow b v y x).store (y * vgaWidth + x) v

def fillRows (b : Buffer) (v : UInt16) : Nat → Buffer
  | 0 => b
  | y + 1 => fillRow (fillRows b v y) v y vgaWidth

def terminalInitialize (s : Screen) : Screen where
  row := 0
  column := 0
  color := vgaEntryColor .lightGrey .black
  buffer := fillRows s.buffer (vgaEntry space (vgaEntryColor .lightGrey .black)) vgaHeight

def terminalSetcolor (s : Screen) (color : UInt8) : Screen := { s with color := color }

def terminalPutentryat (s : Screen) (c color : UInt8) (x y : Nat) : Screen :=
  { s with buffer := s.buffer.store (y * vgaWidth + x) (vgaEntry c color) }

/-- The first `n` cells of row `y` are taken from the row below. -/
def scrollRow (b : Buffer) (y : Nat) : Nat → Buffer
  | 0 => b
  | x + 1 =>
    let b := scrollRow b y x
    b.store (y * vgaWidth + x) (b.cell ((y + 1) * vgaWidth + x))

def scrollRows (b : Buffer) : Nat → Buffer
  | 0 => b
  | y + 1 => scrollRow (scrollRows b y) y vgaWidth

def terminalScroll (s : Screen) : Screen :=
  { s with
    row := vgaHeight - 1
    buffer := fillRow (scrollRows s.buffer (vgaHeight - 1)) (vgaEntry space s.color)
      (vgaHeight - 1) vgaWidth }

/-- `terminal_column = 0; if (++terminal_row == VGA_HEIGHT) terminal_scroll()`. -/
def nextRow (s : Screen) : Screen :=
  let s := { s with column := 0, row := s.row + 1 }
  if s.row = vgaHeight then terminalScroll s else s

def terminalPutchar (s : Screen) (c : UInt8) : Screen :=
  if c = newline then nextRow s
  else if c = backspace then
    if 0 < s.column then
      let s := { s with column := s.column - 1 }
      terminalPutentryat s space s.color s.column s.row
    else s
  else
    let s := terminalPutentryat s c s.color s.column s.row
    let s := { s with column := s.column + 1 }
    if s.column = vgaWidth then nextRow s else s

def terminalWrite (s : Screen) (data : List UInt8) : Screen := data.foldl terminalPutchar s

/-- The bytes of a string end at the first zero. -/
def terminalWritestring (s : Screen) (data : List UInt8) : Screen :=
  terminalWrite s (data.takeWhile (· ≠ 0))

end AlvOS.Terminal
