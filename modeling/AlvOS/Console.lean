import Mathlib.Init

/-! What the kernel prints, as the sequence of calls it makes to the terminal driver. -/

namespace AlvOS

inductive VgaColor
  | black | blue | green | cyan | red | magenta | brown | lightGrey | darkGrey
  | lightBlue | lightGreen | lightCyan | lightRed | lightMagenta | lightBrown | white | yellow
deriving DecidableEq, Repr

inductive TerminalCall
  | setcolor (fg bg : VgaColor)
  | writestring (data : String)
  | putchar (c : Char)
  | printHex (value : Nat)
  | printDec (value : Nat)
deriving DecidableEq, Repr

abbrev Console := List TerminalCall

end AlvOS
