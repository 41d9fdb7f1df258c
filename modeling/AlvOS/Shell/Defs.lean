import AlvOS.CString
import AlvOS.Terminal.Page

/-! The line reader, the history and the command parser of shell.c. -/

namespace AlvOS.Shell
open ByteMemory CString Function Terminal

def shellBufferSize : Nat := 256
def shellMaxArgs : Nat := 8
def shellHistorySize : Nat := 10

def quote : UInt8 := 34

/-! ## The line reader -/

def text (s : String) : List UInt8 := s.toList.map fun c => c.toNat.toUInt8

def shellPrompt : List Call :=
  [.setcolor (vgaEntryColor .lightCyan .black), .writestring (text "\n-["),
    .setcolor (vgaEntryColor .lightGreen .black), .writestring (text "AlvOS"),
    .setcolor (vgaEntryColor .lightCyan .black), .writestring (text "]\n"),
    .writestring (text "$ "), .setcolor (vgaEntryColor .lightGrey .black)]

def shellShowPrompt (s : Screen) : Screen := shellPrompt.foldl Call.onScreen s

/-- `shell_buffer` with its position, and the terminal.  The reader also counts the rows the
screen has scrolled by since the prompt. -/
structure Reader where
  screen : Screen
  scrolled : Nat
  buffer : Nat → UInt8
  pos : Nat

/-- The rows `terminal_putchar` scrolls the screen by. -/
def scrolls (s : Screen) (c : UInt8) : Nat :=
  if (c = newline ∨ c ≠ backspace ∧ s.column + 1 = vgaWidth) ∧ s.row + 1 = vgaHeight then 1 else 0

namespace Reader

def putchar (r : Reader) (c : UInt8) : Reader :=
  { r with screen := terminalPutchar r.screen c, scrolled := r.scrolled + scrolls r.screen c }

/-- A backspace, a character there is room for, or one that is ignored. -/
def edit (r : Reader) (c : UInt8) : Reader :=
  if c = backspace then
    if 0 < r.pos then
      let r := { r with buffer := update r.buffer (r.pos - 1) 0, pos := r.pos - 1 }
      ((r.putchar backspace).putchar space).putchar backspace
    else r
  else if r.pos < shellBufferSize - 1 ∧ 32 ≤ c ∧ c ≤ 126 then
    let r := { r with buffer := update (update r.buffer r.pos c) (r.pos + 1) 0, pos := r.pos + 1 }
    r.putchar c
  else r

def enter (r : Reader) : Reader :=
  let r := r.putchar newline
  { r with buffer := update r.buffer r.pos 0 }

/-- The loop, over what `keyboard_getchar` delivers, and whether it has returned. -/
def loop (r : Reader) : List UInt8 → Reader × Bool
  | [] => (r, false)
  | c :: cs => if c = newline then (r.enter, true) else loop (r.edit c) cs

end Reader

/-- The state in which the loop begins. -/
def shellBegin (s : Screen) (buffer : Nat → UInt8) : Reader where
  screen := shellShowPrompt s
  scrolled := 0
  buffer := update buffer 0 0
  pos := 0

def shellReadline (s : Screen) (buffer : Nat → UInt8) (chars : List UInt8) : Reader × Bool :=
  (shellBegin s buffer).loop chars

/-! ### The indices it stores to -/

def Reader.editStores (r : Reader) (c : UInt8) : List Nat :=
  if c = backspace then
    if 0 < r.pos then [r.pos - 1] else []
  else if r.pos < shellBufferSize - 1 ∧ 32 ≤ c ∧ c ≤ 126 then [r.pos, r.pos + 1] else []

def Reader.loopStores (r : Reader) : List UInt8 → List Nat
  | [] => []
  | c :: cs => if c = newline then [r.pos] else r.editStores c ++ (r.edit c).loopStores cs

/-- The indices of `shell_buffer` that `shell_readline` stores to, oldest first. -/
def shellReadlineStores (s : Screen) (buffer : Nat → UInt8) (chars : List UInt8) : List Nat :=
  0 :: (shellBegin s buffer).loopStores chars

/-! ## The history -/

/-- The memory, with `history_count` and `history_current`. -/
structure History where
  mem : Mem
  count : Nat
  current : Int

/-- `shell_history[i]`, of the array at `history`. -/
def historyRow (history i : Nat) : Nat := history + i * shellBufferSize

/-- `shell_init` leaves the rows as they are. -/
def historyInit (h : History) : History := { h with count := 0, current := -1 }

/-- `for (i = 0; i < n; i++) strcpy(shell_history[i], shell_history[i+1])`. -/
def shiftRows (fuel : Nat) (m : Mem) (history : Nat) : Nat → Option Mem
  | 0 => some m
  | i + 1 => do
    let m ← shiftRows fuel m history i
    strcpy fuel m (historyRow history i) (historyRow history (i + 1))

/-- `history_count > 0 && strcmp(shell_history[history_count-1], command) == 0`. -/
def repeatsLast (fuel : Nat) (history : Nat) (h : History) (command : Nat) : Option Bool :=
  if 0 < h.count then
    (strcmp fuel h.mem (historyRow history (h.count - 1)) command).map fun d => decide (d = 0)
  else some false

/-- A full history loses its oldest row. -/
def evict (fuel : Nat) (history : Nat) (h : History) : Option History :=
  if shellHistorySize ≤ h.count then do
    let m ← shiftRows fuel h.mem history (shellHistorySize - 1)
    some { h with mem := m, count := h.count - 1 }
  else some h

/-- The new command goes to the row behind the last one. -/
def appendRow (fuel : Nat) (history : Nat) (h : History) (command : Nat) : Option History := do
  let h ← evict fuel history h
  let m ← strcpy fuel h.mem (historyRow history h.count) command
  some ⟨m, h.count + 1, h.count + 1⟩

def shellAddToHistory (fuel : Nat) (history : Nat) (h : History) (command : Nat) :
    Option History := do
  let len ← strlen fuel h.mem command
  if len = 0 then some h
  else do
    let same ← repeatsLast fuel history h command
    if same then some h else appendRow fuel history h command

/-! ### What it stores to

Each store is given by the row it is meant for and the index in that row. -/

def copyRowStores (fuel : Nat) (m : Mem) (history row src : Nat) : Option (List (Nat × Nat)) := do
  let stores ← copyStores fuel m (historyRow history row) src
  some (stores.map fun a => (row, a - historyRow history row))

def shiftRowsStores (fuel : Nat) (m : Mem) (history : Nat) : Nat → Option (List (Nat × Nat))
  | 0 => some []
  | i + 1 => do
    let before ← shiftRowsStores fuel m history i
    let m ← shiftRows fuel m history i
    let stores ← copyRowStores fuel m history i (historyRow history (i + 1))
    some (before ++ stores)

def evictStores (fuel : Nat) (history : Nat) (h : History) : Option (List (Nat × Nat)) :=
  if shellHistorySize ≤ h.count then shiftRowsStores fuel h.mem history (shellHistorySize - 1)
  else some []

def appendRowStores (fuel : Nat) (history : Nat) (h : History) (command : Nat) :
    Option (List (Nat × Nat)) := do
  let evicted ← evictStores fuel history h
  let h ← evict fuel history h
  let stores ← copyRowStores fuel h.mem history h.count command
  some (evicted ++ stores)

def shellAddToHistoryStores (fuel : Nat) (history : Nat) (h : History) (command : Nat) :
    Option (List (Nat × Nat)) := do
  let len ← strlen fuel h.mem command
  if len = 0 then some []
  else do
    let same ← repeatsLast fuel history h command
    if same then some [] else appendRowStores fuel history h command

/-! ## The parser -/

/-- The memory, with `argc` and the entries of `argv`. -/
structure Parsed where
  mem : Mem
  argc : Nat
  argv : Nat → Nat

/-- `while (*p == ' ') p++`. -/
def skipSpaces (fuel : Nat) (m : Mem) (p : Nat) : Option Nat :=
  scanWhile (fun c => c = space) fuel m p

/-- `while (*p != 0 && *p != delimiter) p++`. -/
def findEnd (delimiter : UInt8) (fuel : Nat) (m : Mem) (p : Nat) : Option Nat :=
  scanWhile (fun c => c ≠ 0 ∧ c ≠ delimiter) fuel m p

/-- `if (*p == delimiter) { *p = 0; p++; }`. -/
def cut (delimiter : UInt8) (m : Mem) (p : Nat) : Mem × Nat :=
  if m p = delimiter then (Function.update m p 0, p + 1) else (m, p)

/-- One argument from `p`: the memory with its delimiter cut, where it starts, and where
the scan goes on. -/
def parseArgument (fuel : Nat) (m : Mem) (p : Nat) : Option (Mem × Nat × Nat) :=
  if m p = quote then do
    let start := p + 1
    let stop ← findEnd quote fuel m start
    let (m, p) := cut quote m stop
    some (m, start, p)
  else do
    let stop ← findEnd space fuel m p
    let (m, next) := cut space m stop
    some (m, p, next)

/-- The body of the outer loop.  An empty argument is overwritten by the one after it. -/
def parseTurn (fuel : Nat) (st : Parsed) (p : Nat) : Option (Parsed × Nat) := do
  let (m, start, p) ← parseArgument fuel st.mem p
  let argv := Function.update st.argv st.argc start
  let len ← strlen fuel m (argv st.argc)
  let argc := if 0 < len then st.argc + 1 else st.argc
  let p ← skipSpaces fuel m p
  some (⟨m, argc, argv⟩, p)

def parseLoop : Nat → Parsed → Nat → Option Parsed
  | 0, _, _ => none
  | fuel + 1, st, p =>
    if st.mem p ≠ 0 ∧ st.argc < shellMaxArgs then do
      let (st, p) ← parseTurn fuel st p
      parseLoop fuel st p
    else some st

def shellParseCommand (fuel : Nat) (m : Mem) (parseBuffer input : Nat) (argv : Nat → Nat) :
    Option Parsed := do
  let m ← strcpy fuel m parseBuffer input
  let p ← skipSpaces fuel m parseBuffer
  parseLoop fuel ⟨m, 0, argv⟩ p

/-- A line of spaces is not parsed. -/
def shellExecuteCommand (fuel : Nat) (m : Mem) (parseBuffer input : Nat) (argv : Nat → Nat) :
    Option Parsed := do
  let p ← skipSpaces fuel m input
  if m p = 0 then some ⟨m, 0, argv⟩ else shellParseCommand fuel m parseBuffer input argv

/-! ### What the parser stores to -/

/-- A store to a byte of memory or to an entry of `argv`. -/
inductive Store
  | byte (address : Nat)
  | argv (index : Nat)
deriving DecidableEq

def cutStores (delimiter : UInt8) (m : Mem) (p : Nat) : List Store :=
  if m p = delimiter then [.byte p] else []

def parseArgumentStores (fuel : Nat) (m : Mem) (p argc : Nat) : Option (List Store) :=
  if m p = quote then do
    let stop ← findEnd quote fuel m (p + 1)
    some (.argv argc :: cutStores quote m stop)
  else do
    let stop ← findEnd space fuel m p
    some (.argv argc :: cutStores space m stop)

def parseLoopStores : Nat → Parsed → Nat → Option (List Store)
  | 0, _, _ => none
  | fuel + 1, st, p =>
    if st.mem p ≠ 0 ∧ st.argc < shellMaxArgs then do
      let stores ← parseArgumentStores fuel st.mem p st.argc
      let (st, p) ← parseTurn fuel st p
      let rest ← parseLoopStores fuel st p
      some (stores ++ rest)
    else some []

/-- The stores of `shell_parse_command`, oldest first. -/
def shellParseCommandStores (fuel : Nat) (m : Mem) (parseBuffer input : Nat) (argv : Nat → Nat) :
    Option (List Store) := do
  let copied ← copyStores fuel m parseBuffer input
  let m ← strcpy fuel m parseBuffer input
  let p ← skipSpaces fuel m parseBuffer
  let stores ← parseLoopStores fuel ⟨m, 0, argv⟩ p
  some (copied.map .byte ++ stores)

def shellExecuteCommandStores (fuel : Nat) (m : Mem) (parseBuffer input : Nat) (argv : Nat → Nat) :
    Option (List Store) := do
  let p ← skipSpaces fuel m input
  if m p = 0 then some [] else shellParseCommandStores fuel m parseBuffer input argv

end AlvOS.Shell
