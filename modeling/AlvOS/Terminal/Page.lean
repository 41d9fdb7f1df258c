import Mathlib.Tactic.SplitIfs
import AlvOS.Lib.Transition
import AlvOS.Terminal.Defs

/-! The terminal is a window on a page without a lower end: the last 25 rows of the page,
with its cursor.  The page never scrolls; the window follows its bottom row. -/

namespace AlvOS.Terminal
open Function Transition

structure Cell where
  char : UInt8
  color : UInt8
deriving DecidableEq

/-- Rows of cells down to the bottom row, a cursor and the colour to write in. -/
structure Page where
  cells : Nat → Nat → Cell
  bottom : Nat
  row : Nat
  column : Nat
  color : UInt8

namespace Page

def start : Page where
  cells := fun _ _ => ⟨space, vgaEntryColor .lightGrey .black⟩
  bottom := 24
  row := 0
  column := 0
  color := vgaEntryColor .lightGrey .black

def write (p : Page) (x : Nat) (c : Cell) : Page :=
  { p with cells := update p.cells p.row (update (p.cells p.row) x c) }

/-- To the beginning of the next row, which starts blank when it is a new one. -/
def newline (p : Page) : Page :=
  if p.row = p.bottom then
    { p with
      cells := update p.cells (p.row + 1) fun _ => ⟨space, p.color⟩
      bottom := p.bottom + 1
      row := p.row + 1
      column := 0 }
  else { p with row := p.row + 1, column := 0 }

def backspace (p : Page) : Page :=
  if p.column = 0 then p
  else { p.write (p.column - 1) ⟨space, p.color⟩ with column := p.column - 1 }

def advance (p : Page) : Page :=
  if p.column + 1 = 80 then p.newline else { p with column := p.column + 1 }

def put (p : Page) (c : UInt8) : Page :=
  if c = Terminal.newline then p.newline
  else if c = Terminal.backspace then p.backspace
  else (p.write p.column ⟨c, p.color⟩).advance

section Write
variable (p : Page) (x : Nat) (c : Cell)

theorem write_cells : (p.write x c).cells = update p.cells p.row (update (p.cells p.row) x c) := rfl

@[simp] theorem write_bottom : (p.write x c).bottom = p.bottom := rfl

end Write

end Page

inductive Call
  | putchar (c : UInt8)
  | write (data : List UInt8)
  | writestring (data : List UInt8)
  | setcolor (color : UInt8)

def Call.onScreen (s : Screen) : Call → Screen
  | .putchar c => terminalPutchar s c
  | .write data => terminalWrite s data
  | .writestring data => terminalWritestring s data
  | .setcolor color => terminalSetcolor s color

def Call.onPage (p : Page) : Call → Page
  | .putchar c => p.put c
  | .write data => data.foldl Page.put p
  | .writestring data => (data.takeWhile (· ≠ 0)).foldl Page.put p
  | .setcolor color => { p with color := color }

def Buffer.Within (b : Buffer) (n : Nat) : Prop := ∀ i ∈ b.stores, i < n

section Buffer
variable {b : Buffer} {v : UInt16} {i m n y : Nat}

theorem Buffer.Within.store (h : b.Within m) (hi : i < m) (v : UInt16) : (b.store i v).Within m := by
  intro j hj
  rcases List.mem_cons.mp hj with rfl | hj
  · exact hi
  · exact h j hj

theorem fillRow_cell (b : Buffer) (v : UInt16) (y n i : Nat) : (fillRow b v y n).cell i =
    if y * vgaWidth ≤ i ∧ i < y * vgaWidth + n then v else b.cell i := by
  induction n with
  | zero => exact (if_neg (by omega)).symm
  | succ n ih =>
    change update (fillRow b v y n).cell (y * vgaWidth + n) v i = _
    rw [update_apply, ih]
    split_ifs <;> first | rfl | omega

theorem fillRow_within (h : b.Within m) (hm : y * vgaWidth + n ≤ m) : (fillRow b v y n).Within m := by
  induction n with
  | zero => exact h
  | succ n ih => exact (ih (by omega)).store (by omega) v

theorem fillRows_cell (b : Buffer) (v : UInt16) (n i : Nat) :
    (fillRows b v n).cell i = if i < n * vgaWidth then v else b.cell i := by
  induction n with
  | zero => exact (if_neg (by omega)).symm
  | succ n ih =>
    rw [fillRows, fillRow_cell, ih, Nat.succ_mul]
    split_ifs <;> first | rfl | omega

theorem within_rows {rows : Nat → Buffer} (h : (rows 0).Within m)
    (hrow : ∀ y, y * vgaWidth + vgaWidth ≤ m → (rows y).Within m → (rows (y + 1)).Within m)
    (hm : n * vgaWidth ≤ m) : (rows n).Within m := by
  induction n with
  | zero => exact h
  | succ n ih =>
    rw [Nat.succ_mul] at hm
    exact hrow n hm (ih (by omega))

theorem fillRows_within (h : b.Within m) (hm : n * vgaWidth ≤ m) : (fillRows b v n).Within m :=
  within_rows h (fun _ hy hrows => fillRow_within hrows hy) hm

theorem scrollRow_cell (b : Buffer) (y : Nat) (hn : n ≤ vgaWidth) (i : Nat) :
    (scrollRow b y n).cell i =
      if y * vgaWidth ≤ i ∧ i < y * vgaWidth + n then b.cell (i + vgaWidth) else b.cell i := by
  induction n generalizing i with
  | zero => exact (if_neg (by omega)).symm
  | succ n ih =>
    -- the loop over row `y` has not come to the row below
    have hbelow : (scrollRow b y n).cell ((y + 1) * vgaWidth + n) =
        b.cell (y * vgaWidth + n + vgaWidth) := by
      rw [ih (by omega), Nat.succ_mul, Nat.add_right_comm]
      exact if_neg (by omega)
    change update (scrollRow b y n).cell (y * vgaWidth + n) _ i = _
    rw [update_apply, hbelow, ih (by omega)]
    split_ifs with hi
    · rw [hi]
    all_goals first | rfl | omega

theorem scrollRow_within (h : b.Within m) (hm : y * vgaWidth + n ≤ m) :
    (scrollRow b y n).Within m := by
  induction n with
  | zero => exact h
  | succ n ih => exact (ih (by omega)).store (by omega) _

theorem scrollRows_cell (b : Buffer) (n i : Nat) : (scrollRows b n).cell i =
    if i < n * vgaWidth then b.cell (i + vgaWidth) else b.cell i := by
  induction n generalizing i with
  | zero => exact (if_neg (by omega)).symm
  | succ n ih =>
    rw [scrollRows, scrollRow_cell _ _ (Nat.le_refl _), ih, ih, Nat.succ_mul]
    split_ifs <;> first | rfl | omega

theorem scrollRows_within (h : b.Within m) (hm : n * vgaWidth ≤ m) : (scrollRows b n).Within m :=
  within_rows h (fun _ hy hrows => scrollRow_within hrows hy) hm

end Buffer

def Cell.entry (c : Cell) : UInt16 := vgaEntry c.char c.color

/-- The screen shows the last 25 rows of the page and its cursor. -/
structure Shows (s : Screen) (p : Page) : Prop where
  window : 24 ≤ p.bottom
  row_le : p.row ≤ p.bottom
  row_eq : s.row + p.bottom = p.row + 24
  column_lt : p.column < 80
  column_eq : s.column = p.column
  color_eq : s.color = p.color
  cells : ∀ y < 25, ∀ x < 80,
    s.buffer.cell (y * vgaWidth + x) = (p.cells (p.bottom - 24 + y) x).entry
  within : s.buffer.Within 2000

section Shows
variable {s : Screen} {p : Page} {x : Nat}

theorem shows_start (s : Screen) (hstores : s.buffer.stores = []) :
    Shows (terminalInitialize s) Page.start where
  window := Nat.le_refl 24
  row_le := by decide
  row_eq := rfl
  column_lt := by decide
  column_eq := rfl
  color_eq := rfl
  cells y hy x hx := by
    have hin : y * vgaWidth + x < vgaHeight * vgaWidth := by
      dsimp only [vgaWidth, vgaHeight]
      omega
    rw [terminalInitialize, fillRows_cell, if_pos hin]
    rfl
  within := by
    refine fillRows_within (fun i hi => ?_) (by decide)
    rw [hstores] at hi
    exact absurd hi List.not_mem_nil

theorem Shows.write (h : Shows s p) (hx : x < 80) (c color : UInt8) :
    Shows (terminalPutentryat s c color x s.row) (p.write x ⟨c, color⟩) := by
  have hrow := h.row_eq
  have hwindow := h.window
  have hle := h.row_le
  refine ⟨hwindow, hle, hrow, h.column_lt, h.column_eq, h.color_eq, fun y hy z hz => ?_, ?_⟩
  · change update s.buffer.cell (s.row * vgaWidth + x) (vgaEntry c color) (y * vgaWidth + z) = _
    rw [update_apply]
    by_cases hcell : y = s.row ∧ z = x
    · obtain ⟨rfl, rfl⟩ := hcell
      have hin : p.bottom - 24 + s.row = p.row := by omega
      rw [if_pos rfl, Page.write_cells, Page.write_bottom, hin, update_self, update_self]
      rfl
    · have hne : y * vgaWidth + z ≠ s.row * vgaWidth + x := by
        dsimp only [vgaWidth]
        omega
      rw [if_neg hne, h.cells y hy z hz, Page.write_cells, Page.write_bottom]
      -- another cell of the row, or another row
      by_cases hy' : p.bottom - 24 + y = p.row
      · rw [hy', update_self, update_of_ne (by omega)]
      · rw [update_of_ne hy']
  · refine h.within.store ?_ _
    dsimp only [vgaWidth]
    omega

/-- The last row becomes blank and the others are those that were one row further down. -/
theorem terminalScroll_cell (s : Screen) {y : Nat} (hy : y < 25) (hx : x < 80) :
    (terminalScroll s).buffer.cell (y * vgaWidth + x) =
      if y = 24 then vgaEntry space s.color else s.buffer.cell ((y + 1) * vgaWidth + x) := by
  dsimp only [terminalScroll]
  rw [fillRow_cell, scrollRows_cell]
  by_cases hlast : y = 24
  · have hin : (vgaHeight - 1) * vgaWidth ≤ y * vgaWidth + x ∧
        y * vgaWidth + x < (vgaHeight - 1) * vgaWidth + vgaWidth := by
      dsimp only [vgaWidth, vgaHeight]
      omega
    rw [if_pos hin, if_pos hlast]
  · have hout : ¬((vgaHeight - 1) * vgaWidth ≤ y * vgaWidth + x ∧
        y * vgaWidth + x < (vgaHeight - 1) * vgaWidth + vgaWidth) := by
      dsimp only [vgaWidth, vgaHeight]
      omega
    have hmoved : y * vgaWidth + x < (vgaHeight - 1) * vgaWidth := by
      dsimp only [vgaWidth, vgaHeight]
      omega
    rw [if_neg hout, if_pos hmoved, if_neg hlast, Nat.succ_mul, Nat.add_right_comm]

theorem Shows.newline (h : Shows s p) : Shows (nextRow s) p.newline := by
  have hrow := h.row_eq
  have hwindow := h.window
  have hle := h.row_le
  rw [nextRow, Page.newline]
  by_cases hbottom : p.row = p.bottom
  · have hlast : s.row + 1 = vgaHeight := by
      rw [vgaHeight]
      omega
    rw [if_pos hlast, if_pos hbottom]
    refine ⟨?_, ?_, ?_, Nat.zero_lt_succ 79, rfl, h.color_eq, fun y hy x hx => ?_, ?_⟩
    · exact Nat.le_succ_of_le hwindow
    · exact Nat.succ_le_succ hle
    · dsimp only [terminalScroll, vgaHeight]
      omega
    · rw [terminalScroll_cell _ hy hx]
      dsimp only
      -- the last row of the window is the new row of the page
      by_cases hy24 : y = 24
      · have hnew : p.bottom + 1 - 24 + y = p.row + 1 := by omega
        rw [if_pos hy24, hnew, update_self, h.color_eq]
        rfl
      · have hmoved : p.bottom + 1 - 24 + y = p.bottom - 24 + (y + 1) := by omega
        rw [if_neg hy24, h.cells (y + 1) (by omega) x hx, update_of_ne (by omega), hmoved]
    · exact fillRow_within (scrollRows_within h.within (by decide)) (by decide)
  · -- above the bottom row both cursors just move
    have hinside : ¬s.row + 1 = vgaHeight := by
      rw [vgaHeight]
      omega
    rw [if_neg hinside, if_neg hbottom]
    refine ⟨hwindow, ?_, ?_, Nat.zero_lt_succ 79, rfl, h.color_eq, h.cells, h.within⟩
    · exact Nat.succ_le_of_lt (Nat.lt_of_le_of_ne hle hbottom)
    · dsimp only
      omega

theorem Shows.advance (h : Shows s p) :
    Shows (if s.column + 1 = vgaWidth then nextRow { s with column := s.column + 1 }
      else { s with column := s.column + 1 }) p.advance := by
  have hcolumn := h.column_eq
  have hlt := h.column_lt
  rw [Page.advance]
  by_cases hend : p.column + 1 = 80
  · rw [if_pos (by rw [hcolumn, hend]; rfl), if_pos hend]
    exact h.newline
  · have hwithin : ¬s.column + 1 = vgaWidth := by
      rw [hcolumn]
      exact hend
    rw [if_neg hwithin, if_neg hend]
    refine ⟨h.window, h.row_le, h.row_eq, ?_, ?_, h.color_eq, h.cells, h.within⟩
    · dsimp only
      omega
    · dsimp only
      omega

theorem Shows.backspace (h : Shows s p) :
    Shows (terminalPutchar s Terminal.backspace) p.backspace := by
  have hcolumn := h.column_eq
  have hlt := h.column_lt
  rw [terminalPutchar, if_neg (by decide), if_pos rfl, Page.backspace]
  by_cases hzero : p.column = 0
  · rw [if_neg (by omega), if_pos hzero]
    exact h
  · rw [if_pos (by omega), if_neg hzero]
    -- the blank is written where the cursor then is
    have hwrite := h.write (x := s.column - 1) (by omega) space s.color
    rw [hcolumn, h.color_eq] at hwrite
    refine ⟨hwrite.window, hwrite.row_le, hwrite.row_eq, ?_, ?_, hwrite.color_eq, ?_, ?_⟩
    · dsimp only
      omega
    · dsimp only [terminalPutentryat]
      omega
    · dsimp only
      rw [hcolumn, h.color_eq]
      exact hwrite.cells
    · dsimp only
      rw [hcolumn, h.color_eq]
      exact hwrite.within

theorem Shows.putchar (h : Shows s p) (c : UInt8) : Shows (terminalPutchar s c) (p.put c) := by
  rw [Page.put]
  by_cases hnewline : c = Terminal.newline
  · rw [terminalPutchar, if_pos hnewline, if_pos hnewline]
    exact h.newline
  · rw [if_neg hnewline]
    by_cases hback : c = Terminal.backspace
    · rw [if_pos hback, hback]
      exact h.backspace
    · rw [terminalPutchar, if_neg hnewline, if_neg hback, if_neg hback]
      have hwrite : Shows (terminalPutentryat s c s.color s.column s.row)
          (p.write p.column ⟨c, p.color⟩) := by
        rw [← h.column_eq, ← h.color_eq]
        exact h.write (h.column_eq ▸ h.column_lt) c s.color
      exact hwrite.advance

theorem Shows.write_all (h : Shows s p) (data : List UInt8) :
    Shows (terminalWrite s data) (data.foldl Page.put p) :=
  foldl_simulation Shows (fun h c => h.putchar c) h data

theorem Shows.call (h : Shows s p) (call : Call) : Shows (call.onScreen s) (call.onPage p) := by
  cases call with
  | putchar c => exact h.putchar c
  | write data => exact h.write_all data
  | writestring data => exact h.write_all _
  | setcolor color =>
    exact ⟨h.window, h.row_le, h.row_eq, h.column_lt, h.column_eq, rfl, h.cells, h.within⟩

end Shows

def Cell.of (v : UInt16) : Cell := ⟨v.toUInt8, (v >>> 8).toUInt8⟩

theorem vgaEntry_toNat (c color : UInt8) :
    (vgaEntry c color).toNat = color.toNat * 256 + c.toNat := by
  have hc := c.toNat_lt
  have hcolor := color.toNat_lt
  have hshift : color.toNat <<< 8 % 2 ^ 16 = color.toNat <<< 8 := by
    rw [Nat.shiftLeft_eq]
    omega
  rw [vgaEntry, UInt16.toNat_or, UInt16.toNat_shiftLeft, UInt8.toNat_toUInt16, UInt8.toNat_toUInt16]
  change c.toNat ||| color.toNat <<< 8 % 2 ^ 16 = _
  rw [hshift, Nat.or_comm, ← Nat.shiftLeft_add_eq_or_of_lt hc, Nat.shiftLeft_eq]

theorem Cell.of_entry (c : Cell) : Cell.of c.entry = c := by
  have hentry := vgaEntry_toNat c.char c.color
  have hchar := c.char.toNat_lt
  have hcolor := c.color.toNat_lt
  rw [Cell.of, Cell.entry]
  congr 1
  · apply UInt8.toNat_inj.mp
    rw [UInt16.toNat_toUInt8, hentry]
    omega
  · apply UInt8.toNat_inj.mp
    rw [UInt16.toNat_toUInt8, UInt16.toNat_shiftRight, hentry]
    change (c.color.toNat * 256 + c.char.toNat) >>> 8 % 2 ^ 8 = _
    rw [Nat.shiftRight_eq_div_pow]
    omega

/-- The driver before it is initialised, with whatever its variables and the video memory
hold; nothing has been stored yet. -/
def uninitialized (row column : Nat) (color : UInt8) (cell : Nat → UInt16) : Screen :=
  ⟨row, column, color, ⟨cell, []⟩⟩

/-- After any calls the buffer shows the last 25 rows of the page, the cursor is that of the
page and inside the window, and every store so far was to one of the 2000 cells. -/
theorem terminal_shows_page (row column : Nat) (color : UInt8) (cell : Nat → UInt16)
    (calls : List Call) :
    let s := calls.foldl Call.onScreen (terminalInitialize (uninitialized row column color cell))
    let p := calls.foldl Call.onPage Page.start
    (∀ y < 25, ∀ x < 80,
      Cell.of (s.buffer.cell (y * 80 + x)) = p.cells (p.bottom - 24 + y) x) ∧
    p.bottom - 24 + s.row = p.row ∧ s.column = p.column ∧ s.row < 25 ∧ s.column < 80 ∧
    ∀ i ∈ s.buffer.stores, i < 2000 := by
  intro s p
  have h : Shows s p := foldl_simulation Shows (fun h call => h.call call) (shows_start _ rfl) calls
  have hwindow := h.window
  have hle := h.row_le
  have hrow := h.row_eq
  refine ⟨fun y hy x hx => ?_, by omega, h.column_eq, by omega, ?_, h.within⟩
  · rw [show y * 80 + x = y * vgaWidth + x from rfl, h.cells y hy x hx, Cell.of_entry]
  · rw [h.column_eq]
    exact h.column_lt

end AlvOS.Terminal
