import AlvOS.Shell.Defs
import AlvOS.Terminal.Reading

/-! What the line reader shows.  The buffer and the screen are edited by separate steps; they
stay in step as long as no backspace is met at the beginning of a row, which the cursor cannot
leave backwards. -/

namespace AlvOS.Shell
open Function Terminal Transition

def typeChar (line : List UInt8) (c : UInt8) : List UInt8 :=
  if c = backspace then line.dropLast
  else if line.length < 255 ∧ 32 ≤ c ∧ c ≤ 126 then line ++ [c] else line

def typed (chars : List UInt8) : List UInt8 := chars.foldl typeChar []

section Edit
variable {r : Reader} {c : UInt8} {line : List UInt8}

theorem typed_concat (pre : List UInt8) (c : UInt8) :
    typed (pre ++ [c]) = typeChar (typed pre) c := by
  unfold typed
  rw [List.foldl_append]
  rfl

theorem length_typed_le (chars : List UInt8) : (typed chars).length ≤ chars.length := by
  induction chars using List.reverseRecOn with
  | nil => exact Nat.le_refl 0
  | append_singleton pre c ih =>
    rw [typed_concat, typeChar, List.length_append, List.length_singleton]
    split_ifs
    · rw [List.length_dropLast]
      omega
    · rw [List.length_append, List.length_singleton]
      omega
    · omega

theorem length_typed_replicate : (typed (List.replicate 78 97)).length = 78 := by
  have hkeep (n : Nat) (hn : n ≤ 255) : typed (List.replicate n 97) = List.replicate n 97 := by
    induction n with
    | zero => rfl
    | succ n ih =>
      have hroom : (List.replicate n (97 : UInt8)).length < 255 ∧ (32 : UInt8) ≤ 97 ∧
          (97 : UInt8) ≤ 126 := by
        rw [List.length_replicate]
        exact ⟨hn, by decide, by decide⟩
      rw [List.replicate_succ', typed_concat, ih (by omega), typeChar, if_neg (by decide),
        if_pos hroom]
  rw [hkeep 78 (by decide), List.length_replicate]

def Reader.kept (r : Reader) (c : UInt8) : Reader :=
  { r with buffer := update (update r.buffer r.pos c) (r.pos + 1) 0, pos := r.pos + 1 }

def Reader.dropped (r : Reader) : Reader :=
  { r with buffer := update r.buffer (r.pos - 1) 0, pos := r.pos - 1 }

theorem Reader.edit_cases (r : Reader) (c : UInt8) :
    (c = backspace ∧ 0 < r.pos ∧
      r.edit c = ((r.dropped.putchar backspace).putchar space).putchar backspace) ∨
    (c ≠ backspace ∧ (r.pos < 255 ∧ 32 ≤ c ∧ c ≤ 126) ∧ r.edit c = (r.kept c).putchar c) ∨
    ((if c = backspace then r.pos = 0 else ¬(r.pos < 255 ∧ 32 ≤ c ∧ c ≤ 126)) ∧ r.edit c = r) := by
  unfold edit
  by_cases hback : c = backspace
  · by_cases hpos : 0 < r.pos
    · exact .inl ⟨hback, hpos, by rw [if_pos hback, if_pos hpos]; rfl⟩
    · rw [if_pos hback, if_pos hback, if_neg hpos]
      exact .inr (.inr ⟨by omega, rfl⟩)
  · rw [if_neg hback, if_neg hback]
    by_cases hkeep : r.pos < 255 ∧ 32 ≤ c ∧ c ≤ 126
    · exact .inr (.inl ⟨hback, hkeep, if_pos hkeep⟩)
    · exact .inr (.inr ⟨hkeep, if_neg hkeep⟩)

theorem Reader.edit_pos (hpos : r.pos = line.length) :
    (r.edit c).pos = (typeChar line c).length := by
  unfold typeChar
  rw [← hpos]
  obtain ⟨hback, h0, heq⟩ | ⟨hback, hkeep, heq⟩ | ⟨hsame, heq⟩ := r.edit_cases c
  · rw [heq, if_pos hback, List.length_dropLast, ← hpos]
    rfl
  · rw [heq, if_neg hback, if_pos hkeep, List.length_append, ← hpos]
    rfl
  · rw [heq]
    split_ifs at hsame ⊢ with hback
    · rw [List.length_dropLast, ← hpos, hsame]
    · exact hpos

end Edit

/-- The cells of the screen from the one just after the prompt up to the cursor spell the
buffer up to its position.  `origin` is where that cell was when the line was begun. -/
def Reader.Displays (origin : Nat) (r : Reader) : Prop :=
  origin + r.pos = r.screen.row * vgaWidth + r.screen.column + r.scrolled * vgaWidth ∧
  ∀ i < r.pos, ∃ cell, cell + r.scrolled * vgaWidth = origin + i ∧
    (Cell.of (r.screen.buffer.cell cell)).char = r.buffer i

theorem prompt_column (p : Page) : (shellPrompt.foldl Call.onPage p).column = 2 := by
  obtain ⟨q, hq⟩ : ∃ q : Page, shellPrompt.foldl Call.onPage p =
      Call.onPage (Call.onPage (Call.onPage q (.writestring (text "]\n")))
        (.writestring (text "$ "))) (.setcolor (vgaEntryColor .lightGrey .black)) := ⟨_, rfl⟩
  have hrow : Call.onPage q (.writestring (text "]\n")) = (q.put 93).put newline := rfl
  have hdollar (p : Page) : Call.onPage p (.writestring (text "$ ")) = (p.put 36).put space := rfl
  have hcolumn : ((q.put 93).put newline).column = 0 := by
    rw [Page.put, if_pos rfl]
    exact Page.newline_column _
  have hfirst : (((q.put 93).put newline).put 36).column = 1 := by
    rw [Page.put_column (by decide) (by decide) (by rw [hcolumn]; decide), hcolumn]
  have hsecond : ((((q.put 93).put newline).put 36).put space).column = 2 := by
    rw [Page.put_column (by decide) (by decide) (by rw [hfirst]; decide), hfirst]
  have hcolor (p : Page) (color : UInt8) :
      (Call.onPage p (.setcolor color)).column = p.column := rfl
  rw [hq, hrow, hdollar, hcolor, hsecond]

theorem bottom_put {s : Screen} {p : Page} (h : Shows s p) (c : UInt8) :
    (p.put c).bottom = p.bottom + scrolls s c := by
  have hrow := h.row_eq
  have hcolumn := h.column_eq
  have hbottom : s.row + 1 = vgaHeight ↔ p.row = p.bottom := by
    rw [vgaHeight]
    omega
  have hend : s.column + 1 = vgaWidth ↔ p.column + 1 = 80 := by
    rw [hcolumn]
    rfl
  rw [Page.put_bottom, scrolls]
  congr 1
  exact if_congr (by rw [hbottom, hend]) rfl rfl

/-- The page `p` of a reader whose line was begun on the page `p₀`, in step with it. -/
structure Synced (p₀ : Page) (r : Reader) (p : Page) : Prop where
  shows : Shows r.screen p
  pos_le : r.pos ≤ 255
  bottom_eq : p.bottom = p₀.bottom + r.scrolled
  bottom_le : p.bottom ≤ max p₀.bottom p.row
  place_eq : p.place = p₀.place + r.pos
  cells : ∀ i < r.pos, (p.cellAt (p₀.place + i)).char = r.buffer i

section Synced
variable {r : Reader} {p p₀ : Page} {c : UInt8}

theorem Synced.kept (h : Synced p₀ r p) (hroom : r.pos < 255) (hprint : 32 ≤ c) :
    Synced p₀ ((r.kept c).putchar c) (p.put c) := by
  have hcontrol {k : UInt8} (hk : k < 32) : c ≠ k := by
    rintro rfl
    exact UInt8.not_le.mpr hk hprint
  have hnewline : c ≠ newline := hcontrol (by decide)
  have hback : c ≠ backspace := hcontrol (by decide)
  have hplace := h.place_eq
  refine ⟨h.shows.putchar c, hroom, ?_, ?_, ?_, fun i hi => ?_⟩
  · rw [bottom_put h.shows, h.bottom_eq, Nat.add_assoc]
    rfl
  · have hle := h.bottom_le
    rw [Page.put_eq p hnewline hback, Page.advance_bottom, Page.advance_row]
    change (if p.column + 1 = 80 ∧ p.row = p.bottom then p.bottom + 1 else p.bottom) ≤
      max p₀.bottom (if p.column + 1 = 80 then p.row + 1 else p.row)
    split_ifs
    all_goals omega
  · rw [Page.put_place p hnewline hback, hplace, Nat.add_assoc]
    rfl
  · have hi' : i < r.pos + 1 := hi
    rw [Page.put_cellAt h.shows.column_lt hnewline hback (by omega)]
    change _ = update (update r.buffer r.pos c) (r.pos + 1) 0 i
    rw [update_of_ne (by omega), update_apply]
    by_cases hlast : i = r.pos
    · rw [if_pos (by omega), if_pos hlast]
    · rw [if_neg (by omega), if_neg hlast]
      exact h.cells i (by omega)

theorem Synced.dropped (h : Synced p₀ r p) (hpos : 0 < r.pos) (hinside : 0 < p.column) :
    Synced p₀ (((r.dropped.putchar backspace).putchar space).putchar backspace)
      (p.backspace.put space).backspace := by
  have hput (p : Page) : p.put backspace = p.backspace := rfl
  obtain ⟨hplace, hrow, hbottom, hcells⟩ := Page.erase_back hinside h.shows.column_lt
  have h1 : Shows (r.dropped.putchar backspace).screen p.backspace := h.shows.putchar backspace
  have h2 : Shows ((r.dropped.putchar backspace).putchar space).screen (p.backspace.put space) :=
    h1.putchar space
  have hle := h.bottom_le
  have hstart := h.place_eq
  refine ⟨h2.putchar backspace, ?_, ?_, by omega, ?_, fun i hi => ?_⟩
  · exact (Nat.sub_le _ _).trans h.pos_le
  · rw [← hput (p.backspace.put space), bottom_put h2, bottom_put h1, ← hput p,
      bottom_put h.shows, h.bottom_eq]
    change _ = p₀.bottom + (r.scrolled + _ + _ + _)
    rw [← Nat.add_assoc, ← Nat.add_assoc, ← Nat.add_assoc]
    rfl
  · change _ = p₀.place + (r.pos - 1)
    omega
  · have hi' : i < r.pos - 1 := hi
    rw [hcells _ (by omega), h.cells i (by omega)]
    exact (update_of_ne (by omega) _ _).symm

theorem Synced.displays {s₀ : Screen} (h : Synced p₀ r p) (h₀ : Shows s₀ p₀) :
    r.Displays (s₀.row * vgaWidth + s₀.column) := by
  have hrow := h.shows.row_eq
  have hcolumn := h.shows.column_eq
  have hlt := h.shows.column_lt
  have hwindow := h.shows.window
  have hle := h.shows.row_le
  have hrow₀ := h₀.row_eq
  have hcolumn₀ := h₀.column_eq
  have hlt₀ := h₀.column_lt
  have hle₀ := h₀.row_le
  have hbottom := h.bottom_eq
  have hbottom_le := h.bottom_le
  have hpos := h.pos_le
  have hplace := h.place_eq
  unfold Page.place at hplace
  refine ⟨?_, fun i hi => ?_⟩
  · dsimp only [vgaWidth]
    omega
  · have hchar := h.cells i hi
    unfold Page.cellAt Page.place at hchar
    obtain ⟨y, x, hyx, hx⟩ : ∃ y x, p₀.row * 80 + p₀.column + i = y * 80 + x ∧ x < 80 :=
      ⟨_, _, (Nat.div_add_mod' _ 80).symm, Nat.mod_lt _ (by decide)⟩
    have hdiv : (y * 80 + x) / 80 = y := by omega
    have hmod : (y * 80 + x) % 80 = x := by omega
    rw [hyx, hdiv, hmod] at hchar
    -- the row is one of those in the window
    have hin : p.bottom - 24 + (y - (p.bottom - 24)) = y := by omega
    have hcell := h.shows.cells (y - (p.bottom - 24)) (by omega) x hx
    rw [hin] at hcell
    refine ⟨(y - (p.bottom - 24)) * vgaWidth + x, ?_, ?_⟩
    · dsimp only [vgaWidth]
      omega
    · rw [hcell, Cell.of_entry, hchar]

end Synced

section Edit
variable {s₀ : Screen} {p p₀ : Page} {r : Reader} {c : UInt8}

theorem Synced.column_eq_zero_iff (h : Synced p₀ r p) (hprompt : p₀.column = 2) :
    p.column = 0 ↔ r.pos % 80 = 78 := by
  have hlt := h.shows.column_lt
  have hplace := h.place_eq
  unfold Page.place at hplace
  omega

theorem Synced.edit (h : Synced p₀ r p) (hprompt : p₀.column = 2)
    (hgood : c = backspace → r.pos % 80 ≠ 78) : ∃ p', Synced p₀ (r.edit c) p' := by
  obtain ⟨hback, hpos, heq⟩ | ⟨-, ⟨hroom, hprint, -⟩, heq⟩ | ⟨-, heq⟩ := r.edit_cases c
  · have hinside : 0 < p.column :=
      Nat.pos_of_ne_zero fun h0 => hgood hback ((h.column_eq_zero_iff hprompt).mp h0)
    exact ⟨_, heq ▸ h.dropped hpos hinside⟩
  · exact ⟨_, heq ▸ h.kept hroom hprint⟩
  · rw [heq]
    exact ⟨p, h⟩

theorem scrolls_backspace (s : Screen) : scrolls s backspace = 0 := by
  apply if_neg
  rintro ⟨h | h, -⟩
  · exact absurd h (by decide)
  · exact h.1 rfl

theorem Reader.stuck (hcolumn : r.screen.column = 0) :
    let r' := ((r.dropped.putchar backspace).putchar space).putchar backspace
    r'.screen.row = r.screen.row ∧ r'.screen.column = 0 ∧ r'.scrolled = r.scrolled := by
  intro r'
  have hstays : terminalPutchar r.screen backspace = r.screen := by
    rw [terminalPutchar, if_neg (by decide), if_pos rfl, if_neg (by omega)]
  have hinside : r.screen.column + 1 ≠ vgaWidth := by
    rw [hcolumn]
    decide
  have hblank : terminalPutchar r.screen space =
      { terminalPutentryat r.screen space r.screen.color r.screen.column r.screen.row with
        column := r.screen.column + 1 } := by
    rw [terminalPutchar, if_neg (by decide), if_neg (by decide)]
    exact if_neg hinside
  have hscrolls : scrolls r.screen space = 0 := by
    apply if_neg
    rintro ⟨h | h, -⟩
    · exact absurd h (by decide)
    · exact hinside h.2
  have hscreen : r'.screen =
      terminalPutchar (terminalPutchar (terminalPutchar r.screen backspace) space) backspace := rfl
  have hscrolled : r'.scrolled = r.scrolled + scrolls r.screen backspace +
      scrolls (terminalPutchar r.screen backspace) space +
      scrolls (terminalPutchar (terminalPutchar r.screen backspace) space) backspace := rfl
  rw [hstays, hblank, terminalPutchar, if_neg (by decide), if_pos rfl,
    if_pos (Nat.succ_pos _)] at hscreen
  rw [hstays, scrolls_backspace, scrolls_backspace, hscrolls] at hscrolled
  refine ⟨?_, ?_, hscrolled⟩
  · rw [hscreen]
    rfl
  · rw [hscreen]
    exact hcolumn

/-- So the line on the screen is then one character too long. -/
theorem Reader.not_displays {origin : Nat} (h : r.Displays origin) (hpos : 0 < r.pos)
    (hcolumn : r.screen.column = 0) : ¬(r.edit backspace).Displays origin := by
  intro hafter
  obtain ⟨-, -, heq⟩ | ⟨hne, -⟩ | ⟨hsame, -⟩ := r.edit_cases backspace
  · obtain ⟨hrow, hcolumn', hscrolled⟩ := Reader.stuck hcolumn
    have hbefore := h.1
    have hlength := hafter.1
    rw [heq, hrow, hcolumn', hscrolled] at hlength
    change origin + (r.pos - 1) = _ at hlength
    omega
  · exact hne rfl
  · rw [if_pos rfl] at hsame
    omega

end Edit

section Runs
variable {s₀ : Screen} {p₀ : Page} {r₀ : Reader}

/-- The reader is in step after `chars`, and its line is what they amount to. -/
def Follows (p₀ : Page) (r₀ : Reader) (chars : List UInt8) : Prop :=
  (chars.foldl Reader.edit r₀).pos = (typed chars).length ∧
    ∃ p, Synced p₀ (chars.foldl Reader.edit r₀) p

theorem Follows.edit {pre : List UInt8} {c : UInt8} (h : Follows p₀ r₀ pre)
    (hprompt : p₀.column = 2) (hgood : c = backspace → (typed pre).length % 80 ≠ 78) :
    Follows p₀ r₀ (pre ++ [c]) := by
  obtain ⟨hpos, p, hp⟩ := h
  rw [← hpos] at hgood
  unfold Follows
  rw [typed_concat, List.foldl_append]
  exact ⟨Reader.edit_pos hpos, hp.edit hprompt hgood⟩

theorem synced_begin {s : Screen} (h₀ : Shows (shellShowPrompt s) p₀) (buffer : Nat → UInt8) :
    Synced p₀ (shellBegin s buffer) p₀ where
  shows := h₀
  pos_le := Nat.zero_le _
  bottom_eq := rfl
  bottom_le := Nat.le_max_left _ _
  place_eq := rfl
  cells i hi := absurd hi (Nat.not_lt_zero i)

theorem displays_iff (h₀ : Shows s₀ p₀) (hprompt : p₀.column = 2) (hstart : Synced p₀ r₀ p₀)
    (hempty : r₀.pos = 0) (chars : List UInt8) :
    (∀ pre, pre <+: chars →
      (pre.foldl Reader.edit r₀).Displays (s₀.row * vgaWidth + s₀.column)) ↔
      ∀ pre c, pre ++ [c] <+: chars → c = backspace → (typed pre).length % 80 ≠ 78 := by
  have hnil : Follows p₀ r₀ [] := ⟨hempty, p₀, hstart⟩
  have hshown (pre : List UInt8) (h : Follows p₀ r₀ pre) :
      (pre.foldl Reader.edit r₀).Displays (s₀.row * vgaWidth + s₀.column) := by
    obtain ⟨-, p, hp⟩ := h
    exact hp.displays h₀
  have hbad (pre : List UInt8) (c : UInt8) (h : Follows p₀ r₀ pre)
      (hbad : ¬(c = backspace → (typed pre).length % 80 ≠ 78)) :
      ¬((pre ++ [c]).foldl Reader.edit r₀).Displays (s₀.row * vgaWidth + s₀.column) := by
    obtain ⟨rfl, hfull⟩ : c = backspace ∧ (typed pre).length % 80 = 78 := by
      by_contra hnot
      exact hbad fun hback hfull => hnot ⟨hback, hfull⟩
    obtain ⟨hpos, p, hp⟩ := h
    rw [← hpos] at hfull
    have hcolumn := hp.shows.column_eq.trans ((hp.column_eq_zero_iff hprompt).mpr hfull)
    rw [List.foldl_append]
    exact Reader.not_displays (hp.displays h₀) (by omega) hcolumn
  exact forall_prefix_iff hnil hshown (fun pre c h => h.edit hprompt) hbad chars

end Runs

theorem Reader.loop_eq {chars : List UInt8} (h : newline ∉ chars) (r : Reader) :
    r.loop chars = (chars.foldl Reader.edit r, false) := by
  induction chars generalizing r with
  | nil => rfl
  | cons c chars ih =>
    rw [List.mem_cons, not_or] at h
    exact (if_neg (Ne.symm h.1)).trans (ih h.2 _)

theorem shellReadline_eq {chars : List UInt8} (h : newline ∉ chars) (s : Screen)
    (buffer : Nat → UInt8) :
    (shellReadline s buffer chars).1 = chars.foldl Reader.edit (shellBegin s buffer) := by
  rw [shellReadline, Reader.loop_eq h]

/-- Where the cell just after the prompt is. -/
def promptEnd (s : Screen) : Nat :=
  (shellShowPrompt s).row * vgaWidth + (shellShowPrompt s).column

theorem shows_prompt {row column : Nat} (hrow : row < 25) (hcolumn : column < 80) (color : UInt8)
    (cell : Nat → UInt16) : Shows (shellShowPrompt ⟨row, column, color, ⟨cell, []⟩⟩)
      (shellPrompt.foldl Call.onPage (pageOf row column color cell)) :=
  foldl_simulation Shows (fun h call => h.call call) (shows_pageOf hrow hcolumn color cell) _

/-- The line is on the screen after every character exactly when no backspace comes while it
fills its rows, at 78, 158 or 238 characters. -/
theorem readline_displays {row column : Nat} (hrow : row < 25) (hcolumn : column < 80)
    (color : UInt8) (cell : Nat → UInt16) (buffer : Nat → UInt8) {chars : List UInt8}
    (hchars : newline ∉ chars) :
    (∀ pre, pre <+: chars →
      (shellReadline ⟨row, column, color, ⟨cell, []⟩⟩ buffer pre).1.Displays
        (promptEnd ⟨row, column, color, ⟨cell, []⟩⟩)) ↔
      ∀ pre c, pre ++ [c] <+: chars → c = backspace → (typed pre).length % 80 ≠ 78 := by
  have h₀ := shows_prompt hrow hcolumn color cell
  rw [← displays_iff h₀ (prompt_column _) (synced_begin h₀ buffer) rfl chars]
  refine forall₂_congr fun pre hpre => ?_
  rw [shellReadline_eq fun hin => hchars (hpre.subset hin)]
  rfl

/-- A character and a backspace, on an empty screen. -/
theorem readline_displays_short :
    (shellReadline ⟨0, 0, 7, ⟨fun _ => 0, []⟩⟩ (fun _ => 0) [97, backspace]).1.Displays
      (promptEnd ⟨0, 0, 7, ⟨fun _ => 0, []⟩⟩) := by
  refine (readline_displays (by decide) (by decide) 7 (fun _ => 0) (fun _ => 0)
    (by decide)).mpr (fun pre c hpre _ => ?_) _ (List.prefix_refl _)
  have hshort := hpre.length_le
  have hle := length_typed_le pre
  rw [List.length_append] at hshort
  change pre.length + 1 ≤ 2 at hshort
  omega

/-- After 78 characters a backspace shortens the line, but what is on the screen stays. -/
theorem readline_displays_failure :
    ¬(shellReadline ⟨0, 0, 7, ⟨fun _ => 0, []⟩⟩ (fun _ => 0)
        (List.replicate 78 97 ++ [backspace])).1.Displays
      (promptEnd ⟨0, 0, 7, ⟨fun _ => 0, []⟩⟩) ∧
    ¬∀ row column color cell buffer chars, row < 25 → column < 80 → newline ∉ chars →
      ∀ pre, pre <+: chars →
        (shellReadline ⟨row, column, color, ⟨cell, []⟩⟩ buffer pre).1.Displays
          (promptEnd ⟨row, column, color, ⟨cell, []⟩⟩) := by
  have hchars : newline ∉ List.replicate 78 97 ++ [backspace] := by decide
  have h₀ := shows_prompt (show 0 < 25 by decide) (show 0 < 80 by decide) 7 fun _ => 0
  have hiff := displays_iff h₀ (prompt_column _) (synced_begin h₀ fun _ => 0) rfl
  have hlonger : ¬(shellReadline ⟨0, 0, 7, ⟨fun _ => 0, []⟩⟩ (fun _ => 0)
      (List.replicate 78 97 ++ [backspace])).1.Displays
        (promptEnd ⟨0, 0, 7, ⟨fun _ => 0, []⟩⟩) := by
    intro hshown
    rw [shellReadline_eq hchars] at hshown
    -- what comes before is displayed, so only the backspace could spoil it
    have hbefore := (hiff (List.replicate 78 97)).mpr fun pre c hpre hback => ?_
    · refine (hiff (List.replicate 78 97 ++ [backspace])).mp (fun pre hpre => ?_)
        (List.replicate 78 97) backspace (List.prefix_refl _) rfl (by rw [length_typed_replicate])
      rcases List.prefix_concat_iff.mp hpre with rfl | hpre
      · exact hshown
      · exact hbefore pre hpre
    · have hmem := hpre.subset (List.mem_append_right pre (List.mem_singleton_self c))
      rw [List.eq_of_mem_replicate hmem] at hback
      exact absurd hback (by decide)
  refine ⟨hlonger, fun hclaim => hlonger ?_⟩
  exact hclaim 0 0 7 (fun _ => 0) (fun _ => 0) _ (by decide) (by decide) hchars _
    (List.prefix_refl _)

end AlvOS.Shell
