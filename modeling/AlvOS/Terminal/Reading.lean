import AlvOS.Terminal.Page

/-! The page in reading order.  A printed character goes to the place of the cursor, and the
cursor to the next place; a backspace takes the cursor to the place before, but not from the
beginning of a row. -/

namespace AlvOS.Terminal
open Function

namespace Page

def place (p : Page) : Nat := p.row * 80 + p.column

def cellAt (p : Page) (i : Nat) : Cell := p.cells (i / 80) (i % 80)

section Order
variable {p : Page} {x i : Nat} {c : UInt8}

theorem cellAt_write (p : Page) (hx : x < 80) (cell : Cell) (i : Nat) :
    (p.write x cell).cellAt i = if i = p.row * 80 + x then cell else p.cellAt i := by
  rw [cellAt, write_cells]
  by_cases hrow : i / 80 = p.row
  · rw [hrow, update_self, update_apply]
    by_cases hcolumn : i % 80 = x
    · rw [if_pos hcolumn, if_pos (by omega)]
    · rw [if_neg hcolumn, if_neg (by omega), cellAt, hrow]
  · rw [update_of_ne hrow, if_neg (by omega), cellAt]

theorem newline_place (p : Page) : p.newline.place = (p.row + 1) * 80 := by
  unfold newline
  split_ifs
  all_goals rfl

theorem newline_column (p : Page) : p.newline.column = 0 := by
  unfold newline
  split_ifs
  all_goals rfl

theorem newline_cellAt (p : Page) (hi : i < (p.row + 1) * 80) : p.newline.cellAt i = p.cellAt i := by
  unfold newline
  split_ifs
  · have hbefore : i / 80 ≠ p.row + 1 := by omega
    exact congrFun (update_of_ne hbefore (fun _ => ⟨space, p.color⟩) p.cells) (i % 80)
  · rfl

theorem newline_bottom (p : Page) :
    p.newline.bottom = if p.row = p.bottom then p.bottom + 1 else p.bottom := by
  unfold newline
  split_ifs
  all_goals rfl

theorem newline_row (p : Page) : p.newline.row = p.row + 1 := by
  unfold newline
  split_ifs
  all_goals rfl

theorem advance_place (p : Page) : p.advance.place = p.place + 1 := by
  unfold advance
  by_cases hend : p.column + 1 = 80
  · rw [if_pos hend, newline_place, place]
    omega
  · rw [if_neg hend]
    rfl

theorem advance_cellAt (hi : i < (p.row + 1) * 80) : p.advance.cellAt i = p.cellAt i := by
  unfold advance
  split_ifs
  · exact newline_cellAt p hi
  · rfl

theorem advance_bottom (p : Page) : p.advance.bottom =
    if p.column + 1 = 80 ∧ p.row = p.bottom then p.bottom + 1 else p.bottom := by
  unfold advance
  by_cases hend : p.column + 1 = 80
  · rw [if_pos hend, newline_bottom]
    simp only [hend, true_and]
  · rw [if_neg hend, if_neg fun h => hend h.1]

theorem advance_row (p : Page) :
    p.advance.row = if p.column + 1 = 80 then p.row + 1 else p.row := by
  unfold advance
  split_ifs
  · exact newline_row p
  · rfl

theorem put_eq (p : Page) (hnewline : c ≠ Terminal.newline) (hback : c ≠ Terminal.backspace) :
    p.put c = (p.write p.column ⟨c, p.color⟩).advance := by
  rw [put, if_neg hnewline, if_neg hback]

theorem put_place (p : Page) (hnewline : c ≠ Terminal.newline) (hback : c ≠ Terminal.backspace) :
    (p.put c).place = p.place + 1 := by
  rw [put_eq p hnewline hback]
  exact advance_place _

theorem put_cellAt (hcolumn : p.column < 80) (hnewline : c ≠ Terminal.newline)
    (hback : c ≠ Terminal.backspace) (hi : i ≤ p.place) :
    (p.put c).cellAt i = if i = p.place then ⟨c, p.color⟩ else p.cellAt i := by
  unfold place at hi ⊢
  have hrow : i < ((p.write p.column ⟨c, p.color⟩).row + 1) * 80 := by
    change i < (p.row + 1) * 80
    omega
  rw [put_eq p hnewline hback, advance_cellAt hrow]
  exact cellAt_write p hcolumn _ i

theorem put_column (hnewline : c ≠ Terminal.newline) (hback : c ≠ Terminal.backspace)
    (hinside : p.column + 1 ≠ 80) : (p.put c).column = p.column + 1 := by
  rw [put_eq p hnewline hback, advance]
  exact congrArg Page.column (if_neg hinside)

theorem put_bottom (p : Page) (c : UInt8) : (p.put c).bottom = p.bottom +
    if (c = Terminal.newline ∨ c ≠ Terminal.backspace ∧ p.column + 1 = 80) ∧ p.row = p.bottom
    then 1 else 0 := by
  by_cases hnewline : c = Terminal.newline
  · rw [put, if_pos hnewline, newline_bottom]
    simp only [hnewline, true_or, true_and]
    split_ifs
    all_goals rfl
  · by_cases hback : c = Terminal.backspace
    · have hsame : p.backspace.bottom = p.bottom := by
        unfold backspace
        split_ifs
        all_goals rfl
      have hstays : ¬((c = Terminal.newline ∨ c ≠ Terminal.backspace ∧ p.column + 1 = 80) ∧
          p.row = p.bottom) := by
        rintro ⟨h | h, -⟩
        · exact hnewline h
        · exact h.1 hback
      rw [put, if_neg hnewline, if_pos hback, hsame, if_neg hstays, Nat.add_zero]
    · rw [put_eq p hnewline hback, advance_bottom]
      have hsame : p.column + 1 = 80 ∧ p.row = p.bottom ↔
          (c = Terminal.newline ∨ c ≠ Terminal.backspace ∧ p.column + 1 = 80) ∧ p.row = p.bottom := by
        simp only [hnewline, hback, false_or, ne_eq, not_false_eq_true, true_and]
      exact (if_congr hsame rfl rfl).trans (apply_ite (p.bottom + ·) _ 1 0).symm

theorem backspace_back (hpos : 0 < p.column) (hcolumn : p.column < 80) :
    p.backspace.place + 1 = p.place ∧ p.backspace.column + 1 = p.column ∧
      p.backspace.row = p.row ∧ p.backspace.bottom = p.bottom ∧
      ∀ i < p.backspace.place, p.backspace.cellAt i = p.cellAt i := by
  have hback : p.backspace =
      { p.write (p.column - 1) ⟨space, p.color⟩ with column := p.column - 1 } :=
    if_neg (by omega)
  have hplace : p.backspace.place = p.row * 80 + (p.column - 1) := by
    rw [hback]
    rfl
  refine ⟨?_, ?_, ?_, ?_, fun i hi => ?_⟩
  · rw [hplace, place]
    omega
  · rw [hback]
    exact Nat.sub_add_cancel hpos
  · rw [hback]
    rfl
  · rw [hback]
    rfl
  · rw [hplace] at hi
    rw [hback]
    exact (cellAt_write p (by omega) _ i).trans (if_neg (Nat.ne_of_lt hi))

theorem erase_back (hpos : 0 < p.column) (hcolumn : p.column < 80) :
    ((p.backspace.put space).backspace).place + 1 = p.place ∧
      ((p.backspace.put space).backspace).row = p.row ∧
      ((p.backspace.put space).backspace).bottom = p.bottom ∧
      ∀ i < ((p.backspace.put space).backspace).place,
        ((p.backspace.put space).backspace).cellAt i = p.cellAt i := by
  obtain ⟨hplace, hcol, hrow, hbottom, hcells⟩ := backspace_back hpos hcolumn
  have hput : p.backspace.put space =
      { p.backspace.write p.backspace.column ⟨space, p.backspace.color⟩ with
        column := p.backspace.column + 1 } := by
    rw [put_eq _ (by decide) (by decide)]
    exact if_neg (show ¬p.backspace.column + 1 = 80 by omega)
  have hcolumn' : (p.backspace.put space).column = p.column := by
    rw [hput]
    exact hcol
  obtain ⟨hplace', -, hrow', hbottom', hcells'⟩ :=
    backspace_back (p := p.backspace.put space) (by omega) (by omega)
  have hnext : (p.backspace.put space).place = p.backspace.place + 1 :=
    put_place p.backspace (by decide) (by decide)
  refine ⟨by omega, hrow'.trans ?_, hbottom'.trans ?_, fun i hi => ?_⟩
  · rw [hput]
    exact hrow
  · rw [hput]
    exact hbottom
  · rw [hcells' i hi, put_cellAt (show p.backspace.column < 80 by omega) (by decide) (by decide)
      (by omega), if_neg (by omega), hcells i (by omega)]

end Order

end Page

def pageOf (row column : Nat) (color : UInt8) (cell : Nat → UInt16) : Page where
  cells y x := Cell.of (cell (y * vgaWidth + x))
  bottom := 24
  row := row
  column := column
  color := color

theorem Cell.entry_of (v : UInt16) : (Cell.of v).entry = v := by
  have hlt := v.toNat_lt
  apply UInt16.toNat_inj.mp
  rw [Cell.entry, vgaEntry_toNat, Cell.of, UInt16.toNat_toUInt8, UInt16.toNat_toUInt8,
    UInt16.toNat_shiftRight]
  change v.toNat >>> 8 % 2 ^ 8 * 256 + v.toNat % 2 ^ 8 = _
  rw [Nat.shiftRight_eq_div_pow]
  omega

theorem shows_pageOf {row column : Nat} (hrow : row < 25) (hcolumn : column < 80) (color : UInt8)
    (cell : Nat → UInt16) :
    Shows ⟨row, column, color, ⟨cell, []⟩⟩ (pageOf row column color cell) where
  window := Nat.le_refl 24
  row_le := Nat.le_of_lt_succ hrow
  row_eq := rfl
  column_lt := hcolumn
  column_eq := rfl
  color_eq := rfl
  cells y hy x hx := by
    rw [pageOf, Cell.entry_of]
    dsimp only
    rw [Nat.sub_self, Nat.zero_add]
  within i hi := absurd hi List.not_mem_nil

end AlvOS.Terminal
