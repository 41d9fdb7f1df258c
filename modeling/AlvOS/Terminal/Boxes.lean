import AlvOS.Lib.Word
import AlvOS.Terminal.Page

/-! The shading and the boxes of terminal.c.  A stroke of the pen is the area of the screen
that it covers and the entry that it leaves there; a box is six strokes, the later ones over
the earlier ones. -/

namespace AlvOS.Terminal
open Function Word

def shadowChar : UInt8 := 0xB0

structure BoxChars where
  topLeft : UInt8
  topRight : UInt8
  bottomLeft : UInt8
  bottomRight : UInt8
  horizontal : UInt8
  vertical : UInt8

def boxSingle : BoxChars := ⟨0xDA, 0xBF, 0xC0, 0xD9, 0xC4, 0xB3⟩

def boxDouble : BoxChars := ⟨0xC9, 0xBB, 0xC8, 0xBC, 0xCD, 0xBA⟩

/-- `for (size_t i = lo; i < hi; i++)`; a second condition on `i` is the smaller bound. -/
def forLoop (lo hi : Nat) (body : Screen → Nat → Screen) (s : Screen) : Screen :=
  (List.range' lo (hi - lo)).foldl body s

def terminalDrawShadowChar (s : Screen) (x y : Nat) (fg bg : VgaColor) : Screen :=
  if vgaWidth ≤ x ∨ vgaHeight ≤ y then s
  else terminalPutentryat s shadowChar (vgaEntryColor fg bg) x y

def terminalDrawShadowPattern (s : Screen) (startX startY width height : Nat)
    (fg bg : VgaColor) : Screen :=
  forLoop startY (min (u64 (startY + height)) vgaHeight)
    (fun s y => forLoop startX (min (u64 (startX + width)) vgaWidth)
      (fun s x => terminalDrawShadowChar s x y fg bg) s) s

def terminalDrawBoxChar (s : Screen) (x y : Nat) (boxChar : UInt8) (fg bg : VgaColor) : Screen :=
  if vgaWidth ≤ x ∨ vgaHeight ≤ y then s
  else terminalPutentryat s boxChar (vgaEntryColor fg bg) x y

/-- `start + size - 1`. -/
def lastOf (start size : Nat) : Nat := u64 (start + size + (2 ^ 64 - 1))

def drawBox (g : BoxChars) (s : Screen) (x y width height : Nat) (fg bg : VgaColor) : Screen :=
  -- corners
  let s := terminalDrawBoxChar s x y g.topLeft fg bg
  let s := terminalDrawBoxChar s (lastOf x width) y g.topRight fg bg
  let s := terminalDrawBoxChar s x (lastOf y height) g.bottomLeft fg bg
  let s := terminalDrawBoxChar s (lastOf x width) (lastOf y height) g.bottomRight fg bg
  -- horizontal sides
  let s := forLoop (u64 (x + 1)) (lastOf x width) (fun s i =>
    let s := terminalDrawBoxChar s i y g.horizontal fg bg
    terminalDrawBoxChar s i (lastOf y height) g.horizontal fg bg) s
  -- vertical sides
  forLoop (u64 (y + 1)) (lastOf y height) (fun s j =>
    let s := terminalDrawBoxChar s x j g.vertical fg bg
    terminalDrawBoxChar s (lastOf x width) j g.vertical fg bg) s

def terminalDrawSingleBox (s : Screen) (x y width height : Nat) (fg bg : VgaColor) : Screen :=
  drawBox boxSingle s x y width height fg bg

def terminalDrawDoubleBox (s : Screen) (x y width height : Nat) (fg bg : VgaColor) : Screen :=
  drawBox boxDouble s x y width height fg bg

/-! ## Strokes -/

def OnScreen (x y : Nat) : Prop := x < vgaWidth ∧ y < vgaHeight

def Screen.entryAt (s : Screen) (x y : Nat) : UInt16 := s.buffer.cell (y * vgaWidth + x)

structure Keeps (s t : Screen) (i : Nat) : Prop where
  cell : t.buffer.cell i = s.buffer.cell i
  stores : i ∈ t.buffer.stores → i ∈ s.buffer.stores

/-- A stroke over an area: what is seen of it, and nothing else, gets the entry. -/
structure Stroke (area : Nat → Nat → Prop) (v : UInt16) (s t : Screen) : Prop where
  inside : ∀ x y, OnScreen x y → area x y → t.entryAt x y = v
  outside : ∀ x y, OnScreen x y → ¬area x y → Keeps s t (y * vgaWidth + x)
  beyond : ∀ i, vgaWidth * vgaHeight ≤ i → Keeps s t i

section Stroke
variable {area area' : Nat → Nat → Prop} {v : UInt16} {s t u : Screen} {i x y : Nat}

theorem Keeps.refl (s : Screen) (i : Nat) : Keeps s s i := ⟨rfl, id⟩

theorem Keeps.trans (h : Keeps s t i) (h' : Keeps t u i) : Keeps s u i :=
  ⟨h'.cell.trans h.cell, h.stores ∘ h'.stores⟩

theorem Stroke.congr (h : Stroke area v s t)
    (harea : ∀ x y, OnScreen x y → (area x y ↔ area' x y)) : Stroke area' v s t where
  inside x y hon hin := h.inside x y hon ((harea x y hon).mpr hin)
  outside x y hon hout := h.outside x y hon (hout ∘ (harea x y hon).mp)
  beyond := h.beyond

theorem stroke_nothing (s : Screen) (v : UInt16) : Stroke (fun _ _ => False) v s s where
  inside _ _ _ := False.elim
  outside _ _ _ _ := Keeps.refl s _
  beyond i _ := Keeps.refl s i

theorem Stroke.union (h : Stroke area v s t) (h' : Stroke area' v t u) :
    Stroke (fun x y => area x y ∨ area' x y) v s u where
  inside x y hon hin := by
    by_cases hin' : area' x y
    · exact h'.inside x y hon hin'
    · have harea : area x y := hin.resolve_right hin'
      exact (h'.outside x y hon hin').cell.trans (h.inside x y hon harea)
  outside x y hon hout :=
    (h.outside x y hon (hout ∘ Or.inl)).trans (h'.outside x y hon (hout ∘ Or.inr))
  beyond i hi := (h.beyond i hi).trans (h'.beyond i hi)

theorem stroke_forLoop {areas : Nat → Nat → Nat → Prop} {body : Screen → Nat → Screen}
    (lo hi : Nat) (h : ∀ s i, Stroke (areas i) v s (body s i)) (s : Screen) :
    Stroke (fun x y => ∃ i, lo ≤ i ∧ i < hi ∧ areas i x y) v s (forLoop lo hi body s) := by
  have hloop : ∀ n, Stroke (fun x y => ∃ i, lo ≤ i ∧ i < lo + n ∧ areas i x y) v s
      ((List.range' lo n).foldl body s) := by
    intro n
    induction n with
    | zero =>
      refine (stroke_nothing s v).congr fun x y _ => ⟨False.elim, ?_⟩
      rintro ⟨i, hlo, hhi, -⟩
      omega
    | succ n ih =>
      rw [List.range'_1_concat, List.foldl_append]
      refine (ih.union (h _ (lo + n))).congr fun x y _ => ?_
      constructor
      · rintro (⟨i, hlo, hhi, hin⟩ | hin)
        · exact ⟨i, hlo, by omega, hin⟩
        · exact ⟨lo + n, by omega, by omega, hin⟩
      · rintro ⟨i, hlo, hhi, hin⟩
        by_cases hlast : i = lo + n
        · exact .inr (hlast ▸ hin)
        · exact .inl ⟨i, hlo, by omega, hin⟩
  refine (hloop (hi - lo)).congr fun x y _ => ?_
  constructor
  · rintro ⟨i, hlo, hhi, hin⟩
    exact ⟨i, hlo, by omega, hin⟩
  · rintro ⟨i, hlo, hhi, hin⟩
    exact ⟨i, hlo, by omega, hin⟩

theorem OnScreen.index_lt (h : OnScreen x y) : y * vgaWidth + x < vgaWidth * vgaHeight := by
  dsimp only [OnScreen, vgaWidth, vgaHeight] at h ⊢
  omega

theorem OnScreen.index_inj {x' y' : Nat} (h : OnScreen x y) (h' : OnScreen x' y')
    (heq : y * vgaWidth + x = y' * vgaWidth + x') : x = x' ∧ y = y' := by
  dsimp only [OnScreen, vgaWidth] at h h' heq
  omega

theorem exists_onScreen (hi : i < vgaWidth * vgaHeight) :
    ∃ x y, OnScreen x y ∧ i = y * vgaWidth + x := by
  dsimp only [OnScreen, vgaWidth, vgaHeight] at hi ⊢
  exact ⟨i % 80, i / 80, by omega, by omega⟩

theorem stroke_boxChar (s : Screen) (x y : Nat) (c : UInt8) (fg bg : VgaColor) :
    Stroke (fun cx cy => cx = x ∧ cy = y) (vgaEntry c (vgaEntryColor fg bg)) s
      (terminalDrawBoxChar s x y c fg bg) := by
  by_cases hclip : vgaWidth ≤ x ∨ vgaHeight ≤ y
  · rw [terminalDrawBoxChar, if_pos hclip]
    refine ⟨?_, fun cx cy _ _ => Keeps.refl s _, fun i _ => Keeps.refl s i⟩
    rintro cx cy ⟨hx, hy⟩ ⟨rfl, rfl⟩
    omega
  · rw [terminalDrawBoxChar, if_neg hclip]
    have hon : OnScreen x y := ⟨by omega, by omega⟩
    have hkeeps : ∀ i, i ≠ y * vgaWidth + x →
        Keeps s (terminalPutentryat s c (vgaEntryColor fg bg) x y) i := fun i hi =>
      ⟨update_of_ne hi _ _, fun hmem => (List.mem_cons.mp hmem).resolve_left hi⟩
    refine ⟨?_, fun cx cy hcell hout => hkeeps _ fun heq => hout (hcell.index_inj hon heq),
      fun i hi => hkeeps i (hon.index_lt.trans_le hi).ne'⟩
    rintro cx cy - ⟨rfl, rfl⟩
    exact update_self ..

theorem Stroke.marks (h : Stroke area v s t) (hv : v ≠ 0) (hon : OnScreen x y)
    (hmark : area x y ∨ s.entryAt x y ≠ 0) : t.entryAt x y ≠ 0 := by
  by_cases hin : area x y
  · exact ne_of_eq_of_ne (h.inside x y hon hin) hv
  · exact ne_of_eq_of_ne (h.outside x y hon hin).cell (hmark.resolve_left hin)

end Stroke

/-! ## Rectangles -/

structure Rect where
  x : Nat
  y : Nat
  width : Nat
  height : Nat
  x_bound : x + width < 2 ^ 64
  y_bound : y + height < 2 ^ 64

namespace Rect
variable (r : Rect)

structure Contains (cx cy : Nat) : Prop where
  left_le : r.x ≤ cx
  lt_right : cx < r.x + r.width
  top_le : r.y ≤ cy
  lt_bottom : cy < r.y + r.height

def right : Nat := r.x + r.width - 1

def bottom : Nat := r.y + r.height - 1

end Rect

theorem stroke_shadowPattern (r : Rect) (s : Screen) (fg bg : VgaColor) :
    Stroke r.Contains (vgaEntry shadowChar (vgaEntryColor fg bg)) s
      (terminalDrawShadowPattern s r.x r.y r.width r.height fg bg) := by
  have hchar := fun y s x => stroke_boxChar s x y shadowChar fg bg
  have hrow := fun s y => stroke_forLoop r.x (min (u64 (r.x + r.width)) vgaWidth) (hchar y) s
  have hrows := stroke_forLoop r.y (min (u64 (r.y + r.height)) vgaHeight) hrow s
  refine hrows.congr fun cx cy hon => ?_
  rw [u64_of_lt r.x_bound, u64_of_lt r.y_bound]
  obtain ⟨hcx, hcy⟩ := hon
  constructor
  · rintro ⟨j, hlo, hhi, i, hlo', hhi', rfl, rfl⟩
    exact ⟨hlo', by omega, hlo, by omega⟩
  · rintro ⟨hleft, hright, htop, hbottom⟩
    exact ⟨cy, htop, by omega, cx, hleft, by omega, rfl, rfl⟩

/-! ## Boxes -/

def AtEnd (start size i : Nat) : Prop := i = start ∨ i = lastOf start size

def Between (start size i : Nat) : Prop := u64 (start + 1) ≤ i ∧ i < lastOf start size

section Box
variable {g : BoxChars} {r : Rect} {s : Screen} {fg bg : VgaColor} {x y w h i cx cy : Nat}

theorem stroke_horizontal (s : Screen) (c : UInt8) (fg bg : VgaColor) (x y w h : Nat) :
    Stroke (fun cx cy => Between x w cx ∧ AtEnd y h cy) (vgaEntry c (vgaEntryColor fg bg)) s
      (forLoop (u64 (x + 1)) (lastOf x w) (fun s i =>
        let s := terminalDrawBoxChar s i y c fg bg
        terminalDrawBoxChar s i (lastOf y h) c fg bg) s) := by
  refine (stroke_forLoop _ _ (fun s i => (stroke_boxChar s i y c fg bg).union
    (stroke_boxChar _ i (lastOf y h) c fg bg)) s).congr fun cx cy _ => ?_
  constructor
  · rintro ⟨i, hlo, hhi, ⟨rfl, hcy⟩ | ⟨rfl, hcy⟩⟩
    · exact ⟨⟨hlo, hhi⟩, .inl hcy⟩
    · exact ⟨⟨hlo, hhi⟩, .inr hcy⟩
  · rintro ⟨⟨hlo, hhi⟩, hcy | hcy⟩
    · exact ⟨cx, hlo, hhi, .inl ⟨rfl, hcy⟩⟩
    · exact ⟨cx, hlo, hhi, .inr ⟨rfl, hcy⟩⟩

theorem stroke_vertical (s : Screen) (c : UInt8) (fg bg : VgaColor) (x y w h : Nat) :
    Stroke (fun cx cy => AtEnd x w cx ∧ Between y h cy) (vgaEntry c (vgaEntryColor fg bg)) s
      (forLoop (u64 (y + 1)) (lastOf y h) (fun s j =>
        let s := terminalDrawBoxChar s x j c fg bg
        terminalDrawBoxChar s (lastOf x w) j c fg bg) s) := by
  refine (stroke_forLoop _ _ (fun s j => (stroke_boxChar s x j c fg bg).union
    (stroke_boxChar _ (lastOf x w) j c fg bg)) s).congr fun cx cy _ => ?_
  constructor
  · rintro ⟨j, hlo, hhi, ⟨hcx, rfl⟩ | ⟨hcx, rfl⟩⟩
    · exact ⟨.inl hcx, hlo, hhi⟩
    · exact ⟨.inr hcx, hlo, hhi⟩
  · rintro ⟨hcx | hcx, hlo, hhi⟩
    · exact ⟨cy, hlo, hhi, .inl ⟨hcx, rfl⟩⟩
    · exact ⟨cy, hlo, hhi, .inr ⟨hcx, rfl⟩⟩

structure BoxStrokes (g : BoxChars) (color : UInt8) (x y w h : Nat) (s t : Screen)
    (a b c d e : Screen) : Prop where
  topLeft : Stroke (fun cx cy => cx = x ∧ cy = y) (vgaEntry g.topLeft color) s a
  topRight : Stroke (fun cx cy => cx = lastOf x w ∧ cy = y) (vgaEntry g.topRight color) a b
  bottomLeft : Stroke (fun cx cy => cx = x ∧ cy = lastOf y h) (vgaEntry g.bottomLeft color) b c
  bottomRight : Stroke (fun cx cy => cx = lastOf x w ∧ cy = lastOf y h)
    (vgaEntry g.bottomRight color) c d
  horizontal : Stroke (fun cx cy => Between x w cx ∧ AtEnd y h cy) (vgaEntry g.horizontal color) d e
  vertical : Stroke (fun cx cy => AtEnd x w cx ∧ Between y h cy) (vgaEntry g.vertical color) e t

theorem drawBox_strokes (g : BoxChars) (s : Screen) (x y w h : Nat) (fg bg : VgaColor) :
    ∃ a b c d e, BoxStrokes g (vgaEntryColor fg bg) x y w h s (drawBox g s x y w h fg bg)
      a b c d e :=
  ⟨_, _, _, _, _, stroke_boxChar _ _ _ _ _ _, stroke_boxChar _ _ _ _ _ _,
    stroke_boxChar _ _ _ _ _ _, stroke_boxChar _ _ _ _ _ _, stroke_horizontal _ _ _ _ _ _ _ _,
    stroke_vertical _ _ _ _ _ _ _ _⟩

structure Covered (x y w h cx cy : Nat) : Prop where
  column : AtEnd x w cx ∨ Between x w cx
  row : AtEnd y h cy ∨ Between y h cy
  border : AtEnd x w cx ∨ AtEnd y h cy

theorem drawBox_keeps (hon : OnScreen cx cy) (hout : ¬Covered x y w h cx cy) :
    Keeps s (drawBox g s x y w h fg bg) (cy * vgaWidth + cx) := by
  obtain ⟨a, b, c, d, e, hbox⟩ := drawBox_strokes g s x y w h fg bg
  have hcorner : AtEnd x w cx → ¬AtEnd y h cy := fun hx hy => hout ⟨.inl hx, .inl hy, .inl hx⟩
  have htl := hbox.topLeft.outside cx cy hon fun ⟨hx, hy⟩ => hcorner (.inl hx) (.inl hy)
  have htr := hbox.topRight.outside cx cy hon fun ⟨hx, hy⟩ => hcorner (.inr hx) (.inl hy)
  have hbl := hbox.bottomLeft.outside cx cy hon fun ⟨hx, hy⟩ => hcorner (.inl hx) (.inr hy)
  have hbr := hbox.bottomRight.outside cx cy hon fun ⟨hx, hy⟩ => hcorner (.inr hx) (.inr hy)
  have hhor := hbox.horizontal.outside cx cy hon fun ⟨hx, hy⟩ => hout ⟨.inr hx, .inl hy, .inr hy⟩
  have hver := hbox.vertical.outside cx cy hon fun ⟨hx, hy⟩ => hout ⟨.inl hx, .inr hy, .inl hx⟩
  exact ((((htl.trans htr).trans hbl).trans hbr).trans hhor).trans hver

theorem drawBox_beyond (hi : vgaWidth * vgaHeight ≤ i) :
    Keeps s (drawBox g s x y w h fg bg) i := by
  obtain ⟨a, b, c, d, e, hbox⟩ := drawBox_strokes g s x y w h fg bg
  exact (((((hbox.topLeft.beyond i hi).trans (hbox.topRight.beyond i hi)).trans
    (hbox.bottomLeft.beyond i hi)).trans (hbox.bottomRight.beyond i hi)).trans
    (hbox.horizontal.beyond i hi)).trans (hbox.vertical.beyond i hi)

theorem vgaEntry_ne_zero {c : UInt8} (hc : c ≠ 0) (color : UInt8) : vgaEntry c color ≠ 0 := by
  intro heq
  have hentry := vgaEntry_toNat c color
  rw [heq, UInt16.toNat_zero] at hentry
  exact hc (UInt8.toNat_inj.mp (by rw [UInt8.toNat_zero]; omega))

theorem drawSingleBox_marks (hon : OnScreen cx cy) (hin : Covered x y w h cx cy) :
    (terminalDrawSingleBox s x y w h fg bg).entryAt cx cy ≠ 0 := by
  obtain ⟨a, b, c, d, e, hbox⟩ := drawBox_strokes boxSingle s x y w h fg bg
  have hver := hbox.vertical.marks (vgaEntry_ne_zero (by decide) _) hon
  have hhor := hbox.horizontal.marks (vgaEntry_ne_zero (by decide) _) hon
  have hbr := hbox.bottomRight.marks (vgaEntry_ne_zero (by decide) _) hon
  have hbl := hbox.bottomLeft.marks (vgaEntry_ne_zero (by decide) _) hon
  have htr := hbox.topRight.marks (vgaEntry_ne_zero (by decide) _) hon
  have htl := hbox.topLeft.marks (vgaEntry_ne_zero (by decide) _) hon
  have hcorner : AtEnd x w cx → AtEnd y h cy → d.entryAt cx cy ≠ 0 := by
    rintro (hx | hx) (hy | hy)
    · exact hbr (.inr (hbl (.inr (htr (.inr (htl (.inl ⟨hx, hy⟩)))))))
    · exact hbr (.inr (hbl (.inl ⟨hx, hy⟩)))
    · exact hbr (.inr (hbl (.inr (htr (.inl ⟨hx, hy⟩)))))
    · exact hbr (.inl ⟨hx, hy⟩)
  rcases hin.border with hx | hy
  · rcases hin.row with hy | hy
    · exact hver (.inr (hhor (.inr (hcorner hx hy))))
    · exact hver (.inl ⟨hx, hy⟩)
  · rcases hin.column with hx | hx
    · exact hver (.inr (hhor (.inr (hcorner hx hy))))
    · exact hver (.inr (hhor (.inl ⟨hx, hy⟩)))

end Box

/-! ## Inside the rectangle -/

def Screen.Displays (t : Screen) (cx cy : Nat) (c color : UInt8) : Prop :=
  OnScreen cx cy → t.entryAt cx cy = vgaEntry c color

/-- Every corner and side of the rectangle has its character; its interior is not written. -/
structure DrawsBorder (g : BoxChars) (color : UInt8) (r : Rect) (s t : Screen) : Prop where
  topLeft : t.Displays r.x r.y g.topLeft color
  topRight : t.Displays r.right r.y g.topRight color
  bottomLeft : t.Displays r.x r.bottom g.bottomLeft color
  bottomRight : t.Displays r.right r.bottom g.bottomRight color
  top : ∀ cx, r.x < cx → cx < r.right → t.Displays cx r.y g.horizontal color
  bottom : ∀ cx, r.x < cx → cx < r.right → t.Displays cx r.bottom g.horizontal color
  left : ∀ cy, r.y < cy → cy < r.bottom → t.Displays r.x cy g.vertical color
  right : ∀ cy, r.y < cy → cy < r.bottom → t.Displays r.right cy g.vertical color
  interior : ∀ cx cy, r.x < cx → cx < r.right → r.y < cy → cy < r.bottom → OnScreen cx cy →
    Keeps s t (cy * vgaWidth + cx)

def ChangesOnly (r : Rect) (s t : Screen) : Prop :=
  ∀ i, t.buffer.cell i ≠ s.buffer.cell i →
    ∃ cx cy, OnScreen cx cy ∧ r.Contains cx cy ∧ i = cy * vgaWidth + cx

/-- The two boxes and the shading of one rectangle, over any screen. -/
structure StaysInside (r : Rect) (fg bg : VgaColor) : Prop where
  single : ∀ s, ChangesOnly r s (terminalDrawSingleBox s r.x r.y r.width r.height fg bg)
  double : ∀ s, ChangesOnly r s (terminalDrawDoubleBox s r.x r.y r.width r.height fg bg)
  shadow : ∀ s, ChangesOnly r s (terminalDrawShadowPattern s r.x r.y r.width r.height fg bg)
  filled : ∀ s cx cy, r.Contains cx cy →
    (terminalDrawShadowPattern s r.x r.y r.width r.height fg bg).Displays cx cy shadowChar
      (vgaEntryColor fg bg)
  singleBorder : 2 ≤ r.width → 2 ≤ r.height → ∀ s, DrawsBorder boxSingle (vgaEntryColor fg bg) r s
    (terminalDrawSingleBox s r.x r.y r.width r.height fg bg)
  doubleBorder : 2 ≤ r.width → 2 ≤ r.height → ∀ s, DrawsBorder boxDouble (vgaEntryColor fg bg) r s
    (terminalDrawDoubleBox s r.x r.y r.width r.height fg bg)

section Inside
variable {r : Rect} {s t : Screen} {fg bg : VgaColor} {start size i : Nat}

theorem mem_of_covered (hbound : start + size < 2 ^ 64) (hsize : 0 < size)
    (h : AtEnd start size i ∨ Between start size i) : start ≤ i ∧ i < start + size := by
  dsimp only [AtEnd, Between, lastOf, u64] at h
  omega

theorem lastOf_eq (hbound : start + size < 2 ^ 64) (hsize : 0 < size) :
    lastOf start size = start + size - 1 := by
  dsimp only [lastOf, u64]
  omega

theorem between_iff (hbound : start + size < 2 ^ 64) (hsize : 0 < size) :
    Between start size i ↔ start < i ∧ i < start + size - 1 := by
  dsimp only [Between, lastOf, u64]
  omega

theorem Screen.Displays.after {area : Nat → Nat → Prop} {v : UInt16} {c color : UInt8} {x y : Nat}
    (h : s.Displays x y c color) (hstroke : Stroke area v s t) (hout : ¬area x y) :
    t.Displays x y c color :=
  fun hon => (hstroke.outside x y hon hout).cell.trans (h hon)

theorem drawBox_border (g : BoxChars) (r : Rect) (s : Screen) (fg bg : VgaColor)
    (hwidth : 2 ≤ r.width) (hheight : 2 ≤ r.height) : DrawsBorder g (vgaEntryColor fg bg) r s
      (drawBox g s r.x r.y r.width r.height fg bg) := by
  obtain ⟨a, b, c, d, e, hbox⟩ := drawBox_strokes g s r.x r.y r.width r.height fg bg
  have hright : lastOf r.x r.width = r.right := lastOf_eq r.x_bound (by omega)
  have hbottom : lastOf r.y r.height = r.bottom := lastOf_eq r.y_bound (by omega)
  have hx : r.x < r.right := by unfold Rect.right; omega
  have hy : r.y < r.bottom := by unfold Rect.bottom; omega
  have hcolumns : ∀ i, Between r.x r.width i ↔ r.x < i ∧ i < r.right := fun i =>
    between_iff r.x_bound (by omega)
  have hrows : ∀ i, Between r.y r.height i ↔ r.y < i ∧ i < r.bottom := fun i =>
    between_iff r.y_bound (by omega)
  obtain ⟨htl, htr, hbl, hbr, hhor, hver⟩ := hbox
  simp only [hcolumns, hrows, AtEnd, hright, hbottom] at htl htr hbl hbr hhor hver
  -- what a stroke leaves is seen in the end, as no later one covers it
  have hver' : ∀ cx cy, r.y < cy → cy < r.bottom → cx = r.x ∨ cx = r.right →
      (drawBox g s r.x r.y r.width r.height fg bg).Displays cx cy g.vertical
        (vgaEntryColor fg bg) := fun cx cy hlo hhi hcx hon =>
    hver.inside cx cy hon ⟨hcx, hlo, hhi⟩
  have hhor' : ∀ cx cy, r.x < cx → cx < r.right → cy = r.y ∨ cy = r.bottom →
      (drawBox g s r.x r.y r.width r.height fg bg).Displays cx cy g.horizontal
        (vgaEntryColor fg bg) := fun cx cy hlo hhi hcy =>
    Screen.Displays.after (fun hon => hhor.inside cx cy hon ⟨⟨hlo, hhi⟩, hcy⟩) hver (by omega)
  have hcorner : ∀ cx cy c, cx = r.x ∨ cx = r.right → cy = r.y ∨ cy = r.bottom →
      d.Displays cx cy c (vgaEntryColor fg bg) →
        (drawBox g s r.x r.y r.width r.height fg bg).Displays cx cy c (vgaEntryColor fg bg) :=
    fun cx cy c hcx hcy h => (h.after hhor (by omega)).after hver (by omega)
  constructor
  · have h : a.Displays r.x r.y g.topLeft (vgaEntryColor fg bg) := fun hon =>
      htl.inside _ _ hon ⟨rfl, rfl⟩
    exact hcorner _ _ _ (.inl rfl) (.inl rfl)
      (((h.after htr (by omega)).after hbl (by omega)).after hbr (by omega))
  · have h : b.Displays r.right r.y g.topRight (vgaEntryColor fg bg) := fun hon =>
      htr.inside _ _ hon ⟨rfl, rfl⟩
    exact hcorner _ _ _ (.inr rfl) (.inl rfl) ((h.after hbl (by omega)).after hbr (by omega))
  · have h : c.Displays r.x r.bottom g.bottomLeft (vgaEntryColor fg bg) := fun hon =>
      hbl.inside _ _ hon ⟨rfl, rfl⟩
    exact hcorner _ _ _ (.inl rfl) (.inr rfl) (h.after hbr (by omega))
  · exact hcorner _ _ _ (.inr rfl) (.inr rfl) fun hon => hbr.inside _ _ hon ⟨rfl, rfl⟩
  · exact fun cx hlo hhi => hhor' cx r.y hlo hhi (.inl rfl)
  · exact fun cx hlo hhi => hhor' cx r.bottom hlo hhi (.inr rfl)
  · exact fun cy hlo hhi => hver' r.x cy hlo hhi (.inl rfl)
  · exact fun cy hlo hhi => hver' r.right cy hlo hhi (.inr rfl)
  · intro cx cy hxlo hxhi hylo hyhi hon
    refine drawBox_keeps hon fun hcovered => ?_
    have hborder := hcovered.border
    simp only [AtEnd, hright, hbottom] at hborder
    omega

theorem shadowPattern_changesOnly (r : Rect) (s : Screen) (fg bg : VgaColor) :
    ChangesOnly r s (terminalDrawShadowPattern s r.x r.y r.width r.height fg bg) := by
  have hstroke := stroke_shadowPattern r s fg bg
  intro i hchange
  obtain hi | hi := Nat.lt_or_ge i (vgaWidth * vgaHeight)
  · obtain ⟨cx, cy, hon, rfl⟩ := exists_onScreen hi
    by_cases hin : r.Contains cx cy
    · exact ⟨cx, cy, hon, hin, rfl⟩
    · exact absurd (hstroke.outside cx cy hon hin).cell hchange
  · exact absurd (hstroke.beyond i hi).cell hchange

theorem drawBox_changesOnly (g : BoxChars) (s : Screen) (fg bg : VgaColor)
    (h : ∀ cx cy, OnScreen cx cy → Covered r.x r.y r.width r.height cx cy → r.Contains cx cy) :
    ChangesOnly r s (drawBox g s r.x r.y r.width r.height fg bg) := by
  intro i hchange
  obtain hi | hi := Nat.lt_or_ge i (vgaWidth * vgaHeight)
  · obtain ⟨cx, cy, hon, rfl⟩ := exists_onScreen hi
    by_cases hcovered : Covered r.x r.y r.width r.height cx cy
    · exact ⟨cx, cy, hon, h cx cy hon hcovered, rfl⟩
    · exact absurd (drawBox_keeps hon hcovered).cell hchange
  · exact absurd (drawBox_beyond hi).cell hchange

/-- A first or last column, or row, is on the screen; the last of none is before the first. -/
def EndSeen (start size limit : Nat) : Prop := start < limit ∨ size = 0 ∧ start = limit

def LoopWraps (start size : Nat) : Prop := size = 0 ∧ start = 2 ^ 64 - 1

/-- Strokes of a box of this place and size come onto the screen. -/
def Rect.Seen (r : Rect) : Prop :=
  EndSeen r.x r.width vgaWidth ∧ EndSeen r.y r.height vgaHeight ∨
    LoopWraps r.x r.width ∧ EndSeen r.y r.height vgaHeight ∨
    EndSeen r.x r.width vgaWidth ∧ LoopWraps r.y r.height

theorem endSeen_iff (hbound : start + size < 2 ^ 64) {limit : Nat} (hlimit : limit ≠ 0) :
    EndSeen start size limit ↔ ∃ i < limit, AtEnd start size i := by
  dsimp only [EndSeen, AtEnd, lastOf, u64]
  constructor
  · rintro (hlt | ⟨rfl, rfl⟩)
    · exact ⟨start, hlt, .inl rfl⟩
    · -- the last of none, `start - 1`, is still on the screen
      exact ⟨start - 1, by omega, .inr (by omega)⟩
  · rintro ⟨i, hi, hend⟩
    omega

theorem seen_of_between (hbound : start + size < 2 ^ 64) {limit : Nat} (hi : i < limit)
    (h : Between start size i) : EndSeen start size limit ∨ LoopWraps start size := by
  dsimp only [EndSeen, LoopWraps, Between, lastOf, u64] at h ⊢
  omega

theorem LoopWraps.between (h : LoopWraps start size) : Between start size 0 := by
  obtain ⟨rfl, rfl⟩ := h
  dsimp only [Between, lastOf, u64]
  omega

theorem Rect.seen_iff (r : Rect) :
    r.Seen ↔ ∃ cx cy, OnScreen cx cy ∧ Covered r.x r.y r.width r.height cx cy := by
  have hcolumn : EndSeen r.x r.width vgaWidth ↔ _ := endSeen_iff r.x_bound (by decide)
  have hrow : EndSeen r.y r.height vgaHeight ↔ _ := endSeen_iff r.y_bound (by decide)
  constructor
  · rintro (⟨hx, hy⟩ | ⟨hx, hy⟩ | ⟨hx, hy⟩)
    · obtain ⟨cx, hcx, hx⟩ := hcolumn.mp hx
      obtain ⟨cy, hcy, hy⟩ := hrow.mp hy
      exact ⟨cx, cy, ⟨hcx, hcy⟩, .inl hx, .inl hy, .inl hx⟩
    · obtain ⟨cy, hcy, hy⟩ := hrow.mp hy
      exact ⟨0, cy, ⟨by decide, hcy⟩, .inr hx.between, .inl hy, .inr hy⟩
    · obtain ⟨cx, hcx, hx⟩ := hcolumn.mp hx
      exact ⟨cx, 0, ⟨hcx, by decide⟩, .inl hx, .inr hy.between, .inl hx⟩
  · rintro ⟨cx, cy, ⟨hcx, hcy⟩, hcovered⟩
    have hx : AtEnd r.x r.width cx → EndSeen r.x r.width vgaWidth := fun h =>
      hcolumn.mpr ⟨cx, hcx, h⟩
    have hy : AtEnd r.y r.height cy → EndSeen r.y r.height vgaHeight := fun h =>
      hrow.mpr ⟨cy, hcy, h⟩
    rcases hcovered.border with hend | hend
    · rcases hcovered.row with hrow | hrow
      · exact .inl ⟨hx hend, hy hrow⟩
      · rcases seen_of_between r.y_bound hcy hrow with hseen | hwraps
        · exact .inl ⟨hx hend, hseen⟩
        · exact .inr (.inr ⟨hx hend, hwraps⟩)
    · rcases hcovered.column with hcolumn | hcolumn
      · exact .inl ⟨hx hcolumn, hy hend⟩
      · rcases seen_of_between r.x_bound hcx hcolumn with hseen | hwraps
        · exact .inl ⟨hseen, hy hend⟩
        · exact .inr (.inl ⟨hwraps, hy hend⟩)

def dark : Screen := ⟨0, 0, 0, ⟨fun _ => 0, []⟩⟩

theorem dark_cell (i : Nat) : dark.buffer.cell i = 0 := rfl

theorem Rect.Seen.sized (hseen : r.Seen) (h : StaysInside r fg bg) :
    0 < r.width ∧ 0 < r.height := by
  obtain ⟨cx, cy, hon, hcovered⟩ := r.seen_iff.mp hseen
  have hmark : (terminalDrawSingleBox dark r.x r.y r.width r.height fg bg).entryAt cx cy ≠ 0 :=
    drawSingleBox_marks hon hcovered
  rw [Screen.entryAt, ← dark_cell (cy * vgaWidth + cx)] at hmark
  obtain ⟨cx', cy', -, hin, -⟩ := h.single dark (cy * vgaWidth + cx) hmark
  have hleft := hin.left_le
  have hright := hin.lt_right
  have htop := hin.top_le
  have hbottom := hin.lt_bottom
  omega

theorem covered_contains (hseen : 0 < r.width ∧ 0 < r.height ∨ ¬r.Seen) (cx cy : Nat)
    (hon : OnScreen cx cy) (h : Covered r.x r.y r.width r.height cx cy) : r.Contains cx cy := by
  obtain ⟨hwidth, hheight⟩ | hseen := hseen
  · obtain ⟨hleft, hright⟩ := mem_of_covered r.x_bound hwidth h.column
    obtain ⟨htop, hbottom⟩ := mem_of_covered r.y_bound hheight h.row
    exact ⟨hleft, hright, htop, hbottom⟩
  · exact absurd (r.seen_iff.mpr ⟨cx, cy, hon, h⟩) hseen

/-- A box stays inside its rectangle unless the rectangle has no cells and the box, drawn all
the same around the place, is seen. -/
theorem drawing_stays_inside_iff (r : Rect) (fg bg : VgaColor) :
    StaysInside r fg bg ↔ 0 < r.width ∧ 0 < r.height ∨ ¬r.Seen := by
  constructor
  · intro h
    by_cases hseen : r.Seen
    · exact .inl (hseen.sized h)
    · exact .inr hseen
  · intro hseen
    exact {
      single := fun s => drawBox_changesOnly boxSingle s fg bg (covered_contains hseen)
      double := fun s => drawBox_changesOnly boxDouble s fg bg (covered_contains hseen)
      shadow := fun s => shadowPattern_changesOnly r s fg bg
      filled := fun s cx cy hin hon => (stroke_shadowPattern r s fg bg).inside cx cy hon hin
      singleBorder := fun hwidth hheight s => drawBox_border boxSingle r s fg bg hwidth hheight
      doubleBorder := fun hwidth hheight s => drawBox_border boxDouble r s fg bg hwidth hheight }

/-- Nothing wide and one row high: corners in the columns 9 and 10 of that row. -/
theorem drawing_stays_inside_failure :
    (terminalDrawSingleBox dark 10 5 0 1 .white .black).entryAt 9 5 =
      vgaEntry 0xD9 (vgaEntryColor .white .black) ∧
    (terminalDrawSingleBox dark 10 5 0 1 .white .black).entryAt 10 5 =
      vgaEntry 0xC0 (vgaEntryColor .white .black) ∧
    ¬StaysInside ⟨10, 5, 0, 1, by decide, by decide⟩ .white .black ∧
    ¬∀ (r : Rect) (fg bg : VgaColor), StaysInside r fg bg := by
  have hseen : Rect.Seen ⟨10, 5, 0, 1, by decide, by decide⟩ :=
    .inl ⟨.inl (by decide), .inl (by decide)⟩
  have hleaves : ¬StaysInside ⟨10, 5, 0, 1, by decide, by decide⟩ .white .black :=
    fun h => absurd (hseen.sized h).1 (by decide)
  exact ⟨by decide, by decide, hleaves, fun hclaim => hleaves (hclaim _ .white .black)⟩

end Inside

end AlvOS.Terminal
