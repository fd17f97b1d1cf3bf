import RvMiniOs.Err
import Mathlib.Algebra.Order.Ring.Int
import Mathlib.Logic.Function.Basic
import Mathlib.Order.Lattice
import Mathlib.Tactic.Common

/-!
# The text console

`kernel/drivers/console/bochs.c` draws characters of eight by eight pixels into the frame
of the display. `Terminal` is the terminal that it is meant to be. Both do the same as
long as nothing scrolls; `scroll` itself reads and writes far behind the frame.
-/

namespace RvMiniOs.Drivers

open Function List

def displayWidth : ℕ := 1024
def displayHeight : ℕ := 768
abbrev maxCols : ℕ := displayWidth / 8
abbrev maxRows : ℕ := displayHeight / 8
abbrev bgColor : UInt32 := 0x000000
abbrev textColor : UInt32 := 0xFFFFFF

abbrev Font := UInt8 → ℕ → UInt8

structure Console where
  fbBase : ℕ
  mem : ℕ → UInt32
  cursorRow : ℕ
  cursorCol : ℕ
  uart : List UInt8
  reach : ℕ

namespace Console

def store (c : Console) (i : ℕ) (val : UInt32) : Console :=
  { c with mem := Function.update c.mem i val, reach := max c.reach (i + 1) }

def memmove (c : Console) (dst src n : ℕ) : Console :=
  { c with
    mem := fun i => if dst ≤ i ∧ i < dst + n then c.mem (src + (i - dst)) else c.mem i
    reach := max c.reach (max (dst + n) (src + n)) }

def memset (c : Console) (dst : ℕ) (color : UInt32) (n : ℕ) : Console :=
  { c with
    mem := fun i => if dst ≤ i ∧ i < dst + n then color else c.mem i
    reach := max c.reach (dst + n) }

end Console

def pixel (c : Console) (x y : ℕ) (color : UInt32) : Console × ℤ :=
  if displayWidth ≤ x ∨ displayHeight ≤ y then (c, -einval) else (c.store (y * displayWidth + x) color, 0)

def writeChar (font : Font) (c : Console) (row col : ℕ) (ch : UInt8) (color bg : UInt32) : Console × ℤ :=
  (List.range 8).foldl (fun r rowOff =>
    (List.range 8).foldl (fun r cOff =>
      if r.2 ≠ 0 then r
      else pixel r.1 (col * 8 + cOff) (row * 8 + rowOff)
        (if font ch rowOff &&& (1 <<< UInt8.ofNat cOff) ≠ 0 then color else bg)) r) (c, 0)

def drawLine (c : Console) (row col : ℕ) (color : UInt32) : Console :=
  (List.range 8).foldl (fun c offset => (pixel c (col + offset) row color).1) c

def drawCursor (c : Console) : Console :=
  drawLine c (c.cursorRow * 8 + 7) (c.cursorCol * 8) textColor

def undrawCursor (c : Console) : Console :=
  drawLine c (c.cursorRow * 8 + 7) (c.cursorCol * 8) bgColor

def scroll (c : Console) : Console :=
  let textRow := displayWidth * 8
  let c := c.memmove 0 textRow ((displayHeight - 1) * displayWidth)
  c.memset ((displayHeight - 1) * textRow) bgColor displayWidth

def scrollTo (c : Console) (row : ℤ) : Console × ℤ :=
  if (maxRows : ℤ) ≤ row then scrollTo (scroll c) (row - 1) else (c, row)
termination_by row.toNat
decreasing_by
  have hrow : (0 : ℤ) < row := lt_of_lt_of_le (by decide) ‹(maxRows : ℤ) ≤ row›
  omega

def setCursor (c : Console) (row col : ℤ) : Console × ℤ :=
  let c := undrawCursor c
  let (c, row) := scrollTo c row
  if row < 0 then (c, -einval)
  else (drawCursor { c with cursorRow := (row % 256).toNat, cursorCol := (col % 256).toNat }, 0)

def advanceCursor (c : Console) : Console :=
  if c.cursorCol + 1 < maxCols then (setCursor c c.cursorRow (c.cursorCol + 1)).1
  else (setCursor c (c.cursorRow + 1) 0).1

def putChar (font : Font) (c : Console) (ch : UInt8) : Console :=
  advanceCursor (writeChar font c c.cursorRow c.cursorCol ch textColor bgColor).1

def clearScreen (c : Console) : Console :=
  let c := (List.range displayHeight).foldl (fun c y =>
    (List.range displayWidth).foldl (fun c x => (pixel c x y bgColor).1) c) c
  (setCursor c 1 0).1

def tab (c : Console) : Console :=
  let distance : ℤ := -(c.cursorCol : ℤ) % 8
  if (maxCols : ℤ) ≤ distance + c.cursorCol then (setCursor c (c.cursorRow + 1) 0).1
  else (setCursor c c.cursorRow (c.cursorCol + distance)).1

def backspace (c : Console) : Console :=
  if 0 < c.cursorCol then (setCursor c c.cursorRow (c.cursorCol - 1)).1 else c

def newline (c : Console) : Console :=
  (setCursor c (c.cursorRow + 1) 0).1

def carriageReturn (c : Console) : Console :=
  (setCursor c c.cursorRow 0).1

def handleChar (font : Font) (c : Console) (ch : UInt8) : Console :=
  if 32 ≤ ch ∧ ch < 127 then putChar font c ch
  else if ch = 8 then backspace c
  else if ch = 9 then tab c
  else if ch = 10 then newline c
  else if ch = 12 then clearScreen c
  else if ch = 13 then carriageReturn c
  else c

def uartPutchar (c : Console) (ch : UInt8) : Console :=
  { c with uart := c.uart ++ [ch] }

def consolePutbyte (font : Font) (c : Console) (ch : UInt8) : Console :=
  let c := uartPutchar c ch
  if c.fbBase ≠ 0 then handleChar font c ch else c

def consolePutbytes (font : Font) (c : Console) (s : List UInt8) : Console :=
  s.foldl (consolePutbyte font) c

def Console.initial (fbBase : ℕ) (mem : ℕ → UInt32) : Console where
  fbBase := fbBase
  mem := mem
  cursorRow := 1
  cursorCol := 0
  uart := []
  reach := 0

structure Terminal where
  frame : ℕ → ℕ → UInt32
  row : ℕ
  col : ℕ

def underline (frame : ℕ → ℕ → UInt32) (row col : ℕ) (color : UInt32) : ℕ → ℕ → UInt32 :=
  fun y x => if y = row * 8 + 7 ∧ x / 8 = col then color else frame y x

def scrolled (frame : ℕ → ℕ → UInt32) : ℕ → ℕ → UInt32 :=
  fun y x => if y / 8 + 1 < maxRows then frame (y + 8) x else bgColor

namespace Terminal

def moveTo (t : Terminal) (row col : ℕ) : Terminal :=
  let frame := underline t.frame t.row t.col bgColor
  if row < maxRows then { frame := underline frame row col textColor, row, col }
  else { frame := underline (scrolled frame) (maxRows - 1) col textColor, row := maxRows - 1, col }

def glyph (font : Font) (t : Terminal) (ch : UInt8) : Terminal :=
  { t with frame := fun y x =>
      if y / 8 = t.row ∧ x / 8 = t.col then
        if font ch (y % 8) &&& (1 <<< UInt8.ofNat (x % 8)) ≠ 0 then textColor else bgColor
      else t.frame y x }

def nextStop (t : Terminal) : ℕ :=
  (t.col + 7) / 8 * 8

def byte (font : Font) (t : Terminal) (ch : UInt8) : Terminal :=
  if 32 ≤ ch ∧ ch < 127 then
    if t.col + 1 < maxCols then (t.glyph font ch).moveTo t.row (t.col + 1)
    else (t.glyph font ch).moveTo (t.row + 1) 0
  else if ch = 8 then if 0 < t.col then t.moveTo t.row (t.col - 1) else t
  else if ch = 9 then
    if t.nextStop < maxCols then t.moveTo t.row t.nextStop else t.moveTo (t.row + 1) 0
  else if ch = 10 then t.moveTo (t.row + 1) 0
  else if ch = 12 then moveTo { t with frame := fun _ _ => bgColor } 1 0
  else if ch = 13 then t.moveTo t.row 0
  else t

def EndsLine (t : Terminal) (ch : UInt8) : Prop :=
  (32 ≤ ch ∧ ch < 127 ∧ maxCols ≤ t.col + 1) ∨ (ch = 9 ∧ maxCols ≤ t.nextStop) ∨ ch = 10

instance (t : Terminal) (ch : UInt8) : Decidable (t.EndsLine ch) :=
  inferInstanceAs (Decidable (_ ∨ _ ∨ _))

def Fits (font : Font) : Terminal → List UInt8 → Prop
  | _, [] => True
  | t, ch :: s => ¬ (t.EndsLine ch ∧ t.row + 1 = maxRows) ∧ Fits font (t.byte font ch) s

instance Fits.decidable (font : Font) : ∀ (t : Terminal) (s : List UInt8), Decidable (Fits font t s)
  | _, [] => .isTrue trivial
  | t, ch :: s =>
    have := Fits.decidable font (t.byte font ch) s
    inferInstanceAs (Decidable (_ ∧ _))

end Terminal

def Console.frame (c : Console) : ℕ → ℕ → UInt32 :=
  fun y x => c.mem (y * displayWidth + x)

def Console.terminal (c : Console) : Terminal where
  frame := c.frame
  row := c.cursorRow
  col := c.cursorCol

structure Console.Meets (c : Console) (t : Terminal) : Prop where
  inFrame : c.reach ≤ displayHeight * displayWidth
  row_lt : c.cursorRow < maxRows
  col_lt : c.cursorCol < maxCols
  frame_eq : ∀ y < displayHeight, ∀ x < displayWidth, c.frame y x = t.frame y x

structure Paints (c c' : Console) (frame : ℕ → ℕ → UInt32) : Prop where
  fbBase_eq : c'.fbBase = c.fbBase
  row_eq : c'.cursorRow = c.cursorRow
  col_eq : c'.cursorCol = c.cursorCol
  le_reach : c.reach ≤ c'.reach
  reach_le : c'.reach ≤ max c.reach (displayHeight * displayWidth)
  frame_eq : ∀ y < displayHeight, ∀ x < displayWidth, c'.frame y x = frame y x

section

variable {c c' c'' : Console} {f g : ℕ → ℕ → UInt32}

theorem Paints.refl (c : Console) : Paints c c c.frame :=
  ⟨rfl, rfl, rfl, le_rfl, le_max_left _ _, fun _ _ _ _ => rfl⟩

theorem Paints.trans (h : Paints c c' f) (h' : Paints c' c'' g) : Paints c c'' g where
  fbBase_eq := h'.fbBase_eq.trans h.fbBase_eq
  row_eq := h'.row_eq.trans h.row_eq
  col_eq := h'.col_eq.trans h.col_eq
  le_reach := h.le_reach.trans h'.le_reach
  reach_le := h'.reach_le.trans (max_le h.reach_le (le_max_right _ _))
  frame_eq := h'.frame_eq

theorem Paints.congr (h : Paints c c' f) (hfg : ∀ y < displayHeight, ∀ x < displayWidth, f y x = g y x) :
    Paints c c' g :=
  { h with frame_eq := fun y hy x hx => (h.frame_eq y hy x hx).trans (hfg y hy x hx) }

theorem word_lt {x y w h : ℕ} (hx : x < w) (hy : y < h) : y * w + x + 1 ≤ h * w :=
  calc y * w + x + 1 ≤ y * w + w := by omega
    _ = (y + 1) * w := (Nat.succ_mul y w).symm
    _ ≤ h * w := Nat.mul_le_mul_right w hy

theorem paints_pixel (c : Console) {x y : ℕ} (hx : x < displayWidth) (hy : y < displayHeight) (color : UInt32) :
    (pixel c x y color).2 = 0 ∧
      Paints c (pixel c x y color).1 fun y' x' => if y' = y ∧ x' = x then color else c.frame y' x' := by
  have hidx := word_lt hx hy
  rw [pixel, if_neg (by omega)]
  refine ⟨rfl, rfl, rfl, rfl, le_max_left _ _, ?_, fun y' _ x' hx' => ?_⟩
  · change max c.reach (y * displayWidth + x + 1) ≤ max c.reach (displayHeight * displayWidth)
    exact max_le_max_left c.reach hidx
  change update c.mem (y * displayWidth + x) color (y' * displayWidth + x') = _
  rw [update_apply]
  refine if_congr ?_ rfl rfl
  simp only [displayWidth] at *
  omega

theorem paints_line (c : Console) {x y n : ℕ} (hx : x + n ≤ displayWidth) (hy : y < displayHeight)
    (color : ℕ → UInt32) :
    Paints c ((range n).foldl (fun c i => (pixel c (x + i) y (color i)).1) c) fun y' x' =>
      if y' = y ∧ x ≤ x' ∧ x' < x + n then color (x' - x) else c.frame y' x' := by
  induction n with
  | zero => exact (Paints.refl c).congr fun y' _ x' _ => (if_neg (by omega)).symm
  | succ n ih =>
    rw [range_succ, foldl_append, foldl_cons, foldl_nil]
    have hline := ih (by omega)
    refine (hline.trans (paints_pixel _ (by omega) hy _).2).congr fun y' hy' x' hx' => ?_
    rw [hline.frame_eq y' hy' x' hx']
    by_cases hnew : y' = y ∧ x' = x + n
    · rw [if_pos hnew, if_pos (by omega), hnew.2, Nat.add_sub_cancel_left]
    · rw [if_neg hnew]
      exact if_congr (by omega) rfl rfl

theorem paints_lines (c : Console) {x y m n : ℕ} (hx : x + n ≤ displayWidth) (hy : y + m ≤ displayHeight)
    (color : ℕ → ℕ → UInt32) :
    Paints c ((range m).foldl (fun c j =>
      (range n).foldl (fun c i => (pixel c (x + i) (y + j) (color j i)).1) c) c) fun y' x' =>
      if (y ≤ y' ∧ y' < y + m) ∧ x ≤ x' ∧ x' < x + n then color (y' - y) (x' - x) else c.frame y' x' := by
  induction m with
  | zero => exact (Paints.refl c).congr fun y' _ x' _ => (if_neg (by omega)).symm
  | succ m ih =>
    rw [range_succ, foldl_append, foldl_cons, foldl_nil]
    have hlines := ih (by omega)
    refine (hlines.trans (paints_line _ hx (by omega) _)).congr fun y' hy' x' hx' => ?_
    rw [hlines.frame_eq y' hy' x' hx']
    by_cases hnew : y' = y + m ∧ x ≤ x' ∧ x' < x + n
    · rw [if_pos hnew, if_pos (by omega), hnew.1, Nat.add_sub_cancel_left]
    · rw [if_neg hnew]
      exact if_congr (by omega) rfl rfl

theorem div_eight_eq_iff {x col : ℕ} : x / 8 = col ↔ col * 8 ≤ x ∧ x < col * 8 + 8 := by
  omega

theorem paints_drawLine (c : Console) {row col : ℕ} (hrow : row < maxRows) (hcol : col < maxCols) (color : UInt32) :
    Paints c (drawLine c (row * 8 + 7) (col * 8) color) (underline c.frame row col color) := by
  simp only [maxRows, maxCols, displayHeight, displayWidth] at hrow hcol
  have hline := paints_line c (x := col * 8) (y := row * 8 + 7) (n := 8)
    (by simp only [displayWidth]; omega) (by simp only [displayHeight]; omega) (fun _ => color)
  refine hline.congr fun y _ x _ => ?_
  exact if_congr (and_congr_right' div_eight_eq_iff.symm) rfl rfl

theorem foldl_pair {α : Type*} {step : Console × ℤ → α → Console × ℤ} {next : Console → α → Console} {l : List α}
    (h : ∀ c, ∀ a ∈ l, step (c, 0) a = (next c a, 0)) (c : Console) :
    l.foldl step (c, 0) = (l.foldl next c, 0) := by
  induction l generalizing c with
  | nil => rfl
  | cons a l ih =>
    rw [foldl_cons, foldl_cons, h c a mem_cons_self]
    exact ih (fun c b hb => h c b (mem_cons_of_mem a hb)) _

theorem writeChar_eq (font : Font) (c : Console) {row col : ℕ} (hrow : row < maxRows) (hcol : col < maxCols)
    (ch : UInt8) (color bg : UInt32) :
    writeChar font c row col ch color bg = ((range 8).foldl (fun c j =>
      (range 8).foldl (fun c i => (pixel c (col * 8 + i) (row * 8 + j)
        (if font ch j &&& (1 <<< UInt8.ofNat i) ≠ 0 then color else bg)).1) c) c, 0) := by
  simp only [maxRows, maxCols, displayHeight, displayWidth] at hrow hcol
  unfold writeChar
  refine foldl_pair (fun c j hj => ?_) c
  refine foldl_pair (fun c i hi => ?_) c
  have hi := mem_range.mp hi
  have hj := mem_range.mp hj
  have hx : col * 8 + i < displayWidth := by simp only [displayWidth]; omega
  have hy : row * 8 + j < displayHeight := by simp only [displayHeight]; omega
  rw [if_neg (by simp)]
  refine Prod.ext rfl ?_
  exact (paints_pixel c hx hy (if font ch j &&& (1 <<< UInt8.ofNat i) ≠ 0 then color else bg)).1

theorem paints_writeChar (font : Font) (c : Console) (hrow : c.cursorRow < maxRows) (hcol : c.cursorCol < maxCols)
    (ch : UInt8) :
    Paints c (writeChar font c c.cursorRow c.cursorCol ch textColor bgColor).1 (c.terminal.glyph font ch).frame := by
  rw [writeChar_eq font c hrow hcol]
  simp only [maxRows, maxCols, displayHeight, displayWidth] at hrow hcol
  have hlines := paints_lines c (x := c.cursorCol * 8) (y := c.cursorRow * 8) (m := 8) (n := 8)
    (by simp only [displayWidth]; omega) (by simp only [displayHeight]; omega)
    (fun j i => if font ch j &&& (1 <<< UInt8.ofNat i) ≠ 0 then textColor else bgColor)
  refine hlines.congr fun y _ x _ => ?_
  unfold Terminal.glyph
  dsimp only
  have hcell : (c.cursorRow * 8 ≤ y ∧ y < c.cursorRow * 8 + 8) ∧ c.cursorCol * 8 ≤ x ∧ x < c.cursorCol * 8 + 8 ↔
      y / 8 = c.terminal.row ∧ x / 8 = c.terminal.col :=
    and_congr div_eight_eq_iff.symm div_eight_eq_iff.symm
  by_cases hin : y / 8 = c.terminal.row ∧ x / 8 = c.terminal.col
  · obtain ⟨⟨hy, hy'⟩, hx, hx'⟩ := hcell.mpr hin
    rw [if_pos hin, if_pos (hcell.mpr hin), show y - c.cursorRow * 8 = y % 8 by omega,
      show x - c.cursorCol * 8 = x % 8 by omega]
  · rw [if_neg hin, if_neg fun h => hin (hcell.mp h)]
    rfl

theorem paints_clear (c : Console) :
    Paints c ((range displayHeight).foldl (fun c y =>
      (range displayWidth).foldl (fun c x => (pixel c x y bgColor).1) c) c) fun _ _ => bgColor := by
  have hlines := paints_lines c (x := 0) (y := 0) (m := displayHeight) (n := displayWidth)
    (Nat.zero_add _).le (Nat.zero_add _).le (fun _ _ => bgColor)
  simp only [Nat.zero_add] at hlines
  exact hlines.congr fun y hy x hx => if_pos ⟨⟨Nat.zero_le y, hy⟩, Nat.zero_le x, hx⟩

structure Draws (c : Console) (t : Terminal) : Prop extends c.Meets t where
  row_eq : c.cursorRow = t.row
  col_eq : c.cursorCol = t.col

variable {t : Terminal}

theorem Draws.paint (h : Draws c t) (hp : Paints c c' f)
    (hfg : ∀ y < displayHeight, ∀ x < displayWidth, f y x = g y x) : Draws c' { t with frame := g } where
  inFrame := hp.reach_le.trans (max_le h.inFrame le_rfl)
  row_lt := hp.row_eq ▸ h.row_lt
  col_lt := hp.col_eq ▸ h.col_lt
  frame_eq := (hp.congr hfg).frame_eq
  row_eq := hp.row_eq.trans h.row_eq
  col_eq := hp.col_eq.trans h.col_eq

theorem Draws.line (h : Draws c t) (color : UInt32) :
    Draws (drawLine c (c.cursorRow * 8 + 7) (c.cursorCol * 8) color)
      { t with frame := underline t.frame t.row t.col color } := by
  refine h.paint (paints_drawLine c h.row_lt h.col_lt color) fun y hy x hx => ?_
  rw [h.row_eq, h.col_eq, underline, underline, h.frame_eq y hy x hx]

theorem setCursor_eq (c : Console) {row col : ℕ} (hrow : row < maxRows) (hcol : col < maxCols) :
    (setCursor c row col).1 = drawCursor { undrawCursor c with cursorRow := row, cursorCol := col } := by
  simp only [maxRows, maxCols, displayHeight, displayWidth] at hrow hcol
  have hstay : scrollTo (undrawCursor c) row = (undrawCursor c, (row : ℤ)) := by
    rw [scrollTo, if_neg]
    simp only [maxRows, displayHeight]
    omega
  have h256 : ∀ n : ℕ, n < 256 → ((n : ℤ) % 256).toNat = n := by
    intro n hn
    omega
  simp only [setCursor, hstay]
  rw [if_neg (by omega), h256 row (by omega), h256 col (by omega)]

theorem Draws.setCursor (h : Draws c t) {row col : ℕ} {row' col' : ℤ} (hrow' : row' = row) (hcol' : col' = col)
    (hrow : row < maxRows) (hcol : col < maxCols) : Draws (setCursor c row' col').1 (t.moveTo row col) := by
  subst hrow' hcol'
  have hundraw : Draws (undrawCursor c) { t with frame := underline t.frame t.row t.col bgColor } := h.line bgColor
  rw [setCursor_eq c hrow hcol, Terminal.moveTo, if_pos hrow]
  have hmoved : Draws { undrawCursor c with cursorRow := row, cursorCol := col }
      { frame := underline t.frame t.row t.col bgColor, row, col } :=
    ⟨⟨hundraw.inFrame, hrow, hcol, hundraw.frame_eq⟩, rfl, rfl⟩
  exact hmoved.line textColor

structure Grows (c c' : Console) : Prop where
  fbBase_eq : c'.fbBase = c.fbBase
  le_reach : c.reach ≤ c'.reach

theorem Grows.refl (c : Console) : Grows c c := ⟨rfl, le_rfl⟩

theorem Grows.trans (h : Grows c c') (h' : Grows c' c'') : Grows c c'' :=
  ⟨h'.fbBase_eq.trans h.fbBase_eq, h.le_reach.trans h'.le_reach⟩

theorem grows_pixel (c : Console) (x y : ℕ) (color : UInt32) : Grows c (pixel c x y color).1 := by
  rw [pixel]
  split_ifs
  · exact .refl c
  · exact ⟨rfl, le_max_left _ _⟩

theorem grows_foldl {α : Type*} {next : Console → α → Console} (h : ∀ c a, Grows c (next c a)) (l : List α)
    (c : Console) : Grows c (l.foldl next c) := by
  induction l generalizing c with
  | nil => exact .refl c
  | cons a l ih => exact (h c a).trans (ih _)

theorem grows_foldl_pair {α : Type*} {step : Console × ℤ → α → Console × ℤ} (h : ∀ r a, Grows r.1 (step r a).1)
    (l : List α) (r : Console × ℤ) : Grows r.1 (l.foldl step r).1 := by
  induction l generalizing r with
  | nil => exact .refl r.1
  | cons a l ih => exact (h r a).trans (ih _)

theorem grows_drawLine (c : Console) (row col : ℕ) (color : UInt32) : Grows c (drawLine c row col color) :=
  grows_foldl (fun c _ => grows_pixel c _ _ _) _ c

theorem grows_drawCursor (c : Console) : Grows c (drawCursor c) :=
  grows_drawLine c _ _ _

theorem grows_writeChar (font : Font) (c : Console) (row col : ℕ) (ch : UInt8) (color bg : UInt32) :
    Grows c (writeChar font c row col ch color bg).1 := by
  unfold writeChar
  refine grows_foldl_pair (fun r j => ?_) _ (c, 0)
  refine grows_foldl_pair (fun r i => ?_) _ r
  split_ifs
  · exact .refl r.1
  · exact grows_pixel _ _ _ _
  · exact grows_pixel _ _ _ _

theorem grows_scroll (c : Console) : Grows c (scroll c) ∧ displayHeight * displayWidth < (scroll c).reach := by
  have hreach : (scroll c).reach = max (max c.reach (max (0 + (displayHeight - 1) * displayWidth)
      (displayWidth * 8 + (displayHeight - 1) * displayWidth)))
      ((displayHeight - 1) * (displayWidth * 8) + displayWidth) := rfl
  have hsrc : displayHeight * displayWidth < displayWidth * 8 + (displayHeight - 1) * displayWidth := by decide
  refine ⟨⟨rfl, ?_⟩, ?_⟩
  · rw [hreach]
    exact (le_max_left _ _).trans (le_max_left _ _)
  · rw [hreach]
    exact lt_of_lt_of_le hsrc (((le_max_right _ _).trans (le_max_right _ _)).trans (le_max_left _ _))

theorem grows_scrollTo (c : Console) (row : ℤ) : Grows c (scrollTo c row).1 := by
  fun_induction scrollTo c row with
  | case1 c row _ ih => exact (grows_scroll c).1.trans ih
  | case2 c row _ => exact .refl c

theorem grows_setCursor_scrollTo (c : Console) (row col : ℤ) :
    Grows (scrollTo (undrawCursor c) row).1 (setCursor c row col).1 := by
  rw [setCursor]
  rcases scrollTo (undrawCursor c) row with ⟨c', row'⟩
  dsimp only
  split_ifs
  · exact .refl c'
  · have hmove : Grows c' { c' with cursorRow := (row' % 256).toNat, cursorCol := (col % 256).toNat } :=
      ⟨rfl, le_rfl⟩
    exact hmove.trans (grows_drawCursor _)

theorem grows_setCursor (c : Console) (row col : ℤ) : Grows c (setCursor c row col).1 :=
  ((grows_drawLine c _ _ _).trans (grows_scrollTo (undrawCursor c) row)).trans (grows_setCursor_scrollTo c row col)

theorem reach_setCursor_maxRows (c : Console) (col : ℤ) :
    displayHeight * displayWidth < (setCursor c maxRows col).1.reach := by
  refine lt_of_lt_of_le ?_ (grows_setCursor_scrollTo c maxRows col).le_reach
  rw [scrollTo, if_pos le_rfl]
  exact lt_of_lt_of_le (grows_scroll (undrawCursor c)).2 (grows_scrollTo _ _).le_reach

theorem grows_handleChar (font : Font) (c : Console) (ch : UInt8) : Grows c (handleChar font c ch) := by
  have hclear : Grows c ((range displayHeight).foldl (fun c y =>
      (range displayWidth).foldl (fun c x => (pixel c x y bgColor).1) c) c) :=
    grows_foldl (fun c _ => grows_foldl (fun c _ => grows_pixel c _ _ _) _ c) _ c
  have hwrite := grows_writeChar font c c.cursorRow c.cursorCol ch textColor bgColor
  unfold handleChar
  split_ifs
  · unfold putChar advanceCursor
    split_ifs
    · exact hwrite.trans (grows_setCursor _ _ _)
    · exact hwrite.trans (grows_setCursor _ _ _)
  · unfold backspace
    split_ifs
    · exact grows_setCursor c _ _
    · exact .refl c
  · unfold tab
    dsimp only
    split_ifs
    · exact grows_setCursor c _ _
    · exact grows_setCursor c _ _
  · exact grows_setCursor c _ _
  · exact hclear.trans (grows_setCursor _ _ _)
  · exact grows_setCursor c _ _
  · exact .refl c

theorem Draws.reach_of_endsLine (h : Draws c t) (font : Font) {ch : UInt8} (hends : t.EndsLine ch)
    (hlast : t.row + 1 = maxRows) : displayHeight * displayWidth < (handleChar font c ch).reach := by
  have hrow : ∀ d : Console, d.cursorRow = c.cursorRow → ((d.cursorRow : ℤ) + 1) = (maxRows : ℕ) := by
    intro d hd
    rw [hd, h.row_eq, ← hlast]
    rfl
  rcases hends with ⟨hge, hlt, hcol⟩ | ⟨rfl, hstop⟩ | rfl
  · have hp := paints_writeChar font c h.row_lt h.col_lt ch
    have hfull : maxCols ≤ (writeChar font c c.cursorRow c.cursorCol ch textColor bgColor).1.cursorCol + 1 := by
      rw [hp.col_eq, h.col_eq]
      exact hcol
    rw [handleChar, if_pos ⟨hge, hlt⟩, putChar, advanceCursor, if_neg (Nat.not_lt.mpr hfull), hrow _ hp.row_eq]
    exact reach_setCursor_maxRows _ _
  · have htab : (maxCols : ℤ) ≤ -(c.cursorCol : ℤ) % 8 + c.cursorCol := by
      rw [h.col_eq]
      simp only [Terminal.nextStop] at hstop
      omega
    rw [handleChar, if_neg (by decide), if_neg (by decide), if_pos rfl, tab, if_pos htab, hrow c rfl]
    exact reach_setCursor_maxRows _ _
  · rw [handleChar, if_neg (by decide), if_neg (by decide), if_neg (by decide), if_pos rfl, newline, hrow c rfl]
    exact reach_setCursor_maxRows _ _

theorem Draws.nextLine (h : Draws c t) (hlast : t.row + 1 ≠ maxRows) :
    Draws (Drivers.setCursor c (c.cursorRow + 1) 0).1 (t.moveTo (t.row + 1) 0) := by
  have hrow := h.row_lt
  rw [h.row_eq] at hrow
  exact h.setCursor (by rw [h.row_eq]; rfl) rfl (by omega) (by decide)

theorem Draws.glyph (h : Draws c t) (font : Font) (ch : UInt8) :
    Draws (writeChar font c c.cursorRow c.cursorCol ch textColor bgColor).1 (t.glyph font ch) := by
  refine h.paint (paints_writeChar font c h.row_lt h.col_lt ch) fun y hy x hx => ?_
  simp only [Terminal.glyph, Console.terminal, h.row_eq, h.col_eq, h.frame_eq y hy x hx]

theorem Draws.advance (h : Draws c t) (hlast : maxCols ≤ t.col + 1 → t.row + 1 ≠ maxRows) :
    Draws (advanceCursor c) (if t.col + 1 < maxCols then t.moveTo t.row (t.col + 1) else t.moveTo (t.row + 1) 0) := by
  unfold advanceCursor
  rw [h.col_eq]
  by_cases hroom : t.col + 1 < maxCols
  · rw [if_pos hroom, if_pos hroom]
    exact h.setCursor (by rw [h.row_eq]) rfl (h.row_eq ▸ h.row_lt) hroom
  · rw [if_neg hroom, if_neg hroom]
    exact h.nextLine (hlast (Nat.not_lt.mp hroom))

theorem Draws.tab (h : Draws c t) (hlast : maxCols ≤ t.nextStop → t.row + 1 ≠ maxRows) :
    Draws (tab c) (if t.nextStop < maxCols then t.moveTo t.row t.nextStop else t.moveTo (t.row + 1) 0) := by
  have hstop : -(c.cursorCol : ℤ) % 8 + c.cursorCol = t.nextStop := by
    rw [h.col_eq, Terminal.nextStop]
    omega
  unfold Drivers.tab
  dsimp only
  rw [hstop]
  by_cases hroom : t.nextStop < maxCols
  · rw [if_pos hroom, if_neg (by omega)]
    exact h.setCursor (by rw [h.row_eq]) (by omega) (h.row_eq ▸ h.row_lt) hroom
  · rw [if_neg hroom, if_pos (by omega)]
    exact h.nextLine (hlast (Nat.not_lt.mp hroom))

theorem Draws.backspace (h : Draws c t) :
    Draws (backspace c) (if 0 < t.col then t.moveTo t.row (t.col - 1) else t) := by
  have hcol : t.col < maxCols := h.col_eq ▸ h.col_lt
  unfold Drivers.backspace
  rw [h.col_eq]
  by_cases hpos : 0 < t.col
  · rw [if_pos hpos, if_pos hpos]
    exact h.setCursor (by rw [h.row_eq]) (by omega) (h.row_eq ▸ h.row_lt) (by omega)
  · rw [if_neg hpos, if_neg hpos]
    exact h

theorem Draws.byte (h : Draws c t) (font : Font) {ch : UInt8} (hfit : ¬ (t.EndsLine ch ∧ t.row + 1 = maxRows)) :
    Draws (handleChar font c ch) (t.byte font ch) := by
  have hrow : t.row < maxRows := h.row_eq ▸ h.row_lt
  unfold handleChar Terminal.byte
  by_cases hprint : 32 ≤ ch ∧ ch < 127
  · rw [if_pos hprint, if_pos hprint]
    exact (h.glyph font ch).advance fun hcol hlast => hfit ⟨.inl ⟨hprint.1, hprint.2, hcol⟩, hlast⟩
  rw [if_neg hprint, if_neg hprint]
  by_cases hbs : ch = 8
  · rw [if_pos hbs, if_pos hbs]
    exact h.backspace
  rw [if_neg hbs, if_neg hbs]
  by_cases htab : ch = 9
  · rw [if_pos htab, if_pos htab]
    exact h.tab fun hstop hlast => hfit ⟨.inr (.inl ⟨htab, hstop⟩), hlast⟩
  rw [if_neg htab, if_neg htab]
  by_cases hnl : ch = 10
  · rw [if_pos hnl, if_pos hnl]
    exact h.nextLine fun hlast => hfit ⟨.inr (.inr hnl), hlast⟩
  rw [if_neg hnl, if_neg hnl]
  by_cases hff : ch = 12
  · rw [if_pos hff, if_pos hff]
    exact (h.paint (paints_clear c) fun _ _ _ _ => rfl).setCursor rfl rfl (by decide) (by decide)
  rw [if_neg hff, if_neg hff]
  by_cases hcr : ch = 13
  · rw [if_pos hcr, if_pos hcr]
    exact h.setCursor (by rw [h.row_eq]) rfl hrow (by decide)
  rw [if_neg hcr, if_neg hcr]
  exact h

end

section

variable {c : Console} {t : Terminal} {font : Font}

theorem consolePutbyte_on (hfb : c.fbBase ≠ 0) (ch : UInt8) :
    consolePutbyte font c ch = handleChar font (uartPutchar c ch) ch :=
  if_pos hfb

theorem consolePutbyte_off (hfb : c.fbBase = 0) (ch : UInt8) : consolePutbyte font c ch = uartPutchar c ch :=
  if_neg (not_not.mpr hfb)

theorem grows_consolePutbyte (font : Font) (c : Console) (ch : UInt8) : Grows c (consolePutbyte font c ch) := by
  by_cases hfb : c.fbBase = 0
  · rw [consolePutbyte_off hfb]
    exact ⟨rfl, le_rfl⟩
  · rw [consolePutbyte_on hfb]
    have hchar := grows_handleChar font (uartPutchar c ch) ch
    exact ⟨hchar.fbBase_eq, hchar.le_reach⟩

theorem Draws.uart (h : Draws c t) (ch : UInt8) : Draws (uartPutchar c ch) t :=
  ⟨⟨h.inFrame, h.row_lt, h.col_lt, h.frame_eq⟩, h.row_eq, h.col_eq⟩

theorem Draws.meets_iff (h : Draws c t) (hfb : c.fbBase ≠ 0) (s : List UInt8) :
    (s.foldl (consolePutbyte font) c).Meets (s.foldl (Terminal.byte font) t) ↔ t.Fits font s := by
  induction s generalizing c t with
  | nil => exact ⟨fun _ => trivial, fun _ => h.toMeets⟩
  | cons ch s ih =>
    rw [foldl_cons, foldl_cons, Terminal.Fits]
    by_cases hscroll : t.EndsLine ch ∧ t.row + 1 = maxRows
    · refine ⟨fun hmeets => ?_, fun hfit => absurd hscroll hfit.1⟩
      have hout := (h.uart ch).reach_of_endsLine font hscroll.1 hscroll.2
      rw [← consolePutbyte_on hfb] at hout
      have hrest := (grows_foldl (grows_consolePutbyte font) s (consolePutbyte font c ch)).le_reach
      exact absurd hmeets.inFrame (Nat.not_le.mpr (lt_of_lt_of_le hout hrest))
    · have hnext := (h.uart ch).byte font hscroll
      rw [← consolePutbyte_on hfb] at hnext
      rw [ih hnext ((grows_consolePutbyte font c ch).fbBase_eq ▸ hfb)]
      exact ⟨fun hfit => ⟨hscroll, hfit⟩, fun hfit => hfit.2⟩

theorem Draws.off (h : Draws c t) (hfb : c.fbBase = 0) (s : List UInt8) :
    Draws (s.foldl (consolePutbyte font) c) t := by
  induction s generalizing c with
  | nil => exact h
  | cons ch s ih =>
    rw [foldl_cons, consolePutbyte_off hfb]
    exact ih (h.uart ch) hfb

end

def Terminal.initial (mem : ℕ → UInt32) : Terminal :=
  (Console.initial 0 mem).terminal

def Terminal.shows (font : Font) (fbBase : ℕ) (mem : ℕ → UInt32) (calls : List (List UInt8)) : Terminal :=
  if fbBase = 0 then .initial mem else calls.flatten.foldl (Terminal.byte font) (.initial mem)

theorem draws_initial (fbBase : ℕ) (mem : ℕ → UInt32) : Draws (.initial fbBase mem) (.initial mem) :=
  ⟨⟨Nat.zero_le _, show 1 < maxRows by decide, show 0 < maxCols by decide, fun _ _ _ _ => rfl⟩, rfl, rfl⟩

/-- The console is the terminal as long as no byte ends a line on the last row, and leaves
the frame with the first that does. -/
theorem console_meets_iff (font : Font) (fbBase : ℕ) (mem : ℕ → UInt32) (calls : List (List UInt8)) :
    (calls.foldl (consolePutbytes font) (.initial fbBase mem)).Meets (.shows font fbBase mem calls) ↔
      (fbBase ≠ 0 → (Terminal.initial mem).Fits font calls.flatten) := by
  have hstart := draws_initial fbBase mem
  have hcalls : calls.foldl (consolePutbytes font) (.initial fbBase mem) =
      calls.flatten.foldl (consolePutbyte font) (.initial fbBase mem) := foldl_flatten.symm
  rw [hcalls, Terminal.shows]
  by_cases hfb : fbBase = 0
  · rw [if_pos hfb]
    exact ⟨fun _ h => absurd hfb h, fun _ => (hstart.off hfb _).toMeets⟩
  · rw [if_neg hfb, hstart.meets_iff hfb]
    exact ⟨fun h _ => h, fun h => h hfb⟩

/-- Ninety-five line feeds, from the second row. -/
theorem console_scrolls_out :
    ¬ ([List.replicate 95 10].foldl (consolePutbytes fun _ _ => 0) (.initial 0x50000000 fun _ => 0)).Meets
      (.shows (fun _ _ => 0) 0x50000000 (fun _ => 0) [List.replicate 95 10]) := by
  have hlong : ¬ (Terminal.initial fun _ => 0).Fits (fun _ _ => 0) (replicate 95 10) := by
    decide +kernel
  intro h
  rw [Terminal.shows, if_neg (by decide), flatten_singleton, foldl_cons, foldl_nil, consolePutbytes,
    (draws_initial _ _).meets_iff (show 0x50000000 ≠ 0 by decide)] at h
  exact hlong h

end RvMiniOs.Drivers
