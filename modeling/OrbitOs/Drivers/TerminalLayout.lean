import OrbitOs.Base.Layout
import OrbitOs.Drivers.Terminal

/-!
# The screen as a window on the text

Text is laid out on a page of unbounded height and 80 columns, each character with
the colour in force when it was written.  The screen shows the last 25 rows of the
page, and the cursor stands where the page goes on.
-/

set_option autoImplicit false

namespace OrbitOs.Drivers

open OrbitOs.Machine OrbitOs.Base

inductive TerminalCall
  | putchar (c : Byte)
  | setcolor (color : Byte)

def Terminal.perform (t : Terminal) : TerminalCall → Terminal
  | .putchar c => t.putchar c
  | .setcolor color => t.setcolor color

/-- A character and its colour. -/
abbrev Glyph := Byte × Byte

/-! ## The text -/

structure ColoredText where
  page : Page Glyph
  /-- The colour in force. -/
  color : Byte

namespace ColoredText

def start : ColoredText := ⟨.empty, vgaEntryColor .lightGrey .black⟩

def perform (x : ColoredText) : TerminalCall → ColoredText
  | .putchar c =>
    if c = 0x0A then { x with page := x.page.newline }
    else { x with page := x.page.place vgaWidth (c, x.color) }
  | .setcolor color => { x with color := color }

/-- The rows that are on the screen. -/
def window (x : ColoredText) : List (List Glyph) := x.page.window vgaHeight

end ColoredText

/-! ## The screen -/

/-- A cell holds a character in its colour, or a blank. -/
def CellShows (cell : Cell) : Option Glyph → Prop
  | some (c, color) => cell = vgaEntry c color
  | none => cell.setWidth 8 = (0x20 : Byte)

/-- The 25 rows of the screen are these rows, padded with blanks. -/
def GridShows (buffer : ℕ → Cell) (rows : List (List Glyph)) : Prop :=
  ∀ r < vgaHeight, ∀ c < vgaWidth,
    CellShows (buffer (r * vgaWidth + c)) (Page.cellAt rows r c)

/-- The screen shows the window of the text, with the cursor where the text goes on. -/
structure Displays (t : Terminal) (x : ColoredText) : Prop where
  grid : GridShows t.buffer x.window
  row : t.row + 1 = x.window.length
  column : t.column = x.page.current.length
  color : t.color = x.color

theorem GridShows.newRow {buffer : ℕ → Cell} {rows : List (List Glyph)}
    (grid : GridShows buffer rows) : GridShows buffer (rows ++ [[]]) := by
  intro r row c column
  rw [Page.cellAt_newRow]
  exact grid r row c column

theorem GridShows.scroll {t : Terminal} {rows : List (List Glyph)}
    (grid : GridShows t.buffer rows) (full : rows.length = vgaHeight) :
    GridShows t.scroll.buffer (rows.tail ++ [[]]) := by
  intro r row c column
  rw [Page.cellAt_newRow, Page.cellAt_tail, Terminal.scroll_buffer]
  unfold vgaHeight at row full
  unfold vgaWidth at column ⊢
  rcases (by omega : r < 24 ∨ r = 24) with above | rfl
  · have next : r * 80 + c + 80 = (r + 1) * 80 + c := by omega
    rw [if_pos (by omega), next]
    exact grid (r + 1) (by unfold vgaHeight; omega) c column
  · rw [if_neg (by omega), if_pos (by omega), Page.cellAt_below rows (by omega)]
    exact Terminal.vgaEntry_char 0x20 t.color

/-- Writing at the end of the last row. -/
theorem GridShows.append {buffer : ℕ → Cell} {front : List (List Glyph)} {current : List Glyph}
    (grid : GridShows buffer (front ++ [current])) (room : current.length < vgaWidth)
    (g : Glyph) :
    GridShows (Function.update buffer (front.length * vgaWidth + current.length)
      (vgaEntry g.1 g.2)) (front ++ [current ++ [g]]) := by
  intro r row c column
  rw [Page.cellAt_append]
  unfold vgaWidth at *
  by_cases here : r = front.length ∧ c = current.length
  · obtain ⟨rfl, rfl⟩ := here
    rw [if_pos ⟨rfl, rfl⟩, Function.update_self]
    rfl
  · rw [if_neg here, Function.update_of_ne (by omega)]
    exact grid r row c column

/-! ## Steps -/

namespace Displays

variable {t : Terminal} {x : ColoredText}

theorem newline_of_grid (grid : GridShows t.buffer x.window)
    (row : t.row + 1 = x.window.length) (color : t.color = x.color) :
    Displays t.newline { x with page := x.page.newline } := by
  have positive : 0 < vgaHeight := vgaHeight_pos
  unfold Terminal.newline
  by_cases below : t.row + 1 < vgaHeight
  · have next := Page.window_newline_room positive x.page (by rwa [row] at below)
    rw [dif_pos below]
    refine ⟨?_, ?_, rfl, color⟩
    · rw [ColoredText.window, next]
      exact grid.newRow
    · rw [ColoredText.window, next, List.length_append, List.length_singleton]
      exact congrArg (· + 1) row
  · have bound := t.row_lt
    have full : x.window.length = vgaHeight := by omega
    have next := Page.window_newline_full positive x.page full
    rw [dif_neg below]
    refine ⟨?_, ?_, rfl, color⟩
    · rw [ColoredText.window, next]
      exact grid.scroll full
    · rw [ColoredText.window, next, List.length_append, List.length_singleton, List.length_tail]
      change vgaHeight - 1 + 1 = x.window.length - 1 + 1
      rw [full]

/-- The character is drawn where the row of the cursor ends. -/
theorem putentry_grid (displays : Displays t x) (c : Byte) :
    GridShows (t.putentry c).buffer ((x.page.append (c, x.color)).window vgaHeight) := by
  have window := Page.window_eq vgaHeight_pos x.page
  have grid := displays.grid
  have row := displays.row
  have room : x.page.current.length < vgaWidth := displays.column ▸ t.column_lt
  rw [ColoredText.window, window] at grid row
  rw [List.length_append, List.length_singleton] at row
  have written := grid.append room (c, x.color)
  rw [← Nat.succ.inj row, ← displays.column, ← displays.color] at written
  rw [Page.window_eq vgaHeight_pos, ← displays.color]
  exact written

/-- Past the 80th column the row ends at once, on the page and on the screen. -/
theorem place (displays : Displays t x) (c : Byte) :
    Displays (t.putentry c).advance { x with page := x.page.place vgaWidth (c, x.color) } := by
  have grid := displays.putentry_grid c
  have column := displays.column
  have length : (x.page.append (c, x.color)).current.length = t.column + 1 := by
    rw [Page.append, List.length_append, List.length_singleton, column]
  have rows : ((x.page.append (c, x.color)).window vgaHeight).length = x.window.length := by
    rw [ColoredText.window, Page.window_length vgaHeight_pos, Page.window_length vgaHeight_pos]
    rfl
  have row : (t.putentry c).row + 1 = ((x.page.append (c, x.color)).window vgaHeight).length :=
    displays.row.trans rows.symm
  have same : (t.putentry c).column = t.column := rfl
  unfold Terminal.advance Page.place
  by_cases inside : (t.putentry c).column + 1 < vgaWidth
  · rw [dif_pos inside, if_neg (by omega)]
    exact ⟨grid, row, length.symm, displays.color⟩
  · have bound := t.column_lt
    rw [dif_neg inside, if_pos (by omega)]
    exact newline_of_grid (x := ⟨x.page.append (c, x.color), x.color⟩) grid row displays.color

theorem serialWriteChar (displays : Displays t x) (c : Byte) :
    Displays (t.serialWriteChar c) x :=
  ⟨displays.grid, displays.row, displays.column, displays.color⟩

theorem updateCursor (displays : Displays t x) : Displays t.updateCursor x :=
  ⟨displays.grid, displays.row, displays.column, displays.color⟩

theorem putchar (displays : Displays t x) {c : Byte} (plain : c ≠ 0x08) :
    Displays (t.putchar c) (x.perform (.putchar c)) := by
  have here := displays.serialWriteChar c
  rw [ColoredText.perform, Terminal.putchar, if_neg plain]
  by_cases newline : c = 0x0A
  · rw [if_pos newline, if_pos newline]
    exact (newline_of_grid here.grid here.row here.color).updateCursor
  · rw [if_neg newline, if_neg newline]
    exact (here.place c).updateCursor

theorem setcolor (displays : Displays t x) (color : Byte) :
    Displays (t.setcolor color) (x.perform (.setcolor color)) :=
  ⟨displays.grid, displays.row, displays.column, rfl⟩

theorem terminalInitialize (t : Terminal) : Displays t.terminalInitialize .start := by
  have window : ColoredText.start.window = [[]] := rfl
  refine ⟨?_, rfl, rfl, rfl⟩
  intro r row c column
  have blank : Page.cellAt ColoredText.start.window r c = none := by
    rw [window]
    exact Page.cellAt_newRow [] r c
  unfold vgaHeight at row
  unfold vgaWidth at column ⊢
  unfold Terminal.terminalInitialize
  rw [blank, Terminal.updateCursor_buffer, Terminal.clear_buffer, if_pos (by omega)]
  exact Terminal.vgaEntry_char 0x20 _

theorem run (displays : Displays t x) (calls : List TerminalCall)
    (noBackspace : ∀ c, .putchar c ∈ calls → c ≠ 0x08) :
    Displays (calls.foldl Terminal.perform t) (calls.foldl ColoredText.perform x) := by
  induction calls generalizing t x with
  | nil => exact displays
  | cons call calls ih =>
      rw [List.foldl_cons, List.foldl_cons]
      refine ih ?_ fun c later => noBackspace c (List.mem_cons_of_mem _ later)
      cases call with
      | putchar c => exact displays.putchar (noBackspace c List.mem_cons_self)
      | setcolor color => exact displays.setcolor color

end Displays

/-! ## Rows of the text -/

theorem ColoredText.Fits.perform {x : ColoredText} (fits : x.page.Fits vgaWidth)
    (call : TerminalCall) : (x.perform call).page.Fits vgaWidth := by
  cases call with
  | putchar c =>
      rw [ColoredText.perform]
      by_cases newline : c = 0x0A
      · rw [if_pos newline]
        exact .newline vgaWidth_pos fits.done (Nat.le_of_lt fits.current)
      · rw [if_neg newline]
        exact fits.place (c, x.color)
  | setcolor color => exact fits

/-- After any text without backspace, with colour changes in between, the screen is the
window on its layout. -/
theorem terminal_displays_layout (t : Terminal) (calls : List TerminalCall)
    (noBackspace : ∀ c, .putchar c ∈ calls → c ≠ 0x08) :
    Displays (calls.foldl Terminal.perform t.terminalInitialize)
        (calls.foldl ColoredText.perform .start) ∧
      (calls.foldl ColoredText.perform .start).page.Fits vgaWidth := by
  refine ⟨(Displays.terminalInitialize t).run calls noBackspace, ?_⟩
  have started : ColoredText.start.page.Fits vgaWidth := Page.Fits.empty vgaWidth_pos
  generalize ColoredText.start = x at started ⊢
  induction calls generalizing x with
  | nil => exact started
  | cons call calls ih =>
      exact ih (fun c later => noBackspace c (List.mem_cons_of_mem _ later)) _
        (ColoredText.Fits.perform started call)

/-- A screen full of another program's text, before the kernel takes it over. -/
def leftover : Terminal := ⟨3, 5, 0x1F, fun i => BitVec.ofNat 16 i, [], by decide, by decide⟩

theorem terminal_displays_layout_twoColors :
    Displays
        ([.putchar 0x41, .setcolor 0x0C, .putchar 0x42, .putchar 0x0A].foldl Terminal.perform
          leftover.terminalInitialize)
        ([.putchar 0x41, .setcolor 0x0C, .putchar 0x42, .putchar 0x0A].foldl
          ColoredText.perform .start) ∧
      ([.putchar 0x41, .setcolor 0x0C, .putchar 0x42, .putchar 0x0A].foldl
        ColoredText.perform .start).page.Fits vgaWidth :=
  terminal_displays_layout leftover
    [.putchar 0x41, .setcolor 0x0C, .putchar 0x42, .putchar 0x0A] (by
      intro c member
      simp only [List.mem_cons, TerminalCall.putchar.injEq, List.not_mem_nil, or_false,
        reduceCtorEq, false_or] at member
      rcases member with rfl | rfl | rfl
      · decide
      · decide
      · decide)

/-- The page of that text: the red B stands next to a grey A, and the next row is begun. -/
example : ([.putchar 0x41, .setcolor 0x0C, .putchar 0x42, .putchar 0x0A].foldl
    ColoredText.perform .start).page.rows = [[(0x41, 0x07), (0x42, 0x0C)], []] := by
  decide

end OrbitOs.Drivers
