import Mathlib.Tactic
import OrbitOs.Machine.Memory

/-!
# The VGA text terminal of drivers/terminal.c

The screen is 25 rows of 80 cells in row-major order.  The cursor stays inside
it, and what the driver sends to I/O ports is kept in order.
-/

set_option autoImplicit false

namespace OrbitOs.Drivers

open OrbitOs.Machine

/-- A character and its colour attribute. -/
abbrev Cell := BitVec 16

inductive VgaColor
  | black | blue | green | cyan | red | magenta | brown | lightGrey | darkGrey | lightBlue
  | lightGreen | lightCyan | lightRed | lightMagenta | lightBrown | white

def VgaColor.code (color : VgaColor) : Byte := BitVec.ofNat 8 color.ctorIdx

def vgaEntryColor (fg bg : VgaColor) : Byte := fg.code ||| bg.code <<< 4

def vgaEntry (uc color : Byte) : Cell := uc.setWidth 16 ||| color.setWidth 16 <<< 8

def vgaWidth : ℕ := 80

def vgaHeight : ℕ := 25

theorem vgaWidth_pos : 0 < vgaWidth := by decide

theorem vgaHeight_pos : 0 < vgaHeight := by decide

structure Terminal where
  row : ℕ
  column : ℕ
  color : Byte
  buffer : ℕ → Cell
  /-- The `outb` calls so far. -/
  ports : List (BitVec 16 × Byte)
  row_lt : row < vgaHeight
  column_lt : column < vgaWidth

namespace Terminal

def outb (t : Terminal) (port : BitVec 16) (val : Byte) : Terminal :=
  { t with ports := t.ports ++ [(port, val)] }

/-- `serial_write_char` -/
def serialWriteChar (t : Terminal) (c : Byte) : Terminal := t.outb 0x3F8 c

/-- `terminal_update_cursor(terminal_column, terminal_row)` -/
def updateCursor (t : Terminal) : Terminal :=
  let pos : BitVec 16 := BitVec.ofNat 16 (t.row * vgaWidth + t.column)
  (((t.outb 0x3D4 0x0F).outb 0x3D5 ((pos &&& 0xFF).setWidth 8)).outb 0x3D4 0x0E).outb 0x3D5
    (((pos >>> 8) &&& 0xFF).setWidth 8)

def setcolor (t : Terminal) (color : Byte) : Terminal := { t with color := color }

/-- `terminal_putentryat` with the current colour, at the cursor. -/
def putentry (t : Terminal) (c : Byte) : Terminal :=
  { t with
    buffer := Function.update t.buffer (t.row * vgaWidth + t.column) (vgaEntry c t.color) }

/-- The inner loop of `terminal_scroll`. -/
def copyRow (buffer : ℕ → Cell) (y : ℕ) : ℕ → Cell :=
  (List.range vgaWidth).foldl (fun cells x =>
    Function.update cells (y * vgaWidth + x) (cells ((y + 1) * vgaWidth + x))) buffer

/-- The last loop of `terminal_scroll`. -/
def blankLastRow (buffer : ℕ → Cell) (color : Byte) : ℕ → Cell :=
  (List.range vgaWidth).foldl (fun cells x =>
    Function.update cells ((vgaHeight - 1) * vgaWidth + x) (vgaEntry 0x20 color)) buffer

def scroll (t : Terminal) : Terminal :=
  { t with
    buffer := blankLastRow ((List.range (vgaHeight - 1)).foldl copyRow t.buffer) t.color }

/-- `terminal_column = 0; if (++terminal_row == VGA_HEIGHT) …` -/
def newline (t : Terminal) : Terminal :=
  if below : t.row + 1 < vgaHeight then
    { t with row := t.row + 1, column := 0, row_lt := below, column_lt := by decide }
  else
    { t.scroll with row := vgaHeight - 1, column := 0, row_lt := by decide, column_lt := by decide }

/-- One column back, or to the end of the row above. -/
def retreat (t : Terminal) : Terminal :=
  if t.column > 0 then
    { t with column := t.column - 1, column_lt := Nat.lt_of_le_of_lt (Nat.sub_le _ _) t.column_lt }
  else if t.row > 0 then
    { t with
      row := t.row - 1
      column := vgaWidth - 1
      row_lt := Nat.lt_of_le_of_lt (Nat.sub_le _ _) t.row_lt
      column_lt := by decide }
  else t

/-- `if (++terminal_column == VGA_WIDTH) …` -/
def advance (t : Terminal) : Terminal :=
  if inside : t.column + 1 < vgaWidth then
    { t with column := t.column + 1, column_lt := inside }
  else t.newline

def putchar (t : Terminal) (c : Byte) : Terminal :=
  let t := t.serialWriteChar c
  if c = 0x08 then (t.retreat.putentry 0x20).updateCursor
  else if c = 0x0A then t.newline.updateCursor
  else (t.putentry c).advance.updateCursor

/-- `terminal_clear` -/
def clear (t : Terminal) : Terminal :=
  { t with
    buffer := (List.range vgaHeight).foldl (fun cells y =>
      (List.range vgaWidth).foldl (fun cells x =>
        Function.update cells (y * vgaWidth + x) (vgaEntry 0x20 t.color)) cells) t.buffer }

def terminalInitialize (t : Terminal) : Terminal :=
  { t with
    row := 0
    column := 0
    color := vgaEntryColor .lightGrey .black
    row_lt := vgaHeight_pos
    column_lt := vgaWidth_pos }.clear.updateCursor

/-- `terminal_write` of the given bytes, and `terminal_writestring` of a string
with these characters. -/
def write (t : Terminal) (data : List Byte) : Terminal := data.foldl putchar t

/-! ## The serial line -/

/-- What went to the data register of COM1. -/
def serial (t : Terminal) : List Byte :=
  t.ports.filterMap fun p => if p.1 = 0x3F8 then some p.2 else none

theorem updateCursor_serial (t : Terminal) : t.updateCursor.serial = t.serial := by
  unfold serial updateCursor outb
  simp

theorem serialWriteChar_serial (t : Terminal) (c : Byte) :
    (t.serialWriteChar c).serial = t.serial ++ [c] := by
  unfold serial serialWriteChar outb
  simp

theorem newline_ports (t : Terminal) : t.newline.ports = t.ports := by
  unfold newline
  split
  · rfl
  · rfl

theorem advance_ports (t : Terminal) : t.advance.ports = t.ports := by
  unfold advance
  split
  · rfl
  · exact t.newline_ports

theorem retreat_ports (t : Terminal) : t.retreat.ports = t.ports := by
  unfold retreat
  split_ifs
  · rfl
  · rfl
  · rfl

theorem putchar_serial (t : Terminal) (c : Byte) : (t.putchar c).serial = t.serial ++ [c] := by
  rw [← serialWriteChar_serial]
  unfold putchar
  dsimp only
  split_ifs
  · rw [updateCursor_serial]
    exact congrArg (List.filterMap _) (retreat_ports _)
  · rw [updateCursor_serial]
    exact congrArg (List.filterMap _) (newline_ports _)
  · rw [updateCursor_serial]
    exact congrArg (List.filterMap _) (advance_ports _)

/-- Every character printed goes to the serial line too. -/
theorem write_serial (t : Terminal) (data : List Byte) :
    (t.write data).serial = t.serial ++ data := by
  unfold write
  induction data generalizing t with
  | nil => simp
  | cons c data ih =>
      rw [List.foldl_cons, ih, putchar_serial, List.append_assoc, List.singleton_append]

/-! ## Scrolling -/

theorem copyRow_prefix (buffer : ℕ → Cell) (y count : ℕ) (bound : count ≤ vgaWidth) (i : ℕ) :
    (List.range count).foldl (fun cells x =>
      Function.update cells (y * vgaWidth + x) (cells ((y + 1) * vgaWidth + x))) buffer i =
      if y * vgaWidth ≤ i ∧ i < y * vgaWidth + count then buffer (i + vgaWidth) else buffer i := by
  induction count generalizing i with
  | zero => rw [List.range_zero, List.foldl_nil, if_neg (by omega)]
  | succ count ih =>
      have above : (y + 1) * vgaWidth = y * vgaWidth + vgaWidth := Nat.succ_mul y vgaWidth
      rw [List.range_succ, List.foldl_append, List.foldl_cons, List.foldl_nil]
      by_cases here : i = y * vgaWidth + count
      · subst here
        rw [Function.update_self, ih (by omega), if_neg (by omega), if_pos (by omega)]
        congr 1
        omega
      · rw [Function.update_of_ne here, ih (by omega)]
        by_cases inside : y * vgaWidth ≤ i ∧ i < y * vgaWidth + count
        · rw [if_pos inside, if_pos (by omega)]
        · rw [if_neg inside, if_neg (by omega)]

theorem copyRow_apply (buffer : ℕ → Cell) (y i : ℕ) :
    copyRow buffer y i =
      if y * vgaWidth ≤ i ∧ i < (y + 1) * vgaWidth then buffer (i + vgaWidth) else buffer i := by
  rw [Nat.succ_mul]
  exact copyRow_prefix buffer y vgaWidth (Nat.le_refl _) i

theorem copyRows_apply (buffer : ℕ → Cell) (rows i : ℕ) :
    (List.range rows).foldl copyRow buffer i =
      if i < rows * vgaWidth then buffer (i + vgaWidth) else buffer i := by
  induction rows generalizing i with
  | zero => simp
  | succ rows ih =>
      have above : (rows + 1) * vgaWidth = rows * vgaWidth + vgaWidth := Nat.succ_mul rows vgaWidth
      rw [List.range_succ, List.foldl_append, List.foldl_cons, List.foldl_nil, copyRow_apply]
      by_cases here : rows * vgaWidth ≤ i ∧ i < (rows + 1) * vgaWidth
      · rw [if_pos here, if_pos here.2, ih, if_neg (by omega)]
      · rw [if_neg here, ih]
        by_cases inside : i < rows * vgaWidth
        · rw [if_pos inside, if_pos (by omega)]
        · rw [if_neg inside, if_neg (by omega)]

theorem fillRow_prefix (buffer : ℕ → Cell) (y : ℕ) (cell : Cell) (count i : ℕ) :
    (List.range count).foldl (fun cells x =>
      Function.update cells (y * vgaWidth + x) cell) buffer i =
      if y * vgaWidth ≤ i ∧ i < y * vgaWidth + count then cell else buffer i := by
  induction count with
  | zero => rw [List.range_zero, List.foldl_nil, if_neg (by omega)]
  | succ count ih =>
      rw [List.range_succ, List.foldl_append, List.foldl_cons, List.foldl_nil]
      by_cases here : i = y * vgaWidth + count
      · rw [here, Function.update_self, if_pos (by omega)]
      · rw [Function.update_of_ne here, ih]
        by_cases inside : y * vgaWidth ≤ i ∧ i < y * vgaWidth + count
        · rw [if_pos inside, if_pos (by omega)]
        · rw [if_neg inside, if_neg (by omega)]

theorem fillRows_apply (buffer : ℕ → Cell) (cell : Cell) (rows i : ℕ) :
    (List.range rows).foldl (fun cells y =>
      (List.range vgaWidth).foldl (fun cells x =>
        Function.update cells (y * vgaWidth + x) cell) cells) buffer i =
      if i < rows * vgaWidth then cell else buffer i := by
  induction rows with
  | zero => rw [List.range_zero, List.foldl_nil, if_neg (by omega)]
  | succ rows ih =>
      have above : (rows + 1) * vgaWidth = rows * vgaWidth + vgaWidth := Nat.succ_mul rows vgaWidth
      rw [List.range_succ, List.foldl_append, List.foldl_cons, List.foldl_nil, fillRow_prefix, ih]
      by_cases here : rows * vgaWidth ≤ i ∧ i < rows * vgaWidth + vgaWidth
      · rw [if_pos here, if_pos (by omega)]
      · rw [if_neg here]
        by_cases inside : i < rows * vgaWidth
        · rw [if_pos inside, if_pos (by omega)]
        · rw [if_neg inside, if_neg (by omega)]

/-- `terminal_clear` blanks the screen and nothing else. -/
theorem clear_buffer (t : Terminal) (i : ℕ) :
    t.clear.buffer i = if i < 2000 then vgaEntry 0x20 t.color else t.buffer i :=
  fillRows_apply t.buffer (vgaEntry 0x20 t.color) vgaHeight i

/-- Every row moves up by one; the last row is blank. -/
theorem scroll_buffer (t : Terminal) (i : ℕ) :
    t.scroll.buffer i =
      if i < 1920 then t.buffer (i + 80)
      else if i < 2000 then vgaEntry 0x20 t.color
      else t.buffer i := by
  have blank : t.scroll.buffer i = _ :=
    fillRow_prefix _ (vgaHeight - 1) (vgaEntry 0x20 t.color) vgaWidth i
  have rows := copyRows_apply t.buffer (vgaHeight - 1) i
  unfold vgaHeight vgaWidth at blank rows
  rw [blank]
  rcases (by omega : i < 1920 ∨ (1920 ≤ i ∧ i < 2000) ∨ 2000 ≤ i) with high | last | outside
  · rw [if_neg (by omega), if_pos high]
    exact rows.trans (if_pos high)
  · rw [if_pos last, if_neg (by omega), if_pos last.2]
  · rw [if_neg (by omega), if_neg (by omega), if_neg (by omega)]
    exact rows.trans (if_neg (by omega))

/-! ## The text before the cursor -/

/-- The cell under the cursor. -/
def position (t : Terminal) : ℕ := t.row * vgaWidth + t.column

def charAt (t : Terminal) (i : ℕ) : Byte := (t.buffer i).setWidth 8

/-- The characters of the last `n` cells before the cursor, in row-major order. -/
def before (t : Terminal) (n : ℕ) : List Byte :=
  (List.range n).map fun i => t.charAt (t.position - n + i)

@[simp] theorem serialWriteChar_position (t : Terminal) (c : Byte) :
    (t.serialWriteChar c).position = t.position := rfl

@[simp] theorem serialWriteChar_buffer (t : Terminal) (c : Byte) :
    (t.serialWriteChar c).buffer = t.buffer := rfl

@[simp] theorem updateCursor_position (t : Terminal) : t.updateCursor.position = t.position := rfl

@[simp] theorem updateCursor_buffer (t : Terminal) : t.updateCursor.buffer = t.buffer := rfl

@[simp] theorem putentry_position (t : Terminal) (c : Byte) :
    (t.putentry c).position = t.position := rfl

theorem putentry_buffer (t : Terminal) (c : Byte) :
    (t.putentry c).buffer = Function.update t.buffer t.position (vgaEntry c t.color) := rfl

theorem position_lt (t : Terminal) : t.position < 2000 := by
  have row := t.row_lt
  have column := t.column_lt
  unfold position vgaHeight vgaWidth at *
  omega

theorem vgaEntry_char (c color : Byte) : (vgaEntry c color).setWidth 8 = c := by
  unfold vgaEntry
  rw [BitVec.setWidth_or]
  ext i bound
  simp

theorem newline_inside (t : Terminal) (inside : t.row + 1 < vgaHeight) :
    t.newline.position = (t.row + 1) * 80 ∧ t.newline.buffer = t.buffer := by
  unfold newline
  rw [dif_pos inside]
  exact ⟨rfl, rfl⟩

theorem newline_last (t : Terminal) (last : t.row + 1 = 25) :
    t.newline.position = 1920 ∧ t.newline.buffer = t.scroll.buffer := by
  have full : ¬ t.row + 1 < vgaHeight := Nat.not_lt_of_le (Nat.le_of_eq last.symm)
  unfold newline
  rw [dif_neg full]
  exact ⟨rfl, rfl⟩

theorem advance_inside (t : Terminal) (inside : t.position + 1 < 2000) :
    t.advance.position = t.position + 1 ∧ t.advance.buffer = t.buffer := by
  have column := t.column_lt
  unfold advance
  by_cases sameRow : t.column + 1 < vgaWidth
  · rw [dif_pos sameRow]
    exact ⟨rfl, rfl⟩
  · rw [dif_neg sameRow]
    unfold position vgaWidth at *
    have inRow : t.row + 1 < vgaHeight := by
      unfold vgaHeight
      omega
    obtain ⟨moved, kept⟩ := t.newline_inside inRow
    unfold position vgaWidth at moved
    exact ⟨by omega, kept⟩

theorem advance_last (t : Terminal) (last : t.position + 1 = 2000) :
    t.advance.position = 1920 ∧ t.advance.buffer = t.scroll.buffer := by
  have row := t.row_lt
  have column := t.column_lt
  unfold position at last
  unfold vgaWidth at *
  unfold vgaHeight at row
  have lastColumn : ¬ t.column + 1 < vgaWidth := by
    unfold vgaWidth
    omega
  unfold advance
  rw [dif_neg lastColumn]
  exact t.newline_last (by omega)

theorem retreat_spec (t : Terminal) (started : 0 < t.position) :
    t.retreat.position = t.position - 1 ∧ t.retreat.buffer = t.buffer := by
  unfold position vgaWidth at *
  unfold retreat
  by_cases sameRow : t.column > 0
  · rw [if_pos sameRow]
    exact ⟨by dsimp only; omega, rfl⟩
  · have above : t.row > 0 := by omega
    rw [if_neg sameRow, if_pos above]
    exact ⟨by dsimp only [vgaWidth]; omega, rfl⟩

/-- A character the terminal draws. -/
def Drawn (c : Byte) : Prop := c ≠ 0x08 ∧ c ≠ 0x0A

instance (c : Byte) : Decidable (Drawn c) := inferInstanceAs (Decidable (_ ∧ _))

theorem putchar_drawn (t : Terminal) {c : Byte} (drawn : Drawn c) :
    t.putchar c = (((t.serialWriteChar c).putentry c).advance).updateCursor := by
  unfold putchar
  rw [if_neg drawn.1, if_neg drawn.2]

/-- `text` is on the screen and ends just before the cursor. -/
structure Shows (t : Terminal) (text : List Byte) : Prop where
  fits : text.length ≤ t.position
  cells : t.before text.length = text

theorem before_eq_iff (t : Terminal) (text : List Byte) :
    t.before text.length = text ↔
      ∀ i (bound : i < text.length), t.charAt (t.position - text.length + i) = text[i] := by
  have length : (t.before text.length).length = text.length := by simp [before]
  constructor
  · intro same i bound
    have entry := List.getElem_of_eq same (length ▸ bound)
    simpa [before] using entry
  · intro cells
    apply List.ext_getElem length
    intro i _ bound
    simpa [before] using cells i bound

theorem Shows.nil (t : Terminal) : t.Shows [] := ⟨Nat.zero_le _, rfl⟩

theorem Shows.cell {t : Terminal} {text : List Byte} (shows : t.Shows text) {i : ℕ}
    (bound : i < text.length) : t.charAt (t.position - text.length + i) = text[i] :=
  (t.before_eq_iff text).mp shows.cells i bound

/-- One more character, whether or not the screen scrolls under it. -/
theorem Shows.append {t : Terminal} {text : List Byte} (shows : t.Shows text) {c : Byte}
    (drawn : Drawn c) (small : text.length < 1920) : (t.putchar c).Shows (text ++ [c]) := by
  have fits := shows.fits
  have onScreen := t.position_lt
  rw [putchar_drawn t drawn]
  generalize placed : (t.serialWriteChar c).putentry c = u
  have position : u.position = t.position := by rw [← placed]; rfl
  have buffer : u.buffer = Function.update t.buffer t.position (vgaEntry c t.color) := by
    rw [← placed]
    rfl
  -- the cell of character `i` before the screen moves
  have written : ∀ i (bound : i < (text ++ [c]).length),
      (u.buffer (t.position - text.length + i)).setWidth 8 = (text ++ [c])[i] := by
    intro i bound
    rw [List.length_append, List.length_singleton] at bound
    rw [buffer]
    by_cases old : i < text.length
    · rw [Function.update_of_ne (by omega), List.getElem_append_left old]
      exact shows.cell old
    · have last : i = text.length := by omega
      subst last
      rw [Nat.sub_add_cancel fits, Function.update_self, vgaEntry_char]
      simp
  by_cases inside : u.position + 1 < 2000
  · obtain ⟨moved, kept⟩ := u.advance_inside inside
    refine ⟨?_, (before_eq_iff _ _).mpr ?_⟩
    · rw [updateCursor_position, moved, position, List.length_append, List.length_singleton]
      omega
    · intro i bound
      rw [← written i bound]
      unfold charAt
      rw [updateCursor_position, updateCursor_buffer, moved, kept, position, List.length_append,
        List.length_singleton, Nat.add_sub_add_right]
  · have last : u.position + 1 = 2000 := by omega
    obtain ⟨moved, scrolled⟩ := u.advance_last last
    refine ⟨?_, (before_eq_iff _ _).mpr ?_⟩
    · rw [updateCursor_position, moved, List.length_append, List.length_singleton]
      omega
    · intro i bound
      rw [← written i bound]
      rw [List.length_append, List.length_singleton] at bound
      unfold charAt
      rw [updateCursor_position, updateCursor_buffer, moved, scrolled, scroll_buffer,
        List.length_append, List.length_singleton, if_pos (by omega)]
      congr 2
      omega

/-- Backspace goes back over the last character, also across a row boundary. -/
theorem Shows.erase {t : Terminal} {text : List Byte} {c : Byte} (shows : t.Shows (text ++ [c])) :
    (t.putchar 0x08).Shows text := by
  have fits := shows.fits
  rw [List.length_append, List.length_singleton] at fits
  have erased : t.putchar 0x08 =
      ((t.serialWriteChar 0x08).retreat.putentry 0x20).updateCursor := rfl
  rw [erased]
  obtain ⟨moved, kept⟩ := (t.serialWriteChar 0x08).retreat_spec (by simpa using by omega)
  refine ⟨?_, (before_eq_iff _ _).mpr ?_⟩
  · rw [updateCursor_position, putentry_position, moved, serialWriteChar_position]
    omega
  · intro i bound
    have cell := shows.cell (i := i) (by simp; omega)
    rw [List.getElem_append_left bound] at cell
    rw [← cell]
    unfold charAt
    rw [updateCursor_position, updateCursor_buffer, putentry_position, putentry_buffer, moved,
      kept, serialWriteChar_position, Function.update_of_ne (by omega), serialWriteChar_buffer,
      List.length_append, List.length_singleton]
    congr 2
    omega

theorem Shows.write {t : Terminal} {text data : List Byte} (shows : t.Shows text)
    (drawn : ∀ c ∈ data, Drawn c) (small : text.length + data.length ≤ 1920) :
    (t.write data).Shows (text ++ data) := by
  unfold Terminal.write
  induction data generalizing t text with
  | nil => simpa using shows
  | cons c data ih =>
      rw [List.length_cons] at small
      rw [List.foldl_cons, List.append_cons]
      apply ih
      · exact shows.append (drawn c List.mem_cons_self) (by omega)
      · exact fun d member => drawn d (List.mem_cons_of_mem c member)
      · rw [List.length_append, List.length_singleton]
        omega

theorem Shows.setcolor {t : Terminal} {text : List Byte} (shows : t.Shows text) (color : Byte) :
    (t.setcolor color).Shows text := ⟨shows.fits, shows.cells⟩

end Terminal

end OrbitOs.Drivers
