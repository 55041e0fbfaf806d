import Mathlib.Tactic

/-!
# Text laid out in rows

A page of unbounded height is filled from left to right.  A row ends at a newline
or when it is full, and the next character starts a new one.  A window of limited
height shows the last rows.
-/

set_option autoImplicit false

namespace OrbitOs.Base

/-- The rows that have ended, and the row of the cursor. -/
structure Page (α : Type) where
  done : List (List α)
  current : List α

namespace Page

variable {α : Type}

def empty : Page α := ⟨[], []⟩

def rows (p : Page α) : List (List α) := p.done ++ [p.current]

def newline (p : Page α) : Page α := ⟨p.done ++ [p.current], []⟩

def append (p : Page α) (a : α) : Page α := { p with current := p.current ++ [a] }

/-- One character; a row of `width` characters ends at once. -/
def place (width : ℕ) (p : Page α) (a : α) : Page α :=
  if (p.append a).current.length = width then (p.append a).newline else p.append a

/-- The last `height` rows. -/
def window (height : ℕ) (p : Page α) : List (List α) := p.rows.drop (p.rows.length - height)

/-- What stands at a row and a column of some rows. -/
def cellAt (rows : List (List α)) (r c : ℕ) : Option α := rows[r]?.bind fun row => row[c]?

/-! ## Rows are never too long -/

/-- No row is longer than the width, and the row of the cursor has room. -/
structure Fits (width : ℕ) (p : Page α) : Prop where
  done : ∀ row ∈ p.done, row.length ≤ width
  current : p.current.length < width

theorem Fits.empty {width : ℕ} (positive : 0 < width) : Fits width (empty : Page α) :=
  ⟨fun _ member => absurd member List.not_mem_nil, positive⟩

theorem Fits.newline {width : ℕ} {p : Page α} (positive : 0 < width)
    (ended : ∀ row ∈ p.done, row.length ≤ width) (last : p.current.length ≤ width) :
    Fits width p.newline := by
  refine ⟨?_, positive⟩
  intro row member
  rcases List.mem_append.mp member with before | here
  · exact ended row before
  · rw [List.mem_singleton.mp here]
    exact last

theorem Fits.place {width : ℕ} {p : Page α} (fits : Fits width p) (a : α) :
    Fits width (p.place width a) := by
  have room := fits.current
  have length : (p.append a).current.length = p.current.length + 1 := by
    rw [append, List.length_append, List.length_singleton]
  unfold Page.place
  by_cases full : (p.append a).current.length = width
  · rw [if_pos full]
    exact Fits.newline (by omega) fits.done (Nat.le_of_eq full)
  · rw [if_neg full]
    exact ⟨fits.done, by omega⟩

/-! ## The window -/

section Window

variable {height : ℕ} (positive : 0 < height) (p : Page α)

include positive

/-- The window is the last rows that have ended and the row of the cursor. -/
theorem window_eq :
    p.window height = p.done.drop (p.done.length + 1 - height) ++ [p.current] := by
  unfold window rows
  rw [List.length_append, List.length_singleton, List.drop_append_of_le_length (by omega)]

theorem window_length : (p.window height).length = min (p.done.length + 1) height := by
  rw [window_eq positive, List.length_append, List.length_drop, List.length_singleton]
  omega

/-- While the window has room a newline adds a row. -/
theorem window_newline_room (room : (p.window height).length < height) :
    p.newline.window height = p.window height ++ [[]] := by
  rw [window_length positive] at room
  rw [window_eq positive, window_eq positive]
  have all : p.done.length + 1 - height = 0 := by omega
  have allNext : (p.done ++ [p.current]).length + 1 - height = 0 := by
    rw [List.length_append, List.length_singleton]
    omega
  unfold newline
  rw [allNext, all, List.drop_zero, List.drop_zero]

/-- In a full window a newline pushes the first row out. -/
theorem window_newline_full (full : (p.window height).length = height) :
    p.newline.window height = (p.window height).tail ++ [[]] := by
  rw [window_length positive] at full
  rw [window_eq positive, window_eq positive]
  have next : (p.done ++ [p.current]).length + 1 - height = (p.done.length + 1 - height) + 1 := by
    rw [List.length_append, List.length_singleton]
    omega
  have within : p.done.length + 1 - height ≤ p.done.length := by omega
  unfold newline
  rw [next, ← List.tail_drop, List.drop_append_of_le_length within]

end Window

/-! ## Cells of rows -/

section Cells

variable (front : List (List α)) (current : List α)

theorem cellAt_above {r : ℕ} (above : r < front.length) (c : ℕ) :
    cellAt (front ++ [current]) r c = cellAt front r c := by
  rw [cellAt, List.getElem?_append_left above, cellAt]

theorem cellAt_last (c : ℕ) : cellAt (front ++ [current]) front.length c = current[c]? := by
  rw [cellAt, List.getElem?_concat_length, Option.bind_some]

theorem cellAt_below (rows : List (List α)) {r : ℕ} (below : rows.length ≤ r) (c : ℕ) :
    cellAt rows r c = none := by
  rw [cellAt, List.getElem?_eq_none below, Option.bind_none]

theorem cellAt_append (a : α) (r c : ℕ) :
    cellAt (front ++ [current ++ [a]]) r c =
      if r = front.length ∧ c = current.length then some a
      else cellAt (front ++ [current]) r c := by
  rcases Nat.lt_trichotomy r front.length with above | rfl | below
  · rw [if_neg (by omega), cellAt_above front _ above, cellAt_above front _ above]
  · rw [cellAt_last, cellAt_last]
    by_cases here : c = current.length
    · rw [if_pos ⟨rfl, here⟩, here, List.getElem?_concat_length]
    · rw [if_neg fun both => here both.2]
      rcases Nat.lt_or_gt_of_ne here with before | after
      · rw [List.getElem?_append_left before]
      · rw [List.getElem?_eq_none (by rw [List.length_append, List.length_singleton]; omega),
          List.getElem?_eq_none (by omega)]
  · have lengths : ∀ row : List α, (front ++ [row]).length ≤ r := by
      intro row
      rw [List.length_append, List.length_singleton]
      omega
    rw [if_neg (by omega), cellAt_below _ (lengths _), cellAt_below _ (lengths _)]

theorem cellAt_newRow (rows : List (List α)) (r c : ℕ) :
    cellAt (rows ++ [[]]) r c = cellAt rows r c := by
  rcases Nat.lt_trichotomy r rows.length with above | rfl | below
  · exact cellAt_above rows [] above c
  · rw [cellAt_last, cellAt_below rows (Nat.le_refl _)]
    rfl
  · rw [cellAt_below _ (by rw [List.length_append, List.length_singleton]; omega),
      cellAt_below rows (by omega)]

theorem cellAt_tail (rows : List (List α)) (r c : ℕ) :
    cellAt rows.tail r c = cellAt rows (r + 1) c := by
  rw [cellAt, List.getElem?_tail, cellAt]

end Cells

end Page

end OrbitOs.Base
