import OrbitOs.Drivers.SharedTerminal

/-!
# Without interruption the accesses add up to `Terminal.putchar`

The driver's accesses, run one after the other, do what the terminal model does
in one step, on the same screen with the same cursor.
-/

set_option autoImplicit false

namespace OrbitOs.Drivers.Shared

open OrbitOs.Machine OrbitOs.Base

/-- Run to the end, with no other party. -/
abbrev after {α : Type} (code : Code α) (s : Screen) : Screen := (Resumption.run handle code s).2

/-- The static variables have the terminal's values. -/
structure Matches (t : Terminal) (s : Screen) : Prop where
  row : s.row.toNat = t.row
  column : s.column.toNat = t.column
  color : s.color = t.color
  cells : ∀ i, s.buffer i = t.buffer i.toNat
  ports : s.ports = t.ports

/-- What changed from `s` is the screen, which is now `cells`. -/
structure Painted (s : Screen) (cells : ℕ → Cell) (s' : Screen) : Prop where
  row : s'.row = s.row
  column : s'.column = s.column
  color : s'.color = s.color
  cells : ∀ i, s'.buffer i = cells i.toNat
  ports : s'.ports = s.ports

theorem Painted.storeCell {s s' : Screen} {cells : ℕ → Cell} (painted : Painted s cells s')
    (i : Word) (cell : Cell) :
    Painted s (Function.update cells i.toNat cell) (after (storeCell i cell) s') := by
  refine ⟨painted.row, painted.column, painted.color, fun j => ?_, painted.ports⟩
  change Function.update s'.buffer i cell j = _
  by_cases same : j = i
  · rw [same, Function.update_self, Function.update_self]
  · have other : j.toNat ≠ i.toNat := fun wrong => same (BitVec.eq_of_toNat_eq wrong)
    rw [Function.update_of_ne same, Function.update_of_ne other, painted.cells]

theorem after_bind {α β : Type} (p : Code α) (f : α → Code β) (s : Screen) :
    after (p >>= f) s = after (f (Resumption.run handle p s).1) (after p s) :=
  congrArg Prod.snd (Resumption.run_bind' handle p f s)

theorem after_forEach {ι : Type} (body : ι → Code Unit) (l : List ι) (s : Screen) :
    after (Resumption.forEach body l) s = l.foldl (fun s x => after (body x) s) s :=
  Resumption.run_forEach handle body l s

/-! ## Scrolling -/

theorem toNat_ofNat_small {n : ℕ} (small : n < 80) : (BitVec.ofNat 32 n).toNat = n := by
  rw [BitVec.toNat_ofNat]
  omega

theorem Painted.copyCell {s s' : Screen} {cells : ℕ → Cell} (painted : Painted s cells s')
    {y x : ℕ} (yBound : y < 24) (xBound : x < 80) :
    Painted s (Function.update cells (y * vgaWidth + x) (cells ((y + 1) * vgaWidth + x)))
      (after (copyCell y x) s') := by
  have row : (BitVec.ofNat 32 y).toNat = y := toNat_ofNat_small (by omega)
  have column : (BitVec.ofNat 32 x).toNat = x := toNat_ofNat_small xBound
  have below : (BitVec.ofNat 32 y + 1).toNat = y + 1 := by
    have one : (1 : Word).toNat = 1 := rfl
    rw [BitVec.toNat_add, row, one]
    omega
  have target : (BitVec.ofNat 32 y * 80 + BitVec.ofNat 32 x).toNat = y * vgaWidth + x := by
    rw [toNat_index (by omega) (by omega), row, column, vgaWidth]
  have source : ((BitVec.ofNat 32 y + 1) * 80 + BitVec.ofNat 32 x).toNat =
      (y + 1) * vgaWidth + x := by
    rw [toNat_index (by omega) (by omega), below, column, vgaWidth]
  have stored := painted.storeCell (BitVec.ofNat 32 y * 80 + BitVec.ofNat 32 x)
    (s'.buffer ((BitVec.ofNat 32 y + 1) * 80 + BitVec.ofNat 32 x))
  rw [painted.cells, target, source] at stored
  rw [← source, ← painted.cells, source] at *
  exact stored

theorem Painted.blankCell {s s' : Screen} {cells : ℕ → Cell} (painted : Painted s cells s')
    {x : ℕ} (xBound : x < 80) :
    Painted s (Function.update cells ((vgaHeight - 1) * vgaWidth + x) (vgaEntry 0x20 s.color))
      (after (blankCell x) s') := by
  have column : (BitVec.ofNat 32 x).toNat = x := toNat_ofNat_small xBound
  have target : (24 * 80 + BitVec.ofNat 32 x : Word).toNat = (vgaHeight - 1) * vgaWidth + x := by
    rw [toNat_index (by omega) (by decide), column]
    rfl
  have stored := painted.storeCell (24 * 80 + BitVec.ofNat 32 x) (vgaEntry 0x20 s'.color)
  rw [target, painted.color] at stored
  rw [← painted.color] at stored ⊢
  exact stored

theorem Painted.copyRow {s s' : Screen} {cells : ℕ → Cell} (painted : Painted s cells s') {y : ℕ}
    (yBound : y < 24) :
    Painted s (Terminal.copyRow cells y)
      (after (Resumption.forEach (Shared.copyCell y) (List.range vgaWidth)) s') := by
  rw [after_forEach]
  apply List.foldl_rel (r := fun s₁ cells₁ => Painted s cells₁ s₁) painted
  intro x inRow s₁ cells₁ painted₁
  exact painted₁.copyCell yBound (List.mem_range.mp inRow)

theorem Painted.blankLastRow {s s' : Screen} {cells : ℕ → Cell} (painted : Painted s cells s') :
    Painted s (Terminal.blankLastRow cells s.color)
      (after (Resumption.forEach Shared.blankCell (List.range vgaWidth)) s') := by
  rw [after_forEach]
  apply List.foldl_rel (r := fun s₁ cells₁ => Painted s cells₁ s₁) painted
  intro x inRow s₁ cells₁ painted₁
  exact painted₁.blankCell (List.mem_range.mp inRow)

theorem Painted.terminalScroll {s : Screen} {t : Terminal} (painted : Painted s t.buffer s)
    (color : s.color = t.color) : Painted s t.scroll.buffer (after terminalScroll s) := by
  unfold Shared.terminalScroll
  rw [after_bind]
  have rows : Painted s ((List.range (vgaHeight - 1)).foldl Terminal.copyRow t.buffer)
      (after (Resumption.forEach (fun y => Resumption.forEach (Shared.copyCell y)
        (List.range vgaWidth)) (List.range (vgaHeight - 1))) s) := by
    rw [after_forEach]
    apply List.foldl_rel (r := fun s₁ cells₁ => Painted s cells₁ s₁) painted
    intro y member s₁ cells₁ painted₁
    exact painted₁.copyRow (List.mem_range.mp member)
  have blank := rows.blankLastRow
  rw [color] at blank
  exact blank

/-! ## The branches of `terminal_putchar` -/

namespace Matches

variable {t : Terminal} {s : Screen}

theorem painted (same : Matches t s) : Painted s t.buffer s := ⟨rfl, rfl, rfl, same.cells, rfl⟩

theorem outb (same : Matches t s) (port : BitVec 16) (val : Byte) :
    Matches (t.outb port val) (after (outb port val) s) :=
  ⟨same.row, same.column, same.color, same.cells, congrArg (· ++ [(port, val)]) same.ports⟩

theorem index (same : Matches t s) : (s.row * 80 + s.column).toNat = t.position := by
  have row := t.row_lt
  have column := t.column_lt
  rw [← same.row] at row
  rw [← same.column] at column
  rw [toNat_index column row, same.row, same.column, Terminal.position, vgaWidth]

theorem putentry (same : Matches t s) (c : Byte) :
    Matches (t.putentry c) (after (putentry c) s) := by
  have stored := same.painted.storeCell (s.row * 80 + s.column) (vgaEntry c s.color)
  rw [same.index, same.color] at stored
  rw [← same.color] at stored
  refine ⟨same.row, same.column, same.color, fun i => ?_, same.ports⟩
  rw [Terminal.putentry_buffer, ← same.color]
  exact stored.cells i

theorem updateCursor (same : Matches t s) : Matches t.updateCursor (after updateCursor s) := by
  have pos : (s.row * 80 + s.column).setWidth 16 =
      BitVec.ofNat 16 (t.row * vgaWidth + t.column) := by
    rw [← BitVec.ofNat_toNat, same.index, Terminal.position]
  unfold Terminal.updateCursor
  rw [← pos]
  exact (((same.outb 0x3D4 0x0F).outb 0x3D5 _).outb 0x3D4 0x0E).outb 0x3D5 _

/-- The row is stored before it is compared. -/
theorem after_nextRow (s : Screen) :
    after nextRow s = after
      (if s.row + 1 = 25 then terminalScroll >>= fun _ => store .row 24 else pure ())
      { s with row := s.row + 1 } := by
  unfold nextRow
  rw [after_bind, after_bind]
  rfl

theorem lastRow {s' : Screen} (same : Matches t s) (full : ¬ t.row + 1 < vgaHeight)
    (scrolled : Painted { s with column := 0, row := s.row + 1 } t.scroll.buffer s') :
    Matches t.newline (after (store .row 24) s') := by
  rw [Terminal.newline, dif_neg full]
  exact ⟨rfl, congrArg BitVec.toNat scrolled.column, scrolled.color.trans same.color,
    scrolled.cells, scrolled.ports.trans same.ports⟩

/-- `terminal_column = 0; if (++terminal_row == VGA_HEIGHT) …` -/
theorem newline (same : Matches t s) :
    Matches t.newline (after nextRow (after (store .column 0) s)) := by
  have rowBound := t.row_lt
  unfold vgaHeight at rowBound
  have row := same.row
  have next : (s.row + 1).toNat = t.row + 1 := by
    have one : (1 : Word).toNat = 1 := rfl
    rw [BitVec.toNat_add, one]
    omega
  have stored : after (store .column 0) s = { s with column := 0 } := rfl
  rw [stored, after_nextRow]
  by_cases last : s.row + 1 = 25
  · have full : ¬ t.row + 1 < vgaHeight := by
      rw [← next, last]
      decide
    have scrolled : Painted { s with column := 0, row := s.row + 1 } t.scroll.buffer
        (after terminalScroll { s with column := 0, row := s.row + 1 }) :=
      Painted.terminalScroll ⟨rfl, rfl, rfl, same.cells, rfl⟩ same.color
    rw [if_pos last, after_bind]
    exact same.lastRow full scrolled
  · have below : t.row + 1 < vgaHeight := by
      have different : (s.row + 1).toNat ≠ 25 := fun wrong => last (BitVec.eq_of_toNat_eq wrong)
      unfold vgaHeight
      omega
    rw [if_neg last, Terminal.newline, dif_pos below]
    exact ⟨next, rfl, same.color, same.cells, same.ports⟩

theorem retreat (same : Matches t s) : Matches t.retreat (after retreat s) := by
  have row := same.row
  have column := same.column
  unfold Shared.retreat Terminal.retreat
  rw [after_bind]
  change Matches _ (after (if s.column > 0 then _ else _) s)
  by_cases some : s.column > 0
  · have started : t.column > 0 := by bv_omega
    rw [if_pos some, if_pos started]
    refine ⟨same.row, ?_, same.color, same.cells, same.ports⟩
    change (s.column - 1).toNat = t.column - 1
    bv_omega
  · have atStart : ¬ t.column > 0 := by bv_omega
    rw [if_neg some, if_neg atStart, after_bind]
    change Matches _ (after (if s.row > 0 then _ else _) s)
    by_cases above : s.row > 0
    · have under : t.row > 0 := by bv_omega
      rw [if_pos above, if_pos under]
      refine ⟨?_, rfl, same.color, same.cells, same.ports⟩
      change (s.row - 1).toNat = t.row - 1
      bv_omega
    · have first : ¬ t.row > 0 := by bv_omega
      rw [if_neg above, if_neg first]
      exact same

theorem advance (same : Matches t s) : Matches t.advance (after advance s) := by
  have columnBound := t.column_lt
  unfold vgaWidth at columnBound
  have column := same.column
  have next : (s.column + 1).toNat = t.column + 1 := by
    have one : (1 : Word).toNat = 1 := rfl
    rw [BitVec.toNat_add, one]
    omega
  unfold Shared.advance Terminal.advance
  rw [after_bind, after_bind]
  change Matches _ (after (if s.column + 1 = 80 then _ else _) { s with column := s.column + 1 })
  by_cases last : s.column + 1 = 80
  · have full : ¬ t.column + 1 < vgaWidth := by
      rw [← next, last]
      decide
    rw [if_pos last, dif_neg full, after_bind]
    exact same.newline
  · have inside : t.column + 1 < vgaWidth := by
      have different : (s.column + 1).toNat ≠ 80 := fun wrong => last (BitVec.eq_of_toNat_eq wrong)
      unfold vgaWidth
      omega
    rw [if_neg last, dif_pos inside]
    exact ⟨same.row, next, same.color, same.cells, same.ports⟩

/-- One character, every access in turn. -/
theorem terminalPutchar (same : Matches t s) (c : Byte) :
    Matches (t.putchar c) (after (terminalPutchar c) s) := by
  have sent : Matches (t.serialWriteChar c) (after (Shared.outb 0x3F8 c) s) := same.outb 0x3F8 c
  unfold Shared.terminalPutchar Terminal.putchar
  rw [after_bind]
  by_cases backspace : c = 0x08
  · rw [if_pos backspace, if_pos backspace, after_bind, after_bind]
    exact (sent.retreat.putentry 0x20).updateCursor
  · rw [if_neg backspace, if_neg backspace]
    by_cases line : c = 0x0A
    · rw [if_pos line, if_pos line, after_bind, after_bind]
      exact sent.newline.updateCursor
    · rw [if_neg line, if_neg line, after_bind, after_bind]
      exact (sent.putentry c).advance.updateCursor

/-- A text that nobody interrupts does what the terminal model says. -/
theorem terminalWrite (same : Matches t s) (data : List Byte) :
    Matches (t.write data) (after (terminalWrite data) s) := by
  unfold Shared.terminalWrite Terminal.write
  rw [after_forEach]
  apply List.foldl_rel (r := fun s₁ t₁ => Matches t₁ s₁) same
  intro c _ s₁ t₁ same₁
  exact same₁.terminalPutchar c

end Matches

end OrbitOs.Drivers.Shared
