import OrbitOs.Base.Resumption
import OrbitOs.Drivers.Terminal

/-!
# `terminal_putchar` one access at a time

The shell prints with interrupts enabled, so between two accesses of its
`terminal_putchar` a Ring 3 program may run and print with a system call.  Each
read or write of `terminal_row`, `terminal_column` and the screen buffer is an
operation here, on 32-bit words that nothing keeps in range; the indices of the
screen writes are logged.
-/

set_option autoImplicit false

namespace OrbitOs.Drivers.Shared

open OrbitOs.Machine OrbitOs.Base

inductive Cursor
  | row
  | column

/-- What a read is for: its value, or the operand of `++` or `--`. -/
inductive Use
  | value
  | increment
  | decrement

inductive Op
  | load (v : Cursor) (use : Use)
  | store (v : Cursor) (x : Word)
  | loadColor
  | loadCell (i : Word)
  | storeCell (i : Word) (cell : Cell)
  | outb (port : BitVec 16) (val : Byte)

abbrev Op.Res : Op → Type
  | .load _ _ => Word
  | .store _ _ => Unit
  | .loadColor => Byte
  | .loadCell _ => Cell
  | .storeCell _ _ => Unit
  | .outb _ _ => Unit

/-- The static variables of terminal.c and the screen. -/
structure Screen where
  row : Word
  column : Word
  color : Byte
  buffer : Word → Cell
  /-- The `outb` calls so far. -/
  ports : List (BitVec 16 × Byte)
  /-- The indices of the screen writes so far. -/
  written : List Word

def Screen.get (s : Screen) : Cursor → Word
  | .row => s.row
  | .column => s.column

def Screen.set (s : Screen) (x : Word) : Cursor → Screen
  | .row => { s with row := x }
  | .column => { s with column := x }

def handle : (o : Op) → Screen → o.Res × Screen
  | .load v _, s => (s.get v, s)
  | .store v x, s => ((), s.set x v)
  | .loadColor, s => (s.color, s)
  | .loadCell i, s => (s.buffer i, s)
  | .storeCell i cell, s =>
    ((), { s with buffer := Function.update s.buffer i cell, written := s.written ++ [i] })
  | .outb port val, s => ((), { s with ports := s.ports ++ [(port, val)] })

/-! ## The source -/

abbrev Code := Resumption Op.Res

def load (v : Cursor) (use : Use) : Code Word := Resumption.op (Op.load v use)

def store (v : Cursor) (x : Word) : Code Unit := Resumption.op (Op.store v x)

def outb (port : BitVec 16) (val : Byte) : Code Unit := Resumption.op (Op.outb port val)

def storeCell (i : Word) (cell : Cell) : Code Unit := Resumption.op (Op.storeCell i cell)

def loadCell (i : Word) : Code Cell := Resumption.op (Op.loadCell i)

def loadColor : Code Byte := Resumption.op Op.loadColor

def terminalUpdateCursor (x y : Word) : Code Unit :=
  let pos : BitVec 16 := (y * 80 + x).setWidth 16
  do
    outb 0x3D4 0x0F
    outb 0x3D5 ((pos &&& 0xFF).setWidth 8)
    outb 0x3D4 0x0E
    outb 0x3D5 (((pos >>> 8) &&& 0xFF).setWidth 8)

def terminalPutentryat (c color : Byte) (x y : Word) : Code Unit :=
  storeCell (y * 80 + x) (vgaEntry c color)

/-- `terminal_buffer[y * VGA_WIDTH + x] = terminal_buffer[(y + 1) * VGA_WIDTH + x];` -/
def copyCell (y x : ℕ) : Code Unit := do
  let cell ← loadCell ((BitVec.ofNat 32 y + 1) * 80 + BitVec.ofNat 32 x)
  storeCell (BitVec.ofNat 32 y * 80 + BitVec.ofNat 32 x) cell

/-- `terminal_buffer[(VGA_HEIGHT - 1) * VGA_WIDTH + x] = vga_entry(' ', terminal_color);` -/
def blankCell (x : ℕ) : Code Unit := do
  let color ← loadColor
  storeCell (24 * 80 + BitVec.ofNat 32 x) (vgaEntry 0x20 color)

def terminalScroll : Code Unit := do
  Resumption.forEach (fun y => Resumption.forEach (copyCell y) (List.range vgaWidth))
    (List.range (vgaHeight - 1))
  Resumption.forEach blankCell (List.range vgaWidth)

/-- `if (++terminal_row == VGA_HEIGHT) { … }` -/
def nextRow : Code Unit := do
  let row ← load .row .increment
  store .row (row + 1)
  if row + 1 = 25 then
    terminalScroll
    store .row 24
  else pure ()

/-- The first branches of `'\\b'`. -/
def retreat : Code Unit := do
  let column ← load .column .value
  if column > 0 then
    let column ← load .column .decrement
    store .column (column - 1)
  else
    let row ← load .row .value
    if row > 0 then
      let row ← load .row .decrement
      store .row (row - 1)
      store .column 79
    else pure ()

/-- `terminal_putentryat(c, terminal_color, terminal_column, terminal_row);` -/
def putentry (c : Byte) : Code Unit := do
  let color ← loadColor
  let column ← load .column .value
  let row ← load .row .value
  terminalPutentryat c color column row

/-- `if (++terminal_column == VGA_WIDTH) { … }` -/
def advance : Code Unit := do
  let column ← load .column .increment
  store .column (column + 1)
  if column + 1 = 80 then
    store .column 0
    nextRow
  else pure ()

def updateCursor : Code Unit := do
  let column ← load .column .value
  let row ← load .row .value
  terminalUpdateCursor column row

def terminalPutchar (c : Byte) : Code Unit := do
  outb 0x3F8 c
  if c = 0x08 then
    retreat
    putentry 0x20
    updateCursor
  else if c = 0x0A then
    store .column 0
    nextRow
    updateCursor
  else
    putentry c
    advance
    updateCursor

/-- `terminal_write`, and `terminal_writestring` of a string. -/
def terminalWrite (data : List Byte) : Code Unit := Resumption.forEach terminalPutchar data

/-! ## Interruptions -/

structure InRange (s : Screen) : Prop where
  row : s.row.toNat < 25
  column : s.column.toNat < 80

/-- Every screen write so far hit the screen. -/
def WritesInside (s : Screen) : Prop := ∀ i ∈ s.written, i.toNat < 2000

/-- The others print while the cursor is in range, and not between the test of
`--` and the read of its operand. -/
def env : Resumption.Environment Op Screen where
  admits o s := InRange s ∧ ∀ v, o ≠ .load v .decrement
  acts _ s' := InRange s' ∧ WritesInside s'
  acts_trans := fun _ _ _ _ later => later

abbrev Ready {α : Type} (post : α → Screen → Prop) : Code α → Screen → Prop :=
  Resumption.Ready handle env WritesInside post

section Rules

variable {s : Screen}

theorem ready_load (v : Cursor) (use : Use) (inside : WritesInside s) (inRange : InRange s) :
    Ready (fun x s' => x = s'.get v ∧ InRange s') (load v use) s := by
  refine Resumption.ready_op (o := Op.load v use) fun s' turn => ?_
  rcases turn with rfl | ⟨-, acted, inside'⟩
  · exact ⟨inside, inside, rfl, inRange⟩
  · exact ⟨inside', inside', rfl, acted⟩

/-- Nobody prints before this read. -/
theorem ready_load_decrement (v : Cursor) (inside : WritesInside s) :
    Ready (fun x s' => x = s.get v ∧ s' = s) (load v .decrement) s := by
  refine Resumption.ready_op (o := Op.load v .decrement) fun s' turn => ?_
  rcases turn with rfl | ⟨⟨-, other⟩, -⟩
  · exact ⟨inside, inside, rfl, rfl⟩
  · exact absurd rfl (other v)

theorem ready_loadColor (inside : WritesInside s) (inRange : InRange s) :
    Ready (fun _ => InRange) loadColor s := by
  refine Resumption.ready_op (o := Op.loadColor) fun s' turn => ?_
  rcases turn with rfl | ⟨-, acted, inside'⟩
  · exact ⟨inside, inside, inRange⟩
  · exact ⟨inside', inside', acted⟩

theorem ready_outb (port : BitVec 16) (val : Byte) (inside : WritesInside s)
    (inRange : InRange s) : Ready (fun _ => InRange) (outb port val) s := by
  refine Resumption.ready_op (o := Op.outb port val) fun s' turn => ?_
  rcases turn with rfl | ⟨-, acted, inside'⟩
  · exact ⟨inside, inside, inRange.row, inRange.column⟩
  · exact ⟨inside', inside', acted.row, acted.column⟩

/-- A store keeps the rest of the state and the other variable's range. -/
theorem ready_store_column (x : Word) (inside : WritesInside s) (inRange : InRange s) :
    Ready (fun _ s' => s'.row.toNat < 25 ∧ s'.column = x) (store .column x) s := by
  refine Resumption.ready_op (o := Op.store .column x) fun s' turn => ?_
  rcases turn with rfl | ⟨-, acted, inside'⟩
  · exact ⟨inside, inside, inRange.row, rfl⟩
  · exact ⟨inside', inside', acted.row, rfl⟩

theorem ready_store_row (x : Word) (inside : WritesInside s) (inRange : InRange s) :
    Ready (fun _ s' => s'.row = x ∧ s'.column.toNat < 80) (store .row x) s := by
  refine Resumption.ready_op (o := Op.store .row x) fun s' turn => ?_
  rcases turn with rfl | ⟨-, acted, inside'⟩
  · exact ⟨inside, inside, rfl, inRange.column⟩
  · exact ⟨inside', inside', rfl, acted.column⟩

/-- While the cursor is out of range nobody prints. -/
theorem ready_op_alone (o : Op) {post : o.Res → Screen → Prop} (outside : ¬ InRange s)
    (inside : WritesInside s) (after : WritesInside (handle o s).2)
    (returns : post (handle o s).1 (handle o s).2) :
    Ready post (Resumption.op o) s := by
  refine Resumption.ready_op fun s' turn => ?_
  rcases turn with rfl | ⟨⟨wrong, -⟩, -⟩
  · exact ⟨inside, after, returns⟩
  · exact absurd wrong outside

theorem writesInside_storeCell {i : Word} {cell : Cell} (inside : WritesInside s)
    (bound : i.toNat < 2000) : WritesInside (handle (.storeCell i cell) s).2 := by
  intro j member
  rcases List.mem_append.mp member with old | new
  · exact inside j old
  · rw [List.mem_singleton.mp new]
    exact bound

theorem ready_storeCell {i : Word} (cell : Cell) (bound : i.toNat < 2000)
    (inside : WritesInside s) (inRange : InRange s) :
    Ready (fun _ => InRange) (storeCell i cell) s := by
  refine Resumption.ready_op (o := Op.storeCell i cell) fun s' turn => ?_
  rcases turn with rfl | ⟨-, acted, inside'⟩
  · exact ⟨inside, writesInside_storeCell inside bound, inRange.row, inRange.column⟩
  · exact ⟨inside', writesInside_storeCell inside' bound, acted.row, acted.column⟩

end Rules

/-! ## Every character keeps the cursor in range -/

theorem toNat_index {x y : Word} (column : x.toNat < 80) (row : y.toNat < 25) :
    (y * 80 + x).toNat = y.toNat * 80 + x.toNat := by
  have width : (80 : Word).toNat = 80 := rfl
  rw [BitVec.toNat_add, BitVec.toNat_mul, width]
  omega

theorem index_lt {x y : Word} (column : x.toNat < 80) (row : y.toNat < 25) :
    (y * 80 + x).toNat < 2000 := by
  rw [toNat_index column row]
  omega

/-- The state during a scroll: nobody prints. -/
def Scrolling (s : Screen) : Prop := s.row = 25 ∧ s.column.toNat < 80

theorem Scrolling.outside {s : Screen} (scrolling : Scrolling s) : ¬ InRange s := by
  intro inRange
  have row := inRange.row
  rw [scrolling.1] at row
  exact absurd row (by decide)

theorem ready_copyCell {s : Screen} {y x : ℕ} (yBound : y < 24) (xBound : x < 80)
    (inside : WritesInside s) (scrolling : Scrolling s) :
    Ready (fun _ => Scrolling) (copyCell y x) s := by
  have row : (BitVec.ofNat 32 y).toNat < 25 := by
    rw [BitVec.toNat_ofNat]
    omega
  have column : (BitVec.ofNat 32 x).toNat < 80 := by
    rw [BitVec.toNat_ofNat]
    omega
  have read : Ready (fun _ => Scrolling)
      (loadCell ((BitVec.ofNat 32 y + 1) * 80 + BitVec.ofNat 32 x)) s :=
    ready_op_alone (.loadCell _) scrolling.outside inside inside scrolling
  refine Resumption.ready_bind read fun cell s' inside' scrolling' => ?_
  exact ready_op_alone (.storeCell _ _) scrolling'.outside inside'
    (writesInside_storeCell inside' (index_lt column row)) scrolling'

theorem ready_blankCell {s : Screen} {x : ℕ} (xBound : x < 80) (inside : WritesInside s)
    (scrolling : Scrolling s) : Ready (fun _ => Scrolling) (blankCell x) s := by
  have column : (BitVec.ofNat 32 x).toNat < 80 := by
    rw [BitVec.toNat_ofNat]
    omega
  have read : Ready (fun _ => Scrolling) loadColor s :=
    ready_op_alone .loadColor scrolling.outside inside inside scrolling
  refine Resumption.ready_bind read fun color s' inside' scrolling' => ?_
  exact ready_op_alone (.storeCell _ _) scrolling'.outside inside'
    (writesInside_storeCell inside' (index_lt column (by decide))) scrolling'

theorem ready_terminalScroll {s : Screen} (inside : WritesInside s) (scrolling : Scrolling s) :
    Ready (fun _ => Scrolling) terminalScroll s := by
  have rows : Ready (fun _ => Scrolling) (Resumption.forEach (fun y =>
      Resumption.forEach (copyCell y) (List.range vgaWidth)) (List.range (vgaHeight - 1))) s := by
    refine Resumption.ready_forEach _ (fun y member s' inside' scrolling' => ?_) inside scrolling
    have yBound : y < 24 := List.mem_range.mp member
    refine Resumption.ready_forEach _ (fun x inRow s'' inside'' scrolling'' => ?_) inside'
      scrolling'
    exact ready_copyCell yBound (List.mem_range.mp inRow) inside'' scrolling''
  refine Resumption.ready_bind rows fun _ s' inside' scrolling' => ?_
  refine Resumption.ready_forEach _ (fun x inRow s'' inside'' scrolling'' => ?_) inside' scrolling'
  exact ready_blankCell (List.mem_range.mp inRow) inside'' scrolling''

section Codes

variable {s : Screen} (inside : WritesInside s) (inRange : InRange s)

include inside inRange

/-- Row 25 is left before anybody else prints. -/
theorem ready_nextRow : Ready (fun _ => InRange) nextRow s := by
  refine Resumption.ready_bind (ready_load .row .increment inside inRange)
    fun row s₁ inside₁ ⟨isRow, inRange₁⟩ => ?_
  have rowBound : row.toNat < 25 := isRow ▸ inRange₁.row
  refine Resumption.ready_bind (ready_store_row (row + 1) inside₁ inRange₁)
    fun _ s₂ inside₂ ⟨stored, column⟩ => ?_
  by_cases last : row + 1 = 25
  · rw [if_pos last]
    have scrolling : Scrolling s₂ := ⟨stored.trans last, column⟩
    refine Resumption.ready_bind (ready_terminalScroll inside₂ scrolling)
      fun _ s₃ inside₃ scrolling₃ => ?_
    exact ready_op_alone (.store .row 24) scrolling₃.outside inside₃ inside₃
      ⟨(by decide : (24 : Word).toNat < 25), scrolling₃.2⟩
  · rw [if_neg last]
    refine Resumption.ready_done inside₂ ⟨?_, column⟩
    rw [stored]
    bv_omega

theorem ready_retreat : Ready (fun _ => InRange) retreat s := by
  refine Resumption.ready_bind (ready_load .column .value inside inRange)
    fun column s₁ inside₁ ⟨isColumn, inRange₁⟩ => ?_
  by_cases some : column > 0
  · rw [if_pos some]
    refine Resumption.ready_bind (ready_load_decrement .column inside₁)
      fun column' s₂ inside₂ ⟨again, same⟩ => ?_
    -- the operand is the value that was tested
    have operand : column' = column := again.trans isColumn.symm
    have bound : column.toNat < 80 := isColumn ▸ inRange₁.column
    refine (ready_store_column (column' - 1) inside₂ (same ▸ inRange₁)).mono
      fun _ s₃ _ ⟨row, stored⟩ => ⟨row, ?_⟩
    rw [stored, operand]
    bv_omega
  · rw [if_neg some]
    refine Resumption.ready_bind (ready_load .row .value inside₁ inRange₁)
      fun row s₂ inside₂ ⟨isRow, inRange₂⟩ => ?_
    by_cases above : row > 0
    · rw [if_pos above]
      refine Resumption.ready_bind (ready_load_decrement .row inside₂)
        fun row' s₃ inside₃ ⟨again, same⟩ => ?_
      have operand : row' = row := again.trans isRow.symm
      have bound : row.toNat < 25 := isRow ▸ inRange₂.row
      refine Resumption.ready_bind (ready_store_row (row' - 1) inside₃ (same ▸ inRange₂))
        fun _ s₄ inside₄ ⟨stored, column⟩ => ?_
      have inRange₄ : InRange s₄ := by
        refine ⟨?_, column⟩
        rw [stored, operand]
        bv_omega
      refine (ready_store_column 79 inside₄ inRange₄).mono fun _ s₅ _ ⟨row, stored⟩ => ⟨row, ?_⟩
      rw [stored]
      decide
    · rw [if_neg above]
      exact Resumption.ready_done inside₂ inRange₂

theorem ready_putentry (c : Byte) : Ready (fun _ => InRange) (putentry c) s := by
  refine Resumption.ready_bind (ready_loadColor inside inRange) fun color s₁ inside₁ inRange₁ => ?_
  refine Resumption.ready_bind (ready_load .column .value inside₁ inRange₁)
    fun column s₂ inside₂ ⟨isColumn, inRange₂⟩ => ?_
  refine Resumption.ready_bind (ready_load .row .value inside₂ inRange₂)
    fun row s₃ inside₃ ⟨isRow, inRange₃⟩ => ?_
  exact ready_storeCell _ (index_lt (isColumn ▸ inRange₂.column) (isRow ▸ inRange₃.row)) inside₃
    inRange₃

/-- Column 80 is left before anybody else prints. -/
theorem ready_advance : Ready (fun _ => InRange) advance s := by
  refine Resumption.ready_bind (ready_load .column .increment inside inRange)
    fun column s₁ inside₁ ⟨isColumn, inRange₁⟩ => ?_
  have bound : column.toNat < 80 := isColumn ▸ inRange₁.column
  refine Resumption.ready_bind (ready_store_column (column + 1) inside₁ inRange₁)
    fun _ s₂ inside₂ ⟨row, stored⟩ => ?_
  by_cases last : column + 1 = 80
  · rw [if_pos last]
    have outside : ¬ InRange s₂ := by
      intro wrong
      have column := wrong.column
      rw [stored, last] at column
      exact absurd column (by decide)
    have zero : Ready (fun _ => InRange) (store .column 0) s₂ :=
      ready_op_alone (.store .column 0) outside inside₂ inside₂
        ⟨row, (by decide : (0 : Word).toNat < 80)⟩
    exact Resumption.ready_bind zero fun _ s₃ inside₃ inRange₃ => ready_nextRow inside₃ inRange₃
  · rw [if_neg last]
    refine Resumption.ready_done inside₂ ⟨row, ?_⟩
    rw [stored]
    bv_omega

theorem ready_updateCursor : Ready (fun _ => InRange) updateCursor s := by
  refine Resumption.ready_bind (ready_load .column .value inside inRange)
    fun column s₁ inside₁ ⟨_, inRange₁⟩ => ?_
  refine Resumption.ready_bind (ready_load .row .value inside₁ inRange₁)
    fun row s₂ inside₂ ⟨_, inRange₂⟩ => ?_
  refine Resumption.ready_bind (ready_outb _ _ inside₂ inRange₂) fun _ s₃ inside₃ inRange₃ => ?_
  refine Resumption.ready_bind (ready_outb _ _ inside₃ inRange₃) fun _ s₄ inside₄ inRange₄ => ?_
  refine Resumption.ready_bind (ready_outb _ _ inside₄ inRange₄) fun _ s₅ inside₅ inRange₅ => ?_
  exact ready_outb _ _ inside₅ inRange₅

theorem ready_terminalPutchar (c : Byte) : Ready (fun _ => InRange) (terminalPutchar c) s := by
  refine Resumption.ready_bind (ready_outb _ _ inside inRange) fun _ s₁ inside₁ inRange₁ => ?_
  by_cases backspace : c = 0x08
  · rw [if_pos backspace]
    refine Resumption.ready_bind (ready_retreat inside₁ inRange₁) fun _ s₂ inside₂ inRange₂ => ?_
    refine Resumption.ready_bind (ready_putentry inside₂ inRange₂ 0x20)
      fun _ s₃ inside₃ inRange₃ => ?_
    exact ready_updateCursor inside₃ inRange₃
  · rw [if_neg backspace]
    by_cases newline : c = 0x0A
    · rw [if_pos newline]
      refine Resumption.ready_bind (ready_store_column 0 inside₁ inRange₁)
        fun _ s₂ inside₂ ⟨row, stored⟩ => ?_
      have inRange₂ : InRange s₂ := ⟨row, by rw [stored]; decide⟩
      refine Resumption.ready_bind (ready_nextRow inside₂ inRange₂) fun _ s₃ inside₃ inRange₃ => ?_
      exact ready_updateCursor inside₃ inRange₃
    · rw [if_neg newline]
      refine Resumption.ready_bind (ready_putentry inside₁ inRange₁ c)
        fun _ s₂ inside₂ inRange₂ => ?_
      refine Resumption.ready_bind (ready_advance inside₂ inRange₂) fun _ s₃ inside₃ inRange₃ => ?_
      exact ready_updateCursor inside₃ inRange₃

theorem terminalWrite_inRange (data : List Byte) :
    WritesInside (Resumption.run handle (terminalWrite data) s).2 ∧
      InRange (Resumption.run handle (terminalWrite data) s).2 :=
  (Resumption.ready_forEach data (fun c _ _ inside' inRange' =>
    ready_terminalPutchar inside' inRange' c) inside inRange).run

end Codes

/-! ## The shell and the Ring 3 programs -/

/-- What is left of the shell's call, and the screen. -/
structure System where
  code : Code Unit
  screen : Screen

inductive Event
  | call (c : Byte)
  /-- The next access of the shell's call. -/
  | access
  /-- `SYS_WRITE` of a Ring 3 program, to the end. -/
  | sysWrite (text : List Byte)
  | setcolor (color : Byte)

/-- `none` when the event is not possible. -/
def System.act (s : System) : Event → Option System
  | .call c =>
    match s.code with
    | .done () => some { s with code := terminalPutchar c }
    | .step _ _ => none
  | .access =>
    match s.code with
    | .done () => none
    | .step o next => some ⟨next (handle o s.screen).1, (handle o s.screen).2⟩
  | .sysWrite text =>
    some { s with screen := (Resumption.run handle (terminalWrite text) s.screen).2 }
  | .setcolor color =>
    match s.code with
    | .done () => some { s with screen := { s.screen with color := color } }
    | .step _ _ => none

def System.run (s : System) : List Event → Option System
  | [] => some s
  | e :: events => (s.act e).bind fun s' => s'.run events

/-- The shell has tested that a cursor variable is not zero and is about to read
it again for `--`. -/
def System.Decrementing (s : System) : Prop :=
  match s.code with
  | .step (.load _ .decrement) _ => True
  | _ => False

/-- A text comes while the cursor is in range and no decrement is under way. -/
def System.Meets (s : System) : Event → Prop
  | .sysWrite text => text = [] ∨ (InRange s.screen ∧ ¬ s.Decrementing)
  | _ => True

/-- Every event of the run meets the condition in the state before it. -/
def System.AllMeet (s : System) : List Event → Prop
  | [] => True
  | e :: events => s.Meets e ∧ ∀ s', s.act e = some s' → s'.AllMeet events

def System.Good (s : System) : Prop := Ready (fun _ => InRange) s.code s.screen

/-- A text that meets the condition finds a program that tolerates it. -/
theorem System.Good.sysWrite {s : System} (good : s.Good) {text : List Byte}
    (meets : s.Meets (.sysWrite text)) :
    System.Good ⟨s.code, (Resumption.run handle (terminalWrite text) s.screen).2⟩ := by
  obtain ⟨code, screen⟩ := s
  have inside : WritesInside screen := Resumption.Ready.holds good
  rcases meets with rfl | ⟨inRange, notDecrementing⟩
  · exact good
  · obtain ⟨inside', inRange'⟩ := terminalWrite_inRange inside inRange text
    cases code with
    | done a => exact Resumption.ready_done inside' inRange'
    | step o next =>
        have admits : env.admits o screen := by
          refine ⟨inRange, fun v wrong => notDecrementing ?_⟩
          subst wrong
          trivial
        exact Resumption.Ready.others good admits ⟨inRange', inside'⟩

theorem System.Good.act {s s' : System} {e : Event} (good : s.Good) (meets : s.Meets e)
    (taken : s.act e = some s') : s'.Good := by
  obtain ⟨code, screen⟩ := s
  have inside : WritesInside screen := Resumption.Ready.holds good
  cases e with
  | sysWrite text =>
      cases taken
      exact good.sysWrite meets
  | call c =>
      cases code with
      | done a =>
          cases taken
          exact ready_terminalPutchar inside (Resumption.Ready.returns good) c
      | step o next => cases taken
  | access =>
      cases code with
      | done a => cases taken
      | step o next =>
          cases taken
          exact Resumption.Ready.own good
  | setcolor color =>
      cases code with
      | done a =>
          cases taken
          have inRange : InRange screen := Resumption.Ready.returns good
          exact Resumption.ready_done inside ⟨inRange.row, inRange.column⟩
      | step o next => cases taken

theorem System.Good.run {s s' : System} (events : List Event) (good : s.Good)
    (meet : s.AllMeet events) (taken : s.run events = some s') : s'.Good := by
  induction events generalizing s with
  | nil =>
      cases taken
      exact good
  | cons e events ih =>
      obtain ⟨s₁, first, rest⟩ := Option.bind_eq_some_iff.mp taken
      exact ih (good.act meet.1 first) (meet.2 s₁ first) rest

/-- In a run whose texts all come while the cursor is in range and no decrement
is under way, every screen write hits the screen, and the cursor is in range
whenever the shell is not printing. -/
theorem stays_inRange {s s' : System} (idle : s.code = .done ()) (inside : WritesInside s.screen)
    (inRange : InRange s.screen) (events : List Event) (meet : s.AllMeet events)
    (taken : s.run events = some s') :
    WritesInside s'.screen ∧ (s'.code = .done () → InRange s'.screen) := by
  have good : s.Good := by
    unfold System.Good
    rw [idle]
    exact Resumption.ready_done inside inRange
  have good' := good.run events meet taken
  refine ⟨Resumption.Ready.holds good', fun idle' => ?_⟩
  unfold System.Good at good'
  rw [idle'] at good'
  exact Resumption.Ready.returns good'

/-- The screen after `terminal_initialize`, and the shell idle. -/
def started : System := ⟨.done (), ⟨0, 0, 0x07, fun _ => 0x0720, [], []⟩⟩

/-- A text before a call of the shell and one inside it. -/
def twoTexts : List Event := [.sysWrite [0x42], .call 0x41, .access, .sysWrite [0x43]]

theorem stays_inRange_twoTexts : ∃ s', started.run twoTexts = some s' ∧
    WritesInside s'.screen ∧ (s'.code = .done () → InRange s'.screen) := by
  obtain ⟨s', taken⟩ : ∃ s', started.run twoTexts = some s' := ⟨_, rfl⟩
  have empty : WritesInside started.screen := fun i member => absurd member List.not_mem_nil
  refine ⟨s', taken, stays_inRange rfl empty ⟨by decide, by decide⟩ twoTexts ?_ taken⟩
  refine ⟨Or.inr ⟨⟨by decide, by decide⟩, id⟩, fun s₁ first => ?_⟩
  cases first
  refine ⟨trivial, fun s₂ second => ?_⟩
  cases second
  refine ⟨trivial, fun s₃ third => ?_⟩
  cases third
  exact ⟨Or.inr ⟨⟨by decide, by decide⟩, id⟩, fun s₄ _ => trivial⟩

/-! ## Texts inside a scroll and a backspace -/

/-- The cursor is in the last row when the shell prints a line break, and another
program prints "B" right after `terminal_row` has become 25. -/
def scrollRace : List Event :=
  [.sysWrite (List.replicate 24 0x0A), .call 0x0A] ++ List.replicate 4 .access ++
    [.sysWrite [0x42]]

/-- The shell prints "A" and then a backspace; another program prints a
backspace right after the shell has seen that the column is 1. -/
def backspaceRace : List Event :=
  [.call 0x41] ++ List.replicate 13 .access ++ [.call 0x08, .access, .access, .sysWrite [0x08]] ++
    List.replicate 12 .access

/-- The "B" goes behind the screen.  The backspaces take the column from 0 to
2^32 - 1, where the blank is written too. -/
theorem races_out_of_range :
    (∃ s', started.run scrollRace = some s' ∧ ¬ WritesInside s'.screen) ∧
      ∃ s', started.run backspaceRace = some s' ∧ s'.code = .done () ∧
        ¬ WritesInside s'.screen ∧ ¬ InRange s'.screen := by
  have behind : ∃ s', started.run scrollRace = some s' ∧ 2000 ∈ s'.screen.written :=
    ⟨_, rfl, by decide⟩
  have column : ∃ s', started.run backspaceRace = some s' ∧ s'.code = .done () ∧
      s'.screen.column = 0xFFFFFFFF ∧ 0xFFFFFFFF ∈ s'.screen.written :=
    ⟨_, rfl, rfl, rfl, by decide⟩
  obtain ⟨scrolled, printed, index⟩ := behind
  obtain ⟨s', taken, idle, column, written⟩ := column
  refine ⟨⟨scrolled, printed, fun inside => absurd (inside _ index) (by decide)⟩,
    s', taken, idle, fun inside => ?_, fun inRange => ?_⟩
  · exact absurd (inside _ written) (by decide)
  · have bound := inRange.column
    rw [column] at bound
    exact absurd bound (by decide)

end OrbitOs.Drivers.Shared
