import Mathlib.Data.List.DropRight
import OrbitOs.Drivers.Terminal
import OrbitOs.Kernel.CString

/-!
# The line editor of shell/shell.c

The loop of `shell_run`, one character of `keyboard_getchar` at a time.  What
`execute_command` prints is left open.
-/

set_option autoImplicit false

namespace OrbitOs.Shell

open OrbitOs.Machine OrbitOs.Kernel OrbitOs.Drivers

/-- `CMD_BUFFER_SIZE` -/
def cmdBufferSize : ℤ := 256

structure LineEditor where
  cmdBuffer : Chars
  cmdLength : ℤ
  terminal : Terminal

def promptText : List Byte := charsOf "Orbit> "

def shellPrompt (t : Terminal) : Terminal :=
  ((t.setcolor (vgaEntryColor .lightGreen .black)).write promptText).setcolor
    (vgaEntryColor .white .black)

namespace LineEditor

/-- One round of the loop; `char` is signed. -/
def key (executeCommand : Chars → Terminal → Terminal) (s : LineEditor) (c : Byte) : LineEditor :=
  if c = 0x0A then
    let terminal := s.terminal.putchar 0x0A
    let cmdBuffer := Function.update s.cmdBuffer s.cmdLength.toNat 0
    ⟨cmdBuffer, 0, shellPrompt (executeCommand cmdBuffer terminal)⟩
  else if c = 0x08 then
    if s.cmdLength > 0 then
      { s with cmdLength := s.cmdLength - 1, terminal := s.terminal.putchar 0x08 }
    else s
  else if 32 ≤ c.toInt ∧ c.toInt ≤ 126 then
    if s.cmdLength < cmdBufferSize - 1 then
      { cmdBuffer := Function.update s.cmdBuffer s.cmdLength.toNat c
        cmdLength := s.cmdLength + 1
        terminal := s.terminal.putchar c }
    else s
  else s

/-- The shell at a prompt, after the output `t` and with anything in the buffer. -/
def prompted (cmdBuffer : Chars) (t : Terminal) : LineEditor := ⟨cmdBuffer, 0, shellPrompt t⟩

def run (executeCommand : Chars → Terminal → Terminal) (s : LineEditor) (keys : List Byte) :
    LineEditor :=
  keys.foldl (key executeCommand) s

end LineEditor

/-! ## The line being edited -/

def Printable (c : Byte) : Prop := 32 ≤ c.toNat ∧ c.toNat ≤ 126

instance (c : Byte) : Decidable (Printable c) := inferInstanceAs (Decidable (_ ∧ _))

/-- What one key does to the text of a line. -/
def edit (text : List Byte) (c : Byte) : List Byte :=
  if c = 0x08 then text.dropLast
  else if Printable c ∧ text.length < 255 then text ++ [c]
  else text

/-- The text after the last newline among the keys. -/
def typed (keys : List Byte) : List Byte := (keys.rtakeWhile (· ≠ 0x0A)).foldl edit []

@[simp] theorem typed_nil : typed [] = [] := rfl

theorem typed_newline (keys : List Byte) : typed (keys ++ [0x0A]) = [] := by
  unfold typed
  rw [List.rtakeWhile_concat_neg _ _ _ (by simp), List.foldl_nil]

theorem typed_key (keys : List Byte) {c : Byte} (other : c ≠ 0x0A) :
    typed (keys ++ [c]) = edit (typed keys) c := by
  unfold typed
  rw [List.rtakeWhile_concat_pos _ _ _ (by simpa using other), List.foldl_concat]

theorem printable_iff (c : Byte) : (32 ≤ c.toInt ∧ c.toInt ≤ 126) ↔ Printable c := by
  have bound := c.isLt
  unfold Printable
  rw [BitVec.toInt_eq_toNat_cond]
  split_ifs <;> omega

theorem Printable.drawn {c : Byte} (printable : Printable c) : Terminal.Drawn c := by
  unfold Printable at printable
  constructor
  · rintro rfl
    simp at printable
  · rintro rfl
    simp at printable

theorem Printable.ne_zero {c : Byte} (printable : Printable c) : c ≠ 0 := by
  unfold Printable at printable
  rintro rfl
  simp at printable

/-- Buffer and screen hold the same text. -/
structure Agrees (s : LineEditor) (text : List Byte) : Prop where
  length : s.cmdLength = text.length
  small : text.length ≤ 255
  printable : ∀ c ∈ text, Printable c
  buffer : ∀ i (bound : i < text.length), s.cmdBuffer i = text[i]
  screen : s.terminal.Shows (promptText ++ text)

theorem promptText_drawn : ∀ c ∈ promptText, Terminal.Drawn c := by decide

theorem shellPrompt_shows (t : Terminal) : (shellPrompt t).Shows promptText := by
  have shows := (Terminal.Shows.nil (t.setcolor (vgaEntryColor .lightGreen .black))).write
    promptText_drawn (by decide)
  exact shows.setcolor _

theorem Agrees.prompted (cmdBuffer : Chars) (t : Terminal) :
    Agrees (LineEditor.prompted cmdBuffer t) [] where
  length := rfl
  small := by simp
  printable := by simp
  buffer := by simp
  screen := by
    rw [List.append_nil]
    exact shellPrompt_shows t

section

variable {s : LineEditor} {text : List Byte} (agrees : Agrees s text)

include agrees

theorem Agrees.append {c : Byte} (printable : Printable c) (room : text.length < 255) :
    Agrees
      { cmdBuffer := Function.update s.cmdBuffer s.cmdLength.toNat c
        cmdLength := s.cmdLength + 1
        terminal := s.terminal.putchar c } (text ++ [c]) where
  length := by
    rw [agrees.length]
    simp
  small := by
    rw [List.length_append, List.length_singleton]
    omega
  printable := by
    intro d member
    rcases List.mem_append.mp member with old | new
    · exact agrees.printable d old
    · rw [List.mem_singleton.mp new]
      exact printable
  buffer := by
    intro i bound
    rw [List.length_append, List.length_singleton] at bound
    dsimp only
    rw [agrees.length, Int.toNat_natCast]
    by_cases old : i < text.length
    · rw [Function.update_of_ne (by omega), List.getElem_append_left old]
      exact agrees.buffer i old
    · have last : i = text.length := by omega
      subst last
      rw [Function.update_self]
      simp
  screen := by
    have promptLength : promptText.length = 7 := by decide
    rw [← List.append_assoc]
    apply agrees.screen.append printable.drawn
    rw [List.length_append]
    omega

theorem Agrees.erase (some : 0 < text.length) :
    Agrees { s with cmdLength := s.cmdLength - 1, terminal := s.terminal.putchar 0x08 }
      text.dropLast where
  length := by
    dsimp only
    rw [agrees.length, List.length_dropLast]
    omega
  small := by
    have small := agrees.small
    rw [List.length_dropLast]
    omega
  printable := fun c member => agrees.printable c (List.mem_of_mem_dropLast member)
  buffer := by
    intro i bound
    rw [List.length_dropLast] at bound
    rw [List.getElem_dropLast]
    exact agrees.buffer i (by omega)
  screen := by
    have nonempty : text ≠ [] := List.length_pos_iff.mp some
    have whole := List.dropLast_append_getLast nonempty
    have shows := agrees.screen
    rw [← whole, ← List.append_assoc] at shows
    exact shows.erase

theorem Agrees.key (executeCommand : Chars → Terminal → Terminal) {c : Byte} (other : c ≠ 0x0A) :
    Agrees (s.key executeCommand c) (edit text c) := by
  unfold LineEditor.key edit
  rw [if_neg other]
  by_cases backspace : c = 0x08
  · rw [if_pos backspace, if_pos backspace]
    by_cases some : s.cmdLength > 0
    · rw [if_pos some]
      rw [agrees.length] at some
      exact agrees.erase (by omega)
    · rw [if_neg some]
      rw [agrees.length] at some
      have empty : text = [] := List.length_eq_zero_iff.mp (by omega)
      rw [empty, List.dropLast_nil, ← empty]
      exact agrees
  · rw [if_neg backspace, if_neg backspace]
    by_cases printable : Printable c
    · rw [if_pos ((printable_iff c).mpr printable)]
      have sameLimit : s.cmdLength < cmdBufferSize - 1 ↔ text.length < 255 := by
        rw [agrees.length]
        unfold cmdBufferSize
        omega
      by_cases room : text.length < 255
      · rw [if_pos (sameLimit.mpr room), if_pos ⟨printable, room⟩]
        exact agrees.append printable room
      · rw [if_neg (mt sameLimit.mp room), if_neg (fun both => room both.2)]
        exact agrees
    · rw [if_neg (mt (printable_iff c).mp printable), if_neg (fun both => printable both.1)]
      exact agrees

/-- The argument that a newline passes on. -/
theorem Agrees.argument : Holds (Function.update s.cmdBuffer s.cmdLength.toNat 0) text := by
  constructor
  · intro zero
    exact (agrees.printable 0 zero).ne_zero rfl
  · intro i bound
    rw [agrees.length, Int.toNat_natCast]
    by_cases inside : i < text.length
    · rw [Function.update_of_ne (by omega), List.getD_eq_getElem _ _ inside]
      exact agrees.buffer i inside
    · have last : i = text.length := by omega
      rw [last, Function.update_self, List.getD_eq_default _ _ (Nat.le_refl _)]

end

theorem agrees_run (executeCommand : Chars → Terminal → Terminal) (cmdBuffer : Chars)
    (t : Terminal) (keys : List Byte) :
    Agrees ((LineEditor.prompted cmdBuffer t).run executeCommand keys) (typed keys) := by
  induction keys using List.reverseRecOn with
  | nil => exact Agrees.prompted cmdBuffer t
  | append_singleton keys c ih =>
      unfold LineEditor.run at *
      rw [List.foldl_concat]
      by_cases newline : c = 0x0A
      · rw [newline, typed_newline]
        exact Agrees.prompted _ _
      · rw [typed_key keys newline]
        exact ih.key executeCommand newline

/-- What the user sees and what the shell holds before the newline, and what
the newline passes on. -/
structure Edits (executeCommand : Chars → Terminal → Terminal) (s : LineEditor)
    (text : List Byte) : Prop where
  nonnegative : 0 ≤ s.cmdLength
  bounded : s.cmdLength ≤ 255
  buffer : (List.range s.cmdLength.toNat).map s.cmdBuffer = text
  onScreen : (promptText ++ text).length ≤ s.terminal.position
  screen : s.terminal.before (promptText ++ text).length = promptText ++ text
  newline : ∃ cmd, Holds cmd text ∧
    s.key executeCommand 0x0A =
      ⟨cmd, 0, shellPrompt (executeCommand cmd (s.terminal.putchar 0x0A))⟩

theorem lineEditor_edits (executeCommand : Chars → Terminal → Terminal) (cmdBuffer : Chars)
    (t : Terminal) (keys : List Byte) :
    Edits executeCommand ((LineEditor.prompted cmdBuffer t).run executeCommand keys)
      (typed keys) := by
  have agrees := agrees_run executeCommand cmdBuffer t keys
  generalize (LineEditor.prompted cmdBuffer t).run executeCommand keys = s at agrees
  have length := agrees.length
  have small := agrees.small
  exact {
    nonnegative := by omega
    bounded := by omega
    buffer := by
      rw [length, Int.toNat_natCast]
      apply List.ext_getElem (by simp)
      intro i _ bound
      simpa using agrees.buffer i bound
    onScreen := agrees.screen.fits
    screen := agrees.screen.cells
    newline := ⟨_, agrees.argument, rfl⟩ }

end OrbitOs.Shell
