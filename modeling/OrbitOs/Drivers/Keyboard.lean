import OrbitOs.Base.RingBuffer
import OrbitOs.Base.Runs
import OrbitOs.Kernel.CString

/-!
# The keyboard driver of drivers/keyboard.c

The interrupt handler is the producer of the ring buffer, and it runs between
any two steps of the reader.
-/

set_option autoImplicit false

namespace OrbitOs.Drivers

open OrbitOs.Machine OrbitOs.Base OrbitOs.Kernel

/-- `KEYBOARD_BUFFER_SIZE` -/
def keyboardBufferSize : ℕ := 256

/-- US QWERTY, scan code set 1; the entries not listed are 0. -/
def scancodeAsciiLower : List Byte :=
  [0, 27] ++ charsOf "1234567890-=\x08\tqwertyuiop[]\n" ++
    [0] ++ charsOf "asdfghjkl;'`" ++
    [0] ++ charsOf "\\zxcvbnm,./" ++
    [0] ++ charsOf "*" ++
    [0] ++ charsOf " " ++
    [0]

def scancodeAsciiUpper : List Byte :=
  [0, 27] ++ charsOf "!@#$%^&*()_+\x08\tQWERTYUIOP\x7b\x7d\n" ++
    [0] ++ charsOf "ASDFGHJKL:\"~" ++
    [0] ++ charsOf "|ZXCVBNM<>?" ++
    [0] ++ charsOf "*" ++
    [0] ++ charsOf " " ++
    [0]

structure Keyboard where
  buffer : RingBuffer Byte
  shiftPressed : Bool

namespace Keyboard

def translate (s : Keyboard) (scancode : Byte) : Byte :=
  if scancode < 128 then
    if s.shiftPressed then scancodeAsciiUpper.getD scancode.toNat 0
    else scancodeAsciiLower.getD scancode.toNat 0
  else 0

/-- `keyboard_callback` with the byte that `inb` delivers. -/
def callback (s : Keyboard) (scancode : Byte) : Keyboard :=
  if scancode = 0x2A ∨ scancode = 0x36 then { s with shiftPressed := true }
  else if scancode = 0xAA ∨ scancode = 0xB6 then { s with shiftPressed := false }
  else if scancode &&& 0x80 ≠ 0 then s
  else
    let c := s.translate scancode
    if c ≠ 0 then
      let nextHead := (s.buffer.head + 1) % keyboardBufferSize
      if nextHead ≠ s.buffer.tail then { s with buffer := s.buffer.put keyboardBufferSize c }
      else s
    else s

def haskey (s : Keyboard) : Bool := s.buffer.head ≠ s.buffer.tail

/-- The character the handler stores, if it stores one. -/
def accepts (s : Keyboard) (scancode : Byte) : Option Byte :=
  if (s.callback scancode).buffer.head = s.buffer.head then none
  else some ((s.callback scancode).buffer.slots s.buffer.head)

end Keyboard

/-- Where the reader is in `keyboard_getchar`. -/
inductive Getchar
  | outside
  | testing
  | reading
  | advancing (c : Byte)

/-- The driver, its reader, and what was accepted and returned so far. -/
structure Input where
  keyboard : Keyboard
  getchar : Getchar
  accepted : List Byte
  returned : List Byte

namespace Input

inductive Start : Input → Prop
  | boot (slots : ℕ → Byte) : Start ⟨⟨⟨slots, 0, 0⟩, false⟩, .outside, [], []⟩

inductive Step : Input → Input → Prop
  | interrupt {s : Input} (scancode : Byte) :
      Step s { s with
        keyboard := s.keyboard.callback scancode
        accepted := s.accepted ++ (s.keyboard.accepts scancode).toList }
  | call {s : Input} : s.getchar = .outside → Step s { s with getchar := .testing }
  /-- `hlt` and another round. -/
  | wait {s : Input} : s.getchar = .testing → s.keyboard.haskey = false → Step s s
  | found {s : Input} : s.getchar = .testing → s.keyboard.haskey = true →
      Step s { s with getchar := .reading }
  | read {s : Input} : s.getchar = .reading →
      Step s { s with
        getchar := .advancing (s.keyboard.buffer.slots s.keyboard.buffer.tail) }
  | advance {s : Input} (c : Byte) : s.getchar = .advancing c →
      Step s { s with
        keyboard := { s.keyboard with buffer := s.keyboard.buffer.release keyboardBufferSize }
        getchar := .outside
        returned := s.returned ++ [c] }

end Input

/-! ## The handler -/

namespace Keyboard

theorem not_lt_of_release : ∀ scancode : Byte, scancode &&& 0x80 ≠ 0 → ¬ scancode < 128 := by
  decide

/-- The codes the handler returns early for have no character. -/
theorem translate_early (s : Keyboard) {scancode : Byte} (early : scancode = 0x2A ∨
    scancode = 0x36 ∨ scancode = 0xAA ∨ scancode = 0xB6 ∨ scancode &&& 0x80 ≠ 0) :
    s.translate scancode = 0 := by
  unfold translate
  rcases early with rfl | rfl | rfl | rfl | released
  · cases s.shiftPressed <;> rfl
  · cases s.shiftPressed <;> rfl
  · rfl
  · rfl
  · rw [if_neg (not_lt_of_release scancode released)]

/-- The handler puts a character into a buffer that is not full, or leaves the
buffer alone. -/
theorem callback_buffer (s : Keyboard) (scancode : Byte) :
    (s.callback scancode).buffer =
      if s.translate scancode ≠ 0 ∧
        (s.buffer.head + 1) % keyboardBufferSize ≠ s.buffer.tail then
        s.buffer.put keyboardBufferSize (s.translate scancode)
      else s.buffer := by
  by_cases early : scancode = 0x2A ∨ scancode = 0x36 ∨ scancode = 0xAA ∨ scancode = 0xB6 ∨
      scancode &&& 0x80 ≠ 0
  · rw [if_neg (fun both => both.1 (s.translate_early early))]
    unfold callback
    split_ifs
    · rfl
    · rfl
    · rfl
    · tauto
  · have shift : ¬ (scancode = 0x2A ∨ scancode = 0x36) := by tauto
    have unshift : ¬ (scancode = 0xAA ∨ scancode = 0xB6) := by tauto
    have pressed : ¬ scancode &&& 0x80 ≠ 0 := by tauto
    unfold callback
    rw [if_neg shift, if_neg unshift, if_neg pressed]
    dsimp only
    by_cases translated : s.translate scancode ≠ 0
    · by_cases room : (s.buffer.head + 1) % keyboardBufferSize ≠ s.buffer.tail
      · rw [if_pos translated, if_pos room, if_pos ⟨translated, room⟩]
      · rw [if_pos translated, if_neg room, if_neg (fun both => room both.2)]
    · rw [if_neg translated, if_neg (fun both => translated both.1)]

theorem next_ne (head : ℕ) : (head + 1) % keyboardBufferSize ≠ head := by
  unfold keyboardBufferSize
  omega

/-- Either the translated character goes in at the head, or nothing is accepted;
the latter with a character in hand happens at a full buffer only. -/
theorem callback_cases (s : Keyboard) (scancode : Byte) :
    (s.translate scancode ≠ 0 ∧ (s.buffer.head + 1) % keyboardBufferSize ≠ s.buffer.tail ∧
      s.accepts scancode = some (s.translate scancode) ∧
      (s.callback scancode).buffer = s.buffer.put keyboardBufferSize (s.translate scancode)) ∨
    (s.accepts scancode = none ∧ (s.callback scancode).buffer = s.buffer ∧
      (s.translate scancode ≠ 0 →
        (s.buffer.head + 1) % keyboardBufferSize = s.buffer.tail)) := by
  have buffer := s.callback_buffer scancode
  by_cases stores : s.translate scancode ≠ 0 ∧
      (s.buffer.head + 1) % keyboardBufferSize ≠ s.buffer.tail
  · rw [if_pos stores] at buffer
    refine .inl ⟨stores.1, stores.2, ?_, buffer⟩
    unfold accepts
    rw [buffer, RingBuffer.put_head, if_neg (next_ne s.buffer.head), RingBuffer.put_slots_head]
  · rw [if_neg stores] at buffer
    refine .inr ⟨?_, buffer, fun translated => ?_⟩
    · unfold accepts
      rw [buffer, if_pos rfl]
    · by_contra room
      exact stores ⟨translated, room⟩

end Keyboard

/-! ## Runs -/

namespace Input

structure Inv (s : Input) : Prop where
  carries : s.keyboard.buffer.Carries keyboardBufferSize s.accepted s.returned.length
  order : s.returned <+: s.accepted
  reading : s.getchar = .reading → s.returned.length < s.accepted.length
  advancing : ∀ c, s.getchar = .advancing c → s.accepted[s.returned.length]? = some c

theorem Inv.pending {s : Input} (inv : s.Inv) (found : s.keyboard.haskey = true) :
    s.returned.length < s.accepted.length := by
  have differ : s.keyboard.buffer.head ≠ s.keyboard.buffer.tail := by
    simpa [Keyboard.haskey] using found
  have distinct := mt inv.carries.head_eq_tail_iff.mpr differ
  have order := inv.carries.order
  omega

/-- What the handler adds is behind everything the reader looks at. -/
theorem Inv.interrupt {s : Input} (inv : s.Inv) (scancode : Byte) :
    Inv { s with
      keyboard := s.keyboard.callback scancode
      accepted := s.accepted ++ (s.keyboard.accepts scancode).toList } := by
  rcases s.keyboard.callback_cases scancode with ⟨_, room, accepted, buffer⟩ | ⟨accepted, buffer, _⟩
  · rw [accepted]
    exact {
      carries := by
        dsimp only
        rw [buffer]
        exact inv.carries.put room _
      order := inv.order.trans (List.prefix_append _ _)
      reading := by
        intro reading
        have pending := inv.reading reading
        simp only [List.length_append]
        omega
      advancing := by
        intro c advancing
        have next := inv.advancing c advancing
        have bound := (List.getElem?_eq_some_iff.mp next).1
        dsimp only
        rw [List.getElem?_append_left bound]
        exact next }
  · rw [accepted, Option.toList_none, List.append_nil]
    exact { inv with
      carries := by
        dsimp only
        rw [buffer]
        exact inv.carries }

theorem Inv.advance {s : Input} (inv : s.Inv) {c : Byte} (advancing : s.getchar = .advancing c) :
    Inv { s with
      keyboard := { s.keyboard with buffer := s.keyboard.buffer.release keyboardBufferSize }
      getchar := .outside
      returned := s.returned ++ [c] } := by
  have next := inv.advancing c advancing
  have bound := (List.getElem?_eq_some_iff.mp next).1
  exact {
    carries := by
      simp only [List.length_append, List.length_singleton]
      exact inv.carries.release bound
    order := by
      obtain ⟨rest, whole⟩ := inv.order
      rw [← whole, List.getElem?_append_right (Nat.le_refl _), Nat.sub_self] at next
      obtain ⟨later, cons⟩ := List.head?_eq_some_iff.mp (List.head?_eq_getElem? ▸ next)
      exact ⟨later, by rw [← whole, cons, List.append_assoc, List.singleton_append]⟩
    reading := by simp
    advancing := by simp }

theorem Inv.step {s s' : Input} (inv : s.Inv) (taken : Step s s') : s'.Inv := by
  cases taken with
  | interrupt scancode => exact inv.interrupt scancode
  | call outside => exact { inv with reading := by simp, advancing := by simp }
  | wait testing absent => exact inv
  | found testing present =>
      exact { inv with reading := fun _ => inv.pending present, advancing := by simp }
  | read reading =>
      have pending := inv.reading reading
      exact { inv with
        reading := by simp
        advancing := by
          intro c loaded
          have next := List.getElem?_eq_getElem pending
          rw [← Getchar.advancing.inj loaded, inv.carries.read next]
          exact next }
  | advance c advancing => exact inv.advance advancing

theorem Inv.start {s : Input} (start : Start s) : s.Inv := by
  cases start with
  | boot slots =>
      exact {
        carries := RingBuffer.Carries.empty slots (by decide)
        order := List.prefix_rfl
        reading := by simp
        advancing := by simp }

/-- A FIFO that loses a character only with 255 of them waiting. -/
structure Lossless (s : Input) : Prop where
  head_lt : s.keyboard.buffer.head < 256
  tail_lt : s.keyboard.buffer.tail < 256
  order : s.returned <+: s.accepted
  accepts : ∀ scancode c, s.keyboard.accepts scancode = some c →
    c = s.keyboard.translate scancode ∧ c ≠ 0
  discards : ∀ scancode, s.keyboard.translate scancode ≠ 0 →
    s.keyboard.accepts scancode = none → s.accepted.length = s.returned.length + 255
  holds : ∀ k c, s.returned.length ≤ k → s.accepted[k]? = some c →
    s.keyboard.buffer.slots (k % 256) = c
  spares : ∀ scancode k, s.returned.length ≤ k → k < s.accepted.length →
    (s.keyboard.callback scancode).buffer.slots (k % 256) = s.keyboard.buffer.slots (k % 256)

theorem Inv.spares {s : Input} (inv : s.Inv) (scancode : Byte) {k : ℕ}
    (lower : s.returned.length ≤ k) (upper : k < s.accepted.length) :
    (s.keyboard.callback scancode).buffer.slots (k % 256) =
      s.keyboard.buffer.slots (k % 256) := by
  have spared : k % 256 ≠ s.keyboard.buffer.head := inv.carries.head_spares lower upper
  rcases s.keyboard.callback_cases scancode with ⟨_, _, _, buffer⟩ | ⟨_, buffer, _⟩
  · rw [buffer]
    exact RingBuffer.put_slots_of_ne _ _ _ spared
  · rw [buffer]

theorem lossless_of_reach {s : Input} (reached : Reach Start Step s) : s.Lossless := by
  have inv : s.Inv := by
    refine reached.invariant ?_ ?_
    · exact fun _ start => Inv.start start
    · exact fun _ _ inv taken => inv.step taken
  exact {
    head_lt := inv.carries.head_lt
    tail_lt := inv.carries.tail_lt
    order := inv.order
    accepts := by
      intro scancode c accepted
      rcases s.keyboard.callback_cases scancode with ⟨translated, _, stored, _⟩ | ⟨none, _, _⟩
      · rw [accepted] at stored
        rw [Option.some.inj stored]
        exact ⟨rfl, translated⟩
      · rw [accepted] at none
        cases none
    discards := by
      intro scancode translated discarded
      rcases s.keyboard.callback_cases scancode with ⟨_, _, stored, _⟩ | ⟨_, _, full⟩
      · rw [discarded] at stored
        cases stored
      · have waiting := inv.carries.full_iff.mp (full translated)
        unfold keyboardBufferSize at waiting
        omega
    holds := inv.carries.slots
    spares := fun scancode _ => inv.spares scancode }

/-- Two keys are pressed, the second while the reader is between its read and
its tail update. -/
theorem lossless_overlapped :
    (⟨(⟨⟨fun _ => 0, 0, 0⟩, false⟩ : Keyboard).callback 0x1E |>.callback 0x30,
      .advancing 0x61, [0x61, 0x62], []⟩ : Input).Lossless :=
  lossless_of_reach
    (.step (.step (.step (.step (.step (.start (.boot fun _ => 0)) (.interrupt 0x1E)) (.call rfl))
      (.found rfl rfl)) (.read rfl)) (.interrupt 0x30))

end Input

end OrbitOs.Drivers
