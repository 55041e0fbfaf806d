import OrbitOs.Drivers.Keyboard

/-!
# The shift keys and the translation table

The keyboard sends the make or break code of each key action, one byte at a time;
keys behind the prefix E0 may send any byte after it, the shift codes included.
The reader takes characters out of the buffer at any moment.
-/

set_option autoImplicit false

namespace OrbitOs.Drivers

open OrbitOs.Machine OrbitOs.Base

/-! ## The keyboard as a device -/

inductive ShiftKey
  | left | right
  deriving DecidableEq, Repr

def ShiftKey.make : ShiftKey → Byte
  | .left => 0x2A
  | .right => 0x36

def ShiftKey.other : ShiftKey → ShiftKey
  | .left => .right
  | .right => .left

/-- The break code is the make code with the top bit set. -/
def breakCode (code : Byte) : Byte := code ||| 0x80

abbrev IsShiftMake (code : Byte) : Prop := code = 0x2A ∨ code = 0x36
abbrev IsShiftBreak (code : Byte) : Prop := code = 0xAA ∨ code = 0xB6

/-- What a key other than the shift keys sends: plain bytes that are no shift code, and
pairs with the prefix E0. -/
inductive OtherCode : List Byte → Prop
  | nil : OtherCode []
  | plain {b : Byte} {rest : List Byte} : b ≠ 0xE0 → ¬ IsShiftMake b → ¬ IsShiftBreak b →
      OtherCode rest → OtherCode (b :: rest)
  | extended {b : Byte} {rest : List Byte} : OtherCode rest → OtherCode (0xE0 :: b :: rest)

inductive KeyAction
  | press (k : ShiftKey)
  /-- Auto-repeat of a key that is held down. -/
  | again (k : ShiftKey)
  | release (k : ShiftKey)
  /-- A press, an auto-repeat or a release of any other key. -/
  | other (code : List Byte)

def KeyAction.code : KeyAction → List Byte
  | .press k => [k.make]
  | .again k => [k.make]
  | .release k => [breakCode k.make]
  | .other code => code

/-- The keyboard driver, the shift keys that are held down, and the bytes of the last key
action that have not been delivered yet. -/
structure Typing where
  keyboard : Keyboard
  held : ShiftKey → Bool
  pending : List Byte

namespace Typing

def shiftHeld (s : Typing) : Bool := s.held .left || s.held .right

/-- A key goes down only if it is up, and repeats or goes up only if it is down. -/
def Possible (s : Typing) : KeyAction → Prop
  | .press k => s.held k = false
  | .again k => s.held k = true
  | .release k => s.held k = true
  | .other code => OtherCode code

def heldAfter (s : Typing) : KeyAction → ShiftKey → Bool
  | .press k => Function.update s.held k true
  | .again _ => s.held
  | .release k => Function.update s.held k false
  | .other _ => s.held

inductive Start : Typing → Prop
  | boot (slots : ℕ → Byte) : Start ⟨⟨⟨slots, 0, 0⟩, false⟩, fun _ => false, []⟩

inductive Step : Typing → Typing → Prop
  | key {s : Typing} (a : KeyAction) : s.pending = [] → s.Possible a →
      Step s { s with held := s.heldAfter a, pending := a.code }
  /-- The interrupt for the next byte. -/
  | deliver {s : Typing} (b : Byte) (rest : List Byte) : s.pending = b :: rest →
      Step s { s with keyboard := s.keyboard.callback b, pending := rest }
  /-- `keyboard_getchar` takes a character. -/
  | getchar {s : Typing} : s.keyboard.haskey = true →
      Step s { s with keyboard :=
        { s.keyboard with buffer := s.keyboard.buffer.release keyboardBufferSize } }

/-- The next byte is a make code of a shift key only while a shift key is held, and a break
code only while none is. -/
def Faithful (s : Typing) : Prop :=
  ∀ b rest, s.pending = b :: rest →
    (IsShiftMake b → s.shiftHeld = true) ∧ (IsShiftBreak b → s.shiftHeld = false)

/-- A step from a state that is faithful. -/
def FaithfulStep (s s' : Typing) : Prop := s.Faithful ∧ Step s s'

/-! ## The flag of the driver -/

theorem callback_shiftPressed (k : Keyboard) (b : Byte) :
    (k.callback b).shiftPressed =
      if IsShiftMake b then true else if IsShiftBreak b then false else k.shiftPressed := by
  unfold Keyboard.callback
  by_cases make : IsShiftMake b
  · rw [if_pos make, if_pos make]
  · rw [if_neg make, if_neg make]
    by_cases release : IsShiftBreak b
    · rw [if_pos release, if_pos release]
    · rw [if_neg release, if_neg release]
      split_ifs
      · rfl
      · dsimp only
        split_ifs
        · rfl
        · rfl
        · rfl

theorem make_isShiftMake (k : ShiftKey) : IsShiftMake k.make := by
  cases k with
  | left => exact Or.inl rfl
  | right => exact Or.inr rfl

theorem breakCode_isShiftBreak (k : ShiftKey) : IsShiftBreak (breakCode k.make) := by
  cases k with
  | left => exact Or.inl rfl
  | right => exact Or.inr rfl

theorem shiftHeld_iff (s : Typing) : s.shiftHeld = true ↔ ∃ k, s.held k = true := by
  unfold shiftHeld
  rw [Bool.or_eq_true]
  constructor
  · rintro (left | right)
    · exact ⟨.left, left⟩
    · exact ⟨.right, right⟩
  · rintro ⟨k, held⟩
    cases k with
    | left => exact Or.inl held
    | right => exact Or.inr held

/-! ## What a faithful run excludes -/

theorem make_not_break (k : ShiftKey) : ¬ IsShiftBreak k.make := by
  cases k with
  | left => decide
  | right => decide

theorem break_not_make (k : ShiftKey) : ¬ IsShiftMake (breakCode k.make) := by
  cases k with
  | left => decide
  | right => decide

/-- A press or a repeat of a shift key agrees with the keys. -/
theorem faithful_make {s : Typing} {k : ShiftKey} (sent : s.pending = [k.make])
    (held : s.held k = true) : s.Faithful := by
  intro b rest next
  obtain ⟨rfl, _⟩ := List.cons.inj (sent.symm.trans next)
  exact ⟨fun _ => (shiftHeld_iff s).mpr ⟨k, held⟩,
    fun release => absurd release (make_not_break k)⟩

/-- A release agrees exactly if the other shift key is up. -/
theorem faithful_release_iff {s : Typing} {k : ShiftKey} (sent : s.pending = [breakCode k.make])
    (up : s.held k = false) : s.Faithful ↔ s.held k.other = false := by
  have left : s.shiftHeld = s.held k.other := by
    unfold shiftHeld
    cases k with
    | left => rw [up, Bool.false_or, ShiftKey.other]
    | right => rw [up, Bool.or_false, ShiftKey.other]
  rw [← left]
  constructor
  · intro faithful
    exact (faithful _ [] sent).2 (breakCode_isShiftBreak k)
  · intro none b rest next
    obtain ⟨rfl, _⟩ := List.cons.inj (sent.symm.trans next)
    exact ⟨fun make => absurd make (break_not_make k), fun _ => none⟩

/-- So does every byte of another key that is no shift code. -/
theorem faithful_other (s : Typing) {b : Byte} {rest : List Byte} (next : s.pending = b :: rest)
    (noMake : ¬ IsShiftMake b) (noBreak : ¬ IsShiftBreak b) : s.Faithful := by
  intro c later same
  obtain ⟨rfl, _⟩ := List.cons.inj (next.symm.trans same)
  exact ⟨fun make => absurd make noMake, fun release => absurd release noBreak⟩

theorem faithful_idle (s : Typing) (idle : s.pending = []) : s.Faithful := by
  intro b rest next
  exact absurd (idle.symm.trans next) (List.cons_ne_nil _ _).symm

/-! ## Runs -/

/-- The flag agrees with the keys, or the code of a shift key is on its way. -/
def Inv (s : Typing) : Prop :=
  s.keyboard.shiftPressed = s.shiftHeld ∨
    ∃ k : ShiftKey, s.pending = [k.make] ∨ s.pending = [breakCode k.make]

theorem Inv.idle {s : Typing} (inv : s.Inv) (idle : s.pending = []) :
    s.keyboard.shiftPressed = s.shiftHeld := by
  rcases inv with agree | ⟨k, make | release⟩
  · exact agree
  · exact absurd (idle.symm.trans make) (List.cons_ne_nil _ _).symm
  · exact absurd (idle.symm.trans release) (List.cons_ne_nil _ _).symm

/-- Whatever is delivered, the flag agrees with the keys afterwards. -/
theorem Inv.deliver {s : Typing} (inv : s.Inv) (faithful : s.Faithful) {b : Byte}
    {rest : List Byte} (next : s.pending = b :: rest) :
    (s.keyboard.callback b).shiftPressed = s.shiftHeld := by
  obtain ⟨making, breaking⟩ := faithful b rest next
  rw [callback_shiftPressed]
  by_cases make : IsShiftMake b
  · rw [if_pos make, making make]
  · rw [if_neg make]
    by_cases release : IsShiftBreak b
    · rw [if_pos release, breaking release]
    · rw [if_neg release]
      rcases inv with agree | ⟨k, only | only⟩
      · exact agree
      · obtain ⟨rfl, _⟩ := List.cons.inj (next.symm.trans only)
        exact absurd (make_isShiftMake k) make
      · obtain ⟨rfl, _⟩ := List.cons.inj (next.symm.trans only)
        exact absurd (breakCode_isShiftBreak k) release

theorem Inv.step {s s' : Typing} (inv : s.Inv) (taken : FaithfulStep s s') : s'.Inv := by
  obtain ⟨faithful, taken⟩ := taken
  cases taken with
  | key a idle possible =>
      have agree := inv.idle idle
      cases a with
      | press k => exact Or.inr ⟨k, Or.inl rfl⟩
      | again k => exact Or.inr ⟨k, Or.inl rfl⟩
      | release k => exact Or.inr ⟨k, Or.inr rfl⟩
      | other code => exact Or.inl agree
  | deliver b rest next => exact Or.inl (inv.deliver faithful next)
  | getchar waiting => exact inv

theorem Inv.start {s : Typing} (start : Start s) : s.Inv := by
  cases start with
  | boot slots => exact Or.inl rfl

/-- In a run in which every shift code agrees with the keys, a character that is accepted
comes from the upper table exactly while a shift key is held. -/
theorem table_follows_shift {s : Typing} (reached : Reach Start FaithfulStep s) {b c : Byte}
    {rest : List Byte} (next : s.pending = b :: rest)
    (accepted : s.keyboard.accepts b = some c) :
    (s.keyboard.shiftPressed = true ↔ ∃ k, s.held k = true) ∧
      c = (if s.shiftHeld then scancodeAsciiUpper else scancodeAsciiLower).getD b.toNat 0 := by
  have inv : s.Inv := by
    refine reached.invariant ?_ ?_
    · exact fun _ start => Inv.start start
    · exact fun _ _ inv taken => inv.step taken
  rcases s.keyboard.callback_cases b with ⟨translated, _, stored, _⟩ | ⟨none, _, _⟩
  · have agree : s.keyboard.shiftPressed = s.shiftHeld := by
      rcases inv with agree | ⟨k, only | only⟩
      · exact agree
      · obtain ⟨rfl, _⟩ := List.cons.inj (next.symm.trans only)
        refine absurd (s.keyboard.translate_early ?_) translated
        rcases make_isShiftMake k with left | right
        · exact Or.inl left
        · exact Or.inr (Or.inl right)
      · obtain ⟨rfl, _⟩ := List.cons.inj (next.symm.trans only)
        refine absurd (s.keyboard.translate_early ?_) translated
        rcases breakCode_isShiftBreak k with left | right
        · exact Or.inr (Or.inr (Or.inl left))
        · exact Or.inr (Or.inr (Or.inr (Or.inl right)))
    have character : c = s.keyboard.translate b := Option.some.inj (accepted.symm.trans stored)
    refine ⟨by rw [agree, shiftHeld_iff], ?_⟩
    have small : b < 128 := by
      by_contra large
      exact translated (if_neg large)
    rw [character, Keyboard.translate, if_pos small, agree]
    cases s.shiftHeld with
    | true => rfl
    | false => rfl
  · rw [accepted] at none
    exact absurd none (Option.some_ne_none c)

/-- The left shift key and then A. -/
theorem table_follows_shift_capitalA :
    ∃ s : Typing, s.pending = [0x1E] ∧ s.keyboard.accepts 0x1E = some 0x41 ∧
      (s.keyboard.shiftPressed = true ↔ ∃ k, s.held k = true) ∧
      0x41 = (if s.shiftHeld then scancodeAsciiUpper else scancodeAsciiLower).getD
        (0x1E : Byte).toNat 0 := by
  have boot := @Reach.start _ Start FaithfulStep _ (.boot fun _ => 0)
  have pressed := boot.step ⟨faithful_idle _ rfl, .key (.press .left) rfl rfl⟩
  have delivered := pressed.step ⟨faithful_make (k := .left) rfl rfl, .deliver 0x2A [] rfl⟩
  have letter := delivered.step ⟨faithful_idle _ rfl, .key (.other [0x1E]) rfl
    (.plain (by decide) (by decide) (by decide) .nil)⟩
  exact ⟨_, rfl, by decide, table_follows_shift letter rfl (by decide)⟩

/-- Both shift keys are pressed and the right one is released; then A gives a small letter. -/
theorem small_letter_with_shift_held :
    ∃ s, Reach Start Step s ∧ s.pending = [0x1E] ∧ s.held .left = true ∧
      s.keyboard.accepts 0x1E = some 0x61 ∧ s.keyboard.shiftPressed = false ∧
      scancodeAsciiLower.getD (0x1E : Byte).toNat 0 = 0x61 ∧
      scancodeAsciiUpper.getD (0x1E : Byte).toNat 0 = 0x41 := by
  have boot := @Reach.start _ Start Step _ (.boot fun _ => 0)
  have left := (boot.step (.key (.press .left) rfl rfl)).step (.deliver 0x2A [] rfl)
  have both := (left.step (.key (.press .right) rfl rfl)).step (.deliver 0x36 [] rfl)
  have one := (both.step (.key (.release .right) rfl rfl)).step (.deliver 0xB6 [] rfl)
  have letter := one.step (.key (.other [0x1E]) rfl
    (.plain (by decide) (by decide) (by decide) .nil))
  exact ⟨_, letter, rfl, rfl, by decide, rfl, by decide, by decide⟩

end Typing

end OrbitOs.Drivers
