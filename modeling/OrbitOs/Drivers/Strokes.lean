import OrbitOs.Drivers.ShiftKeys

/-!
# Text as scan codes

What a sequence of scan codes types depends on the shift codes before each of them.  Every
text of the two tables has a sequence that types it, and the handler stores what a
sequence types as long as its buffer has room.
-/

set_option autoImplicit false

namespace OrbitOs.Drivers

open OrbitOs.Machine OrbitOs.Base OrbitOs.Kernel

/-! ## What a sequence types -/

def nextShift (shift : Bool) (code : Byte) : Bool :=
  if IsShiftMake code then true else if IsShiftBreak code then false else shift

def tableOf (shift : Bool) : List Byte := if shift then scancodeAsciiUpper else scancodeAsciiLower

def character (shift : Bool) (code : Byte) : Byte := (tableOf shift).getD code.toNat 0

def meaning (shift : Bool) (code : Byte) : List Byte :=
  if character shift code = 0 then [] else [character shift code]

def decode : Bool → List Byte → List Byte
  | _, [] => []
  | shift, code :: codes => meaning shift code ++ decode (nextShift shift code) codes

def shiftAfter (shift : Bool) (codes : List Byte) : Bool := codes.foldl nextShift shift

theorem decode_append (shift : Bool) (a b : List Byte) :
    decode shift (a ++ b) = decode shift a ++ decode (shiftAfter shift a) b := by
  induction a generalizing shift with
  | nil => rfl
  | cons code a ih => rw [List.cons_append, decode, ih, decode, List.append_assoc]; rfl

theorem shiftAfter_append (shift : Bool) (a b : List Byte) :
    shiftAfter shift (a ++ b) = shiftAfter (shiftAfter shift a) b :=
  List.foldl_append

/-! ## The sequence for a text -/

def codeIn (table : List Byte) (c : Byte) : Byte := BitVec.ofNat 8 (table.idxOf c)

/-- A key is pressed and released, with the left shift key held where it must be. -/
def strokes (c : Byte) : List Byte :=
  if scancodeAsciiLower.contains c then
    [codeIn scancodeAsciiLower c, breakCode (codeIn scancodeAsciiLower c)]
  else
    [ShiftKey.left.make, codeIn scancodeAsciiUpper c, breakCode (codeIn scancodeAsciiUpper c),
      breakCode ShiftKey.left.make]

def Typeable (c : Byte) : Prop := c ≠ 0 ∧ (c ∈ scancodeAsciiLower ∨ c ∈ scancodeAsciiUpper)

/-- A table of make codes without a character for the shift keys. -/
structure Quiet (table : List Byte) : Prop where
  short : table.length ≤ 128
  left : table.getD 0x2A 0 = 0
  right : table.getD 0x36 0 = 0

theorem quiet_lower : Quiet scancodeAsciiLower := ⟨by decide, by decide, by decide⟩

theorem quiet_upper : Quiet scancodeAsciiUpper := ⟨by decide, by decide, by decide⟩

section Table

variable {table : List Byte} (quiet : Quiet table) {c : Byte} (member : c ∈ table)

include quiet member

theorem Quiet.toNat_codeIn : (codeIn table c).toNat = table.idxOf c := by
  have inside := List.idxOf_lt_length_of_mem member
  have short := quiet.short
  rw [codeIn, BitVec.toNat_ofNat, Nat.mod_eq_of_lt (by omega)]

theorem Quiet.getD_codeIn : table.getD (codeIn table c).toNat 0 = c := by
  rw [quiet.toNat_codeIn member, List.getD_eq_getElem _ _ (List.idxOf_lt_length_of_mem member),
    List.getElem_idxOf]

theorem Quiet.codeIn_lt : (codeIn table c).toNat < 128 := by
  have inside := List.idxOf_lt_length_of_mem member
  have short := quiet.short
  rw [quiet.toNat_codeIn member]
  omega

theorem Quiet.not_make (nonzero : c ≠ 0) : ¬ IsShiftMake (codeIn table c) := by
  have own := quiet.getD_codeIn member
  rintro (same | same)
  · rw [same] at own
    exact nonzero (own.symm.trans quiet.left)
  · rw [same] at own
    exact nonzero (own.symm.trans quiet.right)

end Table

theorem break_ge : ∀ code : Byte, 128 ≤ (breakCode code).toNat := by decide

theorem small_not_break : ∀ code : Byte, code.toNat < 128 → ¬ IsShiftBreak code := by decide

theorem break_not_isShiftMake : ∀ code : Byte, ¬ IsShiftMake (breakCode code) := by decide

theorem breakCode_isShiftBreak_iff :
    ∀ code : Byte, code.toNat < 128 → (IsShiftBreak (breakCode code) ↔ IsShiftMake code) := by
  decide

theorem quiet_tableOf (shift : Bool) : Quiet (tableOf shift) := by
  cases shift with
  | false => exact quiet_lower
  | true => exact quiet_upper

/-- A break code types nothing. -/
theorem meaning_break (shift : Bool) (code : Byte) : meaning shift (breakCode code) = [] := by
  have none : character shift (breakCode code) = 0 :=
    List.getD_eq_default _ _ ((quiet_tableOf shift).short.trans (break_ge code))
  rw [meaning, if_pos none]

/-- A key of a table is pressed and released. -/
theorem tap_types (shift : Bool) {c : Byte} (nonzero : c ≠ 0) (member : c ∈ tableOf shift) :
    decode shift [codeIn (tableOf shift) c, breakCode (codeIn (tableOf shift) c)] = [c] ∧
      shiftAfter shift [codeIn (tableOf shift) c, breakCode (codeIn (tableOf shift) c)] =
        shift := by
  have quiet := quiet_tableOf shift
  have own : character shift (codeIn (tableOf shift) c) = c := quiet.getD_codeIn member
  have small := quiet.codeIn_lt member
  have noMake := quiet.not_make member nonzero
  generalize codeIn (tableOf shift) c = code at own small noMake
  have made : nextShift shift code = shift := by
    rw [nextShift, if_neg noMake, if_neg (small_not_break code small)]
  have released : nextShift shift (breakCode code) = shift := by
    rw [nextShift, if_neg (break_not_isShiftMake code),
      if_neg (mt (breakCode_isShiftBreak_iff code small).mp noMake)]
  constructor
  · rw [decode, decode, decode, made, meaning_break, meaning, own, if_neg nonzero]
    rfl
  · rw [shiftAfter, List.foldl_cons, List.foldl_cons, made, released, List.foldl_nil]

/-- Each character starts and ends with no shift key held. -/
theorem strokes_type {c : Byte} (typeable : Typeable c) :
    decode false (strokes c) = [c] ∧ shiftAfter false (strokes c) = false := by
  obtain ⟨nonzero, member⟩ := typeable
  by_cases lower : c ∈ scancodeAsciiLower
  · rw [strokes, if_pos (List.contains_iff_mem.mpr lower)]
    exact tap_types false nonzero lower
  · have upper := member.resolve_left lower
    have types : decode true [codeIn scancodeAsciiUpper c,
        breakCode (codeIn scancodeAsciiUpper c)] = [c] := (tap_types true nonzero upper).1
    have held : shiftAfter true [codeIn scancodeAsciiUpper c,
        breakCode (codeIn scancodeAsciiUpper c)] = true := (tap_types true nonzero upper).2
    have split : strokes c = [ShiftKey.left.make] ++ ([codeIn scancodeAsciiUpper c,
        breakCode (codeIn scancodeAsciiUpper c)] ++ [breakCode ShiftKey.left.make]) := by
      rw [strokes, if_neg (mt List.contains_iff_mem.mp lower)]
      rfl
    have pressed : decode false [ShiftKey.left.make] = [] ∧
        shiftAfter false [ShiftKey.left.make] = true := by decide
    have released : decode true [breakCode ShiftKey.left.make] = [] ∧
        shiftAfter true [breakCode ShiftKey.left.make] = false := by decide
    rw [split, decode_append, decode_append, shiftAfter_append, shiftAfter_append, pressed.1,
      pressed.2, types, held, released.1, released.2]
    exact ⟨rfl, rfl⟩

/-- Typing a text types it. -/
theorem decode_strokes {text : List Byte} (typeable : ∀ c ∈ text, Typeable c) :
    decode false (text.flatMap strokes) = text ∧
      shiftAfter false (text.flatMap strokes) = false := by
  induction text with
  | nil => exact ⟨rfl, rfl⟩
  | cons c text ih =>
      obtain ⟨types, up⟩ := strokes_type (typeable c List.mem_cons_self)
      obtain ⟨typesRest, upRest⟩ := ih fun d member => typeable d (List.mem_cons_of_mem c member)
      rw [List.flatMap_cons, decode_append, shiftAfter_append, up, types, typesRest, upRest]
      exact ⟨rfl, rfl⟩

/-! ## The handler stores what is typed -/

theorem translate_eq_character (k : Keyboard) (code : Byte) :
    k.translate code = character k.shiftPressed code := by
  rw [Keyboard.translate, character]
  by_cases small : code < 128
  · rw [if_pos small, tableOf]
    split_ifs
    · rfl
    · rfl
  · have large : 128 ≤ code.toNat := by
      rw [BitVec.lt_def] at small
      exact Nat.le_of_not_lt small
    rw [if_neg small, List.getD_eq_default _ _ ((quiet_tableOf _).short.trans large)]

theorem callback_nextShift (k : Keyboard) (code : Byte) :
    (k.callback code).shiftPressed = nextShift k.shiftPressed code :=
  Typing.callback_shiftPressed k code

theorem accepts_meaning (k : Keyboard) (code : Byte)
    (room : (k.buffer.head + 1) % keyboardBufferSize ≠ k.buffer.tail) :
    (k.accepts code).toList = meaning k.shiftPressed code := by
  rw [meaning, ← translate_eq_character]
  rcases k.callback_cases code with ⟨translated, _, stored, _⟩ | ⟨nothing, _, full⟩
  · rw [stored, if_neg translated]
    rfl
  · have silent : k.translate code = 0 := by
      by_contra translated
      exact room (full translated)
    rw [nothing, if_pos silent]
    rfl

end OrbitOs.Drivers
