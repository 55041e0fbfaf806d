import OrbitOs.Base.Readings
import OrbitOs.Shell.Answers
import OrbitOs.Shell.Reports

/-!
# The list of `lspci`

The text has two lines of headings and then a line for each row of the table.  Reading the
numbers of a line gives the row back.
-/

set_option autoImplicit false

namespace OrbitOs.Shell

open OrbitOs.Machine OrbitOs.Base OrbitOs.Kernel OrbitOs.Drivers

/-! ## Reading the text -/

def rowSeparator (c : Byte) : Bool := c == 0x20 || c == 0x3A

/-- The number of a run of hexadecimal digits. -/
def hexNumber (run : List Byte) : Option ℕ :=
  if run = [] then none
  else run.foldlM (fun v c => (hexDigitValue c).map fun d => 16 * v + d.toNat) 0

def readRow (line : List Byte) : Option Row :=
  match readings rowSeparator hexNumber line with
  | [bus, slot, func, vendorId, deviceId, classId, subclassId] =>
    some ⟨bus, slot, func, BitVec.ofNat 16 vendorId, BitVec.ofNat 16 deviceId,
      BitVec.ofNat 8 classId, BitVec.ofNat 8 subclassId⟩
  | _ => none

/-- The rows behind the headings. -/
def readTable (text : List Byte) : List (Option Row) :=
  (((text.splitOn 0x0A).drop 2).dropLast).map readRow

/-! ## Numbers in hexadecimal digits -/

theorem hexDigit_mod (num : Word) :
    hexDigit num = (charsOf "0123456789ABCDEF").getD (num.toNat % 16) 0 := by
  have low : (num &&& 0x0F).toNat = num.toNat % 16 := by
    rw [BitVec.toNat_and]
    exact Nat.and_two_pow_sub_one_eq_mod num.toNat 4
  rw [hexDigit, low]

theorem digit_read : ∀ d < 16, hexDigitValue ((charsOf "0123456789ABCDEF").getD d 0) =
    some (BitVec.ofNat 8 d) := by decide

theorem digit_inside : ∀ d < 16, rowSeparator ((charsOf "0123456789ABCDEF").getD d 0) = false ∧
    (charsOf "0123456789ABCDEF").getD d 0 ≠ 0x0A := by decide

theorem foldlM_hexChars (num : Word) (digits v : ℕ) :
    (hexChars num digits).foldlM
        (fun v c => (hexDigitValue c).map fun d => 16 * v + d.toNat) v =
      some (v * 16 ^ digits + num.toNat % 16 ^ digits) := by
  induction digits generalizing num with
  | zero => simp [hexChars, Nat.mod_one]
  | succ digits ih =>
      have small : num.toNat % 16 < 16 := Nat.mod_lt _ (by omega)
      have shifted : (num >>> 4).toNat = num.toNat / 16 := by
        rw [BitVec.toNat_ushiftRight, Nat.shiftRight_eq_div_pow]
      have value : (BitVec.ofNat 8 (num.toNat % 16)).toNat = num.toNat % 16 := by
        rw [BitVec.toNat_ofNat]
        omega
      have split : num.toNat % 16 ^ (digits + 1) =
          num.toNat % 16 + 16 * (num.toNat / 16 % 16 ^ digits) := by
        rw [pow_succ', Nat.mod_mul]
      rw [hexChars, List.foldlM_append, ih, shifted, Option.bind_eq_bind, Option.bind_some,
        List.foldlM_cons, hexDigit_mod, digit_read _ small, Option.map_some, value,
        Option.bind_eq_bind, Option.bind_some, List.foldlM_nil, split, pow_succ]
      congr 1
      ring

/-- A number printed with enough digits. -/
structure Prints (run : List Byte) (n : ℕ) : Prop where
  inside : ∀ c ∈ run, rowSeparator c = false
  noNewline : 0x0A ∉ run
  value : hexNumber run = some n

theorem mem_hexChars {num : Word} {digits : ℕ} {c : Byte} (member : c ∈ hexChars num digits) :
    rowSeparator c = false ∧ c ≠ 0x0A := by
  induction digits generalizing num with
  | zero => exact absurd member List.not_mem_nil
  | succ digits ih =>
      rcases List.mem_append.mp member with before | last
      · exact ih before
      · rw [List.mem_singleton.mp last, hexDigit_mod]
        exact digit_inside _ (Nat.mod_lt _ (by omega))

theorem hexChars_prints {num : Word} {digits n : ℕ} (same : num.toNat = n) (some : 0 < digits)
    (enough : n < 16 ^ digits) : Prints (hexChars num digits) n where
  inside := fun _ member => (mem_hexChars member).1
  noNewline := fun member => (mem_hexChars member).2 rfl
  value := by
    obtain ⟨digits, rfl⟩ := Nat.exists_eq_succ_of_ne_zero (Nat.ne_of_gt some)
    have nonempty : hexChars num (digits + 1) ≠ [] :=
      List.append_ne_nil_of_right_ne_nil _ (List.cons_ne_nil _ _)
    rw [hexNumber, if_neg nonempty, foldlM_hexChars, same, Nat.zero_mul, Nat.zero_add,
      Nat.mod_eq_of_lt enough]

/-! ## A row -/

/-- The row stands for a function that the bus can have. -/
def RowInRange (r : Row) : Prop := r.bus < 256 ∧ r.slot < 32 ∧ r.func < 8

theorem mem_funcRows {space : ConfigSpace} {bus slot left func : ℕ} (bound : func + left ≤ 8)
    {r : Row} (member : r ∈ funcRows space bus slot left func) :
    r.bus = bus ∧ r.slot = slot ∧ r.func < 8 := by
  induction left generalizing func with
  | zero => exact absurd member List.not_mem_nil
  | succ left ih =>
      have here : rowAt space bus slot func = r → r.bus = bus ∧ r.slot = slot ∧ r.func < 8 := by
        rintro rfl
        exact ⟨rfl, rfl, by dsimp only [rowAt]; omega⟩
      rw [funcRows_succ] at member
      split_ifs at member
      · exact here (List.mem_singleton.mp member).symm
      · rcases List.mem_cons.mp member with first | later
        · exact here first.symm
        · exact ih (by omega) later
      · exact ih (by omega) member

theorem table_inRange {space : ConfigSpace} {r : Row} (member : r ∈ table space) :
    RowInRange r := by
  rw [table_eq_flatMap] at member
  obtain ⟨bus, busBound, inBus⟩ := List.mem_flatMap.mp member
  obtain ⟨slot, slotBound, inSlot⟩ := List.mem_flatMap.mp inBus
  obtain ⟨sameBus, sameSlot, func⟩ := mem_funcRows (Nat.le_refl 8) inSlot
  rw [List.mem_range] at busBound slotBound
  exact ⟨sameBus ▸ busBound, sameSlot ▸ slotBound, func⟩

/-- The line of a row without the newline. -/
def rowLine (r : Row) : List Byte :=
  hexChars (BitVec.ofNat 32 r.bus) 2 ++ (charsOf "   " ++
    (hexChars (BitVec.ofNat 32 r.slot) 2 ++ (charsOf "   " ++
    (hexChars (BitVec.ofNat 32 r.func) 1 ++ (charsOf "    " ++
    (hexChars (r.vendorId.setWidth 32) 4 ++ (charsOf "     " ++
    (hexChars (r.deviceId.setWidth 32) 4 ++ (charsOf "     " ++
    (hexChars (r.classId.setWidth 32) 2 ++ (charsOf ":" ++
    hexChars (r.subclassId.setWidth 32) 2)))))))))))

theorem rowText_eq (r : Row) : rowText r = rowLine r ++ [0x0A] := by
  have newline : charsOf "\n" = [0x0A] := rfl
  simp only [rowText, rowLine, newline, List.append_assoc]

theorem number_prints {n digits : ℕ} (small : n < 256) (some : 0 < digits)
    (fits : n < 16 ^ digits) : Prints (hexChars (BitVec.ofNat 32 n) digits) n := by
  refine hexChars_prints ?_ some fits
  rw [BitVec.toNat_ofNat]
  omega

section Fields

variable {r : Row} (inRange : RowInRange r)

include inRange

theorem bus_prints : Prints (hexChars (BitVec.ofNat 32 r.bus) 2) r.bus :=
  number_prints inRange.1 (by omega) inRange.1

theorem slot_prints : Prints (hexChars (BitVec.ofNat 32 r.slot) 2) r.slot :=
  have small : r.slot < 256 := inRange.2.1.trans (by decide)
  number_prints small (by omega) small

theorem func_prints : Prints (hexChars (BitVec.ofNat 32 r.func) 1) r.func :=
  number_prints (inRange.2.2.trans (by decide)) (by omega) (inRange.2.2.trans (by decide))

end Fields

theorem field_prints {width digits : ℕ} (v : BitVec width) (wide : width ≤ 32) (some : 0 < digits)
    (fits : 2 ^ width ≤ 16 ^ digits) : Prints (hexChars (v.setWidth 32) digits) v.toNat :=
  hexChars_prints (BitVec.toNat_setWidth_of_le wide) some (Nat.lt_of_lt_of_le v.isLt fits)

theorem readRow_rowLine {r : Row} (inRange : RowInRange r) : readRow (rowLine r) = some r := by
  have bus := bus_prints inRange
  have slot := slot_prints inRange
  have func := func_prints inRange
  have vendor : Prints (hexChars (r.vendorId.setWidth 32) 4) r.vendorId.toNat :=
    field_prints _ (by omega) (by omega) (by omega)
  have device : Prints (hexChars (r.deviceId.setWidth 32) 4) r.deviceId.toNat :=
    field_prints _ (by omega) (by omega) (by omega)
  have cls : Prints (hexChars (r.classId.setWidth 32) 2) r.classId.toNat :=
    field_prints _ (by omega) (by omega) (by omega)
  have sub : Prints (hexChars (r.subclassId.setWidth 32) 2) r.subclassId.toNat :=
    field_prints _ (by omega) (by omega) (by omega)
  have empty : hexNumber [] = none := if_pos rfl
  have cells : readings rowSeparator hexNumber (rowLine r) =
      [r.bus, r.slot, r.func, r.vendorId.toNat, r.deviceId.toNat, r.classId.toNat,
        r.subclassId.toNat] := by
    rw [rowLine, readings_field empty bus.inside bus.value (by decide) (by decide),
      readings_field empty slot.inside slot.value (by decide) (by decide),
      readings_field empty func.inside func.value (by decide) (by decide),
      readings_field empty vendor.inside vendor.value (by decide) (by decide),
      readings_field empty device.inside device.value (by decide) (by decide),
      readings_field empty cls.inside cls.value (by decide) (by decide),
      readings_last sub.inside sub.value]
  rw [readRow, cells]
  simp only [BitVec.ofNat_toNat, BitVec.setWidth_eq]

theorem noNewline_rowLine {r : Row} : 0x0A ∉ rowLine r := by
  have digits : ∀ (num : Word) (n : ℕ), (0x0A : Byte) ∉ hexChars num n :=
    fun num n member => (mem_hexChars member).2 rfl
  have blanks : (0x0A : Byte) ∉ charsOf "   " ∧ (0x0A : Byte) ∉ charsOf "    " ∧
      (0x0A : Byte) ∉ charsOf "     " ∧ (0x0A : Byte) ∉ charsOf ":" := by decide
  simp only [rowLine, List.mem_append, digits, blanks, or_false, not_false_eq_true]

/-! ## The whole text -/

/-- Whatever is on the bus, the text of `lspci` says exactly what the table of the scan has. -/
theorem lspci_shows_table (space : ConfigSpace) (t : Terminal) :
    ∃ text, pciEnumerate space t = t.write text ∧
      readTable text = (table space).map some := by
  refine ⟨lspciText space, pciEnumerate_eq space t, ?_⟩
  have headings : charsOf "Bus  Slot Func Vendor   Device   Class\n" =
        charsOf "Bus  Slot Func Vendor   Device   Class" ++ [0x0A] ∧
      charsOf "------------------------------------------\n" =
        charsOf "------------------------------------------" ++ [0x0A] := by decide
  have whole : lspciText space = (charsOf "Bus  Slot Func Vendor   Device   Class" ::
      charsOf "------------------------------------------" ::
        (table space).map rowLine).flatMap fun line => line ++ [0x0A] := by
    rw [lspciText, headings.1, headings.2, List.flatMap_cons, List.flatMap_cons, List.flatMap_map,
      List.append_assoc, funext rowText_eq]
  have noNewline : ∀ line ∈ charsOf "Bus  Slot Func Vendor   Device   Class" ::
      charsOf "------------------------------------------" :: (table space).map rowLine,
      (0x0A : Byte) ∉ line := by
    intro line member
    rcases List.mem_cons.mp member with rfl | member
    · decide
    · rcases List.mem_cons.mp member with rfl | member
      · decide
      · obtain ⟨r, -, rfl⟩ := List.mem_map.mp member
        exact noNewline_rowLine
  rw [readTable, whole, splitOn_lines 0x0A noNewline, List.cons_append, List.cons_append,
    List.drop_succ_cons, List.drop_succ_cons, List.drop_zero, List.dropLast_concat, List.map_map]
  exact List.map_congr_left fun r member => readRow_rowLine (table_inRange member)

end OrbitOs.Shell
