import OrbitOs.Drivers.Terminal
import OrbitOs.Kernel.CString

/-!
# The PCI bus scan of drivers/pci.c

Both scans read the configuration space through the same two ports.
`pci_enumerate` prints a row for each function it meets, `pci_find_device`
stops at the first one of the requested kind.  Their loops leave a slot under
different conditions; they agree because a missing function reads as all ones.
-/

set_option autoImplicit false

namespace OrbitOs.Drivers

open OrbitOs.Machine OrbitOs.Kernel

/-- Bus, slot, function and dword register. -/
abbrev ConfigSpace := Byte → BitVec 5 → BitVec 3 → BitVec 6 → Word

/-- What a read of `PCI_CONFIG_DATA` returns for an address written to
`PCI_CONFIG_ADDRESS`. -/
def hostBridge (space : ConfigSpace) (address : Word) : Word :=
  if address.getLsbD 31 then
    space (address.extractLsb' 16 8) (address.extractLsb' 11 5) (address.extractLsb' 8 3)
      (address.extractLsb' 2 6)
  else 0xFFFFFFFF

/-- The word written to `PCI_CONFIG_ADDRESS`. -/
def configAddress (bus slot func offset : Byte) : Word :=
  let lbus := bus.setWidth 32
  let lslot := slot.setWidth 32
  let lfunc := func.setWidth 32
  lbus <<< 16 ||| lslot <<< 11 ||| lfunc <<< 8 ||| (offset &&& 0xFC).setWidth 32 ||| 0x80000000

def pciReadConfig (space : ConfigSpace) (bus slot func offset : Byte) : Word :=
  hostBridge space (configAddress bus slot func offset)

theorem getLsbD_configAddress (bus slot func offset : Byte) {i : ℕ} (bound : i < 31) :
    (configAddress bus slot func offset).getLsbD i =
      ((16 ≤ i && bus.getLsbD (i - 16)) || (11 ≤ i && slot.getLsbD (i - 11)) ||
        (8 ≤ i && func.getLsbD (i - 8)) || (offset &&& 0xFC).getLsbD i) := by
  have enable : ∀ j < 31, (0x80000000 : Word).getLsbD j = false := by decide
  have here : i < 32 := by omega
  unfold configAddress
  dsimp only
  rw [BitVec.getLsbD_or, enable i bound]
  generalize offset &&& 0xFC = low
  simp [here, ← decide_not]

section Fields

variable (bus slot func offset : Byte) (slotBound : slot.toNat < 32) (funcBound : func.toNat < 8)

theorem getLsbD_of_lt {w : Byte} {k i : ℕ} (bound : w.toNat < 2 ^ k) (high : k ≤ i) :
    w.getLsbD i = false :=
  Nat.testBit_lt_two_pow (Nat.lt_of_lt_of_le bound (Nat.pow_le_pow_right (by omega) high))

include slotBound funcBound in
theorem configAddress_bus : (configAddress bus slot func offset).extractLsb' 16 8 = bus := by
  apply BitVec.eq_of_getLsbD_eq
  intro i bound
  have low : (offset &&& 0xFC).getLsbD (16 + i) = false := BitVec.getLsbD_of_ge _ _ (by omega)
  have slotBit : slot.getLsbD (16 + i - 11) = false := getLsbD_of_lt (k := 5) slotBound (by omega)
  have funcBit : func.getLsbD (16 + i - 8) = false := getLsbD_of_lt (k := 3) funcBound (by omega)
  rw [BitVec.getLsbD_extractLsb', getLsbD_configAddress _ _ _ _ (by omega), low, slotBit, funcBit]
  simp [bound]

include funcBound in
theorem configAddress_slot :
    (configAddress bus slot func offset).extractLsb' 11 5 = slot.setWidth 5 := by
  apply BitVec.eq_of_getLsbD_eq
  intro i bound
  have low : (offset &&& 0xFC).getLsbD (11 + i) = false := BitVec.getLsbD_of_ge _ _ (by omega)
  have funcBit : func.getLsbD (11 + i - 8) = false := getLsbD_of_lt (k := 3) funcBound (by omega)
  have below : ¬ 16 ≤ 11 + i := by omega
  rw [BitVec.getLsbD_extractLsb', getLsbD_configAddress _ _ _ _ (by omega), low, funcBit]
  simp [bound, below]

theorem configAddress_func :
    (configAddress bus slot func offset).extractLsb' 8 3 = func.setWidth 3 := by
  apply BitVec.eq_of_getLsbD_eq
  intro i bound
  have low : (offset &&& 0xFC).getLsbD (8 + i) = false := BitVec.getLsbD_of_ge _ _ (by omega)
  have below : ¬ 16 ≤ 8 + i ∧ ¬ 11 ≤ 8 + i := by omega
  rw [BitVec.getLsbD_extractLsb', getLsbD_configAddress _ _ _ _ (by omega), low]
  simp [bound, below]

theorem configAddress_register :
    (configAddress bus slot func offset).extractLsb' 2 6 = offset.extractLsb' 2 6 := by
  have mask : ∀ j < 8, 2 ≤ j → (0xFC : Byte).getLsbD j = true := by decide
  apply BitVec.eq_of_getLsbD_eq
  intro i bound
  have below : ¬ 16 ≤ 2 + i ∧ ¬ 11 ≤ 2 + i ∧ ¬ 8 ≤ 2 + i := by omega
  rw [BitVec.getLsbD_extractLsb', getLsbD_configAddress _ _ _ _ (by omega),
    BitVec.getLsbD_extractLsb', BitVec.getLsbD_and, mask (2 + i) (by omega) (by omega)]
  simp [bound, below]

theorem pciReadConfig_eq (space : ConfigSpace) (slotBound : slot.toNat < 32)
    (funcBound : func.toNat < 8) : pciReadConfig space bus slot func offset =
      space bus (slot.setWidth 5) (func.setWidth 3) (offset.extractLsb' 2 6) := by
  have enabled : (configAddress bus slot func offset).getLsbD 31 = true := by
    simp [configAddress]
  rw [pciReadConfig, hostBridge, if_pos enabled, configAddress_bus _ _ _ _ slotBound funcBound,
    configAddress_slot _ _ _ _ funcBound, configAddress_func, configAddress_register]

end Fields

/-! ## The table of `pci_enumerate` -/

structure Row where
  bus : ℕ
  slot : ℕ
  func : ℕ
  vendorId : BitVec 16
  deviceId : BitVec 16
  classId : Byte
  subclassId : Byte

def vendorOf (vendorDevice : Word) : BitVec 16 := (vendorDevice &&& 0xFFFF).setWidth 16

def deviceOf (vendorDevice : Word) : BitVec 16 := (vendorDevice >>> 16).setWidth 16

/-- `((header_type >> 16) & 0x80) == 0` -/
def SingleFunction (headerType : Word) : Prop := (headerType >>> 16) &&& 0x80 = 0

instance (headerType : Word) : Decidable (SingleFunction headerType) :=
  inferInstanceAs (Decidable (_ = _))

section Enumerate

/-! The loops are generic in what is done with a row, so that one translation
serves both the text and the table. -/

variable {σ : Type} (space : ConfigSpace) (print : Row → σ → σ)

/-- `for (func = ..; func < 8; func++)` with `left` turns to go. -/
def enumerateFuncs (bus slot : ℕ) : ℕ → ℕ → σ → σ
  | 0, _, s => s
  | left + 1, func, s =>
    let read := pciReadConfig space (BitVec.ofNat 8 bus) (BitVec.ofNat 8 slot) (BitVec.ofNat 8 func)
    let vendorDevice := read 0
    let vendorId := vendorOf vendorDevice
    let deviceId := deviceOf vendorDevice
    if vendorId ≠ 0xFFFF then
      let classSub := read 0x08
      let classId := (classSub >>> 24).setWidth 8
      let subclassId := ((classSub >>> 16) &&& 0xFF).setWidth 8
      let s := print ⟨bus, slot, func, vendorId, deviceId, classId, subclassId⟩ s
      if func = 0 then
        if SingleFunction (read 0x0C) then s
        else enumerateFuncs bus slot left (func + 1) s
      else enumerateFuncs bus slot left (func + 1) s
    else enumerateFuncs bus slot left (func + 1) s

def enumerateAll (s : σ) : σ :=
  (List.range 256).foldl (fun s bus =>
    (List.range 32).foldl (fun s slot => enumerateFuncs space print bus slot 8 0 s) s) s

end Enumerate

/-- `digits_str[num & 0x0F]` -/
def hexDigit (num : Word) : Byte := (charsOf "0123456789ABCDEF").getD (num &&& 0x0F).toNat 0

/-- The characters of `buf` after the loop, from the first digit on. -/
def hexChars : Word → ℕ → List Byte
  | _, 0 => []
  | num, digits + 1 => hexChars (num >>> 4) digits ++ [hexDigit num]

def printHex (num : Word) (digits : ℕ) (t : Terminal) : Terminal := t.write (hexChars num digits)

def printRow (r : Row) (t : Terminal) : Terminal :=
  let t := (printHex (BitVec.ofNat 32 r.bus) 2 t).write (charsOf "   ")
  let t := (printHex (BitVec.ofNat 32 r.slot) 2 t).write (charsOf "   ")
  let t := (printHex (BitVec.ofNat 32 r.func) 1 t).write (charsOf "    ")
  let t := (printHex (r.vendorId.setWidth 32) 4 t).write (charsOf "     ")
  let t := (printHex (r.deviceId.setWidth 32) 4 t).write (charsOf "     ")
  let t := (printHex (r.classId.setWidth 32) 2 t).write (charsOf ":")
  (printHex (r.subclassId.setWidth 32) 2 t).write (charsOf "\n")

def pciEnumerate (space : ConfigSpace) (t : Terminal) : Terminal :=
  let t := t.write (charsOf "Bus  Slot Func Vendor   Device   Class\n")
  let t := t.write (charsOf "------------------------------------------\n")
  enumerateAll space printRow t

/-- The rows in the order they are printed. -/
def table (space : ConfigSpace) : List Row := enumerateAll space (fun r rows => rows ++ [r]) []

/-! ## The search of `pci_find_device` -/

/-- `*bus_out`, `*slot_out` and `*func_out` -/
structure Location where
  bus : Byte
  slot : Byte
  func : Byte

section Find

variable (space : ConfigSpace) (vendorId deviceId : BitVec 16)

/-- `for (func = ..; func < 8; func++)` with `left` turns to go; `none` when the
loop is left without a result. -/
def findFuncs (bus slot : ℕ) : ℕ → ℕ → Option Location
  | 0, _ => none
  | left + 1, func =>
    let read := pciReadConfig space (BitVec.ofNat 8 bus) (BitVec.ofNat 8 slot) (BitVec.ofNat 8 func)
    let vendorDevice := read 0
    if vendorOf vendorDevice = vendorId ∧ deviceOf vendorDevice = deviceId then
      some ⟨BitVec.ofNat 8 bus, BitVec.ofNat 8 slot, BitVec.ofNat 8 func⟩
    else if func = 0 then
      if SingleFunction (read 0x0C) then none else findFuncs bus slot left (func + 1)
    else findFuncs bus slot left (func + 1)

/-- `none` is the result 0. -/
def pciFindDevice : Option Location :=
  (List.range 256).findSome? fun bus => (List.range 32).findSome? fun slot =>
    findFuncs space vendorId deviceId bus slot 8 0

end Find

/-! ## The table and the printed text -/

section Rows

variable {σ : Type} (space : ConfigSpace) (print : Row → σ → σ) (bus slot : ℕ)

/-- The rows of one slot, from function `func` on. -/
def funcRows (left func : ℕ) : List Row :=
  enumerateFuncs space (fun r rows => rows ++ [r]) bus slot left func []

theorem enumerateFuncs_rows (left func : ℕ) (rows : List Row) :
    enumerateFuncs space (fun r rows => rows ++ [r]) bus slot left func rows =
      rows ++ funcRows space bus slot left func := by
  induction left generalizing func rows with
  | zero => simp [enumerateFuncs, funcRows]
  | succ left ih =>
      simp only [enumerateFuncs, funcRows]
      split_ifs
      · simp
      · rw [ih (func + 1) (rows ++ _), ih (func + 1) ([] ++ _)]
        simp
      · rw [ih (func + 1) (rows ++ _), ih (func + 1) ([] ++ _)]
        simp
      · rw [ih (func + 1) rows, ih (func + 1) [], List.nil_append]

/-- Whatever is done with the rows is done with those of the table, in order. -/
theorem enumerateFuncs_eq (left func : ℕ) (s : σ) :
    enumerateFuncs space print bus slot left func s =
      (funcRows space bus slot left func).foldl (fun s r => print r s) s := by
  induction left generalizing func s with
  | zero => simp [enumerateFuncs, funcRows]
  | succ left ih =>
      simp only [enumerateFuncs, funcRows]
      split_ifs
      · simp
      · rw [ih (func + 1) (print _ s), enumerateFuncs_rows, List.nil_append, List.singleton_append,
          List.foldl_cons]
      · rw [ih (func + 1) (print _ s), enumerateFuncs_rows, List.nil_append, List.singleton_append,
          List.foldl_cons]
      · rw [ih (func + 1) s, enumerateFuncs_rows, List.nil_append]

def rowAt (func : ℕ) : Row :=
  let read := pciReadConfig space (BitVec.ofNat 8 bus) (BitVec.ofNat 8 slot) (BitVec.ofNat 8 func)
  ⟨bus, slot, func, vendorOf (read 0), deviceOf (read 0), (read 0x08 >>> 24).setWidth 8,
    ((read 0x08 >>> 16) &&& 0xFF).setWidth 8⟩

theorem funcRows_succ (left func : ℕ) :
    funcRows space bus slot (left + 1) func =
      if (rowAt space bus slot func).vendorId ≠ 0xFFFF then
        rowAt space bus slot func ::
          if func = 0 ∧ SingleFunction (pciReadConfig space (BitVec.ofNat 8 bus)
              (BitVec.ofNat 8 slot) (BitVec.ofNat 8 func) 0x0C) then []
          else funcRows space bus slot left (func + 1)
      else funcRows space bus slot left (func + 1) := by
  rw [funcRows, enumerateFuncs]
  simp only [enumerateFuncs_rows, rowAt, List.nil_append]
  split_ifs <;> simp_all

end Rows

def busRows (space : ConfigSpace) (bus : ℕ) : List Row :=
  (List.range 32).flatMap fun slot => funcRows space bus slot 8 0

theorem enumerateAll_eq_flatMap {σ : Type} (space : ConfigSpace) (print : Row → σ → σ) (s : σ) :
    enumerateAll space print s =
      ((List.range 256).flatMap (busRows space)).foldl (fun s r => print r s) s := by
  have perBus : ∀ (bus : ℕ) (s : σ),
      (List.range 32).foldl (fun s slot => enumerateFuncs space print bus slot 8 0 s) s =
        (busRows space bus).foldl (fun s r => print r s) s := by
    intro bus s
    simp only [enumerateFuncs_eq space print, busRows, List.foldl_flatMap]
  simp only [enumerateAll, perBus, List.foldl_flatMap]

theorem table_eq_flatMap (space : ConfigSpace) :
    table space = (List.range 256).flatMap (busRows space) := by
  rw [table, enumerateAll_eq_flatMap, List.foldl_append_eq_append, List.nil_append,
    ← List.flatMap_def, List.flatMap_singleton']

/-! ## Agreement -/

/-- A function without a vendor id reads as all ones. -/
def AbsentReadsOnes (space : ConfigSpace) : Prop :=
  ∀ bus slot func, vendorOf (space bus slot func 0) = 0xFFFF →
    ∀ register, space bus slot func register = 0xFFFFFFFF

def Row.location (r : Row) : Location :=
  ⟨BitVec.ofNat 8 r.bus, BitVec.ofNat 8 r.slot, BitVec.ofNat 8 r.func⟩

def Row.IsKind (vendorId deviceId : BitVec 16) (r : Row) : Prop :=
  r.vendorId = vendorId ∧ r.deviceId = deviceId

instance (vendorId deviceId : BitVec 16) (r : Row) : Decidable (r.IsKind vendorId deviceId) :=
  inferInstanceAs (Decidable (_ ∧ _))

variable {space : ConfigSpace} {vendorId deviceId : BitVec 16}

/-- The header type of a missing function says "multi-function", so the search
goes on behind it as the table does. -/
theorem not_singleFunction_of_absent (absent : AbsentReadsOnes space) {bus slot func : ℕ}
    (slotBound : slot < 32) (funcBound : func < 8)
    (missing : vendorOf (pciReadConfig space (BitVec.ofNat 8 bus) (BitVec.ofNat 8 slot)
      (BitVec.ofNat 8 func) 0) = 0xFFFF) :
    ¬ SingleFunction (pciReadConfig space (BitVec.ofNat 8 bus) (BitVec.ofNat 8 slot)
      (BitVec.ofNat 8 func) 0x0C) := by
  have slotValue : (BitVec.ofNat 8 slot).toNat < 32 := by
    rw [BitVec.toNat_ofNat]
    omega
  have funcValue : (BitVec.ofNat 8 func).toNat < 8 := by
    rw [BitVec.toNat_ofNat]
    omega
  rw [pciReadConfig_eq _ _ _ _ _ slotValue funcValue] at missing ⊢
  rw [absent _ _ _ missing]
  decide

theorem findFuncs_eq (absent : AbsentReadsOnes space) (wanted : vendorId ≠ 0xFFFF) {bus slot : ℕ}
    (slotBound : slot < 32) (left func : ℕ) (budget : func + left ≤ 8) :
    findFuncs space vendorId deviceId bus slot left func =
      ((funcRows space bus slot left func).find? fun r => r.IsKind vendorId deviceId).map
        Row.location := by
  induction left generalizing func with
  | zero => rfl
  | succ left ih =>
      have rest := ih (func + 1) (by omega)
      have find : findFuncs space vendorId deviceId bus slot (left + 1) func =
          if (rowAt space bus slot func).IsKind vendorId deviceId then
            some (rowAt space bus slot func).location
          else if func = 0 ∧ SingleFunction (pciReadConfig space (BitVec.ofNat 8 bus)
              (BitVec.ofNat 8 slot) (BitVec.ofNat 8 func) 0x0C) then none
          else findFuncs space vendorId deviceId bus slot left (func + 1) := by
        rw [findFuncs]
        simp only [Row.IsKind, Row.location, rowAt]
        split_ifs <;> simp_all
      rw [find, funcRows_succ]
      by_cases missing : (rowAt space bus slot func).vendorId = 0xFFFF
      · have notKind : ¬ (rowAt space bus slot func).IsKind vendorId deviceId :=
          fun kind => wanted (kind.1.symm.trans missing)
        have multi := not_singleFunction_of_absent absent slotBound (by omega) missing
        rw [if_neg notKind, if_neg fun both => multi both.2, if_neg (not_not.mpr missing), rest]
      · rw [if_pos missing]
        by_cases kind : (rowAt space bus slot func).IsKind vendorId deviceId
        · simp [kind]
        · rw [if_neg kind, rest]
          split_ifs <;> simp [kind]

theorem findSome_congr {α β : Type} {f g : α → Option β} (l : List α)
    (agree : ∀ a ∈ l, f a = g a) : l.findSome? f = l.findSome? g := by
  induction l with
  | nil => rfl
  | cons a l ih =>
      rw [List.findSome?_cons, List.findSome?_cons, agree a List.mem_cons_self,
        ih fun b later => agree b (List.mem_cons_of_mem a later)]

/-- The table has the headings and one line for each row, and the search for a
kind of device finds its first row. -/
theorem pciFindDevice_eq_table (absent : AbsentReadsOnes space) (wanted : vendorId ≠ 0xFFFF)
    (t : Terminal) :
    pciEnumerate space t = (table space).foldl (fun t r => printRow r t)
      ((t.write (charsOf "Bus  Slot Func Vendor   Device   Class\n")).write
        (charsOf "------------------------------------------\n")) ∧
    pciFindDevice space vendorId deviceId =
      ((table space).find? fun r => r.IsKind vendorId deviceId).map Row.location := by
  rw [table_eq_flatMap]
  refine ⟨enumerateAll_eq_flatMap _ _ _, ?_⟩
  have perBus : ∀ bus : ℕ, ((List.range 32).findSome? fun slot =>
      findFuncs space vendorId deviceId bus slot 8 0) =
      ((busRows space bus).find? fun r => r.IsKind vendorId deviceId).map Row.location := by
    intro bus
    rw [busRows, List.find?_flatMap, List.map_findSome?]
    apply findSome_congr
    intro slot inBus
    exact findFuncs_eq absent wanted (List.mem_range.mp inBus) 8 0 (by omega)
  simp only [pciFindDevice, perBus]
  rw [List.find?_flatMap, List.map_findSome?]
  rfl

/-- A network card in the first function of slot 3 and nothing else. -/
def oneCard : ConfigSpace := fun bus slot func register =>
  if bus = 0 ∧ slot = 3 ∧ func = 0 then
    if register = 0 then 0x100E8086 else if register = 2 then 0x02000000 else 0
  else 0xFFFFFFFF

theorem pciFindDevice_eq_table_oneCard :
    0x8086 ≠ (0xFFFF : BitVec 16) ∧ AbsentReadsOnes oneCard ∧
      pciFindDevice oneCard 0x8086 0x100E =
        ((table oneCard).find? fun r => r.IsKind 0x8086 0x100E).map Row.location := by
  have absent : AbsentReadsOnes oneCard := by
    intro bus slot func missing register
    unfold oneCard at missing ⊢
    by_cases card : bus = 0 ∧ slot = 3 ∧ func = 0
    · rw [if_pos card, if_pos rfl] at missing
      exact absurd missing (by decide)
    · rw [if_neg card]
  exact ⟨by decide, absent, (pciFindDevice_eq_table absent (by decide)
    ⟨0, 0, 7, fun _ => 0, [], vgaHeight_pos, vgaWidth_pos⟩).2⟩

end OrbitOs.Drivers
