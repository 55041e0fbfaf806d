import OrbitOs.Drivers.E1000
import OrbitOs.Drivers.Pci

/-!
# Writes to the PCI configuration and the set-up of the network card

A write changes the bits of one register that software may write, and clears those
that are cleared by writing a one to them.  `pci_enable_bus_mastering` writes back
what it has read, so it clears bits of the second kind along the way.
-/

set_option autoImplicit false

namespace OrbitOs.Drivers

open OrbitOs.Machine OrbitOs.Memory

/-! ## The registers -/

structure ConfigRegister where
  value : Word
  /-- The bits that take the written value. -/
  writable : Word
  /-- The bits that a written one clears. -/
  clearing : Word
  apart : writable &&& clearing = 0

def ConfigRegister.write (r : ConfigRegister) (v : Word) : ConfigRegister :=
  { r with
    value := (r.value &&& ~~~r.writable &&& ~~~(r.clearing &&& v)) ||| (v &&& r.writable) }

abbrev ConfigRegisters := Byte → BitVec 5 → BitVec 3 → BitVec 6 → ConfigRegister

def ConfigRegisters.space (regs : ConfigRegisters) : ConfigSpace :=
  fun bus slot func register => (regs bus slot func register).value

/-- What a write of `PCI_CONFIG_DATA` does for an address written to
`PCI_CONFIG_ADDRESS`. -/
def hostBridgeWrite (regs : ConfigRegisters) (address value : Word) : ConfigRegisters :=
  fun bus slot func register =>
    if address.getLsbD 31 = true ∧ bus = address.extractLsb' 16 8 ∧
        slot = address.extractLsb' 11 5 ∧ func = address.extractLsb' 8 3 ∧
        register = address.extractLsb' 2 6 then
      (regs bus slot func register).write value
    else regs bus slot func register

/-! ## The source -/

def pciWriteConfig (regs : ConfigRegisters) (bus slot func offset : Byte) (value : Word) :
    ConfigRegisters :=
  hostBridgeWrite regs (configAddress bus slot func offset) value

def pciGetBar (space : ConfigSpace) (bus slot func : Byte) (barNum : Word) : Word :=
  let offset : Byte := (0x10 + barNum * 4).setWidth 8
  pciReadConfig space bus slot func offset

/-- `1 << 2` -/
def busMaster : Word := 1 <<< 2

def pciEnableBusMastering (regs : ConfigRegisters) (bus slot func : Byte) : ConfigRegisters :=
  let command := pciReadConfig regs.space bus slot func 0x04
  let command := command ||| busMaster
  pciWriteConfig regs bus slot func 0x04 command

def e1000Vendor : BitVec 16 := 0x8086
def e1000Device : BitVec 16 := 0x100E

/-- `e1000_initialize` with its accesses to the PCI bus. -/
def e1000SetUp (regs : ConfigRegisters) (register : Word → Word) (s : Vmm) (e : E1000) :
    ConfigRegisters × Vmm × E1000 :=
  match pciFindDevice regs.space e1000Vendor e1000Device with
  | none => (regs, E1000.e1000Initialize none register s e)
  | some ⟨bus, slot, func⟩ =>
    let regs := pciEnableBusMastering regs bus slot func
    let bar0 := pciGetBar regs.space bus slot func 0
    (regs, E1000.e1000Initialize (some bar0) register s e)

/-! ## A write -/

/-- Everything else about a register stays. -/
theorem getLsbD_write (r : ConfigRegister) (v : Word) (i : ℕ) :
    (r.write v).value.getLsbD i =
      if r.writable.getLsbD i then v.getLsbD i
      else if r.clearing.getLsbD i && v.getLsbD i then false else r.value.getLsbD i := by
  unfold ConfigRegister.write
  rcases Nat.lt_or_ge i 32 with bound | beyond
  · simp only [BitVec.getLsbD_or, BitVec.getLsbD_and, BitVec.getLsbD_not, bound, decide_true,
      Bool.true_and]
    cases r.writable.getLsbD i <;> cases r.clearing.getLsbD i <;> cases v.getLsbD i <;> simp
  · simp [BitVec.getLsbD_of_ge _ _ beyond]

section Addressed

variable {bus slot func : Byte} (slotBound : slot.toNat < 32) (funcBound : func.toNat < 8)
  (regs : ConfigRegisters) (offset : Byte)

include slotBound funcBound

/-- A write reaches the register at the offset and no other. -/
theorem pciWriteConfig_apply (value : Word) (b : Byte) (s : BitVec 5) (f : BitVec 3)
    (r : BitVec 6) :
    pciWriteConfig regs bus slot func offset value b s f r =
      if b = bus ∧ s = slot.setWidth 5 ∧ f = func.setWidth 3 ∧ r = offset.extractLsb' 2 6 then
        (regs b s f r).write value
      else regs b s f r := by
  have enabled : (configAddress bus slot func offset).getLsbD 31 = true := by
    simp [configAddress]
  rw [pciWriteConfig, hostBridgeWrite, configAddress_bus _ _ _ _ slotBound funcBound,
    configAddress_slot _ _ _ _ funcBound, configAddress_func, configAddress_register]
  simp only [enabled, true_and]

end Addressed

/-! ## Bus mastering -/

/-- What bus mastering makes of the command and status register. -/
structure MastersBus (before after : ConfigRegister) : Prop where
  command : ∀ i, before.writable.getLsbD i = true →
    after.value.getLsbD i = (before.value.getLsbD i || decide (i = 2))
  status : ∀ i, before.clearing.getLsbD i = true → after.value.getLsbD i = false
  fixed : ∀ i, before.writable.getLsbD i = false → before.clearing.getLsbD i = false →
    after.value.getLsbD i = before.value.getLsbD i
  writable : after.writable = before.writable
  clearing : after.clearing = before.clearing

theorem getLsbD_busMaster (v : Word) (i : ℕ) :
    (v ||| busMaster).getLsbD i = (v.getLsbD i || decide (i = 2)) := by
  have bit : busMaster.getLsbD i = decide (i = 2) := by
    have four : busMaster = BitVec.twoPow 32 2 := by decide
    rw [four, BitVec.getLsbD_twoPow]
    by_cases same : i = 2
    · rw [same]
      rfl
    · simp [same, Ne.symm same]
  rw [BitVec.getLsbD_or, bit]

theorem write_busMaster (r : ConfigRegister) : MastersBus r (r.write (r.value ||| busMaster)) where
  command := by
    intro i writable
    rw [getLsbD_write, if_pos writable, getLsbD_busMaster]
  status := by
    intro i clearing
    have notWritable : r.writable.getLsbD i = false := by
      have both := congrArg (fun w : Word => w.getLsbD i) r.apart
      simpa [clearing] using both
    rw [getLsbD_write, notWritable, clearing, getLsbD_busMaster]
    cases r.value.getLsbD i with
    | false => simp
    | true => simp
  fixed := by
    intro i notWritable notClearing
    rw [getLsbD_write, notWritable, notClearing]
    simp
  writable := rfl
  clearing := rfl

/-- The command and status register. -/
def commandRegister : BitVec 6 := 1

theorem pciEnableBusMastering_apply (regs : ConfigRegisters) {bus slot func : Byte}
    (slotBound : slot.toNat < 32) (funcBound : func.toNat < 8) (b : Byte) (s : BitVec 5)
    (f : BitVec 3) (r : BitVec 6) :
    pciEnableBusMastering regs bus slot func b s f r =
      if b = bus ∧ s = slot.setWidth 5 ∧ f = func.setWidth 3 ∧ r = commandRegister then
        (regs b s f r).write ((regs b s f r).value ||| busMaster)
      else regs b s f r := by
  have offset : (0x04 : Byte).extractLsb' 2 6 = commandRegister := by decide
  rw [pciEnableBusMastering, pciReadConfig_eq _ _ _ _ _ slotBound funcBound,
    pciWriteConfig_apply slotBound funcBound, offset]
  split_ifs with here
  · obtain ⟨rfl, rfl, rfl, rfl⟩ := here
    rfl
  · rfl

/-! ## What the scans see -/

/-- The registers that the scans read. -/
def Scanned (r : BitVec 6) : Prop := r = 0 ∨ r = 2 ∨ r = 3

/-- Two spaces that a scan cannot tell apart. -/
def SameScan (a b : ConfigSpace) : Prop :=
  ∀ bus slot func r, Scanned r → a bus slot func r = b bus slot func r

theorem toNat_index_lt {n k : ℕ} (bound : n < k) (small : k ≤ 256) :
    (BitVec.ofNat 8 n).toNat < k := by
  rw [BitVec.toNat_ofNat]
  omega

theorem SameScan.reads {a b : ConfigSpace} (same : SameScan a b) (bus : ℕ) {slot func : ℕ}
    (slotBound : slot < 32) (funcBound : func < 8) (offset : Byte)
    (scanned : Scanned (offset.extractLsb' 2 6)) :
    pciReadConfig a (BitVec.ofNat 8 bus) (BitVec.ofNat 8 slot) (BitVec.ofNat 8 func) offset =
      pciReadConfig b (BitVec.ofNat 8 bus) (BitVec.ofNat 8 slot) (BitVec.ofNat 8 func)
        offset := by
  have slotValue : (BitVec.ofNat 8 slot).toNat < 32 := toNat_index_lt slotBound (by decide)
  have funcValue : (BitVec.ofNat 8 func).toNat < 8 := toNat_index_lt (by omega) (by decide)
  rw [pciReadConfig_eq _ _ _ _ _ slotValue funcValue,
    pciReadConfig_eq _ _ _ _ _ slotValue funcValue, same _ _ _ _ scanned]

theorem SameScan.funcs {a b : ConfigSpace} (same : SameScan a b) (bus : ℕ) {slot : ℕ}
    (slotBound : slot < 32) {σ : Type} (print : Row → σ → σ) (left func : ℕ)
    (budget : func + left ≤ 8) (s : σ) :
    enumerateFuncs a print bus slot left func s = enumerateFuncs b print bus slot left func s := by
  induction left generalizing func s with
  | zero => rfl
  | succ left ih =>
      have funcBound : func < 8 := by omega
      have ids := same.reads bus slotBound funcBound 0 (Or.inl (by decide))
      have kind := same.reads bus slotBound funcBound 0x08
        (Or.inr (Or.inl (by decide)))
      have header := same.reads bus slotBound funcBound 0x0C
        (Or.inr (Or.inr (by decide)))
      have rest := fun s => ih (func + 1) (by omega) s
      simp only [enumerateFuncs, ids, kind, header, rest]

/-- The scan of `pci_enumerate` gives the same table. -/
theorem SameScan.table_eq {a b : ConfigSpace} (same : SameScan a b) : table a = table b := by
  rw [table, table, enumerateAll, enumerateAll]
  refine List.foldl_ext _ _ _ fun rows bus _ => ?_
  refine List.foldl_ext _ _ _ fun rows slot inBus => ?_
  exact same.funcs bus (List.mem_range.mp inBus) _ 8 0 (Nat.le_refl 8) rows

section Find

variable {a b : ConfigSpace} {vendorId deviceId : BitVec 16}

theorem SameScan.findFuncs_eq (same : SameScan a b) (bus : ℕ) {slot : ℕ} (slotBound : slot < 32)
    (left func : ℕ) (budget : func + left ≤ 8) :
    findFuncs a vendorId deviceId bus slot left func =
      findFuncs b vendorId deviceId bus slot left func := by
  induction left generalizing func with
  | zero => rfl
  | succ left ih =>
      have funcBound : func < 8 := by omega
      have ids := same.reads bus slotBound funcBound 0 (Or.inl (by decide))
      have header := same.reads bus slotBound funcBound 0x0C (Or.inr (Or.inr (by decide)))
      simp only [findFuncs, ids, header, ih (func + 1) (by omega)]

theorem SameScan.find_eq (same : SameScan a b) :
    pciFindDevice a vendorId deviceId = pciFindDevice b vendorId deviceId := by
  refine findSome_congr _ fun bus _ => ?_
  refine findSome_congr _ fun slot inBus => ?_
  exact same.findFuncs_eq bus (List.mem_range.mp inBus) 8 0 (Nat.le_refl 8)

/-- The function at a location answers with the kind. -/
structure Answers (space : ConfigSpace) (vendorId deviceId : BitVec 16) (l : Location) :
    Prop where
  slot : l.slot.toNat < 32
  func : l.func.toNat < 8
  vendor : vendorOf (space l.bus (l.slot.setWidth 5) (l.func.setWidth 3) 0) = vendorId
  device : deviceOf (space l.bus (l.slot.setWidth 5) (l.func.setWidth 3) 0) = deviceId

theorem answers_of_findFuncs {bus slot : ℕ} (slotBound : slot < 32) (left func : ℕ)
    (budget : func + left ≤ 8) {l : Location}
    (found : findFuncs a vendorId deviceId bus slot left func = some l) :
    Answers a vendorId deviceId l := by
  induction left generalizing func with
  | zero => exact absurd found.symm (Option.some_ne_none l)
  | succ left ih =>
      have slotValue : (BitVec.ofNat 8 slot).toNat < 32 := toNat_index_lt slotBound (by decide)
      have funcValue : (BitVec.ofNat 8 func).toNat < 8 := toNat_index_lt (by omega) (by decide)
      have read := pciReadConfig_eq (BitVec.ofNat 8 bus) _ _ 0 a slotValue funcValue
      have zero : (0 : Byte).extractLsb' 2 6 = 0 := by decide
      rw [findFuncs, read, zero] at found
      split_ifs at found with kind first single
      · cases found
        exact ⟨slotValue, funcValue, kind.1, kind.2⟩
      · exact ih (func + 1) (by omega) found
      · exact ih (func + 1) (by omega) found

theorem answers_of_find {l : Location} (found : pciFindDevice a vendorId deviceId = some l) :
    Answers a vendorId deviceId l := by
  obtain ⟨bus, -, inBus⟩ := List.exists_of_findSome?_eq_some found
  obtain ⟨slot, inRange, inSlot⟩ := List.exists_of_findSome?_eq_some inBus
  exact answers_of_findFuncs (List.mem_range.mp inRange) 8 0 (Nat.le_refl 8) inSlot

end Find

/-! ## The set-up of the card -/

/-- A register of the function at a location. -/
def ConfigRegisters.at (regs : ConfigRegisters) (l : Location) (r : BitVec 6) : ConfigRegister :=
  regs l.bus (l.slot.setWidth 5) (l.func.setWidth 3) r

/-- The register of BAR 0. -/
def bar0Register : BitVec 6 := 4

/-- The bytes of RAL and RAH in the order of their addresses. -/
def receiveAddress (register : Word → Word) (base : Word) : List Byte :=
  (List.range 6).map fun i =>
    (register (base + 0x5400 + BitVec.ofNat 32 (4 * (i / 4))) >>> (8 * (i % 4))).setWidth 8

/-- What `e1000_initialize` makes of the card at a location. -/
structure SetsUp (regs : ConfigRegisters) (register : Word → Word) (s : Vmm) (card : Location)
    (after : ConfigRegisters × Vmm × E1000) : Prop where
  masters : MastersBus (regs.at card commandRegister) (after.1.at card commandRegister)
  others : ∀ bus slot func r, ¬ (bus = card.bus ∧ slot = card.slot.setWidth 5 ∧
    func = card.func.setWidth 3 ∧ r = commandRegister) →
      after.1 bus slot func r = regs bus slot func r
  table : table after.1.space = table regs.space
  again : pciFindDevice after.1.space e1000Vendor e1000Device = some card
  found : after.2.2.found = true
  base : after.2.2.mmioBase = (regs.at card bar0Register).value &&& ~~~0xF
  mapped : after.2.1 = (E1000.mmioCalls after.2.2.mmioBase).foldl Vmm.apply s
  mac : after.2.2.macAddr = receiveAddress register after.2.2.mmioBase

theorem sameScan_of_others {regs after : ConfigRegisters} {card : Location}
    (others : ∀ bus slot func r, ¬ (bus = card.bus ∧ slot = card.slot.setWidth 5 ∧
      func = card.func.setWidth 3 ∧ r = commandRegister) →
        after bus slot func r = regs bus slot func r) : SameScan after.space regs.space := by
  intro bus slot func r scanned
  have notCommand : r ≠ commandRegister := by
    rcases scanned with rfl | rfl | rfl <;> decide
  exact congrArg ConfigRegister.value (others bus slot func r fun here => notCommand here.2.2.2)

/-- `e1000_initialize` makes the first card on the bus a bus master, changes no other
register of any function, and takes the address of the card from the registers at
BAR 0; without a card it changes nothing. -/
theorem e1000SetUp_spec (regs : ConfigRegisters) (register : Word → Word) (s : Vmm)
    (e : E1000) :
    (pciFindDevice regs.space e1000Vendor e1000Device = none →
      e1000SetUp regs register s e = (regs, s, e)) ∧
    ∀ card, pciFindDevice regs.space e1000Vendor e1000Device = some card →
      SetsUp regs register s card (e1000SetUp regs register s e) := by
  constructor
  · intro none
    rw [e1000SetUp, none]
    rfl
  · intro card found
    obtain ⟨slotBound, funcBound, -, -⟩ := answers_of_find found
    have apply := @pciEnableBusMastering_apply regs card.bus _ _ slotBound funcBound
    have others : ∀ bus slot func r, ¬ (bus = card.bus ∧ slot = card.slot.setWidth 5 ∧
        func = card.func.setWidth 3 ∧ r = commandRegister) →
        pciEnableBusMastering regs card.bus card.slot card.func bus slot func r =
          regs bus slot func r := by
      intro bus slot func r elsewhere
      rw [apply, if_neg elsewhere]
    have sameScan := sameScan_of_others others
    have bar0 : pciGetBar (pciEnableBusMastering regs card.bus card.slot card.func).space card.bus
        card.slot card.func 0 = (regs.at card bar0Register).value := by
      have offset : (((0x10 : Word) + 0 * 4).setWidth 8).extractLsb' 2 6 = bar0Register := by
        decide
      rw [pciGetBar, pciReadConfig_eq _ _ _ _ _ slotBound funcBound, offset]
      refine congrArg ConfigRegister.value (others _ _ _ _ fun here => ?_)
      exact absurd here.2.2.2 (by decide)
    have call : e1000SetUp regs register s e =
        (pciEnableBusMastering regs card.bus card.slot card.func,
          E1000.e1000Initialize (some (regs.at card bar0Register).value) register s e) := by
      rw [e1000SetUp, found, ← bar0]
    rw [call]
    exact {
      masters := by
        have here := apply card.bus (card.slot.setWidth 5) (card.func.setWidth 3) commandRegister
        rw [if_pos ⟨rfl, rfl, rfl, rfl⟩] at here
        change MastersBus _ (pciEnableBusMastering regs card.bus card.slot card.func card.bus
          (card.slot.setWidth 5) (card.func.setWidth 3) commandRegister)
        rw [here]
        exact write_busMaster _
      others := others
      table := sameScan.table_eq
      again := sameScan.find_eq.trans found
      found := rfl
      base := rfl
      mapped := by simp only [E1000.e1000Initialize]
      mac := by
        have second : ∀ base : Word, base + 21504#32 + 4#32 = base + 21508#32 := by
          intro base
          rw [BitVec.add_assoc]
          rfl
        simp [E1000.e1000Initialize, receiveAddress, List.range_succ, second] }

/-- Of all registers of all functions only the command and status register of the card
changes, and the scans see the same bus as before. -/
theorem setUp_changes_command_only (regs : ConfigRegisters) (register : Word → Word) (s : Vmm)
    (e : E1000) :
    (∀ bus slot func r,
      (e1000SetUp regs register s e).1 bus slot func r = regs bus slot func r ∨
        ∃ card, pciFindDevice regs.space e1000Vendor e1000Device = some card ∧ bus = card.bus ∧
          slot = card.slot.setWidth 5 ∧ func = card.func.setWidth 3 ∧ r = commandRegister ∧
          MastersBus (regs bus slot func r) ((e1000SetUp regs register s e).1 bus slot func r)) ∧
    table (e1000SetUp regs register s e).1.space = table regs.space ∧
    pciFindDevice (e1000SetUp regs register s e).1.space e1000Vendor e1000Device =
      pciFindDevice regs.space e1000Vendor e1000Device := by
  obtain ⟨absent, present⟩ := e1000SetUp_spec regs register s e
  cases found : pciFindDevice regs.space e1000Vendor e1000Device with
  | none =>
      rw [absent found]
      exact ⟨fun _ _ _ _ => Or.inl rfl, rfl, found⟩
  | some card =>
      obtain ⟨masters, others, sameTable, again, -⟩ := present card found
      refine ⟨fun bus slot func r => ?_, sameTable, again⟩
      by_cases here : bus = card.bus ∧ slot = card.slot.setWidth 5 ∧
          func = card.func.setWidth 3 ∧ r = commandRegister
      · obtain ⟨rfl, rfl, rfl, rfl⟩ := here
        exact Or.inr ⟨card, rfl, rfl, rfl, rfl, rfl, masters⟩
      · exact Or.inl (others bus slot func r here)

end OrbitOs.Drivers
