import OrbitOs.Machine.X86

/-!
# Segment and gate descriptors

How the CPU reads the eight bytes of a descriptor, and what it checks before it
loads a segment register or passes through a gate.
-/

set_option autoImplicit false

namespace OrbitOs.Machine

/-- The bytes of a descriptor in the order of their addresses. -/
abbrev DescriptorBytes := Fin 8 → Byte

/-- What LGDT and LIDT load: the offset of the last byte, and the bytes. -/
structure DescriptorTable where
  limit : BitVec 16
  byte : ℕ → Byte

def DescriptorTable.fetch (t : DescriptorTable) (index : ℕ) : Option DescriptorBytes :=
  if 8 * index + 7 ≤ t.limit.toNat then some fun k => t.byte (8 * index + k) else none

namespace Selector

variable (s : Selector)

def index : ℕ := s.toNat / 8

/-- The requested privilege level. -/
def rpl : BitVec 2 := s.extractLsb' 0 2

/-- Set for the local table, which the kernel does not have. -/
def isLocal : Bool := s.getLsbD 2

theorem toNat_eq : s.toNat = 8 * s.index + 4 * s.isLocal.toNat + s.rpl.toNat := by
  have low : s.rpl.toNat = s.toNat % 4 := by
    simp [rpl, BitVec.extractLsb'_toNat]
  have middle : s.isLocal.toNat = s.toNat / 4 % 2 := by
    rw [isLocal, BitVec.getLsbD, Nat.testBit_eq_decide_div_mod_eq]
    by_cases odd : s.toNat / 2 ^ 2 % 2 = 1
    · rw [decide_eq_true odd, Bool.toNat_true]
      omega
    · rw [decide_eq_false odd, Bool.toNat_false]
      omega
  rw [low, middle, index]
  omega

end Selector

/-! ## The access byte -/

structure AccessRights where
  present : Bool
  dpl : BitVec 2
  /-- Clear for gates and task state segments. -/
  segment : Bool
  type : BitVec 4
  deriving DecidableEq

def AccessRights.decode (v : Byte) : AccessRights where
  present := v.getLsbD 7
  dpl := v.extractLsb' 5 2
  segment := v.getLsbD 4
  type := v.extractLsb' 0 4

namespace AccessRights

variable (a : AccessRights)

def isCode : Bool := a.segment && a.type.getLsbD 3

def isData : Bool := a.segment && !a.type.getLsbD 3

/-- Data that may be read, or code that may. -/
def isReadable : Bool := a.isData || (a.isCode && a.type.getLsbD 1)

def isConforming : Bool := a.isCode && a.type.getLsbD 2

/-- DS, ES, FS or GS may be loaded at privilege level `cpl`. -/
def loadsData (cpl rpl : BitVec 2) : Bool :=
  a.present && a.isReadable && (a.isConforming || (decide (cpl ≤ a.dpl) && decide (rpl ≤ a.dpl)))

/-- A far jump at privilege level `cpl` may load CS. -/
def loadsCode (cpl rpl : BitVec 2) : Bool :=
  a.present && a.isCode &&
    if a.isConforming then decide (a.dpl ≤ cpl) else decide (a.dpl = cpl) && decide (rpl ≤ cpl)

/-- LTR takes an available 32-bit task state segment. -/
def loadsTask : Bool := a.present && !a.segment && decide (a.type = 9)

end AccessRights

/-! ## Segments -/

@[ext]
structure Segment where
  base : Word
  limit : BitVec 20
  access : Byte
  flags : BitVec 4

namespace Segment

def decode (b : DescriptorBytes) : Segment where
  base := b 7 ++ (b 4 ++ (b 3 ++ b 2))
  limit := (b 6).extractLsb' 0 4 ++ (b 1 ++ b 0)
  access := b 5
  flags := (b 6).extractLsb' 4 4

/-- The offset of the last byte; the limit counts pages when flag 3 is set. -/
def last (s : Segment) : ℕ :=
  if s.flags.getLsbD 3 then s.limit.toNat * 4096 + 4095 else s.limit.toNat

end Segment

/-- The segment of a selector that is not null. -/
def segmentOf (gdt : DescriptorTable) (s : Selector) : Option Segment :=
  if s.isLocal then none else (gdt.fetch s.index).map Segment.decode

/-- The access byte of a segment that is in the table. -/
def accessOf (gdt : DescriptorTable) (s : Selector) : Option AccessRights :=
  (segmentOf gdt s).map fun segment => AccessRights.decode segment.access

def LoadsData (gdt : DescriptorTable) (cpl : BitVec 2) (s : Selector) : Prop :=
  ∃ a, accessOf gdt s = some a ∧ a.loadsData cpl s.rpl = true

def LoadsCode (gdt : DescriptorTable) (cpl : BitVec 2) (s : Selector) : Prop :=
  ∃ a, accessOf gdt s = some a ∧ a.loadsCode cpl s.rpl = true

def LoadsTask (gdt : DescriptorTable) (s : Selector) : Prop :=
  ∃ a, accessOf gdt s = some a ∧ a.loadsTask = true

/-! ## Gates -/

@[ext]
structure Gate where
  offset : Word
  selector : Selector
  access : AccessRights

def Gate.decode (b : DescriptorBytes) : Gate where
  offset := b 7 ++ (b 6 ++ (b 1 ++ b 0))
  selector := b 3 ++ b 2
  access := AccessRights.decode (b 5)

/-- What raises an interrupt: a device or a fault, or an `int` instruction at a
privilege level. -/
inductive Cause
  | event
  | instruction (cpl : BitVec 2)

/-- A device and a fault pass every gate. -/
def Cause.passes (a : AccessRights) : Cause → Bool
  | .event => true
  | .instruction cpl => decide (cpl ≤ a.dpl)

/-- The code that a vector leads to through a 32-bit interrupt gate. -/
def interruptTarget (idt : DescriptorTable) (cause : Cause) (vector : Byte) :
    Option (Selector × Word) :=
  match (idt.fetch vector.toNat).map Gate.decode with
  | none => none
  | some gate =>
    if gate.access.present && !gate.access.segment && decide (gate.access.type = 0xE) &&
        cause.passes gate.access then
      some (gate.selector, gate.offset)
    else none

end OrbitOs.Machine
