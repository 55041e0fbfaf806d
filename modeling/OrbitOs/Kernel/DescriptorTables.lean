import OrbitOs.Machine.Descriptors
import OrbitOs.Kernel.Transparency

/-!
# The descriptor tables of kernel/gdt.c, kernel/idt.c and kernel/isr.c

The packed structures are filled field by field and read by the CPU as bytes.
-/

set_option autoImplicit false

namespace OrbitOs.Kernel

open OrbitOs.Machine

/-! ## The global descriptor table -/

structure GdtEntry where
  limitLow : BitVec 16
  baseLow : BitVec 16
  baseMiddle : Byte
  access : Byte
  granularity : Byte
  baseHigh : Byte

namespace GdtEntry

/-- The packed layout. -/
def bytes (e : GdtEntry) : DescriptorBytes :=
  ![e.limitLow.extractLsb' 0 8, e.limitLow.extractLsb' 8 8, e.baseLow.extractLsb' 0 8,
    e.baseLow.extractLsb' 8 8, e.baseMiddle, e.access, e.granularity, e.baseHigh]

/-- What `gdt_set_gate` puts into an entry. -/
def encode (base limit : Word) (access gran : Byte) : GdtEntry where
  baseLow := (base &&& 0xFFFF).setWidth 16
  baseMiddle := ((base >>> 16) &&& 0xFF).setWidth 8
  baseHigh := ((base >>> 24) &&& 0xFF).setWidth 8
  limitLow := (limit &&& 0xFFFF).setWidth 16
  granularity := ((limit >>> 16) &&& 0x0F).setWidth 8 ||| (gran &&& 0xF0)
  access := access

end GdtEntry

/-- `gdt_entries` -/
abbrev GdtEntries := Fin 6 → GdtEntry

def gdtSetGate (entries : GdtEntries) (num : Fin 6) (base limit : Word) (access gran : Byte) :
    GdtEntries := Function.update entries num (.encode base limit access gran)

/-- What the kernel puts into the task state segment; its other fields are zero. -/
structure TssEntry where
  esp0 : Word
  ss0 : Word
  es : Word
  cs : Word
  ss : Word
  ds : Word
  fs : Word
  gs : Word
  iomapBase : BitVec 16

/-- `sizeof(tss)` -/
def tssSize : ℕ := 25 * 4 + 2 + 2

def tssWrite (tssAddr : Word) (entries : GdtEntries) (num : Fin 6) (ss0 : BitVec 16)
    (esp0 : Word) : GdtEntries × TssEntry :=
  (gdtSetGate entries num tssAddr (BitVec.ofNat 32 tssSize) 0xE9 0x00,
    { esp0 := esp0, ss0 := ss0.setWidth 32, cs := 0x0B, ss := 0x13, ds := 0x13, es := 0x13,
      fs := 0x13, gs := 0x13, iomapBase := BitVec.ofNat 16 tssSize })

/-- `tss_set_stack` -/
def TssEntry.setStack (tss : TssEntry) (kernelSs kernelEsp : Word) : TssEntry :=
  { tss with ss0 := kernelSs, esp0 := kernelEsp }

/-- `gdt_initialize` up to the two flushes. -/
def gdtInitialize (tssAddr : Word) (entries : GdtEntries) : GdtEntries × TssEntry :=
  let entries := gdtSetGate entries 0 0 0 0 0
  let entries := gdtSetGate entries 1 0 0xFFFFFFFF 0x9A 0xCF
  let entries := gdtSetGate entries 2 0 0xFFFFFFFF 0x92 0xCF
  let entries := gdtSetGate entries 3 0 0xFFFFFFFF 0xFA 0xCF
  let entries := gdtSetGate entries 4 0 0xFFFFFFFF 0xF2 0xCF
  tssWrite tssAddr entries 5 0x10 0

/-- `gdt_ptr`; the CPU reads entry `k / 8` from byte `k` on. -/
def gdtTable (entries : GdtEntries) : DescriptorTable where
  limit := 8 * 6 - 1
  byte k := if small : k / 8 < 6 then
      (entries ⟨k / 8, small⟩).bytes ⟨k % 8, Nat.mod_lt k (by decide)⟩
    else 0

/-! ## The interrupt descriptor table -/

structure IdtEntry where
  baseLow : BitVec 16
  sel : BitVec 16
  always0 : Byte
  flags : Byte
  baseHigh : BitVec 16

namespace IdtEntry

/-- The packed layout. -/
def bytes (e : IdtEntry) : DescriptorBytes :=
  ![e.baseLow.extractLsb' 0 8, e.baseLow.extractLsb' 8 8, e.sel.extractLsb' 0 8,
    e.sel.extractLsb' 8 8, e.always0, e.flags, e.baseHigh.extractLsb' 0 8,
    e.baseHigh.extractLsb' 8 8]

/-- What `idt_set_gate` puts into an entry. -/
def encode (base : Word) (sel : BitVec 16) (flags : Byte) : IdtEntry where
  baseLow := (base &&& 0xFFFF).setWidth 16
  baseHigh := ((base >>> 16) &&& 0xFFFF).setWidth 16
  sel := sel
  always0 := 0
  flags := flags

end IdtEntry

/-- `idt_entries` -/
abbrev IdtEntries := Byte → IdtEntry

def idtSetGate (entries : IdtEntries) (num : Byte) (base : Word) (sel : BitVec 16)
    (flags : Byte) : IdtEntries := Function.update entries num (.encode base sel flags)

/-- `idt_initialize` up to the flush: all bytes are zero. -/
def idtInitialize : IdtEntries := fun _ => ⟨0, 0, 0, 0, 0⟩

/-- `idt_ptr` -/
def idtTable (entries : IdtEntries) : DescriptorTable where
  limit := 8 * 256 - 1
  byte k := (entries (BitVec.ofNat 8 (k / 8))).bytes ⟨k % 8, Nat.mod_lt k (by decide)⟩

/-- The symbols of the stubs in interrupts.s: `isr0` to `isr31` and `isr128`,
`irq0` to `irq15`. -/
structure StubAddresses where
  isr : ℕ → Word
  irq : ℕ → Word

/-- The gates of `isr_initialize` in the order of the source. -/
def isrGates (stubs : StubAddresses) : List (Byte × Word × Byte) :=
  (List.range 32).map (fun i => (BitVec.ofNat 8 i, stubs.isr i, 0x8E)) ++
    (List.range 16).map (fun i => (BitVec.ofNat 8 (32 + i), stubs.irq i, 0x8E)) ++
    [(128, stubs.isr 128, 0xEE)]

/-- The calls of `idt_set_gate` in `isr_initialize`; `pic_remap` between them does
not touch the table. -/
def isrInitialize (stubs : StubAddresses) (entries : IdtEntries) : IdtEntries :=
  (isrGates stubs).foldl (fun entries gate => idtSetGate entries gate.1 gate.2.1 0x08 gate.2.2)
    entries

/-! ## What the CPU reads -/

/-- A field cut out by a shift and a mask of `w` ones. -/
theorem shifted_field (v mask : Word) (s w : ℕ) (ones : ∀ i < w, mask.getLsbD i = true) :
    ((v >>> s) &&& mask).setWidth w = v.extractLsb' s w := by
  apply BitVec.eq_of_getLsbD_eq
  intro i bound
  rw [BitVec.getLsbD_setWidth, BitVec.getLsbD_and, BitVec.getLsbD_ushiftRight, ones i bound,
    BitVec.getLsbD_extractLsb', Bool.and_true]

theorem masked_field (v mask : Word) (w : ℕ) (ones : ∀ i < w, mask.getLsbD i = true) :
    (v &&& mask).setWidth w = v.extractLsb' 0 w := by
  have field := shifted_field v mask 0 w ones
  rwa [BitVec.ushiftRight_zero] at field

theorem granularity_eq (limit : Word) (gran : Byte) :
    ((limit >>> 16) &&& 0x0F).setWidth 8 ||| (gran &&& 0xF0) =
      gran.extractLsb' 4 4 ++ limit.extractLsb' 16 4 := by
  have low : ∀ i < 8, (0x0F : Word).getLsbD i = decide (i < 4) := by decide
  have high : ∀ i < 8, (0xF0 : Byte).getLsbD i = decide (4 ≤ i) := by decide
  apply BitVec.eq_of_getLsbD_eq
  intro i bound
  rw [BitVec.getLsbD_or, BitVec.getLsbD_setWidth, BitVec.getLsbD_and, BitVec.getLsbD_and,
    BitVec.getLsbD_ushiftRight, low i bound, high i bound, BitVec.getLsbD_append,
    BitVec.getLsbD_extractLsb', BitVec.getLsbD_extractLsb', decide_eq_true bound]
  by_cases small : i < 4
  · have above : ¬ 4 ≤ i := by omega
    simp [small, above]
  · have above : 4 ≤ i := by omega
    have inside : i - 4 < 4 := by omega
    have index : 4 + (i - 4) = i := by omega
    simp [small, above, inside, index]

theorem GdtEntry.decode_encode (base limit : Word) (access gran : Byte) :
    Segment.decode (GdtEntry.encode base limit access gran).bytes =
      ⟨base, limit.extractLsb' 0 20, access, gran.extractLsb' 4 4⟩ := by
  have byte : ∀ i < 8, (0xFF : Word).getLsbD i = true := by decide
  have half : ∀ i < 16, (0xFFFF : Word).getLsbD i = true := by decide
  have encoded : GdtEntry.encode base limit access gran =
      { baseLow := base.extractLsb' 0 16, baseMiddle := base.extractLsb' 16 8
        baseHigh := base.extractLsb' 24 8, limitLow := limit.extractLsb' 0 16
        granularity := gran.extractLsb' 4 4 ++ limit.extractLsb' 16 4, access := access } := by
    rw [GdtEntry.encode, masked_field base _ 16 half, masked_field limit _ 16 half,
      shifted_field base _ 16 8 byte, shifted_field base _ 24 8 byte, granularity_eq]
  rw [encoded]
  have baseBytes : base.extractLsb' 24 8 ++ (base.extractLsb' 16 8 ++
      ((base.extractLsb' 0 16).extractLsb' 8 8 ++ (base.extractLsb' 0 16).extractLsb' 0 8)) =
        base := by grind
  have limitBytes : (gran.extractLsb' 4 4 ++ limit.extractLsb' 16 4).extractLsb' 0 4 ++
      ((limit.extractLsb' 0 16).extractLsb' 8 8 ++ (limit.extractLsb' 0 16).extractLsb' 0 8) =
        limit.extractLsb' 0 20 := by grind
  have flags : (gran.extractLsb' 4 4 ++ limit.extractLsb' 16 4).extractLsb' 4 4 =
      gran.extractLsb' 4 4 := by grind
  exact Segment.ext baseBytes limitBytes rfl flags

theorem IdtEntry.decode_encode (base : Word) (sel : BitVec 16) (flags : Byte) :
    Gate.decode (IdtEntry.encode base sel flags).bytes =
      ⟨base, sel, AccessRights.decode flags⟩ := by
  have half : ∀ i < 16, (0xFFFF : Word).getLsbD i = true := by decide
  have encoded : IdtEntry.encode base sel flags =
      { baseLow := base.extractLsb' 0 16, sel := sel, always0 := 0, flags := flags
        baseHigh := base.extractLsb' 16 16 } := by
    rw [IdtEntry.encode, masked_field base _ 16 half, shifted_field base _ 16 16 half]
  rw [encoded]
  have offset : (base.extractLsb' 16 16).extractLsb' 8 8 ++
      ((base.extractLsb' 16 16).extractLsb' 0 8 ++ ((base.extractLsb' 0 16).extractLsb' 8 8 ++
        (base.extractLsb' 0 16).extractLsb' 0 8)) = base := by grind
  have selector : sel.extractLsb' 8 8 ++ sel.extractLsb' 0 8 = sel := by grind
  exact Gate.ext offset selector rfl

/-- The CPU finds the entry of an index, if the table has it. -/
theorem gdtTable_fetch (entries : GdtEntries) (i : ℕ) :
    (gdtTable entries).fetch i =
      if small : i < 6 then some (entries ⟨i, small⟩).bytes else none := by
  unfold DescriptorTable.fetch
  have limit : (gdtTable entries).limit.toNat = 47 := rfl
  rw [limit]
  by_cases small : i < 6
  · rw [if_pos (by omega), dif_pos small]
    congr 1
    funext k
    have index : (8 * i + k.val) / 8 = i := by omega
    have rest : (8 * i + k.val) % 8 = k.val := by omega
    change (if inside : (8 * i + k.val) / 8 < 6 then
      (entries ⟨(8 * i + k.val) / 8, inside⟩).bytes ⟨(8 * i + k.val) % 8, _⟩ else 0) = _
    simp only [index, rest, small, dite_true]
  · rw [if_neg (by omega), dif_neg small]

theorem idtTable_fetch (entries : IdtEntries) (v : Byte) :
    (idtTable entries).fetch v.toNat = some (entries v).bytes := by
  have limit : (idtTable entries).limit.toNat = 2047 := rfl
  have bound := v.isLt
  unfold DescriptorTable.fetch
  rw [limit, if_pos (by omega)]
  congr 1
  funext k
  have index : (8 * v.toNat + k.val) / 8 = v.toNat := by omega
  have rest : (8 * v.toNat + k.val) % 8 = k.val := by omega
  change (entries (BitVec.ofNat 8 ((8 * v.toNat + k.val) / 8))).bytes
    ⟨(8 * v.toNat + k.val) % 8, _⟩ = _
  simp only [index, rest, BitVec.ofNat_toNat, BitVec.setWidth_eq]

/-! ## The segments of the kernel -/

section Gdt

/-- The segments of `gdt_initialize`. -/
def kernelSegment (tssAddr : Word) : Fin 6 → Segment :=
  ![⟨0, 0, 0, 0⟩, ⟨0, 0xFFFFF, 0x9A, 0xC⟩, ⟨0, 0xFFFFF, 0x92, 0xC⟩, ⟨0, 0xFFFFF, 0xFA, 0xC⟩,
    ⟨0, 0xFFFFF, 0xF2, 0xC⟩, ⟨tssAddr, 104, 0xE9, 0⟩]

variable (tssAddr : Word) (entries : GdtEntries)

theorem gdtInitialize_decode (i : Fin 6) :
    Segment.decode ((gdtInitialize tssAddr entries).1 i).bytes = kernelSegment tssAddr i := by
  fin_cases i <;> exact GdtEntry.decode_encode _ _ _ _

theorem segmentOf_gdtInitialize (s : Selector) :
    segmentOf (gdtTable (gdtInitialize tssAddr entries).1) s =
      if s.isLocal then none
      else if small : s.index < 6 then some (kernelSegment tssAddr ⟨s.index, small⟩) else none := by
  rw [segmentOf, gdtTable_fetch]
  by_cases inLocal : s.isLocal = true
  · rw [if_pos inLocal, if_pos inLocal]
  · rw [if_neg inLocal, if_neg inLocal]
    by_cases small : s.index < 6
    · rw [dif_pos small, dif_pos small, Option.map_some, gdtInitialize_decode]
    · rw [dif_neg small, dif_neg small, Option.map_none]

/-- The access bytes of `gdt_initialize`. -/
def kernelAccess : Fin 6 → AccessRights :=
  fun i => AccessRights.decode (![0, 0x9A, 0x92, 0xFA, 0xF2, 0xE9] i)

theorem accessOf_gdtInitialize (s : Selector) :
    accessOf (gdtTable (gdtInitialize tssAddr entries).1) s =
      if s.isLocal then none
      else if small : s.index < 6 then some (kernelAccess ⟨s.index, small⟩) else none := by
  have access : ∀ i, AccessRights.decode (kernelSegment tssAddr i).access = kernelAccess i := by
    intro i
    fin_cases i <;> rfl
  rw [accessOf, segmentOf_gdtInitialize]
  by_cases inLocal : s.isLocal = true
  · rw [if_pos inLocal, if_pos inLocal, Option.map_none]
  · rw [if_neg inLocal, if_neg inLocal]
    by_cases small : s.index < 6
    · rw [dif_pos small, dif_pos small, Option.map_some, access]
    · rw [dif_neg small, dif_neg small, Option.map_none]

/-- A check of the access byte and the requested level, made for every selector. -/
theorem exists_access_iff {check : AccessRights → BitVec 2 → Bool} {passes : ℕ → BitVec 2 → Prop}
    (table : ∀ (i : Fin 6) (rpl : BitVec 2), check (kernelAccess i) rpl = true ↔ passes i rpl)
    (bound : ∀ i rpl, passes i rpl → i < 6) (s : Selector) :
    (∃ a, accessOf (gdtTable (gdtInitialize tssAddr entries).1) s = some a ∧
      check a s.rpl = true) ↔ s.isLocal = false ∧ passes s.index s.rpl := by
  rw [accessOf_gdtInitialize]
  by_cases inLocal : s.isLocal = true
  · simp [inLocal]
  · by_cases small : s.index < 6
    · simp [inLocal, small, table]
    · have outside : ¬ passes s.index s.rpl := mt (bound _ _) small
      simp [inLocal, small, outside]

theorem selector_eq_iff {s q : Selector} :
    s = q ↔ s.isLocal = q.isLocal ∧ s.index = q.index ∧ s.rpl = q.rpl := by
  constructor
  · rintro rfl
    exact ⟨rfl, rfl, rfl⟩
  · rintro ⟨inLocal, index, rpl⟩
    apply BitVec.eq_of_toNat_eq
    rw [s.toNat_eq, q.toNat_eq, inLocal, index, rpl]

theorem kernelCode_table (i : Fin 6) (rpl : BitVec 2) :
    (kernelAccess i).loadsCode 0 rpl = true ↔ i.val = 1 ∧ rpl = 0 := by
  revert i rpl
  decide

theorem userCode_table (i : Fin 6) (rpl : BitVec 2) :
    (kernelAccess i).loadsCode 3 rpl = true ↔ i.val = 3 := by
  revert i rpl
  decide

theorem kernelData_table (i : Fin 6) (rpl : BitVec 2) :
    (kernelAccess i).loadsData 0 rpl = true ↔
      (i.val = 1 ∧ rpl = 0) ∨ (i.val = 2 ∧ rpl = 0) ∨ i.val = 3 ∨ i.val = 4 := by
  revert i rpl
  decide

theorem userData_table (i : Fin 6) (rpl : BitVec 2) :
    (kernelAccess i).loadsData 3 rpl = true ↔ i.val = 3 ∨ i.val = 4 := by
  revert i rpl
  decide

theorem task_table (i : Fin 6) (_ : BitVec 2) :
    (kernelAccess i).loadsTask = true ↔ i.val = 5 := by
  revert i
  decide

/-- The table after boot. -/
def bootGdt : DescriptorTable := gdtTable (gdtInitialize tssAddr entries).1

/-- Among all selectors, a far jump of the kernel loads 0x08 alone, and privilege
level 3 loads those of the user segments alone. -/
theorem segments_separate_privileges (s : Selector) :
    (LoadsCode (bootGdt tssAddr entries) 0 s ↔ s = 0x08) ∧
      (LoadsCode (bootGdt tssAddr entries) 3 s ↔ s.isLocal = false ∧ s.index = 3) ∧
      (LoadsData (bootGdt tssAddr entries) 0 s ↔
        s = 0x08 ∨ s = 0x10 ∨ (s.isLocal = false ∧ (s.index = 3 ∨ s.index = 4))) ∧
      (LoadsData (bootGdt tssAddr entries) 3 s ↔
        s.isLocal = false ∧ (s.index = 3 ∨ s.index = 4)) ∧
      (LoadsTask (bootGdt tssAddr entries) s ↔ s.isLocal = false ∧ s.index = 5) := by
  have code : s = 0x08 ↔ s.isLocal = false ∧ s.index = 1 ∧ s.rpl = 0 := selector_eq_iff
  have data : s = 0x10 ↔ s.isLocal = false ∧ s.index = 2 ∧ s.rpl = 0 := selector_eq_iff
  rw [code, data]
  refine ⟨?_, ?_, ?_, ?_, ?_⟩
  · exact @exists_access_iff tssAddr entries (fun a rpl => a.loadsCode 0 rpl)
      (fun i rpl => i = 1 ∧ rpl = 0) kernelCode_table (fun i rpl passes => by omega) s
  · exact @exists_access_iff tssAddr entries (fun a rpl => a.loadsCode 3 rpl)
      (fun i _ => i = 3) userCode_table (fun i rpl passes => by omega) s
  · have kernelData := @exists_access_iff tssAddr entries (fun a rpl => a.loadsData 0 rpl)
      (fun i rpl => (i = 1 ∧ rpl = 0) ∨ (i = 2 ∧ rpl = 0) ∨ i = 3 ∨ i = 4) kernelData_table
      (fun i rpl passes => by omega) s
    refine kernelData.trans ?_
    rw [and_or_left, and_or_left]
  · exact @exists_access_iff tssAddr entries (fun a rpl => a.loadsData 3 rpl)
      (fun i _ => i = 3 ∨ i = 4) userData_table (fun i rpl passes => by omega) s
  · exact @exists_access_iff tssAddr entries (fun a _ => a.loadsTask)
      (fun i _ => i = 5) task_table (fun i rpl passes => by omega) s

end Gdt

end OrbitOs.Kernel
