import OrbitOs.Kernel.Delivery
import OrbitOs.Kernel.DescriptorTables

/-!
# From a vector to its handler

The gates of kernel/isr.c, what may pass them, and the table of C handlers.
-/

set_option autoImplicit false

namespace OrbitOs.Kernel

open OrbitOs.Machine OrbitOs.Drivers.Pic

/-! ## The gates -/

/-- Later gates of other vectors leave an entry alone. -/
theorem foldl_idtSetGate_of_not_mem {gates : List (Byte × Word × Byte)} {v : Byte}
    (absent : v ∉ gates.map Prod.fst) (entries : IdtEntries) :
    gates.foldl (fun entries gate => idtSetGate entries gate.1 gate.2.1 0x08 gate.2.2) entries v =
      entries v := by
  induction gates generalizing entries with
  | nil => rfl
  | cons gate rest ih =>
      rw [List.map_cons, List.mem_cons, not_or] at absent
      rw [List.foldl_cons, ih absent.2]
      exact Function.update_of_ne absent.1 _ _

theorem foldl_idtSetGate_of_mem {gates : List (Byte × Word × Byte)}
    (distinct : (gates.map Prod.fst).Nodup) {v : Byte} {base : Word} {flags : Byte}
    (present : (v, base, flags) ∈ gates) (entries : IdtEntries) :
    gates.foldl (fun entries gate => idtSetGate entries gate.1 gate.2.1 0x08 gate.2.2) entries v =
      .encode base 0x08 flags := by
  induction gates generalizing entries with
  | nil => cases present
  | cons gate rest ih =>
      rw [List.map_cons, List.nodup_cons] at distinct
      rcases List.mem_cons.mp present with rfl | later
      · rw [List.foldl_cons, foldl_idtSetGate_of_not_mem distinct.1]
        exact Function.update_self _ _ _
      · exact ih distinct.2 later _

/-- The vectors with a gate. -/
def gateVectors : List Byte :=
  (List.range 32).map (BitVec.ofNat 8) ++ (List.range 16).map (fun i => BitVec.ofNat 8 (32 + i)) ++
    [128]

theorem isrGates_vectors (stubs : StubAddresses) :
    (isrGates stubs).map Prod.fst = gateVectors := by
  simp only [isrGates, gateVectors, List.map_append, List.map_map, List.map_cons, List.map_nil]
  rfl

theorem gateVectors_nodup : gateVectors.Nodup := by decide

/-- The symbol that a vector leads to. -/
def StubAddresses.ofVector (stubs : StubAddresses) (v : Byte) : Word :=
  if 32 ≤ v.toNat ∧ v.toNat < 48 then stubs.irq (v.toNat - 32) else stubs.isr v.toNat

/-- The flags of a gate of `isr_initialize`. -/
def gateFlags (v : Byte) : Byte := if v = 128 then 0xEE else 0x8E

theorem ofVector_isSome {v : ℕ} : (Stub.ofVector v).isSome ↔ v < 48 ∨ v = 128 := by
  have codes : ∀ k ∈ [8, 10, 11, 12, 13, 14, 17, 21, 30], k < 48 := by decide
  unfold Stub.ofVector
  split_ifs with coded plain device
  · exact iff_of_true rfl (.inl (codes v coded))
  · refine iff_of_true rfl ?_
    omega
  · exact iff_of_true rfl (.inl device)
  · refine iff_of_false Bool.false_ne_true ?_
    omega

theorem mem_isrGates (stubs : StubAddresses) {v : Byte} (has : (Stub.ofVector v.toNat).isSome) :
    (v, stubs.ofVector v, gateFlags v) ∈ isrGates stubs := by
  have vector : BitVec.ofNat 8 v.toNat = v := by rw [BitVec.ofNat_toNat, BitVec.setWidth_eq]
  unfold isrGates
  simp only [List.mem_append, List.mem_map, List.mem_range, List.mem_singleton]
  rcases ofVector_isSome.mp has with small | syscall
  · have plain : gateFlags v = 0x8E := by
      refine if_neg fun same => ?_
      rw [same] at small
      exact absurd small (by decide)
    rw [plain]
    by_cases exception : v.toNat < 32
    · refine .inl (.inl ⟨v.toNat, exception, ?_⟩)
      rw [vector, StubAddresses.ofVector, if_neg (by omega)]
    · refine .inl (.inr ⟨v.toNat - 32, by omega, ?_⟩)
      have index : 32 + (v.toNat - 32) = v.toNat := by omega
      rw [index, vector, StubAddresses.ofVector, if_pos (by omega)]
  · obtain rfl : v = 128 := BitVec.eq_of_toNat_eq syscall
    exact .inr rfl

theorem isrInitialize_entry (stubs : StubAddresses) (entries : IdtEntries) {v : Byte}
    (has : (Stub.ofVector v.toNat).isSome) :
    isrInitialize stubs entries v = .encode (stubs.ofVector v) 0x08 (gateFlags v) := by
  refine foldl_idtSetGate_of_mem ?_ (mem_isrGates stubs has) entries
  rw [isrGates_vectors]
  exact gateVectors_nodup

theorem not_mem_gateVectors {v : Byte} (has : ¬ (Stub.ofVector v.toNat).isSome) :
    v ∉ gateVectors := by
  rw [ofVector_isSome] at has
  unfold gateVectors
  simp only [List.mem_append, List.mem_map, List.mem_range, List.mem_singleton]
  rintro ((⟨i, bound, rfl⟩ | ⟨i, bound, rfl⟩) | rfl)
  · rw [BitVec.toNat_ofNat] at has
    omega
  · rw [BitVec.toNat_ofNat] at has
    omega
  · exact has (.inr rfl)

/-- The table after boot. -/
def bootIdt (stubs : StubAddresses) : DescriptorTable :=
  idtTable (isrInitialize stubs idtInitialize)

/-- A gate lets an `int` instruction of privilege level `cpl` pass. -/
def Permits (v : Byte) : Cause → Prop
  | .event => True
  | .instruction cpl => cpl = 0 ∨ v = 128

theorem gateFlags_passes (v : Byte) (cause : Cause) :
    cause.passes (AccessRights.decode (gateFlags v)) = true ↔ Permits v cause := by
  cases cause with
  | event => exact iff_of_true rfl trivial
  | instruction cpl =>
      by_cases syscall : v = 128
      · subst syscall
        have all : ∀ cpl : BitVec 2, cpl ≤ (AccessRights.decode (gateFlags 128)).dpl := by decide
        exact iff_of_true (decide_eq_true (all cpl)) (.inr rfl)
      · have kernel : ∀ cpl : BitVec 2, cpl ≤ (AccessRights.decode 0x8E).dpl ↔ cpl = 0 := by decide
        rw [Cause.passes, gateFlags, if_neg syscall, decide_eq_true_iff, kernel]
        exact (or_iff_left syscall).symm

theorem gateFlags_access (v : Byte) :
    (AccessRights.decode (gateFlags v)).present = true ∧
      (AccessRights.decode (gateFlags v)).segment = false ∧
      (AccessRights.decode (gateFlags v)).type = 0xE := by
  unfold gateFlags
  split <;> decide

/-- The CPU passes to the stub of the vector in the kernel code segment, or does
not pass at all. -/
theorem interruptTarget_bootIdt (stubs : StubAddresses) (cause : Cause) (v : Byte)
    (target : Selector × Word) :
    interruptTarget (bootIdt stubs) cause v = some target ↔
      (Stub.ofVector v.toNat).isSome ∧ Permits v cause ∧ target = (0x08, stubs.ofVector v) := by
  unfold interruptTarget bootIdt
  rw [idtTable_fetch, Option.map_some]
  by_cases has : (Stub.ofVector v.toNat).isSome
  · obtain ⟨present, system, type⟩ := gateFlags_access v
    rw [isrInitialize_entry stubs _ has, IdtEntry.decode_encode]
    have open_iff : ((AccessRights.decode (gateFlags v)).present &&
        !(AccessRights.decode (gateFlags v)).segment &&
          decide ((AccessRights.decode (gateFlags v)).type = 0xE) &&
            cause.passes (AccessRights.decode (gateFlags v))) = true ↔ Permits v cause := by
      rw [present, system, type, ← gateFlags_passes v cause]
      exact iff_of_eq rfl
    by_cases permits : Permits v cause
    · simp only [open_iff.mpr permits, if_true, Option.some.injEq]
      simp [has, permits, eq_comm]
    · simp only [Bool.eq_false_iff.mpr (mt open_iff.mp permits), Bool.false_eq_true, if_false]
      simp [permits]
  · have empty : isrInitialize stubs idtInitialize v = ⟨0, 0, 0, 0, 0⟩ := by
      refine (foldl_idtSetGate_of_not_mem ?_ _).trans rfl
      rw [isrGates_vectors]
      exact not_mem_gateVectors has
    have absent : (Gate.decode (isrInitialize stubs idtInitialize v).bytes).access.present =
        false := by
      rw [empty]
      rfl
    simp [absent, has]

/-! ## The handlers -/

/-- The functions that `register_interrupt_handler` is called with. -/
inductive CHandler
  | pitCallback
  | keyboardCallback
  | syscallHandler
  deriving DecidableEq

/-- `interrupt_handlers` -/
abbrev Handlers := ℕ → Option CHandler

def registerInterruptHandler (handlers : Handlers) (n : Byte) (handler : CHandler) : Handlers :=
  Function.update handlers n.toNat (some handler)

/-- What `isr_initialize`, `pit_initialize`, `keyboard_initialize` and
`syscall_initialize` make of the table, in that order. -/
def bootHandlers : Handlers :=
  registerInterruptHandler
    (registerInterruptHandler (registerInterruptHandler (fun _ => none) 32 .pitCallback) 33
      .keyboardCallback) 128 .syscallHandler

/-- What a C function does about an interrupt. -/
inductive Reaction
  | calls (handler : CHandler)
  | prints (text : String)
  | nothing
  deriving DecidableEq

def isrHandler (handlers : Handlers) (regs : Registers) : Code Reaction :=
  match handlers regs.intNo.toNat with
  | some handler => pure (.calls handler)
  | none => pure (.prints "Unhandled CPU Exception!\n")

def irqHandler (handlers : Handlers) (regs : Registers) : Code Reaction := do
  irqHandlerHead regs.intNo
  match handlers regs.intNo.toNat with
  | some handler => pure (.calls handler)
  | none => pure .nothing

/-- The C function that the common stub calls. -/
def Stub.cFunction : Stub → Handlers → Registers → Code Reaction
  | .irq _ => irqHandler
  | _ => isrHandler

/-- What becomes of a vector after boot. -/
def reaction (v : Byte) : Reaction :=
  if v = 32 then .calls .pitCallback
  else if v = 33 then .calls .keyboardCallback
  else if v = 128 then .calls .syscallHandler
  else if 32 ≤ v.toNat ∧ v.toNat < 48 then .nothing
  else .prints "Unhandled CPU Exception!\n"

theorem bootHandlers_apply (v : Byte) :
    bootHandlers v.toNat =
      if v = 128 then some .syscallHandler
      else if v = 33 then some .keyboardCallback
      else if v = 32 then some .pitCallback else none := by
  have index : ∀ w : Byte, v.toNat = w.toNat ↔ v = w := fun w => BitVec.toNat_inj
  unfold bootHandlers registerInterruptHandler
  rw [Function.update_apply, Function.update_apply, Function.update_apply]
  simp only [index]

theorem ofVector_irq {v : ℕ} {num : Word} (has : Stub.ofVector v = some (.irq num)) :
    32 ≤ v ∧ v < 48 ∧ num = BitVec.ofNat 32 v := by
  unfold Stub.ofVector at has
  by_cases coded : v ∈ [8, 10, 11, 12, 13, 14, 17, 21, 30]
  · rw [if_pos coded] at has
    cases has
  · rw [if_neg coded] at has
    by_cases plain : v < 32 ∨ v = 128
    · rw [if_pos plain] at has
      cases has
    · rw [if_neg plain] at has
      by_cases device : v < 48
      · rw [if_pos device] at has
        cases has
        exact ⟨by omega, device, rfl⟩
      · rw [if_neg device] at has
        cases has

theorem not_device_of_ofVector {v : ℕ} {stub : Stub} (has : Stub.ofVector v = some stub)
    (exception : stub.isDevice = false) : ¬ (32 ≤ v ∧ v < 48) := by
  have codes : ∀ k ∈ [8, 10, 11, 12, 13, 14, 17, 21, 30], k < 32 := by decide
  unfold Stub.ofVector at has
  split_ifs at has with coded plain device
  · have small := codes v coded
    omega
  · omega
  · cases has
    exact absurd exception Bool.noConfusion

/-- The handler of a vector with an interrupt from a device. -/
theorem irqHandler_reaction {v : Byte} (device : 32 ≤ v.toNat ∧ v.toNat < 48) {regs : Registers}
    (number : regs.intNo = BitVec.ofNat 32 v.toNat) :
    irqHandler bootHandlers regs =
      (irqHandlerHead (BitVec.ofNat 32 v.toNat)).bind fun _ => pure (reaction v) := by
  have index : regs.intNo.toNat = v.toNat := by
    rw [number, BitVec.toNat_ofNat]
    omega
  have other : v ≠ 128 := by
    rintro rfl
    exact absurd device (by decide)
  unfold irqHandler
  rw [index, bootHandlers_apply, number, if_neg other]
  unfold reaction
  rw [if_neg other, if_pos device]
  by_cases timer : v = 32
  · subst timer
    rfl
  · by_cases keyboard : v = 33
    · subst keyboard
      rfl
    · rw [if_neg keyboard, if_neg timer, if_neg timer, if_neg keyboard]
      rfl

theorem isrHandler_reaction {v : Byte} (exception : ¬ (32 ≤ v.toNat ∧ v.toNat < 48))
    {regs : Registers} (number : regs.intNo = BitVec.ofNat 32 v.toNat) :
    isrHandler bootHandlers regs = pure (reaction v) := by
  have index : regs.intNo.toNat = v.toNat := by
    rw [number, BitVec.toNat_ofNat]
    omega
  have timer : v ≠ 32 := by
    rintro rfl
    exact exception (by decide)
  have keyboard : v ≠ 33 := by
    rintro rfl
    exact exception (by decide)
  unfold isrHandler reaction
  rw [index, bootHandlers_apply, if_neg keyboard, if_neg timer, if_neg timer, if_neg keyboard,
    if_neg exception]
  by_cases syscall : v = 128
  · rw [if_pos syscall, if_pos syscall]
  · rw [if_neg syscall, if_neg syscall]

theorem cFunction_ofVector {v : Byte} {stub : Stub} (has : Stub.ofVector v.toNat = some stub)
    {regs : Registers} (number : regs.intNo = BitVec.ofNat 32 v.toNat) :
    stub.cFunction bootHandlers regs = (chipAccesses v).bind fun _ => pure (reaction v) := by
  unfold chipAccesses
  rw [has]
  cases stub with
  | irq num =>
      obtain ⟨low, high, rfl⟩ := ofVector_irq has
      exact irqHandler_reaction ⟨low, high⟩ number
  | isrErrCode num => exact isrHandler_reaction (not_device_of_ofVector has rfl) number
  | isrNoErrCode num => exact isrHandler_reaction (not_device_of_ofVector has rfl) number

/-! ## The whole way -/

/-- What passes a gate enters the stub of its vector with interrupts off, and the C
function that the stub calls finds the vector in `regs->int_no`, ends the
interrupt at the controllers if a device raised it, and picks the handler. -/
theorem interrupt_reaches_handler (stubs : StubAddresses) (cause : Cause) (v : Byte)
    {selector : Selector} {offset : Word}
    (passes : interruptTarget (bootIdt stubs) cause v = some (selector, offset)) (tss : Tss)
    (x : X86) :
    ∃ stub, Stub.ofVector v.toNat = some stub ∧ Permits v cause ∧ offset = stubs.ofVector v ∧
      ∀ code, stub.CodeFits code →
        ∀ y, y = (x.interrupt tss code selector offset).run (stub.entry ++ Stub.commonHead) →
          y.cpu.interruptsEnabled = false ∧ y.cpu.seg .cs = 0x08 ∧
            (Registers.passed y).intNo = BitVec.ofNat 32 v.toNat ∧
              (Registers.passed y).eip = x.cpu.eip ∧
                stub.cFunction bootHandlers (Registers.passed y) =
                  (chipAccesses v).bind fun _ => pure (reaction v) := by
  obtain ⟨has, permits, target⟩ := (interruptTarget_bootIdt stubs cause v _).mp passes
  obtain ⟨stub, vector⟩ := Option.isSome_iff_exists.mp has
  cases target
  refine ⟨stub, vector, permits, rfl, fun code fits y arrived => ?_⟩
  have sees := Stub.arrive_sees vector fits (y := y) arrived
  obtain ⟨cs, -⟩ := stub.arrive_selectors tss code (stubs.ofVector v) x
  have off := stub.arrive_disables tss code (stubs.ofVector v) x
  rw [Stub.arrive, ← arrived] at cs off
  exact ⟨off, cs, sees.intNo, sees.eip, cFunction_ofVector vector sees.intNo⟩

/-- A system call of user code. -/
theorem interrupt_reaches_handler_syscall :
    ∃ stub, Stub.ofVector 128 = some stub ∧ Permits 128 (.instruction 3) ∧
      (0x100400 : Word) = 0x100000 + 8 * 128 ∧ ∀ code, stub.CodeFits code →
        ∀ y, y = (Stub.userCode.interrupt ⟨0x10, 0x9000⟩ code 0x08 0x100400).run
            (stub.entry ++ Stub.commonHead) →
          y.cpu.interruptsEnabled = false ∧ y.cpu.seg .cs = 0x08 ∧
            (Registers.passed y).intNo = 128 ∧ (Registers.passed y).eip = Stub.userCode.cpu.eip ∧
              stub.cFunction bootHandlers (Registers.passed y) =
                (chipAccesses 128).bind fun _ => pure (.calls .syscallHandler) :=
  interrupt_reaches_handler ⟨fun n => BitVec.ofNat 32 (0x100000 + 8 * n), fun _ => 0⟩
    (.instruction 3) 128 ((interruptTarget_bootIdt _ _ _ _).mpr ⟨rfl, .inr rfl, rfl⟩) ⟨0x10, 0x9000⟩
    Stub.userCode

end OrbitOs.Kernel
