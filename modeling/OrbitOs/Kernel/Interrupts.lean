import OrbitOs.Machine.X86

/-!
# The interrupt stubs of kernel/interrupts.s

Every vector has an entry that pushes its number and a common stub around the
call of the C handler.  The gates of kernel/isr.c lead to the entries.
-/

set_option autoImplicit false

namespace OrbitOs.Kernel

open OrbitOs.Machine

/-- One use of a macro of interrupts.s. -/
inductive Stub
  | isrNoErrCode (num : Word)
  | isrErrCode (num : Word)
  | irq (num : Word)

namespace Stub

/-- What the interrupt flag holds back. -/
def isDevice : Stub → Bool
  | .irq _ => true
  | _ => false

/-- From the gate to the jump to the common stub. -/
def entry : Stub → List Instr
  | .isrNoErrCode num => [.cli, .pushImm 0, .pushImm num]
  | .isrErrCode num => [.cli, .pushImm num]
  | .irq num => [.cli, .pushImm 0, .pushImm num]

/-- `mov` into DS, ES, FS and GS. -/
def loadDataSegments (src : Reg) : List Instr :=
  [.movToSeg src .ds, .movToSeg src .es, .movToSeg src .fs, .movToSeg src .gs]

/-- The common stubs up to the call of the C handler. -/
def commonHead : List Instr :=
  [.pusha, .movFromSeg .ds .eax, .push .eax, .movImm16 0x10 .eax] ++ loadDataSegments .eax ++
    [.push .esp]

/-- The common stubs from the return of the C handler on. -/
def commonTail (saved : Reg) : List Instr :=
  [.addImm 4 .esp, .pop saved] ++ loadDataSegments saved ++ [.popa, .addImm 8 .esp, .sti, .iret]

/-- `isr_common_stub` restores the selectors from EAX, `irq_common_stub` from EBX. -/
def tail : Stub → List Instr
  | .isrNoErrCode _ => commonTail .eax
  | .isrErrCode _ => commonTail .eax
  | .irq _ => commonTail .ebx

/-- All gates lead to the kernel code segment. -/
def arrive (stub : Stub) (tss : Tss) (code : Option Word) (entryAddr : Word) (x : X86) : X86 :=
  (x.interrupt tss code 0x08 entryAddr).run (stub.entry ++ commonHead)

/-- An interrupt from the first push of the CPU to the `iret`; `handler` is what
the call of the C handler makes of the machine. -/
def roundTrip (stub : Stub) (tss : Tss) (code : Option Word) (entryAddr : Word)
    (handler : X86 → X86) (x : X86) : X86 :=
  (handler (stub.arrive tss code entryAddr x)).run stub.tail

/-! ## The interrupt flag -/

theorem cli_disables (x : X86) : (x.exec .cli).cpu.interruptsEnabled = false := by
  show (x.cpu.eflags &&& ~~~Cpu.interruptFlag).getLsbD 9 = false
  have inMask : Cpu.interruptFlag.getLsbD 9 = true := rfl
  rw [BitVec.getLsbD_and, BitVec.getLsbD_not, inMask, Bool.not_true, Bool.and_false,
    Bool.and_false]

theorem sti_enables (x : X86) : (x.exec .sti).cpu.interruptsEnabled = true := by
  show (x.cpu.eflags ||| Cpu.interruptFlag).getLsbD 9 = true
  have inMask : Cpu.interruptFlag.getLsbD 9 = true := rfl
  rw [BitVec.getLsbD_or, inMask, Bool.or_true]

theorem run_commonHead_eflags (x : X86) : (x.run commonHead).cpu.eflags = x.cpu.eflags := by
  simp [commonHead, loadDataSegments, X86.exec, X86.set16]

theorem run_entry_eflags (stub : Stub) (x : X86) :
    (x.run stub.entry).cpu.eflags = (x.exec .cli).cpu.eflags := by
  cases stub <;> simp [entry, X86.exec]

/-- Interrupts are off when the C handler is called. -/
theorem arrive_disables (stub : Stub) (tss : Tss) (code : Option Word) (entryAddr : Word)
    (x : X86) : (stub.arrive tss code entryAddr x).cpu.interruptsEnabled = false := by
  unfold arrive Cpu.interruptsEnabled
  rw [X86.run_append, run_commonHead_eflags, run_entry_eflags]
  exact cli_disables _

/-! ## The way back -/

/-- Up to the reload of the selectors. -/
theorem run_reload {saved : Reg} (other : saved ≠ .esp) (x : X86) :
    (x.run [.addImm 4 .esp, .pop saved]).mem = x.mem ∧
      (x.run [.addImm 4 .esp, .pop saved]).reg .esp = x.reg .esp + BitVec.ofNat 32 (4 * 2) := by
  refine ⟨rfl, ?_⟩
  have popped : (x.run [.addImm 4 .esp, .pop saved]).reg .esp =
      if .esp = saved then (x.exec (.addImm 4 .esp)).peek 0 else x.reg .esp + 4 + 4 := rfl
  rw [popped, if_neg other.symm, BitVec.add_assoc]
  rfl

theorem run_popRegisters (x : X86) :
    (x.run [.popa, .addImm 8 .esp, .sti]).mem = x.mem ∧
      (x.run [.popa, .addImm 8 .esp, .sti]).reg .esp =
        x.reg .esp + BitVec.ofNat 32 (4 * 10) := by
  have stack : (x.run [.popa, .addImm 8 .esp, .sti]).reg .esp =
      x.reg .esp + BitVec.ofNat 32 (4 * 8) + 8 := rfl
  rw [stack, BitVec.add_assoc]
  exact ⟨rfl, rfl⟩

/-- The `iret` finds the words that the CPU pushed 12 words above the pointer
that the C handler was given. -/
theorem run_commonTail {saved : Reg} (other : saved ≠ .esp) (x : X86) :
    ∃ y : X86, x.run (commonTail saved) = y.iret ∧ y.mem = x.mem ∧
      y.reg .esp = x.reg .esp + BitVec.ofNat 32 (4 * 12) := by
  obtain ⟨mem, esp⟩ := run_reload other x
  have loads : ∀ z : X86, (z.run (loadDataSegments saved)).mem = z.mem ∧
      (z.run (loadDataSegments saved)).reg .esp = z.reg .esp := fun z => ⟨rfl, rfl⟩
  have whole : x.run (commonTail saved) =
      (((x.run [.addImm 4 .esp, .pop saved]).run (loadDataSegments saved)).run
        [.popa, .addImm 8 .esp, .sti]).iret := rfl
  generalize x.run [.addImm 4 .esp, .pop saved] = popped at *
  obtain ⟨mem', esp'⟩ := loads popped
  generalize popped.run (loadDataSegments saved) = loaded at *
  obtain ⟨mem'', esp''⟩ := run_popRegisters loaded
  refine ⟨_, whole, mem''.trans (mem'.trans mem), ?_⟩
  rw [esp'', esp', esp, BitVec.add_assoc]
  rfl

theorem run_tail (stub : Stub) (x : X86) :
    ∃ y : X86, x.run stub.tail = y.iret ∧ y.mem = x.mem ∧
      y.reg .esp = x.reg .esp + BitVec.ofNat 32 (4 * 12) := by
  cases stub with
  | irq num => exact run_commonTail (by simp) x
  | _ => exact run_commonTail (by simp) x

theorem run_tail_mem (stub : Stub) (x : X86) : (x.run stub.tail).mem = x.mem := by
  obtain ⟨y, tail, mem, _⟩ := run_tail stub x
  rw [tail, X86.iret_mem, mem]

theorem run_tail_eflags (stub : Stub) (x : X86) : (x.run stub.tail).cpu.eflags = x.peek 14 := by
  obtain ⟨y, tail, mem, esp⟩ := run_tail stub x
  rw [tail, X86.iret_eflags, X86.peek, mem, esp, BitVec.add_assoc]
  rfl

/-! ## What is pushed -/

/-- The words pushed between the CPU's and the common stub's. -/
def entryWords : Stub → ℕ
  | .isrErrCode _ => 1
  | _ => 2

theorem run_entry_grew (stub : Stub) (x : X86) :
    X86.Grew stub.entryWords x (x.run stub.entry) := by
  have off : X86.Grew 0 x (x.exec .cli) := .none rfl rfl
  have once := fun num : Word => off.trans ((x.exec .cli).push_grew num)
  have twice := fun num : Word => (once 0).trans (((x.exec .cli).push 0).push_grew num)
  cases stub with
  | isrNoErrCode num => exact twice num
  | isrErrCode num => exact once num
  | irq num => exact twice num

theorem run_saveRegisters_grew (x : X86) :
    X86.Grew 9 x (x.run [.pusha, .movFromSeg .ds .eax, .push .eax, .movImm16 0x10 .eax]) := by
  have saved : X86.Grew 8 x (x.exec .pusha) := x.pushAll_grew x.pushaWords
  have selector : ∀ y : X86, X86.Grew 0 y (y.exec (.movFromSeg .ds .eax)) := fun y => .none rfl rfl
  have pushed : ∀ y : X86, X86.Grew 1 y (y.exec (.push .eax)) := fun y => y.push_grew _
  have loaded : ∀ y : X86, X86.Grew 0 y (y.exec (.movImm16 0x10 .eax)) := fun y => .none rfl rfl
  rw [X86.run_cons, X86.run_cons, X86.run_cons, X86.run_cons, X86.run_nil]
  exact ((saved.trans (selector _)).trans (pushed _)).trans (loaded _)

theorem run_commonHead_grew (x : X86) : X86.Grew 10 x (x.run commonHead) := by
  have loads : ∀ y : X86, X86.Grew 0 y (y.run (loadDataSegments .eax)) := fun y => .none rfl rfl
  have pointer : ∀ y : X86, X86.Grew 1 y (y.run [.push .esp]) := fun y => y.push_grew _
  exact ((run_saveRegisters_grew x).append loads).append pointer

/-- An error code comes from the CPU or from the stub, never from both. -/
def CodeFits : Stub → Option Word → Prop
  | .isrErrCode _, code => code.isSome
  | .isrNoErrCode _, code => code = none
  | .irq _, code => code = none

theorem CodeFits.entryWords {stub : Stub} {code : Option Word} (fits : stub.CodeFits code) :
    stub.entryWords + code.toList.length = 2 := by
  cases stub with
  | isrErrCode num =>
      obtain ⟨c, rfl⟩ := Option.isSome_iff_exists.mp fits
      rfl
  | isrNoErrCode num =>
      rw [show code = none from fits]
      rfl
  | irq num =>
      rw [show code = none from fits]
      rfl

theorem interrupt_eflags (tss : Tss) (code : Option Word) (entryAddr : Word) (x : X86) :
    (x.interrupt tss code 0x08 entryAddr).peek (2 + code.toList.length) = x.cpu.eflags := by
  rw [(x.interrupt_sameStack tss code 0x08 entryAddr).peek]
  apply X86.peek_pushAll
  · unfold X86.interruptWords
    by_cases ring0 : x.cpl = 0
    · rw [if_pos ring0]
      cases code <;> rfl
    · rw [if_neg ring0]
      cases code <;> rfl
  · have short : x.interruptWords.length ≤ 5 := by
      unfold X86.interruptWords
      split <;> simp
    have single : code.toList.length ≤ 1 := by
      cases code <;> simp
    rw [List.length_append]
    omega

/-- The interrupted flags lie where the tail looks for them. -/
theorem arrive_eflags {stub : Stub} {code : Option Word} (fits : stub.CodeFits code) (tss : Tss)
    (entryAddr : Word) (x : X86) : (stub.arrive tss code entryAddr x).peek 14 = x.cpu.eflags := by
  have grew := (run_entry_grew stub (x.interrupt tss code 0x08 entryAddr)).trans
    (run_commonHead_grew _)
  have two := fits.entryWords
  have total : 14 = 10 + stub.entryWords + (2 + code.toList.length) := by omega
  unfold arrive
  rw [X86.run_append, total, grew.peek (by omega)]
  exact interrupt_eflags tss code entryAddr x

/-- How many words the CPU and the stub push before the C handler is called. -/
def pushedWords (stub : Stub) (code : Option Word) (x : X86) : ℕ :=
  10 + (stub.entryWords + (x.interruptWords ++ code.toList).length)

theorem arrive_grew (stub : Stub) (tss : Tss) (code : Option Word) (entryAddr : Word) (x : X86) :
    X86.Grew (stub.pushedWords code x) (x.innerStack tss) (stub.arrive tss code entryAddr x) := by
  let saved := (x.innerStack tss).pushAll (x.interruptWords ++ code.toList)
  have byCpu : X86.Grew (x.interruptWords ++ code.toList).length (x.innerStack tss) saved :=
    X86.pushAll_grew _ _
  have same := x.interrupt_sameStack tss code 0x08 entryAddr
  have gate : X86.Grew 0 saved (x.interrupt tss code 0x08 entryAddr) := .none same.esp same.mem
  have entered := (byCpu.trans gate).trans (run_entry_grew stub _)
  have head := entered.trans (run_commonHead_grew _)
  unfold arrive
  rw [X86.run_append]
  rw [Nat.zero_add] at head
  exact head

/-- The word that the tail restores EFLAGS from is among them. -/
theorem arrive_flagsWord {stub : Stub} {code : Option Word} (fits : stub.CodeFits code) (tss : Tss)
    (entryAddr : Word) (x : X86) {a : Word}
    (inWord : Within ((stub.arrive tss code entryAddr x).reg .esp + BitVec.ofNat 32 (4 * 14)) 4 a) :
    (x.innerStack tss).Below (stub.pushedWords code x) a := by
  rw [(stub.arrive_grew tss code entryAddr x).esp] at inWord
  refine inWord.offset ?_
  have three : 3 ≤ x.interruptWords.length := by
    unfold X86.interruptWords
    rw [List.length_append]
    exact Nat.le_add_left 3 _
  have two := fits.entryWords
  unfold pushedWords
  rw [List.length_append]
  omega

theorem innerStack_mem (tss : Tss) (x : X86) : (x.innerStack tss).mem = x.mem := by
  unfold X86.innerStack
  split <;> rfl

/-- The bytes that the CPU and the stub push before the C handler is called. -/
def Pushes (stub : Stub) (tss : Tss) (code : Option Word) (entryAddr : Word) (x : X86)
    (a : Word) : Prop :=
  (x.innerStack tss).Below (x.interruptWords ++ code.toList).length a ∨
    X86.RunWrites (x.interrupt tss code 0x08 entryAddr) (stub.entry ++ commonHead) a

theorem arrive_agreeOff (stub : Stub) (tss : Tss) (code : Option Word) (entryAddr : Word)
    (x : X86) :
    AgreeOff (stub.Pushes tss code entryAddr x) x.mem (stub.arrive tss code entryAddr x).mem := by
  have byCpu : AgreeOff (stub.Pushes tss code entryAddr x) x.mem
      (x.interrupt tss code 0x08 entryAddr).mem := by
    rw [← innerStack_mem tss x, (x.interrupt_sameStack tss code 0x08 entryAddr).mem]
    exact (X86.pushAll_agreeOff _ _).mono fun _ => Or.inl
  exact byCpu.trans ((X86.run_agreeOff _ _).mono fun _ => Or.inr)

end Stub

end OrbitOs.Kernel
