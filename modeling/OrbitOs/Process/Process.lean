import OrbitOs.Base.Ring
import OrbitOs.Machine.X86
import OrbitOs.Memory.Blocks

/-!
# The process manager of process/process.c and process/switch.s

A process control block is a `process_t` in memory; the run queue is the ring
of its `next` fields.  The C functions work on the kernel's static variables
and on memory, `switch_task` is its instruction list.
-/

set_option autoImplicit false

namespace OrbitOs.Process

open OrbitOs.Machine OrbitOs.Base OrbitOs.Memory

/-- The fields of `process_t`, each one word. -/
inductive Field
  | id | esp | kernelStack | pageDirectory | next
  deriving DecidableEq, Repr

def Field.index : Field → ℕ
  | .id => 0
  | .esp => 1
  | .kernelStack => 2
  | .pageDirectory => 3
  | .next => 4

/-- `&p->f` -/
def fieldAddr (p : Word) (f : Field) : Word := p + BitVec.ofNat 32 (4 * f.index)

/-- `tss_set_stack` of kernel/gdt.c. -/
def tssSetStack (tss : Tss) (kernelSs kernelEsp : Word) : Tss :=
  { tss with ss0 := kernelSs, esp0 := kernelEsp }

structure Kernel where
  pmm : Pmm
  cpu : Cpu
  tss : Tss
  currentProcess : Word
  processQueue : Word
  nextPid : Word

namespace Kernel

def mem (k : Kernel) : Mem := k.pmm.mem

def withMem (k : Kernel) (m : Mem) : Kernel := { k with pmm := k.pmm.withMem m }

/-- `p->f` -/
def field (k : Kernel) (p : Word) (f : Field) : Word := ld32 k.mem (fieldAddr p f)

/-- `p->f = v` -/
def setField (k : Kernel) (p : Word) (f : Field) (v : Word) : Kernel :=
  k.withMem (st32 k.mem (fieldAddr p f) v)

def machine (k : Kernel) : X86 := ⟨k.cpu, k.mem⟩

def withMachine (k : Kernel) (x : X86) : Kernel := { k.withMem x.mem with cpu := x.cpu }

def simpleKmalloc (k : Kernel) : Kernel × Word :=
  let (pmm, addr) := Pmm.pmmAllocBlock k.pmm
  ({ k with pmm := pmm }, addr)

/-- `p->id = next_pid++` -/
def takePid (k : Kernel) (p : Word) : Kernel :=
  { k.setField p .id k.nextPid with nextPid := k.nextPid + 1 }

def processInitialize (k : Kernel) : Kernel :=
  let (k, p) := k.simpleKmalloc
  let k := { k with currentProcess := p }
  let k := k.takePid p
  let k := k.setField p .next p
  let k := k.setField p .kernelStack (k.cpu.reg .esp + 4096)
  let k := k.setField p .pageDirectory k.cpu.cr3
  { k with processQueue := p }

/-- The two allocations of `process_create_thread`, with the store between them:
`proc` and `stack_base`. -/
def createBlocks (k : Kernel) : Kernel × Word × Word :=
  let (k, proc) := k.simpleKmalloc
  let k := k.takePid proc
  let (k, stackBase) := k.simpleKmalloc
  (k, proc, stackBase)

/-- The stores `*(--stack) = v` in their order, with `stack` for ESP. -/
def frameBuilt (k : Kernel) (stackTop : Word) (vs : List Word) : X86 :=
  (X86.mk (k.cpu.set .esp stackTop) k.mem).pushAll vs

/-- What `process_create_thread` stores in the two blocks before it links `proc`. -/
def createFilled (threadExit entryPoint : Word) (k : Kernel) (proc stackBase : Word) : Kernel :=
  let stackTop := stackBase + 4096
  let k := k.setField proc .kernelStack stackTop
  let built := k.frameBuilt stackTop [threadExit, entryPoint, 0, 0, 0, 0]
  let k := k.withMem built.mem
  let k := k.setField proc .esp (built.reg .esp)
  k.setField proc .pageDirectory k.cpu.cr3

/-- `next` as the tail search follows it. -/
def follow (k : Kernel) (p : Word) : Word := k.field p .next

/-- `none` when the tail search never ends: after 2^32 tests it has come to a
block for the second time. -/
def processCreateThread (threadExit entryPoint : Word) (k : Kernel) : Option (Kernel × Word) :=
  let (k, proc, stackBase) := k.createBlocks
  let k := createFilled threadExit entryPoint k proc stackBase
  (tailFrom k.follow k.processQueue (2 ^ 32) k.processQueue).map fun tail =>
    let k := k.setField tail .next proc
    (k.setField proc .next k.processQueue, proc)

/-- process/switch.s. -/
def switchTask : List Instr :=
  [.push .ebp, .push .ebx, .push .esi, .push .edi,
   .load 20 .esp .eax, .store .esp .eax,
   .load 28 .esp .eax,
   .load 24 .esp .esp,
   .movToCr3 .eax,
   .pop .edi, .pop .esi, .pop .ebx, .pop .ebp,
   .ret]

/-- The machine right before `call switch_task`: the arguments are on the stack. -/
def switchArguments (k : Kernel) (prev next : Word) : X86 :=
  k.machine.pushAll [k.field next .pageDirectory, k.field next .esp, fieldAddr prev .esp]

/-- `!current_process || current_process->next == current_process` -/
def NothingToSchedule (k : Kernel) : Prop :=
  k.currentProcess = 0 ∨ k.field k.currentProcess .next = k.currentProcess

instance (k : Kernel) : Decidable k.NothingToSchedule :=
  inferInstanceAs (Decidable (_ ∨ _))

/-- `retAddr` is the address after `call switch_task`. -/
def processSchedule (retAddr : Word) (k : Kernel) : Kernel :=
  if k.NothingToSchedule then k
  else
    let prev := k.currentProcess
    let k := { k with currentProcess := k.field prev .next }
    let k := { k with tss := tssSetStack k.tss 0x10 (k.field k.currentProcess .kernelStack) }
    k.withMachine (((k.switchArguments prev k.currentProcess).push retAddr).run switchTask)

end Kernel

/-! ## What `switch_task` does -/

/-- What a thread finds when it continues. -/
structure Context where
  edi : Word
  esi : Word
  ebx : Word
  ebp : Word
  eip : Word
  esp : Word

def contextOf (x : X86) : Context :=
  ⟨x.reg .edi, x.reg .esi, x.reg .ebx, x.reg .ebp, x.cpu.eip, x.reg .esp⟩

/-- The context that the five words from `sp` on describe. -/
def contextAt (m : Mem) (sp : Word) : Context :=
  ⟨ld32 m sp, ld32 m (sp + 4), ld32 m (sp + 8), ld32 m (sp + 12), ld32 m (sp + 16), sp + 20⟩

/-- The registers `switch_task` pushes, in that order. -/
def calleeSaved (x : X86) : List Word := [x.reg .ebp, x.reg .ebx, x.reg .esi, x.reg .edi]

theorem run_restore (x : X86) :
    contextOf (x.run [.pop .edi, .pop .esi, .pop .ebx, .pop .ebp, .ret]) =
      contextAt x.mem (x.reg .esp) := by
  simp [contextOf, contextAt, X86.exec, X86.peek, X86.ret, BitVec.add_assoc]

/-- The eight words from the arguments to the saved registers. -/
def switchWords (m : X86) (cr3 next slot ret : Word) : List Word :=
  [cr3, next, slot, ret] ++ calleeSaved m

theorem length_switchWords (m : X86) (cr3 next slot ret : Word) :
    (switchWords m cr3 next slot ret).length = 8 := rfl

/-- The machine after `switch_task` pushed its four registers. -/
def savedOn (m : X86) (cr3 next slot ret : Word) : X86 :=
  m.pushAll (switchWords m cr3 next slot ret)

theorem savedOn_esp (m : X86) (cr3 next slot ret : Word) :
    (savedOn m cr3 next slot ret).reg .esp = m.reg .esp - 32 := by
  rw [savedOn, X86.pushAll_esp, length_switchWords]
  rfl

theorem savedOn_agreeOff (m : X86) (cr3 next slot ret : Word) :
    AgreeOff (m.Below 8) m.mem (savedOn m cr3 next slot ret).mem := by
  have agree := m.pushAll_agreeOff (switchWords m cr3 next slot ret)
  rwa [length_switchWords] at agree

/-- The memory after `switch_task` saved the old stack pointer behind `slot`. -/
def savedMem (m : X86) (cr3 next slot ret : Word) : Mem :=
  st32 (savedOn m cr3 next slot ret).mem slot (m.reg .esp - 32)

/-- The middle of `switch_task`, from the stack of four saved registers to the
stack the next registers are popped from. -/
def switchStacks : List Instr :=
  [.load 20 .esp .eax, .store .esp .eax, .load 28 .esp .eax, .load 24 .esp .esp, .movToCr3 .eax]

theorem run_switchStacks (x : X86) :
    let mem := st32 x.mem (ld32 x.mem (x.reg .esp + 20)) (x.reg .esp)
    (x.run switchStacks).mem = mem ∧
      (x.run switchStacks).reg .esp = ld32 mem (x.reg .esp + 24) ∧
      (x.run switchStacks).cpu.cr3 = ld32 mem (x.reg .esp + 28) ∧
      (x.run switchStacks).cpu.eflags = x.cpu.eflags ∧
      (x.run switchStacks).cpu.seg = x.cpu.seg := by
  simp [switchStacks, X86.exec]

theorem run_switchTask_eq (m : X86) (cr3 next slot ret : Word) :
    ((m.pushAll [cr3, next, slot]).push ret).run Kernel.switchTask =
      ((savedOn m cr3 next slot ret).run switchStacks).run
        [.pop .edi, .pop .esi, .pop .ebx, .pop .ebp, .ret] := rfl

section SwitchTask

variable (m : X86) (cr3 next slot ret : Word)

theorem peek_savedOn {k : ℕ} {v : Word}
    (found : (switchWords m cr3 next slot ret).reverse[k]? = some v) :
    (savedOn m cr3 next slot ret).peek k = v :=
  m.peek_pushAll found (by rw [length_switchWords]; decide)

variable (off : ∀ x, m.Below 8 x → ¬ Within slot 4 x)

include off

/-- Saving the stack pointer leaves the eight words alone. -/
theorem ld32_savedMem {k : ℕ} {v : Word} (bound : k < 8)
    (found : (switchWords m cr3 next slot ret).reverse[k]? = some v) :
    ld32 (savedMem m cr3 next slot ret) (m.reg .esp - 32 + BitVec.ofNat 32 (4 * k)) = v := by
  rw [← peek_savedOn m cr3 next slot ret found, X86.peek, savedOn_esp]
  apply ld32_st32_apart
  intro x inWord
  apply off
  unfold X86.Below
  exact inWord.offset (by omega)

theorem run_switchTask {y : X86}
    (ran : y = ((m.pushAll [cr3, next, slot]).push ret).run Kernel.switchTask) :
    contextOf y = contextAt (savedMem m cr3 next slot ret) next ∧
      y.mem = savedMem m cr3 next slot ret ∧ y.cpu.cr3 = cr3 ∧
      y.cpu.eflags = m.cpu.eflags ∧ y.cpu.seg = m.cpu.seg := by
  have slotArg : ld32 (savedOn m cr3 next slot ret).mem
      ((savedOn m cr3 next slot ret).reg .esp + 20) = slot :=
    @peek_savedOn m cr3 next slot ret 5 slot rfl
  have nextArg := @ld32_savedMem m cr3 next slot ret off 6 next (by omega) rfl
  have cr3Arg := @ld32_savedMem m cr3 next slot ret off 7 cr3 (by omega) rfl
  obtain ⟨mem, esp, cr3Loaded, flags, seg⟩ := run_switchStacks (savedOn m cr3 next slot ret)
  rw [slotArg, savedOn_esp] at mem esp cr3Loaded
  rw [run_switchTask_eq] at ran
  have keptFlags : (savedOn m cr3 next slot ret).cpu.eflags = m.cpu.eflags :=
    X86.pushAll_eflags _ _
  have keptSeg : (savedOn m cr3 next slot ret).cpu.seg = m.cpu.seg := X86.pushAll_seg _ _
  generalize (savedOn m cr3 next slot ret).run switchStacks = x at *
  subst ran
  refine ⟨?_, mem, cr3Loaded.trans cr3Arg, flags.trans keptFlags, seg.trans keptSeg⟩
  rw [run_restore, mem, esp]
  exact congrArg _ nextArg

omit off in
theorem contextOf_call : contextOf ((m.pushAll [cr3, next, slot]).jump ret) =
    ⟨m.reg .edi, m.reg .esi, m.reg .ebx, m.reg .ebp, ret, m.reg .esp - 4 - 4 - 4⟩ := rfl

/-- The words behind the saved stack pointer are the context of the caller. -/
theorem contextAt_savedMem :
    contextAt (savedMem m cr3 next slot ret) (m.reg .esp - 32) =
      contextOf ((m.pushAll [cr3, next, slot]).jump ret) := by
  let mem := savedMem m cr3 next slot ret
  have edi : ld32 mem (m.reg .esp - 32 + 0#32) = m.reg .edi :=
    ld32_savedMem m cr3 next slot ret off (k := 0) (by omega) rfl
  have esi : ld32 mem (m.reg .esp - 32 + 4) = m.reg .esi :=
    ld32_savedMem m cr3 next slot ret off (k := 1) (by omega) rfl
  have ebx : ld32 mem (m.reg .esp - 32 + 8) = m.reg .ebx :=
    ld32_savedMem m cr3 next slot ret off (k := 2) (by omega) rfl
  have ebp : ld32 mem (m.reg .esp - 32 + 12) = m.reg .ebp :=
    ld32_savedMem m cr3 next slot ret off (k := 3) (by omega) rfl
  have eip : ld32 mem (m.reg .esp - 32 + 16) = ret :=
    ld32_savedMem m cr3 next slot ret off (k := 4) (by omega) rfl
  have esp : m.reg .esp - 32 + 20 = m.reg .esp - 4 - 4 - 4 := by bv_omega
  rw [BitVec.add_zero] at edi
  rw [contextOf_call, contextAt, edi, esi, ebx, ebp, eip, esp]

end SwitchTask

/-! ## What `process_schedule` does -/

/-- `current_process->next` -/
def Kernel.nextProcess (k : Kernel) : Word := k.field k.currentProcess .next

/-- The caller as it stands on the stack while `switch_task` runs. -/
def Kernel.callerContext (k : Kernel) (retAddr : Word) : Context :=
  contextOf ((k.switchArguments k.currentProcess k.nextProcess).jump retAddr)

/-- `k'` is `k` after `switch_task` left the current process for the next one. -/
structure Switched (retAddr : Word) (k k' : Kernel) : Prop where
  saved : k'.field k.currentProcess .esp = k.machine.reg .esp - 32
  caller : contextAt k'.mem (k.machine.reg .esp - 32) = k.callerContext retAddr
  resumed : contextOf k'.machine = contextAt k'.mem (k.field k.nextProcess .esp)
  cr3 : k'.cpu.cr3 = k.field k.nextProcess .pageDirectory
  tss : k'.tss = ⟨0x10, k.field k.nextProcess .kernelStack⟩
  eflags : k'.cpu.eflags = k.cpu.eflags
  seg : k'.cpu.seg = k.cpu.seg
  currentProcess : k'.currentProcess = k.nextProcess
  mem : AgreeOff (fun x => k.machine.Below 8 x ∨ Within (fieldAddr k.currentProcess .esp) 4 x)
    k.mem k'.mem
  rest : k' = { k.withMem k'.mem with
    cpu := k'.cpu, tss := k'.tss, currentProcess := k'.currentProcess }

/-- The machine when `switch_task` returns. -/
def Kernel.switchResult (k : Kernel) (retAddr : Word) : X86 :=
  ((k.switchArguments k.currentProcess k.nextProcess).push retAddr).run Kernel.switchTask

theorem processSchedule_eq {k : Kernel} (switches : ¬ k.NothingToSchedule) (retAddr : Word) :
    k.processSchedule retAddr =
      { k.withMem (k.switchResult retAddr).mem with
        cpu := (k.switchResult retAddr).cpu
        tss := ⟨0x10, k.field k.nextProcess .kernelStack⟩
        currentProcess := k.nextProcess } := by
  unfold Kernel.processSchedule
  rw [if_neg switches]
  rfl

theorem processSchedule_switched {k : Kernel} (switches : ¬ k.NothingToSchedule) (retAddr : Word)
    (off : ∀ x, k.machine.Below 8 x → ¬ Within (fieldAddr k.currentProcess .esp) 4 x) :
    Switched retAddr k (k.processSchedule retAddr) := by
  obtain ⟨resumed, mem, cr3, eflags, seg⟩ := run_switchTask k.machine
    (k.field k.nextProcess .pageDirectory) (k.field k.nextProcess .esp)
    (fieldAddr k.currentProcess .esp) retAddr off rfl
  have caller := contextAt_savedMem k.machine (k.field k.nextProcess .pageDirectory)
    (k.field k.nextProcess .esp) (fieldAddr k.currentProcess .esp) retAddr off
  have stack := savedOn_agreeOff k.machine (k.field k.nextProcess .pageDirectory)
    (k.field k.nextProcess .esp) (fieldAddr k.currentProcess .esp) retAddr
  have result := processSchedule_eq switches retAddr
  generalize ran : k.switchResult retAddr = y at result
  rw [show ((k.machine.pushAll _).push retAddr).run Kernel.switchTask = y from ran]
    at resumed mem cr3 eflags seg
  rw [result]
  refine ⟨?_, ?_, ?_, cr3, rfl, eflags, seg, rfl, ?_, rfl⟩
  · show ld32 y.mem _ = _
    rw [mem]
    exact ld32_st32_self _ _ _
  · show contextAt y.mem _ = _
    rw [mem]
    exact caller
  · show contextOf y = contextAt y.mem _
    rw [resumed, mem]
  · show AgreeOff _ k.mem y.mem
    rw [mem]
    have pushed := stack.mono fun x below =>
      Or.inl (b := Within (fieldAddr k.currentProcess .esp) 4 x) below
    exact pushed.trans ((st32_agreeOff _ _ _).mono fun x => Or.inr)

end OrbitOs.Process
