import OrbitOs.Process.InterruptFlag
import OrbitOs.Process.UserMode

/-!
# Preemption

The kernel with its interrupts: each thread has the interrupts it is in, and a
record of what its own code did to the interrupt flag.  The saved flags are
words in memory and the flag is a bit of EFLAGS.  Their values are those of the
flag machine.
-/

set_option autoImplicit false

namespace OrbitOs.Process

open OrbitOs.Machine OrbitOs.Base OrbitOs.Memory OrbitOs.Kernel

def FlagAction.code : FlagAction → List Instr
  | .sti => [.sti]
  | .cli => [.cli]
  | .enterUserMode => Process.enterUserMode

theorem FlagAction.run_code (a : FlagAction) {x : X86} (ring0 : x.cpl = 0) :
    (x.run a.code).cpu.interruptsEnabled = a.enables := by
  cases a with
  | sti => exact Stub.sti_enables x
  | cli => exact Stub.cli_disables x
  | enterUserMode => exact (run_enterUserMode x ring0).2.2.2

/-- An interrupt that has not returned; the stub passes `pointer` to the C handler. -/
structure Frame where
  stub : Stub
  pointer : Word

namespace Frame

/-- Where EFLAGS of the interrupted code are. -/
def flagsAddr (f : Frame) : Word := f.pointer + BitVec.ofNat 32 (4 * 14)

def savedFlag (m : Mem) (f : Frame) : Bool := (ld32 m f.flagsAddr).getLsbD 9

end Frame

/-- The innermost of a thread's interrupts comes first. -/
structure Multitasking where
  system : System
  frames : ℕ → List Frame
  actions : ℕ → List FlagAction

namespace Multitasking

variable (s : Multitasking)

def machine : X86 := s.system.kernel.machine

def running : ℕ := s.system.running

/-- A byte outside the flags that the running thread's interrupts saved. -/
def OffFlags (x : Word) : Prop := ∀ f ∈ s.frames s.running, ¬ Within f.flagsAddr 4 x

def onMachine (x : X86) : System := { s.system with kernel := s.system.kernel.withMachine x }

/-- What the flag machine sees. -/
def flags : FlagState where
  enabled := s.machine.cpu.interruptsEnabled
  running := s.running
  count := s.system.threads.length
  frames := fun i => (s.frames i).map (Frame.savedFlag s.machine.mem)
  actions := s.actions

end Multitasking

/-- `irq0` of interrupts.s. -/
def timerStub : Stub := .irq 32

section Runs

variable (bootStack threadExit : Word)

inductive Boot : Multitasking → Prop
  | boot {s : System} : Start bootStack s → s.kernel.cpu.interruptsEnabled = false →
      Boot ⟨s, fun _ => [], fun _ => []⟩

inductive Move : Multitasking → Multitasking → Prop
  | own {s : Multitasking} (a : FlagAction) : s.frames s.running = [] → s.machine.cpl = 0 →
      (∀ x, s.machine.RunWrites a.code x → s.system.Private bootStack x) →
      Move s
        { system := s.onMachine (s.machine.run a.code)
          frames := s.frames
          actions := Function.update s.actions s.running (a :: s.actions s.running) }
  /-- Any other code, of the thread or of a handler. -/
  | code {s : Multitasking} (x : X86) :
      AgreeOff (fun a => s.system.Private bootStack a ∧ s.OffFlags a) s.machine.mem x.mem →
      x.cpu.interruptsEnabled = s.machine.cpu.interruptsEnabled →
      Move s { s with system := s.onMachine x }
  | interrupt {s : Multitasking} (stub : Stub) (code : Option Word) (entryAddr : Word) :
      stub.CodeFits code → (stub.isDevice = true → s.machine.cpu.interruptsEnabled = true) →
      (∀ a, (s.machine.innerStack s.system.kernel.tss).Below (stub.pushedWords code s.machine) a →
        s.system.OwnStack bootStack a ∧ s.OffFlags a) →
      Move s
        { system := s.onMachine (stub.arrive s.system.kernel.tss code entryAddr s.machine)
          frames := Function.update s.frames s.running
            (⟨stub, (stub.arrive s.system.kernel.tss code entryAddr s.machine).reg .esp⟩ ::
              s.frames s.running)
          actions := s.actions }
  /-- The C handler returns with the stack pointer it was entered with. -/
  | resume {s : Multitasking} (f : Frame) (rest : List Frame) :
      s.frames s.running = f :: rest → s.machine.reg .esp = f.pointer →
      Move s
        { system := s.onMachine (s.machine.run f.stub.tail)
          frames := Function.update s.frames s.running rest
          actions := s.actions }
  /-- The handler of the timer calls `process_schedule`. -/
  | schedule {s : Multitasking} (retAddr : Word) (f : Frame) (rest : List Frame) :
      s.frames s.running = f :: rest → f.stub = timerStub →
      ¬ s.system.kernel.NothingToSchedule →
      (∀ a, s.machine.Below 8 a → s.system.OwnStack bootStack a ∧ s.OffFlags a) →
      Move s { s with system := s.system.switched retAddr }
  | create {s : Multitasking} {k : Kernel} {proc : Word} (entryPoint : Word) :
      s.system.kernel.createBlocks.2.1 ≠ 0 → s.system.kernel.createBlocks.2.2 ≠ 0 →
      s.system.kernel.processCreateThread threadExit entryPoint = some (k, proc) →
      Move s
        { system := s.system.created k proc s.system.kernel.createBlocks.2.2 entryPoint
          frames := Function.update s.frames s.system.threads.length []
          actions := Function.update s.actions s.system.threads.length [] }

variable {bootStack threadExit}

/-- Interrupts are code of the thread that they interrupt. -/
theorem Move.step {s s' : Multitasking} (inv : Inv bootStack threadExit s.system)
    (taken : Move bootStack threadExit s s') : Step bootStack threadExit s.system s'.system := by
  cases taken with
  | own a ownCode ring0 writes =>
      exact .code _ _ ((s.machine.run_agreeOff a.code).mono writes)
  | code x agree flag => exact .code _ _ (agree.mono fun a => And.left)
  | interrupt stub code entryAddr fits allowed room =>
      have grew := (stub.arrive_grew s.system.kernel.tss code entryAddr s.machine).mem
      rw [Stub.innerStack_mem] at grew
      exact .code _ _ (grew.mono fun a below => inv.ownStack_private (room a below).1)
  | resume f rest isOpen esp =>
      refine .code _ _ ?_
      rw [Stub.run_tail_mem]
      exact AgreeOff.refl _ _
  | schedule retAddr f rest isOpen timer switches room =>
      exact .switch retAddr switches fun a below => (room a below).1
  | create entryPoint gotProc gotStack returned =>
      exact .create entryPoint gotProc gotStack returned

/-! ## The saved flags -/

structure FramesInv (bootStack threadExit : Word) (s : Multitasking) : Prop where
  system : Inv bootStack threadExit s.system
  inStack : ∀ i t, s.system.threads[i]? = some t → ∀ f ∈ s.frames i, ∀ x,
    Within f.flagsAddr 4 x → t.Stack bootStack x
  none : ∀ i, s.system.threads.length ≤ i → s.frames i = []

namespace FramesInv

variable {s : Multitasking} (inv : FramesInv bootStack threadExit s)

include inv

/-- Writes that miss the saved flags of every thread. -/
theorem flags_agreeOff {touched : Word → Prop} {m : Mem} (agree : AgreeOff touched s.machine.mem m)
    (off : ∀ i t, s.system.threads[i]? = some t → ∀ f ∈ s.frames i, ∀ x,
      Within f.flagsAddr 4 x → ¬ touched x) :
    (fun i => (s.frames i).map (Frame.savedFlag m)) = s.flags.frames := by
  funext i
  by_cases bound : i < s.system.threads.length
  · apply List.map_congr_left
    intro f member
    have word : ld32 m f.flagsAddr = ld32 s.machine.mem f.flagsAddr :=
      agree.ld32_eq (off i _ (List.getElem?_eq_getElem bound) f member)
    unfold Frame.savedFlag
    rw [word]
  · unfold Multitasking.flags
    dsimp only
    rw [inv.none i (by omega)]
    rfl

/-- What the running thread and `switch_task` write. -/
theorem flags_kept {m : Mem}
    (agree : AgreeOff (fun x => s.system.Private bootStack x ∧ s.OffFlags x ∨
      Within (fieldAddr s.system.kernel.currentProcess .esp) 4 x) s.machine.mem m) :
    (fun i => (s.frames i).map (Frame.savedFlag m)) = s.flags.frames := by
  obtain ⟨u, atRunning, current⟩ := inv.system.current
  have uIn := List.mem_of_getElem? atRunning
  rw [current, fieldAddr_blockAddr] at agree
  refine inv.flags_agreeOff agree ?_
  rintro i t atI f member x inWord (⟨own, off⟩ | inEsp)
  · by_cases here : i = s.running
    · exact off f (here ▸ member) inWord
    · exact own.stack i t atI here (inv.inStack i t atI f member x inWord)
  · exact inv.system.offPcbs t (List.mem_of_getElem? atI) u uIn x
      (inv.inStack i t atI f member x inWord)
      (inBlock_of_within_wordAddr (inv.system.pcbBound uIn) (Field.index_lt _) inEsp)

theorem room_private {x : X86} {n : ℕ} (room : ∀ a, x.Below n a →
      s.system.OwnStack bootStack a ∧ s.OffFlags a) (a : Word) (below : x.Below n a) :
    s.system.Private bootStack a ∧ s.OffFlags a :=
  ⟨inv.system.ownStack_private (room a below).1, (room a below).2⟩

omit inv in
theorem map_update {α β : Type} (g : α → β) (frames : ℕ → List α) (i : ℕ) (new : List α) :
    (fun j => (Function.update frames i new j).map g) =
      Function.update (fun j => (frames j).map g) i (new.map g) :=
  funext fun j => Function.apply_update (fun _ => List.map g) frames i new j

omit inv in
theorem flags_onMachine (x : X86) (frames : ℕ → List Frame) (actions : ℕ → List FlagAction) :
    (Multitasking.mk (s.onMachine x) frames actions).flags =
      { s.flags with
        enabled := x.cpu.interruptsEnabled
        frames := fun i => (frames i).map (Frame.savedFlag x.mem)
        actions := actions } := rfl

theorem move {s' : Multitasking} (taken : Move bootStack threadExit s s') :
    FramesInv bootStack threadExit s' := by
  have system := inv.system.step (taken.step inv.system)
  cases taken with
  | own a ownCode ring0 writes => exact ⟨system, inv.inStack, inv.none⟩
  | code x agree flag => exact ⟨system, inv.inStack, inv.none⟩
  | schedule retAddr f rest isOpen timer switches room => exact ⟨system, inv.inStack, inv.none⟩
  | interrupt stub code entryAddr fits allowed room =>
      obtain ⟨u, atRunning, _⟩ := inv.system.current
      refine ⟨system, ?_, ?_⟩
      · intro i t atI f member x inWord
        dsimp only at atI member
        by_cases here : i = s.running
        · rw [here, Function.update_self] at member
          rcases List.mem_cons.mp member with new | old
          · subst new
            have below := Stub.arrive_flagsWord fits _ _ _ inWord
            obtain ⟨v, atRunning', inStack⟩ := (room x below).1
            cases atRunning'.symm.trans (here ▸ atI)
            exact inStack
          · exact inv.inStack i t atI f (here ▸ old) x inWord
        · rw [Function.update_of_ne here] at member
          exact inv.inStack i t atI f member x inWord
      · intro i bound
        have inside := (List.getElem?_eq_some_iff.mp atRunning).1
        have other : i ≠ s.running := Nat.ne_of_gt (Nat.lt_of_lt_of_le inside bound)
        dsimp only
        rw [Function.update_of_ne other]
        exact inv.none i bound
  | resume f rest isOpen esp =>
      refine ⟨system, ?_, ?_⟩
      · intro i t atI g member x inWord
        refine inv.inStack i t atI g ?_ x inWord
        dsimp only at member
        by_cases here : i = s.running
        · rw [here, Function.update_self] at member
          rw [here, isOpen]
          exact List.mem_cons_of_mem f member
        · rwa [Function.update_of_ne here] at member
      · intro i bound
        dsimp only
        by_cases here : i = s.running
        · have empty := inv.none i bound
          rw [here, isOpen] at empty
          contradiction
        · rw [Function.update_of_ne here]
          exact inv.none i bound
  | create entryPoint gotProc gotStack returned =>
      refine ⟨system, ?_, ?_⟩
      · intro i t atI f member x inWord
        dsimp only at member
        rcases getElem?_concat_cases atI with before | ⟨new, _⟩
        · have bound := (List.getElem?_eq_some_iff.mp before).1
          rw [Function.update_of_ne (Nat.ne_of_lt bound)] at member
          exact inv.inStack i t before f member x inWord
        · rw [new, Function.update_self] at member
          contradiction
      · intro i bound
        dsimp only at bound ⊢
        rw [System.length_created] at bound
        rw [Function.update_of_ne (by omega)]
        exact inv.none i (by omega)

/-! ## The flag machine below -/

theorem flags_switched (retAddr : Word) (switches : ¬ s.system.kernel.NothingToSchedule)
    (room : ∀ a, s.machine.Below 8 a → s.system.OwnStack bootStack a ∧ s.OffFlags a) :
    (Multitasking.mk (s.system.switched retAddr) s.frames s.actions).flags =
      { s.flags with running := (s.running + 1) % s.system.threads.length } := by
  have spec := inv.system.switched_spec retAddr switches fun a below => (room a below).1
  have frames := inv.flags_kept (spec.mem.mono fun x => Or.imp_left (inv.room_private room x))
  exact FlagState.ext (congrArg (fun w => BitVec.getLsbD w 9) spec.eflags) rfl rfl frames rfl

theorem flags_created {k : Kernel} {proc : Word} (entryPoint : Word)
    (gotProc : s.system.kernel.createBlocks.2.1 ≠ 0)
    (gotStack : s.system.kernel.createBlocks.2.2 ≠ 0)
    (returned : s.system.kernel.processCreateThread threadExit entryPoint = some (k, proc)) :
    (Multitasking.mk (s.system.created k proc s.system.kernel.createBlocks.2.2 entryPoint)
      (Function.update s.frames s.system.threads.length [])
      (Function.update s.actions s.system.threads.length [])).flags =
      { s.flags with
        count := s.flags.count + 1
        frames := Function.update s.flags.frames s.flags.count []
        actions := Function.update s.flags.actions s.flags.count [] } := by
  obtain ⟨p, q, k', result, _, creates⟩ := processCreateThread_creates threadExit entryPoint
    inv.system.sound inv.system.queue gotProc gotStack
  cases returned.symm.trans result
  have frames := inv.flags_agreeOff creates.mem fun i t atI f member x inWord =>
    inv.system.created_stack creates (List.mem_of_getElem? atI) x
      (inv.inStack i t atI f member x inWord)
  have enabled : k.cpu.interruptsEnabled = s.flags.enabled := by
    rw [creates.rest]
    rfl
  have added : (fun i => (Function.update s.frames s.system.threads.length [] i).map
      (Frame.savedFlag k.mem)) = Function.update s.flags.frames s.flags.count [] := by
    rw [map_update, frames]
    rfl
  exact FlagState.ext enabled rfl (System.length_created _ _ _ _ _) added rfl

/-- Every move is one of the flag machine, or none that it sees. -/
theorem matched {s' : Multitasking} (taken : Move bootStack threadExit s s') :
    s'.flags = s.flags ∨ FlagStep s.flags s'.flags := by
  have kept : ∀ {m : Mem}, AgreeOff (fun x => s.system.Private bootStack x ∧ s.OffFlags x)
      s.machine.mem m → (fun i => (s.frames i).map (Frame.savedFlag m)) = s.flags.frames :=
    fun agree => inv.flags_kept (agree.mono fun x => Or.inl)
  cases taken with
  | own a ownCode ring0 writes =>
      right
      have off : ∀ x, s.OffFlags x := fun x f member => by
        rw [ownCode] at member
        contradiction
      have frames := kept ((s.machine.run_agreeOff a.code).mono fun x w => ⟨writes x w, off x⟩)
      have empty : s.flags.frames s.running = [] := List.map_eq_nil_iff.mpr ownCode
      rw [flags_onMachine, a.run_code ring0, frames]
      exact .own a empty
  | code x agree flag =>
      left
      rw [flags_onMachine, kept agree, flag]
      rfl
  | interrupt stub code entryAddr fits allowed room =>
      right
      have grew := (stub.arrive_grew s.system.kernel.tss code entryAddr s.machine).mem
      rw [Stub.innerStack_mem] at grew
      have frames := kept (grew.mono (inv.room_private room))
      have disabled := stub.arrive_disables s.system.kernel.tss code entryAddr s.machine
      have saved := Stub.arrive_eflags fits s.system.kernel.tss entryAddr s.machine
      generalize stub.arrive s.system.kernel.tss code entryAddr s.machine = x at *
      have flag : Frame.savedFlag x.mem ⟨stub, x.reg .esp⟩ = s.flags.enabled :=
        congrArg (fun w => BitVec.getLsbD w 9) saved
      rw [flags_onMachine, map_update, List.map_cons, flag, disabled, frames]
      rw [congrFun frames s.running]
      exact .interrupt stub.isDevice allowed
  | resume f rest isOpen esp =>
      right
      have flag : (s.machine.run f.stub.tail).cpu.interruptsEnabled =
          Frame.savedFlag s.machine.mem f := by
        rw [Cpu.interruptsEnabled, Stub.run_tail_eflags, X86.peek, esp]
        rfl
      rw [flags_onMachine, Stub.run_tail_mem, flag, map_update]
      refine .resume _ _ ?_
      show (s.frames s.running).map _ = _
      rw [isOpen]
      rfl
  | schedule retAddr f rest isOpen timer switches room =>
      right
      rw [inv.flags_switched retAddr switches room]
      refine .schedule fun empty => ?_
      have none : s.frames s.running = [] := List.map_eq_nil_iff.mp empty
      rw [isOpen] at none
      contradiction
  | @create k proc entryPoint gotProc gotStack returned =>
      right
      rw [inv.flags_created entryPoint gotProc gotStack returned]
      exact .create

end FramesInv

theorem FramesInv.boot {s : Multitasking} (boots : Boot bootStack s) :
    FramesInv bootStack threadExit s := by
  cases boots with
  | boot starts off =>
      exact {
        system := Inv.start starts
        inStack := fun _ _ _ _ member => by contradiction
        none := fun _ _ => rfl }

theorem Boot.flags {s : Multitasking} (boots : Boot bootStack s) : FlagStart s.flags := by
  cases boots with
  | boot starts off =>
      cases starts with
      | boot boots =>
          unfold Multitasking.flags Multitasking.machine
          dsimp only [Kernel.machine]
          rw [off]
          exact .boot

theorem FramesInv.run {s : Multitasking}
    (reached : Reach (Boot bootStack) (Move bootStack threadExit) s) :
    FramesInv bootStack threadExit s :=
  reached.invariant (fun _ boots => FramesInv.boot boots) fun _ _ inv taken => inv.move taken

/-- Runs of the kernel are runs of the flag machine. -/
theorem reach_flags {s : Multitasking}
    (reached : Reach (Boot bootStack) (Move bootStack threadExit) s) :
    Reach FlagStart FlagStep s.flags := by
  have kept : ∀ s s', FramesInv bootStack threadExit s → Move bootStack threadExit s s' →
      FramesInv bootStack threadExit s' := fun _ _ inv taken => inv.move taken
  exact reached.image (f := Multitasking.flags) (fun _ boots => FramesInv.boot boots) kept
    (fun _ boots => boots.flags) fun _ _ inv taken => inv.matched taken

theorem interrupts_enabled_iff {s : Multitasking}
    (reached : Reach (Boot bootStack) (Move bootStack threadExit) s)
    (ownCode : s.frames s.running = []) :
    s.machine.cpu.interruptsEnabled = true ↔ lastEnables (s.actions s.running) = true := by
  have own := (FlagInv.run (reach_flags reached)).own (List.map_eq_nil_iff.mpr ownCode)
  exact Bool.coe_iff_coe.mpr own

end Runs

/-! ## A new thread inside the interrupt of the boot thread -/

/-- The boot thread has created a thread and has enabled interrupts. -/
structure AfterSti (s : Multitasking) : Prop where
  reached : Reach (Boot 0x200000) (Move 0x200000 0x101000) s
  threads : ∃ b p q, s.system.threads = [⟨b, none⟩, ⟨p, some q⟩]
  running : s.running = 0
  status : s.system.status 1 = .fresh 0x102000
  frames : ∀ i, s.frames i = []
  actions : s.actions 0 = [.sti] ∧ s.actions 1 = []
  esp : s.machine.reg .esp = 0x203000
  ring0 : s.machine.cpl = 0
  enabled : s.machine.cpu.interruptsEnabled = true

theorem afterSti_exists : ∃ s, AfterSti s := by
  obtain ⟨t, two⟩ := twoThreads_exists
  obtain ⟨t₀, k, proc, begins, cpu, gotProc, gotStack, returned, same⟩ := two.made
  have off : t₀.kernel.cpu.interruptsEnabled = false := by
    rw [cpu]
    rfl
  have created : Move 0x200000 0x101000 ⟨t₀, fun _ => [], fun _ => []⟩
      ⟨t, fun _ => [], fun _ => []⟩ := by
    have made : Move 0x200000 0x101000 ⟨t₀, fun _ => [], fun _ => []⟩ _ :=
      .create 0x102000 gotProc gotStack returned
    rw [← same, Function.update_eq_self, Function.update_eq_self] at made
    exact made
  let s : Multitasking := ⟨t, fun _ => [], fun _ => []⟩
  have esp : s.machine.reg .esp = 0x203000 := by
    show t.kernel.cpu.reg .esp = _
    rw [two.cpu]
    rfl
  have ring0 : s.machine.cpl = 0 := by
    show t.kernel.cpu.seg .cs &&& 3 = 0
    rw [two.cpu]
    rfl
  have writes : ∀ x, s.machine.RunWrites [.sti] x → s.system.Private 0x200000 x := by
    rintro x (store | none) <;> contradiction
  have running : s.running = 0 := two.running
  exact ⟨_, {
    reached := .step (.step (.start (.boot begins off)) created) (.own .sti rfl ring0 writes)
    threads := two.threads
    running := two.running
    status := two.status
    frames := fun _ => rfl
    actions := by
      rw [running]
      exact ⟨rfl, rfl⟩
    esp := esp
    ring0 := ring0
    enabled := Stub.sti_enables s.machine }⟩

/-- The boot thread is in the handler of its first timer interrupt. -/
structure InTimer (s : Multitasking) : Prop where
  reached : Reach (Boot 0x200000) (Move 0x200000 0x101000) s
  threads : ∃ b p q, s.system.threads = [⟨b, none⟩, ⟨p, some q⟩]
  running : s.running = 0
  status : s.system.status 1 = .fresh 0x102000
  frames : s.frames 0 = [⟨timerStub, s.machine.reg .esp⟩] ∧ s.frames 1 = []
  actions : s.actions 0 = [.sti] ∧ s.actions 1 = []
  stack : ∀ x, s.machine.Below 8 x → Within 0x200000 16384 x

theorem inTimer_exists : ∃ s, InTimer s := by
  obtain ⟨s, on⟩ := afterSti_exists
  obtain ⟨b, p, q, threads⟩ := on.threads
  have inner : s.machine.innerStack s.system.kernel.tss = s.machine := if_pos on.ring0
  have words : timerStub.pushedWords none s.machine = 15 := by
    rw [Stub.pushedWords, X86.interruptWords, if_pos on.ring0]
    rfl
  have grew := timerStub.arrive_grew s.system.kernel.tss none 0x105000 s.machine
  rw [inner, words] at grew
  have deep : ∀ n ≤ 32, ∀ x, s.machine.Below n x → Within 0x200000 16384 x := by
    intro n le x below
    have low : Within (0x200000 + BitVec.ofNat 32 0x2F80) 128 x := by
      have wide := below.mono le
      rw [X86.Below, on.esp] at wide
      exact wide
    exact low.offset (by omega)
  have room : ∀ a, (s.machine.innerStack s.system.kernel.tss).Below
      (timerStub.pushedWords none s.machine) a →
      s.system.OwnStack 0x200000 a ∧ s.OffFlags a := by
    intro a below
    rw [inner, words] at below
    refine ⟨⟨⟨b, none⟩, ?_, deep 15 (by omega) a below⟩, ?_⟩
    · rw [threads, show s.system.running = 0 from on.running]
      rfl
    · intro f member
      rw [on.frames] at member
      contradiction
  have taken : Move 0x200000 0x101000 s _ :=
    .interrupt timerStub none 0x105000 rfl (fun _ => on.enabled) room
  have esp := grew.esp
  generalize timerStub.arrive s.system.kernel.tss none 0x105000 s.machine = x at *
  have stack : ∀ a, x.Below 8 a → Within 0x200000 16384 a := by
    intro a below
    have wide : s.machine.Below (8 + 15) a := below.deeper esp
    exact deep (8 + 15) (by omega) a wide
  rw [on.running, on.frames] at taken
  exact ⟨_, .step on.reached taken, on.threads, on.running, on.status, ⟨rfl, on.frames 1⟩,
    on.actions, stack⟩

/-- The new thread runs its entry point, inside no interrupt of its own. -/
structure FreshDispatched (s : Multitasking) : Prop where
  reached : Reach (Boot 0x200000) (Move 0x200000 0x101000) s
  running : s.running = 1
  frames : s.frames 1 = []
  actions : s.actions 0 = [.sti] ∧ s.actions 1 = []
  eip : s.machine.cpu.eip = 0x102000

theorem freshDispatched_exists : ∃ s, FreshDispatched s := by
  obtain ⟨s, handling⟩ := inTimer_exists
  obtain ⟨b, p, q, threads⟩ := handling.threads
  have running : s.system.running = 0 := handling.running
  have inv := FramesInv.run handling.reached
  have switches := inv.system.switches (by rw [threads]; exact Nat.le_refl 2)
  have next : s.system.next = 1 := by
    rw [System.next, threads, running]
    rfl
  have room : ∀ a, s.machine.Below 8 a → s.system.OwnStack 0x200000 a ∧ s.OffFlags a := by
    intro a below
    refine ⟨⟨⟨b, none⟩, ?_, handling.stack a below⟩, ?_⟩
    · rw [threads, running]
      rfl
    · intro f member inFlags
      rw [handling.running, handling.frames.1, List.mem_singleton] at member
      subst member
      unfold Frame.flagsAddr Within at inFlags
      unfold X86.Below Within at below
      bv_omega
  have taken : Move 0x200000 0x101000 s _ :=
    .schedule 0x103000 ⟨timerStub, s.machine.reg .esp⟩ []
      (by rw [handling.running]; exact handling.frames.1) rfl switches room
  have atNext : s.system.threads[s.system.next]? = some ⟨p, some q⟩ := by
    rw [next, threads]
    rfl
  obtain ⟨_, _, context, _⟩ := inv.system.fresh_resumed 0x103000 switches
    (fun a below => (room a below).1) atNext (next ▸ handling.status)
  exact ⟨_, .step handling.reached taken, next, handling.frames.2, handling.actions,
    congrArg Context.eip context⟩

/-- After the boot thread's `sti`, a thread that the timer switched to for the
first time runs with interrupts off. -/
theorem fresh_thread_not_preemptible :
    ∃ s : Multitasking, Reach (Boot 0x200000) (Move 0x200000 0x101000) s ∧
      s.actions 0 = [.sti] ∧ s.running = 1 ∧ s.frames s.running = [] ∧
      s.machine.cpu.eip = 0x102000 ∧ s.machine.cpu.interruptsEnabled = false := by
  obtain ⟨s, fresh⟩ := freshDispatched_exists
  have ownCode : s.frames s.running = [] := by
    rw [fresh.running]
    exact fresh.frames
  have own := (FlagInv.run (reach_flags fresh.reached)).own (List.map_eq_nil_iff.mpr ownCode)
  refine ⟨s, fresh.reached, fresh.actions.1, fresh.running, ownCode, fresh.eip, own.trans ?_⟩
  show lastEnables (s.actions s.running) = false
  rw [fresh.running, fresh.actions.2]
  rfl

theorem interrupts_enabled_iff_firstDispatch :
    ∃ s : Multitasking, s.actions s.running = [] ∧
      (s.machine.cpu.interruptsEnabled = true ↔ lastEnables (s.actions s.running) = true) := by
  obtain ⟨s, fresh⟩ := freshDispatched_exists
  refine ⟨s, ?_, interrupts_enabled_iff fresh.reached ?_⟩
  · rw [fresh.running]
    exact fresh.actions.2
  · rw [fresh.running]
    exact fresh.frames

end OrbitOs.Process
