import OrbitOs.Kernel.StubReturn
import OrbitOs.Process.Switching

/-!
# Interrupted code goes on

A thread is interrupted, and its handlers too.  The timer switches to other threads, which are
interrupted in turn and create further threads.  When its handler has returned, a stub resumes
the code that was interrupted, however long ago, and this code finds its stack as it was.
-/

set_option autoImplicit false

namespace OrbitOs.Process

open OrbitOs.Machine OrbitOs.Base OrbitOs.Memory OrbitOs.Kernel

/-! ## Interrupts that have not returned -/

/-- `pointer` is ESP at the call of the C handler.  The interrupted machine and the bytes of its
stack that the handlers leave alone are only recorded. -/
structure Interrupted where
  stub : Stub
  code : Option Word
  pointer : Word
  found : X86
  kept : Word → Prop

/-- An interrupt of `x` through the gate to `entryAddr`. -/
def Interrupted.arrived (stub : Stub) (tss : Tss) (code : Option Word) (entryAddr : Word) (x : X86)
    (kept : Word → Prop) : Interrupted where
  stub := stub
  code := code
  pointer := (stub.arrive tss code entryAddr x).reg .esp
  found := x
  kept := kept

/-- The selectors that gdt_flush and the gates load. -/
def KernelSelectors (x : X86) : Prop :=
  x.cpl = 0 → x.cpu.seg .cs = 0x08 ∧ x.cpu.seg .ss = 0x10

namespace Interrupted

variable (f : Interrupted)

/-- The bytes that the interrupted code depends on. -/
def Holds (a : Word) : Prop := Within (f.pointer + 4) (4 * frameWords f.found) a ∨ f.kept a

structure Intact (m : Mem) : Prop where
  frame : ∀ k v, (f.stub.frame f.code f.found (f.pointer + 4 + 36))[k]? = some v →
    ld32 m (f.pointer + 4 + BitVec.ofNat 32 (4 * k)) = v
  kept : ∀ a, f.kept a → m a = f.found.mem a

/-- What was so when the interrupt came. -/
structure Taken : Prop where
  selectors : KernelSelectors f.found
  inner : f.found.cpl = 0 → f.pointer + 60 = f.found.reg .esp

variable {f}

theorem Intact.agreeOff {m m' : Mem} {touched : Word → Prop} (intact : f.Intact m)
    (agree : AgreeOff touched m m') (off : ∀ a, f.Holds a → ¬ touched a) : f.Intact m' where
  frame := by
    intro k v found
    have bound := (List.getElem?_eq_some_iff.mp found).1
    rw [Stub.length_frame] at bound
    rw [← intact.frame k v found]
    exact agree.ld32_eq fun a inWord => off a (.inl (inWord.offset (by omega)))
  kept := fun a kept => (agree a (off a (.inr kept))).trans (intact.kept a kept)

theorem Intact.resumes {r : X86} (intact : f.Intact r.mem) (taken : f.Taken)
    (kernelCode : r.cpl = 0) (selectors : KernelSelectors r) (esp : r.reg .esp = f.pointer) :
    Resumes f.found (r.run f.stub.tail) := by
  have frame := intact.frame
  rw [← esp] at frame
  refine f.stub.resumes_of_sees kernelCode (f.stub.sees_of_frame frame) fun ring0 => ⟨?_, ?_⟩
  · rw [esp]
    exact taken.inner ring0
  · rw [(selectors kernelCode).2, (taken.selectors ring0).2]

section Arrival

variable {stub : Stub} {code : Option Word} (fits : stub.CodeFits code) (tss : Tss)
  (entryAddr : Word) {x : X86} {kept : Word → Prop}

include fits

theorem pushedWords_eq (x : X86) : stub.pushedWords code x = frameWords x + 1 := by
  have two := fits.entryWords
  unfold Stub.pushedWords X86.interruptWords frameWords
  by_cases ring0 : x.cpl = 0
  · rw [if_pos ring0, if_pos ring0]
    simp only [List.nil_append, List.length_append, List.length_cons, List.length_nil]
    omega
  · rw [if_neg ring0, if_neg ring0]
    simp only [List.length_append, List.length_cons, List.length_nil]
    omega

/-- The structure lies in what the CPU and the stub push. -/
theorem arrived_holds {a : Word}
    (holds : (arrived stub tss code entryAddr x kept).Holds a) :
    (x.innerStack tss).Below (stub.pushedWords code x) a ∨ kept a := by
  refine holds.imp_left fun (inFrame : Within (_ + 4) (4 * frameWords x) a) => ?_
  have words := pushedWords_eq fits x
  rw [show (arrived stub tss code entryAddr x kept).pointer = _ from
    (stub.arrive_grew tss code entryAddr x).esp] at inFrame
  exact inFrame.offset (d := 4) (by omega)

theorem arrived_taken (selectors : KernelSelectors x) :
    (arrived stub tss code entryAddr x kept).Taken where
  selectors := selectors
  inner := by
    intro (ring0 : x.cpl = 0)
    show (stub.arrive tss code entryAddr x).reg .esp + 60 = x.reg .esp
    rw [Stub.arrive_esp_inner fits tss entryAddr ring0, BitVec.sub_add_cancel]

theorem arrived_intact
    (off : ∀ a, (x.innerStack tss).Below (stub.pushedWords code x) a → ¬ kept a) :
    (arrived stub tss code entryAddr x kept).Intact (stub.arrive tss code entryAddr x).mem where
  frame := by
    obtain ⟨pointer, above⟩ := @Stub.arrive_frame _ _ fits tss entryAddr x _ rfl
    rw [pointer] at above
    exact above
  kept := by
    intro a inKept
    have grew := (stub.arrive_grew tss code entryAddr x).mem
    rw [Stub.innerStack_mem] at grew
    exact grew a fun below => off a below inKept

end Arrival

/-- Fewer interrupts are pending. -/
theorem update_suffix {pending : ℕ → List Interrupted} {i : ℕ} {rest : List Interrupted}
    (fewer : rest <:+ pending i) (j : ℕ) : Function.update pending i rest j <:+ pending j := by
  by_cases here : j = i
  · rw [here, Function.update_self]
    exact fewer
  · rw [Function.update_of_ne here]

theorem update_cons {pending : ℕ → List Interrupted} {i j : ℕ} {f new : Interrupted}
    (member : f ∈ Function.update pending i (new :: pending i) j) :
    j = i ∧ f = new ∨ f ∈ pending j := by
  by_cases here : j = i
  · subst here
    rw [Function.update_self] at member
    exact (List.mem_cons.mp member).imp_left fun same => ⟨rfl, same⟩
  · rw [Function.update_of_ne here] at member
    exact .inr member

end Interrupted

/-! ## The system -/

/-- The innermost of a thread's interrupts comes first. -/
structure Interruptible where
  system : System
  pending : ℕ → List Interrupted

namespace Interruptible

section State

variable (s : Interruptible)

def machine : X86 := s.system.kernel.machine

def running : ℕ := s.system.running

/-- No interrupted code of the running thread depends on the byte. -/
def Free (a : Word) : Prop := ∀ f ∈ s.pending s.running, ¬ f.Holds a

def onMachine (x : X86) : System := { s.system with kernel := s.system.kernel.withMachine x }

end State

section Runs

variable (bootStack threadExit : Word)

inductive Begin : Interruptible → Prop
  | boot {s : System} : Start bootStack s → s.kernel.cpu.seg .cs = 0x08 →
      s.kernel.cpu.seg .ss = 0x10 → s.kernel.tss.ss0 = 0x10 → Begin ⟨s, fun _ => []⟩

inductive Advance : Interruptible → Interruptible → Prop
  /-- Code of the running thread, or of its innermost handler; it leaves alone what the code that
  it interrupted depends on. -/
  | code {s : Interruptible} (x : X86) :
      AgreeOff (fun a => s.system.Private bootStack a ∧ s.Free a) s.machine.mem x.mem →
      (s.pending s.running ≠ [] → x.cpl = 0) → KernelSelectors x →
      Advance s { s with system := s.onMachine x }
  | interrupt {s : Interruptible} (stub : Stub) (code : Option Word) (entryAddr : Word)
      (kept : Word → Prop) : stub.CodeFits code →
      (∀ a, (s.machine.innerStack s.system.kernel.tss).Below (stub.pushedWords code s.machine) a →
        s.system.OwnStack bootStack a ∧ s.Free a ∧ ¬ kept a) →
      (∀ a, kept a → s.system.OwnStack bootStack a) →
      Advance s
        { system := s.onMachine (stub.arrive s.system.kernel.tss code entryAddr s.machine)
          pending := Function.update s.pending s.running
            (.arrived stub s.system.kernel.tss code entryAddr s.machine kept ::
              s.pending s.running) }
  /-- The C handler returned with the stack pointer it was entered with. -/
  | resume {s : Interruptible} (f : Interrupted) (rest : List Interrupted) :
      s.pending s.running = f :: rest → s.machine.reg .esp = f.pointer →
      Advance s
        { system := s.onMachine (s.machine.run f.stub.tail)
          pending := Function.update s.pending s.running rest }
  /-- Kernel code, such as the timer's handler, calls `process_schedule`. -/
  | schedule {s : Interruptible} (retAddr : Word) : s.machine.cpl = 0 →
      ¬ s.system.kernel.NothingToSchedule →
      (∀ a, s.machine.Below 8 a → s.system.OwnStack bootStack a ∧ s.Free a) →
      Advance s { s with system := s.system.switched retAddr }
  | create {s : Interruptible} {k : Kernel} {proc : Word} (entryPoint : Word) :
      s.system.kernel.createBlocks.2.1 ≠ 0 → s.system.kernel.createBlocks.2.2 ≠ 0 →
      s.system.kernel.processCreateThread threadExit entryPoint = some (k, proc) →
      Advance s
        { system := s.system.created k proc s.system.kernel.createBlocks.2.2 entryPoint
          pending := Function.update s.pending s.system.threads.length [] }

variable {bootStack threadExit}

theorem Advance.step {s s' : Interruptible} (inv : Inv bootStack threadExit s.system)
    (taken : Advance bootStack threadExit s s') :
    Step bootStack threadExit s.system s'.system := by
  cases taken with
  | code x agree inside selectors => exact .code _ _ (agree.mono fun a => And.left)
  | interrupt stub code entryAddr kept fits room own =>
      have grew := (stub.arrive_grew s.system.kernel.tss code entryAddr s.machine).mem
      rw [Stub.innerStack_mem] at grew
      exact .code _ _ (grew.mono fun a below => inv.ownStack_private (room a below).1)
  | resume f rest isOpen esp =>
      refine .code _ _ ?_
      rw [Stub.run_tail_mem]
      exact AgreeOff.refl _ _
  | schedule retAddr kernelCode switches room =>
      exact .switch retAddr switches fun a below => (room a below).1
  | create entryPoint gotProc gotStack returned =>
      exact .create entryPoint gotProc gotStack returned

/-! ## The invariant -/

structure Uncorrupted (bootStack threadExit : Word) (s : Interruptible) : Prop where
  system : Inv bootStack threadExit s.system
  selectors : KernelSelectors s.machine
  tss : s.system.kernel.tss.ss0 = 0x10
  inside : s.pending s.running ≠ [] → s.machine.cpl = 0
  none : ∀ i, s.system.threads.length ≤ i → s.pending i = []
  taken : ∀ i, ∀ f ∈ s.pending i, f.Taken
  nested : ∀ i f rest, f :: rest <:+ s.pending i → rest ≠ [] → f.found.cpl = 0
  inStack : ∀ i t, s.system.threads[i]? = some t → ∀ f ∈ s.pending i, ∀ a, f.Holds a →
    t.Stack bootStack a
  intact : ∀ i, ∀ f ∈ s.pending i, f.Intact s.machine.mem

namespace Uncorrupted

variable {s : Interruptible} (inv : Uncorrupted bootStack threadExit s)

include inv

/-- Writes that miss what the interrupted code of every thread depends on. -/
theorem intact_agreeOff {touched : Word → Prop} {m : Mem} (agree : AgreeOff touched s.machine.mem m)
    (off : ∀ i t, s.system.threads[i]? = some t → ∀ f ∈ s.pending i, ∀ a, f.Holds a →
      ¬ touched a) (i : ℕ) (f : Interrupted) (member : f ∈ s.pending i) : f.Intact m := by
  by_cases bound : i < s.system.threads.length
  · exact (inv.intact i f member).agreeOff agree
      (off i _ (List.getElem?_eq_getElem bound) f member)
  · rw [inv.none i (by omega)] at member
    contradiction

/-- What the running thread and `switch_task` write. -/
theorem intact_kept {m : Mem}
    (agree : AgreeOff (fun x => s.system.Private bootStack x ∧ s.Free x ∨
      Within (fieldAddr s.system.kernel.currentProcess .esp) 4 x) s.machine.mem m) :
    ∀ i, ∀ f ∈ s.pending i, f.Intact m := by
  obtain ⟨u, atRunning, current⟩ := inv.system.current
  have uIn := List.mem_of_getElem? atRunning
  rw [current, fieldAddr_blockAddr] at agree
  refine inv.intact_agreeOff agree ?_
  rintro i t atI f member a holds (⟨own, free⟩ | inEsp)
  · by_cases here : i = s.running
    · exact free f (here ▸ member) holds
    · exact own.stack i t atI here (inv.inStack i t atI f member a holds)
  · exact inv.system.offPcbs t (List.mem_of_getElem? atI) u uIn a
      (inv.inStack i t atI f member a holds)
      (inBlock_of_within_wordAddr (inv.system.pcbBound uIn) (Field.index_lt _) inEsp)

theorem code {x : X86}
    (agree : AgreeOff (fun a => s.system.Private bootStack a ∧ s.Free a) s.machine.mem x.mem)
    (inside : s.pending s.running ≠ [] → x.cpl = 0) (selectors : KernelSelectors x)
    (system : Inv bootStack threadExit (s.onMachine x)) :
    Uncorrupted bootStack threadExit { s with system := s.onMachine x } :=
  { inv with
    system := system
    selectors := selectors
    inside := inside
    intact := inv.intact_kept (agree.mono fun _ => Or.inl) }

theorem interrupt {stub : Stub} {code : Option Word} (entryAddr : Word) {kept : Word → Prop}
    (fits : stub.CodeFits code)
    (room : ∀ a, (s.machine.innerStack s.system.kernel.tss).Below
      (stub.pushedWords code s.machine) a →
        s.system.OwnStack bootStack a ∧ s.Free a ∧ ¬ kept a)
    (own : ∀ a, kept a → s.system.OwnStack bootStack a)
    (system : Inv bootStack threadExit
      (s.onMachine (stub.arrive s.system.kernel.tss code entryAddr s.machine))) :
    Uncorrupted bootStack threadExit
      { system := s.onMachine (stub.arrive s.system.kernel.tss code entryAddr s.machine)
        pending := Function.update s.pending s.running
          (.arrived stub s.system.kernel.tss code entryAddr s.machine kept ::
            s.pending s.running) } := by
  obtain ⟨u, atRunning, _⟩ := inv.system.current
  have inside := (List.getElem?_eq_some_iff.mp atRunning).1
  obtain ⟨cs, ss⟩ := stub.arrive_selectors s.system.kernel.tss code entryAddr s.machine
  have grew := (stub.arrive_grew s.system.kernel.tss code entryAddr s.machine).mem
  rw [Stub.innerStack_mem] at grew
  have stays := inv.intact_kept (grew.mono fun a below =>
    .inl ⟨inv.system.ownStack_private (room a below).1, (room a below).2.1⟩)
  exact {
    system := system
    selectors := by
      intro _
      refine ⟨cs, ss.trans ?_⟩
      unfold X86.innerStack
      by_cases ring0 : s.machine.cpl = 0
      · rw [if_pos ring0]
        exact (inv.selectors ring0).2
      · rw [if_neg ring0, inv.tss]
        rfl
    tss := inv.tss
    inside := fun _ => congrArg (fun c : Selector => c &&& 3) cs
    none := by
      intro i bound
      have other : i ≠ s.running := Nat.ne_of_gt (Nat.lt_of_lt_of_le inside bound)
      dsimp only
      rw [Function.update_of_ne other]
      exact inv.none i bound
    taken := by
      intro i f member
      rcases Interrupted.update_cons member with ⟨_, rfl⟩ | old
      · exact Interrupted.arrived_taken fits _ _ inv.selectors
      · exact inv.taken i f old
    nested := by
      intro i f rest suffix nonempty
      dsimp only at suffix
      by_cases here : i = s.running
      · rw [here, Function.update_self] at suffix
        rcases List.suffix_cons_iff.mp suffix with new | old
        · obtain ⟨rfl, rfl⟩ := List.cons.inj new
          exact inv.inside nonempty
        · exact inv.nested s.running f rest old nonempty
      · rw [Function.update_of_ne here] at suffix
        exact inv.nested i f rest suffix nonempty
    inStack := by
      intro i t atI f member a holds
      rcases Interrupted.update_cons member with ⟨here, rfl⟩ | old
      · have inOwn : s.system.OwnStack bootStack a :=
          (Interrupted.arrived_holds fits _ _ holds).elim (fun below => (room a below).1) (own a)
        obtain ⟨t', atRunning', inStack⟩ := inOwn
        cases (here ▸ atI : s.system.threads[s.running]? = some t).symm.trans atRunning'
        exact inStack
      · exact inv.inStack i t atI f old a holds
    intact := by
      intro i f member
      rcases Interrupted.update_cons member with ⟨_, rfl⟩ | old
      · exact Interrupted.arrived_intact fits _ _ fun a below => (room a below).2.2
      · exact stays i f old }

theorem resume {f : Interrupted} {rest : List Interrupted}
    (isOpen : s.pending s.running = f :: rest) (esp : s.machine.reg .esp = f.pointer) :
    Resumes f.found (s.machine.run f.stub.tail) ∧
      ∀ a, f.kept a → (s.machine.run f.stub.tail).mem a = f.found.mem a := by
  have member : f ∈ s.pending s.running := isOpen ▸ List.mem_cons_self
  have intact := inv.intact s.running f member
  have kernelCode := inv.inside (isOpen ▸ List.cons_ne_nil f rest)
  refine ⟨intact.resumes (inv.taken s.running f member) kernelCode inv.selectors esp, ?_⟩
  rw [Stub.run_tail_mem]
  exact intact.kept

/-- The stub of the innermost interrupt returns. -/
theorem resumed {f : Interrupted} {rest : List Interrupted}
    (isOpen : s.pending s.running = f :: rest) (esp : s.machine.reg .esp = f.pointer)
    (system : Inv bootStack threadExit (s.onMachine (s.machine.run f.stub.tail))) :
    Uncorrupted bootStack threadExit
      { system := s.onMachine (s.machine.run f.stub.tail)
        pending := Function.update s.pending s.running rest } := by
  have resumes := (inv.resume isOpen esp).1
  have cs := resumes.kept .cs (by simp)
  have ss := resumes.kept .ss (by simp)
  have ring : (s.machine.run f.stub.tail).cpl = f.found.cpl := congrArg (· &&& 3) cs
  have whole : f :: rest <:+ s.pending s.running := isOpen ▸ List.suffix_rfl
  have member : f ∈ s.pending s.running := isOpen ▸ List.mem_cons_self
  have fewer : rest <:+ s.pending s.running := (List.suffix_cons f rest).trans whole
  have old : ∀ i, Function.update s.pending s.running rest i <:+ s.pending i :=
    Interrupted.update_suffix fewer
  exact {
    system := system
    selectors := by
      intro (ring0 : (s.machine.run f.stub.tail).cpl = 0)
      have found := (inv.taken s.running f member).selectors (ring.symm.trans ring0)
      exact ⟨cs.trans found.1, ss.trans found.2⟩
    tss := inv.tss
    inside := by
      intro (nonempty : Function.update s.pending s.running rest s.running ≠ [])
      rw [Function.update_self] at nonempty
      exact ring.trans (inv.nested s.running f rest whole nonempty)
    none := by
      intro i bound
      exact List.suffix_nil.mp (inv.none i bound ▸ old i)
    taken := fun i g member => inv.taken i g ((old i).subset member)
    nested := fun i g more suffix => inv.nested i g more (suffix.trans (old i))
    inStack := fun i t atI g member => inv.inStack i t atI g ((old i).subset member)
    intact := by
      intro i g member
      show g.Intact (s.machine.run f.stub.tail).mem
      rw [Stub.run_tail_mem]
      exact inv.intact i g ((old i).subset member) }

theorem schedule (retAddr : Word) (kernelCode : s.machine.cpl = 0)
    (switches : ¬ s.system.kernel.NothingToSchedule)
    (room : ∀ a, s.machine.Below 8 a → s.system.OwnStack bootStack a ∧ s.Free a) :
    Uncorrupted bootStack threadExit { s with system := s.system.switched retAddr } := by
  have spec := inv.system.switched_spec retAddr switches fun a below => (room a below).1
  have stays := inv.intact_kept (spec.mem.mono fun x => Or.imp_left fun below =>
    ⟨inv.system.ownStack_private (room x below).1, (room x below).2⟩)
  have ring : (s.system.kernel.processSchedule retAddr).machine.cpl = s.machine.cpl :=
    congrArg (fun seg => seg Seg.cs &&& 3) spec.seg
  exact {
    system := inv.system.switch retAddr switches fun a below => (room a below).1
    selectors := by
      intro (ring0 : (s.system.kernel.processSchedule retAddr).machine.cpl = 0)
      show (s.system.kernel.processSchedule retAddr).cpu.seg .cs = _ ∧
        (s.system.kernel.processSchedule retAddr).cpu.seg .ss = _
      rw [spec.seg]
      exact inv.selectors (ring.symm.trans ring0)
    tss := congrArg Tss.ss0 spec.tss
    inside := fun _ => ring.trans kernelCode
    none := inv.none
    taken := inv.taken
    nested := inv.nested
    inStack := inv.inStack
    intact := stays }

theorem create {k : Kernel} {proc : Word} (entryPoint : Word)
    (gotProc : s.system.kernel.createBlocks.2.1 ≠ 0)
    (gotStack : s.system.kernel.createBlocks.2.2 ≠ 0)
    (returned : s.system.kernel.processCreateThread threadExit entryPoint = some (k, proc)) :
    Uncorrupted bootStack threadExit
      { system := s.system.created k proc s.system.kernel.createBlocks.2.2 entryPoint
        pending := Function.update s.pending s.system.threads.length [] } := by
  have system := inv.system.create entryPoint gotProc gotStack returned
  obtain ⟨p, q, k', result, _, creates⟩ := processCreateThread_creates threadExit entryPoint
    inv.system.sound inv.system.queue gotProc gotStack
  cases returned.symm.trans result
  have stays := inv.intact_agreeOff creates.mem fun i t atI f member a holds =>
    inv.system.created_stack creates (List.mem_of_getElem? atI) a
      (inv.inStack i t atI f member a holds)
  have old : ∀ i, Function.update s.pending s.system.threads.length [] i <:+ s.pending i :=
    Interrupted.update_suffix (List.nil_suffix)
  have machine : k.cpu = s.system.kernel.cpu ∧ k.tss = s.system.kernel.tss := by
    rw [creates.rest]
    exact ⟨rfl, rfl⟩
  obtain ⟨u, atRunning, _⟩ := inv.system.current
  have bound : s.running < s.system.threads.length := (List.getElem?_eq_some_iff.mp atRunning).1
  exact {
    system := system
    selectors := by
      show KernelSelectors ⟨k.cpu, k.mem⟩
      rw [machine.1]
      exact inv.selectors
    tss := machine.2 ▸ inv.tss
    inside := by
      intro (nonempty : Function.update s.pending s.system.threads.length [] s.running ≠ [])
      rw [Function.update_of_ne (Nat.ne_of_lt bound)] at nonempty
      show k.cpu.seg .cs &&& 3 = 0
      rw [machine.1]
      exact inv.inside nonempty
    none := by
      intro i above
      rw [System.length_created] at above
      exact List.suffix_nil.mp (inv.none i (Nat.le_of_succ_le above) ▸ old i)
    taken := fun i f member => inv.taken i f ((old i).subset member)
    nested := fun i f rest suffix => inv.nested i f rest (suffix.trans (old i))
    inStack := by
      intro i t atI f member a holds
      rcases getElem?_concat_cases atI with before | ⟨new, _⟩
      · exact inv.inStack i t before f ((old i).subset member) a holds
      · dsimp only at member
        rw [new, Function.update_self] at member
        contradiction
    intact := fun i f member => stays i f ((old i).subset member) }

omit inv in
theorem begin {s : Interruptible} (begins : Begin bootStack s) :
    Uncorrupted bootStack threadExit s := by
  cases begins with
  | boot starts cs ss tss =>
      exact {
        system := Inv.start starts
        selectors := fun _ => ⟨cs, ss⟩
        tss := tss
        inside := fun nonempty => absurd rfl nonempty
        none := fun _ _ => rfl
        taken := fun _ _ member => by contradiction
        nested := fun _ _ _ suffix => by
          have empty := List.suffix_nil.mp suffix
          contradiction
        inStack := fun _ _ _ _ member => by contradiction
        intact := fun _ _ member => by contradiction }

theorem advance {s' : Interruptible} (taken : Advance bootStack threadExit s s') :
    Uncorrupted bootStack threadExit s' := by
  have system := inv.system.step (taken.step inv.system)
  cases taken with
  | code x agree inside selectors => exact inv.code agree inside selectors system
  | interrupt stub code entryAddr kept fits room own =>
      exact inv.interrupt entryAddr fits room own system
  | resume f rest isOpen esp => exact inv.resumed isOpen esp system
  | schedule retAddr kernelCode switches room =>
      exact inv.schedule retAddr kernelCode switches room
  | create entryPoint gotProc gotStack returned =>
      exact inv.create entryPoint gotProc gotStack returned

omit inv in
theorem run (reached : Reach (Begin bootStack) (Advance bootStack threadExit) s) :
    Uncorrupted bootStack threadExit s :=
  reached.invariant (fun _ begins => begin begins) fun _ _ inv taken => inv.advance taken

end Uncorrupted

theorem interrupted_code_resumes {s : Interruptible}
    (reached : Reach (Begin bootStack) (Advance bootStack threadExit) s) {f : Interrupted}
    {rest : List Interrupted} (innermost : s.pending s.running = f :: rest)
    (returned : s.machine.reg .esp = f.pointer) :
    Resumes f.found (s.machine.run f.stub.tail) ∧
      ∀ a, f.kept a → (s.machine.run f.stub.tail).mem a = f.found.mem a :=
  (Uncorrupted.run reached).resume innermost returned

end Runs

/-- The boot thread finds its stack above ESP as it left it. -/
theorem interrupted_code_resumes_timer :
    ∃ (s : Interruptible) (f : Interrupted), s.pending s.running = [f] ∧ f.stub = .irq 32 ∧
      f.found.reg .esp = 0x203000 ∧ Resumes f.found (s.machine.run f.stub.tail) ∧
      ∀ a, Within 0x203000 4096 a → (s.machine.run f.stub.tail).mem a = f.found.mem a := by
  obtain ⟨s, begins, alone, running, threads, cpu⟩ : ∃ s : Interruptible, Begin 0x200000 s ∧
      s.pending s.running = [] ∧ s.system.running = 0 ∧
      s.system.threads[0]? = some ⟨bootKernel.simpleKmalloc.2.toNat / 4096, none⟩ ∧
      s.machine.cpu = bootKernel.cpu :=
    ⟨_, .boot (.boot bootKernel_boots) rfl rfl rfl, rfl, rfl, rfl, rfl⟩
  have ring0 : s.machine.cpl = 0 := by
    rw [X86.cpl, cpu]
    rfl
  have esp : s.machine.reg .esp = 0x203000 := by
    rw [X86.reg, cpu]
    rfl
  have inner : s.machine.innerStack s.system.kernel.tss = s.machine := if_pos ring0
  have words : (Stub.irq 32).pushedWords none s.machine = 15 := by
    have fits : (Stub.irq 32).CodeFits none := rfl
    rw [Interrupted.pushedWords_eq fits, frameWords, if_pos ring0]
  have inOwn : ∀ a, Within 0x200000 16384 a → s.system.OwnStack 0x200000 a := by
    intro a inStack
    rw [← running] at threads
    exact ⟨_, threads, inStack⟩
  have room : ∀ a, (s.machine.innerStack s.system.kernel.tss).Below
      ((Stub.irq 32).pushedWords none s.machine) a →
      s.system.OwnStack 0x200000 a ∧ s.Free a ∧ ¬ Within 0x203000 4096 a := by
    intro a below
    rw [inner, words, X86.Below, esp] at below
    refine ⟨inOwn a ?_, fun f member => ?_, ?_⟩
    · unfold Within at below ⊢
      bv_omega
    · rw [alone] at member
      contradiction
    · unfold Within at below ⊢
      bv_omega
  have above : ∀ a, Within 0x203000 4096 a → s.system.OwnStack 0x200000 a := by
    intro a inKept
    refine inOwn a ?_
    unfold Within at inKept ⊢
    bv_omega
  have taken : Advance 0x200000 0x101000 s _ :=
    .interrupt (.irq 32) none 0x105000 _ rfl room above
  let f := Interrupted.arrived (.irq 32) s.system.kernel.tss none 0x105000 s.machine
    (Within 0x203000 4096)
  have innermost : Function.update s.pending s.running (f :: s.pending s.running) s.running =
      [f] := by
    rw [Function.update_self, alone]
  exact ⟨_, f, innermost, rfl, esp,
    interrupted_code_resumes (.step (.start begins) taken) innermost rfl⟩

end Interruptible

end OrbitOs.Process
