import OrbitOs.Base.Runs
import OrbitOs.Process.Creation

/-!
# Context switches

The kernel with a record of its threads: where the control block and the stack
of each one are, and what it is due to find when it runs next.  The record is
made by the steps; the invariant says that memory agrees with it.
-/

set_option autoImplicit false

namespace OrbitOs.Process

open OrbitOs.Machine OrbitOs.Base OrbitOs.Memory

inductive Status
  | running
  | suspended (found : Context)
  | fresh (entryPoint : Word)

/-- A control block and the block of its stack; the boot thread has none. -/
structure Thread where
  pcb : ℕ
  stackBlock : Option ℕ

structure System where
  kernel : Kernel
  threads : List Thread
  status : ℕ → Status
  running : ℕ

namespace System

/-- The place in the queue after the running thread. -/
def next (s : System) : ℕ := (s.running + 1) % s.threads.length

/-- `process_create_thread` returned `proc` on the stack `stackBase`. -/
def created (s : System) (k : Kernel) (proc stackBase entryPoint : Word) : System where
  kernel := k
  threads := s.threads ++ [⟨proc.toNat / 4096, some (stackBase.toNat / 4096)⟩]
  status := Function.update s.status s.threads.length (.fresh entryPoint)
  running := s.running

theorem length_created (s : System) (k : Kernel) (proc stackBase entryPoint : Word) :
    (s.created k proc stackBase entryPoint).threads.length = s.threads.length + 1 :=
  List.length_append

/-- `process_schedule` switched to the next thread. -/
def switched (s : System) (retAddr : Word) : System where
  kernel := s.kernel.processSchedule retAddr
  threads := s.threads
  status := Function.update
    (Function.update s.status s.running (.suspended (s.kernel.callerContext retAddr))) s.next
    .running
  running := s.next

end System

section Runs

variable (bootStack threadExit : Word)

/-- The bytes of a thread's stack; boot.s reserves 16 KiB for the boot thread. -/
def Thread.Stack (t : Thread) (x : Word) : Prop :=
  match t.stackBlock with
  | none => Within bootStack 16384 x
  | some q => InBlock q x

/-- A byte of the stack of the thread that is running. -/
def System.OwnStack (s : System) (x : Word) : Prop :=
  ∃ t, s.threads[s.running]? = some t ∧ t.Stack bootStack x

/-- A byte that belongs neither to the kernel's records nor to another thread's stack. -/
structure System.Private (s : System) (x : Word) : Prop where
  words : ¬ s.kernel.pmm.InBitmapWords x
  pcb : ∀ t ∈ s.threads, ¬ InBlock t.pcb x
  stack : ∀ i t, s.threads[i]? = some t → i ≠ s.running → ¬ t.Stack bootStack x

/-- The kernel right before `process_initialize`: a block is free, and neither
the free blocks nor the bitmap overlap the boot stack. -/
structure Boots (k : Kernel) : Prop where
  sound : k.pmm.Sound
  allocates : k.simpleKmalloc.2 ≠ 0
  words : ∀ x, Within bootStack 16384 x → ¬ k.pmm.InBitmapWords x
  free : ∀ x, Within bootStack 16384 x → x.toNat / 4096 ∉ k.pmm.freeBlocks

inductive Start : System → Prop
  | boot {k : Kernel} : Boots bootStack k →
      Start ⟨k.processInitialize, [⟨k.simpleKmalloc.2.toNat / 4096, none⟩], fun _ => .running, 0⟩

inductive Step : System → System → Prop
  /-- Both allocations succeed and the function returns. -/
  | create {s : System} {k : Kernel} {proc : Word} (entryPoint : Word) :
      s.kernel.createBlocks.2.1 ≠ 0 → s.kernel.createBlocks.2.2 ≠ 0 →
      s.kernel.processCreateThread threadExit entryPoint = some (k, proc) →
      Step s (s.created k proc s.kernel.createBlocks.2.2 entryPoint)
  /-- The eight words of the call go onto the thread's own stack. -/
  | switch {s : System} (retAddr : Word) : ¬ s.kernel.NothingToSchedule →
      (∀ x, s.kernel.machine.Below 8 x → s.OwnStack bootStack x) →
      Step s (s.switched retAddr)
  | stay {s : System} (retAddr : Word) : s.kernel.NothingToSchedule →
      Step s { s with kernel := s.kernel.processSchedule retAddr }
  /-- Code of the running thread; its own stack is private to it. -/
  | code {s : System} (cpu : Cpu) (m : Mem) :
      AgreeOff (s.Private bootStack) s.kernel.mem m →
      Step s { s with kernel := { s.kernel.withMem m with cpu := cpu } }

/-! ## The invariant -/

/-- Memory holds what the thread is due to find. -/
def Saved (k : Kernel) (t : Thread) : Status → Prop
  | .running => True
  | .suspended found =>
      (∀ x, Within (k.field (blockAddr t.pcb) .esp) 20 x → t.Stack bootStack x) ∧
        contextAt k.mem (k.field (blockAddr t.pcb) .esp) = found
  | .fresh entryPoint => ∃ q, t.stackBlock = some q ∧
      k.field (blockAddr t.pcb) .esp = wordAddr q 1018 ∧
        FreshStack k.mem q threadExit entryPoint

structure Inv (s : System) : Prop where
  sound : s.kernel.pmm.Sound
  queue : RunQueue s.kernel (s.threads.map Thread.pcb)
  current : ∃ t, s.threads[s.running]? = some t ∧ s.kernel.currentProcess = blockAddr t.pcb
  nonzero : ∀ t ∈ s.threads, t.pcb ≠ 0
  stackHeld : ∀ t ∈ s.threads, ∀ q, t.stackBlock = some q → s.kernel.pmm.Holdable q
  bootWords : ∀ x, Within bootStack 16384 x → ¬ s.kernel.pmm.InBitmapWords x
  bootFree : ∀ x, Within bootStack 16384 x → x.toNat / 4096 ∉ s.kernel.pmm.freeBlocks
  offPcbs : ∀ t ∈ s.threads, ∀ u ∈ s.threads, ∀ x, t.Stack bootStack x → ¬ InBlock u.pcb x
  apart : ∀ (i j : ℕ) (t u : Thread), s.threads[i]? = some t → s.threads[j]? = some u → i ≠ j →
    ∀ x, t.Stack bootStack x → ¬ u.Stack bootStack x
  kernelStack : ∀ t ∈ s.threads, ∀ q, t.stackBlock = some q →
    s.kernel.field (blockAddr t.pcb) .kernelStack = blockAddr q + 4096
  tss : ∀ t q, s.threads[s.running]? = some t → t.stackBlock = some q →
    s.kernel.tss = ⟨0x10, blockAddr q + 4096⟩
  running : s.status s.running = .running
  runs : ∀ i t, s.threads[i]? = some t → s.status i = .running → i = s.running
  saved : ∀ i t, s.threads[i]? = some t → Saved bootStack threadExit s.kernel t (s.status i)

variable {bootStack threadExit}

/-! ## Writes of the running thread -/

theorem Saved.agreeOff {k k' : Kernel} {t : Thread} {status : Status} {touched : Word → Prop}
    (saved : Saved bootStack threadExit k t status) (agree : AgreeOff touched k.mem k'.mem)
    (stackOff : ∀ x, t.Stack bootStack x → ¬ touched x)
    (espOff : ∀ x, Within (wordAddr t.pcb 1) 4 x → ¬ touched x)
    (bound : ∀ q, t.stackBlock = some q → q < 2 ^ 20) : Saved bootStack threadExit k' t status := by
  have esp : k'.field (blockAddr t.pcb) .esp = k.field (blockAddr t.pcb) .esp :=
    Kernel.field_agreeOff agree espOff
  cases status with
  | running => trivial
  | suspended found =>
      obtain ⟨inside, context⟩ := saved
      refine ⟨esp ▸ inside, ?_⟩
      rw [esp, ← context]
      exact contextAt_agreeOff agree fun x member => stackOff x (inside x member)
  | fresh entryPoint =>
      obtain ⟨q, block, top, fresh⟩ := saved
      refine ⟨q, block, esp ▸ top, fresh.agreeOff (bound q block) agree fun x inBlock => ?_⟩
      apply stackOff
      rw [Thread.Stack, block]
      exact inBlock

namespace Inv

variable {s : System} (inv : Inv bootStack threadExit s)

include inv

theorem pcbHeld {t : Thread} (member : t ∈ s.threads) : s.kernel.pmm.Holdable t.pcb :=
  inv.queue.held _ (List.mem_map_of_mem member)

theorem pcbBound {t : Thread} (member : t ∈ s.threads) : t.pcb < 2 ^ 20 :=
  inv.queue.bound (List.mem_map_of_mem member)

theorem stackBound {t : Thread} (member : t ∈ s.threads) (q : ℕ) (block : t.stackBlock = some q) :
    q < 2 ^ 20 := (inv.stackHeld t member q block).bound.trans inv.sound.small

theorem stack_words {t : Thread} (member : t ∈ s.threads) {x : Word}
    (inStack : t.Stack bootStack x) : ¬ s.kernel.pmm.InBitmapWords x := by
  cases block : t.stackBlock with
  | none =>
      rw [Thread.Stack, block] at inStack
      exact inv.bootWords x inStack
  | some q =>
      rw [Thread.Stack, block] at inStack
      exact (inv.stackHeld t member q block).clear x inStack

theorem stack_offFree {t : Thread} (member : t ∈ s.threads) {b : ℕ}
    (free : b ∈ s.kernel.pmm.freeBlocks) {x : Word} (inStack : t.Stack bootStack x) :
    ¬ InBlock b x := by
  intro inBlock
  cases block : t.stackBlock with
  | none =>
      rw [Thread.Stack, block] at inStack
      exact inv.bootFree x inStack (inBlock.symm ▸ free)
  | some q =>
      rw [Thread.Stack, block] at inStack
      have used := (inv.stackHeld t member q block).used
      rw [inStack.unique inBlock, (Pmm.mem_freeBlocks.mp free).2] at used
      contradiction

theorem pcb_ne {i j : ℕ} {t u : Thread} (atI : s.threads[i]? = some t)
    (atJ : s.threads[j]? = some u) (other : i ≠ j) : t.pcb ≠ u.pcb := by
  intro same
  have placeI : ((s.threads.map Thread.pcb).map blockAddr)[i]? = some (blockAddr t.pcb) := by
    rw [List.getElem?_map, List.getElem?_map, atI, Option.map_some, Option.map_some]
  have placeJ : ((s.threads.map Thread.pcb).map blockAddr)[j]? = some (blockAddr t.pcb) := by
    rw [List.getElem?_map, List.getElem?_map, atJ, Option.map_some, Option.map_some, same]
  exact other (inv.queue.ring.index_inj placeI placeJ)

/-- What a write to private bytes and to the running thread's saved stack pointer keeps. -/
structure Kept (bootStack threadExit : Word) (s : System) (k : Kernel) : Prop where
  sound : k.pmm.Sound
  queue : RunQueue k (s.threads.map Thread.pcb)
  held : ∀ b, s.kernel.pmm.Holdable b → k.pmm.Holdable b
  words : k.pmm.InBitmapWords = s.kernel.pmm.InBitmapWords
  free : k.pmm.freeBlocks = s.kernel.pmm.freeBlocks
  field : ∀ t ∈ s.threads, ∀ f, f ≠ .esp →
    k.field (blockAddr t.pcb) f = s.kernel.field (blockAddr t.pcb) f
  esp : ∀ i t, s.threads[i]? = some t → i ≠ s.running →
    k.field (blockAddr t.pcb) .esp = s.kernel.field (blockAddr t.pcb) .esp
  saved : ∀ i t, s.threads[i]? = some t → i ≠ s.running → ∀ status,
    Saved bootStack threadExit s.kernel t status → Saved bootStack threadExit k t status

theorem ownStack_private {x : Word} (own : s.OwnStack bootStack x) : s.Private bootStack x := by
  obtain ⟨u, atRunning, inStack⟩ := own
  have uIn := List.mem_of_getElem? atRunning
  exact {
    words := inv.stack_words uIn inStack
    pcb := fun t tIn => inv.offPcbs u uIn t tIn x inStack
    stack := fun i t atI other => inv.apart s.running i u t atRunning atI other.symm x inStack }

theorem kept {k : Kernel}
    (agree : AgreeOff (fun x => s.Private bootStack x ∨
      Within (fieldAddr s.kernel.currentProcess .esp) 4 x) s.kernel.mem k.mem)
    (pmm : k.pmm = s.kernel.pmm.withMem k.mem)
    (sameQueue : k.processQueue = s.kernel.processQueue) : Kept bootStack threadExit s k := by
  obtain ⟨u, atRunning, current⟩ := inv.current
  have uIn := List.mem_of_getElem? atRunning
  have uBound := inv.pcbBound uIn
  rw [current, fieldAddr_blockAddr] at agree
  have inPcb : ∀ x, Within (wordAddr u.pcb Field.esp.index) 4 x → InBlock u.pcb x := fun x =>
    inBlock_of_within_wordAddr uBound (Field.index_lt _)
  have offWords : ∀ x, s.kernel.pmm.InBitmapWords x → ¬ (s.Private bootStack x ∨
      Within (wordAddr u.pcb Field.esp.index) 4 x) := by
    rintro x inWords (own | inEsp)
    · exact own.words inWords
    · exact (inv.pcbHeld uIn).clear x (inPcb x inEsp) inWords
  have offField : ∀ t ∈ s.threads, ∀ f : Field, (t.pcb ≠ u.pcb ∨ f ≠ .esp) →
      ∀ x, Within (wordAddr t.pcb f.index) 4 x → ¬ (s.Private bootStack x ∨
        Within (wordAddr u.pcb Field.esp.index) 4 x) := by
    rintro t tIn f other x inField (own | inEsp)
    · exact own.pcb t tIn (inBlock_of_within_wordAddr (inv.pcbBound tIn) f.index_lt inField)
    · rw [within_wordAddr (inv.pcbBound tIn) f.index_lt] at inField
      rw [within_wordAddr uBound (Field.index_lt _)] at inEsp
      have fBound := f.index_lt
      have eBound := Field.esp.index_lt
      rcases other with otherPcb | otherField
      · omega
      · have : f.index ≠ Field.esp.index := fun same => otherField (Field.index_inj same)
        omega
  have holds : ∀ b, s.kernel.pmm.Holdable b → k.pmm.Holdable b := by
    intro b held
    rw [pmm]
    exact held.withMem agree offWords
  have sound : k.pmm.Sound := by
    rw [pmm]
    exact inv.sound.withMem agree offWords
  exact {
    sound := sound
    held := holds
    words := by rw [pmm]; rfl
    free := by
      rw [pmm]
      exact Pmm.freeBlocks_withMem agree offWords
    queue := {
      ring := by
        refine inv.queue.ring_agreeOff agree fun b member => ?_
        obtain ⟨t, tIn, rfl⟩ := List.mem_map.mp member
        exact offField t tIn .next (Or.inr (by simp))
      head := sameQueue ▸ inv.queue.head
      held := fun b member => holds b (inv.queue.held b member)
      small := sound.small }
    field := fun t tIn f other =>
      Kernel.field_agreeOff agree (offField t tIn f (Or.inr other))
    esp := fun i t atI other => Kernel.field_agreeOff agree
      (offField t (List.mem_of_getElem? atI) .esp (Or.inl (inv.pcb_ne atI atRunning other)))
    saved := by
      intro i t atI other status saved
      have tIn := List.mem_of_getElem? atI
      refine saved.agreeOff agree ?_
        (offField t tIn .esp (Or.inl (inv.pcb_ne atI atRunning other))) (inv.stackBound tIn)
      rintro x inStack (own | inEsp)
      · exact own.stack i t atI other inStack
      · exact inv.offPcbs t tIn u uIn x inStack (inPcb x inEsp) }

end Inv

/-! ## The steps -/

theorem Inv.code {s : System} (inv : Inv bootStack threadExit s) (cpu : Cpu) {m : Mem}
    (own : AgreeOff (s.Private bootStack) s.kernel.mem m) :
    Inv bootStack threadExit { s with kernel := { s.kernel.withMem m with cpu := cpu } } := by
  have kept : Kept bootStack threadExit s { s.kernel.withMem m with cpu := cpu } :=
    inv.kept (own.mono fun x => Or.inl) rfl rfl
  exact {
    sound := kept.sound
    queue := kept.queue
    current := inv.current
    nonzero := inv.nonzero
    stackHeld := fun t member q block => kept.held q (inv.stackHeld t member q block)
    bootWords := inv.bootWords
    bootFree := fun x member => kept.free ▸ inv.bootFree x member
    offPcbs := inv.offPcbs
    apart := inv.apart
    kernelStack := fun t member q block =>
      (kept.field t member .kernelStack (by simp)).trans (inv.kernelStack t member q block)
    tss := inv.tss
    running := inv.running
    runs := inv.runs
    saved := by
      intro i t atI
      by_cases here : i = s.running
      · subst here
        rw [show (s.status s.running) = _ from inv.running]
        trivial
      · exact kept.saved i t atI here _ (inv.saved i t atI) }

theorem Inv.at_next {s : System} (inv : Inv bootStack threadExit s) :
    ∃ v, s.threads[s.next]? = some v ∧ s.kernel.nextProcess = blockAddr v.pcb := by
  obtain ⟨u, atRunning, current⟩ := inv.current
  have place : ((s.threads.map Thread.pcb).map blockAddr)[s.running]? = some (blockAddr u.pcb) := by
    rw [List.getElem?_map, List.getElem?_map, atRunning, Option.map_some, Option.map_some]
  have after := inv.queue.ring.next_at place
  rw [List.length_map, List.length_map, List.getElem?_map, List.getElem?_map] at after
  obtain ⟨b, atB, follows⟩ := Option.map_eq_some_iff.mp after
  obtain ⟨v, atNext, rfl⟩ := Option.map_eq_some_iff.mp atB
  refine ⟨v, atNext, ?_⟩
  rw [Kernel.nextProcess, current]
  exact follows.symm

theorem Inv.next_ne {s : System} (inv : Inv bootStack threadExit s)
    (switches : ¬ s.kernel.NothingToSchedule) : s.next ≠ s.running := by
  intro same
  obtain ⟨u, atRunning, current⟩ := inv.current
  obtain ⟨v, atNext, next⟩ := inv.at_next
  rw [same, atRunning] at atNext
  cases atNext
  exact switches (Or.inr (next.trans current.symm))

/-- `process_schedule` switches as soon as there are two threads. -/
theorem Inv.switches {s : System} (inv : Inv bootStack threadExit s)
    (two : 2 ≤ s.threads.length) : ¬ s.kernel.NothingToSchedule := by
  obtain ⟨u, atRunning, current⟩ := inv.current
  obtain ⟨v, atNext, next⟩ := inv.at_next
  have uIn := List.mem_of_getElem? atRunning
  have inside : s.running < s.threads.length := (List.getElem?_eq_some_iff.mp atRunning).1
  have moves : s.running ≠ s.next := by
    unfold System.next
    rcases (by omega : s.running + 1 < s.threads.length ∨ s.running + 1 = s.threads.length)
      with inner | last
    · rw [Nat.mod_eq_of_lt inner]
      omega
    · rw [last, Nat.mod_self]
      omega
  rintro (null | alone)
  · rw [current, blockAddr_eq_zero_iff (inv.pcbBound uIn)] at null
    exact inv.nonzero u uIn null
  · have same : blockAddr v.pcb = blockAddr u.pcb := next.symm.trans (alone.trans current)
    exact inv.pcb_ne atRunning atNext moves
      (blockAddr_injective (inv.pcbBound (List.mem_of_getElem? atNext)) (inv.pcbBound uIn)
        same).symm

section Switch

variable {s : System} (inv : Inv bootStack threadExit s) (retAddr : Word)
  (switches : ¬ s.kernel.NothingToSchedule)
  (room : ∀ x, s.kernel.machine.Below 8 x → s.OwnStack bootStack x)

include inv switches room

theorem Inv.switched_spec : Switched retAddr s.kernel (s.kernel.processSchedule retAddr) := by
  obtain ⟨u, atRunning, current⟩ := inv.current
  have uIn := List.mem_of_getElem? atRunning
  apply processSchedule_switched switches
  intro x below inEsp
  obtain ⟨t, atRunning', inStack⟩ := room x below
  cases atRunning.symm.trans atRunning'
  rw [current, fieldAddr_blockAddr] at inEsp
  exact inv.offPcbs u uIn u uIn x inStack
    (inBlock_of_within_wordAddr (inv.pcbBound uIn) (Field.index_lt _) inEsp)

theorem Inv.switched_kept : Kept bootStack threadExit s (s.kernel.processSchedule retAddr) := by
  have spec := inv.switched_spec retAddr switches room
  have own : ∀ x, s.kernel.machine.Below 8 x → s.Private bootStack x := fun x below =>
    inv.ownStack_private (room x below)
  refine inv.kept (spec.mem.mono fun x => Or.imp_left (own x)) ?_ ?_
  · exact congrArg Kernel.pmm spec.rest
  · exact (congrArg Kernel.processQueue spec.rest).trans rfl

theorem Inv.switch : Inv bootStack threadExit (s.switched retAddr) := by
  have spec := inv.switched_spec retAddr switches room
  have kept := inv.switched_kept retAddr switches room
  obtain ⟨u, atRunning, current⟩ := inv.current
  obtain ⟨v, atNext, next⟩ := inv.at_next
  have other := inv.next_ne switches
  exact {
    sound := kept.sound
    queue := kept.queue
    current := ⟨v, atNext, spec.currentProcess.trans next⟩
    nonzero := inv.nonzero
    stackHeld := fun t member q block => kept.held q (inv.stackHeld t member q block)
    bootWords := fun x member => kept.words ▸ inv.bootWords x member
    bootFree := fun x member => kept.free ▸ inv.bootFree x member
    offPcbs := inv.offPcbs
    apart := inv.apart
    kernelStack := fun t member q block =>
      (kept.field t member .kernelStack (by simp)).trans (inv.kernelStack t member q block)
    tss := by
      intro t q atNext' block
      cases atNext.symm.trans atNext'
      have top := inv.kernelStack v (List.mem_of_getElem? atNext) q block
      rw [← next] at top
      exact spec.tss.trans (top ▸ rfl)
    running := Function.update_self _ _ _
    runs := by
      intro i t atI isRunning
      unfold System.switched at isRunning
      dsimp only at isRunning
      by_contra other
      have notNext : i ≠ s.next := other
      rw [Function.update_of_ne notNext] at isRunning
      by_cases here : i = s.running
      · rw [here, Function.update_self] at isRunning
        contradiction
      · rw [Function.update_of_ne here] at isRunning
        exact here (inv.runs i t atI isRunning)
    saved := by
      intro i t atI
      unfold System.switched
      dsimp only
      by_cases isNext : i = s.next
      · subst isNext
        rw [Function.update_self]
        trivial
      · rw [Function.update_of_ne isNext]
        by_cases here : i = s.running
        · subst here
          cases atRunning.symm.trans atI
          rw [Function.update_self, Saved, ← current, spec.saved]
          refine ⟨fun x member => ?_, spec.caller⟩
          obtain ⟨t, atRunning', inStack⟩ := room x (member.mono (by omega))
          cases atRunning.symm.trans atRunning'
          exact inStack
        · rw [Function.update_of_ne here]
          exact kept.saved i t atI here _ (inv.saved i t atI) }

end Switch

theorem getElem?_concat_cases {α : Type} {l : List α} {new t : α} {i : ℕ}
    (found : (l ++ [new])[i]? = some t) : l[i]? = some t ∨ i = l.length ∧ t = new := by
  by_cases old : i < l.length
  · rw [List.getElem?_append_left old] at found
    exact Or.inl found
  · have bound := (List.getElem?_eq_some_iff.mp found).1
    rw [List.length_append, List.length_singleton] at bound
    have last : i = l.length := by omega
    rw [last, List.getElem?_concat_length] at found
    exact Or.inr ⟨last, (Option.some.inj found).symm⟩

section Create

variable {s : System} (inv : Inv bootStack threadExit s) {entryPoint : Word} {p q : ℕ}
  {k : Kernel}
  (creates : Creates threadExit entryPoint s.kernel (s.threads.map Thread.pcb) p q k)

include inv creates

/-- No field but `next` of a control block is touched. -/
theorem Inv.created_field {t : Thread} (member : t ∈ s.threads) {f : Field} (other : f ≠ .next)
    (x : Word) (inField : Within (wordAddr t.pcb f.index) 4 x) :
    ¬ (s.kernel.pmm.InBitmapWords x ∨ InBlock p x ∨ InBlock q x ∨
      ∃ b ∈ s.threads.map Thread.pcb, Within (wordAddr b 4) 4 x) := by
  have tBound := inv.pcbBound member
  have held := inv.pcbHeld member
  have kept := (creates.keeps _ held).2
  have inBlock := inBlock_of_within_wordAddr tBound f.index_lt inField
  rintro (inWords | inP | inQ | ⟨b, inQueue, inNext⟩)
  · exact held.clear x inBlock inWords
  · exact kept.1 (inBlock.unique inP)
  · exact kept.2 (inBlock.unique inQ)
  · have fBound := f.index_lt
    have differ : f.index ≠ Field.next.index := fun same => other (Field.index_inj same)
    rw [within_wordAddr tBound fBound] at inField
    rw [within_wordAddr (inv.queue.bound inQueue) (by omega)] at inNext
    have next : Field.next.index = 4 := rfl
    omega

theorem Inv.created_stack {t : Thread} (member : t ∈ s.threads) (x : Word)
    (inStack : t.Stack bootStack x) :
    ¬ (s.kernel.pmm.InBitmapWords x ∨ InBlock p x ∨ InBlock q x ∨
      ∃ b ∈ s.threads.map Thread.pcb, Within (wordAddr b 4) 4 x) := by
  rintro (inWords | inP | inQ | ⟨b, inQueue, inNext⟩)
  · exact inv.stack_words member inStack inWords
  · exact inv.stack_offFree member creates.pFree inStack inP
  · exact inv.stack_offFree member creates.qFree inStack inQ
  · obtain ⟨u, uIn, rfl⟩ := List.mem_map.mp inQueue
    exact inv.offPcbs t member u uIn x inStack
      (inBlock_of_within_wordAddr (inv.pcbBound uIn) (by omega) inNext)

theorem Inv.created_offPcbs (t : Thread) (tIn : t ∈ s.threads ++ [⟨p, some q⟩]) (v : Thread)
    (vIn : v ∈ s.threads ++ [⟨p, some q⟩]) (x : Word) (inStack : t.Stack bootStack x) :
    ¬ InBlock v.pcb x := by
  intro inPcb
  rcases List.mem_append.mp tIn with tBefore | tNew
  · rcases List.mem_append.mp vIn with vBefore | vNew
    · exact inv.offPcbs t tBefore v vBefore x inStack inPcb
    · cases List.mem_singleton.mp vNew
      exact inv.stack_offFree tBefore creates.pFree inStack inPcb
  · cases List.mem_singleton.mp tNew
    rcases List.mem_append.mp vIn with vBefore | vNew
    · exact (creates.keeps _ (inv.pcbHeld vBefore)).2.2 (inPcb.unique inStack)
    · cases List.mem_singleton.mp vNew
      exact creates.distinct (inPcb.unique inStack)

theorem Inv.created_apart (i j : ℕ) (t v : Thread)
    (atI : (s.threads ++ [⟨p, some q⟩])[i]? = some t)
    (atJ : (s.threads ++ [⟨p, some q⟩])[j]? = some v) (other : i ≠ j) (x : Word)
    (inT : t.Stack bootStack x) : ¬ v.Stack bootStack x := by
  intro inV
  rcases getElem?_concat_cases atI with tBefore | ⟨iNew, tNew⟩
  · rcases getElem?_concat_cases atJ with vBefore | ⟨jNew, vNew⟩
    · exact inv.apart i j t v tBefore vBefore other x inT inV
    · subst vNew
      exact inv.stack_offFree (List.mem_of_getElem? tBefore) creates.qFree inT inV
  · subst tNew
    rcases getElem?_concat_cases atJ with vBefore | ⟨jNew, vNew⟩
    · exact inv.stack_offFree (List.mem_of_getElem? vBefore) creates.qFree inV inT
    · exact other (iNew.trans jNew.symm)

theorem Inv.created_kernelStack (t : Thread) (member : t ∈ s.threads ++ [⟨p, some q⟩]) (b : ℕ)
    (block : t.stackBlock = some b) :
    k.field (blockAddr t.pcb) .kernelStack = blockAddr b + 4096 := by
  rcases List.mem_append.mp member with before | new
  · refine Eq.trans ?_ (inv.kernelStack t before b block)
    exact Kernel.field_agreeOff creates.mem (inv.created_field creates before (by simp))
  · cases List.mem_singleton.mp new
    cases block
    exact creates.kernelStack

theorem Inv.created_saved (i : ℕ) (t : Thread)
    (atI : (s.threads ++ [⟨p, some q⟩])[i]? = some t) :
    Saved bootStack threadExit k t
      (Function.update s.status s.threads.length (.fresh entryPoint) i) := by
  rcases getElem?_concat_cases atI with before | ⟨iNew, tNew⟩
  · have tIn := List.mem_of_getElem? before
    have bound := (List.getElem?_eq_some_iff.mp before).1
    rw [Function.update_of_ne (Nat.ne_of_lt bound)]
    exact (inv.saved i t before).agreeOff creates.mem (inv.created_stack creates tIn)
      (inv.created_field creates tIn (f := .esp) (by simp)) (inv.stackBound tIn)
  · subst iNew tNew
    rw [Function.update_self]
    exact ⟨q, rfl, creates.esp, creates.fresh⟩

theorem Inv.append : Inv bootStack threadExit
    { kernel := k
      threads := s.threads ++ [⟨p, some q⟩]
      status := Function.update s.status s.threads.length (.fresh entryPoint)
      running := s.running } := by
  obtain ⟨u, atRunning, current⟩ := inv.current
  have inside : s.running < s.threads.length := (List.getElem?_eq_some_iff.mp atRunning).1
  have atRunning' : (s.threads ++ [⟨p, some q⟩])[s.running]? = some u := by
    rw [List.getElem?_append_left inside]
    exact atRunning
  have sameCurrent : k.currentProcess = s.kernel.currentProcess := by rw [creates.rest]
  have sameTss : k.tss = s.kernel.tss := by rw [creates.rest]
  exact {
    sound := creates.sound
    queue := by
      rw [List.map_append]
      exact creates.queue
    current := ⟨u, atRunning', sameCurrent.trans current⟩
    nonzero := by
      intro t member
      rcases List.mem_append.mp member with before | new
      · exact inv.nonzero t before
      · cases List.mem_singleton.mp new
        exact creates.nonzero
    stackHeld := by
      intro t member b block
      rcases List.mem_append.mp member with before | new
      · exact (creates.keeps b (inv.stackHeld t before b block)).1
      · cases List.mem_singleton.mp new
        cases block
        exact creates.qHeld
    bootWords := fun x member => creates.words ▸ inv.bootWords x member
    bootFree := fun x member free => inv.bootFree x member (creates.shrinks _ free)
    offPcbs := inv.created_offPcbs creates
    apart := inv.created_apart creates
    kernelStack := inv.created_kernelStack creates
    tss := by
      intro t b atT block
      cases atRunning'.symm.trans atT
      exact sameTss.trans (inv.tss u b atRunning block)
    running := (Function.update_of_ne (Nat.ne_of_lt inside) _ _).trans inv.running
    runs := by
      intro i t atI isRunning
      rcases getElem?_concat_cases atI with before | ⟨iNew, _⟩
      · have bound := (List.getElem?_eq_some_iff.mp before).1
        dsimp only at isRunning
        rw [Function.update_of_ne (Nat.ne_of_lt bound)] at isRunning
        exact inv.runs i t before isRunning
      · subst iNew
        dsimp only at isRunning
        rw [Function.update_self] at isRunning
        contradiction
    saved := inv.created_saved creates }

end Create

theorem Inv.create {s : System} (inv : Inv bootStack threadExit s) {k : Kernel} {proc : Word}
    (entryPoint : Word) (gotProc : s.kernel.createBlocks.2.1 ≠ 0)
    (gotStack : s.kernel.createBlocks.2.2 ≠ 0)
    (returned : s.kernel.processCreateThread threadExit entryPoint = some (k, proc)) :
    Inv bootStack threadExit (s.created k proc s.kernel.createBlocks.2.2 entryPoint) := by
  obtain ⟨p, q, k', result, blocks, creates⟩ :=
    processCreateThread_creates threadExit entryPoint inv.sound inv.queue gotProc gotStack
  cases returned.symm.trans result
  have pcb : (blockAddr p).toNat / 4096 = p := by
    rw [toNat_blockAddr (creates.pHeld.bound.trans creates.sound.small)]
    omega
  have stack : (blockAddr q).toNat / 4096 = q := by
    rw [toNat_blockAddr (creates.qHeld.bound.trans creates.sound.small)]
    omega
  unfold System.created
  rw [blocks]
  dsimp only
  rw [pcb, stack]
  exact inv.append creates

/-! ## Runs -/

theorem exists_kmalloc {k : Kernel} (sound : k.pmm.Sound) (allocates : k.simpleKmalloc.2 ≠ 0) :
    ∃ p pmm, Pmm.Allocates k.pmm p pmm ∧
      k.simpleKmalloc = ({ k with pmm := pmm }, blockAddr p) := by
  unfold Kernel.simpleKmalloc at allocates ⊢
  rcases sound.alloc with ⟨p, pmm, allocated, result⟩ | ⟨_, result⟩
  · rw [result]
    exact ⟨p, pmm, allocated, rfl⟩
  · rw [result] at allocates
    exact absurd rfl allocates

/-- The stores of `process_initialize` behind that of the pid. -/
theorem initStores_spec (k : Kernel) {p : ℕ} (bound : p < 2 ^ 20) :
    let k₂ := k.setField (blockAddr p) .next (blockAddr p)
    let k₃ := k₂.setField (blockAddr p) .kernelStack (k₂.cpu.reg .esp + 4096)
    let k₄ := k₃.setField (blockAddr p) .pageDirectory k₃.cpu.cr3
    AgreeOff (InBlock p) k.mem k₄.mem ∧ k₄.field (blockAddr p) .next = blockAddr p ∧
      k₄.field (blockAddr p) .id = k.field (blockAddr p) .id := by
  intro k₂ k₃ k₄
  have linked : AgreeOff (InBlock p) k.mem k₂.mem := k.setField_agreeOff bound .next _
  have stacked : AgreeOff (InBlock p) k₂.mem k₃.mem := k₂.setField_agreeOff bound .kernelStack _
  have filled : AgreeOff (InBlock p) k₃.mem k₄.mem := k₃.setField_agreeOff bound .pageDirectory _
  refine ⟨(linked.trans stacked).trans filled, ?_, ?_⟩
  · rw [k₃.field_setField bound bound, if_neg (by simp), k₂.field_setField bound bound,
      if_neg (by simp), k.field_setField bound bound, if_pos ⟨rfl, rfl⟩]
  · rw [k₃.field_setField bound bound, if_neg (by simp), k₂.field_setField bound bound,
      if_neg (by simp), k.field_setField bound bound, if_neg (by simp)]

/-- `k'` is what `process_initialize` leaves of `k`, with the new process in block `p`. -/
structure Initializes (k : Kernel) (p : ℕ) (taken : Pmm) (k' : Kernel) : Prop where
  pmm : k'.pmm = taken.withMem k'.mem
  mem : AgreeOff (InBlock p) taken.mem k'.mem
  next : k'.field (blockAddr p) .next = blockAddr p
  id : k'.field (blockAddr p) .id = k.nextPid
  nextPid : k'.nextPid = k.nextPid + 1
  current : k'.currentProcess = blockAddr p
  queue : k'.processQueue = blockAddr p

theorem processInitialize_initializes {k : Kernel} {p : ℕ} {pmm : Pmm} (bound : p < 2 ^ 20)
    (addr : k.simpleKmalloc = ({ k with pmm := pmm }, blockAddr p)) :
    Initializes k p pmm k.processInitialize := by
  let start : Kernel := { k with pmm := pmm, currentProcess := blockAddr p }
  have identified : AgreeOff (InBlock p) pmm.mem (start.takePid (blockAddr p)).mem :=
    start.setField_agreeOff bound .id start.nextPid
  have pid : (start.takePid (blockAddr p)).field (blockAddr p) .id = k.nextPid := by
    have atId := start.field_setField bound bound .id .id start.nextPid
    rwa [if_pos ⟨rfl, rfl⟩] at atId
  obtain ⟨stored, next, id⟩ := initStores_spec (start.takePid (blockAddr p)) bound
  obtain ⟨filled, value, agree, linked, named, samePmm, nextPid, current⟩ :
      ∃ filled : Kernel, k.processInitialize = { filled with processQueue := blockAddr p } ∧
        AgreeOff (InBlock p) pmm.mem filled.mem ∧
        filled.field (blockAddr p) .next = blockAddr p ∧
        filled.field (blockAddr p) .id = k.nextPid ∧ filled.pmm = pmm.withMem filled.mem ∧
        filled.nextPid = k.nextPid + 1 ∧ filled.currentProcess = blockAddr p := by
    refine ⟨_, ?_, identified.trans stored, next, id.trans pid, rfl, rfl, rfl⟩
    unfold Kernel.processInitialize
    rw [addr]
  rw [value]
  exact ⟨samePmm, agree, linked, named, nextPid, current, rfl⟩

theorem Inv.start {s : System} (starts : Start bootStack s) : Inv bootStack threadExit s := by
  cases starts with
  | @boot k boots =>
      obtain ⟨p, pmm, allocates, got⟩ := exists_kmalloc boots.sound boots.allocates
      obtain ⟨samePmm, agree, next, -, -, current, queue⟩ :=
        processInitialize_initializes allocates.lt got
      have addr : k.simpleKmalloc.2 = blockAddr p := congrArg Prod.snd got
      have bound : p < 2 ^ 20 := allocates.holdable.bound.trans allocates.sound.small
      have off := allocates.holdable.off
      have pcb : k.simpleKmalloc.2.toNat / 4096 = p := by
        rw [addr, toNat_blockAddr bound]
        omega
      have sound : k.processInitialize.pmm.Sound := by
        rw [samePmm]
        exact allocates.sound.withMem agree off
      have held : k.processInitialize.pmm.Holdable p := by
        rw [samePmm]
        exact allocates.holdable.withMem agree off
      have free : k.processInitialize.pmm.freeBlocks = pmm.freeBlocks := by
        rw [samePmm]
        exact Pmm.freeBlocks_withMem agree off
      have words : k.processInitialize.pmm.InBitmapWords = k.pmm.InBitmapWords := by
        rw [samePmm]
        unfold Pmm.InBitmapWords
        dsimp only [Pmm.withMem]
        rw [allocates.maxBlocks, allocates.bitmap]
      rw [pcb]
      have only : ∀ t, t ∈ [(⟨p, none⟩ : Thread)] → t = ⟨p, none⟩ := fun _ => List.mem_singleton.mp
      exact {
        sound := sound
        queue := {
          ring := Ring.singleton next
          head := queue ▸ rfl
          held := fun b member => List.mem_singleton.mp member ▸ held
          small := sound.small }
        current := ⟨_, rfl, current⟩
        nonzero := fun t member => only t member ▸ allocates.nonzero
        stackHeld := by
          intro t member q block
          cases only t member
          contradiction
        bootWords := fun x member => words ▸ boots.words x member
        bootFree := fun x member isFree =>
          boots.free x member (allocates.shrinks _ (free ▸ isFree)).1
        offPcbs := by
          intro t tIn u uIn x inStack inPcb
          cases only t tIn
          cases only u uIn
          exact boots.free x inStack (inPcb.symm ▸ allocates.wasFree)
        apart := by
          intro i j t u atI atJ other
          have iBound := (List.getElem?_eq_some_iff.mp atI).1
          have jBound := (List.getElem?_eq_some_iff.mp atJ).1
          dsimp only [List.length_singleton] at iBound jBound
          omega
        kernelStack := by
          intro t member q block
          cases only t member
          contradiction
        tss := by
          intro t q atT block
          cases only t (List.mem_of_getElem? atT)
          contradiction
        running := rfl
        runs := by
          intro i t atI _
          have bound := (List.getElem?_eq_some_iff.mp atI).1
          dsimp only [List.length_singleton] at bound ⊢
          omega
        saved := fun _ _ _ => trivial }

theorem Inv.step {s s' : System} (inv : Inv bootStack threadExit s)
    (taken : Step bootStack threadExit s s') : Inv bootStack threadExit s' := by
  cases taken with
  | create entryPoint gotProc gotStack returned =>
      exact inv.create entryPoint gotProc gotStack returned
  | switch retAddr switches room => exact inv.switch retAddr switches room
  | stay retAddr nothing =>
      unfold Kernel.processSchedule
      rw [if_pos nothing]
      exact inv
  | code cpu m own => exact inv.code cpu own

theorem Inv.run {s : System}
    (reached : Reach (Start bootStack) (Step bootStack threadExit) s) :
    Inv bootStack threadExit s :=
  reached.invariant (fun _ starts => Inv.start starts) fun _ _ inv taken => inv.step taken

/-- Thread `t` continues in `k` with what it is due to find. -/
def Continues (threadExit : Word) (k : Kernel) : Status → Prop
  | .running => False
  | .suspended found => contextOf k.machine = found
  | .fresh entryPoint => k.cpu.eip = entryPoint ∧ k.machine.peek 0 = threadExit

/-- The running thread and the next one are those of `current_process` before
and after the call; CR3 and the task state segment are those of the next. -/
structure Dispatches (threadExit : Word) (s : System) (k : Kernel) : Prop where
  names : (s.threads.map Thread.pcb).Nodup
  leaves : ∃ t, s.threads[s.running]? = some t ∧ s.kernel.currentProcess = blockAddr t.pcb
  enters : ∃ t, s.threads[s.next]? = some t ∧ k.currentProcess = blockAddr t.pcb
  continues : Continues threadExit k (s.status s.next)
  cr3 : k.cpu.cr3 = k.field k.currentProcess .pageDirectory
  tss : k.tss = ⟨0x10, k.field k.currentProcess .kernelStack⟩

section Dispatch

variable {s : System} (inv : Inv bootStack threadExit s) (retAddr : Word)
  (switches : ¬ s.kernel.NothingToSchedule)
  (room : ∀ x, s.kernel.machine.Below 8 x → s.OwnStack bootStack x)

include inv switches room

/-- The next thread finds what memory held for it before the call. -/
theorem Inv.resumed {v : Thread} (atNext : s.threads[s.next]? = some v) :
    Saved bootStack threadExit (s.kernel.processSchedule retAddr) v (s.status s.next) ∧
      contextOf (s.kernel.processSchedule retAddr).machine =
        contextAt (s.kernel.processSchedule retAddr).mem
          ((s.kernel.processSchedule retAddr).field (blockAddr v.pcb) .esp) := by
  have kept := inv.switched_kept retAddr switches room
  have other := inv.next_ne switches
  obtain ⟨v', atNext', next⟩ := inv.at_next
  cases atNext.symm.trans atNext'
  refine ⟨kept.saved s.next v atNext other _ (inv.saved s.next v atNext), ?_⟩
  rw [kept.esp s.next v atNext other, ← next]
  exact (inv.switched_spec retAddr switches room).resumed

theorem Inv.fresh_resumed {v : Thread} (atNext : s.threads[s.next]? = some v) {entryPoint : Word}
    (status : s.status s.next = .fresh entryPoint) :
    ∃ q, v.stackBlock = some q ∧
      contextOf (s.kernel.processSchedule retAddr).machine =
        ⟨0, 0, 0, 0, entryPoint, wordAddr q 1023⟩ ∧
      word (s.kernel.processSchedule retAddr).mem q 1023 = threadExit := by
  obtain ⟨saved, resumed⟩ := inv.resumed retAddr switches room atNext
  rw [status] at saved
  obtain ⟨q, block, esp, fresh⟩ := saved
  rw [esp, fresh.context] at resumed
  exact ⟨q, block, resumed, fresh.exit⟩

theorem Inv.dispatches : Dispatches threadExit s (s.kernel.processSchedule retAddr) := by
  have spec := inv.switched_spec retAddr switches room
  have kept := inv.switched_kept retAddr switches room
  obtain ⟨v, atNext, next⟩ := inv.at_next
  have vIn := List.mem_of_getElem? atNext
  have current : (s.kernel.processSchedule retAddr).currentProcess = blockAddr v.pcb :=
    spec.currentProcess.trans next
  exact {
    names := List.Nodup.of_map _ inv.queue.ring.nodup
    leaves := inv.current
    enters := ⟨v, atNext, current⟩
    continues := by
      cases status : s.status s.next with
      | running => exact inv.next_ne switches (inv.runs s.next v atNext status)
      | suspended found =>
          obtain ⟨saved, resumed⟩ := inv.resumed retAddr switches room atNext
          rw [status] at saved
          exact resumed.trans saved.2
      | fresh entryPoint =>
          obtain ⟨q, _, context, exit⟩ := inv.fresh_resumed retAddr switches room atNext status
          have esp : (s.kernel.processSchedule retAddr).machine.reg .esp = wordAddr q 1023 :=
            congrArg Context.esp context
          refine ⟨congrArg Context.eip context, ?_⟩
          rw [X86.peek, esp, wordAddr_add]
          exact exit
    cr3 := by
      rw [spec.cr3, current, kept.field v vIn _ (by simp), next]
    tss := by
      rw [spec.tss, current, kept.field v vIn _ (by simp), next] }

end Dispatch

theorem context_switches_preserve {s : System}
    (reached : Reach (Start bootStack) (Step bootStack threadExit) s)
    (switches : ¬ s.kernel.NothingToSchedule) (retAddr : Word)
    (room : ∀ x, s.kernel.machine.Below 8 x → s.OwnStack bootStack x) :
    Dispatches threadExit s (s.kernel.processSchedule retAddr) :=
  (Inv.run reached).dispatches retAddr switches room

end Runs

/-! ## A run with two threads -/

/-- ESP points into a boot stack at `0x200000`, above the blocks and their bitmap. -/
def bootKernel : Kernel where
  pmm := Pmm.eightBlocks
  cpu := ⟨fun r => if r = .esp then 0x203000 else 0, fun r => if r = .cs then 0x08 else 0x10,
    0, 0, 0⟩
  tss := ⟨0x10, 0⟩
  currentProcess := 0
  processQueue := 0
  nextPid := 1

theorem bootKernel_boots : Boots 0x200000 bootKernel := by
  have base : (0x200000 : Word).toNat = 0x200000 := rfl
  refine ⟨Pmm.eightBlocks_sound, by decide, ?_, ?_⟩
  · intro x inStack inWords
    have words : Within 0x100000 4 x := inWords
    rw [within_iff_of_noWrap (by simp)] at inStack words
    have low : (0x100000 : Word).toNat = 0x100000 := rfl
    omega
  · intro x inStack free
    have bound : x.toNat / 4096 < 8 := (Pmm.mem_freeBlocks.mp free).1
    rw [within_iff_of_noWrap (by simp)] at inStack
    omega

/-- The boot thread has created a thread and is about to be switched away from. -/
structure TwoThreads (s : System) : Prop where
  made : ∃ (s₀ : System) (k : Kernel) (proc : Word), Start 0x200000 s₀ ∧
    s₀.kernel.cpu = bootKernel.cpu ∧ s₀.kernel.createBlocks.2.1 ≠ 0 ∧
    s₀.kernel.createBlocks.2.2 ≠ 0 ∧
    s₀.kernel.processCreateThread 0x101000 0x102000 = some (k, proc) ∧
    s = s₀.created k proc s₀.kernel.createBlocks.2.2 0x102000
  threads : ∃ b p q, s.threads = [⟨b, none⟩, ⟨p, some q⟩]
  running : s.running = 0
  status : s.status 1 = .fresh 0x102000
  cpu : s.kernel.cpu = bootKernel.cpu

theorem twoThreads_exists : ∃ s, TwoThreads s := by
  have begins : Start 0x200000 ⟨bootKernel.processInitialize,
      [⟨bootKernel.simpleKmalloc.2.toNat / 4096, none⟩], fun _ => .running, 0⟩ :=
    .boot bootKernel_boots
  have inv : Inv 0x200000 0x101000 _ := Inv.start begins
  have gotProc : bootKernel.processInitialize.createBlocks.2.1 ≠ 0 := by decide +kernel
  have gotStack : bootKernel.processInitialize.createBlocks.2.2 ≠ 0 := by decide +kernel
  obtain ⟨p, q, k, returned, _, creates⟩ :=
    processCreateThread_creates 0x101000 0x102000 inv.sound inv.queue gotProc gotStack
  have cpu : k.cpu = bootKernel.cpu := by
    rw [creates.rest]
    rfl
  exact ⟨_, ⟨_, k, blockAddr p, begins, rfl, gotProc, gotStack, returned, rfl⟩, ⟨_, _, _, rfl⟩, rfl,
    rfl, cpu⟩

namespace TwoThreads

variable {s : System} (two : TwoThreads s)

include two

theorem reached : Reach (Start 0x200000) (Step 0x200000 0x101000) s := by
  obtain ⟨s₀, k, proc, begins, _, gotProc, gotStack, returned, rfl⟩ := two.made
  exact .step (.start begins) (.create 0x102000 gotProc gotStack returned)

theorem next_eq : s.next = 1 := by
  obtain ⟨b, p, q, threads⟩ := two.threads
  rw [System.next, threads, two.running]
  rfl

theorem switches : ¬ s.kernel.NothingToSchedule := by
  obtain ⟨b, p, q, threads⟩ := two.threads
  refine (Inv.run two.reached).switches ?_
  rw [threads]
  exact Nat.le_refl 2

theorem ownStack {x : Word} (inside : Within 0x200000 16384 x) : s.OwnStack 0x200000 x := by
  obtain ⟨b, p, q, threads⟩ := two.threads
  exact ⟨⟨b, none⟩, by rw [threads, two.running]; rfl, inside⟩

theorem room (x : Word) (below : s.kernel.machine.Below 8 x) : s.OwnStack 0x200000 x := by
  have esp : s.kernel.machine.reg .esp = 0x203000 := by
    unfold Kernel.machine X86.reg
    rw [two.cpu]
    rfl
  have inside : Within (0x200000 + BitVec.ofNat 32 0x2FE0) 32 x := by
    unfold X86.Below at below
    rw [esp] at below
    exact below
  exact two.ownStack (inside.offset (by omega))

end TwoThreads

theorem context_switches_preserve_firstDispatch :
    ∃ s, Reach (Start 0x200000) (Step 0x200000 0x101000) s ∧ s.status s.next = .fresh 0x102000 ∧
      Dispatches 0x101000 s (s.kernel.processSchedule 0x103000) := by
  obtain ⟨s, two⟩ := twoThreads_exists
  refine ⟨s, two.reached, two.next_eq ▸ two.status, ?_⟩
  exact context_switches_preserve two.reached two.switches 0x103000 two.room

end OrbitOs.Process
