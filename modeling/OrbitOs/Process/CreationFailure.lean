import OrbitOs.Process.Creation

/-!
# Thread creation without memory

`process_create_thread` does not look at the two addresses it gets.  The log
below lists the word stores of the call in order, those of the allocator
included; replaying it gives the memory the call leaves.  Whenever one of the
allocations returns 0 the log has a store in page 0.
-/

set_option autoImplicit false

namespace OrbitOs.Process

open OrbitOs.Machine OrbitOs.Base OrbitOs.Memory

abbrev WordStore := Word × Word

def replay (m : Mem) (stores : List WordStore) : Mem :=
  stores.foldl (fun m store => st32 m store.1 store.2) m

theorem replay_append (m : Mem) (stores stores' : List WordStore) :
    replay m (stores ++ stores') = replay (replay m stores) stores' := List.foldl_append

/-! ## The functions with their stores -/

/-- The stores of `pmmAllocLoop`. -/
def allocLoopStores : ℕ → Word → Pmm → List WordStore
  | 0, _, _ => []
  | left + 1, i, s =>
    if i < s.maxBlocks then
      if s.bitmapTest i = 0 then [(s.wordAt i, ld32 s.mem (s.wordAt i) ||| 1#32 <<< (i % 32))]
      else allocLoopStores left (i + 1) s
    else []

def allocStores (s : Pmm) : List WordStore := allocLoopStores s.maxBlocks.toNat 0 s

/-- The stores `*(--stack) = v`. -/
def pushStores (x : X86) : List Word → List WordStore
  | [] => []
  | v :: vs => (x.reg .esp - 4, v) :: pushStores (x.push v) vs

/-- A kernel and the stores that led to it. -/
structure Logged where
  kernel : Kernel
  stores : List WordStore

namespace Logged

def setField (w : Logged) (p : Word) (f : Field) (v : Word) : Logged :=
  ⟨w.kernel.setField p f v, w.stores ++ [(fieldAddr p f, v)]⟩

def takePid (w : Logged) (p : Word) : Logged :=
  ⟨w.kernel.takePid p, w.stores ++ [(fieldAddr p .id, w.kernel.nextPid)]⟩

def simpleKmalloc (w : Logged) : Logged × Word :=
  let (kernel, addr) := w.kernel.simpleKmalloc
  (⟨kernel, w.stores ++ allocStores w.kernel.pmm⟩, addr)

def frameBuilt (w : Logged) (stackTop : Word) (vs : List Word) : Logged × Word :=
  let built := w.kernel.frameBuilt stackTop vs
  (⟨w.kernel.withMem built.mem,
    w.stores ++ pushStores ⟨w.kernel.cpu.set .esp stackTop, w.kernel.mem⟩ vs⟩, built.reg .esp)

end Logged

/-- `process_create_thread` up to the search for the tail. -/
def logFilled (threadExit entryPoint : Word) (k : Kernel) : Logged × Word :=
  let (w, proc) := (Logged.mk k []).simpleKmalloc
  let w := w.takePid proc
  let (w, stackBase) := w.simpleKmalloc
  let stackTop := stackBase + 4096
  let w := w.setField proc .kernelStack stackTop
  let (w, stack) := w.frameBuilt stackTop [threadExit, entryPoint, 0, 0, 0, 0]
  let w := w.setField proc .esp stack
  (w.setField proc .pageDirectory w.kernel.cpu.cr3, proc)

/-- The whole call; when the search for the tail never ends it stops there. -/
def logCreate (threadExit entryPoint : Word) (k : Kernel) : Logged :=
  let (w, proc) := logFilled threadExit entryPoint k
  match tailFrom w.kernel.follow w.kernel.processQueue (2 ^ 32) w.kernel.processQueue with
  | none => w
  | some tail =>
    let w := w.setField tail .next proc
    w.setField proc .next w.kernel.processQueue

theorem processCreateThread_logged {threadExit entryPoint : Word} {k k' : Kernel} {proc : Word}
    (created : k.processCreateThread threadExit entryPoint = some (k', proc)) :
    (logCreate threadExit entryPoint k).kernel = k' ∧
      (logFilled threadExit entryPoint k).2 = proc := by
  have same : k.processCreateThread threadExit entryPoint =
      (tailFrom (logFilled threadExit entryPoint k).1.kernel.follow
        (logFilled threadExit entryPoint k).1.kernel.processQueue (2 ^ 32)
        (logFilled threadExit entryPoint k).1.kernel.processQueue).map fun tail =>
          let proc := (logFilled threadExit entryPoint k).2
          let k := (logFilled threadExit entryPoint k).1.kernel.setField tail .next proc
          (k.setField proc .next k.processQueue, proc) := rfl
  rw [same] at created
  unfold logCreate
  generalize logFilled threadExit entryPoint k = filled at created ⊢
  obtain ⟨w, p⟩ := filled
  obtain ⟨tail, found, result⟩ := Option.map_eq_some_iff.mp created
  obtain ⟨rfl, rfl⟩ := Prod.mk.inj result
  dsimp only at found ⊢
  rw [found]
  exact ⟨rfl, rfl⟩

/-! ## The log is the memory -/

/-- Replaying the log on `m` gives the memory of the kernel. -/
def Logged.Replays (m : Mem) (w : Logged) : Prop := w.kernel.mem = replay m w.stores

theorem replay_allocLoopStores (s : Pmm) (left : ℕ) (i : Word) :
    (Pmm.pmmAllocLoop left i s).1.mem = replay s.mem (allocLoopStores left i s) := by
  induction left generalizing i with
  | zero => rfl
  | succ left ih =>
      rw [Pmm.pmmAllocLoop, allocLoopStores]
      by_cases inside : i < s.maxBlocks
      · rw [if_pos inside, if_pos inside]
        by_cases clear : s.bitmapTest i = 0
        · rw [if_pos clear, if_pos clear]
          rfl
        · rw [if_neg clear, if_neg clear]
          exact ih (i + 1)
      · rw [if_neg inside, if_neg inside]
        rfl

theorem replay_pushStores (x : X86) (vs : List Word) :
    (x.pushAll vs).mem = replay x.mem (pushStores x vs) := by
  induction vs generalizing x with
  | nil => rfl
  | cons v vs ih => exact ih (x.push v)

namespace Logged.Replays

variable {m : Mem} {w : Logged}

theorem start (k : Kernel) : Replays k.mem ⟨k, []⟩ := rfl

theorem setField (replays : Replays m w) (p : Word) (f : Field) (v : Word) :
    Replays m (w.setField p f v) := by
  unfold Replays Logged.setField at *
  rw [replay_append, ← replays]
  rfl

theorem takePid (replays : Replays m w) (p : Word) : Replays m (w.takePid p) :=
  replays.setField p .id w.kernel.nextPid

theorem simpleKmalloc (replays : Replays m w) : Replays m w.simpleKmalloc.1 := by
  unfold Replays at *
  have stores : w.simpleKmalloc.1.stores = w.stores ++ allocStores w.kernel.pmm := rfl
  rw [stores, replay_append, ← replays]
  exact replay_allocLoopStores w.kernel.pmm _ 0

theorem frameBuilt (replays : Replays m w) (stackTop : Word) (vs : List Word) :
    Replays m (w.frameBuilt stackTop vs).1 := by
  unfold Replays at *
  have stores : (w.frameBuilt stackTop vs).1.stores =
    w.stores ++ pushStores ⟨w.kernel.cpu.set .esp stackTop, w.kernel.mem⟩ vs := rfl
  rw [stores, replay_append, ← replays]
  exact replay_pushStores ⟨w.kernel.cpu.set .esp stackTop, w.kernel.mem⟩ vs

end Logged.Replays

theorem logFilled_replays (threadExit entryPoint : Word) (k : Kernel) :
    (logFilled threadExit entryPoint k).1.Replays k.mem := by
  have allocated := (Logged.Replays.start k).simpleKmalloc
  have identified := allocated.takePid (Logged.mk k []).simpleKmalloc.2
  have stacked := identified.simpleKmalloc
  exact (((stacked.setField _ .kernelStack _).frameBuilt _ _).setField _ .esp _).setField _
    .pageDirectory _

theorem logCreate_replays (threadExit entryPoint : Word) (k : Kernel) :
    (logCreate threadExit entryPoint k).Replays k.mem := by
  have filled := logFilled_replays threadExit entryPoint k
  unfold logCreate
  generalize logFilled threadExit entryPoint k = w at filled ⊢
  dsimp only
  split
  · exact filled
  · exact (filled.setField _ .next _).setField _ .next _

/-- The stores of the log, in order, are all that the call does to memory. -/
theorem processCreateThread_replay {threadExit entryPoint : Word} {k k' : Kernel} {proc : Word}
    (created : k.processCreateThread threadExit entryPoint = some (k', proc)) :
    k'.mem = replay k.mem (logCreate threadExit entryPoint k).stores := by
  obtain ⟨rfl, -⟩ := processCreateThread_logged created
  exact logCreate_replays threadExit entryPoint k

/-! ## Failure -/

/-- The call returns null and leaves the run queue with every control block on
it, page 0 and the set of free blocks alone. -/
structure FailsCleanly (threadExit entryPoint : Word) (k : Kernel) : Prop where
  null : ∃ k', k.processCreateThread threadExit entryPoint = some (k', 0)
  ring : ∀ k' p, k.processCreateThread threadExit entryPoint = some (k', p) → ∀ n,
    (k'.follow)^[n] k'.processQueue = (k.follow)^[n] k.processQueue
  controlBlocks : ∀ k' p, k.processCreateThread threadExit entryPoint = some (k', p) → ∀ n f,
    k'.field ((k.follow)^[n] k.processQueue) f = k.field ((k.follow)^[n] k.processQueue) f
  pageZero : ∀ store ∈ (logCreate threadExit entryPoint k).stores, ∀ x, Within store.1 4 x →
    x.toNat / 4096 ≠ 0
  free : ∀ k' p, k.processCreateThread threadExit entryPoint = some (k', p) →
    k'.pmm.freeBlocks = k.pmm.freeBlocks

theorem mem_logCreate_of_filled {threadExit entryPoint : Word} {k : Kernel} {store : WordStore}
    (member : store ∈ (logFilled threadExit entryPoint k).1.stores) :
    store ∈ (logCreate threadExit entryPoint k).stores := by
  unfold logCreate
  generalize logFilled threadExit entryPoint k = w at member ⊢
  dsimp only
  split
  · exact member
  · exact List.mem_append_left _ (List.mem_append_left _ member)

/-- The control block gets its id before the second allocation. -/
theorem id_stored (threadExit entryPoint : Word) (k : Kernel) :
    (fieldAddr k.createBlocks.2.1 .id, k.nextPid) ∈
      (logFilled threadExit entryPoint k).1.stores := by
  simp [logFilled, Logged.simpleKmalloc, Logged.takePid, Logged.setField, Logged.frameBuilt,
    Kernel.createBlocks, Kernel.simpleKmalloc]

/-- The topmost word of the stack is `thread_exit`. -/
theorem threadExit_stored (threadExit entryPoint : Word) (k : Kernel) :
    (k.createBlocks.2.2 + 4096 - 4, threadExit) ∈
      (logFilled threadExit entryPoint k).1.stores := by
  simp [logFilled, Logged.simpleKmalloc, Logged.takePid, Logged.setField, Logged.frameBuilt,
    Kernel.createBlocks, Kernel.simpleKmalloc, pushStores, X86.reg, Cpu.set]

/-- A failed allocation makes the call store in page 0: the id of the control
block that it did not get, or the frame below the end of the stack that it did
not get. -/
theorem stores_in_pageZero {threadExit entryPoint : Word} {k : Kernel}
    (failed : k.createBlocks.2.1 = 0 ∨ k.createBlocks.2.2 = 0) :
    ∃ store ∈ (logCreate threadExit entryPoint k).stores, ∃ x, Within store.1 4 x ∧
      x.toNat / 4096 = 0 := by
  rcases failed with noProc | noStack
  · refine ⟨_, mem_logCreate_of_filled (id_stored threadExit entryPoint k), 0, ?_, rfl⟩
    rw [noProc]
    simp [Within, fieldAddr, Field.index]
  · refine ⟨_, mem_logCreate_of_filled (threadExit_stored threadExit entryPoint k), 4092, ?_, rfl⟩
    rw [noStack]
    simp [Within]

theorem createThread_never_cleanly (threadExit entryPoint : Word) (k : Kernel)
    (failed : k.createBlocks.2.1 = 0 ∨ k.createBlocks.2.2 = 0) :
    ¬ FailsCleanly threadExit entryPoint k := by
  intro cleanly
  obtain ⟨store, member, x, inWord, low⟩ := stores_in_pageZero failed
  exact cleanly.pageZero store member x inWord low

/-- Eight blocks, all in use; the boot process in block 1 is alone on the run queue. -/
def fullKernel : Kernel where
  pmm := ⟨fun x => if x = 0x100000 then 0xFF else if x = 0x1011 then 0x10 else 0, 0x100000, 8, 8⟩
  cpu := ⟨fun r => if r = .esp then 0x203000 else 0, fun r => if r = .cs then 0x08 else 0x10,
    0, 0, 0⟩
  tss := ⟨0x10, 0⟩
  currentProcess := 0x1000
  processQueue := 0x1000
  nextPid := 2

theorem fullKernel_no_blocks : fullKernel.createBlocks.2 = (0, 0) := by decide +kernel

theorem createThread_never_cleanly_fullKernel : ¬ FailsCleanly 0x101000 0x102000 fullKernel :=
  createThread_never_cleanly 0x101000 0x102000 fullKernel
    (Or.inl (congrArg Prod.fst fullKernel_no_blocks))

/-- The id of the thread that was not created is stored at address 0. -/
theorem fullKernel_stores_id : fullKernel.follow 0x1000 = 0x1000 ∧
    fullKernel.createBlocks.2 = (0, 0) ∧
    (0, 2) ∈ (logCreate 0x101000 0x102000 fullKernel).stores ∧
    ¬ FailsCleanly 0x101000 0x102000 fullKernel := by
  have stored := mem_logCreate_of_filled (id_stored 0x101000 0x102000 fullKernel)
  have noProc : fullKernel.createBlocks.2.1 = 0 := congrArg Prod.fst fullKernel_no_blocks
  have atZero : fieldAddr 0 .id = 0 := by simp [fieldAddr, Field.index]
  rw [noProc, atZero] at stored
  refine ⟨by decide +kernel, fullKernel_no_blocks, stored, fun cleanly => ?_⟩
  exact cleanly.pageZero _ stored 0 (by simp [Within]) rfl

end OrbitOs.Process
