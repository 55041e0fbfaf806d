import OrbitOs.Process.Switching

/-!
# The run queue over a whole run

All processes are on one ring in the order of their creation, and their ids
count up from 1.
-/

set_option autoImplicit false

namespace OrbitOs.Process

open OrbitOs.Machine OrbitOs.Base OrbitOs.Memory

/-! ## The id of a new process -/

/-- The allocator's write does not reach a block that was handed out. -/
theorem field_simpleKmalloc {k : Kernel} (sound : k.pmm.Sound) {p : ℕ}
    (held : k.pmm.Holdable p) (f : Field) :
    k.simpleKmalloc.1.field (blockAddr p) f = k.field (blockAddr p) f := by
  unfold Kernel.simpleKmalloc
  rcases sound.alloc with ⟨c, pmm, allocates, result⟩ | ⟨_, result⟩
  · rw [result]
    have bound := sound.holdable_lt held
    have agree : AgreeOff k.pmm.InBitmapWords k.mem ({ k with pmm := pmm } : Kernel).mem :=
      allocates.mem
    exact Kernel.field_agreeOff agree fun x inField =>
      held.clear x (inBlock_of_within_wordAddr bound f.index_lt inField)
  · rw [result]

theorem createBlocks_id {k : Kernel} (sound : k.pmm.Sound) (gotProc : k.createBlocks.2.1 ≠ 0) :
    k.createBlocks.1.field k.createBlocks.2.1 .id = k.nextPid := by
  rcases sound.alloc with ⟨p, pmm, first, allocated⟩ | ⟨_, allocated⟩
  · let afterPid : Kernel := ({ k with pmm := pmm } : Kernel).takePid (blockAddr p)
    have unfolded : k.createBlocks =
        (afterPid.simpleKmalloc.1, blockAddr p, afterPid.simpleKmalloc.2) := by
      unfold Kernel.createBlocks
      rw [show k.simpleKmalloc = ({ k with pmm := pmm }, blockAddr p) by
        unfold Kernel.simpleKmalloc
        rw [allocated]]
    have bound := first.lt
    have agree : AgreeOff (InBlock p) pmm.mem afterPid.mem :=
      Kernel.setField_agreeOff { k with pmm := pmm } bound .id k.nextPid
    have pidSound : afterPid.pmm.Sound := first.sound.withMem agree first.holdable.off
    have held : afterPid.pmm.Holdable p := first.holdable.withMem agree first.holdable.off
    have stored : afterPid.field (blockAddr p) .id = k.nextPid := by
      have atId := Kernel.field_setField { k with pmm := pmm } bound bound .id .id k.nextPid
      rwa [if_pos ⟨rfl, rfl⟩] at atId
    rw [unfolded]
    exact (field_simpleKmalloc pidSound held .id).trans stored
  · refine absurd ?_ gotProc
    unfold Kernel.createBlocks Kernel.simpleKmalloc
    rw [allocated]

theorem createFilled_id (threadExit entryPoint : Word) (k : Kernel) {p q : ℕ}
    (pBound : p < 2 ^ 20) (qBound : q < 2 ^ 20) (distinct : p ≠ q) :
    (Kernel.createFilled threadExit entryPoint k (blockAddr p) (blockAddr q)).field (blockAddr p)
      .id = k.field (blockAddr p) .id := by
  unfold Kernel.createFilled
  dsimp only
  rw [Kernel.field_setField _ pBound pBound, if_neg (by simp),
    Kernel.field_setField _ pBound pBound, if_neg (by simp)]
  generalize topped : k.setField (blockAddr p) .kernelStack (blockAddr q + 4096) = k₁
  have built := frameBuilt_agreeOff k₁ qBound [threadExit, entryPoint, 0, 0, 0, 0] rfl
  have agree : AgreeOff (InBlock q) k₁.mem (k₁.withMem
      (k₁.frameBuilt (blockAddr q + 4096) [threadExit, entryPoint, 0, 0, 0, 0]).mem).mem := built
  rw [Kernel.field_agreeOff agree fun x inField inQ =>
    distinct ((inBlock_of_within_wordAddr pBound (Field.index_lt _) inField).unique inQ)]
  rw [← topped, Kernel.field_setField _ pBound pBound, if_neg (by simp)]

/-- The new control block holds the next id. -/
theorem processCreateThread_id {threadExit entryPoint : Word} {k k' : Kernel} {l : List ℕ}
    {proc : Word} (sound : k.pmm.Sound) (queue : RunQueue k l) (gotProc : k.createBlocks.2.1 ≠ 0)
    (gotStack : k.createBlocks.2.2 ≠ 0)
    (returned : Kernel.processCreateThread threadExit entryPoint k = some (k', proc)) :
    k'.field proc .id = k.nextPid := by
  obtain ⟨p, q, k₁, blocks, result⟩ := createBlocks_twoBlocks sound gotProc gotStack
  have pBound := blocks.pBound
  have stored := createBlocks_id sound gotProc
  rw [result] at stored
  have prepared := createFilled_prepared threadExit entryPoint k₁ pBound blocks.qBound
    blocks.distinct
  have filledId := createFilled_id threadExit entryPoint k₁ pBound blocks.qBound blocks.distinct
  generalize filled : Kernel.createFilled threadExit entryPoint k₁ (blockAddr p) (blockAddr q) =
    k₂ at prepared filledId
  obtain ⟨t, tIn, _, found⟩ := tail_found blocks prepared queue
  unfold Kernel.processCreateThread at returned
  rw [result] at returned
  dsimp only at returned
  rw [filled, found, Option.map_some] at returned
  cases returned
  rw [Kernel.field_setField _ pBound pBound, if_neg (by simp),
    Kernel.field_setField _ (queue.bound tIn) pBound, if_neg (by simp)]
  exact filledId.trans stored

/-! ## Ids over a run -/

section Runs

variable (bootStack threadExit : Word)

/-- `next_pid` begins with 1. -/
inductive ColdStart : System → Prop
  | boot {k : Kernel} : Boots bootStack k → k.nextPid = 1 →
      ColdStart ⟨k.processInitialize, [⟨k.simpleKmalloc.2.toNat / 4096, none⟩],
        fun _ => .running, 0⟩

/-- The `i`-th process has the id `i + 1`. -/
structure Numbered (s : System) : Prop where
  nextPid : s.kernel.nextPid = BitVec.ofNat 32 (s.threads.length + 1)
  ids : ∀ (i : ℕ) (t : Thread), s.threads[i]? = some t →
    s.kernel.field (blockAddr t.pcb) .id = BitVec.ofNat 32 (i + 1)

variable {bootStack threadExit}

theorem ColdStart.start {s : System} (cold : ColdStart bootStack s) : Start bootStack s := by
  cases cold with
  | boot boots _ => exact .boot boots

theorem Numbered.start {s : System} (cold : ColdStart bootStack s) : Numbered s := by
  cases cold with
  | @boot k boots first =>
      obtain ⟨p, pmm, allocates, got⟩ := exists_kmalloc boots.sound boots.allocates
      obtain ⟨-, -, -, id, nextPid, -, -⟩ := processInitialize_initializes allocates.lt got
      have addr : k.simpleKmalloc.2 = blockAddr p := congrArg Prod.snd got
      have pcb : blockAddr (k.simpleKmalloc.2.toNat / 4096) = blockAddr p := by
        rw [addr, toNat_blockAddr allocates.lt]
        congr 1
        omega
      refine ⟨by rw [nextPid, first]; rfl, ?_⟩
      intro i t atI
      have zero : i = 0 := by
        have bound := (List.getElem?_eq_some_iff.mp atI).1
        dsimp only [List.length_singleton] at bound
        omega
      subst zero
      cases atI
      dsimp only
      rw [pcb, id, first]
      rfl

theorem Numbered.create {s : System} (numbered : Numbered s)
    (inv : Inv bootStack threadExit s) {k : Kernel} {proc entryPoint : Word}
    (gotProc : s.kernel.createBlocks.2.1 ≠ 0) (gotStack : s.kernel.createBlocks.2.2 ≠ 0)
    (returned : s.kernel.processCreateThread threadExit entryPoint = some (k, proc)) :
    Numbered (s.created k proc s.kernel.createBlocks.2.2 entryPoint) := by
  have id := processCreateThread_id inv.sound inv.queue gotProc gotStack returned
  obtain ⟨p, q, k', result, blocks, creates⟩ :=
    processCreateThread_creates threadExit entryPoint inv.sound inv.queue gotProc gotStack
  cases returned.symm.trans result
  have pcb : blockAddr ((blockAddr p).toNat / 4096) = blockAddr p := by
    rw [toNat_blockAddr (creates.sound.holdable_lt creates.pHeld)]
    congr 1
    omega
  have counted : k.nextPid = s.kernel.nextPid + 1 := by rw [creates.rest]
  refine ⟨?_, ?_⟩
  · rw [System.length_created]
    show k.nextPid = _
    rw [counted, numbered.nextPid]
    exact (BitVec.ofNat_add (s.threads.length + 1) 1).symm
  · intro i t atI
    rcases getElem?_concat_cases atI with before | ⟨last, new⟩
    · have member := List.mem_of_getElem? before
      refine Eq.trans ?_ (numbered.ids i t before)
      exact Kernel.field_agreeOff creates.mem (inv.created_field creates member (by simp))
    · rw [new, last]
      show k.field (blockAddr ((blockAddr p).toNat / 4096)) .id = _
      rw [pcb, id]
      exact numbered.nextPid

theorem Numbered.keep {s s' : System} (numbered : Numbered s) (threads : s'.threads = s.threads)
    (nextPid : s'.kernel.nextPid = s.kernel.nextPid)
    (field : ∀ t ∈ s.threads, ∀ f, f ≠ .esp →
      s'.kernel.field (blockAddr t.pcb) f = s.kernel.field (blockAddr t.pcb) f) : Numbered s' where
  nextPid := by
    rw [nextPid, threads]
    exact numbered.nextPid
  ids := by
    intro i t atI
    rw [threads] at atI
    rw [field t (List.mem_of_getElem? atI) .id (by simp)]
    exact numbered.ids i t atI

theorem Numbered.step {s s' : System} (numbered : Numbered s) (inv : Inv bootStack threadExit s)
    (taken : Step bootStack threadExit s s') : Numbered s' := by
  cases taken with
  | create entryPoint gotProc gotStack returned =>
      exact numbered.create inv gotProc gotStack returned
  | switch retAddr switches room =>
      have kept := inv.switched_kept retAddr switches room
      have rest := (inv.switched_spec retAddr switches room).rest
      exact numbered.keep rfl ((congrArg Kernel.nextPid rest).trans rfl) kept.field
  | stay retAddr nothing =>
      unfold Kernel.processSchedule
      rw [if_pos nothing]
      exact numbered
  | @code cpu m own =>
      have kept : Inv.Kept bootStack threadExit s { s.kernel.withMem m with cpu := cpu } :=
        inv.kept (own.mono fun x => Or.inl) rfl rfl
      exact numbered.keep rfl rfl kept.field

theorem Numbered.run {s : System}
    (reached : Reach (ColdStart bootStack) (Step bootStack threadExit) s) :
    Inv bootStack threadExit s ∧ Numbered s := by
  induction reached with
  | start cold => exact ⟨Inv.start cold.start, .start cold⟩
  | step _ taken ih => exact ⟨ih.1.step taken, ih.2.step ih.1 taken⟩

/-- The processes created so far, in that order, are one ring. -/
structure OneRing (threadExit : Word) (s : System) : Prop where
  visits : ∀ (i : ℕ) (t : Thread), s.threads[i]? = some t →
    s.kernel.follow^[i] s.kernel.processQueue = blockAddr t.pcb
  returns : s.kernel.follow^[s.threads.length] s.kernel.processQueue = s.kernel.processQueue
  once : (s.threads.map fun t => blockAddr t.pcb).Nodup
  current : ∃ t ∈ s.threads, s.kernel.currentProcess = blockAddr t.pcb
  distinct : ∀ (i j : ℕ) (t u : Thread), s.threads[i]? = some t → s.threads[j]? = some u →
    i ≠ j → s.kernel.field (blockAddr t.pcb) .id ≠ s.kernel.field (blockAddr u.pcb) .id
  nonzero : ∀ t ∈ s.threads, s.kernel.field (blockAddr t.pcb) .id ≠ 0
  /-- The tail search of the next call ends. -/
  terminates : ∀ entryPoint, s.kernel.createBlocks.2.1 ≠ 0 → s.kernel.createBlocks.2.2 ≠ 0 →
    ∃ result, s.kernel.processCreateThread threadExit entryPoint = some result

theorem Inv.oneRing {s : System} (inv : Inv bootStack threadExit s) (numbered : Numbered s) :
    OneRing threadExit s := by
  have ring := inv.queue.ring
  rw [List.map_map] at ring
  have head := inv.queue.head
  rw [List.map_map] at head
  have short : s.threads.length ≤ 2 ^ 20 := by
    have le := inv.queue.length_le
    rwa [List.length_map] at le
  have length : (s.threads.map (blockAddr ∘ Thread.pcb)).length = s.threads.length :=
    List.length_map _
  exact {
    visits := by
      intro i t atI
      have bound := (List.getElem?_eq_some_iff.mp atI).1
      have visited := ring.iterate_at head (length ▸ bound)
      rw [List.getElem?_map, atI, Option.map_some] at visited
      exact (Option.some.inj visited).symm
    returns := by
      have back := ring.iterate_length head
      rwa [length] at back
    once := ring.nodup
    current := by
      obtain ⟨t, atRunning, current⟩ := inv.current
      exact ⟨t, List.mem_of_getElem? atRunning, current⟩
    distinct := by
      intro i j t u atI atJ other
      have iBound := (List.getElem?_eq_some_iff.mp atI).1
      have jBound := (List.getElem?_eq_some_iff.mp atJ).1
      rw [numbered.ids i t atI, numbered.ids j u atJ]
      intro same
      have values := congrArg BitVec.toNat same
      rw [BitVec.toNat_ofNat, BitVec.toNat_ofNat] at values
      omega
    nonzero := by
      intro t member
      obtain ⟨i, atI⟩ := List.mem_iff_getElem?.mp member
      have iBound := (List.getElem?_eq_some_iff.mp atI).1
      rw [numbered.ids i t atI]
      intro zero
      have values := congrArg BitVec.toNat zero
      rw [BitVec.toNat_ofNat] at values
      change _ = 0 at values
      omega
    terminates := by
      intro entryPoint gotProc gotStack
      obtain ⟨p, q, k, result, _⟩ :=
        processCreateThread_creates threadExit entryPoint inv.sound inv.queue gotProc gotStack
      exact ⟨_, result⟩ }

theorem runQueue_oneRing {s : System}
    (reached : Reach (ColdStart bootStack) (Step bootStack threadExit) s) :
    OneRing threadExit s :=
  (Numbered.run reached).1.oneRing (Numbered.run reached).2

theorem Inv.create_exists {start : System → Prop} {s : System}
    (inv : Inv bootStack threadExit s) (reached : Reach start (Step bootStack threadExit) s)
    (entryPoint : Word) (gotProc : s.kernel.createBlocks.2.1 ≠ 0)
    (gotStack : s.kernel.createBlocks.2.2 ≠ 0) :
    ∃ s', Reach start (Step bootStack threadExit) s' ∧
      s'.threads.length = s.threads.length + 1 := by
  obtain ⟨p, q, k, returned, _⟩ :=
    processCreateThread_creates threadExit entryPoint inv.sound inv.queue gotProc gotStack
  exact ⟨_, .step reached (.create entryPoint gotProc gotStack returned),
    System.length_created _ _ _ _ _⟩

end Runs

theorem bootKernel_coldStart : ColdStart 0x200000 ⟨bootKernel.processInitialize,
    [⟨bootKernel.simpleKmalloc.2.toNat / 4096, none⟩], fun _ => .running, 0⟩ :=
  .boot bootKernel_boots rfl

/-- The boot thread and a thread it created. -/
theorem runQueue_oneRing_twoThreads : ∃ s, s.threads.length = 2 ∧ OneRing 0x101000 s := by
  have inv : Inv 0x200000 0x101000 _ := Inv.start bootKernel_coldStart.start
  have gotProc : bootKernel.processInitialize.createBlocks.2.1 ≠ 0 := by decide +kernel
  have gotStack : bootKernel.processInitialize.createBlocks.2.2 ≠ 0 := by decide +kernel
  obtain ⟨s, reached, length⟩ :=
    inv.create_exists (.start bootKernel_coldStart) 0x102000 gotProc gotStack
  exact ⟨s, length, runQueue_oneRing reached⟩

end OrbitOs.Process
