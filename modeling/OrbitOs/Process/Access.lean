import OrbitOs.Memory.IdentityMap
import OrbitOs.Process.Creation

/-!
# The memory that thread creation accesses

`process_initialize` and `process_create_thread` with a log of their accesses.
When the allocator has no block left they go on with address 0, so the block
they work on is one that nobody holds, or block 0.
-/

set_option autoImplicit false

namespace OrbitOs.Process

open OrbitOs.Machine OrbitOs.Base OrbitOs.Memory

/-! ## The functions with their accesses -/

/-- A kernel and what it has accessed so far. -/
structure Watched where
  kernel : Kernel
  accesses : List Access

/-- The access of `p->f`. -/
def Kernel.fieldAccess (k : Kernel) (p : Word) (f : Field) : Access :=
  ⟨k.mem, k.cpu.cr3, fieldAddr p f, 4⟩

namespace Watched

def setField (w : Watched) (p : Word) (f : Field) (v : Word) : Watched :=
  ⟨w.kernel.setField p f v, w.accesses ++ [w.kernel.fieldAccess p f]⟩

def takePid (w : Watched) (p : Word) : Watched :=
  ⟨w.kernel.takePid p, w.accesses ++ [w.kernel.fieldAccess p .id]⟩

def simpleKmalloc (w : Watched) : Watched × Word :=
  let (kernel, addr) := w.kernel.simpleKmalloc
  (⟨kernel, w.accesses ++ w.kernel.pmm.allocAccesses w.kernel.cpu.cr3⟩, addr)

/-- The stores `*(--stack) = v`. -/
def pushAccesses (x : X86) : List Word → List Access
  | [] => []
  | v :: vs => ⟨x.mem, x.cpu.cr3, x.reg .esp - 4, 4⟩ :: pushAccesses (x.push v) vs

def frameBuilt (w : Watched) (stackTop : Word) (vs : List Word) : Watched × Word :=
  let built := w.kernel.frameBuilt stackTop vs
  (⟨w.kernel.withMem built.mem,
    w.accesses ++ pushAccesses ⟨w.kernel.cpu.set .esp stackTop, w.kernel.mem⟩ vs⟩, built.reg .esp)

end Watched

def watchInitialize (k : Kernel) : Watched :=
  let (w, p) := (Watched.mk k []).simpleKmalloc
  let w := { w with kernel := { w.kernel with currentProcess := p } }
  let w := w.takePid p
  let w := w.setField p .next p
  let w := w.setField p .kernelStack (w.kernel.cpu.reg .esp + 4096)
  let w := w.setField p .pageDirectory w.kernel.cpu.cr3
  { w with kernel := { w.kernel with processQueue := p } }

theorem watchInitialize_kernel (k : Kernel) :
    (watchInitialize k).kernel = k.processInitialize := rfl

/-- `process_create_thread` up to the search for the tail. -/
def watchFilled (threadExit entryPoint : Word) (k : Kernel) : Watched × Word :=
  let (w, proc) := (Watched.mk k []).simpleKmalloc
  let w := w.takePid proc
  let (w, stackBase) := w.simpleKmalloc
  let stackTop := stackBase + 4096
  let w := w.setField proc .kernelStack stackTop
  let (w, stack) := w.frameBuilt stackTop [threadExit, entryPoint, 0, 0, 0, 0]
  let w := w.setField proc .esp stack
  (w.setField proc .pageDirectory w.kernel.cpu.cr3, proc)

/-- The tests of `tail->next` from `tail` on. -/
def tailAccesses (k : Kernel) : ℕ → Word → List Access
  | 0, _ => []
  | fuel + 1, tail => k.fieldAccess tail .next ::
      if k.follow tail = k.processQueue then [] else tailAccesses k fuel (k.follow tail)

def createAccesses (threadExit entryPoint : Word) (k : Kernel) : List Access :=
  let (w, proc) := watchFilled threadExit entryPoint k
  let k := w.kernel
  w.accesses ++ tailAccesses k (2 ^ 32) k.processQueue ++
    match tailFrom k.follow k.processQueue (2 ^ 32) k.processQueue with
    | none => []
    | some tail => [k.fieldAccess tail .next, (k.setField tail .next proc).fieldAccess proc .next]

theorem processCreateThread_watched (threadExit entryPoint : Word) (k : Kernel) :
    k.processCreateThread threadExit entryPoint =
      (tailFrom (watchFilled threadExit entryPoint k).1.kernel.follow
        (watchFilled threadExit entryPoint k).1.kernel.processQueue (2 ^ 32)
        (watchFilled threadExit entryPoint k).1.kernel.processQueue).map fun tail =>
          let proc := (watchFilled threadExit entryPoint k).2
          let k := (watchFilled threadExit entryPoint k).1.kernel.setField tail .next proc
          (k.setField proc .next k.processQueue, proc) := rfl

/-! ## Blocks, or block 0 -/

/-- `p` is the least of the blocks `free`, or 0 when there is none. -/
def Handed (free : Set ℕ) (p : ℕ) : Prop := IsLeast free p ∨ (free = ∅ ∧ p = 0)

/-- `pmm_alloc_block` returns block `p`. -/
structure Gets (s : Pmm) (p : ℕ) (s' : Pmm) : Prop where
  result : Pmm.pmmAllocBlock s = (s', blockAddr p)
  handed : Handed s.freeBlocks p
  sound : s'.Sound
  free : s'.freeBlocks = s.freeBlocks \ {p}
  held : s'.Holdable p
  keeps : ∀ j, s.Holdable j → s'.Holdable j ∧ (j = p → j = 0)
  words : s'.InBitmapWords = s.InBitmapWords
  mem : AgreeOff s.InBitmapWords s.mem s'.mem

theorem exists_gets {s : Pmm} (sound : s.Sound) (zero : s.Holdable 0) : ∃ p s', Gets s p s' := by
  rcases sound.alloc with ⟨p, s', allocates, result⟩ | ⟨empty, result⟩
  · refine ⟨p, s', result, Or.inl (allocates.lowest result).1, allocates.sound,
      allocates.freeBlocks result, allocates.holdable, fun j held => ?_, ?_, allocates.mem⟩
    · obtain ⟨held', other⟩ := allocates.keeps j held
      exact ⟨held', fun same => absurd same other⟩
    · unfold Pmm.InBitmapWords
      rw [allocates.maxBlocks, allocates.bitmap]
  · exact ⟨0, s, result, Or.inr ⟨empty, rfl⟩, sound, by rw [empty, Set.empty_sdiff], zero,
      fun j held => ⟨held, fun same => same⟩, rfl, AgreeOff.refl _ _⟩

/-! ## What the log contains -/

theorem mem_pushAccesses {x : X86} {vs : List Word} {a : Access}
    (member : a ∈ Watched.pushAccesses x vs) :
    a.Confined x.mem x.cpu.cr3 (x.Below vs.length) := by
  induction vs generalizing x with
  | nil => exact absurd member List.not_mem_nil
  | cons v vs ih =>
      rw [Watched.pushAccesses, List.mem_cons] at member
      rw [List.length_cons]
      rcases member with rfl | later
      · refine ⟨AgreeOff.refl _ _, rfl, fun y here => ?_⟩
        have first : x.Below 1 y := here
        exact first.mono (by omega)
      · have first : AgreeOff (x.Below (vs.length + 1)) x.mem (x.push v).mem :=
          (x.push_agreeOff v).mono fun y below => below.mono (by omega)
        exact ((ih later).mono fun y => x.below_push).since first

/-- From `k` on only memory in `touched` was accessed, and the bitmap was not
written since the allocator state `s`. -/
structure Watched.Works (k : Kernel) (touched : Word → Prop) (s : Pmm) (w : Watched) : Prop where
  mem : AgreeOff touched k.mem w.kernel.mem
  cr3 : w.kernel.cpu.cr3 = k.cpu.cr3
  accesses : ∀ a ∈ w.accesses, a.Confined k.mem k.cpu.cr3 touched
  pmm : w.kernel.pmm = s.withMem w.kernel.mem
  bitmap : AgreeOff (fun x => ¬ s.InBitmapWords x) s.mem w.kernel.mem

namespace Watched.Works

variable {k : Kernel} {touched : Word → Prop} {s : Pmm} {w : Watched}

theorem start (k : Kernel) (touched : Word → Prop) : Works k touched k.pmm ⟨k, []⟩ :=
  ⟨AgreeOff.refl _ _, rfl, fun _ member => absurd member List.not_mem_nil, rfl, AgreeOff.refl _ _⟩

theorem mono (works : w.Works k touched s) {touched' : Word → Prop}
    (sub : ∀ x, touched x → touched' x) : w.Works k touched' s where
  mem := works.mem.mono sub
  cr3 := works.cr3
  accesses := fun a member => (works.accesses a member).mono sub
  pmm := works.pmm
  bitmap := works.bitmap

theorem sound (works : w.Works k touched s) (sound : s.Sound) : w.kernel.pmm.Sound := by
  rw [works.pmm]
  exact sound.withMem works.bitmap fun x inBitmap clear => clear inBitmap

theorem holdable (works : w.Works k touched s) {j : ℕ} (held : s.Holdable j) :
    w.kernel.pmm.Holdable j := by
  rw [works.pmm]
  exact held.withMem works.bitmap fun x inBitmap clear => clear inBitmap

theorem freeBlocks (works : w.Works k touched s) :
    w.kernel.pmm.freeBlocks = s.freeBlocks := by
  rw [works.pmm]
  exact Pmm.freeBlocks_withMem works.bitmap fun x inBitmap clear => clear inBitmap

theorem words (works : w.Works k touched s) :
    w.kernel.pmm.InBitmapWords = s.InBitmapWords := by
  rw [works.pmm]
  rfl

theorem setField (works : w.Works k touched s) {p : Word} {f : Field} (v : Word)
    (inside : ∀ x, Within (fieldAddr p f) 4 x → touched x ∧ ¬ s.InBitmapWords x) :
    (w.setField p f v).Works k touched s where
  mem := works.mem.trans ((st32_agreeOff _ _ _).mono fun x here => (inside x here).1)
  cr3 := works.cr3
  accesses := by
    intro a member
    rcases List.mem_append.mp member with before | here
    · exact works.accesses a before
    · cases List.mem_singleton.mp here
      exact ⟨works.mem, works.cr3, fun x here => (inside x here).1⟩
  pmm := by
    unfold Watched.setField Kernel.setField Kernel.withMem
    rw [works.pmm]
    rfl
  bitmap := works.bitmap.trans ((st32_agreeOff _ _ _).mono fun x here => (inside x here).2)

theorem takePid (works : w.Works k touched s) {p : Word}
    (inside : ∀ x, Within (fieldAddr p .id) 4 x → touched x ∧ ¬ s.InBitmapWords x) :
    (w.takePid p).Works k touched s := by
  obtain ⟨mem, cr3, accesses, pmm, bitmap⟩ := works.setField w.kernel.nextPid inside
  exact ⟨mem, cr3, accesses, pmm, bitmap⟩

theorem frameBuilt (works : w.Works k touched s) (stackTop : Word) (vs : List Word)
    (inside : ∀ x, Within (stackTop - BitVec.ofNat 32 (4 * vs.length)) (4 * vs.length) x →
      touched x ∧ ¬ s.InBitmapWords x) : (w.frameBuilt stackTop vs).1.Works k touched s where
  mem := works.mem.trans ((X86.pushAll_agreeOff _ vs).mono fun x here => (inside x here).1)
  cr3 := works.cr3
  accesses := by
    intro a member
    rcases List.mem_append.mp member with before | here
    · exact works.accesses a before
    · have pushed := (mem_pushAccesses here).mono fun x below => (inside x below).1
      exact ⟨works.mem.trans pushed.mem, pushed.cr3.trans works.cr3, pushed.inside⟩
  pmm := by
    unfold Watched.frameBuilt Kernel.withMem
    rw [works.pmm]
    rfl
  bitmap := works.bitmap.trans
    ((X86.pushAll_agreeOff _ vs).mono fun x here => (inside x here).2)

/-- An allocation, with the state and the address it gives. -/
theorem simpleKmalloc (works : w.Works k touched s) {p : ℕ} {s' : Pmm}
    (gets : Gets w.kernel.pmm p s')
    (inside : ∀ x, w.kernel.pmm.InBitmapWords x → touched x) :
    ∃ log, w.simpleKmalloc = (⟨{ w.kernel with pmm := s' }, log⟩, blockAddr p) ∧
      Works k touched s' ⟨{ w.kernel with pmm := s' }, log⟩ := by
  refine ⟨w.accesses ++ w.kernel.pmm.allocAccesses w.kernel.cpu.cr3, ?_,
    works.mem.trans (gets.mem.mono inside), works.cr3, fun a member => ?_, rfl, AgreeOff.refl _ _⟩
  · unfold Watched.simpleKmalloc Kernel.simpleKmalloc
    rw [gets.result]
  · rcases List.mem_append.mp member with before | here
    · exact works.accesses a before
    · obtain ⟨mem, cr3, inWords⟩ := Vmm.mem_allocAccesses here
      exact ⟨mem ▸ works.mem, cr3.trans works.cr3, fun x member => inside x (inWords x member)⟩

end Watched.Works

/-! ## What the functions work on -/

/-- The memory `process_initialize` writes to. -/
def InitTouches (k : Kernel) (p : ℕ) (x : Word) : Prop :=
  k.pmm.InBitmapWords x ∨ Within (blockAddr p) 20 x

/-- The memory `process_create_thread` writes to before it links the thread. -/
def CreateTouches (k : Kernel) (p q : ℕ) (x : Word) : Prop :=
  k.pmm.InBitmapWords x ∨ Within (blockAddr p) 16 x ∨ Within (wordAddr q 1018) 24 x

theorem within_field {p : Word} {f : Field} {n : ℕ} (fits : 4 * f.index + 4 ≤ n) {x : Word}
    (member : Within (fieldAddr p f) 4 x) : Within p n x := member.offset fits

theorem within_controlBlock {p : ℕ} (bound : p < 2 ^ 20) {n : ℕ} (small : n ≤ 4096) {x : Word}
    (member : Within (blockAddr p) n x) : InBlock p x :=
  (within_block bound x).mp (member.mono small)

/-- A store to another field leaves `next` alone. -/
theorem Watched.follow_setField (w : Watched) {p : ℕ} (bound : p < 2 ^ 20) {f : Field}
    (other : Field.next ≠ f) (v : Word) :
    (w.setField (blockAddr p) f v).kernel.follow (blockAddr p) = w.kernel.follow (blockAddr p) := by
  unfold Kernel.follow Watched.setField
  rw [w.kernel.field_setField bound bound, if_neg fun both => other both.2]

/-- `w` is what `process_initialize` leaves when it gets block `p`. -/
structure Starts (k : Kernel) (p : ℕ) (w : Watched) : Prop where
  handed : Handed k.pmm.freeBlocks p
  mem : AgreeOff (InitTouches k p) k.mem w.kernel.mem
  accesses : ∀ a ∈ w.accesses, a.Confined k.mem k.cpu.cr3 (InitTouches k p)
  sound : w.kernel.pmm.Sound
  held : w.kernel.pmm.Holdable p
  keeps : ∀ j, k.pmm.Holdable j → w.kernel.pmm.Holdable j ∧ (j = p → j = 0)
  words : w.kernel.pmm.InBitmapWords = k.pmm.InBitmapWords
  next : w.kernel.follow (blockAddr p) = blockAddr p
  rest : w.kernel = { k with
    pmm := w.kernel.pmm
    nextPid := k.nextPid + 1
    currentProcess := blockAddr p
    processQueue := blockAddr p }

theorem watchInitialize_starts {k : Kernel} (sound : k.pmm.Sound) (zero : k.pmm.Holdable 0) :
    ∃ p, Starts k p (watchInitialize k) := by
  obtain ⟨p, pmm, gets⟩ := exists_gets sound zero
  have bound := gets.sound.holdable_lt gets.held
  obtain ⟨log, allocated, works⟩ :=
    (Watched.Works.start k (InitTouches k p)).simpleKmalloc gets fun x => Or.inl
  have inside : ∀ f x, Within (fieldAddr (blockAddr p) f) 4 x →
      InitTouches k p x ∧ ¬ pmm.InBitmapWords x := by
    intro f x member
    have inBlock : Within (blockAddr p) 20 x := within_field (by cases f <;> decide) member
    exact ⟨Or.inr inBlock, gets.held.clear x (within_controlBlock bound (by simp) inBlock)⟩
  refine ⟨p, ?_⟩
  unfold watchInitialize
  rw [allocated]
  dsimp only
  have started : Watched.Works k (InitTouches k p) pmm
      ⟨{ k with pmm := pmm, currentProcess := blockAddr p }, log⟩ :=
    ⟨works.mem, works.cr3, works.accesses, rfl, works.bitmap⟩
  have identified := started.takePid (inside .id)
  generalize began : Watched.takePid _ (blockAddr p) = w₁ at identified ⊢
  have linked := identified.setField (blockAddr p) (inside .next)
  have next : (w₁.setField (blockAddr p) .next (blockAddr p)).kernel.follow (blockAddr p) =
      blockAddr p := by
    unfold Kernel.follow Watched.setField
    rw [w₁.kernel.field_setField bound bound, if_pos ⟨rfl, rfl⟩]
  generalize rang : w₁.setField (blockAddr p) .next (blockAddr p) = w₂ at linked next ⊢
  have stacked := linked.setField (w₂.kernel.cpu.reg .esp + 4096) (inside .kernelStack)
  generalize topped : w₂.setField (blockAddr p) .kernelStack _ = w₃ at stacked ⊢
  have done := stacked.setField w₃.kernel.cpu.cr3 (inside .pageDirectory)
  refine ⟨gets.handed, done.mem, done.accesses, done.sound gets.sound, done.holdable gets.held,
    fun j held => ?_, done.words.trans gets.words, ?_, ?_⟩
  · obtain ⟨held', other⟩ := gets.keeps j held
    exact ⟨done.holdable held', other⟩
  · have kept := w₂.follow_setField bound (f := .kernelStack) (by simp)
      (w₂.kernel.cpu.reg .esp + 4096)
    rw [topped, next] at kept
    exact (w₃.follow_setField bound (by simp) w₃.kernel.cpu.cr3).trans kept
  · rw [← topped, ← rang, ← began]
    rfl

/-- `w` is what `process_create_thread` has when it looks for the tail, with the
control block in block `p` and the stack in block `q`. -/
structure Fills (k : Kernel) (p q : ℕ) (w : Watched) : Prop where
  first : Handed k.pmm.freeBlocks p
  second : Handed (k.pmm.freeBlocks \ {p}) q
  mem : AgreeOff (CreateTouches k p q) k.mem w.kernel.mem
  accesses : ∀ a ∈ w.accesses, a.Confined k.mem k.cpu.cr3 (CreateTouches k p q)
  sound : w.kernel.pmm.Sound
  pHeld : w.kernel.pmm.Holdable p
  qHeld : w.kernel.pmm.Holdable q
  keeps : ∀ j, k.pmm.Holdable j →
    w.kernel.pmm.Holdable j ∧ (j = p → j = 0) ∧ (j = q → j = 0)
  words : w.kernel.pmm.InBitmapWords = k.pmm.InBitmapWords
  rest : w.kernel = { k with pmm := w.kernel.pmm, nextPid := k.nextPid + 1 }

theorem watchFilled_fills (threadExit entryPoint : Word) {k : Kernel} (sound : k.pmm.Sound)
    (zero : k.pmm.Holdable 0) :
    ∃ p q w, watchFilled threadExit entryPoint k = (w, blockAddr p) ∧ Fills k p q w := by
  obtain ⟨p, s₁, first⟩ := exists_gets sound zero
  have pBound := first.sound.holdable_lt first.held
  obtain ⟨log, allocated, works⟩ := (Watched.Works.start k fun x =>
    k.pmm.InBitmapWords x ∨ Within (blockAddr p) 16 x).simpleKmalloc first fun x => Or.inl
  have identified := works.takePid (p := blockAddr p) fun x member =>
    have inBlock : Within (blockAddr p) 16 x := within_field (by decide) member
    ⟨Or.inr inBlock, first.held.clear x (within_controlBlock pBound (by simp) inBlock)⟩
  unfold watchFilled
  rw [allocated]
  dsimp only
  generalize began : Watched.takePid _ (blockAddr p) = w₁ at identified ⊢
  obtain ⟨q, s₂, second⟩ := exists_gets (identified.sound first.sound)
    (identified.holdable (first.keeps 0 zero).1)
  have qBound := second.sound.holdable_lt second.held
  have sub : ∀ x, k.pmm.InBitmapWords x ∨ Within (blockAddr p) 16 x → CreateTouches k p q x :=
    fun x => Or.imp_right Or.inl
  have sameWords : w₁.kernel.pmm.InBitmapWords = k.pmm.InBitmapWords :=
    identified.words.trans first.words
  obtain ⟨log', allocated', works'⟩ := (identified.mono sub).simpleKmalloc second fun x member =>
    Or.inl (sameWords ▸ member)
  have pHeld := second.keeps p (identified.holdable first.held)
  have inside : ∀ f ≠ Field.next, ∀ x, Within (fieldAddr (blockAddr p) f) 4 x →
      CreateTouches k p q x ∧ ¬ s₂.InBitmapWords x := by
    intro f other x member
    have inBlock : Within (blockAddr p) 16 x :=
      within_field (by cases f <;> first | contradiction | decide) member
    exact ⟨Or.inr (Or.inl inBlock),
      pHeld.1.clear x (within_controlBlock pBound (by simp) inBlock)⟩
  rw [allocated']
  dsimp only
  have topped := works'.setField (blockAddr q + 4096) (inside .kernelStack (by simp))
  generalize raised : Watched.setField _ (blockAddr p) .kernelStack (blockAddr q + 4096) = w₂
    at topped ⊢
  have framed := topped.frameBuilt (blockAddr q + 4096) [threadExit, entryPoint, 0, 0, 0, 0]
    fun x member => by
      have inFrame : Within (blockAddr q + 4096 - BitVec.ofNat 32 (4 * 6)) 24 x := member
      rw [top_sub_words q (by simp)] at inFrame
      exact ⟨Or.inr (Or.inr inFrame), second.held.clear x (within_frame qBound inFrame)⟩
  rcases built : w₂.frameBuilt (blockAddr q + 4096) [threadExit, entryPoint, 0, 0, 0, 0] with
    ⟨w₃, stack⟩
  rw [built] at framed
  dsimp only at framed ⊢
  have saved := framed.setField stack (inside .esp (by simp))
  generalize stored : w₃.setField (blockAddr p) .esp stack = w₄ at saved ⊢
  have done := saved.setField w₄.kernel.cpu.cr3 (inside .pageDirectory (by simp))
  refine ⟨p, q, _, rfl, first.handed, ?_, done.mem, done.accesses, done.sound second.sound,
    done.holdable pHeld.1, done.holdable second.held, fun j held => ?_,
    done.words.trans (second.words.trans sameWords), ?_⟩
  · rw [← first.free, ← identified.freeBlocks]
    exact second.handed
  · obtain ⟨held₁, notP⟩ := first.keeps j held
    obtain ⟨held₂, notQ⟩ := second.keeps j (identified.holdable held₁)
    exact ⟨done.holdable held₂, notP, notQ⟩
  · rw [← stored, ← (Prod.mk.inj built).1]
    rw [← raised, ← began]
    rfl

/-! ## The run queue -/

namespace Kernel

/-- `process_queue` or a control block that following `next` from it reaches. -/
def OnQueue (k : Kernel) (p : Word) : Prop := ∃ n, k.follow^[n] k.processQueue = p

/-- `x` is a byte of a control block on the run queue. -/
def OfProcess (k : Kernel) (x : Word) : Prop := ∃ p, k.OnQueue p ∧ Within p 20 x

/-- The control blocks on the run queue are blocks in use. -/
def QueueHeld (k : Kernel) : Prop := ∀ p, k.OnQueue p → ∃ b, p = blockAddr b ∧ k.pmm.Holdable b

theorem OnQueue.follow {k : Kernel} {p : Word} (onQueue : k.OnQueue p) :
    k.OnQueue (k.follow p) := by
  obtain ⟨n, rfl⟩ := onQueue
  exact ⟨n + 1, Function.iterate_succ_apply' ..⟩

theorem onQueue_head (k : Kernel) : k.OnQueue k.processQueue := ⟨0, rfl⟩

/-- A kernel with the same links has the same queue. -/
theorem onQueue_iff {k k' : Kernel} (head : k'.processQueue = k.processQueue)
    (same : ∀ p, k.OnQueue p → k'.follow p = k.follow p) (p : Word) :
    k'.OnQueue p ↔ k.OnQueue p := by
  unfold OnQueue
  rw [head]
  simp only [iterate_congr fun n => same _ ⟨n, rfl⟩]

end Kernel

/-- The tests of the tail search are on the queue. -/
theorem mem_tailAccesses {k : Kernel} {fuel : ℕ} {tail : Word} {a : Access}
    (onQueue : k.OnQueue tail) (member : a ∈ tailAccesses k fuel tail) :
    ∃ p, k.OnQueue p ∧ a = k.fieldAccess p .next := by
  induction fuel generalizing tail with
  | zero => exact absurd member List.not_mem_nil
  | succ fuel ih =>
      rw [tailAccesses, List.mem_cons] at member
      rcases member with rfl | later
      · exact ⟨tail, onQueue, rfl⟩
      · split at later
        · exact absurd later List.not_mem_nil
        · exact ih onQueue.follow later

/-- The `next` field of a block in use is apart from what is written before linking. -/
theorem next_off_create {k : Kernel} {p q b : ℕ} (pBound : p < 2 ^ 20) (qBound : q < 2 ^ 20)
    (bBound : b < 2 ^ 20) (held : k.pmm.Holdable b) (x : Word)
    (member : Within (wordAddr b 4) 4 x) : ¬ CreateTouches k p q x := by
  have inBlock := inBlock_of_within_wordAddr bBound (by simp) member
  rw [within_wordAddr bBound (by simp)] at member
  rintro (inBitmap | inControl | inFrame)
  · exact held.clear x inBlock inBitmap
  · have start := toNat_blockAddr pBound
    rw [within_iff_of_noWrap (by omega), start] at inControl
    omega
  · have start := toNat_wordAddr qBound (by decide : 1018 < 1024)
    rw [within_iff_of_noWrap (by omega), start] at inFrame
    omega

/-- The memory `process_create_thread` accesses. -/
def AddTouches (k : Kernel) (p q : ℕ) (x : Word) : Prop :=
  k.pmm.InBitmapWords x ∨ Within (blockAddr p) 20 x ∨ Within (wordAddr q 1018) 24 x ∨
    k.OfProcess x

theorem CreateTouches.add {k : Kernel} {p q : ℕ} {x : Word} (touched : CreateTouches k p q x) :
    AddTouches k p q x := by
  rcases touched with inBitmap | inControl | inFrame
  · exact Or.inl inBitmap
  · exact Or.inr (Or.inl (inControl.mono (by simp)))
  · exact Or.inr (Or.inr (Or.inl inFrame))

/-- `k'` is `k` after `process_create_thread` got the blocks `p` and `q`. -/
structure Adds (k : Kernel) (p q : ℕ) (k' : Kernel) : Prop where
  mem : AgreeOff (AddTouches k p q) k.mem k'.mem
  sound : k'.pmm.Sound
  pHeld : k'.pmm.Holdable p
  keeps : ∀ j, k.pmm.Holdable j → k'.pmm.Holdable j ∧ (j = p → j = 0) ∧ (j = q → j = 0)
  words : k'.pmm.InBitmapWords = k.pmm.InBitmapWords
  queue : ∀ n, k'.OnQueue n → k.OnQueue n ∨ n = blockAddr p
  rest : k' = { k with pmm := k'.pmm, nextPid := k.nextPid + 1 }

section SetField

variable {k : Kernel} {b : ℕ} (sound : k.pmm.Sound) (held : k.pmm.Holdable b) (f : Field) (v : Word)

include sound held

theorem setField_sound : (k.setField (blockAddr b) f v).pmm.Sound :=
  sound.withMem (k.setField_agreeOff (sound.holdable_lt held) f v) held.off

theorem setField_holdable {j : ℕ} (heldJ : k.pmm.Holdable j) :
    (k.setField (blockAddr b) f v).pmm.Holdable j :=
  heldJ.withMem (k.setField_agreeOff (sound.holdable_lt held) f v) held.off

end SetField

section Fills

variable {k : Kernel} {p q : ℕ} {w : Watched} (fills : Fills k p q w) (queue : k.QueueHeld)
  (small : k.pmm.maxBlocks.toNat < 2 ^ 20)

include fills queue small

theorem Fills.follow (n : Word) (onQueue : k.OnQueue n) :
    w.kernel.follow n = k.follow n := by
  obtain ⟨b, rfl, held⟩ := queue n onQueue
  exact Kernel.field_agreeOff fills.mem (next_off_create (fills.sound.holdable_lt fills.pHeld)
    (fills.sound.holdable_lt fills.qHeld) (held.bound.trans small) held)

theorem Fills.onQueue_iff (n : Word) : w.kernel.OnQueue n ↔ k.OnQueue n :=
  Kernel.onQueue_iff (by rw [fills.rest]) (fills.follow queue small) n

theorem Fills.adds {t : Word} (onQueue : k.OnQueue t) :
    Adds k p q ((w.kernel.setField t .next (blockAddr p)).setField (blockAddr p) .next
      w.kernel.processQueue) := by
  obtain ⟨b, rfl, kHeld⟩ := queue t onQueue
  obtain ⟨held, -⟩ := fills.keeps b kHeld
  have pBound := fills.sound.holdable_lt fills.pHeld
  have bBound := fills.sound.holdable_lt held
  have sound₁ := setField_sound fills.sound held .next (blockAddr p)
  have pHeld₁ := setField_holdable fills.sound held .next (blockAddr p) fills.pHeld
  have toTail : AgreeOff (Within (fieldAddr (blockAddr b) .next) 4) w.kernel.mem
      (w.kernel.setField (blockAddr b) .next (blockAddr p)).mem := st32_agreeOff _ _ _
  have back : AgreeOff (Within (fieldAddr (blockAddr p) .next) 4)
      (w.kernel.setField (blockAddr b) .next (blockAddr p)).mem
      ((w.kernel.setField (blockAddr b) .next (blockAddr p)).setField (blockAddr p) .next
        w.kernel.processQueue).mem := st32_agreeOff _ _ _
  refine ⟨?_, setField_sound sound₁ pHeld₁ .next _, setField_holdable sound₁ pHeld₁ .next _ pHeld₁,
    fun j jHeld => ?_, fills.words, ?_, ?_⟩
  · refine ((fills.mem.mono fun x => CreateTouches.add).trans (toTail.mono fun x here => ?_)).trans
      (back.mono fun x here => ?_)
    · exact Or.inr (Or.inr (Or.inr ⟨_, onQueue, within_field (by decide) here⟩))
    · exact Or.inr (Or.inl (within_field (by decide) here))
  · obtain ⟨held', apart⟩ := fills.keeps j jHeld
    have held₁ := setField_holdable fills.sound held .next (blockAddr p) held'
    exact ⟨setField_holdable sound₁ pHeld₁ .next _ held₁, apart⟩
  · -- one link goes to the new block, and the new block links back
    have head : w.kernel.processQueue = k.processQueue := by rw [fills.rest]
    have onHead : k.OnQueue w.kernel.processQueue := head ▸ k.onQueue_head
    rintro n ⟨count, rfl⟩
    induction count with
    | zero => exact Or.inl onHead
    | succ count ih =>
        rw [Function.iterate_succ_apply']
        rcases ih with old | new
        · obtain ⟨j, same, jHeld⟩ := queue _ old
          rw [same] at old ⊢
          rw [follow_linked _ _ bBound pBound (jHeld.bound.trans small),
            fills.follow queue small _ old]
          split_ifs
          · exact Or.inl onHead
          · exact Or.inr rfl
          · exact Or.inl old.follow
        · rw [new, follow_linked _ _ bBound pBound pBound, if_pos rfl]
          exact Or.inl onHead
  · rw [fills.rest]
    rfl

theorem Fills.mem_createAccesses {threadExit entryPoint : Word}
    (filled : watchFilled threadExit entryPoint k = (w, blockAddr p)) {a : Access}
    (member : a ∈ createAccesses threadExit entryPoint k) :
    a.Confined k.mem k.cpu.cr3 (AddTouches k p q) := by
  have atNode : ∀ n, w.kernel.OnQueue n →
      (w.kernel.fieldAccess n .next).Confined k.mem k.cpu.cr3 (AddTouches k p q) := fun n onQueue =>
    ⟨fills.mem.mono fun x => CreateTouches.add, by rw [fills.rest]; rfl, fun x here =>
      Or.inr (Or.inr (Or.inr
        ⟨n, (fills.onQueue_iff queue small n).mp onQueue, within_field (by decide) here⟩))⟩
  unfold createAccesses at member
  rw [filled] at member
  dsimp only at member
  rcases List.mem_append.mp member with before | linking
  · rcases List.mem_append.mp before with filling | searching
    · exact (fills.accesses a filling).mono fun x => CreateTouches.add
    · obtain ⟨n, onQueue, rfl⟩ := mem_tailAccesses w.kernel.onQueue_head searching
      exact atNode n onQueue
  · split at linking
    · exact absurd linking List.not_mem_nil
    · rename_i t found
      have onQueue : w.kernel.OnQueue t := tailFrom_reached found
      rw [List.mem_cons, List.mem_singleton] at linking
      rcases linking with rfl | rfl
      · exact atNode t onQueue
      · refine ⟨?_, by rw [fills.rest]; rfl, fun x here =>
          Or.inr (Or.inl (within_field (by decide) here))⟩
        exact (atNode t onQueue).mem.trans ((st32_agreeOff _ _ _).mono (atNode t onQueue).inside)

end Fills

/-- What every call of `process_create_thread` accesses, and what it leaves. -/
theorem exists_adds (threadExit entryPoint : Word) {k : Kernel} (sound : k.pmm.Sound)
    (zero : k.pmm.Holdable 0) (queue : k.QueueHeld) :
    ∃ p q, Handed k.pmm.freeBlocks p ∧ Handed (k.pmm.freeBlocks \ {p}) q ∧
      p < 2 ^ 20 ∧ q < 2 ^ 20 ∧
      (∀ a ∈ createAccesses threadExit entryPoint k,
        a.Confined k.mem k.cpu.cr3 (AddTouches k p q)) ∧
      ∀ k' proc, k.processCreateThread threadExit entryPoint = some (k', proc) → Adds k p q k' := by
  obtain ⟨p, q, w, filled, fills⟩ := watchFilled_fills threadExit entryPoint sound zero
  refine ⟨p, q, fills.first, fills.second, fills.sound.holdable_lt fills.pHeld,
    fills.sound.holdable_lt fills.qHeld,
    fun a member => fills.mem_createAccesses queue sound.small filled member,
    fun k' proc created => ?_⟩
  rw [processCreateThread_watched, filled, Option.map_eq_some_iff] at created
  obtain ⟨t, found, result⟩ := created
  have onQueue := (fills.onQueue_iff queue sound.small t).mp (tailFrom_reached found)
  cases result
  exact fills.adds queue sound.small onQueue

end OrbitOs.Process
