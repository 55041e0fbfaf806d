import OrbitOs.Process.Process

/-!
# What `process_create_thread` leaves behind

One statement for each half of the function: the two blocks it takes from the
allocator, and the frame, the control block and the link that it writes.
-/

set_option autoImplicit false

namespace OrbitOs.Process

open OrbitOs.Machine OrbitOs.Base OrbitOs.Memory

/-! ## Addresses in a block -/

theorem Field.index_lt (f : Field) : f.index < 1024 := by
  cases f <;> decide

theorem Field.index_inj {f g : Field} (same : f.index = g.index) : f = g := by
  cases f <;> cases g <;> first | rfl | contradiction

theorem fieldAddr_blockAddr (p : ℕ) (f : Field) :
    fieldAddr (blockAddr p) f = wordAddr p f.index := by
  rw [fieldAddr, blockAddr, wordAddr, BitVec.ofNat_add]

/-- `n` words below the end of a block. -/
theorem top_sub_words (q : ℕ) {n : ℕ} (bound : n ≤ 1024) :
    blockAddr q + 4096 - BitVec.ofNat 32 (4 * n) = wordAddr q (1024 - n) := by
  unfold blockAddr wordAddr
  bv_omega

theorem wordAddr_add (q i n : ℕ) :
    wordAddr q i + BitVec.ofNat 32 (4 * n) = wordAddr q (i + n) := by
  unfold wordAddr
  bv_omega

theorem inBlock_of_within_words {k i n : ℕ} (kBound : k < 2 ^ 20) (fits : i + n ≤ 1024) {x : Word}
    (member : Within (wordAddr k i) (4 * n) x) : InBlock k x := by
  have nonempty : 0 < 4 * n := Nat.zero_lt_of_lt member
  have start := toNat_wordAddr kBound (by omega : i < 1024)
  rw [within_iff_of_noWrap (by rw [start]; omega), start] at member
  unfold InBlock
  omega

/-! ## Fields and contexts under writes -/

namespace Kernel

@[simp] theorem withMem_mem (k : Kernel) (m : Mem) : (k.withMem m).mem = m := rfl

theorem field_eq_word (k : Kernel) (p : ℕ) (f : Field) :
    k.field (blockAddr p) f = word k.mem p f.index := by
  rw [field, fieldAddr_blockAddr, word]

theorem setField_mem (k : Kernel) (p : ℕ) (f : Field) (v : Word) :
    (k.setField (blockAddr p) f v).mem = st32 k.mem (wordAddr p f.index) v := by
  rw [setField, fieldAddr_blockAddr, withMem_mem]

theorem setField_agreeOff (k : Kernel) {p : ℕ} (bound : p < 2 ^ 20) (f : Field) (v : Word) :
    AgreeOff (InBlock p) k.mem (k.setField (blockAddr p) f v).mem := by
  rw [setField_mem]
  exact st32_word_agreeOff k.mem v bound f.index_lt

/-- A store to one field of one control block and a read of another field. -/
theorem field_setField (k : Kernel) {p p' : ℕ} (bound : p < 2 ^ 20) (bound' : p' < 2 ^ 20)
    (f f' : Field) (v : Word) :
    (k.setField (blockAddr p) f v).field (blockAddr p') f' =
      if p' = p ∧ f' = f then v else k.field (blockAddr p') f' := by
  rw [field_eq_word, setField_mem, word_st32 _ _ bound f.index_lt bound' f'.index_lt,
    field_eq_word]
  have sameField : f'.index = f.index ↔ f' = f := ⟨Field.index_inj, fun h => h ▸ rfl⟩
  simp only [sameField]

theorem field_agreeOff {k k' : Kernel} {touched : Word → Prop}
    (agree : AgreeOff touched k.mem k'.mem) {p : ℕ} {f : Field}
    (off : ∀ x, Within (wordAddr p f.index) 4 x → ¬ touched x) :
    k'.field (blockAddr p) f = k.field (blockAddr p) f := by
  rw [field_eq_word, field_eq_word]
  exact agree.ld32_eq off

end Kernel

theorem contextAt_agreeOff {touched : Word → Prop} {m m' : Mem} (agree : AgreeOff touched m m')
    {sp : Word} (off : ∀ x, Within sp 20 x → ¬ touched x) : contextAt m' sp = contextAt m sp := by
  have same : ∀ d ≤ 16, ld32 m' (sp + BitVec.ofNat 32 d) = ld32 m (sp + BitVec.ofNat 32 d) :=
    fun d bound => agree.ld32_eq fun x member => off x (member.offset (by omega))
  have first := same 0 (by omega)
  rw [show BitVec.ofNat 32 0 = 0#32 from rfl, BitVec.add_zero] at first
  unfold contextAt
  rw [first, show ld32 m' (sp + 4) = _ from same 4 (by omega),
    show ld32 m' (sp + 8) = _ from same 8 (by omega),
    show ld32 m' (sp + 12) = _ from same 12 (by omega),
    show ld32 m' (sp + 16) = _ from same 16 (by omega)]
  rfl

/-! ## The two blocks -/

/-- `k'` is `k` after the blocks `p` and `q` were handed out and the process id
was stored in the first. -/
structure TwoBlocks (k : Kernel) (p q : ℕ) (k' : Kernel) : Prop where
  pNonzero : p ≠ 0
  distinct : p ≠ q
  pFree : p ∈ k.pmm.freeBlocks
  qFree : q ∈ k.pmm.freeBlocks
  pHeld : k'.pmm.Holdable p
  qHeld : k'.pmm.Holdable q
  keeps : ∀ j, k.pmm.Holdable j → k'.pmm.Holdable j ∧ j ≠ p ∧ j ≠ q
  shrinks : ∀ j ∈ k'.pmm.freeBlocks, j ∈ k.pmm.freeBlocks
  sound : k'.pmm.Sound
  maxBlocks : k'.pmm.maxBlocks = k.pmm.maxBlocks
  bitmap : k'.pmm.bitmap = k.pmm.bitmap
  mem : AgreeOff (fun x => k.pmm.InBitmapWords x ∨ InBlock p x) k.mem k'.mem
  rest : k' = { k with pmm := k'.pmm, nextPid := k.nextPid + 1 }

theorem createBlocks_twoBlocks {k : Kernel} (sound : k.pmm.Sound)
    (gotProc : k.createBlocks.2.1 ≠ 0) (gotStack : k.createBlocks.2.2 ≠ 0) :
    ∃ p q k', TwoBlocks k p q k' ∧ k.createBlocks = (k', blockAddr p, blockAddr q) := by
  rcases sound.alloc with ⟨p, pmm, first, result⟩ | ⟨_, result⟩
  · have bound : p < 2 ^ 20 := first.holdable.bound.trans first.sound.small
    let afterPid : Kernel := ({ k with pmm := pmm } : Kernel).takePid (blockAddr p)
    have agree : AgreeOff (InBlock p) pmm.mem afterPid.mem :=
      Kernel.setField_agreeOff { k with pmm := pmm } bound .id k.nextPid
    have off := first.holdable.off
    have pidSound : afterPid.pmm.Sound := first.sound.withMem agree off
    have keepsPid : ∀ j, pmm.Holdable j → afterPid.pmm.Holdable j :=
      fun j held => held.withMem agree off
    have samePid : afterPid.pmm.freeBlocks = pmm.freeBlocks := Pmm.freeBlocks_withMem agree off
    have words : pmm.InBitmapWords = k.pmm.InBitmapWords := by
      unfold Pmm.InBitmapWords
      rw [first.maxBlocks, first.bitmap]
    have blocks : k.createBlocks =
        ({ afterPid with pmm := (Pmm.pmmAllocBlock afterPid.pmm).1 }, blockAddr p,
          (Pmm.pmmAllocBlock afterPid.pmm).2) := by
      unfold Kernel.createBlocks Kernel.simpleKmalloc
      rw [result]
    rw [blocks] at gotStack ⊢
    rcases pidSound.alloc with ⟨q, pmm', second, result'⟩ | ⟨_, result'⟩
    · refine ⟨p, q, { afterPid with pmm := pmm' }, ?_, by rw [result']⟩
      have pHeld := second.keeps p (keepsPid p first.holdable)
      exact {
        pNonzero := first.nonzero
        distinct := pHeld.2
        pFree := first.wasFree
        qFree := (first.shrinks q (samePid ▸ second.wasFree)).1
        pHeld := pHeld.1
        qHeld := second.holdable
        keeps := fun j held =>
          have afterFirst := first.keeps j held
          have afterSecond := second.keeps j (keepsPid j afterFirst.1)
          ⟨afterSecond.1, afterFirst.2, afterSecond.2⟩
        shrinks := fun j free => (first.shrinks j (samePid ▸ (second.shrinks j free).1)).1
        sound := second.sound
        maxBlocks := second.maxBlocks.trans first.maxBlocks
        bitmap := second.bitmap.trans first.bitmap
        mem := by
          have one := first.mem.mono fun x inWords =>
            Or.inl (b := InBlock p x) inWords
          have two := agree.mono fun x inBlock =>
            Or.inr (a := k.pmm.InBitmapWords x) inBlock
          have three := second.mem.mono fun x inWords =>
            Or.inl (b := InBlock p x) (words ▸ inWords)
          exact (one.trans two).trans three
        rest := rfl }
    · exact absurd (congrArg Prod.snd result') gotStack
  · refine absurd ?_ gotProc
    unfold Kernel.createBlocks Kernel.simpleKmalloc
    rw [result]

/-! ## The frame and the control block -/

/-- A stack block as `switch_task` and the entry point find it. -/
structure FreshStack (m : Mem) (q : ℕ) (threadExit entryPoint : Word) : Prop where
  context : contextAt m (wordAddr q 1018) = ⟨0, 0, 0, 0, entryPoint, wordAddr q 1023⟩
  exit : word m q 1023 = threadExit

theorem within_frame {q : ℕ} (bound : q < 2 ^ 20) {x : Word}
    (member : Within (wordAddr q 1018) 24 x) : InBlock q x :=
  inBlock_of_within_words bound (n := 6) (by omega) member

theorem FreshStack.agreeOff {touched : Word → Prop} {m m' : Mem} {q : ℕ} (bound : q < 2 ^ 20)
    {threadExit entryPoint : Word} (fresh : FreshStack m q threadExit entryPoint)
    (agree : AgreeOff touched m m') (off : ∀ x, InBlock q x → ¬ touched x) :
    FreshStack m' q threadExit entryPoint where
  context := by
    rw [← fresh.context]
    exact contextAt_agreeOff agree fun x member =>
      off x (within_frame bound (member.mono (by omega)))
  exit := (word_agreeOff agree bound (by omega) off).trans fresh.exit

section Filled

variable (k : Kernel) (threadExit entryPoint : Word) {q : ℕ} (qBound : q < 2 ^ 20)

theorem frameBuilt_esp (words : List Word) (count : words.length = 6) :
    (k.frameBuilt (blockAddr q + 4096) words).reg .esp = wordAddr q 1018 := by
  rw [Kernel.frameBuilt, X86.pushAll_esp, count]
  exact top_sub_words q (by omega : 6 ≤ 1024)

theorem frameBuilt_fresh :
    FreshStack (k.frameBuilt (blockAddr q + 4096) [threadExit, entryPoint, 0, 0, 0, 0]).mem q
      threadExit entryPoint := by
  have peeked : ∀ i v, [threadExit, entryPoint, 0, 0, 0, 0].reverse[i]? = some v →
      ld32 (k.frameBuilt (blockAddr q + 4096) [threadExit, entryPoint, 0, 0, 0, 0]).mem
        (wordAddr q (1018 + i)) = v := by
    intro i v found
    rw [← wordAddr_add, ← frameBuilt_esp k [threadExit, entryPoint, 0, 0, 0, 0] rfl]
    exact X86.peek_pushAll _ found (by simp)
  have steps : ∀ n, wordAddr q 1018 + BitVec.ofNat 32 (4 * n) = wordAddr q (1018 + n) :=
    wordAddr_add q 1018
  refine ⟨?_, peeked 5 threadExit rfl⟩
  unfold contextAt
  rw [show wordAddr q 1018 + 4 = _ from steps 1, show wordAddr q 1018 + 8 = _ from steps 2,
    show wordAddr q 1018 + 12 = _ from steps 3, show wordAddr q 1018 + 16 = _ from steps 4,
    show wordAddr q 1018 + 20 = _ from steps 5, peeked 1 0 rfl, peeked 2 0 rfl, peeked 3 0 rfl,
    peeked 4 entryPoint rfl, show ld32 _ (wordAddr q 1018) = 0 from peeked 0 0 rfl]

include qBound in
theorem frameBuilt_agreeOff (words : List Word) (count : words.length = 6) :
    AgreeOff (InBlock q) k.mem (k.frameBuilt (blockAddr q + 4096) words).mem := by
  refine (X86.pushAll_agreeOff _ words).mono fun x below => ?_
  rw [count, X86.Below] at below
  have start : (X86.mk (k.cpu.set .esp (blockAddr q + 4096)) k.mem).reg .esp -
      BitVec.ofNat 32 (4 * 6) = wordAddr q 1018 := top_sub_words q (by omega : 6 ≤ 1024)
  rw [start] at below
  exact within_frame qBound below

end Filled

/-- `k'` is `k` with thread `p` prepared on the stack block `q`. -/
structure Prepared (threadExit entryPoint : Word) (k : Kernel) (p q : ℕ) (k' : Kernel) : Prop where
  kernelStack : k'.field (blockAddr p) .kernelStack = blockAddr q + 4096
  esp : k'.field (blockAddr p) .esp = wordAddr q 1018
  pageDirectory : k'.field (blockAddr p) .pageDirectory = k.cpu.cr3
  fresh : FreshStack k'.mem q threadExit entryPoint
  mem : AgreeOff (fun x => InBlock p x ∨ InBlock q x) k.mem k'.mem
  rest : k' = k.withMem k'.mem

theorem createFilled_prepared (threadExit entryPoint : Word) (k : Kernel) {p q : ℕ}
    (pBound : p < 2 ^ 20) (qBound : q < 2 ^ 20) (distinct : p ≠ q) :
    Prepared threadExit entryPoint k p q
      (Kernel.createFilled threadExit entryPoint k (blockAddr p) (blockAddr q)) := by
  have offP : ∀ x, InBlock q x → ¬ InBlock p x := fun x inQ inP => distinct (inP.unique inQ)
  have offQ : ∀ x, InBlock p x → ¬ InBlock q x := fun x inP inQ => distinct (inP.unique inQ)
  unfold Kernel.createFilled
  dsimp only
  generalize topped : k.setField (blockAddr p) .kernelStack (blockAddr q + 4096) = k₁
  have memOne : AgreeOff (InBlock p) k.mem k₁.mem := topped ▸ k.setField_agreeOff pBound _ _
  have top : k₁.field (blockAddr p) .kernelStack = blockAddr q + 4096 := by
    rw [← topped, k.field_setField pBound pBound, if_pos ⟨rfl, rfl⟩]
  have restOne : k₁ = k.withMem k₁.mem := topped ▸ rfl
  have built := frameBuilt_agreeOff k₁ qBound [threadExit, entryPoint, 0, 0, 0, 0] rfl
  have fresh := @frameBuilt_fresh k₁ threadExit entryPoint q
  rw [frameBuilt_esp k₁ _ rfl]
  generalize (k₁.frameBuilt (blockAddr q + 4096) [threadExit, entryPoint, 0, 0, 0, 0]).mem = m
    at *
  generalize framed : k₁.withMem m = k₂
  have memTwo : AgreeOff (InBlock q) k₁.mem k₂.mem := framed ▸ built
  have freshTwo : FreshStack k₂.mem q threadExit entryPoint := framed ▸ fresh
  have restTwo : k₂ = k.withMem k₂.mem := by
    rw [← framed, restOne]
    rfl
  generalize saved : k₂.setField (blockAddr p) .esp (wordAddr q 1018) = k₃
  have memThree : AgreeOff (InBlock p) k₂.mem k₃.mem := saved ▸ k₂.setField_agreeOff pBound _ _
  have restThree : k₃ = k.withMem k₃.mem := by
    rw [← saved, restTwo]
    rfl
  have memFour := k₃.setField_agreeOff pBound .pageDirectory k₃.cpu.cr3
  have left : ∀ x, InBlock p x → InBlock p x ∨ InBlock q x := fun _ => Or.inl
  have right : ∀ x, InBlock q x → InBlock p x ∨ InBlock q x := fun _ => Or.inr
  refine ⟨?_, ?_, ?_, ?_, ?_, ?_⟩
  · rw [k₃.field_setField pBound pBound, if_neg (by simp), ← saved,
      k₂.field_setField pBound pBound, if_neg (by simp), ← top]
    exact Kernel.field_agreeOff memTwo fun x member =>
      offQ x (inBlock_of_within_wordAddr pBound (Field.index_lt _) member)
  · rw [k₃.field_setField pBound pBound, if_neg (by simp), ← saved,
      k₂.field_setField pBound pBound, if_pos ⟨rfl, rfl⟩]
  · rw [k₃.field_setField pBound pBound, if_pos ⟨rfl, rfl⟩, restThree]
    rfl
  · exact (freshTwo.agreeOff qBound memThree offP).agreeOff qBound memFour offP
  · exact (((memOne.mono left).trans (memTwo.mono right)).trans (memThree.mono left)).trans
      (memFour.mono left)
  · rw [restThree]
    rfl

/-! ## The run queue -/

/-- The control blocks in `l` form the ring that starts at `process_queue`. -/
structure RunQueue (k : Kernel) (l : List ℕ) : Prop where
  ring : Ring k.follow (l.map blockAddr)
  head : (l.map blockAddr)[0]? = some k.processQueue
  held : ∀ b ∈ l, k.pmm.Holdable b
  small : k.pmm.maxBlocks.toNat < 2 ^ 20

namespace RunQueue

variable {k k' : Kernel} {l : List ℕ}

theorem bound (queue : RunQueue k l) {b : ℕ} (member : b ∈ l) : b < 2 ^ 20 :=
  (queue.held b member).bound.trans queue.small

theorem length_le (queue : RunQueue k l) : l.length ≤ 2 ^ 20 := by
  have nodup : l.Nodup := List.Nodup.of_map _ queue.ring.nodup
  have inRange : l ⊆ List.range (2 ^ 20) := fun b member => List.mem_range.mpr (queue.bound member)
  have le := (List.subperm_of_subset nodup inRange).length_le
  rwa [List.length_range] at le

/-- A write that stays away from the `next` fields of the queue keeps the ring. -/
theorem ring_agreeOff (queue : RunQueue k l) {touched : Word → Prop}
    (agree : AgreeOff touched k.mem k'.mem)
    (off : ∀ b ∈ l, ∀ x, Within (wordAddr b 4) 4 x → ¬ touched x) :
    Ring k'.follow (l.map blockAddr) := by
  apply queue.ring.congr
  intro a member
  obtain ⟨b, inL, rfl⟩ := List.mem_map.mp member
  exact Kernel.field_agreeOff agree (off b inL)

end RunQueue

/-- `k'` is `k` after thread `p` with the stack block `q` was created and
appended to the run queue `l`. -/
structure Creates (threadExit entryPoint : Word) (k : Kernel) (l : List ℕ) (p q : ℕ)
    (k' : Kernel) : Prop where
  nonzero : p ≠ 0
  distinct : p ≠ q
  pFree : p ∈ k.pmm.freeBlocks
  qFree : q ∈ k.pmm.freeBlocks
  pHeld : k'.pmm.Holdable p
  qHeld : k'.pmm.Holdable q
  keeps : ∀ j, k.pmm.Holdable j → k'.pmm.Holdable j ∧ j ≠ p ∧ j ≠ q
  shrinks : ∀ j ∈ k'.pmm.freeBlocks, j ∈ k.pmm.freeBlocks
  sound : k'.pmm.Sound
  words : k'.pmm.InBitmapWords = k.pmm.InBitmapWords
  queue : RunQueue k' (l ++ [p])
  kernelStack : k'.field (blockAddr p) .kernelStack = blockAddr q + 4096
  esp : k'.field (blockAddr p) .esp = wordAddr q 1018
  fresh : FreshStack k'.mem q threadExit entryPoint
  mem : AgreeOff (fun x => k.pmm.InBitmapWords x ∨ InBlock p x ∨ InBlock q x ∨
    ∃ t ∈ l, Within (wordAddr t 4) 4 x) k.mem k'.mem
  rest : k' = { k with pmm := k'.pmm, nextPid := k.nextPid + 1 }

/-- The links after `tail->next = proc` and `proc->next = head`. -/
theorem follow_linked (k : Kernel) (head : Word) {t p b : ℕ} (tBound : t < 2 ^ 20)
    (pBound : p < 2 ^ 20) (bBound : b < 2 ^ 20) :
    ((k.setField (blockAddr t) .next (blockAddr p)).setField (blockAddr p) .next head).follow
      (blockAddr b) =
        if b = p then head else if b = t then blockAddr p else k.follow (blockAddr b) := by
  unfold Kernel.follow
  rw [Kernel.field_setField _ pBound bBound, Kernel.field_setField _ tBound bBound]
  simp

/-- Appending `p` behind the last control block `t`. -/
theorem linked {k : Kernel} {l : List ℕ} {t p : ℕ} (ring : Ring k.follow (l.map blockAddr))
    (head : (l.map blockAddr)[0]? = some k.processQueue)
    (final : (l.map blockAddr)[(l.map blockAddr).length - 1]? = some (blockAddr t))
    (bounds : ∀ b ∈ l, b < 2 ^ 20) (tIn : t ∈ l) (pBound : p < 2 ^ 20) (fresh : p ∉ l)
    {k' : Kernel}
    (stored : k' = (k.setField (blockAddr t) .next (blockAddr p)).setField (blockAddr p) .next
      k.processQueue) :
    Ring k'.follow ((l ++ [p]).map blockAddr) := by
  subst stored
  have tBound := bounds t tIn
  have follows := fun b bBound => @follow_linked k k.processQueue t p b tBound pBound bBound
  rw [List.map_append]
  refine ring.append ?_ final head ?_ ?_ ?_
  · intro member
    obtain ⟨b, inL, same⟩ := List.mem_map.mp member
    exact fresh (blockAddr_injective (bounds b inL) pBound same ▸ inL)
  · have other : t ≠ p := fun same => fresh (same ▸ tIn)
    rw [follows t tBound, if_neg other, if_pos rfl]
  · rw [follows p pBound, if_pos rfl]
  · intro a member notLast
    obtain ⟨b, inL, rfl⟩ := List.mem_map.mp member
    have other : b ≠ p := fun same => fresh (same ▸ inL)
    have inner : b ≠ t := fun same => notLast (same ▸ rfl)
    rw [follows b (bounds b inL), if_neg other, if_neg inner]

/-- `k'` is `k₂` after the stores that link `p` behind `t`. -/
structure Links (k₂ : Kernel) (t p : ℕ) (k' : Kernel) : Prop where
  mem : AgreeOff (fun x => InBlock p x ∨ Within (wordAddr t 4) 4 x) k₂.mem k'.mem
  inner : ∀ f, f ≠ .next → k'.field (blockAddr p) f = k₂.field (blockAddr p) f
  rest : k' = k₂.withMem k'.mem

theorem links_of_stores (k₂ : Kernel) {t p : ℕ} (tBound : t < 2 ^ 20) (pBound : p < 2 ^ 20)
    {head : Word} {k' : Kernel}
    (stored : (k₂.setField (blockAddr t) .next (blockAddr p)).setField (blockAddr p) .next head =
      k') : Links k₂ t p k' where
  mem := by
    have toTail : AgreeOff (Within (wordAddr t 4) 4) k₂.mem
        (k₂.setField (blockAddr t) .next (blockAddr p)).mem := by
      rw [Kernel.setField_mem]
      exact st32_agreeOff _ _ _
    have back : AgreeOff (InBlock p) (k₂.setField (blockAddr t) .next (blockAddr p)).mem k'.mem :=
      stored ▸ Kernel.setField_agreeOff _ pBound .next head
    exact (toTail.mono fun x => Or.inr).trans (back.mono fun x => Or.inl)
  inner := by
    intro f other
    rw [← stored, Kernel.field_setField _ pBound pBound, if_neg (fun both => other both.2),
      Kernel.field_setField _ tBound pBound, if_neg (fun both => other both.2)]
  rest := by
    rw [← stored]
    rfl

section Linking

variable {threadExit entryPoint : Word} {k k₁ k₂ : Kernel} {l : List ℕ} {p q : ℕ}
  (blocks : TwoBlocks k p q k₁) (prepared : Prepared threadExit entryPoint k₁ p q k₂)

include blocks

theorem TwoBlocks.pBound : p < 2 ^ 20 := blocks.pHeld.bound.trans blocks.sound.small

theorem TwoBlocks.qBound : q < 2 ^ 20 := blocks.qHeld.bound.trans blocks.sound.small

theorem TwoBlocks.words : k₁.pmm.InBitmapWords = k.pmm.InBitmapWords := by
  unfold Pmm.InBitmapWords
  rw [blocks.maxBlocks, blocks.bitmap]

include prepared

theorem prepared_agreeOff :
    AgreeOff (fun x => k.pmm.InBitmapWords x ∨ InBlock p x ∨ InBlock q x) k.mem k₂.mem := by
  have one : AgreeOff (fun x => k.pmm.InBitmapWords x ∨ InBlock p x ∨ InBlock q x) k.mem k₁.mem :=
    blocks.mem.mono fun x => Or.imp_right Or.inl
  exact one.trans (prepared.mem.mono fun x => Or.inr)

theorem prepared_processQueue : k₂.processQueue = k.processQueue := by
  rw [prepared.rest, blocks.rest]
  rfl

variable (queue : RunQueue k l)

include queue

/-- The tail search runs on the ring as it was before the call. -/
theorem prepared_ring : Ring k₂.follow (l.map blockAddr) := by
  refine queue.ring_agreeOff (prepared_agreeOff blocks prepared) fun b inL x member => ?_
  have inBlock : InBlock b x := inBlock_of_within_wordAddr (queue.bound inL) (by omega) member
  have kept := blocks.keeps b (queue.held b inL)
  rintro (inWords | inP | inQ)
  · exact (queue.held b inL).clear x inBlock inWords
  · exact kept.2.1 (inBlock.unique inP)
  · exact kept.2.2 (inBlock.unique inQ)

theorem prepared_head : (l.map blockAddr)[0]? = some k₂.processQueue :=
  prepared_processQueue blocks prepared ▸ queue.head

theorem tail_found : ∃ t ∈ l,
    (l.map blockAddr)[(l.map blockAddr).length - 1]? = some (blockAddr t) ∧
      tailFrom k₂.follow k₂.processQueue (2 ^ 32) k₂.processQueue = some (blockAddr t) := by
  have nonempty : l.length - 1 < l.length := by
    have := queue.ring.nonempty
    rw [List.length_map] at this
    omega
  obtain ⟨t, atLast⟩ : ∃ t, l[l.length - 1]? = some t := ⟨_, List.getElem?_eq_getElem nonempty⟩
  have final : (l.map blockAddr)[(l.map blockAddr).length - 1]? = some (blockAddr t) := by
    rw [List.length_map, List.getElem?_map, atLast, Option.map_some]
  have enough : (l.map blockAddr).length ≤ 2 ^ 32 := by
    rw [List.length_map]
    exact queue.length_le.trans (by omega)
  have found := (prepared_ring blocks prepared queue).tailFrom_eq_last
    (prepared_head blocks prepared queue) final enough
  exact ⟨t, List.mem_of_getElem? atLast, final, found⟩

/-- The allocator sees writes to the three blocks only. -/
theorem linked_allocator {t : ℕ} (tIn : t ∈ l) {k' : Kernel} (links : Links k₂ t p k') :
    k' = k₁.withMem k'.mem ∧ k'.pmm.Sound ∧ k'.pmm.freeBlocks = k₁.pmm.freeBlocks ∧
      ∀ j, k₁.pmm.Holdable j → k'.pmm.Holdable j := by
  have tHeld := (blocks.keeps t (queue.held t tIn)).1
  have rest : k' = k₁.withMem k'.mem := by
    rw [links.rest, prepared.rest]
    rfl
  have inTail : ∀ x, Within (wordAddr t 4) 4 x → InBlock t x := fun x =>
    inBlock_of_within_wordAddr (queue.bound tIn) (by omega)
  have agree : AgreeOff (fun x => InBlock p x ∨ InBlock q x ∨ InBlock t x) k₁.mem k'.mem := by
    have one : AgreeOff (fun x => InBlock p x ∨ InBlock q x ∨ InBlock t x) k₁.mem k₂.mem :=
      prepared.mem.mono fun x => Or.imp_right Or.inl
    exact one.trans (links.mem.mono fun x => Or.imp_right fun inT => Or.inr (inTail x inT))
  have off : ∀ x, k₁.pmm.InBitmapWords x → ¬ (InBlock p x ∨ InBlock q x ∨ InBlock t x) := by
    rintro x inWords (inP | inQ | inT)
    · exact blocks.pHeld.off x inWords inP
    · exact blocks.qHeld.off x inWords inQ
    · exact tHeld.off x inWords inT
  refine ⟨rest, ?_, ?_, fun j held => ?_⟩
  · rw [rest]
    exact blocks.sound.withMem agree off
  · rw [rest]
    exact Pmm.freeBlocks_withMem agree off
  · rw [rest]
    exact held.withMem agree off

theorem creates_of_linked {t : ℕ} (tIn : t ∈ l)
    (final : (l.map blockAddr)[(l.map blockAddr).length - 1]? = some (blockAddr t)) :
    Creates threadExit entryPoint k l p q
      ((k₂.setField (blockAddr t) .next (blockAddr p)).setField (blockAddr p) .next
        k₂.processQueue) := by
  generalize stored : (k₂.setField (blockAddr t) .next (blockAddr p)).setField (blockAddr p) .next
    k₂.processQueue = k'
  have tBound := queue.bound tIn
  have pBound := blocks.pBound
  have others := fun b inL => blocks.keeps b (queue.held b inL)
  have fresh : p ∉ l := fun member => (others p member).2.1 rfl
  have links := links_of_stores k₂ tBound pBound stored
  obtain ⟨rest, sound, free, keeps⟩ := linked_allocator blocks prepared queue tIn links
  exact {
    nonzero := blocks.pNonzero
    distinct := blocks.distinct
    pFree := blocks.pFree
    qFree := blocks.qFree
    pHeld := keeps p blocks.pHeld
    qHeld := keeps q blocks.qHeld
    keeps := fun j held =>
      have kept := blocks.keeps j held
      ⟨keeps j kept.1, kept.2⟩
    shrinks := fun j isFree => blocks.shrinks j (free ▸ isFree)
    sound := sound
    words := by
      rw [rest]
      exact blocks.words
    queue := {
      ring := linked (prepared_ring blocks prepared queue) (prepared_head blocks prepared queue)
        final (fun b inL => queue.bound inL) tIn pBound fresh stored.symm
      head := by
        have same : k'.processQueue = k.processQueue := by
          rw [rest, blocks.rest]
          rfl
        rw [same, List.map_append, List.getElem?_append_left queue.ring.nonempty]
        exact queue.head
      held := by
        intro b member
        rcases List.mem_append.mp member with old | new
        · exact keeps b (others b old).1
        · cases List.mem_singleton.mp new
          exact keeps p blocks.pHeld
      small := sound.small }
    kernelStack := (links.inner .kernelStack (by simp)).trans prepared.kernelStack
    esp := (links.inner .esp (by simp)).trans prepared.esp
    fresh := by
      refine prepared.fresh.agreeOff blocks.qBound links.mem ?_
      rintro x inQ (inP | inT)
      · exact blocks.distinct (inP.unique inQ)
      · have inTail := inBlock_of_within_wordAddr tBound (by omega) inT
        exact (others t tIn).2.2 (inTail.unique inQ)
    mem := by
      have one : AgreeOff (fun x => k.pmm.InBitmapWords x ∨ InBlock p x ∨ InBlock q x ∨
          ∃ t ∈ l, Within (wordAddr t 4) 4 x) k.mem k₂.mem :=
        (prepared_agreeOff blocks prepared).mono fun x => Or.imp_right (Or.imp_right Or.inl)
      refine one.trans (links.mem.mono ?_)
      rintro x (inP | inT)
      · exact Or.inr (Or.inl inP)
      · exact Or.inr (Or.inr (Or.inr ⟨t, tIn, inT⟩))
    rest := by
      rw [rest, blocks.rest]
      rfl }

end Linking

theorem processCreateThread_creates (threadExit entryPoint : Word) {k : Kernel} {l : List ℕ}
    (sound : k.pmm.Sound) (queue : RunQueue k l) (gotProc : k.createBlocks.2.1 ≠ 0)
    (gotStack : k.createBlocks.2.2 ≠ 0) :
    ∃ p q k', Kernel.processCreateThread threadExit entryPoint k = some (k', blockAddr p) ∧
      k.createBlocks.2 = (blockAddr p, blockAddr q) ∧ Creates threadExit entryPoint k l p q k' := by
  obtain ⟨p, q, k₁, blocks, result⟩ := createBlocks_twoBlocks sound gotProc gotStack
  have prepared := createFilled_prepared threadExit entryPoint k₁ blocks.pBound blocks.qBound
    blocks.distinct
  generalize filled : Kernel.createFilled threadExit entryPoint k₁ (blockAddr p) (blockAddr q) =
    k₂ at prepared
  obtain ⟨t, tIn, final, found⟩ := tail_found blocks prepared queue
  refine ⟨p, q, _, ?_, by rw [result], creates_of_linked blocks prepared queue tIn final⟩
  unfold Kernel.processCreateThread
  rw [result]
  dsimp only
  rw [filled, found, Option.map_some]
  rfl

end OrbitOs.Process
