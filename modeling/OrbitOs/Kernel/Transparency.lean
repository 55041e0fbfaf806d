import OrbitOs.Kernel.Interrupts

/-!
# What an interrupt leaves of the interrupted code

The stubs build a `registers_t` under the frame of the CPU and take it apart
again.  Only DS is saved; it comes back into all four data segment registers.
-/

set_option autoImplicit false

namespace OrbitOs.Kernel

open OrbitOs.Machine

/-- `registers_t` -/
structure Registers where
  ds : Word
  edi : Word
  esi : Word
  ebp : Word
  esp : Word
  ebx : Word
  edx : Word
  ecx : Word
  eax : Word
  intNo : Word
  errCode : Word
  eip : Word
  cs : Word
  eflags : Word
  useresp : Word
  ss : Word

/-- The structure at `regs`. -/
def Registers.load (m : Mem) (regs : Word) : Registers :=
  let field (k : ℕ) : Word := ld32 m (regs + BitVec.ofNat 32 (4 * k))
  { ds := field 0, edi := field 1, esi := field 2, ebp := field 3, esp := field 4, ebx := field 5,
    edx := field 6, ecx := field 7, eax := field 8, intNo := field 9, errCode := field 10,
    eip := field 11, cs := field 12, eflags := field 13, useresp := field 14, ss := field 15 }

namespace Stub

/-- The vectors of the IDT that have a stub. -/
def ofVector (vector : ℕ) : Option Stub :=
  if vector ∈ [8, 10, 11, 12, 13, 14, 17, 21, 30] then some (.isrErrCode (BitVec.ofNat 32 vector))
  else if vector < 32 ∨ vector = 128 then some (.isrNoErrCode (BitVec.ofNat 32 vector))
  else if vector < 48 then some (.irq (BitVec.ofNat 32 vector))
  else none

/-- What the entry of a stub pushes. -/
def pushed : Stub → List Word
  | .isrNoErrCode num => [0, num]
  | .isrErrCode num => [num]
  | .irq num => [0, num]

def number : Stub → Word
  | .isrNoErrCode num => num
  | .isrErrCode num => num
  | .irq num => num

theorem number_ofVector {vector : ℕ} {stub : Stub} (has : ofVector vector = some stub) :
    stub.number = BitVec.ofNat 32 vector := by
  unfold ofVector at has
  split_ifs at has
  · cases has
    rfl
  · cases has
    rfl
  · cases has
    rfl

/-- After the entry, the vector's number and an error code are on the stack. -/
theorem pushed_reverse {stub : Stub} {code : Option Word} (fits : stub.CodeFits code) :
    stub.pushed.reverse ++ code.toList.reverse = [stub.number, code.getD 0] := by
  cases stub with
  | isrErrCode num =>
      obtain ⟨c, rfl⟩ := Option.isSome_iff_exists.mp fits
      rfl
  | isrNoErrCode num =>
      rw [show code = none from fits]
      rfl
  | irq num =>
      rw [show code = none from fits]
      rfl

/-! ## The frame -/

/-- `mov %ds, %ax` -/
def dsWord (x : X86) : Word := (x.reg .eax &&& 0xFFFF0000) ||| (x.cpu.seg .ds).zeroExtend 32

/-- Everything but the stack that the entry of a stub keeps. -/
theorem run_entry (stub : Stub) (x : X86) :
    X86.SameStack (x.run stub.entry) (x.pushAll stub.pushed) ∧
      (∀ r, r ≠ .esp → (x.run stub.entry).reg r = x.reg r) ∧
      (x.run stub.entry).cpu.seg = x.cpu.seg := by
  have off : X86.SameStack (x.exec .cli) x := ⟨rfl, rfl⟩
  have run : x.run stub.entry = (x.exec .cli).pushAll stub.pushed := by
    cases stub <;> rfl
  rw [run]
  refine ⟨off.pushAll _, fun r other => ?_, ?_⟩
  · rw [X86.pushAll_reg _ _ other]
    rfl
  · rw [X86.pushAll_seg]
    rfl

theorem run_commonHead (y : X86) :
    let z := y.pushAll (y.pushaWords ++ [dsWord y])
    X86.SameStack (y.run commonHead) (z.push (z.reg .esp)) ∧
      (y.run commonHead).cpu.seg .cs = y.cpu.seg .cs ∧
      (y.run commonHead).cpu.seg .ss = y.cpu.seg .ss := by
  intro z
  let saved := y.pushAll y.pushaWords
  have selector : (saved.exec (.movFromSeg .ds .eax)).reg .eax = dsWord y := by
    have loaded : (saved.exec (.movFromSeg .ds .eax)).reg .eax =
        (saved.reg .eax &&& 0xFFFF0000) ||| (saved.cpu.seg .ds).zeroExtend 32 := rfl
    rw [loaded, X86.pushAll_reg _ _ (by simp), X86.pushAll_seg]
    rfl
  have moved : ∀ w : X86, X86.SameStack (w.exec (.movFromSeg .ds .eax)) w := fun w => ⟨rfl, rfl⟩
  have together : z = saved.push (dsWord y) := y.pushAll_append y.pushaWords [dsWord y]
  have pushed : X86.SameStack
      ((saved.exec (.movFromSeg .ds .eax)).push
        ((saved.exec (.movFromSeg .ds .eax)).reg .eax)) z := by
    rw [selector, together]
    exact (moved saved).push _
  have whole : y.run commonHead =
      ((((saved.exec (.movFromSeg .ds .eax)).push
        ((saved.exec (.movFromSeg .ds .eax)).reg .eax)).exec (.movImm16 0x10 .eax)).run
          (loadDataSegments .eax)).exec (.push .esp) := rfl
  have segments : saved.cpu.seg = y.cpu.seg := X86.pushAll_seg _ _
  have loads : ∀ w : X86,
      X86.SameStack ((w.exec (.movImm16 0x10 .eax)).run (loadDataSegments .eax)) w := fun w =>
    ⟨rfl, rfl⟩
  have ready := (loads _).trans pushed
  rw [whole]
  refine ⟨?_, ?_, ?_⟩
  · have last := ready.push (z.reg .esp)
    rw [← ready.esp] at last ⊢
    exact last
  · rw [← segments]
    rfl
  · rw [← segments]
    rfl

/-- The words above the pointer the C handler is given, lowest first; `esp` is
where `pusha` began. -/
def frame (stub : Stub) (code : Option Word) (x : X86) (esp : Word) : List Word :=
  [dsWord x, x.reg .edi, x.reg .esi, x.reg .ebp, esp, x.reg .ebx, x.reg .edx, x.reg .ecx,
    x.reg .eax, stub.number, code.getD 0, x.cpu.eip, (x.cpu.seg .cs).zeroExtend 32,
    x.cpu.eflags] ++
    if x.cpl = 0 then [] else [x.reg .esp, (x.cpu.seg .ss).zeroExtend 32]

theorem interruptWords_reverse (x : X86) :
    x.interruptWords.reverse = [x.cpu.eip, (x.cpu.seg .cs).zeroExtend 32, x.cpu.eflags] ++
      if x.cpl = 0 then [] else [x.reg .esp, (x.cpu.seg .ss).zeroExtend 32] := by
  unfold X86.interruptWords
  split <;> rfl

theorem interrupt_reg (tss : Tss) (code : Option Word) (entryAddr : Word) (x : X86) {r : Reg}
    (other : r ≠ .esp) : (x.interrupt tss code 0x08 entryAddr).reg r = x.reg r := by
  unfold X86.interrupt
  simp only [X86.jump_reg, X86.setSeg_reg, X86.setFlags_reg, X86.pushAll_reg _ _ other]
  unfold X86.innerStack
  split
  · rfl
  · exact if_neg other

theorem interrupt_seg (tss : Tss) (code : Option Word) (entryAddr : Word) (x : X86) {s : Seg}
    (other : s ≠ .cs) :
    (x.interrupt tss code 0x08 entryAddr).cpu.seg s = (x.innerStack tss).cpu.seg s := by
  unfold X86.interrupt
  simp only [X86.jump_seg, X86.setSeg_seg, X86.setFlags_seg, if_neg other, X86.pushAll_seg]

theorem innerStack_ds (tss : Tss) (x : X86) : (x.innerStack tss).cpu.seg .ds = x.cpu.seg .ds := by
  unfold X86.innerStack
  split <;> rfl

/-- The machine between the entry of the stub and the common stub. -/
theorem arrive_entered (stub : Stub) (tss : Tss) (code : Option Word) (entryAddr : Word)
    (x : X86) :
    ∃ w : X86, stub.arrive tss code entryAddr x = w.run commonHead ∧
      X86.SameStack w
        ((x.innerStack tss).pushAll (x.interruptWords ++ code.toList ++ stub.pushed)) ∧
      (∀ r, r ≠ .esp → w.reg r = x.reg r) ∧ w.cpu.seg .ds = x.cpu.seg .ds ∧
      w.cpu.seg .cs = 0x08 ∧ w.cpu.seg .ss = (x.innerStack tss).cpu.seg .ss := by
  obtain ⟨stack, reg, seg⟩ := run_entry stub (x.interrupt tss code 0x08 entryAddr)
  refine ⟨_, X86.run_append _ _ _, ?_, ?_, ?_, ?_, ?_⟩
  · rw [X86.pushAll_append]
    exact stack.trans ((x.interrupt_sameStack tss code 0x08 entryAddr).pushAll _)
  · intro r other
    rw [reg r other, interrupt_reg tss code entryAddr x other]
  · rw [seg, interrupt_seg tss code entryAddr x (by simp), innerStack_ds]
  · rw [seg]
    rfl
  · rw [seg, interrupt_seg tss code entryAddr x (by simp)]

theorem frame_reverse {stub : Stub} {code : Option Word} (fits : stub.CodeFits code) {w x : X86}
    (reg : ∀ r, r ≠ .esp → w.reg r = x.reg r) (ds : w.cpu.seg .ds = x.cpu.seg .ds) :
    (x.interruptWords ++ code.toList ++ stub.pushed ++ (w.pushaWords ++ [dsWord w])).reverse =
      stub.frame code x (w.reg .esp) := by
  have selector : dsWord w = dsWord x := by
    unfold dsWord
    rw [reg .eax (by simp), ds]
  have saved : w.pushaWords.reverse = [x.reg .edi, x.reg .esi, x.reg .ebp, w.reg .esp,
      x.reg .ebx, x.reg .edx, x.reg .ecx, x.reg .eax] := by
    unfold X86.pushaWords
    rw [reg .eax (by simp), reg .ecx (by simp), reg .edx (by simp), reg .ebx (by simp),
      reg .ebp (by simp), reg .esi (by simp), reg .edi (by simp)]
    rfl
  calc
    _ = [dsWord w] ++ w.pushaWords.reverse ++ (stub.pushed.reverse ++ code.toList.reverse) ++
        x.interruptWords.reverse := by simp
    _ = _ := by
      rw [selector, saved, pushed_reverse fits, interruptWords_reverse]
      rfl

/-- The pointer to the frame and what lies above it. -/
theorem run_commonHead_pointer {w y : X86} (run : y = w.run commonHead) :
    y.peek 0 = y.reg .esp + 4 ∧ w.reg .esp = y.peek 0 + 36 ∧
      ∀ k, k < 16 → ld32 y.mem (y.peek 0 + BitVec.ofNat 32 (4 * k)) =
        (w.pushAll (w.pushaWords ++ [dsWord w])).peek k := by
  obtain ⟨stack, _⟩ := run_commonHead w
  rw [← run] at stack
  have length : (w.pushaWords ++ [dsWord w]).length = 9 := rfl
  have began := w.pushAll_esp (w.pushaWords ++ [dsWord w])
  rw [length] at began
  generalize w.pushAll (w.pushaWords ++ [dsWord w]) = z at stack began
  have pointer : y.peek 0 = z.reg .esp := by
    rw [stack.peek, X86.peek_push_zero]
  have pointed : z.reg .esp = y.reg .esp + 4 := by
    rw [stack.esp, X86.push_esp]
    bv_omega
  refine ⟨pointer.trans pointed, ?_, ?_⟩
  · rw [pointer, began]
    bv_omega
  · intro k small
    have next : y.peek (k + 1) = z.peek k := by
      rw [stack.peek, X86.peek_push_succ _ _ (by omega)]
    have place : y.reg .esp + 4 + BitVec.ofNat 32 (4 * k) =
        y.reg .esp + BitVec.ofNat 32 (4 * (k + 1)) := by
      bv_omega
    rw [pointer, ← next, pointed, place]
    rfl

theorem frame_length (stub : Stub) (code : Option Word) (x : X86) (esp : Word) :
    (stub.frame code x esp).length ≤ 16 := by
  unfold frame
  split <;> simp

/-- The C handler is called on a pointer to the frame. -/
theorem arrive_frame {stub : Stub} {code : Option Word} (fits : stub.CodeFits code) {tss : Tss}
    {entryAddr : Word} {x y : X86} (arrived : y = stub.arrive tss code entryAddr x) :
    y.peek 0 = y.reg .esp + 4 ∧
      ∀ k v, (stub.frame code x (y.peek 0 + 36))[k]? = some v →
        ld32 y.mem (y.peek 0 + BitVec.ofNat 32 (4 * k)) = v := by
  obtain ⟨w, run, stack, reg, ds, _⟩ := stub.arrive_entered tss code entryAddr x
  obtain ⟨pointer, began, above⟩ := run_commonHead_pointer (arrived.trans run)
  refine ⟨pointer, ?_⟩
  intro k v found
  have length := stub.frame_length code x (y.peek 0 + 36)
  have bound := (List.getElem?_eq_some_iff.mp found).1
  have whole := stack.pushAll (w.pushaWords ++ [dsWord w])
  rw [← X86.pushAll_append] at whole
  rw [← began, ← frame_reverse fits reg ds] at found
  rw [above k (by omega), whole.peek]
  apply X86.peek_pushAll _ found
  rw [← List.length_reverse, frame_reverse fits reg ds]
  have short := stub.frame_length code x (w.reg .esp)
  omega

/-! ## The way back -/

/-- The machine before the `iret`: what is in the frame is in the registers. -/
structure Unwound (r y : X86) : Prop where
  stack : X86.SameStack y (r.drop 12)
  edi : y.reg .edi = r.peek 2
  esi : y.reg .esi = r.peek 3
  ebp : y.reg .ebp = r.peek 4
  ebx : y.reg .ebx = r.peek 6
  edx : y.reg .edx = r.peek 7
  ecx : y.reg .ecx = r.peek 8
  eax : y.reg .eax = r.peek 9
  data : ∀ s ∈ [Seg.ds, .es, .fs, .gs], y.cpu.seg s = (r.peek 1).truncate 16
  cs : y.cpu.seg .cs = r.cpu.seg .cs
  ss : y.cpu.seg .ss = r.cpu.seg .ss

theorem run_reload_reg (saved : Reg) (r : X86) :
    (r.run [.addImm 4 .esp, .pop saved]).reg saved = r.peek 1 := by
  have cleaned : X86.SameStack (r.exec (.addImm 4 .esp)) (r.drop 1) := ⟨rfl, rfl⟩
  have loaded : (r.run [.addImm 4 .esp, .pop saved]).reg saved =
      (r.exec (.addImm 4 .esp)).peek 0 := if_pos rfl
  rw [loaded, cleaned.peek, X86.peek_drop]

theorem run_loadDataSegments (saved : Reg) (p : X86) :
    X86.SameStack (p.run (loadDataSegments saved)) p ∧
      (∀ s ∈ [Seg.ds, .es, .fs, .gs],
        (p.run (loadDataSegments saved)).cpu.seg s = (p.reg saved).truncate 16) ∧
      (p.run (loadDataSegments saved)).cpu.seg .cs = p.cpu.seg .cs ∧
      (p.run (loadDataSegments saved)).cpu.seg .ss = p.cpu.seg .ss := by
  refine ⟨⟨rfl, rfl⟩, ?_, rfl, rfl⟩
  intro s member
  simp only [List.mem_cons, List.not_mem_nil, or_false] at member
  rcases member with rfl | rfl | rfl | rfl
  · rfl
  · rfl
  · rfl
  · rfl

/-- The registers that `popa` loads stay until the `iret`. -/
theorem run_popRegisters_reg (l : X86) :
    let q := l.run [.popa, .addImm 8 .esp, .sti]
    q.reg .edi = l.peek 0 ∧ q.reg .esi = l.peek 1 ∧ q.reg .ebp = l.peek 2 ∧
      q.reg .ebx = l.peek 4 ∧ q.reg .edx = l.peek 5 ∧ q.reg .ecx = l.peek 6 ∧
      q.reg .eax = l.peek 7 ∧ q.cpu.seg = l.cpu.seg :=
  ⟨rfl, rfl, rfl, rfl, rfl, rfl, rfl, rfl⟩

theorem run_commonTail_unwound {saved : Reg} (other : saved ≠ .esp) (r : X86) :
    ∃ y : X86, r.run (commonTail saved) = y.iret ∧ Unwound r y := by
  have whole : r.run (commonTail saved) =
      (((r.run [.addImm 4 .esp, .pop saved]).run (loadDataSegments saved)).run
        [.popa, .addImm 8 .esp, .sti]).iret := rfl
  have popped : X86.SameStack (r.run [.addImm 4 .esp, .pop saved]) (r.drop 2) :=
    ⟨(run_reload other r).2, rfl⟩
  have selector := run_reload_reg saved r
  have poppedSeg : (r.run [.addImm 4 .esp, .pop saved]).cpu.seg = r.cpu.seg := rfl
  generalize r.run [.addImm 4 .esp, .pop saved] = p at *
  obtain ⟨loadStack, data, loadCs, loadSs⟩ := run_loadDataSegments saved p
  generalize p.run (loadDataSegments saved) = l at *
  have peek : ∀ k, l.peek k = r.peek (2 + k) := by
    intro k
    rw [loadStack.peek, popped.peek, X86.peek_drop]
  obtain ⟨mem, esp⟩ := run_popRegisters l
  obtain ⟨edi, esi, ebp, ebx, edx, ecx, eax, seg⟩ := run_popRegisters_reg l
  refine ⟨_, whole, ?_⟩
  generalize l.run [.popa, .addImm 8 .esp, .sti] = q at *
  exact {
    stack := by
      refine ⟨?_, mem.trans (loadStack.trans popped).mem⟩
      rw [esp, (loadStack.trans popped).esp, X86.drop_reg, X86.drop_reg, if_pos rfl, if_pos rfl,
        BitVec.add_assoc]
      rfl
    edi := edi.trans (peek 0)
    esi := esi.trans (peek 1)
    ebp := ebp.trans (peek 2)
    ebx := ebx.trans (peek 4)
    edx := edx.trans (peek 5)
    ecx := ecx.trans (peek 6)
    eax := eax.trans (peek 7)
    data := by
      intro s member
      rw [seg, data s member, selector]
    cs := by rw [seg, loadCs, poppedSeg]
    ss := by rw [seg, loadSs, poppedSeg] }

theorem run_tail_unwound (stub : Stub) (r : X86) :
    ∃ y : X86, r.run stub.tail = y.iret ∧ Unwound r y := by
  cases stub with
  | irq num => exact run_commonTail_unwound (by simp) r
  | _ => exact run_commonTail_unwound (by simp) r

end Stub

/-! ## The whole round trip -/

/-- What the C handler is called on. -/
def argument (y : X86) : Word := y.peek 0

/-- `*regs` at the call of the C handler. -/
def Registers.passed (y : X86) : Registers := Registers.load y.mem (argument y)

/-- What `r` at `regs` tells the C handler of an interrupt of `x`. -/
structure Sees (vector : ℕ) (code : Option Word) (x : X86) (regs : Word) (r : Registers) :
    Prop where
  ds : r.ds.truncate 16 = x.cpu.seg .ds
  edi : r.edi = x.reg .edi
  esi : r.esi = x.reg .esi
  ebp : r.ebp = x.reg .ebp
  /-- The address of `int_no`. -/
  esp : r.esp = regs + 36
  ebx : r.ebx = x.reg .ebx
  edx : r.edx = x.reg .edx
  ecx : r.ecx = x.reg .ecx
  eax : r.eax = x.reg .eax
  intNo : r.intNo = BitVec.ofNat 32 vector
  errCode : r.errCode = code.getD 0
  eip : r.eip = x.cpu.eip
  cs : r.cs = (x.cpu.seg .cs).zeroExtend 32
  eflags : r.eflags = x.cpu.eflags
  outer : x.cpl ≠ 0 → r.useresp = x.reg .esp ∧ r.ss = (x.cpu.seg .ss).zeroExtend 32

/-- The C handler returned to the stub and left `*regs` alone. -/
structure LeavesRegs (called returned : X86) : Prop where
  esp : returned.reg .esp = called.reg .esp
  cs : returned.cpu.seg .cs = called.cpu.seg .cs
  ss : returned.cpu.seg .ss = called.cpu.seg .ss
  regs : Registers.load returned.mem (argument called) = Registers.passed called

/-- `y` goes on where `x` was interrupted. -/
structure Resumes (x y : X86) : Prop where
  reg : ∀ r, y.reg r = x.reg r
  eip : y.cpu.eip = x.cpu.eip
  eflags : y.cpu.eflags = x.cpu.eflags
  kept : ∀ s ∈ [Seg.cs, .ss, .ds], y.cpu.seg s = x.cpu.seg s
  loaded : ∀ s ∈ [Seg.es, .fs, .gs], y.cpu.seg s = x.cpu.seg .ds

namespace Stub

theorem dsWord_selector (x : X86) : (dsWord x).truncate 16 = x.cpu.seg .ds := by
  unfold dsWord
  ext i bound
  simp

theorem arrive_sees {vector : ℕ} {stub : Stub} (has : ofVector vector = some stub)
    {code : Option Word} (fits : stub.CodeFits code) {tss : Tss} {entryAddr : Word} {x y : X86}
    (arrived : y = stub.arrive tss code entryAddr x) :
    Sees vector code x (argument y) (Registers.passed y) := by
  obtain ⟨_, above⟩ := arrive_frame fits arrived
  exact {
    ds := by
      rw [← dsWord_selector x, ← above 0 _ rfl]
      rfl
    edi := above 1 _ rfl
    esi := above 2 _ rfl
    ebp := above 3 _ rfl
    esp := above 4 _ rfl
    ebx := above 5 _ rfl
    edx := above 6 _ rfl
    ecx := above 7 _ rfl
    eax := above 8 _ rfl
    intNo := (above 9 _ rfl).trans (number_ofVector has)
    errCode := above 10 _ rfl
    eip := above 11 _ rfl
    cs := above 12 _ rfl
    eflags := above 13 _ rfl
    outer := by
      intro outer
      unfold frame at above
      rw [if_neg outer] at above
      exact ⟨above 14 _ rfl, above 15 _ rfl⟩ }

theorem arrive_selectors (stub : Stub) (tss : Tss) (code : Option Word) (entryAddr : Word)
    (x : X86) : (stub.arrive tss code entryAddr x).cpu.seg .cs = 0x08 ∧
      (stub.arrive tss code entryAddr x).cpu.seg .ss = (x.innerStack tss).cpu.seg .ss := by
  obtain ⟨w, run, _, _, _, cs, ss⟩ := stub.arrive_entered tss code entryAddr x
  obtain ⟨_, headCs, headSs⟩ := run_commonHead w
  rw [run]
  exact ⟨headCs.trans cs, headSs.trans ss⟩

/-- At privilege level 0 the frame is 15 words below the interrupted ESP. -/
theorem arrive_esp_inner {stub : Stub} {code : Option Word} (fits : stub.CodeFits code) (tss : Tss)
    (entryAddr : Word) {x : X86} (ring0 : x.cpl = 0) :
    (stub.arrive tss code entryAddr x).reg .esp = x.reg .esp - 60 := by
  have grew := stub.arrive_grew tss code entryAddr x
  have inner : x.innerStack tss = x := if_pos ring0
  have words : stub.pushedWords code x = 15 := by
    have two := fits.entryWords
    have three : x.interruptWords.length = 3 := by
      rw [X86.interruptWords, if_pos ring0]
      rfl
    rw [pushedWords, List.length_append, three]
    omega
  rw [grew.esp, words, inner]
  rfl

/-- The stack of the returning handler holds the frame. -/
theorem peek_of_leavesRegs {y r : X86} (leaves : LeavesRegs y r)
    (pointer : y.peek 0 = y.reg .esp + 4) (k : ℕ) :
    r.peek (k + 1) = ld32 r.mem (y.peek 0 + BitVec.ofNat 32 (4 * k)) := by
  have place : y.reg .esp + 4 + BitVec.ofNat 32 (4 * k) =
      y.reg .esp + BitVec.ofNat 32 (4 * (k + 1)) := by
    bv_omega
  rw [pointer, place, ← leaves.esp]
  rfl

end Stub

theorem truncate_zeroExtend (s : Selector) : (s.zeroExtend 32).truncate 16 = s := by
  simp

theorem Resumes.of_parts {x y : X86} (eip : y.cpu.eip = x.cpu.eip)
    (eflags : y.cpu.eflags = x.cpu.eflags) (reg : ∀ r, r ≠ .esp → y.reg r = x.reg r)
    (esp : y.reg .esp = x.reg .esp) (cs : y.cpu.seg .cs = x.cpu.seg .cs)
    (ss : y.cpu.seg .ss = x.cpu.seg .ss) (ds : y.cpu.seg .ds = x.cpu.seg .ds)
    (loaded : ∀ s ∈ [Seg.es, .fs, .gs], y.cpu.seg s = x.cpu.seg .ds) : Resumes x y where
  reg := fun r => by
    by_cases here : r = .esp
    · rw [here]
      exact esp
    · exact reg r here
  eip := eip
  eflags := eflags
  kept := by simp [cs, ss, ds]
  loaded := loaded

/-- `iret` to where `x` was interrupted, on the same stack from privilege level
0 and on the outer stack otherwise. -/
theorem iret_resumes {z x : X86} (kernelCode : z.cpl = 0) (eip : z.peek 0 = x.cpu.eip)
    (cs : (z.peek 1).truncate 16 = x.cpu.seg .cs) (eflags : z.peek 2 = x.cpu.eflags)
    (outer : x.cpl ≠ 0 → z.peek 3 = x.reg .esp ∧ (z.peek 4).truncate 16 = x.cpu.seg .ss)
    (inner : x.cpl = 0 → z.reg .esp + 12 = x.reg .esp ∧ z.cpu.seg .ss = x.cpu.seg .ss)
    (reg : ∀ r, r ≠ .esp → z.reg r = x.reg r) (ds : z.cpu.seg .ds = x.cpu.seg .ds)
    (loaded : ∀ s ∈ [Seg.es, .fs, .gs], z.cpu.seg s = x.cpu.seg .ds) : Resumes x z.iret := by
  let resumed := (((z.drop 3).jump (z.peek 0)).setSeg .cs ((z.peek 1).truncate 16)).setFlags
    (z.peek 2)
  have registers : ∀ r, r ≠ .esp → resumed.reg r = x.reg r := by
    intro r other
    have dropped : resumed.reg r = if r = .esp then z.reg .esp + 12 else z.reg r := rfl
    rw [dropped, if_neg other, reg r other]
  have csHere : resumed.cpu.seg .cs = x.cpu.seg .cs := cs
  have levels : z.cpl.toNat < ((z.peek 1).truncate 16 &&& 3 : Selector).toNat ↔ x.cpl ≠ 0 := by
    have level : ((z.peek 1).truncate 16 &&& 3 : Selector) = x.cpl := by
      rw [cs]
      rfl
    rw [kernelCode, level, ← BitVec.toNat_inj.ne]
    exact Nat.pos_iff_ne_zero
  have result : z.iret =
      if x.cpl ≠ 0 then (resumed.set .esp (z.peek 3)).setSeg .ss ((z.peek 4).truncate 16)
      else resumed := if_congr levels rfl rfl
  have data : ∀ s ∈ [Seg.es, .fs, .gs], resumed.cpu.seg s = x.cpu.seg .ds := by
    intro s member
    have kept : resumed.cpu.seg s = if s = .cs then (z.peek 1).truncate 16 else z.cpu.seg s := rfl
    have other : s ≠ .cs := fun same => by simp [same] at member
    rw [kept, if_neg other, loaded s member]
  rw [result]
  by_cases ring0 : x.cpl = 0
  · obtain ⟨esp, ss⟩ := inner ring0
    rw [if_neg (not_not_intro ring0)]
    exact .of_parts eip eflags registers esp csHere ss ds data
  · obtain ⟨esp, ss⟩ := outer ring0
    rw [if_pos ring0]
    refine .of_parts eip eflags (fun r other => (if_neg other).trans (registers r other)) esp
      csHere ss ds fun s member => ?_
    have other : s ≠ .ss := fun same => by simp [same] at member
    exact (if_neg other).trans (data s member)

namespace Stub

section

variable {stub : Stub} {code : Option Word} {tss : Tss} {entryAddr : Word} {x y r : X86}
  (fits : stub.CodeFits code) (arrived : y = stub.arrive tss code entryAddr x)
  (leaves : LeavesRegs y r)

include fits arrived leaves

theorem run_tail_resumes {vector : ℕ} (has : ofVector vector = some stub) :
    Resumes x (r.run stub.tail) := by
  have sees := arrive_sees has fits arrived
  rw [← leaves.regs] at sees
  obtain ⟨pointer, _⟩ := arrive_frame fits arrived
  have peek := peek_of_leavesRegs leaves pointer
  obtain ⟨z, run, unwound⟩ := stub.run_tail_unwound r
  have top : ∀ k, z.peek k = ld32 r.mem (y.peek 0 + BitVec.ofNat 32 (4 * (11 + k))) := by
    intro k
    rw [unwound.stack.peek, X86.peek_drop, ← peek]
    congr 1
    omega
  have selectors := stub.arrive_selectors tss code entryAddr x
  rw [← arrived] at selectors
  have kernelCode : z.cpl = 0 := by
    unfold X86.cpl
    rw [unwound.cs, leaves.cs, selectors.1]
    rfl
  rw [run]
  apply iret_resumes kernelCode
  · exact (top 0).trans sees.eip
  · rw [top 1]
    exact (congrArg _ sees.cs).trans (truncate_zeroExtend _)
  · exact (top 2).trans sees.eflags
  · intro outer
    obtain ⟨useresp, ss⟩ := sees.outer outer
    rw [top 3, top 4]
    exact ⟨useresp, (congrArg _ ss).trans (truncate_zeroExtend _)⟩
  · intro inner
    have same : x.innerStack tss = x := if_pos inner
    rw [unwound.stack.esp, unwound.ss, leaves.ss, selectors.2, same, X86.drop_reg, if_pos rfl,
      leaves.esp, arrived, arrive_esp_inner fits tss entryAddr inner]
    refine ⟨?_, rfl⟩
    bv_omega
  · intro q other
    cases q with
    | eax => exact (unwound.eax.trans (peek 8)).trans sees.eax
    | ecx => exact (unwound.ecx.trans (peek 7)).trans sees.ecx
    | edx => exact (unwound.edx.trans (peek 6)).trans sees.edx
    | ebx => exact (unwound.ebx.trans (peek 5)).trans sees.ebx
    | esp => exact absurd rfl other
    | ebp => exact (unwound.ebp.trans (peek 3)).trans sees.ebp
    | esi => exact (unwound.esi.trans (peek 2)).trans sees.esi
    | edi => exact (unwound.edi.trans (peek 1)).trans sees.edi
  · rw [unwound.data .ds (by simp), peek 0]
    exact sees.ds
  · intro s member
    rw [unwound.data s (List.mem_cons_of_mem _ member), peek 0]
    exact sees.ds

end

theorem roundTrip_resumes {vector : ℕ} {stub : Stub} (has : ofVector vector = some stub)
    {code : Option Word} (fits : stub.CodeFits code) {tss : Tss} {entryAddr : Word} {x : X86}
    {handler : X86 → X86}
    (leaves : LeavesRegs (stub.arrive tss code entryAddr x)
      (handler (stub.arrive tss code entryAddr x))) :
    Resumes x (stub.roundTrip tss code entryAddr handler x) := run_tail_resumes fits rfl leaves has

theorem interrupt_transparent {vector : ℕ} {stub : Stub} (has : ofVector vector = some stub)
    {code : Option Word} (fits : stub.CodeFits code) (tss : Tss) (entryAddr : Word) (x : X86)
    (handler : X86 → X86)
    (leaves : LeavesRegs (stub.arrive tss code entryAddr x)
      (handler (stub.arrive tss code entryAddr x))) :
    Sees vector code x (argument (stub.arrive tss code entryAddr x))
        (Registers.passed (stub.arrive tss code entryAddr x)) ∧
      Resumes x (stub.roundTrip tss code entryAddr handler x) :=
  ⟨arrive_sees has fits rfl, roundTrip_resumes has fits leaves⟩

/-- User code with the selectors that `enter_user_mode` loads. -/
def userCode : X86 where
  cpu := ⟨fun r => BitVec.ofNat 32 (0x1000 * r.ctorIdx), fun s => if s = .cs then 0x1B else 0x23,
    0x101000, 0x202, 0x300000⟩
  mem := fun _ => 0

/-- What a C function may do to the registers of its caller. -/
def clobbering (y : X86) : X86 := ((y.set .eax 0).set .ecx 1).set .edx 2

theorem interrupt_transparent_pageFault :
    Sees 14 (some 6) userCode
        (argument (arrive (.isrErrCode 14) ⟨0x10, 0x9000⟩ (some 6) 0x100200 userCode))
        (Registers.passed (arrive (.isrErrCode 14) ⟨0x10, 0x9000⟩ (some 6) 0x100200 userCode)) ∧
      Resumes userCode
        (roundTrip (.isrErrCode 14) ⟨0x10, 0x9000⟩ (some 6) 0x100200 clobbering userCode) :=
  have has : ofVector 14 = some (.isrErrCode 14) := rfl
  have fits : CodeFits (.isrErrCode 14) (some 6) := rfl
  interrupt_transparent has fits ⟨0x10, 0x9000⟩ 0x100200 userCode clobbering ⟨rfl, rfl, rfl, rfl⟩

/-- Kernel code that has a user selector in ES. -/
def mixedSegments : X86 where
  cpu := ⟨fun _ => 0x9000, fun s => if s = .cs then 0x08 else if s = .es then 0x23 else 0x10,
    0x101000, 0x202, 0x300000⟩
  mem := fun _ => 0

/-- The timer at such code. -/
def mixedAtTimer : X86 := arrive (.irq 32) ⟨0x10, 0x9000⟩ none 0x100200 mixedSegments

/-- `regs->esp` is not the interrupted ESP, and ES does not come back. -/
theorem mixedSegments_not_transparent :
    (Registers.passed mixedAtTimer).esp ≠ mixedSegments.reg .esp ∧
      (roundTrip (.irq 32) ⟨0x10, 0x9000⟩ none 0x100200 clobbering mixedSegments).cpu.seg .es ≠
        mixedSegments.cpu.seg .es := by
  have has : ofVector 32 = some (.irq 32) := rfl
  have fits : CodeFits (.irq 32) none := rfl
  have sees : Sees 32 none mixedSegments (argument mixedAtTimer) (Registers.passed mixedAtTimer) :=
    arrive_sees has fits rfl
  have pointer : argument mixedAtTimer = mixedAtTimer.reg .esp + 4 := (arrive_frame fits rfl).1
  have esp : mixedAtTimer.reg .esp = 0x9000 - 60 := arrive_esp_inner fits _ _ rfl
  have resumes : Resumes mixedSegments
      (roundTrip (.irq 32) ⟨0x10, 0x9000⟩ none 0x100200 clobbering mixedSegments) :=
    roundTrip_resumes has fits ⟨rfl, rfl, rfl, rfl⟩
  constructor
  · rw [sees.esp, pointer, esp]
    decide
  · rw [resumes.loaded .es (by simp)]
    decide

end Stub

end OrbitOs.Kernel
