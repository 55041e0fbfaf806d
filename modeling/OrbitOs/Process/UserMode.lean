import OrbitOs.Kernel.Interrupts
import OrbitOs.Process.Switching

/-!
# Ring 3 on a thread's stack

`enter_user_mode` of process/user.s leaves the user stack pointer where the
thread's own stack pointer was, and the task state segment makes the CPU push
at the top of the same block.
-/

set_option autoImplicit false

namespace OrbitOs.Process

open OrbitOs.Machine OrbitOs.Base OrbitOs.Memory OrbitOs.Kernel

/-! ## `enter_user_mode` -/

/-- The user's data segments, and ESP in EAX. -/
def userSegments : List Instr :=
  [.cli,
   .load 4 .esp .ebx,
   .movImm16 0x23 .eax, .movToSeg .eax .ds, .movToSeg .eax .es, .movToSeg .eax .fs,
   .movToSeg .eax .gs,
   .mov .esp .eax]

/-- SS, ESP, EFLAGS with the interrupt flag, CS and EIP. -/
def userFrame : List Instr :=
  [.pushImm 0x23,
   .push .eax,
   .pushf,
   .pop .eax,
   .orImm 0x200 .eax,
   .push .eax,
   .pushImm 0x1B,
   .push .ebx]

/-- process/user.s. -/
def enterUserMode : List Instr := userSegments ++ userFrame ++ [.iret]

theorem run_userSegments (x : X86) :
    (x.run userSegments).reg .esp = x.reg .esp ∧ (x.run userSegments).reg .eax = x.reg .esp ∧
      (x.run userSegments).reg .ebx = x.peek 1 ∧ (x.run userSegments).mem = x.mem ∧
      (x.run userSegments).cpl = x.cpl := by
  simp [userSegments, X86.exec, X86.set16, X86.peek, X86.cpl]

theorem run_userFrame (x : X86) :
    (x.run userFrame).peek 0 = x.reg .ebx ∧ (x.run userFrame).peek 1 = 0x1B ∧
      (x.run userFrame).peek 2 = x.cpu.eflags ||| 0x200 ∧
      (x.run userFrame).peek 3 = x.reg .eax ∧ (x.run userFrame).cpl = x.cpl := by
  simp [userFrame, X86.exec, X86.cpl, X86.orTo, X86.peek_push_zero, X86.peek_push_succ,
    X86.push_reg, X86.peek_set, X86.peek_drop]

theorem userFrame_agreeOff (x : X86) : AgreeOff (x.Below 5) x.mem (x.run userFrame).mem := by
  refine (x.run_agreeOff userFrame).mono fun a writes => ?_
  simp only [userFrame, X86.RunWrites, X86.Writes, or_false, false_or] at writes
  have reach : ∀ {m : X86} (j : ℕ), m.Below 1 a → j ≤ 4 →
      m.reg .esp = x.reg .esp - BitVec.ofNat 32 (4 * j) → x.Below 5 a :=
    fun j below le esp => (below.deeper esp).mono (by omega)
  rcases writes with ss | esp | flags | eflags | cs | eip
  · exact ss.mono (by omega)
  · exact reach 1 esp (by omega) rfl
  · refine reach 2 flags (by omega) ?_
    simp only [X86.exec, X86.push_esp]
    bv_omega
  · refine reach 2 eflags (by omega) ?_
    simp [X86.exec, X86.orTo]
    bv_omega
  · refine reach 3 cs (by omega) ?_
    simp [X86.exec, X86.orTo]
    bv_omega
  · refine reach 4 eip (by omega) ?_
    simp [X86.exec, X86.orTo]
    bv_omega

theorem iret_outer (x : X86) (ring0 : x.cpl = 0) (cs : x.peek 1 = 0x1B) :
    x.iret.reg .esp = x.peek 3 ∧ x.iret.cpu.eip = x.peek 0 ∧ x.iret.cpl = 3 := by
  unfold X86.iret
  rw [cs, ring0]
  simp [X86.cpl]

theorem run_enterUserMode_eq (x : X86) :
    x.run enterUserMode = ((x.run userSegments).run userFrame).iret := rfl

/-- The user function starts in Ring 3 with interrupts on and with the stack
pointer that `enter_user_mode` was called with. -/
theorem run_enterUserMode (x : X86) (ring0 : x.cpl = 0) :
    (x.run enterUserMode).reg .esp = x.reg .esp ∧ (x.run enterUserMode).cpu.eip = x.peek 1 ∧
      (x.run enterUserMode).cpl = 3 ∧ (x.run enterUserMode).cpu.interruptsEnabled = true := by
  obtain ⟨esp, eax, ebx, _, cpl⟩ := run_userSegments x
  obtain ⟨entry, cs, flags, stack, cpl'⟩ := run_userFrame (x.run userSegments)
  have inner : ((x.run userSegments).run userFrame).cpl = 0 := cpl'.trans (cpl.trans ring0)
  obtain ⟨espOut, eipOut, cplOut⟩ := iret_outer _ inner cs
  rw [run_enterUserMode_eq]
  refine ⟨espOut.trans (stack.trans eax), eipOut.trans (entry.trans ebx), cplOut, ?_⟩
  rw [Cpu.interruptsEnabled, X86.iret_eflags, flags, BitVec.getLsbD_or]
  exact Bool.or_true _

theorem enterUserMode_agreeOff (x : X86) :
    AgreeOff (x.Below 5) x.mem (x.run enterUserMode).mem := by
  obtain ⟨esp, _, _, mem, _⟩ := run_userSegments x
  have frame := userFrame_agreeOff (x.run userSegments)
  rw [run_enterUserMode_eq, X86.iret_mem]
  unfold X86.Below at frame ⊢
  rwa [esp, mem] at frame

/-! ## The user stack and `esp0` -/

/-- The live part of the user stack on the stack block `q`. -/
def Live (q : ℕ) (x : X86) (a : Word) : Prop :=
  (x.reg .esp).toNat ≤ a.toNat ∧ a.toNat < 4096 * (q + 1)

/-- The interrupt pushes nothing into the live part, and after the `iret` every
live byte is what it was, for every handler that leaves these bytes alone. -/
structure StackSurvives (q : ℕ) (stub : Stub) (tss : Tss) (code : Option Word)
    (entryAddr : Word) (x : X86) : Prop where
  apart : ∀ a, Live q x a → ¬ stub.Pushes tss code entryAddr x a
  kept : ∀ handler : X86 → X86, (∀ y a, Live q x a → (handler y).mem a = y.mem a) →
    ∀ a, Live q x a → (stub.roundTrip tss code entryAddr handler x).mem a = x.mem a

theorem StackSurvives.of_apart {q : ℕ} {stub : Stub} {tss : Tss} {code : Option Word}
    {entryAddr : Word} {x : X86} (apart : ∀ a, Live q x a → ¬ stub.Pushes tss code entryAddr x a) :
    StackSurvives q stub tss code entryAddr x where
  apart := apart
  kept := by
    intro handler leaves a live
    rw [Stub.roundTrip, Stub.run_tail_mem, leaves _ a live]
    exact stub.arrive_agreeOff tss code entryAddr x a (apart a live)

/-- From Ring 3 the CPU pushes right below `esp0`. -/
theorem pushes_top {q : ℕ} (stub : Stub) {tss : Tss}
    (esp0 : tss.esp0 = blockAddr q + 4096) (code : Option Word) (entryAddr : Word) {x : X86}
    (ring3 : x.cpl = 3) :
    stub.Pushes tss code entryAddr x (BitVec.ofNat 32 (4096 * q + 4095)) := by
  left
  have outer : x.cpl ≠ 0 := by
    rw [ring3]
    decide
  have five : 5 ≤ (x.interruptWords ++ code.toList).length := by
    rw [X86.interruptWords, if_neg outer, List.length_append]
    exact Nat.le_add_right 5 _
  have stack : (x.innerStack tss).reg .esp = blockAddr q + 4096 := by
    rw [X86.innerStack, if_neg outer]
    exact esp0
  have first : (x.innerStack tss).Below 5 (BitVec.ofNat 32 (4096 * q + 4095)) := by
    unfold X86.Below Within
    rw [stack]
    unfold blockAddr
    bv_omega
  exact first.mono five

theorem stackSurvives_iff {q : ℕ} (qBound : q < 2 ^ 20) (stub : Stub) {tss : Tss}
    (esp0 : tss.esp0 = blockAddr q + 4096) (code : Option Word) (entryAddr : Word) {x : X86}
    (ring3 : x.cpl = 3) :
    StackSurvives q stub tss code entryAddr x ↔ 4096 * (q + 1) ≤ (x.reg .esp).toNat := by
  constructor
  · intro survives
    by_contra inside
    have last : (BitVec.ofNat 32 (4096 * q + 4095) : Word).toNat = 4096 * q + 4095 := by
      rw [BitVec.toNat_ofNat]
      exact Nat.mod_eq_of_lt (by omega)
    have live : Live q x (BitVec.ofNat 32 (4096 * q + 4095)) := by
      unfold Live
      omega
    exact survives.apart _ live (pushes_top stub esp0 code entryAddr ring3)
  · intro above
    apply StackSurvives.of_apart
    intro a live
    unfold Live at live
    omega

/-- `enter_user_mode` called on the thread's own stack exposes it at once. -/
theorem not_survives_after_enterUserMode {q : ℕ} (qBound : q < 2 ^ 20) (stub : Stub) {tss : Tss}
    (esp0 : tss.esp0 = blockAddr q + 4096) (code : Option Word) (entryAddr : Word) {x : X86}
    (ring0 : x.cpl = 0) (inside : (x.reg .esp).toNat < 4096 * (q + 1)) :
    ¬ StackSurvives q stub tss code entryAddr (x.run enterUserMode) := by
  obtain ⟨esp, _, ring3, _⟩ := run_enterUserMode x ring0
  rw [stackSurvives_iff qBound stub esp0 code entryAddr ring3, esp]
  omega

theorem user_stack_survives_iff {bootStack threadExit : Word} {s : System}
    (reached : Reach (Start bootStack) (Step bootStack threadExit) s) {t : Thread} {q : ℕ}
    (running : s.threads[s.running]? = some t) (made : t.stackBlock = some q)
    (ring3 : s.kernel.machine.cpl = 3) (stub : Stub) (code : Option Word) (entryAddr : Word) :
    StackSurvives q stub s.kernel.tss code entryAddr s.kernel.machine ↔
      4096 * (q + 1) ≤ (s.kernel.machine.reg .esp).toNat := by
  have inv := Inv.run reached
  have bound := inv.stackBound (List.mem_of_getElem? running) q made
  have esp0 : s.kernel.tss.esp0 = blockAddr q + 4096 := by
    rw [inv.tss t q running made]
  exact stackSurvives_iff bound stub esp0 code entryAddr ring3

/-! ## The first instruction of a user function -/

/-- The call `enter_user_mode(func)` that returns to `ret`. -/
theorem call_enterUserMode {x : X86} (ring0 : x.cpl = 0) (func ret : Word) :
    ∃ z : X86, z.cpl = 0 ∧ (z.run enterUserMode).cpl = 3 ∧
      (z.run enterUserMode).reg .esp = x.reg .esp - BitVec.ofNat 32 (4 * 2) ∧
      AgreeOff (x.Below 7) x.mem (z.run enterUserMode).mem := by
  have esp := x.pushAll_esp [func, ret]
  have pushed := x.pushAll_agreeOff [func, ret]
  have kept : (x.pushAll [func, ret]).cpl = 0 := ring0
  rw [show [func, ret].length = 2 from rfl] at esp pushed
  generalize x.pushAll [func, ret] = called at *
  obtain ⟨userEsp, _, ring3, _⟩ := run_enterUserMode called kept
  refine ⟨called, kept, ring3, userEsp.trans esp, ?_⟩
  have two : AgreeOff (x.Below 7) x.mem called.mem := pushed.mono fun a below =>
    below.mono (by omega)
  refine two.trans ((enterUserMode_agreeOff called).mono fun a below => ?_)
  exact (below.deeper esp).mono (by omega)

/-- A created thread with the stack block `q` is about to run its entry point. -/
structure AtEntry (s : System) (q : ℕ) : Prop where
  reached : Reach (Start 0x200000) (Step 0x200000 0x101000) s
  running : ∃ p, s.threads[s.running]? = some ⟨p, some q⟩
  ring0 : s.kernel.machine.cpl = 0
  esp : s.kernel.machine.reg .esp = wordAddr q 1023
  exit : word s.kernel.mem q 1023 = 0x101000

theorem atEntry_exists : ∃ s q, AtEntry s q := by
  obtain ⟨s, two⟩ := twoThreads_exists
  obtain ⟨b, p, q, threads⟩ := two.threads
  have inv := Inv.run two.reached
  have atNext : s.threads[s.next]? = some ⟨p, some q⟩ := by
    rw [two.next_eq, threads]
    rfl
  obtain ⟨q', same, context, exit⟩ := inv.fresh_resumed 0x103000 two.switches two.room atNext
    (two.next_eq ▸ two.status)
  cases same
  have spec := inv.switched_spec 0x103000 two.switches two.room
  have ring0 : (s.kernel.processSchedule 0x103000).cpu.seg .cs &&& 3 = 0 := by
    rw [spec.seg, two.cpu]
    rfl
  exact ⟨s.switched 0x103000, q, .step two.reached (.switch 0x103000 two.switches two.room),
    ⟨p, atNext⟩, ring0, congrArg Context.esp context, exit⟩

/-- A created thread with the stack block `q` has just entered Ring 3. -/
structure AtUserEntry (s : System) (q : ℕ) : Prop where
  reached : Reach (Start 0x200000) (Step 0x200000 0x101000) s
  running : ∃ p, s.threads[s.running]? = some ⟨p, some q⟩
  entered : ∃ x : X86, x.cpl = 0 ∧ s.kernel.machine = x.run enterUserMode
  ring3 : s.kernel.machine.cpl = 3
  esp : s.kernel.machine.reg .esp = wordAddr q 1021
  exit : word s.kernel.mem q 1023 = 0x101000

theorem below_seven {x : X86} {q : ℕ} (esp : x.reg .esp = wordAddr q 1023) {a : Word}
    (below : x.Below 7 a) : Within (wordAddr q 1016) (4 * 7) a := by
  unfold X86.Below at below
  have start : wordAddr q 1023 - BitVec.ofNat 32 (4 * 7) = wordAddr q 1016 := by
    unfold wordAddr
    bv_omega
  rwa [esp, start] at below

theorem atUserEntry_exists : ∃ s q, AtUserEntry s q := by
  obtain ⟨s, q, entry⟩ := atEntry_exists
  obtain ⟨p, running⟩ := entry.running
  have inv := Inv.run entry.reached
  have bound := inv.stackBound (List.mem_of_getElem? running) q rfl
  -- the entry point calls `enter_user_mode(0x104000)`
  obtain ⟨z, ring0, ring3, esp, agree⟩ := call_enterUserMode entry.ring0 0x104000 0x102005
  have own : AgreeOff (s.Private 0x200000) s.kernel.mem (z.run enterUserMode).mem := by
    refine agree.mono fun a below => inv.ownStack_private ⟨⟨p, some q⟩, running, ?_⟩
    exact inBlock_of_within_words bound (by omega) (below_seven entry.esp below)
  have entered : ∃ x : X86, x.cpl = 0 ∧ z.run enterUserMode = x.run enterUserMode :=
    ⟨z, ring0, rfl⟩
  generalize z.run enterUserMode = y at *
  have down : wordAddr q 1023 - BitVec.ofNat 32 (4 * 2) = wordAddr q 1021 := by
    unfold wordAddr
    bv_omega
  have exit : word y.mem q 1023 = 0x101000 := by
    rw [← entry.exit]
    refine agree.ld32_eq fun a inWord below => ?_
    have lower := below_seven entry.esp below
    have start := toNat_wordAddr bound (by omega : 1016 < 1024)
    rw [within_iff_of_noWrap (by rw [start]; omega), start] at lower
    rw [within_wordAddr bound (by omega)] at inWord
    omega
  rw [entry.esp, down] at esp
  exact ⟨{ s with kernel := { s.kernel.withMem y.mem with cpu := y.cpu } }, q,
    .step entry.reached (.code y.cpu y.mem own), ⟨p, running⟩, entered, ring3, esp, exit⟩

/-- The timer interrupt at the first user instruction overwrites the word that
holds the return address into `thread_exit`. -/
theorem user_stack_overwritten :
    ∃ (s : System) (q : ℕ), Reach (Start 0x200000) (Step 0x200000 0x101000) s ∧
      (∃ p, s.threads[s.running]? = some ⟨p, some q⟩) ∧ s.kernel.machine.cpl = 3 ∧
      (∃ x : X86, x.cpl = 0 ∧ s.kernel.machine = x.run enterUserMode) ∧
      Live q s.kernel.machine (wordAddr q 1023) ∧ word s.kernel.mem q 1023 = 0x101000 ∧
      ¬ StackSurvives q (.irq 32) s.kernel.tss none 0x105000 s.kernel.machine := by
  obtain ⟨s, q, point⟩ := atUserEntry_exists
  obtain ⟨p, running⟩ := point.running
  obtain ⟨x, ring0, entered⟩ := point.entered
  have inv := Inv.run point.reached
  have bound := inv.stackBound (List.mem_of_getElem? running) q rfl
  have esp0 : s.kernel.tss.esp0 = blockAddr q + 4096 := by
    rw [inv.tss _ q running rfl]
  have low := toNat_wordAddr bound (by omega : 1021 < 1024)
  have top := toNat_wordAddr bound (by omega : 1023 < 1024)
  refine ⟨s, q, point.reached, point.running, point.ring3, point.entered, ?_, point.exit, ?_⟩
  · unfold Live
    rw [point.esp, low, top]
    omega
  · have esp : x.reg .esp = wordAddr q 1021 := by
      rw [← (run_enterUserMode x ring0).1, ← entered]
      exact point.esp
    rw [entered]
    refine not_survives_after_enterUserMode bound (.irq 32) esp0 none 0x105000 ring0 ?_
    rw [esp, low]
    omega

theorem user_stack_survives_iff_atUserEntry :
    ∃ (s : System) (q : ℕ), s.kernel.machine.reg .esp = wordAddr q 1021 ∧
      (StackSurvives q (.irq 32) s.kernel.tss none 0x105000 s.kernel.machine ↔
        4096 * (q + 1) ≤ (s.kernel.machine.reg .esp).toNat) := by
  obtain ⟨s, q, point⟩ := atUserEntry_exists
  obtain ⟨p, running⟩ := point.running
  exact ⟨s, q, point.esp,
    user_stack_survives_iff point.reached running rfl point.ring3 (.irq 32) none 0x105000⟩

end OrbitOs.Process
