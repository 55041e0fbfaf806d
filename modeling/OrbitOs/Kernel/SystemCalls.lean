import OrbitOs.Kernel.Dispatch
import OrbitOs.Kernel.StubReturn
import OrbitOs.Kernel.Syscall

/-!
# System calls, from INT to IRET

`int $0x80` passes its gate at every privilege level, the stub builds `*regs`,
`syscall_handler` answers in `regs->eax`, and the stub loads what `*regs` holds by then.
-/

set_option autoImplicit false

namespace OrbitOs.Kernel

open OrbitOs.Machine OrbitOs.Base OrbitOs.Drivers

/-! ## The call -/

def systemCallStub : Stub := .isrNoErrCode 128

/-- At the call of `isr_handler`. -/
def systemCallArrive (stubs : StubAddresses) (tss : Tss) (x : X86) : X86 :=
  systemCallStub.arrive tss none (stubs.ofVector 128) x

/-- `r` is a machine on which the C function that was called on `y` has returned to the
stub, with `regs` in its structure. -/
structure Handled (y : X86) (regs : Registers) (r : X86) : Prop where
  leaves : Registers.load r.mem (argument y) = regs
  esp : r.reg .esp = y.reg .esp
  cs : r.cpu.seg .cs = y.cpu.seg .cs
  ss : r.cpu.seg .ss = y.cpu.seg .ss

/-- What `syscall_handler` puts into `regs->eax`. -/
def callResult (eax ebx edx : Word) : Word :=
  if eax = sysWriteNumber then if ebx = 1 ∨ ebx = 2 then edx else -1 else eax

theorem syscallHandler_result {memory : Terminal → Mem} {regs regs' : Registers} {t t' : Terminal}
    (value : (syscallHandler memory regs t).val = some (regs', t')) :
    regs' = { regs with eax := callResult regs.eax regs.ebx regs.edx } := by
  unfold callResult
  by_cases number : regs.eax = sysWriteNumber
  · rw [if_pos number]
    by_cases fd : regs.ebx = 1 ∨ regs.ebx = 2
    · rw [(syscallHandler_write memory t number fd).2] at value
      obtain ⟨_, _, same⟩ := Option.map_eq_some_iff.mp value
      cases same
      rw [if_pos fd]
    · rw [syscallHandler_descriptor memory t number fd] at value
      cases value
      rw [if_neg fd]
  · rw [syscallHandler_unknown memory t number] at value
    cases value
    rw [if_neg number]

/-- A text with its terminator. -/
structure TextAt (m : Mem) (data : Word) (text : List Byte) : Prop where
  terminated : Terminated m data text.length
  bytes : ∀ k (bound : k < text.length), m (data + BitVec.ofNat 32 k) = text[k]

/-- No push of the interrupt and no output of the terminal reaches the `n` bytes at `data`. -/
def Undisturbed (memory : Terminal → Mem) (tss : Tss) (x y : X86) (data : Word) (n : ℕ) : Prop :=
  ∀ k < n, ¬ (x.innerStack tss).Below 17 (data + BitVec.ofNat 32 k) ∧
    ∀ u, memory u (data + BitVec.ofNat 32 k) = y.mem (data + BitVec.ofNat 32 k)

/-- The text of a write has a terminator and stays undisturbed. -/
def TextGiven (memory : Terminal → Mem) (tss : Tss) (x y : X86) : Prop :=
  x.reg .eax = sysWriteNumber → x.reg .ebx = 1 ∨ x.reg .ebx = 2 →
    ∃ text, TextAt x.mem (x.reg .ecx) text ∧
      Undisturbed memory tss x y (x.reg .ecx) (text.length + 1)

/-- What a system call prints. -/
structure CallPrints (memory : Terminal → Mem) (tss : Tss) (x y : X86) (t t' : Terminal) :
    Prop where
  text : x.reg .eax = sysWriteNumber → x.reg .ebx = 1 ∨ x.reg .ebx = 2 → ∀ text,
    TextAt x.mem (x.reg .ecx) text → Undisturbed memory tss x y (x.reg .ecx) (text.length + 1) →
      t' = t.write text
  nothing : x.reg .eax = sysWriteNumber → ¬ (x.reg .ebx = 1 ∨ x.reg .ebx = 2) → t' = t
  unknown : x.reg .eax ≠ sysWriteNumber → t' = t.write (charsOf "Unknown syscall: ")

theorem ofVector_systemCall : Stub.ofVector 128 = some systemCallStub := rfl

theorem systemCall_fits : systemCallStub.CodeFits none := rfl

theorem pushedWords_le (x : X86) : systemCallStub.pushedWords none x ≤ 17 := by
  have five : x.interruptWords.length ≤ 5 := by
    unfold X86.interruptWords
    split <;> simp
  have words : systemCallStub.entryWords = 2 := rfl
  rw [Stub.pushedWords, words, Option.toList_none, List.append_nil]
  omega

section Call

variable {stubs : StubAddresses} {tss : Tss} {x y r : X86} {memory : Terminal → Mem}
  {t t' : Terminal} {regs : Registers} (arrived : y = systemCallArrive stubs tss x)

include arrived

theorem systemCall_agreeOff : AgreeOff ((x.innerStack tss).Below 17) x.mem y.mem := by
  have grew := systemCallStub.arrive_grew tss none (stubs.ofVector 128) x
  rw [arrived, ← Stub.innerStack_mem tss x]
  exact grew.mem.mono fun a below => below.mono (pushedWords_le x)

theorem systemCall_stores {touched : Word → Prop} (stores : AgreeOff touched y.mem r.mem) :
    AgreeOff (fun a => (x.innerStack tss).Below 17 a ∨ touched a) x.mem
      (r.run systemCallStub.tail).mem := by
  rw [Stub.run_tail_mem]
  exact ((systemCall_agreeOff arrived).mono fun _ => Or.inl).trans (stores.mono fun _ => Or.inr)

/-- The handler finds the text as the caller gave it. -/
theorem systemCall_reads {data : Word} {n : ℕ} (undisturbed : Undisturbed memory tss x y data n)
    {k : ℕ} (bound : k < n) (u : Terminal) :
    memory u (data + BitVec.ofNat 32 k) = x.mem (data + BitVec.ofNat 32 k) := by
  obtain ⟨above, still⟩ := undisturbed k bound
  rw [still u, systemCall_agreeOff arrived _ above]

theorem systemCall_terminated {text : List Byte} (textAt : TextAt x.mem (x.reg .ecx) text)
    (undisturbed : Undisturbed memory tss x y (x.reg .ecx) (text.length + 1)) :
    Terminated (memory t) (Registers.passed y).ecx text.length := by
  have sees := Stub.arrive_sees ofVector_systemCall systemCall_fits arrived
  rw [sees.ecx]
  refine ⟨textAt.terminated.bound, fun k bound => ?_, ?_⟩
  · rw [systemCall_reads arrived undisturbed (by omega)]
    exact textAt.terminated.nonzero k bound
  · rw [systemCall_reads arrived undisturbed (Nat.lt_succ_self _)]
    exact textAt.terminated.zero

/-- `syscall_handler` returns. -/
theorem systemCall_ends (given : TextGiven memory tss x y) :
    ∃ answer, (syscallHandler memory (Registers.passed y) t).val = some answer := by
  have sees := Stub.arrive_sees ofVector_systemCall systemCall_fits arrived
  by_cases number : (Registers.passed y).eax = sysWriteNumber
  · by_cases fd : (Registers.passed y).ebx = 1 ∨ (Registers.passed y).ebx = 2
    · obtain ⟨text, textAt, undisturbed⟩ := given (sees.eax ▸ number) (sees.ebx ▸ fd)
      obtain ⟨sent, -, -, value, -⟩ := syscallHandler_terminated (t := t) number fd
        (systemCall_terminated arrived textAt undisturbed)
      exact ⟨_, value⟩
    · rw [syscallHandler_descriptor memory t number fd]
      exact ⟨_, rfl⟩
  · rw [syscallHandler_unknown memory t number]
    exact ⟨_, rfl⟩

variable (value : (syscallHandler memory (Registers.passed y) t).val = some (regs, t'))

include value

theorem Handled.resumes (handled : Handled y regs r) :
    Resumes (x.set .eax (callResult (x.reg .eax) (x.reg .ebx) (x.reg .edx)))
      (r.run systemCallStub.tail) := by
  have sees := Stub.arrive_sees ofVector_systemCall systemCall_fits arrived
  obtain ⟨pointer, -⟩ := Stub.arrive_frame systemCall_fits arrived
  obtain ⟨cs, ss⟩ := systemCallStub.arrive_selectors tss none (stubs.ofVector 128) x
  have kernelCode : r.cpl = 0 := by
    rw [X86.cpl, handled.cs, arrived, systemCallArrive, cs]
    rfl
  have here : r.reg .esp + 4 = argument y := by
    rw [handled.esp]
    exact pointer.symm
  apply systemCallStub.resumes_of_sees kernelCode
  · rw [here, handled.leaves, syscallHandler_result value]
    exact { sees with eax := by rw [sees.eax, sees.ebx, sees.edx]; rfl }
  · intro inner
    have ring0 : x.cpl = 0 := inner
    have below := Stub.arrive_esp_inner systemCall_fits tss (stubs.ofVector 128) ring0
    have same : x.innerStack tss = x := if_pos ring0
    rw [handled.esp, handled.ss, arrived, systemCallArrive, ss, same, below]
    exact ⟨BitVec.sub_add_cancel _ _, rfl⟩

theorem systemCall_prints : CallPrints memory tss x y t t' := by
  have sees := Stub.arrive_sees ofVector_systemCall systemCall_fits arrived
  refine ⟨?_, ?_, ?_⟩
  · intro number fd text textAt undisturbed
    rw [← sees.eax] at number
    rw [← sees.ebx] at fd
    obtain ⟨sent, length, reads, sentValue, -⟩ := syscallHandler_terminated (t := t) number fd
      (systemCall_terminated arrived textAt undisturbed)
    have same : sent = text := by
      refine List.ext_getElem length fun k inSent inText => ?_
      rw [reads k inSent, Nat.zero_add, sees.ecx,
        systemCall_reads arrived undisturbed (by omega), textAt.bytes k inText]
    have printed : t' = t.write sent :=
      congrArg Prod.snd (Option.some.inj (value.symm.trans sentValue))
    rw [printed, same]
  · intro number fd
    rw [← sees.eax] at number
    rw [← sees.ebx] at fd
    rw [syscallHandler_descriptor memory t number fd] at value
    exact (congrArg Prod.snd (Option.some.inj value)).symm
  · intro number
    rw [← sees.eax] at number
    rw [syscallHandler_unknown memory t number] at value
    exact (congrArg Prod.snd (Option.some.inj value)).symm

end Call

theorem systemCall_reaction {regs : Registers} (number : regs.intNo = BitVec.ofNat 32 128) :
    systemCallStub.cFunction bootHandlers regs = pure (.calls .syscallHandler) :=
  isrHandler_reaction (v := 128) (by decide) number

/-- A system call of code at any privilege level, from `int` to `iret`; the EIP of `x` is
behind the `int`.  `regs` and `t'` are what `syscall_handler` leaves in the structure and
on the terminal. -/
structure Returns (stubs : StubAddresses) (tss : Tss) (x : X86) (memory : Terminal → Mem)
    (t : Terminal) (regs : Registers) (t' : Terminal) : Prop where
  gate : interruptTarget (bootIdt stubs) (.instruction (x.cpl.truncate 2)) 128 =
    some (0x08, stubs.ofVector 128)
  dispatch : systemCallStub.cFunction bootHandlers
    (Registers.passed (systemCallArrive stubs tss x)) = pure (.calls .syscallHandler)
  value : (syscallHandler memory (Registers.passed (systemCallArrive stubs tss x)) t).val =
    some (regs, t')
  /-- The caller goes on with the result in EAX. -/
  resumes : ∀ r, Handled (systemCallArrive stubs tss x) regs r →
    Resumes (x.set .eax (callResult (x.reg .eax) (x.reg .ebx) (x.reg .edx)))
      (r.run systemCallStub.tail)
  prints : CallPrints memory tss x (systemCallArrive stubs tss x) t t'
  /-- Its memory is as before, but for the words below the stack that the CPU takes and for
  what the C function stores. -/
  stores : ∀ (r : X86) (touched : Word → Prop),
    AgreeOff touched (systemCallArrive stubs tss x).mem r.mem →
    AgreeOff (fun a => (x.innerStack tss).Below 17 a ∨ touched a) x.mem
      (r.run systemCallStub.tail).mem

theorem system_call_returns (stubs : StubAddresses) (tss : Tss) (x : X86)
    {memory : Terminal → Mem} (t : Terminal)
    (given : TextGiven memory tss x (systemCallArrive stubs tss x)) :
    ∃ regs t', Returns stubs tss x memory t regs t' := by
  obtain ⟨⟨regs, t'⟩, value⟩ := systemCall_ends rfl given
  exact ⟨regs, t', {
    gate := (interruptTarget_bootIdt stubs _ 128 _).mpr ⟨rfl, .inr rfl, rfl⟩
    dispatch := systemCall_reaction
      (Stub.arrive_sees ofVector_systemCall systemCall_fits (y := systemCallArrive stubs tss x)
        rfl).intNo
    value := value
    resumes := fun r handled => handled.resumes rfl value
    prints := systemCall_prints rfl value
    stores := fun r _ => systemCall_stores rfl }⟩

/-! ### A call that prints a letter -/

theorem Registers.load_store_eax (m : Mem) (regs v : Word) :
    Registers.load (st32 m (regs + BitVec.ofNat 32 (4 * 8)) v) regs =
      { Registers.load m regs with eax := v } := by
  have other : ∀ k < 16, k ≠ 8 → ld32 (st32 m (regs + BitVec.ofNat 32 (4 * 8)) v)
      (regs + BitVec.ofNat 32 (4 * k)) = ld32 m (regs + BitVec.ofNat 32 (4 * k)) := by
    intro k bound other
    apply ld32_st32_apart
    apply apart_words
    · bv_omega
    · bv_omega
  unfold Registers.load
  dsimp only
  rw [ld32_st32_self]
  simp only [other, Nat.reduceLT, ne_eq, Nat.reduceEqDiff, not_false_eq_true]

/-- The handler stored its answer and nothing else. -/
theorem Handled.of_store (y : X86) (v : Word) : Handled y { Registers.passed y with eax := v }
    (y.store (argument y + BitVec.ofNat 32 (4 * 8)) v) where
  leaves := by rw [X86.store_mem, Registers.load_store_eax, Registers.passed]
  esp := rfl
  cs := rfl
  ss := rfl

/-- "A" at 0x300000, for the standard output. -/
def letterCaller : X86 where
  cpu := { Stub.userCode.cpu with reg := fun
    | .eax => 4
    | .ebx => 1
    | .ecx => 0x300000
    | .edx => 1
    | _ => 0x9000 }
  mem := fun a => if a = 0x300000 then 0x41 else 0

theorem letter_textAt : TextAt letterCaller.mem 0x300000 [0x41] := by
  refine ⟨⟨by decide, ?_, by decide⟩, ?_⟩
  · intro k bound
    obtain rfl : k = 0 := Nat.lt_one_iff.mp bound
    decide
  · intro k bound
    obtain rfl : k = 0 := Nat.lt_one_iff.mp bound
    rfl

theorem letter_above {k : ℕ} (bound : k < 2) :
    ¬ (letterCaller.innerStack ⟨0x10, 0x9000⟩).Below 17 (0x300000 + BitVec.ofNat 32 k) := by
  have outer : ¬ letterCaller.cpl = 0 := by decide
  have stack : (letterCaller.innerStack ⟨0x10, 0x9000⟩).reg .esp = 0x9000 := by
    rw [X86.innerStack, if_neg outer]
    rfl
  rw [X86.Below, stack]
  unfold Within
  bv_omega

def spacedStubs : StubAddresses := ⟨fun n => BitVec.ofNat 32 (0x100000 + 8 * n), fun _ => 0⟩

theorem letter_undisturbed {y : X86} : Undisturbed (fun _ => y.mem) ⟨0x10, 0x9000⟩
    letterCaller y (letterCaller.reg .ecx) 2 := fun _ bound => ⟨letter_above bound, fun _ => rfl⟩

theorem system_call_returns_letter :
    let y := systemCallArrive spacedStubs ⟨0x10, 0x9000⟩ letterCaller
    ∃ regs r, Handled y regs r ∧ Returns spacedStubs ⟨0x10, 0x9000⟩ letterCaller
      (fun _ => y.mem) blankScreen regs (blankScreen.write [0x41]) := by
  intro y
  have given : TextGiven (fun _ => y.mem) ⟨0x10, 0x9000⟩ letterCaller y := fun _ _ =>
    ⟨[0x41], letter_textAt, letter_undisturbed⟩
  obtain ⟨regs, t', returns⟩ :=
    system_call_returns spacedStubs ⟨0x10, 0x9000⟩ letterCaller blankScreen given
  have answered := syscallHandler_result returns.value
  have printed := returns.prints.text rfl (.inl rfl) [0x41] letter_textAt letter_undisturbed
  exact ⟨_, _, answered ▸ Handled.of_store y _, printed ▸ returns⟩

end OrbitOs.Kernel
