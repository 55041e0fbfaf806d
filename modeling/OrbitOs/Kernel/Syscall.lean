import OrbitOs.Drivers.Terminal
import OrbitOs.Kernel.CString
import OrbitOs.Kernel.Transparency

/-!
# The system call handler of kernel/syscall.c

The string of a write is delimited by its terminator.  The cells and the
variables of the terminal lie in memory too, so what a byte of memory holds may
depend on what was printed before it is read.
-/

set_option autoImplicit false

namespace OrbitOs.Kernel

open OrbitOs.Machine OrbitOs.Base OrbitOs.Drivers

/-- `SYS_WRITE` -/
def sysWriteNumber : Word := 4

/-- `while (data[size]) size++;`; a scan of the whole address space that meets
no terminator starts over. -/
def sizeLoop (m : Mem) (data : Word) : ℕ → ℕ → Traced Word (Option ℕ)
  | 0, _ => pure none
  | left + 1, size => do
    let c ← Traced.access (data + BitVec.ofNat 32 size) (m (data + BitVec.ofNat 32 size))
    if c ≠ 0 then sizeLoop m data left (size + 1) else return some size

/-- The loop of `terminal_write`, from index `i` on. -/
def writeLoop (memory : Terminal → Mem) (data : Word) : ℕ → ℕ → Terminal → Traced Word Terminal
  | 0, _, t => pure t
  | left + 1, i, t => do
    let c ← Traced.access (data + BitVec.ofNat 32 i) (memory t (data + BitVec.ofNat 32 i))
    writeLoop memory data left (i + 1) (t.putchar c)

/-- `terminal_writestring`; `none` means that the call does not end. -/
def terminalWritestring (memory : Terminal → Mem) (data : Word) (t : Terminal) :
    Traced Word (Option Terminal) := do
  match ← sizeLoop (memory t) data (2 ^ 32) 0 with
  | none => return none
  | some size => return some (← writeLoop memory data size 0 t)

def sysWrite (memory : Terminal → Mem) (regs : Registers) (t : Terminal) :
    Traced Word (Option (Registers × Terminal)) := do
  let fd := regs.ebx
  let str := regs.ecx
  if fd = 1 ∨ fd = 2 then
    match ← terminalWritestring memory str t with
    | none => return none
    | some t' => return some ({ regs with eax := regs.edx }, t')
  else return some ({ regs with eax := -1 }, t)

def syscallHandler (memory : Terminal → Mem) (regs : Registers) (t : Terminal) :
    Traced Word (Option (Registers × Terminal)) :=
  if regs.eax = sysWriteNumber then sysWrite memory regs t
  else pure (some (regs, t.write (charsOf "Unknown syscall: ")))

/-- The bytes from `data` on begin with `n` bytes that are not zero and a zero. -/
structure Terminated (m : Mem) (data : Word) (n : ℕ) : Prop where
  bound : n < 2 ^ 32
  nonzero : ∀ i < n, m (data + BitVec.ofNat 32 i) ≠ 0
  zero : m (data + BitVec.ofNat 32 n) = 0

/-- The first byte of a stretch, and the rest. -/
theorem exists_place_iff {data p : Word} {first last : ℕ} (nonempty : first < last) :
    (∃ k, first ≤ k ∧ k < last ∧ p = data + BitVec.ofNat 32 k) ↔
      p = data + BitVec.ofNat 32 first ∨
        ∃ k, first + 1 ≤ k ∧ k < last ∧ p = data + BitVec.ofNat 32 k := by
  constructor
  · intro ⟨k, lower, upper, place⟩
    rcases Nat.eq_or_lt_of_le lower with same | later
    · left
      rw [place, same]
    · exact .inr ⟨k, later, upper, place⟩
  · rintro (here | ⟨k, lower, upper, place⟩)
    · exact ⟨first, Nat.le_refl _, nonempty, here⟩
    · exact ⟨k, by omega, upper, place⟩

theorem not_exists_place {data p : Word} (i : ℕ) :
    ¬ ∃ k, i ≤ k ∧ k < i ∧ p = data + BitVec.ofNat 32 k := fun ⟨_, lower, upper, _⟩ =>
  absurd upper (not_lt.mpr lower)

theorem sizeLoop_terminated {m : Mem} {data : Word} {n : ℕ} (terminated : Terminated m data n)
    (left size : ℕ) (before : size ≤ n) (enough : n < size + left) :
    (sizeLoop m data left size).val = some n ∧
      ∀ p, p ∈ (sizeLoop m data left size).places ↔
        ∃ k, size ≤ k ∧ k < n + 1 ∧ p = data + BitVec.ofNat 32 k := by
  induction left generalizing size with
  | zero => omega
  | succ left ih =>
      rw [sizeLoop]
      simp only [exists_place_iff (Nat.lt_succ_of_le before)]
      by_cases here : size = n
      · subst here
        have stop := terminated.zero
        simp only [Traced.bind_val, Traced.bind_places, Traced.access_val, Traced.access_places,
          stop, ne_eq, not_true, if_false, Traced.pure_val, Traced.pure_places, List.append_nil,
          List.mem_singleton, true_and]
        exact fun p => (or_iff_left (not_exists_place _)).symm
      · have more := terminated.nonzero size (by omega)
        obtain ⟨value, places⟩ := ih (size + 1) (by omega) (by omega)
        simp only [Traced.bind_val, Traced.bind_places, Traced.access_val, Traced.access_places,
          more, ne_eq, not_false_eq_true, if_true, List.singleton_append, List.mem_cons, value,
          places, implies_true, and_self]

theorem sizeLoop_unterminated {m : Mem} {data : Word}
    (nonzero : ∀ i, m (data + BitVec.ofNat 32 i) ≠ 0) (left size : ℕ) :
    (sizeLoop m data left size).val = none := by
  induction left generalizing size with
  | zero => rfl
  | succ left ih =>
      rw [sizeLoop]
      simp only [Traced.bind_val, Traced.access_val, nonzero size, ne_eq, not_false_eq_true,
        if_true]
      exact ih (size + 1)

/-- `sent` are bytes of memory from index `i` on, each as it is when its turn
comes. -/
def Reads (memory : Terminal → Mem) (data : Word) (i : ℕ) (t : Terminal) (sent : List Byte) :
    Prop :=
  ∀ k (bound : k < sent.length),
    sent[k] = memory (t.write (sent.take k)) (data + BitVec.ofNat 32 (i + k))

theorem writeLoop_spec (memory : Terminal → Mem) (data : Word) (left i : ℕ) (t : Terminal) :
    ∃ sent, sent.length = left ∧ Reads memory data i t sent ∧
      (writeLoop memory data left i t).val = t.write sent ∧
      ∀ p, p ∈ (writeLoop memory data left i t).places ↔
        ∃ k, i ≤ k ∧ k < i + left ∧ p = data + BitVec.ofNat 32 k := by
  induction left generalizing i t with
  | zero =>
      refine ⟨[], rfl, ?_, rfl, ?_⟩
      · intro k bound
        cases bound
      · exact fun p => iff_of_false List.not_mem_nil (not_exists_place i)
  | succ left ih =>
      obtain ⟨rest, length, reads, value, places⟩ :=
        ih (i + 1) (t.putchar (memory t (data + BitVec.ofNat 32 i)))
      refine ⟨memory t (data + BitVec.ofNat 32 i) :: rest, congrArg Nat.succ length, ?_, value, ?_⟩
      · intro k bound
        cases k with
        | zero => rfl
        | succ k =>
            have later := reads k (Nat.lt_of_succ_lt_succ bound)
            rw [List.getElem_cons_succ, later, Nat.add_right_comm i 1 k]
            rfl
      · intro p
        have last : i + 1 + left = i + (left + 1) := by omega
        rw [writeLoop, exists_place_iff (by omega), ← last]
        simp only [Traced.bind_places, Traced.access_places, Traced.access_val,
          List.singleton_append, List.mem_cons, places]

theorem terminalWritestring_terminated {memory : Terminal → Mem} {data : Word} {t : Terminal}
    {n : ℕ} (terminated : Terminated (memory t) data n) :
    ∃ sent, sent.length = n ∧ Reads memory data 0 t sent ∧
      (terminalWritestring memory data t).val = some (t.write sent) ∧
      ∀ p, p ∈ (terminalWritestring memory data t).places ↔
        ∃ k ≤ n, p = data + BitVec.ofNat 32 k := by
  have bound := terminated.bound
  obtain ⟨size, scanned⟩ := sizeLoop_terminated terminated (2 ^ 32) 0 (Nat.zero_le _) (by omega)
  obtain ⟨sent, length, reads, value, places⟩ := writeLoop_spec memory data n 0 t
  refine ⟨sent, length, reads, ?_, ?_⟩
  · unfold terminalWritestring
    simp only [Traced.bind_val, size, Traced.pure_val, value]
  · intro p
    unfold terminalWritestring
    simp only [Traced.bind_places, size, Traced.pure_places, List.append_nil, List.mem_append,
      scanned, places]
    constructor
    · rintro (⟨k, _, upper, place⟩ | ⟨k, _, upper, place⟩)
      · exact ⟨k, by omega, place⟩
      · exact ⟨k, by omega, place⟩
    · intro ⟨k, upper, place⟩
      exact .inl ⟨k, Nat.zero_le _, by omega, place⟩

theorem terminalWritestring_unterminated {memory : Terminal → Mem} {data : Word} {t : Terminal}
    (nonzero : ∀ i, memory t (data + BitVec.ofNat 32 i) ≠ 0) :
    (terminalWritestring memory data t).val = none := by
  unfold terminalWritestring
  simp only [Traced.bind_val, sizeLoop_unterminated nonzero, Traced.pure_val]

/-- A call of `syscall_handler` on `regs`. -/
structure Answers (memory : Terminal → Mem) (regs : Registers) (t : Terminal)
    (answer : Traced Word (Option (Registers × Terminal))) : Prop where
  registers : ∀ regs' t', answer.val = some (regs', t') → regs' = { regs with eax := regs'.eax }
  /-- The string goes to the terminal up to its terminator. -/
  write : regs.eax = sysWriteNumber → regs.ebx = 1 ∨ regs.ebx = 2 →
    ∀ n, Terminated (memory t) regs.ecx n →
      ∃ sent, sent.length = n ∧ Reads memory regs.ecx 0 t sent ∧
        answer.val = some ({ regs with eax := regs.edx }, t.write sent) ∧
        ∀ p, p ∈ answer.places ↔ ∃ k ≤ n, p = regs.ecx + BitVec.ofNat 32 k
  unterminated : regs.eax = sysWriteNumber → regs.ebx = 1 ∨ regs.ebx = 2 →
    (∀ i, memory t (regs.ecx + BitVec.ofNat 32 i) ≠ 0) → answer.val = none
  descriptor : regs.eax = sysWriteNumber → ¬ (regs.ebx = 1 ∨ regs.ebx = 2) →
    answer.val = some ({ regs with eax := -1 }, t) ∧ answer.places = []

theorem syscallHandler_write (memory : Terminal → Mem) {regs : Registers} (t : Terminal)
    (number : regs.eax = sysWriteNumber) (fd : regs.ebx = 1 ∨ regs.ebx = 2) :
    (syscallHandler memory regs t).places = (terminalWritestring memory regs.ecx t).places ∧
      (syscallHandler memory regs t).val =
        (terminalWritestring memory regs.ecx t).val.map fun t' =>
          ({ regs with eax := regs.edx }, t') := by
  have unfolded : syscallHandler memory regs t = (do
      match ← terminalWritestring memory regs.ecx t with
      | none => return none
      | some t' => return some ({ regs with eax := regs.edx }, t')) := by
    unfold syscallHandler sysWrite
    rw [if_pos number, if_pos fd]
  rw [unfolded]
  simp only [Traced.bind_places, Traced.bind_val]
  cases (terminalWritestring memory regs.ecx t).val with
  | none => exact ⟨List.append_nil _, rfl⟩
  | some t' => exact ⟨List.append_nil _, rfl⟩

theorem syscallHandler_descriptor (memory : Terminal → Mem) {regs : Registers} (t : Terminal)
    (number : regs.eax = sysWriteNumber) (fd : ¬ (regs.ebx = 1 ∨ regs.ebx = 2)) :
    syscallHandler memory regs t = pure (some ({ regs with eax := -1 }, t)) := by
  unfold syscallHandler sysWrite
  rw [if_pos number, if_neg fd]

theorem syscallHandler_unknown (memory : Terminal → Mem) {regs : Registers} (t : Terminal)
    (number : regs.eax ≠ sysWriteNumber) :
    syscallHandler memory regs t = pure (some (regs, t.write (charsOf "Unknown syscall: "))) := by
  unfold syscallHandler
  rw [if_neg number]

theorem syscallHandler_terminated {memory : Terminal → Mem} {regs : Registers} {t : Terminal}
    {n : ℕ} (number : regs.eax = sysWriteNumber) (fd : regs.ebx = 1 ∨ regs.ebx = 2)
    (terminated : Terminated (memory t) regs.ecx n) :
    ∃ sent, sent.length = n ∧ Reads memory regs.ecx 0 t sent ∧
      (syscallHandler memory regs t).val = some ({ regs with eax := regs.edx }, t.write sent) ∧
      ∀ p, p ∈ (syscallHandler memory regs t).places ↔
        ∃ k ≤ n, p = regs.ecx + BitVec.ofNat 32 k := by
  obtain ⟨places, value⟩ := syscallHandler_write memory t number fd
  obtain ⟨sent, length, reads, printed, read⟩ := terminalWritestring_terminated terminated
  refine ⟨sent, length, reads, ?_, ?_⟩
  · rw [value, printed]
    rfl
  · rw [places]
    exact read

theorem syscallHandler_answers (memory : Terminal → Mem) (regs : Registers) (t : Terminal) :
    Answers memory regs t (syscallHandler memory regs t) where
  registers := by
    intro regs' t' result
    by_cases number : regs.eax = sysWriteNumber
    · by_cases fd : regs.ebx = 1 ∨ regs.ebx = 2
      · rw [(syscallHandler_write memory t number fd).2] at result
        obtain ⟨_, _, same⟩ := Option.map_eq_some_iff.mp result
        cases same
        rfl
      · rw [syscallHandler_descriptor memory t number fd] at result
        cases result
        rfl
    · rw [syscallHandler_unknown memory t number] at result
      cases result
      rfl
  write := fun number fd _ => syscallHandler_terminated number fd
  unterminated := by
    intro number fd nonzero
    rw [(syscallHandler_write memory t number fd).2, terminalWritestring_unterminated nonzero]
    rfl
  descriptor := by
    intro number fd
    rw [syscallHandler_descriptor memory t number fd]
    exact ⟨rfl, rfl⟩

/-! ## A length that is not the string's -/

/-- "AB" at 0x300000. -/
def letters : Terminal → Mem := fun _ a =>
  if a = 0x300000 then 0x41 else if a = 0x300001 then 0x42 else 0

def oneLetter : Registers where
  ds := 0x23
  edi := 0
  esi := 0
  ebp := 0
  esp := 0
  ebx := 1
  edx := 1
  ecx := 0x300000
  eax := 4
  intNo := 128
  errCode := 0
  eip := 0x101000
  cs := 0x1B
  eflags := 0x202
  useresp := 0x203000
  ss := 0x23

/-- A screen with the cursor at its first cell. -/
def blankScreen : Terminal := ⟨0, 0, 0x07, fun _ => 0x0720, [], vgaHeight_pos, vgaWidth_pos⟩

/-- One byte is asked for, two are sent and three are read; an unknown system
call returns its own number. -/
theorem oneLetter_not_truthful :
    (∃ t', (syscallHandler letters oneLetter blankScreen).val =
        some ({ oneLetter with eax := 1 }, t') ∧ t'.serial = [0x41, 0x42]) ∧
      0x300001 ∈ (syscallHandler letters oneLetter blankScreen).places ∧
      ∃ t', (syscallHandler letters { oneLetter with eax := 5 } blankScreen).val =
        some ({ oneLetter with eax := 5 }, t') := by
  have terminated : Terminated (letters blankScreen) oneLetter.ecx 2 := by
    refine ⟨by decide, ?_, rfl⟩
    intro i bound
    interval_cases i
    · decide
    · decide
  obtain ⟨sent, length, reads, value, places⟩ := terminalWritestring_terminated terminated
  obtain ⟨samePlaces, sameValue⟩ :=
    syscallHandler_write letters blankScreen (rfl : oneLetter.eax = _) (.inl rfl)
  have bytes : sent = [0x41, 0x42] := by
    apply List.ext_getElem length
    intro k bound _
    have below : k < 2 := length ▸ bound
    rw [reads k bound]
    interval_cases k
    · rfl
    · rfl
  refine ⟨⟨blankScreen.write sent, ?_, ?_⟩, ?_,
    ⟨blankScreen.write (charsOf "Unknown syscall: "), ?_⟩⟩
  · rw [sameValue, value]
    rfl
  · rw [Terminal.write_serial, bytes]
    rfl
  · rw [samePlaces, places]
    exact ⟨1, by decide, rfl⟩
  · have unknown : { oneLetter with eax := 5 }.eax ≠ sysWriteNumber := by decide
    rw [syscallHandler_unknown letters blankScreen unknown]
    rfl

end OrbitOs.Kernel
