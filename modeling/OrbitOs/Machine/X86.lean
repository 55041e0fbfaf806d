import OrbitOs.Machine.Memory

/-!
# Straight-line x86 code

The instructions that the assembly files of the kernel use, over the eight
general registers, the segment selectors, EIP, EFLAGS and CR3.  Memory is
addressed physically: every page directory of the kernel maps the addresses
used here to themselves.  A piece of straight-line code is a list of
instructions; EIP matters at its two ends only, where an interrupt saves it and
where `ret` or `iret` load it.
-/

set_option autoImplicit false

namespace OrbitOs.Machine

inductive Reg
  | eax | ecx | edx | ebx | esp | ebp | esi | edi
  deriving DecidableEq, Repr

inductive Seg
  | cs | ds | es | fs | gs | ss
  deriving DecidableEq, Repr

abbrev Selector := BitVec 16

structure Cpu where
  reg : Reg → Word
  seg : Seg → Selector
  eip : Word
  eflags : Word
  cr3 : Word

namespace Cpu

def set (c : Cpu) (r : Reg) (v : Word) : Cpu :=
  { c with reg := fun q => if q = r then v else c.reg q }

def setSeg (c : Cpu) (r : Seg) (v : Selector) : Cpu :=
  { c with seg := fun q => if q = r then v else c.seg q }

@[simp] theorem set_reg (c : Cpu) (r : Reg) (v : Word) (q : Reg) :
    (c.set r v).reg q = if q = r then v else c.reg q := rfl
@[simp] theorem set_seg (c : Cpu) (r : Reg) (v : Word) : (c.set r v).seg = c.seg := rfl
@[simp] theorem set_eip (c : Cpu) (r : Reg) (v : Word) : (c.set r v).eip = c.eip := rfl
@[simp] theorem set_eflags (c : Cpu) (r : Reg) (v : Word) : (c.set r v).eflags = c.eflags := rfl
@[simp] theorem set_cr3 (c : Cpu) (r : Reg) (v : Word) : (c.set r v).cr3 = c.cr3 := rfl

@[simp] theorem setSeg_reg (c : Cpu) (r : Seg) (v : Selector) : (c.setSeg r v).reg = c.reg := rfl
@[simp] theorem setSeg_seg (c : Cpu) (r : Seg) (v : Selector) (q : Seg) :
    (c.setSeg r v).seg q = if q = r then v else c.seg q := rfl
@[simp] theorem setSeg_eip (c : Cpu) (r : Seg) (v : Selector) : (c.setSeg r v).eip = c.eip := rfl
@[simp] theorem setSeg_eflags (c : Cpu) (r : Seg) (v : Selector) :
    (c.setSeg r v).eflags = c.eflags := rfl
@[simp] theorem setSeg_cr3 (c : Cpu) (r : Seg) (v : Selector) : (c.setSeg r v).cr3 = c.cr3 := rfl

/-! ## Flags -/

/-- EFLAGS bit 9. -/
def interruptFlag : Word := 0x200

def interruptsEnabled (c : Cpu) : Bool := c.eflags.getLsbD 9

/-- The flags an interrupt gate clears: TF, IF, NT, RF and VM. -/
def gateMask : Word := 0x34300

/-- CF, PF, AF, ZF, SF and OF. -/
def statusMask : Word := 0x8D5

/-- The status flags of a result, put into `old`. -/
def withStatus (old result : Word) (carry adjust overflow : Bool) : Word :=
  let parity := (List.range 8).foldl (fun even i => even ^^ result.getLsbD i) true
  let flag (on : Bool) (i : ℕ) : Word := if on then 1#32 <<< i else 0
  (old &&& ~~~statusMask) |||
    ((flag carry 0 ||| flag parity 2 ||| flag adjust 4 ||| flag (result = 0) 6 |||
      flag (result.getLsbD 31) 7 ||| flag overflow 11) &&& statusMask)

end Cpu

structure X86 where
  cpu : Cpu
  mem : Mem

namespace X86

variable (m : X86)

def reg (r : Reg) : Word := m.cpu.reg r

def set (r : Reg) (v : Word) : X86 := { m with cpu := m.cpu.set r v }

/-! ## The stack -/

def push (v : Word) : X86 where
  cpu := m.cpu.set .esp (m.reg .esp - 4)
  mem := st32 m.mem (m.reg .esp - 4) v

/-- The `k`-th word of the stack. -/
def peek (k : ℕ) : Word := ld32 m.mem (m.reg .esp + BitVec.ofNat 32 (4 * k))

/-- Remove `n` words. -/
def drop (n : ℕ) : X86 := m.set .esp (m.reg .esp + BitVec.ofNat 32 (4 * n))

def pushAll (vs : List Word) : X86 := vs.foldl push m

@[simp] theorem pushAll_nil : m.pushAll [] = m := rfl

@[simp] theorem pushAll_cons (v : Word) (vs : List Word) :
    m.pushAll (v :: vs) = (m.push v).pushAll vs := rfl

theorem pushAll_append (vs ws : List Word) : m.pushAll (vs ++ ws) = (m.pushAll vs).pushAll ws :=
  List.foldl_append

@[simp] theorem push_esp (v : Word) : (m.push v).reg .esp = m.reg .esp - 4 := rfl

theorem push_reg (v : Word) {r : Reg} (other : r ≠ .esp) : (m.push v).reg r = m.reg r :=
  if_neg other

@[simp] theorem push_seg (v : Word) : (m.push v).cpu.seg = m.cpu.seg := rfl
@[simp] theorem push_eip (v : Word) : (m.push v).cpu.eip = m.cpu.eip := rfl
@[simp] theorem push_eflags (v : Word) : (m.push v).cpu.eflags = m.cpu.eflags := rfl
@[simp] theorem push_cr3 (v : Word) : (m.push v).cpu.cr3 = m.cpu.cr3 := rfl

theorem pushAll_esp (vs : List Word) :
    (m.pushAll vs).reg .esp = m.reg .esp - BitVec.ofNat 32 (4 * vs.length) := by
  induction vs generalizing m with
  | nil => simp
  | cons v vs ih =>
      rw [pushAll_cons, ih, push_esp, List.length_cons]
      bv_omega

theorem pushAll_reg (vs : List Word) {r : Reg} (other : r ≠ .esp) :
    (m.pushAll vs).reg r = m.reg r := by
  induction vs generalizing m with
  | nil => rfl
  | cons v vs ih => rw [pushAll_cons, ih, push_reg m v other]

@[simp] theorem pushAll_seg (vs : List Word) : (m.pushAll vs).cpu.seg = m.cpu.seg := by
  induction vs generalizing m with
  | nil => rfl
  | cons v vs ih => rw [pushAll_cons, ih, push_seg]

@[simp] theorem pushAll_eflags (vs : List Word) : (m.pushAll vs).cpu.eflags = m.cpu.eflags := by
  induction vs generalizing m with
  | nil => rfl
  | cons v vs ih => rw [pushAll_cons, ih, push_eflags]

/-- The bytes that pushing `n` words writes. -/
def Below (n : ℕ) (x : Word) : Prop := Within (m.reg .esp - BitVec.ofNat 32 (4 * n)) (4 * n) x

theorem push_agreeOff (v : Word) : AgreeOff (m.Below 1) m.mem (m.push v).mem :=
  st32_agreeOff m.mem _ v

/-- `j` words further down the stack. -/
theorem Below.deeper {m m' : X86} {j n : ℕ} {x : Word} (below : m'.Below n x)
    (esp : m'.reg .esp = m.reg .esp - BitVec.ofNat 32 (4 * j)) : m.Below (n + j) x := by
  unfold Below at *
  rw [esp] at below
  have same : m.reg .esp - BitVec.ofNat 32 (4 * j) - BitVec.ofNat 32 (4 * n) =
      m.reg .esp - BitVec.ofNat 32 (4 * (n + j)) := by
    bv_omega
  rw [same] at below
  exact below.mono (by omega)

theorem below_push {n : ℕ} {v x : Word} (below : (m.push v).Below n x) : m.Below (n + 1) x :=
  below.deeper rfl

theorem Below.mono {m : X86} {n k : ℕ} {x : Word} (below : m.Below n x) (le : n ≤ k) :
    m.Below k x := by
  unfold Below at *
  have start : m.reg .esp - BitVec.ofNat 32 (4 * n) =
      m.reg .esp - BitVec.ofNat 32 (4 * k) + BitVec.ofNat 32 (4 * (k - n)) := by
    bv_omega
  rw [start] at below
  exact below.offset (by omega)

theorem pushAll_agreeOff (vs : List Word) :
    AgreeOff (m.Below vs.length) m.mem (m.pushAll vs).mem := by
  induction vs generalizing m with
  | nil => exact AgreeOff.refl _ _
  | cons v vs ih =>
      rw [List.length_cons]
      have first : AgreeOff (m.Below (vs.length + 1)) m.mem (m.push v).mem :=
        (m.push_agreeOff v).mono fun x below => below.mono (by omega)
      have rest := (ih (m.push v)).mono fun x => m.below_push
      exact first.trans rest

/-! ## Reading the stack back -/

theorem peek_push_zero (v : Word) : (m.push v).peek 0 = v := by
  have start : (m.push v).reg .esp + BitVec.ofNat 32 (4 * 0) = m.reg .esp - 4 := by
    rw [push_esp]
    exact BitVec.add_zero _
  rw [peek, start]
  exact ld32_st32_self m.mem _ v

theorem peek_push_succ (v : Word) {k : ℕ} (small : 4 * k + 8 ≤ 2 ^ 32) :
    (m.push v).peek (k + 1) = m.peek k := by
  have place : (m.push v).reg .esp + BitVec.ofNat 32 (4 * (k + 1)) =
      m.reg .esp + BitVec.ofNat 32 (4 * k) := by
    rw [push_esp]
    bv_omega
  rw [peek, place]
  apply ld32_st32_apart
  apply apart_words
  · bv_omega
  · bv_omega

/-- `m'` is `m` with `n` more words on the stack. -/
structure Grew (n : ℕ) (m m' : X86) : Prop where
  esp : m'.reg .esp = m.reg .esp - BitVec.ofNat 32 (4 * n)
  mem : AgreeOff (m.Below n) m.mem m'.mem

theorem Grew.trans {m m' m'' : X86} {n k : ℕ} (first : Grew n m m') (second : Grew k m' m'') :
    Grew (k + n) m m'' where
  esp := by
    rw [second.esp, first.esp]
    bv_omega
  mem := by
    have upper := first.mem.mono fun x below => below.mono (by omega : n ≤ k + n)
    exact upper.trans (second.mem.mono fun x below => below.deeper first.esp)

theorem Grew.none {m m' : X86} (esp : m'.reg .esp = m.reg .esp) (mem : m'.mem = m.mem) :
    Grew 0 m m' where
  esp := esp.trans (BitVec.sub_zero _).symm
  mem := fun x _ => congrFun mem x

theorem pushAll_grew (vs : List Word) : Grew vs.length m (m.pushAll vs) :=
  ⟨m.pushAll_esp vs, m.pushAll_agreeOff vs⟩

theorem push_grew (v : Word) : Grew 1 m (m.push v) := m.pushAll_grew [v]

/-- What was on the stack is still there. -/
theorem Grew.peek {m m' : X86} {n : ℕ} (grew : Grew n m m') {k : ℕ}
    (small : 4 * (n + k) + 4 ≤ 2 ^ 32) : m'.peek (n + k) = m.peek k := by
  have place : m'.reg .esp + BitVec.ofNat 32 (4 * (n + k)) =
      m.reg .esp + BitVec.ofNat 32 (4 * k) := by
    rw [grew.esp]
    bv_omega
  rw [X86.peek, place]
  refine grew.mem.ld32_eq fun x inWord below => ?_
  unfold Below Within at below
  unfold Within at inWord
  bv_omega

/-- Pushed words are read back in the opposite order. -/
theorem peek_pushAll {vs : List Word} {k : ℕ} {v : Word} (found : vs.reverse[k]? = some v)
    (small : 4 * vs.length + 4 ≤ 2 ^ 32) : (m.pushAll vs).peek k = v := by
  induction vs using List.reverseRecOn generalizing k with
  | nil => simp at found
  | append_singleton vs w ih =>
      rw [List.length_append, List.length_singleton] at small
      rw [List.reverse_append, List.reverse_singleton, List.singleton_append] at found
      rw [pushAll_append, pushAll_cons, pushAll_nil]
      cases k with
      | zero =>
          cases found
          exact peek_push_zero _ _
      | succ k =>
          rw [List.getElem?_cons_succ] at found
          have bound := (List.getElem?_eq_some_iff.mp found).1
          rw [List.length_reverse] at bound
          rw [peek_push_succ _ _ (by omega)]
          exact ih found (by omega)

/-- Equal stacks, in ESP and in memory. -/
structure SameStack (m m' : X86) : Prop where
  esp : m.reg .esp = m'.reg .esp
  mem : m.mem = m'.mem

theorem SameStack.trans {m m' m'' : X86} (first : SameStack m m') (second : SameStack m' m'') :
    SameStack m m'' := ⟨first.esp.trans second.esp, first.mem.trans second.mem⟩

theorem SameStack.peek {m m' : X86} (same : SameStack m m') (k : ℕ) : m.peek k = m'.peek k := by
  unfold X86.peek
  rw [same.esp, same.mem]

theorem SameStack.push {m m' : X86} (same : SameStack m m') (v : Word) :
    SameStack (m.push v) (m'.push v) where
  esp := by rw [push_esp, push_esp, same.esp]
  mem := by
    unfold X86.push
    rw [same.esp, same.mem]

theorem SameStack.pushAll {m m' : X86} (same : SameStack m m') (vs : List Word) :
    SameStack (m.pushAll vs) (m'.pushAll vs) := by
  induction vs generalizing m m' with
  | nil => exact same
  | cons v vs ih => exact ih (same.push v)

@[simp] theorem drop_reg (n : ℕ) (q : Reg) : (m.drop n).reg q =
    if q = .esp then m.reg .esp + BitVec.ofNat 32 (4 * n) else m.reg q := rfl
theorem peek_drop (n k : ℕ) : (m.drop n).peek k = m.peek (n + k) := by
  have place : m.reg .esp + BitVec.ofNat 32 (4 * n) + BitVec.ofNat 32 (4 * k) =
      m.reg .esp + BitVec.ofNat 32 (4 * (n + k)) := by
    rw [BitVec.add_assoc, ← BitVec.ofNat_add, Nat.mul_add]
  exact congrArg (ld32 m.mem) place

@[simp] theorem drop_mem (n : ℕ) : (m.drop n).mem = m.mem := rfl
@[simp] theorem drop_seg (n : ℕ) : (m.drop n).cpu.seg = m.cpu.seg := rfl
@[simp] theorem drop_eip (n : ℕ) : (m.drop n).cpu.eip = m.cpu.eip := rfl
@[simp] theorem drop_eflags (n : ℕ) : (m.drop n).cpu.eflags = m.cpu.eflags := rfl
@[simp] theorem drop_cr3 (n : ℕ) : (m.drop n).cpu.cr3 = m.cpu.cr3 := rfl

@[simp] theorem set_reg (r : Reg) (v : Word) (q : Reg) :
    (m.set r v).reg q = if q = r then v else m.reg q := rfl
@[simp] theorem set_mem (r : Reg) (v : Word) : (m.set r v).mem = m.mem := rfl
@[simp] theorem set_seg (r : Reg) (v : Word) : (m.set r v).cpu.seg = m.cpu.seg := rfl
@[simp] theorem set_eip (r : Reg) (v : Word) : (m.set r v).cpu.eip = m.cpu.eip := rfl
@[simp] theorem set_eflags (r : Reg) (v : Word) : (m.set r v).cpu.eflags = m.cpu.eflags := rfl
@[simp] theorem set_cr3 (r : Reg) (v : Word) : (m.set r v).cpu.cr3 = m.cpu.cr3 := rfl

end X86

/-! ## Instructions -/

/-- Operands stand in the order of the source: `load 20 .esp .eax` is
`mov 20(%esp), %eax`. -/
inductive Instr
  | push (src : Reg)
  | pushImm (v : Word)
  | pop (dst : Reg)
  | load (disp : ℕ) (base dst : Reg)
  | store (src base : Reg)
  | mov (src dst : Reg)
  | movImm16 (v : Selector) (dst : Reg)
  | movFromSeg (src : Seg) (dst : Reg)
  | movToSeg (src : Reg) (dst : Seg)
  | movToCr3 (src : Reg)
  | orImm (v : Word) (dst : Reg)
  | addImm (v : Word) (dst : Reg)
  | pushf
  | pusha
  | popa
  | cli
  | sti
  | ret
  | iret

namespace X86

variable (m : X86)

/-- The privilege level of the running code. -/
def cpl : Selector := m.cpu.seg .cs &&& 3

/-- A 16-bit move keeps the upper half of the register. -/
def set16 (r : Reg) (v : Selector) : X86 :=
  m.set r ((m.reg r &&& 0xFFFF0000) ||| v.zeroExtend 32)

def setSeg (r : Seg) (v : Selector) : X86 := { m with cpu := m.cpu.setSeg r v }

def setFlags (v : Word) : X86 := { m with cpu := { m.cpu with eflags := v } }

def jump (v : Word) : X86 := { m with cpu := { m.cpu with eip := v } }

def setCr3 (v : Word) : X86 := { m with cpu := { m.cpu with cr3 := v } }

def store (a v : Word) : X86 := { m with mem := st32 m.mem a v }

@[simp] theorem setSeg_reg (r : Seg) (v : Selector) : (m.setSeg r v).reg = m.reg := rfl
@[simp] theorem setSeg_mem (r : Seg) (v : Selector) : (m.setSeg r v).mem = m.mem := rfl
@[simp] theorem setSeg_seg (r : Seg) (v : Selector) (q : Seg) :
    (m.setSeg r v).cpu.seg q = if q = r then v else m.cpu.seg q := rfl
@[simp] theorem setSeg_eip (r : Seg) (v : Selector) :
    (m.setSeg r v).cpu.eip = m.cpu.eip := rfl
@[simp] theorem setSeg_eflags (r : Seg) (v : Selector) :
    (m.setSeg r v).cpu.eflags = m.cpu.eflags := rfl
@[simp] theorem setSeg_cr3 (r : Seg) (v : Selector) :
    (m.setSeg r v).cpu.cr3 = m.cpu.cr3 := rfl

@[simp] theorem setFlags_reg (v : Word) : (m.setFlags v).reg = m.reg := rfl
@[simp] theorem setFlags_mem (v : Word) : (m.setFlags v).mem = m.mem := rfl
@[simp] theorem setFlags_seg (v : Word) : (m.setFlags v).cpu.seg = m.cpu.seg := rfl
@[simp] theorem setFlags_eip (v : Word) : (m.setFlags v).cpu.eip = m.cpu.eip := rfl
@[simp] theorem setFlags_eflags (v : Word) : (m.setFlags v).cpu.eflags = v := rfl
@[simp] theorem setFlags_cr3 (v : Word) : (m.setFlags v).cpu.cr3 = m.cpu.cr3 := rfl

@[simp] theorem jump_reg (v : Word) : (m.jump v).reg = m.reg := rfl
@[simp] theorem jump_mem (v : Word) : (m.jump v).mem = m.mem := rfl
@[simp] theorem jump_seg (v : Word) : (m.jump v).cpu.seg = m.cpu.seg := rfl
@[simp] theorem jump_eip (v : Word) : (m.jump v).cpu.eip = v := rfl
@[simp] theorem jump_eflags (v : Word) : (m.jump v).cpu.eflags = m.cpu.eflags := rfl
@[simp] theorem jump_cr3 (v : Word) : (m.jump v).cpu.cr3 = m.cpu.cr3 := rfl

@[simp] theorem setCr3_reg (v : Word) : (m.setCr3 v).reg = m.reg := rfl
@[simp] theorem setCr3_mem (v : Word) : (m.setCr3 v).mem = m.mem := rfl
@[simp] theorem setCr3_seg (v : Word) : (m.setCr3 v).cpu.seg = m.cpu.seg := rfl
@[simp] theorem setCr3_eflags (v : Word) : (m.setCr3 v).cpu.eflags = m.cpu.eflags := rfl
@[simp] theorem setCr3_cr3 (v : Word) : (m.setCr3 v).cpu.cr3 = v := rfl

@[simp] theorem store_reg (a v : Word) : (m.store a v).reg = m.reg := rfl
@[simp] theorem store_mem (a v : Word) : (m.store a v).mem = st32 m.mem a v := rfl
@[simp] theorem store_cpu (a v : Word) : (m.store a v).cpu = m.cpu := rfl

def addTo (r : Reg) (v : Word) : X86 :=
  let old := m.reg r
  let sum := old + v
  (m.set r sum).setFlags
    (Cpu.withStatus m.cpu.eflags sum (2 ^ 32 ≤ old.toNat + v.toNat)
      (16 ≤ old.toNat % 16 + v.toNat % 16)
      (old.getLsbD 31 = v.getLsbD 31 ∧ sum.getLsbD 31 ≠ old.getLsbD 31))

def orTo (r : Reg) (v : Word) : X86 :=
  (m.set r (m.reg r ||| v)).setFlags
    (Cpu.withStatus m.cpu.eflags (m.reg r ||| v) false false false)

/-- The values `pusha` pushes, in that order; the ESP among them is the one
before the first push. -/
def pushaWords : List Word :=
  [m.reg .eax, m.reg .ecx, m.reg .edx, m.reg .ebx, m.reg .esp, m.reg .ebp, m.reg .esi, m.reg .edi]

/-- `popa` skips the saved ESP. -/
def popAll : X86 :=
  (((((((m.drop 8).set .edi (m.peek 0)).set .esi (m.peek 1)).set .ebp (m.peek 2)).set .ebx
    (m.peek 4)).set .edx (m.peek 5)).set .ecx (m.peek 6)).set .eax (m.peek 7)

def ret : X86 := (m.drop 1).jump (m.peek 0)

/-- EIP, CS and EFLAGS are popped; on a return to an outer privilege level ESP
and SS follow.  The kernel loads user selectors into the data segment registers
before such a return, so the CPU finds none to clear. -/
def iret : X86 :=
  let target : Selector := (m.peek 1).truncate 16
  let resumed := (((m.drop 3).jump (m.peek 0)).setSeg .cs target).setFlags (m.peek 2)
  if m.cpl.toNat < (target &&& 3).toNat then
    (resumed.set .esp (m.peek 3)).setSeg .ss ((m.peek 4).truncate 16)
  else resumed

def exec : Instr → X86
  | .push src => m.push (m.reg src)
  | .pushImm v => m.push v
  | .pop dst => (m.drop 1).set dst (m.peek 0)
  | .load disp base dst => m.set dst (ld32 m.mem (m.reg base + BitVec.ofNat 32 disp))
  | .store src base => m.store (m.reg base) (m.reg src)
  | .mov src dst => m.set dst (m.reg src)
  | .movImm16 v dst => m.set16 dst v
  | .movFromSeg src dst => m.set16 dst (m.cpu.seg src)
  | .movToSeg src dst => m.setSeg dst ((m.reg src).truncate 16)
  | .movToCr3 src => m.setCr3 (m.reg src)
  | .orImm v dst => m.orTo dst v
  | .addImm v dst => m.addTo dst v
  | .pushf => m.push m.cpu.eflags
  | .pusha => m.pushAll m.pushaWords
  | .popa => m.popAll
  | .cli => m.setFlags (m.cpu.eflags &&& ~~~Cpu.interruptFlag)
  | .sti => m.setFlags (m.cpu.eflags ||| Cpu.interruptFlag)
  | .ret => m.ret
  | .iret => m.iret

def run (code : List Instr) : X86 := code.foldl exec m

@[simp] theorem run_nil : m.run [] = m := rfl
@[simp] theorem run_cons (i : Instr) (code : List Instr) :
    m.run (i :: code) = (m.exec i).run code := rfl

theorem run_append (first second : List Instr) :
    m.run (first ++ second) = (m.run first).run second := List.foldl_append

theorem Grew.append {m : X86} {n k : ℕ} {first second : List Instr}
    (grew : Grew n m (m.run first)) (grew' : ∀ y : X86, Grew k y (y.run second)) :
    Grew (k + n) m (m.run (first ++ second)) := by
  rw [run_append]
  exact grew.trans (grew' _)

theorem peek_set {r : Reg} (other : r ≠ .esp) (v : Word) (k : ℕ) :
    (m.set r v).peek k = m.peek k := by
  unfold peek
  rw [set_reg, if_neg other.symm, set_mem]

@[simp] theorem peek_setFlags (v : Word) (k : ℕ) : (m.setFlags v).peek k = m.peek k := rfl

@[simp] theorem iret_mem : m.iret.mem = m.mem := by
  unfold iret
  dsimp only
  split <;> rfl

/-! ## What code writes -/

/-- The bytes an instruction stores to. -/
def Writes : Instr → Word → Prop
  | .push _ | .pushImm _ | .pushf => m.Below 1
  | .pusha => m.Below 8
  | .store _ base => Within (m.reg base) 4
  | _ => fun _ => False

def RunWrites : X86 → List Instr → Word → Prop
  | _, [], _ => False
  | m, i :: code, x => m.Writes i x ∨ RunWrites (m.exec i) code x

theorem exec_agreeOff (i : Instr) : AgreeOff (m.Writes i) m.mem (m.exec i).mem := by
  cases i with
  | push src => exact m.push_agreeOff _
  | pushImm v => exact m.push_agreeOff _
  | pushf => exact m.push_agreeOff _
  | pusha => exact m.pushAll_agreeOff m.pushaWords
  | store src base => exact st32_agreeOff m.mem _ _
  | iret => exact fun x _ => congrFun m.iret_mem x
  | _ => exact AgreeOff.refl _ _

theorem run_agreeOff (code : List Instr) : AgreeOff (RunWrites m code) m.mem (m.run code).mem := by
  induction code generalizing m with
  | nil => exact AgreeOff.refl _ _
  | cons i code ih =>
      have first : AgreeOff (RunWrites m (i :: code)) m.mem (m.exec i).mem :=
        (m.exec_agreeOff i).mono fun _ => Or.inl
      have rest : AgreeOff (RunWrites m (i :: code)) (m.exec i).mem ((m.exec i).run code).mem :=
        (ih (m.exec i)).mono fun _ => Or.inr
      exact first.trans rest

/-! ## Interrupts -/

end X86

/-- The two fields of the task state segment that the CPU reads when an
interrupt arrives outside privilege level 0. -/
structure Tss where
  ss0 : Word
  esp0 : Word

namespace X86

variable (m : X86)

/-- The stack the CPU saves the interrupted state on. -/
def innerStack (tss : Tss) : X86 :=
  if m.cpl = 0 then m else (m.set .esp tss.esp0).setSeg .ss (tss.ss0.truncate 16)

/-- SS and ESP are saved only when the stack changes. -/
def interruptWords : List Word :=
  (if m.cpl = 0 then [] else [(m.cpu.seg .ss).zeroExtend 32, m.reg .esp]) ++
    [m.cpu.eflags, (m.cpu.seg .cs).zeroExtend 32, m.cpu.eip]

/-- Through an interrupt gate to `selector:handler`, with the error code of the
exceptions that have one. -/
def interrupt (tss : Tss) (code : Option Word) (selector : Selector) (handler : Word) : X86 :=
  ((((m.innerStack tss).pushAll (m.interruptWords ++ code.toList)).setFlags
    (m.cpu.eflags &&& ~~~Cpu.gateMask)).setSeg .cs selector).jump handler

theorem interrupt_sameStack (tss : Tss) (code : Option Word) (selector : Selector)
    (handler : Word) : SameStack (m.interrupt tss code selector handler)
      ((m.innerStack tss).pushAll (m.interruptWords ++ code.toList)) := by
  unfold interrupt
  generalize (m.innerStack tss).pushAll (m.interruptWords ++ code.toList) = saved
  exact ⟨rfl, rfl⟩

@[simp] theorem iret_eflags : m.iret.cpu.eflags = m.peek 2 := by
  unfold iret
  dsimp only
  split <;> rfl

end X86

end OrbitOs.Machine
