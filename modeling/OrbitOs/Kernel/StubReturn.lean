import OrbitOs.Kernel.Transparency

/-!
# What the stubs return to

The tail of a stub knows nothing of the interrupted code but the structure that the C handler
was given.  It resumes the code that the structure describes when the handler returns.
-/

set_option autoImplicit false

namespace OrbitOs.Kernel

open OrbitOs.Machine

/-- The code that the structure describes.  `useresp` and `ss` are there only if it is outer
code; other code goes on with the stack of `r`, above the structure. -/
def Registers.machine (g : Registers) (r : X86) : X86 where
  cpu :=
    { reg := fun
        | .eax => g.eax
        | .ecx => g.ecx
        | .edx => g.edx
        | .ebx => g.ebx
        | .esp => if (g.cs.truncate 16 &&& 3 : Selector) = 0 then r.reg .esp + 60 else g.useresp
        | .ebp => g.ebp
        | .esi => g.esi
        | .edi => g.edi
      seg := fun
        | .cs => g.cs.truncate 16
        | .ss => if (g.cs.truncate 16 &&& 3 : Selector) = 0 then r.cpu.seg .ss
            else g.ss.truncate 16
        | _ => g.ds.truncate 16
      eip := g.eip
      eflags := g.eflags
      cr3 := r.cpu.cr3 }
  mem := r.mem

theorem Registers.machine_cpl (g : Registers) (r : X86) :
    (g.machine r).cpl = (g.cs.truncate 16 &&& 3 : Selector) := rfl

/-- A handler may change `*regs`: what it holds in the end is what is loaded. -/
theorem Stub.run_tail_loads (stub : Stub) {r : X86} (kernelCode : r.cpl = 0) :
    Resumes ((Registers.load r.mem (r.reg .esp + 4)).machine r) (r.run stub.tail) := by
  have field : ∀ k, r.peek (k + 1) = ld32 r.mem (r.reg .esp + 4 + BitVec.ofNat 32 (4 * k)) := by
    intro k
    have place : r.reg .esp + BitVec.ofNat 32 (4 * (k + 1)) =
        r.reg .esp + 4 + BitVec.ofNat 32 (4 * k) := by
      bv_omega
    rw [X86.peek, place]
  obtain ⟨z, run, unwound⟩ := stub.run_tail_unwound r
  have top : ∀ k, z.peek k = r.peek (12 + k) := by
    intro k
    rw [unwound.stack.peek, X86.peek_drop]
  rw [run]
  apply iret_resumes
  · rw [X86.cpl, unwound.cs]
    exact kernelCode
  · exact (top 0).trans (field 11)
  · rw [top 1, field 12]
    rfl
  · exact (top 2).trans (field 13)
  · intro outer
    rw [Registers.machine_cpl] at outer
    rw [top 3, top 4, field 14, field 15]
    exact ⟨(if_neg outer).symm, (if_neg outer).symm⟩
  · intro inner
    rw [Registers.machine_cpl] at inner
    rw [unwound.stack.esp, unwound.ss, X86.drop_reg, if_pos rfl, BitVec.add_assoc]
    exact ⟨(if_pos inner).symm, (if_pos inner).symm⟩
  · intro q other
    cases q with
    | eax => exact unwound.eax.trans (field 8)
    | ecx => exact unwound.ecx.trans (field 7)
    | edx => exact unwound.edx.trans (field 6)
    | ebx => exact unwound.ebx.trans (field 5)
    | esp => exact absurd rfl other
    | ebp => exact unwound.ebp.trans (field 3)
    | esi => exact unwound.esi.trans (field 2)
    | edi => exact unwound.edi.trans (field 1)
  · rw [unwound.data .ds (by simp), field 0]
    rfl
  · intro s member
    rw [unwound.data s (List.mem_cons_of_mem _ member), field 0]
    rfl

/-- Code that the structure shows is resumed. -/
theorem Stub.resumes_of_sees (stub : Stub) {vector : ℕ} {code : Option Word} {x r : X86}
    (kernelCode : r.cpl = 0)
    (sees : Sees vector code x (r.reg .esp + 4) (Registers.load r.mem (r.reg .esp + 4)))
    (inner : x.cpl = 0 → r.reg .esp + 60 = x.reg .esp ∧ r.cpu.seg .ss = x.cpu.seg .ss) :
    Resumes x (r.run stub.tail) := by
  have loads := stub.run_tail_loads kernelCode
  have cs : ((Registers.load r.mem (r.reg .esp + 4)).cs.truncate 16 : Selector) =
      x.cpu.seg .cs :=
    (congrArg _ sees.cs).trans (truncate_zeroExtend _)
  generalize Registers.load r.mem (r.reg .esp + 4) = g at loads sees cs
  have stack : (g.machine r).reg .esp = x.reg .esp ∧ (g.machine r).cpu.seg .ss = x.cpu.seg .ss := by
    by_cases ring0 : x.cpl = 0
    · have same : (g.cs.truncate 16 &&& 3 : Selector) = 0 := cs.symm ▸ ring0
      obtain ⟨esp, ss⟩ := inner ring0
      exact ⟨(if_pos same).trans esp, (if_pos same).trans ss⟩
    · have other : ¬ (g.cs.truncate 16 &&& 3 : Selector) = 0 := cs.symm ▸ ring0
      obtain ⟨useresp, ss⟩ := sees.outer ring0
      exact ⟨(if_neg other).trans useresp,
        (if_neg other).trans ((congrArg _ ss).trans (truncate_zeroExtend _))⟩
  have segments : ∀ s ∈ [Seg.cs, .ss, .ds], (g.machine r).cpu.seg s = x.cpu.seg s := by
    intro s member
    simp only [List.mem_cons, List.not_mem_nil, or_false] at member
    rcases member with rfl | rfl | rfl
    · exact cs
    · exact stack.2
    · exact sees.ds
  exact {
    reg := fun q => (loads.reg q).trans (by
      cases q with
      | eax => exact sees.eax
      | ecx => exact sees.ecx
      | edx => exact sees.edx
      | ebx => exact sees.ebx
      | esp => exact stack.1
      | ebp => exact sees.ebp
      | esi => exact sees.esi
      | edi => exact sees.edi)
    eip := loads.eip.trans sees.eip
    eflags := loads.eflags.trans sees.eflags
    kept := fun s member => (loads.kept s member).trans (segments s member)
    loaded := fun s member => (loads.loaded s member).trans (segments .ds (by simp)) }

/-! ## The frame of interrupted code -/

/-- How many words of the structure an interrupt fills. -/
def frameWords (x : X86) : ℕ := if x.cpl = 0 then 14 else 16

theorem Stub.length_frame (stub : Stub) (code : Option Word) (x : X86) (esp : Word) :
    (stub.frame code x esp).length = frameWords x := by
  unfold Stub.frame frameWords
  split <;> rfl

theorem Stub.sees_of_frame (stub : Stub) {code : Option Word} {x : X86} {m : Mem} {regs : Word}
    (above : ∀ k v, (stub.frame code x (regs + 36))[k]? = some v →
      ld32 m (regs + BitVec.ofNat 32 (4 * k)) = v) :
    Sees stub.number.toNat code x regs (Registers.load m regs) where
  ds := by
    rw [← dsWord_selector x, ← above 0 _ rfl]
    rfl
  edi := above 1 _ rfl
  esi := above 2 _ rfl
  ebp := above 3 _ rfl
  esp := above 4 _ rfl
  ebx := above 5 _ rfl
  edx := above 6 _ rfl
  ecx := above 7 _ rfl
  eax := above 8 _ rfl
  intNo := (above 9 _ rfl).trans (by simp)
  errCode := above 10 _ rfl
  eip := above 11 _ rfl
  cs := above 12 _ rfl
  eflags := above 13 _ rfl
  outer := by
    intro outer
    unfold Stub.frame at above
    rw [if_neg outer] at above
    exact ⟨above 14 _ rfl, above 15 _ rfl⟩

end OrbitOs.Kernel
