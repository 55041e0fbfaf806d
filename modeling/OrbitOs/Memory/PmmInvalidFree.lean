import OrbitOs.Memory.PmmRegions

/-!
# Frees of blocks that are not handed out

`pmm_free_block` trusts the bit of the block alone.  A lending records which
blocks are handed out; its runs start behind `pmm_initialize`, free any
address, and let the rest of the system store outside the bitmap.  The bit of a
block distinguishes "handed out" from "free", but neither from "reserved at
boot" nor from the memory behind the bitmap.
-/

set_option autoImplicit false

namespace OrbitOs.Memory

open OrbitOs.Machine OrbitOs.Kernel OrbitOs.Base

namespace Pmm

/-- Only a clear bit makes a free do nothing: a set one moves the counter. -/
theorem pmmFreeBlock_eq_self_iff (s : Pmm) (addr : Word) :
    pmmFreeBlock s addr = s ↔ s.bit (addr.toNat / 4096) = false := by
  rcases pmmFreeBlock_cases s addr with ⟨set, result⟩ | ⟨clear, result⟩
  · rw [result, set]
    constructor
    · intro same
      have counter : s.usedBlocks - 1 = s.usedBlocks := congrArg Pmm.usedBlocks same
      bv_omega
    · intro impossible
      contradiction
  · exact ⟨fun _ => clear, fun _ => result⟩

theorem pmmFreeBlock_maxBlocks (s : Pmm) (addr : Word) :
    (pmmFreeBlock s addr).maxBlocks = s.maxBlocks := by
  rcases pmmFreeBlock_cases s addr with ⟨_, result⟩ | ⟨_, result⟩
  · rw [result, give_maxBlocks]
  · rw [result]

end Pmm

/-- The allocator and the blocks that are handed out: returned by
`pmm_alloc_block` and not freed since. -/
structure Lending where
  pmm : Pmm
  lent : Finset ℕ

namespace Lending

open Pmm

variable {start : Pmm} {l next : Lending}

/-- The address lies inside a block that is handed out. -/
abbrev Inside (l : Lending) (addr : Word) : Prop := addr.toNat / 4096 ∈ l.lent

/-- Allocations, frees of addresses inside a block that is handed out, the
other frees that `may` admits, and stores that keep the bitmap. -/
inductive Step (may : Pmm → Word → Prop) : Lending → Lending → Prop
  | alloc (s : Pmm) (lent : Finset ℕ) :
      Step may ⟨s, lent⟩ ⟨(pmmAllocBlock s).1,
        if (pmmAllocBlock s).2 = 0 then lent
        else insert ((pmmAllocBlock s).2.toNat / 4096) lent⟩
  | free (s : Pmm) (lent : Finset ℕ) (addr : Word) (inside : Inside ⟨s, lent⟩ addr) :
      Step may ⟨s, lent⟩ ⟨pmmFreeBlock s addr, lent.erase (addr.toNat / 4096)⟩
  | invalidFree (s : Pmm) (lent : Finset ℕ) (addr : Word) (outside : ¬ Inside ⟨s, lent⟩ addr)
      (admitted : may s addr) : Step may ⟨s, lent⟩ ⟨pmmFreeBlock s addr, lent⟩
  | store (s : Pmm) (lent : Finset ℕ) (mem : Mem)
      (kept : ∀ k < s.maxBlocks.toNat, (s.withMem mem).bit k = s.bit k) :
      Step may ⟨s, lent⟩ ⟨s.withMem mem, lent⟩

abbrev Run (may : Pmm → Word → Prop) : Lending → Lending → Prop :=
  Relation.ReflTransGen (Step may)

/-- A managed block was not reserved when `pmm_initialize` returned; at or
above the end, the bit read behind the bitmap is clear. -/
def Harmless (start s : Pmm) (addr : Word) : Prop :=
  if addr.toNat / 4096 < start.maxBlocks.toNat then start.bit (addr.toNat / 4096) = false
  else s.bit (addr.toNat / 4096) = false

/-- The set bits are those set at the start and those of the blocks handed out. -/
structure Kept (start : Pmm) (l : Lending) : Prop where
  maxBlocks : l.pmm.maxBlocks = start.maxBlocks
  lentFree : ∀ k ∈ l.lent, k ∈ start.freeBlocks
  bits : ∀ k < start.maxBlocks.toNat,
    l.pmm.bit k = true ↔ start.bit k = true ∨ k ∈ l.lent

theorem Kept.mem_freeBlocks_iff (kept : Kept start l) {k : ℕ} :
    k ∈ l.pmm.freeBlocks ↔ k ∈ start.freeBlocks ∧ k ∉ l.lent := by
  rw [mem_freeBlocks, mem_freeBlocks, kept.maxBlocks, and_assoc]
  refine and_congr_right fun bound => ?_
  rw [← Bool.not_eq_true, kept.bits k bound, not_or, Bool.not_eq_true]

/-- Outside the blocks handed out a free does nothing exactly when it is harmless. -/
theorem Kept.free_eq_self_iff (kept : Kept start l) {addr : Word} (outside : ¬ l.Inside addr) :
    pmmFreeBlock l.pmm addr = l.pmm ↔ Harmless start l.pmm addr := by
  rw [pmmFreeBlock_eq_self_iff, Harmless]
  split
  · rename_i managed
    rw [← Bool.not_eq_true, kept.bits _ managed, not_or, Bool.not_eq_true]
    exact and_iff_left outside
  · rfl

theorem Kept.alloc {s : Pmm} {lent : Finset ℕ} (kept : Kept start ⟨s, lent⟩)
    (small : start.maxBlocks.toNat < 2 ^ 20) (zeroReserved : 0 ∉ start.freeBlocks) :
    Kept start ⟨(pmmAllocBlock s).1,
      if (pmmAllocBlock s).2 = 0 then lent
      else insert ((pmmAllocBlock s).2.toNat / 4096) lent⟩ := by
  rcases pmmAllocBlock_cases s with ⟨k, least, result⟩ | ⟨_, result⟩
  · have wasFree := (kept.mem_freeBlocks_iff.mp least.1).1
    have bound := (mem_freeBlocks.mp wasFree).1
    have nonzero : k * 4096 ≠ 0 := by
      rw [mul_4096_eq_blockAddr, ne_eq, blockAddr_eq_zero_iff (by omega)]
      exact fun zero => zeroReserved (zero ▸ wasFree)
    have index : (k * 4096).toNat / 4096 = k.toNat := by
      rw [toNat_mul_4096 (by omega)]
      omega
    rw [result]
    dsimp only
    rw [if_neg nonzero, index]
    refine ⟨kept.maxBlocks, ?_, ?_⟩
    · intro j member
      rcases Finset.mem_insert.mp member with rfl | member
      · exact wasFree
      · exact kept.lentFree j member
    · intro j jBound
      have before := kept.bits j jBound
      dsimp only at before ⊢
      rw [bit_take s k (by omega), Bool.or_eq_true, decide_eq_true_eq, before,
        Finset.mem_insert]
      exact or_left_comm
  · rw [result]
    exact kept

theorem Kept.free {s : Pmm} {lent : Finset ℕ} (kept : Kept start ⟨s, lent⟩) {addr : Word}
    (inside : Inside ⟨s, lent⟩ addr) :
    Kept start ⟨pmmFreeBlock s addr, lent.erase (addr.toNat / 4096)⟩ := by
  have wasFree := mem_freeBlocks.mp (kept.lentFree _ inside)
  have set := (kept.bits _ wasFree.1).mpr (Or.inr inside)
  rcases pmmFreeBlock_cases s addr with ⟨_, result⟩ | ⟨clear, _⟩
  · rw [result]
    refine ⟨kept.maxBlocks, fun j member => kept.lentFree j (Finset.mem_of_mem_erase member), ?_⟩
    intro j jBound
    have small := start.maxBlocks.isLt
    have before := kept.bits j jBound
    dsimp only at before ⊢
    rw [bit_give s _ (by omega), toNat_div_4096, Finset.mem_erase, Bool.and_eq_true, before]
    by_cases same : j = addr.toNat / 4096
    · simp [same, wasFree.2]
    · simp [same]
  · dsimp only at set
    rw [clear] at set
    contradiction

theorem Kept.step (kept : Kept start l) (small : start.maxBlocks.toNat < 2 ^ 20)
    (zeroReserved : 0 ∉ start.freeBlocks) (step : Step (Harmless start) l next) :
    Kept start next := by
  cases step with
  | alloc s lent => exact kept.alloc small zeroReserved
  | free s lent addr inside => exact kept.free inside
  | invalidFree s lent addr outside harmless =>
      have ignored : pmmFreeBlock s addr = s := (kept.free_eq_self_iff outside).mpr harmless
      rw [ignored]
      exact kept
  | store s lent mem same =>
      refine ⟨kept.maxBlocks, kept.lentFree, fun k bound => ?_⟩
      have managed : k < s.maxBlocks.toNat := by
        have size : s.maxBlocks = start.maxBlocks := kept.maxBlocks
        rwa [size]
      dsimp only
      rw [same k managed]
      exact kept.bits k bound

theorem Kept.run (small : start.maxBlocks.toNat < 2 ^ 20) (zeroReserved : 0 ∉ start.freeBlocks)
    (run : Run (Harmless start) ⟨start, ∅⟩ l) : Kept start l := by
  induction run with
  | refl => exact ⟨rfl, by simp, by simp⟩
  | tail _ step ih => exact ih.step small zeroReserved step

/-- What holds in a state reached from `start`. -/
structure Sturdy (start : Pmm) (l : Lending) : Prop where
  /-- A free outside the blocks handed out changes nothing exactly when it is harmless. -/
  ignored : ∀ addr, ¬ l.Inside addr →
    (pmmFreeBlock l.pmm addr = l.pmm ↔ Harmless start l.pmm addr)
  /-- A non-zero result is the address of a block that was not reserved. -/
  unreserved : (pmmAllocBlock l.pmm).2 ≠ 0 → ∃ k, (pmmAllocBlock l.pmm).2 = blockAddr k ∧
    k < start.maxBlocks.toNat ∧ start.bit k = false
  /-- Zero means that no block is free. -/
  exhausted : (pmmAllocBlock l.pmm).2 = 0 → ∀ k < start.maxBlocks.toNat, l.pmm.bit k = true

theorem Kept.sturdy (kept : Kept start l) (small : start.maxBlocks.toNat < 2 ^ 20)
    (zeroReserved : 0 ∉ start.freeBlocks) : Sturdy start l := by
  refine ⟨fun addr outside => kept.free_eq_self_iff outside, ?_, ?_⟩
  · intro nonzero
    rcases pmmAllocBlock_cases l.pmm with ⟨k, least, result⟩ | ⟨_, result⟩
    · have free := mem_freeBlocks.mp (kept.mem_freeBlocks_iff.mp least.1).1
      rw [result]
      exact ⟨k.toNat, mul_4096_eq_blockAddr k, free⟩
    · rw [result] at nonzero
      contradiction
  · intro zero
    rcases pmmAllocBlock_cases l.pmm with ⟨k, least, result⟩ | ⟨full, _⟩
    · have wasFree := (kept.mem_freeBlocks_iff.mp least.1).1
      have bound := (mem_freeBlocks.mp wasFree).1
      rw [result, mul_4096_eq_blockAddr, blockAddr_eq_zero_iff (by omega)] at zero
      exact absurd (zero ▸ wasFree) zeroReserved
    · rw [← kept.maxBlocks]
      exact freeBlocks_eq_empty_iff.mp full

/-- The allocator is sturdy in every state of every run whose frees outside the
blocks handed out are harmless; `pmm_initialize` manages fewer than 2^20 blocks. -/
theorem sturdy_of_harmless (small : start.maxBlocks.toNat < 2 ^ 20)
    (zeroReserved : 0 ∉ start.freeBlocks) (run : Run (Harmless start) ⟨start, ∅⟩ l) :
    Sturdy start l := (Kept.run small zeroReserved run).sturdy small zeroReserved

/-! ## Frees of reserved blocks -/

theorem mem_freeBlocks_give {s : Pmm} {k : Word} {j : ℕ} (bound : k.toNat < s.maxBlocks.toNat) :
    j ∈ (s.give k).freeBlocks ↔ j ∈ s.freeBlocks ∨ j = k.toNat := by
  rw [mem_freeBlocks, mem_freeBlocks, give_maxBlocks]
  by_cases managed : j < s.maxBlocks.toNat
  · have small := s.maxBlocks.isLt
    rw [bit_give s k (by omega)]
    by_cases same : j = k.toNat
    · simp [same, bound]
    · simp [same]
  · have other : j ≠ k.toNat := by omega
    simp [managed, other]

/-- A free of a reserved block lets a later call return that block; for block 0
the next call reports that nothing is free. -/
theorem Kept.reserved_misfires (kept : Kept start l) (small : start.maxBlocks.toNat < 2 ^ 20)
    (zeroReserved : 0 ∉ start.freeBlocks) {addr : Word}
    (managed : addr.toNat / 4096 < start.maxBlocks.toNat)
    (reserved : start.bit (addr.toNat / 4096) = true) :
    (addr.toNat / 4096 ≠ 0 ∧ Returned (pmmFreeBlock l.pmm addr) (addr.toNat / 4096)) ∨
    (addr.toNat / 4096 = 0 ∧ (pmmAllocBlock (pmmFreeBlock l.pmm addr)).2 = 0 ∧
      l.pmm.freeBlocks ⊆ (pmmFreeBlock l.pmm addr).freeBlocks) := by
  have size := kept.maxBlocks
  have freed : ∀ j, j ∈ (pmmFreeBlock l.pmm addr).freeBlocks ↔
      j ∈ l.pmm.freeBlocks ∨ j = addr.toNat / 4096 := by
    intro j
    rcases pmmFreeBlock_cases l.pmm addr with ⟨_, result⟩ | ⟨clear, _⟩
    · rw [result, ← toNat_div_4096]
      exact mem_freeBlocks_give (by rw [toNat_div_4096, size]; exact managed)
    · rw [(kept.bits _ managed).mpr (Or.inl reserved)] at clear
      contradiction
  have member := (freed _).mpr (Or.inr rfl)
  by_cases zero : addr.toNat / 4096 = 0
  · right
    refine ⟨zero, ?_, fun j free => (freed j).mpr (Or.inl free)⟩
    exact pmmAllocBlock_of_isLeast ⟨zero ▸ member, fun j _ => Nat.zero_le j⟩
  · left
    refine ⟨zero, returned_of_free _ (by rwa [pmmFreeBlock_maxBlocks, size]) ?_ member⟩
    intro free
    rcases (freed 0).mp free with before | same
    · exact zeroReserved (kept.mem_freeBlocks_iff.mp before).1
    · exact zero same.symm

/-- On the map with one region at 1 MiB, blocks 317, 318 and 319 are free after
`pmm_initialize` and all others are reserved. -/
theorem lowRegion_freeBlocks {fuel : ℕ} {s : Pmm}
    (finishes : pmmInitialize fuel 0x13C000 0x9000 lowRegionMem = some s) {k : ℕ} :
    k ∈ s.freeBlocks ↔ 317 ≤ k ∧ k < 320 := by
  have booted := pmmInitialize_booted finishes lowRegion_met
  have size : s.maxBlocks.toNat = 320 := by
    rw [booted.maxBlocks]
    decide
  have table : ∀ j < 320, FreeAtBoot 0x13C000 (MultibootInfo.load lowRegionMem 0x9000)
      lowRegionMem lowRegion j ↔ 317 ≤ j := by decide +kernel
  rw [mem_freeBlocks, size]
  constructor
  · rintro ⟨bound, clear⟩
    exact ⟨(table k bound).mp ((booted.bits k (by omega)).mp clear), bound⟩
  · rintro ⟨high, bound⟩
    exact ⟨bound, (booted.bits k (by omega)).mpr ((table k bound).mpr high)⟩

/-- Block 317 is handed out, given back and then freed once more. -/
theorem sturdy_of_harmless_doubleFree :
    ∃ fuel s l, pmmInitialize fuel 0x13C000 0x9000 lowRegionMem = some s ∧
      Run (Harmless s) ⟨s, ∅⟩ l ∧ Sturdy s l := by
  obtain ⟨fuel, s, finishes⟩ := lowRegion_finishes
  have zeroReserved : 0 ∉ s.freeBlocks := by
    rw [lowRegion_freeBlocks finishes]
    omega
  have isFree : 317 ∈ s.freeBlocks := (lowRegion_freeBlocks finishes).mpr (by omega)
  have result : (pmmAllocBlock s).2 = 0x13D000 :=
    pmmAllocBlock_of_isLeast ⟨isFree, fun j free => ((lowRegion_freeBlocks finishes).mp free).1⟩
  have first : Step (Harmless s) ⟨s, ∅⟩ ⟨(pmmAllocBlock s).1, {317}⟩ := by
    have step : Step (Harmless s) ⟨s, ∅⟩ _ := .alloc s ∅
    rw [result] at step
    exact step
  have second : Step (Harmless s) ⟨(pmmAllocBlock s).1, {317}⟩
      ⟨pmmFreeBlock (pmmAllocBlock s).1 0x13D000, ∅⟩ :=
    .free (pmmAllocBlock s).1 {317} 0x13D000 (Finset.mem_singleton.mpr rfl)
  have harmless : ∀ s', Harmless s s' 0x13D000 := by
    have wasFree := mem_freeBlocks.mp isFree
    exact fun s' => (if_pos wasFree.1).mpr wasFree.2
  have third : Step (Harmless s) ⟨pmmFreeBlock (pmmAllocBlock s).1 0x13D000, ∅⟩ _ :=
    .invalidFree _ ∅ 0x13D000 (Finset.notMem_empty _) (harmless _)
  have run := ((Relation.ReflTransGen.single first).tail second).tail third
  exact ⟨fuel, s, _, finishes, run, sturdy_of_harmless
    (pmmInitialize_booted finishes lowRegion_met).maxBlocks_lt zeroReserved run⟩

/-- After `pmm_free_block(0)` the next allocation returns 0 although block 317
is free; after a free of the first kernel block, that block is returned. -/
theorem reserved_blocks_freed :
    ∃ fuel s, pmmInitialize fuel 0x13C000 0x9000 lowRegionMem = some s ∧
      pmmFreeBlock s 0 ≠ s ∧ (pmmAllocBlock (pmmFreeBlock s 0)).2 = 0 ∧
      317 ∈ (pmmFreeBlock s 0).freeBlocks ∧
      s.bit 256 = true ∧ Returned (pmmFreeBlock s 0x100000) 256 := by
  obtain ⟨fuel, s, finishes⟩ := lowRegion_finishes
  have booted := pmmInitialize_booted finishes lowRegion_met
  have size : s.maxBlocks.toNat = 320 := by
    rw [booted.maxBlocks]
    decide
  have reserved : ∀ k < 317, s.bit k = true := by
    intro k low
    by_contra clear
    have free := mem_freeBlocks.mpr ⟨by omega, Bool.eq_false_of_not_eq_true clear⟩
    have high := ((lowRegion_freeBlocks finishes).mp free).1
    omega
  have zeroReserved : 0 ∉ s.freeBlocks := by
    rw [lowRegion_freeBlocks finishes]
    omega
  have isFree : 317 ∈ s.freeBlocks := (lowRegion_freeBlocks finishes).mpr (by omega)
  have small := booted.maxBlocks_lt
  have kept := Kept.run small zeroReserved .refl
  have zeroManaged : (0 : Word).toNat / 4096 < s.maxBlocks.toNat := by
    rw [size]
    decide
  have kernelManaged : (0x100000 : Word).toNat / 4096 < s.maxBlocks.toNat := by
    rw [size]
    decide
  refine ⟨fuel, s, finishes, ?_, ?_⟩
  · rw [ne_eq, pmmFreeBlock_eq_self_iff, Bool.not_eq_false]
    exact reserved 0 (by simp)
  · rcases kept.reserved_misfires small zeroReserved zeroManaged (reserved _ (by decide)) with
      ⟨nonzero, _⟩ | ⟨_, denied, free⟩
    · exact absurd rfl nonzero
    rcases kept.reserved_misfires small zeroReserved kernelManaged (reserved _ (by decide)) with
      ⟨_, returned⟩ | ⟨zero, _⟩
    · exact ⟨denied, free isFree, reserved 256 (by simp), returned⟩
    · exact absurd zero (by decide)

end Lending

end OrbitOs.Memory
