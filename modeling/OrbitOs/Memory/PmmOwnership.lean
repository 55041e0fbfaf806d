import OrbitOs.Memory.Blocks

/-!
# Who owns which block

A ledger is an allocator state together with the addresses that
`pmm_alloc_block` returned and that were not freed since.  Every ledger step is
a step of the abstract slot pool, so the pool's ownership theorem carries over
to runs of any length.
-/

set_option autoImplicit false

namespace OrbitOs.Memory

open OrbitOs.Machine OrbitOs.Base

structure Ledger where
  pmm : Pmm
  held : List Word

namespace Ledger

open Pmm

/-- Calls of the allocator in which only held addresses are freed. -/
inductive Step : Ledger → Ledger → Prop
  | alloc (s : Pmm) (held : List Word) :
      Step ⟨s, held⟩ ⟨(pmmAllocBlock s).1,
        if (pmmAllocBlock s).2 = 0 then held else (pmmAllocBlock s).2 :: held⟩
  | free (s : Pmm) (held : List Word) (addr : Word) (owned : addr ∈ held) :
      Step ⟨s, held⟩ ⟨pmmFreeBlock s addr, held.erase addr⟩

abbrev Run : Ledger → Ledger → Prop := Relation.ReflTransGen Step

/-- The ledger realises the pool, and block 0 cannot be handed out. -/
structure Realises (capacity : ℕ) (l : Ledger) (pool : Pool) : Prop where
  cap : l.pmm.maxBlocks.toNat = capacity
  zeroUsed : 0 ∈ pool.used
  zeroKept : 0 ∉ pool.held
  used : pool.used = l.pmm.inUse
  held : l.held = pool.held.map blockAddr

theorem inUse_take (s : Pmm) (k : Word) : (s.take k).inUse = insert k.toNat s.inUse := by
  ext j
  simp only [inUse, Set.mem_insert_iff, Set.mem_ofPred_eq]
  constructor
  · rintro ⟨bound, set⟩
    rw [bit_take s k bound] at set
    simp only [Bool.or_eq_true, decide_eq_true_eq] at set
    exact set.imp_right fun old => ⟨bound, old⟩
  · rintro (rfl | ⟨bound, set⟩)
    · exact ⟨k.isLt, by simp [bit_take s k k.isLt]⟩
    · exact ⟨bound, by simp [bit_take s k bound, set]⟩

theorem inUse_give (s : Pmm) (k : Word) : (s.give k).inUse = s.inUse \ {k.toNat} := by
  ext j
  simp only [inUse, Set.mem_sdiff, Set.mem_singleton_iff, Set.mem_ofPred_eq]
  constructor
  · rintro ⟨bound, set⟩
    rw [bit_give s k bound] at set
    simp only [Bool.and_eq_true, Bool.not_eq_true', decide_eq_false_iff_not] at set
    exact ⟨⟨bound, set.2⟩, set.1⟩
  · rintro ⟨⟨bound, set⟩, ne⟩
    exact ⟨bound, by simp [bit_give s k bound, set, ne]⟩

section Simulation

variable {capacity : ℕ} {initial : Set ℕ} {l next : Ledger} {pool : Pool}

theorem step_simulated (small : capacity < 2 ^ 20) (owned : Pool.Owned capacity initial pool)
    (realises : Realises capacity l pool) (step : Step l next) :
    ∃ pool', Pool.Step capacity pool pool' ∧ Realises capacity next pool' := by
  obtain ⟨cap, zeroUsed, zeroKept, used, held⟩ := realises
  cases step with
  | alloc s heldAddrs =>
      dsimp only at cap used held
      have freeEq : freeSlots capacity pool.used = s.freeBlocks := by
        rw [freeBlocks, cap, used]
      rcases pmmAllocBlock_cases s with ⟨k, least, result⟩ | ⟨full, result⟩
      · have bound : k.toNat < capacity := by
          rw [← cap]
          exact (mem_freeBlocks.mp least.1).1
        have nonzero : k.toNat ≠ 0 := by
          intro zero
          rw [← freeEq] at least
          exact least.1.2 (zero ▸ zeroUsed)
        have addrNe : k * 4096 ≠ 0 := by
          rw [mul_4096_eq_blockAddr, ne_eq, blockAddr_eq_zero_iff (by omega)]
          exact nonzero
        have lowest : IsLeast (freeSlots capacity pool.used) k.toNat := freeEq ▸ least
        refine ⟨_, Pool.Step.take lowest, ?_⟩
        rw [result]
        dsimp only
        rw [if_neg addrNe]
        refine ⟨cap, Or.inr zeroUsed, ?_, ?_, ?_⟩
        · simpa using ⟨Ne.symm nonzero, zeroKept⟩
        · dsimp only
          rw [used, inUse_take]
        · dsimp only
          rw [held, List.map_cons, mul_4096_eq_blockAddr]
      · rw [result]
        exact ⟨pool, Pool.Step.deny (freeEq ▸ full), cap, zeroUsed, zeroKept, used, held⟩
  | free s heldAddrs addr mine =>
      dsimp only at cap used held
      rw [held] at mine
      obtain ⟨k, kHeld, rfl⟩ := List.mem_map.mp mine
      have bound := owned.bounded k kHeld
      have index : (blockAddr k / 4096).toNat = k := toNat_blockAddr_div (by omega)
      have setBit : s.bit k = true := by
        have member : k ∈ pool.used := (owned.exact k).mpr (Or.inr kHeld)
        rw [used] at member
        exact member.2
      have separated : ∀ j ∈ pool.held, blockAddr j = blockAddr k → j = k := by
        intro j jHeld same
        have jBound := owned.bounded j jHeld
        have := congrArg BitVec.toNat same
        rw [toNat_blockAddr (by omega), toNat_blockAddr (by omega)] at this
        omega
      refine ⟨_, Pool.Step.give kHeld, ?_⟩
      rcases pmmFreeBlock_cases s (blockAddr k) with ⟨_, result⟩ | ⟨clear, _⟩
      · rw [result]
        have kNe : k ≠ 0 := fun h => zeroKept (h ▸ kHeld)
        refine ⟨cap, ⟨zeroUsed, fun h => kNe h.symm⟩,
          fun h => zeroKept (List.mem_of_mem_erase h), ?_, ?_⟩
        · dsimp only
          rw [used, inUse_give, index]
        · dsimp only
          rw [held, erase_map_of_separated blockAddr separated]
      · rw [toNat_blockAddr (by omega), Nat.mul_div_cancel_left k (by simp)] at clear
        rw [clear] at setBit
        contradiction

theorem run_simulated (small : capacity < 2 ^ 20) (owned : Pool.Owned capacity initial pool)
    (realises : Realises capacity l pool) (run : Run l next) :
    ∃ pool', Pool.Owned capacity initial pool' ∧ Realises capacity next pool' := by
  induction run with
  | refl => exact ⟨pool, owned, realises⟩
  | tail _ step ih =>
      obtain ⟨middle, middleOwned, middleRealises⟩ := ih
      obtain ⟨last, poolStep, lastRealises⟩ :=
        step_simulated small middleOwned middleRealises step
      exact ⟨last, middleOwned.step poolStep, lastRealises⟩

end Simulation

/-- What a caller may rely on in a ledger reached from `start`. -/
structure Exclusive (start : Pmm) (l : Ledger) : Prop where
  /-- The set bits are the initially set ones and those of the held blocks. -/
  bits : ∀ k < 2 ^ 32, l.pmm.bit k = true ↔
    start.bit k = true ∨ ∃ addr ∈ l.held, addr.toNat = 4096 * k
  distinct : l.held.Nodup
  /-- A non-zero result is the address of the lowest free block, which was free
  at the start and belongs to nobody. -/
  result : (pmmAllocBlock l.pmm).2 ≠ 0 → ∃ k, (pmmAllocBlock l.pmm).2.toNat = 4096 * k ∧
    IsLeast {j | j < start.maxBlocks.toNat ∧ l.pmm.bit j = false} k ∧
    start.bit k = false ∧ (pmmAllocBlock l.pmm).2 ∉ l.held
  /-- Zero means that no block is free. -/
  exhausted : (pmmAllocBlock l.pmm).2 = 0 ↔ ∀ k < start.maxBlocks.toNat, l.pmm.bit k = true

theorem Realises.exclusive {start : Pmm} {l : Ledger} {pool : Pool}
    (small : start.maxBlocks.toNat < 2 ^ 20)
    (owned : Pool.Owned start.maxBlocks.toNat start.inUse pool)
    (realises : Realises start.maxBlocks.toNat l pool) : Exclusive start l := by
  obtain ⟨cap, zeroUsed, zeroKept, used, held⟩ := realises
  have heldIff : ∀ k, k ∈ pool.held ↔ ∃ addr ∈ l.held, addr.toNat = 4096 * k := by
    intro k
    rw [held]
    constructor
    · intro member
      have bound := owned.bounded k member
      exact ⟨blockAddr k, List.mem_map_of_mem member, toNat_blockAddr (by omega)⟩
    · rintro ⟨addr, member, value⟩
      obtain ⟨j, jHeld, rfl⟩ := List.mem_map.mp member
      have bound := owned.bounded j jHeld
      rw [toNat_blockAddr (by omega)] at value
      exact (by omega : j = k) ▸ jHeld
  have freeSet : l.pmm.freeBlocks = {j | j < start.maxBlocks.toNat ∧ l.pmm.bit j = false} := by
    ext j
    rw [mem_freeBlocks, cap]
    rfl
  have leastFacts : ∀ k : Word, IsLeast l.pmm.freeBlocks k.toNat →
      k.toNat < start.maxBlocks.toNat ∧ k.toNat ∉ start.inUse ∧ k.toNat ∉ pool.held ∧
        k.toNat ≠ 0 := by
    intro k least
    have free := mem_freeBlocks.mp least.1
    have unused : k.toNat ∉ pool.used := by
      rw [used]
      rintro ⟨_, set⟩
      rw [free.2] at set
      contradiction
    have split := mt (owned.exact k.toNat).mpr unused
    rw [not_or] at split
    exact ⟨cap ▸ free.1, split.1, split.2, fun zero => unused (zero ▸ zeroUsed)⟩
  refine ⟨?_, ?_, ?_, ?_⟩
  · intro k bound
    have inUseIff : ∀ s : Pmm, k ∈ s.inUse ↔ s.bit k = true := fun s =>
      ⟨fun h => h.2, fun h => ⟨bound, h⟩⟩
    rw [← inUseIff, ← inUseIff, ← used, owned.exact k, heldIff k]
  · rw [held]
    apply List.Nodup.map_on _ owned.nodup
    intro j jHeld k kHeld same
    have jBound := owned.bounded j jHeld
    have kBound := owned.bounded k kHeld
    have := congrArg BitVec.toNat same
    rw [toNat_blockAddr (by omega), toNat_blockAddr (by omega)] at this
    omega
  · rcases pmmAllocBlock_cases l.pmm with ⟨k, least, result⟩ | ⟨_, result⟩
    · intro _
      obtain ⟨bound, initiallyFree, notHeld, _⟩ := leastFacts k least
      rw [result]
      dsimp only
      rw [mul_4096_eq_blockAddr]
      refine ⟨k.toNat, toNat_blockAddr (by omega), freeSet ▸ least, ?_, ?_⟩
      · exact Bool.eq_false_of_not_eq_true fun set => initiallyFree ⟨k.isLt, set⟩
      · rw [heldIff] at notHeld
        exact fun member => notHeld ⟨_, member, toNat_blockAddr (by omega)⟩
    · intro nonzero
      rw [result] at nonzero
      exact absurd rfl nonzero
  · rw [← cap, ← freeBlocks_eq_empty_iff]
    rcases pmmAllocBlock_cases l.pmm with ⟨k, least, result⟩ | ⟨full, result⟩
    · obtain ⟨bound, _, _, nonzero⟩ := leastFacts k least
      rw [result]
      dsimp only
      rw [mul_4096_eq_blockAddr, blockAddr_eq_zero_iff (by omega)]
      constructor
      · intro zero
        exact absurd zero nonzero
      · intro empty
        rw [empty] at least
        exact absurd least.1 (Set.notMem_empty _)
    · simp [result, full]

/-- Exclusive ownership over runs of any length: from every bitmap with bit 0
set, frees of held addresses only. -/
theorem exclusive_ownership (start : Pmm) (small : start.maxBlocks.toNat < 2 ^ 20)
    (zeroUsed : start.bit 0 = true) (l : Ledger) (run : Run ⟨start, []⟩ l) :
    Exclusive start l := by
  have realises : Realises start.maxBlocks.toNat ⟨start, []⟩ ⟨start.inUse, []⟩ :=
    ⟨rfl, ⟨by decide, zeroUsed⟩, by simp, rfl, rfl⟩
  obtain ⟨pool, owned, endRealises⟩ :=
    run_simulated small (Pool.owned_start _ _) realises run
  exact endRealises.exclusive small owned

/-- Four blocks with block 0 in use, the bitmap at 2 MiB. -/
def fourBlocks : Pmm := ⟨fun x => if x = 0x200000 then 1 else 0, 0x200000, 4, 1⟩

/-- Blocks 1 and 2 are taken and block 1 is given back. -/
theorem exclusive_ownership_fourBlocks :
    ∃ l, Run ⟨fourBlocks, []⟩ l ∧ l.held = [0x2000] ∧ Exclusive fourBlocks l := by
  have first : Step ⟨fourBlocks, []⟩ ⟨(pmmAllocBlock fourBlocks).1, [0x1000]⟩ :=
    .alloc fourBlocks []
  have second : Step ⟨(pmmAllocBlock fourBlocks).1, [0x1000]⟩
      ⟨(pmmAllocBlock (pmmAllocBlock fourBlocks).1).1, [0x2000, 0x1000]⟩ := .alloc _ _
  have third := Step.free (pmmAllocBlock (pmmAllocBlock fourBlocks).1).1 [0x2000, 0x1000] 0x1000
    (by simp)
  have run := ((Relation.ReflTransGen.single first).tail second).tail third
  exact ⟨_, run, by decide, exclusive_ownership fourBlocks (by decide) (by decide) _ run⟩

end Ledger

end OrbitOs.Memory
