import OrbitOs.Memory.PmmMap
import OrbitOs.Memory.PmmOwnership

/-!
# The block counter and the bitmap

`pmm_used_blocks` is kept beside the bitmap.  Allocation and free move both
together, so they agree over a whole run as soon as they agree after
`pmm_initialize`; and there they agree exactly when the sweep takes as many
steps as it frees blocks.
-/

set_option autoImplicit false

namespace OrbitOs.Memory

open OrbitOs.Machine OrbitOs.Kernel OrbitOs.Base

namespace Pmm

/-- The number of set bits at indices below `pmm_max_blocks`. -/
def setBits (s : Pmm) : ℕ := (usedSlots s.maxBlocks.toNat s.bit).card

/-- The result of the call number `n` (from 0) of a series of allocations. -/
def nthAlloc (s : Pmm) : ℕ → Word
  | 0 => (pmmAllocBlock s).2
  | n + 1 => nthAlloc (pmmAllocBlock s).1 n

/-- The books of the allocator are in order. -/
structure Accounted (s : Pmm) : Prop where
  counter : s.usedBlocks.toNat = s.setBits
  bounded : s.usedBlocks ≤ s.maxBlocks
  figures : (pmmGetTotalMemory s).toNat =
    (pmmGetUsedMemory s).toNat + (pmmGetFreeMemory s).toNat
  successes : ∀ n, nthAlloc s n ≠ 0 ↔ n < (pmmGetFreeMemory s).toNat / 4096

end Pmm

/-! ## Runs -/

/-- The allocator and every non-zero address it has returned so far. -/
structure History where
  pmm : Pmm
  returned : List Word

namespace History

open Pmm

/-- Allocations, and frees of addresses handed out before (repeated frees too). -/
inductive Step : History → History → Prop
  | alloc (s : Pmm) (returned : List Word) :
      Step ⟨s, returned⟩ ⟨(pmmAllocBlock s).1,
        if (pmmAllocBlock s).2 = 0 then returned else (pmmAllocBlock s).2 :: returned⟩
  | free (s : Pmm) (returned : List Word) (addr : Word) (known : addr ∈ returned) :
      Step ⟨s, returned⟩ ⟨pmmFreeBlock s addr, returned⟩

abbrev Run : History → History → Prop := Relation.ReflTransGen Step

/-- The counter agrees with the bitmap, block 0 stays used, and returned
addresses are addresses of other blocks. -/
structure Balanced (h : History) : Prop where
  small : h.pmm.maxBlocks.toNat < 2 ^ 20
  counter : h.pmm.usedBlocks.toNat = h.pmm.setBits
  zeroUsed : 0 < h.pmm.maxBlocks.toNat → h.pmm.bit 0 = true
  known : ∀ addr ∈ h.returned,
    ∃ k, k ≠ 0 ∧ k < h.pmm.maxBlocks.toNat ∧ addr = blockAddr k

theorem setBits_le (s : Pmm) : s.setBits ≤ s.maxBlocks.toNat := card_usedSlots_le _ _

theorem setBits_take {s : Pmm} {k : Word} (free : k.toNat ∈ s.freeBlocks) :
    (s.take k).setBits = s.setBits + 1 := by
  obtain ⟨bound, clear⟩ := mem_freeBlocks.mp free
  have small := s.maxBlocks.isLt
  exact card_usedSlots_take bound clear fun j jBound => bit_take s k (by omega)

theorem setBits_give {s : Pmm} {k : Word} (bound : k.toNat < s.maxBlocks.toNat)
    (set : s.bit k.toNat = true) : s.setBits = (s.give k).setBits + 1 := by
  have small := s.maxBlocks.isLt
  exact card_usedSlots_give bound set fun j jBound => bit_give s k (by omega)

theorem Balanced.take {s : Pmm} {returned : List Word} (balanced : Balanced ⟨s, returned⟩)
    {k : Word} (free : k.toNat ∈ s.freeBlocks) :
    k.toNat ≠ 0 ∧ Balanced ⟨s.take k, k * 4096 :: returned⟩ := by
  obtain ⟨small, counter, zeroUsed, known⟩ := balanced
  dsimp only at small counter zeroUsed known
  obtain ⟨bound, clear⟩ := mem_freeBlocks.mp free
  have nonzero : k.toNat ≠ 0 := by
    intro zero
    rw [zero, zeroUsed (by omega)] at clear
    contradiction
  refine ⟨nonzero, small, ?_, ?_, ?_⟩
  · have grown := setBits_take free
    have le := setBits_le (s.take k)
    have value : (s.take k).usedBlocks = s.usedBlocks + 1 := rfl
    dsimp only
    rw [grown, take_maxBlocks] at le
    rw [grown, value]
    bv_omega
  · intro positive
    dsimp only
    rw [bit_take s k (by simp), zeroUsed positive, Bool.or_true]
  · intro addr member
    rcases List.mem_cons.mp member with rfl | member
    · exact ⟨k.toNat, nonzero, bound, mul_4096_eq_blockAddr k⟩
    · exact known addr member

theorem Balanced.step {h next : History} (balanced : Balanced h) (step : Step h next) :
    Balanced next := by
  cases step with
  | alloc s returned =>
      rcases pmmAllocBlock_cases s with ⟨k, least, result⟩ | ⟨_, result⟩
      · obtain ⟨nonzero, after⟩ := balanced.take least.1
        have bound := (mem_freeBlocks.mp least.1).1
        have small := balanced.small
        dsimp only at small
        have addrNe : k * 4096 ≠ 0 := by
          rw [mul_4096_eq_blockAddr, ne_eq, blockAddr_eq_zero_iff (by omega)]
          exact nonzero
        rw [result]
        dsimp only
        rw [if_neg addrNe]
        exact after
      · rw [result]
        exact balanced
  | free s returned addr isKnown =>
      obtain ⟨small, counter, zeroUsed, known⟩ := balanced
      dsimp only at small counter zeroUsed known
      obtain ⟨k, nonzero, bound, rfl⟩ := known addr isKnown
      have index : (blockAddr k / 4096).toNat = k := toNat_blockAddr_div (by omega)
      rcases pmmFreeBlock_cases s (blockAddr k) with ⟨set, result⟩ | ⟨_, result⟩
      · rw [toNat_blockAddr (by omega), Nat.mul_div_cancel_left k (by simp)] at set
        have shrunk := @setBits_give s (blockAddr k / 4096) (by omega) (by rwa [index])
        rw [result]
        refine ⟨small, ?_, ?_, known⟩
        · have value : (s.give (blockAddr k / 4096)).usedBlocks = s.usedBlocks - 1 := rfl
          dsimp only
          rw [value]
          bv_omega
        · intro positive
          dsimp only
          rw [bit_give s _ (by simp), index, zeroUsed positive]
          simp [Ne.symm nonzero]
      · rw [result]
        exact ⟨small, counter, zeroUsed, known⟩

theorem Balanced.run {h next : History} (balanced : Balanced h) (run : Run h next) :
    Balanced next := by
  induction run with
  | refl => exact balanced
  | tail _ step ih => exact ih.step step

/-! ## Balanced books are in order -/

theorem toNat_freeMemory {s : Pmm} (small : s.maxBlocks.toNat < 2 ^ 20)
    (bounded : s.usedBlocks.toNat ≤ s.maxBlocks.toNat) :
    (pmmGetFreeMemory s).toNat = (s.maxBlocks.toNat - s.usedBlocks.toNat) * 4096 := by
  have difference : (s.maxBlocks - s.usedBlocks).toNat =
      s.maxBlocks.toNat - s.usedBlocks.toNat := by bv_omega
  rw [pmmGetFreeMemory, toNat_mul_4096 (by omega), difference]

theorem Balanced.successes {h : History} (balanced : Balanced h) (n : ℕ) :
    nthAlloc h.pmm n ≠ 0 ↔ n < h.pmm.maxBlocks.toNat - h.pmm.usedBlocks.toNat := by
  induction n generalizing h with
  | zero =>
      have full := @card_usedSlots_eq_iff h.pmm.maxBlocks.toNat h.pmm.bit
      have counter := balanced.counter
      have le := setBits_le h.pmm
      have small := balanced.small
      unfold setBits at counter le
      rw [nthAlloc]
      rcases pmmAllocBlock_cases h.pmm with ⟨k, least, result⟩ | ⟨empty, result⟩
      · have free := mem_freeBlocks.mp least.1
        have nonzero := (balanced.take least.1).1
        have notFull : (usedSlots h.pmm.maxBlocks.toNat h.pmm.bit).card ≠
            h.pmm.maxBlocks.toNat := by
          intro isFull
          rw [full.mp isFull k.toNat free.1] at free
          exact absurd free.2 (by simp)
        rw [result, mul_4096_eq_blockAddr, ne_eq, blockAddr_eq_zero_iff (by omega)]
        omega
      · rw [result]
        have isFull := full.mpr (freeBlocks_eq_empty_iff.mp empty)
        simp only [ne_eq, not_true, false_iff]
        omega
  | succ n ih =>
      rw [nthAlloc]
      rcases pmmAllocBlock_cases h.pmm with ⟨k, least, result⟩ | ⟨empty, result⟩
      · have after := (balanced.take least.1).2
        have le := setBits_le (h.pmm.take k)
        have grown := setBits_take least.1
        have before := balanced.counter
        have afterCounter := after.counter
        dsimp only at afterCounter
        have this := ih after
        dsimp only at this
        rw [take_maxBlocks] at this le
        rw [result, this]
        omega
      · have full := @card_usedSlots_eq_iff h.pmm.maxBlocks.toNat h.pmm.bit
        have isFull := full.mpr (freeBlocks_eq_empty_iff.mp empty)
        have counter := balanced.counter
        unfold setBits at counter
        rw [result, ih balanced]
        omega

theorem Balanced.accounted {h : History} (balanced : Balanced h) : Accounted h.pmm := by
  have le := setBits_le h.pmm
  have counter := balanced.counter
  have small := balanced.small
  have bounded : h.pmm.usedBlocks.toNat ≤ h.pmm.maxBlocks.toNat := by omega
  have free := toNat_freeMemory small bounded
  refine ⟨counter, by rwa [BitVec.le_def], ?_, ?_⟩
  · rw [free, pmmGetTotalMemory, pmmGetUsedMemory, toNat_mul_4096 small,
      toNat_mul_4096 (by omega)]
    omega
  · intro n
    rw [balanced.successes n, free, Nat.mul_div_cancel _ (by simp)]

end History

/-! ## The sweep and the counter -/

namespace Pmm

/-- The blocks below `pmm_max_blocks` that are free after initialisation. -/
def freedAtBoot (kernelEnd : Word) (info : MultibootInfo) (mem : Mem)
    (es : List MultibootMmapEntry) : Finset ℕ :=
  (Finset.range (maxBlocksOf info).toNat).filter (FreeAtBoot kernelEnd info mem es)

/-- The sweep over the memory map takes as many steps as there are free blocks
below `pmm_max_blocks` afterwards, and block 0 is none of them. -/
def SweepCounts (kernelEnd : Word) (info : MultibootInfo) (mem : Mem)
    (es : List MultibootMmapEntry) : Prop :=
  (swept (watermark kernelEnd info) es).length % 2 ^ 32 =
      (freedAtBoot kernelEnd info mem es).card ∧
    0 ∉ freedAtBoot kernelEnd info mem es

variable {kernelEnd mbi : Word} {info : MultibootInfo} {mem : Mem}
  {es : List MultibootMmapEntry} {s : Pmm}

theorem Booted.setBits_add_freed (booted : Booted kernelEnd info mem es s) :
    s.setBits + (freedAtBoot kernelEnd info mem es).card = (maxBlocksOf info).toNat := by
  have small := maxBlocksOf_lt info
  have complement : usedSlots s.maxBlocks.toNat s.bit =
      (Finset.range (maxBlocksOf info).toNat).filter
        fun k => ¬ FreeAtBoot kernelEnd info mem es k := by
    ext k
    rw [mem_usedSlots, Finset.mem_filter, Finset.mem_range, booted.maxBlocks]
    refine and_congr_right fun bound => ?_
    rw [← booted.bits k (by omega), Bool.not_eq_false]
  rw [setBits, complement, freedAtBoot, Nat.add_comm,
    Finset.card_filter_add_card_filter_not, Finset.card_range]

theorem Booted.counter_iff (booted : Booted kernelEnd info mem es s) :
    s.usedBlocks.toNat = s.setBits ↔ (swept (watermark kernelEnd info) es).length % 2 ^ 32 =
      (freedAtBoot kernelEnd info mem es).card := by
  have total := booted.setBits_add_freed
  have small := maxBlocksOf_lt info
  have value : s.usedBlocks.toNat = ((maxBlocksOf info).toNat + (2 ^ 32 -
      (swept (watermark kernelEnd info) es).length % 2 ^ 32)) % 2 ^ 32 := by
    rw [booted.usedBlocks, BitVec.toNat_sub, BitVec.toNat_ofNat, Nat.add_comm]
  rw [value]
  have lenBound := Nat.mod_lt (swept (watermark kernelEnd info) es).length
    (by decide : 0 < 2 ^ 32)
  omega

/-- The books are in order in every state of every run after `pmm_initialize`
exactly when the sweep's steps count the freed blocks. -/
theorem accounted_iff_sweepCounts {fuel : ℕ}
    (finishes : pmmInitialize fuel kernelEnd mbi mem = some s) (met : Met kernelEnd mbi mem es) :
    (∀ h, History.Run ⟨s, []⟩ h → Accounted h.pmm) ↔
      SweepCounts kernelEnd (MultibootInfo.load mem mbi) mem es := by
  have booted := pmmInitialize_booted finishes met
  have zeroIff : 0 ∈ freedAtBoot kernelEnd (MultibootInfo.load mem mbi) mem es ↔
      0 < s.maxBlocks.toNat ∧ s.bit 0 = false := by
    rw [freedAtBoot, Finset.mem_filter, Finset.mem_range, booted.maxBlocks,
      booted.bits 0 (by simp)]
  constructor
  · intro always
    have accounted := always ⟨s, []⟩ .refl
    refine ⟨booted.counter_iff.mp accounted.counter, ?_⟩
    intro zeroFree
    have clear := zeroIff.mp zeroFree
    have firstZero : nthAlloc s 0 = 0 :=
      pmmAllocBlock_of_isLeast ⟨mem_freeBlocks.mpr clear, fun k _ => Nat.zero_le k⟩
    have none := mt (accounted.successes 0).mpr (not_not.mpr firstZero)
    have free := @History.toNat_freeMemory s booted.maxBlocks_lt
      (by simpa [BitVec.le_def] using accounted.bounded)
    have full := @card_usedSlots_eq_iff s.maxBlocks.toNat s.bit
    have counter : s.usedBlocks.toNat = s.setBits := accounted.counter
    have le := History.setBits_le s
    unfold setBits at counter le
    rw [free, Nat.mul_div_cancel _ (by simp)] at none
    rw [full.mp (by omega) 0 clear.1] at clear
    exact absurd clear.2 (by simp)
  · rintro ⟨counts, zeroUsed⟩ h run
    have start : History.Balanced ⟨s, []⟩ := by
      refine ⟨booted.maxBlocks_lt, booted.counter_iff.mpr counts, ?_, by simp⟩
      intro positive
      by_contra clear
      exact zeroUsed (zeroIff.mpr ⟨positive, Bool.eq_false_of_not_eq_true clear⟩)
    exact (start.run run).accounted

theorem balanced_of_sweepCounts {fuel : ℕ}
    (finishes : pmmInitialize fuel kernelEnd mbi mem = some s) (met : Met kernelEnd mbi mem es)
    (counts : SweepCounts kernelEnd (MultibootInfo.load mem mbi) mem es) :
    History.Balanced ⟨s, []⟩ := by
  have booted := pmmInitialize_booted finishes met
  refine ⟨booted.maxBlocks_lt, booted.counter_iff.mpr counts.1, fun positive => ?_, by simp⟩
  by_contra clear
  refine counts.2 ?_
  rw [freedAtBoot, Finset.mem_filter, Finset.mem_range, ← booted.bits 0 (by simp)]
  exact ⟨booted.maxBlocks ▸ positive, Bool.eq_false_of_not_eq_true clear⟩

/-- One available region of 256 KB from 1 MiB. -/
def lowRegion : List MultibootMmapEntry := [⟨20, 0x100000, 0, 0x40000, 0, multibootMemoryAvailable⟩]

/-- The loader reports 640 KB and 640 KB. -/
def lowRegionMem : Mem := loaderMem 0x40 640 640 lowRegion []

theorem lowRegion_met : Met 0x13C000 0x9000 lowRegionMem lowRegion :=
  met_of_below (by decide) (by decide) (by decide) (by decide)

theorem lowRegion_finishes : ∃ fuel s, pmmInitialize fuel 0x13C000 0x9000 lowRegionMem = some s :=
  pmmInitialize_finishes lowRegion_met (by decide)

theorem accounted_iff_sweepCounts_lowRegion :
    ∃ fuel s, pmmInitialize fuel 0x13C000 0x9000 lowRegionMem = some s ∧
      ((∀ h, History.Run ⟨s, []⟩ h → Accounted h.pmm) ↔
        SweepCounts 0x13C000 (MultibootInfo.load lowRegionMem 0x9000) lowRegionMem lowRegion) := by
  obtain ⟨fuel, s, finishes⟩ := lowRegion_finishes
  exact ⟨fuel, s, finishes, accounted_iff_sweepCounts finishes lowRegion_met⟩

/-- The ordinary map: 640 KB from address 0 and 128 KB from 1 MiB. -/
def ordinaryMap : List MultibootMmapEntry :=
  [⟨20, 0, 0, 0xA0000, 0, multibootMemoryAvailable⟩,
    ⟨20, 0x100000, 0, 0x20000, 0, multibootMemoryAvailable⟩]

/-- The loader reports what the map says. -/
def ordinaryMem : Mem := loaderMem 0x40 640 128 ordinaryMap []

theorem ordinary_met : Met 0x10C000 0x9000 ordinaryMem ordinaryMap :=
  met_of_below (by decide) (by decide) (by decide) (by decide)

theorem ordinary_finishes : ∃ fuel s, pmmInitialize fuel 0x10C000 0x9000 ordinaryMem = some s :=
  pmmInitialize_finishes ordinary_met (by decide)

/-- On the ordinary map the counter is 173 while all 192 bits are set: the 19
steps at or above the watermark clear the bits 269 to 287. -/
theorem ordinary_map_unaccounted :
    ∃ fuel s, pmmInitialize fuel 0x10C000 0x9000 ordinaryMem = some s ∧
      ¬ ∀ h, History.Run ⟨s, []⟩ h → Accounted h.pmm := by
  obtain ⟨fuel, s, finishes⟩ := ordinary_finishes
  refine ⟨fuel, s, finishes, fun always => ?_⟩
  have booted := pmmInitialize_booted finishes ordinary_met
  have counts := booted.counter_iff.mp (always _ .refl).counter
  exact absurd counts (by decide +kernel)

end Pmm

end OrbitOs.Memory
