import OrbitOs.Memory.PmmAccounting

/-!
# Which bits of the bitmap are accessed

`pmm_initialize` reserves `pmm_max_blocks / 8` bytes for the bitmap.  The lists
below are the indices the three operations pass to the bitmap accessors; all of
them stay inside the reservation, in initialisation and in every later run,
exactly when the memory size is a whole number of bitmap bytes and no available
page above the watermark lies beyond that size.
-/

set_option autoImplicit false

namespace OrbitOs.Memory

open OrbitOs.Machine OrbitOs.Kernel OrbitOs.Base

namespace Pmm

/-! ## The accessed indices -/

/-- The arguments of `bitmap_test` and `bitmap_set` in the loop of `pmmAllocLoop`. -/
def allocLoopIndices : Nat → Word → Pmm → List Word
  | 0, _, _ => []
  | left + 1, i, s =>
    if i < s.maxBlocks then
      if s.bitmapTest i = 0 then [i, i] else i :: allocLoopIndices left (i + 1) s
    else []

def pmmAllocIndices (s : Pmm) : List Word := allocLoopIndices s.maxBlocks.toNat 0 s

/-- The arguments of `bitmap_test` and `bitmap_clear` in `pmmFreeBlock`. -/
def pmmFreeIndices (s : Pmm) (addr : Word) : List Word :=
  let block := addr / 4096
  if s.bitmapTest block ≠ 0 then [block, block] else [block]

/-- The index is below `pmm_max_blocks` and its bit lies in the bytes that
`pmm_initialize` reserved and filled. -/
def InReservation (kernelEnd : Word) (info : MultibootInfo) (k : Word) : Prop :=
  k < maxBlocksOf info ∧ Within (safeMemStart kernelEnd info) (bitmapSize info).toNat
    (safeMemStart kernelEnd info + BitVec.ofNat 32 (k.toNat / 8))

/-- Every index of the initialisation and of every later call is in the reservation. -/
structure AccessesReserved (kernelEnd mbi : Word) (mem : Mem) (s : Pmm) : Prop where
  clears : ∀ fuel ks, pmmInitializeClears fuel kernelEnd mbi mem = some ks →
    ∀ k ∈ ks, InReservation kernelEnd (MultibootInfo.load mem mbi) k
  alloc : ∀ h, History.Run ⟨s, []⟩ h → ∀ k ∈ pmmAllocIndices h.pmm,
    InReservation kernelEnd (MultibootInfo.load mem mbi) k
  free : ∀ h, History.Run ⟨s, []⟩ h → ∀ addr ∈ h.returned, ∀ k ∈ pmmFreeIndices h.pmm addr,
    InReservation kernelEnd (MultibootInfo.load mem mbi) k

/-- The scan accesses every index up to the first clear one. -/
theorem mem_allocLoopIndices (s : Pmm) (left : ℕ) (i : Word)
    (budget : i.toNat + left = s.maxBlocks.toNat) {k : Word} :
    k ∈ allocLoopIndices left i s ↔ i ≤ k ∧ k < s.maxBlocks ∧
      ∀ j : ℕ, i.toNat ≤ j → j < k.toNat → s.bit j = true := by
  induction left generalizing i with
  | zero =>
      simp only [allocLoopIndices, List.not_mem_nil, false_iff, BitVec.le_def, BitVec.lt_def]
      omega
  | succ left ih =>
      have inRange : i < s.maxBlocks := by
        rw [BitVec.lt_def]
        omega
      have advance : (i + 1).toNat = i.toNat + 1 := by
        have small := s.maxBlocks.isLt
        bv_omega
      rw [allocLoopIndices, if_pos inRange]
      by_cases clear : s.bitmapTest i = 0
      · rw [if_pos clear]
        have isClear := (bitmapTest_eq_zero_iff s i).mp clear
        constructor
        · intro member
          have here : k = i := by simpa using member
          subst here
          exact ⟨BitVec.le_refl _, inRange, fun j lower upper => by omega⟩
        · rintro ⟨lower, _, set⟩
          rw [BitVec.le_def] at lower
          have notAbove : ¬ i.toNat < k.toNat := fun above => by
            rw [set i.toNat (Nat.le_refl _) above] at isClear
            contradiction
          have here : k = i := BitVec.eq_of_toNat_eq (by omega)
          simp [here]
      · rw [if_neg clear, List.mem_cons, ih (i + 1) (by omega), advance]
        have isSet : s.bit i.toNat = true := by
          rw [bitmapTest_eq_zero_iff] at clear
          exact Bool.eq_true_of_not_eq_false clear
        simp only [BitVec.le_def, advance]
        constructor
        · rintro (rfl | ⟨lower, upper, set⟩)
          · exact ⟨Nat.le_refl _, inRange, fun j low high => by omega⟩
          · refine ⟨by omega, upper, fun j low high => ?_⟩
            rcases (by omega : j = i.toNat ∨ i.toNat + 1 ≤ j) with rfl | above
            · exact isSet
            · exact set j above high
        · rintro ⟨lower, upper, set⟩
          by_cases here : k = i
          · exact Or.inl here
          · have ne : k.toNat ≠ i.toNat := fun same => here (BitVec.eq_of_toNat_eq same)
            exact Or.inr ⟨by omega, upper, fun j low high => set j (by omega) high⟩

theorem mem_pmmAllocIndices (s : Pmm) {k : Word} :
    k ∈ pmmAllocIndices s ↔ k < s.maxBlocks ∧ ∀ j < k.toNat, s.bit j = true := by
  rw [pmmAllocIndices, mem_allocLoopIndices s _ 0 (by simp)]
  constructor
  · rintro ⟨_, bound, set⟩
    exact ⟨bound, fun j below => set j (Nat.zero_le _) below⟩
  · rintro ⟨bound, set⟩
    exact ⟨Nat.zero_le _, bound, fun j _ below => set j below⟩

theorem mem_pmmFreeIndices (s : Pmm) (addr : Word) {k : Word}
    (member : k ∈ pmmFreeIndices s addr) : k = addr / 4096 := by
  unfold pmmFreeIndices at member
  dsimp only at member
  split at member <;> simpa using member

theorem inReservation_iff (kernelEnd : Word) (info : MultibootInfo) (k : Word) :
    InReservation kernelEnd info k ↔
      k.toNat < (maxBlocksOf info).toNat ∧ k.toNat / 8 < (maxBlocksOf info).toNat / 8 := by
  have bound := k.isLt
  have distance : (safeMemStart kernelEnd info + BitVec.ofNat 32 (k.toNat / 8) -
      safeMemStart kernelEnd info).toNat = k.toNat / 8 := by
    bv_omega
  rw [InReservation, Within, distance, toNat_bitmapSize, BitVec.lt_def]

end Pmm

/-! ## Runs -/

namespace History

open Pmm

/-- Returned addresses are those of blocks below `pmm_max_blocks`, which never changes. -/
structure Issued (maxBlocks : Word) (h : History) : Prop where
  size : h.pmm.maxBlocks = maxBlocks
  known : ∀ addr ∈ h.returned, ∃ k : Word, k < maxBlocks ∧ addr = k * 4096

theorem Issued.step {maxBlocks : Word} {h next : History} (issued : Issued maxBlocks h)
    (step : Step h next) : Issued maxBlocks next := by
  obtain ⟨size, known⟩ := issued
  cases step with
  | alloc s returned =>
      rcases pmmAllocBlock_cases s with ⟨k, least, result⟩ | ⟨_, result⟩
      · rw [result]
        refine ⟨size, ?_⟩
        intro addr member
        dsimp only at member
        split at member
        · exact known addr member
        · rcases List.mem_cons.mp member with rfl | old
          · exact ⟨k, size ▸ (mem_freeBlocks.mp least.1).1, rfl⟩
          · exact known addr old
      · rw [result]
        exact ⟨size, known⟩
  | free s returned addr _ =>
      refine ⟨?_, known⟩
      rcases pmmFreeBlock_cases s addr with ⟨_, result⟩ | ⟨_, result⟩ <;> rw [result] <;> exact size

theorem Issued.run {maxBlocks : Word} {h next : History} (issued : Issued maxBlocks h)
    (run : Run h next) : Issued maxBlocks next := by
  induction run with
  | refl => exact issued
  | tail _ step ih => exact ih.step step

/-- Allocating until nothing is free; the measure is the number of clear bits. -/
theorem exists_exhausted (s : Pmm) (returned : List Word) :
    ∃ h, Run ⟨s, returned⟩ h ∧ h.pmm.freeBlocks = ∅ := by
  induction measure : s.maxBlocks.toNat - s.setBits using Nat.strong_induction_on
    generalizing s returned with
  | _ left ih =>
      rcases pmmAllocBlock_cases s with ⟨k, least, result⟩ | ⟨empty, _⟩
      · have grown := setBits_take least.1
        have le := setBits_le (s.take k)
        rw [grown, take_maxBlocks] at le
        have step := Step.alloc s returned
        rw [result] at step
        obtain ⟨h, run, exhausted⟩ := ih _ (by rw [grown, take_maxBlocks]; omega) (s.take k) _ rfl
        exact ⟨h, .head step run, exhausted⟩
      · exact ⟨_, .refl, empty⟩

end History

/-! ## The condition -/

namespace Pmm

/-- End of a region, rounded up to whole 4 KiB steps. -/
def regionTop (e : MultibootMmapEntry) : ℕ :=
  e.addrLow.toNat + (e.lenLow.toNat + 4095) / 4096 * 4096

/-- An available region starts on a page boundary and ends below 4 GiB. -/
def Placed (e : MultibootMmapEntry) : Prop :=
  e.addrLow.toNat % 4096 = 0 ∧ e.addrLow.toNat + e.lenLow.toNat ≤ 2 ^ 32

instance (e : MultibootMmapEntry) : Decidable (Placed e) := inferInstanceAs (Decidable (_ ∧ _))

/-- The region ends within `size` blocks, or before the first page boundary that
is a page above the watermark; the single steps of a region that is not placed
are at blocks below `size` or below the watermark. -/
def RegionCovered (safe : Word) (size : ℕ) (e : MultibootMmapEntry) : Prop :=
  if Placed e then
    regionTop e ≤ 4096 * size ∨ regionTop e < safe.toNat + 4096 ∨ e.lenLow = 0
  else ∀ n, 4096 * n < e.lenLow.toNat → safe ≤ e.addrLow + BitVec.ofNat 32 (4096 * n) →
    (e.addrLow + BitVec.ofNat 32 (4096 * n)).toNat / 4096 < size

/-- The size that mem_lower and mem_upper add up to is a whole number of bitmap
bytes, and covers every available region. -/
def SizeCoversMap (kernelEnd : Word) (info : MultibootInfo) (es : List MultibootMmapEntry) :
    Prop :=
  (maxBlocksOf info).toNat % 8 = 0 ∧ ∀ e ∈ es, e.type = multibootMemoryAvailable →
    RegionCovered (watermark kernelEnd info) (maxBlocksOf info).toNat e

variable {kernelEnd mbi : Word} {info : MultibootInfo} {mem : Mem}
  {es : List MultibootMmapEntry} {s : Pmm}

/-- The steps of a placed region do not wrap. -/
theorem Placed.toNat_step {e : MultibootMmapEntry} (placed : Placed e) {n : ℕ}
    (bound : 4096 * n < e.lenLow.toNat) :
    (e.addrLow + BitVec.ofNat 32 (4096 * n)).toNat = e.addrLow.toNat + 4096 * n := by
  have noWrap := placed.2
  rw [BitVec.toNat_add, BitVec.toNat_ofNat]
  omega

/-- All steps over a region stay below the size exactly when the region is covered. -/
theorem steps_bounded_iff (safe : Word) (size : ℕ) (e : MultibootMmapEntry) :
    (∀ n, 4096 * n < e.lenLow.toNat → safe ≤ e.addrLow + BitVec.ofNat 32 (4096 * n) →
      (e.addrLow + BitVec.ofNat 32 (4096 * n)).toNat / 4096 < size) ↔
        RegionCovered safe size e := by
  unfold RegionCovered
  split
  · rename_i placed
    have aligned := placed.1
    constructor
    · intro bounded
      by_contra outside
      simp only [not_or, not_le, not_lt] at outside
      obtain ⟨beyond, above, nonempty⟩ := outside
      have positive : 0 < e.lenLow.toNat := by
        rw [Nat.pos_iff_ne_zero]
        exact fun zero => nonempty (BitVec.eq_of_toNat_eq zero)
      -- the last step of the region
      have lastStep : 4096 * ((e.lenLow.toNat - 1) / 4096) < e.lenLow.toNat := by omega
      have value := placed.toNat_step lastStep
      have last := bounded _ lastStep (by
        rw [BitVec.le_def, value]
        unfold regionTop at above
        omega)
      rw [value] at last
      unfold regionTop at beyond
      omega
    · intro covered n bound above
      rw [BitVec.le_def] at above
      rw [placed.toNat_step bound] at above ⊢
      rcases covered with within | below | empty
      · unfold regionTop at within
        omega
      · unfold regionTop at below
        omega
      · rw [empty] at bound
        simp at bound
  · rfl

theorem swept_bounded_iff (safe : Word) (size : ℕ) :
    (∀ k ∈ swept safe es, k < size) ↔
      ∀ e ∈ es, e.type = multibootMemoryAvailable → RegionCovered safe size e := by
  constructor
  · intro bounded e inMap available
    refine (steps_bounded_iff safe size e).mp fun n bound above => ?_
    exact bounded _ (mem_swept_iff.mpr ⟨e, inMap, available, n, bound, above, rfl⟩)
  · intro covered k member
    obtain ⟨e, inMap, available, n, bound, above, rfl⟩ := mem_swept_iff.mp member
    exact (steps_bounded_iff safe size e).mpr (covered e inMap available) n bound above

/-- Initialisation and every later run stay inside the bitmap exactly when the
size covers the map. -/
theorem accessesReserved_iff_sizeCoversMap {fuel : ℕ}
    (finishes : pmmInitialize fuel kernelEnd mbi mem = some s) (met : Met kernelEnd mbi mem es) :
    AccessesReserved kernelEnd mbi mem s ↔
      SizeCoversMap kernelEnd (MultibootInfo.load mem mbi) es := by
  have booted := pmmInitialize_booted finishes met
  obtain ⟨fuel', cleared, done⟩ := pmmInitializeClears_finishes finishes
  have indices : ∀ fuel ks, pmmInitializeClears fuel kernelEnd mbi mem = some ks →
      ks = (swept (watermark kernelEnd (MultibootInfo.load mem mbi)) es).map (BitVec.ofNat 32) :=
    fun _ _ done => pmmInitializeClears_spec done met
  unfold SizeCoversMap
  rw [← swept_bounded_iff]
  have small := maxBlocksOf_lt (MultibootInfo.load mem mbi)
  have issued : History.Issued (maxBlocksOf (MultibootInfo.load mem mbi)) ⟨s, []⟩ :=
    ⟨booted.maxBlocks, by simp⟩
  constructor
  · rintro ⟨clears, alloc, _⟩
    constructor
    · obtain ⟨h, run, exhausted⟩ := History.exists_exhausted s []
      have size := (issued.run run).size
      rw [freeBlocks_eq_empty_iff, size] at exhausted
      by_contra ragged
      -- the scan over the full bitmap reaches the last index
      have bound : (BitVec.ofNat 32 ((maxBlocksOf (MultibootInfo.load mem mbi)).toNat - 1)).toNat =
          (maxBlocksOf (MultibootInfo.load mem mbi)).toNat - 1 := by
        rw [BitVec.toNat_ofNat]
        omega
      have last := alloc h run
        (BitVec.ofNat 32 ((maxBlocksOf (MultibootInfo.load mem mbi)).toNat - 1))
        ((mem_pmmAllocIndices h.pmm).mpr ⟨by rw [size, BitVec.lt_def, bound]; omega,
          fun j below => exhausted j (by omega)⟩)
      rw [inReservation_iff, bound] at last
      omega
    · intro k member
      have reserved := clears fuel' cleared done (BitVec.ofNat 32 k) (by
        rw [indices fuel' cleared done]
        exact List.mem_map_of_mem member)
      rw [inReservation_iff, BitVec.toNat_ofNat,
        Nat.mod_eq_of_lt (Nat.lt_trans (swept_lt member) (by simp))] at reserved
      exact reserved.1
  · rintro ⟨whole, covers⟩
    have inside : ∀ k : Word, k < maxBlocksOf (MultibootInfo.load mem mbi) →
        InReservation kernelEnd (MultibootInfo.load mem mbi) k := by
      intro k bound
      rw [BitVec.lt_def] at bound
      rw [inReservation_iff]
      omega
    refine ⟨?_, ?_, ?_⟩
    · intro fuel' ks done k member
      rw [indices fuel' ks done] at member
      obtain ⟨j, jSwept, rfl⟩ := List.mem_map.mp member
      apply inside
      have below := covers j jSwept
      rw [BitVec.lt_def, BitVec.toNat_ofNat]
      omega
    · intro h run k member
      have bound := ((mem_pmmAllocIndices h.pmm).mp member).1
      rw [(issued.run run).size] at bound
      exact inside k bound
    · intro h run addr returned k member
      obtain ⟨j, bound, rfl⟩ := (issued.run run).known addr returned
      rw [mem_pmmFreeIndices h.pmm _ member]
      apply inside
      rw [BitVec.lt_def] at bound ⊢
      rw [toNat_div_4096, toNat_mul_4096 (by omega)]
      exact (Nat.mul_div_cancel _ (by decide : 0 < 4096)) ▸ bound

theorem accessesReserved_iff_sizeCoversMap_lowRegion :
    ∃ fuel s, pmmInitialize fuel 0x13C000 0x9000 lowRegionMem = some s ∧
      (AccessesReserved 0x13C000 0x9000 lowRegionMem s ↔
        SizeCoversMap 0x13C000 (MultibootInfo.load lowRegionMem 0x9000) lowRegion) := by
  obtain ⟨fuel, s, finishes⟩ := lowRegion_finishes
  exact ⟨fuel, s, finishes, accessesReserved_iff_sizeCoversMap finishes lowRegion_met⟩

/-- `a` is an address of available memory. -/
def Available (es : List MultibootMmapEntry) (a : ℕ) : Prop :=
  ∃ e ∈ es, e.type = multibootMemoryAvailable ∧ e.addrLow.toNat ≤ a ∧
    a < e.addrLow.toNat + e.lenLow.toNat

/-- The available regions are disjoint and make up `mem_lower` KB from address 0
and `mem_upper` KB from 1 MiB. -/
structure Consistent (info : MultibootInfo) (es : List MultibootMmapEntry) : Prop where
  placed : ∀ e ∈ es, e.type = multibootMemoryAvailable →
    Placed e ∧ e.lenLow.toNat % 4096 = 0 ∧ e.addrHigh = 0 ∧ e.lenHigh = 0
  disjoint : es.Pairwise fun e e' => e.type = multibootMemoryAvailable →
    e'.type = multibootMemoryAvailable → ∀ a : ℕ,
      ¬ (Available [e] a ∧ Available [e'] a)
  lower : ∀ a < 0x100000, Available es a ↔ a < info.memLower.toNat * 1024
  upper : ∀ a, 0x100000 ≤ a → (Available es a ↔ a < 0x100000 + info.memUpper.toNat * 1024)

/-- The size leaves out the hole below 1 MiB: no consistent map with a page to
free above the watermark is covered. -/
theorem Consistent.not_sizeCoversMap (consistent : Consistent info es)
    (hole : info.memLower.toNat < 1024) (kernelHigh : 0x100000 ≤ (watermark kernelEnd info).toNat)
    (room : (watermark kernelEnd info).toNat + 4096 ≤ 0x100000 + info.memUpper.toNat * 1024) :
    ¬ SizeCoversMap kernelEnd info es := by
  rintro ⟨_, covers⟩
  have last := (consistent.upper (0x100000 + info.memUpper.toNat * 1024 - 1) (by omega)).mpr
    (by omega)
  obtain ⟨e, inMap, available, lower, upper⟩ := last
  have sizeLe : 4096 * (maxBlocksOf info).toNat ≤
      (info.memLower.toNat + info.memUpper.toNat) * 1024 := by
    have value : (maxBlocksOf info).toNat =
        ((info.memLower.toNat + info.memUpper.toNat) % 2 ^ 32 * 1024) % 2 ^ 32 / 4096 := by
      rw [maxBlocksOf, BitVec.toNat_udiv, BitVec.toNat_mul, BitVec.toNat_add]
      rfl
    have low := Nat.mod_le (info.memLower.toNat + info.memUpper.toNat) (2 ^ 32)
    omega
  have top : 0x100000 + info.memUpper.toNat * 1024 ≤ regionTop e := by
    unfold regionTop
    omega
  have covered := covers e inMap available
  rw [RegionCovered, if_pos (consistent.placed e inMap available).1] at covered
  rcases covered with within | below | empty
  · omega
  · omega
  · rw [empty] at upper
    simp at upper
    omega

theorem ordinary_consistent : Consistent (MultibootInfo.load ordinaryMem 0x9000) ordinaryMap := by
  have split : ∀ a, Available ordinaryMap a ↔ a < 0xA0000 ∨ (0x100000 ≤ a ∧ a < 0x120000) := by
    intro a
    simp [Available, ordinaryMap]
  have info : (MultibootInfo.load ordinaryMem 0x9000).memLower.toNat = 640 ∧
      (MultibootInfo.load ordinaryMem 0x9000).memUpper.toNat = 128 := by decide
  refine ⟨by decide, ?_, ?_, ?_⟩
  · simp only [ordinaryMap, List.pairwise_cons]
    refine ⟨?_, by simp⟩
    intro e' member _ _ a
    rw [List.mem_singleton] at member
    subst member
    simp [Available]
    omega
  · intro a low
    rw [split, info.1]
    omega
  · intro a high
    rw [split, info.2]
    omega

/-- On the ordinary map the page at 1 MiB + 52 KB is cleared at index 269 of 192. -/
theorem ordinary_map_out_of_reservation :
    Consistent (MultibootInfo.load ordinaryMem 0x9000) ordinaryMap ∧
      ∃ fuel s, pmmInitialize fuel 0x10C000 0x9000 ordinaryMem = some s ∧
        ¬ AccessesReserved 0x10C000 0x9000 ordinaryMem s := by
  obtain ⟨fuel, s, finishes⟩ := ordinary_finishes
  refine ⟨ordinary_consistent, fuel, s, finishes, fun reserved => ?_⟩
  obtain ⟨fuel', ks, done⟩ := pmmInitializeClears_finishes finishes
  have cleared : (269 : Word) ∈ ks := by
    rw [pmmInitializeClears_spec done ordinary_met]
    decide
  exact absurd (reserved.clears fuel' ks done 269 cleared).1 (by decide)

end Pmm

end OrbitOs.Memory
