import OrbitOs.Memory.PmmAccounting

/-!
# What the watermark protects

The sweep frees what lies at or above one address.  `Guarded` says that neither
the free blocks nor any block handed out later meets the first 1 MiB, the
kernel, a module or the bitmap; `Covered` is what the memory map, the modules
and the sizes have to satisfy for that.
-/

set_option autoImplicit false

namespace OrbitOs.Memory

open OrbitOs.Machine OrbitOs.Kernel OrbitOs.Base

namespace Pmm

/-- `x` is a byte of the module. -/
def InModule (m : MultibootModule) (x : Word) : Prop := m.modStart ≤ x ∧ x < m.modEnd

/-- `x` is a byte of the words that hold the bits below `pmm_max_blocks`. -/
def InBitmap (kernelEnd : Word) (info : MultibootInfo) (x : Word) : Prop :=
  Within (safeMemStart kernelEnd info) (bitmapBytes (maxBlocksOf info).toNat) x

/-- The memory the allocator must not hand out. -/
def Protected (kernelEnd : Word) (info : MultibootInfo) (x : Word) : Prop :=
  x < 0x100000 ∨ (0x100000 ≤ x ∧ x < kernelEnd) ∨ (∃ m, info.IsModule m ∧ InModule m x) ∨
    InBitmap kernelEnd info x

/-- No byte of block `k` is protected. -/
def BlockClear (kernelEnd : Word) (info : MultibootInfo) (k : ℕ) : Prop :=
  ∀ x : Word, x.toNat / 4096 = k → ¬ Protected kernelEnd info x

structure Guarded (kernelEnd : Word) (info : MultibootInfo) (s : Pmm) : Prop where
  free : ∀ k < s.maxBlocks.toNat, s.bit k = false → BlockClear kernelEnd info k
  handedOut : ∀ n, nthAlloc s n ≠ 0 →
    ∀ x, Within (nthAlloc s n) 4096 x → ¬ Protected kernelEnd info x
  bitmapClear : ∀ m, info.IsModule m → ∀ x, InBitmap kernelEnd info x → ¬ InModule m x

/-- First address behind the words of the bitmap. -/
def bitmapEnd (kernelEnd : Word) (info : MultibootInfo) : ℕ :=
  (safeMemStart kernelEnd info).toNat + bitmapBytes (maxBlocksOf info).toNat

/-- The bitmap reaches the end of the address space, so the watermark starts
again from 0, and block `k` lies between the kernel and the bitmap. -/
def Stranded (kernelEnd : Word) (info : MultibootInfo) (k : ℕ) : Prop :=
  2 ^ 32 ≤ bitmapEnd kernelEnd info ∧ kernelEnd.toNat ≤ 4096 * k ∧
    4096 * k + 4096 ≤ (safeMemStart kernelEnd info).toNat

/-- The watermark covers the protected memory. -/
structure Covered (kernelEnd : Word) (info : MultibootInfo) (mem : Mem)
    (es : List MultibootMmapEntry) : Prop where
  /-- No step at or above the watermark frees a block that begins below the end of the bitmap. -/
  rounding : ∀ k ∈ swept (watermark kernelEnd info) es, k < (maxBlocksOf info).toNat →
    bitmapEnd kernelEnd info ≤ 4096 * k ∨ Stranded kernelEnd info k
  /-- A module that ends above the place of the bitmap, which only a module other
  than the last can do, meets neither the bitmap nor a swept block. -/
  order : ∀ m, info.IsModule m →
    safeMemStart kernelEnd info < m.modEnd ∨ 2 ^ 32 ≤ bitmapEnd kernelEnd info →
    ∀ x, InModule m x → ¬ InBitmap kernelEnd info x ∧
      (x.toNat / 4096 < (maxBlocksOf info).toNat →
        x.toNat / 4096 ∉ swept (watermark kernelEnd info) es)
  /-- A bit behind the whole bytes of the fill that RAM left clear names an
  unprotected block. -/
  tail : ∀ k < (maxBlocksOf info).toNat, 8 * ((maxBlocksOf info).toNat / 8) ≤ k →
    ramBit kernelEnd info mem k = false → BlockClear kernelEnd info k

variable {kernelEnd mbi : Word} {info : MultibootInfo} {mem : Mem}
  {es : List MultibootMmapEntry} {s : Pmm}

theorem kernelEnd_le_safeMemStart (kernelEnd : Word) (info : MultibootInfo) :
    kernelEnd ≤ safeMemStart kernelEnd info := by
  unfold safeMemStart
  split
  · split
    · dsimp only
      split
      · rename_i above
        exact BitVec.le_of_lt above
      · exact BitVec.le_refl _
    · exact BitVec.le_refl _
  · exact BitVec.le_refl _

/-- The block the n-th allocation returns was free at the start. -/
theorem nthAlloc_free (s : Pmm) (n : ℕ) (nonzero : nthAlloc s n ≠ 0) :
    ∃ k, nthAlloc s n = k * 4096 ∧ k.toNat ∈ s.freeBlocks := by
  induction n generalizing s with
  | zero =>
      rw [nthAlloc] at nonzero ⊢
      rcases pmmAllocBlock_cases s with ⟨k, least, result⟩ | ⟨_, result⟩
      · exact ⟨k, by rw [result], least.1⟩
      · rw [result] at nonzero
        exact absurd rfl nonzero
  | succ n ih =>
      rw [nthAlloc] at nonzero ⊢
      obtain ⟨k, value, free⟩ := ih _ nonzero
      refine ⟨k, value, ?_⟩
      rcases pmmAllocBlock_cases s with ⟨j, _, result⟩ | ⟨_, result⟩
      · rw [result, freeBlocks_take] at free
        exact free.1
      · rwa [result] at free

theorem toNat_watermark (fits : bitmapEnd kernelEnd info < 2 ^ 32) :
    (watermark kernelEnd info).toNat =
      (safeMemStart kernelEnd info).toNat + (maxBlocksOf info).toNat / 8 := by
  rw [watermark, BitVec.toNat_add, toNat_bitmapSize]
  unfold bitmapEnd bitmapBytes at fits
  exact Nat.mod_eq_of_lt (by omega)

theorem inBitmap_iff (fits : bitmapEnd kernelEnd info < 2 ^ 32) (x : Word) :
    InBitmap kernelEnd info x ↔
      (safeMemStart kernelEnd info).toNat ≤ x.toNat ∧ x.toNat < bitmapEnd kernelEnd info :=
  within_iff_of_noWrap (Nat.le_of_lt fits) x

theorem inBitmap_iff_of_wrap (wraps : 2 ^ 32 ≤ bitmapEnd kernelEnd info) (x : Word) :
    InBitmap kernelEnd info x ↔ (safeMemStart kernelEnd info).toNat ≤ x.toNat ∨
      x.toNat + 2 ^ 32 < bitmapEnd kernelEnd info := by
  have small := maxBlocksOf_lt info
  have xBound := x.isLt
  have startBound := (safeMemStart kernelEnd info).isLt
  unfold InBitmap Within
  unfold bitmapEnd bitmapBytes at *
  rw [BitVec.toNat_sub]
  omega

/-- Below the end of the bitmap a swept block meets the bitmap itself. -/
theorem swept_meets_bitmap (fits : bitmapEnd kernelEnd info < 2 ^ 32) {k : ℕ}
    (bound : k < (maxBlocksOf info).toNat)
    (member : k ∈ swept (watermark kernelEnd info) es) (low : 4096 * k < bitmapEnd kernelEnd info) :
    ∃ x : Word, x.toNat / 4096 = k ∧ InBitmap kernelEnd info x := by
  obtain ⟨e, _, _, n, _, above, index⟩ := mem_swept_iff.mp member
  have small := maxBlocksOf_lt info
  have startBound := (safeMemStart kernelEnd info).isLt
  rw [BitVec.le_def, toNat_watermark fits] at above
  have positive : 0 < bitmapBytes (maxBlocksOf info).toNat := by
    unfold bitmapBytes
    omega
  unfold bitmapEnd at fits low
  -- the first byte of the block, or the first of the bitmap when that comes later
  refine ⟨BitVec.ofNat 32 (max (4096 * k) (safeMemStart kernelEnd info).toNat), ?_, ?_⟩
  · rw [BitVec.toNat_ofNat]
    omega
  · rw [inBitmap_iff (by unfold bitmapEnd; omega), BitVec.toNat_ofNat]
    unfold bitmapEnd
    omega

theorem blockClear_iff (kernelHigh : 0x100000 ≤ kernelEnd) {k : ℕ} (bound : k < 2 ^ 20) :
    BlockClear kernelEnd info k ↔ kernelEnd.toNat ≤ 4096 * k ∧
      ∀ x : Word, x.toNat / 4096 = k →
        ¬ InBitmap kernelEnd info x ∧ ∀ m, info.IsModule m → ¬ InModule m x := by
  have million : (0x100000 : Word).toNat = 0x100000 := rfl
  rw [BitVec.le_def] at kernelHigh
  constructor
  · intro isClear
    refine ⟨?_, ?_⟩
    · have first : (BitVec.ofNat 32 (4096 * k)).toNat = 4096 * k := toNat_blockAddr bound
      have unprotected := isClear (BitVec.ofNat 32 (4096 * k)) (by omega)
      simp only [Protected, not_or, BitVec.lt_def, BitVec.le_def, first] at unprotected
      omega
    · intro x index
      have unprotected := isClear x index
      simp only [Protected, not_or] at unprotected
      exact ⟨unprotected.2.2.2, fun m isModule inModule =>
        unprotected.2.2.1 ⟨m, isModule, inModule⟩⟩
  · rintro ⟨aboveKernel, rest⟩ x index isProtected
    obtain ⟨notBitmap, notModule⟩ := rest x index
    rcases isProtected with low | ⟨_, inKernel⟩ | ⟨m, isModule, inModule⟩ | inBitmap
    · rw [BitVec.lt_def] at low
      omega
    · rw [BitVec.lt_def] at inKernel
      omega
    · exact notModule m isModule inModule
    · exact notBitmap inBitmap

/-- A swept block without protected bytes begins behind the bitmap or is stranded. -/
theorem rounding_of_blockClear (kernelHigh : 0x100000 ≤ kernelEnd) {k : ℕ}
    (bound : k < (maxBlocksOf info).toNat) (member : k ∈ swept (watermark kernelEnd info) es)
    (isClear : BlockClear kernelEnd info k) :
    bitmapEnd kernelEnd info ≤ 4096 * k ∨ Stranded kernelEnd info k := by
  have small := maxBlocksOf_lt info
  by_cases fits : bitmapEnd kernelEnd info < 2 ^ 32
  · left
    by_contra low
    obtain ⟨x, index, inBitmap⟩ := swept_meets_bitmap fits bound member (by omega)
    exact isClear x index (Or.inr (Or.inr (Or.inr inBitmap)))
  · right
    rw [blockClear_iff kernelHigh (by omega)] at isClear
    refine ⟨by omega, isClear.1, ?_⟩
    -- the last byte of the block is below the bitmap
    have last : (BitVec.ofNat 32 (4096 * k + 4095)).toNat = 4096 * k + 4095 := by
      rw [BitVec.toNat_ofNat]
      omega
    have outside := (isClear.2 (BitVec.ofNat 32 (4096 * k + 4095)) (by omega)).1
    rw [inBitmap_iff_of_wrap (by omega), last] at outside
    omega

theorem blockClear_of_rounding (kernelHigh : 0x100000 ≤ kernelEnd) {k : ℕ}
    (bound : k < (maxBlocksOf info).toNat)
    (rounding : bitmapEnd kernelEnd info ≤ 4096 * k ∨ Stranded kernelEnd info k)
    (modules : ∀ m, info.IsModule m → ∀ x : Word, x.toNat / 4096 = k → ¬ InModule m x) :
    BlockClear kernelEnd info k := by
  have small := maxBlocksOf_lt info
  have startLow := kernelEnd_le_safeMemStart kernelEnd info
  have startBound := (safeMemStart kernelEnd info).isLt
  rw [blockClear_iff kernelHigh (by omega)]
  rw [BitVec.le_def] at startLow kernelHigh
  have million : (0x100000 : Word).toNat = 0x100000 := rfl
  refine ⟨?_, fun x index => ⟨?_, fun m isModule => modules m isModule x index⟩⟩
  · rcases rounding with behind | stranded
    · unfold bitmapEnd at behind
      omega
    · exact stranded.2.1
  · intro inBitmap
    rcases rounding with behind | ⟨wraps, aboveKernel, below⟩
    · rw [inBitmap_iff (by omega)] at inBitmap
      omega
    · rw [inBitmap_iff_of_wrap wraps] at inBitmap
      unfold bitmapEnd bitmapBytes at inBitmap
      omega

theorem Guarded.covered (guarded : Guarded kernelEnd info s) (kernelHigh : 0x100000 ≤ kernelEnd)
    (booted : Booted kernelEnd info mem es s) : Covered kernelEnd info mem es := by
  have small := maxBlocksOf_lt info
  have clear : ∀ k < (maxBlocksOf info).toNat, FreeAtBoot kernelEnd info mem es k →
      BlockClear kernelEnd info k := fun k bound atBoot =>
    guarded.free k (booted.maxBlocks ▸ bound) ((booted.bits k (by omega)).mpr atBoot)
  refine ⟨?_, ?_, ?_⟩
  · intro k member bound
    exact rounding_of_blockClear kernelHigh bound member (clear k bound (Or.inl member))
  · intro m isModule _ x inModule
    refine ⟨fun inBitmap => guarded.bitmapClear m isModule x inBitmap inModule,
      fun bound member => ?_⟩
    exact clear _ bound (Or.inl member) x rfl (Or.inr (Or.inr (Or.inl ⟨m, isModule, inModule⟩)))
  · intro k bound behind ramClear
    exact clear k bound (Or.inr ⟨behind, ramClear⟩)

theorem Covered.bitmap_misses (covered : Covered kernelEnd info mem es) {m : MultibootModule}
    (isModule : info.IsModule m) {x : Word} (inBitmap : InBitmap kernelEnd info x) :
    ¬ InModule m x := by
  intro inModule
  by_cases outer : safeMemStart kernelEnd info < m.modEnd ∨ 2 ^ 32 ≤ bitmapEnd kernelEnd info
  · exact (covered.order m isModule outer x inModule).1 inBitmap
  · have below := inModule.2
    rw [not_or] at outer
    rw [inBitmap_iff (by omega)] at inBitmap
    rw [BitVec.lt_def] at below outer
    omega

theorem Covered.blockClear (covered : Covered kernelEnd info mem es)
    (kernelHigh : 0x100000 ≤ kernelEnd) {k : ℕ} (bound : k < (maxBlocksOf info).toNat)
    (free : FreeAtBoot kernelEnd info mem es k) : BlockClear kernelEnd info k := by
  rcases free with member | ⟨behind, ramClear⟩
  · have high := covered.rounding k member bound
    apply blockClear_of_rounding kernelHigh bound high
    intro m isModule x index inModule
    by_cases outer : safeMemStart kernelEnd info < m.modEnd ∨ 2 ^ 32 ≤ bitmapEnd kernelEnd info
    · exact (covered.order m isModule outer x inModule).2 (index ▸ bound) (index ▸ member)
    · have below := inModule.2
      rw [not_or] at outer
      rcases high with beyond | stranded
      · unfold bitmapEnd at beyond
        rw [BitVec.lt_def] at below outer
        omega
      · exact outer.2 stranded.1
  · exact covered.tail k bound behind ramClear

theorem Covered.guarded (covered : Covered kernelEnd info mem es)
    (kernelHigh : 0x100000 ≤ kernelEnd) (booted : Booted kernelEnd info mem es s) :
    Guarded kernelEnd info s := by
  have small := maxBlocksOf_lt info
  have free : ∀ k < s.maxBlocks.toNat, s.bit k = false → BlockClear kernelEnd info k := by
    intro k bound isFree
    rw [booted.maxBlocks] at bound
    exact covered.blockClear kernelHigh bound ((booted.bits k (by omega)).mp isFree)
  refine ⟨free, ?_, fun m isModule x => covered.bitmap_misses isModule⟩
  intro n nonzero x inBlock
  obtain ⟨k, value, isFree⟩ := nthAlloc_free s n nonzero
  obtain ⟨bound, clearBit⟩ := mem_freeBlocks.mp isFree
  have kSmall : k.toNat < 2 ^ 20 := by
    rw [booted.maxBlocks] at bound
    omega
  rw [value, mul_4096_eq_blockAddr, within_block kSmall] at inBlock
  exact free k.toNat bound clearBit x inBlock

/-- Exactly when the watermark covers it, protected memory stays out of reach
of every series of allocations. -/
theorem guarded_iff_covered (kernelHigh : 0x100000 ≤ kernelEnd) {fuel : ℕ}
    (finishes : pmmInitialize fuel kernelEnd mbi mem = some s) (met : Met kernelEnd mbi mem es) :
    Guarded kernelEnd (MultibootInfo.load mem mbi) s ↔
      Covered kernelEnd (MultibootInfo.load mem mbi) mem es := by
  have booted := pmmInitialize_booted finishes met
  exact ⟨fun guarded => guarded.covered kernelHigh booted,
    fun covered => covered.guarded kernelHigh booted⟩

/-- A guarded allocator is sound for its clients. -/
theorem Guarded.sound (booted : Booted kernelEnd info mem es s)
    (guarded : Guarded kernelEnd info s) : s.Sound := by
  have clear : ∀ k ∈ s.freeBlocks, BlockClear kernelEnd info k := fun k free =>
    guarded.free k (mem_freeBlocks.mp free).1 (mem_freeBlocks.mp free).2
  refine ⟨booted.maxBlocks_lt, ?_, ?_⟩
  · intro zeroFree
    exact clear 0 zeroFree 0 (by simp) (Or.inl (by simp))
  · intro k free x inBlock inWords
    have inBitmap : InBitmap kernelEnd info x := by
      unfold InBitmapWords at inWords
      rwa [booted.bitmap, booted.maxBlocks] at inWords
    exact clear k free x inBlock (Or.inr (Or.inr (Or.inr inBitmap)))

theorem guarded_iff_covered_lowRegion :
    ∃ fuel s, pmmInitialize fuel 0x13C000 0x9000 lowRegionMem = some s ∧
      (Guarded 0x13C000 (MultibootInfo.load lowRegionMem 0x9000) s ↔
        Covered 0x13C000 (MultibootInfo.load lowRegionMem 0x9000) lowRegionMem lowRegion) := by
  obtain ⟨fuel, s, finishes⟩ := lowRegion_finishes
  exact ⟨fuel, s, finishes, guarded_iff_covered (by simp) finishes lowRegion_met⟩

/-- The watermark covers every machine whose last module ends highest, whose
available regions start on page boundaries and whose size is a multiple of 128 KB. -/
theorem covered_of_ordered (fits : bitmapEnd kernelEnd info < 2 ^ 32)
    (last : ∀ m, info.IsModule m → m.modEnd ≤ safeMemStart kernelEnd info)
    (aligned : ∀ e ∈ es, e.type = multibootMemoryAvailable → e.addrLow.toNat % 4096 = 0)
    (words : (maxBlocksOf info).toNat % 32 = 0) : Covered kernelEnd info mem es := by
  refine ⟨?_, ?_, ?_⟩
  · intro k member bound
    obtain ⟨e, inMap, available, n, _, above, index⟩ := mem_swept_iff.mp member
    have base := aligned e inMap available
    have step : (e.addrLow + BitVec.ofNat 32 (4096 * n)).toNat % 4096 = 0 := by
      rw [BitVec.toNat_add, BitVec.toNat_ofNat]
      omega
    rw [BitVec.le_def, toNat_watermark fits] at above
    left
    unfold bitmapEnd bitmapBytes
    omega
  · intro m isModule outer
    rcases outer with above | wraps
    · exact absurd above (BitVec.not_lt.mpr (last m isModule))
    · omega
  · intro k bound behind
    omega

/-- Two modules in descending order of address, the first of them above the last. -/
def reversedModulesMem : Mem :=
  loaderMem 0x48 640 640 lowRegion [⟨0x120000, 0x122000⟩, ⟨0x110000, 0x111000⟩]

theorem reversedModules_met : Met 0x10C000 0x9000 reversedModulesMem lowRegion :=
  met_of_below (by decide) (by decide) (by decide) (by decide)

/-- Block 288 is the first block of the first module and free after initialisation. -/
theorem reversed_modules_unguarded :
    ∃ fuel s, pmmInitialize fuel 0x10C000 0x9000 reversedModulesMem = some s ∧
      ¬ Guarded 0x10C000 (MultibootInfo.load reversedModulesMem 0x9000) s := by
  obtain ⟨fuel, s, finishes⟩ := pmmInitialize_finishes reversedModules_met (by decide)
  refine ⟨fuel, s, finishes, fun guarded => ?_⟩
  have booted := pmmInitialize_booted finishes reversedModules_met
  have isFree : s.bit 288 = false := by
    rw [booted.bits 288 (by simp)]
    exact Or.inl (by decide)
  have bound : 288 < s.maxBlocks.toNat := by
    rw [booted.maxBlocks]
    decide
  have first : MultibootInfo.IsModule (MultibootInfo.load reversedModulesMem 0x9000)
      ⟨0x120000, 0x122000⟩ := ⟨by decide, 0, by decide, by decide⟩
  have inModule : InModule ⟨0x120000, 0x122000⟩ 0x120000 := ⟨by decide, by decide⟩
  exact guarded.free 288 bound isFree 0x120000 (by simp)
    (Or.inr (Or.inr (Or.inl ⟨_, first, inModule⟩)))

end Pmm

end OrbitOs.Memory
