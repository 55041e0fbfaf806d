import Mathlib
import OrbitOs.Base.Pages
import OrbitOs.Memory.Blocks
import OrbitOs.Memory.PmmBounds
import OrbitOs.Memory.PmmProtection

/-!
# The RAM that initialisation frees

The memory map describes ranges of 64-bit addresses.  The sweep reads the low
halves of base and length and walks from the base in steps of one page, so it
frees pages that a range only partly covers, and for a range beyond 4 GiB pages
at other addresses.  Then: which pages an exhausting series of allocations returns.
-/

set_option autoImplicit false

namespace OrbitOs.Memory

open OrbitOs.Machine OrbitOs.Kernel OrbitOs.Base

namespace Pmm

/-! ## The memory map as sets of addresses -/

/-- `addr_high` and `addr_low` -/
def base (e : MultibootMmapEntry) : ℕ := 2 ^ 32 * e.addrHigh.toNat + e.addrLow.toNat

/-- `len_high` and `len_low` -/
def len (e : MultibootMmapEntry) : ℕ := 2 ^ 32 * e.lenHigh.toNat + e.lenLow.toNat

def extent (e : MultibootMmapEntry) : Set ℕ := Set.Ico (base e) (base e + len e)

def availableRam (es : List MultibootMmapEntry) : Set ℕ :=
  {x | ∃ e ∈ es, e.type = multibootMemoryAvailable ∧ x ∈ extent e}

/-- Block `k` is available RAM and nothing else. -/
def OnlyAvailable (es : List MultibootMmapEntry) (k : ℕ) : Prop :=
  page 4096 k ⊆ availableRam es ∧
    ∀ e ∈ es, e.type ≠ multibootMemoryAvailable → Disjoint (page 4096 k) (extent e)

/-- The entry ends at or below 4 GiB. -/
def Low (e : MultibootMmapEntry) : Prop := base e + len e ≤ 2 ^ 32

instance (e : MultibootMmapEntry) : Decidable (Low e) := inferInstanceAs (Decidable (_ ≤ _))

/-! ## The pages that one entry frees -/

/-- The loop over the entry compares the address in page `k` that has the offset
of the base with the watermark, and frees the page. -/
def Frees (safe : Word) (e : MultibootMmapEntry) (k : ℕ) : Prop :=
  safe.toNat ≤ 4096 * k + e.addrLow.toNat % 4096 ∧ k < 2 ^ 20 ∧
    (Hits 4096 e.addrLow.toNat e.lenLow.toNat k ∨
      Hits 4096 e.addrLow.toNat e.lenLow.toNat (k + 2 ^ 20))

instance (safe : Word) (e : MultibootMmapEntry) (k : ℕ) : Decidable (Frees safe e k) :=
  inferInstanceAs (Decidable (_ ∧ _))

theorem mem_swept_iff_frees {safe : Word} {es : List MultibootMmapEntry} {k : ℕ} :
    k ∈ swept safe es ↔ ∃ e ∈ es, e.type = multibootMemoryAvailable ∧ Frees safe e k := by
  rw [mem_swept_iff]
  refine exists_congr fun e => and_congr_right fun _ => and_congr_right fun _ => ?_
  have aBound := e.addrLow.isLt
  have lBound := e.lenLow.isLt
  have walk := exists_step_mod_iff (p := 4096) (k := k) (m := 2 ^ 20) (by simp) aBound
    (Nat.le_of_lt lBound)
  have step : ∀ n, (e.addrLow + BitVec.ofNat 32 (4096 * n)).toNat =
      (e.addrLow.toNat + 4096 * n) % (4096 * 2 ^ 20) := by
    intro n
    have whole : 4096 * 2 ^ 20 = 2 ^ 32 := by norm_num
    rw [BitVec.toNat_add, BitVec.toNat_ofNat, Nat.add_mod_mod, whole]
  -- the visited address of the page
  have visited : ∀ n, (e.addrLow.toNat + 4096 * n) % (4096 * 2 ^ 20) / 4096 = k →
      (e.addrLow.toNat + 4096 * n) % (4096 * 2 ^ 20) = 4096 * k + e.addrLow.toNat % 4096 := by
    intro n index
    omega
  unfold Frees
  rw [← walk]
  constructor
  · rintro ⟨n, bound, above, index⟩
    rw [BitVec.le_def, step] at above
    rw [step] at index
    exact ⟨visited n index ▸ above, n, bound, index⟩
  · rintro ⟨above, n, bound, index⟩
    refine ⟨n, bound, ?_, ?_⟩
    · rw [BitVec.le_def, step, visited n index]
      exact above
    · rw [step]
      exact index

/-- The walk over an entry below 4 GiB does not wrap. -/
theorem Low.frees_iff {e : MultibootMmapEntry} (low : Low e) {safe : Word} {k : ℕ} :
    Frees safe e k ↔ safe.toNat ≤ 4096 * k + e.addrLow.toNat % 4096 ∧
      Hits 4096 e.addrLow.toNat e.lenLow.toNat k := by
  unfold Low base len at low
  unfold Frees Hits
  omega

/-- An entry below 4 GiB has no high halves, unless it is all of that memory. -/
theorem Low.halves {e : MultibootMmapEntry} (low : Low e) (nonempty : 0 < len e) :
    base e = e.addrLow.toNat ∧ (len e = e.lenLow.toNat ∨ base e = 0 ∧ len e = 2 ^ 32) := by
  unfold Low at low
  unfold base len at *
  omega

/-- An entry below 4 GiB that frees something. -/
theorem Low.halves_of_hits {e : MultibootMmapEntry} (low : Low e) {k : ℕ}
    (hits : Hits 4096 e.addrLow.toNat e.lenLow.toNat k) :
    base e = e.addrLow.toNat ∧ len e = e.lenLow.toNat := by
  unfold Low at low
  unfold Hits at hits
  unfold base len at *
  omega

/-! ## The condition -/

/-- Whatever the sweep frees beyond the entry that made it do so is available
RAM of the map too, and no entry of another type reaches into the freed pages.
The sweep goes over the entries `es` as they are read. -/
structure Tidy (safe : Word) (map es : List MultibootMmapEntry) : Prop where
  /-- A base above the watermark inside a page: the beginning of that page. -/
  first : ∀ e ∈ es, e.type = multibootMemoryAvailable → Low e → e ∈ map → 0 < len e →
    safe.toNat ≤ base e → Set.Ico (4096 * (base e / 4096)) (base e) ⊆ availableRam map
  /-- An end with a larger offset in its page than the base: the rest of that page,
  if the step in it is above the watermark. -/
  last : ∀ e ∈ es, e.type = multibootMemoryAvailable → Low e → e ∈ map →
    base e % 4096 < (base e + len e) % 4096 →
    safe.toNat ≤ 4096 * ((base e + len e) / 4096) + base e % 4096 →
    Set.Ico (base e + len e) (4096 * ((base e + len e) / 4096) + 4096) ⊆ availableRam map
  /-- An entry that reaches beyond 4 GiB, or is not read as the map has it: all
  pages of its low halves. -/
  high : ∀ e ∈ es, e.type = multibootMemoryAvailable → ¬ Low e ∨ e ∉ map →
    ∀ k, Frees safe e k → page 4096 k ⊆ availableRam map
  others : ∀ e ∈ es, e.type = multibootMemoryAvailable →
    ∀ r ∈ map, r.type ≠ multibootMemoryAvailable →
    ∀ x ∈ extent r, ¬ Frees safe e (x / 4096)

variable {kernelEnd mbi : Word} {info : MultibootInfo} {mem : Mem}
  {map es : List MultibootMmapEntry} {s : Pmm} {safe : Word}

theorem swept_onlyAvailable_iff_tidy :
    (∀ k ∈ swept safe es, OnlyAvailable map k) ↔ Tidy safe map es := by
  constructor
  · intro only
    have covered : ∀ e ∈ es, e.type = multibootMemoryAvailable → ∀ k, Frees safe e k →
        OnlyAvailable map k := fun e swept available k frees =>
      only k (mem_swept_iff_frees.mpr ⟨e, swept, available, frees⟩)
    refine ⟨?_, ?_, ?_, ?_⟩
    · intro e swept available low _ nonempty above x before
      rw [Set.mem_Ico] at before
      have halves := low.halves nonempty
      have frees : Frees safe e (base e / 4096) := by
        rw [low.frees_iff]
        unfold Hits
        omega
      refine (covered e swept available _ frees).1 ((mem_page_iff (by simp)).mpr ?_)
      omega
    · intro e swept available low _ offset above x behind
      rw [Set.mem_Ico] at behind
      have nonempty : 0 < len e := by
        rw [Nat.pos_iff_ne_zero]
        intro zero
        rw [zero, Nat.add_zero] at offset
        exact Nat.lt_irrefl _ offset
      have halves := low.halves nonempty
      have frees : Frees safe e ((base e + len e) / 4096) := by
        rw [low.frees_iff]
        unfold Hits
        omega
      refine (covered e swept available _ frees).1 ((mem_page_iff (by simp)).mpr ?_)
      omega
    · intro e swept available _ k frees
      exact (covered e swept available k frees).1
    · intro e swept available r inMap other x member frees
      have apart := (covered e swept available _ frees).2 r inMap other
      exact Set.disjoint_left.mp apart ((mem_page_iff (by simp)).mpr rfl) member
  · intro tidy k member
    obtain ⟨e, swept, available, frees⟩ := mem_swept_iff_frees.mp member
    refine ⟨fun x inPage => ?_, fun r inMap other => ?_⟩
    · by_cases asMapped : Low e ∧ e ∈ map
      · obtain ⟨low, inMap⟩ := asMapped
        obtain ⟨above, hits⟩ := low.frees_iff.mp frees
        obtain ⟨baseEq, lenEq⟩ := low.halves_of_hits hits
        by_cases inside : x ∈ extent e
        · exact ⟨e, inMap, available, inside⟩
        rw [extent, baseEq, lenEq] at inside
        rcases hits.outside (by simp) inPage inside with
          ⟨before, firstPage⟩ | ⟨behind, lastPage, offset⟩
        · unfold Hits at hits
          refine tidy.first e swept available low inMap ?_ ?_ ?_
          · omega
          · omega
          · rw [Set.mem_Ico]
            rw [page, Set.mem_Ico] at inPage
            omega
        · refine tidy.last e swept available low inMap ?_ ?_ ?_
          · rwa [baseEq, lenEq]
          · rwa [baseEq, lenEq, lastPage]
          · rw [Set.mem_Ico, baseEq, lenEq, lastPage]
            rw [page, Set.mem_Ico] at inPage
            exact ⟨behind, inPage.2⟩
      · exact tidy.high e swept available (not_and_or.mp asMapped) k frees inPage
    · rw [Set.disjoint_left]
      intro x inPage inOther
      rw [mem_page_iff (by simp)] at inPage
      exact tidy.others e swept available r inMap other x inOther (inPage ▸ frees)

/-- Initialisation frees nothing but available RAM of the map that the boot
loader left exactly when the entries it meets are tidy. -/
theorem clears_onlyAvailable_iff_tidy {fuel : ℕ}
    (finishes : pmmInitialize fuel kernelEnd mbi mem = some s)
    (_ : MultibootInfo.Mmap mem mbi map) (met : Met kernelEnd mbi mem es) :
    (∀ fuel ks, pmmInitializeClears fuel kernelEnd mbi mem = some ks →
      ∀ k ∈ ks, OnlyAvailable map k.toNat) ↔
        Tidy (watermark kernelEnd (MultibootInfo.load mem mbi)) map es := by
  rw [← swept_onlyAvailable_iff_tidy]
  have index : ∀ k ∈ swept (watermark kernelEnd (MultibootInfo.load mem mbi)) es,
      (BitVec.ofNat 32 k).toNat = k := by
    intro k member
    have small := swept_lt member
    rw [BitVec.toNat_ofNat]
    exact Nat.mod_eq_of_lt (by omega)
  constructor
  · intro only k member
    obtain ⟨fuel', ks, done⟩ := pmmInitializeClears_finishes finishes
    have cleared := only fuel' ks done (BitVec.ofNat 32 k) (by
      rw [pmmInitializeClears_spec done met]
      exact List.mem_map_of_mem member)
    rwa [index k member] at cleared
  · intro only fuel' ks done k member
    rw [pmmInitializeClears_spec done met] at member
    obtain ⟨j, jSwept, rfl⟩ := List.mem_map.mp member
    rw [index j jSwept]
    exact only j jSwept

theorem clears_onlyAvailable_iff_tidy_lowRegion :
    ∃ fuel s, pmmInitialize fuel 0x13C000 0x9000 lowRegionMem = some s ∧
      ((∀ fuel ks, pmmInitializeClears fuel 0x13C000 0x9000 lowRegionMem = some ks →
        ∀ k ∈ ks, OnlyAvailable lowRegion k.toNat) ↔
          Tidy (watermark 0x13C000 (MultibootInfo.load lowRegionMem 0x9000)) lowRegion
            lowRegion) := by
  obtain ⟨fuel, s, finishes⟩ := lowRegion_finishes
  exact ⟨fuel, s, finishes,
    clears_onlyAvailable_iff_tidy finishes (by decide) lowRegion_met⟩

/-- RAM from 1 MiB that ends with 1 KB of a page reserved. -/
def raggedMap : List MultibootMmapEntry :=
  [⟨20, 0x100000, 0, 0x3FC00, 0, multibootMemoryAvailable⟩, ⟨20, 0x13FC00, 0, 0x400, 0, 2⟩]

def raggedMem : Mem := loaderMem 0x40 640 255 raggedMap []

theorem ragged_met : Met 0x10C000 0x9000 raggedMem raggedMap :=
  met_of_below (by decide) (by decide) (by decide) (by decide)

/-- Block 319 is freed, and its last kilobyte is reserved. -/
theorem ragged_map_frees_reserved :
    MultibootInfo.Mmap raggedMem 0x9000 raggedMap ∧
      (∃ fuel s, pmmInitialize fuel 0x10C000 0x9000 raggedMem = some s) ∧
      ∃ fuel ks, pmmInitializeClears fuel 0x10C000 0x9000 raggedMem = some ks ∧
        ∃ k ∈ ks, ¬ OnlyAvailable raggedMap k.toNat := by
  obtain ⟨fuel, s, finishes⟩ := pmmInitialize_finishes ragged_met (by decide)
  obtain ⟨fuel', ks, done⟩ := pmmInitializeClears_finishes finishes
  refine ⟨by decide, ⟨fuel, s, finishes⟩, fuel', ks, done, 319, ?_, fun only => ?_⟩
  · rw [pmmInitializeClears_spec done ragged_met]
    decide
  · have apart := only.2 ⟨20, 0x13FC00, 0, 0x400, 0, 2⟩ (by decide) (by decide)
    have inPage : 0x13FC00 ∈ page 4096 319 := (mem_page_iff (by simp)).mpr (by simp)
    exact Set.disjoint_left.mp apart inPage ⟨by decide, by decide⟩

/-! ## What repeated allocation returns -/

/-- Some call of a series of allocations returns block `k`, and no call up to
it returns 0. -/
def Returned (s : Pmm) (k : ℕ) : Prop :=
  ∃ n, nthAlloc s n = blockAddr k ∧ ∀ m ≤ n, nthAlloc s m ≠ 0

theorem Returned.free {k : ℕ} (small : s.maxBlocks.toNat < 2 ^ 20) (kBound : k < 2 ^ 20)
    (returned : Returned s k) : k ∈ s.freeBlocks := by
  obtain ⟨n, value, nonzero⟩ := returned
  obtain ⟨j, same, free⟩ := nthAlloc_free s n (nonzero n (Nat.le_refl n))
  have jBound := (mem_freeBlocks.mp free).1
  rw [value, mul_4096_eq_blockAddr] at same
  rwa [blockAddr_injective kBound (by omega) same]

/-- Every free block is returned as long as block 0 is not free; the measure is
the number of clear bits. -/
theorem returned_of_free (s : Pmm) (small : s.maxBlocks.toNat < 2 ^ 20)
    (zeroUsed : 0 ∉ s.freeBlocks) {k : ℕ} (free : k ∈ s.freeBlocks) : Returned s k := by
  induction measure : s.maxBlocks.toNat - s.setBits using Nat.strong_induction_on
    generalizing s with
  | _ left ih =>
      rcases pmmAllocBlock_cases s with ⟨j, least, result⟩ | ⟨empty, _⟩
      · have jBound := (mem_freeBlocks.mp least.1).1
        have first : nthAlloc s 0 = blockAddr j.toNat := by
          rw [nthAlloc, result, mul_4096_eq_blockAddr]
        have firstNonzero : nthAlloc s 0 ≠ 0 := by
          rw [first, ne_eq, blockAddr_eq_zero_iff (by omega)]
          exact fun zero => zeroUsed (zero ▸ least.1)
        by_cases here : k = j.toNat
        · refine ⟨0, here ▸ first, fun m bound => ?_⟩
          rw [Nat.le_zero.mp bound]
          exact firstNonzero
        · have grown := History.setBits_take least.1
          have le := History.setBits_le (s.take j)
          rw [grown, take_maxBlocks] at le
          have rest : ∀ n, nthAlloc s (n + 1) = nthAlloc (s.take j) n := by
            intro n
            rw [nthAlloc, result]
          obtain ⟨n, value, nonzero⟩ := ih _ (by rw [grown, take_maxBlocks]; omega) (s.take j)
            small (fun zero => zeroUsed (freeBlocks_take s j ▸ zero).1)
            (freeBlocks_take s j ▸ ⟨free, here⟩) rfl
          refine ⟨n + 1, (rest n).trans value, fun m bound => ?_⟩
          cases m with
          | zero => exact firstNonzero
          | succ m =>
              rw [rest]
              exact nonzero m (by omega)
      · rw [empty] at free
        contradiction

/-! ## Usable blocks -/

/-- Address `a` is at or above the ends of the kernel, the modules and the bitmap. -/
structure AboveProtected (kernelEnd : Word) (info : MultibootInfo) (a : ℕ) : Prop where
  kernel : kernelEnd.toNat ≤ a
  modules : ∀ m, info.IsModule m → m.modEnd.toNat ≤ a
  bitmap : (safeMemStart kernelEnd info).toNat + (bitmapSize info).toNat ≤ a

theorem AboveProtected.mono {a b : ℕ} (above : AboveProtected kernelEnd info a) (le : a ≤ b) :
    AboveProtected kernelEnd info b :=
  ⟨above.kernel.trans le, fun m isModule => (above.modules m isModule).trans le,
    above.bitmap.trans le⟩

/-- Block `k` lies in an available region, above all that is protected. -/
def Usable (kernelEnd : Word) (info : MultibootInfo) (es : List MultibootMmapEntry) (k : ℕ) :
    Prop :=
  AboveProtected kernelEnd info (4096 * k) ∧
    ∃ e ∈ es, e.type = multibootMemoryAvailable ∧ page 4096 k ⊆ extent e

/-- The last whole page of every available region of the map is below
`pmm_max_blocks`, if it is above all that is protected; and when the region is
not read as the map has it, all its pages above that are free after the boot. -/
def CountCovers (kernelEnd : Word) (info : MultibootInfo) (mem : Mem)
    (map es : List MultibootMmapEntry) : Prop :=
  ∀ e ∈ map, e.type = multibootMemoryAvailable →
    (∀ k, k + 1 = (base e + len e) / 4096 → base e ≤ 4096 * k →
      AboveProtected kernelEnd info (4096 * k) → k < (maxBlocksOf info).toNat) ∧
    (e ∉ es → ∀ k, page 4096 k ⊆ extent e → AboveProtected kernelEnd info (4096 * k) →
      FreeAtBoot kernelEnd info mem es k)

theorem page_subset_extent_iff {e : MultibootMmapEntry} {k : ℕ} :
    page 4096 k ⊆ extent e ↔ base e ≤ 4096 * k ∧ 4096 * k + 4096 ≤ base e + len e :=
  page_subset_Ico_iff (by simp)

/-- A block above all that is protected is freed by an entry it lies in. -/
theorem AboveProtected.swept {k : ℕ} (above : AboveProtected kernelEnd info (4096 * k))
    {e : MultibootMmapEntry} (inMap : e ∈ es) (available : e.type = multibootMemoryAvailable)
    (inside : page 4096 k ⊆ extent e) (fits : base e + len e < 2 ^ 32) :
    k ∈ swept (watermark kernelEnd info) es := by
  have bounds := page_subset_extent_iff.mp inside
  have halves : base e = e.addrLow.toNat ∧ len e = e.lenLow.toNat := by
    unfold base len at *
    omega
  have noWrap : (watermark kernelEnd info).toNat ≤ 4096 * k := by
    have bitmap := above.bitmap
    rw [watermark, BitVec.toNat_add]
    omega
  rw [extent, halves.1, halves.2] at inside
  have hits := hits_of_page_subset (by simp) inside
  exact mem_swept_iff_frees.mpr ⟨e, inMap, available, by omega, by omega, Or.inl hits⟩

/-- Block 0 stays in use when some block above the kernel has a bit. -/
theorem Booted.zero_not_free (booted : Booted kernelEnd info mem es s)
    (kernelHigh : 0x100000 ≤ kernelEnd) {k : ℕ}
    (above : AboveProtected kernelEnd info (4096 * k)) (bound : k < (maxBlocksOf info).toNat) :
    0 ∉ s.freeBlocks := by
  intro zeroFree
  have small := maxBlocksOf_lt info
  have kernelLow := kernelEnd_le_safeMemStart kernelEnd info
  have bitmap := above.bitmap
  have kernel := above.kernel
  rw [BitVec.le_def] at kernelHigh kernelLow
  have million : (0x100000 : Word).toNat = 0x100000 := rfl
  rcases (booted.bits 0 (by simp)).mp (mem_freeBlocks.mp zeroFree).2 with reached | ⟨tail, _⟩
  · obtain ⟨e, _, _, low, _⟩ := mem_swept_iff_frees.mp reached
    rw [watermark, BitVec.toNat_add, Nat.mod_eq_of_lt (by omega)] at low
    omega
  · omega

/-- No usable block of the map that the boot loader left is lost exactly when the
count covers it. -/
theorem usable_returned_iff_countCovers {fuel : ℕ} (kernelHigh : 0x100000 ≤ kernelEnd)
    (finishes : pmmInitialize fuel kernelEnd mbi mem = some s)
    (_ : MultibootInfo.Mmap mem mbi map) (met : Met kernelEnd mbi mem es)
    (below : ∀ e ∈ map, e.type = multibootMemoryAvailable → Low e) :
    (∀ k, Usable kernelEnd (MultibootInfo.load mem mbi) map k → Returned s k) ↔
      CountCovers kernelEnd (MultibootInfo.load mem mbi) mem map es := by
  have booted := pmmInitialize_booted finishes met
  generalize MultibootInfo.load mem mbi = info at booted ⊢
  have small := maxBlocksOf_lt info
  have sSmall := booted.maxBlocks_lt
  constructor
  · intro all e inMap available
    have low : base e + len e ≤ 2 ^ 32 := below e inMap available
    have isFree : ∀ k, page 4096 k ⊆ extent e → AboveProtected kernelEnd info (4096 * k) →
        k ∈ s.freeBlocks := by
      intro k inside above
      have bounds := page_subset_extent_iff.mp inside
      exact (all k ⟨above, e, inMap, available, inside⟩).free sSmall (by omega)
    refine ⟨fun k last inside above => ?_, fun _ k inside above => ?_⟩
    · have free := isFree k (page_subset_extent_iff.mpr (by omega)) above
      exact booted.maxBlocks ▸ (mem_freeBlocks.mp free).1
    · have bounds := page_subset_extent_iff.mp inside
      exact (booted.bits k (by omega)).mp (mem_freeBlocks.mp (isFree k inside above)).2
  · rintro covers k ⟨above, e, inMap, available, inside⟩
    have bounds := page_subset_extent_iff.mp inside
    have low : base e + len e ≤ 2 ^ 32 := below e inMap available
    obtain ⟨count, reads⟩ := covers e inMap available
    -- the last whole page of the region
    obtain ⟨top, last⟩ : ∃ top, top + 1 = (base e + len e) / 4096 :=
      ⟨(base e + len e) / 4096 - 1, by omega⟩
    have topBound := count top last (by omega) (above.mono (by omega))
    have kBound : k < (maxBlocksOf info).toNat := by omega
    have reached : FreeAtBoot kernelEnd info mem es k := by
      by_cases swept : e ∈ es
      · exact Or.inl (above.swept swept available inside (by omega))
      · exact reads swept k inside above
    have free : k ∈ s.freeBlocks := mem_freeBlocks.mpr
      ⟨booted.maxBlocks ▸ kBound, (booted.bits k (by omega)).mpr reached⟩
    exact returned_of_free s sSmall (booted.zero_not_free kernelHigh above kBound) free

theorem usable_returned_iff_countCovers_lowRegion :
    ∃ fuel s, pmmInitialize fuel 0x13C000 0x9000 lowRegionMem = some s ∧
      ((∀ k, Usable 0x13C000 (MultibootInfo.load lowRegionMem 0x9000) lowRegion k →
        Returned s k) ↔
          CountCovers 0x13C000 (MultibootInfo.load lowRegionMem 0x9000) lowRegionMem lowRegion
            lowRegion) := by
  obtain ⟨fuel, s, finishes⟩ := lowRegion_finishes
  exact ⟨fuel, s, finishes, usable_returned_iff_countCovers (by decide) finishes (by decide)
    lowRegion_met (by decide)⟩

/-- On the ordinary map block 272 is usable and never returned. -/
theorem ordinary_map_loses_block :
    Consistent (MultibootInfo.load ordinaryMem 0x9000) ordinaryMap ∧
      ∃ fuel s, pmmInitialize fuel 0x10C000 0x9000 ordinaryMem = some s ∧
        Usable 0x10C000 (MultibootInfo.load ordinaryMem 0x9000) ordinaryMap 272 ∧
        ¬ Returned s 272 := by
  obtain ⟨fuel, s, finishes⟩ := ordinary_finishes
  have booted := pmmInitialize_booted finishes ordinary_met
  have size : s.maxBlocks.toNat = 192 := by
    rw [booted.maxBlocks]
    decide
  have noModules : ∀ m, ¬ MultibootInfo.IsModule (MultibootInfo.load ordinaryMem 0x9000) m := by
    rintro m ⟨announced, -⟩
    exact absurd announced (by decide)
  refine ⟨ordinary_consistent, fuel, s, finishes, ⟨⟨by decide, ?_, by decide⟩, ?_⟩, ?_⟩
  · intro m isModule
    exact absurd isModule (noModules m)
  · exact ⟨⟨20, 0x100000, 0, 0x20000, 0, multibootMemoryAvailable⟩, by decide, rfl,
      page_subset_extent_iff.mpr (by decide)⟩
  · intro returned
    have bound := (mem_freeBlocks.mp (returned.free (by omega) (by simp))).1
    omega

end Pmm

end OrbitOs.Memory
