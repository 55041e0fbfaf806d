import OrbitOs.Memory.PmmAccounting

/-!
# What `pmm_initialize` depends on

Whether the initialisation ends is decided by the lengths in the memory map: the
walk over the entries always ends, and the loop over a region counts in 4 KiB
steps to a 32-bit length.  What the bitmap holds afterwards is decided by the
memory map and the sizes alone, except for the bits behind the whole bytes of
the fill: those keep what RAM held unless the sweep clears them.
-/

set_option autoImplicit false

namespace OrbitOs.Memory

open OrbitOs.Machine OrbitOs.Kernel OrbitOs.Base

namespace Pmm

/-! ## Termination -/

/-- On a well-formed memory map the walk over the entries that the boot loader
left ends.  The initialisation ends exactly when the walk over the entries as
they are read ends and the low word of no available length is within 4 KiB of
2^32; on a map apart from the bitmap these are the entries of the loader. -/
theorem pmmInitialize_ends_iff {mbi : Word} {mem : Mem}
    (wellFormed : MultibootInfo.WellFormedMmap mem mbi) (kernelEnd : Word) :
    ∃ map, MultibootInfo.Mmap mem mbi map ∧
      ((∃ fuel s, pmmInitialize fuel kernelEnd mbi mem = some s) ↔
        ∃ es, Met kernelEnd mbi mem es ∧
          ∀ e ∈ es, e.type = multibootMemoryAvailable → e.lenLow.toNat ≤ 2 ^ 32 - 4096) ∧
      (MapApart kernelEnd mbi mem →
        ((∃ fuel s, pmmInitialize fuel kernelEnd mbi mem = some s) ↔
          ∀ e ∈ map, e.type = multibootMemoryAvailable → e.lenLow.toNat ≤ 2 ^ 32 - 4096)) := by
  obtain ⟨map, mmap⟩ := wellFormed.mmap
  have ends : (∃ fuel s, pmmInitialize fuel kernelEnd mbi mem = some s) ↔
      ∃ es, Met kernelEnd mbi mem es ∧
        ∀ e ∈ es, e.type = multibootMemoryAvailable → e.lenLow.toNat ≤ 2 ^ 32 - 4096 := by
    constructor
    · rintro ⟨fuel, s, finishes⟩
      obtain ⟨es, met, _, short⟩ := pmmInitialize_spec finishes
      exact ⟨es, met, short⟩
    · rintro ⟨es, met, short⟩
      exact pmmInitialize_finishes met short
  refine ⟨map, mmap, ends, fun apart => ends.trans ?_⟩
  have met := (apart.met_iff map).mpr mmap
  constructor
  · rintro ⟨es, met', short⟩
    rwa [met.unique met']
  · intro short
    exact ⟨map, met, short⟩

theorem oneEntry_visits {mbi p : Word} {mem : Mem}
    (stop : (MultibootInfo.load mem mbi).mmapLength = 24)
    (size : (MultibootMmapEntry.load mem (MultibootInfo.load mem mbi).mmapAddr).size = 20)
    (visits : MultibootInfo.Visits mem mbi p) :
    p = (MultibootInfo.load mem mbi).mmapAddr ∨ p = (MultibootInfo.load mem mbi).mmapEnd := by
  induction visits with
  | start => exact Or.inl rfl
  | next _ inside ih =>
      rcases ih with rfl | rfl
      · right
        rw [size, MultibootInfo.mmapEnd, stop]
        grind
      · exact absurd inside (BitVec.lt_irrefl _)

/-- A map of one entry of size 20. -/
theorem oneEntry_wellFormed {mbi : Word} {mem : Mem}
    (stop : (MultibootInfo.load mem mbi).mmapLength = 24)
    (size : (MultibootMmapEntry.load mem (MultibootInfo.load mem mbi).mmapAddr).size = 20)
    (fits : (MultibootInfo.load mem mbi).mmapAddr.toNat + 24 ≤ 2 ^ 32) :
    MultibootInfo.WellFormedMmap mem mbi := by
  have length : (24 : Word).toNat = 24 := rfl
  refine ⟨by rw [stop, length]; exact fits, fun p visits inside => ?_, fun p visits inside => ?_⟩
  · rcases oneEntry_visits stop size visits with rfl | rfl
    · rw [size]
      decide
    · exact absurd inside (BitVec.lt_irrefl _)
  · rcases oneEntry_visits stop size visits with rfl | rfl
    · rw [size, stop]
      simp
    · exact absurd inside (BitVec.lt_irrefl _)

/-- One available region from 1 MiB, of a length below 4 GiB. -/
def oneRegionMem (lenLow : Word) : Mem :=
  loaderMem 0x40 640 0x2FFC00 [⟨20, 0x100000, 0, lenLow, 0, multibootMemoryAvailable⟩] []

theorem pmmInitialize_ends_iff_oneRegion :
    ∃ map, MultibootInfo.Mmap (oneRegionMem 0x40000) 0x9000 map ∧
      ((∃ fuel s, pmmInitialize fuel 0x10C000 0x9000 (oneRegionMem 0x40000) = some s) ↔
        ∃ es, Met 0x10C000 0x9000 (oneRegionMem 0x40000) es ∧
          ∀ e ∈ es, e.type = multibootMemoryAvailable → e.lenLow.toNat ≤ 2 ^ 32 - 4096) ∧
      (MapApart 0x10C000 0x9000 (oneRegionMem 0x40000) →
        ((∃ fuel s, pmmInitialize fuel 0x10C000 0x9000 (oneRegionMem 0x40000) = some s) ↔
          ∀ e ∈ map, e.type = multibootMemoryAvailable → e.lenLow.toNat ≤ 2 ^ 32 - 4096)) :=
  pmmInitialize_ends_iff (oneEntry_wellFormed (by decide) (by decide) (by decide)) 0x10C000

/-- A region of 4 GiB less 2 KiB: the counter steps from 2^32 - 4096 to 0. -/
theorem long_region_never_ends :
    MultibootInfo.WellFormedMmap (oneRegionMem 0xFFFFF800) 0x9000 ∧
      ∀ fuel, pmmInitialize fuel 0x10C000 0x9000 (oneRegionMem 0xFFFFF800) = none := by
  refine ⟨oneEntry_wellFormed (by decide) (by decide) (by decide), fun fuel => ?_⟩
  cases result : pmmInitialize fuel 0x10C000 0x9000 (oneRegionMem 0xFFFFF800) with
  | none => rfl
  | some s =>
      obtain ⟨es, met, _, short⟩ := pmmInitialize_spec result
      have apart : MapApart 0x10C000 0x9000 (oneRegionMem 0xFFFFF800) :=
        mapApart_of_below (by decide) (by decide) (by decide)
      have walked : Met 0x10C000 0x9000 (oneRegionMem 0xFFFFF800)
          [⟨20, 0x100000, 0, 0xFFFFF800, 0, multibootMemoryAvailable⟩] :=
        (apart.met_iff _).mpr (by decide)
      rw [met.unique walked] at short
      exact absurd (short _ (List.mem_singleton_self _) rfl) (by simp)

/-! ## Old RAM -/

/-- Two boots of the same machine, from memory that held different values, end
alike and leave allocators that hand out the same blocks. -/
structure SameBoot (kernelEnd mbi : Word) (mem mem' : Mem) : Prop where
  ends : (∃ fuel s, pmmInitialize fuel kernelEnd mbi mem = some s) ↔
    ∃ fuel s, pmmInitialize fuel kernelEnd mbi mem' = some s
  bits : ∀ fuel fuel' s s', pmmInitialize fuel kernelEnd mbi mem = some s →
    pmmInitialize fuel' kernelEnd mbi mem' = some s' →
    ∀ k < (maxBlocksOf (MultibootInfo.load mem mbi)).toNat, s.bit k = s'.bit k
  allocs : ∀ fuel fuel' s s', pmmInitialize fuel kernelEnd mbi mem = some s →
    pmmInitialize fuel' kernelEnd mbi mem' = some s' → ∀ n, nthAlloc s n = nthAlloc s' n

/-- Every bit behind the whole bytes of the fill is cleared by the sweep, or lies
in the bytes `tables`. -/
def TailSettled (kernelEnd : Word) (info : MultibootInfo) (tables : Word → Prop)
    (es : List MultibootMmapEntry) : Prop :=
  ∀ k < (maxBlocksOf info).toNat, 8 * ((maxBlocksOf info).toNat / 8) ≤ k →
    k ∈ swept (watermark kernelEnd info) es ∨
      tables (safeMemStart kernelEnd info + BitVec.ofNat 32 (k / 8))

instance (kernelEnd : Word) (info : MultibootInfo) (tables : Word → Prop) [DecidablePred tables]
    (es : List MultibootMmapEntry) : Decidable (TailSettled kernelEnd info tables es) :=
  inferInstanceAs (Decidable (∀ k < (maxBlocksOf info).toNat, _ → _))

/-- All that the allocator reads. -/
structure SameBits (s s' : Pmm) : Prop where
  size : s.maxBlocks = s'.maxBlocks
  bits : ∀ k < s.maxBlocks.toNat, s.bit k = s'.bit k

namespace SameBits

variable {s s' : Pmm} (same : SameBits s s')

include same

theorem freeBlocks : s.freeBlocks = s'.freeBlocks := by
  ext k
  rw [mem_freeBlocks, mem_freeBlocks, ← same.size]
  exact and_congr_right fun bound => by rw [same.bits k bound]

theorem take (k : Word) : SameBits (s.take k) (s'.take k) := by
  refine ⟨same.size, fun j bound => ?_⟩
  have small := s.maxBlocks.isLt
  rw [take_maxBlocks] at bound
  rw [bit_take s k (by omega), bit_take s' k (by omega), same.bits j bound]

theorem alloc : (pmmAllocBlock s).2 = (pmmAllocBlock s').2 ∧
    SameBits (pmmAllocBlock s).1 (pmmAllocBlock s').1 := by
  have free := same.freeBlocks
  rcases pmmAllocBlock_cases s with ⟨k, least, result⟩ | ⟨empty, result⟩
  · rcases pmmAllocBlock_cases s' with ⟨k', least', result'⟩ | ⟨empty', _⟩
    · have lowest : k = k' := BitVec.eq_of_toNat_eq (least.unique (free ▸ least'))
      subst lowest
      rw [result, result']
      exact ⟨rfl, same.take k⟩
    · exact absurd (free ▸ least.1) (empty' ▸ Set.notMem_empty _)
  · rcases pmmAllocBlock_cases s' with ⟨k', least', _⟩ | ⟨_, result'⟩
    · exact absurd (free ▸ least'.1) (empty ▸ Set.notMem_empty _)
    · rw [result, result']
      exact ⟨rfl, same⟩

theorem nthAlloc (n : ℕ) : nthAlloc s n = nthAlloc s' n := by
  induction n generalizing s s' with
  | zero => exact same.alloc.1
  | succ n ih => exact ih same.alloc.2

end SameBits

variable {kernelEnd mbi : Word} {info info' : MultibootInfo} {mem mem' : Mem}
  {es : List MultibootMmapEntry} {s s' : Pmm}

theorem eq_of_false_iff {a b : Bool} (same : a = false ↔ b = false) : a = b :=
  Bool.not_inj (Bool.coe_false_iff_false.mp same)

/-- Behind the fill, a bit that the sweep does not clear is the one RAM held. -/
theorem Booted.bit_behind (booted : Booted kernelEnd info mem es s) {k : ℕ}
    (bound : k < (maxBlocksOf info).toNat) (behind : 8 * ((maxBlocksOf info).toNat / 8) ≤ k)
    (unswept : k ∉ swept (watermark kernelEnd info) es) :
    s.bit k = ramBit kernelEnd info mem k := by
  have small := maxBlocksOf_lt info
  have clear := booted.bits k (by omega)
  simp only [FreeAtBoot, unswept, behind, false_or, true_and] at clear
  exact eq_of_false_iff clear

section Agreement

variable (apart : MapApart kernelEnd mbi mem) (agree : ∀ x, Structures mem mbi x → mem' x = mem x)

include apart agree

/-- The structures fix the map that is met and that its regions are short. -/
theorem pmmInitialize_finishes_iff_of_agree :
    (∃ fuel s, pmmInitialize fuel kernelEnd mbi mem = some s) ↔
      ∃ fuel s, pmmInitialize fuel kernelEnd mbi mem' = some s := by
  constructor
  · rintro ⟨fuel, s, finishes⟩
    obtain ⟨es, met, _, short⟩ := pmmInitialize_spec finishes
    exact pmmInitialize_finishes
      ((apart.met_iff_of_agree agree es).mpr ((apart.met_iff es).mp met)) short
  · rintro ⟨fuel, s, finishes⟩
    obtain ⟨es, met, _, short⟩ := pmmInitialize_spec finishes
    exact pmmInitialize_finishes
      ((apart.met_iff es).mpr ((apart.met_iff_of_agree agree es).mp met)) short

/-- What the boot from the other memory leaves, in terms of the structures of this one. -/
theorem booted_of_agree {fuel : ℕ} (mmap : MultibootInfo.Mmap mem mbi es)
    (finishes : pmmInitialize fuel kernelEnd mbi mem' = some s') :
    Booted kernelEnd (MultibootInfo.load mem mbi) mem' es s' := by
  have booted := pmmInitialize_booted finishes ((apart.met_iff_of_agree agree es).mpr mmap)
  obtain ⟨bitmap, maxBlocks, usedBlocks, bits⟩ := booted
  rw [safeMemStart_eq agree] at bitmap
  rw [maxBlocksOf_eq agree] at maxBlocks
  rw [maxBlocksOf_eq agree, watermark_eq agree] at usedBlocks
  refine ⟨bitmap, maxBlocks, usedBlocks, fun k bound => (bits k bound).trans ?_⟩
  rw [FreeAtBoot, FreeAtBoot, ramBit, ramBit, watermark_eq agree, safeMemStart_eq agree,
    maxBlocksOf_eq agree]

end Agreement

theorem Booted.bit_eq (booted : Booted kernelEnd info mem es s)
    (booted' : Booted kernelEnd info mem' es s') {tables : Word → Prop}
    (agree : ∀ x, tables x → mem' x = mem x) (settled : TailSettled kernelEnd info tables es)
    {k : ℕ} (bound : k < (maxBlocksOf info).toNat) : s.bit k = s'.bit k := by
  have small := maxBlocksOf_lt info
  by_cases member : k ∈ swept (watermark kernelEnd info) es
  · rw [(booted.bits k (by omega)).mpr (Or.inl member),
      (booted'.bits k (by omega)).mpr (Or.inl member)]
  · by_cases behind : 8 * ((maxBlocksOf info).toNat / 8) ≤ k
    · have inTables := (settled k bound behind).resolve_left member
      rw [booted.bit_behind bound behind member, booted'.bit_behind bound behind member, ramBit,
        ramBit, agree _ inTables]
    · apply eq_of_false_iff
      rw [booted.bits k (by omega), booted'.bits k (by omega)]
      simp [FreeAtBoot, member, behind]

/-- The memory with one byte inverted. -/
def flipped (mem : Mem) (a : Word) : Mem := fun x => if x = a then ~~~ mem x else mem x

/-- A bit that nothing settles tells two memories apart that differ in its byte. -/
theorem not_sameBoot_of_unsettled (apart : MapApart kernelEnd mbi mem)
    (mmap : MultibootInfo.Mmap mem mbi es)
    (short : ∀ e ∈ es, e.type = multibootMemoryAvailable → e.lenLow.toNat ≤ 2 ^ 32 - 4096) {k : ℕ}
    (bound : k < (maxBlocksOf (MultibootInfo.load mem mbi)).toNat)
    (behind : 8 * ((maxBlocksOf (MultibootInfo.load mem mbi)).toNat / 8) ≤ k)
    (unswept : k ∉ swept (watermark kernelEnd (MultibootInfo.load mem mbi)) es) {a : Word}
    (byte : a = safeMemStart kernelEnd (MultibootInfo.load mem mbi) + BitVec.ofNat 32 (k / 8))
    (outside : ¬ Structures mem mbi a) : ¬ SameBoot kernelEnd mbi mem (flipped mem a) := by
  intro same
  have agree : ∀ x, Structures mem mbi x → flipped mem a x = mem x := by
    intro x inside
    have elsewhere : x ≠ a := fun here => outside (here ▸ inside)
    exact if_neg elsewhere
  obtain ⟨fuel, s, finishes⟩ := pmmInitialize_finishes ((apart.met_iff es).mpr mmap) short
  obtain ⟨fuel', s', finishes'⟩ := same.ends.mp ⟨fuel, s, finishes⟩
  have booted := booted_of_agree apart (fun _ _ => rfl) mmap finishes
  have booted' := booted_of_agree apart agree mmap finishes'
  have bits := same.bits fuel fuel' s s' finishes finishes' k bound
  rw [booted.bit_behind bound behind unswept, booted'.bit_behind bound behind unswept, ramBit,
    ramBit, ← byte, flipped, if_pos rfl, BitVec.getLsbD_not,
    decide_eq_true (Nat.mod_lt k (by simp)), Bool.true_and] at bits
  simp at bits

/-- A machine with 640 KB below and 388 KB above 1 MiB: 257 blocks, the last of
them the first page of the kernel. -/
def tinyMem : Mem :=
  loaderMem 0x40 640 388 [⟨20, 0x100000, 0, 0x61000, 0, multibootMemoryAvailable⟩] []

theorem tiny_mapApart : MapApart 0x10C000 0x9000 tinyMem :=
  mapApart_of_below (by decide) (by decide) (by decide)

end Pmm

end OrbitOs.Memory
