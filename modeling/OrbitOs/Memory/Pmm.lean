import OrbitOs.Base.SlotPool
import OrbitOs.Kernel.CopyFill

/-!
# The physical memory manager of memory/pmm.c

The bitmap lives in memory behind `pmm_bitmap` and is accessed by 32-bit words.
`Pmm.bit` reads one of its bits bytewise; the accessors of the source are shown
to test and change exactly that bit, and every later proof works with bits.
-/

set_option autoImplicit false

namespace OrbitOs.Memory

open OrbitOs.Machine OrbitOs.Kernel OrbitOs.Base

/-- The static variables of pmm.c and the memory they point into. -/
structure Pmm where
  mem : Mem
  bitmap : Word
  maxBlocks : Word
  usedBlocks : Word

namespace Pmm

/-! ## Bitmap accessors -/

/-- Address of `pmm_bitmap[bit / 32]`. -/
def wordAt (s : Pmm) (bit : Word) : Word := s.bitmap + 4 * (bit / 32)

def bitmapSet (s : Pmm) (bit : Word) : Pmm :=
  { s with
    mem := st32 s.mem (s.wordAt bit) (ld32 s.mem (s.wordAt bit) ||| 1#32 <<< (bit % 32)) }

def bitmapClear (s : Pmm) (bit : Word) : Pmm :=
  { s with
    mem := st32 s.mem (s.wordAt bit) (ld32 s.mem (s.wordAt bit) &&& ~~~(1#32 <<< (bit % 32))) }

def bitmapTest (s : Pmm) (bit : Word) : Word :=
  ld32 s.mem (s.wordAt bit) &&& 1#32 <<< (bit % 32)

/-! ## Allocation -/

/-- `for (i = ..; i < pmm_max_blocks; i++)`; the first argument bounds the
iterations that are left and `pmmAllocBlock` starts it at `pmm_max_blocks`. -/
def pmmAllocLoop : Nat → Word → Pmm → Pmm × Word
  | 0, _, s => (s, 0)
  | left + 1, i, s =>
    if i < s.maxBlocks then
      if s.bitmapTest i = 0 then
        ({ s.bitmapSet i with usedBlocks := s.usedBlocks + 1 }, i * 4096)
      else pmmAllocLoop left (i + 1) s
    else (s, 0)

def pmmAllocBlock (s : Pmm) : Pmm × Word := pmmAllocLoop s.maxBlocks.toNat 0 s

def pmmFreeBlock (s : Pmm) (addr : Word) : Pmm :=
  let block := addr / 4096
  if s.bitmapTest block ≠ 0 then
    { s.bitmapClear block with usedBlocks := s.usedBlocks - 1 }
  else s

def pmmGetTotalMemory (s : Pmm) : Word := s.maxBlocks * 4096

def pmmGetFreeMemory (s : Pmm) : Word := (s.maxBlocks - s.usedBlocks) * 4096

def pmmGetUsedMemory (s : Pmm) : Word := s.usedBlocks * 4096

/-! ## Bits -/

/-- Bit `k` of the bitmap. -/
def bit (s : Pmm) (k : ℕ) : Bool := (s.mem (s.bitmap + BitVec.ofNat 32 (k / 8))).getLsbD (k % 8)

/-- The memory the bitmap accesses for indices below `n` fall in. -/
def bitmapBytes (n : ℕ) : ℕ := 4 * ((n + 31) / 32)

theorem word_offset (b : Word) : (4 * (b / 32) : Word) = BitVec.ofNat 32 (4 * (b.toNat / 32)) := by
  apply BitVec.eq_of_toNat_eq
  simp [BitVec.toNat_mul, BitVec.toNat_udiv]

theorem ofNat_word_add_byte (bitmap b : Word) {j : ℕ} :
    bitmap + 4 * (b / 32) + BitVec.ofNat 32 (j / 8) =
      bitmap + BitVec.ofNat 32 ((32 * (b.toNat / 32) + j) / 8) := by
  rw [word_offset, BitVec.add_assoc, ← BitVec.ofNat_add]
  congr 2
  omega

theorem getLsbD_word (s : Pmm) (b : Word) {j : ℕ} (bound : j < 32) :
    (ld32 s.mem (s.wordAt b)).getLsbD j = s.bit (32 * (b.toNat / 32) + j) := by
  rw [getLsbD_ld32 s.mem _ bound, wordAt, ofNat_word_add_byte s.bitmap b, bit]
  congr 1
  omega

theorem within_word_iff (bitmap b : Word) {k : ℕ} (bound : k < 2 ^ 32) :
    Within (bitmap + 4 * (b / 32)) 4 (bitmap + BitVec.ofNat 32 (k / 8)) ↔
      k / 32 = b.toNat / 32 := by
  have hb := b.isLt
  have distance : (bitmap + BitVec.ofNat 32 (k / 8) -
      (bitmap + BitVec.ofNat 32 (4 * (b.toNat / 32)))).toNat =
      (2 ^ 32 - 4 * (b.toNat / 32) + k / 8) % 2 ^ 32 := by
    bv_omega
  rw [word_offset]
  unfold Within
  rw [distance]
  omega

/-- Storing a word of the bitmap replaces 32 bits and keeps all others. -/
theorem bit_storeWord (s : Pmm) (b v : Word) {k : ℕ} (bound : k < 2 ^ 32) :
    ({ s with mem := st32 s.mem (s.wordAt b) v } : Pmm).bit k =
      if k / 32 = b.toNat / 32 then v.getLsbD (k % 32) else s.bit k := by
  by_cases same : k / 32 = b.toNat / 32
  · have located : s.bitmap + BitVec.ofNat 32 (k / 8) =
        s.wordAt b + BitVec.ofNat 32 (k % 32 / 8) := by
      rw [wordAt, ofNat_word_add_byte s.bitmap b, ← same,
        Nat.div_add_mod]
    rw [if_pos same, bit]
    simp only [located]
    rw [st32_byte s.mem (s.wordAt b) v (by omega), BitVec.getLsbD_extractLsb',
      decide_eq_true (Nat.mod_lt k (by simp)), Bool.true_and]
    congr 1
    omega
  · rw [if_neg same, bit]
    have outside : ¬ Within (s.wordAt b) 4 (s.bitmap + BitVec.ofNat 32 (k / 8)) := by
      rw [wordAt, within_word_iff s.bitmap b bound]
      exact same
    simp only [st32_outside s.mem _ v outside]
    rfl

theorem getLsbD_one_shiftLeft (b : Word) (j : ℕ) :
    (1#32 <<< (b % 32)).getLsbD j = decide (j = b.toNat % 32) := by
  have shift : (b % 32).toNat = b.toNat % 32 := by
    rw [BitVec.toNat_umod]
    rfl
  rw [BitVec.shiftLeft_eq', shift, BitVec.getLsbD_shiftLeft]
  by_cases same : j = b.toNat % 32
  · simp [same, Nat.mod_lt]
  · by_cases lower : j < b.toNat % 32
    · simp [same, lower]
    · have positive : j - b.toNat % 32 ≠ 0 := by omega
      simp [same, positive]

theorem bit_bitmapSet (s : Pmm) (b : Word) {k : ℕ} (bound : k < 2 ^ 32) :
    (s.bitmapSet b).bit k = (decide (k = b.toNat) || s.bit k) := by
  rw [bitmapSet, bit_storeWord s b _ bound]
  split
  · rename_i same
    rw [BitVec.getLsbD_or, getLsbD_word s b (Nat.mod_lt k (by simp)), ← same, Nat.div_add_mod,
      getLsbD_one_shiftLeft, Bool.or_comm]
    congr 1
    rw [decide_eq_decide]
    omega
  · rename_i other
    have ne : k ≠ b.toNat := fun h => other (by rw [h])
    simp [ne]

theorem bit_bitmapClear (s : Pmm) (b : Word) {k : ℕ} (bound : k < 2 ^ 32) :
    (s.bitmapClear b).bit k = (!decide (k = b.toNat) && s.bit k) := by
  rw [bitmapClear, bit_storeWord s b _ bound]
  split
  · rename_i same
    rw [BitVec.getLsbD_and, BitVec.getLsbD_not, getLsbD_word s b (Nat.mod_lt k (by simp)),
      ← same, Nat.div_add_mod, getLsbD_one_shiftLeft, Bool.and_comm,
      decide_eq_true (Nat.mod_lt k (by simp)), Bool.true_and]
    congr 2
    rw [decide_eq_decide]
    omega
  · rename_i other
    have ne : k ≠ b.toNat := fun h => other (by rw [h])
    simp [ne]

theorem bitmapTest_eq_zero_iff (s : Pmm) (b : Word) :
    s.bitmapTest b = 0 ↔ s.bit b.toNat = false := by
  have atBit : (s.bitmapTest b).getLsbD (b.toNat % 32) = s.bit b.toNat := by
    rw [bitmapTest, BitVec.getLsbD_and, getLsbD_word s b (Nat.mod_lt _ (by simp)),
      Nat.div_add_mod, getLsbD_one_shiftLeft]
    simp
  constructor
  · intro zero
    rw [← atBit, zero]
    simp
  · intro clear
    apply BitVec.eq_of_getLsbD_eq
    intro j bound
    rw [bitmapTest, BitVec.getLsbD_and, getLsbD_one_shiftLeft]
    by_cases same : j = b.toNat % 32
    · rw [same, getLsbD_word s b (Nat.mod_lt _ (by simp)), Nat.div_add_mod, clear]
      simp
    · simp [same]

theorem bitmapSet_agreeOff (s : Pmm) (b : Word) :
    AgreeOff (Within (s.wordAt b) 4) s.mem (s.bitmapSet b).mem :=
  st32_agreeOff _ _ _

/-- The word of an index below `n` is one of the words of the first `n` bits. -/
theorem within_bitmapBytes {bitmap b x : Word} {n : ℕ} (bound : b.toNat < n)
    (member : Within (bitmap + 4 * (b / 32)) 4 x) : Within bitmap (bitmapBytes n) x := by
  rw [word_offset] at member
  apply member.offset
  unfold bitmapBytes
  omega

@[simp] theorem bitmapSet_bitmap (s : Pmm) (b : Word) : (s.bitmapSet b).bitmap = s.bitmap := rfl
@[simp] theorem bitmapSet_maxBlocks (s : Pmm) (b : Word) :
    (s.bitmapSet b).maxBlocks = s.maxBlocks := rfl
@[simp] theorem bitmapSet_usedBlocks (s : Pmm) (b : Word) :
    (s.bitmapSet b).usedBlocks = s.usedBlocks := rfl
@[simp] theorem bitmapClear_bitmap (s : Pmm) (b : Word) :
    (s.bitmapClear b).bitmap = s.bitmap := rfl
@[simp] theorem bitmapClear_maxBlocks (s : Pmm) (b : Word) :
    (s.bitmapClear b).maxBlocks = s.maxBlocks := rfl
@[simp] theorem bitmapClear_usedBlocks (s : Pmm) (b : Word) :
    (s.bitmapClear b).usedBlocks = s.usedBlocks := rfl

/-! ## What the operations do -/

/-- The indices whose bit is set. -/
def inUse (s : Pmm) : Set ℕ := {k | k < 2 ^ 32 ∧ s.bit k = true}

/-- The blocks the allocator can still hand out. -/
def freeBlocks (s : Pmm) : Set ℕ := freeSlots s.maxBlocks.toNat s.inUse

theorem mem_freeBlocks {s : Pmm} {k : ℕ} :
    k ∈ s.freeBlocks ↔ k < s.maxBlocks.toNat ∧ s.bit k = false := by
  have small := s.maxBlocks.isLt
  unfold freeBlocks freeSlots inUse
  simp only [Set.mem_ofPred_eq, not_and, Bool.not_eq_true]
  constructor
  · rintro ⟨bound, clear⟩
    exact ⟨bound, clear (by omega)⟩
  · rintro ⟨bound, clear⟩
    exact ⟨bound, fun _ => clear⟩

theorem freeBlocks_eq_empty_iff {s : Pmm} :
    s.freeBlocks = ∅ ↔ ∀ k < s.maxBlocks.toNat, s.bit k = true := by
  rw [Set.eq_empty_iff_forall_notMem]
  simp only [mem_freeBlocks, not_and, Bool.not_eq_false]

/-- The state after block `k` was handed out. -/
def take (s : Pmm) (k : Word) : Pmm :=
  { s.bitmapSet k with usedBlocks := s.usedBlocks + 1 }

/-- The state after block `k` was given back. -/
def give (s : Pmm) (k : Word) : Pmm :=
  { s.bitmapClear k with usedBlocks := s.usedBlocks - 1 }

theorem bit_take (s : Pmm) (b : Word) {k : ℕ} (bound : k < 2 ^ 32) :
    (s.take b).bit k = (decide (k = b.toNat) || s.bit k) := bit_bitmapSet s b bound

theorem bit_give (s : Pmm) (b : Word) {k : ℕ} (bound : k < 2 ^ 32) :
    (s.give b).bit k = (!decide (k = b.toNat) && s.bit k) := bit_bitmapClear s b bound

/-- The scan reaches the least clear bit, or the end of the bitmap. -/
theorem pmmAllocLoop_cases (s : Pmm) (left : ℕ) (i : Word)
    (budget : i.toNat + left = s.maxBlocks.toNat) (scanned : ∀ j < i.toNat, s.bit j = true) :
    (∃ k : Word, IsLeast s.freeBlocks k.toNat ∧
      pmmAllocLoop left i s = (s.take k, k * 4096)) ∨
    (s.freeBlocks = ∅ ∧ pmmAllocLoop left i s = (s, 0)) := by
  induction left generalizing i with
  | zero =>
      right
      refine ⟨freeBlocks_eq_empty_iff.mpr fun k bound => scanned k (by omega), rfl⟩
  | succ left ih =>
      have inRange : i < s.maxBlocks := by
        rw [BitVec.lt_def]
        omega
      rw [pmmAllocLoop, if_pos inRange]
      by_cases clear : s.bitmapTest i = 0
      · left
        rw [if_pos clear]
        refine ⟨i, ⟨mem_freeBlocks.mpr ⟨inRange, (bitmapTest_eq_zero_iff s i).mp clear⟩, ?_⟩, rfl⟩
        intro j free
        by_contra lower
        have set := scanned j (by omega)
        rw [(mem_freeBlocks.mp free).2] at set
        contradiction
      · rw [if_neg clear]
        have set : s.bit i.toNat = true := by
          rw [bitmapTest_eq_zero_iff] at clear
          exact Bool.eq_true_of_not_eq_false clear
        have advance : (i + 1).toNat = i.toNat + 1 := by
          have small := s.maxBlocks.isLt
          bv_omega
        apply ih (i + 1) (by omega)
        intro j bound
        rcases (by omega : j < i.toNat ∨ j = i.toNat) with earlier | here
        · exact scanned j earlier
        · exact here ▸ set

theorem pmmAllocBlock_cases (s : Pmm) :
    (∃ k : Word, IsLeast s.freeBlocks k.toNat ∧ pmmAllocBlock s = (s.take k, k * 4096)) ∨
    (s.freeBlocks = ∅ ∧ pmmAllocBlock s = (s, 0)) :=
  pmmAllocLoop_cases s s.maxBlocks.toNat 0 (by simp) (by simp)

/-- The block an address lies in. -/
theorem toNat_div_4096 (addr : Word) : (addr / 4096).toNat = addr.toNat / 4096 := by
  rw [BitVec.toNat_udiv]
  rfl

theorem pmmFreeBlock_cases (s : Pmm) (addr : Word) :
    (s.bit (addr.toNat / 4096) = true ∧ pmmFreeBlock s addr = s.give (addr / 4096)) ∨
    (s.bit (addr.toNat / 4096) = false ∧ pmmFreeBlock s addr = s) := by
  by_cases clear : s.bitmapTest (addr / 4096) = 0
  · right
    refine ⟨?_, if_neg (not_not.mpr clear)⟩
    rwa [bitmapTest_eq_zero_iff, toNat_div_4096] at clear
  · left
    refine ⟨?_, if_pos clear⟩
    rw [bitmapTest_eq_zero_iff, toNat_div_4096] at clear
    exact Bool.eq_true_of_not_eq_false clear

@[simp] theorem take_maxBlocks (s : Pmm) (k : Word) : (s.take k).maxBlocks = s.maxBlocks := rfl
@[simp] theorem take_bitmap (s : Pmm) (k : Word) : (s.take k).bitmap = s.bitmap := rfl
@[simp] theorem give_maxBlocks (s : Pmm) (k : Word) : (s.give k).maxBlocks = s.maxBlocks := rfl
@[simp] theorem give_bitmap (s : Pmm) (k : Word) : (s.give k).bitmap = s.bitmap := rfl

theorem freeBlocks_take (s : Pmm) (k : Word) :
    (s.take k).freeBlocks = s.freeBlocks \ {k.toNat} := by
  have small := s.maxBlocks.isLt
  ext j
  rw [Set.mem_sdiff, Set.mem_singleton_iff, mem_freeBlocks, mem_freeBlocks, take_maxBlocks,
    and_assoc]
  refine and_congr_right fun bound => ?_
  rw [bit_take s k (by omega), Bool.or_eq_false_iff, decide_eq_false_iff_not, and_comm]

end Pmm

end OrbitOs.Memory
