import OrbitOs.Memory.Pmm

/-!
# Blocks as memory

What the clients of the allocator use: the address of a block, its 1024 words,
and the discipline under which a block that was handed out is theirs.  `Sound`
says that no free block overlaps the bitmap; it survives every allocation and
every write that stays away from the bitmap.
-/

set_option autoImplicit false

namespace OrbitOs.Memory

open OrbitOs.Machine OrbitOs.Kernel OrbitOs.Base

/-! ## Addresses -/

/-- Address of block `k`. -/
def blockAddr (k : ℕ) : Word := BitVec.ofNat 32 (4096 * k)

theorem toNat_blockAddr {k : ℕ} (bound : k < 2 ^ 20) : (blockAddr k).toNat = 4096 * k := by
  rw [blockAddr, BitVec.toNat_ofNat]
  exact Nat.mod_eq_of_lt (by omega)

theorem toNat_blockAddr_div {k : ℕ} (bound : k < 2 ^ 20) : (blockAddr k / 4096).toNat = k := by
  rw [BitVec.toNat_udiv, toNat_blockAddr bound]
  exact Nat.mul_div_cancel_left k (by simp)

theorem blockAddr_eq_zero_iff {k : ℕ} (bound : k < 2 ^ 20) : blockAddr k = 0 ↔ k = 0 := by
  constructor
  · intro zero
    have value : 4096 * k = 0 := (toNat_blockAddr bound).symm.trans (congrArg BitVec.toNat zero)
    omega
  · rintro rfl
    rfl

theorem blockAddr_injective {j k : ℕ} (jBound : j < 2 ^ 20) (kBound : k < 2 ^ 20)
    (same : blockAddr j = blockAddr k) : j = k := by
  have value := congrArg BitVec.toNat same
  rw [toNat_blockAddr jBound, toNat_blockAddr kBound] at value
  omega

theorem mul_4096_eq_blockAddr (k : Word) : k * 4096 = blockAddr k.toNat := by
  apply BitVec.eq_of_toNat_eq
  rw [blockAddr, BitVec.toNat_mul, BitVec.toNat_ofNat, Nat.mul_comm]
  rfl

theorem toNat_mul_4096 {k : Word} (small : k.toNat < 2 ^ 20) :
    (k * 4096).toNat = k.toNat * 4096 := by
  rw [mul_4096_eq_blockAddr, toNat_blockAddr small, Nat.mul_comm]

/-- `x` is a byte of block `k`. -/
def InBlock (k : ℕ) (x : Word) : Prop := x.toNat / 4096 = k

theorem InBlock.unique {j k : ℕ} {x : Word} (inJ : InBlock j x) (inK : InBlock k x) : j = k :=
  inJ.symm.trans inK

theorem within_block {k : ℕ} (bound : k < 2 ^ 20) (x : Word) :
    Within (blockAddr k) 4096 x ↔ InBlock k x := by
  unfold InBlock
  rw [within_iff_of_noWrap (by rw [toNat_blockAddr bound]; omega), toNat_blockAddr bound]
  omega

/-- Address of word `i` of block `k`. -/
def wordAddr (k i : ℕ) : Word := BitVec.ofNat 32 (4096 * k + 4 * i)

theorem toNat_wordAddr {k i : ℕ} (kBound : k < 2 ^ 20) (iBound : i < 1024) :
    (wordAddr k i).toNat = 4096 * k + 4 * i := by
  rw [wordAddr, BitVec.toNat_ofNat]
  exact Nat.mod_eq_of_lt (by omega)

theorem blockAddr_add_word (k : ℕ) (i : Word) : blockAddr k + 4 * i = wordAddr k i.toNat := by
  apply BitVec.eq_of_toNat_eq
  simp [blockAddr, wordAddr, BitVec.toNat_add, BitVec.toNat_mul]

theorem within_wordAddr {k i : ℕ} (kBound : k < 2 ^ 20) (iBound : i < 1024) (x : Word) :
    Within (wordAddr k i) 4 x ↔ x.toNat / 4 = 1024 * k + i := by
  rw [within_iff_of_noWrap (by rw [toNat_wordAddr kBound iBound]; omega),
    toNat_wordAddr kBound iBound]
  omega

theorem inBlock_of_within_wordAddr {k i : ℕ} (kBound : k < 2 ^ 20) (iBound : i < 1024) {x : Word}
    (member : Within (wordAddr k i) 4 x) : InBlock k x := by
  rw [within_wordAddr kBound iBound] at member
  unfold InBlock
  omega

/-! ## The words of a block -/

/-- Word `i` of block `k`. -/
def word (m : Mem) (k i : ℕ) : Word := ld32 m (wordAddr k i)

theorem word_st32 (m : Mem) (v : Word) {k i k' i' : ℕ} (kBound : k < 2 ^ 20) (iBound : i < 1024)
    (kBound' : k' < 2 ^ 20) (iBound' : i' < 1024) :
    word (st32 m (wordAddr k i) v) k' i' = if k' = k ∧ i' = i then v else word m k' i' := by
  split
  · rename_i same
    obtain ⟨rfl, rfl⟩ := same
    exact ld32_st32_self m _ v
  · rename_i other
    apply ld32_st32_apart
    intro x inNew inOld
    rw [within_wordAddr kBound' iBound'] at inNew
    rw [within_wordAddr kBound iBound] at inOld
    omega

/-- A change outside block `k` keeps its words. -/
theorem word_agreeOff {touched : Word → Prop} {m m' : Mem} (agree : AgreeOff touched m m')
    {k i : ℕ} (kBound : k < 2 ^ 20) (iBound : i < 1024)
    (off : ∀ x, InBlock k x → ¬ touched x) : word m' k i = word m k i :=
  agree.ld32_eq fun x member => off x (inBlock_of_within_wordAddr kBound iBound member)

theorem word_memset_zero (m : Mem) {k i : ℕ} (kBound : k < 2 ^ 20) (iBound : i < 1024) :
    word (memset m (blockAddr k) 0 4096) k i = 0 := by
  have zeros : ∀ j < 4, memset m (blockAddr k) 0 4096 (wordAddr k i + BitVec.ofNat 32 j) = 0 := by
    intro j jBound
    rw [memset_apply, if_pos]
    apply (within_block kBound _).mpr
    exact inBlock_of_within_wordAddr kBound iBound (within_add _ jBound (by simp))
  apply BitVec.eq_of_getLsbD_eq
  intro j jBound
  rw [word, getLsbD_ld32 _ _ jBound, zeros _ (by omega)]
  simp

theorem memset_block_agreeOff (m : Mem) (value : Byte) {k : ℕ} (bound : k < 2 ^ 20) :
    AgreeOff (InBlock k) m (memset m (blockAddr k) value 4096) :=
  (memset_agreeOff m (blockAddr k) value 4096).mono fun x member =>
    (within_block bound x).mp member

theorem st32_word_agreeOff (m : Mem) (v : Word) {k i : ℕ} (kBound : k < 2 ^ 20)
    (iBound : i < 1024) :
    AgreeOff (InBlock k) m (st32 m (wordAddr k i) v) :=
  (st32_agreeOff m (wordAddr k i) v).mono fun _ member =>
    inBlock_of_within_wordAddr kBound iBound member

/-! ## Clients of the allocator -/

namespace Pmm

/-- The bytes of the bitmap that the allocator accesses. -/
def InBitmapWords (s : Pmm) (x : Word) : Prop := Within s.bitmap (bitmapBytes s.maxBlocks.toNat) x

/-- Block `k` is in use and no byte of it belongs to the bitmap: it can be held. -/
structure Holdable (s : Pmm) (k : ℕ) : Prop where
  bound : k < s.maxBlocks.toNat
  used : s.bit k = true
  clear : ∀ x, InBlock k x → ¬ s.InBitmapWords x

theorem Holdable.off {s : Pmm} {k : ℕ} (holdable : s.Holdable k) (x : Word)
    (inBitmap : s.InBitmapWords x) : ¬ InBlock k x :=
  fun inBlock => holdable.clear x inBlock inBitmap

/-- Free blocks do not overlap the bitmap, and block 0 is not free. -/
structure Sound (s : Pmm) : Prop where
  small : s.maxBlocks.toNat < 2 ^ 20
  zeroUsed : 0 ∉ s.freeBlocks
  clear : ∀ k ∈ s.freeBlocks, ∀ x, InBlock k x → ¬ s.InBitmapWords x

/-- The allocator with another memory. -/
def withMem (s : Pmm) (m : Mem) : Pmm := { s with mem := m }

@[simp] theorem withMem_mem (s : Pmm) (m : Mem) : (s.withMem m).mem = m := rfl
@[simp] theorem withMem_bitmap (s : Pmm) (m : Mem) : (s.withMem m).bitmap = s.bitmap := rfl
@[simp] theorem withMem_maxBlocks (s : Pmm) (m : Mem) :
    (s.withMem m).maxBlocks = s.maxBlocks := rfl

theorem bit_withMem {s : Pmm} {touched : Word → Prop} {m : Mem}
    (agree : AgreeOff touched s.mem m) (off : ∀ x, s.InBitmapWords x → ¬ touched x) {k : ℕ}
    (bound : k < s.maxBlocks.toNat) : (s.withMem m).bit k = s.bit k := by
  have inside : s.InBitmapWords (s.bitmap + BitVec.ofNat 32 (k / 8)) := by
    have small := s.maxBlocks.isLt
    apply within_add
    · unfold bitmapBytes
      omega
    · unfold bitmapBytes
      omega
  unfold bit
  rw [withMem_mem, withMem_bitmap, agree _ (off _ inside)]

theorem freeBlocks_withMem {s : Pmm} {touched : Word → Prop} {m : Mem}
    (agree : AgreeOff touched s.mem m) (off : ∀ x, s.InBitmapWords x → ¬ touched x) :
    (s.withMem m).freeBlocks = s.freeBlocks := by
  ext k
  rw [mem_freeBlocks, mem_freeBlocks, withMem_maxBlocks]
  refine and_congr_right fun bound => ?_
  rw [bit_withMem agree off bound]

/-- A write that stays away from the bitmap changes no bit. -/
theorem Sound.withMem {s : Pmm} (sound : s.Sound) {touched : Word → Prop} {m : Mem}
    (agree : AgreeOff touched s.mem m) (off : ∀ x, s.InBitmapWords x → ¬ touched x) :
    (s.withMem m).Sound := by
  have same := freeBlocks_withMem agree off
  exact ⟨sound.small, same ▸ sound.zeroUsed, fun k free => sound.clear k (same ▸ free)⟩

theorem Holdable.withMem {s : Pmm} {k : ℕ} (holdable : s.Holdable k) {touched : Word → Prop}
    {m : Mem} (agree : AgreeOff touched s.mem m) (off : ∀ x, s.InBitmapWords x → ¬ touched x) :
    (s.withMem m).Holdable k :=
  ⟨holdable.bound, by rw [bit_withMem agree off holdable.bound]; exact holdable.used,
    holdable.clear⟩

theorem Sound.holdable_lt {s : Pmm} (sound : s.Sound) {k : ℕ} (holdable : s.Holdable k) :
    k < 2 ^ 20 := Nat.lt_trans holdable.bound sound.small

/-- `s'` is `s` after block `k` was handed out. -/
structure Allocates (s : Pmm) (k : ℕ) (s' : Pmm) : Prop where
  nonzero : k ≠ 0
  wasFree : k ∈ s.freeBlocks
  holdable : s'.Holdable k
  keeps : ∀ j, s.Holdable j → s'.Holdable j ∧ j ≠ k
  shrinks : ∀ j ∈ s'.freeBlocks, j ∈ s.freeBlocks ∧ j ≠ k
  sound : s'.Sound
  maxBlocks : s'.maxBlocks = s.maxBlocks
  bitmap : s'.bitmap = s.bitmap
  mem : AgreeOff s.InBitmapWords s.mem s'.mem

theorem Allocates.lt {s s' : Pmm} {k : ℕ} (allocates : Allocates s k s') : k < 2 ^ 20 :=
  allocates.sound.holdable_lt allocates.holdable

theorem Allocates.blockAddr_ne_zero {s s' : Pmm} {k : ℕ} (allocates : Allocates s k s') :
    blockAddr k ≠ 0 := mt (blockAddr_eq_zero_iff allocates.lt).mp allocates.nonzero

/-- The lowest free block is the one returned. -/
theorem pmmAllocBlock_of_isLeast {s : Pmm} {k : ℕ} (least : IsLeast s.freeBlocks k) :
    (pmmAllocBlock s).2 = blockAddr k := by
  rcases pmmAllocBlock_cases s with ⟨j, lowest, result⟩ | ⟨empty, _⟩
  · rw [result, mul_4096_eq_blockAddr, lowest.unique least]
  · have member := least.1
    rw [empty] at member
    contradiction

/-- In a sound state an allocation hands out the address of a block that
nobody holds, or returns 0 and changes nothing. -/
theorem Sound.alloc {s : Pmm} (sound : s.Sound) :
    (∃ k s', Allocates s k s' ∧ pmmAllocBlock s = (s', blockAddr k)) ∨
    (s.freeBlocks = ∅ ∧ pmmAllocBlock s = (s, 0)) := by
  rcases pmmAllocBlock_cases s with ⟨k, least, result⟩ | ⟨full, result⟩
  · left
    have wasFree := least.1
    have free := mem_freeBlocks.mp wasFree
    have small := sound.small
    have words : (s.take k).InBitmapWords = s.InBitmapWords := rfl
    have usedKept : ∀ j, s.Holdable j → (s.take k).Holdable j := by
      rintro j ⟨bound, used, clear⟩
      refine ⟨bound, ?_, words ▸ clear⟩
      rw [bit_take s k (by omega), used, Bool.or_true]
    have shrinks : ∀ j ∈ (s.take k).freeBlocks, j ∈ s.freeBlocks ∧ j ≠ k.toNat := by
      intro j stillFree
      rw [freeBlocks_take] at stillFree
      exact stillFree
    refine ⟨k.toNat, s.take k, ⟨?_, wasFree, ?_, ?_, shrinks, ?_, rfl, rfl, ?_⟩, ?_⟩
    · intro zero
      exact sound.zeroUsed (zero ▸ wasFree)
    · refine ⟨free.1, ?_, words ▸ sound.clear _ wasFree⟩
      rw [bit_take s k k.isLt, decide_eq_true rfl, Bool.true_or]
    · intro j holdable
      refine ⟨usedKept j holdable, fun same => ?_⟩
      rw [← same, holdable.used] at free
      exact absurd free.2 (by simp)
    · exact ⟨small, fun zero => sound.zeroUsed (shrinks 0 zero).1,
        fun j stillFree => words ▸ sound.clear j (shrinks j stillFree).1⟩
    · exact (bitmapSet_agreeOff s k).mono fun x member => within_bitmapBytes free.1 member
    · rw [result, mul_4096_eq_blockAddr]
  · exact Or.inr ⟨full, result⟩

/-- The lowest free block is taken. -/
theorem Allocates.lowest {s s' : Pmm} {k : ℕ} (allocates : Allocates s k s')
    (result : pmmAllocBlock s = (s', blockAddr k)) :
    IsLeast s.freeBlocks k ∧ ∃ i : Word, i.toNat = k ∧ s' = s.take i := by
  rcases pmmAllocBlock_cases s with ⟨i, least, taken⟩ | ⟨empty, -⟩
  · rw [result, mul_4096_eq_blockAddr] at taken
    obtain ⟨rfl, same⟩ := Prod.mk.inj taken
    have small := (mem_freeBlocks.mp least.1).1
    have bound := allocates.sound.small
    rw [take_maxBlocks] at bound
    have index := blockAddr_injective allocates.lt (by omega) same
    exact ⟨index ▸ least, i, index.symm, rfl⟩
  · have wasFree := allocates.wasFree
    rw [empty] at wasFree
    contradiction

/-- No other block is taken. -/
theorem Allocates.freeBlocks {s s' : Pmm} {k : ℕ} (allocates : Allocates s k s')
    (result : pmmAllocBlock s = (s', blockAddr k)) : s'.freeBlocks = s.freeBlocks \ {k} := by
  obtain ⟨-, i, rfl, rfl⟩ := allocates.lowest result
  exact freeBlocks_take s i

/-- The blocks below 1 MiB are apart from a bitmap at 1 MiB. -/
theorem not_within_of_low {k : ℕ} (low : k < 256) {x : Word} (inBlock : InBlock k x) :
    ¬ Within 0x100000 4 x := by
  intro words
  rw [within_iff_of_noWrap (by simp)] at words
  have base : (0x100000 : Word).toNat = 0x100000 := rfl
  unfold InBlock at inBlock
  omega

/-- Eight blocks with block 0 in use, the bitmap above them at 1 MiB. -/
def eightBlocks : Pmm := ⟨fun x => if x = 0x100000 then 1 else 0, 0x100000, 8, 1⟩

theorem eightBlocks_sound : eightBlocks.Sound := by
  refine ⟨by decide, ?_, ?_⟩
  · intro free
    have clear := (mem_freeBlocks.mp free).2
    exact absurd clear (by decide)
  · intro k free x inBlock inBitmap
    have bound : k < 8 := (mem_freeBlocks.mp free).1
    exact not_within_of_low (by omega) inBlock inBitmap

end Pmm

end OrbitOs.Memory
