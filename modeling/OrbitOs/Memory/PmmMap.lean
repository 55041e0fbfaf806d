import OrbitOs.Memory.PmmInit

/-!
# The memory map while it is swept

`pmm_initialize` reads the memory map entry by entry from the RAM that it fills
and clears bits in.  When the bytes of the map lie apart from the bytes it
writes, it meets the map that the boot loader left.
-/

set_option autoImplicit false

namespace OrbitOs.Memory

open OrbitOs.Machine OrbitOs.Kernel OrbitOs.Base

namespace Pmm

/-- The words that hold the bits of the blocks. -/
def InWords (bitmap : Word) (ks : List ℕ) (x : Word) : Prop :=
  ∃ k ∈ ks, Within (bitmap + 4 * (BitVec.ofNat 32 k / 32)) 4 x

theorem giveAll_agreeOff (s : Pmm) (ks : List ℕ) :
    AgreeOff (InWords s.bitmap ks) s.mem (s.giveAll ks).mem := by
  induction ks generalizing s with
  | nil => exact AgreeOff.refl _ _
  | cons k ks ih =>
      have first : AgreeOff (InWords s.bitmap (k :: ks)) s.mem (s.give (BitVec.ofNat 32 k)).mem :=
        (st32_agreeOff _ _ _).mono fun x member => ⟨k, List.mem_cons_self .., member⟩
      refine first.trans ((ih (s.give (BitVec.ofNat 32 k))).mono ?_)
      rintro x ⟨j, member, inWord⟩
      exact ⟨j, List.mem_cons_of_mem _ member, inWord⟩

/-- The bytes that `pmm_initialize` writes when it sweeps the map that the boot
loader left: the fill, and the words of the bits it clears. -/
def Written (kernelEnd mbi : Word) (mem : Mem) (x : Word) : Prop :=
  let info := MultibootInfo.load mem mbi
  Within (safeMemStart kernelEnd info) (bitmapSize info).toNat x ∨
    info.hasMmap = true ∧ ∃ p, MultibootInfo.Visits mem mbi p ∧ p < info.mmapEnd ∧
      InWords (safeMemStart kernelEnd info)
        (swept (watermark kernelEnd info) [MultibootMmapEntry.load mem p]) x

/-- No byte of the map is written before it is read. -/
def MapApart (kernelEnd mbi : Word) (mem : Mem) : Prop :=
  ∀ x, MultibootInfo.MapBytes mem mbi x → ¬ Written kernelEnd mbi mem x

/-- The bytes of the structures that the boot loader leaves: the information
structure, the modules it announces and the map. -/
def Structures (mem : Mem) (mbi x : Word) : Prop :=
  Within mbi 52 x ∨
    ((MultibootInfo.load mem mbi).hasModules = true ∧
      ∃ i < (MultibootInfo.load mem mbi).modsCount, Within (ld32 mem (mbi + 24) + 16 * i) 16 x) ∨
    MultibootInfo.MapBytes mem mbi x

/-! ## The same structures in another memory -/

section Agreement

variable {kernelEnd mbi : Word} {mem mem' : Mem}
  (agree : ∀ x, Structures mem mbi x → mem' x = mem x)

include agree

theorem field_eq {d : ℕ} (bound : d ≤ 48) :
    ld32 mem' (mbi + BitVec.ofNat 32 d) = ld32 mem (mbi + BitVec.ofNat 32 d) := by
  refine ld32_congr fun i iBound => agree _ (Or.inl ?_)
  exact (within_add _ iBound (by simp)).offset (by omega)

theorem flags_eq : (MultibootInfo.load mem' mbi).flags = (MultibootInfo.load mem mbi).flags := by
  have first := field_eq agree (Nat.zero_le 48)
  rwa [BitVec.add_zero] at first

theorem maxBlocksOf_eq :
    maxBlocksOf (MultibootInfo.load mem' mbi) = maxBlocksOf (MultibootInfo.load mem mbi) := by
  have lower : (MultibootInfo.load mem' mbi).memLower = (MultibootInfo.load mem mbi).memLower :=
    @field_eq mbi mem mem' agree 4 (by simp)
  have upper : (MultibootInfo.load mem' mbi).memUpper = (MultibootInfo.load mem mbi).memUpper :=
    @field_eq mbi mem mem' agree 8 (by simp)
  rw [maxBlocksOf, lower, upper, maxBlocksOf]

/-- Of the modules only the end of the last one counts. -/
theorem safeMemStart_eq : safeMemStart kernelEnd (MultibootInfo.load mem' mbi) =
    safeMemStart kernelEnd (MultibootInfo.load mem mbi) := by
  have flags := flags_eq agree
  have announced : (MultibootInfo.load mem' mbi).hasModules =
      (MultibootInfo.load mem mbi).hasModules := by
    rw [MultibootInfo.hasModules, flags, MultibootInfo.hasModules]
  have count : (MultibootInfo.load mem' mbi).modsCount = (MultibootInfo.load mem mbi).modsCount :=
    @field_eq mbi mem mem' agree 20 (by simp)
  have addr : ld32 mem' (mbi + 24) = ld32 mem (mbi + 24) :=
    @field_eq mbi mem mem' agree 24 (by simp)
  unfold safeMemStart
  rw [announced, count]
  split
  · rename_i present
    split
    · rename_i positive
      have last : (MultibootInfo.load mem mbi).modsCount - 1 <
          (MultibootInfo.load mem mbi).modsCount := by bv_omega
      have same : ((MultibootInfo.load mem' mbi).mods
          ((MultibootInfo.load mem mbi).modsCount - 1)).modEnd =
          ((MultibootInfo.load mem mbi).mods
            ((MultibootInfo.load mem mbi).modsCount - 1)).modEnd := by
        change ld32 mem' (ld32 mem' (mbi + 24) + 16 * _ + 4) = ld32 mem (_ + 4)
        rw [addr]
        refine ld32_congr fun i iBound => agree _ (Or.inr (Or.inl ⟨present, _, last, ?_⟩))
        exact Within.offset (d := 4) (within_add _ iBound (by simp)) (by simp)
      rw [same]
    · rfl
  · rfl

theorem bitmapSize_eq :
    bitmapSize (MultibootInfo.load mem' mbi) = bitmapSize (MultibootInfo.load mem mbi) := by
  rw [bitmapSize, maxBlocksOf_eq agree, bitmapSize]

theorem watermark_eq : watermark kernelEnd (MultibootInfo.load mem' mbi) =
    watermark kernelEnd (MultibootInfo.load mem mbi) := by
  rw [watermark, safeMemStart_eq agree, bitmapSize_eq agree, watermark]

end Agreement

/-! ## Maps apart from the bitmap -/

variable {kernelEnd mbi : Word} {mem mem' : Mem}

/-- What may differ between the memory of the boot loader and the memories of a
boot from the same structures. -/
def Loose (kernelEnd mbi : Word) (mem : Mem) (x : Word) : Prop :=
  Written kernelEnd mbi mem x ∨ ¬ Structures mem mbi x

theorem MapApart.firm (apart : MapApart kernelEnd mbi mem) {x : Word}
    (bytes : MultibootInfo.MapBytes mem mbi x) : ¬ Loose kernelEnd mbi mem x := by
  rintro (written | outside)
  · exact apart x bytes written
  · exact outside (Or.inr (Or.inr bytes))

/-- The walk over a map apart reads in every state what the boot loader left. -/
theorem MapApart.walk_iff (apart : MapApart kernelEnd mbi mem)
    (announced : (MultibootInfo.load mem mbi).hasMmap = true) {p : Word}
    (visits : MultibootInfo.Visits mem mbi p) {s : Pmm}
    (agree : AgreeOff (Loose kernelEnd mbi mem) mem s.mem)
    (bitmap : s.bitmap = safeMemStart kernelEnd (MultibootInfo.load mem mbi))
    (es : List MultibootMmapEntry) :
    MultibootInfo.Walk Pmm.mem
      (fun e s => s.giveAll (swept (watermark kernelEnd (MultibootInfo.load mem mbi)) [e])) mbi p s
      es ↔ MultibootInfo.Walk id (fun _ mem => mem) mbi p mem es := by
  have fields : ∀ x, Within (mbi + 44) 8 x → ¬ Loose kernelEnd mbi mem x := fun x member =>
    apart.firm (Or.inr ⟨announced, Or.inl member⟩)
  have stop := (MultibootInfo.mmap_fields_eq agree fields).2
  induction es generalizing p s with
  | nil => rw [MultibootInfo.Walk, MultibootInfo.Walk, stop, id]
  | cons e rest ih =>
      rw [MultibootInfo.Walk, MultibootInfo.Walk, stop, id]
      refine and_congr_right fun inside => ?_
      have bytes : ∀ x, Within p 24 x → ¬ Loose kernelEnd mbi mem x := fun x member =>
        apart.firm (Or.inr ⟨announced, Or.inr ⟨p, visits, inside, member⟩⟩)
      rw [MultibootInfo.entry_load_eq agree bytes]
      refine and_congr_right fun here => ?_
      -- the words of the bits that this entry clears are among those written
      have after : AgreeOff (Loose kernelEnd mbi mem) mem
          (s.giveAll (swept (watermark kernelEnd (MultibootInfo.load mem mbi)) [e])).mem := by
        refine agree.trans ((giveAll_agreeOff s _).mono fun x member => Or.inl (Or.inr ?_))
        rw [bitmap, here] at member
        exact ⟨announced, p, visits, inside, member⟩
      rw [MultibootInfo.entry_load_eq after bytes]
      exact ih (visits.next inside) after ((giveAll_bitmap _ _).trans bitmap)
        (MultibootInfo.mmap_fields_eq after fields).2

/-- From every memory with these structures `pmm_initialize` meets the map that
the boot loader left, when the map is apart from the bitmap. -/
theorem MapApart.met_iff_of_agree (apart : MapApart kernelEnd mbi mem)
    (agree : ∀ x, Structures mem mbi x → mem' x = mem x) (es : List MultibootMmapEntry) :
    Met kernelEnd mbi mem' es ↔ MultibootInfo.Mmap mem mbi es := by
  have filled : AgreeOff (Loose kernelEnd mbi mem) mem
      (bootBitmap kernelEnd (MultibootInfo.load mem' mbi) mem').mem := by
    have outside : AgreeOff (Loose kernelEnd mbi mem) mem mem' := fun x firm =>
      agree x (not_not.mp fun absent => firm (Or.inr absent))
    refine outside.trans ((memset_agreeOff _ _ _ _).mono fun x fill => Or.inl (Or.inl ?_))
    rwa [safeMemStart_eq agree, bitmapSize_eq agree] at fill
  have bitmap : (bootBitmap kernelEnd (MultibootInfo.load mem' mbi) mem').bitmap =
      safeMemStart kernelEnd (MultibootInfo.load mem mbi) := safeMemStart_eq agree
  have flags := MultibootInfo.hasMmap_eq filled fun x member => apart.firm (Or.inl member)
  have place := fun announced : (MultibootInfo.load mem mbi).hasMmap = true =>
    (MultibootInfo.mmap_fields_eq filled fun x member =>
      apart.firm (Or.inr ⟨announced, Or.inl member⟩)).1
  unfold Met
  rw [watermark_eq agree]
  constructor
  · rintro ⟨walk, empty⟩
    rw [flags] at walk empty
    refine ⟨fun announced => ?_, empty⟩
    have met := walk announced
    rw [place announced] at met
    exact (apart.walk_iff announced .start filled bitmap es).mp met
  · rintro ⟨walk, empty⟩
    refine ⟨fun announced => ?_, fun absent => empty (flags.symm.trans absent)⟩
    rw [flags] at announced
    rw [place announced]
    exact (apart.walk_iff announced .start filled bitmap es).mpr (walk announced)

theorem MapApart.met_iff (apart : MapApart kernelEnd mbi mem) (es : List MultibootMmapEntry) :
    Met kernelEnd mbi mem es ↔ MultibootInfo.Mmap mem mbi es :=
  apart.met_iff_of_agree (fun _ _ => rfl) es

/-- The bits of all blocks lie in the 128 KB from the place of the bitmap on. -/
theorem Written.inBitmap {x : Word} (written : Written kernelEnd mbi mem x) :
    Within (safeMemStart kernelEnd (MultibootInfo.load mem mbi)) (2 ^ 17) x := by
  rcases written with fill | ⟨_, p, _, _, k, member, inWord⟩
  · refine fill.mono ?_
    have small := maxBlocksOf_lt (MultibootInfo.load mem mbi)
    rw [toNat_bitmapSize]
    omega
  · have small := swept_lt member
    refine (within_bitmapBytes (n := 2 ^ 20) ?_ inWord).mono (by decide)
    rw [BitVec.toNat_ofNat]
    omega

/-- A structure and a map below `n`. -/
theorem mapBytes_lt {n : ℕ} (small : n ≤ 2 ^ 32) (info : mbi.toNat + 52 ≤ n)
    (map : (MultibootInfo.load mem mbi).mmapEnd.toNat + 24 ≤ n) {x : Word}
    (bytes : MultibootInfo.MapBytes mem mbi x) : x.toNat < n := by
  have start : (mbi + 44).toNat = mbi.toNat + 44 := by bv_omega
  rcases bytes with flags | ⟨_, fields | ⟨p, _, inside, member⟩⟩
  · rw [within_iff_of_noWrap (by omega)] at flags
    omega
  · rw [within_iff_of_noWrap (by omega)] at fields
    omega
  · rw [BitVec.lt_def] at inside
    rw [within_iff_of_noWrap (by omega)] at member
    omega

/-- A map below the bitmap is apart from it. -/
theorem mapApart_of_below (info : mbi.toNat + 52 ≤
      (safeMemStart kernelEnd (MultibootInfo.load mem mbi)).toNat)
    (map : (MultibootInfo.load mem mbi).mmapEnd.toNat + 24 ≤
      (safeMemStart kernelEnd (MultibootInfo.load mem mbi)).toNat)
    (fits : (safeMemStart kernelEnd (MultibootInfo.load mem mbi)).toNat + 2 ^ 17 ≤ 2 ^ 32) :
    MapApart kernelEnd mbi mem := by
  intro x bytes written
  have below := mapBytes_lt (by omega) info map bytes
  have above := (within_iff_of_noWrap fits x).mp written.inBitmap
  omega

/-- `pmm_initialize` meets the entries of such a map. -/
theorem met_of_below {es : List MultibootMmapEntry} (mmap : MultibootInfo.Mmap mem mbi es)
    (info : mbi.toNat + 52 ≤ (safeMemStart kernelEnd (MultibootInfo.load mem mbi)).toNat)
    (map : (MultibootInfo.load mem mbi).mmapEnd.toNat + 24 ≤
      (safeMemStart kernelEnd (MultibootInfo.load mem mbi)).toNat)
    (fits : (safeMemStart kernelEnd (MultibootInfo.load mem mbi)).toNat + 2 ^ 17 ≤ 2 ^ 32) :
    Met kernelEnd mbi mem es :=
  ((mapApart_of_below info map fits).met_iff es).mpr mmap

end Pmm

end OrbitOs.Memory
