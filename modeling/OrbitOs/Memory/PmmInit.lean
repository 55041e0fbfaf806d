import OrbitOs.Kernel.Multiboot
import OrbitOs.Memory.Pmm

/-!
# `pmm_initialize`

The loops of the source may run forever, so they take fuel and `none` means
that it ran out; "initialisation finishes" is a `some` at some fuel.  The
specification names the blocks the loops sweep, in order and with repetitions,
and gives the resulting counter and bits in terms of that list.

The memory map is read while the bitmap is written.  `Met` is the list of the
entries as they are read; it is the map the boot loader left when the bytes of
the map lie apart from the bytes that are written.
-/

set_option autoImplicit false

namespace OrbitOs.Memory

open OrbitOs.Machine OrbitOs.Kernel OrbitOs.Base

namespace Pmm

/-! ## The source -/

def maxBlocksOf (mbi : MultibootInfo) : Word :=
  let memSizeKb := mbi.memLower + mbi.memUpper
  let memSizeBytes := memSizeKb * 1024
  memSizeBytes / 4096

/-- `safe_mem_start` when the bitmap is placed. -/
def safeMemStart (kernelEnd : Word) (mbi : MultibootInfo) : Word :=
  if mbi.hasModules then
    if mbi.modsCount > 0 then
      let lastModEnd := (mbi.mods (mbi.modsCount - 1)).modEnd
      if lastModEnd > kernelEnd then lastModEnd else kernelEnd
    else kernelEnd
  else kernelEnd

def bitmapSize (mbi : MultibootInfo) : Word := maxBlocksOf mbi / 8

section Sweep

/-! The loops are generic in the state, in the memory it holds and in what
`bitmap_clear(k); pmm_used_blocks--;` does to it, so that one translation serves
both the allocator and the list of the indices that are cleared. -/

variable {σ : Type} (mem : σ → Mem) (clear : Word → σ → σ)

/-- `for (i = 0; i < len; i += PMM_BLOCK_SIZE)` over one region. -/
def freeRegion (safe addr len : Word) : ℕ → Word → σ → Option σ
  | 0, _, _ => none
  | fuel + 1, i, s =>
    if i < len then
      let blockAddr := addr + i
      freeRegion safe addr len fuel (i + 4096)
        (if blockAddr ≥ safe then clear (blockAddr / 4096) s else s)
    else some s

/-- `while ((uint32_t)mmap < mbi->mmap_addr + mbi->mmap_length)` -/
def freeMmap (mbi safe : Word) : ℕ → Word → σ → Option σ
  | 0, _, _ => none
  | fuel + 1, mmap, s =>
    if mmap < (MultibootInfo.load (mem s) mbi).mmapEnd then
      let entry := MultibootMmapEntry.load (mem s) mmap
      if entry.type = multibootMemoryAvailable then
        match freeRegion clear safe entry.addrLow entry.lenLow fuel 0 s with
        | none => none
        | some s =>
          -- the size is read when the region has been swept
          freeMmap mbi safe fuel (mmap + (MultibootMmapEntry.load (mem s) mmap).size + 4) s
      else freeMmap mbi safe fuel (mmap + entry.size + 4) s
    else some s

end Sweep

/-- The bitmap placed and filled, nothing freed yet. -/
def bootBitmap (kernelEnd : Word) (mbi : MultibootInfo) (mem : Mem) : Pmm where
  mem := memset mem (safeMemStart kernelEnd mbi) 0xFF (bitmapSize mbi)
  bitmap := safeMemStart kernelEnd mbi
  maxBlocks := maxBlocksOf mbi
  usedBlocks := maxBlocksOf mbi

/-- `safe_mem_start` after the bitmap. -/
def watermark (kernelEnd : Word) (mbi : MultibootInfo) : Word :=
  safeMemStart kernelEnd mbi + bitmapSize mbi

def pmmInitialize (fuel : ℕ) (kernelEnd mbi : Word) (mem : Mem) : Option Pmm :=
  let info := MultibootInfo.load mem mbi
  let s := bootBitmap kernelEnd info mem
  -- the structure once more, behind the fill
  let filled := MultibootInfo.load s.mem mbi
  if filled.hasMmap then
    freeMmap Pmm.mem (fun k s => s.give k) mbi (watermark kernelEnd info) fuel filled.mmapAddr s
  else some s

/-- The indices `pmm_initialize` passes to `bitmap_clear`, in order. -/
def pmmInitializeClears (fuel : ℕ) (kernelEnd mbi : Word) (mem : Mem) : Option (List Word) :=
  let info := MultibootInfo.load mem mbi
  let s := bootBitmap kernelEnd info mem
  let filled := MultibootInfo.load s.mem mbi
  if filled.hasMmap then
    (freeMmap (fun s => s.1.mem) (fun k (s, ks) => (s.give k, ks ++ [k])) mbi
      (watermark kernelEnd info) fuel filled.mmapAddr (s, [])).map Prod.snd
  else some []

/-! ## The sweep -/

/-- The blocks one region frees: every 4 KiB step at or above the watermark. -/
def sweptRegion (safe addr len : Word) : List ℕ :=
  (List.range ((len.toNat + 4095) / 4096)).filterMap fun n =>
    let blockAddr := addr + BitVec.ofNat 32 (4096 * n)
    if blockAddr ≥ safe then some (blockAddr.toNat / 4096) else none

/-- The blocks the whole memory map frees, in order and with repetitions. -/
def swept (safe : Word) (entries : List MultibootMmapEntry) : List ℕ :=
  (entries.filter fun e => e.type = multibootMemoryAvailable).flatMap fun e =>
    sweptRegion safe e.addrLow e.lenLow

/-- Clear a list of blocks. -/
def clearAll {σ : Type} (clear : Word → σ → σ) (blocks : List ℕ) (s : σ) : σ :=
  blocks.foldl (fun s k => clear (BitVec.ofNat 32 k) s) s

theorem clearAll_append {σ : Type} (clear : Word → σ → σ) (ks ks' : List ℕ) (s : σ) :
    clearAll clear (ks ++ ks') s = clearAll clear ks' (clearAll clear ks s) := List.foldl_append

/-- Give back a list of blocks. -/
def giveAll (s : Pmm) (blocks : List ℕ) : Pmm := clearAll (fun k s => s.give k) blocks s

theorem clearAll_collect (ks : List ℕ) (s : Pmm) (collected : List Word) :
    clearAll (fun k (s, ks) => (s.give k, ks ++ [k])) ks (s, collected) =
      (s.giveAll ks, collected ++ ks.map (BitVec.ofNat 32)) := by
  induction ks generalizing s collected with
  | nil => simp [clearAll, giveAll]
  | cons k ks ih =>
      have step : clearAll (fun k (s, ks) => (s.give k, ks ++ [k])) (k :: ks) (s, collected) =
          ((s.give (BitVec.ofNat 32 k)).giveAll ks,
            collected ++ [BitVec.ofNat 32 k] ++ ks.map (BitVec.ofNat 32)) :=
        ih (s.give (BitVec.ofNat 32 k)) (collected ++ [BitVec.ofNat 32 k])
      rw [step, List.append_assoc, List.singleton_append, List.map_cons]
      rfl

theorem giveAll_bitmap (s : Pmm) (ks : List ℕ) : (s.giveAll ks).bitmap = s.bitmap := by
  induction ks generalizing s with
  | nil => rfl
  | cons k ks ih => exact ih (s.give (BitVec.ofNat 32 k))

theorem giveAll_maxBlocks (s : Pmm) (ks : List ℕ) : (s.giveAll ks).maxBlocks = s.maxBlocks := by
  induction ks generalizing s with
  | nil => rfl
  | cons k ks ih => exact ih (s.give (BitVec.ofNat 32 k))

theorem giveAll_usedBlocks (s : Pmm) (ks : List ℕ) :
    (s.giveAll ks).usedBlocks = s.usedBlocks - BitVec.ofNat 32 ks.length := by
  induction ks generalizing s with
  | nil => simp [giveAll, clearAll]
  | cons k ks ih =>
      have step : (s.giveAll (k :: ks)).usedBlocks =
          s.usedBlocks - 1 - BitVec.ofNat 32 ks.length := ih (s.give (BitVec.ofNat 32 k))
      rw [step, List.length_cons, BitVec.ofNat_add]
      grind

theorem bit_giveAll (s : Pmm) (ks : List ℕ) (small : ∀ k ∈ ks, k < 2 ^ 32) {j : ℕ}
    (bound : j < 2 ^ 32) : (s.giveAll ks).bit j = (!decide (j ∈ ks) && s.bit j) := by
  induction ks generalizing s with
  | nil => simp [giveAll, clearAll]
  | cons k ks ih =>
      have kSmall := small k (List.mem_cons_self ..)
      have step : (s.giveAll (k :: ks)).bit j =
          (!decide (j ∈ ks) && (s.give (BitVec.ofNat 32 k)).bit j) :=
        ih (s.give (BitVec.ofNat 32 k)) fun k' member => small k' (List.mem_cons_of_mem _ member)
      rw [step, bit_give s _ bound, BitVec.toNat_ofNat, Nat.mod_eq_of_lt kSmall]
      by_cases same : j = k <;> simp [same]

theorem swept_cons (safe : Word) (e : MultibootMmapEntry) (es : List MultibootMmapEntry) :
    swept safe (e :: es) = swept safe [e] ++ swept safe es := by
  unfold swept
  rw [← List.singleton_append, List.filter_append, List.flatMap_append]

theorem swept_available {e : MultibootMmapEntry} (available : e.type = multibootMemoryAvailable)
    (safe : Word) : swept safe [e] = sweptRegion safe e.addrLow e.lenLow := by
  simp [swept, available]

theorem swept_other {e : MultibootMmapEntry} (other : e.type ≠ multibootMemoryAvailable)
    (safe : Word) : swept safe [e] = [] := by
  simp [swept, other]

theorem mem_swept_iff {safe : Word} {es : List MultibootMmapEntry} {k : ℕ} :
    k ∈ swept safe es ↔ ∃ e ∈ es, e.type = multibootMemoryAvailable ∧ ∃ n,
      4096 * n < e.lenLow.toNat ∧ safe ≤ e.addrLow + BitVec.ofNat 32 (4096 * n) ∧
        (e.addrLow + BitVec.ofNat 32 (4096 * n)).toNat / 4096 = k := by
  simp only [swept, sweptRegion, List.mem_flatMap, List.mem_filter, decide_eq_true_eq,
    List.mem_filterMap, List.mem_range, Option.ite_none_right_eq_some, Option.some.injEq, ge_iff_le]
  constructor
  · rintro ⟨e, ⟨member, available⟩, n, bound, above, index⟩
    exact ⟨e, member, available, n, by omega, above, index⟩
  · rintro ⟨e, member, available, n, bound, above, index⟩
    exact ⟨e, ⟨member, available⟩, n, by omega, above, index⟩

theorem swept_lt {safe : Word} {es : List MultibootMmapEntry} {k : ℕ}
    (member : k ∈ swept safe es) : k < 2 ^ 20 := by
  obtain ⟨e, _, _, n, _, _, index⟩ := mem_swept_iff.mp member
  have small := (e.addrLow + BitVec.ofNat 32 (4096 * n)).isLt
  omega

/-! ## The loops perform the sweep -/

section Loops

variable {σ : Type} (clear : Word → σ → σ)

/-- With a length above 2^32 - 4096 the 32-bit counter wraps and never reaches it. -/
theorem freeRegion_diverges (safe addr len : Word) (long : 2 ^ 32 - 4096 < len.toNat)
    (fuel : ℕ) (i : Word) (aligned : i.toNat % 4096 = 0) (s : σ) :
    freeRegion clear safe addr len fuel i s = none := by
  induction fuel generalizing i s with
  | zero => rfl
  | succ fuel ih =>
      have below : i < len := by
        rw [BitVec.lt_def]
        have := i.isLt
        omega
      rw [freeRegion, if_pos below]
      apply ih
      bv_omega

theorem freeRegion_from (safe addr len : Word) (short : len.toNat ≤ 2 ^ 32 - 4096) (fuel n : ℕ)
    (reached : n ≤ (len.toNat + 4095) / 4096) (s s' : σ)
    (run : freeRegion clear safe addr len fuel (BitVec.ofNat 32 (4096 * n)) s = some s') :
    s' = clearAll clear ((List.range' n ((len.toNat + 4095) / 4096 - n)).filterMap fun n =>
      if addr + BitVec.ofNat 32 (4096 * n) ≥ safe then
        some ((addr + BitVec.ofNat 32 (4096 * n)).toNat / 4096) else none) s := by
  induction fuel generalizing n s with
  | zero => simp [freeRegion] at run
  | succ fuel ih =>
      have counter : (BitVec.ofNat 32 (4096 * n)).toNat = 4096 * n := by
        rw [BitVec.toNat_ofNat]
        exact Nat.mod_eq_of_lt (by omega)
      rw [freeRegion] at run
      by_cases more : BitVec.ofNat 32 (4096 * n) < len
      · rw [if_pos more] at run
        rw [BitVec.lt_def, counter] at more
        have next : BitVec.ofNat 32 (4096 * n) + 4096 = BitVec.ofNat 32 (4096 * (n + 1)) := by
          rw [Nat.mul_add, BitVec.ofNat_add]
          rfl
        dsimp only at run
        rw [next] at run
        have rest := ih (n + 1) (by omega) _ run
        have unroll : (len.toNat + 4095) / 4096 - n =
            (len.toNat + 4095) / 4096 - (n + 1) + 1 := by omega
        have index : BitVec.ofNat 32 ((addr + BitVec.ofNat 32 (4096 * n)).toNat / 4096) =
            (addr + BitVec.ofNat 32 (4096 * n)) / 4096 := by
          apply BitVec.eq_of_toNat_eq
          have small := (addr + BitVec.ofNat 32 (4096 * n)).isLt
          rw [BitVec.toNat_ofNat, Nat.mod_eq_of_lt (by omega), toNat_div_4096]
        rw [unroll, List.range'_succ, List.filterMap_cons]
        by_cases above : addr + BitVec.ofNat 32 (4096 * n) ≥ safe
        · rw [if_pos above] at rest ⊢
          rw [rest, ← index]
          rfl
        · rw [if_neg above] at rest ⊢
          exact rest
      · rw [if_neg more] at run
        rw [BitVec.lt_def, counter] at more
        have done : (len.toNat + 4095) / 4096 - n = 0 := by omega
        rw [done]
        exact (Option.some.inj run).symm

theorem freeRegion_spec {safe addr len : Word} {fuel : ℕ} {s s' : σ}
    (run : freeRegion clear safe addr len fuel 0 s = some s') :
    len.toNat ≤ 2 ^ 32 - 4096 ∧ s' = clearAll clear (sweptRegion safe addr len) s := by
  by_cases short : len.toNat ≤ 2 ^ 32 - 4096
  · refine ⟨short, ?_⟩
    have result := freeRegion_from clear safe addr len short fuel 0 (Nat.zero_le _) s s' run
    rw [result, sweptRegion, List.range_eq_range', Nat.sub_zero]
  · rw [freeRegion_diverges clear safe addr len (by omega) fuel 0 (by simp) s] at run
    contradiction

variable {mem : σ → Mem}

/-- The loop over the map sweeps the entries as it meets them. -/
theorem freeMmap_spec {mbi safe : Word} (fuel : ℕ) {p : Word} {s s' : σ}
    (run : freeMmap mem clear mbi safe fuel p s = some s') :
    ∃ es, MultibootInfo.Walk mem (fun e => clearAll clear (swept safe [e])) mbi p s es ∧
      s' = clearAll clear (swept safe es) s ∧
      ∀ e ∈ es, e.type = multibootMemoryAvailable → e.lenLow.toNat ≤ 2 ^ 32 - 4096 := by
  induction fuel generalizing p s with
  | zero => simp [freeMmap] at run
  | succ fuel ih =>
      rw [freeMmap] at run
      by_cases inside : p < (MultibootInfo.load (mem s) mbi).mmapEnd
      · rw [if_pos inside] at run
        dsimp only at run
        generalize here : MultibootMmapEntry.load (mem s) p = e at run
        -- the state after the entry, and the length when it is available
        obtain ⟨short, rest⟩ : (e.type = multibootMemoryAvailable →
            e.lenLow.toNat ≤ 2 ^ 32 - 4096) ∧ freeMmap mem clear mbi safe fuel
              (p + (MultibootMmapEntry.load (mem (clearAll clear (swept safe [e]) s)) p).size + 4)
              (clearAll clear (swept safe [e]) s) = some s' := by
          by_cases available : e.type = multibootMemoryAvailable
          · rw [if_pos available] at run
            cases region : freeRegion clear safe e.addrLow e.lenLow fuel 0 s with
            | none =>
                rw [region] at run
                contradiction
            | some middle =>
                rw [region] at run
                obtain ⟨short, middleEq⟩ := freeRegion_spec clear region
                rw [swept_available available, ← middleEq]
                exact ⟨fun _ => short, run⟩
          · rw [if_neg available] at run
            rw [swept_other available]
            refine ⟨fun h => absurd h available, ?_⟩
            rwa [← here] at run
        obtain ⟨es, walk, result, lens⟩ := ih rest
        refine ⟨e :: es, ⟨inside, here.symm, walk⟩, ?_, ?_⟩
        · rw [result, ← clearAll_append, ← swept_cons]
        · intro e' member
          rcases List.mem_cons.mp member with rfl | member
          · exact short
          · exact lens e' member
      · rw [if_neg inside] at run
        exact ⟨[], inside, (Option.some.inj run).symm, by simp⟩

theorem freeRegion_finishes (safe addr len : Word) (short : len.toNat ≤ 2 ^ 32 - 4096)
    (fuel : ℕ) (i : Word) (aligned : i.toNat % 4096 = 0)
    (enough : len.toNat ≤ i.toNat + 4096 * fuel) (s : σ) :
    ∃ s', freeRegion clear safe addr len (fuel + 1) i s = some s' := by
  induction fuel generalizing i s with
  | zero =>
      have done : ¬ i < len := by
        rw [BitVec.lt_def]
        omega
      exact ⟨s, if_neg done⟩
  | succ fuel ih =>
      rw [freeRegion]
      by_cases more : i < len
      · rw [if_pos more]
        rw [BitVec.lt_def] at more
        have next : (i + 4096).toNat = i.toNat + 4096 := by bv_omega
        exact ih (i + 4096) (by omega) (by omega) _
      · rw [if_neg more]
        exact ⟨s, rfl⟩

theorem freeMmap_finishes {mbi safe p : Word} {es : List MultibootMmapEntry} {s : σ}
    (walk : MultibootInfo.Walk mem (fun e => clearAll clear (swept safe [e])) mbi p s es)
    (short : ∀ e ∈ es, e.type = multibootMemoryAvailable → e.lenLow.toNat ≤ 2 ^ 32 - 4096)
    (fuel : ℕ) (enough : es.length + 2 ^ 20 < fuel) :
    ∃ s', freeMmap mem clear mbi safe fuel p s = some s' := by
  induction es generalizing p s fuel with
  | nil =>
      cases fuel with
      | zero => omega
      | succ fuel => exact ⟨s, if_neg walk⟩
  | cons e rest ih =>
      obtain ⟨inside, rfl, tail⟩ := walk
      dsimp only at tail
      have restShort : ∀ e ∈ rest, e.type = multibootMemoryAvailable →
          e.lenLow.toNat ≤ 2 ^ 32 - 4096 := fun e member => short e (List.mem_cons_of_mem _ member)
      rw [List.length_cons] at enough
      obtain ⟨left, rfl⟩ : ∃ left, fuel = left + 2 := ⟨fuel - 2, by omega⟩
      rw [freeMmap, if_pos inside]
      dsimp only
      by_cases available :
          (MultibootMmapEntry.load (mem s) p).type = multibootMemoryAvailable
      · have here := short _ (List.mem_cons_self ..) available
        obtain ⟨middle, region⟩ := freeRegion_finishes clear safe
          (MultibootMmapEntry.load (mem s) p).addrLow (MultibootMmapEntry.load (mem s) p).lenLow
          here left 0 (by simp) (by omega) s
        rw [swept_available available, ← (freeRegion_spec clear region).2] at tail
        rw [if_pos available, region]
        exact ih tail restShort (left + 1) (by omega)
      · have none : swept safe [MultibootMmapEntry.load (mem s) p] = [] := by
          simp [swept, available]
        rw [none] at tail
        rw [if_neg available]
        exact ih tail restShort (left + 1) (by omega)

end Loops

/-- The entries that `pmm_initialize` meets, each read from the memory that the
fill and the entries before it have left. -/
def Met (kernelEnd mbi : Word) (mem : Mem) : List MultibootMmapEntry → Prop :=
  MultibootInfo.Entries Pmm.mem
    (fun e s => s.giveAll (swept (watermark kernelEnd (MultibootInfo.load mem mbi)) [e])) mbi
    (bootBitmap kernelEnd (MultibootInfo.load mem mbi) mem)

/-- `pmm_initialize` marks everything used and then sweeps the memory map. -/
theorem pmmInitialize_spec {fuel : ℕ} {kernelEnd mbi : Word} {mem : Mem} {s : Pmm}
    (finishes : pmmInitialize fuel kernelEnd mbi mem = some s) :
    ∃ es, Met kernelEnd mbi mem es ∧
      s = (bootBitmap kernelEnd (MultibootInfo.load mem mbi) mem).giveAll
        (swept (watermark kernelEnd (MultibootInfo.load mem mbi)) es) ∧
      ∀ e ∈ es, e.type = multibootMemoryAvailable → e.lenLow.toNat ≤ 2 ^ 32 - 4096 := by
  unfold pmmInitialize at finishes
  dsimp only at finishes
  split at finishes
  · rename_i announced
    obtain ⟨es, walk, result, short⟩ := freeMmap_spec _ fuel finishes
    exact ⟨es, ⟨fun _ => walk, fun absent => absurd (announced.symm.trans absent) (by simp)⟩,
      result, short⟩
  · rename_i absent
    exact ⟨[], ⟨fun announced => absurd announced absent, fun _ => rfl⟩,
      (Option.some.inj finishes).symm, by simp⟩

/-- Collecting the indices does not change what the walk reads. -/
theorem walk_collect {mbi safe p : Word} {s : Pmm} {ks : List Word}
    {es : List MultibootMmapEntry} :
    MultibootInfo.Walk (fun s : Pmm × List Word => s.1.mem)
      (fun e => clearAll (fun k (s, ks) => (s.give k, ks ++ [k])) (swept safe [e])) mbi p (s, ks)
      es ↔ MultibootInfo.Walk Pmm.mem (fun e s => s.giveAll (swept safe [e])) mbi p s es :=
  MultibootInfo.walk_map (fun _ => rfl)
    (fun _ s => congrArg Prod.fst (clearAll_collect _ s.1 s.2)) p (s, ks) es

/-- The loop over the map clears exactly the swept blocks, in order. -/
theorem pmmInitializeClears_spec {fuel : ℕ} {kernelEnd mbi : Word} {mem : Mem}
    {es : List MultibootMmapEntry} {ks : List Word}
    (finishes : pmmInitializeClears fuel kernelEnd mbi mem = some ks)
    (met : Met kernelEnd mbi mem es) :
    ks = (swept (watermark kernelEnd (MultibootInfo.load mem mbi)) es).map (BitVec.ofNat 32) := by
  unfold pmmInitializeClears at finishes
  dsimp only at finishes
  split at finishes
  · rename_i announced
    obtain ⟨⟨s, ks⟩, run, rfl⟩ := Option.map_eq_some_iff.mp finishes
    obtain ⟨es', walk, result, _⟩ := freeMmap_spec _ fuel run
    rw [(met.walk announced).unique (walk_collect.mp walk)]
    rw [clearAll_collect, List.nil_append] at result
    exact congrArg Prod.snd result
  · rename_i absent
    rw [met.empty (Bool.eq_false_iff.mpr absent)]
    exact (Option.some.inj finishes).symm

/-! ## When `pmm_initialize` finishes -/

/-- `pmm_initialize` finishes when the walk over the map ends and no available
region has a length within 4 KiB of 2^32. -/
theorem pmmInitialize_finishes {kernelEnd mbi : Word} {mem : Mem} {es : List MultibootMmapEntry}
    (met : Met kernelEnd mbi mem es)
    (short : ∀ e ∈ es, e.type = multibootMemoryAvailable → e.lenLow.toNat ≤ 2 ^ 32 - 4096) :
    ∃ fuel s, pmmInitialize fuel kernelEnd mbi mem = some s := by
  by_cases announced : (MultibootInfo.load
      (bootBitmap kernelEnd (MultibootInfo.load mem mbi) mem).mem mbi).hasMmap = true
  · obtain ⟨fuel, enough⟩ : ∃ fuel, es.length + 2 ^ 20 < fuel := ⟨_, Nat.lt_succ_self _⟩
    obtain ⟨s, run⟩ := freeMmap_finishes _ (met.walk announced) short fuel enough
    exact ⟨fuel, s, (if_pos announced).trans run⟩
  · exact ⟨0, _, if_neg announced⟩

theorem pmmInitializeClears_finishes {fuel : ℕ} {kernelEnd mbi : Word} {mem : Mem} {s : Pmm}
    (finishes : pmmInitialize fuel kernelEnd mbi mem = some s) :
    ∃ fuel ks, pmmInitializeClears fuel kernelEnd mbi mem = some ks := by
  obtain ⟨es, met, _, short⟩ := pmmInitialize_spec finishes
  by_cases announced : (MultibootInfo.load
      (bootBitmap kernelEnd (MultibootInfo.load mem mbi) mem).mem mbi).hasMmap = true
  · obtain ⟨fuel, enough⟩ : ∃ fuel, es.length + 2 ^ 20 < fuel := ⟨_, Nat.lt_succ_self _⟩
    obtain ⟨s, run⟩ := freeMmap_finishes _ (walk_collect.mpr (met.walk announced)) short fuel
      enough
    exact ⟨fuel, s.2, (if_pos announced).trans (congrArg (Option.map Prod.snd) run)⟩
  · exact ⟨0, [], if_neg announced⟩

/-! ## The booted allocator, bit by bit -/

/-- Bit `k` of the bitmap as RAM held it before the fill. -/
def ramBit (kernelEnd : Word) (mbi : MultibootInfo) (mem : Mem) (k : ℕ) : Bool :=
  (mem (safeMemStart kernelEnd mbi + BitVec.ofNat 32 (k / 8))).getLsbD (k % 8)

theorem maxBlocksOf_lt (mbi : MultibootInfo) : (maxBlocksOf mbi).toNat < 2 ^ 20 := by
  have small := ((mbi.memLower + mbi.memUpper) * 1024).isLt
  have value : (maxBlocksOf mbi).toNat = ((mbi.memLower + mbi.memUpper) * 1024).toNat / 4096 :=
    toNat_div_4096 _
  omega

theorem toNat_bitmapSize (mbi : MultibootInfo) :
    (bitmapSize mbi).toNat = (maxBlocksOf mbi).toNat / 8 := by
  rw [bitmapSize, BitVec.toNat_udiv]
  rfl

/-- The fill sets whole bytes only; the bits behind them keep what RAM held. -/
theorem bit_bootBitmap (kernelEnd : Word) (mbi : MultibootInfo) (mem : Mem) {k : ℕ}
    (bound : k < 2 ^ 32) : (bootBitmap kernelEnd mbi mem).bit k =
      (decide (k < 8 * ((maxBlocksOf mbi).toNat / 8)) || ramBit kernelEnd mbi mem k) := by
  have inFill : Within (safeMemStart kernelEnd mbi) (bitmapSize mbi).toNat
      (safeMemStart kernelEnd mbi + BitVec.ofNat 32 (k / 8)) ↔
      k < 8 * ((maxBlocksOf mbi).toNat / 8) := by
    have distance : (safeMemStart kernelEnd mbi + BitVec.ofNat 32 (k / 8) -
        safeMemStart kernelEnd mbi).toNat = k / 8 := by
      bv_omega
    rw [Within, distance, toNat_bitmapSize]
    omega
  unfold bit bootBitmap ramBit
  dsimp only
  rw [memset_apply]
  by_cases filled : k < 8 * ((maxBlocksOf mbi).toNat / 8)
  · rw [if_pos (inFill.mpr filled)]
    have ones : ∀ j < 8, (0xFF : Byte).getLsbD j = true := by decide
    rw [ones (k % 8) (Nat.mod_lt k (by simp)), decide_eq_true filled, Bool.true_or]
  · rw [if_neg (fun h => filled (inFill.mp h))]
    simp [filled]

/-- A block is free after initialisation when the sweep reaches it, or when its
bit lies behind the fill and RAM happened to hold a zero there. -/
def FreeAtBoot (kernelEnd : Word) (mbi : MultibootInfo) (mem : Mem)
    (es : List MultibootMmapEntry) (k : ℕ) : Prop :=
  k ∈ swept (watermark kernelEnd mbi) es ∨
    (8 * ((maxBlocksOf mbi).toNat / 8) ≤ k ∧ ramBit kernelEnd mbi mem k = false)

instance (kernelEnd : Word) (mbi : MultibootInfo) (mem : Mem) (es : List MultibootMmapEntry)
    (k : ℕ) : Decidable (FreeAtBoot kernelEnd mbi mem es k) :=
  inferInstanceAs (Decidable (_ ∨ _))

/-- What `pmm_initialize` leaves behind for a memory map. -/
structure Booted (kernelEnd : Word) (mbi : MultibootInfo) (mem : Mem)
    (es : List MultibootMmapEntry) (s : Pmm) : Prop where
  bitmap : s.bitmap = safeMemStart kernelEnd mbi
  maxBlocks : s.maxBlocks = maxBlocksOf mbi
  usedBlocks : s.usedBlocks =
    maxBlocksOf mbi - BitVec.ofNat 32 (swept (watermark kernelEnd mbi) es).length
  bits : ∀ k < 2 ^ 32, s.bit k = false ↔ FreeAtBoot kernelEnd mbi mem es k

theorem Booted.maxBlocks_lt {kernelEnd : Word} {mbi : MultibootInfo} {mem : Mem}
    {es : List MultibootMmapEntry} {s : Pmm} (booted : Booted kernelEnd mbi mem es s) :
    s.maxBlocks.toNat < 2 ^ 20 := booted.maxBlocks ▸ maxBlocksOf_lt mbi

theorem pmmInitialize_booted {fuel : ℕ} {kernelEnd mbi : Word} {mem : Mem}
    {es : List MultibootMmapEntry} {s : Pmm}
    (finishes : pmmInitialize fuel kernelEnd mbi mem = some s) (met : Met kernelEnd mbi mem es) :
    Booted kernelEnd (MultibootInfo.load mem mbi) mem es s := by
  obtain ⟨es', met', result, _⟩ := pmmInitialize_spec finishes
  cases met.unique met'
  generalize MultibootInfo.load mem mbi = info at result ⊢
  subst result
  refine ⟨giveAll_bitmap _ _, giveAll_maxBlocks _ _, giveAll_usedBlocks _ _, ?_⟩
  intro k bound
  have sweptSmall : ∀ k ∈ swept (watermark kernelEnd info) es, k < 2 ^ 32 := fun j member =>
    Nat.lt_trans (swept_lt member) (by simp)
  rw [bit_giveAll _ _ sweptSmall bound, bit_bootBitmap kernelEnd info mem bound]
  simp only [FreeAtBoot, Bool.and_eq_false_iff, Bool.or_eq_false_iff, Bool.not_eq_false',
    decide_eq_true_eq, decide_eq_false_iff_not, not_lt]

end Pmm

end OrbitOs.Memory
