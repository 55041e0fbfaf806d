import OrbitOs.Memory.PmmBounds
import OrbitOs.Memory.Rights

/-!
# Memory accesses under page tables

With paging on, every access goes through the tables that CR3 names.  An access
is logged with the memory at that moment, and so with the tables of that moment;
`vmm_map_page` changes the tables while it runs, but no address translates
differently before its last store.
-/

set_option autoImplicit false

namespace OrbitOs.Memory

open OrbitOs.Machine OrbitOs.Kernel OrbitOs.Base

/-- The page frame that the directory at `cr3` gives for `virt`; `none` is a page fault. -/
def translate (m : Mem) (cr3 virt : Word) : Option Word :=
  let pdIndex := virt >>> 22
  let ptIndex := (virt >>> 12) &&& 0x03FF
  let pde := ld32 m (cr3 + 4 * pdIndex)
  if pde &&& Vmm.pdePresent = 0 then none
  else
    let pte := ld32 m (Vmm.frameOf pde + 4 * ptIndex)
    if pte &&& Vmm.pdePresent = 0 then none else some (Vmm.frameOf pte)

/-- An access to `size` bytes from `base` on. -/
structure Access where
  mem : Mem
  cr3 : Word
  base : Word
  size : ℕ

namespace Access

/-- Every byte is present and maps to the same physical address. -/
def Mapped (a : Access) : Prop :=
  ∀ x, Within a.base a.size x → translate a.mem a.cr3 x = some (Vmm.frameOf x)

/-- Every byte is present. -/
def Present (a : Access) : Prop := ∀ x, Within a.base a.size x → translate a.mem a.cr3 x ≠ none

/-- The access is to addresses in `reached`, at a moment when the tables
translate like `tr`. -/
def Sees (tr : Word → Option Word) (reached : Word → Prop) (a : Access) : Prop :=
  (∀ x, translate a.mem a.cr3 x = tr x) ∧ ∀ x, Within a.base a.size x → reached x

variable {tr : Word → Option Word} {reached reached' : Word → Prop} {a : Access}

/-- The access is to `reached`, at a moment when memory differs from `m` only in `written`. -/
structure Reaches (m : Mem) (cr3 : Word) (written reached : Word → Prop) (a : Access) : Prop where
  mem : AgreeOff written m a.mem
  cr3 : a.cr3 = cr3
  inside : ∀ x, Within a.base a.size x → reached x

/-- The access is to `touched`, and so were the writes since `m`. -/
abbrev Confined (m : Mem) (cr3 : Word) (touched : Word → Prop) (a : Access) : Prop :=
  a.Reaches m cr3 touched touched

theorem Confined.mono {m : Mem} {cr3 : Word} {touched touched' : Word → Prop}
    (confined : a.Confined m cr3 touched) (sub : ∀ x, touched x → touched' x) :
    a.Confined m cr3 touched' :=
  ⟨confined.mem.mono sub, confined.cr3, fun x member => sub x (confined.inside x member)⟩

/-- The same access seen from an earlier memory. -/
theorem Confined.since {m m' : Mem} {cr3 : Word} {touched : Word → Prop}
    (confined : a.Confined m' cr3 touched) (agree : AgreeOff touched m m') :
    a.Confined m cr3 touched :=
  ⟨agree.trans confined.mem, confined.cr3, confined.inside⟩

theorem Sees.mapped (sees : a.Sees tr reached)
    (identity : ∀ x, reached x → tr x = some (Vmm.frameOf x)) : a.Mapped := fun x member =>
  (sees.1 x).trans (identity x (sees.2 x member))

end Access

/-! ## The accesses of the source -/

/-- The words of the bitmap that `pmm_alloc_block` tests and sets. -/
def Pmm.allocAccesses (cr3 : Word) (s : Pmm) : List Access :=
  (Pmm.pmmAllocIndices s).map fun i => ⟨s.mem, cr3, s.wordAt i, 4⟩

/-- `*p++ = value` in the loop of `memsetLoop`. -/
def memsetAccesses (cr3 : Word) (value : Byte) : ℕ → Word → Mem → List Access
  | 0, _, _ => []
  | num + 1, p, m => ⟨m, cr3, p, 1⟩ :: memsetAccesses cr3 value num (p + 1) (stByte m p value)

namespace Vmm

open Pmm

/-- The first part of `vmm_map_page`. -/
def ensureTableAccesses (cr3 : Word) (s : Vmm) (pdIndex : Word) : List Access :=
  let entry := s.pageDirectory + 4 * pdIndex
  ⟨s.mem, cr3, entry, 4⟩ ::
    if ld32 s.mem entry &&& pdePresent = 0 then
      let (pmm, pt) := pmmAllocBlock s.pmm
      s.pmm.allocAccesses cr3 ++
        if pt = 0 then []
        else memsetAccesses cr3 0 4096 pt pmm.mem ++ [⟨memset pmm.mem pt 0 4096, cr3, entry, 4⟩]
    else []

def mapAccesses (cr3 : Word) (s : Vmm) (c : MapCall) : List Access :=
  let pdIndex := c.virt >>> 22
  let ptIndex := (c.virt >>> 12) &&& 0x03FF
  s.ensureTableAccesses cr3 pdIndex ++
    match s.ensureTable pdIndex c.flags with
    | (_, false) => []
    | (s, true) =>
      let entry := s.pageDirectory + 4 * pdIndex
      [⟨s.mem, cr3, entry, 4⟩, ⟨s.mem, cr3, frameOf (ld32 s.mem entry) + 4 * ptIndex, 4⟩]

/-- The accesses of one call after the other. -/
def mapAllAccesses (cr3 : Word) : Vmm → List MapCall → List Access
  | _, [] => []
  | s, c :: cs => s.mapAccesses cr3 c ++ mapAllAccesses cr3 (s.apply c) cs

/-! ## The memory of the tables -/

/-- `x` is in the page directory or in a table that one of its entries names. -/
def OfTables (s : Vmm) (x : Word) : Prop :=
  frameOf x = s.pageDirectory ∨ ∃ virt : Word,
    s.pdeAt (virt >>> 22) &&& pdePresent ≠ 0 ∧ frameOf x = frameOf (s.pdeAt (virt >>> 22))

/-- No byte of block `b` belongs to the tables. -/
def NotTable (s : Vmm) (b : ℕ) : Prop := ∀ x, InBlock b x → ¬ s.OfTables x

/-- The call takes block `b` from the allocator for a new table. -/
def TakesBlock (s : Vmm) (c : MapCall) (b : ℕ) : Prop :=
  s.pdeAt (c.virt >>> 22) &&& pdePresent = 0 ∧ IsLeast s.pmm.freeBlocks b

/-- `x` is in the block of the new table. -/
def OfNewTable (s : Vmm) (c : MapCall) (x : Word) : Prop := ∃ b, s.TakesBlock c b ∧ InBlock b x

theorem walk_eq_translate (s : Vmm) (virt : Word) :
    s.walk virt = translate s.mem s.pageDirectory virt := rfl

theorem frameOf_eq_shift (x : Word) : frameOf x = (x >>> 12) <<< 12 := by
  have mask : ∀ i < 32, (0xFFF : Word).getLsbD i = decide (i < 12) := by decide
  apply BitVec.eq_of_getLsbD_eq
  intro i bound
  rw [frameOf, BitVec.getLsbD_and, BitVec.getLsbD_not, mask i bound, BitVec.getLsbD_shiftLeft,
    BitVec.getLsbD_ushiftRight]
  by_cases low : i < 12
  · simp [low]
  · have index : 12 + (i - 12) = i := by omega
    simp [low, bound, index]

theorem toNat_frameOf (x : Word) : (frameOf x).toNat = 4096 * (x.toNat / 4096) := by
  have bound := x.isLt
  rw [frameOf_eq_shift, BitVec.toNat_shiftLeft, BitVec.toNat_ushiftRight,
    Nat.shiftRight_eq_div_pow, Nat.shiftLeft_eq]
  omega

theorem frameOf_eq_blockAddr_iff {k : ℕ} (bound : k < 2 ^ 20) (x : Word) :
    frameOf x = blockAddr k ↔ InBlock k x := by
  rw [← BitVec.toNat_inj, toNat_frameOf, toNat_blockAddr bound, InBlock]
  omega

theorem frameOf_eq_iff (x y : Word) : frameOf x = frameOf y ↔ x >>> 12 = y >>> 12 := by
  rw [← BitVec.toNat_inj, ← BitVec.toNat_inj, toNat_frameOf, toNat_frameOf,
    BitVec.toNat_ushiftRight, BitVec.toNat_ushiftRight, Nat.shiftRight_eq_div_pow,
    Nat.shiftRight_eq_div_pow]
  omega

variable {s : Vmm} {d : ℕ} {t : Tables}

theorem Represents.pdeAt_eq (rep : Represents s d t) (virt : Word) :
    s.pdeAt (virt >>> 22) = word s.mem d (virt.toNat / 2 ^ 22) := by
  rw [pdeAt, rep.pde, toNat_pdIndex]

/-- The memory of the tables by its blocks. -/
theorem Represents.ofTables_iff (rep : Represents s d t) (x : Word) :
    s.OfTables x ↔ InBlock d x ∨ ∃ i k, t.dir i = some k ∧ InBlock k x := by
  unfold OfTables
  rw [rep.directory, frameOf_eq_blockAddr_iff (rep.bound rep.held)]
  refine or_congr_right ⟨?_, ?_⟩
  · rintro ⟨virt, present, same⟩
    rw [rep.pdeAt_eq] at present same
    cases names : t.dir (virt.toNat / 2 ^ 22) with
    | none =>
        have bound := virt.isLt
        exact absurd (rep.slot_none (by omega) names) present
    | some k =>
        rw [(rep.slot_some names).2,
          frameOf_eq_blockAddr_iff (rep.bound (rep.named _ k names).2.2)] at same
        exact ⟨_, k, names, same⟩
  · rintro ⟨i, k, names, inBlock⟩
    have iBound := (rep.named i k names).1
    have index : (BitVec.ofNat 32 (2 ^ 22 * i)).toNat / 2 ^ 22 = i := by
      rw [BitVec.toNat_ofNat, Nat.mod_eq_of_lt (by omega)]
      exact Nat.mul_div_cancel_left i (by simp)
    refine ⟨BitVec.ofNat 32 (2 ^ 22 * i), ?_⟩
    rw [rep.pdeAt_eq, index, (rep.slot_some names).2,
      frameOf_eq_blockAddr_iff (rep.bound (rep.named i k names).2.2)]
    exact ⟨(rep.slot_some names).1, inBlock⟩

theorem Represents.notTable_iff (rep : Represents s d t) {b : ℕ} (bound : b < 2 ^ 20) :
    s.NotTable b ↔ b ≠ d ∧ ∀ i, t.dir i ≠ some b := by
  have first : InBlock b (blockAddr b) := (frameOf_eq_blockAddr_iff bound _).mp
    (frameOf_blockAddr b)
  unfold NotTable
  simp only [rep.ofTables_iff]
  constructor
  · intro apart
    constructor
    · rintro rfl
      exact apart _ first (Or.inl first)
    · intro i names
      exact apart _ first (Or.inr ⟨i, b, names, first⟩)
  · rintro ⟨notDirectory, notNamed⟩ x inBlock (inDirectory | ⟨i, k, names, inTable⟩)
    · exact notDirectory (inBlock.unique inDirectory)
    · exact notNamed i (inBlock.unique inTable ▸ names)

/-- A change that stays away from the tables changes no translation. -/
theorem Represents.translate_eq (rep : Represents s d t) {touched : Word → Prop} {m : Mem}
    (agree : AgreeOff touched s.mem m) (off : ∀ x, s.OfTables x → ¬ touched x) (virt : Word) :
    translate m s.pageDirectory virt = s.walk virt := by
  have same : ∀ k, (∀ x, InBlock k x → s.OfTables x) → k < 2 ^ 20 → ∀ i < 1024,
      word m k i = word s.mem k i := fun k inTables kBound i iBound =>
    word_agreeOff agree kBound iBound fun x inBlock => off x (inTables x inBlock)
  have directory := same d (fun x inBlock => (rep.ofTables_iff x).mpr (Or.inl inBlock))
    (rep.bound rep.held) _ (pdIndex_lt virt)
  rw [walk_eq_translate]
  unfold translate
  dsimp only
  rw [rep.directory, blockAddr_add_word, ← word, ← word, directory]
  cases names : t.dir (virt >>> 22).toNat with
  | none => rw [if_pos (rep.slot_none (pdIndex_lt virt) names),
      if_pos (rep.slot_none (pdIndex_lt virt) names)]
  | some k =>
      have inTables : ∀ x, InBlock k x → s.OfTables x := fun x inBlock =>
        (rep.ofTables_iff x).mpr (Or.inr ⟨_, k, names, inBlock⟩)
      have table := same k inTables (rep.bound (rep.named _ k names).2.2) _ (ptIndex_lt virt)
      rw [(rep.slot_some names).2, blockAddr_add_word, ← word, ← word, table]

/-- Accesses to identity-mapped memory, while the tables are not written. -/
theorem Represents.reaches_mapped (rep : Represents s d t) {written reached : Word → Prop}
    {a : Access} (reaches : a.Reaches s.mem s.pageDirectory written reached)
    (off : ∀ x, s.OfTables x → ¬ written x)
    (identity : ∀ x, reached x → s.walk x = some (frameOf x)) : a.Mapped := fun x member => by
  rw [reaches.cr3, rep.translate_eq reaches.mem off]
  exact identity x (reaches.inside x member)

/-! ## What a call accesses -/

theorem mem_allocAccesses {cr3 : Word} {s : Pmm} {a : Access} (member : a ∈ s.allocAccesses cr3) :
    a.mem = s.mem ∧ a.cr3 = cr3 ∧ ∀ x, Within a.base a.size x → s.InBitmapWords x := by
  obtain ⟨i, scanned, rfl⟩ := List.mem_map.mp member
  have bound := ((mem_pmmAllocIndices s).mp scanned).1
  exact ⟨rfl, rfl, fun x inWord => within_bitmapBytes bound inWord⟩

theorem mem_memsetAccesses {cr3 : Word} {value : Byte} {num : ℕ} {p : Word} {m : Mem} {a : Access}
    (member : a ∈ memsetAccesses cr3 value num p m) : a.Confined m cr3 (Within p num) := by
  induction num generalizing p m with
  | zero => exact absurd member List.not_mem_nil
  | succ num ih =>
      rw [memsetAccesses, List.mem_cons] at member
      rcases member with rfl | later
      · have first : ∀ x, Within p 1 x → Within p (num + 1) x := fun x inByte =>
          inByte.mono (by omega)
        exact ⟨AgreeOff.refl _ _, rfl, first⟩
      · have rest : ∀ x, Within (p + 1) num x → Within p (num + 1) x := fun x inRest =>
          Within.offset (d := 1) inRest (by omega)
        have here : AgreeOff (Within p (num + 1)) m (stByte m p value) := fun x off =>
          if_neg fun same => off (by rw [same]; unfold Within; simp)
        exact ((ih later).mono rest).since here

/-- The addresses one call can reach: the bitmap, the tables, and the new table. -/
def CallReaches (s : Vmm) (c : MapCall) (x : Word) : Prop :=
  s.pmm.InBitmapWords x ∨ s.OfTables x ∨ s.OfNewTable c x

theorem Represents.takesBlock (rep : Represents s d t) {c : MapCall} {k : ℕ} {pmm' : Pmm}
    (empty : t.dir (c.virt >>> 22).toNat = none) (allocates : Allocates s.pmm k pmm')
    (handed : pmmAllocBlock s.pmm = (pmm', blockAddr k)) : s.TakesBlock c k := by
  have absent := rep.slot_none (pdIndex_lt c.virt) empty
  rw [← rep.pde] at absent
  exact ⟨absent, (allocates.lowest handed).1⟩

/-- The block of a new table is apart from the tables. -/
theorem Represents.block_apart (rep : Represents s d t) {k : ℕ} {pmm' : Pmm}
    (allocates : Allocates s.pmm k pmm') (x : Word) (inTables : s.OfTables x) :
    ¬ InBlock k x := by
  intro inBlock
  rcases (rep.ofTables_iff x).mp inTables with inDirectory | ⟨i, b, names, inTable⟩
  · exact (allocates.keeps d rep.held).2 (inDirectory.unique inBlock)
  · exact (allocates.keeps b (rep.named i b names).2.2).2 (inTable.unique inBlock)

/-- The bitmap is apart from the tables. -/
theorem Represents.bitmap_apart (rep : Represents s d t) (x : Word) (inTables : s.OfTables x) :
    ¬ s.pmm.InBitmapWords x := by
  rcases (rep.ofTables_iff x).mp inTables with inDirectory | ⟨i, b, names, inTable⟩
  · exact rep.held.clear x inDirectory
  · exact (rep.named i b names).2.2.clear x inTable

theorem Represents.inDirectory (rep : Represents s d t) {i : ℕ} (iBound : i < 1024) {x : Word}
    (member : Within (wordAddr d i) 4 x) : s.OfTables x :=
  (rep.ofTables_iff x).mpr
    (Or.inl (inBlock_of_within_wordAddr (rep.bound rep.held) iBound member))

/-- Each access of `ensureTable` is to known memory, under the translation of
the beginning. -/
theorem Represents.ensureTableAccesses_sees (rep : Represents s d t) (c : MapCall)
    {a : Access} (member : a ∈ s.ensureTableAccesses s.pageDirectory (c.virt >>> 22)) :
    a.Sees s.walk (s.CallReaches c) := by
  have iBound := pdIndex_lt c.virt
  have atEntry : ∀ m, (∀ x, translate m s.pageDirectory x = s.walk x) →
      Access.Sees s.walk (s.CallReaches c)
        ⟨m, s.pageDirectory, wordAddr d (c.virt >>> 22).toNat, 4⟩ := fun m same =>
    ⟨same, fun x inEntry => Or.inr (Or.inl (rep.inDirectory iBound inEntry))⟩
  unfold ensureTableAccesses at member
  dsimp only at member
  rw [rep.pde, rep.directory, blockAddr_add_word, List.mem_cons] at member
  rcases member with rfl | later
  · exact rep.directory ▸ atEntry s.mem fun x => rfl
  · split at later
    · rename_i absent
      have empty : t.dir (c.virt >>> 22).toNat = none := by
        cases names : t.dir (c.virt >>> 22).toNat with
        | none => rfl
        | some k => exact absurd absent (rep.slot_some names).1
      rcases List.mem_append.mp later with inAlloc | afterAlloc
      · obtain ⟨mem, cr3, inWords⟩ := mem_allocAccesses inAlloc
        refine ⟨fun x => ?_, fun x inAccess => Or.inl (inWords x inAccess)⟩
        rw [mem, cr3, ← rep.directory]
        rfl
      · rcases rep.sound.alloc with ⟨k, pmm', allocates, result⟩ | ⟨_, result⟩
        · have inNew : ∀ x, Within (blockAddr k) 4096 x → s.CallReaches c x := fun x inBlock =>
            Or.inr (Or.inr ⟨k, rep.takesBlock empty allocates result,
              (within_block allocates.lt x).mp inBlock⟩)
          have apart : ∀ x, s.OfTables x → ¬ (s.pmm.InBitmapWords x ∨ InBlock k x) := by
            rintro x inTables (inBitmap | inBlock)
            · exact rep.bitmap_apart x inTables inBitmap
            · exact rep.block_apart allocates x inTables inBlock
          have allocated : AgreeOff (fun x => s.pmm.InBitmapWords x ∨ InBlock k x) s.mem pmm'.mem :=
            allocates.mem.mono fun x => Or.inl
          have cleared := (memset_block_agreeOff pmm'.mem 0 allocates.lt).mono fun x =>
            Or.inr (a := s.pmm.InBitmapWords x)
          rw [result] at afterAlloc
          dsimp only at afterAlloc
          rw [if_neg allocates.blockAddr_ne_zero] at afterAlloc
          rcases List.mem_append.mp afterAlloc with inClear | last
          · obtain ⟨agree, cr3, inBlock⟩ := mem_memsetAccesses inClear
            have upToHere := allocated.trans (agree.mono fun x within =>
              Or.inr ((within_block allocates.lt x).mp within))
            refine ⟨fun x => ?_, fun x inAccess => inNew x (inBlock x inAccess)⟩
            rw [cr3, ← rep.directory]
            exact rep.translate_eq upToHere apart x
          · generalize memset pmm'.mem (blockAddr k) 0 4096 = m at cleared last
            cases List.mem_singleton.mp last
            exact rep.directory ▸ atEntry m (rep.translate_eq (allocated.trans cleared) apart)
        · rw [result] at afterAlloc
          simp at afterAlloc
    · simp at later

/-- An empty table in a free slot translates nothing. -/
theorem Represents.walk_withTable (rep : Represents s d t) {k i : ℕ} {pmm' : Pmm} {flags : Word}
    (allocates : Allocates s.pmm k pmm') (empty : t.dir i = none)
    (rep' : Represents (s.withTable pmm' d i k flags) d (t.install i k)) (virt : Word) :
    (s.withTable pmm' d i k flags).walk virt = s.walk virt := by
  rw [rep'.walk_eq, rep.walk_eq, t.lookup_install (rep.unused allocates) empty]

/-- The accesses behind `ensureTable`: the directory entry and an entry of table `k`. -/
theorem Represents.entryAccesses_sees (rep : Represents s d t) (c : MapCall) {s' : Vmm}
    {t' : Tables} {k : ℕ} (rep' : Represents s' d t') {i j : Word} (iBound : i.toNat < 1024)
    (jBound : j.toNat < 1024) (names : t'.dir i.toNat = some k)
    (same : ∀ x, s'.walk x = s.walk x) (reached : ∀ x, InBlock k x → s.CallReaches c x)
    {a : Access}
    (member : a ∈ ([⟨s'.mem, s.pageDirectory, s'.pageDirectory + 4 * i, 4⟩,
      ⟨s'.mem, s.pageDirectory, frameOf (ld32 s'.mem (s'.pageDirectory + 4 * i)) + 4 * j, 4⟩] :
        List Access)) : a.Sees s.walk (s.CallReaches c) := by
  have sameWalk : ∀ x, translate s'.mem s.pageDirectory x = s.walk x := by
    intro x
    rw [← same x, walk_eq_translate, rep.directory, rep'.directory]
  have kBound := rep'.bound (rep'.named _ k names).2.2
  rw [rep'.pde, rep'.directory, (rep'.slot_some names).2, blockAddr_add_word, blockAddr_add_word,
    List.mem_cons, List.mem_singleton] at member
  rcases member with rfl | rfl
  · exact ⟨sameWalk, fun x inEntry => Or.inr (Or.inl (rep.inDirectory iBound inEntry))⟩
  · exact ⟨sameWalk, fun x inEntry =>
      reached x (inBlock_of_within_wordAddr kBound jBound inEntry)⟩

/-- Each access of `vmm_map_page` is to known memory, under the translation of
the beginning. -/
theorem Represents.mapAccesses_sees (rep : Represents s d t) (c : MapCall)
    (flagBits : FlagBits c.flags) {a : Access} (member : a ∈ s.mapAccesses s.pageDirectory c) :
    a.Sees s.walk (s.CallReaches c) := by
  unfold mapAccesses at member
  dsimp only at member
  rcases List.mem_append.mp member with inEnsure | inEntries
  · exact rep.ensureTableAccesses_sees c inEnsure
  · rcases rep.ensureTable_spec (pdIndex_lt c.virt) flagBits with
      ⟨k, names, result⟩ | ⟨empty, k, pmm', allocates, handed, result, rep'⟩ | ⟨-, -, -, result⟩
    · rw [result] at inEntries
      refine rep.entryAccesses_sees c rep (pdIndex_lt c.virt) (ptIndex_lt c.virt) names
        (fun x => rfl) (fun x inTable => ?_) inEntries
      exact Or.inr (Or.inl ((rep.ofTables_iff x).mpr (Or.inr ⟨_, k, names, inTable⟩)))
    · rw [result] at inEntries
      refine rep.entryAccesses_sees c (k := k) rep' (pdIndex_lt c.virt) (ptIndex_lt c.virt)
        (by simp [TwoLevel.install]) (rep.walk_withTable allocates empty rep')
        (fun x inTable => ?_) inEntries
      exact Or.inr (Or.inr ⟨k, rep.takesBlock empty allocates handed, inTable⟩)
    · rw [result] at inEntries
      simp at inEntries

end Vmm

end OrbitOs.Memory
