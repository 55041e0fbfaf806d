import OrbitOs.Base.TwoLevel
import OrbitOs.Memory.Blocks

/-!
# The virtual memory manager of memory/vmm.c

`vmm_map_page` works on a directory and tables that lie in allocator blocks.
They represent an abstract two-level table, each call is an install and a put
on that table, and the walk of the hardware looks the page up in it.
-/

set_option autoImplicit false

namespace OrbitOs.Memory

open OrbitOs.Machine OrbitOs.Kernel OrbitOs.Base

/-- The static variable of vmm.c and the allocator, whose memory it points into. -/
structure Vmm where
  pmm : Pmm
  pageDirectory : Word

namespace Vmm

open Pmm

/-! ## The source -/

/-- `I86_PDE_PRESENT` -/
def pdePresent : Word := 1

/-- `I86_PDE_WRITABLE` -/
def pdeWritable : Word := 2

/-- `I86_PDE_USER` -/
def pdeUser : Word := 4

/-- `e & ~0xFFF` -/
def frameOf (e : Word) : Word := e &&& ~~~0xFFF

def mem (s : Vmm) : Mem := s.pmm.mem

/-- A word store. -/
def store (s : Vmm) (a v : Word) : Vmm := { s with pmm := s.pmm.withMem (st32 s.mem a v) }

theorem mem_store (s : Vmm) (a v : Word) : (s.store a v).mem = st32 s.mem a v := rfl

/-- The first part of `vmm_map_page`: `page_directory[pd_index]` names a table
afterwards, or the call returns early and the flag is `false`. -/
def ensureTable (s : Vmm) (pdIndex flags : Word) : Vmm × Bool :=
  if ld32 s.mem (s.pageDirectory + 4 * pdIndex) &&& pdePresent = 0 then
    let (pmm, pt) := pmmAllocBlock s.pmm
    if pt = 0 then ({ s with pmm := pmm }, false)
    else
      let cleared := { s with pmm := pmm.withMem (memset pmm.mem pt 0 4096) }
      (cleared.store (s.pageDirectory + 4 * pdIndex) (pt ||| flags ||| pdePresent), true)
  else (s, true)

def vmmMapPage (s : Vmm) (phys virt flags : Word) : Vmm :=
  let pdIndex := virt >>> 22
  let ptIndex := (virt >>> 12) &&& 0x03FF
  match s.ensureTable pdIndex flags with
  | (s, false) => s
  | (s, true) =>
    let pt := frameOf (ld32 s.mem (s.pageDirectory + 4 * pdIndex))
    s.store (pt + 4 * ptIndex) (frameOf phys ||| flags ||| pdePresent)

/-- The beginning of `vmm_initialize`: a zeroed directory. -/
def vmmNewDirectory (pmm : Pmm) : Option Vmm :=
  let (pmm, pageDirectory) := pmmAllocBlock pmm
  if pageDirectory = 0 then none
  else some { pmm := pmm.withMem (memset pmm.mem pageDirectory 0 4096), pageDirectory }

/-! ## The hardware -/

/-- The page frame the processor finds for `virt`; `none` is a page fault. -/
def walk (s : Vmm) (virt : Word) : Option Word :=
  let pdIndex := virt >>> 22
  let ptIndex := (virt >>> 12) &&& 0x03FF
  let pde := ld32 s.mem (s.pageDirectory + 4 * pdIndex)
  if pde &&& pdePresent = 0 then none
  else
    let pte := ld32 s.mem (frameOf pde + 4 * ptIndex)
    if pte &&& pdePresent = 0 then none else some (frameOf pte)

/-! ## Indices and entries -/

theorem toNat_pdIndex (virt : Word) : (virt >>> 22).toNat = virt.toNat / 2 ^ 22 := by
  rw [BitVec.toNat_ushiftRight, Nat.shiftRight_eq_div_pow]

theorem toNat_ptIndex (virt : Word) :
    ((virt >>> 12) &&& 0x03FF).toNat = virt.toNat / 2 ^ 12 % 1024 := by
  have mask : (0x03FF : Word).toNat = 2 ^ 10 - 1 := rfl
  rw [BitVec.toNat_and, BitVec.toNat_ushiftRight, Nat.shiftRight_eq_div_pow, mask,
    Nat.and_two_pow_sub_one_eq_mod]

theorem pdIndex_lt (virt : Word) : (virt >>> 22).toNat < 1024 := by
  have bound := virt.isLt
  rw [toNat_pdIndex]
  omega

theorem ptIndex_lt (virt : Word) : ((virt >>> 12) &&& 0x03FF).toNat < 1024 := by
  rw [toNat_ptIndex]
  exact Nat.mod_lt _ (by simp)

/-- Two addresses on one page have the same indices. -/
theorem samePage_iff {virt virt' : Word} :
    virt >>> 12 = virt' >>> 12 ↔ virt.toNat / 2 ^ 22 = virt'.toNat / 2 ^ 22 ∧
      virt.toNat / 2 ^ 12 % 1024 = virt'.toNat / 2 ^ 12 % 1024 := by
  rw [← BitVec.toNat_inj, BitVec.toNat_ushiftRight, BitVec.toNat_ushiftRight,
    Nat.shiftRight_eq_div_pow, Nat.shiftRight_eq_div_pow]
  omega

theorem and_or_and_not (x m : Word) : x &&& m ||| x &&& ~~~m = x := by
  apply BitVec.eq_of_getLsbD_eq
  intro i bound
  simp only [BitVec.getLsbD_or, BitVec.getLsbD_and, BitVec.getLsbD_not, bound, decide_true,
    Bool.true_and]
  cases x.getLsbD i <;> cases m.getLsbD i <;> rfl

/-- The address of a block has no offset bits. -/
theorem frameOf_blockAddr (k : ℕ) : frameOf (blockAddr k) = blockAddr k := by
  have offset : blockAddr k &&& 0xFFF = 0#32 := by
    apply BitVec.eq_of_toNat_eq
    have mask : (0xFFF : Word).toNat = 2 ^ 12 - 1 := rfl
    rw [BitVec.toNat_and, mask, Nat.and_two_pow_sub_one_eq_mod, blockAddr, BitVec.toNat_ofNat]
    simp only [BitVec.toNat_ofNat]
    omega
  have split := and_or_and_not (blockAddr k) 0xFFF
  rwa [offset, BitVec.zero_or] at split

theorem frameOf_frameOf (e : Word) : frameOf (frameOf e) = frameOf e := by
  rw [frameOf, frameOf, BitVec.and_assoc, BitVec.and_self]

/-- The flags a caller may pass. -/
def Allowed (flags : Word) : Prop := flags &&& ~~~(pdeWritable ||| pdeUser) = 0

instance (flags : Word) : Decidable (Allowed flags) := inferInstanceAs (Decidable (_ = _))

/-- No bit of the flags is a bit of the frame. -/
def FlagBits (flags : Word) : Prop := frameOf flags = 0

instance (flags : Word) : Decidable (FlagBits flags) := inferInstanceAs (Decidable (_ = _))

theorem Allowed.flagBits {flags : Word} (allowed : Allowed flags) : FlagBits flags := by
  have mask : (~~~0xFFF : Word) = ~~~(pdeWritable ||| pdeUser) &&& ~~~0xFFF := by decide
  rw [FlagBits, frameOf, mask, ← BitVec.and_assoc, allowed]
  exact BitVec.zero_and

/-- The frame of a packed entry. -/
theorem frameOf_entry {flags : Word} (flagBits : FlagBits flags) (e : Word) :
    frameOf (e ||| flags ||| pdePresent) = frameOf e := by
  have flagsOut : frameOf flags = 0 := flagBits
  have presentOut : frameOf pdePresent = 0#32 := by decide
  unfold frameOf at *
  rw [BitVec.and_or_distrib_right, BitVec.and_or_distrib_right, flagsOut, presentOut]
  exact (BitVec.or_zero).trans BitVec.or_zero

theorem entry_present (e : Word) : (e ||| pdePresent) &&& pdePresent ≠ 0 := by
  intro zero
  have bit := congrArg (fun w : Word => w.getLsbD 0) zero
  simp [pdePresent] at bit

/-! ## The tables in memory -/

abbrev Tables := TwoLevel ℕ ℕ ℕ Word

/-- The entry, if it is present. -/
def presentEntry (e : Word) : Option Word := if e &&& pdePresent = 0 then none else some e

theorem presentEntry_zero : presentEntry 0 = none := by decide

theorem presentEntry_packed (e : Word) :
    presentEntry (e ||| pdePresent) = some (e ||| pdePresent) := if_neg (entry_present e)

/-- The directory in block `d` and the tables it names hold `t`. -/
structure Represents (s : Vmm) (d : ℕ) (t : Tables) : Prop where
  sound : s.pmm.Sound
  directory : s.pageDirectory = blockAddr d
  held : s.pmm.Holdable d
  separate : t.Separate
  slot : ∀ i < 1024, (presentEntry (word s.mem d i)).map frameOf = (t.dir i).map blockAddr
  named : ∀ i k, t.dir i = some k → i < 1024 ∧ k ≠ d ∧ s.pmm.Holdable k
  entry : ∀ i k, t.dir i = some k → ∀ j < 1024, t.tab k j = presentEntry (word s.mem k j)

variable {s : Vmm} {d : ℕ} {t : Tables}

theorem Represents.pde (rep : Represents s d t) (i : Word) :
    ld32 s.mem (s.pageDirectory + 4 * i) = word s.mem d i.toNat := by
  rw [rep.directory, blockAddr_add_word, word]

theorem Represents.bound (rep : Represents s d t) {k : ℕ} (held : s.pmm.Holdable k) :
    k < 2 ^ 20 := rep.sound.holdable_lt held

/-- A slot that names a table: the entry is present and its frame is the table. -/
theorem Represents.slot_some (rep : Represents s d t) {i k : ℕ} (names : t.dir i = some k) :
    word s.mem d i &&& pdePresent ≠ 0 ∧ frameOf (word s.mem d i) = blockAddr k := by
  have value := rep.slot i (rep.named i k names).1
  rw [names, presentEntry] at value
  split at value
  · contradiction
  · rename_i present
    exact ⟨present, Option.some.inj value⟩

theorem Represents.slot_none (rep : Represents s d t) {i : ℕ} (bound : i < 1024)
    (empty : t.dir i = none) : word s.mem d i &&& pdePresent = 0 := by
  have value := rep.slot i bound
  rw [empty, presentEntry] at value
  split at value
  · assumption
  · contradiction

/-- The walk looks the page up in the abstract table. -/
theorem Represents.walk_eq (rep : Represents s d t) (virt : Word) :
    s.walk virt =
      (t.lookup (virt.toNat / 2 ^ 22) (virt.toNat / 2 ^ 12 % 1024)).map frameOf := by
  have virtBound := virt.isLt
  have dirBound : virt.toNat / 2 ^ 22 < 1024 := by omega
  unfold walk
  dsimp only
  rw [rep.pde, toNat_pdIndex, TwoLevel.lookup]
  cases names : t.dir (virt.toNat / 2 ^ 22) with
  | none =>
      rw [if_pos (rep.slot_none dirBound names)]
      rfl
  | some k =>
      obtain ⟨present, frame⟩ := rep.slot_some names
      have tableEntry := rep.entry _ k names (virt.toNat / 2 ^ 12 % 1024)
        (Nat.mod_lt _ (by simp))
      rw [if_neg present, frame, blockAddr_add_word, toNat_ptIndex, Option.bind_some, tableEntry,
        presentEntry, word]
      split <;> rfl

/-! ## What a call does to the tables -/

/-- The directory is in a block of its own, and zeroed. -/
theorem vmmNewDirectory_spec {pmm : Pmm} (sound : pmm.Sound)
    (created : vmmNewDirectory pmm = some s) :
    ∃ d pmm', Allocates pmm d pmm' ∧ pmmAllocBlock pmm = (pmm', blockAddr d) ∧
      s = ⟨pmm'.withMem (memset pmm'.mem (blockAddr d) 0 4096), blockAddr d⟩ := by
  unfold vmmNewDirectory at created
  rcases sound.alloc with ⟨d, pmm', allocates, result⟩ | ⟨_, result⟩
  · rw [result] at created
    dsimp only at created
    rw [if_neg allocates.blockAddr_ne_zero] at created
    exact ⟨d, pmm', allocates, result, (Option.some.inj created).symm⟩
  · rw [result] at created
    contradiction

/-- A zeroed directory names no table. -/
theorem represents_zeroed {pmm : Pmm} {m : Mem} (sound : (pmm.withMem m).Sound)
    (held : (pmm.withMem m).Holdable d) (zero : ∀ i < 1024, word m d i = 0) :
    Represents ⟨pmm.withMem m, blockAddr d⟩ d ⟨fun _ => none, fun _ _ => none⟩ where
  sound := sound
  directory := rfl
  held := held
  separate := by
    intro i i' k names
    contradiction
  slot := by
    intro i bound
    dsimp only [mem, withMem_mem]
    rw [zero i bound, presentEntry_zero]
    rfl
  named := by
    intro i k names
    contradiction
  entry := by
    intro i k names
    contradiction

theorem Represents.empty {pmm : Pmm} (sound : pmm.Sound)
    (created : vmmNewDirectory pmm = some s) :
    ∃ d, Represents s d ⟨fun _ => none, fun _ _ => none⟩ := by
  obtain ⟨d, pmm', allocates, -, value⟩ := vmmNewDirectory_spec sound created
  have small := allocates.lt
  have agree := memset_block_agreeOff pmm'.mem 0 small
  have off := allocates.holdable.off
  rw [value]
  exact ⟨d, represents_zeroed (allocates.sound.withMem agree off)
    (allocates.holdable.withMem agree off) fun i bound => word_memset_zero pmm'.mem small bound⟩

/-- The directory is in a block of its own. -/
theorem vmmNewDirectory_freeBlocks {pmm : Pmm} (sound : pmm.Sound)
    (created : vmmNewDirectory pmm = some s) :
    ∃ d, s.pmm.freeBlocks = pmm.freeBlocks \ {d} := by
  obtain ⟨d, pmm', allocates, result, value⟩ := vmmNewDirectory_spec sound created
  have agree := memset_block_agreeOff pmm'.mem 0 allocates.lt
  generalize memset pmm'.mem (blockAddr d) 0 4096 = m at agree value
  subst value
  exact ⟨d, (freeBlocks_withMem agree allocates.holdable.off).trans (allocates.freeBlocks result)⟩

/-- A block that the allocator hands out is written; no table is in it. -/
theorem Represents.allocate (rep : Represents s d t) {k : ℕ} {pmm' : Pmm}
    (allocates : Allocates s.pmm k pmm') {m : Mem} (agree : AgreeOff (InBlock k) pmm'.mem m) :
    Represents { s with pmm := pmm'.withMem m } d t := by
  have held : ∀ b, s.pmm.Holdable b → (pmm'.withMem m).Holdable b := fun b old =>
    (allocates.keeps b old).1.withMem agree allocates.holdable.off
  have kept : ∀ b, s.pmm.Holdable b → ∀ j < 1024, word m b j = word s.mem b j := by
    intro b old j jBound
    have notNew : ∀ x, InBlock b x → ¬ InBlock k x := fun x inB inK =>
      (allocates.keeps b old).2 (inB.unique inK)
    rw [word_agreeOff agree (rep.bound old) jBound notNew,
      word_agreeOff allocates.mem (rep.bound old) jBound old.clear]
    rfl
  exact {
    sound := allocates.sound.withMem agree allocates.holdable.off
    directory := rep.directory
    held := held d rep.held
    separate := rep.separate
    slot := fun i bound => by
      rw [← rep.slot i bound, ← kept d rep.held i bound]
      rfl
    named := fun i b names =>
      ⟨(rep.named i b names).1, (rep.named i b names).2.1, held b (rep.named i b names).2.2⟩
    entry := fun i b names j bound => by
      rw [rep.entry i b names j bound, ← kept b (rep.named i b names).2.2 j bound]
      rfl }

/-- A slot of the directory gets the name of a table without entries. -/
theorem Represents.name (rep : Represents s d t) {i : ℕ} (iBound : i < 1024) {k : ℕ}
    (kHeld : s.pmm.Holdable k) (other : k ≠ d) (unused : ∀ j, t.dir j ≠ some k)
    (zeros : ∀ j < 1024, word s.mem k j = 0) {flags : Word} (flagBits : FlagBits flags) :
    Represents (s.store (wordAddr d i) (blockAddr k ||| flags ||| pdePresent)) d
      (t.install i k) := by
  have dBound := rep.bound rep.held
  have agree := st32_word_agreeOff s.mem (blockAddr k ||| flags ||| pdePresent) dBound iBound
  have held : ∀ b, s.pmm.Holdable b →
      (s.store (wordAddr d i) (blockAddr k ||| flags ||| pdePresent)).pmm.Holdable b :=
    fun b old => old.withMem agree rep.held.off
  refine ⟨rep.sound.withMem agree rep.held.off, rep.directory, held d rep.held,
    rep.separate.install unused, ?_, ?_, ?_⟩
  · intro j jBound
    rw [mem_store, word_st32 _ _ dBound iBound dBound jBound]
    by_cases here : j = i
    · subst here
      rw [if_pos ⟨rfl, rfl⟩, presentEntry_packed, Option.map_some, frameOf_entry flagBits,
        frameOf_blockAddr]
      simp [TwoLevel.install]
    · rw [if_neg (fun h => here h.2)]
      have same : (t.install i k).dir j = t.dir j := Function.update_of_ne here _ _
      rw [same]
      exact rep.slot j jBound
  · intro j b names
    simp only [TwoLevel.install, Function.update_apply] at names
    split at names
    · rename_i here
      cases names
      exact ⟨here ▸ iBound, other, held k kHeld⟩
    · obtain ⟨jBound, ne, bHeld⟩ := rep.named j b names
      exact ⟨jBound, ne, held b bHeld⟩
  · intro j b names j' bound'
    simp only [TwoLevel.install, Function.update_apply] at names
    rw [mem_store]
    split at names
    · cases names
      rw [word_st32 _ _ dBound iBound (rep.bound kHeld) bound', if_neg (fun h => other h.1),
        zeros j' bound', presentEntry_zero]
      simp [TwoLevel.install]
    · obtain ⟨_, ne, bHeld⟩ := rep.named j b names
      have notNew : b ≠ k := fun same => unused j (same ▸ names)
      rw [word_st32 _ _ dBound iBound (rep.bound bHeld) bound', if_neg (fun h => ne h.1),
        ← rep.entry j b names j' bound']
      simp [TwoLevel.install, notNew]

/-- No slot names a block that was free. -/
theorem Represents.unused (rep : Represents s d t) {k : ℕ} {pmm' : Pmm}
    (allocates : Allocates s.pmm k pmm') (i : ℕ) : t.dir i ≠ some k := fun names =>
  (allocates.keeps k (rep.named i k names).2.2).2 rfl

/-- A cleared block that was just handed out becomes the table in a free slot. -/
theorem Represents.install_cleared (rep : Represents s d t) {i : ℕ} (iBound : i < 1024) {k : ℕ}
    {pmm' : Pmm} (allocates : Allocates s.pmm k pmm') {flags : Word} (flagBits : FlagBits flags)
    {cleared : Mem} (agree : AgreeOff (InBlock k) pmm'.mem cleared)
    (zeros : ∀ j < 1024, word cleared k j = 0) :
    Represents (({ s with pmm := pmm'.withMem cleared } : Vmm).store
      (wordAddr d i) (blockAddr k ||| flags ||| pdePresent)) d (t.install i k) := by
  have other : k ≠ d := fun same => (allocates.keeps d rep.held).2 same.symm
  exact (rep.allocate allocates agree).name iBound
    (allocates.holdable.withMem agree allocates.holdable.off) other (rep.unused allocates) zeros
    flagBits

/-- A new table in a free slot. -/
theorem Represents.install (rep : Represents s d t) {i : ℕ} (iBound : i < 1024) {k : ℕ}
    {pmm' : Pmm} (allocates : Allocates s.pmm k pmm') {flags : Word} (flagBits : FlagBits flags) :
    Represents
      (({ s with pmm := pmm'.withMem (memset pmm'.mem (blockAddr k) 0 4096) } : Vmm).store
        (wordAddr d i) (blockAddr k ||| flags ||| pdePresent)) d (t.install i k) :=
  rep.install_cleared iBound allocates flagBits (memset_block_agreeOff pmm'.mem 0 allocates.lt)
    fun _ jBound => word_memset_zero pmm'.mem allocates.lt jBound

/-- A new entry in a table that some slot names. -/
theorem Represents.put (rep : Represents s d t) {i k : ℕ} (names : t.dir i = some k) {j : ℕ}
    (jBound : j < 1024) (e : Word) :
    Represents (s.store (wordAddr k j) (e ||| pdePresent)) d (t.put k j (e ||| pdePresent)) := by
  obtain ⟨_, kNe, held⟩ := rep.named i k names
  have kBound := rep.bound held
  have dBound := rep.bound rep.held
  have agree := st32_word_agreeOff s.mem (e ||| pdePresent) kBound jBound
  refine ⟨rep.sound.withMem agree held.off, rep.directory, rep.held.withMem agree held.off,
    ?_, ?_, ?_, ?_⟩
  · exact rep.separate
  · intro i' bound'
    rw [mem_store, word_st32 _ _ kBound jBound dBound bound', if_neg (fun h => kNe h.1.symm)]
    exact rep.slot i' bound'
  · intro i' b names'
    obtain ⟨bound', ne, held'⟩ := rep.named i' b names'
    exact ⟨bound', ne, held'.withMem agree held.off⟩
  · intro i' b names' j' bound'
    obtain ⟨_, _, held'⟩ := rep.named i' b names'
    rw [mem_store, word_st32 _ _ kBound jBound (rep.bound held') bound']
    have old := rep.entry i' b names' j' bound'
    by_cases table : b = k
    · subst table
      by_cases here : j' = j
      · subst here
        rw [if_pos ⟨rfl, rfl⟩, presentEntry_packed]
        simp [TwoLevel.put]
      · rw [if_neg (fun h => here h.2)]
        simpa [TwoLevel.put, here] using old
    · rw [if_neg (fun h => table h.1)]
      simpa [TwoLevel.put, table] using old

/-- The state after block `k` became the table in slot `i`. -/
def withTable (s : Vmm) (pmm' : Pmm) (d i k : ℕ) (flags : Word) : Vmm :=
  ({ s with pmm := pmm'.withMem (memset pmm'.mem (blockAddr k) 0 4096) } : Vmm).store
    (wordAddr d i) (blockAddr k ||| flags ||| pdePresent)

theorem store_withMem_mem (s : Vmm) (pmm' : Pmm) (m : Mem) (a v : Word) :
    (({ s with pmm := pmm'.withMem m } : Vmm).store a v).mem = st32 m a v := rfl

theorem store_withMem_pmm (s : Vmm) (pmm' : Pmm) (m : Mem) (a v : Word) :
    (({ s with pmm := pmm'.withMem m } : Vmm).store a v).pmm = pmm'.withMem (st32 m a v) := rfl

theorem withTable_mem (s : Vmm) (pmm' : Pmm) (d i k : ℕ) (flags : Word) :
    (s.withTable pmm' d i k flags).mem = st32 (memset pmm'.mem (blockAddr k) 0 4096)
      (wordAddr d i) (blockAddr k ||| flags ||| pdePresent) := by
  unfold withTable
  exact store_withMem_mem s pmm' _ _ _

theorem withTable_pmm (s : Vmm) (pmm' : Pmm) (d i k : ℕ) (flags : Word) :
    (s.withTable pmm' d i k flags).pmm = pmm'.withMem (s.withTable pmm' d i k flags).mem := by
  rw [withTable_mem]
  unfold withTable
  exact store_withMem_pmm s pmm' _ _ _

/-- What `ensureTable` does: nothing, a new table, or an early return. -/
theorem Represents.ensureTable_spec (rep : Represents s d t) {i : Word} (iBound : i.toNat < 1024)
    {flags : Word} (flagBits : FlagBits flags) :
    (∃ k, t.dir i.toNat = some k ∧ s.ensureTable i flags = (s, true)) ∨
    (t.dir i.toNat = none ∧ ∃ k pmm', Allocates s.pmm k pmm' ∧
      pmmAllocBlock s.pmm = (pmm', blockAddr k) ∧
      s.ensureTable i flags = (s.withTable pmm' d i.toNat k flags, true) ∧
      Represents (s.withTable pmm' d i.toNat k flags) d (t.install i.toNat k)) ∨
    (t.dir i.toNat = none ∧ s.pmm.freeBlocks = ∅ ∧ pmmAllocBlock s.pmm = (s.pmm, 0) ∧
      s.ensureTable i flags = (s, false)) := by
  unfold ensureTable
  rw [rep.pde]
  cases names : t.dir i.toNat with
  | some k =>
      left
      exact ⟨k, rfl, if_neg (rep.slot_some names).1⟩
  | none =>
      right
      rw [if_pos (rep.slot_none iBound names)]
      rcases rep.sound.alloc with ⟨k, pmm', allocates, result⟩ | ⟨empty, result⟩
      · left
        refine ⟨rfl, k, pmm', allocates, result, ?_, rep.install iBound allocates flagBits⟩
        rw [result]
        dsimp only
        rw [if_neg allocates.blockAddr_ne_zero, rep.directory, blockAddr_add_word]
        rw [withTable, rep.directory]
      · right
        refine ⟨rfl, empty, result, ?_⟩
        rw [result]
        rfl

theorem ensureTable_cases (rep : Represents s d t) {i : Word} (iBound : i.toNat < 1024)
    {flags : Word} (flagBits : FlagBits flags) :
    (∃ s' t' k, s.ensureTable i flags = (s', true) ∧ Represents s' d t' ∧
      t'.dir i.toNat = some k ∧ t'.lookup = t.lookup) ∨
    s.ensureTable i flags = (s, false) := by
  rcases rep.ensureTable_spec iBound flagBits with
    ⟨k, names, result⟩ | ⟨empty, k, pmm', allocates, -, result, rep'⟩ | ⟨-, -, -, result⟩
  · exact Or.inl ⟨s, t, k, result, rep, names, rfl⟩
  · refine Or.inl ⟨_, _, k, result, rep', ?_, t.lookup_install (rep.unused allocates) empty⟩
    simp [TwoLevel.install]
  · exact Or.inr result

/-! ## Sequences of calls -/

structure MapCall where
  phys : Word
  virt : Word
  flags : Word

def apply (s : Vmm) (c : MapCall) : Vmm := s.vmmMapPage c.phys c.virt c.flags

/-- The call does not return early. -/
def mapSucceeds (s : Vmm) (c : MapCall) : Bool := (s.ensureTable (c.virt >>> 22) c.flags).2

/-- The abstract map from virtual pages to page frames, after a call on `s`. -/
def record (s : Vmm) (frames : Word → Option Word) (c : MapCall) : Word → Option Word :=
  if s.mapSucceeds c then Function.update frames (c.virt >>> 12) (some (frameOf c.phys))
  else frames

/-- The last writer wins: the page frame of the last successful call for each page. -/
def lastFrames : Vmm → (Word → Option Word) → List MapCall → Word → Option Word
  | _, frames, [] => frames
  | s, frames, c :: cs => lastFrames (s.apply c) (s.record frames c) cs

/-- Entry `i` of the directory. -/
def pdeAt (s : Vmm) (i : Word) : Word := ld32 s.mem (s.pageDirectory + 4 * i)

/-- A call succeeds when its directory entry is present or a block is allocated. -/
theorem mapSucceeds_iff (s : Vmm) (c : MapCall) : s.mapSucceeds c = true ↔
    s.pdeAt (c.virt >>> 22) &&& pdePresent ≠ 0 ∨ (pmmAllocBlock s.pmm).2 ≠ 0 := by
  unfold mapSucceeds ensureTable
  change Prod.snd (if s.pdeAt (c.virt >>> 22) &&& pdePresent = 0 then _ else _) = true ↔ _
  split
  · rename_i absent
    dsimp only
    by_cases denied : (pmmAllocBlock s.pmm).2 = 0
    · rw [if_pos denied]
      exact iff_of_false (by simp) (by simp [absent, denied])
    · rw [if_neg denied]
      exact iff_of_true rfl (Or.inr denied)
  · rename_i present
    exact iff_of_true rfl (Or.inl present)

/-- The directory and its tables translate like the abstract map. -/
structure Translates (s : Vmm) (frames : Word → Option Word) : Prop where
  walk : ∀ virt, s.walk virt = frames (virt >>> 12)
  distinct : ∀ i j : Word, i < 1024 → j < 1024 → s.pdeAt i &&& pdePresent ≠ 0 →
    s.pdeAt j &&& pdePresent ≠ 0 → frameOf (s.pdeAt i) = frameOf (s.pdeAt j) → i = j
  notDirectory : ∀ i : Word, i < 1024 → s.pdeAt i &&& pdePresent ≠ 0 →
    frameOf (s.pdeAt i) ≠ s.pageDirectory
  outOfMemory : ∀ c : MapCall, s.pdeAt (c.virt >>> 22) &&& pdePresent = 0 →
    (pmmAllocBlock s.pmm).2 = 0 → (s.apply c).walk = s.walk

/-- One call: an entry is put for its page, or nothing happens at all. -/
theorem Represents.call (rep : Represents s d t) (c : MapCall) (allowed : Allowed c.flags) :
    (s.mapSucceeds c = true ∧ ∃ t', Represents (s.apply c) d t' ∧ ∀ a b, t'.lookup a b =
      if a = c.virt.toNat / 2 ^ 22 ∧ b = c.virt.toNat / 2 ^ 12 % 1024 then
        some (frameOf c.phys ||| c.flags ||| pdePresent) else t.lookup a b) ∨
    (s.mapSucceeds c = false ∧ s.apply c = s) := by
  unfold mapSucceeds apply vmmMapPage
  dsimp only
  rcases ensureTable_cases rep (pdIndex_lt c.virt) allowed.flagBits with
    ⟨s', t', k, result, rep', names, same⟩ | result
  · left
    rw [result]
    refine ⟨rfl, t'.put k ((c.virt >>> 12) &&& 0x03FF).toNat
      (frameOf c.phys ||| c.flags ||| pdePresent), ?_, ?_⟩
    · dsimp only
      rw [rep'.pde, (rep'.slot_some names).2, blockAddr_add_word]
      exact rep'.put names (ptIndex_lt c.virt) _
    · intro a b
      rw [TwoLevel.lookup_put rep'.separate names, same, toNat_pdIndex, toNat_ptIndex]
  · right
    rw [result]
    exact ⟨rfl, rfl⟩

/-- The abstract table and the abstract map agree. -/
def Agree (t : Tables) (frames : Word → Option Word) : Prop :=
  ∀ virt : Word, (t.lookup (virt.toNat / 2 ^ 22) (virt.toNat / 2 ^ 12 % 1024)).map frameOf =
    frames (virt >>> 12)

theorem Represents.apply (rep : Represents s d t) {frames : Word → Option Word}
    (agree : Agree t frames) (c : MapCall) (allowed : Allowed c.flags) :
    ∃ t', Represents (s.apply c) d t' ∧ Agree t' (s.record frames c) := by
  rcases rep.call c allowed with ⟨succeeds, t', rep', looked⟩ | ⟨fails, same⟩
  · refine ⟨t', rep', fun virt => ?_⟩
    rw [record, if_pos succeeds, looked, Function.update_apply]
    by_cases here : virt >>> 12 = c.virt >>> 12
    · rw [if_pos here, if_pos (samePage_iff.mp here), Option.map_some,
        frameOf_entry allowed.flagBits, frameOf_frameOf]
    · rw [if_neg here, if_neg (mt samePage_iff.mpr here)]
      exact agree virt
  · refine ⟨t, ?_, ?_⟩
    · rw [same]
      exact rep
    · rw [record, if_neg (by simp [fails])]
      exact agree

theorem Represents.run (rep : Represents s d t) {frames : Word → Option Word}
    (agree : Agree t frames) (calls : List MapCall) (allowed : ∀ c ∈ calls, Allowed c.flags) :
    ∃ t', Represents (calls.foldl Vmm.apply s) d t' ∧ Agree t' (lastFrames s frames calls) := by
  induction calls generalizing s t frames with
  | nil => exact ⟨t, rep, agree⟩
  | cons c cs ih =>
      obtain ⟨t', rep', agree'⟩ := rep.apply agree c (allowed c (List.mem_cons_self ..))
      exact ih rep' agree' fun c' member => allowed c' (List.mem_cons_of_mem _ member)

theorem Represents.translates (rep : Represents s d t) {frames : Word → Option Word}
    (agree : Agree t frames) : Translates s frames := by
  have slotOf : ∀ i : Word, i < 1024 → s.pdeAt i &&& pdePresent ≠ 0 →
      ∃ k, t.dir i.toNat = some k ∧ frameOf (s.pdeAt i) = blockAddr k ∧ k ≠ d ∧ k < 2 ^ 20 := by
    intro i bound present
    have indexBound : i.toNat < 1024 := bound
    rw [pdeAt, rep.pde] at present ⊢
    cases names : t.dir i.toNat with
    | none => exact absurd (rep.slot_none indexBound names) present
    | some k =>
        obtain ⟨_, ne, held⟩ := rep.named _ k names
        exact ⟨k, rfl, (rep.slot_some names).2, ne, rep.bound held⟩
  refine ⟨fun virt => (rep.walk_eq virt).trans (agree virt), ?_, ?_, ?_⟩
  · intro i j iBound jBound iPresent jPresent same
    obtain ⟨k, iNames, iFrame, _, kBound⟩ := slotOf i iBound iPresent
    obtain ⟨k', jNames, jFrame, _, kBound'⟩ := slotOf j jBound jPresent
    rw [iFrame, jFrame] at same
    have table := blockAddr_injective kBound kBound' same
    subst table
    exact BitVec.eq_of_toNat_eq (rep.separate _ _ k iNames jNames)
  · intro i bound present same
    obtain ⟨k, _, frame, ne, kBound⟩ := slotOf i bound present
    rw [frame, rep.directory] at same
    exact ne (blockAddr_injective kBound (rep.bound rep.held) same)
  · intro c absent denied
    have early : s.ensureTable (c.virt >>> 22) c.flags = (s, false) := by
      unfold ensureTable
      rw [pdeAt] at absent
      rw [if_pos absent]
      rcases rep.sound.alloc with ⟨k, pmm', allocates, result⟩ | ⟨_, result⟩
      · rw [result] at denied
        exact absurd denied allocates.blockAddr_ne_zero
      · rw [result]
        rfl
    unfold Vmm.apply vmmMapPage
    dsimp only
    rw [early]

/-- Page tables refine the last-writer-wins map, for every sequence of calls on
a new directory. -/
theorem translates_lastFrames {boot : Pmm} (sound : boot.Sound)
    (created : vmmNewDirectory boot = some s) (calls : List MapCall)
    (allowed : ∀ c ∈ calls, Allowed c.flags) :
    Translates (calls.foldl Vmm.apply s) (lastFrames s (fun _ => none) calls) := by
  obtain ⟨d, rep⟩ := Represents.empty sound created
  have unmapped : Agree ⟨fun _ => none, fun _ _ => none⟩ fun _ => none := fun _ => rfl
  obtain ⟨t, rep', agree⟩ := rep.run unmapped calls allowed
  exact rep'.translates agree

theorem vmmNewDirectory_eightBlocks : ∃ s, vmmNewDirectory eightBlocks = some s := by
  have nonzero : (pmmAllocBlock eightBlocks).2 ≠ 0 := by decide
  unfold vmmNewDirectory
  dsimp only
  rw [if_neg nonzero]
  exact ⟨_, rfl⟩

/-- Two pages are mapped and the first one is mapped again. -/
theorem translates_lastFrames_eightBlocks :
    ∃ s, vmmNewDirectory eightBlocks = some s ∧
      Translates ([⟨0x5000, 0x400000, 2⟩, ⟨0x6000, 0x801000, 6⟩, ⟨0x7000, 0x400000, 4⟩].foldl
        Vmm.apply s) (lastFrames s (fun _ => none)
          [⟨0x5000, 0x400000, 2⟩, ⟨0x6000, 0x801000, 6⟩, ⟨0x7000, 0x400000, 4⟩]) := by
  obtain ⟨s, created⟩ := vmmNewDirectory_eightBlocks
  exact ⟨s, created, translates_lastFrames eightBlocks_sound created _ (by decide)⟩

end Vmm

end OrbitOs.Memory
