import OrbitOs.Memory.Access

/-!
# Pages that map to themselves

The kernel uses physical addresses as pointers, so the memory it works on has
to be mapped to itself.  `vmm_initialize` establishes this for the first 16 MB.
A call of `vmm_map_page` keeps it as long as it maps no page of that window
elsewhere, and the memory it works on is in the window as long as its new table
is.
-/

set_option autoImplicit false

namespace OrbitOs.Memory

open OrbitOs.Machine OrbitOs.Kernel OrbitOs.Base

namespace Vmm

open Pmm

variable {s : Vmm} {d : ℕ} {t : Tables}

/-! ## What a call changes -/

/-- `s'` is `s` after the call. -/
structure Maps (s : Vmm) (c : MapCall) (s' : Vmm) : Prop where
  directory : s'.pageDirectory = s.pageDirectory
  words : s'.pmm.InBitmapWords = s.pmm.InBitmapWords
  keeps : ∀ b, s.pmm.Holdable b → s'.pmm.Holdable b ∧ (s.NotTable b → s'.NotTable b)
  free : s'.pmm.freeBlocks = s.pmm.freeBlocks \ {b | s.TakesBlock c b}
  tables : ∀ x, s'.OfTables x → s.OfTables x ∨ s.OfNewTable c x
  mem : AgreeOff (fun x => s.pmm.InBitmapWords x ∨ s'.OfTables x) s.mem s'.mem
  elsewhere : ∀ x : Word, x >>> 12 ≠ c.virt >>> 12 → s'.walk x = s.walk x
  here : ∀ x : Word, x >>> 12 = c.virt >>> 12 →
    s'.walk x = s.walk x ∨ s'.walk x = some (frameOf c.phys)
  succeeded : s.mapSucceeds c = true → ∀ x : Word, x >>> 12 = c.virt >>> 12 →
    s'.walk x = some (frameOf c.phys)
  kept : ∀ x : Word, s.pdeAt (x >>> 22) &&& pdePresent ≠ 0 →
    s'.pdeAt (x >>> 22) &&& pdePresent ≠ 0
  filled : s.HasTable c → s'.pdeAt (c.virt >>> 22) &&& pdePresent ≠ 0

/-- The slots that are present are those that name a table. -/
theorem Represents.present_iff (rep : Represents s d t) (x : Word) :
    s.pdeAt (x >>> 22) &&& pdePresent ≠ 0 ↔ ∃ k, t.dir (x >>> 22).toNat = some k := by
  rw [pdeAt, rep.pde]
  constructor
  · intro present
    refine Option.ne_none_iff_exists'.mp fun empty => present ?_
    exact rep.slot_none (pdIndex_lt x) empty
  · rintro ⟨k, names⟩
    exact (rep.slot_some names).1

/-- The last store of a call, into table `k`. -/
theorem Represents.put_maps {s' : Vmm} {t' : Tables} {k : ℕ} (rep : Represents s' d t')
    (c : MapCall) (flagBits : FlagBits c.flags) (names : t'.dir (c.virt >>> 22).toNat = some k)
    {s'' : Vmm} (stored : s'' = s'.store (wordAddr k ((c.virt >>> 12) &&& 0x03FF).toNat)
      (frameOf c.phys ||| c.flags ||| pdePresent)) :
    (∀ x : Word, x >>> 12 ≠ c.virt >>> 12 → s''.walk x = s'.walk x) ∧
      (∀ x : Word, x >>> 12 = c.virt >>> 12 → s''.walk x = some (frameOf c.phys)) := by
  have rep'' := rep.put names (ptIndex_lt c.virt) (frameOf c.phys ||| c.flags)
  rw [← stored] at rep''
  have looked := fun x : Word => rep''.walk_eq x
  simp only [TwoLevel.lookup_put rep.separate names, toNat_pdIndex, toNat_ptIndex,
    ← samePage_iff] at looked
  refine ⟨fun x other => ?_, fun x same => ?_⟩
  · rw [looked, if_neg other, rep.walk_eq]
  · rw [looked, if_pos same, Option.map_some, frameOf_entry flagBits, frameOf_frameOf]

/-- `s'` is `s` after `ensureTable` for the call, with the table in block `k`. -/
structure Ensures (s : Vmm) (c : MapCall) (d : ℕ) (s' : Vmm) (t' : Tables) (k : ℕ) : Prop where
  result : s.ensureTable (c.virt >>> 22) c.flags = (s', true)
  rep : Represents s' d t'
  names : t'.dir (c.virt >>> 22).toNat = some k
  directory : s'.pageDirectory = s.pageDirectory
  words : s'.pmm.InBitmapWords = s.pmm.InBitmapWords
  keeps : ∀ b, s.pmm.Holdable b → s'.pmm.Holdable b ∧ (s.NotTable b → s'.NotTable b)
  free : s'.pmm.freeBlocks = s.pmm.freeBlocks \ {b | s.TakesBlock c b}
  tables : ∀ x, s'.OfTables x → s.OfTables x ∨ s.OfNewTable c x
  mem : AgreeOff (fun x => s.pmm.InBitmapWords x ∨ s'.OfTables x) s.mem s'.mem
  walk : ∀ x, s'.walk x = s.walk x
  kept : ∀ x : Word, s.pdeAt (x >>> 22) &&& pdePresent ≠ 0 →
    s'.pdeAt (x >>> 22) &&& pdePresent ≠ 0

/-- A new table belongs to nobody. -/
theorem Represents.ensures_withTable (rep : Represents s d t) (c : MapCall) {k : ℕ} {pmm' : Pmm}
    (empty : t.dir (c.virt >>> 22).toNat = none) (allocates : Allocates s.pmm k pmm')
    (handed : pmmAllocBlock s.pmm = (pmm', blockAddr k))
    (result : s.ensureTable (c.virt >>> 22) c.flags =
      (s.withTable pmm' d (c.virt >>> 22).toNat k c.flags, true))
    (rep' : Represents (s.withTable pmm' d (c.virt >>> 22).toNat k c.flags) d
      (t.install (c.virt >>> 22).toNat k)) :
    Ensures s c d (s.withTable pmm' d (c.virt >>> 22).toNat k c.flags)
      (t.install (c.virt >>> 22).toNat k) k := by
  have iBound := pdIndex_lt c.virt
  have dBound := rep.bound rep.held
  have cleared := memset_block_agreeOff pmm'.mem 0 allocates.lt
  have walk := rep.walk_withTable allocates empty rep'
  have directoryKept : (s.withTable pmm' d (c.virt >>> 22).toNat k c.flags).pageDirectory =
    s.pageDirectory := rfl
  have pmmEq := s.withTable_pmm pmm' d (c.virt >>> 22).toNat k c.flags
  have memEq := s.withTable_mem pmm' d (c.virt >>> 22).toNat k c.flags
  have stored := st32_word_agreeOff (memset pmm'.mem (blockAddr k) 0 4096)
    (blockAddr k ||| c.flags ||| pdePresent) dBound iBound
  rw [← memEq] at stored
  generalize memset pmm'.mem (blockAddr k) 0 4096 = m at cleared stored
  generalize s.withTable pmm' d (c.virt >>> 22).toNat k c.flags = s' at *
  have named : ∀ i b, (t.install (c.virt >>> 22).toNat k).dir i = some b →
      b = k ∨ t.dir i = some b := by
    intro i b names
    simp only [TwoLevel.install, Function.update_apply] at names
    split at names
    · exact Or.inl (Option.some.inj names).symm
    · exact Or.inr names
  have here : (t.install (c.virt >>> 22).toNat k).dir (c.virt >>> 22).toNat = some k := by
    simp [TwoLevel.install]
  have agree : AgreeOff (fun x => InBlock k x ∨ InBlock d x) pmm'.mem s'.mem :=
    (cleared.mono fun x => Or.inl).trans (stored.mono fun x => Or.inr)
  have off : ∀ x, pmm'.InBitmapWords x → ¬ (InBlock k x ∨ InBlock d x) := by
    rintro x inBitmap (inNew | inDirectory)
    · exact allocates.holdable.clear x inNew inBitmap
    · exact (allocates.keeps d rep.held).1.clear x inDirectory inBitmap
  refine ⟨result, rep', here, directoryKept, ?_, ?_, ?_, ?_, ?_, walk, fun x present => ?_⟩
  · rw [pmmEq]
    unfold InBitmapWords
    rw [withMem_bitmap, withMem_maxBlocks, allocates.maxBlocks, allocates.bitmap]
  · intro b held
    obtain ⟨held', other⟩ := allocates.keeps b held
    refine ⟨pmmEq ▸ held'.withMem agree off, fun apart => ?_⟩
    rw [rep.notTable_iff (rep.bound held)] at apart
    rw [rep'.notTable_iff (rep.bound held)]
    refine ⟨apart.1, fun i names => ?_⟩
    rcases named i b names with same | old
    · exact other same
    · exact apart.2 i old
  · have only : {b | s.TakesBlock c b} = {k} := by
      ext b
      have takes := rep.takesBlock empty allocates handed
      exact ⟨fun also => also.2.unique takes.2, fun same => same ▸ takes⟩
    rw [pmmEq, freeBlocks_withMem agree off, allocates.freeBlocks handed, only]
  · intro x inTables
    rcases (rep'.ofTables_iff x).mp inTables with inDirectory | ⟨i, b, names, inTable⟩
    · exact Or.inl ((rep.ofTables_iff x).mpr (Or.inl inDirectory))
    · rcases named i b names with rfl | old
      · exact Or.inr ⟨b, rep.takesBlock empty allocates handed, inTable⟩
      · exact Or.inl ((rep.ofTables_iff x).mpr (Or.inr ⟨i, b, old, inTable⟩))
  · have first : AgreeOff (fun x => s.pmm.InBitmapWords x ∨ s'.OfTables x) s.mem pmm'.mem :=
      allocates.mem.mono fun x => Or.inl
    refine first.trans (agree.mono ?_)
    rintro x (inNew | inDirectory)
    · exact Or.inr ((rep'.ofTables_iff x).mpr (Or.inr ⟨_, k, here, inNew⟩))
    · exact Or.inr ((rep'.ofTables_iff x).mpr (Or.inl inDirectory))
  · obtain ⟨b, names⟩ := (rep.present_iff x).mp present
    refine (rep'.present_iff x).mpr ?_
    by_cases same : (x >>> 22).toNat = (c.virt >>> 22).toNat
    · exact ⟨k, same ▸ here⟩
    · exact ⟨b, (Function.update_of_ne same _ _).trans names⟩

theorem Represents.not_takesBlock (rep : Represents s d t) {c : MapCall} {k : ℕ}
    (names : t.dir (c.virt >>> 22).toNat = some k) (b : ℕ) : ¬ s.TakesBlock c b := fun takes =>
  (rep.present_iff c.virt).mpr ⟨k, names⟩ takes.1

theorem Represents.ensures (rep : Represents s d t) (c : MapCall) (flagBits : FlagBits c.flags) :
    (∃ s' t' k, Ensures s c d s' t' k) ∨
    (s.pmm.freeBlocks = ∅ ∧ s.ensureTable (c.virt >>> 22) c.flags = (s, false)) := by
  rcases rep.ensureTable_spec (pdIndex_lt c.virt) flagBits with
    ⟨k, names, result⟩ | ⟨empty, k, pmm', allocates, handed, result, rep'⟩ | ⟨-, full, -, result⟩
  · left
    refine ⟨s, t, k, result, rep, names, rfl, rfl, fun b held => ⟨held, id⟩, ?_, fun x => Or.inl,
      AgreeOff.refl _ _, fun x => rfl, fun x => id⟩
    have none : {b | s.TakesBlock c b} = ∅ := by
      ext b
      exact iff_of_false (fun takes => rep.not_takesBlock names b takes) (Set.notMem_empty b)
    rw [none, Set.sdiff_empty]
  · exact Or.inl ⟨_, _, k, rep.ensures_withTable c empty allocates handed result rep'⟩
  · exact Or.inr ⟨full, result⟩

/-- The last store changes no directory entry. -/
theorem Ensures.put {s' : Vmm} {t' : Tables} {k : ℕ} {c : MapCall}
    (ensures : Ensures s c d s' t' k) (flagBits : FlagBits c.flags) {s'' : Vmm}
    (stored : s'' = s'.store (wordAddr k ((c.virt >>> 12) &&& 0x03FF).toNat)
      (frameOf c.phys ||| c.flags ||| pdePresent)) :
    ∃ t'', Represents s'' d t'' ∧ Maps s c s'' := by
  obtain ⟨elsewhere, here⟩ := ensures.rep.put_maps c flagBits ensures.names stored
  have kBound := ensures.rep.bound (ensures.rep.named _ k ensures.names).2.2
  have kHeld := (ensures.rep.named _ k ensures.names).2.2
  have agree := st32_word_agreeOff s'.mem (frameOf c.phys ||| c.flags ||| pdePresent) kBound
    (ptIndex_lt c.virt)
  have rep'' := ensures.rep.put ensures.names (ptIndex_lt c.virt) (frameOf c.phys ||| c.flags)
  rw [← stored] at rep''
  have inTable : ∀ x, InBlock k x → s'.OfTables x := fun x inBlock =>
    (ensures.rep.ofTables_iff x).mpr (Or.inr ⟨_, k, ensures.names, inBlock⟩)
  have sameTables : ∀ x, s''.OfTables x ↔ s'.OfTables x := by
    intro x
    rw [rep''.ofTables_iff, ensures.rep.ofTables_iff]
    rfl
  have pmmEq : s''.pmm = s'.pmm.withMem s''.mem := by
    rw [stored]
    rfl
  have memEq : s''.mem = st32 s'.mem (wordAddr k ((c.virt >>> 12) &&& 0x03FF).toNat)
      (frameOf c.phys ||| c.flags ||| pdePresent) := by
    rw [stored]
    rfl
  refine ⟨_, rep'', ?_, ?_, ?_, ?_, ?_, ?_, ?_, ?_, ?_, ?_, ?_⟩
  · rw [← ensures.directory, stored]
    rfl
  · rw [pmmEq, ← ensures.words]
    rfl
  · intro b held
    obtain ⟨held', apart⟩ := ensures.keeps b held
    rw [pmmEq]
    refine ⟨held'.withMem (memEq ▸ agree) kHeld.off, fun notTable x inBlock inTables => ?_⟩
    exact apart notTable x inBlock ((sameTables x).mp inTables)
  · rw [pmmEq, freeBlocks_withMem (memEq ▸ agree) kHeld.off, ensures.free]
  · exact fun x inTables => ensures.tables x ((sameTables x).mp inTables)
  · have first := ensures.mem.mono fun x =>
      Or.imp_right (a := s.pmm.InBitmapWords x) (sameTables x).mpr
    refine first.trans (memEq ▸ agree.mono fun x inBlock => Or.inr ?_)
    exact (sameTables x).mpr (inTable x inBlock)
  · intro x other
    rw [elsewhere x other, ensures.walk]
  · exact fun x same => Or.inr (here x same)
  · exact fun _ x same => here x same
  · intro x present
    exact (rep''.present_iff x).mpr ((ensures.rep.present_iff x).mp (ensures.kept x present))
  · exact fun _ => (rep''.present_iff c.virt).mpr ⟨k, ensures.names⟩

theorem Represents.maps (rep : Represents s d t) (c : MapCall) (flagBits : FlagBits c.flags) :
    ∃ t', Represents (s.apply c) d t' ∧ Maps s c (s.apply c) := by
  unfold Vmm.apply vmmMapPage
  dsimp only
  rcases rep.ensures c flagBits with ⟨s', t', k, ensures⟩ | ⟨full, early⟩
  · rw [ensures.result]
    refine ensures.put flagBits ?_
    dsimp only
    rw [ensures.rep.pde, (ensures.rep.slot_some ensures.names).2, blockAddr_add_word]
  · rw [early]
    refine ⟨t, rep, rfl, rfl, fun b held => ⟨held, id⟩, by rw [full, Set.empty_sdiff],
      fun x => Or.inl, AgreeOff.refl _ _, fun x _ => rfl, fun x _ => Or.inl rfl,
      fun succeeds => ?_, fun x => id, fun hasTable => ?_⟩
    · rw [Vmm.mapSucceeds, early] at succeeds
      contradiction
    · have succeeds := rep.mapSucceeds hasTable
      rw [Vmm.mapSucceeds, early] at succeeds
      contradiction

/-! ## Memory that maps to itself -/

/-- `x` is in the first 16 MB. -/
def InWindow (x : Word) : Prop := x.toNat < 0x1000000

theorem InWindow.congr {x y : Word} (samePage : x >>> 12 = y >>> 12) (inside : InWindow x) :
    InWindow y := by
  rw [← BitVec.toNat_inj, BitVec.toNat_ushiftRight, BitVec.toNat_ushiftRight,
    Nat.shiftRight_eq_div_pow, Nat.shiftRight_eq_div_pow] at samePage
  unfold InWindow at *
  omega

theorem inWindow_of_inBlock {b : ℕ} (low : b < 4096) {x : Word} (inBlock : InBlock b x) :
    InWindow x := by
  unfold InBlock at inBlock
  unfold InWindow
  omega

/-- The memory the manager itself uses. -/
def OwnMemory (s : Vmm) (x : Word) : Prop := s.pmm.InBitmapWords x ∨ s.OfTables x

/-- The block of the new table, if the call needs one, is in the first 16 MB. -/
def NewTableLow (s : Vmm) (c : MapCall) : Prop := ∀ b, s.TakesBlock c b → b < 4096

/-- A page of the first 16 MB is mapped to itself. -/
def KeepsWindow (c : MapCall) : Prop := InWindow c.virt → frameOf c.phys = frameOf c.virt

/-- The directory and its tables are in order, the first 16 MB map to
themselves, and they contain the memory in `used` and that of the manager. -/
structure Safe (s : Vmm) (used : Word → Prop) : Prop where
  represents : ∃ d t, Represents s d t
  window : ∀ x, InWindow x → s.walk x = some (frameOf x)
  low : ∀ x, used x ∨ s.OwnMemory x → InWindow x

variable {used : Word → Prop}

theorem Safe.mapAccesses_mapped (safe : Safe s used) {c : MapCall} (flagBits : FlagBits c.flags)
    (newTable : s.NewTableLow c) : ∀ a ∈ s.mapAccesses s.pageDirectory c, a.Mapped := by
  obtain ⟨⟨d, t, rep⟩, window, low⟩ := safe
  intro a member
  refine (rep.mapAccesses_sees c flagBits member).mapped fun x reached => window x ?_
  rcases reached with inBitmap | inTables | ⟨b, takes, inBlock⟩
  · exact low x (Or.inr (Or.inl inBitmap))
  · exact low x (Or.inr (Or.inr inTables))
  · exact inWindow_of_inBlock (newTable b takes) inBlock

theorem Safe.apply (safe : Safe s used) {c : MapCall} (flagBits : FlagBits c.flags)
    (newTable : s.NewTableLow c) (keeps : KeepsWindow c) :
    Safe (s.apply c) used ∧ Maps s c (s.apply c) := by
  obtain ⟨⟨d, t, rep⟩, window, low⟩ := safe
  obtain ⟨t', rep', maps⟩ := rep.maps c flagBits
  refine ⟨⟨⟨d, t', rep'⟩, fun x inside => ?_, fun x member => ?_⟩, maps⟩
  · by_cases here : x >>> 12 = c.virt >>> 12
    · have frame : frameOf c.phys = frameOf x :=
        (keeps (inside.congr here)).trans ((frameOf_eq_iff _ _).mpr here.symm)
      rcases maps.here x here with same | moved
      · rw [same, window x inside]
      · rw [moved, frame]
    · rw [maps.elsewhere x here, window x inside]
  · rcases member with inUse | inBitmap | inTables
    · exact low x (Or.inl inUse)
    · exact low x (Or.inr (Or.inl (maps.words ▸ inBitmap)))
    · rcases maps.tables x inTables with old | ⟨b, takes, inBlock⟩
      · exact low x (Or.inr (Or.inr old))
      · exact inWindow_of_inBlock (newTable b takes) inBlock

/-! ## Sequences of calls -/

/-- What survives every sequence of calls. -/
structure Later (s s' : Vmm) : Prop where
  directory : s'.pageDirectory = s.pageDirectory
  words : s'.pmm.InBitmapWords = s.pmm.InBitmapWords
  keeps : ∀ b, s.pmm.Holdable b → s'.pmm.Holdable b ∧ (s.NotTable b → s'.NotTable b)
  block : ∀ b, s.pmm.Holdable b → s.NotTable b → ∀ x, InBlock b x → s'.mem x = s.mem x
  present : ∀ x, s.walk x ≠ none → s'.walk x ≠ none

theorem Later.refl (s : Vmm) : Later s s :=
  ⟨rfl, rfl, fun _ held => ⟨held, id⟩, fun _ _ _ _ _ => rfl, fun _ => id⟩

theorem Later.trans {s s' s'' : Vmm} (first : Later s s') (second : Later s' s'') :
    Later s s'' where
  directory := second.directory.trans first.directory
  words := second.words.trans first.words
  keeps := fun b held =>
    have after := first.keeps b held
    have last := second.keeps b after.1
    ⟨last.1, fun apart => last.2 (after.2 apart)⟩
  block := fun b held apart x inBlock =>
    have after := first.keeps b held
    (second.block b after.1 (after.2 apart) x inBlock).trans (first.block b held apart x inBlock)
  present := fun x mapped => second.present x (first.present x mapped)

theorem Maps.later {c : MapCall} {s' : Vmm} (maps : Maps s c s') : Later s s' where
  directory := maps.directory
  words := maps.words
  keeps := maps.keeps
  block := fun b held apart x inBlock => maps.mem x (by
    rintro (inBitmap | inTables)
    · exact held.clear x inBlock inBitmap
    · exact (maps.keeps b held).2 apart x inBlock inTables)
  present := fun x mapped => by
    by_cases here : x >>> 12 = c.virt >>> 12
    · rcases maps.here x here with same | moved
      · rwa [same]
      · simp [moved]
    · rwa [maps.elsewhere x here]

/-- The next `n` allocations hand out blocks of the first 16 MB. -/
def NextLow (s : Vmm) (n : ℕ) : Prop := ∀ b ∈ lowest s.pmm.freeBlocks n, b < 4096

/-- No table is in a free block. -/
theorem Represents.notTable_of_free (rep : Represents s d t) {b : ℕ}
    (free : b ∈ s.pmm.freeBlocks) : s.NotTable b := by
  obtain ⟨bound, clear⟩ := mem_freeBlocks.mp free
  have notHeld : ¬ s.pmm.Holdable b := fun held => by
    rw [held.used] at clear
    contradiction
  rw [rep.notTable_iff (bound.trans rep.sound.small)]
  constructor
  · rintro rfl
    exact notHeld rep.held
  · intro i names
    exact notHeld (rep.named i b names).2.2

/-- The empty directory slots of the pages that the calls map: each needs a table. -/
def emptySlots (s : Vmm) (calls : List MapCall) : Finset Word :=
  (calls.map fun c : MapCall => c.virt >>> 22).toFinset.filter fun i => s.pdeAt i &&& pdePresent = 0

theorem mem_emptySlots {calls : List MapCall} {i : Word} : i ∈ s.emptySlots calls ↔
    (∃ c ∈ calls, c.virt >>> 22 = i) ∧ s.pdeAt i &&& pdePresent = 0 := by
  rw [emptySlots, Finset.mem_filter, List.mem_toFinset, List.mem_map]

theorem Maps.emptySlots_subset {c : MapCall} {s' : Vmm} (maps : Maps s c s')
    (cs : List MapCall) : s'.emptySlots cs ⊆ s.emptySlots (c :: cs) := by
  intro i member
  obtain ⟨⟨c', inRest, rfl⟩, absent⟩ := mem_emptySlots.mp member
  refine mem_emptySlots.mpr ⟨⟨c', List.mem_cons_of_mem c inRest, rfl⟩, ?_⟩
  by_contra present
  exact maps.kept c'.virt present absent

/-- A call that takes a block fills a slot with it. -/
theorem Maps.emptySlots_card_lt {c : MapCall} {s' : Vmm} (maps : Maps s c s')
    (cs : List MapCall) {b : ℕ} (takes : s.TakesBlock c b) :
    (s'.emptySlots cs).card < (s.emptySlots (c :: cs)).card := by
  refine Finset.card_lt_card (Finset.ssubset_iff_of_subset (maps.emptySlots_subset cs) |>.mpr ?_)
  refine ⟨c.virt >>> 22, mem_emptySlots.mpr ⟨⟨c, List.mem_cons_self .., rfl⟩, takes.1⟩, ?_⟩
  intro still
  exact maps.filled (Or.inr ⟨b, takes.2.1⟩) (mem_emptySlots.mp still).2

theorem Maps.free_of_takes {c : MapCall} {s' : Vmm} (maps : Maps s c s') {b : ℕ}
    (takes : s.TakesBlock c b) : s'.pmm.freeBlocks = s.pmm.freeBlocks \ {b} := by
  have only : {b | s.TakesBlock c b} = {b} :=
    Set.eq_singleton_iff_unique_mem.mpr ⟨takes, fun _ other => other.2.unique takes.2⟩
  rw [maps.free, only]

theorem Maps.free_of_not_takes {c : MapCall} {s' : Vmm} (maps : Maps s c s')
    (keeps : ¬ ∃ b, s.TakesBlock c b) : s'.pmm.freeBlocks = s.pmm.freeBlocks := by
  have none : {b | s.TakesBlock c b} = ∅ :=
    Set.eq_empty_iff_forall_notMem.mpr fun b takes => keeps ⟨b, takes⟩
  rw [maps.free, none, Set.sdiff_empty]

/-- With low blocks for all empty slots, one call leaves low blocks for the rest. -/
theorem Maps.nextLow {c : MapCall} {s' : Vmm} (maps : Maps s c s') {cs : List MapCall}
    (low : s.NextLow (s.emptySlots (c :: cs)).card) :
    s.NewTableLow c ∧ s'.NextLow (s'.emptySlots cs).card := by
  refine ⟨fun b takes => ?_, fun b member => ?_⟩
  · have fewer := maps.emptySlots_card_lt cs takes
    exact low b (lowest_mono (Nat.one_le_of_lt fewer) (mem_lowest_one takes.2))
  · by_cases taken : ∃ b, s.TakesBlock c b
    · obtain ⟨b', takes⟩ := taken
      rw [maps.free_of_takes takes] at member
      exact low b (lowest_mono (maps.emptySlots_card_lt cs takes)
        (lowest_sdiff_singleton _ _ _ member))
    · rw [maps.free_of_not_takes taken] at member
      exact low b (lowest_mono (Finset.card_le_card (maps.emptySlots_subset cs)) member)

/-- The slot of the call is present, or there are blocks for it and for the calls before. -/
def Supplied (s : Vmm) (done : List MapCall) (c : MapCall) : Prop :=
  s.pdeAt (c.virt >>> 22) &&& pdePresent ≠ 0 ∨
    (s.emptySlots (done ++ [c])).card ≤ s.pmm.freeBlocks.encard

theorem Maps.supplied {c c' : MapCall} {s' : Vmm} (maps : Maps s c s') {done : List MapCall}
    (supplied : s.Supplied (c :: done) c') : s'.Supplied done c' := by
  refine supplied.imp (maps.kept c'.virt) fun enough => ?_
  rw [List.cons_append] at enough
  by_cases taken : ∃ b, s.TakesBlock c b
  · obtain ⟨b, takes⟩ := taken
    have fewer : ((s'.emptySlots (done ++ [c'])).card + 1 : ℕ) ≤
        (s.emptySlots (c :: (done ++ [c']))).card := maps.emptySlots_card_lt _ takes
    have counted : (((s'.emptySlots (done ++ [c'])).card + 1 : ℕ) : ℕ∞) ≤
        (s.pmm.freeBlocks \ {b}).encard + 1 := by
      rw [Set.encard_sdiff_singleton_add_one takes.2.1]
      exact (Nat.cast_le.mpr fewer).trans enough
    rw [maps.free_of_takes takes]
    rw [Nat.cast_add, Nat.cast_one] at counted
    exact (ENat.add_le_add_iff_right ENat.one_ne_top).mp counted
  · rw [maps.free_of_not_takes taken]
    have fewer := Finset.card_le_card (maps.emptySlots_subset (done ++ [c']))
    exact (Nat.cast_le.mpr fewer).trans enough

/-- A call that is supplied finds its table when its turn comes. -/
theorem Represents.hasTable_run (rep : Represents s d t) {done : List MapCall}
    (flagBits : ∀ c ∈ done, FlagBits c.flags) {c : MapCall} (supplied : s.Supplied done c) :
    (done.foldl Vmm.apply s).HasTable c := by
  induction done generalizing s t with
  | nil =>
      refine or_iff_not_imp_left.mpr fun absent => ?_
      have enough := supplied.resolve_left absent
      have slot : c.virt >>> 22 ∈ s.emptySlots ([] ++ [c]) :=
        mem_emptySlots.mpr ⟨⟨c, List.mem_cons_self .., rfl⟩, not_not.mp absent⟩
      have one : 1 ≤ (s.emptySlots ([] ++ [c])).card := Finset.card_pos.mpr ⟨_, slot⟩
      exact Set.one_le_encard_iff_nonempty.mp ((Nat.one_le_cast.mpr one).trans enough)
  | cons c' cs ih =>
      obtain ⟨t', rep', maps⟩ := rep.maps c' (flagBits c' (List.mem_cons_self ..))
      exact ih rep' (fun c'' member => flagBits c'' (List.mem_cons_of_mem _ member))
        (maps.supplied supplied)

/-- A sequence of calls that keep the window. -/
theorem Safe.run (safe : Safe s used) (calls : List MapCall)
    (flagBits : ∀ c ∈ calls, FlagBits c.flags) (keeps : ∀ c ∈ calls, KeepsWindow c)
    (newTables : s.NextLow (s.emptySlots calls).card) :
    Safe (calls.foldl Vmm.apply s) used ∧ Later s (calls.foldl Vmm.apply s) ∧
      ∀ a ∈ mapAllAccesses s.pageDirectory s calls, a.Mapped := by
  induction calls generalizing s with
  | nil => exact ⟨safe, Later.refl s, fun a member => absurd member List.not_mem_nil⟩
  | cons c cs ih =>
      have first := flagBits c (List.mem_cons_self ..)
      obtain ⟨d, t, rep⟩ := safe.represents
      obtain ⟨-, -, maps⟩ := rep.maps c first
      obtain ⟨newTable, others⟩ := maps.nextLow newTables
      obtain ⟨safe', -⟩ := safe.apply first newTable (keeps c (List.mem_cons_self ..))
      obtain ⟨last, later, rest⟩ := ih safe'
        (fun c' member => flagBits c' (List.mem_cons_of_mem _ member))
        (fun c' member => keeps c' (List.mem_cons_of_mem _ member)) others
      refine ⟨last, maps.later.trans later, fun a member => ?_⟩
      rcases List.mem_append.mp member with here | afterwards
      · exact safe.mapAccesses_mapped first newTable a here
      · exact rest a (maps.directory.symm ▸ afterwards)

/-- A page for which some call of the sequence is supplied is present from then on. -/
theorem Represents.present_run (rep : Represents s d t) (done : List MapCall) (c : MapCall)
    (rest : List MapCall) (flagBits : ∀ c' ∈ done ++ c :: rest, FlagBits c'.flags)
    (supplied : s.Supplied done c) {x : Word}
    (samePage : x >>> 12 = c.virt >>> 12) :
    ((done ++ c :: rest).foldl Vmm.apply s).walk x ≠ none := by
  have runs : ∀ (calls : List MapCall) (s : Vmm) (t : Tables), Represents s d t →
      (∀ c' ∈ calls, FlagBits c'.flags) →
      ∃ t', Represents (calls.foldl Vmm.apply s) d t' ∧ Later s (calls.foldl Vmm.apply s) := by
    intro calls
    induction calls with
    | nil => exact fun s t rep _ => ⟨t, rep, Later.refl s⟩
    | cons c' cs ih =>
        intro s t rep flagBits
        obtain ⟨t', rep', maps⟩ := rep.maps c' (flagBits c' (List.mem_cons_self ..))
        obtain ⟨t'', rep'', later⟩ := ih _ t' rep' fun c'' member =>
          flagBits c'' (List.mem_cons_of_mem _ member)
        exact ⟨t'', rep'', maps.later.trans later⟩
  have doneBits : ∀ c' ∈ done, FlagBits c'.flags := fun c' member =>
    flagBits c' (List.mem_append_left _ member)
  have hasTable := rep.hasTable_run doneBits supplied
  obtain ⟨t', rep', -⟩ := runs done s t rep doneBits
  have cBits := flagBits c (by simp)
  obtain ⟨t'', rep'', maps⟩ := rep'.maps c cBits
  obtain ⟨-, -, later⟩ := runs rest _ t'' rep'' fun c' member =>
    flagBits c' (List.mem_append_right _ (List.mem_cons_of_mem _ member))
  rw [List.foldl_append, List.foldl_cons]
  refine later.present x ?_
  simp [maps.succeeded (rep'.mapSucceeds hasTable) x samePage]

/-! ## Writes elsewhere -/

/-- `pmm` is the allocator of `s` after writes that stay away from the tables. -/
structure Elsewhere (s : Vmm) (touched : Word → Prop) (pmm : Pmm) : Prop where
  sound : pmm.Sound
  keeps : ∀ b, s.pmm.Holdable b → pmm.Holdable b
  words : pmm.InBitmapWords = s.pmm.InBitmapWords
  mem : AgreeOff touched s.mem pmm.mem
  off : ∀ x, s.OfTables x → ¬ touched x

theorem Represents.elsewhere (rep : Represents s d t) {touched : Word → Prop} {pmm : Pmm}
    (other : Elsewhere s touched pmm) : Represents { s with pmm := pmm } d t := by
  have kept : ∀ b, (∀ x, InBlock b x → s.OfTables x) → b < 2 ^ 20 → ∀ j < 1024,
      word pmm.mem b j = word s.mem b j := fun b inTables bound j jBound =>
    word_agreeOff other.mem bound jBound fun x inBlock => other.off x (inTables x inBlock)
  exact {
    sound := other.sound
    directory := rep.directory
    held := other.keeps d rep.held
    separate := rep.separate
    slot := fun i bound => by
      rw [← rep.slot i bound, ← kept d (fun x inBlock => (rep.ofTables_iff x).mpr
        (Or.inl inBlock)) (rep.bound rep.held) i bound]
      rfl
    named := fun i k names =>
      have old := rep.named i k names
      ⟨old.1, old.2.1, other.keeps k old.2.2⟩
    entry := fun i k names j bound => by
      rw [rep.entry i k names j bound, ← kept k (fun x inBlock => (rep.ofTables_iff x).mpr
        (Or.inr ⟨i, k, names, inBlock⟩)) (rep.bound (rep.named i k names).2.2) j bound]
      rfl }

section Elsewhere

variable {touched : Word → Prop} {pmm : Pmm} (safe : Safe s used) (other : Elsewhere s touched pmm)

include safe other

theorem Safe.ofTables_elsewhere (x : Word) :
    ({ s with pmm := pmm } : Vmm).OfTables x ↔ s.OfTables x := by
  obtain ⟨⟨d, t, rep⟩, -⟩ := safe
  rw [(rep.elsewhere other).ofTables_iff, rep.ofTables_iff]

theorem Safe.notTable_elsewhere (b : ℕ) :
    ({ s with pmm := pmm } : Vmm).NotTable b ↔ s.NotTable b := by
  unfold NotTable
  simp only [safe.ofTables_elsewhere other]

theorem Safe.walk_elsewhere (x : Word) : ({ s with pmm := pmm } : Vmm).walk x = s.walk x := by
  obtain ⟨⟨d, t, rep⟩, -⟩ := safe
  rw [(rep.elsewhere other).walk_eq, rep.walk_eq]

/-- Memory of the first 16 MB comes into use. -/
theorem Safe.elsewhere {used' : Word → Prop} (grown : ∀ x, used' x → used x ∨ InWindow x) :
    Safe { s with pmm := pmm } used' where
  represents := by
    obtain ⟨d, t, rep⟩ := safe.represents
    exact ⟨d, t, rep.elsewhere other⟩
  window := fun x inside => (safe.walk_elsewhere other x).trans (safe.window x inside)
  low := by
    rintro x (inUse | inBitmap | inTables)
    · exact (grown x inUse).elim (fun old => safe.low x (Or.inl old)) id
    · exact safe.low x (Or.inr (Or.inl (other.words ▸ inBitmap)))
    · exact safe.low x (Or.inr (Or.inr ((safe.ofTables_elsewhere other x).mp inTables)))

end Elsewhere

/-! ## `vmm_initialize` -/

/-- The call in turn `i` of the loop. -/
def identityCall (i : ℕ) : MapCall :=
  ⟨BitVec.ofNat 32 (4096 * i), BitVec.ofNat 32 (4096 * i), pdeWritable ||| pdeUser⟩

/-- `for (i = 0; i < 4096; i++)` -/
def identityCalls : List MapCall := (List.range 4096).map identityCall

/-- `vmm_initialize`; `none` if it returns before paging is enabled. -/
def vmmInitialize (pmm : Pmm) : Option Vmm :=
  (vmmNewDirectory pmm).map fun s => identityCalls.foldl Vmm.apply s

/-- All calls of the loop succeed. -/
def IdentityMapCompletes (pmm : Pmm) : Prop :=
  ∃ s, vmmNewDirectory pmm = some s ∧ allSucceed s identityCalls = true

theorem identityCall_flagBits (i : ℕ) : FlagBits (identityCall i).flags := by
  have flags : FlagBits (pdeWritable ||| pdeUser) := by decide
  exact flags

theorem identityCall_samePage_iff {i : ℕ} (bound : i < 4096) (x : Word) :
    x >>> 12 = (identityCall i).virt >>> 12 ↔ x.toNat / 4096 = i := by
  rw [← BitVec.toNat_inj, BitVec.toNat_ushiftRight, BitVec.toNat_ushiftRight,
    Nat.shiftRight_eq_div_pow, Nat.shiftRight_eq_div_pow, identityCall, BitVec.toNat_ofNat]
  omega

/-- The tables are in blocks that were among the `n` lowest ones of `free`. -/
structure TablesLowest (free : Set ℕ) (n : ℕ) (s : Vmm) : Prop where
  taken : TakenLowest free s.pmm.freeBlocks n
  tables : ∀ x, s.OfTables x → x.toNat / 4096 ∈ free \ s.pmm.freeBlocks

theorem TablesLowest.apply {free : Set ℕ} {n k : ℕ} (tablesLowest : TablesLowest free n s)
    {c : MapCall} {s' : Vmm} (maps : Maps s c s') (count : {b | s.TakesBlock c b}.encard ≤ k) :
    TablesLowest free (n + k) s' where
  taken := by
    rw [maps.free]
    exact tablesLowest.taken.take (fun b takes => takes.2) count
  tables := by
    intro x inTables
    rw [maps.free]
    rcases maps.tables x inTables with old | ⟨b, takes, inBlock⟩
    · have inFree := tablesLowest.tables x old
      exact ⟨inFree.1, fun kept => inFree.2 kept.1⟩
    · rw [InBlock] at inBlock
      rw [inBlock]
      exact ⟨tablesLowest.taken.sub takes.2.1, fun kept => kept.2 takes⟩

theorem takesBlock_encard (s : Vmm) (c : MapCall) : {b | s.TakesBlock c b}.encard ≤ 1 :=
  Set.encard_le_one_iff.mpr fun _ _ takes takes' => takes.2.unique takes'.2

/-- `s'` is `s` after `n` turns: the first `n` pages map to themselves and no
other page is present. -/
structure IdentityUpTo (free : Set ℕ) (n : ℕ) (s : Vmm) (d : ℕ) (s' : Vmm) : Prop where
  represents : ∃ t, Represents s' d t
  walk : ∀ x : Word, s'.walk x = if x.toNat / 4096 < n then some (frameOf x) else none
  later : Later s s'
  tablesLowest : TablesLowest free (1 + (n + 1023) / 1024) s'

/-- Every 1024th turn needs a new table; the others find one. -/
theorem IdentityUpTo.present {free : Set ℕ} {n : ℕ} {s₀ : Vmm} (upTo : IdentityUpTo free n s₀ d s)
    (bound : n < 4096) (inside : n % 1024 ≠ 0) :
    s.pdeAt ((identityCall n).virt >>> 22) &&& pdePresent ≠ 0 := by
  have before : s.walk (identityCall (n - 1)).virt ≠ none := by
    have page : (identityCall (n - 1)).virt.toNat / 4096 = n - 1 :=
      (identityCall_samePage_iff (by omega) _).mp rfl
    rw [upTo.walk, if_pos (by omega)]
    simp
  have sameTable : (identityCall n).virt >>> 22 = (identityCall (n - 1)).virt >>> 22 := by
    rw [← BitVec.toNat_inj, toNat_pdIndex, toNat_pdIndex, identityCall, identityCall,
      BitVec.toNat_ofNat, BitVec.toNat_ofNat]
    omega
  intro absent
  rw [sameTable] at absent
  exact before (if_pos absent)

theorem IdentityUpTo.count {free : Set ℕ} {n : ℕ} {s₀ : Vmm} (upTo : IdentityUpTo free n s₀ d s)
    (bound : n < 4096) : {b | s.TakesBlock (identityCall n) b}.encard ≤
      ((n + 1 + 1023) / 1024 - (n + 1023) / 1024 : ℕ) := by
  by_cases first : n % 1024 = 0
  · have one : (n + 1 + 1023) / 1024 - (n + 1023) / 1024 = 1 := by omega
    rw [one]
    exact s.takesBlock_encard _
  · have none : {b | s.TakesBlock (identityCall n) b} = ∅ :=
      Set.eq_empty_iff_forall_notMem.mpr fun b takes => upTo.present bound first takes.1
    rw [none, Set.encard_empty]
    exact zero_le

/-- Five free blocks are enough for the directory and its four tables. -/
theorem IdentityUpTo.hasTable {free : Set ℕ} {n : ℕ} {s₀ : Vmm}
    (upTo : IdentityUpTo free n s₀ d s) (bound : n < 4096) (five : 5 ≤ free.encard) :
    s.HasTable (identityCall n) := by
  by_cases first : n % 1024 = 0
  · right
    by_contra full
    have taken := upTo.tablesLowest.taken.count
    rw [Set.not_nonempty_iff_eq_empty.mp full, Set.sdiff_empty] at taken
    have few : ((5 : ℕ) : ℕ∞) ≤ ((1 + (n + 1023) / 1024 : ℕ) : ℕ∞) := five.trans taken
    rw [Nat.cast_le] at few
    omega
  · exact Or.inl (upTo.present bound first)

theorem IdentityUpTo.turn {free : Set ℕ} {n : ℕ} {s₀ : Vmm} (upTo : IdentityUpTo free n s₀ d s)
    (bound : n < 4096) (succeeds : s.mapSucceeds (identityCall n) = true) :
    IdentityUpTo free (n + 1) s₀ d (s.apply (identityCall n)) := by
  obtain ⟨t, rep⟩ := upTo.represents
  obtain ⟨t', rep', maps⟩ := rep.maps (identityCall n) (identityCall_flagBits n)
  refine ⟨⟨t', rep'⟩, fun x => ?_, upTo.later.trans maps.later, ?_⟩
  · by_cases here : x >>> 12 = (identityCall n).virt >>> 12
    · have page := (identityCall_samePage_iff (by omega) x).mp here
      rw [maps.succeeded succeeds x here, if_pos (by omega), Option.some_inj]
      exact (frameOf_eq_iff _ _).mpr here.symm
    · have page := mt (identityCall_samePage_iff (by omega) x).mpr here
      rw [maps.elsewhere x here, upTo.walk]
      by_cases before : x.toNat / 4096 < n
      · rw [if_pos before, if_pos (by omega)]
      · rw [if_neg before, if_neg (by omega)]
  · have grown := upTo.tablesLowest.apply maps (upTo.count bound)
    have sum : 1 + (n + 1023) / 1024 + ((n + 1 + 1023) / 1024 - (n + 1023) / 1024) =
        1 + (n + 1 + 1023) / 1024 := by omega
    rwa [sum] at grown

theorem Represents.identity_prefix (rep : Represents s d ⟨fun _ => none, fun _ _ => none⟩)
    {free : Set ℕ} (tablesLowest : TablesLowest free 1 s) {n : ℕ} (bound : n ≤ 4096)
    (succeed : allSucceed s ((List.range n).map identityCall) = true) :
    IdentityUpTo free n s d (((List.range n).map identityCall).foldl Vmm.apply s) := by
  induction n with
  | zero => exact ⟨⟨_, rep⟩, fun x => rep.walk_eq x, Later.refl s, tablesLowest⟩
  | succ n ih =>
      rw [List.range_succ, List.map_append, List.map_singleton, allSucceed_concat,
        Bool.and_eq_true] at succeed
      have upTo := ih (by omega) succeed.1
      rw [List.range_succ, List.map_append, List.map_singleton, List.foldl_concat]
      exact upTo.turn (by omega) succeed.2

/-- The new directory is in the lowest free block. -/
theorem vmmNewDirectory_tablesLowest {pmm : Pmm} (sound : pmm.Sound)
    (created : vmmNewDirectory pmm = some s) :
    TablesLowest pmm.freeBlocks 1 s ∧ s.pmm.InBitmapWords = pmm.InBitmapWords ∧
      ∀ b, pmm.Holdable b → s.pmm.Holdable b := by
  obtain ⟨d, rep⟩ := Represents.empty sound created
  obtain ⟨d', pmm', allocates, result, value⟩ := vmmNewDirectory_spec sound created
  have agree := memset_block_agreeOff pmm'.mem 0 allocates.lt
  have off := allocates.holdable.off
  have directory : blockAddr d' = blockAddr d := by
    rw [← rep.directory, value]
  obtain rfl := blockAddr_injective allocates.lt (rep.bound rep.held) directory
  have pmmEq : s.pmm = pmm'.withMem (memset pmm'.mem (blockAddr d') 0 4096) := by rw [value]
  have free : s.pmm.freeBlocks = pmm.freeBlocks \ {d'} := by
    rw [pmmEq, freeBlocks_withMem agree off, allocates.freeBlocks result]
  have least := (allocates.lowest result).1
  refine ⟨⟨?_, fun x inTables => ?_⟩, ?_, fun b held => ?_⟩
  · rw [free]
    exact (TakenLowest.refl _).take_one least
  · rw [free]
    rcases (rep.ofTables_iff x).mp inTables with inDirectory | ⟨i, k, names, -⟩
    · rw [InBlock] at inDirectory
      rw [inDirectory]
      exact ⟨least.1, fun kept => kept.2 rfl⟩
    · contradiction
  · rw [pmmEq]
    unfold InBitmapWords
    rw [withMem_bitmap, withMem_maxBlocks, allocates.maxBlocks, allocates.bitmap]
  · rw [pmmEq]
    exact (allocates.keeps b held).1.withMem agree off

theorem identityMapCompletes_of_five {pmm : Pmm} (sound : pmm.Sound)
    (five : 5 ≤ pmm.freeBlocks.encard) : IdentityMapCompletes pmm := by
  obtain ⟨s, created⟩ : ∃ s, vmmNewDirectory pmm = some s := by
    unfold vmmNewDirectory
    rcases sound.alloc with ⟨k, pmm', allocates, result⟩ | ⟨full, -⟩
    · rw [result]
      exact ⟨_, if_neg allocates.blockAddr_ne_zero⟩
    · rw [full, Set.encard_empty] at five
      exact absurd five (by simp)
  obtain ⟨d, rep⟩ := Represents.empty sound created
  obtain ⟨tablesLowest, -, -⟩ := vmmNewDirectory_tablesLowest sound created
  have succeeds : ∀ n ≤ 4096, allSucceed s ((List.range n).map identityCall) = true := by
    intro n bound
    induction n with
    | zero => rfl
    | succ n ih =>
        have before := ih (by omega)
        have upTo := rep.identity_prefix tablesLowest (by omega) before
        obtain ⟨t, rep'⟩ := upTo.represents
        rw [List.range_succ, List.map_append, List.map_singleton, allSucceed_concat, before,
          Bool.true_and]
        exact rep'.mapSucceeds (upTo.hasTable (by omega) five)
  exact ⟨s, created, succeeds 4096 le_rfl⟩

/-- What `vmm_initialize` leaves when the loop completes: the first 16 MB map to
themselves, nothing else is mapped, and the tables are in the lowest free blocks. -/
structure Initialized (pmm : Pmm) (s : Vmm) : Prop where
  represents : ∃ d t, Represents s d t
  walk : ∀ x : Word, s.walk x = if x.toNat < 0x1000000 then some (frameOf x) else none
  tables : ∀ x, s.OfTables x → x.toNat / 4096 ∈ lowest pmm.freeBlocks 5
  free : s.pmm.freeBlocks ⊆ pmm.freeBlocks
  words : s.pmm.InBitmapWords = pmm.InBitmapWords
  keeps : ∀ b, pmm.Holdable b → s.pmm.Holdable b

theorem vmmInitialize_initialized {pmm : Pmm} (sound : pmm.Sound)
    (completes : IdentityMapCompletes pmm) (initialized : vmmInitialize pmm = some s) :
    Initialized pmm s := by
  obtain ⟨s₀, created, succeed⟩ := completes
  obtain ⟨d, rep⟩ := Represents.empty sound created
  obtain ⟨tablesLowest, words, keeps⟩ := vmmNewDirectory_tablesLowest sound created
  unfold vmmInitialize at initialized
  rw [created, Option.map_some, Option.some_inj] at initialized
  have upTo := rep.identity_prefix tablesLowest (Nat.le_refl 4096) succeed
  rw [← identityCalls, initialized] at upTo
  obtain ⟨t, rep'⟩ := upTo.represents
  refine ⟨⟨d, t, rep'⟩, fun x => (upTo.walk x).trans ?_,
    fun x inTables => upTo.tablesLowest.taken.mem_lowest (upTo.tablesLowest.tables x inTables),
    upTo.tablesLowest.taken.sub, upTo.later.words.trans words,
    fun b held => (upTo.later.keeps b (keeps b held)).1⟩
  have window : x.toNat / 4096 < 4096 ↔ x.toNat < 0x1000000 := by omega
  simp only [window]

end Vmm

end OrbitOs.Memory
