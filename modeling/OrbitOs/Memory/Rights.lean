import OrbitOs.Memory.Vmm

/-!
# The rights of mapped pages

The processor grants what the directory entry and the table entry both grant.
`vmm_map_page` writes the flags of every call into the table, but into the
directory only those of the first call in a region of 4 MiB.
-/

set_option autoImplicit false

namespace OrbitOs.Memory

open OrbitOs.Machine OrbitOs.Kernel OrbitOs.Base

/-- Access from Ring 3, and write access. -/
structure Rights where
  user : Bool
  write : Bool
  deriving DecidableEq, Repr

namespace Rights

/-- What two entries grant together. -/
def both (a b : Rights) : Rights := ⟨a.user && b.user, a.write && b.write⟩

/-- `a` grants all that `b` grants. -/
def Includes (a b : Rights) : Prop := (b.user → a.user) ∧ (b.write → a.write)

instance (a b : Rights) : Decidable (a.Includes b) := inferInstanceAs (Decidable (_ ∧ _))

theorem both_eq_right_iff (a b : Rights) : a.both b = b ↔ a.Includes b := by
  rcases a with ⟨aUser, aWrite⟩
  rcases b with ⟨bUser, bWrite⟩
  cases aUser <;> cases aWrite <;> cases bUser <;> cases bWrite <;> decide

end Rights

namespace Vmm

open Pmm

/-! ## The hardware -/

/-- The rights bits of an entry. -/
def rightsOf (e : Word) : Rights := ⟨e &&& pdeUser ≠ 0, e &&& pdeWritable ≠ 0⟩

/-- The entry of the table that the directory names for `virt`. -/
def pteAt (s : Vmm) (virt : Word) : Word :=
  let ptIndex := (virt >>> 12) &&& 0x03FF
  ld32 s.mem (frameOf (s.pdeAt (virt >>> 22)) + 4 * ptIndex)

/-- The rights the processor grants at `virt`; `none` if the page is not mapped. -/
def effective (s : Vmm) (virt : Word) : Option Rights :=
  (presentEntry (s.pdeAt (virt >>> 22))).bind fun pde =>
    (presentEntry (s.pteAt virt)).map fun pte => (rightsOf pde).both (rightsOf pte)

/-! ## Sequences of calls -/

/-- No call returns early. -/
def allSucceed : Vmm → List MapCall → Bool
  | _, [] => true
  | s, c :: cs => s.mapSucceeds c && allSucceed (s.apply c) cs

/-- The flags of the first call in the 4 MiB region of `virt`. -/
def firstFlags (calls : List MapCall) (virt : Word) : Option Word :=
  (calls.find? fun c : MapCall => c.virt >>> 22 = virt >>> 22).map MapCall.flags

/-- The flags of the last call for the page of `virt`. -/
def lastFlags (calls : List MapCall) (virt : Word) : Option Word :=
  (calls.reverse.find? fun c : MapCall => c.virt >>> 12 = virt >>> 12).map MapCall.flags

theorem allSucceed_concat (s : Vmm) (calls : List MapCall) (c : MapCall) :
    allSucceed s (calls ++ [c]) =
      (allSucceed s calls && (calls.foldl Vmm.apply s).mapSucceeds c) := by
  induction calls generalizing s with
  | nil => simp [allSucceed]
  | cons c' cs ih => simp [allSucceed, ih, Bool.and_assoc]

theorem firstFlags_concat (calls : List MapCall) (c : MapCall) (virt : Word) :
    firstFlags (calls ++ [c]) virt =
      (firstFlags calls virt).or (if c.virt >>> 22 = virt >>> 22 then some c.flags else none) := by
  unfold firstFlags
  rw [List.find?_append]
  cases calls.find? fun c : MapCall => c.virt >>> 22 = virt >>> 22 with
  | some first => rfl
  | none => by_cases here : c.virt >>> 22 = virt >>> 22 <;> simp [List.find?, here]

theorem lastFlags_concat (calls : List MapCall) (c : MapCall) (virt : Word) :
    lastFlags (calls ++ [c]) virt =
      if c.virt >>> 12 = virt >>> 12 then some c.flags else lastFlags calls virt := by
  unfold lastFlags
  rw [List.reverse_append]
  by_cases here : c.virt >>> 12 = virt >>> 12 <;> simp [here]

/-! ## Entries -/

theorem rightsOf_entry (e flags : Word) :
    rightsOf (frameOf e ||| flags ||| pdePresent) = rightsOf flags := by
  have masked : ∀ m : Word, ~~~0xFFF &&& m = 0#32 → pdePresent &&& m = 0#32 →
      (frameOf e ||| flags ||| pdePresent) &&& m = flags &&& m := by
    intro m noFrame noPresent
    rw [BitVec.and_or_distrib_right, BitVec.and_or_distrib_right, noPresent, frameOf,
      BitVec.and_assoc, noFrame, BitVec.and_zero, BitVec.zero_or, BitVec.or_zero]
  unfold rightsOf
  rw [masked pdeUser (by decide) (by decide), masked pdeWritable (by decide) (by decide)]

theorem rightsOf_tableEntry (k : ℕ) (flags : Word) :
    rightsOf (blockAddr k ||| flags ||| pdePresent) = rightsOf flags := by
  rw [← frameOf_blockAddr k]
  exact rightsOf_entry _ _

variable {s : Vmm} {d : ℕ} {t : Tables}

/-- The words of the directory after `ensureTable`. -/
theorem Represents.ensureTable_directory (rep : Represents s d t) {i flags : Word}
    (iBound : i.toNat < 1024) (allowed : Allowed flags) {s' : Vmm}
    (ensured : s.ensureTable i flags = (s', true)) {j : ℕ} (jBound : j < 1024) :
    if j = i.toNat ∧ word s.mem d j &&& pdePresent = 0 then
      ∃ k, word s'.mem d j = blockAddr k ||| flags ||| pdePresent
    else word s'.mem d j = word s.mem d j := by
  have dBound := rep.bound rep.held
  rcases rep.ensureTable_spec iBound allowed.flagBits with
    ⟨k, names, result⟩ | ⟨empty, k, pmm', allocates, -, result, -⟩ | ⟨-, -, -, result⟩
  · obtain ⟨rfl, -⟩ := Prod.mk.inj (result.symm.trans ensured)
    rw [if_neg]
    rintro ⟨rfl, absent⟩
    exact (rep.slot_some names).1 absent
  · obtain ⟨rfl, -⟩ := Prod.mk.inj (result.symm.trans ensured)
    have cleared := memset_block_agreeOff pmm'.mem 0 allocates.lt
    rw [withTable_mem, word_st32 _ _ dBound iBound dBound jBound]
    generalize memset pmm'.mem (blockAddr k) 0 4096 = m at cleared ⊢
    by_cases here : j = i.toNat
    · subst here
      rw [if_pos ⟨rfl, rep.slot_none iBound empty⟩, if_pos ⟨rfl, rfl⟩]
      exact ⟨k, rfl⟩
    · have notNew : ∀ x, InBlock d x → ¬ InBlock k x := fun x inD inK =>
        (allocates.keeps d rep.held).2 (inD.unique inK)
      rw [if_neg (fun h => here h.1), if_neg (fun h => here h.2)]
      exact (word_agreeOff cleared dBound jBound notNew).trans
        (word_agreeOff allocates.mem dBound jBound rep.held.clear)
  · exact absurd (Prod.mk.inj (result.symm.trans ensured)).2 Bool.false_ne_true

/-- A store into a table keeps the directory. -/
theorem Represents.pdeAt_store (rep : Represents s d t) {k j : ℕ} (other : k ≠ d)
    (held : s.pmm.Holdable k) (jBound : j < 1024) (v : Word) {virt : Word} :
    (s.store (wordAddr k j) v).pdeAt (virt >>> 22) = s.pdeAt (virt >>> 22) := by
  have indexBound := pdIndex_lt virt
  generalize virt >>> 22 = i at indexBound ⊢
  have stored : (s.store (wordAddr k j) v).pdeAt i =
      ld32 (st32 s.mem (wordAddr k j) v) (s.pageDirectory + 4 * i) := rfl
  rw [stored, pdeAt, rep.directory, blockAddr_add_word]
  refine (word_st32 _ _ (rep.bound held) jBound (rep.bound rep.held) indexBound).trans ?_
  rw [if_neg fun h => other h.1.symm]
  rfl

/-- A call stamps its flags on a directory entry that is not present yet, and
leaves the others as they are. -/
theorem Represents.pdeRights_apply (rep : Represents s d t) (c : MapCall)
    (allowed : Allowed c.flags) (succeeds : s.mapSucceeds c = true) (virt : Word) :
    (presentEntry ((s.apply c).pdeAt (virt >>> 22))).map rightsOf =
      ((presentEntry (s.pdeAt (virt >>> 22))).map rightsOf).or
        (if c.virt >>> 22 = virt >>> 22 then some (rightsOf c.flags) else none) := by
  unfold mapSucceeds at succeeds
  unfold Vmm.apply vmmMapPage
  dsimp only
  rcases ensureTable_cases rep (pdIndex_lt c.virt) allowed.flagBits with
    ⟨s', t', k, ensured, rep', names, -⟩ | early
  · obtain ⟨-, other, held⟩ := rep'.named _ k names
    have directory :=
      rep.ensureTable_directory (pdIndex_lt c.virt) allowed ensured (pdIndex_lt virt)
    rw [ensured]
    dsimp only
    rw [rep'.pde, (rep'.slot_some names).2, blockAddr_add_word]
    rw [rep'.pdeAt_store other held (ptIndex_lt _), pdeAt, pdeAt, rep.pde, rep'.pde]
    generalize word s'.mem d (virt >>> 22).toNat = new at directory ⊢
    split at directory
    · rename_i stamped
      obtain ⟨k', rfl⟩ := directory
      have here : c.virt >>> 22 = virt >>> 22 := BitVec.eq_of_toNat_eq stamped.1.symm
      rw [presentEntry_packed, Option.map_some, rightsOf_tableEntry, presentEntry,
        if_pos stamped.2, if_pos here]
      rfl
    · rename_i unstamped
      rw [directory, presentEntry]
      by_cases absent : word s.mem d (virt >>> 22).toNat &&& pdePresent = 0
      · have elsewhere : c.virt >>> 22 ≠ virt >>> 22 := fun same =>
          unstamped ⟨by rw [same], absent⟩
        rw [if_pos absent, if_neg elsewhere]
        rfl
      · rw [if_neg absent]
        rfl
  · rw [early] at succeeds
    contradiction

/-! ## Runs -/

/-- After `calls`, the directory carries the flags of the first call in each
region and the tables those of the last call for each page. -/
structure Stamped (s : Vmm) (t : Tables) (calls : List MapCall) : Prop where
  first : ∀ virt : Word, (presentEntry (s.pdeAt (virt >>> 22))).map rightsOf =
    (firstFlags calls virt).map rightsOf
  last : ∀ virt : Word,
    (t.lookup (virt.toNat / 2 ^ 22) (virt.toNat / 2 ^ 12 % 1024)).map rightsOf =
      (lastFlags calls virt).map rightsOf

theorem Represents.stamped_apply (rep : Represents s d t) {calls : List MapCall}
    (stamped : Stamped s t calls) (c : MapCall) (allowed : Allowed c.flags)
    (succeeds : s.mapSucceeds c = true) :
    ∃ t', Represents (s.apply c) d t' ∧ Stamped (s.apply c) t' (calls ++ [c]) := by
  rcases rep.call c allowed with ⟨-, t', rep', looked⟩ | ⟨fails, -⟩
  · refine ⟨t', rep', fun virt => ?_, fun virt => ?_⟩
    · rw [rep.pdeRights_apply c allowed succeeds, stamped.first, firstFlags_concat]
      cases firstFlags calls virt with
      | some flags => rfl
      | none => by_cases here : c.virt >>> 22 = virt >>> 22 <;> simp [here]
    · rw [looked, lastFlags_concat]
      by_cases here : c.virt >>> 12 = virt >>> 12
      · rw [if_pos (samePage_iff.mp here.symm), if_pos here, Option.map_some, Option.map_some,
          rightsOf_entry]
      · rw [if_neg (fun same => here (samePage_iff.mpr same).symm), if_neg here]
        exact stamped.last virt
  · rw [fails] at succeeds
    contradiction

theorem Represents.stamped_run (rep : Represents s d ⟨fun _ => none, fun _ _ => none⟩)
    (calls : List MapCall) (allowed : ∀ c ∈ calls, Allowed c.flags)
    (succeed : allSucceed s calls = true) :
    ∃ t, Represents (calls.foldl Vmm.apply s) d t ∧ Stamped (calls.foldl Vmm.apply s) t calls := by
  induction calls using List.reverseRecOn with
  | nil =>
      refine ⟨_, rep, fun virt => ?_, fun virt => rfl⟩
      have absent := rep.slot_none (pdIndex_lt virt) rfl
      rw [List.foldl_nil, pdeAt, rep.pde, presentEntry, if_pos absent]
      rfl
  | append_singleton calls c ih =>
      rw [allSucceed_concat, Bool.and_eq_true] at succeed
      obtain ⟨t, rep', stamped⟩ :=
        ih (fun c' member => allowed c' (List.mem_append_left _ member)) succeed.1
      rw [List.foldl_concat]
      exact rep'.stamped_apply stamped c (allowed c (by simp)) succeed.2

/-- The call finds its table, or a block for a new one. -/
def HasTable (s : Vmm) (c : MapCall) : Prop :=
  s.pdeAt (c.virt >>> 22) &&& pdePresent ≠ 0 ∨ s.pmm.freeBlocks.Nonempty

theorem Represents.mapSucceeds (rep : Represents s d t) {c : MapCall}
    (hasTable : s.HasTable c) : s.mapSucceeds c = true := by
  rw [mapSucceeds_iff]
  refine hasTable.imp_right fun free => ?_
  rcases rep.sound.alloc with ⟨k, pmm', allocates, result⟩ | ⟨full, -⟩
  · rw [result]
    exact allocates.blockAddr_ne_zero
  · exact absurd (full ▸ free) Set.not_nonempty_empty

/-- A call finds its table in a region that an earlier call has touched. -/
theorem Stamped.hasTable {calls : List MapCall} (stamped : Stamped s t calls) {c : MapCall}
    {flags : Word} (touched : firstFlags calls c.virt = some flags) : s.HasTable c := by
  have entry := stamped.first c.virt
  rw [touched, presentEntry] at entry
  left
  intro absent
  rw [if_pos absent] at entry
  contradiction

/-- The processor sees the entry that the abstract table holds. -/
theorem Represents.entries_of_lookup (rep : Represents s d t) {virt e : Word}
    (found : t.lookup (virt.toNat / 2 ^ 22) (virt.toNat / 2 ^ 12 % 1024) = some e) :
    presentEntry (s.pdeAt (virt >>> 22)) = some (s.pdeAt (virt >>> 22)) ∧
      presentEntry (s.pteAt virt) = some e := by
  rw [TwoLevel.lookup, Option.bind_eq_some_iff] at found
  obtain ⟨k, names, entry⟩ := found
  obtain ⟨present, frame⟩ := rep.slot_some names
  rw [pteAt, pdeAt, rep.pde, toNat_pdIndex, frame, blockAddr_add_word, toNat_ptIndex]
  refine ⟨if_neg present, ?_⟩
  rw [rep.entry _ k names _ (Nat.mod_lt _ (by simp))] at entry
  exact entry

/-- The rights of a mapped page are those of two calls. -/
theorem Represents.effective_eq (rep : Represents s d t) {calls : List MapCall}
    (stamped : Stamped s t calls) {virt last : Word} (asked : lastFlags calls virt = some last) :
    ∃ first, firstFlags calls virt = some first ∧
      s.effective virt = some ((rightsOf first).both (rightsOf last)) := by
  have lastRights := stamped.last virt
  rw [asked, Option.map_some, Option.map_eq_some_iff] at lastRights
  obtain ⟨pte, found, pteRights⟩ := lastRights
  obtain ⟨pdePresent, ptePresent⟩ := rep.entries_of_lookup found
  have firstRights := stamped.first virt
  rw [pdePresent, Option.map_some] at firstRights
  obtain ⟨first, isFirst, pdeRights⟩ := Option.map_eq_some_iff.mp firstRights.symm
  refine ⟨first, isFirst, ?_⟩
  rw [effective, pdePresent, ptePresent, Option.bind_some, Option.map_some, ← pdeRights,
    pteRights]

/-- A mapped page has the rights of the last call for it, as far as the first
call in its region asked for them too. -/
theorem effective_run {boot : Pmm} (sound : boot.Sound)
    (created : vmmNewDirectory boot = some s) (calls : List MapCall)
    (allowed : ∀ c ∈ calls, Allowed c.flags) (succeed : allSucceed s calls = true)
    {virt last : Word} (asked : lastFlags calls virt = some last) :
    ∃ first, firstFlags calls virt = some first ∧
      (calls.foldl Vmm.apply s).effective virt =
        some ((rightsOf first).both (rightsOf last)) := by
  obtain ⟨d, rep⟩ := Represents.empty sound created
  obtain ⟨t, rep', stamped⟩ := rep.stamped_run calls allowed succeed
  exact rep'.effective_eq stamped asked

/-- A mapped page has the rights that the last call for it asked for exactly
when the first call in its region asked for all of them. -/
theorem effective_eq_asked_iff {boot : Pmm} (sound : boot.Sound)
    (created : vmmNewDirectory boot = some s) (calls : List MapCall)
    (allowed : ∀ c ∈ calls, Allowed c.flags) (succeed : allSucceed s calls = true)
    (virt last : Word) (asked : lastFlags calls virt = some last) :
    (calls.foldl Vmm.apply s).effective virt = some (rightsOf last) ↔
      ∃ first, firstFlags calls virt = some first ∧
        (rightsOf first).Includes (rightsOf last) := by
  obtain ⟨first, isFirst, granted⟩ := effective_run sound created calls allowed succeed asked
  rw [granted, Option.some_inj, Rights.both_eq_right_iff]
  constructor
  · intro includes
    exact ⟨first, isFirst, includes⟩
  · rintro ⟨first', isFirst', includes⟩
    rw [isFirst, Option.some_inj] at isFirst'
    rw [isFirst']
    exact includes

/-- What the driver of the network card maps, and then a page for Ring 3 beside it. -/
def besideMmio : List MapCall := [⟨0xFEB00000, 0xFEB00000, 2⟩, ⟨0x5000, 0xFEB40000, 6⟩]

theorem besideMmio_succeed :
    ∃ s, vmmNewDirectory eightBlocks = some s ∧ allSucceed s besideMmio = true := by
  obtain ⟨s, created⟩ := vmmNewDirectory_eightBlocks
  obtain ⟨d, rep⟩ := Represents.empty eightBlocks_sound created
  obtain ⟨k, freeBlocks⟩ := vmmNewDirectory_freeBlocks eightBlocks_sound created
  have free : s.pmm.freeBlocks.Nonempty := by
    have first : 1 ∈ eightBlocks.freeBlocks := mem_freeBlocks.mpr (by decide)
    have second : 2 ∈ eightBlocks.freeBlocks := mem_freeBlocks.mpr (by decide)
    rw [freeBlocks]
    by_cases taken : k = 1
    · exact ⟨2, second, by simp [taken]⟩
    · exact ⟨1, first, fun same => taken same.symm⟩
  have mmio := rep.mapSucceeds (c := ⟨0xFEB00000, 0xFEB00000, 2⟩) (Or.inr free)
  obtain ⟨t, rep', stamped⟩ := rep.stamped_run [⟨0xFEB00000, 0xFEB00000, 2⟩] (by decide)
    (by rw [allSucceed, mmio, allSucceed]; rfl)
  have touched : firstFlags [⟨0xFEB00000, 0xFEB00000, 2⟩] 0xFEB40000 = some 2 := by decide
  have beside := rep'.mapSucceeds (c := ⟨0x5000, 0xFEB40000, 6⟩)
    (stamped.hasTable touched)
  refine ⟨s, created, ?_⟩
  rw [besideMmio, allSucceed, mmio, allSucceed, allSucceed, Bool.and_true, Bool.true_and]
  exact beside

/-- The page beside the registers is not accessible from Ring 3, although the
only call for it asked for that. -/
theorem besideMmio_not_asked :
    ∃ s, vmmNewDirectory eightBlocks = some s ∧ allSucceed s besideMmio = true ∧
      lastFlags besideMmio 0xFEB40000 = some (pdeWritable ||| pdeUser) ∧
      (besideMmio.foldl Vmm.apply s).effective 0xFEB40000 = some ⟨false, true⟩ ∧
      (besideMmio.foldl Vmm.apply s).effective 0xFEB40000 ≠
        some (rightsOf (pdeWritable ||| pdeUser)) := by
  obtain ⟨s, created, succeed⟩ := besideMmio_succeed
  have asked : lastFlags besideMmio 0xFEB40000 = some (pdeWritable ||| pdeUser) := by decide
  obtain ⟨first, isFirst, granted⟩ :=
    effective_run eightBlocks_sound created besideMmio (by decide) succeed asked
  have mmioFlags : firstFlags besideMmio 0xFEB40000 = some pdeWritable := by decide
  rw [mmioFlags, Option.some_inj] at isFirst
  rw [← isFirst] at granted
  refine ⟨s, created, succeed, asked, granted, ?_⟩
  rw [granted]
  decide

theorem effective_eq_asked_iff_besideMmio :
    ∃ s, vmmNewDirectory eightBlocks = some s ∧
      ((besideMmio.foldl Vmm.apply s).effective 0xFEB00000 = some (rightsOf pdeWritable) ↔
        ∃ first, firstFlags besideMmio 0xFEB00000 = some first ∧
          (rightsOf first).Includes (rightsOf pdeWritable)) := by
  obtain ⟨s, created, succeed⟩ := besideMmio_succeed
  exact ⟨s, created, effective_eq_asked_iff eightBlocks_sound created besideMmio (by decide)
    succeed 0xFEB00000 pdeWritable (by decide)⟩

end Vmm

end OrbitOs.Memory
