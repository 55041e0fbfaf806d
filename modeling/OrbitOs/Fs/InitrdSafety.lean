import OrbitOs.Fs.InitrdRoundTrip

/-!
# Which bytes the ramdisk code reads

Nothing in initrd.c checks the image it is given.  `Harmless` is the safety of
mounting and of all later requests; an image is harmless exactly when it is
well formed: its headers, names and data stay inside the module and the names
end within their field.
-/

set_option autoImplicit false

namespace OrbitOs.Fs

open OrbitOs.Machine OrbitOs.Kernel OrbitOs.Base

namespace Initrd

/-- The bytes of the module `[mod_start, mod_end)` and of the node table; the
strings of a caller are its own. -/
def InPlace (modStart modEnd : Word) : Place → Prop
  | .memory a => Within modStart (modEnd.toNat - modStart.toNat) a
  | .nodeName i k => i < 64 ∧ k < nameSize
  | .argument _ => True
  | .literal k => k ≤ rootName.length

instance (modStart modEnd : Word) (p : Place) : Decidable (InPlace modStart modEnd p) := by
  cases p <;> unfold InPlace <;> infer_instance

/-- Mounting the module and answering every permitted request afterwards reads
only these bytes, and every copied name fits its field. -/
structure Harmless (permits : Word → Word → Prop) (m : Mem) (modStart modEnd : Word) : Prop where
  namesFit : (initrdInitialize m modStart bss).val ≠ none
  mountReads : ∀ p ∈ (initrdInitialize m modStart bss).places, InPlace modStart modEnd p
  readReads : ∀ st, (initrdInitialize m modStart bss).val = some st → ∀ st', Requests st st' →
    ∀ m' n offset size buffer, permits offset size →
      ∀ p ∈ (fsRead st' m' n offset size buffer).places, InPlace modStart modEnd p
  readdirReads : ∀ st, (initrdInitialize m modStart bss).val = some st → ∀ st', Requests st st' →
    ∀ n index, (fsReaddir st' n index).val ≠ none ∧
      ∀ p ∈ (fsReaddir st' n index).places, InPlace modStart modEnd p
  finddirReads : ∀ st, (initrdInitialize m modStart bss).val = some st → ∀ st', Requests st st' →
    ∀ fuel n arg, ∀ p ∈ (fsFinddir fuel st' n arg).places, InPlace modStart modEnd p

/-- The end of the requested window does not wrap. -/
def NoWrap (offset size : Word) : Prop := offset.toNat + size.toNat < 2 ^ 32

/-- Header `i` of a module of `size` bytes. -/
structure FileWellFormed (m : Mem) (location : Word) (size i : ℕ) : Prop where
  header : 8 + 72 * (i + 1) ≤ size
  name : ∃ j, NameEnds m location i j ∧ 8 + 72 * i + j < size
  data : ld32 m (headerAt location i + 68) = 0 ∨
    (ld32 m (headerAt location i + 64)).toNat + (ld32 m (headerAt location i + 68)).toNat ≤ size

structure WellFormed (m : Mem) (location : Word) (size : ℕ) : Prop where
  magic : 4 ≤ size
  count : ld32 m location = 0x5442524F → 8 ≤ size
  files : ∀ i < fileCount m location, FileWellFormed m location size i

/-! ## The places of the requests -/

/-- A window that does not wrap lies inside the file. -/
theorem fsRead_places {st : Initrd} {m : Mem} {n : NodeRef} {offset size buffer : Word} {p : Place}
    (noWrap : NoWrap offset size) (member : p ∈ (fsRead st m n offset size buffer).places) :
    (st.node n).read = true ∧ ∃ t < (st.node n).length.toNat,
      p = .memory ((st.node n).impl + BitVec.ofNat 32 t) := by
  unfold NoWrap at noWrap
  unfold fsRead at member
  by_cases read : (st.node n).read = true
  · rw [if_pos read] at member
    refine ⟨read, ?_⟩
    unfold initrdRead at member
    split at member
    · simp at member
    · rename_i inside
      rw [ge_iff_le, BitVec.le_def] at inside
      simp only [memcpyPlaces, List.mem_map, List.mem_range] at member
      obtain ⟨k, bound, rfl⟩ := member
      refine ⟨offset.toNat + k, ?_, ?_⟩
      · split at bound
        · bv_omega
        · rename_i short
          rw [gt_iff_lt, BitVec.lt_def, BitVec.toNat_add] at short
          omega
      · rw [BitVec.ofNat_add, BitVec.add_assoc]
        simp
  · rw [if_neg read] at member
    simp at member

theorem fsRead_reaches {st : Initrd} {n : NodeRef} (m : Mem) (buffer : Word)
    (read : (st.node n).read = true) {t : ℕ} (bound : t < (st.node n).length.toNat) :
    .memory ((st.node n).impl + BitVec.ofNat 32 t) ∈
      (fsRead st m n (BitVec.ofNat 32 t) 1 buffer).places := by
  have lengthBound := (st.node n).length.isLt
  have offset : (BitVec.ofNat 32 t).toNat = t := by
    rw [BitVec.toNat_ofNat]
    omega
  have inside : ¬ BitVec.ofNat 32 t ≥ (st.node n).length := by
    rw [ge_iff_le, BitVec.le_def, offset]
    omega
  have unclamped : ¬ BitVec.ofNat 32 t + 1 > (st.node n).length := by
    have one : (1 : Word).toNat = 1 := rfl
    rw [gt_iff_lt, BitVec.lt_def, BitVec.toNat_add, offset, one]
    omega
  unfold fsRead initrdRead
  rw [if_pos read, if_neg inside]
  simp only [if_neg unclamped, memcpyPlaces, List.mem_map, List.mem_range]
  exact ⟨0, by decide, by simp⟩

/-- The names of the mounted nodes end within their field. -/
def Named (st : Initrd) : Prop :=
  st.numFiles.toNat ≤ 64 ∧ ∀ i < st.numFiles.toNat, ∃ j < nameSize, (st.nodes i).name j = 0

theorem Named.readdir {st : Initrd} (named : Named st) (modStart modEnd : Word) (n : NodeRef)
    (index : Word) : (fsReaddir st n index).val ≠ none ∧
      ∀ p ∈ (fsReaddir st n index).places, InPlace modStart modEnd p := by
  unfold fsReaddir initrdReaddir
  split
  · split
    · exact ⟨by simp, by simp⟩
    · split
      · exact ⟨by simp, by simp⟩
      · rename_i inTable
        rw [ge_iff_le, BitVec.le_def, not_le] at inTable
        obtain ⟨e, eBound, eZero⟩ := named.2 index.toNat inTable
        rcases strcpyLoop_cases (nodeChars st index.toNat) nameSize 0 st.dirCache.name with
          ⟨j, _, fits, _, _, value, places⟩ | ⟨all, _⟩
        · simp only [Traced.bind_val, Traced.bind_places, strcpy, value]
          refine ⟨by simp, fun p member => ?_⟩
          rw [List.mem_append, places] at member
          rcases member with ⟨k, _, upper, here⟩ | none
          · have place : p = .nodeName index.toNat k := by simpa [nodeChars] using here
            rw [place]
            exact ⟨by have := named.1; omega, by omega⟩
          · simp at none
        · exact absurd eZero (all e (Nat.zero_le _) (by omega))
  · exact ⟨by simp, by simp⟩

theorem Named.finddirLoop {st : Initrd} (named : Named st) (modStart modEnd : Word) (fuel : ℕ)
    (arg : Chars) (left i : ℕ) (budget : i + left = st.numFiles.toNat) :
    ∀ p ∈ (finddirLoop fuel st arg left i).places, InPlace modStart modEnd p := by
  induction left generalizing i with
  | zero =>
      intro p member
      simp [Initrd.finddirLoop] at member
  | succ left ih =>
      intro p member
      rw [Initrd.finddirLoop, Traced.bind_places, List.mem_append] at member
      rcases member with compared | rest
      · obtain ⟨j, jBound, jZero⟩ := named.2 i (by omega)
        obtain ⟨k, kBound, here⟩ := strcmp_places (nodeChars st i) (argumentChars arg)
          (j := j) jZero fuel p compared
        rcases here with inNode | inArgument
        · have place : p = .nodeName i k := by simpa [nodeChars] using inNode
          rw [place]
          exact ⟨by have := named.1; omega, by omega⟩
        · have place : p = .argument k := by simpa [argumentChars] using inArgument
          rw [place]
          trivial
      · split at rest
        · simp at rest
        · split at rest
          · simp at rest
          · exact ih (i + 1) (by omega) p rest

theorem Named.finddir {st : Initrd} (named : Named st) (modStart modEnd : Word) (fuel : ℕ)
    (n : NodeRef) (arg : Chars) :
    ∀ p ∈ (fsFinddir fuel st n arg).places, InPlace modStart modEnd p := by
  intro p member
  unfold fsFinddir initrdFinddir at member
  split at member
  · split at member
    · simp at member
    · exact named.finddirLoop modStart modEnd fuel arg _ 0 (by omega) p member
  · simp at member

/-! ## Mounting -/

/-- Offsets below 2^32 of a range that starts at the module. -/
theorem within_offset (location : Word) {size t : ℕ} (bound : t < 2 ^ 32) :
    Within location size (location + BitVec.ofNat 32 t) ↔ t < size := by
  have distance : (location + BitVec.ofNat 32 t - location).toNat = t := by
    rw [BitVec.add_comm, BitVec.add_sub_cancel, BitVec.toNat_ofNat]
    exact Nat.mod_eq_of_lt bound
  rw [Within, distance]

theorem within_header (location : Word) {size i k : ℕ} (iBound : i < 64) (kBound : k < nameSize) :
    Within location size (headerAt location i + BitVec.ofNat 32 k) ↔ 8 + 72 * i + k < size := by
  have field : nameSize = 128 := rfl
  rw [headerAt_eq, within_offset location (by omega)]

/-- All bytes of a file are in the module when its window is. -/
theorem within_data (location offset : Word) {size length : ℕ} (small : size < 2 ^ 32) :
    (∀ t < length, Within location size (location + offset + BitVec.ofNat 32 t)) ↔
      length = 0 ∨ offset.toNat + length ≤ size := by
  have distance : ∀ t, (location + offset + BitVec.ofNat 32 t - location).toNat =
      (offset.toNat + t) % 2 ^ 32 := by
    intro t
    have cancel : location + offset + BitVec.ofNat 32 t - location =
        offset + BitVec.ofNat 32 t := by grind
    rw [cancel, BitVec.toNat_add, BitVec.toNat_ofNat]
    omega
  have offsetBound := offset.isLt
  simp only [Within, distance]
  constructor
  · intro inside
    by_contra outside
    rw [not_or] at outside
    have first := inside 0 (by omega)
    have boundary := inside (size - offset.toNat) (by omega)
    omega
  · rintro (rfl | fits) t bound
    · omega
    · omega

section Safety

variable {m : Mem} {modStart modEnd : Word} {st st' : Initrd}

/-- What stays of a mount through later requests. -/
structure Mountedly (m : Mem) (location : Word) (st : Initrd) : Prop where
  count : st.numFiles.toNat = fileCount m location
  nodes : ∀ i < fileCount m location, Mounted m location i (st.nodes i)
  others : ∀ i, fileCount m location ≤ i → (st.nodes i).read = false
  root : st.rootNode.read = false

theorem mountedly_of_mounts {name : Chars} (mounts : Mounts m modStart { bss with
      location := modStart
      rootNode := { bss.rootNode with
        name := name, flags := fsDirectory, readdir := true, finddir := true } } st) :
    Mountedly m modStart st := by
  refine ⟨?_, mounts.nodes, ?_, ?_⟩
  · by_cases magic : ld32 m modStart = 0x5442524F
    · exact mounts.count magic
    · rw [mounts.unmounted magic, fileCount, if_neg magic]
      rfl
  · intro i beyond
    rw [mounts.others i beyond]
    rfl
  · rw [mounts.rootNode]
    rfl

theorem Mountedly.later (mounted : Mountedly m modStart st) (requests : Requests st st') :
    Mountedly m modStart st' := by
  obtain ⟨nodes, numFiles, rootNode⟩ := requests.frame
  obtain ⟨count, isMounted, others, root⟩ := mounted
  exact ⟨numFiles ▸ count, fun i bound => nodes ▸ isMounted i bound,
    fun i beyond => nodes ▸ others i beyond, rootNode ▸ root⟩

theorem Mountedly.named (mounted : Mountedly m modStart st) : Named st := by
  refine ⟨mounted.count ▸ fileCount_le m modStart, fun i bound => ?_⟩
  obtain ⟨j, ends, copied⟩ := (mounted.nodes i (mounted.count ▸ bound)).name
  exact ⟨j, ends.fits, (copied j (Nat.le_refl _)).trans ends.terminator⟩

/-- Which bytes a window of a mounted node reads. -/
theorem Mountedly.read_places (mounted : Mountedly m modStart st) {m' : Mem} {n : NodeRef}
    {offset size buffer : Word} {p : Place} (noWrap : NoWrap offset size)
    (member : p ∈ (fsRead st m' n offset size buffer).places) :
    ∃ i < fileCount m modStart, ∃ t < (ld32 m (headerAt modStart i + 68)).toNat,
      p = .memory (modStart + ld32 m (headerAt modStart i + 64) + BitVec.ofNat 32 t) := by
  obtain ⟨read, t, bound, place⟩ := fsRead_places noWrap member
  cases n with
  | root =>
      rw [node, mounted.root] at read
      contradiction
  | file i =>
      rw [node] at read bound place
      by_cases inTable : i < fileCount m modStart
      · have header := mounted.nodes i inTable
        rw [header.length] at bound
        rw [header.impl] at place
        exact ⟨i, inTable, t, bound, place⟩
      · rw [mounted.others i (by omega)] at read
        contradiction

/-- Mounting a well-formed image on any node table succeeds and reads only the image. -/
theorem WellFormed.mounts {location : Word} {size : ℕ} (wellFormed : WellFormed m location size)
    (st : Initrd) : ∃ st' name, (initrdInitialize m location st).val = some st' ∧
      Mounts m location { st with
        location := location
        rootNode := { st.rootNode with
          name := name, flags := fsDirectory, readdir := true, finddir := true } } st' ∧
      ∀ p ∈ (initrdInitialize m location st).places,
        (∃ k ≤ rootName.length, p = .literal k) ∨ ∃ a, p = .memory a ∧ Within location size a := by
  obtain ⟨magic, count, files⟩ := wellFormed
  have countBound := fileCount_le m location
  have field : nameSize = 128 := rfl
  rcases initrdInitialize_cases m location st with
    ⟨st', name, value, mounts, places⟩ | ⟨⟨i, inTable, bad⟩, _⟩
  · refine ⟨st', name, value, mounts, fun p member => ?_⟩
    rcases (places p).mp member with literal | (⟨k, bound, rfl⟩ |
      ⟨right, k, _, bound, rfl⟩) | ⟨i, j, inTable, ends, place⟩
    · exact Or.inl literal
    · exact Or.inr ⟨_, rfl, (within_offset location (by omega)).mpr (by omega)⟩
    · have := count right
      exact Or.inr ⟨_, rfl, (within_offset location (by omega)).mpr (by omega)⟩
    · right
      obtain ⟨header, ⟨j', ends', inside⟩, _⟩ := files i inTable
      rcases place with ⟨k, bound, rfl⟩ | ⟨k, _, bound, rfl⟩
      · have before : j ≤ j' := Nat.le_of_eq (ends'.unique ends)
        have jBound := ends'.fits
        exact ⟨_, rfl, (within_header location (by omega) (by omega)).mpr (by omega)⟩
      · exact ⟨_, rfl, (within_header location (by omega) (by omega)).mpr (by omega)⟩
  · obtain ⟨_, ⟨j, ends, _⟩, _⟩ := files i inTable
    exact absurd ends (bad j)

/-- The data of a file of a well-formed image is in the image. -/
theorem WellFormed.data {location : Word} {size : ℕ} (wellFormed : WellFormed m location size)
    (small : size < 2 ^ 32) {i : ℕ} (inTable : i < fileCount m location) {t : ℕ}
    (bound : t < (ld32 m (headerAt location i + 68)).toNat) : Within location size
      (location + ld32 m (headerAt location i + 64) + BitVec.ofNat 32 t) := by
  apply (within_data location _ small).mpr _ t bound
  exact (wellFormed.files i inTable).data.imp_left fun zero => by rw [zero]; rfl

/-- The reads of a harmless image bound its headers, names and data. -/
theorem wellFormed_of_harmless {modStart modEnd : Word}
    (harmless : Harmless NoWrap m modStart modEnd) :
    WellFormed m modStart (modEnd.toNat - modStart.toNat) := by
  have small : modEnd.toNat - modStart.toNat < 2 ^ 32 := by
    have := modEnd.isLt
    omega
  have countBound := fileCount_le m modStart
  have field : nameSize = 128 := rfl
  obtain ⟨namesFit, mountReads, readReads, _, _⟩ := harmless
  rcases initrdInitialize_cases m modStart bss with
    ⟨st, name, value, mounts, places⟩ | ⟨_, value⟩
  · have mounted := mountedly_of_mounts mounts
    have reads : ∀ {p}, MagicPlace m modStart p ∨ (∃ i j, i < fileCount m modStart ∧
        NameEnds m modStart i j ∧ HeaderPlace modStart i j p) → InPlace modStart modEnd p :=
      fun {p} place => mountReads p ((places p).mpr (Or.inr place))
    refine ⟨?_, ?_, ?_⟩
    · have last : Within modStart _ _ := reads (Or.inl (Or.inl ⟨3, by decide, rfl⟩))
      rwa [within_offset modStart (by simp)] at last
    · intro magic
      have last : Within modStart _ _ :=
        reads (Or.inl (Or.inr ⟨magic, 7, by decide, by decide, rfl⟩))
      rwa [within_offset modStart (by simp)] at last
    · intro i inTable
      obtain ⟨j, ends, _⟩ := (mounts.nodes i inTable).name
      have jBound := ends.fits
      refine ⟨?_, ⟨j, ends, ?_⟩, ?_⟩
      · have last : Within modStart _ _ :=
          reads (Or.inr ⟨i, j, inTable, ends, Or.inr ⟨71, by decide, by decide, rfl⟩⟩)
        rw [within_header modStart (by omega) (by omega)] at last
        omega
      · have last : Within modStart _ _ :=
          reads (Or.inr ⟨i, j, inTable, ends, Or.inl ⟨j, Nat.le_refl _, rfl⟩⟩)
        rwa [within_header modStart (by omega) ends.fits] at last
      · have zeroIff : ld32 m (headerAt modStart i + 68) = 0 ↔
            (ld32 m (headerAt modStart i + 68)).toNat = 0 := by
          rw [← BitVec.toNat_inj]
          rfl
        rw [zeroIff, ← within_data modStart _ small]
        intro t bound
        have header := mounted.nodes i inTable
        rw [← header.length] at bound
        have member := @fsRead_reaches st (.file i) m 0 header.read t bound
        have noWrap : NoWrap (BitVec.ofNat 32 t) 1 := by
          have lengthBound := (st.nodes i).length.isLt
          have one : (1 : Word).toNat = 1 := rfl
          rw [NoWrap, BitVec.toNat_ofNat, one]
          omega
        have inside : Within modStart _ _ :=
          readReads st value st .refl m (.file i) _ _ 0 noWrap _ member
        rw [node, header.impl] at inside
        exact inside
  · exact absurd value namesFit

theorem harmless_of_wellFormed {modStart modEnd : Word}
    (wellFormed : WellFormed m modStart (modEnd.toNat - modStart.toNat)) :
    Harmless NoWrap m modStart modEnd := by
  have small : modEnd.toNat - modStart.toNat < 2 ^ 32 := by
    have := modEnd.isLt
    omega
  obtain ⟨st, name, value, mounts, places⟩ := wellFormed.mounts bss
  have mounted := mountedly_of_mounts mounts
  have same : ∀ st₁, (initrdInitialize m modStart bss).val = some st₁ → st₁ = st := by
    intro st₁ value₁
    rw [value] at value₁
    exact (Option.some.inj value₁).symm
  refine ⟨by rw [value]; simp, ?_, ?_, ?_, ?_⟩
  · intro p member
    rcases places p member with ⟨k, bound, rfl⟩ | ⟨a, rfl, inside⟩
    · exact bound
    · exact inside
  · intro st₁ value₁ st₂ requests m' n offset size buffer noWrap p member
    cases same st₁ value₁
    obtain ⟨i, inTable, t, bound, rfl⟩ := (mounted.later requests).read_places noWrap member
    exact wellFormed.data small inTable bound
  · intro st₁ value₁ st₂ requests n index
    cases same st₁ value₁
    exact (mounted.later requests).named.readdir modStart modEnd n index
  · intro st₁ value₁ st₂ requests fuel n arg
    cases same st₁ value₁
    exact (mounted.later requests).named.finddir modStart modEnd fuel n arg

/-- With windows that do not wrap, exactly the well-formed images are harmless. -/
theorem harmless_iff_wellFormed (m : Mem) (modStart modEnd : Word) :
    Harmless NoWrap m modStart modEnd ↔
      WellFormed m modStart (modEnd.toNat - modStart.toNat) :=
  ⟨wellFormed_of_harmless, harmless_of_wellFormed⟩

end Safety

/-- What mkfs.py writes is well formed. -/
theorem wellFormed_of_packs {files : List File} {image : List Byte} {m : Mem} {location : Word}
    (packs : mkfs files = some image) (packable : Packable files)
    (loaded : Loaded m location image) : WellFormed m location image.length := by
  have layout := mkfs_layout packs
  obtain ⟨count, packsCount, countAt⟩ := layout.count
  have countLength := length_packU32 packsCount
  have countEnd := countAt.length_le (by rw [← List.length_pos_iff, countLength]; decide)
  obtain ⟨st, value, mounted⟩ := initrdInitialize_mounts layout loaded packable.noNul bss
  rw [packable.shown_eq] at mounted
  have visited : fileCount m location = files.length := by
    rcases initrdInitialize_cases m location bss with ⟨st', _, value', mounts, _⟩ | ⟨_, value'⟩
    · rw [value] at value'
      cases value'
      rw [← (mountedly_of_mounts mounts).count, mounted.count]
    · rw [value] at value'
      contradiction
  refine ⟨by omega, fun _ => by omega, fun i bound => ?_⟩
  rw [visited] at bound
  have found : files[i]? = some files[i] := List.getElem?_eq_getElem bound
  have short := packable.short _ (List.getElem_mem bound)
  have holds := layout_name_holds layout loaded found (packable.noNul _ (List.getElem_mem bound))
  rw [List.take_of_length_le short] at holds
  obtain ⟨offset, length, packsOffset, packsLength, headerAt⟩ := layout.header i _ found
  obtain ⟨offsetWord, lengthWord, dataSmall⟩ := layout_words layout loaded found
  have offsetSmall := (packU32_some packsOffset).1
  have headerLength : (paddedName files[i].name ++ offset ++ length).length = 72 := by
    rw [List.length_append, List.length_append, length_paddedName, length_packU32 packsOffset,
      length_packU32 packsLength]
  have headerEnd := headerAt.length_le (by rw [← List.length_pos_iff, headerLength]; decide)
  have field : nameSize = 128 := rfl
  refine ⟨by omega, ⟨files[i].name.length,
    ⟨by omega, fun _ inside => holds.ne_zero inside, holds.terminator⟩, by omega⟩, ?_⟩
  rw [offsetWord, lengthWord, BitVec.toNat_ofNat, BitVec.toNat_ofNat,
    Nat.mod_eq_of_lt offsetSmall, Nat.mod_eq_of_lt dataSmall]
  by_cases empty : files[i].data = []
  · left
    rw [empty]
    rfl
  · right
    exact (layout.data i _ found).length_le empty

/-- A module of eight bytes that announces one file. -/
def cutImage : List Byte := [0x4F, 0x52, 0x42, 0x54, 1, 0, 0, 0]

/-- Mounting reads the first byte of the name behind the end of the module. -/
theorem cut_image_not_harmless :
    ¬ ∀ m modStart modEnd, Harmless (fun _ _ => True) m modStart modEnd := by
  intro harmless
  have reads := (harmless (memoryWith 0x200000 cutImage) 0x200000 0x200008).mountReads
    (.memory 0x200008) (by decide +kernel)
  exact absurd reads (by decide)

end Initrd

end OrbitOs.Fs
