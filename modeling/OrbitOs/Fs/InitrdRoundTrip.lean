import OrbitOs.Fs.Initrd
import OrbitOs.Fs.Mkfs

/-!
# Mounting what mkfs.py wrote

The writer's offsets and the reader's addresses meet in `Layout`: header `i`
lies at offset 8 + 72 i and names the place of its data.  From that the three
operations answer for the packed list of files.
-/

set_option autoImplicit false

namespace OrbitOs.Fs

open OrbitOs.Machine OrbitOs.Kernel OrbitOs.Base

namespace Initrd

/-- The image stands in memory from `location` on. -/
def Loaded (m : Mem) (location : Word) (image : List Byte) : Prop :=
  ∀ k b, image[k]? = some b → m (location + BitVec.ofNat 32 k) = b

/-- What the file system answers when it serves a list of files. -/
structure Serves (files : List File) (location : Word) (image : List Byte) (st : Initrd) :
    Prop where
  readdir : ∀ i f, files[i]? = some f → ∃ st' entry,
    (fsReaddir st .root (BitVec.ofNat 32 i)).val = some (st', some entry) ∧
    Holds entry.name f.name ∧ entry.ino = BitVec.ofNat 32 i
  readdirEnd : ∀ index : Word, files.length ≤ index.toNat →
    (fsReaddir st .root index).val = some (st, none)
  finddir : ∀ arg x, Holds arg x → ∀ fuel, 64 ≤ fuel → ∃ answer,
    (fsFinddir fuel st .root arg).val = some answer ∧
    (∀ i, answer = some (.file i) ↔ ∃ f, files[i]? = some f ∧ f.name = x) ∧
    (answer = none ↔ ∀ f ∈ files, f.name ≠ x)
  read : ∀ i f, files[i]? = some f → (st.nodes i).length.toNat = f.data.length ∧
    ∀ m buffer, Loaded m location image →
      Apart buffer f.data.length (st.nodes i).impl f.data.length →
      ∃ m', (fsRead st m (.file i) 0 (st.nodes i).length buffer).val = (m', (st.nodes i).length) ∧
        (∀ k b, f.data[k]? = some b → m' (buffer + BitVec.ofNat 32 k) = b) ∧
        AgreeOff (Within buffer f.data.length) m m'

section Image

variable {m : Mem} {location : Word} {image : List Byte}

theorem Loaded.byte (loaded : Loaded m location image) {p : ℕ} {x : List Byte}
    (contains : ContainsAt image p x) {k : ℕ} (bound : k < x.length) :
    m (location + BitVec.ofNat 32 (p + k)) = x[k] := by
  apply loaded
  rw [contains.getElem? bound]
  exact List.getElem?_eq_getElem bound

/-- A packed number reads back. -/
theorem Loaded.word (loaded : Loaded m location image) {p n : ℕ} {x : List Byte}
    (packs : packU32 n = some x) (contains : ContainsAt image p x) :
    ld32 m (location + BitVec.ofNat 32 p) = BitVec.ofNat 32 n := by
  obtain ⟨small, rfl⟩ := packU32_some packs
  have bytes : ∀ q < 4, m (location + BitVec.ofNat 32 p + BitVec.ofNat 32 q) =
      BitVec.ofNat 8 (n / 2 ^ (8 * q)) := by
    intro q bound
    have here := loaded.byte contains (k := q) (by simpa using bound)
    rw [BitVec.add_assoc, ← BitVec.ofNat_add, here]
    rcases (by omega : q = 0 ∨ q = 1 ∨ q = 2 ∨ q = 3) with rfl | rfl | rfl | rfl
    · simp
    · rfl
    · rfl
    · rfl
  apply BitVec.eq_of_getLsbD_eq
  intro j bound
  rw [getLsbD_ld32 _ _ bound, bytes (j / 8) (by omega), BitVec.getLsbD_ofNat,
    BitVec.getLsbD_ofNat, Nat.testBit_div_two_pow, Nat.mod_add_div]
  have inByte : j % 8 < 8 := Nat.mod_lt _ (by simp)
  simp [bound, inByte]

theorem headerAt_eq (location : Word) (i k : ℕ) :
    headerAt location i + BitVec.ofNat 32 k = location + BitVec.ofNat 32 (8 + 72 * i + k) := by
  have split : BitVec.ofNat 32 (8 + 72 * i + k) =
      8 + 72 * BitVec.ofNat 32 i + BitVec.ofNat 32 k := by
    rw [BitVec.ofNat_add, BitVec.ofNat_add, BitVec.ofNat_mul]
    rfl
  rw [headerAt, split, BitVec.add_assoc, BitVec.add_assoc, BitVec.add_assoc]

/-- The padded name field holds as much of the name as it has room for. -/
theorem layout_name_holds {files : List File} (layout : Layout files image)
    (loaded : Loaded m location image) {i : ℕ} {f : File} (found : files[i]? = some f)
    (noNul : 0 ∉ f.name) :
    Holds (fun k => m (headerAt location i + BitVec.ofNat 32 k)) (f.name.take 63) := by
  obtain ⟨offset, length, _, _, here⟩ := layout.header i f found
  refine ⟨fun member => noNul (List.mem_of_mem_take member), fun k bound => ?_⟩
  have field : ContainsAt image (8 + 72 * i) (paddedName f.name) := by
    have first : ContainsAt (paddedName f.name ++ offset ++ length) 0 (paddedName f.name) := by
      rw [List.append_assoc]
      exact containsAt_self _ _
    exact here.part first
  have short := List.length_take_le 63 f.name
  have inField : k < (paddedName f.name).length := by
    rw [length_paddedName]
    omega
  dsimp only
  rw [headerAt_eq, loaded.byte field inField]
  rcases Nat.lt_or_eq_of_le bound with inside | atEnd
  · rw [List.getD_eq_getElem _ _ inside]
    exact List.getElem_append_left inside
  · rw [List.getD_eq_default _ _ (by omega)]
    simp only [paddedName]
    rw [List.getElem_append_right (by omega), List.getElem_replicate]

theorem layout_words {files : List File} (layout : Layout files image)
    (loaded : Loaded m location image) {i : ℕ} {f : File} (found : files[i]? = some f) :
    ld32 m (headerAt location i + 64) =
      BitVec.ofNat 32 (8 + 72 * files.length + dataStart files i) ∧
    ld32 m (headerAt location i + 68) = BitVec.ofNat 32 f.data.length ∧
    f.data.length < 2 ^ 32 := by
  obtain ⟨offset, length, packsOffset, packsLength, here⟩ := layout.header i f found
  have offsetAt : ContainsAt image (8 + 72 * i + 64) offset := by
    have inner := (containsAt_self offset length).append_left (paddedName f.name)
    rw [length_paddedName, ← List.append_assoc] at inner
    exact here.part inner
  have lengthAt : ContainsAt image (8 + 72 * i + 68) length := by
    have inner := (containsAt_self length []).append_left (paddedName f.name ++ offset)
    rw [List.length_append, length_paddedName, length_packU32 packsOffset, List.append_nil] at inner
    exact here.part inner
  have offsetWord := loaded.word packsOffset offsetAt
  have lengthWord := loaded.word packsLength lengthAt
  rw [← headerAt_eq] at offsetWord lengthWord
  exact ⟨offsetWord, lengthWord, (packU32_some packsLength).1⟩

/-- The node of a packed file. -/
theorem layout_mounted {files : List File} (layout : Layout files image)
    (loaded : Loaded m location image) {i : ℕ} {f : File} (found : files[i]? = some f)
    (noNul : 0 ∉ f.name) {n : FsNode} (mounted : Mounted m location i n) :
    Holds n.name (f.name.take 63) ∧ n.length = BitVec.ofNat 32 f.data.length ∧
    n.impl = location + BitVec.ofNat 32 (8 + 72 * files.length + dataStart files i) := by
  have holds := layout_name_holds layout loaded found noNul
  obtain ⟨offsetWord, lengthWord, _⟩ := layout_words layout loaded found
  obtain ⟨j, ends, copied⟩ := mounted.name
  have reaches : (f.name.take 63).length ≤ j := by
    by_contra shorter
    exact holds.ne_zero (by omega : j < (f.name.take 63).length) ends.terminator
  refine ⟨⟨holds.1, fun k bound => ?_⟩, ?_, ?_⟩
  · rw [copied k (by omega)]
    exact holds.2 k bound
  · rw [mounted.length, lengthWord]
  · rw [mounted.impl, offsetWord]

end Image

/-! ## Mounting -/

/-- The static variables after a successful mount of `files`. -/
structure MountedFiles (files : List File) (m : Mem) (location : Word) (st : Initrd) : Prop where
  count : st.numFiles.toNat = files.length
  nodes : ∀ i < files.length, Mounted m location i (st.nodes i)
  isDirectory : st.rootNode.flags = fsDirectory
  readdir : st.rootNode.readdir = true
  finddir : st.rootNode.finddir = true

variable {m : Mem} {location : Word} {image : List Byte} {files : List File}

/-- A list of files that mkfs.py can pack without losing anything. -/
structure Packable (files : List File) : Prop where
  count : files.length ≤ 64
  short : ∀ f ∈ files, f.name.length ≤ 63
  noNul : ∀ f ∈ files, 0 ∉ f.name
  distinct : (files.map File.name).Nodup

/-- What the mounted system can show of a packed list: 64 files under the first
63 bytes of their names. -/
def shown (files : List File) : List File :=
  (files.take 64).map fun f => ⟨f.name.take 63, f.data⟩

theorem Packable.shown_eq (packable : Packable files) : shown files = files := by
  have all : files.take 64 = files := List.take_of_length_le packable.count
  have same : ∀ f ∈ files, (⟨f.name.take 63, f.data⟩ : File) = f := by
    intro f member
    rw [List.take_of_length_le (packable.short f member)]
  rw [shown, all, List.map_congr_left same, List.map_id']

theorem length_shown (files : List File) : (shown files).length = min 64 files.length := by
  rw [shown, List.length_map, List.length_take]

theorem shown_short {g : File} (member : g ∈ shown files) : g.name.length ≤ 63 := by
  obtain ⟨f, -, rfl⟩ := List.mem_map.mp member
  exact List.length_take_le 63 f.name

/-- A file that is shown, and the packed file it comes from. -/
theorem shown_getElem? {i : ℕ} {g : File} (found : (shown files)[i]? = some g) :
    i < 64 ∧ ∃ f, files[i]? = some f ∧ g = ⟨f.name.take 63, f.data⟩ := by
  rw [shown, List.getElem?_map] at found
  obtain ⟨f, packed, same⟩ := Option.map_eq_some_iff.mp found
  have bound := (List.getElem?_eq_some_iff.mp packed).1
  rw [List.length_take] at bound
  rw [List.getElem?_take_of_lt (by omega)] at packed
  exact ⟨by omega, f, packed, same.symm⟩

theorem initrdInitialize_mounts (layout : Layout files image) (loaded : Loaded m location image)
    (noNul : ∀ f ∈ files, 0 ∉ f.name) (st : Initrd) :
    ∃ st', (initrdInitialize m location st).val = some st' ∧
      MountedFiles (shown files) m location st' := by
  have magic : ld32 m location = 0x5442524F := by
    have packs : packU32 0x5442524F = some [0x4F, 0x52, 0x42, 0x54] := by decide
    simpa using loaded.word packs layout.magic
  have count : fileCount m location = (shown files).length := by
    obtain ⟨count, packs, countAt⟩ := layout.count
    have numFiles : ld32 m (location + 4) = BitVec.ofNat 32 files.length :=
      loaded.word packs countAt
    have cap : maxFiles.toNat = 64 := rfl
    have toNat : (BitVec.ofNat 32 files.length).toNat = files.length := by
      rw [BitVec.toNat_ofNat, Nat.mod_eq_of_lt (packU32_some packs).1]
    rw [fileCount, if_pos magic, numFiles, length_shown]
    by_cases capped : BitVec.ofNat 32 files.length > maxFiles
    · rw [if_pos capped, cap]
      rw [gt_iff_lt, BitVec.lt_def, toNat, cap] at capped
      omega
    · rw [if_neg capped, toNat]
      rw [gt_iff_lt, BitVec.lt_def, toNat, cap] at capped
      omega
  rcases initrdInitialize_cases m location st with
    ⟨st', name, value, mounts, _⟩ | ⟨⟨i, bound, bad⟩, _⟩
  · refine ⟨st', value, ?_, ?_, ?_, ?_, ?_⟩
    · rw [mounts.count magic, count]
    · intro i bound
      exact mounts.nodes i (count ▸ bound)
    · rw [mounts.rootNode]
    · rw [mounts.rootNode]
    · rw [mounts.rootNode]
  · rw [count, length_shown] at bound
    have inFiles : i < files.length := by omega
    have holds := layout_name_holds layout loaded (List.getElem?_eq_getElem inFiles)
      (noNul _ (List.getElem_mem inFiles))
    have short := List.length_take_le 63 files[i].name
    have size : nameSize = 128 := rfl
    exact absurd ⟨by omega, fun _ inside => holds.ne_zero inside, holds.terminator⟩
      (bad (files[i].name.take 63).length)

/-! ## The requests -/

theorem MountedFiles.later {st st' : Initrd} (mounted : MountedFiles files m location st)
    (requests : Requests st st') : MountedFiles files m location st' := by
  obtain ⟨nodes, numFiles, rootNode⟩ := requests.frame
  obtain ⟨count, isMounted, isDirectory, readdir, finddir⟩ := mounted
  refine ⟨numFiles ▸ count, fun i bound => ?_, rootNode ▸ isDirectory, rootNode ▸ readdir,
    rootNode ▸ finddir⟩
  rw [nodes]
  exact isMounted i bound

theorem lt_of_getElem?_eq_some {i : ℕ} {f : File} (found : files[i]? = some f) :
    i < files.length := (List.getElem?_eq_some_iff.mp found).1

theorem MountedFiles.fsReaddir_none {st : Initrd} (mounted : MountedFiles files m location st)
    {index : Word} (beyond : files.length ≤ index.toNat) :
    (fsReaddir st .root index).val = some (st, none) := by
  have outside : index ≥ st.numFiles := by
    rw [ge_iff_le, BitVec.le_def, mounted.count]
    exact beyond
  unfold fsReaddir initrdReaddir
  rw [if_pos ⟨by rw [node, mounted.isDirectory]; rfl, mounted.readdir⟩, if_neg (by simp),
    if_pos outside]
  rfl

/-! ## The search for a name -/

/-- The names of the mounted nodes, in order. -/
structure NodesNamed (st : Initrd) (names : List (List Byte)) : Prop where
  count : st.numFiles.toNat = names.length
  holds : ∀ (i : ℕ) (x : List Byte), names[i]? = some x → Holds (st.nodes i).name x

/-- The first file of that name. -/
def firstNamed (names : List (List Byte)) (x : List Byte) : Option NodeRef :=
  (names.findIdx? fun y => y = x).map NodeRef.file

section Search

variable {st : Initrd} {names : List (List Byte)} (named : NodesNamed st names)
  {arg : Chars} {x : List Byte} (holds : Holds arg x) {fuel : ℕ}
  (enough : ∀ y ∈ names, y.length < fuel)

include named holds enough

/-- The search from file `i` on. -/
theorem NodesNamed.finddirLoop (left i : ℕ) (budget : i + left = names.length) :
    (finddirLoop fuel st arg left i).val =
      some (((names.drop i).findIdx? fun y => y = x).map fun k => .file (i + k)) := by
  induction left generalizing i with
  | zero =>
      rw [List.drop_of_length_le (by omega)]
      rfl
  | succ left ih =>
      have bound : i < names.length := by omega
      obtain ⟨r, compared, equal⟩ := @strcmp_holds Place (nodeChars st i) (argumentChars arg)
        names[i] x (named.holds i _ (List.getElem?_eq_getElem bound)) holds fuel
        (enough _ (List.getElem_mem bound))
      rw [Initrd.finddirLoop, List.drop_eq_getElem_cons bound, List.findIdx?_cons]
      simp only [Traced.bind_val, compared]
      by_cases same : names[i] = x
      · rw [if_pos (equal.mpr same), if_pos (decide_eq_true same)]
        rfl
      · have notHere : decide (names[i] = x) = false := decide_eq_false same
        rw [if_neg (mt equal.mp same), ih (i + 1) (by omega), notHere, if_neg (by simp),
          Option.map_map]
        congr 2
        funext k
        simp [Nat.add_assoc, Nat.add_comm 1 k]

theorem NodesNamed.fsFinddir (isDirectory : st.rootNode.flags = fsDirectory)
    (finddir : st.rootNode.finddir = true) :
    (fsFinddir fuel st .root arg).val = some (firstNamed names x) := by
  unfold Initrd.fsFinddir initrdFinddir firstNamed
  rw [if_pos ⟨by rw [node, isDirectory]; rfl, finddir⟩, if_neg (by simp), named.count,
    named.finddirLoop holds enough names.length 0 (Nat.zero_add _), List.drop_zero]
  simp only [Nat.zero_add]

end Search

theorem firstNamed_file {names : List (List Byte)} {x : List Byte} {n : NodeRef}
    (found : firstNamed names x = some n) : ∃ i, n = .file i := by
  obtain ⟨i, -, same⟩ := Option.map_eq_some_iff.mp found
  exact ⟨i, same.symm⟩

theorem firstNamed_eq_none_iff {names : List (List Byte)} {x : List Byte} :
    firstNamed names x = none ↔ x ∉ names := by
  unfold firstNamed
  rw [Option.map_eq_none_iff, List.findIdx?_eq_none_iff]
  constructor
  · intro absent member
    exact of_decide_eq_false (absent x member) rfl
  · intro absent y member
    exact decide_eq_false fun same => absent (same ▸ member)

theorem firstNamed_eq_some_iff {names : List (List Byte)} {x : List Byte} {i : ℕ} :
    firstNamed names x = some (.file i) ↔
      names[i]? = some x ∧ ∀ k < i, names[k]? ≠ some x := by
  unfold firstNamed
  rw [Option.map_eq_some_iff]
  constructor
  · rintro ⟨k, found, same⟩
    cases same
    obtain ⟨bound, here, before⟩ := List.findIdx?_eq_some_iff_getElem.mp found
    refine ⟨by rw [List.getElem?_eq_getElem bound, of_decide_eq_true here], fun j earlier at_ => ?_⟩
    rw [List.getElem?_eq_getElem (by omega)] at at_
    exact before j earlier (decide_eq_true (Option.some.inj at_))
  · rintro ⟨here, before⟩
    obtain ⟨bound, here⟩ := List.getElem?_eq_some_iff.mp here
    refine ⟨i, List.findIdx?_eq_some_iff_getElem.mpr
      ⟨bound, decide_eq_true here, fun j earlier named => ?_⟩, rfl⟩
    apply before j earlier
    rw [List.getElem?_eq_getElem (by omega), of_decide_eq_true named]

/-! ## The answers for the files that are shown -/

/-- What the file system answers for a list of files, of which several may have
the same name. -/
structure Shows (files : List File) (location : Word) (image : List Byte) (st : Initrd) :
    Prop where
  readdir : ∀ i f, files[i]? = some f → ∃ st' entry,
    (fsReaddir st .root (BitVec.ofNat 32 i)).val = some (st', some entry) ∧
    Holds entry.name f.name ∧ entry.ino = BitVec.ofNat 32 i
  readdirEnd : ∀ index : Word, files.length ≤ index.toNat →
    (fsReaddir st .root index).val = some (st, none)
  finddir : ∀ arg x, Holds arg x → ∀ fuel, 64 ≤ fuel →
    (fsFinddir fuel st .root arg).val = some (firstNamed (files.map File.name) x)
  read : ∀ i f, files[i]? = some f → (st.nodes i).length.toNat = f.data.length ∧
    ∀ m buffer, Loaded m location image →
      Apart buffer f.data.length (st.nodes i).impl f.data.length →
      ∃ m', (fsRead st m (.file i) 0 (st.nodes i).length buffer).val = (m', (st.nodes i).length) ∧
        (∀ k b, f.data[k]? = some b → m' (buffer + BitVec.ofNat 32 k) = b) ∧
        AgreeOff (Within buffer f.data.length) m m'

section Answers

variable {st : Initrd} (layout : Layout files image) (loaded : Loaded m location image)
  (noNul : ∀ f ∈ files, 0 ∉ f.name) (mounted : MountedFiles (shown files) m location st)

include layout loaded noNul mounted

theorem node_holds {i : ℕ} {g : File} (found : (shown files)[i]? = some g) :
    Holds (st.nodes i).name g.name := by
  have bound := lt_of_getElem?_eq_some found
  obtain ⟨_, f, packed, rfl⟩ := shown_getElem? found
  exact (layout_mounted layout loaded packed (noNul f (List.mem_of_getElem? packed))
    (mounted.nodes i bound)).1

theorem fsReaddir_some {i : ℕ} {g : File} (found : (shown files)[i]? = some g) :
    ∃ st' entry, (fsReaddir st .root (BitVec.ofNat 32 i)).val = some (st', some entry) ∧
      Holds entry.name g.name ∧ entry.ino = BitVec.ofNat 32 i := by
  have bound := lt_of_getElem?_eq_some found
  have count := (shown_getElem? found).1
  have named := node_holds layout loaded noNul mounted found
  have short := shown_short (List.mem_of_getElem? found)
  have index : (BitVec.ofNat 32 i).toNat = i := by
    rw [BitVec.toNat_ofNat]
    omega
  have inTable : ¬ BitVec.ofNat 32 i ≥ st.numFiles := by
    rw [ge_iff_le, BitVec.le_def, index, mounted.count]
    omega
  have size : nameSize = 128 := rfl
  obtain ⟨name, copied, holds⟩ := @strcpy_holds Place nameSize st.dirCache.name (nodeChars st i)
    g.name named (by omega)
  refine ⟨{ st with dirCache := ⟨name, (st.nodes i).inode⟩ }, ⟨name, (st.nodes i).inode⟩, ?_, holds,
    ?_⟩
  · unfold fsReaddir initrdReaddir
    rw [if_pos ⟨by rw [node, mounted.isDirectory]; rfl, mounted.readdir⟩, if_neg (by simp),
      if_neg inTable]
    simp only [Traced.bind_val, index, copied]
    rfl
  · exact (mounted.nodes i bound).inode

theorem nodesNamed_shown : NodesNamed st ((shown files).map File.name) where
  count := by rw [mounted.count, List.length_map]
  holds := by
    intro i x found
    rw [List.getElem?_map] at found
    obtain ⟨g, atIndex, rfl⟩ := Option.map_eq_some_iff.mp found
    exact node_holds layout loaded noNul mounted atIndex

theorem fsFinddir_first {arg : Chars} {x : List Byte} (holds : Holds arg x) {fuel : ℕ}
    (enough : 64 ≤ fuel) : (fsFinddir fuel st .root arg).val =
      some (firstNamed ((shown files).map File.name) x) := by
  refine (nodesNamed_shown layout loaded noNul mounted).fsFinddir holds (fun y member => ?_)
    mounted.isDirectory mounted.finddir
  obtain ⟨g, inShown, rfl⟩ := List.mem_map.mp member
  have short := shown_short inShown
  omega

/-- Reading a whole file copies its bytes and nothing else. -/
theorem fsRead_answer {i : ℕ} {g : File} (found : (shown files)[i]? = some g) :
    (st.nodes i).length.toNat = g.data.length ∧
    ∀ m buffer, Loaded m location image →
      Apart buffer g.data.length (st.nodes i).impl g.data.length →
      ∃ m', (fsRead st m (.file i) 0 (st.nodes i).length buffer).val = (m', (st.nodes i).length) ∧
        (∀ k b, g.data[k]? = some b → m' (buffer + BitVec.ofNat 32 k) = b) ∧
        AgreeOff (Within buffer g.data.length) m m' := by
  have bound := lt_of_getElem?_eq_some found
  obtain ⟨_, f, packed, rfl⟩ := shown_getElem? found
  dsimp only
  obtain ⟨_, length, impl⟩ := layout_mounted layout loaded packed
    (noNul f (List.mem_of_getElem? packed)) (mounted.nodes i bound)
  have lengthToNat : (st.nodes i).length.toNat = f.data.length := by
    rw [length, BitVec.toNat_ofNat, Nat.mod_eq_of_lt (layout_words layout loaded packed).2.2]
  refine ⟨lengthToNat, fun m' buffer stillLoaded apart => ?_⟩
  unfold fsRead initrdRead
  rw [if_pos (by rw [node]; exact (mounted.nodes i bound).read)]
  rw [node]
  by_cases empty : (0 : Word) ≥ (st.nodes i).length
  · have zero : (st.nodes i).length = 0 := by
      apply BitVec.eq_of_toNat_eq
      rw [ge_iff_le, BitVec.le_def] at empty
      exact Nat.le_zero.mp empty
    have noData : f.data = [] := by
      rw [zero] at lengthToNat
      exact List.length_eq_zero_iff.mp lengthToNat.symm
    rw [if_pos empty, zero, noData]
    exact ⟨m', rfl, by simp, AgreeOff.refl _ _⟩
  · have unclamped : ¬ ((0 : Word) + (st.nodes i).length > (st.nodes i).length) := by
      rw [show (0 : Word) + (st.nodes i).length = (st.nodes i).length from BitVec.zero_add _,
        gt_iff_lt, BitVec.lt_def]
      exact Nat.lt_irrefl _
    have start : (st.nodes i).impl + (0 : Word) = (st.nodes i).impl := BitVec.add_zero _
    rw [if_neg empty]
    simp only [if_neg unclamped, start]
    refine ⟨_, rfl, ?_, ?_⟩
    · intro k b data
      have kBound : k < f.data.length := (List.getElem?_eq_some_iff.mp data).1
      rw [← lengthToNat] at apart kBound
      rw [memcpy_byte m' apart kBound, impl, BitVec.add_assoc, ← BitVec.ofNat_add]
      apply stillLoaded
      rw [(layout.data i f packed).getElem? (lengthToNat ▸ kBound)]
      exact data
    · rw [← lengthToNat]
      exact memcpy_agreeOff _ _ _ _

end Answers

/-- Whatever mkfs.py packed, the mounted system serves the files it can show. -/
theorem initrdInitialize_shows (packs : mkfs files = some image)
    (noNul : ∀ f ∈ files, 0 ∉ f.name) (loaded : Loaded m location image) (st : Initrd) :
    ∃ mounted, (initrdInitialize m location st).val = some mounted ∧
      ∀ later, Requests mounted later →
        MountedFiles (shown files) m location later ∧ Shows (shown files) location image later := by
  have layout := mkfs_layout packs
  obtain ⟨mounted, value, isMounted⟩ := initrdInitialize_mounts layout loaded noNul st
  refine ⟨mounted, value, fun later requests => ?_⟩
  have stays := isMounted.later requests
  exact ⟨stays, fun i g found => fsReaddir_some layout loaded noNul stays found,
    fun index beyond => stays.fsReaddir_none beyond,
    fun arg x holds fuel enough => fsFinddir_first layout loaded noNul stays holds enough,
    fun i g found => fsRead_answer layout loaded noNul stays found⟩

/-- Among distinct names the first of a name is the only one. -/
theorem Shows.serves {st : Initrd} (shows : Shows files location image st)
    (distinct : (files.map File.name).Nodup) : Serves files location image st := by
  refine ⟨shows.readdir, shows.readdirEnd, fun arg x holds fuel enough => ?_, shows.read⟩
  refine ⟨_, shows.finddir arg x holds fuel enough, fun i => ?_, ?_⟩
  · have named : (files.map File.name)[i]? = some x ↔ ∃ f, files[i]? = some f ∧ f.name = x := by
      rw [List.getElem?_map, Option.map_eq_some_iff]
    rw [firstNamed_eq_some_iff, ← named]
    refine ⟨And.left, fun here => ⟨here, fun k earlier again => ?_⟩⟩
    have bound := (List.getElem?_eq_some_iff.mp again).1
    exact absurd ((List.getElem?_inj bound distinct).mp (again.trans here.symm)) (by omega)
  · rw [firstNamed_eq_none_iff, List.mem_map]
    exact ⟨fun absent f member same => absent ⟨f, member, same⟩,
      fun absent ⟨f, member, same⟩ => absent f member same⟩

/-- Encode and decode: what mkfs.py writes for a list of files is served as that
list after mounting, however many directory entries were read before. -/
theorem initrdInitialize_serves (packs : mkfs files = some image) (packable : Packable files)
    (loaded : Loaded m location image) (st : Initrd) :
    ∃ mounted, (initrdInitialize m location st).val = some mounted ∧
      ∀ later, Requests mounted later → Serves files location image later := by
  obtain ⟨mounted, value, shows⟩ := initrdInitialize_shows packs packable.noNul loaded st
  refine ⟨mounted, value, fun later requests => ?_⟩
  have whole := (shows later requests).2
  rw [packable.shown_eq] at whole
  exact whole.serves packable.distinct

/-- A memory that holds a list of bytes from an address on. -/
def memoryWith (location : Word) (image : List Byte) : Mem :=
  fun x => image.getD (x - location).toNat 0

theorem loaded_memoryWith (location : Word) (image : List Byte) (fits : image.length ≤ 2 ^ 32) :
    Loaded (memoryWith location image) location image := by
  intro k b found
  have bound := (List.getElem?_eq_some_iff.mp found).1
  have distance : (location + BitVec.ofNat 32 k - location).toNat = k := by
    rw [BitVec.add_comm, BitVec.add_sub_cancel, BitVec.toNat_ofNat]
    exact Nat.mod_eq_of_lt (by omega)
  rw [memoryWith, distance, List.getD_eq_getElem?_getD, found]
  rfl

/-- The files `a` (two bytes) and `bc` (empty). -/
def twoFiles : List File := [⟨[0x61], [0x68, 0x69]⟩, ⟨[0x62, 0x63], []⟩]

theorem initrdInitialize_serves_twoFiles :
    ∃ image, mkfs twoFiles = some image ∧
      ∃ mounted, (initrdInitialize (memoryWith 0x200000 image) 0x200000 bss).val = some mounted ∧
        ∀ later, Requests mounted later → Serves twoFiles 0x200000 image later := by
  obtain ⟨image, packs, small⟩ : ∃ image, mkfs twoFiles = some image ∧ image.length = 154 :=
    ⟨_, rfl, rfl⟩
  have packable : Packable twoFiles := ⟨by decide, by decide, by decide, by decide⟩
  exact ⟨image, packs, initrdInitialize_serves packs packable
    (loaded_memoryWith _ _ (by omega)) bss⟩

end Initrd

end OrbitOs.Fs
