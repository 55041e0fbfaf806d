import Mathlib.Logic.Relation
import OrbitOs.Kernel.CString
import OrbitOs.Kernel.CopyFill

/-!
# The initial ramdisk of fs/initrd.c

The image is read from memory; the node table and the directory cache are the
static variables of the source.  Every function logs the bytes it reads, and a
name that does not fit its 128-byte field makes the result `none`.
-/

set_option autoImplicit false

namespace OrbitOs.Fs

open OrbitOs.Machine OrbitOs.Kernel OrbitOs.Base

/-- What a read refers to. -/
inductive Place
  | memory (a : Word)
  /-- `initrd_nodes[i].name[k]` -/
  | nodeName (i k : ℕ)
  /-- A byte of the string a caller passes to `fs_finddir`. -/
  | argument (k : ℕ)
  | literal (k : ℕ)
  deriving DecidableEq

/-- `FS_FILE` -/
def fsFile : Word := 0x01

/-- `FS_DIRECTORY` -/
def fsDirectory : Word := 0x02

/-- `MAX_FILES` -/
def maxFiles : Word := 64

/-- `sizeof(node->name)` and `sizeof(dir_cache.name)` -/
def nameSize : ℕ := 128

/-- The fields of `fs_node_t` that the file system uses; a function pointer is
null or the function of initrd.c for that operation. -/
structure FsNode where
  name : Chars
  flags : Word
  inode : Word
  length : Word
  impl : Word
  read : Bool
  readdir : Bool
  finddir : Bool

structure Dirent where
  name : Chars
  ino : Word

/-- The static variables of initrd.c. -/
structure Initrd where
  nodes : ℕ → FsNode
  numFiles : Word
  rootNode : FsNode
  location : Word
  dirCache : Dirent

/-- `&root_node` and `&initrd_nodes[i]` -/
inductive NodeRef
  | root
  | file (i : ℕ)
  deriving DecidableEq

namespace Initrd

def emptyNode : FsNode := ⟨fun _ => 0, 0, 0, 0, 0, false, false, false⟩

/-- The static variables before the first call. -/
def bss : Initrd := ⟨fun _ => emptyNode, 0, emptyNode, 0, ⟨fun _ => 0, 0⟩⟩

def node (st : Initrd) : NodeRef → FsNode
  | .root => st.rootNode
  | .file i => st.nodes i

/-! ## The source -/

/-- `"root"` -/
def rootName : List Byte := [0x72, 0x6F, 0x6F, 0x74]

def literalChars (x : List Byte) (k : ℕ) : Traced Place Byte := .access (.literal k) (x.getD k 0)

def memoryChars (m : Mem) (p : Word) (k : ℕ) : Traced Place Byte :=
  .access (.memory (p + BitVec.ofNat 32 k)) (m (p + BitVec.ofNat 32 k))

def nodeChars (st : Initrd) (i k : ℕ) : Traced Place Byte :=
  .access (.nodeName i k) ((st.nodes i).name k)

def argumentChars (arg : Chars) (k : ℕ) : Traced Place Byte := .access (.argument k) (arg k)

def loadWord (m : Mem) (a : Word) : Traced Place Word :=
  ⟨ld32 m a, [.memory a, .memory (a + 1), .memory (a + 2), .memory (a + 3)]⟩

/-- `&file_headers[i]` -/
def headerAt (location : Word) (i : ℕ) : Word := location + 8 + 72 * BitVec.ofNat 32 i

/-- The body of the loop over the file headers. -/
def mountFile (m : Mem) (location : Word) (i : ℕ) (st : Initrd) : Traced Place (Option Initrd) := do
  let name ← strcpy nameSize (st.nodes i).name (memoryChars m (headerAt location i))
  match name with
  | none => return none
  | some name =>
    let length ← loadWord m (headerAt location i + 68)
    let offset ← loadWord m (headerAt location i + 64)
    return some { st with
      nodes := Function.update st.nodes i { st.nodes i with
        name := name
        flags := fsFile
        length := length
        impl := location + offset
        inode := BitVec.ofNat 32 i
        read := true } }

/-- `for (i = ..; i < num_files; i++)` with `left` iterations to go. -/
def mountFiles (m : Mem) (location : Word) : ℕ → ℕ → Initrd → Traced Place (Option Initrd)
  | 0, _, st => return some st
  | left + 1, i, st => do
    match ← mountFile m location i st with
    | none => return none
    | some st => mountFiles m location left (i + 1) st

/-- The part of `initrd_initialize` that looks at the image. -/
def mountImage (m : Mem) (location : Word) (st : Initrd) : Traced Place (Option Initrd) := do
  let magic ← loadWord m location
  if magic ≠ 0x5442524F then return some st
  else
    let numFiles ← loadWord m (location + 4)
    let numFiles := if numFiles > maxFiles then maxFiles else numFiles
    mountFiles m location numFiles.toNat 0 { st with numFiles := numFiles }

def initrdInitialize (m : Mem) (location : Word) (st : Initrd) : Traced Place (Option Initrd) := do
  let name ← strcpy nameSize st.rootNode.name (literalChars rootName)
  match name with
  | none => return none
  | some name =>
    mountImage m location { st with
      location := location
      rootNode := { st.rootNode with
        name := name, flags := fsDirectory, readdir := true, finddir := true } }

/-- The bytes `memcpy` reads. -/
def memcpyPlaces (source num : Word) : List Place :=
  (List.range num.toNat).map fun k => .memory (source + BitVec.ofNat 32 k)

def initrdRead (m : Mem) (n : FsNode) (offset size buffer : Word) : Traced Place (Mem × Word) :=
  if offset ≥ n.length then return (m, 0)
  else
    let size := if offset + size > n.length then n.length - offset else size
    let data := n.impl + offset
    ⟨(memcpy m buffer data size, size), memcpyPlaces data size⟩

/-- A successful call leaves its answer in `dir_cache`. -/
def initrdReaddir (st : Initrd) (n : NodeRef) (index : Word) :
    Traced Place (Option (Initrd × Option Dirent)) :=
  if n ≠ .root then return some (st, none)
  else if index ≥ st.numFiles then return some (st, none)
  else do
    let name ← strcpy nameSize st.dirCache.name (nodeChars st index.toNat)
    match name with
    | none => return none
    | some name =>
      let entry := ⟨name, (st.nodes index.toNat).inode⟩
      return some ({ st with dirCache := entry }, some entry)

/-- `for (i = ..; i < num_files; i++)`; `none` means that `strcmp` ran out of fuel. -/
def finddirLoop (fuel : ℕ) (st : Initrd) (name : Chars) :
    ℕ → ℕ → Traced Place (Option (Option NodeRef))
  | 0, _ => return some none
  | left + 1, i => do
    match ← strcmp fuel (nodeChars st i) (argumentChars name) with
    | none => return none
    | some r =>
      if r = 0 then return some (some (.file i)) else finddirLoop fuel st name left (i + 1)

def initrdFinddir (fuel : ℕ) (st : Initrd) (n : NodeRef) (name : Chars) :
    Traced Place (Option (Option NodeRef)) :=
  if n ≠ .root then return some none else finddirLoop fuel st name st.numFiles.toNat 0

/-- `fs_read` of fs/fs.c. -/
def fsRead (st : Initrd) (m : Mem) (n : NodeRef) (offset size buffer : Word) :
    Traced Place (Mem × Word) :=
  if (st.node n).read then initrdRead m (st.node n) offset size buffer else return (m, 0)

/-- `fs_readdir` of fs/fs.c. -/
def fsReaddir (st : Initrd) (n : NodeRef) (index : Word) :
    Traced Place (Option (Initrd × Option Dirent)) :=
  if (st.node n).flags &&& 0x07 = fsDirectory ∧ (st.node n).readdir then initrdReaddir st n index
  else return some (st, none)

/-- `fs_finddir` of fs/fs.c. -/
def fsFinddir (fuel : ℕ) (st : Initrd) (n : NodeRef) (name : Chars) :
    Traced Place (Option (Option NodeRef)) :=
  if (st.node n).flags &&& 0x07 = fsDirectory ∧ (st.node n).finddir then
    initrdFinddir fuel st n name
  else return some none

/-! ## What mounting does -/

/-- The name field of header `i` ends with its first NUL at offset `j`. -/
structure NameEnds (m : Mem) (location : Word) (i j : ℕ) : Prop where
  fits : j < nameSize
  before : ∀ k < j, m (headerAt location i + BitVec.ofNat 32 k) ≠ 0
  terminator : m (headerAt location i + BitVec.ofNat 32 j) = 0

theorem NameEnds.unique {m : Mem} {location : Word} {i j j' : ℕ} (ends : NameEnds m location i j)
    (ends' : NameEnds m location i j') : j' = j := by
  rcases Nat.lt_trichotomy j' j with earlier | same | later
  · exact absurd ends'.terminator (ends.before j' earlier)
  · exact same
  · exact absurd ends.terminator (ends'.before j later)

/-- The node of header `i`. -/
structure Mounted (m : Mem) (location : Word) (i : ℕ) (n : FsNode) : Prop where
  name : ∃ j, NameEnds m location i j ∧
    ∀ k ≤ j, n.name k = m (headerAt location i + BitVec.ofNat 32 k)
  flags : n.flags = fsFile
  length : n.length = ld32 m (headerAt location i + 68)
  impl : n.impl = location + ld32 m (headerAt location i + 64)
  inode : n.inode = BitVec.ofNat 32 i
  read : n.read = true

/-- The bytes of header `i` that mounting reads when its name ends at `j`. -/
def HeaderPlace (location : Word) (i j : ℕ) (p : Place) : Prop :=
  (∃ k ≤ j, p = .memory (headerAt location i + BitVec.ofNat 32 k)) ∨
  ∃ k, 64 ≤ k ∧ k < 72 ∧ p = .memory (headerAt location i + BitVec.ofNat 32 k)

theorem mem_loadWord_places {m : Mem} {a : Word} {p : Place} :
    p ∈ (loadWord m a).places ↔ ∃ k < 4, p = .memory (a + BitVec.ofNat 32 k) := by
  simp only [loadWord, List.mem_cons, List.not_mem_nil, or_false]
  constructor
  · rintro (rfl | rfl | rfl | rfl)
    · exact ⟨0, by decide, by simp⟩
    · exact ⟨1, by decide, rfl⟩
    · exact ⟨2, by decide, rfl⟩
    · exact ⟨3, by decide, rfl⟩
  · rintro ⟨k, bound, rfl⟩
    rcases (by omega : k = 0 ∨ k = 1 ∨ k = 2 ∨ k = 3) with rfl | rfl | rfl | rfl <;> simp

theorem mem_loadWord_offset {m : Mem} {a : Word} {o : ℕ} {p : Place} :
    p ∈ (loadWord m (a + BitVec.ofNat 32 o)).places ↔
      ∃ k, o ≤ k ∧ k < o + 4 ∧ p = .memory (a + BitVec.ofNat 32 k) := by
  have shift : ∀ k, a + BitVec.ofNat 32 o + BitVec.ofNat 32 k = a + BitVec.ofNat 32 (o + k) := by
    intro k
    rw [BitVec.add_assoc, ← BitVec.ofNat_add]
  rw [mem_loadWord_places]
  constructor
  · rintro ⟨k, bound, rfl⟩
    exact ⟨o + k, by omega, by omega, congrArg Place.memory (shift k)⟩
  · rintro ⟨k, lower, upper, rfl⟩
    obtain ⟨k', rfl⟩ := Nat.exists_eq_add_of_le lower
    exact ⟨k', by omega, congrArg Place.memory (shift k').symm⟩

/-- The two words of a header behind the name. -/
theorem mem_headerWords {m : Mem} {location : Word} {i : ℕ} {p : Place} :
    p ∈ (loadWord m (headerAt location i + 68)).places ∨
        p ∈ (loadWord m (headerAt location i + 64)).places ↔
      ∃ k, 64 ≤ k ∧ k < 72 ∧ p = .memory (headerAt location i + BitVec.ofNat 32 k) := by
  have second : p ∈ (loadWord m (headerAt location i + 68)).places ↔
      ∃ k, 68 ≤ k ∧ k < 72 ∧ p = .memory (headerAt location i + BitVec.ofNat 32 k) :=
    mem_loadWord_offset
  have first : p ∈ (loadWord m (headerAt location i + 64)).places ↔
      ∃ k, 64 ≤ k ∧ k < 68 ∧ p = .memory (headerAt location i + BitVec.ofNat 32 k) :=
    mem_loadWord_offset
  rw [second, first]
  constructor
  · rintro (⟨k, lower, upper, rfl⟩ | ⟨k, lower, upper, rfl⟩)
    · exact ⟨k, by omega, upper, rfl⟩
    · exact ⟨k, lower, by omega, rfl⟩
  · rintro ⟨k, lower, upper, rfl⟩
    rcases Nat.lt_or_ge k 68 with low | high
    · exact Or.inr ⟨k, lower, low, rfl⟩
    · exact Or.inl ⟨k, high, upper, rfl⟩

theorem mountFile_cases (m : Mem) (location : Word) (i : ℕ) (st : Initrd) :
    (∃ j n, NameEnds m location i j ∧ Mounted m location i n ∧
      (mountFile m location i st).val =
        some { st with nodes := Function.update st.nodes i n } ∧
      ∀ p, p ∈ (mountFile m location i st).places ↔ HeaderPlace location i j p) ∨
    ((∀ j, ¬ NameEnds m location i j) ∧ (mountFile m location i st).val = none) := by
  unfold mountFile
  rcases strcpyLoop_cases (memoryChars m (headerAt location i)) nameSize 0 (st.nodes i).name with
    ⟨j, _, fits, before, atEnd, value, places⟩ | ⟨all, value⟩
  · left
    have ends : NameEnds m location i j :=
      ⟨by omega, fun k bound => before k (Nat.zero_le _) bound, atEnd⟩
    refine ⟨j, { st.nodes i with
      name := fun k => if 0 ≤ k ∧ k < j then (memoryChars m (headerAt location i) k).val
        else if k = j then 0 else (st.nodes i).name k
      flags := fsFile
      length := ld32 m (headerAt location i + 68)
      impl := location + ld32 m (headerAt location i + 64)
      inode := BitVec.ofNat 32 i
      read := true }, ends, ⟨⟨j, ends, ?_⟩, rfl, rfl, rfl, rfl, rfl⟩, ?_, ?_⟩
    · intro k bound
      dsimp only
      by_cases inside : k < j
      · rw [if_pos ⟨Nat.zero_le _, inside⟩]
        rfl
      · have here : k = j := by omega
        rw [if_neg (fun h => inside h.2), if_pos here, here]
        exact ends.terminator.symm
    · simp only [Traced.bind_val, strcpy, value]
      rfl
    · intro p
      simp only [Traced.bind_places, strcpy, value, List.mem_append, places, Traced.pure_places,
        List.not_mem_nil, or_false, HeaderPlace, mem_headerWords]
      refine or_congr_left ⟨?_, ?_⟩
      · rintro ⟨k, _, upper, member⟩
        exact ⟨k, upper, by simpa [memoryChars] using member⟩
      · rintro ⟨k, upper, rfl⟩
        exact ⟨k, Nat.zero_le _, upper, by simp [memoryChars]⟩
  · right
    refine ⟨?_, ?_⟩
    · intro j ends
      exact all j (Nat.zero_le _) (by have := ends.fits; omega) ends.terminator
    · simp only [Traced.bind_val, strcpy, value]
      rfl

/-- Mounting succeeds when all names end in time; then every header has its node. -/
theorem mountFiles_cases (m : Mem) (location : Word) (left i : ℕ) (st : Initrd) :
    (∃ st' : Initrd, (mountFiles m location left i st).val = some st' ∧
      (∀ k, i ≤ k → k < i + left → Mounted m location k (st'.nodes k)) ∧
      (∀ k, ¬ (i ≤ k ∧ k < i + left) → st'.nodes k = st.nodes k) ∧
      st'.numFiles = st.numFiles ∧ st'.rootNode = st.rootNode ∧
      ∀ p, p ∈ (mountFiles m location left i st).places ↔
        ∃ k j, i ≤ k ∧ k < i + left ∧ NameEnds m location k j ∧ HeaderPlace location k j p) ∨
    ((∃ k, i ≤ k ∧ k < i + left ∧ ∀ j, ¬ NameEnds m location k j) ∧
      (mountFiles m location left i st).val = none) := by
  induction left generalizing i st with
  | zero =>
      left
      refine ⟨st, rfl, fun k lower upper => by omega, fun k _ => rfl, rfl, rfl, fun p => ?_⟩
      constructor
      · intro member
        simp [mountFiles] at member
      · rintro ⟨k, j, lower, upper, _⟩
        omega
  | succ left ih =>
      rw [mountFiles]
      rcases mountFile_cases m location i st with
        ⟨j, n, ends, mounted, value, places⟩ | ⟨bad, value⟩
      · rcases ih (i + 1) { st with nodes := Function.update st.nodes i n } with
          ⟨st', result, nodes, others, numFiles, rootNode, rest⟩ | ⟨⟨k, lower, upper, bad⟩, result⟩
        · left
          refine ⟨st', ?_, ?_, ?_, numFiles, rootNode, ?_⟩
          · simp only [Traced.bind_val, value]
            exact result
          · intro k lower upper
            rcases (by omega : k = i ∨ i + 1 ≤ k) with rfl | above
            · rw [others k (by omega)]
              simpa using mounted
            · exact nodes k above (by omega)
          · intro k outside
            have notHere : k ≠ i := by omega
            rw [others k (by omega)]
            exact Function.update_of_ne notHere _ _
          · intro p
            simp only [Traced.bind_places, value, List.mem_append, places, rest]
            constructor
            · rintro (here | ⟨k, j', lower, upper, later⟩)
              · exact ⟨i, j, by omega, by omega, ends, here⟩
              · exact ⟨k, j', by omega, by omega, later⟩
            · rintro ⟨k, j', lower, upper, ends', place⟩
              rcases (by omega : k = i ∨ i + 1 ≤ k) with rfl | above
              · left
                exact ends.unique ends' ▸ place
              · exact Or.inr ⟨k, j', above, by omega, ends', place⟩
        · right
          refine ⟨⟨k, by omega, by omega, bad⟩, ?_⟩
          simp only [Traced.bind_val, value]
          exact result
      · right
        refine ⟨⟨i, by omega, by omega, bad⟩, ?_⟩
        simp only [Traced.bind_val, value]
        rfl

/-- The number of headers that mounting visits. -/
def fileCount (m : Mem) (location : Word) : ℕ :=
  if ld32 m location = 0x5442524F then
    (if ld32 m (location + 4) > maxFiles then maxFiles else ld32 m (location + 4)).toNat
  else 0

theorem fileCount_le (m : Mem) (location : Word) : fileCount m location ≤ 64 := by
  have cap : maxFiles.toNat = 64 := rfl
  unfold fileCount
  split
  · split
    · exact Nat.le_of_eq cap
    · rename_i small
      rw [gt_iff_lt, BitVec.lt_def] at small
      omega
  · exact Nat.zero_le _

/-- The bytes of the image header that mounting reads. -/
def MagicPlace (m : Mem) (location : Word) (p : Place) : Prop :=
  (∃ k < 4, p = .memory (location + BitVec.ofNat 32 k)) ∨
  (ld32 m location = 0x5442524F ∧
    ∃ k, 4 ≤ k ∧ k < 8 ∧ p = .memory (location + BitVec.ofNat 32 k))

/-- The state after mounting, given the one before: the first `fileCount` nodes
describe the headers and the rest is as it was. -/
structure Mounts (m : Mem) (location : Word) (st st' : Initrd) : Prop where
  count : ld32 m location = 0x5442524F → st'.numFiles.toNat = fileCount m location
  unmounted : ld32 m location ≠ 0x5442524F → st'.numFiles = st.numFiles
  nodes : ∀ i < fileCount m location, Mounted m location i (st'.nodes i)
  others : ∀ i, fileCount m location ≤ i → st'.nodes i = st.nodes i
  rootNode : st'.rootNode = st.rootNode

theorem mountImage_cases (m : Mem) (location : Word) (st : Initrd) :
    (∃ st', (mountImage m location st).val = some st' ∧ Mounts m location st st' ∧
      ∀ p, p ∈ (mountImage m location st).places ↔ MagicPlace m location p ∨
        ∃ i j, i < fileCount m location ∧ NameEnds m location i j ∧ HeaderPlace location i j p) ∨
    ((∃ i < fileCount m location, ∀ j, ¬ NameEnds m location i j) ∧
      (mountImage m location st).val = none) := by
  unfold mountImage
  by_cases magic : ld32 m location = 0x5442524F
  · have count : (if ld32 m (location + 4) > maxFiles then maxFiles
        else ld32 m (location + 4)).toNat = fileCount m location := (if_pos magic).symm
    have proceed : ¬ (loadWord m location).val ≠ 0x5442524F := not_not.mpr magic
    simp only [Traced.bind_val, Traced.bind_places, if_neg proceed]
    have numFiles : (loadWord m (location + 4)).val = ld32 m (location + 4) := rfl
    rw [numFiles, count]
    rcases mountFiles_cases m location (fileCount m location) 0 { st with
        numFiles := if ld32 m (location + 4) > maxFiles then maxFiles
          else ld32 m (location + 4) } with
      ⟨st', value, nodes, others, numFilesKept, rootNode, places⟩ | ⟨⟨i, _, upper, bad⟩, value⟩
    · left
      refine ⟨st', value, ⟨fun _ => ?_, fun wrong => absurd magic wrong, ?_, ?_, rootNode⟩, ?_⟩
      · rw [numFilesKept, ← count]
      · intro i bound
        exact nodes i (Nat.zero_le _) (by omega)
      · intro i beyond
        exact others i (by omega)
      · intro p
        have countWord : p ∈ (loadWord m (location + 4)).places ↔
            ∃ k, 4 ≤ k ∧ k < 8 ∧ p = .memory (location + BitVec.ofNat 32 k) := mem_loadWord_offset
        simp only [List.mem_append, countWord, mem_loadWord_places, places, MagicPlace, magic,
          true_and, or_assoc]
        refine or_congr_right (or_congr_right ⟨?_, ?_⟩)
        · rintro ⟨i, j, _, upper, ends, place⟩
          exact ⟨i, j, by omega, ends, place⟩
        · rintro ⟨i, j, bound, ends, place⟩
          exact ⟨i, j, Nat.zero_le _, by omega, ends, place⟩
    · right
      exact ⟨⟨i, by omega, bad⟩, value⟩
  · left
    have none : fileCount m location = 0 := if_neg magic
    have stop : (loadWord m location).val ≠ 0x5442524F := magic
    simp only [Traced.bind_val, Traced.bind_places, if_pos stop, Traced.pure_val,
      Traced.pure_places, List.append_nil]
    refine ⟨st, rfl, ⟨fun right => absurd right magic, fun _ => rfl, ?_, fun _ _ => rfl, rfl⟩,
      fun p => ?_⟩
    · intro i bound
      omega
    · rw [mem_loadWord_places, none]
      constructor
      · intro first
        exact Or.inl (Or.inl first)
      · rintro ((first | ⟨right, _⟩) | ⟨i, j, bound, _⟩)
        · exact first
        · exact absurd right magic
        · omega

/-- `strcpy(root_node.name, "root")` -/
theorem strcpy_rootName (dest : Chars) :
    ∃ name, (strcpy nameSize dest (literalChars rootName)).val = some name ∧
      ∀ p, p ∈ (strcpy nameSize dest (literalChars rootName)).places ↔
        ∃ k ≤ rootName.length, p = .literal k := by
  have holds : Holds (fun k => (literalChars rootName k).val) rootName :=
    ⟨by decide, fun _ _ => rfl⟩
  rcases strcpyLoop_cases (literalChars rootName) nameSize 0 dest with
    ⟨j, _, _, before, atEnd, value, places⟩ | ⟨all, _⟩
  · have length : j = rootName.length := by
      rcases Nat.lt_trichotomy j rootName.length with shorter | same | longer
      · exact absurd atEnd (holds.ne_zero shorter)
      · exact same
      · exact absurd holds.terminator (before _ (Nat.zero_le _) longer)
    subst length
    refine ⟨_, value, fun p => (places p).trans ?_⟩
    constructor
    · rintro ⟨k, _, upper, member⟩
      exact ⟨k, upper, by simpa [literalChars] using member⟩
    · rintro ⟨k, upper, rfl⟩
      exact ⟨k, Nat.zero_le _, upper, by simp [literalChars]⟩
  · exact absurd holds.terminator (all _ (Nat.zero_le _) (by decide))

/-- Mounting, with everything it reads. -/
theorem initrdInitialize_cases (m : Mem) (location : Word) (st : Initrd) :
    (∃ st' name, (initrdInitialize m location st).val = some st' ∧
      Mounts m location { st with
        location := location
        rootNode := { st.rootNode with
          name := name, flags := fsDirectory, readdir := true, finddir := true } } st' ∧
      ∀ p, p ∈ (initrdInitialize m location st).places ↔
        (∃ k ≤ rootName.length, p = .literal k) ∨ MagicPlace m location p ∨
        ∃ i j, i < fileCount m location ∧ NameEnds m location i j ∧ HeaderPlace location i j p) ∨
    ((∃ i < fileCount m location, ∀ j, ¬ NameEnds m location i j) ∧
      (initrdInitialize m location st).val = none) := by
  obtain ⟨name, copied, rootPlaces⟩ := strcpy_rootName st.rootNode.name
  unfold initrdInitialize
  simp only [Traced.bind_val, Traced.bind_places, copied]
  rcases mountImage_cases m location { st with
      location := location
      rootNode := { st.rootNode with
        name := name, flags := fsDirectory, readdir := true, finddir := true } } with
    ⟨st', value, mounts, places⟩ | ⟨bad, value⟩
  · left
    refine ⟨st', name, value, mounts, fun p => ?_⟩
    rw [List.mem_append, rootPlaces, places]
  · right
    exact ⟨bad, value⟩

/-! ## Later requests -/

/-- Of the requests only `fs_readdir` changes a static variable, `dir_cache`. -/
inductive Request : Initrd → Initrd → Prop
  | readdir {st st' : Initrd} {n : NodeRef} {index : Word} {entry : Option Dirent}
      (answer : (fsReaddir st n index).val = some (st', entry)) : Request st st'

abbrev Requests : Initrd → Initrd → Prop := Relation.ReflTransGen Request

theorem Request.frame {st st' : Initrd} (request : Request st st') :
    st'.nodes = st.nodes ∧ st'.numFiles = st.numFiles ∧ st'.rootNode = st.rootNode := by
  cases request with
  | @readdir n index entry answer =>
      unfold fsReaddir initrdReaddir at answer
      split at answer
      · split at answer
        · cases answer
          exact ⟨rfl, rfl, rfl⟩
        · split at answer
          · cases answer
            exact ⟨rfl, rfl, rfl⟩
          · simp only [Traced.bind_val] at answer
            split at answer
            · contradiction
            · cases answer
              exact ⟨rfl, rfl, rfl⟩
      · cases answer
        exact ⟨rfl, rfl, rfl⟩

theorem Requests.frame {st st' : Initrd} (requests : Requests st st') :
    st'.nodes = st.nodes ∧ st'.numFiles = st.numFiles ∧ st'.rootNode = st.rootNode := by
  induction requests with
  | refl => exact ⟨rfl, rfl, rfl⟩
  | tail _ request ih =>
      obtain ⟨nodes, numFiles, rootNode⟩ := request.frame
      exact ⟨nodes.trans ih.1, numFiles.trans ih.2.1, rootNode.trans ih.2.2⟩

end Initrd

end OrbitOs.Fs
