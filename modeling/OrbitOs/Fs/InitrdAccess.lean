import OrbitOs.Fs.InitrdSafety
import OrbitOs.Memory.Access

/-!
# The memory that the ramdisk code accesses

Mounting reads the image byte by byte.  A later read copies the part of a file
that lies in the requested window to the buffer of the caller.
-/

set_option autoImplicit false

namespace OrbitOs.Fs

open OrbitOs.Machine OrbitOs.Kernel OrbitOs.Base OrbitOs.Memory

/-- `*d++ = *s++` in the loop of `memcpyLoop`. -/
def memcpyAccesses (cr3 : Word) : ℕ → Word → Word → Mem → List Access
  | 0, _, _, _ => []
  | num + 1, d, s, m => ⟨m, cr3, s, 1⟩ :: ⟨m, cr3, d, 1⟩ ::
      memcpyAccesses cr3 num (d + 1) (s + 1) (stByte m d (m s))

theorem mem_memcpyAccesses {cr3 : Word} {num : ℕ} {d s : Word} {m : Mem} {a : Access}
    (member : a ∈ memcpyAccesses cr3 num d s m) :
    a.Reaches m cr3 (Within d num) fun x => Within d num x ∨ Within s num x := by
  induction num generalizing d s m with
  | zero => exact absurd member List.not_mem_nil
  | succ num ih =>
      have first : ∀ p x : Word, Within p 1 x → Within p (num + 1) x := fun p x inByte =>
        inByte.mono (by omega)
      have rest : ∀ p x : Word, Within (p + 1) num x → Within p (num + 1) x := fun p x inRest =>
        Within.offset (d := 1) inRest (by omega)
      rw [memcpyAccesses, List.mem_cons, List.mem_cons] at member
      rcases member with rfl | rfl | later
      · exact ⟨AgreeOff.refl _ _, rfl, fun x here => Or.inr (first s x here)⟩
      · exact ⟨AgreeOff.refl _ _, rfl, fun x here => Or.inl (first d x here)⟩
      · obtain ⟨mem, cr3, inside⟩ := ih later
        have here : AgreeOff (Within d (num + 1)) m (stByte m d (m s)) := fun x off =>
          if_neg fun same => off (by rw [same]; unfold Within; simp)
        exact ⟨here.trans (mem.mono (rest d)), cr3, fun x reached =>
          (inside x reached).imp (rest d x) (rest s x)⟩

namespace Initrd

/-- The bytes of the image that mounting reads. -/
def mountAccesses (cr3 : Word) (m : Mem) (location : Word) (st : Initrd) : List Access :=
  (initrdInitialize m location st).places.filterMap fun p =>
    match p with
    | .memory a => some ⟨m, cr3, a, 1⟩
    | _ => none

def initrdReadAccesses (cr3 : Word) (m : Mem) (n : FsNode) (offset size buffer : Word) :
    List Access :=
  if offset ≥ n.length then []
  else
    let size := if offset + size > n.length then n.length - offset else size
    memcpyAccesses cr3 size.toNat buffer (n.impl + offset) m

def fsReadAccesses (cr3 : Word) (st : Initrd) (m : Mem) (n : NodeRef)
    (offset size buffer : Word) : List Access :=
  if (st.node n).read then initrdReadAccesses cr3 m (st.node n) offset size buffer else []

/-- `x` is a byte of the data of a file. -/
def OfFile (st : Initrd) (x : Word) : Prop :=
  ∃ n, (st.node n).read = true ∧ Within (st.node n).impl (st.node n).length.toNat x

/-- How many bytes of the file are in the window. -/
def window (n : FsNode) (offset size : Word) : ℕ :=
  min size.toNat (n.length.toNat - offset.toNat)

/-- A window that `initrd_read` takes to end inside the file does not wrap. -/
def InFile (n : FsNode) (offset size : Word) : Prop :=
  offset < n.length → offset + size ≤ n.length → NoWrap offset size

/-- The bytes of the buffer that `fs_read` fills. -/
def Filled (st : Initrd) (n : NodeRef) (offset size buffer x : Word) : Prop :=
  (st.node n).read = true ∧ Within buffer (window (st.node n) offset size) x

/-! ## Reading -/

theorem size_eq_window {n : FsNode} {offset size : Word} (inFile : InFile n offset size)
    (begins : ¬ offset ≥ n.length) :
    (if offset + size > n.length then n.length - offset else size).toNat =
      window n offset size := by
  rw [ge_iff_le, BitVec.le_def] at begins
  unfold InFile NoWrap at inFile
  unfold window
  split
  · rename_i beyond
    rw [gt_iff_lt, BitVec.lt_def, BitVec.toNat_add] at beyond
    have cut : (n.length - offset).toNat = n.length.toNat - offset.toNat := by bv_omega
    omega
  · rename_i inside
    rw [gt_iff_lt, BitVec.not_lt] at inside
    have noWrap := inFile (BitVec.lt_def.mpr (by omega)) inside
    rw [BitVec.le_def, BitVec.toNat_add] at inside
    omega

section Read

variable {st : Initrd} {n : NodeRef} {offset size : Word}
  (inFile : (st.node n).read = true → InFile (st.node n) offset size)

include inFile

theorem mem_fsReadAccesses {cr3 : Word} {m : Mem} {buffer : Word} {a : Access}
    (member : a ∈ fsReadAccesses cr3 st m n offset size buffer) :
    a.Reaches m cr3 (st.Filled n offset size buffer)
      fun x => st.Filled n offset size buffer x ∨ st.OfFile x := by
  unfold fsReadAccesses at member
  split at member
  · rename_i read
    unfold initrdReadAccesses at member
    split at member
    · exact absurd member List.not_mem_nil
    · rename_i begins
      dsimp only at member
      rw [size_eq_window (inFile read) begins] at member
      rw [ge_iff_le, BitVec.le_def] at begins
      obtain ⟨mem, cr3, inside⟩ := mem_memcpyAccesses member
      refine ⟨mem.mono fun x filled => ⟨read, filled⟩, cr3, fun x reached => ?_⟩
      rcases inside x reached with inBuffer | inSource
      · exact Or.inl ⟨read, inBuffer⟩
      · have place : (st.node n).impl + offset =
            (st.node n).impl + BitVec.ofNat 32 offset.toNat := by simp
        rw [place] at inSource
        refine Or.inr ⟨n, read, inSource.offset ?_⟩
        unfold window
        omega
  · exact absurd member List.not_mem_nil

theorem fsRead_agreeOff (m : Mem) (buffer : Word) :
    AgreeOff (st.Filled n offset size buffer) m (fsRead st m n offset size buffer).val.1 := by
  unfold fsRead
  split
  · rename_i read
    unfold initrdRead
    split
    · exact AgreeOff.refl _ _
    · rename_i begins
      refine AgreeOff.mono (memcpy_agreeOff m buffer _ _) fun x filled => ⟨read, ?_⟩
      rwa [size_eq_window (inFile read) begins] at filled
  · exact AgreeOff.refl _ _

end Read

/-! ## Mounting -/

/-- The names of the mounted files end within their field. -/
def NamesEnd (m : Mem) (location : Word) : Prop :=
  ∀ i < fileCount m location, ∃ j, NameEnds m location i j

/-- `x` is in the part of header `i` that mounting reads, or in the data the header names. -/
def OfEntry (m : Mem) (location : Word) (i : ℕ) (x : Word) : Prop :=
  (∃ j, NameEnds m location i j ∧ Within (headerAt location i) (j + 1) x) ∨
    Within (headerAt location i + 64) 8 x ∨
    Within (location + ld32 m (headerAt location i + 64))
      (ld32 m (headerAt location i + 68)).toNat x

/-- `x` is a byte of the archive. -/
def OfArchive (m : Mem) (location x : Word) : Prop :=
  Within location 4 x ∨ (ld32 m location = 0x5442524F ∧ Within location 8 x) ∨
    ∃ i < fileCount m location, OfEntry m location i x

variable {m : Mem} {location : Word} {st st' : Initrd}

theorem initrdInitialize_mounts_of_names (names : NamesEnd m location) (st : Initrd) :
    ∃ st' name, (initrdInitialize m location st).val = some st' ∧
      Mounts m location { st with
        location := location
        rootNode := { st.rootNode with
          name := name, flags := fsDirectory, readdir := true, finddir := true } } st' := by
  rcases initrdInitialize_cases m location st with
    ⟨st', name, value, mounts, -⟩ | ⟨⟨i, inTable, bad⟩, -⟩
  · exact ⟨st', name, value, mounts⟩
  · obtain ⟨j, ends⟩ := names i inTable
    exact absurd ends (bad j)

theorem ofArchive_of_place (names : NamesEnd m location) {b : Word}
    (member : .memory b ∈ (initrdInitialize m location st).places) : OfArchive m location b := by
  rcases initrdInitialize_cases m location st with
    ⟨st', name, -, -, places⟩ | ⟨⟨i, inTable, bad⟩, -⟩
  · rcases (places _).mp member with ⟨k, -, literal⟩ | (⟨k, bound, here⟩ |
      ⟨magic, k, -, bound, here⟩) | ⟨i, j, inTable, ends, ⟨k, bound, here⟩ | ⟨k, low, bound, here⟩⟩
    · contradiction
    · obtain rfl := Place.memory.inj here
      exact Or.inl (within_add location bound (by simp))
    · obtain rfl := Place.memory.inj here
      exact Or.inr (Or.inl ⟨magic, within_add location bound (by simp)⟩)
    · obtain rfl := Place.memory.inj here
      have fits := ends.fits
      have field : nameSize = 128 := rfl
      exact Or.inr (Or.inr ⟨i, inTable, Or.inl
        ⟨j, ends, within_add _ (by omega) (by omega)⟩⟩)
    · obtain rfl := Place.memory.inj here
      have split : headerAt location i + BitVec.ofNat 32 k =
          headerAt location i + 64 + BitVec.ofNat 32 (k - 64) := by bv_omega
      exact Or.inr (Or.inr ⟨i, inTable, Or.inr (Or.inl
        (split ▸ within_add _ (by omega) (by simp)))⟩)
  · obtain ⟨j, ends⟩ := names i inTable
    exact absurd ends (bad j)

theorem mem_mountAccesses (names : NamesEnd m location) {cr3 : Word} {a : Access}
    (member : a ∈ mountAccesses cr3 m location st) :
    a.Reaches m cr3 (fun _ => False) (OfArchive m location) := by
  obtain ⟨p, inPlaces, here⟩ := List.mem_filterMap.mp member
  cases p with
  | memory b =>
      cases here
      refine ⟨AgreeOff.refl _ _, rfl, fun x (reached : (x - b).toNat < 1) => ?_⟩
      have only : x = b := by bv_omega
      exact only ▸ ofArchive_of_place names inPlaces
  | nodeName i k => contradiction
  | argument k => contradiction
  | literal k => contradiction

/-- The files after mounting are those of before, or in the archive. -/
theorem ofFile_of_mounted (names : NamesEnd m location)
    (mounted : (initrdInitialize m location st).val = some st') {x : Word}
    (ofFile : st'.OfFile x) : st.OfFile x ∨ OfArchive m location x := by
  obtain ⟨st'', name, value, mounts⟩ := initrdInitialize_mounts_of_names names st
  cases mounted.symm.trans value
  obtain ⟨n, read, inData⟩ := ofFile
  cases n with
  | root =>
      rw [node, mounts.rootNode] at read inData
      exact Or.inl ⟨.root, read, inData⟩
  | file i =>
      by_cases inTable : i < fileCount m location
      · have header := mounts.nodes i inTable
        rw [node, header.impl, header.length] at inData
        exact Or.inr (Or.inr (Or.inr ⟨i, inTable, Or.inr (Or.inr inData)⟩))
      · rw [node, mounts.others i (by omega)] at read inData
        exact Or.inl ⟨.file i, read, inData⟩

end Initrd

end OrbitOs.Fs
