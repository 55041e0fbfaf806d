import OrbitOs.Fs.InitrdRoundTrip

/-!
# What is cut off between mkfs.py and the kernel

The writer cuts a name after 63 bytes, the reader stops after 64 files, and
neither reports it.  Nothing is lost exactly within both limits.
-/

set_option autoImplicit false

namespace OrbitOs.Fs

open OrbitOs.Machine OrbitOs.Kernel OrbitOs.Base

namespace Initrd

/-- The regular files of a directory. -/
structure Directory (files : List File) : Prop where
  noNul : ∀ f ∈ files, 0 ∉ f.name
  distinct : (files.map File.name).Nodup

/-- The mounted system has an entry for every packed file and none besides, and
finds every file under its own name, in its own place and with its own contents. -/
structure LosesNothing (files : List File) (location : Word) (image : List Byte)
    (st : Initrd) : Prop where
  entries : ∀ index : Word,
    (∃ st' entry, (fsReaddir st .root index).val = some (st', some entry)) ↔
      index.toNat < files.length
  found : ∀ i f, files[i]? = some f → ∀ arg, Holds arg f.name → ∀ fuel, 64 ≤ fuel →
    (fsFinddir fuel st .root arg).val = some (some (.file i))
  contents : ∀ i f, files[i]? = some f → (st.nodes i).length.toNat = f.data.length ∧
    ∀ m buffer, Loaded m location image →
      Apart buffer f.data.length (st.nodes i).impl f.data.length →
      ∃ m', (fsRead st m (.file i) 0 (st.nodes i).length buffer).val = (m', (st.nodes i).length) ∧
        (∀ k b, f.data[k]? = some b → m' (buffer + BitVec.ofNat 32 k) = b) ∧
        AgreeOff (Within buffer f.data.length) m m'

/-- The limits of the reader and of the writer. -/
structure WithinLimits (files : List File) : Prop where
  count : files.length ≤ 64
  short : ∀ f ∈ files, f.name.length ≤ 63

variable {m : Mem} {location : Word} {image : List Byte} {files : List File} {st : Initrd}

theorem Directory.packable (directory : Directory files) (within : WithinLimits files) :
    Packable files := ⟨within.count, within.short, directory.noNul, directory.distinct⟩

theorem exists_holds {x : List Byte} (noNul : 0 ∉ x) : ∃ arg : Chars, Holds arg x :=
  ⟨fun k => x.getD k 0, noNul, fun _ _ => rfl⟩

theorem Shows.entries (shows : Shows files location image st) (index : Word) :
    (∃ st' entry, (fsReaddir st .root index).val = some (st', some entry)) ↔
      index.toNat < files.length := by
  constructor
  · rintro ⟨st', entry, answer⟩
    by_contra beyond
    rw [shows.readdirEnd index (Nat.le_of_not_lt beyond)] at answer
    cases answer
  · intro inside
    obtain ⟨st', entry, answer, -⟩ := shows.readdir index.toNat _ (List.getElem?_eq_getElem inside)
    rw [BitVec.ofNat_toNat, BitVec.setWidth_eq] at answer
    exact ⟨st', entry, answer⟩

theorem Shows.losesNothing (shows : Shows files location image st)
    (directory : Directory files) : LosesNothing files location image st where
  entries := shows.entries
  found := by
    intro i f packed arg holds fuel enough
    obtain ⟨r, answer, exactly, -⟩ :=
      (shows.serves directory.distinct).finddir arg f.name holds fuel enough
    rw [answer, (exactly i).mpr ⟨f, packed, rfl⟩]
  contents := shows.read

/-- Beyond a limit the number of entries is wrong or some name is not found. -/
theorem withinLimits_of_losesNothing (shows : Shows (shown files) location image st)
    (directory : Directory files) (keeps : LosesNothing files location image st) :
    WithinLimits files where
  count := by
    by_contra many
    have inside : (64 : Word).toNat < files.length := Nat.lt_of_not_le many
    obtain ⟨st', entry, answer⟩ := (keeps.entries 64).mpr inside
    have beyond : (shown files).length ≤ (64 : Word).toNat := by
      rw [length_shown]
      exact Nat.min_le_left _ _
    rw [shows.readdirEnd 64 beyond] at answer
    cases answer
  short := by
    intro f member
    by_contra long
    obtain ⟨i, packed⟩ := List.mem_iff_getElem?.mp member
    obtain ⟨arg, holds⟩ := exists_holds (directory.noNul f member)
    have answer := keeps.found i f packed arg holds 64 (Nat.le_refl _)
    rw [shows.finddir arg f.name holds 64 (Nat.le_refl _)] at answer
    -- a name that is shown has at most 63 bytes
    have absent : f.name ∉ (shown files).map File.name := by
      intro shownName
      obtain ⟨g, inShown, same⟩ := List.mem_map.mp shownName
      exact long (same ▸ shown_short inShown)
    rw [firstNamed_eq_none_iff.mpr absent] at answer
    cases answer

theorem losesNothing_iff (shows : Shows (shown files) location image st)
    (directory : Directory files) :
    LosesNothing files location image st ↔ WithinLimits files := by
  refine ⟨withinLimits_of_losesNothing shows directory, fun within => ?_⟩
  rw [(directory.packable within).shown_eq] at shows
  exact shows.losesNothing directory

/-- Every image that mkfs.py writes for a directory mounts and shows the first 64
files under the first 63 bytes of their names, the first file where two of these
agree; nothing is lost exactly within the two limits. -/
theorem initrdInitialize_shows_shown (packs : mkfs files = some image)
    (directory : Directory files) (loaded : Loaded m location image) (st : Initrd) :
    ∃ mounted, (initrdInitialize m location st).val = some mounted ∧
      ∀ later, Requests mounted later →
        Shows (shown files) location image later ∧
        (LosesNothing files location image later ↔ WithinLimits files) := by
  obtain ⟨mounted, value, shows⟩ := initrdInitialize_shows packs directory.noNul loaded st
  exact ⟨mounted, value, fun later requests =>
    ⟨(shows later requests).2, losesNothing_iff (shows later requests).2 directory⟩⟩

theorem initrdInitialize_shows_shown_twoFiles :
    ∃ image, mkfs twoFiles = some image ∧ Directory twoFiles ∧
      ∃ mounted, (initrdInitialize (memoryWith 0x200000 image) 0x200000 bss).val = some mounted ∧
        ∀ later, Requests mounted later →
          Shows (shown twoFiles) 0x200000 image later ∧
          (LosesNothing twoFiles 0x200000 image later ↔ WithinLimits twoFiles) := by
  obtain ⟨image, packs, small⟩ : ∃ image, mkfs twoFiles = some image ∧ image.length = 154 :=
    ⟨_, rfl, rfl⟩
  have directory : Directory twoFiles := ⟨by decide, by decide⟩
  exact ⟨image, packs, directory, initrdInitialize_shows_shown packs directory
    (loaded_memoryWith _ _ (by omega)) bss⟩

/-- Two names of 64 bytes that differ in the last one. -/
def longNames : List File :=
  [⟨List.replicate 63 0x61 ++ [0x61], [1]⟩, ⟨List.replicate 63 0x61 ++ [0x62], [2]⟩]

set_option maxRecDepth 2000 in
/-- Neither file is found under its name, and both show as the first one. -/
theorem longNames_lost :
    ∃ image, mkfs longNames = some image ∧ Directory longNames ∧
      ∃ mounted, (initrdInitialize (memoryWith 0x200000 image) 0x200000 bss).val = some mounted ∧
        ¬ LosesNothing longNames 0x200000 image mounted := by
  obtain ⟨image, packs, small⟩ : ∃ image, mkfs longNames = some image ∧ image.length = 154 :=
    ⟨_, rfl, rfl⟩
  have directory : Directory longNames := ⟨by decide, by decide⟩
  obtain ⟨mounted, value, shows⟩ := initrdInitialize_shows packs directory.noNul
    (loaded_memoryWith 0x200000 image (by omega)) bss
  refine ⟨image, packs, directory, mounted, value, fun keeps => ?_⟩
  have within := withinLimits_of_losesNothing (shows mounted .refl).2 directory keeps
  exact absurd (within.short _ (List.mem_cons_self ..)) (by decide)

end Initrd

end OrbitOs.Fs
