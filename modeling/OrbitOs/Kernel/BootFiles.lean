import OrbitOs.Fs.Console
import OrbitOs.Fs.InitrdTruncation

/-!
# The file system at boot

The part of `kernel_main` that mounts the first module, lists ten entries and
reads `hello.txt` into an array of 256 bytes.  The whole file is read, so the
array holds it and its terminator only when the file is short.
-/

set_option autoImplicit false

namespace OrbitOs.Kernel

open OrbitOs.Machine OrbitOs.Base OrbitOs.Fs

def literalText (text : String) : Chars := fun k => (charsOf text).getD k 0

/-- `for (i = ..; i < 10; i++)` with `left` turns to go. -/
def listFiles (fuel : ℕ) (fsRoot : NodeRef) : ℕ → ℕ → Console → Option Console
  | 0, _, c => some c
  | left + 1, i, c => do
    let (fs, d) ← (Initrd.fsReaddir c.fs fsRoot (BitVec.ofNat 32 i)).val
    let c := { c with fs := fs }
    match d with
    | some d =>
      let c ← (c.print (charsOf " - ")).writestring fuel d.name
      listFiles fuel fsRoot left (i + 1) (c.print (charsOf "\n"))
    | none => listFiles fuel fsRoot left (i + 1) c

/-- "Test VFS!" -/
def vfsTest (fuel : ℕ) (buf : Word) (fsRoot : NodeRef) (c : Console) : Option Console := do
  match ← (Initrd.fsFinddir fuel c.fs fsRoot (literalText "hello.txt")).val with
  | some helloFile =>
    let (c, bytes) := c.read helloFile 0 (c.fs.node helloFile).length buf
    let c := c.store (buf + bytes) 0
    let c ← (c.print (charsOf "Read from VFS (hello.txt): ")).writeBuffer buf
    return c.print (charsOf "\n")
  | none => return c.print (charsOf "ERROR: hello.txt not found in initrd.\n")

/-- `buf` is the address of the array on the stack. -/
def bootFiles (fuel : ℕ) (buf flags modsCount modStart : Word) (c : Console) : Option Console :=
  if flags.getLsbD 3 then
    if modsCount > 0 then do
      let fs ← (Initrd.initrdInitialize c.mem modStart c.fs).val
      let c := { c with fs := fs, fsRoot := some .root }
      let c ← listFiles fuel .root 10 0 (c.print (charsOf "Initrd filesystem mounted. Files:\n"))
      vfsTest fuel buf .root c
    else return c
  else return c.print (charsOf "WARNING: No initrd module loaded by GRUB.\n")

/-! ## The listing -/

open Initrd in
theorem listFiles_ends {files : List File} {location : Word} {image : List Byte} {mounted : Initrd}
    (shows : ∀ later, Requests mounted later → Shows files location image later)
    (short : ∀ f ∈ files, f.name.length ≤ 63) {fuel : ℕ} (enough : 64 ≤ fuel) (left i : ℕ)
    (budget : i + left ≤ 10) (c : Console) (requests : Requests mounted c.fs) :
    ∃ c', listFiles fuel .root left i c = some c' ∧ Requests mounted c'.fs ∧
      c'.mem = c.mem ∧ c'.stores = c.stores := by
  induction left generalizing i c with
  | zero => exact ⟨c, rfl, requests, rfl, rfl⟩
  | succ left ih =>
      have index : (BitVec.ofNat 32 i).toNat = i := by
        rw [BitVec.toNat_ofNat]
        omega
      have whole := shows c.fs requests
      rw [listFiles]
      rcases Nat.lt_or_ge i files.length with inside | beyond
      · obtain ⟨st', entry, answer, holds, -⟩ :=
          whole.readdir i _ (List.getElem?_eq_getElem inside)
        have nameShort := short _ (List.getElem_mem inside)
        rw [answer]
        have later : Requests mounted st' := requests.tail (.readdir answer)
        have printed := (({ c with fs := st' } : Console).print
          (charsOf " - ")).writestring_holds holds (by omega : files[i].name.length < fuel)
        simp only [Option.bind_eq_bind, Option.bind_some, printed]
        exact ih (i + 1) (by omega) _ later
      · rw [whole.readdirEnd _ (index.symm ▸ beyond)]
        exact ih (i + 1) (by omega) _ requests

/-! ## The test -/

/-- Every file with this name that the system can show fits the array together
with a terminator. -/
def HelloFits (files : List File) : Prop :=
  ∀ f ∈ files.take 64, f.name = charsOf "hello.txt" → f.data.length ≤ 255

instance (files : List File) : Decidable (HelloFits files) :=
  inferInstanceAs (Decidable (∀ f ∈ files.take 64, _ → _))

/-- A name that is cut to a shorter text was not cut. -/
theorem eq_of_take_eq {name text : List Byte} (cut : name.take 63 = text)
    (short : text.length < 63) : name = text := by
  have length := congrArg List.length cut
  rw [List.length_take] at length
  rw [← cut]
  exact (List.take_of_length_le (by omega)).symm

open Initrd in
theorem helloFits_of_absent {files : List File}
    (absent : charsOf "hello.txt" ∉ (shown files).map File.name) : HelloFits files := by
  intro f member hello
  have nameLength : (charsOf "hello.txt").length = 9 := by decide
  have cut : f.name.take 63 = charsOf "hello.txt" := by
    rw [hello, List.take_of_length_le (by omega)]
  have isShown : (⟨f.name.take 63, f.data⟩ : File) ∈ shown files := List.mem_map_of_mem member
  exact absurd (List.mem_map.mpr ⟨_, isShown, cut⟩) absent

open Initrd in
/-- No other file has the name. -/
theorem helloFits_iff_of_shown {files : List File} (directory : Directory files) {g : File}
    (member : g ∈ shown files) (hello : g.name = charsOf "hello.txt") :
    HelloFits files ↔ g.data.length ≤ 255 := by
  obtain ⟨f, packed, rfl⟩ := List.mem_map.mp member
  have uncut : f.name = charsOf "hello.txt" := eq_of_take_eq hello (by decide)
  constructor
  · intro fits
    exact fits f packed uncut
  · intro fits other alsoPacked named
    have same : other = f := List.inj_on_of_nodup_map directory.distinct
      (List.mem_of_mem_take alsoPacked) (List.mem_of_mem_take packed) (named.trans uncut.symm)
    rw [same]
    exact fits

theorem literalText_holds (text : String) (noNul : 0 ∉ charsOf text) :
    Holds (literalText text) (charsOf text) := ⟨noNul, fun _ _ => rfl⟩

theorem fsRead_whole (st : Initrd) (m : Mem) (n : NodeRef) (buffer : Word)
    (read : (st.node n).read = true) :
    (Initrd.fsRead st m n 0 (st.node n).length buffer).val.2 = (st.node n).length := by
  have inFile : Initrd.Meets (st.node n) 0 (st.node n).length := by
    right
    have bound := (st.node n).length.isLt
    have zero : (0 : Word).toNat = 0 := rfl
    unfold Initrd.NoWrap
    omega
  obtain ⟨m', value⟩ := Initrd.initrdRead_count inFile m buffer
  unfold Initrd.fsRead
  rw [if_pos read, value]
  apply BitVec.eq_of_toNat_eq
  have bound := (st.node n).length.isLt
  have zero : (0 : Word).toNat = 0 := rfl
  dsimp only
  rw [BitVec.toNat_ofNat, Initrd.window, zero, Nat.sub_zero, Nat.min_self, Nat.mod_eq_of_lt bound]

section Test

variable {fuel : ℕ} {buf : Word} {fsRoot : NodeRef} {c : Console}

theorem vfsTest_absent
    (absent : (Initrd.fsFinddir fuel c.fs fsRoot (literalText "hello.txt")).val = some none) :
    ∃ c', vfsTest fuel buf fsRoot c = some c' ∧ c'.fs = c.fs ∧ c'.stores = c.stores := by
  rw [vfsTest, absent]
  simp only [Option.bind_eq_bind, Option.bind_some]
  exact ⟨_, rfl, Console.print_fs _ _, Console.print_stores _ _⟩

/-- The terminator behind the file ends the text that is printed. -/
theorem vfsTest_found {n : NodeRef}
    (found : (Initrd.fsFinddir fuel c.fs fsRoot (literalText "hello.txt")).val = some (some n)) :
    ∃ c', vfsTest fuel buf fsRoot c = some c' ∧ c'.fs = c.fs ∧
      c'.stores = c.stores ++ (fsReadStores c.fs c.mem n 0 (c.fs.node n).length buf ++
        [(buf + (c.read n 0 (c.fs.node n).length buf).2, 0)]) := by
  rw [vfsTest, found]
  simp only [Option.bind_eq_bind, Option.bind_some]
  have stores := c.read_stores n 0 (c.fs.node n).length buf
  have sameFs := c.read_fs n 0 (c.fs.node n).length buf
  generalize c.read n 0 (c.fs.node n).length buf = filled at stores sameFs
  obtain ⟨c₁, bytes⟩ := filled
  obtain ⟨size, -, terminated⟩ :=
    Console.exists_terminated bytes.isLt (c₁.store_terminator buf bytes)
  rw [Console.writeBuffer_terminated _ (by exact terminated)]
  refine ⟨_, rfl, sameFs, ?_⟩
  dsimp only at stores ⊢
  simp only [Console.print_stores, Console.store_stores, stores, List.append_assoc]

end Test

/-! ## The stores at boot -/

section Boot

variable {files : List File} {image : List Byte} {fuel : ℕ} {buf flags modsCount modStart : Word}
  {c : Console}

variable (buf) in
open Initrd in
/-- Mounting and the test end, and the array holds what they store exactly when
`hello.txt` is short. -/
theorem bootFiles_fits_iff (packs : mkfs files = some image) (directory : Directory files)
    (loaded : Loaded c.mem modStart image) (modules : flags.getLsbD 3 = true)
    (some : modsCount > 0) (first : c.stores = []) (enough : 64 ≤ fuel) :
    ∃ c', bootFiles fuel buf flags modsCount modStart c = Option.some c' ∧
      (∀ later, Requests c'.fs later → Shows (shown files) modStart image later) ∧
      (Console.FitsBuffer buf c'.stores ↔ HelloFits files) := by
  obtain ⟨mounted, value, shows⟩ := initrdInitialize_shows packs directory.noNul loaded c.fs
  obtain ⟨listed, lists, requests, -, stores⟩ := listFiles_ends
    (fun later requests => (shows later requests).2) (fun g member => shown_short member) enough
    10 0 (Nat.le_refl _)
    (({ c with fs := mounted, fsRoot := Option.some .root } : Console).print
      (charsOf "Initrd filesystem mounted. Files:\n")) .refl
  have call : bootFiles fuel buf flags modsCount modStart c = vfsTest fuel buf .root listed := by
    rw [bootFiles, if_pos modules, if_pos some, value]
    simp only [Option.bind_eq_bind, Option.bind_some, lists]
  rw [call]
  have empty : listed.stores = [] := stores.trans first
  have named : Holds (literalText "hello.txt") (charsOf "hello.txt") :=
    literalText_holds _ (by decide)
  obtain ⟨isMounted, whole⟩ := shows listed.fs requests
  have answer := whole.finddir _ _ named fuel enough
  cases found : firstNamed ((shown files).map File.name) (charsOf "hello.txt") with
  | none =>
      rw [found] at answer
      obtain ⟨c', ends, sameFs, kept⟩ := @vfsTest_absent fuel buf .root listed answer
      refine ⟨c', ends, fun later more => (shows later (requests.trans (sameFs ▸ more))).2, ?_⟩
      rw [kept, empty]
      exact iff_of_true (fun store member => absurd member List.not_mem_nil)
        (helloFits_of_absent (firstNamed_eq_none_iff.mp found))
  | some n =>
      obtain ⟨i, rfl⟩ := firstNamed_file found
      rw [found] at answer
      obtain ⟨c', ends, sameFs, kept⟩ := @vfsTest_found fuel buf .root listed _ answer
      refine ⟨c', ends, fun later more => (shows later (requests.trans (sameFs ▸ more))).2, ?_⟩
      obtain ⟨atIndex, -⟩ := firstNamed_eq_some_iff.mp found
      rw [List.getElem?_map, Option.map_eq_some_iff] at atIndex
      obtain ⟨g, shownAt, hello⟩ := atIndex
      have count : (Initrd.fsRead listed.fs listed.mem (.file i) 0 (listed.fs.node (.file i)).length
          buf).val.2 = (listed.fs.nodes i).length :=
        fsRead_whole _ _ _ _ (isMounted.nodes i (lt_of_getElem?_eq_some shownAt)).read
      rw [kept, empty, List.nil_append, Console.fitsBuffer_read_iff, Console.read_count, count,
        (whole.read i _ shownAt).1]
      exact (helloFits_iff_of_shown directory (List.mem_of_getElem? shownAt) hello).symm

end Boot

end OrbitOs.Kernel
