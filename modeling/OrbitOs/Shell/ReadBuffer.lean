import OrbitOs.Shell.Cat

/-!
# The buffers that files are read into

`cat` asks for at most 255 bytes at a time, so its array of 256 bytes always
holds a piece and its terminator.  `kernel_main` asks for the whole of
`hello.txt`.
-/

set_option autoImplicit false

namespace OrbitOs.Shell

open OrbitOs.Machine OrbitOs.Kernel OrbitOs.Base OrbitOs.Drivers OrbitOs.Fs

/-- The command `cat` ends and stores in its own array only, whatever the name. -/
theorem cat_fits {files : List File} {location : Word} {image : List Byte} {c : Console}
    (shows : Initrd.Shows files location image c.fs) (fsRoot : c.fsRoot = some .root)
    (inputs : Inputs) (depth : ℕ) {name : List Byte} {cmd : Chars}
    (holds : Holds cmd (catLine name)) {fuel : ℕ} (enough : 2 ^ 32 + name.length + 5 < fuel) :
    ∃ c', executeCommand inputs fuel depth cmd c = some c' ∧
      (Console.FitsBuffer (inputs.buf depth) c.stores →
        Console.FitsBuffer (inputs.buf depth) c'.stores) := by
  obtain ⟨fuel, rfl⟩ := Nat.exists_eq_succ_of_ne_zero (by omega : fuel ≠ 0)
  have answer := shows.finddir _ _ (catLine_name holds) fuel (by omega)
  rw [executeCommand_cat inputs holds (by omega), cat, fsRoot]
  simp only [answer, Option.bind_eq_bind, Option.bind_some]
  -- what is printed does not matter
  have printed : ∀ (c' : Console) (text : List Byte),
      (Console.FitsBuffer (inputs.buf depth) c.stores →
        Console.FitsBuffer (inputs.buf depth) c'.stores) →
      ∃ after, (pure (c'.print text) : Option Console) = some after ∧
        (Console.FitsBuffer (inputs.buf depth) c.stores →
          Console.FitsBuffer (inputs.buf depth) after.stores) :=
    fun c' text fits => ⟨c'.print text, rfl, fits⟩
  cases Initrd.firstNamed (files.map File.name) name with
  | none => exact printed c _ id
  | some n =>
      dsimp only
      by_cases directory : (c.fs.node n).flags &&& 0x07 = fsDirectory
      · rw [if_pos directory]
        exact printed c _ id
      · have length := (c.fs.node n).length.isLt
        obtain ⟨c', ends, fits⟩ := catLoop_ends n (inputs.buf depth) fuel (c.fs.node n).length 0 c
          (by omega)
        rw [if_neg directory, ends]
        exact printed c' _ fits

/-- Every read of a boot with a loaded image and of the shell after it, with the
terminator that the caller stores, is in the caller's array. -/
structure ReadsFit (fuel : ℕ) (buf flags modsCount modStart : Word) (c : Console) : Prop where
  boot : ∃ c', bootFiles fuel buf flags modsCount modStart c = some c' ∧
    Console.FitsBuffer buf c'.stores
  cat : ∀ c', bootFiles fuel buf flags modsCount modStart c = some c' → ∀ shell : Console,
    Initrd.Requests c'.fs shell.fs → shell.fsRoot = some .root → shell.stores = [] →
      ∀ (inputs : Inputs) (depth : ℕ) (name : List Byte) (cmd : Chars), Holds cmd (catLine name) →
        ∀ fuel', 2 ^ 32 + name.length + 5 < fuel' →
          ∃ after, executeCommand inputs fuel' depth cmd shell = some after ∧
            Console.FitsBuffer (inputs.buf depth) after.stores

section

variable {files : List File} {image : List Byte} {fuel : ℕ} {buf flags modsCount modStart : Word}
  {c : Console}

/-- A boot whose reads fit is one with a short `hello.txt`, or with none. -/
theorem readsFit_iff (packs : mkfs files = some image) (directory : Initrd.Directory files)
    (loaded : Initrd.Loaded c.mem modStart image) (modules : flags.getLsbD 3 = true)
    (some : modsCount > 0) (first : c.stores = []) (enough : 64 ≤ fuel) :
    ReadsFit fuel buf flags modsCount modStart c ↔ HelloFits files := by
  obtain ⟨booted, ends, shows, fitsIff⟩ :=
    bootFiles_fits_iff buf packs directory loaded modules some first enough
  constructor
  · intro fit
    obtain ⟨c', ends', fits⟩ := fit.boot
    cases ends.symm.trans ends'
    exact fitsIff.mp fits
  · intro short
    refine ⟨⟨booted, ends, fitsIff.mpr short⟩, ?_⟩
    intro c' ends' shell requests fsRoot unused inputs depth name cmd holds fuel' enough'
    cases ends.symm.trans ends'
    obtain ⟨after, done, fits⟩ := cat_fits (shows shell.fs requests) fsRoot inputs depth holds
      enough'
    refine ⟨after, done, fits ?_⟩
    rw [unused]
    exact fun store member => absurd member List.not_mem_nil

end

def bootAt (mem : Mem) : Console := ⟨Initrd.bss, none, mem, blankScreen, []⟩

def shortHello : List File := [⟨charsOf "hello.txt", [0x68, 0x69]⟩]

theorem readsFit_iff_shortHello : ∃ image, mkfs shortHello = some image ∧
    (ReadsFit 64 0x9000 0x8 1 0x200000 (bootAt (Initrd.memoryWith 0x200000 image)) ↔
      HelloFits shortHello) := by
  obtain ⟨image, packs, size⟩ : ∃ image, mkfs shortHello = some image ∧ image.length = 82 :=
    ⟨_, rfl, rfl⟩
  have directory : Initrd.Directory shortHello := ⟨by decide, by decide⟩
  exact ⟨image, packs, readsFit_iff packs directory
    (Initrd.loaded_memoryWith _ _ (by omega)) (by decide) (by decide) rfl (by decide)⟩

def longHello : List File := [⟨charsOf "hello.txt", List.replicate 256 0x41⟩]

set_option maxRecDepth 2000 in
/-- The terminator is stored behind the array. -/
theorem longHello_overflows : ∃ image, mkfs longHello = some image ∧
    ∃ c', bootFiles 64 0x9000 0x8 1 0x200000 (bootAt (Initrd.memoryWith 0x200000 image)) = some c' ∧
      ¬ Console.FitsBuffer 0x9000 c'.stores := by
  obtain ⟨image, packs, size⟩ : ∃ image, mkfs longHello = some image ∧ image.length = 336 :=
    ⟨_, rfl, rfl⟩
  have directory : Initrd.Directory longHello := ⟨by decide, by decide⟩
  have loaded : Initrd.Loaded (bootAt (Initrd.memoryWith 0x200000 image)).mem 0x200000 image :=
    Initrd.loaded_memoryWith _ _ (by omega)
  obtain ⟨c', ends, -, fitsIff⟩ := @bootFiles_fits_iff longHello image 64 0x9000 0x8 1 0x200000 _
    packs directory loaded (by decide) (by decide) rfl (by decide)
  exact ⟨image, packs, c', ends, fun fits => absurd (fitsIff.mp fits) (by decide)⟩

end OrbitOs.Shell
