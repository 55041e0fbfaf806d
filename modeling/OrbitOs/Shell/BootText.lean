import OrbitOs.Shell.Session

/-!
# What the boot says about the archive

`kernel_main` mounts the archive, lists its first ten files and prints `hello.txt`.  The
console it leaves serves the archive to the shell.
-/

set_option autoImplicit false

namespace OrbitOs.Shell

open OrbitOs.Machine OrbitOs.Base OrbitOs.Kernel OrbitOs.Drivers OrbitOs.Fs

/-! ## The text -/

def listed (files : List File) : List Byte :=
  files.flatMap fun f => charsOf " - " ++ f.name ++ charsOf "\n"

def helloText (files : List File) : List Byte :=
  match files.find? fun f => f.name = charsOf "hello.txt" with
  | some f => charsOf "Read from VFS (hello.txt): " ++ beforeZero f.data ++ charsOf "\n"
  | none => charsOf "ERROR: hello.txt not found in initrd.\n"

def bootText (files : List File) : List Byte :=
  charsOf "Initrd filesystem mounted. Files:\n" ++ listed (files.take 10) ++ helloText files

section Archive

variable {files : List File} {image : List Byte} {location : Word} {m₀ : Mem}

/-! ## The listing -/

theorem listed_drop_take {gs : List File} {i : ℕ} {g : File} (found : gs[i]? = some g) (n : ℕ) :
    listed ((gs.drop i).take (n + 1)) =
      charsOf " - " ++ g.name ++ charsOf "\n" ++ listed ((gs.drop (i + 1)).take n) := by
  obtain ⟨bound, here⟩ := List.getElem?_eq_some_iff.mp found
  rw [List.drop_eq_getElem_cons bound, here, List.take_succ_cons]
  rfl

/-- From entry `i` on, with `left` turns to go. -/
theorem listFiles_answers {fuel : ℕ} (enough : 64 ≤ fuel) (left i : ℕ) (low : i + left ≤ 10)
    {c : Console} (serving : Serving files image location m₀ c) :
    ∃ c', listFiles fuel .root left i c = some c' ∧
      c'.terminal = c.terminal.write (listed (((Initrd.shown files).drop i).take left)) ∧
      Serving files image location m₀ c' ∧ c'.mem = c.mem := by
  induction left generalizing i c with
  | zero =>
      refine ⟨c, rfl, ?_, serving, rfl⟩
      rw [List.take_zero]
      rfl
  | succ left ih =>
      have index : (BitVec.ofNat 32 i).toNat = i := by
        rw [BitVec.toNat_ofNat]
        omega
      rw [listFiles]
      rcases Nat.lt_or_ge i (Initrd.shown files).length with inside | beyond
      · obtain ⟨g, st', entry, found, nameShort, answer, holds, request⟩ := serving.entry inside
        have serving' : Serving files image location m₀ ((({ c with fs := st' } : Console).print
            (charsOf " - ")).print g.name |>.print (charsOf "\n")) :=
          serving.later request rfl serving.loaded
        obtain ⟨c', ends, printed, after, mem⟩ := ih (i + 1) (by omega) serving'
        rw [answer]
        simp only [Option.bind_eq_bind, Option.bind_some]
        rw [Console.writestring_holds _ holds (by omega), Option.bind_some]
        refine ⟨c', ends, ?_, after, mem⟩
        rw [printed, listed_drop_take found]
        simp only [Console.print_terminal, write_append, List.append_assoc]
      · rw [(serving.shows c.fs .refl).2.readdirEnd _ (index.symm ▸ beyond)]
        obtain ⟨c', ends, printed, after, mem⟩ := ih (i + 1) (by omega) serving
        refine ⟨c', ends, ?_, after, mem⟩
        rw [printed, List.drop_of_length_le beyond, List.drop_of_length_le (by omega),
          List.take_nil, List.take_nil]

/-! ## The test of the file system -/

section Packed

variable (packs : mkfs files = some image) (noNul : ∀ f ∈ files, 0 ∉ f.name)
  (loaded₀ : Initrd.Loaded m₀ location image) (small : image.length ≤ 2 ^ 32)

include packs noNul loaded₀ small

theorem vfsTest_answers {c : Console} (serving : Serving files image location m₀ c) {buf : Word}
    (apart : Apart buf 256 location image.length) {fuel : ℕ} (enough : 64 ≤ fuel)
    (short : ∀ f ∈ Initrd.shown files, f.name = charsOf "hello.txt" → f.data.length ≤ 255) :
    ∃ c', vfsTest fuel buf .root c = some c' ∧
      c'.terminal = c.terminal.write (helloText (Initrd.shown files)) ∧
      Serving files image location m₀ c' := by
  have name : Holds (literalText "hello.txt") (charsOf "hello.txt") :=
    literalText_holds _ (by decide)
  have search := (serving.shows c.fs .refl).2.finddir _ _ name fuel enough
  rw [vfsTest]
  simp only [Option.bind_eq_bind]
  cases named : Initrd.firstNamed ((Initrd.shown files).map File.name) (charsOf "hello.txt") with
  | none =>
      rw [search, named, Option.bind_some, helloText, find_of_not_named named]
      exact ⟨_, rfl, rfl, serving.print _⟩
  | some n =>
      obtain ⟨j, rfl⟩ := Initrd.firstNamed_file named
      obtain ⟨g, found, first⟩ := find_of_firstNamed named
      obtain ⟨bytes, length, read, -, inImage⟩ := serving.contents packs noNul loaded₀ found
      have isHello := List.find?_some first
      have fits := short g (List.mem_of_getElem? found) (of_decide_eq_true isHello)
      have node : c.fs.node (.file j) = c.fs.nodes j := rfl
      have bufferApart : BufferApart (c.fs.nodes j) buf :=
        fun y inBuffer inFile => apart y inBuffer (inImage y inFile)
      have whole : (c.fs.nodes j).length.toNat = min 255 (c.fs.nodes j).length.toNat := by omega
      have begins : (0 : Word).toNat + (c.fs.nodes j).length.toNat =
          (c.fs.nodes j).length.toNat := Nat.zero_add _
      obtain ⟨c₁, count, filled, size, sameFs, sameTerminal, -, piece⟩ :=
        cat_piece bufferApart node read whole begins
      obtain ⟨-, agree⟩ := piece_frame c (.file j) 0 (c.fs.nodes j).length buf (by omega)
      have sameRoot : (c.read (.file j) 0 (c.fs.nodes j).length buf).1.fsRoot = c.fsRoot := rfl
      rw [filled] at agree sameRoot
      dsimp only at agree sameRoot
      obtain ⟨k, terminated, text⟩ := terminated_beforeZero count.isLt
        (c₁.store_terminator buf count)
      have contents : Initrd.bytesFrom (c₁.store (buf + count) 0).mem buf count.toNat = g.data := by
        have zero : (0 : Word).toNat = 0 := rfl
        rw [piece, bytes, zero, List.drop_zero, List.take_of_length_le fits]
      rw [contents] at text
      rw [search, named, Option.bind_some, helloText, first]
      dsimp only
      rw [node, filled]
      dsimp only
      rw [Console.writeBuffer_terminated _ (by exact terminated), Option.bind_some]
      have after : Serving files image location m₀ (((c₁.store (buf + count) 0).print
          (charsOf "Read from VFS (hello.txt): ")).print (beforeZero g.data)) := by
        refine serving.later ?_ sameRoot (loaded_of_agreeOff serving.loaded small apart agree)
        rw [Console.print_fs, Console.print_fs, Console.store_fs, sameFs]
      refine ⟨_, rfl, ?_, ?_⟩
      · simp only [Console.print_terminal, Console.print_mem, Console.store_terminal,
          sameTerminal, text, write_append, List.append_assoc]
      · rw [Console.print_mem, text]
        exact after.print _

end Packed

/-! ## From the boot to the shell -/

/-- The boot prints the first ten names and `hello.txt`, if this file is short, and whatever
is typed at a shell that is started afterwards is answered from the same archive. -/
theorem boot_leads_to_dialogue (packs : mkfs files = Option.some image)
    (noNul : ∀ f ∈ files, 0 ∉ f.name) {c : Console} (loaded : Initrd.Loaded c.mem location image)
    (small : image.length ≤ 2 ^ 32) {buf flags modsCount : Word}
    (modules : flags.getLsbD 3 = true) (some : modsCount > 0)
    (apart : Apart buf 256 location image.length)
    (short : ∀ f ∈ Initrd.shown files, f.name = charsOf "hello.txt" → f.data.length ≤ 255)
    {fuel : ℕ} (long : 256 ≤ fuel) (enough : ∀ f ∈ Initrd.shown files, f.data.length < fuel) :
    ∃ c', bootFiles fuel buf flags modsCount location c = Option.some c' ∧
      c'.terminal = c.terminal.write (bootText (Initrd.shown files)) ∧
      ∀ s : Session, Initrd.Requests c'.fs s.console.fs → s.console.fsRoot = c'.fsRoot →
        Initrd.Loaded s.console.mem location image →
        ∀ keys : List Keystroke, (∀ k ∈ keys, k.StackApart location image.length) →
          ∃ s', s.start.run (fuel + 2) keys = Option.some s' ∧
            let d := (Dialogue.start s.console.terminal).run
              (archiveVolume (Initrd.shown files)) keys
            s'.console.terminal = d.screen ∧ d.screen.serial = d.transcript := by
  obtain ⟨mounted, value, shows⟩ := Initrd.initrdInitialize_shows packs noNul loaded c.fs
  have serving : Serving files image location c.mem (({ c with
      fs := mounted, fsRoot := Option.some .root } : Console).print
        (charsOf "Initrd filesystem mounted. Files:\n")) :=
    ⟨rfl, shows, loaded⟩
  obtain ⟨c₁, lists, printed, serving₁, -⟩ := listFiles_answers (by omega : 64 ≤ fuel) 10 0
    (Nat.le_refl _) serving
  obtain ⟨c', tests, shown, serving'⟩ := vfsTest_answers packs noNul loaded small serving₁ apart
    (by omega : 64 ≤ fuel) short
  refine ⟨c', ?_, ?_, fun s requests root later keys stacksApart => ?_⟩
  · rw [bootFiles, if_pos modules, if_pos some, value]
    simp only [Option.bind_eq_bind, Option.bind_some, lists]
    exact tests
  · rw [shown, printed, List.drop_zero, bootText]
    simp only [Console.print_terminal, write_append, List.append_assoc]
  · have atShell : Serving files image location c.mem s.console :=
      serving'.later requests root later
    have provides := serving_provides packs noNul loaded small long enough
    obtain ⟨s', ran, -, follows, sent⟩ := session_carries_on provides long s atShell keys
      stacksApart
    exact ⟨s', ran, follows.screen, follows.screen ▸ sent⟩

end Archive

theorem boot_leads_to_dialogue_greeting : ∃ image, mkfs [greeting] = some image ∧ ∃ c',
    bootFiles 256 0x9000 8 1 0x200000 (shellAt Initrd.bss (Initrd.memoryWith 0x200000 image)) =
      some c' ∧
    c'.terminal = blankScreen.write (bootText (Initrd.shown [greeting])) ∧
    ∀ s : Session, Initrd.Requests c'.fs s.console.fs → s.console.fsRoot = c'.fsRoot →
      Initrd.Loaded s.console.mem 0x200000 image →
      ∀ keys : List Keystroke, (∀ k ∈ keys, k.StackApart 0x200000 image.length) →
        ∃ s', s.start.run 258 keys = some s' ∧
          let d := (Dialogue.start s.console.terminal).run
            (archiveVolume (Initrd.shown [greeting])) keys
          s'.console.terminal = d.screen ∧ d.screen.serial = d.transcript := by
  obtain ⟨image, packs, size⟩ : ∃ image, mkfs [greeting] = some image ∧ image.length = 82 :=
    ⟨_, rfl, rfl⟩
  have loaded := Initrd.loaded_memoryWith 0x200000 image (by omega)
  have apart := lowStack_apart 0 (by omega : image.length ≤ 4096) 0 (by omega)
  exact ⟨image, packs, boot_leads_to_dialogue packs (by decide) loaded (by omega) (by decide)
    (by decide) apart (by decide) (by decide : 256 ≤ 256) (by decide)⟩

/-! ## A boot without an archive -/

def bareText (flags : Word) : List Byte :=
  if flags.getLsbD 3 then [] else charsOf "WARNING: No initrd module loaded by GRUB.\n"

theorem bootFiles_bare {flags modsCount : Word} (bare : flags.getLsbD 3 = false ∨ modsCount = 0)
    (fuel : ℕ) (buf modStart : Word) (c : Console) :
    bootFiles fuel buf flags modsCount modStart c = some (c.print (bareText flags)) := by
  rw [bootFiles, bareText]
  by_cases announced : flags.getLsbD 3 = true
  · have noModules : ¬ modsCount > 0 := by
      rcases bare with silent | rfl
      · exact absurd announced (Bool.eq_false_iff.mp silent)
      · decide
    rw [if_pos announced, if_neg noModules, if_pos announced]
    rfl
  · rw [if_neg announced, if_neg announced]
    rfl

/-- A boot without a module mounts nothing, and a shell that is started afterwards says so
whenever it is asked for a file.  Neither touches the file system or the memory. -/
theorem bare_boot_leads_to_dialogue {flags modsCount : Word}
    (bare : flags.getLsbD 3 = false ∨ modsCount = 0) {c : Console} (unmounted : c.fsRoot = none)
    (buf modStart : Word) {fuel : ℕ} (long : 256 ≤ fuel) :
    ∃ c', bootFiles fuel buf flags modsCount modStart c = some c' ∧
      c'.fs = c.fs ∧ c'.mem = c.mem ∧ c'.terminal = c.terminal.write (bareText flags) ∧
      ∀ s : Session, s.console.fsRoot = c'.fsRoot → ∀ keys : List Keystroke,
        ∃ s', s.start.run (fuel + 2) keys = some s' ∧
          s'.console.fs = s.console.fs ∧ s'.console.mem = s.console.mem ∧
          let d := (Dialogue.start s.console.terminal).run noVolume keys
          s'.console.terminal = d.screen ∧ d.screen.serial = d.transcript := by
  refine ⟨_, bootFiles_bare bare fuel buf modStart c, rfl, rfl, rfl, fun s root keys => ?_⟩
  have here : Unmounted s.console.fs s.console.mem s.console := ⟨root.trans unmounted, rfl, rfl⟩
  obtain ⟨s', ran, after, follows, sent⟩ := session_carries_on
    (unmounted_provides fuel s.console.fs s.console.mem) long s here keys
    (fun _ _ _ _ => trivial)
  exact ⟨s', ran, after.fs, after.mem, follows.screen, follows.screen ▸ sent⟩

theorem bare_boot_leads_to_dialogue_blank :
    let c : Console := { shellAt Initrd.bss (fun _ => 0) with fsRoot := none }
    ∃ c', bootFiles 256 0x9000 0 0 0 c = some c' ∧
      c'.fs = c.fs ∧ c'.mem = c.mem ∧ c'.terminal = c.terminal.write (bareText 0) ∧
      ∀ s : Session, s.console.fsRoot = c'.fsRoot → ∀ keys : List Keystroke,
        ∃ s', s.start.run 258 keys = some s' ∧
          s'.console.fs = s.console.fs ∧ s'.console.mem = s.console.mem ∧
          let d := (Dialogue.start s.console.terminal).run noVolume keys
          s'.console.terminal = d.screen ∧ d.screen.serial = d.transcript :=
  bare_boot_leads_to_dialogue (.inl (by decide)) rfl 0x9000 0 (by decide : 256 ≤ 256)

end OrbitOs.Shell
