import OrbitOs.Shell.Cat

/-!
# What the lines of the shell mean

A line is answered with a text that depends on the line, on what the file system
provides and on what the rest of the system reports.  `execute_command` gives this answer
for every line, whether an archive is mounted or not, and whatever the state of the file
system's caches and of the memory outside the archive.
-/

set_option autoImplicit false

namespace OrbitOs.Shell

open OrbitOs.Machine OrbitOs.Base OrbitOs.Kernel OrbitOs.Drivers OrbitOs.Fs

/-! ## The meaning of a line -/

def rowText (r : Row) : List Byte :=
  hexChars (BitVec.ofNat 32 r.bus) 2 ++ charsOf "   " ++
    (hexChars (BitVec.ofNat 32 r.slot) 2 ++ charsOf "   ") ++
    (hexChars (BitVec.ofNat 32 r.func) 1 ++ charsOf "    ") ++
    (hexChars (r.vendorId.setWidth 32) 4 ++ charsOf "     ") ++
    (hexChars (r.deviceId.setWidth 32) 4 ++ charsOf "     ") ++
    (hexChars (r.classId.setWidth 32) 2 ++ charsOf ":") ++
    (hexChars (r.subclassId.setWidth 32) 2 ++ charsOf "\n")

def lspciText (space : ConfigSpace) : List Byte :=
  charsOf "Bus  Slot Func Vendor   Device   Class\n" ++
    charsOf "------------------------------------------\n" ++ (table space).flatMap rowText

/-- What the file system says: the text of `ls`, and the text of `cat` for a name. -/
structure Volume where
  listing : List Byte
  file : List Byte → List Byte

def listing (files : List File) : List Byte :=
  files.flatMap fun f => charsOf "(file) " ++ f.name ++ charsOf "\n"

def fileAnswer (files : List File) (name : List Byte) : List Byte :=
  match files.find? fun f => f.name = name with
  | some f => catText f.data ++ charsOf "\n"
  | none => charsOf "File not found.\n"

def archiveVolume (files : List File) : Volume := ⟨listing files, fileAnswer files⟩

/-- Nothing is mounted. -/
def noVolume : Volume :=
  ⟨charsOf "No filesystem mounted.\n", fun _ => charsOf "No filesystem mounted.\n"⟩

/-- What a command prints for a line. -/
def commandAnswer (inputs : Inputs) (volume : Volume) (x : List Byte) : Command → List Byte
  | .help => helpLines.flatMap charsOf
  | .version => charsOf "Orbit OS v0.1.0\n"
  | .memory => inputs.memoryText
  | .ls => volume.listing
  | .dir => volume.listing
  | .cat => volume.file (x.drop 4)
  | .type => volume.file (x.drop 5)
  | .date => inputs.dateText
  | .lspci => lspciText inputs.space
  | .netinfo => inputs.netinfoText
  | .exit => charsOf "Shutting down QEMU...\n"
  | .clear => []
  | .cls => []
  | .echo => x.drop 5 ++ charsOf "\n"

/-- The command of a line. -/
def commandOf (x : List Byte) : Option Command :=
  (commands.find? fun entry => entry.1.Passes x).map Prod.snd

def answer (inputs : Inputs) (volume : Volume) (x : List Byte) : List Byte :=
  if x = [] then []
  else
    match commandOf x with
    | some command => commandAnswer inputs volume x command
    | none => charsOf "Unknown command: " ++ x ++ charsOf "\n"

def Clears (x : List Byte) : Prop := x = charsOf "clear" ∨ x = charsOf "cls"

instance (x : List Byte) : Decidable (Clears x) := inferInstanceAs (Decidable (_ ∨ _))

/-- What a line does to the screen. -/
def respond (inputs : Inputs) (volume : Volume) (x : List Byte) (t : Terminal) : Terminal :=
  if Clears x then t.terminalInitialize else t.write (answer inputs volume x)

/-! ## Texts written in pieces -/

theorem printRow_eq (r : Row) (t : Terminal) : printRow r t = t.write (rowText r) := by
  simp only [printRow, printHex, write_append, rowText, List.append_assoc]

theorem foldl_write {α : Type} (l : List α) (text : α → List Byte) (t : Terminal) :
    l.foldl (fun t a => t.write (text a)) t = t.write (l.flatMap text) := by
  induction l generalizing t with
  | nil => rfl
  | cons a l ih => rw [List.foldl_cons, ih, write_append, List.flatMap_cons]

theorem pciEnumerate_eq (space : ConfigSpace) (t : Terminal) :
    pciEnumerate space t = t.write (lspciText space) := by
  rw [pciEnumerate, enumerateAll_eq_flatMap, ← table_eq_flatMap]
  simp only [printRow_eq, foldl_write, write_append, lspciText, List.append_assoc]

theorem foldl_print {α : Type} (l : List α) (text : α → List Byte) (c : Console) :
    l.foldl (fun c a => c.print (text a)) c = c.print (l.flatMap text) := by
  induction l generalizing c with
  | nil => rfl
  | cons a l ih =>
      rw [List.foldl_cons, ih, Console.print, Console.print, Console.print, write_append,
        List.flatMap_cons]

theorem holds_drop {a : Chars} {x : List Byte} (holds : Holds a x) {n : ℕ} (bound : n ≤ x.length) :
    Holds (fun k => a (k + n)) (x.drop n) := by
  refine ⟨fun member => holds.1 (List.mem_of_mem_drop member), fun k inside => ?_⟩
  rw [List.length_drop] at inside
  dsimp only
  rw [holds.2 (k + n) (by omega), List.getD_eq_getElem?_getD, List.getD_eq_getElem?_getD,
    List.getElem?_drop, Nat.add_comm n k]

/-! ## The frame of `cat` -/

theorem replayBytes_agreeOff {touched : Word → Prop} {stores : List ByteStore}
    (inside : ∀ store ∈ stores, touched store.1) (m : Mem) :
    AgreeOff touched m (replayBytes m stores) := by
  induction stores generalizing m with
  | nil => exact .refl _ _
  | cons store stores ih =>
      have first : AgreeOff touched m (stByte m store.1 store.2) := by
        intro x off
        refine if_neg fun same => off ?_
        rw [same]
        exact inside store List.mem_cons_self
      exact first.trans (ih (fun s member => inside s (List.mem_cons_of_mem _ member)) _)

/-- A read and the terminator behind it change no memory but the array. -/
theorem piece_frame (c : Console) (fsnode : NodeRef) (offset readSz buf : Word)
    (small : readSz.toNat ≤ 255) :
    let filled := c.read fsnode offset readSz buf
    AgreeOff (Within buf 256) c.mem filled.1.mem ∧
      AgreeOff (Within buf 256) c.mem (filled.1.store (buf + filled.2) 0).mem := by
  have count := fsRead_count_le c.fs c.mem fsnode offset readSz buf
  rw [← Console.read_count] at count
  have fits := (Console.fitsBuffer_read_iff c fsnode offset readSz buf).mpr (by omega)
  obtain ⟨inside, last⟩ := Console.FitsBuffer.append.mp fits
  have read := replayBytes_agreeOff inside c.mem
  rw [replayBytes_fsReadStores, ← Console.read_mem] at read
  refine ⟨read, read.trans fun x off => if_neg fun same => off ?_⟩
  rw [same]
  exact last (buf + (c.read fsnode offset readSz buf).2, 0) (List.mem_singleton.mpr rfl)

/-- `cat` changes no memory but its array, and no file system. -/
theorem catLoop_frame (fsnode : NodeRef) (buf : Word) (fuel : ℕ) (sz offset : Word)
    (c c' : Console) (ends : catLoop fsnode buf fuel sz offset c = some c') :
    c'.fs = c.fs ∧ c'.fsRoot = c.fsRoot ∧ AgreeOff (Within buf 256) c.mem c'.mem := by
  induction fuel generalizing sz offset c with
  | zero => exact absurd ends.symm (Option.some_ne_none c')
  | succ fuel ih =>
      rw [catLoop] at ends
      by_cases more : sz > 0
      · rw [if_pos more] at ends
        have size := readSz_toNat sz
        generalize (if sz > 255 then 255 else sz) = readSz at size ends
        obtain ⟨filled, ended⟩ := piece_frame c fsnode offset readSz buf (by omega)
        have sameFs := c.read_fs fsnode offset readSz buf
        have sameRoot : (c.read fsnode offset readSz buf).1.fsRoot = c.fsRoot := rfl
        dsimp only at ends
        generalize c.read fsnode offset readSz buf = result at filled ended ends sameFs sameRoot
        obtain ⟨c₁, bytes⟩ := result
        dsimp only at filled ended ends sameFs sameRoot
        by_cases none : bytes = 0
        · rw [if_pos none] at ends
          cases ends
          exact ⟨sameFs, sameRoot, filled⟩
        · rw [if_neg none] at ends
          obtain ⟨n, terminated, -⟩ := terminated_beforeZero bytes.isLt
            (c₁.store_terminator buf bytes)
          rw [Console.writeBuffer_terminated _ terminated] at ends
          obtain ⟨fs, fsRoot, mem⟩ := ih _ _ _ ends
          exact ⟨fs.trans sameFs, fsRoot.trans sameRoot, ended.trans mem⟩
      · rw [if_neg more] at ends
        cases ends
        exact ⟨rfl, rfl, .refl _ _⟩

/-! ## The line of `type` -/

theorem typeLine_holds (temp : Chars) {cmd : Chars} {x : List Byte} (holds : Holds cmd x)
    (five : 5 ≤ x.length) (short : x.length ≤ 255) :
    ∃ line, typeLine temp cmd = some line ∧ Holds line (catLine (x.drop 5)) := by
  have prefixText : Holds (literalText "cat ") (charsOf "cat ") :=
    literalText_holds _ (by decide)
  have fits : (charsOf "cat ").length < 256 := by decide
  obtain ⟨d, copied, isPrefix⟩ :=
    @strcpy_holds Unit 256 temp (chars (literalText "cat ")) _ prefixText fits
  have rest := holds_drop holds five
  have restFits : (x.drop 5).length < 252 := by
    rw [List.length_drop]
    omega
  obtain ⟨tail, copiedTail, isTail⟩ := @strcpy_holds Unit 252 (fun k => d (k + 4))
    (chars fun k => cmd (k + 5)) _ rest restFits
  refine ⟨fun k => if k < 4 then d k else tail (k - 4), ?_, ?_, ?_⟩
  · rw [typeLine, copied]
    simp only [Option.bind_eq_bind, Option.bind_some, copiedTail]
    rfl
  · rw [catLine, List.mem_append]
    exact fun member => member.elim (by decide) rest.1
  · intro k bound
    have four : (charsOf "cat ").length = 4 := by decide
    rw [catLine, List.length_append, four] at bound
    dsimp only
    by_cases front : k < 4
    · rw [if_pos front, isPrefix.2 k (by omega), catLine, List.getD_append _ _ _ _ (by omega)]
    · rw [if_neg front, isTail.2 (k - 4) (by omega), catLine,
        List.getD_append_right _ _ _ _ (by omega), four]

/-! ## The command of a line -/

theorem passes_of_commandOf {x : List Byte} {command : Command}
    (found : commandOf x = some command) : ∃ test, (test, command) ∈ commands ∧ test.Passes x := by
  obtain ⟨entry, first, rfl⟩ := Option.map_eq_some_iff.mp found
  have passes := List.find?_some first
  exact ⟨entry.1, List.mem_of_find?_eq_some first, of_decide_eq_true passes⟩

def Command.clears : Command → Bool
  | .clear | .cls => true
  | _ => false

theorem commandOf_clear : commandOf (charsOf "clear") = some .clear := by
  simp [commandOf, commands, Test.Passes, charsOf]

theorem commandOf_cls : commandOf (charsOf "cls") = some .cls := by
  simp [commandOf, commands, Test.Passes, charsOf]

theorem clears_of_commandOf {x : List Byte} (clears : Clears x) :
    ∃ command, commandOf x = some command ∧ command.clears = true := by
  rcases clears with rfl | rfl
  · exact ⟨.clear, commandOf_clear, rfl⟩
  · exact ⟨.cls, commandOf_cls, rfl⟩

theorem respond_command (inputs : Inputs) (volume : Volume) {x : List Byte} {command : Command}
    (found : commandOf x = some command) (nonempty : x ≠ []) (keeps : command.clears = false)
    (t : Terminal) :
    respond inputs volume x t = t.write (commandAnswer inputs volume x command) := by
  have noClear : ¬ Clears x := by
    intro clears
    obtain ⟨other, same, isClear⟩ := clears_of_commandOf clears
    rw [Option.some.inj (found.symm.trans same), isClear] at keeps
    exact Bool.noConfusion keeps
  rw [respond, if_neg noClear, answer, if_neg nonempty, found]

theorem respond_unknown (inputs : Inputs) (volume : Volume) {x : List Byte}
    (unknown : commandOf x = none) (nonempty : x ≠ []) (t : Terminal) :
    respond inputs volume x t =
      t.write (charsOf "Unknown command: " ++ x ++ charsOf "\n") := by
  have noClear : ¬ Clears x := by
    intro clears
    obtain ⟨other, same, -⟩ := clears_of_commandOf clears
    exact Option.some_ne_none other (same.symm.trans unknown)
  rw [respond, if_neg noClear, answer, if_neg nonempty, unknown]

/-- The branch of `ls`. -/
def lsCommand (fuel : ℕ) (c : Console) : Option Console :=
  match c.fsRoot with
  | none => some (c.print (charsOf "No filesystem mounted.\n"))
  | some fsRoot => lsLoop fuel fsRoot fuel 0 c

theorem executeCommand_ls (inputs : Inputs) (c : Console) {fuel : ℕ} (enough : 2 < fuel)
    (depth : ℕ) :
    executeCommand inputs (fuel + 1) depth (literalText "ls") c = lsCommand fuel c := by
  have holds := literalText_holds "ls" (by decide)
  have size := @strlen_holds Unit (chars (literalText "ls")) _ holds fuel enough
  have found := findCommand_holds holds (by exact enough) commands commands_noNul
  have first : (commands.find? fun entry => entry.1.Passes (charsOf "ls")).map Prod.snd =
      some .ls := by simp [commands, Test.Passes, charsOf]
  rw [executeCommand, size, found, first]
  simp only [Option.bind_eq_bind, Option.bind_some]
  rw [if_neg (by decide)]
  rfl

theorem executeCommand_clear (inputs : Inputs) (c : Console) {fuel : ℕ} (enough : 5 < fuel)
    (depth : ℕ) : executeCommand inputs (fuel + 1) depth (literalText "clear") c =
      some { c with terminal := c.terminal.terminalInitialize } := by
  have holds := literalText_holds "clear" (by decide)
  have size := @strlen_holds Unit (chars (literalText "clear")) _ holds fuel enough
  have found := findCommand_holds holds (by exact enough) commands commands_noNul
  have first : (commands.find? fun entry => entry.1.Passes (charsOf "clear")).map Prod.snd =
      some .clear := commandOf_clear
  rw [executeCommand, size, found, first]
  simp only [Option.bind_eq_bind, Option.bind_some]
  rw [if_neg (by decide)]
  rfl

/-! ## Every line is answered -/

/-- The consoles of `P` show this volume: `ls` and `cat` print its texts and lead to `P`
again, with `fuel` for their loops and an array that fits. -/
structure Provides (volume : Volume) (fuel : ℕ) (fits : Word → Prop) (P : Console → Prop) :
    Prop where
  terminal : ∀ (c : Console) (t : Terminal), P c → P { c with terminal := t }
  ls : ∀ (c : Console) (more : ℕ), P c → fuel ≤ more → ∃ c', lsCommand more c = some c' ∧
    c'.terminal = c.terminal.write volume.listing ∧ P c'
  cat : ∀ (c : Console) (more : ℕ) (buf : Word) (filename : Chars) (x : List Byte), P c →
    fuel ≤ more → fits buf → Holds filename x → ∃ c', Shell.cat more buf filename c = some c' ∧
      c'.terminal = c.terminal.write (volume.file x) ∧ P c'

theorem Provides.print {volume : Volume} {fuel : ℕ} {fits : Word → Prop} {P : Console → Prop}
    (provides : Provides volume fuel fits P) {c : Console} (here : P c) (text : List Byte) :
    P (c.print text) :=
  provides.terminal c _ here

theorem Provides.prints {volume : Volume} {fuel : ℕ} {fits : Word → Prop} {P : Console → Prop}
    (provides : Provides volume fuel fits P) {c : Console} (here : P c) (text : List Byte) :
    ∃ c', some (c.print text) = some c' ∧ c'.terminal = c.terminal.write text ∧ P c' :=
  ⟨_, rfl, rfl, provides.print here text⟩

/-- Every line ends with its answer. -/
theorem executeCommand_answers {volume : Volume} {fuel : ℕ} {fits : Word → Prop}
    {P : Console → Prop} (provides : Provides volume fuel fits P) (long : 256 ≤ fuel)
    (inputs : Inputs) {depth : ℕ} (room : fits (inputs.buf depth))
    (roomNested : fits (inputs.buf (depth + 1))) {c : Console} (here : P c) {cmd : Chars}
    {x : List Byte} (holds : Holds cmd x) (short : x.length ≤ 255) :
    ∃ c', executeCommand inputs (fuel + 2) depth cmd c = some c' ∧
      c'.terminal = respond inputs volume x c.terminal ∧ P c' := by
  have size := @strlen_holds Unit (chars cmd) _ holds (fuel + 1) (by omega)
  have found : findCommand (fuel + 1) cmd commands = some (commandOf x) :=
    findCommand_holds holds (by omega) commands commands_noNul
  by_cases empty : x = []
  · rw [executeCommand, size, empty]
    exact ⟨c, rfl, rfl, here⟩
  have nonzero : x.length ≠ 0 := fun none => empty (List.length_eq_zero_iff.mp none)
  cases named : commandOf x with
  | none =>
      rw [executeCommand, size, found, named]
      simp only [Option.bind_eq_bind, Option.bind_some]
      rw [if_neg nonzero, Console.writestring_holds _ holds (by omega), Option.bind_some,
        respond_unknown inputs _ named empty]
      refine ⟨_, rfl, ?_, provides.print (provides.print (provides.print here _) _) _⟩
      simp only [Console.print_terminal, write_append, List.append_assoc]
  | some command =>
      obtain ⟨test, entry, passes⟩ := passes_of_commandOf named
      cases command
      all_goals
        rw [executeCommand, size, found, named]
        simp only [Option.bind_eq_bind, Option.bind_some]
        rw [if_neg nonzero]
      case help =>
        rw [respond_command inputs _ named empty rfl, foldl_print]
        exact provides.prints here _
      case version =>
        rw [respond_command inputs _ named empty rfl]
        exact provides.prints here _
      case memory =>
        rw [respond_command inputs _ named empty rfl]
        exact provides.prints here _
      case date =>
        rw [respond_command inputs _ named empty rfl]
        exact provides.prints here _
      case netinfo =>
        rw [respond_command inputs _ named empty rfl]
        exact provides.prints here _
      case exit =>
        rw [respond_command inputs _ named empty rfl]
        exact provides.prints here _
      case lspci =>
        rw [respond_command inputs _ named empty rfl, pciEnumerate_eq]
        exact provides.prints here _
      case ls =>
        rw [respond_command inputs _ named empty rfl]
        exact provides.ls c (fuel + 1) here (Nat.le_succ fuel)
      case dir =>
        rw [respond_command inputs _ named empty rfl, executeCommand_ls inputs c (by omega)]
        exact provides.ls c fuel here (Nat.le_refl fuel)
      case cat =>
        rw [respond_command inputs _ named empty rfl]
        obtain rfl : test = .begins "cat " := by simpa [commands] using entry
        have four : 4 ≤ x.length := List.IsPrefix.length_le passes
        exact provides.cat c (fuel + 1) _ _ _ here (Nat.le_succ fuel) room (holds_drop holds four)
      case type =>
        rw [respond_command inputs _ named empty rfl]
        obtain rfl : test = .begins "type " := by simpa [commands] using entry
        have five : 5 ≤ x.length := List.IsPrefix.length_le passes
        obtain ⟨line, copied, isLine⟩ := typeLine_holds inputs.temp holds five short
        have shorter : (x.drop 5).length + 4 < fuel := by
          rw [List.length_drop]
          omega
        rw [copied, Option.bind_some, executeCommand_cat inputs isLine shorter]
        exact provides.cat c fuel _ _ _ here (Nat.le_refl fuel) roomNested (catLine_name isLine)
      case echo =>
        rw [respond_command inputs _ named empty rfl]
        obtain rfl : test = .begins "echo " := by simpa [commands] using entry
        have five : 5 ≤ x.length := List.IsPrefix.length_le passes
        have shorter : (x.drop 5).length < fuel + 1 := by
          rw [List.length_drop]
          omega
        rw [Console.writestring_holds _ (holds_drop holds five) shorter, Option.bind_some]
        refine ⟨_, rfl, ?_, provides.print (provides.print here _) _⟩
        simp only [Console.print_terminal, write_append, commandAnswer]
      case clear =>
        obtain rfl : test = .equal "clear" := by simpa [commands] using entry
        have cleared : Clears x := .inl passes
        rw [respond, if_pos cleared]
        exact ⟨_, rfl, rfl, provides.terminal c _ here⟩
      case cls =>
        obtain rfl : test = .equal "cls" := by simpa [commands] using entry
        have cleared : Clears x := .inr passes
        rw [respond, if_pos cleared, executeCommand_clear inputs c (by omega)]
        exact ⟨_, rfl, rfl, provides.terminal c _ here⟩

/-! ## Serving an archive -/

section Archive

variable {files : List File} {image : List Byte} {location : Word} {m₀ : Mem}

/-- The console of a machine whose file system serves the archive, which stands in
memory. -/
structure Serving (files : List File) (image : List Byte) (location : Word) (m₀ : Mem)
    (c : Console) : Prop where
  root : c.fsRoot = some .root
  shows : ∀ later, Initrd.Requests c.fs later →
    Initrd.MountedFiles (Initrd.shown files) m₀ location later ∧
      Initrd.Shows (Initrd.shown files) location image later
  loaded : Initrd.Loaded c.mem location image

theorem Serving.later {c c' : Console} (serving : Serving files image location m₀ c)
    (requests : Initrd.Requests c.fs c'.fs) (root : c'.fsRoot = c.fsRoot)
    (loaded : Initrd.Loaded c'.mem location image) : Serving files image location m₀ c' where
  root := root.trans serving.root
  shows := fun later more => serving.shows later (requests.trans more)
  loaded := loaded

theorem Serving.print {c : Console} (serving : Serving files image location m₀ c)
    (text : List Byte) : Serving files image location m₀ (c.print text) :=
  serving.later .refl rfl serving.loaded

/-- Memory that changes outside the archive. -/
theorem loaded_of_agreeOff {m m' : Mem} (loaded : Initrd.Loaded m location image)
    (small : image.length ≤ 2 ^ 32) {buf : Word} (apart : Apart buf 256 location image.length)
    (agree : AgreeOff (Within buf 256) m m') : Initrd.Loaded m' location image := by
  intro k b found
  have bound := (List.getElem?_eq_some_iff.mp found).1
  rw [agree _ fun inside => apart _ inside (within_add location bound small)]
  exact loaded k b found

/-! ### The listing -/

theorem listing_drop {gs : List File} {i : ℕ} {g : File} (found : gs[i]? = some g) :
    listing (gs.drop i) =
      charsOf "(file) " ++ g.name ++ charsOf "\n" ++ listing (gs.drop (i + 1)) := by
  obtain ⟨bound, here⟩ := List.getElem?_eq_some_iff.mp found
  rw [List.drop_eq_getElem_cons bound, here]
  rfl

/-- The answer to a request for an entry that is shown. -/
theorem Serving.entry {c : Console} (serving : Serving files image location m₀ c) {i : ℕ}
    (inside : i < (Initrd.shown files).length) :
    ∃ g st' entry, (Initrd.shown files)[i]? = some g ∧ g.name.length ≤ 63 ∧
      (Initrd.fsReaddir c.fs .root (BitVec.ofNat 32 i)).val = some (st', some entry) ∧
      Holds entry.name g.name ∧ Initrd.Requests c.fs st' := by
  have found := List.getElem?_eq_getElem inside
  obtain ⟨st', entry, answer, holds, -⟩ := (serving.shows c.fs .refl).2.readdir i _ found
  exact ⟨_, st', entry, found, Initrd.shown_short (List.mem_of_getElem? found), answer, holds,
    Relation.ReflTransGen.single (.readdir answer)⟩

theorem lsLoop_answers {strings : ℕ} (long : 64 ≤ strings) (left i : ℕ)
    (budget : i + left = (Initrd.shown files).length) {c : Console}
    (serving : Serving files image location m₀ c) {fuel : ℕ} (enough : left < fuel) :
    ∃ c', lsLoop strings .root fuel (BitVec.ofNat 32 i) c = some c' ∧
      c'.terminal = c.terminal.write (listing ((Initrd.shown files).drop i)) ∧
      Serving files image location m₀ c' := by
  have count := Initrd.length_shown files
  induction left generalizing i c fuel with
  | zero =>
      obtain ⟨fuel, rfl⟩ := Nat.exists_eq_succ_of_ne_zero (by omega : fuel ≠ 0)
      have index : (BitVec.ofNat 32 i).toNat = i := by
        rw [BitVec.toNat_ofNat]
        omega
      have done := (serving.shows c.fs .refl).2.readdirEnd (BitVec.ofNat 32 i) (by omega)
      refine ⟨c, ?_, ?_, serving⟩
      · rw [lsLoop, done]
        rfl
      · rw [List.drop_of_length_le (by omega)]
        rfl
  | succ left ih =>
      obtain ⟨fuel, rfl⟩ := Nat.exists_eq_succ_of_ne_zero (by omega : fuel ≠ 0)
      obtain ⟨g, st', entry, found, nameShort, answer, holds, request⟩ :=
        serving.entry (by omega : i < (Initrd.shown files).length)
      obtain ⟨isMounted, whole⟩ := serving.shows st' request
      have search := whole.finddir _ _ holds strings long
      have listed : g.name ∈ (Initrd.shown files).map File.name :=
        List.mem_map_of_mem (List.mem_of_getElem? found)
      cases named : Initrd.firstNamed ((Initrd.shown files).map File.name) g.name with
      | none => exact absurd listed (Initrd.firstNamed_eq_none_iff.mp named)
      | some n =>
          obtain ⟨j, rfl⟩ := Initrd.firstNamed_file named
          rw [named] at search
          have inTable : j < (Initrd.shown files).length := by
            have there := (Initrd.firstNamed_eq_some_iff.mp named).1
            have bound := (List.getElem?_eq_some_iff.mp there).1
            rwa [List.length_map] at bound
          have flags : (st'.node (.file j)).flags = fsFile := (isMounted.nodes j inTable).flags
          have notDirectory : ¬ (st'.node (.file j)).flags &&& 0x07 = fsDirectory := by
            rw [flags]
            decide
          have next : BitVec.ofNat 32 i + 1 = BitVec.ofNat 32 (i + 1) := by
            rw [BitVec.ofNat_add]
            rfl
          rw [lsLoop, answer]
          simp only [Option.bind_eq_bind, Option.bind_some, search, if_neg notDirectory]
          rw [Console.writestring_holds _ holds (by omega), Option.bind_some, next]
          have serving' : Serving files image location m₀ ((({ c with fs := st' } : Console).print
              (charsOf "(file) ")).print g.name |>.print (charsOf "\n")) :=
            serving.later request rfl serving.loaded
          obtain ⟨c', ends, printed, after⟩ := ih (i + 1) (by omega) serving'
            (by omega : left < fuel)
          refine ⟨c', ends, ?_, after⟩
          rw [printed, listing_drop found]
          simp only [Console.print_terminal, write_append, List.append_assoc]

/-! ### Files -/

section Packed

variable (packs : mkfs files = some image) (noNul : ∀ f ∈ files, 0 ∉ f.name)
  (loaded₀ : Initrd.Loaded m₀ location image) (small : image.length ≤ 2 ^ 32)

theorem find_of_firstNamed {gs : List File} {x : List Byte} {j : ℕ}
    (named : Initrd.firstNamed (gs.map File.name) x = some (.file j)) :
    ∃ g, gs[j]? = some g ∧ gs.find? (fun f => f.name = x) = some g := by
  obtain ⟨there, first⟩ := Initrd.firstNamed_eq_some_iff.mp named
  rw [List.getElem?_map, Option.map_eq_some_iff] at there
  obtain ⟨g, found, rfl⟩ := there
  obtain ⟨bound, here⟩ := List.getElem?_eq_some_iff.mp found
  refine ⟨g, found, List.find?_eq_some_iff_getElem.mpr ⟨by simp, j, bound, here, ?_⟩⟩
  intro k earlier
  have other := first k earlier
  rw [List.getElem?_map, List.getElem?_eq_getElem (by omega), Option.map_some] at other
  simpa using fun same => other (congrArg some same)

theorem find_of_not_named {gs : List File} {x : List Byte}
    (absent : Initrd.firstNamed (gs.map File.name) x = none) :
    gs.find? (fun f => f.name = x) = none := by
  have missing := Initrd.firstNamed_eq_none_iff.mp absent
  refine List.find?_eq_none.mpr fun f member same => missing ?_
  rw [← of_decide_eq_true same]
  exact List.mem_map_of_mem member

include packs noNul loaded₀ in
/-- The contents of a file in memory. -/
theorem Serving.contents {c : Console} (serving : Serving files image location m₀ c) {j : ℕ}
    {g : File} (found : (Initrd.shown files)[j]? = some g) :
    Initrd.fileBytes c.mem (c.fs.nodes j) = g.data ∧
      (c.fs.nodes j).length.toNat = g.data.length ∧ (c.fs.nodes j).read = true ∧
      (c.fs.nodes j).flags = fsFile ∧
      ∀ x, Within (c.fs.nodes j).impl (c.fs.nodes j).length.toNat x →
        Within location image.length x := by
  have layout := mkfs_layout packs
  have bound := (List.getElem?_eq_some_iff.mp found).1
  obtain ⟨f, packed, rfl⟩ : ∃ f, files[j]? = some f ∧ g = ⟨f.name.take 63, f.data⟩ := by
    rw [Initrd.shown, List.getElem?_map, Option.map_eq_some_iff] at found
    obtain ⟨f, taken, rfl⟩ := found
    rw [List.getElem?_take] at taken
    split_ifs at taken
    exact ⟨f, taken, rfl⟩
  have mounted := (serving.shows c.fs .refl).1.nodes j bound
  obtain ⟨-, length, impl⟩ := Initrd.layout_mounted layout loaded₀ packed
    (noNul f (List.mem_of_getElem? packed)) mounted
  have toNat : (c.fs.nodes j).length.toNat = f.data.length := by
    have words := Initrd.layout_words layout loaded₀ packed
    rw [length, BitVec.toNat_ofNat, Nat.mod_eq_of_lt words.2.2]
  have data := layout.data j f packed
  refine ⟨?_, toNat, mounted.read, mounted.flags, fun x inside => ?_⟩
  · apply List.ext_getElem
    · simp [Initrd.fileBytes, Initrd.bytesFrom, toNat]
    · intro k _ inData
      simp only [Initrd.fileBytes, Initrd.bytesFrom, List.getElem_map, List.getElem_range]
      rw [impl, BitVec.add_assoc, ← BitVec.ofNat_add]
      exact serving.loaded.byte data inData
  · rw [impl, toNat] at inside
    have nonempty : f.data ≠ [] := by
      intro empty
      rw [empty] at inside
      exact absurd inside (Nat.not_lt_zero _)
    exact inside.offset (data.length_le nonempty)

include packs noNul loaded₀ small in
theorem Serving.cat {c : Console} (serving : Serving files image location m₀ c) {buf : Word}
    (apart : Apart buf 256 location image.length) {filename : Chars} {x : List Byte}
    (holds : Holds filename x) {fuel : ℕ} (long : 64 ≤ fuel)
    (enough : ∀ f ∈ Initrd.shown files, f.data.length < fuel) :
    ∃ c', Shell.cat fuel buf filename c = some c' ∧
      c'.terminal = c.terminal.write (fileAnswer (Initrd.shown files) x) ∧
      Serving files image location m₀ c' := by
  have search := (serving.shows c.fs .refl).2.finddir filename x holds fuel long
  rw [Shell.cat, serving.root]
  simp only [Option.bind_eq_bind]
  cases named : Initrd.firstNamed ((Initrd.shown files).map File.name) x with
  | none =>
      rw [search, named, Option.bind_some, fileAnswer, find_of_not_named named]
      exact ⟨_, rfl, rfl, serving.print _⟩
  | some n =>
      obtain ⟨j, rfl⟩ := Initrd.firstNamed_file named
      obtain ⟨g, found, first⟩ := find_of_firstNamed named
      obtain ⟨bytes, length, read, flags, inImage⟩ :=
        serving.contents packs noNul loaded₀ found
      have node : c.fs.node (.file j) = c.fs.nodes j := rfl
      have notDirectory : ¬ (c.fs.node (.file j)).flags &&& 0x07 = fsDirectory := by
        rw [node, flags]
        decide
      have bufferApart : BufferApart (c.fs.nodes j) buf :=
        fun y inBuffer inFile => apart y inBuffer (inImage y inFile)
      have budget := enough g (List.mem_of_getElem? found)
      obtain ⟨c', ends, printed⟩ := catLoop_prints bufferApart read fuel
        (c.fs.node (.file j)).length 0 c node (Nat.zero_add _) (by rw [node, length]; exact budget)
      obtain ⟨sameFs, sameRoot, agree⟩ := catLoop_frame _ _ _ _ _ _ _ ends
      have after : Serving files image location m₀ c' := by
        refine serving.later ?_ sameRoot (loaded_of_agreeOff serving.loaded small apart agree)
        rw [sameFs]
      rw [search, named, Option.bind_some]
      dsimp only
      rw [if_neg notDirectory, ends, Option.bind_some, fileAnswer, first]
      refine ⟨_, rfl, ?_, after.print _⟩
      rw [Console.print_terminal, printed, write_append, bytes]
      rfl

include packs noNul loaded₀ small in
/-- A mounted archive. -/
theorem serving_provides {fuel : ℕ} (long : 256 ≤ fuel)
    (enough : ∀ f ∈ Initrd.shown files, f.data.length < fuel) :
    Provides (archiveVolume (Initrd.shown files)) fuel
      (fun buf => Apart buf 256 location image.length) (Serving files image location m₀) where
  terminal := fun _ _ serving => serving.later .refl rfl serving.loaded
  ls := by
    intro c more serving le
    have count := Initrd.length_shown files
    rw [lsCommand, serving.root]
    exact lsLoop_answers (by omega) (Initrd.shown files).length 0 (Nat.zero_add _) serving
      (by omega)
  cat := fun c more buf filename x serving le apart holds =>
    serving.cat packs noNul loaded₀ small apart holds (by omega)
      fun f member => Nat.lt_of_lt_of_le (enough f member) le

end Packed

end Archive

/-- No archive, and a file system and a memory that stay as they are. -/
structure Unmounted (fs : Initrd) (m : Mem) (c : Console) : Prop where
  root : c.fsRoot = none
  fs : c.fs = fs
  mem : c.mem = m

theorem Unmounted.prints {fs : Initrd} {m : Mem} {c : Console} (unmounted : Unmounted fs m c)
    (text : List Byte) : ∃ c', some (c.print text) = some c' ∧
      c'.terminal = c.terminal.write text ∧ Unmounted fs m c' :=
  ⟨_, rfl, rfl, unmounted.root, unmounted.fs, unmounted.mem⟩

/-- A kernel that was started without a module. -/
theorem unmounted_provides (fuel : ℕ) (fs : Initrd) (m : Mem) :
    Provides noVolume fuel (fun _ => True) (Unmounted fs m) where
  terminal := fun _ _ unmounted => ⟨unmounted.root, unmounted.fs, unmounted.mem⟩
  ls := by
    intro c more unmounted _
    rw [lsCommand, unmounted.root]
    exact unmounted.prints _
  cat := by
    intro c more buf filename x unmounted _ _ _
    rw [cat, unmounted.root]
    exact unmounted.prints _

end OrbitOs.Shell
