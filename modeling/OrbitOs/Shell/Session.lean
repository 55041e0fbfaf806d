import OrbitOs.Shell.Answers
import OrbitOs.Shell.LineEditor

/-!
# Sessions at the shell

`shell_run` shows its banner and then takes one key after another; a newline hands the
line to `execute_command`.  A dialogue says what this is for: the line being edited, the
answer to every line, and what the serial line has shown so far.
-/

set_option autoImplicit false

namespace OrbitOs.Shell

open OrbitOs.Machine OrbitOs.Base OrbitOs.Kernel OrbitOs.Drivers OrbitOs.Fs

/-! ## The loop of the shell -/

structure Session where
  cmdBuffer : Chars
  cmdLength : ℤ
  console : Console

/-- A key, and what the rest of the system reports while it is handled. -/
structure Keystroke where
  char : Byte
  inputs : Inputs

def logoLines : List String :=
  ["   ____       _     _ _      ___  ____  \n",
    "  / __ \\ _ __| |__ (_) |_   / _ \\/ ___| \n",
    " | |  | | '__| '_ \\| | __| | | | \\___ \\ \n",
    " | |__| | |  | |_) | | |_  | |_| |___) |\n",
    "  \\____/|_|  |_.__/|_|\\__|  \\___/|____/ \n\n"]

def shellBanner (t : Terminal) : Terminal :=
  let cyan := vgaEntryColor .lightCyan .black
  let white := vgaEntryColor .white .black
  let t := logoLines.foldl (fun t line => t.write (charsOf line)) (t.setcolor cyan)
  let t := (t.setcolor white).write (charsOf " Welcome to ")
  let t := (t.setcolor cyan).write (charsOf "Orbit OS")
  (t.setcolor white).write (charsOf "! Type 'help' for a list of commands.\n\n")

namespace Session

def shellInitialize (s : Session) : Session :=
  { s with cmdLength := 0, cmdBuffer := fun k => if k < 256 then 0 else s.cmdBuffer k }

/-- `shell_initialize` and `shell_run` up to the loop. -/
def start (s : Session) : Session :=
  let s := s.shellInitialize
  { s with console := { s.console with terminal := shellPrompt (shellBanner s.console.terminal) } }

def editor (s : Session) : LineEditor := ⟨s.cmdBuffer, s.cmdLength, s.console.terminal⟩

/-- One round of the loop.  The line editor alone deals with every key but the newline. -/
def key (fuel : ℕ) (s : Session) (k : Keystroke) : Option Session :=
  if k.char = 0x0A then do
    let terminal := s.console.terminal.putchar 0x0A
    let cmdBuffer := Function.update s.cmdBuffer s.cmdLength.toNat 0
    let console ← executeCommand k.inputs fuel 0 cmdBuffer { s.console with terminal := terminal }
    return ⟨cmdBuffer, 0, { console with terminal := shellPrompt console.terminal }⟩
  else
    let e := s.editor.key (fun _ t => t) k.char
    some ⟨e.cmdBuffer, e.cmdLength, { s.console with terminal := e.terminal }⟩

theorem start_console (s : Session) : s.start.console =
    { s.console with terminal := shellPrompt (shellBanner s.console.terminal) } := by
  unfold start
  rfl

theorem key_edits {fuel : ℕ} (s : Session) {k : Keystroke} (other : k.char ≠ 0x0A) :
    s.key fuel k =
      let e := s.editor.key (fun _ t => t) k.char
      some ⟨e.cmdBuffer, e.cmdLength, { s.console with terminal := e.terminal }⟩ :=
  if_neg other

def run (fuel : ℕ) (s : Session) (keys : List Keystroke) : Option Session :=
  keys.foldlM (key fuel) s

end Session

/-! ## Dialogues -/

structure Dialogue where
  line : List Byte
  screen : Terminal
  transcript : List Byte

/-- What the terminal is sent for a key that is no newline. -/
def echo (line : List Byte) (c : Byte) : List Byte :=
  if c = 0x08 then if line = [] then [] else [0x08]
  else if Printable c ∧ line.length < 255 then [c]
  else []

def bannerText : List Byte :=
  logoLines.flatMap charsOf ++ charsOf " Welcome to " ++ charsOf "Orbit OS" ++
    charsOf "! Type 'help' for a list of commands.\n\n"

namespace Dialogue

def start (t : Terminal) : Dialogue :=
  ⟨[], shellPrompt (shellBanner t), t.serial ++ bannerText ++ promptText⟩

def key (volume : Volume) (d : Dialogue) (k : Keystroke) : Dialogue :=
  if k.char = 0x0A then
    { line := []
      screen := shellPrompt (respond k.inputs volume d.line (d.screen.putchar 0x0A))
      transcript := d.transcript ++ ([0x0A] ++ answer k.inputs volume d.line ++ promptText) }
  else
    { line := edit d.line k.char
      screen := d.screen.write (echo d.line k.char)
      transcript := d.transcript ++ echo d.line k.char }

def run (volume : Volume) (d : Dialogue) (keys : List Keystroke) : Dialogue :=
  keys.foldl (key volume) d

end Dialogue

/-! ## What goes to the serial line -/

theorem terminalInitialize_serial (t : Terminal) : t.terminalInitialize.serial = t.serial := by
  rw [Terminal.terminalInitialize, Terminal.updateCursor_serial]
  rfl

theorem setcolor_serial (t : Terminal) (color : Byte) : (t.setcolor color).serial = t.serial := rfl

theorem shellPrompt_serial (t : Terminal) : (shellPrompt t).serial = t.serial ++ promptText := by
  rw [shellPrompt, setcolor_serial, Terminal.write_serial, setcolor_serial]

theorem shellBanner_serial (t : Terminal) : (shellBanner t).serial = t.serial ++ bannerText := by
  simp only [shellBanner, foldl_write, Terminal.write_serial, setcolor_serial, bannerText,
    List.append_assoc]

theorem respond_serial (inputs : Inputs) (volume : Volume) (x : List Byte) (t : Terminal) :
    (respond inputs volume x t).serial = t.serial ++ answer inputs volume x := by
  by_cases clears : Clears x
  · have silent : answer inputs volume x = [] := by
      rcases clears with rfl | rfl
      · rw [answer, if_neg (by decide), commandOf_clear]
        rfl
      · rw [answer, if_neg (by decide), commandOf_cls]
        rfl
    rw [respond, if_pos clears, terminalInitialize_serial, silent, List.append_nil]
  · rw [respond, if_neg clears, Terminal.write_serial]

theorem Dialogue.key_serial (volume : Volume) {d : Dialogue} (k : Keystroke)
    (sent : d.screen.serial = d.transcript) :
    (d.key volume k).screen.serial = (d.key volume k).transcript := by
  unfold Dialogue.key
  split_ifs
  · dsimp only
    rw [shellPrompt_serial, respond_serial, Terminal.putchar_serial, sent]
    simp only [List.append_assoc]
  · dsimp only
    rw [Terminal.write_serial, sent]

theorem Dialogue.run_serial (volume : Volume) {d : Dialogue} (keys : List Keystroke)
    (sent : d.screen.serial = d.transcript) :
    (d.run volume keys).screen.serial = (d.run volume keys).transcript := by
  induction keys generalizing d with
  | nil => exact sent
  | cons k keys ih => exact ih (Dialogue.key_serial volume k sent)

theorem Dialogue.start_serial (t : Terminal) :
    (Dialogue.start t).screen.serial = (Dialogue.start t).transcript := by
  rw [Dialogue.start, shellPrompt_serial, shellBanner_serial]

/-! ## The line editor echoes -/

theorem Agrees.key_terminal {s : LineEditor} {text : List Byte} (agrees : Agrees s text)
    (executeCommand : Chars → Terminal → Terminal) {c : Byte} (other : c ≠ 0x0A) :
    (s.key executeCommand c).terminal = s.terminal.write (echo text c) := by
  have length := agrees.length
  unfold LineEditor.key echo
  rw [if_neg other]
  by_cases backspace : c = 0x08
  · rw [if_pos backspace, if_pos backspace]
    by_cases empty : text = []
    · have none : ¬ s.cmdLength > 0 := by
        rw [length, empty]
        decide
      rw [if_neg none, if_pos empty]
      rfl
    · have some : s.cmdLength > 0 := by
        have positive := List.length_pos_iff.mpr empty
        omega
      rw [if_pos some, if_neg empty]
      rfl
  · rw [if_neg backspace, if_neg backspace]
    have sameLimit : s.cmdLength < cmdBufferSize - 1 ↔ text.length < 255 := by
      rw [length]
      unfold cmdBufferSize
      omega
    by_cases printable : Printable c
    · rw [if_pos ((printable_iff c).mpr printable)]
      by_cases room : text.length < 255
      · rw [if_pos (sameLimit.mpr room), if_pos ⟨printable, room⟩]
        rfl
      · rw [if_neg (mt sameLimit.mp room), if_neg fun both => room both.2]
        rfl
    · rw [if_neg (mt (printable_iff c).mp printable), if_neg fun both => printable both.1]
      rfl

/-! ## A session follows its dialogue -/

/-- What ties a session to the dialogue. -/
structure Follows (s : Session) (d : Dialogue) : Prop where
  agrees : Agrees s.editor d.line
  screen : s.console.terminal = d.screen

theorem Follows.start (s : Session) : Follows s.start (.start s.console.terminal) where
  agrees := Agrees.prompted _ _
  screen := rfl

section Volume

variable {volume : Volume} {fuel : ℕ} {fits : Word → Prop} {P : Console → Prop}
  (provides : Provides volume fuel fits P) (long : 256 ≤ fuel)

include provides long

/-- The arrays are those of a command and of an alias of it. -/
theorem Follows.key {s : Session} {d : Dialogue} (follows : Follows s d) (here : P s.console)
    {k : Keystroke} (room : ∀ depth ≤ 1, fits (k.inputs.buf depth)) :
    ∃ s', s.key (fuel + 2) k = some s' ∧ Follows s' (d.key volume k) ∧ P s'.console := by
  by_cases newline : k.char = 0x0A
  · have ended : P { s.console with terminal := s.console.terminal.putchar 0x0A } :=
      provides.terminal _ _ here
    obtain ⟨console, ends, answered, after⟩ := executeCommand_answers provides long k.inputs
      (room 0 (by omega)) (room 1 (by omega)) ended follows.agrees.argument follows.agrees.small
    have sameScreen := follows.screen
    refine ⟨⟨Function.update s.cmdBuffer s.cmdLength.toNat 0, 0,
      { console with terminal := shellPrompt console.terminal }⟩, ?_, ⟨?_, ?_⟩,
      provides.terminal _ _ after⟩
    · rw [Session.key, if_pos newline]
      dsimp only [Session.editor] at ends ⊢
      rw [ends]
      rfl
    · rw [Dialogue.key, if_pos newline]
      exact Agrees.prompted _ _
    · rw [Dialogue.key, if_pos newline]
      dsimp only
      rw [answered]
      dsimp only
      rw [sameScreen]
  · refine ⟨_, s.key_edits newline, ⟨?_, ?_⟩, provides.terminal _ _ here⟩
    · rw [Dialogue.key, if_neg newline]
      exact follows.agrees.key (fun _ t => t) newline
    · rw [Dialogue.key, if_neg newline]
      dsimp only
      rw [follows.agrees.key_terminal (fun _ t => t) newline, Session.editor, follows.screen]

theorem Follows.run {s : Session} {d : Dialogue} (follows : Follows s d) (here : P s.console)
    (keys : List Keystroke) (room : ∀ k ∈ keys, ∀ depth ≤ 1, fits (k.inputs.buf depth)) :
    ∃ s', s.run (fuel + 2) keys = some s' ∧ Follows s' (d.run volume keys) ∧ P s'.console := by
  induction keys generalizing s d with
  | nil => exact ⟨s, rfl, follows, here⟩
  | cons k keys ih =>
      obtain ⟨s₁, first, follows₁, here₁⟩ := follows.key provides long here
        (room k List.mem_cons_self)
      obtain ⟨s', rest, followsEnd, hereEnd⟩ := ih follows₁ here₁
        fun k member => room k (List.mem_cons_of_mem _ member)
      refine ⟨s', ?_, followsEnd, hereEnd⟩
      rw [Session.run, List.foldlM_cons, first]
      exact rest

/-- The shell never gets stuck: it holds the line of the dialogue, shows its screen and has
sent its transcript. -/
theorem session_carries_on (s : Session) (here : P s.console) (keys : List Keystroke)
    (room : ∀ k ∈ keys, ∀ depth ≤ 1, fits (k.inputs.buf depth)) :
    ∃ s', s.start.run (fuel + 2) keys = some s' ∧ P s'.console ∧
      let d := (Dialogue.start s.console.terminal).run volume keys
      Follows s' d ∧ s'.console.terminal.serial = d.transcript := by
  have atStart : P s.start.console := by
    rw [Session.start_console]
    exact provides.terminal _ _ here
  obtain ⟨s', ran, follows, after⟩ := (Follows.start s).run provides long atStart keys room
  refine ⟨s', ran, after, follows, ?_⟩
  rw [follows.screen]
  exact Dialogue.run_serial _ keys (Dialogue.start_serial _)

end Volume

section Archive

variable {files : List File} {image : List Byte} {location : Word} {m₀ : Mem}

/-- The array of `cat` is apart from the archive, in a command and in an alias of it. -/
def Keystroke.StackApart (k : Keystroke) (location : Word) (n : ℕ) : Prop :=
  ∀ depth ≤ 1, Apart (k.inputs.buf depth) 256 location n

/-- Whatever is typed, the shell never gets stuck: it holds the line of the dialogue, shows
its screen and has sent its transcript. -/
theorem session_follows_dialogue (packs : mkfs files = some image)
    (noNul : ∀ f ∈ files, 0 ∉ f.name) (loaded₀ : Initrd.Loaded m₀ location image)
    (small : image.length ≤ 2 ^ 32) {fuel : ℕ} (long : 256 ≤ fuel)
    (enough : ∀ f ∈ Initrd.shown files, f.data.length < fuel) {mounted : Initrd}
    (mount : (Initrd.initrdInitialize m₀ location Initrd.bss).val = some mounted) (s : Session)
    (requests : Initrd.Requests mounted s.console.fs) (root : s.console.fsRoot = some .root)
    (loaded : Initrd.Loaded s.console.mem location image) (keys : List Keystroke)
    (apart : ∀ k ∈ keys, k.StackApart location image.length) :
    ∃ s', s.start.run (fuel + 2) keys = some s' ∧
      let d := (Dialogue.start s.console.terminal).run (archiveVolume (Initrd.shown files)) keys
      s'.cmdLength = d.line.length ∧
        (∀ k (bound : k < d.line.length), s'.cmdBuffer k = d.line[k]) ∧
        s'.console.terminal = d.screen ∧ s'.console.terminal.serial = d.transcript := by
  obtain ⟨again, value, shows⟩ := Initrd.initrdInitialize_shows packs noNul loaded₀ Initrd.bss
  obtain rfl : again = mounted := Option.some.inj (value.symm.trans mount)
  have serving : Serving files image location m₀ s.console :=
    ⟨root, fun later more => shows later (requests.trans more), loaded⟩
  have provides := serving_provides packs noNul loaded₀ small long enough
  obtain ⟨s', ran, -, follows, sent⟩ := session_carries_on provides long s serving keys apart
  exact ⟨s', ran, follows.agrees.length, follows.agrees.buffer, follows.screen, sent⟩

end Archive

/-- `ls` and a newline. -/
def lsKeys : List Keystroke := [⟨0x6C, lowStack⟩, ⟨0x73, lowStack⟩, ⟨0x0A, lowStack⟩]

theorem lowStack_apart (char : Byte) {n : ℕ} (small : n ≤ 4096) :
    Keystroke.StackApart ⟨char, lowStack⟩ 0x200000 n := by
  intro depth _ x low high
  have inStack : Within 0x9000 256 x := low
  have inImage := high.mono small
  unfold Within at inStack inImage
  bv_omega

theorem session_follows_dialogue_ls : ∃ image fs, mkfs [greeting] = some image ∧
    (Initrd.initrdInitialize (Initrd.memoryWith 0x200000 image) 0x200000 Initrd.bss).val =
      some fs ∧
    ∃ s', (Session.start ⟨fun _ => 0, 0, shellAt fs (Initrd.memoryWith 0x200000 image)⟩).run 258
        lsKeys = some s' ∧
      let d := (Dialogue.start blankScreen).run (archiveVolume (Initrd.shown [greeting])) lsKeys
      s'.cmdLength = d.line.length ∧
        (∀ k (bound : k < d.line.length), s'.cmdBuffer k = d.line[k]) ∧
        s'.console.terminal = d.screen ∧ s'.console.terminal.serial = d.transcript := by
  obtain ⟨image, packs, size⟩ : ∃ image, mkfs [greeting] = some image ∧ image.length = 82 :=
    ⟨_, rfl, rfl⟩
  obtain ⟨fs, mount, -⟩ := single_mounted packs (by decide) (by decide) (by decide) (by omega)
  have loaded := Initrd.loaded_memoryWith 0x200000 image (by omega)
  have apart : ∀ k ∈ lsKeys, k.StackApart 0x200000 image.length := by
    intro k member
    simp only [lsKeys, List.mem_cons, List.not_mem_nil, or_false] at member
    rcases member with rfl | rfl | rfl
    all_goals exact lowStack_apart _ (by omega)
  exact ⟨image, fs, packs, mount, session_follows_dialogue packs (by decide) loaded (by omega)
    (by decide : 256 ≤ 256) (by decide) mount _ .refl rfl loaded lsKeys apart⟩

end OrbitOs.Shell
