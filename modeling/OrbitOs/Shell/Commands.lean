import OrbitOs.Drivers.Pci
import OrbitOs.Kernel.BootFiles

/-!
# The commands of shell/shell.c

`execute_command` compares the line with its commands in order and runs the
first one that matches; three of them are aliases that run another line.  What
`memory`, `date` and `netinfo` print depends on the rest of the system and is
an input here.
-/

set_option autoImplicit false

namespace OrbitOs.Shell

open OrbitOs.Machine OrbitOs.Kernel OrbitOs.Base OrbitOs.Drivers OrbitOs.Fs

inductive Command
  | help | clear | version | memory | ls | cat | date | lspci | netinfo | exit | dir | cls | type
  | echo

/-- `strcmp(cmd, text) == 0` or `strncmp(cmd, text, n) == 0`, where `n` is the
length of the text. -/
inductive Test
  | equal (text : String)
  | begins (text : String)

/-- The conditions of the chain of branches, in order. -/
def commands : List (Test × Command) :=
  [(.equal "help", .help), (.equal "clear", .clear), (.equal "version", .version),
    (.equal "memory", .memory), (.equal "ls", .ls), (.begins "cat ", .cat), (.equal "date", .date),
    (.equal "lspci", .lspci), (.equal "netinfo", .netinfo), (.equal "exit", .exit),
    (.equal "dir", .dir), (.equal "cls", .cls), (.begins "type ", .type), (.begins "echo ", .echo)]

def chars (a : Chars) (k : ℕ) : Traced Unit Byte := pure (a k)

def Test.run (fuel : ℕ) (cmd : Chars) : Test → Option Bool
  | .equal text => (strcmp fuel (chars cmd) (chars (literalText text))).val.map fun r => r = 0
  | .begins text => some
      ((strncmp (charsOf text).length (chars cmd) (chars (literalText text))).val = 0)

/-- `none` is the last `else`. -/
def findCommand (fuel : ℕ) (cmd : Chars) : List (Test × Command) → Option (Option Command)
  | [] => some none
  | (test, command) :: rest => do
    if ← test.run fuel cmd then return some command else findCommand fuel cmd rest

def helpLines : List String :=
  ["Available commands:\n",
    "  help    - Show this help message\n",
    "  clear   - Clear the terminal screen\n",
    "  version - Display OS version\n",
    "  memory  - Display memory statistics\n",
    "  ls      - List files in rootfs\n",
    "  cat     - Read a file (e.g. cat hello.txt)\n",
    "  date    - Show current date and time\n",
    "  lspci   - List PCI devices\n",
    "  echo    - Print text to the screen (usage: echo <text>)\n"]

/-- The loop of `ls`, from entry `i` on. -/
def lsLoop (strings : ℕ) (fsRoot : NodeRef) : ℕ → Word → Console → Option Console
  | 0, _, _ => none
  | fuel + 1, i, c => do
    let (fs, node) ← (Initrd.fsReaddir c.fs fsRoot i).val
    let c := { c with fs := fs }
    match node with
    | none => return c
    | some node =>
      match ← (Initrd.fsFinddir strings c.fs fsRoot node.name).val with
      | some fsnode =>
        let kind := if (c.fs.node fsnode).flags &&& 0x07 = fsDirectory then "(dir) "
          else "(file) "
        let c ← (c.print (charsOf kind)).writestring strings node.name
        lsLoop strings fsRoot fuel (i + 1) (c.print (charsOf "\n"))
      | none => lsLoop strings fsRoot fuel (i + 1) c

/-- `while (sz > 0) { … }` of `cat`. -/
def catLoop (fsnode : NodeRef) (buf : Word) : ℕ → Word → Word → Console → Option Console
  | 0, _, _, _ => none
  | fuel + 1, sz, offset, c =>
    if sz > 0 then
      let readSz := if sz > 255 then 255 else sz
      let (c, bytes) := c.read fsnode offset readSz buf
      if bytes = 0 then some c
      else do
        let c ← (c.store (buf + bytes) 0).writeBuffer buf
        catLoop fsnode buf fuel (sz - bytes) (offset + bytes) c
    else some c

def cat (fuel : ℕ) (buf : Word) (filename : Chars) (c : Console) : Option Console :=
  match c.fsRoot with
  | none => some (c.print (charsOf "No filesystem mounted.\n"))
  | some fsRoot => do
    match ← (Initrd.fsFinddir fuel c.fs fsRoot filename).val with
    | some fsnode =>
      if (c.fs.node fsnode).flags &&& 0x07 = fsDirectory then
        return c.print (charsOf "Is a directory.\n")
      else
        let c ← catLoop fsnode buf fuel (c.fs.node fsnode).length 0 c
        return c.print (charsOf "\n")
    | none => return c.print (charsOf "File not found.\n")

structure Inputs where
  space : ConfigSpace
  memoryText : List Byte
  dateText : List Byte
  netinfoText : List Byte
  /-- What the array `temp` holds before it is filled. -/
  temp : Chars
  /-- The address of the array `buf` in a call, by the depth of the call. -/
  buf : ℕ → Word

/-- The line after `type ` is replaced by `cat `. -/
def typeLine (temp : Chars) (cmd : Chars) : Option Chars := do
  let temp ← (strcpy 256 temp (chars (literalText "cat "))).val
  let tail ← (strcpy 252 (fun k => temp (k + 4)) (chars fun k => cmd (k + 5))).val
  return fun k => if k < 4 then temp k else tail (k - 4)

/-- `exit` goes on when the machine ignores the three port writes. -/
def executeCommand (inputs : Inputs) : ℕ → ℕ → Chars → Console → Option Console
  | 0, _, _, _ => none
  | fuel + 1, depth, cmd, c => do
    let length ← (strlen fuel (chars cmd)).val
    if length = 0 then return c
    else
      match ← findCommand fuel cmd commands with
      | some .help => return helpLines.foldl (fun c line => c.print (charsOf line)) c
      | some .clear => return { c with terminal := c.terminal.terminalInitialize }
      | some .version => return c.print (charsOf "Orbit OS v0.1.0\n")
      | some .memory => return c.print inputs.memoryText
      | some .ls =>
        match c.fsRoot with
        | none => return c.print (charsOf "No filesystem mounted.\n")
        | some fsRoot => lsLoop fuel fsRoot fuel 0 c
      | some .cat => cat fuel (inputs.buf depth) (fun k => cmd (k + 4)) c
      | some .date => return c.print inputs.dateText
      | some .lspci => return { c with terminal := pciEnumerate inputs.space c.terminal }
      | some .netinfo => return c.print inputs.netinfoText
      | some .exit => return c.print (charsOf "Shutting down QEMU...\n")
      | some .dir => executeCommand inputs fuel (depth + 1) (literalText "ls") c
      | some .cls => executeCommand inputs fuel (depth + 1) (literalText "clear") c
      | some .type =>
        let line ← typeLine inputs.temp cmd
        executeCommand inputs fuel (depth + 1) line c
      | some .echo =>
        let c ← c.writestring fuel fun k => cmd (k + 5)
        return c.print (charsOf "\n")
      | none =>
        let c ← (c.print (charsOf "Unknown command: ")).writestring fuel cmd
        return c.print (charsOf "\n")

/-! ## Which command a line runs -/

def Test.Passes (x : List Byte) : Test → Prop
  | .equal text => x = charsOf text
  | .begins text => charsOf text <+: x

instance (x : List Byte) (test : Test) : Decidable (test.Passes x) := by
  cases test <;> unfold Test.Passes <;> infer_instance

/-- A text that a literal can hold. -/
def Test.NoNul : Test → Prop
  | .equal text => 0 ∉ charsOf text
  | .begins text => 0 ∉ charsOf text

instance (test : Test) : Decidable test.NoNul := by
  cases test <;> unfold Test.NoNul <;> infer_instance

theorem commands_noNul : ∀ entry ∈ commands, entry.1.NoNul := by decide

section Dispatch

variable {cmd : Chars} {x : List Byte} (holds : Holds cmd x) {fuel : ℕ} (enough : x.length < fuel)

include holds enough

theorem Test.run_holds (test : Test) (noNul : test.NoNul) :
    test.run fuel cmd = some (decide (test.Passes x)) := by
  cases test with
  | equal text =>
      obtain ⟨r, compared, same⟩ := @strcmp_holds Unit (chars cmd) (chars (literalText text)) x
        (charsOf text) holds (literalText_holds text noNul) fuel enough
      rw [Test.run, compared, Option.map_some]
      simp only [same, Test.Passes]
  | begins text =>
      have compared := @strncmp_holds Unit (chars cmd) (chars (literalText text)) x
        (charsOf text) holds (literalText_holds text noNul)
      rw [Test.run]
      simp only [compared, Test.Passes]

/-- The first test that the text passes decides. -/
theorem findCommand_holds (table : List (Test × Command))
    (noNul : ∀ entry ∈ table, entry.1.NoNul) :
    findCommand fuel cmd table =
      some ((table.find? fun entry => entry.1.Passes x).map Prod.snd) := by
  induction table with
  | nil => rfl
  | cons entry rest ih =>
      obtain ⟨test, command⟩ := entry
      have run := test.run_holds holds enough (noNul _ List.mem_cons_self)
      have later := ih fun entry member => noNul entry (List.mem_cons_of_mem _ member)
      rw [findCommand, run, List.find?_cons]
      by_cases passes : test.Passes x
      · simp [passes]
      · simp [passes, later]

end Dispatch

/-- The text of `cat` and a name. -/
def catLine (name : List Byte) : List Byte := charsOf "cat " ++ name

theorem executeCommand_cat (inputs : Inputs) {cmd : Chars} {name : List Byte}
    (holds : Holds cmd (catLine name)) {fuel : ℕ} (enough : name.length + 4 < fuel) (depth : ℕ)
    (c : Console) :
    executeCommand inputs (fuel + 1) depth cmd c =
      cat fuel (inputs.buf depth) (fun k => cmd (k + 4)) c := by
  have length : (catLine name).length = name.length + 4 := by
    rw [catLine, List.length_append, Nat.add_comm]
    rfl
  have size := @strlen_holds Unit (chars cmd) _ holds fuel (by omega)
  have found := findCommand_holds holds (by omega : (catLine name).length < fuel) commands
    commands_noNul
  have first : (commands.find? fun entry => entry.1.Passes (catLine name)).map Prod.snd =
      some .cat := by
    have start : catLine name = 0x63 :: 0x61 :: 0x74 :: 0x20 :: name := rfl
    rw [start]
    simp [commands, Test.Passes, charsOf]
  rw [executeCommand, size, found, first]
  simp only [Option.bind_eq_bind, Option.bind_some]
  rw [if_neg (by omega)]

end OrbitOs.Shell
