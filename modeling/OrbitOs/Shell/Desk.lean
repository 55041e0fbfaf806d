import OrbitOs.Drivers.Strokes
import OrbitOs.Shell.Session

/-!
# The keyboard and the shell together

Scan codes arrive at any moment, between any two steps of `keyboard_getchar` and while
the shell deals with a key.  The shell carries on the dialogue of what the codes type, in
order and without loss as long as the buffer has room, and it can always catch up.
-/

set_option autoImplicit false

namespace OrbitOs.Shell

open OrbitOs.Machine OrbitOs.Base OrbitOs.Kernel OrbitOs.Drivers OrbitOs.Fs

/-! ## The system -/

/-- An archive of mkfs.py that initrd.c has mounted, and a bound for the loops that read
it. -/
structure Setting where
  files : List File
  image : List Byte
  location : Word
  mem : Mem
  mounted : Initrd
  fuel : ℕ
  packs : mkfs files = some image
  noNul : ∀ f ∈ files, 0 ∉ f.name
  loaded : Initrd.Loaded mem location image
  small : image.length ≤ 2 ^ 32
  mount : (Initrd.initrdInitialize mem location Initrd.bss).val = some mounted
  long : 256 ≤ fuel
  enough : ∀ f ∈ Initrd.shown files, f.data.length < fuel

def Setting.volume (w : Setting) : Volume := archiveVolume (Initrd.shown w.files)

theorem Setting.provides (w : Setting) : Provides w.volume w.fuel
    (fun buf => Apart buf 256 w.location w.image.length)
    (Serving w.files w.image w.location w.mem) :=
  serving_provides w.packs w.noNul w.loaded w.small w.long w.enough

/-- The keyboard with its reader, and the shell.  `codes` and `handled` only record the scan
codes and the keys so far. -/
structure Desk where
  input : Input
  codes : List Byte
  session : Session
  handled : List Keystroke
  /-- What `keyboard_getchar` has returned and the shell has not dealt with yet. -/
  hand : Option Byte

/-- The steps of `keyboard_getchar` before it returns. -/
inductive Fetch : Input → Input → Prop
  | call {s : Input} : s.getchar = .outside → Fetch s { s with getchar := .testing }
  | wait {s : Input} : s.getchar = .testing → s.keyboard.haskey = false → Fetch s s
  | found {s : Input} : s.getchar = .testing → s.keyboard.haskey = true →
      Fetch s { s with getchar := .reading }
  | read {s : Input} : s.getchar = .reading →
      Fetch s { s with getchar := .advancing (s.keyboard.buffer.slots s.keyboard.buffer.tail) }

namespace Desk

inductive Start (w : Setting) (t : Terminal) : Desk → Prop
  | boot (slots : ℕ → Byte) (s : Session) : Initrd.Requests w.mounted s.console.fs →
      s.console.fsRoot = some .root → Initrd.Loaded s.console.mem w.location w.image →
      s.console.terminal = t →
      Start w t ⟨⟨⟨⟨slots, 0, 0⟩, false⟩, .outside, [], []⟩, [], s.start, [], none⟩

/-- The steps of the shell. -/
inductive Work (w : Setting) : Desk → Desk → Prop
  | fetch {s : Desk} {input : Input} : s.hand = none → Fetch s.input input →
      Work w s { s with input := input }
  | returned {s : Desk} (c : Byte) : s.hand = none → s.input.getchar = .advancing c →
      Work w s { s with
        input := { s.input with
          keyboard := { s.input.keyboard with
            buffer := s.input.keyboard.buffer.release keyboardBufferSize }
          getchar := .outside
          returned := s.input.returned ++ [c] }
        hand := some c }
  | handle {s : Desk} (k : Keystroke) (session : Session) : s.hand = some k.char →
      k.StackApart w.location w.image.length → s.session.key (w.fuel + 2) k = some session →
      Work w s { s with session := session, handled := s.handled ++ [k], hand := none }

inductive Step (w : Setting) : Desk → Desk → Prop
  | work {s s' : Desk} : Work w s s' → Step w s s'
  | interrupt {s : Desk} (code : Byte) :
      Step w s { s with
        input := { s.input with
          keyboard := s.input.keyboard.callback code
          accepted := s.input.accepted ++ (s.input.keyboard.accepts code).toList }
        codes := s.codes ++ [code] }

/-- Fewer than 255 characters are waiting. -/
def HasRoom (s : Desk) : Prop := s.input.accepted.length < s.input.returned.length + 255

/-- A step in which no scan code meets a full buffer. -/
def UnhurriedStep (w : Setting) (s s' : Desk) : Prop :=
  Step w s s' ∧ (s'.codes = s.codes ∨ s.HasRoom)

/-- Nothing is waiting. -/
def Idle (s : Desk) : Prop := s.hand = none ∧ s.input.keyboard.haskey = false

/-! ## The reader -/

theorem fetch_step {s s' : Input} (fetch : Fetch s s') : Input.Step s s' := by
  cases fetch with
  | call outside => exact .call outside
  | wait testing absent => exact .wait testing absent
  | found testing present => exact .found testing present
  | read reading => exact .read reading

theorem fetch_frame {s s' : Input} (fetch : Fetch s s') :
    s'.keyboard = s.keyboard ∧ s'.accepted = s.accepted ∧ s'.returned = s.returned := by
  cases fetch with
  | call outside => exact ⟨rfl, rfl, rfl⟩
  | wait testing absent => exact ⟨rfl, rfl, rfl⟩
  | found testing present => exact ⟨rfl, rfl, rfl⟩
  | read reading => exact ⟨rfl, rfl, rfl⟩

/-! ## The invariant -/

/-- What holds in every run from a start at the terminal `t`. -/
structure Inv (w : Setting) (t : Terminal) (s : Desk) : Prop where
  input : s.input.Inv
  accepted : s.input.accepted = decode false s.codes
  shift : s.input.keyboard.shiftPressed = shiftAfter false s.codes
  returned : s.input.returned = s.handled.map Keystroke.char ++ s.hand.toList
  outside : s.hand ≠ none → s.input.getchar = .outside
  follows : Follows s.session ((Dialogue.start t).run w.volume s.handled)
  serving : Serving w.files w.image w.location w.mem s.session.console

section Runs

variable {w : Setting} {t : Terminal} {s : Desk}

theorem Inv.start (start : Start w t s) : s.Inv w t := by
  cases start with
  | boot slots s requests root loaded here =>
      obtain ⟨again, value, shows⟩ :=
        Initrd.initrdInitialize_shows w.packs w.noNul w.loaded Initrd.bss
      obtain rfl : again = w.mounted := Option.some.inj (value.symm.trans w.mount)
      exact {
        input := Input.Inv.start (.boot slots)
        accepted := rfl
        shift := rfl
        returned := rfl
        outside := fun some => absurd rfl some
        follows := by
          rw [← here]
          exact Follows.start s
        serving := by
          rw [Session.start_console]
          exact w.provides.terminal _ _
            ⟨root, fun later more => shows later (requests.trans more), loaded⟩ }

theorem Inv.key (inv : s.Inv w t) {k : Keystroke}
    (apart : k.StackApart w.location w.image.length) :
    ∃ session, s.session.key (w.fuel + 2) k = some session ∧
      Follows session ((Dialogue.start t).run w.volume (s.handled ++ [k])) ∧
      Serving w.files w.image w.location w.mem session.console := by
  obtain ⟨session, ran, follows, serving⟩ := inv.follows.key w.provides w.long inv.serving apart
  refine ⟨session, ran, ?_, serving⟩
  rw [Dialogue.run, List.foldl_append]
  exact follows

theorem Inv.work {s' : Desk} (inv : s.Inv w t) (taken : Work w s s') : s'.Inv w t := by
  cases taken with
  | fetch empty fetch =>
      obtain ⟨keyboard, accepted, returned⟩ := fetch_frame fetch
      exact { inv with
        input := inv.input.step (fetch_step fetch)
        accepted := accepted.trans inv.accepted
        shift := by
          dsimp only
          rw [keyboard]
          exact inv.shift
        returned := returned.trans inv.returned
        outside := fun some => absurd empty some }
  | returned c empty advancing =>
      exact { inv with
        input := inv.input.advance advancing
        returned := by
          have before := inv.returned
          rw [empty] at before
          dsimp only
          rw [before, Option.toList_none, List.append_nil]
          rfl
        outside := fun _ => rfl }
  | handle k session holding apart ran =>
      obtain ⟨session', ran', follows, serving⟩ := inv.key apart
      obtain rfl : session' = session := Option.some.inj (ran'.symm.trans ran)
      exact { inv with
        returned := by
          have before := inv.returned
          rw [holding] at before
          rw [before, List.map_append]
          simp
        outside := fun some => absurd rfl some
        follows := follows
        serving := serving }

theorem Inv.step {s' : Desk} (inv : s.Inv w t) (taken : UnhurriedStep w s s') : s'.Inv w t := by
  obtain ⟨taken, room⟩ := taken
  cases taken with
  | work work => exact inv.work work
  | interrupt code =>
      have waiting : s.HasRoom := by
        refine room.resolve_left fun same => ?_
        simpa using congrArg List.length same
      have free : (s.input.keyboard.buffer.head + 1) % keyboardBufferSize ≠
          s.input.keyboard.buffer.tail := by
        intro full
        have count := inv.input.carries.full_iff.mp full
        unfold HasRoom at waiting
        unfold keyboardBufferSize at count
        omega
      exact { inv with
        input := inv.input.interrupt code
        accepted := by
          dsimp only
          rw [accepts_meaning _ _ free, inv.accepted, inv.shift, decode_append, decode, decode,
            List.append_nil]
        shift := by
          dsimp only
          rw [callback_nextShift, inv.shift, shiftAfter_append]
          rfl }

theorem inv_of_reach (reached : Reach (Start w t) (UnhurriedStep w) s) : s.Inv w t := by
  refine reached.invariant ?_ ?_
  · exact fun _ start => Inv.start start
  · exact fun _ _ inv taken => inv.step taken

/-- The steps of the shell press no key. -/
theorem reach_of_work {s' : Desk} (reached : Reach (Start w t) (UnhurriedStep w) s)
    (run : Relation.ReflTransGen (Work w) s s') : Reach (Start w t) (UnhurriedStep w) s' := by
  induction run with
  | refl => exact reached
  | tail _ taken ih =>
      refine ih.step ⟨.work taken, .inl ?_⟩
      cases taken with
      | fetch => rfl
      | returned => rfl
      | handle => rfl

/-- Whatever is not waiting has been dealt with. -/
theorem Inv.idle (inv : s.Inv w t) (idle : s.Idle) :
    s.handled.map Keystroke.char = decode false s.codes := by
  obtain ⟨empty, nothing⟩ := idle
  have same : s.input.keyboard.buffer.head = s.input.keyboard.buffer.tail := by
    simpa [Keyboard.haskey] using nothing
  have count := inv.input.carries.head_eq_tail_iff.mp same
  have whole := inv.input.order.eq_of_length count.symm
  have returned := inv.returned
  rw [empty, Option.toList_none, List.append_nil] at returned
  rw [← returned, whole, inv.accepted]

/-! ## The shell catches up -/

/-- How far `keyboard_getchar` and the shell are from taking the next character. -/
def phase (s : Desk) : ℕ :=
  match s.hand, s.input.getchar with
  | some _, _ => 4
  | none, .outside => 3
  | none, .testing => 2
  | none, .reading => 1
  | none, .advancing _ => 0

def rank (s : Desk) : ℕ := 6 * (s.input.accepted.length - s.input.returned.length) + s.phase

theorem Inv.progress (inv : s.Inv w t) (busy : ¬ s.Idle) {inputs : Inputs}
    (apart : ∀ c, Keystroke.StackApart ⟨c, inputs⟩ w.location w.image.length) :
    ∃ s', Work w s s' ∧ s'.rank < s.rank ∧ s'.codes = s.codes := by
  cases holding : s.hand with
  | some c =>
      obtain ⟨session, ran, -⟩ := inv.key (apart c)
      have outside := inv.outside (by rw [holding]; exact Option.some_ne_none c)
      refine ⟨_, .handle ⟨c, inputs⟩ session holding (apart c) ran, ?_, rfl⟩
      simp only [rank, phase, holding, outside]
      omega
  | none =>
      have present : s.input.keyboard.haskey = true := by
        by_contra absent
        exact busy ⟨holding, Bool.eq_false_of_not_eq_true absent⟩
      cases reader : s.input.getchar with
      | outside =>
          refine ⟨_, .fetch holding (.call reader), ?_, rfl⟩
          simp only [rank, phase, holding, reader]
          omega
      | testing =>
          refine ⟨_, .fetch holding (.found reader present), ?_, rfl⟩
          simp only [rank, phase, holding, reader]
          omega
      | reading =>
          refine ⟨_, .fetch holding (.read reader), ?_, rfl⟩
          simp only [rank, phase, holding, reader]
          omega
      | advancing c =>
          have next := inv.input.advancing c reader
          have bound := (List.getElem?_eq_some_iff.mp next).1
          refine ⟨_, .returned c holding reader, ?_, rfl⟩
          simp only [rank, phase, holding, reader, List.length_append, List.length_singleton]
          omega

theorem Inv.catches_up (inv : s.Inv w t) {inputs : Inputs}
    (apart : ∀ c, Keystroke.StackApart ⟨c, inputs⟩ w.location w.image.length) :
    ∃ s', Relation.ReflTransGen (Work w) s s' ∧ s'.Inv w t ∧ s'.Idle ∧ s'.codes = s.codes := by
  induction bound : s.rank using Nat.strong_induction_on generalizing s with
  | _ rank ih =>
      by_cases idle : s.Idle
      · exact ⟨s, .refl, inv, idle, rfl⟩
      · obtain ⟨s₁, taken, less, codes⟩ := inv.progress idle apart
        obtain ⟨s', run, inv', idle', codes'⟩ := ih s₁.rank (bound ▸ less) (inv.work taken) rfl
        exact ⟨s', .head taken run, inv', idle', codes'.trans codes⟩

/-! ## What the shell answers -/

/-- The shell carries on the dialogue of a prefix of what the codes type, can always deal with
the next key, and has dealt with a whole text when nothing is waiting. -/
structure Answers (w : Setting) (t : Terminal) (s : Desk) : Prop where
  order : s.handled.map Keystroke.char ++ s.hand.toList <+: decode false s.codes
  screen : s.session.console.terminal =
    ((Dialogue.start t).run w.volume s.handled).screen
  serial : s.session.console.terminal.serial =
    ((Dialogue.start t).run w.volume s.handled).transcript
  ready : ∀ k : Keystroke, s.hand = some k.char → k.StackApart w.location w.image.length →
    ∃ session, s.session.key (w.fuel + 2) k = some session
  whole : s.Idle → ∀ text : List Byte, (∀ c ∈ text, Printable c ∨ c = 0x0A ∨ c = 0x08) →
    s.codes = text.flatMap strokes → s.handled.map Keystroke.char = text

theorem typeable_keys : ∀ c : Byte, Printable c ∨ c = 0x0A ∨ c = 0x08 → Typeable c := by
  unfold Typeable
  decide

theorem desk_answers (reached : Reach (Start w t) (UnhurriedStep w) s) : s.Answers w t := by
  have inv := inv_of_reach reached
  exact {
    order := by
      rw [← inv.returned, ← inv.accepted]
      exact inv.input.order
    screen := inv.follows.screen
    serial := by
      rw [inv.follows.screen]
      exact Dialogue.run_serial _ s.handled (Dialogue.start_serial t)
    ready := by
      intro k _ apart
      obtain ⟨session, ran, -⟩ := inv.key apart
      exact ⟨session, ran⟩
    whole := by
      intro idle text keys typed
      rw [inv.idle idle, typed]
      exact (decode_strokes fun c member => typeable_keys c (keys c member)).1 }

end Runs

theorem exists_greetingSetting :
    ∃ w : Setting, w.location = 0x200000 ∧ w.image.length ≤ 4096 := by
  obtain ⟨image, packs, size⟩ : ∃ image, mkfs [greeting] = some image ∧ image.length = 82 :=
    ⟨_, rfl, rfl⟩
  obtain ⟨fs, mount, -⟩ := single_mounted packs (by decide) (by decide) (by decide) (by omega)
  exact ⟨⟨[greeting], image, 0x200000, _, fs, 256, packs, by decide,
    Initrd.loaded_memoryWith 0x200000 image (by omega), by omega, mount, by decide, by decide⟩,
    rfl, by dsimp only; omega⟩

theorem exists_pressed (w : Setting) (codes : List Byte) (few : codes.length ≤ 255) :
    ∃ s : Desk, Reach (Start w blankScreen) (UnhurriedStep w) s ∧ s.codes = codes ∧
      s.input.accepted.length ≤ codes.length := by
  induction codes using List.reverseRecOn with
  | nil =>
      exact ⟨_, .start (.boot (fun _ => 0) ⟨fun _ => 0, 0, shellAt w.mounted w.mem⟩ .refl rfl
        w.loaded rfl), rfl, le_rfl⟩
  | append_singleton codes code ih =>
      rw [List.length_append, List.length_singleton] at few
      obtain ⟨s, reached, same, count⟩ := ih (by omega)
      have room : s.HasRoom := by
        unfold HasRoom
        omega
      refine ⟨_, reached.step ⟨.interrupt code, .inr room⟩, congrArg (· ++ [code]) same, ?_⟩
      have one := Option.length_toList_le (o := s.input.keyboard.accepts code)
      dsimp only
      rw [List.length_append, List.length_append, List.length_singleton]
      omega

/-- `ls` and Enter. -/
def lineTyped : List Byte := [0x6C, 0x73, 0x0A]

/-- All keys of the line have been pressed before the shell takes the first. -/
theorem desk_answers_line : ∃ (w : Setting) (s : Desk), s.Idle ∧
    s.codes = lineTyped.flatMap strokes ∧ s.handled.map Keystroke.char = lineTyped ∧
      s.Answers w blankScreen := by
  obtain ⟨w, location, size⟩ := exists_greetingSetting
  obtain ⟨pressed, reached, codes, -⟩ := exists_pressed w (lineTyped.flatMap strokes) (by decide)
  obtain ⟨s, run, -, idle, same⟩ := (inv_of_reach reached).catches_up fun c =>
    location ▸ lowStack_apart c size
  have answers := desk_answers (reach_of_work reached run)
  have typed := same.trans codes
  exact ⟨w, s, idle, typed, answers.whole idle lineTyped (by decide) typed, answers⟩

section Runs

variable {w : Setting} {t : Terminal} {s : Desk}

/-- When no more codes arrive, the shell gets to the end of what they type and shows the
dialogue of it. -/
theorem desk_catches_up (reached : Reach (Start w t) (UnhurriedStep w) s) {inputs : Inputs}
    (apart : ∀ c, Keystroke.StackApart ⟨c, inputs⟩ w.location w.image.length) :
    ∃ s', Relation.ReflTransGen (Work w) s s' ∧ s'.Idle ∧ s'.codes = s.codes ∧
      s'.handled.map Keystroke.char = decode false s.codes ∧
      s'.session.console.terminal =
        ((Dialogue.start t).run w.volume s'.handled).screen := by
  obtain ⟨s', run, inv, idle, codes⟩ := (inv_of_reach reached).catches_up apart
  refine ⟨s', run, idle, codes, ?_, inv.follows.screen⟩
  rw [inv.idle idle, codes]

end Runs

theorem desk_catches_up_line : ∃ (w : Setting) (s s' : Desk),
    s.codes = lineTyped.flatMap strokes ∧
      Relation.ReflTransGen (Work w) s s' ∧ s'.Idle ∧ s'.codes = s.codes ∧
        s'.handled.map Keystroke.char = decode false s.codes ∧
        s'.session.console.terminal =
          ((Dialogue.start blankScreen).run w.volume s'.handled).screen := by
  obtain ⟨w, location, size⟩ := exists_greetingSetting
  obtain ⟨s, reached, codes, -⟩ := exists_pressed w (lineTyped.flatMap strokes) (by decide)
  obtain ⟨s', ends⟩ := desk_catches_up reached fun c => location ▸ lowStack_apart c size
  exact ⟨w, s, s', codes, ends⟩

end Desk

end OrbitOs.Shell
