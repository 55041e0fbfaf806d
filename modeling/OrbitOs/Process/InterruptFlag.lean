import OrbitOs.Base.Runs

/-!
# The interrupt flag of many threads

What the kernel does to the interrupt flag and nothing else: the flag, the flags
that open interrupts saved, and what each thread's own code did to the flag.  A
thread that is switched to continues inside the interrupt that it left; a new
one has none to leave.
-/

set_option autoImplicit false

namespace OrbitOs.Process

open OrbitOs.Base

/-- What a thread's own code can do to the flag. -/
inductive FlagAction
  | sti
  | cli
  | enterUserMode

def FlagAction.enables : FlagAction → Bool
  | .sti => true
  | .cli => false
  | .enterUserMode => true

/-- The actions are listed from the last one back; a thread starts with
interrupts off. -/
def lastEnables : List FlagAction → Bool
  | [] => false
  | a :: _ => a.enables

@[ext]
structure FlagState where
  enabled : Bool
  running : ℕ
  count : ℕ
  frames : ℕ → List Bool
  actions : ℕ → List FlagAction

/-- The boot thread, before it has enabled interrupts. -/
inductive FlagStart : FlagState → Prop
  | boot : FlagStart ⟨false, 0, 1, fun _ => [], fun _ => []⟩

inductive FlagStep : FlagState → FlagState → Prop
  | own {s : FlagState} (a : FlagAction) : s.frames s.running = [] →
      FlagStep s { s with
        enabled := a.enables
        actions := Function.update s.actions s.running (a :: s.actions s.running) }
  /-- A device is held back while the flag is clear. -/
  | interrupt {s : FlagState} (device : Bool) : (device = true → s.enabled = true) →
      FlagStep s { s with
        enabled := false
        frames := Function.update s.frames s.running (s.enabled :: s.frames s.running) }
  | resume {s : FlagState} (saved : Bool) (rest : List Bool) :
      s.frames s.running = saved :: rest →
      FlagStep s { s with
        enabled := saved
        frames := Function.update s.frames s.running rest }
  /-- Only an interrupt handler switches. -/
  | schedule {s : FlagState} : s.frames s.running ≠ [] →
      FlagStep s { s with running := (s.running + 1) % s.count }
  | create {s : FlagState} :
      FlagStep s { s with
        count := s.count + 1
        frames := Function.update s.frames s.count []
        actions := Function.update s.actions s.count [] }

/-! ## The invariant -/

/-- The outermost of the saved flags is that of the thread's own code; the inner
ones are those of handlers. -/
def SavedFlags (last : Bool) : List Bool → Prop
  | [] => True
  | [outermost] => outermost = last
  | inner :: outer => inner = false ∧ SavedFlags last outer

structure FlagInv (s : FlagState) : Prop where
  inside : s.running < s.count
  saved : ∀ i, SavedFlags (lastEnables (s.actions i)) (s.frames i)
  waiting : ∀ i < s.count, i ≠ s.running → s.frames i = [] → s.actions i = []
  own : s.frames s.running = [] → s.enabled = lastEnables (s.actions s.running)
  handler : s.frames s.running ≠ [] → s.enabled = false

theorem SavedFlags.push {last enabled : Bool} {frames : List Bool}
    (saved : SavedFlags last frames) (own : frames = [] → enabled = last)
    (handler : frames ≠ [] → enabled = false) : SavedFlags last (enabled :: frames) := by
  cases frames with
  | nil => exact own rfl
  | cons inner outer => exact ⟨handler (by simp), saved⟩

theorem SavedFlags.pop {last saved : Bool} {rest : List Bool}
    (flags : SavedFlags last (saved :: rest)) :
    SavedFlags last rest ∧ (rest = [] → saved = last) ∧ (rest ≠ [] → saved = false) := by
  cases rest with
  | nil => exact ⟨trivial, fun _ => flags, fun nonempty => absurd rfl nonempty⟩
  | cons inner outer => exact ⟨flags.2, fun empty => by contradiction, fun _ => flags.1⟩

theorem FlagInv.start {s : FlagState} (starts : FlagStart s) : FlagInv s := by
  cases starts with
  | boot =>
      exact {
        inside := Nat.one_pos
        saved := fun _ => trivial
        waiting := fun _ _ _ _ => rfl
        own := fun _ => rfl
        handler := fun nonempty => absurd rfl nonempty }

namespace FlagInv

variable {s : FlagState} (inv : FlagInv s)

include inv

theorem afterOwn (a : FlagAction) (ownCode : s.frames s.running = []) :
    FlagInv { s with
      enabled := a.enables
      actions := Function.update s.actions s.running (a :: s.actions s.running) } where
  inside := inv.inside
  saved := by
    intro i
    dsimp only
    by_cases here : i = s.running
    · rw [here, ownCode]
      trivial
    · rw [Function.update_of_ne here]
      exact inv.saved i
  waiting := by
    intro i bound other empty
    dsimp only
    rw [Function.update_of_ne other]
    exact inv.waiting i bound other empty
  own := by
    intro _
    dsimp only
    rw [Function.update_self]
    rfl
  handler := fun nonempty => absurd ownCode nonempty

theorem afterInterrupt :
    FlagInv { s with
      enabled := false
      frames := Function.update s.frames s.running (s.enabled :: s.frames s.running) } where
  inside := inv.inside
  saved := by
    intro i
    dsimp only
    by_cases here : i = s.running
    · rw [here, Function.update_self]
      exact (inv.saved s.running).push inv.own inv.handler
    · rw [Function.update_of_ne here]
      exact inv.saved i
  waiting := by
    intro i bound other empty
    dsimp only at empty
    rw [Function.update_of_ne other] at empty
    exact inv.waiting i bound other empty
  own := by
    intro empty
    dsimp only at empty
    rw [Function.update_self] at empty
    contradiction
  handler := fun _ => rfl

theorem afterResume {saved : Bool} {rest : List Bool}
    (isOpen : s.frames s.running = saved :: rest) :
    FlagInv { s with
      enabled := saved
      frames := Function.update s.frames s.running rest } := by
  have flags := inv.saved s.running
  rw [isOpen] at flags
  obtain ⟨outer, last, inner⟩ := flags.pop
  exact {
    inside := inv.inside
    saved := by
      intro i
      dsimp only
      by_cases here : i = s.running
      · rw [here, Function.update_self]
        exact outer
      · rw [Function.update_of_ne here]
        exact inv.saved i
    waiting := by
      intro i bound other empty
      dsimp only at empty
      rw [Function.update_of_ne other] at empty
      exact inv.waiting i bound other empty
    own := by
      intro empty
      dsimp only at empty
      rw [Function.update_self] at empty
      exact last empty
    handler := by
      intro nonempty
      dsimp only at nonempty
      rw [Function.update_self] at nonempty
      exact inner nonempty }

/-- The next thread finds the flag clear; a new one stays in that state. -/
theorem afterSchedule (inHandler : s.frames s.running ≠ []) :
    FlagInv { s with running := (s.running + 1) % s.count } where
  inside := Nat.mod_lt _ (Nat.zero_lt_of_lt inv.inside)
  saved := inv.saved
  waiting := by
    intro i bound _ empty
    refine inv.waiting i bound ?_ empty
    intro here
    exact inHandler (here ▸ empty)
  own := by
    intro empty
    dsimp only at empty
    have moved : (s.running + 1) % s.count ≠ s.running := by
      intro here
      exact inHandler (here ▸ empty)
    have bound := Nat.mod_lt (s.running + 1) (Nat.zero_lt_of_lt inv.inside)
    dsimp only
    rw [inv.waiting _ bound moved empty]
    exact inv.handler inHandler
  handler := fun _ => inv.handler inHandler

theorem afterCreate :
    FlagInv { s with
      count := s.count + 1
      frames := Function.update s.frames s.count []
      actions := Function.update s.actions s.count [] } := by
  have old : s.running ≠ s.count := Nat.ne_of_lt inv.inside
  exact {
    inside := Nat.lt_succ_of_lt inv.inside
    saved := by
      intro i
      dsimp only
      by_cases new : i = s.count
      · rw [new, Function.update_self, Function.update_self]
        trivial
      · rw [Function.update_of_ne new, Function.update_of_ne new]
        exact inv.saved i
    waiting := by
      intro i bound other empty
      dsimp only at bound empty ⊢
      by_cases new : i = s.count
      · rw [new, Function.update_self]
      · rw [Function.update_of_ne new] at empty ⊢
        exact inv.waiting i (by omega) other empty
    own := by
      dsimp only
      rw [Function.update_of_ne old, Function.update_of_ne old]
      exact inv.own
    handler := by
      dsimp only
      rw [Function.update_of_ne old]
      exact inv.handler }

theorem step {s' : FlagState} (taken : FlagStep s s') : FlagInv s' := by
  cases taken with
  | own a ownCode => exact inv.afterOwn a ownCode
  | interrupt device allowed => exact inv.afterInterrupt
  | resume saved rest isOpen => exact inv.afterResume isOpen
  | schedule inHandler => exact inv.afterSchedule inHandler
  | create => exact inv.afterCreate

end FlagInv

theorem FlagInv.run {s : FlagState} (reached : Reach FlagStart FlagStep s) : FlagInv s :=
  reached.invariant (fun _ starts => FlagInv.start starts) fun _ _ inv taken => inv.step taken

end OrbitOs.Process
