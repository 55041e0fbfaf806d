import OrbitOs.Process.Fairness

/-!
# The time slices of drivers/pit.c

The timer calls `process_schedule` on every tick whose number is a multiple of
50.  The 32-bit tick counter wraps, and 2^32 is no multiple of 50, so the slice
that contains the wrap has 46 ticks.
-/

set_option autoImplicit false

namespace OrbitOs.Process

open OrbitOs.Machine OrbitOs.Base OrbitOs.Memory

/-- The kernel with the variable `tick`. -/
structure Timed where
  system : System
  tick : Word

/-- `pit_callback` -/
def Timed.pitCallback (s : Timed) (retAddr : Word) : Timed :=
  let tick := s.tick + 1
  if tick % 50 = 0 then ⟨s.system.scheduled retAddr, tick⟩ else ⟨s.system, tick⟩

/-- The thread that the callback leaves running, if it calls `process_schedule`. -/
def Timed.dispatches (s : Timed) (retAddr : Word) : List Word :=
  if (s.tick + 1) % 50 = 0 then [(s.system.scheduled retAddr).kernel.currentProcess] else []

section Runs

variable (bootStack threadExit : Word)

/-- A stretch of a run with `n` timer interrupts, and the threads it dispatched. -/
inductive Ticks (s : Timed) : ℕ → List Word → Timed → Prop
  | none : Ticks s 0 [] s
  | timer {n : ℕ} {dispatched : List Word} {s' : Timed} (retAddr : Word) :
      Ticks s n dispatched s' →
      ((s'.tick + 1) % 50 = 0 → ¬ s'.system.kernel.NothingToSchedule →
        ∀ x, s'.system.kernel.machine.Below 8 x → s'.system.OwnStack bootStack x) →
      Ticks s (n + 1) (dispatched ++ s'.dispatches retAddr) (s'.pitCallback retAddr)
  | other {n : ℕ} {dispatched : List Word} {s' : Timed} {system : System} :
      Ticks s n dispatched s' → Step bootStack threadExit s'.system system →
      system.kernel.currentProcess = s'.system.kernel.currentProcess →
      Ticks s n dispatched ⟨system, s'.tick⟩

/-- How many of the first `k` ticks after boot are multiples of 50: 85899346 in
each round of the counter. -/
def schedulesUpTo (k : ℕ) : ℕ := k / 2 ^ 32 * 85899346 + k % 2 ^ 32 / 50

theorem schedulesUpTo_succ (k : ℕ) :
    schedulesUpTo (k + 1) = schedulesUpTo k + if (k + 1) % 2 ^ 32 % 50 = 0 then 1 else 0 := by
  unfold schedulesUpTo
  split <;> omega

/-- Two calls are never more than 50 ticks apart. -/
theorem schedulesUpTo_add (k n : ℕ) : schedulesUpTo k + n / 50 ≤ schedulesUpTo (k + n) := by
  unfold schedulesUpTo
  omega

variable {bootStack threadExit}

theorem tick_succ (tick : Word) : (tick + 1).toNat = (tick.toNat + 1) % 2 ^ 32 := by
  rw [BitVec.toNat_add]
  rfl

theorem tick_multiple (tick : Word) : (tick + 1) % 50 = 0 ↔ (tick.toNat + 1) % 2 ^ 32 % 50 = 0 := by
  have fifty : (50 : Word).toNat = 50 := rfl
  have zero : (0 : Word).toNat = 0 := rfl
  rw [← BitVec.toNat_inj, BitVec.toNat_umod, tick_succ, fifty, zero]

/-- The calls of `process_schedule` that a number of ticks makes. -/
theorem Ticks.calls {s s' : Timed} {n : ℕ} {dispatched : List Word}
    (ticks : Ticks bootStack threadExit s n dispatched s') :
    Calls bootStack threadExit s.system dispatched s'.system ∧
      schedulesUpTo s.tick.toNat + dispatched.length = schedulesUpTo (s.tick.toNat + n) ∧
      s'.tick.toNat = (s.tick.toNat + n) % 2 ^ 32 := by
  induction ticks with
  | none =>
      refine ⟨.none, ?_, (Nat.mod_eq_of_lt s.tick.isLt).symm⟩
      rw [List.length_nil, Nat.add_zero, Nat.add_zero]
  | @timer n dispatched s' retAddr _ room ih =>
      obtain ⟨calls, count, tick⟩ := ih
      have number : (s'.tick.toNat + 1) % 2 ^ 32 = (s.tick.toNat + (n + 1)) % 2 ^ 32 := by
        omega
      have next := schedulesUpTo_succ (s.tick.toNat + n)
      rw [Nat.add_assoc, ← number, ← count] at next
      by_cases multiple : (s'.tick + 1) % 50 = 0
      · rw [Timed.pitCallback, Timed.dispatches, if_pos multiple, if_pos multiple]
        rw [if_pos ((tick_multiple _).mp multiple)] at next
        refine ⟨.call retAddr calls (room multiple), ?_, (tick_succ _).trans number⟩
        rw [next, List.length_append, List.length_singleton, Nat.add_assoc]
      · rw [Timed.pitCallback, Timed.dispatches, if_neg multiple, if_neg multiple, List.append_nil]
        rw [if_neg (mt (tick_multiple _).mpr multiple)] at next
        refine ⟨calls, ?_, (tick_succ _).trans number⟩
        exact (next.trans (Nat.add_zero _)).symm
  | other _ taken same ih =>
      obtain ⟨calls, count, tick⟩ := ih
      exact ⟨.other calls taken same, count, tick⟩

/-- Which thread runs after `n` timer interrupts, as long as no thread is created:
the interrupts make a known number of turns of the queue, and 50 interrupts for
each thread give every thread a turn. -/
theorem running_after_ticks {s s' : Timed} {n : ℕ} {dispatched : List Word}
    (reached : Reach (Start bootStack) (Step bootStack threadExit) s.system)
    (ticks : Ticks bootStack threadExit s n dispatched s')
    (same : s'.system.threads.length = s.system.threads.length) :
    s'.system.running = (s.system.running +
        (schedulesUpTo (s.tick.toNat + n) - schedulesUpTo s.tick.toNat)) %
          s.system.threads.length ∧
      dispatched.length = schedulesUpTo (s.tick.toNat + n) - schedulesUpTo s.tick.toNat ∧
      (50 * s.system.threads.length ≤ n →
        ∀ t ∈ s.system.threads, blockAddr t.pcb ∈ dispatched) := by
  have inv : Inv bootStack threadExit s.system := Inv.run reached
  obtain ⟨calls, count, _⟩ := ticks.calls
  obtain ⟨inv', ⟨more, grown⟩, turns, stretch, names⟩ := calls.turns inv
  obtain ⟨c, atRunning, _⟩ := inv.current
  have inside : s.system.rota.cursor < s.system.rota.count :=
    (List.getElem?_eq_some_iff.mp atRunning).1
  have length : turns.length = dispatched.length := (List.Forall₂.length_eq names).symm
  obtain ⟨cursor, -⟩ := stretch.steady inside same
  have turned : dispatched.length =
      schedulesUpTo (s.tick.toNat + n) - schedulesUpTo s.tick.toNat := by omega
  refine ⟨?_, turned, fun enough t member => ?_⟩
  · rw [length] at cursor
    rw [← turned]
    exact cursor
  · obtain ⟨j, atJ⟩ := List.mem_iff_getElem?.mp member
    have bound : j < s.system.rota.count := (List.getElem?_eq_some_iff.mp atJ).1
    have later : s'.system.threads[j]? = some t := by
      rw [← grown, List.getElem?_append_left bound]
      exact atJ
    have slices := schedulesUpTo_add s.tick.toNat n
    have many : s.system.rota.count ≤ turns.length := by
      have threads : s.system.rota.count = s.system.threads.length := rfl
      omega
    have turn := stretch.covers inside same many bound
    rw [← List.count_pos_iff, inv'.count_eq names later, List.count_pos_iff]
    exact turn

end Runs

/-- The tick that ends the first slice of the boot thread. -/
theorem running_after_ticks_twoThreads : ∃ s s' : Timed, s.tick = 49 ∧
    Ticks 0x200000 0x101000 s 1 (s.dispatches 0x103000) s' ∧
      s'.system.running = (s.system.running + 1) % s.system.threads.length := by
  obtain ⟨system, two⟩ := twoThreads_exists
  have inv : Inv 0x200000 0x101000 system := Inv.run two.reached
  have scheduled := inv.scheduled 0x103000 fun _ => two.room
  have multiple : ((49 : Word) + 1) % 50 = 0 := by decide
  have fired : Timed.pitCallback ⟨system, 49⟩ 0x103000 = ⟨system.scheduled 0x103000, 50⟩ :=
    if_pos multiple
  have ticks : Ticks 0x200000 0x101000 ⟨system, 49⟩ 1 (Timed.dispatches ⟨system, 49⟩ 0x103000)
      (Timed.pitCallback ⟨system, 49⟩ 0x103000) :=
    .timer 0x103000 .none fun _ _ => two.room
  have one : schedulesUpTo (49 + 1) - schedulesUpTo 49 = 1 := by decide
  have same : (Timed.pitCallback ⟨system, 49⟩ 0x103000).system.threads.length =
      system.threads.length := by
    rw [fired]
    exact congrArg List.length scheduled.2.1
  refine ⟨_, _, rfl, ticks, ?_⟩
  rw [← one]
  exact (running_after_ticks (s := ⟨system, 49⟩) two.reached ticks same).1

end OrbitOs.Process
