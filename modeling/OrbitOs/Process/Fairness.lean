import OrbitOs.Base.RoundRobin
import OrbitOs.Process.OneRing

/-!
# Fairness of `process_schedule`

The cursor of the run queue goes round the threads in the order of their
creation, and creating one does not disturb the others.
-/

set_option autoImplicit false

namespace OrbitOs.Process

open OrbitOs.Machine OrbitOs.Base OrbitOs.Memory

/-- One call of `process_schedule`. -/
def System.scheduled (s : System) (retAddr : Word) : System :=
  if s.kernel.NothingToSchedule then { s with kernel := s.kernel.processSchedule retAddr }
  else s.switched retAddr

section Runs

variable (bootStack threadExit : Word)

/-- A stretch of a run from `s`, with `current_process` after each call of
`process_schedule` in it. -/
inductive Calls (s : System) : List Word → System → Prop
  | none : Calls s [] s
  | call {dispatched : List Word} {s' : System} (retAddr : Word) : Calls s dispatched s' →
      (¬ s'.kernel.NothingToSchedule →
        ∀ x, s'.kernel.machine.Below 8 x → s'.OwnStack bootStack x) →
      Calls s (dispatched ++ [(s'.scheduled retAddr).kernel.currentProcess])
        (s'.scheduled retAddr)
  | other {dispatched : List Word} {s' s'' : System} : Calls s dispatched s' →
      Step bootStack threadExit s' s'' →
      s''.kernel.currentProcess = s'.kernel.currentProcess → Calls s dispatched s''

variable {bootStack threadExit}

/-- The queue with its cursor. -/
def System.rota (s : System) : Rota := ⟨s.threads.length, s.running⟩

theorem Inv.scheduled {s : System} (inv : Inv bootStack threadExit s) (retAddr : Word)
    (room : ¬ s.kernel.NothingToSchedule →
      ∀ x, s.kernel.machine.Below 8 x → s.OwnStack bootStack x) :
    Inv bootStack threadExit (s.scheduled retAddr) ∧ (s.scheduled retAddr).threads = s.threads ∧
      (s.scheduled retAddr).running = s.next := by
  unfold System.scheduled
  by_cases nothing : s.kernel.NothingToSchedule
  · rw [if_pos nothing]
    refine ⟨inv.step (.stay retAddr nothing), rfl, ?_⟩
    obtain ⟨t, atRunning, _⟩ := inv.current
    have bound := (List.getElem?_eq_some_iff.mp atRunning).1
    have alone : s.threads.length < 2 := by
      by_contra more
      exact inv.switches (by omega) nothing
    have first : s.running = 0 := by omega
    have single : s.threads.length = 1 := by omega
    unfold System.next
    rw [single, Nat.mod_one]
    exact first
  · rw [if_neg nothing]
    exact ⟨inv.switch retAddr nothing (room nothing), rfl, rfl⟩

/-- Only `process_schedule` moves the cursor. -/
theorem Inv.other {s s' : System} (inv : Inv bootStack threadExit s)
    (taken : Step bootStack threadExit s s')
    (same : s'.kernel.currentProcess = s.kernel.currentProcess) :
    s'.running = s.running ∧ (s'.threads = s.threads ∨ ∃ t, s'.threads = s.threads ++ [t]) := by
  cases taken with
  | create entryPoint gotProc gotStack returned => exact ⟨rfl, .inr ⟨_, rfl⟩⟩
  | switch retAddr switches room =>
      obtain ⟨t, atRunning, current⟩ := inv.current
      obtain ⟨u, atNext, next⟩ := inv.at_next
      have moved : (s.switched retAddr).kernel.currentProcess = blockAddr u.pcb :=
        (inv.switched_spec retAddr switches room).currentProcess.trans next
      have addresses : blockAddr u.pcb = blockAddr t.pcb := moved.symm.trans (same.trans current)
      have pcbs := blockAddr_injective (inv.pcbBound (List.mem_of_getElem? atNext))
        (inv.pcbBound (List.mem_of_getElem? atRunning)) addresses
      exact absurd pcbs (inv.pcb_ne atNext atRunning (inv.next_ne switches))
  | stay retAddr nothing => exact ⟨rfl, .inl rfl⟩
  | code cpu m own => exact ⟨rfl, .inl rfl⟩

/-- The control blocks of the threads at the given places. -/
def Names (threads : List Thread) (dispatched : List Word) (turns : List ℕ) : Prop :=
  List.Forall₂ (fun d i => ∃ t, threads[i]? = some t ∧ d = blockAddr t.pcb) dispatched turns

theorem Names.append {threads : List Thread} {dispatched : List Word} {turns : List ℕ}
    (names : Names threads dispatched turns) {i : ℕ} {t : Thread} (atI : threads[i]? = some t) :
    Names threads (dispatched ++ [blockAddr t.pcb]) (turns ++ [i]) :=
  List.rel_append names (.cons ⟨t, atI, rfl⟩ .nil)

theorem Names.last {threads : List Thread} {dispatched : List Word} {d : Word} {all : List ℕ}
    (names : Names threads (dispatched ++ [d]) all) :
    ∃ turns i, all = turns ++ [i] ∧ Names threads dispatched turns ∧
      ∃ t, threads[i]? = some t ∧ d = blockAddr t.pcb := by
  unfold Names at *
  induction dispatched generalizing all with
  | nil =>
      obtain ⟨i, rest, named, nothing, rfl⟩ := List.forall₂_cons_left_iff.mp names
      cases nothing
      exact ⟨[], i, rfl, .nil, named⟩
  | cons first dispatched ih =>
      obtain ⟨j, rest, named, others, rfl⟩ := List.forall₂_cons_left_iff.mp names
      obtain ⟨turns, i, rfl, before, last⟩ := ih others
      exact ⟨j :: turns, i, rfl, .cons named before, last⟩

theorem Names.created {threads : List Thread} {dispatched : List Word} {turns : List ℕ}
    (names : Names threads dispatched turns) (new : Thread) :
    Names (threads ++ [new]) dispatched turns := by
  refine List.Forall₂.imp ?_ names
  intro d i ⟨t, atI, named⟩
  have bound := (List.getElem?_eq_some_iff.mp atI).1
  exact ⟨t, (List.getElem?_append_left bound).trans atI, named⟩

theorem Inv.names_iff {s : System} (inv : Inv bootStack threadExit s) {i j : ℕ} {t u : Thread}
    (atI : s.threads[i]? = some t) (atJ : s.threads[j]? = some u) :
    blockAddr t.pcb = blockAddr u.pcb ↔ i = j := by
  constructor
  · intro addresses
    have pcbs := blockAddr_injective (inv.pcbBound (List.mem_of_getElem? atI))
      (inv.pcbBound (List.mem_of_getElem? atJ)) addresses
    by_contra other
    exact inv.pcb_ne atI atJ other pcbs
  · rintro rfl
    rw [Option.some.inj (atI.symm.trans atJ)]

theorem Inv.count_eq {s : System} (inv : Inv bootStack threadExit s) {dispatched : List Word}
    {turns : List ℕ} (names : Names s.threads dispatched turns) {j : ℕ} {u : Thread}
    (atJ : s.threads[j]? = some u) :
    dispatched.count (blockAddr u.pcb) = turns.count j := by
  unfold Names at names
  induction names with
  | nil => rfl
  | cons named _ ih =>
      obtain ⟨t, atI, rfl⟩ := named
      rw [List.count_cons, List.count_cons, ih]
      have same := inv.names_iff atI atJ
      simp only [beq_iff_eq, same]

/-- A stretch of a run as turns of the rota. -/
theorem Calls.turns {s s' : System} (inv : Inv bootStack threadExit s) {dispatched : List Word}
    (calls : Calls bootStack threadExit s dispatched s') :
    Inv bootStack threadExit s' ∧ s.threads <+: s'.threads ∧
      ∃ turns, Rota.Turns s.rota turns s'.rota ∧ Names s'.threads dispatched turns := by
  induction calls with
  | none => exact ⟨inv, List.prefix_rfl, [], .none, .nil⟩
  | @call dispatched s' retAddr _ room ih =>
      obtain ⟨inv', grown, turns, stretch, names⟩ := ih
      obtain ⟨after, threads, running⟩ := inv'.scheduled retAddr room
      obtain ⟨t, atRunning, current⟩ := after.current
      have rota : (s'.scheduled retAddr).rota = ⟨s'.rota.count, s'.rota.next⟩ := by
        unfold System.rota
        rw [threads, running]
        rfl
      have place := atRunning
      rw [threads, running] at place
      refine ⟨after, threads ▸ grown, turns ++ [s'.rota.next], ?_, ?_⟩
      · rw [rota]
        exact .turn stretch
      · rw [threads, current]
        exact names.append place
  | @other dispatched s' s'' _ taken same ih =>
      obtain ⟨inv', grown, turns, stretch, names⟩ := ih
      obtain ⟨running, threads | ⟨new, threads⟩⟩ := inv'.other taken same
      · refine ⟨inv'.step taken, threads ▸ grown, turns, ?_, threads ▸ names⟩
        have rota : s''.rota = s'.rota := by
          unfold System.rota
          rw [threads, running]
        rw [rota]
        exact stretch
      · refine ⟨inv'.step taken, ?_, turns, ?_, ?_⟩
        · rw [threads]
          exact grown.trans (List.prefix_append _ _)
        · have rota : s''.rota = ⟨s'.rota.count + 1, s'.rota.cursor⟩ := by
            unfold System.rota
            rw [threads, running, List.length_append]
            rfl
          rw [rota]
          exact .join stretch
        · rw [threads]
          exact names.created new

/-- The dispatches after `s`, in which `current_process` was dispatched last. -/
structure Fair (bootStack threadExit : Word) (s : System) : Prop where
  /-- Up to the next dispatch of the same process. -/
  between : ∀ dispatched s',
    Calls bootStack threadExit s (dispatched ++ [s.kernel.currentProcess]) s' →
    s.kernel.currentProcess ∉ dispatched →
    (∀ t ∈ s.threads, blockAddr t.pcb ≠ s.kernel.currentProcess →
      dispatched.count (blockAddr t.pcb) = 1) ∧
    ∀ t ∈ s'.threads, dispatched.count (blockAddr t.pcb) ≤ 1
  /-- As many calls as there are processes, and no creation. -/
  window : ∀ dispatched s', Calls bootStack threadExit s dispatched s' →
    s'.threads = s.threads → dispatched.length = s.threads.length →
    ∀ t ∈ s.threads, dispatched.count (blockAddr t.pcb) = 1

theorem Inv.fair {s : System} (inv : Inv bootStack threadExit s) :
    Fair bootStack threadExit s := by
  obtain ⟨c, atRunning, current⟩ := inv.current
  have inside : s.rota.cursor < s.rota.count := (List.getElem?_eq_some_iff.mp atRunning).1
  constructor
  · intro dispatched s' calls away
    obtain ⟨inv', ⟨rest, grown⟩, all, stretch, names⟩ := calls.turns inv
    have later : ∀ (i : ℕ) (t : Thread), s.threads[i]? = some t → s'.threads[i]? = some t := by
      intro i t atI
      rw [← grown, List.getElem?_append_left (List.getElem?_eq_some_iff.mp atI).1]
      exact atI
    obtain ⟨turns, i, rfl, names, t, atI, returned⟩ := names.last
    obtain ⟨r₁, stretch, back⟩ := stretch.last
    have atRunning' := later _ _ atRunning
    have same : i = s.rota.cursor :=
      (inv'.names_iff atI atRunning').mp (returned.symm.trans current)
    have notYet : s.rota.cursor ∉ turns := by
      have zero := inv'.count_eq names atRunning'
      rw [← current, List.count_eq_zero.mpr away] at zero
      exact List.count_eq_zero.mp zero.symm
    obtain ⟨once, atMostOnce⟩ := stretch.fair inside notYet (back.trans same)
    constructor
    · intro u member other
      obtain ⟨j, atJ⟩ := List.mem_iff_getElem?.mp member
      rw [inv'.count_eq names (later j u atJ)]
      refine once j (List.getElem?_eq_some_iff.mp atJ).1 ?_
      rintro rfl
      rw [current, Option.some.inj (atJ.symm.trans atRunning)] at other
      exact other rfl
    · intro u member
      obtain ⟨j, atJ⟩ := List.mem_iff_getElem?.mp member
      rw [inv'.count_eq names atJ]
      exact atMostOnce j
  · intro dispatched s' calls same round t member
    obtain ⟨inv', _, turns, stretch, names⟩ := calls.turns inv
    obtain ⟨j, atJ⟩ := List.mem_iff_getElem?.mp member
    have count : s'.rota.count = s.rota.count := congrArg List.length same
    have length : turns.length = s.rota.count := (List.Forall₂.length_eq names).symm.trans round
    rw [inv'.count_eq names (same ▸ atJ)]
    exact stretch.window inside count length (List.getElem?_eq_some_iff.mp atJ).1

theorem roundRobin_fair {s : System}
    (reached : Reach (Start bootStack) (Step bootStack threadExit) s) :
    Fair bootStack threadExit s := (Inv.run reached).fair

end Runs

/-- The boot thread, with one created thread that is dispatched next. -/
theorem roundRobin_fair_twoThreads : ∃ s d s', Calls 0x200000 0x101000 s [d] s' ∧
    d ≠ s.kernel.currentProcess ∧ Fair 0x200000 0x101000 s := by
  obtain ⟨s, two⟩ := twoThreads_exists
  have inv : Inv 0x200000 0x101000 s := Inv.run two.reached
  have calls : Calls 0x200000 0x101000 s ([] ++ [(s.scheduled 0x103000).kernel.currentProcess])
      (s.scheduled 0x103000) := .call 0x103000 .none fun _ => two.room
  refine ⟨s, _, _, calls, ?_, roundRobin_fair two.reached⟩
  obtain ⟨t, atRunning, current⟩ := inv.current
  obtain ⟨u, atNext, next⟩ := inv.at_next
  have moved : (s.scheduled 0x103000).kernel.currentProcess = blockAddr u.pcb := by
    unfold System.scheduled
    rw [if_neg two.switches]
    exact (inv.switched_spec 0x103000 two.switches two.room).currentProcess.trans next
  rw [moved, current]
  exact fun same => inv.next_ne two.switches ((inv.names_iff atNext atRunning).mp same)

end OrbitOs.Process
