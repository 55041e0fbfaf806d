import OrbitOs.Kernel.Delivery

/-!
# No interrupt is lost and none is delivered twice

Every rising edge of a line is withdrawn by its device, is still requested, or
has led to one call for the vector of that line.  A call without an edge goes to
lines 7 and 15 alone, and only when a device withdrew a request.
-/

set_option autoImplicit false

namespace OrbitOs.Kernel

open OrbitOs.Machine OrbitOs.Base OrbitOs.Drivers.Pic OrbitOs.Process

/-! ## When the chips ask for attention -/

theorem requested_master (c : Pics) (k : Fin 8) :
    c.requested (masterLine k) = c.master.irr.getLsbD k := by
  obtain ⟨small, index⟩ := masterLine_index k
  rw [Pics.requested, if_pos small, index]

theorem requested_slave (c : Pics) (k : Fin 8) :
    c.requested (slaveLine k) = c.slave.irr.getLsbD k := by
  obtain ⟨other, index⟩ := slaveLine_index k
  rw [Pics.requested, if_neg other, index]

theorem masked_master (c : Pics) (k : Fin 8) :
    c.masked (masterLine k) = c.master.imr.getLsbD k := by
  obtain ⟨small, index⟩ := masterLine_index k
  rw [Pics.masked, if_pos small, index]

theorem masked_slave (c : Pics) (k : Fin 8) :
    c.masked (slaveLine k) = c.slave.imr.getLsbD k := by
  obtain ⟨other, index⟩ := slaveLine_index k
  rw [Pics.masked, if_neg other, index]

theorem masterLine_inj {j k : Fin 8} : masterLine j = masterLine k ↔ j = k := by
  revert j k
  decide

theorem slaveLine_inj {j k : Fin 8} : slaveLine j = slaveLine k ↔ j = k := by
  revert j k
  decide

theorem masterLine_ne_slaveLine (j k : Fin 8) : masterLine j ≠ slaveLine k := by
  revert j k
  decide

/-- A line that nothing holds back but the flag. -/
def Waits (c : Pics) (n : Fin 16) : Prop := c.requested n = true ∧ c.masked n = false

theorem slave_int {c : Pics} (idle : c.slave.isr = 0) :
    c.slave.int = true ↔ ∃ k, Waits c (slaveLine k) := by
  rw [Pic.int_idle idle]
  simp only [Waits, requested_slave, masked_slave]

/-- The output of the master: a line of its own waits, or one of the slave does
and the line of the slave is not masked. -/
theorem master_int {c : Pics} (linked : c.Linked) (idle : Idle c) :
    c.master.int = true ↔ (∃ k, k ≠ Pics.slaveLine ∧ Waits c (masterLine k)) ∨
      ((∃ k, Waits c (slaveLine k)) ∧ c.masked 2 = false) := by
  have cascade : c.master.irr.getLsbD Pics.slaveLine = true ↔ ∃ k, Waits c (slaveLine k) := by
    rw [← slave_int idle.slave, ← linked.wired]
    exact ⟨linked.master.high _, idle.latched⟩
  have mask : c.masked 2 = c.master.imr.getLsbD Pics.slaveLine := masked_master c Pics.slaveLine
  rw [Pic.int_idle idle.master, ← cascade, mask]
  simp only [Waits, requested_master, masked_master]
  constructor
  · rintro ⟨k, requested, unmasked⟩
    by_cases device : k = Pics.slaveLine
    · subst device
      exact .inr ⟨requested, unmasked⟩
    · exact .inl ⟨k, device, requested, unmasked⟩
  · rintro (⟨k, _, waits⟩ | waits)
    · exact ⟨k, waits⟩
    · exact ⟨Pics.slaveLine, waits⟩

/-! ## The balance -/

/-- How many interrupts of a line are taken and not yet with their handler. -/
def Phase.inFlight : Phase → Fin 16 → ℕ
  | .chosen (some k), n => if k ≠ Pics.slaveLine ∧ n = masterLine k then 1 else 0
  | .serving v _, n => if v = vectorOf n then 1 else 0
  | _, _ => 0

/-- The request that the CPU has seen is still there. -/
def Phase.Stands (c : Pics) : Phase → Prop
  | .sampled => c.master.int = true
  | .chosen none => False
  | .chosen (some k) => k = Pics.slaveLine → c.slave.int = true
  | _ => True

structure Balanced (s : Delivery) : Prop where
  edges : ∀ n ≠ 2, s.ledger.edges n =
    s.ledger.withdrawn n + s.ledger.taken n + (s.chips.requested n).toNat
  calls : ∀ n ≠ 2, s.ledger.taken n + s.ledger.spurious n =
    s.ledger.calls (vectorOf n) + s.phase.inFlight n
  called : ∀ v, s.ledger.calls v ≠ 0 → ∃ n ≠ 2, v = vectorOf n
  spurious : ∀ n, s.ledger.spurious n ≠ 0 → n = masterLine Pic.lastLine ∨ n = slaveLine Pic.lastLine
  standing : (∀ n, s.ledger.withdrawn n = 0) →
    s.phase.Stands s.chips ∧ ∀ n, s.ledger.spurious n = 0

theorem bump_apply {α : Type} [DecidableEq α] (f : α → ℕ) (a b : α) :
    bump f a b = f b + if b = a then 1 else 0 := by
  unfold bump
  by_cases here : b = a
  · rw [here, Function.update_self, if_pos rfl]
  · rw [Function.update_of_ne here, if_neg here, Nat.add_zero]

/-! ### A line moves -/

theorem masked_drive (c : Pics) (m n : Fin 16) (up : Bool) :
    (c.drive n up).masked m = c.masked m := by
  obtain ⟨master, slave⟩ := c.drive_settings n up
  have masks : ∀ {p q : Machine.Pic}, p.settings = q.settings → p.imr = q.imr := by
    intro p q same
    have imr := congrArg Pic.imr same
    exact imr
  rw [Pics.masked, Pics.masked, masks master, masks slave]

/-- A move that withdraws nothing. -/
def Gentle (c : Pics) (n : Fin 16) (up : Bool) : Prop := up = false → c.requested n = false

theorem Waits.drive {c : Pics} {m n : Fin 16} {up : Bool} (waits : Waits c m) (linked : c.Linked)
    (device : m ≠ 2) (gentle : n ≠ 2 → Gentle c n up) : Waits (c.drive n up) m := by
  refine ⟨?_, (masked_drive c m n up).trans waits.2⟩
  by_cases driven : n = 2
  · rw [driven, Pics.drive_slaveLine]
    exact waits.1
  · rw [linked.requested_drive device driven]
    by_cases here : m = n
    · subst here
      cases up with
      | true => rw [if_pos rfl, waits.1, Bool.true_or, Bool.and_true]
      | false => exact absurd waits.1 (by rw [gentle driven rfl]; exact Bool.false_ne_true)
    · rw [if_neg here]
      exact waits.1

theorem Phase.Stands.drive {c : Pics} {phase : Phase} (stands : phase.Stands c)
    (serves : phase.Serves c) (linked : c.Linked) {n : Fin 16} {up : Bool}
    (gentle : n ≠ 2 → Gentle c n up) : phase.Stands (c.drive n up) := by
  have linked' := linked.drive n up
  have serves' := serves.drive linked n up
  have slaveKeeps : c.slave.isr = 0 → c.slave.int = true → (c.drive n up).slave.int = true := by
    intro idle asks
    have idle' : (c.drive n up).slave.isr = 0 := (drive_isr c n up).2.trans idle
    obtain ⟨k, waits⟩ := (slave_int idle).mp asks
    exact (slave_int idle').mpr ⟨k, waits.drive linked (slaveLine_ne k) gentle⟩
  cases phase with
  | running => trivial
  | serving v rest => trivial
  | sampled =>
      have asks := (master_int linked serves).mp stands
      refine (master_int linked' serves').mpr ?_
      rcases asks with ⟨k, device, waits⟩ | ⟨⟨k, waits⟩, unmasked⟩
      · exact .inl ⟨k, device, waits.drive linked (mt masterLine_eq.mp device) gentle⟩
      · exact .inr ⟨⟨k, waits.drive linked (slaveLine_ne k) gentle⟩,
          (masked_drive c 2 n up).trans unmasked⟩
  | chosen line =>
      cases line with
      | none => exact stands
      | some k => exact fun device => slaveKeeps serves.2.1 (stands device)

/-- A rising edge of a low line is a request, and nothing else is. -/
theorem edges_drive {c : Pics} (linked : c.Linked) {l : Ledger} {n : Fin 16} (up : Bool)
    {m : Fin 16} (device : m ≠ 2)
    (edges : l.edges m = l.withdrawn m + l.taken m + (c.requested m).toNat) :
    (l.lineMoved c n up).edges m = (l.lineMoved c n up).withdrawn m +
      (l.lineMoved c n up).taken m + ((c.drive n up).requested m).toNat := by
  unfold Ledger.lineMoved
  by_cases driven : n = 2
  · rw [if_pos driven, driven, Pics.drive_slaveLine]
    exact edges
  · rw [if_neg driven, linked.requested_drive device driven]
    dsimp only
    by_cases here : m = n
    · subst here
      have high : c.requested m = true → c.high m = true := by
        unfold Pics.requested Pics.high
        by_cases small : m < 8
        · rw [if_pos small, if_pos small]
          exact linked.master.high _
        · rw [if_neg small, if_neg small]
          exact linked.slave.high _
      rw [if_pos rfl]
      cases up with
      | false =>
          cases requested : c.requested m with
          | false => simpa [requested] using edges
          | true =>
              rw [requested, Bool.toNat_true] at edges
              simp only [Bool.false_and, Bool.not_false, Bool.and_self, Bool.false_eq_true,
                if_false, if_true, bump_apply, Bool.toNat_false]
              omega
      | true =>
          cases level : c.high m with
          | true => simpa [level] using edges
          | false =>
              have low : c.requested m = false := by
                by_contra asks
                rw [high (Bool.not_eq_false _ ▸ asks)] at level
                exact absurd level (by decide)
              rw [low, Bool.toNat_false] at edges
              simp only [low, Bool.not_true, Bool.not_false, Bool.and_self, Bool.false_eq_true,
                if_false, if_true, bump_apply, Bool.or_true, Bool.toNat_true]
              omega
    · rw [if_neg here]
      cases up <;> cases c.requested n <;> cases c.high n <;> simp [bump_apply, here, edges]

/-- A ledger without withdrawals has no new one. -/
theorem gentle_of_withdrawn {c : Pics} {l : Ledger} {n : Fin 16} {up : Bool}
    (never : ∀ m, (l.lineMoved c n up).withdrawn m = 0) :
    (∀ m, l.withdrawn m = 0) ∧ (n ≠ 2 → Gentle c n up) := by
  unfold Ledger.lineMoved at never
  by_cases driven : n = 2
  · rw [if_pos driven] at never
    exact ⟨never, fun device => absurd driven device⟩
  · rw [if_neg driven] at never
    by_cases withdraws : (!up && c.requested n) = true
    · have here := never n
      simp only [withdraws, if_true, bump_apply] at here
      omega
    · simp only [withdraws, Bool.false_eq_true, if_false] at never
      refine ⟨never, fun _ down => ?_⟩
      rw [down, Bool.not_false, Bool.true_and, Bool.not_eq_true] at withdraws
      exact withdraws

theorem lineMoved_rest (c : Pics) (l : Ledger) (n : Fin 16) (up : Bool) :
    (l.lineMoved c n up).taken = l.taken ∧ (l.lineMoved c n up).spurious = l.spurious ∧
      (l.lineMoved c n up).calls = l.calls := by
  unfold Ledger.lineMoved
  split <;> exact ⟨rfl, rfl, rfl⟩

/-! ### The pulses -/

theorem requested_serveMaster {a1 a2 : Byte} {c : Pics} (chips : Chips a1 a2 c) (k : Fin 8)
    (m : Fin 16) : Pics.requested { c with master := c.master.serve k } m =
      (c.requested m && !decide (m = masterLine k)) := by
  rcases line_cases m with ⟨j, rfl⟩ | ⟨j, rfl⟩
  · rw [requested_master, requested_master, Pic.serve_irr chips.masterUsual]
    simp only [masterLine_inj]
  · rw [requested_slave, requested_slave, decide_eq_false (masterLine_ne_slaveLine k j).symm]
    exact (Bool.and_true _).symm

theorem requested_serveSlave {a1 a2 : Byte} {c : Pics} (chips : Chips a1 a2 c) (k : Fin 8)
    {m : Fin 16} (device : m ≠ 2) :
    (Pics.wire { c with slave := c.slave.serve k }).requested m =
      (c.requested m && !decide (m = slaveLine k)) := by
  rw [Pics.wire_requested (c := ⟨c.master, c.slave.serve k⟩) device chips.linked.master.edge]
  rcases line_cases m with ⟨j, rfl⟩ | ⟨j, rfl⟩
  · rw [requested_master, requested_master, decide_eq_false (masterLine_ne_slaveLine j k)]
    exact (Bool.and_true _).symm
  · rw [requested_slave, requested_slave, Pic.serve_irr chips.slaveUsual]
    simp only [slaveLine_inj]

/-- Taking the request of a line moves it from one side of the balance to the
other. -/
theorem edges_take {edges withdrawn taken : Fin 16 → ℕ} {before after : Bool} {m n : Fin 16}
    (balance : edges m = withdrawn m + taken m + before.toNat) (asked : m = n → before = true)
    (takes : after = (before && !decide (m = n))) :
    edges m = withdrawn m + bump taken n m + after.toNat := by
  rw [takes, bump_apply]
  by_cases here : m = n
  · rw [asked here, Bool.toNat_true] at balance
    rw [asked here, if_pos here, decide_eq_true here]
    exact balance.trans (Nat.add_assoc _ _ _)
  · rw [if_neg here, decide_eq_false here, Bool.not_false, Bool.and_true]
    exact balance

/-! ### The steps -/

theorem Balanced.start {s : Delivery} (starts : DeliveryStart s) : Balanced s := by
  cases starts with
  | remapped ends begins =>
      exact {
        edges := fun n _ => (Nat.zero_add _).symm
        calls := fun _ _ => rfl
        called := fun _ some => absurd rfl some
        spurious := fun _ some => absurd rfl some
        standing := fun _ => ⟨trivial, fun _ => rfl⟩ }

/-- A phase that changes neither the chips nor the ledger. -/
theorem Balanced.phase {s : Delivery} (balanced : Balanced s) {f : FlagState} {phase : Phase}
    (flight : ∀ n, phase.inFlight n = s.phase.inFlight n) (stands : phase.Stands s.chips) :
    Balanced { s with flags := f, phase := phase } where
  edges := balanced.edges
  calls := by
    intro n device
    rw [balanced.calls n device, flight]
  called := balanced.called
  spurious := balanced.spurious
  standing := fun never => ⟨stands, (balanced.standing never).2⟩

theorem Balanced.line {a1 a2 : Byte} {s : Delivery} (balanced : Balanced s) (sound : Sound a1 a2 s)
    (n : Fin 16) (up : Bool) :
    Balanced { s with
      chips := s.chips.drive n up, ledger := s.ledger.lineMoved s.chips n up } := by
  have linked := sound.chips.linked
  obtain ⟨taken, spurious, calls⟩ := lineMoved_rest s.chips s.ledger n up
  refine ⟨?_, ?_, ?_, ?_, ?_⟩
  · exact fun m device => edges_drive linked up device (balanced.edges m device)
  · dsimp only
    rw [taken, spurious, calls]
    exact balanced.calls
  · dsimp only
    rw [calls]
    exact balanced.called
  · dsimp only
    rw [spurious]
    exact balanced.spurious
  · intro never
    obtain ⟨before, gentle⟩ := gentle_of_withdrawn never
    obtain ⟨stands, none⟩ := balanced.standing before
    dsimp only
    rw [spurious]
    exact ⟨stands.drive sound.serves linked gentle, none⟩

theorem Balanced.select {a1 a2 : Byte} {s : Delivery} (balanced : Balanced s)
    (sound : Sound a1 a2 s) (sampled : s.phase = .sampled) :
    Balanced { s with
      chips := s.chips.select.2
      phase := .chosen s.chips.select.1
      ledger := s.ledger.selected s.chips.select.1 } := by
  have chips := sound.chips
  have still : ∀ n, s.phase.inFlight n = 0 := by
    rw [sampled]
    exact fun _ => rfl
  have asks : (∀ n, s.ledger.withdrawn n = 0) → s.chips.master.int = true := by
    intro never
    have stands := (balanced.standing never).1
    rw [sampled] at stands
    exact stands
  unfold Pics.select
  cases chosen : s.chips.master.request with
  | none =>
      refine ⟨balanced.edges, ?_, balanced.called, balanced.spurious, ?_⟩
      · intro n device
        have before := balanced.calls n device
        rw [still] at before
        exact before
      · intro never
        have int := asks never
        rw [Pic.int, chosen] at int
        exact absurd int Bool.false_ne_true
  | some k =>
      have requested := (Pic.request_requested chosen).1
      have moves := requested_serveMaster chips k
      dsimp only [Ledger.selected]
      by_cases device : k = Pics.slaveLine
      · rw [if_pos device]
        refine ⟨?_, ?_, balanced.called, balanced.spurious, ?_⟩
        · intro n other
          have apart : n ≠ masterLine k := fun same => other (same.trans (masterLine_eq.mpr device))
          have before := balanced.edges n other
          dsimp only
          rw [moves, decide_eq_false apart, Bool.not_false, Bool.and_true]
          exact before
        · intro n other
          have before := balanced.calls n other
          rw [still] at before
          have flight : (Phase.chosen (some k)).inFlight n = 0 := if_neg fun both => both.1 device
          rw [flight]
          exact before
        · intro never
          refine ⟨fun _ => ?_, (balanced.standing never).2⟩
          change s.chips.slave.int = true
          rw [← chips.linked.wired]
          exact chips.linked.master.high _ (device ▸ requested)
      · rw [if_neg device]
        refine ⟨?_, ?_, balanced.called, balanced.spurious, ?_⟩
        · intro n other
          refine edges_take (balanced.edges n other) ?_ (moves n)
          rintro rfl
          rw [requested_master]
          exact requested
        · intro n other
          have before := balanced.calls n other
          rw [still, Nat.add_zero] at before
          have flight : (Phase.chosen (some k)).inFlight n = if n = masterLine k then 1 else 0 :=
            if_congr (and_iff_right device) rfl rfl
          dsimp only
          rw [bump_apply, flight]
          omega
        · exact fun never => ⟨fun same => absurd same device, (balanced.standing never).2⟩

section Serve

variable {s : Delivery} (balanced : Balanced s) (still : ∀ n, s.phase.inFlight n = 0)
  {chips : Pics} {m : Fin 16} (flags : FlagState) (rest : Code Unit)

include balanced still

/-- The line of a vector goes from nowhere into service. -/
theorem calls_serve {n : Fin 16} (device : n ≠ 2) :
    s.ledger.taken n + s.ledger.spurious n + (if n = m then 1 else 0) =
      s.ledger.calls (vectorOf n) + (Phase.serving (vectorOf m) rest).inFlight n := by
  have flight : (Phase.serving (vectorOf m) rest).inFlight n = if n = m then 1 else 0 :=
    if_congr (vectorOf_inj.trans eq_comm) rfl rfl
  rw [flight, balanced.calls n device, still, Nat.add_zero]

/-- A chip that no line asks answers with its last line. -/
theorem Balanced.serveSpurious (last : m = masterLine Pic.lastLine ∨ m = slaveLine Pic.lastLine)
    (requested : ∀ n ≠ 2, chips.requested n = s.chips.requested n)
    (withdrew : ¬ ∀ n, s.ledger.withdrawn n = 0) :
    Balanced
      { flags := flags
        chips := chips
        phase := .serving (vectorOf m) rest
        ledger := { s.ledger with spurious := bump s.ledger.spurious m } } where
  edges := by
    intro n device
    dsimp only
    rw [requested n device]
    exact balanced.edges n device
  calls := by
    intro n device
    have served := calls_serve balanced still (m := m) rest device
    dsimp only
    rw [bump_apply, ← Nat.add_assoc]
    exact served
  called := balanced.called
  spurious := by
    intro n some
    by_cases here : n = m
    · exact here ▸ last
    · dsimp only at some
      rw [bump_apply, if_neg here] at some
      exact balanced.spurious n some
  standing := fun never => absurd never withdrew

theorem Balanced.serveTaken (asked : s.chips.requested m = true)
    (requested : ∀ n ≠ 2, chips.requested n = (s.chips.requested n && !decide (n = m))) :
    Balanced
      { flags := flags
        chips := chips
        phase := .serving (vectorOf m) rest
        ledger := { s.ledger with taken := bump s.ledger.taken m } } where
  edges := fun n device =>
    edges_take (balanced.edges n device) (fun same => same ▸ asked) (requested n device)
  calls := by
    intro n device
    have served := calls_serve balanced still (m := m) rest device
    dsimp only
    rw [bump_apply, Nat.add_right_comm]
    exact served
  called := balanced.called
  spurious := balanced.spurious
  standing := fun never => ⟨trivial, (balanced.standing never).2⟩

end Serve

theorem Balanced.acknowledge {a1 a2 : Byte} {s : Delivery} (balanced : Balanced s)
    (sound : Sound a1 a2 s) {line : Option (Fin 8)} (pulse : s.phase = .chosen line) :
    Balanced
      { flags := interrupted s.flags
        chips := (s.chips.acknowledge line).2
        phase := .serving (s.chips.acknowledge line).1 (chipAccesses (s.chips.acknowledge line).1)
        ledger := s.ledger.acknowledged s.chips line } := by
  have chips := sound.chips
  have stands : (∀ n, s.ledger.withdrawn n = 0) → (Phase.chosen line).Stands s.chips := by
    intro never
    rw [← pulse]
    exact (balanced.standing never).1
  cases line with
  | none =>
      have still : ∀ n, s.phase.inFlight n = 0 := by
        rw [pulse]
        exact fun _ => rfl
      have vector : (s.chips.acknowledge none).1 = vectorOf (masterLine Pic.lastLine) :=
        master_vector chips.master _
      rw [vector]
      exact balanced.serveSpurious still _ _ (.inl rfl) (fun _ _ => rfl) stands
  | some k =>
      by_cases device : k = Pics.slaveLine
      · subst device
        have still : ∀ n, s.phase.inFlight n = 0 := by
          intro n
          rw [pulse]
          simp only [Phase.inFlight, ne_eq, not_true, false_and, if_false]
        rw [acknowledge_slave chips]
        cases chosen : s.chips.slave.request with
        | none =>
            have answered : Pics.answer s.chips.slave =
                (s.chips.slave.vector Pic.lastLine, s.chips.slave) := by
              simp only [Pics.answer, chosen]
            have ledger : s.ledger.acknowledged s.chips (some Pics.slaveLine) =
                { s.ledger with spurious := bump s.ledger.spurious (slaveLine Pic.lastLine) } := by
              simp only [Ledger.acknowledged, if_true, chosen]
            have withdrew : ¬ ∀ n, s.ledger.withdrawn n = 0 := by
              intro never
              have int := stands never rfl
              rw [Pic.int, chosen] at int
              exact Bool.false_ne_true int
            rw [answered, slave_vector chips.slave, ledger]
            exact balanced.serveSpurious still _ _ (.inr rfl)
              (fun n other => Pics.wire_requested other chips.linked.master.edge) withdrew
        | some j =>
            have answered : Pics.answer s.chips.slave =
                (s.chips.slave.vector j, s.chips.slave.serve j) := by
              simp only [Pics.answer, chosen]
            have ledger : s.ledger.acknowledged s.chips (some Pics.slaveLine) =
                { s.ledger with taken := bump s.ledger.taken (slaveLine j) } := by
              simp only [Ledger.acknowledged, if_true, chosen]
            have asked : s.chips.requested (slaveLine j) = true :=
              (requested_slave s.chips j).trans (Pic.request_requested chosen).1
            rw [answered, slave_vector chips.slave, ledger]
            exact balanced.serveTaken still _ _ asked fun n other =>
              requested_serveSlave chips j other
      · have ledger : s.ledger.acknowledged s.chips (some k) = s.ledger := by
          simp only [Ledger.acknowledged, if_neg device]
        rw [acknowledge_master chips device, ledger]
        refine balanced.phase (fun n => ?_) trivial
        rw [pulse]
        refine if_congr ?_ rfl rfl
        rw [vectorOf_inj, and_iff_right device]
        exact eq_comm

/-! ### The accesses -/

theorem endOfInterrupt_irr (p : Machine.Pic) : p.endOfInterrupt.irr = p.irr := by
  unfold Pic.endOfInterrupt
  cases Pic.highest p.isr <;> rfl

theorem access_requested {c : Pics} {v : Byte} {o : Op} {next : o.Res → Code Unit}
    (serves : InService c v (.step o next)) (edge : c.master.levelTriggered = false) {n : Fin 16}
    (device : n ≠ 2) : (access o c).2.requested n = c.requested n := by
  have endsMaster : (c.outb pic1Command picEoi).requested n = c.requested n := by
    have edge' : c.master.endOfInterrupt.levelTriggered = false := by
      unfold Pic.endOfInterrupt
      cases Pic.highest c.master.isr <;> exact edge
    have wired := Pics.wire_requested (c := ⟨c.master.endOfInterrupt, c.slave⟩) device edge'
    refine wired.trans ?_
    unfold Pics.requested
    rw [endOfInterrupt_irr]
  have endsSlave : (c.outb pic2Command picEoi).requested n = c.requested n := by
    have wired := Pics.wire_requested (c := ⟨c.master, c.slave.endOfInterrupt⟩) device edge
    refine wired.trans ?_
    unfold Pics.requested
    rw [endOfInterrupt_irr]
  cases serves with
  | master => exact endsMaster
  | slave => exact endsSlave
  | slaveEnded => exact endsMaster

theorem Balanced.access {a1 a2 : Byte} {s : Delivery} (balanced : Balanced s)
    (sound : Sound a1 a2 s) {v : Byte} {o : Op} {next : o.Res → Code Unit}
    (serving : s.phase = .serving v (.step o next)) :
    Balanced { s with
      chips := (access o s.chips).2, phase := .serving v (next (access o s.chips).1) } := by
  have serves := sound.serves
  rw [serving] at serves
  refine ⟨?_, ?_, balanced.called, balanced.spurious, ?_⟩
  · intro n device
    dsimp only
    rw [access_requested serves sound.chips.linked.master.edge device]
    exact balanced.edges n device
  · intro n device
    have before := balanced.calls n device
    rw [serving] at before
    exact before
  · exact fun never => ⟨trivial, (balanced.standing never).2⟩

theorem Balanced.call {a1 a2 : Byte} {s : Delivery} (balanced : Balanced s)
    (sound : Sound a1 a2 s) {v : Byte} (serving : s.phase = .serving v (.done ())) :
    Balanced { s with
      phase := .running, ledger := { s.ledger with calls := bump s.ledger.calls v } } := by
  have serves := sound.serves
  rw [serving] at serves
  refine ⟨balanced.edges, ?_, ?_, balanced.spurious, ?_⟩
  · intro n device
    have before := balanced.calls n device
    rw [serving] at before
    have flight : (Phase.serving v (.done ())).inFlight n = if vectorOf n = v then 1 else 0 :=
      if_congr eq_comm rfl rfl
    dsimp only
    rw [bump_apply, before, flight]
    rfl
  · intro w some
    by_cases here : w = v
    · cases serves with
      | ended n device idle => exact ⟨n, device, here⟩
    · dsimp only at some
      rw [bump_apply, if_neg here] at some
      exact balanced.called w some
  · exact fun never => ⟨trivial, (balanced.standing never).2⟩

theorem Balanced.step {a1 a2 : Byte} {s s' : Delivery} (balanced : Balanced s)
    (sound : Sound a1 a2 s) (taken : DeliveryStep s s') : Balanced s' := by
  cases taken with
  | code running _ =>
      refine balanced.phase (fun _ => rfl) ?_
      rw [running]
      trivial
  | line n up => exact balanced.line sound n up
  | service taken =>
      cases taken with
      | sample running _ asks =>
          refine balanced.phase (f := s.flags) (fun n => ?_) asks
          rw [running]
          rfl
      | select sampled => exact balanced.select sound sampled
      | acknowledge line pulse => exact balanced.acknowledge sound pulse
      | access serving => exact balanced.access sound serving
      | call serving => exact balanced.call sound serving

/-- What holds in every run. -/
structure Accounted (s : Delivery) : Prop where
  sound : SoundForMasks s
  balanced : Balanced s

theorem Accounted.run {s : Delivery} (reached : Reach DeliveryStart DeliveryStep s) :
    Accounted s := by
  induction reached with
  | start starts => exact ⟨Sound.start starts, Balanced.start starts⟩
  | step _ taken ih =>
      obtain ⟨⟨a1, a2, sound⟩, balanced⟩ := ih
      exact ⟨⟨a1, a2, sound.step taken⟩, balanced.step sound taken⟩

/-- Each edge of a line is withdrawn, stands, or has been answered by one call of
the vector of the line.  The lines 7 and 15 are also called for requests that are
gone, which takes a device that withdrew one.  No other vector is ever called. -/
theorem edges_answered_once {s : Delivery} (reached : Reach DeliveryStart DeliveryStep s)
    (running : s.phase = .running) :
    (∀ n ≠ 2, s.ledger.edges n + s.ledger.spurious n =
      s.ledger.withdrawn n + s.ledger.calls (vectorOf n) + (s.chips.requested n).toNat) ∧
      (∀ n, s.ledger.spurious n ≠ 0 → n = masterLine Pic.lastLine ∨ n = slaveLine Pic.lastLine) ∧
      ((∀ n, s.ledger.withdrawn n = 0) → ∀ n, s.ledger.spurious n = 0) ∧
      ∀ v, s.ledger.calls v ≠ 0 → ∃ n ≠ 2, v = vectorOf n := by
  have balanced := (Accounted.run reached).balanced
  refine ⟨fun n device => ?_, balanced.spurious, fun never => (balanced.standing never).2,
    balanced.called⟩
  have edges := balanced.edges n device
  have calls := balanced.calls n device
  rw [running] at calls
  have still : Phase.running.inFlight n = 0 := rfl
  omega

theorem edges_answered_once_keyPressed :
    (lineRaised 1).ledger.edges 1 + (lineRaised 1).ledger.spurious 1 =
      (lineRaised 1).ledger.withdrawn 1 + (lineRaised 1).ledger.calls 0x21 + 1 :=
  (edges_answered_once (lineRaised_reached 1) rfl).1 1 (by decide)

end OrbitOs.Kernel
