import OrbitOs.Kernel.DeliveryLedger

/-!
# Every request is delivered in its turn

With interrupts enabled, the waiting line of the highest priority gets its call
without any further help of a device.  The lines of the slave stand between
lines 1 and 3 of the master.
-/

set_option autoImplicit false

namespace OrbitOs.Kernel

open OrbitOs.Machine OrbitOs.Base OrbitOs.Drivers.Pic OrbitOs.Process

/-- The place of a line in the order of priority. -/
def rank (n : Fin 16) : ℕ := if n.val < 2 then n.val else if 8 ≤ n.val then n.val - 6 else n.val + 8

/-- A line of the slave waits in vain when the line of the slave is masked. -/
structure Deliverable (c : Pics) (n : Fin 16) : Prop where
  device : n ≠ 2
  waits : Waits c n
  cascade : 8 ≤ n → c.masked 2 = false

theorem rank_master {j k : Fin 8} (order : k ≤ j) (first : k ≠ Pics.slaveLine)
    (second : j ≠ Pics.slaveLine) : rank (masterLine k) ≤ rank (masterLine j) := by
  revert j k
  decide

theorem rank_slave {j k : Fin 8} (order : k ≤ j) : rank (slaveLine k) ≤ rank (slaveLine j) := by
  revert j k
  decide

theorem rank_before {k : Fin 8} (order : k < Pics.slaveLine) (j : Fin 8) :
    rank (masterLine k) ≤ rank (slaveLine j) := by
  revert j k
  decide

theorem rank_after {k : Fin 8} (order : Pics.slaveLine < k) (j : Fin 8) :
    rank (slaveLine j) ≤ rank (masterLine k) := by
  revert j k
  decide

theorem slaveLine_high (k : Fin 8) : 8 ≤ slaveLine k := by
  revert k
  decide

theorem masterLine_low (k : Fin 8) : ¬ 8 ≤ masterLine k := by
  revert k
  decide

/-- What the master chooses has the highest priority among its own lines and the
line of the slave. -/
theorem master_chooses {c : Pics} (idle : c.master.isr = 0) {k : Fin 8}
    (chosen : c.master.request = some k) :
    Waits c (masterLine k) ∧ ∀ j, Waits c (masterLine j) → k ≤ j := by
  have requested := Pic.request_requested chosen
  rw [Pic.request_idle idle, Pic.highest_eq_some] at chosen
  refine ⟨⟨(requested_master c k).trans requested.1, (masked_master c k).trans requested.2⟩, ?_⟩
  intro j waits
  by_contra before
  have none := chosen.2 j (not_le.mp before)
  rw [Pic.getLsbD_pending, ← requested_master, ← masked_master, waits.1, waits.2] at none
  exact absurd none (by decide)

theorem slave_chooses {c : Pics} (idle : c.slave.isr = 0) {k : Fin 8}
    (chosen : c.slave.request = some k) :
    Waits c (slaveLine k) ∧ ∀ j, Waits c (slaveLine j) → k ≤ j := by
  have requested := Pic.request_requested chosen
  rw [Pic.request_idle idle, Pic.highest_eq_some] at chosen
  refine ⟨⟨(requested_slave c k).trans requested.1, (masked_slave c k).trans requested.2⟩, ?_⟩
  intro j waits
  by_contra before
  have none := chosen.2 j (not_le.mp before)
  rw [Pic.getLsbD_pending, ← requested_slave, ← masked_slave, waits.1, waits.2] at none
  exact absurd none (by decide)

theorem slaveLine_waits {c : Pics} (linked : c.Linked) (idle : Idle c) :
    Waits c (masterLine Pics.slaveLine) ↔ (∃ k, Waits c (slaveLine k)) ∧ c.masked 2 = false := by
  rw [← slave_int idle.slave, ← linked.wired]
  unfold Waits
  rw [requested_master]
  exact and_congr_left' ⟨linked.master.high _, idle.latched⟩

/-! ## One delivery -/

/-- `s'` is `s` after the one call for line `m`; no device has moved a line on the
way and no code has run but `irq_handler`. -/
structure Delivered (s : Delivery) (m : Fin 16) (s' : Delivery) : Prop where
  steps : Relation.ReflTransGen ServiceStep s s'
  phase : s'.phase = .running
  calls : s'.ledger.calls = bump s.ledger.calls (vectorOf m)
  requested : ∀ n ≠ 2, s'.chips.requested n = (s.chips.requested n && !decide (n = m))

/-- `irq_handler` ends the interrupt and calls the handler. -/
theorem finish {a1 a2 : Byte} {v : Byte} {rest : Code Unit} {s : Delivery}
    (chips : Chips a1 a2 s.chips) (serves : InService s.chips v rest)
    (serving : s.phase = .serving v rest) :
    ∃ s', Relation.ReflTransGen ServiceStep s s' ∧ s'.phase = .running ∧
      s'.ledger = { s.ledger with calls := bump s.ledger.calls v } ∧
      ∀ n ≠ 2, s'.chips.requested n = s.chips.requested n := by
  induction rest generalizing s with
  | done a => exact ⟨_, .single (.call serving), rfl, rfl, fun _ _ => rfl⟩
  | step o next ih =>
      obtain ⟨chips', serves'⟩ := access_serves chips serves
      obtain ⟨s', steps, running, ledger, requested⟩ :=
        ih _ (s := { s with
          chips := (access o s.chips).2, phase := .serving v (next (access o s.chips).1) })
          chips' serves' rfl
      refine ⟨s', .head (.access serving) steps, running, ledger, fun n device => ?_⟩
      exact (requested n device).trans (access_requested serves chips.linked.master.edge device)

theorem select_some {c : Pics} {k : Fin 8} (chosen : c.master.request = some k) :
    c.select = (some k, { c with master := c.master.serve k }) := by
  simp only [Pics.select, chosen]

/-- From the request to the entry of `irq_handler`. -/
theorem enter {s : Delivery} {k : Fin 8} (running : s.phase = .running)
    (enabled : s.flags.enabled = true) (chosen : s.chips.master.request = some k) :
    ∃ s', Relation.ReflTransGen ServiceStep s s' ∧
      s'.chips = (Pics.acknowledge ⟨s.chips.master.serve k, s.chips.slave⟩ (some k)).2 ∧
      s'.phase =
        .serving (Pics.acknowledge ⟨s.chips.master.serve k, s.chips.slave⟩ (some k)).1
          (chipAccesses (Pics.acknowledge ⟨s.chips.master.serve k, s.chips.slave⟩ (some k)).1) ∧
      s'.ledger.calls = s.ledger.calls := by
  have asks : s.chips.master.int = true := by
    rw [Pic.int, chosen]
    rfl
  have sampled : ServiceStep s { s with phase := .sampled } := .sample running enabled asks
  have pulse := ServiceStep.select (s := { s with phase := .sampled }) rfl
  dsimp only at pulse
  rw [select_some chosen] at pulse
  have steps := (Relation.ReflTransGen.single sampled).tail pulse
  refine ⟨_, steps.tail (.acknowledge (some k) rfl), rfl, rfl, ?_⟩
  dsimp only [Ledger.acknowledged, Ledger.selected]
  by_cases cascade : k = Pics.slaveLine
  · rw [if_pos cascade, if_pos cascade]
    cases s.chips.slave.request <;> rfl
  · rw [if_neg cascade, if_neg cascade]

/-- A call that the CPU has entered is carried to its end. -/
theorem delivered_of_entered {a1 a2 : Byte} {s s₁ : Delivery} {m : Fin 16} {rest : Code Unit}
    (steps : Relation.ReflTransGen ServiceStep s s₁) (chips : Chips a1 a2 s₁.chips)
    (serves : InService s₁.chips (vectorOf m) rest) (phase : s₁.phase = .serving (vectorOf m) rest)
    (calls : s₁.ledger.calls = s.ledger.calls)
    (requested : ∀ n ≠ 2, s₁.chips.requested n = (s.chips.requested n && !decide (n = m))) :
    ∃ s', Delivered s m s' := by
  obtain ⟨s', more, running, ledger, rested⟩ := finish chips serves phase
  refine ⟨s', steps.trans more, running, ?_, fun n other => ?_⟩
  · rw [ledger]
    dsimp only
    rw [calls]
  · exact (rested n other).trans (requested n other)

theorem deliver_master {a1 a2 : Byte} {s : Delivery} (sound : Sound a1 a2 s)
    (running : s.phase = .running) (enabled : s.flags.enabled = true) {k : Fin 8}
    (device : k ≠ Pics.slaveLine) (chosen : s.chips.master.request = some k) :
    ∃ s', Delivered s (masterLine k) s' := by
  have idle := sound.serves
  rw [running] at idle
  obtain ⟨chips, serves⟩ := select_serves sound.chips idle
  rw [select_some chosen] at chips serves
  obtain ⟨s₁, steps₁, chips₁, phase₁, calls₁⟩ := enter running enabled chosen
  obtain ⟨chips', serves'⟩ := acknowledge_serves chips serves
  rw [acknowledge_master chips device] at chips₁ phase₁ chips' serves'
  rw [← chips₁] at chips' serves'
  refine delivered_of_entered steps₁ chips' serves' phase₁ calls₁ fun n _ => ?_
  rw [chips₁]
  exact requested_serveMaster sound.chips k n

theorem deliver_slave {a1 a2 : Byte} {s : Delivery} (sound : Sound a1 a2 s)
    (running : s.phase = .running) (enabled : s.flags.enabled = true)
    (cascade : s.chips.master.request = some Pics.slaveLine) {k : Fin 8}
    (chosen : s.chips.slave.request = some k) : ∃ s', Delivered s (slaveLine k) s' := by
  have idle := sound.serves
  rw [running] at idle
  obtain ⟨chips, serves⟩ := select_serves sound.chips idle
  rw [select_some cascade] at chips serves
  obtain ⟨s₁, steps₁, chips₁, phase₁, calls₁⟩ := enter running enabled cascade
  obtain ⟨chips', serves'⟩ := acknowledge_serves chips serves
  have answered : Pics.answer s.chips.slave =
      (s.chips.slave.vector k, s.chips.slave.serve k) := by
    simp only [Pics.answer, chosen]
  rw [acknowledge_slave chips, answered, slave_vector chips.slave] at chips₁ phase₁ chips' serves'
  rw [← chips₁] at chips' serves'
  refine delivered_of_entered steps₁ chips' serves' phase₁ calls₁ fun n other => ?_
  rw [chips₁]
  refine (requested_serveSlave chips k other).trans ?_
  have master : n ≠ masterLine Pics.slaveLine := other
  rw [requested_serveMaster sound.chips, decide_eq_false master, Bool.not_false, Bool.and_true]

/-! ## The order of priority -/

theorem exists_delivered {a1 a2 : Byte} {s : Delivery} (sound : Sound a1 a2 s)
    (running : s.phase = .running) (enabled : s.flags.enabled = true) {n : Fin 16}
    (waiting : Deliverable s.chips n) :
    ∃ m s', Deliverable s.chips m ∧ (∀ j, Deliverable s.chips j → rank m ≤ rank j) ∧
      Delivered s m s' := by
  have linked := sound.chips.linked
  have idle := sound.serves
  rw [running] at idle
  have asks : s.chips.master.int = true := by
    refine (master_int linked idle).mpr ?_
    rcases line_cases n with ⟨j, rfl⟩ | ⟨j, rfl⟩
    · exact .inl ⟨j, mt masterLine_eq.mpr waiting.device, waiting.waits⟩
    · exact .inr ⟨⟨j, waiting.waits⟩, waiting.cascade (slaveLine_high j)⟩
  obtain ⟨k, chosen⟩ := Option.isSome_iff_exists.mp asks
  obtain ⟨waits, first⟩ := master_chooses idle.master chosen
  by_cases cascade : k = Pics.slaveLine
  · subst cascade
    obtain ⟨some, unmasked⟩ := (slaveLine_waits linked idle).mp waits
    have int := (slave_int idle.slave).mpr some
    obtain ⟨j, answer⟩ := Option.isSome_iff_exists.mp int
    obtain ⟨waits', first'⟩ := slave_chooses idle.slave answer
    obtain ⟨s', delivered⟩ := deliver_slave sound running enabled chosen answer
    refine ⟨slaveLine j, s', ⟨slaveLine_ne j, waits', fun _ => unmasked⟩, ?_, delivered⟩
    intro i other
    rcases line_cases i with ⟨i, rfl⟩ | ⟨i, rfl⟩
    · have apart : i ≠ Pics.slaveLine := mt masterLine_eq.mpr other.device
      exact rank_after (lt_of_le_of_ne (first i other.waits) apart.symm) j
    · exact rank_slave (first' i other.waits)
  · obtain ⟨s', delivered⟩ := deliver_master sound running enabled cascade chosen
    have own : Deliverable s.chips (masterLine k) :=
      ⟨mt masterLine_eq.mp cascade, waits, fun high => absurd high (masterLine_low k)⟩
    refine ⟨masterLine k, s', own, ?_, delivered⟩
    intro i other
    rcases line_cases i with ⟨i, rfl⟩ | ⟨i, rfl⟩
    · exact rank_master (first i other.waits) cascade (mt masterLine_eq.mpr other.device)
    · have slaveWaits := (slaveLine_waits linked idle).mpr
        ⟨⟨i, other.waits⟩, other.cascade (slaveLine_high i)⟩
      exact rank_before (lt_of_le_of_ne (first _ slaveWaits) cascade) i

/-- With interrupts enabled and a line waiting, the chips and the kernel bring the
waiting line of the highest priority to its handler by themselves, and answer no
other line on the way. -/
theorem highest_priority_delivered {s : Delivery} (reached : Reach DeliveryStart DeliveryStep s)
    (running : s.phase = .running) (enabled : s.flags.enabled = true)
    (waiting : ∃ n, Deliverable s.chips n) :
    ∃ m s', Deliverable s.chips m ∧ (∀ n, Deliverable s.chips n → rank m ≤ rank n) ∧
      Delivered s m s' := by
  obtain ⟨a1, a2, sound⟩ := Sound.run reached
  obtain ⟨n, waits⟩ := waiting
  exact exists_delivered sound running enabled waits

theorem highest_priority_delivered_keyPressed : ∃ m s',
    Deliverable (lineRaised 1).chips m ∧
      (∀ n, Deliverable (lineRaised 1).chips n → rank m ≤ rank n) ∧
        Delivered (lineRaised 1) m s' :=
  highest_priority_delivered (lineRaised_reached 1) rfl rfl
    ⟨1, by decide, ⟨rfl, rfl⟩, fun high => absurd high (by decide)⟩

end OrbitOs.Kernel
