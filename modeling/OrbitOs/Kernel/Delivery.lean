import OrbitOs.Drivers.Pic
import OrbitOs.Kernel.Transparency
import OrbitOs.Process.InterruptFlag

/-!
# The delivery of device interrupts

Devices raise and lower their lines at any time.  The CPU looks for a request
between two instructions while interrupts are enabled, acknowledges it with two
pulses and enters the stub of the vector it is given; `irq_handler` ends the
interrupt at the controllers before it calls the handler of the device.
-/

set_option autoImplicit false

namespace OrbitOs.Kernel

open OrbitOs.Machine OrbitOs.Base OrbitOs.Drivers.Pic OrbitOs.Process

/-! ## The source -/

/-- `pic_send_eoi(regs->int_no - 32)`, which `irq_handler` begins with. -/
def irqHandlerHead (intNo : Word) : Code Unit := picSendEoi ((intNo - 32).setWidth 8)

/-- What the C function that the stub of a vector calls does to the controllers
before it calls a handler; `isr_handler` does nothing. -/
def chipAccesses (vector : Byte) : Code Unit :=
  match Stub.ofVector vector.toNat with
  | some (.irq num) => irqHandlerHead num
  | _ => pure ()

/-! ## The system -/

inductive Phase
  /-- The CPU runs code of a thread or of a handler. -/
  | running
  /-- The CPU has seen the request. -/
  | sampled
  /-- The master has seen the first acknowledge pulse. -/
  | chosen (line : Option (Fin 8))
  /-- `irq_handler` has been entered and has these accesses to go. -/
  | serving (vector : Byte) (rest : Code Unit)

/-- What happened so far. -/
structure Ledger where
  /-- How often a line went from low to high. -/
  edges : Fin 16 → ℕ
  /-- How often a line went low with its request unanswered. -/
  withdrawn : Fin 16 → ℕ
  /-- How often the request of a line was taken into service. -/
  taken : Fin 16 → ℕ
  /-- How often a line was answered for that had no request. -/
  spurious : Fin 16 → ℕ
  /-- How often `irq_handler` called the handler of a vector. -/
  calls : Byte → ℕ

def bump {α : Type} [DecidableEq α] (f : α → ℕ) (a : α) : α → ℕ := Function.update f a (f a + 1)

/-- The lines of the slave are 8 to 15. -/
def masterLine (k : Fin 8) : Fin 16 := ⟨k, by omega⟩
def slaveLine (k : Fin 8) : Fin 16 := ⟨8 + k, by omega⟩

namespace Ledger

variable (l : Ledger)

def lineMoved (c : Pics) (n : Fin 16) (up : Bool) : Ledger :=
  if Pics.Cascade n then l
  else { l with
    edges := if up && !c.high n then bump l.edges n else l.edges
    withdrawn := if !up && c.requested n then bump l.withdrawn n else l.withdrawn }

/-- A line of the master is taken with the first pulse. -/
def selected : Option (Fin 8) → Ledger
  | none => l
  | some k => if k = Pics.slaveLine then l else { l with taken := bump l.taken (masterLine k) }

/-- A line of the slave is taken with the second pulse. -/
def acknowledged (c : Pics) : Option (Fin 8) → Ledger
  | none => { l with spurious := bump l.spurious (masterLine Pic.lastLine) }
  | some k =>
    if k = Pics.slaveLine then
      match c.slave.request with
      | none => { l with spurious := bump l.spurious (slaveLine Pic.lastLine) }
      | some j => { l with taken := bump l.taken (slaveLine j) }
    else l

end Ledger

structure Delivery where
  flags : FlagState
  chips : Pics
  phase : Phase
  ledger : Ledger

/-- The gate clears the flag. -/
def interrupted (f : FlagState) : FlagState :=
  { f with
    enabled := false
    frames := Function.update f.frames f.running (f.enabled :: f.frames f.running) }

/-- The requests that stand count as edges. -/
def Ledger.begin (c : Pics) : Ledger :=
  ⟨fun n => (c.requested n).toNat, fun _ => 0, fun _ => 0, fun _ => 0, fun _ => 0⟩

/-- After `pic_remap(0x20, 0x28)`, before interrupts are enabled. -/
inductive DeliveryStart : Delivery → Prop
  | remapped {prior c : Pics} {f : FlagState} :
      Resumption.Interleaved access devices (picRemap 0x20 0x28) prior () c → FlagStart f →
      DeliveryStart ⟨f, c, .running, .begin c⟩

/-- The controllers and the kernel on the way from a request to the handler. -/
inductive ServiceStep : Delivery → Delivery → Prop
  | sample {s : Delivery} : s.phase = .running → s.flags.enabled = true →
      s.chips.master.int = true → ServiceStep s { s with phase := .sampled }
  | select {s : Delivery} : s.phase = .sampled →
      ServiceStep s
        { s with
          chips := s.chips.select.2
          phase := .chosen s.chips.select.1
          ledger := s.ledger.selected s.chips.select.1 }
  | acknowledge {s : Delivery} (line : Option (Fin 8)) : s.phase = .chosen line →
      ServiceStep s
        { flags := interrupted s.flags
          chips := (s.chips.acknowledge line).2
          phase := .serving (s.chips.acknowledge line).1
            (chipAccesses (s.chips.acknowledge line).1)
          ledger := s.ledger.acknowledged s.chips line }
  | access {s : Delivery} {v : Byte} {o : Op} {next : o.Res → Code Unit} :
      s.phase = .serving v (.step o next) →
      ServiceStep s
        { s with
          chips := (access o s.chips).2
          phase := .serving v (next (access o s.chips).1) }
  /-- The handler is called, if there is one. -/
  | call {s : Delivery} {v : Byte} : s.phase = .serving v (.done ()) →
      ServiceStep s
        { s with
          phase := .running
          ledger := { s.ledger with calls := bump s.ledger.calls v } }

inductive DeliveryStep : Delivery → Delivery → Prop
  | code {s : Delivery} {f : FlagState} : s.phase = .running → FlagStep s.flags f →
      DeliveryStep s { s with flags := f }
  | line {s : Delivery} (n : Fin 16) (up : Bool) :
      DeliveryStep s
        { s with chips := s.chips.drive n up, ledger := s.ledger.lineMoved s.chips n up }
  | service {s s' : Delivery} : ServiceStep s s' → DeliveryStep s s'

/-! ## The chips in any phase -/

structure Chips (a1 a2 : Byte) (c : Pics) : Prop where
  master : Programmed 0x20 4 a1 c.master
  slave : Programmed 0x28 2 a2 c.slave
  linked : c.Linked

namespace Chips

variable {a1 a2 : Byte} {c : Pics} (chips : Chips a1 a2 c)

include chips

theorem masterUsual : c.master.EdgeTriggered := chips.master.edgeTriggered chips.linked.master

theorem slaveUsual : c.slave.EdgeTriggered := chips.slave.edgeTriggered chips.linked.slave

theorem drive (n : Fin 16) (up : Bool) : Chips a1 a2 (c.drive n up) := by
  have linked := chips.linked.drive n up
  by_cases device : n = 2
  · rw [device, Pics.drive_slaveLine]
    exact chips
  · by_cases small : n < 8
    · rw [Pics.drive_master device small] at linked ⊢
      exact ⟨chips.master.drive _ _, chips.slave, linked⟩
    · rw [Pics.drive_slave small] at linked ⊢
      exact ⟨chips.master.drive _ _, chips.slave.drive _ _, linked⟩

/-- The first pulse takes a line of the master. -/
theorem serveMaster (k : Fin 8) : Chips a1 a2 { c with master := c.master.serve k } :=
  ⟨chips.master.serve k, chips.slave, chips.linked.master.serve k, chips.linked.slave,
    chips.linked.wired⟩

theorem wireMaster {p : Machine.Pic} (programmed : Programmed 0x20 4 a1 p) (sensed : p.EdgeSensed) :
    Chips a1 a2 (Pics.wire { c with master := p }) :=
  ⟨programmed.drive _ _, chips.slave, Pics.linked_wire sensed chips.linked.slave⟩

theorem wireSlave {p : Machine.Pic} (programmed : Programmed 0x28 2 a2 p) (sensed : p.EdgeSensed) :
    Chips a1 a2 (Pics.wire { c with slave := p }) :=
  ⟨chips.master.drive _ _, programmed, Pics.linked_wire chips.linked.master sensed⟩

end Chips

theorem drive_isr (c : Pics) (n : Fin 16) (up : Bool) :
    (c.drive n up).master.isr = c.master.isr ∧ (c.drive n up).slave.isr = c.slave.isr := by
  obtain ⟨master, slave⟩ := c.drive_settings n up
  have inService : ∀ {p q : Machine.Pic}, p.settings = q.settings → p.isr = q.isr := by
    intro p q same
    have isr := congrArg Pic.isr same
    exact isr
  exact ⟨inService master, inService slave⟩

/-! ## The accesses of `irq_handler` -/

/-- The number a line has as a vector of the kernel. -/
def vectorOf (n : Fin 16) : Byte := BitVec.ofNat 8 (32 + n)

theorem master_vector {base masks : Byte} {p : Machine.Pic}
    (programmed : Programmed 0x20 base masks p) (k : Fin 8) :
    p.vector k = vectorOf (masterLine k) := by
  have all : ∀ k : Fin 8, (0x20 : Byte) ||| BitVec.ofNat 8 k = vectorOf (masterLine k) := by decide
  rw [Pic.vector, programmed.base]
  exact all k

theorem slave_vector {base masks : Byte} {p : Machine.Pic}
    (programmed : Programmed 0x28 base masks p) (k : Fin 8) :
    p.vector k = vectorOf (slaveLine k) := by
  have all : ∀ k : Fin 8, (0x28 : Byte) ||| BitVec.ofNat 8 k = vectorOf (slaveLine k) := by decide
  rw [Pic.vector, programmed.base]
  exact all k

theorem vectorOf_inj {m n : Fin 16} : vectorOf m = vectorOf n ↔ m = n := by
  revert m n
  decide

abbrev endMaster : Code Unit := .step (.outb pic1Command picEoi) .done

/-- One end of interrupt for a line of the master. -/
theorem chipAccesses_master (k : Fin 8) :
    chipAccesses (vectorOf (masterLine k)) = endMaster := by
  fin_cases k <;> rfl

/-- One for the slave and one for the master. -/
theorem chipAccesses_slave (k : Fin 8) :
    chipAccesses (vectorOf (slaveLine k)) =
      .step (.outb pic2Command picEoi) fun _ => endMaster := by
  fin_cases k <;> rfl

/-! ## What is in service -/

/-- Nothing is. -/
structure Idle (c : Pics) : Prop where
  master : c.master.isr = 0
  slave : c.slave.isr = 0
  latched : c.Latched

/-- What is while `irq_handler` has accesses to go. -/
inductive InService (c : Pics) : Byte → Code Unit → Prop
  | master (k : Fin 8) : k ≠ Pics.slaveLine →
      c.master.isr = lineBit k ∨ (k = Pic.lastLine ∧ c.master.isr = 0) → c.slave.isr = 0 →
      c.Latched → InService c (vectorOf (masterLine k)) endMaster
  | slave (k : Fin 8) : c.master.isr = lineBit Pics.slaveLine →
      c.slave.isr = lineBit k ∨ (k = Pic.lastLine ∧ c.slave.isr = 0) → c.Latched →
      InService c (vectorOf (slaveLine k))
        (.step (.outb pic2Command picEoi) fun _ => endMaster)
  | slaveEnded (k : Fin 8) : c.master.isr = lineBit Pics.slaveLine → c.slave.isr = 0 →
      c.Latched → InService c (vectorOf (slaveLine k)) endMaster
  | ended (n : Fin 16) : n ≠ 2 → Idle c → InService c (vectorOf n) (.done ())

/-- What is in service in each phase. -/
def Phase.Serves (c : Pics) : Phase → Prop
  | .running | .sampled | .chosen none => Idle c
  | .chosen (some k) =>
    c.master.isr = lineBit k ∧ c.slave.isr = 0 ∧ (k ≠ Pics.slaveLine → c.Latched)
  | .serving v rest => InService c v rest

theorem Idle.drive {c : Pics} (idle : Idle c) (linked : c.Linked) (n : Fin 16) (up : Bool) :
    Idle (c.drive n up) := by
  obtain ⟨master, slave⟩ := drive_isr c n up
  exact ⟨master.trans idle.master, slave.trans idle.slave, linked.latched_drive idle.latched n up⟩

theorem InService.drive {c : Pics} {v : Byte} {rest : Code Unit} (serves : InService c v rest)
    (linked : c.Linked) (n : Fin 16) (up : Bool) : InService (c.drive n up) v rest := by
  obtain ⟨master, slave⟩ := drive_isr c n up
  cases serves with
  | master k device inMaster inSlave latched =>
      rw [← master] at inMaster
      exact .master k device inMaster (slave.trans inSlave) (linked.latched_drive latched n up)
  | slave k inMaster inSlave latched =>
      rw [← slave] at inSlave
      exact .slave k (master.trans inMaster) inSlave (linked.latched_drive latched n up)
  | slaveEnded k inMaster inSlave latched =>
      exact .slaveEnded k (master.trans inMaster) (slave.trans inSlave)
        (linked.latched_drive latched n up)
  | ended m device idle => exact .ended m device (idle.drive linked n up)

theorem Phase.Serves.drive {c : Pics} {phase : Phase} (serves : phase.Serves c) (linked : c.Linked)
    (n : Fin 16) (up : Bool) : phase.Serves (c.drive n up) := by
  cases phase with
  | running => exact Idle.drive serves linked n up
  | sampled => exact Idle.drive serves linked n up
  | serving v rest => exact InService.drive serves linked n up
  | chosen line =>
      cases line with
      | none => exact Idle.drive serves linked n up
      | some k =>
          obtain ⟨inMaster, inSlave, latched⟩ := serves
          obtain ⟨master, slave⟩ := drive_isr c n up
          exact ⟨master.trans inMaster, slave.trans inSlave,
            fun device => linked.latched_drive (latched device) n up⟩

theorem masterLine_eq {k : Fin 8} : masterLine k = 2 ↔ k = Pics.slaveLine := by
  revert k
  decide

theorem slaveLine_ne (k : Fin 8) : slaveLine k ≠ 2 := by
  revert k
  decide

/-! ## One pulse, one access -/

theorem endSlave_isr {c : Pics} {k : Fin 8}
    (inSlave : c.slave.isr = lineBit k ∨ c.slave.isr = 0) :
    (c.outb pic2Command picEoi).slave.isr = 0 := by
  change c.slave.endOfInterrupt.isr = 0
  rcases inSlave with serving | nothing
  · rw [Pic.endOfInterrupt_of_isr serving]
  · rw [Pic.endOfInterrupt_idle nothing]
    exact nothing

section Pulses

variable {a1 a2 : Byte} {c : Pics} (chips : Chips a1 a2 c)

include chips

theorem select_serves (idle : Idle c) :
    Chips a1 a2 c.select.2 ∧ (Phase.chosen c.select.1).Serves c.select.2 := by
  unfold Pics.select
  cases c.master.request with
  | none => exact ⟨chips, idle⟩
  | some k =>
      refine ⟨chips.serveMaster k, Pic.serve_isr chips.masterUsual idle.master k, idle.slave, ?_⟩
      intro device up
      change (c.master.serve k).irr.getLsbD Pics.slaveLine = true
      rw [Pic.serve_irr chips.masterUsual, idle.latched up, decide_eq_false device.symm]
      rfl

theorem acknowledge_master {k : Fin 8} (device : k ≠ Pics.slaveLine) :
    c.acknowledge (some k) = (vectorOf (masterLine k), c) := by
  have plain : ∀ k : Fin 8, k ≠ Pics.slaveLine → (4 : Byte).getLsbD k = false := by decide
  simp only [Pics.acknowledge, chips.master.cascade, plain k device, master_vector chips.master,
    Bool.false_eq_true, if_false]

theorem acknowledge_slave :
    c.acknowledge (some Pics.slaveLine) =
      ((Pics.answer c.slave).1, Pics.wire { c with slave := (Pics.answer c.slave).2 }) := by
  have announced : (4 : Byte).getLsbD Pics.slaveLine = true := by decide
  have number : (2 : Byte) = BitVec.ofNat 8 Pics.slaveLine := by decide
  simp only [Pics.acknowledge, chips.master.cascade, chips.slave.cascade, announced, if_true,
    if_pos number]

theorem acknowledge_serves {line : Option (Fin 8)} (serves : (Phase.chosen line).Serves c) :
    Chips a1 a2 (c.acknowledge line).2 ∧
      InService (c.acknowledge line).2 (c.acknowledge line).1
        (chipAccesses (c.acknowledge line).1) := by
  cases line with
  | none =>
      have vector : (c.acknowledge none).1 = vectorOf (masterLine Pic.lastLine) :=
        master_vector chips.master _
      rw [vector, chipAccesses_master]
      exact ⟨chips, .master Pic.lastLine (by decide) (.inr ⟨rfl, serves.master⟩) serves.slave
        serves.latched⟩
  | some k =>
      obtain ⟨inMaster, inSlave, latched⟩ := serves
      by_cases device : k = Pics.slaveLine
      · subst device
        rw [acknowledge_slave chips]
        have usual := chips.slaveUsual
        cases chosen : c.slave.request with
        | none =>
            have low : c.slave.int = false := by rw [Pic.int, chosen]; rfl
            have answered : Pics.answer c.slave = (c.slave.vector Pic.lastLine, c.slave) := by
              simp only [Pics.answer, chosen]
            rw [answered, slave_vector chips.slave, chipAccesses_slave]
            refine ⟨chips.wireSlave chips.slave chips.linked.slave, ?_⟩
            exact .slave Pic.lastLine (Pics.wire_isr.trans inMaster) (.inr ⟨rfl, inSlave⟩)
              (Pics.latched_wire_of_low low)
        | some j =>
            have low := Pic.serve_int usual inSlave chosen
            have answered : Pics.answer c.slave = (c.slave.vector j, c.slave.serve j) := by
              simp only [Pics.answer, chosen]
            rw [answered, slave_vector chips.slave, chipAccesses_slave]
            refine ⟨chips.wireSlave (chips.slave.serve j) (chips.linked.slave.serve j), ?_⟩
            exact .slave j (Pics.wire_isr.trans inMaster)
              (.inl (Pic.serve_isr usual inSlave j)) (Pics.latched_wire_of_low low)
      · rw [acknowledge_master chips device, chipAccesses_master]
        exact ⟨chips, .master k device (.inl inMaster) inSlave (latched device)⟩

theorem endMaster_chips : Chips a1 a2 (c.outb pic1Command picEoi) :=
  chips.wireMaster chips.master.endOfInterrupt chips.linked.master.endOfInterrupt

theorem endSlave_chips : Chips a1 a2 (c.outb pic2Command picEoi) :=
  chips.wireSlave chips.slave.endOfInterrupt chips.linked.slave.endOfInterrupt

theorem endMaster_idle {k : Fin 8} (inMaster : c.master.isr = lineBit k ∨ c.master.isr = 0)
    (inSlave : c.slave.isr = 0) (latched : c.Latched) : Idle (c.outb pic1Command picEoi) := by
  have writes : c.outb pic1Command picEoi =
      Pics.wire { c with master := c.master.endOfInterrupt } := rfl
  rw [writes]
  rcases inMaster with serving | nothing
  · rw [Pic.endOfInterrupt_of_isr serving]
    exact ⟨Pics.wire_isr, inSlave, Pics.latched_wire chips.linked.master.edge latched⟩
  · rw [Pic.endOfInterrupt_idle nothing]
    exact ⟨Pics.wire_isr.trans nothing, inSlave,
      Pics.latched_wire chips.linked.master.edge latched⟩

theorem access_serves {v : Byte} {o : Op} {next : o.Res → Code Unit}
    (serves : InService c v (.step o next)) :
    Chips a1 a2 (access o c).2 ∧ InService (access o c).2 v (next (access o c).1) := by
  have edge := chips.linked.master.edge
  cases serves with
  | master k device inMaster inSlave latched =>
      have other : masterLine k ≠ 2 := mt masterLine_eq.mp device
      have either : c.master.isr = lineBit k ∨ c.master.isr = 0 := inMaster.imp_right And.right
      exact ⟨endMaster_chips chips, .ended _ other (endMaster_idle chips either inSlave latched)⟩
  | slave k inMaster inSlave latched =>
      have either : c.slave.isr = lineBit k ∨ c.slave.isr = 0 := inSlave.imp_right And.right
      exact ⟨endSlave_chips chips, .slaveEnded k (Pics.wire_isr.trans inMaster)
        (endSlave_isr either) (Pics.latched_wire edge latched)⟩
  | slaveEnded k inMaster inSlave latched =>
      exact ⟨endMaster_chips chips,
        .ended _ (slaveLine_ne k) (endMaster_idle chips (.inl inMaster) inSlave latched)⟩

end Pulses

/-! ## Every run -/

/-- The interrupt flag in each phase. -/
def Phase.Flag (enabled : Bool) : Phase → Prop
  | .running => True
  | .sampled | .chosen _ => enabled = true
  | .serving _ _ => enabled = false

structure Sound (a1 a2 : Byte) (s : Delivery) : Prop where
  chips : Chips a1 a2 s.chips
  serves : s.phase.Serves s.chips
  flag : s.phase.Flag s.flags.enabled

/-- The masks are those that `pic_remap` found. -/
def SoundForMasks (s : Delivery) : Prop := ∃ a1 a2, Sound a1 a2 s

theorem Sound.start {s : Delivery} (starts : DeliveryStart s) : SoundForMasks s := by
  cases starts with
  | @remapped prior c f ends begins =>
      have remapped := ((ready_picRemap 0x20 0x28 prior).interleaved ends).2
      exact ⟨prior.master.imr, prior.slave.imr,
        { chips := ⟨remapped.master, remapped.slave, remapped.linked⟩
          serves := ⟨remapped.masterIdle, remapped.slaveIdle, remapped.latched⟩
          flag := trivial }⟩

theorem Sound.serve {a1 a2 : Byte} {s s' : Delivery} (sound : Sound a1 a2 s)
    (taken : ServiceStep s s') : Sound a1 a2 s' := by
  obtain ⟨chips, serves, flag⟩ := sound
  cases taken with
  | sample phase enabled request =>
      rw [phase] at serves
      exact ⟨chips, serves, enabled⟩
  | select phase =>
      rw [phase] at serves flag
      obtain ⟨chips', serves'⟩ := select_serves chips serves
      exact ⟨chips', serves', flag⟩
  | acknowledge line phase =>
      rw [phase] at serves
      obtain ⟨chips', serves'⟩ := acknowledge_serves chips serves
      exact ⟨chips', serves', rfl⟩
  | access phase =>
      rw [phase] at serves flag
      obtain ⟨chips', serves'⟩ := access_serves chips serves
      exact ⟨chips', serves', flag⟩
  | call phase =>
      rw [phase] at serves
      cases serves with
      | ended n device idle => exact ⟨chips, idle, trivial⟩

theorem Sound.step {a1 a2 : Byte} {s s' : Delivery} (sound : Sound a1 a2 s)
    (taken : DeliveryStep s s') : Sound a1 a2 s' := by
  obtain ⟨chips, serves, flag⟩ := sound
  cases taken with
  | code phase taken =>
      rw [phase] at serves
      exact ⟨chips, phase ▸ serves, phase ▸ trivial⟩
  | line n up => exact ⟨chips.drive n up, serves.drive chips.linked n up, flag⟩
  | service taken => exact Sound.serve ⟨chips, serves, flag⟩ taken

theorem SoundForMasks.step {s s' : Delivery} (sound : SoundForMasks s)
    (taken : DeliveryStep s s') : SoundForMasks s' := by
  obtain ⟨a1, a2, sound⟩ := sound
  exact ⟨a1, a2, sound.step taken⟩

theorem Sound.run {s : Delivery} (reached : Reach DeliveryStart DeliveryStep s) :
    SoundForMasks s := by
  induction reached with
  | start starts => exact Sound.start starts
  | step _ taken ih => exact ih.step taken

/-- What the controllers see of the flag is what the threads and their handlers
make of it. -/
theorem reach_flagState {s : Delivery} (reached : Reach DeliveryStart DeliveryStep s) :
    Reach FlagStart FlagStep s.flags := by
  have starts : ∀ s, DeliveryStart s → SoundForMasks s := fun s begins => Sound.start begins
  have kept : ∀ s s', SoundForMasks s → DeliveryStep s s' → SoundForMasks s' :=
    fun s s' sound taken => sound.step taken
  refine reached.image starts kept ?_ ?_
  · intro s begins
    cases begins with
    | remapped _ begins => exact begins
  · rintro s s' ⟨a1, a2, sound⟩ taken
    cases taken with
    | code _ taken => exact .inr taken
    | line n up => exact .inl rfl
    | service taken =>
        cases taken with
        | acknowledge line phase =>
            have flag := sound.flag
            rw [phase] at flag
            exact .inr (.interrupt true fun _ => flag)
        | _ => exact .inl rfl

/-! ## What is in service when -/

theorem masterLine_index (k : Fin 8) : masterLine k < 8 ∧ Pics.line (masterLine k) = k := by
  revert k
  decide

theorem slaveLine_index (k : Fin 8) : ¬ slaveLine k < 8 ∧ Pics.line (slaveLine k) = k := by
  revert k
  decide

theorem inService_master (c : Pics) (k : Fin 8) :
    c.inService (masterLine k) = c.master.isr.getLsbD k := by
  obtain ⟨small, index⟩ := masterLine_index k
  rw [Pics.inService, if_pos small, index]

theorem inService_slave (c : Pics) (k : Fin 8) :
    c.inService (slaveLine k) = c.slave.isr.getLsbD k := by
  obtain ⟨other, index⟩ := slaveLine_index k
  rw [Pics.inService, if_neg other, index]

/-- A line is one of the master or one of the slave. -/
theorem line_cases (n : Fin 16) : (∃ k, n = masterLine k) ∨ ∃ k, n = slaveLine k := by
  revert n
  decide

theorem getLsbD_of_isr {r : Byte} {j k : Fin 8} (isr : r = lineBit k ∨ r = 0)
    (serves : r.getLsbD j = true) : j = k := by
  rcases isr with rfl | rfl
  · rw [getLsbD_lineBit] at serves
    exact of_decide_eq_true serves
  · change (0#8).getLsbD j = true at serves
    rw [BitVec.getLsbD_zero] at serves
    exact absurd serves Bool.false_ne_true

theorem Idle.inService {c : Pics} (idle : Idle c) (n : Fin 16) : c.inService n = false := by
  unfold Pics.inService
  rw [idle.master, idle.slave]
  split <;> exact BitVec.getLsbD_zero

/-- The line of the vector, and the line of the slave on the master. -/
theorem InService.lines {c : Pics} {v : Byte} {rest : Code Unit} (serves : InService c v rest) :
    ∃ n ≠ 2, v = vectorOf n ∧ ∀ m, c.inService m = true → m = n ∨ (m = 2 ∧ 8 ≤ n) := by
  have high : ∀ k, 8 ≤ slaveLine k := by decide
  cases serves with
  | master k device inMaster inSlave latched =>
      refine ⟨masterLine k, mt masterLine_eq.mp device, rfl, fun m inService => .inl ?_⟩
      rcases line_cases m with ⟨j, rfl⟩ | ⟨j, rfl⟩
      · rw [inService_master] at inService
        rw [getLsbD_of_isr (inMaster.imp_right And.right) inService]
      · rw [inService_slave, inSlave] at inService
        exact absurd (inService.symm.trans BitVec.getLsbD_zero) (by decide)
  | slave k inMaster inSlave latched =>
      refine ⟨slaveLine k, slaveLine_ne k, rfl, fun m inService => ?_⟩
      rcases line_cases m with ⟨j, rfl⟩ | ⟨j, rfl⟩
      · rw [inService_master] at inService
        exact .inr ⟨masterLine_eq.mpr (getLsbD_of_isr (.inl inMaster) inService), high k⟩
      · rw [inService_slave] at inService
        exact .inl (by rw [getLsbD_of_isr (inSlave.imp_right And.right) inService])
  | slaveEnded k inMaster inSlave latched =>
      refine ⟨slaveLine k, slaveLine_ne k, rfl, fun m inService => ?_⟩
      rcases line_cases m with ⟨j, rfl⟩ | ⟨j, rfl⟩
      · rw [inService_master] at inService
        exact .inr ⟨masterLine_eq.mpr (getLsbD_of_isr (.inl inMaster) inService), high k⟩
      · rw [inService_slave, inSlave] at inService
        exact absurd (inService.symm.trans BitVec.getLsbD_zero) (by decide)
  | ended n device idle =>
      refine ⟨n, device, rfl, fun m inService => ?_⟩
      rw [idle.inService m] at inService
      exact absurd inService Bool.false_ne_true

/-- Whenever code of the kernel or of a thread runs, no line is in service: not in
a handler, and not in the threads that it switches to.  While `irq_handler` has
still to end an interrupt, that one alone is, and interrupts are off.  They are
accepted in the own code of threads only. -/
theorem in_service_one_at_a_time {s : Delivery} (reached : Reach DeliveryStart DeliveryStep s) :
    (s.phase = .running → ∀ n, s.chips.inService n = false) ∧
      (∀ v rest, s.phase = .serving v rest → s.flags.enabled = false ∧
        ∃ n ≠ 2, v = vectorOf n ∧ ∀ m, s.chips.inService m = true → m = n ∨ (m = 2 ∧ 8 ≤ n)) ∧
      ((s.phase = .sampled ∨ ∃ line, s.phase = .chosen line) →
        s.flags.frames s.flags.running = []) := by
  obtain ⟨a1, a2, chips, serves, flag⟩ := Sound.run reached
  refine ⟨fun running => ?_, fun v rest serving => ?_, fun accepting => ?_⟩
  · rw [running] at serves
    exact serves.inService
  · rw [serving] at serves flag
    exact ⟨flag, serves.lines⟩
  · have enabled : s.flags.enabled = true := by
      rcases accepting with sampled | ⟨line, chosen⟩
      · rw [sampled] at flag
        exact flag
      · rw [chosen] at flag
        exact flag
    have inv := FlagInv.run (reach_flagState reached)
    by_contra inside
    rw [inv.handler inside] at enabled
    exact Bool.false_ne_true enabled

/-! ### A run -/

/-- The boot thread has enabled interrupts and a device has raised its line. -/
def lineRaised (n : Fin 16) : Delivery where
  flags := ⟨true, 0, 1, fun _ => [], Function.update (fun _ => []) 0 [.sti]⟩
  chips := remappedChips.drive n true
  phase := .running
  ledger := (Ledger.begin remappedChips).lineMoved remappedChips n true

theorem lineRaised_reached (n : Fin 16) : Reach DeliveryStart DeliveryStep (lineRaised n) := by
  have remaps : DeliveryStart ⟨⟨false, 0, 1, fun _ => [], fun _ => []⟩, remappedChips, .running,
      .begin remappedChips⟩ := .remapped (Resumption.interleaved_run _ _ _ _) .boot
  exact ((Reach.start remaps).step (.code rfl (.own .sti rfl))).step (.line n true)

theorem in_service_one_at_a_time_keyPressed : (lineRaised 1).chips.inService 1 = false :=
  (in_service_one_at_a_time (lineRaised_reached 1)).1 rfl 1

end OrbitOs.Kernel
