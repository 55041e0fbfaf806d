import OrbitOs.Machine.Memory

/-!
# A cascaded pair of 8259A interrupt controllers

The registers of a chip, the words that program it, its eight request lines and
the two acknowledge pulses of the CPU.  An edge-triggered line that falls before
the acknowledgement takes its request back.  Of the operation commands only the
mask and the non-specific end of interrupt are modelled; the first
initialization word ends the modes that the others set.
-/

set_option autoImplicit false

namespace OrbitOs.Machine

/-- One line in a register with a bit for each. -/
def lineBit (k : Fin 8) : Byte := 1#8 <<< k.val

/-- What the chip takes the next byte for that is written to its data port. -/
inductive PicWord
  | mask | icw2 | icw3 | icw4
  deriving DecidableEq, Repr

structure Pic where
  /-- The requests. -/
  irr : Byte
  /-- The masked lines. -/
  imr : Byte
  /-- The lines in service. -/
  isr : Byte
  /-- The lines that are high. -/
  level : Byte
  /-- The vector of line 0. -/
  base : Byte
  /-- The lines with a slave on a master, the own line number on a slave. -/
  cascade : Byte
  /-- ICW4: bit 0 selects the vectors of an 8086, bit 1 ends interrupts automatically. -/
  mode : Byte
  expects : PicWord
  needsIcw4 : Bool
  single : Bool
  levelTriggered : Bool

namespace Pic

variable (p : Pic)

/-! ## Programming -/

/-- The word that starts an initialization. -/
def icw1 (v : Byte) : Pic :=
  { p with
    irr := 0
    imr := 0
    isr := 0
    mode := if v.getLsbD 0 then p.mode else 0
    expects := .icw2
    needsIcw4 := v.getLsbD 0
    single := v.getLsbD 1
    levelTriggered := v.getLsbD 3 }

def lastWord : PicWord := if p.needsIcw4 then .icw4 else .mask

/-- A byte written to the data port. -/
def data (v : Byte) : Pic :=
  match p.expects with
  | .mask => { p with imr := v }
  | .icw2 => { p with base := v &&& 0xF8, expects := if p.single then p.lastWord else .icw3 }
  | .icw3 => { p with cascade := v, expects := p.lastWord }
  | .icw4 => { p with mode := v, expects := .mask }

/-! ## Requests -/

/-- The line of the highest priority among those of a register. -/
def highest (r : Byte) : Option (Fin 8) := Fin.find? fun k => r.getLsbD k

def pending : Byte := p.irr &&& ~~~p.imr

/-- A line in service holds back itself and those of lower priority. -/
def holdsBack (k : Fin 8) : Bool :=
  match highest p.isr with
  | none => false
  | some j => decide (j ≤ k)

/-- The request that the chip passes on. -/
def request : Option (Fin 8) := (highest p.pending).filter fun k => !p.holdsBack k

/-- The output of the chip. -/
def int : Bool := p.request.isSome

/-- A request line goes high or low. -/
def drive (k : Fin 8) (high : Bool) : Pic :=
  if high then
    { p with
      irr := if p.level.getLsbD k && !p.levelTriggered then p.irr else p.irr ||| lineBit k
      level := p.level ||| lineBit k }
  else { p with irr := p.irr &&& ~~~lineBit k, level := p.level &&& ~~~lineBit k }

/-- The request goes into service. -/
def serve (k : Fin 8) : Pic :=
  { p with
    irr := if p.levelTriggered then p.irr else p.irr &&& ~~~lineBit k
    isr := if p.mode.getLsbD 1 then p.isr else p.isr ||| lineBit k }

/-- The non-specific end of interrupt: the highest priority goes out of service. -/
def endOfInterrupt : Pic :=
  match highest p.isr with
  | none => p
  | some k => { p with isr := p.isr &&& ~~~lineBit k }

/-- A byte written to the command port. -/
def command (v : Byte) : Pic :=
  if v.getLsbD 4 then p.icw1 v else if v = 0x20 then p.endOfInterrupt else p

/-- The line of an answer without a request. -/
def lastLine : Fin 8 := ⟨7, by decide⟩

/-- What the chip puts on the bus for a line. -/
def vector (k : Fin 8) : Byte := p.base ||| BitVec.ofNat 8 k

end Pic

/-! ## Registers as sets of lines -/

@[simp] theorem getLsbD_lineBit (k j : Fin 8) : (lineBit k).getLsbD j = decide (j = k) := by
  revert k j
  decide

theorem getLsbD_include (r : Byte) (k j : Fin 8) :
    (r ||| lineBit k).getLsbD j = (r.getLsbD j || decide (j = k)) := by
  rw [BitVec.getLsbD_or, getLsbD_lineBit]

theorem getLsbD_exclude (r : Byte) (k j : Fin 8) :
    (r &&& ~~~lineBit k).getLsbD j = (r.getLsbD j && !decide (j = k)) := by
  have inside : j.val < 8 := j.isLt
  rw [BitVec.getLsbD_and, BitVec.getLsbD_not, getLsbD_lineBit, decide_eq_true inside,
    Bool.true_and]

theorem lineBit_exclude (k : Fin 8) : lineBit k &&& ~~~lineBit k = 0 := by
  rw [BitVec.and_not_self]

theorem zero_include (k : Fin 8) : (0 : Byte) ||| lineBit k = lineBit k := BitVec.zero_or

namespace Pic

theorem highest_eq_some {r : Byte} {k : Fin 8} :
    highest r = some k ↔ r.getLsbD k = true ∧ ∀ j < k, r.getLsbD j = false := by
  unfold highest
  rw [Fin.find?_eq_some_iff]

theorem highest_isSome {r : Byte} : (highest r).isSome ↔ ∃ k : Fin 8, r.getLsbD k = true :=
  Fin.isSome_find?_iff

@[simp] theorem highest_zero : highest 0 = none := by decide

@[simp] theorem highest_lineBit (k : Fin 8) : highest (lineBit k) = some k := by
  revert k
  decide

theorem getLsbD_pending (p : Pic) (k : Fin 8) :
    p.pending.getLsbD k = (p.irr.getLsbD k && !p.imr.getLsbD k) := by
  have inside : k.val < 8 := k.isLt
  rw [pending, BitVec.getLsbD_and, BitVec.getLsbD_not, decide_eq_true inside, Bool.true_and]

variable {p : Pic}

/-- With nothing in service every request counts. -/
theorem request_idle (idle : p.isr = 0) : p.request = highest p.pending := by
  have free : ∀ k, p.holdsBack k = false := by
    intro k
    rw [holdsBack, idle, highest_zero]
  unfold request
  cases highest p.pending with
  | none => rfl
  | some k => simp [free k]

theorem int_idle (idle : p.isr = 0) :
    p.int = true ↔ ∃ k : Fin 8, p.irr.getLsbD k = true ∧ p.imr.getLsbD k = false := by
  rw [int, request_idle idle, highest_isSome]
  simp only [getLsbD_pending, Bool.and_eq_true, Bool.not_eq_true']

theorem request_requested {k : Fin 8} (chosen : p.request = some k) :
    p.irr.getLsbD k = true ∧ p.imr.getLsbD k = false := by
  obtain ⟨first, -⟩ := Option.filter_eq_some_iff.mp chosen
  have pends := (highest_eq_some.mp first).1
  rwa [getLsbD_pending, Bool.and_eq_true, Bool.not_eq_true'] at pends

/-! ## What a line does -/

section Drive

variable (k : Fin 8) (high : Bool)

@[simp] theorem drive_imr : (p.drive k high).imr = p.imr := by cases high <;> rfl
@[simp] theorem drive_isr : (p.drive k high).isr = p.isr := by cases high <;> rfl
@[simp] theorem drive_base : (p.drive k high).base = p.base := by cases high <;> rfl
@[simp] theorem drive_cascade : (p.drive k high).cascade = p.cascade := by cases high <;> rfl
@[simp] theorem drive_mode : (p.drive k high).mode = p.mode := by cases high <;> rfl
@[simp] theorem drive_expects : (p.drive k high).expects = p.expects := by cases high <;> rfl
@[simp] theorem drive_needsIcw4 : (p.drive k high).needsIcw4 = p.needsIcw4 := by
  cases high <;> rfl
@[simp] theorem drive_single : (p.drive k high).single = p.single := by cases high <;> rfl
@[simp] theorem drive_levelTriggered : (p.drive k high).levelTriggered = p.levelTriggered := by
  cases high <;> rfl

theorem drive_level (j : Fin 8) :
    (p.drive k high).level.getLsbD j = if j = k then high else p.level.getLsbD j := by
  cases high with
  | true =>
      change (p.level ||| lineBit k).getLsbD j = _
      rw [getLsbD_include]
      by_cases here : j = k <;> simp [here]
  | false =>
      change (p.level &&& ~~~lineBit k).getLsbD j = _
      rw [getLsbD_exclude]
      by_cases here : j = k <;> simp [here]

/-- A request is made on a rising edge and lost on a falling one. -/
theorem drive_irr (edge : p.levelTriggered = false) (j : Fin 8) :
    (p.drive k high).irr.getLsbD j =
      if j = k then high && (p.irr.getLsbD k || !p.level.getLsbD k) else p.irr.getLsbD j := by
  cases high with
  | true =>
      change (if p.level.getLsbD k && !p.levelTriggered then p.irr
        else p.irr ||| lineBit k).getLsbD j = _
      rw [edge, Bool.not_false, Bool.and_true, Bool.true_and]
      cases p.level.getLsbD k with
      | true => by_cases here : j = k <;> simp [here]
      | false =>
          rw [if_neg Bool.false_ne_true, getLsbD_include]
          by_cases here : j = k <;> simp [here]
  | false =>
      change (p.irr &&& ~~~lineBit k).getLsbD j = _
      rw [getLsbD_exclude]
      by_cases here : j = k <;> simp [here]

end Drive

/-! ## What service does -/

structure EdgeTriggered (p : Pic) : Prop where
  edge : p.levelTriggered = false
  manual : p.mode.getLsbD 1 = false

theorem serve_isr (usual : p.EdgeTriggered) (idle : p.isr = 0) (k : Fin 8) :
    (p.serve k).isr = lineBit k := by
  have kept : p.mode.getLsbD 1 = false := usual.manual
  simp only [serve, kept, idle]
  exact zero_include k

theorem serve_irr (usual : p.EdgeTriggered) (k j : Fin 8) :
    (p.serve k).irr.getLsbD j = (p.irr.getLsbD j && !decide (j = k)) := by
  simp only [serve, usual.edge]
  exact getLsbD_exclude p.irr k j

theorem endOfInterrupt_of_isr {k : Fin 8} (serving : p.isr = lineBit k) :
    p.endOfInterrupt = { p with isr := 0 } := by
  simp only [endOfInterrupt, serving, highest_lineBit, lineBit_exclude]

theorem endOfInterrupt_idle (idle : p.isr = 0) : p.endOfInterrupt = p := by
  simp only [endOfInterrupt, idle, highest_zero]

/-- A chip that has just taken its first request passes no other one on. -/
theorem serve_int (usual : p.EdgeTriggered) (idle : p.isr = 0) {k : Fin 8}
    (chosen : p.request = some k) : (p.serve k).int = false := by
  rw [request_idle idle, highest_eq_some] at chosen
  have held : (p.serve k).request = none := by
    unfold request
    rw [Option.filter_eq_none_iff]
    intro j later
    have back : (p.serve k).holdsBack j = decide (k ≤ j) := by
      rw [holdsBack, serve_isr usual idle, highest_lineBit]
    have pends := (highest_eq_some.mp later).1
    rw [getLsbD_pending, serve_irr usual] at pends
    have order : k ≤ j := by
      by_contra before
      have none := chosen.2 j (not_le.mp before)
      rw [getLsbD_pending] at none
      change (p.irr.getLsbD j && !decide (j = k) && !p.imr.getLsbD j) = true at pends
      rw [Bool.and_right_comm, none] at pends
      exact absurd pends Bool.false_ne_true
    rw [back, decide_eq_true order]
    decide
  rw [int, held]
  rfl

end Pic

/-- The output of the slave is line 2 of the master. -/
structure Pics where
  master : Pic
  slave : Pic

namespace Pics

variable (c : Pics)

/-- The line of the master that the slave drives. -/
def slaveLine : Fin 8 := ⟨2, by decide⟩

def wire : Pics := { c with master := c.master.drive slaveLine c.slave.int }

/-- The number of a line on its own chip. -/
def line (n : Fin 16) : Fin 8 := ⟨n % 8, Nat.mod_lt _ (by decide)⟩

/-- The line between the chips, which belongs to no device. -/
abbrev Cascade (n : Fin 16) : Prop := n = 2

/-- A device drives one of the lines 0 to 15. -/
def drive (n : Fin 16) (high : Bool) : Pics :=
  if n = 2 then c
  else if n < 8 then { c with master := c.master.drive (line n) high }
  else wire { c with slave := c.slave.drive (line n) high }

def outb (port : BitVec 16) (v : Byte) : Pics :=
  if port = 0x20 then { c with master := c.master.command v }.wire
  else if port = 0x21 then { c with master := c.master.data v }.wire
  else if port = 0xA0 then wire { c with slave := c.slave.command v }
  else if port = 0xA1 then wire { c with slave := c.slave.data v }
  else c

/-- The command ports show the requests. -/
def inb (port : BitVec 16) : Byte :=
  if port = 0x20 then c.master.irr
  else if port = 0x21 then c.master.imr
  else if port = 0xA0 then c.slave.irr
  else if port = 0xA1 then c.slave.imr
  else 0xFF

/-- The first acknowledge pulse: the master chooses a line, or none when the
request that raised its output is gone. -/
def select : Option (Fin 8) × Pics :=
  match c.master.request with
  | none => (none, c)
  | some k => (some k, { c with master := c.master.serve k })

/-- What a chip answers with: its choice now, or the last line when there is none. -/
def answer (p : Pic) : Byte × Pic :=
  match p.request with
  | none => (p.vector Pic.lastLine, p)
  | some k => (p.vector k, p.serve k)

/-- The second acknowledge pulse: the vector comes from the slave whose number the
master announces, or from the master for a line without a slave.  Nobody drives
the bus when the number is that of no slave. -/
def acknowledge (chosen : Option (Fin 8)) : Byte × Pics :=
  match chosen with
  | none => (c.master.vector Pic.lastLine, c)
  | some k =>
    if c.master.cascade.getLsbD k then
      if c.slave.cascade = BitVec.ofNat 8 k then
        ((answer c.slave).1, wire { c with slave := (answer c.slave).2 })
      else (0xFF, c)
    else (c.master.vector k, c)

/-! ## The wire between the chips -/

end Pics

namespace Pic

variable {p : Pic}

/-- Requests come from lines that are high. -/
structure EdgeSensed (p : Pic) : Prop where
  edge : p.levelTriggered = false
  high : ∀ k : Fin 8, p.irr.getLsbD k = true → p.level.getLsbD k = true

theorem EdgeSensed.drive (sensed : p.EdgeSensed) (k : Fin 8) (high : Bool) :
    (p.drive k high).EdgeSensed where
  edge := (drive_levelTriggered k high).trans sensed.edge
  high := by
    intro j requested
    rw [drive_irr k high sensed.edge] at requested
    rw [drive_level]
    by_cases here : j = k
    · rw [if_pos here] at requested ⊢
      exact (Bool.and_eq_true_iff.mp requested).1
    · rw [if_neg here] at requested ⊢
      exact sensed.high j requested

theorem EdgeSensed.data (sensed : p.EdgeSensed) (v : Byte) : (p.data v).EdgeSensed := by
  unfold Pic.data
  cases p.expects <;> exact ⟨sensed.edge, sensed.high⟩

theorem EdgeSensed.endOfInterrupt (sensed : p.EdgeSensed) : p.endOfInterrupt.EdgeSensed := by
  unfold Pic.endOfInterrupt
  cases highest p.isr <;> exact ⟨sensed.edge, sensed.high⟩

theorem EdgeSensed.serve (sensed : p.EdgeSensed) (k : Fin 8) : (p.serve k).EdgeSensed where
  edge := sensed.edge
  high := by
    intro j requested
    simp only [Pic.serve, sensed.edge, Bool.false_eq_true, if_false] at requested
    rw [getLsbD_exclude, Bool.and_eq_true] at requested
    exact sensed.high j requested.1

theorem edgeSensed_icw1 {v : Byte} (edge : v.getLsbD 3 = false) : (p.icw1 v).EdgeSensed where
  edge := edge
  high := by
    intro k requested
    change (0#8).getLsbD k = true at requested
    rw [BitVec.getLsbD_zero] at requested
    exact absurd requested Bool.false_ne_true

theorem icw1_int (v : Byte) : (p.icw1 v).int = false := by
  have none : (p.icw1 v).pending = 0 := BitVec.zero_and
  rw [int, request, none, highest_zero]
  rfl

end Pic

namespace Pics

variable {c : Pics}

@[simp] theorem wire_slave : c.wire.slave = c.slave := rfl
@[simp] theorem wire_imr : c.wire.master.imr = c.master.imr := Pic.drive_imr _ _
@[simp] theorem wire_isr : c.wire.master.isr = c.master.isr := Pic.drive_isr _ _

structure Linked (c : Pics) : Prop where
  master : c.master.EdgeSensed
  slave : c.slave.EdgeSensed
  wired : c.master.level.getLsbD slaveLine = c.slave.int

/-- A request of the slave is a request of the master. -/
def Latched (c : Pics) : Prop :=
  c.master.level.getLsbD slaveLine = true → c.master.irr.getLsbD slaveLine = true

theorem linked_wire (master : c.master.EdgeSensed) (slave : c.slave.EdgeSensed) :
    c.wire.Linked where
  master := master.drive slaveLine c.slave.int
  slave := slave
  wired := by
    change (c.master.drive slaveLine c.slave.int).level.getLsbD slaveLine = c.slave.int
    rw [Pic.drive_level, if_pos rfl]

theorem latched_wire (edge : c.master.levelTriggered = false) (latched : c.Latched) :
    c.wire.Latched := by
  intro up
  change (c.master.drive slaveLine c.slave.int).level.getLsbD slaveLine = true at up
  change (c.master.drive slaveLine c.slave.int).irr.getLsbD slaveLine = true
  rw [Pic.drive_level, if_pos rfl] at up
  rw [Pic.drive_irr _ _ edge, if_pos rfl, up, Bool.true_and]
  cases high : c.master.level.getLsbD slaveLine with
  | true => rw [latched high, Bool.true_or]
  | false => simp

/-- When the slave has no request there is nothing to latch. -/
theorem latched_wire_of_low (low : c.slave.int = false) : c.wire.Latched := by
  intro up
  change (c.master.drive slaveLine c.slave.int).level.getLsbD slaveLine = true at up
  rw [Pic.drive_level, if_pos rfl, low] at up
  exact absurd up Bool.false_ne_true

/-! ## The sixteen lines -/

def requested (c : Pics) (n : Fin 16) : Bool :=
  if n < 8 then c.master.irr.getLsbD (line n) else c.slave.irr.getLsbD (line n)

def high (c : Pics) (n : Fin 16) : Bool :=
  if n < 8 then c.master.level.getLsbD (line n) else c.slave.level.getLsbD (line n)

def masked (c : Pics) (n : Fin 16) : Bool :=
  if n < 8 then c.master.imr.getLsbD (line n) else c.slave.imr.getLsbD (line n)

def inService (c : Pics) (n : Fin 16) : Bool :=
  if n < 8 then c.master.isr.getLsbD (line n) else c.slave.isr.getLsbD (line n)

theorem line_eq_slaveLine {n : Fin 16} (small : n < 8) : line n = slaveLine ↔ n = 2 := by
  revert n
  decide

theorem line_inj {m n : Fin 16} (same : m < 8 ↔ n < 8) : line m = line n ↔ m = n := by
  revert m n
  decide

section Wire

variable {n : Fin 16} (device : n ≠ 2)

include device

theorem wire_requested (edge : c.master.levelTriggered = false) :
    c.wire.requested n = c.requested n := by
  unfold requested
  by_cases small : n < 8
  · rw [if_pos small, if_pos small]
    change (c.master.drive slaveLine c.slave.int).irr.getLsbD (line n) = _
    rw [Pic.drive_irr _ _ edge, if_neg (mt (line_eq_slaveLine small).mp device)]
  · rw [if_neg small, if_neg small]
    rfl

theorem wire_high : c.wire.high n = c.high n := by
  unfold high
  by_cases small : n < 8
  · rw [if_pos small, if_pos small]
    change (c.master.drive slaveLine c.slave.int).level.getLsbD (line n) = _
    rw [Pic.drive_level, if_neg (mt (line_eq_slaveLine small).mp device)]
  · rw [if_neg small, if_neg small]
    rfl

end Wire

theorem drive_slaveLine (high : Bool) : c.drive 2 high = c := if_pos rfl

theorem drive_master {n : Fin 16} (device : n ≠ 2) (small : n < 8) (high : Bool) :
    c.drive n high = { c with master := c.master.drive (line n) high } := by
  rw [drive, if_neg device, if_pos small]

theorem drive_slave {n : Fin 16} (large : ¬ n < 8) (high : Bool) :
    c.drive n high = wire { c with slave := c.slave.drive (line n) high } := by
  have device : n ≠ 2 := by
    rintro rfl
    exact large (by decide)
  rw [drive, if_neg device, if_neg large]

namespace Linked

variable (linked : c.Linked)

include linked

theorem drive (n : Fin 16) (high : Bool) : (c.drive n high).Linked := by
  by_cases device : n = 2
  · rw [device, drive_slaveLine]
    exact linked
  · by_cases small : n < 8
    · rw [drive_master device small]
      refine ⟨linked.master.drive _ _, linked.slave, ?_⟩
      change (c.master.drive (line n) high).level.getLsbD slaveLine = c.slave.int
      rw [Pic.drive_level, if_neg (Ne.symm (mt (line_eq_slaveLine small).mp device))]
      exact linked.wired
    · rw [drive_slave small]
      exact linked_wire linked.master (linked.slave.drive _ _)

theorem latched_drive (latched : c.Latched) (n : Fin 16) (high : Bool) :
    (c.drive n high).Latched := by
  by_cases device : n = 2
  · rw [device, drive_slaveLine]
    exact latched
  · by_cases small : n < 8
    · rw [drive_master device small]
      intro up
      have other := Ne.symm (mt (line_eq_slaveLine small).mp device)
      change (c.master.drive (line n) high).level.getLsbD slaveLine = true at up
      change (c.master.drive (line n) high).irr.getLsbD slaveLine = true
      rw [Pic.drive_level, if_neg other] at up
      rw [Pic.drive_irr _ _ linked.master.edge, if_neg other]
      exact latched up
    · rw [drive_slave small]
      exact latched_wire linked.master.edge latched

/-- A line that goes high while it is low makes a request; one that goes low has
none. -/
theorem requested_drive {m n : Fin 16} (device : m ≠ 2) (driven : n ≠ 2) (up : Bool) :
    (c.drive n up).requested m =
      if m = n then up && (c.requested n || !c.high n) else c.requested m := by
  by_cases small : n < 8
  · rw [drive_master driven small]
    by_cases here : m < 8
    · simp only [requested, high, if_pos here, if_pos small]
      rw [Pic.drive_irr _ _ linked.master.edge]
      simp only [line_inj (iff_of_true here small)]
    · have other : m ≠ n := fun same => here (same ▸ small)
      simp only [requested, if_neg here, if_neg other]
  · rw [drive_slave small,
      wire_requested (c := ⟨c.master, c.slave.drive _ up⟩) device linked.master.edge]
    by_cases here : m < 8
    · have other : m ≠ n := fun same => small (same ▸ here)
      simp only [requested, if_pos here, if_neg other]
    · simp only [requested, high, if_neg here, if_neg small]
      rw [Pic.drive_irr _ _ linked.slave.edge]
      simp only [line_inj (iff_of_false here small)]

end Linked

end Pics

/-! ## Settings -/

namespace Pic

variable (p : Pic)

/-- A chip without what its lines make of it. -/
def settings : Pic := { p with irr := 0, level := 0 }

variable {p}

@[simp] theorem settings_drive (k : Fin 8) (high : Bool) :
    (p.drive k high).settings = p.settings := by
  cases high <;> rfl

theorem settings_icw1 (v : Byte) : (p.icw1 v).settings = (p.settings.icw1 v).settings := rfl

theorem data_irr (v : Byte) : (p.data v).irr = p.irr := by
  unfold data
  cases p.expects <;> rfl

theorem data_level (v : Byte) : (p.data v).level = p.level := by
  unfold data
  cases p.expects <;> rfl

theorem settings_data (v : Byte) : (p.data v).settings = (p.settings.data v).settings := by
  cases p with
  | mk irr imr isr level base cascade mode expects needsIcw4 single levelTriggered =>
      cases expects <;> rfl

end Pic

namespace Pics

variable {c : Pics}

@[simp] theorem wire_settings : c.wire.master.settings = c.master.settings :=
  Pic.settings_drive _ _

theorem drive_settings (n : Fin 16) (high : Bool) :
    (c.drive n high).master.settings = c.master.settings ∧
      (c.drive n high).slave.settings = c.slave.settings := by
  by_cases device : n = 2
  · rw [device, drive_slaveLine]
    exact ⟨rfl, rfl⟩
  · by_cases small : n < 8
    · rw [drive_master device small]
      exact ⟨Pic.settings_drive _ _, rfl⟩
    · rw [drive_slave small]
      exact ⟨wire_settings, Pic.settings_drive _ _⟩

end Pics

end OrbitOs.Machine
