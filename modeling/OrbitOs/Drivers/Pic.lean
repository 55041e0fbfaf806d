import OrbitOs.Base.Resumption
import OrbitOs.Machine.Pic8259

/-!
# The interrupt controllers of drivers/pic.c

The driver is a program that reads and writes ports.  Devices move their lines
between any two of its accesses.
-/

set_option autoImplicit false

namespace OrbitOs.Drivers.Pic

open OrbitOs.Machine OrbitOs.Base

inductive Op
  | outb (port : BitVec 16) (val : Byte)
  | inb (port : BitVec 16)

abbrev Op.Res : Op → Type
  | .outb _ _ => Unit
  | .inb _ => Byte

def access : (o : Op) → Pics → o.Res × Pics
  | .outb port val, c => ((), c.outb port val)
  | .inb port, c => (c.inb port, c)

inductive LineMoves : Pics → Pics → Prop
  | drive {c : Pics} (n : Fin 16) (high : Bool) : LineMoves c (c.drive n high)

def devices : Resumption.Environment Op Pics where
  admits := fun _ _ => True
  acts := Relation.ReflTransGen LineMoves
  acts_trans := fun _ _ _ => Relation.ReflTransGen.trans

/-! ## The source -/

abbrev Code := Resumption Op.Res

def outb (port : BitVec 16) (val : Byte) : Code Unit := Resumption.op (Op.outb port val)

def inb (port : BitVec 16) : Code Byte := Resumption.op (Op.inb port)

def pic1Command : BitVec 16 := 0x20
def pic1Data : BitVec 16 := 0x21
def pic2Command : BitVec 16 := 0xA0
def pic2Data : BitVec 16 := 0xA1

/-- `PIC_EOI` -/
def picEoi : Byte := 0x20

/-- `ICW1_INIT | ICW1_ICW4` -/
def icw1 : Byte := 0x10 ||| 0x01

/-- `ICW4_8086` -/
def icw4 : Byte := 0x01

def ioWait : Code Unit := outb 0x80 0

def picSendEoi (irq : Byte) : Code Unit := do
  if irq ≥ 8 then outb pic2Command picEoi
  outb pic1Command picEoi

def picRemap (offset1 offset2 : Word) : Code Unit := do
  let a1 ← inb pic1Data
  let a2 ← inb pic2Data
  outb pic1Command icw1
  ioWait
  outb pic2Command icw1
  ioWait
  outb pic1Data (offset1.setWidth 8)
  ioWait
  outb pic2Data (offset2.setWidth 8)
  ioWait
  outb pic1Data 4
  ioWait
  outb pic2Data 2
  ioWait
  outb pic1Data icw4
  ioWait
  outb pic2Data icw4
  ioWait
  outb pic1Data a1
  outb pic2Data a2

/-! ## Steps of an initialization -/

abbrev Ready {α : Type} := Resumption.Ready (α := α) access devices fun _ => True

/-- The lines leave it alone. -/
def Stable (holds : Pics → Prop) : Prop := ∀ c n high, holds c → holds (c.drive n high)

theorem Stable.moves {holds : Pics → Prop} (stable : Stable holds) {c c' : Pics}
    (moves : Relation.ReflTransGen LineMoves c c') (before : holds c) : holds c' := by
  induction moves with
  | refl => exact before
  | tail _ move ih =>
      cases move with
      | drive n high => exact stable _ n high ih

theorem Stable.turn {holds : Pics → Prop} (stable : Stable holds) {o : Op} {c c' : Pics}
    (turn : c' = c ∨ devices.admits o c ∧ devices.acts c c') (before : holds c) : holds c' := by
  rcases turn with rfl | ⟨-, moves⟩
  · exact before
  · exact stable.moves moves before

theorem ready_outb {before after : Pics → Prop} (stable : Stable before) {port : BitVec 16}
    {v : Byte} (writes : ∀ c, before c → after (c.outb port v)) {c : Pics} (holds : before c) :
    Ready (fun _ => after) (outb port v) c :=
  Resumption.ready_op (o := Op.outb port v) fun c' turn =>
    ⟨trivial, trivial, writes c' (stable.turn turn holds)⟩

theorem ready_inb {before : Pics → Prop} (stable : Stable before) {port : BitVec 16} {v : Byte}
    (reads : ∀ c, before c → c.inb port = v) {c : Pics} (holds : before c) :
    Ready (fun a c' => a = v ∧ before c') (inb port) c :=
  Resumption.ready_op (o := Op.inb port) fun c' turn =>
    ⟨trivial, trivial, reads c' (stable.turn turn holds), stable.turn turn holds⟩

theorem ready_ioWait {before : Pics → Prop} (stable : Stable before) {c : Pics}
    (holds : before c) : Ready (fun _ => before) ioWait c := by
  refine ready_outb stable (fun c' before' => ?_) holds
  have elsewhere : c'.outb 0x80 0 = c' := rfl
  rw [elsewhere]
  exact before'

/-- The settings of both chips. -/
structure Set (m s : Machine.Pic) (c : Pics) : Prop where
  master : c.master.settings = m
  slave : c.slave.settings = s

theorem stable_set (m s : Machine.Pic) : Stable (Set m s) := by
  intro c n high set
  obtain ⟨master, slave⟩ := c.drive_settings n high
  exact ⟨master.trans set.master, slave.trans set.slave⟩

/-- From the first word to the slave on the wire between the chips is sound. -/
structure Joined (m s : Machine.Pic) (c : Pics) : Prop where
  set : Set m s c
  linked : c.Linked
  latched : c.Latched

theorem stable_joined (m s : Machine.Pic) : Stable (Joined m s) := by
  intro c n high joined
  exact ⟨stable_set m s c n high joined.set, joined.linked.drive n high,
    joined.linked.latched_drive joined.latched n high⟩

namespace Joined

variable {m s : Machine.Pic} {c : Pics} (joined : Joined m s c) (v : Byte)

include joined

theorem masterData : Joined (m.data v).settings s (c.outb pic1Data v) := by
  have writes : c.outb pic1Data v = Pics.wire { c with master := c.master.data v } := rfl
  have sensed := joined.linked.master.data v
  have latched : Pics.Latched { c with master := c.master.data v } := by
    unfold Pics.Latched
    rw [Pic.data_irr, Pic.data_level]
    exact joined.latched
  rw [writes]
  refine ⟨⟨?_, joined.set.slave⟩, Pics.linked_wire sensed joined.linked.slave,
    Pics.latched_wire sensed.edge latched⟩
  rw [Pics.wire_settings, ← joined.set.master]
  exact Pic.settings_data v

theorem slaveData : Joined m (s.data v).settings (c.outb pic2Data v) := by
  have writes : c.outb pic2Data v = Pics.wire { c with slave := c.slave.data v } := rfl
  rw [writes]
  refine ⟨⟨?_, ?_⟩, Pics.linked_wire joined.linked.master (joined.linked.slave.data v),
    Pics.latched_wire joined.linked.master.edge joined.latched⟩
  · rw [Pics.wire_settings]
    exact joined.set.master
  · rw [Pics.wire_slave, ← joined.set.slave]
    exact Pic.settings_data v

end Joined

/-- The master has its first word, the slave not yet. -/
structure HalfSet (m s : Machine.Pic) (c : Pics) : Prop where
  set : Set m s c
  sensed : c.master.EdgeSensed

theorem stable_halfSet (m s : Machine.Pic) : Stable (HalfSet m s) := by
  intro c n high half
  refine ⟨stable_set m s c n high half.set, ?_⟩
  by_cases device : n = 2
  · rw [device, Pics.drive_slaveLine]
    exact half.sensed
  · by_cases small : n < 8
    · rw [Pics.drive_master device small]
      exact half.sensed.drive _ _
    · rw [Pics.drive_slave small]
      exact half.sensed.drive _ _

theorem Set.masterInit {m s : Machine.Pic} {c : Pics} (set : Set m s c) :
    HalfSet (m.icw1 icw1).settings s (c.outb pic1Command icw1) := by
  have writes : c.outb pic1Command icw1 = Pics.wire { c with master := c.master.icw1 icw1 } := rfl
  rw [writes]
  refine ⟨⟨?_, set.slave⟩, (Pic.edgeSensed_icw1 rfl).drive _ _⟩
  rw [Pics.wire_settings, ← set.master]
  exact Pic.settings_icw1 icw1

theorem HalfSet.slaveInit {m s : Machine.Pic} {c : Pics} (half : HalfSet m s c) :
    Joined m (s.icw1 icw1).settings (c.outb pic2Command icw1) := by
  have writes : c.outb pic2Command icw1 = Pics.wire { c with slave := c.slave.icw1 icw1 } := rfl
  rw [writes]
  refine ⟨⟨?_, ?_⟩, Pics.linked_wire half.sensed (Pic.edgeSensed_icw1 rfl),
    Pics.latched_wire_of_low (Pic.icw1_int icw1)⟩
  · rw [Pics.wire_settings]
    exact half.set.master
  · rw [Pics.wire_slave, ← half.set.slave]
    exact Pic.settings_icw1 icw1

/-! ## `pic_remap` -/

/-- A chip that is ready to deliver. -/
structure Programmed (base cascade masks : Byte) (p : Machine.Pic) : Prop where
  base : p.base = base
  cascade : p.cascade = cascade
  mode : p.mode = icw4
  expects : p.expects = .mask
  imr : p.imr = masks

namespace Programmed

variable {base cascade masks : Byte} {p : Machine.Pic}
  (programmed : Programmed base cascade masks p)

include programmed

theorem drive (k : Fin 8) (high : Bool) : Programmed base cascade masks (p.drive k high) where
  base := (Pic.drive_base k high).trans programmed.base
  cascade := (Pic.drive_cascade k high).trans programmed.cascade
  mode := (Pic.drive_mode k high).trans programmed.mode
  expects := (Pic.drive_expects k high).trans programmed.expects
  imr := (Pic.drive_imr k high).trans programmed.imr

theorem serve (k : Fin 8) : Programmed base cascade masks (p.serve k) :=
  ⟨programmed.base, programmed.cascade, programmed.mode, programmed.expects, programmed.imr⟩

theorem endOfInterrupt : Programmed base cascade masks p.endOfInterrupt := by
  unfold Pic.endOfInterrupt
  cases Pic.highest p.isr <;>
    exact ⟨programmed.base, programmed.cascade, programmed.mode, programmed.expects, programmed.imr⟩

theorem edgeTriggered (sensed : p.EdgeSensed) : p.EdgeTriggered where
  edge := sensed.edge
  manual := by
    rw [programmed.mode]
    rfl

end Programmed

/-- What `pic_remap` leaves of chips with these masks. -/
structure Remapped (offset1 offset2 a1 a2 : Byte) (c : Pics) : Prop where
  master : Programmed (offset1 &&& 0xF8) 4 a1 c.master
  slave : Programmed (offset2 &&& 0xF8) 2 a2 c.slave
  masterIdle : c.master.isr = 0
  slaveIdle : c.slave.isr = 0
  linked : c.Linked
  latched : c.Latched

/-- The words after the first one, ending with the masks. -/
def words (p : Machine.Pic) (offset cascade masks : Byte) : Machine.Pic :=
  (((((((p.icw1 icw1).settings.data offset).settings.data cascade).settings.data
    icw4).settings).data masks).settings)

theorem words_eq (p : Machine.Pic) (offset cascade masks : Byte) :
    words p offset cascade masks =
      { irr := 0, imr := masks, isr := 0, level := 0, base := offset &&& 0xF8, cascade := cascade,
        mode := icw4, expects := .mask, needsIcw4 := true, single := false,
        levelTriggered := false } := rfl

theorem Joined.remapped {p q : Machine.Pic} {offset1 offset2 a1 a2 : Byte} {c : Pics}
    (joined : Joined (words p offset1 4 a1) (words q offset2 2 a2) c) :
    Remapped offset1 offset2 a1 a2 c := by
  have master := joined.set.master
  have slave := joined.set.slave
  rw [words_eq] at master slave
  exact {
    master := ⟨congrArg Pic.base master, congrArg Pic.cascade master, congrArg Pic.mode master,
      congrArg Pic.expects master, congrArg Pic.imr master⟩
    slave := ⟨congrArg Pic.base slave, congrArg Pic.cascade slave, congrArg Pic.mode slave,
      congrArg Pic.expects slave, congrArg Pic.imr slave⟩
    masterIdle := congrArg Pic.isr master
    slaveIdle := congrArg Pic.isr slave
    linked := joined.linked
    latched := joined.latched }

section Words

variable {m s : Machine.Pic} {c : Pics} (joined : Joined m s c) (v : Byte)

include joined

theorem ready_masterData :
    Ready (fun _ => Joined (m.data v).settings s) (outb pic1Data v) c :=
  ready_outb (stable_joined m s) (fun _ before => before.masterData v) joined

theorem ready_slaveData :
    Ready (fun _ => Joined m (s.data v).settings) (outb pic2Data v) c :=
  ready_outb (stable_joined m s) (fun _ before => before.slaveData v) joined

/-- A word for each chip. -/
theorem ready_pair {rest : Code Unit} {post : Unit → Pics → Prop} (w : Byte)
    (next : ∀ c', Joined (m.data v).settings (s.data w).settings c' → Ready post rest c') :
    Ready post (do
      outb pic1Data v
      ioWait
      outb pic2Data w
      ioWait
      rest) c := by
  refine Resumption.ready_bind (ready_masterData joined v) fun _ c₁ _ joined₁ => ?_
  refine Resumption.ready_bind (ready_ioWait (stable_joined _ _) joined₁) fun _ c₂ _ joined₂ => ?_
  refine Resumption.ready_bind (ready_slaveData joined₂ w) fun _ c₃ _ joined₃ => ?_
  exact Resumption.ready_bind (ready_ioWait (stable_joined _ _) joined₃) fun _ c₄ _ => next c₄

end Words

/-- Whatever state the chips are in and whatever their lines do meanwhile. -/
theorem ready_picRemap (offset1 offset2 : Word) (c : Pics) :
    Ready (fun _ => Remapped (offset1.setWidth 8) (offset2.setWidth 8) c.master.imr c.slave.imr)
      (picRemap offset1 offset2) c := by
  have begins : Set c.master.settings c.slave.settings c := ⟨rfl, rfl⟩
  have masterMasks : ∀ c', Set c.master.settings c.slave.settings c' →
      c'.inb pic1Data = c.master.imr := by
    intro c' set
    have same := congrArg Pic.imr set.master
    exact same
  have slaveMasks : ∀ c', Set c.master.settings c.slave.settings c' →
      c'.inb pic2Data = c.slave.imr := by
    intro c' set
    have same := congrArg Pic.imr set.slave
    exact same
  refine Resumption.ready_bind (ready_inb (stable_set _ _) masterMasks begins) ?_
  rintro a1 c₁ - ⟨rfl, set₁⟩
  refine Resumption.ready_bind (ready_inb (stable_set _ _) slaveMasks set₁) ?_
  rintro a2 c₂ - ⟨rfl, set₂⟩
  refine Resumption.ready_bind (ready_outb (stable_set _ _)
    (fun _ set => set.masterInit) set₂) fun _ c₃ _ half₃ => ?_
  refine Resumption.ready_bind (ready_ioWait (stable_halfSet _ _) half₃) fun _ c₄ _ half₄ => ?_
  refine Resumption.ready_bind (ready_outb (stable_halfSet _ _)
    (fun _ half => half.slaveInit) half₄) fun _ c₅ _ joined₅ => ?_
  refine Resumption.ready_bind (ready_ioWait (stable_joined _ _) joined₅) fun _ c₆ _ joined₆ => ?_
  refine ready_pair joined₆ _ _ fun c₇ joined₇ => ?_
  refine ready_pair joined₇ _ _ fun c₈ joined₈ => ?_
  refine ready_pair joined₈ _ _ fun c₉ joined₉ => ?_
  refine Resumption.ready_bind (ready_masterData joined₉ _) fun _ d _ joined => ?_
  exact (ready_slaveData joined _).mono fun _ _ _ last => Joined.remapped last

/-- Whatever state the chips are in, and wherever their lines move between the
accesses of `pic_remap`, both are programmed afterwards, with no line in service and
with the masks from before. -/
theorem picRemap_remaps (offset1 offset2 : Word) {c c' : Pics}
    (remaps : Resumption.Interleaved access devices (picRemap offset1 offset2) c () c') :
    Remapped (offset1.setWidth 8) (offset2.setWidth 8) c.master.imr c.slave.imr c' :=
  ((ready_picRemap offset1 offset2 c).interleaved remaps).2

def idlePic : Machine.Pic where
  irr := 0
  imr := 0
  isr := 0
  level := 0
  base := 0
  cascade := 0
  mode := 0
  expects := .mask
  needsIcw4 := false
  single := false
  levelTriggered := false

/-- The chips after an undisturbed `pic_remap`. -/
def remappedChips : Pics := (Resumption.run access (picRemap 0x20 0x28) ⟨idlePic, idlePic⟩).2

theorem picRemap_remaps_idle :
    Remapped ((0x20 : Word).setWidth 8) ((0x28 : Word).setWidth 8) 0 0 remappedChips :=
  picRemap_remaps 0x20 0x28 (Resumption.interleaved_run access devices _ ⟨idlePic, idlePic⟩)

end OrbitOs.Drivers.Pic
