import OrbitOs.Machine.Memory
import Mathlib.Tactic

/-!
# Programming the interval timer in drivers/pit.c

Channel 0 of the 8254 takes its 16-bit count in two bytes when a control byte
told it so; a count of zero stands for 65536.
-/

set_option autoImplicit false

namespace OrbitOs.Drivers

open OrbitOs.Machine

/-! ## Channel 0 -/

structure Pit where
  /-- The last control byte for channel 0. -/
  control : Byte
  /-- The low byte of a count whose high byte is still to come. -/
  low : Option Byte
  count : BitVec 16

namespace Pit

variable (p : Pit)

/-- Port 0x43.  Bits 6 and 7 select the channel, bits 4 and 5 say which bytes of the
count follow; a zero there latches the count and changes nothing. -/
def writeControl (v : Byte) : Pit :=
  if v.extractLsb' 6 2 = 0 ∧ v.extractLsb' 4 2 ≠ 0 then { p with control := v, low := none } else p

/-- Port 0x40. -/
def writeCount (v : Byte) : Pit :=
  if p.control.extractLsb' 4 2 = 1 then { p with count := v.setWidth 16 }
  else if p.control.extractLsb' 4 2 = 2 then { p with count := v ++ (0 : Byte) }
  else
    match p.low with
    | none => { p with low := some v }
    | some low => { p with low := none, count := v ++ low }

def outb (port : BitVec 16) (v : Byte) : Pit :=
  if port = 0x43 then p.writeControl v else if port = 0x40 then p.writeCount v else p

/-- The clock pulses between two interrupts of a binary counter in mode 3, which
does not allow a count of one. -/
def period : Option ℕ :=
  if p.count = 0 then some 65536 else if p.count = 1 then none else some p.count.toNat

theorem period_eq_some_iff {n : ℕ} : p.period = some n ↔
    p.count.toNat = 0 ∧ n = 65536 ∨ 2 ≤ p.count.toNat ∧ n = p.count.toNat := by
  unfold period
  by_cases zero : p.count = 0
  · have value : p.count.toNat = 0 := congrArg BitVec.toNat zero
    rw [if_pos zero, Option.some_inj]
    omega
  · have nonzero : p.count.toNat ≠ 0 := fun value => zero (BitVec.eq_of_toNat_eq value)
    rw [if_neg zero]
    by_cases one : p.count = 1
    · have value : p.count.toNat = 1 := congrArg BitVec.toNat one
      rw [if_pos one]
      exact iff_of_false (Option.some_ne_none n).symm (by omega)
    · have notOne : p.count.toNat ≠ 1 := fun value => one (BitVec.eq_of_toNat_eq value)
      rw [if_neg one, Option.some_inj]
      omega

end Pit

/-! ## The source -/

/-- `pit_initialize` after the registration of the callback; the division by a
frequency of zero faults. -/
def pitInitialize (frequency : Word) (p : Pit) : Option Pit :=
  if frequency = 0 then none
  else
    let divisor : Word := 1193180 / frequency
    let p := p.outb 0x43 0x36
    let l : Byte := (divisor &&& 0xFF).setWidth 8
    let h : Byte := ((divisor >>> 8) &&& 0xFF).setWidth 8
    some ((p.outb 0x40 l).outb 0x40 h)

theorem count_bytes (divisor : Word) :
    ((divisor >>> 8) &&& 0xFF).setWidth 8 ++ ((divisor &&& 0xFF).setWidth 8 : Byte) =
      divisor.setWidth 16 := by
  have mask : ∀ i < 8, (0xFF : Word).getLsbD i = true := by decide
  apply BitVec.eq_of_getLsbD_eq
  intro i bound
  rw [BitVec.getLsbD_append, BitVec.getLsbD_setWidth, BitVec.getLsbD_setWidth,
    BitVec.getLsbD_setWidth, BitVec.getLsbD_and, BitVec.getLsbD_and, BitVec.getLsbD_ushiftRight,
    decide_eq_true bound]
  by_cases small : i < 8
  · rw [mask i small]
    simp [small]
  · have inside : i - 8 < 8 := by omega
    have index : 8 + (i - 8) = i := by omega
    rw [mask (i - 8) inside, index]
    simp [small, inside]

/-- The control byte asks for both bytes of the count. -/
theorem program_both (p : Pit) (l h : Byte) :
    ((p.outb 0x43 0x36).outb 0x40 l).outb 0x40 h =
      { p with control := 0x36, low := none, count := h ++ l } := by
  have selected : p.outb 0x43 0x36 = { p with control := 0x36, low := none } :=
    (if_pos rfl).trans (if_pos (by decide))
  have bytes : ∀ (q : Pit) (v : Byte), q.control = 0x36 → q.outb 0x40 v =
      match q.low with
      | none => { q with low := some v }
      | some low => { q with low := none, count := v ++ low } := by
    intro q v control
    have notLow : ¬ q.control.extractLsb' 4 2 = 1 := by
      rw [control]
      decide
    have notHigh : ¬ q.control.extractLsb' 4 2 = 2 := by
      rw [control]
      decide
    exact (if_neg (by decide)).trans ((if_pos rfl).trans ((if_neg notLow).trans (if_neg notHigh)))
  rw [selected, bytes _ l rfl, bytes _ h rfl]

theorem pitInitialize_eq {frequency : Word} (positive : frequency ≠ 0) (p : Pit) :
    pitInitialize frequency p =
      some { p with
        control := 0x36, low := none, count := (1193180 / frequency : Word).setWidth 16 } := by
  unfold pitInitialize
  rw [if_neg positive, ← count_bytes]
  exact congrArg some (program_both p _ _)

/-- Whatever the timer was told before, its interrupts come at the requested rate
for the frequencies from 19 to 596590 and for no others. -/
theorem period_eq_divisor_iff {frequency : Word} (positive : frequency ≠ 0) (p : Pit) :
    ∃ p', pitInitialize frequency p = some p' ∧ p'.control = 0x36 ∧ p'.low = none ∧
      p'.count = (1193180 / frequency).setWidth 16 ∧
      (p'.period = some (1193180 / frequency.toNat) ↔
        19 ≤ frequency.toNat ∧ frequency.toNat ≤ 596590) := by
  refine ⟨_, pitInitialize_eq positive p, rfl, rfl, rfl, ?_⟩
  have nonzero : 0 < frequency.toNat := Nat.pos_of_ne_zero fun zero =>
    positive (BitVec.eq_of_toNat_eq zero)
  have divisor : ((1193180 / frequency : Word).setWidth 16).toNat =
      1193180 / frequency.toNat % 65536 := by
    rw [BitVec.toNat_setWidth, BitVec.toNat_udiv]
    rfl
  have inRange : 19 ≤ frequency.toNat ∧ frequency.toNat ≤ 596590 ↔
      2 ≤ 1193180 / frequency.toNat ∧ 1193180 / frequency.toNat < 65536 := by
    rw [Nat.div_lt_iff_lt_mul nonzero, Nat.le_div_iff_mul_le nonzero]
    omega
  have least : 1193180 / frequency.toNat ≠ 65536 := by
    intro same
    have bounds := Nat.div_add_mod 1193180 frequency.toNat
    rw [same] at bounds
    have rest := Nat.mod_lt 1193180 nonzero
    omega
  rw [Pit.period_eq_some_iff, divisor, inRange]
  omega

/-- The kernel asks for 100 interrupts a second. -/
theorem period_eq_divisor_iff_kernel : ∃ p', pitInitialize 100 ⟨0, some 1, 7⟩ = some p' ∧
    p'.control = 0x36 ∧ p'.low = none ∧ p'.count = (1193180 / 100 : Word).setWidth 16 ∧
    (p'.period = some 11931 ↔ 19 ≤ 100 ∧ 100 ≤ 596590) :=
  period_eq_divisor_iff (by decide) ⟨0, some 1, 7⟩

end OrbitOs.Drivers
