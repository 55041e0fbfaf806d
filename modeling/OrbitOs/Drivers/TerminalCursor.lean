import OrbitOs.Drivers.TerminalLayout

/-!
# The cursor of the display

The CRT controller has an index register and a register file behind two ports.  The
terminal moves the hardware cursor through them; this follows it through the accesses.
-/

set_option autoImplicit false

namespace OrbitOs.Drivers

open OrbitOs.Machine

structure Crtc where
  index : Byte
  registers : Byte → Byte

namespace Crtc

def access (s : Crtc) (p : BitVec 16 × Byte) : Crtc :=
  if p.1 = 0x3D4 then { s with index := p.2 }
  else if p.1 = 0x3D5 then { s with registers := Function.update s.registers s.index p.2 }
  else s

def after (s : Crtc) (ports : List (BitVec 16 × Byte)) : Crtc := ports.foldl access s

/-- The cell of the cursor, from "cursor location high" and "cursor location low". -/
def cursor (s : Crtc) : ℕ := 256 * (s.registers 0x0E).toNat + (s.registers 0x0F).toNat

theorem after_append (s : Crtc) (a b : List (BitVec 16 × Byte)) :
    s.after (a ++ b) = (s.after a).after b := List.foldl_append

theorem after_serial (s : Crtc) (c : Byte) : s.after [(0x3F8, c)] = s := rfl

/-- What `terminal_update_cursor` writes. -/
def cursorPorts (pos : BitVec 16) : List (BitVec 16 × Byte) :=
  [(0x3D4, 0x0F), (0x3D5, (pos &&& 0xFF).setWidth 8), (0x3D4, 0x0E),
    (0x3D5, ((pos >>> 8) &&& 0xFF).setWidth 8)]

theorem after_cursorPorts (s : Crtc) (pos : BitVec 16) :
    (s.after (cursorPorts pos)).cursor = pos.toNat ∧
      ∀ r, r ≠ 0x0E → r ≠ 0x0F → (s.after (cursorPorts pos)).registers r = s.registers r := by
  have registers : (s.after (cursorPorts pos)).registers =
      Function.update (Function.update s.registers 0x0F ((pos &&& 0xFF).setWidth 8)) 0x0E
        (((pos >>> 8) &&& 0xFF).setWidth 8) := rfl
  have bound := pos.isLt
  have low : ((pos &&& 0xFF).setWidth 8).toNat = pos.toNat % 256 := by
    rw [BitVec.toNat_setWidth, BitVec.toNat_and]
    have mask : pos.toNat &&& (0xFF : BitVec 16).toNat = pos.toNat % 2 ^ 8 :=
      Nat.and_two_pow_sub_one_eq_mod pos.toNat 8
    omega
  have high : (((pos >>> 8) &&& 0xFF).setWidth 8).toNat = pos.toNat / 256 := by
    rw [BitVec.toNat_setWidth, BitVec.toNat_and, BitVec.toNat_ushiftRight,
      Nat.shiftRight_eq_div_pow]
    have mask : pos.toNat / 2 ^ 8 &&& (0xFF : BitVec 16).toNat = pos.toNat / 2 ^ 8 % 2 ^ 8 :=
      Nat.and_two_pow_sub_one_eq_mod (pos.toNat / 2 ^ 8) 8
    omega
  constructor
  · rw [cursor, registers, Function.update_self, Function.update_of_ne (by decide),
      Function.update_self, low, high]
    omega
  · intro r notHigh notLow
    rw [registers, Function.update_of_ne notHigh, Function.update_of_ne notLow]

end Crtc

namespace Terminal

/-- The cell where the next character goes. -/
def cursorCell (t : Terminal) : ℕ := t.row * vgaWidth + t.column

theorem cursorCell_lt (t : Terminal) : t.cursorCell < vgaHeight * vgaWidth := by
  have row := t.row_lt
  have column := t.column_lt
  unfold cursorCell
  unfold vgaHeight at row ⊢
  unfold vgaWidth at column ⊢
  omega

theorem updateCursor_ports (t : Terminal) :
    t.updateCursor.ports = t.ports ++ Crtc.cursorPorts (BitVec.ofNat 16 t.cursorCell) := by
  simp [updateCursor, outb, Crtc.cursorPorts, cursorCell]

/-- The controller points at the cell where the next character goes, and nothing but the
cursor has been touched since `base`. -/
structure Tracked (s : Crtc) (base : List (BitVec 16 × Byte)) (t : Terminal) : Prop where
  cursor : (s.after t.ports).cursor = t.cursorCell
  others : ∀ r, r ≠ 0x0E → r ≠ 0x0F →
    (s.after t.ports).registers r = (s.after base).registers r

variable {s : Crtc} {base : List (BitVec 16 × Byte)}

theorem tracked_updateCursor {t : Terminal}
    (others : ∀ r, r ≠ 0x0E → r ≠ 0x0F →
      (s.after t.ports).registers r = (s.after base).registers r) :
    Tracked s base t.updateCursor := by
  have moved := (s.after t.ports).after_cursorPorts (BitVec.ofNat 16 t.cursorCell)
  rw [← Crtc.after_append, ← updateCursor_ports] at moved
  have small := t.cursorCell_lt
  have value : (BitVec.ofNat 16 t.cursorCell).toNat = t.cursorCell := by
    rw [BitVec.toNat_ofNat]
    unfold vgaHeight vgaWidth at small
    omega
  refine ⟨moved.1.trans value, fun r high low => ?_⟩
  rw [moved.2 r high low, others r high low]

theorem Tracked.putchar {t : Terminal} (tracked : Tracked s base t) (c : Byte) :
    Tracked s base (t.putchar c) := by
  have sent : ∀ u : Terminal, u.ports = (t.serialWriteChar c).ports →
      Tracked s base u.updateCursor := by
    intro u same
    refine tracked_updateCursor fun r high low => ?_
    have ports : (t.serialWriteChar c).ports = t.ports ++ [(0x3F8, c)] := rfl
    rw [same, ports, Crtc.after_append, Crtc.after_serial]
    exact tracked.others r high low
  unfold Terminal.putchar
  dsimp only
  split_ifs
  · exact sent _ (retreat_ports _)
  · exact sent _ (newline_ports _)
  · exact sent _ (advance_ports _)

theorem Tracked.run {t : Terminal} (tracked : Tracked s base t) (calls : List TerminalCall) :
    Tracked s base (calls.foldl Terminal.perform t) := by
  induction calls generalizing t with
  | nil => exact tracked
  | cons call calls ih =>
      refine ih ?_
      cases call with
      | putchar c => exact tracked.putchar c
      | setcolor color => exact ⟨tracked.cursor, tracked.others⟩

/-- Whatever is written, backspaces and scrolled rows included, the hardware cursor stands
on the cell where the next character goes, and no other register of the controller has
changed since before `terminal_initialize`. -/
theorem cursor_tracked (s : Crtc) (t : Terminal) (calls : List TerminalCall) :
    Tracked s t.ports (calls.foldl Terminal.perform t.terminalInitialize) :=
  (tracked_updateCursor fun _ _ _ => rfl : Tracked s t.ports t.terminalInitialize).run calls

end Terminal

end OrbitOs.Drivers
