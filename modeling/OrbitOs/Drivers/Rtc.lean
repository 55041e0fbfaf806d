import OrbitOs.Base.Calendar
import OrbitOs.Base.Resumption
import OrbitOs.Machine.Memory

/-!
# The real-time clock: the chip and drivers/rtc.c

The chip counts seconds of the calendar and shows the moment in its registers, in
the format that register B selects.  The driver is a program of port accesses; the
clock ticks any number of times before each of them.
-/

set_option autoImplicit false

namespace OrbitOs.Drivers.Rtc

open OrbitOs.Machine OrbitOs.Base OrbitOs.Base.Calendar

/-! ## The chip -/

/-- Bit 2 of register B: binary instead of BCD. -/
def binary (registerB : Byte) : Bool := registerB.getLsbD 2

/-- Bit 1 of register B: 24-hour mode. -/
def hours24 (registerB : Byte) : Bool := registerB.getLsbD 1

/-- A number below 100 as a register holds it. -/
def encode (registerB : Byte) (v : ℕ) : Byte :=
  BitVec.ofNat 8 (if binary registerB then v else v / 10 * 16 + v % 10)

/-- In 12-hour mode the hours run from 1 to 12 and bit 7 means PM. -/
def encodeHour (registerB : Byte) (hour : ℕ) : Byte :=
  if hours24 registerB then encode registerB hour
  else encode registerB (if hour % 12 = 0 then 12 else hour % 12) |||
    (if 12 ≤ hour then 0x80 else 0)

/-- What the registers show at a moment; without a century register 0x32 reads 0. -/
def registers (registerB : Byte) (hasCentury : Bool) (t : Moment) (reg : Byte) : Byte :=
  if reg = 0x00 then encode registerB t.second
  else if reg = 0x02 then encode registerB t.minute
  else if reg = 0x04 then encodeHour registerB t.hour
  else if reg = 0x07 then encode registerB t.date.day
  else if reg = 0x08 then encode registerB t.date.month
  else if reg = 0x09 then encode registerB (t.date.year % 100)
  else if reg = 0x32 then (if hasCentury then encode registerB (t.date.year / 100 % 100) else 0)
  else if reg = 0x0B then registerB
  else 0xFF

inductive Op
  | outb (port : BitVec 16) (val : Byte)
  | inb (port : BitVec 16)

abbrev Op.Res : Op → Type
  | .outb _ _ => Unit
  | .inb _ => Byte

/-- A clock and what happens around the accesses of one run. -/
structure Chip where
  start : Moment
  registerB : Byte
  hasCentury : Bool
  /-- The ticks that come right before the access of this number. -/
  ticks : ℕ → ℕ
  /-- Register A at the access of this number. -/
  registerA : ℕ → Byte

def Chip.registersAt (chip : Chip) (now : ℕ) : Byte → Byte :=
  registers chip.registerB chip.hasCentury (chip.start.after now)

structure State where
  /-- The register that port 0x70 has selected. -/
  index : Byte
  /-- The ticks since the start. -/
  now : ℕ
  accesses : ℕ
  /-- The register reads so far, each with its instant. -/
  log : List (Byte × ℕ)

def Chip.access (chip : Chip) : (o : Op) → State → o.Res × State
  | .outb port val, s =>
    let now := s.now + chip.ticks s.accesses
    ((), { s with
      index := if port = 0x70 then val else s.index, now, accesses := s.accesses + 1 })
  | .inb port, s =>
    let now := s.now + chip.ticks s.accesses
    let val :=
      if port ≠ 0x71 then 0xFF
      else if s.index = 0x0A then chip.registerA s.accesses
      else chip.registersAt now s.index
    (val, { s with
      now, accesses := s.accesses + 1
      log := if port = 0x71 then s.log ++ [(s.index, now)] else s.log })

/-! ## The source -/

abbrev Code := Resumption Op.Res

def outb (port : BitVec 16) (val : Byte) : Code Unit := Resumption.op (Op.outb port val)

def inb (port : BitVec 16) : Code Byte := Resumption.op (Op.inb port)

def cmosAddress : BitVec 16 := 0x70
def cmosData : BitVec 16 := 0x71

def getUpdateInProgressFlag : Code Byte := do
  outb cmosAddress 0x0A
  let a ← inb cmosData
  return a &&& 0x80

def getRtcRegister (reg : Byte) : Code Byte := do
  outb cmosAddress reg
  inb cmosData

structure RtcTime where
  second : Byte
  minute : Byte
  hour : Byte
  day : Byte
  month : Byte
  year : BitVec 16
  deriving DecidableEq, Repr

/-- `while (get_update_in_progress_flag());` -/
def waitForUpdate : ℕ → Code (Option Unit)
  | 0 => pure none
  | fuel + 1 => do
    let flag ← getUpdateInProgressFlag
    if flag ≠ 0 then waitForUpdate fuel else pure (some ())

/-- The seven reads of one pass, with the century. -/
def readPass : Code (RtcTime × Byte) := do
  let second ← getRtcRegister 0x00
  let minute ← getRtcRegister 0x02
  let hour ← getRtcRegister 0x04
  let day ← getRtcRegister 0x07
  let month ← getRtcRegister 0x08
  let year ← getRtcRegister 0x09
  let century ← getRtcRegister 0x32
  return (⟨second, minute, hour, day, month, year.setWidth 16⟩, century)

/-- The condition of the `do … while`; `last_year` is a byte. -/
def differ (last : RtcTime) (lastCentury : Byte) (time : RtcTime) (century : Byte) : Bool :=
  let lastYear : Byte := last.year.setWidth 8
  last.second != time.second || last.minute != time.minute || last.hour != time.hour ||
    last.day != time.day || last.month != time.month || lastYear.setWidth 16 != time.year ||
    lastCentury != century

/-- `do { … } while (…)`, entered with the values of the pass before. -/
def rereadLoop : ℕ → RtcTime → Byte → Code (Option (RtcTime × Byte))
  | 0, _, _ => pure none
  | fuel + 1, last, lastCentury => do
    let waited ← waitForUpdate fuel
    if waited = none then pure none
    else
      let (time, century) ← readPass
      if differ last lastCentury time century then rereadLoop fuel time century
      else pure (some (time, century))

/-- `rtc_get_time` up to the end of its loop. -/
def readTime (fuel : ℕ) : Code (Option (RtcTime × Byte)) := do
  let waited ← waitForUpdate fuel
  if waited = none then pure none
  else
    let (time, century) ← readPass
    rereadLoop fuel time century

/-- `(x & 0x0F) + ((x / 16) * 10)` -/
def fromBcd {w : ℕ} (x : BitVec w) : BitVec w := (x &&& 0x0F) + x / 16 * 10

/-- The hour keeps bit 7 apart. -/
def hourFromBcd (hour : Byte) : Byte :=
  ((hour &&& 0x0F) + (hour &&& 0x70) / 16 * 10) ||| (hour &&& 0x80)

/-- `if (!(registerB & 0x04)) { … }` -/
def decodeBcd (registerB : Byte) (time : RtcTime) (century : Byte) : RtcTime × Byte :=
  if registerB &&& 0x04 = 0 then
    ({ second := fromBcd time.second
       minute := fromBcd time.minute
       hour := hourFromBcd time.hour
       day := fromBcd time.day
       month := fromBcd time.month
       year := fromBcd time.year }, fromBcd century)
  else (time, century)

/-- `if (!(registerB & 0x02) && (time->hour & 0x80)) { … }` -/
def adjustHour (registerB : Byte) (time : RtcTime) : RtcTime :=
  if registerB &&& 0x02 = 0 ∧ time.hour &&& 0x80 ≠ 0 then
    { time with hour := ((time.hour &&& 0x7F) + 12) % 24 }
  else time

/-- "Fix year" -/
def fixYear (time : RtcTime) (century : Byte) : RtcTime :=
  if century ≠ 0 then { time with year := time.year + century.setWidth 16 * 100 }
  else { time with year := time.year + (if 69 < time.year then 1900 else 2000) }

/-- The conversion at the end of `rtc_get_time`. -/
def convert (registerB : Byte) (time : RtcTime) (century : Byte) : RtcTime :=
  let (time, century) := decodeBcd registerB time century
  fixYear (adjustHour registerB time) century

def rtcGetTime (fuel : ℕ) : Code (Option RtcTime) := do
  let read ← readTime fuel
  match read with
  | none => pure none
  | some (time, century) =>
    let registerB ← getRtcRegister 0x0B
    return some (convert registerB time century)

end OrbitOs.Drivers.Rtc
