import OrbitOs.Drivers.RtcReading

/-!
# Decoding the clock's registers

Every field comes back from its register, in BCD and in binary, except that in
12-hour mode the hours 0 and 12 come back exchanged: the chip writes them as 12,
and the driver adds twelve to a PM hour and leaves an AM hour as it is.
-/

set_option autoImplicit false

namespace OrbitOs.Drivers.Rtc

open OrbitOs.Machine OrbitOs.Base OrbitOs.Base.Calendar

/-- The moment as `rtc_get_time` should store it. -/
def stored (t : Moment) : RtcTime where
  second := BitVec.ofNat 8 t.second
  minute := BitVec.ofNat 8 t.minute
  hour := BitVec.ofNat 8 t.hour
  day := BitVec.ofNat 8 t.date.day
  month := BitVec.ofNat 8 t.date.month
  year := BitVec.ofNat 16 t.date.year

/-! ## The conversion field by field -/

/-- A byte field, out of BCD if register B says so. -/
def field {w : ℕ} (registerB : Byte) (x : BitVec w) : BitVec w :=
  if registerB &&& 0x04 = 0 then fromBcd x else x

def hourField (registerB hour : Byte) : Byte :=
  let hour := if registerB &&& 0x04 = 0 then hourFromBcd hour else hour
  if registerB &&& 0x02 = 0 ∧ hour &&& 0x80 ≠ 0 then ((hour &&& 0x7F) + 12) % 24 else hour

def yearField (registerB : Byte) (year : BitVec 16) (century : Byte) : BitVec 16 :=
  field registerB year +
    if field registerB century ≠ 0 then (field registerB century).setWidth 16 * 100
    else if 69 < field registerB year then 1900 else 2000

theorem adjustHour_eq (registerB : Byte) (time : RtcTime) :
    adjustHour registerB time = { time with
      hour := if registerB &&& 0x02 = 0 ∧ time.hour &&& 0x80 ≠ 0 then
        ((time.hour &&& 0x7F) + 12) % 24 else time.hour } := by
  unfold adjustHour
  by_cases pm : registerB &&& 0x02 = 0 ∧ time.hour &&& 0x80 ≠ 0
  · rw [if_pos pm, if_pos pm]
  · rw [if_neg pm, if_neg pm]

theorem fixYear_eq (time : RtcTime) (century : Byte) :
    fixYear time century = { time with
      year := time.year + if century ≠ 0 then century.setWidth 16 * 100
        else if 69 < time.year then 1900 else 2000 } := by
  unfold fixYear
  by_cases held : century ≠ 0
  · rw [if_pos held, if_pos held]
  · rw [if_neg held, if_neg held]

theorem convert_eq (registerB : Byte) (time : RtcTime) (century : Byte) :
    convert registerB time century =
      { second := field registerB time.second
        minute := field registerB time.minute
        hour := hourField registerB time.hour
        day := field registerB time.day
        month := field registerB time.month
        year := yearField registerB time.year century } := by
  unfold convert decodeBcd hourField yearField field
  by_cases bcd : registerB &&& 0x04 = 0
  · simp only [if_pos bcd]
    rw [fixYear_eq, adjustHour_eq]
  · simp only [if_neg bcd]
    rw [fixYear_eq, adjustHour_eq]

theorem binary_iff (registerB : Byte) : binary registerB = false ↔ registerB &&& 0x04 = 0 := by
  revert registerB
  decide

theorem hours24_iff (registerB : Byte) : hours24 registerB = false ↔ registerB &&& 0x02 = 0 := by
  revert registerB
  decide

theorem fromBcd_digits : ∀ v < 100,
    fromBcd (BitVec.ofNat 8 (v / 10 * 16 + v % 10)) = BitVec.ofNat 8 v := by
  decide

theorem fromBcd_digits16 : ∀ v < 100,
    fromBcd ((BitVec.ofNat 8 (v / 10 * 16 + v % 10)).setWidth 16) = BitVec.ofNat 16 v := by
  decide

section Fields

variable (registerB : Byte)

theorem field_encode {v : ℕ} (small : v < 100) :
    field registerB (encode registerB v) = BitVec.ofNat 8 v := by
  unfold field encode
  by_cases format : binary registerB
  · rw [if_pos format, if_neg]
    rw [← binary_iff, format]
    exact Bool.noConfusion
  · rw [if_neg format, if_pos ((binary_iff registerB).mp (Bool.eq_false_of_not_eq_true format))]
    exact fromBcd_digits v small

theorem field_encode16 {v : ℕ} (small : v < 100) :
    field registerB ((encode registerB v).setWidth 16) = BitVec.ofNat 16 v := by
  unfold field encode
  by_cases format : binary registerB
  · rw [if_pos format, if_neg]
    · apply BitVec.eq_of_toNat_eq
      simp only [BitVec.toNat_setWidth, BitVec.toNat_ofNat]
      omega
    · rw [← binary_iff, format]
      exact Bool.noConfusion
  · rw [if_neg format, if_pos ((binary_iff registerB).mp (Bool.eq_false_of_not_eq_true format))]
    exact fromBcd_digits16 v small

theorem field_zero : field registerB (0 : Byte) = 0 := by
  unfold field
  split
  · rfl
  · rfl

/-- A year from the century register. -/
theorem yearField_century {year : ℕ} (lower : 100 ≤ year) (upper : year ≤ 9999) :
    yearField registerB ((encode registerB (year % 100)).setWidth 16)
      (encode registerB (year / 100 % 100)) = BitVec.ofNat 16 year := by
  have held : BitVec.ofNat 8 (year / 100 % 100) ≠ 0 := by
    intro zero
    have value := congrArg BitVec.toNat zero
    rw [BitVec.toNat_ofNat] at value
    change _ = 0 at value
    omega
  rw [yearField, field_encode16 registerB (Nat.mod_lt _ (by omega)),
    field_encode registerB (Nat.mod_lt _ (by omega)), if_pos held]
  apply BitVec.eq_of_toNat_eq
  simp only [BitVec.toNat_add, BitVec.toNat_mul, BitVec.toNat_setWidth, BitVec.ofNat_eq_ofNat,
    BitVec.toNat_ofNat]
  have split : year % 100 + year / 100 * 100 = year := by omega
  have hundreds : year / 100 < 100 := by omega
  rw [Nat.mod_eq_of_lt hundreds, Nat.mod_eq_of_lt (by omega : year / 100 < 2 ^ 8),
    Nat.mod_eq_of_lt (by omega : year / 100 < 2 ^ 16), Nat.mod_eq_of_lt (by omega : 100 < 2 ^ 16)]
  omega

/-- A year without one. -/
theorem yearField_guessed {year : ℕ} (lower : 1970 ≤ year) (upper : year ≤ 2069) :
    yearField registerB ((encode registerB (year % 100)).setWidth 16) 0 =
      BitVec.ofNat 16 year := by
  have boundary : (69 : BitVec 16) < BitVec.ofNat 16 (year % 100) ↔ 69 < year % 100 := by
    simp only [BitVec.lt_def, BitVec.ofNat_eq_ofNat, BitVec.toNat_ofNat]
    omega
  rw [yearField, field_encode16 registerB (Nat.mod_lt _ (by omega)), field_zero,
    if_neg (not_not.mpr rfl)]
  apply BitVec.eq_of_toNat_eq
  by_cases last : 69 < year % 100
  · rw [if_pos (boundary.mpr last)]
    simp only [BitVec.toNat_add, BitVec.ofNat_eq_ofNat, BitVec.toNat_ofNat]
    omega
  · rw [if_neg fun more => last (boundary.mp more)]
    simp only [BitVec.toNat_add, BitVec.ofNat_eq_ofNat, BitVec.toNat_ofNat]
    omega

end Fields

/-! ## The hour -/

/-- The hour that is stored in 12-hour mode. -/
def hour12 (hour : ℕ) : ℕ := if hour = 0 then 12 else if hour = 12 then 0 else hour

/-- The format bits of register B alone. -/
def formatBits (binary hours24 : Bool) : Byte :=
  (if binary then 0x04 else 0) ||| (if hours24 then 0x02 else 0)

theorem formatBits_self (registerB : Byte) :
    binary (formatBits (binary registerB) (hours24 registerB)) = binary registerB ∧
      hours24 (formatBits (binary registerB) (hours24 registerB)) = hours24 registerB := by
  generalize binary registerB = p
  generalize hours24 registerB = q
  revert p q
  decide

theorem encodeHour_congr {b c : Byte} (sameBinary : binary b = binary c)
    (sameHours : hours24 b = hours24 c) (hour : ℕ) : encodeHour b hour = encodeHour c hour := by
  unfold encodeHour encode
  rw [sameBinary, sameHours]

theorem hourField_congr {b c : Byte} (sameBinary : binary b = binary c)
    (sameHours : hours24 b = hours24 c) (hour : Byte) : hourField b hour = hourField c hour := by
  have bcd : b &&& 0x04 = 0 ↔ c &&& 0x04 = 0 := by rw [← binary_iff, ← binary_iff, sameBinary]
  have half : b &&& 0x02 = 0 ↔ c &&& 0x02 = 0 := by
    rw [← hours24_iff, ← hours24_iff, sameHours]
  simp only [hourField, bcd, half]

theorem hourField_table : ∀ binary hours24 : Bool, ∀ hour < 24,
    hourField (formatBits binary hours24) (encodeHour (formatBits binary hours24) hour) =
      BitVec.ofNat 8 (if hours24 then hour else hour12 hour) := by
  decide

theorem hourField_encode (registerB : Byte) {hour : ℕ} (small : hour < 24) :
    hourField registerB (encodeHour registerB hour) =
      BitVec.ofNat 8 (if hours24 registerB then hour else hour12 hour) := by
  obtain ⟨sameBinary, sameHours⟩ := formatBits_self registerB
  rw [← hourField_congr sameBinary sameHours, ← encodeHour_congr sameBinary sameHours]
  exact hourField_table (binary registerB) (hours24 registerB) hour small

/-! ## The whole record -/

/-- A year that the registers can hold. -/
def YearFits (hasCentury : Bool) (year : ℕ) : Prop :=
  if hasCentury then 100 ≤ year ∧ year ≤ 9999 else 1970 ≤ year ∧ year ≤ 2069

/-- Everything but the hour comes back, and the hour in 12-hour mode as `hour12` says. -/
theorem convert_shown (chip : Chip) {i : ℕ}
    (fits : YearFits chip.hasCentury (chip.start.after i).date.year) :
    convert chip.registerB (chip.shown i).1 (chip.shown i).2 =
      { stored (chip.start.after i) with
        hour := BitVec.ofNat 8 (if hours24 chip.registerB then (chip.start.after i).hour
          else hour12 (chip.start.after i).hour) } := by
  obtain ⟨start, registerB, hasCentury, ticks, registerA⟩ := chip
  dsimp only at fits ⊢
  have second := (start.after i).second_lt
  have minute := (start.after i).minute_lt
  have day := (start.after i).date.day_small
  have month := (start.after i).date.month_le
  have hour := hourField_encode registerB (start.after i).hour_lt
  have year : yearField registerB
      ((encode registerB ((start.after i).date.year % 100)).setWidth 16)
      (if hasCentury then encode registerB ((start.after i).date.year / 100 % 100) else 0) =
        BitVec.ofNat 16 (start.after i).date.year := by
    cases hasCentury with
    | true => exact yearField_century registerB fits.1 fits.2
    | false => exact yearField_guessed registerB fits.1 fits.2
  rw [convert_eq]
  change RtcTime.mk (field registerB (encode registerB (start.after i).second))
    (field registerB (encode registerB (start.after i).minute))
    (hourField registerB (encodeHour registerB (start.after i).hour))
    (field registerB (encode registerB (start.after i).date.day))
    (field registerB (encode registerB (start.after i).date.month))
    (yearField registerB ((encode registerB ((start.after i).date.year % 100)).setWidth 16)
      (if hasCentury then encode registerB ((start.after i).date.year / 100 % 100) else 0)) = _
  rw [field_encode registerB (by omega), field_encode registerB (by omega), hour,
    field_encode registerB (by omega), field_encode registerB (by omega), year]
  rfl

theorem hour12_iff {hour : ℕ} (small : hour < 24) :
    BitVec.ofNat 8 (hour12 hour) = BitVec.ofNat 8 hour ↔ hour % 12 ≠ 0 := by
  revert hour
  decide

theorem convert_shown_iff (chip : Chip) {i : ℕ}
    (fits : YearFits chip.hasCentury (chip.start.after i).date.year) :
    convert chip.registerB (chip.shown i).1 (chip.shown i).2 = stored (chip.start.after i) ↔
      hours24 chip.registerB = true ∨ (chip.start.after i).hour % 12 ≠ 0 := by
  rw [convert_shown chip fits]
  have onlyHour (hour : Byte) : { stored (chip.start.after i) with hour := hour } =
      stored (chip.start.after i) ↔ hour = BitVec.ofNat 8 (chip.start.after i).hour := by
    constructor
    · intro same
      exact congrArg RtcTime.hour same
    · rintro rfl
      rfl
  rw [onlyHour]
  by_cases mode : hours24 chip.registerB = true
  · rw [if_pos mode]
    exact iff_of_true rfl (Or.inl mode)
  · rw [if_neg mode, hour12_iff (chip.start.after i).hour_lt]
    exact ⟨Or.inr, fun either => either.resolve_left mode⟩

/-! ## A clock that holds its moment during the call -/

section Still

variable {chip : Chip} (still : ∀ access, chip.ticks access = 0)

include still

theorem run_now {α : Type} (p : Code α) (s : State) :
    (Resumption.run chip.access p s).2.now = s.now := by
  induction p generalizing s with
  | done a => rfl
  | step o next ih =>
      rw [Resumption.run, ih]
      cases o with
      | outb port val => exact congrArg (s.now + ·) (still s.accesses)
      | inb port => exact congrArg (s.now + ·) (still s.accesses)

theorem readPass_still (s : State) :
    (Resumption.run chip.access readPass s).1 = chip.shown s.now ∧
      (Resumption.run chip.access readPass s).2.now = s.now := by
  obtain ⟨lo, hi, order, pass, now, _⟩ := readPass_run chip s
  have ordered := pass.order
  have finish := run_now still readPass s
  obtain rfl : lo = s.now := by omega
  obtain rfl : hi = s.now := by omega
  exact ⟨pass.at_once, finish⟩

theorem readTime_still {fuel : ℕ} {s : State} {read : RtcTime × Byte}
    (returns : (Resumption.run chip.access (readTime fuel) s).1 = some read) :
    read = chip.shown s.now := by
  obtain ⟨m, n, _, lower, order, upper, _, shown⟩ := readTime_run chip fuel s returns
  rw [run_now still] at upper
  obtain rfl : m = s.now := by omega
  exact shown (by omega)

theorem rtcGetTime_still_iff {s : State}
    (fits : YearFits chip.hasCentury (chip.start.after s.now).date.year) {fuel : ℕ}
    {time : RtcTime} (returns : (Resumption.run chip.access (rtcGetTime fuel) s).1 = some time) :
    time = stored (chip.start.after s.now) ↔
      hours24 chip.registerB = true ∨ (chip.start.after s.now).hour % 12 ≠ 0 := by
  obtain ⟨raw, century, read, result, _⟩ := rtcGetTime_run chip fuel s returns
  have shown := readTime_still still read
  rw [result, ← convert_shown_iff chip fits, ← shown]

variable (idle : ∀ access, chip.registerA access &&& 0x80 = 0)

omit still in
include idle in
theorem waitForUpdate_idle (fuel : ℕ) (s : State) :
    (Resumption.run chip.access (waitForUpdate (fuel + 1)) s).1 = some () := by
  have flag : (Resumption.run chip.access getUpdateInProgressFlag s).1 = 0 :=
    idle (s.accesses + 1)
  rw [waitForUpdate, Resumption.run_bind', if_neg (not_not.mpr flag)]
  rfl

omit still in
theorem not_differ_shown (now : ℕ) :
    ¬ differ (chip.shown now).1 (chip.shown now).2 (chip.shown now).1 (chip.shown now).2 =
      true := by
  simp [differ, Chip.shown]

include idle in
theorem rereadLoop_still (fuel : ℕ) (s : State) :
    (Resumption.run chip.access
      (rereadLoop (fuel + 2) (chip.shown s.now).1 (chip.shown s.now).2) s).1 =
        some (chip.shown s.now) := by
  have waited := waitForUpdate_idle idle fuel s
  have step := rereadLoop_step chip (fuel + 1) (chip.shown s.now).1 (chip.shown s.now).2 s
    (by rw [waited]; exact Option.some_ne_none _) rfl
  have now := run_now still (waitForUpdate (fuel + 1)) s
  have pass := (readPass_still still (Resumption.run chip.access (waitForUpdate (fuel + 1)) s).2).1
  rw [step, pass, now, if_neg (not_differ_shown s.now)]

include idle in
theorem readTime_returns (fuel : ℕ) (s : State) :
    (Resumption.run chip.access (readTime (fuel + 2)) s).1 = some (chip.shown s.now) := by
  have waited := waitForUpdate_idle idle (fuel + 1) s
  have waitNow := run_now still (waitForUpdate (fuel + 2)) s
  rw [readTime, Resumption.run_bind', if_neg (by rw [waited]; exact Option.some_ne_none _),
    Resumption.run_bind']
  generalize (Resumption.run chip.access (waitForUpdate (fuel + 2)) s).2 = ready at waitNow ⊢
  obtain ⟨shown, passNow⟩ := readPass_still still ready
  have loop := rereadLoop_still still idle fuel (Resumption.run chip.access readPass ready).2
  rw [passNow, waitNow] at loop
  rw [waitNow] at shown
  rw [shown]
  exact loop

include idle in
theorem rtcGetTime_returns (fuel : ℕ) (s : State) :
    ∃ time, (Resumption.run chip.access (rtcGetTime (fuel + 2)) s).1 = some time := by
  have read := readTime_returns still idle fuel s
  rw [rtcGetTime, Resumption.run_bind', read]
  exact ⟨_, rfl⟩

end Still

/-- On a clock that holds its moment during the call, `rtc_get_time` stores that moment
exactly in 24-hour mode and at every hour but 0 and 12; it returns if no update is in
progress. -/
theorem rtcGetTime_stores_iff (chip : Chip) (still : ∀ access, chip.ticks access = 0) (s : State)
    (fits : YearFits chip.hasCentury (chip.start.after s.now).date.year) :
    (∀ fuel time, (Resumption.run chip.access (rtcGetTime fuel) s).1 = some time →
      (time = stored (chip.start.after s.now) ↔
        hours24 chip.registerB = true ∨ (chip.start.after s.now).hour % 12 ≠ 0)) ∧
    ((∀ access, chip.registerA access &&& 0x80 = 0) → ∀ fuel, 2 ≤ fuel →
      ∃ time, (Resumption.run chip.access (rtcGetTime fuel) s).1 = some time) := by
  refine ⟨fun fuel time returns => rtcGetTime_still_iff still fits returns, ?_⟩
  intro idle fuel enough
  obtain ⟨rest, rfl⟩ : ∃ rest, fuel = rest + 2 := ⟨fuel - 2, by omega⟩
  exact rtcGetTime_returns still idle rest s

/-- A clock that stands at an hour of New Year's Eve. -/
def standing (registerB : Byte) (hour : ℕ) (small : hour < 24) : Chip :=
  { newYear with
    start := { newYear.start with hour := hour, hour_lt := small }
    registerB := registerB
    ticks := fun _ => 0
    registerA := fun _ => 0 }

theorem rtcGetTime_stores_iff_afternoon :
    (∀ fuel time, (Resumption.run (standing 0 17 (by decide)).access (rtcGetTime fuel) begin).1 =
        some time →
      (time = stored (standing 0 17 (by decide)).start ↔ hours24 0 = true ∨ 17 % 12 ≠ 0)) ∧
    ((∀ _ : ℕ, (0 : Byte) &&& 0x80 = 0) → ∀ fuel, 2 ≤ fuel →
      ∃ time, (Resumption.run (standing 0 17 (by decide)).access (rtcGetTime fuel) begin).1 =
        some time) :=
  rtcGetTime_stores_iff (standing 0 17 (by decide)) (fun _ => rfl) begin ⟨by decide, by decide⟩

/-- The hour after midnight, 12 AM on the chip, is stored as the hour after noon. -/
theorem rtcGetTime_midnight :
    (Resumption.run (standing 0 0 (by decide)).access (rtcGetTime 2) begin).1 =
        some ⟨59, 59, 12, 31, 12, 2025⟩ ∧
      stored (standing 0 0 (by decide)).start = ⟨59, 59, 0, 31, 12, 2025⟩ := by
  decide

end OrbitOs.Drivers.Rtc
