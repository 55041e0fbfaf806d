import OrbitOs.Drivers.Rtc

/-!
# The double read of `rtc_get_time`

A pass reads its seven registers at instants that never go back.  Two passes that
agree in the seconds have read them at one instant, when less than a minute lies
between, and then the whole first pass happened at that instant.
-/

set_option autoImplicit false

namespace OrbitOs.Drivers.Rtc

open OrbitOs.Machine OrbitOs.Base OrbitOs.Base.Calendar

/-! ## Seconds in a register -/

theorem encode_inj {registerB : Byte} {v w : ℕ} (smallV : v < 100) (smallW : w < 100)
    (same : encode registerB v = encode registerB w) : v = w := by
  unfold encode at same
  have values := congrArg BitVec.toNat same
  simp only [BitVec.toNat_ofNat] at values
  by_cases format : binary registerB
  · simp only [if_pos format] at values
    omega
  · simp only [if_neg format] at values
    omega

theorem Chip.registersAt_second (chip : Chip) (now : ℕ) :
    chip.registersAt now 0x00 = encode chip.registerB (chip.start.after now).second := rfl

theorem Chip.second_inj (chip : Chip) {m n : ℕ} (order : m ≤ n) (close : n < m + 60)
    (same : chip.registersAt m 0x00 = chip.registersAt n 0x00) : m = n := by
  have boundM := (chip.start.after m).second_lt
  have boundN := (chip.start.after n).second_lt
  rw [chip.registersAt_second, chip.registersAt_second] at same
  exact chip.start.after_second_inj order close (encode_inj (by omega) (by omega) same)

/-! ## Reads -/

/-- The instants at which the seconds register was read. -/
def secondsReads (log : List (Byte × ℕ)) : List ℕ :=
  (log.filter fun read => read.1 = 0x00).map Prod.snd

theorem secondsReads_append (log more : List (Byte × ℕ)) :
    secondsReads (log ++ more) = secondsReads log ++ secondsReads more := by
  simp [secondsReads]

section Run

variable (chip : Chip)

theorem getRtcRegister_run {reg : Byte} (plain : reg ≠ 0x0A) (s : State) :
    ∃ i, s.now ≤ i ∧ (Resumption.run chip.access (getRtcRegister reg) s).2.now = i ∧
      (Resumption.run chip.access (getRtcRegister reg) s).2.log = s.log ++ [(reg, i)] ∧
      (Resumption.run chip.access (getRtcRegister reg) s).1 = chip.registersAt i reg := by
  refine ⟨s.now + chip.ticks s.accesses + chip.ticks (s.accesses + 1), by omega, rfl, rfl, ?_⟩
  change (if (0x71 : BitVec 16) ≠ 0x71 then 0xFF
    else if reg = 0x0A then chip.registerA (s.accesses + 1)
    else chip.registersAt _ reg) = _
  rw [if_neg (not_not.mpr rfl), if_neg plain]
  rfl

theorem getUpdateInProgressFlag_run (s : State) :
    s.now ≤ (Resumption.run chip.access getUpdateInProgressFlag s).2.now ∧
      secondsReads (Resumption.run chip.access getUpdateInProgressFlag s).2.log =
        secondsReads s.log := by
  constructor
  · change s.now ≤ s.now + chip.ticks s.accesses + chip.ticks (s.accesses + 1)
    omega
  · change secondsReads (s.log ++ [(0x0A, _)]) = secondsReads s.log
    rw [secondsReads_append]
    exact List.append_nil _

theorem waitForUpdate_run (fuel : ℕ) (s : State) :
    s.now ≤ (Resumption.run chip.access (waitForUpdate fuel) s).2.now ∧
      secondsReads (Resumption.run chip.access (waitForUpdate fuel) s).2.log =
        secondsReads s.log := by
  induction fuel generalizing s with
  | zero => exact ⟨Nat.le_refl _, rfl⟩
  | succ fuel ih =>
      obtain ⟨flagNow, flagLog⟩ := getUpdateInProgressFlag_run chip s
      rw [waitForUpdate, Resumption.run_bind']
      by_cases flag : (Resumption.run chip.access getUpdateInProgressFlag s).1 ≠ 0
      · obtain ⟨restNow, restLog⟩ :=
          ih (Resumption.run chip.access getUpdateInProgressFlag s).2
        rw [if_pos flag]
        exact ⟨Nat.le_trans flagNow restNow, restLog.trans flagLog⟩
      · rw [if_neg flag]
        exact ⟨flagNow, flagLog⟩

end Run

/-! ## Passes -/

/-- What the seven registers show at one instant. -/
def Chip.shown (chip : Chip) (i : ℕ) : RtcTime × Byte :=
  (⟨chip.registersAt i 0x00, chip.registersAt i 0x02, chip.registersAt i 0x04,
    chip.registersAt i 0x07, chip.registersAt i 0x08, (chip.registersAt i 0x09).setWidth 16⟩,
    chip.registersAt i 0x32)

/-- Values read by one pass, the seconds at `lo` and the century at `hi`. -/
def Pass (chip : Chip) (read : RtcTime × Byte) (lo hi : ℕ) : Prop :=
  ∃ i2 i3 i4 i5 i6, lo ≤ i2 ∧ i2 ≤ i3 ∧ i3 ≤ i4 ∧ i4 ≤ i5 ∧ i5 ≤ i6 ∧ i6 ≤ hi ∧
    read = (⟨chip.registersAt lo 0x00, chip.registersAt i2 0x02, chip.registersAt i3 0x04,
      chip.registersAt i4 0x07, chip.registersAt i5 0x08,
      (chip.registersAt i6 0x09).setWidth 16⟩, chip.registersAt hi 0x32)

theorem Pass.order {chip : Chip} {read : RtcTime × Byte} {lo hi : ℕ}
    (pass : Pass chip read lo hi) : lo ≤ hi := by
  obtain ⟨i2, i3, i4, i5, i6, _⟩ := pass
  omega

/-- A pass without a tick shows one instant. -/
theorem Pass.at_once {chip : Chip} {read : RtcTime × Byte} {i : ℕ} (pass : Pass chip read i i) :
    read = chip.shown i := by
  obtain ⟨i2, i3, i4, i5, i6, h2, h3, h4, h5, h6, h7, value⟩ := pass
  obtain rfl : i2 = i := by omega
  obtain rfl : i3 = i2 := by omega
  obtain rfl : i4 = i3 := by omega
  obtain rfl : i5 = i4 := by omega
  obtain rfl : i6 = i5 := by omega
  exact value

theorem Pass.second {chip : Chip} {read : RtcTime × Byte} {lo hi : ℕ}
    (pass : Pass chip read lo hi) : read.1.second = chip.registersAt lo 0x00 := by
  obtain ⟨i2, i3, i4, i5, i6, _, _, _, _, _, _, rfl⟩ := pass
  rfl

theorem Pass.year {chip : Chip} {read : RtcTime × Byte} {lo hi : ℕ}
    (pass : Pass chip read lo hi) : (read.1.year.setWidth 8).setWidth 16 = read.1.year := by
  obtain ⟨i2, i3, i4, i5, i6, _, _, _, _, _, _, rfl⟩ := pass
  change (((chip.registersAt i6 0x09).setWidth 16).setWidth 8).setWidth 16 = _
  rw [BitVec.setWidth_setWidth_of_le (chip.registersAt i6 0x09) (by decide : 8 ≤ 16),
    BitVec.setWidth_eq]

/-- Two passes that agree within a minute show one instant, that of the first. -/
theorem Pass.agree {chip : Chip} {read again : RtcTime × Byte} {lo hi lo' hi' : ℕ}
    (first : Pass chip read lo hi) (second : Pass chip again lo' hi') (order : hi ≤ lo')
    (close : lo' < lo + 60) (same : again = read) : again = chip.shown lo := by
  have ordered := first.order
  have seconds : chip.registersAt lo 0x00 = chip.registersAt lo' 0x00 := by
    rw [← first.second, ← second.second, same]
  have together := chip.second_inj (by omega) close seconds
  obtain rfl : hi = lo := by omega
  rw [same]
  exact first.at_once

theorem readPass_run (chip : Chip) (s : State) :
    ∃ lo hi, s.now ≤ lo ∧ Pass chip (Resumption.run chip.access readPass s).1 lo hi ∧
      (Resumption.run chip.access readPass s).2.now = hi ∧
      secondsReads (Resumption.run chip.access readPass s).2.log =
        secondsReads s.log ++ [lo] := by
  simp only [readPass, Resumption.run_bind']
  obtain ⟨i1, h1, n1, l1, v1⟩ := @getRtcRegister_run chip 0x00 (by decide) s
  generalize Resumption.run chip.access (getRtcRegister 0x00) s = r1 at n1 l1 v1 ⊢
  obtain ⟨i2, h2, n2, l2, v2⟩ := @getRtcRegister_run chip 0x02 (by decide) r1.2
  generalize Resumption.run chip.access (getRtcRegister 0x02) r1.2 = r2 at n2 l2 v2 ⊢
  obtain ⟨i3, h3, n3, l3, v3⟩ := @getRtcRegister_run chip 0x04 (by decide) r2.2
  generalize Resumption.run chip.access (getRtcRegister 0x04) r2.2 = r3 at n3 l3 v3 ⊢
  obtain ⟨i4, h4, n4, l4, v4⟩ := @getRtcRegister_run chip 0x07 (by decide) r3.2
  generalize Resumption.run chip.access (getRtcRegister 0x07) r3.2 = r4 at n4 l4 v4 ⊢
  obtain ⟨i5, h5, n5, l5, v5⟩ := @getRtcRegister_run chip 0x08 (by decide) r4.2
  generalize Resumption.run chip.access (getRtcRegister 0x08) r4.2 = r5 at n5 l5 v5 ⊢
  obtain ⟨i6, h6, n6, l6, v6⟩ := @getRtcRegister_run chip 0x09 (by decide) r5.2
  generalize Resumption.run chip.access (getRtcRegister 0x09) r5.2 = r6 at n6 l6 v6 ⊢
  obtain ⟨i7, h7, n7, l7, v7⟩ := @getRtcRegister_run chip 0x32 (by decide) r6.2
  generalize Resumption.run chip.access (getRtcRegister 0x32) r6.2 = r7 at n7 l7 v7 ⊢
  rw [n1] at h2
  rw [n2] at h3
  rw [n3] at h4
  rw [n4] at h5
  rw [n5] at h6
  rw [n6] at h7
  refine ⟨i1, i7, h1, ⟨i2, i3, i4, i5, i6, h2, h3, h4, h5, h6, h7, ?_⟩, n7, ?_⟩
  · rw [← v1, ← v2, ← v3, ← v4, ← v5, ← v6, ← v7]
    rfl
  · change secondsReads r7.2.log = _
    rw [l7, l6, l5, l4, l3, l2, l1]
    simp [secondsReads]

/-! ## The loop -/

theorem eq_of_not_differ {last time : RtcTime} {lastCentury century : Byte}
    (year : (last.year.setWidth 8).setWidth 16 = last.year)
    (agree : ¬ differ last lastCentury time century = true) :
    (time, century) = (last, lastCentury) := by
  cases last
  cases time
  simp only [differ, Bool.or_eq_true, bne_iff_ne, not_or, not_not] at agree year
  obtain ⟨⟨⟨⟨⟨⟨rfl, rfl⟩, rfl⟩, rfl⟩, rfl⟩, years⟩, rfl⟩ := agree
  rw [year] at years
  rw [years]

section Loop

variable (chip : Chip) (fuel : ℕ) (last : RtcTime) (lastCentury : Byte) (s : State)

theorem rereadLoop_stuck
    (stuck : (Resumption.run chip.access (waitForUpdate fuel) s).1 = none) :
    (Resumption.run chip.access (rereadLoop (fuel + 1) last lastCentury) s).1 = none := by
  rw [rereadLoop, Resumption.run_bind', if_pos stuck]
  rfl

theorem rereadLoop_step
    (waited : (Resumption.run chip.access (waitForUpdate fuel) s).1 ≠ none) {again : State}
    (ready : (Resumption.run chip.access (waitForUpdate fuel) s).2 = again) :
    Resumption.run chip.access (rereadLoop (fuel + 1) last lastCentury) s =
      if differ last lastCentury (Resumption.run chip.access readPass again).1.1
          (Resumption.run chip.access readPass again).1.2
      then Resumption.run chip.access
        (rereadLoop fuel (Resumption.run chip.access readPass again).1.1
          (Resumption.run chip.access readPass again).1.2)
        (Resumption.run chip.access readPass again).2
      else (some (Resumption.run chip.access readPass again).1,
        (Resumption.run chip.access readPass again).2) := by
  rw [rereadLoop, Resumption.run_bind', if_neg waited, ready, Resumption.run_bind']
  generalize Resumption.run chip.access readPass again = next
  obtain ⟨⟨time, century⟩, after⟩ := next
  dsimp only
  by_cases more : differ last lastCentury time century
  · rw [if_pos more, if_pos more]
  · rw [if_neg more, if_neg more]
    rfl

end Loop

theorem rereadLoop_run (chip : Chip) (fuel : ℕ) {last : RtcTime} {lastCentury : Byte} {lo hi : ℕ}
    {s : State} {front : List ℕ} (pass : Pass chip (last, lastCentury) lo hi) (past : hi ≤ s.now)
    (reads : secondsReads s.log = front ++ [lo]) {read : RtcTime × Byte}
    (returns : (Resumption.run chip.access (rereadLoop fuel last lastCentury) s).1 = some read) :
    ∃ m n earlier, lo ≤ m ∧ m ≤ n ∧
      n ≤ (Resumption.run chip.access (rereadLoop fuel last lastCentury) s).2.now ∧
      secondsReads (Resumption.run chip.access (rereadLoop fuel last lastCentury) s).2.log =
        earlier ++ [m, n] ∧
      (n < m + 60 → read = chip.shown m) := by
  induction fuel generalizing last lastCentury lo hi s front with
  | zero => exact absurd returns.symm (Option.some_ne_none _)
  | succ fuel ih =>
      by_cases waited : (Resumption.run chip.access (waitForUpdate fuel) s).1 = none
      · rw [rereadLoop_stuck chip fuel last lastCentury s waited] at returns
        exact absurd returns.symm (Option.some_ne_none _)
      · obtain ⟨waitNow, waitLog⟩ := waitForUpdate_run chip fuel s
        generalize ready : (Resumption.run chip.access (waitForUpdate fuel) s).2 = again
          at waitNow waitLog
        have step := rereadLoop_step chip fuel last lastCentury s waited ready
        obtain ⟨m, n, order, second, now, log⟩ := readPass_run chip again
        generalize Resumption.run chip.access readPass again = next at step second now log
        rw [step] at returns ⊢
        rw [waitLog, reads] at log
        have ordered := pass.order
        have secondOrdered := second.order
        by_cases more : differ last lastCentury next.1.1 next.1.2
        · rw [if_pos more] at returns ⊢
          obtain ⟨m', n', earlier, lower, rest⟩ := ih second (Nat.le_of_eq now.symm) log returns
          exact ⟨m', n', earlier, by omega, rest⟩
        · rw [if_neg more] at returns ⊢
          refine ⟨lo, m, front, Nat.le_refl lo, by omega, now ▸ secondOrdered, ?_, fun close => ?_⟩
          · rw [log, List.append_assoc]
            rfl
          · have same := eq_of_not_differ pass.year more
            rw [← Option.some.inj returns]
            exact pass.agree second (by omega) close same

theorem readTime_run (chip : Chip) (fuel : ℕ) (s : State) {read : RtcTime × Byte}
    (returns : (Resumption.run chip.access (readTime fuel) s).1 = some read) :
    ∃ m n earlier, s.now ≤ m ∧ m ≤ n ∧
      n ≤ (Resumption.run chip.access (readTime fuel) s).2.now ∧
      secondsReads (Resumption.run chip.access (readTime fuel) s).2.log = earlier ++ [m, n] ∧
      (n < m + 60 → read = chip.shown m) := by
  rw [readTime, Resumption.run_bind'] at returns ⊢
  obtain ⟨waitNow, waitLog⟩ := waitForUpdate_run chip fuel s
  generalize Resumption.run chip.access (waitForUpdate fuel) s = waited
    at waitNow waitLog returns ⊢
  by_cases stuck : waited.1 = none
  · rw [if_pos stuck] at returns
    exact absurd returns.symm (Option.some_ne_none _)
  · rw [if_neg stuck, Resumption.run_bind'] at returns ⊢
    obtain ⟨lo, hi, order, pass, now, log⟩ := readPass_run chip waited.2
    generalize Resumption.run chip.access readPass waited.2 = first at pass now log returns ⊢
    obtain ⟨m, n, earlier, lower, rest⟩ :=
      rereadLoop_run chip fuel pass (Nat.le_of_eq now.symm) log returns
    exact ⟨m, n, earlier, by omega, rest⟩

theorem rtcGetTime_run (chip : Chip) (fuel : ℕ) (s : State) {stored : RtcTime}
    (returns : (Resumption.run chip.access (rtcGetTime fuel) s).1 = some stored) :
    ∃ time century, (Resumption.run chip.access (readTime fuel) s).1 = some (time, century) ∧
      stored = convert chip.registerB time century ∧
      (Resumption.run chip.access (readTime fuel) s).2.now ≤
        (Resumption.run chip.access (rtcGetTime fuel) s).2.now ∧
      secondsReads (Resumption.run chip.access (rtcGetTime fuel) s).2.log =
        secondsReads (Resumption.run chip.access (readTime fuel) s).2.log := by
  rw [rtcGetTime, Resumption.run_bind'] at returns ⊢
  generalize Resumption.run chip.access (readTime fuel) s = result at returns ⊢
  obtain ⟨read, after⟩ := result
  cases read with
  | none => exact absurd returns.symm (Option.some_ne_none _)
  | some read =>
      obtain ⟨time, century⟩ := read
      dsimp only at returns ⊢
      rw [Resumption.run_bind'] at returns ⊢
      obtain ⟨i, order, now, log, value⟩ :=
        @getRtcRegister_run chip 0x0B (by decide) after
      generalize Resumption.run chip.access (getRtcRegister 0x0B) after = last
        at now log value returns ⊢
      refine ⟨time, century, rfl, ?_, ?_, ?_⟩
      · have registerB : last.1 = chip.registerB := value
        rw [← registerB]
        exact (Option.some.inj returns).symm
      · exact Nat.le_trans order (Nat.le_of_eq now.symm)
      · change secondsReads last.2.log = secondsReads after.log
        rw [log, secondsReads_append]
        exact List.append_nil _

/-- The raw values that are converted are those of one instant during the call, if fewer
than 60 ticks come between the seconds reads of the last two passes. -/
theorem rtcGetTime_not_torn (chip : Chip) (fuel : ℕ) (s : State) {stored : RtcTime}
    (returns : (Resumption.run chip.access (rtcGetTime fuel) s).1 = some stored) :
    ∃ time century m n earlier,
      (Resumption.run chip.access (readTime fuel) s).1 = some (time, century) ∧
      stored = convert chip.registerB time century ∧
      secondsReads (Resumption.run chip.access (rtcGetTime fuel) s).2.log =
        earlier ++ [m, n] ∧
      s.now ≤ m ∧ n ≤ (Resumption.run chip.access (rtcGetTime fuel) s).2.now ∧ m ≤ n ∧
      (n < m + 60 → (time, century) = chip.shown m) := by
  obtain ⟨time, century, read, result, now, log⟩ := rtcGetTime_run chip fuel s returns
  obtain ⟨m, n, earlier, lower, order, upper, reads, shown⟩ := readTime_run chip fuel s read
  exact ⟨time, century, m, n, earlier, read, result, log.trans reads, lower, by omega, order,
    shown⟩

/-- New Year's Eve, and the second runs over in the middle of the first pass. -/
def newYear : Chip where
  start := ⟨⟨2025, 12, 31, by decide, by decide, by decide, by decide⟩, 23, 59, 59, by decide,
    by decide, by decide⟩
  registerB := 0x02
  hasCentury := true
  ticks access := if access = 7 then 1 else 0
  registerA access := if access = 1 then 0x80 else 0

def begin : State := ⟨0, 0, 0, []⟩

theorem rtcGetTime_not_torn_newYear :
    ∃ time century m n earlier,
      (Resumption.run newYear.access (readTime 9) begin).1 = some (time, century) ∧
      (⟨0, 0, 0, 1, 1, 2026⟩ : RtcTime) = convert 0x02 time century ∧
      secondsReads (Resumption.run newYear.access (rtcGetTime 9) begin).2.log =
        earlier ++ [m, n] ∧
      0 ≤ m ∧ n ≤ (Resumption.run newYear.access (rtcGetTime 9) begin).2.now ∧ m ≤ n ∧
      (n < m + 60 → (time, century) = newYear.shown m) :=
  rtcGetTime_not_torn newYear 9 begin (by decide)

end OrbitOs.Drivers.Rtc
