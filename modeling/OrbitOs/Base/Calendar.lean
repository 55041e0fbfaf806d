import Mathlib.Tactic

/-!
# The calendar, second by second

A moment is a Gregorian date with a time of day.  Ticking moves it on by one
second and carries through every field.
-/

set_option autoImplicit false

namespace OrbitOs.Base

namespace Calendar

def leap (year : ℕ) : Bool := year % 4 = 0 ∧ (year % 100 ≠ 0 ∨ year % 400 = 0)

def daysIn (year month : ℕ) : ℕ :=
  if month = 2 then (if leap year then 29 else 28)
  else if month = 4 ∨ month = 6 ∨ month = 9 ∨ month = 11 then 30
  else 31

theorem daysIn_bounds (year month : ℕ) : 1 ≤ daysIn year month ∧ daysIn year month ≤ 31 := by
  unfold daysIn
  split
  · split
    · omega
    · omega
  · split
    · omega
    · omega

structure Date where
  year : ℕ
  month : ℕ
  day : ℕ
  month_pos : 1 ≤ month
  month_le : month ≤ 12
  day_pos : 1 ≤ day
  day_le : day ≤ daysIn year month

theorem Date.day_small (d : Date) : d.day ≤ 31 :=
  Nat.le_trans d.day_le (daysIn_bounds d.year d.month).2

def Date.next (d : Date) : Date :=
  if more : d.day + 1 ≤ daysIn d.year d.month then
    { d with day := d.day + 1, day_pos := by omega, day_le := more }
  else if month : d.month + 1 ≤ 12 then
    { year := d.year, month := d.month + 1, day := 1, month_pos := by omega, month_le := month
      day_pos := by omega, day_le := (daysIn_bounds _ _).1 }
  else
    { year := d.year + 1, month := 1, day := 1, month_pos := by omega, month_le := by omega
      day_pos := by omega, day_le := (daysIn_bounds _ _).1 }

structure Moment where
  date : Date
  hour : ℕ
  minute : ℕ
  second : ℕ
  hour_lt : hour < 24
  minute_lt : minute < 60
  second_lt : second < 60

def Moment.tick (t : Moment) : Moment :=
  if second : t.second + 1 < 60 then
    { t with second := t.second + 1, second_lt := second }
  else if minute : t.minute + 1 < 60 then
    { t with minute := t.minute + 1, second := 0, minute_lt := minute, second_lt := by omega }
  else if hour : t.hour + 1 < 24 then
    { t with hour := t.hour + 1, minute := 0, second := 0, hour_lt := hour
             minute_lt := by omega, second_lt := by omega }
  else
    { date := t.date.next, hour := 0, minute := 0, second := 0, hour_lt := by omega
      minute_lt := by omega, second_lt := by omega }

/-- The moment `n` seconds later. -/
def Moment.after (t : Moment) (n : ℕ) : Moment := Moment.tick^[n] t

theorem Moment.tick_second (t : Moment) : t.tick.second = (t.second + 1) % 60 := by
  have bound := t.second_lt
  unfold Moment.tick
  by_cases second : t.second + 1 < 60
  · rw [dif_pos second]
    exact (Nat.mod_eq_of_lt second).symm
  · have wraps : (t.second + 1) % 60 = 0 := by omega
    rw [dif_neg second, wraps]
    split
    · rfl
    · split
      · rfl
      · rfl

theorem Moment.after_second (t : Moment) (n : ℕ) :
    (t.after n).second = (t.second + n) % 60 := by
  induction n with
  | zero => exact (Nat.mod_eq_of_lt t.second_lt).symm
  | succ n ih =>
      rw [Moment.after, Function.iterate_succ_apply', Moment.tick_second]
      change ((t.after n).second + 1) % 60 = (t.second + (n + 1)) % 60
      rw [ih]
      omega

/-- Within a minute no second comes twice. -/
theorem Moment.after_second_inj (t : Moment) {m n : ℕ} (order : m ≤ n) (close : n < m + 60)
    (same : (t.after m).second = (t.after n).second) : m = n := by
  rw [Moment.after_second, Moment.after_second] at same
  omega

end Calendar

end OrbitOs.Base
