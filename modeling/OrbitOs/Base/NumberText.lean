import OrbitOs.Base.Numerals
import OrbitOs.Base.Readings

/-!
# Decimal numbers in a text

The numbers of a text are its runs of decimal digits, from left to right.  A
numeral between two other characters is read back, with or without a zero in
front.
-/

set_option autoImplicit false

namespace OrbitOs.Base

namespace Numerals

/-- A character that is no decimal digit. -/
def separates (c : Char8) : Bool := decide (c.toNat < 48 ∨ 57 < c.toNat)

/-- The number of a run of digits. -/
def number (run : List Char8) : Option ℕ := if run = [] then none else parseDigits 10 0 run

/-- The numbers of a text, from left to right. -/
def numbers (text : List Char8) : List ℕ := (text.splitOnP separates).filterMap number

/-- The decimal numeral without needless zeros. -/
def numeral (n : ℕ) : List Char8 := if n = 0 then [zeroChar] else digitsText 10 n

/-- The numeral with a zero in front when it has a single digit. -/
def twoDigits (n : ℕ) : List Char8 := if n < 10 then zeroChar :: numeral n else numeral n

/-! ## Reading a text -/

theorem numbers_label {label : List Char8} (others : ∀ c ∈ label, separates c = true)
    (rest : List Char8) : numbers (label ++ rest) = numbers rest :=
  readings_label (if_pos rfl) others rest

/-- A run of digits that stands for a number. -/
structure Run (run : List Char8) (n : ℕ) : Prop where
  digits : ∀ c ∈ run, separates c = false
  value : number run = some n

theorem Run.read {run : List Char8} {n : ℕ} (stands : Run run n) {c : Char8}
    (other : separates c = true) (rest : List Char8) :
    numbers (run ++ c :: rest) = n :: numbers rest :=
  readings_run stands.digits stands.value other rest

/-! ## Numerals -/

theorem separates_digitChar {d : ℕ} (small : d < 10) : separates (digitChar d) = false := by
  revert d
  decide

theorem numeral_run (n : ℕ) : Run (numeral n) n := by
  unfold numeral
  by_cases zero : n = 0
  · rw [if_pos zero, zero]
    exact ⟨by decide, by decide⟩
  · rw [if_neg zero]
    obtain ⟨d, rest, -, -, split⟩ :=
      digitsText_head (by omega : 2 ≤ 10) (Nat.pos_of_ne_zero zero)
    refine ⟨fun c member => ?_, ?_⟩
    · obtain ⟨e, bound, rfl⟩ := mem_digitsText (by omega) member
      exact separates_digitChar bound
    · have some : digitsText 10 n ≠ [] := by
        rw [split]
        exact List.cons_ne_nil _ _
      rw [number, if_neg some]
      exact parseDigits_digitsText (by omega) (by omega)

theorem twoDigits_of_lt {n : ℕ} (small : n < 100) :
    twoDigits n = [digitChar (n / 10), digitChar (n % 10)] := by
  unfold twoDigits numeral
  by_cases single : n < 10
  · rw [if_pos single, Nat.div_eq_of_lt single, Nat.mod_eq_of_lt single]
    by_cases zero : n = 0
    · rw [if_pos zero, zero]
      rfl
    · rw [if_neg zero, digitsText, Nat.digits_of_lt 10 n zero single]
      rfl
  · have tens : n / 10 ≠ 0 := by omega
    have tensSmall : n / 10 < 10 := by omega
    rw [if_neg single, if_neg (by omega), digitsText, Nat.digits_def' (by omega) (by omega),
      Nat.digits_of_lt 10 _ tens tensSmall]
    rfl

end Numerals

end OrbitOs.Base
