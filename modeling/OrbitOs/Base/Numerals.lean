import Mathlib.Data.Nat.Digits.Lemmas
import Mathlib.Tactic

/-!
# Numerals in a base up to 36

Digits are the characters 0-9 and a-z, the most significant one first, and a
minus sign stands before the numeral of a negative number.
-/

set_option autoImplicit false

namespace OrbitOs.Base

namespace Numerals

abbrev Char8 := BitVec 8

def minus : Char8 := 45
def zeroChar : Char8 := 48

def digitChar (d : ℕ) : Char8 := BitVec.ofNat 8 (if d < 10 then 48 + d else 87 + d)

def digitValue (c : Char8) : Option ℕ :=
  if 48 ≤ c.toNat ∧ c.toNat ≤ 57 then some (c.toNat - 48)
  else if 97 ≤ c.toNat ∧ c.toNat ≤ 122 then some (c.toNat - 87)
  else none

/-- Reading digit characters after the ones that give `sum`. -/
def parseDigits (base : ℕ) : ℕ → List Char8 → Option ℕ
  | sum, [] => some sum
  | sum, c :: rest => do
    let d ← digitValue c
    if d < base then parseDigits base (sum * base + d) rest else none

/-- The text without its sign. -/
def magnitude (text : List Char8) : List Char8 :=
  if text.head? = some minus then text.tail else text

/-- The number that a text with an optional sign stands for. -/
def parse (base : ℕ) (text : List Char8) : Option Int :=
  if magnitude text = [] then none
  else (parseDigits base 0 (magnitude text)).map fun (n : ℕ) =>
    if text.head? = some minus then -(n : Int) else (n : Int)

/-- The text is the canonical numeral of the value. -/
structure Canonical (base : ℕ) (value : Int) (text : List Char8) : Prop where
  sign : text.head? = some minus ↔ value < 0
  digits : ∀ c ∈ magnitude text, ∃ d, digitValue c = some d ∧ d < base
  noLeadingZero : (magnitude text).head? = some zeroChar → magnitude text = [zeroChar]
  value : parse base text = some value

/-! ## Digit characters -/

theorem digitValue_digitChar {d : ℕ} (small : d < 36) : digitValue (digitChar d) = some d := by
  revert d
  decide

theorem digitChar_ne_minus {d : ℕ} (small : d < 36) : digitChar d ≠ minus := by
  revert d
  decide

theorem digitChar_ne_nul {d : ℕ} (small : d < 36) : digitChar d ≠ 0 := by
  revert d
  decide

theorem digitChar_eq_zeroChar {d : ℕ} (small : d < 36) (zero : digitChar d = zeroChar) :
    d = 0 := by
  revert d
  decide

/-- No character from '0' down stands for a digit above zero. -/
theorem digitValue_low {c : Char8} (low : c.toNat ≤ 48) {d : ℕ}
    (value : digitValue c = some d) : d = 0 := by
  unfold digitValue at value
  by_cases digit : 48 ≤ c.toNat ∧ c.toNat ≤ 57
  · rw [if_pos digit] at value
    have exact : c.toNat - 48 = d := Option.some.inj value
    omega
  · rw [if_neg digit, if_neg (by omega)] at value
    exact absurd value (by simp)

/-! ## Reading back -/

section Reading

variable {base : ℕ}

theorem parseDigits_digits (small : base ≤ 36) {digits : List ℕ}
    (below : ∀ d ∈ digits, d < base) (sum : ℕ) :
    parseDigits base sum (digits.map digitChar) =
      some (digits.foldl (fun s d => s * base + d) sum) := by
  induction digits generalizing sum with
  | nil => rfl
  | cons d digits ih =>
      have first : d < base := below d List.mem_cons_self
      rw [List.map_cons, parseDigits, digitValue_digitChar (by omega), List.foldl_cons]
      simp only [Option.bind_eq_bind, Option.bind_some]
      rw [if_pos first]
      exact ih (fun e member => below e (List.mem_cons_of_mem _ member)) _

theorem foldl_reverse_digits (digits : List ℕ) :
    digits.reverse.foldl (fun s d => s * base + d) 0 = Nat.ofDigits base digits := by
  rw [List.foldl_reverse]
  induction digits with
  | nil => rfl
  | cons d digits ih =>
      rw [List.foldr_cons, ih, Nat.ofDigits_cons, Nat.mul_comm, Nat.add_comm]

/-- A text of characters from '0' down reads as nothing but zero. -/
theorem parseDigits_low {text : List Char8} (low : ∀ c ∈ text, c.toNat ≤ 48) {n : ℕ}
    (value : parseDigits base 0 text = some n) : n = 0 := by
  induction text with
  | nil => exact (Option.some.inj value).symm
  | cons c rest ih =>
      rw [parseDigits] at value
      cases first : digitValue c with
      | none => simp [first] at value
      | some d =>
          have zero : d = 0 := digitValue_low (low c List.mem_cons_self) first
          rw [first, zero] at value
          simp only [Option.bind_eq_bind, Option.bind_some, Nat.zero_mul, Nat.add_zero] at value
          by_cases any : 0 < base
          · rw [if_pos any] at value
            exact ih (fun e member => low e (List.mem_cons_of_mem _ member)) value
          · rw [if_neg any] at value
            exact absurd value (by simp)

theorem parse_low {text : List Char8} (low : ∀ c ∈ text, c.toNat ≤ 48) {value : Int}
    (reads : parse base text = some value) : value = 0 := by
  unfold parse at reads
  by_cases empty : magnitude text = []
  · rw [if_pos empty] at reads
    exact absurd reads (by simp)
  · rw [if_neg empty] at reads
    obtain ⟨n, digits, result⟩ := Option.map_eq_some_iff.mp reads
    have lowRest : ∀ c ∈ magnitude text, c.toNat ≤ 48 := by
      intro c member
      unfold magnitude at member
      by_cases sign : text.head? = some minus
      · rw [if_pos sign] at member
        exact low c (List.mem_of_mem_tail member)
      · rw [if_neg sign] at member
        exact low c member
    rw [← result, parseDigits_low lowRest digits]
    simp

end Reading

/-! ## The numeral of a number -/

section Numeral

/-- The digits of a number above zero, most significant first. -/
def digitsText (base n : ℕ) : List Char8 := ((Nat.digits base n).reverse).map digitChar

variable {base n : ℕ}

theorem mem_digitsText (two : 2 ≤ base) {c : Char8} (member : c ∈ digitsText base n) :
    ∃ d, d < base ∧ c = digitChar d := by
  obtain ⟨d, digit, rfl⟩ := List.mem_map.mp member
  exact ⟨d, Nat.digits_lt_base two (List.mem_reverse.mp digit), rfl⟩

theorem parseDigits_digitsText (two : 2 ≤ base) (small : base ≤ 36) :
    parseDigits base 0 (digitsText base n) = some n := by
  have below : ∀ d ∈ (Nat.digits base n).reverse, d < base := fun d member =>
    Nat.digits_lt_base two (List.mem_reverse.mp member)
  rw [digitsText, parseDigits_digits small below, foldl_reverse_digits, Nat.ofDigits_digits]

theorem digitsText_head (two : 2 ≤ base) (positive : 0 < n) :
    ∃ d rest, 0 < d ∧ d < base ∧ digitsText base n = digitChar d :: rest := by
  have nonempty : Nat.digits base n ≠ [] :=
    Nat.digits_ne_nil_iff_ne_zero.mpr (Nat.pos_iff_ne_zero.mp positive)
  have first := Nat.getLast_digit_ne_zero base (Nat.pos_iff_ne_zero.mp positive)
  have split := List.dropLast_append_getLast nonempty
  refine ⟨(Nat.digits base n).getLast nonempty, (Nat.digits base n).dropLast.reverse.map digitChar,
    Nat.pos_of_ne_zero first, Nat.digits_lt_base two (List.getLast_mem nonempty), ?_⟩
  rw [digitsText, ← List.map_cons]
  congr 1
  conv_lhs => rw [← split, List.reverse_append]
  rfl

/-- The digits of a number above zero, with the sign before them, are its numeral. -/
theorem canonical_digitsText (two : 2 ≤ base) (small : base ≤ 36) (positive : 0 < n) :
    Canonical base n (digitsText base n) ∧
      Canonical base (-(n : Int)) (minus :: digitsText base n) := by
  obtain ⟨d, rest, above, below, split⟩ := digitsText_head two positive
  have reads := parseDigits_digitsText (n := n) two small
  have chars : ∀ c ∈ digitsText base n, ∃ d, digitValue c = some d ∧ d < base := by
    intro c member
    obtain ⟨e, bound, rfl⟩ := mem_digitsText two member
    exact ⟨e, digitValue_digitChar (by omega), bound⟩
  have noZero : (digitsText base n).head? ≠ some zeroChar := by
    rw [split, List.head?_cons]
    intro same
    have zero := digitChar_eq_zeroChar (by omega) (Option.some.inj same)
    omega
  have noSign : (digitsText base n).head? ≠ some minus := by
    rw [split, List.head?_cons]
    exact fun same => digitChar_ne_minus (by omega) (Option.some.inj same)
  have nonempty : digitsText base n ≠ [] := by
    rw [split]
    exact List.cons_ne_nil _ _
  have plain : magnitude (digitsText base n) = digitsText base n := if_neg noSign
  have signed : magnitude (minus :: digitsText base n) = digitsText base n := if_pos rfl
  constructor
  · refine ⟨?_, by rwa [plain], ?_, ?_⟩
    · exact iff_of_false noSign (by omega)
    · rw [plain]
      exact fun zero => absurd zero noZero
    · rw [parse, plain, if_neg nonempty, reads, Option.map_some, if_neg noSign]
  · refine ⟨?_, by rwa [signed], ?_, ?_⟩
    · exact iff_of_true rfl (by omega)
    · rw [signed]
      exact fun zero => absurd zero noZero
    · rw [parse, signed, if_neg nonempty, reads, Option.map_some]
      rfl

theorem canonical_zero (two : 2 ≤ base) : Canonical base 0 [zeroChar] := by
  have plain : magnitude [zeroChar] = [zeroChar] := rfl
  refine ⟨?_, ?_, fun _ => rfl, ?_⟩
  · exact iff_of_false (by decide) (by omega)
  · rw [plain]
    intro c member
    rw [List.mem_singleton.mp member]
    exact ⟨0, rfl, by omega⟩
  · have reads : parseDigits base 0 [zeroChar] = some 0 := by
      change (if 0 < base then some (0 * base + 0) else none) = some 0
      rw [if_pos (by omega), Nat.zero_mul]
    rw [parse, plain, if_neg (List.cons_ne_nil _ _), reads]
    rfl

end Numeral

end Numerals

end OrbitOs.Base
