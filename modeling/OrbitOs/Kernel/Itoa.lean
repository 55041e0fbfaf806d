import OrbitOs.Base.Numerals
import OrbitOs.Kernel.CString

/-!
# `itoa` and `reverse` of kernel/string.c

An `int` is a word read in two's complement; division and remainder round toward
zero and negation wraps, as the machine's instructions do.  `none` means that the
fuel ran out.
-/

set_option autoImplicit false

namespace OrbitOs.Kernel

open OrbitOs.Machine OrbitOs.Base OrbitOs.Base.Numerals

/-! ## Model -/

/-- The swaps of `reverse`, from the two ends inwards. -/
def reverseLoop : ℕ → ℕ → ℕ → Chars → Option Chars
  | 0, _, _, _ => none
  | fuel + 1, start, finish, str =>
    if start < finish then
      let temp := str start
      let str := Function.update str start (str finish)
      let str := Function.update str finish temp
      reverseLoop fuel (start + 1) (finish - 1) str
    else some str

/-- With length zero the source's `end` is -1, which is below `start` as well. -/
def reverse (fuel : ℕ) (str : Chars) (length : ℕ) : Option Chars :=
  reverseLoop fuel 0 (length - 1) str

/-- `(rem > 9) ? (rem - 10) + 'a' : rem + '0'`, cut to a `char`. -/
def remainderChar (rem : Word) : Byte :=
  (if (9 : Word).slt rem then rem - 10 + 97 else rem + 48).setWidth 8

/-- `while (value != 0) { … }` with the next index into `str`. -/
def itoaLoop (base : Word) : ℕ → Word → ℕ → Chars → Option (ℕ × Chars)
  | 0, _, _, _ => none
  | fuel + 1, value, i, str =>
    if value ≠ 0 then
      let rem := value.srem base
      itoaLoop base fuel (value.sdiv base) (i + 1) (Function.update str i (remainderChar rem))
    else some (i, str)

def itoa (fuel : ℕ) (value : Word) (str : Chars) (base : Word) : Option Chars :=
  if value = 0 then some (Function.update (Function.update str 0 48) 1 0)
  else do
    let isNegative := value.slt 0 && base == 10
    let value := if isNegative then -value else value
    let (i, str) ← itoaLoop base fuel value 0 str
    let (i, str) := if isNegative then (i + 1, Function.update str i 45) else (i, str)
    let str := Function.update str i 0
    reverse fuel str i

/-! ## Text in an array -/

/-- `text` written from index `i` on. -/
def place (str : Chars) (i : ℕ) (text : List Byte) : Chars := fun k =>
  if i ≤ k ∧ k < i + text.length then text.getD (k - i) 0 else str k

@[simp] theorem place_nil (str : Chars) (i : ℕ) : place str i [] = str := by
  funext k
  exact if_neg fun inside => absurd inside.2 (by simp only [List.length_nil]; omega)

theorem place_cons (str : Chars) (i : ℕ) (c : Byte) (text : List Byte) :
    place (Function.update str i c) (i + 1) text = place str i (c :: text) := by
  funext k
  simp only [place, List.length_cons, Function.update_apply]
  rcases (by omega : k < i ∨ k = i ∨ i + 1 ≤ k) with below | rfl | above
  · rw [if_neg (by omega), if_neg (by omega), if_neg (by omega)]
  · rw [if_neg (by omega), if_pos rfl, if_pos (by omega), Nat.sub_self]
    rfl
  · have index : k - i = k - (i + 1) + 1 := by omega
    have same : (i + 1 ≤ k ∧ k < i + 1 + text.length) ↔
        (i ≤ k ∧ k < i + (text.length + 1)) := by omega
    simp only [same, index, List.getD_cons_succ, if_neg (by omega : ¬ k = i)]

theorem place_append (str : Chars) (i : ℕ) (text : List Byte) (c : Byte) :
    Function.update (place str i text) (i + text.length) c = place str i (text ++ [c]) := by
  funext k
  simp only [place, List.length_append, List.length_singleton, Function.update_apply]
  rcases (by omega : k < i + text.length ∨ k = i + text.length ∨ i + text.length < k) with
    below | rfl | above
  · have same : (i ≤ k ∧ k < i + text.length) ↔
        (i ≤ k ∧ k < i + (text.length + 1)) := by omega
    rw [if_neg (by omega)]
    by_cases inside : i ≤ k ∧ k < i + text.length
    · rw [if_pos inside, if_pos (same.mp inside), List.getD_append _ _ _ _ (by omega)]
    · rw [if_neg inside, if_neg fun more => inside (same.mpr more)]
  · rw [if_pos rfl, if_pos (by omega), List.getD_append_right _ _ _ _ (by omega)]
    have index : i + text.length - i - text.length = 0 := by omega
    rw [index]
    rfl
  · rw [if_neg (by omega), if_neg (by omega), if_neg (by omega)]

/-! ## The reversal -/

theorem reverseLoop_spec (fuel start finish : ℕ) (str : Chars)
    (enough : finish + 1 ≤ start + fuel) (some_fuel : 0 < fuel) :
    reverseLoop fuel start finish str = some fun k =>
      if start ≤ k ∧ k ≤ finish then str (start + finish - k) else str k := by
  induction fuel generalizing start finish str with
  | zero => omega
  | succ fuel ih =>
      rw [reverseLoop]
      by_cases more : start < finish
      · rw [if_pos more]
        dsimp only
        rw [ih (start + 1) (finish - 1) _ (by omega) (by omega)]
        congr 1
        funext k
        have centre : start + 1 + (finish - 1) - k = start + finish - k := by omega
        rw [centre]
        rcases (by omega : k < start ∨ k = start ∨ (start < k ∧ k < finish) ∨ k = finish ∨
          finish < k) with below | rfl | inside | rfl | above
        · rw [if_neg (by omega), if_neg (by omega), Function.update_of_ne (by omega),
            Function.update_of_ne (by omega)]
        · have index : k + finish - k = finish := by omega
          rw [if_neg (by omega), if_pos (by omega), index, Function.update_of_ne (by omega),
            Function.update_self]
        · rw [if_pos (by omega), if_pos (by omega), Function.update_of_ne (by omega),
            Function.update_of_ne (by omega)]
        · have index : start + k - k = start := by omega
          rw [if_neg (by omega), if_pos (by omega), index, Function.update_self]
        · rw [if_neg (by omega), if_neg (by omega), Function.update_of_ne (by omega),
            Function.update_of_ne (by omega)]
      · rw [if_neg more]
        congr 1
        funext k
        by_cases here : start ≤ k ∧ k ≤ finish
        · have index : start + finish - k = k := by omega
          rw [if_pos here, index]
        · rw [if_neg here]

/-- The first `length` characters are turned round and nothing else changes. -/
theorem reverse_place (str : Chars) (text : List Byte) {fuel : ℕ} (enough : text.length < fuel) :
    reverse fuel (Function.update (place str 0 text) text.length 0) text.length =
      some (Function.update (place str 0 text.reverse) text.length 0) := by
  rw [reverse, reverseLoop_spec fuel 0 _ _ (by omega) (by omega)]
  congr 1
  funext k
  simp only [place, Function.update_apply, List.length_reverse]
  by_cases inside : k < text.length
  · have index : 0 + (text.length - 1) - k - 0 = text.length - 1 - k := by omega
    rw [if_pos (by omega), if_neg (by omega), if_pos (by omega), if_neg (by omega),
      if_pos (by omega), index, Nat.sub_zero, List.getD_eq_getElem _ _ (by omega),
      List.getD_eq_getElem _ _ (by rwa [List.length_reverse]), List.getElem_reverse]
  · by_cases first : k = 0
    · have empty : text.length = 0 := by omega
      simp [empty, first]
    · have outside : ¬ (0 ≤ k ∧ k ≤ text.length - 1) := by omega
      have past : ¬ (0 ≤ k ∧ k < 0 + text.length) := by omega
      rw [if_neg outside, if_neg past, if_neg past]

/-! ## The digit loop -/

/-- What the loop writes for a value of absolute value `n`, the last digit first. -/
def remainderText (base : ℕ) (sign : Int) (n : ℕ) : List Byte :=
  (Nat.digits base n).map fun (d : ℕ) => remainderChar (BitVec.ofInt 32 (sign * d))

theorem eq_zero_iff {sign : Int} (unit : sign = 1 ∨ sign = -1) {value : Word} {n : ℕ}
    (abs : value.toInt = sign * n) : value = 0 ↔ n = 0 := by
  rw [← BitVec.toInt_inj, abs]
  rcases unit with rfl | rfl
  · simp
  · simp

section Loop

variable {base : Word} (two : 2 ≤ base.toNat) (small : base.toNat ≤ 36) {sign : Int}
  (unit : sign = 1 ∨ sign = -1)

include small in
theorem base_toInt : base.toInt = base.toNat :=
  BitVec.toInt_eq_toNat_of_lt (by omega)

include small unit

/-- C's remainder keeps the sign of the value. -/
theorem toInt_srem_base {value : Word} {n : ℕ} (abs : value.toInt = sign * n) :
    (value.srem base).toInt = sign * (n % base.toNat : ℕ) := by
  rw [BitVec.toInt_srem, base_toInt small, abs]
  rcases unit with rfl | rfl
  · rw [Int.one_mul, Int.one_mul]
    exact Int.ofNat_tmod n base.toNat
  · rw [Int.neg_one_mul, Int.neg_one_mul, Int.neg_tmod]
    exact congrArg Neg.neg (Int.ofNat_tmod n base.toNat)

theorem toInt_sdiv_base {value : Word} {n : ℕ} (abs : value.toInt = sign * n) :
    (value.sdiv base).toInt = sign * (n / base.toNat : ℕ) := by
  have notMinus : base ≠ -1#32 := by
    rintro rfl
    exact absurd small (by decide)
  rw [BitVec.toInt_sdiv_of_ne_or_ne _ _ (Or.inr notMinus), base_toInt small, abs]
  rcases unit with rfl | rfl
  · rw [Int.one_mul, Int.one_mul]
    exact Int.ofNat_tdiv n base.toNat
  · rw [Int.neg_one_mul, Int.neg_one_mul, Int.neg_tdiv]
    exact congrArg Neg.neg (Int.ofNat_tdiv n base.toNat)

include two

theorem itoaLoop_spec (fuel : ℕ) {value : Word} {n : ℕ} (i : ℕ) (str : Chars)
    (abs : value.toInt = sign * n) (enough : n < 2 ^ fuel) :
    itoaLoop base (fuel + 1) value i str =
      some (i + (remainderText base.toNat sign n).length,
        place str i (remainderText base.toNat sign n)) := by
  have zero := eq_zero_iff unit abs
  induction fuel generalizing value n i str with
  | zero =>
      have none : n = 0 := by omega
      rw [itoaLoop, if_neg (not_not.mpr (zero.mpr none)), none]
      simp [remainderText]
  | succ fuel ih =>
      rw [itoaLoop]
      by_cases done : n = 0
      · rw [if_neg (not_not.mpr (zero.mpr done)), done]
        simp [remainderText]
      · have smaller : n / base.toNat < 2 ^ fuel := by
          rw [Nat.div_lt_iff_lt_mul (by omega)]
          calc n < 2 ^ fuel * 2 := by rwa [pow_succ] at enough
            _ ≤ 2 ^ fuel * base.toNat := Nat.mul_le_mul_left _ two
        have char : BitVec.ofInt 32 (sign * (n % base.toNat : ℕ)) = value.srem base := by
          rw [← toInt_srem_base small unit abs, BitVec.ofInt_toInt]
        have text : remainderText base.toNat sign n =
            remainderChar (value.srem base) ::
              remainderText base.toNat sign (n / base.toNat) := by
          rw [remainderText, Nat.digits_def' two (Nat.pos_of_ne_zero done), List.map_cons, char]
          rfl
        have quotient := toInt_sdiv_base small unit abs
        rw [if_pos fun none => done (zero.mp none)]
        dsimp only
        rw [ih (i + 1) _ quotient smaller (eq_zero_iff unit quotient), place_cons, text]
        simp only [List.length_cons, Nat.add_assoc, Nat.add_comm 1]

end Loop

theorem remainderText_length {base : ℕ} (two : 2 ≤ base) (sign : Int) {n bits : ℕ}
    (bound : n < 2 ^ bits) : (remainderText base sign n).length ≤ bits := by
  rw [remainderText, List.length_map]
  exact (Nat.digits_length_le_iff two n).mpr
    (Nat.lt_of_lt_of_le bound (Nat.pow_le_pow_left two bits))

theorem remainderChar_digit {d : ℕ} (small : d < 36) :
    remainderChar (BitVec.ofInt 32 (1 * d)) = digitChar d := by
  revert d
  decide

/-- The remainders of a negative number give characters from '0' down. -/
theorem remainderChar_low {d : ℕ} (small : d < 36) :
    (remainderChar (BitVec.ofInt 32 (-1 * d))).toNat ≤ 48 ∧
      remainderChar (BitVec.ofInt 32 (-1 * d)) ≠ 0 := by
  revert d
  decide

theorem reverse_remainderText {base : ℕ} (two : 2 ≤ base) (small : base ≤ 36) (n : ℕ) :
    (remainderText base 1 n).reverse = digitsText base n := by
  rw [remainderText, digitsText, List.map_reverse]
  congr 1
  refine List.map_congr_left fun d digit => ?_
  have bound := Nat.digits_lt_base two digit
  exact remainderChar_digit (by omega)

theorem remainderText_low {base : ℕ} (two : 2 ≤ base) (small : base ≤ 36) {n : ℕ} {c : Byte}
    (member : c ∈ remainderText base (-1) n) : c.toNat ≤ 48 ∧ c ≠ 0 := by
  obtain ⟨d, digit, rfl⟩ := List.mem_map.mp member
  have bound := Nat.digits_lt_base two digit
  exact remainderChar_low (by omega)

/-! ## The whole function -/

theorem holds_place (str : Chars) {text : List Byte} (noNul : 0 ∉ text) :
    Holds (Function.update (place str 0 text) text.length 0) text := by
  refine ⟨noNul, fun i bound => ?_⟩
  rcases Nat.lt_or_eq_of_le bound with inside | rfl
  · rw [Function.update_of_ne (by omega), place, if_pos (by omega), Nat.sub_zero]
  · rw [Function.update_self, List.getD_eq_default _ _ (Nat.le_refl _)]

/-- The sign character that is written last and turned to the front. -/
def signText (isNegative : Bool) : List Byte := if isNegative then [45] else []

theorem itoa_spec {value base : Word} (two : 2 ≤ base.toNat) (small : base.toNat ≤ 36)
    (nonzero : value ≠ 0) {isNegative : Bool} (guard : isNegative = (value.slt 0 && base == 10))
    {sign : Int} (unit : sign = 1 ∨ sign = -1) {n : ℕ}
    (abs : (if isNegative then -value else value).toInt = sign * n) (bound : n < 2 ^ 32)
    {fuel : ℕ} (enough : 34 ≤ fuel) (str : Chars) :
    itoa fuel value str base = some (Function.update
      (place str 0 (signText isNegative ++ (remainderText base.toNat sign n).reverse))
      (signText isNegative ++ (remainderText base.toNat sign n).reverse).length 0) := by
  have length := remainderText_length two sign bound
  obtain ⟨rest, rfl⟩ : ∃ rest, fuel = rest + 1 := ⟨fuel - 1, by omega⟩
  have wide : n < 2 ^ rest :=
    Nat.lt_of_lt_of_le bound (Nat.pow_le_pow_right (by omega) (by omega))
  have loop := itoaLoop_spec two small unit rest 0 str abs wide
  rw [Nat.zero_add] at loop
  have text : (remainderText base.toNat sign n ++ signText isNegative).reverse =
      signText isNegative ++ (remainderText base.toNat sign n).reverse := by
    rw [List.reverse_append]
    cases isNegative
    · rfl
    · rfl
  have signLength : (signText isNegative).length ≤ 1 := by
    cases isNegative
    · exact Nat.zero_le 1
    · exact Nat.le_refl 1
  have turned := @reverse_place str (remainderText base.toNat sign n ++ signText isNegative)
    (rest + 1) (by rw [List.length_append]; omega)
  rw [text] at turned
  rw [itoa, if_neg nonzero, ← guard]
  dsimp only
  rw [loop]
  simp only [Option.bind_eq_bind, Option.bind_some]
  cases isNegative with
  | false =>
      simpa [signText] using turned
  | true =>
      have place_sign := place_append str 0 (remainderText base.toNat sign n) 45
      rw [Nat.zero_add] at place_sign
      simp only [signText, if_true, List.length_append, List.length_singleton] at turned ⊢
      rw [place_sign, turned, List.length_reverse, Nat.add_comm 1]

/-- The array holds the canonical numeral of the `int`. -/
def Prints (base value : Word) (str : Chars) : Prop :=
  ∃ text, Holds str text ∧ Canonical base.toNat value.toInt text

theorem prints_of_canonical {base value : Word} {str : Chars} {text : List Byte}
    (noNul : 0 ∉ text) (canonical : Canonical base.toNat value.toInt text) :
    Prints base value (Function.update (place str 0 text) text.length 0) :=
  ⟨text, holds_place str noNul, canonical⟩

/-- Characters from '0' down print no number but zero. -/
theorem not_prints_low {base value : Word} {str : Chars} {text : List Byte} (nonzero : value ≠ 0)
    (low : ∀ c ∈ text, c.toNat ≤ 48 ∧ c ≠ 0) :
    ¬ Prints base value (Function.update (place str 0 text) text.length 0) := by
  rintro ⟨other, holds, canonical⟩
  have noNul : 0 ∉ text := fun member => (low 0 member).2 rfl
  rw [← holds_unique (holds_place str noNul) holds] at canonical
  have zero := parse_low (fun c member => (low c member).1) canonical.value
  exact nonzero (BitVec.toInt_inj.mp zero)

theorem digitsText_noNul {base n : ℕ} (two : 2 ≤ base) (small : base ≤ 36) :
    0 ∉ digitsText base n := by
  intro member
  obtain ⟨d, bound, char⟩ := mem_digitsText two member
  exact digitChar_ne_nul (by omega) char.symm

theorem guard_iff {base value : Word} :
    (value.slt 0 && base == 10) = true ↔ value.toInt < 0 ∧ base.toInt = 10 := by
  have ten : base = 10 ↔ base.toInt = 10 := BitVec.toInt_inj.symm
  rw [Bool.and_eq_true, beq_iff_eq, BitVec.slt_iff_toInt_lt, ten]
  rfl

theorem itoa_zero {base : Word} (two : 2 ≤ base.toNat) (fuel : ℕ) (str : Chars) :
    ∃ d, itoa fuel 0 str base = some d ∧ Prints base 0 d := by
  refine ⟨_, rfl, ?_⟩
  have written : Function.update str 0 48 = place str 0 [48] := by
    have append := place_append str 0 [] 48
    rwa [place_nil] at append
  rw [written]
  exact prints_of_canonical (by decide) (canonical_zero two)

section Printed

variable {base value : Word} (two : 2 ≤ base.toNat) (small : base.toNat ≤ 36) {fuel : ℕ}
  (enough : 34 ≤ fuel) (str : Chars)

include two small enough

theorem itoa_positive (positive : 0 < value.toInt) :
    ∃ d, itoa fuel value str base = some d ∧ Prints base value d := by
  have nonzero : value ≠ 0 := by
    rintro rfl
    exact absurd positive (by decide)
  have guard : false = (value.slt 0 && base == 10) := by
    rw [eq_comm, ← Bool.not_eq_true, guard_iff]
    omega
  have upper := value.toInt_lt
  have abs : value.toInt = 1 * (value.toInt.toNat : Int) := by omega
  have text := itoa_spec two small nonzero guard (Or.inl rfl) abs (by omega) enough str
  have canonical := (canonical_digitsText two small (n := value.toInt.toNat) (by omega)).1
  rw [Int.toNat_of_nonneg (Int.le_of_lt positive)] at canonical
  rw [reverse_remainderText two small] at text
  exact ⟨_, text, prints_of_canonical (digitsText_noNul two small) canonical⟩

theorem itoa_negated (negative : value.toInt < 0) (ten : base.toInt = 10)
    (fits : value.toInt ≠ -2 ^ 31) :
    ∃ d, itoa fuel value str base = some d ∧ Prints base value d := by
  have nonzero : value ≠ 0 := by
    rintro rfl
    exact absurd negative (by decide)
  have guard : true = (value.slt 0 && base == 10) := (guard_iff.mpr ⟨negative, ten⟩).symm
  have lower := value.le_toInt
  have negated : (-value).toInt = -value.toInt := by
    apply BitVec.toInt_neg_of_ne_intMin
    intro smallest
    exact fits (congrArg BitVec.toInt smallest)
  have abs : (-value).toInt = 1 * (value.toInt.natAbs : Int) := by omega
  have text := itoa_spec two small nonzero guard (Or.inl rfl) abs (by omega) enough str
  have canonical := (canonical_digitsText two small (n := value.toInt.natAbs) (by omega)).2
  rw [Int.ofNat_natAbs_of_nonpos (Int.le_of_lt negative), Int.neg_neg] at canonical
  rw [reverse_remainderText two small] at text
  refine ⟨_, text, prints_of_canonical ?_ canonical⟩
  exact fun member => (List.mem_cons.mp member).elim (by decide) (digitsText_noNul two small)

/-- A loop that runs on a negative value leaves no digit but '0'. -/
theorem itoa_low {isNegative : Bool} (negative : value.toInt < 0)
    (guard : isNegative = (value.slt 0 && base == 10))
    (same : (if isNegative then -value else value) = value) :
    ∃ d, itoa fuel value str base = some d ∧ ¬ Prints base value d := by
  have nonzero : value ≠ 0 := by
    rintro rfl
    exact absurd negative (by decide)
  have lower := value.le_toInt
  have abs : (if isNegative then -value else value).toInt = -1 * (value.toInt.natAbs : Int) := by
    rw [same]
    omega
  refine ⟨_, itoa_spec two small nonzero guard (Or.inr rfl) abs (by omega) enough str,
    not_prints_low nonzero ?_⟩
  intro c member
  rcases List.mem_append.mp member with sign | digit
  · cases isNegative with
    | false => exact absurd sign List.not_mem_nil
    | true =>
        rw [List.mem_singleton.mp sign]
        decide
  · exact remainderText_low two small (List.mem_reverse.mp digit)

end Printed

/-- `itoa` ends on every value and base, and prints the value exactly when it is not negative
or is negated before the loop without wrapping. -/
theorem itoa_prints_iff (value base : Word) (lower : 2 ≤ base.toInt) (upper : base.toInt ≤ 36)
    (str : Chars) {fuel : ℕ} (enough : 34 ≤ fuel) :
    ∃ d, itoa fuel value str base = some d ∧
      (Prints base value d ↔ 0 ≤ value.toInt ∨ (base.toInt = 10 ∧ value.toInt ≠ -2 ^ 31)) := by
  have unsigned : base.toInt = base.toNat := by
    have cases := BitVec.toInt_eq_toNat_cond base
    have bound := base.isLt
    by_cases half : 2 * base.toNat < 2 ^ 32
    · rwa [if_pos half] at cases
    · rw [if_neg half] at cases
      omega
  have two : 2 ≤ base.toNat := by omega
  have small : base.toNat ≤ 36 := by omega
  rcases Int.lt_trichotomy value.toInt 0 with negative | zero | positive
  · by_cases ten : base.toInt = 10
    · by_cases smallest : value.toInt = -2 ^ 31
      · have guard : true = (value.slt 0 && base == 10) := (guard_iff.mpr ⟨negative, ten⟩).symm
        have same : (if true then -value else value) = value := by
          have constant : value = BitVec.intMin 32 := BitVec.toInt_inj.mp smallest
          rw [if_pos rfl, constant]
          exact BitVec.neg_intMin
        obtain ⟨d, ends, wrong⟩ := itoa_low two small enough str negative guard same
        exact ⟨d, ends, iff_of_false wrong (by omega)⟩
      · obtain ⟨d, ends, right⟩ := itoa_negated two small enough str negative ten smallest
        exact ⟨d, ends, iff_of_true right (Or.inr ⟨ten, smallest⟩)⟩
    · have guard : false = (value.slt 0 && base == 10) := by
        rw [eq_comm, ← Bool.not_eq_true, guard_iff]
        exact fun both => ten both.2
      obtain ⟨d, ends, wrong⟩ := itoa_low two small enough str negative guard rfl
      exact ⟨d, ends, iff_of_false wrong (by omega)⟩
  · have zeroWord : value = 0 := BitVec.toInt_inj.mp zero
    obtain ⟨d, ends, right⟩ := itoa_zero two fuel str
    rw [zeroWord]
    exact ⟨d, ends, iff_of_true right (Or.inl (Int.le_refl 0))⟩
  · obtain ⟨d, ends, right⟩ := itoa_positive two small enough str positive
    exact ⟨d, ends, iff_of_true right (Or.inl (Int.le_of_lt positive))⟩

theorem itoa_prints_iff_minus305 :
    ∃ d, itoa 34 (-305) (fun _ => 0) 10 = some d ∧
      (Prints 10 (-305) d ↔
        0 ≤ (-305 : Word).toInt ∨ ((10 : Word).toInt = 10 ∧ (-305 : Word).toInt ≠ -2 ^ 31)) :=
  itoa_prints_iff (-305) 10 (by decide) (by decide) (fun _ => 0) (by decide)

/-- `itoa(-3, buf, 16)` leaves "-". -/
theorem itoa_minus3_base16 :
    ∃ d, itoa 34 (-3) (fun _ => 0) 16 = some d ∧ d 0 = 45 ∧ d 1 = 0 ∧ ¬ Prints 16 (-3) d := by
  obtain ⟨d, ends, wrong⟩ := @itoa_low 16 (-3) (by decide) (by decide) 34 (Nat.le_refl 34)
    (fun _ => 0) false (by decide) (by decide) rfl
  have bytes : (itoa 34 (-3) (fun _ => 0) 16).map (fun d => (d 0, d 1)) = some (45, 0) := by
    decide
  rw [ends, Option.map_some] at bytes
  obtain ⟨first, second⟩ := Prod.mk.inj (Option.some.inj bytes)
  exact ⟨d, ends, first, second, wrong⟩

end OrbitOs.Kernel
