import Mathlib.Data.List.GetD
import OrbitOs.Base.Traced
import OrbitOs.Machine.Memory

/-!
# C strings: `strlen`, `strcpy`, `strcmp` and `strncmp` of kernel/string.c

A source string is given by what reading it at an offset does.  The destination
of `strcpy` is an array of known size, and `none` means that a store would leave
it.
-/

set_option autoImplicit false

namespace OrbitOs.Kernel

open OrbitOs.Machine OrbitOs.Base

/-- The bytes from an address on. -/
abbrev Chars := ℕ → Byte

/-- The characters of a literal, without its terminator. -/
def charsOf (text : String) : List Byte := text.toList.map fun c => BitVec.ofNat 8 c.toNat

/-- The bytes are the string `x` and its terminator. -/
def Holds (a : Chars) (x : List Byte) : Prop := 0 ∉ x ∧ ∀ i ≤ x.length, a i = x.getD i 0

theorem Holds.terminator {a : Chars} {x : List Byte} (holds : Holds a x) : a x.length = 0 := by
  rw [holds.2 x.length (Nat.le_refl _)]
  exact List.getD_eq_default _ _ (Nat.le_refl _)

theorem Holds.ne_zero {a : Chars} {x : List Byte} (holds : Holds a x) {i : ℕ}
    (bound : i < x.length) : a i ≠ 0 := by
  rw [holds.2 i (Nat.le_of_lt bound), List.getD_eq_getElem _ _ bound]
  exact fun zero => holds.1 (zero ▸ List.getElem_mem bound)

theorem holds_unique {a : Chars} {x y : List Byte} (holdsX : Holds a x) (holdsY : Holds a y) :
    x = y := by
  have noLonger : ∀ {u v : List Byte}, Holds a u → Holds a v → u.length ≤ v.length := by
    intro u v holdsU holdsV
    by_contra longer
    exact holdsU.ne_zero (Nat.lt_of_not_le longer) holdsV.terminator
  have length := Nat.le_antisymm (noLonger holdsX holdsY) (noLonger holdsY holdsX)
  apply List.ext_getElem length
  intro k inX inY
  have atX := holdsX.2 k (Nat.le_of_lt inX)
  have atY := holdsY.2 k (Nat.le_of_lt inY)
  rw [List.getD_eq_getElem _ _ inX] at atX
  rw [List.getD_eq_getElem _ _ inY] at atY
  exact atX.symm.trans atY

section Strings

variable {P : Type}

/-- `while (*src) *d++ = *src++; *d = '\\0';` with `left` bytes of room from offset `i`. -/
def strcpyLoop (src : ℕ → Traced P Byte) : ℕ → ℕ → Chars → Traced P (Option Chars)
  | 0, _, _ => pure none
  | left + 1, i, d => do
    let c ← src i
    if c ≠ 0 then strcpyLoop src left (i + 1) (Function.update d i c)
    else return some (Function.update d i 0)

def strcpy (size : ℕ) (dest : Chars) (src : ℕ → Traced P Byte) : Traced P (Option Chars) :=
  strcpyLoop src size 0 dest

/-- `while (*str1 && (*str1 == *str2)) { str1++; str2++; } return *str1 - *str2;` -/
def strcmpLoop (str1 str2 : ℕ → Traced P Byte) : ℕ → ℕ → Traced P (Option Int)
  | 0, _ => pure none
  | fuel + 1, i => do
    let c1 ← str1 i
    let c2 ← str2 i
    if c1 ≠ 0 ∧ c1 = c2 then strcmpLoop str1 str2 fuel (i + 1)
    else return some ((c1.toNat : Int) - c2.toNat)

def strcmp (fuel : ℕ) (str1 str2 : ℕ → Traced P Byte) : Traced P (Option Int) :=
  strcmpLoop str1 str2 fuel 0

/-- `while (str[len]) len++;` -/
def strlenLoop (str : ℕ → Traced P Byte) : ℕ → ℕ → Traced P (Option ℕ)
  | 0, _ => pure none
  | fuel + 1, len => do
    let c ← str len
    if c ≠ 0 then strlenLoop str fuel (len + 1) else return some len

def strlen (fuel : ℕ) (str : ℕ → Traced P Byte) : Traced P (Option ℕ) := strlenLoop str fuel 0

/-- `*str1 - *str2` of unsigned characters. -/
def difference (str1 str2 : ℕ → Traced P Byte) (i : ℕ) : Traced P Int := do
  let c1 ← str1 i
  let c2 ← str2 i
  return (c1.toNat : Int) - c2.toNat

/-- `while (n-- > 0 && *str1 && *str2) { … } return *str1 - *str2;` -/
def strncmpLoop (str1 str2 : ℕ → Traced P Byte) : ℕ → ℕ → Traced P Int
  | 0, i => difference str1 str2 i
  | n + 1, i => do
    let c1 ← str1 i
    if c1 ≠ 0 then
      let c2 ← str2 i
      if c2 ≠ 0 then
        if c1 ≠ c2 then difference str1 str2 i
        else if n = 0 then return 0
        else strncmpLoop str1 str2 n (i + 1)
      else difference str1 str2 i
    else difference str1 str2 i

def strncmp (n : ℕ) (str1 str2 : ℕ → Traced P Byte) : Traced P Int :=
  if n = 0 then pure 0 else strncmpLoop str1 str2 n 0

/-- The copy runs to the first terminator or leaves the destination. -/
theorem strcpyLoop_cases (src : ℕ → Traced P Byte) (left i : ℕ) (d : Chars) :
    (∃ j, i ≤ j ∧ j < i + left ∧ (∀ k, i ≤ k → k < j → (src k).val ≠ 0) ∧ (src j).val = 0 ∧
      (strcpyLoop src left i d).val = some (fun k =>
        if i ≤ k ∧ k < j then (src k).val else if k = j then 0 else d k) ∧
      ∀ p, p ∈ (strcpyLoop src left i d).places ↔ ∃ k, i ≤ k ∧ k ≤ j ∧ p ∈ (src k).places) ∨
    ((∀ k, i ≤ k → k < i + left → (src k).val ≠ 0) ∧ (strcpyLoop src left i d).val = none) := by
  induction left generalizing i d with
  | zero =>
      right
      exact ⟨fun k lower upper => by omega, rfl⟩
  | succ left ih =>
      rw [strcpyLoop]
      by_cases stop : (src i).val = 0
      · left
        refine ⟨i, Nat.le_refl _, by omega, fun k lower upper => by omega, stop, ?_, ?_⟩
        · simp only [Traced.bind_val, stop, ne_eq, not_true, if_false, Traced.pure_val]
          congr 1
          funext k
          have none : ¬ (i ≤ k ∧ k < i) := by omega
          rw [if_neg none, Function.update_apply]
        · intro p
          simp only [Traced.bind_places, stop, ne_eq, not_true, if_false, Traced.pure_places,
            List.append_nil]
          constructor
          · intro member
            exact ⟨i, Nat.le_refl _, Nat.le_refl _, member⟩
          · rintro ⟨k, lower, upper, member⟩
            rwa [(by omega : k = i)] at member
      · rcases ih (i + 1) (Function.update d i (src i).val) with
          ⟨j, lower, upper, before, atEnd, value, places⟩ | ⟨all, value⟩
        · left
          refine ⟨j, by omega, by omega, ?_, atEnd, ?_, ?_⟩
          · intro k kLower kUpper
            rcases (by omega : k = i ∨ i + 1 ≤ k) with rfl | above
            · exact stop
            · exact before k above kUpper
          · simp only [Traced.bind_val, ne_eq, stop, not_false_eq_true, if_true]
            rw [value]
            congr 1
            funext k
            by_cases here : k = i
            · subst here
              have first : ¬ (k + 1 ≤ k ∧ k < j) := by omega
              have inside : k ≤ k ∧ k < j := by omega
              rw [if_neg first, if_pos inside, if_neg (by omega), Function.update_self]
            · have same : (i + 1 ≤ k ∧ k < j) ↔ (i ≤ k ∧ k < j) := by omega
              simp only [same, Function.update_of_ne here]
          · intro p
            simp only [Traced.bind_places, ne_eq, stop, not_false_eq_true, if_true,
              List.mem_append, places]
            constructor
            · rintro (member | ⟨k, kLower, kUpper, member⟩)
              · exact ⟨i, Nat.le_refl _, by omega, member⟩
              · exact ⟨k, by omega, kUpper, member⟩
            · rintro ⟨k, kLower, kUpper, member⟩
              rcases (by omega : k = i ∨ i + 1 ≤ k) with rfl | above
              · exact Or.inl member
              · exact Or.inr ⟨k, above, kUpper, member⟩
        · right
          refine ⟨?_, ?_⟩
          · intro k kLower kUpper
            rcases (by omega : k = i ∨ i + 1 ≤ k) with rfl | above
            · exact stop
            · exact all k above (by omega)
          · simp only [Traced.bind_val, ne_eq, stop, not_false_eq_true, if_true]
            exact value

/-- Copying a string that fits. -/
theorem strcpy_holds {size : ℕ} {dest : Chars} {src : ℕ → Traced P Byte} {x : List Byte}
    (holds : Holds (fun i => (src i).val) x) (fits : x.length < size) :
    ∃ d, (strcpy size dest src).val = some d ∧ Holds d x := by
  rcases strcpyLoop_cases src size 0 dest with ⟨j, _, _, before, atEnd, value, _⟩ | ⟨all, _⟩
  · have length : j = x.length := by
      rcases Nat.lt_trichotomy j x.length with shorter | same | longer
      · exact absurd atEnd (holds.ne_zero shorter)
      · exact same
      · exact absurd holds.terminator (before _ (Nat.zero_le _) longer)
    refine ⟨_, value, holds.1, fun i bound => ?_⟩
    dsimp only
    by_cases inside : i < j
    · rw [if_pos ⟨Nat.zero_le _, inside⟩]
      exact holds.2 i bound
    · have here : i = j := by omega
      rw [if_neg (fun h => inside h.2), if_pos here, here, length]
      exact (List.getD_eq_default _ _ (Nat.le_refl _)).symm
  · exact absurd holds.terminator (all _ (Nat.zero_le _) (by omega))

/-- The comparison ends and is zero exactly for equal strings. -/
theorem strcmpLoop_holds {str1 str2 : ℕ → Traced P Byte} {x y : List Byte}
    (holdsX : Holds (fun i => (str1 i).val) x) (holdsY : Holds (fun i => (str2 i).val) y)
    (fuel i : ℕ) (xBound : i ≤ x.length) (yBound : i ≤ y.length)
    (same : ∀ k < i, x.getD k 0 = y.getD k 0) (enough : x.length < i + fuel) :
    ∃ r, (strcmpLoop str1 str2 fuel i).val = some r ∧ (r = 0 ↔ x = y) := by
  induction fuel generalizing i with
  | zero => omega
  | succ fuel ih =>
      rw [strcmpLoop]
      simp only [Traced.bind_val]
      have c1 : (str1 i).val = x.getD i 0 := holdsX.2 i xBound
      have c2 : (str2 i).val = y.getD i 0 := holdsY.2 i yBound
      by_cases more : (str1 i).val ≠ 0 ∧ (str1 i).val = (str2 i).val
      · rw [if_pos more]
        have xMore : i < x.length := by
          rcases Nat.lt_or_eq_of_le xBound with inside | atEnd
          · exact inside
          · exact absurd (atEnd ▸ holdsX.terminator) more.1
        have yMore : i < y.length := by
          rcases Nat.lt_or_eq_of_le yBound with inside | atEnd
          · exact inside
          · exact absurd (more.2.trans (atEnd ▸ holdsY.terminator)) more.1
        apply ih (i + 1) xMore yMore
        · intro k bound
          rcases (by omega : k < i ∨ k = i) with before | rfl
          · exact same k before
          · rw [← c1, ← c2, more.2]
        · omega
      · rw [if_neg more]
        refine ⟨_, rfl, ?_⟩
        have difference : ((str1 i).val.toNat : Int) - (str2 i).val.toNat = 0 ↔
            (str1 i).val = (str2 i).val := by
          rw [← BitVec.toNat_inj]
          omega
        rw [difference]
        constructor
        · intro equal
          have atEnd : (str1 i).val = 0 := by
            by_contra nonzero
            exact more ⟨nonzero, equal⟩
          have xEnd : i = x.length := by
            by_contra inside
            exact holdsX.ne_zero (by omega : i < x.length) atEnd
          have yEnd : i = y.length := by
            by_contra inside
            exact holdsY.ne_zero (by omega : i < y.length) (equal ▸ atEnd)
          apply List.ext_getElem (by omega)
          intro k kX kY
          have values := same k (by omega)
          rwa [List.getD_eq_getElem _ _ kX, List.getD_eq_getElem _ _ kY] at values
        · rintro rfl
          rw [c1, c2]

theorem strcmp_holds {str1 str2 : ℕ → Traced P Byte} {x y : List Byte}
    (holdsX : Holds (fun i => (str1 i).val) x) (holdsY : Holds (fun i => (str2 i).val) y)
    {fuel : ℕ} (enough : x.length < fuel) :
    ∃ r, (strcmp fuel str1 str2).val = some r ∧ (r = 0 ↔ x = y) :=
  strcmpLoop_holds holdsX holdsY fuel 0 (Nat.zero_le _) (Nat.zero_le _)
    (fun k bound => absurd bound (Nat.not_lt_zero k)) (by omega)

theorem strlenLoop_holds {str : ℕ → Traced P Byte} {x : List Byte}
    (holds : Holds (fun i => (str i).val) x) (fuel len : ℕ) (bound : len ≤ x.length)
    (enough : x.length < len + fuel) : (strlenLoop str fuel len).val = some x.length := by
  induction fuel generalizing len with
  | zero => omega
  | succ fuel ih =>
      rw [strlenLoop]
      simp only [Traced.bind_val]
      rcases Nat.lt_or_eq_of_le bound with inside | atEnd
      · rw [if_pos (holds.ne_zero inside)]
        exact ih (len + 1) inside (by omega)
      · have stop : (str len).val = 0 := atEnd ▸ holds.terminator
        rw [if_neg (not_not.mpr stop), atEnd]
        rfl

theorem strlen_holds {str : ℕ → Traced P Byte} {x : List Byte}
    (holds : Holds (fun i => (str i).val) x) {fuel : ℕ} (enough : x.length < fuel) :
    (strlen fuel str).val = some x.length :=
  strlenLoop_holds holds fuel 0 (Nat.zero_le _) (by omega)

/-- With the length of the second string the comparison is a test for a prefix. -/
theorem strncmpLoop_holds {str1 str2 : ℕ → Traced P Byte} {x y : List Byte}
    (holdsX : Holds (fun i => (str1 i).val) x) (holdsY : Holds (fun i => (str2 i).val) y)
    (n i : ℕ) (xBound : i ≤ x.length) (rest : i + n = y.length) (more : n ≠ 0) :
    (strncmpLoop str1 str2 n i).val = 0 ↔ y.drop i <+: x.drop i := by
  induction n generalizing i with
  | zero => exact absurd rfl more
  | succ n ih =>
      have yMore : i < y.length := by omega
      have c1 : (str1 i).val = x.getD i 0 := holdsX.2 i xBound
      have c2 : (str2 i).val = y[i] :=
        (holdsY.2 i (by omega)).trans (List.getD_eq_getElem _ _ yMore)
      have nonzero : (str2 i).val ≠ 0 := holdsY.ne_zero yMore
      have zero : (difference str1 str2 i).val = 0 ↔ (str1 i).val = (str2 i).val := by
        rw [← BitVec.toNat_inj]
        simp only [difference, Traced.bind_val, Traced.pure_val]
        omega
      rw [strncmpLoop, List.drop_eq_getElem_cons yMore]
      simp only [Traced.bind_val]
      rcases Nat.lt_or_eq_of_le xBound with inside | atEnd
      · rw [if_pos (holdsX.ne_zero inside), List.drop_eq_getElem_cons inside,
          List.cons_prefix_cons]
        rw [List.getD_eq_getElem _ _ inside] at c1
        simp only [Traced.bind_val]
        rw [if_pos nonzero]
        by_cases same : (str1 i).val = (str2 i).val
        · have heads : y[i] = x[i] := by rw [← c1, ← c2, same]
          rw [if_neg (not_not.mpr same)]
          by_cases last : n = 0
          · have nothing : y.drop (i + 1) = [] := List.drop_of_length_le (by omega)
            rw [if_pos last, nothing]
            exact ⟨fun _ => ⟨heads, List.nil_prefix⟩, fun _ => rfl⟩
          · rw [if_neg last, ih (i + 1) inside (by omega) last]
            exact (and_iff_right heads).symm
        · have heads : y[i] ≠ x[i] := by
            rw [← c1, ← c2]
            exact Ne.symm same
          rw [if_pos same, zero]
          exact iff_of_false same fun both => heads both.1
      · -- the first string ends where the second goes on
        have stop : (str1 i).val = 0 := atEnd ▸ holdsX.terminator
        have nothing : x.drop i = [] := List.drop_of_length_le (by omega)
        rw [if_neg (not_not.mpr stop), zero, nothing, stop]
        exact iff_of_false (Ne.symm nonzero)
          fun wrong => List.cons_ne_nil _ _ (List.prefix_nil.mp wrong)

theorem strncmp_holds {str1 str2 : ℕ → Traced P Byte} {x y : List Byte}
    (holdsX : Holds (fun i => (str1 i).val) x) (holdsY : Holds (fun i => (str2 i).val) y) :
    (strncmp y.length str1 str2).val = 0 ↔ y <+: x := by
  unfold strncmp
  by_cases empty : y.length = 0
  · rw [if_pos empty, List.length_eq_zero_iff.mp empty]
    exact iff_of_true rfl List.nil_prefix
  · rw [if_neg empty]
    exact strncmpLoop_holds holdsX holdsY y.length 0 (Nat.zero_le _) (Nat.zero_add _) empty

/-- The comparison reads no string past the terminator of the first. -/
theorem strcmpLoop_places (str1 str2 : ℕ → Traced P Byte) {j : ℕ} (atEnd : (str1 j).val = 0)
    (fuel i : ℕ) (before : i ≤ j) (p : P) (member : p ∈ (strcmpLoop str1 str2 fuel i).places) :
    ∃ k ≤ j, p ∈ (str1 k).places ∨ p ∈ (str2 k).places := by
  induction fuel generalizing i with
  | zero => simp [strcmpLoop] at member
  | succ fuel ih =>
      rw [strcmpLoop] at member
      simp only [Traced.bind_places, List.mem_append] at member
      rcases member with first | second | rest
      · exact ⟨i, before, Or.inl first⟩
      · exact ⟨i, before, Or.inr second⟩
      · by_cases more : (str1 i).val ≠ 0 ∧ (str1 i).val = (str2 i).val
        · rw [if_pos more] at rest
          have notEnd : i ≠ j := fun here => more.1 (here ▸ atEnd)
          exact ih (i + 1) (by omega) rest
        · rw [if_neg more] at rest
          simp at rest

theorem strcmp_places (str1 str2 : ℕ → Traced P Byte) {j : ℕ} (atEnd : (str1 j).val = 0)
    (fuel : ℕ) (p : P) (member : p ∈ (strcmp fuel str1 str2).places) :
    ∃ k ≤ j, p ∈ (str1 k).places ∨ p ∈ (str2 k).places :=
  strcmpLoop_places str1 str2 atEnd fuel 0 (Nat.zero_le _) p member

end Strings

end OrbitOs.Kernel
