import OrbitOs.Kernel.CString

/-!
# `strcmp` and `strncmp` are the lexicographic comparison

Byte sequences are compared by `compare` on lists: bytes as unsigned numbers, and
a sequence that ends first is the lower one, which is what a terminator below
every byte means.  A read is logged with its string and its offset.
-/

set_option autoImplicit false

namespace OrbitOs.Kernel

open OrbitOs.Machine OrbitOs.Base

inductive Operand
  | str1 | str2
  deriving DecidableEq, Repr

/-- Reading a string, logging which one and where. -/
def reading (which : Operand) (a : Chars) (i : ℕ) : Traced (Operand × ℕ) Byte :=
  Traced.access (which, i) (a i)

@[simp] theorem reading_val (which : Operand) (a : Chars) (i : ℕ) :
    (reading which a i).val = a i := rfl

@[simp] theorem reading_places (which : Operand) (a : Chars) (i : ℕ) :
    (reading which a i).places = [(which, i)] := rfl

/-- A round reads both strings at one offset before anything else. -/
theorem offset_of_round {a b : Chars} {which : Operand} {i j : ℕ} {rest : List (Operand × ℕ)}
    (member : (which, j) ∈ (reading .str1 a i).places ++ ((reading .str2 b i).places ++ rest)) :
    j = i ∨ (which, j) ∈ rest := by
  simp only [reading_places, List.mem_append, List.mem_singleton, Prod.mk.injEq] at member
  rcases member with ⟨_, here⟩ | ⟨_, here⟩ | later
  · exact Or.inl here
  · exact Or.inl here
  · exact Or.inr later

/-- A list of bytes laid out with its terminator. -/
def stored (x : List Byte) : Chars := fun i => x.getD i 0

theorem stored_holds {x : List Byte} (noNul : 0 ∉ x) : Holds (stored x) x :=
  ⟨noNul, fun _ _ => rfl⟩

/-! ## The counter of `strncmp` -/

/-- The loop on the machine's own counter: `n--` hands out the old value, and below
zero it goes on at 2^32 - 1. -/
def strncmpCountedLoop {P : Type} (str1 str2 : ℕ → Traced P Byte) :
    ℕ → Word → ℕ → Traced P (Option Int)
  | 0, _, _ => pure none
  | fuel + 1, n, i => do
    let old := n
    let n := n - 1
    if 0 < old.toNat then
      let c1 ← str1 i
      if c1 ≠ 0 then
        let c2 ← str2 i
        if c2 ≠ 0 then
          if c1 ≠ c2 then return some (← difference str1 str2 i)
          else if n = 0 then return some 0
          else strncmpCountedLoop str1 str2 fuel n (i + 1)
        else return some (← difference str1 str2 i)
      else return some (← difference str1 str2 i)
    else return some (← difference str1 str2 i)

def strncmpCounted {P : Type} (fuel : ℕ) (n : Word) (str1 str2 : ℕ → Traced P Byte) :
    Traced P (Option Int) :=
  if n = 0 then pure (some 0) else strncmpCountedLoop str1 str2 fuel n 0

theorem toNat_sub_one {n : Word} (positive : 0 < n.toNat) : (n - 1).toNat = n.toNat - 1 := by
  have upper := n.isLt
  have one : (1 : Word).toNat = 1 := rfl
  rw [BitVec.toNat_sub, one]
  omega

/-- The counter never wraps while the loop goes on, so that counting down a natural
number is the same. -/
theorem strncmpCountedLoop_eq {P : Type} (str1 str2 : ℕ → Traced P Byte) (fuel : ℕ) (n : Word)
    (i : ℕ) (enough : n.toNat < fuel) :
    (strncmpCountedLoop str1 str2 fuel n i).val = some (strncmpLoop str1 str2 n.toNat i).val ∧
      (strncmpCountedLoop str1 str2 fuel n i).places =
        (strncmpLoop str1 str2 n.toNat i).places := by
  induction fuel generalizing n i with
  | zero => omega
  | succ fuel ih =>
      rw [strncmpCountedLoop]
      cases count : n.toNat with
      | zero => simp [strncmpLoop]
      | succ m =>
          have next : (n - 1).toNat = m := by
            rw [toNat_sub_one (by omega), count]
            rfl
          have last : n - 1#32 = 0#32 ↔ m = 0 := by
            rw [← BitVec.toNat_inj]
            exact iff_of_eq (congrArg (· = 0) next)
          have rest := ih (n - 1) (i + 1) (by omega)
          rw [next] at rest
          rw [if_pos (Nat.succ_pos m), strncmpLoop]
          by_cases end1 : (str1 i).val = 0#8
          · simp [end1]
          · by_cases end2 : (str2 i).val = 0#8
            · simp [end1, end2]
            · by_cases same : (str1 i).val = (str2 i).val
              · by_cases done : m = 0
                · simp [end2, same, last, done]
                · simpa [end2, same, last, done] using rest
              · simp [end1, end2, same]

theorem strncmpCounted_eq {P : Type} (str1 str2 : ℕ → Traced P Byte) {fuel : ℕ} {n : Word}
    (enough : n.toNat < fuel) :
    (strncmpCounted fuel n str1 str2).val = some (strncmp n.toNat str1 str2).val ∧
      (strncmpCounted fuel n str1 str2).places = (strncmp n.toNat str1 str2).places := by
  have zero : n = 0 ↔ n.toNat = 0 := by
    rw [← BitVec.toNat_inj]
    rfl
  unfold strncmpCounted strncmp
  by_cases empty : n = 0
  · simp [empty]
  · rw [if_neg empty, if_neg fun h => empty (zero.mpr h)]
    exact strncmpCountedLoop_eq str1 str2 fuel n 0 enough

/-! ## Where a comparison stops -/

/-- Up to `k` the strings neither differ nor end. -/
def SameBefore (a b : Chars) (k : ℕ) : Prop := ∀ j < k, a j = b j ∧ a j ≠ 0

/-- `k` is the first difference or the first terminator. -/
def StopsAt (a b : Chars) (k : ℕ) : Prop := SameBefore a b k ∧ (a k = 0 ∨ a k ≠ b k)

theorem holds_cons {a : Chars} {c : Byte} {x : List Byte} (holds : Holds a (c :: x)) :
    a 0 = c ∧ c ≠ 0 ∧ Holds (fun i => a (i + 1)) x := by
  refine ⟨holds.2 0 (Nat.zero_le _), ?_, ?_, ?_⟩
  · rintro rfl
    exact holds.1 List.mem_cons_self
  · exact fun member => holds.1 (List.mem_cons_of_mem _ member)
  · intro i bound
    exact holds.2 (i + 1) (Nat.succ_le_succ bound)

theorem StopsAt.tail {a b : Chars} {k : ℕ} (stops : StopsAt a b (k + 1)) :
    StopsAt (fun i => a (i + 1)) (fun i => b (i + 1)) k :=
  ⟨fun j bound => stops.1 (j + 1) (Nat.succ_lt_succ bound), stops.2⟩

theorem exists_stop {a : Chars} {x : List Byte} (holds : Holds a x) (b : Chars) :
    ∃ k ≤ x.length, StopsAt a b k := by
  induction x generalizing a b with
  | nil => exact ⟨0, Nat.le_refl _, fun j bound => absurd bound (Nat.not_lt_zero j),
      Or.inl holds.terminator⟩
  | cons c x ih =>
      obtain ⟨first, nonzero, rest⟩ := holds_cons holds
      by_cases same : a 0 = b 0
      · obtain ⟨k, bound, stops⟩ := ih rest fun i => b (i + 1)
        refine ⟨k + 1, Nat.succ_le_succ bound, ?_, stops.2⟩
        intro j below
        cases j with
        | zero => exact ⟨same, first ▸ nonzero⟩
        | succ j => exact stops.1 j (Nat.lt_of_succ_lt_succ below)
      · exact ⟨0, Nat.zero_le _, fun j bound => absurd bound (Nat.not_lt_zero j), Or.inr same⟩

theorem compare_toNat (c d : Byte) : compare c d = compare c.toNat d.toNat := by
  have order : c < d ↔ c.toNat < d.toNat := BitVec.lt_def
  have equal : c = d ↔ c.toNat = d.toNat := BitVec.toNat_inj.symm
  simp only [compare, compareOfLessAndEq, order, equal]

theorem toNat_pos {c : Byte} (nonzero : c ≠ 0) : 0 < c.toNat :=
  Nat.pos_of_ne_zero fun zero => nonzero (BitVec.eq_of_toNat_eq zero)

/-- The bytes at the stop decide how the sequences compare. -/
theorem compare_stop {a b : Chars} {x y : List Byte} {k : ℕ} (holdsX : Holds a x)
    (holdsY : Holds b y) (stops : StopsAt a b k) : compare x y = compare (a k) (b k) := by
  induction k generalizing a b x y with
  | zero =>
      cases x with
      | nil =>
          have endX : a 0 = 0 := holdsX.terminator
          cases y with
          | nil =>
              have endY : b 0 = 0 := holdsY.terminator
              rw [endX, endY]
              rfl
          | cons d y =>
              obtain ⟨first, nonzero, _⟩ := holds_cons holdsY
              rw [List.compare_nil_cons, endX, first, compare_toNat]
              exact (Nat.compare_eq_lt.mpr (toNat_pos nonzero)).symm
      | cons c x =>
          obtain ⟨firstX, nonzeroX, _⟩ := holds_cons holdsX
          cases y with
          | nil =>
              have endY : b 0 = 0 := holdsY.terminator
              rw [List.compare_cons_nil, endY, firstX, compare_toNat]
              exact (Nat.compare_eq_gt.mpr (toNat_pos nonzeroX)).symm
          | cons d y =>
              obtain ⟨firstY, _, _⟩ := holds_cons holdsY
              have differ : c ≠ d := by
                rcases stops.2 with stop | differ
                · exact absurd (firstX ▸ stop) nonzeroX
                · rwa [firstX, firstY] at differ
              rw [List.compare_cons_cons, firstX, firstY]
              cases order : compare c d with
              | lt => rfl
              | gt => rfl
              | eq => exact absurd (Std.LawfulEqOrd.compare_eq_iff_eq.mp order) differ
  | succ k ih =>
      obtain ⟨same, nonzero⟩ := stops.1 0 (Nat.succ_pos k)
      cases x with
      | nil => exact absurd holdsX.terminator nonzero
      | cons c x =>
          cases y with
          | nil => exact absurd (same.trans holdsY.terminator) nonzero
          | cons d y =>
              obtain ⟨firstX, _, restX⟩ := holds_cons holdsX
              obtain ⟨firstY, _, restY⟩ := holds_cons holdsY
              have heads : c = d := by rw [← firstX, ← firstY, same]
              have equal : compare c d = .eq := Std.LawfulEqOrd.compare_eq_iff_eq.mpr heads
              rw [List.compare_cons_cons, equal]
              exact ih restX restY stops.tail

/-- `*str1 - *str2` on unsigned characters has the sign of their comparison. -/
theorem compare_difference (c d : Byte) :
    compare ((c.toNat : Int) - d.toNat) 0 = compare c d := by
  rw [compare_toNat]
  rcases Nat.lt_trichotomy c.toNat d.toNat with below | same | above
  · rw [Nat.compare_eq_lt.mpr below]
    exact Int.compare_eq_lt.mpr (by omega)
  · rw [Nat.compare_eq_eq.mpr same]
    exact Int.compare_eq_eq.mpr (by omega)
  · rw [Nat.compare_eq_gt.mpr above]
    exact Int.compare_eq_gt.mpr (by omega)

/-! ## The two functions -/

section Strings

variable {a b : Chars} {k : ℕ} (stops : StopsAt a b k)

include stops

theorem strcmpLoop_stop (fuel i : ℕ) (before : i ≤ k) (enough : k < i + fuel) :
    (strcmpLoop (reading .str1 a) (reading .str2 b) fuel i).val =
        some ((a k).toNat - (b k).toNat : Int) ∧
      ∀ which j, (which, j) ∈ (strcmpLoop (reading .str1 a) (reading .str2 b) fuel i).places →
        j ≤ k := by
  induction fuel generalizing i with
  | zero => omega
  | succ fuel ih =>
      rw [strcmpLoop]
      simp only [Traced.bind_val, Traced.bind_places]
      rcases Nat.lt_or_eq_of_le before with more | rfl
      · obtain ⟨same, nonzero⟩ := stops.1 i more
        obtain ⟨value, places⟩ := ih (i + 1) more (by omega)
        have goes : (reading .str1 a i).val ≠ 0 ∧
            (reading .str1 a i).val = (reading .str2 b i).val := ⟨nonzero, same⟩
        rw [if_pos goes]
        refine ⟨value, fun which j member => ?_⟩
        rcases offset_of_round member with here | later
        · omega
        · exact places which j later
      · have stop : ¬ ((reading .str1 a i).val ≠ 0 ∧
            (reading .str1 a i).val = (reading .str2 b i).val) := fun more =>
          stops.2.elim more.1 fun differ => differ more.2
        rw [if_neg stop]
        refine ⟨rfl, fun which j member => ?_⟩
        rcases offset_of_round member with here | later
        · omega
        · exact absurd later List.not_mem_nil

/-- Each of the three exits of the loop subtracts the bytes at the stop. -/
theorem strncmpLoop_exit (n : ℕ) :
    (strncmpLoop (reading .str1 a) (reading .str2 b) (n + 1) k).val =
        ((a k).toNat - (b k).toNat : Int) ∧
      ∀ which j, (which, j) ∈
        (strncmpLoop (reading .str1 a) (reading .str2 b) (n + 1) k).places → j = k := by
  rw [strncmpLoop]
  simp only [Traced.bind_val, Traced.bind_places]
  by_cases end1 : (reading .str1 a k).val = 0
  · rw [if_neg (not_not.mpr end1)]
    refine ⟨rfl, fun which j member => ?_⟩
    simp [difference] at member
    omega
  · rw [if_pos end1]
    simp only [Traced.bind_val, Traced.bind_places]
    by_cases end2 : (reading .str2 b k).val = 0
    · rw [if_neg (not_not.mpr end2)]
      refine ⟨rfl, fun which j member => ?_⟩
      simp [difference] at member
      omega
    · have differ : (reading .str1 a k).val ≠ (reading .str2 b k).val :=
        stops.2.resolve_left end1
      rw [if_pos end2, if_pos differ]
      refine ⟨rfl, fun which j member => ?_⟩
      simp [difference] at member
      omega

theorem strncmpLoop_stop (n i : ℕ) (before : i ≤ k) (positive : 0 < n) :
    (strncmpLoop (reading .str1 a) (reading .str2 b) n i).val =
        (if k < i + n then ((a k).toNat - (b k).toNat : Int) else 0) ∧
      ∀ which j, (which, j) ∈ (strncmpLoop (reading .str1 a) (reading .str2 b) n i).places →
        j ≤ k ∧ j < i + n := by
  induction n generalizing i with
  | zero => omega
  | succ n ih =>
      rcases Nat.lt_or_eq_of_le before with more | rfl
      · obtain ⟨same, nonzero⟩ := stops.1 i more
        have more1 : (reading .str1 a i).val ≠ 0 := nonzero
        have more2 : (reading .str2 b i).val ≠ 0 := fun zero => nonzero (same.trans zero)
        have equal : ¬ (reading .str1 a i).val ≠ (reading .str2 b i).val := not_not.mpr same
        rw [strncmpLoop]
        simp only [Traced.bind_val, Traced.bind_places]
        rw [if_pos more1]
        simp only [Traced.bind_val, Traced.bind_places]
        rw [if_pos more2, if_neg equal]
        by_cases last : n = 0
        · rw [if_pos last, if_neg (by omega)]
          refine ⟨rfl, fun which j member => ?_⟩
          rcases offset_of_round member with here | later
          · omega
          · exact absurd later List.not_mem_nil
        · obtain ⟨value, places⟩ := ih (i + 1) more (Nat.pos_of_ne_zero last)
          have count : k < i + 1 + n ↔ k < i + (n + 1) := by omega
          rw [if_neg last, value]
          refine ⟨by simp only [count], fun which j member => ?_⟩
          rcases offset_of_round member with here | later
          · omega
          · have bound := places which j later
            omega
      · obtain ⟨value, places⟩ := strncmpLoop_exit stops n
        rw [if_pos (by omega), value]
        refine ⟨rfl, fun which j member => ?_⟩
        rw [places which j member]
        omega

end Strings

theorem StopsAt.sameBefore {a b : Chars} {j k : ℕ} (stops : StopsAt a b k) (before : j ≤ k) :
    SameBefore a b j := fun i below => stops.1 i (Nat.lt_of_lt_of_le below before)

theorem strcmp_compare {a b : Chars} {x y : List Byte} (holdsX : Holds a x) (holdsY : Holds b y)
    {fuel : ℕ} (enough : x.length < fuel) :
    ∃ r, (strcmp fuel (reading .str1 a) (reading .str2 b)).val = some r ∧
      compare r 0 = compare x y ∧
      ∀ which j, (which, j) ∈ (strcmp fuel (reading .str1 a) (reading .str2 b)).places →
        SameBefore a b j := by
  obtain ⟨k, bound, stops⟩ := exists_stop holdsX b
  obtain ⟨value, places⟩ := strcmpLoop_stop stops fuel 0 (Nat.zero_le k) (by omega)
  refine ⟨_, value, ?_, fun which j member => stops.sameBefore (places which j member)⟩
  rw [compare_difference]
  exact (compare_stop holdsX holdsY stops).symm

/-- The first `n` bytes of a string, and a terminator. -/
def cut (a : Chars) (n : ℕ) : Chars := fun i => if i < n then a i else 0

theorem cut_below (a : Chars) {n i : ℕ} (below : i < n) : cut a n i = a i := if_pos below

theorem cut_from (a : Chars) {n i : ℕ} (above : n ≤ i) : cut a n i = 0 :=
  if_neg (Nat.not_lt.mpr above)

theorem Holds.cut {a : Chars} {x : List Byte} (holds : Holds a x) (n : ℕ) :
    Holds (cut a n) (x.take n) := by
  refine ⟨fun member => holds.1 (List.mem_of_mem_take member), fun i bound => ?_⟩
  rw [List.length_take] at bound
  rcases Nat.lt_or_ge i n with below | above
  · rw [cut_below a below, holds.2 i (by omega), List.getD_eq_getElem?_getD,
      List.getD_eq_getElem?_getD, List.getElem?_take_of_lt below]
  · rw [cut_from a above]
    refine (List.getD_eq_default _ _ ?_).symm
    rw [List.length_take]
    omega

theorem StopsAt.cut {a b : Chars} {k : ℕ} (stops : StopsAt a b k) (n : ℕ) :
    StopsAt (cut a n) (cut b n) (min k n) := by
  constructor
  · intro j below
    have belowN : j < n := by omega
    rw [cut_below a belowN, cut_below b belowN]
    exact stops.1 j (by omega)
  · rcases Nat.lt_or_ge k n with below | above
    · rw [Nat.min_eq_left (Nat.le_of_lt below), cut_below a below, cut_below b below]
      exact stops.2
    · rw [Nat.min_eq_right above]
      exact Or.inl (cut_from a (Nat.le_refl n))

theorem strncmp_compare {a b : Chars} {x y : List Byte} (holdsX : Holds a x)
    (holdsY : Holds b y) (n : ℕ) :
    compare (strncmp n (reading .str1 a) (reading .str2 b)).val 0 =
        compare (x.take n) (y.take n) ∧
      ∀ which j, (which, j) ∈ (strncmp n (reading .str1 a) (reading .str2 b)).places →
        SameBefore a b j ∧ j < n := by
  obtain ⟨k, _, stops⟩ := exists_stop holdsX b
  rw [compare_stop (holdsX.cut n) (holdsY.cut n) (stops.cut n)]
  cases n with
  | zero =>
      rw [Nat.min_zero, cut_from a (Nat.le_refl 0), cut_from b (Nat.le_refl 0)]
      refine ⟨rfl, fun which j member => ?_⟩
      simp [strncmp] at member
  | succ n =>
      obtain ⟨value, places⟩ :=
        strncmpLoop_stop stops (n + 1) 0 (Nat.zero_le k) (Nat.succ_pos n)
      rw [Nat.zero_add] at value
      refine ⟨?_, fun which j member => ?_⟩
      · change compare (strncmpLoop (reading .str1 a) (reading .str2 b) (n + 1) 0).val 0 = _
        rw [value]
        rcases Nat.lt_or_ge k (n + 1) with below | above
        · rw [if_pos below, compare_difference, Nat.min_eq_left (Nat.le_of_lt below),
            cut_below a below, cut_below b below]
        · rw [if_neg (Nat.not_lt.mpr above), Nat.min_eq_right above,
            cut_from a (Nat.le_refl _), cut_from b (Nat.le_refl _)]
          rfl
      · obtain ⟨before, inside⟩ := places which j member
        exact ⟨stops.sameBefore before, by omega⟩

theorem compare_zero_iff {r : Int} {x y : List Byte} (order : compare r 0 = compare x y) :
    r = 0 ↔ x = y := by
  rw [← Int.compare_eq_eq, order]
  exact Std.LawfulEqOrd.compare_eq_iff_eq

/-- Both functions have the sign of the lexicographic comparison, `strncmp` that of the
strings cut to `n` bytes, and a byte is read only if no difference, no terminator and not
the end of the `n` bytes comes before it. -/
theorem strcmp_strncmp_lexicographic {a b : Chars} {x y : List Byte} (holdsX : Holds a x)
    (holdsY : Holds b y) (n : Word) {fuel : ℕ} (enough : x.length < fuel)
    (counted : n.toNat < fuel) :
    ∃ r s t,
      (strcmp fuel (reading .str1 a) (reading .str2 b)).val = some r ∧
      (strncmpCounted fuel n (reading .str1 a) (reading .str2 b)).val = some s ∧
      (strcmp fuel (reading .str1 (cut a n.toNat)) (reading .str2 (cut b n.toNat))).val =
        some t ∧
      compare r 0 = compare x y ∧
      compare s 0 = compare t 0 ∧
      compare s 0 = compare (x.take n.toNat) (y.take n.toNat) ∧
      (∀ which j, (which, j) ∈ (strcmp fuel (reading .str1 a) (reading .str2 b)).places →
        SameBefore a b j) ∧
      (∀ which j,
        (which, j) ∈ (strncmpCounted fuel n (reading .str1 a) (reading .str2 b)).places →
          SameBefore a b j ∧ j < n.toNat) ∧
      (r = 0 ↔ x = y) ∧
      (n.toNat = y.length → (s = 0 ↔ y <+: x)) := by
  obtain ⟨r, strcmpValue, strcmpSign, strcmpReads⟩ := strcmp_compare holdsX holdsY enough
  have shorter : (x.take n.toNat).length < fuel := by
    rw [List.length_take]
    omega
  obtain ⟨t, cutValue, cutSign, _⟩ :=
    strcmp_compare (holdsX.cut n.toNat) (holdsY.cut n.toNat) shorter
  obtain ⟨countedValue, countedPlaces⟩ :=
    strncmpCounted_eq (reading .str1 a) (reading .str2 b) counted
  obtain ⟨strncmpSign, strncmpReads⟩ := strncmp_compare holdsX holdsY n.toNat
  refine ⟨r, _, t, strcmpValue, countedValue, cutValue, strcmpSign,
    strncmpSign.trans cutSign.symm, strncmpSign, strcmpReads, ?_,
    compare_zero_iff strcmpSign, fun length => ?_⟩
  · rw [countedPlaces]
    exact strncmpReads
  · rw [compare_zero_iff strncmpSign, length, List.take_length, List.prefix_iff_eq_take]
    exact eq_comm

/-- `strncmp("cat a", "cat ", 4)`, as the shell calls it. -/
theorem strcmp_strncmp_lexicographic_cat :
    ∃ r s t,
      (strcmp 9 (reading .str1 (stored (charsOf "cat a")))
        (reading .str2 (stored (charsOf "cat ")))).val = some r ∧
      (strncmpCounted 9 4 (reading .str1 (stored (charsOf "cat a")))
        (reading .str2 (stored (charsOf "cat ")))).val = some s ∧
      (strcmp 9 (reading .str1 (cut (stored (charsOf "cat a")) 4))
        (reading .str2 (cut (stored (charsOf "cat ")) 4))).val = some t ∧
      compare r 0 = .gt ∧ s = 0 ∧ t = 0 := by
  obtain ⟨r, s, t, strcmpValue, strncmpValue, cutValue, sign, signs, _, _, _, _, dispatch⟩ :=
    strcmp_strncmp_lexicographic (stored_holds (x := charsOf "cat a") (by decide))
      (stored_holds (x := charsOf "cat ") (by decide)) 4 (by decide : _ < 9) (by decide)
  have zero : s = 0 := (dispatch (by decide)).mpr (by decide)
  rw [zero] at signs
  exact ⟨r, s, t, strcmpValue, strncmpValue, cutValue, sign, zero,
    Int.compare_eq_eq.mp signs.symm⟩

end OrbitOs.Kernel
