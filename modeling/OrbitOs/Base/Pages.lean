import Mathlib.Order.Interval.Set.Basic
import Mathlib.Tactic

/-!
# Ranges of addresses walked page by page

A loop that starts at `a` and advances by the page size `p` as long as it is
within `l` of the start visits one address in each page it hits, the one with
the offset of `a`.  A hit page that is not part of the range is its first or
its last one.
-/

set_option autoImplicit false

namespace OrbitOs.Base

/-- The addresses of page `k`. -/
def page (p k : ℕ) : Set ℕ := Set.Ico (p * k) (p * k + p)

/-- The walk from `a` of length `l` visits page `k`. -/
def Hits (p a l k : ℕ) : Prop := a ≤ p * k + a % p ∧ p * k + a % p < a + l

instance (p a l k : ℕ) : Decidable (Hits p a l k) := inferInstanceAs (Decidable (_ ∧ _))

variable {p a l k x : ℕ}

theorem mem_page_iff (positive : 0 < p) : x ∈ page p k ↔ x / p = k := by
  rw [page, Set.mem_Ico, Nat.div_eq_iff positive, Nat.mul_comm k p]
  omega

theorem page_subset_Ico_iff (positive : 0 < p) {b : ℕ} :
    page p k ⊆ Set.Ico a b ↔ a ≤ p * k ∧ p * k + p ≤ b :=
  Set.Ico_subset_Ico_iff (by omega)

/-- The visited address of a page. -/
theorem exists_step_iff (positive : 0 < p) :
    (∃ n, p * n < l ∧ (a + p * n) / p = k) ↔ Hits p a l k := by
  have split := Nat.div_add_mod a p
  have offset := Nat.mod_lt a positive
  unfold Hits
  constructor
  · rintro ⟨n, bound, rfl⟩
    rw [Nat.add_mul_div_left _ _ positive, Nat.mul_add]
    omega
  · rintro ⟨lower, upper⟩
    have start : a / p ≤ k := by
      by_contra above
      have next : p * (k + 1) ≤ p * (a / p) := Nat.mul_le_mul_left p (by omega)
      rw [Nat.mul_add] at next
      omega
    obtain ⟨n, rfl⟩ := Nat.exists_eq_add_of_le start
    rw [Nat.mul_add] at upper
    exact ⟨n, by omega, Nat.add_mul_div_left _ _ positive⟩

/-- On a circle of `m` pages the walk may pass the end once. -/
theorem exists_step_mod_iff (positive : 0 < p) {m : ℕ} (aBound : a < p * m)
    (lBound : l ≤ p * m) : (∃ n, p * n < l ∧ (a + p * n) % (p * m) / p = k) ↔
      k < m ∧ (Hits p a l k ∨ Hits p a l (k + m)) := by
  rw [← exists_step_iff positive, ← exists_step_iff positive, ← exists_or]
  have wrapped : ∀ n, p * n < l → ((a + p * n) % (p * m) / p = k ↔
      k < m ∧ ((a + p * n) / p = k ∨ (a + p * n) / p = k + m)) := by
    intro n bound
    have twice : (a + p * n) / p < m + m := by
      rw [Nat.div_lt_iff_lt_mul positive, Nat.add_mul, Nat.mul_comm m p]
      omega
    rw [Nat.mod_mul_right_div_self]
    generalize (a + p * n) / p = q at twice ⊢
    rcases Nat.lt_or_ge q m with below | above
    · rw [Nat.mod_eq_of_lt below]
      omega
    · rw [Nat.mod_eq_sub_mod above, Nat.mod_eq_of_lt (by omega)]
      omega
  constructor
  · rintro ⟨n, bound, value⟩
    obtain ⟨kBound, lap⟩ := (wrapped n bound).mp value
    exact ⟨kBound, n, lap.imp (fun same => ⟨bound, same⟩) (fun same => ⟨bound, same⟩)⟩
  · rintro ⟨kBound, n, ⟨bound, same⟩ | ⟨bound, same⟩⟩
    · exact ⟨n, bound, (wrapped n bound).mpr ⟨kBound, Or.inl same⟩⟩
    · exact ⟨n, bound, (wrapped n bound).mpr ⟨kBound, Or.inr same⟩⟩

/-- A page that lies in the range is hit. -/
theorem hits_of_page_subset (positive : 0 < p) (subset : page p k ⊆ Set.Ico a (a + l)) :
    Hits p a l k := by
  rw [page_subset_Ico_iff positive] at subset
  have offset := Nat.mod_lt a positive
  unfold Hits
  omega

/-- What a hit page has beyond the range: the addresses before the start in its
first page, or those from the end on in its last one. -/
theorem Hits.outside (positive : 0 < p) (hits : Hits p a l k) (member : x ∈ page p k)
    (outside : x ∉ Set.Ico a (a + l)) :
    (x < a ∧ a / p = k) ∨ (a + l ≤ x ∧ (a + l) / p = k ∧ a % p < (a + l) % p) := by
  obtain ⟨lower, upper⟩ := hits
  have offset := Nat.mod_lt a positive
  rw [page, Set.mem_Ico] at member
  rw [Set.mem_Ico, not_and, not_lt] at outside
  rcases Nat.lt_or_ge x a with before | inside
  · left
    refine ⟨before, (Nat.div_eq_iff positive).mpr ?_⟩
    rw [Nat.mul_comm k p]
    omega
  · right
    have behind := outside inside
    have last : (a + l) / p = k := by
      rw [Nat.div_eq_iff positive, Nat.mul_comm k p]
      omega
    have split := Nat.div_add_mod (a + l) p
    rw [last] at split
    exact ⟨behind, last, by omega⟩

end OrbitOs.Base
