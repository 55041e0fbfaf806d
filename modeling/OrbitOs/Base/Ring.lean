import Mathlib.Tactic

/-!
# Singly linked rings

`Ring next l` says that following `next` runs through `l` and from its last
element back to the first.  The list is the order in which the elements were
linked in, so a new element goes between the last and the first.
-/

set_option autoImplicit false

namespace OrbitOs.Base

structure Ring {α : Type} (next : α → α) (l : List α) : Prop where
  nonempty : 0 < l.length
  nodup : l.Nodup
  linked : ∀ i a b, l[i]? = some a → l[(i + 1) % l.length]? = some b → next a = b

/-- `while (tail->next != head) tail = tail->next`, for at most `fuel` tests. -/
def tailFrom {α : Type} [DecidableEq α] (next : α → α) (head : α) : ℕ → α → Option α
  | 0, _ => none
  | fuel + 1, tail => if next tail = head then some tail else tailFrom next head fuel (next tail)

/-- What the search ends at was reached from its first argument. -/
theorem tailFrom_reached {α : Type} [DecidableEq α] {next : α → α} {head last : α} {fuel : ℕ}
    {a : α} (found : tailFrom next head fuel a = some last) : ∃ n, next^[n] a = last := by
  induction fuel generalizing a with
  | zero => contradiction
  | succ fuel ih =>
      rw [tailFrom] at found
      split at found
      · exact ⟨0, Option.some.inj found⟩
      · obtain ⟨n, reached⟩ := ih found
        exact ⟨n + 1, reached⟩

theorem iterate_congr {α : Type} {next next' : α → α} {a : α}
    (same : ∀ n, next' (next^[n] a) = next (next^[n] a)) (n : ℕ) : next'^[n] a = next^[n] a := by
  induction n with
  | zero => rfl
  | succ n ih => rw [Function.iterate_succ_apply', Function.iterate_succ_apply', ih, same]

namespace Ring

variable {α : Type} {next next' : α → α} {l : List α}

theorem index_inj (ring : Ring next l) {i j : ℕ} {a : α} (atI : l[i]? = some a)
    (atJ : l[j]? = some a) : i = j := by
  have bound : i < l.length := (List.getElem?_eq_some_iff.mp atI).1
  exact (List.getElem?_inj bound ring.nodup).mp (atI.trans atJ.symm)

theorem congr (ring : Ring next l) (same : ∀ a ∈ l, next' a = next a) : Ring next' l where
  nonempty := ring.nonempty
  nodup := ring.nodup
  linked := fun i a b atI atNext =>
    (same a (List.mem_of_getElem? atI)).trans (ring.linked i a b atI atNext)

theorem singleton {a : α} (own : next a = a) : Ring next [a] where
  nonempty := Nat.one_pos
  nodup := List.nodup_singleton a
  linked := by
    intro i x y atI atNext
    rw [List.length_singleton, Nat.mod_one, List.getElem?_cons_zero] at atNext
    cases atNext
    cases List.mem_singleton.mp (List.mem_of_getElem? atI)
    exact own

/-- The element after position `i`, by its position. -/
theorem next_at (ring : Ring next l) {i : ℕ} {a : α} (atI : l[i]? = some a) :
    l[(i + 1) % l.length]? = some (next a) := by
  have bound : (i + 1) % l.length < l.length := Nat.mod_lt _ ring.nonempty
  have found := List.getElem?_eq_getElem bound
  rw [ring.linked i a _ atI found]
  exact found

/-- Going round once from the first element. -/
theorem iterate_at (ring : Ring next l) {head : α} (first : l[0]? = some head) {i : ℕ}
    (bound : i < l.length) : l[i]? = some (next^[i] head) := by
  induction i with
  | zero => exact first
  | succ i ih =>
      have after := ring.next_at (ih (by omega))
      rw [Nat.mod_eq_of_lt bound] at after
      rw [Function.iterate_succ_apply']
      exact after

theorem iterate_length (ring : Ring next l) {head : α} (first : l[0]? = some head) :
    next^[l.length] head = head := by
  have nonempty := ring.nonempty
  obtain ⟨n, length⟩ : ∃ n, l.length = n + 1 := ⟨l.length - 1, by omega⟩
  have after := ring.next_at (ring.iterate_at first (by omega : n < l.length))
  rw [length, Nat.mod_self, first] at after
  rw [length, Function.iterate_succ_apply']
  exact (Option.some.inj after).symm

/-- `last` is followed by the first element exactly when it is the last one. -/
theorem next_eq_head_iff (ring : Ring next l) {i : ℕ} {a head : α} (atI : l[i]? = some a)
    (first : l[0]? = some head) : next a = head ↔ i + 1 = l.length := by
  have bound : i < l.length := (List.getElem?_eq_some_iff.mp atI).1
  constructor
  · intro back
    have wraps := ring.index_inj (ring.next_at atI) (back ▸ first)
    by_contra inner
    rw [Nat.mod_eq_of_lt (by omega)] at wraps
    omega
  · intro last
    refine ring.linked i a head atI ?_
    rw [last, Nat.mod_self]
    exact first

theorem tailFrom_at [DecidableEq α] (ring : Ring next l) {head last : α}
    (first : l[0]? = some head) (final : l[l.length - 1]? = some last) {fuel i : ℕ} {a : α}
    (atI : l[i]? = some a) (enough : l.length ≤ i + fuel) :
    tailFrom next head fuel a = some last := by
  have bound : i < l.length := (List.getElem?_eq_some_iff.mp atI).1
  induction fuel generalizing i a with
  | zero => omega
  | succ fuel ih =>
      unfold tailFrom
      by_cases done : i + 1 = l.length
      · rw [if_pos ((ring.next_eq_head_iff atI first).mpr done)]
        rw [show l.length - 1 = i by omega, atI] at final
        exact final
      · rw [if_neg fun back => done ((ring.next_eq_head_iff atI first).mp back)]
        have step := ring.next_at atI
        rw [Nat.mod_eq_of_lt (by omega)] at step
        exact ih step (by omega) (by omega)

/-- As many tests as the ring has elements find the last one. -/
theorem tailFrom_eq_last [DecidableEq α] (ring : Ring next l) {head last : α}
    (first : l[0]? = some head) (final : l[l.length - 1]? = some last) {fuel : ℕ}
    (enough : l.length ≤ fuel) : tailFrom next head fuel head = some last :=
  ring.tailFrom_at first final first (by omega)

/-- Link `p` in between the last element and the first. -/
theorem append (ring : Ring next l) {p last head : α} (fresh : p ∉ l)
    (final : l[l.length - 1]? = some last) (first : l[0]? = some head)
    (toNew : next' last = p) (back : next' p = head)
    (same : ∀ a ∈ l, a ≠ last → next' a = next a) : Ring next' (l ++ [p]) where
  nonempty := by
    rw [List.length_append, List.length_singleton]
    omega
  nodup := by
    rw [List.nodup_append]
    refine ⟨ring.nodup, List.nodup_singleton p, ?_⟩
    intro a inL b isP same
    cases List.mem_singleton.mp isP
    exact fresh (same ▸ inL)
  linked := by
    intro i a b atI atNext
    have bound : i < l.length + 1 := by
      have := (List.getElem?_eq_some_iff.mp atI).1
      rwa [List.length_append] at this
    rw [List.length_append, List.length_singleton] at atNext
    rcases (by omega : i + 1 < l.length ∨ i + 1 = l.length ∨ i = l.length) with inner | seam | new
    · rw [List.getElem?_append_left (by omega)] at atI
      rw [Nat.mod_eq_of_lt (by omega), List.getElem?_append_left inner] at atNext
      have notLast : a ≠ last := by
        intro isLast
        have := ring.index_inj atI (isLast ▸ final)
        omega
      rw [same a (List.mem_of_getElem? atI) notLast]
      refine ring.linked i a b atI ?_
      rwa [Nat.mod_eq_of_lt inner]
    · rw [List.getElem?_append_left (by omega), show i = l.length - 1 by omega, final] at atI
      cases atI
      rw [Nat.mod_eq_of_lt (by omega), seam, List.getElem?_concat_length] at atNext
      cases atNext
      exact toNew
    · subst new
      rw [List.getElem?_concat_length] at atI
      cases atI
      rw [Nat.mod_self, List.getElem?_append_left ring.nonempty, first] at atNext
      cases atNext
      exact back

end Ring

end OrbitOs.Base
