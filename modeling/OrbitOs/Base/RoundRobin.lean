import Mathlib.Tactic
import OrbitOs.Base.RingBuffer

/-!
# Round robin with joining members

A cursor goes round the members of a rota, and new members join behind the
last one.  Whoever is at the cursor has its turn; `Turns` lists the turns of a
stretch of time in their order.
-/

set_option autoImplicit false

namespace OrbitOs.Base

structure Rota where
  count : ℕ
  cursor : ℕ

namespace Rota

def next (r : Rota) : ℕ := (r.cursor + 1) % r.count

inductive Turns (r : Rota) : List ℕ → Rota → Prop
  | none : Turns r [] r
  | turn {turns : List ℕ} {r' : Rota} : Turns r turns r' →
      Turns r (turns ++ [r'.next]) ⟨r'.count, r'.next⟩
  | join {turns : List ℕ} {r' : Rota} : Turns r turns r' → Turns r turns ⟨r'.count + 1, r'.cursor⟩

variable {r r' : Rota} {turns : List ℕ}

theorem next_lt (inside : r.cursor < r.count) : r.next < r.count :=
  Nat.mod_lt _ (Nat.zero_lt_of_lt inside)

theorem Turns.count_le (stretch : Turns r turns r') : r.count ≤ r'.count := by
  induction stretch with
  | none => exact Nat.le_refl _
  | turn _ ih => exact ih
  | join _ ih => exact Nat.le_succ_of_le ih

theorem Turns.cursor_lt (stretch : Turns r turns r') (inside : r.cursor < r.count) :
    r'.cursor < r'.count := by
  induction stretch with
  | none => exact inside
  | turn _ ih => exact next_lt ih
  | join _ ih => exact Nat.lt_succ_of_lt ih

/-- Until its own next turn, member `i` is followed by the members behind it, up
to those who joined before the cursor went back to the first, and then by the
members in front of it. -/
theorem Turns.order (stretch : Turns r turns r') (inside : r.cursor < r.count)
    (away : r.cursor ∉ turns) :
    (r.cursor ≤ r'.cursor ∧
      turns = List.range' (r.cursor + 1) (r'.cursor - r.cursor)) ∨
    (r'.cursor < r.cursor ∧ ∃ w, r.count ≤ w ∧ w ≤ r'.count ∧
      turns = List.range' (r.cursor + 1) (w - (r.cursor + 1)) ++ List.range (r'.cursor + 1)) := by
  induction stretch with
  | none =>
      left
      exact ⟨Nat.le_refl _, by rw [Nat.sub_self, List.range'_zero]⟩
  | @turn turns r' stretch ih =>
      have before : r.cursor ∉ turns ∧ r.cursor ∉ [r'.next] := by
        rwa [List.mem_append, not_or] at away
      have other : r'.next ≠ r.cursor := fun same => before.2 (same ▸ List.mem_singleton_self _)
      have bound := stretch.cursor_lt inside
      have grown := stretch.count_le
      dsimp only
      rcases ih before.1 with ⟨ahead, listed⟩ | ⟨behind, w, lower, upper, listed⟩
      · rcases Nat.lt_or_ge (r'.cursor + 1) r'.count with inner | last
        · left
          have next : r'.next = r'.cursor + 1 := Nat.mod_eq_of_lt inner
          rw [next, listed]
          refine ⟨Nat.le_succ_of_le ahead, ?_⟩
          have place : r'.cursor + 1 = r.cursor + 1 + 1 * (r'.cursor - r.cursor) := by omega
          rw [Nat.succ_sub ahead, List.range'_concat, ← place]
        · right
          have wraps : r'.cursor + 1 = r'.count := by omega
          have next : r'.next = 0 := by
            unfold Rota.next
            rw [wraps, Nat.mod_self]
          rw [next] at other ⊢
          refine ⟨by omega, r'.count, grown, Nat.le_refl _, ?_⟩
          rw [listed, List.range_one]
          congr 2
          omega
      · right
        have next : r'.next = r'.cursor + 1 := Nat.mod_eq_of_lt (by omega)
        rw [next] at other ⊢
        refine ⟨by omega, w, lower, upper, ?_⟩
        rw [listed, List.range_succ (n := r'.cursor + 1), List.append_assoc]
  | @join turns r' stretch ih =>
      rcases ih away with ahead | ⟨behind, w, lower, upper, listed⟩
      · exact .inl ahead
      · exact .inr ⟨behind, w, lower, Nat.le_succ_of_le upper, listed⟩

theorem Turns.last {i : ℕ} (stretch : Turns r (turns ++ [i]) r') :
    ∃ r₁, Turns r turns r₁ ∧ r₁.next = i := by
  generalize whole : turns ++ [i] = all at stretch
  induction stretch with
  | none => exact absurd whole (by simp)
  | turn stretch _ =>
      obtain ⟨same, last⟩ := List.append_inj' whole rfl
      cases last
      exact ⟨_, same ▸ stretch, rfl⟩
  | join _ ih => exact ih whole

/-- All turns between two consecutive turns of the member `r.cursor`. -/
theorem Turns.between (stretch : Turns r turns r') (inside : r.cursor < r.count)
    (away : r.cursor ∉ turns) (back : r'.next = r.cursor) :
    ∃ w, r.count ≤ w ∧ w ≤ r'.count ∧
      turns = List.range' (r.cursor + 1) (w - (r.cursor + 1)) ++ List.range r.cursor := by
  have bound := stretch.cursor_lt inside
  have grown := stretch.count_le
  rcases stretch.order inside away with ⟨ahead, listed⟩ | ⟨behind, w, lower, upper, listed⟩
  · have wraps : r'.cursor + 1 = r'.count := by
      by_contra inner
      have next : r'.next = r'.cursor + 1 := Nat.mod_eq_of_lt (by omega)
      omega
    have first : r'.next = 0 := by
      unfold Rota.next
      rw [wraps, Nat.mod_self]
    have zero : r.cursor = 0 := by omega
    refine ⟨r'.count, grown, Nat.le_refl _, ?_⟩
    rw [listed, zero, List.range_zero, List.append_nil]
    congr 1
    omega
  · have next : r'.next = r'.cursor + 1 := Nat.mod_eq_of_lt (by omega)
    refine ⟨w, lower, upper, ?_⟩
    rw [listed, ← back, next]

/-- In between, every member of the whole time has one turn and nobody has two. -/
theorem Turns.fair (stretch : Turns r turns r') (inside : r.cursor < r.count)
    (away : r.cursor ∉ turns) (back : r'.next = r.cursor) :
    (∀ j < r.count, j ≠ r.cursor → turns.count j = 1) ∧ ∀ j, turns.count j ≤ 1 := by
  obtain ⟨w, lower, _, listed⟩ := stretch.between inside away back
  have nodup : turns.Nodup := by
    rw [listed, List.nodup_append']
    refine ⟨List.nodup_range', List.nodup_range, ?_⟩
    intro j inFirst inSecond
    rw [List.mem_range'_1] at inFirst
    rw [List.mem_range] at inSecond
    omega
  refine ⟨?_, List.nodup_iff_count_le_one.mp nodup⟩
  intro j member other
  apply List.count_eq_one_of_mem nodup
  rw [listed, List.mem_append, List.mem_range'_1, List.mem_range]
  omega

/-- Without new members the turns go round. -/
theorem Turns.steady (stretch : Turns r turns r') (inside : r.cursor < r.count)
    (same : r'.count = r.count) :
    r'.cursor = (r.cursor + turns.length) % r.count ∧
      turns = (List.range turns.length).map fun k => (r.cursor + 1 + k) % r.count := by
  induction stretch with
  | none => exact ⟨(Nat.mod_eq_of_lt inside).symm, rfl⟩
  | @turn turns r' stretch ih =>
      obtain ⟨cursor, listed⟩ := ih same
      have count : r'.count = r.count := same
      have next : r'.next = (r.cursor + 1 + turns.length) % r.count := by
        unfold Rota.next
        rw [cursor, count, Nat.mod_add_mod, Nat.add_right_comm]
      rw [List.length_append, List.length_singleton]
      refine ⟨next.trans (congrArg (· % r.count) (by omega)), ?_⟩
      rw [List.range_succ, List.map_append, ← listed, next]
      rfl
  | @join turns r' stretch _ =>
      have grown := stretch.count_le
      have more : r'.count + 1 = r.count := same
      omega

theorem Turns.window (stretch : Turns r turns r') (inside : r.cursor < r.count)
    (same : r'.count = r.count) (round : turns.length = r.count) {j : ℕ} (member : j < r.count) :
    turns.count j = 1 := by
  have listed := (stretch.steady inside same).2
  rw [round] at listed
  have nodup : turns.Nodup := by
    rw [listed]
    refine List.Nodup.map_on ?_ List.nodup_range
    intro i iBound k kBound same
    rw [List.mem_range] at iBound kBound
    have iAbove := Nat.le_add_right (r.cursor + 1) i
    have positions := RingBuffer.slot_injective iAbove (by omega) (by omega) (by omega) same
    omega
  have within : turns ⊆ List.range r.count := by
    intro k inTurns
    rw [listed] at inTurns
    obtain ⟨i, _, rfl⟩ := List.mem_map.mp inTurns
    exact List.mem_range.mpr (Nat.mod_lt _ (by omega))
  have whole : turns.Perm (List.range r.count) :=
    (List.subperm_of_subset nodup within).perm_of_length_le (by rw [List.length_range, round])
  apply List.count_eq_one_of_mem nodup
  exact whole.mem_iff.mpr (List.mem_range.mpr member)

/-- Everybody has had a turn after as many turns as there are members. -/
theorem Turns.covers (stretch : Turns r turns r') (inside : r.cursor < r.count)
    (same : r'.count = r.count) (enough : r.count ≤ turns.length) {j : ℕ}
    (member : j < r.count) : j ∈ turns := by
  have listed := (stretch.steady inside same).2
  have reached : ∃ k < r.count, (r.cursor + 1 + k) % r.count = j := by
    by_cases behind : r.cursor + 1 ≤ j
    · refine ⟨j - (r.cursor + 1), by omega, ?_⟩
      have sum : r.cursor + 1 + (j - (r.cursor + 1)) = j := by omega
      rw [sum, Nat.mod_eq_of_lt member]
    · refine ⟨j + r.count - (r.cursor + 1), by omega, ?_⟩
      have sum : r.cursor + 1 + (j + r.count - (r.cursor + 1)) = j + r.count := by omega
      rw [sum, Nat.add_mod_right, Nat.mod_eq_of_lt member]
  obtain ⟨k, bound, here⟩ := reached
  rw [listed, List.mem_map]
  exact ⟨k, List.mem_range.mpr (by omega), here⟩

end Rota

end OrbitOs.Base
