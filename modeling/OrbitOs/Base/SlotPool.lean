import Mathlib.Data.Finset.Card
import Mathlib.Data.List.Nodup
import Mathlib.Logic.Relation
import Mathlib.Order.Bounds.Basic
import Mathlib.Tactic

/-!
# Pools of numbered slots

A pool has the slots below a capacity.  A request takes the least slot that is
not in use, and only an owned slot can be given back.  The run theorem says who
owns what after any sequence of requests and returns: the used slots are the
initially used ones and the held ones, and no slot is held twice.

The second half counts the used slots below the capacity, and says which slots
the first few requests take: the lowest free ones.
-/

set_option autoImplicit false

namespace OrbitOs.Base

/-! ## Ownership -/

/-- The slots a request can choose from. -/
def freeSlots (capacity : ℕ) (used : Set ℕ) : Set ℕ := {k | k < capacity ∧ k ∉ used}

structure Pool where
  used : Set ℕ
  held : List ℕ

namespace Pool

inductive Step (capacity : ℕ) : Pool → Pool → Prop
  | take {pool : Pool} {k : ℕ} (least : IsLeast (freeSlots capacity pool.used) k) :
      Step capacity pool ⟨insert k pool.used, k :: pool.held⟩
  | deny {pool : Pool} (full : freeSlots capacity pool.used = ∅) : Step capacity pool pool
  | give {pool : Pool} {k : ℕ} (owned : k ∈ pool.held) :
      Step capacity pool ⟨pool.used \ {k}, pool.held.erase k⟩

/-- Ownership relative to the slots in use at the start of the run. -/
structure Owned (capacity : ℕ) (initial : Set ℕ) (pool : Pool) : Prop where
  nodup : pool.held.Nodup
  bounded : ∀ k ∈ pool.held, k < capacity
  fresh : ∀ k ∈ pool.held, k ∉ initial
  exact : ∀ k, k ∈ pool.used ↔ k ∈ initial ∨ k ∈ pool.held

theorem owned_start (capacity : ℕ) (initial : Set ℕ) : Owned capacity initial ⟨initial, []⟩ where
  nodup := List.nodup_nil
  bounded := by simp
  fresh := by simp
  exact := by simp

theorem Owned.step {capacity : ℕ} {initial : Set ℕ} {pool next : Pool}
    (owned : Owned capacity initial pool) (step : Step capacity pool next) :
    Owned capacity initial next := by
  cases step with
  | @take k least =>
      obtain ⟨⟨bound, unused⟩, _⟩ := least
      rw [owned.exact, not_or] at unused
      refine ⟨List.nodup_cons.mpr ⟨unused.2, owned.nodup⟩, ?_, ?_, ?_⟩
      · intro j member
        rcases List.mem_cons.mp member with rfl | member
        · exact bound
        · exact owned.bounded j member
      · intro j member
        rcases List.mem_cons.mp member with rfl | member
        · exact unused.1
        · exact owned.fresh j member
      · intro j
        simp only [Set.mem_insert_iff, List.mem_cons, owned.exact j]
        tauto
  | deny full => exact owned
  | @give k mine =>
      have keeps : ∀ j ∈ pool.held.erase k, j ∈ pool.held := fun j member =>
        List.mem_of_mem_erase member
      refine ⟨owned.nodup.erase k, fun j member => owned.bounded j (keeps j member),
        fun j member => owned.fresh j (keeps j member), ?_⟩
      intro j
      rw [Set.mem_sdiff, Set.mem_singleton_iff, owned.exact j, owned.nodup.mem_erase_iff]
      have freshK := owned.fresh k mine
      constructor
      · rintro ⟨initialOrHeld, ne⟩
        exact initialOrHeld.imp_right fun member => ⟨ne, member⟩
      · rintro (wasInitial | ⟨ne, member⟩)
        · exact ⟨Or.inl wasInitial, fun same => freshK (same ▸ wasInitial)⟩
        · exact ⟨Or.inr member, ne⟩

end Pool

/-- Erasing commutes with a map that separates the erased element from the list. -/
theorem erase_map_of_separated {α β : Type} [DecidableEq α] [DecidableEq β] (f : α → β) {a : α}
    {l : List α} (separated : ∀ b ∈ l, f b = f a → b = a) :
    (l.map f).erase (f a) = (l.erase a).map f := by
  induction l with
  | nil => rfl
  | cons b rest ih =>
      have tail := ih fun c member => separated c (List.mem_cons_of_mem b member)
      by_cases same : b = a
      · simp [same]
      · have imageNe : f b ≠ f a := fun h => same (separated b (List.mem_cons_self ..) h)
        rw [List.map_cons, List.erase_cons_tail (by simpa using imageNe),
          List.erase_cons_tail (by simpa using same), List.map_cons, tail]

/-! ## Counting -/

/-- The used slots below the capacity. -/
def usedSlots (capacity : ℕ) (used : ℕ → Bool) : Finset ℕ :=
  (Finset.range capacity).filter fun k => used k = true

theorem mem_usedSlots {capacity : ℕ} {used : ℕ → Bool} {k : ℕ} :
    k ∈ usedSlots capacity used ↔ k < capacity ∧ used k = true := by
  simp [usedSlots]

theorem card_usedSlots_le (capacity : ℕ) (used : ℕ → Bool) :
    (usedSlots capacity used).card ≤ capacity := by
  simpa [usedSlots] using Finset.card_filter_le (Finset.range capacity) fun k => used k = true

theorem card_usedSlots_take {capacity k : ℕ} {used used' : ℕ → Bool} (bound : k < capacity)
    (unused : used k = false) (takes : ∀ j < capacity, used' j = (decide (j = k) || used j)) :
    (usedSlots capacity used').card = (usedSlots capacity used).card + 1 := by
  have notMember : k ∉ usedSlots capacity used := by
    simp [mem_usedSlots, unused]
  have grown : usedSlots capacity used' = insert k (usedSlots capacity used) := by
    ext j
    rw [Finset.mem_insert, mem_usedSlots, mem_usedSlots]
    constructor
    · rintro ⟨jBound, set⟩
      rw [takes j jBound] at set
      simp only [Bool.or_eq_true, decide_eq_true_eq] at set
      exact set.imp_right fun member => ⟨jBound, member⟩
    · rintro (rfl | ⟨jBound, set⟩)
      · exact ⟨bound, by simp [takes j bound]⟩
      · exact ⟨jBound, by simp [takes j jBound, set]⟩
  rw [grown, Finset.card_insert_of_notMem notMember]

theorem card_usedSlots_give {capacity k : ℕ} {used used' : ℕ → Bool} (bound : k < capacity)
    (inUse : used k = true) (gives : ∀ j < capacity, used' j = (!decide (j = k) && used j)) :
    (usedSlots capacity used).card = (usedSlots capacity used').card + 1 := by
  apply card_usedSlots_take bound
  · simp [gives k bound]
  · intro j jBound
    rw [gives j jBound]
    by_cases same : j = k
    · simp [same, inUse]
    · simp [same]

/-- All slots are used exactly when the count is the capacity. -/
theorem card_usedSlots_eq_iff {capacity : ℕ} {used : ℕ → Bool} :
    (usedSlots capacity used).card = capacity ↔ ∀ k < capacity, used k = true := by
  constructor
  · intro full k bound
    have whole : usedSlots capacity used = Finset.range capacity := by
      apply Finset.eq_of_subset_of_card_le (Finset.filter_subset _ _)
      rw [Finset.card_range]
      exact full.ge
    have member : k ∈ usedSlots capacity used := by
      rw [whole]
      exact Finset.mem_range.mpr bound
    exact (mem_usedSlots.mp member).2
  · intro full
    have whole : usedSlots capacity used = Finset.range capacity :=
      Finset.filter_true_of_mem fun k member => full k (Finset.mem_range.mp member)
    rw [whole, Finset.card_range]

/-! ## The lowest slots -/

/-- The `n` lowest elements of `free`. -/
def lowest (free : Set ℕ) (n : ℕ) : Set ℕ := {b | b ∈ free ∧ (free ∩ Set.Iio b).encard < n}

/-- `rest` is what is left of `free` after at most `n` elements were taken, each the
least one at its time. -/
structure TakenLowest (free rest : Set ℕ) (n : ℕ) : Prop where
  sub : rest ⊆ free
  count : (free \ rest).encard ≤ n
  low : ∀ b ∈ free \ rest, ∀ j < b, j ∉ rest

namespace TakenLowest

variable {free rest : Set ℕ} {n : ℕ}

theorem refl (free : Set ℕ) : TakenLowest free free 0 := ⟨subset_rfl, by simp, by simp⟩

/-- The least element, or nothing, is taken. -/
theorem take (taken : TakenLowest free rest n) {gone : Set ℕ} {k : ℕ}
    (least : ∀ b ∈ gone, IsLeast rest b) (count : gone.encard ≤ k) :
    TakenLowest free (rest \ gone) (n + k) where
  sub := Set.sdiff_subset.trans taken.sub
  count := by
    have split : free \ (rest \ gone) ⊆ free \ rest ∪ gone := fun b member => by
      by_cases inRest : b ∈ rest
      · exact Or.inr (by_contra fun kept => member.2 ⟨inRest, kept⟩)
      · exact Or.inl ⟨member.1, inRest⟩
    calc (free \ (rest \ gone)).encard
      _ ≤ (free \ rest).encard + gone.encard :=
        (Set.encard_le_encard split).trans (Set.encard_union_le _ _)
      _ ≤ n + k := add_le_add taken.count count
      _ = ((n + k : ℕ) : ℕ∞) := (Nat.cast_add n k).symm
  low := by
    rintro b ⟨inFree, goneNow⟩ j below ⟨inRest, -⟩
    by_cases before : b ∈ rest
    · have inGone : b ∈ gone := by_contra fun kept => goneNow ⟨before, kept⟩
      exact absurd ((least b inGone).2 inRest) (not_le.mpr below)
    · exact taken.low b ⟨inFree, before⟩ j below inRest

theorem take_one (taken : TakenLowest free rest n) {b : ℕ} (least : IsLeast rest b) :
    TakenLowest free (rest \ {b}) (n + 1) :=
  taken.take (k := 1) (by simpa) (by simp)

theorem mem_lowest (taken : TakenLowest free rest n) {b : ℕ} (gone : b ∈ free \ rest) :
    b ∈ lowest free n := by
  have below : free ∩ Set.Iio b ⊆ (free \ rest) \ {b} := fun j member =>
    ⟨⟨member.1, taken.low b gone j member.2⟩, ne_of_lt member.2⟩
  have fewer : (free ∩ Set.Iio b).encard + 1 ≤ n := by
    refine le_trans ?_ taken.count
    rw [← Set.encard_sdiff_singleton_add_one gone]
    exact add_le_add (Set.encard_le_encard below) le_rfl
  exact ⟨gone.1, (ENat.add_one_le_iff' (ENat.natCast_ne_top n)).mp fewer⟩

end TakenLowest

theorem mem_lowest_one {free : Set ℕ} {b : ℕ} (least : IsLeast free b) : b ∈ lowest free 1 := by
  have taken := (TakenLowest.refl free).take_one least
  exact taken.mem_lowest ⟨least.1, by simp⟩

/-- Without one element the others move up by one place at most. -/
theorem lowest_sdiff_singleton (free : Set ℕ) (b n : ℕ) :
    lowest (free \ {b}) n ⊆ lowest free (n + 1) := by
  rintro c ⟨⟨inFree, -⟩, few⟩
  have split : free ∩ Set.Iio c ⊆ insert b ((free \ {b}) ∩ Set.Iio c) := by
    rintro j ⟨free', below⟩
    by_cases same : j = b
    · exact Or.inl same
    · exact Or.inr ⟨⟨free', same⟩, below⟩
  refine ⟨inFree, ?_⟩
  calc (free ∩ Set.Iio c).encard
    _ ≤ ((free \ {b}) ∩ Set.Iio c).encard + 1 :=
      (Set.encard_le_encard split).trans (Set.encard_insert_le _ _)
    _ < n + 1 := (ENat.add_lt_add_iff_right ENat.one_ne_top).mpr few
    _ = ((n + 1 : ℕ) : ℕ∞) := by rw [Nat.cast_add, Nat.cast_one]

theorem mem_lowest_two {free : Set ℕ} {b c : ℕ} (least : IsLeast free b)
    (next : IsLeast (free \ {b}) c) : c ∈ lowest free 2 := by
  have second := ((TakenLowest.refl free).take_one least).take_one next
  exact second.mem_lowest ⟨next.1.1, by simp⟩

theorem lowest_mono {free : Set ℕ} {m n : ℕ} (le : m ≤ n) : lowest free m ⊆ lowest free n :=
  fun _ member => ⟨member.1, member.2.trans_le (Nat.cast_le.mpr le)⟩

/-- With fewer than `n` elements all of them are among the lowest. -/
theorem mem_lowest_of_few {free : Set ℕ} {n b : ℕ} (few : free.encard < n) (member : b ∈ free) :
    b ∈ lowest free n :=
  ⟨member, (Set.encard_le_encard Set.inter_subset_left).trans_lt few⟩

/-- A capacity below which only the `n` lowest elements are left. -/
theorem exists_cut {free : Set ℕ} {n bound : ℕ} (enough : n ≤ free.encard)
    (bounded : ∀ b ∈ free, b < bound) :
    ∃ m ≤ bound, n ≤ (free ∩ Set.Iio m).encard ∧ free ∩ Set.Iio m ⊆ lowest free n := by
  classical
  have inside : free ⊆ Set.Iio bound := bounded
  have all : n ≤ (free ∩ Set.Iio bound).encard := by
    rwa [Set.inter_eq_left.mpr inside]
  have exists_m : ∃ m, n ≤ (free ∩ Set.Iio m).encard := ⟨bound, all⟩
  refine ⟨Nat.find exists_m, Nat.find_min' exists_m all, Nat.find_spec exists_m, ?_⟩
  rintro b ⟨member, below⟩
  exact ⟨member, not_le.mp (Nat.find_min exists_m below)⟩

end OrbitOs.Base
