import Mathlib.Tactic

/-!
# Ring buffers with one free slot

The producer writes at `head` and the consumer reads at `tail`; both indices
run around `n` slots, and a buffer in which `head` would reach `tail` is full.
What has gone into a buffer and how much of it has been taken out determine
both indices and every slot in between.
-/

set_option autoImplicit false

namespace OrbitOs.Base

structure RingBuffer (α : Type) where
  slots : ℕ → α
  head : ℕ
  tail : ℕ

namespace RingBuffer

variable {α : Type}

def put (b : RingBuffer α) (n : ℕ) (c : α) : RingBuffer α :=
  { b with slots := Function.update b.slots b.head c, head := (b.head + 1) % n }

def release (b : RingBuffer α) (n : ℕ) : RingBuffer α := { b with tail := (b.tail + 1) % n }

@[simp] theorem put_head (b : RingBuffer α) (n : ℕ) (c : α) :
    (b.put n c).head = (b.head + 1) % n := rfl

@[simp] theorem put_slots_head (b : RingBuffer α) (n : ℕ) (c : α) :
    (b.put n c).slots b.head = c := by
  unfold put
  exact Function.update_self ..

theorem put_slots_of_ne (b : RingBuffer α) (n : ℕ) (c : α) {i : ℕ} (other : i ≠ b.head) :
    (b.put n c).slots i = b.slots i := by
  unfold put
  exact Function.update_of_ne other ..

/-- `sent` went into the `n` slots and the first `taken` of it came out again. -/
structure Carries (b : RingBuffer α) (n : ℕ) (sent : List α) (taken : ℕ) : Prop where
  order : taken ≤ sent.length
  fits : sent.length < taken + n
  head : b.head = sent.length % n
  tail : b.tail = taken % n
  slots : ∀ k c, taken ≤ k → sent[k]? = some c → b.slots (k % n) = c

/-- Positions less than `n` apart use different slots. -/
theorem slot_injective {n low k j : ℕ} (kLow : low ≤ k) (kHigh : k < low + n) (jLow : low ≤ j)
    (jHigh : j < low + n) (same : k % n = j % n) : k = j := by
  rcases Nat.le_total k j with below | above
  · have multiple : n ∣ j - k := (Nat.modEq_iff_dvd' below).mp same
    have zero := Nat.eq_zero_of_dvd_of_lt multiple (by omega)
    omega
  · have multiple : n ∣ k - j := (Nat.modEq_iff_dvd' above).mp same.symm
    have zero := Nat.eq_zero_of_dvd_of_lt multiple (by omega)
    omega

theorem Carries.empty (slots : ℕ → α) {n : ℕ} (positive : 0 < n) :
    Carries ⟨slots, 0, 0⟩ n [] 0 where
  order := Nat.le_refl 0
  fits := by simpa using positive
  head := (Nat.zero_mod n).symm
  tail := (Nat.zero_mod n).symm
  slots := by simp

section

variable {b : RingBuffer α} {n : ℕ} {sent : List α} {taken : ℕ} (carries : Carries b n sent taken)

include carries

theorem Carries.positive : 0 < n := by
  have order := carries.order
  have fits := carries.fits
  omega

theorem Carries.head_lt : b.head < n := by
  rw [carries.head]
  exact Nat.mod_lt _ carries.positive

theorem Carries.tail_lt : b.tail < n := by
  rw [carries.tail]
  exact Nat.mod_lt _ carries.positive

theorem Carries.head_eq_tail_iff : b.head = b.tail ↔ sent.length = taken := by
  have positive := carries.positive
  rw [carries.head, carries.tail]
  constructor
  · intro same
    exact slot_injective carries.order carries.fits (Nat.le_refl _) (by omega) same
  · intro same
    rw [same]

/-- The test of the producer for a full buffer. -/
theorem Carries.full_iff : (b.head + 1) % n = b.tail ↔ sent.length + 1 = taken + n := by
  have order := carries.order
  have fits := carries.fits
  rw [carries.head, carries.tail, Nat.mod_add_mod]
  constructor
  · intro same
    have wrapped : (sent.length + 1) % n = (taken + n) % n := by
      rw [same, Nat.add_mod_right]
    exact slot_injective (by omega : taken + 1 ≤ _) (by omega) (by omega) (by omega) wrapped
  · intro full
    rw [full, Nat.add_mod_right]

/-- The slot at `head` holds nothing that is still to be taken. -/
theorem Carries.head_spares {k : ℕ} (lower : taken ≤ k) (upper : k < sent.length) :
    k % n ≠ b.head := by
  have fits := carries.fits
  intro same
  rw [carries.head] at same
  have equal := slot_injective lower (by omega) carries.order (by omega) same
  omega

theorem Carries.put (room : (b.head + 1) % n ≠ b.tail) (c : α) :
    Carries (b.put n c) n (sent ++ [c]) taken := by
  have order := carries.order
  have fits := carries.fits
  have notFull := mt carries.full_iff.mpr room
  exact {
    order := by
      rw [List.length_append]
      omega
    fits := by
      rw [List.length_append, List.length_singleton]
      omega
    head := by
      rw [put_head, carries.head, Nat.mod_add_mod, List.length_append, List.length_singleton]
    tail := carries.tail
    slots := by
      intro k d lower found
      by_cases old : k < sent.length
      · rw [List.getElem?_append_left old] at found
        rw [put_slots_of_ne b n c (carries.head_spares lower old)]
        exact carries.slots k d lower found
      · have bound := (List.getElem?_eq_some_iff.mp found).1
        rw [List.length_append, List.length_singleton] at bound
        have last : k = sent.length := by omega
        rw [last, List.getElem?_concat_length] at found
        rw [last, ← carries.head, put_slots_head]
        exact Option.some.inj found }

theorem Carries.read {c : α} (next : sent[taken]? = some c) : b.slots b.tail = c := by
  rw [carries.tail]
  exact carries.slots taken c (Nat.le_refl _) next

theorem Carries.release (pending : taken < sent.length) :
    Carries (b.release n) n sent (taken + 1) where
  order := pending
  fits := Nat.lt_trans carries.fits (by omega)
  head := carries.head
  tail := by
    rw [← Nat.mod_add_mod, ← carries.tail]
    rfl
  slots := fun k c lower => carries.slots k c (by omega)

end

end RingBuffer

end OrbitOs.Base
