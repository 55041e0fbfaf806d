import OrbitOs.Machine.Memory

/-!
# `memset` and `memcpy` of kernel/string.c

Both loops run over the bytes one by one; the theorems give the memory they
leave in closed form.
-/

set_option autoImplicit false

namespace OrbitOs.Kernel

open OrbitOs.Machine

/-- `while (num--) *p++ = value;` -/
def memsetLoop (value : Byte) : Nat → Word → Mem → Mem
  | 0, _, m => m
  | num + 1, p, m => memsetLoop value num (p + 1) (stByte m p value)

def memset (m : Mem) (ptr : Word) (value : Byte) (num : Word) : Mem :=
  memsetLoop value num.toNat ptr m

/-- `while (num--) *d++ = *s++;` -/
def memcpyLoop : Nat → Word → Word → Mem → Mem
  | 0, _, _, m => m
  | num + 1, d, s, m => memcpyLoop num (d + 1) (s + 1) (stByte m d (m s))

def memcpy (m : Mem) (destination source num : Word) : Mem :=
  memcpyLoop num.toNat destination source m

/-- A nonempty range is its first byte and the range from the second byte on. -/
theorem within_succ (p x : Word) {n : Nat} :
    Within p (n + 1) x ↔ x = p ∨ (x ≠ p ∧ Within (p + 1) n x) := by
  unfold Within
  by_cases first : x = p
  · simp [first]
  · have step : (x - p).toNat = (x - (p + 1)).toNat + 1 := by bv_omega
    simp only [first, false_or, ne_eq, not_false_eq_true, true_and, step]
    omega

theorem memsetLoop_apply (value : Byte) (n : Nat) (p : Word) (m : Mem) (x : Word)
    (small : n ≤ 2 ^ 32) :
    memsetLoop value n p m x = if Within p n x then value else m x := by
  induction n generalizing p m with
  | zero => simp [memsetLoop, Within]
  | succ n ih =>
      rw [memsetLoop, ih (p + 1) _ (by omega)]
      by_cases first : x = p
      · have here : Within p (n + 1) x := (within_succ p x).mpr (Or.inl first)
        rw [if_pos here]
        simp [stByte, first]
      · have rest : Within p (n + 1) x ↔ Within (p + 1) n x := by
          rw [within_succ p x]
          simp [first]
        simp [rest, stByte, first]

theorem memset_apply (m : Mem) (p : Word) (value : Byte) (num x : Word) :
    memset m p value num x = if Within p num.toNat x then value else m x :=
  memsetLoop_apply value num.toNat p m x (Nat.le_of_lt num.isLt)

theorem memset_agreeOff (m : Mem) (p : Word) (value : Byte) (num : Word) :
    AgreeOff (Within p num.toNat) m (memset m p value num) := by
  intro x off
  rw [memset_apply, if_neg off]

/-- Bytes outside the destination are kept whatever the source overlaps. -/
theorem memcpyLoop_outside (n : Nat) (d s : Word) (m : Mem) (x : Word) (small : n ≤ 2 ^ 32)
    (outside : ¬ Within d n x) : memcpyLoop n d s m x = m x := by
  induction n generalizing d s m with
  | zero => rfl
  | succ n ih =>
      rw [within_succ d x] at outside
      have notFirst : x ≠ d := fun h => outside (Or.inl h)
      have notRest : ¬ Within (d + 1) n x := fun h => outside (Or.inr ⟨notFirst, h⟩)
      rw [memcpyLoop, ih (d + 1) (s + 1) _ (by omega) notRest]
      simp [stByte, notFirst]

theorem memcpyLoop_inside (n : Nat) (d s : Word) (m : Mem) (small : n ≤ 2 ^ 32)
    (apart : Apart d n s n) {i : Nat} (bound : i < n) :
    memcpyLoop n d s m (d + BitVec.ofNat 32 i) = m (s + BitVec.ofNat 32 i) := by
  induction n generalizing d s m i with
  | zero => omega
  | succ n ih =>
      rw [memcpyLoop]
      have sourceKept : ∀ j < n + 1, stByte m d (m s) (s + BitVec.ofNat 32 j) =
          m (s + BitVec.ofNat 32 j) := by
        intro j jBound
        have inSource : Within s (n + 1) (s + BitVec.ofNat 32 j) := within_add s jBound small
        have notFirst : s + BitVec.ofNat 32 j ≠ d := by
          intro same
          exact apart d (by simp [Within]) (same ▸ inSource)
        simp [stByte, notFirst]
      cases i with
      | zero =>
          have notRest : ¬ Within (d + 1) n (d + BitVec.ofNat 32 0) := by
            unfold Within
            bv_omega
          rw [memcpyLoop_outside n _ _ _ _ (by omega) notRest]
          simp [stByte]
      | succ i =>
          have next : ∀ a : Word, a + BitVec.ofNat 32 (i + 1) = a + 1 + BitVec.ofNat 32 i := by
            intro a
            bv_omega
          have apartRest : Apart (d + 1) n (s + 1) n := by
            intro x inD inS
            have step : ∀ a : Word, a + 1 = a + BitVec.ofNat 32 1 := fun _ => rfl
            rw [step] at inD inS
            exact apart x (inD.offset (by omega)) (inS.offset (by omega))
          rw [next d, ih (d + 1) (s + 1) _ (by omega) apartRest (by omega), ← next s,
            sourceKept (i + 1) bound]

theorem memcpy_agreeOff (m : Mem) (d s num : Word) :
    AgreeOff (Within d num.toNat) m (memcpy m d s num) :=
  fun x off => memcpyLoop_outside num.toNat d s m x (Nat.le_of_lt num.isLt) off

theorem memcpy_byte (m : Mem) {d s num : Word} (apart : Apart d num.toNat s num.toNat) {i : Nat}
    (bound : i < num.toNat) :
    memcpy m d s num (d + BitVec.ofNat 32 i) = m (s + BitVec.ofNat 32 i) :=
  memcpyLoop_inside num.toNat d s m (Nat.le_of_lt num.isLt) apart bound

end OrbitOs.Kernel
