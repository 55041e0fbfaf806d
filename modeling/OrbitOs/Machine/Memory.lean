import Mathlib.Tactic

/-!
# Byte memory of a 32-bit machine

A memory is a total function from addresses to bytes; address arithmetic wraps
at 2^32.  A range is given by its base and its size and contains `x` when the
distance from the base to `x` is below the size, so that a range which runs
past the last address continues at zero, as it does on the machine.
-/

set_option autoImplicit false

namespace OrbitOs.Machine

abbrev Byte := BitVec 8
abbrev Word := BitVec 32
abbrev Mem := Word → Byte

/-! ## Ranges -/

/-- `x` is one of the `n` bytes from `base` on. -/
def Within (base : Word) (n : Nat) (x : Word) : Prop := (x - base).toNat < n

instance (base : Word) (n : Nat) (x : Word) : Decidable (Within base n x) :=
  inferInstanceAs (Decidable ((x - base).toNat < n))

/-- No byte belongs to both ranges. -/
def Apart (a : Word) (n : Nat) (b : Word) (k : Nat) : Prop :=
  ∀ x, Within a n x → ¬ Within b k x

theorem within_add (base : Word) {n i : Nat} (bound : i < n) (small : n ≤ 2 ^ 32) :
    Within base n (base + BitVec.ofNat 32 i) := by
  have exact : (base + BitVec.ofNat 32 i - base).toNat = i := by
    have cancel : base + BitVec.ofNat 32 i - base = BitVec.ofNat 32 i := by
      rw [BitVec.add_comm, BitVec.add_sub_cancel]
    rw [cancel, BitVec.toNat_ofNat]
    exact Nat.mod_eq_of_lt (by omega)
  unfold Within
  omega

theorem within_iff_exists (base : Word) {n : Nat} (small : n ≤ 2 ^ 32) (x : Word) :
    Within base n x ↔ ∃ i < n, x = base + BitVec.ofNat 32 i := by
  constructor
  · intro member
    refine ⟨(x - base).toNat, member, ?_⟩
    rw [BitVec.ofNat_toNat, BitVec.setWidth_eq, BitVec.add_comm, BitVec.sub_add_cancel]
  · rintro ⟨i, bound, rfl⟩
    exact within_add base bound small

/-- A range that does not wrap is the interval of its addresses. -/
theorem within_iff_of_noWrap {base : Word} {n : Nat} (noWrap : base.toNat + n ≤ 2 ^ 32)
    (x : Word) : Within base n x ↔ base.toNat ≤ x.toNat ∧ x.toNat < base.toNat + n := by
  unfold Within
  rw [BitVec.toNat_sub]
  have hx := x.isLt
  have hb := base.isLt
  constructor
  · intro member
    by_cases order : base.toNat ≤ x.toNat
    · have : (2 ^ 32 - base.toNat + x.toNat) % 2 ^ 32 = x.toNat - base.toNat := by omega
      omega
    · have : (2 ^ 32 - base.toNat + x.toNat) % 2 ^ 32 = 2 ^ 32 - base.toNat + x.toNat := by
        apply Nat.mod_eq_of_lt
        omega
      omega
  · rintro ⟨lower, upper⟩
    have : (2 ^ 32 - base.toNat + x.toNat) % 2 ^ 32 = x.toNat - base.toNat := by omega
    omega

theorem Within.mono {base x : Word} {n k : Nat} (member : Within base n x) (le : n ≤ k) :
    Within base k x := Nat.lt_of_lt_of_le member le

/-- A range at an offset of another one. -/
theorem Within.offset {base x : Word} {d n k : Nat}
    (member : Within (base + BitVec.ofNat 32 d) n x) (fits : d + n ≤ k) : Within base k x := by
  unfold Within at *
  have split : x - base = (x - (base + BitVec.ofNat 32 d)) + BitVec.ofNat 32 d := by
    grind
  rw [split, BitVec.toNat_add, BitVec.toNat_ofNat]
  have low : d % 2 ^ 32 ≤ d := Nat.mod_le _ _
  have high := Nat.mod_le ((x - (base + BitVec.ofNat 32 d)).toNat + d % 2 ^ 32) (2 ^ 32)
  omega

/-! ## Little-endian words -/

/-- The 32-bit word at `a`. -/
def ld32 (m : Mem) (a : Word) : Word := m (a + 3) ++ m (a + 2) ++ m (a + 1) ++ m a

/-- Store the word `v` at `a`. -/
def st32 (m : Mem) (a v : Word) : Mem :=
  fun x => if Within a 4 x then v.extractLsb' (8 * (x - a).toNat) 8 else m x

def stByte (m : Mem) (a : Word) (v : Byte) : Mem := fun x => if x = a then v else m x

theorem getLsbD_ld32 (m : Mem) (a : Word) {j : Nat} (bound : j < 32) :
    (ld32 m a).getLsbD j = (m (a + BitVec.ofNat 32 (j / 8))).getLsbD (j % 8) := by
  unfold ld32
  rw [BitVec.getLsbD_append, BitVec.getLsbD_append, BitVec.getLsbD_append]
  rcases (by omega : j / 8 = 0 ∨ j / 8 = 1 ∨ j / 8 = 2 ∨ j / 8 = 3) with q | q | q | q
  · rw [q, if_pos (by omega), show j % 8 = j by omega]
    simp
  · rw [q, if_neg (by omega), if_pos (by omega), show j % 8 = j - 8 by omega]
    simp
  · rw [q, if_neg (by omega), if_neg (by omega), if_pos (by omega),
      show j % 8 = j - 8 - 8 by omega]
    simp
  · rw [q, if_neg (by omega), if_neg (by omega), if_neg (by omega),
      show j % 8 = j - 8 - 8 - 8 by omega]
    simp

theorem st32_outside (m : Mem) (a v : Word) {x : Word} (outside : ¬ Within a 4 x) :
    st32 m a v x = m x := if_neg outside

theorem st32_byte (m : Mem) (a v : Word) {i : Nat} (bound : i < 4) :
    st32 m a v (a + BitVec.ofNat 32 i) = v.extractLsb' (8 * i) 8 := by
  have inside : Within a 4 (a + BitVec.ofNat 32 i) := within_add a bound (by simp)
  have distance : (a + BitVec.ofNat 32 i - a).toNat = i := by
    rw [BitVec.add_comm, BitVec.add_sub_cancel, BitVec.toNat_ofNat]
    exact Nat.mod_eq_of_lt (by omega)
  rw [st32, if_pos inside, distance]

theorem ld32_congr {m m' : Mem} {a : Word}
    (same : ∀ i < 4, m' (a + BitVec.ofNat 32 i) = m (a + BitVec.ofNat 32 i)) :
    ld32 m' a = ld32 m a := by
  apply BitVec.eq_of_getLsbD_eq
  intro j bound
  rw [getLsbD_ld32 m' a bound, getLsbD_ld32 m a bound, same (j / 8) (by omega)]

theorem ld32_st32_self (m : Mem) (a v : Word) : ld32 (st32 m a v) a = v := by
  apply BitVec.eq_of_getLsbD_eq
  intro j bound
  rw [getLsbD_ld32 _ _ bound, st32_byte m a v (by omega), BitVec.getLsbD_extractLsb']
  have inByte : j % 8 < 8 := Nat.mod_lt _ (by simp)
  rw [decide_eq_true inByte, Bool.true_and, Nat.div_add_mod]

theorem ld32_st32_apart (m : Mem) {a b : Word} (v : Word) (apart : Apart a 4 b 4) :
    ld32 (st32 m b v) a = ld32 m a :=
  ld32_congr fun _ bound => st32_outside m b v (apart _ (within_add a bound (by simp)))

/-- Two words whose addresses are at least four bytes apart in both directions. -/
theorem apart_words {a b : Word} (forth : 4 ≤ (a - b).toNat) (back : 4 ≤ (b - a).toNat) :
    Apart a 4 b 4 := by
  intro x inA inB
  unfold Within at inA inB
  bv_omega

/-! ## Agreement of two memories -/

/-- The two memories differ only at addresses in `touched`. -/
def AgreeOff (touched : Word → Prop) (m m' : Mem) : Prop := ∀ x, ¬ touched x → m' x = m x

theorem AgreeOff.refl (touched : Word → Prop) (m : Mem) : AgreeOff touched m m :=
  fun _ _ => rfl

theorem AgreeOff.trans {touched : Word → Prop} {m m' m'' : Mem} (first : AgreeOff touched m m')
    (second : AgreeOff touched m' m'') : AgreeOff touched m m'' :=
  fun x off => (second x off).trans (first x off)

theorem AgreeOff.mono {touched touched' : Word → Prop} {m m' : Mem}
    (agree : AgreeOff touched m m') (sub : ∀ x, touched x → touched' x) :
    AgreeOff touched' m m' :=
  fun x off => agree x fun member => off (sub x member)

theorem st32_agreeOff (m : Mem) (a v : Word) : AgreeOff (Within a 4) m (st32 m a v) :=
  fun _ off => st32_outside m a v off

theorem AgreeOff.ld32_eq {touched : Word → Prop} {m m' : Mem} {a : Word}
    (agree : AgreeOff touched m m') (off : ∀ x, Within a 4 x → ¬ touched x) :
    ld32 m' a = ld32 m a :=
  ld32_congr fun _ bound => agree _ (off _ (within_add a bound (by simp)))

end OrbitOs.Machine
