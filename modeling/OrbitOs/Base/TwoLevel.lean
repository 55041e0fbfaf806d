import Mathlib.Logic.Function.Basic
import Mathlib.Tactic

/-!
# Two-level tables

A directory names a table for some of its slots, and a table holds the entries.
As long as no table is named twice, putting an entry changes one lookup and
hanging an empty table into a free slot changes none.
-/

set_option autoImplicit false

namespace OrbitOs.Base

structure TwoLevel (I J T E : Type) where
  dir : I → Option T
  tab : T → J → Option E

namespace TwoLevel

variable {I J T E : Type}

def lookup (m : TwoLevel I J T E) (i : I) (j : J) : Option E :=
  (m.dir i).bind fun t => m.tab t j

/-- No table hangs in two slots. -/
def Separate (m : TwoLevel I J T E) : Prop :=
  ∀ i i' t, m.dir i = some t → m.dir i' = some t → i = i'

variable [DecidableEq I] [DecidableEq T]

/-- Hang the empty table `t` into slot `i`. -/
def install (m : TwoLevel I J T E) (i : I) (t : T) : TwoLevel I J T E where
  dir := Function.update m.dir i (some t)
  tab := Function.update m.tab t fun _ => none

theorem Separate.install {m : TwoLevel I J T E} (separate : m.Separate) {i : I} {t : T}
    (unused : ∀ i', m.dir i' ≠ some t) : (m.install i t).Separate := by
  intro a b u atA atB
  simp only [TwoLevel.install, Function.update_apply] at atA atB
  split at atA
  · rename_i aHere
    cases atA
    split at atB
    · rename_i bHere
      rw [aHere, bHere]
    · exact absurd atB (unused b)
  · split at atB
    · cases atB
      exact absurd atA (unused a)
    · exact separate a b u atA atB

theorem lookup_install (m : TwoLevel I J T E) {i : I} {t : T} (unused : ∀ i', m.dir i' ≠ some t)
    (absent : m.dir i = none) : (m.install i t).lookup = m.lookup := by
  funext a j
  by_cases here : a = i
  · subst here
    simp [lookup, TwoLevel.install, absent]
  · have same : (m.install i t).dir a = m.dir a := Function.update_of_ne here _ _
    unfold lookup
    rw [same]
    cases found : m.dir a with
    | none => rfl
    | some u =>
        have other : u ≠ t := fun h => unused a (h ▸ found)
        simp [TwoLevel.install, other]

variable [DecidableEq J]

/-- Write entry `j` of table `t`. -/
def put (m : TwoLevel I J T E) (t : T) (j : J) (e : E) : TwoLevel I J T E where
  dir := m.dir
  tab := Function.update m.tab t (Function.update (m.tab t) j (some e))

theorem lookup_put {m : TwoLevel I J T E} (separate : m.Separate) {i : I} {t : T}
    (present : m.dir i = some t) (j : J) (e : E) (a : I) (b : J) :
    (m.put t j e).lookup a b = if a = i ∧ b = j then some e else m.lookup a b := by
  unfold lookup put
  dsimp only
  cases found : m.dir a with
  | none =>
      have other : a ≠ i := fun h => by rw [h, present] at found; contradiction
      simp [other]
  | some u =>
      by_cases here : a = i
      · subst here
        rw [present] at found
        cases found
        by_cases slot : b = j <;> simp [slot]
      · have other : u ≠ t := fun h => here (separate a i t (h ▸ found) present)
        simp [here, other]

end TwoLevel

end OrbitOs.Base
