import Mathlib.Tactic

/-!
# Computations with a log of what they read

A traced value carries the places that were read to compute it, in order.
-/

set_option autoImplicit false

namespace OrbitOs.Base

structure Traced (P α : Type) where
  val : α
  places : List P

namespace Traced

variable {P α β : Type}

instance : Monad (Traced P) where
  pure a := ⟨a, []⟩
  bind x f := ⟨(f x.val).val, x.places ++ (f x.val).places⟩

/-- Reading `a` at place `p`. -/
def access (p : P) (a : α) : Traced P α := ⟨a, [p]⟩

@[simp] theorem pure_val (a : α) : (pure a : Traced P α).val = a := rfl
@[simp] theorem pure_places (a : α) : (pure a : Traced P α).places = [] := rfl
@[simp] theorem bind_val (x : Traced P α) (f : α → Traced P β) :
    (x >>= f).val = (f x.val).val := rfl
@[simp] theorem bind_places (x : Traced P α) (f : α → Traced P β) :
    (x >>= f).places = x.places ++ (f x.val).places := rfl
@[simp] theorem access_val (p : P) (a : α) : (access p a).val = a := rfl
@[simp] theorem access_places (p : P) (a : α) : (access p a).places = [p] := rfl

end Traced

end OrbitOs.Base
