import Mathlib.Tactic

/-!
# Programs that are interrupted between their operations

A resumption is a program that has returned or performs an operation on a
shared state and goes on with the answer.  Before each operation other parties
may have changed the state, if the state and the operation admit it.  `Ready`
is the precondition of a program under such interruptions; it composes along
`bind` and loops and is kept by every step.
-/

set_option autoImplicit false

namespace OrbitOs.Base

inductive Resumption {Op : Type} (Res : Op → Type) (α : Type)
  | done (a : α)
  | step (o : Op) (next : Res o → Resumption Res α)

namespace Resumption

variable {Op : Type} {Res : Op → Type} {α β σ : Type}

def bind (p : Resumption Res α) (f : α → Resumption Res β) : Resumption Res β :=
  match p with
  | .done a => f a
  | .step o next => .step o fun r => (next r).bind f

instance : Monad (Resumption Res) where
  pure := .done
  bind := bind

def op (o : Op) : Resumption Res (Res o) := .step o .done

def forEach {ι : Type} (body : ι → Resumption Res Unit) : List ι → Resumption Res Unit
  | [] => .done ()
  | x :: xs => (body x).bind fun _ => forEach body xs

/-! ## Running without interruption -/

section Run

variable (handle : (o : Op) → σ → Res o × σ)

def run : Resumption Res α → σ → α × σ
  | .done a, s => (a, s)
  | .step o next, s => run (next (handle o s).1) (handle o s).2

theorem run_bind (p : Resumption Res α) (f : α → Resumption Res β) (s : σ) :
    run handle (p.bind f) s = run handle (f (run handle p s).1) (run handle p s).2 := by
  induction p generalizing s with
  | done a => rfl
  | step o next ih => exact ih (handle o s).1 (handle o s).2

@[simp] theorem run_bind' (p : Resumption Res α) (f : α → Resumption Res β) (s : σ) :
    run handle (p >>= f) s = run handle (f (run handle p s).1) (run handle p s).2 :=
  run_bind handle p f s

theorem run_forEach {ι : Type} (body : ι → Resumption Res Unit) (l : List ι) (s : σ) :
    (run handle (forEach body l) s).2 = l.foldl (fun s x => (run handle (body x) s).2) s := by
  induction l generalizing s with
  | nil => rfl
  | cons x xs ih => rw [forEach, run_bind, ih, List.foldl_cons]

end Run

/-! ## Interruptions -/

/-- What the other parties may do, and when. -/
structure Environment (Op σ : Type) where
  /-- The others may act in this state, before this operation. -/
  admits : Op → σ → Prop
  acts : σ → σ → Prop
  acts_trans : ∀ s s' s'', acts s s' → acts s' s'' → acts s s''

section Ready

variable (handle : (o : Op) → σ → Res o × σ) (env : Environment Op σ) (inv : σ → Prop)

/-- The states in which a program may find its next operation. -/
def Settles : Resumption Res α → σ → σ → Prop
  | .done _, s, s' => s' = s
  | .step o _, s, s' => s' = s ∨ (env.admits o s ∧ env.acts s s')

/-- The others have had their turn: the invariant holds from here on, and the
program returns in a state that meets `post`. -/
def Tolerates (post : α → σ → Prop) : Resumption Res α → σ → Prop
  | .done a, s => inv s ∧ post a s
  | .step o next, s => inv s ∧ ∀ s', Settles env (next (handle o s).1) (handle o s).2 s' →
      Tolerates post (next (handle o s).1) s'

/-- The same before their turn. -/
def Ready (post : α → σ → Prop) (p : Resumption Res α) (s : σ) : Prop :=
  ∀ s', Settles env p s s' → Tolerates handle env inv post p s'

variable {handle env inv} {post : α → σ → Prop}

theorem Settles.refl (p : Resumption Res α) (s : σ) : Settles env p s s := by
  cases p with
  | done a => rfl
  | step o next => exact Or.inl rfl

theorem Ready.tolerates {p : Resumption Res α} {s : σ} (ready : Ready handle env inv post p s) :
    Tolerates handle env inv post p s := ready s (.refl p s)

theorem Ready.holds {p : Resumption Res α} {s : σ} (ready : Ready handle env inv post p s) :
    inv s := by
  have tolerates := ready.tolerates
  cases p with
  | done a => exact tolerates.1
  | step o next => exact tolerates.1

theorem Ready.returns {a : α} {s : σ} (ready : Ready handle env inv post (.done a) s) : post a s :=
  ready.tolerates.2

/-! ## Steps keep it -/

theorem Ready.own {o : Op} {next : Res o → Resumption Res α} {s : σ}
    (ready : Ready handle env inv post (.step o next) s) :
    Ready handle env inv post (next (handle o s).1) (handle o s).2 := ready.tolerates.2

theorem Ready.others {o : Op} {next : Res o → Resumption Res α} {s s' : σ}
    (ready : Ready handle env inv post (.step o next) s) (admits : env.admits o s)
    (acts : env.acts s s') : Ready handle env inv post (.step o next) s' := by
  intro s'' settles
  rcases settles with rfl | ⟨-, again⟩
  · exact ready _ (Or.inr ⟨admits, acts⟩)
  · exact ready _ (Or.inr ⟨admits, env.acts_trans _ _ _ acts again⟩)

/-- Without interruption the program ends in a good state. -/
theorem Ready.run {p : Resumption Res α} {s : σ} (ready : Ready handle env inv post p s) :
    inv (Resumption.run handle p s).2 ∧
      post (Resumption.run handle p s).1 (Resumption.run handle p s).2 := by
  induction p generalizing s with
  | done a => exact ready.tolerates
  | step o next ih => exact ih (handle o s).1 ready.own

/-! ## Interleaved runs -/

/-- What a program returns and leaves when the others take turns before its
operations. -/
inductive Interleaved (handle : (o : Op) → σ → Res o × σ) (env : Environment Op σ) :
    Resumption Res α → σ → α → σ → Prop
  | done (a : α) (s : σ) : Interleaved handle env (.done a) s a s
  | step {o : Op} {next : Res o → Resumption Res α} {s s' s'' : σ} {a : α} :
      Settles env (.step o next) s s' →
      Interleaved handle env (next (handle o s').1) (handle o s').2 a s'' →
      Interleaved handle env (.step o next) s a s''

/-- The others may stay away. -/
theorem interleaved_run (handle : (o : Op) → σ → Res o × σ) (env : Environment Op σ)
    (p : Resumption Res α) (s : σ) :
    Interleaved handle env p s (run handle p s).1 (run handle p s).2 := by
  induction p generalizing s with
  | done a => exact .done a s
  | step o next ih => exact .step (.refl _ s) (ih (handle o s).1 (handle o s).2)

theorem Ready.interleaved {p : Resumption Res α} {s s' : σ} {a : α}
    (ready : Ready handle env inv post p s) (ends : Interleaved handle env p s a s') :
    inv s' ∧ post a s' := by
  induction ends with
  | done a s => exact ready.tolerates
  | step settles _ ih => exact ih (ready _ settles).2

/-! ## Rules -/

theorem ready_done {a : α} {s : σ} (good : inv s) (returns : post a s) :
    Ready handle env inv post (.done a) s := by
  rintro s' rfl
  exact ⟨good, returns⟩

theorem ready_op {o : Op} {post : Res o → σ → Prop} {s : σ}
    (each : ∀ s', s' = s ∨ (env.admits o s ∧ env.acts s s') →
      inv s' ∧ inv (handle o s').2 ∧ post (handle o s').1 (handle o s').2) :
    Ready handle env inv post (op o) s := by
  intro s' settles
  obtain ⟨before, after, returns⟩ := each s' settles
  exact ⟨before, ready_done after returns⟩

theorem ready_bind {p : Resumption Res α} {f : α → Resumption Res β} {mid : α → σ → Prop}
    {post : β → σ → Prop} {s : σ} (first : Ready handle env inv mid p s)
    (second : ∀ a s, inv s → mid a s → Ready handle env inv post (f a) s) :
    Ready handle env inv post (p >>= f) s := by
  change Ready handle env inv post (p.bind f) s
  induction p generalizing s with
  | done a => exact second a s first.holds first.returns
  | step o next ih =>
      intro s' settles
      have here := first s' settles
      exact ⟨here.1, ih (handle o s').1 here.2⟩

theorem Ready.mono {p : Resumption Res α} {weaker : α → σ → Prop} {s : σ}
    (ready : Ready handle env inv post p s) (weakens : ∀ a s, inv s → post a s → weaker a s) :
    Ready handle env inv weaker p s := by
  induction p generalizing s with
  | done a => exact ready_done ready.holds (weakens a s ready.holds ready.returns)
  | step o next ih =>
      intro s' settles
      have here := ready s' settles
      exact ⟨here.1, ih (handle o s').1 here.2⟩

theorem ready_forEach {ι : Type} {body : ι → Resumption Res Unit} {kept : σ → Prop} (l : List ι)
    (each : ∀ x ∈ l, ∀ s, inv s → kept s →
      Ready handle env inv (fun _ => kept) (body x) s) {s : σ} (good : inv s) (begins : kept s) :
    Ready handle env inv (fun _ => kept) (forEach body l) s := by
  induction l generalizing s with
  | nil => exact ready_done good begins
  | cons x xs ih =>
      refine ready_bind (each x List.mem_cons_self s good begins) fun _ s' good' kept' => ?_
      exact ih (fun y later => each y (List.mem_cons_of_mem x later)) good' kept'

end Ready

end Resumption

end OrbitOs.Base
