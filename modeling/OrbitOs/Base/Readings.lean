import Mathlib.Tactic

/-!
# Reading a text run by run

Separators cut a text into runs.  The readings of a text are what its runs stand for, from
left to right; a run that stands for nothing is skipped.
-/

set_option autoImplicit false

namespace OrbitOs.Base

variable {α β : Type} (separates : α → Bool) (value : List α → Option β)

def readings (text : List α) : List β := (text.splitOnP separates).filterMap value

variable {separates} {value} (empty : value [] = none)

theorem readings_run {run : List α} (inside : ∀ c ∈ run, separates c = false) {b : β}
    (stands : value run = some b) {c : α} (cuts : separates c = true) (rest : List α) :
    readings separates value (run ++ c :: rest) = b :: readings separates value rest := by
  rw [readings, List.splitOnP_append_cons_of_forall_mem inside c cuts,
    List.filterMap_cons_some stands]
  rfl

theorem readings_last {run : List α} (inside : ∀ c ∈ run, separates c = false) {b : β}
    (stands : value run = some b) : readings separates value run = [b] := by
  rw [readings, List.splitOnP_eq_singleton inside, List.filterMap_cons_some stands]
  rfl

include empty

theorem readings_skip {c : α} (cuts : separates c = true) (rest : List α) :
    readings separates value (c :: rest) = readings separates value rest := by
  rw [readings, List.splitOnP_cons_eq_if_modifyHead, if_pos cuts, List.filterMap_cons_none empty]
  rfl

theorem readings_label {label : List α} (cut : ∀ c ∈ label, separates c = true) (rest : List α) :
    readings separates value (label ++ rest) = readings separates value rest := by
  induction label with
  | nil => rfl
  | cons c label ih =>
      rw [List.cons_append, readings_skip empty (cut c List.mem_cons_self)]
      exact ih fun d member => cut d (List.mem_cons_of_mem c member)

/-- A run and the separators behind it. -/
theorem readings_field {run : List α} (inside : ∀ c ∈ run, separates c = false) {b : β}
    (stands : value run = some b) {label : List α} (some : label ≠ [])
    (cut : ∀ c ∈ label, separates c = true) (rest : List α) :
    readings separates value (run ++ (label ++ rest)) =
      b :: readings separates value rest := by
  obtain ⟨c, label, rfl⟩ := List.exists_cons_of_ne_nil some
  rw [List.cons_append, readings_run inside stands (cut c List.mem_cons_self),
    readings_label empty fun d member => cut d (List.mem_cons_of_mem c member)]

omit empty in
/-- Lines with a newline behind each of them. -/
theorem splitOn_lines [DecidableEq α] (newline : α) {lines : List (List α)}
    (inside : ∀ line ∈ lines, newline ∉ line) :
    (lines.flatMap fun line => line ++ [newline]).splitOn newline = lines ++ [[]] := by
  induction lines with
  | nil => rfl
  | cons line lines ih =>
      have noNewline : ∀ c ∈ line, (c == newline) = false := by
        intro c member
        rw [beq_eq_false_iff_ne]
        rintro rfl
        exact inside line List.mem_cons_self member
      rw [List.flatMap_cons, List.append_assoc, List.singleton_append, List.splitOn_eq_splitOnP,
        List.splitOnP_append_cons_of_forall_mem noNewline newline (beq_self_eq_true newline),
        ← List.splitOn_eq_splitOnP, ih fun l member => inside l (List.mem_cons_of_mem line member)]
      rfl

end OrbitOs.Base
