import Mathlib.Data.List.Basic

/-!
# Histories

A history is the list of the facts that a system has recorded, oldest first.

* `Justified P log` : every fact of the history has `P` of the facts before it;
* `justified_append` : a history stays justified when a fact is recorded that has `P`;
* `justified_extend` : and when any facts are recorded that have `P` of every history.
-/

namespace History

variable {α : Type*} {P : List α → α → Prop} {log : List α}

variable (P log) in
/-- Every fact has `P` of the facts before it. -/
def Justified : Prop :=
  ∀ before x after, log = before ++ x :: after → P before x

theorem justified_nil (P : List α → α → Prop) : Justified P [] := by
  intro before x after h
  simp at h

theorem justified_append {x : α} (h : Justified P log) (hx : P log x) : Justified P (log ++ [x]) := by
  intro before y after heq
  rcases List.eq_nil_or_concat after with rfl | ⟨init, last, rfl⟩
  · obtain ⟨rfl, hlast⟩ := List.append_inj' heq rfl
    obtain rfl := List.head_eq_of_cons_eq hlast
    exact hx
  · rw [List.concat_eq_append, ← List.cons_append, ← List.append_assoc] at heq
    obtain ⟨rfl, -⟩ := List.append_inj' heq rfl
    exact h before y init rfl

/-- Facts that have `P` of any history may be recorded at any time. -/
theorem justified_extend {facts : List α} (h : Justified P log)
    (hfacts : ∀ before, ∀ x ∈ facts, P before x) : Justified P (log ++ facts) := by
  induction facts generalizing log with
  | nil => simpa using h
  | cons x facts ih =>
    rw [List.append_cons]
    refine ih (justified_append h (hfacts log x (.head _))) fun before y hy => ?_
    exact hfacts before y (List.mem_cons_of_mem x hy)

end History
