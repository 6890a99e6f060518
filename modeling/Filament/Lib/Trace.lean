import Mathlib.Data.List.Basic

/-!
# Runs of a step function

A system is given by a total step function `step : σ → α → σ` on states and events; an event that
is not enabled leaves the state unchanged.  A run is the left fold of `step` over a list of events.

* `run` is the state reached, and `Along P` says that `P` holds at every step of the run.
* `inv_run` and `inv_run_of_along` are the induction rules for invariants, the second for
  invariants that only the steps meeting a side condition preserve.
* `along_of_inv` derives a step predicate from a side condition of the steps and an invariant that
  it preserves; `along_congr` exchanges one step predicate for another, under a side condition of
  the steps.
-/

namespace Trace

variable {σ α : Type*}

/-- The state reached from `s` by the events `as`. -/
def run (step : σ → α → σ) (s : σ) (as : List α) : σ :=
  as.foldl step s

@[simp] theorem run_nil (step : σ → α → σ) (s : σ) : run step s [] = s := rfl

@[simp] theorem run_cons (step : σ → α → σ) (s : σ) (a : α) (as : List α) :
    run step s (a :: as) = run step (step s a) as := rfl

theorem run_append (step : σ → α → σ) (s : σ) (as bs : List α) :
    run step s (as ++ bs) = run step (run step s as) bs := by
  simp [run]

/-- The predicate `P` holds of every state of the run together with the event taken there. -/
def Along (step : σ → α → σ) (P : σ → α → Prop) : σ → List α → Prop
  | _, [] => True
  | s, a :: as => P s a ∧ Along step P (step s a) as

@[simp] theorem along_nil (step : σ → α → σ) (P : σ → α → Prop) (s : σ) :
    Along step P s [] := trivial

variable {step : σ → α → σ} {P Q F : σ → α → Prop} {Inv : σ → Prop} {s : σ} {as bs : List α}

@[simp] theorem along_cons {a : α} :
    Along step P s (a :: as) ↔ P s a ∧ Along step P (step s a) as := Iff.rfl

theorem along_append :
    Along step P s (as ++ bs) ↔ Along step P s as ∧ Along step P (run step s as) bs := by
  induction as generalizing s with
  | nil => simp
  | cons a as ih => simp [ih, and_assoc]

instance decidableAlong {step : σ → α → σ} {P : σ → α → Prop} [h : ∀ s a, Decidable (P s a)] :
    ∀ s as, Decidable (Along step P s as)
  | _, [] => .isTrue trivial
  | s, a :: as => @instDecidableAnd _ _ (h s a) (decidableAlong (step s a) as)

theorem Along.mono (hPQ : ∀ s a, P s a → Q s a) (h : Along step P s as) : Along step Q s as := by
  induction as generalizing s with
  | nil => trivial
  | cons a as ih => exact ⟨hPQ _ _ h.1, ih h.2⟩

theorem Along.and (hP : Along step P s as) (hQ : Along step Q s as) :
    Along step (fun s a => P s a ∧ Q s a) s as := by
  induction as generalizing s with
  | nil => trivial
  | cons a as ih => exact ⟨⟨hP.1, hQ.1⟩, ih hP.2 hQ.2⟩

theorem along_of_forall {P : α → Prop} (h : ∀ a ∈ as, P a) (s : σ) :
    Along step (fun _ a => P a) s as := by
  induction as generalizing s with
  | nil => trivial
  | cons a as ih =>
    exact ⟨h a (.head _), ih (fun b hb => h b (.tail _ hb)) _⟩

theorem guarded {p : Prop} [Decidable p] {s' : σ} (hs : Inv s) (h : p → Inv s') :
    Inv (if p then s' else s) := by
  split_ifs with hp
  · exact h hp
  · exact hs

/-- An invariant that every step preserves holds at the end of every run. -/
theorem inv_run (hstep : ∀ s a, Inv s → Inv (step s a)) (hs : Inv s) (as : List α) :
    Inv (run step s as) := by
  induction as generalizing s with
  | nil => exact hs
  | cons a as ih => exact ih (hstep s a hs)

/-- An invariant that the steps meeting `P` preserve holds at the end of every run along which
`P` holds. -/
theorem inv_run_of_along (hstep : ∀ s a, Inv s → P s a → Inv (step s a)) (hs : Inv s)
    (h : Along step P s as) : Inv (run step s as) := by
  induction as generalizing s with
  | nil => exact hs
  | cons a as ih => exact ih (hstep s a hs h.1) h.2

/-- Along a run whose steps meet `P`, a predicate `Q` that `P` gives under an invariant preserved by
such steps holds as well. -/
theorem along_of_inv (hstep : ∀ s a, Inv s → P s a → Inv (step s a) ∧ Q s a) (hs : Inv s)
    (h : Along step P s as) : Along step Q s as := by
  induction as generalizing s with
  | nil => trivial
  | cons a as ih =>
    obtain ⟨hnext, hq⟩ := hstep s a hs h.1
    exact ⟨hq, ih hnext h.2⟩

/-- Two step predicates that agree wherever `F` holds, hold along the same runs among those along
which `F` holds. -/
theorem along_congr (hPQ : ∀ s a, F s a → (P s a ↔ Q s a)) (hF : Along step F s as) :
    Along step P s as ↔ Along step Q s as := by
  induction as generalizing s with
  | nil => simp
  | cons a as ih => rw [along_cons, along_cons, hPQ s a hF.1, ih hF.2]

end Trace
