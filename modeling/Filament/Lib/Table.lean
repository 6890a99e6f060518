import Mathlib.Data.List.MinMax
import Filament.Lib.Lists

/-!
# Tables

A table is the list of its rows, in the order of their insertion.

* `update` rewrites the rows that meet a condition, `affected` counts them;
* `newest` is the row of greatest rank among those that meet a condition;
* `first` is the row that a lookup by a unique key finds.

Rows are related one by one across an update (`forall₂_update`), and so across any number of them
when the relation is transitive.
-/

namespace Table

open List

variable {α β : Type*}

/-- Rewrites the rows that meet `p`. -/
def update (p : α → Prop) [DecidablePred p] (f : α → α) (rows : List α) : List α :=
  rows.map fun r => if p r then f r else r

/-- The number of rows that meet `p`. -/
def affected (p : α → Prop) [DecidablePred p] (rows : List α) : ℕ :=
  rows.countP fun r => p r

/-- The row of greatest rank among those that meet `p`. -/
def newest (p : α → Prop) [DecidablePred p] (rank : α → ℕ) (rows : List α) : Option α :=
  (rows.filter fun r => p r).argmax rank

/-- The first row that meets `p`. -/
def first (p : α → Prop) [DecidablePred p] (rows : List α) : Option α :=
  rows.find? fun r => p r

variable {p q : α → Prop} [DecidablePred p] {f : α → α} {rank : α → ℕ} {rows : List α} {r : α}

theorem mem_update : r ∈ update p f rows ↔ ∃ x ∈ rows, (if p x then f x else x) = r := by
  simp [update]

theorem affected_pos : 0 < affected p rows ↔ ∃ x ∈ rows, p x := by
  simp [affected, countP_pos_iff]

/-- A projection that the rewrite keeps is the same column by column. -/
theorem map_update {g : α → β} (h : ∀ x ∈ rows, p x → g (f x) = g x) :
    (update p f rows).map g = rows.map g := by
  rw [update, map_map]
  refine map_congr_left fun x hx => ?_
  by_cases hp : p x
  · simp [hp, h x hx hp]
  · simp [hp]

/-- An update relates every row to what becomes of it. -/
theorem forall₂_update {R : α → α → Prop} (hrefl : ∀ x, R x x) (hf : ∀ x ∈ rows, p x → R x (f x)) :
    List.Forall₂ R rows (update p f rows) := by
  rw [update, forall₂_map_right_iff, forall₂_same]
  intro x hx
  by_cases hp : p x
  · simpa [hp] using hf x hx hp
  · simpa [hp] using hrefl x

theorem update_eq_self (h : ∀ x ∈ rows, p x → f x = x) : update p f rows = rows := by
  conv_rhs => rw [← map_id rows]
  refine map_congr_left fun x hx => ?_
  by_cases hp : p x
  · simp [hp, h x hx hp]
  · simp [hp]

theorem newest_eq_some (h : newest p rank rows = some r) :
    r ∈ rows ∧ p r ∧ ∀ x ∈ rows, p x → rank x ≤ rank r := by
  have hmem := argmax_mem (Option.mem_def.2 h)
  rw [mem_filter, decide_eq_true_eq] at hmem
  refine ⟨hmem.1, hmem.2, fun x hx hp => ?_⟩
  exact le_of_mem_argmax (mem_filter.2 ⟨hx, by simpa using hp⟩) (Option.mem_def.2 h)

theorem newest_eq_none : newest p rank rows = none ↔ ∀ x ∈ rows, ¬ p x := by
  simp [newest, argmax_eq_none, filter_eq_nil_iff]

theorem newest_congr [DecidablePred q] (h : ∀ x ∈ rows, p x ↔ q x) :
    newest p rank rows = newest q rank rows := by
  unfold newest
  rw [filter_congr fun x hx => decide_eq_decide.2 (h x hx)]

theorem exists_newest (hr : r ∈ rows) (hp : p r) : ∃ x, newest p rank rows = some x := by
  rw [← Option.ne_none_iff_exists', Ne, newest_eq_none]
  exact fun h => h r hr hp

theorem first_eq_some (h : first p rows = some r) : r ∈ rows ∧ p r :=
  ⟨mem_of_find?_eq_some h, by simpa using find?_some h⟩

theorem first_eq_none : first p rows = none ↔ ∀ x ∈ rows, ¬ p x := by
  simp [first, find?_eq_none]

end Table
