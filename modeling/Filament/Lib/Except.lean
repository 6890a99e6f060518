import Filament.Lib.Lists

/-!
# Computations that may fail

Inversion of `Except`: a computation that succeeds comes apart into its successful parts; a
traversal that succeeds relates its elements to its results one by one.

* `require` is a guard clause and `ofOption` a lookup that must find something; a computation that
  starts with one of them succeeds only if the guard holds, or the value is there.
-/

namespace Except

variable {ε : Type*} {α β : Type}

variable {a b : α}

@[simp] theorem pure_eq_ok_iff : (pure a : Except ε α) = .ok b ↔ a = b := by
  simp [pure, Except.pure]

@[simp] theorem ok_bind (a : α) (f : α → Except ε β) : (.ok a >>= f) = f a := rfl

variable {f : α → Except ε β} {b : β} {x : Except ε α}

theorem bind_eq_ok : (x >>= f) = .ok b ↔ ∃ a, x = .ok a ∧ f a = .ok b := by
  cases x with
  | error e | ok a => simp [bind, Except.bind]

/-- Fails with `e` unless `p` holds. -/
def require (p : Prop) [Decidable p] (e : ε) : Except ε Unit :=
  if p then .ok () else .error e

variable {e : ε} {o : Option α} {p : Prop}

@[simp] theorem require_eq_ok [Decidable p] {u : Unit} : require p e = .ok u ↔ p := by
  unfold require
  split_ifs with h <;> simp [h]

theorem require_bind_eq_ok [Decidable p] {f : Unit → Except ε β} :
    (require p e >>= f) = .ok b ↔ p ∧ f () = .ok b := by
  rw [bind_eq_ok]
  constructor
  · rintro ⟨⟨⟩, hp, hf⟩
    exact ⟨require_eq_ok.1 hp, hf⟩
  · rintro ⟨hp, hf⟩
    exact ⟨(), require_eq_ok.2 hp, hf⟩

/-- The value that is there; fails with `e` without one. -/
def ofOption (e : ε) : Option α → Except ε α
  | some a => .ok a
  | none => .error e

@[simp] theorem ofOption_eq_ok : ofOption e o = .ok a ↔ o = some a := by
  cases o <;> simp [ofOption]

theorem ofOption_bind_eq_ok : (ofOption e o >>= f) = .ok b ↔ ∃ a, o = some a ∧ f a = .ok b := by
  simp [bind_eq_ok]

theorem map_eq_ok {f : α → β} : (f <$> x) = .ok b ↔ ∃ a, x = .ok a ∧ f a = b := by
  cases x with
  | error e | ok a => simp [Functor.map, Except.map]

theorem mapError_eq_ok {ε' : Type*} {f : ε → ε'} : x.mapError f = .ok a ↔ x = .ok a := by
  cases x <;> simp [Except.mapError]

theorem mapM_eq_ok {as : List α} {bs : List β} :
    as.mapM f = .ok bs ↔ List.Forall₂ (fun a b => f a = .ok b) as bs := by
  induction as generalizing bs with
  | nil => rw [List.mapM_nil, pure_eq_ok_iff, List.forall₂_nil_left_iff, eq_comm]
  | cons a as ih =>
    simp only [List.mapM_cons, bind_eq_ok, pure_eq_ok_iff, ih]
    constructor
    · rintro ⟨b, hb, bs', hbs, rfl⟩
      exact .cons hb hbs
    · rintro (_ | ⟨hb, hbs⟩)
      exact ⟨_, hb, _, hbs, rfl⟩

end Except
