import Mathlib.Algebra.Group.Basic
import Mathlib.Data.List.Forall2
import Mathlib.Data.List.Induction
import Mathlib.Order.Defs.PartialOrder

/-!
# Lists

* `Forall₂` : two lists related entry by entry;
* `set` : lists one entry of which is rewritten;
* `filter` : the entries of a kind, under changes of entries of another kind;
* `take` : the lower part of an increasing list;
* `lookup` : the entry of a table that a function fills;
* `lastBy` : the last entry of each class.
-/

namespace List

variable {α β γ : Type*} {R : α → β → Prop}

variable {a : α} {i : ℕ} {bs : List β} {as : List α}

section

variable (h : Forall₂ R as bs)
include h

theorem Forall₂.getElem?_left (ha : as[i]? = some a) :
    ∃ b, bs[i]? = some b ∧ R a b := by
  induction h generalizing i with
  | nil => simp at ha
  | cons hab _ ih =>
    cases i with
    | zero =>
      obtain rfl : _ = a := by simpa using ha
      exact ⟨_, rfl, hab⟩
    | succ i => exact ih (by simpa using ha)

theorem Forall₂.of_getElem? {b : β} (ha : as[i]? = some a) (hb : bs[i]? = some b) : R a b := by
  obtain ⟨b', hb', hab⟩ := h.getElem?_left ha
  exact Option.mem_unique hb' hb ▸ hab

theorem Forall₂.exists_of_mem_left (ha : a ∈ as) : ∃ b ∈ bs, R a b := by
  obtain ⟨i, hi⟩ := mem_iff_getElem?.mp ha
  obtain ⟨b, hb, hab⟩ := h.getElem?_left hi
  exact ⟨b, mem_of_getElem? hb, hab⟩

theorem Forall₂.exists_of_mem_right {b : β} (hb : b ∈ bs) :
    ∃ a ∈ as, R a b :=
  h.flip.exists_of_mem_left hb

end

variable {f : α → β}

theorem forall₂_map (h : ∀ a ∈ as, R a (f a)) : Forall₂ R as (as.map f) :=
  forall₂_map_right_iff.2 (forall₂_same.2 h)

theorem exists_of_map_eq {as' : List α} (h : as.map f = as'.map f) (ha : a ∈ as) :
    ∃ a' ∈ as', f a' = f a := by
  have hmem : f a ∈ as'.map f := h ▸ mem_map_of_mem ha
  exact mem_map.1 hmem

theorem Forall₂.map_eq {f : α → γ} {g : β → γ} (hR : ∀ a b, R a b → g b = f a)
    (h : Forall₂ R as bs) : bs.map g = as.map f := by
  induction h with
  | nil => rfl
  | cons hab _ ih => rw [map_cons, map_cons, hR _ _ hab, ih]

theorem zipWith_take_length (f : α → β → γ) (as : List α) (bs : List β) :
    zipWith f as (bs.take as.length) = zipWith f as bs := by
  induction as generalizing bs with
  | nil => simp
  | cons a as ih => cases bs <;> simp [ih]

variable {b : α}

theorem Forall₂.trans {R : α → α → Prop} (hR : ∀ a b c, R a b → R b c → R a c) {bs cs : List α}
    (h : Forall₂ R as bs) (h' : Forall₂ R bs cs) : Forall₂ R as cs := by
  induction h generalizing cs with
  | nil => exact h'
  | cons hab _ ih =>
    cases h' with
    | cons hbc hrest => exact .cons (hR _ _ _ hab hbc) (ih hrest)

theorem forall₂_set {R : α → α → Prop} (hrefl : ∀ a, R a a) (h : as[i]? = some a) (hab : R a b) :
    Forall₂ R as (as.set i b) := by
  induction as generalizing i with
  | nil => simp at h
  | cons c as ih =>
    cases i with
    | zero =>
      obtain rfl : c = a := by simpa using h
      exact .cons hab (forall₂_same.2 fun x _ => hrefl x)
    | succ i => exact .cons (hrefl c) (ih (by simpa using h))

theorem Forall₂.getElem?_right {R : α → β → Prop} (h : Forall₂ R as bs) {b : β}
    (hb : bs[i]? = some b) : ∃ a, as[i]? = some a ∧ R a b :=
  h.flip.getElem?_left hb

theorem zip_eraseIdx (as : List α) (bs : List β) (i : ℕ) :
    (as.eraseIdx i).zip (bs.eraseIdx i) = (as.zip bs).eraseIdx i := by
  refine ext_getElem? fun j => ?_
  simp only [zip, getElem?_zipWith, getElem?_eraseIdx]
  split_ifs <;> rfl

theorem zip_set (as : List α) (bs : List β) (i : ℕ) (a : α) (b : β) :
    (as.set i a).zip (bs.set i b) = (as.zip bs).set i (a, b) := by
  induction as generalizing bs i with
  | nil => rfl
  | cons c as ih =>
    cases bs with
    | nil => simp
    | cons d bs =>
      cases i with
      | zero => rfl
      | succ i => simp [ih]

theorem forall_mem_set {p : α → Prop} (h : ∀ a ∈ as, p a) (hb : p b) : ∀ a ∈ as.set i b, p a := by
  intro a ha
  rcases mem_or_eq_of_mem_set ha with ha | rfl
  · exact h a ha
  · exact hb

section

variable (h : as[i]? = some a) {p : α → Bool}
include h

theorem map_set_of_eq (hf : f b = f a) : (as.set i b).map f = as.map f := by
  refine ext_getElem? fun j => ?_
  rw [getElem?_map, getElem?_map, getElem?_set]
  split_ifs with hij hlt
  · rw [← hij, h, Option.map_some, Option.map_some, hf]
  · rw [← hij, getElem?_eq_none (Nat.not_lt.1 hlt)]
  · rfl

theorem mem_set_of_mem_of_ne {x : α} (hx : x ∈ as) (hne : x ≠ a) :
    x ∈ as.set i b := by
  obtain ⟨j, hj⟩ := mem_iff_getElem?.mp hx
  have hij : i ≠ j := by
    rintro rfl
    exact hne (Option.mem_unique hj h)
  exact mem_iff_getElem?.mpr ⟨j, (getElem?_set_ne hij).trans hj⟩

theorem sum_map_set {M : Type*} [AddCommMonoid M] {f : α → M} :
    ((as.set i b).map f).sum + f a = (as.map f).sum + f b := by
  induction as generalizing i with
  | nil => simp at h
  | cons c as ih =>
    cases i with
    | zero =>
      obtain rfl : c = a := by simpa using h
      rw [set_cons_zero, map_cons, map_cons, sum_cons, sum_cons, add_assoc, add_comm (f b),
        add_comm (f c)]
    | succ i =>
      have := ih (by simpa using h)
      rw [set_cons_succ, map_cons, map_cons, sum_cons, sum_cons, add_assoc, add_assoc, this]

theorem exists_split : ∃ l r, as = l ++ a :: r ∧ l.length = i := by
  obtain ⟨hi, rfl⟩ := getElem?_eq_some_iff.1 h
  exact ⟨as.take i, as.drop (i + 1), by simp, by simp [Nat.le_of_lt hi]⟩

theorem filter_eraseIdx_of_not (ha : ¬p a) : (as.eraseIdx i).filter p = as.filter p := by
  obtain ⟨l, r, rfl, rfl⟩ := exists_split h
  simp [eraseIdx_append_of_length_le, ha]

theorem filter_set_of_not (ha : ¬p a) (hb : ¬p b) : (as.set i b).filter p = as.filter p := by
  obtain ⟨l, r, rfl, rfl⟩ := exists_split h
  simp [ha, hb]

theorem set_eq_self : as.set i a = as := by
  obtain ⟨hi, rfl⟩ := getElem?_eq_some_iff.1 h
  exact set_getElem_self hi

theorem modify_eq_set_of_getElem? (f : α → α) :
    as.modify i f = as.set i (f a) := by
  have : Inhabited α := ⟨a⟩
  rw [modify_eq_set, h, Option.getD_some]

end

theorem Forall₂.set (h : Forall₂ R as bs) (i : ℕ) {b : β} (hab : R a b) :
    Forall₂ R (as.set i a) (bs.set i b) := by
  induction h generalizing i with
  | nil => exact .nil
  | cons hhead htail ih =>
    cases i with
    | zero => exact .cons hab htail
    | succ i => exact .cons hhead (ih i)

theorem Forall₂.set_right (h : Forall₂ R as bs) (ha : as[i]? = some a) {b : β} (hab : R a b) :
    Forall₂ R as (bs.set i b) := by
  have hset := h.set i hab
  rwa [set_eq_self ha] at hset

theorem lookup_map_key [BEq γ] [LawfulBEq γ] {key : α → γ} (h : a ∈ as)
    (hkey : ∀ b ∈ as, key a = key b → a = b) :
    (as.map fun a => (key a, f a)).lookup (key a) = some (f a) := by
  induction as with
  | nil => cases h
  | cons b as ih =>
    rw [map_cons, lookup_cons]
    cases hab : key a == key b with
    | true => rw [hkey b mem_cons_self (eq_of_beq hab)]
    | false =>
      exact ih ((mem_cons.1 h).resolve_left fun heq => by simp [heq] at hab)
        fun c hc => hkey c (mem_cons_of_mem _ hc)

theorem lookup_map_self [BEq α] [LawfulBEq α] (h : a ∈ as) :
    (as.map fun a => (a, f a)).lookup a = some (f a) :=
  @lookup_map_key _ _ _ _ _ f _ _ id h fun _ _ heq => heq

theorem exists_last_of_mem_map {b : β} (h : b ∈ as.map f) :
    ∃ us a vs, as = us ++ a :: vs ∧ f a = b ∧ ∀ x ∈ vs, f x ≠ b := by
  induction as with
  | nil => cases h
  | cons a as ih =>
    by_cases hmem : b ∈ as.map f
    · obtain ⟨us, x, vs, rfl, hx, hvs⟩ := ih hmem
      exact ⟨a :: us, x, vs, rfl, hx, hvs⟩
    · have hb : b = f a := (mem_cons.1 h).resolve_right hmem
      exact ⟨[], a, as, rfl, hb.symm, fun x hx hfx => hmem (hfx ▸ mem_map_of_mem hx)⟩

theorem mem_concat : b ∈ as ++ [a] ↔ b ∈ as ∨ b = a := by
  rw [mem_append, mem_singleton]

/-- What is below an entry of the front of an increasing list is in the front. -/
theorem mem_take_of_le [Preorder α] (hsorted : as.Pairwise (· < ·)) {m : ℕ} (ha : a ∈ as)
    (hb : b ∈ as.take m) (hab : a ≤ b) : a ∈ as.take m := by
  rw [← take_append_drop m as] at hsorted ha
  rcases mem_append.1 ha with htake | hdrop
  · exact htake
  · exact absurd ((pairwise_append.1 hsorted).2.2 b hb a hdrop) (not_lt_of_ge hab)

/-! ### The last element of each class -/

section LastBy

variable {κ : Type*} [DecidableEq κ] {g : α → κ}

/-- The elements of a list that no later one has the same `g` as. -/
def lastBy (g : α → κ) (l : List α) : List α :=
  l.foldl (fun kept a => kept.filter (g · ≠ g a) ++ [a]) []

theorem lastBy_concat (l : List α) (a : α) :
    lastBy g (l ++ [a]) = (lastBy g l).filter (g · ≠ g a) ++ [a] := by
  rw [lastBy, foldl_append]
  rfl

theorem lastBy_sublist (l : List α) : lastBy g l <+ l := by
  induction l using reverseRecOn with
  | nil => exact .slnil
  | append_singleton l a ih =>
    rw [lastBy_concat]
    exact (filter_sublist.trans ih).append_right [a]

theorem lastBy_congr {κ' : Type*} [DecidableEq κ'] {g' : α → κ'} {l : List α}
    (h : ∀ a ∈ l, ∀ b ∈ l, g a = g b ↔ g' a = g' b) : l.lastBy g = l.lastBy g' := by
  induction l using reverseRecOn with
  | nil => rfl
  | append_singleton l a ih =>
    rw [lastBy_concat, lastBy_concat,
      ih fun x hx y hy => h x (mem_append_left _ hx) y (mem_append_left _ hy)]
    congr 1
    refine filter_congr fun b hb => ?_
    have hmem : b ∈ l ++ [a] := mem_append_left _ ((lastBy_sublist l).subset hb)
    simp [h b hmem a (by simp)]

end LastBy

end List
