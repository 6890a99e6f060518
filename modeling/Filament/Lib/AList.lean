import Mathlib.Data.List.AList

/-!
# Restricting an association list

`AList.keep p s` holds the entries of `s` whose key meets `p`, in their order. Insertion commutes with
it at a key that meets `p`, and what it dropped of a key is forgotten once the key is inserted
again.
-/

namespace AList

open List

variable {α γ : Type*} {β : α → Type*} {s : AList fun _ : α => γ}

/-- The entries whose key meets `p`. -/
def keep (p : α → Bool) (s : AList β) : AList β :=
  ⟨s.entries.filter fun e => p e.1, s.nodupKeys.sublist List.filter_sublist⟩

@[simp] theorem entries_keep (p : α → Bool) (s : AList β) :
    (s.keep p).entries = s.entries.filter fun e => p e.1 := rfl

theorem keys_eq_nil {s : AList β} : s.keys = [] ↔ s = ∅ := by
  constructor
  · intro h
    exact ext (map_eq_nil_iff.1 h)
  · rintro rfl
    rfl

variable (s) in
/-- The entries as pairs. -/
def pairs : List (α × γ) := s.entries.map fun e => (e.1, e.2)

theorem pairs_eq_nil : s.pairs = [] ↔ s.keys = [] := by
  simp [pairs, keys, List.keys]

variable [DecidableEq α] {p q : α → Bool} {a : α}

theorem lookup_keep_of_pos (h : p a = true) (s : AList β) : (s.keep p).lookup a = s.lookup a := by
  ext b
  rw [← Option.mem_def, ← Option.mem_def, mem_lookup_iff, mem_lookup_iff, entries_keep, mem_filter]
  exact and_iff_left h

theorem lookup_keep_of_neg (h : p a = false) (s : AList β) : (s.keep p).lookup a = none := by
  rw [Option.eq_none_iff_forall_not_mem]
  intro b hb
  rw [mem_lookup_iff, entries_keep, mem_filter] at hb
  exact Bool.false_ne_true (h.symm.trans hb.2)

theorem kerase_eq_filter (a : α) {l : List (Sigma β)} (h : l.NodupKeys) :
    l.kerase a = l.filter fun e => e.1 ≠ a := by
  induction l with
  | nil => rfl
  | cons e l ih =>
    obtain ⟨hnot, hl⟩ := nodupKeys_cons.1 h
    by_cases ha : a = e.1
    · subst ha
      rw [kerase_cons_eq rfl, filter_cons_of_neg (by simp), filter_eq_self.2]
      intro e' he'
      rw [decide_eq_true_eq]
      rintro heq
      exact hnot (heq ▸ mem_keys_of_mem he')
    · rw [kerase_cons_ne ha, filter_cons_of_pos (by simpa using Ne.symm ha), ih hl]

/-- After an insertion it does not matter what was kept of the key. -/
theorem insert_keep_congr (h : ∀ k, k ≠ a → p k = q k) (b : β a) (s : AList β) :
    (s.keep p).insert a b = (s.keep q).insert a b := by
  apply ext
  rw [entries_insert, entries_insert, kerase_eq_filter a (s.keep p).nodupKeys,
    kerase_eq_filter a (s.keep q).nodupKeys, entries_keep, entries_keep, filter_filter,
    filter_filter]
  refine congrArg _ (filter_congr fun e _ => ?_)
  by_cases he : e.1 = a
  · simp [he]
  · simp [he, h e.1 he]

theorem keep_insert (h : p a = true) (b : β a) (s : AList β) :
    (s.insert a b).keep p = (s.keep p).insert a b := by
  apply ext
  rw [entries_insert, kerase_eq_filter a (s.keep p).nodupKeys, entries_keep, entries_keep,
    entries_insert, kerase_eq_filter a s.nodupKeys, filter_cons, if_pos h, filter_filter,
    filter_filter]
  refine congrArg _ (filter_congr fun e _ => Bool.and_comm ..)

theorem mem_pairs {c : γ} : (a, c) ∈ s.pairs ↔ s.lookup a = some c := by
  rw [← Option.mem_def, mem_lookup_iff]
  simp only [pairs, mem_map, Prod.mk.injEq]
  constructor
  · rintro ⟨e, he, rfl, rfl⟩
    exact he
  · intro h
    exact ⟨_, h, rfl, rfl⟩

end AList
