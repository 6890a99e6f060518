import Mathlib.Data.List.Pairwise
import Filament.Lib.Table

/-!
# Fencing tokens

A log of grants.  Every grant carries a token and the resource it is for; a grant is settled once
its holder is known to be done with the resource.

* `Serial` : tokens grow along the log, and a grant that another one of its resource follows is
  settled;
* `Serial.append` and `Serial.forall₂` : the two ways a log moves, a new grant after settled ones
  and a change of the entries that keeps tokens, resources and settledness;
* `Serial.token_le`, `Serial.eq_of_not_settled` : the grant of a resource that is not settled holds
  its greatest token, and there is at most one.
-/

namespace Fencing

variable {α β κ : Type*}

/-- Tokens grow along the log, and a grant is settled before the next one of its resource. -/
def Serial (token : α → ℕ) (key : α → κ) (settled : α → Prop) (log : List α) : Prop :=
  log.Pairwise fun a b => token a < token b ∧ (key a = key b → settled a)

variable {token : α → ℕ} {key : α → κ} {settled : α → Prop} {log : List α} {a b : α}

section

variable (h : Serial token key settled log) (ha : a ∈ log) (hb : b ∈ log)
include h ha hb

/-- Of two entries of a serial log, one is before the other unless they are the same. -/
theorem Serial.trichotomy :
    a = b ∨ (token a < token b ∧ (key a = key b → settled a)) ∨
      (token b < token a ∧ (key b = key a → settled b)) := by
  induction log with
  | nil => simp at ha
  | cons c log ih =>
    obtain ⟨hc, htail⟩ := List.pairwise_cons.1 h
    rcases List.mem_cons.1 ha with rfl | ha' <;> rcases List.mem_cons.1 hb with rfl | hb'
    · exact .inl rfl
    · exact .inr (.inl (hc b hb'))
    · exact .inr (.inr (hc a ha'))
    · exact ih htail ha' hb'

theorem Serial.eq_of_token_eq (hab : token a = token b) : a = b := by
  rcases h.trichotomy ha hb with h | ⟨h, -⟩ | ⟨h, -⟩
  · exact h
  · omega
  · omega

/-- The grant that is not settled holds the greatest token of its resource. -/
theorem Serial.token_le (hkey : key a = key b) (hopen : ¬ settled a) : token b ≤ token a := by
  rcases h.trichotomy ha hb with rfl | ⟨-, hs⟩ | ⟨hlt, -⟩
  · exact le_rfl
  · exact absurd (hs hkey) hopen
  · exact hlt.le

/-- At most one grant of a resource is not settled. -/
theorem Serial.eq_of_not_settled (hkey : key a = key b) (hopen : ¬ settled a) (hopen' : ¬ settled b) :
    a = b :=
  h.eq_of_token_eq ha hb <|
    le_antisymm (h.token_le hb ha hkey.symm hopen') (h.token_le ha hb hkey hopen)

/-- If the grant of a resource with the greatest token is settled, then all its grants are. -/
theorem Serial.settled_of_greatest (hkey : key b = key a) (hle : token b ≤ token a) (hs : settled a) :
    settled b := by
  by_contra hopen
  have heq := h.eq_of_token_eq ha hb (le_antisymm (h.token_le hb ha hkey hopen) hle)
  exact hopen (heq ▸ hs)

end

/-- A new grant with a greater token may follow once every grant of its resource is settled. -/
theorem Serial.append (h : Serial token key settled log) (hlt : ∀ a ∈ log, token a < token b)
    (hset : ∀ a ∈ log, key a = key b → settled a) : Serial token key settled (log ++ [b]) := by
  refine List.pairwise_append.2 ⟨h, List.pairwise_singleton .., fun a ha c hc => ?_⟩
  obtain rfl := List.mem_singleton.1 hc
  exact ⟨hlt a ha, hset a ha⟩

/-- Entries may change as long as tokens, resources and settledness stay. -/
theorem Serial.forall₂ {token' : β → ℕ} {key' : β → κ} {settled' : β → Prop} {log' : List β}
    (h : Serial token key settled log)
    (hR : List.Forall₂ (fun a b => token' b = token a ∧ key' b = key a ∧ (settled a → settled' b))
      log log') : Serial token' key' settled' log' := by
  induction hR with
  | nil => exact List.Pairwise.nil
  | @cons a b log log' hab hrest ih =>
    obtain ⟨hhead, htail⟩ := List.pairwise_cons.1 h
    refine List.pairwise_cons.2 ⟨fun c hc => ?_, ih htail⟩
    obtain ⟨d, hd, htok, hkey, -⟩ := hrest.exists_of_mem_right hc
    obtain ⟨htok', hkey', hset⟩ := hab
    refine ⟨by rw [htok, htok']; exact (hhead d hd).1, fun hbc => hset ((hhead d hd).2 ?_)⟩
    rw [← hkey, ← hkey']
    exact hbc

end Fencing
