import Mathlib.Data.List.Basic

/-!
# Replaying keyed writes

A table maps each key to at most one row.  A write either puts a row under a key or removes the
key; replaying a list of writes applies them in order.

* `replay_append` splits a replay; `replay_of_last` reads a key off its last write, and
  `replay_again` repeats writes from anywhere on.
* `Agrees` relates two tables through a translation of keys and a relation between rows: each holds
  exactly what the other holds, translated.  `Agrees.write` carries it along matched writes
  when the translation is injective on the keys in use.
-/

namespace Replay

variable {K V : Type*}

/-- One keyed write. -/
inductive Write (K V : Type*) where
  /-- Insert the row or replace the one under the key. -/
  | put (key : K) (row : V)
  /-- Remove the key. -/
  | del (key : K)
  deriving DecidableEq, Repr

namespace Write

/-- The key a write is about. -/
def key : Write K V → K
  | put k _ => k
  | del k => k

/-- The row a write leaves under its key. -/
def row : Write K V → Option V
  | put _ v => some v
  | del _ => none

@[simp] theorem key_put (k : K) (v : V) : (put k v).key = k := rfl
@[simp] theorem key_del (k : K) : (del k : Write K V).key = k := rfl
@[simp] theorem row_put (k : K) (v : V) : (put k v).row = some v := rfl
@[simp] theorem row_del (k : K) : (del k : Write K V).row = none := rfl

end Write

variable [DecidableEq K] {w : Write K V} {k : K}

/-- A table: the row under each key, if any. -/
abbrev Table (K V : Type*) := K → Option V

variable (t : Table K V)

/-- One write applied to a table. -/
def write (w : Write K V) : Table K V :=
  Function.update t w.key w.row

/-- The writes applied in order. -/
def replay (ws : List (Write K V)) : Table K V :=
  ws.foldl write t

@[simp] theorem replay_nil : replay t [] = t := rfl

@[simp] theorem replay_cons (w : Write K V) (ws : List (Write K V)) :
    replay t (w :: ws) = replay (write t w) ws := rfl

theorem replay_append (ws us : List (Write K V)) :
    replay t (ws ++ us) = replay (replay t ws) us := by
  simp [replay]

theorem write_apply (w : Write K V) (k : K) : write t w k = if k = w.key then w.row else t k := by
  simp [write, Function.update_apply]

theorem write_of_ne (h : k ≠ w.key) : write t w k = t k := by
  rw [write_apply, if_neg h]

theorem write_put_self (k : K) (v : V) : write t (.put k v) k = some v := by
  simp [write_apply]

/-- Removing a key just before putting a row under it changes nothing. -/
theorem write_del_put (k : K) (v : V) :
    write (write t (.del k)) (.put k v) = write t (.put k v) := by
  simp [write, Function.update_idem]

variable {ws vs : List (Write K V)}

theorem replay_of_not_mem (h : ∀ w ∈ ws, w.key ≠ k) (t : Table K V) : replay t ws k = t k := by
  induction ws generalizing t with
  | nil => rfl
  | cons w ws ih =>
    rw [replay_cons, ih fun u hu => h u (.tail _ hu),
      write_of_ne t (h w (.head _)).symm]

/-- The last write to a key decides what is under it. -/
theorem replay_of_last (t : Table K V) (us : List (Write K V)) (w : Write K V)
    (h : ∀ u ∈ vs, u.key ≠ w.key) : replay t (us ++ w :: vs) w.key = w.row := by
  rw [replay_append, replay_cons, replay_of_not_mem h, write_apply, if_pos rfl]

theorem replay_of_nodup (t : Table K V) (h : (ws.map Write.key).Nodup) (hw : w ∈ ws) :
    replay t ws w.key = w.row := by
  obtain ⟨us, vs, rfl⟩ := List.append_of_mem hw
  rw [List.map_append, List.map_cons, List.nodup_append, List.nodup_cons] at h
  exact replay_of_last t us w fun u hu hkey => h.2.1.1 (hkey ▸ List.mem_map_of_mem hu)

theorem replay_congr {t t' : Table K V}
    (h : ∀ k, (∀ w ∈ ws, w.key ≠ k) → t k = t' k) : replay t ws = replay t' ws := by
  induction ws generalizing t t' with
  | nil => exact funext fun k => h k nofun
  | cons w ws ih =>
    refine ih fun k hk => ?_
    rw [write_apply, write_apply]
    split_ifs with heq
    · rfl
    · exact h k (List.forall_mem_cons.2 ⟨Ne.symm heq, hk⟩)

/-- Writes that are repeated before others follow change nothing. -/
theorem replay_again (ws us : List (Write K V)) :
    replay (replay t ws) (ws ++ us) = replay t (ws ++ us) :=
  replay_congr fun _ hk => replay_of_not_mem (fun w hw => hk w (List.mem_append_left _ hw)) t

/-! ### Two tables with the same contents -/

variable {L W : Type*} [DecidableEq L]

/-- The tables `src` and `dst` have the same contents: the keys in use lie in `D` and correspond
through `κ`, the rows through `R`. -/
structure Agrees (D : K → Prop) (κ : K → L) (R : V → W → Prop) (src : Table K V)
    (dst : Table L W) : Prop where
  mem : ∀ k v, src k = some v → D k ∧ ∃ w, R v w ∧ dst (κ k) = some w
  exact : ∀ l w, dst l = some w → ∃ k v, src k = some v ∧ R v w ∧ κ k = l

namespace Agrees

variable {D : K → Prop} {κ : K → L} {R : V → W → Prop} {src : Table K V} {dst : Table L W}

theorem write (hκ : ∀ k k', D k → D k' → κ k = κ k' → k = k') (h : Agrees D κ R src dst)
    {u : Write K V} {u' : Write L W} (hu : D u.key) (hkey : u'.key = κ u.key)
    (hrow : ∀ v, u.row = some v → ∃ w, R v w ∧ u'.row = some w)
    (hrow' : ∀ w, u'.row = some w → ∃ v, u.row = some v ∧ R v w) :
    Agrees D κ R (write src u) (write dst u') := by
  refine ⟨fun k v hv => ?_, fun l w hw => ?_⟩
  · by_cases hk : k = u.key
    · rw [write_apply, if_pos hk] at hv
      rw [hk, ← hkey, write_apply, if_pos rfl]
      exact ⟨hu, hrow v hv⟩
    · rw [write_of_ne _ hk] at hv
      obtain ⟨hD, w, hR, hw⟩ := h.mem k v hv
      refine ⟨hD, w, hR, ?_⟩
      rw [write_of_ne _ fun he => hk (hκ _ _ hD hu (he.trans hkey)), hw]
  · by_cases hl : l = u'.key
    · rw [write_apply, if_pos hl] at hw
      obtain ⟨v, hv, hR⟩ := hrow' w hw
      refine ⟨u.key, v, ?_, hR, (hl.trans hkey).symm⟩
      rw [write_apply, if_pos rfl, hv]
    · rw [write_of_ne _ hl] at hw
      obtain ⟨k, v, hv, hR, rfl⟩ := h.exact l w hw
      refine ⟨k, v, ?_, hR, rfl⟩
      rw [write_of_ne _ fun he => hl ((congrArg κ he).trans hkey.symm), hv]

end Agrees

end Replay
