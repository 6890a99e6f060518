import Mathlib.Algebra.Order.Ring.Unbundled.Rat
import Filament.Lib.Lists

/-!
# Heaps, transactions and snapshots

What the readers of a database see while others write to it.  A heap holds row versions in blocks; a
transaction that commits writes new versions, at any block, and ends old ones; a snapshot is the
number of commits it includes.

* `Heap` : the versions of a relation, all of them inside its block count;
* `Database.apply` : what other clients do, and `Database.apply_heap` : what that does to a heap;
* `Database.apply_seen` : **what a snapshot sees does not change**;
* `Database.current_of_apply` : where a current version comes from.
-/

namespace Filament.Postgres.Mvcc

open List

variable {ρ : Type}

/-- A row version: where it is, the transaction that wrote it, the commit it appeared with and the
one it ended with. -/
structure Version (ρ : Type) where
  row : ρ
  block : ℕ
  offset : ℕ
  xmin : ℕ
  created : ℕ
  deleted : Option ℕ
  deriving DecidableEq, Repr

/-- A snapshot of the first `snap` commits sees a version that appeared in one of them and ended in
none. -/
def Version.visible (snap : ℕ) (v : Version ρ) : Bool :=
  decide (v.created ≤ snap) && v.deleted.all fun d => decide (snap < d)

/-- A version that is current ends with a commit. -/
def Version.ended (commit : ℕ) (v : Version ρ) : Version ρ :=
  if v.deleted.isNone then { v with deleted := some commit } else v

@[simp] theorem Version.ended_block (commit : ℕ) (v : Version ρ) :
    (v.ended commit).block = v.block := by
  unfold ended
  split_ifs <;> rfl

/-- The heap of a relation, of `pages` blocks. -/
structure Heap (ρ : Type) where
  versions : List (Version ρ)
  pages : ℕ
  relfrozenxid : ℕ
  filenode : ℕ
  inside : ∀ v ∈ versions, v.block < pages

namespace Heap

/-- Write a version; the heap grows to hold it. -/
def insert (h : Heap ρ) (row : ρ) (block offset xid commit : ℕ) : Heap ρ where
  versions := h.versions ++ [⟨row, block, offset, xid, commit, none⟩]
  pages := max h.pages (block + 1)
  relfrozenxid := h.relfrozenxid
  filenode := h.filenode
  inside := by
    intro v hv
    rcases List.mem_concat.1 hv with hv | rfl
    · exact lt_of_lt_of_le (h.inside v hv) (le_max_left _ _)
    · exact lt_of_lt_of_le (Nat.lt_succ_self _) (le_max_right _ _)

/-- The version at a position, if it is current. -/
def current (h : Heap ρ) (i : ℕ) : Option (Version ρ) :=
  h.versions[i]?.filter fun v => v.deleted.isNone

/-- End the version at a position. -/
def delete (h : Heap ρ) (i commit : ℕ) : Heap ρ where
  versions := h.versions.modify i (Version.ended commit)
  pages := h.pages
  relfrozenxid := h.relfrozenxid
  filenode := h.filenode
  inside := by
    intro v hv
    obtain ⟨j, hj⟩ := List.mem_iff_getElem?.mp hv
    rw [List.getElem?_modify] at hj
    cases hw : h.versions[j]? with
    | none => simp [hw] at hj
    | some w =>
      have hin := h.inside w (List.mem_of_getElem? hw)
      obtain rfl | rfl : v = w ∨ v = w.ended commit := by
        by_cases hij : i = j
        · simp only [hw, hij, if_true] at hj
          exact .inr (Option.some.inj hj).symm
        · simp only [hw, hij, if_false] at hj
          exact .inl (Option.some.inj hj).symm
      · exact hin
      · rwa [Version.ended_block]

/-- The heap grows before anything in the new blocks is committed. -/
def extend (h : Heap ρ) (pages : ℕ) : Heap ρ where
  versions := h.versions
  pages := max h.pages pages
  relfrozenxid := h.relfrozenxid
  filenode := h.filenode
  inside v hv := lt_of_lt_of_le (h.inside v hv) (le_max_left _ _)

/-- Freezing moves the oldest transaction the heap remembers; the versions keep what they say. -/
def freeze (h : Heap ρ) (xid : ℕ) : Heap ρ := { h with relfrozenxid := max h.relfrozenxid xid }

end Heap

/-- What a statement does to a relation. -/
inductive Write (ρ : Type) where
  | insert (relation : String) (row : ρ) (block offset : ℕ)
  | delete (relation : String) (i : ℕ)
  | update (relation : String) (i : ℕ) (row : ρ) (block offset : ℕ)

/-- A database: its heaps, the number of commits, the transactions that are running and the next
transaction. -/
structure Database (ρ : Type) where
  heap : String → Heap ρ
  commits : ℕ
  running : List ℕ
  nextXid : ℕ

/-- What other clients do. -/
inductive Change (ρ : Type) where
  | begin
  | commit (xid : ℕ) (writes : List (Write ρ))
  | abort (xid : ℕ)
  | extend (relation : String) (pages : ℕ)
  | freeze (relation : String) (xid : ℕ)

namespace Database

/-- Rewrite one heap. -/
def setHeap (db : Database ρ) (relation : String) (h : Heap ρ) : Database ρ :=
  { db with heap := fun r => if r = relation then h else db.heap r }

/-- A write of the transaction `xid`, in the commit after the last one.  A statement on a version
that is not current finds nothing. -/
def write (xid : ℕ) (db : Database ρ) : Write ρ → Database ρ
  | .insert relation row block offset =>
    db.setHeap relation ((db.heap relation).insert row block offset xid (db.commits + 1))
  | .delete relation i => db.setHeap relation ((db.heap relation).delete i (db.commits + 1))
  | .update relation i row block offset =>
    match (db.heap relation).current i with
    | none => db
    | some _ =>
      db.setHeap relation (((db.heap relation).delete i (db.commits + 1)).insert row block offset
        xid (db.commits + 1))

/-- The database after a change by others. -/
def apply (db : Database ρ) : Change ρ → Database ρ
  | .begin => { db with running := db.nextXid :: db.running, nextXid := db.nextXid + 1 }
  | .commit xid writes =>
    if xid ∈ db.running then
      let written := writes.foldl (write xid) db
      { written with commits := db.commits + 1, running := db.running.erase xid }
    else db
  | .abort xid => { db with running := db.running.erase xid }
  | .extend relation pages => db.setHeap relation ((db.heap relation).extend pages)
  | .freeze relation xid => db.setHeap relation ((db.heap relation).freeze xid)

/-- `pg_snapshot_xmin` : every transaction before it has ended. -/
def snapshotXmin (db : Database ρ) : ℕ := db.running.foldl min db.nextXid

end Database

/-! ### Reading -/

/-- The order of tuple identifiers. -/
def tidLt (a b : ℕ × ℕ) : Prop := a.1 < b.1 ∨ a.1 = b.1 ∧ a.2 < b.2

instance (a b : ℕ × ℕ) : Decidable (tidLt a b) := inferInstanceAs (Decidable (_ ∨ _))

/-- `t.ctid >= '(lo,0)' AND t.ctid < '(hi,0)'`. -/
def Version.inWindow (lo hi : ℕ) (v : Version ρ) : Bool :=
  !decide (tidLt (v.block, v.offset) (lo, 0)) && decide (tidLt (v.block, v.offset) (hi, 0))

theorem Version.inWindow_eq (lo hi : ℕ) (v : Version ρ) :
    v.inWindow lo hi = decide (lo ≤ v.block ∧ v.block < hi) := by
  simp only [inWindow, tidLt, Nat.not_lt_zero, and_false, or_false]
  by_cases hlo : lo ≤ v.block
  · simp [hlo, Nat.not_lt.2 hlo]
  · simp [hlo, Nat.lt_of_not_le hlo]

/-- The rows a snapshot sees in the blocks from `lo` up to `hi`. -/
def Heap.rowsIn (h : Heap ρ) (snap lo hi : ℕ) : List ρ :=
  (h.versions.filter fun v => v.visible snap && v.inWindow lo hi).map Version.row

/-- The rows a snapshot sees. -/
def Heap.rows (h : Heap ρ) (snap : ℕ) : List ρ :=
  (h.versions.filter fun v => v.visible snap).map Version.row

/-! ### What a snapshot sees stays -/

variable {snap commit : ℕ}

/-- What a snapshot sees of a version: the row and where it is. -/
def Version.image (v : Version ρ) : ρ × ℕ := (v.row, v.block)

/-- What a snapshot sees of a heap. -/
def Heap.seen (h : Heap ρ) (snap : ℕ) : List (ρ × ℕ) :=
  (h.versions.filter fun v => v.visible snap).map Version.image

theorem Heap.rowsIn_eq (h : Heap ρ) (snap lo hi : ℕ) :
    h.rowsIn snap lo hi =
      ((h.seen snap).filter fun p => decide (lo ≤ p.2 ∧ p.2 < hi)).map Prod.fst := by
  rw [rowsIn, seen, filter_map, filter_filter, map_map]
  congr 1
  refine filter_congr fun v _ => ?_
  rw [Version.inWindow_eq, Bool.and_comm]
  rfl

theorem Heap.rows_eq (h : Heap ρ) (snap : ℕ) : h.rows snap = (h.seen snap).map Prod.fst := by
  rw [rows, seen, map_map]
  rfl

theorem Version.visible_ended (h : snap < commit) (v : Version ρ) :
    (v.ended commit).visible snap = v.visible snap := by
  unfold ended
  cases hd : v.deleted with
  | none => simp [visible, hd, h]
  | some d => simp [visible, hd]

theorem Version.image_ended (commit : ℕ) (v : Version ρ) : (v.ended commit).image = v.image := by
  unfold ended
  split_ifs <;> rfl

theorem Heap.seen_insert (hlt : snap < commit) (h : Heap ρ) (row : ρ) (block offset xid : ℕ) :
    (h.insert row block offset xid commit).seen snap = h.seen snap := by
  have hnot : (⟨row, block, offset, xid, commit, none⟩ : Version ρ).visible snap = false := by
    simp [Version.visible, hlt]
  simp [seen, insert, filter_append, hnot]

theorem Heap.seen_delete (hlt : snap < commit) (h : Heap ρ) (i : ℕ) :
    (h.delete i commit).seen snap = h.seen snap := by
  unfold seen delete
  dsimp only
  induction h.versions generalizing i with
  | nil => simp
  | cons v vs ih =>
    cases i with
    | zero =>
      rw [modify_zero_cons, filter_cons, filter_cons, Version.visible_ended hlt]
      split_ifs
      · rw [map_cons, map_cons, Version.image_ended]
      · rfl
    | succ i =>
      rw [modify_succ_cons, filter_cons, filter_cons]
      split_ifs
      · rw [map_cons, map_cons, ih]
      · exact ih i

/-! ### What others do to a heap -/

variable {v' : Version ρ}

/-- The blocks of a relation that a statement writes to. -/
def Write.blocks (relation : String) : Write ρ → List ℕ
  | .insert r _ block _ => if r = relation then [block] else []
  | .delete _ _ => []
  | .update r _ _ block _ => if r = relation then [block] else []

/-- A heap after statements of one transaction that write to some blocks. -/
inductive Heap.Written (xid commit : ℕ) (blocks : List ℕ) (h : Heap ρ) : Heap ρ → Prop
  | refl : Heap.Written xid commit blocks h h
  | delete {h' : Heap ρ} (i : ℕ) (hw : Heap.Written xid commit blocks h h') :
    Heap.Written xid commit blocks h (h'.delete i commit)
  | insert {h' : Heap ρ} (row : ρ) {block : ℕ} (offset : ℕ)
    (hw : Heap.Written xid commit blocks h h') (hblock : block ∈ blocks) :
    Heap.Written xid commit blocks h (h'.insert row block offset xid commit)

section

variable {xid commit : ℕ} {blocks : List ℕ} {h h' : Heap ρ}

section

variable (hw : h.Written xid commit blocks h')
include hw

theorem Heap.Written.mono {blocks' : List ℕ} (hsub : blocks ⊆ blocks') :
    h.Written xid commit blocks' h' := by
  induction hw with
  | refl => exact .refl
  | delete i _ ih => exact .delete i ih
  | insert row offset _ hblock ih => exact .insert row offset ih (hsub hblock)

theorem Heap.Written.trans {h'' : Heap ρ} (hw' : h'.Written xid commit blocks h'') :
    h.Written xid commit blocks h'' := by
  induction hw' with
  | refl => exact hw
  | delete i _ ih => exact .delete i ih
  | insert row offset _ hblock ih => exact .insert row offset ih hblock

theorem Heap.Written.seen (hlt : snap < commit) :
    h'.seen snap = h.seen snap := by
  induction hw with
  | refl => rfl
  | delete i _ ih => rw [seen_delete hlt, ih]
  | insert row offset _ _ ih => rw [seen_insert hlt, ih]

theorem Heap.Written.filenode :
    h'.filenode = h.filenode := by
  induction hw with
  | refl => rfl
  | delete i _ ih => exact ih
  | insert row offset _ _ ih => exact ih

end

/-- A version that was there, perhaps ended by a commit. -/
def Version.Ages (commit : ℕ) (v v' : Version ρ) : Prop := v' = v ∨ v' = v.ended commit

theorem Version.ended_ended (commit : ℕ) (v : Version ρ) :
    (v.ended commit).ended commit = v.ended commit := by
  unfold ended
  cases hd : v.deleted with
  | none => simp
  | some d => simp [hd]

variable {v : Version ρ}

theorem Version.Ages.ended (hages : v.Ages commit v') : v.Ages commit (v'.ended commit) := by
  rcases hages with rfl | rfl
  · exact .inr rfl
  · exact .inr (ended_ended commit v)

theorem Version.Ages.fields (hages : v.Ages commit v') :
    v'.row = v.row ∧ v'.block = v.block ∧ v'.xmin = v.xmin ∧ v'.created = v.created := by
  rcases hages with rfl | rfl
  · exact ⟨rfl, rfl, rfl, rfl⟩
  · unfold Version.ended
    split_ifs <;> exact ⟨rfl, rfl, rfl, rfl⟩

/-- What ages can only disappear. -/
theorem Version.Ages.visible {commits : ℕ} (hages : v.Ages (commits + 1) v')
    (hpast : v.created ≤ commits) (hvisible : v'.visible (commits + 1) = true) :
    v.visible commits = true := by
  have hdeleted : v.visible (commits + 1) = true → v.visible commits = true := by
    intro hw
    unfold Version.visible at hw ⊢
    cases hd : v.deleted with
    | none => simp [hpast]
    | some d =>
      simp only [hd, Option.all_some, Bool.and_eq_true, decide_eq_true_eq] at hw ⊢
      exact ⟨hpast, by omega⟩
  rcases hages with rfl | rfl
  · exact hdeleted hvisible
  unfold Version.ended at hvisible
  split_ifs at hvisible with hd
  · simp [Version.visible] at hvisible
  · exact hdeleted hvisible

theorem Heap.mem_delete {i : ℕ} (hv : v' ∈ (h.delete i commit).versions) :
    ∃ v ∈ h.versions, v.Ages commit v' := by
  obtain ⟨j, hj⟩ := mem_iff_getElem?.mp hv
  rw [delete, getElem?_modify] at hj
  cases hu : h.versions[j]? with
  | none => simp [hu] at hj
  | some u =>
    refine ⟨u, mem_of_getElem? hu, ?_⟩
    by_cases hij : i = j
    · simp only [hu, hij, if_true] at hj
      exact .inr (Option.some.inj hj).symm
    · simp only [hu, hij, if_false] at hj
      exact .inl (Option.some.inj hj).symm

theorem Heap.Written.mem (hw : h.Written xid commit blocks h') (hv : v' ∈ h'.versions) :
    (∃ v ∈ h.versions, v.Ages commit v') ∨
      (v'.xmin = xid ∧ v'.created = commit ∧ v'.block ∈ blocks) := by
  induction hw generalizing v' with
  | refl => exact .inl ⟨v', hv, .inl rfl⟩
  | delete i _ ih =>
    obtain ⟨u, hu, hages⟩ := mem_delete hv
    rcases ih hu with ⟨v, hv, hages'⟩ | ⟨hxid, hcreated, hblock⟩
    · refine .inl ⟨v, hv, ?_⟩
      rcases hages with rfl | rfl
      · exact hages'
      · exact hages'.ended
    · obtain ⟨-, hb, hx, hc⟩ := hages.fields
      exact .inr ⟨hx.trans hxid, hc.trans hcreated, hb ▸ hblock⟩
  | insert row offset _ hblock ih =>
    rcases mem_concat.1 hv with hv | rfl
    · exact ih hv
    · exact .inr ⟨rfl, rfl, hblock⟩

end

namespace Database

theorem heap_setHeap (db : Database ρ) (relation r : String) (h : Heap ρ) :
    (db.setHeap relation h).heap r = if r = relation then h else db.heap r := rfl

theorem write_fields (xid : ℕ) (db : Database ρ) (w : Write ρ) :
    (write xid db w).commits = db.commits ∧ (write xid db w).nextXid = db.nextXid := by
  cases w with
  | insert relation row block offset | delete relation i => exact ⟨rfl, rfl⟩
  | update relation i row block offset =>
    rw [write]
    cases (db.heap relation).current i <;> exact ⟨rfl, rfl⟩

theorem write_written (xid : ℕ) (db : Database ρ) (w : Write ρ) (r : String) :
    (db.heap r).Written xid (db.commits + 1) (w.blocks r) ((write xid db w).heap r) := by
  cases w with
  | insert relation row block offset =>
    rw [write, heap_setHeap]
    split_ifs with hr
    · rw [hr]
      exact .insert row offset .refl (by simp [Write.blocks])
    · exact .refl
  | delete relation i =>
    rw [write, heap_setHeap]
    split_ifs with hr
    · rw [hr]
      exact .delete i .refl
    · exact .refl
  | update relation i row block offset =>
    rw [write]
    cases (db.heap relation).current i with
    | none => exact .refl
    | some v =>
      rw [heap_setHeap]
      split_ifs with hr
      · rw [hr]
        exact .insert row offset (.delete i .refl) (by simp [Write.blocks])
      · exact .refl

theorem writes_fields (xid : ℕ) (ws : List (Write ρ)) (db : Database ρ) :
    (ws.foldl (write xid) db).nextXid = db.nextXid := by
  induction ws generalizing db with
  | nil => rfl
  | cons w ws ih => rw [foldl_cons, ih, (write_fields xid db w).2]

theorem writes_written (xid : ℕ) (ws : List (Write ρ)) (db : Database ρ) (r : String) :
    (db.heap r).Written xid (db.commits + 1) (ws.flatMap (Write.blocks r))
      ((ws.foldl (write xid) db).heap r) := by
  induction ws generalizing db with
  | nil => exact .refl
  | cons w ws ih =>
    have hfirst := (write_written xid db w r).mono
      (subset_append_left (w.blocks r) (ws.flatMap (Write.blocks r)))
    have hrest := (ih (write xid db w)).mono
      (subset_append_right (w.blocks r) (ws.flatMap (Write.blocks r)))
    rw [(write_fields xid db w).1] at hrest
    exact hfirst.trans hrest

/-- **What a change by others does to a heap**: the statements of a transaction that commits, or
nothing to its versions. -/
theorem apply_heap (db : Database ρ) (c : Change ρ) (r : String) :
    (∃ xid writes, c = .commit xid writes ∧ xid ∈ db.running ∧
      (db.apply c).commits = db.commits + 1 ∧
      (db.heap r).Written xid (db.commits + 1) (writes.flatMap (Write.blocks r))
        ((db.apply c).heap r)) ∨
      ((db.apply c).commits = db.commits ∧
        ((db.apply c).heap r).versions = (db.heap r).versions ∧
        ((db.apply c).heap r).filenode = (db.heap r).filenode) := by
  cases c with
  | begin => exact .inr ⟨rfl, rfl, rfl⟩
  | commit xid writes =>
    rw [apply]
    split_ifs with hrunning
    · exact .inl ⟨xid, writes, rfl, hrunning, rfl, writes_written xid writes db r⟩
    · exact .inr ⟨rfl, rfl, rfl⟩
  | abort xid => exact .inr ⟨rfl, rfl, rfl⟩
  | extend relation pages | freeze relation xid =>
    refine .inr ⟨rfl, ?_⟩
    rw [apply, heap_setHeap]
    split_ifs with hr
    · rw [hr]
      exact ⟨rfl, rfl⟩
    · exact ⟨rfl, rfl⟩

theorem apply_commits_le (db : Database ρ) (c : Change ρ) :
    db.commits ≤ (db.apply c).commits := by
  rcases db.apply_heap c "" with ⟨_, _, -, -, hcommits, -⟩ | ⟨hcommits, -⟩
  · rw [hcommits]
    exact Nat.le_succ _
  · exact hcommits.ge

variable {db : Database ρ} {r : String}

/-- **What a snapshot sees does not change**, whatever others do. -/
theorem apply_seen (hsnap : snap ≤ db.commits) (c : Change ρ) (r : String) :
    ((db.apply c).heap r).seen snap = (db.heap r).seen snap := by
  rcases db.apply_heap c r with ⟨_, _, -, -, -, hwritten⟩ | ⟨-, hversions, -⟩
  · exact hwritten.seen (Nat.lt_succ_of_le hsnap)
  · rw [Heap.seen, hversions]
    rfl

theorem apply_rowsIn (hsnap : snap ≤ db.commits) (c : Change ρ) (r : String) (lo hi : ℕ) :
    ((db.apply c).heap r).rowsIn snap lo hi = (db.heap r).rowsIn snap lo hi := by
  rw [Heap.rowsIn_eq, Heap.rowsIn_eq, apply_seen hsnap]

theorem apply_filenode (db : Database ρ) (c : Change ρ) (r : String) :
    ((db.apply c).heap r).filenode = (db.heap r).filenode := by
  rcases db.apply_heap c r with ⟨_, _, -, -, -, hwritten⟩ | ⟨-, -, hfilenode⟩
  · exact hwritten.filenode
  · exact hfilenode

variable (db r) in
/-- Every version of a relation appeared with a commit that has been. -/
def Past : Prop :=
  ∀ v ∈ (db.heap r).versions, v.created ≤ db.commits

theorem past_apply (hpast : db.Past r) (c : Change ρ) : (db.apply c).Past r := by
  intro v hv
  rcases db.apply_heap c r with ⟨_, _, -, -, hcommits, hwritten⟩ | ⟨hcommits, hversions, -⟩
  · rw [hcommits]
    rcases hwritten.mem hv with ⟨u, hu, hages⟩ | ⟨-, hcreated, -⟩
    · rw [hages.fields.2.2.2]
      exact (hpast u hu).trans (Nat.le_succ _)
    · exact hcreated.le
  · rw [hcommits]
    exact hpast v (hversions ▸ hv)

/-- **A version that is current after a change by others was current before it**, or it was written
by a transaction that was running and that the change commits. -/
theorem current_of_apply (hpast : db.Past r) {c : Change ρ}
    (hmem : v' ∈ ((db.apply c).heap r).versions) (hvisible : v'.visible (db.apply c).commits = true) :
    (∃ v ∈ (db.heap r).versions, v.visible db.commits = true ∧ v'.row = v.row ∧
      v'.block = v.block ∧ v'.xmin = v.xmin) ∨
      ∃ xid writes, c = .commit xid writes ∧ xid ∈ db.running ∧ v'.xmin = xid ∧
        v'.block ∈ writes.flatMap (Write.blocks r) := by
  rcases db.apply_heap c r with ⟨xid, writes, hc, hrunning, hcommits, hwritten⟩ |
    ⟨hcommits, hversions, -⟩
  · rw [hcommits] at hvisible
    rcases hwritten.mem hmem with ⟨v, hv, hages⟩ | ⟨hxid, -, hblock⟩
    · obtain ⟨hrow, hb, hx, -⟩ := hages.fields
      exact .inl ⟨v, hv, hages.visible (hpast v hv) hvisible, hrow, hb, hx⟩
    · exact .inr ⟨xid, writes, hc, hrunning, hxid, hblock⟩
  · rw [hcommits] at hvisible
    exact .inl ⟨v', hversions ▸ hmem, hvisible, rfl, rfl, rfl⟩

/-- Every transaction before `xid` has ended. -/
structure Ended (db : Database ρ) (xid : ℕ) : Prop where
  running : ∀ x ∈ db.running, xid ≤ x
  next : xid ≤ db.nextXid

theorem ended_snapshotXmin (db : Database ρ) : db.Ended db.snapshotXmin := by
  have hfold : ∀ (l : List ℕ) (n : ℕ), l.foldl min n ≤ n ∧ ∀ x ∈ l, l.foldl min n ≤ x := by
    intro l
    induction l with
    | nil => exact fun n => ⟨le_rfl, nofun⟩
    | cons a l ih =>
      intro n
      obtain ⟨hn, hl⟩ := ih (min n a)
      refine ⟨hn.trans (min_le_left ..), fun x hx => ?_⟩
      rcases mem_cons.1 hx with rfl | hx
      · exact hn.trans (min_le_right ..)
      · exact hl x hx
  exact ⟨(hfold db.running db.nextXid).2, (hfold db.running db.nextXid).1⟩

theorem Ended.apply {xid : ℕ} (h : db.Ended xid) (c : Change ρ) : (db.apply c).Ended xid := by
  cases c with
  | begin =>
    refine ⟨fun x hx => ?_, h.next.trans (Nat.le_succ _)⟩
    rcases mem_cons.1 hx with rfl | hx
    · exact h.next
    · exact h.running x hx
  | commit xid' writes =>
    rw [Database.apply]
    split_ifs
    · refine ⟨fun x hx => h.running x (mem_of_mem_erase hx), ?_⟩
      rw [writes_fields]
      exact h.next
    · exact h
  | abort xid' => exact ⟨fun x hx => h.running x (mem_of_mem_erase hx), h.next⟩
  | extend relation pages | freeze relation xid' => exact ⟨h.running, h.next⟩

end Database

end Filament.Postgres.Mvcc
