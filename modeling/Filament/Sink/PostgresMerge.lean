import Mathlib.Algebra.GroupWithZero.Nat
import Mathlib.Data.List.TakeWhile
import Filament.Lib.Except
import Filament.Lib.Replay
import Filament.RowModel

/-!
# The merge of the Postgres sink

A batch is cut into maximal runs of deletes and of other rows.  Each run is loaded into a temporary
table of the connection and folded into the destination by one statement: an upsert of the last row of
each key, or a delete of every key.  The temporary tables are made when they are not there, under
names that PostgreSQL cuts to 63 bytes.

* `distinctOn`, `insertOnConflict`, `deleteUsing`: the statements;
* `tempTable`, `copyFrom`: the temporary tables of a connection;
* `upsertRange`, `deleteRange`, `mergeInTransaction`: the sink;
* `Fits`: the temporary tables of a connection that the sink can use for a table;
* `merge_sequential_and_replayable`: then the batches are applied row by row, also when they are
  replayed.
-/

namespace Filament.PostgresSink

open Replay List Function Except

variable {κ V : Type} [DecidableEq κ] {n : ℕ}

/-- A row of a batch: its key, and the values of its `n` other columns. -/
structure Row (κ V : Type) (n : ℕ) where
  op : Operation
  key : κ
  values : Fin n → V

/-- What the row does to a table, on its own. -/
def Row.write (r : Row κ V n) : Write κ (Fin n → V) :=
  if r.op = .opDelete then .del r.key else .put r.key r.values

/-! ### Statements -/

/-- `SELECT DISTINCT ON (key) … ORDER BY key, _ord DESC`: of each key, the row with the largest
`_ord`.  The order of the keys does not matter to the insert. -/
def distinctOn (temp : List (Row κ V n × ℕ)) : List (Row κ V n) :=
  (temp.filter fun a => temp.all fun b => b.1.key ≠ a.1.key ∨ b.2 ≤ a.2).map Prod.fst

variable (t : Table κ (Fin n → V)) (r : Row κ V n)

/-- One row of `INSERT … ON CONFLICT (key)`: `DO UPDATE SET` the other columns, or `DO NOTHING` when
there are none. -/
def insertRow : Table κ (Fin n → V) :=
  match t r.key with
  | none => Function.update t r.key (some r.values)
  | some _ => if n = 0 then t else Function.update t r.key (some r.values)

/-- `INSERT … ON CONFLICT (key)`; an update may not meet a row twice. -/
def insertOnConflict (rows : List (Row κ V n)) : Except String (Table κ (Fin n → V)) :=
  if n = 0 ∨ (rows.map Row.key).Nodup then .ok (rows.foldl insertRow t)
  else .error "ON CONFLICT DO UPDATE command cannot affect row a second time"

/-- `DELETE … USING` the keys. -/
def deleteUsing (keys : List κ) : Table κ (Fin n → V) :=
  fun k => if k ∈ keys then none else t k

/-! ### Temporary tables -/

/-- A column, with its type. -/
structure Column where
  name : String
  type : String
  deriving DecidableEq

/-- The sink's `table`. -/
structure SinkTable where
  resource : String
  columns : List Column
  keys : List Column
  keys_subset : keys ⊆ columns

namespace SinkTable

def temp (tbl : SinkTable) : String := "_filament_" ++ tbl.resource

def keysTemp (tbl : SinkTable) : String := "_filament_" ++ tbl.resource ++ "_keys"

/-- The columns of `temp`: those of the table, and the place of the row in its run. -/
def ordered (tbl : SinkTable) : List Column := tbl.columns ++ [⟨"_ord", "integer"⟩]

end SinkTable

/-- The characters of an identifier that fit into so many bytes. -/
def clip : ℕ → List Char → List Char
  | _, [] => []
  | n, c :: cs => if c.utf8Size ≤ n then c :: clip (n - c.utf8Size) cs else []

/-- PostgreSQL cuts an identifier to 63 bytes. -/
def identifier (name : String) : List Char := clip 63 name.toList

/-- The temporary tables of a connection, and their columns. -/
abbrev Session := List Char → Option (List Column)

/-- `tempTableSQL`: `CREATE TEMP TABLE IF NOT EXISTS name (cols); TRUNCATE name`. -/
def tempTable (s : Session) (name : String) (cols : List Column) : Except String Session :=
  match s (identifier name) with
  | some _ => .ok s
  | none =>
    if (cols.map Column.name).Nodup then .ok (Function.update s (identifier name) (some cols))
    else .error "column specified more than once"

/-- `COPY name (cols) FROM STDIN` into a table that was emptied, and what is there afterwards.  The
rows are kept by columns of their types; `recast` is what PostgreSQL makes of them in other types. -/
def copyFrom (recast : List Column → List (Row κ V n) → Except String (List (Row κ V n)))
    (s : Session) (name : String) (cols : List Column) (rows : List (Row κ V n)) :
    Except String (List (Row κ V n)) :=
  let present := (s (identifier name)).getD []
  if cols ⊆ present then .ok rows
  else if cols.map Column.name ⊆ present.map Column.name then recast present rows
  else .error "column of relation does not exist"

/-! ### The sink -/

section Sink

variable (recast : List Column → List (Row κ V n) → Except String (List (Row κ V n)))
  (tbl : SinkTable)

/-- A batch: the names of its columns, its rows, and the temporary tables of the connection that it
is applied on. -/
structure Batch (κ V : Type) (n : ℕ) where
  seq : ℕ
  fields : List String
  rows : List (Row κ V n)
  session : Session

/-- Marks the error of a statement with what it was about. -/
def copyError {α : Type} (what : String) (seq : ℕ) : Except String α → Except String α :=
  Except.mapError fun cause => s!"postgres sink: {what} {tbl.resource} seq {seq}: {cause}"

/-- `copierFor`: the batch has the columns of the table. -/
def copierFor (fields : List String) : Except String Unit := do
  require (fields.length = tbl.columns.length)
    s!"postgres sink: batch schema has {fields.length} columns but ensured COPY schema has {tbl.columns.length}"
  require (fields = tbl.columns.map Column.name)
    "postgres sink: batch column differs from ensured COPY column"

variable (b : Batch κ V n) (s : Session) (t : Table κ (Fin n → V)) (run : List (Row κ V n))

def upsertRange : Except String (Session × Table κ (Fin n → V)) := do
  let s ← copyError tbl "temp table" b.seq (tempTable s tbl.temp tbl.ordered)
  copierFor tbl b.fields
  let loaded ← copyError tbl "copy" b.seq (copyFrom recast s tbl.temp tbl.ordered run)
  let t ← copyError tbl "upsert" b.seq (insertOnConflict t (distinctOn loaded.zipIdx))
  return (s, t)

def deleteRange : Except String (Session × Table κ (Fin n → V)) := do
  let s ← copyError tbl "keys temp table" b.seq (tempTable s tbl.keysTemp tbl.keys)
  copierFor tbl b.fields
  let loaded ← copyError tbl "copy keys" b.seq (copyFrom recast s tbl.keysTemp tbl.keys run)
  return (s, deleteUsing t (loaded.map Row.key))

/-- Both rows are deletes, or neither is. -/
def alike (r r' : Row κ V n) : Bool := (r.op = .opDelete) = (r'.op = .opDelete)

/-- One maximal run, which starts with `r`. -/
def mergeRun (r : Row κ V n) : Except String (Session × Table κ (Fin n → V)) :=
  if r.op = .opDelete then deleteRange recast tbl b s t run else upsertRange recast tbl b s t run

/-- The loop of `mergeInTransaction`. -/
def mergeRuns (s : Session) (t : Table κ (Fin n → V)) :
    List (Row κ V n) → Except String (Session × Table κ (Fin n → V))
  | [] => .ok (s, t)
  | r :: rest => do
    let (s, t) ← mergeRun recast tbl b s t (r :: rest.takeWhile (alike r)) r
    mergeRuns s t (rest.dropWhile (alike r))
termination_by rows => rows.length
decreasing_by
  have := (List.dropWhile_sublist (l := rest) (alike r)).length_le
  simp only [List.length_cons]
  omega

/-- `mergeInTransaction`, and the table it leaves.  A failed one is rolled back. -/
def mergeInTransaction (b : Batch κ V n) : Except String (Table κ (Fin n → V)) := do
  require (tbl.keys ≠ []) s!"postgres sink: merge on keyless resource {tbl.resource}"
  let (_, t) ← mergeRuns recast tbl b b.session t b.rows
  return t

/-- The batches in order. -/
def applyBatches (batches : List (Batch κ V n)) : Except String (Table κ (Fin n → V)) :=
  batches.foldlM (mergeInTransaction recast tbl) t

end Sink

/-! ### Connections -/

section Fits

variable {α : Type} (f : Column → α) (s : Session) (tbl : SinkTable)

/-- The temporary table can be made, or it is there with the columns, as far as `f` sees them. -/
def Usable (name : String) (cols : List Column) : Prop :=
  match s (identifier name) with
  | none => (cols.map Column.name).Nodup
  | some present => cols.map f ⊆ present.map f

/-- The temporary tables of the connection serve the table. -/
structure Fits : Prop where
  temp : Usable f s tbl.temp tbl.ordered
  keysTemp : Usable f s tbl.keysTemp tbl.keys
  /-- Under one name for both, only `temp` serves as both. -/
  apart : identifier tbl.temp = identifier tbl.keysTemp → s (identifier tbl.temp) ≠ none

end Fits

/-! ### One run -/

variable {t : Table κ (Fin n → V)} {rows run vs : List (Row κ V n)} {r : Row κ V n}

theorem insertRow_eq (t : Table κ (Fin n → V)) (r : Row κ V n) :
    insertRow t r = Replay.write t (.put r.key r.values) := by
  unfold insertRow
  split
  · rfl
  · next old hold =>
    split_ifs with hn
    · subst hn
      have hsame : t r.key = some r.values := hold.trans (congrArg some (Subsingleton.elim ..))
      exact (update_eq_self_iff.2 hsame.symm).symm
    · rfl

theorem insertOnConflict_eq (h : (rows.map Row.key).Nodup) :
    insertOnConflict t rows = .ok (replay t (rows.map fun r => .put r.key r.values)) := by
  rw [insertOnConflict, if_pos (.inr h), replay, foldl_map]
  exact congrArg Except.ok (congrArg (foldl · t rows) (funext₂ insertRow_eq))

theorem mem_distinctOn (us : List (Row κ V n)) (h : ∀ b ∈ vs, b.key ≠ r.key) :
    r ∈ distinctOn (us ++ r :: vs).zipIdx := by
  rw [zipIdx_append, zipIdx_cons]
  refine mem_map.2 ⟨(r, 0 + us.length), mem_filter.2 ⟨by simp, ?_⟩, rfl⟩
  simp only [all_append, all_cons, Bool.and_eq_true, all_eq_true, decide_eq_true_eq]
  refine ⟨fun b hb => .inr ?_, .inr le_rfl, fun b hb => .inl (h b.1 (fst_mem_of_mem_zipIdx hb))⟩
  exact (snd_lt_of_mem_zipIdx hb).le.trans (by omega)

theorem mem_of_mem_distinctOn (h : r ∈ distinctOn run.zipIdx) : r ∈ run := by
  obtain ⟨a, ha, rfl⟩ := mem_map.1 h
  exact fst_mem_of_mem_zipIdx (mem_of_mem_filter ha)

/-- No two selected rows have the same key: each would have the larger `_ord`. -/
theorem nodup_distinctOn (run : List (Row κ V n)) : ((distinctOn run.zipIdx).map Row.key).Nodup := by
  have hord : run.zipIdx.Pairwise fun a b => a.2 < b.2 := by
    rw [← pairwise_map (f := Prod.snd), zipIdx_map_snd]
    exact pairwise_lt_range'
  rw [distinctOn, map_map, Nodup, pairwise_map]
  refine (hord.filter _).imp_of_mem fun {a b} ha hb hlt hkey => ?_
  have hmax := all_eq_true.1 (mem_filter.1 ha).2 b (mem_of_mem_filter hb)
  rw [decide_eq_true_eq] at hmax
  exact hmax.elim (· hkey.symm) (Nat.not_le.2 hlt)

theorem upsert_eq (t : Table κ (Fin n → V)) (run : List (Row κ V n)) :
    insertOnConflict t (distinctOn run.zipIdx) =
      .ok (replay t (run.map fun r => .put r.key r.values)) := by
  rw [insertOnConflict_eq (nodup_distinctOn run)]
  refine congrArg Except.ok (funext fun k => ?_)
  by_cases hk : k ∈ run.map Row.key
  · obtain ⟨us, r, vs, rfl, rfl, hlast⟩ := exists_last_of_mem_map hk
    have hsel := mem_map_of_mem (f := fun r => Write.put r.key r.values) (mem_distinctOn us hlast)
    have hnodup := nodup_distinctOn (us ++ r :: vs)
    calc replay t ((distinctOn (us ++ r :: vs).zipIdx).map fun r => .put r.key r.values) r.key
        = some r.values := replay_of_nodup t (by simpa [comp_def] using hnodup) hsel
      _ = replay t ((us ++ r :: vs).map fun r => .put r.key r.values) r.key := by
        rw [map_append, map_cons]
        exact (replay_of_last t _ (.put r.key r.values) (by simpa using hlast)).symm
  · have hnot : ∀ {l : List (Row κ V n)}, (∀ r ∈ l, r ∈ run) →
        replay t (l.map fun r => .put r.key r.values) k = t k := by
      intro l hl
      refine replay_of_not_mem (fun w hw hkey => ?_) t
      obtain ⟨r, hr, rfl⟩ := mem_map.1 hw
      exact hk (hkey ▸ mem_map_of_mem (hl r hr))
    rw [hnot fun r hr => mem_of_mem_distinctOn hr, hnot fun r hr => hr]

theorem deleteUsing_eq (t : Table κ (Fin n → V)) (run : List (Row κ V n)) :
    deleteUsing t (run.map Row.key) = replay t (run.map fun r => .del r.key) := by
  funext k
  unfold deleteUsing
  split_ifs with hk
  · obtain ⟨us, r, vs, rfl, rfl, hlast⟩ := exists_last_of_mem_map hk
    rw [map_append, map_cons]
    exact (replay_of_last t _ (.del r.key) (by simpa using hlast)).symm
  · refine (replay_of_not_mem (fun w hw hkey => ?_) t).symm
    obtain ⟨r, hr, rfl⟩ := mem_map.1 hw
    exact hk (hkey ▸ mem_map_of_mem hr)

/-! ### Batches -/

section Batches

variable (recast : List Column → List (Row κ V n) → Except String (List (Row κ V n)))
  {tbl : SinkTable} {b : Batch κ V n} {s : Session} {name : String} {cols : List Column}

omit [DecidableEq κ] in
theorem tempTable_usable (h : Usable id s name cols) : ∃ s', tempTable s name cols = .ok s' ∧
    (∀ rows, copyFrom recast s' name cols rows = .ok rows) ∧
      (s' = s ∨ s (identifier name) = none ∧ s' = Function.update s (identifier name) (some cols)) := by
  unfold Usable at h
  unfold tempTable
  cases hs : s (identifier name) with
  | none =>
    simp only [hs] at h
    exact ⟨_, if_pos h, fun rows => by simp [copyFrom], .inr ⟨rfl, rfl⟩⟩
  | some present =>
    simp only [hs, List.map_id] at h
    exact ⟨s, rfl, fun rows => by simp [copyFrom, hs, h], .inl rfl⟩

/-- A temporary table that was made for the table serves it from then on. -/
theorem Fits.update_temp (h : Fits id s tbl) (hs : s (identifier tbl.temp) = none) :
    Fits id (Function.update s (identifier tbl.temp) (some tbl.ordered)) tbl := by
  have hne : identifier tbl.keysTemp ≠ identifier tbl.temp := fun heq => h.apart heq.symm hs
  refine ⟨by simp [Usable], ?_, fun heq => absurd heq.symm hne⟩
  simpa [Usable, update_of_ne hne] using h.keysTemp

theorem Fits.update_keysTemp (h : Fits id s tbl) (hs : s (identifier tbl.keysTemp) = none) :
    Fits id (Function.update s (identifier tbl.keysTemp) (some tbl.keys)) tbl := by
  have hne : identifier tbl.temp ≠ identifier tbl.keysTemp := fun heq => h.apart heq (heq ▸ hs)
  refine ⟨?_, by simp [Usable], fun heq => absurd heq hne⟩
  simpa [Usable, update_of_ne hne] using h.temp

omit [DecidableEq κ] in
theorem copierFor_eq (h : b.fields = tbl.columns.map Column.name) : copierFor tbl b.fields = .ok () := by
  simp [copierFor, h, require]

@[simp] theorem copyError_ok {α : Type} (what : String) (seq : ℕ) (a : α) :
    copyError tbl what seq (.ok a) = .ok a := rfl

theorem mergeRun_eq (hfits : Fits id s tbl) (hfields : b.fields = tbl.columns.map Column.name)
    (h : ∀ x ∈ run, (x.op = .opDelete ↔ r.op = .opDelete)) (t : Table κ (Fin n → V)) :
    ∃ s', Fits id s' tbl ∧
      mergeRun recast tbl b s t run r = .ok (s', replay t (run.map Row.write)) := by
  unfold mergeRun
  split_ifs with hdel
  · obtain ⟨s', htemp, hcopy, hs'⟩ := tempTable_usable recast hfits.keysTemp
    refine ⟨s', ?_, ?_⟩
    · rcases hs' with rfl | ⟨hnone, rfl⟩
      · exact hfits
      · exact hfits.update_keysTemp hnone
    · have hwrite : run.map Row.write = run.map fun r => .del r.key :=
        map_congr_left fun x hx => if_pos ((h x hx).2 hdel)
      simp [deleteRange, htemp, copierFor_eq hfields, hcopy, deleteUsing_eq, hwrite]
  · obtain ⟨s', htemp, hcopy, hs'⟩ := tempTable_usable recast hfits.temp
    refine ⟨s', ?_, ?_⟩
    · rcases hs' with rfl | ⟨hnone, rfl⟩
      · exact hfits
      · exact hfits.update_temp hnone
    · have hwrite : run.map Row.write = run.map fun r => .put r.key r.values :=
        map_congr_left fun x hx => if_neg (hdel ∘ (h x hx).1)
      simp [upsertRange, htemp, copierFor_eq hfields, hcopy, upsert_eq, hwrite]

/-- On a connection that serves the table, a batch is applied row by row. -/
theorem mergeRuns_eq (hfields : b.fields = tbl.columns.map Column.name) (hfits : Fits id s tbl)
    (t : Table κ (Fin n → V)) (rows : List (Row κ V n)) :
    ∃ s', mergeRuns recast tbl b s t rows = .ok (s', replay t (rows.map Row.write)) := by
  induction hlen : rows.length using Nat.strong_induction_on generalizing s t rows with
  | _ len ih =>
    cases rows with
    | nil => exact ⟨s, by rw [mergeRuns]; rfl⟩
    | cons r rest =>
      have halike : ∀ x ∈ r :: rest.takeWhile (alike r), (x.op = .opDelete ↔ r.op = .opDelete) := by
        intro x hx
        rcases mem_cons.1 hx with rfl | hx
        · exact Iff.rfl
        · simpa [alike, iff_comm] using mem_takeWhile_imp hx
      have hsplit : r :: rest = r :: rest.takeWhile (alike r) ++ rest.dropWhile (alike r) := by
        rw [cons_append, takeWhile_append_dropWhile]
      have hless : (rest.dropWhile (alike r)).length < len := by
        have hle := (dropWhile_sublist (l := rest) (alike r)).length_le
        simp only [length_cons] at hlen
        omega
      obtain ⟨s', hfits', hrun⟩ := mergeRun_eq recast hfits hfields halike t
      obtain ⟨s'', hrest⟩ := ih _ hless hfits' (replay t _) _ rfl
      refine ⟨s'', ?_⟩
      rw [mergeRuns, hrun, ok_bind]
      conv_rhs => rw [hsplit, map_append, replay_append]
      exact hrest

variable (tbl b) in
/-- The batch has the columns of the table, and its connection serves the table. -/
def Ready : Prop :=
  b.fields = tbl.columns.map Column.name ∧ Fits id b.session tbl

theorem mergeInTransaction_eq (hkeys : tbl.keys ≠ []) (hb : Ready tbl b) (t : Table κ (Fin n → V)) :
    mergeInTransaction recast tbl t b = .ok (replay t (b.rows.map Row.write)) := by
  obtain ⟨s', hruns⟩ := mergeRuns_eq recast hb.1 hb.2 t b.rows
  simp [mergeInTransaction, require, hkeys, hruns]

theorem applyBatches_eq (hkeys : tbl.keys ≠ []) (t : Table κ (Fin n → V))
    {batches : List (Batch κ V n)} (h : ∀ b ∈ batches, Ready tbl b) :
    applyBatches recast tbl t batches =
      .ok (replay t ((batches.flatMap Batch.rows).map Row.write)) := by
  induction batches generalizing t with
  | nil => rfl
  | cons b batches ih =>
    rw [applyBatches, foldlM_cons, mergeInTransaction_eq recast hkeys (h b mem_cons_self), flatMap_cons,
      map_append, replay_append]
    exact ih _ fun b' hb' => h b' (mem_cons_of_mem _ hb')

/-! ### Connections that do not serve the table -/

@[simp] theorem copyError_eq_ok {α : Type} {what : String} {seq : ℕ} {x : Except String α} {a : α} :
    copyError tbl what seq x = .ok a ↔ x = .ok a :=
  mapError_eq_ok

omit [DecidableEq κ] in
theorem usable_of_ok {s' : Session} {rows loaded : List (Row κ V n)}
    (htemp : tempTable s name cols = .ok s') (hcopy : copyFrom recast s' name cols rows = .ok loaded) :
    Usable Column.name s name cols := by
  unfold tempTable at htemp
  unfold Usable
  cases hs : s (identifier name) with
  | none =>
    simp only [hs] at htemp
    by_contra hdup
    simp [hdup] at htemp
  | some present =>
    obtain rfl : s = s' := by simpa [hs] using htemp
    simp only [copyFrom, hs, Option.getD_some] at hcopy
    split_ifs at hcopy with hsub hnames
    · exact map_subset _ hsub
    · exact hnames

theorem usable_of_upsertRange {s' : Session} {t' : Table κ (Fin n → V)}
    (h : upsertRange recast tbl b s t run = .ok (s', t')) :
    Usable Column.name s tbl.temp tbl.ordered ∧ tempTable s tbl.temp tbl.ordered = .ok s' := by
  simp only [upsertRange, bind_eq_ok, copyError_eq_ok] at h
  obtain ⟨s₁, htemp, -, -, loaded, hcopy, _, -, heq⟩ := h
  obtain ⟨rfl, -⟩ := Prod.mk.inj (pure_eq_ok_iff.1 heq)
  exact ⟨usable_of_ok recast htemp hcopy, htemp⟩

theorem usable_of_deleteRange {s' : Session} {t' : Table κ (Fin n → V)}
    (h : deleteRange recast tbl b s t run = .ok (s', t')) :
    Usable Column.name s tbl.keysTemp tbl.keys ∧ tempTable s tbl.keysTemp tbl.keys = .ok s' := by
  simp only [deleteRange, bind_eq_ok, copyError_eq_ok] at h
  obtain ⟨s₁, htemp, -, -, loaded, hcopy, heq⟩ := h
  obtain ⟨rfl, -⟩ := Prod.mk.inj (pure_eq_ok_iff.1 heq)
  exact ⟨usable_of_ok recast htemp hcopy, htemp⟩

/-- A connection that every batch can be applied on has the columns. -/
theorem fits_of_exact [Inhabited κ] [Inhabited V]
    (h : ∀ rows, ∃ t, mergeInTransaction recast tbl (fun _ => none)
      ⟨0, tbl.columns.map Column.name, rows, s⟩ = .ok t) :
    Fits Column.name s tbl := by
  have hruns : ∀ rows, ∃ s' t', mergeRuns recast tbl ⟨0, tbl.columns.map Column.name, rows, s⟩ s
      (fun _ => none) rows = .ok (s', t') := by
    intro rows
    obtain ⟨t, ht⟩ := h rows
    simp only [mergeInTransaction, bind_eq_ok] at ht
    obtain ⟨-, -, ⟨s', t'⟩, hruns, -⟩ := ht
    exact ⟨s', t', hruns⟩
  let put : Row κ V n := ⟨.opInsert, default, fun _ => default⟩
  let del : Row κ V n := ⟨.opDelete, default, fun _ => default⟩
  have htemp : Usable Column.name s tbl.temp tbl.ordered := by
    obtain ⟨s', t', hput⟩ := hruns [put]
    rw [mergeRuns, bind_eq_ok] at hput
    obtain ⟨⟨s₁, t₁⟩, hupsert, -⟩ := hput
    exact (usable_of_upsertRange recast hupsert).1
  obtain ⟨s', t', hdel⟩ := hruns [del, put]
  rw [mergeRuns, bind_eq_ok] at hdel
  obtain ⟨⟨s₁, t₁⟩, hdelete, hrest⟩ := hdel
  change mergeRuns recast tbl _ s₁ t₁ [put] = _ at hrest
  rw [mergeRuns, bind_eq_ok] at hrest
  obtain ⟨⟨s₂, t₂⟩, hupsert, -⟩ := hrest
  obtain ⟨hkeys, hmade⟩ := usable_of_deleteRange recast hdelete
  refine ⟨htemp, hkeys, fun heq hnone => ?_⟩
  -- The delete has made the table with the columns of the key, and the insert asks for `_ord` too.
  have hwanted := (usable_of_upsertRange recast hupsert).1
  rw [heq] at hnone
  simp only [tempTable, hnone] at hmade
  split_ifs at hmade with hnodup
  obtain rfl := Except.ok.inj hmade
  simp only [Usable, heq, update_self] at hwanted
  obtain ⟨key, hkey, hord⟩ := mem_map.1 (hwanted (mem_map_of_mem (mem_append_right _ mem_cons_self)))
  simp only [Usable, heq, hnone, SinkTable.ordered, map_append, nodup_append] at htemp
  exact htemp.2.2 key.name (mem_map_of_mem (tbl.keys_subset hkey)) "_ord" (by simp) hord

/-! ### Connections of a sink -/

/-- The table of the name was made for `d`, with the columns. -/
def SinkTable.Makes (d : SinkTable) (name : List Char) (cols : List Column) : Prop :=
  name = identifier d.temp ∧ cols = d.ordered ∨ name = identifier d.keysTemp ∧ cols = d.keys

/-- Every temporary table of the connection was made for one of the tables. -/
def MadeFor (tbls : List SinkTable) (s : Session) : Prop :=
  ∀ name present, s name = some present → ∃ d ∈ tbls, d.Makes name present

variable {tbls : List SinkTable} {d : SinkTable}

theorem madeFor_tempTable {s' : Session} (hd : d ∈ tbls) (hcols : d.Makes (identifier name) cols)
    (hs : tempTable s name cols = .ok s') (h : MadeFor tbls s) : MadeFor tbls s' := by
  unfold tempTable at hs
  split at hs
  · obtain rfl := Except.ok.inj hs
    exact h
  · split_ifs at hs
    obtain rfl := Except.ok.inj hs
    intro key present hkey
    by_cases hname : key = identifier name
    · rw [hname, update_self] at hkey
      obtain rfl := Option.some.inj hkey
      exact ⟨d, hd, hname ▸ hcols⟩
    · exact h key present (by rwa [update_of_ne hname] at hkey)

/-- A batch of one of the tables adds only tables that are made for it. -/
theorem madeFor_mergeRuns (hd : d ∈ tbls) {s s' : Session} {t t' : Table κ (Fin n → V)}
    (hrows : mergeRuns recast d b s t rows = .ok (s', t'))
    (h : MadeFor tbls s) : MadeFor tbls s' := by
  induction hlen : rows.length using Nat.strong_induction_on generalizing s t rows with
  | _ len ih =>
    cases rows with
    | nil =>
      rw [mergeRuns] at hrows
      obtain ⟨rfl, -⟩ := Prod.mk.inj (Except.ok.inj hrows)
      exact h
    | cons r rest =>
      have hless : (rest.dropWhile (alike r)).length < len := by
        have hle := (dropWhile_sublist (l := rest) (alike r)).length_le
        simp only [length_cons] at hlen
        omega
      rw [mergeRuns, bind_eq_ok] at hrows
      obtain ⟨⟨s₁, t₁⟩, hrun, hrest⟩ := hrows
      refine ih _ hless hrest ?_ rfl
      unfold mergeRun at hrun
      split_ifs at hrun
      · exact madeFor_tempTable hd (.inr ⟨rfl, rfl⟩) (usable_of_deleteRange recast hrun).2 h
      · exact madeFor_tempTable hd (.inl ⟨rfl, rfl⟩) (usable_of_upsertRange recast hrun).2 h

theorem clip_append {cs : List Char} {m : ℕ} (h : (cs.map Char.utf8Size).sum ≤ m) (ds : List Char) :
    clip m (cs ++ ds) = cs ++ clip (m - (cs.map Char.utf8Size).sum) ds := by
  induction cs generalizing m with
  | nil => rfl
  | cons c cs ih =>
    rw [map_cons, sum_cons] at h ⊢
    rw [cons_append, clip, if_pos (by omega), ih (by omega), cons_append, Nat.sub_sub]

/-- No other table shares the names of the temporary tables. -/
structure Alone (tbls : List SinkTable) (tbl : SinkTable) : Prop where
  columns : (tbl.columns.map Column.name).Nodup
  keys : (tbl.keys.map Column.name).Nodup
  ord : ∀ c ∈ tbl.columns, c.name ≠ "_ord"
  short : (tbl.resource.toList.map Char.utf8Size).sum < 53
  names : ∀ d ∈ tbls, ∀ cols, d.Makes (identifier tbl.temp) cols ∨ d.Makes (identifier tbl.keysTemp) cols →
    d = tbl

theorem Alone.identifier_ne (h : Alone tbls tbl) : identifier tbl.temp ≠ identifier tbl.keysTemp := by
  have hsize : (tbl.temp.toList.map Char.utf8Size).sum ≤ 62 := by
    have hlead : ("_filament_".toList.map Char.utf8Size).sum = 10 := by decide
    have hshort := h.short
    rw [SinkTable.temp, String.toList_append, map_append, sum_append_nat, hlead]
    omega
  obtain ⟨m, hm⟩ : ∃ m, 63 - (tbl.temp.toList.map Char.utf8Size).sum = m + 1 :=
    Nat.exists_eq_succ_of_ne_zero (by omega)
  have htemp := @clip_append tbl.temp.toList 63 (by omega)
  have hfits : '_'.utf8Size ≤ m + 1 := Nat.succ_le_succ (Nat.zero_le m)
  intro heq
  have hkeys : tbl.keysTemp.toList = tbl.temp.toList ++ "_keys".toList := by
    simp [SinkTable.keysTemp, SinkTable.temp]
  rw [identifier, identifier, ← append_nil tbl.temp.toList, htemp, hkeys, htemp, hm] at heq
  simp [clip, hfits] at heq

theorem Alone.fits (h : Alone tbls tbl) (hs : MadeFor tbls s) : Fits id s tbl := by
  have hne := h.identifier_ne
  refine ⟨?_, ?_, fun heq => absurd heq hne⟩
  · unfold Usable
    split
    · simpa [SinkTable.ordered, nodup_append, h.columns] using h.ord
    · next present hpresent =>
      obtain ⟨d, hd, hmakes⟩ := hs _ _ hpresent
      obtain rfl := h.names d hd present (.inl hmakes)
      obtain ⟨-, rfl⟩ := hmakes.resolve_right fun h => hne h.1
      exact Subset.refl _
  · unfold Usable
    split
    · exact h.keys
    · next present hpresent =>
      obtain ⟨d, hd, hmakes⟩ := hs _ _ hpresent
      obtain rfl := h.names d hd present (.inr hmakes)
      obtain ⟨-, rfl⟩ := hmakes.resolve_left fun h => hne h.1.symm
      exact Subset.refl _

end Batches

/-- **The merged batches leave what their rows leave one by one, and batches that were applied may be
applied again from any of them on**, when the connections serve the table.  Those on which every batch
can be applied have the columns for it, and those of a sink do when no other of its tables shares the
names of the temporary tables. -/
theorem merge_sequential_and_replayable [Inhabited κ] [Inhabited V]
    (recast : List Column → List (Row κ V n) → Except String (List (Row κ V n))) (tbl : SinkTable)
    (hkeys : tbl.keys ≠ []) :
    (∀ (t : Table κ (Fin n → V)) (before again again' after : List (Batch κ V n)),
      (∀ b ∈ before ++ again ++ again' ++ after, Ready tbl b) →
      again.map Batch.rows = again'.map Batch.rows →
      applyBatches recast tbl t (before ++ again ++ after) =
          .ok (replay t (((before ++ again ++ after).flatMap Batch.rows).map Row.write)) ∧
        (applyBatches recast tbl t (before ++ again)).bind
            (applyBatches recast tbl · (again' ++ after)) =
          applyBatches recast tbl t (before ++ again ++ after)) ∧
    (∀ s, (∀ rows, ∃ t, mergeInTransaction recast tbl (fun _ => none)
        ⟨0, tbl.columns.map Column.name, rows, s⟩ = .ok t) → Fits Column.name s tbl) ∧
    ∀ tbls s, Alone tbls tbl → MadeFor tbls s → Fits id s tbl := by
  refine ⟨fun t before again again' after hready hrows => ?_, fun s => fits_of_exact recast,
    fun tbls s halone => halone.fits⟩
  simp only [mem_append, or_imp, forall_and] at hready
  obtain ⟨⟨⟨hbefore, hagain⟩, hagain'⟩, hafter⟩ := hready
  have hall : ∀ b ∈ before ++ again ++ after, Ready tbl b := by
    simpa only [mem_append, or_imp, forall_and] using ⟨⟨hbefore, hagain⟩, hafter⟩
  have hfirst : ∀ b ∈ before ++ again, Ready tbl b := by
    simpa only [mem_append, or_imp, forall_and] using ⟨hbefore, hagain⟩
  have hsecond : ∀ b ∈ again' ++ after, Ready tbl b := by
    simpa only [mem_append, or_imp, forall_and] using ⟨hagain', hafter⟩
  refine ⟨applyBatches_eq recast hkeys t hall, ?_⟩
  have hsame : again'.flatMap Batch.rows = again.flatMap Batch.rows := by
    rw [flatMap, flatMap, hrows]
  rw [applyBatches_eq recast hkeys t hfirst, Except.bind, applyBatches_eq recast hkeys _ hsecond,
    applyBatches_eq recast hkeys t hall]
  simp only [flatMap_append, map_append, hsame, append_assoc]
  rw [replay_append t, replay_append t, replay_again]

section Samples

/-- A table `orders` with the key `id` and one more column. -/
private def orders (column : String) : SinkTable :=
  ⟨"orders", [⟨"id", "bigint"⟩, ⟨column, "integer"⟩], [⟨"id", "bigint"⟩], by simp⟩

/-- On a fresh connection: an insert of 1, its delete, and an insert of 2. -/
private def batch (column : String) : Batch ℕ ℕ 1 :=
  ⟨0, ["id", column], [⟨.opInsert, 1, fun _ => 10⟩, ⟨.opDelete, 1, fun _ => 0⟩,
    ⟨.opInsert, 2, fun _ => 20⟩], fun _ => none⟩

theorem merge_sequential_and_replayable_orders : Ready (orders "total") (batch "total") ∧
    (applyBatches (fun _ rows => .ok rows) (orders "total") (fun _ => none) [batch "total"]).bind
        (applyBatches (fun _ rows => .ok rows) (orders "total") · [batch "total"]) =
      .ok (replay (fun _ => none) ((batch "total").rows.map Row.write)) := by
  have hall := merge_sequential_and_replayable (κ := ℕ) (V := ℕ) (n := 1) (fun _ rows => .ok rows)
    (orders "total") (by simp [orders])
  have hready : Ready (orders "total") (batch "total") := by
    refine ⟨rfl, hall.2.2 [orders "total"] _ ⟨by decide, by decide, by decide, by decide, ?_⟩ nofun⟩
    simp
  obtain ⟨happly, hagain⟩ := hall.1 (fun _ => none) [] [batch "total"] [batch "total"] []
    (by simpa using hready) rfl
  exact ⟨hready, hagain.trans happly⟩

/-- **A column `_ord` stops the merge**: the temporary table would have two of them. -/
theorem ord_column_rejected :
    applyBatches (fun _ rows => .ok rows) (orders "_ord") (fun _ => none) [batch "_ord"] =
      .error "postgres sink: temp table orders seq 0: column specified more than once" := by
  simp [applyBatches, mergeInTransaction, mergeRuns, mergeRun, upsertRange, tempTable, batch, orders,
    copyError, Except.mapError, require, SinkTable.ordered]
  rfl

end Samples

end Filament.PostgresSink
