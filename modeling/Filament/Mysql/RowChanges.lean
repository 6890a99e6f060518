import Mathlib.Algebra.Group.Int.Defs
import Filament.Lib.Except
import Filament.Lib.Replay
import Filament.Lib.Text
import Filament.RowModel

/-!
# The rows of the MySQL change stream

`pushRows` turns a rows event into rows with operations for the merge of the sink.  Each value is
rendered as a text and read again by the type of its column (`appendBinlogRow`).  Whether an update
changes the primary key is told by the texts of the key columns, joined with the byte 0x1F.

* `Column`, `appendBinlogRow`, `keyOf`, `pushRows` : the source;
* `tinyintOne`, `integer`, `varchar`, `varbinary` : columns of numbers and of byte strings;
* `committed` : what the event did to the table it is of;
* **`pushRows_exact`** : the merge of the rows leaves what the events left, when the columns keep the
  values and no update changes the key to one that is joined to the same bytes.
-/

namespace Filament.Mysql

open Replay List Except

/-- A value of a row image.  A text is a string or bytes; `N` has the values of other types. -/
inductive Value (N : Type) where
  | null
  | int (n : ℤ)
  | text (b : List UInt8)
  | other (v : N)
  deriving DecidableEq

abbrev Row (N : Type) := List (Value N)

/-- A value of an Arrow row. -/
inductive Cell (C : Type) where
  | null
  | bool (b : Bool)
  | int (n : ℤ)
  | string (b : List UInt8)
  | bytes (b : List UInt8)
  | other (c : C)
  deriving DecidableEq, Inhabited

/-- The types of rows events, whatever their version. -/
inductive EventType where
  | writeRows
  | deleteRows
  | updateRows
  | other

/-- A column with its `mysqlType`, and the value of the source that a cell of it stands for. -/
structure Column (N C : Type) where
  name : String
  binlog : Option (Value N → Except String (List UInt8)) := none
  parse : List UInt8 → Except String (Cell C)
  means : Cell C → Value N

/-- What `rowDecoder` has of the table: its columns, the places of those of the primary key, and how a
value that is neither a number nor a text is rendered. -/
structure RowDecoder (N C : Type) where
  columns : List (Column N C)
  pks : List ℕ
  render : N → List UInt8

section Source

variable {N C : Type} (d : RowDecoder N C)

def RowDecoder.valueBytes : Value N → List UInt8
  | .null => "<nil>".toUTF8.data.toList
  | .int n => Text.ofInt n
  | .text b => b
  | .other v => d.render v

/-- A value in its column: null, or rendered and read. -/
def RowDecoder.cell (c : Column N C) : Value N → Except String (Cell C)
  | .null => .ok .null
  | v => do
    let text ← match c.binlog with
      | some render => render v
      | none => .ok (d.valueBytes v)
    c.parse text

def RowDecoder.appendBinlogRow (row : Row N) : Except String (List (Cell C)) := do
  require (d.columns.length ≤ row.length)
    s!"row has {row.length} values for {d.columns.length} columns"
  (d.columns.zip row).mapM fun (c, v) => (d.cell c v).mapError fun e => s!"column {c.name}: {e}"

/-- The primary key of a row, of values or of cells. -/
def RowDecoder.key {α : Type} (row : List α) : List (Option α) := d.pks.map fun i => row[i]?

def RowDecoder.keyOf (row : Row N) : List UInt8 :=
  [0x1f].intercalate ((d.key row).map fun v => v.elim [] d.valueBytes)

def push (table : String) (op : Operation) (row : Row N) :
    Except String (Operation × List (Cell C)) :=
  (op, ·) <$> (d.appendBinlogRow row).mapError fun e => s!"mysql cdc: {table} row: {e}"

/-- The images of an update event two by two, before and after. -/
def updates : List (Row N) → List (Row N × Row N)
  | before :: after :: rows => (before, after) :: updates rows
  | _ => []

/-- The rows that an update has pushed, from the images before and after. -/
def pushUpdate (u : Row N × Row N) : List (Operation × Row N) :=
  if d.keyOf u.1 = d.keyOf u.2 then [(.opUpdate, u.2)] else [(.opDelete, u.1), (.opInsert, u.2)]

/-- The rows that an event has pushed, in order. -/
def pushed : EventType → List (Row N) → List (Operation × Row N)
  | .writeRows, rows => rows.map (.opInsert, ·)
  | .deleteRows, rows => rows.map (.opDelete, ·)
  | .updateRows, rows => (updates rows).flatMap (pushUpdate d)
  | .other, _ => []

def pushRows (table : String) (typ : EventType) (rows : List (Row N)) :
    Except String (List (Operation × List (Cell C))) :=
  (pushed d typ rows).mapM fun (op, row) => push d table op row

/-- The events in order. -/
def pushEvents (table : String) (events : List (EventType × List (Row N))) :
    Except String (List (Operation × List (Cell C))) :=
  flatten <$> events.mapM fun e => pushRows d table e.1 e.2

/-! ### What is merged, and what was committed -/

/-- The merge of a row: a delete removes its key, and every other row is put under it. -/
def merge {α : Type} (row : Operation × List α) : Write (List (Option α)) (List α) :=
  if row.1 = .opDelete then .del (d.key row.2) else .put (d.key row.2) row.2

/-- What the event did to the table. -/
def committed : EventType → List (Row N) → List (Write (List (Option (Value N))) (Row N))
  | .writeRows, rows => rows.map fun row => .put (d.key row) row
  | .deleteRows, rows => rows.map fun row => .del (d.key row)
  | .updateRows, rows => (updates rows).flatMap fun u => [.del (d.key u.1), .put (d.key u.2) u.2]
  | .other, _ => []

/-- The value that a cell of the column stands for. -/
def Column.value (c : Column N C) : Cell C → Value N
  | .null => .null
  | cell => c.means cell

/-- The column keeps the value: it is read, and the cell stands for it. -/
def RowDecoder.Keeps (c : Column N C) (v : Value N) : Prop :=
  ∃ cell, d.cell c v = .ok cell ∧ c.value cell = v

/-- The cells stand for the values of a full row. -/
def RowDecoder.StandsFor (row : Row N) (cells : List (Cell C)) : Prop :=
  row.length = d.columns.length ∧
    Forall₂ (fun (p : Column N C × Value N) cell => d.cell p.1 p.2 = .ok cell ∧ p.1.value cell = p.2)
      (d.columns.zip row) cells

/-- A full image whose values are kept. -/
def RowDecoder.KeepsRow (row : Row N) : Prop :=
  row.length = d.columns.length ∧ ∀ p ∈ d.columns.zip row, d.Keeps p.1 p.2

/-- The destination has what the source has, each row under its key. -/
def RowDecoder.Exact [DecidableEq C] (src : Table (List (Option (Value N))) (Row N))
    (dst : Table (List (Option (Cell C))) (List (Cell C))) : Prop :=
  (∀ k row, src k = some row → k = d.key row ∧
    ∃ cells, d.StandsFor row cells ∧ dst (d.key cells) = some cells) ∧
  ∀ l cells, dst l = some cells → l = d.key cells ∧ ∃ row, d.StandsFor row cells ∧ src (d.key row) = some row

/-- The update does not change the key to one that is joined to the same bytes. -/
def Distinguished (u : Row N × Row N) : Prop :=
  d.keyOf u.1 = d.keyOf u.2 → d.key u.1 = d.key u.2

end Source

variable {N C : Type} [DecidableEq N] [DecidableEq C] {d : RowDecoder N C}
  {src : Table (List (Option (Value N))) (Row N)}
  {dst : Table (List (Option (Cell C))) (List (Cell C))} {row row' : Row N} {cells cells' : List (Cell C)}

omit [DecidableEq N] [DecidableEq C] in
theorem keepsRow_iff : d.KeepsRow row ↔ ∃ cells, d.StandsFor row cells := by
  constructor
  · rintro ⟨hlen, hkeeps⟩
    choose! cell hcell using hkeeps
    exact ⟨(d.columns.zip row).map cell, hlen, forall₂_map hcell⟩
  · rintro ⟨cells, hlen, hcells⟩
    refine ⟨hlen, fun p hp => ?_⟩
    obtain ⟨cell, -, hcell⟩ := hcells.exists_of_mem_left hp
    exact ⟨cell, hcell⟩

omit [DecidableEq N] [DecidableEq C] in
theorem push_eq (h : d.StandsFor row cells) (table : String) (op : Operation) :
    push d table op row = .ok (op, cells) := by
  have happend : d.appendBinlogRow row = .ok cells := by
    rw [RowDecoder.appendBinlogRow, require_bind_eq_ok, mapM_eq_ok]
    exact ⟨Nat.le_of_eq h.1.symm, h.2.imp fun p cell hcell => mapError_eq_ok.2 hcell.1⟩
  rw [push, happend]
  rfl

omit [DecidableEq N] [DecidableEq C] in
theorem standsFor_getElem? (h : d.StandsFor row cells) (i : ℕ) :
    row[i]? = none ∧ cells[i]? = none ∨ ∃ c v cell, d.columns[i]? = some c ∧ row[i]? = some v ∧
      cells[i]? = some cell ∧ d.cell c v = .ok cell ∧ c.value cell = v := by
  have hlen := h.2.length_eq
  have hrowlen := h.1
  rw [length_zip] at hlen
  by_cases hi : i < d.columns.length
  · right
    have hrow : i < row.length := h.1 ▸ hi
    have hzip : (d.columns.zip row)[i]? = some (d.columns[i], row[i]) :=
      getElem?_zip_eq_some.2 ⟨getElem?_eq_getElem hi, getElem?_eq_getElem hrow⟩
    obtain ⟨cell, hcell, hread, hval⟩ := h.2.getElem?_left hzip
    exact ⟨_, _, cell, getElem?_eq_getElem hi, getElem?_eq_getElem hrow, hcell, hread, hval⟩
  · left
    exact ⟨getElem?_eq_none (by omega), getElem?_eq_none (by omega)⟩

omit [DecidableEq N] [DecidableEq C] in
/-- Cells have the same key exactly when the rows they stand for do. -/
theorem key_eq_iff (h : d.StandsFor row cells) (h' : d.StandsFor row' cells') :
    d.key cells = d.key cells' ↔ d.key row = d.key row' := by
  rw [RowDecoder.key, RowDecoder.key, RowDecoder.key, RowDecoder.key, map_inj_left, map_inj_left]
  refine forall₂_congr fun i _ => ?_
  obtain ⟨hrow, hcell⟩ | ⟨c, v, cell, hc, hv, hcell, hread, hval⟩ := standsFor_getElem? h i
  · obtain ⟨hrow', hcell'⟩ | ⟨c', v', cell', hc', hv', hcell', hread', hval'⟩ := standsFor_getElem? h' i
    · simp [*]
    · simp [*]
  · obtain ⟨hrow', hcell'⟩ | ⟨c', v', cell', hc', hv', hcell', hread', hval'⟩ := standsFor_getElem? h' i
    · simp [*]
    · obtain rfl : c = c' := Option.some.inj (hc.symm.trans hc')
      rw [hv, hv', hcell, hcell', Option.some.injEq, Option.some.injEq]
      refine ⟨fun heq => ?_, fun heq => ?_⟩
      · rw [← hval, heq, hval']
      · rw [heq, hread'] at hread
        exact (Except.ok.inj hread).symm

/-- One row merged on both sides. -/
theorem exact_merge (h : d.Exact src dst) (hrow : d.StandsFor row cells) (op : Operation) :
    d.Exact (write src (merge d (op, row))) (write dst (merge d (op, cells))) := by
  have hkey : (merge d (op, row)).key = d.key row ∧
      (merge d (op, cells)).key = d.key cells := by
    unfold merge
    split_ifs <;> exact ⟨rfl, rfl⟩
  refine ⟨fun k r hr => ?_, fun l cs hcs => ?_⟩
  · rw [write_apply, hkey.1] at hr
    split_ifs at hr with hk
    · obtain ⟨hop, rfl⟩ : op ≠ .opDelete ∧ row = r := by
        unfold merge at hr
        split_ifs at hr with hop <;> simp_all
      exact ⟨hk, cells, hrow, by simp [write_apply, merge, hop]⟩
    · obtain ⟨rfl, cs, hr', hcs⟩ := h.1 k r hr
      have hne : d.key cs ≠ d.key cells := fun heq => hk ((key_eq_iff hr' hrow).1 heq)
      exact ⟨rfl, cs, hr', by rw [write_apply, hkey.2, if_neg hne, hcs]⟩
  · rw [write_apply, hkey.2] at hcs
    split_ifs at hcs with hl
    · obtain ⟨hop, rfl⟩ : op ≠ .opDelete ∧ cells = cs := by
        unfold merge at hcs
        split_ifs at hcs with hop <;> simp_all
      exact ⟨hl, row, hrow, by simp [write_apply, merge, hop]⟩
    · obtain ⟨rfl, r, hr, hsrc⟩ := h.2 l cs hcs
      have hne : d.key r ≠ d.key row := fun heq => hl ((key_eq_iff hr hrow).2 heq)
      exact ⟨rfl, r, hr, by rw [write_apply, hkey.1, if_neg hne, hsrc]⟩

/-- Rows that are kept are pushed, and merged on both sides. -/
theorem exact_merges (h : d.Exact src dst) {rows : List (Operation × Row N)}
    (hrows : ∀ r ∈ rows, d.KeepsRow r.2) (table : String) :
    ∃ out, rows.mapM (fun r => push d table r.1 r.2) = .ok out ∧
      d.Exact (replay src (rows.map (merge d))) (replay dst (out.map (merge d))) := by
  induction rows generalizing src dst with
  | nil => exact ⟨[], rfl, h⟩
  | cons r rows ih =>
    rw [forall_mem_cons] at hrows
    obtain ⟨cells, hcells⟩ := keepsRow_iff.1 hrows.1
    obtain ⟨out, hout, hexact⟩ := ih (exact_merge h hcells r.1) hrows.2
    refine ⟨(r.1, cells) :: out, ?_, hexact⟩
    rw [mapM_cons, push_eq hcells, ok_bind, hout]
    rfl

/-! ### Updates -/

omit [DecidableEq C] in
theorem replay_pushUpdate {u : Row N × Row N} (h : Distinguished d u) :
    replay src ((pushUpdate d u).map (merge d)) = replay src [.del (d.key u.1), .put (d.key u.2) u.2] := by
  unfold pushUpdate
  split_ifs with hkey
  · simp [merge, h hkey, write_del_put]
  · simp [merge]

omit [DecidableEq C] in
theorem replay_pushed {typ : EventType} {rows : List (Row N)}
    (h : typ = .updateRows → ∀ u ∈ updates rows, Distinguished d u) :
    replay src ((pushed d typ rows).map (merge d)) = replay src (committed d typ rows) := by
  cases typ with
  | updateRows =>
    have hall := h rfl
    simp only [pushed, committed]
    generalize updates rows = us at hall
    induction us generalizing src with
    | nil => rfl
    | cons u us ih =>
      rw [forall_mem_cons] at hall
      rw [flatMap_cons, flatMap_cons, map_append, replay_append, replay_append,
        replay_pushUpdate hall.1, ih hall.2]
  | writeRows | deleteRows | other => simp [pushed, committed, merge, Function.comp_def]

omit [DecidableEq N] [DecidableEq C] in
theorem mem_updates {rows : List (Row N)} {u : Row N × Row N} (h : u ∈ updates rows) :
    u.1 ∈ rows ∧ u.2 ∈ rows := by
  fun_induction updates rows with
  | case1 before after rows ih =>
    rcases mem_cons.1 h with rfl | h
    · simp
    · simp [ih h]
  | case2 => cases h

omit [DecidableEq N] [DecidableEq C] in
theorem mem_of_mem_pushed {typ : EventType} {rows : List (Row N)} {r : Operation × Row N}
    (h : r ∈ pushed d typ rows) : r.2 ∈ rows := by
  cases typ with
  | updateRows =>
    obtain ⟨u, hu, hr⟩ := mem_flatMap.1 h
    have hmem := mem_updates hu
    unfold pushUpdate at hr
    split_ifs at hr
    · obtain rfl := mem_singleton.1 hr
      exact hmem.2
    · obtain rfl | rfl : r = _ ∨ r = _ := by simpa using hr
      · exact hmem.1
      · exact hmem.2
  | writeRows | deleteRows =>
    obtain ⟨row, hrow, rfl⟩ := mem_map.1 h
    exact hrow
  | other => cases h

/-- An event whose images are kept is pushed, and merged as it was committed. -/
theorem exists_pushRows (h : d.Exact src dst) (table : String) {typ : EventType} {rows : List (Row N)}
    (hrows : ∀ row ∈ rows, d.KeepsRow row)
    (hkeys : typ = .updateRows → ∀ u ∈ updates rows, Distinguished d u) :
    ∃ out, pushRows d table typ rows = .ok out ∧
      d.Exact (replay src (committed d typ rows)) (replay dst (out.map (merge d))) := by
  rw [← replay_pushed hkeys]
  exact exact_merges h (fun r hr => hrows _ (mem_of_mem_pushed hr)) table

/-! ### Columns of numbers and of byte strings -/

section Columns

/-- The cells of numbers and of byte strings as values. -/
def plain : Cell C → Value N
  | .null => .null
  | .bool b => .int (if b then 1 else 0)
  | .int n => .int n
  | .string b => .text b
  | .bytes b => .text b
  | .other _ => .null

variable (name : String)

/-- `parseBool`, of `tinyint(1)`: everything but the text `0` is true. -/
def tinyintOne : Column N C :=
  { name, means := plain, parse := fun text => .ok (.bool (text.length ≠ 1 ∨ text.head? ≠ some 48)) }

/-- `parseInt16`, `parseInt32`, `parseInt64`. -/
def integer (bits : ℕ) : Column N C :=
  { name, means := plain, parse := fun text => do
      let n ← ofOption "invalid syntax" (Text.parseInt text)
      require (-2 ^ (bits - 1) ≤ n ∧ n < 2 ^ (bits - 1)) "value out of range"
      return .int n }

/-- `parseText`. -/
def varchar : Column N C := { name, means := plain, parse := fun text => .ok (.string text) }

/-- `parseBytes`. -/
def varbinary : Column N C := { name, means := plain, parse := fun text => .ok (.bytes text) }

variable (d : RowDecoder N C)

omit [DecidableEq N] [DecidableEq C] in
theorem keeps_tinyintOne (n : ℤ) : d.Keeps (tinyintOne name) (.int n) ↔ n = 0 ∨ n = 1 := by
  have hzero : Text.ofInt n = [48] ↔ n = 0 := by
    refine ⟨fun heq => ?_, fun heq => by rw [heq]; rfl⟩
    have hread := Text.parseInt_ofInt n
    rw [heq] at hread
    exact (Option.some.inj hread).symm
  have htext : ∀ text : List UInt8, (text.length ≠ 1 ∨ text.head? ≠ some 48) ↔ text ≠ [48] := by
    rintro (_ | ⟨b, _ | ⟨b', bs⟩⟩) <;> simp
  have hcell : d.cell (tinyintOne name) (.int n) = .ok (.bool (n ≠ 0)) := by
    simp only [RowDecoder.cell, tinyintOne, RowDecoder.valueBytes, ok_bind, htext, ne_eq, hzero]
  rw [RowDecoder.Keeps, hcell]
  by_cases hn : n = 0 <;> simp [hn, Column.value, tinyintOne, plain, eq_comm]

omit [DecidableEq N] [DecidableEq C] in
theorem keeps_integer {bits : ℕ} {n : ℤ} (h : -2 ^ (bits - 1) ≤ n ∧ n < 2 ^ (bits - 1)) :
    d.Keeps (integer name bits) (.int n) := by
  refine ⟨.int n, ?_, rfl⟩
  simp [RowDecoder.cell, integer, RowDecoder.valueBytes, Text.parseInt_ofInt, ofOption,
    require, h]

omit [DecidableEq N] [DecidableEq C] in
theorem keeps_text (b : List UInt8) :
    d.Keeps (varchar name) (.text b) ∧ d.Keeps (varbinary name) (.text b) :=
  ⟨⟨.string b, rfl, rfl⟩, .bytes b, rfl, rfl⟩

end Columns

/-- A table with the primary key `a, b` of byte strings, and one with a primary key `tinyint(1)`. -/
private def pair : RowDecoder Empty Empty := ⟨[varbinary "a", varbinary "b"], [0, 1], nofun⟩

private def flag : RowDecoder Empty Empty := ⟨[tinyintOne "a"], [0], nofun⟩

end Filament.Mysql
