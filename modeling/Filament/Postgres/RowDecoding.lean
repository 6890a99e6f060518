import Filament.Lib.Replay
import Filament.Postgres.Decoder

/-!
# Row decoding against the source table

A source table maps the texts of its primary key to a row of column texts.  The server describes
each change of a row by one message: an insert carries the new row, an update the new row (a column
stored out of line and not touched by the update is sent as unchanged TOAST) and possibly an old
tuple, a delete the old tuple.  An old tuple is the full old row or has only its key columns.

The rows the decoder emits are merged into a destination table: inserts and updates are upserts by
the decoded primary key, deletes remove it.

* `KeyedTable` is a tracked table bound to its relation message, with the facts the source checks
  about its primary key.
* `Mirrors` says that the destination holds exactly the decoded contents of the source.
* `LosesToast` is the one kind of message that breaks it: an old tuple of key kind next to an
  unchanged TOAST column of the schema.
-/

namespace Filament.Postgres

open Replay List Option Except CdcRelation PgCDCRun

/-- A row of a source table: the text of each column, `none` for null. -/
abbrev SourceRow := List (Option String)

/-- One change of a row at the source. -/
inductive RowChange where
  | insert (new : SourceRow)
  | update (old new : SourceRow)
  | delete (old : SourceRow)
  deriving DecidableEq, Repr

/-- A column value as the server sends it in text form. -/
def sendColumn : Option String → TupleColumn
  | none => .null
  | some s => .text s

theorem sendColumn_ne_toast (v : Option String) : sendColumn v ≠ .toast := by
  cases v <;> simp [sendColumn]

/-- A tuple that carries the full row. -/
def fullTuple (row : SourceRow) : TupleData := row.map sendColumn

/-- A tuple of key kind: the key columns are present and all others are null. -/
def keyTuple (keys : List ℕ) (row : SourceRow) : TupleData :=
  row.mapIdx fun i v => if i ∈ keys then sendColumn v else .null

/-- The new tuple of an update: each column is sent, or is an unchanged value sent as TOAST. -/
structure NewTuple (old new : SourceRow) (tuple : TupleData) : Prop where
  length : tuple.length = new.length
  column : ∀ i, tuple.getD i .null = sendColumn (new.getD i none) ∨
    (tuple.getD i .null = .toast ∧ new.getD i none = old.getD i none ∧ new.getD i none ≠ none)

/-- A tracked table with a primary key, bound to its relation message: the key columns are fields
of the schema and columns of the relation. `sends` holds of the key texts the server's output
functions produce. -/
structure KeyedTable where
  table : CdcTable
  message : RelationMessage
  sends : List String → Prop
  pks_eq : table.pks = table.schema.primaryKey
  pks_ne : table.pks ≠ []
  pk_field : ∀ pk ∈ table.pks, ∃ f ∈ table.schema.fields, f.name = pk
  pk_column : ∀ pk ∈ table.pks, ∃ c ∈ message.columns, c.name = pk

namespace KeyedTable

variable (T : KeyedTable)

/-- The relation the decoder keeps for the table. -/
def rel : CdcRelation := T.table.bindRelation T.message

/-- The position of a key column among the schema's fields. -/
def fieldAt (pk : String) : ℕ := T.table.schema.fields.findIdx fun f => f.name = pk

/-- The position of a key column in a tuple. -/
def columnAt (pk : String) : ℕ := T.message.columns.findIdx fun c => c.name = pk

/-- The primary key of a source row, as text. -/
def rowKey (row : SourceRow) : List String :=
  T.table.pks.map fun pk => (row.getD (T.columnAt pk) none).getD ""

/-- A row of the table: one value per column, and no null in the primary key. -/
structure ValidRow (row : SourceRow) : Prop where
  length : row.length = T.message.columns.length
  key : ∀ pk ∈ T.table.pks, row.getD (T.columnAt pk) none ≠ none
  sent : T.sends (T.rowKey row)

/-- The messages by which the server describes a change of the table. -/
inductive Encodes (id : ℕ) : RowChange → Message → Prop where
  | insert {new : SourceRow} (hn : T.ValidRow new) :
      Encodes id (.insert new) (.insert id (some (fullTuple new)))
  | updatePlain {old new : SourceRow} {tuple : TupleData} (ho : T.ValidRow old)
      (hn : T.ValidRow new) (ht : NewTuple old new tuple) (hk : T.rowKey old = T.rowKey new) :
      Encodes id (.update old new) (.update id none (some tuple))
  | updateKey {old new : SourceRow} {tuple : TupleData} (ho : T.ValidRow old)
      (hn : T.ValidRow new) (ht : NewTuple old new tuple) :
      Encodes id (.update old new) (.update id (some (keyTuple T.rel.keys old)) (some tuple))
  | updateFull {old new : SourceRow} {tuple : TupleData} (ho : T.ValidRow old)
      (hn : T.ValidRow new) (ht : NewTuple old new tuple) :
      Encodes id (.update old new) (.update id (some (fullTuple old)) (some tuple))
  | deleteKey {old : SourceRow} (ho : T.ValidRow old) :
      Encodes id (.delete old) (.delete id (some (keyTuple T.rel.keys old)))
  | deleteFull {old : SourceRow} (ho : T.ValidRow old) :
      Encodes id (.delete old) (.delete id (some (fullTuple old)))

/-- What a change does to the source table. -/
def sourceWrites : RowChange → List (Write (List String) SourceRow)
  | .insert new => [.put (T.rowKey new) new]
  | .update old new => [.del (T.rowKey old), .put (T.rowKey new) new]
  | .delete old => [.del (T.rowKey old)]

variable {V : Type} (fromText : ℕ → Field → String → Except String (Option V))

/-- The type of a tuple column. -/
def columnType (i : ℕ) : ℕ := (T.message.columns[i]?.map RelationColumn.dataType).getD 0

/-- The cell of one schema field of a source row. -/
def sourceCell (row : SourceRow) (fc : Field × Option ℕ) : Except String (Option V) :=
  match fc.2 with
  | none => .ok none
  | some i =>
    match row.getD i none with
    | none => .ok none
    | some s => fromText (T.columnType i) fc.1 s

/-- The decoded contents of a source row, in schema order. -/
def sourceCells (row : SourceRow) : Except String (List (Option V)) :=
  (T.table.schema.fields.zip T.rel.cols).mapM (T.sourceCell fromText row)

/-- The primary key of a destination row. -/
def keyCells (cells : List (Option V)) : List (Option V) :=
  T.table.pks.map fun pk => cells.getD (T.fieldAt pk) none

/-- The merge of one row into the destination: a delete removes by primary key, an insert or an
update is an upsert. -/
def rowWrite (cells : List (Option V)) (op : Operation) :
    Write (List (Option V)) (List (Option V)) :=
  if op = .opDelete then .del (T.keyCells cells) else .put (T.keyCells cells) cells

/-- The merge of one output into the destination. -/
def mergeWrites : Output V → List (Write (List (Option V)) (List (Option V)))
  | .row _ cells op _ _ => [T.rowWrite cells op]
  | .drain _ _ _ => []

/-- The field of a key column. -/
def keyField (pk : String) : Field :=
  T.table.schema.fields.getD (T.fieldAt pk) ⟨pk, true, "", "", 0, 0⟩

/-- The cell of a key column with a given text. -/
def parseKey (pk s : String) : Except String (Option V) :=
  fromText (T.columnType (T.columnAt pk)) (T.keyField pk) s

/-- The key texts whose every column decodes. -/
def Decodes (key : List String) : Prop :=
  List.Forall₂ (fun pk s => ∃ cell, T.parseKey fromText pk s = .ok cell) T.table.pks key

/-- The decoded primary key. -/
def decodedKey (key : List String) : List (Option V) :=
  List.zipWith (fun pk s => (T.parseKey fromText pk s).toOption.join) T.table.pks key

/-- The server sends different keys as texts that decode differently. -/
def KeyTextsFaithful : Prop :=
  ∀ k k', T.sends k ∧ T.Decodes fromText k → T.sends k' ∧ T.Decodes fromText k' →
    T.decodedKey fromText k = T.decodedKey fromText k' → k = k'

variable (src : Table (List String) SourceRow) (dst : Table (List (Option V)) (List (Option V)))
  (keys : List ℕ)

/-- The destination holds exactly the decoded contents of the source. -/
def Mirrors : Prop :=
  Agrees (fun key => T.sends key ∧ T.Decodes fromText key) (T.decodedKey fromText)
    (fun row cells => T.sourceCells fromText row = .ok cells) src dst

/-- A message that sends a column of the schema as unchanged TOAST next to an old tuple that has
null in its place, although the column holds a value. -/
def LosesToast : RowChange → Message → Prop
  | .update _ new, .update _ (some old) (some tuple) =>
    ∃ f i s, (f, some i) ∈ T.table.schema.fields.zip T.rel.cols ∧
      tuple.getD i .null = .toast ∧ old.getD i .null = .null ∧
      new.getD i none = some s ∧ fromText (T.columnType i) f s ≠ .ok none
  | _, _ => False

/-! ### Keys of tuples and rows -/

variable {pk : String}

theorem columnAt_lt (h : pk ∈ T.table.pks) :
    T.columnAt pk < T.message.columns.length := by
  obtain ⟨c, hc, rfl⟩ := T.pk_column pk h
  exact findIdx_lt_length_of_exists ⟨c, hc, by simp⟩

theorem fieldAt_lt (h : pk ∈ T.table.pks) :
    T.fieldAt pk < T.table.schema.fields.length := by
  obtain ⟨f, hf, rfl⟩ := T.pk_field pk h
  exact findIdx_lt_length_of_exists ⟨f, hf, by simp⟩

theorem findIdx?_column (h : pk ∈ T.table.pks) :
    (T.message.columns.findIdx? fun c => c.name = pk) = some (T.columnAt pk) := by
  rw [findIdx?_eq_some_iff_findIdx_eq]
  exact ⟨T.columnAt_lt h, rfl⟩

theorem keys_eq : T.rel.keys = T.table.pks.map T.columnAt := by
  rw [← filterMap_eq_map]
  refine filterMap_congr fun pk h => ?_
  rw [T.findIdx?_column h, Function.comp_apply]

theorem zip_fieldAt (h : pk ∈ T.table.pks) :
    (T.table.schema.fields.zip T.rel.cols)[T.fieldAt pk]? =
      some (T.keyField pk, some (T.columnAt pk)) := by
  have hlt := T.fieldAt_lt h
  have hname : (T.table.schema.fields.get ⟨T.fieldAt pk, hlt⟩).name = pk :=
    of_decide_eq_true (findIdx_getElem (w := hlt))
  have hcols : T.rel.cols = T.table.schema.fields.map
      fun f => T.message.columns.findIdx? fun c => c.name = f.name := rfl
  rw [getElem?_zip_eq_some]
  refine ⟨?_, ?_⟩
  · rw [keyField, getD_eq_getElem?_getD, getElem?_eq_getElem hlt, getD_some]
  · rw [hcols, getElem?_map, getElem?_eq_getElem hlt, map_some]
    simp only [get_eq_getElem] at hname
    rw [hname, T.findIdx?_column h]

theorem columnAt_mem_keys (h : pk ∈ T.table.pks) : T.columnAt pk ∈ T.rel.keys := by
  rw [T.keys_eq]
  exact mem_map_of_mem h

variable {T} {fromText} {row old new : SourceRow} {cells : List (Option V)}
  {tuple oldTuple : TupleData} {fallback : Option TupleData} {op : Operation} {c : RowChange}
  {m : Message} {id i : ℕ}

theorem decodeColumn_sendColumn {f : Field} {cell : Option V} :
    T.rel.decodeColumn fromText f i (sendColumn (row.getD i none)) = .ok cell ↔
      T.sourceCell fromText row (f, some i) = .ok cell := by
  cases hv : row.getD i none with
  | none => simp only [sendColumn, decodeColumn, sourceCell, hv]
  | some s =>
    simp only [sendColumn, decodeColumn, sourceCell, hv]
    rw [show (T.rel.message.columns[i]?.map RelationColumn.dataType).getD 0 = T.columnType i from rfl]
    cases fromText (T.columnType i) f s <;> simp

theorem keyCells_eq {text : String → String}
    (h : ∀ pk ∈ T.table.pks, T.parseKey fromText pk (text pk) = .ok (cells.getD (T.fieldAt pk) none)) :
    T.Decodes fromText (T.table.pks.map text) ∧
      T.keyCells cells = T.decodedKey fromText (T.table.pks.map text) := by
  constructor
  · rw [Decodes, forall₂_map_right_iff, forall₂_same]
    exact fun pk hpk => ⟨_, h pk hpk⟩
  · rw [keyCells, decodedKey, zipWith_map_right, zipWith_self]
    refine map_congr_left fun pk hpk => ?_
    simp [h pk hpk, Except.toOption]

theorem keyCells_of_sourceCells (hrow : T.ValidRow row)
    (h : T.sourceCells fromText row = .ok cells) :
    T.Decodes fromText (T.rowKey row) ∧
      T.keyCells cells = T.decodedKey fromText (T.rowKey row) := by
  refine keyCells_eq fun pk hpk => ?_
  obtain ⟨cell, hcell, hok⟩ :=
    (mapM_eq_ok.1 h).getElem?_left (T.zip_fieldAt hpk)
  obtain ⟨s, hs⟩ := ne_none_iff_exists'.1 (hrow.key pk hpk)
  simp only [sourceCell, hs] at hok
  rw [hs, getD_eq_getElem?_getD, hcell]
  exact hok

theorem keyCells_of_appendTuple (hrow : T.ValidRow row) (hkey : ∀ pk ∈ T.table.pks,
      tuple.getD (T.columnAt pk) .null = sendColumn (row.getD (T.columnAt pk) none))
    (h : T.rel.appendTuple fromText (some tuple) fallback op = .ok cells) :
    T.Decodes fromText (T.rowKey row) ∧
      T.keyCells cells = T.decodedKey fromText (T.rowKey row) := by
  refine keyCells_eq fun pk hpk => ?_
  obtain ⟨cell, hcell, hok⟩ :=
    (appendTuple_eq_ok.1 h).2.getElem?_left (T.zip_fieldAt hpk)
  obtain ⟨s, hs⟩ := ne_none_iff_exists'.1 (hrow.key pk hpk)
  have hcol : tuple.getD (T.columnAt pk) .null = .text s := by rw [hkey pk hpk, hs]; rfl
  have hres : T.rel.resolveToast tuple fallback (T.columnAt pk) = .ok (.text s) := by
    simp only [resolveToast, hcol]
  simp only [appendField, T.columnAt_mem_keys hpk, not_true_eq_false, and_false,
    if_false, hres, ok_bind] at hok
  have hsrc := decodeColumn_sendColumn.1 (by rw [hs]; exact hok)
  simp only [sourceCell, hs] at hsrc
  rw [hs, getD_eq_getElem?_getD, hcell]
  exact hsrc

/-- An upserted row whose every field decodes to the source's value is the decoded source row. -/
theorem sourceCells_of_appendTuple (hop : op ≠ .opDelete)
    (hcols : ∀ f i col cell, (f, some i) ∈ T.table.schema.fields.zip T.rel.cols →
      T.rel.resolveToast tuple fallback i = .ok col →
      T.rel.decodeColumn fromText f i col = .ok cell →
      T.sourceCell fromText row (f, some i) = .ok cell)
    (h : T.rel.appendTuple fromText (some tuple) fallback op = .ok cells) :
    T.sourceCells fromText row = .ok cells := by
  rw [sourceCells, mapM_eq_ok]
  have hfields := (appendTuple_eq_ok.1 h).2
  rw [forall₂_iff_zip] at hfields ⊢
  refine ⟨hfields.1, fun {fc cell} hmem => ?_⟩
  have hok := hfields.2 hmem
  obtain ⟨f, _ | i⟩ := fc
  · exact hok
  · simp only [appendField, hop, false_and, if_false, bind_eq_ok] at hok
    obtain ⟨col, hcol, hcell⟩ := hok
    exact hcols f i col cell (of_mem_zip hmem).1 hcol hcell

theorem sourceCells_of_plain (hop : op ≠ .opDelete)
    (hcols : ∀ i, tuple.getD i .null = sendColumn (row.getD i none) ∨ tuple.getD i .null = .toast)
    (h : T.rel.appendTuple fromText (some tuple) none op = .ok cells) :
    T.sourceCells fromText row = .ok cells := by
  refine sourceCells_of_appendTuple hop (fun f i col cell _ hcol hdec => ?_) h
  rcases resolveToast_eq_ok hcol with ⟨hne, rfl⟩ | ⟨-, t, ht', -⟩
  · rw [(hcols i).resolve_right hne] at hdec
    exact decodeColumn_sendColumn.1 hdec
  · cases ht'

variable (old tuple) in
/-- An old tuple of key or full kind: each column is that of the old row, or is null and not a
key column. -/
def OldTuple : Prop :=
  ∀ i, tuple.getD i .null = sendColumn (old.getD i none) ∨ (i ∉ keys ∧ tuple.getD i .null = .null)

theorem OldTuple.keyColumn (h : OldTuple T.rel.keys old tuple) (hpk : pk ∈ T.table.pks) :
    tuple.getD (T.columnAt pk) .null = sendColumn (old.getD (T.columnAt pk) none) :=
  (h (T.columnAt pk)).resolve_right fun hn => hn.1 (T.columnAt_mem_keys hpk)

theorem fullTuple_getD (row : SourceRow) (i : ℕ) :
    (fullTuple row).getD i .null = sendColumn (row.getD i none) := by
  simp only [fullTuple, getD_eq_getElem?_getD, getElem?_map]
  cases row[i]? <;> rfl

theorem fullTuple_old (old : SourceRow) : OldTuple keys old (fullTuple old) :=
  fun i => .inl (fullTuple_getD old i)

theorem keyTuple_old (old : SourceRow) : OldTuple keys old (keyTuple keys old) := by
  intro i
  by_cases hi : i ∈ keys
  · left
    simp only [keyTuple, getD_eq_getElem?_getD, getElem?_mapIdx]
    cases old[i]? <;> simp [hi, sendColumn]
  · right
    simp only [keyTuple, getD_eq_getElem?_getD, getElem?_mapIdx]
    cases old[i]? <;> simp [hi]

theorem keyOf_eq {key : List String} (h : T.rel.keyOf (some tuple) = .ok key)
    (hcols : ∀ pk ∈ T.table.pks,
      tuple.getD (T.columnAt pk) .null = sendColumn (row.getD (T.columnAt pk) none)) :
    key = T.rowKey row := by
  simp only [keyOf, bind_eq_ok, complete_eq_ok, mapM_eq_ok, T.keys_eq] at h
  obtain ⟨t, ⟨-, rfl⟩, h⟩ := h
  rw [forall₂_map_left_iff, forall₂_iff_zip] at h
  have htexts : Forall₂ (fun pk s => (row.getD (T.columnAt pk) none).getD "" = s)
      T.table.pks key := by
    rw [forall₂_iff_zip]
    refine ⟨h.1, fun {pk s} hmem => ?_⟩
    have hs := h.2 hmem
    rw [keyText, hcols pk (of_mem_zip hmem).1] at hs
    cases hv : row.getD (T.columnAt pk) none with
    | none =>
      rw [hv] at hs
      cases hs
    | some s' =>
      rw [hv] at hs
      cases hs
      rfl
  rw [← forall₂_map_left_iff, forall₂_eq_eq_eq] at htexts
  exact htexts.symm

/-- An update with an old tuple is decoded to the source's new row unless it loses a TOAST
value. -/
theorem sourceCells_of_update (ht : NewTuple old new tuple)
    (hold : OldTuple T.rel.keys old oldTuple) (hop : op ≠ .opDelete)
    (h : T.rel.appendTuple fromText (some tuple) (some oldTuple) op = .ok cells) :
    T.sourceCells fromText new = .ok cells ↔
      ¬ T.LosesToast fromText (.update old new) (.update id (some oldTuple) (some tuple)) := by
  constructor
  · rintro hsrc ⟨f, i, s, hmem, htoast, hnull, hnew, hparse⟩
    obtain ⟨j, hj⟩ := mem_iff_getElem?.mp hmem
    obtain ⟨cell, hcell, hok⟩ := (mapM_eq_ok.1 hsrc).getElem?_left hj
    obtain ⟨cell', hcell', hok'⟩ := (appendTuple_eq_ok.1 h).2.getElem?_left hj
    obtain rfl : cell = cell' := by simpa [hcell] using hcell'
    simp only [appendField, hop, false_and, if_false, bind_eq_ok] at hok'
    obtain ⟨col, hcol, hdec⟩ := hok'
    rcases resolveToast_eq_ok hcol with ⟨hne, -⟩ | ⟨-, t, ht', rfl⟩
    · exact hne htoast
    -- the old tuple's null was taken for the value
    obtain rfl : oldTuple = t := by simpa using ht'
    rw [hnull] at hdec
    obtain rfl : none = cell := by simpa [decodeColumn] using hdec
    simp only [sourceCell, hnew] at hok
    exact hparse hok
  · intro hlose
    refine sourceCells_of_appendTuple hop (fun f i col cell hmem hcol hdec => ?_) h
    rcases resolveToast_eq_ok hcol with ⟨hne, rfl⟩ | ⟨htoast, t, ht', rfl⟩
    · rcases ht.column i with hsend | ⟨htoast, -⟩
      · rw [hsend] at hdec
        exact decodeColumn_sendColumn.1 hdec
      · exact absurd htoast hne
    obtain rfl : oldTuple = t := by simpa using ht'
    have hunchanged : new.getD i none = old.getD i none ∧ new.getD i none ≠ none := by
      rcases ht.column i with hsend | ⟨-, hsame⟩
      · rw [htoast] at hsend
        exact absurd hsend.symm (sendColumn_ne_toast _)
      · exact hsame
    rcases hold i with hsend | ⟨-, hnull⟩
    · rw [hsend, ← hunchanged.1] at hdec
      exact decodeColumn_sendColumn.1 hdec
    obtain ⟨s, hs⟩ := ne_none_iff_exists'.1 hunchanged.2
    rw [hnull] at hdec
    obtain rfl : none = cell := by simpa [decodeColumn] using hdec
    have hparse : fromText (T.columnType i) f s = .ok none := by
      by_contra hne
      exact hlose ⟨f, i, s, hmem, htoast, hnull, hs, hne⟩
    simp only [sourceCell, hs, hparse]

/-! ### One message -/

section Step

variable [DecidableEq V] {id : ℕ} {src : Table (List String) SourceRow} {old new : SourceRow}
  {dst : Table (List (Option V)) (List (Option V))} (hf : T.KeyTextsFaithful fromText)
  {rows : List (List (Option V) × Operation)}

include hf

theorem mirrors_delete (ho : T.ValidRow old) (hold : OldTuple T.rel.keys old tuple)
    (h : T.rel.appendTuple fromText (some tuple) none .opDelete = .ok cells)
    (hM : T.Mirrors fromText src dst) :
    T.Mirrors fromText (write src (.del (T.rowKey old)))
      (write dst (T.rowWrite cells .opDelete)) := by
  obtain ⟨hD, hkey⟩ := keyCells_of_appendTuple ho (fun pk hpk => hold.keyColumn hpk) h
  rw [rowWrite, if_pos rfl, hkey]
  exact hM.write hf ⟨ho.sent, hD⟩ rfl nofun nofun

/-- Merging an upsert of the decoded new row puts the new row. -/
theorem mirrors_upsert (hop : op ≠ .opDelete) (hn : T.ValidRow new)
    (h : T.sourceCells fromText new = .ok cells) (hM : T.Mirrors fromText src dst) :
    T.Mirrors fromText (write src (.put (T.rowKey new) new))
      (write dst (T.rowWrite cells op)) := by
  obtain ⟨hD, hkey⟩ := keyCells_of_sourceCells hn h
  rw [rowWrite, if_neg hop, hkey]
  exact hM.write hf ⟨hn.sent, hD⟩ rfl (fun v hv => ⟨cells, some.inj hv ▸ h, rfl⟩)
    fun w hw => ⟨new, rfl, some.inj hw ▸ h⟩

omit hf in
theorem sourceCells_of_mirrors (hop : op ≠ .opDelete)
    (hkey : T.keyCells cells = T.decodedKey fromText (T.rowKey new))
    (hM : T.Mirrors fromText (write src (.put (T.rowKey new) new))
      (write dst (T.rowWrite cells op))) : T.sourceCells fromText new = .ok cells := by
  obtain ⟨-, w, hw, hdst⟩ := hM.mem _ _ (write_put_self src (T.rowKey new) new)
  rw [rowWrite, if_neg hop, hkey, write_put_self, some.injEq] at hdst
  rw [hw, hdst]

/-- Merging an update with an old tuple mirrors the update exactly when no TOAST value is lost. -/
theorem mirrors_update (ho : T.ValidRow old) (hn : T.ValidRow new) (ht : NewTuple old new tuple)
    (hold : OldTuple T.rel.keys old oldTuple)
    (hrows : changeRows fromText T.rel (.update id (some oldTuple) (some tuple)) = .ok rows)
    (hM : T.Mirrors fromText src dst) :
    T.Mirrors fromText (replay src (T.sourceWrites (.update old new)))
        (replay dst (rows.map fun row => T.rowWrite row.1 row.2)) ↔
      ¬ T.LosesToast fromText (.update old new) (.update id (some oldTuple) (some tuple)) := by
  simp only [changeRows, bind_eq_ok] at hrows
  obtain ⟨oldKey, hoK, newKey, hnK, hrows⟩ := hrows
  -- the key of the new tuple was read, so none of its key columns is TOAST
  have hncols : ∀ pk ∈ T.table.pks, tuple.getD (T.columnAt pk) .null =
      sendColumn (new.getD (T.columnAt pk) none) := by
    intro pk hpk
    obtain ⟨s, hs⟩ := text_of_keyOf hnK (T.columnAt_mem_keys hpk)
    refine (ht.column (T.columnAt pk)).resolve_right fun htoast => ?_
    rw [hs] at htoast
    cases htoast.1
  obtain rfl := keyOf_eq hoK fun pk hpk => hold.keyColumn hpk
  obtain rfl := keyOf_eq hnK hncols
  by_cases hkey : T.rowKey old = T.rowKey new
  · rw [if_pos hkey] at hrows
    simp only [bind_eq_ok, pure_eq_ok_iff] at hrows
    obtain ⟨cells, hcells, rfl⟩ := hrows
    have hop : Operation.opUpdate ≠ .opDelete := by decide
    rw [sourceWrites, hkey]
    simp only [replay_cons, replay_nil, map_cons, map_nil, write_del_put]
    rw [← sourceCells_of_update ht hold hop hcells]
    exact ⟨sourceCells_of_mirrors hop (keyCells_of_appendTuple hn hncols hcells).2,
      fun h => mirrors_upsert hf hop hn h hM⟩
  · rw [if_neg hkey] at hrows
    simp only [bind_eq_ok, pure_eq_ok_iff] at hrows
    obtain ⟨gone, hgone, cells, hcells, rfl⟩ := hrows
    have hop : Operation.opInsert ≠ .opDelete := by decide
    have hM' := mirrors_delete hf ho hold hgone hM
    rw [← sourceCells_of_update ht hold hop hcells]
    exact ⟨sourceCells_of_mirrors hop (keyCells_of_appendTuple hn hncols hcells).2,
      fun h => mirrors_upsert hf hop hn h hM'⟩

/-- **One message.** The rows of a message keep the destination a mirror of the source exactly
when the message loses no TOAST value. -/
theorem mirrors_change (henc : T.Encodes id c m)
    (hrows : changeRows fromText T.rel m = .ok rows) (hM : T.Mirrors fromText src dst) :
    T.Mirrors fromText (replay src (T.sourceWrites c))
        (replay dst (rows.map fun row => T.rowWrite row.1 row.2)) ↔
      ¬ T.LosesToast fromText c m := by
  cases henc with
  | insert hn =>
    simp only [changeRows, bind_eq_ok, pure_eq_ok_iff] at hrows
    obtain ⟨cells, hcells, rfl⟩ := hrows
    refine iff_of_true ?_ fun h => h
    have hop : Operation.opInsert ≠ .opDelete := by decide
    exact mirrors_upsert hf hop hn
      (sourceCells_of_plain hop (fun i => .inl (fullTuple_getD _ i)) hcells) hM
  | updatePlain ho hn ht hk =>
    simp only [changeRows, bind_eq_ok, pure_eq_ok_iff] at hrows
    obtain ⟨cells, hcells, rfl⟩ := hrows
    refine iff_of_true ?_ fun h => h
    have hop : Operation.opUpdate ≠ .opDelete := by decide
    rw [sourceWrites, hk]
    simp only [replay_cons, replay_nil, map_cons, map_nil, write_del_put]
    exact mirrors_upsert hf hop hn
      (sourceCells_of_plain hop (fun i => (ht.column i).imp_right And.left) hcells) hM
  | updateKey ho hn ht => exact mirrors_update hf ho hn ht (keyTuple_old _ _) hrows hM
  | updateFull ho hn ht => exact mirrors_update hf ho hn ht (fullTuple_old _ _) hrows hM
  | deleteKey ho =>
    simp only [changeRows, bind_eq_ok, pure_eq_ok_iff] at hrows
    obtain ⟨cells, hcells, rfl⟩ := hrows
    exact iff_of_true (mirrors_delete hf ho (keyTuple_old _ _) hcells hM) fun h => h
  | deleteFull ho =>
    simp only [changeRows, bind_eq_ok, pure_eq_ok_iff] at hrows
    obtain ⟨cells, hcells, rfl⟩ := hrows
    exact iff_of_true (mirrors_delete hf ho (fullTuple_old _ _) hcells hM) fun h => h

end Step

/-! ### Sequences of messages -/

/-- A change of a row, the message that describes it and the position it is received at. -/
structure ChangeStep where
  change : RowChange
  message : Message
  lsn : LSN

/-- The source table after some changes. -/
def sourceAfter (steps : List ChangeStep) : Table (List String) SourceRow :=
  replay src (steps.flatMap fun st => T.sourceWrites st.change)

/-- The messages of some changes, as the decoder receives them. -/
def received (steps : List ChangeStep) : List (Message × LSN) :=
  steps.map fun st => (st.message, st.lsn)

theorem sourceAfter_cons (st : ChangeStep) (steps : List ChangeStep) :
    T.sourceAfter src (st :: steps) = T.sourceAfter (T.sourceAfter src [st]) steps := by
  simp [sourceAfter, replay_append]

theorem mergeWrites_numbered (resource : String) (lsn : LSN) (n : ℕ)
    (rows : List (List (Option V) × Operation)) :
    (numbered resource lsn n rows).flatMap T.mergeWrites =
      rows.map fun row => T.rowWrite row.1 row.2 := by
  induction rows generalizing n with
  | nil => rfl
  | cons row rows ih => simp [numbered, mergeWrites, ih]

theorem step_rows {r q : PgCDCRun V} {lsn end_ : LSN} (hrel : r.relation id = some T.rel)
    (henc : T.Encodes id c m) (hfloor : r.pastFloor T.message.relationName lsn = true)
    (hq : r.process fromText (.ok m) lsn = .ok (end_, q)) :
    ∃ rows, changeRows fromText T.rel m = .ok rows ∧
      q = r.emitAll T.message.relationName rows lsn := by
  have hid : m.changes = some id := by cases henc <;> rfl
  rcases (process_change hid hrel hq).2 with ⟨hp, -⟩ | ⟨-, rows, hrows, hq⟩
  · exact absurd hfloor (by rw [show T.message = T.rel.message from rfl, hp]; decide)
  · exact ⟨rows, hrows, hq⟩

variable [DecidableEq V]

/-- The destination table after the outputs of a run are merged. -/
def destinationAfter (T : KeyedTable) (dst : Table (List (Option V)) (List (Option V))) (out : List (Output V)) :
    Table (List (Option V)) (List (Option V)) :=
  replay dst (out.flatMap T.mergeWrites)

theorem destinationAfter_emitAll (dst : Table (List (Option V)) (List (Option V)))
    (r : PgCDCRun V) (resource : String) (rows : List (List (Option V) × Operation)) (lsn : LSN) :
    T.destinationAfter dst (r.emitAll resource rows lsn).out =
      replay (T.destinationAfter dst r.out) (rows.map fun row => T.rowWrite row.1 row.2) := by
  rw [destinationAfter, out_emitAll, flatMap_append, mergeWrites_numbered,
    replay_append, destinationAfter]

/-- A session that has received the relation message of a table and has no floors. -/
def session (T : KeyedTable) : PgCDCRun String where
  sink := fun _ _ => none
  schema := T.message.relNamespace
  resources := [T.message.relationName]
  tracked := fun name => if name = T.message.relationName then some T.table else none
  relations := fun id => if id = T.message.relationID then some T.rel else none
  seq := 0
  emitted := 0
  limit := 0
  limited := false
  inTxn := true
  floors := fun _ => none
  out := []

/-- A table `notes(id primary key, body)` whose columns decode to their texts. -/
def notes : KeyedTable where
  table := ⟨["id"], ⟨"notes", [⟨"id", false, "", "", 0, 0⟩, ⟨"body", true, "", "", 0, 0⟩], ["id"]⟩⟩
  message := ⟨7, "public", "notes", [⟨"id", 25⟩, ⟨"body", 25⟩]⟩
  sends := fun key => key.length = 1
  pks_eq := rfl
  pks_ne := by decide
  pk_field := by decide
  pk_column := by decide

theorem notes_faithful : notes.KeyTextsFaithful textCell := by
  rintro k k' ⟨hk, -⟩ ⟨hk', -⟩ h
  obtain ⟨s, rfl⟩ := length_eq_one_iff.1 hk
  obtain ⟨s', rfl⟩ := length_eq_one_iff.1 hk'
  have hcell : [some s] = [some s'] := h
  simpa using hcell

omit [DecidableEq V] in
theorem mirrors_empty (fromText : ℕ → Field → String → Except String (Option V)) :
    notes.Mirrors fromText (fun _ => none) (fun _ => none) :=
  ⟨fun _ _ h => by simp at h, fun _ _ h => by simp at h⟩

/-- An update of `notes` from `("1", "body")` to `("2", "body")` under the default replica identity:
the old tuple has only the key, and the body is sent as unchanged TOAST. -/
def rekeyed : List ChangeStep :=
  [⟨.insert [some "1", some "body"], .insert 7 (some [.text "1", .text "body"]), 10⟩,
   ⟨.update [some "1", some "body"] [some "2", some "body"],
     .update 7 (some [.text "1", .null]) (some [.text "2", .toast]), 20⟩]

theorem notes_validRow (k b : String) : notes.ValidRow [some k, some b] := by
  refine ⟨rfl, fun pk hpk => ?_, rfl⟩
  obtain rfl : pk = "id" := by simpa [notes] using hpk
  exact some_ne_none k

theorem rekeyed_encoded : ∀ st ∈ rekeyed, notes.Encodes 7 st.change st.message := by
  rw [rekeyed, forall_mem_cons, forall_mem_singleton]
  refine ⟨.insert (notes_validRow ..),
    .updateKey (notes_validRow ..) (notes_validRow ..) ⟨rfl, fun i => ?_⟩⟩
  match i with
  | 0 => exact .inl rfl
  | 1 => exact .inr ⟨rfl, rfl, by decide⟩
  | i + 2 => exact .inl rfl

end KeyedTable

end Filament.Postgres
