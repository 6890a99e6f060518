import Mathlib.Algebra.Group.Nat.Defs
import Filament.Lib.Except
import Filament.RowModel

/-!
# Logical replication messages and their tuples

The `pgoutput` messages the Postgres source consumes, a relation of the stream bound to the schema
of a tracked resource (`cdcRelation`), and the decoding of one tuple into the cells of one row.

Text values are turned into cells by `fromText`, the table of column types of the source; it is a
parameter here, so everything below holds for every such table.
-/

namespace Filament.Postgres

open Except

/-- A position in the write-ahead log. -/
abbrev LSN := ℕ

/-- The text form of a position: its two halves in hexadecimal. -/
def lsnText (lsn : LSN) : String :=
  let hex (n : ℕ) : String := String.ofList ((Nat.toDigits 16 n).map Char.toUpper)
  hex (lsn / 2 ^ 32) ++ "/" ++ hex (lsn % 2 ^ 32)

/-- One column of a tuple, by its data type byte. -/
inductive TupleColumn where
  /-- SQL null. -/
  | null
  /-- An unchanged TOAST value, which is not sent. -/
  | toast
  | text (data : String)
  | binary (data : String)
  | other (dataType : UInt8)
  deriving DecidableEq, Repr

/-- The columns of one tuple, in relation order. -/
abbrev TupleData := List TupleColumn

/-- One column a relation message describes; `dataType` is the type OID. -/
structure RelationColumn where
  name : String
  dataType : ℕ
  deriving DecidableEq, Repr

/-- The relation message that precedes the first change of a table in a session. -/
structure RelationMessage where
  relationID : ℕ
  relNamespace : String
  relationName : String
  columns : List RelationColumn
  deriving DecidableEq, Repr

/-- The messages of protocol version 1. A tuple that is absent is `none`. -/
inductive Message where
  | beginTxn (finalLSN : LSN) (xid : ℕ)
  | commit (commitLSN transactionEndLSN : LSN)
  | relation (msg : RelationMessage)
  | insert (relationID : ℕ) (tuple : Option TupleData)
  | update (relationID : ℕ) (oldTuple newTuple : Option TupleData)
  | delete (relationID : ℕ) (oldTuple : Option TupleData)
  | truncate (relationIDs : List ℕ)
  /-- Type, origin and logical messages, which the source ignores. -/
  | other
  deriving DecidableEq, Repr

/-- The column types of a table of text columns: a value decodes to itself. -/
def textCell (_ : ℕ) (_ : Field) (s : String) : Except String (Option String) := .ok (some s)

/-- The spelling of a name in an error text. -/
def quoted (s : String) : String := "\"" ++ s ++ "\""

/-- A relation of the stream bound to the resource's schema: `cols` maps each schema field to its
tuple column (`none` when it is not sent, so null), `keys` are the tuple columns of the primary
key. -/
structure CdcRelation where
  message : RelationMessage
  tracked : Bool
  schema : Schema
  cols : List (Option ℕ)
  keys : List ℕ
  deriving DecidableEq, Repr

namespace CdcRelation

variable (rel : CdcRelation)

/-- The name a relation has in an error text. -/
def fullName : String :=
  rel.message.relNamespace ++ "." ++ rel.message.relationName

/-- The name of a tuple column. -/
def columnName (i : ℕ) : String :=
  (rel.message.columns[i]?.map RelationColumn.name).getD ""

/-- The error for a tuple of `n` columns. -/
def tupleSizeError (n : ℕ) : String :=
  s!"postgres cdc: {rel.fullName} tuple has {n} columns, want {rel.message.columns.length}"

/-- Rejects a tuple that does not carry one value per relation column. -/
def complete : Option TupleData → Except String TupleData
  | none => .error (rel.tupleSizeError 0)
  | some tuple =>
    if tuple.length = rel.message.columns.length then .ok tuple
    else .error (rel.tupleSizeError tuple.length)

/-- The text of the primary-key column `i` of a tuple. -/
def keyText (tuple : TupleData) (i : ℕ) : Except String String :=
  match tuple.getD i .null with
  | .text data => .ok data
  | _ => .error <| s!"postgres cdc: primary-key column {quoted (rel.columnName i)} " ++
      "is not present in tuple"

/-- The tuple's primary-key values as text. -/
def keyOf (tuple : Option TupleData) : Except String (List String) := do
  let tuple ← rel.complete tuple
  rel.keys.mapM (rel.keyText tuple)

/-- The tuple column that decides the value of column `i`: an unchanged TOAST column takes its
value from `fallback`, the old tuple. -/
def resolveToast (tuple : TupleData) (fallback : Option TupleData) (i : ℕ) :
    Except String TupleColumn :=
  match tuple.getD i .null with
  | .toast =>
    let missing := s!"postgres cdc: unchanged TOAST column {quoted (rel.columnName i)} on " ++
      s!"{rel.fullName} has no old value; set REPLICA IDENTITY FULL"
    match fallback with
    | none => .error missing
    | some old =>
      if old.length ≠ tuple.length ∨ old.getD i .null = .toast then .error missing
      else .ok (old.getD i .null)
  | col => .ok col

variable {V : Type} (fromText : ℕ → Field → String → Except String (Option V))

/-- The cell of one tuple column. -/
def decodeColumn (rel : CdcRelation) (f : Field) (i : ℕ) : TupleColumn → Except String (Option V)
  | .null => .ok none
  | .text data =>
    match fromText ((rel.message.columns[i]?.map RelationColumn.dataType).getD 0) f data with
    | .ok cell => .ok cell
    | .error e =>
      .error s!"postgres cdc: decode {rel.fullName} column {quoted (rel.columnName i)}: {e}"
  | .binary _ =>
    .error <| s!"postgres cdc: column {quoted (rel.columnName i)}: " ++
      "binary tuple data is not supported"
  | .toast =>
    .error <| s!"postgres cdc: column {quoted (rel.columnName i)}: " ++
      "tuple data type 'u' is not materialized"
  | .other b =>
    .error <| s!"postgres cdc: column {quoted (rel.columnName i)}: " ++
      s!"tuple data type {b} is not materialized"

/-- The cell of one schema field: a field without a tuple column is null, and a delete carries only
its key columns. -/
def appendField (rel : CdcRelation) (tuple : TupleData) (fallback : Option TupleData)
    (op : Operation) (fc : Field × Option ℕ) : Except String (Option V) :=
  match fc.2 with
  | none => .ok none
  | some i =>
    if op = .opDelete ∧ i ∉ rel.keys then .ok none
    else do
      let col ← rel.resolveToast tuple fallback i
      rel.decodeColumn fromText fc.1 i col

/-- The tuple's values in schema order. -/
def appendTuple (rel : CdcRelation) (tuple fallback : Option TupleData) (op : Operation) :
    Except String (List (Option V)) := do
  let tuple ← rel.complete tuple
  (rel.schema.fields.zip rel.cols).mapM (rel.appendField fromText tuple fallback op)

/-! ### Tuples that decode -/

variable {fromText} {rel : CdcRelation} {tuple t : TupleData} {fallback : Option TupleData}
  {op : Operation} {i : ℕ}

theorem complete_eq_ok :
    rel.complete (some tuple) = .ok t ↔ tuple.length = rel.message.columns.length ∧ tuple = t := by
  by_cases h : tuple.length = rel.message.columns.length <;> simp [complete, h]

theorem appendTuple_eq_ok {cells : List (Option V)} :
    rel.appendTuple fromText (some tuple) fallback op = .ok cells ↔
      tuple.length = rel.message.columns.length ∧
      List.Forall₂ (fun fc cell => rel.appendField fromText tuple fallback op fc = .ok cell)
        (rel.schema.fields.zip rel.cols) cells := by
  simp only [appendTuple, bind_eq_ok, complete_eq_ok, mapM_eq_ok]
  constructor
  · rintro ⟨t, ⟨hlen, rfl⟩, h⟩
    exact ⟨hlen, h⟩
  · rintro ⟨hlen, h⟩
    exact ⟨tuple, ⟨hlen, rfl⟩, h⟩

/-- The column that decides a value is the tuple's own, or the old tuple's for unchanged TOAST. -/
theorem resolveToast_eq_ok {col : TupleColumn} (h : rel.resolveToast tuple fallback i = .ok col) :
    (tuple.getD i .null ≠ .toast ∧ col = tuple.getD i .null) ∨
    (tuple.getD i .null = .toast ∧ ∃ old, fallback = some old ∧ col = old.getD i .null) := by
  unfold resolveToast at h
  split at h
  · rename_i htoast
    refine .inr ⟨htoast, ?_⟩
    cases fallback with
    | none => cases h
    | some old =>
      simp only at h
      split_ifs at h
      exact ⟨old, rfl, by simpa [eq_comm] using h⟩
  · rename_i htoast
    exact .inl ⟨htoast, by simpa [eq_comm] using h⟩

theorem text_of_keyOf {key : List String} (h : rel.keyOf (some tuple) = .ok key) (hi : i ∈ rel.keys) :
    ∃ s, tuple.getD i .null = .text s := by
  simp only [keyOf, bind_eq_ok, complete_eq_ok, mapM_eq_ok] at h
  obtain ⟨t, ⟨-, rfl⟩, h⟩ := h
  obtain ⟨s, -, hs⟩ := List.Forall₂.exists_of_mem_left h hi
  unfold keyText at hs
  split at hs
  · rename_i data hdata
    exact ⟨data, hdata⟩
  · cases hs

end CdcRelation

end Filament.Postgres
