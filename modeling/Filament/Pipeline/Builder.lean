import Filament.Stream.Epoch

/-!
# Row builders

A source appends the fields of a row in the order of its columns and ends the row; the builder collects
rows until a chunk is due (`arrowbatch/builder.go`, and the audit writer of `pipeline/inlet.go`).

* `Value` : the append methods of a row writer and their arguments;
* `Row`, `Batch` : a row that was ended, and a chunk of rows on its way to the sink;
* `Builder.append`, `Builder.endRow`, `Builder.chunk` : the builder, without the handover of a chunk.
-/

namespace Filament.Pipeline

open Streams

/-- Why an operation of the pipeline failed, with what its text shows. -/
inductive Error where
  | errClosed
  | errMidRow
  | errPipelineClosed
  | errEpochMismatch
  | errIncompleteCoverage
  | rowFull (columns : ℕ)
  | typeMismatch (column : ℕ)
  | rowShort (columns got : ℕ)
  | flushInsideRow
  | oneBuilderPerResource
  | transactionAlreadyOpen
  | transactionEndMismatch
  | progressInsideTransaction
  | ingestionClosedInTransaction
  | invalid (message : String)
  | context (message : String)
  | transform (resource : String) (seq : ℕ) (message : String)
  | write (resource : String) (seq : ℕ) (message : String)
  deriving DecidableEq, Repr

/-! ### Rows -/

/-- The Arrow type of a column. -/
inductive ColumnType where
  | boolean
  | int16
  | int32
  | int64
  | float32
  | float64
  | decimal128
  | string
  | binary
  | date32
  | time64
  | timestamp
  deriving DecidableEq, Repr

/-- An append to the open row: the method with its argument. -/
inductive Value where
  | null
  | bool (v : Bool)
  | int16 (v : Int16)
  | int32 (v : Int32)
  | int64 (v : Int64)
  | float32 (bits : UInt32)
  | float64 (bits : UInt64)
  | decimal (v : BitVec 128)
  | string (v : String)
  | stringBytes (v : List UInt8)
  | bytes (v : List UInt8)
  | date (days : Int32)
  | time (micros : Int64)
  | timestamp (micros : Int64)
  deriving DecidableEq, Repr

namespace Value

/-- The type of column that takes the value; every column takes a null. -/
def columnType : Value → Option ColumnType
  | .null => none
  | .bool _ => some .boolean
  | .int16 _ => some .int16
  | .int32 _ => some .int32
  | .int64 _ => some .int64
  | .float32 _ => some .float32
  | .float64 _ => some .float64
  | .decimal _ => some .decimal128
  | .string _ | .stringBytes _ => some .string
  | .bytes _ => some .binary
  | .date _ => some .date32
  | .time _ => some .time64
  | .timestamp _ => some .timestamp

/-- The value bytes that the chunk grows by. -/
def size : Value → ℕ
  | .null => 0
  | .bool _ => 1
  | .int16 _ => 2
  | .int32 _ | .float32 _ | .date _ => 4
  | .int64 _ | .float64 _ | .time _ | .timestamp _ => 8
  | .decimal _ => 16
  | .string v => v.utf8ByteSize + 4
  | .stringBytes v | .bytes v => v.length + 4

def Fits (v : Value) (t : ColumnType) : Prop := v.columnType = none ∨ v.columnType = some t

instance (v : Value) (t : ColumnType) : Decidable (v.Fits t) := inferInstanceAs (Decidable (_ ∨ _))

end Value

/-- One source event, independent of its run and attempt. -/
structure EventIdentity where
  domain : DomainKey
  position : Position
  ordinal : ℕ
  deriving DecidableEq, Repr

/-- What a source says of a row, as far as a stream reads it. -/
structure Meta where
  op : Operation := .opInsert
  lsn : String := ""
  seq : ℕ := 0
  stream : Option EventIdentity := none
  deriving DecidableEq, Repr

structure Row where
  cells : List Value
  info : Meta
  deriving DecidableEq, Repr

/-- A chunk of rows: its columns are what is written; a plan may replace them, and keeps the number of
rows. -/
structure Batch where
  resource : String
  seq : ℕ
  rows : List Row
  columns : List (List Value)
  deriving DecidableEq, Repr

namespace Batch

def numRows (b : Batch) : ℕ := b.rows.length

/-- The batch with other columns. -/
def withRows (b : Batch) (columns : List (List Value)) : Batch := { b with columns := columns }

end Batch

/-! ### The audit fields -/

/-- Row lineage of a run. -/
structure AuditConfig where
  run : RunID
  runStartedAt : Int64
  cdc : Bool
  deriving DecidableEq, Repr

def operationName : Operation → String
  | .opInsert => "insert"
  | .opUpdate => "update"
  | .opDelete => "delete"

/-- The fields that the audit writer appends when a row ends. -/
def AuditConfig.cells (a : AuditConfig) (info : Meta) : List Value :=
  [.string a.run, .timestamp a.runStartedAt] ++
    if a.cdc then
      .string (operationName info.op) ::
        if info.lsn = "" then [.null, .null]
        else [.string info.lsn, .int64 (Int64.ofNat info.seq)]
    else []

/-! ### The builder -/

/-- Bounds on a chunk; no bound on the bytes is `0`. -/
structure Options where
  maxRows : ℕ
  maxBytes : ℕ
  deriving DecidableEq, Repr

/-- The columns, the open row, and the rows of the open chunk with their bytes. -/
structure Builder where
  schema : List ColumnType
  cells : List Value := []
  rows : List Row := []
  bytes : ℕ := 0
  err : Option Error := none
  flushReq : Bool := false
  closed : Bool := false
  deriving DecidableEq, Repr

namespace Builder

variable (b : Builder)

/-- An append method. -/
def append (v : Value) : Builder :=
  if b.closed then { b with err := some .errClosed }
  else if b.err.isSome then b
  else
    match b.schema[b.cells.length]? with
    | none => { b with err := some (.rowFull b.schema.length) }
    | some t =>
      if v.Fits t then { b with cells := b.cells ++ [v], bytes := b.bytes + v.size }
      else { b with err := some (.typeMismatch b.cells.length) }

def appends (vs : List Value) : Builder := vs.foldl append b

@[simp] theorem append_rows (v : Value) : (b.append v).rows = b.rows := by
  unfold append
  split_ifs
  · rfl
  · rfl
  · split
    · rfl
    · split_ifs <;> rfl

@[simp] theorem appends_rows (vs : List Value) : (b.appends vs).rows = b.rows := by
  induction vs generalizing b with
  | nil => rfl
  | cons v vs ih => exact (ih (b.append v)).trans (append_rows b v)

/-- `EndRow` up to the flush of the chunk. -/
def endRow (info : Meta) : Builder × Option Error :=
  if b.closed then (b, some .errClosed)
  else
    match b.err with
    | some e => ({ b with cells := [] }, some e)
    | none =>
      if b.cells.length ≠ b.schema.length then
        let e := .rowShort b.schema.length b.cells.length
        ({ b with cells := [], err := some e }, some e)
      else ({ b with cells := [], rows := b.rows ++ [⟨b.cells, info⟩] }, none)

theorem endRow_of_ok {b : Builder} {info : Meta} (h : (b.endRow info).2 = none) :
    (b.endRow info).1.rows = b.rows ++ [⟨b.cells, info⟩] ∧ (b.endRow info).1.cells = [] := by
  unfold endRow at h ⊢
  cases herr : b.err with
  | some e =>
    simp only [herr] at h
    split_ifs at h
  | none =>
    simp only [herr] at h ⊢
    split_ifs at h ⊢ with hclosed hlength
    exact ⟨rfl, rfl⟩

/-- A chunk is due: it is full, or the flush timer has asked. -/
def Due (o : Options) (b : Builder) : Prop :=
  o.maxRows ≤ b.rows.length ∨ (0 < o.maxBytes ∧ o.maxBytes ≤ b.bytes) ∨ b.flushReq = true

instance (o : Options) (b : Builder) : Decidable (b.Due o) :=
  inferInstanceAs (Decidable (_ ∨ _ ∨ _))

/-- The columns of a chunk. -/
def columns : List (List Value) :=
  (List.range b.schema.length).map fun i => b.rows.map fun row => row.cells.getD i .null

/-- The builder once its chunk is taken. -/
def taken : Builder := { b with rows := [], bytes := 0 }

def requestFlush : Builder := { b with flushReq := true }

/-- `Close`: unflushed rows are dropped. -/
def close : Builder :=
  if b.closed then b else { b with closed := true, schema := [], rows := [], cells := [] }

end Builder

end Filament.Pipeline
