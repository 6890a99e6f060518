import Filament.Lib.AList
import Filament.Pipeline.Builder

/-!
# The stream pipeline

One producer appends rows, binds and seals epochs and sends controls; a transformer and a writer take
the queued batches to the sink (`pipeline/control.go`, `stream_writer.go`, `message_schema.go`,
`epoch.go`, `barrier.go`, `transform.go`, `writer.go`).

* `State` : the inlet, the two channels, the error of the pipeline, and a log of what happened;
* the operations of the producer, under their names; a barrier waits for its control;
* `transformer`, `writer` : what the goroutines do with the next item;
* `step` : the interleaving.

The channels are not bounded: a producer that waits for room has fewer schedules.  An operation of the
producer is one step up to a barrier's wait; an error that arrives in between is the same as one that
arrives before or after, since the pipeline never recovers from an error.
-/

namespace Filament.Pipeline

open Streams

/-! ### Controls, items and receipts -/

inductive ControlKind where
  | txnBegin
  | txnEnd
  | progressBoundary
  | memberActivated
  deriving DecidableEq, Repr

/-- A boundary of the source, in order with its rows. -/
structure Control where
  kind : ControlKind
  domain : DomainKey
  position : Position
  txnID : String := ""
  resource : String := ""
  membershipRevision : ℤ := 0
  deriving DecidableEq, Repr

/-- The check of a control. -/
def Control.validate (c : Control) : Option Error :=
  if ¬ c.domain.Valid then some (.invalid "progress: missing incarnation or domain")
  else if ¬ c.position.Valid then some (.invalid "progress: missing codec or negative version")
  else
    match c.kind with
    | .txnBegin | .txnEnd =>
      if c.txnID = "" ∨ c.resource ≠ "" ∨ c.membershipRevision ≠ 0 then
        some (.invalid "control: invalid transaction payload")
      else none
    | .progressBoundary =>
      if c.txnID ≠ "" ∨ c.resource ≠ "" ∨ c.membershipRevision ≠ 0 then
        some (.invalid "control: invalid progress payload")
      else none
    | .memberActivated =>
      if c.txnID ≠ "" ∨ c.resource = "" ∨ c.membershipRevision ≤ 0 then
        some (.invalid "control: invalid membership payload")
      else none

/-- The open transactions of the domains. -/
abbrev Transactions := AList fun _ : DomainKey => String

/-- The transactions once a control is accepted. -/
def acceptControl (transactions : Transactions) (c : Control) : Transactions :=
  match c.kind with
  | .txnBegin => transactions.insert c.domain c.txnID
  | .txnEnd => transactions.erase c.domain
  | .progressBoundary | .memberActivated => transactions

/-- What is queued: a batch with the epoch it was sent in, or a control with its sequence number. -/
inductive Item where
  | batch (b : Batch) (epoch : Option EpochRef)
  | control (c : Control) (seq : ℕ)
  deriving DecidableEq, Repr

/-- What a sink says of a batch it applied. -/
structure WriteReceipt where
  rows : ℤ
  bytes : ℤ
  writeCRC : UInt32
  encodedCRC : Option UInt32
  deriving DecidableEq, Repr

/-- What becomes of a batch at the sink: its schema cannot be prepared, the sink fails or panics, or it
returns a receipt. -/
inductive Applied where
  | prepareFails (message : String)
  | fails (message : String)
  | panics (message : String)
  | returns (receipt : WriteReceipt)
  deriving DecidableEq, Repr

/-! ### The state -/

/-- What is recorded: an epoch was bound, a row was ended, the sink returned a receipt for a batch, a
control was accepted, an epoch was sealed. -/
inductive Fact where
  | bound (ref : EpochRef)
  | ended (resource : String) (row : Row)
  | applied (b : Batch) (receipt : WriteReceipt)
  | accepted (c : Control)
  | sealed (proof : EpochCompletion)
  deriving DecidableEq, Repr

abbrev Plan := List (List Value) → Except String (List (List Value))

/-- A pipeline's configuration: ordering, chunk bounds and audit fields; the checks of a schema
(`inlet.Builder`) and of a message layout (`MessageBuilder`) and the columns a schema gives; the plans of
its transform; the check of a batch under its write policy; the checksum of a batch. -/
structure Config where
  strict : Bool
  options : Options
  audit : Option AuditConfig
  admits : String → Schema → Option Error
  admitsMessage : String → Schema → MessageLayout → Option MessageLayout → Option Error
  arrow : Schema → List ColumnType
  transform : Option (String → Schema → Option Plan)
  validateBatch : Batch → Option Error
  integrityCRC : Batch → UInt32
  encodedIntegrity : Bool
  messageSchemas : Option (AList fun _ : String => MessageLayout)

/-- The plan of a resource; without one it bypasses the transformer. -/
def Config.plan (cfg : Config) (resource : String) (model : Schema) : Option Plan :=
  cfg.transform.bind fun plans => plans resource model

/-- A writer of the inlet with its builder; one that `MessageBuilder` replaced is not listed. -/
structure StreamWriter where
  resource : String
  model : Schema
  builder : Builder
  seq : ℕ := 0
  inRow : Bool := false
  closed : Bool := false
  listed : Bool := true
  deriving DecidableEq, Repr

/-- The pipeline; `waiting` is the control of a barrier that has not returned. -/
structure State where
  err : Option Error := none
  done : Bool := false
  cancelled : Bool := false
  closed : Bool := false
  writers : List StreamWriter := []
  active : Option ℕ := none
  transactions : Transactions := ∅
  sequence : ℕ := 0
  epoch : Option EpochRef := none
  touched : Bool := false
  sealed : Bool := false
  epochWritten : Bool := false
  completed : AList (fun _ : DomainKey => Position) := ∅
  epochRows : ℤ := 0
  epochBytes : ℤ := 0
  epochResources : AList (fun _ : String => ℤ × ℤ) := ∅
  messageSchemas : Option (AList fun _ : String => MessageLayout) := none
  transformCh : List Item := []
  batchCh : List Item := []
  receipts : List ℕ := []
  waiting : Option (Control × ℕ) := none
  log : List Fact := []

namespace State

variable (cfg : Config) (s : State)

def record (fact : Fact) : State := { s with log := s.log ++ [fact] }

/-- Records the first error and closes `done`. -/
def setErr (e : Error) : State :=
  { s with err := some (s.err.getD e), done := true, cancelled := true }

/-- `failure`, once `done` is closed. -/
def failure : Error := s.err.getD .errPipelineClosed

/-- Why the inlet takes nothing more. -/
def ready : Option Error :=
  match s.err with
  | some e => some e
  | none => if s.closed ∨ s.done then some .errPipelineClosed else none

/-- Fails the pipeline and returns its error. -/
def fail (e : Error) : State × Option Error := (s.setErr e, (s.setErr e).err)

def setWriter (i : ℕ) (w : StreamWriter) : State :=
  { s with writers := s.writers.set i w }

def modifyWriter (i : ℕ) (f : StreamWriter → StreamWriter) : State :=
  match s.writers[i]? with
  | none => s
  | some w => s.setWriter i (f w)

/-- Queues an item for the transformer or the writer.  A send on a pipeline that is done may be taken or
not. -/
def send (transforms take : Bool) (item : Item) : State × Option Error :=
  if s.done ∧ ¬ take then (s, some s.failure)
  else if transforms then ({ s with transformCh := s.transformCh ++ [item] }, none)
  else ({ s with batchCh := s.batchCh ++ [item] }, none)

/-! ### Writers -/

/-- `Builder.flush` of the writer `w` at `i`: hands over the open chunk. -/
def handOver (i : ℕ) (w : StreamWriter) (take : Bool) : State × Option Error :=
  if w.builder.cells ≠ [] then
    (s.setWriter i { w with builder := { w.builder with err := some .errMidRow } }, some .errMidRow)
  else if w.builder.rows = [] then
    (s.setWriter i { w with builder := { w.builder with flushReq := false } }, none)
  else
    let b : Batch := ⟨w.resource, w.seq, w.builder.rows, w.builder.columns⟩
    match s.send (cfg.plan w.resource w.model).isSome take (.batch b s.epoch) with
    | (s', some e) =>
      (s'.setWriter i { w with
        builder := { w.builder.taken with err := some e }, seq := w.seq + 1 }, some e)
    | (s', none) =>
      (s'.setWriter i { w with
        builder := { w.builder.taken with flushReq := false }, seq := w.seq + 1 }, none)

/-- `streamWriter.Flush` -/
def flushWriter (i : ℕ) (w : StreamWriter) (take : Bool) : State × Option Error :=
  match s.err with
  | some e => (s, some e)
  | none =>
    if w.closed then s.fail .errClosed
    else if w.inRow then s.fail .flushInsideRow
    else if w.builder.closed then s.fail .errClosed
    else
      match w.builder.err with
      | some e => s.fail e
      | none =>
        match s.handOver cfg i w take with
        | (s', some e) => s'.fail e
        | (s', none) => (s', none)

/-- `streamInlet.flush`, over the writers `is`. -/
def flush (cfg : Config) (take : Bool) : List ℕ → State → State × Option Error
  | [], s => (s, none)
  | i :: is, s =>
    match s.writers[i]? with
    | none => flush cfg take is s
    | some w =>
      if w.listed ∧ ¬ w.closed then
        match s.flushWriter cfg i w take with
        | (s', some e) => (s', some e)
        | (s', none) => flush cfg take is s'
      else flush cfg take is s

/-- The other writer that a strict ordering flushes before `i` appends. -/
def switches (i : ℕ) : Option ℕ :=
  if cfg.strict then s.active.filter (· ≠ i) else none

/-- A row begins: nothing is covered any more. -/
def written : State := { s with touched := true, epochWritten := true, completed := ∅ }

/-- A writer enters a row. -/
def enter (i : ℕ) : State :=
  { s with active := some i }.modifyWriter i fun w => { w with inRow := true }

/-- `beforeWrite`: whether the writer may append. -/
def beforeWrite (i : ℕ) (take : Bool) : State × Bool :=
  if s.sealed then (s.setErr .errEpochMismatch, false)
  else
    match s.written.ready, s.writers[i]? with
    | none, some w =>
      if w.closed then (s.written.setErr .errClosed, false)
      else
        match (s.switches cfg i).bind fun j => s.writers[j]?.map fun v => (j, v) with
        | none => (s.written.enter i, true)
        | some (j, v) =>
          match s.written.flushWriter cfg j v take with
          | (s', some _) => (s', false)
          | (s', none) => (s'.enter i, true)
    | _, _ => (s.written, false)

/-- An append method of a writer. -/
def append (i : ℕ) (v : Value) (take : Bool) : State :=
  match s.beforeWrite cfg i take with
  | (s', false) => s'
  | (s', true) => s'.modifyWriter i fun w => { w with builder := w.builder.append v }

/-- `streamWriter.EndRow`; the audit fields come last. -/
def endRow (i : ℕ) (info : Meta) (take : Bool) : State × Option Error :=
  match s.beforeWrite cfg i take with
  | (s', false) => (s', some s'.failure)
  | (s', true) =>
    match s'.writers[i]? with
    | none => (s', none)
    | some w =>
      let full := w.builder.appends (cfg.audit.elim [] fun a => a.cells info)
      let w' := { w with builder := (full.endRow info).1 }
      match (full.endRow info).2 with
      | some e => (s'.setWriter i w').fail e
      | none =>
        let result :=
          if w'.builder.Due cfg.options then (s'.setWriter i w').handOver cfg i w' take
          else (s'.setWriter i w', none)
        match result with
        | (s'', some e) => s''.fail e
        | (s'', none) =>
          ((s''.modifyWriter i fun w => { w with inRow := false }).record
            (.ended w.resource ⟨full.cells, info⟩), none)

/-- `streamWriter.Close` -/
def closeWriter (i : ℕ) (take : Bool) : State × Option Error :=
  match s.writers[i]? with
  | none => (s, none)
  | some w =>
    if w.closed then (s, none)
    else
      let result := s.flushWriter cfg i w take
      let s := { result.1 with active := result.1.active.filter (· ≠ i) }
      (s.modifyWriter i fun w => { w with closed := true, builder := w.builder.close }, result.2)

/-- `streamInlet.Builder` -/
def openBuilder (resource : String) (model : Schema) : State × Option Error :=
  match s.ready with
  | some e => (s, some e)
  | none =>
    if ∃ w ∈ s.writers, w.listed = true ∧ w.resource = resource then
      (s, some .oneBuilderPerResource)
    else
      match cfg.admits resource model with
      | some e => (s, some e)
      | none =>
        ({ s with writers := s.writers ++
          [{ resource := resource, model := model, builder := { schema := cfg.arrow model } }] }, none)

/-- The layout that a message source decodes a resource with. -/
def setMessageSchema (resource : String) (layout : MessageLayout) : State :=
  { s with messageSchemas := some ((s.messageSchemas.getD ∅).insert resource layout) }

/-- `streamInlet.MessageBuilder`: replaces a drained builder before the rows of an epoch. -/
def messageBuilder (resource : String) (model : Schema)
    (layout : MessageLayout) (take : Bool) : State × Option Error :=
  match s.ready with
  | some e => (s, some e)
  | none =>
    if s.epoch = none ∨ s.sealed ∨ s.epochWritten ∨ s.transactions.keys ≠ [] then
      (s, some .errEpochMismatch)
    else
      match cfg.admitsMessage resource model layout (s.messageSchemas.bind fun l => l.lookup resource) with
      | some e => (s, some e)
      | none =>
        match s.writers.findIdx? (fun w => w.listed ∧ w.resource = resource) with
        | none =>
          match s.openBuilder cfg resource model with
          | (s', some e) => (s', some e)
          | (s', none) => (s'.setMessageSchema resource layout, none)
        | some i =>
          match s.writers[i]? with
          | none => (s, none)
          | some w =>
            -- a registered layout has the audit fields, which no model has
            if cfg.audit.isNone ∧ w.model = model then (s.setMessageSchema resource layout, none)
            else
              match s.closeWriter cfg i take with
              | (s', some e) => (s', some e)
              | (s', none) =>
                let s' := s'.modifyWriter i fun w => { w with listed := false }
                match s'.openBuilder cfg resource model with
                | (s'', some e) => (s'', some e)
                | (s'', none) => (s''.setMessageSchema resource layout, none)

/-! ### Controls and epochs -/

/-- `validateControl` -/
def validateControl (c : Control) : Option Error :=
  match c.validate with
  | some e => some e
  | none =>
    let txn := (s.transactions.lookup c.domain).getD ""
    match c.kind with
    | .txnBegin => if txn ≠ "" then some .transactionAlreadyOpen else none
    | .txnEnd => if txn ≠ c.txnID then some .transactionEndMismatch else none
    | .progressBoundary | .memberActivated =>
      if txn ≠ "" then some .progressInsideTransaction else none

/-- `Barrier` up to its wait: flushes the builders and queues the control.  `context` is the error of
the caller's context. -/
def barrier (c : Control) (context : Option String) (take : Bool) : State × Option Error :=
  if s.sealed then (s, some .errEpochMismatch)
  else
    let s := { s with touched := true }
    match s.ready with
    | some e => (s, some e)
    | none =>
      match context with
      | some message => s.fail (.context message)
      | none =>
        match s.validateControl c with
        | some e => s.fail e
        | none =>
          match flush cfg take (List.range s.writers.length) s with
          | (s', some e) => s'.fail e
          | (s', none) =>
            let s' := { s' with sequence := s'.sequence + 1 }
            match s'.send cfg.transform.isSome take (.control c s'.sequence) with
            | (s'', some e) => (s'', some e)
            | (s'', none) => ({ s'' with waiting := some (c, s''.sequence) }, none)

/-- `Barrier` from its wait on: takes the receipt of its control, or sees that the pipeline is done. -/
def receive (context : Option String) (seesDone : Bool) : State × Option Error :=
  match s.waiting with
  | none => (s, none)
  | some (c, seq) =>
    if seq ∈ s.receipts ∧ ¬ (s.done ∧ seesDone) then
      let s := { s with waiting := none }
      match context with
      | some message => s.fail (.context message)
      | none =>
        match s.ready with
        | some e => (s, some e)
        | none =>
          let transactions := acceptControl s.transactions c
          let s := { s with transactions := transactions }.record (.accepted c)
          if s.epoch.isSome ∧ transactions.keys = [] ∧
              (c.kind = .txnEnd ∨ c.kind = .progressBoundary) then
            ({ s with completed := s.completed.insert c.domain c.position }, none)
          else (s, none)
    else if s.done then ({ s with waiting := none }, some s.failure)
    else (s, none)

/-- An epoch may be bound: the first one before anything is written, or the next one of the same attempt
after its predecessor was sealed. -/
def Bindable (ref : EpochRef) : Prop :=
  (s.epoch = none → s.touched = false) ∧
    ∀ last ∈ s.epoch, s.sealed = true ∧ ref.attempt = last.attempt ∧ ref.epoch = last.epoch + 1

instance (ref : EpochRef) : Decidable (s.Bindable ref) :=
  inferInstanceAs (Decidable (_ ∧ _))

/-- `BindEpoch` -/
def bindEpoch (ref : EpochRef) : State × Option Error :=
  match ref.validate, s.ready with
  | .error (.other message), _ => (s, some (.invalid message))
  | .error _, _ => (s, some (.invalid ""))
  | .ok _, some e => (s, some e)
  | .ok _, none =>
    if s.Bindable ref then
      ({ s with
        epoch := some ref, sealed := false, epochWritten := false, completed := ∅
        epochRows := 0, epochBytes := 0, epochResources := ∅ }.record (.bound ref), none)
    else (s, some .errEpochMismatch)

/-- The evidence of an epoch. -/
def completion (ref : EpochRef) : EpochCompletion where
  messageSchemas := s.messageSchemas.map AList.pairs
  binding := ref
  positions := s.completed.pairs
  rows := s.epochRows
  bytes := s.epochBytes
  resources := s.epochResources.pairs

/-- `SealEpoch` -/
def sealEpoch : Except Error (EpochCompletion × State) :=
  match s.ready, s.epoch with
  | some e, _ => .error e
  | none, none => .error .errIncompleteCoverage
  | none, some ref =>
    if s.sealed ∨ s.transactions.keys ≠ [] ∨ s.completed.keys = [] then .error .errIncompleteCoverage
    else .ok (s.completion ref, { s with sealed := true }.record (.sealed (s.completion ref)))

/-- `CloseIngest` -/
def closeIngest (extractErr : Option Error) (take : Bool) : State :=
  let s := { s with closed := true }
  let failed := extractErr.or
    (if s.transactions.keys ≠ [] then some .ingestionClosedInTransaction else none)
  let s := match failed with
    | some e => s.setErr e
    | none =>
      match flush cfg take (List.range s.writers.length) s with
      | (s', some e) => s'.setErr e
      | (s', none) => s'
  { s with writers := s.writers.map fun w => { w with builder := w.builder.close } }

/-! ### The goroutines -/

/-- The model a resource is registered with. -/
def registered (resource : String) : Option Schema :=
  (s.writers.find? fun w => w.listed ∧ w.resource = resource).map StreamWriter.model

/-- The transformer takes the next item; `panic` is the message of a kernel that panics. -/
def transformer (take : Bool) (panic : Option String) : State :=
  match s.transformCh with
  | [] => s
  | item :: rest =>
    let s := { s with transformCh := rest }
    if s.err.isSome then s
    else
      match item with
      | .control _ _ => (s.send false take item).1
      | .batch b epoch =>
        match (s.registered b.resource).bind (cfg.plan b.resource) with
        | none => (s.send false take item).1
        | some plan =>
          match panic, plan b.columns with
          | some message, _ => s.setErr (.transform b.resource b.seq message)
          | none, .error message => s.setErr (.transform b.resource b.seq message)
          | none, .ok columns => (s.send false take (.batch (b.withRows columns) epoch)).1

/-- Adds an applied batch to the totals of the epoch. -/
def addTotals (b : Batch) (receipt : WriteReceipt) : State :=
  let total := (s.epochResources.lookup b.resource).getD (0, 0)
  { s with
    epochRows := s.epochRows + b.numRows
    epochBytes := s.epochBytes + receipt.bytes
    epochResources := s.epochResources.insert b.resource
      (total.1 + b.numRows, total.2 + receipt.bytes) }

/-- `processBatch` -/
def processBatch (b : Batch) (epoch : Option EpochRef) (outcome : Applied) : State :=
  match cfg.validateBatch b, outcome with
  | some e, _ => s.setErr e
  | none, .prepareFails message => s.setErr (.write b.resource b.seq message)
  | none, .fails message => s.setErr (.write b.resource b.seq message)
  | none, .panics message => s.setErr (.write b.resource b.seq message)
  | none, .returns receipt =>
    let s := s.record (.applied b receipt)
    if epoch.isSome ∧ receipt.rows ≠ b.numRows then
      s.setErr (.write b.resource b.seq "incomplete sink receipt")
    else if cfg.encodedIntegrity ∧ receipt.encodedCRC = none then
      s.setErr (.write b.resource b.seq "encoded integrity evidence required")
    else if receipt.writeCRC = cfg.integrityCRC b then
      if epoch.isSome then s.addTotals b receipt else s
    else s.setErr (.write b.resource b.seq "CRC divergence")

/-- The writer takes the next item. -/
def writer (outcome : Applied) : State :=
  match s.batchCh with
  | [] => s
  | item :: rest =>
    let s := { s with batchCh := rest }
    let s := if s.cancelled then s.setErr (.context "context canceled") else s
    if s.err.isSome then s
    else
      match item with
      | .control _ seq => { s with receipts := s.receipts ++ [seq] }
      | .batch b epoch => s.processBatch cfg b epoch outcome

/-- The flush timer asks every builder to flush. -/
def tick : State :=
  { s with writers := s.writers.map fun w => { w with builder := w.builder.requestFlush } }

end State

/-! ### Interleavings -/

/-- The operations of the producer. -/
inductive Op where
  | bindEpoch (ref : EpochRef)
  | openBuilder (resource : String) (model : Schema)
  | messageBuilder (resource : String) (model : Schema) (layout : MessageLayout)
  | append (i : ℕ) (v : Value)
  | endRow (i : ℕ) (info : Meta)
  | flush (i : ℕ)
  | close (i : ℕ)
  | control (c : Control) (context : Option String)
  | sealEpoch
  | closeIngest (extractErr : Option Error)
  deriving DecidableEq, Repr

/-- What happens next: the producer starts an operation, or goes on in a barrier; the transformer or the
writer takes an item; the timer ticks; the pipeline's context is cancelled, `done` is closed after that,
or a barrier's context fails the pipeline. -/
inductive Event where
  | produces (op : Op) (take : Bool)
  | receives (context : Option String) (seesDone : Bool)
  | transforms (take : Bool) (panic : Option String)
  | writes (outcome : Applied)
  | ticks
  | cancels
  | shuts
  | fails (message : String)
  deriving DecidableEq, Repr

/-- An operation of the producer. -/
def State.exec (cfg : Config) (s : State) (take : Bool) : Op → State
  | .bindEpoch ref => (s.bindEpoch ref).1
  | .openBuilder resource model => (s.openBuilder cfg resource model).1
  | .messageBuilder resource model layout => (s.messageBuilder cfg resource model layout take).1
  | .append i v => s.append cfg i v take
  | .endRow i info => (s.endRow cfg i info take).1
  | .flush i =>
    match s.writers[i]? with
    | none => s
    | some w => (s.flushWriter cfg i w take).1
  | .close i => (s.closeWriter cfg i take).1
  | .control c context => (s.barrier cfg c context take).1
  | .sealEpoch =>
    match s.sealEpoch with
    | .error _ => s
    | .ok (_, s') => s'
  | .closeIngest extractErr => s.closeIngest cfg extractErr take

def step (cfg : Config) (s : State) : Event → State
  -- the operations of the producer are serialized
  | .produces op take => if s.waiting = none then s.exec cfg take op else s
  | .receives context seesDone => (s.receive context seesDone).1
  | .transforms take panic => s.transformer cfg take panic
  | .writes outcome => s.writer cfg outcome
  | .ticks => s.tick
  | .cancels => { s with cancelled := true }
  | .shuts => if s.cancelled then { s with done := true } else s
  | .fails message => s.setErr (.context message)

def State.fresh (cfg : Config) : State := { messageSchemas := cfg.messageSchemas }

end Filament.Pipeline
