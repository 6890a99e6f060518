import Filament.Lib.Trace

/-!
# A bounded run

`runner/runner.go` executes one bounded run: `RunOne` announces it, makes its setup calls one after
the other, lets the extractor fill the pipeline while the transformers and the writers drain it,
and finishes with the sink's `Commit` or with `finishControlled`.  Meanwhile `runner/control.go`
takes the pause and cancel commands.  A run here is any list of `Event`s: the outcomes of the calls,
the moves of the pipeline's goroutines, the commands and the end of the host's context may come in
any order.

* `Call`, `Config.calls` : the setup calls, with how `RunOne` leaves after each of them fails;
* `request`, `sealControl`, `stoppedByControl` : the control of the run;
* `queue`, `closeIngest`, `transformed`, `written` : the pipeline of a bounded run;
* `concludes`, `finishControlled`, `commits` : what follows the pipeline's `Wait`;
* `step` : one event.

The history `log` keeps the run facts, the commands the control accepted, the reads of the control
that settle the outcome, and every extracted, applied and committed unit of work.
-/

namespace Filament.RunOne

/-! ### Outcomes -/

/-- What a pause or a cancel command asks for. -/
inductive Signal where
  | none
  | pause
  | cancel
  deriving Repr, DecidableEq

/-- An error of a call, as `errors.Is(err, context.Canceled)` sorts it. -/
inductive Failure where
  | canceled
  | other (message : String)
  deriving Repr, DecidableEq

/-- The facts that end a run. -/
inductive Terminal where
  | completed
  | failed
  | resumable
  | paused (committed : Bool)
  | canceled
  deriving Repr, DecidableEq

/-- What identifies a batch of the run. -/
structure BatchID where
  resource : String
  part : Nat
  seq : Nat
  deriving Repr, DecidableEq

/-- What the history of a run records. -/
inductive Fact where
  /-- `run.started` was published. -/
  | started
  /-- The control accepted a command. -/
  | requested (signal : Signal)
  /-- The control was read for the outcome of the run. -/
  | decided (signal : Signal)
  /-- The pipeline accepted a batch of the extractor. -/
  | extracted (batch : BatchID)
  /-- The pipeline refused a batch of the extractor. -/
  | refused (batch : BatchID)
  /-- The sink applied a batch. -/
  | applied (batch : BatchID)
  /-- The sink's `Commit` returned success. -/
  | committed
  /-- The sink's `Abort` was called. -/
  | aborted
  /-- A terminal fact was published. -/
  | terminal (outcome : Terminal)
  deriving Repr, DecidableEq

/-! ### The setup calls -/

/-- The calls `RunOne` makes between `run.started` and the pipeline. -/
inductive Call where
  | resolveConfigRefs
  | resolveSource
  | bindSecrets
  | bindReplicationStream
  | configure
  | selectColumns
  | selectPartitions
  | planResources
  | resolveSink
  | resolveIngestionPlan
  | replicationStreamStore
  | reconcileReplicationStreamResources
  | resync (resource : String)
  | prepareSinkResources
  | openSink
  | beginSink
  | parseTransform
  | ensureSchemas
  | resolveExtractor
  deriving Repr, DecidableEq

/-- Whether a failure of the call goes through `emitControlledIfStopped`. -/
def Call.stoppable : Call → Bool
  | .resolveConfigRefs => true
  | .configure => true
  | .planResources => true
  | .resolveIngestionPlan => true
  | .reconcileReplicationStreamResources => true
  | .prepareSinkResources => true
  | .openSink => true
  | .beginSink => true
  | .ensureSchemas => true
  | .resolveExtractor => true
  | _ => false

/-- Whether a failure of the call aborts the sink. -/
def Call.aborts : Call → Bool
  | .parseTransform => true
  | .ensureSchemas => true
  | .resolveExtractor => true
  | _ => false

/-- What `RunOne` reads of the specification and of its plan. -/
structure Config where
  /-- The plan requires CDC and the specification names a replication stream. -/
  streamed : Bool
  /-- The resources to resync that have a checkpoint key. -/
  resync : List String
  /-- The specification has a transform. -/
  transform : Bool
  /-- The resources the transform names. -/
  transforms : String → Bool
  /-- The plan requires CDC. -/
  requiresCDC : Bool
  /-- `CheckpointCoverageFor` is `CheckpointCoverageAll`. -/
  coversAll : Bool
  /-- `isResumableRun`. -/
  resumable : Bool

/-- The setup calls in their order. -/
def Config.calls (cfg : Config) : List Call :=
  [.resolveConfigRefs, .resolveSource, .bindSecrets, .bindReplicationStream, .configure,
    .selectColumns, .selectPartitions, .planResources, .resolveSink, .resolveIngestionPlan] ++
  (if cfg.streamed then [.replicationStreamStore, .reconcileReplicationStreamResources] else []) ++
  cfg.resync.map .resync ++
  [.prepareSinkResources, .openSink, .beginSink] ++
  (if cfg.transform then [.parseTransform] else []) ++
  [.ensureSchemas, .resolveExtractor]

/-! ### The state of a run -/

/-- What is left to do once the outcome is settled. -/
inductive Action where
  | abort
  | emit (outcome : Terminal)
  deriving Repr, DecidableEq

/-- Where `RunOne` is. -/
inductive Phase where
  /-- At the checks of the specification, before any effect. -/
  | validating
  /-- In `prepareRunExecution`. -/
  | preparing
  /-- Publishing `run.started`. -/
  | admitting
  /-- In the setup call `call`, with `rest` to follow. -/
  | setup (call : Call) (rest : List Call)
  /-- The pipeline runs. -/
  | extracting
  /-- About to seal the control; `stopped` when `stoppedByControl` held. -/
  | sealing (stopped : Bool)
  /-- In `Commit`; the run ends with `outcome` when it succeeds. -/
  | committing (outcome : Terminal)
  /-- The outcome is settled. -/
  | ending (rest : List Action)
  /-- Returned an error before `run.started` was published. -/
  | rejected
  deriving Repr, DecidableEq

/-- The state of a run: its control, its pipeline and its history. -/
structure State where
  phase : Phase
  /-- The control's pending command, and whether it is sealed. -/
  signal : Signal
  sealed : Bool
  /-- The extraction context is done. -/
  extractCanceled : Bool
  /-- The run's context is done. -/
  ctxCanceled : Bool
  /-- The pipeline's first error, and whether its context is done. -/
  err : Option String
  done : Bool
  /-- The channel of the transformers and the batches they hold. -/
  transformCh : List BatchID
  transforming : List BatchID
  /-- The channel of the writers and the batches they hold. -/
  batchCh : List BatchID
  writing : List BatchID
  /-- The error of a builder whose batch was refused. -/
  builderErr : Option String
  /-- The extractor's result, once it has returned and its ingest is closed. -/
  extractErr : Option (Option Failure)
  log : List Fact

/-- A run before its first instruction. -/
def fresh : State where
  phase := .validating
  signal := .none
  sealed := false
  extractCanceled := false
  ctxCanceled := false
  err := none
  done := false
  transformCh := []
  transforming := []
  batchCh := []
  writing := []
  builderErr := none
  extractErr := none
  log := []

variable (cfg : Config) (s : State)

/-- Add a fact to the history. -/
def State.record (fact : Fact) : State := { s with log := s.log ++ [fact] }

/-! ### The control -/

/-- The command `signal` reaches the control: a cancel overrides a pause, a sealed control takes
nothing. -/
def request (signal : Signal) : State :=
  if s.sealed then s
  else
    let next := match signal with
      | .cancel => Signal.cancel
      | .pause => if s.signal = .none then .pause else s.signal
      | .none => s.signal
    { s with signal := next, extractCanceled := true }.record (.requested signal)

/-- Whether a result of a call that took the extraction context is explained by the control. -/
def stoppedByControl (err : Option Failure) : Bool :=
  s.extractCanceled && s.signal != .none && (err == none || err == some .canceled)

/-- The terminal fact of a run stopped before its pipeline. -/
def controlled : Signal → Terminal
  | .cancel => .canceled
  | _ => .paused false

/-! ### The setup -/

/-- Go on to the first of the setup calls, or to the pipeline when none is left. -/
def proceed : List Call → Phase
  | [] => .extracting
  | call :: rest => .setup call rest

/-- What the failing of a setup call leaves to do. -/
def leave (call : Call) (outcome : Terminal) : List Action :=
  (if call.aborts then [.abort] else []) ++ [.emit outcome]

/-- The setup call `call` returns. -/
def returns (call : Call) (rest : List Call) : Option Failure → State
  | none => { s with phase := proceed rest }
  | some err =>
    if call.stoppable && stoppedByControl s (some err) then
      { s with phase := .ending (leave call (controlled s.signal)) }.record (.decided s.signal)
    else { s with phase := .ending (leave call .failed) }

/-! ### The pipeline -/

/-- Keep the first error of the pipeline and end its context. -/
def setErr (message : String) : State :=
  { s with err := some (s.err.getD message), done := true }

/-- A builder hands a batch over; with the pipeline's context done and room in the channel Go
chooses either branch of the `select`, here by `take`. -/
def queue (batch : BatchID) (take : Bool) : State :=
  if s.done && !take then
    { s with builderErr := some (s.err.getD "pipeline closed") }.record (.refused batch)
  else if cfg.transforms batch.resource then
    { s with transformCh := s.transformCh ++ [batch] }.record (.extracted batch)
  else { s with batchCh := s.batchCh ++ [batch] }.record (.extracted batch)

/-- The last batches of the builders are handed over. -/
def flush (batches : List (BatchID × Bool)) : State :=
  batches.foldl (fun s b => queue cfg s b.1 b.2) s

/-- `CloseIngest(err)`: a clean end flushes the builders and reports their errors, a failed one
discards what they hold. -/
def closeIngest (result : Option Failure) (batches : List (BatchID × Bool)) : State :=
  match result with
  | none =>
    let flushed := { flush cfg s batches with extractErr := some none }
    match flushed.builderErr with
    | none => flushed
    | some message => setErr flushed message
  | some err => { s with extractErr := some (some err) }

/-- A transformer takes the head of its channel. -/
def takeTransform : State :=
  match s.transformCh with
  | [] => s
  | b :: rest =>
    if s.err.isSome then { s with transformCh := rest }
    else { s with transformCh := rest, transforming := b :: s.transforming }

/-- A transformer finishes a batch it holds: its plan failed, or the result is sent on unless the
pipeline's context is done and Go chooses that branch. -/
def transformed (batch : BatchID) (result : Option String) (take : Bool) : State :=
  if batch ∈ s.transforming then
    let s := { s with transforming := s.transforming.erase batch }
    match result with
    | some message => setErr s message
    | none => if s.done && !take then s else { s with batchCh := s.batchCh ++ [batch] }
  else s

/-- A writer takes the head of its channel. -/
def takeWrite : State :=
  match s.batchCh with
  | [] => s
  | b :: rest =>
    if s.err.isSome then { s with batchCh := rest }
    else { s with batchCh := rest, writing := b :: s.writing }

/-- A writer finishes a batch it holds: the sink applied it, or an error of `processBatch` fails
the pipeline. -/
def written (batch : BatchID) (result : Option String) : State :=
  if batch ∈ s.writing then
    let s := { s with writing := s.writing.erase batch }
    match result with
    | some message => setErr s message
    | none => s.record (.applied batch)
  else s

/-- The transformers and the writers have nothing left. -/
def State.drained : Bool :=
  s.transformCh.isEmpty && s.transforming.isEmpty && s.batchCh.isEmpty && s.writing.isEmpty

/-! ### The end -/

/-- After `Wait` and the extractor's result. -/
def concludes (extractErr : Option Failure) : State :=
  if s.err.isNone && stoppedByControl s extractErr then { s with phase := .sealing true }
  else if s.err.isSome || extractErr.isSome then
    if cfg.resumable then { s with phase := .ending [.emit .resumable] }
    else { s with phase := .ending [.emit .failed, .abort] }
  else { s with phase := .sealing false }

/-- How a run ends that a command stopped after its pipeline drained. -/
def finishControlled : Signal → Phase
  | .cancel => .ending [.abort, .emit .canceled]
  | _ =>
    if cfg.requiresCDC || cfg.coversAll then .committing (.paused true)
    else .ending [.abort, .emit (.paused false)]

/-- Seal the control and go on with what it holds. -/
def sealControl (stopped : Bool) : State :=
  let next := if stopped || s.signal != .none then finishControlled cfg s.signal
    else .committing .completed
  { s with sealed := true, phase := next }.record (.decided s.signal)

/-- The sink's `Commit` returns. -/
def commits (outcome : Terminal) (ok : Bool) : State :=
  if ok then { s with phase := .ending [.emit outcome] }.record .committed
  else { s with phase := .ending [.emit .failed, .abort] }

/-- Carry out one of the actions that are left. -/
def act (rest : List Action) : Action → State
  | .abort => { s with phase := .ending rest }.record .aborted
  | .emit outcome => { s with phase := .ending rest }.record (.terminal outcome)

/-! ### Runs -/

/-- An event of a run. -/
inductive Event where
  /-- The checks of the specification return. -/
  | validates (ok : Bool)
  /-- `prepareRunExecution` returns. -/
  | prepares (ok : Bool)
  /-- Publishing `run.started` returns. -/
  | admits (ok : Bool)
  /-- The next setup call returns. -/
  | returns (result : Option Failure)
  /-- A command arrives. -/
  | signals (signal : Signal)
  /-- The host ends the run's context. -/
  | cancels
  /-- The pipeline's context sees the end of the run's. -/
  | shuts
  /-- The extractor's builder hands over a batch. -/
  | extracts (batch : BatchID) (take : Bool)
  /-- The extractor returns, with the batches its builders still hold. -/
  | extracted (result : Option Failure) (batches : List (BatchID × Bool))
  | takesTransform
  | transforms (batch : BatchID) (result : Option String) (take : Bool)
  | takesWrite
  | writes (batch : BatchID) (result : Option String)
  /-- `Wait` and the extractor's result are there. -/
  | waited
  | seals
  /-- `Commit` returns. -/
  | commits (ok : Bool)
  /-- The next of the remaining actions. -/
  | acts

/-- One event; an event that is not possible in a state changes nothing. -/
def step : Event → State
  | .validates ok =>
    match s.phase with
    | .validating => { s with phase := if ok then .preparing else .rejected }
    | _ => s
  | .prepares ok =>
    match s.phase with
    | .preparing => { s with phase := if ok then .admitting else .ending [.emit .failed] }
    | _ => s
  | .admits ok =>
    match s.phase with
    | .admitting =>
      if ok then { s with phase := proceed cfg.calls }.record .started
      else { s with phase := .rejected }
    | _ => s
  | .returns result =>
    match s.phase with
    | .setup call rest => returns s call rest result
    | _ => s
  | .signals signal => request s signal
  | .cancels => { s with ctxCanceled := true, extractCanceled := true }
  | .shuts => if s.ctxCanceled then { s with done := true } else s
  | .extracts batch take =>
    if s.phase = .extracting ∧ s.extractErr = none then queue cfg s batch take else s
  | .extracted result batches =>
    if s.phase = .extracting ∧ s.extractErr = none then closeIngest cfg s result batches else s
  | .takesTransform => takeTransform s
  | .transforms batch result take => transformed s batch result take
  | .takesWrite => takeWrite s
  | .writes batch result => written s batch result
  | .waited =>
    match s.phase, s.extractErr with
    | .extracting, some extractErr => if s.drained then concludes cfg s extractErr else s
    | _, _ => s
  | .seals =>
    match s.phase with
    | .sealing stopped => sealControl cfg s stopped
    | _ => s
  | .commits ok =>
    match s.phase with
    | .committing outcome => commits s outcome ok
    | _ => s
  | .acts =>
    match s.phase with
    | .ending (action :: rest) => act s rest action
    | _ => s

end Filament.RunOne
