import Filament.Lib.History
import Filament.Stream.EpochLog

/-!
# The continuous runner

`runner/continuous.go` runs an admitted attempt: it binds an epoch, reads it from the source into the
sink, seals it, commits the sink, certifies the epoch in the store, renews its lease and acknowledges
the source.  Workers share the store, every call can fail or lose its response, and a request that was
sent can still arrive after its caller has given up.

* `Worker`, `Phase` : a worker and the call that it makes next;
* `Reply` : what becomes of that call;
* `World` : the store, the workers, the certificates that were sent to the store, and a log of what
  happened;
* `World.step` : another client uses the store, a request arrives late, a worker is dispatched, or a
  worker makes its next call.
-/

namespace Filament.Runner

open Streams Except

/-! ### What a worker reads from the store -/

/-- The state of a stream, as far as the runner reads it. -/
structure StreamState where
  attempt : Option LeaseToken
  desired : StreamDesiredState
  pipelineVersionID : String
  run : RunID
  lastEpoch : Option ℕ
  membershipRevision : ℕ
  deriving DecidableEq, Repr

/-- The lease of an attempt; the row must have its specification. -/
def attemptFromRow (row : StreamAttempt) (stream : ReplicationStream) :
    Except StreamError (RunSpec × LeaseToken) := do
  let spec ← ofOption (.other "stream: attempt spec") row.runSpec
  return (spec, ⟨row.tenantID, ⟨spec.run, row.executionID, stream.id, stream.generation, row.token⟩⟩)

/-- `LoadStreamState` -/
def loadStreamState (t : Tables) (req : StreamStateRequest) : Except StreamError StreamState := do
  let stream ← lockRuntime t req
  let a ← ofOption .errNotFound (t.getStreamExecution stream.id stream.tenantID)
  let attempt ←
    match Table.newest (fun row => row.streamID = stream.id ∧ row.tenantID = stream.tenantID)
        StreamAttempt.token t.attempts with
    | none => pure none
    | some row => do
      let (spec, lease) ← attemptFromRow row stream
      pure (if spec.run = a.runID then some lease else none)
  return {
    attempt := attempt
    desired := a.desiredState
    pipelineVersionID := a.pipelineVersionID
    run := a.runID
    lastEpoch := if 0 < a.lastEpoch then some a.lastEpoch else none
    membershipRevision := stream.membershipRevision }

/-- `GetEpoch`: the certificate stored for the key of an epoch. -/
def getEpoch (t : Tables) (tenant : TenantID) (ref : EpochRef) :
    Except StreamError EpochCertificate := do
  require (tenant ≠ "" ∧ 0 < ref.epoch) .errNotFound
  let _ ← ofOption .errNotFound
    (t.getReplicationStreamPipelineID ref.attempt.streamID tenant ref.attempt.generation)
  let row ← ofOption .errNotFound (t.getStreamEpoch ref.attempt.streamID tenant ref.epoch)
  return row.certificate

/-! ### Workers -/

/-- The next call of a worker. -/
inductive Phase where
  | load
  | own
  | bindEpoch
  | beginSink (ref : EpochRef)
  | read (ref : EpochRef)
  | sealEpoch (ref : EpochRef) (coverage : Coverage)
  | commitSink (c : EpochCommit)
  | commitEpoch (c : EpochCommit)
  | getEpoch (c : EpochCommit)
  | renewLease (c : EpochCommit)
  | acknowledge (c : EpochCommit)
  | reload
  | ended
  deriving DecidableEq, Repr

/-- A worker of an admitted attempt. -/
structure Worker where
  spec : RunSpec
  attempt : AttemptRef
  messagePolicy : Bool
  epoch : ℕ
  membershipRevision : ℕ
  phase : Phase
  deriving DecidableEq, Repr

namespace Worker

def lease (k : Worker) : LeaseToken := ⟨k.spec.request.tenant, k.attempt⟩

def ref (k : Worker) : EpochRef := ⟨k.attempt, k.epoch, k.membershipRevision⟩

/-- The worker returns. -/
def stop (k : Worker) : Worker := { k with phase := .ended }

/-- `messageEpochCommit`, with a receipt for every resource of the proof. -/
def messageEpochCommit (k : Worker) (ref : EpochRef) (coverage : Coverage)
    (proof : EpochCompletion) : EpochCommit where
  certificate := {
    formatVersion := if k.messagePolicy then 2 else 1
    tenant := k.spec.request.tenant
    ref := ref
    pipelineVersionID := k.spec.request.pipelineVersionID
    coverage := coverage
    receipts := proof.resources.map fun total => ⟨total.1, total.2.1, total.2.2, 0, none⟩
    records := proof.rows
    bytes := proof.bytes
    messageSchemas := if k.messagePolicy then proof.messageSchemas else none }
  completion := proof

end Worker

/-- What becomes of a call: it fails, or the runner is told to stop; it returns; a read or a seal
returns its result; the store does it and answers; or the store does it and the answer is lost. -/
inductive Reply where
  | fails
  | returns
  | covers (coverage : Coverage)
  | seals (proof : EpochCompletion)
  | answers (began wait work : ℕ)
  | loses (began wait work : ℕ)
  deriving DecidableEq, Repr

/-! ### The world -/

/-- What is recorded: the sink committed the rows of an epoch, the store inserted a certificate, a
worker saw its lease renewed, a worker acknowledged a coverage to the source. -/
inductive Fact where
  | committed (ref : EpochRef) (proof : EpochCompletion)
  | stored (cert : EpochCertificate)
  | renewed (lease : LeaseToken)
  | acknowledged (ref : EpochRef) (coverage : Coverage)
  deriving DecidableEq, Repr

/-- The codecs of the store and of the runner, and the time to live of a lease. -/
structure Config where
  store : Codecs
  codecs : Codecs
  leaseTTL : ℕ

structure World where
  system : System
  workers : List Worker
  sent : List EpochCommit
  log : List Fact

namespace World

def fresh (pipelines : String → Option Pipeline) : World := ⟨.fresh pipelines, [], [], []⟩

def tables (w : World) : Tables := w.system.tables

def record (w : World) (fact : Fact) : World := { w with log := w.log ++ [fact] }

variable (cfg : Config) (w : World) (k : Worker)

/-- The store does an operation; a certificate that it inserts is recorded. -/
def perform (e : Event) : World :=
  let system := Streams.step cfg.store w.system e
  { w with
    system := system
    log := w.log ++ (system.tables.epochs.drop w.tables.epochs.length).map fun row =>
      .stored row.certificate }

/-- A worker calls the store; the result says whether it sees a success. -/
def call (op : Op) : Reply → World × Bool
  | .answers began wait work =>
    (w.perform cfg ⟨op, began, wait, work⟩,
      (exec cfg.store w.tables (w.system.reading ⟨op, began, wait, work⟩) op).isOk)
  | .loses began wait work => (w.perform cfg ⟨op, began, wait, work⟩, false)
  | _ => (w, false)

/-- A worker renews its lease and goes on to `phase`, or ends. -/
def renew (reply : Reply) (phase : Phase) : World × Worker :=
  let result := w.call cfg (.renew k.lease cfg.leaseTTL) reply
  if result.2 then (result.1.record (.renewed k.lease), { k with phase := phase })
  else (result.1, k.stop)

/-- A worker certifies its epoch; without an answer it looks the epoch up. -/
def certify (c : EpochCommit) (reply : Reply) : World × Worker :=
  let result := w.call cfg (.commit c) reply
  (result.1, { k with phase := if result.2 then .renewLease c else .getEpoch c })

/-- The next call of a worker, from `loadContinuousAttemptState` and `runEpochs`. -/
def next (reply : Reply) : World × Worker :=
  match k.phase with
  | .load =>
    match reply, loadStreamState w.tables (requestOf k.lease) with
    | .returns, .ok state =>
      if state.attempt = some k.lease ∧ state.desired = .enabled ∧
          state.pipelineVersionID = k.spec.request.pipelineVersionID ∧ state.run = k.spec.run then
        (w, { k with
          epoch := state.lastEpoch.getD 0 + 1
          membershipRevision := state.membershipRevision
          phase := .own })
      else (w, k.stop)
    | _, _ => (w, k.stop)
  | .own => w.renew cfg k reply .bindEpoch
  | .bindEpoch =>
    match reply with
    | .returns => (w, { k with phase := .beginSink k.ref })
    | _ => (w, k.stop)
  | .beginSink ref =>
    match reply with
    | .returns => (w, { k with phase := .read ref })
    | _ => (w, k.stop)
  | .read ref =>
    match reply with
    | .covers coverage =>
      if coverage.claims ≠ [] then (w, k.stop)
      -- an empty read is tried again
      else if coverage.positions = [] then (w, k)
      else (w, { k with phase := .sealEpoch ref coverage })
    | _ => (w, k.stop)
  | .sealEpoch ref coverage =>
    match reply with
    | .seals proof =>
      let c := k.messageEpochCommit ref coverage proof
      if (c.validateCompletion cfg.codecs).isOk then (w, { k with phase := .commitSink c })
      else (w, k.stop)
    | _ => (w, k.stop)
  | .commitSink c =>
    match reply with
    | .returns =>
      (w.record (.committed c.certificate.ref c.completion), { k with phase := .commitEpoch c })
    | _ => (w, k.stop)
  | .commitEpoch c => { w with sent := w.sent ++ [c] }.certify cfg k c reply
  | .getEpoch c =>
    match reply, Runner.getEpoch w.tables k.spec.request.tenant c.certificate.ref with
    | .returns, .ok historical =>
      -- a lost response is verified against the stored certificate
      match c.certificate.canonicalBytes cfg.codecs, historical.canonicalBytes cfg.codecs with
      | .ok expected, .ok actual =>
        if expected = actual then (w, { k with phase := .renewLease c }) else (w, k.stop)
      | _, _ => (w, k.stop)
    | _, _ => (w, k.stop)
  | .renewLease c => w.renew cfg k reply (.acknowledge c)
  | .acknowledge c =>
    let w := w.record (.acknowledged c.certificate.ref c.certificate.coverage)
    match reply with
    | .returns =>
      if c.certificate.coverage.activated ≠ [] then (w, { k with phase := .reload })
      else (w, { k with epoch := k.epoch + 1, phase := .bindEpoch })
    | _ => (w, k.stop)
  | .reload =>
    match reply, loadStreamState w.tables (requestOf k.lease) with
    | .returns, .ok state =>
      (w, { k with
        epoch := k.epoch + 1
        membershipRevision := state.membershipRevision
        phase := .bindEpoch })
    | _, _ => (w, k.stop)
  | .ended => (w, k)

/-- The world after the worker `i` went on. -/
def put (i : ℕ) (result : World × Worker) : World :=
  { result.1 with workers := result.1.workers.set i result.2 }

/-- A worker starts when it claims the attempt it was dispatched with (`ExecuteContinuousAttempt`). -/
def dispatch (spec : RunSpec) (messagePolicy : Bool) (reply : Reply) : World :=
  match spec.streamAttempt with
  | none => w
  | some attempt =>
    let result := w.call cfg (.claim ⟨spec.request.tenant, attempt⟩) reply
    if result.2 then
      { result.1 with workers := result.1.workers ++ [⟨spec, attempt, messagePolicy, 0, 0, .load⟩] }
    else result.1

end World

/-- What happens next. -/
inductive Act where
  | other (e : Event)
  | arrives (i : ℕ) (began wait work : ℕ)
  | dispatches (spec : RunSpec) (messagePolicy : Bool) (reply : Reply)
  | works (i : ℕ) (reply : Reply)
  deriving DecidableEq, Repr

/-- Another client uses the store, a certificate that was sent arrives late or once more, a worker is
dispatched, or a worker goes on. -/
def World.step (cfg : Config) (w : World) : Act → World
  | .other e =>
    -- only workers commit epochs
    match e.op with
    | .commit _ => w
    | _ => w.perform cfg e
  | .arrives i began wait work =>
    match w.sent[i]? with
    | some c => w.perform cfg ⟨.commit c, began, wait, work⟩
    | none => w
  | .dispatches spec messagePolicy reply => w.dispatch cfg spec messagePolicy reply
  | .works i reply =>
    match w.workers[i]? with
    | some k => put i (w.next cfg k reply)
    | none => w

end Filament.Runner
