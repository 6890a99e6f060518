import Filament.Stream.Statements

/-!
# Control of replication streams

Run admission and the intent of a stream (`stream_control.go`, `stream_runtime.go`,
`replication_streams.go` and the run admission of `store.go`).

* `lockRuntime` : how every operation finds its stream;
* `resolveReplicationStream` : reuse of the active generation of a route, or its replacement;
* `queueStreamSuccessor`, `cancelStreamSuccessor`, `promoteStreamSuccessor`, `settleStoppedStream` :
  a run submitted against a live stream waits for the stream to stop, and then takes over;
* `createRun`, `activateStream`, `setDesiredState` : the operations.

Every operation is one transaction: it returns the new tables, or an error and the tables stay.
-/

namespace Filament.Streams

open Except Table

/-- A tenant-scoped stream generation. -/
structure StreamStateRequest where
  tenant : TenantID
  stream : StreamRef
  deriving DecidableEq, Repr

/-- Locks the pipeline, then the generation. -/
def lockRuntime (t : Tables) (req : StreamStateRequest) : Except StreamError ReplicationStream := do
  require (req.tenant ≠ "" ∧ req.stream.id ≠ "" ∧ 0 < req.stream.generation) .errNotFound
  let pipeline ← ofOption .errNotFound
    (t.getReplicationStreamPipelineID req.stream.id req.tenant req.stream.generation)
  require (t.LockPipelineForReplicationStream pipeline req.tenant) .errNotFound
  ofOption .errNotFound
    (t.lockReplicationStreamGeneration req.stream.id req.tenant req.stream.generation)

/-! ### Membership -/

/-- The columns of a member that count as its membership. -/
def Member.membership (m : Member) : String × TenantID × String × MemberStatus × String :=
  (m.streamID, m.tenantID, m.resourceName, m.status, m.bootstrapMode)

/-- `sameReplicationStreamMembership` -/
def sameReplicationStreamMembership (a b : List Member) : Prop :=
  a.map Member.membership = b.map Member.membership

instance (a b : List Member) : Decidable (sameReplicationStreamMembership a b) :=
  inferInstanceAs (Decidable (_ = _))

/-- Applies the desired membership: unknown and retired names become pending, names left out are
retired, active names in `reset` go back to pending.  Any change moves the membership revision. -/
def reconcileStreamMembership (t : Tables) (id : String) (tenant : TenantID) (names : List String)
    (bootstrapMode : String) (reset : List String) : Tables :=
  let upserted := names.foldl
    (fun t name => t.upsertReplicationStreamResource id tenant bootstrapMode name) t
  let retired := upserted.retireReplicationStreamResources id names
  let after := if reset = [] then retired else retired.resetStreamMembers id tenant reset
  if sameReplicationStreamMembership (t.listReplicationStreamResources id)
      (after.listReplicationStreamResources id) then after
  else after.bumpReplicationStreamMembershipRevision id tenant

variable (t : Tables) (stream : ReplicationStream) (req : StreamStateRequest)

/-- Reconciles the members of a generation to a new specification: resources to resync and resources
whose shape changed start over. -/
def reviseStreamMembership (spec : RunSpec) : Tables :=
  let previous := stream.runSpec.getD ⟨"", none, .zero, "", none⟩
  reconcileStreamMembership t stream.id stream.tenantID spec.request.resources "snapshot"
    (spec.request.resync ++ changedResources spec previous)

/-- A name without a visible character. -/
def blank (name : String) : Prop := ∀ c ∈ name.toList, c.isWhitespace

instance (name : String) : Decidable (blank name) :=
  inferInstanceAs (Decidable (∀ c ∈ name.toList, _))

/-- Records the complete desired membership of a stream. -/
def reconcileReplicationStreamResources (id : String) (tenant : TenantID)
    (resources : List String) (bootstrapMode : String) : Except StreamError Tables := do
  require (id ≠ "" ∧ tenant ≠ "" ∧ ¬ blank bootstrapMode)
    (.other "reconcile replication stream resources: required identity is missing")
  let names := (resources.insertionSort (· ≤ ·)).dedup
  require (∀ name ∈ names, ¬ blank name)
    (.other "reconcile replication stream resources: resource name is empty")
  require (t.LockReplicationStream id tenant) .errNotFound
  return reconcileStreamMembership t id tenant names bootstrapMode []

/-! ### Generations -/

/-- The stream a run asks for. -/
structure DesiredStream where
  id : String
  tenant : TenantID
  pipelineID : String
  route : String
  sourceConnectionID : String
  sinkConnectionID : String
  consumerName : String
  continuityFingerprint : String
  createdFromPipelineVersionID : String
  deriving DecidableEq, Repr

/-- The row of a new generation. -/
def DesiredStream.row (d : DesiredStream) (generation : ℕ) : ReplicationStream :=
  { id := d.id, tenantID := d.tenant, pipelineID := d.pipelineID, routeKey := d.route,
    generation := generation, sourceConnectionID := d.sourceConnectionID,
    sinkConnectionID := d.sinkConnectionID, consumerName := d.consumerName,
    continuityFingerprint := d.continuityFingerprint,
    createdFromPipelineVersionID := d.createdFromPipelineVersionID, status := .active,
    membershipRevision := 1, currentRunID := none, desiredState := .stopped, desiredRevision := 0,
    runSpec := none, lastEpoch := 0 }

/-- The tables with a new generation of the route in place of the active one. -/
def replaceGeneration (desired : DesiredStream) (current : Option ReplicationStream) :
    Except StreamError (ReplicationStream × Tables) := do
  let t := match current with
    | some s => t.retireReplicationStream s.id
    | none => t
  let row := desired.row (t.nextReplicationStreamGeneration desired.pipelineID desired.route)
  let t ← t.createReplicationStream row
  return (row, t)

/-- Reuses the active generation of the route when its continuity fingerprint matches, and replaces
it otherwise. -/
def resolveReplicationStream (desired : DesiredStream) :
    Except StreamError (ReplicationStream × Tables) := do
  require (desired.id ≠ "" ∧ desired.tenant ≠ "" ∧ desired.pipelineID ≠ "" ∧ desired.route ≠ "" ∧
    desired.sourceConnectionID ≠ "" ∧ desired.sinkConnectionID ≠ "" ∧ desired.consumerName ≠ "" ∧
    desired.continuityFingerprint ≠ "" ∧ desired.createdFromPipelineVersionID ≠ "")
    (.other "resolve replication stream: required identity is missing")
  require (t.LockPipelineForReplicationStream desired.pipelineID desired.tenant) .errNotFound
  match t.getActiveReplicationStream desired.pipelineID desired.route with
  | some current =>
    if current.continuityFingerprint = desired.continuityFingerprint then return (current, t)
    else replaceGeneration t desired (some current)
  | none => replaceGeneration t desired none

/-! ### Succession -/

/-- Makes a waiting successor the current run once the previous run has ended and no attempt is
live. -/
def promoteStreamSuccessor (id : String) (tenant : TenantID) : Except StreamError Tables := do
  let stream ← ofOption (.other "no rows in result set") (t.getReplicationStream id)
  match t.streamSuccessor tenant stream.ref with
  | none => return t
  | some successor =>
    if t.StreamSettled stream then do
      let run := successor.state.run
      let spec := executionSpec
        { RunState.fresh run tenant with request := successor.state.request }
      let t := reviseStreamMembership t stream spec
      require ((t.promoteStreamSuccessor id tenant run spec).1 = 1) .errVersionConflict
      let t := (t.promoteStreamSuccessor id tenant run spec).2
      require (affected (RunRow.ScheduledAs run tenant) t.runs = 1)
        (.other "stream: successor run is no longer scheduled")
      let t ← t.requestSuccessorRun run tenant
      t.syncContinuousRunPhase id tenant
    else return t

/-- Finishes a stopped run once nothing is live on its generation, then promotes a waiting
successor. -/
def settleStoppedStream (id : String) (tenant : TenantID) (stamp : ℕ) :
    Except StreamError Tables := do
  let t ← t.syncContinuousRunPhase id tenant
  let t ← t.finishStoppedContinuousRun id tenant stamp
  promoteStreamSuccessor t id tenant

/-- Withdraws the newest waiting successor unless it is `keep`. -/
def cancelStreamSuccessor (keep : RunID) (stamp : ℕ) : Except StreamError Tables :=
  match t.streamSuccessor stream.tenantID stream.ref with
  | none => .ok t
  | some successor =>
    if successor.state.run = keep then .ok t
    else t.cancelSuccessorRun successor.state.run stream.tenantID stamp

/-- Parks a run submitted against a live generation and asks the live run to stop. -/
def queueStreamSuccessor (r : RunState) (stamp : ℕ) : Except StreamError Tables := do
  let ref ← ofOption (.other "stream: identity and selected resources required")
    r.request.replicationStream
  require (r.request.resources ≠ []) (.other "stream: identity and selected resources required")
  let stream ← ofOption (.other "no rows in result set")
    (t.lockReplicationStreamGeneration ref.id r.tenant ref.generation)
  let t ← cancelStreamSuccessor t stream r.run stamp
  require ((t.stopStreamForSuccessor stream.id stream.tenantID).1 = 1) .errVersionConflict
  settleStoppedStream (t.stopStreamForSuccessor stream.id stream.tenantID).2 stream.id
    stream.tenantID stamp

/-- Activates a stream without a live run for an admitted run. -/
def initializeContinuousActivation (r : RunState) : Except StreamError Tables := do
  let ref ← ofOption (.other "stream: identity and selected resources required")
    r.request.replicationStream
  require (r.request.resources ≠ []) (.other "stream: identity and selected resources required")
  let stream ← ofOption (.other "no rows in result set")
    (t.lockReplicationStreamGeneration ref.id r.tenant ref.generation)
  require (∀ previous ∈ t.getLatestRouteAttempt r.request.pipelineID r.request.checkpointRoute
    r.tenant, previous.Clean) .errTakeoverBlocked
  let spec := executionSpec r
  if stream.currentRunID ≠ none then do
    require (stream.desiredState = .stopped) .errRunOverlap
    let t := reviseStreamMembership t stream spec
    require ((t.replaceStoppedActivation ref.id r.tenant r.run spec).1 = 1) .errVersionConflict
    return (t.replaceStoppedActivation ref.id r.tenant r.run spec).2
  else
    return r.request.resources.foldl (fun t name => t.activateStreamResource ref.id r.tenant name)
      (t.initializeStreamExecution ref.id r.tenant r.run spec)

/-! ### Operations -/

/-- The run a continuous admission creates: it waits when the stream has a live run. -/
def admitted (r : RunState) (stream : ReplicationStream) : RunState :=
  let r := { r with request := { r.request with replicationStream := some stream.ref } }
  if r.request.options.execution.normalize = .continuous ∧ t.StreamHasLiveRun stream.id r.tenant then
    { r with status := .runScheduled }
  else r

/-- The admission of a run to its stream, after its row is written. -/
def admitRun (r : RunState) (stamp : ℕ) : Except StreamError Tables :=
  if r.request.options.execution.normalize = .continuous then
    if r.status = .runScheduled then queueStreamSuccessor t r stamp
    else initializeContinuousActivation t r
  else .ok t

/-- Creates a run, together with the stream it asks for. -/
def createRun (r : RunState) (desired : Option DesiredStream) (clock : Clock) :
    Except StreamError Tables :=
  match desired with
  | none => t.createRun r clock.began
  | some d => do
    require (d.tenant = r.tenant ∧ d.pipelineID = r.request.pipelineID ∧
      d.route = r.request.checkpointRoute)
      (.other "desired replication stream does not match run route identity")
    let (stream, t) ← resolveReplicationStream t d
    let r := admitted t r stream
    let t ← t.createRun r clock.began
    admitRun t r clock.stamp

/-- The specification names its run and the generation it runs on, and no attempt. -/
def validateActivation (spec : RunSpec) : Except StreamError Unit := do
  require (spec.request.tenant = req.tenant ∧ spec.request.pipelineID = stream.pipelineID ∧
    spec.request.checkpointRoute = stream.routeKey ∧
    spec.request.replicationStream = some req.stream ∧ spec.run ≠ "" ∧ spec.executionID = "" ∧
    spec.streamAttempt = none ∧ spec.request.resources ≠ [] ∧
    spec.request.options.execution = .continuous ∧
    spec.request.sourceConnectionID = stream.sourceConnectionID ∧
    spec.request.sinkConnectionID = stream.sinkConnectionID)
    (.other "stream: activation identity mismatch")
  let run ← ofOption .errNotFound (t.loadRunRequest spec.run stream.tenantID stream.pipelineID
    spec.request.pipelineVersionID)
  require (run.tenant = spec.request.tenant ∧ run.replicationStream = some req.stream ∧
    run.checkpointRoute = spec.request.checkpointRoute ∧ run.options.execution = .continuous)
    (.other "stream: activation does not match admitted run")

/-- Initializes the execution of an admitted run; an existing activation is never changed. -/
def activateStream (spec : RunSpec) : Except StreamError Tables := do
  let stream ← lockRuntime t req
  require (stream.status = .active) .errFenced
  match t.getStreamExecution stream.id stream.tenantID with
  | some current => do
    require (current.runSpec = some spec) .errVersionConflict
    return t
  | none => do
    validateActivation t stream req spec
    return t.initializeStreamExecution stream.id stream.tenantID spec.run spec

/-- A change of intent under optimistic revision control. -/
structure DesiredStateChange where
  request : StreamStateRequest
  expectedRevision : ℕ
  desired : StreamDesiredState
  deriving DecidableEq, Repr

/-- Persists intent; a stopped activation is not started again. -/
def setDesiredState (change : DesiredStateChange) (stamp : ℕ) : Except StreamError Tables := do
  let stream ← lockRuntime t change.request
  require (stream.status = .active) .errFenced
  let current ← ofOption .errVersionConflict (t.getStreamExecution stream.id stream.tenantID)
  require (current.desiredState = .stopped → change.desired = .stopped)
    (.other "stream: stopped activation requires a new start")
  require ((t.changeStreamDesiredState stream.id stream.tenantID change.expectedRevision
    change.desired).1 = 1) .errVersionConflict
  let t := (t.changeStreamDesiredState stream.id stream.tenantID change.expectedRevision
    change.desired).2
  let t ← (if change.desired = .stopped then cancelStreamSuccessor t stream "" stamp else .ok t)
  settleStoppedStream t stream.id stream.tenantID stamp

end Filament.Streams
