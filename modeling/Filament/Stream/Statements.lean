import Filament.Stream.Tables
import Filament.Datastore.Runs

/-!
# The statements of the stream store

The queries of `queries/stream_runtime.sql`, `queries/replication_streams.sql`,
`queries/stream_epochs.sql` and the run admission of `queries/runs.sql`, one definition per
statement, over the tables.

* a read returns the row it finds;
* a write that reports how many rows it touched returns that number with the new tables;
* a write to the runs fails when two active runs would share a route, as the unique indexes of the
  table demand.

A run's status and the intent of a stream are written by different statements; what decides who waits
is `RunRow.Waits`.
-/

namespace Filament.Streams

open Table

/-! ### Runs and their indexes -/

namespace RunRow

/-- The run occupies its route. -/
def Active (r : RunRow) : Prop :=
  r.state.status = .runRequested ∨ r.state.status = .runRunning ∨ r.state.status = .runPaused

instance (r : RunRow) : Decidable r.Active := inferInstanceAs (Decidable (_ ∨ _))

/-- The two runs violate a unique index: both are active on one route of a pipeline, and both belong
to a stream (`runs_active_replication_route_idx`) or both to the same pipeline version
(`runs_active_checkpoint_route_idx`).  An empty identifier is stored as a null and violates none. -/
def Overlaps (a b : RunRow) : Prop :=
  a.Active ∧ b.Active ∧ a.state.request.pipelineID ≠ "" ∧
    a.state.request.pipelineID = b.state.request.pipelineID ∧
    a.state.request.checkpointRoute = b.state.request.checkpointRoute ∧
    ((a.state.request.streamID ≠ "" ∧ b.state.request.streamID ≠ "") ∨
      (a.state.request.checkpointRoute ≠ "" ∧ a.state.request.pipelineVersionID ≠ "" ∧
        a.state.request.pipelineVersionID = b.state.request.pipelineVersionID))

instance (a b : RunRow) : Decidable (a.Overlaps b) := inferInstanceAs (Decidable (_ ∧ _))

/-- The run is a waiting successor of a generation. -/
def Waits (tenant : TenantID) (ref : StreamRef) (r : RunRow) : Prop :=
  r.state.tenant = tenant ∧ r.state.status = .runScheduled ∧ r.state.request.replicationStream = some ref

instance (tenant : TenantID) (ref : StreamRef) : DecidablePred (Waits tenant ref) :=
  fun _ => inferInstanceAs (Decidable (_ ∧ _))

/-- The row of a scheduled run after it is created again: certified totals belong to the epochs. -/
def refresh (r : RunState) (old : RunRow) : RunRow :=
  let counted := old.lastCommittedAt ≠ none ∨ old.state.request.options.execution = .continuous
  { old with
    state :=
      { r.upsert (some old.state) with
        records := if counted then old.state.records else r.records
        bytes := if counted then old.state.bytes else r.bytes } }

/-- `AddResourceProgress` -/
def addProgress (r : RunState) (receipt : EpochReceipt) : RunState :=
  { r with
    resources := Function.update r.resources receipt.resource <| some <|
      match r.resources receipt.resource with
      | some rs => { rs with records := rs.records + receipt.rows, bytes := rs.bytes + receipt.bytes }
      | none => ⟨true, .runRunning, receipt.rows, receipt.bytes, ""⟩ }

/-- The row of a run after an epoch of it is stored. -/
def credit (e : StreamEpoch) (r : RunRow) : RunRow :=
  { r with
    state := e.certificate.receipts.foldl addProgress
      { r.state with
        records := r.state.records + e.certificate.records
        bytes := r.state.bytes + e.certificate.bytes }
    lastCommittedAt := some e.committedAt }

/-- The row of a run that is still scheduled. -/
def ScheduledAs (run : RunID) (tenant : TenantID) (r : RunRow) : Prop :=
  r.state.run = run ∧ r.state.tenant = tenant ∧ r.state.status = .runScheduled

instance (run : RunID) (tenant : TenantID) : DecidablePred (ScheduledAs run tenant) :=
  fun _ => inferInstanceAs (Decidable (_ ∧ _))

end RunRow

/-- No two runs violate a unique index. -/
def RouteFence (rows : List RunRow) : Prop := rows.Pairwise fun a b => ¬ a.Overlaps b

instance (rows : List RunRow) : Decidable (RouteFence rows) :=
  inferInstanceAs (Decidable (List.Pairwise _ _))

namespace Tables

/-! ### Statements over one table -/

variable (t : Tables) (id : String) (tenant : TenantID)

/-- Rewrites streams, and counts them. -/
def updateStreams (p : ReplicationStream → Prop) [DecidablePred p]
    (f : ReplicationStream → ReplicationStream) : ℕ × Tables :=
  (affected p t.streams, { t with streams := update p f t.streams })

/-- Rewrites attempts, and counts them. -/
def updateAttempts (p : StreamAttempt → Prop) [DecidablePred p]
    (f : StreamAttempt → StreamAttempt) : ℕ × Tables :=
  (affected p t.attempts, { t with attempts := update p f t.attempts })

/-- Rewrites members. -/
def updateMembers (p : Member → Prop) [DecidablePred p] (f : Member → Member) : Tables :=
  { t with members := update p f t.members }

/-- The tables with other runs, unless these violate an index. -/
def putRuns (rows : List RunRow) (e : StreamError) : Except StreamError Tables :=
  if RouteFence rows then .ok { t with runs := rows } else .error e

/-- Rewrites the status of runs, and whatever else `f` sets. -/
def updateRuns (p : RunRow → Prop) [DecidablePred p] (f : RunState → RunState) :
    Except StreamError Tables :=
  t.putRuns (update p (fun r => { r with state := f r.state }) t.runs)
    (.constraint "runs_active_replication_route_idx")

/-! ### Streams -/

/-- `GetReplicationStreamPipelineID` -/
def getReplicationStreamPipelineID (generation : ℕ) : Option String :=
  (first (fun s => s.id = id ∧ s.tenantID = tenant ∧ s.generation = generation) t.streams).map
    ReplicationStream.pipelineID

/-- `LockPipelineForReplicationStream` finds the pipeline. -/
def LockPipelineForReplicationStream (pipeline : String) (tenant : TenantID) : Prop :=
  ∃ p ∈ t.pipelines pipeline, p.tenantID = tenant ∧ p.deleted = false

instance (pipeline : String) (tenant : TenantID) :
    Decidable (t.LockPipelineForReplicationStream pipeline tenant) :=
  inferInstanceAs (Decidable (∃ p ∈ t.pipelines pipeline, _))

/-- `LockReplicationStreamGeneration` -/
def lockReplicationStreamGeneration (generation : ℕ) : Option ReplicationStream :=
  first (fun s => s.id = id ∧ s.tenantID = tenant ∧ s.generation = generation) t.streams

/-- `LockReplicationStream` finds the stream. -/
def LockReplicationStream : Prop :=
  ∃ s ∈ t.streams, s.id = id ∧ s.tenantID = tenant ∧ s.status = .active

instance : Decidable (t.LockReplicationStream id tenant) :=
  inferInstanceAs (Decidable (∃ s ∈ t.streams, _))

/-- `GetReplicationStream` -/
def getReplicationStream (id : String) : Option ReplicationStream :=
  first (fun s => s.id = id) t.streams

/-- `GetActiveReplicationStream` -/
def getActiveReplicationStream (pipeline route : String) : Option ReplicationStream :=
  first (fun s => s.pipelineID = pipeline ∧ s.routeKey = route ∧ s.status = .active) t.streams

/-- `NextReplicationStreamGeneration` -/
def nextReplicationStreamGeneration (pipeline route : String) : ℕ :=
  ((t.streams.filter fun s => s.pipelineID = pipeline ∧ s.routeKey = route).map
    ReplicationStream.generation).foldr max 0 + 1

/-- `RetireReplicationStream` -/
def retireReplicationStream (id : String) : Tables :=
  (t.updateStreams (fun s => s.id = id ∧ s.status = .active) fun s => { s with status := .retired }).2

/-- `CreateReplicationStream`: the identifier and the consumer of a connection are unique. -/
def createReplicationStream (s : ReplicationStream) : Except StreamError Tables :=
  if ∃ old ∈ t.streams, old.id = s.id ∨
      (old.sourceConnectionID = s.sourceConnectionID ∧ old.consumerName = s.consumerName) then
    .error (.constraint "replication_streams")
  else .ok { t with streams := t.streams ++ [s] }

/-- The execution columns of a stream that has a run. -/
structure StreamExecution where
  runID : RunID
  pipelineVersionID : String
  desiredState : StreamDesiredState
  revision : ℕ
  runSpec : Option RunSpec
  lastEpoch : ℕ
  deriving DecidableEq, Repr

/-- `GetStreamExecution` -/
def getStreamExecution : Option StreamExecution := do
  let s ← first (fun s => s.id = id ∧ s.tenantID = tenant) t.streams
  let run ← s.currentRunID
  return ⟨run, (s.runSpec.map fun spec => spec.request.pipelineVersionID).getD "", s.desiredState,
    s.desiredRevision, s.runSpec, s.lastEpoch⟩

/-- `InitializeStreamExecution` -/
def initializeStreamExecution (run : RunID) (spec : RunSpec) : Tables :=
  (t.updateStreams (fun s => s.id = id ∧ s.tenantID = tenant ∧ s.currentRunID = none) fun s =>
    { s with
      currentRunID := some run, desiredState := .enabled, desiredRevision := 1,
      runSpec := some spec }).2

/-- `ChangeStreamDesiredState` -/
def changeStreamDesiredState (revision : ℕ) (desired : StreamDesiredState) : ℕ × Tables :=
  t.updateStreams
    (fun s => s.id = id ∧ s.tenantID = tenant ∧ s.desiredRevision = revision ∧ s.currentRunID ≠ none)
    fun s => { s with desiredState := desired, desiredRevision := s.desiredRevision + 1 }

/-- `ReplaceStoppedActivation` -/
def replaceStoppedActivation (run : RunID) (spec : RunSpec) : ℕ × Tables :=
  t.updateStreams (fun s => s.id = id ∧ s.tenantID = tenant ∧ s.desiredState = .stopped) fun s =>
    { s with
      currentRunID := some run, runSpec := some spec, desiredState := .enabled,
      desiredRevision := s.desiredRevision + 1 }

/-- `StopStreamForSuccessor` -/
def stopStreamForSuccessor : ℕ × Tables :=
  t.updateStreams (fun s => s.id = id ∧ s.tenantID = tenant ∧ s.currentRunID ≠ none) fun s =>
    { s with desiredState := .stopped, desiredRevision := s.desiredRevision + 1 }

/-- `PromoteStreamSuccessor` -/
def promoteStreamSuccessor (run : RunID) (spec : RunSpec) : ℕ × Tables :=
  t.updateStreams (fun s => s.id = id ∧ s.tenantID = tenant ∧ s.currentRunID ≠ none) fun s =>
    { s with
      currentRunID := some run, runSpec := some spec, desiredState := .enabled,
      desiredRevision := s.desiredRevision + 1 }

/-- `AdvanceStreamEpoch` -/
def advanceStreamEpoch (epoch previous : ℕ) : ℕ × Tables :=
  t.updateStreams (fun s => s.id = id ∧ s.tenantID = tenant ∧ s.lastEpoch = previous) fun s =>
    { s with lastEpoch := epoch }

/-- `BumpReplicationStreamMembershipRevision` -/
def bumpReplicationStreamMembershipRevision : Tables :=
  (t.updateStreams (fun s => s.id = id ∧ s.tenantID = tenant) fun s =>
    { s with membershipRevision := s.membershipRevision + 1 }).2

/-! ### Members -/

/-- `ListReplicationStreamResources` -/
def listReplicationStreamResources (id : String) : List Member :=
  t.members.filter fun m => m.streamID = id

/-- `UpsertReplicationStreamResource`: a retired name starts over. -/
def upsertReplicationStreamResource
    (mode name : String) : Tables :=
  if ∃ m ∈ t.members, m.streamID = id ∧ m.resourceName = name then
    t.updateMembers (fun m => m.streamID = id ∧ m.resourceName = name) fun m =>
      if m.status = .retired then
        { m with status := .pending, bootstrapMode := mode, activatedAt := none }
      else { m with bootstrapMode := mode }
  else { t with members := t.members ++ [⟨id, tenant, name, .pending, mode, none⟩] }

/-- `RetireReplicationStreamResources` -/
def retireReplicationStreamResources (id : String) (names : List String) : Tables :=
  t.updateMembers (fun m => m.streamID = id ∧ m.status ≠ .retired ∧ m.resourceName ∉ names) fun m =>
    { m with status := .retired }

/-- `ResetStreamMembers` -/
def resetStreamMembers (names : List String) : Tables :=
  t.updateMembers
    (fun m => m.streamID = id ∧ m.tenantID = tenant ∧ m.resourceName ∈ names ∧ m.status = .active)
    fun m => { m with status := .pending, activatedAt := none }

/-- The members that `ActivateStreamMembers` admits. -/
def Activates (names : List String) (m : Member) : Prop :=
  m.streamID = id ∧ m.tenantID = tenant ∧ m.resourceName ∈ names ∧
    (m.status = .pending ∨ m.status = .bootstrapping ∨ m.status = .error)

instance (names : List String) :
    DecidablePred (Activates id tenant names) := fun _ => inferInstanceAs (Decidable (_ ∧ _))

/-- `ActivateStreamMembers` -/
def activateStreamMembers (names : List String) (stamp : ℕ) : ℕ × Tables :=
  (affected (Activates id tenant names) t.members,
    t.updateMembers (Activates id tenant names) fun m =>
      { m with status := .active, activatedAt := m.activatedAt.or (some stamp) })

/-- `ActivateStreamResource` -/
def activateStreamResource (name : String) : Tables :=
  if ∃ m ∈ t.members, m.streamID = id ∧ m.resourceName = name then t
  else { t with members := t.members ++ [⟨id, tenant, name, .active, "none", none⟩] }

/-! ### Attempts -/

/-- The attempt is of a generation of the route. -/
def OnRoute (pipeline route : String) (tenant : TenantID) (a : StreamAttempt) : Prop :=
  ∃ s ∈ t.streams, s.id = a.streamID ∧ s.pipelineID = pipeline ∧ s.routeKey = route ∧
    s.tenantID = tenant

instance (pipeline route : String) (tenant : TenantID) :
    DecidablePred (t.OnRoute pipeline route tenant) :=
  fun _ => inferInstanceAs (Decidable (∃ s ∈ t.streams, _))

/-- `GetLatestRouteAttempt` -/
def getLatestRouteAttempt (pipeline route : String) (tenant : TenantID) : Option StreamAttempt :=
  newest (t.OnRoute pipeline route tenant) StreamAttempt.token t.attempts

/-- `GetStreamAttemptByExecutionID` -/
def getStreamAttemptByExecutionID (tenant : TenantID) (execution : String) : Option StreamAttempt :=
  first (fun a => a.tenantID = tenant ∧ a.executionID = execution) t.attempts

/-- `CreateStreamAttempt`: the token is the next of the sequence. -/
def createStreamAttempt (execution : String)
    (revision ttl : ℕ) (dispatchVersion : String) (stamp : ℕ) : StreamAttempt × Tables :=
  let a : StreamAttempt :=
    { token := t.sequence + 1, streamID := id, tenantID := tenant, executionID := execution,
      desiredRevision := revision, requestTtl := ttl, startedAt := stamp, claimedAt := none,
      runSpec := (first (fun s => s.id = id) t.streams).bind ReplicationStream.runSpec,
      expiresAt := stamp + ttl, ended := none, dispatchVersion := dispatchVersion,
      yieldRequestedAt := none }
  (a, { t with attempts := t.attempts ++ [a], sequence := t.sequence + 1 })

/-- `YieldStreamAttempt` -/
def yieldStreamAttempt (token : ℕ) (tenant : TenantID) (stamp : ℕ) : Tables :=
  (t.updateAttempts (fun a => a.token = token ∧ a.tenantID = tenant ∧ a.ended = none) fun a =>
    { a with yieldRequestedAt := a.yieldRequestedAt.or (some stamp) }).2

/-- `RenewStreamAttempt` -/
def renewStreamAttempt (token : ℕ) (tenant : TenantID) (ttl stamp : ℕ) : ℕ × Tables :=
  t.updateAttempts
    (fun a => a.token = token ∧ a.tenantID = tenant ∧ a.ended = none ∧ stamp < a.expiresAt)
    fun a => { a with expiresAt := max a.expiresAt (stamp + ttl) }

/-- `EndStreamAttempt` -/
def endStreamAttempt (token : ℕ) (tenant : TenantID) (termination : AttemptTermination)
    (reason : String) (requireLive : Bool) (stamp : ℕ) : ℕ × Tables :=
  t.updateAttempts
    (fun a => a.token = token ∧ a.tenantID = tenant ∧ a.ended = none ∧
      (requireLive = true → stamp < a.expiresAt))
    fun a => { a with ended := some ⟨stamp, termination, reason⟩ }

/-- `ClaimStreamAttempt` -/
def claimStreamAttempt (token : ℕ) (tenant : TenantID) (execution : String)
    (run : RunID) (stamp : ℕ) : ℕ × Tables :=
  t.updateAttempts
    (fun a => a.token = token ∧ a.tenantID = tenant ∧ a.executionID = execution ∧
      (∃ s ∈ t.streams, s.id = a.streamID ∧ s.currentRunID = some run ∧ s.status = .active ∧
        s.desiredState = .enabled) ∧
      a.claimedAt = none ∧ a.ended = none ∧ stamp < a.expiresAt)
    fun a => { a with claimedAt := some stamp }

/-- `RetireUnclaimedAttempt` -/
def retireUnclaimedAttempt (token : ℕ) (tenant : TenantID) (stamp : ℕ) : Tables :=
  (t.updateAttempts
    (fun a => a.token = token ∧ a.tenantID = tenant ∧ a.claimedAt = none ∧ a.ended = none ∧
      (a.expiresAt ≤ stamp ∨ ∃ s ∈ t.streams, s.id = a.streamID ∧ s.desiredState ≠ .enabled))
    fun a => { a with ended := some ⟨stamp, .clean, "dispatch retired before worker claim"⟩ }).2

/-! ### Runs -/

/-- The status of a run whose stream is not stopped. -/
def phase (s : ReplicationStream) : RunStatus :=
  if ∃ a ∈ t.attempts, a.streamID = s.id ∧ a.ended = none ∧ a.claimedAt ≠ none then .runRunning
  else if s.desiredState = .paused then .runPaused
  else .runRequested

/-- `SyncContinuousRunPhase` -/
def syncContinuousRunPhase : Except StreamError Tables :=
  match first (fun s => s.id = id ∧ s.tenantID = tenant) t.streams with
  | none => .ok t
  | some s =>
    t.updateRuns
      (fun r => s.currentRunID = some r.state.run ∧ r.state.endedAt = none ∧ s.desiredState ≠ .stopped)
      fun r => { r with status := t.phase s }

/-- `FinishStoppedContinuousRun` -/
def finishStoppedContinuousRun (stamp : ℕ) : Except StreamError Tables :=
  match first (fun s => s.id = id ∧ s.tenantID = tenant) t.streams with
  | none => .ok t
  | some s =>
    t.updateRuns
      (fun r => s.currentRunID = some r.state.run ∧ r.state.endedAt = none ∧
        s.desiredState = .stopped ∧ ∀ a ∈ t.attempts, a.streamID = s.id → a.Clean)
      fun r => { r with status := .runCompleted, endedAt := some stamp }

/-- `MarkContinuousRunStarted` -/
def markContinuousRunStarted (run : RunID) (tenant : TenantID) (stamp : ℕ) :
    Except StreamError Tables :=
  t.updateRuns (fun r => r.state.run = run ∧ r.state.tenant = tenant ∧ r.state.endedAt = none)
    fun r => { r with status := .runRunning, startedAt := r.startedAt.or (some stamp) }

/-- `StreamHasLiveRun` -/
def StreamHasLiveRun : Prop :=
  ∃ s ∈ t.streams, s.id = id ∧ s.tenantID = tenant ∧
    ∃ r ∈ t.runs, s.currentRunID = some r.state.run ∧ r.state.tenant = tenant ∧
      r.state.endedAt = none

instance : Decidable (t.StreamHasLiveRun id tenant) :=
  inferInstanceAs (Decidable (∃ s ∈ t.streams, _))

/-- `StreamSuccessor`: the newest waiting run of a generation. -/
def streamSuccessor (tenant : TenantID) (ref : StreamRef) : Option RunRow :=
  newest (RunRow.Waits tenant ref) RunRow.createdAt t.runs

/-- `StreamSettled`: the current run of the stream ended and nobody owns the stream. -/
def StreamSettled (s : ReplicationStream) : Prop :=
  (¬ ∃ r ∈ t.runs, s.currentRunID = some r.state.run ∧ r.state.tenant = s.tenantID ∧
    r.state.endedAt = none) ∧
  ¬ ∃ a ∈ t.attempts, a.streamID = s.id ∧ a.ended = none

instance (s : ReplicationStream) : Decidable (t.StreamSettled s) :=
  inferInstanceAs (Decidable (_ ∧ _))

/-- `RequestSuccessorRun` -/
def requestSuccessorRun (run : RunID) (tenant : TenantID) : Except StreamError Tables :=
  t.updateRuns (RunRow.ScheduledAs run tenant) fun r => { r with status := .runRequested }

/-- `CancelSuccessorRun` -/
def cancelSuccessorRun (run : RunID) (tenant : TenantID) (stamp : ℕ) : Except StreamError Tables :=
  t.updateRuns (RunRow.ScheduledAs run tenant) fun r =>
    { r with status := .runCanceled, endedAt := r.endedAt.or (some stamp) }

/-- `LoadRunRequest` -/
def loadRunRequest (run : RunID) (tenant : TenantID) (pipeline version : String) :
    Option RunRequest :=
  (first (fun r => r.state.run = run ∧ r.state.tenant = tenant ∧
      r.state.request.pipelineID = pipeline ∧ r.state.request.pipelineVersionID = version)
    t.runs).map fun r => r.state.request

/-- `CreateRun`: inserts the run, or refreshes its row while that is still scheduled. -/
def createRun (r : RunState) (began : ℕ) : Except StreamError Tables :=
  if ∃ old ∈ t.runs, old.state.run = r.run then
    if ∃ old ∈ t.runs, old.ScheduledAs r.run r.tenant then
      t.putRuns (update (RunRow.ScheduledAs r.run r.tenant) (RunRow.refresh r) t.runs) .errRunOverlap
    else .error .errVersionConflict
  else t.putRuns (t.runs ++ [⟨r.upsert none, began, none⟩]) .errRunOverlap

/-! ### Epochs -/

/-- `GetStreamEpoch` -/
def getStreamEpoch (epoch : ℕ) : Option StreamEpoch :=
  first (fun e => e.streamID = id ∧ e.tenantID = tenant ∧ e.epoch = epoch) t.epochs

/-- `LatestStreamPositions`; a stream without epochs has none. -/
def latestStreamPositions (s : ReplicationStream) : DomainPositions :=
  match first (fun e => e.streamID = s.id ∧ e.epoch = s.lastEpoch) t.epochs with
  | some e => e.positions
  | none => []

/-- `CreateStreamEpoch` with the resource rows of its receipts: inserts the epoch and adds its totals
to the run.  The statement returns a row only if the run exists. -/
def createStreamEpoch (e : StreamEpoch) (run : RunID) : Except StreamError Tables :=
  if ∃ r ∈ t.runs, r.state.tenant = e.tenantID ∧ r.state.run = run then
    .ok { t with
      epochs := t.epochs ++ [e]
      runs := update (fun r => r.state.tenant = e.tenantID ∧ r.state.run = run) (RunRow.credit e)
        t.runs }
  else .error (.other "no rows in result set")

end Tables

end Filament.Streams
