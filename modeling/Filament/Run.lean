import Mathlib.Algebra.Order.Ring.Unbundled.Rat

/-!
# Runs

The request and the persisted state of a run, as far as the tracker, the lifecycle commands, the
reaper and the stream store read them.

* `IngestionType`, `typeFor`, `sourcePolicyForIngestion` : how a resource is read;
* `RunRequest`, `RunRequest.resourceCheckpointKey` : the request and the cross-run key of a
  resource's progress;
* `checkpointCoverageFor` : whether none, some or all resources have a resumable cursor;
* `RunState`, `ResourceState`, `RunStatus`.

Counters are unbounded integers, times are natural numbers.
-/

namespace Filament

abbrev RunID := String

abbrev TenantID := String

/-- The read mode of a source. -/
inductive ReadMode where
  | modeFull
  | modeIncremental
  | modeCDC
  deriving DecidableEq, Repr

/-- When a cursor may be persisted; `unset` is the empty policy. -/
inductive CheckpointPolicy where
  | unset
  | checkpointNone
  | checkpointAfterBatch
  | checkpointAfterCommit
  deriving DecidableEq, Repr

/-- What the source reads crossed with how the sink lands it; `unset` is the empty type. -/
inductive IngestionType where
  | unset
  | fullReplace
  | fullUpsert
  | fullAppend
  | incrementalAppend
  | incrementalUpsert
  | incrementalDelete
  | cdcMerge
  | cdcAppend
  deriving DecidableEq, Repr

/-- Substitutes `fullReplace` for the empty type. -/
def IngestionType.orDefault : IngestionType → IngestionType
  | .unset => .fullReplace
  | t => t

/-- The ingestion type of a resource: its own entry, otherwise the route default, the entry of the
empty name. -/
def typeFor (types : List (String × IngestionType)) (resource : String) : IngestionType :=
  match types.lookup resource with
  | some t => t.orDefault
  | none => ((types.lookup "").getD .unset).orDefault

/-- The read side of a policy. -/
structure SourcePolicy where
  mode : ReadMode
  checkpointing : CheckpointPolicy
  deriving DecidableEq, Repr

/-- The canonical read-side policy of an ingestion type. -/
def sourcePolicyForIngestion (t : IngestionType) : SourcePolicy :=
  match t.orDefault with
  | .cdcMerge | .cdcAppend => ⟨.modeCDC, .checkpointAfterCommit⟩
  | .fullUpsert => ⟨.modeFull, .checkpointAfterBatch⟩
  | .incrementalAppend | .incrementalUpsert | .incrementalDelete =>
    ⟨.modeIncremental, .checkpointAfterBatch⟩
  | _ => ⟨.modeFull, .checkpointNone⟩

/-- Whether none, some or all selected resources can resume from a durable cursor. -/
inductive CheckpointCoverage where
  | coverageNone
  | coverageSome
  | coverageAll
  deriving DecidableEq, Repr

/-- The read-side checkpoint coverage of a run. -/
def checkpointCoverageFor (resources : List String) (types : List (String × IngestionType)) :
    CheckpointCoverage :=
  let selected :=
    if resources ≠ [] then resources.map (typeFor types) else types.map Prod.snd
  let checkpointed :=
    selected.countP fun t => (sourcePolicyForIngestion t).checkpointing ≠ .checkpointNone
  if checkpointed = 0 then .coverageNone
  else if checkpointed = selected.length then .coverageAll
  else .coverageSome

/-- The execution mode of a run; `unset` is the empty mode. -/
inductive ExecutionMode where
  | unset
  | bounded
  | continuous
  deriving DecidableEq, Repr

/-- Substitutes `bounded` for the empty mode. -/
def ExecutionMode.normalize : ExecutionMode → ExecutionMode
  | .unset => .bounded
  | e => e

/-- One admitted generation of a replication stream. -/
structure StreamRef where
  id : String
  generation : ℕ
  deriving DecidableEq, Repr

/-- Durable progress shared by the runs of one pipeline route. -/
structure ResourceCheckpointKey where
  pipelineID : String
  pipelineVersionID : String
  route : String
  resource : String
  replicationStreamID : String
  deriving DecidableEq, Repr

/-- The options of a run. -/
structure RunOptions where
  checkpointEvery : ℤ
  execution : ExecutionMode
  deriving DecidableEq, Repr

/-- The request of a run. -/
structure RunRequest where
  tenant : TenantID
  pipelineID : String
  pipelineVersionID : String
  sourceConnectionID : String
  sinkConnectionID : String
  resources : List String
  ingestionTypes : List (String × IngestionType)
  checkpointRoute : String
  replicationStream : Option StreamRef
  columns : List (String × List String)
  partitions : List (String × List String)
  resync : List String
  /-- The destination names of the write policies. -/
  destinations : List (String × String)
  options : RunOptions
  deriving DecidableEq, Repr

/-- The request of a run first seen in a fact. -/
def RunRequest.zero : RunRequest :=
  ⟨"", "", "", "", "", [], [], "", none, [], [], [], [], ⟨0, .unset⟩⟩

namespace RunRequest

/-- The stream of the request; empty without one. -/
def streamID (r : RunRequest) : String :=
  match r.replicationStream with
  | some stream => stream.id
  | none => ""

/-- The stable cross-run key of a resource, when the request comes from a versioned pipeline
route. -/
def resourceCheckpointKey (r : RunRequest) (resource : String) : Option ResourceCheckpointKey :=
  if r.pipelineID = "" ∨ r.checkpointRoute = "" ∨ resource = "" then none
  else if r.streamID ≠ "" then
    some ⟨r.pipelineID, r.pipelineVersionID, r.checkpointRoute, resource, r.streamID⟩
  else if r.pipelineVersionID = "" then none
  else some ⟨r.pipelineID, r.pipelineVersionID, r.checkpointRoute, resource, ""⟩

/-- The read mode of a resource. -/
def readMode (r : RunRequest) (resource : String) : ReadMode :=
  (sourcePolicyForIngestion (typeFor r.ingestionTypes resource)).mode

/-- A resource read incrementally or from a change stream: its progress is shared across runs. -/
def crossRun (r : RunRequest) (resource : String) : Bool :=
  r.readMode resource = .modeIncremental || r.readMode resource = .modeCDC

theorem resourceCheckpointKey_resource {r : RunRequest} {resource : String}
    {key : ResourceCheckpointKey} (h : r.resourceCheckpointKey resource = some key) :
    key.resource = resource := by
  unfold resourceCheckpointKey at h
  split_ifs at h <;> cases h <;> rfl

end RunRequest

/-- The lifecycle state of a run or a resource. -/
inductive RunStatus where
  | runRequested
  | runRunning
  | runCompleted
  | runFailed
  | runCanceled
  | runPaused
  | runPartial
  | runScheduled
  deriving DecidableEq, Repr

/-- The state of one resource of a run. -/
structure ResourceState where
  enabled : Bool
  status : RunStatus
  records : ℤ
  bytes : ℤ
  error : String
  deriving DecidableEq, Repr

/-- The persisted record of a run. A resource is only ever reached by its name. -/
structure RunState where
  run : RunID
  tenant : TenantID
  status : RunStatus
  request : RunRequest
  resources : String → Option ResourceState
  records : ℤ
  bytes : ℤ
  startedAt : Option ℕ
  endedAt : Option ℕ
  error : String
  cpuSeconds : ℚ
  memoryPeakBytes : ℤ

/-- The state of a run first seen in a fact. -/
def RunState.fresh (run : RunID) (tenant : TenantID) : RunState :=
  ⟨run, tenant, .runRequested, .zero, fun _ => none, 0, 0, none, none, "", 0, 0⟩

end Filament
