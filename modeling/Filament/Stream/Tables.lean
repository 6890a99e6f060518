import Filament.Lib.Table
import Filament.Stream.Epoch

/-!
# The tables of the stream store

The rows behind continuous replication (package `datastore/postgres`, migrations 5, 8, 9 and 11): the
generations of a pipeline route, their member resources, the runs, the attempts that own a stream
for a while and the epochs they commit.

* `ReplicationStream`, `Member`, `RunRow`, `StreamAttempt`, `StreamEpoch` : the rows;
* `Tables` : the tables, and the sequence that numbers attempts;
* `RunSpec`, `changedResources` : the execution inputs a stream is activated with.

A row keeps the columns that an operation reads.  Times are microseconds.
-/

namespace Filament.Streams

/-! ### Specifications -/

/-- Attempt ownership bound to its tenant. -/
structure LeaseToken where
  tenant : TenantID
  attempt : AttemptRef
  deriving DecidableEq, Repr

/-- The execution inputs of a run.  What a specification takes over from the request of its run is
kept as that request. -/
structure RunSpec where
  run : RunID
  startedAt : Option ℕ
  request : RunRequest
  executionID : String
  streamAttempt : Option AttemptRef
  deriving DecidableEq, Repr

/-- The specification a run is executed with. -/
def executionSpec (r : RunState) : RunSpec := ⟨r.run, r.startedAt, r.request, "", none⟩

/-- Two selections name the same columns; an absent selection is not an empty one. -/
def sameColumnSelection (a b : Option (List String)) : Bool :=
  a.isNone == b.isNone && (a.getD []).isPerm (b.getD [])

/-- The resources both specifications select whose read shape differs between them. -/
def changedResources (spec previous : RunSpec) : List String :=
  spec.request.resources.filter fun resource =>
    resource ∈ previous.request.resources ∧
      ¬ (sameColumnSelection (spec.request.columns.lookup resource)
            (previous.request.columns.lookup resource) ∧
          sameColumnSelection (spec.request.partitions.lookup resource)
            (previous.request.partitions.lookup resource) ∧
          (spec.request.destinations.lookup resource).getD "" =
            (previous.request.destinations.lookup resource).getD "")

/-! ### Rows -/

/-- A pipeline; a deleted one is kept. -/
structure Pipeline where
  tenantID : TenantID
  deleted : Bool
  deriving DecidableEq, Repr

/-- Whether a generation owns its route. -/
inductive StreamStatus where
  | active
  | retired
  | error
  deriving DecidableEq, Repr

/-- The intended execution of a stream, independent of any worker. -/
inductive StreamDesiredState where
  | enabled
  | paused
  | stopped
  deriving DecidableEq, Repr

/-- One generation of a pipeline route. -/
structure ReplicationStream where
  id : String
  tenantID : TenantID
  pipelineID : String
  routeKey : String
  generation : ℕ
  sourceConnectionID : String
  sinkConnectionID : String
  consumerName : String
  continuityFingerprint : String
  createdFromPipelineVersionID : String
  status : StreamStatus
  membershipRevision : ℕ
  currentRunID : Option RunID
  desiredState : StreamDesiredState
  desiredRevision : ℕ
  runSpec : Option RunSpec
  lastEpoch : ℕ
  deriving DecidableEq, Repr

/-- The reference of a generation that run requests carry. -/
def ReplicationStream.ref (s : ReplicationStream) : StreamRef := ⟨s.id, s.generation⟩

/-- The membership of a resource in a stream. -/
inductive MemberStatus where
  | pending
  | bootstrapping
  | active
  | retired
  | error
  deriving DecidableEq, Repr

/-- One resource of a stream. -/
structure Member where
  streamID : String
  tenantID : TenantID
  resourceName : String
  status : MemberStatus
  bootstrapMode : String
  activatedAt : Option ℕ
  deriving DecidableEq, Repr

/-- A run, with the stamps that `RunState` does not carry. -/
structure RunRow where
  state : RunState
  createdAt : ℕ
  lastCommittedAt : Option ℕ

/-- How an attempt ended. -/
inductive AttemptTermination where
  | clean
  | reaped
  | unproven
  deriving DecidableEq, Repr

/-- The end of an attempt.  The end and its termination are only ever set together. -/
structure AttemptEnd where
  endedAt : ℕ
  termination : AttemptTermination
  reason : String
  deriving DecidableEq, Repr

/-- One worker lifetime admitted to a stream. -/
structure StreamAttempt where
  token : ℕ
  streamID : String
  tenantID : TenantID
  executionID : String
  desiredRevision : ℕ
  requestTtl : ℕ
  startedAt : ℕ
  claimedAt : Option ℕ
  runSpec : Option RunSpec
  expiresAt : ℕ
  ended : Option AttemptEnd
  dispatchVersion : String
  yieldRequestedAt : Option ℕ
  deriving DecidableEq, Repr

/-- The attempt ended and its owner proved closure. -/
def StreamAttempt.Clean (a : StreamAttempt) : Prop :=
  a.ended.map AttemptEnd.termination = some .clean

instance (a : StreamAttempt) : Decidable a.Clean := inferInstanceAs (Decidable (_ = _))

theorem StreamAttempt.not_clean_of_unended {a : StreamAttempt} (h : a.ended = none) : ¬ a.Clean := by
  simp [Clean, h]

/-! ### Epochs -/

/-- A committed epoch.  The stored bytes are the canonical encoding of the certificate, and the
positions are the progress of every domain after it. -/
structure StreamEpoch where
  streamID : String
  tenantID : TenantID
  epoch : ℕ
  attemptToken : ℕ
  certificate : EpochCertificate
  positions : DomainPositions
  committedAt : ℕ
  deriving DecidableEq, Repr

/-! ### Tables -/

/-- The tables; `sequence` is the last token an attempt was numbered with. -/
structure Tables where
  pipelines : String → Option Pipeline
  streams : List ReplicationStream
  members : List Member
  runs : List RunRow
  attempts : List StreamAttempt
  epochs : List StreamEpoch
  sequence : ℕ

/-- The tables of a store with pipelines and nothing else. -/
def Tables.fresh (pipelines : String → Option Pipeline) : Tables := ⟨pipelines, [], [], [], [], [], 0⟩

/-- What a transaction reads from the database clock: its begin, the time its checks are made at, and
the time its writes are stamped with. -/
structure Clock where
  began : ℕ
  now : ℕ
  stamp : ℕ
  deriving DecidableEq, Repr

end Filament.Streams
